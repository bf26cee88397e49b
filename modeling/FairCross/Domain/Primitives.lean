import FairCross.Domain.Error

/-!
# Domain primitives

`domain/primitives.hpp`. Prices and quantities are 64-bit, money is 128-bit. Sums and differences
are checked; the raw arithmetic under a passed check is the machine's, which wraps. Signed arithmetic
does not: a sum that leaves `int64_t` is undefined, and has no result here.
-/

namespace FairCross

/-- `uint64_t`. -/
abbrev U64 := Fin (2 ^ 64)

/-- `uint16_t`. -/
abbrev U16 := Fin (2 ^ 16)

/-- `uint32_t`. -/
abbrev U32 := Fin (2 ^ 32)

/-- `unsigned __int128`. -/
abbrev U128 := Fin (2 ^ 128)

instance neZeroU16 : NeZero (2 ^ 16) := ⟨by decide⟩

instance neZeroU32 : NeZero (2 ^ 32) := ⟨by decide⟩

instance neZeroU64 : NeZero (2 ^ 64) := ⟨by decide⟩

instance neZeroU128 : NeZero (2 ^ 128) := ⟨by decide⟩

/-- The conversion to `uint64_t`, which keeps the low 64 bits. -/
def toU64 (n : ℕ) : U64 := Fin.ofNat _ n

@[simp] theorem toU64_val (n : ℕ) : (toU64 n : ℕ) = n % 2 ^ 64 := rfl

@[simp] theorem toU64_coe (a : U64) : toU64 a = a := by
  apply Fin.ext; rw [toU64_val]; exact Nat.mod_eq_of_lt a.isLt

/-- The numbers an `int64_t` holds. -/
def InI64 (n : ℤ) : Prop := -2 ^ 63 ≤ n ∧ n < 2 ^ 63

instance (n : ℤ) : Decidable (InI64 n) := inferInstanceAs (Decidable (_ ∧ _))

/-- `int64_t`. -/
abbrev I64 := { n : ℤ // InI64 n }

namespace I64

def zero : I64 := ⟨0, by decide⟩

/-- Signed addition. Overflow has no result. -/
def add (a b : I64) : Option I64 := if h : InI64 (a + b) then some ⟨a + b, h⟩ else none

/-- Signed division, towards zero. A zero divisor and overflow have no result. -/
def div (a b : I64) : Option I64 :=
  if h : (b : ℤ) ≠ 0 ∧ InI64 ((a : ℤ).tdiv b) then some ⟨(a : ℤ).tdiv b, h.2⟩ else none

/-- The conversion from `uint64_t`, which reads the upper half as negative. -/
def ofU64 (n : U64) : I64 :=
  if h : (n : ℕ) < 2 ^ 63 then ⟨n, by unfold InI64; omega⟩
  else ⟨n - 2 ^ 64, by have := n.isLt; unfold InI64; omega⟩

theorem add_eq_some {a b c : I64} : a.add b = some c ↔ (c : ℤ) = a + b := by
  unfold add
  split_ifs with h
  · rw [Option.some.injEq, Subtype.ext_iff]
    exact eq_comm
  · simp only [false_iff]
    intro heq
    exact h (heq ▸ c.property)

theorem ofU64_val (n : U64) :
    ((ofU64 n : I64) : ℤ) = if (n : ℕ) < 2 ^ 63 then (n : ℤ) else (n : ℤ) - 2 ^ 64 := by
  unfold ofU64
  split_ifs <;> rfl

end I64

/-- An integer price tick. `create` admits positive prices only, the constructor any. -/
@[ext] structure Price where
  raw : U64
deriving Repr

/-- An integer quantity of lots. -/
@[ext] structure Qty where
  raw : U64
deriving DecidableEq, Repr

/-- An amount of money in base currency units. -/
@[ext] structure Money where
  raw : U128
deriving DecidableEq, Repr

@[ext] structure OrderId where
  raw : U64
deriving DecidableEq, Repr

@[ext] structure AccountId where
  raw : U64
deriving Repr

@[ext] structure InstrumentId where
  raw : U64
deriving Repr

@[ext] structure BatchId where
  raw : U64
deriving DecidableEq, Repr

instance : LinearOrder Price := LinearOrder.lift' Price.raw fun _ _ => Price.ext

instance : LinearOrder AccountId := LinearOrder.lift' AccountId.raw fun _ _ => AccountId.ext

instance : LinearOrder InstrumentId := LinearOrder.lift' InstrumentId.raw fun _ _ => InstrumentId.ext

namespace Price

def create (raw : U64) : Result Price :=
  if raw = 0 then .error (.primitive .zeroValue "Price") else .ok ⟨raw⟩

theorem le_def {a b : Price} : a ≤ b ↔ (a.raw : ℕ) ≤ b.raw := Iff.rfl

theorem lt_def {a b : Price} : a < b ↔ (a.raw : ℕ) < b.raw := Iff.rfl

end Price

namespace Qty

def maxRaw : ℕ := 2 ^ 64 - 1

def zero : Qty := ⟨0⟩

def isZero (q : Qty) : Bool := q.raw = 0

def checkedAdd (a b : Qty) : Result Qty :=
  if (a.raw : ℕ) > maxRaw - b.raw then .error (.primitive .arithmeticOverflow "Qty::checked_add")
  else .ok ⟨a.raw + b.raw⟩

def checkedSub (a b : Qty) : Result Qty :=
  if a.raw < b.raw then .error (.primitive .insufficientBalance "Qty") else .ok ⟨a.raw - b.raw⟩

def saturatingSub (a b : Qty) : Qty := if a.raw < b.raw then ⟨0⟩ else ⟨a.raw - b.raw⟩

end Qty

namespace Money

def maxRaw : ℕ := 2 ^ 128 - 1

def zero : Money := ⟨0⟩

def fromPriceQty (price : Price) (qty : Qty) : Result Money :=
  let p : ℕ := price.raw
  let q : ℕ := qty.raw
  if p ≠ 0 ∧ q > maxRaw / p then
    .error (.primitive .arithmeticOverflow "Money::from_price_qty")
  else .ok ⟨Fin.ofNat _ (p * q)⟩

def checkedAdd (a b : Money) : Result Money :=
  if (a.raw : ℕ) > maxRaw - b.raw then .error (.primitive .arithmeticOverflow "Money::checked_add")
  else .ok ⟨a.raw + b.raw⟩

def checkedSub (a b : Money) : Result Money :=
  if a.raw < b.raw then .error (.primitive .insufficientBalance "Money") else .ok ⟨a.raw - b.raw⟩

end Money

/-! ## What the checked operations compute -/

namespace Qty

@[simp] theorem zero_raw : (zero.raw : ℕ) = 0 := rfl

theorem isZero_iff {q : Qty} : q.isZero = true ↔ (q.raw : ℕ) = 0 := by
  unfold isZero
  rw [decide_eq_true_iff, Fin.ext_iff]
  rfl

theorem ext_val {a b : Qty} (h : (a.raw : ℕ) = b.raw) : a = b := Qty.ext (Fin.ext h)

theorem checkedAdd_eq_ok {a b c : Qty} : a.checkedAdd b = .ok c ↔ (c.raw : ℕ) = a.raw + b.raw := by
  have ha := a.raw.isLt; have hb := b.raw.isLt; have hc := c.raw.isLt
  unfold checkedAdd maxRaw
  split_ifs with h
  · simp only [false_iff]; omega
  · rw [Except.ok.injEq, Qty.ext_iff, Fin.ext_iff, Fin.val_add, Nat.mod_eq_of_lt (by omega)]
    exact eq_comm

theorem checkedAdd_error {a b : Qty} {e : Error} (h : a.checkedAdd b = .error e) :
    e = .primitive .arithmeticOverflow "Qty::checked_add" := by
  unfold checkedAdd at h
  split_ifs at h
  exact (Except.error.inj h).symm

theorem exists_checkedAdd {a b : Qty} (h : (a.raw : ℕ) + b.raw < 2 ^ 64) :
    ∃ c, a.checkedAdd b = .ok c ∧ (c.raw : ℕ) = a.raw + b.raw :=
  ⟨⟨⟨a.raw + b.raw, h⟩⟩, checkedAdd_eq_ok.mpr rfl, rfl⟩

theorem checkedSub_eq_ok {a b c : Qty} : a.checkedSub b = .ok c ↔ (a.raw : ℕ) = c.raw + b.raw := by
  unfold checkedSub
  split_ifs with h
  · simp only [false_iff]
    have : (a.raw : ℕ) < b.raw := h
    omega
  · rw [Except.ok.injEq, Qty.ext_iff, Fin.ext_iff, Fin.sub_val_of_le (not_lt.mp h)]
    have : (b.raw : ℕ) ≤ a.raw := not_lt.mp h
    omega

theorem exists_checkedSub {a b : Qty} (h : (b.raw : ℕ) ≤ a.raw) :
    ∃ c, a.checkedSub b = .ok c ∧ (c.raw : ℕ) + b.raw = a.raw := by
  have hc : (a.raw : ℕ) - b.raw < 2 ^ 64 := lt_of_le_of_lt (Nat.sub_le _ _) a.raw.isLt
  have heq : (a.raw : ℕ) - b.raw + b.raw = a.raw := Nat.sub_add_cancel h
  exact ⟨⟨⟨a.raw - b.raw, hc⟩⟩, checkedSub_eq_ok.mpr heq.symm, heq⟩

/-- A saturating difference that does not saturate. -/
theorem saturatingSub_val {a b : Qty} (h : (b.raw : ℕ) ≤ a.raw) :
    ((a.saturatingSub b).raw : ℕ) = a.raw - b.raw := by
  unfold saturatingSub
  split_ifs with hlt
  · exact absurd h (not_le.mpr hlt)
  · exact Fin.sub_val_of_le (not_lt.mp hlt)

end Qty

namespace Money

@[simp] theorem zero_raw : (zero.raw : ℕ) = 0 := rfl

theorem ext_val {a b : Money} (h : (a.raw : ℕ) = b.raw) : a = b := Money.ext (Fin.ext h)

theorem checkedAdd_eq_ok {a b c : Money} : a.checkedAdd b = .ok c ↔ (c.raw : ℕ) = a.raw + b.raw := by
  have ha := a.raw.isLt; have hb := b.raw.isLt; have hc := c.raw.isLt
  unfold checkedAdd maxRaw
  split_ifs with h
  · simp only [false_iff]; omega
  · rw [Except.ok.injEq, Money.ext_iff, Fin.ext_iff, Fin.val_add, Nat.mod_eq_of_lt (by omega)]
    exact eq_comm

theorem checkedSub_eq_ok {a b c : Money} :
    a.checkedSub b = .ok c ↔ (a.raw : ℕ) = c.raw + b.raw := by
  unfold checkedSub
  split_ifs with h
  · simp only [false_iff]
    have : (a.raw : ℕ) < b.raw := h
    omega
  · rw [Except.ok.injEq, Money.ext_iff, Fin.ext_iff, Fin.sub_val_of_le (not_lt.mp h)]
    have : (b.raw : ℕ) ≤ a.raw := not_lt.mp h
    omega

/-- A product of two 64-bit factors fits 128 bits. -/
theorem price_qty_lt (p : Price) (q : Qty) : (p.raw : ℕ) * q.raw < 2 ^ 128 := by
  have hp := p.raw.isLt; have hq := q.raw.isLt
  calc (p.raw : ℕ) * q.raw < 2 ^ 64 * 2 ^ 64 := Nat.mul_lt_mul_of_lt_of_lt hp hq
    _ = 2 ^ 128 := by norm_num

/-- `Money::from_price_qty` never fails, and never wraps. -/
theorem fromPriceQty_eq_ok {p : Price} {q : Qty} {m : Money} :
    fromPriceQty p q = .ok m ↔ (m.raw : ℕ) = p.raw * q.raw := by
  have hpq := price_qty_lt p q
  have hno : ¬ ((p.raw : ℕ) ≠ 0 ∧ (q.raw : ℕ) > maxRaw / p.raw) := by
    rintro ⟨hp, hq⟩
    have : (maxRaw : ℕ) < q.raw * p.raw := (Nat.div_lt_iff_lt_mul (Nat.pos_of_ne_zero hp)).mp hq
    rw [Nat.mul_comm] at this
    unfold maxRaw at this
    omega
  unfold fromPriceQty
  simp only [hno, if_false, Except.ok.injEq, Money.ext_iff, Fin.ext_iff, Fin.val_ofNat,
    Nat.mod_eq_of_lt hpq]
  exact eq_comm

end Money

end FairCross
