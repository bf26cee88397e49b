import FairCross.Engine.Proofs.ExecutionProofs
import FairCross.Proof.Proofs.ConstraintProofs

/-!
# What the constraints say of an arbitrary assignment

Constraints are equations modulo 2^128 between 64-bit values. The fill, allocation and conservation
constraints add and multiply few enough of them that the equations hold of the integers, whatever the
assignment is.
-/

namespace FairCross

open Synth LinearCombination

/-! ## Exact values -/

/-- The value of a variable as a number. -/
def Variable.natValue (publicInputs witness : List U64) : Variable → ℕ
  | .one => 1
  | .publicVar index => ((publicInputs[index]?).map fun a => (a : ℕ)).getD 0
  | .witnessVar index => ((witness[index]?).map fun a => (a : ℕ)).getD 0

section Assignment

variable {publicInputs witness : List U64}

theorem Variable.value_eq (v : Variable) :
    v.value publicInputs witness = (v.natValue publicInputs witness : Scalar) := by
  have hread : ∀ o : Option U64, (o.map toScalar).getD 0 = ((o.map fun a => (a : ℕ)).getD 0 : Scalar) := by
    intro o
    cases o with
    | none => rfl
    | some a => exact toScalar_eq_cast a
  cases v with
  | one => rfl
  | publicVar i => exact hread _
  | witnessVar i => exact hread _

theorem Variable.natValue_lt (publicInputs witness : List U64) (v : Variable) :
    v.natValue publicInputs witness < 2 ^ 64 := by
  have hread : ∀ o : Option U64, (o.map fun a => (a : ℕ)).getD 0 < 2 ^ 64 := by
    intro o
    cases o with
    | none => exact Nat.two_pow_pos 64
    | some a => exact a.isLt
  cases v with
  | one => exact Nat.one_lt_two_pow (by omega)
  | publicVar i => exact hread _
  | witnessVar i => exact hread _

end Assignment

/-! ## The calculus -/

/-- The elements of a list, each with the first of its variables; `next` says where the following
element begins. -/
def slots {ι : Type} (next : ℕ → ι → ℕ) : ℕ → List ι → List (ℕ × ι)
  | _, [] => []
  | n, x :: l => (n, x) :: slots next (next n x) l

section Slots

variable {ι : Type} {next : ℕ → ι → ℕ}

theorem length_slots (n : ℕ) (l : List ι) : (slots next n l).length = l.length := by
  induction l generalizing n with
  | nil => rfl
  | cons x l ih => rw [slots, List.length_cons, ih, List.length_cons]

/-- A sum of 64-bit values over less than 2^60 slots. -/
theorem sum_slots_lt (next : ℕ → ι → ℕ) {l : List ι} (hl : l.length < 2 ^ 60) (n : ℕ) (p : ℕ × ι → Bool) {w : ℕ × ι → ℕ}
    (hw : ∀ q, w q < 2 ^ 64) : (((slots next n l).filter p).map w).sum < 2 ^ 124 := by
  have hle := List.sum_le_card_nsmul (((slots next n l).filter p).map w) (2 ^ 64 - 1) fun x hx => by
    obtain ⟨q, -, rfl⟩ := List.mem_map.mp hx
    have := hw q
    omega
  have hlen := (List.length_filter_le p (slots next n l)).trans_eq (length_slots n l)
  rw [List.length_map, smul_eq_mul] at hle
  have : ((slots next n l).filter p).length * (2 ^ 64 - 1) ≤ (2 ^ 60 - 1) * (2 ^ 64 - 1) :=
    Nat.mul_le_mul_right _ (by omega)
  omega

end Slots

section Calculus

variable (publicInputs witness : List U64)

/-- If the assignment satisfies the constraints that `m` leaves, it satisfied those that `m` found, and
`rel` holds of the numbers of witness variables before and after and of the result. -/
def Forces {α : Type} (m : Synth α) (rel : ℕ → ℕ → α → Prop) : Prop :=
  ∀ s a s', m s = .ok (a, s') → s'.cs.Sat publicInputs witness →
    s.cs.Sat publicInputs witness ∧ rel s.cs.numWitness s'.cs.numWitness a

namespace Forces

variable {publicInputs witness} {α β ι σ : Type} {m : Synth α} {rel : ℕ → ℕ → α → Prop}

theorem mono {rel' : ℕ → ℕ → α → Prop} (h : Forces publicInputs witness m rel)
    (hrel : ∀ n n' a, rel n n' a → rel' n n' a) : Forces publicInputs witness m rel' := by
  intro s a s' hm hsat
  obtain ⟨h1, h2⟩ := h s a s' hm hsat
  exact ⟨h1, hrel _ _ _ h2⟩

theorem pure (a : α) : Forces publicInputs witness (Pure.pure a : Synth α)
    (fun n n' b => n' = n ∧ b = a) := by
  intro s b s' hm hsat
  obtain ⟨rfl, rfl⟩ := Prod.mk.inj (Except.ok.inj hm)
  exact ⟨hsat, rfl, rfl⟩

theorem bind {f : α → Synth β} {rel' : α → ℕ → ℕ → β → Prop} (h : Forces publicInputs witness m rel)
    (h' : ∀ a, Forces publicInputs witness (f a) (rel' a)) :
    Forces publicInputs witness (m >>= f) (fun n n'' b => ∃ a n', rel n n' a ∧ rel' a n' n'' b) := by
  intro s b s'' hmf hsat
  obtain ⟨a, s', hm, hf⟩ := Synth.bind_eq_ok.mp hmf
  obtain ⟨hsat', hrel'⟩ := h' a s' b s'' hf hsat
  obtain ⟨hsat'', hrel⟩ := h s a s' hm hsat'
  exact ⟨hsat'', a, _, hrel, hrel'⟩

/-- A block of single steps, which has to be run. -/
theorem block (h : ∀ s, ∃ a s', m s = .ok (a, s') ∧ (s'.cs.Sat publicInputs witness →
      s.cs.Sat publicInputs witness ∧ rel s.cs.numWitness s'.cs.numWitness a)) :
    Forces publicInputs witness m rel := by
  intro s a s' hm hsat
  obtain ⟨a', s'', hm', hspec⟩ := h s
  rw [hm] at hm'
  obtain ⟨rfl, rfl⟩ := Prod.mk.inj (Except.ok.inj hm')
  exact hspec hsat

theorem of_fails (h : ∀ s, ∃ e, m s = .error e) : Forces publicInputs witness m rel := by
  intro s a s' hm _
  obtain ⟨e, he⟩ := h s
  rw [hm] at he
  cases he

theorem check {c : Prop} [Decidable c] {message : String}
    (h : ¬ c → Forces publicInputs witness m rel) :
    Forces publicInputs witness (if c then Synth.fail message else m) rel := by
  by_cases hc : c
  · rw [if_pos hc]
    exact of_fails fun s => ⟨_, rfl⟩
  · rw [if_neg hc]
    exact h hc

theorem allocWitness : Forces publicInputs witness Synth.allocWitness
    (fun n n' v => n' = n + 1 ∧ v = .witnessVar n) :=
  block fun _ => ⟨_, _, rfl, fun hsat => ⟨hsat, rfl, rfl⟩⟩

theorem push {values : List U64} : Forces publicInputs witness (Synth.push values)
    (fun n n' _ => n' = n) :=
  block fun _ => ⟨_, _, rfl, fun hsat => ⟨hsat, rfl⟩⟩

theorem enforceEqual {lc1 lc2 : LinearCombination} {label : String} :
    Forces publicInputs witness (Synth.enforceEqual lc1 lc2 label) (fun n n' _ => n' = n ∧
      lc1.evaluate publicInputs witness = lc2.evaluate publicInputs witness) := by
  refine block fun s => ⟨_, _, rfl, fun hsat => ?_⟩
  rw [ConstraintSystem.sat_enforceEqual] at hsat
  exact ⟨hsat.1, rfl, hsat.2⟩

theorem enforce {a b c : LinearCombination} {label : String} :
    Forces publicInputs witness (Synth.enforce a b c label) (fun n n' _ => n' = n ∧
      a.evaluate publicInputs witness * b.evaluate publicInputs witness =
        c.evaluate publicInputs witness) := by
  refine block fun s => ⟨_, _, rfl, fun hsat => ?_⟩
  rw [ConstraintSystem.sat_enforce] at hsat
  exact ⟨hsat.1, rfl, hsat.2⟩

/-- The loop with a state: the elements begin at their slots, and `inv` relates the state to the slots
so far. -/
theorem foldlM {f : σ → ι → Synth σ} {next : ℕ → ι → ℕ} {rel : ℕ × ι → Prop}
    {inv : List (ℕ × ι) → σ → Prop} {l : List ι}
    (h : ∀ x ∈ l, ∀ done a, Forces publicInputs witness (f a x) (fun n n' a' => inv done a →
      n' = next n x ∧ rel (n, x) ∧ inv (done ++ [(n, x)]) a')) (done : List (ℕ × ι)) (a : σ) :
    Forces publicInputs witness (l.foldlM f a) (fun n n' a' => inv done a → n' = l.foldl next n ∧
      (∀ p ∈ slots next n l, rel p) ∧ inv (done ++ slots next n l) a') := by
  induction l generalizing done a with
  | nil =>
    refine (Forces.pure a).mono fun n n' b hb hinv => ?_
    obtain ⟨rfl, rfl⟩ := hb
    exact ⟨rfl, by simp [slots], by simpa [slots] using hinv⟩
  | cons x l ih =>
    intro s b s'' hm hsat
    rw [List.foldlM_cons] at hm
    obtain ⟨a', s', hx, hrest⟩ := Synth.bind_eq_ok.mp hm
    obtain ⟨hsat', hih⟩ := ih (fun y hy => h y (List.mem_cons_of_mem _ hy))
      (done ++ [(s.cs.numWitness, x)]) a' s' b s'' hrest hsat
    obtain ⟨hsat'', hstep⟩ := h x (List.mem_cons_self ..) done a s a' s' hx hsat'
    refine ⟨hsat'', fun hinv => ?_⟩
    obtain ⟨hn, hrel, hinv'⟩ := hstep hinv
    obtain ⟨hn', hrels, hinv''⟩ := hih hinv'
    rw [hn] at hn' hrels hinv''
    rw [List.append_assoc, List.singleton_append] at hinv''
    refine ⟨hn', fun p hp => ?_, hinv''⟩
    rcases List.mem_cons.mp hp with rfl | hp
    · exact hrel
    · exact hrels p hp

/-- The loop without a state. -/
theorem forM {f : ι → Synth Unit} {next : ℕ → ι → ℕ} {rel : ℕ × ι → Prop} {l : List ι}
    (h : ∀ x ∈ l, Forces publicInputs witness (f x) (fun n n' _ => n' = next n x ∧ rel (n, x))) :
    Forces publicInputs witness (l.forM f) (fun n _ _ => ∀ p ∈ slots next n l, rel p) := by
  induction l with
  | nil =>
    refine (Forces.pure ()).mono fun n n' b _ => ?_
    simp [slots]
  | cons x l ih =>
    refine ((h x (List.mem_cons_self ..)).bind fun _ =>
      ih fun y hy => h y (List.mem_cons_of_mem _ hy)).mono ?_
    rintro n n'' b ⟨-, n', ⟨rfl, hrel⟩, hrels⟩ p hp
    rcases List.mem_cons.mp hp with rfl | hp
    · exact hrel
    · exact hrels p hp

end Forces

end Calculus


/-! ## Fill bounds -/

section Relations

variable {publicInputs witness : List U64}

/-- The value of the witness variable with an index. -/
def witnessValue (witness : List U64) (i : ℕ) : ℕ := ((witness[i]?).map fun a => (a : ℕ)).getD 0

theorem witnessValue_lt (witness : List U64) (i : ℕ) : witnessValue witness i < 2 ^ 64 :=
  Variable.natValue_lt [] witness (.witnessVar i)

theorem witnessVar_value (i : ℕ) : (Variable.witnessVar i).value publicInputs witness =
    (witnessValue witness i : Scalar) := Variable.value_eq _

/-- Equal sums below 2^128. -/
theorem scalar_sub_eq_iff {a b c : ℕ} (hab : b + c < 2 ^ 128) (ha : a < 2 ^ 128) :
    (a : Scalar) - b = c ↔ b + c = a := by
  rw [sub_eq_iff_eq_add, ← Nat.cast_add, scalar_natCast_inj ha (by omega)]
  omega

theorem witnessValue_of_sub {i j k : ℕ} (h : (witnessValue witness i : Scalar) -
    witnessValue witness j = witnessValue witness k) :
    witnessValue witness j + witnessValue witness k = witnessValue witness i := by
  have hi := witnessValue_lt witness i
  have hj := witnessValue_lt witness j
  have hk := witnessValue_lt witness k
  exact (scalar_sub_eq_iff (by omega) (by omega)).mp h

theorem witnessValue_of_mul {i j k : ℕ} (h : (witnessValue witness i : Scalar) *
    witnessValue witness j = witnessValue witness k) :
    witnessValue witness i * witnessValue witness j = witnessValue witness k := by
  have hij := Nat.mul_lt_mul'' (witnessValue_lt witness i) (witnessValue_lt witness j)
  have hk := witnessValue_lt witness k
  rw [← Nat.cast_mul] at h
  exact (scalar_natCast_inj (hij.trans_eq (by norm_num)) (by omega)).mp h

/-- What the constraints of a fill say in integers: `cp` is the clearing price, and the fill's own
variables begin at `n`. -/
structure FillHolds (witness : List U64) (cp : ℕ) (order : Order) (n : ℕ) : Prop where
  remaining : witnessValue witness n + witnessValue witness (n + 2) = witnessValue witness (n + 1)
  consideration : cp * witnessValue witness n = witnessValue witness (n + 3)
  buy_slack : order.side = .buy → cp + witnessValue witness (n + 5) = witnessValue witness (n + 4)
  sell_slack : order.side ≠ .buy → witnessValue witness (n + 4) + witnessValue witness (n + 5) = cp

/-- The limit of an order and its slack are the two variables from `n` on. -/
theorem forces_synthesizeLimit (c : ℕ) (cpVal fillQtyVal : U64) (order : Order) :
    Forces publicInputs witness (synthesizeLimit (.witnessVar c) cpVal fillQtyVal order)
      (fun n n' _ => n' = n + 2 ∧
        (order.side = .buy →
          witnessValue witness c + witnessValue witness (n + 1) = witnessValue witness n) ∧
        (order.side ≠ .buy →
          witnessValue witness n + witnessValue witness (n + 1) = witnessValue witness c)) := by
  unfold synthesizeLimit
  by_cases hside : order.side = .buy
  · simp only [if_pos hside]
    refine (Forces.allocWitness.bind fun limitVar => Forces.push.bind fun _ => Forces.check fun _ =>
      Forces.allocWitness.bind fun slackVar => Forces.push.bind fun _ => Forces.enforceEqual).mono ?_
    rintro n n' a ⟨_, _, ⟨rfl, rfl⟩, _, _, rfl, _, _, ⟨rfl, rfl⟩, _, _, rfl, rfl, hslack⟩
    simp only [evaluate_addTerm_neg, evaluate_fromVar, witnessVar_value] at hslack
    exact ⟨rfl, fun _ => witnessValue_of_sub hslack, fun h => absurd hside h⟩
  · simp only [if_neg hside]
    refine (Forces.allocWitness.bind fun limitVar => Forces.push.bind fun _ => Forces.check fun _ =>
      Forces.allocWitness.bind fun slackVar => Forces.push.bind fun _ => Forces.enforceEqual).mono ?_
    rintro n n' a ⟨_, _, ⟨rfl, rfl⟩, _, _, rfl, _, _, ⟨rfl, rfl⟩, _, _, rfl, rfl, hslack⟩
    simp only [evaluate_addTerm_neg, evaluate_fromVar, witnessVar_value] at hslack
    exact ⟨rfl, fun h => absurd h hside, fun _ => witnessValue_of_sub hslack⟩

theorem forces_synthesizeFill (orders : List Order) (c : ℕ) (cpVal : U64) (fill : Fill) :
    Forces publicInputs witness (synthesizeFill orders (.witnessVar c) cpVal fill) (fun n n' _ =>
      n' = n + 6 ∧ ∃ order, orders.find? (·.id = fill.orderId) = some order ∧
        FillHolds witness (witnessValue witness c) order n) := by
  unfold synthesizeFill
  cases horder : orders.find? (·.id = fill.orderId) with
  | none => exact Forces.of_fails fun s => ⟨_, rfl⟩
  | some order =>
    refine Forces.check fun _ => ?_
    refine (Forces.allocWitness.bind fun fillQtyVar => Forces.allocWitness.bind fun orderQtyVar =>
      Forces.allocWitness.bind fun remQtyVar => Forces.allocWitness.bind fun considerationVar =>
      Forces.push.bind fun _ => Forces.enforceEqual.bind fun _ => Forces.enforce.bind fun _ =>
      forces_synthesizeLimit c cpVal fill.fillQty.raw order).mono ?_
    rintro n n' a ⟨_, _, ⟨rfl, rfl⟩, _, _, ⟨rfl, rfl⟩, _, _, ⟨rfl, rfl⟩, _, _, ⟨rfl, rfl⟩, _, _, rfl,
      _, _, ⟨rfl, hrem⟩, _, _, ⟨rfl, hcons⟩, rfl, hbuy, hsell⟩
    simp only [evaluate_addTerm_neg, evaluate_fromVar, witnessVar_value] at hrem hcons
    exact ⟨rfl, order, rfl, witnessValue_of_sub hrem, witnessValue_of_mul hcons, hbuy, hsell⟩

/-- The slot of a fill has six variables. -/
def fillNext (n : ℕ) (_ : Fill) : ℕ := n + 6

theorem forces_synthesizeFillBoundsConstraints (clearingPrice : Price) (orders : List Order)
    (fills : List Fill) :
    Forces publicInputs witness (synthesizeFillBoundsConstraints clearingPrice orders fills)
      (fun n _ _ => ∀ p ∈ slots fillNext (n + 1) fills, ∃ order,
        orders.find? (·.id = p.2.orderId) = some order ∧
          FillHolds witness (witnessValue witness n) order p.1) := by
  unfold synthesizeFillBoundsConstraints
  -- the clearing price is the first variable
  have hfills : ∀ c, Forces publicInputs witness
      (fills.forM (synthesizeFill orders (.witnessVar c) clearingPrice.raw)) (fun n _ _ =>
        ∀ p ∈ slots fillNext n fills, ∃ order, orders.find? (·.id = p.2.orderId) = some order ∧
          FillHolds witness (witnessValue witness c) order p.1) := fun c =>
    Forces.forM fun fill _ => forces_synthesizeFill orders c clearingPrice.raw fill
  intro s a s' hm hsat
  exact hfills s.cs.numWitness _ a s' hm hsat

/-! ## Allocations -/

/-- Whether an allocation is for a buy order. -/
def allocationBuys (orders : List Order) (alloc : OrderAllocation) : Option Bool :=
  (orders.find? (·.id = alloc.orderId)).map (·.side = .buy)

/-- The slot of an allocation has a third variable unless its order is out of the money. -/
def allocationNext (orders : List Order) (clearingPrice : Price) (n : ℕ) (alloc : OrderAllocation) : ℕ :=
  if (orders.find? (·.id = alloc.orderId)).map (classifyOrder · clearingPrice) = some .outOfTheMoney
  then n + 2 else n + 3

/-- What the constraints of an allocation say in integers; its own variables begin at `n`. -/
structure AllocationHolds (witness : List U64) (clearingPrice : Price) (order : Order) (n : ℕ) :
    Prop where
  bound : witnessValue witness n ≤ witnessValue witness (n + 1)
  zero_fill : classifyOrder order clearingPrice = .outOfTheMoney → witnessValue witness n = 0

/-- The allocated quantities of the slots on a side. -/
def allocatedOn (witness : List U64) (orders : List Order) (buys : Bool)
    (l : List (ℕ × OrderAllocation)) : ℕ :=
  ((l.filter fun p => allocationBuys orders p.2 = some buys).map fun p => witnessValue witness p.1).sum

theorem allocatedOn_append (orders : List Order) (buys : Bool) (l : List (ℕ × OrderAllocation))
    (p : ℕ × OrderAllocation) : allocatedOn witness orders buys (l ++ [p]) =
      allocatedOn witness orders buys l +
        if allocationBuys orders p.2 = some buys then witnessValue witness p.1 else 0 := by
  unfold allocatedOn
  by_cases h : allocationBuys orders p.2 = some buys
  · simp [h]
  · simp [h]

/-- The totals count the slots so far. -/
structure CountsAllocated (publicInputs witness : List U64) (orders : List Order)
    (done : List (ℕ × OrderAllocation)) (totals : AllocationTotals) : Prop where
  buy : totals.totalBuyLc.evaluate publicInputs witness = (allocatedOn witness orders true done : Scalar)
  sell : totals.totalSellLc.evaluate publicInputs witness =
    (allocatedOn witness orders false done : Scalar)

theorem CountsAllocated.step {orders : List Order} {done : List (ℕ × OrderAllocation)}
    {totals : AllocationTotals} (h : CountsAllocated publicInputs witness orders done totals)
    {order : Order} {alloc : OrderAllocation} (horder : orders.find? (·.id = alloc.orderId) = some order)
    (n : ℕ) : CountsAllocated publicInputs witness orders (done ++ [(n, alloc)])
      (if order.side = .buy then
        { totals with totalBuyLc := totals.totalBuyLc.addTerm (.witnessVar n) 1 }
      else { totals with totalSellLc := totals.totalSellLc.addTerm (.witnessVar n) 1 }) := by
  have hbuys : allocationBuys orders alloc = some (decide (order.side = .buy)) := by
    rw [allocationBuys, horder, Option.map_some]
  by_cases hside : order.side = .buy
  · rw [if_pos hside]
    refine ⟨?_, ?_⟩
    · simp [allocatedOn_append, hbuys, hside, h.buy, witnessVar_value]
    · simp [allocatedOn_append, hbuys, hside, h.sell]
  · rw [if_neg hside]
    refine ⟨?_, ?_⟩
    · simp [allocatedOn_append, hbuys, hside, h.buy]
    · simp [allocatedOn_append, hbuys, hside, h.sell, witnessVar_value]

theorem forces_synthesizeOrderAllocation (orders : List Order) (clearingPrice : Price)
    (done : List (ℕ × OrderAllocation)) (totals : AllocationTotals) (alloc : OrderAllocation) :
    Forces publicInputs witness (synthesizeOrderAllocation orders clearingPrice totals alloc)
      (fun n n' totals' => CountsAllocated publicInputs witness orders done totals →
        n' = allocationNext orders clearingPrice n alloc ∧
        (∃ order, orders.find? (·.id = alloc.orderId) = some order ∧
          AllocationHolds witness clearingPrice order n) ∧
        CountsAllocated publicInputs witness orders (done ++ [(n, alloc)]) totals') := by
  unfold synthesizeOrderAllocation allocationNext
  cases horder : orders.find? (·.id = alloc.orderId) with
  | none => exact Forces.of_fails fun s => ⟨_, rfl⟩
  | some order =>
    rw [Option.map_some]
    by_cases hotm : classifyOrder order clearingPrice = .outOfTheMoney
    · simp only [hotm]
      refine Forces.block fun s => ⟨_, _, rfl, fun hsat => ?_⟩
      simp only [ConstraintSystem.sat_enforceEqual, ConstraintSystem.sat_mk, evaluate_fromVar,
        evaluate_zero, witnessVar_value] at hsat
      have hzero : witnessValue witness s.cs.numWitness = 0 := by
        have hlt := witnessValue_lt witness s.cs.numWitness
        exact (scalar_natCast_inj (b := 0) (by omega) (by omega)).mp hsat.2
      refine ⟨hsat.1, fun hinv => ⟨rfl, ⟨order, rfl, ⟨?_, fun _ => hzero⟩⟩, hinv.step horder _⟩⟩
      exact hzero.le.trans (Nat.zero_le _)
    · -- both other cases emit the same constraints
      have hnext : some (classifyOrder order clearingPrice) ≠ some .outOfTheMoney :=
        fun h => hotm (Option.some.inj h)
      simp only [if_neg hnext]
      have hrem : Forces publicInputs witness (do
          let allocQtyVar ← allocWitness
          let orderQtyVar ← allocWitness
          Synth.push [alloc.allocatedQty.raw, order.qty.raw]
          let remVar ← allocWitness
          Synth.push [if order.qty.raw > alloc.allocatedQty.raw
            then order.qty.raw - alloc.allocatedQty.raw else 0]
          Synth.enforceEqual ((fromVar orderQtyVar).addTerm allocQtyVar (-1)) (fromVar remVar)
            ("order_" ++ toString (order.id.raw : ℕ) ++ "_fill_bound")
          pure (if order.side = .buy then
            { totals with totalBuyLc := totals.totalBuyLc.addTerm allocQtyVar 1 }
          else { totals with totalSellLc := totals.totalSellLc.addTerm allocQtyVar 1 }))
          (fun n n' totals' => CountsAllocated publicInputs witness orders done totals → n' = n + 3 ∧
            (∃ order', some order = some order' ∧ AllocationHolds witness clearingPrice order' n) ∧
            CountsAllocated publicInputs witness orders (done ++ [(n, alloc)]) totals') := by
        refine Forces.block fun s => ⟨_, _, rfl, fun hsat => ?_⟩
        simp only [ConstraintSystem.sat_enforceEqual, ConstraintSystem.sat_mk, evaluate_fromVar,
          evaluate_addTerm_neg, witnessVar_value] at hsat
        have hbound := witnessValue_of_sub hsat.2
        refine ⟨hsat.1, fun hinv => ⟨rfl, ⟨order, rfl, ⟨?_, fun h => absurd h hotm⟩⟩,
          hinv.step horder _⟩⟩
        omega
      cases hclass : classifyOrder order clearingPrice with
      | outOfTheMoney => exact absurd hclass hotm
      | inTheMoney => exact hrem
      | atTheMoney => exact hrem

theorem allocatedOn_slots_lt (witness : List U64) (orders : List Order) (next : ℕ → OrderAllocation → ℕ)
    {l : List OrderAllocation} (hl : l.length < 2 ^ 60) (n : ℕ) (buys : Bool) :
    allocatedOn witness orders buys (slots next n l) < 2 ^ 124 :=
  sum_slots_lt next hl n _ fun q => witnessValue_lt witness q.1

theorem forces_orderAllocations (orders : List Order) (clearingPrice : Price) (l : List OrderAllocation)
    (done : List (ℕ × OrderAllocation)) (totals : AllocationTotals) :
    Forces publicInputs witness (l.foldlM (synthesizeOrderAllocation orders clearingPrice) totals)
      (fun n n' totals' => CountsAllocated publicInputs witness orders done totals →
        n' = l.foldl (allocationNext orders clearingPrice) n ∧
        (∀ p ∈ slots (allocationNext orders clearingPrice) n l, ∃ order,
          orders.find? (·.id = p.2.orderId) = some order ∧
            AllocationHolds witness clearingPrice order p.1) ∧
        CountsAllocated publicInputs witness orders
          (done ++ slots (allocationNext orders clearingPrice) n l) totals') := by
  refine Forces.foldlM (fun alloc _ done totals => ?_) done totals
  exact forces_synthesizeOrderAllocation orders clearingPrice done totals alloc

/-- The allocation constraints in integers: every allocation is bounded, and each side allocates the
cleared volume, which is the public variable allocated first. -/
theorem synthesizeAllocationConstraints_forces [StdSort] {batch : Batch} {clearingPrice : Price}
    {clearedVolume : Qty} {allocation : BatchAllocation} {s s' : Synthesis} {u : Unit}
    (hm : synthesizeAllocationConstraints batch clearingPrice clearedVolume allocation s = .ok (u, s'))
    (hlen : batch.orders.length < 2 ^ 60) (hsat : s'.cs.Sat publicInputs witness) :
    s.cs.Sat publicInputs witness ∧
    (∀ p ∈ slots (allocationNext batch.orders clearingPrice) s.cs.numWitness allocation.allocations,
      ∃ order, batch.orders.find? (·.id = p.2.orderId) = some order ∧
        AllocationHolds witness clearingPrice order p.1) ∧
    ∀ buys, allocatedOn witness batch.orders buys (slots (allocationNext batch.orders clearingPrice)
        s.cs.numWitness allocation.allocations) =
      (Variable.publicVar s.cs.numPublic).natValue publicInputs witness := by
  unfold synthesizeAllocationConstraints at hm
  obtain ⟨honest, s0, hlift, hm⟩ := Synth.bind_eq_ok.mp hm
  cases halloc : allocateBatch batch (some clearingPrice) clearedVolume with
  | error e => rw [halloc] at hlift; cases hlift
  | ok a =>
    rw [halloc] at hlift
    obtain ⟨rfl, rfl⟩ := Prod.mk.inj (Except.ok.inj hlift)
    by_cases hne : allocation ≠ a
    · rw [if_pos hne] at hm
      cases hm
    · rw [if_neg hne] at hm
      rw [ne_eq, not_not] at hne
      subst hne
      have hle : allocation.allocations.length < 2 ^ 60 := by
        have := (allocateBatch_sublist halloc).length_le
        rw [List.length_map, List.length_map] at this
        omega
      obtain ⟨vol, s1, hvol, hm⟩ := Synth.bind_eq_ok.mp hm
      obtain ⟨rfl, rfl⟩ := Prod.mk.inj (Except.ok.inj hvol)
      obtain ⟨totals, s2, hfold, hm⟩ := Synth.bind_eq_ok.mp hm
      obtain ⟨u1, s3, hbuy, hsell⟩ := Synth.bind_eq_ok.mp hm
      obtain ⟨hsat3, -, hsell⟩ := Forces.enforceEqual s3 u s' hsell hsat
      obtain ⟨hsat2, -, hbuy⟩ := Forces.enforceEqual s2 u1 s3 hbuy hsat3
      obtain ⟨hsat1, hforces⟩ := forces_orderAllocations batch.orders clearingPrice
        allocation.allocations [] ⟨zero, zero⟩ _ totals s2 hfold hsat2
      obtain ⟨-, hslots, hcounts⟩ := hforces ⟨rfl, rfl⟩
      rw [List.nil_append] at hcounts
      rw [evaluate_fromVar, Variable.value_eq] at hbuy hsell
      refine ⟨hsat1, hslots, fun buys => ?_⟩
      have hlt := allocatedOn_slots_lt witness batch.orders
        (allocationNext batch.orders clearingPrice) hle s.cs.numWitness buys
      have hvol := Variable.natValue_lt publicInputs witness (.publicVar s.cs.numPublic)
      cases buys with
      | false => exact (scalar_natCast_inj (by omega) (by omega)).mp (hcounts.sell.symm.trans hsell)
      | true => exact (scalar_natCast_inj (by omega) (by omega)).mp (hcounts.buy.symm.trans hbuy)

/-! ## Balances -/

/-- The slot of a fill of the account `accId` has its consideration and its quantity. The other fills
have no variables. -/
def accountFillNext (accId : AccountId) (n : ℕ) (fill : Fill) : ℕ :=
  if fill.accountId ≠ accId then n else n + 2

/-- The slot of an account has the cash before and after, the inventory before and after, and its
fills. -/
def accountNext (fills : List Fill) (n : ℕ) (e : AccountId × AccountState) : ℕ :=
  fills.foldl (accountFillNext e.1) (n + 4)

/-- The sum over the slots of an account's fills on a side; `offset` tells considerations and
quantities apart. -/
def postedOn (witness : List U64) (accId : AccountId) (buys : Bool) (offset : ℕ)
    (l : List (ℕ × Fill)) : ℕ :=
  ((l.filter fun p => p.2.accountId = accId ∧ decide (p.2.side = .buy) = buys).map
    fun p => witnessValue witness (p.1 + offset)).sum

section Posted

variable {accId : AccountId} {buys : Bool} {offset : ℕ} {l : List (ℕ × Fill)} {p : ℕ × Fill}

theorem postedOn_append_of_pos (h : p.2.accountId = accId ∧ decide (p.2.side = .buy) = buys) :
    postedOn witness accId buys offset (l ++ [p]) =
      postedOn witness accId buys offset l + witnessValue witness (p.1 + offset) := by
  unfold postedOn
  rw [List.filter_append, List.map_append, List.sum_append,
    List.filter_cons_of_pos (by simpa using h), List.filter_nil, List.map_singleton,
    List.sum_singleton]

theorem postedOn_append_of_neg (h : ¬ (p.2.accountId = accId ∧ decide (p.2.side = .buy) = buys)) :
    postedOn witness accId buys offset (l ++ [p]) = postedOn witness accId buys offset l := by
  unfold postedOn
  rw [List.filter_append, List.filter_cons_of_neg (by simpa using h), List.filter_nil,
    List.append_nil]

end Posted

theorem postedOn_slots_lt (witness : List U64) (next : ℕ → Fill → ℕ) {l : List Fill}
    (hl : l.length < 2 ^ 60) (n : ℕ) (accId : AccountId) (buys : Bool) (offset : ℕ) :
    postedOn witness accId buys offset (slots next n l) < 2 ^ 124 :=
  sum_slots_lt next hl n _ fun q => witnessValue_lt witness (q.1 + offset)

/-- What an account is expected to hold after the fills so far; its own variables begin at `n`. -/
structure ExpectsPosted (publicInputs witness : List U64) (accId : AccountId) (n : ℕ)
    (done : List (ℕ × Fill)) (expected : ExpectedPost) : Prop where
  cash : expected.cashLc.evaluate publicInputs witness = (witnessValue witness n : Scalar) +
    postedOn witness accId false 0 done - postedOn witness accId true 0 done
  inventory : expected.invLc.evaluate publicInputs witness = (witnessValue witness (n + 2) : Scalar) +
    postedOn witness accId true 1 done - postedOn witness accId false 1 done

/-- What the constraints of an account say in integers; its own variables begin at `n`. -/
structure BalancesHold (witness : List U64) (fills : List Fill) (accId : AccountId) (n : ℕ) :
    Prop where
  cash : witnessValue witness (n + 1) +
      postedOn witness accId true 0 (slots (accountFillNext accId) (n + 4) fills) =
    witnessValue witness n +
      postedOn witness accId false 0 (slots (accountFillNext accId) (n + 4) fills)
  inventory : witnessValue witness (n + 3) +
      postedOn witness accId false 1 (slots (accountFillNext accId) (n + 4) fills) =
    witnessValue witness (n + 2) +
      postedOn witness accId true 1 (slots (accountFillNext accId) (n + 4) fills)

theorem forces_synthesizeAccountFill (accId : AccountId) (n₀ : ℕ) (done : List (ℕ × Fill))
    (expected : ExpectedPost) (fill : Fill) :
    Forces publicInputs witness (synthesizeAccountFill accId expected fill) (fun n n' expected' =>
      ExpectsPosted publicInputs witness accId n₀ done expected → n' = accountFillNext accId n fill ∧
        True ∧ ExpectsPosted publicInputs witness accId n₀ (done ++ [(n, fill)]) expected') := by
  unfold synthesizeAccountFill accountFillNext
  by_cases hacc : fill.accountId ≠ accId
  · simp only [if_pos hacc]
    refine (Forces.pure expected).mono fun n n' b hb hinv => ?_
    obtain ⟨rfl, rfl⟩ := hb
    have hother : ∀ n buys offset, postedOn witness accId buys offset (done ++ [(n, fill)]) =
        postedOn witness accId buys offset done := fun n buys offset =>
      postedOn_append_of_neg fun h => hacc h.1
    refine ⟨rfl, trivial, ?_, ?_⟩
    · rw [hinv.cash, hother, hother]
    · rw [hinv.inventory, hother, hother]
  · simp only [if_neg hacc]
    rw [ne_eq, not_not] at hacc
    by_cases hside : fill.side = .buy
    · have hown : ∀ n offset, postedOn witness accId true offset (done ++ [(n, fill)]) =
          postedOn witness accId true offset done + witnessValue witness (n + offset) :=
        fun n offset => postedOn_append_of_pos ⟨hacc, decide_eq_true hside⟩
      have hother : ∀ n offset, postedOn witness accId false offset (done ++ [(n, fill)]) =
          postedOn witness accId false offset done :=
        fun n offset => postedOn_append_of_neg fun h => of_decide_eq_false h.2 hside
      simp only [hside, if_true]
      refine Forces.block fun s => ⟨_, _, rfl, fun hsat => ⟨hsat, fun hinv => ⟨rfl, trivial, ?_, ?_⟩⟩⟩
      · rw [evaluate_addTerm_neg, hinv.cash, witnessVar_value, hown, hother, Nat.add_zero, Nat.cast_add]
        ring
      · rw [evaluate_addTerm, hinv.inventory, witnessVar_value, hown, hother, Nat.cast_add]
        ring
    · have hown : ∀ n offset, postedOn witness accId false offset (done ++ [(n, fill)]) =
          postedOn witness accId false offset done + witnessValue witness (n + offset) :=
        fun n offset => postedOn_append_of_pos ⟨hacc, decide_eq_false hside⟩
      have hother : ∀ n offset, postedOn witness accId true offset (done ++ [(n, fill)]) =
          postedOn witness accId true offset done :=
        fun n offset => postedOn_append_of_neg fun h => hside (of_decide_eq_true h.2)
      simp only [hside, if_false]
      refine Forces.block fun s => ⟨_, _, rfl, fun hsat => ⟨hsat, fun hinv => ⟨rfl, trivial, ?_, ?_⟩⟩⟩
      · rw [evaluate_addTerm, hinv.cash, witnessVar_value, hown, hother, Nat.add_zero, Nat.cast_add]
        ring
      · rw [evaluate_addTerm_neg, hinv.inventory, witnessVar_value, hown, hother, Nat.cast_add]
        ring

theorem forces_accountFills (accId : AccountId) (n₀ : ℕ) (l : List Fill) (done : List (ℕ × Fill))
    (expected : ExpectedPost) :
    Forces publicInputs witness (l.foldlM (synthesizeAccountFill accId) expected)
      (fun n n' expected' => ExpectsPosted publicInputs witness accId n₀ done expected →
        n' = l.foldl (accountFillNext accId) n ∧
        (∀ p ∈ slots (accountFillNext accId) n l, True) ∧
        ExpectsPosted publicInputs witness accId n₀ (done ++ slots (accountFillNext accId) n l)
          expected') := by
  refine Forces.foldlM (fun fill _ done expected => ?_) done expected
  exact forces_synthesizeAccountFill accId n₀ done expected fill

/-- The sum over the slots of the variables at `offset`. -/
def balanceSum (witness : List U64) (offset : ℕ) (l : List (ℕ × (AccountId × AccountState))) : ℕ :=
  (l.map fun p => witnessValue witness (p.1 + offset)).sum

theorem balanceSum_append (offset : ℕ) (l : List (ℕ × (AccountId × AccountState)))
    (p : ℕ × (AccountId × AccountState)) : balanceSum witness offset (l ++ [p]) =
      balanceSum witness offset l + witnessValue witness (p.1 + offset) := by
  rw [balanceSum, List.map_append, List.sum_append, List.map_singleton, List.sum_singleton]
  rfl

theorem balanceSum_slots_lt (witness : List U64) (next : ℕ → AccountId × AccountState → ℕ)
    {l : List (AccountId × AccountState)} (hl : l.length < 2 ^ 60) (n : ℕ) (offset : ℕ) :
    balanceSum witness offset (slots next n l) < 2 ^ 124 := by
  have h := sum_slots_lt next hl n (fun _ => true)
    fun q => witnessValue_lt witness (q.1 + offset)
  rwa [List.filter_true] at h

/-- The totals sum the balances of the slots so far. -/
structure SumsBalances (publicInputs witness : List U64)
    (done : List (ℕ × (AccountId × AccountState))) (totals : ConservationTotals) : Prop where
  preCash : totals.totalPreCashLc.evaluate publicInputs witness = (balanceSum witness 0 done : Scalar)
  postCash : totals.totalPostCashLc.evaluate publicInputs witness = (balanceSum witness 1 done : Scalar)
  preInv : totals.totalPreInvLc.evaluate publicInputs witness = (balanceSum witness 2 done : Scalar)
  postInv : totals.totalPostInvLc.evaluate publicInputs witness = (balanceSum witness 3 done : Scalar)

/-- A balance after equals the balance before with credits and without debits. -/
theorem scalar_transition_iff {post pre credits debits : ℕ} (hpost : post < 2 ^ 64)
    (hpre : pre < 2 ^ 64) (hc : credits < 2 ^ 124) (hd : debits < 2 ^ 124) :
    (post : Scalar) = pre + credits - debits ↔ post + debits = pre + credits := by
  rw [eq_sub_iff_add_eq, ← Nat.cast_add, ← Nat.cast_add]
  exact scalar_natCast_inj (by omega) (by omega)

theorem forces_synthesizeAccount (postState : Ledger) {fills : List Fill} (instrument : InstrumentId)
    (hlen : fills.length < 2 ^ 60) (done : List (ℕ × (AccountId × AccountState)))
    (totals : ConservationTotals) (e : AccountId × AccountState) :
    Forces publicInputs witness (synthesizeAccount postState fills instrument totals e)
      (fun n n' totals' => SumsBalances publicInputs witness done totals →
        n' = accountNext fills n e ∧ BalancesHold witness fills e.1 n ∧
        SumsBalances publicInputs witness (done ++ [(n, e)]) totals') := by
  unfold synthesizeAccount
  intro s totals' s' hm hsat
  obtain ⟨v0, s0, h0, hm⟩ := Synth.bind_eq_ok.mp hm
  obtain ⟨rfl, rfl⟩ := Prod.mk.inj (Except.ok.inj h0)
  obtain ⟨v1, s1, h1, hm⟩ := Synth.bind_eq_ok.mp hm
  obtain ⟨rfl, rfl⟩ := Prod.mk.inj (Except.ok.inj h1)
  obtain ⟨v2, s2, h2, hm⟩ := Synth.bind_eq_ok.mp hm
  obtain ⟨rfl, rfl⟩ := Prod.mk.inj (Except.ok.inj h2)
  obtain ⟨v3, s3, h3, hm⟩ := Synth.bind_eq_ok.mp hm
  obtain ⟨rfl, rfl⟩ := Prod.mk.inj (Except.ok.inj h3)
  obtain ⟨u4, s4, h4, hm⟩ := Synth.bind_eq_ok.mp hm
  obtain ⟨rfl, rfl⟩ := Prod.mk.inj (Except.ok.inj h4)
  obtain ⟨expected, s5, hfold, hm⟩ := Synth.bind_eq_ok.mp hm
  obtain ⟨u6, s6, hcash, hm⟩ := Synth.bind_eq_ok.mp hm
  obtain ⟨u7, s7, hinv, hm⟩ := Synth.bind_eq_ok.mp hm
  obtain ⟨rfl, rfl⟩ := Prod.mk.inj (Except.ok.inj hm)
  obtain ⟨hsat6, hn7, hinv⟩ := Forces.enforceEqual s6 u7 s7 hinv hsat
  obtain ⟨hsat5, hn6, hcash⟩ := Forces.enforceEqual s5 u6 s6 hcash hsat6
  obtain ⟨hsat0, hforces⟩ := forces_accountFills e.1 s.cs.numWitness fills [] _ _ expected s5 hfold hsat5
  obtain ⟨hn5, -, hexp⟩ := hforces ⟨by simp [postedOn, witnessVar_value], by
    simp [postedOn, witnessVar_value]⟩
  rw [List.nil_append] at hexp
  rw [evaluate_fromVar, witnessVar_value] at hcash hinv
  have hlt := witnessValue_lt witness
  have hpost := fun buys offset => postedOn_slots_lt witness
    (accountFillNext e.1) hlen (s.cs.numWitness + 4) e.1 buys offset
  refine ⟨hsat0, fun hsums => ⟨?_, ⟨?_, ?_⟩, ⟨?_, ?_, ?_, ?_⟩⟩⟩
  · rw [hn7, hn6, hn5]
    rfl
  · exact (scalar_transition_iff (hlt _) (hlt _) (hpost _ _) (hpost _ _)).mp (hcash.trans hexp.cash)
  · exact (scalar_transition_iff (hlt _) (hlt _) (hpost _ _) (hpost _ _)).mp (hinv.trans hexp.inventory)
  · rw [evaluate_addTerm, hsums.preCash, witnessVar_value, balanceSum_append, Nat.cast_add, one_mul]
    rfl
  · rw [evaluate_addTerm, hsums.postCash, witnessVar_value, balanceSum_append, Nat.cast_add, one_mul]
  · rw [evaluate_addTerm, hsums.preInv, witnessVar_value, balanceSum_append, Nat.cast_add, one_mul]
  · rw [evaluate_addTerm, hsums.postInv, witnessVar_value, balanceSum_append, Nat.cast_add, one_mul]

theorem forces_accounts (postState : Ledger) {fills : List Fill} (instrument : InstrumentId)
    (hlen : fills.length < 2 ^ 60) (l : List (AccountId × AccountState))
    (done : List (ℕ × (AccountId × AccountState))) (totals : ConservationTotals) :
    Forces publicInputs witness (l.foldlM (synthesizeAccount postState fills instrument) totals)
      (fun n n' totals' => SumsBalances publicInputs witness done totals →
        n' = l.foldl (accountNext fills) n ∧
        (∀ p ∈ slots (accountNext fills) n l, BalancesHold witness fills p.2.1 p.1) ∧
        SumsBalances publicInputs witness (done ++ slots (accountNext fills) n l) totals') := by
  refine Forces.foldlM (fun e _ done totals => ?_) done totals
  exact forces_synthesizeAccount postState instrument hlen done totals e

/-- The conservation constraints in integers: every account moves by its fills, and the totals of cash
and of inventory do not move. -/
theorem synthesizeConservationConstraints_forces {preState postState : Ledger} {fills : List Fill}
    {instrument : InstrumentId} {s s' : Synthesis} {u : Unit}
    (hm : synthesizeConservationConstraints preState postState fills instrument s = .ok (u, s'))
    (hfills : fills.length < 2 ^ 60) (haccounts : preState.accounts.entries.length < 2 ^ 60)
    (hsat : s'.cs.Sat publicInputs witness) :
    s.cs.Sat publicInputs witness ∧
    (∀ p ∈ slots (accountNext fills) s.cs.numWitness preState.accounts.entries,
      BalancesHold witness fills p.2.1 p.1) ∧
    balanceSum witness 0 (slots (accountNext fills) s.cs.numWitness preState.accounts.entries) =
      balanceSum witness 1 (slots (accountNext fills) s.cs.numWitness preState.accounts.entries) ∧
    balanceSum witness 2 (slots (accountNext fills) s.cs.numWitness preState.accounts.entries) =
      balanceSum witness 3 (slots (accountNext fills) s.cs.numWitness preState.accounts.entries) := by
  unfold synthesizeConservationConstraints at hm
  obtain ⟨totals, s1, hfold, hm⟩ := Synth.bind_eq_ok.mp hm
  obtain ⟨u2, s2, hcash, hinv⟩ := Synth.bind_eq_ok.mp hm
  obtain ⟨hsat2, -, hinv⟩ := Forces.enforceEqual s2 u s' hinv hsat
  obtain ⟨hsat1, -, hcash⟩ := Forces.enforceEqual s1 u2 s2 hcash hsat2
  obtain ⟨hsat0, hforces⟩ := forces_accounts postState instrument hfills
    preState.accounts.entries [] _ s totals s1 hfold hsat1
  obtain ⟨-, hslots, hsums⟩ := hforces ⟨rfl, rfl, rfl, rfl⟩
  rw [List.nil_append] at hsums
  have hlt := fun offset => balanceSum_slots_lt witness (accountNext fills)
    haccounts s.cs.numWitness offset
  have hlt' := fun offset => (hlt offset).trans (by norm_num : (2 : ℕ) ^ 124 < 2 ^ 128)
  refine ⟨hsat0, hslots, ?_, ?_⟩
  · rw [hsums.preCash, hsums.postCash] at hcash
    exact (scalar_natCast_inj (hlt' 0) (hlt' 1)).mp hcash
  · rw [hsums.preInv, hsums.postInv] at hinv
    exact (scalar_natCast_inj (hlt' 2) (hlt' 3)).mp hinv

end Relations

/-- **Satisfied modulo 2^128, true in the integers.** Whatever 64-bit values the variables have, the
constraints of fills, allocations and balances leave no room for a wrap. The slots give every element
its variables; the clearing price of the fills and the cleared volume of the allocations are the
variables allocated first. -/
theorem isSatisfied_in_integers [StdSort] :
    (∀ publicInputs witness clearingPrice orders fills s u s',
      synthesizeFillBoundsConstraints clearingPrice orders fills s = .ok (u, s') →
      s'.cs.isSatisfied publicInputs witness = .ok () →
      ∀ p ∈ slots fillNext (s.cs.numWitness + 1) fills, ∃ order,
        orders.find? (·.id = p.2.orderId) = some order ∧
          FillHolds witness (witnessValue witness s.cs.numWitness) order p.1) ∧
    (∀ publicInputs witness batch clearingPrice clearedVolume allocation s u s',
      synthesizeAllocationConstraints batch clearingPrice clearedVolume allocation s = .ok (u, s') →
      batch.orders.length < 2 ^ 60 → s'.cs.isSatisfied publicInputs witness = .ok () →
      (∀ p ∈ slots (allocationNext batch.orders clearingPrice) s.cs.numWitness allocation.allocations,
        ∃ order, batch.orders.find? (·.id = p.2.orderId) = some order ∧
          AllocationHolds witness clearingPrice order p.1) ∧
      ∀ buys, allocatedOn witness batch.orders buys (slots (allocationNext batch.orders clearingPrice)
          s.cs.numWitness allocation.allocations) =
        (Variable.publicVar s.cs.numPublic).natValue publicInputs witness) ∧
    (∀ publicInputs witness preState postState fills instrument s u s',
      synthesizeConservationConstraints preState postState fills instrument s = .ok (u, s') →
      fills.length < 2 ^ 60 → preState.accounts.entries.length < 2 ^ 60 →
      s'.cs.isSatisfied publicInputs witness = .ok () →
      let accounts := slots (accountNext fills) s.cs.numWitness preState.accounts.entries
      (∀ p ∈ accounts, BalancesHold witness fills p.2.1 p.1) ∧
        balanceSum witness 0 accounts = balanceSum witness 1 accounts ∧
        balanceSum witness 2 accounts = balanceSum witness 3 accounts) := by
  refine ⟨?_, ?_, ?_⟩
  · intro publicInputs witness clearingPrice orders fills s u s' hm hsat
    rw [ConstraintSystem.isSatisfied_eq_ok] at hsat
    exact (forces_synthesizeFillBoundsConstraints clearingPrice orders fills s u s' hm hsat).2
  · intro publicInputs witness batch clearingPrice clearedVolume allocation s u s' hm hlen hsat
    rw [ConstraintSystem.isSatisfied_eq_ok] at hsat
    exact (synthesizeAllocationConstraints_forces hm hlen hsat).2
  · intro publicInputs witness preState postState fills instrument s u s' hm hfills haccounts hsat
    rw [ConstraintSystem.isSatisfied_eq_ok] at hsat
    exact (synthesizeConservationConstraints_forces hm hfills haccounts hsat).2

/-- The example execution, with the scalars its own synthesis pushes. -/
theorem isSatisfied_in_integers_example :
    (∃ witness, ∀ p ∈ slots fillNext 1 exampleResult.fills, ∃ order,
      exampleBatch.orders.find? (·.id = p.2.orderId) = some order ∧
        FillHolds witness (witnessValue witness 0) order p.1) ∧
    (∃ witness, ∀ buys, allocatedOn witness exampleBatch.orders buys
      (slots (allocationNext exampleBatch.orders ⟨105⟩) 0 exampleResult.allocation.allocations) = 10) ∧
    ∃ witness, balanceSum witness 0 (slots (accountNext exampleResult.fills) 0
        exampleLedger.accounts.entries) =
      balanceSum witness 1 (slots (accountNext exampleResult.fills) 0 exampleLedger.accounts.entries) := by
  refine ⟨?_, ?_, ?_⟩
  · have hrun : (synthesizeFillBoundsConstraints ⟨105⟩ exampleBatch.orders exampleResult.fills
        ⟨.new, []⟩ >>= fun r => r.2.cs.isSatisfied [] r.2.scalars) = .ok () := by decide +kernel
    obtain ⟨⟨u, s'⟩, hm, hsat⟩ := Result.bind_eq_ok.mp hrun
    exact ⟨s'.scalars, (@isSatisfied_in_integers .stable).1 [] s'.scalars _ _ _ _ u s' hm hsat⟩
  · have hrun : (@synthesizeAllocationConstraints .stable exampleBatch ⟨105⟩ ⟨10⟩
        exampleResult.allocation ⟨.new, []⟩ >>= fun r => r.2.cs.isSatisfied [10] r.2.scalars) =
          .ok () := by decide +kernel
    obtain ⟨⟨u, s'⟩, hm, hsat⟩ := Result.bind_eq_ok.mp hrun
    exact ⟨s'.scalars, ((@isSatisfied_in_integers .stable).2.1 [10] s'.scalars _ _ _ _ _ u s' hm
      (by decide) hsat).2⟩
  · have hrun : (synthesizeConservationConstraints exampleLedger exampleSettled exampleResult.fills
        ⟨7⟩ ⟨.new, []⟩ >>= fun r => r.2.cs.isSatisfied [] r.2.scalars) = .ok () := by decide +kernel
    obtain ⟨⟨u, s'⟩, hm, hsat⟩ := Result.bind_eq_ok.mp hrun
    exact ⟨s'.scalars, ((@isSatisfied_in_integers .stable).2.2 [] s'.scalars _ _ _ _ _ u s' hm
      (by decide) (by decide) hsat).2.1⟩

end FairCross
