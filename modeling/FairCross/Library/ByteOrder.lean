import Mathlib

/-!
# Byte orders

`leBytes k n` is the low `k` bytes of `n`, least significant first, as a loop of shifts writes them.
On numbers below `256 ^ k` the bytes determine the number, also when more bytes follow. `beBytes`
writes them most significant first; `ofBytes` reads such bytes, as a loop of shifts does. On numbers
that fit the two are inverse to each other.
-/

namespace LittleEndian

/-- The low `k` bytes of `n`, least significant first. -/
def leBytes (k n : ℕ) : List UInt8 := (List.range k).map fun i => UInt8.ofNat (n >>> (i * 8))

@[simp] theorem length_leBytes (k n : ℕ) : (leBytes k n).length = k := by simp [leBytes]

theorem leBytes_succ (k n : ℕ) : leBytes (k + 1) n = UInt8.ofNat n :: leBytes k (n / 256) := by
  simp only [leBytes, List.range_succ_eq_map, List.map_cons, List.map_map, Nat.zero_mul,
    Nat.shiftRight_zero, List.cons.injEq, true_and]
  apply List.map_congr_left
  intro i _
  simp only [Function.comp, Nat.succ_mul, Nat.add_comm (i * 8) 8, Nat.shiftRight_add,
    Nat.shiftRight_eq_div_pow n 8]

theorem leBytes_inj {k n m : ℕ} (hn : n < 256 ^ k) (hm : m < 256 ^ k)
    (h : leBytes k n = leBytes k m) : n = m := by
  induction k generalizing n m with
  | zero => simp only [pow_zero] at hn hm; omega
  | succ k ih =>
    rw [leBytes_succ, leBytes_succ, List.cons.injEq] at h
    have hq : n / 256 = m / 256 :=
      ih (by rw [pow_succ] at hn; omega) (by rw [pow_succ] at hm; omega) h.2
    have hr : n % 256 = m % 256 := by
      have := congrArg UInt8.toNat h.1
      simpa using this
    omega

/-- A field of `k` bytes at the front of two equal byte strings is the same in both. -/
theorem leBytes_append_inj {k n m : ℕ} {s t : List UInt8} (hn : n < 256 ^ k) (hm : m < 256 ^ k)
    (h : leBytes k n ++ s = leBytes k m ++ t) : n = m ∧ s = t := by
  obtain ⟨h1, h2⟩ := List.append_inj h (by simp)
  exact ⟨leBytes_inj hn hm h1, h2⟩

end LittleEndian

namespace BigEndian

open LittleEndian

/-- `val = (val << 8) | byte`, over the bytes. -/
def ofBytes (l : List UInt8) : ℕ := l.foldl (fun val byte => val <<< 8 ||| byte.toNat) 0

/-- The low `k` bytes of `n`, most significant first. -/
def beBytes (k n : ℕ) : List UInt8 := (leBytes k n).reverse

@[simp] theorem length_beBytes (k n : ℕ) : (beBytes k n).length = k := by simp [beBytes]

theorem beBytes_succ (k n : ℕ) : beBytes (k + 1) n = beBytes k (n / 256) ++ [UInt8.ofNat n] := by
  rw [beBytes, leBytes_succ, List.reverse_cons, beBytes]

theorem shiftLeft_or (val : ℕ) (byte : UInt8) : val <<< 8 ||| byte.toNat = val * 256 + byte.toNat := by
  rw [← Nat.shiftLeft_add_eq_or_of_lt byte.toNat_lt, Nat.shiftLeft_eq]

theorem ofBytes_append_singleton (l : List UInt8) (byte : UInt8) :
    ofBytes (l ++ [byte]) = ofBytes l * 256 + byte.toNat := by
  rw [ofBytes, List.foldl_append, List.foldl_cons, List.foldl_nil, shiftLeft_or]
  rfl

/-- Two and four bytes put together by shifts. -/
theorem ofBytes_two (b0 b1 : UInt8) : ofBytes [b0, b1] = b0.toNat <<< 8 ||| b1.toNat := by
  simp [ofBytes]

theorem ofBytes_four (b0 b1 b2 b3 : UInt8) : ofBytes [b0, b1, b2, b3] =
    b0.toNat <<< 24 ||| b1.toNat <<< 16 ||| b2.toNat <<< 8 ||| b3.toNat := by
  simp [ofBytes, Nat.shiftLeft_or_distrib, ← Nat.shiftLeft_add]

theorem ofBytes_beBytes {k n : ℕ} (h : n < 256 ^ k) : ofBytes (beBytes k n) = n := by
  induction k generalizing n with
  | zero =>
    rw [pow_zero] at h
    have : n = 0 := by omega
    subst this
    rfl
  | succ k ih =>
    have hq : n / 256 < 256 ^ k := by
      rw [pow_succ] at h
      omega
    have hr : (UInt8.ofNat n).toNat = n % 256 := by simp
    rw [beBytes_succ, ofBytes_append_singleton, ih hq, hr]
    omega

theorem beBytes_ofBytes (l : List UInt8) : beBytes l.length (ofBytes l) = l := by
  induction l using List.reverseRecOn with
  | nil => rfl
  | append_singleton l byte ih =>
    have hlt := byte.toNat_lt
    have hq : (ofBytes l * 256 + byte.toNat) / 256 = ofBytes l := by omega
    have hr : UInt8.ofNat (ofBytes l * 256 + byte.toNat) = byte := by
      apply UInt8.toNat_inj.mp
      simp
    rw [List.length_append, List.length_singleton, beBytes_succ, ofBytes_append_singleton, hq, ih, hr]

theorem beBytes_inj {k n m : ℕ} (hn : n < 256 ^ k) (hm : m < 256 ^ k)
    (h : beBytes k n = beBytes k m) : n = m := by
  rw [← ofBytes_beBytes hn, h, ofBytes_beBytes hm]

end BigEndian
