import Mathlib

/-!
# Loops

Rules for runs that may be given up: `Finishes P E r` says that the run `r` ends in a state with `P`, or
is given up for a reason in `E`.

`forUpTo endless last body k s` is the loop `for (; k <= last; ++k) s = body(k, s)` with a counter of `n`
values that wraps around. With the greatest value of the counter for `last` its condition never fails;
`Finishes.forUpTo` is the invariant rule of the loops with a smaller one. A loop with `k < bound` for its
condition always ends, and is a fold over `List.range`.

A loop over a list that remembers the keys it has seen, and refuses an element whose key is among them,
comes to the end when the keys are new and distinct (`FreshKeys.fresh_cons`).
-/

namespace CountedLoop

variable {ε σ τ : Type}

/-! ## Runs that may be given up -/

theorem bind_eq_ok {r : Except ε σ} {f : σ → Except ε τ} {t : τ} :
    (r >>= f) = .ok t ↔ ∃ s, r = .ok s ∧ f s = .ok t := by
  cases r <;> simp [bind, Except.bind]

/-- The run ends with `P`, or is given up for a reason in `E`. -/
inductive Finishes (P : σ → Prop) (E : ε → Prop) : Except ε σ → Prop where
  | ok {s : σ} (h : P s) : Finishes P E (.ok s)
  | error {e : ε} (h : E e) : Finishes P E (.error e)

namespace Finishes

variable {P : σ → Prop} {Q : τ → Prop} {E : ε → Prop} {r : Except ε σ} {f : σ → Except ε τ}

theorem mono {P' : σ → Prop} (h : Finishes P E r) (hP : ∀ s, P s → P' s) : Finishes P' E r := by
  cases h with
  | ok h => exact .ok (hP _ h)
  | error h => exact .error h

theorem bind (h : Finishes P E r) (hf : ∀ s, P s → Finishes Q E (f s)) : Finishes Q E (r >>= f) := by
  cases h with
  | ok h => exact hf _ h
  | error h => exact .error h

/-- A run that is given up for no reason ends. -/
theorem exists_ok (h : Finishes P (fun _ => False) r) : ∃ s, r = .ok s ∧ P s := by
  cases h with
  | ok h => exact ⟨_, rfl, h⟩
  | error h => exact h.elim

end Finishes

/-! ## Loops over a machine counter -/

variable {n : ℕ} [NeZero n] (endless : ε)

/-- The loop with less than `fuel` rounds. -/
def roundsUpTo (last : Fin n) (body : Fin n → σ → Except ε σ) : ℕ → Fin n → σ → Except ε σ
  | 0, _, _ => .error endless
  | fuel + 1, k, s =>
    if k ≤ last then do
      let s' ← body k s
      roundsUpTo last body fuel (k + 1) s'
    else .ok s

/-- After `n` rounds the counter is where it was, and the loop does not end any more. -/
def forUpTo (last : Fin n) (body : Fin n → σ → Except ε σ) (k : Fin n) (s : σ) : Except ε σ :=
  roundsUpTo endless last body (n + 1) k s

theorem succ_val {k last : Fin n} (hk : k ≤ last) (hlast : (last : ℕ) + 1 < n) :
    ((k + 1 : Fin n) : ℕ) = k + 1 := by
  have hle : (k : ℕ) ≤ last := hk
  rw [Fin.val_add, Fin.val_one', Nat.add_mod_mod, Nat.mod_eq_of_lt (by omega)]

variable {endless} {last : Fin n} {body : Fin n → σ → Except ε σ}

/-- What each round establishes for the next holds behind the last one, however many more rounds there
could have been. -/
theorem Finishes.roundsUpTo (I : ℕ → σ → Prop) {E : ε → Prop} (hlast : (last : ℕ) + 1 < n)
    (hbody : ∀ (k : Fin n) (s : σ), k ≤ last → I k s → Finishes (I (k + 1)) E (body k s))
    {fuel : ℕ} {k : Fin n} {s : σ} (hfuel : (last : ℕ) + 1 - k < fuel) (hk : (k : ℕ) ≤ last + 1)
    (hI : I k s) : Finishes (I (last + 1)) E (roundsUpTo endless last body fuel k s) := by
  induction fuel generalizing k s with
  | zero => exact absurd hfuel (Nat.not_lt_zero _)
  | succ fuel ih =>
    unfold CountedLoop.roundsUpTo
    by_cases hle : k ≤ last
    · rw [if_pos hle]
      refine (hbody k s hle hI).bind fun s' hI' => ?_
      have hle' : (k : ℕ) ≤ last := hle
      have hsucc := succ_val hle hlast
      exact ih (by omega) (by omega) (by rwa [hsucc])
    · rw [if_neg hle]
      have hgt : ¬ (k : ℕ) ≤ last := hle
      have heq : (last : ℕ) + 1 = k := by omega
      rw [heq]
      exact .ok hI

theorem Finishes.forUpTo (I : ℕ → σ → Prop) {E : ε → Prop} (hlast : (last : ℕ) + 1 < n)
    (hbody : ∀ (k : Fin n) (s : σ), k ≤ last → I k s → Finishes (I (k + 1)) E (body k s))
    {k : Fin n} {s : σ} (hk : (k : ℕ) ≤ last + 1) (hI : I k s) :
    Finishes (I (last + 1)) E (forUpTo endless last body k s) :=
  Finishes.roundsUpTo I hlast hbody (by omega) hk hI

theorem forUpTo_of_not_le {k : Fin n} (h : ¬ k ≤ last) (s : σ) :
    forUpTo endless last body k s = .ok s := by
  rw [forUpTo, roundsUpTo, if_neg h]

theorem forUpTo_of_error {k : Fin n} {s : σ} {e : ε} (hk : k ≤ last) (h : body k s = .error e) :
    forUpTo endless last body k s = .error e := by
  rw [forUpTo, roundsUpTo, if_pos hk, h]
  rfl

/-- The invariant rule of a loop over `0, …, m - 1`. -/
theorem Finishes.foldlM_range (I : ℕ → σ → Prop) {E : ε → Prop} {m : ℕ} {body : σ → ℕ → Except ε σ}
    {s : σ} (hbody : ∀ i s, i < m → I i s → Finishes (I (i + 1)) E (body s i)) (hI : I 0 s) :
    Finishes (I m) E ((List.range m).foldlM body s) := by
  induction m with
  | zero => exact .ok hI
  | succ m ih =>
    rw [List.range_succ, List.foldlM_append]
    refine (ih fun i s hi => hbody i s (Nat.lt_succ_of_lt hi)).bind fun s' hs' => ?_
    rw [List.foldlM_cons]
    exact (hbody m s' (Nat.lt_succ_self m) hs').bind fun s'' hs'' => .ok hs''

end CountedLoop

namespace FreshKeys

variable {α κ : Type*} {key : α → κ} {seen : List κ} {a : α} {l : List α}

/-- No key of the list was seen before, and none is there twice. -/
structure Fresh (key : α → κ) (seen : List κ) (l : List α) : Prop where
  new : ∀ a ∈ l, key a ∉ seen
  nodup : (l.map key).Nodup

@[simp] theorem fresh_nil : Fresh key seen [] := ⟨fun _ h => absurd h List.not_mem_nil, List.nodup_nil⟩

/-- One round of the loop. -/
theorem fresh_cons : Fresh key seen (a :: l) ↔ key a ∉ seen ∧ Fresh key (key a :: seen) l := by
  constructor
  · intro h
    obtain ⟨ha, hnodup⟩ := List.nodup_cons.mp h.nodup
    refine ⟨h.new a (List.mem_cons_self ..), fun b hb hmem => ?_, hnodup⟩
    rcases List.mem_cons.mp hmem with heq | hmem
    · exact ha (List.mem_map.mpr ⟨b, hb, heq⟩)
    · exact h.new b (List.mem_cons_of_mem _ hb) hmem
  · rintro ⟨ha, h⟩
    refine ⟨fun b hb => ?_, List.nodup_cons.mpr ⟨fun hmem => ?_, h.nodup⟩⟩
    · rcases List.mem_cons.mp hb with rfl | hb
      · exact ha
      · exact fun hmem => h.new b hb (List.mem_cons_of_mem _ hmem)
    · obtain ⟨b, hb, heq⟩ := List.mem_map.mp hmem
      exact h.new b hb (heq ▸ List.mem_cons_self ..)

theorem fresh_nothing_seen : Fresh key [] l ↔ (l.map key).Nodup :=
  ⟨Fresh.nodup, fun h => ⟨fun _ _ => List.not_mem_nil, h⟩⟩

end FreshKeys
