import Mathlib

/-!
# Local actions and their interleavings

A partial action on a store of cells is local to a set of cells when it reads and writes nothing
outside. Actions that are local to disjoint sets commute (`IsLocal.comm`), so a sequence of actions
may be rearranged as long as actions that share a cell keep their order (`Rearranged.run_eq`).
-/

namespace LocalAction

variable {κ ν ι : Type}

/-- A partial action on the cells `κ`. -/
abbrev Action (κ ν : Type) : Type := (κ → ν) → Option (κ → ν)

/-- `f` leaves the cells outside `R` alone, and what it does to those inside depends on nothing else. -/
structure IsLocal (R : Set κ) (f : Action κ ν) : Prop where
  frame : ∀ {s s'}, f s = some s' → ∀ k, k ∉ R → s' k = s k
  reads : ∀ {s s' t}, f s = some s' → (∀ k ∈ R, t k = s k) →
    ∃ t', f t = some t' ∧ ∀ k ∈ R, t' k = s' k

section Comm

variable {R S : Set κ} {f g : Action κ ν}

/-- Doing `g` after `f` can be done the other way round. -/
theorem IsLocal.swap (hf : IsLocal R f) (hg : IsLocal S g) (hd : Disjoint R S) {s u : κ → ν}
    (h : (f s).bind g = some u) : (g s).bind f = some u := by
  obtain ⟨s', hs', hu⟩ := Option.bind_eq_some_iff.mp h
  have hout : ∀ k ∈ S, k ∉ R := fun k hk hR => Set.disjoint_left.mp hd hR hk
  obtain ⟨t, ht, htS⟩ := hg.reads hu fun k hk => (hf.frame hs' k (hout k hk)).symm
  obtain ⟨u', hu', hu'R⟩ := hf.reads hs' fun k hk => hg.frame ht k (Set.disjoint_left.mp hd hk)
  refine Option.bind_eq_some_iff.mpr ⟨t, ht, hu'.trans (congrArg some (funext fun k => ?_))⟩
  by_cases hR : k ∈ R
  · rw [hu'R k hR, hg.frame hu k (Set.disjoint_left.mp hd hR)]
  · rw [hf.frame hu' k hR]
    by_cases hS : k ∈ S
    · exact htS k hS
    · rw [hg.frame ht k hS, hg.frame hu k hS, hf.frame hs' k hR]

/-- **Local actions on disjoint cells commute**, failures included. -/
theorem IsLocal.comm (hf : IsLocal R f) (hg : IsLocal S g) (hd : Disjoint R S) (s : κ → ν) :
    (f s).bind g = (g s).bind f :=
  Option.ext fun _ => ⟨hf.swap hg hd, hg.swap hf hd.symm⟩

end Comm

/-- Neighbours that share no cell change places, any number of times. -/
inductive Rearranged (cells : ι → Set κ) : List ι → List ι → Prop
  | refl (l : List ι) : Rearranged cells l l
  | swap (l r : List ι) {a b : ι} (h : Disjoint (cells a) (cells b)) :
      Rearranged cells (l ++ a :: b :: r) (l ++ b :: a :: r)
  | trans {l l' l'' : List ι} (h : Rearranged cells l l') (h' : Rearranged cells l' l'') :
      Rearranged cells l l''

/-- The actions one after another. -/
def run (act : ι → Action κ ν) (l : List ι) (s : κ → ν) : Option (κ → ν) := l.foldlM (fun s i => act i s) s

variable {act : ι → Action κ ν} {cells : ι → Set κ} {l l' : List ι}

@[simp] theorem run_nil (s : κ → ν) : run act [] s = some s := rfl

@[simp] theorem run_cons (i : ι) (l : List ι) (s : κ → ν) :
    run act (i :: l) s = (act i s).bind (run act l) := by
  rw [run, List.foldlM_cons]
  rfl

theorem run_append (l r : List ι) (s : κ → ν) : run act (l ++ r) s = (run act l s).bind (run act r) := by
  rw [run, List.foldlM_append]
  rfl

theorem Rearranged.perm (h : Rearranged cells l l') : l.Perm l' := by
  induction h with
  | refl l => exact .refl l
  | swap l r h => exact (List.Perm.swap _ _ _).append_left l
  | trans h h' ih ih' => exact ih.trans ih'

/-- **Rearranged runs agree**, failures included. -/
theorem Rearranged.run_eq (hlocal : ∀ i, IsLocal (cells i) (act i)) (h : Rearranged cells l l')
    (s : κ → ν) : run act l s = run act l' s := by
  induction h generalizing s with
  | refl l => rfl
  | swap l r h =>
    rw [run_append, run_append]
    refine congrArg _ (funext fun t => ?_)
    have hpair : ∀ i j : ι, run act (i :: j :: r) t =
        ((act i t).bind (act j)).bind (run act r) := by
      intro i j
      rw [run_cons, Option.bind_assoc]
      exact congrArg _ (funext fun u => run_cons j r u)
    rw [hpair, hpair, (hlocal _).comm (hlocal _) h]
  | trans h h' ih ih' => exact (ih s).trans (ih' s)

end LocalAction
