import FairCross.Library.LinearForm
import FairCross.Proof.R1cs
import Mathlib.Data.BitVec

/-!
# What a synthesis asserts

A subrelation appends variables, their scalars and constraints. `Emits` says when it succeeds and what
its constraints then assert, on every witness that has its scalars at the positions of its variables.
The rules follow the structure of a subrelation: a block of single steps, `bind`, and the loops.
-/

namespace FairCross

/-! ## Constraints -/

section Constraints

variable (publicInputs witness : List U64)

/-- The constraint holds of the two vectors. -/
def R1CSConstraint.Holds (c : R1CSConstraint) : Prop :=
  c.a.evaluate publicInputs witness * c.b.evaluate publicInputs witness =
    c.c.evaluate publicInputs witness

/-- All constraints hold. -/
def ConstraintSystem.Sat (cs : ConstraintSystem) : Prop :=
  ∀ c ∈ cs.constraints, c.Holds publicInputs witness

variable {publicInputs witness}

theorem ConstraintSystem.isSatisfied_eq_ok {cs : ConstraintSystem} :
    cs.isSatisfied publicInputs witness = .ok () ↔ cs.Sat publicInputs witness := by
  unfold isSatisfied Sat
  rw [Result.forM_eq_ok]
  refine forall₂_congr fun c _ => ?_
  unfold checkConstraint R1CSConstraint.Holds wrappingMul
  simp only [Result.ite_failure_eq_ok, ne_eq, not_not, Result.pure_eq_ok, and_true]

namespace LinearCombination

theorem evaluate_eq (lc : LinearCombination) : lc.evaluate publicInputs witness =
    LinearForm.eval (Variable.value publicInputs witness) lc.terms := rfl

@[simp] theorem evaluate_zero : zero.evaluate publicInputs witness = 0 := rfl

@[simp] theorem evaluate_fromVar (v : Variable) :
    (fromVar v).evaluate publicInputs witness = v.value publicInputs witness := by
  rw [evaluate_eq, fromVar, LinearForm.eval_singleton, one_mul]

@[simp] theorem evaluate_fromConstant (c : Scalar) :
    (fromConstant c).evaluate publicInputs witness = c := by
  rw [evaluate_eq, fromConstant, LinearForm.eval_singleton, Variable.value, mul_one]

theorem addTerm_terms (lc : LinearCombination) (v : Variable) (c : Scalar) :
    (lc.addTerm v c).terms = LinearForm.addTerm lc.terms v c := by
  unfold addTerm LinearForm.addTerm
  split_ifs <;> rfl

@[simp] theorem evaluate_addTerm (lc : LinearCombination) (v : Variable) (c : Scalar) :
    (lc.addTerm v c).evaluate publicInputs witness =
      lc.evaluate publicInputs witness + c * v.value publicInputs witness := by
  rw [evaluate_eq, addTerm_terms, LinearForm.eval_addTerm]
  rfl

theorem evaluate_addTerm_neg (lc : LinearCombination) (v : Variable) :
    (lc.addTerm v (-1)).evaluate publicInputs witness =
      lc.evaluate publicInputs witness - v.value publicInputs witness := by
  rw [evaluate_addTerm, neg_one_mul, sub_eq_add_neg]

end LinearCombination

@[simp] theorem Variable.value_one : Variable.one.value publicInputs witness = 1 := rfl

namespace ConstraintSystem

@[simp] theorem sat_new : new.Sat publicInputs witness := by
  intro c hc
  exact absurd hc (List.not_mem_nil)

@[simp] theorem enforce_numWitness {cs : ConstraintSystem} {a b c : LinearCombination}
    {label : String} : (cs.enforce a b c label).numWitness = cs.numWitness := rfl

@[simp] theorem enforceEqual_numWitness {cs : ConstraintSystem} {lc1 lc2 : LinearCombination}
    {label : String} : (cs.enforceEqual lc1 lc2 label).numWitness = cs.numWitness := rfl

@[simp] theorem length_enforce {cs : ConstraintSystem} {a b c : LinearCombination} {label : String} :
    (cs.enforce a b c label).constraints.length = cs.constraints.length + 1 := by
  simp [enforce]

@[simp] theorem length_enforceEqual {cs : ConstraintSystem} {lc1 lc2 : LinearCombination}
    {label : String} :
    (cs.enforceEqual lc1 lc2 label).constraints.length = cs.constraints.length + 1 := by
  simp [enforceEqual]

/-- The counters of variables do not matter. -/
@[simp] theorem sat_mk {p w : ℕ} {cs : ConstraintSystem} :
    Sat publicInputs witness ⟨p, w, cs.constraints⟩ ↔ cs.Sat publicInputs witness := Iff.rfl

@[simp] theorem sat_enforce {cs : ConstraintSystem} {a b c : LinearCombination} {label : String} :
    (cs.enforce a b c label).Sat publicInputs witness ↔ cs.Sat publicInputs witness ∧
      a.evaluate publicInputs witness * b.evaluate publicInputs witness =
        c.evaluate publicInputs witness := by
  unfold Sat enforce
  simp only [List.forall_mem_append, List.forall_mem_singleton]
  rfl

/-- An equality constraint holds when the two sides evaluate alike. -/
@[simp] theorem sat_enforceEqual {cs : ConstraintSystem} {lc1 lc2 : LinearCombination} {label : String} :
    (cs.enforceEqual lc1 lc2 label).Sat publicInputs witness ↔ cs.Sat publicInputs witness ∧
      lc1.evaluate publicInputs witness = lc2.evaluate publicInputs witness := by
  have hterms : (lc2.terms.foldl (fun lc t => lc.addTerm t.1 (-t.2)) lc1).terms =
      lc2.terms.foldl (fun l t => LinearForm.addTerm l t.1 (-t.2)) lc1.terms :=
    (List.foldl_hom LinearCombination.terms fun lc (t : Variable × Scalar) =>
      (LinearCombination.addTerm_terms lc t.1 (-t.2)).symm).symm
  have heval : (lc2.terms.foldl (fun lc t => lc.addTerm t.1 (-t.2)) lc1).evaluate publicInputs
      witness = lc1.evaluate publicInputs witness - lc2.evaluate publicInputs witness := by
    rw [LinearCombination.evaluate_eq, hterms, LinearForm.eval_foldl_addTerm_neg]
    rfl
  rw [enforceEqual, sat_enforce, heval]
  simp only [LinearCombination.evaluate_fromVar, Variable.value_one, mul_one,
    LinearCombination.evaluate_zero, sub_eq_zero]

end ConstraintSystem

end Constraints

/-! ## Syntheses -/

namespace Synthesis

/-- The witness has the scalars of the synthesis at the positions of its variables. -/
def Reads (s : Synthesis) (witness : List U64) : Prop :=
  ∃ base, s.cs.numWitness = base + s.scalars.length ∧ s.scalars <+: witness.drop base

/-- The witness has `values` from position `n` on. -/
def ReadsFrom (publicInputs witness : List U64) : ℕ → List U64 → Prop
  | _, [] => True
  | n, v :: vs => (Variable.witnessVar n).value publicInputs witness = toScalar v ∧
      ReadsFrom publicInputs witness (n + 1) vs

/-- `s'` comes from `s` by `publics` public variables, witness variables with their scalars, and at
most `size` constraints. -/
structure Extends (publics size : ℕ) (s s' : Synthesis) : Prop where
  aligned : s'.cs.numWitness + s.scalars.length = s.cs.numWitness + s'.scalars.length
  grows : s.scalars <+: s'.scalars
  publics : s'.cs.numPublic = s.cs.numPublic + publics
  size : s'.cs.constraints.length ≤ s.cs.constraints.length + size

variable {publicInputs witness : List U64} {s s' s'' : Synthesis} {k k' z z' : ℕ}

theorem Extends.refl : Extends 0 0 s s := ⟨rfl, List.prefix_rfl, rfl, le_rfl⟩

theorem Extends.reads (h : Extends k z s s') (hr : s'.Reads witness) : s.Reads witness := by
  obtain ⟨base, hbase, hpre⟩ := hr
  have haligned := h.aligned
  exact ⟨base, by omega, h.grows.trans hpre⟩

theorem Extends.trans (h : Extends k z s s') (h' : Extends k' z' s' s'') :
    Extends (k + k') (z + z') s s'' := by
  refine ⟨?_, h.grows.trans h'.grows, ?_, ?_⟩
  · have h1 := h.aligned
    have h2 := h'.aligned
    omega
  · rw [h'.publics, h.publics, Nat.add_assoc]
  · have h1 := h.size
    have h2 := h'.size
    omega

/-- What is read at the end of the scalars. -/
theorem readsFrom_of_prefix {base : ℕ} {pre vs : List U64} (h : pre ++ vs <+: witness.drop base) :
    ReadsFrom publicInputs witness (base + pre.length) vs := by
  induction vs generalizing pre with
  | nil => trivial
  | cons v vs ih =>
    constructor
    · have hget : (witness.drop base)[pre.length]? = some v := by
        obtain ⟨rest, hrest⟩ := h
        rw [← hrest]
        simp
      rw [List.getElem?_drop] at hget
      show ((witness[base + pre.length]?).map toScalar).getD 0 = _
      rw [hget]
      rfl
    · have hrest : ReadsFrom publicInputs witness (base + (pre ++ [v]).length) vs :=
        ih (by simpa using h)
      rwa [List.length_append, List.length_singleton, ← Nat.add_assoc] at hrest

end Synthesis

/-! ## The calculus -/

section Calculus

variable (publicInputs witness : List U64)

/-- From `n` public variables on, `m` succeeds exactly under `guard`. It adds `publics` public
variables and at most `size` constraints; under `pre` its result satisfies `post` and its constraints
assert `rel`. -/
structure Emits {α : Type} (n : ℕ) (m : Synth α) (pre guard : Prop) (publics size : ℕ)
    (post : α → Prop) (rel : Prop) : Prop where
  succeeds : guard → ∀ s, s.cs.numPublic = n → ∃ a s', m s = .ok (a, s')
  spec : ∀ {s a s'}, s.cs.numPublic = n → m s = .ok (a, s') →
    guard ∧ s.Extends publics size s' ∧ (pre → s'.Reads witness → post a ∧
      (s'.cs.Sat publicInputs witness ↔ s.cs.Sat publicInputs witness ∧ rel))

variable {publicInputs witness} {α β : Type} {n k k' z z' : ℕ} {m : Synth α} {pre g g' rel rel' : Prop}
  {post : α → Prop}

theorem Emits.mono (h : Emits publicInputs witness n m pre g k z post rel) (hz : z ≤ z')
    (hg : g ↔ g') {post' : α → Prop} (hpost : pre → ∀ a, post a → post' a) (hrel : pre → (rel ↔ rel')) :
    Emits publicInputs witness n m pre g' k z' post' rel' := by
  refine ⟨fun hg' s hs => h.succeeds (hg.mpr hg') s hs, fun {s a s'} hs hm => ?_⟩
  obtain ⟨h1, h2, h3⟩ := h.spec hs hm
  refine ⟨hg.mp h1, ⟨h2.aligned, h2.grows, h2.publics, h2.size.trans (by omega)⟩, fun hp hr => ?_⟩
  obtain ⟨h4, h5⟩ := h3 hp hr
  exact ⟨hpost hp a h4, by rw [h5, hrel hp]⟩

theorem Emits.pure (a : α) : Emits publicInputs witness n (pure a : Synth α) pre True 0 0 (· = a) True := by
  refine ⟨fun _ s _ => ⟨a, s, rfl⟩, fun {s b s'} _ hm => ?_⟩
  obtain ⟨rfl, rfl⟩ := Prod.mk.inj (Except.ok.inj hm)
  exact ⟨trivial, .refl, fun _ _ => ⟨rfl, by rw [and_true]⟩⟩

/-- A result that nothing is said about. -/
theorem Emits.done (a : α) :
    Emits publicInputs witness n (Pure.pure a : Synth α) pre True 0 0 (fun _ => True) True :=
  (Emits.pure a).mono le_rfl Iff.rfl (fun _ _ _ => trivial) fun _ => Iff.rfl

theorem Synth.bind_eq_ok {m : Synth α} {f : α → Synth β} {s : Synthesis} {r : β × Synthesis} :
    (m >>= f) s = .ok r ↔ ∃ a s', m s = .ok (a, s') ∧ f a s' = .ok r := by
  show (m s >>= fun p => f p.1 p.2) = .ok r ↔ _
  rw [Result.bind_eq_ok]
  constructor
  · rintro ⟨⟨a, s'⟩, h1, h2⟩
    exact ⟨a, s', h1, h2⟩
  · rintro ⟨a, s', h1, h2⟩
    exact ⟨(a, s'), h1, h2⟩

theorem Emits.bind {f : α → Synth β} {post' : β → Prop}
    (h : Emits publicInputs witness n m pre g k z post rel)
    (h' : ∀ a, Emits publicInputs witness (n + k) (f a) (pre ∧ post a) g' k' z' post' rel') :
    Emits publicInputs witness n (m >>= f) pre (g ∧ g') (k + k') (z + z') post' (rel ∧ rel') := by
  constructor
  · rintro ⟨hg, hg'⟩ s hs
    obtain ⟨a, s', hm⟩ := h.succeeds hg s hs
    obtain ⟨-, hext, -⟩ := h.spec hs hm
    obtain ⟨b, s'', hf⟩ := (h' a).succeeds hg' s' (by rw [hext.publics, hs])
    exact ⟨b, s'', Synth.bind_eq_ok.mpr ⟨a, s', hm, hf⟩⟩
  · intro s b s'' hs hmf
    obtain ⟨a, s', hm, hf⟩ := Synth.bind_eq_ok.mp hmf
    obtain ⟨hg, hext, hsat⟩ := h.spec hs hm
    obtain ⟨hg', hext', hsat'⟩ := (h' a).spec (by rw [hext.publics, hs]) hf
    refine ⟨⟨hg, hg'⟩, hext.trans hext', fun hp hreads => ?_⟩
    obtain ⟨hpost, h1⟩ := hsat hp (hext'.reads hreads)
    obtain ⟨hpost', h2⟩ := hsat' ⟨hp, hpost⟩ hreads
    exact ⟨hpost', by rw [h2, h1, and_assoc]⟩

/-- A block of single steps, which has to be run: `vs` are the scalars it pushes. -/
theorem Emits.block (vs : List U64)
    (h : ∀ s, s.cs.numPublic = n → ∃ a s', m s = .ok (a, s') ∧ s'.scalars = s.scalars ++ vs ∧
      s'.cs.numWitness = s.cs.numWitness + vs.length ∧ s'.cs.numPublic = s.cs.numPublic + k ∧
      s'.cs.constraints.length ≤ s.cs.constraints.length + z ∧
      (Synthesis.ReadsFrom publicInputs witness s.cs.numWitness vs → pre → post a ∧
        (s'.cs.Sat publicInputs witness ↔ s.cs.Sat publicInputs witness ∧ rel))) :
    Emits publicInputs witness n m pre True k z post rel := by
  refine ⟨fun _ s hs => ?_, fun {s a s'} hs hm => ?_⟩
  · obtain ⟨a, s', hm, -⟩ := h s hs
    exact ⟨a, s', hm⟩
  · obtain ⟨a', s'', hm', h1, h2, h3, h4, h5⟩ := h s hs
    rw [hm] at hm'
    obtain ⟨rfl, rfl⟩ := Prod.mk.inj (Except.ok.inj hm')
    refine ⟨trivial, ⟨?_, ?_, h3, h4⟩, fun hp hr => h5 ?_ hp⟩
    · rw [h1, h2, List.length_append]
      omega
    · rw [h1]
      exact List.prefix_append _ _
    · obtain ⟨base, hbase, hpre⟩ := hr
      rw [h1] at hpre hbase
      have hreads := @Synthesis.readsFrom_of_prefix publicInputs witness _ _ _ hpre
      rw [List.length_append] at hbase
      have hn : s.cs.numWitness = base + s.scalars.length := by omega
      rwa [hn]

/-- Variables that are allocated with their scalars, and what follows on them. -/
theorem Emits.declare (vs : List U64) {f : ℕ → Synth α}
    (h : ∀ s, m s = f s.cs.numWitness
      ⟨⟨s.cs.numPublic, s.cs.numWitness + vs.length, s.cs.constraints⟩, s.scalars ++ vs⟩)
    (hf : ∀ w, Emits publicInputs witness n (f w)
      (pre ∧ Synthesis.ReadsFrom publicInputs witness w vs) g k z post rel) :
    Emits publicInputs witness n m pre g k z post rel := by
  have hdeclare : Emits publicInputs witness n (fun s => .ok (s.cs.numWitness,
      ⟨⟨s.cs.numPublic, s.cs.numWitness + vs.length, s.cs.constraints⟩, s.scalars ++ vs⟩) : Synth ℕ)
      pre True 0 0 (Synthesis.ReadsFrom publicInputs witness · vs) True :=
    Emits.block vs fun s _ => ⟨_, _, rfl, rfl, rfl, rfl, le_rfl, fun hr _ =>
      ⟨hr, by rw [and_true]; rfl⟩⟩
  have hm : m = (fun s => .ok (s.cs.numWitness, ⟨⟨s.cs.numPublic, s.cs.numWitness + vs.length,
      s.cs.constraints⟩, s.scalars ++ vs⟩) : Synth ℕ) >>= f := funext h
  have hbind := hdeclare.bind (f := f) hf
  rw [← hm, Nat.zero_add, Nat.zero_add] at hbind
  exact hbind.mono le_rfl (by simp) (fun _ _ => id) (fun _ => by simp)

theorem Emits.weaken {pre' : Prop} (hpre : pre' → pre)
    (h : Emits publicInputs witness n m pre g k z post rel) :
    Emits publicInputs witness n m pre' g k z post rel := by
  refine ⟨h.succeeds, fun hs hm => ?_⟩
  obtain ⟨h1, h2, h3⟩ := h.spec hs hm
  exact ⟨h1, h2, fun hp => h3 (hpre hp)⟩

/-- A check outside the constraint system. -/
theorem Emits.check {c : Prop} [Decidable c] {message : String}
    (h : ¬ c → Emits publicInputs witness n m pre g k z post rel) :
    Emits publicInputs witness n (if c then Synth.fail message else m) pre (¬ c ∧ g) k z post rel := by
  by_cases hc : c
  · rw [if_pos hc]
    refine ⟨fun hg => absurd hc hg.1, fun {s a s'} _ hm => ?_⟩
    cases hm
  · rw [if_neg hc]
    exact (h hc).mono le_rfl (by simp [hc]) (fun _ _ => id) (fun _ => Iff.rfl)

theorem Emits.of_guard (hg : g) (h : Emits publicInputs witness n m pre True k z post rel) :
    Emits publicInputs witness n m pre g k z post rel :=
  h.mono le_rfl (iff_of_true trivial hg) (fun _ _ => id) (fun _ => Iff.rfl)

theorem Emits.of_fails (hg : ¬ g) (h : ∀ s, ∃ e, m s = .error e) :
    Emits publicInputs witness n m pre g k z post rel := by
  refine ⟨fun h => absurd h hg, fun {s a s'} _ hm => ?_⟩
  obtain ⟨e, he⟩ := h s
  rw [hm] at he
  cases he

/-- A computation outside the constraint system. -/
theorem Emits.lift_bind {γ : Type} {r : Result γ} {f : γ → Synth α}
    (h : ∀ c, r = .ok c → Emits publicInputs witness n (f c) pre g k z post rel) :
    Emits publicInputs witness n (Synth.lift r >>= f) pre ((∃ c, r = .ok c) ∧ g) k z post rel := by
  cases hr : r with
  | error e =>
    constructor
    · rintro ⟨⟨c, hc⟩, -⟩
      cases hc
    · intro s a s' _ hm
      cases hm
  | ok c =>
    have hf : (Synth.lift (.ok c) >>= f) = f c := rfl
    rw [hf]
    exact (h c hr).mono le_rfl (by simp) (fun _ _ => id) (fun _ => Iff.rfl)

theorem Emits.allocPublic : Emits publicInputs witness n Synth.allocPublic pre True 1 0
    (· = .publicVar n) True := by
  refine Emits.block [] fun s hs => ⟨_, _, rfl, ?_, rfl, rfl, le_rfl, fun _ _ => ⟨?_, ?_⟩⟩
  · simp
  · rw [hs]
  · rw [and_true]
    rfl

theorem Emits.enforceEqual {lc1 lc2 : LinearCombination} {label : String} :
    Emits publicInputs witness n (Synth.enforceEqual lc1 lc2 label) pre True 0 1 (fun _ => True)
      (lc1.evaluate publicInputs witness = lc2.evaluate publicInputs witness) := by
  refine Emits.block [] fun s _ => ⟨_, _, rfl, ?_, rfl, rfl, ?_, fun _ _ => ⟨trivial, ?_⟩⟩
  · simp
  · rw [ConstraintSystem.length_enforceEqual]
  · exact ConstraintSystem.sat_enforceEqual

theorem Emits.enforce {a b c : LinearCombination} {label : String} :
    Emits publicInputs witness n (Synth.enforce a b c label) pre True 0 1 (fun _ => True)
      (a.evaluate publicInputs witness * b.evaluate publicInputs witness =
        c.evaluate publicInputs witness) := by
  refine Emits.block [] fun s _ => ⟨_, _, rfl, ?_, rfl, rfl, ?_, fun _ _ => ⟨trivial, ?_⟩⟩
  · simp
  · rw [ConstraintSystem.length_enforce]
  · exact ConstraintSystem.sat_enforce

/-- The loop over a list, one result after another. -/
theorem Emits.forM {ι : Type} {f : ι → Synth Unit} {g rel : ι → Prop} {z : ℕ} {l : List ι}
    (h : ∀ x ∈ l, Emits publicInputs witness n (f x) pre (g x) 0 z (fun _ => True) (rel x)) :
    Emits publicInputs witness n (l.forM f) pre (∀ x ∈ l, g x) 0 (l.length * z) (fun _ => True)
      (∀ x ∈ l, rel x) := by
  induction l with
  | nil =>
    exact (Emits.pure ()).mono (Nat.zero_le _) (by simp) (fun _ _ _ => trivial) (fun _ => by simp)
  | cons x l ih =>
    have hbind := (h x (List.mem_cons_self ..)).bind (f := fun _ => l.forM f) fun _ =>
      (ih fun y hy => h y (List.mem_cons_of_mem _ hy)).weaken And.left
    refine hbind.mono ?_ (by simp) (fun _ _ => id) (fun _ => by simp)
    rw [List.length_cons, Nat.succ_mul, Nat.add_comm]

/-- The loop with a state, which stands in the relation `inv` to the state `step` computes. -/
theorem Emits.foldlM {ι σ τ : Type} {f : σ → ι → Synth σ} {g rel : ι → Prop} {z : ℕ} {l : List ι}
    (inv : τ → σ → Prop) (step : τ → ι → τ)
    (h : ∀ x ∈ l, ∀ t a, Emits publicInputs witness n (f a x) (pre ∧ inv t a) (g x) 0 z
      (inv (step t x)) (rel x)) (t : τ) (a : σ) :
    Emits publicInputs witness n (l.foldlM f a) (pre ∧ inv t a) (∀ x ∈ l, g x) 0 (l.length * z)
      (inv (l.foldl step t)) (∀ x ∈ l, rel x) := by
  induction l generalizing t a with
  | nil =>
    refine (Emits.pure a).mono (Nat.zero_le _) (by simp) ?_ (fun _ => by simp)
    rintro ⟨-, hinv⟩ b rfl
    exact hinv
  | cons x l ih =>
    have hrest := ih fun y hy => h y (List.mem_cons_of_mem _ hy)
    have hbind := (h x (List.mem_cons_self ..) t a).bind (f := fun a => l.foldlM f a) fun a' =>
      (hrest (step t x) a').weaken fun hp => ⟨hp.1.1, hp.2⟩
    refine hbind.mono ?_ (by simp) (fun _ _ => id) (fun _ => by simp)
    rw [List.length_cons, Nat.succ_mul, Nat.add_comm]

end Calculus

end FairCross
