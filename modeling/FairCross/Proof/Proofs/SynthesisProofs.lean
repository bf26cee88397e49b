import FairCross.Proof.Proofs.ConstraintProofs
import FairCross.Proof.Proofs.ProverProofs

/-!
# The whole constraint system

The subrelations are synthesized one after another, each with scalars of its own. What they assert
together decides whether a bound and checked input is proved.
-/

namespace FairCross

namespace SingleBatchProver

open Synth

/-! ## One subrelation after another -/

section All

variable (publicInputs witness : List U64)

/-- From `n` public variables on, the subrelations `ms` are synthesized exactly under `guard`, add at
most `size` constraints, and assert `rel` of their own scalars. -/
structure EmitsAll (n : ℕ) (ms : List (Synth Unit)) (guard : Prop) (size : ℕ) (rel : Prop) : Prop where
  succeeds : guard → ∀ cs, cs.numPublic = n → ∃ r, synthesizeAll ms cs = .ok r
  spec : ∀ {cs cs' scalars}, cs.numPublic = n → synthesizeAll ms cs = .ok (cs', scalars) →
    guard ∧ cs'.constraints.length ≤ cs.constraints.length + size ∧
      ∀ before, witness = before ++ scalars → before.length = cs.numWitness →
        (cs'.Sat publicInputs witness ↔ cs.Sat publicInputs witness ∧ rel)

variable {publicInputs witness} {n k z z' : ℕ} {m : Synth Unit} {ms : List (Synth Unit)}
  {g g' rel rel' : Prop} {post : Unit → Prop}

theorem EmitsAll.nil : EmitsAll publicInputs witness n [] True 0 True := by
  refine ⟨fun _ cs _ => ⟨_, rfl⟩, fun {cs cs' scalars} _ h => ?_⟩
  obtain ⟨rfl, rfl⟩ := Prod.mk.inj (Except.ok.inj h)
  exact ⟨trivial, le_rfl, fun _ _ _ => by rw [and_true]⟩

theorem synthesizeAll_cons {cs : ConstraintSystem} {r : ConstraintSystem × List U64} :
    synthesizeAll (m :: ms) cs = .ok r ↔ ∃ s rest, m ⟨cs, []⟩ = .ok ((), s) ∧
      synthesizeAll ms s.cs = .ok rest ∧ (rest.1, s.scalars ++ rest.2) = r := by
  simp only [synthesizeAll, Synth.into, Result.bind_eq_ok, Result.convert_eq_ok, Result.pure_eq_ok]
  constructor
  · rintro ⟨s, ⟨⟨⟨⟩, s'⟩, hm, rfl⟩, rest, hrest, rfl⟩
    exact ⟨s', rest, hm, hrest, rfl⟩
  · rintro ⟨s, rest, hm, hrest, rfl⟩
    exact ⟨s, ⟨((), s), hm, rfl⟩, rest, hrest, rfl⟩

theorem EmitsAll.mono (h : EmitsAll publicInputs witness n ms g z rel) (hz : z ≤ z') (hg : g ↔ g')
    (hrel : rel ↔ rel') : EmitsAll publicInputs witness n ms g' z' rel' := by
  rw [← propext hg, ← propext hrel]
  refine ⟨h.succeeds, fun hcs hall => ?_⟩
  obtain ⟨h1, h2, h3⟩ := h.spec hcs hall
  exact ⟨h1, by omega, h3⟩

/-- One more subrelation at the front; its scalars stand before those of the rest. -/
theorem EmitsAll.cons (h : Emits publicInputs witness n m True g k z post rel)
    (h' : EmitsAll publicInputs witness (n + k) ms g' z' rel') :
    EmitsAll publicInputs witness n (m :: ms) (g ∧ g') (z + z') (rel ∧ rel') := by
  constructor
  · rintro ⟨hg, hg'⟩ cs hcs
    obtain ⟨⟨⟩, s, hm⟩ := h.succeeds hg ⟨cs, []⟩ hcs
    obtain ⟨-, hext, -⟩ := h.spec hcs hm
    obtain ⟨rest, hrest⟩ := h'.succeeds hg' s.cs (by rw [hext.publics, hcs])
    exact ⟨_, synthesizeAll_cons.mpr ⟨s, rest, hm, hrest, rfl⟩⟩
  · intro cs cs' scalars hcs hall
    obtain ⟨s, ⟨cs'', rest⟩, hm, hrest, he⟩ := synthesizeAll_cons.mp hall
    obtain ⟨rfl, rfl⟩ := Prod.mk.inj he
    obtain ⟨hg, hext, hsat⟩ := h.spec hcs hm
    obtain ⟨hg', hsize, hsat'⟩ := h'.spec (by rw [hext.publics, hcs]) hrest
    have haligned : s.cs.numWitness = cs.numWitness + s.scalars.length := hext.aligned
    refine ⟨⟨hg, hg'⟩, ?_, fun before hw hlen => ?_⟩
    · have hsize' : s.cs.constraints.length ≤ cs.constraints.length + z := hext.size
      show cs''.constraints.length ≤ _
      omega
    · have hreads : s.Reads witness := by
        refine ⟨cs.numWitness, haligned, ?_⟩
        rw [hw, ← hlen, List.drop_left]
        exact List.prefix_append _ _
      have h1 := (hsat trivial hreads).2
      have h2 := hsat' (before ++ s.scalars) (by rw [hw, List.append_assoc])
        (by rw [List.length_append, haligned, hlen])
      rw [h2, h1, and_assoc]

end All

/-! ## The subrelations of a batch -/

section Batch

variable {D : Type} [DecidableEq D] [CommitmentScheme D] [StdSort]

/-- The checks the synthesis of all subrelations makes. -/
structure SynthesisChecked (publicInputs : BatchProofPublicInputs D) (witness : BatchProofWitness D)
    (merkleTree : MerkleTree D) (accounting : CompleteInputAccounting D) : Prop where
  accounting : AccountingChecked witness.batch witness.preimages merkleTree accounting
    witness.allocation
  clearing : ClearingChecked witness.batch (clearingPriceOf publicInputs) ⟨publicInputs.clearedVolume⟩
  allocation : ∀ cp, clearingPriceOf publicInputs = some cp →
    AllocationChecked witness.batch cp ⟨publicInputs.clearedVolume⟩ witness.allocation
  fills : ∀ cp, clearingPriceOf publicInputs = some cp →
    ∀ f ∈ witness.fills, FillChecked witness.batch.orders cp.raw f
  oracle : ∀ snapshot policy cp, witness.oracleSnapshot = some snapshot →
    witness.oraclePolicy = some policy → clearingPriceOf publicInputs = some cp →
    SnapshotAdmissible policy snapshot witness.batch.instrument witness.batchCutoffNanos (some cp)

/-- The value of a public variable. -/
def publicValue (scalars : List U64) (index : ℕ) : Scalar := ((scalars[index]?).map toScalar).getD 0

/-- What the constraints of all subrelations assert, with the public vector `scalars`. -/
structure SynthesisAsserts (scalars : List U64) (publicInputs : BatchProofPublicInputs D)
    (witness : BatchProofWitness D) (merkleTree : MerkleTree D)
    (accounting : CompleteInputAccounting D) : Prop where
  orders : ∀ p ∈ witness.batch.orders.zipIdx,
    OrderAsserts witness.batch.instrument.raw p.2 p.1
  accounting : AccountingAsserts witness.preimages merkleTree accounting (publicValue scalars 0)
    (publicValue scalars 1)
  clearing : ClearingAsserts witness.batch (clearingPriceOf publicInputs)
    ⟨publicInputs.clearedVolume⟩ (publicValue scalars 2) (publicValue scalars 3)
  allocation : ∀ cp, clearingPriceOf publicInputs = some cp →
    AllocationAsserts witness.batch cp witness.allocation (publicValue scalars 4)
  fills : ∀ cp, clearingPriceOf publicInputs = some cp →
    ∀ f ∈ witness.fills, FillAsserts witness.batch.orders cp.raw f
  conservation : ConservationAsserts witness.preState witness.postState witness.fills
    witness.batch.instrument

/-- A bound on the number of constraints. -/
def synthesisSize (witness : BatchProofWitness D) (accounting : CompleteInputAccounting D) : ℕ :=
  witness.batch.orders.length * 5 +
    ((accounting.records.zip witness.preimages).length * 2 + 1) +
    ((candidatePricesFromOrders witness.batch.orders).length * 2 + 2) +
    (witness.allocation.allocations.length * 1 + 2) + witness.fills.length * 3 +
    (witness.preState.accounts.entries.length * 2 + 2) + 3

variable {publicInputs : BatchProofPublicInputs D} {witness : BatchProofWitness D}
  {merkleTree : MerkleTree D} {accounting : CompleteInputAccounting D}

section Subrelations

variable {n : ℕ} {pre : Prop} (scalars scalars' : List U64)

omit [StdSort] in
/-- A subrelation that is left out without a price adds no public variable and asserts nothing. -/
theorem emits_ofPrice {f : Price → Synth Unit} {g rel : Price → Prop} {k z : ℕ}
    (h : ∀ cp, Emits scalars scalars' n (f cp) pre (g cp) k z (fun _ => True) (rel cp))
    (price : Option Price) {m : Synth Unit} (hm : m = match price with
      | some cp => f cp
      | none => pure ()) :
    Emits scalars scalars' n m pre (∀ cp, price = some cp → g cp) (if price.isSome then k else 0) z
      (fun _ => True) (∀ cp, price = some cp → rel cp) := by
  subst hm
  cases price with
  | none => exact (Emits.done ()).mono (Nat.zero_le _) (by simp) (fun _ _ => id) (fun _ => by simp)
  | some cp => exact (h cp).mono le_rfl (by simp) (fun _ _ => id) (fun _ => by simp)

omit [DecidableEq D] [CommitmentScheme D] [StdSort] in
/-- The oracle subrelation is left out unless there are a snapshot, a policy and a price. -/
theorem emits_oracle (publicInputs : BatchProofPublicInputs D) (witness : BatchProofWitness D)
    (instrument : InstrumentId) :
    Emits scalars scalars' n
      (match witness.oracleSnapshot, witness.oraclePolicy, clearingPriceOf publicInputs with
        | some snapshot, some policy, some cp =>
          synthesizeOracleFreshnessConstraints instrument witness.batchCutoffNanos cp policy snapshot
        | _, _, _ => pure ()) pre
      (∀ snapshot policy cp, witness.oracleSnapshot = some snapshot →
        witness.oraclePolicy = some policy → clearingPriceOf publicInputs = some cp →
        SnapshotAdmissible policy snapshot instrument witness.batchCutoffNanos (some cp)) 0 3
      (fun _ => True) True := by
  have hskip : ∀ {g : Prop}, g → Emits scalars scalars' n (pure () : Synth Unit) pre g 0 3
      (fun _ => True) True := fun hg =>
    (Emits.done ()).mono (Nat.zero_le _) (iff_of_true trivial hg) (fun _ _ => id) (fun _ => Iff.rfl)
  cases witness.oracleSnapshot with
  | none => exact hskip (by simp)
  | some snapshot =>
    cases witness.oraclePolicy with
    | none => exact hskip (by simp)
    | some policy =>
      cases clearingPriceOf publicInputs with
      | none => exact hskip (by simp)
      | some cp =>
        exact (emits_synthesizeOracleFreshnessConstraints instrument witness.batchCutoffNanos cp
          policy snapshot).mono le_rfl (by simp) (fun _ _ => id) (fun _ => Iff.rfl)

end Subrelations

/-- **The constraint system of a batch.** -/
theorem emitsAll_subrelations (scalars scalars' : List U64) : EmitsAll scalars scalars' 0
    (subrelations publicInputs witness merkleTree accounting)
    (SynthesisChecked publicInputs witness merkleTree accounting)
    (synthesisSize witness accounting)
    (SynthesisAsserts scalars publicInputs witness merkleTree accounting) := by
  unfold subrelations
  refine EmitsAll.mono (EmitsAll.cons
    ((emits_synthesizeOrderValidityConstraints witness.batch.instrument.raw
      witness.batch.orders).bind fun _ => Emits.done ()) (EmitsAll.cons
    (emits_synthesizeCompleteInputAccountingConstraints witness.batch witness.preimages merkleTree
      accounting witness.allocation) (EmitsAll.cons
    ((emits_synthesizeClearingOptimalityConstraints witness.batch (clearingPriceOf publicInputs)
      ⟨publicInputs.clearedVolume⟩).bind fun _ => Emits.done ()) (EmitsAll.cons
    (emits_ofPrice scalars scalars' (fun cp => emits_synthesizeAllocationConstraints witness.batch cp
      ⟨publicInputs.clearedVolume⟩ witness.allocation) (clearingPriceOf publicInputs) rfl) (EmitsAll.cons
    (emits_ofPrice scalars scalars' (fun cp => emits_synthesizeFillBoundsConstraints cp
      witness.batch.orders witness.fills) (clearingPriceOf publicInputs) rfl) (EmitsAll.cons
    (emits_synthesizeConservationConstraints witness.preState witness.postState witness.fills
      witness.batch.instrument) (EmitsAll.cons
    (emits_oracle scalars scalars' publicInputs witness witness.batch.instrument)
    EmitsAll.nil))))))) ?_ ?_ ?_
  · simp only [synthesisSize]
    omega
  · constructor
    · rintro ⟨-, h1, ⟨h2, -⟩, h3, h4, -, h5, -⟩
      exact ⟨h1, h2, h3, h4, h5⟩
    · intro h
      exact ⟨⟨trivial, trivial⟩, h.accounting, ⟨h.clearing, trivial⟩, h.allocation, h.fills, trivial,
        h.oracle, trivial⟩
  · constructor
    · rintro ⟨⟨h1, -⟩, h2, ⟨h3, -⟩, h4, h5, h6, -, -⟩
      exact ⟨h1, h2, h3, h4, h5, h6⟩
    · intro h
      exact ⟨⟨h.orders, trivial⟩, h.accounting, ⟨h.clearing, trivial⟩, h.allocation, h.fills,
        h.conservation, trivial, trivial⟩

/-- **Satisfaction.** Whether the constraint system can be built and is satisfied. -/
theorem synthesizeAll_isSatisfied_iff (scalars : List U64) :
    (∃ cs fullWitness, synthesizeAll (subrelations publicInputs witness merkleTree accounting) .new =
      .ok (cs, fullWitness) ∧ cs.isSatisfied scalars fullWitness = .ok ()) ↔
    SynthesisChecked publicInputs witness merkleTree accounting ∧
      SynthesisAsserts scalars publicInputs witness merkleTree accounting := by
  constructor
  · rintro ⟨cs, fullWitness, hall, hsat⟩
    obtain ⟨hg, -, h⟩ := (emitsAll_subrelations scalars fullWitness).spec rfl hall
    rw [ConstraintSystem.isSatisfied_eq_ok, h [] rfl rfl] at hsat
    exact ⟨hg, hsat.2⟩
  · rintro ⟨hg, hrel⟩
    obtain ⟨⟨cs, fullWitness⟩, hall⟩ :=
      (emitsAll_subrelations scalars []).succeeds hg .new rfl
    refine ⟨cs, fullWitness, hall, ?_⟩
    obtain ⟨-, -, h⟩ := (emitsAll_subrelations scalars fullWitness).spec rfl hall
    rw [ConstraintSystem.isSatisfied_eq_ok, h [] rfl rfl]
    exact ⟨ConstraintSystem.sat_new, hrel⟩

/-- A constraint system that is built stays within the bound. -/
theorem synthesizeAll_size {cs : ConstraintSystem} {fullWitness : List U64}
    (h : synthesizeAll (subrelations publicInputs witness merkleTree accounting) .new =
      .ok (cs, fullWitness)) : cs.constraints.length ≤ synthesisSize witness accounting := by
  have hsize := ((emitsAll_subrelations [] []).spec rfl h).2.1
  rwa [show (ConstraintSystem.new).constraints.length = 0 from rfl, Nat.zero_add] at hsize

/-- A constraint system that is built is not empty: without constraints, any published batch length
would do. -/
theorem synthesizeAll_pos {cs : ConstraintSystem} {fullWitness : List U64}
    (h : synthesizeAll (subrelations publicInputs witness merkleTree accounting) .new =
      .ok (cs, fullWitness)) : 0 < cs.constraints.length := by
  by_contra hpos
  have hnil : cs.constraints = [] := List.length_eq_zero_iff.mp (Nat.eq_zero_of_not_pos hpos)
  have hcount : ∀ scalars : List U64,
      (((accounting.records.zip witness.preimages).length : ℕ) : Scalar) = publicValue scalars 0 := by
    intro scalars
    obtain ⟨-, -, hsat⟩ := (emitsAll_subrelations scalars fullWitness).spec rfl h
    have hempty : cs.Sat scalars fullWitness := by
      intro c hc
      rw [hnil] at hc
      cases hc
    exact ((hsat [] rfl rfl).mp hempty).2.accounting.2
  have hne : publicValue [0] 0 ≠ publicValue [1] 0 := by decide
  exact hne ((hcount [0]).symm.trans (hcount [1]))

/-- **Acceptance.** An input is proved exactly when it is bound, passes the plaintext checks, and its
constraint system is satisfied. -/
theorem prove_isOk_iff : (∃ proof, prove publicInputs witness = .ok proof) ↔
    ∃ leaves accounting, bindLeaves witness = .ok leaves ∧
      headerHash witness.batch witness.batchCutoffNanos (MerkleTree.new leaves).root =
        publicInputs.batchHeaderHash ∧
      bindAccounting witness leaves = .ok accounting ∧
      Plaintext publicInputs witness (.new leaves) accounting ∧
      SynthesisChecked publicInputs witness (.new leaves) accounting ∧
      SynthesisAsserts (publicScalars publicInputs witness (.new leaves)) publicInputs witness
        (.new leaves) accounting := by
  simp only [prove_eq_ok, ← synthesizeAll_isSatisfied_iff]
  constructor
  · rintro ⟨proof, leaves, accounting, cs, w, h1, h2, h3, h4, h5, h6, -⟩
    exact ⟨leaves, accounting, h1, h2, h3, h4, cs, w, h5, h6⟩
  · rintro ⟨leaves, accounting, h1, h2, h3, h4, cs, w, h5, h6⟩
    exact ⟨_, leaves, accounting, cs, w, h1, h2, h3, h4, h5, h6, rfl⟩

end Batch

end SingleBatchProver

end FairCross
