import FairCross.Commitments.Encoding
import FairCross.Engine.Proofs.ExecutionProofs

/-!
# Inclusion proofs

A generated path leads to the root; under an ideal hash, no path at all leads there from anything but
a leaf of the tree. For the ledger tree this means that nobody can be shown a balance the ledger does
not have.
-/

namespace FairCross

section Scheme

variable {D : Type} [CommitmentScheme D]

namespace MerkleTree

/-! ## Completeness -/

/-- The step from position `i` leads to position `i / 2` of the layer above. -/
theorem apply_stepAt {l : List D} {i : ℕ} {a : D} (h : l[i]? = some a) :
    (HashTree.pairUp CommitmentScheme.combineNodes CommitmentScheme.emptyNode l)[i / 2]? =
      some (MerkleStep.apply a (stepAt l i)) := by
  rw [HashTree.getElem?_pairUp _ _ l h, stepAt]
  by_cases hi : i % 2 = 1 <;> simp only [hi, if_true, if_false, MerkleStep.apply]

/-- The path from any position of the first layer leads to the digest of the last. -/
theorem foldl_pathFrom {fuel : ℕ} : ∀ {l : List D}, l ≠ [] → l.length ≤ fuel + 1 →
    ∃ r, (HashTree.layersFrom CommitmentScheme.combineNodes CommitmentScheme.emptyNode fuel
        l).getLast? = some [r] ∧
      ∀ i a, l[i]? = some a →
        (pathFrom (HashTree.layersFrom CommitmentScheme.combineNodes CommitmentScheme.emptyNode fuel
          l) i).foldl MerkleStep.apply a = r := by
  -- a layer of one digest is the last one, and no step leads from it
  have hone : ∀ {l : List D}, l ≠ [] → l.length ≤ 1 → ∃ r, [l].getLast? = some [r] ∧
      ∀ i a, l[i]? = some a → (pathFrom [l] i).foldl MerkleStep.apply a = r := by
    intro l hne hlen
    obtain ⟨r, rfl⟩ := List.length_eq_one_iff.mp
      (show l.length = 1 by have := List.length_pos_iff.mpr hne; omega)
    refine ⟨r, rfl, fun i a h => ?_⟩
    have hi := (List.getElem?_eq_some_iff.mp h).1
    obtain rfl : i = 0 := by simpa using hi
    obtain rfl : r = a := by simpa using h
    rfl
  induction fuel with
  | zero => exact fun hne hlen => hone hne hlen
  | succ fuel ih =>
    intro l hne hlen
    unfold HashTree.layersFrom
    by_cases h1 : l.length ≤ 1
    · rw [if_pos h1]
      exact hone hne h1
    · have hpos := List.length_pos_iff.mpr hne
      have hup := HashTree.length_pairUp CommitmentScheme.combineNodes
        (CommitmentScheme.emptyNode : D) l
      obtain ⟨r, hr, hpath⟩ := ih
        (l := HashTree.pairUp CommitmentScheme.combineNodes CommitmentScheme.emptyNode l)
        (by rw [← List.length_pos_iff]; omega) (by omega)
      rw [if_neg h1]
      refine ⟨r, ?_, fun i a h => ?_⟩
      · rw [List.getLast?_cons, hr]
        rfl
      · obtain ⟨rest, hrest⟩ := HashTree.layersFrom_eq_cons CommitmentScheme.combineNodes
          CommitmentScheme.emptyNode fuel
          (HashTree.pairUp CommitmentScheme.combineNodes CommitmentScheme.emptyNode l)
        have := hpath (i / 2) _ (apply_stepAt h)
        rw [hrest] at this ⊢
        exact this

theorem generateProof_isSome (leaves : List D) (i : ℕ) :
    ((new leaves).generateProof i).isSome ↔ i < leaves.length := by
  unfold generateProof
  show (if i ≥ leaves.length then none else _ : Option (MerkleProof D)).isSome ↔ _
  split_ifs with h <;> simp <;> omega

/-- **Completeness.** The generated path leads from the leaf to the root. -/
theorem fold_generateProof {leaves : List D} {i : ℕ} {a : D} (h : leaves[i]? = some a)
    {proof : MerkleProof D} (hp : (new leaves).generateProof i = some proof) :
    proof.fold a = (new leaves).root ∧ proof.leafIndex = i := by
  have hne : leaves ≠ [] := by
    rintro rfl
    simp at h
  obtain ⟨r, hr, hpath⟩ := foldl_pathFrom hne (Nat.le_succ leaves.length)
  unfold generateProof at hp
  split_ifs at hp
  obtain rfl := Option.some.inj hp
  refine ⟨?_, rfl⟩
  have hroot : (new leaves).root = r := by
    unfold root new
    simp only [hne, if_false, hr]
    rfl
  rw [hroot]
  have := hpath i a h
  unfold MerkleProof.fold new
  simpa only [hne, if_false] using this

/-! ## Soundness -/

/-- A step as the library writes it. -/
def asAscent (step : MerkleStep D) : Bool × D := (decide (step.side = .left), step.sibling)

theorem apply_eq_ascend (current : D) (step : MerkleStep D) :
    step.apply current = HashTree.ascend CommitmentScheme.combineNodes current (asAscent step) := by
  unfold MerkleStep.apply asAscent HashTree.ascend
  cases step.side <;> rfl

theorem fold_eq_ascend (proof : MerkleProof D) (c : D) : proof.fold c =
    (proof.path.map asAscent).foldl (HashTree.ascend CommitmentScheme.combineNodes) c := by
  rw [MerkleProof.fold, List.foldl_map]
  congr 1
  funext current step
  exact apply_eq_ascend current step

/-- **Soundness.** A path that leads from a commitment to the root starts at a leaf. -/
theorem mem_of_fold (h : IdealHash D) {leaves : List D}
    (hl : ∀ d ∈ leaves, ∃ s, d = CommitmentScheme.commitRawBytes s) {proof : MerkleProof D}
    {s : List UInt8} (hp : proof.fold (CommitmentScheme.commitRawBytes s) = (new leaves).root) :
    CommitmentScheme.commitRawBytes s ∈ leaves := by
  rw [fold_eq_ascend] at hp
  by_cases hne : leaves = []
  · rw [hne, root_nil] at hp
    exact absurd hp (h.free.foldl_ascend_ne_pad ⟨s, rfl⟩ _)
  · exact (hasRoot_root hne).mem_of_path h.free hl ⟨s, rfl⟩ hp

end MerkleTree

/-- **The root determines the list.** Trees over commitments with the same root have the same leaves,
in the same order, whatever their lengths are. -/
theorem merkleRoot_determines_leaves (h : IdealHash D) {a b : List D}
    (ha : ∀ d ∈ a, ∃ s, d = CommitmentScheme.commitRawBytes s)
    (hb : ∀ d ∈ b, ∃ s, d = CommitmentScheme.commitRawBytes s)
    (hroot : (MerkleTree.new a).root = (MerkleTree.new b).root) : a = b :=
  MerkleTree.root_inj h ha hb hroot

variable [DecidableEq D]

/-- **Inclusion proofs.** There is one for exactly the positions of the leaves, and it verifies the
leaf there. Under an ideal hash it verifies nothing else, and no proof of any shape verifies a
commitment that is not a leaf. -/
theorem inclusionProof_correct (leaves : List D) :
    (∀ i, ((MerkleTree.new leaves).generateProof i).isSome ↔ i < leaves.length) ∧
    (∀ i a proof, leaves[i]? = some a → (MerkleTree.new leaves).generateProof i = some proof →
      proof.verify (MerkleTree.new leaves).root a = true) ∧
    (IdealHash D → (∀ d ∈ leaves, ∃ s, d = CommitmentScheme.commitRawBytes s) →
      (∀ i a proof c, leaves[i]? = some a → (MerkleTree.new leaves).generateProof i = some proof →
        proof.verify (MerkleTree.new leaves).root c = true → c = a) ∧
      ∀ (proof : MerkleProof D) (s : List UInt8), proof.verify (MerkleTree.new leaves).root
        (CommitmentScheme.commitRawBytes s) = true → CommitmentScheme.commitRawBytes s ∈ leaves) := by
  refine ⟨MerkleTree.generateProof_isSome leaves, ?_, ?_⟩
  · intro i a proof ha hp
    exact decide_eq_true (MerkleTree.fold_generateProof ha hp).1
  · intro ideal hl
    constructor
    · intro i a proof c ha hp hc
      have h1 := (MerkleTree.fold_generateProof ha hp).1
      have h2 := of_decide_eq_true hc
      rw [← h1, MerkleTree.fold_eq_ascend, MerkleTree.fold_eq_ascend] at h2
      exact ideal.free.foldl_ascend_inj h2
    · intro proof s hc
      exact MerkleTree.mem_of_fold ideal hl (of_decide_eq_true hc)

/-! ## The ledger tree -/

end Scheme

/-! ## Examples -/

/-- Three leaves: an odd layer, so that the padding takes part. -/
def exampleLeaves : List TermDigest := [.commit [1], .commit [2], .commit [3]]

theorem exampleLeaves_commit : ∀ d ∈ exampleLeaves, ∃ s, d = CommitmentScheme.commitRawBytes s := by
  intro d hd
  rcases List.mem_cons.mp hd with rfl | hd
  · exact ⟨[1], rfl⟩
  · rcases List.mem_cons.mp hd with rfl | hd
    · exact ⟨[2], rfl⟩
    · exact ⟨[3], List.mem_singleton.mp hd⟩

theorem merkleRoot_determines_leaves_example :
    exampleLeaves = [[1], [2], [3]].map TermDigest.commit :=
  merkleRoot_determines_leaves TermDigest.idealHash exampleLeaves_commit exampleLeaves_commit rfl

theorem inclusionProof_correct_example :
    TermDigest.commit [3] ∈ exampleLeaves ∧
      ∀ proof : MerkleProof TermDigest,
        proof.verify (MerkleTree.new exampleLeaves).root (.commit [4]) = false := by
  have h := (inclusionProof_correct exampleLeaves).2.2 TermDigest.idealHash exampleLeaves_commit
  refine ⟨h.2 ⟨2, [⟨.right, .empty⟩, ⟨.left, .node (.commit [1]) (.commit [2])⟩]⟩ [3]
    (by decide +kernel), fun proof => ?_⟩
  by_contra hv
  rw [Bool.not_eq_false] at hv
  have := h.2 proof [4] hv
  revert this
  decide

end FairCross
