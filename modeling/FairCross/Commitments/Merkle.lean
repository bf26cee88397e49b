import FairCross.Commitments.Scheme
import FairCross.Library.HashTree

/-!
# Merkle trees

`commitments/merkle.hpp` and `commitments/merkle.cpp`.
-/

namespace FairCross

inductive StepSide where
  | left
  | right
deriving DecidableEq

/-- One step of an authentication path: the sibling, and the side it stands on. -/
structure MerkleStep (D : Type) where
  side : StepSide
  sibling : D

structure MerkleProof (D : Type) where
  leafIndex : ℕ
  path : List (MerkleStep D)

section Scheme

variable {D : Type} [CommitmentScheme D]

/-- The digest above `current` on an authentication path. -/
def MerkleStep.apply (current : D) (step : MerkleStep D) : D :=
  match step.side with
  | .left => CommitmentScheme.combineNodes step.sibling current
  | .right => CommitmentScheme.combineNodes current step.sibling

/-- The root an authentication path leads to. -/
def MerkleProof.fold (proof : MerkleProof D) (leaf : D) : D := proof.path.foldl MerkleStep.apply leaf

def MerkleProof.verify [DecidableEq D] (proof : MerkleProof D) (expectedRoot leaf : D) : Bool :=
  proof.fold leaf = expectedRoot

/-- The leaves, and the layers from the leaves to the root. -/
structure MerkleTree (D : Type) where
  leaves : List D
  layers : List (List D)

namespace MerkleTree

/-- The constructor. A tree without leaves has no layers. -/
def new (leaves : List D) : MerkleTree D where
  leaves := leaves
  layers :=
    if leaves = [] then []
    else HashTree.layersFrom CommitmentScheme.combineNodes CommitmentScheme.emptyNode leaves.length
      leaves

def leafCount (tree : MerkleTree D) : ℕ := tree.leaves.length

/-- The first digest of the last layer. -/
def root (tree : MerkleTree D) : D :=
  if tree.leaves = [] then CommitmentScheme.emptyNode
  else (tree.layers.getLast?.bind List.head?).getD CommitmentScheme.emptyNode

/-- The step from position `idx` of `layer` to the layer above. -/
def stepAt (layer : List D) (idx : ℕ) : MerkleStep D :=
  if idx % 2 = 1 then { side := .left, sibling := (layer[idx - 1]?).getD CommitmentScheme.emptyNode }
  else { side := .right, sibling := (layer[idx + 1]?).getD CommitmentScheme.emptyNode }

/-- The steps from position `idx` of the first layer to the last layer. -/
def pathFrom : List (List D) → ℕ → List (MerkleStep D)
  | layer :: layer' :: layers, idx => stepAt layer idx :: pathFrom (layer' :: layers) (idx / 2)
  | _, _ => []

def generateProof (tree : MerkleTree D) (leafIndex : ℕ) : Option (MerkleProof D) :=
  if leafIndex ≥ tree.leaves.length then none
  else some { leafIndex, path := pathFrom tree.layers leafIndex }

end MerkleTree

/-! ## What the tree guarantees -/

/-- The free combination an ideal hash gives over its commitments. -/
theorem IdealHash.free (h : IdealHash D) :
    HashTree.Free (CommitmentScheme.combineNodes : D → D → D) CommitmentScheme.emptyNode
      fun d => ∃ s, d = CommitmentScheme.commitRawBytes s where
  inj := h.combine_inj
  not_leaf a b := fun ⟨s, hs⟩ => h.commit_ne_combine s a b hs.symm
  ne_pad := h.combine_ne_empty
  pad_not_leaf := fun ⟨s, hs⟩ => h.commit_ne_empty s hs.symm

namespace MerkleTree

theorem root_nil : (new ([] : List D)).root = CommitmentScheme.emptyNode := rfl

theorem hasRoot_root {leaves : List D} (hne : leaves ≠ []) :
    HashTree.HasRoot CommitmentScheme.combineNodes CommitmentScheme.emptyNode leaves
      (new leaves).root := by
  obtain ⟨r, hr, hroot⟩ := HashTree.layersFrom_getLast CommitmentScheme.combineNodes
    CommitmentScheme.emptyNode hne (Nat.le_succ leaves.length)
  have : (new leaves).root = r := by
    unfold root new
    simp only [hne, if_false, hr]
    rfl
  rwa [this]

/-- The root of a tree with leaves is a commitment or a combination, never the empty node. -/
theorem root_ne_empty (h : IdealHash D) {leaves : List D} (hne : leaves ≠ [])
    (hl : ∀ d ∈ leaves, ∃ s, d = CommitmentScheme.commitRawBytes s) :
    (new leaves).root ≠ CommitmentScheme.emptyNode := by
  intro he
  have hbase : ∀ d ∈ leaves, HashTree.AtLevel CommitmentScheme.combineNodes
      CommitmentScheme.emptyNode (fun d => ∃ s, d = CommitmentScheme.commitRawBytes s) 0 d := hl
  obtain ⟨n, hn, -⟩ := (hasRoot_root hne).level hbase
  rw [he] at hn
  exact h.free.pad_not_atLevel _ hn

/-- **Binding.** Under an ideal hash the root determines the list of commitments. -/
theorem root_inj (h : IdealHash D) {leaves leaves' : List D}
    (hl : ∀ d ∈ leaves, ∃ s, d = CommitmentScheme.commitRawBytes s)
    (hl' : ∀ d ∈ leaves', ∃ s, d = CommitmentScheme.commitRawBytes s)
    (he : (new leaves).root = (new leaves').root) : leaves = leaves' := by
  by_cases hne : leaves = []
  · by_cases hne' : leaves' = []
    · rw [hne, hne']
    · rw [hne, root_nil] at he
      exact absurd he.symm (root_ne_empty h hne' hl')
  · by_cases hne' : leaves' = []
    · rw [hne', root_nil] at he
      exact absurd he (root_ne_empty h hne hl)
    · have hroot := hasRoot_root hne'
      rw [← he] at hroot
      exact HashTree.HasRoot.inj h.free (hasRoot_root hne) hroot (k := 0) hl hl'

end MerkleTree

end Scheme

end FairCross
