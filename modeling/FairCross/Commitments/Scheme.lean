import FairCross.Domain.Order

/-!
# Commitment schemes

What `Sha256Scheme` offers to its callers (`commitments/sha256.hpp`), over any type `D` of digests.
Nothing the callers do depends on how a digest is computed, so they are modelled for every scheme;
`Sha256` is the scheme of the source, and `IdealHash` says what an idealised scheme guarantees.
-/

namespace FairCross

/-- A commitment scheme with digests `D`. -/
class CommitmentScheme (D : Type) where
  zero : D
  bytes : D → List UInt8
  commitRawBytes : List UInt8 → D
  combineNodes : D → D → D
  emptyNode : D

/-- An ideal hash: no two inputs collide, neither within one domain nor across the three. -/
structure IdealHash (D : Type) [CommitmentScheme D] : Prop where
  commit_inj : ∀ {s t : List UInt8}, (CommitmentScheme.commitRawBytes s : D) =
    CommitmentScheme.commitRawBytes t → s = t
  combine_inj : ∀ {a b a' b' : D}, CommitmentScheme.combineNodes a b =
    CommitmentScheme.combineNodes a' b' → a = a' ∧ b = b'
  commit_ne_combine : ∀ (s : List UInt8) (a b : D), CommitmentScheme.commitRawBytes s ≠
    CommitmentScheme.combineNodes a b
  commit_ne_empty : ∀ s : List UInt8, (CommitmentScheme.commitRawBytes s : D) ≠
    CommitmentScheme.emptyNode
  combine_ne_empty : ∀ a b : D, CommitmentScheme.combineNodes a b ≠ CommitmentScheme.emptyNode

/-- What a chain of digests rests on: commitments do not collide and are never the zero digest, and a
digest at the front of a payload can be told from what follows it. -/
structure ChainHash (D : Type) [CommitmentScheme D] : Prop where
  commit_inj : ∀ {s t : List UInt8}, (CommitmentScheme.commitRawBytes s : D) =
    CommitmentScheme.commitRawBytes t → s = t
  commit_ne_zero : ∀ s : List UInt8, (CommitmentScheme.commitRawBytes s : D) ≠ CommitmentScheme.zero
  bytes_append_inj : ∀ {a b : D} {s t : List UInt8},
    CommitmentScheme.bytes a ++ s = CommitmentScheme.bytes b ++ t → a = b ∧ s = t

/-! ## A scheme without collisions -/

/-- Digests that are the terms they are computed from. -/
inductive TermDigest where
  | zero
  | commit (data : List UInt8)
  | node (left right : TermDigest)
  | empty
deriving DecidableEq

namespace TermDigest

/-- The term in Polish notation, each commitment with the length of its data. -/
def bytes : TermDigest → List UInt8
  | .zero => [0]
  | .commit data => 1 :: List.replicate data.length 1 ++ 0 :: data
  | .node left right => 2 :: bytes left ++ bytes right
  | .empty => [3]

instance : CommitmentScheme TermDigest where
  zero := .zero
  bytes := bytes
  commitRawBytes := .commit
  combineNodes := .node
  emptyNode := .empty

theorem idealHash : IdealHash TermDigest where
  commit_inj := TermDigest.commit.inj
  combine_inj := TermDigest.node.inj
  commit_ne_combine _ _ _ := TermDigest.noConfusion
  commit_ne_empty _ := TermDigest.noConfusion
  combine_ne_empty _ _ := TermDigest.noConfusion

/-- The data of a commitment is as long as the ones before it say. -/
theorem replicate_append_inj {data data' s t : List UInt8}
    (h : List.replicate data.length 1 ++ 0 :: data ++ s =
      List.replicate data'.length 1 ++ 0 :: data' ++ t) : data = data' ∧ s = t := by
  have hcount : ∀ l r : List UInt8, (List.replicate l.length 1 ++ 0 :: l ++ r).takeWhile (· == 1) =
      List.replicate l.length 1 := by
    intro l r
    rw [List.append_assoc, List.takeWhile_append_of_pos (by simp), List.cons_append]
    simp
  have hlen : data.length = data'.length := by
    have := congrArg (fun l => (l.takeWhile (· == 1)).length) h
    simpa only [hcount, List.length_replicate] using this
  rw [hlen, List.append_assoc, List.append_assoc, List.append_cancel_left_eq, List.cons_append,
    List.cons_append, List.cons.injEq] at h
  exact List.append_inj h.2 hlen

theorem bytes_append_inj {a b : TermDigest} {s t : List UInt8} (h : bytes a ++ s = bytes b ++ t) :
    a = b ∧ s = t := by
  induction a generalizing b s t with
  | zero =>
    cases b <;> simp [bytes] at h
    exact ⟨rfl, h⟩
  | commit data =>
    cases b <;> simp [bytes] at h
    rename_i data'
    obtain ⟨rfl, rfl⟩ := replicate_append_inj (by simpa using h)
    exact ⟨rfl, rfl⟩
  | node left right ihl ihr =>
    cases b <;> simp [bytes] at h
    obtain ⟨rfl, hrest⟩ := ihl h
    obtain ⟨rfl, rfl⟩ := ihr hrest
    exact ⟨rfl, rfl⟩
  | empty =>
    cases b <;> simp [bytes] at h
    exact ⟨rfl, h⟩

theorem chainHash : ChainHash TermDigest where
  commit_inj := TermDigest.commit.inj
  commit_ne_zero _ := TermDigest.noConfusion
  bytes_append_inj := bytes_append_inj

end TermDigest

end FairCross
