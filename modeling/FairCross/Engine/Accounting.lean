import FairCross.Commitments.Encoding
import FairCross.Engine.Checker

/-!
# Complete-input accounting

`engine/accounting.hpp` and `engine/accounting.cpp`: every committed order gets a record with its leaf
index, its commitment and what became of it.
-/

namespace FairCross

inductive DispositionKind where
  | fullyExecuted
  | partiallyExecuted
  | unfilled
  | cancelled
  | expired
deriving DecidableEq

/-- What became of an order. -/
structure OrderDisposition where
  kind : DispositionKind
  fillQty : Qty
  unfilledQty : Qty
deriving DecidableEq

namespace OrderDisposition

def fullyExecuted (fillQty : Qty) : OrderDisposition := ⟨.fullyExecuted, fillQty, .zero⟩

def partiallyExecuted (fillQty rem : Qty) : OrderDisposition := ⟨.partiallyExecuted, fillQty, rem⟩

def unfilled : OrderDisposition := ⟨.unfilled, .zero, .zero⟩

/-- The disposition of an order of quantity `qty` that received `allocated`. -/
def ofAllocated (qty allocated : Qty) : OrderDisposition :=
  if allocated = qty then fullyExecuted allocated
  else if !allocated.isZero ∧ allocated.raw < qty.raw then
    partiallyExecuted allocated ⟨qty.raw - allocated.raw⟩
  else unfilled

end OrderDisposition

structure OrderAccountingRecord (D : Type) where
  leafIndex : U64
  orderId : OrderId
  commitment : D
  disposition : OrderDisposition
deriving DecidableEq

/-- The manifest of a batch. -/
structure CompleteInputAccounting (D : Type) where
  records : List (OrderAccountingRecord D)
  totalCommitted : ℕ
  totalFullyExecuted : ℕ
  totalPartiallyExecuted : ℕ
  totalUnfilled : ℕ
  totalCancelled : ℕ
  totalExpired : ℕ

/-- The allocated quantities by order id; a later entry replaces an earlier one. -/
def allocMap (allocation : BatchAllocation) : SortedMap U64 Qty :=
  allocation.allocations.foldl (fun m a => m.insert a.orderId.raw a.allocatedQty) .empty

/-- The quantity allocated to an order, nothing when it has no entry. -/
def allocatedTo (allocMap : SortedMap U64 Qty) (orderId : OrderId) : Qty :=
  (allocMap.find orderId.raw).getD .zero

section Scheme

variable {D : Type} [CommitmentScheme D]

/-- The record of preimage `idx`. -/
def recordOf (allocMap : SortedMap U64 Qty) (idx : ℕ) (preimage : SaltedOrderPreimage) :
    OrderAccountingRecord D where
  leafIndex := toU64 idx
  orderId := preimage.order.id
  commitment := commitOrder preimage
  disposition := .ofAllocated preimage.order.qty (allocatedTo allocMap preimage.order.id)

def buildCompleteInputAccounting (_batch : Batch) (preimages : List SaltedOrderPreimage)
    (allocation : BatchAllocation) : MerkleTree D × CompleteInputAccounting D :=
  let records := preimages.zipIdx.map fun p => recordOf (allocMap allocation) p.2 p.1
  let count := fun kind => (records.filter (·.disposition.kind = kind)).length
  (.new (preimages.map commitOrder),
    { records, totalCommitted := preimages.length,
      totalFullyExecuted := count .fullyExecuted,
      totalPartiallyExecuted := count .partiallyExecuted,
      totalUnfilled := count .unfilled, totalCancelled := 0, totalExpired := 0 })

variable [DecidableEq D]

/-- What `verifyCompleteInputAccounting` carries from record to record. -/
structure SeenRecords where
  indices : List U64
  orderIds : List OrderId

/-- The checks of one record. -/
def checkRecord (orders : SortedMap U64 Order) (merkleTree : MerkleTree D)
    (allocMap : SortedMap U64 Qty) (seen : SeenRecords) (record : OrderAccountingRecord D) :
    Result SeenRecords :=
  if record.leafIndex ∈ seen.indices then failure "DuplicateLeaf"
  else if record.orderId ∈ seen.orderIds then failure "DuplicateOrderId"
  else
    match merkleTree.generateProof record.leafIndex with
    | none => failure "OmittedLeaf"
    | some proof =>
      if !proof.verify merkleTree.root record.commitment then failure "MerkleInclusionFailed"
      else
        match orders.find record.orderId.raw with
        | none => failure "DispositionMismatch: order not in batch"
        | some order =>
          if record.disposition ≠ .ofAllocated order.qty (allocatedTo allocMap record.orderId) then
            failure "DispositionMismatch"
          else pure ⟨record.leafIndex :: seen.indices, record.orderId :: seen.orderIds⟩

def verifyCompleteInputAccounting (batch : Batch) (merkleTree : MerkleTree D)
    (accounting : CompleteInputAccounting D) (allocation : BatchAllocation) : Result Unit :=
  let n := batch.len
  if merkleTree.leafCount ≠ n then failure "MerkleLeafCountMismatch"
  else if accounting.records.length ≠ n ∨ accounting.totalCommitted ≠ n then
    failure "TotalCountMismatch"
  else do
    let seen ← accounting.records.foldlM
      (checkRecord (orderMap batch.orders) merkleTree (allocMap allocation)) ⟨[], []⟩
    (List.range n).forM fun idx =>
      if toU64 idx ∉ seen.indices then failure "OmittedLeaf" else pure ()

end Scheme

end FairCross
