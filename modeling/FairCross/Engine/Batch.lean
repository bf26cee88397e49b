import FairCross.Domain.Account
import FairCross.Library.StdSort

/-!
# Batches

`engine/batch.hpp` and `engine/batch.cpp`. The constructor `Batch.new` only puts the orders into the
canonical order; `Batch.create` checks them first.
-/

namespace FairCross

/-- The orders of one clearing round of one instrument. -/
structure Batch where
  batchId : BatchId
  instrument : InstrumentId
  orders : List Order
deriving DecidableEq

namespace Batch

/-- The canonical order: by sequence number, then by order id. -/
def canonicalLess (a b : Order) : Bool :=
  if a.seq ≠ b.seq then a.seq < b.seq else a.id.raw < b.id.raw

/-- The unchecked constructor. -/
def new [StdSort] (batchId : BatchId) (instrument : InstrumentId) (orders : List Order) : Batch :=
  { batchId, instrument, orders := StdSort.sort canonicalLess orders }

/-- The checks `create` makes on one order; `seenIds` are the ids of the orders before it. -/
def checkOrder (instrument : InstrumentId) (seenIds : List OrderId) (order : Order) :
    Result (List OrderId) :=
  if order.instrument ≠ instrument then
    .error (.domain .instrumentMismatch "Instrument mismatch in batch")
  else if !order.side.isBuy && !order.side.isSell then
    .error (.primitive .invalidSide "Invalid side in batch")
  else if order.price.raw = 0 then .error (.primitive .zeroValue "Price")
  else if order.qty.isZero then .error (.primitive .zeroValue "Qty")
  else if order.id ∈ seenIds then .error (.domain .duplicateOrderId "Duplicate OrderId in batch")
  else .ok (order.id :: seenIds)

def create [StdSort] (batchId : BatchId) (instrument : InstrumentId) (orders : List Order) :
    Result Batch := do
  let _ ← orders.foldlM (checkOrder instrument) []
  pure (new batchId instrument orders)

def len (b : Batch) : ℕ := b.orders.length

end Batch

end FairCross
