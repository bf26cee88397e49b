import FairCross.Engine.Transition
import FairCross.Util.JsonWriter

/-!
# The `--json` output

`cli/render.hpp`: how an execution result is written.
-/

namespace FairCross.Cli

open Write

def sideName (s : Side) : String := if s = .buy then "buy" else "sell"

def writeOrder (o : Order) : Write :=
  object do
    fieldU64 "id" o.id.raw
    fieldU64 "account" o.account.raw
    fieldU64 "instrument" o.instrument.raw
    fieldString "side" (sideName o.side)
    fieldU64 "price" o.price.raw
    fieldU64 "qty" o.qty.raw
    fieldU64 "seq" o.seq

/-- One entry of the account map. -/
def writeAccount (e : AccountId × AccountState) : Write := do
  key (toString (e.1.raw : ℕ))
  object do
    fieldU64 "account_id" e.1.raw
    fieldU128 "cash" e.2.cash.raw
    key "inventory"
    object (e.2.inventory.entries.forM fun i => fieldU64 (toString (i.1.raw : ℕ)) i.2.raw)

def writeLedger (ledger : Ledger) : Write :=
  object do
    key "accounts"
    object (ledger.accounts.entries.forM writeAccount)

def writeOrderAllocation (a : OrderAllocation) : Write :=
  object do
    fieldU64 "order_id" a.orderId.raw
    fieldU64 "account" a.account.raw
    fieldString "side" (sideName a.side)
    fieldU64 "limit_price" a.limitPrice.raw
    fieldU64 "original_qty" a.originalQty.raw
    fieldU64 "allocated_qty" a.allocatedQty.raw
    fieldU64 "seq" a.seq

def writeFill (f : Fill) : Write :=
  object do
    fieldU64 "fill_idx" f.fillId
    fieldU64 "order_id" f.orderId.raw
    fieldU64 "account_id" f.accountId.raw
    fieldU64 "instrument_id" f.instrumentId.raw
    fieldString "side" (sideName f.side)
    fieldU64 "execution_price" f.executionPrice.raw
    fieldU64 "fill_qty" f.fillQty.raw
    fieldU128 "consideration" f.consideration.raw

def writeExecutionResult (batch : Batch) (exec : BatchExecutionResult) : Write :=
  object do
    key "batch"
    object do
      fieldU64 "batch_id" batch.batchId.raw
      fieldU64 "instrument" batch.instrument.raw
      key "orders"
      array (batch.orders.forM writeOrder)
    key "clearing_outcome"
    object do
      fieldOptionalU64 "clearing_price" (exec.clearingOutcome.clearingPrice.map (·.raw))
      fieldU64 "executable_volume" exec.clearingOutcome.executableVolume.raw
    key "allocation"
    object do
      fieldOptionalU64 "clearing_price" (exec.allocation.clearingPrice.map (·.raw))
      fieldU64 "target_volume" exec.allocation.targetVolume.raw
      fieldU64 "total_buy_allocated" exec.allocation.totalBuyAllocated.raw
      fieldU64 "total_sell_allocated" exec.allocation.totalSellAllocated.raw
      key "allocations"
      array (exec.allocation.allocations.forM writeOrderAllocation)
    key "fills"
    array (exec.fills.forM writeFill)
    key "post_state"
    writeLedger exec.postState

/-- The text of a result: `write_execution_result` into a new writer. -/
def executionText (batch : Batch) (exec : BatchExecutionResult) : List Char :=
  (writeExecutionResult batch exec .new).2.buffer

end FairCross.Cli
