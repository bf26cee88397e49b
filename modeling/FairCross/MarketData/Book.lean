import FairCross.MarketData.Messages
import FairCross.Library.SortedMap

/-!
# The order book

`marketdata/book.hpp` and `marketdata/book.cpp`. A member function returns the book it leaves behind
together with its result, because a rejected call may have written to the book already.
-/

namespace FairCross

/-- A resting order. -/
structure BookOrder where
  orderReferenceNumber : U64
  side : Side
  price : Price
  shares : Qty
deriving DecidableEq

/-- `std::map<uint64_t, Qty>` from prices to the quantity resting there. -/
abbrev LevelMap := SortedMap U64 Qty

structure OrderBook where
  lastTimestampNanos : U64
  ordersByRef : SortedMap U64 BookOrder
  bidsByPrice : LevelMap
  asksByPrice : LevelMap
deriving DecidableEq

namespace OrderBook

/-- The book a default constructor makes. -/
def empty : OrderBook := ⟨0, .empty, .empty, .empty⟩

/-- `(side == Side::Buy) ? bids_by_price_ : asks_by_price_`. -/
def levels (b : OrderBook) (side : Side) : LevelMap :=
  if side = .buy then b.bidsByPrice else b.asksByPrice

/-- Write the levels of one side. -/
def setLevels (b : OrderBook) (side : Side) (l : LevelMap) : OrderBook :=
  if side = .buy then { b with bidsByPrice := l } else { b with asksByPrice := l }

/-- `levels[p]`, which is zero where there is no entry. -/
def levelAt (l : LevelMap) (p : U64) : Qty := (l.find p).getD .zero

def addOrder (b : OrderBook) (refNum : U64) (side : Side) (price : Price) (shares : Qty) :
    OrderBook × Result Unit :=
  if ¬ side.isBuy ∧ ¬ side.isSell then
    (b, .error (.primitive .invalidSide "OrderBook::add_order"))
  else if price.raw = 0 then (b, .error (.primitive .zeroValue "Price"))
  else if shares.isZero then (b, .error (.primitive .zeroValue "Qty"))
  else if (b.ordersByRef.find refNum).isSome then
    (b, .error (.domain .duplicateOrderId "Order already in book"))
  else
    let levels := b.levels side
    match (levelAt levels price.raw).checkedAdd shares with
    | .error e => (b, failure e.message)
    | .ok total =>
      let b := { b with ordersByRef := b.ordersByRef.emplace refNum ⟨refNum, side, price, shares⟩ }
      (b.setLevels side (levels.insert price.raw total), .ok ())

def executeOrder (b : OrderBook) (refNum : U64) (shares : Qty) : OrderBook × Result Unit :=
  match b.ordersByRef.find refNum with
  | none => (b, .error (.domain .accountNotFound "Order not in book"))
  | some order =>
    let levels := b.levels order.side
    let price := order.price.raw
    if shares.isZero then (b, .error (.primitive .zeroValue "Qty"))
    else if shares.raw > order.shares.raw then
      (b, .error (.domain .orderValidationFailed "Executed quantity exceeds resting order"))
    else if shares = order.shares then
      let levels := levels.insert price ((levelAt levels price).saturatingSub order.shares)
      let levels := if (levelAt levels price).isZero then levels.erase price else levels
      let b := b.setLevels order.side levels
      ({ b with ordersByRef := b.ordersByRef.erase refNum }, .ok ())
    else
      let order' := { order with shares := order.shares.saturatingSub shares }
      let b := { b with ordersByRef := b.ordersByRef.insert refNum order' }
      (b.setLevels order.side (levels.insert price ((levelAt levels price).saturatingSub shares)),
        .ok ())

def cancelOrder (b : OrderBook) (refNum : U64) (shares : Qty) : OrderBook × Result Unit :=
  b.executeOrder refNum shares

def deleteOrder (b : OrderBook) (refNum : U64) : OrderBook × Result Unit :=
  match b.ordersByRef.find refNum with
  | none => (b, .error (.domain .accountNotFound "Order not in book"))
  | some order => b.executeOrder refNum order.shares

def replaceOrder (b : OrderBook) (origRef newRef : U64) (newShares : Qty) (newPrice : Price) :
    OrderBook × Result Unit :=
  match b.ordersByRef.find origRef with
  | none => (b, .error (.domain .accountNotFound "Original order not in book"))
  | some order =>
    if newRef ≠ origRef ∧ (b.ordersByRef.find newRef).isSome then
      (b, .error (.domain .duplicateOrderId "Replacement order already in book"))
    else if newPrice.raw = 0 then (b, .error (.primitive .zeroValue "Price"))
    else if newShares.isZero then (b, .error (.primitive .zeroValue "Qty"))
    else
      let levels := b.levels order.side
      let oldRaw := order.price.raw
      let newRaw := newPrice.raw
      match levels.find oldRaw with
      | none => (b, .error (.domain .orderValidationFailed "Order book index inconsistency"))
      | some oldLevel =>
        match oldLevel.checkedSub order.shares with
        | .error e => (b, failure e.message)
        | .ok oldRemaining =>
          let newLevelBase := if newRaw = oldRaw then oldRemaining else levelAt levels newRaw
          match newLevelBase.checkedAdd newShares with
          | .error e => (b, failure e.message)
          | .ok newTotal =>
            let levels :=
              if newRaw ≠ oldRaw then
                if oldRemaining.isZero then levels.erase oldRaw
                else levels.insert oldRaw oldRemaining
              else levels
            let orders := (b.ordersByRef.erase origRef).emplace newRef
              ⟨newRef, order.side, newPrice, newShares⟩
            ({ b with ordersByRef := orders }.setLevels order.side (levels.insert newRaw newTotal),
              .ok ())

def bestBid (b : OrderBook) : Option Price := b.bidsByPrice.lastKey.map Price.mk

def bestAsk (b : OrderBook) : Option Price := b.asksByPrice.firstKey.map Price.mk

def midPrice (b : OrderBook) : Option Price :=
  match b.bestBid, b.bestAsk with
  | some bid, some ask =>
    let low := if bid.raw < ask.raw then bid.raw else ask.raw
    let high := if bid.raw < ask.raw then ask.raw else bid.raw
    match Price.create (low + (high - low) / 2) with
    | .ok p => some p
    | .error _ => none
  | _, _ => none

/-- The clock is set before the message is looked at. -/
def applyMessage (b : OrderBook) (msg : ItchMessage) : OrderBook × Result Unit :=
  let b := { b with lastTimestampNanos := msg.timestampNanos }
  match msg with
  | .addOrder m =>
    b.addOrder m.orderReferenceNumber m.side ⟨toU64 m.priceTicks⟩ ⟨toU64 m.shares⟩
  | .orderExecuted m => b.cancelOrder m.orderReferenceNumber ⟨toU64 m.executedShares⟩
  | .orderExecutedWithPrice m => b.cancelOrder m.orderReferenceNumber ⟨toU64 m.executedShares⟩
  | .orderCancel m => b.cancelOrder m.orderReferenceNumber ⟨toU64 m.canceledShares⟩
  | .orderDelete m => b.deleteOrder m.orderReferenceNumber
  | .orderReplace m =>
    b.replaceOrder m.originalOrderReferenceNumber m.newOrderReferenceNumber ⟨toU64 m.shares⟩
      ⟨toU64 m.priceTicks⟩
  | .systemEvent _ => (b, .ok ())
  | .stockDirectory _ => (b, .ok ())

end OrderBook

/-- A call of one of the functions that change a book. -/
inductive BookCall where
  | addOrder (refNum : U64) (side : Side) (price : Price) (shares : Qty)
  | executeOrder (refNum : U64) (shares : Qty)
  | cancelOrder (refNum : U64) (shares : Qty)
  | deleteOrder (refNum : U64)
  | replaceOrder (origRef newRef : U64) (newShares : Qty) (newPrice : Price)
  | applyMessage (msg : ItchMessage)

def OrderBook.call (b : OrderBook) : BookCall → OrderBook × Result Unit
  | .addOrder refNum side price shares => b.addOrder refNum side price shares
  | .executeOrder refNum shares => b.executeOrder refNum shares
  | .cancelOrder refNum shares => b.cancelOrder refNum shares
  | .deleteOrder refNum => b.deleteOrder refNum
  | .replaceOrder origRef newRef newShares newPrice =>
    b.replaceOrder origRef newRef newShares newPrice
  | .applyMessage msg => b.applyMessage msg

/-- The book after a sequence of calls, rejected ones included. -/
def OrderBook.run (calls : List BookCall) : OrderBook :=
  calls.foldl (fun b c => (b.call c).1) .empty

end FairCross
