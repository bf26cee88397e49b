import FairCross.Library.LocalAction
import FairCross.MarketData.Book

/-!
# Resting orders

What a book is for, without its price levels: a partial map from references to resting orders, and what
a message does to it. A message reads and writes the references it names (`ItchMessage.cells`). The
book of `marketdata/book.cpp` is compared with this map.
-/

namespace FairCross

/-- The resting orders by reference. -/
abbrev Resting := U64 → Option BookOrder

namespace Resting

open LocalAction

def add (refNum : U64) (side : Side) (price : Price) (shares : Qty) : Action U64 (Option BookOrder) :=
  fun s =>
    if (side = .buy ∨ side = .sell) ∧ price.raw ≠ 0 ∧ ¬ shares.isZero ∧ s refNum = none then
      some (Function.update s refNum (some ⟨refNum, side, price, shares⟩))
    else none

/-- An order executed to the end is gone. -/
def execute (refNum : U64) (shares : Qty) : Action U64 (Option BookOrder) := fun s =>
  (s refNum).bind fun x =>
    if ¬ shares.isZero ∧ shares.raw ≤ x.shares.raw then
      some (Function.update s refNum
        (if shares = x.shares then none else some { x with shares := x.shares.saturatingSub shares }))
    else none

def delete (refNum : U64) : Action U64 (Option BookOrder) := fun s =>
  (s refNum).bind fun _ => some (Function.update s refNum none)

/-- The new order takes the side of the original, which is gone before it comes. -/
def replace (origRef newRef : U64) (shares : Qty) (price : Price) : Action U64 (Option BookOrder) :=
  fun s => (s origRef).bind fun x =>
    if price.raw ≠ 0 ∧ ¬ shares.isZero ∧ Function.update s origRef none newRef = none then
      some (Function.update (Function.update s origRef none) newRef
        (some ⟨newRef, x.side, price, shares⟩))
    else none

end Resting

namespace ItchMessage

/-- What a message does to the resting orders. -/
def act : ItchMessage → LocalAction.Action U64 (Option BookOrder)
  | .addOrder m => Resting.add m.orderReferenceNumber m.side ⟨toU64 m.priceTicks⟩ ⟨toU64 m.shares⟩
  | .orderExecuted m => Resting.execute m.orderReferenceNumber ⟨toU64 m.executedShares⟩
  | .orderExecutedWithPrice m => Resting.execute m.orderReferenceNumber ⟨toU64 m.executedShares⟩
  | .orderCancel m => Resting.execute m.orderReferenceNumber ⟨toU64 m.canceledShares⟩
  | .orderDelete m => Resting.delete m.orderReferenceNumber
  | .orderReplace m => Resting.replace m.originalOrderReferenceNumber m.newOrderReferenceNumber
      ⟨toU64 m.shares⟩ ⟨toU64 m.priceTicks⟩
  | .systemEvent _ => some
  | .stockDirectory _ => some

/-- The references a message names. -/
def cells : ItchMessage → Set U64
  | .addOrder m => {m.orderReferenceNumber}
  | .orderExecuted m => {m.orderReferenceNumber}
  | .orderExecutedWithPrice m => {m.orderReferenceNumber}
  | .orderCancel m => {m.orderReferenceNumber}
  | .orderDelete m => {m.orderReferenceNumber}
  | .orderReplace m => {m.originalOrderReferenceNumber, m.newOrderReferenceNumber}
  | .systemEvent _ => ∅
  | .stockDirectory _ => ∅

/-- The shares a message brings into the book. -/
def sharesAdded : ItchMessage → ℕ
  | .addOrder m => m.shares
  | .orderReplace m => m.shares
  | _ => 0

end ItchMessage

end FairCross
