import FairCross.Domain.Order

/-!
# ITCH messages

`marketdata/messages.hpp`.
-/

namespace FairCross

/-- `std::array<uint8_t, N>`. -/
structure ByteArrayN (n : ℕ) where
  bytes : List UInt8
  size : bytes.length = n
deriving DecidableEq

structure SystemEventMessage where
  stockLocate : U16
  trackingNumber : U16
  timestampNanos : U64
  eventCode : UInt8
deriving DecidableEq

structure StockDirectoryMessage where
  stockLocate : U16
  trackingNumber : U16
  timestampNanos : U64
  symbol : ByteArrayN 8
  roundLotSize : U32
deriving DecidableEq

structure AddOrderMessage where
  stockLocate : U16
  trackingNumber : U16
  timestampNanos : U64
  orderReferenceNumber : U64
  side : Side
  shares : U32
  symbol : ByteArrayN 8
  priceTicks : U32
  attribution : Option (ByteArrayN 4)
deriving DecidableEq

structure OrderExecutedMessage where
  stockLocate : U16
  trackingNumber : U16
  timestampNanos : U64
  orderReferenceNumber : U64
  executedShares : U32
  matchNumber : U64
deriving DecidableEq

structure OrderExecutedWithPriceMessage where
  stockLocate : U16
  trackingNumber : U16
  timestampNanos : U64
  orderReferenceNumber : U64
  executedShares : U32
  matchNumber : U64
  printable : Bool
  executionPriceTicks : U32
deriving DecidableEq

structure OrderCancelMessage where
  stockLocate : U16
  trackingNumber : U16
  timestampNanos : U64
  orderReferenceNumber : U64
  canceledShares : U32
deriving DecidableEq

structure OrderDeleteMessage where
  stockLocate : U16
  trackingNumber : U16
  timestampNanos : U64
  orderReferenceNumber : U64
deriving DecidableEq

structure OrderReplaceMessage where
  stockLocate : U16
  trackingNumber : U16
  timestampNanos : U64
  originalOrderReferenceNumber : U64
  newOrderReferenceNumber : U64
  shares : U32
  priceTicks : U32
deriving DecidableEq

/-- `std::variant` of the eight message structs. -/
inductive ItchMessage where
  | systemEvent (m : SystemEventMessage)
  | stockDirectory (m : StockDirectoryMessage)
  | addOrder (m : AddOrderMessage)
  | orderExecuted (m : OrderExecutedMessage)
  | orderExecutedWithPrice (m : OrderExecutedWithPriceMessage)
  | orderCancel (m : OrderCancelMessage)
  | orderDelete (m : OrderDeleteMessage)
  | orderReplace (m : OrderReplaceMessage)
deriving DecidableEq

/-- The timestamp field, which every message has. -/
def ItchMessage.timestampNanos : ItchMessage → U64
  | .systemEvent m => m.timestampNanos
  | .stockDirectory m => m.timestampNanos
  | .addOrder m => m.timestampNanos
  | .orderExecuted m => m.timestampNanos
  | .orderExecutedWithPrice m => m.timestampNanos
  | .orderCancel m => m.timestampNanos
  | .orderDelete m => m.timestampNanos
  | .orderReplace m => m.timestampNanos

end FairCross
