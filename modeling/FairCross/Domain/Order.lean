import FairCross.Domain.Primitives

/-!
# Orders, fills and reference prices

`domain/order.hpp`, `domain/fill.hpp` and `domain/oracle.hpp`.
-/

namespace FairCross

/-- `enum class Side : uint8_t`. A cast can put any byte into a `Side`; `other` holds the bytes that
name neither side. -/
inductive Side where
  | buy
  | sell
  | other (raw : UInt8) (h : raw ≠ 1 ∧ raw ≠ 2)
deriving DecidableEq

def Side.isBuy (s : Side) : Bool := s = .buy

def Side.isSell (s : Side) : Bool := s = .sell

/-- `std::array<uint8_t, 32>`. -/
structure Bytes32 where
  bytes : List UInt8
  size : bytes.length = 32
deriving DecidableEq

/-- Thirty-two copies of one byte. -/
def Bytes32.fill (b : UInt8) : Bytes32 := ⟨List.replicate 32 b, List.length_replicate⟩

/-- A limit order. -/
structure Order where
  id : OrderId
  account : AccountId
  instrument : InstrumentId
  side : Side
  price : Price
  qty : Qty
  seq : U64
deriving DecidableEq

/-- An order together with the nonce that hides it in its commitment. -/
structure SaltedOrderPreimage where
  order : Order
  nonce : Bytes32
deriving DecidableEq

/-- The execution of a part of one order. -/
structure Fill where
  fillId : U64
  orderId : OrderId
  accountId : AccountId
  instrumentId : InstrumentId
  side : Side
  executionPrice : Price
  fillQty : Qty
  consideration : Money
deriving DecidableEq

/-- `Fill::create`: the consideration is price times quantity. -/
def Fill.create (fillId : U64) (orderId : OrderId) (accountId : AccountId)
    (instrumentId : InstrumentId) (side : Side) (executionPrice : Price) (fillQty : Qty) :
    Result Fill := do
  let consideration ← (Money.fromPriceQty executionPrice fillQty).convert
  pure { fillId, orderId, accountId, instrumentId, side, executionPrice, fillQty, consideration }

/-- A reference price published by an oracle. -/
structure ReferencePriceSnapshot where
  oracleId : U32
  instrumentId : InstrumentId
  referencePrice : Price
  timestampNanos : U64
  sequence : U64
deriving DecidableEq

/-- The staleness bound and the price collar a snapshot is accepted under. -/
structure ReferencePricePolicy where
  maxStalenessNanos : U64
  maxDeviationTicks : U64
deriving DecidableEq

namespace ReferencePricePolicy

def validateFreshness (policy : ReferencePricePolicy) (snapshot : ReferencePriceSnapshot)
    (batchCutoffNanos : U64) : Result Unit :=
  if snapshot.timestampNanos > batchCutoffNanos then failure "FutureOracleSnapshot"
  else if (batchCutoffNanos : ℕ) - snapshot.timestampNanos > policy.maxStalenessNanos then
    failure "StaleOracleSnapshot"
  else pure ()

def validateCollar (policy : ReferencePricePolicy) (clearingPrice : Price)
    (snapshot : ReferencePriceSnapshot) : Result Unit :=
  let pClear : ℕ := clearingPrice.raw
  let pRef : ℕ := snapshot.referencePrice.raw
  let diff := if pClear ≥ pRef then pClear - pRef else pRef - pClear
  if diff > policy.maxDeviationTicks then failure "PriceCollarBreach" else pure ()

end ReferencePricePolicy

theorem Fill.create_eq_ok {fillId : U64} {orderId : OrderId} {accountId : AccountId}
    {instrumentId : InstrumentId} {side : Side} {executionPrice : Price} {fillQty : Qty} {f : Fill} :
    Fill.create fillId orderId accountId instrumentId side executionPrice fillQty = .ok f ↔
      ∃ m : Money, (m.raw : ℕ) = executionPrice.raw * fillQty.raw ∧
        ⟨fillId, orderId, accountId, instrumentId, side, executionPrice, fillQty, m⟩ = f := by
  simp [Fill.create, Money.fromPriceQty_eq_ok]

end FairCross
