import FairCross.Engine.Batch
import FairCross.Library.ByteOrder
import FairCross.Library.Loops

/-!
# Synthetic order flow

`simulator/rng.hpp`, `simulator/config.hpp`, `simulator/generator.hpp` and `simulator/generator.cpp`. A
drawing function returns the generator it leaves behind. A vector is as long as `reserve` allows;
otherwise memory is unbounded, `operator new` does not fail.
-/

namespace FairCross

/-- Why a run has no result: `reserve` throws, a range divides by zero, a loop does not end. -/
inductive NoResult where
  | lengthError
  | divisionByZero
  | endless
deriving DecidableEq

/-- `vector::max_size` for elements of `size` bytes: an array has at most `PTRDIFF_MAX` bytes. -/
def maxSize (size : ℕ) : ℕ := (2 ^ 63 - 1) / size

/-- `vector::reserve`, which throws `std::length_error` above `max_size`. -/
def reserve (size : ℕ) (count : U64) : Except NoResult Unit :=
  if (count : ℕ) > maxSize size then .error .lengthError else .ok ()

/-- `sizeof(Order)`: six 64-bit fields, and the side with its padding. -/
def Order.sizeof : ℕ := 56

/-- `sizeof(SaltedOrderPreimage)`. -/
def SaltedOrderPreimage.sizeof : ℕ := Order.sizeof + 32

/-- SplitMix64. -/
structure DeterministicRng where
  state : U64

namespace DeterministicRng

def nextU64 (rng : DeterministicRng) : U64 × DeterministicRng :=
  let state := rng.state + 0x9E3779B97F4A7C15
  let z := (state ^^^ (state >>> 30)) * 0xBF58476D1CE4E5B9
  let z := (z ^^^ (z >>> 27)) * 0x94D049BB133111EB
  (z ^^^ (z >>> 31), ⟨state⟩)

/-- The number of values between `min` and `max`, which is zero for the full range. -/
def spanOf (min max : U64) : U64 := max - min + 1

def genRangeU64 (rng : DeterministicRng) (min max : U64) :
    Except NoResult (U64 × DeterministicRng) :=
  if min ≥ max then .ok (min, rng)
  else if spanOf min max = 0 then .error .divisionByZero
  else .ok (min + rng.nextU64.1 % spanOf min max, rng.nextU64.2)

def genBoolPermille (rng : DeterministicRng) (permille : U32) : Bool × DeterministicRng :=
  ((rng.nextU64.1 : ℕ) % 1000 < permille, rng.nextU64.2)

/-- The little-endian bytes of the next `n` draws. -/
def saltWords : ℕ → DeterministicRng → List UInt8 × DeterministicRng
  | 0, rng => ([], rng)
  | n + 1, rng =>
    let rest := saltWords n rng.nextU64.2
    (LittleEndian.leBytes 8 rng.nextU64.1 ++ rest.1, rest.2)

theorem length_saltWords (n : ℕ) (rng : DeterministicRng) : (saltWords n rng).1.length = 8 * n := by
  induction n generalizing rng with
  | zero => rfl
  | succ n ih =>
    show (LittleEndian.leBytes 8 rng.nextU64.1 ++ (saltWords n rng.nextU64.2).1).length = 8 * (n + 1)
    rw [List.length_append, LittleEndian.length_leBytes, ih, Nat.mul_succ, Nat.add_comm]

/-- The nonce of a preimage. -/
def genSalt (rng : DeterministicRng) : Bytes32 × DeterministicRng :=
  (⟨(saltWords 4 rng).1, length_saltWords 4 rng⟩, (saltWords 4 rng).2)

end DeterministicRng

structure SyntheticFlowConfig where
  seed : U64 := 42
  instrumentId : InstrumentId := ⟨1⟩
  numAccounts : U64 := 10
  initialCashPerAccount : Money := ⟨1000000⟩
  initialInventoryPerAccount : Qty := ⟨10000⟩
  numBatches : U64 := 5
  minOrdersPerBatch : U64 := 4
  maxOrdersPerBatch : U64 := 10
  priceMid : Price := ⟨100⟩
  priceSpreadTicks : U64 := 5
  minOrderQty : Qty := ⟨1⟩
  maxOrderQty : Qty := ⟨20⟩
  buyProbabilityPermille : U32 := 500

/-- A batch with the preimages of its orders and its cutoff. -/
structure SyntheticBatchBundle where
  batch : Batch
  preimages : List SaltedOrderPreimage
  cutoffNanos : U64
deriving DecidableEq

/-- `sizeof(SyntheticBatchBundle)`: two ids and a vector, the vector of preimages, the cutoff. -/
def SyntheticBatchBundle.sizeof : ℕ := 72

structure SyntheticSession where
  config : SyntheticFlowConfig
  genesisLedger : Ledger
  batches : List SyntheticBatchBundle

namespace SyntheticOrderFlowSimulator

open CountedLoop

def kStartTimeNanos : U64 := 1700000000000000000

/-- The account `acc_idx` of the genesis ledger. A credit that fails is dropped. -/
def genesisAccount (config : SyntheticFlowConfig) (accIdx : U64) : AccountState :=
  let acc := AccountState.new ⟨accIdx⟩ config.initialCashPerAccount
  match acc.creditInventory config.instrumentId config.initialInventoryPerAccount with
  | .ok acc => acc
  | .error _ => acc

/-- The price `delta` ticks of spread give. A difference is clamped at zero, a sum is not checked. -/
def orderPrice (midRaw delta : U64) (isBuy : Bool) : U64 :=
  let priceRaw :=
    if isBuy then
      let added := midRaw + delta / 2
      let sub := delta % 3
      if added > sub then added - sub else 0
    else
      let half := delta / 2
      let subbed := if midRaw > half then midRaw - half else 0
      subbed + delta % 3
  max priceRaw 1

/-- What the loop over the orders of one batch carries. -/
structure OrderDraws where
  rng : DeterministicRng
  globalOrderId : U64
  orders : List Order
  preimages : List SaltedOrderPreimage

/-- One round of the loop over the orders of a batch. -/
def drawOrder (config : SyntheticFlowConfig) (numAccs : U64) (d : OrderDraws) (seq : ℕ) :
    Except NoResult OrderDraws := do
  let (accId, rng) ← d.rng.genRangeU64 1 numAccs
  let draw := rng.genBoolPermille config.buyProbabilityPermille
  let isBuy := draw.1
  let (delta, rng) ← draw.2.genRangeU64 0 config.priceSpreadTicks
  let (qtyRaw, rng) ← rng.genRangeU64 config.minOrderQty.raw config.maxOrderQty.raw
  let order : Order :=
    { id := ⟨d.globalOrderId⟩
      account := ⟨accId⟩
      instrument := config.instrumentId
      side := if isBuy then .buy else .sell
      price := ⟨orderPrice config.priceMid.raw delta isBuy⟩
      qty := ⟨qtyRaw⟩
      seq := toU64 seq }
  let salt := rng.genSalt
  pure
    { rng := salt.2
      globalOrderId := d.globalOrderId + 1
      orders := d.orders ++ [order]
      preimages := d.preimages ++ [⟨order, salt.1⟩] }

/-- What the loop over the batches carries. -/
structure BatchDraws where
  rng : DeterministicRng
  globalOrderId : U64
  batches : List SyntheticBatchBundle

/-- One round of the loop over the batches. -/
def drawBatch [StdSort] (config : SyntheticFlowConfig) (numAccs : U64) (batchIdx : U64)
    (d : BatchDraws) : Except NoResult BatchDraws := do
  let cutoffNanos := kStartTimeNanos + batchIdx * 100000000
  let (orderCount, rng) ← d.rng.genRangeU64 config.minOrdersPerBatch config.maxOrdersPerBatch
  reserve Order.sizeof orderCount
  reserve SaltedOrderPreimage.sizeof orderCount
  let drawn ← (List.range orderCount).foldlM (drawOrder config numAccs)
    { rng, globalOrderId := d.globalOrderId, orders := [], preimages := [] }
  let batch := Batch.new ⟨batchIdx⟩ config.instrumentId drawn.orders
  pure
    { rng := drawn.rng
      globalOrderId := drawn.globalOrderId
      batches := d.batches ++ [{ batch, preimages := drawn.preimages, cutoffNanos }] }

def generateSession [StdSort] (config : SyntheticFlowConfig) :
    Except NoResult SyntheticSession := do
  let numAccs := max config.numAccounts 2
  let genesisLedger ← forUpTo .endless numAccs (fun accIdx ledger =>
    .ok (ledger.insertAccount (genesisAccount config accIdx))) 1 Ledger.empty
  reserve SyntheticBatchBundle.sizeof config.numBatches
  let drawn ← forUpTo .endless config.numBatches (drawBatch config numAccs) 1
    { rng := ⟨config.seed⟩, globalOrderId := 1, batches := [] }
  pure { config, genesisLedger, batches := drawn.batches }

end SyntheticOrderFlowSimulator

end FairCross
