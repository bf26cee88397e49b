import FairCross.Simulator.Generator

/-!
# Batch intervals

`simulator/interval.hpp` and `simulator/interval.cpp`.
-/

namespace FairCross

/-- An order with the time it arrived and the nonce of its commitment. -/
structure TimestampedOrderSubmission where
  order : Order
  arrivalNanos : U64
  salt : Bytes32
deriving DecidableEq

/-- The byte behind a side. -/
def Side.raw : Side → UInt8
  | .buy => 1
  | .sell => 2
  | .other raw _ => raw

namespace TimestampedOrderSubmission

/-- The tuple submissions are compared by: every field there is. -/
abbrev Tie : Type :=
  U64 ×ₗ U64 ×ₗ U64 ×ₗ U64 ×ₗ ℕ ×ₗ U64 ×ₗ U64 ×ₗ U64 ×ₗ List ℕ

def tie (a : TimestampedOrderSubmission) : Tie :=
  toLex (a.arrivalNanos, toLex (a.order.id.raw, toLex (a.order.account.raw,
    toLex (a.order.instrument.raw, toLex (a.order.side.raw.toNat, toLex (a.order.price.raw,
      toLex (a.order.qty.raw, toLex (a.order.seq, a.salt.bytes.map UInt8.toNat))))))))

/-- Arrival order; the other fields separate equal arrivals. -/
def arrivesBefore (a b : TimestampedOrderSubmission) : Bool := a.tie < b.tie

/-- The order at position `seq` of its batch. -/
def orderAt (a : TimestampedOrderSubmission) (seq : ℕ) : Order := { a.order with seq := toU64 seq }

end TimestampedOrderSubmission

/-- Submissions in canonical order. -/
structure OrderInputStream where
  instrumentId : InstrumentId
  submissions : List TimestampedOrderSubmission
  canonical : submissions.Pairwise fun a b => a.tie ≤ b.tie

namespace OrderInputStream

/-- The constructor sorts. -/
def new [StdSort] (inst : InstrumentId) (subs : List TimestampedOrderSubmission) : OrderInputStream where
  instrumentId := inst
  submissions := StdSort.sort TimestampedOrderSubmission.arrivesBefore subs
  canonical := StdSort.sort_sorted_of_key TimestampedOrderSubmission.tie
    (fun _ _ => decide_eq_true_iff) subs

end OrderInputStream

namespace BatchIntervalPartitionEngine

open CountedLoop

/-- What the loop over the intervals carries: the bundles so far, and the submissions from
`submission_idx` on. -/
structure IntervalState where
  batches : List SyntheticBatchBundle
  pending : List TimestampedOrderSubmission

/-- The bundle of the submissions of one interval, in their order. -/
def bundleOf [StdSort] (instrumentId : InstrumentId) (batchK cutoffNanos : U64)
    (subs : List TimestampedOrderSubmission) : SyntheticBatchBundle where
  batch := Batch.new ⟨batchK⟩ instrumentId (subs.mapIdx fun seq sub => sub.orderAt seq)
  preimages := subs.mapIdx fun seq sub => ⟨sub.orderAt seq, sub.salt⟩
  cutoffNanos

/-- One round of the loop over the intervals. -/
def takeInterval [StdSort] (instrumentId : InstrumentId) (sessionStartNanos batchIntervalNanos : U64)
    (batchK : U64) (st : IntervalState) : IntervalState :=
  let cutoffNanos := sessionStartNanos + batchK * batchIntervalNanos
  let due := st.pending.takeWhile fun sub => sub.arrivalNanos < cutoffNanos
  let pending := st.pending.dropWhile fun sub => sub.arrivalNanos < cutoffNanos
  if due.isEmpty then { batches := st.batches, pending }
  else { batches := st.batches ++ [bundleOf instrumentId batchK cutoffNanos due], pending }

/-- The number of intervals up to the last arrival, as the machine counts it. -/
def calculatedBatches (maxArrival sessionStartNanos batchIntervalNanos : U64) : U64 :=
  let totalTimeSpan := if maxArrival > sessionStartNanos then maxArrival - sessionStartNanos else 0
  totalTimeSpan / batchIntervalNanos + 1

def partitionStream [StdSort] (stream : OrderInputStream) (sessionStartNanos batchIntervalNanos : U64)
    (maxBatches : Option U64) : Except NoResult (List SyntheticBatchBundle) :=
  match stream.submissions.getLast? with
  | none => .ok []
  | some last =>
    if batchIntervalNanos = 0 then .ok []
    else do
      let calculated := calculatedBatches last.arrivalNanos sessionStartNanos batchIntervalNanos
      let numBatches := match maxBatches with
        | some limit => min calculated limit
        | none => calculated
      reserve SyntheticBatchBundle.sizeof numBatches
      let st ← forUpTo .endless numBatches (fun batchK st =>
        .ok (takeInterval stream.instrumentId sessionStartNanos batchIntervalNanos batchK st)) 1
        { batches := [], pending := stream.submissions }
      pure st.batches

end BatchIntervalPartitionEngine

end FairCross
