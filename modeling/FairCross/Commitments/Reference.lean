import FairCross.Commitments.Encoding
import FairCross.Library.RecordBuffer
import FairCross.Library.StdSort

/-!
# The reference commitments

`tests/conformance/reference_commitments.hpp`: a second implementation of the commitments, written from
the layout tables. A record is a zeroed array into which every field is written at its own offset.
-/

namespace FairCross

namespace Conformance

open RecordBuffer

def leafPrefix : List UInt8 := ascii ['F', 'C', '_', 'L', 'E', 'A', 'F', '_']

def nodePrefix : List UInt8 := ascii ['F', 'C', '_', 'N', 'O', 'D', 'E', '_']

def emptyPrefix : List UInt8 :=
  ascii ['F', 'C', '_', 'E', 'M', 'P', 'T', 'Y', '_', 'N', 'O', 'D', 'E']

def oracleAbsent : List UInt8 :=
  ascii ['F', 'C', 'O', 'S', '_', 'A', 'B', 'S', 'E', 'N', 'T', '_', 'V', '1']

def accountSaltTag : List UInt8 :=
  ascii ['F', 'C', '_', 'A', 'C', 'C', 'T', '_', 'S', 'A', 'L', 'T', '_', 'V', '1']

def sha256 (data : List UInt8) : Commitment := Sha256.hash data

/-- The overload with a prefix. -/
def sha256With (tag data : List UInt8) : Commitment := sha256 (tag ++ data)

/-! ## Fields -/

def putU8 (buf : List UInt8) (offset : ℕ) (value : UInt8) : List UInt8 := buf.set offset value

/-- `put_u32_le`, `put_u64_le` and `put_u128_le`, which differ in the width. -/
def putLe (width : ℕ) (buf : List UInt8) (offset value : ℕ) : List UInt8 :=
  fillAt buf offset width fun i => UInt8.ofNat ((value >>> (i * 8)) &&& 0xFF)

def putU32Le (buf : List UInt8) (offset : ℕ) (value : U32) : List UInt8 := putLe 4 buf offset value

def putU64Le (buf : List UInt8) (offset : ℕ) (value : U64) : List UInt8 := putLe 8 buf offset value

def putU128Le (buf : List UInt8) (offset : ℕ) (value : U128) : List UInt8 := putLe 16 buf offset value

def putBytes (buf : List UInt8) (offset : ℕ) (src : List UInt8) : List UInt8 :=
  fillAt buf offset src.length (src.getD · 0)

def putTag (buf : List UInt8) (offset : ℕ) (tag : List UInt8) : List UInt8 :=
  fillAt buf offset tag.length (tag.getD · 0)

/-! ## Records -/

def encodeOrder (p : SaltedOrderPreimage) : List UInt8 :=
  let buf := List.replicate 86 0
  let buf := putTag buf 0 (ascii ['F', 'C', 'O', 'R'])
  let buf := putU8 buf 4 1
  let buf := putU64Le buf 5 p.order.id.raw
  let buf := putU64Le buf 13 p.order.account.raw
  let buf := putU64Le buf 21 p.order.instrument.raw
  let buf := putU8 buf 29 (if p.order.side = .buy then 0 else 1)
  let buf := putU64Le buf 30 p.order.price.raw
  let buf := putU64Le buf 38 p.order.qty.raw
  let buf := putU64Le buf 46 p.order.seq
  putBytes buf 54 p.nonce.bytes

def encodeAccount (account : AccountId) (cash : Money) (instrument : InstrumentId) (inventory : Qty)
    (salt : Bytes32) : List UInt8 :=
  let buf := List.replicate 77 0
  let buf := putTag buf 0 (ascii ['F', 'C', 'A', 'C'])
  let buf := putU8 buf 4 1
  let buf := putU64Le buf 5 account.raw
  let buf := putU128Le buf 13 cash.raw
  let buf := putU64Le buf 29 instrument.raw
  let buf := putU64Le buf 37 inventory.raw
  putBytes buf 45 salt.bytes

def encodeBatchHeader (semanticVersion : U32) (batchId instrumentId cutoff : U64) (orderCount : U32)
    (merkleRoot : Commitment) : List UInt8 :=
  let buf := List.replicate 69 0
  let buf := putTag buf 0 (ascii ['F', 'C', 'B', 'H'])
  let buf := putU8 buf 4 1
  let buf := putU32Le buf 5 semanticVersion
  let buf := putU64Le buf 9 batchId
  let buf := putU64Le buf 17 instrumentId
  let buf := putU64Le buf 25 cutoff
  let buf := putU32Le buf 33 orderCount
  putBytes buf 37 merkleRoot.bytes

def encodeOracle (s : ReferencePriceSnapshot) (p : ReferencePricePolicy) : List UInt8 :=
  let buf := List.replicate 57 0
  let buf := putTag buf 0 (ascii ['F', 'C', 'O', 'S'])
  let buf := putU8 buf 4 1
  let buf := putU32Le buf 5 s.oracleId
  let buf := putU64Le buf 9 s.instrumentId.raw
  let buf := putU64Le buf 17 s.referencePrice.raw
  let buf := putU64Le buf 25 s.timestampNanos
  let buf := putU64Le buf 33 s.sequence
  let buf := putU64Le buf 41 p.maxStalenessNanos
  putU64Le buf 49 p.maxDeviationTicks

/-! ## The scheme -/

def leafOf (data : List UInt8) : Commitment := sha256With leafPrefix data

def emptyNode : Commitment := sha256 emptyPrefix

def combine (left right : Commitment) : Commitment :=
  let pair := List.replicate 64 0
  let pair := putBytes pair 0 left.bytes
  let pair := putBytes pair 32 right.bytes
  sha256With nodePrefix pair

/-- The inner loop of `merkle_root`; `j` counts the pairs. -/
def nextLayer (layer : List Commitment) : List Commitment :=
  (List.range ((layer.length + 1) / 2)).map fun j =>
    let i := 2 * j
    let left := layer.getD i emptyNode
    let right := if i + 1 < layer.length then layer.getD (i + 1) emptyNode else emptyNode
    combine left right

/-- The outer loop, and `layer.front()` behind it. -/
def merkleLoop (layer : List Commitment) : Commitment :=
  if layer.length > 1 then merkleLoop (nextLayer layer) else layer.headD emptyNode
termination_by layer.length
decreasing_by simp [nextLayer]; omega

def merkleRoot (layer : List Commitment) : Commitment :=
  if layer = [] then emptyNode else merkleLoop layer

/-! ## Derived commitments -/

def commitOrderRef (p : SaltedOrderPreimage) : Commitment := leafOf (encodeOrder p)

def batchMerkleRootRef (preimages : List SaltedOrderPreimage) : Commitment :=
  merkleRoot (preimages.map commitOrderRef)

def batchHeaderCommitmentRef (semanticVersion : U32) (batchId instrumentId cutoff : U64)
    (orderCount : U32) (merkleRootValue : Commitment) : Commitment :=
  leafOf (encodeBatchHeader semanticVersion batchId instrumentId cutoff orderCount merkleRootValue)

def deriveAccountSaltRef (venueSecret : Bytes32) (accountId : AccountId) : Bytes32 :=
  let buf := List.replicate 55 0
  let buf := putTag buf 0 accountSaltTag
  let buf := putBytes buf accountSaltTag.length venueSecret.bytes
  let buf := putU64Le buf (accountSaltTag.length + 32) accountId.raw
  sha256With leafPrefix buf

/-- `none` is an account that is listed and not found. -/
def ledgerRootRef [StdSort] (ledger : Ledger) (instrument : InstrumentId) : Option Commitment := do
  if ledger.accounts.entries = [] then return emptyNode
  let ids := StdSort.sort (fun a b : AccountId => decide (a.raw < b.raw)) ledger.accounts.keys
  let leaves ← ids.mapM fun id => do
    let acc ← ledger.getAccount id
    pure (leafOf (encodeAccount id acc.cash instrument (acc.inventoryOf instrument)
      acc.commitmentSalt))
  return merkleRoot leaves

def oracleCommitmentRef (snapshot : Option ReferencePriceSnapshot)
    (policy : Option ReferencePricePolicy) : Commitment :=
  match snapshot, policy with
  | some s, some p => leafOf (encodeOracle s p)
  | _, _ => leafOf oracleAbsent

end Conformance

end FairCross
