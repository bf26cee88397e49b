import FairCross.Cli.Session
import FairCross.Util.Json

/-!
# Fixtures and manifests

`cli/fixtures.hpp`, with the accessors of `util/json.hpp` it reads a document with. A loader takes the
text of the file. Where C++ leaves the order of arguments open they are read as they are written; only
the exception depends on it.
-/

namespace FairCross

/-- `Qty::create`, the checked counterpart of the constructor. -/
def Qty.create (raw : U64) : Result Qty :=
  if raw = 0 then .error (.primitive .zeroValue "Qty") else .ok ⟨raw⟩

namespace Json

/-! ## Accessors -/

def Value.at (v : Value) (key : String) : Except Exception Value :=
  match v with
  | .object o =>
    match o.find? fun e => e.1 = key with
    | some e => .ok e.2
    | none => .error (.runtimeError ("json: missing key '" ++ key ++ "'"))
  | _ => .error (.runtimeError ("json: not an object (key '" ++ key ++ "')"))

namespace Value

/-- `array()`. -/
def asArray : Value → Except Exception (List Value)
  | .array items => .ok items
  | _ => .error (.runtimeError "json: not an array")

/-- `object()`. -/
def asObject : Value → Except Exception (List (String × Value))
  | .object o => .ok o
  | _ => .error (.runtimeError "json: not an object")

def asU64 : Value → Except Exception U64
  | .int n =>
    if n < 0 then .error (.runtimeError "json: negative value where unsigned expected")
    else .ok (toU64 n.toNat)
  | _ => .error (.runtimeError "json: not an integer")

def asString : Value → Except Exception String
  | .string s => .ok s
  | _ => .error (.runtimeError "json: not a string")

end Value

/-- `std::isspace`. -/
def isSpaceC (c : Char) : Bool :=
  c = ' ' || c = '\t' || c = '\n' || c = '\x0b' || c = '\x0c' || c = '\r'

/-- The value of a sign and digits of type `unsigned long long`: a minus negates modulo 2^64. -/
def toUnsignedLongLong (negative : Bool) (digits : List Char) : Except Exception U64 :=
  if digits = [] then .error .invalidArgument
  else
    let value := Decimal.value digits
    if value ≥ 2 ^ 64 then .error .outOfRange
    else .ok (if negative then -toU64 value else toU64 value)

/-- `std::stoull`, which passes over white space and reads as many digits as there are. -/
def stoull (s : List Char) : Except Exception U64 :=
  match s.dropWhile isSpaceC with
  | '-' :: digits => toUnsignedLongLong true (digits.takeWhile Char.isDigit)
  | '+' :: digits => toUnsignedLongLong false (digits.takeWhile Char.isDigit)
  | digits => toUnsignedLongLong false (digits.takeWhile Char.isDigit)

end Json

namespace Cli

open Json

/-- `if (res.is_err()) throw std::runtime_error(res.error_message())`. -/
def orThrow {α : Type} : Result α → Except Exception α
  | .ok a => .ok a
  | .error e => .error (.runtimeError e.message)

structure BatchFixture where
  preState : Ledger
  batch : Batch

def sideFromString (s : String) : Except Exception Side :=
  if s = "buy" then .ok .buy
  else if s = "sell" then .ok .sell
  else .error (.runtimeError ("unknown side '" ++ s ++ "'"))

/-- The loop over the inventory of one account. -/
def creditEntry (state : AccountState) (entry : String × Value) : Except Exception AccountState := do
  let inst ← stoull entry.1.toList
  let qty ← entry.2.asU64
  match state.creditInventory ⟨inst⟩ ⟨qty⟩ with
  | .ok state => .ok state
  | .error _ => .error (.runtimeError "invalid inventory in fixture")

/-- The loop over the accounts. -/
def insertFromJson (ledger : Ledger) (acc : Value) : Except Exception Ledger := do
  let id ← (← acc.at "account_id").asU64
  let cash ← (← acc.at "cash").asU64
  let entries ← (← acc.at "inventory").asObject
  let state ← entries.foldlM creditEntry (.new ⟨id⟩ ⟨Fin.ofNat _ cash⟩)
  pure (ledger.insertAccount state)

def ledgerFromJson (accounts : Value) : Except Exception Ledger := do
  (← accounts.asArray).foldlM insertFromJson .empty

/-- The loop over the orders. -/
def orderFromJson (o : Value) : Except Exception Order := do
  let price ← orThrow (Price.create (← (← o.at "price").asU64))
  let qty ← orThrow (Qty.create (← (← o.at "qty").asU64))
  let id ← (← o.at "id").asU64
  let account ← (← o.at "account").asU64
  let instrument ← (← o.at "instrument").asU64
  let side ← sideFromString (← (← o.at "side").asString)
  let seq ← (← o.at "seq").asU64
  pure { id := ⟨id⟩, account := ⟨account⟩, instrument := ⟨instrument⟩, side, price, qty, seq }

section Loaders

variable [StdSort]

def batchFromJson (doc : Value) : Except Exception Batch := do
  let orders ← (← (← doc.at "orders").asArray).mapM orderFromJson
  let batchId ← (← doc.at "batch_id").asU64
  let instrument ← (← doc.at "instrument").asU64
  orThrow (Batch.create ⟨batchId⟩ ⟨instrument⟩ orders)

def batchFixtureFromJson (doc : Value) : Except Exception BatchFixture := do
  let preState ← ledgerFromJson (← doc.at "pre_state")
  let batch ← batchFromJson (← doc.at "batch")
  pure { preState, batch }

def sessionManifestFromJson (doc : Value) : Except Exception SessionManifest := do
  let genesisLedger ← ledgerFromJson (← doc.at "genesis_ledger")
  let batches ← (← (← doc.at "batches").asArray).mapM batchFromJson
  pure { genesisLedger, batches }

def loadBatchFixture (text : List Char) : Option (Except Exception BatchFixture) :=
  (parse text).map (· >>= batchFixtureFromJson)

def loadSessionManifest (text : List Char) : Option (Except Exception SessionManifest) :=
  (parse text).map (· >>= sessionManifestFromJson)

end Loaders

end Cli

end FairCross
