import FairCross.Domain.Primitives

/-!
# The JSON writer

`util/json_writer.hpp`. The buffer is the text written so far. Whether a comma is due is read off the
flag `fresh_` and the last character of the buffer.
-/

namespace FairCross

/-- `json::Writer`. -/
structure Writer where
  buffer : List Char
  fresh : Bool

namespace Writer

def new : Writer := ⟨[], true⟩

/-- The comma between siblings; there is none behind an opening bracket or a key. -/
def separator (w : Writer) : List Char :=
  match w.buffer.getLast? with
  | none => []
  | some last =>
    if !w.fresh && last != '{' && last != '[' && last != ':' then [','] else []

end Writer

/-- A method of the writer. -/
abbrev Write := StateM Writer Unit

namespace Write

/-- Text is added to the buffer. -/
def append (s : List Char) (fresh : Bool) : Write := modify fun w => ⟨w.buffer ++ s, fresh⟩

def punctuate : Write := modify fun w => ⟨w.buffer ++ w.separator, false⟩

def beginObject : Write := do
  punctuate
  append ['{'] true

def endObject : Write := append ['}'] false

def beginArray : Write := do
  punctuate
  append ['['] true

def endArray : Write := append [']'] false

/-- What stands between `begin_object` and `end_object`. -/
def object (fields : Write) : Write := do
  beginObject
  fields
  endObject

/-- What stands between `begin_array` and `end_array`. -/
def array (items : Write) : Write := do
  beginArray
  items
  endArray

def escape (input : String) : List Char :=
  input.toList.foldl (fun out c =>
    out ++ match c with
      | '"' => ['\\', '"']
      | '\\' => ['\\', '\\']
      | '\n' => ['\\', 'n']
      | '\t' => ['\\', 't']
      | '\r' => ['\\', 'r']
      | c => [c]) []

def key (k : String) : Write := do
  punctuate
  append (['"'] ++ escape k ++ ['"', ':']) true

def valueU64 (v : U64) : Write := do
  punctuate
  append (toString (v : ℕ)).toList false

def valueNull : Write := do
  punctuate
  append ['n', 'u', 'l', 'l'] false

/-- The decimal digits of a 128-bit number, the last one first. -/
def digits (v : ℕ) : List Char :=
  if v > 0 then Nat.digitChar (v % 10) :: digits (v / 10) else []

def valueU128 (v : U128) : Write := do
  punctuate
  if v = 0 then append ['0'] false
  else append (digits v).reverse false

def valueString (v : String) : Write := do
  punctuate
  append (['"'] ++ escape v ++ ['"']) false

def fieldU64 (k : String) (v : U64) : Write := do
  key k
  valueU64 v

def fieldU128 (k : String) (v : U128) : Write := do
  key k
  valueU128 v

def fieldString (k : String) (v : String) : Write := do
  key k
  valueString v

def fieldOptionalU64 (k : String) (v : Option U64) : Write := do
  key k
  match v with
  | some v => valueU64 v
  | none => valueNull

end Write

end FairCross
