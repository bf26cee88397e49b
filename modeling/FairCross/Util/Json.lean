import FairCross.Library.Decimal
import FairCross.Domain.Primitives

/-!
# The JSON reader

`util/json.hpp`, whose parser the CLI and the conformance suite read fixtures and golden expectations
with. An object is a `std::map`: its keys ascend, and the first of two fields under one key stays. The
recursion takes `fuel`; without it a method has no result. A text has enough for its length.
-/

namespace FairCross.Json

inductive Value where
  | null
  | bool (value : Bool)
  | int (value : ℤ)
  | string (value : String)
  | array (value : List Value)
  | object (value : List (String × Value))

/-- `std::map::emplace`. -/
def emplace (key : String) (v : Value) : List (String × Value) → List (String × Value)
  | [] => [(key, v)]
  | e :: o => if key < e.1 then (key, v) :: e :: o else if key = e.1 then e :: o else e :: emplace key v o

/-- What the parser throws; the last two are those of `std::stoll`. -/
inductive Exception where
  | runtimeError (what : String)
  | invalidArgument
  | outOfRange
deriving DecidableEq

/-- The position in the text, and what is left from there. -/
structure Cursor where
  pos : ℕ
  rest : List Char

abbrev Parser (α : Type) := StateT Cursor (ExceptT Exception Option) α

namespace Parser

variable {α : Type}

def raise (e : Exception) : Parser α := fun _ => some (.error e)

def fail (why : String) : Parser α := fun c =>
  some (.error (.runtimeError ("json: " ++ why ++ " at offset " ++ toString c.pos)))

def advance (n : ℕ) : Parser Unit := modify fun c => ⟨c.pos + n, c.rest.drop n⟩

def isSpace (c : Char) : Bool := c = ' ' || c = '\t' || c = '\n' || c = '\r'

def skipWhitespace : Parser Unit := do
  let c ← get
  advance (c.rest.takeWhile isSpace).length

def peek : Parser Char := do
  let c ← get
  match c.rest with
  | [] => raise (.runtimeError "json: unexpected end of input")
  | ch :: _ => pure ch

def expect (ch : Char) : Parser Unit := do
  let c ← get
  if c.rest.head? ≠ some ch then fail ("expected '" ++ ch.toString ++ "'") else advance 1

def consumeLiteral (literal : List Char) : Parser Bool := do
  let c ← get
  if literal.isPrefixOf c.rest then do
    advance literal.length
    pure true
  else pure false

/-! ## Strings -/

/-- The character an escape stands for. -/
def unescape : Char → Option Char
  | '"' => some '"'
  | '\\' => some '\\'
  | '/' => some '/'
  | 'n' => some '\n'
  | 't' => some '\t'
  | 'r' => some '\r'
  | 'b' => some '\x08'
  | 'f' => some '\x0c'
  | _ => none

/-- The loop behind the opening quote, with the characters read so far. -/
def parseChars (out : List Char) : ℕ → List Char → Except Exception (String × Cursor)
  | pos, [] =>
    .error (.runtimeError ("json: unterminated string at offset " ++ toString pos))
  | pos, '"' :: rest => .ok (String.ofList out, ⟨pos + 1, rest⟩)
  | pos, ['\\'] =>
    .error (.runtimeError ("json: truncated escape at offset " ++ toString (pos + 1)))
  | pos, '\\' :: esc :: rest =>
    match unescape esc with
    | some ch => parseChars (out ++ [ch]) (pos + 2) rest
    | none => .error (.runtimeError ("json: unsupported escape at offset " ++ toString (pos + 2)))
  | pos, ch :: rest => parseChars (out ++ [ch]) (pos + 1) rest

def parseString : Parser String := do
  expect '"'
  fun c => some (parseChars [] c.pos c.rest)

/-! ## Numbers -/

/-- The digits of a number of type `long long`. -/
def toLongLong (sign : ℤ) (digits : List Char) : Except Exception ℤ :=
  if digits = [] then .error .invalidArgument
  else
    let value := sign * (Decimal.value digits : ℕ)
    if value < -2 ^ 63 ∨ value > 2 ^ 63 - 1 then .error .outOfRange else .ok value

/-- `std::stoll` of a sign and digits. -/
def stoll : List Char → Except Exception ℤ
  | '-' :: digits => toLongLong (-1) digits
  | '+' :: digits => toLongLong 1 digits
  | digits => toLongLong 1 digits

def parseNumber : Parser Value := do
  let start ← get
  let sign := if start.rest.head? = some '-' ∨ start.rest.head? = some '+' then 1 else 0
  let n := sign + ((start.rest.drop sign).takeWhile Char.isDigit).length
  advance n
  if n = 0 then fail "expected number"
  else do
    let c ← get
    if c.rest.head? = some '.' ∨ c.rest.head? = some 'e' ∨ c.rest.head? = some 'E' then
      fail "floating-point number in fixture"
    else
      match stoll (start.rest.take n) with
      | .ok value => pure (.int value)
      | .error e => raise e

/-! ## Values -/

mutual

def parseValue : ℕ → Parser Value
  | 0 => fun _ => none
  | fuel + 1 => do
    skipWhitespace
    let c ← peek
    match c with
    | '{' => parseObject fuel
    | '[' => parseArray fuel
    | '"' => do
      let s ← parseString
      pure (.string s)
    | 't' => do
      let ok ← consumeLiteral ['t', 'r', 'u', 'e']
      if ok then pure (.bool true) else fail "bad literal"
    | 'f' => do
      let ok ← consumeLiteral ['f', 'a', 'l', 's', 'e']
      if ok then pure (.bool false) else fail "bad literal"
    | 'n' => do
      let ok ← consumeLiteral ['n', 'u', 'l', 'l']
      if ok then pure .null else fail "bad literal"
    | _ => parseNumber

def parseObject : ℕ → Parser Value
  | 0 => fun _ => none
  | fuel + 1 => do
    expect '{'
    skipWhitespace
    let c ← peek
    if c = '}' then do
      advance 1
      pure (.object [])
    else parseFields fuel []

/-- The loop over the fields, with those read so far. -/
def parseFields : ℕ → List (String × Value) → Parser Value
  | 0, _ => fun _ => none
  | fuel + 1, o => do
    skipWhitespace
    let key ← parseString
    skipWhitespace
    expect ':'
    let v ← parseValue fuel
    let o := emplace key v o
    skipWhitespace
    let c ← peek
    if c = ',' then do
      advance 1
      parseFields fuel o
    else if c = '}' then do
      advance 1
      pure (.object o)
    else fail "expected ',' or '\x7d'"

def parseArray : ℕ → Parser Value
  | 0 => fun _ => none
  | fuel + 1 => do
    expect '['
    skipWhitespace
    let c ← peek
    if c = ']' then do
      advance 1
      pure (.array [])
    else parseItems fuel []

/-- The loop over the items, with those read so far. -/
def parseItems : ℕ → List Value → Parser Value
  | 0, _ => fun _ => none
  | fuel + 1, items => do
    let v ← parseValue fuel
    let items := items ++ [v]
    skipWhitespace
    let c ← peek
    if c = ',' then do
      advance 1
      parseItems fuel items
    else if c = ']' then do
      advance 1
      pure (.array items)
    else fail "expected ',' or ']'"

end

def document (fuel : ℕ) : Parser Value := do
  skipWhitespace
  let v ← parseValue fuel
  skipWhitespace
  let c ← get
  if c.rest ≠ [] then raise (.runtimeError "json: trailing content") else pure v

end Parser

/-- `Parser(text).parse()`. -/
def parse (text : List Char) : Option (Except Exception Value) :=
  ((Parser.document (3 * text.length + 2)).run' ⟨0, text⟩).run

end FairCross.Json
