import FairCross.Commitments.Scheme
import FairCross.Library.ByteOrder

/-!
# SHA-256

`commitments/sha256.cpp` and `commitments/sha256.hpp`: the streaming hasher, and the scheme built on
it. The hasher's buffer is the list of the bytes it holds; what the source's array has behind them is
overwritten before it is read.
-/

namespace FairCross

namespace Sha256

/-- The round constants. -/
def roundConstants : List UInt32 := [
  0x428a2f98, 0x71374491, 0xb5c0fbcf, 0xe9b5dba5, 0x3956c25b, 0x59f111f1, 0x923f82a4, 0xab1c5ed5,
  0xd807aa98, 0x12835b01, 0x243185be, 0x550c7dc3, 0x72be5d74, 0x80deb1fe, 0x9bdc06a7, 0xc19bf174,
  0xe49b69c1, 0xefbe4786, 0x0fc19dc6, 0x240ca1cc, 0x2de92c6f, 0x4a7484aa, 0x5cb0a9dc, 0x76f988da,
  0x983e5152, 0xa831c66d, 0xb00327c8, 0xbf597fc7, 0xc6e00bf3, 0xd5a79147, 0x06ca6351, 0x14292967,
  0x27b70a85, 0x2e1b2138, 0x4d2c6dfc, 0x53380d13, 0x650a7354, 0x766a0abb, 0x81c2c92e, 0x92722c85,
  0xa2bfe8a1, 0xa81a664b, 0xc24b8b70, 0xc76c51a3, 0xd192e819, 0xd6990624, 0xf40e3585, 0x106aa070,
  0x19a4c116, 0x1e376c08, 0x2748774c, 0x34b0bcb5, 0x391c0cb3, 0x4ed8aa4a, 0x5b9cca4f, 0x682e6ff3,
  0x748f82ee, 0x78a5636f, 0x84c87814, 0x8cc70208, 0x90befffa, 0xa4506ceb, 0xbef9a3f7, 0xc67178f2]

def rotr (x n : UInt32) : UInt32 := (x >>> n) ||| (x <<< (32 - n))

def choose (e f g : UInt32) : UInt32 := (e &&& f) ^^^ (~~~e &&& g)

def majority (a b c : UInt32) : UInt32 := (a &&& b) ^^^ (a &&& c) ^^^ (b &&& c)

def sig0 (x : UInt32) : UInt32 := rotr x 2 ^^^ rotr x 13 ^^^ rotr x 22

def sig1 (x : UInt32) : UInt32 := rotr x 6 ^^^ rotr x 11 ^^^ rotr x 25

def gamma0 (x : UInt32) : UInt32 := rotr x 7 ^^^ rotr x 18 ^^^ (x >>> 3)

def gamma1 (x : UInt32) : UInt32 := rotr x 17 ^^^ rotr x 19 ^^^ (x >>> 10)

/-- The eight working words, `state_[0]` to `state_[7]`. -/
structure Words where
  a : UInt32
  b : UInt32
  c : UInt32
  d : UInt32
  e : UInt32
  f : UInt32
  g : UInt32
  h : UInt32
deriving DecidableEq

/-- Word `i` of a block, big-endian. -/
def blockWord (block : List UInt8) (i : ℕ) : UInt32 :=
  ((block.getD (i * 4) 0).toUInt32 <<< 24) ||| ((block.getD (i * 4 + 1) 0).toUInt32 <<< 16) |||
    ((block.getD (i * 4 + 2) 0).toUInt32 <<< 8) ||| (block.getD (i * 4 + 3) 0).toUInt32

/-- The next word of the message schedule. -/
def extendSchedule (m : List UInt32) : List UInt32 :=
  let i := m.length
  m ++ [gamma1 (m.getD (i - 2) 0) + m.getD (i - 7) 0 + gamma0 (m.getD (i - 15) 0) +
    m.getD (i - 16) 0]

/-- The sixty-four schedule words of a block. -/
def schedule (block : List UInt8) : List UInt32 :=
  (List.range 48).foldl (fun m _ => extendSchedule m) ((List.range 16).map (blockWord block))

/-- One round, with its constant and its schedule word. -/
def round (s : Words) (k m : UInt32) : Words :=
  let t1 := s.h + sig1 s.e + choose s.e s.f s.g + k + m
  let t2 := sig0 s.a + majority s.a s.b s.c
  { a := t1 + t2, b := s.a, c := s.b, d := s.c, e := s.d + t1, f := s.e, g := s.f, h := s.g }

def transform (s : Words) (block : List UInt8) : Words :=
  let r := (roundConstants.zip (schedule block)).foldl (fun r km => round r km.1 km.2) s
  { a := s.a + r.a, b := s.b + r.b, c := s.c + r.c, d := s.d + r.d, e := s.e + r.e, f := s.f + r.f,
    g := s.g + r.g, h := s.h + r.h }

end Sha256

/-- The streaming hasher: its words, the bits compressed so far, and the bytes of the next block. -/
structure Sha256 where
  state : Sha256.Words
  bitLen : U64
  buffer : List UInt8

namespace Sha256

/-- The constructor. -/
def init : Sha256 where
  state := { a := 0x6a09e667, b := 0xbb67ae85, c := 0x3c6ef372, d := 0xa54ff53a, e := 0x510e527f,
             f := 0x9b05688c, g := 0x1f83d9ab, h := 0x5be0cd19 }
  bitLen := 0
  buffer := []

/-- Take in one byte, and compress the buffer when it is full. -/
def absorb (s : Sha256) (byte : UInt8) : Sha256 :=
  let buffer := s.buffer ++ [byte]
  if buffer.length = 64 then
    { state := transform s.state buffer, bitLen := s.bitLen + 512, buffer := [] }
  else { s with buffer }

def update (s : Sha256) (data : List UInt8) : Sha256 := data.foldl absorb s

/-- The four bytes of a word, big-endian. -/
def wordBytes (w : UInt32) : List UInt8 :=
  [(w >>> 24).toUInt8, (w >>> 16).toUInt8, (w >>> 8).toUInt8, w.toUInt8]

def Words.digest (s : Words) : Bytes32 where
  bytes := wordBytes s.a ++ wordBytes s.b ++ wordBytes s.c ++ wordBytes s.d ++ wordBytes s.e ++
    wordBytes s.f ++ wordBytes s.g ++ wordBytes s.h
  size := rfl

/-- Pad the buffer with a one bit, zeros and the message length. A buffer without room for the length
is compressed first. -/
def finalize (s : Sha256) : Bytes32 :=
  let bitLen : U64 := s.bitLen + toU64 (s.buffer.length * 8)
  let lengthBytes := (LittleEndian.leBytes 8 bitLen).reverse
  let n := s.buffer.length
  if n < 56 then
    (transform s.state
      (s.buffer ++ 0x80 :: List.replicate (55 - n) 0 ++ lengthBytes)).digest
  else
    let state := transform s.state (s.buffer ++ 0x80 :: List.replicate (63 - n) 0)
    (transform state (List.replicate 56 0 ++ lengthBytes)).digest

def hash (data : List UInt8) : Bytes32 := (init.update data).finalize

end Sha256

/-- The bytes of an ASCII text. -/
def ascii (text : List Char) : List UInt8 := text.map fun c => UInt8.ofNat c.toNat

example : (Sha256.hash (ascii ['a', 'b', 'c'])).bytes.take 8 =
    [0xba, 0x78, 0x16, 0xbf, 0x8f, 0x01, 0xcf, 0xea] := by decide +kernel

/-- A SHA-256 digest. -/
abbrev Commitment := Bytes32

namespace Sha256Scheme

def leafPrefix : List UInt8 := ascii ['F', 'C', '_', 'L', 'E', 'A', 'F', '_']

def nodePrefix : List UInt8 := ascii ['F', 'C', '_', 'N', 'O', 'D', 'E', '_']

def emptyPrefix : List UInt8 :=
  ascii ['F', 'C', '_', 'E', 'M', 'P', 'T', 'Y', '_', 'N', 'O', 'D', 'E']

def commitRawBytes (data : List UInt8) : Commitment :=
  ((Sha256.init.update leafPrefix).update data).finalize

def combineNodes (left right : Commitment) : Commitment :=
  (((Sha256.init.update nodePrefix).update left.bytes).update right.bytes).finalize

def emptyNode : Commitment := (Sha256.init.update emptyPrefix).finalize

instance : CommitmentScheme Commitment where
  zero := .fill 0
  bytes := Bytes32.bytes
  commitRawBytes := commitRawBytes
  combineNodes := combineNodes
  emptyNode := emptyNode

end Sha256Scheme

end FairCross
