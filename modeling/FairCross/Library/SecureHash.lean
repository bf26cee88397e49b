import FairCross.Library.ByteOrder
import FairCross.Library.BlockStream

/-!
# The secure hash algorithm of 256 bits

SHA-256 as FIPS 180-4 has it: functions on words of 32 bits, constants from the roots of the first
primes, and a message that is padded, cut into blocks and compressed block by block. Messages are
strings of bytes.
-/

namespace SecureHash

open BigEndian BlockStream

abbrev Word := BitVec 32

/-! ## Functions (section 4.1.2) -/

def ch (x y z : Word) : Word := (x &&& y) ^^^ (~~~x &&& z)

def maj (x y z : Word) : Word := (x &&& y) ^^^ (x &&& z) ^^^ (y &&& z)

def bigSigma0 (x : Word) : Word := x.rotateRight 2 ^^^ x.rotateRight 13 ^^^ x.rotateRight 22

def bigSigma1 (x : Word) : Word := x.rotateRight 6 ^^^ x.rotateRight 11 ^^^ x.rotateRight 25

def smallSigma0 (x : Word) : Word := x.rotateRight 7 ^^^ x.rotateRight 18 ^^^ (x >>> 3)

def smallSigma1 (x : Word) : Word := x.rotateRight 17 ^^^ x.rotateRight 19 ^^^ (x >>> 10)

/-! ## Constants (sections 4.2.2 and 5.3.3) -/

/-- The first sixty-four primes. -/
def primes : List ℕ := (List.range 312).filter Nat.Prime

/-- The first 32 bits of the fractional part of the cube root of a prime. -/
def roundConstant (t : ℕ) : Word := BitVec.ofNat 32 (Nat.nthRoot 3 (primes.getD t 0 * 2 ^ 96))

/-- The first 32 bits of the fractional part of the square root of a prime. -/
def initialWord (i : ℕ) : Word := BitVec.ofNat 32 (Nat.nthRoot 2 (primes.getD i 0 * 2 ^ 64))

/-- Below 18^2 the factors below 18 decide. -/
theorem prime_iff_of_lt {n : ℕ} (hn : n < 18 ^ 2) :
    n.Prime ↔ 2 ≤ n ∧ ∀ m < 18, 2 ≤ m → m < n → n % m ≠ 0 := by
  constructor
  · intro h
    refine ⟨h.two_le, fun m _ hm hmn hmod => ?_⟩
    rcases (Nat.dvd_prime h).mp (Nat.dvd_of_mod_eq_zero hmod) with rfl | rfl <;> omega
  · rintro ⟨htwo, h⟩
    by_contra hprime
    have hpos : 0 < n := by omega
    have hfac := Nat.minFac_sq_le_self hpos hprime
    have hlt : n.minFac < 18 := lt_of_pow_lt_pow_left₀ 2 (by omega) (lt_of_le_of_lt hfac hn)
    have hprime' := Nat.minFac_prime (n := n) (by omega)
    refine h n.minFac hlt hprime'.two_le ?_ (Nat.mod_eq_zero_of_dvd (Nat.minFac_dvd n))
    exact (Nat.not_prime_iff_minFac_lt htwo).mp hprime

theorem primes_eq : primes = [2, 3, 5, 7, 11, 13, 17, 19, 23, 29, 31, 37, 41, 43, 47, 53, 59, 61, 67, 71,
    73, 79, 83, 89, 97, 101, 103, 107, 109, 113, 127, 131, 137, 139, 149, 151, 157, 163, 167, 173, 179,
    181, 191, 193, 197, 199, 211, 223, 227, 229, 233, 239, 241, 251, 257, 263, 269, 271, 277, 281, 283,
    293, 307, 311] := by
  have hfilter : primes = (List.range 312).filter
      fun n => decide (2 ≤ n ∧ ∀ m < 18, 2 ≤ m → m < n → n % m ≠ 0) := by
    refine List.filter_congr fun n hn => ?_
    have := List.mem_range.mp hn
    exact decide_eq_decide.mpr (prime_iff_of_lt (by omega))
  rw [hfilter]
  decide +kernel

/-! ## Compression (section 6.2.2) -/

/-- The eight words of a hash value. -/
structure HashValue where
  a : Word
  b : Word
  c : Word
  d : Word
  e : Word
  f : Word
  g : Word
  h : Word
deriving DecidableEq

def initialValue : HashValue where
  a := initialWord 0
  b := initialWord 1
  c := initialWord 2
  d := initialWord 3
  e := initialWord 4
  f := initialWord 5
  g := initialWord 6
  h := initialWord 7

/-- Word `t` of a block. -/
def blockWord (block : List UInt8) (t : ℕ) : Word :=
  BitVec.ofNat 32 (ofBytes ((block.drop (4 * t)).take 4))

/-- Word `t` of the message schedule of the words `m`. -/
def scheduleWord (m : ℕ → Word) (t : ℕ) : Word :=
  if t < 16 then m t
  else smallSigma1 (scheduleWord m (t - 2)) + scheduleWord m (t - 7) +
    smallSigma0 (scheduleWord m (t - 15)) + scheduleWord m (t - 16)
termination_by t

def round (k w : Word) (s : HashValue) : HashValue :=
  let t1 := s.h + bigSigma1 s.e + ch s.e s.f s.g + k + w
  let t2 := bigSigma0 s.a + maj s.a s.b s.c
  { a := t1 + t2, b := s.a, c := s.b, d := s.c, e := s.d + t1, f := s.e, g := s.f, h := s.g }

/-- The first `t` rounds. -/
def rounds (m : ℕ → Word) (s : HashValue) : ℕ → HashValue
  | 0 => s
  | t + 1 => round (roundConstant t) (scheduleWord m t) (rounds m s t)

def compress (s : HashValue) (block : List UInt8) : HashValue :=
  let r := rounds (blockWord block) s 64
  { a := r.a + s.a, b := r.b + s.b, c := r.c + s.c, d := r.d + s.d, e := r.e + s.e, f := r.f + s.f,
    g := r.g + s.g, h := r.h + s.h }

/-! ## The message (sections 5.1.1, 5.2.1 and 6.2) -/

/-- The least number of zero bytes that makes a whole number of blocks of a message, the byte behind it,
the zeros and the length. -/
def zeroBytes (length : ℕ) : ℕ := (119 - length % 64) % 64

/-- A one bit, zeros, and the length of the message in bits. -/
def padding (length : ℕ) : List UInt8 :=
  0x80 :: List.replicate (zeroBytes length) 0 ++ beBytes 8 (8 * length)

def pad (message : List UInt8) : List UInt8 := message ++ padding message.length

def HashValue.bytes (s : HashValue) : List UInt8 :=
  ([s.a, s.b, s.c, s.d, s.e, s.f, s.g, s.h].map fun w => beBytes 4 w.toNat).flatten

def digest (message : List UInt8) : List UInt8 :=
  ((blocks 64 (pad message)).foldl compress initialValue).bytes

/-! ## The shape of the padding -/

theorem zeroBytes_of_lt {length : ℕ} (h : length % 64 < 56) :
    zeroBytes length = 55 - length % 64 := by
  unfold zeroBytes
  omega

theorem zeroBytes_of_le {length : ℕ} (h : 56 ≤ length % 64) :
    zeroBytes length = 119 - length % 64 := by
  unfold zeroBytes
  omega

end SecureHash
