import FileSieve.Text.Hex
import FileSieve.Text.Utf8

/-!
The SHA-256 digest of a byte sequence and its hexadecimal form.
-/

namespace FileSieve.Digest

/-- The round constants: the first thirty-two bits after the point of the cube roots of the first
sixty-four primes. -/
def roundConstants : List UInt32 :=
  [
    0x428a2f98, 0x71374491, 0xb5c0fbcf, 0xe9b5dba5, 0x3956c25b, 0x59f111f1, 0x923f82a4,
    0xab1c5ed5, 0xd807aa98, 0x12835b01, 0x243185be, 0x550c7dc3, 0x72be5d74, 0x80deb1fe,
    0x9bdc06a7, 0xc19bf174, 0xe49b69c1, 0xefbe4786, 0x0fc19dc6, 0x240ca1cc, 0x2de92c6f,
    0x4a7484aa, 0x5cb0a9dc, 0x76f988da, 0x983e5152, 0xa831c66d, 0xb00327c8, 0xbf597fc7,
    0xc6e00bf3, 0xd5a79147, 0x06ca6351, 0x14292967, 0x27b70a85, 0x2e1b2138, 0x4d2c6dfc,
    0x53380d13, 0x650a7354, 0x766a0abb, 0x81c2c92e, 0x92722c85, 0xa2bfe8a1, 0xa81a664b,
    0xc24b8b70, 0xc76c51a3, 0xd192e819, 0xd6990624, 0xf40e3585, 0x106aa070, 0x19a4c116,
    0x1e376c08, 0x2748774c, 0x34b0bcb5, 0x391c0cb3, 0x4ed8aa4a, 0x5b9cca4f, 0x682e6ff3,
    0x748f82ee, 0x78a5636f, 0x84c87814, 0x8cc70208, 0x90befffa, 0xa4506ceb, 0xbef9a3f7, 0xc67178f2
  ]

/-- The eight words of the running hash. -/
structure HashState where
  a : UInt32
  b : UInt32
  c : UInt32
  d : UInt32
  e : UInt32
  f : UInt32
  g : UInt32
  h : UInt32
deriving DecidableEq

/-- The hash before the first block: the bits after the point of the square roots of the first eight
primes. -/
def HashState.start : HashState :=
  ⟨0x6a09e667, 0xbb67ae85, 0x3c6ef372, 0xa54ff53a,
    0x510e527f, 0x9b05688c, 0x1f83d9ab, 0x5be0cd19⟩

def rotate (x : UInt32) (n : UInt32) : UInt32 :=
  (x >>> n) ||| (x <<< (32 - n))

/-- The bytes of a number, most significant first. -/
def bigEndian (width n : Nat) : List UInt8 :=
  match width with
  | 0 => []
  | width + 1 => bigEndian width (n / 256) ++ [UInt8.ofNat (n % 256)]

/-- A message with its padding: a one bit, zeros up to a whole block, and the length in bits. -/
def padded (message : List UInt8) : List UInt8 :=
  let length := message.length
  message ++ 0x80 :: List.replicate ((119 - length % 64) % 64) 0 ++ bigEndian 8 (8 * length)

/-- The words of a byte sequence, four bytes each. -/
def words : List UInt8 → List UInt32
  | a :: b :: c :: d :: rest =>
    ((a.toUInt32 <<< 24) ||| (b.toUInt32 <<< 16) ||| (c.toUInt32 <<< 8) ||| d.toUInt32) ::
      words rest
  | _ => []

/-- The next word of the message schedule, from the last sixteen. -/
def nextWord (schedule : Array UInt32) : UInt32 :=
  let older (back : Nat) := schedule.getD (schedule.size - back) 0
  let s0 := rotate (older 15) 7 ^^^ rotate (older 15) 18 ^^^ (older 15 >>> 3)
  let s1 := rotate (older 2) 17 ^^^ rotate (older 2) 19 ^^^ (older 2 >>> 10)
  older 16 + s0 + older 7 + s1

/-- The sixty-four words of the message schedule of a block. -/
def schedule (block : List UInt32) : List UInt32 :=
  ((List.range 48).foldl (fun ws _ => ws.push (nextWord ws)) block.toArray).toList

/-- One round with the sum of a round constant and a schedule word. -/
def HashState.round (s : HashState) (k : UInt32) : HashState :=
  let s1 := rotate s.e 6 ^^^ rotate s.e 11 ^^^ rotate s.e 25
  let ch := (s.e &&& s.f) ^^^ ((~~~s.e) &&& s.g)
  let t1 := s.h + s1 + ch + k
  let s0 := rotate s.a 2 ^^^ rotate s.a 13 ^^^ rotate s.a 22
  let maj := (s.a &&& s.b) ^^^ (s.a &&& s.c) ^^^ (s.b &&& s.c)
  ⟨t1 + (s0 + maj), s.a, s.b, s.c, s.d + t1, s.e, s.f, s.g⟩

def HashState.add (s t : HashState) : HashState :=
  ⟨s.a + t.a, s.b + t.b, s.c + t.c, s.d + t.d, s.e + t.e, s.f + t.f, s.g + t.g, s.h + t.h⟩

/-- The hash after a further block of sixteen words. -/
def HashState.absorb (s : HashState) (block : List UInt32) : HashState :=
  s.add ((List.zipWith (· + ·) roundConstants (schedule block)).foldl HashState.round s)

/-- The hash after the whole blocks at the start of a word sequence. -/
def HashState.absorbAll (s : HashState) (ws : List UInt32) : Nat → HashState
  | 0 => s
  | blocks + 1 => (s.absorb (ws.take 16)).absorbAll (ws.drop 16) blocks

def HashState.toList (s : HashState) : List UInt32 :=
  [s.a, s.b, s.c, s.d, s.e, s.f, s.g, s.h]

/-- The SHA-256 digest of a byte sequence as sixty-four hexadecimal digits. -/
def sha256 (message : List UInt8) : String :=
  let ws := words (padded message)
  let state := HashState.start.absorbAll ws (ws.length / 16)
  String.ofList (state.toList.flatMap fun w => Text.hex 8 w.toNat)

end FileSieve.Digest
