import SpvEnvelope.Bytes.Reader

/-!
# SHA-256

The message is padded to whole blocks of 64 bytes. Each block is expanded to 64 words and stirred
into a state of eight words, which is written out big-endian at the end. `length_sha256` says that
the result always has 32 bytes.

| here | there |
| --- | --- |
| `sha256`, `sha256d` | the functions of these names (§10.1) |
-/

namespace SpvEnvelope.Sha256

/-- The eight working words. -/
structure State where
  a : UInt32
  b : UInt32
  c : UInt32
  d : UInt32
  e : UInt32
  f : UInt32
  g : UInt32
  h : UInt32

/-- The state before the first block: fractional parts of the square roots of the first primes. -/
def State.start : State :=
  ⟨0x6a09e667, 0xbb67ae85, 0x3c6ef372, 0xa54ff53a, 0x510e527f, 0x9b05688c, 0x1f83d9ab, 0x5be0cd19⟩

/-- The constant of each round: fractional parts of the cube roots of the first 64 primes. -/
def roundConstants : List UInt32 :=
  [0x428a2f98, 0x71374491, 0xb5c0fbcf, 0xe9b5dba5, 0x3956c25b, 0x59f111f1, 0x923f82a4, 0xab1c5ed5,
   0xd807aa98, 0x12835b01, 0x243185be, 0x550c7dc3, 0x72be5d74, 0x80deb1fe, 0x9bdc06a7, 0xc19bf174,
   0xe49b69c1, 0xefbe4786, 0x0fc19dc6, 0x240ca1cc, 0x2de92c6f, 0x4a7484aa, 0x5cb0a9dc, 0x76f988da,
   0x983e5152, 0xa831c66d, 0xb00327c8, 0xbf597fc7, 0xc6e00bf3, 0xd5a79147, 0x06ca6351, 0x14292967,
   0x27b70a85, 0x2e1b2138, 0x4d2c6dfc, 0x53380d13, 0x650a7354, 0x766a0abb, 0x81c2c92e, 0x92722c85,
   0xa2bfe8a1, 0xa81a664b, 0xc24b8b70, 0xc76c51a3, 0xd192e819, 0xd6990624, 0xf40e3585, 0x106aa070,
   0x19a4c116, 0x1e376c08, 0x2748774c, 0x34b0bcb5, 0x391c0cb3, 0x4ed8aa4a, 0x5b9cca4f, 0x682e6ff3,
   0x748f82ee, 0x78a5636f, 0x84c87814, 0x8cc70208, 0x90befffa, 0xa4506ceb, 0xbef9a3f7, 0xc67178f2]

/-! ## Words -/

/-- Rotation to the right by `n` bits, for `0 < n < 32`. -/
def rotateRight (x n : UInt32) : UInt32 :=
  (x >>> n) ||| (x <<< (32 - n))

/-- The bits of `y` where `x` has ones, and those of `z` where it has zeros. -/
def choose (x y z : UInt32) : UInt32 :=
  (x &&& y) ^^^ (~~~x &&& z)

/-- The bit that at least two of the three words have. -/
def majority (x y z : UInt32) : UInt32 :=
  (x &&& y) ^^^ (x &&& z) ^^^ (y &&& z)

/-- The mix of the first working word. -/
def stirA (x : UInt32) : UInt32 :=
  rotateRight x 2 ^^^ rotateRight x 13 ^^^ rotateRight x 22

/-- The mix of the fifth working word. -/
def stirE (x : UInt32) : UInt32 :=
  rotateRight x 6 ^^^ rotateRight x 11 ^^^ rotateRight x 25

/-- The mix of the word fifteen places back in the expansion. -/
def spreadFar (x : UInt32) : UInt32 :=
  rotateRight x 7 ^^^ rotateRight x 18 ^^^ (x >>> 3)

/-- The mix of the word two places back in the expansion. -/
def spreadNear (x : UInt32) : UInt32 :=
  rotateRight x 17 ^^^ rotateRight x 19 ^^^ (x >>> 10)

/-- Four bytes at a time as big-endian words; an incomplete last word is dropped. -/
def words : List UInt8 → List UInt32
  | a :: b :: c :: d :: rest =>
    ((a.toUInt32 <<< 24) ||| (b.toUInt32 <<< 16) ||| (c.toUInt32 <<< 8) ||| d.toUInt32)
      :: words rest
  | _ => []

/-- The four bytes of a word, most significant first. -/
def wordBytes (x : UInt32) : List UInt8 :=
  [(x >>> 24).toUInt8, (x >>> 16).toUInt8, (x >>> 8).toUInt8, x.toUInt8]

/-! ## Blocks -/

/-- Adds `count` words to an expansion that is listed last word first. -/
def expand : (count : Nat) → List UInt32 → List UInt32
  | 0, ws => ws
  | count + 1, ws =>
    expand count
      ((spreadNear (ws.getD 1 0) + ws.getD 6 0 + spreadFar (ws.getD 14 0) + ws.getD 15 0) :: ws)

/-- The 64 words that a block of 64 bytes is expanded to. -/
def schedule (block : List UInt8) : List UInt32 :=
  (expand 48 (words block).reverse).reverse

/-- One round, with the round's constant and scheduled word added up in `k`. -/
def round (s : State) (k : UInt32) : State :=
  let t := s.h + stirE s.e + choose s.e s.f s.g + k
  ⟨t + (stirA s.a + majority s.a s.b s.c), s.a, s.b, s.c, s.d + t, s.e, s.f, s.g⟩

/-- Stirs one block into the state. -/
def compress (s : State) (block : List UInt8) : State :=
  let r := (List.zipWith (· + ·) roundConstants (schedule block)).foldl round s
  ⟨s.a + r.a, s.b + r.b, s.c + r.c, s.d + r.d, s.e + r.e, s.f + r.f, s.g + r.g, s.h + r.h⟩

/-- Stirs the first `count` blocks of `bytes` into the state. -/
def absorb : (count : Nat) → State → (bytes : List UInt8) → State
  | 0, s, _ => s
  | count + 1, s, bytes => absorb count (compress s (bytes.take 64)) (bytes.drop 64)

/-! ## Messages -/

/-- What follows a message of `length` bytes: a one bit, zeros up to the end of a block, and the
length in bits in the block's last eight bytes. -/
def padding (length : Nat) : List UInt8 :=
  0x80 :: List.replicate ((119 - length % 64) % 64) 0
    ++ (LittleEndian.encode 8 (8 * length)).reverse

/-- The 32 bytes of a state. -/
def State.toBytes (s : State) : List UInt8 :=
  wordBytes s.a ++ wordBytes s.b ++ wordBytes s.c ++ wordBytes s.d ++ wordBytes s.e ++ wordBytes s.f
    ++ wordBytes s.g ++ wordBytes s.h

end Sha256

/-- The SHA-256 of a message. -/
def sha256 (message : List UInt8) : List UInt8 :=
  let padded := message ++ Sha256.padding message.length
  (Sha256.absorb (padded.length / 64) Sha256.State.start padded).toBytes

@[simp] theorem length_sha256 (message : List UInt8) : (sha256 message).length = 32 := rfl

/-- SHA-256 applied twice. -/
def sha256d (message : List UInt8) : List UInt8 :=
  sha256 (sha256 message)

@[simp] theorem length_sha256d (message : List UInt8) : (sha256d message).length = 32 := rfl

end SpvEnvelope
