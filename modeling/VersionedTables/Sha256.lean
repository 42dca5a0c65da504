/-!
# SHA-256

The digest of a list of bytes: the message is padded to whole blocks of 64 bytes, and each block
is mixed into a state of eight words in sixty-four rounds. The message schedule is kept as a
window of its next sixteen words, which moves on by one word in every round.
-/

namespace VersionedTables.Sha256

/-- The eight words of the state. -/
structure State where
  /-- First word. -/
  a : UInt32
  /-- Second word. -/
  b : UInt32
  /-- Third word. -/
  c : UInt32
  /-- Fourth word. -/
  d : UInt32
  /-- Fifth word. -/
  e : UInt32
  /-- Sixth word. -/
  f : UInt32
  /-- Seventh word. -/
  g : UInt32
  /-- Eighth word. -/
  h : UInt32
  deriving DecidableEq, Repr

namespace State

/-- The state before the first block: the fractional parts of the square roots of the first eight
primes. -/
def initial : State :=
  ⟨0x6a09e667, 0xbb67ae85, 0x3c6ef372, 0xa54ff53a, 0x510e527f, 0x9b05688c, 0x1f83d9ab, 0x5be0cd19⟩

/-- Adds two states word by word. -/
def add (x y : State) : State :=
  ⟨x.a + y.a, x.b + y.b, x.c + y.c, x.d + y.d, x.e + y.e, x.f + y.f, x.g + y.g, x.h + y.h⟩

/-- The words of a state in order. -/
def words (s : State) : List UInt32 :=
  [s.a, s.b, s.c, s.d, s.e, s.f, s.g, s.h]

end State

/-- The constants of the sixty-four rounds: the fractional parts of the cube roots of the first
sixty-four primes. -/
def roundConstants : List UInt32 :=
  [0x428a2f98, 0x71374491, 0xb5c0fbcf, 0xe9b5dba5, 0x3956c25b, 0x59f111f1, 0x923f82a4, 0xab1c5ed5,
   0xd807aa98, 0x12835b01, 0x243185be, 0x550c7dc3, 0x72be5d74, 0x80deb1fe, 0x9bdc06a7, 0xc19bf174,
   0xe49b69c1, 0xefbe4786, 0x0fc19dc6, 0x240ca1cc, 0x2de92c6f, 0x4a7484aa, 0x5cb0a9dc, 0x76f988da,
   0x983e5152, 0xa831c66d, 0xb00327c8, 0xbf597fc7, 0xc6e00bf3, 0xd5a79147, 0x06ca6351, 0x14292967,
   0x27b70a85, 0x2e1b2138, 0x4d2c6dfc, 0x53380d13, 0x650a7354, 0x766a0abb, 0x81c2c92e, 0x92722c85,
   0xa2bfe8a1, 0xa81a664b, 0xc24b8b70, 0xc76c51a3, 0xd192e819, 0xd6990624, 0xf40e3585, 0x106aa070,
   0x19a4c116, 0x1e376c08, 0x2748774c, 0x34b0bcb5, 0x391c0cb3, 0x4ed8aa4a, 0x5b9cca4f, 0x682e6ff3,
   0x748f82ee, 0x78a5636f, 0x84c87814, 0x8cc70208, 0x90befffa, 0xa4506ceb, 0xbef9a3f7, 0xc67178f2]

/-- Turns a word to the right. -/
def rotate (x : UInt32) (n : UInt32) : UInt32 :=
  (x >>> n) ||| (x <<< (32 - n))

/-- Mixes a word of the schedule that lies fifteen words back. -/
def smallSigma0 (x : UInt32) : UInt32 :=
  rotate x 7 ^^^ rotate x 18 ^^^ (x >>> 3)

/-- Mixes a word of the schedule that lies two words back. -/
def smallSigma1 (x : UInt32) : UInt32 :=
  rotate x 17 ^^^ rotate x 19 ^^^ (x >>> 10)

/-- Mixes the first word of the state. -/
def bigSigma0 (x : UInt32) : UInt32 :=
  rotate x 2 ^^^ rotate x 13 ^^^ rotate x 22

/-- Mixes the fifth word of the state. -/
def bigSigma1 (x : UInt32) : UInt32 :=
  rotate x 6 ^^^ rotate x 11 ^^^ rotate x 25

/-- Chooses the bits of `y` where `x` has ones and those of `z` where it has zeros. -/
def choose (x y z : UInt32) : UInt32 :=
  (x &&& y) ^^^ (~~~x &&& z)

/-- The bits that at least two of three words have. -/
def majority (x y z : UInt32) : UInt32 :=
  (x &&& y) ^^^ (x &&& z) ^^^ (y &&& z)

/-- The next sixteen words of the message schedule. -/
abbrev Window := Vector UInt32 16

/-- Moves the window on: the first word leaves, and a word mixed from four others enters. -/
def Window.next (w : Window) : Window :=
  let entering := smallSigma1 w[14] + w[9] + smallSigma0 w[1] + w[0]
  Vector.ofFn fun i => if h : i.val + 1 < 16 then w[i.val + 1] else entering

/-- One round. -/
def round (s : State) (constant word : UInt32) : State :=
  let t₁ := s.h + bigSigma1 s.e + choose s.e s.f s.g + constant + word
  let t₂ := bigSigma0 s.a + majority s.a s.b s.c
  ⟨t₁ + t₂, s.a, s.b, s.c, s.d + t₁, s.e, s.f, s.g⟩

/-- Mixes one block into the state. -/
def compress (s : State) (block : Window) : State :=
  let (mixed, _) := roundConstants.foldl
    (fun (state, window) constant => (round state constant window[0], Window.next window))
    (s, block)
  s.add mixed

/-! ## Bytes -/

/-- The lowest `count` bytes of a number, the highest first. -/
def bigEndian (count n : Nat) : List UInt8 :=
  (List.range count).reverse.map fun i => UInt8.ofNat (n >>> (8 * i))

/-- The padding of a message of `length` bytes: a one bit, zeros up to the end of a block, and the
length in bits as the block's last eight bytes. -/
def padding (length : Nat) : List UInt8 :=
  0x80 :: List.replicate ((119 - length % 64) % 64) 0 ++ bigEndian 8 (8 * length)

/-- The number that bytes spell, the highest first. -/
def ofBigEndian (bytes : List UInt8) : Nat :=
  bytes.foldl (fun n byte => 256 * n + byte.toNat) 0

/-- The sixteen words of a block of bytes. -/
def blockWords (block : List UInt8) : Window :=
  Vector.ofFn fun i => UInt32.ofNat (ofBigEndian ((block.drop (4 * i.val)).take 4))

/-- Mixes blocks of 64 bytes into the state, one after another. -/
def absorb (s : State) (bytes : List UInt8) : State :=
  if bytes.length < 64 then s
  else absorb (compress s (blockWords (bytes.take 64))) (bytes.drop 64)
termination_by bytes.length
decreasing_by
  simp only [List.length_drop]
  omega

/-- The 32 bytes of the digest. -/
def digest (message : List UInt8) : List UInt8 :=
  (absorb State.initial (message ++ padding message.length)).words.flatMap
    fun word => bigEndian 4 word.toNat

/-- Two hexadecimal digits for every byte, in small letters. -/
def hex (bytes : List UInt8) : String :=
  String.ofList (bytes.flatMap fun byte =>
    [Nat.digitChar (byte.toNat / 16), Nat.digitChar (byte.toNat % 16)])

end VersionedTables.Sha256
