import ZXRewriting.Floating.Arithmetic

/-!
# A stream of random words

A reproducible stream of 32-bit words: a seed is stretched to a key by a congruential generator
with permuted output, and the key is expanded block by block with the ChaCha stream cipher of
twelve rounds.

A draw takes words from the front of the stream: one for a number in `[0, 1)` of the 32-bit
format, two for a number below a bound, or four if the bound needs 64 bits; the second half of
a bounded draw is only taken when the first one leaves the result undecided.
-/

namespace ZXRewriting

open Floating

/-- Stretches a seed to the given number of key words. -/
def stretchSeed : (count : Nat) → (state : UInt64) → List UInt32
  | 0, _ => []
  | count + 1, state =>
    let state := state * 6364136223846793005 + 11634580027462260723
    let x := (((state >>> 18) ^^^ state) >>> 27).toUInt32
    let turn := (state >>> 59).toUInt32
    let word := (x >>> turn) ||| (x <<< ((32 - turn) % 32))
    word :: stretchSeed count state

/-- The sixteen words of a cipher block. -/
abbrev Block := Vector UInt32 16

namespace Block

/-- Rotates a word to the left. -/
def rotateLeft (x : UInt32) (n : UInt32) : UInt32 := (x <<< n) ||| (x >>> (32 - n))

/-- Mixes four words of a block. -/
def quarterRound (b : Block) (i j k l : Fin 16) : Block :=
  let a := b[i] + b[j]
  let d := rotateLeft (b[l] ^^^ a) 16
  let c := b[k] + d
  let e := rotateLeft (b[j] ^^^ c) 12
  let a := a + e
  let d := rotateLeft (d ^^^ a) 8
  let c := c + d
  let e := rotateLeft (e ^^^ c) 7
  (((b.set i a).set j e).set k c).set l d

/-- Mixes the columns, then the diagonals. -/
def doubleRound (b : Block) : Block :=
  let b := b.quarterRound 0 4 8 12
  let b := b.quarterRound 1 5 9 13
  let b := b.quarterRound 2 6 10 14
  let b := b.quarterRound 3 7 11 15
  let b := b.quarterRound 0 5 10 15
  let b := b.quarterRound 1 6 11 12
  let b := b.quarterRound 2 7 8 13
  b.quarterRound 3 4 9 14

/-- The block before mixing: constants, key, and the counter of the block. -/
def start (key : List UInt32) (counter : Nat) : Block :=
  Vector.ofFn fun i =>
    if i.val < 4 then
      #[0x61707865, 0x3320646e, 0x79622d32, 0x6b206574].getD i.val 0
    else if i.val < 12 then key.getD (i.val - 4) 0
    else if i.val = 12 then UInt32.ofNat counter
    else if i.val = 13 then UInt32.ofNat (counter >>> 32)
    else 0

/-- The words of the stream in a block: six double rounds, and the block itself added. -/
def words (key : List UInt32) (counter : Nat) : List UInt32 :=
  let b := start key counter
  let mixed := Nat.repeat doubleRound 6 b
  (Vector.zipWith (· + ·) b mixed).toList

end Block

/-- A stream of words: the key, the number of the next block, and what is left of this one. -/
structure WordStream where
  key : List UInt32
  counter : Nat
  rest : List UInt32
  deriving DecidableEq, Repr

namespace WordStream

/-- The stream of a seed. -/
def ofSeed (seed : UInt64) : WordStream := ⟨stretchSeed 8 seed, 0, []⟩

/-- The next word. -/
def next (s : WordStream) : UInt32 × WordStream :=
  match s.rest with
  | w :: rest => (w, { s with rest })
  | [] =>
    match Block.words s.key s.counter with
    | w :: rest => (w, { s with counter := s.counter + 1, rest })
    | [] => (0, s)

/-- A random word, as a number. -/
def word (s : WordStream) : Nat × WordStream :=
  let (w, s) := s.next
  (w.toNat, s)

/-- A random number of two words, the low one first. -/
def longWord (s : WordStream) : Nat × WordStream :=
  let (low, s) := s.word
  let (high, s) := s.word
  ((high <<< 32) + low, s)

/-- A random number below `n`, from draws below `2 ^ width`: the high half of a product with
    `n`, to which the carry of a second product is added when the first one might lack it. -/
def belowWith (width : Nat) (draw : WordStream → Nat × WordStream) (n : Nat) (s : WordStream) :
    Nat × WordStream :=
  let size := 1 <<< width
  let (x, s) := draw s
  let high := x * n / size
  let low := x * n % size
  if low ≤ (size - n) % size then (high, s)
  else
    let (y, s) := draw s
    (if size ≤ low + y * n / size then high + 1 else high, s)

/-- A random number below a positive bound. -/
def below (n : Nat) (s : WordStream) : Nat × WordStream :=
  if n < UInt32.size then belowWith 32 word n s else belowWith 64 longWord n s

/-- A random number in `[0, 1)`: the high 24 bits of a word, as binary places. -/
def unitInterval (s : WordStream) : Single × WordStream :=
  let (x, s) := s.word
  (Number.ofFraction false (x >>> 8) (1 <<< 24), s)

end WordStream

end ZXRewriting
