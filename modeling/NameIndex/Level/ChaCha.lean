import NameIndex.Level

/-!
# Draws from a ChaCha12 key stream

The standard source of level draws is the key stream of the ChaCha cipher with twelve rounds, read
as 64-bit numbers with the low word first. The key is expanded from a 64-bit seed by a permuted
congruential generator; the block counter and the stream number start at zero.
-/

namespace NameIndex

/-- Sixteen words: the state of the cipher, and one block of its key stream. -/
abbrev ChaChaBlock := Vector UInt32 16

namespace ChaChaBlock

/-- Mixes the words at four places of the state. -/
def quarterRound (s : ChaChaBlock) (a b c d : Fin 16) : ChaChaBlock :=
  let rotate (x : UInt32) (n : UInt32) : UInt32 := (x <<< n) ||| (x >>> (32 - n))
  let s := s.set a (s[a] + s[b])
  let s := s.set d (rotate (s[d] ^^^ s[a]) 16)
  let s := s.set c (s[c] + s[d])
  let s := s.set b (rotate (s[b] ^^^ s[c]) 12)
  let s := s.set a (s[a] + s[b])
  let s := s.set d (rotate (s[d] ^^^ s[a]) 8)
  let s := s.set c (s[c] + s[d])
  s.set b (rotate (s[b] ^^^ s[c]) 7)

/-- Mixes the columns of the state and then its diagonals. -/
def doubleRound (s : ChaChaBlock) : ChaChaBlock :=
  let s := s.quarterRound 0 4 8 12
  let s := s.quarterRound 1 5 9 13
  let s := s.quarterRound 2 6 10 14
  let s := s.quarterRound 3 7 11 15
  let s := s.quarterRound 0 5 10 15
  let s := s.quarterRound 1 6 11 12
  let s := s.quarterRound 2 7 8 13
  s.quarterRound 3 4 9 14

/-- The state before the rounds of a block: the constant, the key, the counter and a zero stream
number. -/
def initial (key : Vector UInt32 8) (counter : UInt64) : ChaChaBlock :=
  let constant : Vector UInt32 4 := #v[0x61707865, 0x3320646e, 0x79622d32, 0x6b206574]
  let rest : Vector UInt32 4 := #v[counter.toUInt32, (counter >>> 32).toUInt32, 0, 0]
  constant ++ key ++ rest

/-- One block of the key stream: six double rounds, added to the state before them. -/
def keyStream (key : Vector UInt32 8) (counter : UInt64) : ChaChaBlock :=
  let s := initial key counter
  s.zipWith (· + ·) (Nat.repeat doubleRound 6 s)

/-- The block read as eight 64-bit numbers, low word first. -/
def draws (s : ChaChaBlock) : List UInt64 :=
  (List.finRange 8).map fun i =>
    (s[2 * i.val + 1]).toUInt64 <<< 32 ||| (s[2 * i.val]).toUInt64

end ChaChaBlock

/-- A position in the key stream of a key. -/
structure ChaCha where
  /-- The key of the cipher. -/
  key : Vector UInt32 8
  /-- The number of the first block that is not yet read. -/
  counter : UInt64
  /-- The draws of the block before it that are not yet read. -/
  pending : List UInt64
deriving DecidableEq

namespace ChaCha

/-- One step of the congruential generator that expands a seed. -/
def expandStep (state : UInt64) : UInt64 :=
  state * 6364136223846793005 + 11634580027462260723

/-- The word that the generator shows for a state: its high bits, rotated by its highest five. -/
def expandWord (state : UInt64) : UInt32 :=
  let x := (((state >>> 18) ^^^ state) >>> 27).toUInt32
  let n := (state >>> 59).toUInt32
  (x >>> n) ||| (x <<< (32 - n))

/-- The key of a seed: the words of the generator's next eight states. -/
def expandSeed (seed : UInt64) : Vector UInt32 8 :=
  Vector.ofFn fun i => expandWord (Nat.repeat expandStep (i.val + 1) seed)

/-- The start of the key stream of a seed. -/
def ofSeed (seed : UInt64) : ChaCha := ⟨expandSeed seed, 0, []⟩

/-- The next number of the key stream. -/
def next (g : ChaCha) : UInt64 × ChaCha :=
  match g.pending with
  | x :: rest => (x, { g with pending := rest })
  | [] =>
    let numbers := (ChaChaBlock.keyStream g.key g.counter).draws
    (numbers.headD 0, { g with counter := g.counter + 1, pending := numbers.tail })

instance : LevelSource ChaCha := ⟨ofSeed, next⟩

end ChaCha

end NameIndex
