/-!
# A stream of random numbers

The Mersenne Twister: 624 words of 32 bits, which are mixed with each other whenever all of them have
been given out. A stream is a value. Drawing from it gives a number and the stream after it, so equal
seeds give equal streams wherever they are used.
-/

namespace Partitura

/-- The words of a stream and how many of them have been given out. -/
structure Twister where
  words : Array UInt32
  used : Nat

namespace Twister

/-- How many words a stream holds. -/
def size : Nat :=
  624

/-- How far ahead the word lies that is mixed into each. -/
def lookahead : Nat :=
  397

def word (ws : Array UInt32) (i : Nat) : UInt32 :=
  ws.getD i 0

/-! ## Seeding -/

/-- A word with its two highest bits folded in. -/
def folded (w : UInt32) : UInt32 :=
  w ^^^ (w >>> 30)

/-- Words that follow from a single one. -/
def spreadWord (seed : UInt32) : Array UInt32 :=
  (List.range (size - 1)).foldl
    (fun ws i => ws.push (1812433253 * folded (word ws i) + UInt32.ofNat (i + 1))) #[seed]

/-- The place after `i`, which wraps to 1 behind the last. The first word then takes over the last. -/
def advance (ws : Array UInt32) (i : Nat) : Array UInt32 × Nat :=
  if i + 1 < size then (ws, i + 1) else (ws.setIfInBounds 0 (word ws (size - 1)), 1)

/-- Mixes one word of the key into the words. -/
def mixKey (key : Array UInt32) (s : Array UInt32 × Nat) (step : Nat) : Array UInt32 × Nat :=
  let (ws, i) := s
  let j := step % key.size
  let mixed := (word ws i ^^^ (folded (word ws (i - 1)) * 1664525)) + word key j + UInt32.ofNat j
  advance (ws.setIfInBounds i mixed) i

/-- Mixes the words once more, without the key. -/
def mixAgain (s : Array UInt32 × Nat) (_ : Nat) : Array UInt32 × Nat :=
  let (ws, i) := s
  let mixed := (word ws i ^^^ (folded (word ws (i - 1)) * 1566083941)) - UInt32.ofNat i
  advance (ws.setIfInBounds i mixed) i

/-- The stream of a key, which must not be empty. -/
def ofKey (key : Array UInt32) : Twister :=
  let start := (spreadWord 19650218, 1)
  let keyed := (List.range (max size key.size)).foldl (mixKey key) start
  let mixed := (List.range (size - 1)).foldl mixAgain keyed
  { words := mixed.1.setIfInBounds 0 0x80000000
    used := size }

/-- How many different words there are. -/
def wordCount : Nat :=
  4294967296

/-- The digits of a number in base `wordCount`, the lowest first. -/
def digits32 (n : Nat) : List UInt32 :=
  if n < wordCount then [UInt32.ofNat n]
  else UInt32.ofNat (n % wordCount) :: digits32 (n / wordCount)
termination_by n
decreasing_by
  have large : wordCount ≤ n := Nat.not_lt.1 ‹_›
  exact Nat.div_lt_self (Nat.lt_of_lt_of_le (by decide) large) (by decide)

/-- The stream of a seed; its sign does not count. -/
def ofSeed (seed : Int) : Twister :=
  ofKey (digits32 seed.natAbs).toArray

/-! ## Drawing -/

/-- The word at place `i` after mixing: its highest bit and the lower bits of the next word, moved
down by one, with the word far ahead. -/
def mixAt (ws : Array UInt32) (i : Nat) : Array UInt32 :=
  let y := (word ws i &&& 0x80000000) ||| (word ws ((i + 1) % size) &&& 0x7fffffff)
  let odd : UInt32 := if y &&& 1 = 0 then 0 else 0x9908b0df
  ws.setIfInBounds i (word ws ((i + lookahead) % size) ^^^ (y >>> 1) ^^^ odd)

/-- All words mixed with each other. -/
def refill (ws : Array UInt32) : Array UInt32 :=
  (List.range size).foldl mixAt ws

/-- Evens out the bits of a word before it is given out. -/
def temper (w : UInt32) : UInt32 :=
  let w := w ^^^ (w >>> 11)
  let w := w ^^^ ((w <<< 7) &&& 0x9d2c5680)
  let w := w ^^^ ((w <<< 15) &&& 0xefc60000)
  w ^^^ (w >>> 18)

/-- The next word of the stream. -/
def next (t : Twister) : UInt32 × Twister :=
  let t := if t.used < size then t else { words := refill t.words, used := 0 }
  (temper (word t.words t.used), { t with used := t.used + 1 })

/-- The next `count` words as one number, the first word lowest. -/
def nextWords (t : Twister) : Nat → Nat × Twister
  | 0 => (0, t)
  | count + 1 =>
    let (w, t) := t.next
    let (high, t) := nextWords t count
    (w.toNat + high * wordCount, t)

/-- A number of `bits` random bits. Of a word that is not needed in full the high bits are kept. -/
def nextBits (t : Twister) (bits : Nat) : Nat × Twister :=
  let whole := bits / 32
  let part := bits % 32
  let (low, t) := t.nextWords whole
  if part = 0 then (low, t)
  else
    let (w, t) := t.next
    (low + w.toNat / Nat.pow 2 (32 - part) * Nat.pow 2 (32 * whole), t)

/-- How many bits it takes to write `n`. -/
def bitLength (n : Nat) : Nat :=
  if n = 0 then 0 else n.log2 + 1

/-- Draws numbers of `bits` bits until one is below `n`, at most `fuel` times. -/
def belowFrom (n bits : Nat) : Nat → Twister → Nat × Twister
  | 0, t => (0, t)
  | fuel + 1, t =>
    let (x, t) := t.nextBits bits
    if x < n then (x, t) else belowFrom n bits fuel t

/-- How often a draw is repeated before it is given up. More than half of all draws are kept, so no
stream comes near it. -/
def patience : Nat :=
  10000

/-- A random number below `n`. -/
def below (t : Twister) (n : Nat) : Nat × Twister :=
  belowFrom n (bitLength n) patience t

end Twister

end Partitura
