/-!
# Random numbers

A generator is a ChaCha key stream of twelve rounds.  The key comes from a 64-bit seed, and the
stream is read in 64-bit draws, eight to a block, so a generator is a key and the number of draws
made.
-/

namespace StackScript

/-- A key and the number of draws made with it. -/
structure Generator where
  key : Vector UInt32 8
  drawn : Nat
deriving DecidableEq

namespace Generator

def expand : Nat → UInt64 → List UInt32
  | 0, _ => []
  | more + 1, seed =>
    let state := seed * 6364136223846793005 + 11634580027462260723
    let word := (((state >>> 18) ^^^ state) >>> 27).toUInt32
    let turn := (state >>> 59).toUInt32
    ((word >>> turn) ||| (word <<< ((32 - turn) % 32))) :: expand more state

def keyOfSeed (seed : UInt64) : Vector UInt32 8 :=
  Vector.ofFn fun i => (expand 8 seed)[i.val]?.getD 0

def ofSeed (seed : UInt64) : Generator :=
  { key := keyOfSeed seed, drawn := 0 }

abbrev Block := Vector UInt32 16

def turnLeft (x n : UInt32) : UInt32 :=
  (x <<< n) ||| (x >>> (32 - n))

def quarter (a b c d : Fin 16) (s : Block) : Block :=
  let s := s.set a (s[a] + s[b])
  let s := s.set d (turnLeft (s[d] ^^^ s[a]) 16)
  let s := s.set c (s[c] + s[d])
  let s := s.set b (turnLeft (s[b] ^^^ s[c]) 12)
  let s := s.set a (s[a] + s[b])
  let s := s.set d (turnLeft (s[d] ^^^ s[a]) 8)
  let s := s.set c (s[c] + s[d])
  s.set b (turnLeft (s[b] ^^^ s[c]) 7)

def doubleRound (s : Block) : Block :=
  let s := quarter 0 4 8 12 s
  let s := quarter 1 5 9 13 s
  let s := quarter 2 6 10 14 s
  let s := quarter 3 7 11 15 s
  let s := quarter 0 5 10 15 s
  let s := quarter 1 6 11 12 s
  let s := quarter 2 7 8 13 s
  quarter 3 4 9 14 s

def initial (key : Vector UInt32 8) (number : UInt64) : Block :=
  #v[0x61707865, 0x3320646E, 0x79622D32, 0x6B206574,
    key[0], key[1], key[2], key[3], key[4], key[5], key[6], key[7],
    number.toUInt32, (number >>> 32).toUInt32, 0, 0]

def block (key : Vector UInt32 8) (number : UInt64) : Block :=
  let start := initial key number
  Vector.zipWith (· + ·) (Nat.repeat doubleRound 6 start) start

def draw (key : Vector UInt32 8) (index : Nat) : UInt64 :=
  let words := block key (UInt64.ofNat (index / 8))
  let low := words[2 * (index % 8)]
  let high := words[2 * (index % 8) + 1]
  low.toUInt64 ||| (high.toUInt64 <<< 32)

def next (g : Generator) : UInt64 × Generator :=
  (draw g.key g.drawn, { g with drawn := g.drawn + 1 })

/-- Scale draws to `[0, bound)` until one falls in a part of the 64-bit range that the bound divides
evenly.  At least every second draw does; after `tries` refusals the next one is taken as it is. -/
def scaled (bound : Nat) : Nat → Generator → Nat × Generator
  | 0, g =>
    let (v, g) := g.next
    (v.toNat * bound / 2 ^ 64, g)
  | tries + 1, g =>
    let zone := bound * 2 ^ (63 - bound.log2) - 1
    let (v, g) := g.next
    let product := v.toNat * bound
    if product % 2 ^ 64 ≤ zone then (product / 2 ^ 64, g) else scaled bound tries g

/-- A random number from zero up to, but not including, a positive bound. -/
def below (g : Generator) (bound : Nat) : Nat × Generator :=
  scaled bound 1000 g

/-- A random float from zero up to, but not including, one. -/
def fraction (g : Generator) : Float × Generator :=
  let (v, g) := g.next
  ((v >>> 12).toFloat / 4503599627370496, g)

end Generator

end StackScript
