import DiceScript.Number.Binary64

/-!
# The random generator

A generator with 64 bits of state. Numbers in a range come from the high half of a product, drawing
again for the low halves that would make some results more likely than others.
-/

namespace DiceScript

structure Random where
  state : UInt64
deriving DecidableEq, Repr

namespace Random

def ofSeed (seed : Nat) : Random :=
  ⟨seed.toUInt64⟩

/-- The seed that an integer gives, modulo `2 ^ 64`. -/
def ofInt (n : Int) : Random :=
  ofSeed (n % 0x1_0000_0000_0000_0000).toNat

/-- The high and the low 64 bits of a product. -/
def wideMul (x y : UInt64) : UInt64 × UInt64 :=
  let p := x.toNat * y.toNat
  ((p / 0x1_0000_0000_0000_0000).toUInt64, (p % 0x1_0000_0000_0000_0000).toUInt64)

def next (g : Random) : UInt64 × Random :=
  let s := g.state + 0x2d358dccaa6c78a5
  let (high, low) := wideMul s (s ^^^ 0x8bb84b93962eacc9)
  (low ^^^ high, ⟨s⟩)

/-- Draw until the low half of the product with `n` reaches `least`, and give the high half. The
state has returned to its start after `2 ^ 64` draws. -/
def drawAbove (n : UInt64) (least : UInt64) : Nat → UInt64 × UInt64 → Random → UInt64 × Random
  | 0, (high, _), g => (high, g)
  | tries + 1, (high, low), g =>
    if low < least then
      let (r, g) := g.next
      drawAbove n least tries (wideMul r n) g
    else
      (high, g)

/-- A number from 1 to `n`. -/
def upTo (n : Nat) (g : Random) : Nat × Random :=
  let m := n.toUInt64
  let (r, g) := g.next
  let (high, low) := wideMul r m
  if low < m then
    let least := ((0x1_0000_0000_0000_0000 - n) % n).toUInt64
    let (high, g) := drawAbove m least 0x1_0000_0000_0000_0000 (high, low) g
    (1 + high.toNat, g)
  else
    (1 + high.toNat, g)

/-- The throw of a die with `sides` sides. -/
def throwDie (sides : Nat) (g : Random) : Double × Random :=
  let drawn := g.upTo sides
  (Binary64.ofNat drawn.1, drawn.2)

def throwDice (sides : Nat) : Nat → Random → List Double × Random
  | 0, g => ([], g)
  | count + 1, g =>
    let first := g.throwDie sides
    let rest := throwDice sides count first.2
    (first.1 :: rest.1, rest.2)

/-- A draw that rounds to 1 is made again. -/
def unitWithin : Nat → Random → Double × Random
  | 0, g => (0, g)
  | tries + 1, g =>
    let (r, g) := g.next
    let x := Binary64.ofRatio false (r.toNat / 2) 0x8000_0000_0000_0000
    if x < 1 then (x, g) else unitWithin tries g

/-- A number from 0 up to, not including, 1. -/
def unit (g : Random) : Double × Random :=
  unitWithin 0x1_0000_0000_0000_0000 g

end Random

end DiceScript
