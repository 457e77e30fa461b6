import DiceScript.Number.Double

/-!
# Binary64 numbers as exact integers

A finite double is a whole number of some power of two. This module reads a double as that
integer, rounds an exact ratio back to the nearest double, and defines through the two what is
decided exactly: integral parts, remainders, conversions and the total order.
-/

namespace DiceScript.Binary64

/-- `significand * 2 ^ exponent` with a sign; the zeros have a sign too. -/
structure Dyadic where
  negative : Bool
  significand : Nat
  exponent : Int
deriving DecidableEq

inductive Reading where
  | nan
  | infinite (negative : Bool)
  | finite (value : Dyadic)
deriving DecidableEq

/-- The bits below the sign, as a number. They order the magnitudes. -/
def magnitude (x : Double) : Nat :=
  x.bits.toNat % 0x8000_0000_0000_0000

def isNegative (x : Double) : Bool :=
  0x8000_0000_0000_0000 ≤ x.bits.toNat

/-- Magnitude bits of a finite double, as significand and exponent. The step between neighbours is
never below `2 ^ (-1074)`. -/
def splitMagnitude (bits : Nat) : Nat × Int :=
  if bits < 0x10_0000_0000_0000 then (bits, -1074)
  else
    (0x10_0000_0000_0000 + bits % 0x10_0000_0000_0000,
      (bits / 0x10_0000_0000_0000 : Nat) - 1075)

def infinityBits : Nat := 0x7ff0_0000_0000_0000

def read (x : Double) : Reading :=
  let bits := magnitude x
  if infinityBits < bits then .nan
  else if bits = infinityBits then .infinite (isNegative x)
  else .finite ⟨isNegative x, (splitMagnitude bits).1, (splitMagnitude bits).2⟩

def ofMagnitude (negative : Bool) (bits : Nat) : Double :=
  ⟨(if negative then 0x8000_0000_0000_0000 + bits else bits).toUInt64⟩

/-- The whole number nearest to `n / d`, the even one of two. -/
def roundDiv (n d : Nat) : Nat :=
  let q := n / d
  let r := n % d
  if d < 2 * r ∨ (2 * r = d ∧ q % 2 = 1) then q + 1 else q

/-- The largest `k` with `2 ^ k ≤ n / d`. -/
def floorLog (n d : Nat) : Int :=
  let k : Int := (n.log2 : Int) - d.log2
  if d * Nat.pow 2 k.toNat ≤ n * Nat.pow 2 (-k).toNat then k else k - 1

/-- Magnitude bits of the double nearest to `n / d`, the one with even bits of two. Beyond the
largest finite double they are those of infinity. -/
def nearestMagnitude (n d : Nat) : Nat :=
  if n = 0 then 0
  else
    let step := max (floorLog n d - 52) (-1074)
    let significand := roundDiv (n * Nat.pow 2 (-step).toNat) (d * Nat.pow 2 step.toNat)
    min ((step + 1074).toNat * 0x10_0000_0000_0000 + significand) infinityBits

/-- The double nearest to `n / d`, with a sign. -/
def ofRatio (negative : Bool) (n d : Nat) : Double :=
  ofMagnitude negative (nearestMagnitude n d)

def ofDyadic (x : Dyadic) : Double :=
  ofRatio x.negative (x.significand * Nat.pow 2 x.exponent.toNat) (Nat.pow 2 (-x.exponent).toNat)

/-- The double nearest to `digits * 10 ^ exponent`. Exponents far out of range are answered without
forming the power. -/
def ofDecimal (negative : Bool) (digits : Nat) (exponent : Int) : Double :=
  if digits = 0 then ofMagnitude negative 0
  else if 400 < exponent then ofMagnitude negative infinityBits
  else if exponent < -(400 + (digits.log2 : Int)) then ofMagnitude negative 0
  else ofRatio negative (digits * Nat.pow 10 exponent.toNat) (Nat.pow 10 (-exponent).toNat)

def ofInt (n : Int) : Double :=
  ofRatio (n < 0) n.natAbs 1

def ofNat (n : Nat) : Double :=
  ofRatio false n 1

/-- Round a finite double to a whole number: `adjust` decides from the sign, the integral part and
whether a fraction is lost. The sign stays, also on a zero. -/
def roundWith (adjust : Bool → Nat → Bool → Nat) (x : Double) : Double :=
  match read x with
  | .finite ⟨negative, significand, exponent⟩ =>
    if 0 ≤ exponent then x
    else
      let unit := Nat.pow 2 (-exponent).toNat
      ofRatio negative
        (adjust negative (significand / unit) (significand % unit != 0)) 1
  | _ => x

/-- Round toward zero. -/
def trunc (x : Double) : Double :=
  roundWith (fun _ whole _ => whole) x

def floor (x : Double) : Double :=
  roundWith (fun negative whole inexact => if negative && inexact then whole + 1 else whole) x

def ceil (x : Double) : Double :=
  roundWith (fun negative whole inexact => if !negative && inexact then whole + 1 else whole) x

/-- The fraction is zero; infinities and NaN have none. -/
def isWhole (x : Double) : Bool :=
  match read x with
  | .finite ⟨_, significand, exponent⟩ =>
    significand % Nat.pow 2 (-exponent).toNat == 0
  | _ => false

/-- The remainder of truncated division, exact and with the sign of the dividend. -/
def remainder (x y : Double) : Double :=
  match read x, read y with
  | .nan, _ => x.quiet
  | _, .nan => y.quiet
  | .finite a, .finite b =>
    if b.significand = 0 then .nan true
    else
      let step := min a.exponent b.exponent
      let m := a.significand * Nat.pow 2 (a.exponent - step).toNat
      let n := b.significand * Nat.pow 2 (b.exponent - step).toNat
      ofDyadic ⟨a.negative, m % n, step⟩
  | .finite _, .infinite _ => x
  | .infinite _, _ => .nan true

/-- The integral part, kept between `lo` and `hi`; NaN gives 0. -/
def toIntClamped (lo hi : Int) (x : Double) : Int :=
  match read x with
  | .nan => 0
  | .infinite negative => if negative then lo else hi
  | .finite ⟨negative, significand, exponent⟩ =>
    let whole : Int :=
      (significand * Nat.pow 2 exponent.toNat / Nat.pow 2 (-exponent).toNat : Nat)
    max lo (min hi (if negative then -whole else whole))

/-- The integral part as a signed 64-bit number, kept in range. -/
def toInt64 (x : Double) : Int :=
  toIntClamped (-0x8000_0000_0000_0000) 0x7fff_ffff_ffff_ffff x

/-- The integral part as a natural number; what is below zero gives 0. -/
def toNat (x : Double) : Nat :=
  (toIntClamped 0 0xffff_ffff_ffff_ffff x).toNat

/-- Sort key of the total order: -0 comes just before 0, and a NaN before or after all numbers, as
its sign says. -/
def totalKey (x : Double) : Int :=
  if isNegative x then -(magnitude x : Int) - 1 else magnitude x

end DiceScript.Binary64

namespace DiceScript

instance (n : Nat) : OfNat Double n := ⟨Binary64.ofNat n⟩

instance : OfScientific Double where
  ofScientific digits negative exponent :=
    Binary64.ofDecimal false digits (if negative then -(exponent : Int) else exponent)

end DiceScript
