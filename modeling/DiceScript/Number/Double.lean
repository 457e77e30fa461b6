/-!
# Doubles

A double is the 64 bits of a number in binary64. `Float` computes with those that are numbers, but has
one NaN only, while the total order tells NaNs apart by their sign and their other bits. So a NaN is
handed on by every operation as it stands, made quiet, the first operand before the second; and where
numbers have no result, the NaN has its sign bit set.
-/

namespace DiceScript

structure Double where
  bits : UInt64
deriving DecidableEq

namespace Double

def toFloat (x : Double) : Float :=
  Float.ofBits x.bits

def ofFloat (x : Float) : Double :=
  ⟨x.toBits⟩

def isNaN (x : Double) : Bool :=
  x.toFloat.isNaN

def isFinite (x : Double) : Bool :=
  x.toFloat.isFinite

/-- The NaN with a sign and no other bits set than it takes. -/
def nan (negative : Bool) : Double :=
  ⟨if negative then 0xfff8_0000_0000_0000 else 0x7ff8_0000_0000_0000⟩

/-- A NaN as operations hand it on. -/
def quiet (x : Double) : Double :=
  ⟨x.bits ||| 0x0008_0000_0000_0000⟩

/-- An operation on numbers, for all doubles. -/
def lift (f : Float → Float → Float) (x y : Double) : Double :=
  if x.isNaN then x.quiet
  else if y.isNaN then y.quiet
  else
    let z := f x.toFloat y.toFloat
    if z.isNaN then nan true else ofFloat z

/-- One to any power, and any power of zero, is one for NaN too. -/
def pow (x y : Double) : Double :=
  if x.toFloat == 1 || y.toFloat == 0 then ofFloat 1 else lift Float.pow x y

/-- The other sign, of a NaN too. -/
def neg (x : Double) : Double :=
  ⟨x.bits ^^^ 0x8000_0000_0000_0000⟩

def abs (x : Double) : Double :=
  ⟨x.bits &&& 0x7fff_ffff_ffff_ffff⟩

end Double

instance : Add Double := ⟨.lift (· + ·)⟩

instance : Sub Double := ⟨.lift (· - ·)⟩

instance : Mul Double := ⟨.lift (· * ·)⟩

instance : Div Double := ⟨.lift (· / ·)⟩

instance : Neg Double := ⟨.neg⟩

instance : BEq Double := ⟨fun x y => x.toFloat == y.toFloat⟩

instance : LT Double := ⟨fun x y => x.toFloat < y.toFloat⟩

instance : LE Double := ⟨fun x y => x.toFloat ≤ y.toFloat⟩

instance (x y : Double) : Decidable (x < y) :=
  inferInstanceAs (Decidable (x.toFloat < y.toFloat))

instance (x y : Double) : Decidable (x ≤ y) :=
  inferInstanceAs (Decidable (x.toFloat ≤ y.toFloat))

end DiceScript
