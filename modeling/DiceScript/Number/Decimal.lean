import DiceScript.Number.Binary64

/-!
# Decimal texts of binary64 numbers

The shortest decimal that reads back to a given double is found by going through the decimal grids
from coarse to fine: the first grid on which one of the two neighbours of the number reads back to
it gives the digits. How those digits are laid out is one record, `Style`.
-/

namespace DiceScript

/-- The number `digits * 10 ^ exponent`. -/
structure Decimal where
  digits : Nat
  exponent : Int
deriving DecidableEq

namespace Decimal

/-- Which of two equally near neighbours is written. -/
inductive Tie where
  | toEven
  | upward
deriving DecidableEq

/-- `c * 10 ^ e` reads back to the double with the given magnitude bits. -/
def readsBack (bits : Nat) (e : Int) (c : Nat) : Bool :=
  Binary64.nearestMagnitude (c * Nat.pow 10 e.toNat) (Nat.pow 10 (-e).toNat) == bits

/-- The neighbour of `n / d` on the grid of multiples of `10 ^ e` that reads back to it, the nearer
one of two. -/
def onGrid? (tie : Tie) (bits n d : Nat) (e : Int) : Option Nat :=
  let n := n * Nat.pow 10 (-e).toNat
  let d := d * Nat.pow 10 e.toNat
  let below := n / d
  match readsBack bits e below, readsBack bits e (below + 1) with
  | true, true =>
    match compare (2 * (n % d)) d, tie with
    | .lt, _ => some below
    | .gt, _ => some (below + 1)
    | .eq, .toEven => some (below + below % 2)
    | .eq, .upward => some (below + 1)
  | true, false => some below
  | false, true => some (below + 1)
  | false, false => none

/-- Search the grids with exponents `k - 1074` and below. Every finite double lies on the last of
them. -/
def search (tie : Tie) (bits n d : Nat) : Nat → Decimal
  | 0 => ⟨n * Nat.pow 10 1074 / d, -1074⟩
  | k + 1 =>
    match onGrid? tie bits n d ((k + 1 : Nat) - 1074) with
    | some c => ⟨c, (k + 1 : Nat) - 1074⟩
    | none => search tie bits n d k

/-- A decimal exponent above that of every decimal near `significand * 2 ^ exponent`. -/
def coarsest (significand : Nat) (exponent : Int) : Int :=
  ((significand.log2 : Int) + exponent + 2) * 30103 / 100000 + 1

/-- The shortest decimal that reads back to the finite magnitude bits. -/
def shortest (tie : Tie) (bits : Nat) : Decimal :=
  if bits = 0 then ⟨0, 0⟩
  else
    let s := Binary64.splitMagnitude bits
    search tie bits (s.1 * Nat.pow 2 s.2.toNat) (Nat.pow 2 (-s.2).toNat)
      (coarsest s.1 s.2 + 1074).toNat

/-- The layout of a decimal: which exponents of the leading digit are written out in full, and what
follows a whole number. -/
structure Style where
  tie : Tie
  positional : Int → Bool
  wholeEnding : String

/-- All digits in full. -/
def Style.plain : Style where
  tie := .upward
  positional := fun _ => true
  wholeEnding := ""

/-- Exponents from -5 to 15 in full, with at least one digit after the point; others as `d.de+n`. -/
def Style.json : Style where
  tie := .toEven
  positional := fun e => -5 ≤ e && e < 16
  wholeEnding := ".0"

/-- Digits `ds` with the point after the first `k` of them. -/
def pointAfter (ds : List Char) (k : Int) (wholeEnding : String) : List Char :=
  if k ≤ 0 then
    '0' :: '.' :: (List.replicate (-k).toNat '0' ++ ds)
  else if ds.length ≤ k.toNat then
    ds ++ List.replicate (k.toNat - ds.length) '0' ++ wholeEnding.toList
  else
    ds.take k.toNat ++ '.' :: ds.drop k.toNat

def layout (style : Style) (x : Decimal) : List Char :=
  let ds := Nat.toDigits 10 x.digits
  let lead : Int := ds.length + x.exponent - 1
  if style.positional lead then
    pointAfter ds (lead + 1) style.wholeEnding
  else
    let sign := if lead < 0 then '-' else '+'
    pointAfter ds 1 "" ++ 'e' :: sign :: Nat.toDigits 10 lead.natAbs

end Decimal

/-- The text of a finite double: sign, then the shortest digits that read back. -/
def finiteText (style : Decimal.Style) (x : Double) : List Char :=
  let digits := Decimal.layout style (Decimal.shortest style.tie (Binary64.magnitude x))
  if Binary64.isNegative x then '-' :: digits else digits

/-- The text of any double in plain digits. -/
def plainText (x : Double) : String :=
  match Binary64.read x with
  | .nan => "NaN"
  | .infinite negative => if negative then "-inf" else "inf"
  | .finite _ => String.ofList (finiteText .plain x)

end DiceScript
