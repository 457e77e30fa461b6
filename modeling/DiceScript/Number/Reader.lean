import DiceScript.Number.Binary64

/-!
# Reading numbers

The texts that denote a number: decimals with an optional fraction and exponent, the words for
infinity and NaN, and whole numbers with a bounded range.
-/

namespace DiceScript.Reader

def digitValue (c : Char) : Nat :=
  c.toNat - '0'.toNat

def digitsValue (ds : List Char) : Nat :=
  ds.foldl (fun n c => n * 10 + digitValue c) 0

/-- The digits at the start, and the rest. -/
def digits (text : List Char) : List Char × List Char :=
  (text.takeWhile Char.isDigit, text.dropWhile Char.isDigit)

/-- An optional sign: is it a minus, and the rest. -/
def sign : List Char → Bool × List Char
  | '-' :: rest => (true, rest)
  | '+' :: rest => (false, rest)
  | text => (false, text)

/-- A non-empty run of digits that is the whole text. -/
def whole? (text : List Char) : Option Nat :=
  if text ≠ [] ∧ text.all Char.isDigit then some (digitsValue text) else none

/-- The exponent part of a decimal, if the text is empty or one. -/
def exponent? : List Char → Option Int
  | [] => some 0
  | c :: rest =>
    if c = 'e' ∨ c = 'E' then
      (whole? (sign rest).2).map fun n => if (sign rest).1 then -(n : Int) else n
    else
      none

/-- Digits, then perhaps a point and more digits, then perhaps an exponent. One digit before the
exponent is needed, on either side of the point. -/
def decimal? (negative : Bool) (text : List Char) : Option Double := do
  let (integral, rest) := digits text
  let (fraction, rest) :=
    match rest with
    | '.' :: rest => digits rest
    | rest => ([], rest)
  if integral = [] ∧ fraction = [] then none
  else
    let exponent ← exponent? rest
    some (Binary64.ofDecimal negative (digitsValue (integral ++ fraction))
      (exponent - fraction.length))

def float? (text : List Char) : Option Double :=
  let (negative, rest) := sign text
  let word := rest.map Char.toLower
  if word = "inf".toList ∨ word = "infinity".toList then
    some (Binary64.ofMagnitude negative Binary64.infinityBits)
  else if word = "nan".toList then
    some (.nan negative)
  else
    decimal? negative rest

/-- A whole number with an optional sign, in the range of 64 bits with sign. -/
def int64? (text : List Char) : Option Int := do
  let n ← whole? (sign text).2
  let value : Int := if (sign text).1 then -(n : Int) else n
  if -0x8000_0000_0000_0000 ≤ value ∧ value < 0x8000_0000_0000_0000 then some value else none

/-- A whole number with an optional plus, in the range of 64 bits without sign. -/
def nat64? (text : List Char) : Option Nat := do
  let n ← whole? (match text with | '+' :: rest => rest | _ => text)
  if n < 0x1_0000_0000_0000_0000 then some n else none

end DiceScript.Reader
