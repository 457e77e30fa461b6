import DiceScript.Json.Basic
import DiceScript.Number.Reader

/-!
# Reading JSON

A text is read as one value with white space around it. A number without fraction and exponent that
fits 64 bits is read as an integer. Any other number keeps a significand of at most 64 bits and is
scaled by powers of ten, so a long decimal may be read as a neighbour of the nearest double. A
number too large for a double is read as infinity, and a quoted text is kept as it is written, even
where it denotes none: both are for the caller to refuse.
-/

namespace DiceScript.Json

/-- A value with the bodies of its quoted texts as they are written. -/
inductive Written where
  | null
  | bool (value : Bool)
  | int (value : Int)
  | real (value : Double)
  | string (body : List Char)
  | array (items : List Written)
  | object (fields : List (List Char × Written))

def isSpace (c : Char) : Bool :=
  c == ' ' || c == '\n' || c == '\t' || c == '\r'

def skipSpace (text : List Char) : List Char :=
  text.dropWhile isSpace

/-- Append digits to a significand while it fits 64 bits. The second part is what was left out. -/
def absorb (significand : Nat) : List Char → Nat × List Char
  | [] => (significand, [])
  | c :: ds =>
    let next := significand * 10 + Reader.digitValue c
    if next < 0x1_0000_0000_0000_0000 then absorb next ds else (significand, c :: ds)

def powerOfTen (k : Nat) : Double :=
  Binary64.ofDecimal false 1 k

/-- `x * 10 ^ e` in steps of at most 308. -/
def scale (x : Double) (e : Int) : Double :=
  if e < -308 then
    if x == 0 then x else scale (x / powerOfTen 308) (e + 308)
  else if e < 0 then x / powerOfTen (-e).toNat
  else if e ≤ 308 then x * powerOfTen e.toNat
  else if x == 0 then x
  else Binary64.ofMagnitude false Binary64.infinityBits
termination_by (-e).toNat
decreasing_by omega

/-- The exponent after its `e`: an optional sign and digits. -/
def exponent? (text : List Char) : Option (Int × List Char) :=
  let (negative, rest) := Reader.sign text
  let (ds, rest) := Reader.digits rest
  if ds = [] then none
  else
    let n : Int := Reader.digitsValue ds
    some (if negative then -n else n, rest)

/-- The fraction after its point, joined to a significand and a decimal exponent. -/
def fraction? (significand : Nat) (exponent : Int) (text : List Char) :
    Option (Nat × Int × List Char) :=
  let (ds, rest) := Reader.digits text
  if ds = [] then none
  else
    let (significand, left) := absorb significand ds
    some (significand, exponent - (ds.length - left.length), rest)

/-- The number with a significand and a decimal exponent. An exponent of 32 bits or more decides
alone, whatever stands before it. -/
def assemble (negative : Bool) (significand : Nat) (start e : Int) : Double :=
  let x :=
    if significand = 0 ∨ e ≤ -0x8000_0000 then 0
    else if 0x8000_0000 ≤ e then Binary64.ofMagnitude false Binary64.infinityBits
    else scale (Binary64.ofNat significand) (start + e)
  if negative then -x else x

/-- A number at the start of a text, its sign already taken. -/
def unsigned? (negative : Bool) (text : List Char) : Option (Written × List Char) := do
  let (ds, rest) := Reader.digits text
  if ds = [] ∨ (ds.head? = some '0' ∧ ds.length ≠ 1) then none
  else
    let (significand, left) := absorb 0 ds
    match rest with
    | '.' :: rest =>
      let (significand, exponent, rest) ← fraction? significand left.length rest
      match rest with
      | c :: rest' =>
        if c = 'e' ∨ c = 'E' then
          let (e, rest') ← exponent? rest'
          some (.real (assemble negative significand exponent e), rest')
        else
          some (.real (assemble negative significand exponent 0), rest)
      | [] => some (.real (assemble negative significand exponent 0), rest)
    | c :: rest' =>
      if c = 'e' ∨ c = 'E' then
        let (e, rest') ← exponent? rest'
        some (.real (assemble negative significand left.length e), rest')
      else
        whole significand left rest
    | [] => whole significand left rest
where
  whole (significand : Nat) (left rest : List Char) : Option (Written × List Char) :=
    if left ≠ [] then
      some (.real (assemble negative significand left.length 0), rest)
    else if !negative then some (.int significand, rest)
    else if significand = 0 ∨ 0x8000_0000_0000_0000 < significand then
      some (.real (-Binary64.ofNat significand), rest)
    else some (.int (-significand), rest)

def number? : List Char → Option (Written × List Char)
  | '-' :: rest => unsigned? true rest
  | text => unsigned? false text

/-- Drop a word at the start of a text. -/
def dropWord? (word : List Char) (text : List Char) : Option (List Char) :=
  if word.isPrefixOf text then some (text.drop word.length) else none

mutual

/-- A value at the start of a text that begins with no space. -/
def value? : Nat → List Char → Option (Written × List Char)
  | 0, _ => none
  | fuel + 1, text =>
    match text with
    | [] => none
    | c :: rest =>
      if c = '\x7b' then
        match skipSpace rest with
        | '\x7d' :: rest => some (.object [], rest)
        | rest => (fields? fuel rest).map fun r => (.object r.1, r.2)
      else if c = '[' then
        match skipSpace rest with
        | ']' :: rest => some (.array [], rest)
        | rest => (items? fuel rest).map fun r => (.array r.1, r.2)
      else if c = '"' then (Quoted.scan? rest).map fun r => (.string r.1, r.2)
      else if c = 'n' then (dropWord? "ull".toList rest).map (.null, ·)
      else if c = 't' then (dropWord? "rue".toList rest).map (.bool true, ·)
      else if c = 'f' then (dropWord? "alse".toList rest).map (.bool false, ·)
      else number? text

/-- The items of an array from one item on, and its closing bracket. -/
def items? : Nat → List Char → Option (List Written × List Char)
  | 0, _ => none
  | fuel + 1, text => do
    let (v, rest) ← value? fuel text
    match skipSpace rest with
    | ']' :: rest => some ([v], rest)
    | ',' :: rest =>
      let (vs, rest) ← items? fuel (skipSpace rest)
      some (v :: vs, rest)
    | _ => none

/-- The fields of an object from one field on, and its closing brace. -/
def fields? : Nat → List Char → Option (List (List Char × Written) × List Char)
  | 0, _ => none
  | _ + 1, [] => none
  | fuel + 1, c :: rest => do
    if c ≠ '"' then none
    else
      let (k, rest) ← Quoted.scan? rest
      match skipSpace rest with
      | ':' :: rest =>
        let (v, rest) ← value? fuel (skipSpace rest)
        match skipSpace rest with
        | '\x7d' :: rest => some ([(k, v)], rest)
        | ',' :: rest =>
          let (fields, rest) ← fields? fuel (skipSpace rest)
          some ((k, v) :: fields, rest)
        | _ => none
      | _ => none

end

/-- The value written in a whole text. -/
def read? (text : List Char) : Option Written := do
  let (v, rest) ← value? (2 * text.length + 1) (skipSpace text)
  if skipSpace rest = [] then some v else none

/-- A text in which one quoted text stands alone, white space aside. -/
def readString? (text : List Char) : Option String := do
  let (s, rest) ← Quoted.read? (skipSpace text)
  if skipSpace rest = [] then some (String.ofList s) else none

end DiceScript.Json
