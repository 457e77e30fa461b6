import DiceScript.Json.Basic
import DiceScript.Number.Reader
import DiceScript.Text.Blank

/-!
# Values

What a running program computes with: numbers, texts, and lists of values. A value has a text, a
truth, and often a number.
-/

namespace DiceScript

inductive Value where
  | number (x : Double)
  | text (s : String)
  | list (items : List Value)

instance : Inhabited Value := ⟨.number 0⟩

namespace Value

mutual

def decEq : (v w : Value) → Decidable (v = w)
  | number x, number y => decidable_of_iff (x = y) (by simp)
  | text s, text t => decidable_of_iff (s = t) (by simp)
  | list vs, list ws =>
    match decEqItems vs ws with
    | isTrue h => isTrue (congrArg list h)
    | isFalse h => isFalse fun hlist => h (list.inj hlist)
  | number _, text _ | number _, list _ | text _, number _ | text _, list _ | list _, number _
  | list _, text _ => isFalse nofun

def decEqItems : (vs ws : List Value) → Decidable (vs = ws)
  | [], [] => isTrue rfl
  | v :: vs, w :: ws =>
    match decEq v w, decEqItems vs ws with
    | isTrue h, isTrue hs => isTrue (h ▸ hs ▸ rfl)
    | isFalse h, _ => isFalse fun hcons => h (List.cons.inj hcons).1
    | _, isFalse hs => isFalse fun hcons => hs (List.cons.inj hcons).2
  | [], _ :: _ | _ :: _, [] => isFalse nofun

end

instance : DecidableEq Value := decEq

end Value

/-- A double that equals a 64-bit integer is shown as that integer, any other in plain digits. -/
def numberDisplay (x : Double) : String :=
  let n := Binary64.toInt64 x
  if x == Binary64.ofInt n then toString n else plainText x

namespace Value

mutual

def display : Value → String
  | number x => numberDisplay x
  | text s => s
  | list [] => "[]"
  | list (v :: vs) => "[" ++ v.display ++ displayItems vs

def displayItems : List Value → String
  | [] => "]"
  | v :: vs => ", " ++ v.display ++ displayItems vs

end

def typeName : Value → String
  | number _ => "number"
  | text _ => "string"
  | list _ => "list"

/-- Zero, the empty text and the empty list are false. -/
def truthy : Value → Bool
  | number x => !(x == 0)
  | text s => s ≠ ""
  | list items => !items.isEmpty

/-- The finite number that a text denotes, white space aside. -/
def textNumber? (s : String) : Option Double :=
  (Reader.float? (trim s.toList)).filter Double.isFinite

mutual

/-- A list is the sum of its items. -/
def toNumber? : Value → Option Double
  | number x => some x
  | text s => textNumber? s
  | list items => sumFrom? 0 items

def sumFrom? (total : Double) : List Value → Option Double
  | [] => some total
  | v :: vs =>
    match v.toNumber? with
    | some x => sumFrom? (total + x) vs
    | none => none

end

mutual

/-- Equality part by part, numbers as numbers. -/
def same : Value → Value → Bool
  | number x, number y => x == y
  | text s, text t => s = t
  | list vs, list ws => sameItems vs ws
  | _, _ => false

def sameItems : List Value → List Value → Bool
  | [], [] => true
  | v :: vs, w :: ws => v.same w && sameItems vs ws
  | _, _ => false

end

/-- Two texts are compared as texts, other values as numbers where both are numbers. -/
def equals : Value → Value → Bool
  | text s, text t => s = t
  | v, w =>
    match v.toNumber?, w.toNumber? with
    | some x, some y => x == y
    | _, _ => v.same w

/-- The dice of a pool: the numbers of a list, or a lone number. -/
def pool? : Value → Option (List Double)
  | list items => items.mapM toNumber?
  | v => v.toNumber?.map ([·])

def ofPool (dice : List Double) : Value :=
  list (dice.map number)

def ofBool (b : Bool) : Value :=
  number (if b then 1 else 0)

mutual

def toJson : Value → Json
  | number x => .object [("Number", .real x)]
  | text s => .object [("Str", .string s)]
  | list items => .object [("List", .array (itemsToJson items))]

def itemsToJson : List Value → List Json
  | [] => []
  | v :: vs => v.toJson :: itemsToJson vs

end

end Value

/-- An address of the heap or of an open file. -/
structure Reference where
  count : Int
  sides : Int
deriving DecidableEq, Repr

def Reference.text (r : Reference) : String :=
  toString r.count ++ "d" ++ toString r.sides

end DiceScript
