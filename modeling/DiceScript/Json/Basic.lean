import DiceScript.Json.Quoted
import DiceScript.Number.Decimal

/-!
# JSON values and their texts

Objects keep the order of their fields. There are two layouts: on one line without spaces, and
indented by two spaces a level.
-/

namespace DiceScript

inductive Json where
  | null
  | bool (value : Bool)
  | int (value : Int)
  | real (value : Double)
  | string (value : String)
  | array (items : List Json)
  | object (fields : List (String × Json))

namespace Json

def intText (n : Int) : List Char :=
  if n < 0 then '-' :: Nat.toDigits 10 n.natAbs else Nat.toDigits 10 n.natAbs

/-- A double that is not finite has no number text and is written as null. -/
def realText (x : Double) : List Char :=
  match Binary64.read x with
  | .finite _ => finiteText .json x
  | _ => "null".toList

def stringText (s : String) : List Char :=
  Quoted.encode s.toList

mutual

/-- The text on one line. -/
def compactChars : Json → List Char
  | null => "null".toList
  | bool true => "true".toList
  | bool false => "false".toList
  | int n => intText n
  | real x => realText x
  | string s => stringText s
  | array [] => ['[', ']']
  | array (v :: vs) => '[' :: (compactChars v ++ compactItems vs)
  | object [] => ['\x7b', '\x7d']
  | object ((k, v) :: fields) =>
    '\x7b' :: (stringText k ++ ':' :: (compactChars v ++ compactFields fields))

/-- The items after the first, and the closing bracket. -/
def compactItems : List Json → List Char
  | [] => [']']
  | v :: vs => ',' :: (compactChars v ++ compactItems vs)

/-- The fields after the first, and the closing brace. -/
def compactFields : List (String × Json) → List Char
  | [] => ['\x7d']
  | (k, v) :: fields => ',' :: (stringText k ++ ':' :: (compactChars v ++ compactFields fields))

end

/-- The start of a new line at a level of indentation. -/
def newline (level : Nat) : List Char :=
  '\n' :: List.replicate (2 * level) ' '

mutual

/-- The indented text, starting at a level of indentation. -/
def prettyChars (level : Nat) : Json → List Char
  | array (v :: vs) =>
    '[' :: (newline (level + 1) ++ prettyChars (level + 1) v ++ prettyItems level vs)
  | object ((k, v) :: fields) =>
    '\x7b' :: (newline (level + 1) ++ stringText k ++
      ':' :: ' ' :: (prettyChars (level + 1) v ++ prettyFields level fields))
  | v => compactChars v

def prettyItems (level : Nat) : List Json → List Char
  | [] => newline level ++ [']']
  | v :: vs => ',' :: (newline (level + 1) ++ prettyChars (level + 1) v ++ prettyItems level vs)

def prettyFields (level : Nat) : List (String × Json) → List Char
  | [] => newline level ++ ['\x7d']
  | (k, v) :: fields =>
    ',' :: (newline (level + 1) ++ stringText k ++
      ':' :: ' ' :: (prettyChars (level + 1) v ++ prettyFields level fields))

end

def compact (v : Json) : String :=
  String.ofList (compactChars v)

def pretty (v : Json) : String :=
  String.ofList (prettyChars 0 v)

end Json

end DiceScript
