import DiceScript.Assembly
import DiceScript.Json.Reader
import DiceScript.Text.Blank
import DiceScript.Text.Line

/-!
# Listings

The text of symbolic code, one item a line: `:name` defines a label, and an instruction is a
mnemonic with its operand. A hand-written listing may be laid out freely, write mnemonics in any
case, and end a line with a comment after `;`.
-/

namespace DiceScript

namespace Listing

/-- Whole numbers below a million billion are written as integers. -/
def numberText (x : Double) : String :=
  if Binary64.isWhole x && x.abs < 1e15 then toString (Binary64.toInt64 x) else plainText x

def quote (s : String) : String :=
  String.ofList (Quoted.encode s.toList)

def operandText : Operand → String
  | .none => ""
  | .int n => " " ++ toString n
  | .num x => " " ++ numberText x
  | .text s => " " ++ quote s
  | .label l => " " ++ l.text

def itemText : Item → String
  | .label l => l.text
  | .instr op operand => "    " ++ op.mnemonic ++ operandText operand

def print (items : List Item) : String :=
  String.join (items.map fun i => itemText i ++ "\n")

/-- Where a comment stripper stands in a line. -/
inductive Scanning where
  | outside
  | inside
  | escaped
deriving DecidableEq

/-- The line before its comment. A semicolon in a quoted text begins none. -/
def stripComment : Scanning → List Char → List Char
  | _, [] => []
  | .escaped, c :: rest => c :: stripComment .inside rest
  | .inside, c :: rest =>
    if c = '\\' then c :: stripComment .escaped rest
    else if c = '"' then c :: stripComment .outside rest
    else c :: stripComment .inside rest
  | .outside, c :: rest =>
    if c = ';' then []
    else if c = '"' then c :: stripComment .inside rest
    else c :: stripComment .outside rest

/-- Labels are numbered by their first mention. -/
def labelOf (names : List (List Char)) (name : List Char) : List (List Char) × Label :=
  match names.findIdx? (· = name) with
  | some i => (names, ⟨i⟩)
  | none => (names ++ [name], ⟨names.length⟩)

/-- The operand of an opcode, and the label names met so far. -/
def readOperand? (names : List (List Char)) (op : Opcode) (text : List Char) :
    Option (List (List Char) × Operand) :=
  match op.operandKind with
  | .none => if text = [] then some (names, .none) else none
  | .int => (Reader.int64? text).map fun n => (names, .int n)
  | .num => (Reader.float? text).map fun x => (names, .num x)
  | .text => (Json.readString? text).map fun s => (names, .text s)
  | .address =>
    match text with
    | ':' :: c :: name =>
      let (names, l) := labelOf names (c :: name)
      some (names, .label l)
    | _ => none

def readLine? (names : List (List Char)) (number : Nat) (raw : List Char) :
    Except AssemblyError (List (List Char) × Option Item) :=
  let malformed := AssemblyError.malformedLine number (String.ofList raw)
  match trim (stripComment .outside raw) with
  | [] => .ok (names, none)
  | ':' :: name =>
    if name = [] ∨ name.any isBlank then .error malformed
    else
      let (names, l) := labelOf names name
      .ok (names, some (.label l))
  | line =>
    let (word, rest) := cutAtBlank line
    match Opcode.ofMnemonic? (String.ofList (word.map Char.toUpper)) with
    | none => .error (.unknownMnemonic (String.ofList word) number)
    | some op =>
      match readOperand? names op rest with
      | none => .error malformed
      | some (names, operand) => .ok (names, some (.instr op operand))

def readLines (names : List (List Char)) (number : Nat) :
    List (List Char) → Except AssemblyError (List Item)
  | [] => .ok []
  | raw :: rest => do
    let (names, item) ← readLine? names number raw
    let items ← readLines names (number + 1) rest
    return item.toList ++ items

/-- The items that a listing denotes, or its first bad line. -/
def read (text : String) : Except AssemblyError (List Item) :=
  readLines [] 1 (lines text.toList)

end Listing

end DiceScript
