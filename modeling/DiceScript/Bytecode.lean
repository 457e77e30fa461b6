import DiceScript.Assembly.Listing

/-!
# Programs as texts and as JSON

A program is shown one addressed instruction a line, and saved as JSON from which it can be loaded
again.
-/

namespace DiceScript

namespace Instruction

def text (i : Instruction) : String :=
  match i.imm with
  | .none => i.op.mnemonic
  | .int n => i.op.mnemonic ++ " " ++ toString n
  | .num x => i.op.mnemonic ++ " " ++ Listing.numberText x
  | .text s => i.op.mnemonic ++ " " ++ Listing.quote s
  | .address target => i.op.mnemonic ++ " @" ++ toString target

/-- An absent immediate is left out. -/
def toJson (i : Instruction) : Json :=
  .object (("op", .string i.op.mnemonic) ::
    match i.imm with
    | .none => []
    | .int n => [("imm", .object [("Int", .int n)])]
    | .num x => [("imm", .object [("Num", .real x)])]
    | .text s => [("imm", .object [("Str", .string s)])]
    | .address target => [("imm", .object [("Addr", .int target)])])

end Instruction

namespace Json.Written

/-- The text that a body between quotes denotes. -/
def text? (body : List Char) : Option String :=
  (Quoted.decode? body).map String.ofList

/-- Fields with their names, all of which have to denote texts. -/
def named? (fields : List (List Char × Written)) : Option (List (String × Written)) :=
  fields.mapM fun f => (text? f.1).map (·, f.2)

/-- The value of a field that is there exactly once. -/
def field? (fields : List (String × Written)) (name : String) : Option Written :=
  match fields.filter (·.1 = name) with
  | [(_, v)] => some v
  | _ => none

/-- The name and the content of a choice: a name alone has no content. -/
def variant? : Written → Option (String × Written)
  | string name => (text? name).map (·, null)
  | object [(name, content)] => (text? name).map (·, content)
  | _ => none

def opcode? (v : Written) : Option Opcode :=
  match v.variant? with
  | some (name, null) => Opcode.ofMnemonic? name
  | _ => none

/-- An integer where a double is expected is rounded to the nearest one. A double has to be
finite. -/
def immediate? (v : Written) : Option Immediate :=
  match v.variant? with
  | some ("None", null) => some .none
  | some ("Int", int n) =>
    if -0x8000_0000_0000_0000 ≤ n ∧ n < 0x8000_0000_0000_0000 then some (.int n) else none
  | some ("Num", int n) => some (.num (Binary64.ofInt n))
  | some ("Num", real x) => if x.isFinite then some (.num x) else none
  | some ("Str", string body) => (text? body).map .text
  | some ("Addr", int n) => if 0 ≤ n then some (.address n.toNat) else none
  | _ => none

/-- An instruction may be an object, or an array of its parts in order. -/
def instruction? : Written → Option Instruction
  | object fields => do
    let fields ← named? fields
    let op ← (← field? fields "op").opcode?
    if fields.any (·.1 = "imm") then
      let imm ← (← field? fields "imm").immediate?
      return ⟨op, imm⟩
    else
      return ⟨op, .none⟩
  | array [op] => op.opcode?.map (⟨·, .none⟩)
  | array [op, imm] => do return ⟨← op.opcode?, ← imm.immediate?⟩
  | _ => none

def code? : Written → Option (List Instruction)
  | array items => items.mapM instruction?
  | _ => none

def program? : Written → Option Program
  | object fields => do
    let code ← field? (← named? fields) "code"
    return ⟨← code.code?⟩
  | array [code] => code.code?.map (⟨·⟩)
  | _ => none

end Json.Written

namespace Program

/-- An address, with at least four digits. -/
def addressText (n : Nat) : String :=
  let ds := Nat.toDigits 10 n
  String.ofList (List.replicate (4 - ds.length) '0' ++ ds)

def linesFrom (address : Nat) : List Instruction → List String
  | [] => []
  | i :: is => (addressText address ++ " " ++ i.text) :: linesFrom (address + 1) is

def lines (p : Program) : List String :=
  linesFrom 0 p.code

def toJson (p : Program) : Json :=
  .object [("code", .array (p.code.map Instruction.toJson))]

def ofJson? (text : String) : Option Program :=
  (Json.read? text.toList).bind Json.Written.program?

end Program

end DiceScript
