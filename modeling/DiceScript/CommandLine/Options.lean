import DiceScript.Number.Reader
import DiceScript.Text.Line

/-!
# Options of the command line

The words of a command line are read from left to right. A word is an option, a value for the option
just before it, or the program to run. A value never starts with a dash, unless it is attached to
its option or is a dash alone.
-/

namespace DiceScript

/-- A form of the program that is shown instead of running it. -/
inductive Form where
  | ast
  | asm
  | bytecode
deriving DecidableEq, Repr

def Form.ofName? (name : String) : Option Form :=
  match name with
  | "ast" => some ast
  | "asm" => some asm
  | "bytecode" => some bytecode
  | _ => none

inductive ErrorFormat where
  | text
  | json
deriving DecidableEq, Repr

def ErrorFormat.ofName? (name : String) : Option ErrorFormat :=
  match name with
  | "text" => some text
  | "json" => some json
  | _ => none

inductive Input where
  | inline (text : String)
  | console
  | file (path : String)
deriving DecidableEq, Repr

/-- A dash stands for the console. -/
def Input.ofPath (path : String) : Input :=
  if path = "-" then console else file path

structure Options where
  input : Input
  seed : Option Nat
  emit : Option Form
  bytecode : Bool
  rerollPasses : Option Nat
  errorFormat : ErrorFormat
deriving DecidableEq, Repr

inductive Request where
  | help
  | version
  | run (options : Options)
deriving DecidableEq, Repr

/-- The options that take a value. -/
inductive Setting where
  | expr
  | seed
  | emit
  | maxRerolls
  | errorFormat
deriving DecidableEq, Repr

def Setting.name : Setting → String
  | expr => "expr"
  | seed => "seed"
  | emit => "emit"
  | maxRerolls => "max-rerolls"
  | errorFormat => "error-format"

def Setting.ofName? (name : String) : Option Setting :=
  [expr, seed, emit, maxRerolls, errorFormat].find? (·.name = name)

inductive UsageError where
  | unexpected (word : String)
  | missingValue (setting : Setting)
  | badValue (setting : Setting) (value : String)
  | repeated (name : String)
  | emptyPath
  | noInput
  | twoInputs
deriving DecidableEq, Repr

def UsageError.message : UsageError → String
  | unexpected word => "unexpected argument '" ++ word ++ "' found"
  | missingValue setting => "a value is required for '--" ++ setting.name ++ "'"
  | badValue setting value => "invalid value '" ++ value ++ "' for '--" ++ setting.name ++ "'"
  | repeated name => "the argument '--" ++ name ++ "' cannot be used multiple times"
  | emptyPath => "a value is required for '[FILE]'"
  | noInput => "no program was provided"
  | twoInputs => "the argument '[FILE]' cannot be used with '--expr <EXPR>'"

inductive Word where
  /-- Two dashes alone: no option comes after them. -/
  | escape
  | help
  | version
  | bytecode
  | setting (s : Setting) (attached : Option String)
  | unknown
  | plain
deriving DecidableEq, Repr

namespace Word

/-- A word after two dashes. What follows an equals sign is an attached value. -/
def ofLong (text : List Char) : Word :=
  match cutFirst '=' text with
  | (name, attached) =>
    match String.ofList name, attached with
    | "help", none => help
    | "version", none => version
    | "bytecode", none => bytecode
    | name, attached =>
      match Setting.ofName? name with
      | some s => setting s (attached.map String.ofList)
      | none => unknown

/-- A letter after one dash, and what follows it. The value attached to an option may have an equals
sign before it. -/
def ofShort (letter : Char) (rest : List Char) : Word :=
  match letter, rest with
  | 'h', _ => help
  | 'V', _ => version
  | 'e', [] => setting .expr none
  | 'e', '=' :: value => setting .expr (some (String.ofList value))
  | 'e', value => setting .expr (some (String.ofList value))
  | _, _ => unknown

def ofString (word : String) : Word :=
  match word.toList with
  | ['-', '-'] => escape
  | '-' :: '-' :: text => ofLong text
  | '-' :: letter :: rest => ofShort letter rest
  | _ => plain

end Word

/-- What the words read so far have given. -/
structure Given where
  path : Option String
  expr : Option String
  seed : Option Nat
  emit : Option Form
  bytecode : Bool
  rerollPasses : Option Nat
  errorFormat : Option ErrorFormat

namespace Given

def nothing : Given :=
  ⟨none, none, none, none, false, none, none⟩

def withPath (g : Given) (path : String) : Except UsageError Given :=
  if g.path.isSome then .error (.unexpected path)
  else if path = "" then .error .emptyPath
  else .ok { g with path := some path }

def withBytecode (g : Given) : Except UsageError Given :=
  if g.bytecode then .error (.repeated "bytecode") else .ok { g with bytecode := true }

/-- The value of an option that has not been given one before. -/
def fresh {α : Type} (old : Option α) (s : Setting) (text : String) (value : Option α) :
    Except UsageError (Option α) :=
  match value with
  | none => .error (.badValue s text)
  | some a => if old.isSome then .error (.repeated s.name) else .ok (some a)

def withSetting (g : Given) (s : Setting) (text : String) : Except UsageError Given :=
  match s with
  | .expr => (fresh g.expr s text (some text)).map fun x => { g with expr := x }
  | .seed => (fresh g.seed s text (Reader.nat64? text.toList)).map fun x => { g with seed := x }
  | .emit => (fresh g.emit s text (Form.ofName? text)).map fun x => { g with emit := x }
  | .maxRerolls =>
    (fresh g.rerollPasses s text (Reader.nat64? text.toList)).map fun x =>
      { g with rerollPasses := x }
  | .errorFormat =>
    (fresh g.errorFormat s text (ErrorFormat.ofName? text)).map fun x =>
      { g with errorFormat := x }

/-- Exactly one of a path and an inline program is needed. -/
def request (g : Given) : Except UsageError Request :=
  let withInput (input : Input) : Request :=
    .run ⟨input, g.seed, g.emit, g.bytecode, g.rerollPasses, g.errorFormat.getD .text⟩
  match g.path, g.expr with
  | some path, none => .ok (withInput (.ofPath path))
  | none, some text => .ok (withInput (.inline text))
  | none, none => .error .noInput
  | some _, some _ => .error .twoInputs

/-- Read the words that are left. Asking for help or the version ends the reading. -/
def read (g : Given) : List String → Except UsageError Request
  | [] => g.request
  | word :: words =>
    match Word.ofString word with
    | .plain => (g.withPath word).bind (read · words)
    | .escape => (words.foldlM withPath g).bind request
    | .help => .ok .help
    | .version => .ok .version
    | .bytecode => g.withBytecode.bind (read · words)
    | .unknown => .error (.unexpected word)
    | .setting s (some value) => (g.withSetting s value).bind (read · words)
    | .setting s none =>
      match words with
      | [] => .error (.missingValue s)
      | value :: words =>
        if Word.ofString value = .plain then (g.withSetting s value).bind (read · words)
        else .error (.missingValue s)

end Given

def Request.ofWords (words : List String) : Except UsageError Request :=
  Given.nothing.read words

end DiceScript
