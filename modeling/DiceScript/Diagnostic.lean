import DiceScript.Compile
import DiceScript.Machine

/-!
# Diagnostics

What is told about an error: where it arose, a message, perhaps a labelled place in the source,
notes, and a suggestion.
-/

namespace DiceScript

inductive Phase where
  | parse
  | assembly
  | runtime
deriving DecidableEq, Repr

def Phase.name : Phase → String
  | parse => "parse"
  | assembly => "assembly"
  | runtime => "runtime"

/-- A place in the source and what is said about it. -/
structure Remark where
  span : Span
  message : String
deriving DecidableEq, Repr

structure Diagnostic where
  phase : Phase
  message : String
  label : Option Remark
  notes : List String
  suggestion : Option String
  source : Option String
deriving DecidableEq, Repr

namespace Diagnostic

def plain (phase : Phase) (message : String) : Diagnostic :=
  ⟨phase, message, none, [], none, none⟩

def withSource (d : Diagnostic) (source : String) : Diagnostic :=
  { d with source := some source }

def ofParseError (e : ParseError) : Diagnostic :=
  match e.found with
  | some text =>
    { plain .parse e.message with label := some ⟨e.span, "found '" ++ text ++ "'"⟩ }
  | none =>
    { plain .parse e.message with
      label := some ⟨e.span, "input ends here"⟩
      suggestion := some "check for a missing ')', ']' or '\x7d'" }

def ofAssemblyError (e : AssemblyError) : Diagnostic :=
  plain .assembly e.message

def ofRuntimeError (e : RuntimeError) : Diagnostic :=
  let d := plain .runtime e.message
  match e.fault with
  | .unknownHandle r =>
    let advice := "open the file first with ^path@" ++ r.text ++ " or vpath@" ++ r.text
    { d with suggestion := some advice }
  | .divisionByZero _ => { d with notes := ["the right-hand side evaluated to 0"] }
  | .endOfInput => { d with notes := ["no more lines were available to read"] }
  | _ => d

def ofCompileError : CompileError → Diagnostic
  | .parse e => ofParseError e
  | .assembly e => ofAssemblyError e

end Diagnostic

end DiceScript
