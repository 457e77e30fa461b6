import DiceScript.Bytecode
import DiceScript.CommandLine.Options
import DiceScript.Diagnostic.Json
import DiceScript.Diagnostic.Snippet
import DiceScript.Machine.Run
import DiceScript.Syntax.Json

/-!
# The command line

A command line names a program, which is run with the console and the files of a shell, or shown in
another form. Errors go to the console for errors. The exit code is 0 for success, 1 for a program
that cannot be read, compiled or run to its end, 2 for a wrong use of the command line, and 101 when
the other form cannot be shown.
-/

namespace DiceScript

/-- What is to be done with a program that has been read. -/
inductive Task where
  | display (text : String)
  | execute (p : Program)

inductive InputError where
  | notBytecode
  | diagnostic (d : Diagnostic)

def Task.ofProgram (emit : Option Form) (p : Program) : Task :=
  if emit = some .bytecode then display (p.toJson.pretty ++ "\n") else execute p

/-- Only source has a tree and a listing to show. -/
def Task.ofSource (emit : Option Form) (source : String) : Except InputError Task :=
  match parse (tokenize source) with
  | .error e => .error (.diagnostic ((Diagnostic.ofParseError e).withSource source))
  | .ok script =>
    let items := script.items .discard
    match emit with
    | some .ast => .ok (display (script.tree.toJson.pretty ++ "\n"))
    | some .asm => .ok (display (Listing.print items))
    | _ =>
      match assemble items with
      | .error e => .error (.diagnostic (.ofAssemblyError e))
      | .ok p => .ok (ofProgram emit p)

def Options.task (o : Options) (text : String) : Except InputError Task :=
  if o.bytecode then
    match Program.ofJson? text with
    | some p => .ok (.ofProgram o.emit p)
    | none => .error .notBytecode
  else
    Task.ofSource o.emit text

def Options.limits (o : Options) : Limits :=
  { Limits.standard with
    rerollPasses := o.rerollPasses.getD Limits.standard.rerollPasses }

namespace CommandLine

def versionText : String :=
  "dicelang 0.1.0\n"

def usageText : String :=
  "Usage: dicelang [OPTIONS] <FILE|--expr <EXPR>>\n"

def helpText : String :=
  "Compile and run dice-rolling programs\n\n" ++ usageText ++ "\n" ++
  "Arguments:\n" ++
  "  [FILE]  Source file, or `-` to read the program from stdin\n\n" ++
  "Options:\n" ++
  "  -e, --expr <EXPR>                  Program text given inline\n" ++
  "      --seed <SEED>                  Seed the random generator for reproducible rolls\n" ++
  "      --emit <EMIT>                  Print an intermediate form instead of running " ++
  "[possible values: ast, asm, bytecode]\n" ++
  "      --bytecode                     " ++
  "Treat the input as bytecode JSON produced by `--emit bytecode`\n" ++
  "      --max-rerolls <MAX_REROLLS>    " ++
  "Maximum passes for a repeating reroll (`r`) [default: 100]\n" ++
  "      --error-format <ERROR_FORMAT>  " ++
  "[default: text] [possible values: text, json]\n" ++
  "  -h, --help                         Print help\n" ++
  "  -V, --version                      Print version\n"

variable {m : Type → Type} [Monad m] (shell : Shell m)

def readProgram : Input → m (Except String String)
  | .inline text => return .ok text
  | .console => return (← shell.readInput).mapError fun e => "Error reading stdin: " ++ e.message
  | .file path =>
    return (← shell.readText path).mapError fun e => "Error reading " ++ path ++ ": " ++ e.message

def report (format : ErrorFormat) (d : Diagnostic) : m Unit := do
  match format with
  | .text => shell.printError (d.render (← shell.showsColor))
  | .json => shell.printError (d.toJson.compact ++ "\n")

/-- Show a text. A console that refuses it ends the program at once, with a code of its own. -/
def display (text : String) : m (Option Nat) := do
  match ← shell.print text with
  | .ok () => return some 0
  | .error e =>
    shell.printError ("failed printing to stdout: " ++ e.message ++ "\n")
    return some 101

/-- Run a program for at most `fuel` instructions. The exit code is none when that is not enough. -/
def execute (o : Options) (fuel : Nat) (p : Program) : m (Option Nat) := do
  let seed ← match o.seed with
    | some seed => pure seed
    | none => shell.freshSeed
  let machine := Machine.start shell.toHost (Random.ofSeed seed)
  match ← (Machine.run o.limits p fuel).run machine with
  | (none, _) => return none
  | (some (.ok _), _) => return some 0
  | (some (.error e), _) =>
    report shell o.errorFormat (.ofRuntimeError e)
    return some 1

def perform (o : Options) (fuel : Nat) : m (Option Nat) := do
  match ← readProgram shell o.input with
  | .error message =>
    shell.printError (message ++ "\n")
    return some 1
  | .ok text =>
    match o.task text with
    | .ok (.display text) => display shell text
    | .ok (.execute p) => execute shell o fuel p
    | .error .notBytecode =>
      shell.printError "Invalid bytecode: not a program\n"
      return some 1
    | .error (.diagnostic d) =>
      report shell o.errorFormat d
      return some 1

def run (words : List String) (fuel : Nat) : m (Option Nat) := do
  match Request.ofWords words with
  | .ok .help =>
    discard (shell.print helpText)
    return some 0
  | .ok .version =>
    discard (shell.print versionText)
    return some 0
  | .ok (.run o) => perform shell o fuel
  | .error e =>
    shell.printError ("error: " ++ e.message ++ "\n\n" ++ usageText ++
      "\nFor more information, try '--help'.\n")
    return some 2

end CommandLine

end DiceScript
