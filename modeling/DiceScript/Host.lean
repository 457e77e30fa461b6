import DiceScript.Text.Line

/-!
# The world around a machine

A host offers a console, files and a clock as actions of some monad, and may refuse to write. What an
open file is, is the host's own affair, and so is the order in which files left open are closed. A
shell is a host from which a command line can be run.
-/

namespace DiceScript

/-- What an operating system answers when it refuses a path, or has no room. -/
inductive SystemError where
  | notFound
  | notADirectory
  | isADirectory
  | noSpace
  | nameTooLong
deriving DecidableEq, Repr

def SystemError.message : SystemError → String
  | notFound => "No such file or directory (os error 2)"
  | notADirectory => "Not a directory (os error 20)"
  | isADirectory => "Is a directory (os error 21)"
  | noSpace => "No space left on device (os error 28)"
  | nameTooLong => "File name too long (os error 36)"

inductive HostError where
  | noSuchFile (path : String)
  | notText
  | nulInPath
  | system (e : SystemError)
  | other (message : String)
deriving DecidableEq, Repr

def HostError.message : HostError → String
  | noSuchFile path => "no such file: " ++ path
  | notText => "stream did not contain valid UTF-8"
  | nulInPath => "file name contained an unexpected NUL byte"
  | system e => e.message
  | other message => message

structure Host (m : Type → Type) where
  Reader : Type
  Writer : Type
  /-- One line of console input, or none at its end. -/
  prompt : m (Except HostError (Option String))
  print : String → m (Except HostError Unit)
  openRead : String → m (Except HostError Reader)
  /-- Create a file, or empty the one there is. -/
  openWrite : String → m (Except HostError Writer)
  readLine : Reader → m (Except HostError (Option String) × Reader)
  /-- Write texts one after the other, up to the first that is refused. -/
  write : Writer → List String → m (Except HostError Unit × Writer)
  /-- Everything written has reached the file afterwards, or was refused. -/
  close : Writer → m (Except HostError Unit)
  /-- Let a writer go, whether or not everything written reaches the file. -/
  drop : Writer → m Unit
  /-- Before which of `n` others, or behind all, one more file is closed. -/
  choose : (n : Nat) → m (Fin (n + 1))
  /-- Milliseconds since the start of 1970. -/
  clock : m Nat

/-- Files in the order in which the host closes them, which can be any. -/
def Host.arrange {m : Type → Type} [Monad m] (h : Host m) {α : Type} : List α → m (List α)
  | [] => return []
  | a :: files => do
    let files ← h.arrange files
    let place ← h.choose files.length
    return files.insertIdx place a

/-- A host with what a command line needs besides. -/
structure Shell (m : Type → Type) extends Host m where
  /-- All the console input that is left. -/
  readInput : m (Except HostError String)
  readText : String → m (Except HostError String)
  printError : String → m Unit
  /-- Does the console for errors show colours? -/
  showsColor : m Bool
  /-- A number that differs from run to run. -/
  freshSeed : m Nat

def LineRead.toExcept : LineRead → Except HostError (Option String)
  | line text => .ok (some text)
  | endOfInput => .ok none
  | notText => .error .notText

end DiceScript
