import DiceScript.Host
import DiceScript.Table

/-!
# A host in memory

Files are byte strings by path. What is written reaches a file at once, so nothing is left to be done
when it is closed, and nothing is refused. A reader sees the file as it was when it was opened.
-/

namespace DiceScript

structure Memory where
  input : Bytes
  output : String
  files : Table String Bytes
  clock : Nat

namespace Memory

def empty : Memory :=
  ⟨[], "", .empty, 1⟩

def prompt (s : Memory) : Except HostError (Option String) × Memory :=
  let (line, rest) := readLine s.input
  (line.toExcept, { s with input := rest })

def print (text : String) (s : Memory) : Memory :=
  { s with output := s.output ++ text }

def openRead (path : String) (s : Memory) : Except HostError Bytes :=
  match s.files.find? path with
  | some bytes => .ok bytes
  | none => .error (.noSuchFile path)

def openWrite (path : String) (s : Memory) : Memory :=
  { s with files := s.files.insert path [] }

def append (path : String) (bytes : Bytes) (s : Memory) : Memory :=
  { s with files := s.files.insert path ((s.files.find? path).getD [] ++ bytes) }

/-- A reader is what is left to read, and a writer is a path. -/
def host : Host (StateM Memory) where
  Reader := Bytes
  Writer := String
  prompt := fun s => s.prompt
  print := fun text s => (.ok (), s.print text)
  openRead := fun path s => (s.openRead path, s)
  openWrite := fun path s => (.ok path, s.openWrite path)
  readLine := fun bytes s =>
    let (line, rest) := DiceScript.readLine bytes
    ((line.toExcept, rest), s)
  write := fun path texts s =>
    ((.ok (), path), s.append path (Utf8.encode (String.join texts)))
  close := fun _ s => (.ok (), s)
  drop := fun _ s => ((), s)
  choose := fun _ s => (0, s)
  clock := fun s => (s.clock, s)

end Memory

end DiceScript
