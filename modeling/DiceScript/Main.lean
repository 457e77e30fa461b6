import DiceScript.CommandLine
import DiceScript.Host.Buffer
import Std.Time.DateTime.Timestamp

/-!
# The program

The command line on the console, the files and the clock of the system.
-/

namespace DiceScript.System

def refusal (code : UInt32) (details : String) : HostError :=
  match code with
  | 2 => .system .notFound
  | 20 => .system .notADirectory
  | 21 => .system .isADirectory
  | 28 => .system .noSpace
  | 36 => .system .nameTooLong
  | code => .other (details ++ " (os error " ++ toString code ++ ")")

def hostError : IO.Error → HostError
  | .noFileOrDirectory _ code details => refusal code details
  | .alreadyExists _ code details => refusal code details
  | .invalidArgument _ code details => refusal code details
  | .permissionDenied _ code details => refusal code details
  | .resourceExhausted _ code details => refusal code details
  | .inappropriateType _ code details => refusal code details
  | .noSuchThing _ code details => refusal code details
  | .resourceBusy code details => refusal code details
  | .hardwareFault code details => refusal code details
  | .otherError code details => refusal code details
  | e => .other e.toString

/-- The result of an action, or why the system refused it. -/
def attempt {α : Type} (x : IO α) : IO (Except HostError α) := do
  try
    return .ok (← x)
  catch e =>
    return .error (hostError e)

/-- Fetch pieces of at most `size` bytes until a line feed is among them or nothing is left. -/
partial def fetchLine (fetch : USize → IO ByteArray) (size : USize) (fetched : ByteArray) :
    IO ByteArray := do
  let piece ← fetch size
  if piece.isEmpty then return fetched
  else if piece.toList.contains 10 then return fetched ++ piece
  else fetchLine fetch size (fetched ++ piece)

partial def fetchAll (fetch : USize → IO ByteArray) (fetched : ByteArray) : IO ByteArray := do
  let piece ← fetch 8192
  if piece.isEmpty then return fetched
  else fetchAll fetch (fetched ++ piece)

def textOf (bytes : Bytes) : Except HostError String :=
  match Utf8.decode? bytes with
  | some text => .ok text
  | none => .error .notText

/-- An open file, with the bytes fetched but not yet read. -/
structure Reader where
  handle : IO.FS.Handle
  fetched : Bytes

/-- An open file, with the bytes that are still to be written to it. -/
structure Writer where
  handle : IO.FS.Handle
  buffer : Buffer

def openHandle (path : String) (mode : IO.FS.Mode) : IO (Except HostError IO.FS.Handle) := do
  if path.contains '\x00' then return .error .nulInPath
  else attempt (IO.FS.Handle.mk path mode)

/-- Console input is fetched byte by byte, so that nothing after the line is waited for. -/
def prompt : IO (Except HostError (Option String)) := do
  let console ← IO.getStdin
  match ← attempt (fetchLine console.read 1 .empty) with
  | .error e => return .error e
  | .ok bytes => return (readLine bytes.toList).1.toExcept

def nextLine (r : Reader) : IO (Except HostError (Option String) × Reader) := do
  let fetch : IO Bytes :=
    if r.fetched.contains 10 then return r.fetched
    else return r.fetched ++ (← fetchLine r.handle.read 8192 .empty).toList
  match ← attempt fetch with
  | .error e => return (.error e, r)
  | .ok bytes =>
    let (line, rest) := readLine bytes
    return (line.toExcept, { r with fetched := rest })

def put (handle : IO.FS.Handle) (bytes : Bytes) : IO (Except HostError Unit) := do
  if bytes.isEmpty then return .ok ()
  else
    attempt do
      handle.write ⟨bytes.toArray⟩
      handle.flush

/-- A text that is refused leaves the buffer as it was. -/
def write (w : Writer) : List String → IO (Except HostError Unit × Writer)
  | [] => return (.ok (), w)
  | text :: texts => do
    let (leaving, buffer) := w.buffer.add (Utf8.encode text)
    match ← put w.handle leaving with
    | .ok () => write { w with buffer := buffer } texts
    | .error e => return (.error e, w)

def host : Host IO where
  Reader := Reader
  Writer := Writer
  prompt := prompt
  print := fun text => attempt do
    let console ← IO.getStdout
    console.putStr text
    console.flush
  openRead := fun path => do
    return (← openHandle path .read).map (⟨·, []⟩)
  openWrite := fun path => do
    return (← openHandle path .write).map (⟨·, .empty⟩)
  readLine := nextLine
  write := write
  close := fun w => put w.handle w.buffer.held.toList
  drop := fun w => discard (put w.handle w.buffer.held.toList)
  choose := fun n => return ⟨(← IO.rand 0 n) % (n + 1), Nat.mod_lt _ n.succ_pos⟩
  clock := return (← Std.Time.Timestamp.now).toMillisecondsSinceUnixEpoch.toInt.toNat

def readInput : IO (Except HostError String) := do
  let console ← IO.getStdin
  match ← attempt (fetchAll console.read .empty) with
  | .error e => return .error e
  | .ok bytes => return textOf bytes.toList

def readText (path : String) : IO (Except HostError String) := do
  match ← openHandle path .read with
  | .error e => return .error e
  | .ok handle =>
    match ← attempt (fetchAll handle.read .empty) with
    | .error e => return .error e
    | .ok bytes => return textOf bytes.toList

def shell : Shell IO :=
  { host with
    readInput := readInput
    readText := readText
    printError := fun text => do (← IO.getStderr).putStr text
    showsColor := do (← IO.getStderr).isTty
    freshSeed := do
      let bytes ← IO.getRandomBytes 8
      return bytes.toList.foldl (fun n b => n * 256 + b.toNat) 0 }

/-- More instructions than any run gets to. -/
def fuel : Nat := 0x4000_0000_0000_0000

end DiceScript.System

def main (words : List String) : IO UInt32 := do
  let code ← DiceScript.CommandLine.run DiceScript.System.shell words DiceScript.System.fuel
  return (code.getD 1).toUInt32
