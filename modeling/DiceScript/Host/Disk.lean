import DiceScript.Host.Buffer
import DiceScript.Host.Path

/-!
# A host with one directory of files

Unlike in memory, a writer holds back what fits its buffer until it is closed, and writes at its own
place in the file as the file stands at that moment. A reader fetches the file piece by piece. Only the
full device refuses what is written.
-/

namespace DiceScript

structure Disk where
  input : Bytes
  output : String
  errors : String
  files : Table String Bytes
  clock : Nat
  /-- Where the next files are put among those to be closed; in front, when there is none left. -/
  places : List Nat

namespace Disk

/-- The bytes of a file with others written at an offset. A gap before them is filled with zeros. -/
def writeAt (old : Bytes) (offset : Nat) (new : Bytes) : Bytes :=
  let kept := old.take offset
  kept ++ (List.replicate (offset - kept.length) 0 ++ (new ++ old.drop (offset + new.length)))

/-- What is open, and the bytes fetched from it that are not read yet. -/
structure Reader where
  source : Path.Entry
  offset : Nat
  fetched : Bytes

/-- What is open, and the bytes that are still to be written at an offset. -/
structure Writer where
  target : Path.Entry
  offset : Nat
  buffer : Buffer

/-- How many bytes a reader fetches at once. -/
def pieceSize : Nat := 8192

/-- Fetch pieces of what is unread until a line feed is among them or nothing is left: all bytes
then fetched, and how many are new. -/
def fetchLine (fetched unread : Bytes) : Bytes × Nat :=
  if _h : unread = [] then (fetched, 0)
  else
    let piece := unread.take pieceSize
    if piece.contains 10 then (fetched ++ piece, piece.length)
    else
      let (bytes, n) := fetchLine (fetched ++ piece) (unread.drop pieceSize)
      (bytes, n + piece.length)
termination_by unread.length
decreasing_by
  have : 0 < unread.length := List.length_pos_iff.mpr _h
  simp only [List.length_drop, pieceSize]
  omega

def prompt (s : Disk) : Except HostError (Option String) × Disk :=
  let (line, rest) := readLine s.input
  (line.toExcept, { s with input := rest })

def print (text : String) (s : Disk) : Disk :=
  { s with output := s.output ++ text }

def openRead (path : String) (s : Disk) : Except HostError Reader :=
  (Path.toRead s.files path).map (⟨·, 0, []⟩)

def openWrite (path : String) (s : Disk) : Except HostError Writer × Disk :=
  match Path.toWrite s.files path with
  | .error e => (.error e, s)
  | .ok (.file name) =>
    (.ok ⟨.file name, 0, .empty⟩, { s with files := s.files.insert name [] })
  | .ok entry => (.ok ⟨entry, 0, .empty⟩, s)

/-- A reader of the full device would get zeros without end. -/
def contents (s : Disk) : Path.Entry → Except HostError Bytes
  | .file name => .ok ((s.files.find? name).getD [])
  | .nullDevice => .ok []
  | .fullDevice => .error (.other "out of memory")
  | .directory _ => .error (.system .isADirectory)

def nextLine (r : Reader) (s : Disk) : Except HostError (Option String) × Reader :=
  match s.contents r.source with
  | .error e => (.error e, r)
  | .ok bytes =>
    let (fetched, n) :=
      if r.fetched.contains 10 then (r.fetched, 0)
      else fetchLine r.fetched (bytes.drop r.offset)
    let (line, rest) := readLine fetched
    (line.toExcept, ⟨r.source, r.offset + n, rest⟩)

def put (entry : Path.Entry) (offset : Nat) (bytes : Bytes) (s : Disk) : Disk :=
  match entry, bytes with
  | _, [] => s
  | .file name, bytes =>
    let old := (s.files.find? name).getD []
    { s with files := s.files.insert name (writeAt old offset bytes) }
  | _, _ => s

def write (w : Writer) (texts : List String) (s : Disk) :
    (Except HostError Unit × Writer) × Disk :=
  let pieces := texts.map Utf8.encode
  if w.target = .fullDevice then
    let (fits, buffer) := w.buffer.addHeld pieces
    ((if fits then .ok () else .error (.system .noSpace), { w with buffer := buffer }), s)
  else
    let (out, buffer) := w.buffer.addAll pieces
    ((.ok (), ⟨w.target, w.offset + out.size, buffer⟩), s.put w.target w.offset out.toList)

def drop (w : Writer) (s : Disk) : Disk :=
  s.put w.target w.offset w.buffer.held.toList

def close (w : Writer) (s : Disk) : Except HostError Unit × Disk :=
  if w.target = .fullDevice ∧ w.buffer.held ≠ #[] then (.error (.system .noSpace), s)
  else (.ok (), s.drop w)

def choose (n : Nat) (s : Disk) : Fin (n + 1) × Disk :=
  (⟨s.places.headD 0 % (n + 1), Nat.mod_lt _ n.succ_pos⟩, { s with places := s.places.tail })

def host : Host (StateM Disk) where
  Reader := Reader
  Writer := Writer
  prompt := fun s => s.prompt
  print := fun text s => (.ok (), s.print text)
  openRead := fun path s => (s.openRead path, s)
  openWrite := fun path s => s.openWrite path
  readLine := fun r s => (s.nextLine r, s)
  write := fun w texts s => s.write w texts
  close := fun w s => s.close w
  drop := fun w s => ((), s.drop w)
  choose := fun n s => s.choose n
  clock := fun s => (s.clock, s)

def readText (path : String) (s : Disk) : Except HostError String :=
  match (Path.toRead s.files path).bind s.contents with
  | .error e => .error e
  | .ok bytes =>
    match Utf8.decode? bytes with
    | some text => .ok text
    | none => .error .notText

def readInput (s : Disk) : Except HostError String × Disk :=
  match Utf8.decode? s.input with
  | some text => (.ok text, { s with input := [] })
  | none => (.error .notText, { s with input := [] })

/-- The console for errors is no terminal, and every run draws the same numbers. -/
def shell : Shell (StateM Disk) :=
  { host with
    readInput := fun s => s.readInput
    readText := fun path s => (s.readText path, s)
    printError := fun text s => ((), { s with errors := s.errors ++ text })
    showsColor := fun s => (false, s)
    freshSeed := fun s => (0, s) }

end Disk

end DiceScript
