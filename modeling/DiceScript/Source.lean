import DiceScript.Text.Blank

/-!
# Positions in a source text

Offsets into a source count the bytes of its UTF-8 encoding, columns count characters, and lines
and columns start at 1. Reading on from a position gives the next one (`Position.advance`), and a
`LineTable`, built once for a source, turns any offset into a position.
-/

namespace DiceScript

/-- A range of bytes of a source. -/
structure Span where
  start : Nat
  stop : Nat
deriving DecidableEq, Repr

structure Position where
  line : Nat
  column : Nat
deriving DecidableEq, Repr

namespace Position

def first : Position :=
  ⟨1, 1⟩

def after (p : Position) (c : Char) : Position :=
  if c = '\n' then ⟨p.line + 1, 1⟩ else ⟨p.line, p.column + 1⟩

def advance (p : Position) (text : List Char) : Position :=
  text.foldl after p

end Position

def byteLength (text : List Char) : Nat :=
  text.foldr (fun c n => c.utf8Size + n) 0

/-- The characters after the first `n` bytes; none when byte `n` is inside a character or past the
end. -/
def dropBytes? : Nat → List Char → Option (List Char)
  | 0, text => some text
  | _ + 1, [] => none
  | n, c :: text => if c.utf8Size ≤ n then dropBytes? (n - c.utf8Size) text else none

/-- The characters of the first `n` bytes, under the same condition. -/
def takeBytes? : Nat → List Char → Option (List Char)
  | 0, _ => some []
  | _ + 1, [] => none
  | n, c :: text =>
    if c.utf8Size ≤ n then (takeBytes? (n - c.utf8Size) text).map (c :: ·) else none

/-- The characters between two offsets; none when the range is reversed, past the end, or cuts a
character. -/
def slice? (text : List Char) (start stop : Nat) : Option (List Char) :=
  if start ≤ stop then (dropBytes? start text).bind (takeBytes? (stop - start)) else none

/-- The offsets just after each line feed; the text begins at `offset`. -/
def lineStartsFrom (offset : Nat) : List Char → List Nat
  | [] => []
  | c :: text =>
    let next := offset + c.utf8Size
    if c = '\n' then next :: lineStartsFrom next text else lineStartsFrom next text

/-- A source text with the offsets at which its lines start. -/
structure LineTable where
  text : List Char
  starts : List Nat

namespace LineTable

def ofText (text : List Char) : LineTable :=
  ⟨text, 0 :: lineStartsFrom 0 text⟩

/-- How many lines start at or before an offset, less one. -/
def lineIndex (table : LineTable) (offset : Nat) : Nat :=
  table.starts.countP (· ≤ offset) - 1

/-- The position of an offset. Past the end the column is that of the end, and inside a character it
counts bytes. -/
def position (table : LineTable) (offset : Nat) : Position :=
  let line := table.lineIndex offset
  let start := table.starts.getD line 0
  let column :=
    match slice? table.text start (min offset (byteLength table.text)) with
    | some before => before.length
    | none => offset - start
  ⟨line + 1, column + 1⟩

/-- The text of a line without its line end; empty for a line that does not exist. -/
def lineText (table : LineTable) (line : Nat) : List Char :=
  if line = 0 ∨ table.starts.length < line then []
  else
    let start := table.starts.getD (line - 1) 0
    let stop := table.starts.getD line (byteLength table.text)
    dropTrailing (· = '\r') (dropTrailing (· = '\n') ((slice? table.text start stop).getD []))

end LineTable

end DiceScript
