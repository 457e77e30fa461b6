import DiceScript.Diagnostic

/-!
# Diagnostics for a terminal

A header line, the labelled line of the source with carets under the place, then notes and the
suggestion. Carets count characters and stay under the line.
-/

namespace DiceScript.Diagnostic

def paint (color : Bool) (code text : String) : String :=
  if color then "\x1b[" ++ code ++ "m" ++ text ++ "\x1b[0m" else text

def spaces (n : Nat) : String :=
  String.ofList (List.replicate n ' ')

/-- How many carets stand under a span that begins in a column of a line: as many as the characters
of the span up to its first line feed, at least one, and none past the line. -/
def caretCount (spanText line : List Char) (column : Nat) : Nat :=
  max 1 (min (spanText.takeWhile (· ≠ '\n')).length (line.length - (column - 1)))

def snippetLines (color : Bool) (remark : Remark) (source : String) : List String :=
  let text := source.toList
  let table := LineTable.ofText text
  let position := table.position remark.span.start
  let line := table.lineText position.line
  let spanText := (slice? text remark.span.start remark.span.stop).getD []
  let number := toString position.line
  let pad := spaces number.length
  let pipe := paint color "36" "|"
  let carets := String.ofList
    (List.replicate (caretCount spanText line position.column) '^')
  let indent := spaces (position.column - 1)
  let message :=
    if remark.message = "" then "" else " " ++ paint color "1;31" remark.message
  ["  " ++ paint color "36" "-->" ++ " " ++ number ++ ":" ++ toString position.column,
    pad ++ " " ++ pipe,
    paint color "36" number ++ " " ++ pipe ++ " " ++ String.ofList line,
    pad ++ " " ++ pipe ++ " " ++ indent ++ paint color "1;31" carets ++ message,
    pad ++ " " ++ pipe]

def headerLine (color : Bool) (d : Diagnostic) : String :=
  paint color "1;31" ("error[" ++ d.phase.name ++ "]") ++ ": " ++ paint color "1" d.message

def renderLines (color : Bool) (d : Diagnostic) : List String :=
  [headerLine color d] ++
    (match d.label, d.source with
      | some remark, some source => snippetLines color remark source
      | _, _ => []) ++
    d.notes.map (fun note => "  " ++ paint color "2" "=" ++ " note: " ++ note) ++
    d.suggestion.toList.map (fun s => "  " ++ paint color "2" "=" ++ " suggestion: " ++ s)

def render (color : Bool) (d : Diagnostic) : String :=
  String.join ((d.renderLines color).map (· ++ "\n"))

end DiceScript.Diagnostic
