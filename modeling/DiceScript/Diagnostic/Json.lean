import DiceScript.Diagnostic
import DiceScript.Json.Basic

/-!
# Diagnostics as JSON

One object on one line, with the keys of every object in alphabetical order.
-/

namespace DiceScript.Diagnostic

def remarkJson (remark : Remark) (source : Option String) : Json :=
  let start := ("start", Json.int remark.span.start)
  let stop := ("end", Json.int remark.span.stop)
  let message := ("message", Json.string remark.message)
  match source with
  | none => .object [stop, message, start]
  | some text =>
    let position := (LineTable.ofText text.toList).position remark.span.start
    .object [("col", .int position.column), stop, ("line", .int position.line), message, start]

def toJson (d : Diagnostic) : Json :=
  .object
    (d.label.toList.map (fun remark => ("label", remarkJson remark d.source)) ++
      [("message", .string d.message), ("notes", .array (d.notes.map .string)),
        ("phase", .string d.phase.name), ("severity", .string "error")] ++
      d.suggestion.toList.map (fun s => ("suggestion", .string s)))

end DiceScript.Diagnostic
