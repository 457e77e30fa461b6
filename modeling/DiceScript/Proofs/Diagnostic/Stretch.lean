import DiceScript.Diagnostic.Json
import DiceScript.Diagnostic.Snippet
import DiceScript.Proofs.Text.Positions

/-!
# Stretches of a line

A stretch of a source that lies within one line and has no white space in it, and how a diagnostic
shows it: the line as a whole, and under it a caret for each character of the stretch.
-/

namespace DiceScript

/-- Characters of a source with what stands around them: the lines above, the rest of their own
line, and the lines below. -/
structure Stretch where
  above : List Char
  lead : List Char
  text : List Char
  trail : List Char
  below : List Char
  nonempty : text ≠ []
  endsLine : EndsLine above
  lead_oneLine : '\n' ∉ lead
  text_visible : ∀ c ∈ text, c ≠ '\n' ∧ c ≠ '\r'
  trail_oneLine : '\n' ∉ trail
  startsAfterLine : StartsAfterLine below

namespace Stretch

variable (s : Stretch)

/-- The source as a whole. -/
def source : List Char :=
  s.above ++ (s.lead ++ s.text ++ s.trail ++ s.below)

def span : Span :=
  ⟨byteLength (s.above ++ s.lead), byteLength (s.above ++ s.lead) + byteLength s.text⟩

def line : Nat :=
  s.above.count '\n' + 1

def column : Nat :=
  s.lead.length + 1

/-- The line as it is shown. -/
def shown : List Char :=
  dropTrailing (· = '\r') (s.lead ++ s.text ++ s.trail)

theorem text_oneLine : '\n' ∉ s.text :=
  fun hmem => (s.text_visible _ hmem).1 rfl

theorem source_eq : s.source = (s.above ++ s.lead) ++ (s.text ++ (s.trail ++ s.below)) := by
  simp only [source, List.append_assoc]

theorem slice_span : slice? s.source s.span.start s.span.stop = some s.text := by
  rw [source_eq]
  exact slice?_append _ _ _

theorem position_span : (LineTable.ofText s.source).position s.span.start = ⟨s.line, s.column⟩ := by
  rw [source_eq, span, LineTable.position_ofText,
    Position.advance_line s.endsLine s.lead_oneLine]
  rfl

theorem lineText_line : (LineTable.ofText s.source).lineText s.line = s.shown := by
  apply LineTable.lineText_ofText s.endsLine _ s.startsAfterLine
  simp [s.lead_oneLine, s.text_oneLine, s.trail_oneLine]

/-- The shown line begins with what stands before the stretch and the stretch itself. -/
theorem prefix_shown : s.lead ++ s.text <+: s.shown := by
  have hlast : ∀ c ∈ (s.lead ++ s.text).getLast?, decide (c = '\r') = false := by
    intro c hc
    rw [List.getLast?_append_of_ne_nil _ s.nonempty] at hc
    exact decide_eq_false (s.text_visible c (List.mem_of_getLast? hc)).2
  rw [shown, dropTrailing_append hlast]
  exact List.prefix_append _ _

/-- The place, the line, and a caret under each character of the stretch, with a remark. What stands
before the line and what stands before its carets are of one length. -/
def snippet (remark : String) : List String :=
  let number := toString s.line
  let margin := Diagnostic.spaces number.length
  ["  --> " ++ number ++ ":" ++ toString s.column,
    margin ++ " |",
    number ++ " | " ++ String.ofList s.shown,
    margin ++ " | " ++ Diagnostic.spaces s.lead.length ++
      String.ofList (List.replicate s.text.length '^') ++ " " ++ remark,
    margin ++ " |"]

end Stretch

namespace Diagnostic

section Snippet

variable (s : Stretch) {source : String} (hsource : source.toList = s.source) {remark : Remark}

/-- There is a caret for each character of the stretch. -/
theorem caretCount_stretch : caretCount s.text s.shown s.column = s.text.length := by
  have hline : s.text.takeWhile (· ≠ '\n') = s.text := by
    apply List.takeWhile_eq_self_iff.mpr
    intro c hc
    exact decide_eq_true (s.text_visible c hc).1
  have hroom := s.prefix_shown.length_le
  have hpos : 0 < s.text.length := List.length_pos_iff.mpr s.nonempty
  rw [List.length_append] at hroom
  rw [caretCount, hline, Stretch.column]
  omega

include hsource

theorem snippetLines_stretch (hspan : remark.span = s.span) (hmessage : remark.message ≠ "") :
    snippetLines false remark source = s.snippet remark.message := by
  rw [snippetLines, Stretch.snippet]
  simp only [hsource, hspan, s.position_span, s.slice_span, s.lineText_line, Option.getD_some,
    caretCount_stretch, if_neg hmessage, paint, Bool.false_eq_true, if_false]
  simp [Stretch.column, String.append_assoc]

theorem remarkJson_stretch (hspan : remark.span = s.span) :
    remarkJson remark (some source) =
      .object [("col", .int s.column), ("end", .int s.span.stop), ("line", .int s.line),
        ("message", .string remark.message), ("start", .int s.span.start)] := by
  rw [remarkJson, hspan]
  simp only [hsource, s.position_span]

end Snippet

end Diagnostic

end DiceScript
