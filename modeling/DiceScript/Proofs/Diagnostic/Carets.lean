import DiceScript.Diagnostic.Snippet
import DiceScript.Proofs.Text.Positions

/-!
# Carets under a line

A label may be about any range of bytes: it may be reversed, lie past the end of the source or begin
inside a character. The line that is shown is still the one where the range begins, and the carets
stay under it, but for a single one where the range begins behind the line.
-/

namespace DiceScript

/-- A text cut at the line where an offset is. An offset past the end is in the last line. -/
structure LineAt (text : List Char) (offset : Nat) (above line below : List Char) : Prop where
  text_eq : text = above ++ (line ++ below)
  endsLine : EndsLine above
  oneLine : '\n' ∉ line
  startsAfterLine : StartsAfterLine below
  start_le : byteLength above ≤ offset
  le_stop : below ≠ [] → offset ≤ byteLength above + byteLength line

/-- The last cut of a text that is not behind an offset. -/
theorem exists_cut (text : List Char) (offset : Nat) :
    ∃ before after, text = before ++ after ∧ byteLength before ≤ offset ∧
      ∀ c ∈ after.head?, offset < byteLength before + c.utf8Size := by
  induction text generalizing offset with
  | nil => exact ⟨[], [], rfl, Nat.zero_le _, nofun⟩
  | cons c text ih =>
      by_cases hc : c.utf8Size ≤ offset
      · obtain ⟨before, after, rfl, hle, hlt⟩ := ih (offset - c.utf8Size)
        refine ⟨c :: before, after, rfl, ?_, fun d hd => ?_⟩
        · rw [byteLength_cons]
          omega
        · have := hlt d hd
          rw [byteLength_cons]
          omega
      · refine ⟨[], c :: text, rfl, Nat.zero_le _, fun d hd => ?_⟩
        obtain rfl : c = d := Option.some.inj hd
        rw [byteLength_nil]
        omega

/-- Every offset is in a line. -/
theorem exists_lineAt (text : List Char) (offset : Nat) :
    ∃ above line below, LineAt text offset above line below := by
  obtain ⟨before, after, rfl, hle, hlt⟩ := exists_cut text offset
  obtain ⟨above, lead, rfl, habove, hlead⟩ := exists_lineStart before
  obtain ⟨trail, below, rfl, htrail, hbelow⟩ := exists_lineEnd after
  rw [byteLength_append] at hle hlt
  refine ⟨above, lead ++ trail, below, by simp, habove, by simp [hlead, htrail], hbelow,
    by omega, ?_⟩
  intro hne
  rw [byteLength_append]
  cases trail with
  | nil =>
      obtain ⟨rest, rfl⟩ := hbelow.cases.resolve_left hne
      have hfeed := hlt '\n' rfl
      have hsize : '\n'.utf8Size = 1 := rfl
      rw [byteLength_nil]
      omega
  | cons c trail =>
      have hc := hlt c rfl
      rw [byteLength_cons]
      omega

namespace LineAt

variable {text above line below : List Char} {offset : Nat}

/-- The line is the one that the table has for the offset. -/
theorem lineIndex_eq (h : LineAt text offset above line below) :
    (LineTable.ofText text).lineIndex offset = above.count '\n' := by
  have hline : lineStartsFrom (byteLength above) line = [] := by
    rw [← List.length_eq_zero_iff, length_lineStartsFrom, List.count_eq_zero.mpr h.oneLine]
  rw [h.text_eq]
  refine LineTable.lineIndex_append h.start_le fun start hstart => ?_
  rw [lineStartsFrom_append, hline, List.nil_append] at hstart
  have hstop := h.le_stop (by rintro rfl; cases hstart)
  have := mem_lineStartsFrom hstart
  omega

theorem exists_position_eq (h : LineAt text offset above line below) :
    ∃ column, (LineTable.ofText text).position offset = ⟨above.count '\n' + 1, column + 1⟩ := by
  rw [← h.lineIndex_eq]
  exact ⟨_, rfl⟩

theorem lineText_eq (h : LineAt text offset above line below) :
    (LineTable.ofText text).lineText (above.count '\n' + 1) = dropTrailing (· = '\r') line := by
  rw [h.text_eq]
  exact LineTable.lineText_ofText h.endsLine h.oneLine h.startsAfterLine

end LineAt

namespace Diagnostic

theorem caretCount_pos (spanText line : List Char) (column : Nat) :
    1 ≤ caretCount spanText line column :=
  Nat.le_max_left _ _

/-- Carets that begin under a line end under it. -/
theorem caretCount_le {spanText line : List Char} {column : Nat} (hpos : 1 ≤ column)
    (h : column ≤ line.length) : column - 1 + caretCount spanText line column ≤ line.length := by
  unfold caretCount
  omega

theorem caretCount_beyond {spanText line : List Char} {column : Nat} (h : line.length < column) :
    caretCount spanText line column = 1 := by
  unfold caretCount
  omega

/-- The place, the line that is shown, and carets under it, with a remark. What stands before the
line and what stands before the blanks are of one length. -/
def pointer (line column : Nat) (shown : List Char) (carets : Nat) (remark : String) :
    List String :=
  let number := toString line
  let margin := spaces number.length
  ["  --> " ++ number ++ ":" ++ toString column,
    margin ++ " |",
    number ++ " | " ++ String.ofList shown,
    margin ++ " | " ++ spaces (column - 1) ++ String.ofList (List.replicate carets '^') ++
      (if remark = "" then "" else " " ++ remark),
    margin ++ " |"]

/-- How a label is shown: the line where its range begins, without carriage returns at its end, and
carets from a column on. -/
structure PointsAt (d : Diagnostic) (text : List Char) (remark : Remark)
    (above line below shown : List Char) (column carets : Nat) : Prop where
  lineAt : LineAt text remark.span.start above line below
  shown_eq : shown = dropTrailing (· = '\r') line
  position : (LineTable.ofText text).position remark.span.start = ⟨above.count '\n' + 1, column⟩
  /-- The table has a start for the line, and from there to the next the text can be cut. -/
  inTable : (LineTable.ofText text).lineIndex remark.span.start < (LineTable.ofText text).starts.length
  slice : ∃ feed, slice? text ((LineTable.ofText text).starts.getD (above.count '\n') 0)
    ((LineTable.ofText text).starts.getD (above.count '\n' + 1) (byteLength text)) =
      some (line ++ feed)
  rendered : ∃ advice, d.render false = String.join
    ((headerLine false d ::
      (pointer (above.count '\n' + 1) column shown carets remark.message ++ advice)).map (· ++ "\n"))
  column_pos : 1 ≤ column
  carets_pos : 1 ≤ carets
  within : column ≤ shown.length → column - 1 + carets ≤ shown.length
  beyond : shown.length < column → carets = 1

section Label

variable {d : Diagnostic} {remark : Remark} {source : String} {above line below : List Char}

theorem snippetLines_eq (h : LineAt source.toList remark.span.start above line below) :
    ∃ spanText column, (LineTable.ofText source.toList).position remark.span.start =
        ⟨above.count '\n' + 1, column + 1⟩ ∧
      snippetLines false remark source =
        pointer (above.count '\n' + 1) (column + 1) (dropTrailing (· = '\r') line)
          (caretCount spanText (dropTrailing (· = '\r') line) (column + 1)) remark.message := by
  obtain ⟨column, hposition⟩ := h.exists_position_eq
  refine ⟨(slice? source.toList remark.span.start remark.span.stop).getD [], column, hposition, ?_⟩
  rw [snippetLines, pointer]
  simp only [hposition, h.lineText_eq, paint, Bool.false_eq_true, if_false]
  simp [String.append_assoc]

/-- Whatever range of bytes a label is about, its carets stand under the line where that begins. -/
theorem label_pointsAt (hlabel : d.label = some remark) (hsource : d.source = some source) :
    ∃ above line below shown column carets,
      d.PointsAt source.toList remark above line below shown column carets := by
  obtain ⟨above, line, below, h⟩ := exists_lineAt source.toList remark.span.start
  obtain ⟨spanText, column, hposition, hsnippet⟩ := snippetLines_eq h
  refine ⟨above, line, below, _, column + 1, _, h, rfl, hposition, ?_, ?_, ?_,
    Nat.le_add_left 1 column, caretCount_pos spanText _ _,
    caretCount_le (Nat.le_add_left 1 column), caretCount_beyond⟩
  · rw [h.lineIndex_eq, LineTable.length_starts, h.text_eq, List.count_append]
    omega
  · rw [h.text_eq]
    exact ⟨_, LineTable.slice?_line h.endsLine h.oneLine h.startsAfterLine⟩
  · rw [render, renderLines]
    simp only [hlabel, hsource, hsnippet, List.append_assoc]
    exact ⟨_, rfl⟩

end Label

/-- A reversed range that begins inside a character of the second line, and one past the end. -/
theorem label_pointsAt_inside :
    let d : Diagnostic := ⟨.parse, "bad", some ⟨⟨3, 2⟩, "here"⟩, [], none, some "1\né\r\n"⟩
    let d' : Diagnostic := ⟨.parse, "bad", some ⟨⟨40, 50⟩, ""⟩, [], none, some "1\nab"⟩
    d.render false = "error[parse]: bad\n  --> 2:2\n  |\n2 | é\n  |  ^ here\n  |\n" ∧
      d'.render false = "error[parse]: bad\n  --> 2:3\n  |\n2 | ab\n  |   ^\n  |\n" ∧
        (∃ above line below shown column carets, d.PointsAt "1\né\r\n".toList ⟨⟨3, 2⟩, "here"⟩
          above line below shown column carets) ∧
        ∃ above line below shown column carets, d'.PointsAt "1\nab".toList ⟨⟨40, 50⟩, ""⟩
          above line below shown column carets := by
  refine ⟨?_, ?_, label_pointsAt rfl rfl, label_pointsAt rfl rfl⟩
  · decide +kernel
  · decide +kernel

end Diagnostic

end DiceScript
