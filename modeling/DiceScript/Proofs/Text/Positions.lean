import DiceScript.Proofs.Text.Lines
import DiceScript.Proofs.Text.Offsets

/-!
# Positions in a source

The position that a line table gives for an offset is the one that reading up to there gives: the
lines are counted by the line feeds before it, and the columns by the characters since the last one.
The text of that line is what stands between the line feeds around it.
-/

namespace DiceScript

/-- A line begins after the text. -/
def EndsLine (above : List Char) : Prop :=
  above = [] ∨ above.getLast? = some '\n'

/-- No more of a line is in the text. -/
def StartsAfterLine (below : List Char) : Prop :=
  below = [] ∨ below.head? = some '\n'

theorem EndsLine.cases {above : List Char} (h : EndsLine above) :
    above = [] ∨ ∃ text, above = text ++ ['\n'] := by
  rcases h with hnil | hlast
  · exact .inl hnil
  · exact .inr (List.getLast?_eq_some_iff.mp hlast)

theorem StartsAfterLine.cases {below : List Char} (h : StartsAfterLine below) :
    below = [] ∨ ∃ text, below = '\n' :: text := by
  rcases h with hnil | hhead
  · exact .inl hnil
  · exact .inr (List.head?_eq_some_iff.mp hhead)

theorem endsLine_append_newline (text : List Char) : EndsLine (text ++ ['\n']) :=
  .inr (by simp)

/-- What stands before an offset, cut where its last line begins. -/
theorem exists_lineStart (before : List Char) :
    ∃ above lead, before = above ++ lead ∧ EndsLine above ∧ '\n' ∉ lead := by
  induction before using List.reverseRecOn with
  | nil => exact ⟨[], [], rfl, .inl rfl, by simp⟩
  | append_singleton before c ih =>
      by_cases hc : c = '\n'
      · subst hc
        exact ⟨before ++ ['\n'], [], by simp, endsLine_append_newline before, by simp⟩
      · obtain ⟨above, lead, rfl, habove, hlead⟩ := ih
        refine ⟨above, lead ++ [c], by simp, habove, ?_⟩
        simp [hlead, Ne.symm hc]

/-- What stands after an offset, cut where its first line ends. -/
theorem exists_lineEnd (after : List Char) :
    ∃ trail below, after = trail ++ below ∧ '\n' ∉ trail ∧ StartsAfterLine below := by
  refine ⟨_, _, (List.takeWhile_append_dropWhile (p := (· != '\n'))).symm, ?_, ?_⟩
  · intro hmem
    simpa using List.mem_takeWhile_imp hmem
  · have hhead := List.head?_dropWhile_not (· != '\n') after
    cases hrest : after.dropWhile (· != '\n') with
    | nil => exact .inl rfl
    | cons d ds =>
        rw [hrest] at hhead
        exact .inr (by simpa using hhead)

/-! ## Reading on -/

namespace Position

theorem line_advance (p : Position) (text : List Char) :
    (p.advance text).line = p.line + text.count '\n' := by
  induction text generalizing p with
  | nil => rfl
  | cons c text ih =>
      change ((p.after c).advance text).line = _
      rw [ih, after]
      by_cases hc : c = '\n'
      · subst hc
        simp only [if_true, List.count_cons_self]
        omega
      · simp [hc]

theorem advance_of_notMem {text : List Char} (h : '\n' ∉ text) (p : Position) :
    p.advance text = ⟨p.line, p.column + text.length⟩ := by
  induction text generalizing p with
  | nil => rfl
  | cons c text ih =>
      rw [List.mem_cons, not_or] at h
      change (p.after c).advance text = _
      rw [ih h.2, after, if_neg (Ne.symm h.1)]
      simp only [List.length_cons, Position.mk.injEq, true_and]
      omega

theorem advance_line {above lead : List Char} (habove : EndsLine above) (hlead : '\n' ∉ lead) :
    first.advance (above ++ lead) = ⟨above.count '\n' + 1, lead.length + 1⟩ := by
  rw [advance_append, advance_of_notMem hlead, line_advance]
  have hcolumn : (first.advance above).column = 1 := by
    rcases habove.cases with rfl | ⟨text, rfl⟩
    · rfl
    · rw [advance_append]
      rfl
  rw [hcolumn]
  simp only [first, Position.mk.injEq]
  omega

end Position

/-! ## Line tables -/

theorem lineStartsFrom_append (offset : Nat) (xs ys : List Char) :
    lineStartsFrom offset (xs ++ ys) =
      lineStartsFrom offset xs ++ lineStartsFrom (offset + byteLength xs) ys := by
  induction xs generalizing offset with
  | nil => rfl
  | cons c xs ih =>
      simp only [List.cons_append, lineStartsFrom, ih, byteLength_cons, Nat.add_assoc]
      split <;> rfl

theorem length_lineStartsFrom (offset : Nat) (text : List Char) :
    (lineStartsFrom offset text).length = text.count '\n' := by
  induction text generalizing offset with
  | nil => rfl
  | cons c text ih =>
      simp only [lineStartsFrom]
      split
      · rename_i hc
        subst hc
        rw [List.length_cons, ih, List.count_cons_self]
      · rename_i hc
        rw [ih, List.count_cons_of_ne hc]

theorem mem_lineStartsFrom {offset start : Nat} {text : List Char}
    (h : start ∈ lineStartsFrom offset text) :
    offset < start ∧ start ≤ offset + byteLength text := by
  induction text generalizing offset with
  | nil => cases h
  | cons c text ih =>
      have hpos := c.utf8Size_pos
      simp only [lineStartsFrom] at h
      rw [byteLength_cons]
      split at h
      · rcases List.mem_cons.mp h with rfl | h
        · omega
        · have := ih h
          omega
      · have := ih h
        omega

namespace LineTable

/-- A line that begins after given text starts where that text ends. -/
theorem getD_starts {above : List Char} (habove : EndsLine above) (rest : List Char) (d : Nat) :
    (ofText (above ++ rest)).starts.getD (above.count '\n') d = byteLength above := by
  rcases habove.cases with rfl | ⟨text, rfl⟩
  · rfl
  · have hcount : (text ++ ['\n']).count '\n' = text.count '\n' + 1 := by simp
    rw [hcount, ofText, List.append_assoc, lineStartsFrom_append, List.getD_cons_succ,
      List.getD_append_right _ _ _ _ (Nat.le_of_eq (length_lineStartsFrom 0 text)),
      length_lineStartsFrom, Nat.sub_self, Nat.zero_add, byteLength_append]
    rfl

theorem length_starts (text : List Char) : (ofText text).starts.length = text.count '\n' + 1 := by
  rw [ofText, List.length_cons, length_lineStartsFrom]

/-- The line of an offset is told by the line feeds before it. -/
theorem lineIndex_append {before after : List Char} {offset : Nat} (hle : byteLength before ≤ offset)
    (hlt : ∀ start ∈ lineStartsFrom (byteLength before) after, offset < start) :
    (ofText (before ++ after)).lineIndex offset = before.count '\n' := by
  have hbefore : (lineStartsFrom 0 before).countP (· ≤ offset) = before.count '\n' := by
    rw [← length_lineStartsFrom 0 before]
    apply List.countP_eq_length.mpr
    intro start hstart
    have := mem_lineStartsFrom hstart
    exact decide_eq_true (by omega)
  have hafter : (lineStartsFrom (byteLength before) after).countP (· ≤ offset) = 0 :=
    List.countP_eq_zero.mpr fun start hstart => by simpa using hlt start hstart
  rw [lineIndex, ofText, List.countP_cons_of_pos (by simp), lineStartsFrom_append, List.countP_append,
    hbefore, Nat.zero_add, hafter]
  rfl

theorem lineIndex_ofText (before after : List Char) :
    (ofText (before ++ after)).lineIndex (byteLength before) = before.count '\n' :=
  lineIndex_append le_rfl fun _ hstart => (mem_lineStartsFrom hstart).1

/-- The position of an offset is the one that reading up to there gives. -/
theorem position_ofText (before after : List Char) :
    (ofText (before ++ after)).position (byteLength before) = Position.first.advance before := by
  obtain ⟨above, lead, rfl, habove, hlead⟩ := exists_lineStart before
  have hcount : (above ++ lead).count '\n' = above.count '\n' := by
    rw [List.count_append, List.count_eq_zero.mpr hlead, Nat.add_zero]
  have hstart := getD_starts habove (lead ++ after) 0
  have hmin : min (byteLength above + byteLength lead) (byteLength (above ++ (lead ++ after))) =
      byteLength above + byteLength lead := by
    simp only [byteLength_append]
    omega
  rw [Position.advance_line habove hlead, position, lineIndex_ofText, hcount, List.append_assoc,
    hstart, byteLength_append]
  simp only [ofText, hmin, slice?_append]

/-- From one start of a line to the next stands the line with its line feed, if it has one. -/
theorem slice?_line {above line below : List Char} (habove : EndsLine above) (hline : '\n' ∉ line)
    (hbelow : StartsAfterLine below) :
    slice? (above ++ (line ++ below))
        ((ofText (above ++ (line ++ below))).starts.getD (above.count '\n') 0)
        ((ofText (above ++ (line ++ below))).starts.getD (above.count '\n' + 1)
          (byteLength (above ++ (line ++ below)))) = some (line ++ below.take 1) := by
  rw [getD_starts habove]
  rcases hbelow.cases with rfl | ⟨text, rfl⟩
  · have hlength : (ofText (above ++ (line ++ []))).starts.length ≤ above.count '\n' + 1 := by
      rw [length_starts, List.append_nil, List.count_append, List.count_eq_zero.mpr hline,
        Nat.add_zero]
    have hslice := slice?_append above line []
    rw [List.getD_eq_default _ _ hlength, List.take_nil, List.append_nil, byteLength_append]
    rwa [List.append_nil] at hslice
  · have hcount : (above ++ line ++ ['\n']).count '\n' = above.count '\n' + 1 := by
      simp [List.count_eq_zero.mpr hline]
    have htext : above ++ line ++ ['\n'] ++ text = above ++ (line ++ '\n' :: text) := by simp
    have hend := getD_starts (endsLine_append_newline (above ++ line)) text
      (byteLength (above ++ (line ++ '\n' :: text)))
    rw [hcount, htext, List.append_assoc above] at hend
    have hslice := slice?_append above (line ++ ['\n']) text
    rw [List.append_assoc, List.singleton_append] at hslice
    rw [hend, byteLength_append above, hslice]
    rfl

/-- The text of a line is what stands between the line feeds around it, without carriage returns at
its end. -/
theorem lineText_ofText {above line below : List Char} (habove : EndsLine above)
    (hline : '\n' ∉ line) (hbelow : StartsAfterLine below) :
    (ofText (above ++ (line ++ below))).lineText (above.count '\n' + 1) =
      dropTrailing (· = '\r') line := by
  have hexists : ¬ (above.count '\n' + 1 = 0 ∨
      (ofText (above ++ (line ++ below))).starts.length < above.count '\n' + 1) := by
    rw [length_starts, List.count_append]
    omega
  have hfeed : ∀ c ∈ below.take 1, decide (c = '\n') = true := by
    rcases hbelow.cases with rfl | ⟨text, rfl⟩ <;> simp
  have hkept : dropTrailing (· = '\n') line = line := by
    apply dropTrailing_of_last
    intro c hc
    apply decide_eq_false
    rintro rfl
    exact hline (List.mem_of_getLast? hc)
  have hslice := slice?_line habove hline hbelow
  rw [lineText, if_neg hexists, Nat.add_sub_cancel]
  simp only [ofText] at hslice ⊢
  rw [hslice, Option.getD_some, dropTrailing_append_of_forall line hfeed, hkept]

end LineTable

end DiceScript
