import DiceScript.Proofs.Text.Encoding
import DiceScript.Proofs.Text.Lines

/-!
# Segments of a byte string

A byte string is cut just after each line feed. Reading a line takes off the first segment, whether
or not it is text, and answers what is left of its text without the line end.
-/

namespace DiceScript

/-- A byte string, cut after each line feed. -/
def segments : Bytes → List Bytes
  | [] => []
  | b :: bytes =>
    if b = 10 then [b] :: segments bytes
    else
      match segments bytes with
      | [] => [[b]]
      | segment :: rest => (b :: segment) :: rest

/-- A text without a line feed at its end and a carriage return just before that. -/
def withoutLineEnd (text : List Char) : List Char :=
  if text.getLast? = some '\n' then dropLast? '\r' text.dropLast else text

/-- What the reading of a segment answers. -/
def ReadsAs (segment : Bytes) : LineRead → Prop
  | .line text => ∃ whole : String, segment = Utf8.encode whole ∧
      text.toList = withoutLineEnd whole.toList
  | .notText => ∀ whole : String, segment ≠ Utf8.encode whole
  | .endOfInput => False

/-! ## Cutting -/

theorem segments_flatten (bytes : Bytes) : (segments bytes).flatten = bytes := by
  induction bytes with
  | nil => rfl
  | cons b bytes ih =>
      rw [segments]
      split
      · rw [List.flatten_cons, ih, List.singleton_append]
      · split
        · rename_i hnil
          rw [hnil] at ih
          rw [← ih]
          rfl
        · rename_i segment rest hcons
          rw [hcons] at ih
          rw [← ih]
          rfl

theorem segments_feed {line : Bytes} (h : 10 ∉ line) (rest : Bytes) :
    segments (line ++ 10 :: rest) = (line ++ [10]) :: segments rest := by
  induction line with
  | nil => rw [List.nil_append, segments, if_pos rfl, List.nil_append]
  | cons b line ih =>
      rw [List.mem_cons, not_or] at h
      rw [List.cons_append, segments, if_neg (Ne.symm h.1), ih h.2]
      rfl

theorem segments_last {line : Bytes} (h : 10 ∉ line) (hne : line ≠ []) :
    segments line = [line] := by
  induction line with
  | nil => exact absurd rfl hne
  | cons b line ih =>
      rw [List.mem_cons, not_or] at h
      rw [segments, if_neg (Ne.symm h.1)]
      cases line with
      | nil => rfl
      | cons c line => rw [ih h.2 (List.cons_ne_nil c line)]

/-- Induction on the lines of a byte string, of which the last may lack its line feed. -/
@[elab_as_elim]
theorem line_induction {P : Bytes → Prop} (nil : P [])
    (last : ∀ line : Bytes, line ≠ [] → 10 ∉ line → P line)
    (feed : ∀ line rest : Bytes, 10 ∉ line → P rest → P (line ++ 10 :: rest)) (bytes : Bytes) :
    P bytes := by
  induction hlength : bytes.length using Nat.strong_induction_on generalizing bytes with
  | _ n ih =>
      by_cases hmem : 10 ∈ bytes
      · obtain ⟨line, rest, rfl, hline⟩ := List.eq_append_cons_of_mem hmem
        refine feed line rest hline (ih rest.length ?_ rest rfl)
        simp only [← hlength, List.length_append, List.length_cons]
        omega
      · rcases bytes with _ | ⟨b, bytes⟩
        · exact nil
        · exact last _ (List.cons_ne_nil b bytes) hmem

/-- A line feed stands only at the end of a segment. -/
theorem mem_segments {bytes segment : Bytes} (h : segment ∈ segments bytes) :
    segment ≠ [] ∧ 10 ∉ segment.dropLast := by
  induction bytes using line_induction with
  | nil => cases h
  | last line hne hline =>
      rw [segments_last hline hne, List.mem_singleton] at h
      rw [h]
      exact ⟨hne, fun hmem => hline (List.mem_of_mem_dropLast hmem)⟩
  | feed line rest hline ih =>
      rw [segments_feed hline, List.mem_cons] at h
      rcases h with rfl | h
      · rw [List.dropLast_concat]
        exact ⟨by simp, hline⟩
      · exact ih h

/-- Every segment but the last has its line feed. -/
theorem getLast?_of_mem_dropLast {bytes segment : Bytes}
    (h : segment ∈ (segments bytes).dropLast) : segment.getLast? = some 10 := by
  induction bytes using line_induction with
  | nil => cases h
  | last line hne hline =>
      rw [segments_last hline hne] at h
      cases h
  | feed line rest hline ih =>
      rw [segments_feed hline] at h
      cases hrest : segments rest with
      | nil =>
          rw [hrest] at h
          cases h
      | cons next more =>
          rw [hrest, List.dropLast_cons_of_ne_nil (List.cons_ne_nil next more), ← hrest] at h
          rcases List.mem_cons.mp h with rfl | h
          · simp
          · exact ih h

/-! ## Reading -/

theorem readLine_feed {line : Bytes} (h : 10 ∉ line) (rest : Bytes) :
    readLine (line ++ 10 :: rest) = (readLine.ofBytes (dropLast? 13 line), rest) := by
  rw [readLine, cutFirst_append h]
  cases line <;> rfl

theorem readLine_last {line : Bytes} (h : 10 ∉ line) (hne : line ≠ []) :
    readLine line = (readLine.ofBytes line, []) := by
  rw [readLine, cutFirst_of_notMem h]
  cases line with
  | nil => exact absurd rfl hne
  | cons b line => rfl

/-- Nothing behind the first line feed matters for a line. -/
theorem readLine_append {front : Bytes} (h : 10 ∈ front) (rest : Bytes) :
    readLine (front ++ rest) = ((readLine front).1, (readLine front).2 ++ rest) := by
  obtain ⟨line, more, rfl, hline⟩ := List.eq_append_cons_of_mem h
  rw [List.append_assoc, List.cons_append, readLine_feed hline, readLine_feed hline]

theorem exists_encode_eq_append {text : String} {c : Char} (h : text.toList.getLast? = some c) :
    ∃ front, Utf8.encode text = front ++ Utf8.encodeChar c := by
  obtain ⟨cs, hcs⟩ := List.getLast?_eq_some_iff.mp h
  refine ⟨cs.flatMap Utf8.encodeChar, ?_⟩
  rw [Utf8.encode, hcs, List.flatMap_append, List.flatMap_singleton]

/-- A last line is read as it is. -/
theorem readsAs_last {line : Bytes} (h : 10 ∉ line) : ReadsAs line (readLine.ofBytes line) := by
  unfold readLine.ofBytes
  cases hdecode : Utf8.decode? line with
  | none => exact Utf8.decode?_eq_none_iff.mp hdecode
  | some text =>
      have hline := Utf8.decode?_eq_some_iff.mp hdecode
      refine ⟨text, hline, (if_neg fun hlast => h ?_).symm⟩
      obtain ⟨front, hfront⟩ := exists_encode_eq_append hlast
      rw [hline, hfront]
      exact List.mem_append_right _ (List.mem_singleton.mpr rfl)

/-- A line with its line feed is read without its line end. Its bytes are text when those before
the line end are. -/
theorem readsAs_feed (line : Bytes) :
    ReadsAs (line ++ [10]) (readLine.ofBytes (dropLast? 13 line)) := by
  have hfeed : Utf8.decode? (line ++ [10]) =
      (Utf8.decode? line).map fun text => text.push '\n' := Utf8.decode?_concat (by decide) line
  unfold readLine.ofBytes
  by_cases hlast : line.getLast? = some 13
  · obtain ⟨front, rfl⟩ := List.getLast?_eq_some_iff.mp hlast
    have hreturn : Utf8.decode? (front ++ [13]) =
        (Utf8.decode? front).map fun text => text.push '\r' := Utf8.decode?_concat (by decide) front
    rw [dropLast?, if_pos hlast, List.dropLast_concat]
    cases hdecode : Utf8.decode? front with
    | none =>
        rw [hreturn, hdecode] at hfeed
        exact Utf8.decode?_eq_none_iff.mp hfeed
    | some text =>
        rw [hreturn, hdecode] at hfeed
        refine ⟨_, Utf8.decode?_eq_some_iff.mp hfeed, ?_⟩
        simp [withoutLineEnd, dropLast?]
  · rw [dropLast?, if_neg hlast]
    cases hdecode : Utf8.decode? line with
    | none =>
        rw [hdecode] at hfeed
        exact Utf8.decode?_eq_none_iff.mp hfeed
    | some text =>
        rw [hdecode] at hfeed
        refine ⟨_, Utf8.decode?_eq_some_iff.mp hfeed, ?_⟩
        have hkept : ¬ text.toList.getLast? = some '\r' := by
          intro hreturn
          obtain ⟨front, hfront⟩ := exists_encode_eq_append hreturn
          apply hlast
          rw [Utf8.decode?_eq_some_iff.mp hdecode, hfront]
          exact List.getLast?_concat
        simp [withoutLineEnd, dropLast?, hkept]

/-- Reading a line answers the first segment and leaves the others. -/
theorem segments_eq_cons {bytes : Bytes} (h : bytes ≠ []) :
    ∃ segment, segments bytes = segment :: segments (readLine bytes).2 ∧
      ReadsAs segment (readLine bytes).1 := by
  induction bytes using line_induction with
  | nil => exact absurd rfl h
  | last line hne hline =>
      rw [segments_last hline hne, readLine_last hline hne]
      exact ⟨line, rfl, readsAs_last hline⟩
  | feed line rest hline _ =>
      rw [segments_feed hline, readLine_feed hline]
      exact ⟨line ++ [10], rfl, readsAs_feed line⟩

theorem segments_eq_nil_iff {bytes : Bytes} : segments bytes = [] ↔ bytes = [] := by
  constructor
  · intro h
    rw [← segments_flatten bytes, h, List.flatten_nil]
  · rintro rfl
    rfl

/-! ## Written lines -/

theorem notMem_encode {text : String} (h : '\n' ∉ text.toList) : 10 ∉ Utf8.encode text := by
  intro hmem
  obtain ⟨c, hc, hbyte⟩ := List.mem_flatMap.mp hmem
  rw [Utf8.eq_of_mem_encodeChar (a := 10) (by decide) hbyte] at hc
  exact h hc

theorem getLast?_encode {text : String} (h : text.toList.getLast? ≠ some '\r') :
    (Utf8.encode text).getLast? ≠ some 13 := by
  cases hlast : text.toList.getLast? with
  | none =>
      rw [Utf8.encode, List.getLast?_eq_none_iff.mp hlast]
      simp
  | some c =>
      obtain ⟨front, hfront⟩ := exists_encode_eq_append hlast
      intro hreturn
      have hne : Utf8.encodeChar c ≠ [] := by
        obtain ⟨b, bytes, hencode, -⟩ := Utf8.nextUnit_encodeChar c []
        rw [hencode]
        exact List.cons_ne_nil b bytes
      rw [hfront, List.getLast?_append_of_ne_nil _ hne] at hreturn
      apply h
      rw [hlast, Utf8.eq_of_mem_encodeChar (a := 13) (by decide) (List.mem_of_getLast? hreturn)]
      rfl

/-- The text can be printed as a line and read back: it has no line feed, and does not end in a
carriage return. -/
def KeepsAsLine (text : String) : Prop :=
  '\n' ∉ text.toList ∧ text.toList.getLast? ≠ some '\r'

instance : DecidablePred KeepsAsLine :=
  fun text => inferInstanceAs (Decidable ('\n' ∉ text.toList ∧ text.toList.getLast? ≠ some '\r'))

theorem IsLine.keepsAsLine {text : String} (h : IsLine text.toList) : KeepsAsLine text :=
  ⟨fun hmem => (h _ hmem).1 rfl, fun hlast => (h _ (List.mem_of_getLast? hlast)).2 rfl⟩

theorem readLine_encode {text : String} (h : KeepsAsLine text) (rest : Bytes) :
    readLine (Utf8.encode (text ++ "\n") ++ rest) = (.line text, rest) := by
  have hbytes : Utf8.encode (text ++ "\n") ++ rest = Utf8.encode text ++ 10 :: rest := by
    simp [Utf8.encode, Utf8.encodeChar]
  rw [hbytes, readLine_feed (notMem_encode h.1), dropLast?, if_neg (getLast?_encode h.2),
    readLine.ofBytes, Utf8.decode?_encode]

end DiceScript
