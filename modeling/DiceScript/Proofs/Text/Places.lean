import DiceScript.Proofs.Text.Positions

/-!
# Places in a text

The offsets of a text have places of their own, and the places come in the order of the offsets. The
line of a place is the text between the line feeds around the offset.
-/

namespace DiceScript

/-- The characters since the last line feed. -/
def sinceFeed (before : List Char) : List Char :=
  before.rtakeWhile (· ≠ '\n')

theorem sinceFeed_append {above lead : List Char} (habove : EndsLine above) (hlead : '\n' ∉ lead) :
    sinceFeed (above ++ lead) = lead := by
  induction lead using List.reverseRecOn with
  | nil =>
      rw [List.append_nil]
      rcases habove.cases with rfl | ⟨text, rfl⟩
      · rfl
      · exact List.rtakeWhile_concat_neg _ _ _ (by simp)
  | append_singleton lead c ih =>
      rw [List.mem_append, List.mem_singleton, not_or] at hlead
      rw [← List.append_assoc, sinceFeed, List.rtakeWhile_concat,
        if_pos (decide_eq_true (Ne.symm hlead.2)), ← sinceFeed, ih hlead.1]

theorem takeWhile_trail {trail below : List Char} (htrail : '\n' ∉ trail)
    (hbelow : StartsAfterLine below) : (trail ++ below).takeWhile (· ≠ '\n') = trail := by
  have hkept : ∀ c ∈ trail, decide (c ≠ '\n') = true := by
    intro c hc
    apply decide_eq_true
    rintro rfl
    exact htrail hc
  rw [List.takeWhile_append_of_pos hkept]
  rcases hbelow.cases with rfl | ⟨text, rfl⟩ <;> simp

/-- A text has parts with any number of its line feeds before them. -/
theorem exists_count_eq {text : List Char} {n : Nat} (h : n ≤ text.count '\n') :
    ∃ before after, text = before ++ after ∧ before.count '\n' = n := by
  induction text generalizing n with
  | nil => exact ⟨[], [], rfl, (Nat.le_zero.mp h).symm⟩
  | cons c text ih =>
      by_cases hn : n = 0
      · exact ⟨[], c :: text, rfl, hn.symm⟩
      by_cases hc : c = '\n'
      · subst hc
        rw [List.count_cons_self] at h
        have hfeeds : n - 1 ≤ text.count '\n' := by omega
        obtain ⟨before, after, rfl, hcount⟩ := ih hfeeds
        refine ⟨'\n' :: before, after, rfl, ?_⟩
        rw [List.count_cons_self, hcount]
        omega
      · rw [List.count_cons_of_ne hc] at h
        obtain ⟨before, after, rfl, hcount⟩ := ih h
        exact ⟨c :: before, after, rfl, by rw [List.count_cons_of_ne hc, hcount]⟩

/-! ## The order of places -/

namespace Position

/-- Further up, or on the same line and further left. -/
def Precedes (p q : Position) : Prop :=
  p.line < q.line ∨ p.line = q.line ∧ p.column < q.column

theorem Precedes.trans {p q r : Position} (h : p.Precedes q) (h' : q.Precedes r) :
    p.Precedes r := by
  unfold Precedes at *
  omega

theorem Precedes.ne {p q : Position} (h : p.Precedes q) : p ≠ q := by
  rintro rfl
  unfold Precedes at h
  omega

theorem precedes_after (p : Position) (c : Char) : p.Precedes (p.after c) := by
  unfold after
  split
  · exact .inl (Nat.lt_succ_self _)
  · exact .inr ⟨rfl, Nat.lt_succ_self _⟩

/-- Reading on leads further. -/
theorem precedes_advance (p : Position) {text : List Char} (h : text ≠ []) :
    p.Precedes (p.advance text) := by
  induction text generalizing p with
  | nil => exact absurd rfl h
  | cons c text ih =>
      change p.Precedes ((p.after c).advance text)
      by_cases htext : text = []
      · rw [htext]
        exact p.precedes_after c
      · exact (p.precedes_after c).trans (ih _ htext)

theorem advance_first (before : List Char) :
    first.advance before = ⟨1 + before.count '\n', 1 + (sinceFeed before).length⟩ := by
  obtain ⟨above, lead, rfl, habove, hlead⟩ := exists_lineStart before
  rw [advance_line habove hlead, sinceFeed_append habove hlead, List.count_append,
    List.count_eq_zero.mpr hlead, Nat.add_zero, Nat.add_comm 1, Nat.add_comm 1]

end Position

/-! ## Searching the starts of lines -/

theorem pairwise_lineStartsFrom (offset : Nat) (text : List Char) :
    (lineStartsFrom offset text).Pairwise (· < ·) := by
  induction text generalizing offset with
  | nil => exact .nil
  | cons c text ih =>
      simp only [lineStartsFrom]
      split
      · exact .cons (fun start hstart => (mem_lineStartsFrom hstart).1) (ih _)
      · exact ih _

/-- What a search for a number in an increasing list may come to, less one when the number is not
there and would be put behind another. -/
inductive Finds (xs : List Nat) (x : Nat) : Nat → Prop
  | hit {i : Nat} : xs[i]? = some x → Finds xs x i
  | miss {i : Nat} : i ≤ xs.length → (∀ y ∈ xs.take i, y < x) → (∀ y ∈ xs.drop i, x < y) →
    Finds xs x (i - 1)

theorem countP_of_split {xs ys : List Nat} {x : Nat} (hxs : ∀ y ∈ xs, y ≤ x)
    (hys : ∀ y ∈ ys, x < y) : (xs ++ ys).countP (· ≤ x) = xs.length := by
  have hfront : xs.countP (· ≤ x) = xs.length :=
    List.countP_eq_length.mpr fun y hy => decide_eq_true (hxs y hy)
  have hback : ys.countP (· ≤ x) = 0 :=
    List.countP_eq_zero.mpr fun y hy => by simpa using hys y hy
  rw [List.countP_append, hfront, hback, Nat.add_zero]

/-- Counting comes to the same as any search. -/
theorem Finds.eq_countP {xs : List Nat} {x i : Nat} (hxs : xs.Pairwise (· < ·))
    (h : Finds xs x i) : i = xs.countP (· ≤ x) - 1 := by
  cases h with
  | hit hget =>
      obtain ⟨hlt, rfl⟩ := List.getElem?_eq_some_iff.mp hget
      have hsplit : xs = xs.take (i + 1) ++ xs.drop (i + 1) := (List.take_append_drop _ _).symm
      have hfront : ∀ y ∈ xs.take (i + 1), y ≤ xs[i] := by
        intro y hy
        rw [List.take_succ_eq_append_getElem hlt, List.mem_append, List.mem_singleton] at hy
        rcases hy with hy | rfl
        · obtain ⟨j, hj, rfl⟩ := List.mem_take_iff_getElem.mp hy
          exact (List.pairwise_iff_getElem.mp hxs j i _ _ (by omega)).le
        · exact le_rfl
      have hback : ∀ y ∈ xs.drop (i + 1), xs[i] < y := by
        intro y hy
        obtain ⟨j, hj, rfl⟩ := List.mem_drop_iff_getElem.mp hy
        exact List.pairwise_iff_getElem.mp hxs i _ _ _ (by omega)
      have hcount := countP_of_split hfront hback
      rw [← hsplit, List.length_take, Nat.min_eq_left hlt] at hcount
      omega
  | @miss i hle hfront hback =>
      have hcount := countP_of_split (fun y hy => (hfront y hy).le) hback
      rw [List.take_append_drop, List.length_take, Nat.min_eq_left hle] at hcount
      rw [hcount]

/-- Some search succeeds. -/
theorem exists_finds {xs : List Nat} (hxs : xs.Pairwise (· < ·)) (x : Nat) : ∃ i, Finds xs x i := by
  obtain ⟨front, back, rfl, hfront, hback⟩ : ∃ front back, xs = front ++ back ∧
      (∀ y ∈ front, y < x) ∧ ∀ y ∈ back.head?, x ≤ y := by
    refine ⟨xs.takeWhile (· < x), xs.dropWhile (· < x), List.takeWhile_append_dropWhile.symm,
      fun y hy => by simpa using List.mem_takeWhile_imp hy, fun y hy => ?_⟩
    have hhead := List.head?_dropWhile_not (· < x) xs
    rw [hy] at hhead
    simpa using hhead
  by_cases hhit : back.head? = some x
  · obtain ⟨rest, rfl⟩ := List.head?_eq_some_iff.mp hhit
    exact ⟨front.length, .hit (by simp)⟩
  · refine ⟨front.length - 1, .miss (by simp) (by simpa using hfront) ?_⟩
    rw [List.drop_left]
    cases back with
    | nil => simp
    | cons y rest =>
        have hy : x < y := Nat.lt_of_le_of_ne (hback y rfl) fun heq => hhit (by rw [heq]; rfl)
        intro z hz
        rcases List.mem_cons.mp hz with rfl | hz
        · exact hy
        · exact hy.trans (List.rel_of_pairwise_cons (List.pairwise_append.mp hxs).2.1 hz)

/-! ## Line tables -/

namespace LineTable

variable {text : List Char}

theorem pairwise_starts (text : List Char) : (ofText text).starts.Pairwise (· < ·) :=
  .cons (fun _ hstart => (mem_lineStartsFrom hstart).1) (pairwise_lineStartsFrom 0 text)

theorem finds_starts_iff (text : List Char) {offset i : Nat} :
    Finds (ofText text).starts offset i ↔ i = (ofText text).lineIndex offset := by
  have heq : ∀ {j}, Finds (ofText text).starts offset j → j = (ofText text).lineIndex offset :=
    fun h => h.eq_countP (pairwise_starts text)
  constructor
  · exact heq
  · rintro rfl
    obtain ⟨j, hj⟩ := exists_finds (pairwise_starts text) offset
    rwa [← heq hj]

theorem lineText_append (before after : List Char) :
    (ofText (before ++ after)).lineText (1 + before.count '\n') =
      dropTrailing (· = '\r') (sinceFeed before ++ after.takeWhile (· ≠ '\n')) := by
  obtain ⟨above, lead, rfl, habove, hlead⟩ := exists_lineStart before
  obtain ⟨trail, below, rfl, htrail, hbelow⟩ := exists_lineEnd after
  have hline : '\n' ∉ lead ++ trail := by
    rw [List.mem_append, not_or]
    exact ⟨hlead, htrail⟩
  rw [sinceFeed_append habove hlead, takeWhile_trail htrail hbelow, List.count_append,
    List.count_eq_zero.mpr hlead, Nat.add_zero, Nat.add_comm, ← lineText_ofText habove hline hbelow]
  simp only [List.append_assoc]

theorem lineText_eq_nil {n : Nat} (h : n = 0 ∨ text.count '\n' + 1 < n) :
    (ofText text).lineText n = [] := by
  rw [lineText, if_pos]
  rwa [length_starts]

/-- What the table of a text answers. -/
structure IsExact (text : List Char) : Prop where
  /-- The line is one more than the line feeds before the offset, and the column one more than the
  characters since the last of them. -/
  position : ∀ before after, text = before ++ after →
    (ofText text).position (byteLength before) =
      ⟨1 + before.count '\n', 1 + (sinceFeed before).length⟩
  precedes : ∀ before after before' after', text = before ++ after → text = before' ++ after' →
    byteLength before < byteLength before' →
      ((ofText text).position (byteLength before)).Precedes
        ((ofText text).position (byteLength before'))
  distinct : ∀ before after before' after', text = before ++ after → text = before' ++ after' →
    byteLength before ≠ byteLength before' →
      (ofText text).position (byteLength before) ≠ (ofText text).position (byteLength before')
  /-- The text of the line that is found stands between the line feeds around the offset. -/
  lineText : ∀ before after, text = before ++ after →
    (ofText text).lineText ((ofText text).position (byteLength before)).line =
      dropTrailing (· = '\r') (sinceFeed before ++ after.takeWhile (· ≠ '\n'))
  /-- One line more than there are line feeds exists, and no other. -/
  lines : ∀ n, (∃ before after, text = before ++ after ∧
    ((ofText text).position (byteLength before)).line = n) ↔ 1 ≤ n ∧ n ≤ text.count '\n' + 1
  missing : ∀ n, (∀ before after, text = before ++ after →
    ((ofText text).position (byteLength before)).line ≠ n) → (ofText text).lineText n = []
  /-- Any search of the starts of the lines comes to the line. -/
  search : ∀ offset i, Finds (ofText text).starts offset i ↔ i = (ofText text).lineIndex offset

theorem position_append (before after : List Char) :
    (ofText (before ++ after)).position (byteLength before) =
      ⟨1 + before.count '\n', 1 + (sinceFeed before).length⟩ := by
  rw [position_ofText, Position.advance_first]

theorem position_precedes {before after before' after' : List Char}
    (h : before ++ after = before' ++ after') (hlt : byteLength before < byteLength before') :
    ((ofText (before ++ after)).position (byteLength before)).Precedes
      ((ofText (before ++ after)).position (byteLength before')) := by
  obtain ⟨zs, rfl, rfl⟩ := exists_between h.symm hlt.le
  have hne : zs ≠ [] := by
    rintro rfl
    simp at hlt
  rw [position_ofText, h, position_ofText, Position.advance_append]
  exact Position.precedes_advance _ hne

theorem exists_line_iff {n : Nat} :
    (∃ before after, text = before ++ after ∧
      ((ofText text).position (byteLength before)).line = n) ↔
        1 ≤ n ∧ n ≤ text.count '\n' + 1 := by
  constructor
  · rintro ⟨before, after, rfl, rfl⟩
    rw [position_append, List.count_append]
    dsimp only
    omega
  · rintro ⟨hpos, hle⟩
    have hfeeds : n - 1 ≤ text.count '\n' := by omega
    obtain ⟨before, after, rfl, hcount⟩ := exists_count_eq hfeeds
    refine ⟨before, after, rfl, ?_⟩
    rw [position_append]
    dsimp only
    omega

/-- The places of any text are exact. -/
theorem isExact_ofText (text : List Char) : IsExact text where
  position := by
    rintro before after rfl
    exact position_append before after
  precedes := by
    rintro before after before' after' rfl h hlt
    exact position_precedes h hlt
  distinct := by
    rintro before after before' after' rfl h hne
    rcases Nat.lt_or_gt_of_ne hne with hlt | hgt
    · exact (position_precedes h hlt).ne
    · rw [h]
      exact (position_precedes h.symm hgt).ne.symm
  lineText := by
    rintro before after rfl
    rw [position_append]
    exact lineText_append before after
  lines := fun _ => exists_line_iff
  missing := by
    intro n hmissing
    apply lineText_eq_nil
    have hnot : ¬ (1 ≤ n ∧ n ≤ text.count '\n' + 1) := by
      rw [← exists_line_iff]
      rintro ⟨before, after, htext, hline⟩
      exact hmissing before after htext hline
    omega
  search := fun _ _ => finds_starts_iff text

end LineTable

end DiceScript
