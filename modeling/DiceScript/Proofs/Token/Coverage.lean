import DiceScript.Proofs.Token.Lexemes

/-!
# Every character of a source

The tokens of a source stand in it one after the other, each the longest word at its place or a
maximal run of characters at which nothing starts. What lies between them is white space and whole
comments.
-/

namespace DiceScript

/-- The byte at an offset belongs to the range. -/
def Span.Contains (s : Span) (offset : Nat) : Prop :=
  s.start ≤ offset ∧ offset < s.stop

namespace Token

/-! ## One lexeme after another -/

/-- The token of a word that stands after given characters of a source. -/
def tokenAt (kind : TokenKind) (before word : List Char) : Token :=
  ⟨kind, String.ofList word, Position.first.advance before,
    ⟨byteLength before, byteLength before + byteLength word⟩⟩

/-- The text, which stands after given characters, is cut into lexemes that have these tokens. -/
inductive Covers : List Char → List Char → List Token → Prop
  | nil {before : List Char} : Covers before [] []
  | skip {before skipped rest : List Char} {ts : List Token} : Skips skipped rest →
      Covers (before ++ skipped) rest ts → Covers before (skipped ++ rest) ts
  | token {before word rest : List Char} {kind : TokenKind} {ts : List Token} :
      Lexes kind word rest → Covers (before ++ word) rest ts →
      Covers before (word ++ rest) (tokenAt kind before word :: ts)

theorem scan_covers (before text : List Char) :
    Covers before text (scan (Position.first.advance before) (byteLength before) text) := by
  induction hn : text.length using Nat.strong_induction_on generalizing before text with
  | _ n ih =>
      cases text with
      | nil =>
          rw [scan]
          exact .nil
      | cons c rest =>
          obtain ⟨taken, left, htext, hlength, hspec⟩ := lexeme_spec (List.cons_ne_nil c rest)
          have hne : taken ≠ [] := by
            cases hkind : (lexeme (c :: rest)).1 with
            | none =>
                rw [hkind] at hspec
                exact Skips.ne_nil hspec
            | some kind =>
                rw [hkind] at hspec
                exact Lexes.ne_nil hspec
          obtain ⟨d, taken, rfl⟩ := List.exists_cons_of_ne_nil hne
          rw [List.cons_append] at htext
          obtain ⟨rfl, rfl⟩ := List.cons.inj htext
          have hlt : left.length < n := by
            rw [← hn, List.length_cons, List.length_append]
            omega
          have hrest := ih left.length hlt (before ++ c :: taken) left rfl
          rw [Position.advance_append, byteLength_append] at hrest
          rw [scan_cons, hlength]
          simp only [List.length_cons, Nat.add_sub_cancel, List.take_left, List.drop_left]
          cases hkind : (lexeme (c :: (taken ++ left))).1 with
          | none =>
              rw [hkind] at hspec
              exact .skip hspec hrest
          | some kind =>
              rw [hkind] at hspec
              exact .token hspec hrest

theorem tokenize_covers (source : String) : Covers [] source.toList (tokenize source) :=
  scan_covers [] source.toList

namespace Covers

variable {before text : List Char} {ts : List Token}

/-- Each token is that of a word at its place. -/
theorem exists_lexes (h : Covers before text ts) {t : Token} (ht : t ∈ ts) :
    ∃ kind a word rest, before ++ text = a ++ (word ++ rest) ∧ t = tokenAt kind a word ∧
      Lexes kind word rest ∧ byteLength before ≤ byteLength a := by
  induction h with
  | nil => cases ht
  | skip _ _ ih =>
      obtain ⟨kind, a, word, rest, htext, rfl, hlexes, hle⟩ := ih ht
      rw [byteLength_append] at hle
      exact ⟨kind, a, word, rest, by rw [← List.append_assoc, htext], rfl, hlexes, by omega⟩
  | @token before word rest kind ts hlexes _ ih =>
      rcases List.mem_cons.mp ht with rfl | ht
      · exact ⟨kind, before, word, rest, rfl, rfl, hlexes, Nat.le_refl _⟩
      · obtain ⟨kind, a, word, rest, htext, rfl, hlexes, hle⟩ := ih ht
        rw [byteLength_append] at hle
        exact ⟨kind, a, word, rest, by rw [← List.append_assoc, htext], rfl, hlexes, by omega⟩

theorem start_le (h : Covers before text ts) {t : Token} (ht : t ∈ ts) :
    byteLength before ≤ t.span.start := by
  obtain ⟨kind, a, word, rest, -, rfl, -, hle⟩ := h.exists_lexes ht
  exact hle

theorem ordered (h : Covers before text ts) :
    ts.Pairwise fun t u => t.span.stop ≤ u.span.start := by
  induction h with
  | nil => exact .nil
  | skip _ _ ih => exact ih
  | token _ hrest ih =>
      apply List.pairwise_cons.mpr
      refine ⟨?_, ih⟩
      intro u hu
      have hle := hrest.start_le hu
      rwa [byteLength_append] at hle

end Covers

/-! ## What becomes of each character -/

/-- The byte at an offset belongs to a comment in which no token stands. -/
def InComment (source : List Char) (ts : List Token) (offset : Nat) : Prop :=
  ∃ before comment after, source = before ++ (comment ++ after) ∧ IsComment comment after ∧
    (Span.mk (byteLength before) (byteLength before + byteLength comment)).Contains offset ∧
    ∀ t ∈ ts, t.span.stop ≤ byteLength before ∨
      byteLength before + byteLength comment ≤ t.span.start

/-- The tokens are those of the source: none is lost, and none invented. -/
structure AccountsFor (ts : List Token) (source : List Char) : Prop where
  nonempty : ∀ t ∈ ts, t.span.start < t.span.stop
  text : ∀ t ∈ ts, slice? source t.span.start t.span.stop = some t.text.toList
  ordered : ts.Pairwise fun t u => t.span.stop ≤ u.span.start
  /-- A character of no token is white space or part of a comment. -/
  gaps : ∀ before c after, source = before ++ c :: after →
    (∀ t ∈ ts, ¬ t.span.Contains (byteLength before)) →
    isLayout c = true ∨ InComment source ts (byteLength before)
  words : ∀ t ∈ ts, t.kind ≠ .unknown → ∃ before after,
    source = before ++ (t.text.toList ++ after) ∧ byteLength before = t.span.start ∧
      IsLongest t.kind t.text.toList after
  strays : ∀ t ∈ ts, t.kind = .unknown → ∀ before after, source = before ++ after →
    t.span.Contains (byteLength before) → ¬ Starts after
  apart : ts.Pairwise fun t u => t.kind = .unknown → u.kind = .unknown → t.span.stop < u.span.start

namespace Covers

variable {before text : List Char} {ts : List Token}

/-- A character of what gives no token, where all tokens stand before or after it. -/
theorem inSkipped {skipped rest a after : List Char} {c : Char} (hskips : Skips skipped rest)
    (htext : before ++ (skipped ++ rest) = a ++ c :: after)
    (hle : byteLength before ≤ byteLength a) (hlt : byteLength a < byteLength (before ++ skipped))
    (hapart : ∀ t ∈ ts, t.span.stop ≤ byteLength before ∨
      byteLength (before ++ skipped) ≤ t.span.start) :
    isLayout c = true ∨ InComment (before ++ (skipped ++ rest)) ts (byteLength a) := by
  rw [byteLength_append] at hlt hapart
  cases hskips with
  | comment hcomment =>
      exact .inr ⟨before, skipped, rest, rfl, hcomment, ⟨hle, hlt⟩, hapart⟩
  | layout _ hall =>
      obtain ⟨between, rfl, hsplit⟩ := exists_between htext.symm hle
      rw [byteLength_append] at hlt
      obtain ⟨zs, rfl, hzs⟩ := exists_between hsplit (by omega)
      cases zs with
      | nil =>
          rw [List.append_nil] at hlt
          omega
      | cons d zs =>
          obtain ⟨rfl, -⟩ := List.cons.inj hzs
          exact .inl (hall _ (by simp))

/-- A character that no token has, when tokens that stand before the text are known as well. -/
theorem gap (h : Covers before text ts) {earlier : List Token}
    (hearlier : ∀ t ∈ earlier, t.span.stop ≤ byteLength before) {a : List Char} {c : Char}
    {after : List Char} (htext : before ++ text = a ++ c :: after)
    (hle : byteLength before ≤ byteLength a)
    (hno : ∀ t ∈ earlier ++ ts, ¬ t.span.Contains (byteLength a)) :
    isLayout c = true ∨ InComment (before ++ text) (earlier ++ ts) (byteLength a) := by
  induction h generalizing earlier with
  | @nil before =>
      have hlength := congrArg byteLength htext
      rw [byteLength_append, byteLength_append, byteLength_cons] at hlength
      have := c.utf8Size_pos
      simp only [byteLength_nil] at hlength
      omega
  | @skip before skipped rest ts hskips hrest ih =>
      rcases Nat.lt_or_ge (byteLength a) (byteLength (before ++ skipped)) with hlt | hge
      · refine inSkipped hskips htext hle hlt fun t ht => ?_
        rcases List.mem_append.mp ht with ht | ht
        · exact .inl (hearlier t ht)
        · exact .inr (hrest.start_le ht)
      · rw [← List.append_assoc] at htext ⊢
        refine ih (fun t ht => (hearlier t ht).trans ?_) htext hge hno
        rw [byteLength_append]
        exact Nat.le_add_right _ _
  | @token before word rest kind ts hlexes hrest ih =>
      have hhead := hno (tokenAt kind before word) (by simp)
      have hge : byteLength (before ++ word) ≤ byteLength a := by
        rw [byteLength_append]
        by_contra hlt
        exact hhead ⟨hle, Nat.lt_of_not_le hlt⟩
      rw [← List.append_assoc] at htext ⊢
      have hsplit : earlier ++ tokenAt kind before word :: ts =
          earlier ++ [tokenAt kind before word] ++ ts := by simp
      rw [hsplit] at hno ⊢
      refine ih ?_ htext hge hno
      intro t ht
      rw [byteLength_append]
      rcases List.mem_append.mp ht with ht | ht
      · exact (hearlier t ht).trans (Nat.le_add_right _ _)
      · rw [List.mem_singleton.mp ht]
        exact Nat.le_refl _

/-- Nothing starts inside a run at which nothing starts. -/
theorem not_starts (h : Covers [] text ts) {t : Token} (ht : t ∈ ts) (hkind : t.kind = .unknown)
    {a after : List Char} (htext : text = a ++ after) (hin : t.span.Contains (byteLength a)) :
    ¬ Starts after := by
  obtain ⟨kind, b, run, rest, hsource, rfl, hlexes, -⟩ := h.exists_lexes ht
  obtain rfl : kind = .unknown := hkind
  have hstray := hlexes.isStray
  obtain ⟨hlow, hhigh⟩ := hin
  simp only [tokenAt] at hlow hhigh
  rw [List.nil_append, htext] at hsource
  obtain ⟨zs, rfl, hsplit⟩ := exists_between hsource hlow
  rw [byteLength_append] at hhigh
  obtain ⟨ws, rfl, rfl⟩ := exists_between hsplit (by omega)
  refine hstray.nothing zs ws rfl ?_
  rintro rfl
  rw [List.append_nil] at hhigh
  omega

/-- Two runs at which nothing starts do not touch each other. -/
theorem stop_lt_start (h : Covers [] text ts) {t u : Token} (ht : t ∈ ts) (hu : u ∈ ts)
    (htu : t.span.stop ≤ u.span.start) (hkind : t.kind = .unknown) (hkind' : u.kind = .unknown) :
    t.span.stop < u.span.start := by
  obtain ⟨kind, a, run, rest, hsource, rfl, hlexes, -⟩ := h.exists_lexes ht
  obtain ⟨kind', b, run', rest', hsource', rfl, hlexes', -⟩ := h.exists_lexes hu
  obtain rfl : kind = .unknown := hkind
  obtain rfl : kind' = .unknown := hkind'
  have hstray := hlexes.isStray
  have hstray' := hlexes'.isStray
  apply Nat.lt_of_le_of_ne htu
  intro hmeet
  -- what starts where the first run ends is the second run, at which nothing starts
  have hsame : (a ++ run) ++ rest = b ++ (run' ++ rest') := by
    rw [List.append_assoc, ← hsource, ← hsource']
  obtain ⟨-, hrest⟩ := eq_of_byteLength_eq hsame (by rw [byteLength_append]; exact hmeet)
  rcases hstray.maximal with hnil | hstarts
  · rw [hnil] at hrest
    exact hstray'.nonempty (List.append_eq_nil_iff.mp hrest.symm).1
  · rw [hrest] at hstarts
    exact hstray'.nothing [] run' rfl hstray'.nonempty hstarts

/-- Tokens that cover a source account for it. -/
theorem accountsFor (h : Covers [] text ts) : AccountsFor ts text where
  nonempty := by
    intro t ht
    obtain ⟨kind, a, word, rest, -, rfl, hlexes, -⟩ := h.exists_lexes ht
    exact Nat.lt_add_of_pos_right (byteLength_pos hlexes.ne_nil)
  text := by
    intro t ht
    obtain ⟨kind, a, word, rest, hsource, rfl, -, -⟩ := h.exists_lexes ht
    rw [List.nil_append] at hsource
    rw [hsource]
    simp only [tokenAt, String.toList_ofList]
    exact slice?_append a word rest
  ordered := h.ordered
  gaps := by
    intro a c after htext hno
    have hnone : ∀ t ∈ ([] : List Token), t.span.stop ≤ byteLength [] := by simp
    exact h.gap hnone htext (Nat.zero_le _) hno
  words := by
    intro t ht hkind
    obtain ⟨kind, a, word, rest, hsource, rfl, hlexes, -⟩ := h.exists_lexes ht
    refine ⟨a, rest, ?_, rfl, ?_⟩
    · simpa [tokenAt] using hsource
    · simpa [tokenAt] using hlexes.isLongest hkind
  strays := by
    intro t ht hkind a after htext hin
    exact h.not_starts ht hkind htext hin
  apart := by
    apply h.ordered.imp_of_mem
    intro t u ht hu htu hkind hkind'
    exact h.stop_lt_start ht hu htu hkind hkind'

end Covers

end Token

/-- The tokens of a source account for all of it: their spans are not empty, do not overlap and
follow each other, and hold their texts. Each is the longest word at its place or a maximal run at
whose characters nothing starts. Every other character is white space or belongs to a comment. -/
theorem tokenize_accountsFor (source : String) :
    Token.AccountsFor (tokenize source) source.toList :=
  (Token.tokenize_covers source).accountsFor

end DiceScript
