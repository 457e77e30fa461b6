import DiceScript.Proofs.Token.Seam

/-!
# What a text begins with

A word of the language is a fixed word or a run of digits. White space and comments give no token.
The first lexeme of a text is the longest word or all the layout there, and where nothing starts it
is everything up to the next place at which something does.
-/

namespace DiceScript.Token

/-- A word of the language, of some kind. -/
inductive Spells : List Char → TokenKind → Prop
  | fixed {s : String} {kind : TokenKind} : (s, kind) ∈ TokenKind.spellings → Spells s.toList kind
  | digits {ds : List Char} : ds ≠ [] → (∀ d ∈ ds, d.isDigit = true) → Spells ds .number

/-- Two slashes and all that follows them, up to the next line feed or to the end. -/
structure IsComment (text rest : List Char) : Prop where
  slashes : ['/', '/'] <+: text
  oneLine : '\n' ∉ text
  whole : rest = [] ∨ rest.head? = some '\n'

/-- What gives no token before a given rest: white space or a comment. -/
inductive Skips : List Char → List Char → Prop
  | layout {blanks rest : List Char} : blanks ≠ [] → (∀ c ∈ blanks, isLayout c = true) →
      Skips blanks rest
  | comment {text rest : List Char} : IsComment text rest → Skips text rest

def StartsWord (text : List Char) : Prop :=
  ∃ word kind, Spells word kind ∧ word <+: text

def StartsSkipped (text : List Char) : Prop :=
  ∃ skipped rest, Skips skipped rest ∧ text = skipped ++ rest

/-- A word, white space or a comment starts the text. -/
def Starts (text : List Char) : Prop :=
  StartsWord text ∨ StartsSkipped text

/-- The word is the longest that starts the text of it and the rest, and no comment starts there. -/
structure IsLongest (kind : TokenKind) (word rest : List Char) : Prop where
  spells : Spells word kind
  longest : ∀ other kind', Spells other kind' → other <+: word ++ rest → other.length ≤ word.length
  notSkipped : ¬ StartsSkipped (word ++ rest)

/-- Nothing starts at any character before the rest, and something starts there unless it is the
end. -/
structure IsStray (run rest : List Char) : Prop where
  nonempty : run ≠ []
  nothing : ∀ before after, run = before ++ after → after ≠ [] → ¬ Starts (after ++ rest)
  maximal : rest = [] ∨ Starts rest

/-- The characters make a token of some kind before a given rest. -/
inductive Lexes : TokenKind → List Char → List Char → Prop
  | word {kind : TokenKind} {word rest : List Char} : IsLongest kind word rest →
      Lexes kind word rest
  | stray {run rest : List Char} : IsStray run rest → Lexes .unknown run rest

/-- The characters are taken together before a given rest: as a token of some kind, or without
one. -/
def IsLexeme : Option TokenKind → List Char → List Char → Prop
  | none, taken, rest => Skips taken rest
  | some kind, taken, rest => Lexes kind taken rest

/-! ## What starts where -/

section Starts

variable {c : Char} {rest : List Char}

theorem isComment_takeWhile {text : List Char} (h : ['/', '/'].isPrefixOf text = true) :
    IsComment (text.takeWhile (· != '\n')) (text.dropWhile (· != '\n')) := by
  obtain ⟨tail, rfl⟩ := List.isPrefixOf_iff_prefix.mp h
  constructor
  · simp
  · intro hmem
    simpa using List.mem_takeWhile_imp hmem
  · have hhead := List.head?_dropWhile_not (· != '\n') (['/', '/'] ++ tail)
    cases hrest : (['/', '/'] ++ tail).dropWhile (· != '\n') with
    | nil => exact .inl rfl
    | cons d ds =>
        rw [hrest] at hhead
        simpa using hhead

theorem startsSkipped_iff : StartsSkipped (c :: rest) ↔
    isLayout c = true ∨ ['/', '/'].isPrefixOf (c :: rest) = true := by
  constructor
  · rintro ⟨skipped, tail, hskips, htext⟩
    cases hskips with
    | layout hne hall =>
        obtain ⟨d, blanks, rfl⟩ := List.exists_cons_of_ne_nil hne
        obtain ⟨rfl, -⟩ := List.cons.inj htext
        exact .inl (hall c List.mem_cons_self)
    | comment hcomment =>
        rw [htext]
        exact .inr (List.isPrefixOf_iff_prefix.mpr
          (hcomment.slashes.trans (List.prefix_append _ _)))
  · rintro (hlayout | hslashes)
    · refine ⟨[c], rest, .layout (List.cons_ne_nil _ _) ?_, rfl⟩
      simpa using hlayout
    · exact ⟨_, _, .comment (isComment_takeWhile hslashes), List.takeWhile_append_dropWhile.symm⟩

theorem startsWord_iff : StartsWord (c :: rest) ↔
    c.isDigit = true ∨ (spelling? (c :: rest)).isSome = true := by
  constructor
  · rintro ⟨word, kind, hspells, hstart⟩
    cases hspells with
    | fixed hmem =>
        refine .inr (List.find?_isSome.mpr ⟨_, hmem, ?_⟩)
        exact List.isPrefixOf_iff_prefix.mpr hstart
    | digits hne hall =>
        obtain ⟨d, ds, rfl⟩ := List.exists_cons_of_ne_nil hne
        obtain ⟨rfl, -⟩ := List.cons_prefix_cons.mp hstart
        exact .inl (hall d List.mem_cons_self)
  · rintro (hdigit | hspelling)
    · refine ⟨[c], .number, .digits (List.cons_ne_nil _ _) ?_, ⟨rest, rfl⟩⟩
      simpa using hdigit
    · obtain ⟨s, hs⟩ := Option.isSome_iff_exists.mp hspelling
      have hfound := List.find?_some hs
      exact ⟨s.1.toList, s.2, .fixed (List.mem_of_find?_eq_some hs),
        List.isPrefixOf_iff_prefix.mp hfound⟩

theorem start?_isSome_iff : (start? (c :: rest)).isSome = true ↔ Starts (c :: rest) := by
  rw [Starts, startsWord_iff, startsSkipped_iff, start?]
  split
  · simp [*]
  · split
    · simp [*]
    · split <;> simp [*]

theorem not_starts_iff : ¬ Starts (c :: rest) ↔ start? (c :: rest) = none := by
  rw [← start?_isSome_iff, Option.not_isSome_iff_eq_none]

end Starts

/-! ## The longest word -/

/-- No fixed word stands before a longer one that begins with it. -/
theorem spellings_ordered :
    TokenKind.spellings.Pairwise fun s t => s.1.toList <+: t.1.toList → s.1.length = t.1.length := by
  have hchecked : TokenKind.spellings.Pairwise fun s t =>
      (!s.1.toList.isPrefixOf t.1.toList || s.1.length == t.1.length) = true := by decide
  apply hchecked.imp
  intro s t hst hstart
  rw [List.isPrefixOf_iff_prefix.mpr hstart] at hst
  simpa using hst

theorem spelling_head_not_digit :
    ∀ s ∈ TokenKind.spellings, ∀ c ∈ s.1.toList.head?, c.isDigit = false := by
  simp [TokenKind.spellings]

/-- The first fixed word that starts a text is the longest one. -/
theorem length_le_of_spelling? {text : List Char} {s t : String × TokenKind}
    (hs : spelling? text = some s) (ht : t ∈ TokenKind.spellings) (hstart : t.1.toList <+: text) :
    t.1.toList.length ≤ s.1.toList.length := by
  obtain ⟨hfound, before, after, hsplit, hbefore⟩ := List.find?_eq_some_iff_append.mp hs
  have hs' : s.1.toList <+: text := List.isPrefixOf_iff_prefix.mp hfound
  have hordered := spellings_ordered
  rw [hsplit, List.pairwise_append, List.pairwise_cons] at hordered
  rw [hsplit, List.mem_append, List.mem_cons] at ht
  rcases ht with ht | rfl | ht
  · have := hbefore t ht
    rw [List.isPrefixOf_iff_prefix.mpr hstart] at this
    simp at this
  · exact Nat.le_refl _
  · rcases Nat.le_total t.1.toList.length s.1.toList.length with hle | hle
    · exact hle
    · have hshorter := List.prefix_of_prefix_length_le hs' hstart hle
      have hlength := hordered.2.1.1 t ht hshorter
      simp only [String.length_toList] at hle ⊢
      omega

theorem length_le_takeWhile {α : Type} {p : α → Bool} {xs ys : List α} (h : xs <+: ys)
    (hxs : ∀ x ∈ xs, p x = true) : xs.length ≤ (ys.takeWhile p).length := by
  obtain ⟨zs, rfl⟩ := h
  rw [List.takeWhile_append_of_pos hxs, List.length_append]
  exact Nat.le_add_right _ _

/-- A run of digits that stops where the digits do is the longest word. -/
theorem isLongest_digits {c : Char} {rest : List Char} (hdigit : c.isDigit = true)
    (hnot : ¬ StartsSkipped (c :: rest)) :
    IsLongest .number ((c :: rest).takeWhile Char.isDigit)
      ((c :: rest).dropWhile Char.isDigit) where
  spells := by
    refine .digits (by simp [hdigit]) ?_
    intro d hd
    exact List.mem_takeWhile_imp hd
  longest := by
    rw [List.takeWhile_append_dropWhile]
    intro other kind hspells hbegins
    cases hspells with
    | digits _ hall => exact length_le_takeWhile hbegins hall
    | @fixed s _ hmem =>
        cases hs : s.toList with
        | nil => exact Nat.zero_le _
        | cons d ds =>
            have hhead := spelling_head_not_digit _ hmem d (by simp [hs])
            rw [hs] at hbegins
            obtain ⟨rfl, -⟩ := List.cons_prefix_cons.mp hbegins
            rw [hdigit] at hhead
            cases hhead
  notSkipped := by rwa [List.takeWhile_append_dropWhile]

/-- The first fixed word that starts a text without digits is the longest word. -/
theorem isLongest_spelling {c : Char} {rest left : List Char} {s : String × TokenKind}
    (hs : spelling? (c :: rest) = some s) (hleft : s.1.toList ++ left = c :: rest)
    (hdigit : ¬ c.isDigit = true) (hnot : ¬ StartsSkipped (c :: rest)) :
    IsLongest s.2 s.1.toList left where
  spells := .fixed (List.mem_of_find?_eq_some hs)
  longest := by
    rw [hleft]
    intro other kind hspells hbegins
    cases hspells with
    | fixed hmem => exact length_le_of_spelling? hs hmem hbegins
    | digits hne hall =>
        obtain ⟨d, ds, rfl⟩ := List.exists_cons_of_ne_nil hne
        obtain ⟨rfl, -⟩ := List.cons_prefix_cons.mp hbegins
        exact absurd (hall d List.mem_cons_self) hdigit
  notSkipped := by rwa [hleft]

/-- What starts a text and how long it is. -/
theorem start?_spec {c : Char} {rest : List Char} {kind : Option TokenKind} {n : Nat}
    (hstart : start? (c :: rest) = some (kind, n)) :
    ∃ taken left, c :: rest = taken ++ left ∧ taken.length = n ∧ IsLexeme kind taken left := by
  rw [start?] at hstart
  split at hstart
  · rename_i hlayout
    cases hstart
    refine ⟨_, _, List.takeWhile_append_dropWhile.symm, rfl, Skips.layout ?_ ?_⟩
    · simp [hlayout]
    · intro d hd
      exact List.mem_takeWhile_imp hd
  split at hstart
  · rename_i hslashes
    cases hstart
    exact ⟨_, _, List.takeWhile_append_dropWhile.symm, rfl,
      Skips.comment (isComment_takeWhile hslashes)⟩
  rename_i hlayout hslashes
  have hnot : ¬ StartsSkipped (c :: rest) := by
    rw [startsSkipped_iff]
    simp [hlayout, hslashes]
  split at hstart
  · rename_i hdigit
    cases hstart
    exact ⟨_, _, List.takeWhile_append_dropWhile.symm, rfl, .word (isLongest_digits hdigit hnot)⟩
  · rename_i hdigit
    obtain ⟨s, hs, heq⟩ := Option.map_eq_some_iff.mp hstart
    cases heq
    have hfound := List.find?_some hs
    obtain ⟨left, hleft⟩ := List.isPrefixOf_iff_prefix.mp hfound
    exact ⟨s.1.toList, left, hleft.symm, String.length_toList,
      .word (isLongest_spelling hs hleft hdigit hnot)⟩

/-! ## Lexemes -/

/-- The run of characters at which nothing starts. -/
theorem exists_unknown (text : List Char) : ∃ run left, text = run ++ left ∧
    run.length = unknownLength text ∧
    (∀ before after, run = before ++ after → after ≠ [] → ¬ Starts (after ++ left)) ∧
    (left = [] ∨ Starts left) := by
  induction text with
  | nil => exact ⟨[], [], rfl, rfl, by simp, .inl rfl⟩
  | cons c text ih =>
      rw [unknownLength]
      cases hstart : start? (c :: text) with
      | some k =>
          refine ⟨[], c :: text, rfl, rfl, by simp, .inr ?_⟩
          rw [← start?_isSome_iff, hstart]
          rfl
      | none =>
          obtain ⟨run, left, rfl, hlength, hnothing, hmaximal⟩ := ih
          refine ⟨c :: run, left, rfl, by simp [hlength], ?_, hmaximal⟩
          intro before after hsplit hne
          cases before with
          | nil =>
              rw [List.nil_append] at hsplit
              rw [← hsplit]
              exact not_starts_iff.mpr hstart
          | cons d before =>
              rw [List.cons_append] at hsplit
              exact hnothing before after (List.cons.inj hsplit).2 hne

theorem Spells.ne_nil {word : List Char} {kind : TokenKind} (h : Spells word kind) : word ≠ [] := by
  have hwords : ∀ s ∈ TokenKind.spellings, s.1.toList ≠ [] := by decide
  cases h with
  | fixed hmem => exact hwords _ hmem
  | digits hne _ => exact hne

theorem Spells.ne_unknown {word : List Char} {kind : TokenKind} (h : Spells word kind) :
    kind ≠ .unknown := by
  have hkinds : ∀ s ∈ TokenKind.spellings, s.2 ≠ .unknown := by decide
  cases h with
  | fixed hmem => exact hkinds _ hmem
  | digits _ _ => exact nofun

theorem Lexes.isLongest {kind : TokenKind} {word rest : List Char} (h : Lexes kind word rest)
    (hkind : kind ≠ .unknown) : IsLongest kind word rest := by
  cases h with
  | word h => exact h
  | stray _ => exact absurd rfl hkind

theorem Lexes.isStray {run rest : List Char} (h : Lexes .unknown run rest) : IsStray run rest := by
  cases h with
  | word h => exact absurd rfl h.spells.ne_unknown
  | stray h => exact h

theorem Lexes.ne_nil {kind : TokenKind} {word rest : List Char} (h : Lexes kind word rest) :
    word ≠ [] := by
  cases h with
  | word h => exact h.spells.ne_nil
  | stray h => exact h.nonempty

theorem Skips.ne_nil {skipped rest : List Char} (h : Skips skipped rest) : skipped ≠ [] := by
  cases h with
  | layout hne _ => exact hne
  | comment hcomment =>
      rintro rfl
      simpa using hcomment.slashes

theorem Spells.isLayout_eq_false {word : List Char} {kind : TokenKind} (h : Spells word kind) :
    ∀ c ∈ word, isLayout c = false := by
  have hwords : ∀ s ∈ TokenKind.spellings, ∀ c ∈ s.1.toList, isLayout c = false := by
    simp [TokenKind.spellings, isLayout]
  intro c hc
  cases h with
  | fixed hmem => exact hwords _ hmem c hc
  | digits _ hall => exact isLayout_of_isDigit (hall c hc)

/-- No word has layout in it, and layout starts at no character of a stray run. -/
theorem Lexes.isLayout_eq_false {kind : TokenKind} {word rest : List Char}
    (h : Lexes kind word rest) : ∀ c ∈ word, isLayout c = false := by
  cases h with
  | word h => exact h.spells.isLayout_eq_false
  | stray h =>
      intro c hc
      obtain ⟨before, after, rfl⟩ := List.append_of_mem hc
      have hno := h.nothing before (c :: after) rfl (List.cons_ne_nil _ _)
      rw [Bool.eq_false_iff]
      intro hlayout
      exact hno (.inr (startsSkipped_iff.mpr (.inl hlayout)))

/-- The first lexeme of a text. -/
theorem lexeme_spec {text : List Char} (hne : text ≠ []) :
    ∃ taken left, text = taken ++ left ∧ (lexeme text).2 = taken.length ∧
      IsLexeme (lexeme text).1 taken left := by
  obtain ⟨c, rest, rfl⟩ := List.exists_cons_of_ne_nil hne
  rw [lexeme]
  cases hstart : start? (c :: rest) with
  | none =>
      obtain ⟨run, left, htext, hlength, hnothing, hmaximal⟩ := exists_unknown (c :: rest)
      refine ⟨run, left, htext, hlength.symm, Lexes.stray ⟨?_, hnothing, hmaximal⟩⟩
      rintro rfl
      rw [unknownLength, hstart] at hlength
      simp at hlength
  | some k =>
      obtain ⟨taken, left, htext, hlength, hspec⟩ := start?_spec hstart
      exact ⟨taken, left, htext, hlength.symm, hspec⟩

end DiceScript.Token
