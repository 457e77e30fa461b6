import DiceScript.Proofs.Token.Coverage
import Mathlib.Data.List.Forall2

/-!
# The words of a source with other layout between them

A word of a source that stands before layout or at the end is read as the same word there, whatever
followed it in the source: no longer word begins where it ends, and nothing else starts inside it.
Layout and whole comments between words give no token. So a source is determined, up to where its
tokens stand, by the texts of its tokens.
-/

namespace DiceScript

/-- The tokens differ at most in where they stand. -/
structure Token.SameWord (t u : Token) : Prop where
  kind : t.kind = u.kind
  text : t.text = u.text

abbrev SameWords : List Token → List Token → Prop :=
  List.Forall₂ Token.SameWord

namespace Token

/-! ## Other layout -/

/-- Layout, and comments with the line feeds that end them. -/
inductive IsFiller : List Char → Prop
  | nil : IsFiller []
  | layout {c : Char} {rest : List Char} : isLayout c = true → IsFiller rest → IsFiller (c :: rest)
  | comment {text rest : List Char} : '\n' ∉ text → IsFiller rest →
      IsFiller (('/' :: '/' :: text) ++ '\n' :: rest)

/-- What keeps two words apart begins with layout. -/
inductive IsSeparator : List Char → Prop
  | mk {c : Char} {rest : List Char} : isLayout c = true → IsFiller rest → IsSeparator (c :: rest)

/-- The texts one after the other, with separators between them. -/
inductive Joins : List String → List Char → Prop
  | nil : Joins [] []
  | last (text : String) : Joins [text] text.toList
  | cons {text : String} {texts : List String} {separator joined : List Char} :
      IsSeparator separator → Joins texts joined →
      Joins (text :: texts) (text.toList ++ (separator ++ joined))

/-- The token texts of a source with separators between them, and perhaps around them. -/
def Relaid (source relaid : String) : Prop :=
  ∃ before joined after, relaid.toList = before ++ (joined ++ after) ∧
    (before = [] ∨ IsSeparator before) ∧ (after = [] ∨ IsSeparator after) ∧
    Joins ((tokenize source).map Token.text) joined

/-- The end, or layout. -/
def EndsWord (rest : List Char) : Prop :=
  ∀ c ∈ rest.head?, isLayout c = true

theorem IsSeparator.isFiller {separator : List Char} (h : IsSeparator separator) :
    IsFiller separator := by
  cases h with
  | mk hc hrest => exact .layout hc hrest

theorem IsSeparator.endsWord {separator : List Char} (h : IsSeparator separator)
    (rest : List Char) : EndsWord (separator ++ rest) := by
  cases h with
  | mk hc _ => simpa [EndsWord] using hc

/-! ## A word before layout -/

section EndsWord

variable {word rest rest' : List Char} {kind : TokenKind}

/-- What has no layout in it does not reach beyond a word before layout. -/
theorem EndsWord.prefix_left {text : List Char} (hrest : EndsWord rest)
    (htext : ∀ c ∈ text, isLayout c = false) (h : text <+: word ++ rest) : text <+: word := by
  rcases Nat.le_total text.length word.length with hle | hle
  · exact List.prefix_of_prefix_length_le h (List.prefix_append word rest) hle
  · obtain ⟨beyond, rfl⟩ := List.prefix_of_prefix_length_le (List.prefix_append word rest) h hle
    obtain ⟨tail, rfl⟩ := (List.prefix_append_right_inj word).mp h
    cases beyond with
    | nil => simp
    | cons c beyond =>
        have hlayout := hrest c rfl
        rw [htext c (by simp)] at hlayout
        cases hlayout

/-- What starts before layout in characters that are none starts there before anything. -/
theorem EndsWord.startsSkipped (hrest : EndsWord rest) (hword : ∀ c ∈ word, isLayout c = false)
    (hne : word ≠ []) (h : StartsSkipped (word ++ rest)) : StartsSkipped (word ++ rest') := by
  obtain ⟨c, word, rfl⟩ := List.exists_cons_of_ne_nil hne
  rw [List.cons_append, startsSkipped_iff] at h ⊢
  rcases h with hlayout | hslashes
  · exact .inl hlayout
  · rw [List.isPrefixOf_iff_prefix, ← List.cons_append] at hslashes ⊢
    have hno : ∀ d ∈ ['/', '/'], isLayout d = false := by simp [isLayout]
    exact .inr ((hrest.prefix_left hno hslashes).trans (List.prefix_append _ _))

theorem EndsWord.starts (hrest : EndsWord rest) (hword : ∀ c ∈ word, isLayout c = false)
    (hne : word ≠ []) (h : Starts (word ++ rest)) : Starts (word ++ rest') := by
  rcases h with ⟨other, kind, hspells, hother⟩ | hskipped
  · have hinside := hrest.prefix_left hspells.isLayout_eq_false hother
    exact .inl ⟨other, kind, hspells, hinside.trans (List.prefix_append _ _)⟩
  · exact .inr (hrest.startsSkipped hword hne hskipped)

/-- A token keeps its kind and its characters when layout follows it. -/
theorem Lexes.before_layout (h : Lexes kind word rest') (hrest : EndsWord rest) :
    Lexes kind word rest := by
  have hword := h.isLayout_eq_false
  cases h with
  | word h =>
      refine .word ⟨h.spells, ?_, ?_⟩
      · intro other kind' hspells hother
        exact (hrest.prefix_left hspells.isLayout_eq_false hother).length_le
      · intro hskipped
        exact h.notSkipped (hrest.startsSkipped hword h.spells.ne_nil hskipped)
  | stray h =>
      refine .stray ⟨h.nonempty, ?_, ?_⟩
      · intro before after hsplit hne hstarts
        refine h.nothing before after hsplit hne (hrest.starts ?_ hne hstarts)
        intro c hc
        exact hword c (hsplit ▸ List.mem_append_right before hc)
      · cases rest with
        | nil => exact .inl rfl
        | cons c rest => exact .inr (.inr (startsSkipped_iff.mpr (.inl (hrest c rfl))))

end EndsWord

/-! ## The first lexeme of a text is determined -/

section Unique

variable {word rest taken left : List Char} {kind kind' : TokenKind}

theorem Spells.kind_unique (h : Spells word kind) (h' : Spells word kind') : kind = kind' := by
  have hfixed : ∀ s ∈ TokenKind.spellings, ∀ t ∈ TokenKind.spellings,
      s.1.toList = t.1.toList → s.2 = t.2 := by decide
  have hdigits : ∀ s ∈ TokenKind.spellings, (∀ c ∈ s.1.toList, c.isDigit = true) →
      s.1.toList = [] := by
    intro s hs hall
    cases htext : s.1.toList with
    | nil => rfl
    | cons c text =>
        have hhead := spelling_head_not_digit s hs c (by simp [htext])
        rw [hall c (by simp [htext])] at hhead
        cases hhead
  cases h with
  | @fixed s _ hmem =>
      generalize htext : s.toList = text at h'
      cases h' with
      | fixed hmem' => exact hfixed _ hmem _ hmem' htext
      | digits hne hall =>
          subst htext
          exact absurd (hdigits _ hmem hall) hne
  | digits hne hall =>
      cases h' with
      | fixed hmem' => exact absurd (hdigits _ hmem' hall) hne
      | digits _ _ => rfl

theorem Lexes.not_startsSkipped (h : Lexes kind word rest) : ¬ StartsSkipped (word ++ rest) := by
  intro hskipped
  cases h with
  | word h => exact h.notSkipped hskipped
  | stray h => exact h.nothing [] word rfl h.nonempty (.inr hskipped)

theorem IsStray.length_le (h : IsStray word rest) (h' : IsStray taken left)
    (htext : word ++ rest = taken ++ left) : word.length ≤ taken.length := by
  by_contra hlt
  obtain ⟨tail, rfl⟩ : taken <+: word := by
    refine List.prefix_of_prefix_length_le ?_ (List.prefix_append word rest) (by omega)
    rw [htext]
    exact List.prefix_append taken left
  rw [List.append_assoc] at htext
  obtain rfl := List.append_cancel_left htext
  have hne : tail ≠ [] := by
    rintro rfl
    simp at hlt
  rcases h'.maximal with hnil | hstarts
  · exact hne (List.append_eq_nil_iff.mp hnil).1
  · exact h.nothing taken tail rfl hne hstarts

/-- The token that a text begins with is determined. -/
theorem Lexes.unique (h : Lexes kind word rest) (h' : Lexes kind' taken left)
    (htext : word ++ rest = taken ++ left) : kind = kind' ∧ word = taken := by
  have hprefix : word <+: taken ++ left := htext ▸ List.prefix_append word rest
  have hprefix' : taken <+: word ++ rest := htext ▸ List.prefix_append taken left
  cases h with
  | word h =>
      cases h' with
      | word h' =>
          have hlength : word.length = taken.length := Nat.le_antisymm
            (h'.longest word kind h.spells hprefix) (h.longest taken kind' h'.spells hprefix')
          obtain ⟨rfl, -⟩ := List.append_inj htext hlength
          exact ⟨h.spells.kind_unique h'.spells, rfl⟩
      | stray h' =>
          exact absurd (.inl ⟨word, kind, h.spells, hprefix⟩) (h'.nothing [] taken rfl h'.nonempty)
  | stray h =>
      cases h' with
      | word h' =>
          exact absurd (.inl ⟨taken, kind', h'.spells, hprefix'⟩) (h.nothing [] word rfl h.nonempty)
      | stray h' =>
          have hlength : word.length = taken.length :=
            Nat.le_antisymm (h.length_le h' htext) (h'.length_le h htext.symm)
          exact ⟨rfl, (List.append_inj htext hlength).1⟩

theorem Lexes.lexeme_eq (h : Lexes kind word rest) :
    lexeme (word ++ rest) = (some kind, word.length) := by
  obtain ⟨taken, left, htext, hlength, hspec⟩ :=
    lexeme_spec (List.append_ne_nil_of_left_ne_nil h.ne_nil rest)
  cases hkind : (lexeme (word ++ rest)).1 with
  | none =>
      rw [hkind] at hspec
      exact absurd ⟨taken, left, hspec, htext⟩ h.not_startsSkipped
  | some kind' =>
      rw [hkind] at hspec
      obtain ⟨rfl, rfl⟩ := h.unique hspec htext
      exact Prod.ext hkind hlength

end Unique

/-! ## The words of a text -/

/-- What a token says, without where. -/
def said (t : Token) : TokenKind × String :=
  (t.kind, t.text)

/-- What the tokens of a text say. -/
def words (text : List Char) : List (TokenKind × String) :=
  (scan .first 0 text).map said

theorem map_said_emitted (kind : Option TokenKind) (taken : List Char) (p : Position)
    (offset : Nat) :
    (emitted kind taken p offset).map said = (kind.map (·, String.ofList taken)).toList := by
  cases kind <;> rfl

/-- What tokens say does not depend on where their text stands. -/
theorem map_said_scan (p : Position) (offset : Nat) (text : List Char) :
    (scan p offset text).map said = words text := by
  have hsame : ∀ p' offset', (scan p offset text).map said = (scan p' offset' text).map said := by
    induction hn : text.length using Nat.strong_induction_on generalizing p offset text with
    | _ n ih =>
        intro p' offset'
        cases text with
        | nil => simp [scan]
        | cons c rest =>
            have hshorter : (rest.drop ((lexeme (c :: rest)).2 - 1)).length < n := by
              rw [List.length_drop, ← hn, List.length_cons]
              omega
            rw [scan_cons, scan_cons]
            dsimp only
            rw [List.map_append, List.map_append, map_said_emitted, map_said_emitted]
            exact congrArg _ (ih _ hshorter _ _ _ rfl _ _)
  exact hsame .first 0

theorem words_of_lexeme {kind : Option TokenKind} {taken : List Char} (hne : taken ≠ [])
    {rest : List Char} (h : lexeme (taken ++ rest) = (kind, taken.length)) :
    words (taken ++ rest) = (kind.map (·, String.ofList taken)).toList ++ words rest := by
  obtain ⟨c, taken, rfl⟩ := List.exists_cons_of_ne_nil hne
  rw [List.cons_append] at h ⊢
  rw [words, scan_cons, h]
  simp only [List.length_cons, Nat.add_sub_cancel, List.take_left, List.drop_left]
  rw [List.map_append, map_said_emitted, map_said_scan]

theorem words_nil : words [] = [] := by
  simp [words, scan]

theorem words_layout {c : Char} (hc : isLayout c = true) (rest : List Char) :
    words (c :: rest) = words rest := by
  rw [words, scan_layout hc, map_said_scan]

theorem words_comment {text : List Char} (htext : '\n' ∉ text) (rest : List Char) :
    words ('/' :: '/' :: text ++ '\n' :: rest) = words rest := by
  have hno : '\n' ∉ '/' :: '/' :: text := by simp [htext]
  have hline : ('/' :: '/' :: text ++ '\n' :: rest).takeWhile (· != '\n') = '/' :: '/' :: text := by
    rw [takeWhile_append_cons (by decide), List.takeWhile_eq_self_iff]
    intro c hc
    exact bne_iff_ne.mpr fun heq => hno (heq ▸ hc)
  have hstart : start? ('/' :: ('/' :: text ++ '\n' :: rest)) =
      some (none, ('/' :: '/' :: text).length) := by
    rw [start?, if_neg (by decide), if_pos (by simp), ← List.cons_append, hline]
  have hlexeme : lexeme ('/' :: '/' :: text ++ '\n' :: rest) =
      (none, ('/' :: '/' :: text).length) := by
    rw [lexeme, List.cons_append, hstart]
    rfl
  rw [words_of_lexeme (List.cons_ne_nil _ _) hlexeme]
  exact words_layout (by decide) rest

theorem words_filler {filler : List Char} (h : IsFiller filler) (rest : List Char) :
    words (filler ++ rest) = words rest := by
  induction h with
  | nil => rfl
  | layout hc _ ih => rw [List.cons_append, words_layout hc, ih]
  | comment htext _ ih =>
      rw [List.append_assoc]
      exact (words_comment htext _).trans ih

theorem Lexes.words_eq {kind : TokenKind} {word rest : List Char} (h : Lexes kind word rest) :
    words (word ++ rest) = (kind, String.ofList word) :: words rest :=
  words_of_lexeme h.ne_nil h.lexeme_eq

/-- The texts of tokens are read as these tokens wherever layout keeps them apart. -/
theorem words_joins {ts : List Token} (hts : ∀ t ∈ ts, ∃ rest, Lexes t.kind t.text.toList rest)
    {joined : List Char} (h : Joins (ts.map Token.text) joined) {after : List Char}
    (hafter : EndsWord after) : words (joined ++ after) = ts.map said ++ words after := by
  induction ts generalizing joined with
  | nil =>
      cases h
      rfl
  | cons t ts ih =>
      obtain ⟨⟨rest, hlexes⟩, hrest⟩ := List.forall_mem_cons.mp hts
      have hword : ∀ {tail}, EndsWord tail →
          words (t.text.toList ++ tail) = said t :: words tail := by
        intro tail htail
        rw [(hlexes.before_layout htail).words_eq, String.ofList_toList]
        rfl
      generalize htexts : (t :: ts).map Token.text = texts at h
      cases h with
      | nil => cases htexts
      | last text =>
          obtain ⟨rfl, hnil⟩ := List.cons.inj htexts
          obtain rfl := List.map_eq_nil_iff.mp hnil
          exact hword hafter
      | @cons text texts separator joined hseparator hjoins =>
          obtain ⟨rfl, rfl⟩ := List.cons.inj htexts
          rw [List.append_assoc, hword (by rw [List.append_assoc]; exact hseparator.endsWord _),
            List.append_assoc, words_filler hseparator.isFiller, ih hrest hjoins]
          rfl

end Token

open Token

/-- Whatever layout and comments stand between the words of a source, its tokens say the same. -/
theorem sameWords_of_relaid {source relaid : String} (h : Relaid source relaid) :
    SameWords (tokenize source) (tokenize relaid) := by
  obtain ⟨before, joined, after, htext, hbefore, hafter, hjoins⟩ := h
  have hlexes : ∀ t ∈ tokenize source, ∃ rest, Lexes t.kind t.text.toList rest := by
    intro t ht
    obtain ⟨kind, a, word, rest, -, rfl, hlexes, -⟩ := (tokenize_covers source).exists_lexes ht
    exact ⟨rest, by simpa [tokenAt] using hlexes⟩
  have hends : EndsWord after := by
    rcases hafter with rfl | hseparator
    · simp [EndsWord]
    · simpa using hseparator.endsWord []
  have hfiller : ∀ {layout}, layout = [] ∨ IsSeparator layout → IsFiller layout := by
    rintro layout (rfl | hseparator)
    · exact .nil
    · exact hseparator.isFiller
  have hnothing : words after = [] := by
    have hwords := words_filler (hfiller hafter) []
    rwa [List.append_nil, words_nil] at hwords
  have hskip : words relaid.toList = words (joined ++ after) := by
    rw [htext]
    exact words_filler (hfiller hbefore) _
  have hsaid : (tokenize relaid).map said = (tokenize source).map said := by
    rw [tokenize, map_said_scan, hskip, words_joins hlexes hjoins hends, hnothing, List.append_nil]
  have hforall : List.Forall₂ (· = ·) ((tokenize source).map said) ((tokenize relaid).map said) := by
    rw [List.forall₂_eq_eq_eq]
    exact hsaid.symm
  rw [List.forall₂_map_left_iff, List.forall₂_map_right_iff] at hforall
  refine hforall.imp fun t u htu => ?_
  obtain ⟨hkind, htext⟩ := Prod.mk.inj htu
  exact ⟨hkind, htext⟩

end DiceScript
