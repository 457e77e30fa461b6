import DiceScript.Proofs.Syntax.Completeness
import DiceScript.Proofs.Syntax.Readings

/-!
# When the input ends too soon

A source that is refused because it ends can be continued to one that parses. Whatever else it is
refused for does not depend on what comes behind it, but for the two causes that are reported at a
token read long before.
-/

namespace DiceScript

open DiceScript.Parser TokenKind

/-- These causes are found at the token behind an expression, and reported at the one before it. -/
def ParseCause.LooksBack (cause : ParseCause) : Prop :=
  cause = .openWithoutHandle ∨ cause = .notAReference

/-- Neither math nor an expression goes on before such a token. -/
def TokenKind.EndsStore (k : TokenKind) : Prop :=
  k.EndsMath ∧ k ≠ .store

namespace Parser

open Reading

variable {α β : Type} {P Q : TokenKind → Prop}

/-! ## Readings and what comes behind them -/

/-- How a reading depends on the tokens behind those at hand. A success that leaves tokens stays;
one that leaves none stays before what does not go on with it. A refusal stays, unless it looks
back. A reading that wants for tokens can be brought to its end. -/
structure Online (P : TokenKind → Prop) (X : List Token → Reading α) : Prop where
  settled : ∀ a rest, X [] = .ok (a, rest) → ∀ us, (rest = [] → Next P us) →
    X us = .ok (a, rest ++ us)
  refused : ∀ t cause, X [] = .error (.unexpected t cause) → ¬ cause.LooksBack →
    ∀ us, X us = .error (.unexpected t cause)
  starved : X [] = .error .endOfInput →
    ∃ us a, ∀ tail, Next P tail → X (us ++ tail) = .ok (a, tail)

/-- What a reading with the end `P` hands over to when it has read everything: it stops there, wants
for tokens, or looks back, and in any case some tokens bring both to their end. -/
structure Resumes (P Q : TokenKind → Prop) (K : List Token → Reading β) : Prop where
  stops : ∀ b rest, K [] = .ok (b, rest) → rest = [] ∧
    ∀ us, Next Q us → Next P us ∧ K us = .ok (b, us)
  blames : ∀ t cause, K [] = .error (.unexpected t cause) → cause.LooksBack
  completes : ∃ us b, ∀ tail, Next Q tail → Next P (us ++ tail) ∧ K (us ++ tail) = .ok (b, tail)

namespace Resumes

variable {K : List Token → Reading β}

theorem of_stopping {b : β} (h : ∀ us, Next Q us → Next P us ∧ K us = .ok (b, us)) :
    Resumes P Q K := by
  have hnil := (h [] (next_nil Q)).2
  refine ⟨?_, ?_, [], b, h⟩
  · intro b' rest hk
    rw [hnil] at hk
    cases hk
    exact ⟨rfl, h⟩
  · intro t cause hk
    rw [hnil] at hk
    cases hk

theorem of_starved (h : K [] = .error .endOfInput)
    (hc : ∃ us b, ∀ tail, Next Q tail → Next P (us ++ tail) ∧ K (us ++ tail) = .ok (b, tail)) :
    Resumes P Q K := by
  refine ⟨?_, ?_, hc⟩
  · intro b rest hk
    rw [h] at hk
    cases hk
  · intro t cause hk
    rw [h] at hk
    cases hk

end Resumes

namespace Online

variable {X : List Token → Reading α}

theorem of_starved (h : X [] = .error .endOfInput)
    (hc : ∃ us a, ∀ tail, Next P tail → X (us ++ tail) = .ok (a, tail)) : Online P X := by
  refine ⟨?_, ?_, fun _ => hc⟩
  · intro a rest hx
    rw [h] at hx
    cases hx
  · intro t cause hx
    rw [h] at hx
    cases hx

theorem of_refused (t : Token) (cause : ParseCause) :
    Online P fun _ => (.error (.unexpected t cause) : Reading α) := by
  refine ⟨?_, fun _ _ h _ _ => h, ?_⟩
  · rintro a rest ⟨⟩
  · rintro ⟨⟩

theorem of_read (a : α) (rest : List Token) : Online P fun us => .ok (a, rest ++ us) := by
  refine ⟨?_, ?_, ?_⟩
  · rintro b rest' h us -
    cases h
    rw [List.append_nil]
  · rintro t cause ⟨⟩
  · rintro ⟨⟩

theorem of_stopping {a : α} (h : ∀ us, Next P us → X us = .ok (a, us)) : Online P X := by
  have hnil := h [] (next_nil P)
  refine ⟨?_, ?_, ?_⟩
  · intro b rest hx us hus
    rw [hnil] at hx
    cases hx
    exact h us (hus rfl)
  · intro t cause hx
    rw [hnil] at hx
    cases hx
  · intro hx
    rw [hnil] at hx
    cases hx

theorem mono (hX : Online P X) (hQP : ∀ k, Q k → P k) : Online Q X := by
  refine ⟨fun a rest h us hus => hX.settled a rest h us fun hrest => (hus hrest).mono hQP,
    hX.refused, fun h => ?_⟩
  obtain ⟨us, a, hus⟩ := hX.starved h
  exact ⟨us, a, fun tail htail => hus tail (htail.mono hQP)⟩

section AndThen

variable {K : α → List Token → Reading β}

theorem andThen_eq {us rest : List Token} {a : α} (h : X us = .ok (a, rest)) :
    (X us).andThen K = K a rest := by
  rw [h]
  rfl

/-- When the first reading is refused or wants for tokens, the second comes after what it is brought
to its end with. -/
theorem andThen_of_error {e : Refusal} (hX : Online P X) (hx : X [] = .error e)
    (hK : ∀ a, Resumes P Q (K a)) : Online Q fun us => (X us).andThen K := by
  have hstay : ∀ {us e}, X us = .error e → (X us).andThen K = .error e := by
    intro us e h
    rw [h]
    rfl
  constructor
  · intro b rest h
    rw [hstay hx] at h
    cases h
  · intro t cause h hback us
    rw [hstay hx] at h
    cases h
    exact hstay (hX.refused t cause hx hback us)
  · intro h
    rw [hstay hx] at h
    cases h
    obtain ⟨us, a, hus⟩ := hX.starved hx
    obtain ⟨vs, b, hvs⟩ := (hK a).completes
    refine ⟨us ++ vs, b, fun tail htail => ?_⟩
    obtain ⟨hnext, hread⟩ := hvs tail htail
    rw [List.append_assoc, andThen_eq (hus _ hnext)]
    exact hread

/-- When the first reading takes all tokens, the second one resumes there. -/
theorem andThen_of_done {a : α} (hX : Online P X) (hx : X [] = .ok (a, []))
    (hK : Resumes P Q (K a)) : Online Q fun us => (X us).andThen K := by
  constructor
  · intro b rest h us hus
    rw [andThen_eq hx] at h
    obtain ⟨rfl, hstops⟩ := hK.stops b rest h
    obtain ⟨hnext, hread⟩ := hstops us (hus rfl)
    rw [andThen_eq (hX.settled a [] hx us fun _ => hnext)]
    exact hread
  · intro t cause h hback
    rw [andThen_eq hx] at h
    exact absurd (hK.blames t cause h) hback
  · intro h
    obtain ⟨us, b, hus⟩ := hK.completes
    refine ⟨us, b, fun tail htail => ?_⟩
    obtain ⟨hnext, hread⟩ := hus tail htail
    rw [andThen_eq (hX.settled a [] hx _ fun _ => hnext)]
    exact hread

/-- When the first reading leaves tokens, it stays as it is, and the second one decides. -/
theorem andThen_of_settled {a : α} {rest : List Token} (hX : Online P X)
    (hx : X [] = .ok (a, rest)) (hrest : rest ≠ []) (hon : Online Q fun us => K a (rest ++ us)) :
    Online Q fun us => (X us).andThen K := by
  have hgo : (fun us => (X us).andThen K) = fun us => K a (rest ++ us) :=
    funext fun us => andThen_eq (hX.settled a rest hx us fun hnil => absurd hnil hrest)
  rw [hgo]
  exact hon

/-- One reading after another. -/
theorem andThen (hX : Online P X) (hK : ∀ a, Resumes P Q (K a))
    (hon : ∀ a rest, X [] = .ok (a, rest) → rest ≠ [] → Online Q fun us => K a (rest ++ us)) :
    Online Q fun us => (X us).andThen K := by
  cases hx : X [] with
  | error e => exact hX.andThen_of_error hx hK
  | ok r =>
      obtain ⟨a, rest⟩ := r
      by_cases hrest : rest = []
      · subst hrest
        exact hX.andThen_of_done hx (hK a)
      · exact hX.andThen_of_settled hx hrest (hon a rest hx hrest)

end AndThen

theorem yields (hX : Online P X) (g : α → β) : Online P fun us => (X us).yields g :=
  hX.andThen (K := fun a rest => .ok (g a, rest)) (fun _ => .of_stopping fun _ hus => ⟨hus, rfl⟩)
    fun a rest _ _ => of_read (g a) rest

end Online

/-! ## Tokens that bring a reading to its end -/

/-- A token of a kind. Only numbers look at the text. -/
def word (kind : TokenKind) : Token :=
  ⟨kind, "1", .first, ⟨0, 0⟩⟩

theorem word_kind (kind : TokenKind) : (word kind).kind = kind :=
  rfl

theorem atom_one : ∃ a, ∀ tail, reading (atom (word .number :: tail)) = .ok (a, tail) := by
  obtain ⟨x, hx⟩ := Option.isSome_iff_exists.mp
    (show (number? (word .number).text).isSome = true by decide +kernel)
  refine ⟨.number x, fun tail => ?_⟩
  rw [atom]
  dsimp only [word]
  rw [show number? "1" = some x from hx]
  rfl

theorem term_one : ∃ v, ∀ tail, Next EndsTerm tail →
    reading (term (word .number :: tail)) = .ok (v, tail) := by
  obtain ⟨a, ha⟩ := atom_one
  refine ⟨⟨.atom a, Draft.empty.modifiers⟩, fun tail htail => ?_⟩
  exact term_of_atom rfl (ha tail) (htail.mono fun _ hk => hk.2)
    (modifiers_stops (htail.mono fun _ hk => hk.1))

theorem chain_one (level : Level) : ∃ m, ∀ tail, Next EndsMath tail →
    reading (operand level (word .number :: tail)) = .ok (m, tail) ∧
      reading (chain level (word .number :: tail)) = .ok (m, tail) := by
  obtain ⟨v, hv⟩ := term_one
  refine ⟨.term v, fun tail htail => ?_⟩
  have hstops : ∀ level, ReadsOn (chainFrom level (.term v) tail) (.term v) tail :=
    fun level => chainFrom_stops (htail.mono fun _ hk => hk.2 level)
  have hterm := operand_of_term rfl (hv tail (htail.mono fun _ hk => hk.1))
  have hproduct := chain_of_operand hterm (hstops .product)
  have hsum : Reads (operand .sum (word .number :: tail)) (.term v) tail := by
    rw [operand]
    exact hproduct
  have hlogic : Reads (operand .logic (word .number :: tail)) (.term v) tail := by
    rw [operand]
    exact chain_of_operand hsum (hstops .sum)
  cases level with
  | product => exact ⟨hterm, hproduct⟩
  | sum => exact ⟨hsum, chain_of_operand hsum (hstops .sum)⟩
  | logic => exact ⟨hlogic, chain_of_operand hlogic (hstops .logic)⟩

theorem expr_one : ∃ e, ∀ tail, Next EndsStore tail →
    reading (store (word .number :: tail)) = .ok (e, tail) ∧
      reading (expr (word .number :: tail)) = .ok (e, tail) := by
  obtain ⟨m, hm⟩ := chain_one .logic
  refine ⟨.store (.math m) none, fun tail htail => ?_⟩
  have hstore : Reads (store (word .number :: tail)) (.store (.math m) none) tail :=
    store_of_math rfl (hm tail (htail.mono fun _ hk => hk.1)).2
      (target?_none (htail.mono fun _ hk => hk.2))
  exact ⟨hstore, by rw [expr_eq_store rfl]; exact hstore⟩

theorem place_one (marker : TokenKind) : ∃ p, ∀ tail,
    reading (place marker (word marker :: word .number :: word .roll :: word .number :: tail)) =
      .ok (p, tail) := by
  obtain ⟨a, ha⟩ := atom_one
  exact ⟨⟨a, a⟩, fun tail => place_of_roll rfl (ha _) rfl (ha tail)⟩

/-! ## What comes behind a part, when nothing is left -/

theorem resumes_expr {g : Expr → α} :
    Resumes EndsMath EndsStore fun rest => (reading (expr rest)).yields g := by
  obtain ⟨e, he⟩ := expr_one
  refine .of_starved ?_ ⟨[word .number], g e, fun tail htail => ⟨?_, ?_⟩⟩
  · rw [expr]
    rfl
  · rw [List.singleton_append, next_cons]
    exact ⟨⟨rfl, by decide⟩, fun level => by cases level <;> rfl⟩
  · rw [List.singleton_append, (he tail htail).2]
    rfl

theorem resumes_target? {g : Option Place → α} :
    Resumes EndsMath EndsStore fun rest => (readingOn (target? rest)).yields g := by
  refine .of_stopping (b := g none) fun us hus => ⟨hus.mono fun _ hk => hk.1, ?_⟩
  rw [show readingOn (target? us) = _ from target?_none (hus.mono fun _ hk => hk.2)]
  rfl

theorem resumes_chainFrom (level : Level) (left : Math) :
    Resumes EndsMath EndsMath fun rest => readingOn (chainFrom level left rest) :=
  .of_stopping fun _ hus => ⟨hus, chainFrom_stops (hus.mono fun _ hk => hk.2 level)⟩

theorem readingOn_modifiers {rolled : Bool} {draft : Draft} {us : List Token}
    (hus : Next EndsMath us) : readingOn (modifiers rolled draft us) = .ok (draft, us) :=
  modifiers_stops (hus.mono fun _ hk => hk.1.1)

theorem resumes_modifiers (rolled : Bool) (draft : Draft) (hP : ∀ k : TokenKind, EndsMath k → P k) :
    Resumes P EndsMath fun rest => readingOn (modifiers rolled draft rest) :=
  .of_stopping fun _ hus => ⟨hus.mono hP, readingOn_modifiers hus⟩

theorem resumes_draft (rolled : Bool) (draft : Draft) (g : Draft → α)
    (hP : ∀ k : TokenKind, EndsMath k → P k) :
    Resumes P EndsMath fun rest => (readingOn (modifiers rolled draft rest)).yields g := by
  refine .of_stopping (b := g draft) fun us hus => ⟨hus.mono hP, ?_⟩
  rw [readingOn_modifiers hus]
  rfl

/-- What ends with a word that closes wants for it. -/
theorem resumes_closing {K : List Token → Reading β} {b : β} (kind : TokenKind)
    (hkind : EndsStore kind) (hnil : K [] = .error .endOfInput)
    (hread : ∀ tail, K (word kind :: tail) = .ok (b, tail)) :
    Resumes EndsStore (fun _ => True) K := by
  refine .of_starved hnil ⟨[word kind], b, fun tail _ => ⟨?_, hread tail⟩⟩
  rw [List.singleton_append, next_cons]
  exact hkind

theorem resumes_afterCondition (condition : Expr) :
    Resumes EndsStore (fun _ => True) (afterCondition condition) :=
  resumes_closing .rightBrace ⟨⟨⟨rfl, by decide⟩, fun level => by cases level <;> rfl⟩, by decide⟩
    rfl fun _ => rfl

theorem resumes_afterResult (condition result : Expr) :
    Resumes EndsStore (fun _ => True) (afterResult condition result) :=
  resumes_closing .rightBrace ⟨⟨⟨rfl, by decide⟩, fun level => by cases level <;> rfl⟩, by decide⟩
    rfl fun _ => rfl

theorem resumes_afterGroup (e : Expr) : Resumes EndsStore (fun _ => True) (afterGroup e) :=
  resumes_closing .rightParen ⟨⟨⟨rfl, by decide⟩, fun level => by cases level <;> rfl⟩, by decide⟩
    rfl fun _ => rfl

theorem resumes_items (g : List Expr → α) :
    Resumes EndsStore (fun _ => True) fun rest => (reading (items rest)).yields g := by
  refine resumes_closing (b := g []) .rightBracket
    ⟨⟨⟨rfl, by decide⟩, fun level => by cases level <;> rfl⟩, by decide⟩ ?_ fun tail => ?_
  · rw [items]
    rfl
  · rw [items, if_pos (word_kind _)]
    rfl

theorem resumes_afterPath (t : Token) (access : Access) (path : Math) :
    Resumes EndsMath EndsStore (afterPath t access path) := by
  obtain ⟨p, hp⟩ := place_one .store
  refine ⟨?_, ?_, [word .store, word .number, word .roll, word .number], .openFile access path p,
    fun tail _ => ⟨?_, ?_⟩⟩
  · rintro b rest ⟨⟩
  · rintro _ _ ⟨⟩
    exact .inl rfl
  · rw [List.cons_append, next_cons]
    exact ⟨⟨rfl, by decide⟩, fun level => by cases level <;> rfl⟩
  · dsimp only [List.cons_append, List.nil_append, afterPath]
    rw [if_pos (word_kind _), hp]
    rfl

theorem resumes_afterCount (count : Atom) :
    Resumes (fun _ => True) EndsMath (afterCount count) := by
  refine .of_stopping (b := ⟨.atom count, .none⟩) fun us hus => ⟨hus.mono fun _ _ => trivial, ?_⟩
  cases us with
  | nil => rfl
  | cons d us =>
      rw [afterCount, if_neg (hus d rfl).1.2, readingOn_modifiers hus]
      rfl

theorem groupedPlace_cases (t : Token) (e : Expr) :
    (∃ p, ∀ rest, groupedPlace t e rest = .ok (p, rest)) ∨
      ∀ rest, groupedPlace t e rest = .error (.unexpected t .notAReference) := by
  unfold groupedPlace
  cases e.place? with
  | none => exact .inr fun _ => rfl
  | some p => exact .inl ⟨p, fun _ => rfl⟩

theorem resumes_afterCoordinate (t : Token) (count : Atom) :
    Resumes (fun _ => True) EndsMath (afterCoordinate t count) := by
  obtain ⟨a, ha⟩ := atom_one
  have hcompletes : ∃ us b, ∀ tail, Next EndsMath tail →
      Next (fun _ => True) (us ++ tail) ∧ afterCoordinate t count (us ++ tail) = .ok (b, tail) := by
    refine ⟨[word .roll, word .number], ⟨count, a⟩, fun tail _ => ⟨fun _ _ => trivial, ?_⟩⟩
    dsimp only [List.cons_append, List.nil_append, afterCoordinate]
    rw [if_pos (word_kind _), ha]
    rfl
  cases count with
  | number x => exact .of_starved rfl hcompletes
  | group e =>
      rcases groupedPlace_cases t e with ⟨p, hp⟩ | hp
      · refine .of_stopping (b := p) fun us hus => ⟨hus.mono fun _ _ => trivial, ?_⟩
        cases us with
        | nil => exact hp []
        | cons s us =>
            rw [afterCoordinate, if_neg (hus s rfl).1.2]
            exact hp (s :: us)
      · refine ⟨?_, ?_, hcompletes⟩
        · intro b rest h
          rw [afterCoordinate, hp] at h
          cases h
        · intro t' cause h
          rw [afterCoordinate, hp] at h
          cases h
          exact .inr rfl

/-! ## The functions of the parser -/

mutual

theorem expr_online : ∀ ts : List Token, Online EndsStore fun us => reading (expr (ts ++ us))
  | [] => by
    obtain ⟨e, he⟩ := expr_one
    refine .of_starved ?_ ⟨[word .number], e, fun tail htail => (he tail htail).2⟩
    dsimp only [List.nil_append]
    rw [expr]
    rfl
  | t :: rest => by
    rcases expr_forms t with h | h | h | h | h
    all_goals simp only [List.cons_append, h]
    · exact (expr_online rest).yields _
    · apply (place_online .load rest).andThen fun _ => resumes_expr
      intro target rest₁ hrest₁ _
      have hlt := length_of_reading hrest₁
      exact (expr_online rest₁).yields _
    · exact ((place_online .load rest).yields _).mono fun _ hk => hk.1
    · exact ((clauses_online rest).yields _).mono fun _ _ => trivial
    · exact store_online (t :: rest)
termination_by ts => 16 * ts.length + 11
decreasing_by all_goals grind

theorem clauses_online (ts : List Token) :
    Online (fun _ => True) fun us => reading (clauses (ts ++ us)) := by
  simp only [clauses_form]
  apply (expr_online ts).andThen resumes_afterCondition
  intro condition rest hrest hne
  have hlt := length_of_reading hrest
  obtain ⟨t, rest, rfl⟩ := List.exists_cons_of_ne_nil hne
  simp only [List.cons_append, afterCondition]
  split
  · apply (expr_online rest).andThen (resumes_afterResult condition)
    intro result rest₁ hrest₁ hne₁
    have hlt₁ := length_of_reading hrest₁
    obtain ⟨s, rest₁, rfl⟩ := List.exists_cons_of_ne_nil hne₁
    simp only [List.cons_append, afterResult]
    split
    · exact (clauses_online rest₁).yields _
    split
    · exact .of_read _ rest₁
    · exact .of_refused s _
  split
  · exact .of_read _ rest
  · exact .of_refused t _
termination_by 16 * ts.length + 12
decreasing_by all_goals grind

theorem store_online : ∀ ts : List Token, Online EndsStore fun us => reading (store (ts ++ us))
  | [] => by
    obtain ⟨e, he⟩ := expr_one
    refine .of_starved ?_ ⟨[word .number], e, fun tail htail => (he tail htail).1⟩
    dsimp only [List.nil_append]
    rw [store]
    rfl
  | t :: rest => by
    rcases store_forms t with h | h | ⟨access, h⟩ | h
    all_goals simp only [List.cons_append, h]
    · exact (target?_online rest).yields _
    · apply (place_online .load rest).andThen fun _ => resumes_target?
      intro handle rest₁ hrest₁ _
      have hlt := length_of_reading hrest₁
      exact (target?_online rest₁).yields _
    · apply (chain_online .logic rest).andThen (resumes_afterPath t access)
      intro path rest₁ hrest₁ hne
      have hlt := length_of_reading hrest₁
      obtain ⟨s, rest₁, rfl⟩ := List.exists_cons_of_ne_nil hne
      simp only [List.cons_append, afterPath]
      split
      · exact ((place_online .store (s :: rest₁)).yields _).mono fun _ hk => hk.1
      · exact .of_refused t _
    · apply (chain_online .logic (t :: rest)).andThen fun _ => resumes_target?
      intro m rest₁ hrest₁ _
      have hlt := length_of_reading hrest₁
      exact (target?_online rest₁).yields _
termination_by ts => 16 * ts.length + 10
decreasing_by all_goals grind [Level.rank]

theorem target?_online : ∀ ts : List Token,
    Online EndsStore fun us => readingOn (target? (ts ++ us))
  | [] => .of_stopping fun _ hus => target?_none (hus.mono fun _ hk => hk.2)
  | t :: rest => by
    rcases target?_forms t with ⟨-, h⟩ | ⟨-, h⟩
    all_goals simp only [List.cons_append, h]
    · exact ((place_online .store (t :: rest)).yields _).mono fun _ hk => hk.1
    · exact .of_read none (t :: rest)
termination_by ts => 16 * ts.length + 2
decreasing_by all_goals grind

theorem chain_online (level : Level) (ts : List Token) :
    Online EndsMath fun us => reading (chain level (ts ++ us)) := by
  simp only [chain_form]
  apply (operand_online level ts).andThen (resumes_chainFrom level)
  intro first rest hrest _
  have hlt := length_of_reading hrest
  exact chainFrom_online level first rest
termination_by 16 * ts.length + 2 * level.rank + 5
decreasing_by all_goals grind

theorem operand_online (level : Level) (ts : List Token) :
    Online EndsMath fun us => reading (operand level (ts ++ us)) := by
  simp only [operand.eq_def]
  cases level with
  | logic => exact chain_online .sum ts
  | sum => exact chain_online .product ts
  | product => exact unary_online ts
termination_by 16 * ts.length + 2 * level.rank + 4
decreasing_by all_goals grind [Level.rank]

theorem chainFrom_online (level : Level) (left : Math) : ∀ ts : List Token,
    Online EndsMath fun us => readingOn (chainFrom level left (ts ++ us))
  | [] => .of_stopping fun _ hus => chainFrom_stops (hus.mono fun _ hk => hk.2 level)
  | t :: rest => by
    rcases chainFrom_forms level left t with ⟨-, h⟩ | ⟨op, h⟩
    all_goals simp only [List.cons_append, h]
    · exact .of_read left (t :: rest)
    · apply (operand_online level rest).andThen fun _ => resumes_chainFrom level _
      intro right rest₁ hrest₁ _
      have hlt := length_of_reading hrest₁
      exact chainFrom_online level _ rest₁
termination_by ts => 16 * ts.length
decreasing_by all_goals grind [Level.rank_le]

theorem unary_online : ∀ ts : List Token, Online EndsMath fun us => reading (unary (ts ++ us))
  | [] => by
    obtain ⟨m, hm⟩ := chain_one .product
    refine .of_starved ?_ ⟨[word .number], m, fun tail htail => ?_⟩
    · dsimp only [List.nil_append]
      rw [unary]
      rfl
    · have hread := (hm tail htail).1
      rwa [operand] at hread
  | t :: rest => by
    rcases unary_forms t with ⟨op, h⟩ | h
    all_goals simp only [List.cons_append, h]
    · exact (term_online rest).yields _
    · exact (term_online (t :: rest)).yields _
termination_by ts => 16 * ts.length + 3
decreasing_by all_goals grind

theorem term_online : ∀ ts : List Token, Online EndsMath fun us => reading (term (ts ++ us))
  | [] => by
    obtain ⟨v, hv⟩ := term_one
    refine .of_starved ?_ ⟨[word .number], v, fun tail htail => ?_⟩
    · dsimp only [List.nil_append]
      rw [term]
      rfl
    · exact hv tail (htail.mono fun _ hk => hk.1)
  | t :: rest => by
    rcases term_forms t with h | h | h
    all_goals simp only [List.cons_append, h]
    · apply (place_online .load (t :: rest)).andThen fun _ =>
        resumes_draft false .empty _ fun _ => id
      intro p rest₁ hrest₁ _
      have hlt := length_of_reading hrest₁
      exact (modifiers_online false .empty rest₁).yields _
    · apply (items_online rest).andThen fun _ => resumes_draft false .empty _ fun _ _ => trivial
      intro es rest₁ hrest₁ _
      have hlt := length_of_reading hrest₁
      exact (modifiers_online false .empty rest₁).yields _
    · apply (atom_online (t :: rest)).andThen resumes_afterCount
      intro count rest₁ hrest₁ hne
      have hlt := length_of_reading hrest₁
      obtain ⟨d, rest₁, rfl⟩ := List.exists_cons_of_ne_nil hne
      simp only [List.cons_append, afterCount]
      split
      · apply (atom_online rest₁).andThen fun _ => resumes_draft true .empty _ fun _ _ => trivial
        intro sides rest₂ hrest₂ _
        have hlt₂ := length_of_reading hrest₂
        exact (modifiers_online true .empty rest₂).yields _
      · exact (modifiers_online false .empty (d :: rest₁)).yields _
termination_by ts => 16 * ts.length + 2
decreasing_by all_goals grind

theorem items_online : ∀ ts : List Token,
    Online (fun _ => True) fun us => reading (items (ts ++ us))
  | [] => by
    refine .of_starved ?_ ⟨[word .rightBracket], [], fun tail _ => ?_⟩
    · dsimp only [List.nil_append]
      rw [items]
      rfl
    · dsimp only [List.nil_append, List.cons_append]
      rw [items, if_pos (word_kind _)]
      rfl
  | t :: rest => by
    rcases items_forms t with h | h
    all_goals simp only [List.cons_append, h]
    · exact .of_read [] rest
    · apply (expr_online (t :: rest)).andThen fun _ => resumes_items _
      intro e rest₁ hrest₁ _
      have hlt := length_of_reading hrest₁
      exact (items_online rest₁).yields _
termination_by ts => 16 * ts.length + 12
decreasing_by all_goals grind

theorem atom_online : ∀ ts : List Token,
    Online (fun _ => True) fun us => reading (atom (ts ++ us))
  | [] => by
    obtain ⟨a, ha⟩ := atom_one
    refine .of_starved ?_ ⟨[word .number], a, fun tail _ => ha tail⟩
    dsimp only [List.nil_append]
    rw [atom]
    rfl
  | t :: rest => by
    rcases atom_forms t with ⟨x, h⟩ | ⟨cause, h⟩ | h
    all_goals simp only [List.cons_append, h]
    · exact .of_read (Atom.number x) rest
    · exact .of_refused t cause
    · apply (expr_online rest).andThen resumes_afterGroup
      intro e rest₁ hrest₁ hne
      obtain ⟨s, rest₁, rfl⟩ := List.exists_cons_of_ne_nil hne
      simp only [List.cons_append, afterGroup]
      split
      · exact .of_read (Atom.group e) rest₁
      · exact .of_refused s _
termination_by ts => 16 * ts.length
decreasing_by all_goals grind

theorem modifiers_online (rolled : Bool) (draft : Draft) : ∀ ts : List Token,
    Online EndsMath fun us => readingOn (modifiers rolled draft (ts ++ us))
  | [] => .of_stopping fun _ hus => readingOn_modifiers hus
  | t :: rest => by
    rcases modifiers_forms rolled draft t with
      ⟨-, h⟩ | ⟨cause, h⟩ | ⟨draft', h⟩ | ⟨draft', h⟩ | ⟨draft', h⟩ | ⟨draft', h⟩
    all_goals simp only [List.cons_append, h]
    · exact .of_read draft (t :: rest)
    · exact .of_refused t cause
    · exact modifiers_online rolled draft' rest
    · apply (condition_online rest).andThen fun c => resumes_modifiers rolled _ fun _ _ => trivial
      intro c rest₁ hrest₁ _
      have hlt := length_of_reading hrest₁
      exact modifiers_online rolled (draft' c) rest₁
    · apply (condition_online (t :: rest)).andThen fun c =>
        resumes_modifiers rolled _ fun _ _ => trivial
      intro c rest₁ hrest₁ _
      have hlt := length_of_reading hrest₁
      exact modifiers_online rolled (draft' c) rest₁
    · apply (atom_online rest).andThen fun c => resumes_modifiers rolled _ fun _ _ => trivial
      intro count rest₁ hrest₁ _
      have hlt := length_of_reading hrest₁
      exact modifiers_online rolled (draft' count) rest₁
termination_by ts => 16 * ts.length + 2
decreasing_by all_goals grind

theorem condition_online : ∀ ts : List Token,
    Online (fun _ => True) fun us => reading (condition (ts ++ us))
  | [] => by
    obtain ⟨a, ha⟩ := atom_one
    refine .of_starved ?_
      ⟨[word .number], ⟨.equal, a⟩, fun tail _ => condition_of_atom rfl (ha tail)⟩
    dsimp only [List.nil_append]
    rw [condition]
    rfl
  | t :: rest => by
    rcases condition_forms t with ⟨relation, h⟩ | h
    all_goals simp only [List.cons_append, h]
    · exact (atom_online rest).yields _
    · exact (atom_online (t :: rest)).yields _
termination_by ts => 16 * ts.length + 1
decreasing_by all_goals grind

theorem place_online (marker : TokenKind) : ∀ ts : List Token,
    Online EndsMath fun us => reading (place marker (ts ++ us))
  | [] => by
    obtain ⟨p, hp⟩ := place_one marker
    refine .of_starved ?_ ⟨[word marker, word .number, word .roll, word .number], p,
      fun tail _ => hp tail⟩
    dsimp only [List.nil_append]
    rw [place]
    rfl
  | t :: rest => by
    rcases place_forms marker t with h | ⟨-, h⟩
    all_goals simp only [List.cons_append, h]
    · exact .of_refused t _
    · apply (atom_online rest).andThen (resumes_afterCoordinate t)
      intro count rest₁ hrest₁ hne
      have hlt := length_of_reading hrest₁
      obtain ⟨s, rest₁, rfl⟩ := List.exists_cons_of_ne_nil hne
      simp only [List.cons_append, afterCoordinate]
      split
      · exact ((atom_online rest₁).yields _).mono fun _ _ => trivial
      · cases count with
        | number x => exact .of_refused s _
        | group e =>
            rcases groupedPlace_cases t e with ⟨p, hp⟩ | hp
            · simp only [hp]
              exact .of_read p (s :: rest₁)
            · simp only [hp]
              exact .of_refused t _
termination_by ts => 16 * ts.length + 1
decreasing_by all_goals grind

end

/-! ## Whole lists -/

theorem exprs_of_read {t : Token} {ts rest : List Token} {e : Expr}
    (h : reading (expr (t :: ts)) = .ok (e, rest)) :
    exprs (t :: ts) = (exprs rest).map (e :: ·) := by
  obtain ⟨p, hp, rfl, rfl⟩ := of_eq_ok h
  rw [exprs, hp]
  dsimp only [bind, Except.bind]
  cases exprs p.rest <;> rfl

theorem exprs_of_refused {t : Token} {ts : List Token} {refusal : Refusal}
    (h : reading (expr (t :: ts)) = .error refusal) : exprs (t :: ts) = .error refusal := by
  rw [exprs]
  cases hx : expr (t :: ts) with
  | ok p =>
      rw [hx] at h
      cases h
  | error r =>
      rw [hx] at h
      cases h
      rfl

/-- When the list is refused behind its first expression, the rest is refused for the same, and the
first expression stays whatever comes behind. -/
theorem exprs_behind {t : Token} {ts rest : List Token} {e : Expr} {refusal : Refusal}
    (hx : reading (expr (t :: ts)) = .ok (e, rest)) (h : exprs (t :: ts) = .error refusal) :
    exprs rest = .error refusal ∧
      ∀ us, exprs (t :: ts ++ us) = (exprs (rest ++ us)).map (e :: ·) := by
  rw [exprs_of_read hx] at h
  have hrest : exprs rest = .error refusal := by
    cases hr : exprs rest with
    | ok es =>
        rw [hr] at h
        cases h
    | error r =>
        rw [hr] at h
        cases h
        rfl
  have hne : rest ≠ [] := by
    rintro rfl
    rw [exprs] at hrest
    cases hrest
  refine ⟨hrest, fun us => ?_⟩
  have hread : reading (expr (t :: (ts ++ us))) = .ok (e, rest ++ us) :=
    (expr_online (t :: ts)).settled e rest (by rwa [List.append_nil]) us fun hnil => absurd hnil hne
  exact exprs_of_read hread

theorem exprs_starved : ∀ ts : List Token, exprs ts = .error .endOfInput →
    ∃ us es, exprs (ts ++ us) = .ok es
  | [], h => by
    rw [exprs] at h
    cases h
  | t :: ts, h => by
    cases hx : reading (expr (t :: ts)) with
    | error refusal =>
        rw [exprs_of_refused hx] at h
        cases h
        obtain ⟨us, e, hus⟩ := (expr_online (t :: ts)).starved (by rwa [List.append_nil])
        have hread := exprs_of_read (hus [] (next_nil _))
        rw [List.append_nil, exprs] at hread
        exact ⟨us, [e], hread⟩
    | ok r =>
        obtain ⟨e, rest⟩ := r
        have hlt := length_of_reading hx
        obtain ⟨hrest, happend⟩ := exprs_behind hx h
        obtain ⟨us, es, hus⟩ := exprs_starved rest hrest
        refine ⟨us, e :: es, ?_⟩
        rw [happend, hus]
        rfl
termination_by ts => ts.length
decreasing_by exact hlt

theorem exprs_refused : ∀ (ts : List Token) (t : Token) (cause : ParseCause),
    exprs ts = .error (.unexpected t cause) → ¬ cause.LooksBack →
      ∀ us, exprs (ts ++ us) = .error (.unexpected t cause)
  | [], _, _, h, _, _ => by
    rw [exprs] at h
    cases h
  | s :: ts, t, cause, h, hback, us => by
    cases hx : reading (expr (s :: ts)) with
    | error refusal =>
        rw [exprs_of_refused hx] at h
        cases h
        exact exprs_of_refused
          ((expr_online (s :: ts)).refused t cause (by rwa [List.append_nil]) hback us)
    | ok r =>
        obtain ⟨e, rest⟩ := r
        have hlt := length_of_reading hx
        obtain ⟨hrest, happend⟩ := exprs_behind hx h
        rw [happend, exprs_refused rest t cause hrest hback us]
        rfl
termination_by ts => ts.length
decreasing_by exact hlt

end Parser

/-- A source that is refused because its input ends has a continuation that parses. A source that is
refused for anything else is refused for the same, whatever comes behind it, unless the cause is one
of the two that are reported at a token read before. -/
theorem parse_online (ts : List Token) :
    (∀ last, parse ts = .error (.endOfInput last) → ∃ us script, parse (ts ++ us) = .ok script) ∧
      ∀ t cause, parse ts = .error (.unexpected t cause) → cause ≠ .openWithoutHandle →
        cause ≠ .notAReference → ∀ us, parse (ts ++ us) = .error (.unexpected t cause) := by
  have hrefusal : ∀ {e : ParseError}, parse ts = .error e →
      ∃ r, Parser.exprs ts = .error r ∧ r.toError ts = e := by
    intro e h
    unfold parse at h
    cases hx : Parser.exprs ts with
    | ok body =>
        rw [hx] at h
        cases h
    | error r =>
        rw [hx] at h
        exact ⟨r, rfl, Except.error.inj h⟩
  constructor
  · intro last h
    obtain ⟨r, hr, hlast⟩ := hrefusal h
    cases r with
    | unexpected t cause => cases hlast
    | endOfInput =>
        obtain ⟨us, es, hus⟩ := Parser.exprs_starved ts hr
        refine ⟨us, ⟨es⟩, ?_⟩
        unfold parse
        rw [hus]
  · intro t cause h hopen hreference us
    obtain ⟨r, hr, hcause⟩ := hrefusal h
    cases r with
    | endOfInput => cases hcause
    | unexpected t' cause' =>
        cases hcause
        unfold parse
        rw [Parser.exprs_refused ts t cause hr (not_or_intro hopen hreference) us]
        rfl

theorem parse_online_group :
    (∃ us script, parse ([word .leftParen, word .number] ++ us) = .ok script) ∧
      ∀ us, parse ([word .number, word .rightParen] ++ us) =
        .error (.unexpected (word .rightParen) .expectedAtom) := by
  have hends : (match parse [word .leftParen, word .number] with
      | .error e => decide (e = .endOfInput (some (word .number)))
      | .ok _ => false) = true := by decide +kernel
  have hrefused : (match parse [word .number, word .rightParen] with
      | .error e => decide (e = .unexpected (word .rightParen) .expectedAtom)
      | .ok _ => false) = true := by decide +kernel
  constructor
  · split at hends
    · rename_i e he
      exact (parse_online _).1 _ (he.trans (congrArg _ (of_decide_eq_true hends)))
    · cases hends
  · split at hrefused
    · rename_i e he
      exact (parse_online _).2 _ _ (he.trans (congrArg _ (of_decide_eq_true hrefused)))
        (by decide) (by decide)
    · cases hrefused

end DiceScript
