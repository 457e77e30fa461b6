import DiceScript.Proofs.Token.Separation
import DiceScript.Syntax.Parser

/-!
# Where tokens stand does not matter

A reading looks at the kinds and the texts of its tokens and not at their places. Token lists with
the same words are read as the same value, or refused for the same cause at tokens with the same
word.
-/

namespace DiceScript

/-- Both refusals are about the end of the input, or about the same word for the same cause. -/
inductive Refusal.Alike : Refusal → Refusal → Prop
  | endOfInput : Alike .endOfInput .endOfInput
  | unexpected {t u : Token} {cause : ParseCause} : t.SameWord u →
      Alike (.unexpected t cause) (.unexpected u cause)

namespace Parser

/-- Both results have the same value and leave the same words, or both are refusals of the same
word. -/
inductive Agree {α β γ : Type} (value : β → α) (left : β → List Token) (value' : γ → α)
    (left' : γ → List Token) : Except Refusal β → Except Refusal γ → Prop
  | ok {r : β} {r' : γ} : value r = value' r' → SameWords (left r) (left' r') →
      Agree value left value' left' (.ok r) (.ok r')
  | error {e e' : Refusal} : e.Alike e' → Agree value left value' left' (.error e) (.error e')

/-- The results of readings that took a token, and of ones that may have taken none. -/
abbrev AgreeParsed {α : Type} {ts us : List Token} :
    Except Refusal (Parsed α ts) → Except Refusal (Parsed α us) → Prop :=
  Agree Parsed.value Parsed.rest Parsed.value Parsed.rest

abbrev AgreeTrailing {α : Type} {ts us : List Token} :
    Except Refusal (Trailing α ts) → Except Refusal (Trailing α us) → Prop :=
  Agree Trailing.value Trailing.rest Trailing.value Trailing.rest

namespace Agree

variable {α β γ : Type} {value : β → α} {left : β → List Token} {value' : γ → α}
  {left' : γ → List Token}

theorem bind {α₁ β₁ γ₁ : Type} {value₁ : β₁ → α₁} {left₁ : β₁ → List Token} {value₁' : γ₁ → α₁}
    {left₁' : γ₁ → List Token} {x : Except Refusal β} {y : Except Refusal γ}
    {f : β → Except Refusal β₁} {g : γ → Except Refusal γ₁} (hx : Agree value left value' left' x y)
    (hf : ∀ r r', value r = value' r' → SameWords (left r) (left' r') →
      Agree value₁ left₁ value₁' left₁' (f r) (g r')) :
    Agree value₁ left₁ value₁' left₁' (x >>= f) (y >>= g) := by
  cases hx with
  | ok hvalue hleft => exact hf _ _ hvalue hleft
  | error halike => exact .error halike

theorem endOfInput : Agree value left value' left' (.error .endOfInput) (.error .endOfInput) :=
  .error .endOfInput

theorem unexpected {t u : Token} (ht : t.SameWord u) (cause : ParseCause) :
    Agree value left value' left' (.error (.unexpected t cause)) (.error (.unexpected u cause)) :=
  .error (.unexpected ht)

end Agree

theorem grouped_agree {t u : Token} {ts us rest rest' : List Token} (ht : t.SameWord u) (e : Expr)
    (h : rest.length < ts.length) (h' : rest'.length < us.length) (hrest : SameWords rest rest') :
    AgreeParsed (grouped t e rest h) (grouped u e rest' h') := by
  unfold grouped
  split
  · exact .ok rfl hrest
  · exact .unexpected ht _

mutual

theorem expr_agree : ∀ {ts us : List Token}, SameWords ts us → AgreeParsed (expr ts) (expr us)
  | _, _, .nil => by
    rw [expr]
    exact .endOfInput
  | t :: ts, u :: us, .cons ht hts => by
    rw [expr.eq_def (t :: ts), expr.eq_def (u :: us)]
    dsimp only
    rw [ht.kind]
    split
    · refine (expr_agree hts).bind ?_
      rintro ⟨value, rest, h⟩ ⟨_, rest', h'⟩ ⟨⟩ hrest
      exact .ok rfl hrest
    · refine (place_agree .load hts).bind ?_
      rintro ⟨target, rest, h⟩ ⟨_, rest', h'⟩ ⟨⟩ hrest
      refine (expr_agree hrest).bind ?_
      rintro ⟨value, rest₁, h₁⟩ ⟨_, rest₁', h₁'⟩ ⟨⟩ hrest₁
      exact .ok rfl hrest₁
    · refine (place_agree .load hts).bind ?_
      rintro ⟨handle, rest, h⟩ ⟨_, rest', h'⟩ ⟨⟩ hrest
      exact .ok rfl hrest
    · refine (clauses_agree hts).bind ?_
      rintro ⟨⟨cs, otherwise⟩, rest, h⟩ ⟨_, rest', h'⟩ ⟨⟩ hrest
      exact .ok rfl hrest
    · exact store_agree (.cons ht hts)
termination_by ts => 16 * ts.length + 11
decreasing_by all_goals first | omega | grind [Level.rank, Level.rank_le]

theorem clauses_agree {ts us : List Token} (hts : SameWords ts us) :
    AgreeParsed (clauses ts) (clauses us) := by
  rw [clauses.eq_def ts, clauses.eq_def us]
  refine (expr_agree hts).bind ?_
  rintro ⟨condition, rest, h⟩ ⟨_, rest', h'⟩ ⟨⟩ hrest
  cases hrest with
  | nil => exact .endOfInput
  | cons ht hrest =>
      dsimp only
      rw [ht.kind]
      split
      · refine (expr_agree hrest).bind ?_
        rintro ⟨result, rest₁, h₁⟩ ⟨_, rest₁', h₁'⟩ ⟨⟩ hrest₁
        cases hrest₁ with
        | nil => exact .endOfInput
        | cons hs hrest₁ =>
            dsimp only
            rw [hs.kind]
            split
            · refine (clauses_agree hrest₁).bind ?_
              rintro ⟨⟨cs, otherwise⟩, rest₂, h₂⟩ ⟨_, rest₂', h₂'⟩ ⟨⟩ hrest₂
              exact .ok rfl hrest₂
            · exact .ok rfl hrest₁
            · exact .unexpected hs _
      · exact .ok rfl hrest
      · exact .unexpected ht _
termination_by 16 * ts.length + 12
decreasing_by all_goals first | omega | grind [Level.rank, Level.rank_le]

theorem store_agree : ∀ {ts us : List Token}, SameWords ts us → AgreeParsed (store ts) (store us)
  | _, _, .nil => by
    rw [store]
    exact .endOfInput
  | t :: ts, u :: us, .cons ht hts => by
    rw [store.eq_def (t :: ts), store.eq_def (u :: us)]
    dsimp only
    rw [ht.kind]
    split
    · refine (target?_agree hts).bind ?_
      rintro ⟨target, rest, h⟩ ⟨_, rest', h'⟩ ⟨⟩ hrest
      exact .ok rfl hrest
    · refine (place_agree .load hts).bind ?_
      rintro ⟨handle, rest, h⟩ ⟨_, rest', h'⟩ ⟨⟩ hrest
      refine (target?_agree hrest).bind ?_
      rintro ⟨target, rest₁, h₁⟩ ⟨_, rest₁', h₁'⟩ ⟨⟩ hrest₁
      exact .ok rfl hrest₁
    · exact opening_agree .read ht hts
    · exact opening_agree .write ht hts
    · refine (chain_agree .logic (.cons ht hts)).bind ?_
      rintro ⟨m, rest, h⟩ ⟨_, rest', h'⟩ ⟨⟩ hrest
      refine (target?_agree hrest).bind ?_
      rintro ⟨target, rest₁, h₁⟩ ⟨_, rest₁', h₁'⟩ ⟨⟩ hrest₁
      exact .ok rfl hrest₁
termination_by ts => 16 * ts.length + 10
decreasing_by all_goals first | omega | grind [Level.rank, Level.rank_le]

theorem opening_agree (access : Access) {t u : Token} (ht : t.SameWord u) {ts us : List Token}
    (hts : SameWords ts us) : AgreeParsed (opening access t ts) (opening access u us) := by
  rw [opening.eq_def access t, opening.eq_def access u]
  refine (chain_agree .logic hts).bind ?_
  rintro ⟨path, rest, h⟩ ⟨_, rest', h'⟩ ⟨⟩ hrest
  refine (target?_agree hrest).bind ?_
  rintro ⟨target, rest₁, h₁⟩ ⟨_, rest₁', h₁'⟩ ⟨⟩ hrest₁
  cases target with
  | none => exact .unexpected ht _
  | some handle => exact .ok rfl hrest₁
termination_by 16 * ts.length + 12
decreasing_by
  · simp only [Level.rank]
    omega
  · omega

theorem target?_agree : ∀ {ts us : List Token}, SameWords ts us →
    AgreeTrailing (target? ts) (target? us)
  | _, _, .nil => by
    rw [target?]
    exact .ok rfl .nil
  | t :: ts, u :: us, .cons ht hts => by
    rw [target?.eq_def (t :: ts), target?.eq_def (u :: us)]
    dsimp only
    rw [ht.kind]
    split
    · refine (place_agree .store (.cons ht hts)).bind ?_
      rintro ⟨p, rest, h⟩ ⟨_, rest', h'⟩ ⟨⟩ hrest
      exact .ok rfl hrest
    · exact .ok rfl (.cons ht hts)
termination_by ts => 16 * ts.length + 2
decreasing_by all_goals omega

theorem chain_agree (level : Level) {ts us : List Token} (hts : SameWords ts us) :
    AgreeParsed (chain level ts) (chain level us) := by
  rw [chain.eq_def level ts, chain.eq_def level us]
  refine (operand_agree level hts).bind ?_
  rintro ⟨first, rest, h⟩ ⟨_, rest', h'⟩ ⟨⟩ hrest
  refine (chainFrom_agree level first hrest).bind ?_
  rintro ⟨m, rest₁, h₁⟩ ⟨_, rest₁', h₁'⟩ ⟨⟩ hrest₁
  exact .ok rfl hrest₁
termination_by 16 * ts.length + 2 * level.rank + 5
decreasing_by all_goals omega

theorem operand_agree (level : Level) {ts us : List Token} (hts : SameWords ts us) :
    AgreeParsed (operand level ts) (operand level us) := by
  rw [operand.eq_def level ts, operand.eq_def level us]
  cases level with
  | logic => exact chain_agree .sum hts
  | sum => exact chain_agree .product hts
  | product => exact unary_agree hts
termination_by 16 * ts.length + 2 * level.rank + 4
decreasing_by all_goals first | omega | grind [Level.rank, Level.rank_le]

theorem chainFrom_agree (level : Level) (first : Math) : ∀ {ts us : List Token}, SameWords ts us →
    AgreeTrailing (chainFrom level first ts) (chainFrom level first us)
  | _, _, .nil => by
    rw [chainFrom]
    exact .ok rfl .nil
  | t :: ts, u :: us, .cons ht hts => by
    rw [chainFrom.eq_def level first (t :: ts), chainFrom.eq_def level first (u :: us)]
    dsimp only
    rw [ht.kind]
    split
    · exact .ok rfl (.cons ht hts)
    · refine (operand_agree level hts).bind ?_
      rintro ⟨right, rest, h⟩ ⟨_, rest', h'⟩ ⟨⟩ hrest
      refine (chainFrom_agree level _ hrest).bind ?_
      rintro ⟨m, rest₁, h₁⟩ ⟨_, rest₁', h₁'⟩ ⟨⟩ hrest₁
      exact .ok rfl hrest₁
termination_by ts => 16 * ts.length
decreasing_by all_goals first | omega | grind [Level.rank, Level.rank_le]

theorem unary_agree : ∀ {ts us : List Token}, SameWords ts us → AgreeParsed (unary ts) (unary us)
  | _, _, .nil => by
    rw [unary]
    exact .endOfInput
  | t :: ts, u :: us, .cons ht hts => by
    rw [unary.eq_def (t :: ts), unary.eq_def (u :: us)]
    dsimp only
    rw [ht.kind]
    split
    · refine (term_agree hts).bind ?_
      rintro ⟨operand, rest, h⟩ ⟨_, rest', h'⟩ ⟨⟩ hrest
      exact .ok rfl hrest
    · refine (term_agree (.cons ht hts)).bind ?_
      rintro ⟨value, rest, h⟩ ⟨_, rest', h'⟩ ⟨⟩ hrest
      exact .ok rfl hrest
termination_by ts => 16 * ts.length + 3
decreasing_by all_goals first | omega | grind [Level.rank, Level.rank_le]

theorem term_agree : ∀ {ts us : List Token}, SameWords ts us → AgreeParsed (term ts) (term us)
  | _, _, .nil => by
    rw [term]
    exact .endOfInput
  | t :: ts, u :: us, .cons ht hts => by
    rw [term.eq_def (t :: ts), term.eq_def (u :: us)]
    dsimp only
    rw [ht.kind]
    split
    · refine (place_agree .load (.cons ht hts)).bind ?_
      rintro ⟨p, rest, h⟩ ⟨_, rest', h'⟩ ⟨⟩ hrest
      refine (modifiers_agree false .empty hrest).bind ?_
      rintro ⟨draft, rest₁, h₁⟩ ⟨_, rest₁', h₁'⟩ ⟨⟩ hrest₁
      exact .ok rfl hrest₁
    · refine (items_agree hts).bind ?_
      rintro ⟨es, rest, h⟩ ⟨_, rest', h'⟩ ⟨⟩ hrest
      refine (modifiers_agree false .empty hrest).bind ?_
      rintro ⟨draft, rest₁, h₁⟩ ⟨_, rest₁', h₁'⟩ ⟨⟩ hrest₁
      exact .ok rfl hrest₁
    · refine (atom_agree (.cons ht hts)).bind ?_
      rintro ⟨count, rest, h⟩ ⟨_, rest', h'⟩ ⟨⟩ hrest
      cases hrest with
      | nil => exact .ok rfl .nil
      | cons hd hrest =>
          dsimp only
          rw [hd.kind]
          split
          · refine (atom_agree hrest).bind ?_
            rintro ⟨sides, rest₁, h₁⟩ ⟨_, rest₁', h₁'⟩ ⟨⟩ hrest₁
            refine (modifiers_agree true .empty hrest₁).bind ?_
            rintro ⟨draft, rest₂, h₂⟩ ⟨_, rest₂', h₂'⟩ ⟨⟩ hrest₂
            exact .ok rfl hrest₂
          · refine (modifiers_agree false .empty (.cons hd hrest)).bind ?_
            rintro ⟨draft, rest₁, h₁⟩ ⟨_, rest₁', h₁'⟩ ⟨⟩ hrest₁
            exact .ok rfl hrest₁
termination_by ts => 16 * ts.length + 2
decreasing_by all_goals first | omega | grind [Level.rank, Level.rank_le]

theorem items_agree : ∀ {ts us : List Token}, SameWords ts us → AgreeParsed (items ts) (items us)
  | _, _, .nil => by
    rw [items]
    exact .endOfInput
  | t :: ts, u :: us, .cons ht hts => by
    rw [items.eq_def (t :: ts), items.eq_def (u :: us)]
    dsimp only
    rw [ht.kind]
    split
    · exact .ok rfl hts
    · refine (expr_agree (.cons ht hts)).bind ?_
      rintro ⟨e, rest, h⟩ ⟨_, rest', h'⟩ ⟨⟩ hrest
      refine (items_agree hrest).bind ?_
      rintro ⟨es, rest₁, h₁⟩ ⟨_, rest₁', h₁'⟩ ⟨⟩ hrest₁
      exact .ok rfl hrest₁
termination_by ts => 16 * ts.length + 12
decreasing_by all_goals omega

theorem atom_agree : ∀ {ts us : List Token}, SameWords ts us → AgreeParsed (atom ts) (atom us)
  | _, _, .nil => by
    rw [atom]
    exact .endOfInput
  | t :: ts, u :: us, .cons ht hts => by
    rw [atom.eq_def (t :: ts), atom.eq_def (u :: us)]
    dsimp only
    rw [ht.kind, ht.text]
    split
    · split
      · exact .ok rfl hts
      · exact .unexpected ht _
    · refine (expr_agree hts).bind ?_
      rintro ⟨e, rest, h⟩ ⟨_, rest', h'⟩ ⟨⟩ hrest
      cases hrest with
      | nil => exact .endOfInput
      | cons hs hrest =>
          dsimp only
          rw [hs.kind]
          split
          · exact .ok rfl hrest
          · exact .unexpected hs _
    · exact .unexpected ht _
    · exact .unexpected ht _
termination_by ts => 16 * ts.length
decreasing_by all_goals first | omega | grind [Level.rank, Level.rank_le]

theorem modifiers_agree (rolled : Bool) (draft : Draft) : ∀ {ts us : List Token},
    SameWords ts us → AgreeTrailing (modifiers rolled draft ts) (modifiers rolled draft us)
  | _, _, .nil => by
    rw [modifiers]
    exact .ok rfl .nil
  | t :: ts, u :: us, .cons ht hts => by
    rw [modifiers.eq_def rolled draft (t :: ts), modifiers.eq_def rolled draft (u :: us)]
    dsimp only
    rw [ht.kind]
    split
    · split
      · exact .unexpected ht _
      · refine (modifiers_agree rolled _ hts).bind ?_
        rintro ⟨d, rest, h⟩ ⟨_, rest', h'⟩ ⟨⟩ hrest
        exact .ok rfl hrest
    · split
      · exact .unexpected ht _
      · split
        · exact .unexpected ht _
        · refine (condition_agree hts).bind ?_
          rintro ⟨c, rest, h⟩ ⟨_, rest', h'⟩ ⟨⟩ hrest
          refine (modifiers_agree rolled _ hrest).bind ?_
          rintro ⟨d, rest₁, h₁⟩ ⟨_, rest₁', h₁'⟩ ⟨⟩ hrest₁
          exact .ok rfl hrest₁
    · split
      · exact .unexpected ht _
      · refine (condition_agree (.cons ht hts)).bind ?_
        rintro ⟨c, rest, h⟩ ⟨_, rest', h'⟩ ⟨⟩ hrest
        refine (modifiers_agree rolled _ hrest).bind ?_
        rintro ⟨d, rest₁, h₁⟩ ⟨_, rest₁', h₁'⟩ ⟨⟩ hrest₁
        exact .ok rfl hrest₁
    · split
      · exact .unexpected ht _
      · refine (atom_agree hts).bind ?_
        rintro ⟨count, rest, h⟩ ⟨_, rest', h'⟩ ⟨⟩ hrest
        refine (modifiers_agree rolled _ hrest).bind ?_
        rintro ⟨d, rest₁, h₁⟩ ⟨_, rest₁', h₁'⟩ ⟨⟩ hrest₁
        exact .ok rfl hrest₁
    · exact .ok rfl (.cons ht hts)
termination_by ts => 16 * ts.length + 2
decreasing_by all_goals first | omega | grind [Level.rank, Level.rank_le]

theorem condition_agree : ∀ {ts us : List Token}, SameWords ts us →
    AgreeParsed (condition ts) (condition us)
  | _, _, .nil => by
    rw [condition]
    exact .endOfInput
  | t :: ts, u :: us, .cons ht hts => by
    rw [condition.eq_def (t :: ts), condition.eq_def (u :: us)]
    dsimp only
    rw [ht.kind]
    split
    · refine (atom_agree hts).bind ?_
      rintro ⟨threshold, rest, h⟩ ⟨_, rest', h'⟩ ⟨⟩ hrest
      exact .ok rfl hrest
    · refine (atom_agree (.cons ht hts)).bind ?_
      rintro ⟨threshold, rest, h⟩ ⟨_, rest', h'⟩ ⟨⟩ hrest
      exact .ok rfl hrest
termination_by ts => 16 * ts.length + 1
decreasing_by all_goals first | omega | grind [Level.rank, Level.rank_le]

theorem place_agree (marker : TokenKind) : ∀ {ts us : List Token}, SameWords ts us →
    AgreeParsed (place marker ts) (place marker us)
  | _, _, .nil => by
    rw [place]
    exact .endOfInput
  | t :: ts, u :: us, .cons ht hts => by
    rw [place.eq_def marker (t :: ts), place.eq_def marker (u :: us)]
    dsimp only
    rw [ht.kind]
    split
    · exact .unexpected ht _
    · refine (atom_agree hts).bind ?_
      rintro ⟨count, rest, h⟩ ⟨_, rest', h'⟩ ⟨⟩ hrest
      cases hrest with
      | nil =>
          cases count with
          | number x => exact .endOfInput
          | group e => exact grouped_agree ht e _ _ .nil
      | cons hs hrest =>
          cases count with
          | number x =>
              dsimp only
              rw [hs.kind]
              split
              · refine (atom_agree hrest).bind ?_
                rintro ⟨sides, rest₁, h₁⟩ ⟨_, rest₁', h₁'⟩ ⟨⟩ hrest₁
                exact .ok rfl hrest₁
              · exact .unexpected hs _
          | group e =>
              dsimp only
              rw [hs.kind]
              split
              · refine (atom_agree hrest).bind ?_
                rintro ⟨sides, rest₁, h₁⟩ ⟨_, rest₁', h₁'⟩ ⟨⟩ hrest₁
                exact .ok rfl hrest₁
              · exact grouped_agree ht e _ _ (.cons hs hrest)
termination_by ts => 16 * ts.length + 1
decreasing_by all_goals first | omega | grind [Level.rank, Level.rank_le]

end

theorem exprs_agree : ∀ {ts us : List Token}, SameWords ts us →
    Agree id (fun _ => []) id (fun _ => []) (exprs ts) (exprs us)
  | _, _, .nil => by
    rw [exprs]
    exact .ok rfl .nil
  | t :: ts, u :: us, .cons ht hts => by
    rw [exprs.eq_def (t :: ts), exprs.eq_def (u :: us)]
    refine (expr_agree (.cons ht hts)).bind ?_
    rintro ⟨e, rest, h⟩ ⟨_, rest', h'⟩ ⟨⟩ hrest
    refine (exprs_agree hrest).bind ?_
    rintro es _ ⟨⟩ -
    exact .ok rfl .nil
termination_by ts => ts.length
decreasing_by exact h

end Parser

/-- Errors that say the same, though perhaps of another place. -/
structure ParseError.SaysSame (e e' : ParseError) : Prop where
  detail : e.detail = e'.detail
  found : e.found = e'.found

theorem Refusal.Alike.saysSame {r r' : Refusal} (h : r.Alike r') (ts us : List Token) :
    (r.toError ts).SaysSame (r'.toError us) := by
  cases h with
  | endOfInput => exact ⟨rfl, rfl⟩
  | unexpected ht => exact ⟨rfl, congrArg some ht.text⟩

/-- The same words are the same script, or an error that says the same. -/
theorem parse_sameWords {ts us : List Token} (hts : SameWords ts us) :
    (∃ script, parse ts = .ok script ∧ parse us = .ok script) ∨
      ∃ e e', parse ts = .error e ∧ parse us = .error e' ∧ e.SaysSame e' := by
  have hexprs := Parser.exprs_agree hts
  unfold parse
  cases hx : Parser.exprs ts with
  | ok body =>
      rw [hx] at hexprs
      cases hy : Parser.exprs us with
      | error r =>
          rw [hy] at hexprs
          cases hexprs
      | ok body' =>
          rw [hy] at hexprs
          cases hexprs with
          | ok hvalue _ =>
              obtain rfl : body = body' := hvalue
              exact .inl ⟨⟨body⟩, rfl, rfl⟩
  | error r =>
      rw [hx] at hexprs
      cases hy : Parser.exprs us with
      | ok body =>
          rw [hy] at hexprs
          cases hexprs
      | error r' =>
          rw [hy] at hexprs
          cases hexprs with
          | error halike => exact .inr ⟨_, _, rfl, rfl, halike.saysSame ts us⟩

end DiceScript
