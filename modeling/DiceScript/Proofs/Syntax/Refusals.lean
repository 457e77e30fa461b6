import DiceScript.Syntax.Parser

/-!
# The token that is refused

Whatever a reading of tokens leaves, and the token at which it stops, are among the tokens it was
given. So a parse error names a token of the source, or the end of a source that has tokens.
-/

namespace DiceScript

/-- The refusal is about one of the tokens, or about their end. -/
def Refusal.Within (ts : List Token) : Refusal → Prop
  | endOfInput => True
  | unexpected t _ => t ∈ ts

namespace Parser

/-- The tokens that are left after a success are among those given, and a refusal is about them. -/
def Confined {β : Type} (ts : List Token) (left : β → List Token) : Except Refusal β → Prop
  | .ok r => left r ⊆ ts
  | .error e => e.Within ts

namespace Confined

variable {β γ : Type} {ts us : List Token} {left : β → List Token} {left' : γ → List Token}

theorem mono {x : Except Refusal β} (hx : Confined ts left x) (hsub : ts ⊆ us) :
    Confined us left x := by
  cases x with
  | ok r => exact List.Subset.trans hx hsub
  | error e =>
      cases e with
      | endOfInput => exact trivial
      | unexpected t cause => exact hsub hx

theorem bind {x : Except Refusal β} {f : β → Except Refusal γ} (hx : Confined ts left x)
    (hf : ∀ r, left r ⊆ ts → Confined ts left' (f r)) : Confined ts left' (x >>= f) := by
  cases x with
  | ok r => exact hf r hx
  | error e => exact hx

end Confined

/-- The results of a reading that took a token, and of one that may have taken none. -/
abbrev ConfinedParsed {α : Type} (ts : List Token) : Except Refusal (Parsed α ts) → Prop :=
  Confined ts Parsed.rest

abbrev ConfinedTrailing {α : Type} (ts : List Token) : Except Refusal (Trailing α ts) → Prop :=
  Confined ts Trailing.rest

theorem grouped_confined {ts rest : List Token} {t : Token} (e : Expr)
    (h : rest.length < ts.length) (ht : t ∈ ts) (hrest : rest ⊆ ts) :
    ConfinedParsed ts (grouped t e rest h) := by
  unfold grouped
  split
  · exact hrest
  · exact ht

mutual

theorem expr_confined : ∀ ts : List Token, ConfinedParsed ts (expr ts)
  | [] => by
    rw [expr]
    exact trivial
  | t :: rest => by
    have hrest : rest ⊆ t :: rest := List.subset_cons_self t rest
    rw [expr]
    split
    · apply ((expr_confined rest).mono hrest).bind
      intro r hr
      exact hr
    · apply ((place_confined .load rest).mono hrest).bind
      rintro ⟨target, rest₁, h₁⟩ hr
      apply ((expr_confined rest₁).mono hr).bind
      intro r hr
      exact hr
    · apply ((place_confined .load rest).mono hrest).bind
      intro r hr
      exact hr
    · apply ((clauses_confined rest).mono hrest).bind
      intro r hr
      exact hr
    · exact store_confined (t :: rest)
termination_by ts => 16 * ts.length + 11
decreasing_by all_goals grind

theorem clauses_confined (ts : List Token) : ConfinedParsed ts (clauses ts) := by
  rw [clauses]
  apply (expr_confined ts).bind
  rintro ⟨condition, rest, h⟩ hrest
  cases rest with
  | nil => exact trivial
  | cons t rest =>
      dsimp only at hrest ⊢
      have hsub := (List.cons_subset.mp hrest).2
      split
      · apply ((expr_confined rest).mono hsub).bind
        rintro ⟨result, rest₁, h₁⟩ hrest₁
        cases rest₁ with
        | nil => exact trivial
        | cons s rest₁ =>
            dsimp only at hrest₁ ⊢
            have hsub₁ := (List.cons_subset.mp hrest₁).2
            split
            · apply ((clauses_confined rest₁).mono hsub₁).bind
              intro r hr
              exact hr
            · exact hsub₁
            · exact (List.cons_subset.mp hrest₁).1
      · exact hsub
      · exact (List.cons_subset.mp hrest).1
termination_by 16 * ts.length + 12
decreasing_by all_goals grind

theorem store_confined : ∀ ts : List Token, ConfinedParsed ts (store ts)
  | [] => by
    rw [store]
    exact trivial
  | t :: rest => by
    have hrest : rest ⊆ t :: rest := List.subset_cons_self t rest
    rw [store]
    split
    · apply ((target?_confined rest).mono hrest).bind
      intro r hr
      exact hr
    · apply ((place_confined .load rest).mono hrest).bind
      rintro ⟨handle, rest₁, h₁⟩ hr
      apply ((target?_confined rest₁).mono hr).bind
      intro r hr
      exact hr
    · exact opening_confined .read t rest
    · exact opening_confined .write t rest
    · apply (chain_confined .logic (t :: rest)).bind
      rintro ⟨m, rest₁, h₁⟩ hr
      apply ((target?_confined rest₁).mono hr).bind
      intro r hr
      exact hr
termination_by ts => 16 * ts.length + 10
decreasing_by all_goals grind [Level.rank]

theorem opening_confined (access : Access) (t : Token) (rest : List Token) :
    ConfinedParsed (t :: rest) (opening access t rest) := by
  rw [opening]
  apply ((chain_confined .logic rest).mono (List.subset_cons_self t rest)).bind
  rintro ⟨path, rest₁, h₁⟩ hr
  apply ((target?_confined rest₁).mono hr).bind
  rintro ⟨target, rest₂, h₂⟩ hr
  cases target with
  | none => exact List.mem_cons_self
  | some handle => exact hr
termination_by 16 * rest.length + 12
decreasing_by all_goals grind [Level.rank]

theorem target?_confined : ∀ ts : List Token, ConfinedTrailing ts (target? ts)
  | [] => by
    rw [target?]
    exact List.Subset.refl []
  | t :: rest => by
    rw [target?]
    split
    · apply (place_confined .store (t :: rest)).bind
      intro r hr
      exact hr
    · exact List.Subset.refl _
termination_by ts => 16 * ts.length + 2
decreasing_by all_goals grind

theorem chain_confined (level : Level) (ts : List Token) :
    ConfinedParsed ts (chain level ts) := by
  rw [chain]
  apply (operand_confined level ts).bind
  rintro ⟨first, rest₁, h₁⟩ hr
  apply ((chainFrom_confined level first rest₁).mono hr).bind
  intro r hr
  exact hr
termination_by 16 * ts.length + 2 * level.rank + 5
decreasing_by all_goals grind

theorem operand_confined (level : Level) (ts : List Token) :
    ConfinedParsed ts (operand level ts) := by
  rw [operand.eq_def]
  cases level with
  | logic => exact chain_confined .sum ts
  | sum => exact chain_confined .product ts
  | product => exact unary_confined ts
termination_by 16 * ts.length + 2 * level.rank + 4
decreasing_by all_goals grind [Level.rank]

theorem chainFrom_confined (level : Level) (first : Math) : ∀ ts : List Token,
    ConfinedTrailing ts (chainFrom level first ts)
  | [] => by
    rw [chainFrom]
    exact List.Subset.refl []
  | t :: rest => by
    have hrest : rest ⊆ t :: rest := List.subset_cons_self t rest
    rw [chainFrom]
    split
    · exact List.Subset.refl _
    · apply ((operand_confined level rest).mono hrest).bind
      rintro ⟨right, rest₁, h₁⟩ hr
      apply ((chainFrom_confined level _ rest₁).mono hr).bind
      intro r hr
      exact hr
termination_by ts => 16 * ts.length
decreasing_by all_goals grind [Level.rank_le]

theorem unary_confined : ∀ ts : List Token, ConfinedParsed ts (unary ts)
  | [] => by
    rw [unary]
    exact trivial
  | t :: rest => by
    rw [unary]
    split
    · apply ((term_confined rest).mono (List.subset_cons_self t rest)).bind
      intro r hr
      exact hr
    · apply (term_confined (t :: rest)).bind
      intro r hr
      exact hr
termination_by ts => 16 * ts.length + 3
decreasing_by all_goals grind

theorem term_confined : ∀ ts : List Token, ConfinedParsed ts (term ts)
  | [] => by
    rw [term]
    exact trivial
  | t :: rest => by
    have hrest : rest ⊆ t :: rest := List.subset_cons_self t rest
    rw [term]
    split
    · apply (place_confined .load (t :: rest)).bind
      rintro ⟨p, rest₁, h₁⟩ hr
      apply ((modifiers_confined false .empty rest₁).mono hr).bind
      intro r hr
      exact hr
    · apply ((items_confined rest).mono hrest).bind
      rintro ⟨es, rest₁, h₁⟩ hr
      apply ((modifiers_confined false .empty rest₁).mono hr).bind
      intro r hr
      exact hr
    · apply (atom_confined (t :: rest)).bind
      rintro ⟨count, rest₁, h₁⟩ hr
      cases rest₁ with
      | nil => exact hr
      | cons d rest₁ =>
          dsimp only at hr ⊢
          split
          · apply ((atom_confined rest₁).mono (List.cons_subset.mp hr).2).bind
            rintro ⟨sides, rest₂, h₂⟩ hr
            apply ((modifiers_confined true .empty rest₂).mono hr).bind
            intro r hr
            exact hr
          · apply ((modifiers_confined false .empty (d :: rest₁)).mono hr).bind
            intro r hr
            exact hr
termination_by ts => 16 * ts.length + 2
decreasing_by all_goals grind

theorem items_confined : ∀ ts : List Token, ConfinedParsed ts (items ts)
  | [] => by
    rw [items]
    exact trivial
  | t :: rest => by
    rw [items]
    split
    · exact List.subset_cons_self t rest
    · apply (expr_confined (t :: rest)).bind
      rintro ⟨e, rest₁, h₁⟩ hr
      apply ((items_confined rest₁).mono hr).bind
      intro r hr
      exact hr
termination_by ts => 16 * ts.length + 12
decreasing_by all_goals grind

theorem atom_confined : ∀ ts : List Token, ConfinedParsed ts (atom ts)
  | [] => by
    rw [atom]
    exact trivial
  | t :: rest => by
    have hrest : rest ⊆ t :: rest := List.subset_cons_self t rest
    rw [atom]
    split
    · split
      · exact hrest
      · exact List.mem_cons_self
    · apply ((expr_confined rest).mono hrest).bind
      rintro ⟨e, rest₁, h₁⟩ hr
      cases rest₁ with
      | nil => exact trivial
      | cons s rest₁ =>
          dsimp only at hr ⊢
          split
          · exact (List.cons_subset.mp hr).2
          · exact (List.cons_subset.mp hr).1
    · exact List.mem_cons_self
    · exact List.mem_cons_self
termination_by ts => 16 * ts.length
decreasing_by all_goals grind

theorem modifiers_confined (rolled : Bool) (draft : Draft) : ∀ ts : List Token,
    ConfinedTrailing ts (modifiers rolled draft ts)
  | [] => by
    rw [modifiers]
    exact List.Subset.refl []
  | t :: rest => by
    have hrest : rest ⊆ t :: rest := List.subset_cons_self t rest
    rw [modifiers]
    split
    · split
      · exact List.mem_cons_self
      · apply ((modifiers_confined rolled _ rest).mono hrest).bind
        intro r hr
        exact hr
    · split
      · exact List.mem_cons_self
      · split
        · exact List.mem_cons_self
        · apply ((condition_confined rest).mono hrest).bind
          rintro ⟨c, rest₁, h₁⟩ hr
          apply ((modifiers_confined rolled _ rest₁).mono hr).bind
          intro r hr
          exact hr
    · split
      · exact List.mem_cons_self
      · apply (condition_confined (t :: rest)).bind
        rintro ⟨c, rest₁, h₁⟩ hr
        apply ((modifiers_confined rolled _ rest₁).mono hr).bind
        intro r hr
        exact hr
    · split
      · exact List.mem_cons_self
      · apply ((atom_confined rest).mono hrest).bind
        rintro ⟨count, rest₁, h₁⟩ hr
        apply ((modifiers_confined rolled _ rest₁).mono hr).bind
        intro r hr
        exact hr
    · exact List.Subset.refl _
termination_by ts => 16 * ts.length + 2
decreasing_by all_goals grind

theorem condition_confined : ∀ ts : List Token, ConfinedParsed ts (condition ts)
  | [] => by
    rw [condition]
    exact trivial
  | t :: rest => by
    rw [condition]
    split
    · apply ((atom_confined rest).mono (List.subset_cons_self t rest)).bind
      intro r hr
      exact hr
    · apply (atom_confined (t :: rest)).bind
      intro r hr
      exact hr
termination_by ts => 16 * ts.length + 1
decreasing_by all_goals grind

theorem place_confined (marker : TokenKind) : ∀ ts : List Token,
    ConfinedParsed ts (place marker ts)
  | [] => by
    rw [place]
    exact trivial
  | t :: rest => by
    have hrest : rest ⊆ t :: rest := List.subset_cons_self t rest
    rw [place]
    split
    · exact List.mem_cons_self
    · apply ((atom_confined rest).mono hrest).bind
      rintro ⟨count, rest₁, h₁⟩ hr
      cases rest₁ with
      | nil =>
          cases count with
          | number x => exact trivial
          | group e => exact grouped_confined e _ List.mem_cons_self hr
      | cons s rest₁ =>
          dsimp only at hr
          have hsub := (List.cons_subset.mp hr).2
          cases count with
          | number x =>
              dsimp only
              split
              · apply ((atom_confined rest₁).mono hsub).bind
                intro r hr
                exact hr
              · exact (List.cons_subset.mp hr).1
          | group e =>
              dsimp only
              split
              · apply ((atom_confined rest₁).mono hsub).bind
                intro r hr
                exact hr
              · exact grouped_confined e _ List.mem_cons_self hr
termination_by ts => 16 * ts.length + 1
decreasing_by all_goals grind

end

theorem exprs_confined (ts : List Token) : Confined ts (fun _ => []) (exprs ts) := by
  fun_induction exprs ts with
  | case1 => exact List.Subset.refl []
  | case2 t rest ih =>
      apply (expr_confined (t :: rest)).bind
      rintro ⟨e, rest₁, h₁⟩ hr
      apply ((ih rest₁ h₁).mono hr).bind
      intro es _
      exact List.nil_subset _

end Parser

/-- What a parse error is about: a token of the list, or its end when it has a last token. -/
theorem parse_error_cases {ts : List Token} {e : ParseError} (h : parse ts = .error e) :
    (∃ t cause, e = .unexpected t cause ∧ t ∈ ts) ∨
      ∃ t, e = .endOfInput (some t) ∧ ts.getLast? = some t := by
  have hconfined := Parser.exprs_confined ts
  unfold parse at h
  cases hx : Parser.exprs ts with
  | ok body =>
      rw [hx] at h
      cases h
  | error refusal =>
      rw [hx] at h hconfined
      cases h
      cases refusal with
      | unexpected t cause => exact .inl ⟨t, cause, rfl, hconfined⟩
      | endOfInput =>
          refine .inr ?_
          cases hlast : ts.getLast? with
          | some t => exact ⟨t, by rw [Refusal.toError, hlast], rfl⟩
          | none =>
              rw [List.getLast?_eq_none_iff.mp hlast, Parser.exprs] at hx
              cases hx

end DiceScript
