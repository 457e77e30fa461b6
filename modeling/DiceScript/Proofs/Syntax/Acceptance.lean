import DiceScript.Proofs.Syntax.Ambiguity
import DiceScript.Proofs.Syntax.Completeness
import DiceScript.Proofs.Syntax.Soundness

/-!
# The language

The parser accepts the token lists that have a derivation, and its script is the one with the greedy
derivation.
-/

namespace DiceScript

open Grammar

namespace Parser

theorem exprs_sound (greedy : Bool) : ∀ (ts : List Token) (es : List Expr), exprs ts = .ok es →
    IsExprs greedy ts [] es
  | [], es, h => by
    rw [exprs] at h
    cases h
    exact .nil
  | t :: rest, es, h => by
    rw [exprs] at h
    obtain ⟨⟨e, rest₁, h₁⟩, he, h⟩ := bind_eq_ok h
    obtain ⟨es, hes, h⟩ := bind_eq_ok h
    cases h
    have hlist := exprs_sound greedy rest₁ es hes
    exact .cons (expr_sound greedy _ _ he) (fun _ hend => expr_noPlus _ _ he hend) hlist
termination_by ts => ts.length
decreasing_by exact h₁

theorem exprs_nil : exprs [] = .ok [] := by
  rw [exprs]
  rfl

theorem exprs_cons {ts us : List Token} {e : Expr} {es : List Expr} (he : IsExpr true ts us e)
    (hend : Next (TokenKind.EndsExpr e) us) (hlist : exprs us = .ok es) :
    exprs ts = .ok (e :: es) := by
  obtain ⟨_, hread⟩ := (expr_complete he hend).eq_ok
  obtain ⟨t, us, rfl, -⟩ := he.head
  rw [exprs, hread]
  dsimp only [bind, Except.bind]
  rw [hlist]
  rfl

theorem exprs_complete : ∀ {ts rest : List Token} {es : List Expr}, IsExprs true ts rest es →
    rest = [] → exprs ts = .ok es
  | _, _, _, .nil, hrest => hrest ▸ exprs_nil
  | _, _, _, .cons he hplus hes, hrest =>
    exprs_cons he (hes.next_endsExpr (hplus rfl) (hrest ▸ next_nil _)) (exprs_complete hes hrest)
termination_by structural _ _ _ h => h

end Parser

theorem parse_eq_ok {tokens : List Token} {script : Script} :
    parse tokens = .ok script ↔ Parser.exprs tokens = .ok script.body := by
  unfold parse
  obtain ⟨body⟩ := script
  cases Parser.exprs tokens with
  | error e => simp
  | ok es => simp

/-- Parsing succeeds exactly on the programs of the grammar. The script is that of the only greedy
derivation, where every plus behind math is a binary operator. -/
theorem parse_accepts (tokens : List Token) :
    ((∃ script, parse tokens = .ok script) ↔ ∃ script, IsScript false tokens script) ∧
      ∀ script, (parse tokens = .ok script ↔ IsScript true tokens script) ∧
        (IsScript true tokens script → IsScript false tokens script) := by
  have hgreedy : ∀ script, parse tokens = .ok script ↔ IsScript true tokens script := by
    intro script
    rw [parse_eq_ok]
    exact ⟨Parser.exprs_sound true _ _, fun h => Parser.exprs_complete h rfl⟩
  have hloose : ∀ script, parse tokens = .ok script → IsScript false tokens script :=
    fun script h => Parser.exprs_sound false _ _ (parse_eq_ok.mp h)
  refine ⟨⟨?_, ?_⟩, fun script => ⟨hgreedy script, ?_⟩⟩
  · rintro ⟨script, h⟩
    exact ⟨script, hloose script h⟩
  · rintro ⟨script, h⟩
    obtain ⟨body, hbody⟩ := h.exists_greedy (next_nil _)
    exact ⟨⟨body⟩, (hgreedy ⟨body⟩).mpr hbody⟩
  · intro h
    exact hloose script ((hgreedy script).mpr h)

end DiceScript
