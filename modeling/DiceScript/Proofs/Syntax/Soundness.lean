import DiceScript.Proofs.Syntax.Drafts
import DiceScript.Proofs.Syntax.Heads

/-!
# What the parser reads

Whatever a function of the parser returns has a derivation from the tokens that it consumed. The
derivation is greedy, since a chain of sums takes every plus that comes.
-/

namespace DiceScript

open Grammar

namespace Grammar

/-- Math that is a mere value has no operators at any level. -/
theorem IsMath.isTerm {greedy : Bool} {ts rest : List Token} {value : Term}
    (h : IsMath greedy .logic ts rest (.term value)) : IsTerm greedy ts rest value := by
  cases h with
  | operand h =>
      cases h with
      | sum h =>
          cases h with
          | operand h =>
              cases h with
              | product h =>
                  cases h with
                  | operand h =>
                      cases h with
                      | term h => exact h

/-- No modifiers leave all parts out. -/
theorem Collects.eq_nil {ms : List Modifier} {mods : Modifiers} (h : Collects ms mods none)
    (hempty : mods.isEmpty = true) : ms = [] := by
  obtain rfl := Modifiers.eq_none_of_isEmpty hempty
  refine List.eq_nil_iff_forall_not_mem.mpr fun m hm => ?_
  cases m with
  | sort order => simpa [Modifiers.none] using (h.sort order).mpr hm
  | select s => simpa [Modifiers.none] using (h.select s).mpr hm
  | reroll r => simpa using (h.reroll r).mpr hm
  | check c => simpa [Modifiers.none] using (h.check c).mpr hm

end Grammar

namespace Parser

theorem bind_eq_ok {α β : Type} {x : Except Refusal α} {f : α → Except Refusal β} {b : β}
    (h : x >>= f = .ok b) : ∃ a, x = .ok a ∧ f a = .ok b := by
  cases x with
  | error e => cases h
  | ok a => exact ⟨a, rfl, h⟩

/-! ## The plus behind math -/

/-- A chain of sums takes every plus that comes. -/
theorem chainFrom_sum_noPlus : ∀ (left : Math) (ts : List Token) (p : Trailing Math ts),
    chainFrom .sum left ts = .ok p → Next (· ≠ .plus) p.rest
  | left, [], p, h => by
    rw [chainFrom] at h
    cases h
    exact next_nil _
  | left, t :: rest, p, h => by
    rw [chainFrom] at h
    split at h
    · rename_i hop
      cases h
      rw [next_cons]
      intro hplus
      rw [hplus] at hop
      cases hop
    · obtain ⟨⟨right, rest₁, h₁⟩, hright, h⟩ := bind_eq_ok h
      obtain ⟨⟨m, rest₂, h₂⟩, hm, h⟩ := bind_eq_ok h
      cases h
      have hnext := chainFrom_sum_noPlus _ _ _ hm
      exact hnext
termination_by _ ts => ts.length
decreasing_by simp only [List.length_cons]; omega

theorem chain_sum_noPlus {ts : List Token} {p : Parsed Math ts} (h : chain .sum ts = .ok p) :
    Next (· ≠ .plus) p.rest := by
  rw [chain] at h
  obtain ⟨⟨first, rest₁, h₁⟩, hfirst, h⟩ := bind_eq_ok h
  obtain ⟨⟨m, rest₂, h₂⟩, hm, h⟩ := bind_eq_ok h
  cases h
  exact chainFrom_sum_noPlus _ _ _ hm

theorem chainFrom_logic_noPlus : ∀ (left : Math) (ts : List Token) (p : Trailing Math ts),
    chainFrom .logic left ts = .ok p → Next (· ≠ .plus) ts → Next (· ≠ .plus) p.rest
  | left, [], p, h, hts => by
    rw [chainFrom] at h
    cases h
    exact hts
  | left, t :: rest, p, h, hts => by
    rw [chainFrom] at h
    split at h
    · cases h
      exact hts
    · obtain ⟨⟨right, rest₁, h₁⟩, hright, h⟩ := bind_eq_ok h
      obtain ⟨⟨m, rest₂, h₂⟩, hm, h⟩ := bind_eq_ok h
      cases h
      rw [operand] at hright
      have hnext := chainFrom_logic_noPlus _ _ _ hm (chain_sum_noPlus hright)
      exact hnext
termination_by _ ts => ts.length
decreasing_by simp only [List.length_cons]; omega

theorem chain_logic_noPlus {ts : List Token} {p : Parsed Math ts} (h : chain .logic ts = .ok p) :
    Next (· ≠ .plus) p.rest := by
  rw [chain] at h
  obtain ⟨⟨first, rest₁, h₁⟩, hfirst, h⟩ := bind_eq_ok h
  obtain ⟨⟨m, rest₂, h₂⟩, hm, h⟩ := bind_eq_ok h
  cases h
  rw [operand] at hfirst
  exact chainFrom_logic_noPlus _ _ _ hm (chain_sum_noPlus hfirst)

theorem target?_rest {ts : List Token} {p : Trailing (Option Place) ts}
    (h : target? ts = .ok p) (hnone : p.value = none) : p.rest = ts := by
  cases ts with
  | nil =>
      rw [target?] at h
      cases h
      rfl
  | cons t rest =>
      rw [target?] at h
      split at h
      · obtain ⟨⟨q, rest₁, h₁⟩, hq, h⟩ := bind_eq_ok h
        cases h
        cases hnone
      · cases h
        rfl

theorem opening_endsInMath {access : Access} {t : Token} {rest : List Token}
    {p : Parsed Expr (t :: rest)} (h : opening access t rest = .ok p) :
    p.value.endsInMath = false := by
  rw [opening] at h
  obtain ⟨⟨path, rest₁, h₁⟩, hpath, h⟩ := bind_eq_ok h
  obtain ⟨⟨target, rest₂, h₂⟩, htarget, h⟩ := bind_eq_ok h
  cases target with
  | none => cases h
  | some handle =>
      cases h
      rfl

theorem store_noPlus {ts : List Token} {p : Parsed Expr ts} (h : store ts = .ok p)
    (hend : p.value.endsInMath = true) : Next (· ≠ .plus) p.rest := by
  cases ts with
  | nil =>
      rw [store] at h
      cases h
  | cons t rest =>
      rw [store] at h
      split at h
      · obtain ⟨⟨target, rest₁, h₁⟩, htarget, h⟩ := bind_eq_ok h
        cases h
        cases hend
      · obtain ⟨⟨handle, rest₁, h₁⟩, hhandle, h⟩ := bind_eq_ok h
        obtain ⟨⟨target, rest₂, h₂⟩, htarget, h⟩ := bind_eq_ok h
        cases h
        cases hend
      · rw [opening_endsInMath h] at hend
        cases hend
      · rw [opening_endsInMath h] at hend
        cases hend
      · obtain ⟨⟨m, rest₁, h₁⟩, hm, h⟩ := bind_eq_ok h
        obtain ⟨⟨target, rest₂, h₂⟩, htarget, h⟩ := bind_eq_ok h
        cases h
        cases target with
        | some q => cases hend
        | none =>
            obtain rfl : rest₂ = rest₁ := target?_rest htarget rfl
            have hnext := chain_logic_noPlus hm
            exact hnext

theorem expr_noPlus : ∀ (ts : List Token) (p : Parsed Expr ts), expr ts = .ok p →
    p.value.endsInMath = true → Next (· ≠ .plus) p.rest
  | [], p, h, _ => by
    rw [expr] at h
    cases h
  | t :: rest, p, h, hend => by
    rw [expr] at h
    split at h
    · obtain ⟨⟨value, rest₁, h₁⟩, hvalue, h⟩ := bind_eq_ok h
      cases h
      have hnext := expr_noPlus _ _ hvalue hend
      exact hnext
    · obtain ⟨⟨target, rest₁, h₁⟩, htarget, h⟩ := bind_eq_ok h
      obtain ⟨⟨value, rest₂, h₂⟩, hvalue, h⟩ := bind_eq_ok h
      cases h
      have hnext := expr_noPlus _ _ hvalue hend
      exact hnext
    · obtain ⟨⟨handle, rest₁, h₁⟩, hhandle, h⟩ := bind_eq_ok h
      cases h
      cases hend
    · obtain ⟨⟨⟨cs, otherwise⟩, rest₁, h₁⟩, hclauses, h⟩ := bind_eq_ok h
      cases h
      cases hend
    · exact store_noPlus h hend
termination_by ts => ts.length
decreasing_by all_goals simp only [List.length_cons]; omega

/-! ## Derivations -/

theorem grouped_eq_ok {tokens : List Token} {t : Token} {e : Expr} {rest : List Token}
    {h : rest.length < tokens.length} {p : Parsed Place tokens}
    (hp : grouped t e rest h = .ok p) : e.place? = some p.value ∧ p.rest = rest := by
  unfold grouped at hp
  split at hp
  · rename_i hplace
    cases hp
    exact ⟨hplace, rfl⟩
  · cases hp

/-- The coordinates in parentheses, read off the expression that they are. -/
theorem isRef_of_place? {greedy : Bool} {marker : TokenKind} {t : Token} {ts rest : List Token}
    {e : Expr} {p : Place} (ht : t.kind = marker) (he : IsAtom greedy ts rest (.group e))
    (hp : e.place? = some p) : IsRef greedy marker (t :: ts) rest p := by
  unfold Expr.place? at hp
  split at hp
  · rename_i count sides m
    split at hp
    · rename_i hempty
      cases hp
      cases he with
      | group hl hexpr hr =>
          cases hexpr with
          | math hmath htarget =>
              cases htarget
              cases hmath.isTerm with
              | roll ha hd hs hms hcollects =>
                  obtain rfl := hcollects.eq_nil hempty
                  cases hms
                  exact .grouped ht hl ha hd hs hr
    · cases hp
  · cases hp

variable (greedy : Bool)

mutual

theorem expr_sound : ∀ (ts : List Token) (p : Parsed Expr ts), expr ts = .ok p →
    IsExpr greedy ts p.rest p.value
  | [], p, h => by
    rw [expr] at h
    cases h
  | t :: rest, p, h => by
    rw [expr] at h
    split at h
    · rename_i ht
      obtain ⟨⟨value, rest₁, h₁⟩, hvalue, h⟩ := bind_eq_ok h
      cases h
      exact .print ht (expr_sound _ _ hvalue)
    · rename_i ht
      obtain ⟨⟨target, rest₁, h₁⟩, htarget, h⟩ := bind_eq_ok h
      obtain ⟨⟨value, rest₂, h₂⟩, hvalue, h⟩ := bind_eq_ok h
      cases h
      exact .filePrint ht (place_sound _ _ _ htarget) (expr_sound _ _ hvalue)
    · rename_i ht
      obtain ⟨⟨handle, rest₁, h₁⟩, hhandle, h⟩ := bind_eq_ok h
      cases h
      exact .close ht (place_sound _ _ _ hhandle)
    · rename_i ht
      obtain ⟨⟨⟨cs, otherwise⟩, rest₁, h₁⟩, hclauses, h⟩ := bind_eq_ok h
      cases h
      exact .choose ht (clauses_sound _ _ hclauses)
    · exact store_sound _ _ h
termination_by ts => 16 * ts.length + 11
decreasing_by
  all_goals
    have hlength : (t :: rest).length = rest.length + 1 := rfl
    omega

theorem clauses_sound (ts : List Token) (p : Parsed (List Clause × Option Expr) ts)
    (h : clauses ts = .ok p) : IsBlock greedy ts p.rest p.value.1 p.value.2 := by
  rw [clauses] at h
  obtain ⟨⟨condition, rest, h₁⟩, hcondition, h⟩ := bind_eq_ok h
  have hc := expr_sound _ _ hcondition
  cases rest with
  | nil => cases h
  | cons t rest =>
      dsimp only at h
      split at h
      · rename_i ht
        obtain ⟨⟨result, rest₁, h₂⟩, hresult, h⟩ := bind_eq_ok h
        have hr := expr_sound _ _ hresult
        cases rest₁ with
        | nil => cases h
        | cons s rest₁ =>
            dsimp only at h
            split at h
            · rename_i hs
              obtain ⟨⟨⟨cs, otherwise⟩, rest₂, h₃⟩, hclauses, h⟩ := bind_eq_ok h
              cases h
              exact .clause hc ht hr hs (clauses_sound _ _ hclauses)
            · rename_i hs
              cases h
              exact .last hc ht hr hs
            · cases h
      · rename_i ht
        cases h
        exact .otherwise hc ht
      · cases h
termination_by 16 * ts.length + 12
decreasing_by
  · omega
  · have hlength : (t :: rest).length = rest.length + 1 := rfl
    omega
  · have hlength : (t :: rest).length = rest.length + 1 := rfl
    have hlength₁ : (s :: rest₁).length = rest₁.length + 1 := rfl
    omega

theorem store_sound : ∀ (ts : List Token) (p : Parsed Expr ts), store ts = .ok p →
    IsExpr greedy ts p.rest p.value
  | [], p, h => by
    rw [store] at h
    cases h
  | t :: rest, p, h => by
    rw [store] at h
    split at h
    · rename_i ht
      obtain ⟨⟨target, rest₁, h₁⟩, htarget, h⟩ := bind_eq_ok h
      cases h
      exact .prompt ht (target?_sound _ _ htarget)
    · rename_i ht
      obtain ⟨⟨handle, rest₁, h₁⟩, hhandle, h⟩ := bind_eq_ok h
      obtain ⟨⟨target, rest₂, h₂⟩, htarget, h⟩ := bind_eq_ok h
      cases h
      exact .fileLine ht (place_sound _ _ _ hhandle) (target?_sound _ _ htarget)
    · rename_i ht
      exact opening_sound _ _ _ (by rw [ht]; exact .read) _ h
    · rename_i ht
      exact opening_sound _ _ _ (by rw [ht]; exact .write) _ h
    · obtain ⟨⟨m, rest₁, h₁⟩, hm, h⟩ := bind_eq_ok h
      obtain ⟨⟨target, rest₂, h₂⟩, htarget, h⟩ := bind_eq_ok h
      cases h
      exact .math (chain_sound _ _ _ hm) (target?_sound _ _ htarget)
termination_by ts => 16 * ts.length + 10
decreasing_by
  all_goals
    have hlength : (t :: rest).length = rest.length + 1 := rfl
    have hrank : Level.rank .logic = 2 := rfl
    omega

theorem opening_sound (access : Access) (t : Token) (rest : List Token)
    (ht : IsOpening t.kind access) (p : Parsed Expr (t :: rest))
    (h : opening access t rest = .ok p) : IsExpr greedy (t :: rest) p.rest p.value := by
  rw [opening] at h
  obtain ⟨⟨path, rest₁, h₁⟩, hpath, h⟩ := bind_eq_ok h
  obtain ⟨⟨target, rest₂, h₂⟩, htarget, h⟩ := bind_eq_ok h
  have hp := chain_sound _ _ _ hpath
  have hr : IsTarget greedy rest₁ rest₂ target := target?_sound _ _ htarget
  cases target with
  | none => cases h
  | some handle =>
      cases h
      cases hr with
      | some hr => exact .openFile ht hp hr
termination_by 16 * rest.length + 12
decreasing_by
  all_goals
    have hrank : Level.rank .logic = 2 := rfl
    omega

theorem target?_sound : ∀ (ts : List Token) (p : Trailing (Option Place) ts),
    target? ts = .ok p → IsTarget greedy ts p.rest p.value
  | [], p, h => by
    rw [target?] at h
    cases h
    exact .none
  | t :: rest, p, h => by
    rw [target?] at h
    split at h
    · obtain ⟨⟨q, rest₁, h₁⟩, hq, h⟩ := bind_eq_ok h
      cases h
      exact .some (place_sound _ _ _ hq)
    · cases h
      exact .none
termination_by ts => 16 * ts.length + 2
decreasing_by omega

theorem chain_sound (level : Level) (ts : List Token) (p : Parsed Math ts)
    (h : chain level ts = .ok p) : IsMath greedy level ts p.rest p.value := by
  rw [chain] at h
  obtain ⟨⟨first, rest₁, h₁⟩, hfirst, h⟩ := bind_eq_ok h
  obtain ⟨⟨m, rest₂, h₂⟩, hm, h⟩ := bind_eq_ok h
  cases h
  have hoperand := operand_sound _ _ _ hfirst
  have hchain := chainFrom_sound _ _ _ _ hm ts (.operand hoperand)
  exact hchain
termination_by 16 * ts.length + 2 * level.rank + 5
decreasing_by all_goals omega

theorem operand_sound : ∀ (level : Level) (ts : List Token) (p : Parsed Math ts),
    operand level ts = .ok p → IsOperand greedy level ts p.rest p.value
  | .logic, ts, p, h => by
    rw [operand] at h
    exact .sum (chain_sound _ _ _ h)
  | .sum, ts, p, h => by
    rw [operand] at h
    exact .product (chain_sound _ _ _ h)
  | .product, ts, p, h => by
    rw [operand] at h
    exact unary_sound _ _ h
termination_by level ts => 16 * ts.length + 2 * level.rank + 4
decreasing_by
  · have hsum : Level.rank .sum = 1 := rfl
    have hlogic : Level.rank .logic = 2 := rfl
    omega
  · have hproduct : Level.rank .product = 0 := rfl
    have hsum : Level.rank .sum = 1 := rfl
    omega
  · have hproduct : Level.rank .product = 0 := rfl
    omega

/-- A chain goes on with what was read of it before. -/
theorem chainFrom_sound (level : Level) : ∀ (left : Math) (us : List Token) (p : Trailing Math us),
    chainFrom level left us = .ok p → ∀ ts, IsMath greedy level ts us left →
      IsMath greedy level ts p.rest p.value
  | left, [], p, h, ts, hleft => by
    rw [chainFrom] at h
    cases h
    exact hleft
  | left, t :: rest, p, h, ts, hleft => by
    rw [chainFrom] at h
    split at h
    · cases h
      exact hleft
    · rename_i op hop
      obtain ⟨⟨right, rest₁, h₁⟩, hright, h⟩ := bind_eq_ok h
      obtain ⟨⟨m, rest₂, h₂⟩, hm, h⟩ := bind_eq_ok h
      cases h
      have hbinary := IsMath.binary hleft (operator?_eq_some.mp hop) (operand_sound _ _ _ hright)
      have hchain := chainFrom_sound level _ _ _ hm ts hbinary
      exact hchain
termination_by _ us => 16 * us.length
decreasing_by
  all_goals
    have hlength : (t :: rest).length = rest.length + 1 := rfl
    have hrank := level.rank_le
    omega

theorem unary_sound : ∀ (ts : List Token) (p : Parsed Math ts), unary ts = .ok p →
    IsOperand greedy .product ts p.rest p.value
  | [], p, h => by
    rw [unary] at h
    cases h
  | t :: rest, p, h => by
    rw [unary] at h
    split at h
    · rename_i op hop
      obtain ⟨⟨operand, rest₁, h₁⟩, hoperand, h⟩ := bind_eq_ok h
      cases h
      exact .unary (unary?_eq_some.mp hop) (term_sound _ _ hoperand)
    · obtain ⟨⟨value, rest₁, h₁⟩, hvalue, h⟩ := bind_eq_ok h
      cases h
      exact .term (term_sound _ _ hvalue)
termination_by ts => 16 * ts.length + 3
decreasing_by
  all_goals
    have hlength : (t :: rest).length = rest.length + 1 := rfl
    omega

theorem term_sound : ∀ (ts : List Token) (p : Parsed Term ts), term ts = .ok p →
    IsTerm greedy ts p.rest p.value
  | [], p, h => by
    rw [term] at h
    cases h
  | t :: rest, p, h => by
    rw [term] at h
    split at h
    · obtain ⟨⟨q, rest₁, h₁⟩, hq, h⟩ := bind_eq_ok h
      obtain ⟨⟨draft, rest₂, h₂⟩, hdraft, h⟩ := bind_eq_ok h
      cases h
      obtain ⟨ms, hms, htakes, hreroll⟩ := modifiers_sound _ _ _ _ hdraft
      have hcollects := htakes.collects
      rw [hreroll rfl rfl] at hcollects
      exact .load (place_sound _ _ _ hq) hms hcollects
    · rename_i ht
      obtain ⟨⟨es, rest₁, h₁⟩, hes, h⟩ := bind_eq_ok h
      obtain ⟨⟨draft, rest₂, h₂⟩, hdraft, h⟩ := bind_eq_ok h
      cases h
      obtain ⟨s, hs, hitems⟩ := items_sound _ _ hes
      obtain ⟨ms, hms, htakes, hreroll⟩ := modifiers_sound _ _ _ _ hdraft
      have hcollects := htakes.collects
      rw [hreroll rfl rfl] at hcollects
      exact .list ht hitems hs hms hcollects
    · obtain ⟨⟨count, rest₁, h₁⟩, hcount, h⟩ := bind_eq_ok h
      have ha := atom_sound _ _ hcount
      cases rest₁ with
      | nil =>
          cases h
          exact .atom ha .nil (Draft.Takes.nil .empty).collects
      | cons d rest₁ =>
          dsimp only at h
          split at h
          · rename_i hd
            obtain ⟨⟨sides, rest₂, h₂⟩, hsides, h⟩ := bind_eq_ok h
            obtain ⟨⟨draft, rest₃, h₃⟩, hdraft, h⟩ := bind_eq_ok h
            cases h
            obtain ⟨ms, hms, htakes, _⟩ := modifiers_sound _ _ _ _ hdraft
            exact .roll ha hd (atom_sound _ _ hsides) hms htakes.collects
          · obtain ⟨⟨draft, rest₂, h₂⟩, hdraft, h⟩ := bind_eq_ok h
            cases h
            obtain ⟨ms, hms, htakes, hreroll⟩ := modifiers_sound _ _ _ _ hdraft
            have hcollects := htakes.collects
            rw [hreroll rfl rfl] at hcollects
            exact .atom ha hms hcollects
termination_by ts => 16 * ts.length + 2
decreasing_by
  all_goals
    have hlength : (t :: rest).length = rest.length + 1 := rfl
    first
    | omega
    | have hlength₁ : (d :: rest₁).length = rest₁.length + 1 := rfl
      omega

/-- The expressions of a list end at its closing bracket. -/
theorem items_sound : ∀ (ts : List Token) (p : Parsed (List Expr) ts), items ts = .ok p →
    ∃ s, s.kind = .rightBracket ∧ IsExprs greedy ts (s :: p.rest) p.value
  | [], p, h => by
    rw [items] at h
    cases h
  | t :: rest, p, h => by
    rw [items] at h
    split at h
    · rename_i ht
      cases h
      exact ⟨t, ht, .nil⟩
    · obtain ⟨⟨e, rest₁, h₁⟩, he, h⟩ := bind_eq_ok h
      obtain ⟨⟨es, rest₂, h₂⟩, hes, h⟩ := bind_eq_ok h
      cases h
      obtain ⟨s, hs, hitems⟩ := items_sound _ _ hes
      exact ⟨s, hs, .cons (expr_sound _ _ he) (fun _ hend => expr_noPlus _ _ he hend) hitems⟩
termination_by ts => 16 * ts.length + 12
decreasing_by
  all_goals
    have hlength : (t :: rest).length = rest.length + 1 := rfl
    omega

theorem atom_sound : ∀ (ts : List Token) (p : Parsed Atom ts), atom ts = .ok p →
    IsAtom greedy ts p.rest p.value
  | [], p, h => by
    rw [atom] at h
    cases h
  | t :: rest, p, h => by
    rw [atom] at h
    split at h
    · rename_i ht
      split at h
      · rename_i x hx
        cases h
        exact .number ht hx
      · cases h
    · rename_i ht
      obtain ⟨⟨e, rest₁, h₁⟩, he, h⟩ := bind_eq_ok h
      have hexpr := expr_sound _ _ he
      cases rest₁ with
      | nil => cases h
      | cons s rest₁ =>
          dsimp only at h
          split at h
          · rename_i hs
            cases h
            exact .group ht hexpr hs
          · cases h
    · cases h
    · cases h
termination_by ts => 16 * ts.length
decreasing_by
  have hlength : (t :: rest).length = rest.length + 1 := rfl
  omega

/-- The modifiers read are those that the draft takes in addition. Only a roll has a reroll. -/
theorem modifiers_sound (rolled : Bool) : ∀ (d : Draft) (ts : List Token) (p : Trailing Draft ts),
    modifiers rolled d ts = .ok p → ∃ ms, IsModifiers greedy ts p.rest ms ∧ d.Takes ms p.value ∧
      (rolled = false → d.reroll = none → p.value.reroll = none)
  | d, [], p, h => by
    rw [modifiers] at h
    cases h
    exact ⟨[], .nil, .nil d, fun _ hd => hd⟩
  | d, t :: rest, p, h => by
    rw [modifiers] at h
    split at h
    · rename_i order hrole
      split at h
      · cases h
      · rename_i hlacks
        obtain ⟨⟨d', rest₁, h₁⟩, hd', h⟩ := bind_eq_ok h
        cases h
        obtain ⟨ms, hms, htakes, hreroll⟩ := modifiers_sound rolled _ _ _ hd'
        refine ⟨.sort order :: ms, .cons (.sort (role?_eq_sort.mp hrole)) hms, ?_, hreroll⟩
        exact .cons (Option.not_isSome_iff_eq_none.mp hlacks) htakes
    · rename_i once hrole
      split at h
      · cases h
      · rename_i hlacks
        split at h
        · cases h
        · rename_i hrolled
          obtain ⟨⟨c, rest₁, h₁⟩, hc, h⟩ := bind_eq_ok h
          obtain ⟨⟨d', rest₂, h₂⟩, hd', h⟩ := bind_eq_ok h
          cases h
          obtain ⟨ms, hms, htakes, _⟩ := modifiers_sound rolled _ _ _ hd'
          rw [Option.not_isSome_iff_eq_none] at hlacks
          refine ⟨.reroll ⟨once, c⟩ :: ms, .cons ?_ hms, .cons hlacks htakes, ?_⟩
          · have hone := role?_eq_reroll.mp hrole
            obtain ⟨relation, threshold⟩ := c
            rcases condition_sound _ _ hc with ⟨s, us, rfl, hs, ha⟩ | ⟨heq, ha⟩
            · exact .reroll hone hs ha
            · obtain rfl : relation = .equal := heq
              exact .rerollEqual hone ha
          · intro hfalse
            rw [hfalse] at hrolled
            exact absurd rfl hrolled
    · rename_i hrole
      split at h
      · cases h
      · rename_i hlacks
        obtain ⟨⟨c, rest₁, h₁⟩, hc, h⟩ := bind_eq_ok h
        obtain ⟨⟨d', rest₂, h₂⟩, hd', h⟩ := bind_eq_ok h
        cases h
        obtain ⟨ms, hms, htakes, hreroll⟩ := modifiers_sound rolled _ _ _ hd'
        rw [Option.not_isSome_iff_eq_none] at hlacks
        refine ⟨.check c :: ms, .cons ?_ hms, .cons hlacks htakes, hreroll⟩
        obtain ⟨relation, threshold⟩ := c
        rcases condition_sound _ _ hc with ⟨s, us, heq, hs, ha⟩ | ⟨_, ha⟩
        · cases heq
          exact .check hs ha
        · obtain ⟨r, hr⟩ := role?_eq_check.mp hrole
          exact absurd hr (ha.not_isRelation r)
    · rename_i selector hrole
      split at h
      · cases h
      · rename_i hlacks
        obtain ⟨⟨count, rest₁, h₁⟩, hcount, h⟩ := bind_eq_ok h
        obtain ⟨⟨d', rest₂, h₂⟩, hd', h⟩ := bind_eq_ok h
        cases h
        obtain ⟨ms, hms, htakes, hreroll⟩ := modifiers_sound rolled _ _ _ hd'
        refine ⟨.select ⟨selector, count⟩ :: ms, .cons ?_ hms, ?_, hreroll⟩
        · exact .select (role?_eq_select.mp hrole) (atom_sound _ _ hcount)
        · exact .cons (Option.not_isSome_iff_eq_none.mp hlacks) htakes
    · cases h
      exact ⟨[], .nil, .nil d, fun _ hd => hd⟩
termination_by _ ts => 16 * ts.length + 2
decreasing_by
  all_goals
    have hlength : (t :: rest).length = rest.length + 1 := rfl
    omega

/-- A condition has a relation in front, or means equality. -/
theorem condition_sound : ∀ (ts : List Token) (p : Parsed Comparison ts), condition ts = .ok p →
    (∃ t us, ts = t :: us ∧ IsRelation t.kind p.value.relation ∧
      IsAtom greedy us p.rest p.value.threshold) ∨
    p.value.relation = .equal ∧ IsAtom greedy ts p.rest p.value.threshold
  | [], p, h => by
    rw [condition] at h
    cases h
  | t :: rest, p, h => by
    rw [condition] at h
    split at h
    · rename_i relation hrelation
      obtain ⟨⟨threshold, rest₁, h₁⟩, hthreshold, h⟩ := bind_eq_ok h
      cases h
      exact .inl ⟨t, rest, rfl, relation?_eq_some.mp hrelation, atom_sound _ _ hthreshold⟩
    · obtain ⟨⟨threshold, rest₁, h₁⟩, hthreshold, h⟩ := bind_eq_ok h
      cases h
      exact .inr ⟨rfl, atom_sound _ _ hthreshold⟩
termination_by ts => 16 * ts.length + 1
decreasing_by
  all_goals
    have hlength : (t :: rest).length = rest.length + 1 := rfl
    omega

theorem place_sound (marker : TokenKind) : ∀ (ts : List Token) (p : Parsed Place ts),
    place marker ts = .ok p → IsRef greedy marker ts p.rest p.value
  | [], p, h => by
    rw [place] at h
    cases h
  | t :: rest, p, h => by
    rw [place] at h
    split at h
    · cases h
    · rename_i hmarker
      have ht : t.kind = marker := Decidable.not_not.mp hmarker
      obtain ⟨⟨count, rest₁, h₁⟩, hcount, h⟩ := bind_eq_ok h
      have ha := atom_sound _ _ hcount
      cases rest₁ with
      | nil =>
          cases count with
          | number x => cases h
          | group e =>
              obtain ⟨hplace, hrest⟩ := grouped_eq_ok h
              rw [hrest]
              exact isRef_of_place? ht ha hplace
      | cons d rest₁ =>
          cases count with
          | number x =>
              dsimp only at h
              split at h
              · rename_i hd
                obtain ⟨⟨sides, rest₂, h₂⟩, hsides, h⟩ := bind_eq_ok h
                cases h
                exact .coordinates ht ha hd (atom_sound _ _ hsides)
              · cases h
          | group e =>
              dsimp only at h
              split at h
              · rename_i hd
                obtain ⟨⟨sides, rest₂, h₂⟩, hsides, h⟩ := bind_eq_ok h
                cases h
                exact .coordinates ht ha hd (atom_sound _ _ hsides)
              · obtain ⟨hplace, hrest⟩ := grouped_eq_ok h
                rw [hrest]
                exact isRef_of_place? ht ha hplace
termination_by ts => 16 * ts.length + 1
decreasing_by
  · simp only [List.length_cons]
    omega
  all_goals
    simp only [List.length_cons] at h₁ ⊢
    omega

end

end Parser

end DiceScript
