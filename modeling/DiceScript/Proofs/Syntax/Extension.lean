import DiceScript.Proofs.Syntax.Acceptance

/-!
# Derivations in other surroundings

A derivation looks at the kinds and the texts of its tokens, not at their positions, and does not
depend on what comes after it, except for a plus. So two programs make one program when the second
does not begin with a plus.
-/

namespace DiceScript

/-- Tokens are replaced by tokens with the same word. -/
structure KeepsWords (f : Token → Token) : Prop where
  kind : ∀ t, (f t).kind = t.kind
  text : ∀ t, (f t).text = t.text

namespace Grammar

variable {greedy : Bool} {f : Token → Token} {tail : List Token}

mutual

theorem IsExpr.move (hf : KeepsWords f) (htail : Next (· ≠ .plus) tail) :
    ∀ {ts rest : List Token} {e : Expr}, IsExpr greedy ts rest e →
      IsExpr greedy (ts.map f ++ tail) (rest.map f ++ tail) e
  | _, _, _, .print ht he => .print ((hf.kind _).trans ht) (he.move hf htail)
  | _, _, _, .filePrint ht hp he =>
    .filePrint ((hf.kind _).trans ht) (hp.move hf htail) (he.move hf htail)
  | _, _, _, .close ht hp => .close ((hf.kind _).trans ht) (hp.move hf htail)
  | _, _, _, .choose ht hb => .choose ((hf.kind _).trans ht) (hb.move hf htail)
  | _, _, _, .math hm htarget => .math (hm.move hf htail) (htarget.move hf htail)
  | _, _, _, .prompt ht htarget => .prompt ((hf.kind _).trans ht) (htarget.move hf htail)
  | _, _, _, .fileLine ht hp htarget =>
    .fileLine ((hf.kind _).trans ht) (hp.move hf htail) (htarget.move hf htail)
  | _, _, _, .openFile ht hm hp =>
    .openFile (by rwa [hf.kind]) (hm.move hf htail) (hp.move hf htail)
termination_by structural _ _ _ h => h

theorem IsBlock.move (hf : KeepsWords f) (htail : Next (· ≠ .plus) tail) :
    ∀ {ts rest : List Token} {cs : List Clause} {o : Option Expr}, IsBlock greedy ts rest cs o →
      IsBlock greedy (ts.map f ++ tail) (rest.map f ++ tail) cs o
  | _, _, _, _, .otherwise he ht => .otherwise (he.move hf htail) ((hf.kind _).trans ht)
  | _, _, _, _, .last hc ht hr hs =>
    .last (hc.move hf htail) ((hf.kind _).trans ht) (hr.move hf htail) ((hf.kind _).trans hs)
  | _, _, _, _, .clause hc ht hr hs hb =>
    .clause (hc.move hf htail) ((hf.kind _).trans ht) (hr.move hf htail) ((hf.kind _).trans hs)
      (hb.move hf htail)
termination_by structural _ _ _ _ h => h

theorem IsTarget.move (hf : KeepsWords f) (htail : Next (· ≠ .plus) tail) :
    ∀ {ts rest : List Token} {o : Option Place}, IsTarget greedy ts rest o →
      IsTarget greedy (ts.map f ++ tail) (rest.map f ++ tail) o
  | _, _, _, .none => .none
  | _, _, _, .some hp => .some (hp.move hf htail)
termination_by structural _ _ _ h => h

theorem IsMath.move (hf : KeepsWords f) (htail : Next (· ≠ .plus) tail) :
    ∀ {level : Parser.Level} {ts rest : List Token} {m : Math}, IsMath greedy level ts rest m →
      IsMath greedy level (ts.map f ++ tail) (rest.map f ++ tail) m
  | _, _, _, _, .operand h => .operand (h.move hf htail)
  | _, _, _, _, .binary hl hop hr =>
    .binary (hl.move hf htail) (by rwa [hf.kind]) (hr.move hf htail)
termination_by structural _ _ _ _ h => h

theorem IsOperand.move (hf : KeepsWords f) (htail : Next (· ≠ .plus) tail) :
    ∀ {level : Parser.Level} {ts rest : List Token} {m : Math}, IsOperand greedy level ts rest m →
      IsOperand greedy level (ts.map f ++ tail) (rest.map f ++ tail) m
  | _, _, _, _, .sum h => .sum (h.move hf htail)
  | _, _, _, _, .product h => .product (h.move hf htail)
  | _, _, _, _, .term h => .term (h.move hf htail)
  | _, _, _, _, .unary ht h => .unary (by rwa [hf.kind]) (h.move hf htail)
termination_by structural _ _ _ _ h => h

theorem IsTerm.move (hf : KeepsWords f) (htail : Next (· ≠ .plus) tail) :
    ∀ {ts rest : List Token} {v : Term}, IsTerm greedy ts rest v →
      IsTerm greedy (ts.map f ++ tail) (rest.map f ++ tail) v
  | _, _, _, .atom ha hms hc => .atom (ha.move hf htail) (hms.move hf htail) hc
  | _, _, _, .roll ha hd hs hms hc =>
    .roll (ha.move hf htail) ((hf.kind _).trans hd) (hs.move hf htail) (hms.move hf htail) hc
  | _, _, _, .load hp hms hc => .load (hp.move hf htail) (hms.move hf htail) hc
  | _, _, _, .list ht hes hs hms hc =>
    .list ((hf.kind _).trans ht) (hes.move hf htail) ((hf.kind _).trans hs) (hms.move hf htail) hc
termination_by structural _ _ _ h => h

theorem IsExprs.move (hf : KeepsWords f) (htail : Next (· ≠ .plus) tail) :
    ∀ {ts rest : List Token} {es : List Expr}, IsExprs greedy ts rest es →
      IsExprs greedy (ts.map f ++ tail) (rest.map f ++ tail) es
  | _, _, _, .nil => .nil
  | _, _, _, @IsExprs.cons _ _ us _ _ _ he hplus hes => by
    refine .cons (he.move hf htail) (fun hg hend => ?_) (hes.move hf htail)
    -- what follows the expression is the same word, or the tail
    cases us with
    | nil => exact htail
    | cons u us =>
        have hu : Next (· ≠ .plus) (u :: us) := hplus hg hend
        intro t ht
        obtain rfl : f u = t := by simpa using ht
        rw [hf.kind]
        exact (next_cons _ _ _).mp hu
termination_by structural _ _ _ h => h

theorem IsAtom.move (hf : KeepsWords f) (htail : Next (· ≠ .plus) tail) :
    ∀ {ts rest : List Token} {a : Atom}, IsAtom greedy ts rest a →
      IsAtom greedy (ts.map f ++ tail) (rest.map f ++ tail) a
  | _, _, _, .number ht hx => .number ((hf.kind _).trans ht) (by rwa [hf.text])
  | _, _, _, .group ht he hs =>
    .group ((hf.kind _).trans ht) (he.move hf htail) ((hf.kind _).trans hs)
termination_by structural _ _ _ h => h

theorem IsModifiers.move (hf : KeepsWords f) (htail : Next (· ≠ .plus) tail) :
    ∀ {ts rest : List Token} {ms : List Modifier}, IsModifiers greedy ts rest ms →
      IsModifiers greedy (ts.map f ++ tail) (rest.map f ++ tail) ms
  | _, _, _, .nil => .nil
  | _, _, _, .cons hm hms => .cons (hm.move hf htail) (hms.move hf htail)
termination_by structural _ _ _ h => h

theorem IsModifier.move (hf : KeepsWords f) (htail : Next (· ≠ .plus) tail) :
    ∀ {ts rest : List Token} {m : Modifier}, IsModifier greedy ts rest m →
      IsModifier greedy (ts.map f ++ tail) (rest.map f ++ tail) m
  | _, _, _, .sort ht => .sort (by rwa [hf.kind])
  | _, _, _, .select ht ha => .select (by rwa [hf.kind]) (ha.move hf htail)
  | _, _, _, .reroll ht hs ha =>
    .reroll (by rwa [hf.kind]) (by rwa [hf.kind]) (ha.move hf htail)
  | _, _, _, .rerollEqual ht ha => .rerollEqual (by rwa [hf.kind]) (ha.move hf htail)
  | _, _, _, .check ht ha => .check (by rwa [hf.kind]) (ha.move hf htail)
termination_by structural _ _ _ h => h

theorem IsRef.move (hf : KeepsWords f) (htail : Next (· ≠ .plus) tail) :
    ∀ {marker : TokenKind} {ts rest : List Token} {p : Place}, IsRef greedy marker ts rest p →
      IsRef greedy marker (ts.map f ++ tail) (rest.map f ++ tail) p
  | _, _, _, _, .coordinates ht hc hd hs =>
    .coordinates ((hf.kind _).trans ht) (hc.move hf htail) ((hf.kind _).trans hd)
      (hs.move hf htail)
  | _, _, _, _, .grouped ht hl hc hd hs hr =>
    .grouped ((hf.kind _).trans ht) ((hf.kind _).trans hl) (hc.move hf htail)
      ((hf.kind _).trans hd) (hs.move hf htail) ((hf.kind _).trans hr)
termination_by structural _ _ _ _ h => h

end

/-- Expressions in a row go on with those that follow them. -/
theorem IsExprs.append {ts us rest : List Token} {ds es : List Expr} (hd : IsExprs greedy ts us ds)
    (he : IsExprs greedy us rest es) : IsExprs greedy ts rest (ds ++ es) := by
  induction ds generalizing ts with
  | nil =>
      cases hd
      exact he
  | cons d ds ih =>
      cases hd with
      | cons hd hplus hds => exact .cons hd hplus (ih hds)

end Grammar

open Grammar

/-- Two programs in a row are one program, unless the second begins with a plus. Where its tokens
stand does not matter. -/
theorem parse_append {ts us : List Token} {f : Token → Token} {s t : Script} (hf : KeepsWords f)
    (hs : parse ts = .ok s) (ht : parse us = .ok t) (hplus : Next (· ≠ .plus) us) :
    parse (ts ++ us.map f) = .ok ⟨s.body ++ t.body⟩ := by
  have hs' : IsExprs true ts [] s.body := Parser.exprs_sound true _ _ (parse_eq_ok.mp hs)
  have ht' : IsExprs true us [] t.body := Parser.exprs_sound true _ _ (parse_eq_ok.mp ht)
  have hnext : Next (· ≠ .plus) (us.map f) := by
    intro u hu
    obtain ⟨v, hv, rfl⟩ : ∃ v, us.head? = some v ∧ f v = u := by simpa using hu
    rw [hf.kind]
    exact hplus v hv
  have hleft := IsExprs.move ⟨fun _ => rfl, fun _ => rfl⟩ hnext (f := id) hs'
  have hend : Next (· ≠ .plus) [] := nofun
  have hright := IsExprs.move hf hend ht'
  simp only [List.map_id, List.map_nil, List.nil_append, List.append_nil] at hleft hright
  exact parse_eq_ok.mpr (Parser.exprs_complete (hleft.append hright) rfl)

end DiceScript
