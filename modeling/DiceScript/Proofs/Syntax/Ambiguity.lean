import DiceScript.Proofs.Syntax.Drafts
import DiceScript.Proofs.Syntax.Heads

/-!
# The plus that can be read twice

A plus behind math is a binary operator in one derivation and the prefix of the next expression in
another. The second one can always be turned into the first one, so what has a derivation at all
has a greedy one.
-/

namespace DiceScript.Grammar

open DiceScript.Parser TokenKind

section Joining

variable {greedy : Bool} {t : Token} {vs : List Token}

/-- A product that begins with a plus is a product without the plus. -/
theorem IsMath.drop_plus {ts rest : List Token} {m : Math} (ht : t.kind = .plus)
    (hts : ts = t :: vs) : IsMath greedy .product ts rest m →
      ∃ k, IsMath greedy .product vs rest k
  | .operand (.term h) => by
    obtain ⟨s, us, rfl, hs⟩ := h.head
    obtain ⟨rfl, -⟩ := List.cons.inj hts
    rw [ht] at hs
    cases hs
  | .operand (.unary _ h) => by
    obtain ⟨-, rfl⟩ := List.cons.inj hts
    exact ⟨_, .operand (.term h)⟩
  | .binary hl hop hr => by
    obtain ⟨k, hk⟩ := hl.drop_plus ht hts
    exact ⟨_, .binary hk hop hr⟩

/-- A sum goes on with a sum that begins with a plus. -/
theorem IsMath.append_sum {ts us rest : List Token} {m n : Math} (hm : IsMath greedy .sum ts us m)
    (ht : t.kind = .plus) (hus : us = t :: vs) : IsMath greedy .sum us rest n →
      ∃ k, IsMath greedy .sum ts rest k
  | .operand (.product h) => by
    obtain ⟨k, hk⟩ := h.drop_plus ht hus
    rw [hus] at hm
    have hop : IsOperator .sum t.kind .add := by
      rw [ht]
      exact .add
    exact ⟨_, .binary hm hop (.product hk)⟩
  | .binary hl hop hr => by
    obtain ⟨k, hk⟩ := hm.append_sum ht hus hl
    exact ⟨_, .binary hk hop hr⟩

/-- Math goes on with math that begins with a plus, in its last sum. -/
theorem IsMath.append {ts us rest : List Token} {m n : Math} (hm : IsMath greedy .logic ts us m)
    (ht : t.kind = .plus) (hus : us = t :: vs) : IsMath greedy .logic us rest n →
      ∃ k, IsMath greedy .logic ts rest k
  | .operand (.sum h) => by
    cases hm with
    | operand hs =>
        cases hs with
        | sum hs =>
            obtain ⟨k, hk⟩ := hs.append_sum ht hus h
            exact ⟨_, .operand (.sum hk)⟩
    | binary hl hop hr =>
        cases hr with
        | sum hs =>
            obtain ⟨k, hk⟩ := hs.append_sum ht hus h
            exact ⟨_, .binary hl hop (.sum hk)⟩
  | .binary hl hop hr => by
    obtain ⟨k, hk⟩ := hm.append ht hus hl
    exact ⟨_, .binary hk hop hr⟩

theorem IsExpr.append {ts us ws rest : List Token} {e : Expr} {n : Math} {target : Option Place}
    (ht : t.kind = .plus) (hus : us = t :: vs) (hn : IsMath greedy .logic us ws n)
    (htarget : IsTarget greedy ws rest target) : IsExpr greedy ts us e → e.endsInMath = true →
      ∃ f, IsExpr greedy ts rest f ∧
        f.endsInMath = (Expr.store (.math n) target).endsInMath
  | .print hp he, hend => by
    obtain ⟨f, hf, heq⟩ := IsExpr.append ht hus hn htarget he hend
    exact ⟨.print none f, .print hp hf, heq⟩
  | .filePrint hp hplace he, hend => by
    obtain ⟨f, hf, heq⟩ := IsExpr.append ht hus hn htarget he hend
    exact ⟨.print _ f, .filePrint hp hplace hf, heq⟩
  | .math hm .none, _ => by
    obtain ⟨k, hk⟩ := hm.append ht hus hn
    refine ⟨.store (.math k) target, .math hk htarget, ?_⟩
    cases target <;> rfl

/-- What begins with a plus is math. -/
theorem IsExpr.math_of_plus {us rest : List Token} {e : Expr} (ht : t.kind = .plus)
    (h : IsExpr greedy (t :: us) rest e) : ∃ ws m target, e = .store (.math m) target ∧
      IsMath greedy .logic (t :: us) ws m ∧ IsTarget greedy ws rest target := by
  cases h with
  | math hm htarget => exact ⟨_, _, _, rfl, hm, htarget⟩
  | print hk _ | filePrint hk _ _ | close hk _ | choose hk _ | prompt hk _ | fileLine hk _ _ =>
      rw [ht] at hk
      cases hk
  | openFile hk _ _ =>
      rw [ht] at hk
      cases hk

end Joining

/-- An expression before a greedy list is the first of it, or becomes one with the first. -/
theorem IsExprs.exists_cons {ts us rest : List Token} {e : Expr} {es : List Expr}
    (he : IsExpr true ts us e) (hes : IsExprs true us rest es) (hrest : Next (· ≠ .plus) rest) :
    ∃ fs, IsExprs true ts rest fs := by
  cases hes with
  | nil => exact ⟨[e], .cons he (fun _ _ => hrest) .nil⟩
  | cons hf hplus hfs =>
      obtain ⟨t, vs, rfl, -⟩ := hf.head
      by_cases hkind : t.kind = .plus
      · by_cases hend : e.endsInMath = true
        · obtain ⟨ws, n, target, rfl, hn, htarget⟩ := hf.math_of_plus hkind
          obtain ⟨g, hg, heq⟩ := IsExpr.append hkind rfl hn htarget he hend
          exact ⟨_, .cons hg (heq ▸ hplus) hfs⟩
        · exact ⟨_, .cons he (fun _ h => absurd h hend) (.cons hf hplus hfs)⟩
      · exact ⟨_, .cons he (fun _ _ => by simpa using hkind) (.cons hf hplus hfs)⟩

/-! ## Derivations -/

mutual

theorem IsExpr.exists_greedy {ts rest : List Token} {e : Expr} :
    IsExpr false ts rest e → ∃ e', IsExpr true ts rest e'
  | .print ht he => by
    obtain ⟨_, he⟩ := he.exists_greedy
    exact ⟨_, .print ht he⟩
  | .filePrint ht hp he => by
    obtain ⟨_, hp⟩ := hp.exists_greedy
    obtain ⟨_, he⟩ := he.exists_greedy
    exact ⟨_, .filePrint ht hp he⟩
  | .close ht hp => by
    obtain ⟨_, hp⟩ := hp.exists_greedy
    exact ⟨_, .close ht hp⟩
  | .choose ht hb => by
    obtain ⟨_, _, hb⟩ := hb.exists_greedy
    exact ⟨_, .choose ht hb⟩
  | .math hm htarget => by
    obtain ⟨_, hm⟩ := hm.exists_greedy
    obtain ⟨_, htarget⟩ := htarget.exists_greedy
    exact ⟨_, .math hm htarget⟩
  | .prompt ht htarget => by
    obtain ⟨_, htarget⟩ := htarget.exists_greedy
    exact ⟨_, .prompt ht htarget⟩
  | .fileLine ht hp htarget => by
    obtain ⟨_, hp⟩ := hp.exists_greedy
    obtain ⟨_, htarget⟩ := htarget.exists_greedy
    exact ⟨_, .fileLine ht hp htarget⟩
  | .openFile ht hm hp => by
    obtain ⟨_, hm⟩ := hm.exists_greedy
    obtain ⟨_, hp⟩ := hp.exists_greedy
    exact ⟨_, .openFile ht hm hp⟩

theorem IsBlock.exists_greedy {ts rest : List Token} {cs : List Clause} {o : Option Expr} :
    IsBlock false ts rest cs o → ∃ cs' o', IsBlock true ts rest cs' o'
  | .otherwise he ht => by
    obtain ⟨_, he⟩ := he.exists_greedy
    exact ⟨_, _, .otherwise he ht⟩
  | .last hc ht hr hs => by
    obtain ⟨_, hc⟩ := hc.exists_greedy
    obtain ⟨_, hr⟩ := hr.exists_greedy
    exact ⟨_, _, .last hc ht hr hs⟩
  | .clause hc ht hr hs hb => by
    obtain ⟨_, hc⟩ := hc.exists_greedy
    obtain ⟨_, hr⟩ := hr.exists_greedy
    obtain ⟨_, _, hb⟩ := hb.exists_greedy
    exact ⟨_, _, .clause hc ht hr hs hb⟩

theorem IsTarget.exists_greedy {ts rest : List Token} {o : Option Place} :
    IsTarget false ts rest o → ∃ o', IsTarget true ts rest o'
  | .none => ⟨_, .none⟩
  | .some hp => by
    obtain ⟨_, hp⟩ := hp.exists_greedy
    exact ⟨_, .some hp⟩

theorem IsMath.exists_greedy {level : Level} {ts rest : List Token} {m : Math} :
    IsMath false level ts rest m → ∃ m', IsMath true level ts rest m'
  | .operand h => by
    obtain ⟨_, h⟩ := h.exists_greedy
    exact ⟨_, .operand h⟩
  | .binary hl hop hr => by
    obtain ⟨_, hl⟩ := hl.exists_greedy
    obtain ⟨_, hr⟩ := hr.exists_greedy
    exact ⟨_, .binary hl hop hr⟩

theorem IsOperand.exists_greedy {level : Level} {ts rest : List Token} {m : Math} :
    IsOperand false level ts rest m → ∃ m', IsOperand true level ts rest m'
  | .sum h => by
    obtain ⟨_, h⟩ := h.exists_greedy
    exact ⟨_, .sum h⟩
  | .product h => by
    obtain ⟨_, h⟩ := h.exists_greedy
    exact ⟨_, .product h⟩
  | .term h => by
    obtain ⟨_, h⟩ := h.exists_greedy
    exact ⟨_, .term h⟩
  | .unary ht h => by
    obtain ⟨_, h⟩ := h.exists_greedy
    exact ⟨_, .unary ht h⟩

theorem IsTerm.exists_greedy {ts rest : List Token} {v : Term} :
    IsTerm false ts rest v → ∃ v', IsTerm true ts rest v'
  | .atom ha hms hcollects => by
    obtain ⟨_, ha⟩ := ha.exists_greedy
    obtain ⟨_, hms, hfamily⟩ := hms.exists_greedy
    obtain ⟨_, _, hcollects, hnone⟩ := hcollects.of_families hfamily
    obtain rfl := hnone rfl
    exact ⟨_, .atom ha hms hcollects⟩
  | .roll ha hd hs hms hcollects => by
    obtain ⟨_, ha⟩ := ha.exists_greedy
    obtain ⟨_, hs⟩ := hs.exists_greedy
    obtain ⟨_, hms, hfamily⟩ := hms.exists_greedy
    obtain ⟨_, _, hcollects, -⟩ := hcollects.of_families hfamily
    exact ⟨_, .roll ha hd hs hms hcollects⟩
  | .load hp hms hcollects => by
    obtain ⟨_, hp⟩ := hp.exists_greedy
    obtain ⟨_, hms, hfamily⟩ := hms.exists_greedy
    obtain ⟨_, _, hcollects, hnone⟩ := hcollects.of_families hfamily
    obtain rfl := hnone rfl
    exact ⟨_, .load hp hms hcollects⟩
  | .list ht hes hs hms hcollects => by
    obtain ⟨_, hes⟩ := hes.exists_greedy (by rw [next_cons, hs]; decide)
    obtain ⟨_, hms, hfamily⟩ := hms.exists_greedy
    obtain ⟨_, _, hcollects, hnone⟩ := hcollects.of_families hfamily
    obtain rfl := hnone rfl
    exact ⟨_, .list ht hes hs hms hcollects⟩

theorem IsExprs.exists_greedy {ts rest : List Token} {es : List Expr} :
    IsExprs false ts rest es → Next (· ≠ .plus) rest → ∃ es', IsExprs true ts rest es'
  | .nil, _ => ⟨_, .nil⟩
  | .cons he _ hes, hrest => by
    obtain ⟨_, he⟩ := he.exists_greedy
    obtain ⟨_, hes⟩ := hes.exists_greedy hrest
    exact hes.exists_cons he hrest

theorem IsAtom.exists_greedy {ts rest : List Token} {a : Atom} :
    IsAtom false ts rest a → ∃ a', IsAtom true ts rest a'
  | .number ht hx => ⟨_, .number ht hx⟩
  | .group ht he hs => by
    obtain ⟨_, he⟩ := he.exists_greedy
    exact ⟨_, .group ht he hs⟩

theorem IsModifiers.exists_greedy {ts rest : List Token} {ms : List Modifier} :
    IsModifiers false ts rest ms → ∃ ms', IsModifiers true ts rest ms' ∧
      ms'.map Modifier.family = ms.map Modifier.family
  | .nil => ⟨_, .nil, rfl⟩
  | .cons hm hms => by
    obtain ⟨_, hm, hfamily⟩ := hm.exists_greedy
    obtain ⟨_, hms, hfamilies⟩ := hms.exists_greedy
    refine ⟨_, .cons hm hms, ?_⟩
    rw [List.map_cons, List.map_cons, hfamily, hfamilies]

theorem IsModifier.exists_greedy {ts rest : List Token} {m : Modifier} :
    IsModifier false ts rest m → ∃ m', IsModifier true ts rest m' ∧ m'.family = m.family
  | .sort ht => ⟨_, .sort ht, rfl⟩
  | .select ht ha => by
    obtain ⟨_, ha⟩ := ha.exists_greedy
    exact ⟨_, .select ht ha, rfl⟩
  | .reroll ht hs ha => by
    obtain ⟨_, ha⟩ := ha.exists_greedy
    exact ⟨_, .reroll ht hs ha, rfl⟩
  | .rerollEqual ht ha => by
    obtain ⟨_, ha⟩ := ha.exists_greedy
    exact ⟨_, .rerollEqual ht ha, rfl⟩
  | .check ht ha => by
    obtain ⟨_, ha⟩ := ha.exists_greedy
    exact ⟨_, .check ht ha, rfl⟩

theorem IsRef.exists_greedy {marker : TokenKind} {ts rest : List Token} {p : Place} :
    IsRef false marker ts rest p → ∃ p', IsRef true marker ts rest p'
  | .coordinates ht hc hd hs => by
    obtain ⟨_, hc⟩ := hc.exists_greedy
    obtain ⟨_, hs⟩ := hs.exists_greedy
    exact ⟨_, .coordinates ht hc hd hs⟩
  | .grouped ht hl hc hd hs hr => by
    obtain ⟨_, hc⟩ := hc.exists_greedy
    obtain ⟨_, hs⟩ := hs.exists_greedy
    exact ⟨_, .grouped ht hl hc hd hs hr⟩

end

end DiceScript.Grammar
