import DiceScript.Proofs.Compile.Formula
import DiceScript.Proofs.Dice.Rolling
import DiceScript.Proofs.Number.Digits
import DiceScript.Proofs.Syntax.Acceptance

/-!
# Totals of rolls

The value of a roll whose numbers are literals is a whole number between the number of dice left and
that times the sides, for every seed and however its modifiers are ordered. With a check it is at
most the number of dice left.
-/

namespace DiceScript

open Binary64 Grammar

/-! ## Rolls as they are written -/

/-- A modifier of a roll whose count or threshold is a literal. -/
inductive RollModifier where
  | sort (order : SortOrder)
  | select (selector : Selector) (count : Nat)
  | reroll (once : Bool) (relation : Relation) (threshold : Nat)
  | check (relation : Relation) (threshold : Nat)

namespace RollModifier

def toModifier : RollModifier → Modifier
  | sort order => .sort order
  | select selector count => .select ⟨selector, .number (ofNat count)⟩
  | reroll once relation threshold => .reroll ⟨once, ⟨relation, .number (ofNat threshold)⟩⟩
  | check relation threshold => .check ⟨relation, .number (ofNat threshold)⟩

def family (m : RollModifier) : Family :=
  m.toModifier.family

def selection? : RollModifier → Option (Selector × Nat)
  | select selector count => some (selector, count)
  | _ => none

def isCheck : RollModifier → Bool
  | check _ _ => true
  | _ => false

theorem selection?_eq_some {m : RollModifier} {s : Selector × Nat} :
    m.selection? = some s ↔ m = .select s.1 s.2 := by
  cases m <;> simp [selection?, Prod.ext_iff]

theorem isCheck_iff {m : RollModifier} :
    m.isCheck = true ↔ ∃ relation threshold, m = .check relation threshold := by
  cases m <;> simp [isCheck]

theorem toModifier_eq_select {m : RollModifier} {s : Selection} (h : m.toModifier = .select s) :
    ∃ selector count, m = .select selector count ∧ s = ⟨selector, .number (ofNat count)⟩ := by
  cases m <;> simp_all [toModifier]

theorem toModifier_eq_reroll {m : RollModifier} {r : Reroll} (h : m.toModifier = .reroll r) :
    ∃ once relation threshold, m = .reroll once relation threshold ∧
      r = ⟨once, ⟨relation, .number (ofNat threshold)⟩⟩ := by
  cases m <;> simp_all [toModifier]

theorem toModifier_eq_check {m : RollModifier} {c : Comparison} (h : m.toModifier = .check c) :
    ∃ relation threshold, m = .check relation threshold ∧
      c = ⟨relation, .number (ofNat threshold)⟩ := by
  cases m <;> simp_all [toModifier]

end RollModifier

/-- How many of `count` dice the modifiers leave. -/
def diceLeft (count : Nat) (ms : List RollModifier) : Nat :=
  match ms.findSome? RollModifier.selection? with
  | some (selector, n) => Pool.left selector.discard n count
  | none => count

/-- A token with the digits of a number. -/
structure IsLiteral (t : Token) (n : Nat) : Prop where
  kind : t.kind = .number
  digits : Reader.whole? t.text.toList = some n

/-- The tokens write the modifiers. A reroll may leave out the relation when it is equality. -/
inductive WritesModifiers : List Token → List RollModifier → Prop
  | nil : WritesModifiers [] []
  | sort {t : Token} {order : SortOrder} {ts : List Token} {ms : List RollModifier} :
      IsSort t.kind order → WritesModifiers ts ms → WritesModifiers (t :: ts) (.sort order :: ms)
  | select {t k : Token} {selector : Selector} {n : Nat} {ts : List Token}
      {ms : List RollModifier} : IsSelector t.kind selector → IsLiteral k n →
      WritesModifiers ts ms → WritesModifiers (t :: k :: ts) (.select selector n :: ms)
  | reroll {t r k : Token} {once : Bool} {relation : Relation} {n : Nat} {ts : List Token}
      {ms : List RollModifier} : IsReroll t.kind once → IsRelation r.kind relation →
      IsLiteral k n → WritesModifiers ts ms →
      WritesModifiers (t :: r :: k :: ts) (.reroll once relation n :: ms)
  | rerollEqual {t k : Token} {once : Bool} {n : Nat} {ts : List Token}
      {ms : List RollModifier} : IsReroll t.kind once → IsLiteral k n → WritesModifiers ts ms →
      WritesModifiers (t :: k :: ts) (.reroll once .equal n :: ms)
  | check {r k : Token} {relation : Relation} {n : Nat} {ts : List Token}
      {ms : List RollModifier} : IsRelation r.kind relation → IsLiteral k n →
      WritesModifiers ts ms → WritesModifiers (r :: k :: ts) (.check relation n :: ms)

/-- The tokens write a roll of `count` dice with `sides` sides, and at most one modifier of each
family after it. -/
inductive WritesRoll (count sides : Nat) (ms : List RollModifier) : List Token → Prop
  | roll {n d s : Token} {ts : List Token} : IsLiteral n count → d.kind = .roll →
      IsLiteral s sides → WritesModifiers ts ms → (ms.map RollModifier.family).Nodup →
      WritesRoll count sides ms (n :: d :: s :: ts)

/-! ## Their derivations -/

theorem IsLiteral.isAtom {t : Token} {n : Nat} (h : IsLiteral t n) (ts : List Token) :
    IsAtom true (t :: ts) ts (.number (ofNat n)) :=
  .number h.kind (Reader.float?_of_whole? h.digits)

theorem WritesModifiers.isModifiers {ts : List Token} {ms : List RollModifier}
    (h : WritesModifiers ts ms) : IsModifiers true ts [] (ms.map RollModifier.toModifier) := by
  induction h with
  | nil => exact .nil
  | sort hs _ ih => exact .cons (.sort hs) ih
  | select hs hk _ ih => exact .cons (.select hs (hk.isAtom _)) ih
  | reroll ht hr hk _ ih => exact .cons (.reroll ht hr (hk.isAtom _)) ih
  | rerollEqual ht hk _ ih => exact .cons (.rerollEqual ht (hk.isAtom _)) ih
  | check hr hk _ ih => exact .cons (.check hr (hk.isAtom _)) ih

/-- The expression of a roll. -/
def rollExpr (count sides : Nat) (reroll : Option Reroll) (mods : Modifiers) : Expr :=
  .store (.math (.term ⟨.roll (.number (ofNat count)) (.number (ofNat sides)) reroll, mods⟩)) none

variable {count sides : Nat} {ms : List RollModifier} {mods : Modifiers} {reroll : Option Reroll}

theorem WritesRoll.parse {ts : List Token} (h : WritesRoll count sides ms ts) :
    ∃ mods reroll, Collects (ms.map RollModifier.toModifier) mods reroll ∧
      parse ts = .ok ⟨[rollExpr count sides reroll mods]⟩ := by
  obtain ⟨hn, hd, hs, hms, honce⟩ := h
  have hfamilies : ((ms.map RollModifier.toModifier).map Modifier.family).Nodup := by
    rw [List.map_map]
    exact honce
  obtain ⟨d, htakes⟩ := Parser.Draft.exists_takes _ .empty hfamilies
    fun m _ => Parser.Draft.lacks_empty m.family
  refine ⟨d.modifiers, d.reroll, htakes.collects, parse_eq_ok.mpr ?_⟩
  have hterm := IsTerm.roll (hn.isAtom _) hd (hs.isAtom _) hms.isModifiers htakes.collects
  have hmath := IsMath.operand (.sum (.operand (.product (.operand (.term hterm)))))
  exact Parser.exprs_complete (.cons (.math hmath .none) (fun _ _ => nofun) .nil) rfl

/-! ## What the modifiers of a roll come to -/

theorem select_eq (h : Collects (ms.map RollModifier.toModifier) mods reroll) :
    mods.select = (ms.findSome? RollModifier.selection?).map
      fun s => ⟨s.1, .number (ofNat s.2)⟩ := by
  cases hfind : ms.findSome? RollModifier.selection? with
  | none =>
      rw [List.findSome?_eq_none_iff] at hfind
      refine Option.eq_none_iff_forall_not_mem.mpr fun s hs => ?_
      obtain ⟨m, hm, heq⟩ := List.mem_map.mp ((h.select s).mp hs)
      obtain ⟨selector, n, rfl, -⟩ := RollModifier.toModifier_eq_select heq
      cases hfind _ hm
  | some s =>
      obtain ⟨m, hm, hs⟩ := List.exists_of_findSome?_eq_some hfind
      obtain rfl := RollModifier.selection?_eq_some.mp hs
      exact (h.select _).mpr (List.mem_map_of_mem (f := RollModifier.toModifier) hm)

theorem check_isSome (h : Collects (ms.map RollModifier.toModifier) mods reroll) :
    mods.check.isSome = ms.any RollModifier.isCheck := by
  rw [Bool.eq_iff_iff, Option.isSome_iff_exists, List.any_eq_true]
  constructor
  · rintro ⟨c, hc⟩
    obtain ⟨m, hm, heq⟩ := List.mem_map.mp ((h.check c).mp hc)
    obtain ⟨relation, n, rfl, -⟩ := RollModifier.toModifier_eq_check heq
    exact ⟨_, hm, rfl⟩
  · rintro ⟨m, hm, hcheck⟩
    obtain ⟨relation, n, rfl⟩ := RollModifier.isCheck_iff.mp hcheck
    exact ⟨_, (h.check _).mpr (List.mem_map_of_mem (f := RollModifier.toModifier) hm)⟩

theorem check_threshold (h : Collects (ms.map RollModifier.toModifier) mods reroll)
    {c : Comparison} (hc : mods.check = some c) : ∃ x, c.threshold = .number x := by
  obtain ⟨m, -, heq⟩ := List.mem_map.mp ((h.check c).mp hc)
  obtain ⟨relation, n, -, rfl⟩ := RollModifier.toModifier_eq_check heq
  exact ⟨_, rfl⟩

theorem reroll_threshold (h : Collects (ms.map RollModifier.toModifier) mods reroll)
    {r : Reroll} (hr : reroll = some r) : ∃ x, r.condition.threshold = .number x := by
  obtain ⟨m, -, heq⟩ := List.mem_map.mp ((h.reroll r).mp hr)
  obtain ⟨once, relation, n, -, rfl⟩ := RollModifier.toModifier_eq_reroll heq
  exact ⟨_, rfl⟩

/-! ## Evaluation -/

section Evaluation

variable {σ : Type} {h : Host (StateM σ)} {limits : Limits} {v : Value}

theorem diceLeft_le (count : Nat) (ms : List RollModifier) : diceLeft count ms ≤ count := by
  unfold diceLeft
  split
  · unfold Pool.left
    split
    · exact Nat.sub_le _ _
    · exact Nat.min_le_right _ _
  · exact Nat.le_refl _

theorem gives_evalSelect (hcollects : Collects (ms.map RollModifier.toModifier) mods reroll)
    (hcount : count ≤ 2 ^ 53) (hv : IsDicePool sides count v) :
    Gives (evalSelect limits mods.select v : Action h Value)
      (IsDicePool sides (diceLeft count ms)) := by
  rw [select_eq hcollects, diceLeft]
  cases ms.findSome? RollModifier.selection? with
  | none => exact .pure hv
  | some s =>
      obtain ⟨selector, n⟩ := s
      rw [Option.map_some, evalSelect, Atom.eval, pure_bind]
      exact gives_selectDice hcount hv selector n

theorem gives_evalReroll (hcollects : Collects (ms.map RollModifier.toModifier) mods reroll)
    (hpos : 1 ≤ sides) (hsides : sides ≤ 2 ^ 53) (hv : IsDicePool sides count v) :
    Gives (evalReroll limits reroll (ofNat sides) v : Action h Value)
      (IsDicePool sides count) := by
  cases hr : reroll with
  | none =>
      rw [evalReroll]
      exact .pure hv
  | some r =>
      obtain ⟨x, hx⟩ := reroll_threshold hcollects hr
      obtain ⟨once, relation, threshold⟩ := r
      dsimp only at hx
      rw [hx, evalReroll, Atom.eval, pure_bind]
      exact gives_rerollDice hpos hsides hv once relation x

/-- What the value of a roll may be when `left` dice are left of it. -/
def InRange (sides left : Nat) (checked : Bool) (v : Value) : Prop :=
  ∃ t, v = .number (ofNat t) ∧
    if checked then t ≤ left else left ≤ t ∧ t ≤ left * sides

theorem gives_evalCheck (hcollects : Collects (ms.map RollModifier.toModifier) mods reroll)
    (hle : count * sides ≤ 2 ^ 53) (hv : IsDicePool sides count v) :
    Gives (evalCheck limits mods.check v >>= sumIf (true && mods.check.isNone) : Action h Value)
      (InRange sides count (ms.any RollModifier.isCheck)) := by
  rw [← check_isSome hcollects]
  cases hc : mods.check with
  | none =>
      rw [evalCheck, pure_bind]
      exact gives_sum hle hv
  | some c =>
      obtain ⟨x, hx⟩ := check_threshold hcollects hc
      obtain ⟨relation, threshold⟩ := c
      dsimp only at hx
      rw [hx, evalCheck, Atom.eval, pure_bind]
      refine (gives_countDice hv relation x).bind ?_
      rintro w ⟨t, rfl, ht⟩
      exact .pure ⟨t, rfl, ht⟩

theorem gives_rollExpr (hcollects : Collects (ms.map RollModifier.toModifier) mods reroll)
    (hpos : 1 ≤ sides) (hsides : sides ≤ 2 ^ 53) (hpool : count ≤ limits.poolSize)
    (hle : count * sides ≤ 2 ^ 53) :
    Gives ((rollExpr count sides reroll mods).eval limits : Action h Value)
      (InRange sides (diceLeft count ms) (ms.any RollModifier.isCheck)) := by
  have hcount : count ≤ 2 ^ 53 := (Nat.le_mul_of_pos_right count hpos).trans hle
  have hleft : diceLeft count ms * sides ≤ 2 ^ 53 :=
    (Nat.mul_le_mul_right sides (diceLeft_le count ms)).trans hle
  rw [rollExpr, Expr.eval, Source.eval, Math.eval, Term.eval]
  simp only [Atom.scalar, pure_bind]
  refine (gives_roll hpos hsides hcount hpool).bind fun pool hdice => ?_
  obtain ⟨sort, select, check⟩ := mods
  rw [Modifiers.eval, bind_assoc]
  refine (gives_evalSort ⟨pool, rfl, hdice⟩ sort).bind fun v hv => ?_
  rw [bind_assoc]
  refine (gives_evalSelect hcollects hcount hv).bind fun v hv => ?_
  rw [bind_assoc]
  exact (gives_evalReroll hcollects hpos hsides hv).bind fun v hv =>
    gives_evalCheck hcollects hleft hv

end Evaluation

/-- A roll whose numbers are literals succeeds for every seed and every limit on rerolls. Its value
is a whole number: at least the number of dice left and at most that times the sides, or at most the
number of dice left when they are counted. -/
theorem eval_roll_inRange (limits : Limits) (random : Random) {source : String}
    (hroll : WritesRoll count sides ms (tokenize source)) (hpos : 1 ≤ sides)
    (hsides : sides ≤ 2 ^ 53) (hpool : count ≤ limits.poolSize) (hle : count * sides ≤ 2 ^ 53) :
    ∃ t, eval limits random source = .ok (some (.number (ofNat t))) ∧
      if ms.any RollModifier.isCheck then t ≤ diceLeft count ms
      else diceLeft count ms ≤ t ∧ t ≤ diceLeft count ms * sides := by
  obtain ⟨mods, reroll, hcollects, hscript⟩ := hroll.parse
  obtain ⟨v, s, env, hdone, t, rfl, ht⟩ := gives_rollExpr hcollects hpos hsides hpool hle
    (Machine.start Memory.host random).toState Memory.empty
  have hkept : outcome (Script.eval limits .keepLast ⟨[rollExpr count sides reroll mods]⟩)
      (Machine.start Memory.host random).toState Memory.empty =
        .done (some (.number (ofNat t))) (s, env) := by
    have hbody : (Script.eval limits .keepLast ⟨[rollExpr count sides reroll mods]⟩ :
        Action Memory.host (Option Value)) =
          (rollExpr count sides reroll mods).eval limits >>= fun v => pure (some v) := rfl
    rw [hbody, outcome_bind, hdone]
    rfl
  exact ⟨t, eval_eq_ok hscript hkept, ht⟩

/-- Four dice with six sides, of which the three highest are kept. -/
theorem eval_roll_inRange_keepHigh :
    WritesRoll 4 6 [.select ⟨false, .high⟩ 3] (tokenize "4d6kh3") ∧
      ∃ t, eval Limits.standard (Random.ofSeed 7) "4d6kh3" = .ok (some (.number (ofNat t))) ∧
        3 ≤ t ∧ t ≤ 18 := by
  have htokens : tokenize "4d6kh3" =
      [⟨.number, "4", ⟨1, 1⟩, ⟨0, 1⟩⟩, ⟨.roll, "d", ⟨1, 2⟩, ⟨1, 2⟩⟩,
        ⟨.number, "6", ⟨1, 3⟩, ⟨2, 3⟩⟩, ⟨.keepHigh, "kh", ⟨1, 4⟩, ⟨3, 5⟩⟩,
        ⟨.number, "3", ⟨1, 6⟩, ⟨5, 6⟩⟩] := by
    decide +kernel
  have hwrites : WritesRoll 4 6 [.select ⟨false, .high⟩ 3] (tokenize "4d6kh3") := by
    rw [htokens]
    exact .roll ⟨rfl, by decide⟩ rfl ⟨rfl, by decide⟩
      (.select .keepHigh ⟨rfl, by decide⟩ .nil) (by decide)
  exact ⟨hwrites, eval_roll_inRange Limits.standard (Random.ofSeed 7) hwrites (by decide)
    (by decide) (by decide) (by decide)⟩

end DiceScript
