import DiceScript.Proofs.Dice.Reordering
import DiceScript.Proofs.Dice.Totals

/-!
# Rolls with and without a sort

The number that a roll comes to and the state in which it leaves the generator do not depend on
whether its dice are sorted, as long as its selection goes by the size of the dice. Two evaluations
run side by side over pools that differ in the order of their dice.
-/

namespace DiceScript

open Binary64

variable {σ : Type} {h : Host (StateM σ)} {limits : Limits}

/-! ## Two actions side by side -/

/-- From any state both actions are done, with related results and in one and the same state. -/
def Agree {α : Type} (x y : Action h α) (R : α → α → Prop) : Prop :=
  ∀ s env, ∃ a b s' env', outcome x s env = .done a (s', env') ∧
    outcome y s env = .done b (s', env') ∧ R a b

namespace Agree

variable {α β : Type} {R : α → α → Prop} {Q : β → β → Prop}

theorem pure {a b : α} (hab : R a b) : Agree (Pure.pure a : Action h α) (Pure.pure b) R :=
  fun s env => ⟨a, b, s, env, outcome_pure a s env, outcome_pure b s env, hab⟩

theorem bind {x y : Action h α} {f g : α → Action h β} (hxy : Agree x y R)
    (hfg : ∀ a b, R a b → Agree (f a) (g b) Q) : Agree (x >>= f) (y >>= g) Q := by
  intro s env
  obtain ⟨a, b, s', env', hx, hy, hab⟩ := hxy s env
  obtain ⟨c, d, s'', env'', hf, hg, hcd⟩ := hfg a b hab s' env'
  refine ⟨c, d, s'', env'', ?_, ?_, hcd⟩
  · rw [outcome_bind, hx]
    exact hf
  · rw [outcome_bind, hy]
    exact hg

theorem of_gives {x : Action h α} {P : α → Prop} (hx : Gives x P) :
    Agree x x fun a b => a = b ∧ P a := by
  intro s env
  obtain ⟨a, s', env', hdone, ha⟩ := hx s env
  exact ⟨a, a, s', env', hdone, hdone, rfl, ha⟩

theorem draw {f g : Random → α × Random} (hfg : ∀ r, R (f r).1 (g r).1 ∧ (f r).2 = (g r).2) :
    Agree (Action.draw f : Action h α) (Action.draw g) R := by
  intro s env
  obtain ⟨hresult, hstate⟩ := hfg s.random
  refine ⟨(f s.random).1, (g s.random).1, { s with random := (f s.random).2 }, env, rfl, ?_,
    hresult⟩
  rw [hstate]
  rfl

end Agree

/-- The values are pools of the same dice, perhaps in different orders. -/
def SameDice (sides count : Nat) (v w : Value) : Prop :=
  ∃ pool pool', v = .ofPool pool ∧ w = .ofPool pool' ∧ pool.Perm pool' ∧ IsPool sides count pool

/-! ## Modifiers over pools in different orders -/

section Stages

variable {sides count : Nat} {v w : Value}

theorem evalSort_ofPool (order : Option SortOrder) (pool : Pool) :
    ∃ sorted : Pool, (evalSort order (.ofPool pool) : Action h Value) = pure (.ofPool sorted) ∧
      sorted.Perm pool := by
  cases order with
  | none => exact ⟨pool, rfl, .refl _⟩
  | some order =>
      refine ⟨pool.sort order, ?_, Pool.sort_perm order pool⟩
      rw [evalSort, Action.pool_ofPool, pure_bind]

theorem agree_evalSort (order order' : Option SortOrder) (hvw : SameDice sides count v w) :
    Agree (evalSort order v : Action h Value) (evalSort order' w) (SameDice sides count) := by
  obtain ⟨pool, pool', rfl, rfl, hperm, hpool⟩ := hvw
  obtain ⟨sorted, hsorted, hdice⟩ := evalSort_ofPool (h := h) order pool
  obtain ⟨sorted', hsorted', hdice'⟩ := evalSort_ofPool (h := h) order' pool'
  rw [hsorted, hsorted']
  apply Agree.pure
  exact ⟨sorted, sorted', rfl, rfl, hdice.trans (hperm.trans hdice'.symm),
    Pool.isPool_perm hdice.symm hpool⟩

theorem agree_selectDice (hcount : count ≤ 2 ^ 53) {selector : Selector}
    (hside : selector.BySize) (n : Nat) (hvw : SameDice sides count v w) :
    Agree (selectDice selector (.number (ofNat n)) v : Action h Value)
      (selectDice selector (.number (ofNat n)) w)
      (SameDice sides (Pool.left selector.discard n count)) := by
  obtain ⟨pool, pool', rfl, rfl, hperm, hpool⟩ := hvw
  have hleft : IsPool sides (Pool.left selector.discard n count)
      (Pool.select selector (Pool.clampCount (ofNat n) pool.length) pool) := by
    rw [Pool.clampCount_ofNat n (hpool.length ▸ hcount), hpool.length]
    have hmin : Pool.left selector.discard (min n count) count =
        Pool.left selector.discard n count := by
      simp [Pool.left]
    rw [← hmin]
    exact Pool.isPool_select selector _ hpool
  simp only [selectDice, Action.number_number, Action.pool_ofPool, pure_bind]
  apply Agree.pure
  refine ⟨_, _, rfl, rfl, ?_, hleft⟩
  rw [hperm.length_eq]
  exact Pool.select_perm hside _ hperm

theorem agree_rerollDice (hpos : 1 ≤ sides) (hsides : sides ≤ 2 ^ 53) (once : Bool)
    (relation : Relation) (threshold : Double) (hvw : SameDice sides count v w) :
    Agree (rerollDice limits once relation (ofNat sides) (.number threshold) v : Action h Value)
      (rerollDice limits once relation (ofNat sides) (.number threshold) w)
      (SameDice sides count) := by
  obtain ⟨pool, pool', rfl, rfl, hperm, hpool⟩ := hvw
  have hdraw : ∀ g, IsDie sides (Random.throwDie sides g).1 :=
    Random.isDie_throwDie hpos (by omega)
  simp only [rerollDice, Action.number_number, Action.pool_ofPool, Action.reroll,
    Action.dieSides_ofNat hpos hsides, pure_bind]
  apply Agree.bind (R := fun p q : Pool => p.Perm q ∧ IsPool sides count p)
  · apply Agree.draw
    intro g
    cases once with
    | true =>
        obtain ⟨hdice, hstate⟩ := Pool.rerollOnce_perm (Random.throwDie sides)
          (relation.holds · threshold) hperm g
        exact ⟨⟨hdice, Pool.isPool_rerollOnce hdraw _ g hpool⟩, hstate⟩
    | false =>
        obtain ⟨hdice, hstate⟩ := Pool.rerollUntil_perm (Random.throwDie sides)
          (relation.holds · threshold) limits.rerollPasses hperm g
        exact ⟨⟨hdice, Pool.isPool_rerollUntil hdraw _ _ g hpool⟩, hstate⟩
  · rintro p q ⟨hpq, hp⟩
    exact .pure ⟨p, q, rfl, rfl, hpq, hp⟩

/-- One and the same whole number. -/
def SameNumber (v w : Value) : Prop :=
  v = w ∧ ∃ t, v = .number (ofNat t)

theorem agree_countDice (relation : Relation) (threshold : Double)
    (hvw : SameDice sides count v w) :
    Agree (countDice relation (.number threshold) v : Action h Value)
      (countDice relation (.number threshold) w) SameNumber := by
  obtain ⟨pool, pool', rfl, rfl, hperm, -⟩ := hvw
  simp only [countDice, Action.number_number, Action.pool_ofPool, pure_bind]
  rw [Pool.countMatching_perm relation threshold hperm]
  exact .pure ⟨rfl, _, rfl⟩

theorem agree_sum (hle : count * sides ≤ 2 ^ 53) (hvw : SameDice sides count v w) :
    Agree (sumIf true v : Action h Value) (sumIf true w) SameNumber := by
  obtain ⟨pool, pool', rfl, rfl, hperm, hpool⟩ := hvw
  have hnumber : (Value.ofPool pool).toNumber? = (Value.ofPool pool').toNumber? := by
    simp only [Value.ofPool, Value.toNumber?]
    rw [zero_eq_ofNat]
    exact Pool.sumFrom?_perm hperm hpool (by omega)
  obtain ⟨t, hsum, -, -⟩ := Pool.toNumber?_ofPool hpool hle
  simp only [sumIf, if_true, Action.number, ← hnumber, hsum, pure_bind]
  exact .pure ⟨rfl, t, rfl⟩

end Stages

/-! ## Rolls -/

/-- The lists have the same modifiers, sorts aside. -/
def SameButSort (ms ms' : List RollModifier) : Prop :=
  ∀ m, m.family ≠ .sort → (m ∈ ms ↔ m ∈ ms')

section Rolls

open Grammar

variable {count sides : Nat} {ms ms' : List RollModifier} {mods mods' : Modifiers}
  {reroll reroll' : Option Reroll} {v w : Value}

theorem SameButSort.mem_map_iff (hsame : SameButSort ms ms') {m : Modifier}
    (hm : m.family ≠ .sort) :
    m ∈ ms.map RollModifier.toModifier ↔ m ∈ ms'.map RollModifier.toModifier := by
  simp only [List.mem_map]
  constructor
  · rintro ⟨a, ha, rfl⟩
    exact ⟨a, (hsame a hm).mp ha, rfl⟩
  · rintro ⟨a, ha, rfl⟩
    exact ⟨a, (hsame a hm).mpr ha, rfl⟩

/-- Only the sorts of what the modifiers come to may differ. -/
theorem SameButSort.collected_eq (hsame : SameButSort ms ms')
    (hms : Collects (ms.map RollModifier.toModifier) mods reroll)
    (hms' : Collects (ms'.map RollModifier.toModifier) mods' reroll') :
    mods' = ⟨mods'.sort, mods.select, mods.check⟩ ∧ reroll' = reroll := by
  have hselect : mods'.select = mods.select := Option.ext fun s => by
    rw [hms.select, hms'.select]
    exact (hsame.mem_map_iff (by simp [Modifier.family])).symm
  have hcheck : mods'.check = mods.check := Option.ext fun c => by
    rw [hms.check, hms'.check]
    exact (hsame.mem_map_iff (by simp [Modifier.family])).symm
  have hreroll : reroll' = reroll := Option.ext fun r => by
    rw [hms.reroll, hms'.reroll]
    exact (hsame.mem_map_iff (by simp [Modifier.family])).symm
  obtain ⟨sort', select', check'⟩ := mods'
  exact ⟨by rw [← hselect, ← hcheck], hreroll⟩

theorem agree_evalSelect (hcollects : Collects (ms.map RollModifier.toModifier) mods reroll)
    (hside : ∀ selector n, .select selector n ∈ ms → selector.BySize) (hcount : count ≤ 2 ^ 53)
    (hvw : SameDice sides count v w) :
    Agree (evalSelect limits mods.select v : Action h Value) (evalSelect limits mods.select w)
      (SameDice sides (diceLeft count ms)) := by
  rw [select_eq hcollects, diceLeft]
  cases hfind : ms.findSome? RollModifier.selection? with
  | none => exact .pure hvw
  | some s =>
      obtain ⟨selector, n⟩ := s
      have hbySize : selector.BySize := by
        obtain ⟨m, hm, hs⟩ := List.exists_of_findSome?_eq_some hfind
        obtain rfl := RollModifier.selection?_eq_some.mp hs
        exact hside selector n hm
      simp only [Option.map_some, evalSelect, Atom.eval, pure_bind]
      exact agree_selectDice hcount hbySize n hvw

theorem agree_evalReroll (hcollects : Collects (ms.map RollModifier.toModifier) mods reroll)
    (hpos : 1 ≤ sides) (hsides : sides ≤ 2 ^ 53) (hvw : SameDice sides count v w) :
    Agree (evalReroll limits reroll (ofNat sides) v : Action h Value)
      (evalReroll limits reroll (ofNat sides) w) (SameDice sides count) := by
  cases hr : reroll with
  | none => exact .pure hvw
  | some r =>
      obtain ⟨x, hx⟩ := reroll_threshold hcollects hr
      obtain ⟨once, relation, threshold⟩ := r
      dsimp only at hx
      simp only [hx, evalReroll, Atom.eval, pure_bind]
      exact agree_rerollDice hpos hsides once relation x hvw

theorem agree_evalCheck (hcollects : Collects (ms.map RollModifier.toModifier) mods reroll)
    (hle : count * sides ≤ 2 ^ 53) (hvw : SameDice sides count v w) :
    Agree (evalCheck limits mods.check v >>= sumIf (true && mods.check.isNone) : Action h Value)
      (evalCheck limits mods.check w >>= sumIf (true && mods.check.isNone)) SameNumber := by
  cases hc : mods.check with
  | none =>
      simp only [evalCheck, pure_bind]
      exact agree_sum hle hvw
  | some c =>
      obtain ⟨x, hx⟩ := check_threshold hcollects hc
      obtain ⟨relation, threshold⟩ := c
      dsimp only at hx
      simp only [hx, evalCheck, Atom.eval, pure_bind]
      exact (agree_countDice relation x hvw).bind fun v w hvw => .pure hvw

/-- Two rolls of the same dice whose modifiers differ in the sort. -/
theorem agree_rollExpr (hms : Collects (ms.map RollModifier.toModifier) mods reroll)
    (order : Option SortOrder)
    (hside : ∀ selector n, .select selector n ∈ ms → selector.BySize) (hpos : 1 ≤ sides)
    (hsides : sides ≤ 2 ^ 53) (hpool : count ≤ limits.poolSize) (hle : count * sides ≤ 2 ^ 53) :
    Agree ((rollExpr count sides reroll mods).eval limits : Action h Value)
      ((rollExpr count sides reroll ⟨order, mods.select, mods.check⟩).eval limits)
      SameNumber := by
  have hcount : count ≤ 2 ^ 53 := (Nat.le_mul_of_pos_right count hpos).trans hle
  have hleft : diceLeft count ms * sides ≤ 2 ^ 53 :=
    (Nat.mul_le_mul_right sides (diceLeft_le count ms)).trans hle
  simp only [rollExpr, Expr.eval, Source.eval, Math.eval, Term.eval, Atom.scalar, pure_bind]
  apply (Agree.of_gives (gives_roll hpos hsides hcount hpool)).bind
  rintro pool _ ⟨rfl, hdice⟩
  obtain ⟨sort, select, check⟩ := mods
  simp only [Modifiers.eval, bind_assoc]
  apply (agree_evalSort sort order ⟨pool, pool, rfl, rfl, .refl _, hdice⟩).bind
  intro v w hvw
  apply (agree_evalSelect hms hside hcount hvw).bind
  intro v w hvw
  apply (agree_evalReroll hms hpos hsides hvw).bind
  intro v w hvw
  exact agree_evalCheck hms hleft hvw

/-- A script of one expression that is no print keeps the value of the expression. -/
theorem kept_of_done {e : Expr} (he : e.isPrint = false) {v : Value} {s s' : State h} {env env' : σ}
    (hdone : outcome (e.eval limits) s env = .done v (s', env')) :
    outcome (Script.eval limits .keepLast ⟨[e]⟩) s env = .done (some v) (s', env') := by
  have hbody : (Script.eval limits .keepLast ⟨[e]⟩ : Action h (Option Value)) =
      e.eval limits >>= fun v => pure (some v) := by
    simp [Script.eval, evalBody, he]
  rw [hbody, outcome_bind, hdone]
  rfl

end Rolls

/-- How a roll is written does not matter to the number it comes to and to the generator it leaves,
as far as the sort is concerned: there may be none, or either of the two. -/
theorem eval_sort_irrelevant {count sides : Nat} {ms : List RollModifier} (limits : Limits)
    (random : Random) {plain : String} (hplain : WritesRoll count sides ms (tokenize plain))
    (hside : ∀ selector n, .select selector n ∈ ms → selector.BySize) (hpos : 1 ≤ sides)
    (hsides : sides ≤ 2 ^ 53) (hpool : count ≤ limits.poolSize) (hle : count * sides ≤ 2 ^ 53) :
    ∃ t after, eval limits random plain = .ok (some (.number (ofNat t))) ∧
      generatorAfter limits random plain = some after ∧
        ∀ (sorted : String) (ms' : List RollModifier),
          WritesRoll count sides ms' (tokenize sorted) → SameButSort ms ms' →
            eval limits random sorted = .ok (some (.number (ofNat t))) ∧
              generatorAfter limits random sorted = some after := by
  obtain ⟨mods, reroll, hms, hscript⟩ := hplain.parse
  have hagree := fun order => agree_rollExpr (h := Memory.host) hms order hside hpos hsides hpool hle
    (Machine.start Memory.host random).toState Memory.empty
  obtain ⟨_, _, s, env, hdone, -, -, t, rfl⟩ := hagree none
  refine ⟨t, s.random, eval_eq_ok hscript (kept_of_done rfl hdone),
    generatorAfter_eq_some hscript (kept_of_done rfl hdone), ?_⟩
  intro sorted ms' hsorted hsame
  obtain ⟨mods', reroll', hms', hscript'⟩ := hsorted.parse
  obtain ⟨hmods, rfl⟩ := hsame.collected_eq hms hms'
  obtain ⟨_, _, s', env', hdone', hdone'', rfl, -⟩ := hagree mods'.sort
  rw [← hmods] at hdone''
  rw [hdone] at hdone'
  cases hdone'
  exact ⟨eval_eq_ok hscript' (kept_of_done rfl hdone''),
    generatorAfter_eq_some hscript' (kept_of_done rfl hdone'')⟩

/-- The three lowest of five dice, with the ones rolled again, and the same sorted downwards. -/
theorem eval_sort_irrelevant_keepLow :
    WritesRoll 5 6 [.select ⟨false, .low⟩ 3, .reroll false .equal 1] (tokenize "5d6kl3r1") ∧
      WritesRoll 5 6 [.select ⟨false, .low⟩ 3, .sort .descending, .reroll false .equal 1]
        (tokenize "5d6kl3sdr1") ∧
      ∃ t after,
        eval Limits.standard (Random.ofSeed 7) "5d6kl3r1" = .ok (some (.number (ofNat t))) ∧
        generatorAfter Limits.standard (Random.ofSeed 7) "5d6kl3r1" = some after ∧
        eval Limits.standard (Random.ofSeed 7) "5d6kl3sdr1" = .ok (some (.number (ofNat t))) ∧
        generatorAfter Limits.standard (Random.ofSeed 7) "5d6kl3sdr1" = some after := by
  have htokens : tokenize "5d6kl3r1" =
      [⟨.number, "5", ⟨1, 1⟩, ⟨0, 1⟩⟩, ⟨.roll, "d", ⟨1, 2⟩, ⟨1, 2⟩⟩,
        ⟨.number, "6", ⟨1, 3⟩, ⟨2, 3⟩⟩, ⟨.keepLow, "kl", ⟨1, 4⟩, ⟨3, 5⟩⟩,
        ⟨.number, "3", ⟨1, 6⟩, ⟨5, 6⟩⟩, ⟨.repeatUntil, "r", ⟨1, 7⟩, ⟨6, 7⟩⟩,
        ⟨.number, "1", ⟨1, 8⟩, ⟨7, 8⟩⟩] := by
    decide +kernel
  have htokens' : tokenize "5d6kl3sdr1" =
      [⟨.number, "5", ⟨1, 1⟩, ⟨0, 1⟩⟩, ⟨.roll, "d", ⟨1, 2⟩, ⟨1, 2⟩⟩,
        ⟨.number, "6", ⟨1, 3⟩, ⟨2, 3⟩⟩, ⟨.keepLow, "kl", ⟨1, 4⟩, ⟨3, 5⟩⟩,
        ⟨.number, "3", ⟨1, 6⟩, ⟨5, 6⟩⟩, ⟨.sortDescending, "sd", ⟨1, 7⟩, ⟨6, 8⟩⟩,
        ⟨.repeatUntil, "r", ⟨1, 9⟩, ⟨8, 9⟩⟩, ⟨.number, "1", ⟨1, 10⟩, ⟨9, 10⟩⟩] := by
    decide +kernel
  have hplain : WritesRoll 5 6 [.select ⟨false, .low⟩ 3, .reroll false .equal 1]
      (tokenize "5d6kl3r1") := by
    rw [htokens]
    exact .roll ⟨rfl, by decide⟩ rfl ⟨rfl, by decide⟩ (.select .keepLow ⟨rfl, by decide⟩
      (.rerollEqual .until ⟨rfl, by decide⟩ .nil)) (by decide)
  have hsorted : WritesRoll 5 6
      [.select ⟨false, .low⟩ 3, .sort .descending, .reroll false .equal 1]
      (tokenize "5d6kl3sdr1") := by
    rw [htokens']
    exact .roll ⟨rfl, by decide⟩ rfl ⟨rfl, by decide⟩ (.select .keepLow ⟨rfl, by decide⟩
      (.sort .descending (.rerollEqual .until ⟨rfl, by decide⟩ .nil))) (by decide)
  have hsame : SameButSort [.select ⟨false, .low⟩ 3, .reroll false .equal 1]
      [.select ⟨false, .low⟩ 3, .sort .descending, .reroll false .equal 1] := by
    intro m hm
    have hsort : m ≠ .sort .descending := by
      rintro rfl
      exact hm rfl
    simp [hsort]
  have hside : ∀ selector n, .select selector n ∈
      [RollModifier.select ⟨false, .low⟩ 3, .reroll false .equal 1] → selector.BySize := by
    intro selector n hmem
    simp only [List.mem_cons, RollModifier.select.injEq, reduceCtorEq, List.not_mem_nil,
      or_false] at hmem
    exact hmem.1 ▸ .inr rfl
  obtain ⟨t, after, hvalue, hafter, hall⟩ := eval_sort_irrelevant Limits.standard (Random.ofSeed 7)
    hplain hside (by decide) (by decide) (by decide) (by decide)
  obtain ⟨hvalue', hafter'⟩ := hall _ _ hsorted hsame
  exact ⟨hplain, hsorted, t, after, hvalue, hafter, hvalue', hafter'⟩

end DiceScript
