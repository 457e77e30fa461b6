import DiceScript.Compile

/-!
# Groups around a pool

A group around nothing but a pool hands on its dice, so any number of groups around it are one. The
modifiers behind the last group apply to the single dice, and then the sum is taken that the pool
itself has not got yet.
-/

namespace DiceScript.Tree

open Code (op)

/-- A group around nothing but one term. -/
abbrev Atom.around (t : Term) : Atom :=
  .group (.store (.math (.term t)) none)

mutual

/-- The value of the pool is a count, which is not summed again. -/
def Term.counted : Term → Bool
  | ⟨.atom (.group e), mods⟩ => mods.check.isSome || mods.isEmpty && e.counted
  | ⟨_, mods⟩ => mods.check.isSome

def Expr.counted : Expr → Bool
  | .store (.math (.term t)) none => t.counted
  | _ => false

end

namespace Term

/-- A pool is a roll, or a group around a pool. -/
@[elab_as_elim]
theorem pool_induction {motive : (t : Term) → t.isPool = true → Prop}
    (roll : ∀ count sides mods, motive ⟨.roll count sides, mods⟩ rfl)
    (group : ∀ t mods (ht : t.isPool = true), motive t ht → motive ⟨.atom (.around t), mods⟩ ht)
    (t : Term) (ht : t.isPool = true) : motive t ht :=
  match t, ht with
  | ⟨.roll count sides, mods⟩, _ => roll count sides mods
  | ⟨.atom (.group (.store (.math (.term t)) none)), mods⟩, ht =>
      group t mods ht (pool_induction roll group t ht)

/-- A term in so many groups. -/
def inGroups (t : Term) : Nat → Term
  | 0 => t
  | k + 1 => ⟨.atom (.around (t.inGroups k)), .none⟩

/-- The term with other modifiers behind it. -/
def withModifiers (t : Term) (mods : Modifiers) : Term :=
  ⟨t.base, mods⟩

variable {t : Term}

theorem isPool_inGroups (ht : t.isPool = true) (k : Nat) : (t.inGroups k).isPool = true := by
  induction k with
  | zero => exact ht
  | succ k ih => exact ih

/-- What modifiers and groups make of the code of a pool, where the modifiers stand behind the last
group. Without any modifier its own code is left. -/
def codeBehind (reduce : Bool) (mods : Modifiers) (t : Term) : Code :=
  if mods.isEmpty then t.code reduce
  else t.code false ++ mods.code ++ sumCode (reduce && mods.check.isNone)

theorem codeBehind_false (mods : Modifiers) :
    t.codeBehind false mods = t.code false ++ mods.code := by
  unfold codeBehind
  split
  · rename_i hmods
    rw [Modifiers.eq_none_of_isEmpty hmods]
    exact (List.append_nil _).symm
  · exact List.append_nil _

theorem code_around (ht : t.isPool = true) (mods : Modifiers) (reduce : Bool) :
    code reduce ⟨.atom (.around t), mods⟩ = t.codeBehind reduce mods := by
  have hpool : (Atom.around t).poolCode? = some (t.code false) := by
    rw [Atom.poolCode?, Expr.poolCode?, if_pos ht]
  have hcode : (Atom.around t).code = t.code true := by
    rw [Atom.code, Expr.code, Source.code, Math.code]
    exact List.append_nil _
  cases hmods : mods.isEmpty with
  | true =>
      obtain rfl := Modifiers.eq_none_of_isEmpty hmods
      have hnone : Modifiers.none.code = [] := rfl
      cases reduce with
      | true => simp [Term.code, codeBehind, hcode, hnone, hmods]
      | false => simp [Term.code, codeBehind, hpool, hnone, hmods, sumCode]
  | false => simp [Term.code, codeBehind, hpool, hmods]

theorem code_inGroups (ht : t.isPool = true) (k : Nat) (reduce : Bool) :
    (t.inGroups k).code reduce = t.code reduce := by
  induction k with
  | zero => rfl
  | succ k ih => exact (code_around (isPool_inGroups ht k) .none reduce).trans ih

/-- What the code of a pool leaves out without the final reduction. -/
theorem code_true_eq (ht : t.isPool = true) :
    t.code true = t.code false ++ sumCode (!t.counted) := by
  induction t, ht using pool_induction with
  | roll count sides mods =>
      cases hcheck : mods.check <;> simp [Term.code, counted, hcheck, sumCode]
  | group t mods ht ih =>
      rw [code_around ht, code_around ht]
      cases hmods : mods.isEmpty with
      | true =>
          obtain rfl := Modifiers.eq_none_of_isEmpty hmods
          exact ih
      | false =>
          cases hcheck : mods.check <;> simp [codeBehind, counted, hmods, hcheck, sumCode]

/-- Behind a bare pool modifiers do the same as behind a group around it, except for a reroll, for
which a roll keeps its sides. -/
theorem code_withModifiers (ht : t.isPool = true) (hbare : t.modifiers.isEmpty = true)
    {mods : Modifiers} (honce : mods.reroll = none) (reduce : Bool) :
    (t.withModifiers mods).code reduce = t.codeBehind reduce mods := by
  induction t, ht using pool_induction with
  | roll count sides own =>
      obtain rfl := Modifiers.eq_none_of_isEmpty hbare
      cases hmods : mods.isEmpty with
      | true =>
          obtain rfl := Modifiers.eq_none_of_isEmpty hmods
          rfl
      | false =>
          have hnone : Modifiers.none.code = [] := rfl
          have hkept : Modifiers.none.reroll = none := rfl
          simp [withModifiers, codeBehind, Term.code, hmods, hnone, hkept, honce, sumCode]
  | group t own ht _ =>
      obtain rfl := Modifiers.eq_none_of_isEmpty hbare
      have hbelow : (reduce : Bool) → code reduce ⟨.atom (.around t), .none⟩ = t.code reduce :=
        code_around ht .none
      rw [withModifiers, code_around ht, codeBehind, codeBehind, hbelow, hbelow]

/-- Groups around a pool are transparent: however many stand between it and modifiers, the code is
that of the pool without its final reduction, then that of the modifiers, then a sum unless they
check. Without modifiers it is the code of the pool. A bare pool needs no group at all, unless it is
rolled again. -/
theorem code_groups (t : Term) (ht : t.isPool = true) (mods : Modifiers) (reduce : Bool) :
    (∀ k, 1 ≤ k → ((t.inGroups k).withModifiers mods).code reduce = t.codeBehind reduce mods) ∧
      (t.modifiers.isEmpty = true → mods.reroll = none →
        (t.withModifiers mods).code reduce = t.codeBehind reduce mods) ∧
      t.code true = t.code false ++ sumCode (!t.counted) := by
  refine ⟨?_, fun hbare honce => code_withModifiers ht hbare honce reduce, code_true_eq ht⟩
  intro k hk
  obtain ⟨k, rfl⟩ := Nat.exists_eq_add_of_le' hk
  have hgroup := code_around (isPool_inGroups ht k) mods reduce
  rw [codeBehind, code_inGroups ht, code_inGroups ht] at hgroup
  exact hgroup

/-- A group around two dice is rolled again where they exceed three, and stands in three groups. Its
highest die is kept and summed. Without the reroll no group is needed. -/
theorem code_groups_reroll :
    let again : Modifiers := ⟨none, none, some ⟨false, ⟨.greater, .number 3⟩⟩, none⟩
    let rolled : Term := ⟨.roll (.number 2) (.number 6), .none⟩
    let group : Term := ⟨.atom (.around rolled), again⟩
    let highest : Modifiers := ⟨none, some ⟨⟨false, .high⟩, .number 1⟩, none, none⟩
    group.isPool = true ∧
      ((group.inGroups 3).withModifiers highest).code true =
        [.push 6, .push 2] ++ op .roll ++ [.push 3] ++ op (.reroll false .greater) ++
          [.push 1] ++ op (.select ⟨false, .high⟩) ++ op .sum ∧
      (rolled.withModifiers highest).code true =
        [.push 6, .push 2] ++ op .roll ++ [.push 1] ++ op (.select ⟨false, .high⟩) ++ op .sum := by
  intro again rolled group highest
  exact ⟨rfl, (code_groups group rfl highest true).1 3 (by decide),
    (code_groups rolled rfl highest true).2.1 rfl rfl⟩

end Term

end DiceScript.Tree
