import DiceScript.Proofs.Syntax.Grammar

/-!
# The words that the parser looks up

The tables of the parser have the words of the grammar, and no others.
-/

namespace DiceScript.Grammar

open DiceScript.Parser

theorem operator?_eq_some {level : Level} {k : TokenKind} {op : BinaryOp} :
    level.operator? k = some op ↔ IsOperator level k op := by
  constructor
  · intro h
    unfold Level.operator? at h
    split at h <;> cases h <;> constructor
  · intro h
    cases h <;> rfl

theorem unary?_eq_some {k : TokenKind} {op : UnaryOp} : unary? k = some op ↔ IsPrefix k op := by
  constructor
  · intro h
    unfold unary? at h
    split at h <;> cases h <;> constructor
  · intro h
    cases h <;> rfl

theorem relation?_eq_some {k : TokenKind} {r : Relation} :
    relation? k = some r ↔ IsRelation k r := by
  constructor
  · intro h
    unfold relation? at h
    split at h <;> cases h <;> constructor
  · intro h
    cases h <;> rfl

theorem role?_eq_sort {k : TokenKind} {order : SortOrder} :
    role? k = some (.sort order) ↔ IsSort k order := by
  constructor
  · intro h
    unfold role? at h
    split at h <;> cases h <;> constructor
  · intro h
    cases h <;> rfl

theorem role?_eq_reroll {k : TokenKind} {once : Bool} :
    role? k = some (.reroll once) ↔ IsReroll k once := by
  constructor
  · intro h
    unfold role? at h
    split at h <;> cases h <;> constructor
  · intro h
    cases h <;> rfl

theorem role?_eq_select {k : TokenKind} {selector : Selector} :
    role? k = some (.select selector) ↔ IsSelector k selector := by
  constructor
  · intro h
    unfold role? at h
    split at h <;> cases h <;> constructor
  · intro h
    cases h <;> rfl

theorem role?_eq_check {k : TokenKind} :
    role? k = some .check ↔ ∃ r, IsRelation k r := by
  constructor
  · intro h
    unfold role? at h
    split at h <;> cases h
    · exact ⟨_, .greater⟩
    · exact ⟨_, .less⟩
    · exact ⟨_, .equal⟩
  · intro ⟨r, h⟩
    cases h <;> rfl

theorem isOpening_iff {k : TokenKind} {access : Access} :
    IsOpening k access ↔ k = .openRead ∧ access = .read ∨ k = .openWrite ∧ access = .write := by
  constructor
  · intro h
    cases h with
    | read => exact .inl ⟨rfl, rfl⟩
    | write => exact .inr ⟨rfl, rfl⟩
  · rintro (⟨rfl, rfl⟩ | ⟨rfl, rfl⟩)
    · exact .read
    · exact .write

/-- No atom begins with a relation. -/
theorem IsAtom.not_isRelation {greedy : Bool} {t : Token} {ts rest : List Token} {a : Atom}
    (h : IsAtom greedy (t :: ts) rest a) (r : Relation) : ¬ IsRelation t.kind r := by
  intro hr
  cases h with
  | number ht _ =>
      rw [ht] at hr
      cases hr
  | group ht _ _ =>
      rw [ht] at hr
      cases hr

end DiceScript.Grammar
