import DiceScript.Proofs.Syntax.Words

/-!
# First tokens

What a derivation begins with, and what may come next for a function of the parser to stop where a
derivation does.
-/

namespace DiceScript

open DiceScript.Parser

namespace TokenKind

def startsAtom : TokenKind → Bool
  | number | leftParen => true
  | _ => false

def startsTerm : TokenKind → Bool
  | load | leftBracket => true
  | k => k.startsAtom

def startsMath : TokenKind → Bool
  | negate | plus => true
  | k => k.startsTerm

def startsExpr : TokenKind → Bool
  | print | fileWrite | pipe | leftBrace | prompt | fileRead | openRead | openWrite => true
  | k => k.startsMath

/-- What ends an expression in brackets or in a block. -/
def closes : TokenKind → Bool
  | rightParen | rightBracket | rightBrace | comma | pipe => true
  | _ => false

/-- No modifier and no die follows a value before such a token. -/
def EndsTerm (k : TokenKind) : Prop :=
  role? k = none ∧ k ≠ .roll

/-- Nor an operator of a tighter level than the given one. -/
def EndsOperand (level : Level) (k : TokenKind) : Prop :=
  k.EndsTerm ∧ ∀ tighter : Level, tighter.rank < level.rank → tighter.operator? k = none

/-- Nor any operator. -/
def EndsMath (k : TokenKind) : Prop :=
  k.EndsTerm ∧ ∀ level : Level, level.operator? k = none

/-- Neither modifier, die nor reference follows an expression, no operator but perhaps a plus, and
that only when it does not end in math. -/
def EndsExpr (e : Expr) (k : TokenKind) : Prop :=
  k.EndsTerm ∧ k ≠ .store ∧ (k ≠ .plus → ∀ level : Level, level.operator? k = none) ∧
    (e.endsInMath = true → k ≠ .plus)

theorem EndsOperand.mono {level level' : Level} {k : TokenKind} (h : k.EndsOperand level)
    (hle : level'.rank ≤ level.rank) : k.EndsOperand level' :=
  ⟨h.1, fun tighter hlt => h.2 tighter (Nat.lt_of_lt_of_le hlt hle)⟩

theorem EndsMath.endsOperand {level : Level} {k : TokenKind} (h : k.EndsMath) :
    k.EndsOperand level :=
  ⟨h.1, fun tighter _ => h.2 tighter⟩

end TokenKind

open TokenKind

/-- The next token, if there is one, is of such a kind. -/
def Next (P : TokenKind → Prop) (ts : List Token) : Prop :=
  ∀ t ∈ ts.head?, P t.kind

theorem next_nil (P : TokenKind → Prop) : Next P [] := by
  simp [Next]

@[simp] theorem next_cons (P : TokenKind → Prop) (t : Token) (ts : List Token) :
    Next P (t :: ts) ↔ P t.kind := by
  simp [Next]

theorem Next.mono {P Q : TokenKind → Prop} {ts : List Token} (h : Next P ts)
    (hPQ : ∀ k, P k → Q k) : Next Q ts :=
  fun t ht => hPQ t.kind (h t ht)

/-- An expression comes to its end before a token that begins another one, unless it is a plus
behind math. -/
theorem endsExpr_of_startsExpr {e : Expr} {k : TokenKind} (hk : k.startsExpr = true)
    (hplus : e.endsInMath = true → k ≠ .plus) : k.EndsExpr e := by
  refine ⟨?_, ?_, ?_, hplus⟩
  · cases k <;> first | exact ⟨rfl, by decide⟩ | cases hk
  · cases k <;> first | decide | cases hk
  · intro hne level
    cases k <;> cases level <;> first | rfl | exact absurd rfl hne | cases hk

/-- And before a token that closes something or separates. -/
theorem next_endsExpr_of_closes {e : Expr} {t : Token} {ts : List Token}
    (ht : t.kind.closes = true) : Next (EndsExpr e) (t :: ts) := by
  rw [next_cons]
  generalize t.kind = k at ht
  refine ⟨?_, ?_, ?_, fun _ => ?_⟩
  · cases k <;> first | exact ⟨rfl, by decide⟩ | cases ht
  · cases k <;> first | decide | cases ht
  · intro _ level
    cases k <;> cases level <;> first | rfl | cases ht
  · cases k <;> first | decide | cases ht

/-- An operator ends the operand before it. -/
theorem endsOperand_of_isOperator {level : Level} {k : TokenKind} {op : BinaryOp}
    (h : Grammar.IsOperator level k op) : k.EndsOperand level := by
  refine ⟨?_, ?_⟩
  · cases h <;> exact ⟨rfl, by decide⟩
  · intro tighter hlt
    cases h <;> cases tighter <;> first | rfl | exact absurd hlt (by decide)

namespace Grammar

variable {greedy : Bool} {ts rest : List Token}

theorem IsAtom.head {a : Atom} (h : IsAtom greedy ts rest a) :
    ∃ t us, ts = t :: us ∧ t.kind.startsAtom = true := by
  cases h with
  | number ht _ => exact ⟨_, _, rfl, by rw [ht]; rfl⟩
  | group ht _ _ => exact ⟨_, _, rfl, by rw [ht]; rfl⟩

theorem IsRef.head {marker : TokenKind} {p : Place} (h : IsRef greedy marker ts rest p) :
    ∃ t us, ts = t :: us ∧ t.kind = marker := by
  cases h with
  | coordinates ht _ _ _ => exact ⟨_, _, rfl, ht⟩
  | grouped ht _ _ _ _ _ => exact ⟨_, _, rfl, ht⟩

theorem startsTerm_of_startsAtom {k : TokenKind} (h : k.startsAtom = true) :
    k.startsTerm = true := by
  cases k <;> first | rfl | cases h

theorem startsMath_of_startsTerm {k : TokenKind} (h : k.startsTerm = true) :
    k.startsMath = true := by
  cases k <;> first | rfl | cases h

theorem startsExpr_of_startsMath {k : TokenKind} (h : k.startsMath = true) :
    k.startsExpr = true := by
  cases k <;> first | rfl | cases h

theorem startsMath_of_isPrefix {k : TokenKind} {op : UnaryOp} (h : IsPrefix k op) :
    k.startsMath = true := by
  cases h <;> rfl

theorem startsExpr_of_isOpening {k : TokenKind} {access : Access} (h : IsOpening k access) :
    k.startsExpr = true := by
  cases h <;> rfl

theorem IsTerm.head {v : Term} (h : IsTerm greedy ts rest v) :
    ∃ t us, ts = t :: us ∧ t.kind.startsTerm = true := by
  cases h with
  | atom ha _ _ =>
      obtain ⟨t, us, rfl, ht⟩ := ha.head
      exact ⟨t, us, rfl, startsTerm_of_startsAtom ht⟩
  | roll ha _ _ _ _ =>
      obtain ⟨t, us, rfl, ht⟩ := ha.head
      exact ⟨t, us, rfl, startsTerm_of_startsAtom ht⟩
  | load hp _ _ =>
      obtain ⟨t, us, rfl, ht⟩ := hp.head
      exact ⟨t, us, rfl, by rw [ht]; rfl⟩
  | list ht _ _ _ _ => exact ⟨_, _, rfl, by rw [ht]; rfl⟩

mutual

theorem IsMath.head {level : Level} {ts rest : List Token} {m : Math} :
    IsMath greedy level ts rest m → ∃ t us, ts = t :: us ∧ t.kind.startsMath = true
  | .operand h => h.head
  | .binary h _ _ => h.head

theorem IsOperand.head {level : Level} {ts rest : List Token} {m : Math} :
    IsOperand greedy level ts rest m → ∃ t us, ts = t :: us ∧ t.kind.startsMath = true
  | .sum h => h.head
  | .product h => h.head
  | .term h => by
    obtain ⟨t, us, hts, ht⟩ := h.head
    exact ⟨t, us, hts, startsMath_of_startsTerm ht⟩
  | .unary ht _ => ⟨_, _, rfl, startsMath_of_isPrefix ht⟩

end

theorem IsExpr.head {e : Expr} (h : IsExpr greedy ts rest e) :
    ∃ t us, ts = t :: us ∧ t.kind.startsExpr = true := by
  cases h with
  | print ht _ => exact ⟨_, _, rfl, by rw [ht]; rfl⟩
  | filePrint ht _ _ => exact ⟨_, _, rfl, by rw [ht]; rfl⟩
  | close ht _ => exact ⟨_, _, rfl, by rw [ht]; rfl⟩
  | choose ht _ => exact ⟨_, _, rfl, by rw [ht]; rfl⟩
  | math hm _ =>
      obtain ⟨t, us, hts, ht⟩ := hm.head
      exact ⟨t, us, hts, startsExpr_of_startsMath ht⟩
  | prompt ht _ => exact ⟨_, _, rfl, by rw [ht]; rfl⟩
  | fileLine ht _ _ => exact ⟨_, _, rfl, by rw [ht]; rfl⟩
  | openFile ht _ _ => exact ⟨_, _, rfl, startsExpr_of_isOpening ht⟩

theorem IsExpr.next_ne_roll {e : Expr} (h : IsExpr greedy ts rest e) : Next (· ≠ .roll) ts := by
  obtain ⟨t, us, rfl, ht⟩ := h.head
  rw [next_cons]
  intro hk
  rw [hk] at ht
  cases ht

theorem IsRef.next_endsMath {p : Place} (h : IsRef greedy .store ts rest p) :
    Next EndsMath ts := by
  obtain ⟨t, us, rfl, ht⟩ := h.head
  rw [next_cons, ht]
  refine ⟨⟨rfl, by decide⟩, fun level => ?_⟩
  cases level <;> rfl

theorem IsTarget.next_endsMath {m : Math} {target : Option Place}
    (h : IsTarget greedy ts rest target)
    (hnext : Next (EndsExpr (.store (.math m) target)) rest) : Next EndsMath ts := by
  cases h with
  | none =>
      refine hnext.mono fun k hk => ⟨hk.1, hk.2.2.1 (hk.2.2.2 rfl)⟩
  | some hp => exact hp.next_endsMath

theorem IsTarget.next_ne_roll {target : Option Place} (h : IsTarget greedy ts rest target)
    (hnext : Next (· ≠ .roll) rest) : Next (· ≠ .roll) ts := by
  cases h with
  | none => exact hnext
  | some hp => exact hp.next_endsMath.mono fun k hk => hk.1.2

theorem IsModifier.role?_isSome {m : Modifier} (h : IsModifier greedy ts rest m) :
    ∃ t us, ts = t :: us ∧ (role? t.kind).isSome = true := by
  cases h with
  | sort ht => exact ⟨_, _, rfl, by rw [role?_eq_sort.mpr ht]; rfl⟩
  | select ht _ => exact ⟨_, _, rfl, by rw [role?_eq_select.mpr ht]; rfl⟩
  | reroll ht _ _ => exact ⟨_, _, rfl, by rw [role?_eq_reroll.mpr ht]; rfl⟩
  | rerollEqual ht _ => exact ⟨_, _, rfl, by rw [role?_eq_reroll.mpr ht]; rfl⟩
  | check ht _ => exact ⟨_, _, rfl, by rw [role?_eq_check.mpr ⟨_, ht⟩]; rfl⟩

theorem IsModifiers.next_ne_roll {ms : List Modifier} (h : IsModifiers greedy ts rest ms)
    (hnext : Next (· ≠ .roll) rest) : Next (· ≠ .roll) ts := by
  cases h with
  | nil => exact hnext
  | cons hm _ =>
      obtain ⟨t, us, rfl, ht⟩ := hm.role?_isSome
      rw [next_cons]
      intro hk
      rw [hk] at ht
      cases ht

/-- An expression comes to its end before the other ones of a list and what closes the list. -/
theorem IsExprs.next_endsExpr {e : Expr} {es : List Expr} (h : IsExprs greedy ts rest es)
    (hplus : e.endsInMath = true → Next (· ≠ .plus) ts) (hrest : Next (EndsExpr e) rest) :
    Next (EndsExpr e) ts := by
  cases h with
  | nil => exact hrest
  | cons he _ _ =>
      obtain ⟨t, us, rfl, ht⟩ := he.head
      rw [next_cons] at hplus ⊢
      exact endsExpr_of_startsExpr ht hplus

end Grammar

end DiceScript
