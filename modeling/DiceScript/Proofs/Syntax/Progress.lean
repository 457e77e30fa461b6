import DiceScript.Proofs.Syntax.Calls

/-!
# Progress of the parser

At each position of the cursor the functions take turns in one fixed order. So no function is called
twice at a position, which means for a loop that every round takes a token, and a run ends after a
number of calls that is linear in the number of tokens.
-/

namespace DiceScript

namespace Parser

/-! ## Turns -/

namespace Routine

/-- How many functions can still be called at the same position after this one. There are 22 of
them, counting those of every level of operators. -/
def turns : Routine → Nat
  -- what may follow a value, from the inside out
  | modifiers => 21
  | chainFrom level => 20 - level.rank
  | target => 17
  -- what may begin with the next expression, from the outside in
  | program => 16
  | items => 15
  | clauses => 14
  | expr => 13
  | store => 12
  | opening => 11
  | chain level => 6 + 2 * level.rank
  | operand level => 5 + 2 * level.rank
  | unary => 4
  | term => 3
  | condition => 2
  | place => 1
  | atom => 0

/-- How many functions can be called where this one stops. It is all of them behind a token that it
takes last, and else those whose turn comes after the function that it called last. -/
def left : Routine → Nat
  | items | clauses | atom | condition | place => 22
  | unary | term | modifiers => 21
  | operand level => 21 - level.rank
  | chain level | chainFrom level => 20 - level.rank
  | expr | store | opening | target => 17
  | program => 16

/-- The functions that may succeed without taking a token. -/
def mayStay : Routine → Bool
  | program | target | chainFrom _ | modifiers => true
  | _ => false

theorem turns_lt_left {f : Routine} (h : f.mayStay = false) : f.turns < f.left := by
  cases f with
  | chain level => cases level <;> decide
  | operand level => cases level <;> decide
  | program | target | chainFrom _ | modifiers => cases h
  | _ => decide

theorem turns_lt (f : Routine) : f.turns < 22 := by
  cases f with
  | chain level => cases level <;> decide
  | operand level => cases level <;> decide
  | chainFrom level => cases level <;> decide
  | _ => decide

end Routine

/-- A moment of a run: the tokens ahead of the cursor, and how many functions can still be called
before the cursor moves. -/
structure Moment where
  ahead : List Token
  turns : Nat

/-- The second moment is not before the first: the cursor has moved forward, or it has stayed and
there are not more functions to be called. -/
structure Moment.Reaches (m m' : Moment) : Prop where
  suffix : m'.ahead <:+ m.ahead
  countdown : 22 * m'.ahead.length + m'.turns ≤ 22 * m.ahead.length + m.turns

namespace Moment.Reaches

theorem trans {m₁ m₂ m₃ : Moment} (h : m₁.Reaches m₂) (h' : m₂.Reaches m₃) : m₁.Reaches m₃ :=
  ⟨h'.suffix.trans h.suffix, Nat.le_trans h'.countdown h.countdown⟩

theorem here {ts : List Token} {n k : Nat} (h : k ≤ n) : Reaches ⟨ts, n⟩ ⟨ts, k⟩ :=
  ⟨List.suffix_rfl, Nat.add_le_add_left h _⟩

/-- When a token is taken, every function can be called again. -/
theorem take {t : Token} {ts : List Token} {n k : Nat} (h : k ≤ 22) :
    Reaches ⟨t :: ts, n⟩ ⟨ts, k⟩ := by
  refine ⟨List.suffix_cons t ts, ?_⟩
  simp only [List.length_cons]
  omega

theorem length_lt {ts us : List Token} {n k : Nat} (h : Reaches ⟨ts, n⟩ ⟨us, k⟩) (hlt : n < k) :
    us.length < ts.length := by
  have hle : 22 * us.length + k ≤ 22 * ts.length + n := h.countdown
  omega

end Moment.Reaches

open Moment.Reaches

namespace Work

variable {α β : Type}

/-- From a moment on the calls come in turn, and `left` functions can be called where the work
ends. -/
def Forward (left : Nat) : Work α → Moment → Prop
  | done _ rest, m => m.Reaches ⟨rest, left⟩
  | refused _, _ => True
  | call f _ ts next, m =>
    m.Reaches ⟨ts, f.turns + 1⟩ ∧ ∀ a rest, (next a rest).Forward left ⟨rest, f.left⟩

namespace Forward

variable {left left' : Nat} {w : Work α} {m m' : Moment}

theorem of_reaches (h : m.Reaches m') (hw : w.Forward left m') : w.Forward left m := by
  cases w with
  | done a rest => exact h.trans hw
  | refused r => exact trivial
  | call f x ts next => exact ⟨h.trans hw.1, hw.2⟩

theorem andThen {k : α → List Token → Work β} (hw : w.Forward left m)
    (hk : ∀ a rest, (k a rest).Forward left' ⟨rest, left⟩) : (w.andThen k).Forward left' m := by
  induction w generalizing m with
  | done a rest => exact of_reaches hw (hk a rest)
  | refused r => exact trivial
  | call f x ts next ih => exact ⟨hw.1, fun a rest => ih a rest (hw.2 a rest)⟩

end Forward

/-! ## Every function keeps to the turns -/

/-- What a function has to do comes in turn after its own call. -/
abbrev InTurn (f : Routine) (w : Work α) (ts : List Token) : Prop :=
  w.Forward f.left ⟨ts, f.turns⟩

theorem program_inTurn : ∀ ts : List Token, InTurn .program (program ts) ts
  | [] => here (Nat.le_refl 16)
  | _ :: _ => ⟨here (by decide), fun _ _ => ⟨here (by decide), fun _ _ => here (by decide)⟩⟩

theorem items_inTurn : ∀ ts : List Token, InTurn .items (items ts) ts
  | [] => trivial
  | t :: rest => by
    rw [items]
    split
    · exact take (by decide)
    · exact ⟨here (by decide), fun _ _ => ⟨here (by decide), fun _ _ => here (by decide)⟩⟩

theorem afterResult_forward (condition result : Expr) : ∀ ts : List Token,
    (afterResult condition result ts).Forward (Routine.left .clauses) ⟨ts, Routine.left .expr⟩
  | [] => trivial
  | s :: rest => by
    rw [afterResult]
    split
    · exact ⟨take (by decide), fun _ _ => here (by decide)⟩
    · exact take (by decide)
    · exact trivial

theorem afterCondition_forward (condition : Expr) : ∀ ts : List Token,
    (afterCondition condition ts).Forward (Routine.left .clauses) ⟨ts, Routine.left .expr⟩
  | [] => trivial
  | t :: rest => by
    rw [afterCondition]
    split
    · exact ⟨take (by decide), afterResult_forward condition⟩
    · exact take (by decide)
    · exact trivial

theorem clauses_inTurn (ts : List Token) : InTurn .clauses (clauses ts) ts :=
  ⟨here (by decide), afterCondition_forward⟩

theorem expr_inTurn : ∀ ts : List Token, InTurn .expr (expr ts) ts
  | [] => trivial
  | t :: rest => by
    rw [expr]
    split
    · exact ⟨take (by decide), fun _ _ => here (by decide)⟩
    · exact ⟨take (by decide), fun _ _ => ⟨here (by decide), fun _ _ => here (by decide)⟩⟩
    · exact ⟨take (by decide), fun _ _ => here (by decide)⟩
    · exact ⟨take (by decide), fun _ _ => here (by decide)⟩
    · exact ⟨here (by decide), fun _ _ => here (by decide)⟩

theorem store_inTurn : ∀ ts : List Token, InTurn .store (store ts) ts
  | [] => trivial
  | t :: rest => by
    rw [store]
    split
    · exact ⟨take (by decide), fun _ _ => here (by decide)⟩
    · exact ⟨take (by decide), fun _ _ => ⟨here (by decide), fun _ _ => here (by decide)⟩⟩
    · exact ⟨take (by decide), fun _ _ => here (by decide)⟩
    · exact ⟨take (by decide), fun _ _ => here (by decide)⟩
    · exact ⟨here (by decide), fun _ _ => ⟨here (by decide), fun _ _ => here (by decide)⟩⟩

theorem opening_inTurn (access : Access) (t : Token) (ts : List Token) :
    InTurn .opening (opening access t ts) ts := by
  refine ⟨here (by decide), fun path rest => ⟨here (by decide), fun target rest₁ => ?_⟩⟩
  cases target with
  | none => exact trivial
  | some handle => exact here (by decide)

theorem target_inTurn : ∀ ts : List Token, InTurn .target (target ts) ts
  | [] => here (by decide)
  | t :: rest => by
    rw [target]
    split
    · exact ⟨here (by decide), fun _ _ => here (by decide)⟩
    · exact here (by decide)

theorem chain_inTurn (level : Level) (ts : List Token) :
    InTurn (.chain level) (chain level ts) ts :=
  ⟨here (by cases level <;> decide), fun _ _ =>
    ⟨here (by cases level <;> decide), fun _ _ => here (Nat.le_refl _)⟩⟩

theorem operand_inTurn (level : Level) (ts : List Token) :
    InTurn (.operand level) (operand level ts) ts := by
  cases level <;> exact ⟨here (by decide), fun _ _ => here (by decide)⟩

theorem chainFrom_inTurn (level : Level) (left : Math) : ∀ ts : List Token,
    InTurn (.chainFrom level) (chainFrom level left ts) ts
  | [] => here (Nat.le_refl _)
  | t :: rest => by
    rw [chainFrom]
    cases level.operator? t.kind with
    | none => exact here (Nat.le_refl _)
    | some op =>
        exact ⟨take (by cases level <;> decide), fun _ _ =>
          ⟨here (by cases level <;> decide), fun _ _ => here (Nat.le_refl _)⟩⟩

theorem unary_inTurn : ∀ ts : List Token, InTurn .unary (unary ts) ts
  | [] => trivial
  | t :: rest => by
    rw [unary]
    cases unary? t.kind with
    | some op => exact ⟨take (by decide), fun _ _ => here (by decide)⟩
    | none => exact ⟨here (by decide), fun _ _ => here (by decide)⟩

theorem term_inTurn : ∀ ts : List Token, InTurn .term (term ts) ts
  | [] => trivial
  | t :: rest => by
    rw [term]
    split
    · exact ⟨here (by decide), fun _ _ => ⟨here (by decide), fun _ _ => here (by decide)⟩⟩
    · exact ⟨take (by decide), fun _ _ => ⟨here (by decide), fun _ _ => here (by decide)⟩⟩
    · refine ⟨here (by decide), fun count ts₁ => ?_⟩
      cases ts₁ with
      | nil => exact here (by decide)
      | cons d rest₁ =>
          dsimp only
          split
          · exact ⟨take (by decide), fun _ _ => ⟨here (by decide), fun _ _ => here (by decide)⟩⟩
          · exact ⟨here (by decide), fun _ _ => here (by decide)⟩

theorem atom_inTurn : ∀ ts : List Token, InTurn .atom (atom ts) ts
  | [] => trivial
  | t :: rest => by
    rw [atom]
    split
    · split
      · exact take (by decide)
      · exact trivial
    · refine ⟨take (by decide), fun e ts₁ => ?_⟩
      cases ts₁ with
      | nil => exact trivial
      | cons s rest₁ =>
          dsimp only
          split
          · exact take (by decide)
          · exact trivial
    · exact trivial
    · exact trivial

theorem modifiers_inTurn (rolled : Bool) (draft : Draft) : ∀ ts : List Token,
    InTurn .modifiers (modifiers rolled draft ts) ts
  | [] => here (by decide)
  | t :: rest => by
    rw [modifiers]
    split
    · split
      · exact trivial
      · exact ⟨take (by decide), fun _ _ => here (by decide)⟩
    · split
      · exact trivial
      · split
        · exact trivial
        · exact ⟨take (by decide), fun _ _ => ⟨here (by decide), fun _ _ => here (by decide)⟩⟩
    · split
      · exact trivial
      · exact ⟨here (by decide), fun _ _ => ⟨here (by decide), fun _ _ => here (by decide)⟩⟩
    · split
      · exact trivial
      · exact ⟨take (by decide), fun _ _ => ⟨here (by decide), fun _ _ => here (by decide)⟩⟩
    · exact here (by decide)

theorem condition_inTurn : ∀ ts : List Token, InTurn .condition (condition ts) ts
  | [] => trivial
  | t :: rest => by
    rw [condition]
    cases relation? t.kind with
    | some relation => exact ⟨take (by decide), fun _ _ => here (by decide)⟩
    | none => exact ⟨here (by decide), fun _ _ => here (by decide)⟩

theorem grouped_forward (t : Token) (e : Expr) (rest : List Token) :
    (grouped t e rest).Forward (Routine.left .place) ⟨rest, Routine.left .atom⟩ := by
  unfold grouped
  split
  · exact here (by decide)
  · exact trivial

theorem place_inTurn (marker : TokenKind) : ∀ ts : List Token,
    InTurn .place (place marker ts) ts
  | [] => trivial
  | t :: rest => by
    rw [place]
    split
    · exact trivial
    · refine ⟨take (by decide), fun count ts₁ => ?_⟩
      cases ts₁ with
      | nil =>
          cases count with
          | number x => exact trivial
          | group e => exact grouped_forward t e []
      | cons s rest₁ =>
          cases count with
          | number x =>
              dsimp only
              split
              · exact ⟨take (by decide), fun _ _ => here (by decide)⟩
              · exact trivial
          | group e =>
              dsimp only
              split
              · exact ⟨take (by decide), fun _ _ => here (by decide)⟩
              · exact grouped_forward t e (s :: rest₁)

end Work

/-- What a function has to do keeps to the turns from its own turn on. -/
theorem Routine.work_inTurn (f : Routine) (x : f.Argument) (ts : List Token) :
    Work.InTurn f (f.work x ts) ts := by
  cases f with
  | program => exact Work.program_inTurn ts
  | items => exact Work.items_inTurn ts
  | clauses => exact Work.clauses_inTurn ts
  | expr => exact Work.expr_inTurn ts
  | store => exact Work.store_inTurn ts
  | opening => exact Work.opening_inTurn x.1 x.2 ts
  | target => exact Work.target_inTurn ts
  | chain level => exact Work.chain_inTurn level ts
  | operand level => exact Work.operand_inTurn level ts
  | chainFrom level => exact Work.chainFrom_inTurn level x ts
  | unary => exact Work.unary_inTurn ts
  | term => exact Work.term_inTurn ts
  | atom => exact Work.atom_inTurn ts
  | modifiers => exact Work.modifiers_inTurn x.1 x.2 ts
  | condition => exact Work.condition_inTurn ts
  | place => exact Work.place_inTurn x ts

namespace Work

variable {α : Type}

/-! ## Runs keep to the turns -/

namespace Forward

variable {left : Nat} {w : Work α} {m : Moment}

theorem start (f : Routine) (x : f.Argument) (ts : List Token) :
    (start f x ts).Forward f.left ⟨ts, f.turns + 1⟩ :=
  ⟨here (Nat.le_refl _), fun _ _ => here (Nat.le_refl _)⟩

/-- A call gives way to calls whose turn is after its own. -/
theorem step {f : Routine} {ts : List Token} (h : w.Forward left m)
    (hcall : w.callee? = some (f, ts)) : w.step.Forward left ⟨ts, f.turns⟩ := by
  obtain ⟨x, next, rfl⟩ := eq_call hcall
  exact (f.work_inTurn x ts).andThen h.2

theorem callee {f : Routine} {ts : List Token} (h : w.Forward left m)
    (hcall : w.callee? = some (f, ts)) : m.Reaches ⟨ts, f.turns + 1⟩ := by
  obtain ⟨x, next, rfl⟩ := eq_call hcall
  exact h.1

theorem ahead {ts : List Token} (h : w.Forward left m) (hahead : w.ahead? = some ts) :
    ts <:+ m.ahead := by
  cases w with
  | call f x us next =>
      cases hahead
      exact h.1.suffix
  | done a rest =>
      cases hahead
      exact h.suffix
  | refused r => cases hahead

/-- What is still to be done does not depend on what was before. -/
theorem narrow {ts : List Token} (h : w.Forward left m) (hahead : w.ahead? = some ts) :
    ∃ k, w.Forward left ⟨ts, k⟩ := by
  cases w with
  | call f x us next =>
      cases hahead
      exact ⟨f.turns + 1, here (Nat.le_refl _), h.2⟩
  | done a rest =>
      cases hahead
      exact ⟨left, here (Nat.le_refl _)⟩
  | refused r => cases hahead

theorem after (h : w.Forward left m) (n : Nat) : (w.after n).Forward left m := by
  induction n generalizing w with
  | zero => exact h
  | succ n ih =>
      cases hcall : w.callee? with
      | none => rwa [after_eq_self hcall]
      | some c =>
          have hreach := (h.callee hcall).trans (here (Nat.le_succ _))
          exact ih ((h.step hcall).of_reaches hreach)

/-- Every step before a call has used up a turn. -/
theorem callee_after (h : w.Forward left m) {n : Nat} {f : Routine} {ts : List Token}
    (hcall : (w.after n).callee? = some (f, ts)) : m.Reaches ⟨ts, f.turns + 1 + n⟩ := by
  induction n generalizing w m with
  | zero => exact h.callee hcall
  | succ n ih =>
      cases hfirst : w.callee? with
      | none =>
          rw [after_eq_self hfirst, hfirst] at hcall
          cases hcall
      | some c =>
          have hnow := h.callee hfirst
          have hlater := ih (h.step hfirst) hcall
          refine ⟨hlater.suffix.trans hnow.suffix, ?_⟩
          have hcount := hnow.countdown
          have hcount' := hlater.countdown
          dsimp only at hcount hcount' ⊢
          omega

end Forward

/-! ## From one state of a run to a later one -/

section Run

variable {w : Work α} {left : Nat} {m : Moment} {i j : Nat} {us vs : List Token}

/-- The cursor never moves back. -/
theorem ahead_suffix (h : w.Forward left m) (hij : i ≤ j) (hi : (w.after i).ahead? = some us)
    (hj : (w.after j).ahead? = some vs) : vs <:+ us := by
  obtain ⟨k, hk⟩ := (h.after i).narrow hi
  obtain ⟨n, rfl⟩ := Nat.exists_eq_add_of_le hij
  rw [after_add] at hj
  exact (hk.after n).ahead hj

/-- A function is not called again before the cursor has moved. -/
theorem callee_length_lt (h : w.Forward left m) (hij : i < j) {f : Routine}
    (hi : (w.after i).callee? = some (f, us)) (hj : (w.after j).callee? = some (f, vs)) :
    vs.length < us.length := by
  obtain ⟨n, rfl⟩ := Nat.exists_eq_add_of_le hij
  rw [Nat.succ_eq_add_one, Nat.add_assoc, after_add, Nat.add_comm 1] at hj
  have hreach := (((h.after i).step hi).after n).callee hj
  exact hreach.length_lt (Nat.lt_succ_self _)

end Run

/-- A run ends, and has read what the parser reads. -/
theorem start_after (f : Routine) (x : f.Argument) {ts : List Token} {n : Nat}
    (hn : 22 * (ts.length + 1) ≤ n) : (start f x ts).after n = ofReading (f.read x ts) := by
  have hend : ((start f x ts).after n).callee? = none := by
    cases hcall : ((start f x ts).after n).callee? with
    | none => rfl
    | some c =>
        have hcount := ((Forward.start f x ts).callee_after hcall).countdown
        have hturns := f.turns_lt
        dsimp only at hcount
        omega
  rw [eq_ofReading hend, outcome_after, start, outcome_last]

end Work

/-- A function that succeeds leaves a later moment than its turn. -/
theorem Routine.read_reaches {f : Routine} {x : f.Argument} {ts rest : List Token} {a : f.Result}
    (h : f.read x ts = .ok (a, rest)) : Moment.Reaches ⟨ts, f.turns⟩ ⟨rest, f.left⟩ := by
  have hforward : ((Work.start f x ts).step.after (22 * (ts.length + 1))).Forward f.left
      ⟨ts, f.turns⟩ := ((Work.Forward.start f x ts).step rfl).after _
  have hend := Work.start_after f x (Nat.le_succ (22 * (ts.length + 1)))
  rw [Work.after] at hend
  rw [hend, h] at hforward
  exact hforward

/-! ## Positions -/

/-- The cursor stands at a position of a token list when the others are ahead of it. -/
def At (tokens : List Token) (pos : Nat) (ahead : List Token) : Prop :=
  pos ≤ tokens.length ∧ tokens.drop pos = ahead

theorem At.later {tokens us vs : List Token} {pos : Nat} (h : At tokens pos us) (hvs : vs <:+ us) :
    ∃ pos', At tokens pos' vs ∧ pos ≤ pos' ∧ (vs.length < us.length → pos < pos') := by
  obtain ⟨hpos, rfl⟩ := h
  obtain ⟨taken, htaken⟩ := hvs
  have hlength := congrArg List.length htaken
  rw [List.length_append, List.length_drop] at hlength
  refine ⟨pos + taken.length, ⟨by omega, ?_⟩, Nat.le_add_right _ _, fun hlt => ?_⟩
  · rw [← List.drop_drop, ← htaken, List.drop_left]
  · rw [List.length_drop] at hlt
    omega

/-- The laws of a run of a function from a position of a token list on. -/
structure Progresses (tokens : List Token) (f : Routine) (x : f.Argument) (pos : Nat) : Prop where
  /-- It ends, whatever the tokens are, with what the parser reads there. -/
  ends : ∀ n, 22 * (tokens.length - pos + 1) ≤ n →
    (Work.start f x (tokens.drop pos)).after n = .ofReading (f.read x (tokens.drop pos))
  /-- A success leaves the cursor within the list, and further on unless the function may stay. -/
  advances : ∀ a rest, f.read x (tokens.drop pos) = .ok (a, rest) →
    ∃ pos', At tokens pos' rest ∧ pos ≤ pos' ∧ (f.mayStay = false → pos < pos')
  /-- The cursor never moves back from one state to a later one. -/
  neverBack : ∀ i j us vs, i ≤ j → ((Work.start f x (tokens.drop pos)).after i).ahead? = some us →
    ((Work.start f x (tokens.drop pos)).after j).ahead? = some vs →
    ∃ p q, At tokens p us ∧ At tokens q vs ∧ pos ≤ p ∧ p ≤ q
  /-- Between two calls of one function the cursor moves. A loop calls itself for every round. -/
  rounds : ∀ i j g us vs, i < j →
    ((Work.start f x (tokens.drop pos)).after i).callee? = some (g, us) →
    ((Work.start f x (tokens.drop pos)).after j).callee? = some (g, vs) →
    ∃ p q, At tokens p us ∧ At tokens q vs ∧ p < q

theorem progresses {tokens : List Token} (f : Routine) (x : f.Argument) {pos : Nat}
    (hpos : pos ≤ tokens.length) : Progresses tokens f x pos := by
  have hforward := Work.Forward.start f x (tokens.drop pos)
  have hhere : At tokens pos (tokens.drop pos) := ⟨hpos, rfl⟩
  constructor
  · intro n hn
    rw [← List.length_drop] at hn
    exact Work.start_after f x hn
  · intro a rest hread
    have hreach := Routine.read_reaches hread
    obtain ⟨pos', hat, hle, hlt⟩ := hhere.later hreach.suffix
    exact ⟨pos', hat, hle, fun h => hlt (hreach.length_lt (Routine.turns_lt_left h))⟩
  · intro i j us vs hij hi hj
    obtain ⟨p, hp, hpos', -⟩ := hhere.later ((hforward.after i).ahead hi)
    obtain ⟨q, hq, hpq, -⟩ := hp.later (Work.ahead_suffix hforward hij hi hj)
    exact ⟨p, q, hp, hq, hpos', hpq⟩
  · intro i j g us vs hij hi hj
    have hi' := Work.ahead?_of_callee? hi
    have hj' := Work.ahead?_of_callee? hj
    obtain ⟨p, hp, -, -⟩ := hhere.later ((hforward.after i).ahead hi')
    obtain ⟨q, hq, -, hpq⟩ := hp.later (Work.ahead_suffix hforward (Nat.le_of_lt hij) hi' hj')
    exact ⟨p, q, hp, hq, hpq (Work.callee_length_lt hforward hij hi hj)⟩

end Parser

open DiceScript.Parser

/-- From every position of a token list, each function of the parser makes progress and comes to an
end. So parsing ends within a number of calls that is linear in the tokens, and it has taken all of
them when it succeeds. -/
theorem parse_progresses (tokens : List Token) :
    (∀ (f : Routine) (x : f.Argument) (pos : Nat), pos ≤ tokens.length →
      Progresses tokens f x pos) ∧
    ∀ n, 22 * (tokens.length + 1) ≤ n →
      (∀ script, parse tokens = .ok script →
        (Work.start .program () tokens).after n = .done script.body []) ∧
      ∀ e, parse tokens = .error e → ∃ r : Refusal, r.toError tokens = e ∧
        (Work.start .program () tokens).after n = .refused r := by
  refine ⟨fun f x pos hpos => progresses f x hpos, fun n hn => ?_⟩
  rw [Work.start_after .program () hn]
  dsimp only [Routine.read]
  unfold parse
  cases exprs tokens with
  | ok body =>
      constructor
      · intro script h
        cases h
        rfl
      · intro e h
        cases h
  | error r =>
      constructor
      · intro script h
        cases h
      · intro e h
        cases h
        exact ⟨r, rfl, rfl⟩

/-- Twelve functions take their turns at a bracket that nothing has opened. -/
example (t : Token) (h : t.kind = .rightParen) :
    (Work.start .program () [t]).after 12 = .refused (.unexpected t .expectedAtom) := by
  obtain ⟨kind, text, position, span⟩ := t
  cases h
  rfl

end DiceScript
