import DiceScript.Syntax.Parser

/-!
# Readings

What a function of the parser reads and leaves, without the fact that the rest is shorter. For every
first token there is one equation that says how the function goes on behind it.
-/

namespace DiceScript.Parser

/-- A value that was read and the tokens after it, or why none was. -/
abbrev Reading (α : Type) := Except Refusal (α × List Token)

namespace Reading

variable {α β γ δ : Type}

def yields (x : Reading α) (g : α → β) : Reading β :=
  x.map fun r => (g r.1, r.2)

def andThen (x : Reading α) (k : α → List Token → Reading β) : Reading β :=
  x.bind fun r => k r.1 r.2

/-- What a result says of the value and of the tokens that are left. -/
def of (value : γ → α) (left : γ → List Token) (x : Except Refusal γ) : Reading α :=
  x.map fun p => (value p, left p)

section Of

variable {value : γ → α} {left : γ → List Token} {value' : δ → β} {left' : δ → List Token}
  {x : Except Refusal γ} {f : γ → Except Refusal δ}

theorem of_eq_ok {a : α} {rest : List Token} (h : of value left x = .ok (a, rest)) :
    ∃ p, x = .ok p ∧ value p = a ∧ left p = rest := by
  cases x with
  | error e => cases h
  | ok p =>
      cases h
      exact ⟨p, rfl, rfl, rfl⟩

theorem of_bind {k : α → List Token → Reading β}
    (h : ∀ p, of value' left' (f p) = k (value p) (left p)) :
    of value' left' (x >>= f) = (of value left x).andThen k := by
  cases x with
  | error e => rfl
  | ok p => exact h p

theorem of_yields {g : α → β} (h : ∀ p, of value' left' (f p) = .ok (g (value p), left p)) :
    of value' left' (x >>= f) = (of value left x).yields g := by
  cases x with
  | error e => rfl
  | ok p => exact h p

end Of

end Reading

open Reading

section Views

variable {α : Type} {ts rest : List Token} {a : α}

abbrev reading (x : Except Refusal (Parsed α ts)) : Reading α :=
  .of Parsed.value Parsed.rest x

abbrev readingOn (x : Except Refusal (Trailing α ts)) : Reading α :=
  .of Trailing.value Trailing.rest x

theorem length_of_reading {x : Except Refusal (Parsed α ts)} (h : reading x = .ok (a, rest)) :
    rest.length < ts.length := by
  obtain ⟨p, -, -, rfl⟩ := of_eq_ok h
  exact p.shorter

/-- A bound on what is left may be given for any other list. -/
theorem readingOn_relax {us vs : List Token} {x : Except Refusal (Trailing α us)}
    (h : ∀ p : Trailing α us, p.rest.length ≤ vs.length) :
    readingOn (do let p ← x; return (⟨p.value, p.rest, h p⟩ : Trailing α vs)) = readingOn x := by
  cases x <;> rfl

end Views

/-! ## How a function goes on behind what it called first -/

/-- Behind the result of a clause. -/
def afterResult (condition result : Expr) : List Token → Reading (List Clause × Option Expr)
  | [] => .error .endOfInput
  | s :: rest =>
    if s.kind = .pipe then
      (reading (clauses rest)).yields fun b => (⟨condition, result⟩ :: b.1, b.2)
    else if s.kind = .rightBrace then .ok (([⟨condition, result⟩], none), rest)
    else .error (.unexpected s .expectedSeparator)

/-- Behind the condition of a clause, or the expression that a block ends with. -/
def afterCondition (condition : Expr) : List Token → Reading (List Clause × Option Expr)
  | [] => .error .endOfInput
  | t :: rest =>
    if t.kind = .comma then (reading (expr rest)).andThen (afterResult condition)
    else if t.kind = .rightBrace then .ok (([], some condition), rest)
    else .error (.unexpected t .strayInBlock)

/-- Behind the path of a file that the marker `t` opens. -/
def afterPath (t : Token) (access : Access) (path : Math) : List Token → Reading Expr
  | [] => .error (.unexpected t .openWithoutHandle)
  | s :: rest =>
    if s.kind = .store then
      (reading (place .store (s :: rest))).yields (.openFile access path)
    else .error (.unexpected t .openWithoutHandle)

/-- Behind a number or a group that may be the count of a roll. -/
def afterCount (count : Atom) : List Token → Reading Term
  | [] => .ok (⟨.atom count, .none⟩, [])
  | d :: rest =>
    if d.kind = .roll then
      (reading (atom rest)).andThen fun sides rest₁ =>
        (readingOn (modifiers true .empty rest₁)).yields fun draft =>
          ⟨.roll count sides draft.reroll, draft.modifiers⟩
    else
      (readingOn (modifiers false .empty (d :: rest))).yields fun draft =>
        ⟨.atom count, draft.modifiers⟩

/-- Behind an expression in parentheses. -/
def afterGroup (e : Expr) : List Token → Reading Atom
  | [] => .error .endOfInput
  | s :: rest =>
    if s.kind = .rightParen then .ok (.group e, rest)
    else .error (.unexpected s (.expected .rightParen))

/-- The place that a parenthesised expression behind the marker `t` stands for. -/
def groupedPlace (t : Token) (e : Expr) (rest : List Token) : Reading Place :=
  match e.place? with
  | some p => .ok (p, rest)
  | none => .error (.unexpected t .notAReference)

/-- Behind the first coordinate of a place, whose marker is `t`. -/
def afterCoordinate (t : Token) (count : Atom) : List Token → Reading Place
  | [] =>
    match count with
    | .group e => groupedPlace t e []
    | .number _ => .error .endOfInput
  | s :: rest =>
    if s.kind = .roll then (reading (atom rest)).yields fun sides => ⟨count, sides⟩
    else
      match count with
      | .group e => groupedPlace t e (s :: rest)
      | .number _ => .error (.unexpected s .expectedRoll)

theorem reading_grouped {ts : List Token} (t : Token) (e : Expr) (rest : List Token)
    (h : rest.length < ts.length) : reading (grouped t e rest h) = groupedPlace t e rest := by
  unfold grouped groupedPlace
  cases e.place? <;> rfl

/-! ## One equation for each first token -/

theorem expr_forms (t : Token) :
    (∀ ts, reading (expr (t :: ts)) = (reading (expr ts)).yields (.print none)) ∨
    (∀ ts, reading (expr (t :: ts)) = (reading (place .load ts)).andThen fun target rest =>
      (reading (expr rest)).yields (.print (some target))) ∨
    (∀ ts, reading (expr (t :: ts)) = (reading (place .load ts)).yields .close) ∨
    (∀ ts, reading (expr (t :: ts)) =
      (reading (clauses ts)).yields fun b => .choose b.1 b.2) ∨
    ∀ ts, reading (expr (t :: ts)) = reading (store (t :: ts)) := by
  by_cases hprint : t.kind = .print
  · refine .inl fun ts => ?_
    rw [expr, hprint]
    exact of_yields fun p => rfl
  by_cases hfile : t.kind = .fileWrite
  · refine .inr (.inl fun ts => ?_)
    rw [expr, hfile]
    exact of_bind fun p => of_yields fun q => rfl
  by_cases hpipe : t.kind = .pipe
  · refine .inr (.inr (.inl fun ts => ?_))
    rw [expr, hpipe]
    exact of_yields fun p => rfl
  by_cases hbrace : t.kind = .leftBrace
  · refine .inr (.inr (.inr (.inl fun ts => ?_)))
    rw [expr, hbrace]
    exact of_yields fun p => rfl
  refine .inr (.inr (.inr (.inr fun ts => ?_)))
  rw [expr]
  split <;> first | contradiction | rfl

theorem clauses_form (ts : List Token) :
    reading (clauses ts) = (reading (expr ts)).andThen afterCondition := by
  rw [clauses]
  refine of_bind ?_
  rintro ⟨condition, rest, h⟩
  cases rest with
  | nil => rfl
  | cons t rest =>
      dsimp only [afterCondition]
      split
      · rename_i ht
        rw [if_pos ht]
        refine of_bind fun p => ?_
        obtain ⟨result, rest₁, h₁⟩ := p
        cases rest₁ with
        | nil => rfl
        | cons s rest₁ =>
            dsimp only [afterResult]
            split
            · rename_i hs
              rw [if_pos hs]
              exact of_yields fun p => rfl
            · rename_i hs
              rw [hs]
              rfl
            · rename_i hpipe hbrace
              rw [if_neg hpipe, if_neg hbrace]
              rfl
      · rename_i ht
        rw [ht]
        rfl
      · rename_i hcomma hbrace
        rw [if_neg hcomma, if_neg hbrace]
        rfl

theorem store_forms (t : Token) :
    (∀ ts, reading (store (t :: ts)) = (readingOn (target? ts)).yields (.store .prompt)) ∨
    (∀ ts, reading (store (t :: ts)) = (reading (place .load ts)).andThen fun handle rest =>
      (readingOn (target? rest)).yields (.store (.fileLine handle))) ∨
    (∃ access, ∀ ts, reading (store (t :: ts)) =
      (reading (chain .logic ts)).andThen (afterPath t access)) ∨
    ∀ ts, reading (store (t :: ts)) = (reading (chain .logic (t :: ts))).andThen fun m rest =>
      (readingOn (target? rest)).yields (.store (.math m)) := by
  have hopening : ∀ access ts, reading (opening access t ts) =
      (reading (chain .logic ts)).andThen (afterPath t access) := by
    intro access ts
    rw [opening]
    refine of_bind ?_
    rintro ⟨path, rest, h⟩
    cases rest with
    | nil =>
        dsimp only [afterPath]
        rw [target?]
        rfl
    | cons s rest =>
        dsimp only [afterPath]
        rw [target?]
        split
        · cases place .store (s :: rest) <;> rfl
        · rfl
  by_cases hprompt : t.kind = .prompt
  · refine .inl fun ts => ?_
    rw [store, hprompt]
    exact of_yields fun p => rfl
  by_cases hread : t.kind = .fileRead
  · refine .inr (.inl fun ts => ?_)
    rw [store, hread]
    exact of_bind fun p => of_yields fun q => rfl
  by_cases hopen : t.kind = .openRead
  · refine .inr (.inr (.inl ⟨.read, fun ts => ?_⟩))
    rw [store, hopen]
    exact hopening .read ts
  by_cases hopen' : t.kind = .openWrite
  · refine .inr (.inr (.inl ⟨.write, fun ts => ?_⟩))
    rw [store, hopen']
    exact hopening .write ts
  refine .inr (.inr (.inr fun ts => ?_))
  rw [store]
  split <;> first | contradiction | exact of_bind fun p => of_yields fun q => rfl

theorem target?_forms (t : Token) :
    (t.kind = .store ∧ ∀ ts, readingOn (target? (t :: ts)) =
      (reading (place .store (t :: ts))).yields some) ∨
    (t.kind ≠ .store ∧ ∀ ts, readingOn (target? (t :: ts)) = .ok (none, t :: ts)) := by
  by_cases hstore : t.kind = .store
  · refine .inl ⟨hstore, fun ts => ?_⟩
    rw [target?, if_pos hstore]
    exact of_yields fun p => rfl
  · refine .inr ⟨hstore, fun ts => ?_⟩
    rw [target?, if_neg hstore]
    rfl

theorem chain_form (level : Level) (ts : List Token) :
    reading (chain level ts) = (reading (operand level ts)).andThen fun first rest =>
      readingOn (chainFrom level first rest) := by
  rw [chain]
  refine of_bind ?_
  rintro ⟨first, rest, h⟩
  dsimp only
  cases chainFrom level first rest <;> rfl

theorem chainFrom_forms (level : Level) (left : Math) (t : Token) :
    (level.operator? t.kind = none ∧
      ∀ ts, readingOn (chainFrom level left (t :: ts)) = .ok (left, t :: ts)) ∨
    ∃ op, ∀ ts, readingOn (chainFrom level left (t :: ts)) =
      (reading (operand level ts)).andThen fun right rest =>
        readingOn (chainFrom level (.binary op left right) rest) := by
  cases hop : level.operator? t.kind with
  | none =>
      refine .inl ⟨rfl, fun ts => ?_⟩
      rw [chainFrom, hop]
      rfl
  | some op =>
      refine .inr ⟨op, fun ts => ?_⟩
      rw [chainFrom, hop]
      refine of_bind ?_
      rintro ⟨right, rest, h⟩
      dsimp only
      cases chainFrom level (.binary op left right) rest <;> rfl

theorem unary_forms (t : Token) :
    (∃ op, ∀ ts, reading (unary (t :: ts)) = (reading (term ts)).yields (.unary op)) ∨
    ∀ ts, reading (unary (t :: ts)) = (reading (term (t :: ts))).yields .term := by
  cases hop : unary? t.kind with
  | some op =>
      refine .inl ⟨op, fun ts => ?_⟩
      rw [unary, hop]
      exact of_yields fun p => rfl
  | none =>
      refine .inr fun ts => ?_
      rw [unary, hop]
      exact of_yields fun p => rfl

theorem term_forms (t : Token) :
    (∀ ts, reading (term (t :: ts)) = (reading (place .load (t :: ts))).andThen fun p rest =>
      (readingOn (modifiers false .empty rest)).yields fun draft => ⟨.load p, draft.modifiers⟩) ∨
    (∀ ts, reading (term (t :: ts)) = (reading (items ts)).andThen fun es rest =>
      (readingOn (modifiers false .empty rest)).yields fun draft => ⟨.list es, draft.modifiers⟩) ∨
    ∀ ts, reading (term (t :: ts)) = (reading (atom (t :: ts))).andThen afterCount := by
  by_cases hload : t.kind = .load
  · refine .inl fun ts => ?_
    rw [term, hload]
    exact of_bind fun p => of_yields fun q => rfl
  by_cases hbracket : t.kind = .leftBracket
  · refine .inr (.inl fun ts => ?_)
    rw [term, hbracket]
    exact of_bind fun p => of_yields fun q => rfl
  refine .inr (.inr fun ts => ?_)
  rw [term]
  split
  iterate 2 contradiction
  refine of_bind ?_
  rintro ⟨count, rest, h⟩
  cases rest with
  | nil => rfl
  | cons d rest =>
      dsimp only [afterCount]
      split
      · exact of_bind fun q => of_yields fun q => rfl
      · exact of_yields fun q => rfl

theorem items_forms (t : Token) :
    (∀ ts, reading (items (t :: ts)) = .ok ([], ts)) ∨
    ∀ ts, reading (items (t :: ts)) = (reading (expr (t :: ts))).andThen fun e rest =>
      (reading (items rest)).yields (e :: ·) := by
  by_cases hbracket : t.kind = .rightBracket
  · refine .inl fun ts => ?_
    rw [items, if_pos hbracket]
    rfl
  · refine .inr fun ts => ?_
    rw [items, if_neg hbracket]
    exact of_bind fun p => of_yields fun q => rfl

theorem atom_forms (t : Token) :
    (∃ x, ∀ ts, reading (atom (t :: ts)) = .ok (.number x, ts)) ∨
    (∃ cause, ∀ ts, reading (atom (t :: ts)) = .error (.unexpected t cause)) ∨
    ∀ ts, reading (atom (t :: ts)) = (reading (expr ts)).andThen afterGroup := by
  by_cases hnumber : t.kind = .number
  · cases hx : number? t.text with
    | some x =>
        refine .inl ⟨x, fun ts => ?_⟩
        rw [atom, hnumber]
        dsimp only
        rw [hx]
        rfl
    | none =>
        refine .inr (.inl ⟨.malformedNumber, fun ts => ?_⟩)
        rw [atom, hnumber]
        dsimp only
        rw [hx]
        rfl
  by_cases hparen : t.kind = .leftParen
  · refine .inr (.inr fun ts => ?_)
    rw [atom, hparen]
    refine of_bind ?_
    rintro ⟨e, rest, h⟩
    cases rest with
    | nil => rfl
    | cons s rest =>
        dsimp only [afterGroup]
        split <;> rfl
  by_cases hunknown : t.kind = .unknown
  · refine .inr (.inl ⟨.unrecognised, fun ts => ?_⟩)
    rw [atom, hunknown]
    rfl
  refine .inr (.inl ⟨.expectedAtom, fun ts => ?_⟩)
  rw [atom]
  split <;> first | contradiction | rfl

theorem modifiers_forms (rolled : Bool) (draft : Draft) (t : Token) :
    (role? t.kind = none ∧
      ∀ ts, readingOn (modifiers rolled draft (t :: ts)) = .ok (draft, t :: ts)) ∨
    (∃ cause, ∀ ts, readingOn (modifiers rolled draft (t :: ts)) =
      .error (.unexpected t cause)) ∨
    (∃ draft', ∀ ts, readingOn (modifiers rolled draft (t :: ts)) =
      readingOn (modifiers rolled draft' ts)) ∨
    (∃ draft' : Comparison → Draft, ∀ ts, readingOn (modifiers rolled draft (t :: ts)) =
      (reading (condition ts)).andThen fun c rest =>
        readingOn (modifiers rolled (draft' c) rest)) ∨
    (∃ draft' : Comparison → Draft, ∀ ts, readingOn (modifiers rolled draft (t :: ts)) =
      (reading (condition (t :: ts))).andThen fun c rest =>
        readingOn (modifiers rolled (draft' c) rest)) ∨
    ∃ draft' : Atom → Draft, ∀ ts, readingOn (modifiers rolled draft (t :: ts)) =
      (reading (atom ts)).andThen fun count rest =>
        readingOn (modifiers rolled (draft' count) rest) := by
  cases hrole : role? t.kind with
  | none =>
      refine .inl ⟨rfl, fun ts => ?_⟩
      rw [modifiers, hrole]
      rfl
  | some role =>
      cases role with
      | sort order =>
          by_cases hsort : draft.sort.isSome = true
          · refine .inr (.inl ⟨.repeated .sort, fun ts => ?_⟩)
            rw [modifiers, hrole]
            dsimp only
            rw [if_pos hsort]
            rfl
          · refine .inr (.inr (.inl ⟨{ draft with sort := some order }, fun ts => ?_⟩))
            rw [modifiers, hrole]
            dsimp only
            rw [if_neg hsort]
            exact readingOn_relax _
      | reroll once =>
          by_cases hreroll : draft.reroll.isSome = true
          · refine .inr (.inl ⟨.repeated .reroll, fun ts => ?_⟩)
            rw [modifiers, hrole]
            dsimp only
            rw [if_pos hreroll]
            rfl
          by_cases hrolled : (!rolled) = true
          · refine .inr (.inl ⟨.rerollWithoutRoll, fun ts => ?_⟩)
            rw [modifiers, hrole]
            dsimp only
            rw [if_neg hreroll, if_pos hrolled]
            rfl
          · refine .inr (.inr (.inr (.inl
              ⟨fun c => { draft with reroll := some ⟨once, c⟩ }, fun ts => ?_⟩)))
            rw [modifiers, hrole]
            dsimp only
            rw [if_neg hreroll, if_neg hrolled]
            exact of_bind fun _ => readingOn_relax _
      | check =>
          by_cases hcheck : draft.check.isSome = true
          · refine .inr (.inl ⟨.repeated .check, fun ts => ?_⟩)
            rw [modifiers, hrole]
            dsimp only
            rw [if_pos hcheck]
            rfl
          · refine .inr (.inr (.inr (.inr (.inl
              ⟨fun c => { draft with check := some c }, fun ts => ?_⟩))))
            rw [modifiers, hrole]
            dsimp only
            rw [if_neg hcheck]
            exact of_bind fun _ => readingOn_relax _
      | select selector =>
          by_cases hselect : draft.select.isSome = true
          · refine .inr (.inl ⟨.repeated .select, fun ts => ?_⟩)
            rw [modifiers, hrole]
            dsimp only
            rw [if_pos hselect]
            rfl
          · refine .inr (.inr (.inr (.inr (.inr
              ⟨fun count => { draft with select := some ⟨selector, count⟩ }, fun ts => ?_⟩))))
            rw [modifiers, hrole]
            dsimp only
            rw [if_neg hselect]
            exact of_bind fun _ => readingOn_relax _

theorem condition_forms (t : Token) :
    (∃ relation, ∀ ts, reading (condition (t :: ts)) =
      (reading (atom ts)).yields fun threshold => ⟨relation, threshold⟩) ∨
    ∀ ts, reading (condition (t :: ts)) =
      (reading (atom (t :: ts))).yields fun threshold => ⟨.equal, threshold⟩ := by
  cases hrelation : relation? t.kind with
  | some relation =>
      refine .inl ⟨relation, fun ts => ?_⟩
      rw [condition, hrelation]
      exact of_yields fun p => rfl
  | none =>
      refine .inr fun ts => ?_
      rw [condition, hrelation]
      exact of_yields fun p => rfl

theorem place_forms (marker : TokenKind) (t : Token) :
    (∀ ts, reading (place marker (t :: ts)) = .error (.unexpected t (.expected marker))) ∨
    t.kind = marker ∧
      ∀ ts, reading (place marker (t :: ts)) = (reading (atom ts)).andThen (afterCoordinate t) := by
  by_cases hmarker : t.kind = marker
  · refine .inr ⟨hmarker, fun ts => ?_⟩
    rw [place, if_neg (not_not_intro hmarker)]
    refine of_bind ?_
    rintro ⟨count, rest, h⟩
    cases rest with
    | nil =>
        cases count with
        | number x => rfl
        | group e => exact reading_grouped t e [] _
    | cons s rest =>
        cases count with
        | number x =>
            dsimp only [afterCoordinate]
            split
            · exact of_yields fun p => rfl
            · rfl
        | group e =>
            dsimp only [afterCoordinate]
            split
            · exact of_yields fun p => rfl
            · exact reading_grouped t e (s :: rest) _
  · refine .inl fun ts => ?_
    rw [place, if_pos hmarker]
    rfl

end DiceScript.Parser
