import DiceScript.Proofs.Syntax.Readings

/-!
# Parsing call by call

The parser as a machine without recursion. Its state is the work that is left: a call of one of the
functions, and what follows upon the result of the call. One step puts what the called function has
to do in the place of its call. When no call is left, the machine has read what the parser reads.
-/

namespace DiceScript.Parser

open Reading

/-- The functions of the parser. The whole of it is `program`. -/
inductive Routine where
  | program
  | items
  | clauses
  | expr
  | store
  | opening
  | target
  | chain (level : Level)
  | operand (level : Level)
  | chainFrom (level : Level)
  | unary
  | term
  | atom
  | modifiers
  | condition
  | place

namespace Routine

/-- What a function is given besides tokens. -/
@[reducible] def Argument : Routine → Type
  | opening => Access × Token
  | chainFrom _ => Math
  | modifiers => Bool × Draft
  | place => TokenKind
  | _ => Unit

@[reducible] def Result : Routine → Type
  | program | items => List Expr
  | clauses => List Clause × Option Expr
  | expr | store | opening => Expr
  | target => Option Place
  | chain _ | operand _ | chainFrom _ | unary => Math
  | term => Term
  | atom => Atom
  | modifiers => Draft
  | condition => Comparison
  | place => Place

/-- What the parser reads and leaves. A whole list leaves nothing. -/
def read : (f : Routine) → f.Argument → List Token → Reading f.Result
  | program, _, ts => .of id (fun _ => []) (exprs ts)
  | items, _, ts => reading (Parser.items ts)
  | clauses, _, ts => reading (Parser.clauses ts)
  | expr, _, ts => reading (Parser.expr ts)
  | store, _, ts => reading (Parser.store ts)
  | opening, (access, t), ts => reading (Parser.opening access t ts)
  | target, _, ts => readingOn (Parser.target? ts)
  | chain level, _, ts => reading (Parser.chain level ts)
  | operand level, _, ts => reading (Parser.operand level ts)
  | chainFrom level, left, ts => readingOn (Parser.chainFrom level left ts)
  | unary, _, ts => reading (Parser.unary ts)
  | term, _, ts => reading (Parser.term ts)
  | atom, _, ts => reading (Parser.atom ts)
  | modifiers, (rolled, draft), ts => readingOn (Parser.modifiers rolled draft ts)
  | condition, _, ts => reading (Parser.condition ts)
  | place, marker, ts => reading (Parser.place marker ts)

end Routine

/-- The work that is left: none, since a value was read or the tokens were refused, or a call and
what follows upon its result. -/
inductive Work (α : Type) where
  | done (a : α) (rest : List Token)
  | refused (r : Refusal)
  | call (f : Routine) (x : f.Argument) (ts : List Token) (next : f.Result → List Token → Work α)

namespace Work

variable {α β : Type}

def andThen : Work α → (α → List Token → Work β) → Work β
  | done a rest, k => k a rest
  | refused r, _ => refused r
  | call f x ts next, k => call f x ts fun a rest => (next a rest).andThen k

/-! ## What each function has to do -/

def program : List Token → Work (List Expr)
  | [] => .done [] []
  | t :: rest =>
    .call .expr () (t :: rest) fun e rest₁ =>
      .call .program () rest₁ fun es rest₂ => .done (e :: es) rest₂

def items : List Token → Work (List Expr)
  | [] => .refused .endOfInput
  | t :: rest =>
    if t.kind = .rightBracket then .done [] rest
    else
      .call .expr () (t :: rest) fun e rest₁ =>
        .call .items () rest₁ fun es rest₂ => .done (e :: es) rest₂

/-- Behind the result of a clause. -/
def afterResult (condition result : Expr) : List Token → Work (List Clause × Option Expr)
  | [] => .refused .endOfInput
  | s :: rest =>
    match s.kind with
    | .pipe =>
      .call .clauses () rest fun b rest₁ => .done (⟨condition, result⟩ :: b.1, b.2) rest₁
    | .rightBrace => .done ([⟨condition, result⟩], none) rest
    | _ => .refused (.unexpected s .expectedSeparator)

/-- Behind the condition of a clause, or the expression that a block ends with. -/
def afterCondition (condition : Expr) : List Token → Work (List Clause × Option Expr)
  | [] => .refused .endOfInput
  | t :: rest =>
    match t.kind with
    | .comma => .call .expr () rest (afterResult condition)
    | .rightBrace => .done ([], some condition) rest
    | _ => .refused (.unexpected t .strayInBlock)

def clauses (ts : List Token) : Work (List Clause × Option Expr) :=
  .call .expr () ts afterCondition

def expr : List Token → Work Expr
  | [] => .refused .endOfInput
  | t :: rest =>
    match t.kind with
    | .print => .call .expr () rest fun value rest₁ => .done (.print none value) rest₁
    | .fileWrite =>
      .call .place .load rest fun target rest₁ =>
        .call .expr () rest₁ fun value rest₂ => .done (.print (some target) value) rest₂
    | .pipe => .call .place .load rest fun handle rest₁ => .done (.close handle) rest₁
    | .leftBrace => .call .clauses () rest fun b rest₁ => .done (.choose b.1 b.2) rest₁
    | _ => .call .store () (t :: rest) .done

def store : List Token → Work Expr
  | [] => .refused .endOfInput
  | t :: rest =>
    match t.kind with
    | .prompt => .call .target () rest fun target rest₁ => .done (.store .prompt target) rest₁
    | .fileRead =>
      .call .place .load rest fun handle rest₁ =>
        .call .target () rest₁ fun target rest₂ => .done (.store (.fileLine handle) target) rest₂
    | .openRead => .call .opening (.read, t) rest .done
    | .openWrite => .call .opening (.write, t) rest .done
    | _ =>
      .call (.chain .logic) () (t :: rest) fun m rest₁ =>
        .call .target () rest₁ fun target rest₂ => .done (.store (.math m) target) rest₂

def opening (access : Access) (t : Token) (ts : List Token) : Work Expr :=
  .call (.chain .logic) () ts fun path rest₁ =>
    .call .target () rest₁ fun target rest₂ =>
      match target with
      | some handle => .done (.openFile access path handle) rest₂
      | none => .refused (.unexpected t .openWithoutHandle)

def target : List Token → Work (Option Place)
  | [] => .done none []
  | t :: rest =>
    if t.kind = .store then .call .place .store (t :: rest) fun p rest₁ => .done (some p) rest₁
    else .done none (t :: rest)

def chain (level : Level) (ts : List Token) : Work Math :=
  .call (.operand level) () ts fun first rest₁ => .call (.chainFrom level) first rest₁ .done

def operand (level : Level) (ts : List Token) : Work Math :=
  match level with
  | .logic => .call (.chain .sum) () ts .done
  | .sum => .call (.chain .product) () ts .done
  | .product => .call .unary () ts .done

def chainFrom (level : Level) (left : Math) : List Token → Work Math
  | [] => .done left []
  | t :: rest =>
    match level.operator? t.kind with
    | none => .done left (t :: rest)
    | some op =>
      .call (.operand level) () rest fun right rest₁ =>
        .call (.chainFrom level) (.binary op left right) rest₁ .done

def unary : List Token → Work Math
  | [] => .refused .endOfInput
  | t :: rest =>
    match unary? t.kind with
    | some op => .call .term () rest fun value rest₁ => .done (.unary op value) rest₁
    | none => .call .term () (t :: rest) fun value rest₁ => .done (.term value) rest₁

def term : List Token → Work Term
  | [] => .refused .endOfInput
  | t :: rest =>
    match t.kind with
    | .load =>
      .call .place .load (t :: rest) fun p rest₁ =>
        .call .modifiers (false, .empty) rest₁ fun draft rest₂ =>
          .done ⟨.load p, draft.modifiers⟩ rest₂
    | .leftBracket =>
      .call .items () rest fun es rest₁ =>
        .call .modifiers (false, .empty) rest₁ fun draft rest₂ =>
          .done ⟨.list es, draft.modifiers⟩ rest₂
    | _ =>
      .call .atom () (t :: rest) fun count ts₁ =>
        match ts₁ with
        | [] => .done ⟨.atom count, .none⟩ []
        | d :: rest₁ =>
          if d.kind = .roll then
            .call .atom () rest₁ fun sides rest₂ =>
              .call .modifiers (true, .empty) rest₂ fun draft rest₃ =>
                .done ⟨.roll count sides draft.reroll, draft.modifiers⟩ rest₃
          else
            .call .modifiers (false, .empty) (d :: rest₁) fun draft rest₂ =>
              .done ⟨.atom count, draft.modifiers⟩ rest₂

def atom : List Token → Work Atom
  | [] => .refused .endOfInput
  | t :: rest =>
    match t.kind with
    | .number =>
      match number? t.text with
      | some x => .done (.number x) rest
      | none => .refused (.unexpected t .malformedNumber)
    | .leftParen =>
      .call .expr () rest fun e ts₁ =>
        match ts₁ with
        | [] => .refused .endOfInput
        | s :: rest₁ =>
          if s.kind = .rightParen then .done (.group e) rest₁
          else .refused (.unexpected s (.expected .rightParen))
    | .unknown => .refused (.unexpected t .unrecognised)
    | _ => .refused (.unexpected t .expectedAtom)

def modifiers (rolled : Bool) (draft : Draft) : List Token → Work Draft
  | [] => .done draft []
  | t :: rest =>
    match role? t.kind with
    | some (.sort order) =>
      if draft.sort.isSome then .refused (.unexpected t (.repeated .sort))
      else .call .modifiers (rolled, { draft with sort := some order }) rest .done
    | some (.reroll once) =>
      if draft.reroll.isSome then .refused (.unexpected t (.repeated .reroll))
      else if !rolled then .refused (.unexpected t .rerollWithoutRoll)
      else
        .call .condition () rest fun c rest₁ =>
          .call .modifiers (rolled, { draft with reroll := some ⟨once, c⟩ }) rest₁ .done
    | some .check =>
      if draft.check.isSome then .refused (.unexpected t (.repeated .check))
      else
        .call .condition () (t :: rest) fun c rest₁ =>
          .call .modifiers (rolled, { draft with check := some c }) rest₁ .done
    | some (.select selector) =>
      if draft.select.isSome then .refused (.unexpected t (.repeated .select))
      else
        .call .atom () rest fun count rest₁ =>
          .call .modifiers (rolled, { draft with select := some ⟨selector, count⟩ }) rest₁ .done
    | none => .done draft (t :: rest)

def condition : List Token → Work Comparison
  | [] => .refused .endOfInput
  | t :: rest =>
    match relation? t.kind with
    | some relation =>
      .call .atom () rest fun threshold rest₁ => .done ⟨relation, threshold⟩ rest₁
    | none => .call .atom () (t :: rest) fun threshold rest₁ => .done ⟨.equal, threshold⟩ rest₁

/-- The place that a parenthesised expression behind the marker `t` stands for. -/
def grouped (t : Token) (e : Expr) (rest : List Token) : Work Place :=
  match e.place? with
  | some p => .done p rest
  | none => .refused (.unexpected t .notAReference)

def place (marker : TokenKind) : List Token → Work Place
  | [] => .refused .endOfInput
  | t :: rest =>
    if t.kind ≠ marker then .refused (.unexpected t (.expected marker))
    else
      .call .atom () rest fun count ts₁ =>
        match count, ts₁ with
        | .group e, [] => grouped t e []
        | .number _, [] => .refused .endOfInput
        | count, s :: rest₁ =>
          if s.kind = .roll then
            .call .atom () rest₁ fun sides rest₂ => .done ⟨count, sides⟩ rest₂
          else
            match count with
            | .group e => grouped t e (s :: rest₁)
            | .number _ => .refused (.unexpected s .expectedRoll)

end Work

/-- What a function has to do, up to the calls it makes. -/
def Routine.work : (f : Routine) → f.Argument → List Token → Work f.Result
  | program, _, ts => Work.program ts
  | items, _, ts => Work.items ts
  | clauses, _, ts => Work.clauses ts
  | expr, _, ts => Work.expr ts
  | store, _, ts => Work.store ts
  | opening, (access, t), ts => Work.opening access t ts
  | target, _, ts => Work.target ts
  | chain level, _, ts => Work.chain level ts
  | operand level, _, ts => Work.operand level ts
  | chainFrom level, left, ts => Work.chainFrom level left ts
  | unary, _, ts => Work.unary ts
  | term, _, ts => Work.term ts
  | atom, _, ts => Work.atom ts
  | modifiers, (rolled, draft), ts => Work.modifiers rolled draft ts
  | condition, _, ts => Work.condition ts
  | place, marker, ts => Work.place marker ts

namespace Work

variable {α β : Type}

/-- The call at hand gives way to what the called function has to do. -/
def step : Work α → Work α
  | call f x ts next => (f.work x ts).andThen next
  | w => w

def after (w : Work α) : Nat → Work α
  | 0 => w
  | n + 1 => w.step.after n

/-- The call of a function, and nothing behind it. -/
def start (f : Routine) (x : f.Argument) (ts : List Token) : Work f.Result :=
  .call f x ts .done

/-- The function that is called next, and the tokens it is given. -/
def callee? : Work α → Option (Routine × List Token)
  | call f _ ts _ => some (f, ts)
  | _ => none

/-- The tokens ahead of the cursor, unless they were refused. -/
def ahead? : Work α → Option (List Token)
  | done _ rest => some rest
  | refused _ => none
  | call _ _ ts _ => some ts

theorem eq_call {w : Work α} {f : Routine} {ts : List Token} (h : w.callee? = some (f, ts)) :
    ∃ x next, w = call f x ts next := by
  cases w with
  | call g x us next =>
      cases h
      exact ⟨x, next, rfl⟩
  | done a rest => cases h
  | refused r => cases h

theorem ahead?_of_callee? {w : Work α} {f : Routine} {ts : List Token}
    (h : w.callee? = some (f, ts)) : w.ahead? = some ts := by
  obtain ⟨x, next, rfl⟩ := eq_call h
  rfl

theorem after_add (w : Work α) (m n : Nat) : w.after (m + n) = (w.after m).after n := by
  induction m generalizing w with
  | zero => rw [Nat.zero_add, after]
  | succ m ih => rw [Nat.succ_add, after, ih, after]

/-- Nothing happens when no call is left. -/
theorem after_eq_self {w : Work α} (h : w.callee? = none) (n : Nat) : w.after n = w := by
  have hstep : w.step = w := by
    cases w with
    | done a rest => rfl
    | refused r => rfl
    | call f x ts next => cases h
  induction n with
  | zero => rfl
  | succ n ih => rw [after, hstep, ih]

/-! ## The machine reads what the parser reads -/

/-- No work is left behind a reading. -/
def ofReading : Reading α → Work α
  | .ok (a, rest) => .done a rest
  | .error r => .refused r

/-- What the work comes to when every function reads what the parser does. -/
def outcome : Work α → Reading α
  | done a rest => .ok (a, rest)
  | refused r => .error r
  | call f x ts next => (f.read x ts).andThen fun a rest => (next a rest).outcome

theorem eq_ofReading {w : Work α} (h : w.callee? = none) : w = ofReading w.outcome := by
  cases w with
  | done a rest => rfl
  | refused r => rfl
  | call f x ts next => cases h

theorem outcome_andThen (w : Work α) (k : α → List Token → Work β) :
    (w.andThen k).outcome = w.outcome.andThen fun a rest => (k a rest).outcome := by
  induction w with
  | done a rest => rfl
  | refused r => rfl
  | call f x ts next ih =>
      simp only [andThen, outcome, ih]
      cases f.read x ts with
      | ok p => rfl
      | error r => rfl

theorem outcome_last (f : Routine) (x : f.Argument) (ts : List Token) :
    (call f x ts .done).outcome = f.read x ts := by
  dsimp only [outcome]
  cases f.read x ts <;> rfl

theorem outcome_yields (f : Routine) (x : f.Argument) (ts : List Token) (g : f.Result → β) :
    (call f x ts fun a rest => .done (g a) rest).outcome = (f.read x ts).yields g := by
  dsimp only [outcome]
  cases f.read x ts <;> rfl

theorem outcome_program : ∀ ts : List Token,
    (Work.program ts).outcome = Routine.read .program () ts
  | [] => by
    dsimp only [Routine.read]
    rw [exprs]
    rfl
  | t :: rest => by
    dsimp only [Routine.read]
    rw [exprs]
    exact (of_bind fun p => of_bind fun q => rfl).symm

theorem outcome_items : ∀ ts : List Token, (Work.items ts).outcome = reading (Parser.items ts)
  | [] => by
    rw [Parser.items]
    rfl
  | t :: rest => by
    rw [Parser.items, Work.items]
    split
    · rfl
    · exact (of_bind fun p => of_bind fun q => rfl).symm

theorem outcome_afterResult (condition result : Expr) : ∀ ts : List Token,
    (Work.afterResult condition result ts).outcome = Parser.afterResult condition result ts
  | [] => rfl
  | s :: rest => by
    rw [Work.afterResult]
    split
    · rename_i hs
      rw [Parser.afterResult, if_pos hs]
      exact outcome_yields .clauses () rest _
    · rename_i hs
      rw [Parser.afterResult, hs]
      rfl
    · rename_i hpipe hbrace
      rw [Parser.afterResult, if_neg hpipe, if_neg hbrace]
      rfl

theorem outcome_afterCondition (condition : Expr) : ∀ ts : List Token,
    (Work.afterCondition condition ts).outcome = Parser.afterCondition condition ts
  | [] => rfl
  | t :: rest => by
    rw [Work.afterCondition]
    split
    · rename_i ht
      rw [Parser.afterCondition, if_pos ht]
      dsimp only [outcome]
      simp only [outcome_afterResult]
      rfl
    · rename_i ht
      rw [Parser.afterCondition, ht]
      rfl
    · rename_i hcomma hbrace
      rw [Parser.afterCondition, if_neg hcomma, if_neg hbrace]
      rfl

theorem outcome_clauses (ts : List Token) :
    (Work.clauses ts).outcome = reading (Parser.clauses ts) := by
  rw [clauses_form]
  dsimp only [Work.clauses, outcome]
  simp only [outcome_afterCondition]
  rfl

theorem outcome_expr : ∀ ts : List Token, (Work.expr ts).outcome = reading (Parser.expr ts)
  | [] => by
    rw [Parser.expr]
    rfl
  | t :: rest => by
    rw [Work.expr]
    split
    · rename_i ht
      rw [Parser.expr, ht]
      exact (of_bind fun p => rfl).symm
    · rename_i ht
      rw [Parser.expr, ht]
      exact (of_bind fun p => of_bind fun q => rfl).symm
    · rename_i ht
      rw [Parser.expr, ht]
      exact (of_bind fun p => rfl).symm
    · rename_i ht
      rw [Parser.expr, ht]
      exact (of_bind fun p => rfl).symm
    · rw [Parser.expr]
      split <;> first | contradiction | exact outcome_last .store () (t :: rest)

theorem outcome_store : ∀ ts : List Token, (Work.store ts).outcome = reading (Parser.store ts)
  | [] => by
    rw [Parser.store]
    rfl
  | t :: rest => by
    rw [Work.store]
    split
    · rename_i ht
      rw [Parser.store, ht]
      exact (of_bind fun p => rfl).symm
    · rename_i ht
      rw [Parser.store, ht]
      exact (of_bind fun p => of_bind fun q => rfl).symm
    · rename_i ht
      rw [Parser.store, ht]
      exact outcome_last .opening (.read, t) rest
    · rename_i ht
      rw [Parser.store, ht]
      exact outcome_last .opening (.write, t) rest
    · rw [Parser.store]
      split <;> first | contradiction | exact (of_bind fun p => of_bind fun q => rfl).symm

theorem outcome_opening (access : Access) (t : Token) (ts : List Token) :
    (Work.opening access t ts).outcome = reading (Parser.opening access t ts) := by
  rw [Parser.opening]
  refine (of_bind fun p => of_bind ?_).symm
  rintro ⟨target, rest, h⟩
  cases target <;> rfl

theorem outcome_target : ∀ ts : List Token,
    (Work.target ts).outcome = readingOn (Parser.target? ts)
  | [] => by
    rw [Parser.target?]
    rfl
  | t :: rest => by
    rw [Parser.target?, Work.target]
    split
    · exact (of_bind fun p => rfl).symm
    · rfl

theorem outcome_chain (level : Level) (ts : List Token) :
    (Work.chain level ts).outcome = reading (Parser.chain level ts) := by
  rw [Parser.chain]
  exact (of_bind fun p => of_bind fun q => rfl).symm

theorem outcome_operand (level : Level) (ts : List Token) :
    (Work.operand level ts).outcome = reading (Parser.operand level ts) := by
  cases level with
  | logic =>
      rw [Parser.operand]
      exact outcome_last (.chain .sum) () ts
  | sum =>
      rw [Parser.operand]
      exact outcome_last (.chain .product) () ts
  | product =>
      rw [Parser.operand]
      exact outcome_last .unary () ts

theorem outcome_chainFrom (level : Level) (left : Math) : ∀ ts : List Token,
    (Work.chainFrom level left ts).outcome = readingOn (Parser.chainFrom level left ts)
  | [] => by
    rw [Parser.chainFrom]
    rfl
  | t :: rest => by
    rw [Parser.chainFrom, Work.chainFrom]
    cases level.operator? t.kind with
    | none => rfl
    | some op => exact (of_bind fun p => of_bind fun q => rfl).symm

theorem outcome_unary : ∀ ts : List Token, (Work.unary ts).outcome = reading (Parser.unary ts)
  | [] => by
    rw [Parser.unary]
    rfl
  | t :: rest => by
    rw [Parser.unary, Work.unary]
    cases unary? t.kind with
    | some op => exact (of_bind fun p => rfl).symm
    | none => exact (of_bind fun p => rfl).symm

theorem outcome_term : ∀ ts : List Token, (Work.term ts).outcome = reading (Parser.term ts)
  | [] => by
    rw [Parser.term]
    rfl
  | t :: rest => by
    rw [Work.term]
    split
    · rename_i ht
      rw [Parser.term, ht]
      exact (of_bind fun p => of_bind fun q => rfl).symm
    · rename_i ht
      rw [Parser.term, ht]
      exact (of_bind fun p => of_bind fun q => rfl).symm
    · rw [Parser.term]
      split
      iterate 2 contradiction
      refine (of_bind ?_).symm
      rintro ⟨count, rest₁, h₁⟩
      cases rest₁ with
      | nil => rfl
      | cons d rest₁ =>
          dsimp only
          split
          · exact of_bind fun p => of_bind fun q => rfl
          · exact of_bind fun p => rfl

theorem outcome_atom : ∀ ts : List Token, (Work.atom ts).outcome = reading (Parser.atom ts)
  | [] => by
    rw [Parser.atom]
    rfl
  | t :: rest => by
    rw [Work.atom]
    split
    · rename_i ht
      rw [Parser.atom, ht]
      dsimp only
      cases number? t.text <;> rfl
    · rename_i ht
      rw [Parser.atom, ht]
      refine (of_bind ?_).symm
      rintro ⟨e, rest₁, h₁⟩
      cases rest₁ with
      | nil => rfl
      | cons s rest₁ =>
          dsimp only
          split <;> rfl
    · rename_i ht
      rw [Parser.atom, ht]
      rfl
    · rw [Parser.atom]
      split <;> first | contradiction | rfl

theorem outcome_modifiers (rolled : Bool) (draft : Draft) : ∀ ts : List Token,
    (Work.modifiers rolled draft ts).outcome = readingOn (Parser.modifiers rolled draft ts)
  | [] => by
    rw [Parser.modifiers]
    rfl
  | t :: rest => by
    rw [Parser.modifiers, Work.modifiers]
    cases role? t.kind with
    | none => rfl
    | some role =>
        cases role with
        | sort order =>
            dsimp only
            split
            · rfl
            · exact (of_bind fun p => rfl).symm
        | reroll once =>
            dsimp only
            split
            · rfl
            · split
              · rfl
              · exact (of_bind fun p => of_bind fun q => rfl).symm
        | check =>
            dsimp only
            split
            · rfl
            · exact (of_bind fun p => of_bind fun q => rfl).symm
        | select selector =>
            dsimp only
            split
            · rfl
            · exact (of_bind fun p => of_bind fun q => rfl).symm

theorem outcome_condition : ∀ ts : List Token,
    (Work.condition ts).outcome = reading (Parser.condition ts)
  | [] => by
    rw [Parser.condition]
    rfl
  | t :: rest => by
    rw [Parser.condition, Work.condition]
    cases relation? t.kind with
    | some relation => exact (of_bind fun p => rfl).symm
    | none => exact (of_bind fun p => rfl).symm

theorem outcome_grouped {ts rest : List Token} (t : Token) (e : Expr)
    (h : rest.length < ts.length) :
    (Work.grouped t e rest).outcome = reading (Parser.grouped t e rest h) := by
  unfold Work.grouped Parser.grouped
  cases e.place? <;> rfl

theorem outcome_place (marker : TokenKind) : ∀ ts : List Token,
    (Work.place marker ts).outcome = reading (Parser.place marker ts)
  | [] => by
    rw [Parser.place]
    rfl
  | t :: rest => by
    rw [Parser.place, Work.place]
    split
    · rfl
    · refine (of_bind ?_).symm
      rintro ⟨count, rest₁, h₁⟩
      cases rest₁ with
      | nil =>
          cases count with
          | number x => rfl
          | group e => exact (outcome_grouped t e _).symm
      | cons s rest₁ =>
          cases count with
          | number x =>
              dsimp only
              split
              · exact of_bind fun p => rfl
              · rfl
          | group e =>
              dsimp only
              split
              · exact of_bind fun p => rfl
              · exact (outcome_grouped t e _).symm

/-- What a function has to do comes to what the parser reads. -/
theorem outcome_work (f : Routine) (x : f.Argument) (ts : List Token) :
    (f.work x ts).outcome = f.read x ts := by
  cases f with
  | program => exact outcome_program ts
  | items => exact outcome_items ts
  | clauses => exact outcome_clauses ts
  | expr => exact outcome_expr ts
  | store => exact outcome_store ts
  | opening => exact outcome_opening x.1 x.2 ts
  | target => exact outcome_target ts
  | chain level => exact outcome_chain level ts
  | operand level => exact outcome_operand level ts
  | chainFrom level => exact outcome_chainFrom level x ts
  | unary => exact outcome_unary ts
  | term => exact outcome_term ts
  | atom => exact outcome_atom ts
  | modifiers => exact outcome_modifiers x.1 x.2 ts
  | condition => exact outcome_condition ts
  | place => exact outcome_place x ts

theorem outcome_step (w : Work α) : w.step.outcome = w.outcome := by
  cases w with
  | done a rest => rfl
  | refused r => rfl
  | call f x ts next =>
      dsimp only [step]
      rw [outcome_andThen, outcome_work]
      rfl

/-- No step changes what the work comes to. -/
theorem outcome_after (n : Nat) (w : Work α) : (w.after n).outcome = w.outcome := by
  induction n generalizing w with
  | zero => rfl
  | succ n ih => rw [after, ih, outcome_step]

end Work

end DiceScript.Parser
