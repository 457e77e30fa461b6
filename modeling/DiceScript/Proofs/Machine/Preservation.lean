import DiceScript.Proofs.Machine.Turns

/-!
# What no program breaks

A program reaches its state and its surroundings only through a few actions. A property of both that
none of these actions breaks holds after every instruction, and so all through a run of any program,
however the run ends.
-/

namespace DiceScript

namespace Outcome

/-- What is left in the end, whichever end it is. -/
def last {κ α : Type} : Outcome κ α → κ
  | done _ k => k
  | failed _ k => k

end Outcome

section Effects

variable {τ σ α β : Type}

/-- However the action ends, `I` holds then if it held before. -/
def Keeps (I : τ × σ → Prop) (x : ExceptT Fault (StateT τ (StateM σ)) α) : Prop :=
  ∀ s env, I (s, env) → I (outcome x s env).last

namespace Keeps

variable {I : τ × σ → Prop}

theorem pure (a : α) : Keeps I (Pure.pure a : ExceptT Fault (StateT τ (StateM σ)) α) := by
  intro s env hI
  exact hI

theorem throw (f : Fault) :
    Keeps I (MonadExcept.throw f : ExceptT Fault (StateT τ (StateM σ)) α) := by
  intro s env hI
  exact hI

theorem get : Keeps I (MonadState.get : ExceptT Fault (StateT τ (StateM σ)) τ) := by
  intro s env hI
  exact hI

theorem modifyGet {f : τ → α × τ} (hf : ∀ s env, I (s, env) → I ((f s).2, env)) :
    Keeps I (MonadState.modifyGet f : ExceptT Fault (StateT τ (StateM σ)) α) := by
  intro s env hI
  exact hf s env hI

theorem bind {x : ExceptT Fault (StateT τ (StateM σ)) α}
    {f : α → ExceptT Fault (StateT τ (StateM σ)) β} (hx : Keeps I x) (hf : ∀ a, Keeps I (f a)) :
    Keeps I (x >>= f) := by
  intro s env hI
  have hlast := hx s env hI
  rw [outcome_bind]
  cases hxo : outcome x s env with
  | failed e k =>
      rw [hxo] at hlast
      exact hlast
  | done a k =>
      rw [hxo] at hlast
      exact hf a k.1 k.2 hlast

/-- Both ways that a condition decides between. -/
theorem ite {c : Prop} [Decidable c] {x y : ExceptT Fault (StateT τ (StateM σ)) α}
    (hx : Keeps I x) (hy : Keeps I y) : Keeps I (if c then x else y) := by
  split
  · exact hx
  · exact hy

end Keeps

end Effects

variable {σ α : Type} {h : Host (StateM σ)} {limits : Limits}

/-- No action of a program breaks the property. -/
structure Stable (I : State h × σ → Prop) : Prop where
  random : ∀ s env g, I (s, env) → I ({ s with random := g }, env)
  heap : ∀ s env t, I (s, env) → I ({ s with heap := t }, env)
  clock : Keeps I (Action.ask h.clock)
  prompt : Keeps I Action.prompt
  print : ∀ v, Keeps I (Action.print v)
  openFile : ∀ access path r, Keeps I (Action.openFile access path r)
  filePrint : ∀ r v, Keeps I (Action.filePrint r v)
  fileRead : ∀ r, Keeps I (Action.fileRead r)
  close : ∀ r, Keeps I (Action.close r)

/-- The property holds of the state of a machine, whatever is on the stack. -/
def OnMachine (I : State h × σ → Prop) (k : Machine h × σ) : Prop :=
  I (k.1.toState, k.2)

/-- No action that leaves files alone breaks the property. -/
structure Quiet (I : State h × σ → Prop) : Prop where
  random : ∀ s env g, I (s, env) → I ({ s with random := g }, env)
  heap : ∀ s env t, I (s, env) → I ({ s with heap := t }, env)
  clock : Keeps I (Action.ask h.clock)
  prompt : Keeps I Action.prompt
  print : ∀ v, Keeps I (Action.print v)

/-- The instructions that work on files. -/
def Opcode.usesFiles : Opcode → Bool
  | openFile _ | filePrint | fileRead | close => true
  | _ => false

variable {I : State h × σ → Prop}

theorem Stable.quiet (hI : Stable I) : Quiet I :=
  ⟨hI.random, hI.heap, hI.clock, hI.prompt, hI.print⟩

namespace Action

theorem keeps_number (op : Opcode) (v : Value) : Keeps I (number op v) := by
  unfold number
  split
  · exact .pure _
  · exact .throw _

theorem keeps_pool (op : Opcode) (v : Value) : Keeps I (pool op v) := by
  unfold pool
  split
  · exact .pure _
  · exact .throw _

theorem keeps_load (r : Reference) : Keeps I (load r) :=
  .bind .get fun _ => .pure _

theorem keeps_handle? (r : Reference) : Keeps I (handle? r) :=
  .bind .get fun _ => .pure _

theorem keeps_answer (a : Except HostError α) : Keeps I (answer a : Action h α) := by
  cases a with
  | ok a => exact .pure a
  | error e => exact .throw _

theorem keeps_lineOf (line : Except HostError (Option String)) : Keeps I (lineOf line) := by
  unfold lineOf
  split
  · exact .pure _
  · exact .throw _
  · exact .throw _

theorem keeps_ask {x : StateM σ α} (hx : ∀ s env, I (s, env) → I (s, (x.run env).2)) :
    Keeps I (ask x) := by
  intro s env hI
  rw [outcome_ask]
  exact hx s env hI

end Action

namespace Quiet

open DiceScript.Action

/-- What is said of the open handles and of a part of the surroundings that the clock and the console
leave alone. -/
theorem of_handles {β : Type} {f : σ → β} (hclock : ∀ env, f (h.clock.run env).2 = f env)
    (hprompt : ∀ env, f (h.prompt.run env).2 = f env)
    (hprint : ∀ text env, f ((h.print text).run env).2 = f env)
    (P : Table Reference (Handle h) → β → Prop) :
    Quiet fun k : State h × σ => P k.1.handles (f k.2) where
  random := fun _ _ _ hs => hs
  heap := fun _ _ _ hs => hs
  clock := by
    refine keeps_ask fun s env hs => ?_
    rwa [hclock]
  prompt := by
    refine .bind (keeps_ask fun s env hs => ?_) fun line => keeps_lineOf line
    rwa [hprompt]
  print := by
    intro v
    refine .bind (keeps_ask fun s env hs => ?_) fun _ => ?_
    · rwa [hprint]
    · exact .bind (keeps_answer _) fun _ => .modifyGet fun _ _ hs => hs

theorem draw (hI : Quiet I) (f : Random → α × Random) : Keeps I (draw f) := by
  apply Keeps.modifyGet
  intro s env hs
  exact hI.random s env (f s.random).2 hs

theorem dieSides (sides : Double) : Keeps I (dieSides sides) :=
  .ite (.pure _) (.throw _)

theorem roll (hI : Quiet I) (count sides : Double) : Keeps I (roll limits count sides) := by
  unfold Action.roll
  refine .ite (.bind (.throw _) fun _ => ?_) ?_
  all_goals refine .ite (.bind (.throw _) fun _ => ?_) ?_
  all_goals exact .ite (.pure _) (.bind (dieSides _) fun _ => hI.draw _)

theorem reroll (hI : Quiet I) (once : Bool) (relation : Relation) (threshold sides : Double)
    (pool : Pool) : Keeps I (reroll limits once relation threshold sides pool) :=
  .bind (dieSides _) fun _ => hI.draw _

theorem store (hI : Quiet I) (r : Reference) (v : Value) : Keeps I (store r v) := by
  apply Keeps.modifyGet
  intro s env hs
  exact hI.heap s env _ hs

end Quiet

namespace Exec

theorem keeps_act {x : Action h α} (hx : Keeps I x) : Keeps (OnMachine I) (act x) := by
  intro s env hs
  have hlast := hx s.toState env hs
  rw [outcome_act]
  cases hxo : outcome x s.toState env with
  | done a k =>
      rw [hxo] at hlast
      exact hlast
  | failed f k =>
      rw [hxo] at hlast
      exact hlast

/-- The stack is not part of the state that programs act on. -/
theorem keeps_modify_stack (f : Machine h → List Value) :
    Keeps (OnMachine I) (modify fun s => { s with stack := f s } : Exec h PUnit) := by
  apply Keeps.modifyGet
  intro s env hs
  exact hs

theorem keeps_push (v : Value) : Keeps (OnMachine I) (push v) :=
  keeps_modify_stack _

theorem keeps_pop (op : Opcode) : Keeps (OnMachine I) (pop op) := by
  refine .bind .get fun s => ?_
  split
  · exact .throw _
  · exact .bind (keeps_modify_stack _) fun _ => .pure _

theorem keeps_popNumber (op : Opcode) : Keeps (OnMachine I) (popNumber op) :=
  .bind (keeps_pop op) fun v => keeps_act (Action.keeps_number op v)

theorem keeps_popPool (op : Opcode) : Keeps (OnMachine I) (popPool op) :=
  .bind (keeps_pop op) fun v => keeps_act (Action.keeps_pool op v)

theorem keeps_popReference (op : Opcode) : Keeps (OnMachine I) (popReference op) :=
  .bind (keeps_popNumber op) fun _ => .bind (keeps_popNumber op) fun _ => .pure _

theorem keeps_required (op : Opcode) (a : Option α) : Keeps (OnMachine I) (required op a) := by
  cases a with
  | some a => exact .pure a
  | none => exact .throw _

end Exec

namespace Quiet

open Exec

/-- An instruction that leaves files alone breaks no such property. -/
theorem perform (hI : Quiet I) (i : Instruction) (hi : i.op.usesFiles = false) :
    Keeps (OnMachine I) (perform limits i) := by
  obtain ⟨o, imm⟩ := i
  cases o with
  | arith f =>
      refine .bind (keeps_popNumber _) fun y => .bind (keeps_popNumber _) fun x => ?_
      exact .ite (.bind (.throw _) fun _ => keeps_push _) (keeps_push _)
  | and => exact .bind (keeps_pop _) fun _ => .bind (keeps_pop _) fun _ => keeps_push _
  | or => exact .bind (keeps_pop _) fun _ => .bind (keeps_pop _) fun _ => keeps_push _
  | not => exact .bind (keeps_pop _) fun _ => keeps_push _
  | compare order =>
      exact .bind (keeps_popNumber _) fun _ => .bind (keeps_popNumber _) fun _ => keeps_push _
  | equal => exact .bind (keeps_pop _) fun _ => .bind (keeps_pop _) fun _ => keeps_push _
  | notEqual => exact .bind (keeps_pop _) fun _ => .bind (keeps_pop _) fun _ => keeps_push _
  | push => exact .bind (keeps_required _ _) fun _ => keeps_push _
  | pushText => exact .bind (keeps_required _ _) fun _ => keeps_push _
  | dup =>
      refine .bind (keeps_required _ _) fun times => .bind .get fun s => ?_
      dsimp only
      split
      · exact .throw _
      · exact keeps_modify_stack _
  | pop => exact .bind (keeps_pop _) fun _ => .pure _
  | list =>
      refine .bind (keeps_required _ _) fun n => .bind .get fun s => ?_
      exact .ite (.bind (.throw _) fun _ => keeps_modify_stack _) (keeps_modify_stack _)
  | sort order => exact .bind (keeps_popPool _) fun _ => keeps_push _
  | select selector =>
      exact .bind (keeps_popNumber _) fun _ => .bind (keeps_popPool _) fun _ => keeps_push _
  | count relation =>
      exact .bind (keeps_popNumber _) fun _ => .bind (keeps_popPool _) fun _ => keeps_push _
  | reroll once relation =>
      refine .bind (keeps_popNumber _) fun threshold => .bind (keeps_popPool _) fun pool => ?_
      refine .bind (keeps_popNumber _) fun sides => ?_
      exact .bind (keeps_act (hI.reroll once relation threshold sides pool)) fun _ => keeps_push _
  | sum => exact .bind (keeps_popNumber _) fun _ => keeps_push _
  | roll =>
      refine .bind (keeps_popNumber _) fun count => .bind (keeps_popNumber _) fun sides => ?_
      exact .bind (keeps_act (hI.roll count sides)) fun _ => keeps_push _
  | load =>
      refine .bind (keeps_popReference _) fun r => ?_
      exact .bind (keeps_act (Action.keeps_load r)) fun _ => keeps_push _
  | store =>
      refine .bind (keeps_popReference _) fun r => .bind (keeps_pop _) fun v => ?_
      exact .bind (keeps_act (hI.store r v)) fun _ => keeps_push _
  | read => exact .bind (keeps_act hI.prompt) fun _ => keeps_push _
  | print => exact .bind (keeps_pop _) fun v => keeps_act (hI.print v)
  | filePrint | openFile _ | fileRead | close => cases hi
  | jump => exact .pure _
  | jumpIfFalse => exact .pure _
  | adjust f => exact .bind (keeps_popNumber _) fun _ => keeps_push _
  | time => exact .bind (keeps_act hI.clock) fun _ => keeps_push _
  | seed =>
      refine .bind (keeps_popNumber _) fun x => .modifyGet ?_
      intro s env hs
      exact hI.random s.toState env _ hs
  | random => exact .bind (keeps_act (hI.draw _)) fun _ => keeps_push _

theorem step (hI : Quiet I) (limits : Limits) (i : Instruction) (hi : i.op.usesFiles = false) :
    Keeps (OnMachine I) (step limits i) := by
  unfold Exec.step
  split
  · exact .bind (keeps_required _ _) fun _ => .pure _
  · exact .bind (keeps_required _ _) fun _ => .bind (keeps_pop _) fun _ => .pure _
  · exact .bind (hI.perform i hi) fun _ => .pure _

end Quiet

namespace Stable

open Exec

/-- No instruction breaks what no action breaks. -/
theorem perform (hI : Stable I) (i : Instruction) :
    Keeps (OnMachine I) (perform limits i) := by
  by_cases hfiles : i.op.usesFiles = false
  · exact hI.quiet.perform i hfiles
  obtain ⟨o, imm⟩ := i
  cases o with
  | filePrint =>
      refine .bind (keeps_popReference _) fun r => .bind (keeps_pop _) fun v => ?_
      exact keeps_act (hI.filePrint r v)
  | openFile access =>
      refine .bind (keeps_popReference _) fun r => .bind (keeps_pop _) fun v => ?_
      exact .bind (keeps_act (hI.openFile access v.display r)) fun _ => keeps_push _
  | fileRead =>
      refine .bind (keeps_popReference _) fun r => ?_
      exact .bind (keeps_act (hI.fileRead r)) fun _ => keeps_push _
  | close =>
      refine .bind (keeps_popReference _) fun r => ?_
      exact .bind (keeps_act (hI.close r)) fun _ => keeps_push _
  | _ => exact absurd rfl hfiles

variable (limits) in
theorem step (hI : Stable I) (i : Instruction) : Keeps (OnMachine I) (step limits i) := by
  unfold Exec.step
  split
  · exact .bind (keeps_required _ _) fun _ => .pure _
  · exact .bind (keeps_required _ _) fun _ => .bind (keeps_pop _) fun _ => .pure _
  · exact .bind (hI.perform i) fun _ => .pure _

variable {code : Array Instruction}

variable (limits code) in
theorem turn (hI : Stable I) {c : Config h} (hc : I (c.machine.toState, c.env)) :
    I ((c.turn limits code).1.2.toState, (c.turn limits code).2) := by
  cases hi : code[c.address]? with
  | none =>
      rw [Config.turn_of_none hi]
      exact hc
  | some i =>
      have hlast := hI.step limits i c.machine c.env hc
      rw [Config.turn_of_some hi]
      rcases hs : outcome (Exec.step limits i) c.machine c.env with ⟨flow, s, env⟩ | ⟨f, s, env⟩
      · rw [hs] at hlast
        cases flow with
        | next => exact hlast
        | jump target =>
            dsimp only
            split
            · exact hlast
            · exact hlast
      · rw [hs] at hlast
        exact hlast

theorem continues (hI : Stable I) {c c' : Config h} (hnext : c.Continues limits code c')
    (hc : I (c.machine.toState, c.env)) : I (c'.machine.toState, c'.env) := by
  have hturn := hI.turn limits code hc
  unfold Config.Continues at hnext
  rw [hnext] at hturn
  exact hturn

/-- A stable property holds all through a run. -/
theorem trace (hI : Stable I) {c c' : Config h} {as : List Nat} (ht : Trace limits code c as c')
    (hc : I (c.machine.toState, c.env)) : I (c'.machine.toState, c'.env) := by
  induction ht with
  | nil c => exact hc
  | cons hnext _ ih => exact ih (hI.continues hnext hc)

end Stable

end DiceScript
