import DiceScript.Proofs.Machine.Sequence
import DiceScript.Proofs.Semantics.Blame

/-!
# How an instruction fails

The faults of a script aside, an instruction fails for want of a value on the stack, or because its
operand is not the one that its opcode reads. A jump out of the code is a fault of the turn, not of
the instruction. Every error of a run is the error of one turn.
-/

namespace DiceScript

variable {σ : Type} {h : Host (StateM σ)} {limits : Limits}

/-- The operand is not one that the opcode can read. -/
def Instruction.LacksOperand (i : Instruction) : Prop :=
  match i.op.operandKind with
  | .none => False
  | .int => i.count? = none
  | .num | .text => i.literal? = none
  | .address => i.target? = none

theorem Instruction.LacksOperand.of_target? {i : Instruction}
    (hop : i.op = .jump ∨ i.op = .jumpIfFalse) (hnone : i.target? = none) : i.LacksOperand := by
  unfold LacksOperand
  rcases hop with hop | hop
  · rw [hop]
    exact hnone
  · rw [hop]
    exact hnone

/-- The faults that an instruction can meet. -/
inductive Instruction.CanMeet (i : Instruction) : Fault → Prop
  | script {f : Fault} : f.blamesCode = false → CanMeet i f
  | underflow : CanMeet i (.stackUnderflow i.op)
  | operand : i.LacksOperand → CanMeet i (.badOperand i.op)

namespace Exec

variable {α : Type} {i : Instruction}

theorem failsWithin_act {x : Action h α} (hx : Blameless x) : FailsWithin i.CanMeet (act x) := by
  intro s env f k hf
  rw [outcome_act] at hf
  cases hxo : outcome x s.toState env with
  | done a k' =>
      rw [hxo] at hf
      cases hf
  | failed g k' =>
      rw [hxo] at hf
      cases hf
      exact .script (hx s.toState env f k' hxo)

theorem failsWithin_push (v : Value) : FailsWithin i.CanMeet (push v : Exec h Unit) :=
  .modifyGet _

theorem failsWithin_pop : FailsWithin i.CanMeet (pop i.op : Exec h Value) := by
  refine .bind .get fun s => ?_
  split
  · exact .throw .underflow
  · exact .bind (.modifyGet _) fun _ => .pure _

theorem failsWithin_popNumber : FailsWithin i.CanMeet (popNumber i.op : Exec h Double) :=
  .bind failsWithin_pop fun v => failsWithin_act (Action.blameless_number i.op v)

theorem failsWithin_popPool : FailsWithin i.CanMeet (popPool i.op : Exec h Pool) :=
  .bind failsWithin_pop fun v => failsWithin_act (Action.blameless_pool i.op v)

theorem failsWithin_popReference : FailsWithin i.CanMeet (popReference i.op : Exec h Reference) :=
  .bind failsWithin_popNumber fun _ => .bind failsWithin_popNumber fun _ => .pure _

theorem failsWithin_required {a : Option α} (ha : a = none → i.LacksOperand) :
    FailsWithin i.CanMeet (required i.op a : Exec h α) := by
  cases a with
  | some a => exact .pure a
  | none => exact .throw (.operand (ha rfl))

variable (limits i)

/-- What an instruction does fails as the instruction can. -/
theorem failsWithin_perform : FailsWithin i.CanMeet (perform limits i : Exec h Unit) := by
  obtain ⟨o, imm⟩ := i
  cases o with
  | arith f =>
      refine .bind failsWithin_popNumber fun y => .bind failsWithin_popNumber fun x => ?_
      exact .ite (.bind (.throw (.script rfl)) fun _ => failsWithin_push _) (failsWithin_push _)
  | and => exact .bind failsWithin_pop fun _ => .bind failsWithin_pop fun _ => failsWithin_push _
  | or => exact .bind failsWithin_pop fun _ => .bind failsWithin_pop fun _ => failsWithin_push _
  | not => exact .bind failsWithin_pop fun _ => failsWithin_push _
  | compare order =>
      refine .bind failsWithin_popNumber fun y => .bind failsWithin_popNumber fun x => ?_
      exact failsWithin_push _
  | equal => exact .bind failsWithin_pop fun _ => .bind failsWithin_pop fun _ => failsWithin_push _
  | notEqual =>
      exact .bind failsWithin_pop fun _ => .bind failsWithin_pop fun _ => failsWithin_push _
  | push => exact .bind (failsWithin_required fun hnone => hnone) fun _ => failsWithin_push _
  | pushText => exact .bind (failsWithin_required fun hnone => hnone) fun _ => failsWithin_push _
  | dup =>
      refine .bind (failsWithin_required fun hnone => hnone) fun times => .bind .get fun s => ?_
      dsimp only
      split
      · exact .throw .underflow
      · exact .modifyGet _
  | pop => exact .bind failsWithin_pop fun _ => .pure _
  | list =>
      refine .bind (failsWithin_required fun hnone => hnone) fun n => .bind .get fun s => ?_
      exact .ite (.bind (.throw .underflow) fun _ => .modifyGet _) (.modifyGet _)
  | sort order => exact .bind failsWithin_popPool fun _ => failsWithin_push _
  | select selector =>
      refine .bind failsWithin_popNumber fun n => .bind failsWithin_popPool fun pool => ?_
      exact failsWithin_push _
  | count relation =>
      refine .bind failsWithin_popNumber fun n => .bind failsWithin_popPool fun pool => ?_
      exact failsWithin_push _
  | reroll once relation =>
      refine .bind failsWithin_popNumber fun threshold => .bind failsWithin_popPool fun pool => ?_
      refine .bind failsWithin_popNumber fun sides => ?_
      refine .bind (failsWithin_act ?_) fun _ => failsWithin_push _
      exact Action.blameless_reroll limits once relation threshold sides pool
  | sum => exact .bind failsWithin_popNumber fun _ => failsWithin_push _
  | roll =>
      refine .bind failsWithin_popNumber fun count => .bind failsWithin_popNumber fun sides => ?_
      refine .bind (failsWithin_act ?_) fun _ => failsWithin_push _
      exact Action.blameless_roll limits count sides
  | load =>
      refine .bind failsWithin_popReference fun r => ?_
      exact .bind (failsWithin_act (Action.blameless_load r)) fun _ => failsWithin_push _
  | store =>
      refine .bind failsWithin_popReference fun r => .bind failsWithin_pop fun v => ?_
      exact .bind (failsWithin_act (Action.blameless_store r v)) fun _ => failsWithin_push _
  | read => exact .bind (failsWithin_act Action.blameless_prompt) fun _ => failsWithin_push _
  | print => exact .bind failsWithin_pop fun v => failsWithin_act (Action.blameless_print v)
  | filePrint =>
      refine .bind failsWithin_popReference fun r => .bind failsWithin_pop fun v => ?_
      exact failsWithin_act (Action.blameless_filePrint r v)
  | openFile access =>
      refine .bind failsWithin_popReference fun r => .bind failsWithin_pop fun v => ?_
      refine .bind (failsWithin_act ?_) fun _ => failsWithin_push _
      exact Action.blameless_openFile access v.display r
  | fileRead =>
      refine .bind failsWithin_popReference fun r => ?_
      exact .bind (failsWithin_act (Action.blameless_fileRead r)) fun _ => failsWithin_push _
  | close =>
      refine .bind failsWithin_popReference fun r => ?_
      exact .bind (failsWithin_act (Action.blameless_close r)) fun _ => failsWithin_push _
  | jump => exact .pure _
  | jumpIfFalse => exact .pure _
  | adjust f => exact .bind failsWithin_popNumber fun _ => failsWithin_push _
  | time => exact .bind (failsWithin_act (.ask h.clock)) fun _ => failsWithin_push _
  | seed => exact .bind failsWithin_popNumber fun _ => .modifyGet _
  | random => exact .bind (failsWithin_act (Action.blameless_draw _)) fun _ => failsWithin_push _

theorem failsWithin_step : FailsWithin i.CanMeet (step limits i : Exec h Flow) := by
  unfold step
  split
  · exact .bind (failsWithin_required (.of_target? (.inl ‹_›))) fun _ => .pure _
  · refine .bind (failsWithin_required (.of_target? (.inr ‹_›))) fun _ => ?_
    exact .bind failsWithin_pop fun _ => .pure _
  · exact .bind (failsWithin_perform limits i) fun _ => .pure _

end Exec

/-- The error is one of the instruction at its address, or of a jump from there out of the code. -/
def RuntimeError.IsOf (code : Array Instruction) (e : RuntimeError) : Prop :=
  ∃ i, code[e.address]? = some i ∧ (i.CanMeet e.fault ∨
    ∃ target, i.imm = .address target ∧ code.size < target ∧ e.fault = .invalidJump target)

variable {code : Array Instruction}

theorem Config.isOf_of_turn {c : Config h} {e : RuntimeError} {k : Machine h} {env : σ}
    (hturn : c.turn limits code = ((.ended (.error e), k), env)) : e.IsOf code := by
  cases hi : code[c.address]? with
  | none =>
      rw [turn_of_none hi] at hturn
      cases hturn
  | some i =>
      rw [turn_of_some hi] at hturn
      cases hs : outcome (Exec.step limits i) c.machine c.env with
      | failed f k' =>
          rw [hs] at hturn
          cases hturn
          exact ⟨i, hi, .inl (Exec.failsWithin_step limits i c.machine c.env f k' hs)⟩
      | done flow k' =>
          rw [hs] at hturn
          cases flow with
          | next => cases hturn
          | jump target =>
              dsimp only at hturn
              split at hturn
              · cases hturn
                exact ⟨i, hi, .inr ⟨target, (Exec.target_of_outcome_step hs).2, ‹_›, rfl⟩⟩
              · cases hturn

/-- Wherever a run starts, its error is one of the code. -/
theorem Config.isOf_of_run {c : Config h} {fuel : Nat} {e : RuntimeError}
    (hrun : (c.run limits code fuel).1.1 = some (.error e)) : e.IsOf code := by
  rcases hend : c.run limits code fuel with ⟨⟨r, k⟩, env⟩
  rw [hend] at hrun
  cases hrun
  obtain ⟨as, c', -, hturn⟩ := Config.exists_trace_of_run hend
  exact Config.isOf_of_turn hturn

end DiceScript
