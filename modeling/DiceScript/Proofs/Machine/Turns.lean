import DiceScript.Machine.Run
import DiceScript.Proofs.Machine.Outcome

/-!
# The turns of a run

A run goes from one configuration to the next, an instruction at a time. A trace records the
addresses of the instructions executed on the way.
-/

namespace DiceScript

open Machine

variable {σ : Type} {h : Host (StateM σ)}

/-- A machine about to execute the instruction at an address, in its surroundings. -/
structure Config (h : Host (StateM σ)) where
  address : Nat
  machine : Machine h
  env : σ

namespace Config

/-- How the turn at a configuration goes. -/
def turn (limits : Limits) (code : Array Instruction) (c : Config h) : (Turn × Machine h) × σ :=
  ((Machine.turn limits code c.address).run c.machine).run c.env

/-- The instruction at `c` is executed, and the run goes on at `c'`. -/
def Continues (limits : Limits) (code : Array Instruction) (c c' : Config h) : Prop :=
  c.turn limits code = ((.continues c'.address, c'.machine), c'.env)

/-- How a run from a configuration stands after at most `fuel` instructions. -/
def run (limits : Limits) (code : Array Instruction) (fuel : Nat) (c : Config h) :
    (Option (Except RuntimeError Unit) × Machine h) × σ :=
  ((runFrom limits code fuel c.address).run c.machine).run c.env

end Config

/-- The configurations that a run passes from one to another, with the addresses of the instructions
executed between them. -/
inductive Trace (limits : Limits) (code : Array Instruction) :
    Config h → List Nat → Config h → Prop
  | nil (c : Config h) : Trace limits code c [] c
  | cons {c c₁ c' : Config h} {as : List Nat} : c.Continues limits code c₁ →
      Trace limits code c₁ as c' → Trace limits code c (c.address :: as) c'

variable {limits : Limits} {code : Array Instruction}

theorem Config.turn_of_none {c : Config h} (hc : code[c.address]? = none) :
    c.turn limits code = ((.ended (.ok ()), c.machine), c.env) := by
  unfold turn Machine.turn
  rw [hc]
  rfl

theorem Config.turn_of_some {c : Config h} {i : Instruction} (hc : code[c.address]? = some i) :
    c.turn limits code =
      match outcome (Exec.step limits i) c.machine c.env with
      | .done .next (s, env) => ((.continues (c.address + 1), s), env)
      | .done (.jump target) (s, env) =>
        if code.size < target then ((.ended (.error ⟨.invalidJump target, c.address⟩), s), env)
        else ((.continues target, s), env)
      | .failed f (s, env) => ((.ended (.error ⟨f, c.address⟩), s), env) := by
  unfold turn Machine.turn outcome
  rw [hc]
  rw [run_bind_run]
  rcases ((Exec.step limits i).run.run c.machine).run c.env with ⟨⟨flow, s⟩, env⟩
  cases flow with
  | error f => rfl
  | ok flow =>
      cases flow with
      | next => rfl
      | jump target =>
          dsimp only
          split <;> rfl

theorem Config.run_succ (c : Config h) (fuel : Nat) :
    c.run limits code (fuel + 1) =
      match c.turn limits code with
      | ((.ended r, s), env) => ((some r, s), env)
      | ((.continues a, s), env) => Config.run limits code fuel ⟨a, s, env⟩ := by
  unfold run turn
  rw [runFrom, run_bind_run]
  rcases ((Machine.turn limits code c.address).run c.machine).run c.env with ⟨⟨t, s⟩, env⟩
  cases t <;> rfl

theorem Config.run_succ_of_continues {c c' : Config h} (hc : c.Continues limits code c')
    (fuel : Nat) : c.run limits code (fuel + 1) = c'.run limits code fuel := by
  unfold Continues at hc
  rw [run_succ, hc]

theorem Config.Continues.unique {c c₁ c₂ : Config h} (h₁ : c.Continues limits code c₁)
    (h₂ : c.Continues limits code c₂) : c₁ = c₂ := by
  obtain ⟨a₁, s₁, env₁⟩ := c₁
  obtain ⟨a₂, s₂, env₂⟩ := c₂
  unfold Continues at h₁ h₂
  rw [h₁] at h₂
  simp only [Prod.mk.injEq, Turn.continues.injEq] at h₂
  obtain ⟨⟨rfl, rfl⟩, rfl⟩ := h₂
  rfl

theorem Trace.trans {c c₁ c' : Config h} {as bs : List Nat} (h₁ : Trace limits code c as c₁)
    (h₂ : Trace limits code c₁ bs c') : Trace limits code c (as ++ bs) c' := by
  induction h₁ with
  | nil c => exact h₂
  | cons hc _ ih => exact .cons hc (ih h₂)

/-- A run first passes the configurations of any trace. -/
theorem Trace.run_eq {c c' : Config h} {as : List Nat} (ht : Trace limits code c as c')
    (fuel : Nat) : c.run limits code (as.length + fuel) = c'.run limits code fuel := by
  induction ht with
  | nil c => rw [List.length_nil, Nat.zero_add]
  | cons hc _ ih =>
      rw [List.length_cons, Nat.add_right_comm, Config.run_succ_of_continues hc, ih]

/-- The answer when all open files are closed, and the surroundings then. -/
def State.closeFiles (s : State h) (env : σ) : Except HostError Unit × σ :=
  (h.arrange s.handles.entries >>= fun entries => closeHandles (entries.map (·.2))).run env

/-- Does every open file accept what its writer held back? -/
def State.closing (s : State h) (env : σ) : Except HostError Unit :=
  (s.closeFiles env).1

/-- The surroundings after all open files were closed. -/
def State.closed (s : State h) (env : σ) : σ :=
  (s.closeFiles env).2

theorem Machine.run_closeAll (s : Machine h) (env : σ) :
    (closeAll.run s).run env =
      ((s.closing env, { s with handles := .empty }), s.closed env) := rfl

/-- A whole run closes the files in the end. When it was successful, and so was this, it hands over the
stack and the records. -/
theorem Machine.run_eq (p : Program) (fuel : Nat) (s : Machine h) (env : σ) :
    ((Machine.run limits p fuel).run s).run env =
      match Config.run limits p.code.toArray fuel ⟨0, s, env⟩ with
      | ((none, s'), env') => ((none, s'), env')
      | ((some r, s'), env') =>
        match reported p.code.length r (s'.closing env') with
        | .ok () =>
          ((some (.ok ⟨s'.stack.reverse, s'.printed.toList, s'.filesWritten.toList⟩),
            { s' with handles := .empty, printed := #[], filesWritten := #[], stack := [] }),
            s'.closed env')
        | .error e => ((some (.error e), { s' with handles := .empty }), s'.closed env') := by
  unfold Machine.run Config.run
  rw [run_bind_run]
  rcases ((runFrom limits p.code.toArray fuel 0).run s).run env with ⟨⟨_ | r, s'⟩, env'⟩
  · rfl
  · dsimp only
    rw [run_bind_run, Machine.run_closeAll]
    dsimp only
    cases reported p.code.length r (s'.closing env') <;> rfl

/-- Closing the files ends, so a run ends when its turns do. -/
theorem Machine.isSome_run {p : Program} {fuel : Nat} {s : Machine h} {env : σ}
    (hrun : (Config.run limits p.code.toArray fuel ⟨0, s, env⟩).1.1.isSome = true) :
    (((Machine.run limits p fuel).run s).run env).1.1.isSome = true := by
  rw [Machine.run_eq]
  rcases hturns : Config.run limits p.code.toArray fuel ⟨0, s, env⟩ with ⟨⟨_ | r, s'⟩, env'⟩
  · rw [hturns] at hrun
    cases hrun
  · dsimp only
    cases reported p.code.length r (s'.closing env') <;> rfl

theorem Machine.run_of_ok {p : Program} {fuel : Nat} {s s' : Machine h} {env env' : σ}
    (hrun : Config.run limits p.code.toArray fuel ⟨0, s, env⟩ = ((some (.ok ()), s'), env'))
    (hclosing : s'.closing env' = .ok ()) :
    ((Machine.run limits p fuel).run s).run env =
      ((some (.ok ⟨s'.stack.reverse, s'.printed.toList, s'.filesWritten.toList⟩),
        { s' with handles := .empty, printed := #[], filesWritten := #[], stack := [] }),
        s'.closed env') := by
  rw [Machine.run_eq, hrun]
  dsimp only
  rw [hclosing]
  rfl

/-- A file that refuses what its writer held back makes the run fail where the code ends. -/
theorem Machine.run_of_refused {p : Program} {fuel : Nat} {s s' : Machine h} {env env' : σ}
    {e : HostError}
    (hrun : Config.run limits p.code.toArray fuel ⟨0, s, env⟩ = ((some (.ok ()), s'), env'))
    (hclosing : s'.closing env' = .error e) :
    ((Machine.run limits p fuel).run s).run env =
      ((some (.error ⟨.host e, p.code.length⟩), { s' with handles := .empty }),
        s'.closed env') := by
  rw [Machine.run_eq, hrun]
  dsimp only
  rw [hclosing]
  rfl

theorem Machine.run_of_error {p : Program} {fuel : Nat} {s s' : Machine h} {env env' : σ}
    {e : RuntimeError}
    (hrun : Config.run limits p.code.toArray fuel ⟨0, s, env⟩ = ((some (.error e), s'), env')) :
    ((Machine.run limits p fuel).run s).run env =
      ((some (.error e), { s' with handles := .empty }), s'.closed env') := by
  rw [Machine.run_eq, hrun]
  rfl

end DiceScript
