import DiceScript.Proofs.Code.Shift
import DiceScript.Proofs.Machine.Forward

/-!
# Programs one after the other

In forward code put behind other forward code the machine does what it does in each of them alone. A
run of the whole runs the first part and, when that comes to its end, the second part on the machine
as the first left it.
-/

namespace DiceScript

/-- An error met in code that was moved `k` places on. -/
def RuntimeError.raise (k : Nat) (e : RuntimeError) : RuntimeError :=
  ⟨e.fault, e.address + k⟩

/-- The outcome of code that was moved `k` places on. -/
def raiseError (k : Nat) (outcome : Except RuntimeError Unit) : Except RuntimeError Unit :=
  outcome.mapError (RuntimeError.raise k)

/-- Run a program and, if it comes to its end, another one on the machine that it leaves. The
addresses in errors are those of the two programs put one behind the other. -/
def Machine.runBoth {m : Type → Type} [Monad m] {h : Host m} (limits : Limits) (p q : Program)
    (fuel : Nat) : StateT (Machine h) m (Option (Except RuntimeError Unit)) := do
  match ← runFrom limits p.code.toArray fuel 0 with
  | some (.ok ()) =>
    return (← runFrom limits q.code.toArray fuel 0).map (raiseError p.code.length)
  | failed => return failed

namespace Instruction

@[simp] theorem literal?_raise (k : Nat) (i : Instruction) : (i.raise k).literal? = i.literal? := by
  obtain ⟨o, imm⟩ := i
  cases o <;> cases imm <;> rfl

@[simp] theorem count?_raise (k : Nat) (i : Instruction) : (i.raise k).count? = i.count? := by
  obtain ⟨o, imm⟩ := i
  cases imm <;> rfl

@[simp] theorem target?_raise (k : Nat) (i : Instruction) :
    (i.raise k).target? = i.target?.map (· + k) := by
  obtain ⟨o, imm⟩ := i
  cases imm <;> rfl

end Instruction

variable {σ : Type} {h : Host (StateM σ)} {limits : Limits}

def Flow.raise (k : Nat) : Flow → Flow
  | next => next
  | jump target => jump (target + k)

namespace Exec

theorem perform_raise (k : Nat) (i : Instruction) :
    (perform limits (i.raise k) : Exec h Unit) = perform limits i := by
  unfold perform
  simp only [Instruction.raise_op, Instruction.literal?_raise, Instruction.count?_raise]

/-- A moved instruction does the same, and jumps to a moved place. -/
theorem outcome_step_raise (k : Nat) (i : Instruction) (s : Machine h) (env : σ) :
    outcome (step limits (i.raise k)) s env =
      match outcome (step limits i) s env with
      | .done flow next => .done (flow.raise k) next
      | .failed f last => .failed f last := by
  by_cases hop : i.op = .jump ∨ i.op = .jumpIfFalse
  · obtain ⟨s, stack⟩ := s
    rcases hop with hop | hop
    · cases ht : i.target? <;>
        simp only [step, Instruction.raise_op, Instruction.target?_raise, hop, ht, Option.map,
          outcome_bind, outcome_required_none, outcome_required_some, outcome_pure, Flow.raise]
    · cases ht : i.target? with
      | none =>
          simp only [step, Instruction.raise_op, Instruction.target?_raise, hop, ht, Option.map,
            outcome_bind, outcome_required_none]
      | some target =>
          simp only [step, Instruction.raise_op, Instruction.target?_raise, hop, ht, Option.map,
            outcome_bind, outcome_required_some]
          cases stack with
          | nil => rfl
          | cons v stack =>
              simp only [outcome_pop_cons, outcome_pure]
              cases v.truthy <;> rfl
  · have hraise : ¬((i.raise k).op = .jump ∨ (i.raise k).op = .jumpIfFalse) := hop
    rw [step_of_plain hop, step_of_plain hraise, perform_raise, outcome_bind]
    cases outcome (perform limits i) s env <;> rfl

end Exec

namespace Config

variable {p q : List Instruction}

/-- Within the first part the machine does what it does in that part alone. -/
theorem turn_append_left (hp : Forward 0 p.length p) (q : List Instruction) {c : Config h}
    (hc : c.address < p.length) :
    c.turn limits (p ++ q).toArray = c.turn limits p.toArray := by
  obtain ⟨i, hi⟩ : ∃ i, p[c.address]? = some i := ⟨_, List.getElem?_eq_getElem hc⟩
  have hiq : (p ++ q)[c.address]? = some i := by rw [List.getElem?_append_left hc, hi]
  rw [turn_of_some (by rwa [List.getElem?_toArray]), turn_of_some (by rwa [List.getElem?_toArray])]
  cases hs : outcome (Exec.step limits i) c.machine c.env with
  | failed f k => rfl
  | done flow k =>
      cases flow with
      | next => rfl
      | jump target =>
          obtain ⟨hop, himm⟩ := Exec.target_of_outcome_step hs
          obtain ⟨t, ht, -, hle⟩ := hp c.address i hi hop
          obtain rfl : target = t := by simpa [himm] using ht
          have hnot : ¬ p.toArray.size < target := by simpa using hle
          have hnotq : ¬ (p ++ q).toArray.size < target := by simp; omega
          simp only [hnot, hnotq, if_false]

/-- An error in the first part is an error of the whole. -/
theorem turn_append_of_error (hp : Forward 0 p.length p) (q : List Instruction) {c : Config h}
    {e : RuntimeError} {m : Machine h} {env : σ}
    (hturn : c.turn limits p.toArray = ((.ended (.error e), m), env)) :
    c.turn limits (p ++ q).toArray = ((.ended (.error e), m), env) := by
  have hlt : c.address < p.length := by
    by_contra hge
    rw [turn_of_none (by simpa using hge)] at hturn
    cases hturn
  rw [turn_append_left hp q hlt]
  exact hturn

/-- A configuration of code that was moved `k` places on. -/
def raise (k : Nat) (c : Config h) : Config h :=
  ⟨c.address + k, c.machine, c.env⟩

/-- Within the second part the machine does what it does in that part alone. -/
theorem turn_append_right (hq : Forward 0 q.length q) (p : List Instruction) (c : Config h) :
    (c.raise p.length).turn limits (p ++ q.map (Instruction.raise p.length)).toArray =
      match c.turn limits q.toArray with
      | ((.ended r, s), env) => ((.ended (raiseError p.length r), s), env)
      | ((.continues a, s), env) => ((.continues (a + p.length), s), env) := by
  have hget : (p ++ q.map (Instruction.raise p.length)).toArray[(c.raise p.length).address]? =
      q[c.address]?.map (Instruction.raise p.length) := by
    rw [List.getElem?_toArray, raise, List.getElem?_append_right (Nat.le_add_left _ _),
      Nat.add_sub_cancel, List.getElem?_map]
  cases hi : q[c.address]? with
  | none =>
      rw [hi] at hget
      rw [turn_of_none (c := c) (by rwa [List.getElem?_toArray]), turn_of_none hget]
      rfl
  | some i =>
      rw [hi] at hget
      rw [turn_of_some (c := c) (by rwa [List.getElem?_toArray]), turn_of_some hget]
      simp only [raise, Exec.outcome_step_raise]
      cases hs : outcome (Exec.step limits i) c.machine c.env with
      | failed f k => rfl
      | done flow k =>
          cases flow with
          | next => simp [Flow.raise, Nat.add_right_comm]
          | jump target =>
              obtain ⟨hop, himm⟩ := Exec.target_of_outcome_step hs
              obtain ⟨t, ht, -, hle⟩ := hq c.address i hi hop
              obtain rfl : target = t := by simpa [himm] using ht
              have hnot : ¬ q.toArray.size < target := by simpa using hle
              have hnotp : ¬ (p ++ q.map (Instruction.raise p.length)).toArray.size <
                  target + p.length := by simp; omega
              simp only [Flow.raise, hnot, hnotp, if_false]

theorem run_append_right (hq : Forward 0 q.length q) (p : List Instruction) (fuel : Nat)
    (c : Config h) :
    (c.raise p.length).run limits (p ++ q.map (Instruction.raise p.length)).toArray fuel =
      match c.run limits q.toArray fuel with
      | ((r, s), env) => ((r.map (raiseError p.length), s), env) := by
  induction fuel generalizing c with
  | zero => rfl
  | succ fuel ih =>
      rw [run_succ, run_succ, turn_append_right hq]
      rcases c.turn limits q.toArray with ⟨⟨t, s⟩, env⟩
      cases t with
      | ended r => rfl
      | continues a => exact ih ⟨a, s, env⟩

section Fuel

variable {code : Array Instruction} {r : Except RuntimeError Unit} {s : Machine h} {env : σ}

/-- More fuel does not change how a run ends. -/
theorem run_add_of_ended {fuel : Nat} {c : Config h}
    (hrun : c.run limits code fuel = ((some r, s), env)) (n : Nat) :
    c.run limits code (fuel + n) = ((some r, s), env) := by
  induction fuel generalizing c with
  | zero => cases hrun
  | succ fuel ih =>
      rw [run_succ] at hrun
      rw [Nat.add_right_comm, run_succ]
      rcases hturn : c.turn limits code with ⟨⟨t, s₁⟩, env₁⟩
      rw [hturn] at hrun
      cases t with
      | ended r₁ => exact hrun
      | continues a => exact ih hrun

/-- A run that ends passes to a configuration whose turn is the last. -/
theorem exists_trace_of_run {fuel : Nat} {c : Config h}
    (hrun : c.run limits code fuel = ((some r, s), env)) :
    ∃ as c', Trace limits code c as c' ∧ c'.turn limits code = ((.ended r, s), env) := by
  induction fuel generalizing c with
  | zero => cases hrun
  | succ fuel ih =>
      rw [run_succ] at hrun
      rcases hturn : c.turn limits code with ⟨⟨t, s₁⟩, env₁⟩
      rw [hturn] at hrun
      cases t with
      | ended r₁ =>
          cases hrun
          exact ⟨[], c, .nil c, hturn⟩
      | continues a =>
          obtain ⟨as, c', ht, hend⟩ := ih hrun
          have hnext : c.Continues limits code ⟨a, s₁, env₁⟩ := hturn
          exact ⟨_, c', .cons hnext ht, hend⟩

/-- With fuel for all of forward code, the fuel does not matter. -/
theorem run_eq_run (hcode : Forward 0 p.length p) {c : Config h} (hc : c.address ≤ p.length)
    {fuel₁ fuel₂ : Nat} (h₁ : p.length < c.address + fuel₁) (hle : fuel₁ ≤ fuel₂) :
    c.run limits p.toArray fuel₂ = c.run limits p.toArray fuel₁ := by
  have hsome : (c.run limits p.toArray fuel₁).1.1.isSome = true :=
    isSome_run hcode fuel₁ c hc h₁
  rcases hrun : c.run limits p.toArray fuel₁ with ⟨⟨_ | r, s⟩, env⟩
  · simp [hrun] at hsome
  · obtain ⟨n, rfl⟩ := Nat.exists_eq_add_of_le hle
    exact run_add_of_ended hrun n

end Fuel

/-- Only the end of the code ends a run without an error. -/
theorem address_of_turn_ok {c : Config h} {s : Machine h} {env : σ} (hc : c.address ≤ p.length)
    (hturn : c.turn limits p.toArray = ((.ended (.ok ()), s), env)) :
    c = ⟨p.length, s, env⟩ := by
  cases hi : p[c.address]? with
  | none =>
      rw [turn_of_none (by rwa [List.getElem?_toArray])] at hturn
      obtain ⟨a, s', env'⟩ := c
      have hge := List.getElem?_eq_none_iff.mp hi
      cases hturn
      obtain rfl : a = p.length := Nat.le_antisymm hc hge
      rfl
  | some i =>
      rw [turn_of_some (by rwa [List.getElem?_toArray])] at hturn
      split at hturn
      · simp at hturn
      · split at hturn <;> simp at hturn
      · simp at hturn

end Config

/-- A trace in the first of two parts is one in the whole. -/
theorem Trace.append_left {p : List Instruction} (hp : Forward 0 p.length p)
    (q : List Instruction) {c c' : Config h} {as : List Nat} (ht : Trace limits p.toArray c as c') :
    Trace limits (p ++ q).toArray c as c' := by
  induction ht with
  | nil c => exact .nil c
  | @cons c c₁ _ _ hc _ ih =>
      obtain ⟨hlt, hle⟩ := hc.lt hp
      refine .cons ?_ ih
      unfold Config.Continues
      rw [Config.turn_append_left hp q (Nat.lt_of_lt_of_le hlt hle)]
      exact hc

/-- Two forward programs one behind the other run as the first and then the second. -/
theorem Machine.runFrom_andThen {p q : Program} (hp : Forward 0 p.code.length p.code)
    (hq : Forward 0 q.code.length q.code) {fuel : Nat}
    (hfuel : (p.andThen q).code.length < fuel) :
    runFrom limits (p.andThen q).code.toArray fuel 0 =
      (runBoth limits p q fuel : StateT (Machine h) (StateM σ) _) := by
  have hlength : p.code.length + q.code.length < fuel := by simpa [Program.andThen] using hfuel
  funext s env
  change Config.run limits (p.andThen q).code.toArray fuel ⟨0, s, env⟩ =
    ((runBoth limits p q fuel).run s).run env
  have hsome : (Config.run limits p.code.toArray fuel ⟨0, s, env⟩).1.1.isSome = true :=
    Config.isSome_run hp fuel ⟨0, s, env⟩ (Nat.zero_le _) (by dsimp only; omega)
  rcases hrun : Config.run limits p.code.toArray fuel ⟨0, s, env⟩ with ⟨⟨_ | r, s'⟩, env'⟩
  · simp [hrun] at hsome
  rw [runBoth, run_bind_run, show ((runFrom limits p.code.toArray fuel 0).run s).run env = _
    from hrun]
  -- the whole first passes what the first part passes
  obtain ⟨as, c, ht, hend⟩ := Config.exists_trace_of_run hrun
  obtain ⟨hsteps, hc⟩ := ht.address_add_length_le hp (Nat.zero_le _)
  obtain ⟨rest, rfl⟩ : ∃ rest, fuel = as.length + rest := ⟨fuel - as.length, by omega⟩
  have hwhole : Trace limits (p.andThen q).code.toArray _ as c := ht.append_left hp _
  rw [hwhole.run_eq]
  dsimp only at hsteps ⊢
  cases r with
  | error e =>
      have hlt : c.address < p.code.length := by
        refine Nat.lt_of_le_of_ne hc fun heq => ?_
        rw [Config.turn_of_none (by simp [heq])] at hend
        simp at hend
      obtain ⟨rest, rfl⟩ : ∃ n, rest = n + 1 := ⟨rest - 1, by omega⟩
      rw [Config.run_succ, Program.andThen, Config.turn_append_left hp _ hlt, hend]
      rfl
  | ok u =>
      obtain rfl := Config.address_of_turn_ok hc hend
      have hstart : (⟨p.code.length, s', env'⟩ : Config h) = Config.raise p.code.length
          ⟨0, s', env'⟩ := by rw [Config.raise, Nat.zero_add]
      have hfuel : (⟨0, s', env'⟩ : Config h).run limits q.code.toArray (as.length + rest) =
          (⟨0, s', env'⟩ : Config h).run limits q.code.toArray rest :=
        Config.run_eq_run hq (Nat.zero_le _) (by dsimp only; omega) (Nat.le_add_left _ _)
      rw [hstart, Program.andThen, Config.run_append_right hq, ← hfuel]
      rfl

end DiceScript
