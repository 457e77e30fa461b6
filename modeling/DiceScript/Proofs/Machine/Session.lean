import DiceScript.Proofs.Machine.Sequence

/-!
# Sessions

A session runs one program again and again on the same machine. Every run finds the machine as the
one before it left it; what happens to the surroundings between two runs is left open.
-/

namespace DiceScript

open Machine

variable {σ : Type} {h : Host (StateM σ)} {limits : Limits} {p : Program}

/-- A run that came to its end, with the machine and the surroundings that it found and left. -/
structure Run (h : Host (StateM σ)) where
  found : Machine h
  before : σ
  outcome : Except RuntimeError Execution
  left : Machine h
  after : σ

namespace Run

/-- The run is one of the program. -/
def IsOf (limits : Limits) (p : Program) (r : Run h) : Prop :=
  ∃ fuel, ((Machine.run limits p fuel).run r.found).run r.before =
    ((some r.outcome, r.left), r.after)

def succeeds (r : Run h) : Bool :=
  r.outcome.isOk

/-- The run executes the program from its first instruction on, over the machine that it found. The
last turn ends with a result of its own, and leaves the machine `m` in the surroundings `env`. -/
def Executes (limits : Limits) (p : Program) (r : Run h) (result : Except RuntimeError Unit)
    (m : Machine h) (env : σ) : Prop :=
  ∃ as c, Trace limits p.code.toArray ⟨0, r.found, r.before⟩ as c ∧
    c.turn limits p.code.toArray = ((.ended result, m), env)

theorem Executes.unique {r : Run h} {result result' : Except RuntimeError Unit} {m m' : Machine h}
    {env env' : σ} (he : r.Executes limits p result m env)
    (he' : r.Executes limits p result' m' env') : result = result' ∧ m = m' ∧ env = env' := by
  obtain ⟨as, c, ht, hturn⟩ := he
  obtain ⟨bs, d, ht', hturn'⟩ := he'
  have hrun := ht.run_eq 1
  have hrun' := ht'.run_eq 1
  rw [c.run_succ, hturn] at hrun
  rw [d.run_succ, hturn'] at hrun'
  -- both runs also end when each has the fuel of the other besides
  have hboth := Config.run_add_of_ended hrun (bs.length + 1)
  rw [Nat.add_comm, Config.run_add_of_ended hrun' (as.length + 1)] at hboth
  simp only [Prod.mk.injEq, Option.some.injEq] at hboth
  obtain ⟨⟨rfl, rfl⟩, rfl⟩ := hboth
  exact ⟨rfl, rfl, rfl⟩

/-- After the last turn the files are closed, and the run reports its fault or theirs. A success hands
over the stack and the records and leaves none of them, and a failure leaves everything in the
machine. -/
theorem IsOf.ends {r : Run h} (hr : r.IsOf limits p) :
    ∃ result m env, r.Executes limits p result m env ∧ r.after = m.closed env ∧
      r.outcome.map (fun _ => ()) = reported p.code.length result (m.closing env) ∧
      match r.outcome with
      | .ok ex => ex = ⟨m.stack.reverse, m.printed.toList, m.filesWritten.toList⟩ ∧
        r.left = { m with handles := .empty, printed := #[], filesWritten := #[], stack := [] }
      | .error _ => r.left = { m with handles := .empty } := by
  obtain ⟨found, before, outcome, left, after⟩ := r
  obtain ⟨fuel, hrun⟩ := hr
  rw [Machine.run_eq] at hrun
  rcases hc : Config.run limits p.code.toArray fuel ⟨0, found, before⟩ with ⟨⟨_ | result, m⟩, env⟩
  · rw [hc] at hrun
    cases hrun
  · rw [hc] at hrun
    obtain ⟨as, c, htrace, hturn⟩ := Config.exists_trace_of_run hc
    refine ⟨result, m, env, ⟨as, c, htrace, hturn⟩, ?_⟩
    dsimp only at hrun ⊢
    cases hreported : reported p.code.length result (m.closing env) with
    | ok =>
        rw [hreported] at hrun
        cases hrun
        exact ⟨rfl, rfl, rfl, rfl⟩
    | error e =>
        rw [hreported] at hrun
        cases hrun
        exact ⟨rfl, rfl, rfl⟩

end Run

/-- The runs of a program that lead from one machine to another. -/
inductive Session (limits : Limits) (p : Program) : Machine h → List (Run h) → Machine h → Prop
  | nil (m : Machine h) : Session limits p m [] m
  | cons {r : Run h} {rs : List (Run h)} {m : Machine h} : r.IsOf limits p →
      Session limits p r.left rs m → Session limits p r.found (r :: rs) m

namespace Session

variable {m m' : Machine h} {rs rs' : List (Run h)}

theorem eq_of_nil (hs : Session limits p m [] m') : m' = m := by
  cases hs
  rfl

theorem uncons {r : Run h} (hs : Session limits p m (r :: rs) m') :
    r.found = m ∧ r.IsOf limits p ∧ Session limits p r.left rs m' := by
  cases hs with
  | cons hr hrest => exact ⟨rfl, hr, hrest⟩

theorem split (hs : Session limits p m (rs ++ rs') m') :
    ∃ between, Session limits p m rs between ∧ Session limits p between rs' m' := by
  induction rs generalizing m with
  | nil => exact ⟨m, .nil m, hs⟩
  | cons r rs ih =>
      cases hs with
      | cons hr hrest =>
          obtain ⟨between, hfirst, hlast⟩ := ih hrest
          exact ⟨between, .cons hr hfirst, hlast⟩

/-- A run in a session finds the machine to which the runs before it lead. -/
theorem split_cons {r : Run h} (hs : Session limits p m (rs ++ r :: rs') m') :
    Session limits p m rs r.found ∧ r.IsOf limits p ∧ Session limits p r.left rs' m' := by
  obtain ⟨between, hfirst, hlast⟩ := hs.split
  obtain ⟨rfl, hr, hrest⟩ := hlast.uncons
  exact ⟨hfirst, hr, hrest⟩

/-- The next run finds what the last turn of the one before it left, with no file open. -/
theorem next_found {r r' : Run h} (hs : Session limits p m (rs ++ r :: r' :: rs') m') :
    ∃ result last env, r.Executes limits p result last env ∧ r'.found.heap = last.heap ∧
      r'.found.random = last.random ∧ r'.found.handles = .empty := by
  obtain ⟨-, hr, hrest⟩ := hs.split_cons
  obtain ⟨result, last, env, hexec, -, -, hleft⟩ := hr.ends
  refine ⟨result, last, env, hexec, ?_⟩
  rw [hrest.uncons.1]
  cases hout : r.outcome with
  | ok ex =>
      rw [hout] at hleft
      rw [hleft.2]
      exact ⟨rfl, rfl, rfl⟩
  | error e =>
      rw [hout] at hleft
      rw [hleft]
      exact ⟨rfl, rfl, rfl⟩

end Session

end DiceScript
