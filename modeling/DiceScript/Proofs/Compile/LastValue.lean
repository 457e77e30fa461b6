import DiceScript.Formula
import DiceScript.Host.Disk
import DiceScript.Proofs.Compile.Halting
import DiceScript.Proofs.Compile.StackDiscipline
import DiceScript.Proofs.Machine.Closing
import DiceScript.Proofs.Machine.Faults
import DiceScript.Proofs.Machine.Sequence

/-!
# Discarding and keeping the last value

The program that discards every value is the one that keeps the last, with one more instruction that
drops it when there is one. So from equal machines both do the same, and fail at the same address. A
formula has the value that its discarding program drops last.
-/

namespace DiceScript

open Code (op)

/-! ## The two programs of a script -/

theorem Opcode.pop_plain : Opcode.pop.operandKind = .none :=
  rfl

/-- The code that drops a value, where there is one. -/
def dropCode (value : Bool) : Code :=
  if value then op .pop Opcode.pop_plain else []

theorem toplevelCode_discard (es : List Expr) :
    toplevelCode .discard es =
      toplevelCode .keepLast es ++ dropCode (es.getLast?.any fun e => !e.isPrint) := by
  induction es with
  | nil => rfl
  | cons e es ih =>
      rw [toplevelCode_cons, toplevelCode_cons, ih]
      cases es with
      | nil => cases hprint : e.isPrint <;> simp [toplevelCode_nil, dropCode, hprint]
      | cons d ds => simp [toplevelCode_cons]

namespace Script

/-- The instructions that only the discarding program has. -/
def dropping (script : Script) : List Instruction :=
  if script.keepsValue .keepLast then [⟨.pop, .none⟩] else []

theorem layout_discard (script : Script) :
    codeLayout 0 (script.code .discard) =
      codeLayout 0 (script.code .keepLast) ++ script.dropping := by
  have hkeeps : script.keepsValue .keepLast = script.body.getLast?.any fun e => !e.isPrint := rfl
  rw [code, toplevelCode_discard, codeLayout_append, code, dropping, hkeeps]
  cases script.body.getLast?.any fun e => !e.isPrint <;> rfl

theorem length_discard (script : Script) :
    (codeLayout 0 (script.code .discard)).length =
      (codeLayout 0 (script.code .keepLast)).length +
        if script.keepsValue .keepLast then 1 else 0 := by
  rw [layout_discard, List.length_append, dropping]
  cases script.keepsValue .keepLast <;> rfl

theorem keepsValue_eq_false_iff (script : Script) :
    script.keepsValue .keepLast = false ↔ ∀ e ∈ script.body.getLast?, e.isPrint = true := by
  unfold keepsValue
  cases script.body.getLast? <;> simp

end Script

/-! ## Runs -/

variable {σ : Type} {h : Host (StateM σ)} {limits : Limits}

/-- The run from `c` drops the value `v` last: after the instruction that does so it executes none
of the kind, and ends without an error. -/
def DropsLast (limits : Limits) (code : Array Instruction) (c : Config h) (v : Value) : Prop :=
  ∃ (as bs : List Nat) (d d' stop : Config h) (m : Machine h) (env : σ),
    Trace limits code c as d ∧ code[d.address]? = some ⟨.pop, .none⟩ ∧
      d.machine.stack.head? = some v ∧ d.Continues limits code d' ∧
      Trace limits code d' bs stop ∧ (∀ a ∈ bs, ∀ i ∈ code[a]?, i.op ≠ .pop) ∧
      stop.turn limits code = ((.ended (.ok ()), m), env)

theorem DropsLast.of_trace {code : Array Instruction} {c d : Config h} {v : Value} {as : List Nat}
    (ht : Trace limits code c as d) (hd : DropsLast limits code d v) :
    DropsLast limits code c v := by
  obtain ⟨bs, cs, d', d'', stop, m, env, hbefore, hrest⟩ := hd
  exact ⟨as ++ bs, cs, d', d'', stop, m, env, ht.trans hbefore, hrest⟩

/-- Dropping the value on top of the stack goes on with the stack under it. -/
theorem Config.continues_pop (limits : Limits) {code : List Instruction} {a : Nat} (s : State h)
    (v : Value) (stack : List Value) (env : σ) (hi : code[a]? = some ⟨.pop, .none⟩) :
    (⟨a, ⟨s, v :: stack⟩, env⟩ : Config h).Continues limits code.toArray
      ⟨a + 1, ⟨s, stack⟩, env⟩ := by
  unfold Continues
  rw [turn_of_some (by rwa [List.getElem?_toArray])]
  rfl

theorem Config.turn_at_end {code : List Instruction} (m : Machine h) (env : σ) :
    (⟨code.length, m, env⟩ : Config h).turn limits code.toArray = ((.ended (.ok ()), m), env) :=
  turn_of_none (by simp)

namespace Script

variable (script : Script)

/-- The keeping program comes to its end with the value that it keeps, or stops with an error. -/
theorem keepLast_ends (limits : Limits) (s : State h) (env : σ) :
    let q := codeLayout 0 (script.code .keepLast)
    (∃ (kept : Option Value) (as : List Nat) (s' : State h) (env' : σ),
      kept.isSome = script.keepsValue .keepLast ∧
        Trace limits q.toArray ⟨0, ⟨s, []⟩, env⟩ as ⟨q.length, ⟨s', kept.toList⟩, env'⟩) ∨
    ∃ (as : List Nat) (c : Config h) (e : RuntimeError) (m : Machine h) (env' : σ),
      Trace limits q.toArray ⟨0, ⟨s, []⟩, env⟩ as c ∧
        c.turn limits q.toArray = ((.ended (.error e), m), env') := by
  intro q
  obtain ⟨c, hpasses, hturn⟩ := script.passes limits .keepLast ⟨s, []⟩ env
  obtain ⟨as, ht⟩ := hpasses.exists_trace
  cases hx : outcome (script.eval limits .keepLast) s env with
  | failed f k =>
      rw [hx] at hturn
      obtain ⟨stack, hturn⟩ := hturn
      exact .inr ⟨as, c, _, _, _, ht, hturn⟩
  | done kept k =>
      rw [hx] at hturn
      obtain ⟨-, hc⟩ := ht.address_add_length_le (script.forward_layout .keepLast) (Nat.zero_le _)
      obtain rfl := Config.address_of_turn_ok hc hturn
      rw [List.append_nil] at ht
      exact .inl ⟨kept, as, k.1, k.2, evalBody_isSome .keepLast script.body _ _ _ _ hx, ht⟩

/-- Behind the keeping program the other one drops the value that was kept, if there is one. -/
theorem trace_dropping (limits : Limits) (s : State h) (env : σ) {kept : Option Value}
    (hkept : kept.isSome = script.keepsValue .keepLast) :
    let p := codeLayout 0 (script.code .discard)
    let q := codeLayout 0 (script.code .keepLast)
    ∃ as, Trace limits p.toArray ⟨q.length, ⟨s, kept.toList⟩, env⟩ as ⟨p.length, ⟨s, []⟩, env⟩ ∧
      ∀ v, kept = some v → DropsLast limits p.toArray ⟨q.length, ⟨s, kept.toList⟩, env⟩ v := by
  intro p q
  have hp : p = q ++ script.dropping := script.layout_discard
  cases kept with
  | none =>
      have hlength : p.length = q.length := by simp [hp, dropping, ← hkept]
      rw [← hlength]
      exact ⟨[], .nil _, by simp⟩
  | some v =>
      have hpop : p[q.length]? = some ⟨.pop, .none⟩ := by simp [hp, dropping, ← hkept]
      have hlength : p.length = q.length + 1 := by simp [hp, dropping, ← hkept]
      have hnext := Config.continues_pop limits s v [] env hpop
      rw [← hlength] at hnext
      refine ⟨[q.length], .cons hnext (.nil _), ?_⟩
      rintro w ⟨⟩
      refine ⟨[], [], _, _, _, _, _, .nil _, by rwa [List.getElem?_toArray], rfl, hnext, .nil _, ?_,
        Config.turn_at_end _ _⟩
      simp

end Script

/-! ## What the two runs have in common -/

/-- How a run of a program `p` that discards the last value and a run of a program `q` that keeps it end
together. -/
inductive EndAlike (p q : Program) (value : Bool) (dropsLast : Value → Prop) :
    (Option (Except RuntimeError Execution) × Machine h) × σ →
      (Option (Except RuntimeError Execution) × Machine h) × σ → Prop
  /-- The same instruction of both fails. -/
  | fails (e : RuntimeError) (m : Machine h) (env : σ) : e.address < q.code.length →
      EndAlike p q value dropsLast ((some (.error e), m), env) ((some (.error e), m), env)
  /-- A file that was left open refuses to be closed, where the code of each ends. -/
  | refused (e : HostError) (kept : Option Value) (s : State h) (env : σ) :
      kept.isSome = value → (∀ v, kept = some v → dropsLast v) →
        EndAlike p q value dropsLast
          ((some (.error ⟨.host e, p.code.length⟩), ⟨s, []⟩), env)
          ((some (.error ⟨.host e, q.code.length⟩), ⟨s, kept.toList⟩), env)
  /-- Both hand over the same lines and paths. Of the stack the first leaves nothing, and the second the
  value that the first drops last. -/
  | succeeds (lines paths : List String) (kept : Option Value) (s : State h) (env : σ) :
      kept.isSome = value → (∀ v, kept = some v → dropsLast v) →
        EndAlike p q value dropsLast
          ((some (.ok ⟨[], lines, paths⟩), ⟨s, []⟩), env)
          ((some (.ok ⟨kept.toList, lines, paths⟩), ⟨s, []⟩), env)

/-- On equal fresh machines over any host both programs do the same and end together. -/
def RunsAlike (limits : Limits) (random : Random) (p q : Program) (value : Bool) : Prop :=
  ∀ {σ : Type} {h : Host (StateM σ)} (env : σ) (fuel fuel' : Nat), p.code.length < fuel →
    q.code.length < fuel' →
      EndAlike p q value (DropsLast limits p.code.toArray ⟨0, Machine.start h random, env⟩)
        (((Machine.run limits p fuel).run (Machine.start h random)).run env)
        (((Machine.run limits q fuel').run (Machine.start h random)).run env)

/-- The value of a formula, and the run of the program that discards it. -/
structure EvalFollows (limits : Limits) (random : Random) (source : String) (script : Script)
    (p : Program) : Prop where
  fails : ∀ e m env,
    ((Machine.run limits p (p.code.length + 1)).run (Machine.start Memory.host random)).run
      Memory.empty = ((some (.error e), m), env) → eval limits random source = .error (.runtime e)
  succeeds : ∀ x m env,
    ((Machine.run limits p (p.code.length + 1)).run (Machine.start Memory.host random)).run
      Memory.empty = ((some (.ok x), m), env) →
        ∃ kept, eval limits random source = .ok kept ∧
          (kept = none ↔ ∀ e ∈ script.body.getLast?, e.isPrint = true) ∧
          ∀ v, kept = some v →
            DropsLast limits p.code.toArray
              (⟨0, Machine.start Memory.host random, Memory.empty⟩ : Config Memory.host) v

/-- A formula does what the run of its keeping program does. -/
theorem eval_of_run {limits : Limits} {random : Random} {source : String} {q : Program}
    {result : Except RuntimeError Execution} {m : Machine Memory.host} {env : Memory}
    (hcompile : compile .keepLast source = .ok q)
    (hrun : (Machine.run limits q (q.code.length + 1) (Machine.start Memory.host random)).run
      Memory.empty = ((some result, m), env)) :
    eval limits random source =
      (result.map fun x => x.stack.getLast?).mapError EvalError.runtime := by
  unfold eval
  rw [hcompile]
  dsimp only
  rw [hrun]
  cases result <;> rfl

namespace Script

variable (script : Script)

/-- The turns of the two programs come to the ends of their codes, in equal states, or to the same
error. -/
theorem turns_alike (limits : Limits) (random : Random) (env : σ) {fuel fuel' : Nat} :
    let p := codeLayout 0 (script.code .discard)
    let q := codeLayout 0 (script.code .keepLast)
    let c : Config h := ⟨0, Machine.start h random, env⟩
    p.length < fuel → q.length < fuel' →
      (∃ kept s env', c.run limits p.toArray fuel = ((some (.ok ()), ⟨s, []⟩), env') ∧
        c.run limits q.toArray fuel' = ((some (.ok ()), ⟨s, kept.toList⟩), env') ∧
          kept.isSome = script.keepsValue .keepLast ∧
            ∀ v, kept = some v → DropsLast limits p.toArray c v) ∨
      ∃ e m env', c.run limits p.toArray fuel = ((some (.error e), m), env') ∧
        c.run limits q.toArray fuel' = ((some (.error e), m), env') ∧ e.address < q.length := by
  intro p q c hfuel hfuel'
  have hp := script.forward_layout .discard
  have hq := script.forward_layout .keepLast
  have hcode : p = q ++ script.dropping := script.layout_discard
  rcases script.keepLast_ends limits (Machine.start h random).toState env with
    ⟨kept, as, s, env', hkept, ht⟩ | ⟨as, c', e, m, env', ht, hturn⟩
  · obtain ⟨bs, hdrop, hdrops⟩ := script.trace_dropping limits s env' hkept
    have htp := ht.append_left hq script.dropping
    rw [← hcode] at htp
    exact .inl ⟨kept, s, env',
      (htp.trans hdrop).run_eq_of_ended hp (Config.turn_at_end _ _) rfl hfuel,
      ht.run_eq_of_ended hq (Config.turn_at_end _ _) rfl hfuel', hkept,
      fun v hv => .of_trace htp (hdrops v hv)⟩
  · obtain ⟨i, hi, -⟩ := Config.isOf_of_turn hturn
    rw [List.getElem?_toArray] at hi
    have htp := ht.append_left hq script.dropping
    have hturnp := Config.turn_append_of_error hq script.dropping hturn
    rw [← hcode] at htp hturnp
    exact .inr ⟨e, m, env', htp.run_eq_of_ended hp hturnp rfl hfuel,
      ht.run_eq_of_ended hq hturn rfl hfuel', (List.getElem?_eq_some_iff.mp hi).1⟩

theorem runsAlike (limits : Limits) (random : Random) :
    RunsAlike limits random ⟨codeLayout 0 (script.code .discard)⟩
      ⟨codeLayout 0 (script.code .keepLast)⟩ (script.keepsValue .keepLast) := by
  intro σ h env fuel fuel' hfuel hfuel'
  rcases script.turns_alike (h := h) limits random env hfuel hfuel' with
    ⟨kept, s, env', hdiscard, hkeep, hvalue, hdrops⟩ | ⟨e, m, env', hdiscard, hkeep, haddress⟩
  · cases hclosing : State.closing s env' with
    | error e =>
        rw [Machine.run_of_refused hdiscard hclosing, Machine.run_of_refused hkeep hclosing]
        exact .refused e kept _ _ hvalue hdrops
    | ok =>
        have hstack : kept.toList.reverse = kept.toList := by cases kept <;> rfl
        rw [Machine.run_of_ok hdiscard hclosing, Machine.run_of_ok hkeep hclosing, hstack]
        exact .succeeds _ _ kept _ _ hvalue hdrops
  · rw [Machine.run_of_error hdiscard, Machine.run_of_error hkeep]
    exact .fails e _ _ haddress

/-- A formula has the value that its discarding program drops last. -/
theorem evalFollows (limits : Limits) (random : Random) {source : String}
    (hscript : parse (tokenize source) = .ok script) :
    EvalFollows limits random source script ⟨codeLayout 0 (script.code .discard)⟩ := by
  have hcompile : compile .keepLast source = .ok ⟨codeLayout 0 (script.code .keepLast)⟩ :=
    compile_eq_ok.mpr ⟨script, hscript, rfl⟩
  rcases script.turns_alike (h := Memory.host) limits random Memory.empty (Nat.lt_succ_self _)
    (Nat.lt_succ_self _) with
    ⟨kept, s, env, hdiscard, hkeep, hkept, hdrops⟩ | ⟨e, m, env, hdiscard, hkeep, -⟩
  · have hrun := Machine.run_of_ok hdiscard (Memory.closing_eq s env)
    have heval := eval_of_run hcompile (Machine.run_of_ok hkeep (Memory.closing_eq s env))
    constructor
    · intro e m' env' herror
      cases hrun.symm.trans herror
    · intro x m' env' hok
      refine ⟨kept, ?_, ?_, hdrops⟩
      · rw [heval]
        cases kept <;> rfl
      · rw [← script.keepsValue_eq_false_iff, ← hkept]
        cases kept <;> simp
  · have hrun := Machine.run_of_error hdiscard
    have heval := eval_of_run hcompile (Machine.run_of_error hkeep)
    constructor
    · intro e' m' env' herror
      obtain rfl : e = e' := by simpa using congrArg (·.1.1) (hrun.symm.trans herror)
      exact heval
    · intro x m' env' hok
      cases hrun.symm.trans hok

end Script

/-- Both programs of a source exist or fail together, the first longer by one instruction when there is a
value to keep. They run alike on equal machines, and the formula follows the run of the discarding
one. -/
theorem discard_agrees_keepLast (source : String) :
    (∀ e, compile .discard source = .error e ↔ compile .keepLast source = .error e) ∧
      ∀ script, parse (tokenize source) = .ok script →
        ∃ p q, compile .discard source = .ok p ∧ compile .keepLast source = .ok q ∧
          p.code.length = q.code.length + (if script.keepsValue .keepLast then 1 else 0) ∧
            ∀ limits random, RunsAlike limits random p q (script.keepsValue .keepLast) ∧
              EvalFollows limits random source script p := by
  constructor
  · intro e
    cases hparse : parse (tokenize source) with
    | error r => simp [compile, hparse]
    | ok script =>
        rw [compile_eq_ok.mpr ⟨script, hparse, rfl⟩, compile_eq_ok.mpr ⟨script, hparse, rfl⟩]
        simp
  · intro script hscript
    refine ⟨_, _, compile_eq_ok.mpr ⟨script, hscript, rfl⟩,
      compile_eq_ok.mpr ⟨script, hscript, rfl⟩, script.length_discard, fun limits random => ?_⟩
    exact ⟨script.runsAlike limits random, script.evalFollows limits random hscript⟩

theorem discard_agrees_keepLast_roll :
    ∃ p q, compile .discard "!2d6 1d4+3" = .ok p ∧ compile .keepLast "!2d6 1d4+3" = .ok q ∧
      p.code.length = q.code.length + 1 ∧ ∀ limits random, RunsAlike limits random p q true := by
  obtain ⟨script, hscript, hkeeps⟩ : ∃ script, parse (tokenize "!2d6 1d4+3") = .ok script ∧
      script.keepsValue .keepLast = true := by
    have hvalue : (parse (tokenize "!2d6 1d4+3")).toOption.map (Script.keepsValue .keepLast) =
        some true := by decide +kernel
    cases hparse : parse (tokenize "!2d6 1d4+3") with
    | error e =>
        rw [hparse] at hvalue
        cases hvalue
    | ok script =>
        rw [hparse] at hvalue
        exact ⟨script, rfl, Option.some.inj hvalue⟩
  obtain ⟨p, q, hp, hq, hlength, hboth⟩ := (discard_agrees_keepLast "!2d6 1d4+3").2 script hscript
  rw [hkeeps] at hlength hboth
  exact ⟨p, q, hp, hq, hlength, fun limits random => (hboth limits random).1⟩

/-- How a program ends on a fresh machine with a disk, and the files that it leaves there. -/
def Program.onDisk (p : Program) (disk : Disk) :
    Option (Except RuntimeError Execution) × Table String Bytes :=
  let (left, disk) := ((Machine.run .standard p (p.code.length + 1)).run
    (Machine.start Disk.host (.ofSeed 0))).run disk
  (left.1, disk.files)

/-- A line for the full device is refused when the file is closed, which each run meets at the end of
its own code. And two files left open on one path leave what is written last, so that the two runs
may differ when they close them in different orders. -/
theorem discard_differs_keepLast :
    (∃ p q, compile .discard "v(?)@1d1 !|&1d1 5 7" = .ok p ∧
      compile .keepLast "v(?)@1d1 !|&1d1 5 7" = .ok q ∧
        (p.onDisk ⟨Utf8.encode "/dev/full\n", "", "", .empty, 0, []⟩).1 =
          some (.error ⟨.host (.system .noSpace), 11⟩) ∧
        (q.onDisk ⟨Utf8.encode "/dev/full\n", "", "", .empty, 0, []⟩).1 =
          some (.error ⟨.host (.system .noSpace), 10⟩)) ∧
      ∃ p q, compile .discard "v5@1d1 v5@2d1 !|&1d1 7 !|&2d1 88" = .ok p ∧
        compile .keepLast "v5@1d1 v5@2d1 !|&1d1 7 !|&2d1 88" = .ok q ∧
          (p.onDisk ⟨[], "", "", .empty, 0, []⟩).2.find? "5" = some (Utf8.encode "88\n") ∧
          (q.onDisk ⟨[], "", "", .empty, 0, [0, 1]⟩).2.find? "5" = some (Utf8.encode "7\n\n") := by
  constructor
  · obtain ⟨p, hp, hfails⟩ : ∃ p ∈ (compile .discard "v(?)@1d1 !|&1d1 5 7").toOption,
        (p.onDisk ⟨Utf8.encode "/dev/full\n", "", "", .empty, 0, []⟩).1 =
          some (.error ⟨.host (.system .noSpace), 11⟩) := by decide +kernel
    obtain ⟨q, hq, hfails'⟩ : ∃ q ∈ (compile .keepLast "v(?)@1d1 !|&1d1 5 7").toOption,
        (q.onDisk ⟨Utf8.encode "/dev/full\n", "", "", .empty, 0, []⟩).1 =
          some (.error ⟨.host (.system .noSpace), 10⟩) := by decide +kernel
    exact ⟨p, q, compile_eq_ok_of_mem hp, compile_eq_ok_of_mem hq, hfails, hfails'⟩
  · obtain ⟨p, hp, hfiles⟩ :
        ∃ p ∈ (compile .discard "v5@1d1 v5@2d1 !|&1d1 7 !|&2d1 88").toOption,
          (p.onDisk ⟨[], "", "", .empty, 0, []⟩).2.find? "5" = some (Utf8.encode "88\n") := by
      decide +kernel
    obtain ⟨q, hq, hfiles'⟩ :
        ∃ q ∈ (compile .keepLast "v5@1d1 v5@2d1 !|&1d1 7 !|&2d1 88").toOption,
          (q.onDisk ⟨[], "", "", .empty, 0, [0, 1]⟩).2.find? "5" = some (Utf8.encode "7\n\n") := by
      decide +kernel
    exact ⟨p, q, compile_eq_ok_of_mem hp, compile_eq_ok_of_mem hq, hfiles, hfiles'⟩

end DiceScript
