import DiceScript.Proofs.Machine.Preservation

/-!
# What a run does with files

An instruction for files takes what it works on from the stack. So at every configuration of a run
it is determined what is about to be done with files, if anything, and the history of a run is the
list of what was done. Nothing else that a program does touches the open files.
-/

namespace DiceScript

/-- What can be done with files. -/
inductive FileAct where
  | opens (access : Access) (path : String) (r : Reference)
  | prints (r : Reference) (v : Value)
  | reads (r : Reference)
  | closes (r : Reference)
deriving DecidableEq

/-- The reference on top of a stack, and the stack under it. -/
def topReference? : List Value → Option (Reference × List Value)
  | count :: sides :: rest =>
    match count.toNumber?, sides.toNumber? with
    | some x, some y => some (⟨Binary64.toInt64 x, Binary64.toInt64 y⟩, rest)
    | _, _ => none
  | _ => none

/-- What an instruction does with files when it finds such a stack, and the stack that is left under
the operands. -/
def Instruction.fileAct? (i : Instruction) (stack : List Value) : Option (FileAct × List Value) :=
  match i.op, topReference? stack with
  | .openFile access, some (r, v :: rest) => some (.opens access v.display r, rest)
  | .filePrint, some (r, v :: rest) => some (.prints r v, rest)
  | .fileRead, some (r, rest) => some (.reads r, rest)
  | .close, some (r, rest) => some (.closes r, rest)
  | _, _ => none

variable {σ : Type} {h : Host (StateM σ)} {limits : Limits}

/-- The action on the state, with the values that it leaves on the stack. -/
def FileAct.perform : FileAct → Action h (List Value)
  | opens access path r => do
    Action.openFile access path r
    return [.text path]
  | prints r v => do
    Action.filePrint r v
    return []
  | reads r => do
    return [.text (← Action.fileRead r)]
  | closes r => do
    Action.close r
    return [.number 0]

/-- The answer when a handle is released, and the surroundings then. -/
def Handle.released : Handle h → σ → Except HostError Unit × σ
  | reader _, env => (.ok (), env)
  | writer w, env => (h.close w).run env

/-- The same for what a reference stands for. -/
def releasedAt (s : State h) (r : Reference) (env : σ) : Except HostError Unit × σ :=
  match s.handles.find? r with
  | some handle => handle.released env
  | none => (.ok (), env)

/-- How an action ends that has done all its work when the host answers. -/
def Outcome.answered {α κ : Type} (a : α) (k : κ) : Except HostError Unit → Outcome κ α
  | .ok () => .done a k
  | .error e => .failed (.host e) k

namespace FileAct

variable (s : State h) (env : σ) (r : Reference)

theorem outcome_release (handle : Handle h) :
    outcome (Action.release handle) s env =
      .answered () (s, (handle.released env).2) (handle.released env).1 := by
  cases handle with
  | reader rd => rfl
  | writer w =>
      have hreleased : (Handle.writer w : Handle h).released env = (h.close w).run env := rfl
      unfold Action.release
      rw [outcome_bind, Action.outcome_ask, hreleased]
      rcases (h.close w).run env with ⟨e | ⟨⟩, env'⟩ <;> rfl

theorem outcome_openFile {access : Access} {path : String} {handle : Handle h} {s' : State h}
    {env' : σ} (hopened : outcome (Action.opened access path) s env = .done handle (s', env')) :
    outcome (Action.openFile access path r) s env =
      .answered () ({ s' with handles := s'.handles.insert r handle }, (releasedAt s' r env').2)
        (releasedAt s' r env').1 := by
  unfold Action.openFile releasedAt
  rw [outcome_bind, hopened]
  dsimp only
  rw [outcome_bind]
  have hget : outcome (Action.handle? r) s' env' = .done (s'.handles.find? r) (s', env') := rfl
  rw [hget]
  dsimp only
  rw [outcome_bind]
  have hset : outcome (Action.setHandle r handle) s' env' =
      .done ⟨⟩ ({ s' with handles := s'.handles.insert r handle }, env') := rfl
  rw [hset]
  dsimp only
  cases s'.handles.find? r with
  | none => rfl
  | some old => exact outcome_release _ _ old

/-- An opening that succeeds puts the file under the reference. Then what was there is released. -/
theorem outcome_opens (access : Access) (path : String) :
    outcome (opens access path r).perform s env =
      match outcome (Action.opened access path) s env with
      | .done handle (s', env') => .answered [.text path]
          ({ s' with handles := s'.handles.insert r handle }, (releasedAt s' r env').2)
          (releasedAt s' r env').1
      | .failed f k => .failed f k := by
  unfold perform
  dsimp only
  cases hopened : outcome (Action.opened access path) s env with
  | failed f k => exact outcome_bind_failed (outcome_bind_failed hopened)
  | done handle k =>
      rw [outcome_bind, outcome_openFile s env r hopened]
      dsimp only
      cases (releasedAt k.1 r k.2).1 <;> rfl

theorem outcome_opens_read (path : String) :
    outcome (opens .read path r).perform s env =
      match (h.openRead path).run env with
      | (.ok rd, env') => .answered [.text path]
          ({ s with handles := s.handles.insert r (.reader rd) }, (releasedAt s r env').2)
          (releasedAt s r env').1
      | (.error e, env') => .failed (.host e) (s, env') := by
  rw [outcome_opens, Action.opened, outcome_bind, Action.outcome_ask]
  rcases (h.openRead path).run env with ⟨e | rd, env'⟩ <;> rfl

theorem outcome_opens_write (path : String) :
    outcome (opens .write path r).perform s env =
      match (h.openWrite path).run env with
      | (.ok w, env') => .answered [.text path]
          ({ s with handles := s.handles.insert r (.writer w),
                    filesWritten := s.filesWritten.push path }, (releasedAt s r env').2)
          (releasedAt s r env').1
      | (.error e, env') => .failed (.host e) (s, env') := by
  rw [outcome_opens, Action.opened, outcome_bind, Action.outcome_ask]
  rcases (h.openWrite path).run env with ⟨e | w, env'⟩ <;> rfl

/-- A print leaves the reference with the writer as it is then, also when the host refuses. -/
theorem outcome_prints (v : Value) :
    outcome (prints r v).perform s env =
      match s.handles.find? r with
      | some (.writer w) =>
        match (h.write w (v.pieces ++ ["\n"])).run env with
        | ((written, w'), env') =>
          .answered [] ({ s with handles := s.handles.insert r (.writer w') }, env') written
      | some (.reader _) => .failed (.wrongHandleMode r .write) (s, env)
      | none => .failed (.unknownHandle r) (s, env) := by
  have hget : outcome (Action.handle? r) s env = .done (s.handles.find? r) (s, env) := rfl
  unfold perform Action.filePrint
  dsimp only
  rw [outcome_bind, outcome_bind, hget]
  rcases s.handles.find? r with _ | (rd | w)
  · rfl
  · rfl
  · dsimp only
    rw [outcome_bind, Action.outcome_ask]
    rcases (h.write w (v.pieces ++ ["\n"])).run env with ⟨⟨e | ⟨⟩, w'⟩, env'⟩ <;> rfl

theorem outcome_reads :
    outcome (reads r).perform s env =
      match s.handles.find? r with
      | some (.reader rd) =>
        match (h.readLine rd).run env with
        | ((line, rd'), env') =>
          match line with
          | .ok (some text) =>
            .done [.text text] ({ s with handles := s.handles.insert r (.reader rd') }, env')
          | .ok none =>
            .failed .endOfInput ({ s with handles := s.handles.insert r (.reader rd') }, env')
          | .error e =>
            .failed (.host e) ({ s with handles := s.handles.insert r (.reader rd') }, env')
      | some (.writer _) => .failed (.wrongHandleMode r .read) (s, env)
      | none => .failed (.unknownHandle r) (s, env) := by
  have hget : outcome (Action.handle? r) s env = .done (s.handles.find? r) (s, env) := rfl
  unfold perform Action.fileRead
  dsimp only
  rw [outcome_bind, outcome_bind, hget]
  rcases s.handles.find? r with _ | (rd | w)
  · rfl
  · dsimp only
    rw [outcome_bind, Action.outcome_ask]
    rcases (h.readLine rd).run env with ⟨⟨e | (_ | text), rd'⟩, env'⟩ <;> rfl
  · rfl

theorem outcome_closes :
    outcome (closes r).perform s env =
      match s.handles.find? r with
      | some handle =>
        .answered [.number 0] ({ s with handles := s.handles.erase r }, (handle.released env).2)
          (handle.released env).1
      | none => .failed (.unknownHandle r) (s, env) := by
  have hget : outcome (Action.handle? r) s env = .done (s.handles.find? r) (s, env) := rfl
  unfold perform Action.close
  dsimp only
  rw [outcome_bind, outcome_bind, hget]
  cases s.handles.find? r with
  | none => rfl
  | some handle =>
      have herase : outcome (modify fun s : State h => { s with handles := s.handles.erase r } :
          Action h PUnit) s env = .done ⟨⟩ ({ s with handles := s.handles.erase r }, env) := rfl
      dsimp only
      rw [outcome_bind, herase]
      dsimp only
      rw [outcome_release]
      cases (handle.released env).1 <;> rfl

end FileAct

namespace Exec

theorem outcome_popNumber (op : Opcode) (v : Value) (stack : List Value) (s : State h) (env : σ) :
    outcome (popNumber op) (⟨s, v :: stack⟩ : Machine h) env =
      match v.toNumber? with
      | some x => .done x (⟨s, stack⟩, env)
      | none => .failed (.typeMismatch op .number v) (⟨s, stack⟩, env) := by
  unfold popNumber
  rw [outcome_bind, outcome_pop_cons]
  dsimp only
  rw [outcome_act]
  unfold Action.number
  cases v.toNumber? <;> rfl

/-- A reference is popped when it is on top. Otherwise popping fails, with nothing else changed. -/
theorem outcome_popReference (op : Opcode) (stack : List Value) (s : State h) (env : σ) :
    (∃ r rest, topReference? stack = some (r, rest) ∧
      outcome (popReference op) ⟨s, stack⟩ env = .done r (⟨s, rest⟩, env)) ∨
    topReference? stack = none ∧
      ∃ f rest, outcome (popReference op) ⟨s, stack⟩ env = .failed f (⟨s, rest⟩, env) := by
  unfold popReference
  match stack with
  | [] => exact .inr ⟨rfl, _, _, rfl⟩
  | [count] =>
      rw [outcome_bind, outcome_popNumber]
      cases count.toNumber? with
      | none => exact .inr ⟨rfl, _, _, rfl⟩
      | some x => exact .inr ⟨rfl, _, _, rfl⟩
  | count :: sides :: rest =>
      unfold topReference?
      dsimp only
      rw [outcome_bind, outcome_popNumber]
      cases count.toNumber? with
      | none => exact .inr ⟨rfl, _, _, rfl⟩
      | some x =>
          dsimp only
          rw [outcome_bind, outcome_popNumber]
          cases sides.toNumber? with
          | none => exact .inr ⟨rfl, _, _, rfl⟩
          | some y => exact .inl ⟨_, _, rfl, rfl⟩

/-- An action whose answer an instruction pushes leaves that value above the stack. -/
theorem outcome_act_push {α : Type} (x : Action h α) (value : α → Value) (s : State h)
    (rest : List Value) (env : σ) :
    outcome (act x >>= fun a => push (value a)) ⟨s, rest⟩ env =
      match outcome (x >>= fun a => pure [value a]) s env with
      | .done vs (s', env') => .done () (⟨s', vs ++ rest⟩, env')
      | .failed f (s', env') => .failed f (⟨s', rest⟩, env') := by
  rw [outcome_bind, outcome_bind, outcome_act]
  cases outcome x s env <;> rfl

variable (limits) in
/-- With its operands on the stack, an instruction for files does what they say. -/
theorem outcome_perform_fileAct {i : Instruction} {stack rest : List Value} {act : FileAct}
    (hact : i.fileAct? stack = some (act, rest)) (s : State h) (env : σ) :
    outcome (perform limits i) ⟨s, stack⟩ env =
      match outcome act.perform s env with
      | .done vs (s', env') => .done () (⟨s', vs ++ rest⟩, env')
      | .failed f (s', env') => .failed f (⟨s', rest⟩, env') := by
  obtain ⟨o, imm⟩ := i
  rcases outcome_popReference o stack s env with ⟨r, under, htop, hpop⟩ | ⟨htop, -⟩
  · unfold Instruction.fileAct? at hact
    rw [htop] at hact
    cases o with
    | openFile access =>
        cases under with
        | nil => cases hact
        | cons v under =>
            cases hact
            unfold perform
            dsimp only
            rw [outcome_bind, hpop]
            dsimp only
            rw [outcome_bind, outcome_pop_cons]
            exact outcome_act_push (Action.openFile access v.display r)
              (fun _ => .text v.display) s rest env
    | filePrint =>
        cases under with
        | nil => cases hact
        | cons v under =>
            cases hact
            unfold perform FileAct.perform
            dsimp only
            rw [outcome_bind, hpop]
            dsimp only
            rw [outcome_bind, outcome_pop_cons]
            dsimp only
            -- nothing is pushed behind a print
            rw [outcome_bind, outcome_act]
            cases outcome (Action.filePrint r v) s env <;> rfl
    | fileRead =>
        cases hact
        unfold perform
        dsimp only
        rw [outcome_bind, hpop]
        exact outcome_act_push (Action.fileRead r) .text s rest env
    | close =>
        cases hact
        unfold perform
        dsimp only
        rw [outcome_bind, hpop]
        exact outcome_act_push (Action.close r) (fun _ => .number 0) s rest env
    | _ => cases hact
  · unfold Instruction.fileAct? at hact
    rw [htop] at hact
    cases o <;> cases hact

variable (limits) in
/-- Without them it fails, and nothing but the stack changes. -/
theorem outcome_perform_noFileAct {i : Instruction} {stack : List Value}
    (hact : i.fileAct? stack = none) (hfiles : i.op.usesFiles = true) (s : State h) (env : σ) :
    ∃ f rest, outcome (perform limits i) ⟨s, stack⟩ env = .failed f (⟨s, rest⟩, env) := by
  obtain ⟨o, imm⟩ := i
  rcases outcome_popReference o stack s env with ⟨r, under, htop, hpop⟩ | ⟨htop, f, rest, hpop⟩
  · unfold Instruction.fileAct? at hact
    rw [htop] at hact
    cases o with
    | openFile access =>
        cases under with
        | nil =>
            refine ⟨.stackUnderflow (.openFile access), [], ?_⟩
            unfold perform
            dsimp only
            rw [outcome_bind, hpop]
            rfl
        | cons v under => cases hact
    | filePrint =>
        cases under with
        | nil =>
            refine ⟨.stackUnderflow .filePrint, [], ?_⟩
            unfold perform
            dsimp only
            rw [outcome_bind, hpop]
            rfl
        | cons v under => cases hact
    | fileRead => cases hact
    | close => cases hact
    | _ => cases hfiles
  · refine ⟨f, rest, ?_⟩
    unfold perform
    cases o with
    | openFile access => exact outcome_bind_failed hpop
    | filePrint => exact outcome_bind_failed hpop
    | fileRead => exact outcome_bind_failed hpop
    | close => exact outcome_bind_failed hpop
    | _ => cases hfiles

theorem usesFiles_of_fileAct {i : Instruction} {stack : List Value} {a : FileAct × List Value}
    (hact : i.fileAct? stack = some a) : i.op.usesFiles = true := by
  obtain ⟨o, imm⟩ := i
  unfold Instruction.fileAct? at hact
  split at hact
  iterate 4 (rename_i ho _; cases ho; rfl)
  cases hact

theorem step_of_usesFiles {i : Instruction} (hfiles : i.op.usesFiles = true) :
    (step limits i : Exec h Flow) = do perform limits i; return .next := by
  obtain ⟨o, imm⟩ := i
  unfold step
  split
  · rename_i ho
    cases ho
    cases hfiles
  · rename_i ho
    cases ho
    cases hfiles
  · rfl

end Exec

/-- The act gets through to its file, so that something is changed even if the host then refuses. A
read changes nothing. -/
def FileAct.getsThrough (s : State h) (env : σ) : FileAct → Bool
  | opens .read path _ => ((h.openRead path).run env).1.isOk
  | opens .write path _ => ((h.openWrite path).run env).1.isOk
  | prints r _ =>
    match s.handles.find? r with
    | some (.writer _) => true
    | _ => false
  | reads _ => false
  | closes r => (s.handles.find? r).isSome

/-! ## Turns -/

namespace Config

variable {code : Array Instruction} {c c' : Config h} {a : FileAct}

/-- What is about to be done with files. -/
def fileAct? (code : Array Instruction) (c : Config h) : Option FileAct :=
  code[c.address]?.bind fun i => (i.fileAct? c.machine.stack).map (·.1)

/-- What is done with files in a turn that ends the run. -/
def lastAct? (code : Array Instruction) (c : Config h) : Option FileAct :=
  (c.fileAct? code).filter (·.getsThrough c.machine.toState c.env)

/-- The turn at `c` ends the run with a fault. -/
def FailsWith (limits : Limits) (code : Array Instruction) (c : Config h) (f : Fault) : Prop :=
  ∃ m env, c.turn limits code = ((.ended (.error ⟨f, c.address⟩), m), env)

variable (limits) in
theorem exists_turn_of_fileAct (ha : c.fileAct? code = some a) :
    ∃ rest, c.turn limits code =
      match outcome a.perform c.machine.toState c.env with
      | .done vs (s, env) => ((.continues (c.address + 1), ⟨s, vs ++ rest⟩), env)
      | .failed f (s, env) => ((.ended (.error ⟨f, c.address⟩), ⟨s, rest⟩), env) := by
  obtain ⟨i, hi, hsome⟩ := Option.bind_eq_some_iff.mp ha
  obtain ⟨⟨a', rest⟩, hact, ha'⟩ := Option.map_eq_some_iff.mp hsome
  obtain rfl : a' = a := ha'
  refine ⟨rest, ?_⟩
  have hperform := Exec.outcome_perform_fileAct limits hact c.machine.toState c.env
  rw [turn_of_some hi, Exec.step_of_usesFiles (Exec.usesFiles_of_fileAct hact), outcome_bind,
    hperform]
  cases outcome a'.perform c.machine.toState c.env <;> rfl

/-- The run goes on when what was about to be done with files succeeds. -/
theorem Continues.of_fileAct (hc : c.Continues limits code c') (ha : c.fileAct? code = some a) :
    ∃ vs rest, outcome a.perform c.machine.toState c.env = .done vs (c'.machine.toState, c'.env) ∧
      c'.machine.stack = vs ++ rest := by
  obtain ⟨rest, hturn⟩ := exists_turn_of_fileAct limits ha
  unfold Continues at hc
  rw [hc] at hturn
  cases hx : outcome a.perform c.machine.toState c.env with
  | done vs k =>
      rw [hx] at hturn
      simp only [Prod.mk.injEq] at hturn
      obtain ⟨⟨-, hmachine⟩, henv⟩ := hturn
      exact ⟨vs, rest, by rw [hmachine, henv], by rw [hmachine]⟩
  | failed f k =>
      rw [hx] at hturn
      simp at hturn

/-- It ends when that fails. -/
theorem ended_of_fileAct {r : Except RuntimeError Unit} {m : Machine h} {env : σ}
    (hturn : c.turn limits code = ((.ended r, m), env)) (ha : c.fileAct? code = some a) :
    ∃ f, r = .error ⟨f, c.address⟩ ∧
      outcome a.perform c.machine.toState c.env = .failed f (m.toState, env) := by
  obtain ⟨rest, hturn'⟩ := exists_turn_of_fileAct limits ha
  rw [hturn] at hturn'
  cases hx : outcome a.perform c.machine.toState c.env with
  | done vs k =>
      rw [hx] at hturn'
      simp at hturn'
  | failed f k =>
      rw [hx] at hturn'
      simp only [Prod.mk.injEq, Turn.ended.injEq] at hturn'
      obtain ⟨⟨rfl, rfl⟩, rfl⟩ := hturn'
      exact ⟨f, rfl, rfl⟩

theorem failsWith_iff (ha : c.fileAct? code = some a) (f : Fault) :
    c.FailsWith limits code f ↔
      ∃ k, outcome a.perform c.machine.toState c.env = .failed f k := by
  constructor
  · rintro ⟨m, env, hturn⟩
    obtain ⟨f', hf, hx⟩ := ended_of_fileAct hturn ha
    cases hf
    exact ⟨_, hx⟩
  · rintro ⟨k, hx⟩
    obtain ⟨rest, hturn⟩ := exists_turn_of_fileAct limits ha
    rw [hx] at hturn
    exact ⟨_, _, hturn⟩

end Config

/-- A turn that does nothing with files keeps what no action but those with files breaks. -/
theorem Quiet.turn {I : State h × σ → Prop} (hI : Quiet I) (limits : Limits)
    {code : Array Instruction} {c : Config h} (ha : c.fileAct? code = none)
    (hc : I (c.machine.toState, c.env)) :
    I ((c.turn limits code).1.2.toState, (c.turn limits code).2) := by
  cases hi : code[c.address]? with
  | none =>
      rw [Config.turn_of_none hi]
      exact hc
  | some i =>
      have hnone : i.fileAct? c.machine.stack = none := by
        rw [Config.fileAct?, hi] at ha
        exact Option.map_eq_none_iff.mp ha
      rw [Config.turn_of_some hi]
      by_cases hfiles : i.op.usesFiles = true
      · obtain ⟨f, rest, hx⟩ := Exec.outcome_perform_noFileAct limits hnone hfiles
          c.machine.toState c.env
        rw [Exec.step_of_usesFiles hfiles, outcome_bind_failed hx]
        exact hc
      · have hlast := hI.step limits i (Bool.eq_false_iff.mpr hfiles) c.machine c.env hc
        rcases hs : outcome (Exec.step limits i) c.machine c.env with
          ⟨flow, s, env⟩ | ⟨f, s, env⟩
        · rw [hs] at hlast
          cases flow with
          | next => exact hlast
          | jump target =>
              dsimp only
              split
              · exact hlast
              · exact hlast
        · rw [hs] at hlast
          exact hlast

theorem Quiet.continues {I : State h × σ → Prop} (hI : Quiet I) {code : Array Instruction}
    {c c' : Config h} (hc : c.Continues limits code c') (ha : c.fileAct? code = none)
    (h : I (c.machine.toState, c.env)) : I (c'.machine.toState, c'.env) := by
  have hturn := hI.turn limits ha h
  unfold Config.Continues at hc
  rw [hc] at hturn
  exact hturn

/-! ## Histories -/

/-- The run from one configuration to another, with what it did with files. -/
inductive History (limits : Limits) (code : Array Instruction) (c₀ : Config h) :
    List FileAct → Config h → Prop
  | start : History limits code c₀ [] c₀
  | next {acts : List FileAct} {c c' : Config h} : History limits code c₀ acts c →
      c.Continues limits code c' →
        History limits code c₀ (acts ++ (c.fileAct? code).toList) c'

namespace History

variable {code : Array Instruction} {c₀ c₁ c c' : Config h} {acts acts' : List FileAct}

theorem trans (h₁ : History limits code c₀ acts c₁) (h₂ : History limits code c₁ acts' c) :
    History limits code c₀ (acts ++ acts') c := by
  induction h₂ with
  | start => rwa [List.append_nil]
  | next _ hc ih =>
      rw [← List.append_assoc]
      exact ih.next hc

/-- A history begins with its first turn. -/
theorem cons (hc : c.Continues limits code c₁) (hh : History limits code c₁ acts c') :
    History limits code c ((c.fileAct? code).toList ++ acts) c' :=
  (History.start.next hc).trans hh

theorem exists_of_trace {as : List Nat} (ht : Trace limits code c as c') :
    ∃ acts, History limits code c acts c' := by
  induction ht with
  | nil c => exact ⟨[], .start⟩
  | cons hc _ ih =>
      obtain ⟨acts, h⟩ := ih
      exact ⟨_, .cons hc h⟩

theorem exists_trace (hh : History limits code c₀ acts c) : ∃ as, Trace limits code c₀ as c := by
  induction hh with
  | start => exact ⟨[], .nil _⟩
  | next _ hc ih =>
      obtain ⟨as, ht⟩ := ih
      exact ⟨_, ht.trans (.cons hc (.nil _))⟩

/-- What no program breaks holds after every history. -/
theorem stable {I : State h × σ → Prop} (hI : Stable I) (hh : History limits code c₀ acts c)
    (hstart : I (c₀.machine.toState, c₀.env)) : I (c.machine.toState, c.env) := by
  induction hh with
  | start => exact hstart
  | next _ hc ih => exact hI.continues hc ih

end History

/-- What a run does with files in so many turns, and where it stands then, if it goes on so far. -/
def Config.history? (limits : Limits) (code : Array Instruction) :
    Nat → Config h → Option (List FileAct × Config h)
  | 0, c => some ([], c)
  | n + 1, c =>
    match c.turn limits code with
    | ((.continues address, s), env) =>
      (history? limits code n ⟨address, s, env⟩).map fun (acts, c') =>
        ((c.fileAct? code).toList ++ acts, c')
    | _ => none

theorem Config.history_of_history? {code : Array Instruction} {n : Nat} {c c' : Config h}
    {acts : List FileAct} (hh : c.history? limits code n = some (acts, c')) :
    History limits code c acts c' := by
  induction n generalizing c acts with
  | zero =>
      cases hh
      exact .start
  | succ n ih =>
      rw [history?] at hh
      split at hh
      · rename_i address s env hturn
        obtain ⟨⟨rest, c₁⟩, hrest, hpair⟩ := Option.map_eq_some_iff.mp hh
        cases hpair
        have hc : c.Continues limits code ⟨address, s, env⟩ := hturn
        exact .cons hc (ih hrest)
      · cases hh

end DiceScript
