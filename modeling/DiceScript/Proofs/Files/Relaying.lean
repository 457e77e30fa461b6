import DiceScript.Proofs.Code.Placement
import DiceScript.Proofs.Files.ReadBack

/-!
# Programs that print lines and read them

A program that pushes the operands of acts with files and does them, one after the other, does each
of them as it is done alone. So a program that prints values to a file, closes it and reads on comes
to the end of the input, and then the lines lie on the stack.
-/

namespace DiceScript

open Machine

variable {σ : Type} {h : Host (StateM σ)} {limits : Limits} {code : List Instruction} {a : Nat}
  {act : FileAct}

/-! ## Acts in a program -/

/-- Each instruction pushes its value. -/
def Pushes (is : List Instruction) (vs : List Value) : Prop :=
  is.map Instruction.literal? = vs.map some

theorem Instruction.op_of_literal? {i : Instruction} {v : Value} (hi : i.literal? = some v) :
    i.op = .push ∨ i.op = .pushText := by
  unfold literal? at hi
  split at hi
  · exact .inl ‹_›
  · exact .inl ‹_›
  · exact .inr ‹_›
  · cases hi

theorem Exec.perform_of_literal? {i : Instruction} {v : Value} (hi : i.literal? = some v) :
    (perform limits i : Exec h Unit) = push v := by
  have hperform : (perform limits i : Exec h Unit) = required i.op i.literal? >>= push := by
    obtain ⟨op, imm⟩ := i
    rcases Instruction.op_of_literal? hi with hop | hop <;> cases hop <;> rfl
  rw [hperform, hi]
  rfl

theorem Follows.pushes {is : List Instruction} {vs : List Value} (his : Pushes is vs)
    (hplaced : Placed code a is) (before : List Value) :
    Follows limits code a before (pure () : Action h Unit) fun _ =>
      (a + is.length, vs.reverse ++ before) := by
  induction is generalizing a before vs with
  | nil =>
      obtain rfl : vs = [] := List.map_eq_nil_iff.mp (Eq.symm his)
      exact .pure_of_eq rfl
  | cons i is ih =>
      obtain ⟨v, vs, rfl⟩ : ∃ v ws, vs = v :: ws :=
        List.exists_cons_of_ne_nil (by rintro rfl; cases his)
      obtain ⟨hi, his⟩ := List.cons_eq_cons.mp his
      have hplain : ¬ (i.op = .jump ∨ i.op = .jumpIfFalse) := by
        rcases Instruction.op_of_literal? hi with hop | hop
        · simp [hop]
        · simp [hop]
      have hpush : Follows limits code a before (pure () : Action h Unit) fun _ =>
          (a + 1, v :: before) := by
        refine .plain hplaced.head hplain ?_
        rw [Exec.perform_of_literal? hi]
        exact .push_of_eq rfl
      have hrest := hpush.bind fun _ => ih his hplaced.tail (v :: before)
      rw [pure_bind, Nat.add_assoc, Nat.add_comm 1] at hrest
      simpa only [List.length_cons, List.reverse_cons, List.append_assoc, List.singleton_append]
        using hrest

/-- The instructions push the operands of an act, and the last one does it. -/
def Enacts (is : List Instruction) (act : FileAct) : Prop :=
  ∃ pushes vs i, is = pushes ++ [i] ∧ Pushes pushes vs ∧
    ∀ S, i.fileAct? (vs.reverse ++ S) = some (act, S)

namespace Enacts

variable {is : List Instruction}

theorem op_ne_jump (he : Enacts is act) :
    ∀ i ∈ is, ¬ (i.op = .jump ∨ i.op = .jumpIfFalse) := by
  obtain ⟨pushes, vs, i, rfl, hpushes, hact⟩ := he
  intro j hj
  rcases List.mem_append.mp hj with hj | hj
  · have hmem : j.literal? ∈ vs.map some := hpushes ▸ List.mem_map_of_mem hj
    obtain ⟨v, -, hv⟩ := List.mem_map.mp hmem
    rcases Instruction.op_of_literal? hv.symm with hop | hop <;> simp [hop]
  · obtain rfl := List.mem_singleton.mp hj
    have hfiles := Exec.usesFiles_of_fileAct (hact [])
    rintro (hop | hop) <;> rw [hop] at hfiles <;> cases hfiles

variable (limits) in
/-- The run comes to behind the act when that is done, and ends when it fails. -/
theorem runs (he : Enacts is act) (hplaced : Placed code a is) (S : List Value) (s : State h)
    (env : σ) :
    match outcome act.perform s env with
    | .done vs (s', env') => ∃ as, Trace limits code.toArray ⟨a, ⟨s, S⟩, env⟩ as
        ⟨a + is.length, ⟨s', vs ++ S⟩, env'⟩
    | .failed f (s', env') => ∃ (c : Config h) (as : List Nat),
        Trace limits code.toArray ⟨a, ⟨s, S⟩, env⟩ as c ∧
          c.turn limits code.toArray = ((.ended (.error ⟨f, c.address⟩), ⟨s', S⟩), env') := by
  obtain ⟨pushes, vs, i, rfl, hpushes, hact⟩ := he
  have hfollows : Follows limits code a [] (pure () : Action h Unit) fun _ =>
      (a + pushes.length, vs.reverse ++ []) := .pushes hpushes hplaced.left []
  have hpassed := hfollows S s env
  rw [outcome_pure, List.append_nil, List.nil_append] at hpassed
  obtain ⟨as, ht⟩ := hpassed.exists_trace
  have hturn : (⟨a + pushes.length, ⟨s, vs.reverse ++ S⟩, env⟩ : Config h).turn limits
      code.toArray = _ := Config.turn_of_some hplaced.right.head
  rw [Exec.step_of_usesFiles (Exec.usesFiles_of_fileAct (hact S)), outcome_bind,
    Exec.outcome_perform_fileAct limits (hact S)] at hturn
  cases hx : outcome act.perform s env with
  | done ws k =>
      rw [hx] at hturn
      refine ⟨_, ht.trans (.cons ?_ (.nil _))⟩
      rw [List.length_append, ← Nat.add_assoc]
      exact hturn
  | failed f k =>
      rw [hx] at hturn
      exact ⟨_, as, ht, hturn⟩

end Enacts

/-- Instructions that do several acts, one after the other and nothing else. -/
inductive Enacted : List Instruction → List FileAct → Prop
  | nil : Enacted [] []
  | snoc {is js : List Instruction} {acts : List FileAct} {act : FileAct} :
      Enacted is acts → Enacts js act → Enacted (is ++ js) (acts ++ [act])

namespace Enacted

variable {is js : List Instruction} {acts acts' : List FileAct}

theorem split (he : Enacted is (acts ++ [act])) :
    ∃ is₁ is₂, is = is₁ ++ is₂ ∧ Enacted is₁ acts ∧ Enacts is₂ act := by
  generalize hacts : acts ++ [act] = all at he
  cases he with
  | nil => simp at hacts
  | snoc he hlast =>
      obtain ⟨rfl, rfl⟩ := List.append_singleton_inj.mp hacts
      exact ⟨_, _, rfl, he, hlast⟩

theorem append (he : Enacted is acts) (he' : Enacted js acts') :
    Enacted (is ++ js) (acts ++ acts') := by
  induction he' with
  | nil => rwa [List.append_nil, List.append_nil]
  | snoc _ hlast ih =>
      rw [← List.append_assoc, ← List.append_assoc]
      exact ih.snoc hlast

theorem single (he : Enacts is act) : Enacted is [act] :=
  Enacted.nil.snoc he

/-- Nothing jumps. -/
theorem forward (he : Enacted is acts) (a b : Nat) : Forward a b is := by
  have hplain : ∀ i ∈ is, ¬ (i.op = .jump ∨ i.op = .jumpIfFalse) := by
    induction he with
    | nil => exact nofun
    | snoc _ hlast ih => exact List.forall_mem_append.mpr ⟨ih, hlast.op_ne_jump⟩
  intro k i hi hop
  exact absurd hop (hplain i (List.mem_of_getElem? hi))

end Enacted

/-! ## Lines through a file -/

namespace LineFile

variable {path : String} {p p' : FilePhase} {acts : List FileAct} {ws : List Value}
  {is : List Instruction}

variable (limits) in
/-- Acts that a file is ready for are done in their turn, and their values come to the stack. -/
theorem exists_trace (f : LineFile h path) (hp : p.Passes path acts ws p') (he : Enacted is acts)
    (hplaced : Placed code a is) (S : List Value) {s : State h} {env : σ}
    (hstands : f.stands p (s, env)) :
    ∃ s' env' as, Trace limits code.toArray ⟨a, ⟨s, S⟩, env⟩ as
        ⟨a + is.length, ⟨s', ws ++ S⟩, env'⟩ ∧ f.stands p' (s', env') := by
  induction he generalizing p' ws with
  | nil =>
      obtain ⟨rfl, rfl⟩ := hp.eq_of_nil
      exact ⟨s, env, [], .nil _, hstands⟩
  | @snoc is js acts act _ hlast ih =>
      obtain ⟨p₁, ws', vs, hfirst, hs, rfl⟩ := hp.split
      obtain ⟨s₁, env₁, as, ht, hstands₁⟩ := ih hfirst hplaced.left
      obtain ⟨⟨s', env'⟩, hx, hstands'⟩ := f.steps p₁ p' act vs hs s₁ env₁ hstands₁
      have hruns := hlast.runs limits hplaced.right (ws' ++ S) s₁ env₁
      rw [hx] at hruns
      obtain ⟨bs, ht'⟩ := hruns
      rw [List.length_append, ← Nat.add_assoc, List.append_assoc]
      exact ⟨s', env', _, ht.trans ht', hstands'⟩

end LineFile

/-- The acts that print values to a file, one a line, close it, and read a line more than that. -/
def relaying (path : String) (w r : Reference) (vs : List Value) : List FileAct :=
  printing path w vs ++ .opens .read path r :: List.replicate vs.length (.reads r) ++ [.reads r]

/-- Any run of the program ends at the end of the input, with the lines on the stack. -/
def Relays (limits : Limits) (p : Program) (path : String) (vs : List Value) (m : Machine h)
    (env : σ) : Prop :=
  ∀ fuel, p.code.length < fuel → ∃ address left env',
    ((Machine.run limits p fuel).run m).run env =
        ((some (.error ⟨.endOfInput, address⟩), left), env') ∧
      left.stack = (vs.map fun v => .text v.display).reverse ++
        (FilePhase.leftOnOpening path ++ m.stack)

/-- A program that does this finds its lines again, over a host that keeps lines. -/
theorem LineFile.relays {path : String} (f : LineFile h path) {m : Machine h} {env : σ}
    (hstart : f.stands .free (m.toState, env)) {vs : List Value}
    (hvs : ∀ v ∈ vs, KeepsAsLine v.display) {p : Program} {w r : Reference}
    (he : Enacted p.code (relaying path w r vs)) : Relays limits p path vs m env := by
  intro fuel hfuel
  have hforward := he.forward 0 p.code.length
  obtain ⟨front, last, hcode, hfront, hlast⟩ := he.split
  have hplaced : Placed p.code 0 (front ++ last) := hcode ▸ Placed.whole _
  obtain ⟨s, env₁, as, ht, hstands⟩ := f.exists_trace limits
    (FilePhase.passes_reads path w r hvs le_rfl) hfront hplaced.left m.stack hstart
  rw [List.take_length] at ht
  rw [List.drop_length] at hstands
  obtain ⟨⟨s', env'⟩, hx⟩ := f.ends r s env₁ hstands
  have hruns := hlast.runs limits hplaced.right
    ((vs.map fun v => .text v.display).reverse ++ FilePhase.leftOnOpening path ++ m.stack) s env₁
  rw [hx] at hruns
  obtain ⟨c, bs, ht', hend⟩ := hruns
  have hrun := (ht.trans ht').run_eq_of_ended hforward hend rfl hfuel
  refine ⟨_, _, _, Machine.run_of_error hrun, ?_⟩
  exact List.append_assoc _ _ _

/-! ## Printing and reading -/

/-- Values that are printed to a file come back as lines, from memory and from disk. On a disk the
path has to lead to a file that no reference is writing to, and no reference may write to the full
device, which refuses what is let go. -/
structure KeptByFiles (vs : List Value) : Prop where
  memory : ∀ (limits : Limits) (code : Array Instruction) (path : String) (w r : Reference)
    (c₀ : Config Memory.host), ReadsBack limits code c₀ path w r vs
  disk : ∀ (limits : Limits) (code : Array Instruction) (path : String) (w r : Reference)
    (c₀ : Config Disk.host) (name : String), Path.fileOf? path = some name →
      Disk.Unwritten name c₀.machine.toState → ReadsBack limits code c₀ path w r vs
  memoryRuns : ∀ (limits : Limits) (p : Program) (path : String) (w r : Reference),
    Enacted p.code (relaying path w r vs) →
      ∀ (m : Machine Memory.host) (env : Memory), Relays limits p path vs m env
  diskRuns : ∀ (limits : Limits) (p : Program) (path : String) (w r : Reference),
    Enacted p.code (relaying path w r vs) →
      ∀ (m : Machine Disk.host) (env : Disk) (name : String), Path.fileOf? path = some name →
        Disk.Unwritten name m.toState → Relays limits p path vs m env

theorem keptByFiles {vs : List Value} (hvs : ∀ v ∈ vs, KeepsAsLine v.display) : KeptByFiles vs where
  memory := fun _ code path w r _ => (Memory.lineFile path).readsBack trivial hvs code w r
  disk := fun _ code _ w r _ _ hpath hstart =>
    (Disk.lineFile hpath).readsBack hstart hvs code w r
  memoryRuns := fun _ _ path _ _ he _ _ => (Memory.lineFile path).relays trivial hvs he
  diskRuns := fun _ _ _ _ _ he _ _ _ hpath hstart =>
    (Disk.lineFile hpath).relays hstart hvs he

section Relay

variable (path : String) (c : Coordinates)

/-- Operands, coordinates and an instruction for files. -/
def fileCode (pushes : List Instruction) (op : Opcode) : List Instruction :=
  pushes ++ [⟨.push, .num c.sides⟩, ⟨.push, .num c.count⟩] ++ [⟨op, .none⟩]

/-- A program that prints what the instructions push. -/
def relay (pushes : List Instruction) : Program :=
  let opening (access : Access) := fileCode c [⟨.pushText, .text path⟩] (.openFile access)
  ⟨opening .write ++ (pushes.flatMap fun i => fileCode c [i] .filePrint) ++ fileCode c [] .close ++
    opening .read ++ (List.replicate pushes.length (fileCode c [] .fileRead)).flatten ++
    fileCode c [] .fileRead⟩

theorem enacts_fileCode {pushes : List Instruction} (vs : List Value) {op : Opcode}
    (hpushes : Pushes pushes vs)
    (hact : ∀ S, Instruction.fileAct? ⟨op, .none⟩ (c.values ++ (vs.reverse ++ S)) = some (act, S)) :
    Enacts (fileCode c pushes op) act := by
  refine ⟨_, vs ++ [.number c.sides, .number c.count], _, rfl, ?_, fun S => ?_⟩
  · rw [Pushes, List.map_append, List.map_append, hpushes]
    rfl
  · rw [List.reverse_append, List.append_assoc]
    exact hact S

theorem enacts_opens (access : Access) : Enacts
    (fileCode c [⟨.pushText, .text path⟩] (.openFile access)) (.opens access path c.reference) :=
  enacts_fileCode c [.text path] rfl fun _ => rfl

theorem enacts_reads : Enacts (fileCode c [] .fileRead) (.reads c.reference) :=
  enacts_fileCode c [] rfl fun _ => rfl

theorem enacted_prints {pushes : List Instruction} {vs : List Value} (hpushes : Pushes pushes vs) :
    Enacted (pushes.flatMap fun i => fileCode c [i] .filePrint)
      (vs.map (.prints c.reference)) := by
  induction pushes generalizing vs with
  | nil =>
      obtain rfl : vs = [] := List.map_eq_nil_iff.mp (Eq.symm hpushes)
      exact .nil
  | cons i pushes ih =>
      obtain ⟨v, vs, rfl⟩ : ∃ v ws, vs = v :: ws :=
        List.exists_cons_of_ne_nil (by rintro rfl; cases hpushes)
      obtain ⟨hi, hpushes⟩ := List.cons_eq_cons.mp hpushes
      have hpush : Pushes [i] [v] := congrArg ([·]) hi
      have hfirst : Enacts (fileCode c [i] .filePrint) (.prints c.reference v) :=
        enacts_fileCode c [v] hpush fun _ => rfl
      exact (Enacted.single hfirst).append (ih hpushes)

theorem enacted_reads (n : Nat) : Enacted (List.replicate n (fileCode c [] .fileRead)).flatten
    (List.replicate n (.reads c.reference)) := by
  induction n with
  | zero => exact .nil
  | succ n ih => exact (Enacted.single (enacts_reads c)).append ih

theorem enacted_relay {pushes : List Instruction} {vs : List Value} (hpushes : Pushes pushes vs) :
    Enacted (relay path c pushes).code (relaying path c.reference c.reference vs) := by
  have hlength : pushes.length = vs.length := by simpa using congrArg List.length hpushes
  have hcloses : Enacts (fileCode c [] .close) (.closes c.reference) :=
    enacts_fileCode c [] rfl fun _ => rfl
  have hprints := (Enacted.single (enacts_opens path c .write)).append (enacted_prints c hpushes)
  have hopens := (hprints.snoc hcloses).snoc (enacts_opens path c .read)
  have hall := (hopens.append (enacted_reads c vs.length)).snoc (enacts_reads c)
  rw [relay, hlength]
  simpa only [relaying, printing, List.append_assoc, List.cons_append, List.nil_append] using hall

end Relay

/-- A byte string is read segment by segment. Texts that have no line feed and do not end in a
carriage return come back when they are printed to a file, and there are programs that do so. -/
theorem readLine_accounts {texts : List String} (htexts : ∀ text ∈ texts, KeepsAsLine text) :
    (∀ bytes, ReadBySegments bytes) ∧ KeptByFiles (texts.map .text) ∧
      ∀ path c, Enacted (relay path c (texts.map fun text => ⟨.pushText, .text text⟩)).code
        (relaying path c.reference c.reference (texts.map .text)) := by
  refine ⟨readBySegments, keptByFiles fun v hv => ?_, fun path c => enacted_relay path c ?_⟩
  · obtain ⟨text, htext, rfl⟩ := List.mem_map.mp hv
    exact htexts text htext
  · rw [Pushes, List.map_map, List.map_map]
    rfl

/-- An empty line, a carriage return inside one and a character of two bytes come back, and reading
on fails. -/
theorem readLine_accounts_relay :
    let texts := ["", "a\rb", "é"]
    let p := relay "log" ⟨1, 1⟩ (texts.map fun text => ⟨.pushText, .text text⟩)
    let after := ((Machine.run .standard p 64).run
      (Machine.start Memory.host (.ofSeed 7))).run .empty
    (after.1.1.map fun r => (r.mapError RuntimeError.message).map fun _ => ()) =
        some (.error "read past end of input at 34") ∧
      (after.1.2.stack.take 3).map Value.display = texts.reverse ∧
        (∀ text ∈ texts, KeepsAsLine text) ∧
          (∀ bytes, ReadBySegments bytes) ∧
            Relays .standard p "log" (texts.map .text) (Machine.start Memory.host (.ofSeed 7))
              .empty ∧
            Relays .standard p "log" (texts.map .text) (Machine.start Disk.host (.ofSeed 7))
              ⟨[], "", "", .empty, 0, []⟩ := by
  intro texts p after
  have hstack : (after.1.2.stack.take 3).map Value.display = texts.reverse := by decide +kernel
  have htexts : ∀ text ∈ texts, KeepsAsLine text := by decide
  obtain ⟨hsegments, hkept, hcode⟩ := readLine_accounts htexts
  refine ⟨by decide +kernel, hstack, htexts, hsegments, ?_, ?_⟩
  · exact hkept.memoryRuns _ p "log" _ _ (hcode "log" ⟨1, 1⟩) _ _
  · have hpath : Path.fileOf? "log" = some "log" := by decide +kernel
    exact hkept.diskRuns _ p "log" _ _ (hcode "log" ⟨1, 1⟩) _ _ "log" hpath nofun

end DiceScript
