import DiceScript.Proofs.Files.Memory
import DiceScript.Proofs.Machine.Closing

/-!
# Files over many runs

Every run of a session starts without open files, over the files that the run before it left. So the
files in memory follow the histories of all runs so far, the last of which need not have ended, and
each handle the history of its own run.
-/

namespace DiceScript

open Machine

variable {σ : Type} {h : Host (StateM σ)} {limits : Limits} {p : Program}

/-- The reference that an act needs open, and for what when it matters. -/
def FileAct.wants : FileAct → Option (Reference × Option Access)
  | opens _ _ _ => none
  | prints r _ => some (r, some .write)
  | reads r => some (r, some .read)
  | closes r => some (r, none)

namespace Run

/-- In the run the configuration `c` is reached, after these acts with files. -/
def Reaches (limits : Limits) (p : Program) (r : Run h) (acts : List FileAct) (c : Config h) :
    Prop :=
  History limits p.code.toArray ⟨0, r.found, r.before⟩ acts c

/-- The whole run does these acts with files, and closes what is open then. The last of them may have
been refused when it had got through to its file, which ends the run. -/
def Performs (limits : Limits) (p : Program) (r : Run h) (acts : List FileAct) : Prop :=
  ∃ before c result m env, r.Reaches limits p before c ∧
    acts = before ++ (c.lastAct? p.code.toArray).toList ∧
      c.turn limits p.code.toArray = ((.ended result, m), env) ∧ r.after = m.closed env ∧
        r.outcome.map (fun _ => ()) = reported p.code.length result (m.closing env)

/-- A run that ended performs the acts on the way to its last turn. -/
theorem IsOf.performs {r : Run h} (hr : r.IsOf limits p) {acts : List FileAct} {c : Config h}
    {result : Except RuntimeError Unit} {m : Machine h} {env : σ}
    (hreached : r.Reaches limits p acts c)
    (hturn : c.turn limits p.code.toArray = ((.ended result, m), env)) :
    r.Performs limits p (acts ++ (c.lastAct? p.code.toArray).toList) := by
  obtain ⟨as, ht⟩ := hreached.exists_trace
  obtain ⟨result', m', env', hends, hafter, houtcome, -⟩ := hr.ends
  obtain ⟨rfl, rfl, rfl⟩ := hends.unique ⟨as, c, ht, hturn⟩
  exact ⟨acts, c, _, _, _, hreached, rfl, hturn, hafter, houtcome⟩

theorem IsOf.exists_performs {r : Run h} (hr : r.IsOf limits p) :
    ∃ acts, r.Performs limits p acts := by
  obtain ⟨result, m, env, ⟨as, c, htrace, hturn⟩, -⟩ := hr.ends
  obtain ⟨before, hreached⟩ := History.exists_of_trace htrace
  exact ⟨_, hr.performs hreached hturn⟩

theorem IsOf.left_handles {r : Run h} (hr : r.IsOf limits p) : r.left.handles = .empty := by
  obtain ⟨result, m, env, -, -, -, hleft⟩ := hr.ends
  cases hout : r.outcome with
  | ok ex =>
      rw [hout] at hleft
      rw [hleft.2]
  | error e =>
      rw [hout] at hleft
      rw [hleft]

end Run

/-- No run of a session finds a file open when the first one does not. -/
theorem Session.found_handles {m m' : Machine h} {rs : List (Run h)}
    (hs : Session limits p m rs m') (hm : m.handles = .empty) :
    ∀ r ∈ rs, r.found.handles = .empty ∧ r.IsOf limits p := by
  induction hs with
  | nil m => simp
  | cons hr _ ih =>
      rintro r (_ | ⟨_, hmem⟩)
      · exact ⟨hm, hr⟩
      · exact ih hr.left_handles r hmem

theorem Session.left_handles {m m' : Machine h} {rs : List (Run h)}
    (hs : Session limits p m rs m') (hm : m.handles = .empty) : m'.handles = .empty := by
  induction hs with
  | nil m => exact hm
  | cons hr _ ih => exact ih hr.left_handles

namespace Memory

variable {code : Array Instruction} {c₀ c c' : Config host} {acts : List FileAct} {r : Reference}
  {files : Table String Bytes} {earlier : List FileEffect}

/-! ## What an act finds -/

/-- An act that needs a reference open finds it open when the history says so, and for what the
history says. -/
theorem HandleFollows.finds {a : FileAct} {want : Option Access}
    (hf : HandleFollows limits code c₀ acts c r) (ha : c.fileAct? code = some a)
    (hwants : a.wants = some (r, want)) :
    (c.FailsWith limits code (.unknownHandle r) ↔ openedAs? r acts = none) ∧
      ∀ access, c.FailsWith limits code (.wrongHandleMode r access) ↔
        want = some access ∧ ∃ other path, openedAs? r acts = some (other, path) ∧
          other ≠ access := by
  simp only [Config.failsWith_iff ha]
  cases a with
  | opens access path r' => cases hwants
  | prints r' v =>
      cases hwants
      rw [outcome_prints]
      cases hf with
      | closed hopened hhandle => simp [hopened, hhandle]
      | writes path hopened hhandle => simp [hopened, hhandle]
      | reads path bytes n hopened ho hhandle => simp [hopened, hhandle]
  | reads r' =>
      cases hwants
      rw [outcome_reads]
      cases hf with
      | closed hopened hhandle => simp [hopened, hhandle]
      | writes path hopened hhandle => simp [hopened, hhandle]
      | reads path bytes n hopened ho hhandle =>
          rw [hhandle]
          dsimp only
          rcases readLine (unread n bytes) with ⟨text | _ | _, rest⟩ <;> simp [hopened]
  | closes r' =>
      cases hwants
      rw [outcome_closes]
      cases hf with
      | closed hopened hhandle => simp [hopened, hhandle]
      | writes path hopened hhandle => simp [hopened, hhandle]
      | reads path bytes n hopened ho hhandle => simp [hopened, hhandle]

/-- How a turn goes that reads such a line. -/
def ReadsLine (limits : Limits) (code : Array Instruction) (c : Config host) : LineRead → Prop
  | .line text => ∃ c', c.Continues limits code c' ∧ c'.machine.stack.head? = some (.text text)
  | .endOfInput => c.FailsWith limits code .endOfInput
  | .notText => c.FailsWith limits code (.host .notText)

/-- A read gives the next line of the bytes that the path held when the reference was opened. -/
theorem HandleFollows.readsLine {path : String} (hf : HandleFollows limits code c₀ acts c r)
    (ha : c.fileAct? code = some (.reads r)) (hopened : openedAs? r acts = some (.read, path)) :
    ∃ bytes n, OpenedOn limits code c₀ acts c r path bytes n ∧
      ReadsLine limits code c (readLine (unread n bytes)).1 := by
  cases hf with
  | closed hnone _ =>
      rw [hnone] at hopened
      cases hopened
  | writes path' hsome _ =>
      rw [hsome] at hopened
      cases hopened
  | reads path' bytes n hsome ho hhandle =>
      rw [hsome] at hopened
      cases hopened
      refine ⟨bytes, n, ho, ?_⟩
      have hx := outcome_reads c.machine.toState c.env r
      obtain ⟨rest, hturn⟩ := Config.exists_turn_of_fileAct limits ha
      rw [hhandle] at hx
      dsimp only at hx
      rw [hx] at hturn
      rcases hline : readLine (unread n bytes) with ⟨text | _ | _, left⟩
      · rw [hline] at hturn
        exact ⟨⟨_, _, _⟩, hturn, rfl⟩
      · rw [hline] at hturn
        exact ⟨_, _, hturn⟩
      · rw [hline] at hturn
        exact ⟨_, _, hturn⟩

/-! ## The end of a run -/

/-- In memory the turn that ends a run changes no file, whatever was about to be done. -/
theorem ended_files {result : Except RuntimeError Unit} {m : Machine host} {env : Memory}
    (hturn : c.turn limits code = ((.ended result, m), env)) :
    c.lastAct? code = none ∧ env.files = c.env.files := by
  unfold Config.lastAct?
  cases ha : c.fileAct? code with
  | none =>
      have hquiet := (quiet c.machine.handles c.env.files).turn limits ha ⟨rfl, rfl⟩
      rw [hturn] at hquiet
      exact ⟨rfl, hquiet.2⟩
  | some a =>
      obtain ⟨f, -, hx⟩ := Config.ended_of_fileAct hturn ha
      obtain ⟨hthrough, henv⟩ := env_of_failed hx
      rw [henv, Option.filter_some, hthrough]
      exact ⟨rfl, rfl⟩

/-! ## Sessions -/

/-- Every run finds the files as the run before it left them, the first one these. The last one leaves
`last`. -/
def Linked (files : Table String Bytes) : List (Run host) → Table String Bytes → Prop
  | [], last => last = files
  | r :: rs, last => r.before.files = files ∧ Linked r.after.files rs last

/-- A run over files that follow earlier effects leaves files that follow its own effects too. -/
theorem performs_files {r : Run host} (hr : r.Performs limits p acts)
    (hstart : r.found.handles = .empty)
    (hfiles : ∀ path, r.before.files.find? path = contents files earlier path) (path : String) :
    r.after.files.find? path = contents files (earlier ++ effects acts) path := by
  obtain ⟨before, c, result, m, env, hreached, rfl, hturn, hafter, -⟩ := hr
  obtain ⟨hlast, hsame⟩ := ended_files hturn
  rw [hafter, closed_eq, hsame, hlast, Option.toList_none, List.append_nil]
  exact (follows hstart hfiles hreached).files path

/-- After a session over files that follow earlier effects, the files follow the histories of its runs
too. -/
theorem session_leaves {m m' : Machine host} {rs : List (Run host)} {table last : Table String Bytes}
    (hs : Session limits p m rs m') (hm : m.handles = .empty) (hlinked : Linked table rs last)
    (hfiles : ∀ path, table.find? path = contents files earlier path)
    {histories : List (List FileAct)}
    (hhistories : List.Forall₂ (Run.Performs limits p) rs histories) (path : String) :
    last.find? path = contents files (earlier ++ histories.flatMap effects) path := by
  induction rs generalizing m table earlier histories with
  | nil =>
      cases hhistories
      obtain rfl : last = table := hlinked
      rw [hfiles path, List.flatMap_nil, List.append_nil]
  | cons r rs ih =>
      cases hhistories with
      | cons hr hhistories =>
          obtain ⟨hfound, hof, hrest⟩ := hs.uncons
          have hleft := performs_files hr (by rw [hfound, hm])
            (fun path => by rw [hlinked.1]; exact hfiles path)
          rw [ih hrest hof.left_handles hlinked.2 hleft hhistories, List.flatMap_cons,
            List.append_assoc]

/-- Files in memory follow the histories of some runs that ended, and of one that is on its way from
`c₀` and may never end, over the files that the first run found. -/
structure FilesFollow (limits : Limits) (p : Program) (files : Table String Bytes)
    (rs : List (Run host)) (c₀ : Config host) : Prop where
  /-- Every run that ended has a history, and left no file open. -/
  performs : ∀ r ∈ rs, (∃ acts, r.Performs limits p acts) ∧ r.left.handles = .empty
  /-- The run on its way found none open. -/
  starts : c₀.machine.handles = .empty
  /-- A print, a read or a closing finds a handle when the reference was opened in the same run and
  not closed since, and finds the wrong one when the latest opening was for the other purpose. -/
  finds : ∀ acts c, History limits p.code.toArray c₀ acts c → ∀ a ref want,
    c.fileAct? p.code.toArray = some a → a.wants = some (ref, want) →
      (c.FailsWith limits p.code.toArray (.unknownHandle ref) ↔ openedAs? ref acts = none) ∧
        ∀ access, c.FailsWith limits p.code.toArray (.wrongHandleMode ref access) ↔
          want = some access ∧ ∃ other path, openedAs? ref acts = some (other, path) ∧
            other ≠ access
  /-- A read gives the next line of the bytes that the path held when the reference was opened. -/
  reads : ∀ acts c, History limits p.code.toArray c₀ acts c → ∀ ref path,
    c.fileAct? p.code.toArray = some (.reads ref) → openedAs? ref acts = some (.read, path) →
      ∃ bytes n, OpenedOn limits p.code.toArray c₀ acts c ref path bytes n ∧
        ReadsLine limits p.code.toArray c (readLine (unread n bytes)).1
  /-- At every moment a path that was opened for writing, in this run or in one before it, holds the
  lines added since it was last emptied, and any other path what it held at first. -/
  holds : ∀ histories, List.Forall₂ (Run.Performs limits p) rs histories →
    ∀ acts c, History limits p.code.toArray c₀ acts c → ∀ path, c.env.files.find? path =
      contents files (histories.flatMap effects ++ effects acts) path

/-- In a session of any program over one set of files in memory, handles and files follow the
history, however the openings, prints, reads and closings interleave, wherever runs fail, and whether
the last run ends or not. -/
theorem session_files {random : Random} {m : Machine host} {rs : List (Run host)} {env : Memory}
    (hs : Session limits p (Machine.start host random) rs m) (hlinked : Linked files rs env.files) :
    FilesFollow limits p files rs ⟨0, m, env⟩ := by
  have hruns := hs.found_handles rfl
  have hstart : m.handles = .empty := hs.left_handles rfl
  have hfollows : ∀ acts c, History limits p.code.toArray ⟨0, m, env⟩ acts c →
      Follows limits p.code.toArray ⟨0, m, env⟩ env.files [] acts c :=
    fun acts c hreached => follows hstart (fun _ => rfl) hreached
  constructor
  · intro r hr
    exact ⟨(hruns r hr).2.exists_performs, (hruns r hr).2.left_handles⟩
  · exact hstart
  · intro acts c hreached a ref want ha hwants
    exact ((hfollows acts c hreached).handles ref).finds ha hwants
  · intro acts c hreached ref path ha hopened
    exact ((hfollows acts c hreached).handles ref).readsLine ha hopened
  · intro histories hhistories acts c hreached path
    have hbefore : ∀ path, env.files.find? path =
        contents files ([] ++ histories.flatMap effects) path :=
      session_leaves hs rfl hlinked (fun _ => rfl) hhistories
    exact (follows hstart hbefore hreached).files path

/-- Opens the file of a name for writing and writes its name there. Then it asks for a line, and stays
where it is for ever. -/
def naming : Program :=
  ⟨[⟨.pushText, .text "log"⟩, ⟨.push, .int 1⟩, ⟨.dup, .int 1⟩, ⟨.openFile .write, .none⟩,
    ⟨.push, .int 1⟩, ⟨.dup, .int 1⟩, ⟨.filePrint, .none⟩, ⟨.read, .none⟩, ⟨.jump, .address 8⟩]⟩

/-- A first run finds no line, and fails. A second one empties the file, writes its line again and never
ends. -/
theorem session_files_twice :
    ∃ (r : Run host) (m : Machine host) (env : Memory) (c : Config host),
      Session .standard naming (Machine.start host (.ofSeed 7)) [r] m ∧
        Linked .empty [r] env.files ∧
          History .standard naming.code.toArray ⟨0, m, env⟩
            [.opens .write "log" ⟨1, 1⟩, .prints ⟨1, 1⟩ (.text "log")] c ∧
            c.Continues .standard naming.code.toArray c ∧
              c.env.files.find? "log" = some (Utf8.encode "log\n") ∧
                FilesFollow .standard naming .empty [r] ⟨0, m, env⟩ := by
  let start := Machine.start host (.ofSeed 7)
  let failed : Machine host := ⟨{ start.toState with filesWritten := #["log"] }, []⟩
  let written : Memory := { Memory.empty with files := ⟨[("log", Utf8.encode "log\n")]⟩ }
  let answered : Memory := { written with input := [10] }
  let r : Run host := ⟨start, Memory.empty, .error ⟨.endOfInput, 7⟩, failed, written⟩
  have hr : r.IsOf .standard naming := ⟨8, rfl⟩
  have hs : Session .standard naming start [r] failed := .cons hr (.nil failed)
  have hlinked : Linked .empty [r] answered.files := ⟨rfl, rfl⟩
  let c₀ : Config host := ⟨0, failed, answered⟩
  let reached := c₀.history? .standard naming.code.toArray 8
  have hacts : reached.map (fun x => (x.1, x.2.address)) =
      some ([.opens .write "log" ⟨1, 1⟩, .prints ⟨1, 1⟩ (.text "log")], 8) := by decide +kernel
  have hfile : reached.map (fun x => x.2.env.files.find? "log") =
      some (some (Utf8.encode "log\n")) := by decide +kernel
  obtain ⟨⟨acts, address, m, env⟩, hreached, hpair⟩ := Option.map_eq_some_iff.mp hacts
  cases hpair
  rw [hreached] at hfile
  exact ⟨r, failed, answered, _, hs, hlinked, Config.history_of_history? hreached, rfl,
    Option.some.inj hfile, session_files hs hlinked⟩

end Memory

end DiceScript
