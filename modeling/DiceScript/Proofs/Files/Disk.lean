import DiceScript.Proofs.Files.Buffers
import DiceScript.Proofs.Files.Contents
import DiceScript.Proofs.Machine.Handles

/-!
# Writers on disk

What can be written through a reference follows the history of a run on disk, as in memory. But an
opening first empties its file, and the writer that the reference had before is closed only then.
-/

namespace DiceScript

open Machine

/-! ## Where a path leads -/

namespace Path

variable {files files' : Table String Bytes}

/-- Only whether a file is there depends on the files. -/
theorem find_directory {p q : Place} {name : String}
    (h : p.find files name = .ok (.directory q)) : p.find files' name = .ok (.directory q) := by
  unfold Place.find at h ⊢
  grind

theorem follow_ok {names : List String} : ∀ {p : Place} {x : Place × Option String},
    p.follow files names = .ok x → p.follow files' names = .ok x := by
  induction names with
  | nil => exact id
  | cons name names ih =>
      intro p x h
      cases names with
      | nil => exact h
      | cons next names =>
          rw [Place.follow] at h ⊢
          · cases hfind : p.find files name with
            | error e =>
                rw [hfind] at h
                cases h
            | ok entry =>
                cases entry with
                | directory q =>
                    rw [hfind] at h
                    rw [find_directory hfind]
                    exact ih h
                | _ =>
                    rw [hfind] at h
                    cases h
          all_goals simp

theorem locate_ok {path : String} {x : Place × Option String}
    (h : locate files path = .ok x) : locate files' path = .ok x := by
  unfold locate at h ⊢
  dsimp only at h ⊢
  generalize (if path.toList.head? = some '/' then Place.root else Place.here) = start at h ⊢
  cases hfollow : start.follow files (names path.toList) with
  | error e =>
      rw [hfollow] at h
      split at h
      · cases h
      split at h
      · cases h
      split at h <;> cases h
  | ok y =>
      rw [hfollow] at h
      rw [follow_ok hfollow]
      exact h

/-- What can be opened for writing does not depend on the files there are. -/
theorem toWrite_ok {path : String} {entry : Entry} (h : toWrite files path = .ok entry) :
    toWrite files' path = .ok entry := by
  unfold toWrite at h ⊢
  cases hlocate : locate files path with
  | error e =>
      rw [hlocate] at h
      cases h
  | ok x =>
      obtain ⟨p, name?⟩ := x
      rw [hlocate] at h
      rw [locate_ok hlocate]
      cases name? with
      | none => cases h
      | some name =>
          dsimp only at h ⊢
          split
          · rename_i hslash
            rwa [if_pos hslash] at h
          rename_i hslash
          rw [if_neg hslash] at h
          unfold Place.find at h ⊢
          grind

/-- The file that is written when the path is opened for writing. -/
def fileOf? (path : String) : Option String :=
  match toWrite .empty path with
  | .ok (.file name) => some name
  | _ => none

theorem fileOf?_eq_some {path name : String} :
    fileOf? path = some name ↔ toWrite .empty path = .ok (.file name) := by
  unfold fileOf?
  rcases toWrite .empty path with e | (p | name' | _ | _) <;> simp

end Path

/-! ## The acts -/

namespace Disk

def Handle.writer? : Handle host → Option Writer
  | .reader _ => none
  | .writer w => some w

/-- What is written through a reference. -/
def writer? (s : State host) (r : Reference) : Option Writer :=
  (s.handles.find? r).bind Handle.writer?

/-- The surroundings when a writer was let go, if there is one. -/
def released (w? : Option Writer) (env : Disk) : Disk :=
  match w? with
  | some w => env.drop w
  | none => env

section Writers

variable {s s' : State host} {r : Reference}

theorem writer?_insert (handle : Handle host) (h : s'.handles = s.handles.insert r handle) :
    writer? s' = Function.update (writer? s) r (Handle.writer? handle) := by
  funext r'
  unfold writer?
  rw [h, Table.find?_insert, Function.update_apply]
  by_cases hr : r = r'
  · rw [if_pos hr, if_pos hr.symm]
    rfl
  · rw [if_neg hr, if_neg (Ne.symm hr)]

theorem writer?_erase (h : s'.handles = s.handles.erase r) :
    writer? s' = Function.update (writer? s) r none := by
  funext r'
  unfold writer?
  rw [h, Table.find?_erase, Function.update_apply]
  by_cases hr : r = r'
  · rw [if_pos hr, if_pos hr.symm]
    rfl
  · rw [if_neg hr, if_neg (Ne.symm hr)]

theorem releasedAt_eq (s : State host) (r : Reference) (env : Disk) :
    (releasedAt s r env).2 = released (writer? s r) env := by
  unfold releasedAt released writer?
  rcases s.handles.find? r with _ | (rd | w)
  · rfl
  · rfl
  · exact close_snd w env

/-- Only the full device refuses to let a writer go. -/
theorem releasedAt_ok (h : ∀ w ∈ writer? s r, w.target ≠ .fullDevice) (env : Disk) :
    releasedAt s r env = (.ok (), released (writer? s r) env) := by
  refine Prod.ext ?_ (releasedAt_eq s r env)
  unfold writer? at h
  unfold releasedAt
  rcases hhandle : s.handles.find? r with _ | (rd | w)
  · rfl
  · rfl
  · exact close_fst (h w (by rw [hhandle]; rfl)) env

end Writers

/-- What an act that gets through to its file changes in the writers and in the surroundings. -/
def Changes (a : FileAct) (s : State host) (env : Disk) (s' : State host) (env' : Disk) : Prop :=
  match a with
  | .opens .read _ r => writer? s' = Function.update (writer? s) r none ∧
      env' = released (writer? s r) env
  | .opens .write path r => ∃ w emptied, env.openWrite path = (.ok w, emptied) ∧
      writer? s' = Function.update (writer? s) r (some w) ∧ env' = released (writer? s r) emptied
  | .prints r v => ∃ w, writer? s r = some w ∧
      writer? s' = Function.update (writer? s) r (some (env.write w (v.pieces ++ ["\n"])).1.2) ∧
        env' = (env.write w (v.pieces ++ ["\n"])).2
  | .reads _ => writer? s' = writer? s ∧ env' = env
  | .closes r => writer? s' = Function.update (writer? s) r none ∧
      env' = released (writer? s r) env

/-- An act that succeeds makes its changes. So does one that is refused when it has got through to its
file, and any other changes neither the writers nor the surroundings. -/
inductive Ends (a : FileAct) (s : State host) (env : Disk) :
    Outcome (State host × Disk) (List Value) → Prop
  | done (vs : List Value) (s' : State host) (env' : Disk) : Changes a s env s' env' →
      Ends a s env (.done vs (s', env'))
  | refused (f : Fault) (s' : State host) (env' : Disk) : a.getsThrough s env = true →
      Changes a s env s' env' → Ends a s env (.failed f (s', env'))
  | failed (f : Fault) (s' : State host) : a.getsThrough s env = false → writer? s' = writer? s →
      Ends a s env (.failed f (s', env))

theorem Ends.answered {a : FileAct} {s s' : State host} {env env' : Disk} {vs : List Value}
    (ha : a.getsThrough s env = true) (h : Changes a s env s' env')
    (answer : Except HostError Unit) : Ends a s env (.answered vs (s', env') answer) := by
  cases answer with
  | ok => exact .done vs s' env' h
  | error e => exact .refused _ s' env' ha h

theorem openWrite_error {path : String} {env env' : Disk} {e : HostError}
    (h : env.openWrite path = (.error e, env')) : env' = env := by
  unfold openWrite at h
  split at h <;> cases h
  rfl

/-- The handle that a reader leaves is a reader again. -/
theorem writer?_reads {s : State host} {r : Reference} {rd : Reader}
    (hhandle : s.handles.find? r = some (.reader rd)) (rd' : Reader) :
    writer? { s with handles := s.handles.insert r (.reader rd') } = writer? s := by
  have hnone : writer? s r = none := by
    unfold writer?
    rw [hhandle]
    rfl
  rw [writer?_insert (.reader rd') rfl]
  exact (congrArg _ hnone.symm).trans (Function.update_eq_self r _)

section Acts

variable (s : State host) (env : Disk) (r : Reference)

theorem ends_opens (access : Access) (path : String) :
    Ends (.opens access path r) s env (outcome (FileAct.opens access path r).perform s env) := by
  cases access with
  | read =>
      have hrun : (host.openRead path).run env = (env.openRead path, env) := rfl
      have hthrough : (FileAct.opens .read path r).getsThrough s env =
        (env.openRead path).isOk := rfl
      rw [FileAct.outcome_opens_read, hrun]
      cases hopen : env.openRead path with
      | error e =>
          rw [hopen] at hthrough
          exact .failed _ _ hthrough rfl
      | ok rd =>
          rw [hopen] at hthrough
          exact .answered hthrough ⟨writer?_insert (.reader rd) rfl, releasedAt_eq s r env⟩ _
  | write =>
      have hrun : (host.openWrite path).run env = env.openWrite path := rfl
      have hthrough : (FileAct.opens .write path r).getsThrough s env =
        (env.openWrite path).1.isOk := rfl
      rw [FileAct.outcome_opens_write, hrun]
      rcases hopen : env.openWrite path with ⟨e | w, emptied⟩
      · rw [hopen] at hthrough
        rw [openWrite_error hopen]
        exact .failed _ _ hthrough rfl
      · rw [hopen] at hthrough
        exact .answered hthrough ⟨w, emptied, hopen, writer?_insert (.writer w) rfl,
          releasedAt_eq s r emptied⟩ _

theorem ends_prints (v : Value) :
    Ends (.prints r v) s env (outcome (FileAct.prints r v).perform s env) := by
  rw [FileAct.outcome_prints]
  rcases hhandle : s.handles.find? r with _ | (rd | w)
  · exact .failed _ _ (by rw [FileAct.getsThrough, hhandle]) rfl
  · exact .failed _ _ (by rw [FileAct.getsThrough, hhandle]) rfl
  · refine .answered ?_ ?_ _
    · rw [FileAct.getsThrough, hhandle]
    · refine ⟨w, ?_, writer?_insert (.writer _) rfl, rfl⟩
      rw [writer?, hhandle]
      rfl

theorem ends_reads : Ends (.reads r) s env (outcome (FileAct.reads r).perform s env) := by
  rw [FileAct.outcome_reads]
  rcases hhandle : s.handles.find? r with _ | (rd | w)
  · exact .failed _ _ rfl rfl
  · have hrun : (host.readLine rd).run env = (env.nextLine rd, env) := rfl
    dsimp only
    rw [hrun]
    -- the reader goes on whatever it answers
    rcases env.nextLine rd with ⟨e | (_ | text), rd'⟩
    · exact .failed _ _ rfl (writer?_reads hhandle rd')
    · exact .failed _ _ rfl (writer?_reads hhandle rd')
    · exact .done _ _ _ ⟨writer?_reads hhandle rd', rfl⟩
  · exact .failed _ _ rfl rfl

theorem ends_closes : Ends (.closes r) s env (outcome (FileAct.closes r).perform s env) := by
  rw [FileAct.outcome_closes]
  cases hhandle : s.handles.find? r with
  | none => exact .failed _ _ (by rw [FileAct.getsThrough, hhandle]; rfl) rfl
  | some handle =>
      have hreleased := releasedAt_eq s r env
      rw [releasedAt, hhandle] at hreleased
      refine .answered ?_ ?_ _
      · rw [FileAct.getsThrough, hhandle]
        rfl
      · exact ⟨writer?_erase rfl, hreleased⟩

theorem ends_outcome (a : FileAct) : Ends a s env (outcome a.perform s env) := by
  cases a with
  | opens access path r => exact ends_opens s env r access path
  | prints r v => exact ends_prints s env r v
  | reads r => exact ends_reads s env r
  | closes r => exact ends_closes s env r

end Acts

theorem changes_of_done {a : FileAct} {s s' : State host} {env env' : Disk} {vs : List Value}
    (hx : outcome a.perform s env = .done vs (s', env')) : Changes a s env s' env' := by
  have hends := ends_outcome s env a
  rw [hx] at hends
  cases hends with
  | done _ _ _ h => exact h

/-- Nothing but acts with files touches the writers and the files. -/
theorem quiet (writers : Reference → Option Writer) (files : Table String Bytes) :
    Quiet fun k : State host × Disk => writer? k.1 = writers ∧ k.2.files = files :=
  .of_handles (fun _ => rfl) (fun _ => rfl) (fun _ _ => rfl) fun handles files' =>
    (fun r => (handles.find? r).bind Handle.writer?) = writers ∧ files' = files

/-- Opening for writing depends on the path alone, and empties its file or creates it. -/
theorem openWrite_ok {path : String} {env emptied : Disk} {w : Writer}
    (h : env.openWrite path = (.ok w, emptied)) :
    ∃ entry, Path.toWrite .empty path = .ok entry ∧ w = ⟨entry, 0, .empty⟩ ∧
      ∀ name, emptied.files.find? name =
        if entry = .file name then some [] else env.files.find? name := by
  unfold openWrite at h
  cases hpath : Path.toWrite env.files path with
  | error e =>
      rw [hpath] at h
      cases h
  | ok entry =>
      rw [hpath] at h
      refine ⟨entry, Path.toWrite_ok hpath, ?_⟩
      cases entry with
      | file name' =>
          cases h
          refine ⟨rfl, fun name => ?_⟩
          rw [Table.find?_insert]
          simp
      | directory p =>
          cases h
          exact ⟨rfl, fun name => by simp⟩
      | nullDevice =>
          cases h
          exact ⟨rfl, fun name => by simp⟩
      | fullDevice =>
          cases h
          exact ⟨rfl, fun name => by simp⟩

theorem write_find?_of_ne {name : String} {w : Writer} (h : w.target ≠ .file name)
    (texts : List String) (env : Disk) :
    (env.write w texts).2.files.find? name = env.files.find? name := by
  by_cases hfull : w.target = .fullDevice
  · rw [write, if_pos hfull]
  · rw [write_eq hfull]
    exact put_find?_of_ne h _ _ _

theorem released_find?_of_ne {name : String} {w? : Option Writer}
    (h : ∀ w ∈ w?, w.target ≠ .file name) (env : Disk) :
    (released w? env).files.find? name = env.files.find? name := by
  cases w? with
  | none => rfl
  | some w => exact put_find?_of_ne (h w rfl) _ _ _

/-! ## What the history says -/

/-- What the acts of a run let a reference write to in the end. -/
def writesTo? (r : Reference) (acts : List FileAct) : Option Path.Entry :=
  match openedAs? r acts with
  | some (.write, path) => (Path.toWrite .empty path).toOption
  | _ => none

section WritesTo

variable {r : Reference} {acts : List FileAct} {a : FileAct}

theorem writesTo?_append_of_not_binds (ha : a.binds r = false) :
    writesTo? r (acts ++ [a]) = writesTo? r acts := by
  unfold writesTo?
  rw [openedAs?_append_of_not_binds ha]

theorem writesTo?_append_opens (access : Access) (path : String) (r' : Reference) :
    writesTo? r (acts ++ [.opens access path r']) =
      if r' = r then
        match access with
        | .write => (Path.toWrite .empty path).toOption
        | .read => none
      else writesTo? r acts := by
  unfold writesTo?
  rw [openedAs?_append_opens]
  by_cases hr : r' = r
  · rw [if_pos hr, if_pos hr]
    cases access <;> rfl
  · rw [if_neg hr, if_neg hr]

theorem writesTo?_append_closes (r' : Reference) :
    writesTo? r (acts ++ [.closes r']) = if r' = r then none else writesTo? r acts := by
  unfold writesTo?
  rw [openedAs?_append_closes]
  by_cases hr : r' = r
  · rw [if_pos hr, if_pos hr]
  · rw [if_neg hr, if_neg hr]

theorem exists_of_writesTo? {entry : Path.Entry} (h : writesTo? r acts = some entry) :
    ∃ path, openedAs? r acts = some (.write, path) ∧ Path.toWrite .empty path = .ok entry := by
  unfold writesTo? at h
  split at h
  · rename_i path hopened
    refine ⟨path, hopened, ?_⟩
    cases hpath : Path.toWrite .empty path with
    | error e =>
        rw [hpath] at h
        cases h
    | ok entry' =>
        rw [hpath] at h
        cases h
        rfl
  · cases h

end WritesTo

variable {limits : Limits} {code : Array Instruction} {c₀ c c' : Config host}
  {acts : List FileAct}

theorem map_target_update (writers : Reference → Option Writer) (r r' : Reference)
    (w? : Option Writer) :
    (Function.update writers r' w? r).map Writer.target =
      if r' = r then w?.map Writer.target else (writers r).map Writer.target := by
  rw [Function.update_apply]
  by_cases hr : r' = r
  · rw [if_pos hr, if_pos hr.symm]
  · rw [if_neg hr, if_neg (Ne.symm hr)]

/-- When every writer writes to what the history says, it does so after one more act. -/
theorem Changes.writers_follow {a : FileAct} {s s' : State host} {env env' : Disk}
    (h : Changes a s env s' env')
    (hfollow : ∀ r, (writer? s r).map Writer.target = writesTo? r acts) (r : Reference) :
    (writer? s' r).map Writer.target = writesTo? r (acts ++ [a]) := by
  cases a with
  | opens access path r' =>
      cases access with
      | read =>
          rw [h.1, writesTo?_append_opens, map_target_update, hfollow]
          rfl
      | write =>
          obtain ⟨w, emptied, hopen, hwriters, -⟩ := h
          obtain ⟨entry, hpath, rfl, -⟩ := openWrite_ok hopen
          rw [hwriters, writesTo?_append_opens, map_target_update, hfollow, hpath]
          rfl
  | prints r' v =>
      obtain ⟨w, hw, hwriters, -⟩ := h
      rw [hwriters, writesTo?_append_of_not_binds rfl, map_target_update]
      by_cases hr : r' = r
      · subst hr
        rw [if_pos rfl, ← hfollow, hw, Option.map_some, write_target]
        rfl
      · rw [if_neg hr, hfollow]
  | reads r' =>
      rw [h.1, writesTo?_append_of_not_binds rfl]
      exact hfollow r
  | closes r' =>
      rw [h.1, writesTo?_append_closes, map_target_update, hfollow]
      rfl

/-- A turn that ends the run changes what its last act changes, or neither the writers nor the files. -/
theorem changes_of_ended {result : Except RuntimeError Unit} {m : Machine host} {env : Disk}
    (hturn : c.turn limits code = ((.ended result, m), env)) :
    match c.lastAct? code with
    | some a => Changes a c.machine.toState c.env m.toState env
    | none => writer? m.toState = writer? c.machine.toState ∧ env.files = c.env.files := by
  unfold Config.lastAct?
  cases ha : c.fileAct? code with
  | none =>
      have hquiet := (quiet (writer? c.machine.toState) c.env.files).turn limits ha ⟨rfl, rfl⟩
      rw [hturn] at hquiet
      exact hquiet
  | some a =>
      obtain ⟨f, -, hx⟩ := Config.ended_of_fileAct hturn ha
      have hends := ends_outcome c.machine.toState c.env a
      rw [hx] at hends
      cases hends with
      | refused _ _ _ hthrough hchanges =>
          rw [Option.filter_some, if_pos hthrough]
          exact hchanges
      | failed _ _ hthrough hwriters =>
          rw [Option.filter_some, hthrough]
          exact ⟨hwriters, rfl⟩

/-- Every writer writes to what the history says. -/
theorem writers_follow (hstart : c₀.machine.handles = .empty)
    (h : History limits code c₀ acts c) (r : Reference) :
    (writer? c.machine.toState r).map Writer.target = writesTo? r acts := by
  induction h generalizing r with
  | start =>
      unfold writer?
      rw [hstart]
      rfl
  | @next acts c c' h hc ih =>
      cases ha : c.fileAct? code with
      | none =>
          have hquiet := (quiet (writer? c.machine.toState) c.env.files).continues hc ha ⟨rfl, rfl⟩
          rw [hquiet.1, Option.toList_none, List.append_nil]
          exact ih r
      | some a =>
          obtain ⟨vs, rest, hx, -⟩ := hc.of_fileAct ha
          exact (changes_of_done hx).writers_follow ih r

end Disk

/-! ## Effects on the files of a directory -/

/-- An effect at a path, as one on the file that the path leads to. -/
def FileEffect.onFile? : FileEffect → Option FileEffect
  | emptied path => (Path.fileOf? path).map emptied
  | added path line => (Path.fileOf? path).map (added · line)

/-- What the acts of a run change in the files of a directory. -/
def diskEffects (acts : List FileAct) : List FileEffect :=
  (effects acts).filterMap FileEffect.onFile?

/-- The effect on a file that an act has after others. -/
def FileAct.diskEffect? (earlier : List FileAct) (a : FileAct) : Option FileEffect :=
  (a.effect? earlier).bind FileEffect.onFile?

section DiskEffects

variable {acts : List FileAct} {r : Reference}

theorem diskEffects_append (acts : List FileAct) (a : FileAct) :
    diskEffects (acts ++ [a]) = diskEffects acts ++ (a.diskEffect? acts).toList := by
  unfold diskEffects FileAct.diskEffect?
  rw [effects_append, List.filterMap_append]
  cases heffect : a.effect? acts with
  | none => rfl
  | some e => cases hfile : e.onFile? <;> simp [hfile]

theorem emptied_mem_diskEffects {name : String}
    (h : Disk.writesTo? r acts = some (.file name)) : .emptied name ∈ diskEffects acts := by
  obtain ⟨path, hopened, hpath⟩ := Disk.exists_of_writesTo? h
  refine List.mem_filterMap.mpr ⟨_, emptied_mem_effects hopened, ?_⟩
  rw [FileEffect.onFile?, Path.fileOf?_eq_some.mpr hpath]
  rfl

theorem diskEffect?_prints {entry : Path.Entry} (h : Disk.writesTo? r acts = some entry)
    (v : Value) :
    (FileAct.prints r v).diskEffect? acts =
      match entry with
      | .file name => some (.added name v.display)
      | _ => none := by
  obtain ⟨path, hopened, hpath⟩ := Disk.exists_of_writesTo? h
  have heffect : (FileAct.prints r v).effect? acts = some (.added path v.display) := by
    rw [FileAct.effect?, hopened]
  rw [FileAct.diskEffect?, heffect, Option.bind_some, FileEffect.onFile?, Path.fileOf?, hpath]
  cases entry <;> rfl

end DiskEffects

end DiceScript
