import DiceScript.CommandLine
import DiceScript.Proofs.Files.Reopening
import DiceScript.Proofs.Machine.Closing

/-!
# What a run leaves on disk

In the end of a run all files are closed, in whatever order the table has them. A file whose writers
were all opened under one reference then holds what the history says, also after a run that failed.
-/

namespace DiceScript

open Machine

namespace Disk

variable {name : String} {ref : Reference} {acts : List FileAct} {files : Table String Bytes}

theorem released_find?_congr {w? : Option Writer} {env env' : Disk}
    (h : env.files.find? name = env'.files.find? name) :
    (released w? env).files.find? name = (released w? env').files.find? name := by
  cases w? with
  | none => exact h
  | some w =>
      change (put _ _ _ env).files.find? name = (put _ _ _ env').files.find? name
      rw [put_find?, put_find?, h]

theorem dropHandles_cons (handle : Handle host) (handles : List (Handle host)) (env : Disk) :
    ((dropHandles (handle :: handles) : StateM Disk Unit).run env).2 =
      ((dropHandles handles : StateM Disk Unit).run (released (Handle.writer? handle) env)).2 := by
  cases handle <;> rfl

/-- Also when one of them refuses, all files are let go. -/
theorem closeHandles_eq_drop (handles : List (Handle host)) (env : Disk) :
    ((closeHandles handles : StateM Disk _).run env).2 =
      ((dropHandles handles : StateM Disk Unit).run env).2 := by
  induction handles generalizing env with
  | nil => rfl
  | cons handle handles ih =>
      cases handle with
      | reader r => exact ih env
      | writer w =>
          have hclose : (host.close w).run env = env.close w := rfl
          have hdrop : released (Handle.writer? (.writer w)) env = (env.close w).2 :=
            (close_snd w env).symm
          rw [dropHandles_cons, closeHandles, StateT.run_bind, hclose, hdrop]
          rcases env.close w with ⟨e | ⟨⟩, env'⟩
          · rfl
          · exact ih env'

theorem insertIdx_length_append {α : Type} (before behind : List α) (a : α) :
    (before ++ behind).insertIdx before.length a = before ++ a :: behind := by
  induction before with
  | nil => rfl
  | cons b before ih =>
      rw [List.cons_append, List.length_cons, List.insertIdx_succ_cons, ih, List.cons_append]

/-- The disk may close files in any order: each arrangement of them comes from some places. -/
theorem exists_places {α : Type} {opened arranged : List α} (hperm : arranged.Perm opened) :
    ∃ places : List Nat, ∀ (others : List Nat) (env : Disk),
      (host.arrange opened).run { env with places := places ++ others } =
        (arranged, { env with places := others }) := by
  induction opened generalizing arranged with
  | nil =>
      obtain rfl := hperm.eq_nil
      exact ⟨[], fun others env => rfl⟩
  | cons a opened ih =>
      obtain ⟨before, behind, rfl⟩ :=
        List.append_of_mem (hperm.mem_iff.mpr List.mem_cons_self)
      obtain ⟨places, hplaces⟩ := ih (List.perm_middle.symm.trans hperm).cons_inv
      -- the others are arranged first, so the place of `a` among them comes last
      refine ⟨places ++ [before.length], fun others env => ?_⟩
      rw [List.append_assoc, Host.arrange_cons, hplaces]
      have hlt : before.length < (before ++ behind).length + 1 := by
        rw [List.length_append]
        omega
      have hplace : before.length % ((before ++ behind).length + 1) = before.length :=
        Nat.mod_eq_of_lt hlt
      have hchoose : (host.choose (before ++ behind).length).run
          { env with places := [before.length] ++ others } =
            (⟨before.length, hlt⟩, { env with places := others }) :=
        Prod.ext (Fin.ext hplace) rfl
      dsimp only
      rw [hchoose, insertIdx_length_append]

/-- When all writers are let go, only that of the reference matters for the file. -/
theorem dropHandles_find? {es : List (Reference × Handle host)} (hkeys : (es.map (·.1)).Nodup)
    (hothers : ∀ e ∈ es, ∀ w ∈ Handle.writer? e.2, w.target = .file name → e.1 = ref)
    (env : Disk) :
    ((dropHandles (es.map (·.2)) : StateM Disk Unit).run env).2.files.find? name =
      (released (((Table.mk es).find? ref).bind Handle.writer?) env).files.find? name := by
  unfold Table.find?
  induction es generalizing env with
  | nil => rfl
  | cons e es ih =>
      rw [List.map_cons, List.nodup_cons] at hkeys
      rw [List.map_cons, dropHandles_cons,
        ih hkeys.2 fun e' he' => hothers e' (List.mem_cons_of_mem e he')]
      by_cases he : e.1 = ref
      · -- no later entry has the reference
        have hnone : es.find? (·.1 = ref) = none := by
          rw [List.find?_eq_none]
          intro e' he' href
          exact hkeys.1 (he ▸ of_decide_eq_true href ▸ List.mem_map_of_mem he')
        rw [hnone, List.find?_cons_of_pos (by simpa using he)]
        rfl
      · rw [List.find?_cons_of_neg (by simpa using he)]
        refine released_find?_congr (released_find?_of_ne ?_ env)
        intro w hw htarget
        exact he (hothers e List.mem_cons_self w hw htarget)

/-- In whatever order the files are closed, and whichever of them refuse, the file of the reference
holds in the end what its writer held back. -/
theorem closed_find? {s : State host} {env : Disk} (hkeys : s.handles.Distinct)
    (hothers : ∀ r, ∀ w ∈ writer? s r, w.target = .file name → r = ref) :
    (s.closed env).files.find? name = (released (writer? s ref) env).files.find? name := by
  have hperm := host.arrange_perm s.handles.entries env
  have hfiles := host.arrange_keeps (f := Disk.files) (fun _ _ => rfl) s.handles.entries env
  unfold State.closed State.closeFiles
  rw [StateT.run_bind]
  generalize (host.arrange s.handles.entries).run env = arranged at hperm hfiles ⊢
  obtain ⟨es, env'⟩ := arranged
  have hfind : ∀ r, (Table.mk es).find? r = s.handles.find? r := hkeys.find?_eq_of_perm hperm
  have hdistinct : (Table.mk es).Distinct := (hperm.map _).nodup_iff.mpr hkeys
  change ((closeHandles (es.map (·.2)) : StateM Disk _).run env').2.files.find? name = _
  rw [closeHandles_eq_drop, dropHandles_find? hdistinct, hfind]
  · exact released_find?_congr (congrArg (Table.find? · name) hfiles)
  · intro e he w hw
    refine hothers e.1 w ?_
    rw [writer?, ← hfind, hdistinct.find?_of_mem he]
    exact hw

theorem covering_lateBytes {k : Nat} {front earlier : Bytes} (hk : k ≤ earlier.length)
    (h : earlier.length ≤ front.length) : covering front (lateBytes k earlier) = front := by
  have hdrop : (lateBytes k earlier).drop front.length = [] := by
    rw [List.drop_eq_nil_iff]
    unfold lateBytes
    split
    · exact Nat.zero_le _
    · rw [List.length_append, List.length_replicate, List.length_drop]
      omega
  rw [covering, hdrop, List.append_nil]

/-- What a run leaves of a file whose writers were all opened under one reference. -/
structure Leaves (files : Table String Bytes) (name : String) (ref : Reference)
    (acts : List FileAct) (file : Option Bytes) : Prop where
  /-- It holds what it would hold in memory, unless the last opening found the reference still
  writing to it, and more printed to it before than after. -/
  afresh : (writesTo? ref (beforeOpening name acts) = some (.file name) →
      (printedTo name (beforeOpening name acts)).length ≤ (printedTo name acts).length) →
    file = DiceScript.contents files (diskEffects acts) name
  /-- In that case what the writer had held back of it, at most a buffer full, stays behind the lines,
  with zeros for what had reached the file before. -/
  behind : writesTo? ref (beforeOpening name acts) = some (.file name) →
    ∃ k, HeldBack k (printedTo name (beforeOpening name acts)) ∧
      file = some (covering (printedTo name acts)
        (lateBytes k (printedTo name (beforeOpening name acts))))

theorem beforeOpening_eq_nil (h : .emptied name ∉ diskEffects acts) :
    beforeOpening name acts = [] := by
  induction acts using List.reverseRecOn with
  | nil => rfl
  | append_singleton acts a ih =>
      have ha : a.empties name = false := by
        cases a with
        | opens access path r =>
            cases access with
            | read => rfl
            | write =>
                rw [FileAct.empties, decide_eq_false_iff_not]
                exact fun hpath => h (emptied_mem_append r acts hpath).1
        | _ => rfl
      rw [beforeOpening_append_of_not_empties ha]
      apply ih
      intro hmem
      rw [diskEffects_append] at h
      exact h (List.mem_append_left _ hmem)

/-- The file when the reference lets go of its last writer. -/
theorem FileFollows.leaves {w? : Option Writer} {env : Disk}
    (hf : FileFollows files name ref acts w? (env.files.find? name))
    (hw : w?.map Writer.target = writesTo? ref acts) :
    Leaves files name ref acts ((released w? env).files.find? name) := by
  cases hf with
  | untouched hnone hfile =>
      rw [released_find?_of_ne (target_ne hw fun h => hnone (emptied_mem_diskEffects h)), hfile]
      constructor
      · intro _
        rw [DiceScript.contents, if_neg hnone]
      · intro hstill
        rw [beforeOpening_eq_nil hnone] at hstill
        cases hstill
  | stands late hsome hbehind hstands =>
      rw [hstands.released]
      unfold Behind at hbehind
      by_cases hstill : writesTo? ref (beforeOpening name acts) = some (.file name)
      · rw [if_pos hstill] at hbehind
        obtain ⟨k, hk, rfl⟩ := hbehind
        constructor
        · intro hle
          rw [covering_lateBytes hk.le_length (hle hstill), DiceScript.contents, if_pos hsome]
          rfl
        · intro _
          exact ⟨k, hk, rfl⟩
      · rw [if_neg hstill] at hbehind
        subst hbehind
        constructor
        · intro _
          rw [DiceScript.contents, if_pos hsome, covering, List.drop_nil, List.append_nil]
          rfl
        · intro h
          exact absurd h hstill

/-- After a run from a machine without open files, every file is left as the history says. -/
theorem leaves_of_performs {limits : Limits} {p : Program} {r : Run host}
    (hstart : r.found.handles = .empty) (hperforms : r.Performs limits p acts)
    (honly : OnlyUnder ref name acts) :
    Leaves r.before.files name ref acts (r.after.files.find? name) := by
  obtain ⟨before, c, result, m, env, hreached, rfl, hturn, hafter, -⟩ := hperforms
  obtain ⟨hfile, hfollow⟩ := (file_follows hstart hreached honly.of_append).ended
    (writers_follow hstart hreached) hturn honly
  have hkeys : m.handles.Distinct := by
    have hempty : r.found.handles.Distinct := by
      rw [hstart]
      exact List.nodup_nil
    have hlast := Stable.distinct.turn limits p.code.toArray
      (hreached.stable Stable.distinct hempty)
    rwa [hturn] at hlast
  have hothers : ∀ r, ∀ w ∈ writer? m.toState r, w.target = .file name → r = ref := by
    intro r' w hw htarget
    apply honly.eq_of_writesTo?
    rw [← hfollow r', hw, Option.map_some, htarget]
  rw [hafter, closed_find? hkeys hothers]
  exact hfile.leaves (hfollow ref)

/-! ## The command line -/

theorem run_bind {σ α β : Type} (x : StateM σ α) (f : α → StateM σ β) (env : σ) :
    (x >>= f).run env = match x.run env with | (a, env') => (f a).run env' := rfl

theorem execute_eq (o : Options) (fuel : Nat) (p : Program) (env : Disk) :
    (CommandLine.execute shell o fuel p).run env =
      match ((Machine.run o.limits p fuel).run
        (Machine.start shell.toHost (Random.ofSeed (o.seed.getD 0)))).run env with
      | ((none, _), env') => (none, env')
      | ((some (.ok _), _), env') => (some 0, env')
      | ((some (.error e), _), env') =>
        (some 1, ((CommandLine.report shell o.errorFormat (.ofRuntimeError e)).run env').2) := by
  have hfresh : shell.freshSeed.run env = (0, env) := rfl
  unfold CommandLine.execute
  cases o.seed with
  | none =>
      dsimp only
      rw [run_bind, hfresh]
      dsimp only
      rw [run_bind, Option.getD_none]
      generalize Machine.start shell.toHost (Random.ofSeed 0) = machine
      rcases ((Machine.run o.limits p fuel).run machine).run env
        with ⟨⟨_ | (e | ex), left⟩, env'⟩ <;> rfl
  | some seed =>
      dsimp only
      rw [pure_bind, run_bind, Option.getD_some]
      generalize Machine.start shell.toHost (Random.ofSeed seed) = machine
      rcases ((Machine.run o.limits p fuel).run machine).run env
        with ⟨⟨_ | (e | ex), left⟩, env'⟩ <;> rfl

theorem report_files (format : ErrorFormat) (d : Diagnostic) (env : Disk) :
    ((CommandLine.report shell format d).run env).2.files = env.files := by
  cases format <;> rfl

/-- What is reported after a run changes no file. -/
theorem exists_run {o : Options} {fuel : Nat} {p : Program} {env env' : Disk} {code : Nat}
    (hrun : (CommandLine.execute shell o fuel p).run env = (some code, env')) :
    ∃ r : Run host, r.IsOf o.limits p ∧
      r.found = Machine.start host (Random.ofSeed (o.seed.getD 0)) ∧ r.before = env ∧
        r.after.files = env'.files ∧ (code = 0 ↔ r.succeeds = true) := by
  rw [execute_eq] at hrun
  rcases hm : ((Machine.run o.limits p fuel).run
    (Machine.start shell.toHost (Random.ofSeed (o.seed.getD 0)))).run env
      with ⟨⟨_ | (e | ex), left⟩, after⟩
  · rw [hm] at hrun
    cases hrun
  · rw [hm] at hrun
    cases hrun
    refine ⟨⟨_, env, .error e, left, after⟩, ⟨fuel, hm⟩, rfl, rfl, (report_files _ _ _).symm, ?_⟩
    simp [Run.succeeds, Except.isOk, Except.toBool]
  · rw [hm] at hrun
    cases hrun
    refine ⟨⟨_, env, .ok ex, left, env'⟩, ⟨fuel, hm⟩, rfl, rfl, rfl, ?_⟩
    simp [Run.succeeds, Except.isOk, Except.toBool]

/-- Whenever a program that the command line runs on a disk ends, with a success or with a failure,
it leaves every file as the acts of its run say, when the file was only written under one reference.
-/
theorem execute_leaves {o : Options} {fuel : Nat} {p : Program} {env env' : Disk} {code : Nat}
    (hrun : (CommandLine.execute shell o fuel p).run env = (some code, env')) :
    ∃ r : Run host, r.IsOf o.limits p ∧
      r.found = Machine.start host (Random.ofSeed (o.seed.getD 0)) ∧ r.before = env ∧
        (code = 0 ↔ r.succeeds = true) ∧ (∃ acts, r.Performs o.limits p acts) ∧
          ∀ acts, r.Performs o.limits p acts → ∀ name ref, OnlyUnder ref name acts →
            Leaves env.files name ref acts (env'.files.find? name) := by
  obtain ⟨r, hof, hfound, rfl, hafter, hcode⟩ := exists_run hrun
  refine ⟨r, hof, hfound, rfl, hcode, hof.exists_performs, ?_⟩
  intro acts hperforms name ref honly
  rw [← hafter]
  exact leaves_of_performs (by rw [hfound]; rfl) hperforms honly

/-- Opens a file for writing and writes a line, twice, and closes nothing in between. -/
def rewriting : Program :=
  ⟨[⟨.pushText, .text "log"⟩, ⟨.push, .int 1⟩, ⟨.dup, .int 1⟩, ⟨.openFile .write, .none⟩,
    ⟨.pushText, .text "long"⟩, ⟨.push, .int 1⟩, ⟨.dup, .int 1⟩, ⟨.filePrint, .none⟩,
    ⟨.pushText, .text "log"⟩, ⟨.push, .int 1⟩, ⟨.dup, .int 1⟩, ⟨.openFile .write, .none⟩,
    ⟨.pushText, .text "b"⟩, ⟨.push, .int 1⟩, ⟨.dup, .int 1⟩, ⟨.filePrint, .none⟩]⟩

/-- The second line is shorter than the first, and the end of the first stays behind it. -/
theorem execute_leaves_behind :
    ∃ (o : Options) (env' : Disk) (r : Run host) (acts : List FileAct),
      (CommandLine.execute shell o 20 rewriting).run ⟨[], "", "", .empty, 0, []⟩ = (some 0, env') ∧
        r.IsOf o.limits rewriting ∧ r.Performs o.limits rewriting acts ∧
          acts = [.opens .write "log" ⟨1, 1⟩, .prints ⟨1, 1⟩ (.text "long"),
            .opens .write "log" ⟨1, 1⟩, .prints ⟨1, 1⟩ (.text "b")] ∧
          OnlyUnder ⟨1, 1⟩ "log" acts ∧
            Leaves .empty "log" ⟨1, 1⟩ acts (env'.files.find? "log") ∧
              env'.files.find? "log" = some (Utf8.encode "b\nng\n") := by
  let o : Options := ⟨.inline "", none, none, false, none, .text⟩
  let disk : Disk := ⟨[], "", "", .empty, 0, []⟩
  let start : Machine host := Machine.start host (Random.ofSeed 0)
  let acts : List FileAct := [.opens .write "log" ⟨1, 1⟩, .prints ⟨1, 1⟩ (.text "long"),
    .opens .write "log" ⟨1, 1⟩, .prints ⟨1, 1⟩ (.text "b")]
  have hcode : ((CommandLine.execute shell o 20 rewriting).run disk).1 = some 0 := by
    decide +kernel
  have hrun : (CommandLine.execute shell o 20 rewriting).run disk =
      (some 0, ((CommandLine.execute shell o 20 rewriting).run disk).2) := Prod.ext hcode rfl
  obtain ⟨r, hof, hfound, hbefore, -, -, hleaves⟩ := execute_leaves hrun
  -- the run comes to the end of the code with these acts behind it
  have hpassed : ((⟨0, start, disk⟩ : Config host).history? .standard rewriting.code.toArray 16).map
      (fun x => (x.1, x.2.address)) = some (acts, 16) := by decide +kernel
  obtain ⟨⟨passed, address, m, env⟩, hhistory, hpair⟩ := Option.map_eq_some_iff.mp hpassed
  obtain ⟨rfl, rfl⟩ := Prod.mk.inj hpair
  have hreached : r.Reaches o.limits rewriting acts ⟨16, m, env⟩ := by
    unfold Run.Reaches
    rw [hfound, hbefore]
    exact Config.history_of_history? hhistory
  have hperforms : r.Performs o.limits rewriting acts := hof.performs hreached rfl
  have honly : OnlyUnder ⟨1, 1⟩ "log" acts := by
    intro path ref hmem _
    simp only [acts, List.mem_cons, FileAct.opens.injEq, List.not_mem_nil] at hmem
    grind
  exact ⟨o, _, r, acts, hrun, hof, hperforms, rfl, honly, hleaves acts hperforms "log" ⟨1, 1⟩ honly,
    by decide +kernel⟩

end Disk

end DiceScript
