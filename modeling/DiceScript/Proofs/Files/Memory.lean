import DiceScript.Proofs.Files.Contents

/-!
# Files in memory follow the history

Over the host in memory the open handles and the files are given by what was done with files before.
Whatever the interleaving of openings, prints, reads and closings, a reference is open as its latest
opening says, a reader goes on in the bytes that it found, and a file that was opened for writing
holds the lines added since it was last emptied.
-/

namespace DiceScript

open Machine

namespace Memory

/-! ## The acts -/

variable (s : State host) (env : Memory) (r : Reference)

theorem releasedAt_eq : releasedAt s r env = (.ok (), env) := by
  unfold releasedAt
  rcases s.handles.find? r with _ | (rd | w) <;> rfl

theorem outcome_opens_read (path : String) :
    outcome (FileAct.opens .read path r).perform s env =
      match env.files.find? path with
      | some bytes =>
        .done [.text path] ({ s with handles := s.handles.insert r (.reader bytes) }, env)
      | none => .failed (.host (.noSuchFile path)) (s, env) := by
  have hanswer : ((host.openRead path).run env).1 = env.openRead path := rfl
  rw [FileAct.outcome_opens_read]
  unfold openRead at hanswer
  cases hfile : env.files.find? path with
  | none =>
      rw [hfile] at hanswer
      have hrun : (host.openRead path).run env = (.error (.noSuchFile path), env) :=
        Prod.ext hanswer rfl
      rw [hrun]
  | some bytes =>
      rw [hfile] at hanswer
      have hrun : (host.openRead path).run env = (.ok bytes, env) := Prod.ext hanswer rfl
      rw [hrun]
      dsimp only
      rw [releasedAt_eq]
      rfl

theorem outcome_opens_write (path : String) :
    outcome (FileAct.opens .write path r).perform s env =
      .done [.text path] ({ s with handles := s.handles.insert r (.writer path),
                                   filesWritten := s.filesWritten.push path },
        env.openWrite path) := by
  rw [FileAct.outcome_opens_write]
  have hrun : (host.openWrite path).run env = (.ok path, env.openWrite path) := rfl
  rw [hrun]
  dsimp only
  rw [releasedAt_eq]
  rfl

theorem outcome_prints (v : Value) :
    outcome (FileAct.prints r v).perform s env =
      match s.handles.find? r with
      | some (.writer path) => .done [] ({ s with handles := s.handles.insert r (.writer path) },
          env.append path (Utf8.encode (v.display ++ "\n")))
      | some (.reader _) => .failed (.wrongHandleMode r .write) (s, env)
      | none => .failed (.unknownHandle r) (s, env) := by
  rw [FileAct.outcome_prints]
  rcases s.handles.find? r with _ | (rd | path)
  · rfl
  · rfl
  · dsimp only
    have hrun : (host.write path (v.pieces ++ ["\n"])).run env =
        ((.ok (), path), env.append path (Utf8.encode (String.join (v.pieces ++ ["\n"])))) := rfl
    rw [hrun, Value.join_pieces_concat]
    rfl

theorem outcome_reads :
    outcome (FileAct.reads r).perform s env =
      match s.handles.find? r with
      | some (.reader bytes) =>
        match readLine bytes with
        | (.line text, rest) =>
          .done [.text text] ({ s with handles := s.handles.insert r (.reader rest) }, env)
        | (.endOfInput, rest) =>
          .failed .endOfInput ({ s with handles := s.handles.insert r (.reader rest) }, env)
        | (.notText, rest) =>
          .failed (.host .notText) ({ s with handles := s.handles.insert r (.reader rest) }, env)
      | some (.writer _) => .failed (.wrongHandleMode r .read) (s, env)
      | none => .failed (.unknownHandle r) (s, env) := by
  rw [FileAct.outcome_reads]
  rcases s.handles.find? r with _ | (bytes | w)
  · rfl
  · dsimp only
    have hrun : (host.readLine bytes).run env =
        (((readLine bytes).1.toExcept, (readLine bytes).2), env) := rfl
    rw [hrun]
    rcases readLine bytes with ⟨_ | _ | _, rest⟩ <;> rfl
  · rfl

theorem outcome_closes :
    outcome (FileAct.closes r).perform s env =
      match s.handles.find? r with
      | some _ => .done [.number 0] ({ s with handles := s.handles.erase r }, env)
      | none => .failed (.unknownHandle r) (s, env) := by
  rw [FileAct.outcome_closes]
  rcases s.handles.find? r with _ | (rd | w) <;> rfl

/-- Nothing but acts with files touches the open handles and the files. -/
theorem quiet (handles : Table Reference (Handle host)) (files : Table String Bytes) :
    Quiet fun k : State host × Memory => k.1.handles = handles ∧ k.2.files = files := by
  have hprompt : ∀ env : Memory, env.prompt.2.files = env.files := by
    intro env
    unfold Memory.prompt
    rcases readLine env.input with ⟨_ | _ | _, rest⟩ <;> rfl
  exact .of_handles (fun _ => rfl) hprompt (fun _ _ => rfl) fun handles' files' =>
    handles' = handles ∧ files' = files

/-! ## Histories -/

variable {limits : Limits} {code : Array Instruction} {c₀ c c' : Config host}
  {acts : List FileAct} {r : Reference}

/-- What is left of a byte string when some lines were read. -/
def unread : Nat → Bytes → Bytes
  | 0, bytes => bytes
  | n + 1, bytes => (readLine (unread n bytes)).2

/-- The latest act that opens or closes the reference opened it for reading, and found the bytes at
the path. Since then so many lines were read from it. -/
def OpenedOn (limits : Limits) (code : Array Instruction) (c₀ : Config host) (acts : List FileAct)
    (c : Config host) (r : Reference) (path : String) (bytes : Bytes) (n : Nat) : Prop :=
  ∃ before after c₁ c₂, acts = before ++ .opens .read path r :: after ∧
    (∀ a ∈ after, a.binds r = false) ∧ History limits code c₀ before c₁ ∧
      c₁.fileAct? code = some (.opens .read path r) ∧ c₁.Continues limits code c₂ ∧
        History limits code c₂ after c ∧ c₁.env.files.find? path = some bytes ∧
          after.countP (FileAct.isRead r) = n

theorem OpenedOn.next {path : String} {bytes : Bytes} {n : Nat}
    (ho : OpenedOn limits code c₀ acts c r path bytes n) (hc : c.Continues limits code c')
    (hbinds : ∀ a ∈ c.fileAct? code, a.binds r = false) :
    OpenedOn limits code c₀ (acts ++ (c.fileAct? code).toList) c' r path bytes
      (n + (c.fileAct? code).toList.countP (FileAct.isRead r)) := by
  obtain ⟨before, after, c₁, c₂, rfl, hafter, hbefore, hopens, hopened, hsince, hbytes, rfl⟩ := ho
  refine ⟨before, after ++ (c.fileAct? code).toList, c₁, c₂, by simp, ?_, hbefore, hopens, hopened,
    hsince.next hc, hbytes, List.countP_append⟩
  intro a ha
  rcases List.mem_append.mp ha with ha | ha
  · exact hafter a ha
  · exact hbinds a (Option.mem_toList.mp ha)

/-- The handle of a reference is as its latest opening says, unless it was closed since. -/
inductive HandleFollows (limits : Limits) (code : Array Instruction) (c₀ : Config host)
    (acts : List FileAct) (c : Config host) (r : Reference) : Prop
  | closed : openedAs? r acts = none → c.machine.handles.find? r = none →
      HandleFollows limits code c₀ acts c r
  | writes (path : String) : openedAs? r acts = some (.write, path) →
      c.machine.handles.find? r = some (.writer path) → HandleFollows limits code c₀ acts c r
  | reads (path : String) (bytes : Bytes) (n : Nat) : openedAs? r acts = some (.read, path) →
      OpenedOn limits code c₀ acts c r path bytes n →
        c.machine.handles.find? r = some (.reader (unread n bytes)) →
          HandleFollows limits code c₀ acts c r

theorem openedAs?_append_toList {a? : Option FileAct} (hbinds : ∀ a ∈ a?, a.binds r = false) :
    openedAs? r (acts ++ a?.toList) = openedAs? r acts := by
  cases a? with
  | none => rw [Option.toList_none, List.append_nil]
  | some a => exact openedAs?_append_of_not_binds (hbinds a rfl)

/-- An act with another reference, or none at all, leaves the handle as it is. -/
theorem HandleFollows.keep (hf : HandleFollows limits code c₀ acts c r)
    (hc : c.Continues limits code c') (hbinds : ∀ a ∈ c.fileAct? code, a.binds r = false)
    (hreads : ∀ a ∈ c.fileAct? code, a.isRead r = false)
    (hfind : c'.machine.handles.find? r = c.machine.handles.find? r) :
    HandleFollows limits code c₀ (acts ++ (c.fileAct? code).toList) c' r := by
  have hopened : openedAs? r (acts ++ (c.fileAct? code).toList) = openedAs? r acts :=
    openedAs?_append_toList hbinds
  cases hf with
  | closed hnone hhandle => exact .closed (hopened.trans hnone) (hfind.trans hhandle)
  | writes path hsome hhandle => exact .writes path (hopened.trans hsome) (hfind.trans hhandle)
  | reads path bytes n hsome ho hhandle =>
      have hcount : (c.fileAct? code).toList.countP (FileAct.isRead r) = 0 := by
        rw [List.countP_eq_zero]
        intro a ha
        rw [hreads a (Option.mem_toList.mp ha)]
        exact Bool.false_ne_true
      have hnext := ho.next hc hbinds
      rw [hcount] at hnext
      exact .reads path bytes n (hopened.trans hsome) hnext (hfind.trans hhandle)

/-- What an act that succeeds changes. -/
def Changes (a : FileAct) (s : State host) (env : Memory) (s' : State host) (env' : Memory) : Prop :=
  match a with
  | .opens .read path r => ∃ bytes, env.files.find? path = some bytes ∧
      s'.handles = s.handles.insert r (.reader bytes) ∧ env' = env
  | .opens .write path r => s'.handles = s.handles.insert r (.writer path) ∧
      env' = env.openWrite path
  | .prints r v => ∃ path, s.handles.find? r = some (.writer path) ∧
      s'.handles = s.handles.insert r (.writer path) ∧
        env' = env.append path (Utf8.encode (v.display ++ "\n"))
  | .reads r => ∃ bytes text, s.handles.find? r = some (.reader bytes) ∧
      (readLine bytes).1 = .line text ∧
        s'.handles = s.handles.insert r (.reader (readLine bytes).2) ∧ env' = env
  | .closes r => s'.handles = s.handles.erase r ∧ env' = env

/-- An act succeeds with its changes, or fails before it gets through to its file, and changes nothing in
the surroundings. -/
theorem outcome_cases (a : FileAct) (s : State host) (env : Memory) :
    (∃ vs s' env', outcome a.perform s env = .done vs (s', env') ∧ Changes a s env s' env') ∨
      a.getsThrough s env = false ∧ ∃ f s', outcome a.perform s env = .failed f (s', env) := by
  cases a with
  | opens access path r =>
      cases access with
      | read =>
          rw [outcome_opens_read]
          cases hfile : env.files.find? path with
          | none =>
              have hopen : (FileAct.opens .read path r).getsThrough s env =
                (env.openRead path).isOk := rfl
              rw [openRead, hfile] at hopen
              exact .inr ⟨hopen, _, _, rfl⟩
          | some bytes => exact .inl ⟨_, _, _, rfl, bytes, hfile, rfl, rfl⟩
      | write =>
          rw [outcome_opens_write]
          exact .inl ⟨_, _, _, rfl, rfl, rfl⟩
  | prints r v =>
      rw [outcome_prints, FileAct.getsThrough]
      rcases hhandle : s.handles.find? r with _ | (bytes | path)
      · exact .inr ⟨rfl, _, _, rfl⟩
      · exact .inr ⟨rfl, _, _, rfl⟩
      · exact .inl ⟨_, _, _, rfl, path, hhandle, rfl, rfl⟩
  | reads r =>
      rw [outcome_reads]
      rcases hhandle : s.handles.find? r with _ | (bytes | path)
      · exact .inr ⟨rfl, _, _, rfl⟩
      · dsimp only
        rcases hline : readLine bytes with ⟨text | _ | _, rest⟩
        · refine .inl ⟨[.text text], _, env, rfl, bytes, text, hhandle, ?_⟩
          rw [hline]
          exact ⟨rfl, rfl, rfl⟩
        · exact .inr ⟨rfl, _, _, rfl⟩
        · exact .inr ⟨rfl, _, _, rfl⟩
      · exact .inr ⟨rfl, _, _, rfl⟩
  | closes r =>
      rw [outcome_closes, FileAct.getsThrough]
      cases s.handles.find? r with
      | none => exact .inr ⟨rfl, _, _, rfl⟩
      | some handle => exact .inl ⟨_, _, _, rfl, rfl, rfl⟩

theorem changes_of_done {a : FileAct} {s s' : State host} {env env' : Memory} {vs : List Value}
    (hx : outcome a.perform s env = .done vs (s', env')) : Changes a s env s' env' := by
  rcases outcome_cases a s env with ⟨_, _, _, hdone, hchanges⟩ | ⟨-, _, _, hfailed⟩
  · rw [hdone] at hx
    cases hx
    exact hchanges
  · rw [hfailed] at hx
    cases hx

/-- An act that neither opens or closes the reference nor reads from it leaves its handle alone. -/
theorem Changes.find?_eq {a : FileAct} {s s' : State host} {env env' : Memory}
    (h : Changes a s env s' env') (hbinds : a.binds r = false) (hreads : a.isRead r = false) :
    s'.handles.find? r = s.handles.find? r := by
  cases a with
  | opens access path r' =>
      have hr : r' ≠ r := by simpa [FileAct.binds] using hbinds
      cases access with
      | read =>
          obtain ⟨bytes, -, hhandles, -⟩ := h
          rw [hhandles, Table.find?_insert, if_neg hr]
      | write => rw [h.1, Table.find?_insert, if_neg hr]
  | prints r' v =>
      obtain ⟨path, hhandle, hhandles, -⟩ := h
      rw [hhandles, Table.find?_insert]
      split
      · rename_i hr
        rw [← hr, hhandle]
      · rfl
  | reads r' =>
      obtain ⟨bytes, text, -, -, hhandles, -⟩ := h
      have hr : r' ≠ r := by simpa [FileAct.isRead] using hreads
      rw [hhandles, Table.find?_insert, if_neg hr]
  | closes r' =>
      have hr : r' ≠ r := by simpa [FileAct.binds] using hbinds
      rw [h.1, Table.find?_erase, if_neg hr]

theorem env_of_failed {a : FileAct} {s s' : State host} {env env' : Memory} {f : Fault}
    (hx : outcome a.perform s env = .failed f (s', env')) :
    a.getsThrough s env = false ∧ env' = env := by
  rcases outcome_cases a s env with ⟨_, _, _, hdone, -⟩ | ⟨hthrough, _, _, hfailed⟩
  · rw [hdone] at hx
    cases hx
  · rw [hfailed] at hx
    cases hx
    exact ⟨hthrough, rfl⟩

/-- A reference that writes was opened for it. -/
theorem HandleFollows.opened_of_writer (hf : HandleFollows limits code c₀ acts c r) {path : String}
    (h : c.machine.handles.find? r = some (.writer path)) :
    openedAs? r acts = some (.write, path) := by
  cases hf with
  | closed _ hnone =>
      rw [hnone] at h
      cases h
  | writes path' hsome hwriter =>
      rw [hwriter] at h
      cases h
      exact hsome
  | reads path' bytes n _ _ hreader =>
      rw [hreader] at h
      cases h

/-- A reference that reads was opened for it, and the reading goes on in the bytes found then. -/
theorem HandleFollows.opened_of_reader (hf : HandleFollows limits code c₀ acts c r) {left : Bytes}
    (h : c.machine.handles.find? r = some (.reader left)) :
    ∃ path bytes n, openedAs? r acts = some (.read, path) ∧
      OpenedOn limits code c₀ acts c r path bytes n ∧ unread n bytes = left := by
  cases hf with
  | closed _ hnone =>
      rw [hnone] at h
      cases h
  | writes path hsome hwriter =>
      rw [hwriter] at h
      cases h
  | reads path bytes n hsome ho hreader =>
      rw [hreader] at h
      cases h
      exact ⟨path, bytes, n, hsome, ho, rfl⟩

/-- The handle of a reference that is opened in this turn. -/
theorem handleFollows_opens {access : Access} {path : String} (h : History limits code c₀ acts c)
    (hc : c.Continues limits code c') (ha : c.fileAct? code = some (.opens access path r)) :
    HandleFollows limits code c₀ (acts ++ [.opens access path r]) c' r := by
  obtain ⟨vs, rest, hx, -⟩ := hc.of_fileAct ha
  have hchanges := changes_of_done hx
  have hopened : openedAs? r (acts ++ [.opens access path r]) = some (access, path) := by
    rw [openedAs?_append_opens, if_pos rfl]
  cases access with
  | read =>
      obtain ⟨bytes, hfile, hhandles, -⟩ := hchanges
      refine .reads path bytes 0 hopened ?_ ?_
      · exact ⟨acts, [], c, c', rfl, by simp, h, ha, hc, .start, hfile, rfl⟩
      · rw [hhandles, Table.find?_insert_self]
        rfl
  | write =>
      refine .writes path hopened ?_
      rw [hchanges.1, Table.find?_insert_self]

theorem handleFollows_closes (hc : c.Continues limits code c')
    (ha : c.fileAct? code = some (.closes r)) :
    HandleFollows limits code c₀ (acts ++ [.closes r]) c' r := by
  obtain ⟨vs, rest, hx, -⟩ := hc.of_fileAct ha
  refine .closed (by rw [openedAs?_append_closes, if_pos rfl]) ?_
  rw [(changes_of_done hx).1, Table.find?_erase, if_pos rfl]

/-- The handle of a reference that is read from in this turn. -/
theorem HandleFollows.reads_line (hf : HandleFollows limits code c₀ acts c r)
    (hc : c.Continues limits code c') (ha : c.fileAct? code = some (.reads r)) :
    HandleFollows limits code c₀ (acts ++ [.reads r]) c' r := by
  obtain ⟨vs, rest, hx, -⟩ := hc.of_fileAct ha
  obtain ⟨left, text, hhandle, -, hhandles, -⟩ := changes_of_done hx
  obtain ⟨path, bytes, n, hopened, ho, rfl⟩ := hf.opened_of_reader hhandle
  have hnext := ho.next hc (by simp [ha, FileAct.binds])
  rw [ha] at hnext
  refine .reads path bytes (n + 1) ((openedAs?_append_of_not_binds rfl).trans hopened) ?_ ?_
  · simpa [FileAct.isRead] using hnext
  · rw [hhandles, Table.find?_insert_self]
    rfl

/-- The handle of a reference after one more turn. -/
theorem HandleFollows.next (hf : HandleFollows limits code c₀ acts c r)
    (h : History limits code c₀ acts c) (hc : c.Continues limits code c') :
    HandleFollows limits code c₀ (acts ++ (c.fileAct? code).toList) c' r := by
  by_cases hown : ∃ a ∈ c.fileAct? code, a.binds r = true ∨ a.isRead r = true
  · obtain ⟨a, ha, hown⟩ := hown
    rw [ha, Option.toList_some]
    cases a with
    | opens access path r' =>
        obtain rfl : r' = r := by simpa [FileAct.binds, FileAct.isRead] using hown
        exact handleFollows_opens h hc ha
    | prints r' v => simp [FileAct.binds, FileAct.isRead] at hown
    | reads r' =>
        obtain rfl : r' = r := by simpa [FileAct.binds, FileAct.isRead] using hown
        exact hf.reads_line hc ha
    | closes r' =>
        obtain rfl : r' = r := by simpa [FileAct.binds, FileAct.isRead] using hown
        exact handleFollows_closes hc ha
  · have hbinds : ∀ a ∈ c.fileAct? code, a.binds r = false := fun a ha =>
      Bool.eq_false_iff.mpr fun hbinds => hown ⟨a, ha, .inl hbinds⟩
    have hreads : ∀ a ∈ c.fileAct? code, a.isRead r = false := fun a ha =>
      Bool.eq_false_iff.mpr fun hreads => hown ⟨a, ha, .inr hreads⟩
    refine hf.keep hc hbinds hreads ?_
    cases ha : c.fileAct? code with
    | none => rw [((quiet c.machine.handles c.env.files).continues hc ha ⟨rfl, rfl⟩).1]
    | some a =>
        obtain ⟨vs, rest, hx, -⟩ := hc.of_fileAct ha
        exact (changes_of_done hx).find?_eq (hbinds a ha) (hreads a ha)

/-- The open handles and the files at a configuration are given by the acts of the run up to there,
over files that follow earlier effects. -/
structure Follows (limits : Limits) (code : Array Instruction) (c₀ : Config host)
    (files : Table String Bytes) (earlier : List FileEffect) (acts : List FileAct)
    (c : Config host) : Prop where
  reached : History limits code c₀ acts c
  handles : ∀ r, HandleFollows limits code c₀ acts c r
  files : ∀ path, c.env.files.find? path = contents files (earlier ++ effects acts) path

variable {files : Table String Bytes} {earlier : List FileEffect}

/-- The files after one more act, when what writes was opened for it. -/
theorem Changes.files_follow {a : FileAct} {s s' : State host} {env env' : Memory}
    (h : Changes a s env s' env')
    (hopened : ∀ r path, s.handles.find? r = some (.writer path) →
      openedAs? r acts = some (.write, path))
    (hfiles : ∀ path, env.files.find? path = contents files (earlier ++ effects acts) path)
    (path : String) :
    env'.files.find? path = contents files (earlier ++ effects (acts ++ [a])) path := by
  rw [effects_append, ← List.append_assoc]
  cases a with
  | opens access path' r =>
      cases access with
      | read =>
          obtain ⟨bytes, -, -, henv⟩ := h
          rw [henv, hfiles path]
          exact congrArg (contents files · path) (List.append_nil _).symm
      | write =>
          have heffect :
              (FileAct.opens .write path' r).effect? acts = some (.emptied path') := rfl
          rw [h.2, heffect, Option.toList_some, contents_append_emptied, ← hfiles path]
          exact Table.find?_insert _ _ _ _
  | prints r v =>
      obtain ⟨path', hhandle, -, henv⟩ := h
      have hwrites := hopened r path' hhandle
      have heffect : (FileAct.prints r v).effect? acts = some (.added path' v.display) := by
        rw [FileAct.effect?, hwrites]
      rw [henv, heffect, Option.toList_some,
        contents_append_added (List.mem_append_right _ (emptied_mem_effects hwrites)),
        ← hfiles path, ← hfiles path']
      exact Table.find?_insert _ _ _ _
  | reads r =>
      obtain ⟨bytes, text, -, -, -, henv⟩ := h
      rw [henv, hfiles path]
      exact congrArg (contents files · path) (List.append_nil _).symm
  | closes r =>
      rw [h.2, hfiles path]
      exact congrArg (contents files · path) (List.append_nil _).symm

/-- The files after one more turn. -/
theorem Follows.next_files (hf : Follows limits code c₀ files earlier acts c)
    (hc : c.Continues limits code c') (path : String) :
    c'.env.files.find? path =
      contents files (earlier ++ effects (acts ++ (c.fileAct? code).toList)) path := by
  cases ha : c.fileAct? code with
  | none =>
      have hquiet := (quiet c.machine.handles c.env.files).continues hc ha ⟨rfl, rfl⟩
      rw [hquiet.2, Option.toList_none, List.append_nil]
      exact hf.files path
  | some a =>
      obtain ⟨vs, rest, hx, -⟩ := hc.of_fileAct ha
      exact (changes_of_done hx).files_follow
        (fun r _ hhandle => (hf.handles r).opened_of_writer hhandle) hf.files path

/-- From a machine without open files on, the handles and the files follow the history. -/
theorem follows (hstart : c₀.machine.handles = .empty)
    (hfiles : ∀ path, c₀.env.files.find? path = contents files earlier path)
    (h : History limits code c₀ acts c) : Follows limits code c₀ files earlier acts c := by
  induction h with
  | start =>
      refine ⟨.start, fun r => .closed rfl ?_, fun path => ?_⟩
      · rw [hstart, Table.find?_empty]
      · rw [hfiles path]
        exact congrArg (contents files · path) (List.append_nil _).symm
  | next h hc ih => exact ⟨h.next hc, fun r => (ih.handles r).next h hc, ih.next_files hc⟩

end Memory

end DiceScript
