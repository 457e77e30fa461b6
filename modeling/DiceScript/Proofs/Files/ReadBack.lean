import DiceScript.Proofs.Files.Disk
import DiceScript.Proofs.Files.Memory
import DiceScript.Proofs.Files.PrintedLines

/-!
# Every byte of a file is read

Reading line by line goes through the segments of a byte string, text or not, and finds the end of
input after the last. Lines that are printed come back unchanged, from a file in memory as from one
on disk.
-/

namespace DiceScript

open Machine

/-! ## Files in memory -/

namespace Memory

/-- How far a file in memory has come. -/
def LineStands (path : String) : FilePhase → State host × Memory → Prop
  | .free, _ => True
  | .writing r bytes, k =>
    k.1.handles.find? r = some (.writer path) ∧ k.2.files.find? path = some bytes
  | .closed bytes, k => k.2.files.find? path = some bytes
  | .reading r bytes, k => k.1.handles.find? r = some (.reader bytes)

theorem lineStands_steps {path : String} {p p' : FilePhase} {a : FileAct} {vs : List Value}
    (hs : p.Steps path a vs p') {s : State host} {env : Memory}
    (hk : LineStands path p (s, env)) :
    ∃ k, outcome a.perform s env = .done vs k ∧ LineStands path p' k := by
  cases hs with
  | opens_write r =>
      refine ⟨_, outcome_opens_write s env r path, Table.find?_insert_self _ _ _, ?_⟩
      exact Table.find?_insert_self _ _ _
  | prints r bytes v =>
      have hx := outcome_prints s env r v
      rw [hk.1] at hx
      refine ⟨_, hx, Table.find?_insert_self _ _ _, ?_⟩
      unfold append
      rw [hk.2]
      exact Table.find?_insert_self _ _ _
  | closes r bytes =>
      have hx := outcome_closes s env r
      rw [hk.1] at hx
      exact ⟨_, hx, hk.2⟩
  | opens_read r bytes =>
      have hx := outcome_opens_read s env r path
      rw [show env.files.find? path = some bytes from hk] at hx
      exact ⟨_, hx, Table.find?_insert_self _ _ _⟩
  | @reads r bytes rest text hread =>
      have hx := outcome_reads s env r
      rw [show s.handles.find? r = some (.reader bytes) from hk] at hx
      dsimp only at hx
      rw [hread] at hx
      exact ⟨_, hx, Table.find?_insert_self _ _ _⟩

/-- Lines can be printed to a path in memory whatever was done before. -/
def lineFile (path : String) : LineFile host path where
  stands := LineStands path
  quiet := by
    intro p limits code c c' hc ha hk
    obtain ⟨hhandles, hfiles⟩ :=
      (quiet c.machine.handles c.env.files).continues hc ha ⟨rfl, rfl⟩
    dsimp only at hhandles hfiles
    cases p with
    | free => trivial
    | _ => simpa only [LineStands, hhandles, hfiles] using hk
  steps := fun _ _ _ _ hs _ _ => lineStands_steps hs
  ends := by
    intro r s env hk
    have hx := outcome_reads s env r
    rw [show s.handles.find? r = some (.reader []) from hk] at hx
    exact ⟨_, hx⟩

end Memory

/-! ## Files on disk -/

/-- What is opened for writing can be read once the file is there. -/
theorem Path.toRead_ok {files : Table String Bytes} {path name : String}
    (hpath : fileOf? path = some name) (hfile : (files.find? name).isSome) :
    toRead files path = .ok (.file name) := by
  rw [fileOf?_eq_some] at hpath
  unfold toWrite at hpath
  unfold toRead
  cases hlocate : locate .empty path with
  | error e =>
      rw [hlocate] at hpath
      cases hpath
  | ok x =>
      obtain ⟨p, name?⟩ := x
      rw [hlocate] at hpath
      rw [locate_ok hlocate]
      cases name? with
      | none => cases hpath
      | some last =>
          dsimp only at hpath ⊢
          split at hpath
          · cases hpath
          rename_i hslash
          unfold Place.find at hpath ⊢
          grind [Table.find?_empty]

namespace Disk

/-- Fetching for a line moves bytes over until a line feed is there or none is left. -/
theorem fetchLine_spec (fetched unread : Bytes) :
    (fetchLine fetched unread).1 = fetched ++ unread.take (fetchLine fetched unread).2 ∧
      (10 ∈ (fetchLine fetched unread).1 ∨ unread.drop (fetchLine fetched unread).2 = []) := by
  fun_induction fetchLine fetched unread with
  | case1 fetched => simp
  | case2 fetched unread hne piece hfeed =>
      have hpiece : unread.take piece.length = piece := by simp [piece]
      dsimp only
      rw [hpiece]
      exact ⟨rfl, .inl (List.mem_append_right _ (by simpa using hfeed))⟩
  | case3 fetched unread hne piece hfeed bytes n heq ih =>
      rw [heq] at ih
      dsimp only at ih ⊢
      obtain ⟨hbytes, hdone⟩ := ih
      have hpiece : unread = piece ++ unread.drop pieceSize := (List.take_append_drop _ _).symm
      generalize unread.drop pieceSize = later at hpiece hbytes hdone
      rw [hpiece, Nat.add_comm, List.take_length_add_append, List.drop_length_add_append]
      refine ⟨?_, hdone⟩
      rw [hbytes, List.append_assoc]

/-- A line is read from what was fetched before and what is left of the file as if both were one. -/
theorem nextLine_eq {env : Disk} {rd : Reader} {name : String} {bytes rest : Bytes}
    (hsource : rd.source = .file name) (hfile : env.files.find? name = some bytes)
    (hrest : rd.fetched ++ bytes.drop rd.offset = rest) :
    ∃ rd', env.nextLine rd = ((readLine rest).1.toExcept, rd') ∧ rd'.source = .file name ∧
      rd'.fetched ++ bytes.drop rd'.offset = (readLine rest).2 := by
  have hcontents : env.contents rd.source = .ok bytes := by
    rw [hsource, contents, hfile, Option.getD_some]
  obtain ⟨got, n, hgot, hfetch, hdone⟩ : ∃ got n,
      (if rd.fetched.contains 10 then (rd.fetched, 0)
        else fetchLine rd.fetched (bytes.drop rd.offset)) = (got, n) ∧
      got = rd.fetched ++ (bytes.drop rd.offset).take n ∧
        (10 ∈ got ∨ (bytes.drop rd.offset).drop n = []) := by
    split
    · rename_i hfeed
      exact ⟨_, _, rfl, by simp, .inl (by simpa using hfeed)⟩
    · exact ⟨_, _, rfl, fetchLine_spec _ _⟩
  have hsplit : rest = got ++ bytes.drop (rd.offset + n) := by
    rw [← hrest, hfetch, List.append_assoc, ← List.drop_drop, List.take_append_drop]
  have hread : readLine rest =
      ((readLine got).1, (readLine got).2 ++ bytes.drop (rd.offset + n)) := by
    rw [hsplit]
    rcases hdone with hfeed | hnone
    · exact readLine_append hfeed _
    · rw [List.drop_drop] at hnone
      rw [hnone, List.append_nil, List.append_nil]
  refine ⟨⟨rd.source, rd.offset + n, (readLine got).2⟩, ?_, hsource, ?_⟩
  · rw [nextLine, hcontents]
    dsimp only
    rw [hgot, hread]
  · rw [hread]

/-- The writer writes to another file, and not to the full device. -/
def Elsewhere (name : String) (w : Writer) : Prop :=
  w.target ≠ .file name ∧ w.target ≠ .fullDevice

/-- No reference writes to the file, and every writer can be let go. -/
def Unwritten (name : String) (s : State host) : Prop :=
  ∀ r, ∀ w ∈ writer? s r, Elsewhere name w

/-- How far a file on disk has come. -/
def LineStands (name : String) : FilePhase → State host × Disk → Prop
  | .free, k => Unwritten name k.1
  | .writing r bytes, k =>
    (∃ w, writer? k.1 r = some w ∧ w.target = .file name ∧
      Stands name bytes [] (some w) (k.2.files.find? name)) ∧
        ∀ r' ≠ r, ∀ w ∈ writer? k.1 r', Elsewhere name w
  | .closed bytes, k => Unwritten name k.1 ∧ k.2.files.find? name = some bytes
  | .reading r bytes, k =>
    ∃ rd all, k.1.handles.find? r = some (.reader rd) ∧ rd.source = .file name ∧
      k.2.files.find? name = some all ∧ rd.fetched ++ all.drop rd.offset = bytes

theorem find?_of_writer? {s : State host} {r : Reference} {w : Writer}
    (h : writer? s r = some w) : s.handles.find? r = some (.writer w) := by
  obtain ⟨handle, hhandle, hw⟩ := Option.bind_eq_some_iff.mp h
  cases handle with
  | reader rd => cases hw
  | writer w' =>
      cases hw
      exact hhandle

/-- Nothing but acts with files touches the open handles and the files. -/
theorem quiet_handles (handles : Table Reference (Handle host)) (files : Table String Bytes) :
    Quiet fun k : State host × Disk => k.1.handles = handles ∧ k.2.files = files :=
  .of_handles (fun _ => rfl) (fun _ => rfl) (fun _ _ => rfl) fun handles' files' =>
    handles' = handles ∧ files' = files

section Steps

variable {path name : String} {s : State host} {env : Disk} {r : Reference} {bytes : Bytes}

theorem LineStands.opens_write (hpath : Path.fileOf? path = some name)
    (hk : LineStands name .free (s, env)) :
    ∃ k, outcome (FileAct.opens .write path r).perform s env = .done [.text path] k ∧
      LineStands name (.writing r []) k := by
  have htarget : Path.toWrite env.files path = .ok (.file name) :=
    Path.toWrite_ok (Path.fileOf?_eq_some.mp hpath)
  have hrun : (host.openWrite path).run env = (.ok ⟨.file name, 0, .empty⟩,
      { env with files := env.files.insert name [] }) := by
    change env.openWrite path = _
    rw [openWrite, htarget]
    rfl
  have hx := FileAct.outcome_opens_write s env r path
  rw [hrun] at hx
  dsimp only at hx
  rw [releasedAt_ok fun w hw => (hk r w hw).2] at hx
  have hwriters : writer? ({ s with
      handles := s.handles.insert r (.writer ⟨.file name, 0, .empty⟩)
      filesWritten := s.filesWritten.push path } : State host) =
        Function.update (writer? s) r (some ⟨.file name, 0, .empty⟩) :=
    writer?_insert (.writer ⟨.file name, 0, .empty⟩) rfl
  refine ⟨_, hx, ⟨⟨.file name, 0, .empty⟩, ?_, rfl, ?_⟩, ?_⟩
  · rw [hwriters]
    exact Function.update_self _ _ _
  · dsimp only
    rw [released_find?_of_ne fun w hw => (hk r w hw).1, Table.find?_insert_self]
    exact Stands.opened name []
  · intro r' hr' w hw
    rw [hwriters, Function.update_of_ne hr'] at hw
    exact hk r' w hw

theorem LineStands.prints (hk : LineStands name (.writing r bytes) (s, env)) (v : Value) :
    ∃ k, outcome (FileAct.prints r v).perform s env = .done [] k ∧
      LineStands name (.writing r (bytes ++ Utf8.encode (v.display ++ "\n"))) k := by
  obtain ⟨⟨w, hw, htarget, hstands⟩, hothers⟩ := hk
  have hline : ((v.pieces ++ ["\n"]).map Utf8.encode).flatten =
      Utf8.encode (v.display ++ "\n") := by
    rw [← encode_join, Value.join_pieces_concat]
  have hwritten := hstands.write htarget (v.pieces ++ ["\n"])
  have hkept : (env.write w (v.pieces ++ ["\n"])).1.2.target = .file name :=
    (write_target _ _ _).trans htarget
  rw [hline] at hwritten
  have hx := FileAct.outcome_prints s env r v
  rw [find?_of_writer? hw] at hx
  dsimp only at hx
  have hrun : (host.write w (v.pieces ++ ["\n"])).run env = env.write w (v.pieces ++ ["\n"]) := rfl
  have haccepts : (env.write w (v.pieces ++ ["\n"])).1.1 = .ok () := by
    rw [write_eq (by rw [htarget]; exact nofun)]
  rw [hrun] at hx
  rcases hwrite : env.write w (v.pieces ++ ["\n"]) with ⟨⟨answer, w'⟩, env'⟩
  rw [hwrite] at hx hwritten hkept haccepts
  obtain rfl : answer = .ok () := haccepts
  have hwriters : writer? ({ s with handles := s.handles.insert r (.writer w') } : State host) =
      Function.update (writer? s) r (some w') := writer?_insert (.writer w') rfl
  refine ⟨_, hx, ⟨w', ?_, hkept, hwritten⟩, ?_⟩
  · rw [hwriters]
    exact Function.update_self _ _ _
  · intro r' hr' other hother
    rw [hwriters, Function.update_of_ne hr'] at hother
    exact hothers r' hr' other hother

theorem LineStands.closes (hk : LineStands name (.writing r bytes) (s, env)) :
    ∃ k, outcome (FileAct.closes r).perform s env = .done [.number 0] k ∧
      LineStands name (.closed bytes) k := by
  obtain ⟨⟨w, hw, htarget, hstands⟩, hothers⟩ := hk
  have hx := FileAct.outcome_closes s env r
  have hreleased : (Handle.writer w : Handle host).released env = (.ok (), env.drop w) :=
    Prod.ext (close_fst (by rw [htarget]; exact nofun) env) (close_snd w env)
  rw [find?_of_writer? hw] at hx
  dsimp only at hx
  rw [hreleased] at hx
  have hwriters : writer? ({ s with handles := s.handles.erase r } : State host) =
      Function.update (writer? s) r none := writer?_erase rfl
  refine ⟨_, hx, ?_, ?_⟩
  · intro r' w' hw'
    rw [hwriters] at hw'
    by_cases hr : r' = r
    · rw [hr, Function.update_self] at hw'
      cases hw'
    · rw [Function.update_of_ne hr] at hw'
      exact hothers r' hr w' hw'
  · have hclosed := hstands.closed
    rwa [covering, List.drop_nil, List.append_nil] at hclosed

theorem LineStands.opens_read (hpath : Path.fileOf? path = some name)
    (hk : LineStands name (.closed bytes) (s, env)) :
    ∃ k, outcome (FileAct.opens .read path r).perform s env = .done [.text path] k ∧
      LineStands name (.reading r bytes) k := by
  obtain ⟨hwriters, hfile⟩ := hk
  have hrun : (host.openRead path).run env = (.ok ⟨.file name, 0, []⟩, env) := by
    change (env.openRead path, env) = _
    rw [openRead, Path.toRead_ok hpath (by rw [hfile]; rfl)]
    rfl
  have hx := FileAct.outcome_opens_read s env r path
  rw [hrun] at hx
  dsimp only at hx
  rw [releasedAt_ok fun w hw => (hwriters r w hw).2] at hx
  refine ⟨_, hx, ⟨.file name, 0, []⟩, bytes, Table.find?_insert_self _ _ _, rfl, ?_, rfl⟩
  rw [← hfile]
  exact released_find?_of_ne (fun w hw => (hwriters r w hw).1) env

/-- The outcome of reading on is that of reading a line of what is left. -/
theorem LineStands.reads (hk : LineStands name (.reading r bytes) (s, env)) :
    ∃ rd, LineStands name (.reading r (readLine bytes).2)
        ({ s with handles := s.handles.insert r (.reader rd) }, env) ∧
      outcome (FileAct.reads r).perform s env =
        match (readLine bytes).1 with
        | .line text => .done [.text text] ({ s with handles := s.handles.insert r (.reader rd) }, env)
        | .endOfInput =>
          .failed .endOfInput ({ s with handles := s.handles.insert r (.reader rd) }, env)
        | .notText =>
          .failed (.host .notText) ({ s with handles := s.handles.insert r (.reader rd) }, env) := by
  obtain ⟨rd, all, hhandle, hsource, hfile, hrest⟩ := hk
  obtain ⟨rd', hnext, hsource', hrest'⟩ := nextLine_eq hsource hfile hrest
  have hrun : (host.readLine rd).run env = (((readLine bytes).1.toExcept, rd'), env) := by
    change (env.nextLine rd, env) = _
    rw [hnext]
  have hx := FileAct.outcome_reads s env r
  rw [hhandle] at hx
  dsimp only at hx
  rw [hrun] at hx
  refine ⟨rd', ⟨rd', all, Table.find?_insert_self _ _ _, hsource', hfile, hrest'⟩, ?_⟩
  rw [hx]
  cases (readLine bytes).1 <;> rfl

end Steps

/-- Lines can be printed to a path on disk that leads to a file which is not open for writing. -/
def lineFile {path name : String} (hpath : Path.fileOf? path = some name) : LineFile host path where
  stands := LineStands name
  quiet := by
    intro p limits code c c' hc ha hk
    obtain ⟨hhandles, hfiles⟩ :=
      (quiet_handles c.machine.handles c.env.files).continues hc ha ⟨rfl, rfl⟩
    dsimp only at hhandles hfiles
    have hwriters : writer? c'.machine.toState = writer? c.machine.toState := by
      funext r
      rw [writer?, writer?, hhandles]
    cases p <;> simpa only [LineStands, Unwritten, hwriters, hhandles, hfiles] using hk
  steps := by
    intro p p' a vs hs s env hk
    cases hs with
    | opens_write r => exact hk.opens_write hpath
    | prints r bytes v => exact hk.prints v
    | closes r bytes => exact hk.closes
    | opens_read r bytes => exact hk.opens_read hpath
    | reads hread =>
        obtain ⟨rd, hstands, hx⟩ := hk.reads
        rw [hread] at hstands hx
        exact ⟨_, hx, hstands⟩
  ends := by
    intro r s env hk
    obtain ⟨rd, -, hx⟩ := hk.reads
    exact ⟨_, hx⟩

end Disk

/-! ## Reading through to the end -/

/-- How a byte string is read line by line. -/
structure ReadBySegments (bytes : Bytes) : Prop where
  /-- The segments are the byte string, cut after its line feeds and nowhere else. -/
  flatten : (segments bytes).flatten = bytes
  cut : ∀ segment ∈ segments bytes, segment ≠ [] ∧ 10 ∉ segment.dropLast
  feed : ∀ segment ∈ (segments bytes).dropLast, segment.getLast? = some 10
  /-- Every reading takes off one segment, text or not, and answers what it says. -/
  left : ∀ n, Memory.unread n bytes = ((segments bytes).drop n).flatten
  reads : ∀ n segment, (segments bytes)[n]? = some segment →
    ReadsAs segment (readLine (Memory.unread n bytes)).1
  /-- After the last the input is at its end for ever. -/
  ends : ∀ n, (segments bytes).length ≤ n →
    (readLine (Memory.unread n bytes)).1 = .endOfInput

theorem segments_unread (n : Nat) (bytes : Bytes) :
    segments (Memory.unread n bytes) = (segments bytes).drop n := by
  induction n with
  | zero => rfl
  | succ n ih =>
      rw [Memory.unread, ← List.tail_drop, ← ih]
      generalize Memory.unread n bytes = rest
      by_cases hrest : rest = []
      · rw [hrest]
        rfl
      · obtain ⟨segment, hsegments, -⟩ := segments_eq_cons hrest
        rw [hsegments, List.tail_cons]

theorem readBySegments (bytes : Bytes) : ReadBySegments bytes where
  flatten := segments_flatten bytes
  cut := fun _ => mem_segments
  feed := fun _ => getLast?_of_mem_dropLast
  left := by
    intro n
    rw [← segments_unread, segments_flatten]
  reads := by
    intro n segment hsegment
    obtain ⟨hlt, hget⟩ := List.getElem?_eq_some_iff.mp hsegment
    have hcons := segments_unread n bytes
    rw [List.drop_eq_getElem_cons hlt, hget] at hcons
    have hleft : Memory.unread n bytes ≠ [] := by
      intro hnil
      rw [segments_eq_nil_iff.mpr hnil] at hcons
      cases hcons
    obtain ⟨first, hfirst, hread⟩ := segments_eq_cons hleft
    rw [hfirst, List.cons.injEq] at hcons
    rwa [hcons.1] at hread
  ends := by
    intro n hn
    have hnil : segments (Memory.unread n bytes) = [] := by
      rw [segments_unread, List.drop_eq_nil_iff]
      exact hn
    rw [segments_eq_nil_iff.mp hnil]
    rfl

end DiceScript
