import DiceScript.Proofs.Files.Disk
import DiceScript.Proofs.Files.Sessions

/-!
# Files that are opened again while they are open

When all writers of a file are opened under one reference, the file holds in the end the lines that
were printed since it was last emptied. There is one exception. An opening that finds the reference
still writing to the same file empties the file before the old writer is closed, so what that writer
held back comes into the emptied file, and stays there as far as the lines after it do not cover it.
-/

namespace DiceScript

open Machine

/-- The act opens the file for writing. -/
def FileAct.empties (name : String) : FileAct → Bool
  | opens .write path _ => Path.fileOf? path = some name
  | _ => false

/-- The acts before the last that opens the file for writing. -/
def beforeOpening (name : String) (acts : List FileAct) : List FileAct :=
  (acts.rdropWhile fun a => !a.empties name).dropLast

/-- The bytes of the lines printed to the file since it was last opened for writing. -/
def printedTo (name : String) (acts : List FileAct) : Bytes :=
  Utf8.encode (linesText (linesSince name (diskEffects acts)))

/-- The file is opened for writing under no other reference. -/
def OnlyUnder (ref : Reference) (name : String) (acts : List FileAct) : Prop :=
  ∀ path r, .opens .write path r ∈ acts → Path.fileOf? path = some name → r = ref

section Acts

variable {name : String} {ref r : Reference} {acts : List FileAct} {a : FileAct}

theorem beforeOpening_append_of_empties (ha : a.empties name = true) :
    beforeOpening name (acts ++ [a]) = acts := by
  unfold beforeOpening
  rw [List.rdropWhile_concat_neg _ _ _ (by simp [ha]), List.dropLast_concat]

theorem beforeOpening_append_of_not_empties (ha : a.empties name = false) :
    beforeOpening name (acts ++ [a]) = beforeOpening name acts := by
  unfold beforeOpening
  rw [List.rdropWhile_concat_pos _ _ _ (by simp [ha])]

theorem OnlyUnder.of_append {acts' : List FileAct} (h : OnlyUnder ref name (acts ++ acts')) :
    OnlyUnder ref name acts :=
  fun path r hmem => h path r (List.mem_append_left _ hmem)

/-- A reference that writes to the file in the end is that one. -/
theorem OnlyUnder.eq_of_writesTo? (h : OnlyUnder ref name acts)
    (hwrites : Disk.writesTo? r acts = some (.file name)) : r = ref := by
  obtain ⟨path, hopened, hpath⟩ := Disk.exists_of_writesTo? hwrites
  obtain ⟨before, after, rfl, -⟩ := exists_of_openedAs? hopened
  exact h path r (by simp) (Path.fileOf?_eq_some.mpr hpath)

/-- The act changes nothing in the file, after the others. -/
def Spares (name : String) (acts : List FileAct) (a : FileAct) : Prop :=
  a.empties name = false ∧ ∀ e ∈ a.diskEffect? acts, e.empties name = false ∧ e.line? name = none

theorem Spares.printedTo_append (h : Spares name acts a) :
    printedTo name (acts ++ [a]) = printedTo name acts := by
  unfold printedTo
  rw [diskEffects_append]
  cases heffect : a.diskEffect? acts with
  | none => rw [Option.toList_none, List.append_nil]
  | some e =>
      obtain ⟨hempties, hline⟩ := h.2 e heffect
      rw [Option.toList_some, linesSince_append hempties, hline, Option.toList_none,
        List.append_nil]

theorem Spares.emptied_mem_iff (h : Spares name acts a) :
    .emptied name ∈ diskEffects (acts ++ [a]) ↔ .emptied name ∈ diskEffects acts := by
  rw [diskEffects_append, List.mem_append, or_iff_left]
  intro hmem
  have hempties := (h.2 _ (Option.mem_toList.mp hmem)).1
  simp [FileEffect.empties] at hempties

theorem spares_of_no_effect (hempties : a.empties name = false) (h : a.effect? acts = none) :
    Spares name acts a := by
  refine ⟨hempties, ?_⟩
  unfold FileAct.diskEffect?
  rw [h]
  rintro e ⟨⟩

theorem spares_opens {path : String} (h : Path.fileOf? path ≠ some name) (r : Reference) :
    Spares name acts (.opens .write path r) := by
  refine ⟨by simpa [FileAct.empties] using h, ?_⟩
  intro e he
  obtain ⟨name', hname', rfl⟩ := Option.map_eq_some_iff.mp he
  refine ⟨?_, rfl⟩
  rw [hname'] at h
  simpa [FileEffect.empties] using h

theorem spares_prints {entry : Path.Entry} (hwrites : Disk.writesTo? r acts = some entry)
    (h : entry ≠ .file name) (v : Value) : Spares name acts (.prints r v) := by
  refine ⟨rfl, ?_⟩
  rw [diskEffect?_prints hwrites]
  intro e he
  cases entry with
  | file name' =>
      cases he
      exact ⟨rfl, by simpa [FileEffect.line?] using h⟩
  | directory p => cases he
  | nullDevice => cases he
  | fullDevice => cases he

end Acts

namespace Disk

variable {name : String} {ref r : Reference} {acts : List FileAct} {a : FileAct}

/-- What the last opening found of an earlier writer of the file, which came into it late. -/
def Behind (name : String) (ref : Reference) (acts : List FileAct) (late : Bytes) : Prop :=
  if writesTo? ref (beforeOpening name acts) = some (.file name) then
    ∃ k, HeldBack k (printedTo name (beforeOpening name acts)) ∧
      late = lateBytes k (printedTo name (beforeOpening name acts))
  else late = []

theorem Behind.append {late : Bytes} (h : Behind name ref acts late)
    (ha : a.empties name = false) : Behind name ref (acts ++ [a]) late := by
  unfold Behind
  rwa [beforeOpening_append_of_not_empties ha]

/-- How the file stands after the acts, with this writer under the reference. -/
inductive FileFollows (files : Table String Bytes) (name : String) (ref : Reference)
    (acts : List FileAct) (w? : Option Writer) (file : Option Bytes) : Prop
  | untouched : .emptied name ∉ diskEffects acts → file = files.find? name →
      FileFollows files name ref acts w? file
  | stands (late : Bytes) : .emptied name ∈ diskEffects acts → Behind name ref acts late →
      Stands name (printedTo name acts) late w? file → FileFollows files name ref acts w? file

section Steps

variable {files : Table String Bytes} {w? : Option Writer} {file : Option Bytes}

/-- An act that spares the file leaves it as it stands, with the same writer. -/
theorem FileFollows.keep (hf : FileFollows files name ref acts w? file)
    (ha : Spares name acts a) : FileFollows files name ref (acts ++ [a]) w? file := by
  cases hf with
  | untouched hnone hfile => exact .untouched (fun h => hnone (ha.emptied_mem_iff.mp h)) hfile
  | stands late hsome hbehind hstands =>
      refine .stands late (ha.emptied_mem_iff.mpr hsome) (hbehind.append ha.1) ?_
      rwa [ha.printedTo_append]

theorem Stands.released {front late : Bytes} {env : Disk}
    (h : Stands name front late w? (env.files.find? name)) :
    (released w? env).files.find? name = some (covering front late) := by
  cases w? with
  | some w => exact h.closed
  | none =>
      cases h with
      | written _ hfile => exact hfile
      | held w out hw => cases hw

theorem target_ne {acts : List FileAct} (hw : w?.map Writer.target = writesTo? r acts)
    (h : writesTo? r acts ≠ some (.file name)) : ∀ w ∈ w?, w.target ≠ .file name := by
  rintro w rfl htarget
  exact h (by rw [← hw, Option.map_some, htarget])

/-- The reference lets go of its writer, in an act that spares the file, and has no other writer of
the file afterwards. -/
theorem FileFollows.lets_go {env : Disk} {w?' : Option Writer}
    (hf : FileFollows files name ref acts w? (env.files.find? name))
    (hw : w?.map Writer.target = writesTo? ref acts) (ha : Spares name acts a)
    (hw' : ∀ w ∈ w?', w.target ≠ .file name) :
    FileFollows files name ref (acts ++ [a]) w?' ((released w? env).files.find? name) := by
  cases hf with
  | untouched hnone hfile =>
      refine .untouched (fun h => hnone (ha.emptied_mem_iff.mp h)) ?_
      rw [released_find?_of_ne (target_ne hw fun h => hnone (emptied_mem_diskEffects h))]
      exact hfile
  | stands late hsome hbehind hstands =>
      refine .stands late (ha.emptied_mem_iff.mpr hsome) (hbehind.append ha.1) ?_
      rw [ha.printedTo_append]
      exact .written hw' hstands.released

/-- A reference that does not write to the file gets another writer that does not. -/
theorem FileFollows.other {w?' : Option Writer} (hf : FileFollows files name ref acts w? file)
    (hw : ∀ w ∈ w?, w.target ≠ .file name) (hw' : ∀ w ∈ w?', w.target ≠ .file name) :
    FileFollows files name ref acts w?' file := by
  cases hf with
  | untouched hnone hfile => exact .untouched hnone hfile
  | stands late hsome hbehind hstands =>
      refine .stands late hsome hbehind ?_
      cases hstands with
      | written _ hfile => exact .written hw' hfile
      | held w out hsome' htarget => exact absurd htarget (hw w hsome')

/-- Whichever reference lets go of its writer, in an act that spares the file, the file follows. -/
theorem FileFollows.rebinds {writers : Reference → Option Writer} {env : Disk}
    (hf : FileFollows files name ref acts (writers ref) (env.files.find? name))
    (hw : (writers ref).map Writer.target = writesTo? ref acts)
    (hothers : r ≠ ref → ∀ w ∈ writers r, w.target ≠ .file name) (ha : Spares name acts a)
    (hw? : ∀ w ∈ w?, w.target ≠ .file name) :
    FileFollows files name ref (acts ++ [a]) (Function.update writers r w? ref)
      ((released (writers r) env).files.find? name) := by
  rw [Function.update_apply]
  by_cases hr : ref = r
  · subst hr
    rw [if_pos rfl]
    exact hf.lets_go hw ha hw?
  · rw [if_neg hr, released_find?_of_ne (hothers (Ne.symm hr))]
    exact hf.keep ha

variable (acts ref) in
theorem emptied_mem_append {path : String} (hpath : Path.fileOf? path = some name) :
    .emptied name ∈ diskEffects (acts ++ [.opens .write path ref]) ∧
      printedTo name (acts ++ [.opens .write path ref]) = [] := by
  have heffect : (FileAct.opens .write path ref).diskEffect? acts = some (.emptied name) := by
    change (Path.fileOf? path).map FileEffect.emptied = _
    rw [hpath]
    rfl
  unfold printedTo
  rw [diskEffects_append, heffect, Option.toList_some, linesSince_append_emptied]
  exact ⟨by simp, rfl⟩

/-- The file is opened anew and emptied, and only then the reference lets go of its writer. -/
theorem FileFollows.opens {path : String} {env : Disk}
    (hf : FileFollows files name ref acts w? file)
    (hw : w?.map Writer.target = writesTo? ref acts) (hpath : Path.fileOf? path = some name)
    (hemptied : env.files.find? name = some []) :
    FileFollows files name ref (acts ++ [.opens .write path ref])
      (some ⟨.file name, 0, .empty⟩) ((released w? env).files.find? name) := by
  have hempties : (FileAct.opens .write path ref).empties name = true := by
    simp [FileAct.empties, hpath]
  obtain ⟨hmem, hprinted⟩ := emptied_mem_append ref acts hpath
  by_cases hstill : writesTo? ref acts = some (.file name)
  · obtain ⟨w, rfl, htarget⟩ := Option.map_eq_some_iff.mp (hw.trans hstill)
    cases hf with
    | untouched hnone _ => exact absurd (emptied_mem_diskEffects hstill) hnone
    | stands late _ _ hstands =>
        obtain ⟨k, hk, hclosed⟩ := hstands.left_behind htarget hemptied
        have hfile : (released (some w) env).files.find? name =
            some (lateBytes k (printedTo name acts)) := hclosed
        refine .stands (lateBytes k (printedTo name acts)) hmem ?_ ?_
        · unfold Behind
          rw [beforeOpening_append_of_empties hempties, if_pos hstill]
          exact ⟨k, hk, rfl⟩
        · rw [hprinted, hfile]
          exact Stands.opened name _
  · refine .stands [] hmem ?_ ?_
    · unfold Behind
      rw [beforeOpening_append_of_empties hempties, if_neg hstill]
    · rw [hprinted, released_find?_of_ne (target_ne hw hstill), hemptied]
      exact Stands.opened name []

/-- A line is printed to the file. -/
theorem FileFollows.prints {env : Disk} {w : Writer}
    (hf : FileFollows files name ref acts (some w) (env.files.find? name))
    (hwrites : writesTo? ref acts = some (.file name)) (htarget : w.target = .file name)
    (v : Value) :
    FileFollows files name ref (acts ++ [.prints ref v])
      (some (env.write w (v.pieces ++ ["\n"])).1.2)
      ((env.write w (v.pieces ++ ["\n"])).2.files.find? name) := by
  have hline : (FileEffect.added name v.display).line? name = some v.display := if_pos rfl
  have hprinted : printedTo name (acts ++ [.prints ref v]) =
      printedTo name acts ++ ((v.pieces ++ ["\n"]).map Utf8.encode).flatten := by
    unfold printedTo
    rw [diskEffects_append, diskEffect?_prints hwrites, Option.toList_some, linesSince_append rfl,
      hline, Option.toList_some, encode_linesText_append, ← encode_join,
      Value.join_pieces_concat]
  cases hf with
  | untouched hnone _ => exact absurd (emptied_mem_diskEffects hwrites) hnone
  | stands late hsome hbehind hstands =>
      refine .stands late ?_ (hbehind.append rfl) ?_
      · rw [diskEffects_append]
        exact List.mem_append_left _ hsome
      · rw [hprinted]
        exact hstands.write htarget _

/-- A line is printed elsewhere. -/
theorem FileFollows.prints_elsewhere {writers : Reference → Option Writer} {w w' : Writer}
    (hf : FileFollows files name ref acts (writers ref) file) (hw : writers r = some w)
    (hwrites : writesTo? r acts = some w.target) (htarget : w.target ≠ .file name)
    (hw' : w'.target = w.target) (v : Value) :
    FileFollows files name ref (acts ++ [.prints r v]) (Function.update writers r (some w') ref)
      file := by
  have hkeep := hf.keep (spares_prints hwrites htarget v)
  rw [Function.update_apply]
  by_cases hr : ref = r
  · subst hr
    rw [if_pos rfl]
    rw [hw] at hkeep
    refine hkeep.other ?_ ?_
    · rintro _ ⟨⟩
      exact htarget
    · rintro _ ⟨⟩
      rwa [hw']
  · rw [if_neg hr]
    exact hkeep

section Changes

variable {s s' : State host} {env env' : Disk}

theorem FileFollows.after_opening {path : String}
    (hf : FileFollows files name ref acts (writer? s ref) (env.files.find? name))
    (hfollow : ∀ r, (writer? s r).map Writer.target = writesTo? r acts)
    (hchanges : Changes (.opens .write path r) s env s' env')
    (honly : OnlyUnder ref name (acts ++ [.opens .write path r])) :
    FileFollows files name ref (acts ++ [.opens .write path r]) (writer? s' ref)
      (env'.files.find? name) := by
  obtain ⟨w, emptied, hopen, hwriters, rfl⟩ := hchanges
  obtain ⟨entry, hpath, rfl, hfiles⟩ := openWrite_ok hopen
  rw [hwriters]
  by_cases hentry : entry = .file name
  · subst hentry
    have hname := Path.fileOf?_eq_some.mpr hpath
    obtain rfl : r = ref := honly path r (by simp) hname
    rw [Function.update_self]
    exact hf.opens (hfollow r) hname (by rw [hfiles, if_pos rfl])
  · have hsame : emptied.files.find? name = env.files.find? name := by
      rw [hfiles, if_neg hentry]
    have hothers : r ≠ ref → ∀ w ∈ writer? s r, w.target ≠ .file name := fun hr =>
      target_ne (hfollow r) fun hwrites => hr (honly.of_append.eq_of_writesTo? hwrites)
    rw [← hsame] at hf
    refine hf.rebinds (hfollow ref) hothers (spares_opens ?_ r) ?_
    · intro hname
      rw [Path.fileOf?_eq_some, hpath] at hname
      exact hentry (by cases hname; rfl)
    · rintro w ⟨⟩
      exact hentry

theorem FileFollows.after_print {v : Value}
    (hf : FileFollows files name ref acts (writer? s ref) (env.files.find? name))
    (hfollow : ∀ r, (writer? s r).map Writer.target = writesTo? r acts)
    (hchanges : Changes (.prints r v) s env s' env')
    (honly : OnlyUnder ref name (acts ++ [.prints r v])) :
    FileFollows files name ref (acts ++ [.prints r v]) (writer? s' ref)
      (env'.files.find? name) := by
  obtain ⟨w, hw, hwriters, rfl⟩ := hchanges
  have hwrites : writesTo? r acts = some w.target := by
    rw [← hfollow r, hw]
    rfl
  rw [hwriters]
  by_cases htarget : w.target = .file name
  · rw [htarget] at hwrites
    obtain rfl : r = ref := honly.of_append.eq_of_writesTo? hwrites
    rw [hw] at hf
    rw [Function.update_self]
    exact hf.prints hwrites htarget v
  · rw [write_find?_of_ne htarget]
    exact hf.prints_elsewhere hw hwrites htarget (write_target _ _ _) v

/-- The file after one more act. -/
theorem FileFollows.after
    (hf : FileFollows files name ref acts (writer? s ref) (env.files.find? name))
    (hfollow : ∀ r, (writer? s r).map Writer.target = writesTo? r acts)
    (hchanges : Changes a s env s' env') (honly : OnlyUnder ref name (acts ++ [a])) :
    FileFollows files name ref (acts ++ [a]) (writer? s' ref) (env'.files.find? name) := by
  have hothers : ∀ r ≠ ref, ∀ w ∈ writer? s r, w.target ≠ .file name := by
    intro r hr
    exact target_ne (hfollow r) fun hwrites => hr (honly.of_append.eq_of_writesTo? hwrites)
  cases a with
  | opens access path r =>
      cases access with
      | read =>
          rw [hchanges.1, hchanges.2]
          refine hf.rebinds (hfollow ref) (hothers r) (spares_of_no_effect rfl rfl) ?_
          rintro w ⟨⟩
      | write => exact hf.after_opening hfollow hchanges honly
  | prints r v => exact hf.after_print hfollow hchanges honly
  | reads r =>
      rw [hchanges.1, hchanges.2]
      exact hf.keep (spares_of_no_effect rfl rfl)
  | closes r =>
      rw [hchanges.1, hchanges.2]
      refine hf.rebinds (hfollow ref) (hothers r) (spares_of_no_effect rfl rfl) ?_
      rintro w ⟨⟩

end Changes

end Steps

/-! ## Runs -/

variable {limits : Limits} {code : Array Instruction} {c₀ c c' : Config host}
  {files : Table String Bytes}

/-- The file after one more turn. -/
theorem FileFollows.next
    (hf : FileFollows files name ref acts (writer? c.machine.toState ref) (c.env.files.find? name))
    (hstart : c₀.machine.handles = .empty) (h : History limits code c₀ acts c)
    (hc : c.Continues limits code c')
    (honly : OnlyUnder ref name (acts ++ (c.fileAct? code).toList)) :
    FileFollows files name ref (acts ++ (c.fileAct? code).toList) (writer? c'.machine.toState ref)
      (c'.env.files.find? name) := by
  cases ha : c.fileAct? code with
  | none =>
      have hquiet := (quiet (writer? c.machine.toState) c.env.files).continues hc ha ⟨rfl, rfl⟩
      rw [hquiet.1, hquiet.2, Option.toList_none, List.append_nil]
      exact hf
  | some a =>
      obtain ⟨vs, rest, hx, -⟩ := hc.of_fileAct ha
      rw [ha, Option.toList_some] at honly
      rw [Option.toList_some]
      exact hf.after (writers_follow hstart h) (changes_of_done hx) honly

/-- From a machine without open files on, the file follows the history. -/
theorem file_follows (hstart : c₀.machine.handles = .empty) (h : History limits code c₀ acts c)
    (honly : OnlyUnder ref name acts) :
    FileFollows c₀.env.files name ref acts (writer? c.machine.toState ref)
      (c.env.files.find? name) := by
  induction h with
  | start => exact .untouched (by simp [diskEffects, effects, effectsFrom]) rfl
  | next h hc ih => exact (ih honly.of_append).next hstart h hc honly

/-- The file and the writers after the turn that ends a run. -/
theorem FileFollows.ended {result : Except RuntimeError Unit} {m : Machine host} {env : Disk}
    (hf : FileFollows files name ref acts (writer? c.machine.toState ref) (c.env.files.find? name))
    (hfollow : ∀ r, (writer? c.machine.toState r).map Writer.target = writesTo? r acts)
    (hturn : c.turn limits code = ((.ended result, m), env))
    (honly : OnlyUnder ref name (acts ++ (c.lastAct? code).toList)) :
    FileFollows files name ref (acts ++ (c.lastAct? code).toList) (writer? m.toState ref)
        (env.files.find? name) ∧
      ∀ r, (writer? m.toState r).map Writer.target =
        writesTo? r (acts ++ (c.lastAct? code).toList) := by
  have hlast := changes_of_ended hturn
  cases ha : c.lastAct? code with
  | none =>
      rw [ha] at hlast
      rw [Option.toList_none, List.append_nil, hlast.1, hlast.2]
      exact ⟨hf, hfollow⟩
  | some a =>
      rw [ha] at hlast honly
      exact ⟨hf.after hfollow hlast honly, hlast.writers_follow hfollow⟩

end Disk

end DiceScript
