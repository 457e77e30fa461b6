import DiceScript.Proofs.Files.Acts
import DiceScript.Proofs.Machine.Output

/-!
# What a history says about handles and files

After some acts a reference stands for its latest opening, unless it was closed since. What is
printed to the reference goes to the path of that opening, so the acts of a run amount to files
emptied and lines added to them. A file holds the lines added since it was last emptied.
-/

namespace DiceScript

namespace FileAct

/-- The act opens or closes the reference. -/
def binds (r : Reference) : FileAct → Bool
  | opens _ _ r' => r' = r
  | closes r' => r' = r
  | prints _ _ => false
  | reads _ => false

def isRead (r : Reference) : FileAct → Bool
  | reads r' => r' = r
  | _ => false

end FileAct

/-- The latest opening of a reference that is not closed since: for what, and of which path. -/
def openedAs? (r : Reference) (acts : List FileAct) : Option (Access × String) :=
  match acts.reverse.find? (FileAct.binds r) with
  | some (.opens access path _) => some (access, path)
  | _ => none

section Openings

variable {r : Reference} {acts : List FileAct} {a : FileAct}

theorem openedAs?_append_of_not_binds (ha : a.binds r = false) :
    openedAs? r (acts ++ [a]) = openedAs? r acts := by
  unfold openedAs?
  rw [List.reverse_append, List.reverse_singleton, List.singleton_append, List.find?_cons, ha]

theorem openedAs?_append_of_binds (ha : a.binds r = true) :
    openedAs? r (acts ++ [a]) =
      match a with
      | .opens access path _ => some (access, path)
      | _ => none := by
  unfold openedAs?
  rw [List.reverse_append, List.reverse_singleton, List.singleton_append, List.find?_cons, ha]
  cases a <;> rfl

theorem openedAs?_append_opens (access : Access) (path : String) (r' : Reference) :
    openedAs? r (acts ++ [.opens access path r']) =
      if r' = r then some (access, path) else openedAs? r acts := by
  by_cases hr : r' = r
  · rw [if_pos hr]
    exact openedAs?_append_of_binds (by simp [FileAct.binds, hr])
  · rw [if_neg hr]
    exact openedAs?_append_of_not_binds (by simp [FileAct.binds, hr])

theorem openedAs?_append_closes (r' : Reference) :
    openedAs? r (acts ++ [.closes r']) = if r' = r then none else openedAs? r acts := by
  by_cases hr : r' = r
  · rw [if_pos hr]
    exact openedAs?_append_of_binds (by simp [FileAct.binds, hr])
  · rw [if_neg hr]
    exact openedAs?_append_of_not_binds (by simp [FileAct.binds, hr])

end Openings

/-- The reference is open when one of the acts opened it and no later one opens or closes it. -/
theorem exists_of_openedAs? {r : Reference} {acts : List FileAct} {access : Access}
    {path : String} (h : openedAs? r acts = some (access, path)) :
    ∃ before after, acts = before ++ .opens access path r :: after ∧
      ∀ a ∈ after, a.binds r = false := by
  induction acts using List.reverseRecOn with
  | nil => cases h
  | append_singleton acts a ih =>
      by_cases ha : a.binds r = true
      · cases a with
        | opens access' path' r' =>
            obtain rfl : r' = r := by simpa [FileAct.binds] using ha
            rw [openedAs?_append_opens, if_pos rfl] at h
            cases h
            exact ⟨acts, [], rfl, by simp⟩
        | closes r' =>
            obtain rfl : r' = r := by simpa [FileAct.binds] using ha
            rw [openedAs?_append_closes, if_pos rfl] at h
            cases h
        | prints r' v => cases ha
        | reads r' => cases ha
      · have ha : a.binds r = false := Bool.eq_false_iff.mpr ha
        rw [openedAs?_append_of_not_binds ha] at h
        obtain ⟨before, after, rfl, hafter⟩ := ih h
        refine ⟨before, after ++ [a], by simp, ?_⟩
        intro b hb
        rcases List.mem_append.mp hb with hb | hb
        · exact hafter b hb
        · rw [List.mem_singleton.mp hb]
          exact ha

/-! ## Files -/

inductive FileEffect where
  | emptied (path : String)
  | added (path line : String)
deriving DecidableEq

namespace FileEffect

def empties (path : String) : FileEffect → Bool
  | emptied p => p = path
  | added _ _ => false

def line? (path : String) : FileEffect → Option String
  | emptied _ => none
  | added p line => if p = path then some line else none

end FileEffect

/-- What an act changes in the files when it comes after others of the same run. -/
def FileAct.effect? (earlier : List FileAct) : FileAct → Option FileEffect
  | opens .write path _ => some (.emptied path)
  | opens .read _ _ => none
  | prints r v =>
    match openedAs? r earlier with
    | some (.write, path) => some (.added path v.display)
    | _ => none
  | reads _ => none
  | closes _ => none

def effectsFrom (earlier : List FileAct) : List FileAct → List FileEffect
  | [] => []
  | a :: acts => (a.effect? earlier).toList ++ effectsFrom (earlier ++ [a]) acts

/-- What the acts of a run, in order, change in the files. -/
def effects (acts : List FileAct) : List FileEffect :=
  effectsFrom [] acts

theorem effectsFrom_append (earlier acts : List FileAct) (a : FileAct) :
    effectsFrom earlier (acts ++ [a]) =
      effectsFrom earlier acts ++ (a.effect? (earlier ++ acts)).toList := by
  induction acts generalizing earlier with
  | nil => simp [effectsFrom]
  | cons b acts ih => simp [effectsFrom, ih]

theorem effects_append (acts : List FileAct) (a : FileAct) :
    effects (acts ++ [a]) = effects acts ++ (a.effect? acts).toList := by
  rw [effects, effectsFrom_append, List.nil_append, effects]

theorem emptied_mem_effects {r : Reference} {acts : List FileAct} {path : String}
    (h : openedAs? r acts = some (.write, path)) : .emptied path ∈ effects acts := by
  obtain ⟨before, after, rfl, -⟩ := exists_of_openedAs? h
  clear h
  induction after using List.reverseRecOn with
  | nil =>
      rw [effects_append]
      exact List.mem_append_right _ (by simp [FileAct.effect?])
  | append_singleton after a ih =>
      rw [← List.cons_append, ← List.append_assoc, effects_append]
      exact List.mem_append_left _ ih

/-- The lines added to a file since it was last emptied. -/
def linesSince (path : String) (es : List FileEffect) : List String :=
  (es.rtakeWhile fun e => !e.empties path).filterMap (FileEffect.line? path)

section LinesSince

variable {path : String} {es : List FileEffect}

theorem linesSince_append_emptied (es : List FileEffect) (path : String) :
    linesSince path (es ++ [.emptied path]) = [] := by
  unfold linesSince
  rw [List.rtakeWhile_concat_neg _ _ _ (by simp [FileEffect.empties])]
  rfl

theorem linesSince_append {e : FileEffect} (he : e.empties path = false) :
    linesSince path (es ++ [e]) = linesSince path es ++ (e.line? path).toList := by
  unfold linesSince
  rw [List.rtakeWhile_concat_pos _ _ _ (by simp [he]), List.filterMap_append]
  cases hline : e.line? path <;> simp [hline]

end LinesSince

/-- What a path holds after some effects: the lines added since it was last emptied, or what it held
before all of them. -/
def contents (files : Table String Bytes) (es : List FileEffect) (path : String) : Option Bytes :=
  if .emptied path ∈ es then some (Utf8.encode (linesText (linesSince path es)))
  else files.find? path

section Contents

variable {files : Table String Bytes} {es : List FileEffect} {path line : String}

theorem contents_append_emptied (path' : String) :
    contents files (es ++ [.emptied path]) path' =
      if path = path' then some [] else contents files es path' := by
  by_cases hpath : path = path'
  · subst hpath
    rw [if_pos rfl, contents, if_pos (by simp), linesSince_append_emptied]
    rfl
  · have hne : FileEffect.emptied path' ≠ .emptied path := fun h => hpath (by cases h; rfl)
    have hlines : linesSince path' (es ++ [.emptied path]) = linesSince path' es := by
      rw [linesSince_append (by simp [FileEffect.empties, hpath])]
      exact List.append_nil _
    rw [if_neg hpath, contents, contents, hlines]
    simp [hne]

theorem encode_append (a b : String) :
    Utf8.encode (a ++ b) = Utf8.encode a ++ Utf8.encode b := by
  simp [Utf8.encode]

theorem encode_join (texts : List String) :
    Utf8.encode (String.join texts) = (texts.map Utf8.encode).flatten := by
  induction texts with
  | nil => rfl
  | cons text texts ih => rw [String.join_cons, encode_append, ih, List.map_cons, List.flatten_cons]

theorem encode_linesText_append (lines : List String) (line : String) :
    Utf8.encode (linesText (lines ++ [line])) =
      Utf8.encode (linesText lines) ++ Utf8.encode (line ++ "\n") := by
  simp [linesText, encode_append]

/-- A line comes behind what the file holds. -/
theorem contents_append_added (hpath : .emptied path ∈ es) (path' : String) :
    contents files (es ++ [.added path line]) path' =
      if path = path' then
        some ((contents files es path).getD [] ++ Utf8.encode (line ++ "\n"))
      else contents files es path' := by
  have hlines : linesSince path' (es ++ [.added path line]) =
      linesSince path' es ++ (FileEffect.line? path' (.added path line)).toList :=
    linesSince_append rfl
  by_cases h : path = path'
  · subst h
    rw [if_pos rfl, contents, contents, if_pos (List.mem_append_left _ hpath), if_pos hpath, hlines]
    simp [FileEffect.line?, encode_linesText_append]
  · rw [if_neg h, contents, contents, hlines]
    simp [FileEffect.line?, h]

end Contents

end DiceScript
