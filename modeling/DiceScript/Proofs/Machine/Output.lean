import Mathlib.Data.List.DropRight
import DiceScript.Host.Memory
import DiceScript.Proofs.Machine.Closing
import DiceScript.Proofs.Machine.Preservation
import DiceScript.Proofs.Machine.Session

/-!
# No output is lost or reported twice

A host can note what its console accepts and which files are opened for writing. Whatever the program,
and whatever the host refuses, the records of the machine follow these notes step by step. Over a
session every successful run thus hands over exactly what was noted since the successful run before it,
while failed runs keep it.
-/

namespace DiceScript

/-- What a program does in the open. -/
inductive Event where
  /-- A text went to the console, which accepted it. -/
  | shown (text : String)
  /-- A file was opened for writing. -/
  | opened (path : String)
deriving DecidableEq, Repr

namespace Event

@[simp] def text? : Event → Option String
  | shown text => some text
  | opened _ => none

@[simp] def path? : Event → Option String
  | shown _ => none
  | opened path => some path

/-- A text counts as shown when the console accepted it. -/
def ofPrint (text : String) : Except HostError Unit → List Event
  | .ok _ => [shown text]
  | .error _ => []

/-- An attempt to open a file for writing counts when the host granted it. -/
def ofOpen {α : Type} (path : String) : Except HostError α → List Event
  | .ok _ => [opened path]
  | .error _ => []

end Event

/-- What the console accepted. -/
def consoleText (events : List Event) : String :=
  String.join (events.filterMap Event.text?)

def openedPaths (events : List Event) : List String :=
  events.filterMap Event.path?

/-- Lines as they stand on a console. -/
def linesText (lines : List String) : String :=
  String.join (lines.map (· ++ "\n"))

namespace Host

variable {σ α : Type}

/-- Do `x` and note the events that its result stands for. -/
def noting (x : StateM σ α) (events : α → List Event) : StateM (σ × List Event) α :=
  fun (env, noted) =>
    let (a, env) := x.run env
    (a, (env, noted ++ events a))

/-- The host that does what `h` does, and notes all that the console accepts and all files that are
opened for writing. -/
def recorded (h : Host (StateM σ)) : Host (StateM (σ × List Event)) where
  Reader := h.Reader
  Writer := h.Writer
  prompt := noting h.prompt fun _ => []
  print := fun text => noting (h.print text) (Event.ofPrint text)
  openRead := fun path => noting (h.openRead path) fun _ => []
  openWrite := fun path => noting (h.openWrite path) (Event.ofOpen path)
  readLine := fun r => noting (h.readLine r) fun _ => []
  write := fun w texts => noting (h.write w texts) fun _ => []
  close := fun w => noting (h.close w) fun _ => []
  drop := fun w => noting (h.drop w) fun _ => []
  choose := fun n => noting (h.choose n) fun _ => []
  clock := noting h.clock fun _ => []

end Host

variable {σ α : Type} {h : Host (StateM σ)} {limits : Limits}

/-- The texts that the lines printed so far put on the console. -/
def State.shown {m : Type → Type} {h : Host m} (s : State h) : List String :=
  s.printed.toList.map (· ++ "\n")

/-! ## The records follow the notes -/

/-- From `k₀` to `k` the records of the state grew by what the host noted. -/
def Tallies (k₀ k : State h.recorded × (σ × List Event)) : Prop :=
  ∃ events, k.2.2 = k₀.2.2 ++ events ∧
    k.1.shown = k₀.1.shown ++ events.filterMap Event.text? ∧
    k.1.filesWritten.toList = k₀.1.filesWritten.toList ++ openedPaths events

namespace Tallies

variable {k₀ : State h.recorded × (σ × List Event)}

theorem refl (k₀ : State h.recorded × (σ × List Event)) : Tallies k₀ k₀ :=
  ⟨[], by simp, by simp, by simp [openedPaths]⟩

theorem trans {k₁ k₂ : State h.recorded × (σ × List Event)} (h₁ : Tallies k₀ k₁)
    (h₂ : Tallies k₁ k₂) : Tallies k₀ k₂ := by
  obtain ⟨events, hnoted, hshown, hopened⟩ := h₁
  obtain ⟨events', hnoted', hshown', hopened'⟩ := h₂
  refine ⟨events ++ events', ?_, ?_, ?_⟩
  · rw [hnoted', hnoted, List.append_assoc]
  · rw [hshown', hshown, List.filterMap_append, List.append_assoc]
  · rw [hopened', hopened, openedPaths, openedPaths, openedPaths, List.filterMap_append,
      List.append_assoc]

/-- An action of the host that no one notes. -/
theorem quiet (x : StateM σ α) :
    Keeps (Tallies k₀) (Action.ask (Host.noting x fun _ => [])) := by
  intro s env hs
  obtain ⟨events, hnoted, hshown, hopened⟩ := hs
  refine ⟨events, ?_, hshown, hopened⟩
  rw [← hnoted]
  exact List.append_nil _

theorem setHandle (r : Reference) (handle : Handle h.recorded) :
    Keeps (Tallies k₀) (Action.setHandle r handle) := by
  apply Keeps.modifyGet
  intro s env hs
  exact hs

theorem release (handle : Handle h.recorded) : Keeps (Tallies k₀) (Action.release handle) := by
  cases handle with
  | reader r => exact .pure _
  | writer w => exact .bind (quiet _) Action.keeps_answer

/-- A line is recorded when the console accepted it, and only then. -/
theorem print (v : Value) : Keeps (Tallies k₀) (Action.print v) := by
  intro s env hs
  let text := v.display ++ "\n"
  have hrun : (h.recorded.print text).run env =
      (((h.print text).run env.1).1, ((h.print text).run env.1).2,
        env.2 ++ Event.ofPrint text ((h.print text).run env.1).1) := rfl
  unfold Action.print
  rw [outcome_bind, Action.outcome_ask, hrun]
  rcases (h.print text).run env.1 with ⟨e | ⟨⟩, env'⟩
  · exact hs.trans ⟨[], rfl, (List.append_nil _).symm, (List.append_nil _).symm⟩
  · refine hs.trans ⟨[.shown text], rfl, ?_, (List.append_nil _).symm⟩
    simp [Outcome.last, Action.answer, State.shown, text]

/-- A path is recorded when the host opened it, and only then. -/
theorem opened (access : Access) (path : String) :
    Keeps (Tallies k₀) (Action.opened access path) := by
  cases access with
  | read => exact .bind (quiet _) fun _ => .bind (Action.keeps_answer _) fun _ => .pure _
  | write =>
      intro s env hs
      have hrun : (h.recorded.openWrite path).run env =
          (((h.openWrite path).run env.1).1, ((h.openWrite path).run env.1).2,
            env.2 ++ Event.ofOpen path ((h.openWrite path).run env.1).1) := rfl
      unfold Action.opened
      dsimp only
      rw [outcome_bind, Action.outcome_ask, hrun]
      rcases (h.openWrite path).run env.1 with ⟨e | w, env'⟩
      · exact hs.trans ⟨[], rfl, (List.append_nil _).symm, (List.append_nil _).symm⟩
      · refine hs.trans ⟨[.opened path], rfl, (List.append_nil _).symm, ?_⟩
        exact Array.toList_push

theorem openFile (access : Access) (path : String) (r : Reference) :
    Keeps (Tallies k₀) (Action.openFile access path r) := by
  refine .bind (opened access path) fun handle => .bind (Action.keeps_handle? r) fun old => ?_
  refine .bind (setHandle r handle) fun _ => ?_
  cases old with
  | none => exact .pure _
  | some old => exact release old

theorem filePrint (r : Reference) (v : Value) : Keeps (Tallies k₀) (Action.filePrint r v) := by
  refine .bind (Action.keeps_handle? r) fun handle => ?_
  split
  · exact .bind (quiet _) fun _ => .bind (setHandle _ _) fun _ => Action.keeps_answer _
  · exact .throw _
  · exact .throw _

theorem fileRead (r : Reference) : Keeps (Tallies k₀) (Action.fileRead r) := by
  refine .bind (Action.keeps_handle? r) fun handle => ?_
  split
  · exact .bind (quiet _) fun _ => .bind (setHandle _ _) fun _ => Action.keeps_lineOf _
  · exact .throw _
  · exact .throw _

theorem close (r : Reference) : Keeps (Tallies k₀) (Action.close r) := by
  refine .bind (Action.keeps_handle? r) fun handle => ?_
  split
  · refine .bind (.modifyGet ?_) fun _ => release _
    intro s env hs
    exact hs
  · exact .throw _

/-- No program parts the records of the machine from the notes of the host. -/
theorem stable (k₀ : State h.recorded × (σ × List Event)) : Stable (Tallies k₀) where
  random := fun _ _ _ hs => hs
  heap := fun _ _ _ hs => hs
  clock := quiet _
  prompt := .bind (quiet _) fun _ => Action.keeps_lineOf _
  print := print
  openFile := openFile
  filePrint := filePrint
  fileRead := fileRead
  close := close

end Tallies

/-- Files are closed unnoticed. -/
theorem State.closed_noted (s : State h.recorded) (env : σ × List Event) :
    (s.closed env).2 = env.2 :=
  s.closed_keeps (fun _ _ => List.append_nil _) (fun _ _ => List.append_nil _)
    (fun _ _ => List.append_nil _) env

/-! ## Runs -/

namespace Run

variable {p : Program} {r : Run h.recorded}

/-- What the host noted during the run. -/
def noted (r : Run h.recorded) : List Event :=
  r.after.2.drop r.before.2.length

/-- The lines that a run hands over, or leaves in the machine when it fails. -/
def lines (r : Run h.recorded) : List String :=
  match r.outcome with
  | .ok ex => ex.printed
  | .error _ => r.left.printed.toList

/-- The paths that a run hands over, or leaves in the machine when it fails. -/
def paths (r : Run h.recorded) : List String :=
  match r.outcome with
  | .ok ex => ex.filesWritten
  | .error _ => r.left.filesWritten.toList

/-- In the end the records have grown by what the host noted during the run. -/
theorem IsOf.grows (hr : r.IsOf limits p) :
    r.lines.map (· ++ "\n") = r.found.shown ++ r.noted.filterMap Event.text? ∧
      r.paths = r.found.filesWritten.toList ++ openedPaths r.noted := by
  obtain ⟨result, m, env, ⟨as, c, htrace, hturn⟩, hafter, -, hleft⟩ := hr.ends
  have hstable := Tallies.stable (r.found.toState, r.before)
  have hc := hstable.trace htrace (.refl _)
  have hend := hstable.turn limits p.code.toArray hc
  rw [hturn] at hend
  obtain ⟨events, hnoted, hshown, hopened⟩ := hend
  obtain rfl : r.noted = events := by
    rw [noted, hafter, m.toState.closed_noted, hnoted]
    exact List.drop_left
  unfold lines paths
  cases hout : r.outcome with
  | ok ex =>
      rw [hout] at hleft
      rw [hleft.1]
      exact ⟨hshown, hopened⟩
  | error e =>
      rw [hout] at hleft
      rw [hleft]
      exact ⟨hshown, hopened⟩

/-- What a success hands over it does not keep. -/
theorem IsOf.left_of_ok (hr : r.IsOf limits p) {ex : Execution} (hout : r.outcome = .ok ex) :
    r.left.printed = #[] ∧ r.left.filesWritten = #[] := by
  obtain ⟨result, m, env, -, -, -, hleft⟩ := hr.ends
  rw [hout] at hleft
  rw [hleft.2]
  exact ⟨rfl, rfl⟩

end Run

/-! ## Sessions -/

/-- All that the host noted during some runs. -/
def notes (rs : List (Run h.recorded)) : List Event :=
  rs.flatMap Run.noted

/-- The failed runs since the last successful one. -/
def failedSince (rs : List (Run h.recorded)) : List (Run h.recorded) :=
  rs.rtakeWhile fun r => !r.succeeds

theorem failedSince_append_ok (rs : List (Run h.recorded)) {r : Run h.recorded} {ex : Execution}
    (hout : r.outcome = .ok ex) : failedSince (rs ++ [r]) = [] := by
  apply List.rtakeWhile_concat_neg
  simp [Run.succeeds, hout, Except.isOk, Except.toBool]

theorem failedSince_append_error (rs : List (Run h.recorded)) {r : Run h.recorded}
    {e : RuntimeError} (hout : r.outcome = .error e) :
    failedSince (rs ++ [r]) = failedSince rs ++ [r] := by
  apply List.rtakeWhile_concat_pos
  simp [Run.succeeds, hout, Except.isOk, Except.toBool]

variable {p : Program} {random : Random} {rs : List (Run h.recorded)} {m : Machine h.recorded}

namespace Session

/-- The machine holds records of what was noted since the last successful run. -/
def Holds (m : Machine h.recorded) (rs : List (Run h.recorded)) : Prop :=
  m.shown = (notes (failedSince rs)).filterMap Event.text? ∧
    m.filesWritten.toList = openedPaths (notes (failedSince rs))

/-- One more run reports what the machine held before it and what was noted during it. -/
theorem Holds.reports {r : Run h.recorded} (hfound : Holds r.found rs) (hr : r.IsOf limits p) :
    r.lines.map (· ++ "\n") = (notes (failedSince rs ++ [r])).filterMap Event.text? ∧
      r.paths = openedPaths (notes (failedSince rs ++ [r])) := by
  obtain ⟨hlines, hpaths⟩ := hr.grows
  have hnotes : notes (failedSince rs ++ [r]) = notes (failedSince rs) ++ r.noted := by
    simp [notes]
  constructor
  · rw [hlines, hfound.1, hnotes, List.filterMap_append]
  · rw [hpaths, hfound.2, hnotes, openedPaths, openedPaths, openedPaths, List.filterMap_append]

theorem Holds.append {r : Run h.recorded} (hfound : Holds r.found rs) (hr : r.IsOf limits p) :
    Holds r.left (rs ++ [r]) := by
  cases hout : r.outcome with
  | ok ex =>
      obtain ⟨hprinted, hwritten⟩ := hr.left_of_ok hout
      rw [Holds, failedSince_append_ok rs hout, State.shown, hprinted, hwritten]
      exact ⟨rfl, rfl⟩
  | error e =>
      obtain ⟨hlines, hpaths⟩ := hfound.reports hr
      rw [Run.lines, hout] at hlines
      rw [Run.paths, hout] at hpaths
      rw [Holds, failedSince_append_error rs hout]
      exact ⟨hlines, hpaths⟩

theorem holds (hs : Session limits p (Machine.start h.recorded random) rs m) : Holds m rs := by
  induction rs using List.reverseRecOn generalizing m with
  | nil =>
      rw [hs.eq_of_nil]
      exact ⟨rfl, rfl⟩
  | append_singleton rs r ih =>
      obtain ⟨hfirst, hr, hrest⟩ := hs.split_cons
      rw [hrest.eq_of_nil]
      exact (ih hfirst).append hr

end Session

/-- A session accounts for all output. -/
structure Accounts (limits : Limits) (p : Program) (rs : List (Run h.recorded)) : Prop where
  /-- A successful run hands over the lines that the console accepted and the files that were opened
  for writing since the successful run before it. -/
  handsOver : ∀ before r after ex, rs = before ++ r :: after → r.outcome = .ok ex →
    linesText ex.printed = consoleText (notes (failedSince before ++ [r])) ∧
      ex.filesWritten = openedPaths (notes (failedSince before ++ [r]))
  /-- A failed run leaves all of these in the machine. -/
  keeps : ∀ before r after e, rs = before ++ r :: after → r.outcome = .error e →
    linesText r.left.printed.toList = consoleText (notes (failedSince before ++ [r])) ∧
      r.left.filesWritten.toList = openedPaths (notes (failedSince before ++ [r]))
  /-- The next run executes the program from its first instruction on, over the heap and with the
  generator that the last turn of the run before it left. -/
  resumes : ∀ before r r' after, rs = before ++ r :: r' :: after →
    ∃ result last env result' last' env', r.Executes limits p result last env ∧
      r'.Executes limits p result' last' env' ∧ r'.found.heap = last.heap ∧
        r'.found.random = last.random

/-- In a session of any program, with runs that succeed or fail anywhere, no output is lost or
reported twice. -/
theorem session_accounts (hs : Session limits p (Machine.start h.recorded random) rs m) :
    Accounts limits p rs where
  handsOver := by
    rintro before r after ex rfl hout
    obtain ⟨hfirst, hr, -⟩ := hs.split_cons
    obtain ⟨hlines, hpaths⟩ := hfirst.holds.reports hr
    rw [Run.lines, hout] at hlines
    rw [Run.paths, hout] at hpaths
    exact ⟨congrArg String.join hlines, hpaths⟩
  keeps := by
    rintro before r after e rfl hout
    obtain ⟨hfirst, hr, -⟩ := hs.split_cons
    obtain ⟨hlines, hpaths⟩ := hfirst.holds.reports hr
    rw [Run.lines, hout] at hlines
    rw [Run.paths, hout] at hpaths
    exact ⟨congrArg String.join hlines, hpaths⟩
  resumes := by
    rintro before r r' after rfl
    obtain ⟨result, last, env, hexec, hheap, hrandom, -⟩ := hs.next_found
    obtain ⟨-, -, hrest⟩ := hs.split_cons
    obtain ⟨-, hr', -⟩ := hrest.uncons
    obtain ⟨result', last', env', hexec', -⟩ := hr'.ends
    exact ⟨result, last, env, result', last', env', hexec, hexec', hheap, hrandom⟩

/-- Shows a line, and then asks for two values on the stack. -/
def greeting : Program :=
  ⟨[⟨.pushText, .text "hi"⟩, ⟨.dup, .int 1⟩, ⟨.print, .none⟩, ⟨.list, .int 2⟩]⟩

/-- A first run shows its line and finds one value too few. That value stays, so a second run has
enough of them, and hands over the line of the first run before its own. -/
theorem session_accounts_retry :
    ∃ (r r' : Run Memory.host.recorded) (m : Machine Memory.host.recorded),
      Session .standard greeting (Machine.start Memory.host.recorded (.ofSeed 7)) [r, r'] m ∧
        r.outcome = .error ⟨.stackUnderflow .list, 3⟩ ∧
        r'.outcome = .ok ⟨[.list [.text "hi", .text "hi"]], ["hi", "hi"], []⟩ ∧
        Accounts .standard greeting [r, r'] := by
  let start := Machine.start Memory.host.recorded (.ofSeed 7)
  let between : Machine Memory.host.recorded :=
    ⟨{ start.toState with printed := #["hi"] }, [.text "hi"]⟩
  let r : Run Memory.host.recorded :=
    ⟨start, (.empty, []), .error ⟨.stackUnderflow .list, 3⟩, between,
      ({ Memory.empty with output := "hi\n" }, [.shown "hi\n"])⟩
  let r' : Run Memory.host.recorded :=
    ⟨between, (.empty, []), .ok ⟨[.list [.text "hi", .text "hi"]], ["hi", "hi"], []⟩, start,
      ({ Memory.empty with output := "hi\n" }, [.shown "hi\n"])⟩
  have hr : r.IsOf .standard greeting := ⟨5, rfl⟩
  have hr' : r'.IsOf .standard greeting := ⟨5, rfl⟩
  have hs : Session .standard greeting start [r, r'] start := .cons hr (.cons hr' (.nil start))
  exact ⟨r, r', start, hs, rfl, rfl, session_accounts hs⟩

end DiceScript
