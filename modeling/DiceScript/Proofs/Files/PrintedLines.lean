import DiceScript.Proofs.Files.Acts
import DiceScript.Proofs.Text.Segments

/-!
# Lines printed to a file and read back

A file is opened for writing, lines are printed to it, it is closed, opened for reading and read. On
a host that keeps these acts apart from what else a program does, each act finds the file as the one
before it left it. So in every run that does them the lines come back, and then the end of input.
-/

namespace DiceScript

open Machine

/-- How far a file has come. -/
inductive FilePhase where
  /-- Nothing is written to it. -/
  | free
  /-- The reference writes to it, and these bytes are in it when that is closed. -/
  | writing (r : Reference) (bytes : Bytes)
  | closed (bytes : Bytes)
  /-- These bytes are left to be read through the reference. -/
  | reading (r : Reference) (bytes : Bytes)

/-- An act with the file at the path, the values that it leaves on the stack, and how far the file
has come then. -/
inductive FilePhase.Steps (path : String) :
    FilePhase → FileAct → List Value → FilePhase → Prop
  | opens_write (r : Reference) : Steps path .free (.opens .write path r) [.text path] (.writing r [])
  | prints (r : Reference) (bytes : Bytes) (v : Value) :
      Steps path (.writing r bytes) (.prints r v) []
        (.writing r (bytes ++ Utf8.encode (v.display ++ "\n")))
  | closes (r : Reference) (bytes : Bytes) :
      Steps path (.writing r bytes) (.closes r) [.number 0] (.closed bytes)
  | opens_read (r : Reference) (bytes : Bytes) :
      Steps path (.closed bytes) (.opens .read path r) [.text path] (.reading r bytes)
  | reads {r : Reference} {bytes rest : Bytes} {text : String} :
      readLine bytes = (.line text, rest) →
        Steps path (.reading r bytes) (.reads r) [.text text] (.reading r rest)

/-- Several acts one after the other, and all values that they leave. -/
inductive FilePhase.Passes (path : String) (p : FilePhase) :
    List FileAct → List Value → FilePhase → Prop
  | nil : Passes path p [] [] p
  | snoc {acts : List FileAct} {ws vs : List Value} {p₁ p₂ : FilePhase} {a : FileAct} :
      Passes path p acts ws p₁ → Steps path p₁ a vs p₂ → Passes path p (acts ++ [a]) (vs ++ ws) p₂

variable {σ : Type} {h : Host (StateM σ)} {limits : Limits}

/-- A host on which lines can be printed to the file at a path and read back. -/
structure LineFile (h : Host (StateM σ)) (path : String) where
  /-- The file has come so far in a state and its surroundings. -/
  stands : FilePhase → State h × σ → Prop
  quiet : ∀ (p : FilePhase) (limits : Limits) (code : Array Instruction) (c c' : Config h),
    c.Continues limits code c' → c.fileAct? code = none →
      stands p (c.machine.toState, c.env) → stands p (c'.machine.toState, c'.env)
  steps : ∀ (p p' : FilePhase) (a : FileAct) (vs : List Value), p.Steps path a vs p' →
    ∀ s env, stands p (s, env) → ∃ k, outcome a.perform s env = .done vs k ∧ stands p' k
  ends : ∀ (r : Reference) (s : State h) (env : σ), stands (.reading r []) (s, env) →
    ∃ k, outcome (FileAct.reads r).perform s env = .failed .endOfInput k

namespace FilePhase

variable {path : String} {p p' : FilePhase} {acts : List FileAct} {a : FileAct} {ws : List Value}

theorem Passes.eq_of_nil (hp : Passes path p [] ws p') : p' = p ∧ ws = [] := by
  generalize hacts : ([] : List FileAct) = acts at hp
  cases hp with
  | nil => exact ⟨rfl, rfl⟩
  | snoc _ _ => simp at hacts

theorem Passes.split (hp : Passes path p (acts ++ [a]) ws p') :
    ∃ p₁ ws' vs, Passes path p acts ws' p₁ ∧ Steps path p₁ a vs p' ∧ ws = vs ++ ws' := by
  generalize hacts : acts ++ [a] = all at hp
  cases hp with
  | nil => simp at hacts
  | snoc hp hs =>
      obtain ⟨rfl, rfl⟩ := List.append_singleton_inj.mp hacts
      exact ⟨_, _, _, hp, hs, rfl⟩

theorem Passes.of_append {rest : List FileAct} (hp : Passes path p (acts ++ rest) ws p') :
    ∃ ws' p₁, Passes path p acts ws' p₁ := by
  induction rest using List.reverseRecOn generalizing p' ws with
  | nil =>
      rw [List.append_nil] at hp
      exact ⟨ws, p', hp⟩
  | append_singleton rest a ih =>
      rw [← List.append_assoc] at hp
      obtain ⟨p₁, ws₁, -, hp₁, -⟩ := hp.split
      exact ih hp₁

end FilePhase

namespace LineFile

variable {path : String} (f : LineFile h path) {code : Array Instruction} {c₀ c c' : Config h}
  {acts : List FileAct} {a : FileAct} {p p' : FilePhase} {vs ws : List Value}

include f

/-- An act that the file is ready for succeeds. -/
theorem continues (hs : p.Steps path a vs p')
    (hc : f.stands p (c.machine.toState, c.env)) (ha : c.fileAct? code = some a) :
    ∃ c', c.Continues limits code c' ∧ f.stands p' (c'.machine.toState, c'.env) ∧
      vs <+: c'.machine.stack := by
  obtain ⟨⟨s, env⟩, hx, hstands⟩ := f.steps p p' a vs hs _ _ hc
  obtain ⟨rest, hturn⟩ := Config.exists_turn_of_fileAct limits ha
  rw [hx] at hturn
  exact ⟨⟨_, ⟨s, vs ++ rest⟩, env⟩, hturn, hstands, List.prefix_append vs rest⟩

/-- After the acts of a run the file stands as they say. -/
theorem stands_of_history (hh : History limits code c₀ acts c)
    (hstart : f.stands p (c₀.machine.toState, c₀.env)) (hp : p.Passes path acts ws p') :
    f.stands p' (c.machine.toState, c.env) := by
  induction hh generalizing p' ws with
  | start =>
      rw [hp.eq_of_nil.1]
      exact hstart
  | @next acts c c' _ hc ih =>
      cases ha : c.fileAct? code with
      | none =>
          rw [ha, Option.toList_none, List.append_nil] at hp
          exact f.quiet p' limits code c c' hc ha (ih hp)
      | some a =>
          rw [ha, Option.toList_some] at hp
          obtain ⟨p₁, ws₁, vs, hp₁, hs, -⟩ := hp.split
          obtain ⟨c₁, hc₁, hstands, -⟩ := f.continues hs (ih hp₁) ha
          rw [hc.unique hc₁]
          exact hstands

end LineFile

/-- The acts that print values to the file at a path, one a line, and close it. -/
def printing (path : String) (w : Reference) (vs : List Value) : List FileAct :=
  .opens .write path w :: (vs.map (.prints w) ++ [.closes w])

/-- In a run from `c₀` on, values printed to a file can be read back as lines. -/
structure ReadsBack (limits : Limits) (code : Array Instruction) (c₀ : Config h) (path : String)
    (w r : Reference) (vs : List Value) : Prop where
  /-- Whatever of this is about to be done succeeds, up to the opening for reading. -/
  succeeds : ∀ acts a, acts ++ [a] <+: printing path w vs ++ [.opens .read path r] → ∀ c,
    History limits code c₀ acts c → c.fileAct? code = some a → ∃ c', c.Continues limits code c'
  /-- Each line is read in its turn. -/
  reads : ∀ n v c, vs[n]? = some v →
    History limits code c₀
      (printing path w vs ++ .opens .read path r :: List.replicate n (.reads r)) c →
    c.fileAct? code = some (.reads r) →
      ∃ c', c.Continues limits code c' ∧ c'.machine.stack.head? = some (.text v.display)
  /-- Reading on after all of them finds the end of input. -/
  ends : ∀ c, History limits code c₀
      (printing path w vs ++ .opens .read path r :: List.replicate vs.length (.reads r)) c →
    c.fileAct? code = some (.reads r) → c.FailsWith limits code .endOfInput

/-- The lines of values, as they stand in a file. -/
def printedBytes (vs : List Value) : Bytes :=
  vs.flatMap fun v => Utf8.encode (v.display ++ "\n")

theorem readLine_printedBytes {vs : List Value} (hvs : ∀ v ∈ vs, KeepsAsLine v.display) {n : Nat}
    (hn : n < vs.length) : readLine (printedBytes (vs.drop n)) =
      (.line vs[n].display, printedBytes (vs.drop (n + 1))) := by
  rw [List.drop_eq_getElem_cons hn]
  exact readLine_encode (hvs _ (List.getElem_mem hn)) _

namespace FilePhase

variable {path : String} {w r : Reference} {vs : List Value}

theorem passes_prints (path : String) (w : Reference) (vs : List Value) :
    Passes path .free (.opens .write path w :: vs.map (.prints w)) [.text path]
      (.writing w (printedBytes vs)) := by
  induction vs using List.reverseRecOn with
  | nil => exact Passes.nil.snoc (.opens_write w)
  | append_singleton vs v ih =>
      have hbytes : printedBytes (vs ++ [v]) =
          printedBytes vs ++ Utf8.encode (v.display ++ "\n") := by
        simp [printedBytes]
      rw [List.map_append, List.map_singleton, ← List.cons_append, hbytes]
      exact ih.snoc (.prints w _ v)

/-- What lies on the stack before the first line is read. -/
def leftOnOpening (path : String) : List Value :=
  [.text path, .number 0, .text path]

theorem passes_printing (path : String) (w r : Reference) (vs : List Value) :
    Passes path .free (printing path w vs ++ [.opens .read path r]) (leftOnOpening path)
      (.reading r (printedBytes vs)) := by
  have hcloses := (passes_prints path w vs).snoc (.closes w _)
  exact hcloses.snoc (.opens_read r _)

/-- As many lines as were read are gone from the file, and lie on the stack. -/
theorem passes_reads (path : String) (w r : Reference) (hvs : ∀ v ∈ vs, KeepsAsLine v.display)
    {n : Nat} (hn : n ≤ vs.length) :
    Passes path .free (printing path w vs ++ .opens .read path r :: List.replicate n (.reads r))
      (((vs.take n).map fun v => .text v.display).reverse ++ leftOnOpening path)
      (.reading r (printedBytes (vs.drop n))) := by
  induction n with
  | zero => exact passes_printing path w r vs
  | succ n ih =>
      have hpasses := (ih (Nat.le_of_lt hn)).snoc (.reads (readLine_printedBytes hvs hn))
      rw [List.append_assoc, List.cons_append, ← List.replicate_succ'] at hpasses
      rw [List.take_succ_eq_append_getElem hn, List.map_append, List.map_singleton,
        List.reverse_concat, List.cons_append]
      exact hpasses

end FilePhase

/-- What is printed as lines is read back, in every run over a host that keeps lines. -/
theorem LineFile.readsBack {path : String} (f : LineFile h path) {c₀ : Config h}
    (hstart : f.stands .free (c₀.machine.toState, c₀.env)) {vs : List Value}
    (hvs : ∀ v ∈ vs, KeepsAsLine v.display) (code : Array Instruction) (w r : Reference) :
    ReadsBack limits code c₀ path w r vs where
  succeeds := by
    rintro acts a ⟨rest, hrest⟩ c hh ha
    have hall := FilePhase.passes_printing path w r vs
    rw [← hrest] at hall
    obtain ⟨ws, p', hp'⟩ := hall.of_append
    obtain ⟨p, ws', values, hp, hs, -⟩ := hp'.split
    obtain ⟨c', hc, -, -⟩ := f.continues hs (f.stands_of_history hh hstart hp) ha
    exact ⟨c', hc⟩
  reads := by
    intro n v c hv hh ha
    obtain ⟨hlt, rfl⟩ := List.getElem?_eq_some_iff.mp hv
    have hstands := f.stands_of_history hh hstart
      (FilePhase.passes_reads path w r hvs (Nat.le_of_lt hlt))
    have hread := readLine_printedBytes hvs hlt
    obtain ⟨c', hc, -, rest, hstack⟩ := f.continues (.reads hread) hstands ha
    refine ⟨c', hc, ?_⟩
    rw [← hstack]
    rfl
  ends := by
    intro c hh ha
    have hstands := f.stands_of_history hh hstart (FilePhase.passes_reads path w r hvs le_rfl)
    rw [List.drop_length] at hstands
    exact (Config.failsWith_iff ha _).mpr (f.ends r _ _ hstands)

end DiceScript
