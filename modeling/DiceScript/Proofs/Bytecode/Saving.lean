import DiceScript.CommandLine
import DiceScript.Proofs.Bytecode.Loading
import DiceScript.Proofs.Compile.Counts
import DiceScript.Proofs.Compile.Literals

/-!
# Saving compiled programs

A compiled program whose numbers are finite is saved without loss. The texts of it load as the
program itself, and a command line does with them what it does with the source. A literal that is
too long for a double is an infinity in the program. The program is still saved, but as a text that
is refused when it is loaded.
-/

namespace DiceScript

open DiceScript.Json (Blank ReadsBack)

/-- The number that an instruction pushes. -/
def Immediate.number? : Immediate → Option Double
  | num x => some x
  | _ => Option.none

namespace Program

def numbers (p : Program) : List Double :=
  p.code.filterMap fun i => i.imm.number?

/-- The texts of a program. The last one is what a command line prints. -/
def savedTexts (p : Program) : List String :=
  [p.toJson.compact, p.toJson.pretty, p.toJson.pretty ++ "\n"]

theorem mem_numbers {p : Program} {x : Double} :
    x ∈ p.numbers ↔ ∃ i ∈ p.code, i.imm = .num x := by
  rw [numbers, List.mem_filterMap]
  refine exists_congr fun i => and_congr_right fun _ => ?_
  constructor
  · intro hx
    cases himm : i.imm with
    | num y =>
        rw [himm] at hx
        cases hx
        rfl
    | _ =>
        rw [himm] at hx
        cases hx
  · intro himm
    rw [himm]
    rfl

end Program

theorem Immediate.isLost_iff {imm : Immediate} :
    imm.IsLost ↔ ∃ x, imm = .num x ∧ x.isFinite = false := by
  constructor
  · intro h
    cases imm with
    | num x => exact ⟨x, rfl, h⟩
    | _ => cases h
  · rintro ⟨x, rfl, hx⟩
    exact hx

theorem Immediate.storable_of_atMost {imm : Immediate} {n : Nat} (h : imm.AtMost n)
    (hn : n < 2 ^ 63) (hnum : ∀ x, imm = .num x → x.isFinite = true → ReadsBack x) :
    imm.Storable := by
  cases imm with
  | int k =>
      obtain ⟨hlow, hhigh⟩ := h
      exact ⟨by omega, by omega⟩
  | num x => exact hnum x rfl
  | address target =>
      have hle : target ≤ n := h
      exact (by omega : target < 2 ^ 64)
  | _ => trivial

section

variable {mode : Toplevel} {source : String} {p : Program}

theorem storable_of_compile (hp : compile mode source = .ok p) (hlength : p.code.length < 2 ^ 63)
    (hnumbers : ∀ x ∈ p.numbers, x.isFinite = true → ReadsBack x) :
    ∀ i ∈ p.code, i.imm.Storable := by
  intro i hi
  apply Immediate.storable_of_atMost (atMost_of_compile hp i hi) hlength
  intro x hx
  exact hnumbers x (Program.mem_numbers.mpr ⟨i, hi, hx⟩)

theorem Program.ofJson?_of_mem_savedTexts (h : ∀ i ∈ p.code, i.imm.Storable) {text : String}
    (ht : text ∈ p.savedTexts) : Program.ofJson? text = p.toJson.written.program? := by
  have hnil : Blank ("" : String).toList := Json.blank_nil
  have hnewline : Blank ("\n" : String).toList := Json.blank_newline 0
  obtain ⟨hcompact, hpretty⟩ := Program.ofJson?_layouts h hnil
  rw [String.append_empty] at hcompact hpretty
  have hline := (Program.ofJson?_layouts h hnewline).2
  simp only [savedTexts, List.mem_cons, List.not_mem_nil, or_false] at ht
  rcases ht with rfl | rfl | rfl
  · exact hcompact
  · exact hpretty
  · exact hline

theorem Task.ofSource_of_compile (emit : Option Form) (hp : compile .discard source = .ok p)
    (hast : emit ≠ some .ast) (hasm : emit ≠ some .asm) :
    Task.ofSource emit source = .ok (.ofProgram emit p) := by
  obtain ⟨script, hparse, rfl⟩ := compile_eq_ok.mp hp
  unfold Task.ofSource
  rw [hparse]
  dsimp only
  rw [script.assemble_items]
  split
  · exact absurd rfl hast
  · exact absurd rfl hasm
  · rfl

end

namespace CommandLine

variable {σ : Type}

/-- Reading the input gives a text, and leaves the world in a state. -/
def Reads (shell : Shell (StateM σ)) (input : Input) (env : σ) (text : String) (env' : σ) : Prop :=
  (readProgram shell input).run env = (.ok text, env')

variable {shell : Shell (StateM σ)} {o : Options} {fuel : Nat} {env env' : σ} {text : String}

/-- Once the input is read, only the task decides. -/
theorem perform_of_reads (hread : Reads shell o.input env text env') :
    (perform shell o fuel).run env =
      (match o.task text with
        | .ok (.display shown) => display shell shown
        | .ok (.execute p) => execute shell o fuel p
        | .error .notBytecode => do
          shell.printError "Invalid bytecode: not a program\n"
          return some 1
        | .error (.diagnostic d) => do
          report shell o.errorFormat d
          return some 1 : StateM σ (Option Nat)).run env' := by
  unfold perform
  rw [StateT.run_bind, hread]
  rfl

end CommandLine

open CommandLine (Reads perform)

/-- The command line prints the text of the program that a source has. -/
structure Saves (source : String) (p : Program) : Prop where
  prints : ∀ {σ : Type} (shell : Shell (StateM σ)) (o : Options) (fuel : Nat) (env env' : σ),
    o.emit = some .bytecode → o.bytecode = false → Reads shell o.input env source env' →
      (perform shell o fuel).run env =
        (CommandLine.display shell (p.toJson.pretty ++ "\n")).run env'

/-- The texts of a saved program are as good as its source. -/
structure Reloads (source : String) (p : Program) : Prop where
  loads : ∀ text ∈ p.savedTexts, Program.ofJson? text = some p
  /-- From the world in which the source or the text has been read, both do the same to the world
  and end with the same exit code. -/
  runs : ∀ text ∈ p.savedTexts, ∀ {σ : Type} (shell : Shell (StateM σ)) (o : Options)
    (saved : Input) (fuel : Nat) (env env' read : σ), o.emit = none → o.bytecode = false →
      Reads shell o.input env source read → Reads shell saved env' text read →
        (perform shell { o with input := saved, bytecode := true } fuel).run env' =
          (perform shell o fuel).run env

/-- The texts of a saved program are lost. -/
structure IsRefused (p : Program) : Prop where
  loads : ∀ text ∈ p.savedTexts, Program.ofJson? text = none
  /-- The command line complains and does nothing else. -/
  runs : ∀ text ∈ p.savedTexts, ∀ {σ : Type} (shell : Shell (StateM σ)) (o : Options) (fuel : Nat)
    (env read : σ), o.bytecode = true → Reads shell o.input env text read →
      ∃ reason, (perform shell o fuel).run env =
        (do shell.printError ("Invalid bytecode: " ++ reason); return some 1 :
          StateM σ (Option Nat)).run read

theorem saves_of_compile {source : String} {p : Program} (hp : compile .discard source = .ok p) :
    Saves source p where
  prints := by
    intro σ shell o fuel env env' hemit hbytecode hread
    have htask : o.task source = .ok (.display (p.toJson.pretty ++ "\n")) := by
      rw [Options.task, hbytecode, hemit]
      exact Task.ofSource_of_compile (some .bytecode) hp (by decide) (by decide)
    rw [CommandLine.perform_of_reads hread, htask]

theorem reloads_of_loads {source : String} {p : Program} (hp : compile .discard source = .ok p)
    (hloads : ∀ text ∈ p.savedTexts, Program.ofJson? text = some p) : Reloads source p where
  loads := hloads
  runs := by
    intro text htext σ shell o saved fuel env env' read hemit hbytecode hsource hsaved
    have htask : o.task source = .ok (.execute p) := by
      rw [Options.task, hbytecode, hemit]
      exact Task.ofSource_of_compile none hp (by decide) (by decide)
    have htask' : ({ o with input := saved, bytecode := true } : Options).task text =
        .ok (.execute p) := by
      rw [Options.task, hloads text htext, hemit]
      rfl
    rw [CommandLine.perform_of_reads hsource, htask, CommandLine.perform_of_reads hsaved, htask']
    rfl

theorem isRefused_of_loads {p : Program}
    (hloads : ∀ text ∈ p.savedTexts, Program.ofJson? text = none) : IsRefused p where
  loads := hloads
  runs := by
    intro text htext σ shell o fuel env read hbytecode hread
    have htask : o.task text = .error .notBytecode := by
      rw [Options.task, hbytecode, hloads text htext]
      rfl
    refine ⟨"not a program\n", ?_⟩
    rw [CommandLine.perform_of_reads hread, htask]
    rfl

/-- Every compiled program can be saved, if it is no longer than the memory of a computer. When its
numbers are finite, and the reader keeps them, it is loaded again and runs like its source. When one
of them is an infinity, it is not loaded. -/
theorem saved_program_reloads {source : String} {p : Program}
    (hp : compile .discard source = .ok p) (hlength : p.code.length < 2 ^ 63)
    (hnumbers : ∀ x ∈ p.numbers, x.isFinite = true → ReadsBack x) :
    Saves source p ∧
      ((∀ x ∈ p.numbers, x.isFinite = true) → Reloads source p) ∧
      ((∃ x ∈ p.numbers, x.isFinite = false) → IsRefused p) := by
  have hstorable := storable_of_compile hp hlength hnumbers
  refine ⟨saves_of_compile hp, ?_, ?_⟩
  · intro hfinite
    apply reloads_of_loads hp
    intro text htext
    rw [Program.ofJson?_of_mem_savedTexts hstorable htext]
    apply Program.program?_of_storable hstorable
    intro i hi hlost
    obtain ⟨x, himm, hinfinite⟩ := Immediate.isLost_iff.mp hlost
    rw [hfinite x (Program.mem_numbers.mpr ⟨i, hi, himm⟩)] at hinfinite
    cases hinfinite
  · rintro ⟨x, hx, hinfinite⟩
    apply isRefused_of_loads
    intro text htext
    rw [Program.ofJson?_of_mem_savedTexts hstorable htext]
    obtain ⟨i, hi, himm⟩ := Program.mem_numbers.mp hx
    exact Program.program?_of_lost ⟨i, hi, Immediate.isLost_iff.mpr ⟨x, himm, hinfinite⟩⟩

/-- The program of a product is loaded again. The program of a literal with 309 digits is refused,
since its number is an infinity. -/
theorem saved_program_reloads_product :
    Reloads "!6 * 7"
        ⟨[⟨.push, .num 6⟩, ⟨.push, .num 7⟩, ⟨.arith .mul, .none⟩, ⟨.print, .none⟩]⟩ ∧
      ∃ p, compile .discard (String.ofList (List.replicate 309 '9')) = .ok p ∧ IsRefused p := by
  let product : Program :=
    ⟨[⟨.push, .num 6⟩, ⟨.push, .num 7⟩, ⟨.arith .mul, .none⟩, ⟨.print, .none⟩]⟩
  have hproduct : compile .discard "!6 * 7" = .ok product := by decide +kernel
  have hkept : ∀ x ∈ product.numbers, x.isFinite = true ∧ ReadsBack x := by decide +kernel
  have hreloads := (saved_program_reloads hproduct (by decide) fun x hx _ => (hkept x hx).2).2.1
  let nines : List Char := List.replicate 309 '9'
  have hdigits : ∀ c ∈ nines, c.isDigit = true := by
    intro c hc
    rw [List.eq_of_mem_replicate hc]
    rfl
  have hnines := compile_digits (List.cons_ne_nil '9' (List.replicate 308 '9')) hdigits
  set x := Binary64.ofNat (Reader.digitsValue nines)
  have hinfinite : x.isFinite = false := by decide +kernel
  have hnone : ∀ y ∈ [x], y.isFinite = true → ReadsBack y := by
    intro y hy hfinite
    rw [List.mem_singleton.mp hy, hinfinite] at hfinite
    cases hfinite
  have hrefused := (saved_program_reloads hnines (by decide) hnone).2.2
  refine ⟨hreloads fun y hy => (hkept y hy).1, _, hnines, hrefused ⟨x, ?_, hinfinite⟩⟩
  exact List.mem_singleton_self x

end DiceScript
