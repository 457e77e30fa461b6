import DiceScript.Proofs.Compile.Halting
import DiceScript.Proofs.Machine.Sequence
import DiceScript.Proofs.Syntax.Extension
import DiceScript.Proofs.Token.Seam

/-!
# Programs made of parts

Two sources on lines of their own compile to the program of the first followed by that of the
second. The machine runs the one and then the other, so what is added to a source does not change
what stands before.
-/

namespace DiceScript

theorem toplevelCode_append (es fs : List Expr) :
    toplevelCode .discard (es ++ fs) = toplevelCode .discard es ++ toplevelCode .discard fs := by
  induction es with
  | nil => rfl
  | cons e es ih => simp [toplevelCode_cons, ih]

/-- Two sources that compile, the second not beginning with a plus, also compile together. The
program is that of the first followed by that of the second, with its jumps raised by the length of
the first. From any machine it passes whatever the first program passes; and it runs as the first
program does and then, unless that fails, as the second does on the machine that the first left. -/
theorem compile_append {s t : String} {p q : Program} (hs : compile .discard s = .ok p)
    (ht : compile .discard t = .ok q) (hplus : ∀ u ∈ (tokenize t).head?, u.kind ≠ .plus) :
    compile .discard (s ++ "\n" ++ t) =
        .ok ⟨p.code ++ q.code.map (Instruction.raise p.code.length)⟩ ∧
      ∀ {σ : Type} {h : Host (StateM σ)} (limits : Limits),
        (∀ (c c' : Config h) (as : List Nat), Trace limits p.code.toArray c as c' →
          Trace limits (p.andThen q).code.toArray c as c') ∧
        ∀ fuel, p.code.length + q.code.length < fuel →
          Machine.runFrom limits (p.andThen q).code.toArray fuel 0 =
            (Machine.runBoth limits p q fuel : StateT (Machine h) (StateM σ) _) := by
  have hp := forward_of_compile hs
  have hq := forward_of_compile ht
  refine ⟨?_, fun limits => ⟨fun c c' as htrace => htrace.append_left hp _, fun fuel hfuel => ?_⟩⟩
  · obtain ⟨script, hscript, rfl⟩ := compile_eq_ok.mp hs
    obtain ⟨script', hscript', rfl⟩ := compile_eq_ok.mp ht
    obtain ⟨lines, bytes, htokens⟩ := tokenize_append_newline s t
    have hwords : KeepsWords (Token.later lines bytes) := ⟨fun _ => rfl, fun _ => rfl⟩
    have hparse := parse_append hwords hscript hscript' hplus
    rw [← htokens] at hparse
    refine compile_eq_ok.mpr ⟨_, hparse, ?_⟩
    have hcode : Script.code .discard ⟨script.body ++ script'.body⟩ =
        script.code .discard ++ script'.code .discard := toplevelCode_append _ _
    rw [hcode, codeLayout_append_eq_andThen]
    rfl
  · exact Machine.runFrom_andThen hp hq (by simpa [Program.andThen] using hfuel)

/-- The first part ends in a comment; the second has jumps. -/
theorem compile_append_choice :
    ∃ p q, compile .discard "!2d6 // two dice" = .ok p ∧ compile .discard "!{1,2|3}" = .ok q ∧
      compile .discard "!2d6 // two dice\n!{1,2|3}" =
        .ok ⟨p.code ++ q.code.map (Instruction.raise p.code.length)⟩ := by
  obtain ⟨p, hp⟩ : ∃ p, compile .discard "!2d6 // two dice" = .ok p :=
    exists_compile_eq_ok (by decide +kernel)
  obtain ⟨q, hq⟩ : ∃ q, compile .discard "!{1,2|3}" = .ok q :=
    exists_compile_eq_ok (by decide +kernel)
  have hplus : ∀ u ∈ (tokenize "!{1,2|3}").head?, u.kind ≠ .plus := by decide +kernel
  exact ⟨p, q, hp, hq, (compile_append hp hq hplus).1⟩

end DiceScript
