import DiceScript.Proofs.Bytecode.Saving

/-!
# Nothing is lost in a saved program

Any program, not only a compiled one, is loaded from either of its texts as it was, if its numbers
are finite and the reader keeps them. An operand is never taken for one of another kind, whether or
not its opcode can read it.
-/

namespace DiceScript

open DiceScript.Json (Blank ReadsBack)

/-- An integer has 64 bits with a sign, and an address 64 bits without one. -/
def Immediate.FitsWord : Immediate → Prop
  | int n => -2 ^ 63 ≤ n ∧ n < 2 ^ 63
  | address target => target < 2 ^ 64
  | _ => True

namespace Program

variable {p : Program}

theorem storable_of_fitsWord (hwords : ∀ i ∈ p.code, i.imm.FitsWord)
    (hreads : ∀ x ∈ p.numbers, ReadsBack x) : ∀ i ∈ p.code, i.imm.Storable := by
  intro i hi
  have hword := hwords i hi
  cases himm : i.imm with
  | int n =>
      rw [himm] at hword
      exact hword
  | address target =>
      rw [himm] at hword
      exact hword
  | num x => exact fun _ => hreads x (mem_numbers.mpr ⟨i, hi, himm⟩)
  | _ => trivial

theorem not_isLost_of_finite (hfinite : ∀ x ∈ p.numbers, x.isFinite = true) :
    ∀ i ∈ p.code, ¬ i.imm.IsLost := by
  intro i hi hlost
  obtain ⟨x, himm, hinfinite⟩ := Immediate.isLost_iff.mp hlost
  rw [hfinite x (mem_numbers.mpr ⟨i, hi, himm⟩)] at hinfinite
  cases hinfinite

/-- Both texts of a program are loaded as the program itself. -/
theorem ofJson?_toJson (hwords : ∀ i ∈ p.code, i.imm.FitsWord)
    (hfinite : ∀ x ∈ p.numbers, x.isFinite = true) (hreads : ∀ x ∈ p.numbers, ReadsBack x) :
    ofJson? p.toJson.compact = some p ∧ ofJson? p.toJson.pretty = some p := by
  have hstorable := storable_of_fitsWord hwords hreads
  have hloads := program?_of_storable hstorable (not_isLost_of_finite hfinite)
  have hnil : Blank ("" : String).toList := Json.blank_nil
  obtain ⟨hcompact, hpretty⟩ := ofJson?_layouts hstorable hnil
  rw [String.append_empty] at hcompact hpretty
  exact ⟨hcompact.trans hloads, hpretty.trans hloads⟩

/-- Among the operands are a zero with a sign, the limits of both words, a text of quotes,
backslashes and control characters, and some that their opcodes do not read. -/
theorem ofJson?_toJson_limits :
    let p : Program := ⟨[⟨.push, .num (-0)⟩, ⟨.push, .num 0.1⟩, ⟨.push, .num 5⟩, ⟨.push, .int 5⟩,
      ⟨.dup, .int (-2 ^ 63)⟩, ⟨.list, .int (2 ^ 63 - 1)⟩, ⟨.jump, .address (2 ^ 64 - 1)⟩,
      ⟨.pushText, .text "\"\\/\x00\x1f\n\t\u00e9\u2028"⟩, ⟨.sum, .address 5⟩, ⟨.push, .none⟩]⟩
    ofJson? p.toJson.compact = some p ∧ ofJson? p.toJson.pretty = some p := by
  intro p
  have hwords : ∀ i ∈ p.code, i.imm.FitsWord := by
    simp [p, Immediate.FitsWord]
  have hkept : ∀ x ∈ p.numbers, x.isFinite = true ∧ ReadsBack x := by decide +kernel
  exact p.ofJson?_toJson hwords (fun x hx => (hkept x hx).1) fun x hx => (hkept x hx).2

end Program

end DiceScript
