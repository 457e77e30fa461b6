import DiceScript.Bytecode
import DiceScript.Proofs.Assembly.Fields
import DiceScript.Proofs.Json.Layouts

/-!
# Loading saved programs

A program is saved in two layouts, and both load as the same program. What can fail is a number:
integers and addresses have 64 bits, and a double has to have a text that reads back. A double that
is not finite has none, so the program with it is refused.
-/

namespace DiceScript

open DiceScript.Json (Blank ReadsBack Written)

theorem Opcode.ofMnemonic?_mnemonic (op : Opcode) : Opcode.ofMnemonic? op.mnemonic = some op := by
  have hall : ∀ e ∈ Opcode.table, Opcode.ofMnemonic? e.2.1 = some e.1 := by decide +kernel
  exact hall _ (Listing.mem_table op)

namespace Json.Written

theorem text?_body (s : String) : text? (s.toList.flatMap Quoted.escapeChar) = some s := by
  rw [text?, Quoted.decode?_body, Option.map_some, String.ofList_toList]

theorem named?_writtenFields (fields : List (String × Json)) :
    named? (writtenFields fields) = some (fields.map fun f => (f.1, f.2.written)) := by
  induction fields with
  | nil => rfl
  | cons f fields ih =>
      obtain ⟨k, v⟩ := f
      rw [named?] at ih ⊢
      rw [writtenFields, List.mapM_cons, ih, text?_body]
      rfl

theorem opcode?_mnemonic (op : Opcode) : opcode? (Json.string op.mnemonic).written = some op := by
  rw [Json.written, opcode?, variant?, text?_body]
  exact op.ofMnemonic?_mnemonic

end Json.Written

namespace Immediate

/-- The immediate is written with numbers that the reader keeps. -/
def Storable : Immediate → Prop
  | int n => -2 ^ 63 ≤ n ∧ n < 2 ^ 63
  | num x => x.isFinite = true → ReadsBack x
  | address target => target < 2 ^ 64
  | _ => True

/-- The immediate is a double that has no text. -/
def IsLost : Immediate → Prop
  | num x => x.isFinite = false
  | _ => False

/-- The choice that stands for an immediate. -/
def choice? : Immediate → Option Json
  | none => Option.none
  | int n => some (.object [("Int", .int n)])
  | num x => some (.object [("Num", .real x)])
  | text s => some (.object [("Str", .string s)])
  | address target => some (.object [("Addr", .int target)])

theorem variant?_choice (name : String) (v : Json) :
    (Json.object [(name, v)]).written.variant? = some (name, v.written) := by
  rw [Json.written, Json.writtenFields, Json.writtenFields, Written.variant?, Written.text?_body]
  rfl

theorem immediate?_choice {imm : Immediate} {v : Json} (hv : imm.choice? = some v)
    (himm : imm.Storable) (hlost : ¬ imm.IsLost) : v.written.immediate? = some imm := by
  cases imm with
  | none => cases hv
  | int n =>
      cases hv
      rw [Written.immediate?, variant?_choice]
      exact if_pos himm
  | num x =>
      cases hv
      have hx : x.isFinite = true := by simpa [IsLost] using hlost
      rw [Written.immediate?, variant?_choice, Json.written, if_pos hx]
      exact if_pos hx
  | text s =>
      cases hv
      rw [Written.immediate?, variant?_choice]
      exact congrArg (Option.map text) (Written.text?_body s)
  | address target =>
      cases hv
      rw [Written.immediate?, variant?_choice]
      exact (if_pos (Int.natCast_nonneg target)).trans rfl

theorem immediate?_lost {imm : Immediate} {v : Json} (hv : imm.choice? = some v)
    (hlost : imm.IsLost) : v.written.immediate? = Option.none := by
  cases imm with
  | num x =>
      cases hv
      have hx : ¬ x.isFinite = true := by simpa [IsLost] using hlost
      rw [Written.immediate?, variant?_choice, Json.written, if_neg hx]
      rfl
  | _ => cases hlost

theorem readable_choice {imm : Immediate} {v : Json} (hv : imm.choice? = some v)
    (himm : imm.Storable) : v.Readable := by
  cases imm with
  | none => cases hv
  | int n =>
      cases hv
      exact ⟨⟨himm.1, himm.2.trans (by decide)⟩, trivial⟩
  | num x =>
      cases hv
      exact ⟨himm, trivial⟩
  | text s =>
      cases hv
      exact ⟨trivial, trivial⟩
  | address target =>
      cases hv
      have hlt : target < 2 ^ 64 := himm
      exact ⟨⟨by omega, by omega⟩, trivial⟩

end Immediate

namespace Instruction

theorem toJson_eq (i : Instruction) :
    i.toJson = .object (("op", .string i.op.mnemonic) ::
      (i.imm.choice?.map fun v => ("imm", v)).toList) := by
  obtain ⟨op, imm⟩ := i
  cases imm <;> rfl

theorem readable_toJson {i : Instruction} (h : i.imm.Storable) : i.toJson.Readable := by
  rw [toJson_eq]
  cases hv : i.imm.choice? with
  | none => exact ⟨trivial, trivial⟩
  | some v => exact ⟨trivial, Immediate.readable_choice hv h, trivial⟩

theorem instruction?_toJson (i : Instruction) :
    i.toJson.written.instruction? =
      match i.imm.choice? with
      | none => some ⟨i.op, .none⟩
      | some v => v.written.immediate?.map (⟨i.op, ·⟩) := by
  rw [toJson_eq, Json.written, Written.instruction?, Written.named?_writtenFields]
  cases i.imm.choice? with
  | none => simp [Written.field?, Written.opcode?_mnemonic]
  | some v =>
      simp only [Option.map_some, Option.toList_some]
      cases hv : v.written.immediate? with
      | none => simp [Written.field?, hv]
      | some imm => simp [Written.field?, Written.opcode?_mnemonic, hv]

theorem instruction?_of_storable {i : Instruction} (h : i.imm.Storable) (hlost : ¬ i.imm.IsLost) :
    i.toJson.written.instruction? = some i := by
  rw [instruction?_toJson]
  cases hv : i.imm.choice? with
  | none =>
      obtain ⟨op, imm⟩ := i
      cases imm with
      | none => rfl
      | _ => cases hv
  | some v =>
      dsimp only
      rw [Immediate.immediate?_choice hv h hlost]
      rfl

theorem instruction?_of_lost {i : Instruction} (hlost : i.imm.IsLost) :
    i.toJson.written.instruction? = none := by
  rw [instruction?_toJson]
  cases hv : i.imm.choice? with
  | none =>
      obtain ⟨op, imm⟩ := i
      cases imm with
      | none => cases hlost
      | _ => cases hv
  | some v =>
      dsimp only
      rw [Immediate.immediate?_lost hv hlost]
      rfl

end Instruction

namespace Program

variable {p : Program}

theorem readable_toJson (h : ∀ i ∈ p.code, i.imm.Storable) : p.toJson.Readable := by
  refine ⟨Json.readableItems_iff.mpr ?_, trivial⟩
  intro v hv
  obtain ⟨i, hi, rfl⟩ := List.mem_map.mp hv
  exact Instruction.readable_toJson (h i hi)

theorem program?_toJson (p : Program) :
    p.toJson.written.program? =
      (p.code.mapM fun i : Instruction => i.toJson.written.instruction?).map Program.mk := by
  have hcode : (Json.array (p.code.map Instruction.toJson)).written.code? =
      p.code.mapM fun i : Instruction => i.toJson.written.instruction? := by
    rw [Json.written, Written.code?, Json.writtenItems_eq_map, List.map_map, List.mapM_map]
    rfl
  rw [toJson, Json.written, Written.program?, Written.named?_writtenFields]
  simp only [List.map_cons, List.map_nil, Option.bind_eq_bind, Option.bind_some,
    Written.field?, decide_true, List.filter_cons_of_pos, List.filter_nil, hcode]
  cases p.code.mapM fun i : Instruction => i.toJson.written.instruction? <;> rfl

theorem program?_of_storable (h : ∀ i ∈ p.code, i.imm.Storable)
    (hlost : ∀ i ∈ p.code, ¬ i.imm.IsLost) : p.toJson.written.program? = some p := by
  have hcode : ∀ is : List Instruction, (∀ i ∈ is, i ∈ p.code) →
      (is.mapM fun i : Instruction => i.toJson.written.instruction?) = some is := by
    intro is his
    induction is with
    | nil => rfl
    | cons i is ih =>
        rw [List.forall_mem_cons] at his
        rw [List.mapM_cons, Instruction.instruction?_of_storable (h i his.1) (hlost i his.1),
          ih his.2]
        rfl
  rw [program?_toJson, hcode p.code fun _ hi => hi]
  rfl

theorem program?_of_lost (hlost : ∃ i ∈ p.code, i.imm.IsLost) :
    p.toJson.written.program? = none := by
  obtain ⟨i, hi, hlost⟩ := hlost
  have hcode : ∀ is : List Instruction, i ∈ is →
      (is.mapM fun i : Instruction => i.toJson.written.instruction?) = none := by
    intro is his
    induction is with
    | nil => cases his
    | cons j is ih =>
        rw [List.mapM_cons]
        rcases List.mem_cons.mp his with rfl | his
        · rw [Instruction.instruction?_of_lost hlost]
          rfl
        · rw [ih his]
          cases j.toJson.written.instruction? <;> rfl
  rw [program?_toJson, hcode p.code hi]
  rfl

/-- Both layouts of a program, also with white space behind, are loaded alike. -/
theorem ofJson?_layouts (h : ∀ i ∈ p.code, i.imm.Storable) {ws : String} (hws : Blank ws.toList) :
    ofJson? (p.toJson.compact ++ ws) = p.toJson.written.program? ∧
      ofJson? (p.toJson.pretty ++ ws) = p.toJson.written.program? := by
  obtain ⟨hcompact, hpretty⟩ := Json.read?_layouts (readable_toJson h) hws
  constructor
  · rw [ofJson?, String.toList_append, Json.compact, String.toList_ofList, hcompact,
      Option.bind_some]
  · rw [ofJson?, String.toList_append, Json.pretty, String.toList_ofList, hpretty,
      Option.bind_some]

end Program

end DiceScript
