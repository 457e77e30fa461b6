import DiceScript.Assembly.Listing
import DiceScript.Proofs.Json.Quoting
import DiceScript.Proofs.Number.Printing
import DiceScript.Proofs.Text.Lines

/-!
# Fields of a listing

Mnemonics, labels and numbers are words without white space, quotes or semicolons. So they, and
quoted texts, come out of a line as they were written into it.
-/

namespace DiceScript

open Binary64

namespace Listing

/-! ## Words -/

/-- No character ends a word, begins a comment or a quoted text. -/
def IsWord (text : List Char) : Prop :=
  ∀ c ∈ text, isBlank c = false ∧ c ≠ ';' ∧ c ≠ '"'

instance (text : List Char) : Decidable (IsWord text) :=
  List.decidableBAll _ text

theorem IsWord.cons {c : Char} {text : List Char}
    (hc : isBlank c = false ∧ c ≠ ';' ∧ c ≠ '"') (h : IsWord text) : IsWord (c :: text) :=
  List.forall_mem_cons.mpr ⟨hc, h⟩

/-- Line ends are white space. -/
theorem IsWord.isLine {text : List Char} (h : IsWord text) : IsLine text := by
  refine fun c hc => ⟨?_, ?_⟩
  · rintro rfl
    exact absurd (h _ hc).1 (by decide)
  · rintro rfl
    exact absurd (h _ hc).1 (by decide)

theorem IsWord.isTight {text : List Char} (h : IsWord text) : IsTight text :=
  isTight_of_forall fun c hc => (h c hc).1

theorem isWord_of_isDigit {ds : List Char} (h : ∀ c ∈ ds, c.isDigit = true) : IsWord ds := by
  refine fun c hc => ⟨?_, ?_, ?_⟩
  · have hdigit := h c hc
    simp only [Char.isDigit, Bool.and_eq_true, decide_eq_true_eq, ge_iff_le,
      UInt32.le_iff_toNat_le] at hdigit
    have hlow : 48 ≤ c.toNat := hdigit.1
    have hhigh : c.toNat ≤ 57 := hdigit.2
    simp [isBlank]
    omega
  · rintro rfl
    exact absurd (h _ hc) (by decide)
  · rintro rfl
    exact absurd (h _ hc) (by decide)

theorem isWord_toDigits (n : Nat) : IsWord (Nat.toDigits 10 n) :=
  isWord_of_isDigit (Reader.isDigit_toDigits n)

theorem isWord_toString (n : Int) : IsWord (toString n).toList := by
  rw [toList_toString_int]
  split
  · exact .cons (by decide) (isWord_toDigits _)
  · exact isWord_toDigits _

theorem isWord_append {xs ys : List Char} (hxs : IsWord xs) (hys : IsWord ys) : IsWord (xs ++ ys) :=
  List.forall_mem_append.mpr ⟨hxs, hys⟩

theorem isWord_layout_plain (x : Decimal) : IsWord (x.layout .plain) := by
  have hds := isWord_toDigits x.digits
  have hzeros : ∀ n, IsWord (List.replicate n '0') := fun n =>
    isWord_of_isDigit fun c hc => by
      rw [List.eq_of_mem_replicate hc]
      rfl
  rw [Decimal.layout_plain, Decimal.pointAfter]
  split
  · exact .cons (by decide) (.cons (by decide) (isWord_append (hzeros _) hds))
  split
  · exact isWord_append (isWord_append hds (hzeros _)) nofun
  · exact isWord_append (fun c hc => hds c (List.mem_of_mem_take hc))
      (.cons (by decide) fun c hc => hds c (List.mem_of_mem_drop hc))

theorem isWord_plainText (x : Double) : IsWord (plainText x).toList := by
  unfold plainText
  split
  · decide +kernel
  · split
    · decide +kernel
    · decide +kernel
  · rw [String.toList_ofList, finiteText]
    split
    · exact .cons (by decide) (isWord_layout_plain _)
    · exact isWord_layout_plain _

theorem isWord_numberText (x : Double) : IsWord (numberText x).toList := by
  unfold numberText
  split
  · exact isWord_toString _
  · exact isWord_plainText x

theorem toList_toString_ne_nil (n : Int) : (toString n).toList ≠ [] := by
  rw [toList_toString_int]
  split
  · exact List.cons_ne_nil _ _
  · exact Nat.toDigits_ne_nil

theorem toList_numberText_ne_nil (x : Double) : (numberText x).toList ≠ [] := by
  unfold numberText
  split
  · exact toList_toString_ne_nil _
  unfold plainText
  split
  · decide
  · split <;> decide
  · obtain ⟨c, rest, h, -⟩ := Decimal.exists_layout_plain_eq_cons
      (Decimal.shortest Decimal.Style.plain.tie (magnitude x))
    rw [String.toList_ofList, finiteText, h]
    split
    · exact List.cons_ne_nil _ _
    · exact List.cons_ne_nil _ _

theorem mem_table (op : Opcode) : (op, op.mnemonic, op.byte) ∈ Opcode.table := by
  have hentry : Opcode.table.find? (·.1 = op) = some (op.entry?.get op.entry?_isSome) :=
    (Option.some_get _).symm
  have hop : (op.entry?.get op.entry?_isSome).1 = op :=
    of_decide_eq_true
      (List.find?_some (p := fun e : Opcode × String × Nat => decide (e.1 = op)) hentry)
  have hmem := List.mem_of_find?_eq_some hentry
  have heta : op.entry?.get op.entry?_isSome = (op, op.mnemonic, op.byte) := Prod.ext hop rfl
  exact heta ▸ hmem

/-- A mnemonic is a word that names its opcode, also after a change to capitals. -/
theorem mnemonic_spec (op : Opcode) : IsWord op.mnemonic.toList ∧ op.mnemonic.toList ≠ [] ∧
    ':' ∉ op.mnemonic.toList ∧
    Opcode.ofMnemonic? (String.ofList (op.mnemonic.toList.map Char.toUpper)) = some op := by
  have hall : ∀ e ∈ Opcode.table, IsWord e.2.1.toList ∧ e.2.1.toList ≠ [] ∧ ':' ∉ e.2.1.toList ∧
      Opcode.ofMnemonic? (String.ofList (e.2.1.toList.map Char.toUpper)) = some e.1 := by
    decide +kernel
  exact hall _ (mem_table op)

/-! ## Fields -/

/-- A text that is kept whole at the end of a line. -/
structure IsField (text : List Char) : Prop where
  kept : stripComment .outside text = text
  line : IsLine text
  tight : IsTight text

theorem stripComment_append {text : List Char} (h : ∀ c ∈ text, c ≠ ';' ∧ c ≠ '"')
    (rest : List Char) :
    stripComment .outside (text ++ rest) = text ++ stripComment .outside rest := by
  induction text with
  | nil => rfl
  | cons c text ih =>
      obtain ⟨⟨hsemicolon, hquote⟩, htext⟩ := List.forall_mem_cons.mp h
      rw [List.cons_append, stripComment, if_neg hsemicolon, if_neg hquote, ih htext]
      rfl

theorem IsWord.isField {text : List Char} (h : IsWord text) : IsField text := by
  have hkept := stripComment_append (fun c hc => (h c hc).2) []
  rw [List.append_nil, stripComment, List.append_nil] at hkept
  exact ⟨hkept, h.isLine, h.isTight⟩

theorem stripComment_inside_append {text : List Char} (h : ∀ c ∈ text, c ≠ '"' ∧ c ≠ '\\')
    (rest : List Char) :
    stripComment .inside (text ++ rest) = text ++ stripComment .inside rest := by
  induction text with
  | nil => rfl
  | cons c text ih =>
      obtain ⟨⟨hquote, hbackslash⟩, htext⟩ := List.forall_mem_cons.mp h
      rw [List.cons_append, stripComment, if_neg hbackslash, if_neg hquote, ih htext]
      rfl

/-- No escape ends a quoted text. -/
theorem stripComment_escapeChar (c : Char) (rest : List Char) :
    stripComment .inside (Quoted.escapeChar c ++ rest) =
      Quoted.escapeChar c ++ stripComment .inside rest := by
  rcases Quoted.escapeChar_cases c with ⟨h, hquote, hbackslash, -⟩ | ⟨first, others, h, hescape⟩
  · rw [h]
    exact stripComment_inside_append (List.forall_mem_singleton.mpr ⟨hquote, hbackslash⟩) rest
  · rw [h, List.cons_append, stripComment, if_pos rfl, List.cons_append, stripComment,
      stripComment_inside_append hescape.plain]
    rfl

theorem stripComment_body (text rest : List Char) :
    stripComment .inside (text.flatMap Quoted.escapeChar ++ rest) =
      text.flatMap Quoted.escapeChar ++ stripComment .inside rest := by
  induction text with
  | nil => rfl
  | cons c text ih =>
      rw [List.flatMap_cons, List.append_assoc, stripComment_escapeChar, ih, List.append_assoc]

/-- A quoted text is kept, whatever comes behind it. -/
theorem stripComment_encode_append (text rest : List Char) :
    stripComment .outside (Quoted.encode text ++ rest) =
      Quoted.encode text ++ stripComment .outside rest := by
  rw [Quoted.encode, List.cons_append, stripComment, if_neg (by decide), if_pos rfl,
    List.append_assoc, stripComment_body, List.singleton_append, stripComment,
    if_neg (by decide), if_pos rfl, List.cons_append, List.append_assoc]
  rfl

theorem isField_encode (text : List Char) : IsField (Quoted.encode text) := by
  refine ⟨?_, fun c hc => ⟨?_, ?_⟩, ⟨?_, ?_⟩⟩
  · have hkept := stripComment_encode_append text []
    rwa [List.append_nil, stripComment, List.append_nil] at hkept
  · rintro rfl
    exact absurd (Quoted.visible_encode text _ hc) (by decide)
  · rintro rfl
    exact absurd (Quoted.visible_encode text _ hc) (by decide)
  · rintro c hc
    cases hc
    rfl
  · rintro c hc
    rw [Quoted.encode, ← List.cons_append, List.getLast?_concat] at hc
    cases hc
    rfl

end Listing

end DiceScript
