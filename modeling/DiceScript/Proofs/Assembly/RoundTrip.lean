import DiceScript.Proofs.Assembly.Fields
import DiceScript.Proofs.Assembly.Renaming

/-!
# Listings read back

A listing of symbolic code that assembles is read as code that assembles to the same program. Labels
come back numbered by their first mention, and integers where a number is wanted come back as
numbers.
-/

namespace DiceScript

open Binary64

/-! ## Labels by first mention -/

/-- The characters of a label after its colon. -/
def Label.name (l : Label) : List Char :=
  'L' :: Nat.toDigits 10 l.id

theorem Label.toList_text (l : Label) : l.text.toList = ':' :: l.name := by
  rw [Label.text, String.toList_append]
  exact congrArg (':' :: 'L' :: ·) Nat.toList_repr

theorem Label.name_injective {l k : Label} (h : l.name = k.name) : l = k := by
  have hid := congrArg Reader.digitsValue (List.tail_eq_of_cons_eq h)
  rw [Reader.digitsValue_toDigits, Reader.digitsValue_toDigits] at hid
  obtain ⟨i⟩ := l
  exact congrArg Label.mk hid

/-- The labels met, after one more mention. -/
def meet (met : List Label) (l : Label) : List Label :=
  if l ∈ met then met else met ++ [l]

def meetAll (met : List Label) (items : List Item) : List Label :=
  (items.flatMap Item.labels).foldl meet met

/-- A label becomes the number of labels met before it. -/
def renumber (met : List Label) (l : Label) : Label :=
  ⟨met.idxOf l⟩

theorem mem_meet (met : List Label) (l : Label) : l ∈ meet met l := by
  unfold meet
  split
  · assumption
  · exact List.mem_append_right _ List.mem_cons_self

theorem prefix_meet (met : List Label) (l : Label) : met <+: meet met l := by
  unfold meet
  split
  · exact List.prefix_rfl
  · exact List.prefix_append met [l]

theorem prefix_foldl_meet (met ls : List Label) : met <+: ls.foldl meet met := by
  induction ls generalizing met with
  | nil => exact List.prefix_rfl
  | cons l ls ih => exact (prefix_meet met l).trans (ih (meet met l))

theorem mem_foldl_meet {met ls : List Label} {l : Label} (h : l ∈ ls) : l ∈ ls.foldl meet met := by
  induction ls generalizing met with
  | nil => cases h
  | cons k ls ih =>
      rcases List.mem_cons.mp h with rfl | h
      · exact (prefix_foldl_meet _ ls).subset (mem_meet met l)
      · exact ih h

/-- Labels that are met later do not change a number. -/
theorem renumber_eq {met all : List Label} (h : met <+: all) {l : Label} (hl : l ∈ met) :
    renumber met l = renumber all l := by
  obtain ⟨rest, rfl⟩ := h
  rw [renumber, renumber, List.idxOf_append_of_mem hl]

theorem injOn_renumber (met : List Label) : Set.InjOn (renumber met) {l | l ∈ met} :=
  fun _ hl _ _ h => (List.idxOf_inj hl).mp (Label.mk.inj h)

namespace Listing

/-- The names of the labels met are what a reader keeps of them. -/
theorem labelOf_name (met : List Label) (l : Label) :
    labelOf (met.map Label.name) l.name =
      ((meet met l).map Label.name, renumber (meet met l) l) := by
  have hname : ∀ k : Label, k.name = l.name ↔ k = l := fun k =>
    ⟨Label.name_injective, congrArg Label.name⟩
  unfold labelOf meet renumber
  rw [List.findIdx?_map]
  by_cases hl : l ∈ met
  · have hfind : met.findIdx? ((fun name => decide (name = l.name)) ∘ Label.name) =
        some (met.idxOf l) := by
      rw [List.findIdx?_eq_some_iff_findIdx_eq]
      refine ⟨List.idxOf_lt_length_of_mem hl, ?_⟩
      rw [List.idxOf]
      congr 1
      funext k
      rw [Function.comp, beq_eq_decide]
      exact decide_eq_decide.mpr (hname k)
    rw [hfind, if_pos hl]
  · have hfind : met.findIdx? ((fun name => decide (name = l.name)) ∘ Label.name) = none := by
      rw [List.findIdx?_eq_none_iff]
      intro k hk
      exact decide_eq_false fun h => hl ((hname k).mp h ▸ hk)
    rw [hfind, if_neg hl]
    simp [List.idxOf_append_of_notMem hl]

/-! ## Operands -/

/-- The operand is one that an opcode of the kind takes and a listing can hold. -/
inductive Fits (kind : OperandKind) : Operand → Prop
  | none : kind = .none → Fits kind .none
  | int {n : Int} : kind = .int → -2 ^ 63 ≤ n → n < 2 ^ 63 → Fits kind (.int n)
  | intAsNum {n : Int} : kind = .num → Fits kind (.int n)
  | num {x : Double} : kind = .num → x.isNaN = false → Fits kind (.num x)
  | text {s : String} : kind = .text → Fits kind (.text s)
  | label {l : Label} : kind = .address → Fits kind (.label l)

/-- The text of an operand without the space before it. -/
def field : Operand → List Char
  | .none => []
  | .int n => (toString n).toList
  | .num x => (numberText x).toList
  | .text s => Quoted.encode s.toList
  | .label l => ':' :: l.name

theorem isField_field (o : Operand) : IsField (field o) := by
  cases o with
  | none => exact IsWord.isField nofun
  | int n => exact (isWord_toString n).isField
  | num x => exact (isWord_numberText x).isField
  | text s => exact isField_encode s.toList
  | label l => exact IsWord.isField (.cons (by decide) (.cons (by decide) (isWord_toDigits l.id)))

/-- A number is read as the same number. -/
theorem float?_numberText {x : Double} (h : x.isNaN = false) :
    ∃ y, Reader.float? (numberText x).toList = some y ∧ (x == y) = true := by
  have hx : IsNumber x := (isNaN_eq_false_iff x).mp h
  unfold numberText
  split
  · rename_i hwhole
    rw [Bool.and_eq_true, decide_eq_true_eq] at hwhole
    have hlimit : (1e15 : Double) = ofNat (10 ^ 15) := by decide +kernel
    have hsmall := hwhole.2
    rw [hlimit, abs_eq hx, lt_iff_rank (isNumber_ofMagnitude _ hx) (isNumber_ofNat _),
      rank_ofMagnitude _ hx, rank_ofNat] at hsmall
    have hle : magnitude x ≤ magnitude (ofNat (2 ^ 53)) := by
      have hmono := (nearestMagnitude_le_iff (m := 2 ^ 53) (by decide : 10 ^ 15 ≤ 2 ^ 53)).mpr
        (by decide)
      rw [magnitude_ofNat]
      rw [signed, if_neg Bool.false_ne_true] at hsmall
      omega
    refine ⟨_, float?_toString _, ?_⟩
    have hsame := ofInt_toInt64 hwhole.1 hle
    rw [beq_iff_rank (isNumber_ofInt _) hx] at hsame
    exact (beq_iff_rank hx (isNumber_ofInt _)).mpr hsame.symm
  · exact ⟨x, float?_plainText h, beq_self hx⟩

theorem readOperand?_field {op : Opcode} {o : Operand} (h : Fits op.operandKind o)
    (met : List Label) :
    ∃ o', readOperand? (met.map Label.name) op (field o) =
        some ((meetAll met [.instr op o]).map Label.name, o') ∧
      ∀ all, meetAll met [.instr op o] <+: all → o.ReadsAs (renumber all) op.operandKind o' := by
  cases h with
  | none hkind =>
      refine ⟨.none, ?_, fun _ _ => .none⟩
      unfold readOperand?
      rw [hkind]
      rfl
  | @int n hkind hlow hhigh =>
      refine ⟨.int n, ?_, fun _ _ => .int hkind⟩
      unfold readOperand?
      rw [hkind]
      dsimp only [field]
      rw [int64?_toString hlow hhigh]
      rfl
  | @intAsNum n hkind =>
      refine ⟨.num (ofInt n), ?_, fun _ _ => .intAsNum hkind⟩
      unfold readOperand?
      rw [hkind]
      dsimp only [field]
      rw [float?_toString]
      rfl
  | @num x hkind hnan =>
      obtain ⟨y, hread, hsame⟩ := float?_numberText hnan
      refine ⟨.num y, ?_, fun _ _ => .num hsame⟩
      unfold readOperand?
      rw [hkind]
      dsimp only [field]
      rw [hread]
      rfl
  | @text s hkind =>
      refine ⟨.text s, ?_, fun _ _ => .text⟩
      unfold readOperand?
      rw [hkind]
      dsimp only [field]
      rw [Json.readString?_encode, String.ofList_toList]
      rfl
  | @label l hkind =>
      refine ⟨.label (renumber (meet met l) l), ?_, fun all hall => ?_⟩
      · have hname := labelOf_name met l
        unfold readOperand?
        rw [hkind]
        dsimp only [field, Label.name] at hname ⊢
        simp only [hname]
        rfl
      · have hmeet : meetAll met [.instr op (.label l)] = meet met l := rfl
        rw [hmeet] at hall
        rw [renumber_eq hall (mem_meet met l)]
        exact .label

/-! ## Lines -/

/-- An operand is written as its field behind a space, if it has one. -/
theorem toList_operandText (o : Operand) :
    ((operandText o).toList = [] ∧ field o = []) ∨
      ((operandText o).toList = ' ' :: field o ∧ field o ≠ []) := by
  have hspace : ∀ text : String, (" " ++ text).toList = ' ' :: text.toList :=
    fun text => String.toList_append
  cases o with
  | none => exact .inl ⟨rfl, rfl⟩
  | int n => exact .inr ⟨hspace _, toList_toString_ne_nil n⟩
  | num x => exact .inr ⟨hspace _, toList_numberText_ne_nil x⟩
  | text s =>
      refine .inr ⟨?_, List.cons_ne_nil _ _⟩
      rw [operandText, hspace, quote, String.toList_ofList]
      rfl
  | label l =>
      refine .inr ⟨?_, List.cons_ne_nil _ _⟩
      rw [operandText, hspace, Label.toList_text]
      rfl

theorem isWord_text (l : Label) : IsWord l.text.toList := by
  rw [Label.toList_text]
  exact .cons (by decide) (.cons (by decide) (isWord_toDigits l.id))

/-- The line of an instruction: its indentation, its mnemonic, and then the operand. -/
theorem toList_itemText (op : Opcode) (o : Operand) :
    (itemText (.instr op o)).toList =
      List.replicate 4 ' ' ++ (op.mnemonic.toList ++ (operandText o).toList) := by
  rw [itemText, String.toList_append, String.toList_append, List.append_assoc]
  rfl

theorem isLine_itemText (i : Item) : IsLine (itemText i).toList := by
  cases i with
  | label l => exact (isWord_text l).isLine
  | instr op o =>
      have hspaces : IsLine (List.replicate 4 ' ') := fun c hc => by
        rw [List.eq_of_mem_replicate hc]
        decide
      rw [toList_itemText]
      refine hspaces.append ((mnemonic_spec op).1.isLine.append ?_)
      rcases toList_operandText o with ⟨h, -⟩ | ⟨h, -⟩
      · rw [h]
        exact nofun
      · rw [h]
        exact List.forall_mem_cons.mpr ⟨by decide, (isField_field o).line⟩

theorem readLine?_label (names : List (List Char)) (number : Nat) {raw : List Char} {l : Label}
    (hline : trim (stripComment .outside raw) = l.text.toList) :
    readLine? names number raw =
      .ok ((labelOf names l.name).1, some (.label (labelOf names l.name).2)) := by
  have hname : ¬ (l.name = [] ∨ l.name.any isBlank = true) := by
    have hword := isWord_text l
    rw [Label.toList_text] at hword
    rw [not_or, List.any_eq_true]
    refine ⟨List.cons_ne_nil _ _, ?_⟩
    rintro ⟨c, hc, hblank⟩
    rw [(hword c (List.mem_cons_of_mem _ hc)).1] at hblank
    cases hblank
  unfold readLine?
  rw [hline, Label.toList_text]
  simp only [if_neg hname]

/-- The line of an instruction is its mnemonic, in letters of any case, and the text of an operand. -/
theorem readLine?_instr {names names' : List (List Char)} (number : Nat) {op : Opcode}
    {o : Operand} {raw word behind text : List Char} (hne : word ≠ []) (hcolon : ':' ∉ word)
    (hop : Opcode.ofMnemonic? (String.ofList (word.map Char.toUpper)) = some op)
    (hline : trim (stripComment .outside raw) = word ++ behind)
    (hcut : cutAtBlank (word ++ behind) = (word, text))
    (h : readOperand? names op text = some (names', o)) :
    readLine? names number raw = .ok (names', some (.instr op o)) := by
  unfold readLine?
  rw [hline]
  dsimp only
  split
  · rename_i hnil
    exact absurd (List.append_eq_nil_iff.mp hnil).1 hne
  · rename_i hlabel
    obtain ⟨c, word, rfl⟩ := List.exists_cons_of_ne_nil hne
    cases hlabel
    exact absurd List.mem_cons_self hcolon
  · rw [hcut]
    dsimp only
    rw [hop]
    dsimp only
    rw [h]

/-- What is left of the line of an instruction, and its parts. -/
theorem parts_itemText (op : Opcode) (o : Operand) :
    trim (stripComment .outside (itemText (.instr op o)).toList) =
        op.mnemonic.toList ++ (operandText o).toList ∧
      cutAtBlank (op.mnemonic.toList ++ (operandText o).toList) =
        (op.mnemonic.toList, field o) := by
  obtain ⟨hword, hne, -, -⟩ := mnemonic_spec op
  have hblank : ∀ d ∈ op.mnemonic.toList, isBlank d = false := fun d hd => (hword d hd).1
  have hspaces : ∀ d ∈ List.replicate 4 ' ', isBlank d = true := fun d hd => by
    rw [List.eq_of_mem_replicate hd]
    rfl
  have hplain : ∀ d ∈ List.replicate 4 ' ', d ≠ ';' ∧ d ≠ '"' := fun d hd => by
    rw [List.eq_of_mem_replicate hd]
    decide
  have hoperand : stripComment .outside (operandText o).toList = (operandText o).toList ∧
      IsTight (op.mnemonic.toList ++ (operandText o).toList) ∧
      cutAtBlank (op.mnemonic.toList ++ (operandText o).toList) =
        (op.mnemonic.toList, field o) := by
    have hfield := isField_field o
    rcases toList_operandText o with ⟨h, hnone⟩ | ⟨h, hsome⟩
    · rw [h, List.append_nil, hnone]
      exact ⟨rfl, hword.isTight, cutAtBlank_word hblank⟩
    · rw [h]
      refine ⟨?_, ?_, cutAtBlank_append hblank hfield.tight⟩
      · exact congrArg (' ' :: ·) hfield.kept
      · have htight := hword.isTight.append hfield.tight hne hsome [' ']
        rwa [List.append_assoc] at htight
  obtain ⟨hkept, htight, hcut⟩ := hoperand
  refine ⟨?_, hcut⟩
  rw [toList_itemText, stripComment_append hplain,
    stripComment_append fun d hd => (hword d hd).2, hkept, trim_append hspaces htight]

/-! ## The whole listing -/

/-- A listing can hold the operand: an integer has 64 bits with a sign, and a number is no NaN. -/
def IsWritable : Operand → Prop
  | .int n => -2 ^ 63 ≤ n ∧ n < 2 ^ 63
  | .num x => x.isNaN = false
  | _ => True

theorem fits_of_resolve {t : Table Label Nat} {op : Opcode} {o : Operand} {i : Instruction}
    (h : resolve t op o = .ok i) (ho : IsWritable o) : Fits op.operandKind o := by
  unfold resolve at h
  generalize op.operandKind = kind at h ⊢
  cases o with
  | none =>
      cases kind <;> cases h
      exact .none rfl
  | int n =>
      cases kind <;> cases h
      · exact .int rfl ho.1 ho.2
      · exact .intAsNum rfl
  | num x =>
      cases kind <;> cases h
      exact .num rfl ho
  | text s =>
      cases kind <;> cases h
      exact .text rfl
  | label l =>
      cases kind with
      | address => exact .label rfl
      | none => cases h
      | int => cases h
      | num => cases h
      | text => cases h

theorem fits_of_resolveAll {t : Table Label Nat} {items : List Item} {is : List Instruction}
    (h : resolveAll t items = .ok is) {op : Opcode} {o : Operand} (hmem : .instr op o ∈ items)
    (ho : IsWritable o) : Fits op.operandKind o := by
  induction items generalizing is with
  | nil => cases hmem
  | cons x items ih =>
      cases x with
      | label l =>
          rcases List.mem_cons.mp hmem with heq | hmem
          · cases heq
          · exact ih h hmem
      | instr op' o' =>
          obtain ⟨i, js, hi, hrest, -⟩ := resolveAll_instr_eq_ok.mp h
          rcases List.mem_cons.mp hmem with heq | hmem
          · cases heq
            exact fits_of_resolve hi ho
          · exact ih hrest hmem

/-- The lines of items are read one after the other, each with the labels met before it. -/
theorem readLines_itemText {items : List Item}
    (hfits : ∀ op o, .instr op o ∈ items → Fits op.operandKind o) (met : List Label)
    (number : Nat) :
    ∃ items', readLines (met.map Label.name) number (items.map fun i => (itemText i).toList) =
        .ok items' ∧
      ∀ all, meetAll met items <+: all → List.Forall₂ (Item.ReadsAs (renumber all)) items items' := by
  induction items generalizing met number with
  | nil => exact ⟨[], rfl, fun _ _ => .nil⟩
  | cons i items ih =>
      have hmeet : meetAll met (i :: items) = meetAll (meetAll met [i]) items := by
        simp [meetAll, List.foldl_append]
      have hrest := fun op o hmem => hfits op o (List.mem_cons_of_mem i hmem)
      have hmet : meetAll met [i] <+: meetAll met (i :: items) := by
        rw [hmeet]
        exact prefix_foldl_meet _ _
      obtain ⟨items', hread, hreads⟩ := ih hrest (meetAll met [i]) (number + 1)
      rw [List.map_cons, readLines]
      cases i with
      | label l =>
          have hline : meetAll met [.label l] = meet met l := rfl
          rw [hline] at hread hmet
          have hfield := (isWord_text l).isField
          have htrim : trim (stripComment .outside (itemText (.label l)).toList) = l.text.toList := by
            rw [itemText, hfield.kept, trim_of_isTight hfield.tight]
          refine ⟨.label (renumber (meet met l) l) :: items', ?_, fun all hall => ?_⟩
          · rw [readLine?_label _ _ htrim, labelOf_name]
            dsimp only [bind, Except.bind]
            rw [hread]
            rfl
          · rw [renumber_eq (hmet.trans hall) (mem_meet met l)]
            exact .cons .label (hreads all (hmeet ▸ hall))
      | instr op o =>
          obtain ⟨o', hoperand, hreadsAs⟩ :=
            readOperand?_field (hfits op o List.mem_cons_self) met
          obtain ⟨-, hne, hcolon, hop⟩ := mnemonic_spec op
          obtain ⟨htrim, hcut⟩ := parts_itemText op o
          refine ⟨.instr op o' :: items', ?_, fun all hall => ?_⟩
          · rw [readLine?_instr number hne hcolon hop htrim hcut hoperand]
            dsimp only [bind, Except.bind]
            rw [hread]
            rfl
          · exact .cons (.instr (hreadsAs all (hmet.trans hall))) (hreads all (hmeet ▸ hall))

theorem lines_print (items : List Item) :
    lines (print items).toList = items.map fun i => (itemText i).toList := by
  have htext : (print items).toList =
      (items.map fun i => (itemText i).toList).flatMap (· ++ ['\n']) := by
    rw [print, String.toList_join, List.flatMap_map, List.flatMap_map]
    exact List.flatMap_congr fun i _ => String.toList_append
  rw [htext]
  refine lines_flatMap fun line hline => ?_
  obtain ⟨i, -, rfl⟩ := List.mem_map.mp hline
  exact isLine_itemText i

/-- A listing of code that assembles, with operands that a listing can hold, is read as code that
assembles to the same program. It differs in the numbering of its labels, and in integers and zeros
among its numbers. -/
theorem read_print {items : List Item} {p : Program} (hp : assemble items = .ok p)
    (hwritable : ∀ op o, .instr op o ∈ items → IsWritable o) :
    ∃ items' rename, read (print items) = .ok items' ∧
      Set.InjOn rename {l | ∃ i ∈ items, l ∈ i.labels} ∧
      List.Forall₂ (Item.ReadsAs rename) items items' ∧
      ∃ p', assemble items' = .ok p' ∧ p.Same p' := by
  have hfits : ∀ op o, .instr op o ∈ items → Fits op.operandKind o := by
    intro op o hmem
    unfold assemble at hp
    cases ht : labelAddresses 0 .empty items with
    | error e => simp [ht, bind, Except.bind] at hp
    | ok t =>
        cases hcode : resolveAll t items with
        | error e => simp [ht, hcode, bind, Except.bind] at hp
        | ok code => exact fits_of_resolveAll hcode hmem (hwritable op o hmem)
  obtain ⟨items', hread, hreads⟩ := readLines_itemText hfits [] 1
  have hinj : Set.InjOn (renumber (meetAll [] items)) {l | ∃ i ∈ items, l ∈ i.labels} :=
    (injOn_renumber _).mono fun l ⟨i, hi, hl⟩ => mem_foldl_meet (List.mem_flatMap.mpr ⟨i, hi, hl⟩)
  have hitems := hreads _ List.prefix_rfl
  refine ⟨items', _, ?_, hinj, hitems, assemble_readsAs hinj hitems ?_ hp⟩
  · rw [read, lines_print]
    exact hread
  · exact fun i hi l hl => ⟨i, hi, hl⟩

/-- A loop that pushes an integer as a number, and a text with a semicolon and a quote in it. -/
theorem read_print_loop :
    let items : List Item := [.label ⟨7⟩, .instr .push (.int 3),
      .instr .pushText (.text "a;\"\n"), .instr .jump (.label ⟨7⟩)]
    assemble items = .ok ⟨[⟨.push, .num (ofInt 3)⟩, ⟨.pushText, .text "a;\"\n"⟩,
        ⟨.jump, .address 0⟩]⟩ ∧
      ∃ items' rename, read (print items) = .ok items' ∧
        Set.InjOn rename {l | ∃ i ∈ items, l ∈ i.labels} ∧
        List.Forall₂ (Item.ReadsAs rename) items items' ∧
        ∃ p', assemble items' = .ok p' ∧ Program.Same ⟨[⟨.push, .num (ofInt 3)⟩,
          ⟨.pushText, .text "a;\"\n"⟩, ⟨.jump, .address 0⟩]⟩ p' := by
  refine ⟨rfl, read_print rfl fun op o hmem => ?_⟩
  simp only [List.mem_cons, List.not_mem_nil, or_false, reduceCtorEq, false_or,
    Item.instr.injEq] at hmem
  rcases hmem with ⟨-, rfl⟩ | ⟨-, rfl⟩ | ⟨-, rfl⟩
  · exact ⟨by decide, by decide⟩
  · trivial
  · trivial

end Listing

end DiceScript
