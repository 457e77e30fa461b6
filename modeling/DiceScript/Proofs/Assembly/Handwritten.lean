import DiceScript.Proofs.Assembly.RoundTrip
import DiceScript.Proofs.Assembly.Verdict

/-!
# Listings written by hand

A listing may be laid out freely: white space around lines and between a mnemonic and its operand,
letters of either case in mnemonics, both kinds of line ends, comments of any text, and lines with
nothing else on them. What is read of each item does not depend on any of this, so all listings of
the same items are read alike.
-/

namespace DiceScript.Listing

/-! ## Free layout -/

/-- White space within a line. -/
def IsGap (gap : List Char) : Prop :=
  ∀ c ∈ gap, isBlank c = true ∧ c ≠ '\n'

instance (gap : List Char) : Decidable (IsGap gap) :=
  List.decidableBAll _ gap

/-- What may come behind the item of a line: white space, and then perhaps a comment. -/
inductive IsTail : List Char → Prop
  | gap {gap : List Char} : IsGap gap → IsTail gap
  | comment {gap text : List Char} : IsGap gap → '\n' ∉ text → IsTail (gap ++ ';' :: text)

/-- What ends a line before the rest of the text. The last line may lack it. -/
inductive EndsLine : List Char → List Char → Prop
  | feed {rest : List Char} : EndsLine rest ['\n']
  | returnFeed {rest : List Char} : EndsLine rest ['\r', '\n']
  | missing : EndsLine [] []

/-- The word is the mnemonic in letters of any case. -/
def Names (word : List Char) (op : Opcode) : Prop :=
  word.map Char.toUpper = op.mnemonic.toList

/-- What stands for an item on its line. -/
inductive Writes : Item → List Char → Prop
  | label {l : Label} : Writes (.label l) l.text.toList
  | bare {op : Opcode} {word : List Char} : Names word op → Writes (.instr op .none) word
  | operand {op : Opcode} {o : Operand} {word gap : List Char} : Names word op → o ≠ .none →
      IsGap gap → gap ≠ [] → Writes (.instr op o) (word ++ (gap ++ field o))

/-- The text lists the items, each on a line of its own, with any layout. -/
inductive Lists : List Item → List Char → Prop
  | nil : Lists [] []
  | skip {items : List Item} {tail ending rest : List Char} : IsTail tail → EndsLine rest ending →
      Lists items rest → Lists items (tail ++ (ending ++ rest))
  | item {i : Item} {items : List Item} {lead core tail ending rest : List Char} : IsGap lead →
      Writes i core → IsTail tail → EndsLine rest ending → Lists items rest →
      Lists (i :: items) (lead ++ core ++ (tail ++ (ending ++ rest)))

/-! ## One line -/

section Lines

variable {gap tail core word : List Char} {op : Opcode} {i : Item}

theorem IsGap.blank (h : IsGap gap) : ∀ c ∈ gap, isBlank c = true :=
  fun c hc => (h c hc).1

theorem IsGap.kept (h : IsGap gap) (rest : List Char) :
    stripComment .outside (gap ++ rest) = gap ++ stripComment .outside rest := by
  refine stripComment_append (fun c hc => ⟨?_, ?_⟩) rest
  · rintro rfl
    exact absurd (h _ hc).1 (by decide)
  · rintro rfl
    exact absurd (h _ hc).1 (by decide)

theorem toUpper_of_isBlank {c : Char} (hc : isBlank c = true) : c.toUpper = c := by
  refine dif_neg fun ⟨hlow, hhigh⟩ => ?_
  have hlow : 97 ≤ c.toNat := hlow
  have hhigh : c.toNat ≤ 122 := hhigh
  simp [isBlank] at hc
  omega

/-- In letters of any case a mnemonic is a word. -/
theorem Names.spec (h : Names word op) : IsWord word ∧ word ≠ [] ∧ ':' ∉ word := by
  obtain ⟨hword, hne, hcolon, -⟩ := mnemonic_spec op
  have hupper : ∀ c ∈ word, c.toUpper ∈ op.mnemonic.toList := by
    intro c hc
    rw [← h]
    exact List.mem_map_of_mem hc
  refine ⟨fun c hc => ⟨?_, ?_, ?_⟩, ?_, ?_⟩
  · cases hblank : isBlank c with
    | false => rfl
    | true =>
        have hkept := (hword _ (hupper c hc)).1
        rw [toUpper_of_isBlank hblank, hblank] at hkept
        exact hkept
  · rintro rfl
    exact (hword _ (hupper _ hc)).2.1 (by decide)
  · rintro rfl
    exact (hword _ (hupper _ hc)).2.2 (by decide)
  · rintro rfl
    exact hne h.symm
  · intro hc
    exact hcolon (hupper _ hc)

theorem names_mnemonic (op : Opcode) : Names op.mnemonic.toList op := by
  have hall : ∀ e ∈ Opcode.table, e.2.1.toList.map Char.toUpper = e.2.1.toList := by
    decide +kernel
  exact hall (op, op.mnemonic, op.byte) (mem_table op)

theorem Names.opcode (h : Names word op) :
    Opcode.ofMnemonic? (String.ofList (word.map Char.toUpper)) = some op := by
  rw [h, ← names_mnemonic op]
  exact (mnemonic_spec op).2.2.2

theorem stripComment_field (o : Operand) (rest : List Char) :
    stripComment .outside (field o ++ rest) = field o ++ stripComment .outside rest := by
  have hword : ∀ {text : List Char}, IsWord text →
      stripComment .outside (text ++ rest) = text ++ stripComment .outside rest :=
    fun h => stripComment_append (fun c hc => (h c hc).2) rest
  cases o with
  | none => exact hword nofun
  | int n => exact hword (isWord_toString n)
  | num x => exact hword (isWord_numberText x)
  | text s => exact stripComment_encode_append s.toList rest
  | label l => exact hword (.cons (by decide) (.cons (by decide) (isWord_toDigits l.id)))

/-- What stands for an item is kept, whatever comes behind it on its line. -/
theorem Writes.kept (h : Writes i core) (rest : List Char) :
    stripComment .outside (core ++ rest) = core ++ stripComment .outside rest := by
  cases h with
  | @label l => exact stripComment_append (fun c hc => (isWord_text l c hc).2) rest
  | bare hname => exact stripComment_append (fun c hc => (hname.spec.1 c hc).2) rest
  | operand hname _ hgap _ =>
      rw [List.append_assoc, stripComment_append fun c hc => (hname.spec.1 c hc).2,
        List.append_assoc, hgap.kept, stripComment_field, List.append_assoc,
        List.append_assoc]

theorem field_ne_nil {o : Operand} (h : o ≠ .none) : field o ≠ [] := by
  cases o with
  | none => exact absurd rfl h
  | int n => exact toList_toString_ne_nil n
  | num x => exact toList_numberText_ne_nil x
  | text s => exact List.cons_ne_nil _ _
  | label l => exact List.cons_ne_nil _ _

theorem Writes.ne_nil (h : Writes i core) : core ≠ [] := by
  cases h with
  | label =>
      rw [Label.toList_text]
      exact List.cons_ne_nil _ _
  | bare hname => exact hname.spec.2.1
  | operand hname _ _ _ => exact fun hnil => hname.spec.2.1 (List.append_eq_nil_iff.mp hnil).1

theorem Writes.isTight (h : Writes i core) : IsTight core := by
  cases h with
  | @label l => exact (isWord_text l).isTight
  | bare hname => exact hname.spec.1.isTight
  | @operand op o word gap hname hsome hgap _ =>
      rw [← List.append_assoc]
      exact hname.spec.1.isTight.append (isField_field o).tight hname.spec.2.1
        (field_ne_nil hsome) gap

theorem Writes.no_feed (h : Writes i core) : '\n' ∉ core := by
  cases h with
  | @label l => exact fun hmem => ((isWord_text l).isLine _ hmem).1 rfl
  | bare hname => exact fun hmem => (hname.spec.1.isLine _ hmem).1 rfl
  | @operand op o word gap hname _ hgap _ =>
      simp only [List.mem_append, not_or]
      exact ⟨fun hmem => (hname.spec.1.isLine _ hmem).1 rfl, fun hmem => (hgap _ hmem).2 rfl,
        fun hmem => ((isField_field o).line _ hmem).1 rfl⟩

theorem IsTail.no_feed (h : IsTail tail) : '\n' ∉ tail := by
  cases h with
  | gap hgap => exact fun hmem => (hgap _ hmem).2 rfl
  | comment hgap htext =>
      simp only [List.mem_append, List.mem_cons, not_or]
      exact ⟨fun hmem => (hgap _ hmem).2 rfl, by decide, htext⟩

/-- Of what comes behind an item only white space is left. -/
theorem IsTail.blank_stripComment (h : IsTail tail) :
    ∀ c ∈ stripComment .outside tail, isBlank c = true := by
  cases h with
  | gap hgap =>
      have hkept := hgap.kept []
      rw [List.append_nil, stripComment, List.append_nil] at hkept
      rw [hkept]
      exact hgap.blank
  | comment hgap _ =>
      rw [hgap.kept, stripComment, if_pos rfl, List.append_nil]
      exact hgap.blank

theorem IsTail.dropLast (h : IsTail tail) : IsTail (dropLast? '\r' tail) := by
  unfold dropLast?
  split
  · rename_i hlast
    cases h with
    | gap hgap => exact .gap fun c hc => hgap c (List.mem_of_mem_dropLast hc)
    | @comment gap text hgap htext =>
        cases text with
        | nil => simp at hlast
        | cons d text =>
            rw [List.dropLast_append_of_ne_nil (List.cons_ne_nil _ _),
              List.dropLast_cons_of_ne_nil (List.cons_ne_nil _ _)]
            exact .comment hgap fun hmem => htext (List.mem_of_mem_dropLast hmem)
  · exact h

/-- The line that ends behind a tail, whichever line end it has. -/
theorem lines_tail {before ending rest : List Char} (hfeed : '\n' ∉ before)
    (hlast : ∀ c ∈ before.getLast?, c ≠ '\r') (htail : IsTail tail) (hend : EndsLine rest ending)
    (hne : before ++ tail ++ ending ≠ []) : ∃ tail', IsTail tail' ∧
      lines (before ++ (tail ++ (ending ++ rest))) = (before ++ tail') :: lines rest := by
  have hline : '\n' ∉ before ++ tail := by
    simp only [List.mem_append, not_or]
    exact ⟨hfeed, htail.no_feed⟩
  cases hend with
  | feed =>
      refine ⟨dropLast? '\r' tail, htail.dropLast, ?_⟩
      rw [← List.append_assoc, List.singleton_append, lines_feed hline, dropLast?_append hlast]
  | returnFeed =>
      refine ⟨tail, htail, ?_⟩
      have hreturn : '\n' ∉ before ++ tail ++ ['\r'] := by
        simp only [List.mem_append, not_or] at hline ⊢
        exact ⟨hline, by decide⟩
      have hlines := lines_feed hreturn rest
      rw [dropLast?, if_pos (by simp), List.dropLast_concat] at hlines
      rw [← hlines]
      simp only [List.append_assoc, List.cons_append, List.nil_append]
  | missing =>
      rw [List.append_nil] at hne
      refine ⟨tail, htail, ?_⟩
      rw [lines_nil, List.append_nil, List.append_nil, lines_last hline hne]

/-- What stands for an item ends a line only behind its tail. -/
theorem Writes.lines_eq (h : Writes i core) {lead ending rest : List Char} (hlead : IsGap lead)
    (htail : IsTail tail) (hend : EndsLine rest ending) : ∃ tail', IsTail tail' ∧
      lines (lead ++ core ++ (tail ++ (ending ++ rest))) =
        (lead ++ core ++ tail') :: lines rest := by
  have hfeed : '\n' ∉ lead ++ core := by
    rw [List.mem_append, not_or]
    exact ⟨fun hmem => (hlead _ hmem).2 rfl, h.no_feed⟩
  have hlast : ∀ c ∈ (lead ++ core).getLast?, c ≠ '\r' := by
    rw [List.getLast?_append_of_ne_nil _ h.ne_nil]
    rintro c hc rfl
    exact absurd (h.isTight.last _ hc) (by decide)
  have hne : lead ++ core ++ tail ++ ending ≠ [] := by
    simp [h.ne_nil]
  exact lines_tail hfeed hlast htail hend hne

/-- White space and a comment leave nothing of a line. -/
theorem IsTail.trim_eq (h : IsTail tail) : trim (stripComment .outside tail) = [] := by
  have hnil : IsTight [] := isTight_of_forall nofun
  have hnone : ∀ c ∈ [], isBlank c = true := nofun
  exact trim_between hnone hnil h.blank_stripComment

/-- Without white space and comment, what stands for an item is left of its line. -/
theorem Writes.trim_eq (h : Writes i core) {lead : List Char} (hlead : IsGap lead)
    (htail : IsTail tail) :
    trim (stripComment .outside (lead ++ core ++ tail)) = core := by
  rw [List.append_assoc, hlead.kept, h.kept]
  exact trim_between hlead.blank h.isTight htail.blank_stripComment

/-- The line of an instruction falls into its mnemonic and the text of its operand. -/
theorem Writes.parts {o : Operand} (h : Writes (.instr op o) core) : ∃ word behind,
    core = word ++ behind ∧ Names word op ∧ cutAtBlank (word ++ behind) = (word, field o) := by
  cases h with
  | @bare _ word hname =>
      refine ⟨core, [], (List.append_nil core).symm, hname, ?_⟩
      rw [List.append_nil, cutAtBlank_word fun c hc => (hname.spec.1 c hc).1]
      rfl
  | @operand _ _ word gap hname _ hgap hne =>
      exact ⟨word, gap ++ field o, rfl, hname,
        cutAtBlank_gap (fun c hc => (hname.spec.1 c hc).1) hne hgap.blank (isField_field o).tight⟩

end Lines

/-! ## What is read of items -/

/-- What is read of an item, and the label names met so far. -/
def readItem? (names : List (List Char)) : Item → Option (List (List Char) × Item)
  | .label l => some ((labelOf names l.name).1, .label (labelOf names l.name).2)
  | .instr op o => (readOperand? names op (field o)).map fun r => (r.1, .instr op r.2)

def readItems? (names : List (List Char)) : List Item → Option (List Item)
  | [] => some []
  | i :: items =>
    match readItem? names i with
    | none => none
    | some (names, i) => (readItems? names items).map (i :: ·)

section Reading

variable {names names' : List (List Char)} {items items' : List Item}

theorem readLine?_of_writes {i i' : Item} {core raw : List Char} (h : Writes i core)
    (hline : trim (stripComment .outside raw) = core) (hread : readItem? names i = some (names', i'))
    (number : Nat) : readLine? names number raw = .ok (names', some i') := by
  cases i with
  | label l =>
      cases h
      cases hread
      exact readLine?_label names number hline
  | instr op o =>
      obtain ⟨⟨names', o'⟩, hoperand, heq⟩ := Option.map_eq_some_iff.mp hread
      cases heq
      obtain ⟨word, behind, rfl, hname, hcut⟩ := h.parts
      obtain ⟨-, hne, hcolon⟩ := hname.spec
      exact readLine?_instr number hne hcolon hname.opcode hline hcut hoperand

/-- A text that lists the items is read as the items, however it is laid out. -/
theorem readLines_of_lists {text : List Char} (h : Lists items text)
    (hread : readItems? names items = some items') (number : Nat) :
    readLines names number (lines text) = .ok items' := by
  induction h generalizing names items' number with
  | nil =>
      cases hread
      rw [lines_nil]
      rfl
  | @skip items tail ending rest htail hend _ ih =>
      by_cases hnone : tail ++ ending = []
      · rw [← List.append_assoc, hnone, List.nil_append]
        exact ih hread number
      have hfeed : '\n' ∉ ([] : List Char) := List.not_mem_nil
      have hlast : ∀ c ∈ ([] : List Char).getLast?, c ≠ '\r' := by simp
      obtain ⟨tail', htail', hlines⟩ := lines_tail hfeed hlast htail hend hnone
      have hline : readLine? names number tail' = .ok (names, none) := by
        unfold readLine?
        rw [htail'.trim_eq]
      rw [List.nil_append, List.nil_append] at hlines
      rw [hlines, readLines, hline]
      dsimp only [bind, Except.bind]
      rw [ih hread]
      rfl
  | @item i items lead core tail ending rest hlead hwrites htail hend _ ih =>
      rw [readItems?] at hread
      cases hi : readItem? names i with
      | none => simp [hi] at hread
      | some r =>
          obtain ⟨names', i'⟩ := r
          rw [hi] at hread
          obtain ⟨rest', hrest, rfl⟩ := Option.map_eq_some_iff.mp hread
          obtain ⟨tail', htail', hlines⟩ := hwrites.lines_eq hlead htail hend
          have hline := readLine?_of_writes hwrites (hwrites.trim_eq hlead htail') hi number
          rw [hlines, readLines, hline]
          dsimp only [bind, Except.bind]
          rw [ih hrest]
          rfl

theorem exists_float?_numberText (x : Double) :
    ∃ y, Reader.float? (numberText x).toList = some y := by
  cases hx : x.isNaN with
  | false =>
      obtain ⟨y, hread, -⟩ := float?_numberText hx
      exact ⟨y, hread⟩
  | true =>
      rw [Binary64.isNaN_eq, decide_eq_true_eq] at hx
      have hread : Binary64.read x = .nan := if_pos hx
      have htext : numberText x = "NaN" := by
        rw [numberText, Binary64.isWhole, hread, plainText, hread]
        rfl
      rw [htext]
      exact ⟨_, rfl⟩

/-- What is listed of an operand can be read back, also what is no number. -/
theorem exists_readOperand? {op : Opcode} {o : Operand} (htakes : op.operandKind.Takes o)
    (hword : ∀ n, o = .int n → -2 ^ 63 ≤ n ∧ n < 2 ^ 63) (names : List (List Char)) :
    ∃ r, readOperand? names op (field o) = some r := by
  unfold readOperand?
  generalize op.operandKind = kind at htakes
  cases htakes with
  | none => exact ⟨_, rfl⟩
  | @int n =>
      obtain ⟨hlow, hhigh⟩ := hword n rfl
      dsimp only [field]
      rw [int64?_toString hlow hhigh]
      exact ⟨_, rfl⟩
  | @num x =>
      obtain ⟨y, hread⟩ := exists_float?_numberText x
      dsimp only [field]
      rw [hread]
      exact ⟨_, rfl⟩
  | intAsNum =>
      dsimp only [field]
      rw [float?_toString]
      exact ⟨_, rfl⟩
  | text =>
      dsimp only [field]
      rw [Json.readString?_encode]
      exact ⟨_, rfl⟩
  | label => exact ⟨_, rfl⟩

theorem exists_readItems?
    (h : ∀ op o, .instr op o ∈ items → ∀ names, ∃ r, readOperand? names op (field o) = some r)
    (names : List (List Char)) : ∃ items', readItems? names items = some items' := by
  induction items generalizing names with
  | nil => exact ⟨[], rfl⟩
  | cons i items ih =>
      have hitem : ∃ r, readItem? names i = some r := by
        cases i with
        | label l => exact ⟨_, rfl⟩
        | instr op o =>
            obtain ⟨r, hr⟩ := h op o List.mem_cons_self names
            exact ⟨_, congrArg (Option.map _) hr⟩
      obtain ⟨⟨names', i'⟩, hi⟩ := hitem
      obtain ⟨items', hitems⟩ := ih (fun op o hmem => h op o (List.mem_cons_of_mem i hmem)) names'
      refine ⟨i' :: items', ?_⟩
      rw [readItems?, hi]
      dsimp only
      rw [hitems]
      rfl

end Reading

/-! ## Listings of the same items -/

theorem writes_operandText (op : Opcode) (o : Operand) :
    Writes (.instr op o) (op.mnemonic.toList ++ (operandText o).toList) := by
  by_cases ho : o = .none
  · subst ho
    have hword : (operandText .none).toList = [] := rfl
    rw [hword, List.append_nil]
    exact .bare (names_mnemonic op)
  · rcases toList_operandText o with ⟨-, hnone⟩ | ⟨htext, -⟩
    · exact absurd hnone (field_ne_nil ho)
    · have hgap : IsGap [' '] := by decide
      have hwrites := Writes.operand (names_mnemonic op) ho hgap (List.cons_ne_nil _ _)
      rw [htext]
      exact hwrites

/-- A printed listing has one of the layouts. -/
theorem lists_print (items : List Item) : Lists items (print items).toList := by
  have hspaces : IsGap (List.replicate 4 ' ') := fun c hc => by
    rw [List.eq_of_mem_replicate hc]
    decide
  have hnone : IsGap [] := nofun
  induction items with
  | nil => exact .nil
  | cons i items ih =>
      have htext : (print (i :: items)).toList =
          (itemText i).toList ++ ([] ++ (['\n'] ++ (print items).toList)) := by
        simp [print, String.toList_join, String.toList_append]
      rw [htext]
      cases i with
      | label l => exact .item hnone .label (.gap hnone) .feed ih
      | instr op o =>
          rw [toList_itemText]
          exact .item hspaces (writes_operandText op o) (.gap hnone) .feed ih

/-- All listings of code that assembles are read as the printed one is, with no error. -/
theorem read_of_lists {items : List Item} {p : Program} (hp : assemble items = .ok p)
    (hword : ∀ op n, .instr op (.int n) ∈ items → -2 ^ 63 ≤ n ∧ n < 2 ^ 63) :
    ∃ items', read (print items) = .ok items' ∧
      ∀ text, Lists items text.toList → read text = .ok items' := by
  have hoperands : ∀ op o, .instr op o ∈ items →
      ∀ names, ∃ r, readOperand? names op (field o) = some r := by
    intro op o hmem names
    refine exists_readOperand? (takes_of_assemble hp hmem) ?_ names
    rintro n rfl
    exact hword op n hmem
  obtain ⟨items', hitems⟩ := exists_readItems? hoperands []
  exact ⟨items', readLines_of_lists (lists_print items) hitems 1,
    fun text htext => readLines_of_lists htext hitems 1⟩

/-- Letters of both cases, both line ends, and comments with quotes, backslashes and semicolons. -/
theorem read_of_lists_comments :
    let items : List Item :=
      [.label ⟨3⟩, .instr .pushText (.text "a;\"\\"), .instr .dup (.int (-1)),
        .instr .jump (.label ⟨3⟩)]
    let text := " ; \"start\r\n\t:L3 ;; \\\n\n" ++
      "  pushStr\t\"a;\\\"\\\\\" ; \";\\\n dup  -1\t\r\nJmp  :L3"
    ∃ items', read (print items) = .ok items' ∧ read text = .ok items' := by
  intro items text
  have hp : assemble items =
      .ok ⟨[⟨.pushText, .text "a;\"\\"⟩, ⟨.dup, .int (-1)⟩, ⟨.jump, .address 0⟩]⟩ := rfl
  have hword : ∀ op n, .instr op (.int n) ∈ items → -2 ^ 63 ≤ n ∧ n < 2 ^ 63 := by
    intro op n hmem
    simp only [items, List.mem_cons, List.not_mem_nil, or_false, reduceCtorEq, false_or,
      Item.instr.injEq, Operand.int.injEq, and_false] at hmem
    omega
  obtain ⟨items', hprint, hread⟩ := read_of_lists hp hword
  refine ⟨items', hprint, hread text ?_⟩
  have hnone : IsGap [] := nofun
  have hspace : IsGap [' '] := by decide
  have hspaces : IsGap [' ', ' '] := by decide
  have htab : IsGap ['\t'] := by decide
  have hstart : '\n' ∉ " \"start".toList := by decide
  have hbackslash : '\n' ∉ "; \\".toList := by decide
  have hquote : '\n' ∉ " \";\\".toList := by decide
  have hjump : Lists [.instr .jump (.label ⟨3⟩)] _ :=
    .item hnone (.operand (rfl : Names "Jmp".toList .jump) nofun hspaces nofun) (.gap hnone)
      .missing .nil
  have hdup : Lists (.instr .dup (.int (-1)) :: _) _ :=
    .item hspace (.operand (rfl : Names "dup".toList .dup) nofun hspaces nofun) (.gap htab)
      .returnFeed hjump
  have hpush : Lists (.instr .pushText (.text "a;\"\\") :: _) _ :=
    .item hspaces (.operand (rfl : Names "pushStr".toList .pushText) nofun htab nofun)
      (.comment hspace hquote) .feed hdup
  have hlists : Lists items _ :=
    .skip (.comment hspace hstart) .returnFeed
      (.item htab .label (.comment hspace hbackslash) .feed (.skip (.gap hnone) .feed hpush))
  convert hlists using 1
  decide +kernel

end DiceScript.Listing
