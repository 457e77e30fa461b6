import DiceScript.Proofs.Json.Spelling

/-!
# Reading what was written

A value is written on one line or indented, and both texts are read as the same value. Only its
numbers can make a difference: they have to be in the range of the reader, and a double has to read
back.
-/

namespace DiceScript.Json

mutual

/-- What the text of a value is read as. A double without a text is written as null. -/
def written : Json → Written
  | null => .null
  | bool b => .bool b
  | int n => .int n
  | real x => if x.isFinite then .real x else .null
  | string s => .string (s.toList.flatMap Quoted.escapeChar)
  | array vs => .array (writtenItems vs)
  | object fields => .object (writtenFields fields)

def writtenItems : List Json → List Written
  | [] => []
  | v :: vs => v.written :: writtenItems vs

def writtenFields : List (String × Json) → List (List Char × Written)
  | [] => []
  | (k, v) :: fields => (k.toList.flatMap Quoted.escapeChar, v.written) :: writtenFields fields

end

mutual

/-- The numbers in the value are such that the reader keeps them. -/
def Readable : Json → Prop
  | int n => -2 ^ 63 ≤ n ∧ n < 2 ^ 64
  | real x => x.isFinite = true → ReadsBack x
  | array vs => ReadableItems vs
  | object fields => ReadableFields fields
  | _ => True

def ReadableItems : List Json → Prop
  | [] => True
  | v :: vs => v.Readable ∧ ReadableItems vs

def ReadableFields : List (String × Json) → Prop
  | [] => True
  | (_, v) :: fields => v.Readable ∧ ReadableFields fields

end

theorem writtenItems_eq_map (vs : List Json) : writtenItems vs = vs.map written := by
  induction vs with
  | nil => rfl
  | cons v vs ih => rw [writtenItems, List.map_cons, ih]

theorem readableItems_iff {vs : List Json} : ReadableItems vs ↔ ∀ v ∈ vs, v.Readable := by
  induction vs with
  | nil => simp [ReadableItems]
  | cons v vs ih => rw [ReadableItems, ih, List.forall_mem_cons]

theorem blank_nil : Blank [] := by
  intro c hc
  cases hc

theorem blank_space : Blank [' '] := by
  intro c hc
  obtain rfl := List.mem_singleton.mp hc
  rfl

theorem blank_newline (level : Nat) : Blank (newline level) := by
  intro c hc
  rcases List.mem_cons.mp hc with rfl | hc
  · rfl
  · rw [List.eq_of_mem_replicate hc]
    rfl

theorem spells_real {x : Double} (h : x.isFinite = true → ReadsBack x) :
    Spells (realText x) (real x).written := by
  rw [written]
  cases hx : x.isFinite with
  | true => exact .number (h hx)
  | false =>
      rw [realText_of_not_isFinite hx]
      exact .null

mutual

theorem spells_compact : ∀ v : Json, v.Readable → Spells (compactChars v) v.written
  | null, _ => .null
  | bool true, _ => .true
  | bool false, _ => .false
  | int _, h => .number (number?_intText h.1 h.2)
  | real _, h => spells_real h
  | string s, _ => .string s.toList
  | array [], _ => .emptyArray blank_nil
  | array (v :: vs), h =>
    @Spells.array [] _ _ blank_nil (spellsItems_compact vs h.2 (spells_compact v h.1))
  | object [], _ => .emptyObject blank_nil
  | object ((k, v) :: fields), h =>
    @Spells.object [] _ _ blank_nil (spellsFields_compact fields h.2 k (spells_compact v h.1))

theorem spellsItems_compact : ∀ vs : List Json, ReadableItems vs →
    ∀ {text : List Char} {w : Written}, Spells text w →
      SpellsItems (text ++ compactItems vs) (w :: writtenItems vs)
  | [], _, _, _, hw => .last hw blank_nil
  | v :: vs, h, _, _, hw =>
    @SpellsItems.cons _ [] [] _ _ _ hw blank_nil blank_nil
      (spellsItems_compact vs h.2 (spells_compact v h.1))

theorem spellsFields_compact : ∀ fields : List (String × Json), ReadableFields fields →
    ∀ (k : String) {text : List Char} {w : Written}, Spells text w →
      SpellsFields (stringText k ++ ':' :: (text ++ compactFields fields))
        ((k.toList.flatMap Quoted.escapeChar, w) :: writtenFields fields)
  | [], _, k, _, _, hw => .last k.toList blank_nil hw blank_nil
  | (k', v) :: fields, h, k, _, _, hw =>
    @SpellsFields.cons k.toList [] _ [] [] _ _ _ blank_nil hw blank_nil blank_nil
      (spellsFields_compact fields h.2 k' (spells_compact v h.1))

end

mutual

theorem spells_pretty (level : Nat) : ∀ v : Json, v.Readable →
    Spells (prettyChars level v) v.written
  | null, h => spells_compact null h
  | bool b, h => spells_compact (bool b) h
  | int n, h => spells_compact (int n) h
  | real x, h => spells_compact (real x) h
  | string s, h => spells_compact (string s) h
  | array [], h => spells_compact (array []) h
  | array (v :: vs), h => by
    rw [prettyChars, List.append_assoc]
    exact .array (blank_newline _) (spellsItems_pretty level vs h.2 (spells_pretty _ v h.1))
  | object [], h => spells_compact (object []) h
  | object ((k, v) :: fields), h => by
    rw [prettyChars, List.append_assoc]
    exact .object (blank_newline _) (spellsFields_pretty level fields h.2 k (spells_pretty _ v h.1))

theorem spellsItems_pretty (level : Nat) : ∀ vs : List Json, ReadableItems vs →
    ∀ {text : List Char} {w : Written}, Spells text w →
      SpellsItems (text ++ prettyItems level vs) (w :: writtenItems vs)
  | [], _, _, _, hw => .last hw (blank_newline _)
  | v :: vs, h, _, _, hw => by
    rw [prettyItems, List.append_assoc]
    exact @SpellsItems.cons _ [] _ _ _ _ hw blank_nil (blank_newline _)
      (spellsItems_pretty level vs h.2 (spells_pretty _ v h.1))

theorem spellsFields_pretty (level : Nat) : ∀ fields : List (String × Json), ReadableFields fields →
    ∀ (k : String) {text : List Char} {w : Written}, Spells text w →
      SpellsFields (stringText k ++ ':' :: ' ' :: (text ++ prettyFields level fields))
        ((k.toList.flatMap Quoted.escapeChar, w) :: writtenFields fields)
  | [], _, k, _, _, hw => @SpellsFields.last k.toList [' '] _ _ _ blank_space hw (blank_newline _)
  | (k', v) :: fields, h, k, _, _, hw => by
    rw [prettyFields, List.append_assoc]
    exact @SpellsFields.cons k.toList [' '] _ [] _ _ _ _ blank_space hw blank_nil (blank_newline _)
      (spellsFields_pretty level fields h.2 k' (spells_pretty _ v h.1))

end

/-- The text on one line and the indented one are read as what was written, whatever white space
comes behind. -/
theorem read?_layouts {v : Json} (h : v.Readable) {ws : List Char} (hws : Blank ws) :
    read? (compactChars v ++ ws) = some v.written ∧
      read? (prettyChars 0 v ++ ws) = some v.written :=
  ⟨read?_of_spells (spells_compact v h) blank_nil hws,
    read?_of_spells (spells_pretty 0 v h) blank_nil hws⟩

end DiceScript.Json
