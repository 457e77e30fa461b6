/-!
# Tables

Finite maps as lists of entries in the order in which their keys were first inserted.
-/

namespace DiceScript

structure Table (κ α : Type) where
  entries : List (κ × α)
deriving Repr

namespace Table

variable {κ α : Type} [DecidableEq κ]

def empty : Table κ α :=
  ⟨[]⟩

def find? (t : Table κ α) (k : κ) : Option α :=
  (t.entries.find? (·.1 = k)).map (·.2)

/-- Replace the value at a key in the entries, or append an entry. -/
def insertInto (k : κ) (a : α) : List (κ × α) → List (κ × α)
  | [] => [(k, a)]
  | e :: es => if e.1 = k then (k, a) :: es else e :: insertInto k a es

def insert (t : Table κ α) (k : κ) (a : α) : Table κ α :=
  ⟨insertInto k a t.entries⟩

def erase (t : Table κ α) (k : κ) : Table κ α :=
  ⟨t.entries.filter (·.1 ≠ k)⟩

@[simp] theorem find?_empty (k : κ) : (empty : Table κ α).find? k = none := rfl

theorem find?_insert (t : Table κ α) (k k' : κ) (a : α) :
    (t.insert k a).find? k' = if k = k' then some a else t.find? k' := by
  obtain ⟨es⟩ := t
  simp only [find?, insert]
  induction es with
  | nil => by_cases h : k = k' <;> simp [insertInto, h]
  | cons e es ih =>
    rw [insertInto]
    split
    · rename_i he
      by_cases h : k = k' <;> simp_all
    · rename_i he
      by_cases h' : e.1 = k'
      · have : k ≠ k' := fun hk => he (h'.trans hk.symm)
        simp [h', this]
      · simp only [List.find?_cons, h', decide_false]
        exact ih

@[simp] theorem find?_insert_self (t : Table κ α) (k : κ) (a : α) :
    (t.insert k a).find? k = some a := by
  rw [find?_insert, if_pos rfl]

theorem find?_erase (t : Table κ α) (k k' : κ) :
    (t.erase k).find? k' = if k = k' then none else t.find? k' := by
  obtain ⟨es⟩ := t
  simp only [find?, erase]
  induction es with
  | nil => simp
  | cons e es ih =>
    by_cases he : e.1 = k
    · rw [List.filter_cons_of_neg (by simpa using he), ih]
      by_cases h : k = k' <;> simp_all
    · rw [List.filter_cons_of_pos (by simpa using he)]
      by_cases h' : e.1 = k'
      · have : k ≠ k' := fun hk => he (h'.trans hk.symm)
        simp [h', this]
      · simp only [List.find?_cons, h', decide_false]
        exact ih

end Table

end DiceScript
