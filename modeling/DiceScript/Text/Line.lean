import DiceScript.Text.Utf8

/-!
# Lines

A line ends at a line feed, and a carriage return just before that line feed belongs to the line
end. The last line may lack its line feed; then nothing is taken off it.
-/

namespace DiceScript

/-- Cut at the first `stop`: the items before it, and those after it when there is one. -/
def cutFirst {α : Type} [DecidableEq α] (stop : α) : List α → List α × Option (List α)
  | [] => ([], none)
  | a :: items =>
    if a = stop then ([], some items)
    else ((cutFirst stop items).map (a :: ·) id)

theorem cutFirst_length_lt {α : Type} [DecidableEq α] {stop : α} {items before after : List α}
    (h : cutFirst stop items = (before, some after)) : after.length < items.length := by
  induction items generalizing before with
  | nil => simp [cutFirst] at h
  | cons a items ih =>
    rw [cutFirst] at h
    split at h
    · simp only [Prod.mk.injEq, Option.some.injEq] at h
      rw [← h.2]
      exact Nat.lt_succ_self _
    · cases hc : cutFirst stop items with
      | mk b r =>
        rw [hc] at h
        simp only [Prod.map_apply, id_eq, Prod.mk.injEq] at h
        rw [h.2] at hc
        exact Nat.lt_succ_of_lt (ih hc)

/-- Drop one item `a` at the end. -/
def dropLast? {α : Type} [DecidableEq α] (a : α) (items : List α) : List α :=
  if items.getLast? = some a then items.dropLast else items

/-- The lines of a text, in order. A final line feed starts no further line. -/
def lines (text : List Char) : List (List Char) :=
  match _h : cutFirst '\n' text with
  | (line, some rest) => dropLast? '\r' line :: lines rest
  | ([], none) => []
  | (line, none) => [line]
termination_by text.length
decreasing_by exact cutFirst_length_lt _h

inductive LineRead where
  | line (text : String)
  | notText
  | endOfInput

/-- Read one line of a byte string. The bytes of a line that is no text are consumed too. -/
def readLine (bytes : Bytes) : LineRead × Bytes :=
  match cutFirst 10 bytes with
  | ([], none) => (.endOfInput, [])
  | (line, none) => (ofBytes line, [])
  | (line, some rest) => (ofBytes (dropLast? 13 line), rest)
where
  ofBytes (line : Bytes) : LineRead :=
    match Utf8.decode? line with
    | some text => .line text
    | none => .notText

end DiceScript
