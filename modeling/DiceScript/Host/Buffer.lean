import DiceScript.Text.Utf8

/-!
# Buffered writing

What is written to a file is held back while it fits a buffer. Bytes leave the buffer in the order
in which they came (`add_append_held`), and no more than its capacity is ever held back
(`size_held_add_le`).
-/

namespace DiceScript

structure Buffer where
  held : Array UInt8

namespace Buffer

def capacity : Nat := 8192

def empty : Buffer :=
  ⟨#[]⟩

/-- Add bytes that stay together; the first part is what leaves the buffer. What is held leaves when
the new bytes do not fit behind it, and bytes that fill a buffer alone are never held back. -/
def add (b : Buffer) (bytes : Bytes) : Bytes × Buffer :=
  let (leaving, held) :=
    if capacity < b.held.size + bytes.length then (b.held.toList, #[]) else ([], b.held)
  if capacity ≤ bytes.length then (leaving ++ bytes, ⟨held⟩) else (leaving, ⟨held ++ bytes⟩)

theorem add_append_held (b : Buffer) (bytes : Bytes) :
    (b.add bytes).1 ++ (b.add bytes).2.held.toList = b.held.toList ++ bytes := by
  by_cases hs : capacity < b.held.size + bytes.length
  · by_cases hb : capacity ≤ bytes.length <;> simp [add, hs, hb]
  · by_cases hb : capacity ≤ bytes.length
    · have : b.held = #[] := Array.eq_empty_of_size_eq_zero (by omega)
      simp [add, hb, this]
    · simp [add, hs, hb]

theorem size_held_add_le (b : Buffer) (bytes : Bytes) : (b.add bytes).2.held.size ≤ capacity := by
  have hsize : (b.held ++ bytes).size = b.held.size + bytes.length := by
    rw [← Array.length_toList]
    simp
  by_cases hs : capacity < b.held.size + bytes.length
  · by_cases hb : capacity ≤ bytes.length <;> simp [add, hs, hb]
    exact Nat.le_of_not_le hb
  · by_cases hb : capacity ≤ bytes.length <;> simp [add, hs, hb] <;> omega

/-- Add pieces one after the other; the first part is what leaves the buffer. -/
def addAll (b : Buffer) (pieces : List Bytes) : Array UInt8 × Buffer :=
  pieces.foldl (fun (out, b) piece =>
    let (leaving, b) := b.add piece
    (out ++ leaving, b)) (#[], b)

/-- Add pieces up to the first for which something has to leave the buffer. Were they all added? -/
def addHeld (b : Buffer) : List Bytes → Bool × Buffer
  | [] => (true, b)
  | piece :: pieces =>
    let (leaving, added) := b.add piece
    if leaving.isEmpty then added.addHeld pieces else (false, b)

end Buffer

end DiceScript
