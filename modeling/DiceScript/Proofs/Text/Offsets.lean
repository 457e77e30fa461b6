import DiceScript.Source

/-!
# Offsets and slices

Every byte offset on a character boundary cuts a text in one way into what stands before and after
it. The slice between two such offsets is what stands between the cuts.
-/

namespace DiceScript

theorem Position.advance_append (p : Position) (xs ys : List Char) :
    p.advance (xs ++ ys) = (p.advance xs).advance ys :=
  List.foldl_append

@[simp] theorem byteLength_nil : byteLength [] = 0 := rfl

theorem byteLength_cons (c : Char) (text : List Char) :
    byteLength (c :: text) = c.utf8Size + byteLength text := rfl

theorem byteLength_append (xs ys : List Char) :
    byteLength (xs ++ ys) = byteLength xs + byteLength ys := by
  induction xs with
  | nil => simp [byteLength]
  | cons c xs ih => rw [List.cons_append, byteLength_cons, byteLength_cons, ih, Nat.add_assoc]

theorem byteLength_pos {text : List Char} (h : text ≠ []) : 0 < byteLength text := by
  cases text with
  | nil => exact absurd rfl h
  | cons c text => exact Nat.add_pos_left c.utf8Size_pos _

theorem eq_nil_of_byteLength {text : List Char} (h : byteLength text = 0) : text = [] := by
  cases text with
  | nil => rfl
  | cons c text => exact absurd h (Nat.ne_of_gt (byteLength_pos (List.cons_ne_nil c text)))

/-- A cut at a later offset lies in the second part of a cut at an earlier one. -/
theorem exists_between {before after xs ys : List Char} (h : before ++ after = xs ++ ys)
    (hle : byteLength xs ≤ byteLength before) : ∃ zs, before = xs ++ zs ∧ ys = zs ++ after := by
  rcases List.append_eq_append_iff.mp h with ⟨zs, rfl, rfl⟩ | ⟨zs, rfl, rfl⟩
  · rw [byteLength_append] at hle
    obtain rfl : zs = [] := eq_nil_of_byteLength (by omega)
    exact ⟨[], by simp, rfl⟩
  · exact ⟨zs, rfl, rfl⟩

/-- Two cuts at one offset are the same. -/
theorem eq_of_byteLength_eq {before after xs ys : List Char} (h : before ++ after = xs ++ ys)
    (heq : byteLength before = byteLength xs) : before = xs ∧ after = ys := by
  obtain ⟨zs, rfl, rfl⟩ := exists_between h (Nat.le_of_eq heq.symm)
  rw [byteLength_append] at heq
  obtain rfl : zs = [] := eq_nil_of_byteLength (by omega)
  simp

theorem dropBytes?_append (xs ys : List Char) :
    dropBytes? (byteLength xs) (xs ++ ys) = some ys := by
  induction xs with
  | nil => simp [dropBytes?]
  | cons c xs ih =>
      rw [List.cons_append, dropBytes?, byteLength_cons, if_pos (Nat.le_add_right _ _),
        Nat.add_sub_cancel_left, ih]
      exact Nat.ne_of_gt (byteLength_pos (List.cons_ne_nil c xs))

theorem takeBytes?_append (xs ys : List Char) :
    takeBytes? (byteLength xs) (xs ++ ys) = some xs := by
  induction xs with
  | nil => simp [takeBytes?]
  | cons c xs ih =>
      rw [List.cons_append, takeBytes?, byteLength_cons, if_pos (Nat.le_add_right _ _),
        Nat.add_sub_cancel_left, ih]
      · rfl
      · exact Nat.ne_of_gt (byteLength_pos (List.cons_ne_nil c xs))

/-- The slice between two cuts. -/
theorem slice?_append (before text after : List Char) :
    slice? (before ++ (text ++ after)) (byteLength before) (byteLength before + byteLength text) =
      some text := by
  rw [slice?, if_pos (Nat.le_add_right _ _), dropBytes?_append, Option.bind_some,
    Nat.add_sub_cancel_left, takeBytes?_append]

end DiceScript
