import Mathlib
import DiceScript.Text.Blank
import DiceScript.Text.Line

/-!
# Lines and their fields

Lines that are written one below the other are read as those lines, and a text without white space
at its ends is what trimming leaves of it.
-/

namespace DiceScript

/-! ## Lines -/

theorem cutFirst_append {α : Type} [DecidableEq α] {stop : α} {before : List α}
    (h : stop ∉ before) (after : List α) :
    cutFirst stop (before ++ stop :: after) = (before, some after) := by
  induction before with
  | nil => rw [List.nil_append, cutFirst, if_pos rfl]
  | cons a before ih =>
      rw [List.mem_cons, not_or] at h
      rw [List.cons_append, cutFirst, if_neg (Ne.symm h.1), ih h.2]
      rfl

theorem cutFirst_of_notMem {α : Type} [DecidableEq α] {stop : α} {items : List α}
    (h : stop ∉ items) : cutFirst stop items = (items, none) := by
  induction items with
  | nil => rfl
  | cons a items ih =>
      rw [List.mem_cons, not_or] at h
      rw [cutFirst, if_neg (Ne.symm h.1), ih h.2]
      rfl

theorem dropLast?_append {α : Type} [DecidableEq α] {a : α} {xs : List α}
    (h : ∀ x ∈ xs.getLast?, x ≠ a) (ys : List α) :
    dropLast? a (xs ++ ys) = xs ++ dropLast? a ys := by
  unfold dropLast?
  cases ys with
  | nil =>
      have hlast : ¬ xs.getLast? = some a := fun hlast => h a hlast rfl
      rw [List.append_nil, if_neg hlast, if_neg (by simp), List.append_nil]
  | cons y ys =>
      rw [List.getLast?_append_of_ne_nil _ (List.cons_ne_nil _ _),
        List.dropLast_append_of_ne_nil (List.cons_ne_nil _ _)]
      split <;> rfl

/-- The text can stand on one line. -/
def IsLine (text : List Char) : Prop :=
  ∀ c ∈ text, c ≠ '\n' ∧ c ≠ '\r'

theorem IsLine.append {xs ys : List Char} (hxs : IsLine xs) (hys : IsLine ys) : IsLine (xs ++ ys) :=
  List.forall_mem_append.mpr ⟨hxs, hys⟩

theorem lines_nil : lines [] = [] := by
  rw [lines]
  rfl

/-- A line goes up to its line feed, without a carriage return before that. -/
theorem lines_feed {line : List Char} (h : '\n' ∉ line) (rest : List Char) :
    lines (line ++ '\n' :: rest) = dropLast? '\r' line :: lines rest := by
  have hcut := cutFirst_append h rest
  rw [lines]
  split
  · rename_i heq
    rw [hcut] at heq
    cases heq
    rfl
  · rename_i heq
    rw [hcut] at heq
    cases heq
  · rename_i heq
    rw [hcut] at heq
    cases heq

theorem lines_cons {line : List Char} (h : IsLine line) (rest : List Char) :
    lines (line ++ '\n' :: rest) = line :: lines rest := by
  have hlast : dropLast? '\r' line = line := by
    refine if_neg fun hlast => ?_
    exact (h _ (List.mem_of_getLast? hlast)).2 rfl
  rw [lines_feed (fun hmem => (h _ hmem).1 rfl), hlast]

theorem lines_last {line : List Char} (h : '\n' ∉ line) (hne : line ≠ []) :
    lines line = [line] := by
  have hcut := cutFirst_of_notMem h
  rw [lines]
  split
  · rename_i heq
    rw [hcut] at heq
    cases heq
  · rename_i heq
    rw [hcut] at heq
    cases heq
    exact absurd rfl hne
  · rename_i heq
    rw [hcut] at heq
    cases heq
    rfl

theorem lines_flatMap {written : List (List Char)} (h : ∀ line ∈ written, IsLine line) :
    lines (written.flatMap (· ++ ['\n'])) = written := by
  induction written with
  | nil => exact lines_nil
  | cons line written ih =>
      obtain ⟨hline, hwritten⟩ := List.forall_mem_cons.mp h
      rw [List.flatMap_cons, List.append_assoc, List.singleton_append, lines_cons hline, ih hwritten]

/-! ## White space -/

/-- No white space stands at either end. -/
structure IsTight (text : List Char) : Prop where
  head : ∀ c ∈ text.head?, isBlank c = false
  last : ∀ c ∈ text.getLast?, isBlank c = false

theorem isTight_of_forall {text : List Char} (h : ∀ c ∈ text, isBlank c = false) : IsTight text :=
  ⟨fun c hc => h c (List.mem_of_mem_head? hc), fun c hc => h c (List.mem_of_getLast? hc)⟩

/-- What begins and ends with tight texts is tight. -/
theorem IsTight.append {xs ys : List Char} (hxs : IsTight xs) (hys : IsTight ys) (hx : xs ≠ [])
    (hy : ys ≠ []) (between : List Char) : IsTight (xs ++ between ++ ys) := by
  refine ⟨fun c hc => hxs.head c ?_, fun c hc => hys.last c ?_⟩
  · rwa [List.append_assoc, List.head?_append_of_ne_nil _ hx] at hc
  · rwa [List.getLast?_append_of_ne_nil _ hy] at hc

section Trailing

variable {α : Type} {p : α → Bool} {xs : List α}

/-- Nothing is dropped up to an item that is to stay. -/
theorem dropTrailing_append (h : ∀ x ∈ xs.getLast?, p x = false) (ys : List α) :
    dropTrailing p (xs ++ ys) = xs ++ dropTrailing p ys := by
  have hdrop : xs.reverse.dropWhile p = xs.reverse := by
    cases hreverse : xs.reverse with
    | nil => rfl
    | cons x rest =>
        apply List.dropWhile_cons_of_neg
        rw [h x (by rw [← List.head?_reverse, hreverse]; rfl)]
        exact Bool.false_ne_true
  rw [dropTrailing, List.reverse_append, List.dropWhile_append]
  split
  · rename_i hempty
    rw [hdrop, List.reverse_reverse, dropTrailing, List.isEmpty_iff.mp hempty]
    simp
  · rw [List.reverse_append, List.reverse_reverse, dropTrailing]

theorem dropTrailing_of_last (h : ∀ x ∈ xs.getLast?, p x = false) : dropTrailing p xs = xs := by
  simpa [dropTrailing] using dropTrailing_append h []

theorem dropTrailing_append_of_forall (xs : List α) {ys : List α} (h : ∀ y ∈ ys, p y = true) :
    dropTrailing p (xs ++ ys) = dropTrailing p xs := by
  have hys : ∀ y ∈ ys.reverse, p y = true := fun y hy => h y (List.mem_reverse.mp hy)
  rw [dropTrailing, List.reverse_append, List.dropWhile_append_of_pos hys, dropTrailing]

end Trailing

/-- Trimming takes off the white space on both sides of a tight text. -/
theorem trim_between {before text after : List Char} (hbefore : ∀ c ∈ before, isBlank c = true)
    (h : IsTight text) (hafter : ∀ c ∈ after, isBlank c = true) :
    trim (before ++ (text ++ after)) = text := by
  have hdrop : dropTrailing isBlank ((text ++ after).dropWhile isBlank) = text := by
    cases text with
    | nil =>
        rw [List.nil_append, List.dropWhile_eq_nil_iff.mpr hafter]
        rfl
    | cons c rest =>
        have hhead : ¬ isBlank c = true := by
          rw [h.head c rfl]
          exact Bool.false_ne_true
        rw [List.cons_append, List.dropWhile_cons_of_neg hhead, ← List.cons_append,
          dropTrailing_append_of_forall _ hafter, dropTrailing_of_last h.last]
  rw [trim, List.dropWhile_append_of_pos hbefore, hdrop]

theorem trim_append {blanks text : List Char} (hblanks : ∀ c ∈ blanks, isBlank c = true)
    (h : IsTight text) : trim (blanks ++ text) = text := by
  have htrim : trim (blanks ++ (text ++ [])) = text := trim_between hblanks h nofun
  rwa [List.append_nil] at htrim

theorem trim_of_isTight {text : List Char} (h : IsTight text) : trim text = text := by
  have htrim : trim ([] ++ text) = text := trim_append nofun h
  rwa [List.nil_append] at htrim

section Word

variable {word : List Char} (hword : ∀ c ∈ word, isBlank c = false)

include hword

theorem cutAtBlank_word : cutAtBlank word = (word, []) := by
  have htake : word.takeWhile (!isBlank ·) = word :=
    List.takeWhile_eq_self_iff.mpr fun c hc => by rw [hword c hc]; rfl
  have hdrop : word.dropWhile (!isBlank ·) = [] :=
    List.dropWhile_eq_nil_iff.mpr fun c hc => by rw [hword c hc]; rfl
  rw [cutAtBlank, htake, hdrop]
  rfl

theorem cutAtBlank_gap {gap text : List Char} (hne : gap ≠ [])
    (hgap : ∀ c ∈ gap, isBlank c = true) (h : IsTight text) :
    cutAtBlank (word ++ (gap ++ text)) = (word, text) := by
  obtain ⟨c, gap, rfl⟩ := List.exists_cons_of_ne_nil hne
  have hpos : ∀ d ∈ word, (!isBlank d) = true := fun d hd => by rw [hword d hd]; rfl
  have hblank : ¬ (!isBlank c) = true := by
    rw [hgap c List.mem_cons_self]
    exact Bool.false_ne_true
  have htake : (c :: (gap ++ text)).takeWhile (!isBlank ·) = [] :=
    List.takeWhile_cons_of_neg hblank
  have hdrop : (c :: (gap ++ text)).dropWhile (!isBlank ·) = (c :: gap) ++ text :=
    List.dropWhile_cons_of_neg hblank
  rw [List.cons_append, cutAtBlank, List.takeWhile_append_of_pos hpos,
    List.dropWhile_append_of_pos hpos, htake, hdrop, List.append_nil, trim_append hgap h]

theorem cutAtBlank_append {text : List Char} (h : IsTight text) :
    cutAtBlank (word ++ ' ' :: text) = (word, text) :=
  cutAtBlank_gap hword (List.cons_ne_nil ' ' []) (List.forall_mem_singleton.mpr rfl) h

end Word

end DiceScript
