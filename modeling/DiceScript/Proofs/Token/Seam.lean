import DiceScript.Proofs.Text.Offsets
import DiceScript.Token.Lexer
import Mathlib.Data.List.Find
import Mathlib.Data.List.TakeWhile

/-!
# Texts joined by a line feed

A line feed belongs to no token and ends a comment. So the tokens of two texts with a line feed
between them are those of the first text, followed by those of the second one at later positions.
-/

namespace DiceScript

theorem takeWhile_append_cons {α : Type} {p : α → Bool} {a : α} (ha : p a = false)
    (xs ys : List α) : (xs ++ a :: ys).takeWhile p = xs.takeWhile p := by
  induction xs with
  | nil => simp [ha]
  | cons x xs ih => simp only [List.cons_append, List.takeWhile_cons, ih]

/-! ## Later positions -/

/-- The same position some lines below. -/
def Position.down (n : Nat) (p : Position) : Position :=
  ⟨p.line + n, p.column⟩

/-- The same range after more bytes. -/
def Span.after (n : Nat) (s : Span) : Span :=
  ⟨n + s.start, n + s.stop⟩

/-- The same token some lines and bytes further on. -/
def Token.later (lines bytes : Nat) (t : Token) : Token :=
  { t with position := t.position.down lines, span := t.span.after bytes }

theorem Position.down_advance (n : Nat) (p : Position) (text : List Char) :
    (p.down n).advance text = (p.advance text).down n := by
  induction text generalizing p with
  | nil => rfl
  | cons c text ih =>
      have hafter : (p.down n).after c = (p.after c).down n := by
        unfold Position.after
        split
        · simp only [down, Nat.add_right_comm]
        · rfl
      change ((p.down n).after c).advance text = ((p.after c).advance text).down n
      rw [hafter, ih]

theorem Position.after_newline (p : Position) : p.after '\n' = first.down p.line := by
  simp [after, down, first, Nat.add_comm]

namespace Token

/-! ## One lexeme after another -/

/-- What a text begins with, and the number of its characters. -/
def lexeme (text : List Char) : Option TokenKind × Nat :=
  (start? text).getD (some .unknown, unknownLength text)

/-- The token of a lexeme, if it has one. -/
def emitted (kind : Option TokenKind) (taken : List Char) (p : Position) (offset : Nat) :
    List Token :=
  (kind.map fun k => ⟨k, String.ofList taken, p, ⟨offset, offset + byteLength taken⟩⟩).toList

theorem scan_cons (p : Position) (offset : Nat) (c : Char) (rest : List Char) :
    scan p offset (c :: rest) =
      let taken := c :: rest.take ((lexeme (c :: rest)).2 - 1)
      emitted (lexeme (c :: rest)).1 taken p offset ++
        scan (p.advance taken) (offset + byteLength taken)
          (rest.drop ((lexeme (c :: rest)).2 - 1)) := by
  rw [scan, lexeme]
  rcases (start? (c :: rest)).getD (some .unknown, unknownLength (c :: rest)) with ⟨_ | kind, length⟩
  · rfl
  · rfl

theorem emitted_later (lines bytes : Nat) (kind : Option TokenKind) (taken : List Char)
    (p : Position) (offset : Nat) :
    emitted kind taken (p.down lines) (bytes + offset) =
      (emitted kind taken p offset).map (later lines bytes) := by
  cases kind <;> simp [emitted, later, Span.after, Nat.add_assoc]

/-- Only the positions of the tokens depend on where a text stands. -/
theorem scan_later (lines bytes : Nat) (p : Position) (offset : Nat) (text : List Char) :
    scan (p.down lines) (bytes + offset) text = (scan p offset text).map (later lines bytes) := by
  induction hn : text.length using Nat.strong_induction_on generalizing p offset text with
  | _ n ih =>
      cases text with
      | nil => simp [scan]
      | cons c rest =>
          have hshorter : (rest.drop ((lexeme (c :: rest)).2 - 1)).length < n := by
            rw [List.length_drop, ← hn, List.length_cons]
            omega
          rw [scan_cons, scan_cons]
          dsimp only
          rw [List.map_append, emitted_later, Position.down_advance, Nat.add_assoc,
            ih _ hshorter _ _ _ rfl]

/-! ## Layout -/

theorem isLayout_of_isDigit {c : Char} (hc : c.isDigit = true) : isLayout c = false := by
  simp only [isLayout, Bool.or_eq_false_iff, beq_eq_false_iff_ne]
  refine ⟨⟨⟨?_, ?_⟩, ?_⟩, ?_⟩ <;> (rintro rfl; exact absurd hc (by decide))

theorem start?_of_isLayout {c : Char} (hc : isLayout c = true) (rest : List Char) :
    start? (c :: rest) = some (none, (rest.takeWhile isLayout).length + 1) := by
  rw [start?, if_pos hc, List.takeWhile_cons, if_pos hc, List.length_cons]

/-- Layout moves what follows it and has no other effect. -/
theorem scan_layout {c : Char} (hc : isLayout c = true) (p : Position) (offset : Nat)
    (rest : List Char) :
    scan p offset (c :: rest) = scan (p.after c) (offset + c.utf8Size) rest := by
  rw [scan_cons]
  simp only [lexeme, start?_of_isLayout hc, Option.getD_some, Nat.add_sub_cancel]
  cases rest with
  | nil => simp [emitted, scan]
  | cons d rest =>
      cases hd : isLayout d with
      | false => simp [hd, emitted, byteLength, Position.advance]
      | true =>
          -- the run of layout goes on, and both sides skip it to its end
          rw [scan_cons]
          simp only [lexeme, start?_of_isLayout hd, Option.getD_some, Nat.add_sub_cancel,
            List.takeWhile_cons, hd, if_true, List.length_cons, List.take_succ_cons,
            List.drop_succ_cons]
          simp [emitted, byteLength, Position.advance, Nat.add_assoc]

/-! ## The line feed between two texts -/

theorem isPrefixOf_append_newline {word : List Char} (hword : '\n' ∉ word) (xs ys : List Char) :
    word.isPrefixOf (xs ++ '\n' :: ys) = word.isPrefixOf xs := by
  induction word generalizing xs with
  | nil => rfl
  | cons c word ih =>
      rw [List.mem_cons, not_or] at hword
      cases xs with
      | nil => simp [List.isPrefixOf, Ne.symm hword.1]
      | cons x xs => simp only [List.cons_append, List.isPrefixOf_cons_cons, ih hword.2]

theorem spelling?_append_newline (xs ys : List Char) :
    spelling? (xs ++ '\n' :: ys) = spelling? xs := by
  have hwords : ∀ s ∈ TokenKind.spellings, '\n' ∉ s.1.toList := by decide
  exact List.find?_congr fun s hs => isPrefixOf_append_newline (hwords s hs) xs ys

/-- What starts a text that is no layout ends before the line feed. -/
theorem start?_append_newline {c : Char} (hc : isLayout c = false) (xs ys : List Char) :
    start? (c :: (xs ++ '\n' :: ys)) = start? (c :: xs) := by
  have hslashes : ['/', '/'].isPrefixOf (c :: xs ++ '\n' :: ys) = ['/', '/'].isPrefixOf (c :: xs) :=
    isPrefixOf_append_newline (by decide) (c :: xs) ys
  have hspelling := spelling?_append_newline (c :: xs) ys
  have hcomment := takeWhile_append_cons (p := (· != '\n')) (a := '\n') (by decide) (c :: xs) ys
  have hdigits := takeWhile_append_cons (p := Char.isDigit) (a := '\n') (by decide) (c :: xs) ys
  rw [List.cons_append] at hslashes hspelling hcomment hdigits
  rw [start?, start?, hslashes, hspelling, hcomment, hdigits, hc, if_neg Bool.false_ne_true,
    if_neg Bool.false_ne_true]

theorem unknownLength_append_newline (xs ys : List Char) :
    unknownLength (xs ++ '\n' :: ys) = unknownLength xs := by
  have hlayout : ∀ c : Char, isLayout c = true → ∀ rest, unknownLength (c :: rest) = 0 := by
    intro c hc rest
    rw [unknownLength, start?_of_isLayout hc]
    rfl
  induction xs with
  | nil => exact hlayout '\n' (by decide) ys
  | cons c xs ih =>
      cases hc : isLayout c with
      | true => rw [List.cons_append, hlayout c hc, hlayout c hc]
      | false =>
          rw [List.cons_append, unknownLength, unknownLength, start?_append_newline hc, ih]

theorem lexeme_append_newline {c : Char} (hc : isLayout c = false) (xs ys : List Char) :
    lexeme (c :: (xs ++ '\n' :: ys)) = lexeme (c :: xs) := by
  unfold lexeme
  rw [start?_append_newline hc, ← List.cons_append, unknownLength_append_newline]

theorem lexeme_length_le (text : List Char) : (lexeme text).2 ≤ text.length := by
  have hspelling : ∀ s, spelling? text = some s → s.1.length ≤ text.length := by
    intro s hs
    have hstart := List.find?_some hs
    rw [List.isPrefixOf_iff_prefix] at hstart
    rw [← String.length_toList]
    exact hstart.length_le
  have hunknown : ∀ text, unknownLength text ≤ text.length := by
    intro text
    induction text with
    | nil => exact Nat.le_refl _
    | cons c text ih =>
        rw [unknownLength, List.length_cons]
        split <;> omega
  cases hstart : start? text with
  | none => simpa [lexeme, hstart] using hunknown text
  | some k =>
      rw [lexeme, hstart, Option.getD_some]
      unfold start? at hstart
      split at hstart
      · cases hstart
      · rename_i c rest
        split at hstart
        · cases hstart
          exact (List.takeWhile_prefix _).length_le
        split at hstart
        · cases hstart
          exact (List.takeWhile_prefix _).length_le
        split at hstart
        · cases hstart
          exact (List.takeWhile_prefix _).length_le
        · obtain ⟨s, hs, rfl⟩ := Option.map_eq_some_iff.mp hstart
          exact hspelling s hs

/-- The tokens of a text, a line feed and another text. -/
theorem scan_append_newline (p : Position) (offset : Nat) (xs ys : List Char) :
    scan p offset (xs ++ '\n' :: ys) =
      scan p offset xs ++
        scan ((p.advance xs).after '\n') (offset + byteLength xs + 1) ys := by
  induction hn : xs.length using Nat.strong_induction_on generalizing p offset xs with
  | _ n ih =>
      cases xs with
      | nil =>
          rw [List.nil_append, scan_layout (by decide)]
          simp [scan, Position.advance, byteLength, Char.utf8Size]
      | cons c xs =>
          subst hn
          cases hc : isLayout c with
          | true =>
              rw [List.cons_append, scan_layout hc, scan_layout hc, ih _ (by simp) _ _ _ rfl,
                byteLength_cons, Nat.add_assoc offset]
              rfl
          | false =>
              have hlength := lexeme_length_le (c :: xs)
              rw [List.length_cons] at hlength
              rw [List.cons_append, scan_cons, scan_cons]
              dsimp only
              rw [lexeme_append_newline hc]
              set k := (lexeme (c :: xs)).2 - 1
              have hsplit : (c :: xs.take k) ++ xs.drop k = c :: xs := by
                rw [List.cons_append, List.take_append_drop]
              have hshorter : (xs.drop k).length < (c :: xs).length := by
                rw [List.length_drop, List.length_cons]
                omega
              have hposition := Position.advance_append p (c :: xs.take k) (xs.drop k)
              have hbytes := byteLength_append (c :: xs.take k) (xs.drop k)
              rw [hsplit] at hposition hbytes
              rw [List.take_append_of_le_length (by omega), List.drop_append_of_le_length (by omega),
                ih _ hshorter _ _ _ rfl, ← hposition, hbytes, List.append_assoc, Nat.add_assoc offset]

end Token

/-- The tokens of two sources with a line feed between them. -/
theorem tokenize_append_newline (s t : String) : ∃ lines bytes,
    tokenize (s ++ "\n" ++ t) = tokenize s ++ (tokenize t).map (Token.later lines bytes) := by
  refine ⟨(Position.first.advance s.toList).line, 0 + byteLength s.toList + 1, ?_⟩
  have htext : (s ++ "\n" ++ t).toList = s.toList ++ '\n' :: t.toList := by simp
  unfold tokenize
  rw [htext, Token.scan_append_newline, Position.after_newline, ← Token.scan_later]

end DiceScript
