import Mathlib
import DiceScript.Json.Reader

/-!
# Quoting

A text in quotes is read back as that text. Every character stands there as itself or as an escape
that denotes it, and none of the characters between the quotes is a control character.
-/

namespace DiceScript

namespace Quoted

/-- What follows the backslash of an escape for the character. It ends where it should, denotes the
character, and has no quote or backslash after its first place. -/
structure IsEscape (c : Char) (first : Char) (others : List Char) : Prop where
  scan : ∀ rest, scanEscape? (first :: (others ++ rest)) = some (first :: others, rest)
  denotes : ∀ rest, escape? (first :: (others ++ rest)) = some (c, rest)
  visible : ∀ d ∈ first :: others, 0x20 ≤ d.toNat
  plain : ∀ d ∈ others, d ≠ '"' ∧ d ≠ '\\'

theorem isEscape_letter {c first : Char} (hfirst : first ∈ ['"', '\\', 'b', 'f', 'n', 'r', 't'])
    (h : ∀ rest, escape? (first :: rest) = some (c, rest)) : IsEscape c first [] := by
  refine ⟨fun rest => ?_, h, ?_, nofun⟩
  · simp only [List.mem_cons, List.not_mem_nil, or_false] at hfirst
    rcases hfirst with rfl | rfl | rfl | rfl | rfl | rfl | rfl <;> rfl
  · simp only [List.mem_cons, List.not_mem_nil, or_false] at hfirst
    rintro d hd
    obtain rfl : d = first := by simpa using hd
    rcases hfirst with rfl | rfl | rfl | rfl | rfl | rfl | rfl <;> decide

theorem hexDigit_spec : ∀ n < 16, hexValue? (hexDigit n) = some n ∧ 0x20 ≤ (hexDigit n).toNat ∧
    hexDigit n ≠ '"' ∧ hexDigit n ≠ '\\' := by
  decide

theorem isEscape_control {c : Char} (h : c.toNat < 0x20) :
    IsEscape c 'u' ['0', '0', hexDigit (c.toNat / 16), hexDigit (c.toNat % 16)] := by
  obtain ⟨hvalue, hvisible, hplain⟩ := hexDigit_spec (c.toNat / 16) (by omega)
  obtain ⟨hvalue', hvisible', hplain'⟩ := hexDigit_spec (c.toNat % 16) (by omega)
  have hzero : hexValue? '0' = some 0 := by decide
  have hunit : ∀ rest, codeUnit? (['0', '0', hexDigit (c.toNat / 16), hexDigit (c.toNat % 16)] ++
      rest) = some (c.toNat, rest) := by
    intro rest
    simp only [List.cons_append, List.nil_append, codeUnit?, hzero, hvalue, hvalue',
      Option.bind_eq_bind, Option.bind_some]
    congr 2
    omega
  refine ⟨fun rest => ?_, fun rest => ?_, ?_, ?_⟩
  · rw [scanEscape?, hunit]
    rfl
  · rw [escape?, unicode?, hunit]
    dsimp only [Option.bind_eq_bind, Option.bind_some]
    rw [if_neg (by omega), if_neg (by omega), Char.ofNat_toNat]
  · simp [hvisible, hvisible']
  · simp [hplain, hplain']

/-- A character stands for itself, or there is an escape for it. -/
theorem escapeChar_cases (c : Char) :
    (escapeChar c = [c] ∧ c ≠ '"' ∧ c ≠ '\\' ∧ 0x20 ≤ c.toNat) ∨
      ∃ first others, escapeChar c = '\\' :: first :: others ∧ IsEscape c first others := by
  unfold escapeChar
  -- the characters with a letter of their own
  iterate 7
    split
    · rename_i hc
      subst hc
      exact .inr ⟨_, _, rfl, isEscape_letter (by decide) fun _ => rfl⟩
  split
  · rename_i hc
    exact .inr ⟨_, _, rfl, isEscape_control hc⟩
  · rename_i hquote hbackslash _ _ _ _ _ hvisible
    exact .inl ⟨rfl, hquote, hbackslash, Nat.not_lt.mp hvisible⟩

theorem visible_escapeChar (c : Char) : ∀ d ∈ escapeChar c, 0x20 ≤ d.toNat := by
  rcases escapeChar_cases c with ⟨h, -, -, hc⟩ | ⟨first, others, h, hescape⟩
  · rw [h]
    exact List.forall_mem_singleton.mpr hc
  · rw [h]
    exact List.forall_mem_cons.mpr ⟨by decide, hescape.visible⟩

theorem visible_encode (text : List Char) : ∀ d ∈ encode text, 0x20 ≤ d.toNat := by
  refine List.forall_mem_cons.mpr ⟨by decide, List.forall_mem_append.mpr ⟨?_, ?_⟩⟩
  · intro d hd
    obtain ⟨c, -, hc⟩ := List.mem_flatMap.mp hd
    exact visible_escapeChar c d hc
  · exact List.forall_mem_singleton.mpr (by decide)

/-! ## Reading back -/

theorem scan?_escapeChar (c : Char) (text : List Char) :
    scan? (escapeChar c ++ text) = (scan? text).map fun r => (escapeChar c ++ r.1, r.2) := by
  rcases escapeChar_cases c with ⟨h, hquote, hbackslash, hvisible⟩ | ⟨first, others, h, hescape⟩
  · rw [h, List.singleton_append, scan?, if_neg hquote, if_neg hbackslash,
      if_neg (Nat.not_lt.mpr hvisible)]
    rfl
  · rw [h, List.cons_append, scan?, if_neg (by decide), if_pos rfl]
    split
    · rename_i escape rest hscan
      rw [List.cons_append, hescape.scan] at hscan
      cases hscan
      rfl
    · rename_i hscan
      rw [List.cons_append, hescape.scan] at hscan
      cases hscan

theorem scan?_body (text rest : List Char) :
    scan? (text.flatMap escapeChar ++ '"' :: rest) = some (text.flatMap escapeChar, rest) := by
  induction text with
  | nil => rw [List.flatMap_nil, List.nil_append, scan?, if_pos rfl]
  | cons c text ih => rw [List.flatMap_cons, List.append_assoc, scan?_escapeChar, ih, Option.map_some]

theorem decode?_escapeChar (c : Char) (body : List Char) :
    decode? (escapeChar c ++ body) = (decode? body).map (c :: ·) := by
  rcases escapeChar_cases c with ⟨h, -, hbackslash, -⟩ | ⟨first, others, h, hescape⟩
  · rw [h, List.singleton_append, decode?, if_neg hbackslash]
  · rw [h, List.cons_append, decode?, if_pos rfl]
    split
    · rename_i e rest hread
      rw [List.cons_append, hescape.denotes] at hread
      cases hread
      rfl
    · rename_i hread
      rw [List.cons_append, hescape.denotes] at hread
      cases hread

theorem decode?_body (text : List Char) : decode? (text.flatMap escapeChar) = some text := by
  induction text with
  | nil => rw [List.flatMap_nil, decode?]
  | cons c text ih => rw [List.flatMap_cons, decode?_escapeChar, ih, Option.map_some]

theorem read?_encode (text rest : List Char) : read? (encode text ++ rest) = some (text, rest) := by
  rw [encode, List.cons_append, List.append_assoc, List.singleton_append, read?, scan?_body]
  dsimp only [Option.bind_eq_bind, Option.bind_some]
  rw [decode?_body]
  rfl

end Quoted

namespace Json

/-- A quoted text alone is read as the text. -/
theorem readString?_encode (text : List Char) :
    readString? (Quoted.encode text) = some (String.ofList text) := by
  have hskip : skipSpace (Quoted.encode text) = Quoted.encode text ++ [] := by
    rw [List.append_nil]
    exact List.dropWhile_cons_of_neg (by decide)
  rw [readString?, hskip, Quoted.read?_encode]
  rfl

end Json

end DiceScript
