import Mathlib
import DiceScript.Text.Utf8

/-!
# Encoded texts

Bytes decode to a text exactly when the text encodes to them, so a byte string is the text of at
most one string. An ASCII byte is a unit of its own wherever it stands, also behind an ill-formed
run, and cuts a byte string into parts that are decoded apart.
-/

namespace DiceScript.Utf8

/-! ## Units of one character -/

/-- What a first byte above ASCII announces. -/
theorem lead?_eq_some_iff {b : Nat} {lead : Lead} :
    lead? b = some lead ↔
      (0xC2 ≤ b ∧ b ≤ 0xDF ∧ lead = ⟨b - 0xC0, 0x80, 0xBF, 0⟩) ∨
      (0xE0 ≤ b ∧ b ≤ 0xEF ∧
        lead = ⟨b - 0xE0, if b = 0xE0 then 0xA0 else 0x80, if b = 0xED then 0x9F else 0xBF, 1⟩) ∨
      (0xF0 ≤ b ∧ b ≤ 0xF4 ∧
        lead = ⟨b - 0xF0, if b = 0xF0 then 0x90 else 0x80, if b = 0xF4 then 0x8F else 0xBF, 2⟩) := by
  unfold lead?
  split_ifs <;> simp only [Option.some.injEq, eq_comm (a := lead)] <;> grind

theorem toNat_toUInt8 {n : Nat} (h : n < 256) : n.toUInt8.toNat = n := by
  rw [Nat.toUInt8, UInt8.toNat_ofNat', Nat.mod_eq_of_lt h]

theorem toUInt8_eq {n : Nat} {b : UInt8} (h : n = b.toNat) : n.toUInt8 = b := by
  rw [h]
  exact UInt8.ofNat_toNat

/-- The numbers of characters. -/
theorem char_cases (c : Char) : c.toNat < 0xD800 ∨ 0xDFFF < c.toNat ∧ c.toNat < 0x110000 :=
  c.valid

/-- An encoded character is read as that character. -/
theorem nextUnit_encodeChar (c : Char) (rest : Bytes) :
    ∃ b bytes, encodeChar c = b :: bytes ∧ nextUnit b (bytes ++ rest) = (some c, rest) := by
  have hvalid := char_cases c
  have hc : Char.ofNat c.toNat = c := Char.ofNat_toNat c
  unfold encodeChar
  dsimp only
  generalize c.toNat = n at hvalid hc
  split
  · rename_i h1
    refine ⟨_, _, rfl, ?_⟩
    unfold nextUnit
    rw [toNat_toUInt8 (by omega), if_pos h1, hc]
    rfl
  split
  · rename_i h1 h2
    refine ⟨_, _, rfl, ?_⟩
    have hlead := lead?_eq_some_iff.mpr (.inl ⟨show 0xC2 ≤ 0xC0 + n / 64 by omega, by omega, rfl⟩)
    unfold nextUnit
    rw [toNat_toUInt8 (by omega), if_neg (by omega), hlead]
    simp only [List.singleton_append, continuation]
    rw [toNat_toUInt8 (by omega), if_pos (by omega)]
    have hn : (0xC0 + n / 64 - 0xC0) * 64 + (0x80 + n % 64 - 0x80) = n := by omega
    rw [hn, hc]
  split
  · rename_i h1 h2 h3
    refine ⟨_, _, rfl, ?_⟩
    have hlead := lead?_eq_some_iff.mpr
      (.inr (.inl ⟨show 0xE0 ≤ 0xE0 + n / 4096 by omega, by omega, rfl⟩))
    unfold nextUnit
    rw [toNat_toUInt8 (by omega), if_neg (by omega), hlead]
    simp only [List.cons_append, List.nil_append, continuation]
    rw [toNat_toUInt8 (by omega), toNat_toUInt8 (by omega), if_pos (by split_ifs <;> omega),
      if_pos (by omega)]
    have hn : ((0xE0 + n / 4096 - 0xE0) * 64 + (0x80 + n / 64 % 64 - 0x80)) * 64 +
        (0x80 + n % 64 - 0x80) = n := by omega
    rw [hn, hc]
  · rename_i h1 h2 h3
    refine ⟨_, _, rfl, ?_⟩
    have hlead := lead?_eq_some_iff.mpr
      (.inr (.inr ⟨show 0xF0 ≤ 0xF0 + n / 262144 by omega, by omega, rfl⟩))
    unfold nextUnit
    rw [toNat_toUInt8 (by omega), if_neg (by omega), hlead]
    simp only [List.cons_append, List.nil_append, continuation]
    rw [toNat_toUInt8 (by omega), toNat_toUInt8 (by omega), toNat_toUInt8 (by omega),
      if_pos (by split_ifs <;> omega), if_pos (by omega), if_pos (by omega)]
    have hn : (((0xF0 + n / 262144 - 0xF0) * 64 + (0x80 + n / 4096 % 64 - 0x80)) * 64 +
        (0x80 + n / 64 % 64 - 0x80)) * 64 + (0x80 + n % 64 - 0x80) = n := by omega
    rw [hn, hc]

/-- Continuation bytes that complete a character. -/
theorem continuation_eq_some {k payload : Nat} {bytes rest : Bytes} {c : Char}
    (h : continuation k payload bytes = (some c, rest)) :
    ∃ tail : Bytes, bytes = tail ++ rest ∧ tail.length = k ∧
      (∀ b ∈ tail, 0x80 ≤ b.toNat ∧ b.toNat ≤ 0xBF) ∧
        c = Char.ofNat (tail.foldl (fun n b => n * 64 + (b.toNat - 0x80)) payload) := by
  induction k generalizing payload bytes with
  | zero =>
      simp only [continuation, Prod.mk.injEq, Option.some.injEq] at h
      exact ⟨[], h.2, rfl, List.forall_mem_nil _, h.1.symm⟩
  | succ k ih =>
      cases bytes with
      | nil => cases h
      | cons b bytes =>
          rw [continuation] at h
          split at h
          · rename_i hb
            obtain ⟨tail, rfl, rfl, htail, rfl⟩ := ih h
            exact ⟨b :: tail, rfl, rfl, List.forall_mem_cons.mpr ⟨hb, htail⟩, by rw [List.foldl_cons]⟩
          · cases h

theorem toNat_ofNat {n : Nat} (h : n < 0xD800 ∨ 0xDFFF < n ∧ n < 0x110000) :
    (Char.ofNat n).toNat = n := by
  rw [Char.toNat_ofNat, if_pos h]

/-- The range of a second byte, which two first bytes narrow. -/
theorem second_bounds {b n first last low high : Nat} (hlow : 0x80 ≤ low) (hhigh : high ≤ 0xBF)
    (h : (if b = first then low else 0x80) ≤ n ∧ n ≤ if b = last then high else 0xBF) :
    0x80 ≤ n ∧ n ≤ 0xBF ∧ (b = first → low ≤ n) ∧ (b = last → n ≤ high) := by
  split_ifs at h <;> omega

/-- A unit that is a character consists of the bytes that encode it. -/
theorem encodeChar_of_nextUnit {b : UInt8} {bytes rest : Bytes} {c : Char}
    (h : nextUnit b bytes = (some c, rest)) : b :: bytes = encodeChar c ++ rest := by
  unfold nextUnit at h
  split at h
  · rename_i hascii
    simp only [Prod.mk.injEq, Option.some.injEq] at h
    obtain ⟨rfl, rfl⟩ := h
    unfold encodeChar
    dsimp only
    rw [toNat_ofNat (by omega), if_pos hascii, toUInt8_eq rfl]
    rfl
  split at h
  · cases h
  rename_i lead hlead
  split at h
  · cases h
  rename_i second rest'
  split at h
  rotate_left
  · cases h
  rename_i hsecond
  obtain ⟨tail, rfl, hlength, htail, rfl⟩ := continuation_eq_some h
  unfold encodeChar
  rcases lead?_eq_some_iff.mp hlead with ⟨hlow, hhigh, rfl⟩ | ⟨hlow, hhigh, rfl⟩ | ⟨hlow, hhigh, rfl⟩
  · obtain rfl := List.length_eq_zero_iff.mp hlength
    dsimp only [List.foldl_nil] at hsecond ⊢
    generalize hn : (b.toNat - 0xC0) * 64 + (second.toNat - 0x80) = n
    rw [toNat_ofNat (by omega), if_neg (by omega), if_pos (by omega),
      toUInt8_eq (b := b) (by omega), toUInt8_eq (b := second) (by omega)]
    rfl
  · obtain ⟨third, rfl⟩ := List.length_eq_one_iff.mp hlength
    have hthird := List.forall_mem_singleton.mp htail
    have hrange := second_bounds (by decide) (by decide) hsecond
    clear hsecond hlength
    dsimp only [List.foldl_cons, List.foldl_nil]
    generalize hn : ((b.toNat - 0xE0) * 64 + (second.toNat - 0x80)) * 64 +
      (third.toNat - 0x80) = n
    rw [toNat_ofNat (by omega), if_neg (by omega), if_neg (by omega), if_pos (by omega),
      toUInt8_eq (b := b) (by omega), toUInt8_eq (b := second) (by omega),
      toUInt8_eq (b := third) (by omega)]
    rfl
  · obtain ⟨third, fourth, rfl⟩ := List.length_eq_two.mp hlength
    obtain ⟨hthird, hfourth⟩ := List.forall_mem_cons.mp htail
    rw [List.forall_mem_singleton] at hfourth
    have hrange := second_bounds (by decide) (by decide) hsecond
    clear hsecond hlength
    dsimp only [List.foldl_cons, List.foldl_nil]
    generalize hn : (((b.toNat - 0xF0) * 64 + (second.toNat - 0x80)) * 64 +
      (third.toNat - 0x80)) * 64 + (fourth.toNat - 0x80) = n
    rw [toNat_ofNat (by omega), if_neg (by omega), if_neg (by omega), if_neg (by omega),
      toUInt8_eq (b := b) (by omega), toUInt8_eq (b := second) (by omega),
      toUInt8_eq (b := third) (by omega), toUInt8_eq (b := fourth) (by omega)]
    rfl

/-! ## Texts -/

theorem units_cons (b : UInt8) (bytes : Bytes) :
    units (b :: bytes) = (nextUnit b bytes).1 :: units (nextUnit b bytes).2 := by
  rw [units]

theorem units_flatMap_encodeChar (text : List Char) :
    units (text.flatMap encodeChar) = text.map some := by
  induction text with
  | nil => rw [List.flatMap_nil, units, List.map_nil]
  | cons c text ih =>
      obtain ⟨b, bytes, hencode, hnext⟩ := nextUnit_encodeChar c (text.flatMap encodeChar)
      rw [List.flatMap_cons, hencode, List.cons_append, units_cons, hnext, ih, List.map_cons]

theorem eq_flatMap_encodeChar {text : List Char} {bytes : Bytes}
    (h : units bytes = text.map some) : bytes = text.flatMap encodeChar := by
  induction text generalizing bytes with
  | nil =>
      cases bytes with
      | nil => rfl
      | cons b bytes =>
          rw [units_cons] at h
          cases h
  | cons c text ih =>
      cases bytes with
      | nil =>
          rw [units] at h
          cases h
      | cons b bytes =>
          rw [units_cons, List.map_cons, List.cons.injEq] at h
          have hbytes := encodeChar_of_nextUnit (Prod.ext h.1 rfl)
          rw [hbytes, List.flatMap_cons, ← ih h.2]

theorem mapM_id_eq_some_iff {α : Type} {items : List (Option α)} {as : List α} :
    items.mapM id = some as ↔ items = as.map some := by
  induction items generalizing as with
  | nil => cases as <;> simp
  | cons item items ih =>
      cases item with
      | none => cases as <;> simp
      | some a =>
          rw [List.mapM_cons]
          cases as with
          | nil => cases items.mapM id <;> simp
          | cons b as => cases hrest : items.mapM id <;> simp [← ih, hrest]

/-- Bytes decode to a text exactly when they are its encoding. -/
theorem decode?_eq_some_iff {bytes : Bytes} {text : String} :
    decode? bytes = some text ↔ bytes = encode text := by
  unfold decode? encode
  rw [Option.map_eq_some_iff]
  constructor
  · rintro ⟨cs, hunits, rfl⟩
    rw [String.toList_ofList]
    exact eq_flatMap_encodeChar (mapM_id_eq_some_iff.mp hunits)
  · rintro rfl
    exact ⟨text.toList, mapM_id_eq_some_iff.mpr (units_flatMap_encodeChar _), String.ofList_toList⟩

theorem decode?_encode (text : String) : decode? (encode text) = some text :=
  decode?_eq_some_iff.mpr rfl

theorem decode?_eq_none_iff {bytes : Bytes} :
    decode? bytes = none ↔ ∀ text, bytes ≠ encode text := by
  rw [Option.eq_none_iff_forall_not_mem]
  exact forall_congr' fun text => not_congr decode?_eq_some_iff

/-! ## Cuts at an ASCII byte -/

section Ascii

variable {a : UInt8} (ha : a.toNat < 0x80) (rest : Bytes)

include ha

theorem continuation_append (k payload : Nat) (bytes : Bytes) :
    continuation k payload (bytes ++ a :: rest) =
      ((continuation k payload bytes).1, (continuation k payload bytes).2 ++ a :: rest) := by
  induction k generalizing payload bytes with
  | zero => rfl
  | succ k ih =>
      cases bytes with
      | nil =>
          -- no continuation byte is in ASCII
          rw [List.nil_append, continuation, continuation, if_neg (by omega)]
          rfl
      | cons b bytes =>
          rw [List.cons_append, continuation, continuation]
          split
          · exact ih _ _
          · rfl

theorem nextUnit_append (b : UInt8) (bytes : Bytes) :
    nextUnit b (bytes ++ a :: rest) =
      ((nextUnit b bytes).1, (nextUnit b bytes).2 ++ a :: rest) := by
  unfold nextUnit
  split
  · rfl
  split
  · rfl
  rename_i lead hlead
  cases bytes with
  | nil =>
      -- no second byte is in ASCII
      have hlow : 0x80 ≤ lead.low := by
        rcases lead?_eq_some_iff.mp hlead with ⟨-, -, rfl⟩ | ⟨-, -, rfl⟩ | ⟨-, -, rfl⟩
        · exact le_rfl
        · dsimp only
          split_ifs <;> omega
        · dsimp only
          split_ifs <;> omega
      simp only [List.nil_append]
      rw [if_neg (by omega)]
  | cons second bytes =>
      simp only [List.cons_append]
      split
      · exact continuation_append ha rest _ _ _
      · rfl

theorem units_append (bytes : Bytes) :
    units (bytes ++ a :: rest) = units bytes ++ units (a :: rest) := by
  fun_induction units bytes with
  | case1 => rfl
  | case2 b bytes ih =>
      rw [List.cons_append, units_cons, nextUnit_append ha, ih, List.cons_append]

theorem units_ascii : units (a :: rest) = some (Char.ofNat a.toNat) :: units rest := by
  rw [units_cons, nextUnit, if_pos ha]

omit rest in
/-- An ASCII byte stands in the encoding of its own character only. -/
theorem eq_of_mem_encodeChar {c : Char} (h : a ∈ encodeChar c) : c = Char.ofNat a.toNat := by
  obtain ⟨before, after, heq⟩ := List.append_of_mem h
  have hunits : units (encodeChar c) = [some c] := by
    simpa using units_flatMap_encodeChar [c]
  rw [heq, units_append ha, units_ascii ha] at hunits
  cases hbefore : units before with
  | nil =>
      rw [hbefore, List.nil_append, List.cons.injEq] at hunits
      exact (Option.some.inj hunits.1).symm
  | cons unit more =>
      rw [hbefore] at hunits
      simp at hunits

omit rest in
/-- An ASCII byte at the end is the last character of a text. -/
theorem decode?_concat (bytes : Bytes) :
    decode? (bytes ++ [a]) = (decode? bytes).map fun text => text.push (Char.ofNat a.toNat) := by
  have hlast : units [a] = [some (Char.ofNat a.toNat)] := by
    rw [units_ascii ha, units]
  unfold decode?
  rw [units_append ha, hlast, List.mapM_append]
  cases (units bytes).mapM id <;> simp

end Ascii

end DiceScript.Utf8
