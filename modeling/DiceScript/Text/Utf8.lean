/-!
# UTF-8

Texts and the bytes that encode them. A byte string is cut into units, each a character or a
maximal ill-formed run; it is text when every unit is a character, and can be shown with one
replacement character for every other unit.
-/

namespace DiceScript

abbrev Bytes := List UInt8

namespace Utf8

def encodeChar (c : Char) : Bytes :=
  let n := c.toNat
  if n < 0x80 then
    [n.toUInt8]
  else if n < 0x800 then
    [(0xC0 + n / 64).toUInt8, (0x80 + n % 64).toUInt8]
  else if n < 0x10000 then
    [(0xE0 + n / 4096).toUInt8, (0x80 + n / 64 % 64).toUInt8, (0x80 + n % 64).toUInt8]
  else
    [(0xF0 + n / 262144).toUInt8, (0x80 + n / 4096 % 64).toUInt8,
      (0x80 + n / 64 % 64).toUInt8, (0x80 + n % 64).toUInt8]

def encode (text : String) : Bytes :=
  text.toList.flatMap encodeChar

/-- What the first byte of a longer sequence announces: its own payload, the range of the second
byte, and how many bytes follow the second. -/
structure Lead where
  payload : Nat
  low : Nat
  high : Nat
  following : Nat

/-- The ranges shut out overlong forms, surrogates and code points above U+10FFFF. -/
def lead? (b : Nat) : Option Lead :=
  if 0xC2 ≤ b ∧ b ≤ 0xDF then some ⟨b - 0xC0, 0x80, 0xBF, 0⟩
  else if b = 0xE0 then some ⟨0x0, 0xA0, 0xBF, 1⟩
  else if b = 0xED then some ⟨0xD, 0x80, 0x9F, 1⟩
  else if 0xE1 ≤ b ∧ b ≤ 0xEF then some ⟨b - 0xE0, 0x80, 0xBF, 1⟩
  else if b = 0xF0 then some ⟨0x0, 0x90, 0xBF, 2⟩
  else if 0xF1 ≤ b ∧ b ≤ 0xF3 then some ⟨b - 0xF0, 0x80, 0xBF, 2⟩
  else if b = 0xF4 then some ⟨0x4, 0x80, 0x8F, 2⟩
  else none

/-- Read `k` continuation bytes onto the payload read so far. -/
def continuation : Nat → Nat → Bytes → Option Char × Bytes
  | 0, payload, bytes => (some (Char.ofNat payload), bytes)
  | _ + 1, _, [] => (none, [])
  | k + 1, payload, b :: bytes =>
    if 0x80 ≤ b.toNat ∧ b.toNat ≤ 0xBF then
      continuation k (payload * 64 + (b.toNat - 0x80)) bytes
    else
      (none, b :: bytes)

/-- The unit that starts with byte `b`, and what follows it. -/
def nextUnit (b : UInt8) (bytes : Bytes) : Option Char × Bytes :=
  if b.toNat < 0x80 then
    (some (Char.ofNat b.toNat), bytes)
  else
    match lead? b.toNat with
    | none => (none, bytes)
    | some lead =>
      match bytes with
      | [] => (none, [])
      | second :: rest =>
        if lead.low ≤ second.toNat ∧ second.toNat ≤ lead.high then
          continuation lead.following (lead.payload * 64 + (second.toNat - 0x80)) rest
        else
          (none, bytes)

theorem continuation_length_le (k payload : Nat) (bytes : Bytes) :
    (continuation k payload bytes).2.length ≤ bytes.length := by
  induction k generalizing payload bytes with
  | zero => simp [continuation]
  | succ k ih =>
    cases bytes with
    | nil => simp [continuation]
    | cons b bytes =>
      rw [continuation]
      split
      · exact Nat.le_succ_of_le (ih _ _)
      · exact Nat.le_refl _

theorem nextUnit_length_le (b : UInt8) (bytes : Bytes) :
    (nextUnit b bytes).2.length ≤ bytes.length := by
  unfold nextUnit
  split
  · exact Nat.le_refl _
  · split
    · exact Nat.le_refl _
    · cases bytes with
      | nil => exact Nat.le_refl _
      | cons second rest =>
        simp only
        split
        · exact Nat.le_succ_of_le (continuation_length_le _ _ _)
        · exact Nat.le_refl _

/-- The units of a byte string in order; `none` stands for an ill-formed one. -/
def units : Bytes → List (Option Char)
  | [] => []
  | b :: bytes => (nextUnit b bytes).1 :: units (nextUnit b bytes).2
termination_by bytes => bytes.length
decreasing_by exact Nat.lt_succ_of_le (nextUnit_length_le b bytes)

/-- The text that the bytes encode, if they encode one. -/
def decode? (bytes : Bytes) : Option String :=
  ((units bytes).mapM id).map String.ofList

def decodeLossy (bytes : Bytes) : String :=
  String.ofList ((units bytes).map (·.getD '\uFFFD'))

end Utf8

end DiceScript
