/-!
# Quoted texts

A quoted text stands between double quotes. The quote, the backslash and the characters below
U+0020 are written as escapes, every other character as itself. When a quoted text is read, its end
is found first (`scan?`). What its body denotes is a question of its own (`decode?`), to which a
surrogate without its partner has no answer.
-/

namespace DiceScript.Quoted

def hexDigit (n : Nat) : Char :=
  Nat.digitChar n

def escapeChar (c : Char) : List Char :=
  if c = '"' then ['\\', '"']
  else if c = '\\' then ['\\', '\\']
  else if c = '\x08' then ['\\', 'b']
  else if c = '\x0c' then ['\\', 'f']
  else if c = '\n' then ['\\', 'n']
  else if c = '\r' then ['\\', 'r']
  else if c = '\t' then ['\\', 't']
  else if c.toNat < 0x20 then
    ['\\', 'u', '0', '0', hexDigit (c.toNat / 16), hexDigit (c.toNat % 16)]
  else [c]

def encode (text : List Char) : List Char :=
  '"' :: (text.flatMap escapeChar ++ ['"'])

def hexValue? (c : Char) : Option Nat :=
  if c.isDigit then some (c.toNat - '0'.toNat)
  else if 'a' ≤ c ∧ c ≤ 'f' then some (c.toNat - 'a'.toNat + 10)
  else if 'A' ≤ c ∧ c ≤ 'F' then some (c.toNat - 'A'.toNat + 10)
  else none

/-- Four hexadecimal digits. -/
def codeUnit? : List Char → Option (Nat × List Char)
  | a :: b :: c :: d :: rest => do
    let a ← hexValue? a
    let b ← hexValue? b
    let c ← hexValue? c
    let d ← hexValue? d
    some (((a * 16 + b) * 16 + c) * 16 + d, rest)
  | _ => none

/-- A character given by its code unit, or by the two units of a surrogate pair. A surrogate
without its partner is refused. -/
def unicode? (text : List Char) : Option (Char × List Char) := do
  let (high, rest) ← codeUnit? text
  if 0xD800 ≤ high ∧ high ≤ 0xDBFF then
    match rest with
    | '\\' :: 'u' :: rest =>
      let (low, rest) ← codeUnit? rest
      if 0xDC00 ≤ low ∧ low ≤ 0xDFFF then
        some (Char.ofNat (0x10000 + (high - 0xD800) * 0x400 + (low - 0xDC00)), rest)
      else none
    | _ => none
  else if 0xDC00 ≤ high ∧ high ≤ 0xDFFF then none
  else some (Char.ofNat high, rest)

/-- The character that an escape stands for; the text starts after the backslash. -/
def escape? : List Char → Option (Char × List Char)
  | '"' :: rest => some ('"', rest)
  | '\\' :: rest => some ('\\', rest)
  | '/' :: rest => some ('/', rest)
  | 'b' :: rest => some ('\x08', rest)
  | 'f' :: rest => some ('\x0c', rest)
  | 'n' :: rest => some ('\n', rest)
  | 'r' :: rest => some ('\r', rest)
  | 't' :: rest => some ('\t', rest)
  | 'u' :: rest => unicode? rest
  | _ => none

theorem codeUnit?_length {text rest : List Char} {u : Nat} (h : codeUnit? text = some (u, rest)) :
    rest.length + 4 = text.length := by
  match text, h with
  | a :: b :: c :: d :: tail, h =>
    simp only [codeUnit?, Option.bind_eq_bind, Option.bind_eq_some_iff, Option.some.injEq,
      Prod.mk.injEq] at h
    obtain ⟨_, _, _, _, _, _, _, _, _, rfl⟩ := h
    rfl

theorem unicode?_length_lt {text rest : List Char} {c : Char}
    (h : unicode? text = some (c, rest)) : rest.length < text.length := by
  simp only [unicode?, Option.bind_eq_bind, Option.bind_eq_some_iff, Prod.exists] at h
  obtain ⟨high, tail, hu, h⟩ := h
  have hl := codeUnit?_length hu
  split at h
  · split at h
    · rename_i tail'
      simp only [Option.bind_eq_some_iff, Prod.exists] at h
      obtain ⟨low, tail'', hv, h⟩ := h
      have hl' := codeUnit?_length hv
      simp only [List.length_cons] at hl
      split at h <;> simp at h
      obtain ⟨_, rfl⟩ := h
      omega
    · simp at h
  · split at h <;> simp at h
    obtain ⟨_, rfl⟩ := h
    omega

theorem escape?_length_lt {text rest : List Char} {c : Char}
    (h : escape? text = some (c, rest)) : rest.length < text.length := by
  unfold escape? at h
  split at h
  case h_9 => exact Nat.lt_succ_of_lt (unicode?_length_lt h)
  case h_10 => simp at h
  all_goals
    simp only [Option.some.injEq, Prod.mk.injEq] at h
    obtain ⟨_, rfl⟩ := h
    exact Nat.lt_succ_self _

/-- The text that a body between quotes denotes. -/
def decode? : List Char → Option (List Char)
  | [] => some []
  | c :: rest =>
    if c = '\\' then
      match _h : escape? rest with
      | some (e, rest') => (decode? rest').map (e :: ·)
      | none => none
    else (decode? rest).map (c :: ·)
termination_by body => body.length
decreasing_by
  · exact Nat.lt_succ_of_lt (escape?_length_lt _h)
  · exact Nat.lt_succ_self _

/-- The characters of an escape after its backslash, and what follows them. Any code unit will
do. -/
def scanEscape? : List Char → Option (List Char × List Char)
  | 'u' :: rest => (codeUnit? rest).map fun r => ('u' :: rest.take 4, r.2)
  | c :: rest => if c ∈ ['"', '\\', '/', 'b', 'f', 'n', 'r', 't'] then some ([c], rest) else none
  | [] => none

theorem scanEscape?_length_lt {text escape rest : List Char}
    (h : scanEscape? text = some (escape, rest)) : rest.length < text.length := by
  unfold scanEscape? at h
  split at h
  · simp only [Option.map_eq_some_iff, Prod.mk.injEq, Prod.exists] at h
    obtain ⟨_, _, hu, _, rfl⟩ := h
    have := codeUnit?_length hu
    simp only [List.length_cons]
    omega
  · split at h
    · simp only [Option.some.injEq, Prod.mk.injEq] at h
      obtain ⟨_, rfl⟩ := h
      exact Nat.lt_succ_self _
    · simp at h
  · simp at h

/-- The rest of a quoted text after its opening quote: its body, and what follows the closing
quote. -/
def scan? : List Char → Option (List Char × List Char)
  | [] => none
  | c :: rest =>
    if c = '"' then some ([], rest)
    else if c = '\\' then
      match _h : scanEscape? rest with
      | some (escape, rest') => (scan? rest').map fun r => (c :: (escape ++ r.1), r.2)
      | none => none
    else if c.toNat < 0x20 then none
    else (scan? rest).map fun r => (c :: r.1, r.2)
termination_by text => text.length
decreasing_by
  · exact Nat.lt_succ_of_lt (scanEscape?_length_lt _h)
  · exact Nat.lt_succ_self _

/-- A quoted text at the start: what it denotes, and what follows it. -/
def read? : List Char → Option (List Char × List Char)
  | '"' :: rest => do
    let (body, rest) ← scan? rest
    some (← decode? body, rest)
  | _ => none

end DiceScript.Quoted
