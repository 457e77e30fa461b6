import DiceScript.Token

/-!
# From text to tokens

At every place the longest word that starts there is taken. White space and comments give no token,
and a maximal run of characters at which nothing starts is one token of kind `unknown`.
-/

namespace DiceScript

namespace Token

/-- The characters that separate tokens. -/
def isLayout (c : Char) : Bool :=
  c == ' ' || c == '\t' || c == '\r' || c == '\n'

/-- The fixed word that starts a text, the longest of several. -/
def spelling? (text : List Char) : Option (String × TokenKind) :=
  TokenKind.spellings.find? fun s => s.1.toList.isPrefixOf text

/-- What starts a text and how many characters it has: a token of some kind, or layout without
one. -/
def start? (text : List Char) : Option (Option TokenKind × Nat) :=
  match text with
  | [] => none
  | c :: _ =>
    if isLayout c then some (none, (text.takeWhile isLayout).length)
    else if ['/', '/'].isPrefixOf text then some (none, (text.takeWhile (· != '\n')).length)
    else if c.isDigit then some (some .number, (text.takeWhile Char.isDigit).length)
    else (spelling? text).map fun s => (some s.2, s.1.length)

/-- The number of characters before the first place at which something starts. -/
def unknownLength : List Char → Nat
  | [] => 0
  | c :: rest => if (start? (c :: rest)).isNone then unknownLength rest + 1 else 0

/-- The tokens of the rest of a source, which begins at a position and an offset. -/
def scan (position : Position) (offset : Nat) (text : List Char) : List Token :=
  match text with
  | [] => []
  | c :: rest =>
    let (kind, length) := (start? text).getD (some .unknown, unknownLength text)
    let taken := c :: rest.take (length - 1)
    let stop := offset + byteLength taken
    let following := scan (position.advance taken) stop (rest.drop (length - 1))
    match kind with
    | none => following
    | some kind =>
      ⟨kind, String.ofList taken, position, ⟨offset, stop⟩⟩ :: following
termination_by text.length
decreasing_by
  simp only [List.length_drop, List.length_cons]
  omega

end Token

def tokenize (source : String) : List Token :=
  Token.scan .first 0 source.toList

end DiceScript
