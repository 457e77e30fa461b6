import DiceScript.Token

/-!
# Why a source is refused

A parse error names the token at which reading stopped and the cause, or says that the input ended
too soon. Its wording and its place follow from these.
-/

namespace DiceScript

/-- The modifiers that a value takes at most once. -/
inductive Family where
  | sort
  | reroll
  | check
  | select
deriving DecidableEq, Repr

inductive ParseCause where
  | expected (kind : TokenKind)
  | expectedAtom
  | malformedNumber
  | unrecognised
  | strayInBlock
  | expectedSeparator
  | openWithoutHandle
  | repeated (family : Family)
  | rerollWithoutRoll
  | notAReference
  | expectedRoll
deriving DecidableEq, Repr

def ParseCause.message : ParseCause → String
  | expected kind => "expected " ++ kind.describe
  | expectedAtom => "expected a number or '('"
  | malformedNumber => "malformed number"
  | unrecognised => "unrecognised input"
  | strayInBlock => "unexpected symbol in conditional block"
  | expectedSeparator => "expected '|' or '\x7d' in conditional block"
  | openWithoutHandle => "a file open needs a '@' reference to name its handle"
  | repeated .sort => "only one sort modifier is allowed per value"
  | repeated .reroll => "only one repeat modifier is allowed per value"
  | repeated .check => "only one crit check is allowed per value"
  | repeated .select => "only one keep/discard modifier is allowed per value"
  | rerollWithoutRoll => "a repeat modifier needs a dice roll to reroll"
  | notAReference => "expected a dice-style reference such as 1d2"
  | expectedRoll => "expected dice marker 'd' in reference"

/-- Why the rest of a token list is refused. -/
inductive Refusal where
  | endOfInput
  | unexpected (token : Token) (cause : ParseCause)
deriving DecidableEq, Repr

/-- A refusal of a whole token list. The end of the input is reported at the last token. -/
inductive ParseError where
  | endOfInput (last : Option Token)
  | unexpected (token : Token) (cause : ParseCause)
deriving DecidableEq, Repr

namespace ParseError

def position : ParseError → Position
  | endOfInput none => ⟨1, 1⟩
  | endOfInput (some token) => token.position
  | unexpected token _ => token.position

def span : ParseError → Span
  | endOfInput none => ⟨0, 0⟩
  | endOfInput (some token) => token.span
  | unexpected token _ => token.span

def found : ParseError → Option String
  | endOfInput _ => none
  | unexpected token _ => some token.text

def detail : ParseError → String
  | endOfInput _ => "unexpected end of input"
  | unexpected _ cause => cause.message

def message (e : ParseError) : String :=
  "Error line " ++ toString e.position.line ++ " column " ++ toString e.position.column ++ ": " ++
    e.detail ++
    match e.found with
    | some text => ", got \"" ++ text ++ "\" instead"
    | none => ""

end ParseError

def Refusal.toError (tokens : List Token) : Refusal → ParseError
  | endOfInput => .endOfInput tokens.getLast?
  | unexpected token cause => .unexpected token cause

end DiceScript
