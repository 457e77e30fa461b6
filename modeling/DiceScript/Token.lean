import DiceScript.Source

/-!
# Tokens

The words of the language: their kinds, how each fixed word is spelled, and how an error message
names it.
-/

namespace DiceScript

inductive TokenKind where
  | openRead
  | openWrite
  | fileRead
  | fileWrite
  | pipe
  | prompt
  | print
  | and
  | or
  | store
  | load
  | negate
  | leftBrace
  | rightBrace
  | leftBracket
  | rightBracket
  | leftParen
  | rightParen
  | comma
  | star
  | slash
  | percent
  | plus
  | minus
  | greater
  | less
  | equals
  | repeatOnce
  | repeatUntil
  | keepHigh
  | keepLow
  | keepFront
  | keepRear
  | discardHigh
  | discardLow
  | discardFront
  | discardRear
  | sortDescending
  | sort
  | roll
  | number
  | unknown
deriving DecidableEq, Repr

namespace TokenKind

/-- The fixed words, the longer of two before its own beginning. -/
def spellings : List (String × TokenKind) :=
  [("^", openRead), ("v", openWrite), ("?|", fileRead), ("!|", fileWrite), ("||", or),
    ("|", pipe), ("?", prompt), ("!", print), ("&&", and), ("@", store), ("&", load),
    ("~", negate), ("\x7b", leftBrace), ("\x7d", rightBrace), ("[", leftBracket),
    ("]", rightBracket), ("(", leftParen), (")", rightParen), (",", comma), ("*", star),
    ("/", slash), ("%", percent), ("+", plus), ("-", minus), (">", greater), ("<", less),
    ("=", equals), ("ro", repeatOnce), ("r", repeatUntil), ("kh", keepHigh), ("kl", keepLow),
    ("kf", keepFront), ("kr", keepRear), ("dh", discardHigh), ("dl", discardLow),
    ("df", discardFront), ("dr", discardRear), ("sd", sortDescending), ("s", sort), ("d", roll)]

/-- The name of a kind in error messages. -/
def describe : TokenKind → String
  | openRead => "file open for reading '^'"
  | openWrite => "file open for writing 'v'"
  | fileRead => "file read '?|'"
  | fileWrite => "file write '!|'"
  | pipe => "'|'"
  | prompt => "prompt '?'"
  | print => "print '!'"
  | and => "'&&'"
  | or => "'||'"
  | store => "store reference '@'"
  | load => "load reference '&'"
  | negate => "'~'"
  | leftBrace => "'\x7b'"
  | rightBrace => "'\x7d'"
  | leftBracket => "'['"
  | rightBracket => "']'"
  | leftParen => "'('"
  | rightParen => "')'"
  | comma => "','"
  | star => "'*'"
  | slash => "'/'"
  | percent => "'%'"
  | plus => "'+'"
  | minus => "'-'"
  | greater => "'>'"
  | less => "'<'"
  | equals => "'='"
  | repeatOnce => "modifier 'ro'"
  | repeatUntil => "modifier 'r'"
  | keepHigh => "modifier 'kh'"
  | keepLow => "modifier 'kl'"
  | keepFront => "modifier 'kf'"
  | keepRear => "modifier 'kr'"
  | discardHigh => "modifier 'dh'"
  | discardLow => "modifier 'dl'"
  | discardFront => "modifier 'df'"
  | discardRear => "modifier 'dr'"
  | sortDescending => "modifier 'sd'"
  | sort => "modifier 's'"
  | roll => "dice marker 'd'"
  | number => "number"
  | unknown => "unrecognised input"

end TokenKind

/-- A word of a source: its kind, its text, and where it stands. -/
structure Token where
  kind : TokenKind
  text : String
  position : Position
  span : Span
deriving DecidableEq, Repr

end DiceScript
