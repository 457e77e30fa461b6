import DiceScript.Number.Double

/-!
# What modifiers do

The vocabulary that the syntax, the instructions and the dice pools share: sorting orders, choices
of dice to keep or discard, and relations to a threshold.
-/

namespace DiceScript

inductive SortOrder where
  | ascending
  | descending
deriving DecidableEq, Repr

/-- Which end of a pool: by value, or by the order in which the dice were rolled. -/
inductive Side where
  | high
  | low
  | front
  | rear
deriving DecidableEq, Repr

/-- Keep, or discard, some dice at one side. -/
structure Selector where
  discard : Bool
  side : Side
deriving DecidableEq, Repr

inductive Relation where
  | greater
  | less
  | equal
deriving DecidableEq, Repr

/-- A number stands in the relation to a threshold. NaN stands in none. -/
def Relation.holds : Relation → Double → Double → Bool
  | greater, x, threshold => threshold < x
  | less, x, threshold => x < threshold
  | equal, x, threshold => x == threshold

/-- What a file is opened for. -/
inductive Access where
  | read
  | write
deriving DecidableEq, Repr

end DiceScript
