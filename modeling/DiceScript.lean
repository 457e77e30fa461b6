import DiceScript.Formula
import DiceScript.Host.Disk
import DiceScript.Main
import DiceScript.Proofs.Assembly.Addresses
import DiceScript.Proofs.Code.Layout
import DiceScript.Proofs.Code.Resolution
import DiceScript.Proofs.Machine.Outcome
import DiceScript.Proofs.Machine.Turns
import DiceScript.Proofs.Machine.Forward
import DiceScript.Proofs.Compile.Halting
import DiceScript.Proofs.Machine.Passage
import DiceScript.Proofs.Semantics.Evaluation
import DiceScript.Proofs.Machine.Effect
import DiceScript.Proofs.Machine.Instructions
import DiceScript.Proofs.Code.Placement
import DiceScript.Proofs.Compile.Simulation
import DiceScript.Proofs.Compile.Meaning
import DiceScript.Proofs.Semantics.Blame
import DiceScript.Proofs.Compile.StackDiscipline
import DiceScript.Proofs.Syntax.Grammar
import DiceScript.Proofs.Syntax.Drafts
import DiceScript.Proofs.Syntax.Soundness
import DiceScript.Proofs.Syntax.Completeness
import DiceScript.Proofs.Syntax.Ambiguity
import DiceScript.Proofs.Syntax.Acceptance
import DiceScript.Proofs.Token.Seam
import DiceScript.Proofs.Token.Coverage
import DiceScript.Proofs.Syntax.Extension
import DiceScript.Proofs.Code.Shift
import DiceScript.Proofs.Machine.Sequence
import DiceScript.Proofs.Compile.Composition
import DiceScript.Proofs.Compile.Formula
import DiceScript.Proofs.Number.Bits
import DiceScript.Proofs.Number.Order
import DiceScript.Proofs.Number.Rounding
import DiceScript.Proofs.Number.Exact
import DiceScript.Proofs.Number.Whole
import DiceScript.Proofs.Number.Digits
import DiceScript.Proofs.Dice.Draws
import DiceScript.Proofs.Dice.Pools
import DiceScript.Proofs.Dice.Rolling
import DiceScript.Proofs.Dice.Totals
import DiceScript.Proofs.Dice.Ranking
import DiceScript.Proofs.Dice.Reordering
import DiceScript.Proofs.Dice.Sorting
import DiceScript.Proofs.Dice.Selection
import DiceScript.Proofs.Dice.Passes
import DiceScript.Proofs.Number.Printing
import DiceScript.Proofs.Json.Quoting
import DiceScript.Proofs.Text.Lines
import DiceScript.Proofs.Assembly.Fields
import DiceScript.Proofs.Assembly.Renaming
import DiceScript.Proofs.Assembly.RoundTrip
import DiceScript.Proofs.Text.Positions
import DiceScript.Proofs.Syntax.Refusals
import DiceScript.Proofs.Diagnostic.ParseErrors
import DiceScript.Proofs.Machine.Output
import DiceScript.Proofs.Bytecode.Saving
import DiceScript.Proofs.Compile.LastValue
import DiceScript.Proofs.Syntax.Pools
import DiceScript.Proofs.Compile.Groups
import DiceScript.Proofs.Code.Completion
import DiceScript.Proofs.Semantics.Pools
import DiceScript.Proofs.Compile.Parts
import DiceScript.Proofs.Compile.Reduction
import DiceScript.Proofs.Syntax.EndOfInput
import DiceScript.Proofs.Files.Sessions
import DiceScript.Proofs.Files.DiskRuns
import DiceScript.Proofs.Assembly.Safety
import DiceScript.Proofs.Bytecode.Lossless
import DiceScript.Proofs.Compile.Spacing
import DiceScript.Proofs.Assembly.Handwritten
import DiceScript.Proofs.Text.Encoding
import DiceScript.Proofs.Text.Segments
import DiceScript.Proofs.Files.PrintedLines
import DiceScript.Proofs.Files.ReadBack
import DiceScript.Proofs.Files.Relaying
import DiceScript.Proofs.Text.Places
import DiceScript.Proofs.Number.Display
import DiceScript.Proofs.Files.PrintedNumbers
import DiceScript.Proofs.Diagnostic.Carets
import DiceScript.Proofs.Syntax.Calls
import DiceScript.Proofs.Syntax.Progress
