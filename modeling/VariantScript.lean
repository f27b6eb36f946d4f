import VariantScript.Number.Remainder
import VariantScript.Number.Text
import VariantScript.Text.Blank
import VariantScript.Text.Upper
import VariantScript.Host.Json
import VariantScript.Evaluation.Offered
import VariantScript.Syntax.Node
import VariantScript.Syntax.Program
import VariantScript.Main
import VariantScript.Surroundings.Document
import VariantScript.Surroundings.Keyboard
import VariantScript.Proofs.Reading.Earliest
import VariantScript.Proofs.Evaluation.Containment
import VariantScript.Proofs.Evaluation.Shape
import VariantScript.Proofs.Comparison.Laws
import VariantScript.Proofs.Serialization.RoundTrip
import VariantScript.Proofs.Evaluation.Scopes
import VariantScript.Proofs.Evaluation.WellFormed
import VariantScript.Proofs.Evaluation.Returns
import VariantScript.Proofs.Joining.Session
import VariantScript.Proofs.SideBySide.Branching
import VariantScript.Proofs.SideBySide.Coincidence
import VariantScript.Proofs.SideBySide.Observers
import VariantScript.Proofs.Recursion.Limits
import VariantScript.Proofs.Binding.Leftovers
import VariantScript.Proofs.Binding.Destructuring
import VariantScript.Proofs.Prompt.Lines
import VariantScript.Proofs.Prompt.Switches
import VariantScript.Proofs.Lexing.Partition
import VariantScript.Proofs.Layout.Spacing
import VariantScript.Proofs.Walks.Concatenation
import VariantScript.Proofs.Splitting.Lists
import VariantScript.Proofs.Lifting.Lists
import VariantScript.Proofs.Lifting.Records
import VariantScript.Proofs.Marshalling.Restoring
import VariantScript.Proofs.Marshalling.Refusals
import VariantScript.Proofs.Marshalling.EqualValues
import VariantScript.Proofs.Faults.Locations
import VariantScript.Proofs.Places.Hoisting
import VariantScript.Proofs.Evaluation.Dispatching
import VariantScript.Proofs.Places.Trees
import VariantScript.Proofs.Grammar.Decision
import VariantScript.Proofs.Places.Braces
import VariantScript.Proofs.Shorthands.Spelling
import VariantScript.Proofs.Shorthands.Derivations
import VariantScript.Proofs.Shorthands.Texts
import VariantScript.Proofs.Shorthands.Programs
