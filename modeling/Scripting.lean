import Scripting.Main
import Scripting.Node.Outline
import Scripting.Value.Identity
import Scripting.Proofs.Accumulation
import Scripting.Proofs.Assignments
import Scripting.Proofs.BatchChecks
import Scripting.Proofs.BracketCounts
import Scripting.Proofs.CallEffects
import Scripting.Proofs.CallerIndependence
import Scripting.Proofs.Composition
import Scripting.Proofs.Conversations
import Scripting.Proofs.FaultPlaces
import Scripting.Proofs.FirstEnd
import Scripting.Proofs.KeptTokens
import Scripting.Proofs.NestedClosures
import Scripting.Proofs.TypeStability
import Scripting.Proofs.Unwinding
import Scripting.Proofs.SeparateLines
import Scripting.Proofs.SharedCells
import Scripting.Proofs.SpelledTokens
import Scripting.Proofs.StatementEnds
import Scripting.Proofs.WrittenExpressions
import Scripting.Proofs.ReadExpressions
import Scripting.Proofs.Places
import Scripting.Proofs.Grammar
import Scripting.Proofs.Walks
import Scripting.Proofs.References
import Scripting.Proofs.Listing
import Scripting.Proofs.Captures
import Scripting.Proofs.Contexts
import Scripting.Proofs.Refusals
import Scripting.Proofs.Coverage
import Scripting.Proofs.ParsedTrees
import Scripting.Proofs.ErrorPlaces
import Scripting.Proofs.Warnings
import Scripting.Proofs.IntegerArithmetic
import Scripting.Proofs.PrintedIntegers
import Scripting.Proofs.Comparisons
import Scripting.Proofs.UniqueReading
