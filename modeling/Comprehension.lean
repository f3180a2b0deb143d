import Comprehension.Text.Blank
import Comprehension.Text.Marker
import Comprehension.Text.Quoted
import Comprehension.Double.Layout
import Comprehension.Value.Equality
import Comprehension.Value.Key
import Comprehension.Value.Inspect
import Comprehension.Json.Reader
import Comprehension.Json.Printer
import Comprehension.Reference
import Comprehension.Template
import Comprehension.Clause
import Comprehension.Evaluation
import Comprehension.Main
import Comprehension.Proofs.Grammar
import Comprehension.Proofs.Evaluation
import Comprehension.Proofs.Json.RoundTrip
import Comprehension.Proofs.Json.CanonicalText
import Comprehension.Proofs.Json.Compaction
import Comprehension.Proofs.Agreement
import Comprehension.Proofs.Interpolation
import Comprehension.Proofs.Written
import Comprehension.Proofs.Renaming
import Comprehension.Proofs.Fault
import Comprehension.Proofs.FirstFault
import Comprehension.Proofs.WhiteSpace
import Comprehension.Proofs.Template
import Comprehension.Proofs.CommandLine.Arguments
import Comprehension.Proofs.CommandLine.Slots
import Comprehension.Proofs.CommandLine.Joining
import Comprehension.Proofs.CommandLine.Responses
import Comprehension.Proofs.Environment
import Comprehension.Proofs.Events
import Comprehension.Proofs.KeyIteration
import Comprehension.Proofs.Rebuilding
import Comprehension.Proofs.LongestReference
import Comprehension.Proofs.Json.ControlCharacters
import Comprehension.Proofs.Double.Key
import Comprehension.Proofs.Json.FloatText
import Comprehension.Proofs.TemplateBuilding
import Comprehension.Proofs.Value.PartialEquivalence
import Comprehension.Proofs.ResolvedPlans
import Comprehension.Proofs.DistinctNames
