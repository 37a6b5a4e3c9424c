import NaturalDeduction.Check.Basic
import NaturalDeduction.Check.Node
import NaturalDeduction.Check.Structure
import NaturalDeduction.Check.Verdict
import NaturalDeduction.CommandLine.Files
import NaturalDeduction.CommandLine.Options
import NaturalDeduction.CommandLine.Run
import NaturalDeduction.Graph.Basic
import NaturalDeduction.Graph.Build
import NaturalDeduction.Graph.Embed
import NaturalDeduction.Graph.Equality
import NaturalDeduction.Graph.Fingerprint
import NaturalDeduction.Graph.Grammar
import NaturalDeduction.Graph.Printer
import NaturalDeduction.Graph.Quote
import NaturalDeduction.Graph.Same
import NaturalDeduction.Source.Parser
import NaturalDeduction.Source.Span
import NaturalDeduction.Source.Token
import NaturalDeduction.Syntax.Basic
import NaturalDeduction.Syntax.Rule
import NaturalDeduction.Text.Newline
import NaturalDeduction.Text.Numeral
import NaturalDeduction.Text.Printable
import NaturalDeduction.Text.Quoted
import NaturalDeduction.Text.Slice
import NaturalDeduction.Main
import NaturalDeduction.Proofs.Roles
import NaturalDeduction.Proofs.Memo
import NaturalDeduction.Proofs.Survey
import NaturalDeduction.Proofs.PlainSurvey
import NaturalDeduction.Proofs.Value
import NaturalDeduction.Proofs.Asks
import NaturalDeduction.Proofs.RuleTable
import NaturalDeduction.Proofs.Trees
import NaturalDeduction.Proofs.Soundness
import NaturalDeduction.Proofs.Completeness
import NaturalDeduction.Proofs.Kripke
import NaturalDeduction.Proofs.Printing
import NaturalDeduction.Proofs.Faults
import NaturalDeduction.Proofs.PlainRules
import NaturalDeduction.Proofs.Stacks
import NaturalDeduction.Proofs.Tours
import NaturalDeduction.Proofs.Totality
import NaturalDeduction.Proofs.Phases
import NaturalDeduction.Proofs.Forgery
import NaturalDeduction.Proofs.Mismatch
import NaturalDeduction.Proofs.Parallel
import NaturalDeduction.Proofs.Weakening
import NaturalDeduction.Proofs.Substitution
import NaturalDeduction.Proofs.Wording
import NaturalDeduction.Proofs.Twins
import NaturalDeduction.Proofs.Agreement
import NaturalDeduction.Proofs.Reordering
import NaturalDeduction.Proofs.Lexing
import NaturalDeduction.Proofs.ParseTree
import NaturalDeduction.Proofs.Reading
import NaturalDeduction.Proofs.RoundTrip
import NaturalDeduction.Proofs.Typing
import NaturalDeduction.Proofs.Embedding
import NaturalDeduction.Proofs.Names
import NaturalDeduction.Proofs.Lines
import NaturalDeduction.Proofs.Runs
import NaturalDeduction.Proofs.Exits
import NaturalDeduction.Proofs.Alike
import NaturalDeduction.Proofs.Normalising
import NaturalDeduction.Proofs.Sentences
import NaturalDeduction.Proofs.Viability
import NaturalDeduction.Proofs.Sameness
import NaturalDeduction.Proofs.Locations
import NaturalDeduction.Proofs.FirstFault
import NaturalDeduction.Proofs.Truncation
import NaturalDeduction.Proofs.Places
import NaturalDeduction.Proofs.Groups
import NaturalDeduction.Proofs.Pointing
import NaturalDeduction.Proofs.Columns
import NaturalDeduction.Proofs.Gaps
import NaturalDeduction.Proofs.Remembering
import NaturalDeduction.Proofs.Brevity
