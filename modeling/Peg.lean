import Peg.Run
import Peg.Outcome
import Peg.Text.Unprintable
import Peg.Text.Quoted
import Peg.Rule.Basic
import Peg.Rule.Render
import Peg.Rule.Match
import Peg.Fault
import Peg.Grammar
import Peg.Store
import Peg.Search
import Peg.Log
import Peg.Blueprint
import Peg.Query
import Peg.Session
import Peg.Proofs.Equations
import Peg.Proofs.Depth
import Peg.Proofs.Derivation
import Peg.Proofs.Termination
import Peg.Proofs.Suffix
import Peg.Proofs.Scan
import Peg.Proofs.History
import Peg.Proofs.SessionHistory
import Peg.Proofs.Parts
import Peg.Proofs.Substitution
import Peg.Proofs.Resolution
import Peg.Proofs.Registry
import Peg.Proofs.Reordering
import Peg.Proofs.References
import Peg.Proofs.Answers
import Peg.Proofs.Description
import Peg.Proofs.Grounding
import Peg.Proofs.Frame
import Peg.Proofs.Checked
import Peg.Proofs.Redefinition
import Peg.Proofs.Lexing
import Peg.Proofs.NormalForm
import Peg.Proofs.Readability
import Peg.Proofs.PastEnd
import Peg.Proofs.Interchange
import Peg.Proofs.InterchangeRuns
import Peg.Proofs.PrintedGrammar
import Peg.Proofs.Machine
import Peg.Proofs.Overflow
import Peg.Proofs.Verdicts
import Peg.Proofs.Iteration
import Peg.Proofs.RepetitionLaws
import Peg.Proofs.Recursion
import Peg.Proofs.ChoiceLaws
import Peg.Proofs.Lookahead
import Peg.Proofs.ScanUntil
import Peg.Proofs.ScanRest
import Peg.Proofs.FullMatch
import Peg.Proofs.ContextFree
import Peg.Proofs.LongestMatch
import Peg.Proofs.Arithmetic
import Peg.Proofs.Nesting
import Peg.Proofs.Building
