/-!
# Faults

What can be wrong with a request to build a rule, to define it or to look it up. That a rule does
not match is never a fault: it is an ordinary outcome.

## Main definitions

* `Fault` — the causes
* `Fault.message` — the text that reports one
-/

namespace Peg

/-- Why a request was refused. -/
inductive Fault where
  /-- The low bound of a range is greater than its high bound. -/
  | reversedRange (low high : Char)
  /-- An ordered choice has no alternative. -/
  | emptyChoice
  /-- A rule is defined a second time. -/
  | duplicateRule (name : String)
  /-- A rule is needed, but it has no definition. -/
  | undefinedRule (name : String)
  /-- There is no grammar of this name. -/
  | unknownGrammar (name : String)
  /-- No rule is kept under this label. -/
  | unknownHeld (label : String)
  deriving DecidableEq

/-- The text that reports a fault. Names and characters appear in it as they stand. -/
def Fault.message : Fault → String
  | .reversedRange low high =>
    "Invalid character range '" ++ low.toString ++ "'..'" ++ high.toString
      ++ "', the low bound is greater than the high bound."
  | .emptyChoice => "Ordered choice requires at least one alternative."
  | .duplicateRule name => "Rule \"" ++ name ++ "\" is already defined."
  | .undefinedRule name => "Rule \"" ++ name ++ "\" is referenced but not defined."
  | .unknownGrammar name => "There is no grammar \"" ++ name ++ "\"."
  | .unknownHeld label => "No rule is held as \"" ++ label ++ "\"."

end Peg
