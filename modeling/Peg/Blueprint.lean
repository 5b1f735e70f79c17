import Peg.Fault
import Peg.Rule.Basic

/-!
# Blueprints of rules

A blueprint describes a rule that is still to be built. It names grammars by their names, where a
rule refers to them by identity, and it may ask for a check that can fail: that the bounds of a
range are in order, and that a choice has an alternative.

A blueprint is built from the bottom up, the parts from left to right and each before what contains
it. The first fault ends the building. The references that were made until then have been made, so
building answers with them even when it fails.

## Main definitions

* `Blueprint` — the descriptions
* `Blueprint.build` — the rule, or the first fault, with the references that were made on the way
-/

namespace Peg

/-- The range from `low` to `high`, if it holds a character at all. -/
def Rule.range? (low high : Char) : Except Fault Rule :=
  if high < low then .error (.reversedRange low high) else .ok (.range low high)

/-- The ordered choice among `alternatives`, if there are any. -/
def Rule.choice? (alternatives : List Rule) : Except Fault Rule :=
  if alternatives.isEmpty then .error .emptyChoice else .ok (.choice alternatives)

theorem Rule.range?_eq_ok_iff {low high : Char} {rule : Rule} :
    Rule.range? low high = .ok rule ↔ low ≤ high ∧ .range low high = rule := by
  rw [range?, ← Char.not_lt]
  split <;> simp [*]

theorem Rule.choice?_eq_ok_iff {alternatives : List Rule} {rule : Rule} :
    Rule.choice? alternatives = .ok rule ↔ alternatives ≠ [] ∧ .choice alternatives = rule := by
  cases alternatives <;> simp [choice?]

/-- The description of a rule. -/
inductive Blueprint where
  /-- A character. -/
  | char (c : Char)
  /-- A range whose bounds have to be in order. -/
  | range (low high : Char)
  /-- A range whose bounds may be reversed. -/
  | anyRange (low high : Char)
  /-- A string. -/
  | string (chars : List Char)
  /-- A sequence. -/
  | seq (parts : List Blueprint)
  /-- A sequence of two. -/
  | pair (left right : Blueprint)
  /-- A choice that has to have an alternative. -/
  | choice (alternatives : List Blueprint)
  /-- A choice that may have no alternative. -/
  | anyChoice (alternatives : List Blueprint)
  /-- A negative lookahead. -/
  | not (operand : Blueprint)
  /-- A repetition. -/
  | star (operand : Blueprint)
  /-- A repetition that matches at least once. -/
  | plus (operand : Blueprint)
  /-- An option. -/
  | opt (operand : Blueprint)
  /-- A reference to the rule `name` of the grammar that is called `grammar`. -/
  | ref (grammar name : String)

/-- What building gave: the references that were made, in that order, and the result or the fault
that ended the building. -/
structure Built (α : Type) where
  /-- The references that were made. -/
  refs : List Ref
  /-- The result. -/
  result : Except Fault α

namespace Built

variable {α β : Type}

/-- Build something further from the result. -/
def andThen (first : Built α) (next : α → Built β) : Built β :=
  match first.result with
  -- The references of what comes next are not made any more.
  | .error fault => ⟨first.refs, .error fault⟩
  | .ok a =>
    let second := next a
    ⟨first.refs ++ second.refs, second.result⟩

/-- A result that took no reference. -/
def plain (a : α) : Built α := ⟨[], .ok a⟩

/-- Turn the result into another one. -/
def map (f : α → β) (built : Built α) : Built β := ⟨built.refs, built.result.map f⟩

/-- Check the result. -/
def check (f : α → Except Fault β) (built : Built α) : Built β :=
  ⟨built.refs, built.result.bind f⟩

end Built

namespace Blueprint

mutual

/-- Build a rule. `locate` gives the identity of the grammar of a name. -/
def build (locate : String → Option GrammarId) : Blueprint → Built Rule
  | .char c => .plain (.char c)
  | .range low high => ⟨[], Rule.range? low high⟩
  | .anyRange low high => .plain (.range low high)
  | .string chars => .plain (.string chars)
  | .seq parts => (buildAll locate parts).map .seq
  | .pair left right =>
    (build locate left).andThen fun a => (build locate right).map fun b => .pair a b
  | .choice alternatives => (buildAll locate alternatives).check Rule.choice?
  | .anyChoice alternatives => (buildAll locate alternatives).map .choice
  | .not operand => (build locate operand).map .not
  | .star operand => (build locate operand).map .star
  | .plus operand => (build locate operand).map .plus
  | .opt operand => (build locate operand).map .opt
  | .ref grammar name =>
    match locate grammar with
    | some id => ⟨[⟨id, name⟩], .ok (.ref ⟨id, name⟩)⟩
    | none => ⟨[], .error (.unknownGrammar grammar)⟩

/-- Build several rules, from left to right. -/
def buildAll (locate : String → Option GrammarId) : List Blueprint → Built (List Rule)
  | [] => .plain []
  | blueprint :: rest =>
    (build locate blueprint).andThen fun rule => (buildAll locate rest).map (rule :: ·)

end

end Blueprint

end Peg
