import Peg.Rule.Basic
import Peg.Text.Quoted

/-!
# The written form of a rule

Rules are written as in a grammar of parsing expressions: `('a'..'h'+ / "xyz")`. A sequence and a
choice stand in parentheses. No parentheses are added around the operand of `!`, `*`, `+` or `?`.
A reference is written as the bare name, so the form does not say to which grammar it belongs.

## Main definitions

* `Rule.render` — the written form of a rule
* `Rule.renderJoined` — the written forms of several rules with a text between them
-/

namespace Peg

namespace Rule

mutual

/-- The written form of a rule. -/
def render : Rule → List Char
  | .char c => Text.quotedChar c
  | .range low high => Text.quotedChar low ++ ['.', '.'] ++ Text.quotedChar high
  | .string chars => Text.quotedString chars
  | .seq parts => '(' :: renderJoined [' '] parts ++ [')']
  | .pair left right => '(' :: render left ++ [' '] ++ render right ++ [')']
  | .choice alternatives => '(' :: renderJoined [' ', '/', ' '] alternatives ++ [')']
  | .not operand => '!' :: render operand
  | .star operand => render operand ++ ['*']
  | .plus operand => render operand ++ ['+']
  | .opt operand => render operand ++ ['?']
  | .ref target => target.name.toList

/-- The written forms of several rules, with `gap` between two neighbours. -/
def renderJoined (gap : List Char) : List Rule → List Char
  | [] => []
  | rule :: rest => render rule ++ renderRest gap rest

/-- The written forms of several rules, with `gap` before each. -/
def renderRest (gap : List Char) : List Rule → List Char
  | [] => []
  | rule :: rest => gap ++ render rule ++ renderRest gap rest

end

end Rule

end Peg
