import Peg.Store

/-!
# The log

What is done with rules leaves entries in a log. Each has a level and a line of text: a definition
is a matter for debugging, all else traces matches.

## Main definitions

* `Miss.line` — the line about a reference that led nowhere
* `Event` — the entries of the log
* `Event.line` — the line of an entry
-/

namespace Peg

/-- The line about a reference that led nowhere. -/
def Miss.line : Miss → List Char
  | .undefined target => "rule ".toList ++ target.name.toList ++ " is not defined".toList
  | .dropped target =>
    "rule ".toList ++ target.name.toList ++ " belongs to a dropped grammar".toList

/-- An entry of the log. -/
inductive Event where
  /-- A rule is about to be defined, be it accepted or not. -/
  | define (name : String) (rule : Rule)
  /-- A reference was tried and led nowhere. -/
  | miss (cause : Miss)
  /-- A whole text was matched from its start. -/
  | answer (rule : Rule) (text : List Char) (outcome : Outcome)

/-- The level of an entry. -/
inductive Level where
  /-- What is done to grammars. -/
  | debug
  /-- What matches do. -/
  | trace
  deriving DecidableEq

/-- The word for a level. -/
def Level.word : Level → List Char
  | .debug => "DEBUG".toList
  | .trace => "TRACE".toList

namespace Event

/-- The level of an entry. -/
def level : Event → Level
  | .define .. => .debug
  | .miss _ => .trace
  | .answer .. => .trace

/-- The text of an entry, without its level. -/
def message : Event → List Char
  | .define name rule => "define rule ".toList ++ Grammar.renderDefinition name rule
  | .miss cause => cause.line
  | .answer rule text outcome =>
    rule.render ++ " on \"".toList ++ text ++ "\": ".toList ++ outcome.render

/-- The line of an entry: its level and its text. -/
def line (event : Event) : List Char := event.level.word ++ ' ' :: event.message

end Event

end Peg
