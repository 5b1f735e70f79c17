import Peg.Outcome
import Peg.Rule.Basic
import Peg.Run

/-!
# Matching a rule under a meaning of its references

What a rule matches depends on what its references lead to. `Rule.matchWith` takes that as an
argument: `call target position` is the outcome of the reference `target` at `position`. So matching
descends through the rule alone, and only the meaning of references has to account for grammars that
refer to themselves.

Matching writes nothing of its own into the log. All entries come from `call`, in the order in which
the references are tried.

## Main definitions

* `Meaning ε` — an outcome for every reference at every position
* `Rule.matchWith` — the outcome of a rule at a position
* `Rule.stopOfSeq` — where the last of several rules in a row ends
* `Rule.firstMatch` — the first success among several alternatives
* `repeatFrom` — a greedy repetition
-/

namespace Peg

variable {ε : Type}

/-- An outcome for every reference at every position of a text. -/
abbrev Meaning (ε : Type) : Type := Ref → Nat → Run ε Outcome

/-- Whether the text holds the characters `chars` from `position` on. A position past the end holds
not even the empty string. -/
def startsAt (input : Array Char) : List Char → Nat → Bool
  | [], position => position ≤ input.size
  | c :: rest, position => input[position]? == some c && startsAt input rest (position + 1)

/-- How far a repetition has come. -/
structure Repetition where
  /-- How often the operand matched. -/
  times : Nat
  /-- Where its last match ended. -/
  stop : Nat
  deriving DecidableEq

/-- Repeat `attempt`, each time from where the last match ended, until it fails or consumes nothing.
A match that consumed nothing counts, but it is the last: it would match there forever.

At most `most` matches are made. With one more than there are characters left, the bound is never
met, as all but the last match consume at least one. -/
def repeatFrom (attempt : Nat → Run ε Outcome) : (most : Nat) → Repetition → Run ε Repetition
  | 0, sofar => pure sofar
  | most + 1, sofar => do
    let o ← attempt sofar.stop
    if o.matched then
      let next : Repetition := ⟨sofar.times + 1, sofar.stop + o.length⟩
      if o.length = 0 then pure next else repeatFrom attempt most next
    else
      pure sofar

/-- The greedy repetition of `attempt` from `position` on. -/
def repetition (input : Array Char) (attempt : Nat → Run ε Outcome) (position : Nat) :
    Run ε Repetition :=
  repeatFrom attempt (input.size - position + 1) ⟨0, position⟩

namespace Rule

mutual

/-- The outcome of a rule at a position, under the meaning `call` of its references. -/
def matchWith (call : Meaning ε) (input : Array Char) : Rule → Nat → Run ε Outcome
  | .char c, position =>
    pure (if input[position]? = some c then .success [c] else .noMatch)
  | .range low high, position =>
    pure <| match input[position]? with
      | some c => if low ≤ c ∧ c ≤ high then .success [c] else .noMatch
      | none => .noMatch
  | .string chars, position =>
    pure (if startsAt input chars position then .success chars else .noMatch)
  | .seq parts, position => do
    match ← stopOfSeq call input parts position with
    | some stop => pure (.ofSpan input position stop)
    | none => pure .noMatch
  | .pair left right, position => do
    let first ← matchWith call input left position
    if first.matched then
      let second ← matchWith call input right (position + first.length)
      -- The contents are joined here, where a sequence cuts its own from the text.
      pure (if second.matched then first.append second else .noMatch)
    else
      pure .noMatch
  | .choice alternatives, position => firstMatch call input alternatives position
  | .not operand, position => do
    let o ← matchWith call input operand position
    pure (if o.matched then .noMatch else .empty)
  | .star operand, position => do
    let reached ← repetition input (fun p => matchWith call input operand p) position
    pure (.ofSpan input position reached.stop)
  | .plus operand, position => do
    let reached ← repetition input (fun p => matchWith call input operand p) position
    -- A match that consumed nothing is enough, so the matches are counted.
    pure (if reached.times = 0 then .noMatch else .ofSpan input position reached.stop)
  | .opt operand, position => do
    let o ← matchWith call input operand position
    pure (if o.matched then o else .empty)
  | .ref target, position => call target position

/-- Where the last of `parts` ends when all of them match in a row, or `none` at the first failure.
Without parts that is where they begin. -/
def stopOfSeq (call : Meaning ε) (input : Array Char) : List Rule → Nat → Run ε (Option Nat)
  | [], position => pure (some position)
  | part :: rest, position => do
    let o ← matchWith call input part position
    if o.matched then stopOfSeq call input rest (position + o.length) else pure none

/-- The outcome of the first alternative that matches; those after it are not tried. -/
def firstMatch (call : Meaning ε) (input : Array Char) : List Rule → Nat → Run ε Outcome
  | [], _ => pure .noMatch
  | alternative :: rest, position => do
    let o ← matchWith call input alternative position
    if o.matched then pure o else firstMatch call input rest position

end

end Rule

end Peg
