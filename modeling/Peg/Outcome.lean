/-!
# Outcomes of a match

Trying a rule at a position of a text always answers with an `Outcome`: whether the rule matched,
how many characters it consumed and which ones. A failure is an ordinary outcome. It consumes
nothing, so it is told from an empty success by the flag `matched` alone.

Positions and lengths count Unicode scalar values, and a position may lie past the end of the text.

## Main definitions

* `Outcome.success` — a match that consumed the given characters
* `Outcome.empty` / `Outcome.noMatch` — a match that consumed nothing / the failure
* `Outcome.ofSpan` — the match of a stretch of a text
* `Outcome.append` — the outcome of two matches in a row
* `Outcome.render` — the text of an outcome in a log
-/

namespace Peg

/-- What one attempt to match gave. -/
@[ext]
structure Outcome where
  /-- Whether the rule matched. -/
  matched : Bool
  /-- How many characters were consumed. -/
  length : Nat
  /-- The characters that were consumed. -/
  content : List Char
  deriving DecidableEq

namespace Outcome

/-- A match that consumed `chars`. -/
def success (chars : List Char) : Outcome := ⟨true, chars.length, chars⟩

/-- A match that consumed nothing. -/
def empty : Outcome := ⟨true, 0, []⟩

/-- The failure. -/
def noMatch : Outcome := ⟨false, 0, []⟩

/-- The match of the characters of `input` from `start` up to, but not including, `stop`. A stretch
that is not within the text, or that runs backwards, is taken as empty. -/
def ofSpan (input : Array Char) (start stop : Nat) : Outcome :=
  if start ≤ stop ∧ stop ≤ input.size then
    success (input.extract start stop).toList
  else
    empty

/-- The outcome of two matches in a row, the second of which began where the first ended. -/
def append (first second : Outcome) : Outcome :=
  ⟨true, first.length + second.length, first.content ++ second.content⟩

/-- Whether nothing was consumed. -/
def isEmpty (o : Outcome) : Bool := o.length == 0

/-- The text of an outcome: its length, its content as it stands, and whether it matched. -/
def render (o : Outcome) : List Char :=
  "MatchResult(".toList ++ Nat.toDigits 10 o.length ++ [',', ' '] ++ o.content ++ [',', ' ']
    ++ (if o.matched then "true" else "false").toList ++ [')']

@[simp] theorem matched_success (chars : List Char) : (success chars).matched = true := rfl

@[simp] theorem length_success (chars : List Char) : (success chars).length = chars.length := rfl

@[simp] theorem content_success (chars : List Char) : (success chars).content = chars := rfl

@[simp] theorem success_nil : success [] = empty := rfl

@[simp] theorem matched_empty : empty.matched = true := rfl

@[simp] theorem length_empty : empty.length = 0 := rfl

@[simp] theorem content_empty : empty.content = [] := rfl

@[simp] theorem matched_noMatch : noMatch.matched = false := rfl

@[simp] theorem length_noMatch : noMatch.length = 0 := rfl

@[simp] theorem content_noMatch : noMatch.content = [] := rfl

/-- A stretch of a text always counts as matched. -/
@[simp] theorem matched_ofSpan (input : Array Char) (start stop : Nat) :
    (ofSpan input start stop).matched = true := by
  unfold ofSpan
  split <;> rfl

/-- A stretch that ends where it begins is empty, wherever that is. -/
@[simp] theorem ofSpan_self (input : Array Char) (start : Nat) :
    ofSpan input start start = empty := by
  simp [ofSpan]

theorem content_ofSpan {input : Array Char} {start stop : Nat} (h : start ≤ stop)
    (h' : stop ≤ input.size) :
    (ofSpan input start stop).content = (input.toList.drop start).take (stop - start) := by
  simp [ofSpan, h, h', List.extract_eq_take_drop]

theorem length_ofSpan {input : Array Char} {start stop : Nat} (h : start ≤ stop)
    (h' : stop ≤ input.size) : (ofSpan input start stop).length = stop - start := by
  simp [ofSpan, h, h']
  omega

end Outcome

end Peg
