import Peg.Outcome
import Peg.Run

/-!
# Searching a text

A search goes through a text from left to right and reports the stretches where something matches,
each one where the search can first find it after the one before. What matches is given by
`attempt`, the outcome at each position. The search does not care where outcomes come from.

A match may be empty, also at the very end of the text. After an empty match the search moves on by
one character, as it would find the same match forever.

## Main definitions

* `Occurrence` — a stretch of a text and its characters
* `Search` — what is searched for, and how long the text is
* `Search.leftmost` — the first occurrence among a number of positions
* `Search.next` — the next occurrence, and where the search goes on after it
* `Search.first` — the first occurrence in the text
* `Search.answers` — the occurrences one after another, up to a limit

## Main results

* `Search.next_of_size_lt` — a search that has passed the end of the text makes no further attempt
-/

namespace Peg

variable {ε : Type}

/-- A stretch of a text, from `start` up to but not including `stop`, with its characters. -/
structure Occurrence where
  /-- The position of the first character. -/
  start : Nat
  /-- The position after the last character. -/
  stop : Nat
  /-- The characters. -/
  value : List Char
  deriving DecidableEq

namespace Occurrence

/-- How many characters the stretch has. Every occurrence that a search finds has `start ≤ stop`
(`Search.calls_within`). One that is made otherwise may have its ends exchanged, and then it has no
length: the difference would be negative, and is cut off at 0 here. -/
def length (m : Occurrence) : Nat := m.stop - m.start

/-- Whether the stretch has no characters. -/
def isEmpty (m : Occurrence) : Bool := m.length == 0

/-- Where the stretch begins and where it ends. -/
def bounds (m : Occurrence) : Nat × Nat := (m.start, m.stop)

/-- The stretch that a match at `start` consumed. -/
def ofOutcome (start : Nat) (o : Outcome) : Occurrence := ⟨start, start + o.length, o.content⟩

/-- Where a search goes on after this occurrence: at its end, or one further if it is empty. -/
def resume (m : Occurrence) : Nat := if m.isEmpty then m.stop + 1 else m.stop

end Occurrence

/-- What is searched for, and how long the text is. -/
structure Search (ε : Type) where
  /-- The outcome at each position of the text. -/
  attempt : Nat → Run ε Outcome
  /-- The number of characters in the text. -/
  size : Nat

namespace Search

/-- The first occurrence among `tries` positions from `start` on. -/
def leftmost (search : Search ε) : (tries start : Nat) → Run ε (Option Occurrence)
  | 0, _ => pure none
  | tries + 1, start => do
    let o ← search.attempt start
    if o.matched then pure (some (.ofOutcome start o)) else search.leftmost tries (start + 1)

/-- The next occurrence at `cursor` or later, and the cursor after it. The end of the text is a
position too. Without an occurrence the cursor passes the end, and stays there. -/
def next (search : Search ε) (cursor : Nat) : Run ε (Option Occurrence × Nat) := do
  match ← search.leftmost (search.size + 1 - cursor) cursor with
  | some found => pure (some found, found.resume)
  | none => pure (none, max cursor (search.size + 1))

/-- The first occurrence in the text. -/
def first (search : Search ε) : Run ε (Option Occurrence) := do
  let (found, _) ← search.next 0
  pure found

/-- The answers of `next` one after another, from `cursor` on, at most `limit` of them. A search
that ends before that is asked once more, so two answers without an occurrence stand at the end. -/
def answersFrom (search : Search ε) : (limit cursor : Nat) → Run ε (List (Option Occurrence))
  | 0, _ => pure []
  | limit + 1, cursor => do
    let (found, cursor') ← search.next cursor
    match found with
    | some _ =>
      let rest ← search.answersFrom limit cursor'
      pure (found :: rest)
    | none =>
      -- The cursor has passed the end, where `next` finds nothing and stays.
      let (again, _) ← search.next cursor'
      pure [none, again]

/-- The answers of `next` from the start of the text. A limit may be set. Without one the search
runs to its end, as a text of `size` characters has at most `size + 1` occurrences. -/
def answers (search : Search ε) (limit : Option Nat) : Run ε (List (Option Occurrence)) :=
  search.answersFrom (limit.getD (search.size + 2)) 0

/-- Past the end of the text nothing is tried, and nothing is found. -/
theorem next_of_size_lt {search : Search ε} {cursor : Nat} (h : search.size < cursor) :
    search.next cursor = .ends (none, cursor) [] := by
  have hsub : search.size + 1 - cursor = 0 := by omega
  have hmax : max cursor (search.size + 1) = cursor := by omega
  simp [next, hsub, hmax, leftmost]

end Search

end Peg
