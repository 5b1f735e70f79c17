import Mathlib.Algebra.Group.Nat.Defs
import Peg.Proofs.Span
import Peg.Query

/-!
# Matching with machine words

Positions and lengths have no bound here, while a machine keeps them in words of 64 bits. This is
matching as a machine carries it out. Every sum is a sum of words, every slice is cut with a check
of its bounds, and a stretch of the text that would be taken as empty although something was
consumed is noticed. Whatever goes wrong in one of these ways is a trap, which ends the computation.

What a sum gives that is too large for a word is left open, as some programs stop there and others
go on with what is left of the sum. Loops are not bounded by a word: one that makes more passes than
there are positions in the text is taken to have no end.

## Main definitions

* `Machine.Trap` — what may go wrong
* `Machine.Arithmetic` — how words are added, `trapping` or `wrapping`
* `Machine.Eval` — a computation that may have no end, and may end in a trap
* `Machine.matchWith`, `Machine.matchAt` — the outcome of a rule at a position
* `Machine.next`, `Machine.calls` — the occurrences in a text one after another
-/

namespace Peg.Machine

variable {ε : Type}

/-- Why a machine stops without an answer. -/
inductive Trap where
  /-- A sum is too large for a word. -/
  | overflow
  /-- A slice goes beyond the end of what it is cut from. -/
  | outOfBounds
  /-- A stretch is not within the text, though its end is not its start. -/
  | lostSpan
  deriving DecidableEq

/-- How words are added. A sum that fits is found, and anything may come of one that does not. -/
structure Arithmetic where
  /-- The sum of two words. -/
  add : UInt64 → UInt64 → Except Trap UInt64
  add_of_lt : ∀ {a b : UInt64}, a.toNat + b.toNat < 2 ^ 64 → add a b = .ok (a + b)

/-- A sum that is too large is a trap. -/
def Arithmetic.trapping : Arithmetic where
  add a b := if a.toNat + b.toNat < 2 ^ 64 then .ok (a + b) else .error .overflow
  add_of_lt h := if_pos h

/-- A sum that is too large loses its carry. -/
def Arithmetic.wrapping : Arithmetic where
  add a b := .ok (a + b)
  add_of_lt _ := rfl

/-- A computation that never ends, or ends in a trap or with a value. -/
abbrev Eval (ε α : Type) : Type := ExceptT Trap (Run ε) α

/-- The computation that never ends. -/
def endless {α : Type} : Eval ε α := ExceptT.mk .endless

/-- What one attempt to match gave, with its length in a word. -/
structure Result where
  /-- Whether the rule matched. -/
  matched : Bool
  /-- How many characters were consumed. -/
  length : UInt64
  /-- The characters that were consumed. -/
  content : List Char

namespace Result

/-- A match that consumed `chars`. -/
def success (chars : List Char) : Result := ⟨true, .ofNat chars.length, chars⟩

/-- A match that consumed nothing. -/
def empty : Result := ⟨true, 0, []⟩

/-- The failure. -/
def noMatch : Result := ⟨false, 0, []⟩

/-- The outcome that is meant. -/
def outcome (o : Result) : Outcome := ⟨o.matched, o.length.toNat, o.content⟩

end Result

/-- What references give at positions. -/
abbrev Calls (ε : Type) : Type := Ref → UInt64 → Eval ε Result

/-- The sum of two words. -/
def add (arithmetic : Arithmetic) (a b : UInt64) : Eval ε UInt64 :=
  ExceptT.mk (pure (arithmetic.add a b))

/-- The slice of `chars` from `start` up to but not including `stop`. -/
def slice (chars : List Char) (start stop : Nat) : Eval ε (List Char) :=
  if start ≤ stop ∧ stop ≤ chars.length then
    pure ((chars.take stop).drop start)
  else
    throw .outOfBounds

/-- The match of a stretch of the text. -/
def span (input : Array Char) (start stop : UInt64) : Eval ε Result :=
  if start ≤ stop ∧ stop.toNat ≤ input.size then
    pure (.success (input.extract start.toNat stop.toNat).toList)
  else if start = stop then
    -- There is nothing past the end of the text, so no characters are lost.
    pure .empty
  else
    throw .lostSpan

/-- How far a repetition has come. -/
structure Progress where
  /-- How often the operand matched. -/
  times : UInt64
  /-- Where its last match ended. -/
  stop : UInt64

/-- Repeat `attempt`, each time from where the last match ended, until it fails or consumes
nothing. -/
def repeatFrom (arithmetic : Arithmetic) (attempt : UInt64 → Eval ε Result) :
    (passes : Nat) → Progress → Eval ε Progress
  | 0, _ => endless
  | passes + 1, sofar => do
    let o ← attempt sofar.stop
    if o.matched then
      let times ← add arithmetic sofar.times 1
      let stop ← add arithmetic sofar.stop o.length
      if o.length = 0 then pure ⟨times, stop⟩
      else repeatFrom arithmetic attempt passes ⟨times, stop⟩
    else
      pure sofar

section Match

variable (arithmetic : Arithmetic) (call : Calls ε) (input : Array Char)

mutual

/-- The outcome of a rule at a position, if its references give what `call` says. -/
def matchWith : Rule → UInt64 → Eval ε Result
  | .char c, position =>
    if input[position.toNat]? = some c then do
      let chars ← slice input.toList position.toNat (position.toNat + 1)
      pure (.success chars)
    else
      pure .noMatch
  | .range low high, position =>
    match input[position.toNat]? with
    | some c =>
      if low ≤ c ∧ c ≤ high then do
        let chars ← slice input.toList position.toNat (position.toNat + 1)
        pure (.success chars)
      else
        pure .noMatch
    | none => pure .noMatch
  | .string chars, position =>
    match remaining input position.toNat with
    | some rest =>
      if chars <+: rest then do
        let front ← slice rest 0 chars.length
        pure (.success front)
      else
        pure .noMatch
    | none => pure .noMatch
  | .seq parts, position => do
    match ← stopOfSeq parts position with
    | some stop => span input position stop
    | none => pure .noMatch
  | .pair left right, position => do
    let first ← matchWith left position
    if first.matched then
      let middle ← add arithmetic position first.length
      let second ← matchWith right middle
      if second.matched then
        let length ← add arithmetic first.length second.length
        pure ⟨true, length, first.content ++ second.content⟩
      else
        pure .noMatch
    else
      pure .noMatch
  | .choice alternatives, position => firstMatch alternatives position
  | .not operand, position => do
    let o ← matchWith operand position
    pure (if o.matched then .noMatch else .empty)
  | .star operand, position => do
    let step := fun p => matchWith operand p
    let reached ← repeatFrom arithmetic step (input.size + 1) ⟨0, position⟩
    span input position reached.stop
  | .plus operand, position => do
    let step := fun p => matchWith operand p
    let reached ← repeatFrom arithmetic step (input.size + 1) ⟨0, position⟩
    if reached.times = 0 then pure .noMatch else span input position reached.stop
  | .opt operand, position => do
    let o ← matchWith operand position
    pure (if o.matched then o else .empty)
  | .ref target, position => call target position

/-- Where the last of several rules in a row ends, or `none` at the first failure. -/
def stopOfSeq : List Rule → UInt64 → Eval ε (Option UInt64)
  | [], position => pure (some position)
  | part :: rest, position => do
    let o ← matchWith part position
    if o.matched then
      let stop ← add arithmetic position o.length
      stopOfSeq rest stop
    else
      pure none

/-- The outcome of the first alternative that matches. -/
def firstMatch : List Rule → UInt64 → Eval ε Result
  | [], _ => pure .noMatch
  | alternative :: rest, position => do
    let o ← matchWith alternative position
    if o.matched then pure o else firstMatch rest position

end

end Match

/-! ### Matches in a store -/

/-- What references give when at most `depth` of them are followed within one another. -/
def meaning (arithmetic : Arithmetic) (store : Store) (input : Array Char) :
    (depth : Nat) → Calls Miss
  | 0, _, _ => endless
  | depth + 1, target, position =>
    match store.resolve target with
    | .ok rule => matchWith arithmetic (meaning arithmetic store input depth) input rule position
    | .error miss => ExceptT.mk (.ends (.ok .noMatch) [miss])

/-- The outcome of a rule at a position of a text, with the references that led nowhere. -/
def matchAt (arithmetic : Arithmetic) (store : Store) (rule : Rule) (input : Array Char)
    (position : UInt64) : Eval Miss Result :=
  matchWith arithmetic (meaning arithmetic store input (store.depthLimit input)) input rule position

/-! ### Searches -/

/-- A stretch of a text and its characters. -/
structure Found where
  /-- The position of the first character. -/
  start : UInt64
  /-- The position after the last character. -/
  stop : UInt64
  /-- The characters. -/
  value : List Char

/-- The occurrence that is meant. -/
def Found.occurrence (m : Found) : Occurrence := ⟨m.start.toNat, m.stop.toNat, m.value⟩

section Search

variable (arithmetic : Arithmetic) (attempt : UInt64 → Eval ε Result) (size : Nat)

/-- The next occurrence at `cursor` or later in a text of `size` characters, and the cursor after
it. -/
def next : (passes : Nat) → UInt64 → Eval ε (Option Found × UInt64)
  | 0, _ => endless
  | passes + 1, cursor =>
    if cursor.toNat ≤ size then do
      let o ← attempt cursor
      if o.matched then
        let stop ← add arithmetic cursor o.length
        let resume ← if o.length = 0 then add arithmetic stop 1 else pure stop
        pure (some ⟨cursor, stop, o.content⟩, resume)
      else
        let cursor' ← add arithmetic cursor 1
        next passes cursor'
    else
      pure (none, cursor)

/-- The answers of `next` one after another, `count` of them. -/
def calls : (count : Nat) → UInt64 → Eval ε (List (Option Found))
  | 0, _ => pure []
  | count + 1, cursor => do
    let (found, cursor') ← next arithmetic attempt size (size + 2) cursor
    let rest ← calls count cursor'
    pure (found :: rest)

end Search

/-- The answers to a search for a rule in a text, `count` of them. -/
def searchCalls (arithmetic : Arithmetic) (store : Store) (rule : Rule) (text : List Char)
    (count : Nat) : Eval Event (List (Option Found)) :=
  calls arithmetic
    (fun position =>
      ExceptT.mk ((matchAt arithmetic store rule text.toArray position).run.mapLog .miss))
    text.length count 0

end Peg.Machine
