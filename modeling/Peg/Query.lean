import Peg.Log
import Peg.Search

/-!
# Questions about a rule

What can be asked about a rule in a store of grammars: its written form, what it matches and where
it is found. Matching a whole text from its start is logged with its outcome. Matching at a given
position and searching are not, so they log only the references that lead nowhere.

## Main definitions

* `Store.matchText` — match a text from its start
* `Store.matchesFully` — whether a rule matches a whole text
* `Store.search` — the search for a rule in a text
* `Query` — the questions about a rule
* `Reply` — the answers to all requests
* `Store.reply` — the answer to a question about a rule
-/

namespace Peg

namespace Store

/-- The outcome of a rule at a position, logged. -/
def attempt (store : Store) (rule : Rule) (input : Array Char) (position : Nat) :
    Run Event Outcome :=
  (store.matchAt rule input position).mapLog .miss

/-- Match a text from its start, and log the outcome after everything else. -/
def matchText (store : Store) (rule : Rule) (text : List Char) : Run Event Outcome := do
  let o ← store.attempt rule text.toArray 0
  Run.note (.answer rule text o)
  pure o

/-- Whether a rule matches a whole text. -/
def matchesFully (store : Store) (rule : Rule) (text : List Char) : Run Event Bool := do
  let o ← store.matchText rule text
  pure (o.matched && o.length == text.length)

/-- The log of a match from the start of a text closes with its outcome. -/
theorem matchText_of_matchAt {store : Store} {rule : Rule} {text : List Char} {o : Outcome}
    {log : List Miss} (h : store.matchAt rule text.toArray 0 = .ends o log) :
    store.matchText rule text = .ends o (log.map .miss ++ [.answer rule text o]) := by
  rw [matchText, attempt, h, Run.mapLog_ends, Run.ends_bind]
  rfl

theorem matchText_of_endless {store : Store} {rule : Rule} {text : List Char}
    (h : store.matchAt rule text.toArray 0 = .endless) : store.matchText rule text = .endless := by
  rw [matchText, attempt, h, Run.mapLog_endless, Run.endless_bind]

/-- The search for a rule in a text. -/
def search (store : Store) (rule : Rule) (text : List Char) : Search Event :=
  let input := text.toArray
  ⟨store.attempt rule input, input.size⟩

end Store

/-- What can be asked about a rule. -/
inductive Query where
  /-- The written form of the rule. -/
  | display
  /-- The match of a text from its start. -/
  | matchText (text : List Char)
  /-- The matches of several texts from their starts. -/
  | matchTexts (texts : List (List Char))
  /-- The matches at several positions of a text. -/
  | matchAt (text : List Char) (positions : List Nat)
  /-- The first occurrence in a text. -/
  | find (text : List Char)
  /-- The occurrences in a text one after another, at most `limit` of them. -/
  | findAll (text : List Char) (limit : Option Nat)
  /-- Whether the rule matches the whole text. -/
  | full (text : List Char)
  /-- Whether the rule matches each of several whole texts. -/
  | fullTexts (texts : List (List Char))

/-- The answers to requests. -/
inductive Reply where
  /-- The request was carried out. -/
  | done
  /-- The request was refused. -/
  | fault (cause : Fault)
  /-- There is no such rule. -/
  | absent
  /-- A written form. -/
  | text (chars : List Char)
  /-- Names of rules. -/
  | names (names : List String)
  /-- Yes or no. -/
  | flag (value : Bool)
  /-- Yes or no, for each of several texts. -/
  | flags (values : List Bool)
  /-- The outcome of a match. -/
  | outcome (value : Outcome)
  /-- The outcomes of several matches. -/
  | outcomes (values : List Outcome)
  /-- The occurrence that was found, if there is one. -/
  | occurrence (value : Option Occurrence)
  /-- What a search answered one time after another. -/
  | occurrences (values : List (Option Occurrence))

/-- The answer to a question about a rule. -/
def Store.reply (store : Store) (rule : Rule) : Query → Run Event Reply
  | .display => pure (.text rule.render)
  | .matchText text => Reply.outcome <$> store.matchText rule text
  | .matchTexts texts => Reply.outcomes <$> texts.mapM (store.matchText rule)
  | .matchAt text positions =>
    let input := text.toArray
    Reply.outcomes <$> positions.mapM (store.attempt rule input)
  | .find text => Reply.occurrence <$> (store.search rule text).first
  | .findAll text limit => Reply.occurrences <$> (store.search rule text).answers limit
  | .full text => Reply.flag <$> store.matchesFully rule text
  | .fullTexts texts => Reply.flags <$> texts.mapM (store.matchesFully rule)

end Peg
