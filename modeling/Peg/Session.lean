import Peg.Blueprint
import Peg.Query

/-!
# Sessions

A session works on grammars that have names, and on rules that are kept outside any grammar under
labels of their own. An *edit* changes the session and always comes to an end. A *question* leaves
the session as it is, but has no answer if it asks for a match that never ends.

A name belongs to the grammar that was made last under it. Making a grammar under a name that is
taken drops the one that had it. Rules that refer to the old one keep referring to it, and find
nothing there.

## Main definitions

* `Session` — the named grammars and the held rules
* `Session.initial` — the session with one empty grammar
* `Session.build` — build a rule, which registers the references in it
* `Session.edit` — carry out an edit
* `Session.ask` — answer a question
* `Session.run` — carry out commands one after another
-/

namespace Peg

/-- Grammars under names, and rules under labels. -/
structure Session where
  /-- The grammars. -/
  store : Store
  /-- The identity of the grammar of each name. -/
  handles : Std.ExtTreeMap String GrammarId
  /-- The rules that are kept outside any grammar. -/
  held : Std.ExtTreeMap String Rule

/-- What changes a session. -/
inductive Edit where
  /-- Make an empty grammar. One that had the name is dropped. -/
  | create (grammar : String)
  /-- Drop a grammar. -/
  | drop (grammar : String)
  /-- Make a reference and throw it away. Its name stays registered. -/
  | refer (grammar name : String)
  /-- Build a rule and define it. -/
  | define (grammar name : String) (blueprint : Blueprint)
  /-- Build a rule and keep it under a label, instead of the one that was kept there. -/
  | hold (label : String) (blueprint : Blueprint)

/-- What leaves a session as it is. -/
inductive Question where
  /-- Whether every registered name is defined. -/
  | check (grammar : String)
  /-- The defined names. -/
  | names (grammar : String)
  /-- The definitions as text. -/
  | print (grammar : String)
  /-- The match of a text by a rule of a grammar, from the start of the text. -/
  | matchText (grammar name : String) (text : List Char)
  /-- A question about a rule of a grammar. -/
  | defined (grammar name : String) (query : Query)
  /-- A question about a rule that is kept under a label. -/
  | held (label : String) (query : Query)

/-- A request to a session. -/
inductive Command where
  /-- Change the session. -/
  | edit (edit : Edit)
  /-- Ask it something. -/
  | ask (question : Question)

namespace Session

/-- The session with one empty grammar, called `main`. -/
def initial : Session :=
  { store := Store.empty.create
    handles := (∅ : Std.ExtTreeMap String GrammarId).insert "main" Store.empty.nextId
    held := ∅ }

/-- The identity of the grammar that has a name now. -/
def locate (s : Session) (grammar : String) : Option GrammarId := s.handles[grammar]?

/-- The grammar that has a name now. -/
def grammar? (s : Session) (grammar : String) : Option Grammar :=
  (s.locate grammar).bind s.store.grammar?

/-- Build a rule. The references in it are registered, also when the building fails. -/
def build (s : Session) (blueprint : Blueprint) : Session × Except Fault Rule :=
  let built := blueprint.build s.locate
  ({ s with store := built.refs.foldl Store.register s.store }, built.result)

/-- Make an empty grammar under a name, and drop the one that had it. -/
def create (s : Session) (grammar : String) : Session :=
  let store := match s.locate grammar with
    | some id => s.store.drop id
    | none => s.store
  -- The identity of the dropped grammar stays taken, so the new one gets another.
  { s with
    store := store.create
    handles := s.handles.insert grammar store.nextId }

/-- Drop the grammar of a name, if there is one. -/
def drop (s : Session) (grammar : String) : Session × Bool :=
  match s.locate grammar with
  | some id => ({ s with store := s.store.drop id, handles := s.handles.erase grammar }, true)
  | none => (s, false)

/-- Define the rule of a name, unless it is defined already. -/
def define (s : Session) (target : Ref) (rule : Rule) : Session × Reply :=
  match s.store.define target rule with
  | .ok store => ({ s with store }, .done)
  | .error fault => (s, .fault fault)

/-- Carry out an edit. The answer comes with the entries that it logs. -/
def edit (s : Session) : Edit → Session × Reply × List Event
  | .create grammar => (s.create grammar, .done, [])
  | .drop grammar =>
    let (s, existed) := s.drop grammar
    (s, .flag existed, [])
  | .refer grammar name =>
    match s.build (.ref grammar name) with
    | (s, .ok rule) => (s, .text rule.render, [])
    | (s, .error fault) => (s, .fault fault, [])
  | .define grammar name blueprint =>
    match s.locate grammar with
    | none => (s, .fault (.unknownGrammar grammar), [])
    | some id =>
      match s.build blueprint with
      | (s, .error fault) => (s, .fault fault, [])
      | (s, .ok rule) =>
        -- The entry tells of the attempt to define, so it does not depend on the answer.
        let (s, reply) := s.define ⟨id, name⟩ rule
        (s, reply, [.define name rule])
  | .hold label blueprint =>
    match s.build blueprint with
    | (s, .error fault) => (s, .fault fault, [])
    | (s, .ok rule) => ({ s with held := s.held.insert label rule }, .text rule.render, [])

/-- Answer from a grammar, if there is one of that name. -/
def withGrammar (s : Session) (grammar : String) (answer : Grammar → Run Event Reply) :
    Run Event Reply :=
  match s.grammar? grammar with
  | some g => answer g
  | none => pure (.fault (.unknownGrammar grammar))

/-- Answer a question. -/
def ask (s : Session) : Question → Run Event Reply
  | .check grammar => s.withGrammar grammar fun g =>
    match g.check with
    | .ok () => pure .done
    | .error fault => pure (.fault fault)
  | .names grammar => s.withGrammar grammar fun g => pure (.names g.names)
  | .print grammar => s.withGrammar grammar fun g => pure (.text g.render)
  | .matchText grammar name text => s.withGrammar grammar fun g =>
    match g.rule? name with
    | some rule => Reply.outcome <$> s.store.matchText rule text
    | none => pure (.fault (.undefinedRule name))
  | .defined grammar name query => s.withGrammar grammar fun g =>
    match g.rule? name with
    | some rule => s.store.reply rule query
    | none => pure .absent
  | .held label query =>
    match s.held[label]? with
    | some rule => s.store.reply rule query
    | none => pure (.fault (.unknownHeld label))

/-- Carry out a command. -/
def execute (s : Session) : Command → Run Event (Session × Reply)
  | .edit edit =>
    let (s, reply, log) := s.edit edit
    .ends (s, reply) log
  | .ask question => do
    let reply ← s.ask question
    pure (s, reply)

/-- Carry out commands one after another. -/
def run (s : Session) : List Command → Run Event (Session × List Reply)
  | [] => pure (s, [])
  | command :: rest => do
    let (s, reply) ← s.execute command
    let (s, replies) ← s.run rest
    pure (s, reply :: replies)

/-- The session after a number of edits. -/
def afterEdits (s : Session) (edits : List Edit) : Session :=
  edits.foldl (fun s edit => (s.edit edit).1) s

end Session

end Peg
