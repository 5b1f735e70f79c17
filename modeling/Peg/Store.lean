import Peg.Grammar
import Peg.Rule.Match

/-!
# Stores of grammars, and what references lead to

A store holds the grammars that exist side by side. Each has an identity of its own, and a reference
names the grammar that it was made from by that identity. A grammar that is dropped leaves its
identity behind: references into it lead nowhere from then on.

With a store every reference has a meaning. It is the outcome of the rule it resolves to, or a
failure that is written into the log.

## Main definitions

* `Store.create`, `Store.drop`, `Store.register`, `Store.define` — the ways in which a store changes
* `Store.resolve` — the rule a reference leads to, or why it leads to none
* `Store.meaning` — the outcomes of references that are followed to a limited depth
* `Store.matchAt` — the outcome of a rule at a position of a text

## Main results

* `Store.ext` — a store is determined by its grammars and by the identity it gives out next
* `Store.grammar?_create`, `Store.grammar?_drop`, `Store.grammar?_update` — the grammars after each
  change
-/

namespace Peg

/-- Why a reference led nowhere. -/
inductive Miss where
  /-- The grammar of the reference has no rule of that name. -/
  | undefined (target : Ref)
  /-- The grammar of the reference does not exist any more. -/
  | dropped (target : Ref)
  deriving DecidableEq

/-- The grammars that exist side by side. -/
structure Store where
  /-- The grammars by identity, `none` for one that was dropped. Identities are given out in
  ascending order and never twice. -/
  grammars : Array (Option Grammar) := #[]

namespace Store

/-- The store without grammars. -/
def empty : Store := {}

/-- The grammar with a given identity, if it exists. -/
def grammar? (store : Store) (id : GrammarId) : Option Grammar := store.grammars[id]?.join

/-- The identity that the next new grammar gets. -/
def nextId (store : Store) : GrammarId := store.grammars.size

/-- Add an empty grammar. Its identity is `nextId`. -/
def create (store : Store) : Store := ⟨store.grammars.push (some .empty)⟩

/-- Remove a grammar. Its identity stays taken. -/
def drop (store : Store) (id : GrammarId) : Store := ⟨store.grammars.setIfInBounds id none⟩

/-- Replace the grammar with a given identity. -/
def update (store : Store) (id : GrammarId) (g : Grammar) : Store :=
  ⟨store.grammars.setIfInBounds id (some g)⟩

/-- Note in its grammar that a reference was made. -/
def register (store : Store) (target : Ref) : Store :=
  match store.grammar? target.grammar with
  | some g => store.update target.grammar (g.register target.name)
  | none => store

/-- Define the rule that `target` refers to. A grammar that is gone takes no definition. -/
def define (store : Store) (target : Ref) (rule : Rule) : Except Fault Store :=
  match store.grammar? target.grammar with
  | some g => (g.define target.name rule).map (store.update target.grammar)
  | none => .ok store

/-- The rule that a reference leads to, or why it leads to none. -/
def resolve (store : Store) (target : Ref) : Except Miss Rule :=
  match store.grammar? target.grammar with
  | none => .error (.dropped target)
  | some g =>
    match g.rule? target.name with
    | none => .error (.undefined target)
    | some rule => .ok rule

/-- The outcomes of references when at most `depth` of them are followed within one another. One
that leads nowhere matches nothing and is logged. One that lies too deep has no outcome. -/
def meaning (store : Store) (input : Array Char) : (depth : Nat) → Meaning Miss
  | 0, _, _ => .endless
  | depth + 1, target, position =>
    -- Resolved at each use, so a definition counts for references that were made before it.
    match store.resolve target with
    | .ok rule => rule.matchWith (store.meaning input depth) input position
    | .error miss => do
      Run.note miss
      pure .noMatch

/-- How many names are registered in all grammars together. -/
def nameCount (store : Store) : Nat :=
  store.grammars.toList.foldr (fun slot count => slot.elim 0 (·.slots.size) + count) 0

/-- How deep references are followed within one another. A deeper match would follow one name twice
at the same position, the second time within the first, so it would never end. -/
def depthLimit (store : Store) (input : Array Char) : Nat :=
  store.nameCount * (input.size + 1) + 1

/-- The outcome of a rule at a position of a text, with the references that led nowhere. There is no
outcome if the rule comes back to itself without consuming anything. -/
def matchAt (store : Store) (rule : Rule) (input : Array Char) (position : Nat) :
    Run Miss Outcome :=
  rule.matchWith (store.meaning input (store.depthLimit input)) input position

@[simp] theorem grammar?_empty (id : GrammarId) : empty.grammar? id = none := by
  simp [empty, grammar?]

/-- The next identity belongs to no grammar yet. -/
@[simp] theorem grammar?_nextId (store : Store) : store.grammar? store.nextId = none := by
  simp [grammar?, nextId]

/-- Only the next identity gains a grammar. -/
theorem grammar?_create (store : Store) (id : GrammarId) :
    store.create.grammar? id = if id = store.nextId then some .empty else store.grammar? id := by
  simp only [grammar?, create, nextId, Array.getElem?_push]
  split <;> simp_all

/-- Only the dropped grammar is gone. -/
theorem grammar?_drop (store : Store) (id id' : GrammarId) :
    (store.drop id).grammar? id' = if id = id' then none else store.grammar? id' := by
  simp only [grammar?, drop, Array.getElem?_setIfInBounds]
  split
  · split <;> rfl
  · rfl

/-- Only the grammar that existed under the identity is replaced. -/
theorem grammar?_update {store : Store} {id : GrammarId} {old : Grammar}
    (h : store.grammar? id = some old) (g : Grammar) (id' : GrammarId) :
    (store.update id g).grammar? id' = if id = id' then some g else store.grammar? id' := by
  have hlt : id < store.grammars.size := by
    refine Nat.lt_of_not_le fun hge => ?_
    simp [grammar?, Array.getElem?_eq_none hge] at h
  simp only [grammar?, update, Array.getElem?_setIfInBounds, hlt]
  split <;> simp

theorem resolve_eq_ok_iff {store : Store} {target : Ref} {rule : Rule} :
    store.resolve target = .ok rule ↔
      ∃ g, store.grammar? target.grammar = some g ∧ g.rule? target.name = some rule := by
  unfold resolve
  cases hg : store.grammar? target.grammar with
  | none => simp
  | some g => cases hrule : g.rule? target.name <;> simp [hrule]

/-- A reference into a grammar that is gone leads nowhere. -/
theorem resolve_of_dropped {store : Store} {target : Ref}
    (hg : store.grammar? target.grammar = none) :
    store.resolve target = .error (.dropped target) := by
  rw [resolve, hg]

/-- A reference to a name without a definition leads nowhere. -/
theorem resolve_of_undefined {store : Store} {target : Ref} {g : Grammar}
    (hg : store.grammar? target.grammar = some g) (hrule : g.rule? target.name = none) :
    store.resolve target = .error (.undefined target) := by
  rw [resolve, hg]
  dsimp only
  rw [hrule]

@[simp] theorem nextId_create (store : Store) : store.create.nextId = store.nextId + 1 := by
  simp [create, nextId]

@[simp] theorem nextId_drop (store : Store) (id : GrammarId) :
    (store.drop id).nextId = store.nextId := by
  simp [drop, nextId]

@[simp] theorem nextId_update (store : Store) (id : GrammarId) (g : Grammar) :
    (store.update id g).nextId = store.nextId := by
  simp [update, nextId]

/-- Two stores are the same when they have given out the same identities and hold the same
grammars. -/
theorem ext {store store' : Store} (hnext : store.nextId = store'.nextId)
    (hgrammar : ∀ id, store.grammar? id = store'.grammar? id) : store = store' := by
  obtain ⟨grammars⟩ := store
  obtain ⟨grammars'⟩ := store'
  congr 1
  apply Array.ext hnext
  intro id hid hid'
  have hslot := hgrammar id
  rwa [grammar?, grammar?, Array.getElem?_eq_getElem hid, Array.getElem?_eq_getElem hid',
    Option.join_some, Option.join_some] at hslot

/-- To drop a grammar that is gone changes nothing. -/
theorem drop_eq_self {store : Store} {id : GrammarId} (hg : store.grammar? id = none) :
    store.drop id = store := by
  apply ext (nextId_drop store id)
  intro id'
  rw [grammar?_drop]
  split
  · rename_i hid
    rw [← hid, hg]
  · rfl

end Store

end Peg
