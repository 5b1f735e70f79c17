/-!
# Rules

A rule of a parsing expression grammar describes a stretch of text. Rules are built from characters,
ranges and strings by sequence, ordered choice, repetition, option and negative lookahead. A rule
may also refer by name to a rule of a grammar, which need not be defined yet.

A rule holds no state. The type allows two rules that match nothing and that a careful builder
refuses: a range whose bounds are reversed, and a choice without alternatives.

## Main definitions

* `GrammarId` — the identity of a grammar
* `Ref` — a reference to a named rule of one particular grammar
* `Rule` — the rules
-/

namespace Peg

/-- The identity of a grammar. It is never given to a second grammar, so a reference into a grammar
that is gone cannot reach another one that took its name. -/
abbrev GrammarId : Type := Nat

/-- A reference to the rule called `name` of one particular grammar. -/
structure Ref where
  /-- The grammar that owns the rule. -/
  grammar : GrammarId
  /-- The name of the rule. -/
  name : String
  deriving DecidableEq

/-- The rules of a parsing expression grammar. -/
inductive Rule where
  /-- The character `c`. -/
  | char (c : Char)
  /-- One character from `low` to `high`, both included, in the order of their code points. -/
  | range (low high : Char)
  /-- The given characters in a row; with none of them, nothing is consumed. -/
  | string (chars : List Char)
  /-- All parts in a row. -/
  | seq (parts : List Rule)
  /-- Two parts in a row. Both are consumed: this is no lookahead. -/
  | pair (left right : Rule)
  /-- The first of the alternatives that matches. -/
  | choice (alternatives : List Rule)
  /-- Nothing is consumed, and that only where the operand does not match. -/
  | not (operand : Rule)
  /-- The operand as often as it matches, none of it given back. -/
  | star (operand : Rule)
  /-- Like `star`, but at least once. -/
  | plus (operand : Rule)
  /-- The operand if it matches, otherwise nothing. -/
  | opt (operand : Rule)
  /-- The rule that the reference leads to. -/
  | ref (target : Ref)

namespace Rule

/-- Induction on rules, with a hypothesis for each part of a sequence and for each alternative of a
choice. -/
@[elab_as_elim, induction_eliminator]
theorem induction {motive : Rule → Prop}
    (char : ∀ c, motive (.char c))
    (range : ∀ low high, motive (.range low high))
    (string : ∀ chars, motive (.string chars))
    (seq : ∀ parts, (∀ part ∈ parts, motive part) → motive (.seq parts))
    (pair : ∀ left right, motive left → motive right → motive (.pair left right))
    (choice : ∀ alternatives, (∀ alternative ∈ alternatives, motive alternative) →
      motive (.choice alternatives))
    (not : ∀ operand, motive operand → motive (.not operand))
    (star : ∀ operand, motive operand → motive (.star operand))
    (plus : ∀ operand, motive operand → motive (.plus operand))
    (opt : ∀ operand, motive operand → motive (.opt operand))
    (ref : ∀ target, motive (.ref target)) (rule : Rule) : motive rule :=
  @Rule.rec motive (fun rules => ∀ rule ∈ rules, motive rule)
    char range string seq pair choice not star plus opt ref
    (fun _ h => absurd h List.not_mem_nil)
    (fun _ _ head tail => List.forall_mem_cons.mpr ⟨head, tail⟩)
    rule

end Rule

end Peg
