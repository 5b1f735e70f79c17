import Peg.Rule.Match

/-!
# What a rule asks of its references

A rule learns of its references nothing but their outcomes, and only of those that occur in it. So
whatever relates the outcomes of its references under two meanings relates its own outcomes as well,
as long as the relation holds of steps that do nothing and is passed on from the steps of a run to
the whole run. This is the one induction on rules that is needed wherever two ways of matching are
compared without regard to positions, or where the log of a match is traced back to references.

## Main definitions

* `Rule.refs` — the references that occur in a rule
* `Rule.RefersInto` — all of them were made from grammars of a family
* `Run.Compositional` — the relations between runs that are passed on from steps to the whole
* `Run.Logs` — a property of all entries in the log of a run

## Main results

* `Rule.matchWith_rel` — what relates the references of a rule relates the rule
* `Rule.matchWith_logs` — every entry in the log comes from a reference of the rule
-/

namespace Peg

variable {ε δ α β : Type} {input : Array Char}

/-! ### References -/

namespace Rule

mutual

/-- The references that occur in a rule, from left to right. -/
def refs : Rule → List Ref
  | .char _ => []
  | .range _ _ => []
  | .string _ => []
  | .seq parts => refsAll parts
  | .pair left right => refs left ++ refs right
  | .choice alternatives => refsAll alternatives
  | .not operand => refs operand
  | .star operand => refs operand
  | .plus operand => refs operand
  | .opt operand => refs operand
  | .ref target => [target]

/-- The references that occur in several rules. -/
def refsAll : List Rule → List Ref
  | [] => []
  | rule :: rest => refs rule ++ refsAll rest

end

@[simp] theorem mem_refsAll {rules : List Rule} {target : Ref} :
    target ∈ refsAll rules ↔ ∃ rule ∈ rules, target ∈ rule.refs := by
  induction rules with
  | nil => simp [refsAll]
  | cons rule rest ih => simp [refsAll, ih]

/-- All references in the rule were made from grammars of the family. -/
def RefersInto (rule : Rule) (family : GrammarId → Prop) : Prop :=
  ∀ target ∈ rule.refs, family target.grammar

end Rule

/-! ### Relations between runs -/

namespace Run

/-- A relation between runs that holds of steps that do nothing, and that is passed on from the
steps of two runs to the runs. -/
structure Compositional (R : (α : Type) → Run ε α → Run δ α → Prop) : Prop where
  /-- Steps that do nothing are related. -/
  pure : ∀ {α : Type} (a : α), R α (pure a) (pure a)
  /-- What is done one after another is related if each of it is. -/
  bind : ∀ {α β : Type} {x : Run ε α} {y : Run δ α} {f : α → Run ε β} {g : α → Run δ β},
    R α x y → (∀ a, R β (f a) (g a)) → R β (x >>= f) (y >>= g)

/-- What replaces runs step by step relates a run to what it is replaced by. -/
theorem compositional_of_bind {replace : {α : Type} → Run ε α → Run δ α}
    (hpure : ∀ {α : Type} (a : α), replace (pure a) = pure a)
    (hbind : ∀ {α β : Type} (x : Run ε α) (f : α → Run ε β),
      replace (x >>= f) = replace x >>= fun a => replace (f a)) :
    Compositional fun _ x y => replace x = y where
  pure := hpure
  bind := by
    intro α β x y f g hx hf
    rw [hbind, hx]
    congr 1
    funext a
    exact hf a

variable {R : (α : Type) → Run ε α → Run δ α → Prop}

theorem rel_ite {p : Prop} [Decidable p] {x x' : Run ε α} {y y' : Run δ α} (h : R α x y)
    (h' : R α x' y') :
    R α (if p then x else x') (if p then y else y') := by
  split
  · exact h
  · exact h'

/-- Every entry in the log has the property `p`. -/
def Logs (p : ε → Prop) : Run ε α → Prop
  | .endless => True
  | .ends _ log => ∀ e ∈ log, p e

variable {p : ε → Prop} {x : Run ε α}

@[simp] theorem logs_ends {a : α} {log : List ε} :
    (.ends a log : Run ε α).Logs p ↔ ∀ e ∈ log, p e := Iff.rfl

theorem Logs.of_ends {a : α} {log : List ε} (h : x.Logs p) (hx : x = .ends a log) :
    ∀ e ∈ log, p e := by
  subst hx
  exact h

theorem logs_pure (a : α) : (pure a : Run ε α).Logs p := by simp

theorem Logs.bind {f : α → Run ε β} (hx : x.Logs p) (hf : ∀ a, (f a).Logs p) :
    (x >>= f).Logs p := by
  cases x with
  | endless => trivial
  | ends a log =>
    rw [ends_bind]
    cases hrest : f a with
    | endless => trivial
    | ends b rest =>
      rw [after_ends, logs_ends]
      intro e he
      rcases List.mem_append.mp he with he | he
      · exact hx e he
      · exact (hf a).of_ends hrest e he

theorem Logs.map {f : α → β} (hx : x.Logs p) : (f <$> x).Logs p := by
  cases x with
  | endless => trivial
  | ends a log => rwa [map_ends]

theorem compositional_logs (p : ε → Prop) :
    Compositional fun α (x _ : Run ε α) => x.Logs p where
  pure := logs_pure
  bind := Logs.bind

end Run

open Run

/-! ### Rules and their references -/

section Relation

variable {R : (α : Type) → Run ε α → Run δ α → Prop} (hR : Compositional R)
include hR

theorem repeatFrom_rel {attempt : Nat → Run ε Outcome} {attempt' : Nat → Run δ Outcome}
    (h : ∀ position, R _ (attempt position) (attempt' position)) (most : Nat)
    (sofar : Repetition) :
    R _ (repeatFrom attempt most sofar) (repeatFrom attempt' most sofar) := by
  induction most generalizing sofar with
  | zero => exact hR.pure sofar
  | succ most ih =>
    apply hR.bind (h sofar.stop)
    intro o
    apply rel_ite
    · exact rel_ite (hR.pure _) (ih _)
    · exact hR.pure sofar

namespace Rule

variable {call : Meaning ε} {call' : Meaning δ} {rules : List Rule}

theorem stopOfSeq_rel
    (h : ∀ rule ∈ rules, ∀ position,
      R _ (rule.matchWith call input position) (rule.matchWith call' input position))
    (position : Nat) :
    R _ (stopOfSeq call input rules position) (stopOfSeq call' input rules position) := by
  induction rules generalizing position with
  | nil => exact hR.pure _
  | cons part rest ih =>
    obtain ⟨hpart, hrest⟩ := List.forall_mem_cons.mp h
    rw [stopOfSeq, stopOfSeq]
    apply hR.bind (hpart position)
    intro o
    exact rel_ite (ih hrest _) (hR.pure _)

theorem firstMatch_rel
    (h : ∀ rule ∈ rules, ∀ position,
      R _ (rule.matchWith call input position) (rule.matchWith call' input position))
    (position : Nat) :
    R _ (firstMatch call input rules position) (firstMatch call' input rules position) := by
  induction rules with
  | nil => exact hR.pure _
  | cons alternative rest ih =>
    obtain ⟨halternative, hrest⟩ := List.forall_mem_cons.mp h
    rw [firstMatch, firstMatch]
    apply hR.bind (halternative position)
    intro o
    exact rel_ite (hR.pure _) (ih hrest)

/-- What relates the outcomes of all references of a rule relates the outcomes of the rule. -/
theorem matchWith_rel (input : Array Char) (rule : Rule)
    (hcall : ∀ target ∈ rule.refs, ∀ position, R _ (call target position) (call' target position))
    (position : Nat) :
    R _ (rule.matchWith call input position) (rule.matchWith call' input position) := by
  induction rule generalizing position with
  | char c => rw [matchWith, matchWith]; exact hR.pure _
  | range low high => rw [matchWith, matchWith]; exact hR.pure _
  | string chars => rw [matchWith, matchWith]; exact hR.pure _
  | seq parts ih =>
    have hparts : ∀ part ∈ parts, ∀ position,
        R _ (part.matchWith call input position) (part.matchWith call' input position) := by
      intro part hpart
      apply ih part hpart
      intro target htarget
      exact hcall target (mem_refsAll.mpr ⟨part, hpart, htarget⟩)
    rw [matchWith, matchWith]
    apply hR.bind (stopOfSeq_rel hR hparts position)
    intro reached
    cases reached with
    | none => exact hR.pure _
    | some stop => exact hR.pure _
  | pair left right ihl ihr =>
    have hleft := ihl fun target h => hcall target (List.mem_append_left _ h)
    have hright := ihr fun target h => hcall target (List.mem_append_right _ h)
    rw [matchWith, matchWith]
    apply hR.bind (hleft position)
    intro first
    exact rel_ite (hR.bind (hright _) fun _ => hR.pure _) (hR.pure _)
  | choice alternatives ih =>
    rw [matchWith, matchWith]
    apply firstMatch_rel hR
    intro alternative halternative
    apply ih alternative halternative
    intro target htarget
    exact hcall target (mem_refsAll.mpr ⟨alternative, halternative, htarget⟩)
  | not operand ih =>
    rw [matchWith, matchWith]
    exact hR.bind (ih hcall position) fun _ => hR.pure _
  | star operand ih =>
    rw [matchWith, matchWith]
    exact hR.bind (repeatFrom_rel hR (ih hcall) _ _) fun _ => hR.pure _
  | plus operand ih =>
    rw [matchWith, matchWith]
    exact hR.bind (repeatFrom_rel hR (ih hcall) _ _) fun _ => hR.pure _
  | opt operand ih =>
    rw [matchWith, matchWith]
    exact hR.bind (ih hcall position) fun _ => hR.pure _
  | ref target =>
    rw [matchWith, matchWith]
    exact hcall target List.mem_cons_self position

end Rule

end Relation

namespace Rule

/-- A rule writes nothing into the log but what its references write. -/
theorem matchWith_logs {call : Meaning ε} {p : ε → Prop} (rule : Rule)
    (h : ∀ target ∈ rule.refs, ∀ position, (call target position).Logs p) (position : Nat) :
    (rule.matchWith call input position).Logs p :=
  @matchWith_rel ε ε _ (compositional_logs p) call call input rule h position

end Rule

end Peg
