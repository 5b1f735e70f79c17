import Mathlib.Logic.Relation
import Peg.Proofs.Substitution

/-!
# Normal forms of rules

Written forms have no parentheses but those of sequences and choices, and these look alike when they
have less than two parts. So some rules differ, but not in what is written. Two parts in a row are
written as the sequence of them, and a choice with one alternative or none is written as a sequence.
A suffix after a negated operand may belong to the operand or to the negation.

In each case one of the rules is taken as the normal form. It is reached by rewriting the others, in
whatever order, until nothing is left to rewrite.

## Main definitions

* `Rule.Rewrites` — one rule is rewritten to another one in one place
* `Rule.Final` — nothing in the rule can be rewritten
* `Rule.norm` — the normal form of a rule

## Main results

* `Rule.Rewrites.norm_eq` — rewriting keeps the normal form
* `Rule.reduces_norm`, `Rule.final_norm` — the normal form is reached and is final
* `Rule.eq_norm_iff` — whatever is reached and final is the normal form
-/

namespace Peg

open Relation

/-- The marks that stand after an operand. -/
inductive Suffix where
  | star
  | plus
  | opt

/-- The rule with the mark after it. -/
def Suffix.on : Suffix → Rule → Rule
  | .star => .star
  | .plus => .plus
  | .opt => .opt

namespace Rule

/-- One rule is rewritten to another one, as a whole or in one of its parts. -/
inductive Rewrites : Rule → Rule → Prop where
  | pair (left right : Rule) : Rewrites (.pair left right) (.seq [left, right])
  | choiceNil : Rewrites (.choice []) (.seq [])
  | choiceOne (alternative : Rule) : Rewrites (.choice [alternative]) (.seq [alternative])
  | starNot (operand : Rule) : Rewrites (.star (.not operand)) (.not (.star operand))
  | plusNot (operand : Rule) : Rewrites (.plus (.not operand)) (.not (.plus operand))
  | optNot (operand : Rule) : Rewrites (.opt (.not operand)) (.not (.opt operand))
  | seq {old new : Rule} (before after : List Rule) (h : Rewrites old new) :
    Rewrites (.seq (before ++ old :: after)) (.seq (before ++ new :: after))
  | pairLeft {old new : Rule} (right : Rule) (h : Rewrites old new) :
    Rewrites (.pair old right) (.pair new right)
  | pairRight {old new : Rule} (left : Rule) (h : Rewrites old new) :
    Rewrites (.pair left old) (.pair left new)
  | choice {old new : Rule} (before after : List Rule) (h : Rewrites old new) :
    Rewrites (.choice (before ++ old :: after)) (.choice (before ++ new :: after))
  | not {old new : Rule} (h : Rewrites old new) : Rewrites (.not old) (.not new)
  | star {old new : Rule} (h : Rewrites old new) : Rewrites (.star old) (.star new)
  | plus {old new : Rule} (h : Rewrites old new) : Rewrites (.plus old) (.plus new)
  | opt {old new : Rule} (h : Rewrites old new) : Rewrites (.opt old) (.opt new)

/-- The operand with a mark after it, behind all negations that begin the operand. -/
def hoist (mark : Suffix) : Rule → Rule
  | .not operand => .not (hoist mark operand)
  | operand => mark.on operand

/-- The choice between rules, if there are at least two of them. -/
def group : List Rule → Rule
  | [] => .seq []
  | [alternative] => .seq [alternative]
  | alternatives => .choice alternatives

mutual

/-- The normal form of a rule. -/
def norm : Rule → Rule
  | .char c => .char c
  | .range low high => .range low high
  | .string chars => .string chars
  | .seq parts => .seq (normAll parts)
  | .pair left right => .seq [norm left, norm right]
  | .choice alternatives => group (normAll alternatives)
  | .not operand => .not (norm operand)
  | .star operand => hoist .star (norm operand)
  | .plus operand => hoist .plus (norm operand)
  | .opt operand => hoist .opt (norm operand)
  | .ref target => .ref target

/-- The normal forms of several rules. -/
def normAll : List Rule → List Rule
  | [] => []
  | rule :: rest => norm rule :: normAll rest

end

theorem normAll_eq_map (rules : List Rule) : normAll rules = rules.map norm := by
  induction rules with
  | nil => rfl
  | cons rule rest ih => rw [normAll, ih, List.map_cons]

/-! ### Rewriting keeps the normal form -/

variable {rule rule' : Rule} {mark : Suffix}

theorem Rewrites.norm_eq (h : Rewrites rule rule') : rule.norm = rule'.norm := by
  induction h with
  | pair left right => rfl
  | choiceNil => rfl
  | choiceOne alternative => rfl
  | starNot operand => rfl
  | plusNot operand => rfl
  | optNot operand => rfl
  | seq before after _ ih => simp [norm, normAll_eq_map, ih]
  | pairLeft right _ ih => rw [norm, norm, ih]
  | pairRight left _ ih => rw [norm, norm, ih]
  | choice before after _ ih => simp [norm, normAll_eq_map, ih]
  | not _ ih => rw [norm, norm, ih]
  | star _ ih => rw [norm, norm, ih]
  | plus _ ih => rw [norm, norm, ih]
  | opt _ ih => rw [norm, norm, ih]

/-! ### The normal form is reached -/

theorem rewrites_on_not (mark : Suffix) (operand : Rule) :
    Rewrites (mark.on (.not operand)) (.not (mark.on operand)) := by
  cases mark with
  | star => exact .starNot operand
  | plus => exact .plusNot operand
  | opt => exact .optNot operand

theorem Rewrites.on (h : Rewrites rule rule') (mark : Suffix) :
    Rewrites (mark.on rule) (mark.on rule') := by
  cases mark with
  | star => exact .star h
  | plus => exact .plus h
  | opt => exact .opt h

theorem reduces_hoist (mark : Suffix) (operand : Rule) :
    ReflTransGen Rewrites (mark.on operand) (hoist mark operand) := by
  induction operand with
  | not operand ih => exact (ih.lift Rule.not fun _ _ => .not).head (rewrites_on_not mark operand)
  | _ => exact .refl

theorem reduces_on_norm (mark : Suffix) (h : ReflTransGen Rewrites rule rule.norm) :
    ReflTransGen Rewrites (mark.on rule) (hoist mark rule.norm) :=
  (h.lift mark.on fun _ _ hstep => hstep.on mark).trans (reduces_hoist mark rule.norm)

/-- If rules may be rewritten one by one, they may be rewritten all. -/
theorem reduces_map {whole : List Rule → Rule} {rules : List Rule} (before : List Rule)
    (hwhole : ∀ {old new} before after, Rewrites old new →
      Rewrites (whole (before ++ old :: after)) (whole (before ++ new :: after)))
    (h : ∀ rule ∈ rules, ReflTransGen Rewrites rule rule.norm) :
    ReflTransGen Rewrites (whole (before ++ rules)) (whole (before ++ rules.map norm)) := by
  -- The rules in `before` have been rewritten already.
  induction rules generalizing before with
  | nil => exact .refl
  | cons rule rest ih =>
    obtain ⟨hrule, hrest⟩ := List.forall_mem_cons.mp h
    have hfirst : ReflTransGen Rewrites (whole (before ++ rule :: rest))
        (whole (before ++ rule.norm :: rest)) :=
      hrule.lift (fun rule => whole (before ++ rule :: rest)) fun _ _ => hwhole before rest
    have hothers := ih (before ++ [rule.norm]) hrest
    rw [List.append_assoc, List.append_assoc] at hothers
    exact hfirst.trans hothers

theorem reduces_group (alternatives : List Rule) :
    ReflTransGen Rewrites (.choice alternatives) (group alternatives) := by
  match alternatives with
  | [] => exact .single .choiceNil
  | [alternative] => exact .single (.choiceOne alternative)
  | _ :: _ :: _ => exact .refl

/-- The normal form can be reached. -/
theorem reduces_norm (rule : Rule) : ReflTransGen Rewrites rule rule.norm := by
  induction rule with
  | char c => exact .refl
  | range low high => exact .refl
  | string chars => exact .refl
  | seq parts ih =>
    rw [norm, normAll_eq_map]
    exact reduces_map [] (fun before after => .seq before after) ih
  | pair left right ihl ihr =>
    have hleft : ReflTransGen Rewrites (.pair left right) (.pair left.norm right) :=
      ihl.lift (Rule.pair · right) fun _ _ => Rewrites.pairLeft right
    have hright : ReflTransGen Rewrites (.pair left.norm right) (.pair left.norm right.norm) :=
      ihr.lift (Rule.pair left.norm ·) fun _ _ => Rewrites.pairRight left.norm
    exact (hleft.trans hright).tail (.pair left.norm right.norm)
  | choice alternatives ih =>
    rw [norm, normAll_eq_map]
    have hparts := reduces_map [] (fun before after => .choice before after) ih
    exact hparts.trans (reduces_group _)
  | not operand ih => exact ih.lift Rule.not fun _ _ => .not
  | star operand ih => exact reduces_on_norm .star ih
  | plus operand ih => exact reduces_on_norm .plus ih
  | opt operand ih => exact reduces_on_norm .opt ih
  | ref target => exact .refl

/-! ### The normal form is final -/

/-- Nothing in the rule can be rewritten. -/
def Final (rule : Rule) : Prop := ∀ rule', ¬ Rewrites rule rule'

theorem Final.of_not (h : Final (.not rule)) : Final rule :=
  fun rule' hstep => h (.not rule') (.not hstep)

theorem Final.not (h : Final rule) : Final (.not rule) := by
  rintro _ ⟨⟩
  exact h _ ‹_›

theorem final_on (hnot : ∀ operand, rule ≠ .not operand) (h : Final rule) :
    Final (mark.on rule) := by
  rintro rule' hstep
  cases mark with
  | star =>
    cases hstep with
    | starNot operand => exact hnot operand rfl
    | star hoperand => exact h _ hoperand
  | plus =>
    cases hstep with
    | plusNot operand => exact hnot operand rfl
    | plus hoperand => exact h _ hoperand
  | opt =>
    cases hstep with
    | optNot operand => exact hnot operand rfl
    | opt hoperand => exact h _ hoperand

theorem final_hoist (mark : Suffix) (h : Final rule) : Final (hoist mark rule) := by
  induction rule with
  | not operand ih => exact (ih h.of_not).not
  | _ => exact final_on nofun h

theorem final_seq {parts : List Rule} (h : ∀ part ∈ parts, Final part) : Final (.seq parts) := by
  intro rule' hstep
  cases hstep with
  | seq before after hpart => exact h _ (by simp) _ hpart

theorem final_choice {alternatives : List Rule} (hlength : 2 ≤ alternatives.length)
    (h : ∀ alternative ∈ alternatives, Final alternative) : Final (.choice alternatives) := by
  intro rule' hstep
  cases hstep with
  | choiceNil => exact absurd hlength (by simp)
  | choiceOne alternative => exact absurd hlength (by simp)
  | choice before after hpart => exact h _ (by simp) _ hpart

theorem final_group {alternatives : List Rule}
    (h : ∀ alternative ∈ alternatives, Final alternative) : Final (group alternatives) := by
  match alternatives with
  | [] => exact final_seq h
  | [alternative] => exact final_seq h
  | _ :: _ :: _ => exact final_choice (by simp) h

/-- The normal form cannot be rewritten. -/
theorem final_norm (rule : Rule) : Final rule.norm := by
  induction rule with
  | char c => exact nofun
  | range low high => exact nofun
  | string chars => exact nofun
  | seq parts ih =>
    rw [norm, normAll_eq_map]
    exact final_seq (List.forall_mem_map.mpr ih)
  | pair left right ihl ihr =>
    exact final_seq (List.forall_mem_cons.mpr ⟨ihl, List.forall_mem_singleton.mpr ihr⟩)
  | choice alternatives ih =>
    rw [norm, normAll_eq_map]
    exact final_group (List.forall_mem_map.mpr ih)
  | not operand ih => exact ih.not
  | star operand ih => exact final_hoist .star ih
  | plus operand ih => exact final_hoist .plus ih
  | opt operand ih => exact final_hoist .opt ih
  | ref target => exact nofun

theorem norm_eq_of_reduces (h : ReflTransGen Rewrites rule rule') : rule.norm = rule'.norm := by
  induction h with
  | refl => rfl
  | tail _ hstep ih => exact ih.trans hstep.norm_eq

/-- However a rule is rewritten until nothing is left to rewrite, the normal form is reached. -/
theorem eq_norm_iff {result : Rule} :
    ReflTransGen Rewrites rule result ∧ Final result ↔ result = rule.norm := by
  constructor
  · rintro ⟨hreach, hfinal⟩
    rw [norm_eq_of_reduces hreach]
    -- The result can be rewritten to its own normal form, but it is final, so no step is left.
    rcases (reduces_norm result).cases_head with heq | ⟨next, hstep, -⟩
    · exact heq
    · exact absurd hstep (hfinal next)
  · rintro rfl
    exact ⟨reduces_norm rule, final_norm rule⟩

end Rule

end Peg
