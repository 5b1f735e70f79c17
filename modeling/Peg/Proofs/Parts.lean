import Mathlib.Data.List.Forall2
import Peg.Rule.Match

/-!
# The parts of a rule

A rule is made of rules. What is asked of a rule is often asked of all rules within it as well.
Matching a rule asks nothing of its parts but what they match, so parts may be exchanged for others
that match the same.

## Main definitions

* `Rule.Everywhere` — a property of the rule and of all rules within it
* `Rule.MatchAlike` — two lists of rules that match the same, one by one

## Main results

* `Rule.stopOfSeq_congr`, `Rule.firstMatch_congr` — several rules by rules that match alike
-/

namespace Peg

variable {ε : Type} {input : Array Char} {call call' : Meaning ε}

namespace Rule

variable {rules rules' : List Rule}

/-! ### All rules within a rule -/

mutual

/-- The rule has the property `p`, and so have all rules within it. -/
def Everywhere (p : Rule → Prop) : Rule → Prop
  | .char c => p (.char c)
  | .range low high => p (.range low high)
  | .string chars => p (.string chars)
  | .seq parts => p (.seq parts) ∧ EverywhereAll p parts
  | .pair left right => p (.pair left right) ∧ Everywhere p left ∧ Everywhere p right
  | .choice alternatives => p (.choice alternatives) ∧ EverywhereAll p alternatives
  | .not operand => p (.not operand) ∧ Everywhere p operand
  | .star operand => p (.star operand) ∧ Everywhere p operand
  | .plus operand => p (.plus operand) ∧ Everywhere p operand
  | .opt operand => p (.opt operand) ∧ Everywhere p operand
  | .ref target => p (.ref target)

/-- Several rules have the property `p`, and so have all rules within them. -/
def EverywhereAll (p : Rule → Prop) : List Rule → Prop
  | [] => True
  | rule :: rest => Everywhere p rule ∧ EverywhereAll p rest

end

theorem everywhereAll_iff {p : Rule → Prop} :
    EverywhereAll p rules ↔ ∀ rule ∈ rules, rule.Everywhere p := by
  induction rules with
  | nil => simp [EverywhereAll]
  | cons rule rest ih => rw [EverywhereAll, ih, List.forall_mem_cons]

/-! ### Parts that match alike -/

/-- The rules match alike, one by one. -/
abbrev MatchAlike (call call' : Meaning ε) (input : Array Char) (rules rules' : List Rule) : Prop :=
  List.Forall₂ (fun rule rule' => rule.matchWith call input = rule'.matchWith call' input) rules
    rules'

theorem stopOfSeq_congr (h : MatchAlike call call' input rules rules') :
    stopOfSeq call input rules = stopOfSeq call' input rules' := by
  induction h with
  | nil => rfl
  | cons hpart _ ih =>
    funext position
    rw [stopOfSeq, stopOfSeq, hpart, ih]

theorem firstMatch_congr (h : MatchAlike call call' input rules rules') :
    firstMatch call input rules = firstMatch call' input rules' := by
  induction h with
  | nil => rfl
  | cons halternative _ ih =>
    funext position
    rw [firstMatch, firstMatch, halternative, ih]

theorem matchAlike_map {f : Rule → Rule}
    (h : ∀ rule ∈ rules, (f rule).matchWith call input = rule.matchWith call' input) :
    MatchAlike call call' input (rules.map f) rules :=
  List.forall₂_map_left_iff.mpr (List.forall₂_same.mpr h)

theorem matchAlike_inPlace {old new : Rule} (before after : List Rule)
    (h : old.matchWith call input = new.matchWith call input) :
    MatchAlike call call input (before ++ old :: after) (before ++ new :: after) := by
  have hothers : ∀ rules, MatchAlike call call input rules rules := fun _ =>
    List.forall₂_same.mpr fun _ _ => rfl
  exact List.rel_append (hothers before) (.cons h (hothers after))

end Rule

end Peg
