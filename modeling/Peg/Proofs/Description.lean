import Mathlib.Data.List.Forall2
import Peg.Blueprint
import Peg.Proofs.References

/-!
# The rules that blueprints describe

A blueprint describes the rule that has the same parts in the same places, with the identities of
grammars for their names. A blueprint with a fault in it describes no rule: the bounds of a range
may be reversed where they are checked, a choice may lack the alternative that it has to have, and
there may be no grammar of a name.

To build a blueprint is to find the rule that it describes. If there is one, then the references
that were made are those in this rule.

## Main definitions

* `Blueprint.Describes` — the rule that a blueprint describes

## Main results

* `Blueprint.build_eq_ok_iff` — building gives the rule that the blueprint describes
* `Blueprint.refs_build` — building a rule makes the references in it, and no others
-/

namespace Peg

/-! ### Results that were built -/

namespace Built

variable {α β : Type} {built : Built α}

theorem result_andThen_eq_ok {next : α → Built β} {b : β}
    (h : (built.andThen next).result = .ok b) :
    ∃ a, built.result = .ok a ∧ (next a).result = .ok b := by
  rw [andThen] at h
  cases hresult : built.result with
  | error fault => rw [hresult] at h; cases h
  | ok a =>
    rw [hresult] at h
    exact ⟨a, rfl, h⟩

theorem map_eq_andThen (built : Built α) (f : α → β) :
    built.map f = built.andThen fun a => ⟨[], .ok (f a)⟩ := by
  rw [map, andThen]
  cases built.result <;> simp [Except.map]

theorem check_eq_andThen (built : Built α) (f : α → Except Fault β) :
    built.check f = built.andThen fun a => ⟨[], f a⟩ := by
  rw [check, andThen]
  cases built.result <;> simp [Except.bind]

theorem result_check_eq_ok {f : α → Except Fault β} {b : β}
    (h : (built.check f).result = .ok b) : ∃ a, built.result = .ok a ∧ f a = .ok b := by
  rw [check_eq_andThen] at h
  exact result_andThen_eq_ok h

theorem result_map_eq_ok {f : α → β} {b : β} (h : (built.map f).result = .ok b) :
    ∃ a, built.result = .ok a ∧ f a = b := by
  rw [map_eq_andThen] at h
  obtain ⟨a, ha, hb⟩ := result_andThen_eq_ok h
  exact ⟨a, ha, Except.ok.inj hb⟩

theorem map_ok (refs : List Ref) (a : α) (f : α → β) :
    map f ⟨refs, .ok a⟩ = ⟨refs, .ok (f a)⟩ := rfl

theorem check_ok (refs : List Ref) (a : α) (f : α → Except Fault β) :
    check f ⟨refs, .ok a⟩ = ⟨refs, f a⟩ := rfl

theorem andThen_ok (refs : List Ref) (a : α) (next : α → Built β) :
    andThen ⟨refs, .ok a⟩ next = ⟨refs ++ (next a).refs, (next a).result⟩ := rfl

end Built

/-! ### The rule that is built -/

namespace Blueprint

/-- `Describes locate blueprint rule`: the rule has the parts of the blueprint in their places. What
a careful builder checks holds of the blueprint, and the grammars that it names are there. -/
inductive Describes (locate : String → Option GrammarId) : Blueprint → Rule → Prop
  | char (c : Char) : Describes locate (.char c) (.char c)
  | range {low high : Char} (h : low ≤ high) : Describes locate (.range low high) (.range low high)
  | anyRange (low high : Char) : Describes locate (.anyRange low high) (.range low high)
  | string (chars : List Char) : Describes locate (.string chars) (.string chars)
  | seq {parts : List Blueprint} {rules : List Rule}
      (h : List.Forall₂ (Describes locate) parts rules) : Describes locate (.seq parts) (.seq rules)
  | pair {left right : Blueprint} {a b : Rule} (hleft : Describes locate left a)
      (hright : Describes locate right b) : Describes locate (.pair left right) (.pair a b)
  | choice {alternatives : List Blueprint} {rules : List Rule} (hne : alternatives ≠ [])
      (h : List.Forall₂ (Describes locate) alternatives rules) :
      Describes locate (.choice alternatives) (.choice rules)
  | anyChoice {alternatives : List Blueprint} {rules : List Rule}
      (h : List.Forall₂ (Describes locate) alternatives rules) :
      Describes locate (.anyChoice alternatives) (.choice rules)
  | not {operand : Blueprint} {inner : Rule} (h : Describes locate operand inner) :
      Describes locate (.not operand) (.not inner)
  | star {operand : Blueprint} {inner : Rule} (h : Describes locate operand inner) :
      Describes locate (.star operand) (.star inner)
  | plus {operand : Blueprint} {inner : Rule} (h : Describes locate operand inner) :
      Describes locate (.plus operand) (.plus inner)
  | opt {operand : Blueprint} {inner : Rule} (h : Describes locate operand inner) :
      Describes locate (.opt operand) (.opt inner)
  | ref {grammar : String} {id : GrammarId} (name : String) (h : locate grammar = some id) :
      Describes locate (.ref grammar name) (.ref ⟨id, name⟩)

variable {locate : String → Option GrammarId}

mutual

theorem describes_of_build (blueprint : Blueprint) {rule : Rule}
    (h : (build locate blueprint).result = .ok rule) : Describes locate blueprint rule := by
  cases blueprint with
  | char c => rw [build] at h; cases h; exact .char c
  | range low high =>
    rw [build] at h
    obtain ⟨hle, rfl⟩ := Rule.range?_eq_ok_iff.mp h
    exact .range hle
  | anyRange low high => rw [build] at h; cases h; exact .anyRange low high
  | string chars => rw [build] at h; cases h; exact .string chars
  | seq parts =>
    rw [build] at h
    obtain ⟨rules, hrules, rfl⟩ := Built.result_map_eq_ok h
    exact .seq (describes_of_buildAll parts hrules)
  | pair left right =>
    rw [build] at h
    obtain ⟨a, ha, hright⟩ := Built.result_andThen_eq_ok h
    obtain ⟨b, hb, rfl⟩ := Built.result_map_eq_ok hright
    exact .pair (describes_of_build left ha) (describes_of_build right hb)
  | choice alternatives =>
    rw [build] at h
    obtain ⟨rules, hrules, hchoice⟩ := Built.result_check_eq_ok h
    obtain ⟨hne, rfl⟩ := Rule.choice?_eq_ok_iff.mp hchoice
    have hall := describes_of_buildAll alternatives hrules
    refine .choice ?_ hall
    rintro rfl
    exact hne (List.forall₂_nil_left_iff.mp hall)
  | anyChoice alternatives =>
    rw [build] at h
    obtain ⟨rules, hrules, rfl⟩ := Built.result_map_eq_ok h
    exact .anyChoice (describes_of_buildAll alternatives hrules)
  | not operand =>
    rw [build] at h
    obtain ⟨inner, hinner, rfl⟩ := Built.result_map_eq_ok h
    exact .not (describes_of_build operand hinner)
  | star operand =>
    rw [build] at h
    obtain ⟨inner, hinner, rfl⟩ := Built.result_map_eq_ok h
    exact .star (describes_of_build operand hinner)
  | plus operand =>
    rw [build] at h
    obtain ⟨inner, hinner, rfl⟩ := Built.result_map_eq_ok h
    exact .plus (describes_of_build operand hinner)
  | opt operand =>
    rw [build] at h
    obtain ⟨inner, hinner, rfl⟩ := Built.result_map_eq_ok h
    exact .opt (describes_of_build operand hinner)
  | ref grammar name =>
    rw [build] at h
    cases hlocate : locate grammar with
    | none => rw [hlocate] at h; cases h
    | some id => rw [hlocate] at h; cases h; exact .ref name hlocate

theorem describes_of_buildAll (blueprints : List Blueprint) {rules : List Rule}
    (h : (buildAll locate blueprints).result = .ok rules) :
    List.Forall₂ (Describes locate) blueprints rules := by
  cases blueprints with
  | nil => rw [buildAll] at h; cases h; exact .nil
  | cons blueprint rest =>
    rw [buildAll] at h
    obtain ⟨rule, hrule, hrest⟩ := Built.result_andThen_eq_ok h
    obtain ⟨others, hothers, rfl⟩ := Built.result_map_eq_ok hrest
    exact .cons (describes_of_build blueprint hrule) (describes_of_buildAll rest hothers)

end

mutual

/-- A rule that is described is built, and with it come the references in it, from left to right. -/
theorem build_of_describes {blueprint : Blueprint} {rule : Rule}
    (h : Describes locate blueprint rule) : build locate blueprint = ⟨rule.refs, .ok rule⟩ := by
  cases h with
  | char c => rw [build, Built.plain, Rule.refs]
  | range hle => rw [build, Rule.range?_eq_ok_iff.mpr ⟨hle, rfl⟩, Rule.refs]
  | anyRange low high => rw [build, Built.plain, Rule.refs]
  | string chars => rw [build, Built.plain, Rule.refs]
  | seq hparts => rw [build, buildAll_of_describes hparts, Built.map_ok, Rule.refs]
  | pair hleft hright =>
    rw [build, build_of_describes hleft, Built.andThen_ok, build_of_describes hright, Built.map_ok,
      Rule.refs]
  | @choice alternatives rules hne hall =>
    have hrules : rules ≠ [] := by
      rintro rfl
      exact hne (List.forall₂_nil_right_iff.mp hall)
    rw [build, buildAll_of_describes hall, Built.check_ok,
      Rule.choice?_eq_ok_iff.mpr ⟨hrules, rfl⟩, Rule.refs]
  | anyChoice hall => rw [build, buildAll_of_describes hall, Built.map_ok, Rule.refs]
  | not hinner => rw [build, build_of_describes hinner, Built.map_ok, Rule.refs]
  | star hinner => rw [build, build_of_describes hinner, Built.map_ok, Rule.refs]
  | plus hinner => rw [build, build_of_describes hinner, Built.map_ok, Rule.refs]
  | opt hinner => rw [build, build_of_describes hinner, Built.map_ok, Rule.refs]
  | ref name hlocate => rw [build, hlocate, Rule.refs]

theorem buildAll_of_describes {blueprints : List Blueprint} {rules : List Rule}
    (h : List.Forall₂ (Describes locate) blueprints rules) :
    buildAll locate blueprints = ⟨Rule.refsAll rules, .ok rules⟩ := by
  cases h with
  | nil => rw [buildAll, Built.plain, Rule.refsAll]
  | cons hrule hrest =>
    rw [buildAll, build_of_describes hrule, Built.andThen_ok, buildAll_of_describes hrest,
      Built.map_ok, Rule.refsAll]

end

variable {blueprint : Blueprint} {rule rule' : Rule}

/-- Building a blueprint gives the rule that it describes. -/
theorem build_eq_ok_iff :
    (build locate blueprint).result = .ok rule ↔ Describes locate blueprint rule := by
  constructor
  · exact describes_of_build blueprint
  · intro h
    rw [build_of_describes h]

/-- Building a rule makes the references in it, in the order in which they stand there. -/
theorem refs_build (h : (build locate blueprint).result = .ok rule) :
    (build locate blueprint).refs = rule.refs := by
  rw [build_of_describes (build_eq_ok_iff.mp h)]

/-- A blueprint describes one rule at most. -/
theorem Describes.unique (h : Describes locate blueprint rule)
    (h' : Describes locate blueprint rule') : rule = rule' := by
  rw [← build_eq_ok_iff] at h h'
  exact Except.ok.inj (h.symm.trans h')

end Blueprint

end Peg
