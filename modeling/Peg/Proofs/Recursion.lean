import Mathlib.Tactic.IntervalCases
import Peg.Proofs.RepetitionLaws

/-!
# Repetitions as rules that refer to themselves

A repetition can also be written as a rule of a grammar: an item and the rule itself after it, or
nothing. For at least one item the last alternative is the item, which is tried a second time where
no other follows. A loop with a cursor and a rule that refers to itself are different mechanisms,
but as long as the item ends everywhere and never matches without consuming they match the same.

Where an item consumes nothing the loop would stop, but the rule would come back to itself at the
same position and have no end. So the condition cannot be dropped.

## Main definitions

* `Store.ProductiveFrom` — from a position on, a rule ends and does not match with length 0

## Main results

* `Store.ProductiveFrom.exists_verdict?_ref_star`, `Store.ProductiveFrom.exists_verdict?_ref_plus` —
  the rules and the loops have the same verdicts
* `Store.recursion_eq_repetition` — they match the same
-/

namespace Peg

open Outcome Run Verdict

variable {input : Array Char} {position : Nat}

namespace Store

variable {store : Store} {rule : Rule} {target : Ref}

/-- At every position from `position` to the end of the text, or at `position` alone if that lies
past the end, a match of the rule comes to an end, and it is no success with length 0. -/
def ProductiveFrom (store : Store) (rule : Rule) (input : Array Char) (position : Nat) : Prop :=
  ∀ q, position ≤ q → q ≤ max position input.size →
    ∃ o log, store.matchAt rule input q = .ends o log ∧ ¬ (o.matched = true ∧ o.length = 0)

/-- Two matches with the same verdict end with the same outcome. -/
theorem exists_matchAt_of_verdict?_eq {rule' : Rule} {v : Verdict}
    (h : store.verdict? rule input position = some v)
    (h' : store.verdict? rule' input position = some v) :
    ∃ o log log', store.matchAt rule input position = .ends o log ∧
      store.matchAt rule' input position = .ends o log' := by
  obtain ⟨o, ⟨log, ho⟩, log', ho'⟩ := AgreeAt.of_verdict? h h'
  exact ⟨o, log, log', ho, ho'⟩

namespace ProductiveFrom

/-- At the position itself the rule fails, or it matches and consumes something. -/
theorem verdict?_cases (h : store.ProductiveFrom rule input position) :
    store.verdict? rule input position = some .fail ∨
      ∃ n, n ≠ 0 ∧ store.verdict? rule input position = some (.consumed n) := by
  obtain ⟨o, log, ho, hempty⟩ := h position (Nat.le_refl _) (Nat.le_max_left _ _)
  have hv := verdict?_of_matchAt ho
  cases hm : o.matched with
  | false => exact Or.inl (by rw [hv, verdict_eq_fail_iff.mpr hm])
  | true =>
    exact Or.inr ⟨o.length, fun hlength => hempty ⟨hm, hlength⟩, by rw [hv, verdict_of_matched hm]⟩

theorem later {later : Nat} (h : store.ProductiveFrom rule input position)
    (hreaches : Reaches input position later) : store.ProductiveFrom rule input later := by
  intro q hlater hq
  unfold Reaches at hreaches
  exact h q (by omega) (by omega)

/-- By induction on what is left of the text, for the rule and the loop at once. -/
theorem exists_verdict?_ref_star (h : store.ProductiveFrom rule input position)
    (hresolve : store.resolve target = .ok (.choice [.seq [rule, .ref target], .seq []])) :
    ∃ v, store.verdict? (.ref target) input position = some v ∧
      store.verdict? (.star rule) input position = some v := by
  induction position using Reaches.induction input with
  | step position ih =>
    rw [verdict?_ref_of_ok hresolve, verdict?_choice_cons, verdict?_choice_singleton,
      verdict?_seq_nil, verdict?_seq_cons, verdict?_seq_singleton, verdict?_star]
    rcases h.verdict?_cases with hv | ⟨n, hn, hv⟩
    · rw [hv]
      exact ⟨.consumed 0, rfl, rfl⟩
    · have hreaches : Reaches input position (position + n) := reaches_of_verdict? hv
      obtain ⟨w, href, hstar⟩ := ih _ hreaches (by omega) (h.later hreaches)
      rw [hv]
      refine ⟨w.after n, ?_, ?_⟩
      · -- The loop after the first item cannot fail, so the other alternative is not tried.
        cases w with
        | fail => exact absurd hstar (neverFails_star store rule _ _)
        | consumed m => simp [href]
      · simp [hn, hstar]

theorem exists_verdict?_ref_plus (h : store.ProductiveFrom rule input position)
    (hresolve : store.resolve target = .ok (.choice [.seq [rule, .ref target], rule])) :
    ∃ v, store.verdict? (.ref target) input position = some v ∧
      store.verdict? (.plus rule) input position = some v := by
  induction position using Reaches.induction input with
  | step position ih =>
    rw [verdict?_ref_of_ok hresolve, verdict?_choice_cons, verdict?_choice_singleton,
      verdict?_seq_cons, verdict?_seq_singleton, verdict?_plus]
    rcases h.verdict?_cases with hv | ⟨n, hn, hv⟩
    · rw [hv]
      exact ⟨.fail, rfl, rfl⟩
    · have hreaches : Reaches input position (position + n) := reaches_of_verdict? hv
      obtain ⟨w, href, hplus⟩ := ih _ hreaches (by omega) (h.later hreaches)
      have hstar :
          store.verdict? (.star rule) input (position + n) = some (.consumed w.length) := by
        rw [← verdict?_opt_plus, verdict?_opt, hplus, Option.map_some]
      rw [hv]
      refine ⟨.consumed (n + w.length), ?_, ?_⟩
      · -- After the last item the rule fails, and the other alternative matches the item again.
        cases w with
        | fail => simp [href]
        | consumed m => simp [href]
      · simp [hn, hstar]

end ProductiveFrom

/-- From a position on, let a rule end everywhere and never match with length 0. Then its
repetition matches there what a name matches that is defined by the rule and the name after it, or
nothing; and the repetition for at least one match is matched alike by a name that is defined by the
rule and the name after it, or the rule alone. -/
theorem recursion_eq_repetition (h : store.ProductiveFrom rule input position) :
    (∀ many, store.resolve many = .ok (.choice [.seq [rule, .ref many], .seq []]) →
      ∃ o log log', store.matchAt (.ref many) input position = .ends o log ∧
        store.matchAt (.star rule) input position = .ends o log') ∧
    ∀ several, store.resolve several = .ok (.choice [.seq [rule, .ref several], rule]) →
      ∃ o log log', store.matchAt (.ref several) input position = .ends o log ∧
        store.matchAt (.plus rule) input position = .ends o log' := by
  constructor
  · intro many hmany
    obtain ⟨v, href, hstar⟩ := h.exists_verdict?_ref_star hmany
    exact exists_matchAt_of_verdict?_eq href hstar
  · intro several hseveral
    obtain ⟨v, href, hplus⟩ := h.exists_verdict?_ref_plus hseveral
    exact exists_matchAt_of_verdict?_eq href hplus

/-- A grammar of letters, any number of them and at least one. -/
def letters : Store :=
  let letter : Rule := .ref ⟨0, "letter"⟩
  let many : Rule := .choice [.seq [letter, .ref ⟨0, "many"⟩], .seq []]
  let several : Rule := .choice [.seq [letter, .ref ⟨0, "several"⟩], letter]
  ⟨#[some ⟨.ofList [("letter", some (Rule.choice [.char 'x', .char 'y'])), ("many", some many),
    ("several", some several)]⟩]⟩

theorem letters_productive :
    letters.ProductiveFrom (.ref ⟨0, "letter"⟩) #['(', 'x', 'y', ')'] 1 := by
  intro q hle hq
  have hsize : q ≤ 4 := hq
  interval_cases q
  · exact ⟨.success ['x'], [], by decide, by decide⟩
  · exact ⟨.success ['y'], [], by decide, by decide⟩
  · exact ⟨.noMatch, [], by decide, by decide⟩
  · exact ⟨.noMatch, [], by decide, by decide⟩

/-- Two letters within parentheses. The last one is tried again by the rule for at least one. -/
theorem recursion_eq_repetition_letters :
    let input := #['(', 'x', 'y', ')']
    let letter : Rule := .ref ⟨0, "letter"⟩
    letters.ProductiveFrom letter input 1 ∧
      letters.resolve ⟨0, "many"⟩ = .ok (.choice [.seq [letter, .ref ⟨0, "many"⟩], .seq []]) ∧
      letters.resolve ⟨0, "several"⟩ =
        .ok (.choice [.seq [letter, .ref ⟨0, "several"⟩], letter]) ∧
      letters.matchAt (.star letter) input 1 = .ends (.success ['x', 'y']) [] ∧
      (∃ log, letters.matchAt (.ref ⟨0, "many"⟩) input 1 = .ends (.success ['x', 'y']) log) ∧
      letters.matchAt (.plus letter) input 1 = .ends (.success ['x', 'y']) [] ∧
      ∃ log, letters.matchAt (.ref ⟨0, "several"⟩) input 1 = .ends (.success ['x', 'y']) log := by
  intro input letter
  have hstar : letters.matchAt (.star letter) input 1 = .ends (.success ['x', 'y']) [] := by decide
  have hplus : letters.matchAt (.plus letter) input 1 = .ends (.success ['x', 'y']) [] := by decide
  obtain ⟨hmany, hseveral⟩ := recursion_eq_repetition letters_productive
  obtain ⟨o, log, l, ho, hstar'⟩ := hmany ⟨0, "many"⟩ rfl
  obtain ⟨rfl, -⟩ := ends.inj (hstar.symm.trans hstar')
  obtain ⟨o', log', l', ho', hplus'⟩ := hseveral ⟨0, "several"⟩ rfl
  obtain ⟨rfl, -⟩ := ends.inj (hplus.symm.trans hplus')
  exact ⟨letters_productive, rfl, rfl, hstar, ⟨log, ho⟩, hplus, log', ho'⟩

/-- An item that matches with length 0: the loop stops there, and the rule has no end. -/
example :
    let nothing : Rule := .seq []
    let many : Rule := .choice [.seq [nothing, .ref ⟨0, "many"⟩], .seq []]
    let store : Store := ⟨#[some ⟨.ofList [("many", some many)]⟩]⟩
    store.matchAt (.star nothing) #[] 0 = .ends .empty [] ∧
      store.matchAt (.ref ⟨0, "many"⟩) #[] 0 = .endless := by
  decide

end Store

end Peg
