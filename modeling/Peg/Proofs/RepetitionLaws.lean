import Peg.Proofs.Verdicts

/-!
# Laws of repetitions and options

A repetition ends where its operand fails or consumes nothing. So where it ends, the same repetition
would consume nothing, and to repeat it or to put it after itself adds nothing. This is what makes
the laws of repetition hold for all operands, also for those that match without consuming, where a
repetition that goes on as long as its operand matches would have no end.

A rule that consumes nothing where a match of it has ended is said to exhaust. To repeat such a rule
is to try it once. Repetitions exhaust whatever their operands are, and the laws on repetitions
within repetitions follow from this.

## Main definitions

* `Store.Exhausts` — a rule consumes nothing where a match of it has ended

## Main results

* `Store.verdict?_opt_plus`, `Store.verdict?_plus_eq_seq` — repetitions in terms of each other
* `Store.verdict?_star_eq_of_lengths` — a repetition asks only how much its operand consumes
* `Store.Exhausts.verdict?_star`, `Store.Exhausts.verdict?_plus` — a rule that exhausts need not be
  repeated
* `Store.exhausts_star`, `Store.exhausts_plus` — repetitions exhaust
* `Store.repetition_equivalent` — the laws
-/

namespace Peg

open Outcome Run Verdict

variable {input : Array Char} {position : Nat}

namespace Store

variable {store : Store} {rule rule' : Rule}

/-! ### Options -/

theorem verdict?_opt_of_neverFails (h : store.NeverFails rule) :
    store.verdict? (.opt rule) = store.verdict? rule := by
  funext input position
  rw [verdict?_opt]
  cases hv : store.verdict? rule input position with
  | none => rfl
  | some v =>
    cases v with
    | fail => exact absurd hv (h input position)
    | consumed n => rfl

theorem verdict?_opt_eq_choice (store : Store) (rule : Rule) :
    store.verdict? (.opt rule) = store.verdict? (.choice [rule, .seq []]) := by
  funext input position
  rw [verdict?_opt, verdict?_choice_cons, verdict?_choice_singleton, verdict?_seq_nil]
  cases store.verdict? rule input position with
  | none => rfl
  | some v => cases v <;> rfl

/-! ### One repetition in terms of the other -/

/-- `star` is `plus`, but with nothing in the place of a failure. -/
theorem verdict?_opt_plus (store : Store) (rule : Rule) :
    store.verdict? (.opt (.plus rule)) = store.verdict? (.star rule) := by
  funext input position
  rw [verdict?_opt, verdict?_plus, verdict?_star, Option.map_bind]
  congr 1
  funext v
  dsimp only [Function.comp_apply]
  split
  · next hlength => rw [Option.map_some, hlength]
  · cases hrest : store.verdict? (.star rule) input (position + v.length) with
    | none => rfl
    | some rest =>
      cases rest with
      | fail => exact absurd hrest (neverFails_star store rule _ _)
      | consumed n => rfl

/-- `plus` is its operand and `star` after it. After an empty match `star` stays where it is. -/
theorem verdict?_plus_eq_seq (store : Store) (rule : Rule) :
    store.verdict? (.plus rule) = store.verdict? (.seq [rule, .star rule]) := by
  funext input position
  rw [verdict?_plus, verdict?_seq_cons, verdict?_seq_singleton]
  cases hv : store.verdict? rule input position with
  | none => rfl
  | some v =>
    cases v with
    | fail => rfl
    | consumed n =>
      rw [Option.bind_some, Option.bind_some, andThen_consumed, length_consumed]
      split
      · next hn =>
        -- The operand is tried again at the same position, and there it ends the repetition.
        subst hn
        rw [Nat.add_zero, verdict?_star, hv, Option.bind_some, length_consumed, if_pos rfl]
        rfl
      · rfl

theorem verdict?_choice_star (store : Store) (rule : Rule) :
    store.verdict? (.choice [.seq [rule, .star rule], .seq []]) =
      store.verdict? (.star rule) := by
  calc store.verdict? (.choice [.seq [rule, .star rule], .seq []])
    _ = store.verdict? (.choice [.plus rule, .seq []]) := by
        funext input position
        rw [verdict?_choice_cons, ← verdict?_plus_eq_seq, ← verdict?_choice_cons]
    _ = store.verdict? (.opt (.plus rule)) := (verdict?_opt_eq_choice store _).symm
    _ = store.verdict? (.star rule) := verdict?_opt_plus store rule

/-- A repetition asks only how much its operand consumes, and takes a failure as nothing. -/
theorem verdict?_star_eq_of_lengths
    (h : ∀ input position, (store.verdict? rule input position).map Verdict.length =
      (store.verdict? rule' input position).map Verdict.length) :
    store.verdict? (.star rule) = store.verdict? (.star rule') := by
  funext input position
  induction position using Reaches.induction input with
  | step position ih =>
    rw [verdict?_star, verdict?_star]
    have hlengths := h input position
    cases hv : store.verdict? rule input position with
    | none =>
      rw [hv, Option.map_none, eq_comm, Option.map_eq_none_iff] at hlengths
      rw [hlengths]
      rfl
    | some v =>
      rw [hv, Option.map_some, eq_comm, Option.map_eq_some_iff] at hlengths
      obtain ⟨v', hv', hlength⟩ := hlengths
      rw [hv', Option.bind_some, Option.bind_some, hlength]
      split
      · rfl
      · rw [ih _ (reaches_of_verdict? hv) (by omega)]

theorem verdict?_star_opt (store : Store) (rule : Rule) :
    store.verdict? (.star (.opt rule)) = store.verdict? (.star rule) := by
  apply verdict?_star_eq_of_lengths
  intro input position
  rw [verdict?_opt, Option.map_map]
  rfl

/-- `plus` fails only where its operand does. -/
theorem NeverFails.plus (h : store.NeverFails rule) : store.NeverFails (.plus rule) := by
  intro input position hplus
  rw [verdict?_plus, Option.bind_eq_some_iff] at hplus
  obtain ⟨v, hv, hrest⟩ := hplus
  split at hrest
  · exact h input position (hv.trans hrest)
  · obtain ⟨rest, hlater, hfail⟩ := Option.map_eq_some_iff.mp hrest
    cases rest with
    | fail => exact neverFails_star store rule _ _ hlater
    | consumed n => cases hfail

theorem verdict?_plus_opt (store : Store) (rule : Rule) :
    store.verdict? (.plus (.opt rule)) = store.verdict? (.star rule) := by
  have hnever : store.NeverFails (.plus (.opt rule)) := (neverFails_opt store rule).plus
  calc store.verdict? (.plus (.opt rule))
    _ = store.verdict? (.opt (.plus (.opt rule))) := (verdict?_opt_of_neverFails hnever).symm
    _ = store.verdict? (.star (.opt rule)) := verdict?_opt_plus store _
    _ = store.verdict? (.star rule) := verdict?_star_opt store rule

/-! ### Rules that exhaust -/

/-- Where a match of the rule has ended, the rule consumes nothing more. -/
def Exhausts (store : Store) (rule : Rule) : Prop :=
  ∀ ⦃input position n⦄, store.verdict? rule input position = some (.consumed n) →
    (store.verdict? rule input (position + n)).map Verdict.length = some 0

/-- One iteration of a rule that exhausts is all that a repetition makes. -/
theorem Exhausts.verdict?_star (h : store.Exhausts rule) :
    store.verdict? (.star rule) = store.verdict? (.opt rule) := by
  funext input position
  rw [Store.verdict?_star, verdict?_opt]
  cases hv : store.verdict? rule input position with
  | none => rfl
  | some v =>
    cases v with
    | fail => rfl
    | consumed n =>
      rw [Option.bind_some, Option.map_some, length_consumed]
      split
      · next hn => rw [hn]
      · -- The second iteration consumes nothing, so the repetition ends there.
        obtain ⟨v', hv', hlength⟩ := Option.map_eq_some_iff.mp (h hv)
        rw [Store.verdict?_star, hv', Option.bind_some, if_pos hlength, Option.map_some,
          after_consumed, Nat.add_zero]

theorem Exhausts.verdict?_plus (h : store.Exhausts rule) :
    store.verdict? (.plus rule) = store.verdict? rule := by
  funext input position
  rw [verdict?_plus_eq_seq, verdict?_seq_cons, verdict?_seq_singleton, h.verdict?_star]
  cases hv : store.verdict? rule input position with
  | none => rfl
  | some v =>
    cases v with
    | fail => rfl
    | consumed n =>
      obtain ⟨v', hv', hlength⟩ := Option.map_eq_some_iff.mp (h hv)
      rw [Option.bind_some, andThen_consumed, verdict?_opt, hv', Option.map_some, Option.map_some,
        hlength, after_consumed, Nat.add_zero]

/-- After itself a rule that exhausts adds nothing, unless it fails there. -/
theorem Exhausts.verdict?_seq_self (h : store.Exhausts rule) (hnever : store.NeverFails rule) :
    store.verdict? (.seq [rule, rule]) = store.verdict? rule := by
  have hself : store.verdict? (.star rule) = store.verdict? rule :=
    h.verdict?_star.trans (verdict?_opt_of_neverFails hnever)
  calc store.verdict? (.seq [rule, rule])
    _ = store.verdict? (.seq [rule, .star rule]) := by
        funext input position
        rw [verdict?_seq_cons, verdict?_seq_cons, verdict?_seq_singleton, verdict?_seq_singleton,
          hself]
    _ = store.verdict? (.plus rule) := (verdict?_plus_eq_seq store rule).symm
    _ = store.verdict? rule := h.verdict?_plus

theorem exhausts_star (store : Store) (rule : Rule) : store.Exhausts (.star rule) := by
  intro input position n h
  induction position using Reaches.induction input generalizing n with
  | step position ih =>
    have hstar := h
    rw [verdict?_star, Option.bind_eq_some_iff] at h
    obtain ⟨v, hv, hrest⟩ := h
    split at hrest
    · obtain rfl : 0 = n := by simpa using hrest
      rw [Nat.add_zero, hstar]
      rfl
    · -- The repetition ends where the one after the first iteration ends.
      obtain ⟨rest, hlater, hsum⟩ := Option.map_eq_some_iff.mp hrest
      cases rest with
      | fail => cases hsum
      | consumed m =>
        obtain rfl : v.length + m = n := by simpa using hsum
        rw [← Nat.add_assoc]
        exact ih _ (reaches_of_verdict? hv) (by omega) hlater

theorem exhausts_plus (store : Store) (rule : Rule) : store.Exhausts (.plus rule) := by
  intro input position n h
  -- Where `plus` matches, `star` matches the same, and it asks how much `plus` consumes.
  have hlengths : ∀ position, (store.verdict? (.plus rule) input position).map Verdict.length =
      (store.verdict? (.star rule) input position).map Verdict.length := by
    intro position
    rw [← verdict?_opt_plus, verdict?_opt, Option.map_map]
    rfl
  have hstar : store.verdict? (.star rule) input position = some (.consumed n) := by
    rw [← verdict?_opt_plus, verdict?_opt, h]
    rfl
  rw [hlengths]
  exact exhausts_star store rule hstar

/-! ### The laws -/

/-- Repetitions and options obey these laws, whatever their operands match and wherever that is: at
every position of every text both sides end together, with the same outcome. -/
theorem repetition_equivalent (store : Store) (rule : Rule) :
    (store.Equivalent (.star rule) (.opt (.plus rule)) ∧
      store.Equivalent (.star rule) (.choice [.seq [rule, .star rule], .seq []]) ∧
      store.Equivalent (.plus rule) (.seq [rule, .star rule])) ∧
    (store.Equivalent (.star (.star rule)) (.star rule) ∧
      store.Equivalent (.star (.plus rule)) (.star rule) ∧
      store.Equivalent (.star (.opt rule)) (.star rule) ∧
      store.Equivalent (.plus (.star rule)) (.star rule) ∧
      store.Equivalent (.plus (.opt rule)) (.star rule) ∧
      store.Equivalent (.opt (.star rule)) (.star rule) ∧
      store.Equivalent (.seq [.star rule, .star rule]) (.star rule)) ∧
    store.Equivalent (.plus (.plus rule)) (.plus rule) ∧
    store.Equivalent (.opt (.opt rule)) (.opt rule) ∧
    store.Equivalent (.opt rule) (.choice [rule, .seq []]) := by
  have hnever := neverFails_star store rule
  have hopt := verdict?_opt_of_neverFails hnever
  have hstar := exhausts_star store rule
  have hplus := exhausts_plus store rule
  simp only [equivalent_iff_verdict?]
  refine ⟨⟨?_, ?_, ?_⟩, ⟨?_, ?_, ?_, ?_, ?_, ?_, ?_⟩, ?_, ?_, ?_⟩
  · exact (verdict?_opt_plus store rule).symm
  · exact (verdict?_choice_star store rule).symm
  · exact verdict?_plus_eq_seq store rule
  · exact hstar.verdict?_star.trans hopt
  · exact hplus.verdict?_star.trans (verdict?_opt_plus store rule)
  · exact verdict?_star_opt store rule
  · exact hstar.verdict?_plus
  · exact verdict?_plus_opt store rule
  · exact hopt
  · exact hstar.verdict?_seq_self hnever
  · exact hplus.verdict?_plus
  · exact verdict?_opt_of_neverFails (neverFails_opt store rule)
  · exact verdict?_opt_eq_choice store rule

end Store

end Peg
