import Peg.Proofs.Verdicts

/-!
# Laws of sequences and choices

Sequences and choices are lists of rules, and how the lists are nested does not matter. An
alternative is of no use after one that never fails, nor where it stands a second time. Where all
alternatives of a choice begin with the same parts, these can be written once before the choice.

The last law holds for a choice in the last place only. A choice is settled with its first
alternative that matches, whatever comes after it in a sequence, so parts that follow a choice
cannot be drawn into it.

## Main results

* `Store.verdict?_seq_inPlace`, `Store.verdict?_choice_inPlace` — a part of a list is replaced
* `Store.verdict?_seq_choice` — a choice in last place is drawn out of a sequence
* `Store.verdict?_string_append` — a string is the sequence of its parts
* `Store.seq_choice_equivalent` — the laws
-/

namespace Peg

open Outcome Run Verdict

variable {input : Array Char} {position : Nat}

/-- A text holds a string where it holds the first part of it, with the second part after it. -/
theorem startsAt_append (first second : List Char) :
    startsAt input (first ++ second) position =
      (startsAt input first position && startsAt input second (position + first.length)) := by
  induction first generalizing position with
  | nil =>
    -- Nothing is held everywhere up to the end of the text, but not past it.
    rw [List.nil_append, List.length_nil, Nat.add_zero]
    cases hsecond : startsAt input second position with
    | false => rw [Bool.and_false]
    | true =>
      obtain ⟨rest, hrest⟩ := startsAt_iff_remaining.mp hsecond
      have hle : position ≤ input.size := (remaining_eq_some_iff.mp hrest).1
      rw [startsAt, decide_eq_true hle, Bool.and_self]
  | cons c rest ih =>
    rw [List.cons_append, startsAt, startsAt, ih, List.length_cons, Bool.and_assoc,
      Nat.add_right_comm, Nat.add_assoc]

namespace Store

variable {store : Store} {rule : Rule}

/-! ### Rules in place of others -/

theorem verdict?_seq_inPlace {parts parts' : List Rule}
    (h : store.verdict? (.seq parts) = store.verdict? (.seq parts')) (before after : List Rule) :
    store.verdict? (.seq (before ++ parts ++ after)) =
      store.verdict? (.seq (before ++ parts' ++ after)) := by
  funext input position
  simp only [verdict?_seq_append, h]

theorem verdict?_choice_inPlace {alternatives alternatives' : List Rule}
    (h : store.verdict? (.choice alternatives) = store.verdict? (.choice alternatives'))
    (before after : List Rule) :
    store.verdict? (.choice (before ++ alternatives ++ after)) =
      store.verdict? (.choice (before ++ alternatives' ++ after)) := by
  funext input position
  simp only [verdict?_choice_append, h]

/-! ### Alternatives without effect -/

/-- Nothing is tried after an alternative that never fails. -/
theorem verdict?_choice_of_neverFails (h : store.NeverFails rule) (before after : List Rule) :
    store.verdict? (.choice (before ++ [rule] ++ after)) =
      store.verdict? (.choice (before ++ [rule])) := by
  have hdead : store.verdict? (.choice ([rule] ++ after)) = store.verdict? (.choice [rule]) := by
    funext input position
    rw [verdict?_choice_append, verdict?_choice_singleton]
    cases hv : store.verdict? rule input position with
    | none => rfl
    | some v =>
      cases v with
      | fail => exact absurd hv (h input position)
      | consumed n => rfl
  simpa only [List.append_assoc, List.append_nil] using verdict?_choice_inPlace hdead before []

/-- An alternative that comes back fails a second time. -/
theorem verdict?_choice_repeated (store : Store) (rule : Rule) (before between after : List Rule) :
    store.verdict? (.choice (before ++ [rule] ++ between ++ [rule] ++ after)) =
      store.verdict? (.choice (before ++ [rule] ++ between ++ after)) := by
  have hdead : store.verdict? (.choice ([rule] ++ between ++ [rule])) =
      store.verdict? (.choice ([rule] ++ between)) := by
    funext input position
    rw [verdict?_choice_append, verdict?_choice_append, verdict?_choice_singleton]
    cases hv : store.verdict? rule input position with
    | none => rfl
    | some v =>
      cases v with
      | fail => simp
      | consumed n => rfl
  simpa only [List.append_assoc] using verdict?_choice_inPlace hdead before after

/-! ### A choice in last place -/

/-- What is matched before a choice in last place is matched before each of the alternatives. -/
theorem verdict?_seq_choice (store : Store) (before : List Rule) (alternative : Rule)
    (others : List Rule) :
    store.verdict? (.seq (before ++ [.choice (alternative :: others)])) =
      store.verdict?
        (.choice ((alternative :: others).map fun last => .seq (before ++ [last]))) := by
  funext input position
  have hlast : ∀ last, store.verdict? (.seq (before ++ [last])) input position =
      (store.verdict? (.seq before) input position).bind fun v =>
        v.andThen fun n => store.verdict? last input (position + n) := by
    intro last
    rw [verdict?_seq_append, verdict?_seq_singleton]
  rw [hlast]
  cases hv : store.verdict? (.seq before) input position with
  | none =>
    -- With no end before the choice there is none before its first alternative.
    rw [List.map_cons, verdict?_choice_cons, hlast, hv]
    rfl
  | some v =>
    simp only [hv, Option.bind_some] at hlast ⊢
    -- After the one end before the choice the law holds for all lists, also for the empty one.
    generalize alternative :: others = alternatives
    induction alternatives with
    | nil =>
      rw [List.map_nil, verdict?_choice_nil]
      cases v <;> simp
    | cons alternative rest ih =>
      rw [List.map_cons, verdict?_choice_cons, hlast, ← ih, ← andThen_orElse]
      simp only [verdict?_choice_cons]

/-! ### Strings -/

theorem verdict?_string (store : Store) (chars : List Char) (input : Array Char)
    (position : Nat) :
    store.verdict? (.string chars) input position =
      some (if startsAt input chars position then .consumed chars.length else .fail) := by
  rw [verdict?, matchAt, Rule.matchWith, pure_def, value?_ends, Option.map_some]
  split <;> rfl

/-- A string is matched as its first part and its second part after it. -/
theorem verdict?_string_append (store : Store) (first second : List Char) :
    store.verdict? (.string (first ++ second)) =
      store.verdict? (.seq [.string first, .string second]) := by
  funext input position
  rw [verdict?_seq_cons, verdict?_seq_singleton, verdict?_string, verdict?_string, startsAt_append]
  cases startsAt input first position with
  | false => rfl
  | true =>
    rw [if_pos rfl, Option.bind_some, andThen_consumed, verdict?_string, Bool.true_and]
    split <;> simp

/-! ### The laws -/

/-- Sequences and ordered choices obey these laws, whatever their parts match and wherever that is:
at every position of every text both sides end together, with the same outcome. -/
theorem seq_choice_equivalent (store : Store) (xs ys zs : List Rule) (x y : Rule)
    (s t : List Char) :
    store.Equivalent (.seq (xs ++ [Rule.seq ys] ++ zs)) (.seq (xs ++ ys ++ zs)) ∧
    store.Equivalent (.choice (xs ++ [Rule.choice ys] ++ zs)) (.choice (xs ++ ys ++ zs)) ∧
    store.Equivalent (.seq [x]) x ∧
    store.Equivalent (.choice [x]) x ∧
    store.Equivalent (.seq (xs ++ [Rule.choice (y :: ys)]))
      (.choice ((y :: ys).map fun last => .seq (xs ++ [last]))) ∧
    store.Equivalent (.string (s ++ t)) (.seq [.string s, .string t]) ∧
    store.Equivalent (.choice (xs ++ [x] ++ ys ++ [x] ++ zs)) (.choice (xs ++ [x] ++ ys ++ zs)) ∧
    store.Equivalent (.choice (xs ++ [Rule.opt x] ++ zs)) (.choice (xs ++ [Rule.opt x])) ∧
    store.Equivalent (.choice (xs ++ [Rule.star x] ++ zs)) (.choice (xs ++ [Rule.star x])) ∧
    store.Equivalent (.choice (xs ++ [Rule.seq []] ++ zs)) (.choice (xs ++ [Rule.seq []])) := by
  simp only [equivalent_iff_verdict?]
  refine ⟨?_, ?_, ?_, ?_, ?_, ?_, ?_, ?_, ?_, ?_⟩
  · exact verdict?_seq_inPlace (verdict?_seq_singleton store _) xs zs
  · exact verdict?_choice_inPlace (verdict?_choice_singleton store _) xs zs
  · exact verdict?_seq_singleton store x
  · exact verdict?_choice_singleton store x
  · exact verdict?_seq_choice store xs y ys
  · exact verdict?_string_append store s t
  · exact verdict?_choice_repeated store x xs ys zs
  · exact verdict?_choice_of_neverFails (neverFails_opt store x) xs zs
  · exact verdict?_choice_of_neverFails (neverFails_star store x) xs zs
  · exact verdict?_choice_of_neverFails (neverFails_seq_nil store) xs zs

/-- A choice in front of another part does not factor: once it is settled with `a`, nothing else is
tried when `c` fails after that. -/
example :
    let store : Store := ⟨#[]⟩
    let a : Rule := .string ['a']
    let ab : Rule := .string ['a', 'b']
    let c : Rule := .char 'c'
    store.verdict? (.seq [.choice [a, ab], c]) #['a', 'b', 'c'] 0 = some .fail ∧
      store.verdict? (.choice [.seq [a, c], .seq [ab, c]]) #['a', 'b', 'c'] 0 =
        some (.consumed 3) := by
  decide

end Store

end Peg
