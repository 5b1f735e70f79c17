import Peg.Proofs.Equations
import Peg.Search

/-!
# Repetitions are greedy

A repetition tries its operand again and again, each time from where the last match ended. The
matches that consumed something form a chain from the start of the repetition to the position at
which the operand fails or consumes nothing. As a rule has one outcome at each position, there is
one chain only, and it is the whole repetition: what is consumed is what the matches of the chain
consumed, one after another.

Nothing of it is given back. What follows a repetition of a rule is tried at the end of the chain,
and there the rule has nothing more to consume. So the rule itself can only follow its repetition
by a match that consumes nothing.

## Main definitions

* `Store.Consumes` — the rule matches here and consumes the characters up to there
* `Store.Rests` — the rule fails or consumes nothing
* `Store.Chain` — the matches that a repetition makes, and where it ends

## Main results

* `Store.exists_chain`, `Store.Chain.unique` — a repetition that ends has exactly one chain
* `Store.Chain.matchAt_star`, `Store.Chain.matchAt_plus` — it consumes what its chain consumes
* `Store.Chain.matchAt_star_then` — nothing is given back
* `Store.repetition_eq_chain` — all of this for every repetition
-/

namespace Peg

open Outcome Run

variable {input : Array Char} {position start stop : Nat}

namespace Store

variable {store : Store} {rule : Rule} {iterations : List Occurrence}

/-! ### Chains -/

/-- The rule matches at `start` and consumes the characters up to `stop`, at least one. -/
def Consumes (store : Store) (rule : Rule) (input : Array Char) (start stop : Nat)
    (content : List Char) : Prop :=
  start < stop ∧ ∃ log, store.matchAt rule input start = .ends ⟨true, stop - start, content⟩ log

/-- At `position` the rule fails, or it matches with length 0. -/
def Rests (store : Store) (rule : Rule) (input : Array Char) (position : Nat) : Prop :=
  ∃ o log, store.matchAt rule input position = .ends o log ∧ (o.matched = false ∨ o.length = 0)

/-- `store.Chain rule input start iterations stop`: from `start` to `stop` the rule matches
`iterations` one after another, each of which consumes something, and there it rests. -/
inductive Chain (store : Store) (rule : Rule) (input : Array Char) :
    Nat → List Occurrence → Nat → Prop
  | rest {position : Nat} (h : store.Rests rule input position) :
      Chain store rule input position [] position
  | step {start mid stop : Nat} {content : List Char} {iterations : List Occurrence}
      (h : store.Consumes rule input start mid content)
      (hrest : Chain store rule input mid iterations stop) :
      Chain store rule input start (⟨start, mid, content⟩ :: iterations) stop

theorem Rests.of_length_eq_zero {o : Outcome} {log : List Miss}
    (h : store.matchAt rule input position = .ends o log) (hlength : o.length = 0) :
    store.Rests rule input position := ⟨o, log, h, Or.inr hlength⟩

/-- Where the rule rests, it fails with length 0 or matches with it. -/
theorem Rests.exists_matchAt (h : store.Rests rule input position) :
    ∃ o log, store.matchAt rule input position = .ends o log ∧ SpansAt input position o ∧
      o.length = 0 := by
  obtain ⟨o, log, ho, hrests⟩ := h
  have hspan := (store.matchAt_spansAt rule input position).of_ends ho
  refine ⟨o, log, ho, hspan, ?_⟩
  rcases hrests with hm | hlength
  · rw [hspan.eq_noMatch hm, length_noMatch]
  · exact hlength

theorem Consumes.of_length_ne_zero {o : Outcome} {log : List Miss}
    (h : store.matchAt rule input start = .ends o log) (hlength : o.length ≠ 0) :
    store.Consumes rule input start (start + o.length) o.content := by
  have hspan := (store.matchAt_spansAt rule input start).of_ends h
  refine ⟨by omega, log, ?_⟩
  rw [h, Nat.add_sub_cancel_left, ← hspan.matched_of_length_ne_zero hlength]

theorem Consumes.reaches {content : List Char} (h : store.Consumes rule input start stop content) :
    Reaches input start stop := by
  obtain ⟨hlt, log, hmatch⟩ := h
  have hspan := (store.matchAt_spansAt rule input start).of_ends hmatch
  have hreaches := hspan.reaches
  rwa [Nat.add_sub_cancel' (Nat.le_of_lt hlt)] at hreaches

theorem Consumes.not_rests {content : List Char}
    (h : store.Consumes rule input start stop content) : ¬ store.Rests rule input start := by
  obtain ⟨hlt, log, hmatch⟩ := h
  rintro ⟨o, log', ho, hrests⟩
  obtain ⟨rfl, -⟩ := ends.inj (hmatch.symm.trans ho)
  rcases hrests with hm | hlength
  · cases hm
  · dsimp only at hlength
    omega

theorem Consumes.unique {stop' : Nat} {content content' : List Char}
    (h : store.Consumes rule input start stop content)
    (h' : store.Consumes rule input start stop' content') : stop = stop' ∧ content = content' := by
  obtain ⟨hlt, log, hmatch⟩ := h
  obtain ⟨hlt', log', hmatch'⟩ := h'
  obtain ⟨heq, -⟩ := ends.inj (hmatch.symm.trans hmatch')
  simp only [Outcome.mk.injEq, true_and] at heq
  exact ⟨by omega, heq.2⟩

namespace Chain

theorem reaches (h : store.Chain rule input start iterations stop) : Reaches input start stop := by
  induction h with
  | rest h => exact .refl input _
  | step h _ ih => exact h.reaches.trans ih

theorem rests (h : store.Chain rule input start iterations stop) :
    store.Rests rule input stop := by
  induction h with
  | rest h => exact h
  | step _ _ ih => exact ih

/-- Each match of the chain consumes at least one of the characters that are left. -/
theorem length_le_left (h : store.Chain rule input start iterations stop) :
    iterations.length ≤ input.size - start := by
  induction h with
  | rest h => exact Nat.zero_le _
  | step h _ ih =>
    have hlt := h.1
    have hsize := h.reaches.le_size_of_lt hlt
    rw [List.length_cons]
    omega

theorem unique {iterations' : List Occurrence} {stop' : Nat}
    (h : store.Chain rule input start iterations stop)
    (h' : store.Chain rule input start iterations' stop') :
    iterations' = iterations ∧ stop' = stop := by
  induction h generalizing iterations' stop' with
  | rest h =>
    cases h' with
    | rest => exact ⟨rfl, rfl⟩
    | step hconsumes => exact absurd h hconsumes.not_rests
  | step h _ ih =>
    cases h' with
    | rest hrests => exact absurd hrests h.not_rests
    | step hconsumes hrest =>
      obtain ⟨rfl, rfl⟩ := h.unique hconsumes
      obtain ⟨rfl, rfl⟩ := ih hrest
      exact ⟨rfl, rfl⟩

/-- `star` matches the whole chain. -/
theorem matchAt_star (h : store.Chain rule input start iterations stop) :
    ∃ log, store.matchAt (.star rule) input start =
      .ends ⟨true, stop - start, iterations.flatMap Occurrence.value⟩ log := by
  induction h with
  | @rest position h =>
    obtain ⟨o, log, ho, -, hlength⟩ := h.exists_matchAt
    refine ⟨log, ?_⟩
    rw [Store.matchAt_star, ho, ends_bind, if_pos hlength, pure_def, after_ends, List.append_nil,
      Nat.sub_self, List.flatMap_nil, Outcome.empty]
  | @step start mid stop content iterations h hrest ih =>
    obtain ⟨hlt, l, hmatch⟩ := h
    obtain ⟨m, hstar⟩ := ih
    have hle := hrest.reaches.le
    have hlength : mid - start ≠ 0 := by omega
    refine ⟨l ++ m, ?_⟩
    rw [Store.matchAt_star, hmatch, ends_bind, if_neg hlength,
      Nat.add_sub_cancel' (Nat.le_of_lt hlt), hstar, map_ends, after_ends, append]
    congr 2
    dsimp only
    omega

/-- `plus` matches the whole chain as well, if the operand matches at all. -/
theorem matchAt_plus (h : store.Chain rule input start iterations stop) :
    ∃ first l log, store.matchAt rule input start = .ends first l ∧
      store.matchAt (.plus rule) input start =
        .ends (if first.matched then ⟨true, stop - start, iterations.flatMap Occurrence.value⟩
          else .noMatch) log := by
  obtain ⟨log, hstar⟩ := h.matchAt_star
  cases h with
  | rest h =>
    obtain ⟨o, l, ho, hspan, hlength⟩ := h.exists_matchAt
    refine ⟨o, l, l, ho, ?_⟩
    rw [Store.matchAt_plus, ho, ends_bind, if_pos hlength, pure_def, after_ends, List.append_nil]
    cases hm : o.matched with
    | false => rw [hspan.eq_noMatch hm]; rfl
    | true => rw [hspan.eq_empty hm hlength, if_pos rfl, Nat.sub_self, List.flatMap_nil,
        Outcome.empty]
  | step h _ =>
    obtain ⟨hlt, l, hmatch⟩ := h
    refine ⟨_, l, log, hmatch, ?_⟩
    have hlength : ∀ mid, start < mid → mid - start ≠ 0 := by omega
    -- After an iteration that consumed something `plus` does what `star` does.
    rw [Store.matchAt_star, hmatch, ends_bind, if_neg (hlength _ hlt)] at hstar
    rw [Store.matchAt_plus, hmatch, ends_bind, if_neg (hlength _ hlt), hstar, if_pos rfl]

/-- After its repetition a rule is tried where it rests, so it matches only with length 0. -/
theorem matchAt_star_then (h : store.Chain rule input start iterations stop) :
    ∃ last l second log, store.matchAt rule input stop = .ends last l ∧
      store.matchAt (.seq [.star rule, rule]) input start = .ends second log ∧
      (second.matched = true ↔ last.matched = true ∧ last.length = 0) ∧
      (second.matched = true →
        second = ⟨true, stop - start, iterations.flatMap Occurrence.value⟩) := by
  obtain ⟨log, hstar⟩ := h.matchAt_star
  obtain ⟨last, l, hlast, hspan, hlength⟩ := h.rests.exists_matchAt
  have hstop : start + (stop - start) = stop := Nat.add_sub_cancel' h.reaches.le
  have hsecond : store.matchAt (.seq [.star rule, rule]) input start =
      .ends (Outcome.andThen ⟨true, stop - start, iterations.flatMap Occurrence.value⟩ last)
        (log ++ l) := by
    rw [matchAt_seq_cons]
    refine followedBy_of_matched hstar rfl ?_
    rw [hstop, matchAt_seq_singleton, hlast]
  refine ⟨last, l, _, _, hlast, hsecond, ?_⟩
  cases hm : last.matched with
  | false => simp [hspan.eq_noMatch hm]
  | true => simp [hspan.eq_empty hm hlength, andThen, append]

end Chain

/-- By induction on what is left of the text: each iteration that consumed something leaves less. -/
theorem exists_chain (h : store.matchAt (.star rule) input position ≠ .endless) :
    ∃ iterations stop, store.Chain rule input position iterations stop := by
  induction position using Reaches.induction input with
  | step position ih =>
    rw [matchAt_star] at h
    cases ho : store.matchAt rule input position with
    | endless => exact absurd (by rw [ho, endless_bind]) h
    | ends o log =>
      by_cases hlength : o.length = 0
      · exact ⟨[], position, .rest (.of_length_eq_zero ho hlength)⟩
      · have hconsumes := Consumes.of_length_ne_zero ho hlength
        have hlater : store.matchAt (.star rule) input (position + o.length) ≠ .endless := by
          intro hendless
          apply h
          rw [ho, ends_bind, if_neg hlength, hendless, map_endless, after_endless]
        obtain ⟨iterations, stop, hchain⟩ := ih _ hconsumes.reaches hconsumes.1 hlater
        exact ⟨_, stop, .step hconsumes hchain⟩

/-- `plus` makes the attempts of `star`, so both end or none. -/
theorem matchAt_plus_eq_endless_iff :
    store.matchAt (.plus rule) input position = .endless ↔
      store.matchAt (.star rule) input position = .endless := by
  rw [matchAt_plus, matchAt_star]
  cases store.matchAt rule input position with
  | endless => rfl
  | ends o log =>
    rw [ends_bind, ends_bind]
    split
    · simp
    · rfl

/-- A repetition that comes to an end consists of one chain of matches, of which there are no more
than characters left. Both repetitions match what the chain consumes, but `plus` fails where the
operand does. Nothing of it is given back: the rule matches after its repetition only where it does
so with length 0, and adds nothing. -/
theorem repetition_eq_chain
    (h : store.matchAt (.star rule) input position ≠ .endless ∨
      store.matchAt (.plus rule) input position ≠ .endless) :
    ∃ iterations stop,
      (store.Chain rule input position iterations stop ∧
        ∀ iterations' stop', store.Chain rule input position iterations' stop' →
          iterations' = iterations ∧ stop' = stop) ∧
      iterations.length ≤ input.size - position ∧
      ∃ o : Outcome, o = ⟨true, stop - position, iterations.flatMap Occurrence.value⟩ ∧
        (∃ log, store.matchAt (.star rule) input position = .ends o log) ∧
        (∃ first l log, store.matchAt rule input position = .ends first l ∧
          store.matchAt (.plus rule) input position =
            .ends (if first.matched then o else .noMatch) log) ∧
        ∃ last l second log, store.matchAt rule input stop = .ends last l ∧
          store.matchAt (.seq [.star rule, rule]) input position = .ends second log ∧
          (second.matched = true ↔ last.matched = true ∧ last.length = 0) ∧
          (second.matched = true → second = o) := by
  have hstar : store.matchAt (.star rule) input position ≠ .endless :=
    h.elim id fun hplus => mt matchAt_plus_eq_endless_iff.mpr hplus
  obtain ⟨iterations, stop, hchain⟩ := exists_chain hstar
  refine ⟨iterations, stop, ⟨hchain, fun _ _ => hchain.unique⟩, hchain.length_le_left, _, rfl, ?_⟩
  exact ⟨hchain.matchAt_star, hchain.matchAt_plus, hchain.matchAt_star_then⟩

/-- Two nests in a row, one within parentheses of its own. At the `x` after them the option matches
with length 0, so there it may follow its repetition. -/
theorem repetition_eq_chain_nested :
    let rule : Rule := .opt (.ref ⟨0, "nested"⟩)
    let input := #['(', '(', ')', ')', '(', ')', 'x']
    let o : Outcome := .success ['(', '(', ')', ')', '(', ')']
    nested.matchAt (.star rule) input 0 ≠ .endless ∧
      nested.Chain rule input 0 [⟨0, 4, ['(', '(', ')', ')']⟩, ⟨4, 6, ['(', ')']⟩] 6 ∧
      (∃ log, nested.matchAt (.star rule) input 0 = .ends o log) ∧
      (∃ log, nested.matchAt (.plus rule) input 0 = .ends o log) ∧
      ∃ log, nested.matchAt (.seq [.star rule, rule]) input 0 = .ends o log := by
  intro rule input o
  have hends : nested.matchAt (.star rule) input 0 ≠ .endless := by decide
  have hfirst : nested.matchAt rule input 0 = .ends (.success ['(', '(', ')', ')']) [] := by decide
  have hlast : nested.matchAt rule input 6 = .ends .empty [] := by decide
  have hchain : nested.Chain rule input 0 [⟨0, 4, ['(', '(', ')', ')']⟩, ⟨4, 6, ['(', ')']⟩] 6 :=
    .step ⟨by decide, [], hfirst⟩
      (.step ⟨by decide, [], by decide⟩ (.rest ⟨_, [], hlast, Or.inr rfl⟩))
  obtain ⟨iterations, stop, ⟨-, hunique⟩, -, o', ho', hstar, ⟨first, l, log, hmatch, hplus⟩,
    last, m, second, log', hrests, hthen, hiff, heq⟩ := repetition_eq_chain (Or.inl hends)
  obtain ⟨rfl, rfl⟩ := hunique _ _ hchain
  obtain rfl : o' = o := ho'
  obtain ⟨rfl, -⟩ := ends.inj (hfirst.symm.trans hmatch)
  obtain ⟨rfl, -⟩ := ends.inj (hlast.symm.trans hrests)
  obtain rfl := heq (hiff.mpr ⟨rfl, rfl⟩)
  exact ⟨hends, hchain, hstar, ⟨log, hplus⟩, log', hthen⟩

end Store

end Peg
