import Peg.Proofs.Depth
import Peg.Proofs.Equations

/-!
# The semantics of parsing expressions

What a rule does at a position of a text is described here by clauses, one or more for each kind of
rule, that say how a verdict is derived from those on its parts. A derivation also lists the
references that led nowhere, in the order in which they were tried. Verdicts have no content: what
was consumed is known from the text.

A match in a store and a derivation are two descriptions of the same thing. The match ends exactly
when there is a derivation, and it answers and logs what is derived. A match without end has none.

## Main definitions

* `Verdict` — failure, or how much was consumed
* `Derives` — the clauses
* `Outcome.verdict` — what an outcome says, without its content

## Main results

* `Rule.derives_of_matchWith` — a rule does what is derived if its references do
* `Store.derives_of_matchAt`, `Derives.exists_matchAt` — a match does what is derived, and whatever
  is derived is done
* `Store.derives_iff_matchAt` — both together, in terms of flag, length and log
-/

namespace Peg

/-- What the semantics says about an attempt. -/
inductive Verdict where
  /-- The rule does not match. -/
  | fail
  /-- The rule matches and consumes so many characters. -/
  | consumed (length : Nat)
  deriving DecidableEq

namespace Verdict

/-- Whether the rule matches. -/
def matched : Verdict → Bool
  | .fail => false
  | .consumed _ => true

/-- How much is consumed, which is nothing by a failure. -/
def length : Verdict → Nat
  | .fail => 0
  | .consumed n => n

/-- The verdict on an attempt together with a match before it that consumed `n` characters. -/
def after (n : Nat) : Verdict → Verdict
  | .fail => .fail
  | .consumed m => .consumed (n + m)

end Verdict

/-- `Derives store input rule position verdict log`: at `position` of `input` the rule has this
verdict, and on the way to it the references in `log` led nowhere, in this order. -/
inductive Derives (store : Store) (input : Array Char) :
    Rule → Nat → Verdict → List Miss → Prop
  | char {c : Char} {rest : List Char} {position : Nat}
      (h : remaining input position = some (c :: rest)) :
      Derives store input (.char c) position (.consumed 1) []
  | char_fail {c : Char} {position : Nat}
      (h : ∀ rest, remaining input position ≠ some (c :: rest)) :
      Derives store input (.char c) position .fail []
  | range {low high c : Char} {rest : List Char} {position : Nat}
      (h : remaining input position = some (c :: rest)) (hc : low ≤ c ∧ c ≤ high) :
      Derives store input (.range low high) position (.consumed 1) []
  | range_fail {low high : Char} {position : Nat}
      (h : ∀ c rest, remaining input position = some (c :: rest) → ¬ (low ≤ c ∧ c ≤ high)) :
      Derives store input (.range low high) position .fail []
  -- Past the end nothing remains, so there not even the empty string matches.
  | string {chars rest : List Char} {position : Nat}
      (h : remaining input position = some (chars ++ rest)) :
      Derives store input (.string chars) position (.consumed chars.length) []
  | string_fail {chars : List Char} {position : Nat}
      (h : ∀ rest, remaining input position ≠ some (chars ++ rest)) :
      Derives store input (.string chars) position .fail []
  | seq_nil {position : Nat} : Derives store input (.seq []) position (.consumed 0) []
  | seq_cons {part : Rule} {rest : List Rule} {position n : Nat} {v : Verdict} {l m : List Miss}
      (h : Derives store input part position (.consumed n) l)
      (h' : Derives store input (.seq rest) (position + n) v m) :
      Derives store input (.seq (part :: rest)) position (v.after n) (l ++ m)
  | seq_fail {part : Rule} {rest : List Rule} {position : Nat} {l : List Miss}
      (h : Derives store input part position .fail l) :
      Derives store input (.seq (part :: rest)) position .fail l
  | pair {left right : Rule} {position n : Nat} {v : Verdict} {l m : List Miss}
      (h : Derives store input left position (.consumed n) l)
      (h' : Derives store input right (position + n) v m) :
      Derives store input (.pair left right) position (v.after n) (l ++ m)
  | pair_fail {left right : Rule} {position : Nat} {l : List Miss}
      (h : Derives store input left position .fail l) :
      Derives store input (.pair left right) position .fail l
  | choice_nil {position : Nat} : Derives store input (.choice []) position .fail []
  | choice_head {alternative : Rule} {rest : List Rule} {position n : Nat} {l : List Miss}
      (h : Derives store input alternative position (.consumed n) l) :
      Derives store input (.choice (alternative :: rest)) position (.consumed n) l
  -- What an alternative logged before it failed stays in the log.
  | choice_tail {alternative : Rule} {rest : List Rule} {position : Nat} {v : Verdict}
      {l m : List Miss}
      (h : Derives store input alternative position .fail l)
      (h' : Derives store input (.choice rest) position v m) :
      Derives store input (.choice (alternative :: rest)) position v (l ++ m)
  | not {operand : Rule} {position : Nat} {l : List Miss}
      (h : Derives store input operand position .fail l) :
      Derives store input (.not operand) position (.consumed 0) l
  | not_fail {operand : Rule} {position n : Nat} {l : List Miss}
      (h : Derives store input operand position (.consumed n) l) :
      Derives store input (.not operand) position .fail l
  -- A failure ends a repetition, and so does a match that consumed nothing.
  | star_fail {operand : Rule} {position : Nat} {l : List Miss}
      (h : Derives store input operand position .fail l) :
      Derives store input (.star operand) position (.consumed 0) l
  | star_empty {operand : Rule} {position : Nat} {l : List Miss}
      (h : Derives store input operand position (.consumed 0) l) :
      Derives store input (.star operand) position (.consumed 0) l
  | star_more {operand : Rule} {position n m : Nat} {l l' : List Miss} (hn : n ≠ 0)
      (h : Derives store input operand position (.consumed n) l)
      (h' : Derives store input (.star operand) (position + n) (.consumed m) l') :
      Derives store input (.star operand) position (.consumed (n + m)) (l ++ l')
  -- `plus` makes the attempts of `star`, so the first match is not logged a second time.
  | plus {operand : Rule} {position n m : Nat} {l l' : List Miss}
      (h : Derives store input operand position (.consumed n) l)
      (h' : Derives store input (.star operand) position (.consumed m) l') :
      Derives store input (.plus operand) position (.consumed m) l'
  | plus_fail {operand : Rule} {position : Nat} {l : List Miss}
      (h : Derives store input operand position .fail l) :
      Derives store input (.plus operand) position .fail l
  | opt {operand : Rule} {position n : Nat} {l : List Miss}
      (h : Derives store input operand position (.consumed n) l) :
      Derives store input (.opt operand) position (.consumed n) l
  | opt_fail {operand : Rule} {position : Nat} {l : List Miss}
      (h : Derives store input operand position .fail l) :
      Derives store input (.opt operand) position (.consumed 0) l
  | ref {target : Ref} {rule : Rule} {position : Nat} {v : Verdict} {l : List Miss}
      (hres : store.resolve target = .ok rule) (h : Derives store input rule position v l) :
      Derives store input (.ref target) position v l
  | ref_miss {target : Ref} {miss : Miss} {position : Nat}
      (hres : store.resolve target = .error miss) :
      Derives store input (.ref target) position .fail [miss]

variable {ε : Type} {store : Store} {input : Array Char} {position : Nat}

/-! ### Verdicts and outcomes -/

namespace Outcome

/-- What an outcome says, without its content. -/
def verdict (o : Outcome) : Verdict := if o.matched then .consumed o.length else .fail

variable {o o' : Outcome}

@[simp] theorem verdict_empty : empty.verdict = .consumed 0 := rfl

theorem verdict_of_matched (h : o.matched = true) : o.verdict = .consumed o.length := if_pos h

theorem verdict_eq_fail_iff : o.verdict = .fail ↔ o.matched = false := by
  unfold verdict
  split <;> simp_all

theorem verdict_eq_consumed_iff {n : Nat} :
    o.verdict = .consumed n ↔ o.matched = true ∧ o.length = n := by
  unfold verdict
  split <;> simp_all

theorem verdict_andThen (o o' : Outcome) :
    (o.andThen o').verdict = o'.verdict.after o.length := by
  unfold andThen verdict
  split <;> rfl

/-- Flag and length of the outcome of an attempt are all that its verdict says. -/
theorem SpansAt.verdict_eq_iff {v : Verdict} (h : SpansAt input position o) :
    o.verdict = v ↔ o.matched = v.matched ∧ o.length = v.length := by
  cases v with
  | fail =>
    rw [verdict_eq_fail_iff]
    constructor
    · intro hm
      exact ⟨hm, by rw [h.eq_noMatch hm]; rfl⟩
    · exact fun hm => hm.1
  | consumed n => exact verdict_eq_consumed_iff

end Outcome

open Outcome Run

/-! ### Whatever a rule does is derived -/

namespace Rule

variable {call : Meaning Miss}

/-- By induction on what is left of the text: each match that consumed something leaves less. -/
theorem derives_star_of_matchWith (hspan : call.Spans input) {operand : Rule}
    (hoperand : ∀ {position o log}, operand.matchWith call input position = .ends o log →
      Derives store input operand position o.verdict log)
    {o : Outcome} {log : List Miss}
    (h : (Rule.star operand).matchWith call input position = .ends o log) :
    Derives store input (.star operand) position o.verdict log := by
  induction position using Reaches.induction input generalizing o log with
  | step position ih =>
    rw [matchWith_star hspan] at h
    obtain ⟨first, l, m, hfirst, hrest, rfl⟩ := bind_eq_ends_iff.mp h
    have hderived := hoperand hfirst
    have hfits := (operand.matchWith_spansAt hspan position).of_ends hfirst
    by_cases hlength : first.length = 0
    · -- The first attempt failed or consumed nothing. Its verdict tells which.
      simp only [hlength, if_true, pure_def, ends.injEq] at hrest
      obtain ⟨rfl, rfl⟩ := hrest
      rw [List.append_nil, verdict_empty]
      cases hm : first.matched with
      | false =>
        rw [verdict_eq_fail_iff.mpr hm] at hderived
        exact .star_fail hderived
      | true =>
        rw [verdict_eq_consumed_iff.mpr ⟨hm, hlength⟩] at hderived
        exact .star_empty hderived
    · simp only [hlength, if_false] at hrest
      obtain ⟨second, hsecond, rfl⟩ := map_eq_ends_iff.mp hrest
      have hm := hfits.matched_of_length_ne_zero hlength
      have hm' := (matchWith_star_matched call input operand _).of_ends hsecond
      have hmore := ih _ hfits.reaches (by omega) hsecond
      rw [verdict_of_matched hm] at hderived
      rw [verdict_of_matched hm'] at hmore
      exact .star_more hlength hderived hmore

/-- A rule does what is derived if its references do. -/
theorem derives_of_matchWith (hspan : call.Spans input)
    (hcall : ∀ {target position o log}, call target position = .ends o log →
      Derives store input (.ref target) position o.verdict log)
    (rule : Rule) {o : Outcome} {log : List Miss}
    (h : rule.matchWith call input position = .ends o log) :
    Derives store input rule position o.verdict log := by
  induction rule generalizing position o log with
  | char c =>
    simp only [matchWith, pure_def, ends.injEq] at h
    obtain ⟨rfl, rfl⟩ := h
    split
    · rename_i hc
      obtain ⟨rest, hrest⟩ := getElem?_eq_some_iff_remaining.mp hc
      exact .char hrest
    · rename_i hc
      apply Derives.char_fail
      intro rest hrest
      exact hc (getElem?_eq_some_iff_remaining.mpr ⟨rest, hrest⟩)
  | range low high =>
    simp only [matchWith, pure_def, ends.injEq] at h
    obtain ⟨rfl, rfl⟩ := h
    split
    · rename_i c hc
      obtain ⟨rest, hrest⟩ := getElem?_eq_some_iff_remaining.mp hc
      split
      · exact .range hrest ‹_›
      · rename_i hout
        apply Derives.range_fail
        intro c' rest' hrest' hin
        -- Only one character is left first, and it is out of the range.
        obtain ⟨rfl, -⟩ := List.cons.inj (Option.some.inj (hrest.symm.trans hrest'))
        exact hout hin
    · rename_i hnone
      apply Derives.range_fail
      intro c rest hrest
      rw [getElem?_eq_some_iff_remaining.mpr ⟨rest, hrest⟩] at hnone
      cases hnone
  | string chars =>
    simp only [matchWith, pure_def, ends.injEq] at h
    obtain ⟨rfl, rfl⟩ := h
    split
    · rename_i hstarts
      obtain ⟨rest, hrest⟩ := startsAt_iff_remaining.mp hstarts
      exact .string hrest
    · rename_i hstarts
      apply Derives.string_fail
      intro rest hrest
      exact hstarts (startsAt_iff_remaining.mpr ⟨rest, hrest⟩)
  | seq parts ih =>
    -- The parts are taken off one by one, and the others are a sequence further on.
    induction parts generalizing position o log with
    | nil =>
      rw [matchWith_seq_nil, pure_def, ends.injEq] at h
      obtain ⟨rfl, rfl⟩ := h
      exact .seq_nil
    | cons part rest ihrest =>
      obtain ⟨hpart, hrest⟩ := List.forall_mem_cons.mp ih
      rw [matchWith_seq_cons hspan] at h
      obtain ⟨first, hfirst, hm, rfl⟩ | ⟨first, second, l, m, hfirst, hm, hsecond, rfl, rfl⟩ :=
        followedBy_eq_ends h
      · have hderived := hpart hfirst
        rw [verdict_eq_fail_iff.mpr hm] at hderived
        exact .seq_fail hderived
      · have hderived := hpart hfirst
        rw [verdict_of_matched hm] at hderived
        rw [verdict_andThen]
        exact .seq_cons hderived (ihrest hrest hsecond)
  | pair left right ihl ihr =>
    rw [matchWith_pair] at h
    obtain ⟨first, hfirst, hm, rfl⟩ | ⟨first, second, l, m, hfirst, hm, hsecond, rfl, rfl⟩ :=
      followedBy_eq_ends h
    · have hderived := ihl hfirst
      rw [verdict_eq_fail_iff.mpr hm] at hderived
      exact .pair_fail hderived
    · have hderived := ihl hfirst
      rw [verdict_of_matched hm] at hderived
      rw [verdict_andThen]
      exact .pair hderived (ihr hsecond)
  | choice alternatives ih =>
    induction alternatives generalizing o log with
    | nil =>
      rw [matchWith_choice_nil, pure_def, ends.injEq] at h
      obtain ⟨rfl, rfl⟩ := h
      exact .choice_nil
    | cons alternative rest ihrest =>
      obtain ⟨halternative, hrest⟩ := List.forall_mem_cons.mp ih
      rw [matchWith_choice_cons] at h
      obtain ⟨first, l, m, hfirst, hsecond, rfl⟩ := bind_eq_ends_iff.mp h
      have hderived := halternative hfirst
      cases hm : first.matched with
      | false =>
        simp only [hm, Bool.false_eq_true, if_false] at hsecond
        rw [verdict_eq_fail_iff.mpr hm] at hderived
        exact .choice_tail hderived (ihrest hrest hsecond)
      | true =>
        simp only [hm, if_true, pure_def, ends.injEq] at hsecond
        obtain ⟨rfl, rfl⟩ := hsecond
        rw [verdict_of_matched hm] at hderived ⊢
        rw [List.append_nil]
        exact .choice_head hderived
  | not operand ih =>
    rw [matchWith] at h
    obtain ⟨first, l, m, hfirst, hrest, rfl⟩ := bind_eq_ends_iff.mp h
    have hderived := ih hfirst
    rw [pure_def, ends.injEq] at hrest
    obtain ⟨rfl, rfl⟩ := hrest
    rw [List.append_nil]
    cases hm : first.matched with
    | false =>
      rw [verdict_eq_fail_iff.mpr hm] at hderived
      exact .not hderived
    | true =>
      rw [verdict_of_matched hm] at hderived
      exact .not_fail hderived
  | star operand ih => exact derives_star_of_matchWith hspan ih h
  | plus operand ih =>
    rw [matchWith_plus hspan] at h
    obtain ⟨first, l, m, hfirst, hrest, rfl⟩ := bind_eq_ends_iff.mp h
    have hderived := ih hfirst
    by_cases hlength : first.length = 0
    · simp only [hlength, if_true, pure_def, ends.injEq] at hrest
      obtain ⟨rfl, rfl⟩ := hrest
      rw [List.append_nil]
      cases hm : first.matched with
      | false =>
        rw [verdict_eq_fail_iff.mpr hm] at hderived ⊢
        exact .plus_fail hderived
      | true =>
        rw [verdict_eq_consumed_iff.mpr ⟨hm, hlength⟩] at hderived ⊢
        exact .plus hderived (.star_empty hderived)
    · -- The operand and the repetition after it are what `star` does as well.
      have hstar : (Rule.star operand).matchWith call input position = .ends o (l ++ m) := by
        rw [matchWith_star hspan]
        simp only [hlength, if_false] at hrest
        exact bind_eq_ends_iff.mpr ⟨first, l, m, hfirst, by simpa only [hlength, if_false], rfl⟩
      have hfits := (operand.matchWith_spansAt hspan position).of_ends hfirst
      have hm := hfits.matched_of_length_ne_zero hlength
      have hm' := (matchWith_star_matched call input operand position).of_ends hstar
      have hrepeated := derives_star_of_matchWith hspan ih hstar
      rw [verdict_of_matched hm] at hderived
      rw [verdict_of_matched hm'] at hrepeated ⊢
      exact .plus hderived hrepeated
  | opt operand ih =>
    rw [matchWith] at h
    obtain ⟨first, l, m, hfirst, hrest, rfl⟩ := bind_eq_ends_iff.mp h
    have hderived := ih hfirst
    rw [pure_def, ends.injEq] at hrest
    obtain ⟨rfl, rfl⟩ := hrest
    rw [List.append_nil]
    cases hm : first.matched with
    | false =>
      rw [verdict_eq_fail_iff.mpr hm] at hderived
      exact .opt_fail hderived
    | true =>
      rw [if_pos rfl]
      rw [verdict_of_matched hm] at hderived ⊢
      exact .opt hderived
  | ref target =>
    rw [matchWith] at h
    exact hcall h

end Rule

namespace Store

/-- A reference does what is derived, at every depth to which references are followed. -/
theorem derives_of_meaning {depth : Nat} {target : Ref} {o : Outcome} {log : List Miss}
    (h : store.meaning input depth target position = .ends o log) :
    Derives store input (.ref target) position o.verdict log := by
  induction depth generalizing target position o log with
  | zero => cases h
  | succ depth ih =>
    cases hres : store.resolve target with
    | ok rule =>
      rw [meaning_succ_of_ok hres] at h
      have hderived := rule.derives_of_matchWith (store.meaning_spans input depth) ih h
      exact .ref hres hderived
    | error miss =>
      rw [meaning_succ_of_error hres, ends.injEq] at h
      obtain ⟨rfl, rfl⟩ := h
      exact .ref_miss hres

/-- A match does what is derived. -/
theorem derives_of_matchAt {rule : Rule} {o : Outcome} {log : List Miss}
    (h : store.matchAt rule input position = .ends o log) :
    Derives store input rule position o.verdict log :=
  rule.derives_of_matchWith (store.meaning_spans input _) derives_of_meaning h

end Store

/-! ### Whatever is derived is done -/

/-- Whatever is derived is done by the match. -/
theorem Derives.exists_matchAt {rule : Rule} {v : Verdict} {log : List Miss}
    (h : Derives store input rule position v log) :
    ∃ o, store.matchAt rule input position = .ends o log ∧ o.verdict = v := by
  induction h with
  | @char c rest position h =>
    have hc := getElem?_eq_some_iff_remaining.mpr ⟨rest, h⟩
    exact ⟨.success [c], by rw [Store.matchAt, Rule.matchWith, if_pos hc, pure_def], rfl⟩
  | char_fail h =>
    have hc := fun hc => (getElem?_eq_some_iff_remaining.mp hc).elim h
    exact ⟨.noMatch, by rw [Store.matchAt, Rule.matchWith, if_neg hc, pure_def], rfl⟩
  | @range low high c rest position h hc =>
    have hget := getElem?_eq_some_iff_remaining.mpr ⟨rest, h⟩
    refine ⟨.success [c], ?_, rfl⟩
    simp only [Store.matchAt, Rule.matchWith, hget, if_pos hc, pure_def]
  | @range_fail low high position h =>
    refine ⟨.noMatch, ?_, rfl⟩
    simp only [Store.matchAt, Rule.matchWith, pure_def]
    split
    · rename_i c hget
      obtain ⟨rest, hrest⟩ := getElem?_eq_some_iff_remaining.mp hget
      rw [if_neg (h c rest hrest)]
    · rfl
  | @string chars rest position h =>
    have hstarts := startsAt_iff_remaining.mpr ⟨rest, h⟩
    exact ⟨.success chars, by rw [Store.matchAt, Rule.matchWith, if_pos hstarts, pure_def], rfl⟩
  | string_fail h =>
    have hstarts := fun hstarts => (startsAt_iff_remaining.mp hstarts).elim h
    exact ⟨.noMatch, by rw [Store.matchAt, Rule.matchWith, if_neg hstarts, pure_def], rfl⟩
  | seq_nil => exact ⟨.empty, Store.matchAt_seq_nil _ _ _, rfl⟩
  | seq_cons _ _ ih ih' =>
    obtain ⟨first, hfirst, hv⟩ := ih
    obtain ⟨hm, rfl⟩ := verdict_eq_consumed_iff.mp hv
    obtain ⟨second, hsecond, rfl⟩ := ih'
    refine ⟨first.andThen second, ?_, verdict_andThen first second⟩
    rw [Store.matchAt_seq_cons, followedBy_of_matched hfirst hm hsecond]
  | seq_fail _ ih =>
    obtain ⟨first, hfirst, hv⟩ := ih
    refine ⟨.noMatch, ?_, rfl⟩
    rw [Store.matchAt_seq_cons, followedBy_of_fail hfirst (verdict_eq_fail_iff.mp hv)]
  | pair _ _ ih ih' =>
    obtain ⟨first, hfirst, hv⟩ := ih
    obtain ⟨hm, rfl⟩ := verdict_eq_consumed_iff.mp hv
    obtain ⟨second, hsecond, rfl⟩ := ih'
    refine ⟨first.andThen second, ?_, verdict_andThen first second⟩
    rw [Store.matchAt_pair, followedBy_of_matched hfirst hm hsecond]
  | pair_fail _ ih =>
    obtain ⟨first, hfirst, hv⟩ := ih
    refine ⟨.noMatch, ?_, rfl⟩
    rw [Store.matchAt_pair, followedBy_of_fail hfirst (verdict_eq_fail_iff.mp hv)]
  | choice_nil => exact ⟨.noMatch, Store.matchAt_choice_nil _ _ _, rfl⟩
  | choice_head _ ih =>
    obtain ⟨first, hfirst, hv⟩ := ih
    obtain ⟨hm, rfl⟩ := verdict_eq_consumed_iff.mp hv
    refine ⟨first, ?_, hv⟩
    rw [Store.matchAt_choice_cons, hfirst, ends_bind, if_pos hm]
    simp
  | choice_tail _ _ ih ih' =>
    obtain ⟨first, hfirst, hv⟩ := ih
    have hm := verdict_eq_fail_iff.mp hv
    obtain ⟨second, hsecond, rfl⟩ := ih'
    refine ⟨second, ?_, rfl⟩
    rw [Store.matchAt_choice_cons, hfirst, ends_bind, if_neg (by simp [hm]), hsecond, after_ends]
  | not _ ih =>
    obtain ⟨first, hfirst, hv⟩ := ih
    have hm := verdict_eq_fail_iff.mp hv
    refine ⟨.empty, ?_, rfl⟩
    rw [Store.matchAt_not, hfirst, ends_bind, hm]
    simp
  | not_fail _ ih =>
    obtain ⟨first, hfirst, hv⟩ := ih
    obtain ⟨hm, -⟩ := verdict_eq_consumed_iff.mp hv
    refine ⟨.noMatch, ?_, rfl⟩
    rw [Store.matchAt_not, hfirst, ends_bind, hm]
    simp
  | star_fail _ ih =>
    obtain ⟨first, hfirst, hv⟩ := ih
    -- A failure has length zero, so the repetition stops as it does after a match of nothing.
    have hspan := (store.matchAt_spansAt _ _ _).of_ends hfirst
    obtain rfl := hspan.eq_noMatch (verdict_eq_fail_iff.mp hv)
    refine ⟨.empty, ?_, rfl⟩
    rw [Store.matchAt_star, hfirst, ends_bind, if_pos length_noMatch]
    simp
  | star_empty _ ih =>
    obtain ⟨first, hfirst, hv⟩ := ih
    obtain ⟨-, hlength⟩ := verdict_eq_consumed_iff.mp hv
    refine ⟨.empty, ?_, rfl⟩
    rw [Store.matchAt_star, hfirst, ends_bind, if_pos hlength]
    simp
  | star_more hn _ _ ih ih' =>
    obtain ⟨first, hfirst, hv⟩ := ih
    obtain ⟨-, rfl⟩ := verdict_eq_consumed_iff.mp hv
    obtain ⟨second, hsecond, hv'⟩ := ih'
    obtain ⟨-, rfl⟩ := verdict_eq_consumed_iff.mp hv'
    refine ⟨first.append second, ?_, rfl⟩
    rw [Store.matchAt_star, hfirst, ends_bind, if_neg hn, hsecond, map_ends, after_ends]
  | plus _ _ ih ih' =>
    obtain ⟨first, hfirst, hv⟩ := ih
    obtain ⟨second, hsecond, hv'⟩ := ih'
    -- After the first match `plus` goes on as `star` does.
    rw [Store.matchAt_star, hfirst, ends_bind] at hsecond
    rw [Store.matchAt_plus, hfirst, ends_bind]
    by_cases hlength : first.length = 0
    · rw [if_pos hlength, pure_def, after_ends, List.append_nil, ends.injEq] at hsecond
      obtain ⟨rfl, rfl⟩ := hsecond
      obtain ⟨hm, rfl⟩ := verdict_eq_consumed_iff.mp hv
      obtain ⟨-, rfl⟩ := verdict_eq_consumed_iff.mp hv'
      exact ⟨first, by rw [if_pos hlength]; simp, by rw [hv, hlength]; rfl⟩
    · rw [if_neg hlength] at hsecond ⊢
      exact ⟨second, hsecond, hv'⟩
  | plus_fail _ ih =>
    obtain ⟨first, hfirst, hv⟩ := ih
    have hspan := (store.matchAt_spansAt _ _ _).of_ends hfirst
    obtain rfl := hspan.eq_noMatch (verdict_eq_fail_iff.mp hv)
    refine ⟨.noMatch, ?_, rfl⟩
    rw [Store.matchAt_plus, hfirst, ends_bind, if_pos length_noMatch]
    simp
  | opt _ ih =>
    obtain ⟨first, hfirst, hv⟩ := ih
    obtain ⟨hm, -⟩ := verdict_eq_consumed_iff.mp hv
    refine ⟨first, ?_, hv⟩
    rw [Store.matchAt_opt, hfirst, ends_bind, hm]
    simp
  | opt_fail _ ih =>
    obtain ⟨first, hfirst, hv⟩ := ih
    have hm := verdict_eq_fail_iff.mp hv
    refine ⟨.empty, ?_, rfl⟩
    rw [Store.matchAt_opt, hfirst, ends_bind, hm]
    simp
  | ref hres _ ih =>
    obtain ⟨o, ho, hv⟩ := ih
    exact ⟨o, by rw [Store.matchAt_ref_of_ok hres, ho], hv⟩
  | ref_miss hres => exact ⟨.noMatch, Store.matchAt_ref_of_error hres _ _, rfl⟩

/-- What is derived to be consumed lies within the text. -/
theorem Derives.reaches {rule : Rule} {n : Nat} {log : List Miss}
    (h : Derives store input rule position (.consumed n) log) :
    Reaches input position (position + n) := by
  obtain ⟨o, ho, hv⟩ := h.exists_matchAt
  obtain ⟨-, rfl⟩ := verdict_eq_consumed_iff.mp hv
  have hspan := (store.matchAt_spansAt rule input position).of_ends ho
  exact hspan.reaches

/-- At most one verdict and one log are derived. -/
theorem Derives.unique {rule : Rule} {v v' : Verdict} {log log' : List Miss}
    (h : Derives store input rule position v log)
    (h' : Derives store input rule position v' log') : v = v' ∧ log = log' := by
  obtain ⟨o, ho, rfl⟩ := h.exists_matchAt
  obtain ⟨o', ho', rfl⟩ := h'.exists_matchAt
  -- Both derivations describe the one match that there is.
  obtain ⟨rfl, rfl⟩ := ends.inj (ho.symm.trans ho')
  exact ⟨rfl, rfl⟩

/-- A match has no end exactly where nothing is derived. -/
theorem Store.matchAt_eq_endless_iff {rule : Rule} :
    store.matchAt rule input position = .endless ↔
      ∀ v log, ¬ Derives store input rule position v log := by
  constructor
  · intro h v log hderived
    obtain ⟨o, ho, -⟩ := hderived.exists_matchAt
    rw [h] at ho
    cases ho
  · intro h
    cases hrun : store.matchAt rule input position with
    | endless => rfl
    | ends o log => exact absurd (Store.derives_of_matchAt hrun) (h _ _)

/-- Matching and deriving are the same. A match ends with a given flag, length and log exactly when
they are derived; and it has no end exactly when nothing is. -/
theorem Store.derives_iff_matchAt (store : Store) (rule : Rule) (input : Array Char)
    (position : Nat) :
    (∀ v log, Derives store input rule position v log ↔
      ∃ o, store.matchAt rule input position = .ends o log ∧
        o.matched = v.matched ∧ o.length = v.length) ∧
      (store.matchAt rule input position = .endless ↔
        ∀ v log, ¬ Derives store input rule position v log) := by
  refine ⟨?_, Store.matchAt_eq_endless_iff⟩
  intro v log
  constructor
  · intro h
    obtain ⟨o, ho, hv⟩ := h.exists_matchAt
    have hspan := (store.matchAt_spansAt rule input position).of_ends ho
    exact ⟨o, ho, hspan.verdict_eq_iff.mp hv⟩
  · rintro ⟨o, ho, hv⟩
    have hspan := (store.matchAt_spansAt rule input position).of_ends ho
    rw [← hspan.verdict_eq_iff.mpr hv]
    exact Store.derives_of_matchAt ho

end Peg
