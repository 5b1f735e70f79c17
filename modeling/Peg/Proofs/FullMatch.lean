import Peg.Proofs.Lookahead
import Peg.Proofs.Scan

/-!
# Matching a whole text

Whether a rule matches a whole text can be asked in several ways: by the length of the match from
the start of the text, by its content, by a lookahead after the rule that no character is left, or
by a search whose first occurrence has to be the whole text. All of them give the same answer. None
of them asks for the longest match: a rule that could match the whole text in another way, but
settles for less, does not match it.

Each way tries the rule at no more positions than it needs. The search is the only one that goes on
after a failure at the start, so the rule has to come to an end as far as the search tries it.

A search that has found the whole text tries the rule once more at the end of the text, where it may
match nothing. In an empty text that has been the first occurrence already.

## Main definitions

* `Store.EndsUntilMatch` — a rule comes to an end wherever a first occurrence is searched for

## Main results

* `Search.exists_first` — such a search comes to an end, and what it finds is a match
* `Store.verdict?_seq_not_anyChar` — a rule and the end of the text after it
* `Store.matchesFully_iff` — the ways to ask agree
-/

namespace Peg

variable {ε : Type}

open Outcome Run Verdict

/-! ### Searches that end early -/

namespace Search

variable {search : Search ε} {cursor cursor' limit : Nat}

/-- A search among several positions ends if each attempt ends before which all others fail, and
what it finds is a match. -/
theorem exists_leftmost (tries start : Nat)
    (h : ∀ p, start ≤ p → p < start + tries →
      (∀ q, start ≤ q → q < p → search.FailsAt q) → search.attempt p ≠ .endless) :
    ∃ found log, search.leftmost tries start = .ends found log ∧
      ∀ m ∈ found, ∃ o l, search.attempt m.start = .ends o l ∧ o.matched = true ∧
        m = .ofOutcome m.start o := by
  induction tries generalizing start with
  | zero => exact ⟨none, [], rfl, nofun⟩
  | succ tries ih =>
    obtain ⟨o, l, ho⟩ := exists_eq_ends (h start (Nat.le_refl _) (by omega) (by omega))
    rw [leftmost, ho, ends_bind]
    cases hm : o.matched with
    | true =>
      refine ⟨some (.ofOutcome start o), l, by simp, ?_⟩
      rintro m ⟨⟩
      exact ⟨o, l, ho, hm, rfl⟩
    | false =>
      -- The attempt at `start` is one more that fails before those that are left.
      obtain ⟨found, log, hrest, hfound⟩ := ih (start + 1) fun p hp hlt hfails =>
        h p (by omega) (by omega) fun q hq hqp => by
          rcases Nat.eq_or_lt_of_le hq with rfl | hlater
          · exact ⟨o, l, ho, hm⟩
          · exact hfails q hlater hqp
      exact ⟨found, l ++ log, by simp [hrest], hfound⟩

theorem exists_first
    (h : ∀ p ≤ search.size, (∀ q < p, search.FailsAt q) → search.attempt p ≠ .endless) :
    ∃ found, search.first.value? = some found ∧
      ∀ m ∈ found, ∃ o l, search.attempt m.start = .ends o l ∧ o.matched = true ∧
        m = .ofOutcome m.start o := by
  obtain ⟨found, log, hleftmost, hfound⟩ := search.exists_leftmost (search.size + 1) 0
    fun p _ hlt hfails => h p (by omega) fun q hq => hfails q (Nat.zero_le _) hq
  refine ⟨found, ?_, hfound⟩
  cases found <;> simp [first, next, hleftmost]

theorem answersFrom_of_found {m : Occurrence} {log log' : List ε}
    {rest : List (Option Occurrence)} (hnext : search.next cursor = .ends (some m, cursor') log)
    (hrest : search.answersFrom limit cursor' = .ends rest log') :
    search.answersFrom (limit + 1) cursor = .ends (some m :: rest) (log ++ log') := by
  rw [answersFrom, hnext, ends_bind]
  simp [hrest]

theorem answersFrom_of_none {log : List ε} (hnext : search.next cursor = .ends (none, cursor') log)
    (hpassed : search.size < cursor') :
    search.answersFrom (limit + 1) cursor = .ends [none, none] log := by
  rw [answersFrom, hnext, ends_bind]
  simp [next_of_size_lt hpassed]

end Search

/-! ### Outcomes that take in the whole text -/

namespace Outcome.SpansAt

variable {text : List Char} {o : Outcome}

theorem content_eq_text_iff (h : SpansAt text.toArray 0 o) :
    o.content = text ↔ o.length = text.length := by
  constructor
  · intro hcontent
    rw [← h.length_content, hcontent]
  · intro hlength
    simpa [hlength] using h.content_eq

theorem ofOutcome_eq_whole_iff (h : SpansAt text.toArray 0 o) :
    Occurrence.ofOutcome 0 o = ⟨0, text.length, text⟩ ↔ o.length = text.length := by
  rw [Occurrence.ofOutcome, Occurrence.mk.injEq, h.content_eq_text_iff]
  simp

end Outcome.SpansAt

namespace Store

variable {store : Store} {rule : Rule} {text : List Char} {o : Outcome} {position : Nat}

/-! ### Rules that end where they are tried -/

/-- The rule comes to an end at each position of the text before which it matches nowhere. -/
def EndsUntilMatch (store : Store) (rule : Rule) (text : List Char) : Prop :=
  ∀ position ≤ text.length,
    (∀ earlier < position, ∀ length, ¬ store.Matches rule text earlier length) →
      store.matchAt rule text.toArray position ≠ .endless

theorem not_matches_of_failsAt (h : (store.search rule text).FailsAt position) (length : Nat) :
    ¬ store.Matches rule text position length := by
  obtain ⟨o, l, ho, hm⟩ := h
  rintro ⟨o', log, ho', hm', -⟩
  obtain ⟨rfl, -⟩ := ends.inj (ho.symm.trans (attempt_eq_ends ho'))
  rw [hm] at hm'
  cases hm'

/-- The search for the first occurrence comes to an end, and what it finds is a match. -/
theorem EndsUntilMatch.exists_first (h : store.EndsUntilMatch rule text) :
    ∃ found, (store.search rule text).first.value? = some found ∧
      ∀ m ∈ found, ∃ o l, (store.search rule text).attempt m.start = .ends o l ∧
        o.matched = true ∧ m = .ofOutcome m.start o := by
  apply Search.exists_first
  intro p hsize hfails
  rw [search_size] at hsize
  obtain ⟨o, l, ho⟩ := exists_eq_ends (h p hsize fun q hq => not_matches_of_failsAt (hfails q hq))
  rw [attempt_eq_ends ho]
  exact ends_ne_endless _ _

/-- A rule and the end of the text after it. -/
theorem verdict?_seq_not_anyChar (store : Store) (rule : Rule) (input : Array Char)
    (position : Nat) :
    store.verdict? (.seq [rule, .not .anyChar]) input position =
      (store.verdict? rule input position).map fun v =>
        if position + v.length < input.size then .fail else v := by
  rw [verdict?_seq_cons, verdict?_seq_singleton, Option.map_eq_bind]
  congr 1
  funext v
  cases v with
  | fail => simp
  | consumed n =>
    rw [andThen_consumed, verdict?_not, verdict?_anyChar, Function.comp_apply, length_consumed]
    split <;> rfl

/-! ### The match of a whole text -/

theorem matchesFully_of_matchAt {log : List Miss}
    (h : store.matchAt rule text.toArray 0 = .ends o log) :
    (store.matchesFully rule text).value? = some (o.matched && o.length == text.length) := by
  rw [matchesFully, matchText_of_matchAt h]
  simp

theorem first_of_matchAt {log : List Miss} (h : store.matchAt rule text.toArray 0 = .ends o log)
    (hm : o.matched = true) :
    (store.search rule text).first.value? = some (some (.ofOutcome 0 o)) := by
  obtain ⟨l, hnext⟩ := Search.next_of_matched (attempt_eq_ends h) hm (Nat.le_refl _)
    (Nat.zero_le _) nofun
  simp [Search.first, hnext]

/-- At the end of a text a search finds nothing, or the empty stretch. -/
theorem answersFrom_length (hends : store.matchAt rule text.toArray text.length ≠ .endless)
    (limit : Nat) :
    ∃ again log, (store.search rule text).answersFrom (limit + 2) text.length =
        .ends (again.map some ++ [none, none]) log ∧
      ((∃ length, store.Matches rule text text.length length) ∧
          again = [⟨text.length, text.length, []⟩] ∨
        (¬ ∃ length, store.Matches rule text text.length length) ∧ again = []) := by
  have hpassed : (store.search rule text).size < text.length + 1 := by
    rw [search_size]
    exact Nat.lt_succ_self _
  obtain ⟨o, l, hrun⟩ := exists_eq_ends hends
  have hattempt := attempt_eq_ends hrun
  cases hm : o.matched with
  | true =>
    -- Nothing is left, so nothing is consumed.
    have hmatch : store.Matches rule text text.length o.length := ⟨o, l, hrun, hm, rfl⟩
    have hlength : o.length = 0 := by
      have := hmatch.stop_le (Nat.le_refl _)
      omega
    have hspan := (store.matchAt_spansAt rule text.toArray text.length).of_ends hrun
    obtain rfl := hspan.eq_empty hm hlength
    obtain ⟨log, hnext⟩ := Search.next_of_matched hattempt hm (Nat.le_refl _)
      (by rw [search_size]) (by omega)
    have hrest : (store.search rule text).answersFrom (limit + 1) (text.length + 1) =
        .ends [none, none] [] :=
      Search.answersFrom_of_none (Search.next_of_size_lt hpassed) hpassed
    exact ⟨[⟨text.length, text.length, []⟩], _, Search.answersFrom_of_found hnext hrest,
      Or.inl ⟨⟨_, hmatch⟩, rfl⟩⟩
  | false =>
    have hfails : (store.search rule text).FailsAt text.length := ⟨o, _, hattempt, hm⟩
    have hnone : ∀ p, text.length ≤ p → p ≤ (store.search rule text).size →
        (store.search rule text).FailsAt p := by
      intro p hp hsize
      rw [search_size] at hsize
      rwa [Nat.le_antisymm hsize hp]
    obtain ⟨log, hnext⟩ := Search.next_of_fails hnone
    refine ⟨[], log, Search.answersFrom_of_none hnext (by omega), Or.inr ⟨?_, rfl⟩⟩
    rintro ⟨length, hmatch⟩
    exact not_matches_of_failsAt hfails length hmatch

/-- A search that finds the whole text finds nothing more, but the empty stretch at its end. -/
theorem answers_of_whole {log : List Miss}
    (h : store.matchAt rule text.toArray 0 = .ends o log) (hm : o.matched = true)
    (hlength : o.length = text.length)
    (hends : store.matchAt rule text.toArray text.length ≠ .endless) :
    ∃ again, ((store.search rule text).answers none).value? =
        some ((⟨0, text.length, text⟩ :: again).map some ++ [none, none]) ∧
      ((0 < text.length ∧ ∃ length, store.Matches rule text text.length length) ∧
          again = [⟨text.length, text.length, []⟩] ∨
        ¬ (0 < text.length ∧ ∃ length, store.Matches rule text text.length length) ∧
          again = []) := by
  have hspan := (store.matchAt_spansAt rule text.toArray 0).of_ends h
  obtain ⟨l, hnext⟩ := Search.next_of_matched (attempt_eq_ends h) hm (Nat.le_refl _)
    (Nat.zero_le _) nofun
  rw [hspan.ofOutcome_eq_whole_iff.mpr hlength, hlength, Nat.zero_add, Nat.zero_add] at hnext
  rw [Search.answers, Option.getD_none, search_size]
  by_cases hempty : text.length = 0
  · rw [if_pos hempty] at hnext
    have hpassed : (store.search rule text).size < 1 := by
      rw [search_size]
      omega
    have hrest : (store.search rule text).answersFrom (text.length + 1) 1 =
        .ends [none, none] [] :=
      Search.answersFrom_of_none (Search.next_of_size_lt hpassed) hpassed
    exact ⟨[], by rw [Search.answersFrom_of_found hnext hrest]; rfl, Or.inr ⟨by omega, rfl⟩⟩
  · rw [if_neg hempty] at hnext
    obtain ⟨limit, hlimit⟩ : ∃ limit, text.length + 1 = limit + 2 :=
      ⟨text.length - 1, by omega⟩
    obtain ⟨again, log', hrest, hagain⟩ := answersFrom_length hends limit
    rw [← hlimit] at hrest
    refine ⟨again, by rw [Search.answersFrom_of_found hnext hrest]; rfl, ?_⟩
    rwa [and_iff_right (Nat.pos_of_ne_zero hempty)]

/-- Let a rule come to an end as far as its first occurrence in a text is searched for. It is all
the same whether the rule matches the whole text, whether its match from the start has all of the
text as its content, whether the text is matched by the rule and the end of the text after it, and
whether the first occurrence is the whole text. In this case the search finds nothing more, except
that it finds the empty stretch at the end of a text that is not empty if the rule matches there. -/
theorem matchesFully_iff (h : store.EndsUntilMatch rule text) :
    ∃ (full : Bool) (o o' : Outcome) (found : Option Occurrence),
      (store.matchesFully rule text).value? = some full ∧
      (store.matchText rule text).value? = some o ∧
      (store.matchText (.seq [rule, .not .anyChar]) text).value? = some o' ∧
      (store.search rule text).first.value? = some found ∧
      (full = true ↔ o.matched = true ∧ o.content = text) ∧
      (full = true ↔ o'.matched = true) ∧
      (full = true ↔ found = some ⟨0, text.length, text⟩) ∧
      (full = true → store.matchAt rule text.toArray text.length ≠ .endless →
        ∃ again, ((store.search rule text).answers none).value? =
            some ((⟨0, text.length, text⟩ :: again).map some ++ [none, none]) ∧
          ((0 < text.length ∧ ∃ length, store.Matches rule text text.length length) ∧
              again = [⟨text.length, text.length, []⟩] ∨
            ¬ (0 < text.length ∧ ∃ length, store.Matches rule text text.length length) ∧
              again = [])) := by
  obtain ⟨o, log, hrun⟩ := exists_eq_ends (h 0 (Nat.zero_le _) nofun)
  obtain ⟨found, hfirst, hfound⟩ := h.exists_first
  have hspan := (store.matchAt_spansAt rule text.toArray 0).of_ends hrun
  have hfull : (o.matched && o.length == text.length) = true ↔
      o.matched = true ∧ o.length = text.length := by simp
  -- The lookahead fails behind a match that leaves characters over.
  have hv := store.verdict?_seq_not_anyChar rule text.toArray 0
  rw [verdict?_of_matchAt hrun, Option.map_some, hspan.length_verdict, Nat.zero_add,
    List.size_toArray] at hv
  obtain ⟨o', l, ho', hv'⟩ := exists_matchAt_of_verdict? hv
  refine ⟨_, o, o', found, matchesFully_of_matchAt hrun, ?_, ?_, hfirst, ?_, ?_, ?_, ?_⟩
  · rw [matchText_of_matchAt hrun, value?_ends]
  · rw [matchText_of_matchAt ho', value?_ends]
  · rw [hfull, hspan.content_eq_text_iff]
  · rw [hfull, ← o'.matched_verdict, hv', ← o.matched_verdict]
    have hle := hspan.reaches
    simp only [Reaches, List.size_toArray] at hle
    split
    · simp only [Verdict.matched, Bool.false_eq_true, iff_false]
      omega
    · exact and_iff_left (by omega)
  · rw [hfull]
    constructor
    · rintro ⟨hm, hlength⟩
      rw [first_of_matchAt hrun hm, hspan.ofOutcome_eq_whole_iff.mpr hlength] at hfirst
      exact (Option.some.inj hfirst).symm
    · -- What a search finds is a match, and this one begins where the text does.
      rintro rfl
      obtain ⟨o₁, l₁, ho₁, hm, hwhole⟩ := hfound _ rfl
      obtain ⟨rfl, -⟩ := ends.inj ((attempt_eq_ends hrun).symm.trans ho₁)
      exact ⟨hm, hspan.ofOutcome_eq_whole_iff.mp hwhole.symm⟩
  · intro hwhole hends
    obtain ⟨hm, hlength⟩ := hfull.mp hwhole
    exact answers_of_whole hrun hm hlength hends

/-- Nested parentheses, or nothing, take in all of `(())`, and nothing is found once more at its
end. -/
theorem matchesFully_iff_nested :
    let rule : Rule := .opt (.ref ⟨0, "nested"⟩)
    let text := ['(', '(', ')', ')']
    nested.EndsUntilMatch rule text ∧
      nested.matchAt rule text.toArray text.length ≠ .endless ∧
      (nested.matchesFully rule text).value? = some true ∧
      (∃ o, (nested.matchText (.seq [rule, .not .anyChar]) text).value? = some o ∧
        o.matched = true) ∧
      (nested.search rule text).first.value? = some (some ⟨0, 4, text⟩) ∧
      ((nested.search rule text).answers none).value? =
        some [some ⟨0, 4, text⟩, some ⟨4, 4, []⟩, none, none] := by
  intro rule text
  have hall : ∀ position ≤ text.length,
      nested.matchAt rule text.toArray position ≠ .endless := by decide
  have hends : nested.EndsUntilMatch rule text := fun position hsize _ => hall position hsize
  have hlast : nested.matchAt rule text.toArray text.length ≠ .endless := by decide
  have hmatchAt : nested.matchAt rule text.toArray 0 = .ends (.success text) [] := by decide
  have hrun : (nested.matchesFully rule text).value? = some true :=
    matchesFully_of_matchAt hmatchAt
  obtain ⟨full, o, o', found, hfull, -, hmatch, hfirst, -, hiff', hiff, hwhole⟩ :=
    matchesFully_iff hends
  obtain rfl : true = full := Option.some.inj (hrun.symm.trans hfull)
  obtain ⟨again, hanswers, ⟨-, rfl⟩ | ⟨hnot, -⟩⟩ := hwhole rfl hlast
  · rw [hiff.mp rfl] at hfirst
    exact ⟨hends, hlast, hrun, ⟨o', hmatch, hiff'.mp rfl⟩, hfirst, hanswers⟩
  · exact absurd ⟨by decide, 0, .empty, [], by decide, rfl, rfl⟩ hnot

end Store

end Peg
