import Peg.Proofs.Lookahead
import Peg.Proofs.Scan

/-!
# Scanning with a rule

A text can be searched without a search: a rule that skips characters as long as another rule does
not match, and then matches it, goes to the first place where that rule matches. The skipping is a
repetition of a lookahead and one character. The search keeps a cursor and tries the rule itself at
one position after another. Both stop at the least position at which the rule matches.

The end of the text is a position for both. There the skipping stops because no character is left,
and the rule is tried once more, as it may match nothing.

## Main definitions

* `Rule.skip` — one character at which a rule does not match
* `Rule.scanUntil` — all characters up to the first match of a rule, and that match

## Main results

* `Store.verdict?_star_skip` — the skipping goes as far as the rule fails
* `Store.Scan.gives_scanUntil` — the rule ends where the first occurrence of a scan ends
* `Store.scanUntil_eq_first` — it matches where a search finds something
-/

namespace Peg

/-- One character at which the rule does not match. -/
def Rule.skip (rule : Rule) : Rule := .seq [.not rule, .anyChar]

/-- All characters up to the first position at which the rule matches, and the match there. -/
def Rule.scanUntil (rule : Rule) : Rule := .seq [.star rule.skip, rule]

variable {input : Array Char} {position stop : Nat}

open Outcome Run Verdict

namespace Store

variable {store : Store} {rule : Rule}

/-! ### Skipping -/

theorem verdict?_skip (store : Store) (rule : Rule) (input : Array Char) (position : Nat) :
    store.verdict? rule.skip input position =
      (store.verdict? rule input position).map fun v =>
        if v = .fail ∧ position < input.size then .consumed 1 else .fail := by
  rw [Rule.skip, verdict?_seq_not_cons, verdict?_seq_singleton, verdict?_anyChar]
  cases store.verdict? rule input position with
  | none => rfl
  | some v => cases v <;> simp [Verdict.matched]

section Skipping

variable {v : Verdict} (hle : position ≤ stop) (hsize : stop ≤ input.size)
  (hfails : ∀ p, position ≤ p → p < stop → store.verdict? rule input p = some .fail)
  (hv : store.verdict? rule input stop = some v) (hlast : v = .fail → stop = input.size)
include hle hsize hfails hv hlast

/-- The skipping goes on to the first position at which the rule does not fail, or to the end of the
text. By induction on the way that is left. -/
theorem verdict?_star_skip :
    store.verdict? (.star rule.skip) input position = some (.consumed (stop - position)) := by
  induction hleft : stop - position generalizing position with
  | zero =>
    obtain rfl : position = stop := by omega
    -- Either the rule matches here, or no character is left to skip.
    have hstays : ¬ (v = .fail ∧ position < input.size) := fun h => by
      have := hlast h.1
      omega
    rw [verdict?_star, verdict?_skip, hv, Option.map_some, if_neg hstays]
    rfl
  | succ left ih =>
    have hlater : store.verdict? (.star rule.skip) input (position + 1) = some (.consumed left) :=
      ih (by omega) (fun p hp => hfails p (by omega)) (by omega)
    have hskips : (.fail : Verdict) = .fail ∧ position < input.size := ⟨rfl, by omega⟩
    rw [verdict?_star, verdict?_skip, hfails position (Nat.le_refl _) (by omega), Option.map_some,
      if_pos hskips]
    simp [hlater, Nat.add_comm]

/-- After the skipping the rule is tried where it stopped. -/
theorem verdict?_scanUntil :
    store.verdict? rule.scanUntil input position = some (v.after (stop - position)) := by
  rw [Rule.scanUntil, verdict?_seq_cons, verdict?_seq_singleton,
    verdict?_star_skip hle hsize hfails hv hlast, Option.bind_some, andThen_consumed,
    Nat.add_sub_cancel' hle, hv, Option.map_some]

end Skipping

/-! ### The first occurrence of a scan -/

variable {text : List Char} {found : List Occurrence}

theorem Matches.verdict?_eq {length : Nat} (h : store.Matches rule text position length) :
    store.verdict? rule text.toArray position = some (.consumed length) := by
  obtain ⟨o, log, ho, hm, rfl⟩ := h
  rw [verdict?_of_matchAt ho, verdict_of_matched hm]

theorem verdict?_of_not_matches (h : store.matchAt rule text.toArray position ≠ .endless)
    (hnot : ∀ length, ¬ store.Matches rule text position length) :
    store.verdict? rule text.toArray position = some .fail := by
  obtain ⟨o, log, ho, hm⟩ := exists_matchAt_of_not_matches h hnot
  rw [verdict?_of_matchAt ho, verdict_eq_fail_iff.mpr hm]

/-- The rule goes from its position to the end of the first occurrence that a scan finds from there
on. If the scan finds nothing, the rule fails. -/
theorem Scan.gives_scanUntil
    (hends : ∀ position ≤ text.length, store.matchAt rule text.toArray position ≠ .endless)
    (hposition : position ≤ text.length) (h : store.Scan rule text position found) :
    store.Gives rule.scanUntil text.toArray position
      (found.head?.elim .noMatch fun m => .ofSpan text.toArray position m.stop) := by
  cases h with
  | done hnone =>
    have hfails : ∀ p, position ≤ p → p ≤ text.length →
        store.verdict? rule text.toArray p = some .fail := fun p hp hsize =>
      verdict?_of_not_matches (hends p hsize) fun length => hnone p length hp hsize
    have hv := verdict?_scanUntil hposition (by simp)
      (fun p hp hlt => hfails p hp (Nat.le_of_lt hlt)) (hfails _ hposition (Nat.le_refl _))
      (by simp)
    exact gives_of_verdict? hv
  | @found _ q length rest hcursor hsize hmatch hleast hrest =>
    have hv := verdict?_scanUntil hcursor (by simpa using hsize)
      (fun p hp hlt => verdict?_of_not_matches (hends p (by omega)) fun length' =>
        hleast p length' hp hlt) hmatch.verdict?_eq nofun
    have hstop : position + (q - position + length) = q + length := by omega
    have hgives := gives_of_verdict? hv
    rwa [after_consumed, Verdict.outcome, hstop] at hgives

/-! ### Searches -/

/-- Let a rule come to an end at each position of a text. From the start of the text, the rule that
skips to it matches if and only if a search finds something; it consumes the text up to the end of
the first occurrence. From any other position it matches if and only if the rule matches there or
further on, and it ends where the match at the least such position ends. -/
theorem scanUntil_eq_first
    (hends : ∀ position ≤ text.length, store.matchAt rule text.toArray position ≠ .endless) :
    (∃ found log o, (store.search rule text).first = .ends found log ∧
      store.Gives rule.scanUntil text.toArray 0 o ∧
      (o.matched = true ↔ found.isSome = true) ∧
      ∀ m ∈ found, o.length = m.stop ∧ o.content = text.take m.stop) ∧
    ∀ position ≤ text.length, ∃ o, store.Gives rule.scanUntil text.toArray position o ∧
      (o.matched = true ↔ ∃ q length, position ≤ q ∧ q ≤ text.length ∧
        store.Matches rule text q length) ∧
      ∀ q length, position ≤ q → q ≤ text.length → store.Matches rule text q length →
        (∀ earlier length', position ≤ earlier → earlier < q →
          ¬ store.Matches rule text earlier length') →
        position + o.length = q + length := by
  constructor
  · obtain ⟨found, hscan⟩ := store.exists_scan rule text 0
    obtain ⟨log, hfirst⟩ := hscan.first_eq hends
    refine ⟨_, log, _, hfirst, hscan.gives_scanUntil hends (Nat.zero_le _), ?_, ?_⟩
    · cases found.head? <;> simp
    · intro m hm
      have hstop : m.stop ≤ text.toArray.size := by
        simpa using (hscan.within m (List.mem_of_mem_head? hm)).2.1
      rw [Option.mem_def.mp hm, Option.elim_some, length_ofSpan (Nat.zero_le _) hstop,
        content_ofSpan (Nat.zero_le _) hstop]
      simp
  · intro position hposition
    obtain ⟨found, hscan⟩ := store.exists_scan rule text position
    refine ⟨_, hscan.gives_scanUntil hends hposition, ?_, ?_⟩
    · cases hscan with
      | done hnone =>
        refine ⟨nofun, ?_⟩
        rintro ⟨q, length, hq, hsize, hmatch⟩
        exact absurd hmatch (hnone q length hq hsize)
      | found hcursor hsize hmatch hleast hrest =>
        exact ⟨fun _ => ⟨_, _, hcursor, hsize, hmatch⟩, fun _ => matched_ofSpan _ _ _⟩
    · intro q length hq hsize hmatch hleast
      -- The least match begins a scan, and there is only one scan.
      obtain ⟨rest, hrest⟩ := store.exists_scan rule text (if length = 0 then q + 1 else q + length)
      obtain rfl := hscan.unique (.found hq hsize hmatch hleast hrest)
      have hstop : q + length ≤ text.toArray.size := by
        simpa using hmatch.stop_le hsize
      exact add_length_ofSpan (.of_le (by dsimp only; omega) hstop)

/-- In `a(b()c` the first parentheses that are closed are found behind others that are not. -/
theorem scanUntil_eq_first_nested :
    let rule : Rule := .ref ⟨0, "nested"⟩
    let text := ['a', '(', 'b', '(', ')', 'c']
    (∀ position ≤ text.length, nested.matchAt rule text.toArray position ≠ .endless) ∧
      (∃ log, (nested.search rule text).first = .ends (some ⟨3, 5, ['(', ')']⟩) log) ∧
      nested.Gives rule.scanUntil text.toArray 0 (.success ['a', '(', 'b', '(', ')']) ∧
      ∃ o, nested.Gives rule.scanUntil text.toArray 2 o ∧ o.matched = true ∧ 2 + o.length = 5 := by
  intro rule text
  have hends : ∀ position ≤ text.length,
      nested.matchAt rule text.toArray position ≠ .endless := by decide
  have hsearch : (nested.search rule text).first = .ends (some ⟨3, 5, ['(', ')']⟩) [] := by rfl
  have hmatch : nested.Matches rule text 3 2 := ⟨.success ['(', ')'], [], by decide, rfl, rfl⟩
  have hleast : ∀ earlier length', 2 ≤ earlier → earlier < 3 →
      ¬ nested.Matches rule text earlier length' := by
    intro earlier length' hle hlt hmatch'
    obtain rfl : earlier = 2 := by omega
    have hfails : nested.matchAt rule text.toArray 2 = .ends .noMatch [] := by decide
    obtain ⟨o, log, ho, hm, -⟩ := hmatch'
    obtain ⟨rfl, -⟩ := ends.inj (hfails.symm.trans ho)
    cases hm
  obtain ⟨⟨found, log, o, hfirst, hgives, hiff, hfound⟩, hat⟩ := scanUntil_eq_first hends
  obtain ⟨rfl, -⟩ := ends.inj (hsearch.symm.trans hfirst)
  obtain ⟨hlength, hcontent⟩ := hfound _ rfl
  obtain rfl : o = .success ['a', '(', 'b', '(', ')'] :=
    Outcome.ext (hiff.mpr rfl) hlength hcontent
  obtain ⟨o', hgives', hiff', hstop⟩ := hat 2 (by decide)
  exact ⟨hends, ⟨_, hsearch⟩, hgives, o', hgives', hiff'.mpr ⟨3, 2, by decide, by decide, hmatch⟩,
    hstop 3 2 (by decide) (by decide) hmatch hleast⟩

end Store

end Peg
