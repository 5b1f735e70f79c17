import Peg.Proofs.Resolution
import Peg.Proofs.Verdicts

/-!
# Nested parentheses

The rule `nested <- ('(' nested? ')')` refers to itself between its parentheses. What it does where
the text goes on with a number of opening parentheses is known from what comes after them. If as
many closing ones follow, it matches all of these, and otherwise it fails.

The inner match is optional, so its failure is not yet one of the outer match. The outer match fails
nevertheless: where the inner one has failed, it has not consumed anything, and so the next
character is an opening parenthesis or the first one after all of them.

## Main definitions

* `Rule.nest` — a pair of parentheses, with the rule of a name between them or nothing
* `Closes` — what follows so many opening parentheses closes all of them
* `Session.nested` — the edit that defines `nested`

## Main results

* `Store.verdict?_nest` — what the rule does before any number of opening parentheses
* `Session.ask_nested` — what a match of a text gives
-/

namespace Peg

/-- `('(' target? ')')`, the rule whose name is `target`. -/
def Rule.nest (target : Ref) : Rule := .seq [.char '(', .opt (.ref target), .char ')']

/-- The text begins with `depth` closing parentheses. -/
def Closes (depth : Nat) (rest : List Char) : Prop := rest.take depth = List.replicate depth ')'

instance (depth : Nat) (rest : List Char) : Decidable (Closes depth rest) :=
  inferInstanceAs (Decidable (rest.take depth = List.replicate depth ')'))

theorem closes_zero (rest : List Char) : Closes 0 rest := rfl

/-- One more is closed if those within it are, and another closing parenthesis follows. -/
theorem closes_succ_iff {depth : Nat} {rest : List Char} :
    Closes (depth + 1) rest ↔ Closes depth rest ∧ rest[depth]? = some ')' := by
  rw [Closes, Closes, List.take_add_one, List.replicate_succ']
  cases hget : rest[depth]? with
  | none =>
    -- The text is too short for one more.
    have hlength := List.getElem?_eq_none_iff.mp hget
    simp only [Option.toList_none, List.append_nil, reduceCtorEq, and_false, iff_false]
    intro h
    have htake := congrArg List.length h
    simp only [List.length_take, List.length_append, List.length_replicate,
      List.length_singleton] at htake
    omega
  | some c => rw [Option.toList_some, List.append_singleton_inj, Option.some.injEq]

/-- The verdict on a match that begins with `depth` opening parentheses. -/
def nestVerdict (depth : Nat) (rest : List Char) : Verdict :=
  if 1 ≤ depth ∧ Closes depth rest then .consumed (2 * depth) else .fail

theorem matched_nestVerdict_iff {depth : Nat} {rest : List Char} :
    (nestVerdict depth rest).matched = true ↔ 1 ≤ depth ∧ Closes depth rest := by
  unfold nestVerdict
  split
  · exact iff_of_true rfl ‹_›
  · exact iff_of_false Bool.false_ne_true ‹_›

theorem eq_of_nestVerdict_eq_consumed {depth n : Nat} {rest : List Char}
    (h : nestVerdict depth rest = .consumed n) : n = 2 * depth := by
  unfold nestVerdict at h
  split at h
  · exact (Verdict.consumed.inj h).symm
  · cases h

theorem nestVerdict_succ (depth : Nat) (rest : List Char) :
    nestVerdict (depth + 1) rest =
      if Closes depth rest ∧ rest[depth]? = some ')' then .consumed (2 * (depth + 1))
      else .fail := by
  simp only [nestVerdict, closes_succ_iff, Nat.le_add_left, true_and]

theorem length_nestVerdict (depth : Nat) (rest : List Char) :
    (nestVerdict depth rest).length = if Closes depth rest then 2 * depth else 0 := by
  unfold nestVerdict
  cases depth with
  | zero => simp
  | succ depth =>
    simp only [Nat.le_add_left, true_and]
    split <;> rfl

namespace Store

variable {store : Store} {target : Ref} {input : Array Char} {position depth : Nat}
  {rest : List Char}

/-- The equation of the rule: the inner match begins one character on, and the closing parenthesis
is looked for where it ends. -/
theorem verdict?_nest_eq (hres : store.resolve target = .ok (.nest target)) {inner : Verdict}
    (hinner : store.verdict? (.ref target) input (position + 1) = some inner) :
    store.verdict? (.ref target) input position =
      some (if input[position]? = some '(' ∧ input[position + (1 + inner.length)]? = some ')' then
        .consumed (2 + inner.length) else .fail) := by
  rw [verdict?_ref_of_ok hres, Rule.nest, verdict?_seq_cons, verdict?_char, Option.bind_some]
  by_cases hopen : input[position]? = some '('
  · rw [if_pos hopen, Verdict.andThen_consumed, verdict?_seq_cons, verdict?_opt, hinner,
      Option.map_some, Option.bind_some, Verdict.andThen_consumed, verdict?_seq_singleton,
      verdict?_char, Nat.add_assoc]
    by_cases hclose : input[position + (1 + inner.length)]? = some ')'
    · rw [if_pos hclose, if_pos ⟨hopen, hclose⟩]
      simp only [Option.map_some, Verdict.after_consumed]
      congr 2
      omega
    · rw [if_neg hclose, if_neg fun h => hclose h.2]
      rfl
  · rw [if_neg hopen, if_neg fun h => hopen h.1]
    rfl

/-- What the rule does where a number of opening parentheses comes and then something else. By
induction on that number: the inner match has one less before it. -/
theorem verdict?_nest (hres : store.resolve target = .ok (.nest target))
    (hleft : remaining input position = some (List.replicate depth '(' ++ rest))
    (hrest : rest.head? ≠ some '(') :
    store.verdict? (.ref target) input position = some (nestVerdict depth rest) := by
  induction depth generalizing position with
  | zero =>
    -- Without an opening parenthesis there is no match.
    have hclosed : input[position]? ≠ some '(' := by rwa [getElem?_of_remaining hleft]
    rw [verdict?_ref_of_ok hres, Rule.nest, verdict?_seq_cons, verdict?_char, if_neg hclosed]
    rfl
  | succ depth ih =>
    have hsplit : remaining input position =
        some (['('] ++ (List.replicate depth '(' ++ rest)) := by
      rw [hleft, List.replicate_succ, List.cons_append, List.singleton_append]
    have hinner := ih (remaining_add_length hsplit)
    have hopen : input[position]? = some '(' := getElem?_of_remaining hsplit
    rw [verdict?_nest_eq hres hinner, length_nestVerdict, getElem?_add_of_remaining hleft,
      nestVerdict_succ]
    by_cases hcloses : Closes depth rest
    · -- The inner match ends after the parentheses that it closes.
      have hnext : (List.replicate (depth + 1) '(' ++ rest)[1 + 2 * depth]? = rest[depth]? := by
        rw [List.getElem?_append_right (by simp; omega), List.length_replicate]
        congr 1
        omega
      have hlength : 2 + 2 * depth = 2 * (depth + 1) := by omega
      simp only [hcloses, if_true, hopen, hnext, hlength, true_and]
    · -- The inner match has failed, and there is an opening parenthesis where it was tried.
      obtain ⟨depth, rfl⟩ : ∃ inner, depth = inner + 1 := by
        cases depth with
        | zero => exact absurd (closes_zero rest) hcloses
        | succ inner => exact ⟨inner, rfl⟩
      have hnext : (List.replicate (depth + 1 + 1) '(' ++ rest)[1 + 0]? = some '(' := by
        simp [List.replicate_succ]
      simp [hcloses, hnext]

end Store

/-! ### Matches of a text -/

/-- A text is its opening parentheses and what comes after them. -/
theorem opening_append_rest (text : List Char) :
    let depth := (text.takeWhile (· == '(')).length
    text = List.replicate depth '(' ++ text.drop depth ∧ (text.drop depth).head? ≠ some '(' := by
  intro depth
  have hopening : text.takeWhile (· == '(') = List.replicate depth '(' := by
    apply List.eq_replicate_of_mem
    intro c hc
    simpa using List.all_eq_true.mp List.all_takeWhile c hc
  have hdrop : text.drop depth = text.dropWhile (· == '(') := by
    calc text.drop depth
        = (text.takeWhile (· == '(') ++ text.dropWhile (· == '(')).drop depth := by
          rw [List.takeWhile_append_dropWhile]
      _ = text.dropWhile (· == '(') := List.drop_left
  rw [hdrop, ← hopening, List.takeWhile_append_dropWhile]
  refine ⟨rfl, ?_⟩
  intro hhead
  have hother := List.head?_dropWhile_not (· == '(') text
  rw [hhead] at hother
  exact absurd hother (by simp)

namespace Session

/-- The edit that defines `nested <- ('(' nested? ')')`. -/
def nested : List Edit :=
  [.define "main" "nested" (.seq [.char '(', .opt (.ref "main" "nested"), .char ')'])]

/-- A match of a text by `nested` depends on how many opening parentheses the text begins with. If
there is one, and after them come as many closing ones, then these are matched, and nothing more.
Otherwise the match fails: also if only the inner ones of the parentheses are closed. -/
theorem ask_nested (text : List Char) :
    let depth := (text.takeWhile (· == '(')).length
    ∃ o log, (initial.afterEdits nested).ask (.matchText "main" "nested" text) =
        .ends (.outcome o) log ∧
      (o.matched = true ↔
        1 ≤ depth ∧ (text.drop depth).take depth = List.replicate depth ')') ∧
      (o.matched = true → o.length = 2 * depth ∧ o.content = text.take (2 * depth)) ∧
      (o.matched = false → o = .noMatch) := by
  intro depth
  obtain ⟨hsplit, hrest⟩ := opening_append_rest text
  have hres : (initial.afterEdits nested).store.resolve ⟨0, "nested"⟩ =
    .ok (.nest ⟨0, "nested"⟩) := rfl
  have hleft : remaining text.toArray 0 = some (List.replicate depth '(' ++ text.drop depth) := by
    rw [remaining_of_le (Nat.zero_le _), ← hsplit]
    rfl
  obtain ⟨o, log, ho, hv⟩ := Store.exists_matchAt_of_verdict? (Store.verdict?_nest hres hleft hrest)
  have hspan := (Store.matchAt_spansAt _ _ _ _).of_ends ho
  have hlocate : (initial.afterEdits nested).locate "main" = some 0 := rfl
  have hask := ask_matchText_of_matchAt hlocate hres ho
  refine ⟨o, _, hask, ?_, ?_, hspan.eq_noMatch⟩
  · rw [← Outcome.matched_verdict, hv]
    exact matched_nestVerdict_iff
  · intro hm
    rw [Outcome.verdict_of_matched hm] at hv
    have hlength := eq_of_nestVerdict_eq_consumed hv.symm
    refine ⟨hlength, ?_⟩
    rw [hspan.content_eq, hlength]
    rfl

end Session

end Peg
