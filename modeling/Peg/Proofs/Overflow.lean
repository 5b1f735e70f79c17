import Peg.Proofs.Answers
import Peg.Proofs.Depth
import Peg.Proofs.Equations
import Peg.Proofs.Machine
import Peg.Proofs.Scan

/-!
# Words are wide enough

A machine may start a match at any position that fits into a word, also far past the end of the
text. From there a match leads nowhere else, and a match within the text leads to positions of the
text. So as long as texts have less than `2 ^ 61` characters no sum is ever too large, no slice goes
beyond an end, and no stretch that was consumed is lost. Matching with words is then matching
without bounds, however words are added.

## Main definitions

* `Machine.exactly` — a computation without traps, whose values are written in words

## Main results

* `Machine.exactly_bind` — steps without traps, one after another
* `Machine.add_exact`, `Machine.span_exact` — a sum that fits, and a stretch that is not lost
* `Machine.matchWith_exact` — matching a rule, if its references are matched without traps
* `Machine.next_exact` — the next occurrence of a search
* `Machine.evaluation_exact` — matches and searches
-/

namespace Peg.Machine

open Peg.Outcome Peg.Run

variable {ε α β α' β' : Type} {arithmetic : Arithmetic} {input : Array Char} {p q : Nat}

/-! ### Computations without traps -/

/-- The run `x` as a computation without traps. Its values are what `f` makes of those of `x`. -/
def exactly (f : α → α') (x : Run ε α) : Eval ε α' := ExceptT.lift (f <$> x)

theorem run_exactly (f : α → α') (x : Run ε α) :
    (exactly f x).run = (fun a => .ok (f a)) <$> x := by
  rw [exactly, ExceptT.run_lift, Functor.map_map]

theorem exactly_pure (f : α → α') (a : α) : exactly f (pure a : Run ε α) = pure (f a) := rfl

theorem exactly_ends (f : α → α') (a : α) (log : List ε) :
    exactly f (.ends a log) = ExceptT.mk (.ends (.ok (f a)) log) := by
  apply ExceptT.ext
  rw [run_exactly, map_ends]
  rfl

/-- Steps without traps, one after another, are a computation without traps. -/
theorem exactly_bind {r : α → Prop} {f : α → α'} {g : β → β'} {x : Run ε α}
    {next : α' → Eval ε β'} {next' : α → Run ε β} (hx : x.Always r)
    (h : ∀ a, r a → next (f a) = exactly g (next' a)) :
    exactly f x >>= next = exactly g (x >>= next') := by
  cases x with
  | endless => rfl
  | ends a log =>
    apply ExceptT.ext
    calc (exactly f (.ends a log) >>= next).run
      _ = after log (next (f a)).run := by
          rw [ExceptT.run_bind, run_exactly, map_ends, ends_bind]
      _ = (exactly g (.ends a log >>= next')).run := by
          rw [h a hx, run_exactly, run_exactly, ends_bind]
          cases next' a <;> simp

/-- Two decisions that are made alike. -/
theorem ite_exact {c c' : Prop} [Decidable c] [Decidable c'] (hc : c ↔ c') {f : α → α'}
    {x y : Eval ε α'} {x' y' : Run ε α} (hx : c' → x = exactly f x')
    (hy : ¬ c' → y = exactly f y') : (if c then x else y) = exactly f (if c' then x' else y') := by
  by_cases h : c'
  · rw [if_pos (hc.mpr h), if_pos h, hx h]
  · rw [if_neg (mt hc.mp h), if_neg h, hy h]

theorem run_exactly_ne_trap (f : α → α') (x : Run ε α) (trap : Trap) (log : List ε) :
    (exactly f x).run ≠ .ends (.error trap) log := by
  rw [run_exactly]
  cases x <;> simp

/-- If the values can be read from the words, nothing is lost. -/
theorem map_exactly {f : α → α'} {g : α' → α} {x : Run ε α} (hx : x.Always fun a => g (f a) = a) :
    g <$> exactly f x = ExceptT.lift x := by
  apply ExceptT.ext
  rw [ExceptT.run_map, run_exactly, ExceptT.run_lift, Functor.map_map]
  cases x with
  | endless => rfl
  | ends a log =>
    have ha : g (f a) = a := hx
    simp [Except.map, ha]

/-! ### Words -/

theorem toNat_word (hp : p < 2 ^ 64) : (UInt64.ofNat p).toNat = p := UInt64.toNat_ofNat_of_lt' hp

theorem word_eq_zero_iff (hp : p < 2 ^ 64) : UInt64.ofNat p = 0 ↔ p = 0 := by
  rw [← UInt64.toNat_inj, toNat_word hp]
  rfl

/-- A sum that fits into a word is found, however words are added. -/
theorem add_exact (arithmetic : Arithmetic) (h : p + q < 2 ^ 64) :
    (add arithmetic (.ofNat p) (.ofNat q) : Eval ε UInt64) = pure (.ofNat (p + q)) := by
  have hfits : (UInt64.ofNat p).toNat + (UInt64.ofNat q).toNat < 2 ^ 64 := by
    rw [toNat_word (by omega), toNat_word (by omega)]
    exact h
  rw [add, arithmetic.add_of_lt hfits, UInt64.ofNat_add]
  rfl

/-- What is cut at the front of a text that begins with it. -/
theorem slice_append (chars rest : List Char) :
    (slice (chars ++ rest) 0 chars.length : Eval ε (List Char)) = pure chars := by
  simp [slice]

theorem slice_succ {c : Char} (h : input[p]? = some c) :
    (slice input.toList p (p + 1) : Eval ε (List Char)) = pure [c] := by
  obtain ⟨hlt, hc⟩ := Array.getElem?_eq_some_iff.mp h
  have hcut : (input.toList.take (p + 1)).drop p = [c] := by
    rw [List.drop_take, List.drop_eq_getElem_cons hlt, Array.getElem_toList, hc]
    simp
  rw [slice, if_pos ⟨Nat.le_succ p, hlt⟩, hcut]

/-! ### Outcomes -/

/-- An outcome, with its length in a word. -/
def Result.ofOutcome (o : Outcome) : Result := ⟨o.matched, .ofNat o.length, o.content⟩

theorem outcome_ofOutcome {o : Outcome} (h : o.length < 2 ^ 64) :
    (Result.ofOutcome o).outcome = o := by
  rw [Result.ofOutcome, Result.outcome, toNat_word h]

/-- The positions to which a match leads fit into words. -/
theorem lt_of_reaches (hsize : input.size < 2 ^ 61) (hp : p < 2 ^ 64) (h : Reaches input p q) :
    q < 2 ^ 64 := by
  unfold Reaches at h
  omega

/-- What a match consumes is no longer than the text. -/
theorem length_le_size {o : Outcome} (h : SpansAt input p o) : o.length ≤ input.size := by
  have hreaches := h.reaches
  unfold Reaches at hreaches
  omega

/-- Nor is what two matches in a row consume. -/
theorem length_add_length_le_size {o o' : Outcome} (h : SpansAt input p o)
    (h' : SpansAt input (p + o.length) o') : o.length + o'.length ≤ input.size := by
  have hreaches := h.reaches.trans h'.reaches
  unfold Reaches at hreaches
  omega

/-- A stretch to which a match led is cut from the text, or it is empty. -/
theorem span_exact (hsize : input.size < 2 ^ 61) (hp : p < 2 ^ 64) (h : Reaches input p q) :
    (span input (.ofNat p) (.ofNat q) : Eval ε Result) =
      pure (Result.ofOutcome (.ofSpan input p q)) := by
  have hq := lt_of_reaches hsize hp h
  have hle : UInt64.ofNat p ≤ UInt64.ofNat q ↔ p ≤ q := by
    rw [UInt64.le_iff_toNat_le, toNat_word hp, toNat_word hq]
  rw [span, toNat_word hp, toNat_word hq, Outcome.ofSpan]
  -- If the stretch is not within the text, then the match led nowhere else.
  by_cases hwithin : p ≤ q ∧ q ≤ input.size
  · rw [if_pos ⟨hle.mpr hwithin.1, hwithin.2⟩, if_pos hwithin]
    rfl
  · have heq : p = q := h.resolve_right hwithin
    rw [if_neg fun h => hwithin ⟨hle.mp h.1, h.2⟩, if_neg hwithin, if_pos (by rw [heq])]
    rfl

/-- At all positions that fit into a word an attempt is made without a trap. -/
def Exact (attempt : UInt64 → Eval ε Result) (attempt' : Nat → Run ε Outcome) : Prop :=
  ∀ p < 2 ^ 64, attempt (.ofNat p) = exactly Result.ofOutcome (attempt' p)

/-! ### Rules -/

/-- How far a repetition has come, with the numbers in words. -/
def Progress.ofRepetition (reached : Repetition) : Progress :=
  ⟨.ofNat reached.times, .ofNat reached.stop⟩

theorem repeatFrom_times_le (attempt : Nat → Run ε Outcome) (most : Nat) (sofar : Repetition) :
    (Peg.repeatFrom attempt most sofar).Always fun reached =>
      reached.times ≤ sofar.times + most := by
  induction most generalizing sofar with
  | zero => exact Nat.le_refl _
  | succ most ih =>
    refine (always_true _).bind fun o _ => ?_
    split
    · dsimp only
      split
      · exact Nat.add_le_add_left (Nat.succ_pos most) _
      · apply (ih _).mono
        intro reached hreached
        dsimp only at hreached
        omega
    · exact Nat.le_add_right _ _

section Repetition

variable {attempt : UInt64 → Eval ε Result} {attempt' : Nat → Run ε Outcome}

/-- A repetition makes fewer passes than there are positions left, so it comes to an end on its own,
and the passes can be counted. -/
theorem repeatFrom_exact (hsize : input.size < 2 ^ 61) (hattempt : Exact attempt attempt')
    (hspan : ∀ position, (attempt' position).Always (SpansAt input position)) (passes : Nat)
    (sofar : Repetition) (hstop : sofar.stop < 2 ^ 64) (htimes : sofar.times + passes < 2 ^ 64)
    (hpasses : input.size - sofar.stop < passes) :
    repeatFrom arithmetic attempt passes (.ofRepetition sofar) =
      exactly Progress.ofRepetition (Peg.repeatFrom attempt' passes sofar) := by
  induction passes generalizing sofar with
  | zero => omega
  | succ passes ih =>
    have hone : (1 : UInt64) = .ofNat 1 := rfl
    rw [repeatFrom, Peg.repeatFrom, Progress.ofRepetition, hattempt _ hstop, hone]
    refine exactly_bind (hspan sofar.stop) fun o ho => ?_
    have hnext := lt_of_reaches hsize hstop ho.reaches
    have hlength := length_le_size ho
    refine ite_exact Iff.rfl (fun _ => ?_) fun _ => rfl
    rw [add_exact arithmetic (by omega), pure_bind, Result.ofOutcome, add_exact arithmetic hnext,
      pure_bind]
    refine ite_exact (word_eq_zero_iff (by omega)) (fun _ => rfl) fun hconsumed => ?_
    -- Something was consumed, so less of the text is left.
    have hwithin := ho.reaches.le_size_of_lt (by omega)
    apply ih ⟨sofar.times + 1, sofar.stop + o.length⟩ hnext
    · dsimp only
      omega
    · dsimp only
      omega

theorem repetition_exact (hsize : input.size < 2 ^ 61) (hattempt : Exact attempt attempt')
    (hspan : ∀ position, (attempt' position).Always (SpansAt input position)) (hp : p < 2 ^ 64) :
    repeatFrom arithmetic attempt (input.size + 1) ⟨0, .ofNat p⟩ =
      exactly Progress.ofRepetition (repetition input attempt' p) := by
  have hsofar : (⟨0, .ofNat p⟩ : Progress) = .ofRepetition ⟨0, p⟩ := rfl
  have hmost : Peg.repeatFrom attempt' (input.size + 1) ⟨0, p⟩ = repetition input attempt' p := by
    apply repeatFrom_most hspan
    · dsimp only
      omega
    · dsimp only
      omega
  rw [hsofar, repeatFrom_exact hsize hattempt hspan, hmost]
  · exact hp
  · dsimp only
    omega
  · dsimp only
    omega

end Repetition

section Rules

variable {call : Calls ε} {call' : Meaning ε} {rules : List Rule}

theorem stopOfSeq_exact (hsize : input.size < 2 ^ 61) (hcall' : call'.Spans input)
    (h : ∀ rule ∈ rules, Exact (matchWith arithmetic call input rule)
      (rule.matchWith call' input)) (hp : p < 2 ^ 64) :
    stopOfSeq arithmetic call input rules (.ofNat p) =
      exactly (Option.map UInt64.ofNat) (Rule.stopOfSeq call' input rules p) := by
  induction rules generalizing p with
  | nil => rfl
  | cons part rest ih =>
    obtain ⟨hpart, hrest⟩ := List.forall_mem_cons.mp h
    rw [stopOfSeq, Rule.stopOfSeq, hpart p hp]
    refine exactly_bind (part.matchWith_spansAt hcall' p) fun o ho => ?_
    have hnext := lt_of_reaches hsize hp ho.reaches
    refine ite_exact Iff.rfl (fun _ => ?_) fun _ => rfl
    rw [Result.ofOutcome, add_exact arithmetic hnext, pure_bind]
    exact ih hrest hnext

theorem firstMatch_exact (hcall' : call'.Spans input)
    (h : ∀ rule ∈ rules, Exact (matchWith arithmetic call input rule)
      (rule.matchWith call' input)) :
    Exact (firstMatch arithmetic call input rules) (Rule.firstMatch call' input rules) := by
  intro p hp
  induction rules with
  | nil => rfl
  | cons alternative rest ih =>
    obtain ⟨halternative, hrest⟩ := List.forall_mem_cons.mp h
    rw [firstMatch, Rule.firstMatch, halternative p hp]
    refine exactly_bind (alternative.matchWith_spansAt hcall' p) fun o _ => ?_
    exact ite_exact Iff.rfl (fun _ => rfl) fun _ => ih hrest

/-- A string is compared with what is left of the text, or character by character. -/
theorem startsAt_iff_of_remaining {chars rest : List Char} (hrest : remaining input p = some rest) :
    startsAt input chars p = true ↔ chars <+: rest := by
  rw [startsAt_iff_remaining, hrest]
  simp only [Option.some.injEq]
  exact exists_congr fun tail => eq_comm

theorem string_exact (chars : List Char) :
    Exact (matchWith arithmetic call input (.string chars))
      ((Rule.string chars).matchWith call' input) := by
  intro p hp
  rw [matchWith, Rule.matchWith, toNat_word hp]
  cases hrest : remaining input p with
  | none =>
    have hfails : ¬ startsAt input chars p = true := by
      rw [startsAt_iff_remaining, hrest]
      simp
    rw [if_neg hfails]
    rfl
  | some rest =>
    dsimp only
    by_cases hprefix : chars <+: rest
    · rw [if_pos hprefix, if_pos ((startsAt_iff_of_remaining hrest).mpr hprefix)]
      obtain ⟨tail, rfl⟩ := hprefix
      rw [slice_append]
      rfl
    · rw [if_neg hprefix, if_neg (mt (startsAt_iff_of_remaining hrest).mp hprefix)]
      rfl

/-- A rule is matched without a trap if its references are. -/
theorem matchWith_exact (hsize : input.size < 2 ^ 61) (hcall' : call'.Spans input)
    (hcall : ∀ target, Exact (call target) (call' target)) (rule : Rule) :
    Exact (matchWith arithmetic call input rule) (rule.matchWith call' input) := by
  induction rule with
  | char c =>
    intro p hp
    rw [matchWith, Rule.matchWith, toNat_word hp]
    by_cases h : input[p]? = some c
    · rw [if_pos h, if_pos h, slice_succ h]
      rfl
    · rw [if_neg h, if_neg h]
      rfl
  | range low high =>
    intro p hp
    rw [matchWith, Rule.matchWith, toNat_word hp]
    cases h : input[p]? with
    | none => rfl
    | some c =>
      dsimp only
      by_cases hbetween : low ≤ c ∧ c ≤ high
      · rw [if_pos hbetween, if_pos hbetween, slice_succ h]
        rfl
      · rw [if_neg hbetween, if_neg hbetween]
        rfl
  | string chars => exact string_exact chars
  | seq parts ih =>
    intro p hp
    rw [matchWith, Rule.matchWith, stopOfSeq_exact hsize hcall' ih hp]
    have hreaches := Rule.stopOfSeq_reaches
      (fun (rule : Rule) (_ : rule ∈ parts) => rule.matchWith_spansAt hcall') p
    refine exactly_bind hreaches fun reached hreached => ?_
    cases reached with
    | none => rfl
    | some stop => exact span_exact hsize hp (hreached stop rfl)
  | pair left right ihl ihr =>
    intro p hp
    rw [matchWith, Rule.matchWith, ihl p hp]
    refine exactly_bind (left.matchWith_spansAt hcall' p) fun first hfirst => ?_
    have hmiddle := lt_of_reaches hsize hp hfirst.reaches
    refine ite_exact Iff.rfl (fun _ => ?_) fun _ => rfl
    rw [Result.ofOutcome, add_exact arithmetic hmiddle, pure_bind, ihr _ hmiddle]
    refine exactly_bind (right.matchWith_spansAt hcall' _) fun second hsecond => ?_
    have hlength := length_add_length_le_size hfirst hsecond
    by_cases hm : second.matched = true
    · have hm' : (Result.ofOutcome second).matched = true := hm
      rw [if_pos hm', if_pos hm, Result.ofOutcome, add_exact arithmetic (by omega), pure_bind]
      rfl
    · have hm' : ¬ (Result.ofOutcome second).matched = true := hm
      rw [if_neg hm', if_neg hm]
      rfl
  | choice alternatives ih =>
    intro p hp
    rw [matchWith, Rule.matchWith]
    exact firstMatch_exact hcall' ih p hp
  | not operand ih =>
    intro p hp
    rw [matchWith, Rule.matchWith, ih p hp]
    refine exactly_bind (operand.matchWith_spansAt hcall' p) fun o _ => ?_
    rw [exactly_pure, apply_ite Result.ofOutcome]
    rfl
  | star operand ih =>
    intro p hp
    have hspan := operand.matchWith_spansAt hcall'
    rw [matchWith, Rule.matchWith, repetition_exact hsize ih hspan hp]
    refine exactly_bind (repetition_reaches hspan p) fun reached hreached => ?_
    exact span_exact hsize hp hreached
  | plus operand ih =>
    intro p hp
    have hspan := operand.matchWith_spansAt hcall'
    rw [matchWith, Rule.matchWith, repetition_exact hsize ih hspan hp]
    -- The count must not come back to zero, so it has to be bounded as well.
    have htimes : (repetition input (fun p => operand.matchWith call' input p) p).Always
        fun reached => reached.times ≤ 0 + (input.size - p + 1) := repeatFrom_times_le _ _ _
    refine exactly_bind ((repetition_reaches hspan p).and htimes) fun reached hreached => ?_
    obtain ⟨hstop, htimes⟩ := hreached
    rw [apply_ite pure]
    refine ite_exact (word_eq_zero_iff (by omega)) (fun _ => rfl) fun _ => ?_
    exact span_exact hsize hp hstop
  | opt operand ih =>
    intro p hp
    rw [matchWith, Rule.matchWith, ih p hp]
    refine exactly_bind (operand.matchWith_spansAt hcall' p) fun o _ => ?_
    rw [exactly_pure, apply_ite Result.ofOutcome]
    rfl
  | ref target =>
    intro p hp
    rw [matchWith, Rule.matchWith, hcall target p hp]

end Rules

/-! ### Matches in a store -/

theorem meaning_exact (arithmetic : Arithmetic) (store : Store) (hsize : input.size < 2 ^ 61)
    (depth : Nat) (target : Ref) :
    Exact (meaning arithmetic store input depth target) (store.meaning input depth target) := by
  induction depth generalizing target with
  | zero =>
    intro p _
    rfl
  | succ depth ih =>
    intro p hp
    rw [meaning]
    cases hres : store.resolve target with
    | ok rule =>
      rw [Store.meaning_succ_of_ok hres]
      exact matchWith_exact hsize (store.meaning_spans input depth) ih rule p hp
    | error miss =>
      rw [Store.meaning_succ_of_error hres, exactly_ends]
      rfl

theorem matchAt_exact (arithmetic : Arithmetic) (store : Store) (rule : Rule)
    (hsize : input.size < 2 ^ 61) :
    Exact (matchAt arithmetic store rule input) (store.matchAt rule input) :=
  matchWith_exact hsize (store.meaning_spans input _) (meaning_exact arithmetic store hsize _) rule

/-! ### Searches -/

/-- An occurrence, with its positions in words. -/
def Found.ofOccurrence (m : Occurrence) : Found := ⟨.ofNat m.start, .ofNat m.stop, m.value⟩

/-- An answer of a search and the cursor after it, in words. -/
def foundAndCursor (answer : Option Occurrence × Nat) : Option Found × UInt64 :=
  (answer.1.map Found.ofOccurrence, .ofNat answer.2)

section Search

variable {attempt : UInt64 → Eval ε Result} {search : Search ε} {cursor : Nat}
  (hsize : input.size < 2 ^ 61) (hsearch : search.size = input.size)
  (hattempt : Exact attempt search.attempt)
  (hspan : ∀ position, (search.attempt position).Always (SpansAt input position))
include hsize hsearch hattempt hspan

/-- The next occurrence is found without a trap, and the loop comes to an end on its own. -/
theorem next_exact (passes : Nat) (hcursor : cursor ≤ search.size + 1)
    (hpasses : search.size + 1 - cursor < passes) :
    next arithmetic attempt search.size passes (.ofNat cursor) =
      exactly foundAndCursor (search.next cursor) := by
  induction passes generalizing cursor with
  | zero => omega
  | succ passes ih =>
    have hone : (1 : UInt64) = .ofNat 1 := rfl
    have hword : cursor < 2 ^ 64 := by omega
    rw [next, toNat_word hword]
    by_cases hwithin : cursor ≤ search.size
    · rw [if_pos hwithin, Search.next_eq hwithin, hattempt cursor hword, hone]
      refine exactly_bind (hspan cursor) fun o ho => ?_
      have hstop := lt_of_reaches hsize hword ho.reaches
      have hlength := length_le_size ho
      refine ite_exact Iff.rfl (fun _ => ?_) fun _ => ?_
      · rw [Result.ofOutcome, add_exact arithmetic hstop, pure_bind, exactly_pure, foundAndCursor,
          Occurrence.resume_ofOutcome]
        dsimp only
        by_cases hzero : o.length = 0
        · -- An empty match is stepped over, and it does not end past the end of the text.
          have hresume : cursor + o.length + 1 = cursor + 1 := by omega
          rw [if_pos ((word_eq_zero_iff (by omega)).mpr hzero), if_pos hzero,
            add_exact arithmetic (by omega), pure_bind, hresume]
          rfl
        · rw [if_neg (mt (word_eq_zero_iff (by omega)).mp hzero), if_neg hzero, pure_bind]
          rfl
      · rw [add_exact arithmetic (by omega), pure_bind]
        exact ih (by omega) (by omega)
    · rw [if_neg hwithin, Search.next_of_size_lt (by omega), exactly_ends]
      rfl

theorem calls_exact (count : Nat) (hcursor : cursor ≤ search.size + 1) :
    calls arithmetic attempt search.size count (.ofNat cursor) =
      exactly (List.map (Option.map Found.ofOccurrence)) (search.calls count cursor) := by
  induction count generalizing cursor with
  | zero => rfl
  | succ count ih =>
    rw [calls, Search.calls, next_exact hsize hsearch hattempt hspan _ hcursor (by omega)]
    refine exactly_bind (Search.next_within hsearch hspan hcursor) fun answer hanswer => ?_
    obtain ⟨found, cursor'⟩ := answer
    dsimp only [foundAndCursor]
    rw [ih hanswer.2]
    exact exactly_bind (always_true _) fun rest _ => rfl

end Search

theorem mapLog_exactly {δ : Type} (g : ε → δ) (f : α → α') (x : Run ε α) :
    (ExceptT.mk ((exactly f x).run.mapLog g) : Eval δ α') = exactly f (x.mapLog g) := by
  apply ExceptT.ext
  rw [run_exactly, run_exactly, ← mapLog_map]
  rfl

section Store

variable {store : Store} {rule : Rule} {text : List Char}

theorem search_spans (store : Store) (rule : Rule) (text : List Char) (position : Nat) :
    ((store.search rule text).attempt position).Always (SpansAt text.toArray position) :=
  always_mapLog.mpr (store.matchAt_spansAt rule text.toArray position)

theorem searchCalls_exact (arithmetic : Arithmetic) (store : Store) (rule : Rule)
    (hsize : text.length < 2 ^ 61) (count : Nat) :
    searchCalls arithmetic store rule text count =
      exactly (List.map (Option.map Found.ofOccurrence))
        ((store.search rule text).calls count 0) := by
  have hattempt : Exact
      (fun position =>
        ExceptT.mk ((matchAt arithmetic store rule text.toArray position).run.mapLog .miss))
      (store.search rule text).attempt := by
    intro p hp
    dsimp only
    rw [matchAt_exact arithmetic store rule hsize p hp, mapLog_exactly]
    rfl
  exact calls_exact hsize rfl hattempt (search_spans store rule text) count (Nat.zero_le _)

/-- All occurrences can be read from the words in which they are answered. -/
theorem always_occurrence_ofOccurrence (hsize : text.length < 2 ^ 61) (count : Nat) :
    ((store.search rule text).calls count 0).Always fun answers =>
      (answers.map (Option.map Found.ofOccurrence)).map (Option.map Found.occurrence) =
        answers := by
  have hwithin : ((store.search rule text).calls count 0).Always fun answers =>
      ∀ answer ∈ answers, ∀ m ∈ answer, m.start ≤ m.stop ∧ m.stop ≤ text.length :=
    Search.calls_within rfl (search_spans store rule text) count (Nat.zero_le _)
  -- Both ends are positions of the text, so they fit into words.
  have hread : ∀ m : Occurrence, m.start ≤ m.stop ∧ m.stop ≤ text.length →
      (Found.ofOccurrence m).occurrence = m := by
    rintro m ⟨hstart, hstop⟩
    rw [Found.ofOccurrence, Found.occurrence, toNat_word (by omega), toNat_word (by omega)]
  apply hwithin.mono
  intro answers hanswers
  calc (answers.map (Option.map Found.ofOccurrence)).map (Option.map Found.occurrence)
    _ = answers.map id := by
        rw [List.map_map]
        apply List.map_congr_left
        intro answer hanswer
        cases answer with
        | none => rfl
        | some m => exact congrArg some (hread m (hanswers _ hanswer m rfl))
    _ = answers := List.map_id answers

end Store

/-- Let a text have less than `2 ^ 61` characters. A match that begins at any position that fits
into a word, and a search however often it is continued, are carried out with words just as without
bounds, however words are added: with the same outcomes, the same log, and without end in the same
cases. No sum is too large, no slice goes beyond an end, and no stretch is lost. -/
theorem evaluation_exact (arithmetic : Arithmetic) (store : Store) (rule : Rule) :
    (∀ (input : Array Char) (position : UInt64), input.size < 2 ^ 61 →
      Result.outcome <$> matchAt arithmetic store rule input position =
        ExceptT.lift (store.matchAt rule input position.toNat) ∧
      ∀ trap log, (matchAt arithmetic store rule input position).run ≠
        .ends (.error trap) log) ∧
    ∀ (text : List Char) (count : Nat), text.length < 2 ^ 61 →
      List.map (Option.map Found.occurrence) <$> searchCalls arithmetic store rule text count =
        ExceptT.lift ((store.search rule text).calls count 0) ∧
      ∀ trap log, (searchCalls arithmetic store rule text count).run ≠
        .ends (.error trap) log := by
  constructor
  · intro input position hsize
    have hmatch : matchAt arithmetic store rule input position =
        exactly Result.ofOutcome (store.matchAt rule input position.toNat) := by
      rw [← matchAt_exact arithmetic store rule hsize _ position.toNat_lt, UInt64.ofNat_toNat]
    have hread : (store.matchAt rule input position.toNat).Always fun o =>
        (Result.ofOutcome o).outcome = o := by
      apply (store.matchAt_spansAt rule input position.toNat).mono
      intro o ho
      have hlength := length_le_size ho
      exact outcome_ofOutcome (by omega)
    rw [hmatch]
    exact ⟨map_exactly hread, run_exactly_ne_trap _ _⟩
  · intro text count hsize
    rw [searchCalls_exact arithmetic store rule hsize]
    exact ⟨map_exactly (always_occurrence_ofOccurrence hsize count), run_exactly_ne_trap _ _⟩

/-- At the last position that fits into a word nothing is left to read, and the first attempt of a
repetition that may be empty is counted. -/
theorem evaluation_exact_last :
    (2 : Nat) < 2 ^ 61 ∧
    Result.outcome <$> matchAt .trapping Store.nested
        (.plus (.pair (.opt (.ref ⟨0, "nested"⟩)) (.star (.char 'x')))) #['(', ')']
        18446744073709551615 =
      ExceptT.lift (.ends .empty []) := by
  have h := ((evaluation_exact .trapping Store.nested
    (.plus (.pair (.opt (.ref ⟨0, "nested"⟩)) (.star (.char 'x'))))).1 #['(', ')']
    18446744073709551615 (by decide)).1
  have hmatch : Store.nested.matchAt
      (.plus (.pair (.opt (.ref ⟨0, "nested"⟩)) (.star (.char 'x')))) #['(', ')']
      (18446744073709551615 : UInt64).toNat = .ends .empty [] := by decide
  rw [hmatch] at h
  exact ⟨by decide, h⟩

end Peg.Machine
