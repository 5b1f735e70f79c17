import Peg.Proofs.Derivation
import Peg.Proofs.Redefinition

/-!
# Equivalences shown by verdicts

Two rules are equivalent if they end together with the same outcome. As an outcome is the failure or
a stretch that begins where the rule was tried, the verdict on it says all there is to know. So it
is enough to compare verdicts, where lengths add up and contents need not be joined or cut again.

Without its log a match has a verdict or none. The verdicts on a sequence, a choice or a repetition
obey equations in those on the parts. A list of parts can be divided anywhere: a sequence is
its first parts and, if they matched, the sequence of the others where they end.

## Main definitions

* `Verdict.andThen`, `Verdict.orElse` — go on after a success / after a failure
* `Store.verdict?` — the verdict on a match, if it comes to an end
* `Store.Gives`, `Store.Succeeds`, `Store.AgreeAt` — what a rule, or two rules, do at a position
* `Store.NeverFails` — wherever a match of the rule ends, it is a success

## Main results

* `Store.equivalent_iff_verdict?` — rules are equivalent if they have the same verdicts
* `Store.verdict?_seq_cons`, `Store.verdict?_star`, ... — the equations for each kind of rule
* `Store.verdict?_seq_append`, `Store.verdict?_choice_append` — a list of parts is divided
-/

namespace Peg

variable {input : Array Char} {position : Nat}

/-! ### Verdicts one after another -/

namespace Verdict

/-- The outcome of an attempt at `position` on which this is the verdict. -/
def outcome (input : Array Char) (position : Nat) : Verdict → Outcome
  | .fail => .noMatch
  | .consumed n => .ofSpan input position (position + n)

/-- After a success go on where it ended, with so much consumed already. A failure is final. -/
def andThen (v : Verdict) (next : Nat → Option Verdict) : Option Verdict :=
  match v with
  | .fail => some .fail
  | .consumed n => (next n).map (.after n)

/-- After a failure try something else. A success is final. -/
def orElse (v : Verdict) (other : Option Verdict) : Option Verdict :=
  match v with
  | .fail => other
  | .consumed n => some (.consumed n)

@[simp] theorem length_fail : length .fail = 0 := rfl

@[simp] theorem length_consumed (n : Nat) : (consumed n).length = n := rfl

@[simp] theorem after_fail (n : Nat) : after n .fail = .fail := rfl

@[simp] theorem after_consumed (n m : Nat) : after n (.consumed m) = .consumed (n + m) := rfl

@[simp] theorem after_zero : after 0 = id := by
  funext v
  cases v with
  | fail => rfl
  | consumed n => rw [after_consumed, Nat.zero_add, id]

theorem after_after (n m : Nat) (v : Verdict) : after n (after m v) = after (n + m) v := by
  cases v with
  | fail => rfl
  | consumed k => rw [after_consumed, after_consumed, after_consumed, Nat.add_assoc]

@[simp] theorem andThen_fail (next : Nat → Option Verdict) : fail.andThen next = some .fail := rfl

@[simp] theorem andThen_consumed (n : Nat) (next : Nat → Option Verdict) :
    (consumed n).andThen next = (next n).map (.after n) := rfl

@[simp] theorem orElse_fail (other : Option Verdict) : fail.orElse other = other := rfl

@[simp] theorem orElse_consumed (n : Nat) (other : Option Verdict) :
    (consumed n).orElse other = some (.consumed n) := rfl

@[simp] theorem outcome_fail (input : Array Char) (position : Nat) :
    fail.outcome input position = .noMatch := rfl

@[simp] theorem outcome_consumed_zero (input : Array Char) (position : Nat) :
    (consumed 0).outcome input position = .empty :=
  Outcome.ofSpan_self input position

@[simp] theorem orElse_some_fail (v : Verdict) : v.orElse (some .fail) = some v := by
  cases v <;> rfl

/-- Of three attempts in a row the last two can be taken together. -/
theorem andThen_assoc (v : Verdict) (next next' : Nat → Option Verdict) :
    (v.andThen next).bind (·.andThen next') =
      v.andThen fun n => (next n).bind (·.andThen fun m => next' (n + m)) := by
  cases v with
  | fail => rfl
  | consumed n =>
    rw [andThen_consumed, andThen_consumed]
    cases next n with
    | none => rfl
    | some v' =>
      cases v' with
      | fail => rfl
      | consumed m =>
        simp only [Option.map_some, after_consumed, Option.bind_some, andThen_consumed,
          Option.map_map]
        congr 1
        funext v
        exact (after_after n m v).symm

/-- Of three alternatives the last two can be taken together. -/
theorem orElse_assoc (v : Verdict) (other other' : Option Verdict) :
    (v.orElse other).bind (·.orElse other') = v.orElse (other.bind (·.orElse other')) := by
  cases v <;> rfl

/-- Two alternatives after the same success are two alternatives that begin with it. -/
theorem andThen_orElse (v : Verdict) (next other : Nat → Option Verdict) :
    (v.andThen fun n => (next n).bind (·.orElse (other n))) =
      (v.andThen next).bind (·.orElse (v.andThen other)) := by
  cases v with
  | fail => rfl
  | consumed n =>
    rw [andThen_consumed, andThen_consumed, andThen_consumed]
    cases next n with
    | none => rfl
    | some w => cases w <;> rfl

end Verdict

open Outcome Run Verdict

@[simp] theorem Outcome.verdict_noMatch : noMatch.verdict = .fail := rfl

@[simp] theorem Outcome.matched_verdict (o : Outcome) : o.verdict.matched = o.matched := by
  cases hm : o.matched with
  | false => rw [verdict_eq_fail_iff.mpr hm]; rfl
  | true => rw [verdict_of_matched hm]; rfl

theorem Outcome.SpansAt.length_verdict {o : Outcome} (h : SpansAt input position o) :
    o.verdict.length = o.length := (h.verdict_eq_iff.mp rfl).2.symm

theorem Outcome.SpansAt.outcome_verdict {o : Outcome} (h : SpansAt input position o) :
    o.verdict.outcome input position = o := by
  cases hm : o.matched with
  | false => rw [verdict_eq_fail_iff.mpr hm, outcome, h.eq_noMatch hm]
  | true => rw [verdict_of_matched hm, outcome, ← h.eq_ofSpan hm]

namespace Store

variable {store : Store} {rule rule' : Rule}

/-! ### Equivalence is equality of verdicts -/

/-- The verdict on a match, or `none` if the match has no end. -/
def verdict? (store : Store) (rule : Rule) (input : Array Char) (position : Nat) :
    Option Verdict :=
  (store.matchAt rule input position).value?.map Outcome.verdict

/-- The verdict says what is matched. -/
theorem value?_matchAt (store : Store) (rule : Rule) (input : Array Char) (position : Nat) :
    (store.matchAt rule input position).value? =
      (store.verdict? rule input position).map (Verdict.outcome input position) := by
  rw [verdict?]
  cases h : store.matchAt rule input position with
  | endless => rfl
  | ends o log =>
    have hspan := (store.matchAt_spansAt rule input position).of_ends h
    rw [value?_ends, Option.map_some, Option.map_some, hspan.outcome_verdict]

theorem equivalent_iff_verdict? :
    store.Equivalent rule rule' ↔ store.verdict? rule = store.verdict? rule' := by
  constructor
  · intro h
    funext input position
    rw [verdict?, verdict?, h]
  · intro h input position
    rw [value?_matchAt, value?_matchAt, h]

theorem exists_matchAt_of_verdict? {v : Verdict}
    (h : store.verdict? rule input position = some v) :
    ∃ o log, store.matchAt rule input position = .ends o log ∧ o.verdict = v := by
  obtain ⟨o, ho, hv⟩ := Option.map_eq_some_iff.mp h
  obtain ⟨log, hlog⟩ := value?_eq_some_iff.mp ho
  exact ⟨o, log, hlog, hv⟩

theorem verdict?_of_matchAt {o : Outcome} {log : List Miss}
    (h : store.matchAt rule input position = .ends o log) :
    store.verdict? rule input position = some o.verdict := by
  rw [verdict?, h]
  rfl

/-- A match leads to the position that its verdict says. -/
theorem reaches_of_verdict? {v : Verdict} (h : store.verdict? rule input position = some v) :
    Reaches input position (position + v.length) := by
  obtain ⟨o, log, ho, rfl⟩ := exists_matchAt_of_verdict? h
  have hspan := (store.matchAt_spansAt rule input position).of_ends ho
  rw [hspan.length_verdict]
  exact hspan.reaches

/-! ### What rules do at a position -/

/-- A match of the rule at `position` comes to an end with the outcome `o`. -/
def Gives (store : Store) (rule : Rule) (input : Array Char) (position : Nat) (o : Outcome) :
    Prop :=
  ∃ log, store.matchAt rule input position = .ends o log

/-- The rule matches at `position`. -/
def Succeeds (store : Store) (rule : Rule) (input : Array Char) (position : Nat) : Prop :=
  ∃ o, store.Gives rule input position o ∧ o.matched = true

/-- Matches of two rules at `position` both come to an end, with the same outcome. -/
def AgreeAt (store : Store) (rule rule' : Rule) (input : Array Char) (position : Nat) : Prop :=
  ∃ o, store.Gives rule input position o ∧ store.Gives rule' input position o

theorem gives_of_verdict? {v : Verdict} (h : store.verdict? rule input position = some v) :
    store.Gives rule input position (v.outcome input position) := by
  rw [Gives, ← value?_eq_some_iff, value?_matchAt, h, Option.map_some]

theorem AgreeAt.of_verdict? {v : Verdict} (h : store.verdict? rule input position = some v)
    (h' : store.verdict? rule' input position = some v) : store.AgreeAt rule rule' input position :=
  ⟨_, gives_of_verdict? h, gives_of_verdict? h'⟩

theorem succeeds_iff_of_verdict? {v : Verdict}
    (h : store.verdict? rule input position = some v) :
    store.Succeeds rule input position ↔ v.matched = true := by
  obtain ⟨o, log, ho, rfl⟩ := exists_matchAt_of_verdict? h
  rw [matched_verdict]
  constructor
  · rintro ⟨o', ⟨log', ho'⟩, hm⟩
    obtain ⟨rfl, -⟩ := ends.inj (ho.symm.trans ho')
    exact hm
  · exact fun hm => ⟨o, ⟨log, ho⟩, hm⟩

/-! ### Equations -/

/-- If the match of a rule goes on from the match of a part by its outcome, then its verdict goes on
by the verdict on the part. -/
theorem verdict?_of_bind {part : Rule} {f : Outcome → Run Miss Outcome}
    {g : Verdict → Option Verdict}
    (h : store.matchAt rule input position = store.matchAt part input position >>= f)
    (hg : ∀ o, SpansAt input position o → (f o).value?.map Outcome.verdict = g o.verdict) :
    store.verdict? rule input position = (store.verdict? part input position).bind g := by
  rw [verdict?, verdict?, h, value?_bind]
  cases hpart : store.matchAt part input position with
  | endless => rfl
  | ends o log => exact hg o ((store.matchAt_spansAt part input position).of_ends hpart)

theorem verdict?_char (store : Store) (c : Char) (input : Array Char) (position : Nat) :
    store.verdict? (.char c) input position =
      some (if input[position]? = some c then .consumed 1 else .fail) := by
  rw [verdict?, matchAt, Rule.matchWith]
  split <;> rfl

theorem verdict?_range (store : Store) (low high : Char) (input : Array Char) (position : Nat) :
    store.verdict? (.range low high) input position =
      some (if input[position]?.any (fun c => low ≤ c ∧ c ≤ high) then .consumed 1 else .fail) := by
  rw [verdict?, matchAt, Rule.matchWith]
  cases input[position]? with
  | none => rfl
  | some c =>
    simp only [Option.any_some, decide_eq_true_eq]
    split <;> rfl

@[simp] theorem verdict?_seq_nil (store : Store) (input : Array Char) (position : Nat) :
    store.verdict? (.seq []) input position = some (.consumed 0) :=
  verdict?_of_matchAt (store.matchAt_seq_nil input position)

theorem verdict?_seq_cons (store : Store) (part : Rule) (rest : List Rule) (input : Array Char)
    (position : Nat) :
    store.verdict? (.seq (part :: rest)) input position =
      (store.verdict? part input position).bind fun v =>
        v.andThen fun n => store.verdict? (.seq rest) input (position + n) := by
  apply verdict?_of_bind (store.matchAt_seq_cons input position part rest)
  intro o _
  cases hm : o.matched with
  | false => simp [verdict_eq_fail_iff.mpr hm]
  | true =>
    rw [if_pos rfl, verdict_of_matched hm, andThen_consumed, verdict?, value?_map, Option.map_map,
      Option.map_map]
    congr 1
    funext second
    exact verdict_andThen o second

theorem verdict?_seq_singleton (store : Store) (part : Rule) :
    store.verdict? (.seq [part]) = store.verdict? part := by
  funext input position
  rw [verdict?, matchAt_seq_singleton, verdict?]

@[simp] theorem verdict?_choice_nil (store : Store) (input : Array Char) (position : Nat) :
    store.verdict? (.choice []) input position = some .fail :=
  verdict?_of_matchAt (store.matchAt_choice_nil input position)

theorem verdict?_choice_cons (store : Store) (alternative : Rule) (rest : List Rule)
    (input : Array Char) (position : Nat) :
    store.verdict? (.choice (alternative :: rest)) input position =
      (store.verdict? alternative input position).bind fun v =>
        v.orElse (store.verdict? (.choice rest) input position) := by
  apply verdict?_of_bind (store.matchAt_choice_cons input position alternative rest)
  intro o _
  cases hm : o.matched with
  | false => rw [verdict_eq_fail_iff.mpr hm, orElse_fail, verdict?]; rfl
  | true => rw [verdict_of_matched hm, orElse_consumed, if_pos rfl, ← verdict_of_matched hm]; rfl

theorem verdict?_choice_singleton (store : Store) (alternative : Rule) :
    store.verdict? (.choice [alternative]) = store.verdict? alternative := by
  funext input position
  rw [verdict?, matchAt_choice_singleton, verdict?]

/-- A repetition never fails, so what it consumes is added to what was consumed before. -/
theorem verdict_append_star (store : Store) (operand : Rule) (input : Array Char)
    (position : Nat) (o : Outcome) :
    (o.append <$> store.matchAt (.star operand) input position).value?.map Outcome.verdict =
      (store.verdict? (.star operand) input position).map (.after o.length) := by
  rw [verdict?, value?_map, Option.map_map, Option.map_map]
  cases hrun : store.matchAt (.star operand) input position with
  | endless => rfl
  | ends rest log =>
    have hm := (Rule.matchWith_star_matched _ input operand position).of_ends hrun
    simp only [value?_ends, Option.map_some, Function.comp_apply, verdict_of_matched hm]
    rfl

/-- `star` is its operand and, if that consumed something, `star` again after it. -/
theorem verdict?_star (store : Store) (operand : Rule) (input : Array Char) (position : Nat) :
    store.verdict? (.star operand) input position =
      (store.verdict? operand input position).bind fun v =>
        if v.length = 0 then some (.consumed 0)
        else
          (store.verdict? (.star operand) input (position + v.length)).map (.after v.length) := by
  apply verdict?_of_bind (store.matchAt_star input position operand)
  intro o ho
  rw [ho.length_verdict]
  split
  · rfl
  · exact verdict_append_star _ _ _ _ _

/-- `plus` is its operand and, if that consumed something, `star` after it. -/
theorem verdict?_plus (store : Store) (operand : Rule) (input : Array Char) (position : Nat) :
    store.verdict? (.plus operand) input position =
      (store.verdict? operand input position).bind fun v =>
        if v.length = 0 then some v
        else
          (store.verdict? (.star operand) input (position + v.length)).map (.after v.length) := by
  apply verdict?_of_bind (store.matchAt_plus input position operand)
  intro o ho
  rw [ho.length_verdict]
  split
  · rfl
  · exact verdict_append_star _ _ _ _ _

/-- `opt` consumes what its operand does, which is nothing if that fails. -/
theorem verdict?_opt (store : Store) (operand : Rule) (input : Array Char) (position : Nat) :
    store.verdict? (.opt operand) input position =
      (store.verdict? operand input position).map fun v => .consumed v.length := by
  rw [Option.map_eq_bind]
  apply verdict?_of_bind (store.matchAt_opt input position operand)
  intro o _
  cases hm : o.matched with
  | false => simp [verdict_eq_fail_iff.mpr hm]
  | true => simp [verdict_of_matched hm]

theorem verdict?_ref_of_ok {target : Ref} (h : store.resolve target = .ok rule) :
    store.verdict? (.ref target) = store.verdict? rule := by
  funext input position
  rw [verdict?, matchAt_ref_of_ok h, verdict?]

/-! ### Lists of parts are divided -/

theorem verdict?_seq_append (store : Store) (parts others : List Rule) (input : Array Char)
    (position : Nat) :
    store.verdict? (.seq (parts ++ others)) input position =
      (store.verdict? (.seq parts) input position).bind fun v =>
        v.andThen fun n => store.verdict? (.seq others) input (position + n) := by
  induction parts generalizing position with
  | nil =>
    rw [List.nil_append, verdict?_seq_nil, Option.bind_some, andThen_consumed, Nat.add_zero,
      after_zero, Option.map_id, id]
  | cons part rest ih =>
    rw [List.cons_append, verdict?_seq_cons, verdict?_seq_cons, Option.bind_assoc]
    congr 1
    funext v
    simp only [ih, andThen_assoc, Nat.add_assoc]

theorem verdict?_choice_append (store : Store) (alternatives others : List Rule)
    (input : Array Char) (position : Nat) :
    store.verdict? (.choice (alternatives ++ others)) input position =
      (store.verdict? (.choice alternatives) input position).bind fun v =>
        v.orElse (store.verdict? (.choice others) input position) := by
  induction alternatives with
  | nil => rw [List.nil_append, verdict?_choice_nil, Option.bind_some, orElse_fail]
  | cons alternative rest ih =>
    rw [List.cons_append, verdict?_choice_cons, verdict?_choice_cons, Option.bind_assoc, ih]
    simp only [orElse_assoc]

/-! ### Rules that never fail -/

/-- Wherever a match of the rule ends, it is a success. -/
def NeverFails (store : Store) (rule : Rule) : Prop :=
  ∀ input position, store.verdict? rule input position ≠ some .fail

theorem neverFails_seq_nil (store : Store) : store.NeverFails (.seq []) := by
  intro input position
  rw [verdict?_seq_nil]
  nofun

theorem neverFails_opt (store : Store) (operand : Rule) : store.NeverFails (.opt operand) := by
  intro input position h
  rw [verdict?_opt, Option.map_eq_some_iff] at h
  obtain ⟨v, -, hv⟩ := h
  cases hv

theorem neverFails_star (store : Store) (operand : Rule) : store.NeverFails (.star operand) := by
  intro input position h
  obtain ⟨o, log, ho, hv⟩ := exists_matchAt_of_verdict? h
  have hm := (Rule.matchWith_star_matched _ input operand position).of_ends ho
  rw [verdict_of_matched hm] at hv
  cases hv

end Store

end Peg
