import Peg.Proofs.Verdicts

/-!
# The algebra of lookahead

A lookahead consumes nothing, so whatever follows it is tried at the same position. It matches where
its operand fails and fails where its operand matches, and as a test it can be negated again. So
lookaheads at one position obey the laws of logic: a choice is a disjunction of tests, a sequence is
a conjunction of them, and one is turned into the other by negation.

What a lookahead gives up is how much its operand consumed. A double negation is therefore not its
operand: it matches at the same positions, but it matches nothing. The operand comes back when it is
put after its own double negation.

Most of the laws hold as equations between verdicts, also where a match has no end, as both sides
try the same rules in the same order. A conjunction may only be turned round where both tests come
to an end.

## Main definitions

* `Verdict.negate` — the verdict on a lookahead
* `Rule.anyChar` — any one character; nothing is left to read where it fails
* `Store.EndsFrom` — a rule comes to an end from a position on

## Main results

* `Store.verdict?_not` — lookahead negates the verdict
* `Store.verdict?_not_choice` — no alternative matches if each of them fails
* `Store.verdict?_seq_not_not_self` — a double negation in front of its operand has no effect
* `Store.verdict?_choice_not_self` — a rule or its negation always matches
* `Store.lookahead_agreeAt` — the laws
-/

namespace Peg

variable {input : Array Char} {position : Nat}

namespace Verdict

/-- The verdict on a lookahead, by the verdict on its operand. -/
def negate : Verdict → Verdict
  | .fail => .consumed 0
  | .consumed _ => .fail

@[simp] theorem negate_fail : negate .fail = .consumed 0 := rfl

@[simp] theorem negate_consumed (n : Nat) : negate (.consumed n) = .fail := rfl

@[simp] theorem length_negate (v : Verdict) : v.negate.length = 0 := by
  cases v <;> rfl

/-- The third negation only undoes the second. -/
@[simp] theorem negate_negate_negate (v : Verdict) : v.negate.negate.negate = v.negate := by
  cases v <;> rfl

end Verdict

/-- No character comes after the last one that Unicode has. -/
theorem char_le_max (c : Char) : c ≤ Char.ofNat 0x10ffff := by
  have hvalid : c.toNat < 0x110000 := by
    rcases c.valid with h | ⟨-, h⟩
    · exact Nat.lt_trans h (by decide)
    · exact h
  exact Nat.le_of_lt_succ hvalid

/-- Any one character. -/
def Rule.anyChar : Rule := .range (Char.ofNat 0) (Char.ofNat 0x10ffff)

open Outcome Run Verdict

namespace Store

variable {store : Store} {rule a b : Rule} {rules : List Rule}

/-! ### Rules that come to an end -/

/-- At every position from `position` to the end of the text, or at `position` alone if that lies
past the end, a match of the rule comes to an end. -/
def EndsFrom (store : Store) (rule : Rule) (input : Array Char) (position : Nat) : Prop :=
  ∀ q ≤ max position input.size, position ≤ q → store.matchAt rule input q ≠ .endless

instance (store : Store) (rule : Rule) (input : Array Char) (position : Nat) :
    Decidable (store.EndsFrom rule input position) :=
  inferInstanceAs (Decidable
    (∀ q ≤ max position input.size, position ≤ q → store.matchAt rule input q ≠ .endless))

namespace EndsFrom

theorem exists_verdict? (h : store.EndsFrom rule input position) :
    ∃ v, store.verdict? rule input position = some v := by
  obtain ⟨o, log, ho⟩ := exists_eq_ends (h position (Nat.le_max_left _ _) (Nat.le_refl _))
  exact ⟨o.verdict, verdict?_of_matchAt ho⟩

theorem later {later : Nat} (h : store.EndsFrom rule input position)
    (hreaches : Reaches input position later) : store.EndsFrom rule input later := by
  intro q hq hlater
  unfold Reaches at hreaches
  exact h q (by omega) (by omega)

/-- A repetition ends where its operand does, by induction on what is left of the text. -/
theorem exists_verdict?_star (h : store.EndsFrom rule input position) :
    ∃ v, store.verdict? (.star rule) input position = some v := by
  induction position using Reaches.induction input with
  | step position ih =>
    obtain ⟨v, hv⟩ := h.exists_verdict?
    rw [verdict?_star, hv, Option.bind_some]
    split
    · exact ⟨_, rfl⟩
    · have hreaches := reaches_of_verdict? hv
      obtain ⟨rest, hrest⟩ := ih _ hreaches (by omega) (h.later hreaches)
      exact ⟨_, by rw [hrest, Option.map_some]⟩

end EndsFrom

theorem exists_verdict?_choice
    (h : ∀ rule ∈ rules, ∃ v, store.verdict? rule input position = some v) :
    ∃ v, store.verdict? (.choice rules) input position = some v := by
  induction rules with
  | nil => exact ⟨.fail, verdict?_choice_nil store input position⟩
  | cons rule rest ih =>
    obtain ⟨⟨v, hv⟩, hrest⟩ := List.forall_mem_cons.mp h
    rw [verdict?_choice_cons, hv, Option.bind_some]
    cases v with
    | fail => exact ih hrest
    | consumed n => exact ⟨.consumed n, rfl⟩

/-! ### Lookaheads -/

theorem verdict?_not (store : Store) (operand : Rule) (input : Array Char) (position : Nat) :
    store.verdict? (.not operand) input position =
      (store.verdict? operand input position).map Verdict.negate := by
  rw [Option.map_eq_bind]
  apply verdict?_of_bind (store.matchAt_not input position operand)
  intro o _
  cases hm : o.matched with
  | false => simp [verdict_eq_fail_iff.mpr hm]
  | true => simp [verdict_of_matched hm]

/-- What follows a lookahead is tried at the same position, if the operand fails there. -/
theorem verdict?_seq_not_cons (store : Store) (operand : Rule) (rest : List Rule)
    (input : Array Char) (position : Nat) :
    store.verdict? (.seq (.not operand :: rest)) input position =
      (store.verdict? operand input position).bind fun v =>
        if v.matched then some .fail else store.verdict? (.seq rest) input position := by
  rw [verdict?_seq_cons, verdict?_not, Option.bind_map]
  congr 1
  funext v
  cases v with
  | fail => simp [Verdict.matched]
  | consumed n => rfl

/-- A double negation asks whether its operand matches, and consumes nothing. -/
theorem verdict?_seq_not_not_cons (store : Store) (operand : Rule) (rest : List Rule)
    (input : Array Char) (position : Nat) :
    store.verdict? (.seq (.not (.not operand) :: rest)) input position =
      (store.verdict? operand input position).bind fun v =>
        if v.matched then store.verdict? (.seq rest) input position else some .fail := by
  rw [verdict?_seq_not_cons, verdict?_not, Option.bind_map]
  congr 1
  funext v
  cases v <;> rfl

theorem verdict?_not_not_not (store : Store) (operand : Rule) :
    store.verdict? (.not (.not (.not operand))) = store.verdict? (.not operand) := by
  funext input position
  simp only [verdict?_not, Option.map_map]
  congr 1
  funext v
  exact negate_negate_negate v

/-- No alternative matches if each of them fails. Either side stops at the first that matches. -/
theorem verdict?_not_choice (store : Store) (rules : List Rule) :
    store.verdict? (.not (.choice rules)) = store.verdict? (.seq (rules.map .not)) := by
  funext input position
  induction rules with
  | nil => rw [verdict?_not, verdict?_choice_nil, List.map_nil, verdict?_seq_nil]; rfl
  | cons rule rest ih =>
    rw [List.map_cons, verdict?_seq_not_cons, ← ih, verdict?_not, verdict?_choice_cons,
      Option.map_bind, verdict?_not]
    congr 1
    funext v
    cases v <;> rfl

/-- That neither of two rules fails is that both match. -/
theorem verdict?_not_choice_not (store : Store) (a b : Rule) (input : Array Char)
    (position : Nat) :
    store.verdict? (.not (.choice [.not a, .not b])) input position =
      (store.verdict? a input position).bind fun v =>
        if v.matched then (store.verdict? b input position).map fun w => w.negate.negate
        else some .fail := by
  rw [verdict?_not_choice, List.map_cons, List.map_cons, List.map_nil, verdict?_seq_not_not_cons,
    verdict?_seq_singleton, verdict?_not, verdict?_not, Option.map_map]
  rfl

theorem verdict?_not_not_seq (store : Store) (a b : Rule) (input : Array Char) (position : Nat) :
    store.verdict? (.not (.not (.seq [.not (.not a), b]))) input position =
      store.verdict? (.not (.choice [.not a, .not b])) input position := by
  rw [verdict?_not_choice_not, verdict?_not, verdict?_not, verdict?_seq_not_not_cons,
    verdict?_seq_singleton]
  cases store.verdict? a input position with
  | none => rfl
  | some v =>
    cases v with
    | fail => rfl
    | consumed n => exact Option.map_map ..

theorem verdict?_seq_not_not_self (store : Store) (rule : Rule) :
    store.verdict? (.seq [.not (.not rule), rule]) = store.verdict? rule := by
  funext input position
  rw [verdict?_seq_not_not_cons, verdict?_seq_singleton]
  cases store.verdict? rule input position with
  | none => rfl
  | some v => cases v <;> rfl

/-- No rule matches where it has just failed. -/
theorem verdict?_seq_not_self (store : Store) (rule : Rule) (input : Array Char)
    (position : Nat) :
    store.verdict? (.seq [.not rule, rule]) input position =
      (store.verdict? rule input position).map fun _ => .fail := by
  rw [verdict?_seq_not_cons, verdict?_seq_singleton]
  cases store.verdict? rule input position with
  | none => rfl
  | some v => cases v <;> rfl

/-- A rule or its negation: where the rule fails, the negation matches nothing. -/
theorem verdict?_choice_not_self (store : Store) (rule : Rule) :
    store.verdict? (.choice [rule, .not rule]) = store.verdict? (.opt rule) := by
  funext input position
  rw [verdict?_choice_cons, verdict?_choice_singleton, verdict?_not, verdict?_opt]
  cases store.verdict? rule input position with
  | none => rfl
  | some v => cases v <;> rfl

/-- Two tests may be made in either order, if both come to an end. -/
theorem verdict?_seq_not_comm {v w : Verdict} (ha : store.verdict? a input position = some v)
    (hb : store.verdict? b input position = some w) :
    store.verdict? (.seq [.not a, .not b]) input position =
      store.verdict? (.seq [.not b, .not a]) input position := by
  rw [verdict?_seq_not_cons store a [.not b], verdict?_seq_not_cons store b [.not a],
    verdict?_seq_singleton, verdict?_seq_singleton, verdict?_not, verdict?_not, ha, hb]
  cases v <;> cases w <;> rfl

/-- A rule that never fails leaves nothing to its negation. -/
theorem NeverFails.verdict?_not (h : store.NeverFails rule) (input : Array Char)
    (position : Nat) :
    store.verdict? (.not rule) input position =
      (store.verdict? rule input position).map fun _ => .fail := by
  rw [Store.verdict?_not]
  cases hv : store.verdict? rule input position with
  | none => rfl
  | some v =>
    cases v with
    | fail => exact absurd hv (h input position)
    | consumed n => rfl

/-- A repetition of a lookahead is over with the first attempt. -/
theorem verdict?_star_not (store : Store) (operand : Rule) (input : Array Char)
    (position : Nat) :
    store.verdict? (.star (.not operand)) input position =
      (store.verdict? operand input position).map fun _ => .consumed 0 := by
  rw [verdict?_star, verdict?_not, Option.bind_map]
  cases store.verdict? operand input position with
  | none => rfl
  | some v => rw [Option.bind_some, Function.comp_apply, if_pos (length_negate v), Option.map_some]

/-! ### Any character -/

/-- Any character matches, unless nothing is left to read. -/
theorem verdict?_anyChar (store : Store) (input : Array Char) (position : Nat) :
    store.verdict? .anyChar input position =
      some (if position < input.size then .consumed 1 else .fail) := by
  by_cases hlt : position < input.size
  · have hrun : store.matchAt .anyChar input position = pure (.success [input[position]]) := by
      unfold matchAt Rule.anyChar Rule.matchWith
      rw [Array.getElem?_eq_getElem hlt]
      exact congrArg pure (if_pos ⟨Nat.zero_le _, char_le_max _⟩)
    rw [verdict?, hrun, if_pos hlt]
    rfl
  · have hrun : store.matchAt .anyChar input position = pure .noMatch := by
      unfold matchAt Rule.anyChar Rule.matchWith
      rw [Array.getElem?_eq_none (Nat.le_of_not_lt hlt)]
    rw [verdict?, hrun, if_neg hlt]
    rfl

/-! ### The laws -/

/-- Where the rules come to an end, lookaheads obey these laws, whatever the rules match. A
lookahead consumes nothing, and two of them ask whether the operand matches; a third undoes the
second. The negation of a choice is the sequence of the negations of its alternatives, and the
negation of a choice between two negations is a test for both rules. Negations in a sequence change
places. A rule does not match after its own negation, and matches as ever after its double negation;
the rule or its negation always matches. What never fails is never negated, and to repeat a
lookahead is to match nothing. -/
theorem lookahead_agreeAt {store : Store} {a b rule : Rule} {rules : List Rule}
    {input : Array Char} {position : Nat} (ha : store.EndsFrom a input position)
    (hb : store.EndsFrom b input position) (hrule : store.EndsFrom rule input position)
    (hrules : ∀ alternative ∈ rules, store.EndsFrom alternative input position) :
    (∃ o, store.Gives (.not rule) input position o ∧ o.length = 0) ∧
    (store.Succeeds rule input position ∧ store.Gives (.not (.not rule)) input position .empty ∨
      ¬ store.Succeeds rule input position ∧
        store.Gives (.not (.not rule)) input position .noMatch) ∧
    store.AgreeAt (.not (.not (.not rule))) (.not rule) input position ∧
    store.AgreeAt (.not (.choice rules)) (.seq (rules.map .not)) input position ∧
    (store.AgreeAt (.not (.choice [.not a, .not b]))
        (.not (.not (.seq [.not (.not a), b]))) input position ∧
      (store.Succeeds (.not (.choice [.not a, .not b])) input position ↔
        store.Succeeds a input position ∧ store.Succeeds b input position)) ∧
    store.AgreeAt (.seq [.not a, .not b]) (.seq [.not b, .not a]) input position ∧
    (store.Gives (.seq [.not rule, rule]) input position .noMatch ∧
      store.AgreeAt (.seq [.not (.not rule), rule]) rule input position) ∧
    store.Succeeds (.choice [rule, .not rule]) input position ∧
    (store.Gives (.not (.star rule)) input position .noMatch ∧
      store.Gives (.not (.opt rule)) input position .noMatch) ∧
    store.Gives (.star (.not rule)) input position .empty := by
  obtain ⟨v, hv⟩ := hrule.exists_verdict?
  obtain ⟨va, hva⟩ := ha.exists_verdict?
  obtain ⟨vb, hvb⟩ := hb.exists_verdict?
  have hnot : store.verdict? (.not rule) input position = some v.negate := by
    rw [verdict?_not, hv, Option.map_some]
  have hnotnot : store.verdict? (.not (.not rule)) input position = some v.negate.negate := by
    rw [verdict?_not, hnot, Option.map_some]
  -- Either form of the conjunction has this verdict.
  have hboth : store.verdict? (.not (.choice [.not a, .not b])) input position =
      some (if va.matched then vb.negate.negate else .fail) := by
    rw [verdict?_not_choice_not, hva, Option.bind_some, hvb, Option.map_some, apply_ite some]
  refine ⟨?_, ?_, ?_, ?_, ⟨?_, ?_⟩, ?_, ⟨?_, ?_⟩, ?_, ⟨?_, ?_⟩, ?_⟩
  · refine ⟨_, gives_of_verdict? hnot, ?_⟩
    cases v <;> simp
  · rw [succeeds_iff_of_verdict? hv]
    have hgives := gives_of_verdict? hnotnot
    cases v with
    | fail => exact Or.inr ⟨Bool.false_ne_true, hgives⟩
    | consumed n => exact Or.inl ⟨rfl, by simpa using hgives⟩
  · exact .of_verdict? (by rw [verdict?_not_not_not, hnot]) hnot
  · obtain ⟨w, hw⟩ := exists_verdict?_choice fun alternative h =>
      (hrules alternative h).exists_verdict?
    have hchoice : store.verdict? (.not (.choice rules)) input position = some w.negate := by
      rw [verdict?_not, hw, Option.map_some]
    exact .of_verdict? hchoice (by rw [← verdict?_not_choice, hchoice])
  · exact .of_verdict? hboth (by rw [verdict?_not_not_seq, hboth])
  · rw [succeeds_iff_of_verdict? hboth, succeeds_iff_of_verdict? hva, succeeds_iff_of_verdict? hvb]
    cases va <;> cases vb <;> simp [Verdict.matched]
  · obtain ⟨w, hw⟩ : ∃ w, store.verdict? (.seq [.not a, .not b]) input position = some w := by
      rw [verdict?_seq_not_cons, verdict?_seq_singleton, verdict?_not, hva, hvb]
      cases va <;> exact ⟨_, rfl⟩
    exact .of_verdict? hw (by rw [verdict?_seq_not_comm hvb hva, hw])
  · exact gives_of_verdict? (v := .fail) (by rw [verdict?_seq_not_self, hv, Option.map_some])
  · exact .of_verdict? (by rw [verdict?_seq_not_not_self, hv]) hv
  · have heither := congrFun₂ (store.verdict?_choice_not_self rule) input position
    rw [verdict?_opt, hv, Option.map_some] at heither
    exact (succeeds_iff_of_verdict? heither).mpr rfl
  · obtain ⟨w, hw⟩ := hrule.exists_verdict?_star
    have hstar := (neverFails_star store rule).verdict?_not input position
    rw [hw, Option.map_some] at hstar
    exact gives_of_verdict? hstar
  · have hopt := (neverFails_opt store rule).verdict?_not input position
    rw [verdict?_opt, hv, Option.map_some, Option.map_some] at hopt
    exact gives_of_verdict? hopt
  · have hstar := verdict?_star_not store rule input position
    rw [hv, Option.map_some] at hstar
    simpa using gives_of_verdict? hstar

/-- Nested parentheses, and a reference into a grammar that is gone. At the second parenthesis one
of them matches and the other fails. -/
theorem lookahead_agreeAt_nested :
    let rule : Rule := .ref ⟨0, "nested"⟩
    let gone : Rule := .ref ⟨1, "gone"⟩
    let input := #['(', '(', ')', 'x']
    nested.EndsFrom rule input 1 ∧ nested.EndsFrom gone input 1 ∧
      nested.AgreeAt (.not (.choice [gone, rule])) (.seq [.not gone, .not rule]) input 1 ∧
      nested.AgreeAt (.seq [.not gone, .not rule]) (.seq [.not rule, .not gone]) input 1 ∧
      nested.Gives (.seq [.not (.not rule), rule]) input 1 (.success ['(', ')']) ∧
      nested.Succeeds (.choice [rule, .not rule]) input 1 ∧
      nested.Gives (.star (.not rule)) input 1 .empty := by
  intro rule gone input
  have hrule : nested.EndsFrom rule input 1 := by decide
  have hgone : nested.EndsFrom gone input 1 := by decide
  have hrules : ∀ alternative ∈ [gone, rule], nested.EndsFrom alternative input 1 := by
    simp [hrule, hgone]
  have hmatch : nested.matchAt rule input 1 = .ends (.success ['(', ')']) [] := by decide
  obtain ⟨-, -, -, hchoice, -, hcomm, ⟨-, o, hself, log, ho⟩, heither, -, hstar⟩ :=
    lookahead_agreeAt hgone hrule hrule hrules
  obtain ⟨rfl, -⟩ := ends.inj (hmatch.symm.trans ho)
  exact ⟨hrule, hgone, hchoice, hcomm, hself, heither, hstar⟩

end Store

end Peg
