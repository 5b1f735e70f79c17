import Peg.Proofs.Span

/-!
# Equations for sequences and repetitions

A repetition is a loop with a cursor and a counter, and with a bound on the number of matches; a
sequence keeps the position where its last part ended. Where references give stretches of the text
only, the bound of the loop is never met, and what either rule consumes can be joined from its
parts. So both obey equations that speak of nothing but matches of rules.

## Main definitions

* `Outcome.andThen` — the outcome of two attempts in a row
* `Run.followedBy` — an attempt and, where it matched, another one after it

## Main results

* `repeatFrom_most` — the bound of a repetition does not matter if it exceeds what is left
* `repetition_eq` — a repetition is one attempt and a repetition after it
* `Rule.matchWith_seq_cons`, `Rule.matchWith_pair` — the first part, and the others after it
* `Rule.matchWith_seq_singleton`, `Rule.matchWith_choice_singleton` — a list of one rule is the rule
* `Rule.matchWith_star`, `Rule.matchWith_plus` — the operand, and the repetition after it
* `Store.matchAt_seq_cons`, `Store.matchAt_star`, ... — the equations for matches in a store
-/

namespace Peg

variable {ε α β : Type} {input : Array Char} {position : Nat}

namespace Outcome

/-- The outcome of two attempts in a row, the first of which matched. -/
def andThen (first second : Outcome) : Outcome :=
  if second.matched then first.append second else .noMatch

@[simp] theorem andThen_noMatch (o : Outcome) : o.andThen .noMatch = .noMatch := rfl

theorem andThen_of_matched {o o' : Outcome} (h : o'.matched = true) :
    o.andThen o' = o.append o' := if_pos h

end Outcome

namespace Run

/-- A second step matters only on values that the first may end with. -/
theorem bind_congr {p : α → Prop} {x : Run ε α} {f g : α → Run ε β} (hx : x.Always p)
    (h : ∀ a, p a → f a = g a) : x >>= f = x >>= g := by
  cases x with
  | endless => rfl
  | ends a log => rw [ends_bind, ends_bind, h a hx]

/-- An attempt and, where it matched, another one after it. A failure of either is the failure of
both. -/
def followedBy (x : Run ε Outcome) (next : Outcome → Run ε Outcome) : Run ε Outcome :=
  x >>= fun first => if first.matched then first.andThen <$> next first else pure .noMatch

variable {x : Run ε Outcome} {next : Outcome → Run ε Outcome} {first : Outcome} {l : List ε}

theorem followedBy_of_matched {second : Outcome} {m : List ε} (hx : x = .ends first l)
    (hm : first.matched = true) (hnext : next first = .ends second m) :
    x.followedBy next = .ends (first.andThen second) (l ++ m) := by
  rw [followedBy, hx, ends_bind, if_pos hm, hnext, map_ends, after_ends]

theorem followedBy_of_fail (hx : x = .ends first l) (hm : first.matched = false) :
    x.followedBy next = .ends .noMatch l := by
  rw [followedBy, hx, ends_bind, hm]
  simp

/-- Either the first attempt fails and the second is not made, or both are made. -/
theorem followedBy_eq_ends {o : Outcome} {log : List ε} (h : x.followedBy next = .ends o log) :
    (∃ first, x = .ends first log ∧ first.matched = false ∧ o = .noMatch) ∨
      ∃ first second l m, x = .ends first l ∧ first.matched = true ∧
        next first = .ends second m ∧ o = first.andThen second ∧ log = l ++ m := by
  obtain ⟨first, l, m, hfirst, hrest, rfl⟩ := bind_eq_ends_iff.mp h
  cases hm : first.matched with
  | false =>
    simp only [hm, Bool.false_eq_true, if_false, pure_def, ends.injEq] at hrest
    obtain ⟨rfl, rfl⟩ := hrest
    exact Or.inl ⟨first, by rwa [List.append_nil], hm, rfl⟩
  | true =>
    simp only [hm, if_true] at hrest
    obtain ⟨second, hsecond, rfl⟩ := map_eq_ends_iff.mp hrest
    exact Or.inr ⟨first, second, l, m, hfirst, hm, hsecond, rfl, rfl⟩

/-- An attempt after which nothing is done is that attempt. -/
theorem followedBy_empty (hx : x.Always (Outcome.SpansAt input position)) :
    x.followedBy (fun _ => pure .empty) = x := by
  calc x.followedBy (fun _ => pure .empty)
    _ = x >>= pure := by
        apply bind_congr hx
        intro o ho
        cases hm : o.matched with
        | false => simp [ho.eq_noMatch hm]
        | true => simp [Outcome.andThen, Outcome.append, Outcome.ext_iff, hm]
    _ = x := bind_pure x

theorem followedBy_ne_endless (hx : x ≠ .endless)
    (hnext : ∀ first log, x = .ends first log → first.matched = true → next first ≠ .endless) :
    x.followedBy next ≠ .endless := by
  apply bind_ne_endless hx
  intro first log hfirst
  by_cases hm : first.matched = true
  · rw [if_pos hm]
    exact map_ne_endless (hnext first log hfirst hm)
  · rw [if_neg hm]
    exact ends_ne_endless _ _

end Run

open Outcome Run

/-! ### Repetitions -/

section Repetition

variable {attempt : Nat → Run ε Outcome}

/-- The matches that were made before are only counted. -/
theorem repeatFrom_times (attempt : Nat → Run ε Outcome) (most before times stop : Nat) :
    repeatFrom attempt most ⟨times + before, stop⟩ =
      (fun reached => ⟨reached.times + before, reached.stop⟩) <$>
        repeatFrom attempt most ⟨times, stop⟩ := by
  induction most generalizing times stop with
  | zero => simp [repeatFrom]
  | succ most ih =>
    simp only [repeatFrom, map_bind]
    congr 1
    funext o
    split
    · split
      · simp only [pure_def, map_ends, Nat.add_right_comm]
      · rw [Nat.add_right_comm, ih]
    · simp

/-- Two bounds that both exceed what is left of the text give the same repetition. -/
theorem repeatFrom_most (h : ∀ position, (attempt position).Always (SpansAt input position))
    {most most' : Nat} {sofar : Repetition} (hmost : input.size - sofar.stop < most)
    (hmost' : input.size - sofar.stop < most') :
    repeatFrom attempt most sofar = repeatFrom attempt most' sofar := by
  induction most generalizing most' sofar with
  | zero => omega
  | succ most ih =>
    obtain ⟨most', rfl⟩ : ∃ n, most' = n + 1 := ⟨most' - 1, by omega⟩
    simp only [repeatFrom]
    apply Run.bind_congr (h sofar.stop)
    intro o ho
    split
    · by_cases hlength : o.length = 0
      · rw [if_pos hlength, if_pos hlength]
      · rw [if_neg hlength, if_neg hlength]
        -- Something was consumed, so less of the text is left.
        have hsize := ho.reaches.le_size_of_lt (by omega)
        apply ih
        · dsimp only
          omega
        · dsimp only
          omega
    · rfl

/-- A repetition is one attempt and, if that consumed something, a repetition where it ended. -/
theorem repetition_eq (h : ∀ position, (attempt position).Always (SpansAt input position))
    (position : Nat) :
    repetition input attempt position = attempt position >>= fun o =>
      if o.length = 0 then pure ⟨if o.matched then 1 else 0, position⟩
      else (fun reached => ⟨reached.times + 1, reached.stop⟩) <$>
        repetition input attempt (position + o.length) := by
  rw [repetition, repeatFrom]
  apply Run.bind_congr (h position)
  intro o ho
  cases hm : o.matched with
  | false => simp [ho.eq_noMatch hm]
  | true =>
    by_cases hlength : o.length = 0
    · simp [hlength]
    · have hsize := ho.reaches.le_size_of_lt (by omega)
      -- The bound that is left is larger than the one that starts anew there, but both suffice.
      have hmost : repeatFrom attempt (input.size - position) ⟨0, position + o.length⟩ =
          repetition input attempt (position + o.length) := by
        apply repeatFrom_most h
        · dsimp only
          omega
        · dsimp only
          omega
      simp only [if_true, hlength, if_false]
      rw [repeatFrom_times, hmost]

theorem repetition_reaches (h : ∀ position, (attempt position).Always (SpansAt input position))
    (position : Nat) :
    (repetition input attempt position).Always fun reached =>
      Reaches input position reached.stop :=
  repeatFrom_reaches h _ _

/-- After a match the stretch of a whole repetition joins the match and the stretch of the rest. -/
theorem span_repetition (h : ∀ position, (attempt position).Always (SpansAt input position))
    {o : Outcome} (ho : SpansAt input position o) (hlength : o.length ≠ 0) :
    (repetition input attempt (position + o.length) >>= fun reached =>
      pure (ofSpan input position reached.stop)) =
      o.append <$> (repetition input attempt (position + o.length) >>= fun reached =>
        pure (ofSpan input (position + o.length) reached.stop)) := by
  rw [map_bind]
  apply Run.bind_congr (repetition_reaches h _)
  intro reached hreached
  have hm := ho.matched_of_length_ne_zero hlength
  have hjoin := ofSpan_append_ofSpan ho.reaches hreached
  rw [← ho.eq_ofSpan hm] at hjoin
  rw [map_pure, hjoin]

end Repetition

/-! ### Rules -/

namespace Rule

variable {call : Meaning ε}

@[simp] theorem matchWith_seq_nil (call : Meaning ε) (input : Array Char) (position : Nat) :
    (Rule.seq []).matchWith call input position = pure .empty := by
  simp [matchWith, stopOfSeq]

/-- A sequence is its first part and, if that matched, the sequence of the others after it. -/
theorem matchWith_seq_cons (hcall : call.Spans input) (part : Rule) (rest : List Rule)
    (position : Nat) :
    (Rule.seq (part :: rest)).matchWith call input position =
      (part.matchWith call input position).followedBy fun o =>
        (Rule.seq rest).matchWith call input (position + o.length) := by
  simp only [matchWith, stopOfSeq, followedBy, bind_assoc]
  apply Run.bind_congr (part.matchWith_spansAt hcall position)
  intro o ho
  cases hm : o.matched with
  | false => simp
  | true =>
    have hreaches : (stopOfSeq call input rest (position + o.length)).Always fun reached =>
        ∀ stop ∈ reached, Reaches input (position + o.length) stop :=
      stopOfSeq_reaches (fun rule _ => rule.matchWith_spansAt hcall) _
    simp only [if_true, map_bind]
    apply Run.bind_congr hreaches
    intro reached hreached
    cases reached with
    | none => simp
    | some stop =>
      -- The stretch over all parts is that of the first, joined with that over the others.
      have hjoin := ofSpan_append_ofSpan ho.reaches (hreached stop rfl)
      rw [map_pure, andThen_of_matched (matched_ofSpan _ _ _), ho.eq_ofSpan hm,
        add_length_ofSpan ho.reaches, hjoin]

/-- A sequence of one part matches as the part. -/
theorem matchWith_seq_singleton (hcall : call.Spans input) (part : Rule) :
    (Rule.seq [part]).matchWith call input = part.matchWith call input := by
  funext position
  rw [matchWith_seq_cons hcall]
  simp only [matchWith_seq_nil]
  exact followedBy_empty (part.matchWith_spansAt hcall position)

/-- A pair is its first part and, if that matched, its second after it. -/
theorem matchWith_pair (call : Meaning ε) (input : Array Char) (left right : Rule)
    (position : Nat) :
    (Rule.pair left right).matchWith call input position =
      (left.matchWith call input position).followedBy fun o =>
        right.matchWith call input (position + o.length) := by
  rw [matchWith]
  rfl

@[simp] theorem matchWith_choice_nil (call : Meaning ε) (input : Array Char) (position : Nat) :
    (Rule.choice []).matchWith call input position = pure .noMatch := by
  simp [matchWith, firstMatch]

/-- A choice is its first alternative or, if that failed, the choice among the others. -/
theorem matchWith_choice_cons (call : Meaning ε) (input : Array Char) (alternative : Rule)
    (rest : List Rule) (position : Nat) :
    (Rule.choice (alternative :: rest)).matchWith call input position =
      alternative.matchWith call input position >>= fun o =>
        if o.matched then pure o else (Rule.choice rest).matchWith call input position := by
  simp only [matchWith, firstMatch]

/-- A choice with one alternative matches as the alternative. -/
theorem matchWith_choice_singleton (hcall : call.Spans input) (alternative : Rule) :
    (Rule.choice [alternative]).matchWith call input = alternative.matchWith call input := by
  funext position
  calc (Rule.choice [alternative]).matchWith call input position
    _ = alternative.matchWith call input position >>= pure := by
        rw [matchWith_choice_cons]
        apply bind_congr (alternative.matchWith_spansAt hcall position)
        intro o ho
        cases hm : o.matched with
        | false => simp [ho.eq_noMatch hm]
        | true => simp
    _ = alternative.matchWith call input position := bind_pure _

/-- `star` is its operand and, if that consumed something, `star` again after it. -/
theorem matchWith_star (hcall : call.Spans input) (operand : Rule) (position : Nat) :
    (Rule.star operand).matchWith call input position =
      operand.matchWith call input position >>= fun o =>
        if o.length = 0 then pure .empty
        else o.append <$> (Rule.star operand).matchWith call input (position + o.length) := by
  have hspan := operand.matchWith_spansAt hcall
  simp only [matchWith]
  rw [repetition_eq hspan, bind_assoc]
  apply Run.bind_congr (hspan position)
  intro o ho
  by_cases hlength : o.length = 0
  · simp [hlength]
  · simp only [hlength, if_false]
    rw [bind_map_left]
    exact span_repetition hspan ho hlength

/-- `star` never fails. -/
theorem matchWith_star_matched (call : Meaning ε) (input : Array Char) (operand : Rule)
    (position : Nat) :
    ((Rule.star operand).matchWith call input position).Always fun o => o.matched = true := by
  rw [matchWith]
  cases repetition input (fun p => operand.matchWith call input p) position with
  | endless => trivial
  | ends reached log =>
    rw [ends_bind, always_after]
    exact matched_ofSpan _ _ _

/-- `plus` is its operand and, if that consumed something, `star` after it. -/
theorem matchWith_plus (hcall : call.Spans input) (operand : Rule) (position : Nat) :
    (Rule.plus operand).matchWith call input position =
      operand.matchWith call input position >>= fun o =>
        if o.length = 0 then pure o
        else o.append <$> (Rule.star operand).matchWith call input (position + o.length) := by
  have hspan := operand.matchWith_spansAt hcall
  simp only [matchWith]
  rw [repetition_eq hspan, bind_assoc]
  apply Run.bind_congr (hspan position)
  intro o ho
  by_cases hlength : o.length = 0
  · -- The counter tells a first attempt that failed from one that matched the empty stretch.
    cases hm : o.matched with
    | false => simp [ho.eq_noMatch hm]
    | true => simp [ho.eq_empty hm hlength]
  · simp only [hlength, if_false]
    rw [bind_map_left]
    -- The match that was made is counted, so `plus` cannot fail any more.
    exact span_repetition hspan ho hlength

end Rule

/-! ### Matches in a store -/

namespace Store

variable (store : Store) (input : Array Char) (position : Nat)

theorem matchAt_seq_nil : store.matchAt (.seq []) input position = pure .empty :=
  Rule.matchWith_seq_nil _ _ _

theorem matchAt_seq_cons (part : Rule) (rest : List Rule) :
    store.matchAt (.seq (part :: rest)) input position =
      (store.matchAt part input position).followedBy fun o =>
        store.matchAt (.seq rest) input (position + o.length) :=
  Rule.matchWith_seq_cons (store.meaning_spans input _) part rest position

theorem matchAt_seq_singleton (part : Rule) :
    store.matchAt (.seq [part]) input position = store.matchAt part input position :=
  congrFun (Rule.matchWith_seq_singleton (store.meaning_spans input _) part) position

theorem matchAt_pair (left right : Rule) :
    store.matchAt (.pair left right) input position =
      (store.matchAt left input position).followedBy fun o =>
        store.matchAt right input (position + o.length) :=
  Rule.matchWith_pair _ input left right position

theorem matchAt_choice_nil : store.matchAt (.choice []) input position = pure .noMatch :=
  Rule.matchWith_choice_nil _ _ _

theorem matchAt_choice_cons (alternative : Rule) (rest : List Rule) :
    store.matchAt (.choice (alternative :: rest)) input position =
      store.matchAt alternative input position >>= fun o =>
        if o.matched then pure o else store.matchAt (.choice rest) input position :=
  Rule.matchWith_choice_cons _ input alternative rest position

theorem matchAt_choice_singleton (alternative : Rule) :
    store.matchAt (.choice [alternative]) input position =
      store.matchAt alternative input position :=
  congrFun (Rule.matchWith_choice_singleton (store.meaning_spans input _) alternative) position

theorem matchAt_not (operand : Rule) :
    store.matchAt (.not operand) input position =
      store.matchAt operand input position >>= fun o =>
        pure (if o.matched then .noMatch else .empty) := by
  rw [matchAt, Rule.matchWith]
  rfl

theorem matchAt_star (operand : Rule) :
    store.matchAt (.star operand) input position =
      store.matchAt operand input position >>= fun o =>
        if o.length = 0 then pure .empty
        else o.append <$> store.matchAt (.star operand) input (position + o.length) :=
  Rule.matchWith_star (store.meaning_spans input _) operand position

theorem matchAt_plus (operand : Rule) :
    store.matchAt (.plus operand) input position =
      store.matchAt operand input position >>= fun o =>
        if o.length = 0 then pure o
        else o.append <$> store.matchAt (.star operand) input (position + o.length) :=
  Rule.matchWith_plus (store.meaning_spans input _) operand position

theorem matchAt_opt (operand : Rule) :
    store.matchAt (.opt operand) input position =
      store.matchAt operand input position >>= fun o =>
        pure (if o.matched then o else .empty) := by
  rw [matchAt, Rule.matchWith]
  rfl

end Store

end Peg
