import Peg.Store

/-!
# What a match consumes

Every match consumes a stretch of the text that begins where the match was tried. This holds for all
rules, also for those that a careful builder refuses, and at all positions, also past the end of the
text. There is nothing to consume there, so a match past the end stays where it is.

An outcome carries a length and a content, and different rules find them in different ways: a
character cuts them from the text, a sequence cuts them again from its start to its end, a pair
joins those of its parts, and a choice or a reference passes them on. The invariant says that all
these ways give the same.

## Main definitions

* `remaining` — the characters that are left at a position
* `Reaches` — the positions to which a match may lead
* `Run.Always` — a property of every value that a run ends with
* `Outcome.SpansAt` — the outcomes that an attempt at a position may have

## Main results

* `Reaches.induction` — induction on what is left of the text
* `Outcome.ofSpan_append_ofSpan` — two stretches in a row, joined, are the stretch over both
* `Rule.matchWith_spansAt` — rules keep the invariant if the meaning of their references does
* `Store.matchAt_spansAt` — the outcomes of matches in a store are such outcomes
* `Store.matchAt_outcome` — the invariant in terms of length and content
-/

namespace Peg

variable {ε α β : Type} {input : Array Char} {start mid stop position : Nat}

/-! ### Positions of a text -/

/-- The characters from `position` on. There are none, not even an empty stretch, past the end. -/
def remaining (input : Array Char) (position : Nat) : Option (List Char) :=
  if position ≤ input.size then some (input.toList.drop position) else none

theorem remaining_of_le (h : position ≤ input.size) :
    remaining input position = some (input.toList.drop position) := if_pos h

theorem remaining_of_lt (h : input.size < position) : remaining input position = none :=
  if_neg (Nat.not_le.mpr h)

theorem remaining_eq_some_iff {chars : List Char} :
    remaining input position = some chars ↔
      position ≤ input.size ∧ input.toList.drop position = chars := by
  simp [remaining, Option.ite_none_right_eq_some]

theorem getElem?_eq_some_iff_remaining {c : Char} :
    input[position]? = some c ↔ ∃ rest, remaining input position = some (c :: rest) := by
  constructor
  · intro h
    obtain ⟨hlt, hc⟩ := Array.getElem?_eq_some_iff.mp h
    refine ⟨input.toList.drop (position + 1), ?_⟩
    rw [remaining_of_le (Nat.le_of_lt hlt), List.drop_eq_getElem_cons hlt, Array.getElem_toList, hc]
  · rintro ⟨rest, h⟩
    obtain ⟨-, hdrop⟩ := remaining_eq_some_iff.mp h
    have hhead := congrArg (·[0]?) hdrop
    simpa using hhead

theorem startsAt_iff_remaining {chars : List Char} :
    startsAt input chars position = true ↔
      ∃ rest, remaining input position = some (chars ++ rest) := by
  induction chars generalizing position with
  | nil => simp [startsAt, remaining]
  | cons c chars ih =>
    simp only [startsAt, Bool.and_eq_true, beq_iff_eq, getElem?_eq_some_iff_remaining, ih]
    constructor
    · -- What is left after `c` is known twice, from here and from the next position.
      rintro ⟨⟨rest, hc⟩, tail, htail⟩
      obtain ⟨hle, hdrop⟩ := remaining_eq_some_iff.mp hc
      obtain ⟨-, hdrop'⟩ := remaining_eq_some_iff.mp htail
      have hrest : rest = chars ++ tail := by
        rw [← hdrop', ← List.drop_drop, hdrop, List.drop_one, List.tail_cons]
      exact ⟨tail, by rw [hc, hrest, List.cons_append]⟩
    · rintro ⟨tail, h⟩
      obtain ⟨-, hdrop⟩ := remaining_eq_some_iff.mp h
      have hlen := congrArg List.length hdrop
      simp only [List.length_drop, List.length_append, List.length_cons,
        Array.length_toList] at hlen
      refine ⟨⟨chars ++ tail, h⟩, tail, remaining_eq_some_iff.mpr ⟨by omega, ?_⟩⟩
      rw [← List.drop_drop, hdrop, List.cons_append, List.drop_one, List.tail_cons]

/-- The characters of a text, counted from a position. -/
theorem getElem?_add_of_remaining {chars : List Char} (h : remaining input position = some chars)
    (i : Nat) : input[position + i]? = chars[i]? := by
  obtain ⟨-, rfl⟩ := remaining_eq_some_iff.mp h
  rw [List.getElem?_drop, Array.getElem?_toList]

theorem getElem?_of_remaining {chars : List Char} (h : remaining input position = some chars) :
    input[position]? = chars.head? := by
  rw [List.head?_eq_getElem?]
  exact getElem?_add_of_remaining h 0

/-- What is left after a word with which the text goes on. -/
theorem remaining_add_length {word chars : List Char}
    (h : remaining input position = some (word ++ chars)) :
    remaining input (position + word.length) = some chars := by
  obtain ⟨hle, hdrop⟩ := remaining_eq_some_iff.mp h
  have hlength := congrArg List.length hdrop
  rw [List.length_drop, List.length_append, Array.length_toList] at hlength
  refine remaining_eq_some_iff.mpr ⟨by omega, ?_⟩
  rw [← List.drop_drop, hdrop, List.drop_left]

/-- A match at `start` may end at `stop`: it stays where it is, or it ends within the text. -/
def Reaches (input : Array Char) (start stop : Nat) : Prop :=
  start = stop ∨ (start ≤ stop ∧ stop ≤ input.size)

namespace Reaches

theorem refl (input : Array Char) (start : Nat) : Reaches input start start := Or.inl rfl

theorem of_le (h : start ≤ stop) (h' : stop ≤ input.size) : Reaches input start stop :=
  Or.inr ⟨h, h'⟩

theorem trans (h : Reaches input start mid) (h' : Reaches input mid stop) :
    Reaches input start stop := by
  unfold Reaches at *
  omega

theorem le (h : Reaches input start stop) : start ≤ stop := by
  unfold Reaches at h
  omega

/-- Past the end of the text nothing is consumed. -/
theorem eq_of_size_lt (h : Reaches input start stop) (hlt : input.size < start) : start = stop := by
  unfold Reaches at h
  omega

/-- Whatever is consumed is consumed within the text. -/
theorem le_size_of_lt (h : Reaches input start stop) (hlt : start < stop) : stop ≤ input.size := by
  unfold Reaches at h
  omega

/-- Induction on what is left of the text: what is to be shown of a position may be used at all
later ones to which a match may lead. -/
theorem induction (input : Array Char) {motive : Nat → Prop}
    (step : ∀ position, (∀ later, Reaches input position later → position < later → motive later) →
      motive position) (position : Nat) : motive position := by
  induction hleft : input.size - position using Nat.strongRecOn generalizing position with
  | _ left ih =>
    apply step
    intro later hlater hlt
    have hsize := hlater.le_size_of_lt hlt
    exact ih _ (by omega) later rfl

end Reaches

/-! ### Stretches of a text -/

namespace Outcome

theorem ofSpan_of_le (h : start ≤ stop) (h' : stop ≤ input.size) :
    ofSpan input start stop = success ((input.toList.drop start).take (stop - start)) := by
  simp [ofSpan, h, h', List.extract_eq_take_drop]

/-- The stretch of one character. -/
theorem ofSpan_succ {c : Char} (h : input[position]? = some c) :
    ofSpan input position (position + 1) = success [c] := by
  obtain ⟨rest, hrest⟩ := getElem?_eq_some_iff_remaining.mp h
  obtain ⟨-, hdrop⟩ := remaining_eq_some_iff.mp hrest
  have hlt := (Array.getElem?_eq_some_iff.mp h).1
  rw [ofSpan_of_le (Nat.le_succ position) hlt, hdrop]
  simp

/-- The stretch that a string takes up where the text holds it. -/
theorem ofSpan_of_remaining {chars rest : List Char}
    (h : remaining input position = some (chars ++ rest)) :
    position + chars.length ≤ input.size ∧
      ofSpan input position (position + chars.length) = success chars := by
  obtain ⟨hle, hdrop⟩ := remaining_eq_some_iff.mp h
  have hlen := congrArg List.length hdrop
  simp only [List.length_drop, List.length_append, Array.length_toList] at hlen
  have hstop : position + chars.length ≤ input.size := by omega
  refine ⟨hstop, ?_⟩
  rw [ofSpan_of_le (Nat.le_add_right _ _) hstop, hdrop]
  simp

/-- The length of a stretch leads from its start to its end. -/
theorem add_length_ofSpan (h : Reaches input start stop) :
    start + (ofSpan input start stop).length = stop := by
  rcases h with rfl | ⟨hle, hsize⟩
  · simp
  · rw [length_ofSpan hle hsize]
    omega

/-- Two stretches in a row, joined, are the stretch from the start of the first to the end of the
second. -/
theorem ofSpan_append_ofSpan (h : Reaches input start mid) (h' : Reaches input mid stop) :
    (ofSpan input start mid).append (ofSpan input mid stop) = ofSpan input start stop := by
  rcases h with rfl | ⟨hle, hsize⟩
  · rcases h' with rfl | ⟨hle', hsize'⟩
    · simp [append, empty]
    · simp [append, empty, ofSpan_of_le hle' hsize', success]
  · rcases h' with rfl | ⟨hle', hsize'⟩
    · simp [append, empty, ofSpan_of_le hle hsize, success]
    · -- Both lie within the text, and the second is cut where the first ends.
      have hcut : stop - start = (mid - start) + (stop - mid) := by omega
      have hdrop : (input.toList.drop start).drop (mid - start) = input.toList.drop mid := by
        rw [List.drop_drop, Nat.add_sub_cancel' hle]
      have htake : (input.toList.drop start).take (stop - start) =
          (input.toList.drop start).take (mid - start) ++
            (input.toList.drop mid).take (stop - mid) := by
        rw [hcut, List.take_add, hdrop]
      have hjoin := ofSpan_of_le (Nat.le_trans hle hle') hsize'
      rw [ofSpan_of_le hle hsize, ofSpan_of_le hle' hsize', hjoin, htake]
      simp [append, success]

end Outcome

/-! ### Values of a run -/

namespace Run

/-- Every value that the run may end with has the property `p`. -/
def Always (p : α → Prop) : Run ε α → Prop
  | .endless => True
  | .ends a _ => p a

variable {p : α → Prop} {q : β → Prop} {x : Run ε α}

theorem Always.of_ends {a : α} {log : List ε} (h : x.Always p) (hx : x = .ends a log) : p a := by
  subst hx
  exact h

theorem Always.mono {p' : α → Prop} (h : x.Always p) (hp : ∀ a, p a → p' a) : x.Always p' := by
  cases x with
  | endless => trivial
  | ends a log => exact hp a h

theorem Always.and {p' : α → Prop} (h : x.Always p) (h' : x.Always p') :
    x.Always fun a => p a ∧ p' a := by
  cases x with
  | endless => trivial
  | ends a log => exact ⟨h, h'⟩

theorem always_true (x : Run ε α) : x.Always fun _ => True := by
  cases x <;> trivial

theorem always_after (log : List ε) : (after log x).Always p ↔ x.Always p := by
  cases x <;> rfl

theorem Always.bind {f : α → Run ε β} (hx : x.Always p) (hf : ∀ a, p a → (f a).Always q) :
    (x >>= f).Always q := by
  cases x with
  | endless => trivial
  | ends a log =>
    rw [ends_bind, always_after]
    exact hf a hx

end Run

/-! ### The outcomes of an attempt -/

namespace Outcome

/-- The outcomes that an attempt at `position` may have: the failure, or the match of a stretch that
begins there. -/
inductive SpansAt (input : Array Char) (position : Nat) : Outcome → Prop
  | noMatch : SpansAt input position .noMatch
  | ofSpan {stop : Nat} (h : Reaches input position stop) :
      SpansAt input position (.ofSpan input position stop)

namespace SpansAt

variable {o o' : Outcome}

theorem empty : SpansAt input position .empty := by
  simpa using SpansAt.ofSpan (Reaches.refl input position)

theorem eq_noMatch (h : SpansAt input position o) (hm : o.matched = false) : o = .noMatch := by
  cases h with
  | noMatch => rfl
  | ofSpan h => simp at hm

theorem eq_ofSpan (h : SpansAt input position o) (hm : o.matched = true) :
    o = .ofSpan input position (position + o.length) := by
  cases h with
  | noMatch => cases hm
  | ofSpan h => rw [add_length_ofSpan h]

theorem reaches (h : SpansAt input position o) : Reaches input position (position + o.length) := by
  cases h with
  | noMatch => exact Reaches.refl input position
  | ofSpan h => rwa [add_length_ofSpan h]

theorem char {c : Char} (h : input[position]? = some c) :
    SpansAt input position (.success [c]) := by
  rw [← ofSpan_succ h]
  exact .ofSpan (.of_le (Nat.le_succ _) (Array.getElem?_eq_some_iff.mp h).1)

theorem string {chars : List Char} (h : startsAt input chars position = true) :
    SpansAt input position (.success chars) := by
  obtain ⟨rest, hrest⟩ := startsAt_iff_remaining.mp h
  obtain ⟨hstop, hspan⟩ := ofSpan_of_remaining hrest
  rw [← hspan]
  exact .ofSpan (.of_le (Nat.le_add_right _ _) hstop)

theorem content_eq (h : SpansAt input position o) :
    o.content = (input.toList.drop position).take o.length := by
  cases h with
  | noMatch => rfl
  | ofSpan h =>
    rcases h with rfl | ⟨hle, hsize⟩
    · simp
    · rw [content_ofSpan hle hsize, length_ofSpan hle hsize]

theorem length_content (h : SpansAt input position o) : o.content.length = o.length := by
  cases h with
  | noMatch => rfl
  | ofSpan h =>
    rcases h with rfl | ⟨hle, hsize⟩
    · simp
    · rw [ofSpan_of_le hle hsize, content_success, length_success]

theorem matched_of_length_ne_zero (h : SpansAt input position o) (hl : o.length ≠ 0) :
    o.matched = true := by
  cases h with
  | noMatch => exact absurd rfl hl
  | ofSpan h => exact matched_ofSpan _ _ _

/-- A match that consumed nothing is the empty one. -/
theorem eq_empty (h : SpansAt input position o) (hm : o.matched = true) (hl : o.length = 0) :
    o = .empty := by
  have hspan := h.eq_ofSpan hm
  rwa [hl, Nat.add_zero, ofSpan_self] at hspan

theorem append (h : SpansAt input position o) (hm : o.matched = true)
    (h' : SpansAt input (position + o.length) o') (hm' : o'.matched = true) :
    SpansAt input position (o.append o') := by
  rw [h.eq_ofSpan hm, h'.eq_ofSpan hm', ofSpan_append_ofSpan h.reaches h'.reaches]
  exact .ofSpan (h.reaches.trans h'.reaches)

end SpansAt

end Outcome

open Outcome

/-! ### Rules keep the invariant -/

/-- The meaning of references gives such outcomes only. -/
def Meaning.Spans (input : Array Char) (call : Meaning ε) : Prop :=
  ∀ target position, (call target position).Always (SpansAt input position)

theorem repeatFrom_reaches {attempt : Nat → Run ε Outcome}
    (h : ∀ position, (attempt position).Always (SpansAt input position)) (most : Nat)
    (sofar : Repetition) :
    (repeatFrom attempt most sofar).Always fun reached =>
      Reaches input sofar.stop reached.stop := by
  induction most generalizing sofar with
  | zero => exact Reaches.refl input sofar.stop
  | succ most ih =>
    apply (h sofar.stop).bind
    intro o ho
    split
    · dsimp only
      split
      · exact ho.reaches
      · -- The rest of the repetition goes on from where this match ended.
        have hrest := ih ⟨sofar.times + 1, sofar.stop + o.length⟩
        apply hrest.mono
        intro reached hreached
        exact ho.reaches.trans hreached
    · exact Reaches.refl input sofar.stop

namespace Rule

variable {call : Meaning ε} {rules : List Rule}

theorem stopOfSeq_reaches
    (h : ∀ rule ∈ rules, ∀ position,
      (rule.matchWith call input position).Always (SpansAt input position)) (position : Nat) :
    (stopOfSeq call input rules position).Always fun reached =>
      ∀ stop ∈ reached, Reaches input position stop := by
  induction rules generalizing position with
  | nil => simp [stopOfSeq, Run.Always, Reaches.refl]
  | cons part rest ih =>
    obtain ⟨hpart, hrest⟩ := List.forall_mem_cons.mp h
    rw [stopOfSeq]
    apply (hpart position).bind
    intro o ho
    split
    · have hothers := ih hrest (position + o.length)
      apply hothers.mono
      intro reached hreached stop hstop
      exact ho.reaches.trans (hreached stop hstop)
    · simp [Run.Always]

theorem firstMatch_spansAt
    (h : ∀ rule ∈ rules, ∀ position,
      (rule.matchWith call input position).Always (SpansAt input position)) (position : Nat) :
    (firstMatch call input rules position).Always (SpansAt input position) := by
  induction rules with
  | nil =>
    rw [firstMatch]
    exact .noMatch
  | cons alternative rest ih =>
    obtain ⟨halternative, hrest⟩ := List.forall_mem_cons.mp h
    rw [firstMatch]
    apply (halternative position).bind
    intro o ho
    split
    · exact ho
    · exact ih hrest

/-- Rules keep the invariant: if references give stretches of the text only, so do all rules. -/
theorem matchWith_spansAt (hcall : call.Spans input) (rule : Rule) (position : Nat) :
    (rule.matchWith call input position).Always (SpansAt input position) := by
  induction rule generalizing position with
  | char c =>
    rw [matchWith]
    split
    · exact .char ‹_›
    · exact .noMatch
  | range low high =>
    rw [matchWith]
    split
    · split
      · exact .char ‹_›
      · exact .noMatch
    · exact .noMatch
  | string chars =>
    rw [matchWith]
    split
    · exact .string ‹_›
    · exact .noMatch
  | seq parts ih =>
    rw [matchWith]
    apply (stopOfSeq_reaches ih position).bind
    intro reached hreached
    cases reached with
    | none => exact .noMatch
    | some stop =>
      -- The content is cut from the text anew, so only the end of the last part matters.
      exact .ofSpan (hreached stop rfl)
  | pair left right ihl ihr =>
    rw [matchWith]
    apply (ihl position).bind
    intro first hfirst
    by_cases hm : first.matched = true
    · rw [if_pos hm]
      apply (ihr (position + first.length)).bind
      intro second hsecond
      by_cases hm' : second.matched = true
      · -- The contents are joined, so here it matters that the parts lie side by side.
        rw [if_pos hm']
        exact hfirst.append hm hsecond hm'
      · rw [if_neg hm']
        exact .noMatch
    · rw [if_neg hm]
      exact .noMatch
  | choice alternatives ih =>
    rw [matchWith]
    exact firstMatch_spansAt ih position
  | not operand ih =>
    rw [matchWith]
    apply (ih position).bind
    intro o _
    split
    · exact .noMatch
    · exact .empty
  | star operand ih =>
    rw [matchWith]
    apply (repeatFrom_reaches ih _ _).bind
    intro reached hreached
    exact .ofSpan hreached
  | plus operand ih =>
    rw [matchWith]
    apply (repeatFrom_reaches ih _ _).bind
    intro reached hreached
    split
    · exact .noMatch
    · exact .ofSpan hreached
  | opt operand ih =>
    rw [matchWith]
    apply (ih position).bind
    intro o ho
    split
    · exact ho
    · exact .empty
  | ref target =>
    rw [matchWith]
    exact hcall target position

end Rule

/-! ### Matches in a store -/

namespace Store

/-- The invariant holds at every depth to which references are followed. -/
theorem meaning_spans (store : Store) (input : Array Char) (depth : Nat) :
    (store.meaning input depth).Spans input := by
  induction depth with
  | zero =>
    intro target position
    trivial
  | succ depth ih =>
    intro target position
    rw [meaning]
    cases store.resolve target with
    | ok rule => exact rule.matchWith_spansAt ih position
    | error miss => exact .noMatch

theorem matchAt_spansAt (store : Store) (rule : Rule) (input : Array Char) (position : Nat) :
    (store.matchAt rule input position).Always (SpansAt input position) :=
  rule.matchWith_spansAt (store.meaning_spans input _) position

/-- A match gives the failure as it stands, or a success whose content is the stretch of its length
that begins at the position. A success that consumed something ends within the text, and so past
the end of the text nothing is consumed. -/
theorem matchAt_outcome {store : Store} {rule : Rule} {o : Outcome} {log : List Miss}
    (h : store.matchAt rule input position = .ends o log) :
    (o = .noMatch ∨
      (o.matched = true ∧
        o.content = (input.toList.drop position).take o.length ∧
        o.content.length = o.length ∧
        (position + o.length ≤ input.size ∨ o.length = 0))) ∧
      (input.size < position → o.length = 0) := by
  have hspan := (store.matchAt_spansAt rule input position).of_ends h
  constructor
  · cases hm : o.matched with
    | false => exact Or.inl (hspan.eq_noMatch hm)
    | true =>
      refine Or.inr ⟨rfl, hspan.content_eq, hspan.length_content, ?_⟩
      -- The match stayed where it is, or it ended within the text.
      rcases hspan.reaches with heq | ⟨-, hsize⟩
      · exact Or.inr (by omega)
      · exact Or.inl hsize
  · intro hlt
    have heq := hspan.reaches.eq_of_size_lt hlt
    omega

/-- Nested parentheses: the only grammar has the rule `nested <- ('(' nested? ')')`. -/
def nested : Store :=
  let body : Rule := .seq [.char '(', .opt (.ref ⟨0, "nested"⟩), .char ')']
  ⟨#[some ⟨.ofList [("nested", some body)]⟩]⟩

/-- A pair within a recursive match: its content is joined, yet it is the stretch of the text. -/
theorem matchAt_outcome_nested :
    ∃ o, nested.matchAt (.pair (.ref ⟨0, "nested"⟩) (.star (.char 'x')))
        #['a', '(', '(', ')', ')', 'x', 'x', 'b'] 1 = .ends o [] ∧
      o.length = 6 ∧ o.content = ['(', '(', ')', ')', 'x', 'x'] ∧
      o.content = (['a', '(', '(', ')', ')', 'x', 'x', 'b'].drop 1).take o.length := by
  have h : nested.matchAt (.pair (.ref ⟨0, "nested"⟩) (.star (.char 'x')))
      #['a', '(', '(', ')', ')', 'x', 'x', 'b'] 1 =
        .ends ⟨true, 6, ['(', '(', ')', ')', 'x', 'x']⟩ [] := by decide
  obtain ⟨hfail | ⟨-, hcontent, -⟩, -⟩ := matchAt_outcome h
  · cases hfail
  · exact ⟨_, h, rfl, rfl, hcontent⟩

end Store

end Peg
