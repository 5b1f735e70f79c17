import Peg.Proofs.Checked
import Peg.Proofs.Equations
import Peg.Proofs.Parts
import Peg.Proofs.Termination

/-!
# Where nothing is left to read

At the end of a text nothing is left to read, and past the end there is not either. So a match could
be expected to be the same there, whatever rule is matched: what has to read a character fails, and
all else goes on as it does at the end.

There is one exception. The empty string reads nothing, and it is found at the end of a text, but
past the end it is not. A rule in which it occurs, or which leads to one in which it occurs, may
therefore tell these positions apart. All other rules do not, with all that they log, and whether or
not they come to an end.

## Main definitions

* `Store.NoEmptyString` — the empty string occurs in no rule to which a match may come

## Main results

* `Rule.matchWith_of_exhausted` — a rule does not tell such positions apart if its references do not
* `Store.matchAt_of_exhausted` — neither does a match, even in different texts
* `Store.matchAt_past_end` — past the end of a text, and at its end
* `Store.matchAt_past_end_ne` — the empty string is an exception
-/

namespace Peg

open Outcome Run

variable {ε : Type} {x y input : Array Char} {p q position : Nat}

/-! ### Nothing is consumed where nothing is left -/

theorem Outcome.SpansAt.length_eq_zero {o : Outcome} (h : SpansAt input position o)
    (hposition : input.size ≤ position) : o.length = 0 := by
  have hreaches := h.reaches
  unfold Reaches at hreaches
  omega

theorem getElem?_of_exhausted (hx : x.size ≤ p) : x[p]? = none := Array.getElem?_eq_none hx

theorem startsAt_of_exhausted (hx : x.size ≤ p) (c : Char) (rest : List Char) :
    startsAt x (c :: rest) p = false := by
  rw [startsAt, getElem?_of_exhausted hx]
  rfl

theorem Run.followedBy_congr {r : Outcome → Prop} {first : Run ε Outcome}
    {next next' : Outcome → Run ε Outcome} (hfirst : first.Always r)
    (h : ∀ o, r o → next o = next' o) : first.followedBy next = first.followedBy next' := by
  apply bind_congr hfirst
  intro o ho
  rw [h o ho]

/-! ### Rules -/

namespace Rule

variable {call call' : Meaning ε}

/-- Where nothing is left to read, a rule without empty strings matches the same, if its references
do. -/
theorem matchWith_of_exhausted (hx : x.size ≤ p) (hy : y.size ≤ q) (hcall : call.Spans x)
    (hcall' : call'.Spans y) (rule : Rule) (hrule : rule.Everywhere (· ≠ .string []))
    (hrefs : ∀ target ∈ rule.refs, call target p = call' target q) :
    rule.matchWith call x p = rule.matchWith call' y q := by
  -- A part that was matched has left the position where it was.
  have hstays : ∀ (rule : Rule) {o : Outcome}, SpansAt y q o →
      rule.matchWith call x p = rule.matchWith call' y q →
      rule.matchWith call x (p + o.length) = rule.matchWith call' y (q + o.length) := by
    intro rule o ho h
    rwa [ho.length_eq_zero hy]
  induction rule with
  | char c =>
    rw [matchWith, matchWith, getElem?_of_exhausted hx, getElem?_of_exhausted hy]
  | range low high =>
    rw [matchWith, matchWith, getElem?_of_exhausted hx, getElem?_of_exhausted hy]
  | string chars =>
    cases chars with
    | nil => exact absurd rfl hrule
    | cons c rest =>
      rw [matchWith, matchWith, startsAt_of_exhausted hx, startsAt_of_exhausted hy]
  | seq parts ih =>
    obtain ⟨-, hparts⟩ := hrule
    rw [everywhereAll_iff] at hparts
    -- The rest of a sequence is matched as a sequence, so this is an induction on the parts.
    induction parts with
    | nil => rw [matchWith_seq_nil, matchWith_seq_nil]
    | cons part rest ihrest =>
      obtain ⟨ihpart, ihothers⟩ := List.forall_mem_cons.mp ih
      obtain ⟨hpart, hothers⟩ := List.forall_mem_cons.mp hparts
      have hfirst := ihpart hpart fun target h => hrefs target (List.mem_append_left _ h)
      have hrest := ihrest ihothers (fun target h => hrefs target (List.mem_append_right _ h))
        hothers
      rw [matchWith_seq_cons hcall, matchWith_seq_cons hcall', hfirst]
      exact followedBy_congr (part.matchWith_spansAt hcall' q) fun o ho => hstays _ ho hrest
  | pair left right ihl ihr =>
    obtain ⟨-, hleft, hright⟩ := hrule
    have hfirst := ihl hleft fun target h => hrefs target (List.mem_append_left _ h)
    have hsecond := ihr hright fun target h => hrefs target (List.mem_append_right _ h)
    rw [matchWith_pair, matchWith_pair, hfirst]
    exact followedBy_congr (left.matchWith_spansAt hcall' q) fun o ho => hstays _ ho hsecond
  | choice alternatives ih =>
    obtain ⟨-, halternatives⟩ := hrule
    rw [everywhereAll_iff] at halternatives
    induction alternatives with
    | nil => rw [matchWith_choice_nil, matchWith_choice_nil]
    | cons alternative rest ihrest =>
      obtain ⟨ihfirst, ihothers⟩ := List.forall_mem_cons.mp ih
      obtain ⟨halternative, hothers⟩ := List.forall_mem_cons.mp halternatives
      have hfirst := ihfirst halternative fun target h => hrefs target (List.mem_append_left _ h)
      have hrest := ihrest ihothers (fun target h => hrefs target (List.mem_append_right _ h))
        hothers
      rw [matchWith_choice_cons, matchWith_choice_cons, hfirst, hrest]
  | not operand ih =>
    obtain ⟨-, hoperand⟩ := hrule
    rw [matchWith, matchWith, ih hoperand hrefs]
  | star operand ih =>
    obtain ⟨-, hoperand⟩ := hrule
    rw [matchWith_star hcall, matchWith_star hcall', ih hoperand hrefs]
    apply bind_congr (operand.matchWith_spansAt hcall' q)
    intro o ho
    -- The first match consumes nothing, so it is the last as well.
    rw [if_pos (ho.length_eq_zero hy), if_pos (ho.length_eq_zero hy)]
  | plus operand ih =>
    obtain ⟨-, hoperand⟩ := hrule
    rw [matchWith_plus hcall, matchWith_plus hcall', ih hoperand hrefs]
    apply bind_congr (operand.matchWith_spansAt hcall' q)
    intro o ho
    rw [if_pos (ho.length_eq_zero hy), if_pos (ho.length_eq_zero hy)]
  | opt operand ih =>
    obtain ⟨-, hoperand⟩ := hrule
    rw [matchWith, matchWith, ih hoperand hrefs]
  | ref target =>
    rw [matchWith, matchWith]
    exact hrefs target List.mem_cons_self

end Rule

/-! ### Matches in a store -/

namespace Store

variable {store : Store} {rule : Rule}

/-- The empty string occurs neither in the rule nor in any rule to which it leads. -/
structure NoEmptyString (store : Store) (rule : Rule) : Prop where
  here : rule.Everywhere (· ≠ .string [])
  reached : ∀ {target definition}, store.Reaches rule target →
    store.resolve target = .ok definition → definition.Everywhere (· ≠ .string [])

theorem meaning_of_exhausted (hx : x.size ≤ p) (hy : y.size ≤ q) (hrule : store.NoEmptyString rule)
    (depth : Nat) {target : Ref} (htarget : store.Reaches rule target) :
    store.meaning x depth target p = store.meaning y depth target q := by
  induction depth generalizing target with
  | zero => rfl
  | succ depth ih =>
    cases hres : store.resolve target with
    | ok definition =>
      rw [meaning_succ_of_ok hres, meaning_succ_of_ok hres]
      apply definition.matchWith_of_exhausted hx hy (store.meaning_spans x depth)
        (store.meaning_spans y depth) (hrule.reached htarget hres)
      intro target' hmem
      exact ih (.through htarget hres hmem)
    | error miss => rw [meaning_succ_of_error hres, meaning_succ_of_error hres]

/-- Where nothing is left to read, all positions of all texts are alike to a rule that leads to no
empty string. -/
theorem matchAt_of_exhausted (hx : x.size ≤ p) (hy : y.size ≤ q)
    (hrule : store.NoEmptyString rule) : store.matchAt rule x p = store.matchAt rule y q := by
  obtain ⟨depth, hx', hy'⟩ := exists_depth_matchAt store store x y
  rw [hx', hy']
  apply rule.matchWith_of_exhausted hx hy (store.meaning_spans x depth)
    (store.meaning_spans y depth) hrule.here
  intro target hmem
  exact meaning_of_exhausted hx hy hrule depth (.here hmem)

/-- Past the end of a text a rule matches as it does at the end, with the same log, unless it leads
to an empty string. Whatever has to read a character fails in both places. The empty string itself
matches at the end, and it fails past the end. -/
theorem matchAt_past_end (store : Store) (input : Array Char) :
    (∀ rule, store.NoEmptyString rule → ∀ position, input.size < position →
      store.matchAt rule input position = store.matchAt rule input input.size) ∧
    (∀ position, input.size ≤ position →
      (∀ c, store.matchAt (.char c) input position = .ends .noMatch []) ∧
      (∀ low high, store.matchAt (.range low high) input position = .ends .noMatch []) ∧
      ∀ c rest, store.matchAt (.string (c :: rest)) input position = .ends .noMatch []) ∧
    store.matchAt (.string []) input input.size = .ends .empty [] ∧
    ∀ position, input.size < position →
      store.matchAt (.string []) input position = .ends .noMatch [] := by
  refine ⟨?_, ?_, ?_, ?_⟩
  · intro rule hrule position hposition
    exact matchAt_of_exhausted hposition.le le_rfl hrule
  · intro position hposition
    refine ⟨fun c => ?_, fun low high => ?_, fun c rest => ?_⟩
    · rw [matchAt, Rule.matchWith, getElem?_of_exhausted hposition]
      rfl
    · rw [matchAt, Rule.matchWith, getElem?_of_exhausted hposition]
      rfl
    · rw [matchAt, Rule.matchWith, startsAt_of_exhausted hposition]
      rfl
  · simp [matchAt, Rule.matchWith, startsAt]
  · intro position hposition
    simp [matchAt, Rule.matchWith, startsAt, Nat.not_le.mpr hposition]

/-- The end of a word, and whatever follows: another word, or a reference that leads nowhere. -/
def wordEnd : Rule :=
  .seq [.not (.char 'x'), .opt (.ref ⟨0, "word"⟩), .star (.ref ⟨1, "gone"⟩)]

theorem noEmptyString_wordEnd : words.NoEmptyString wordEnd where
  here := by simp [wordEnd, Rule.Everywhere, Rule.EverywhereAll]
  reached := by
    intro target definition _ hres
    rcases resolve_words hres with ⟨-, rfl⟩ | ⟨-, rfl⟩
    · simp [words.word, Rule.Everywhere, Rule.EverywhereAll]
    · simp [words.blank, Rule.Everywhere, Rule.EverywhereAll]

/-- Far past the end of a text a word ends as it does at the end. -/
theorem matchAt_past_end_words :
    words.NoEmptyString wordEnd ∧ 2 < 18446744073709551615 ∧
      words.matchAt wordEnd #['x', ' '] 18446744073709551615 =
        words.matchAt wordEnd #['x', ' '] 2 :=
  ⟨noEmptyString_wordEnd, by decide,
    (matchAt_past_end words #['x', ' ']).1 wordEnd noEmptyString_wordEnd _ (by decide)⟩

/-- Past the end of a text the empty string does not match as it does at the end. -/
theorem matchAt_past_end_ne :
    ¬ ∀ (store : Store) (rule : Rule) (input : Array Char) (position : Nat), input.size < position →
      store.matchAt rule input position = store.matchAt rule input input.size := by
  intro h
  have hempty := h .empty (.string []) #[] 1 (by decide)
  revert hempty
  decide

end Store

end Peg
