import Mathlib.Data.Finset.Prod
import Mathlib.Order.Interval.Finset.Nat
import Mathlib.Order.Monotone.Basic
import Peg.Proofs.Span

/-!
# The depth limit is never met

A match follows references within one another, and `Store.matchAt` gives up at a fixed depth. A
match that goes deeper has no end: it follows one name twice at the same position, the second time
within the first. So the limit cannot be observed, and a reference matches exactly what the rule
matches to which it leads.

With more depth a match can only gain an outcome. The references that have one at a given depth
therefore grow with the depth, and once a step adds none no later step does. There are only so many
names and positions, so they stop growing at the limit.

## Main definitions

* the order on `Run` — a run is below another if it has no end or is the same
* `Store.registered` — all registered names of all grammars
* `Store.Settled` — the depths at which one step more gains nothing

## Main results

* `Rule.matchWith_le` — a rule has more outcomes if its references have
* `Store.settled_succ` — what is settled stays settled
* `Store.settled_depthLimit` — the depth limit is settled
* `Store.meaning_of_depthLimit_le` — all greater depths give the same outcomes
* `Store.exists_depth_matchAt` — so two matches can be compared at one depth
* `Store.matchAt_of_matchWith_meaning` — and no smaller depth gives another one
* `Store.matchAt_ref_of_ok` — a reference matches what the rule matches to which it leads
-/

namespace Peg

variable {ε α β : Type} {input : Array Char} {start : Nat}

/-! ### The order on runs -/

namespace Run

/-- A run is below another if it has no end, or if they are the same. -/
instance : PartialOrder (Run ε α) where
  le x y := x = .endless ∨ x = y
  le_refl _ := Or.inr rfl
  le_trans x y z h h' := by
    rcases h with rfl | rfl
    · exact Or.inl rfl
    · exact h'
  le_antisymm x y h h' := by
    rcases h with rfl | rfl
    · rcases h' with rfl | rfl <;> rfl
    · rfl

theorem endless_le (x : Run ε α) : .endless ≤ x := Or.inl rfl

theorem eq_of_le_of_ne_endless {x y : Run ε α} (h : x ≤ y) (hx : x ≠ .endless) : x = y :=
  h.resolve_left hx

theorem after_le_after (log : List ε) {x y : Run ε α} (h : x ≤ y) : after log x ≤ after log y := by
  rcases h with rfl | rfl
  · exact endless_le _
  · exact le_rfl

theorem bind_le_bind {p : α → Prop} {x y : Run ε α} {f g : α → Run ε β} (hx : x.Always p)
    (hxy : x ≤ y) (h : ∀ a, p a → f a ≤ g a) : x >>= f ≤ y >>= g := by
  rcases hxy with rfl | rfl
  · exact endless_le _
  · cases x with
    | endless => exact endless_le _
    | ends a log =>
      rw [ends_bind, ends_bind]
      exact after_le_after log (h a hx)

end Run

open Outcome Run

/-! ### More outcomes of references give more outcomes of rules -/

theorem repeatFrom_le {attempt attempt' : Nat → Run ε Outcome}
    (hspan : ∀ position, (attempt position).Always (SpansAt input position))
    (h : ∀ position, Reaches input start position → attempt position ≤ attempt' position)
    (most : Nat) {sofar : Repetition} (hsofar : Reaches input start sofar.stop) :
    repeatFrom attempt most sofar ≤ repeatFrom attempt' most sofar := by
  induction most generalizing sofar with
  | zero => exact le_rfl
  | succ most ih =>
    apply bind_le_bind (hspan sofar.stop) (h sofar.stop hsofar)
    intro o ho
    split
    · dsimp only
      split
      · exact le_rfl
      · exact ih (hsofar.trans ho.reaches)
    · exact le_rfl

namespace Rule

variable {call call' : Meaning ε} {rules : List Rule}

theorem stopOfSeq_le (hcall : call.Spans input)
    (ih : ∀ rule ∈ rules, ∀ position, Reaches input start position →
      rule.matchWith call input position ≤ rule.matchWith call' input position)
    {position : Nat} (hposition : Reaches input start position) :
    stopOfSeq call input rules position ≤ stopOfSeq call' input rules position := by
  induction rules generalizing position with
  | nil => exact le_rfl
  | cons part rest ihrest =>
    obtain ⟨hpart, hrest⟩ := List.forall_mem_cons.mp ih
    rw [stopOfSeq, stopOfSeq]
    apply bind_le_bind (part.matchWith_spansAt hcall position) (hpart position hposition)
    intro o ho
    split
    · exact ihrest hrest (hposition.trans ho.reaches)
    · exact le_rfl

theorem firstMatch_le (hcall : call.Spans input) {position : Nat}
    (ih : ∀ rule ∈ rules,
      rule.matchWith call input position ≤ rule.matchWith call' input position) :
    firstMatch call input rules position ≤ firstMatch call' input rules position := by
  induction rules with
  | nil => exact le_rfl
  | cons alternative rest ihrest =>
    obtain ⟨halternative, hrest⟩ := List.forall_mem_cons.mp ih
    rw [firstMatch, firstMatch]
    apply bind_le_bind (alternative.matchWith_spansAt hcall position) halternative
    intro o _
    split
    · exact le_rfl
    · exact ihrest hrest

/-- A rule has more outcomes if its references have. Only the positions matter to which a match may
lead. -/
theorem matchWith_le (hcall : call.Spans input) (rule : Rule)
    (h : ∀ target position, Reaches input start position →
      call target position ≤ call' target position)
    {position : Nat} (hposition : Reaches input start position) :
    rule.matchWith call input position ≤ rule.matchWith call' input position := by
  induction rule generalizing position with
  | char c => rw [matchWith, matchWith]
  | range low high => rw [matchWith, matchWith]
  | string chars => rw [matchWith, matchWith]
  | seq parts ih =>
    rw [matchWith, matchWith]
    have hreaches := stopOfSeq_reaches
      (fun (rule : Rule) (_ : rule ∈ parts) => rule.matchWith_spansAt hcall) position
    have hparts := stopOfSeq_le hcall (fun rule hrule _ => ih rule hrule) hposition
    exact bind_le_bind hreaches hparts fun _ _ => le_rfl
  | pair left right ihl ihr =>
    rw [matchWith, matchWith]
    apply bind_le_bind (left.matchWith_spansAt hcall position) (ihl hposition)
    intro first hfirst
    split
    · have hright := ihr (hposition.trans hfirst.reaches)
      exact bind_le_bind (right.matchWith_spansAt hcall _) hright fun _ _ => le_rfl
    · exact le_rfl
  | choice alternatives ih =>
    rw [matchWith, matchWith]
    exact firstMatch_le hcall fun rule hrule => ih rule hrule hposition
  | not operand ih =>
    rw [matchWith, matchWith]
    exact bind_le_bind (operand.matchWith_spansAt hcall position) (ih hposition) fun _ _ => le_rfl
  | star operand ih =>
    rw [matchWith, matchWith]
    have hspan := operand.matchWith_spansAt hcall
    exact bind_le_bind (repeatFrom_reaches hspan _ _)
      (repeatFrom_le hspan (fun _ => ih) _ hposition) fun _ _ => le_rfl
  | plus operand ih =>
    rw [matchWith, matchWith]
    have hspan := operand.matchWith_spansAt hcall
    exact bind_le_bind (repeatFrom_reaches hspan _ _)
      (repeatFrom_le hspan (fun _ => ih) _ hposition) fun _ _ => le_rfl
  | opt operand ih =>
    rw [matchWith, matchWith]
    exact bind_le_bind (operand.matchWith_spansAt hcall position) (ih hposition) fun _ _ => le_rfl
  | ref target =>
    rw [matchWith, matchWith]
    exact h target position hposition

end Rule

namespace Store

variable {store : Store} {target : Ref} {depth : Nat}

/-! ### Depths at which nothing more is gained -/

theorem meaning_succ_of_ok {rule : Rule} (h : store.resolve target = .ok rule) (depth : Nat)
    (position : Nat) :
    store.meaning input (depth + 1) target position =
      rule.matchWith (store.meaning input depth) input position := by
  rw [meaning, h]

theorem meaning_succ_of_error {miss : Miss} (h : store.resolve target = .error miss) (depth : Nat)
    (position : Nat) :
    store.meaning input (depth + 1) target position = .ends .noMatch [miss] := by
  rw [meaning, h]
  rfl

theorem meaning_le_succ (store : Store) (input : Array Char) (depth : Nat) (target : Ref)
    (position : Nat) :
    store.meaning input depth target position ≤
      store.meaning input (depth + 1) target position := by
  induction depth generalizing target position with
  | zero => exact endless_le _
  | succ depth ih =>
    cases hres : store.resolve target with
    | ok rule =>
      rw [meaning_succ_of_ok hres, meaning_succ_of_ok hres]
      apply rule.matchWith_le (store.meaning_spans input depth) _ (Reaches.refl input position)
      intro target' position' _
      exact ih target' position'
    | error miss => rw [meaning_succ_of_error hres, meaning_succ_of_error hres]

/-- From `start` on, following references one step deeper than `depth` gains nothing. -/
def Settled (store : Store) (input : Array Char) (start depth : Nat) : Prop :=
  ∀ target position, Reaches input start position →
    store.meaning input (depth + 1) target position = store.meaning input depth target position

/-- What is settled stays settled, as a rule asks nothing but its references. -/
theorem settled_succ (h : store.Settled input start depth) :
    store.Settled input start (depth + 1) := by
  intro target position hposition
  cases hres : store.resolve target with
  | ok rule =>
    apply le_antisymm
    · -- The references in the rule have gained nothing, so neither has the rule.
      rw [meaning_succ_of_ok hres, meaning_succ_of_ok hres]
      apply rule.matchWith_le (store.meaning_spans input (depth + 1)) _ hposition
      intro target' position' hposition'
      exact (h target' position' hposition').le
    · exact meaning_le_succ store input (depth + 1) target position
  | error miss => rw [meaning_succ_of_error hres, meaning_succ_of_error hres]

/-! ### Counting the references that have an outcome -/

/-- All registered names of all grammars, as references. -/
def registered (store : Store) : List Ref :=
  store.grammars.toList.zipIdx.flatMap fun slot =>
    slot.1.elim [] fun g => g.slots.keys.map (⟨slot.2, ·⟩)

theorem length_registered (store : Store) : store.registered.length = store.nameCount := by
  have hslots : store.grammars.toList = store.grammars.toList.zipIdx.map (·.1) :=
    (List.zipIdx_map_fst 0 _).symm
  rw [registered, nameCount, List.length_flatMap, List.sum_eq_foldr, List.foldr_map]
  conv_rhs => rw [hslots, List.foldr_map]
  congr 1
  funext ⟨slot, id⟩ count
  cases slot <;> simp

theorem mem_registered {rule : Rule} (h : store.resolve target = .ok rule) :
    target ∈ store.registered := by
  obtain ⟨g, hg, hrule⟩ := resolve_eq_ok_iff.mp h
  have hslot : store.grammars.toList[target.grammar]? = some (some g) := by
    simpa [grammar?, Option.join_eq_some_iff] using hg
  have hname : target.name ∈ g.slots.keys := by
    simpa [Grammar.isRegistered] using Grammar.isRegistered_of_rule? hrule
  rw [registered, List.mem_flatMap]
  refine ⟨(some g, target.grammar), List.mk_mem_zipIdx_iff_getElem?.mpr hslot, ?_⟩
  exact List.mem_map.mpr ⟨target.name, hname, rfl⟩

/-- The attempts to follow a registered reference at a position to which a match from `start` may
lead. -/
def attempts (store : Store) (input : Array Char) (start : Nat) : Finset (Ref × Nat) :=
  store.registered.toFinset ×ˢ Finset.Icc start (max start input.size)

theorem card_attempts_le (store : Store) (input : Array Char) (start : Nat) :
    (store.attempts input start).card ≤ store.nameCount * (input.size + 1) := by
  rw [attempts, Finset.card_product, Nat.card_Icc]
  refine Nat.mul_le_mul ?_ (by omega)
  rw [← length_registered]
  exact List.toFinset_card_le _

theorem mem_attempts {rule : Rule} {position : Nat} (h : store.resolve target = .ok rule)
    (hposition : Reaches input start position) :
    (target, position) ∈ store.attempts input start := by
  rw [attempts, Finset.mem_product, List.mem_toFinset, Finset.mem_Icc]
  -- Within the text, or at `start` itself if that lies past the end.
  have hbetween : start ≤ position ∧ position ≤ max start input.size := by
    unfold Reaches at hposition
    omega
  exact ⟨mem_registered h, hbetween⟩

theorem reaches_of_mem_attempts {a : Ref × Nat} (h : a ∈ store.attempts input start) :
    Reaches input start a.2 := by
  rw [attempts, Finset.mem_product, Finset.mem_Icc] at h
  unfold Reaches
  omega

/-- The attempts that have an outcome at a given depth. -/
def answered (store : Store) (input : Array Char) (start depth : Nat) : Finset (Ref × Nat) :=
  (store.attempts input start).filter fun a => store.meaning input depth a.1 a.2 ≠ .endless

theorem answered_mono (store : Store) (input : Array Char) (start : Nat) :
    Monotone (store.answered input start) := by
  apply monotone_nat_of_le_succ
  intro depth
  apply Finset.monotone_filter_right
  intro a _ hends
  have hle := meaning_le_succ store input depth a.1 a.2
  rwa [← eq_of_le_of_ne_endless hle hends]

/-- A step that adds no attempt to those with an outcome settles the depth. Depth zero is left out:
there not even a reference that leads nowhere has an outcome. -/
theorem settled_of_card_eq
    (h : (store.answered input start (depth + 1)).card =
      (store.answered input start (depth + 2)).card) :
    store.Settled input start (depth + 1) := by
  have hsubset := answered_mono store input start (Nat.le_succ (depth + 1))
  have heq := Finset.eq_of_subset_of_card_le hsubset h.ge
  intro target position hposition
  cases hres : store.resolve target with
  | ok rule =>
    rcases meaning_le_succ store input (depth + 1) target position with hendless | hsame
    · by_contra hne
      -- An outcome that is gained would put the attempt among those that have one.
      have hmore : store.meaning input (depth + 2) target position ≠ .endless := by
        intro hmore
        exact hne (hmore.trans hendless.symm)
      have hmem : (target, position) ∈ store.answered input start (depth + 2) :=
        Finset.mem_filter.mpr ⟨mem_attempts hres hposition, hmore⟩
      rw [← heq] at hmem
      exact (Finset.mem_filter.mp hmem).2 hendless
    · exact hsame.symm
  | error miss => rw [meaning_succ_of_error hres, meaning_succ_of_error hres]

/-- Depth `depthLimit` is settled: until then each step adds an attempt to those with an outcome. -/
theorem settled_depthLimit (store : Store) (input : Array Char) (start : Nat) :
    store.Settled input start (store.depthLimit input) := by
  have hmono : Monotone fun depth => (store.answered input start (depth + 1)).card := by
    intro depth depth' h
    exact Finset.card_le_card (answered_mono store input start (Nat.succ_le_succ h))
  have hbound : ∀ depth, (store.answered input start (depth + 1)).card ≤
      store.nameCount * (input.size + 1) := by
    intro depth
    exact (Finset.card_filter_le _ _).trans (card_attempts_le store input start)
  -- Depths are counted from one on, as `settled_of_card_eq` says nothing of depth zero.
  have hstable : ∀ depth, (store.answered input start (depth + 1)).card =
        (store.answered input start (depth + 2)).card →
      (store.answered input start (depth + 2)).card =
        (store.answered input start (depth + 3)).card := by
    intro depth h
    have hsettled := settled_succ (settled_of_card_eq h)
    congr 1
    apply Finset.filter_congr
    intro a ha
    rw [hsettled a.1 a.2 (reaches_of_mem_attempts ha)]
  apply settled_of_card_eq
  -- A bounded count that rises only as long as it rose before has stopped by its bound.
  exact (Nat.stabilises_of_monotone hmono hbound hstable (Nat.le_succ _)).symm

/-- With one more step of depth than the limit, references mean the same. -/
theorem meaning_succ_depthLimit (store : Store) (input : Array Char) :
    store.meaning input (store.depthLimit input + 1) =
      store.meaning input (store.depthLimit input) := by
  funext target position
  exact settled_depthLimit store input position target position (Reaches.refl input position)

/-- With any depth beyond the limit, references mean the same. -/
theorem meaning_of_depthLimit_le (h : store.depthLimit input ≤ depth) :
    store.meaning input depth = store.meaning input (store.depthLimit input) := by
  induction depth, h using Nat.le_induction with
  | base => rfl
  | succ depth h ih =>
    funext target position
    rw [← meaning_succ_depthLimit, meaning, meaning, ih]

/-- So a match can be read at any of these depths. -/
theorem matchAt_eq_of_depthLimit_le (h : store.depthLimit input ≤ depth) (rule : Rule)
    (position : Nat) :
    store.matchAt rule input position =
      rule.matchWith (store.meaning input depth) input position := by
  rw [matchAt, meaning_of_depthLimit_le h]

/-- Matches in two stores, or in two texts, can be compared at one depth. -/
theorem exists_depth_matchAt (store store' : Store) (x y : Array Char) :
    ∃ depth, (∀ rule position,
        store.matchAt rule x position = rule.matchWith (store.meaning x depth) x position) ∧
      ∀ rule position,
        store'.matchAt rule y position = rule.matchWith (store'.meaning y depth) y position :=
  ⟨max (store.depthLimit x) (store'.depthLimit y),
    matchAt_eq_of_depthLimit_le (le_max_left _ _), matchAt_eq_of_depthLimit_le (le_max_right _ _)⟩

theorem meaning_eq_of_resolve {store store' : Store}
    (h : ∀ target, store.resolve target = store'.resolve target) (input : Array Char)
    (depth : Nat) : store.meaning input depth = store'.meaning input depth := by
  induction depth with
  | zero => rfl
  | succ depth ih =>
    funext target position
    rw [meaning, meaning, h, ih]

/-- Matches depend on what references lead to, and on nothing else in a store. -/
theorem matchAt_eq_of_resolve {store store' : Store}
    (h : ∀ target, store.resolve target = store'.resolve target) :
    store.matchAt = store'.matchAt := by
  funext rule input position
  obtain ⟨depth, hdepth, hdepth'⟩ := exists_depth_matchAt store store' input input
  rw [hdepth, hdepth', meaning_eq_of_resolve h]

/-- No depth gives a reference more than the limit does. -/
theorem meaning_le_depthLimit (store : Store) (input : Array Char) (depth : Nat) (target : Ref)
    (position : Nat) :
    store.meaning input depth target position ≤
      store.meaning input (store.depthLimit input) target position := by
  have hmono : Monotone fun depth => store.meaning input depth target position :=
    monotone_nat_of_le_succ fun depth => meaning_le_succ store input depth target position
  calc store.meaning input depth target position
    _ ≤ store.meaning input (max depth (store.depthLimit input)) target position :=
        hmono (le_max_left _ _)
    _ = store.meaning input (store.depthLimit input) target position := by
        rw [meaning_of_depthLimit_le (le_max_right _ _)]

/-- A rule that has an outcome at some depth has that outcome. -/
theorem matchAt_of_matchWith_meaning {rule : Rule} {position : Nat} {o : Outcome} {log : List Miss}
    (h : rule.matchWith (store.meaning input depth) input position = .ends o log) :
    store.matchAt rule input position = .ends o log := by
  have hle := rule.matchWith_le (store.meaning_spans input depth)
    (fun target position _ => store.meaning_le_depthLimit input depth target position)
    (Reaches.refl input position)
  rw [matchAt, ← eq_of_le_of_ne_endless hle (by rw [h]; exact ends_ne_endless _ _), h]

theorem matchAt_ref_of_ok {rule : Rule} (h : store.resolve target = .ok rule)
    (input : Array Char) (position : Nat) :
    store.matchAt (.ref target) input position = store.matchAt rule input position := by
  rw [matchAt, Rule.matchWith, ← meaning_succ_depthLimit, meaning_succ_of_ok h, matchAt]

theorem matchAt_ref_of_error {miss : Miss} (h : store.resolve target = .error miss)
    (input : Array Char) (position : Nat) :
    store.matchAt (.ref target) input position = .ends .noMatch [miss] := by
  rw [matchAt, Rule.matchWith, depthLimit, meaning_succ_of_error h]

end Store

end Peg
