import Mathlib.Logic.Relation
import Mathlib.Order.WellFoundedSet
import Peg.Proofs.Derivation

/-!
# Matches that always end

A match without end comes back to a rule at the position where it began with it. Whether that can
happen is seen from the rules alone. A rule is *nullable* if it is of a form that may match without
consuming anything, and it *calls* a reference *on the left* if it may try it before it has consumed
anything. A grammar whose rules do not call themselves on the left, directly or through others, has
an outcome for every rule at every position of every text.

Repetitions need no condition of their own. Their operands may be nullable, lookaheads or
repetitions, because a match that consumed nothing ends a repetition.

## Main definitions

* `Nullable` — the rules that may match without consuming anything
* `LeftCalls` — the references that a rule may try before it has consumed anything
* `Store.LeftCall` — the left calls among the defined names of a store

## Main results

* `Derives.nullable` — a rule that matches without consuming anything is nullable
* `Store.matchAt_ne_endless` — a rule ends if its left calls do, and everything does further on
* `Store.exists_matchAt_of_acyclic` — without a cycle of left calls every match ends
-/

namespace Peg

/-- The rules whose form lets them match without consuming anything. -/
inductive Nullable (store : Store) : Rule → Prop
  | string : Nullable store (.string [])
  | seq {parts : List Rule} (h : ∀ part ∈ parts, Nullable store part) :
      Nullable store (.seq parts)
  | pair {left right : Rule} (h : Nullable store left) (h' : Nullable store right) :
      Nullable store (.pair left right)
  | choice {alternatives : List Rule} {alternative : Rule} (hmem : alternative ∈ alternatives)
      (h : Nullable store alternative) : Nullable store (.choice alternatives)
  | not (operand : Rule) : Nullable store (.not operand)
  | star (operand : Rule) : Nullable store (.star operand)
  | opt (operand : Rule) : Nullable store (.opt operand)
  | plus {operand : Rule} (h : Nullable store operand) : Nullable store (.plus operand)
  | ref {target : Ref} {rule : Rule} (hres : store.resolve target = .ok rule)
      (h : Nullable store rule) : Nullable store (.ref target)

/-- The references that a rule may try before it has consumed anything. -/
inductive LeftCalls (store : Store) : Rule → Ref → Prop
  | ref (target : Ref) : LeftCalls store (.ref target) target
  -- A part is tried before anything is consumed only if all parts before it consume nothing.
  | seq {before after : List Rule} {part : Rule} {target : Ref}
      (hbefore : ∀ rule ∈ before, Nullable store rule) (h : LeftCalls store part target) :
      LeftCalls store (.seq (before ++ part :: after)) target
  | pair_left {left right : Rule} {target : Ref} (h : LeftCalls store left target) :
      LeftCalls store (.pair left right) target
  | pair_right {left right : Rule} {target : Ref} (hleft : Nullable store left)
      (h : LeftCalls store right target) : LeftCalls store (.pair left right) target
  | choice {alternatives : List Rule} {alternative : Rule} {target : Ref}
      (hmem : alternative ∈ alternatives) (h : LeftCalls store alternative target) :
      LeftCalls store (.choice alternatives) target
  | not {operand : Rule} {target : Ref} (h : LeftCalls store operand target) :
      LeftCalls store (.not operand) target
  | star {operand : Rule} {target : Ref} (h : LeftCalls store operand target) :
      LeftCalls store (.star operand) target
  | plus {operand : Rule} {target : Ref} (h : LeftCalls store operand target) :
      LeftCalls store (.plus operand) target
  | opt {operand : Rule} {target : Ref} (h : LeftCalls store operand target) :
      LeftCalls store (.opt operand) target

/-- One defined name calls another on the left. -/
def Store.LeftCall (store : Store) (target target' : Ref) : Prop :=
  ∃ rule, store.resolve target = .ok rule ∧ LeftCalls store rule target' ∧
    ∃ rule', store.resolve target' = .ok rule'

variable {store : Store} {input : Array Char} {position : Nat}

/-! ### Nullable rules -/

@[simp] theorem not_nullable_char (c : Char) : ¬ Nullable store (.char c) := nofun

@[simp] theorem nullable_plus_iff {operand : Rule} :
    Nullable store (.plus operand) ↔ Nullable store operand :=
  ⟨fun | .plus h => h, .plus⟩

theorem nullable_seq_cons {part : Rule} {rest : List Rule} (h : Nullable store part)
    (h' : Nullable store (.seq rest)) : Nullable store (.seq (part :: rest)) := by
  cases h' with
  | seq hrest => exact .seq (List.forall_mem_cons.mpr ⟨h, hrest⟩)

theorem nullable_choice_cons {alternative : Rule} {rest : List Rule}
    (h : Nullable store (.choice rest)) : Nullable store (.choice (alternative :: rest)) := by
  cases h with
  | choice hmem h => exact .choice (List.mem_cons_of_mem alternative hmem) h

theorem Verdict.after_eq_consumed_zero {n : Nat} {v : Verdict} (h : v.after n = .consumed 0) :
    n = 0 ∧ v = .consumed 0 := by
  cases v with
  | fail => cases h
  | consumed m =>
    have hsum : n + m = 0 := Verdict.consumed.inj h
    obtain ⟨rfl, rfl⟩ : n = 0 ∧ m = 0 := by omega
    exact ⟨rfl, rfl⟩

/-- A repetition that consumed nothing stopped at its first attempt. -/
theorem Derives.of_star_empty {operand : Rule} {log : List Miss}
    (h : Derives store input (.star operand) position (.consumed 0) log) :
    Derives store input operand position .fail log ∨
      Derives store input operand position (.consumed 0) log := by
  -- The verdict of `star_more` is a sum, which `cases` does not compare with zero by itself.
  generalize hv : Verdict.consumed 0 = v at h
  cases h with
  | star_fail h => exact Or.inl h
  | star_empty h => exact Or.inr h
  | star_more hn =>
    have hsum := Verdict.consumed.inj hv
    omega

/-- A rule that matches without consuming anything is nullable. -/
theorem Derives.nullable {rule : Rule} {v : Verdict} {log : List Miss}
    (h : Derives store input rule position v log) (hv : v = .consumed 0) :
    Nullable store rule := by
  induction h with
  | char => cases hv
  | char_fail => cases hv
  | range => cases hv
  | range_fail => cases hv
  | @string chars =>
    have hlength : chars.length = 0 := Verdict.consumed.inj hv
    obtain rfl := List.eq_nil_of_length_eq_zero hlength
    exact .string
  | string_fail => cases hv
  | seq_nil =>
    apply Nullable.seq
    intro part hpart
    exact absurd hpart List.not_mem_nil
  | seq_cons _ _ ih ih' =>
    obtain ⟨rfl, rfl⟩ := Verdict.after_eq_consumed_zero hv
    exact nullable_seq_cons (ih rfl) (ih' rfl)
  | seq_fail => cases hv
  | pair _ _ ih ih' =>
    obtain ⟨rfl, rfl⟩ := Verdict.after_eq_consumed_zero hv
    exact .pair (ih rfl) (ih' rfl)
  | pair_fail => cases hv
  | choice_nil => cases hv
  | choice_head _ ih => exact .choice List.mem_cons_self (ih hv)
  | choice_tail _ _ _ ih' => exact nullable_choice_cons (ih' hv)
  | not => exact .not _
  | not_fail => cases hv
  | star_fail => exact .star _
  | star_empty => exact .star _
  | star_more => exact .star _
  | plus h h' ih _ =>
    obtain rfl := Verdict.consumed.inj hv
    apply Nullable.plus
    apply ih
    -- The repetition stopped at its first attempt, which is the one that the operand matched.
    rcases h'.of_star_empty with hfail | hempty
    · have hclash := (h.unique hfail).1
      cases hclash
    · exact (h.unique hempty).1
  | plus_fail => cases hv
  | opt => exact .opt _
  | opt_fail => exact .opt _
  | ref hres _ ih => exact .ref hres (ih hv)
  | ref_miss => cases hv

/-! ### Left calls -/

/-- A sequence calls on the left what its first part does and, if that part is nullable, what the
others do. -/
theorem leftCalls_seq_cons_iff {part : Rule} {rest : List Rule} {target : Ref} :
    LeftCalls store (.seq (part :: rest)) target ↔
      LeftCalls store part target ∨
        (Nullable store part ∧ LeftCalls store (.seq rest) target) := by
  constructor
  · intro h
    generalize hparts : part :: rest = parts at h
    cases h with
    | @seq before after part' _ hbefore h =>
      -- The part that calls `target` is the first one if no part stands before it.
      cases before with
      | nil =>
        obtain ⟨rfl, -⟩ := List.cons.inj hparts
        exact Or.inl h
      | cons first before =>
        obtain ⟨rfl, rfl⟩ := List.cons.inj hparts
        obtain ⟨hfirst, hothers⟩ := List.forall_mem_cons.mp hbefore
        exact Or.inr ⟨hfirst, .seq hothers h⟩
  · rintro (h | ⟨hpart, h⟩)
    · exact @LeftCalls.seq store [] rest part target (fun _ h => absurd h List.not_mem_nil) h
    · cases h with
      | @seq before after part' _ hbefore h =>
        exact @LeftCalls.seq store (part :: before) after part' target
          (List.forall_mem_cons.mpr ⟨hpart, hbefore⟩) h

@[simp] theorem not_leftCalls_char (c : Char) (target : Ref) :
    ¬ LeftCalls store (.char c) target := nofun

@[simp] theorem not_leftCalls_seq_nil (target : Ref) : ¬ LeftCalls store (.seq []) target := by
  intro h
  generalize hparts : ([] : List Rule) = parts at h
  cases h with
  | seq => simp at hparts

@[simp] theorem leftCalls_ref_iff {target target' : Ref} :
    LeftCalls store (.ref target) target' ↔ target = target' :=
  ⟨fun | .ref _ => rfl, fun h => h ▸ .ref target⟩

@[simp] theorem leftCalls_not_iff {operand : Rule} {target : Ref} :
    LeftCalls store (.not operand) target ↔ LeftCalls store operand target :=
  ⟨fun | .not h => h, .not⟩

@[simp] theorem leftCalls_star_iff {operand : Rule} {target : Ref} :
    LeftCalls store (.star operand) target ↔ LeftCalls store operand target :=
  ⟨fun | .star h => h, .star⟩

@[simp] theorem leftCalls_plus_iff {operand : Rule} {target : Ref} :
    LeftCalls store (.plus operand) target ↔ LeftCalls store operand target :=
  ⟨fun | .plus h => h, .plus⟩

@[simp] theorem leftCalls_opt_iff {operand : Rule} {target : Ref} :
    LeftCalls store (.opt operand) target ↔ LeftCalls store operand target :=
  ⟨fun | .opt h => h, .opt⟩

theorem leftCalls_choice_cons {alternative : Rule} {rest : List Rule} {target : Ref}
    (h : LeftCalls store (.choice rest) target) :
    LeftCalls store (.choice (alternative :: rest)) target := by
  cases h with
  | choice hmem h => exact .choice (List.mem_cons_of_mem alternative hmem) h

/-! ### A rule ends if its left calls do -/

open Run

namespace Store

/-- Every rule has an outcome at every position beyond `position` that lies within the text. -/
def EndsBeyond (store : Store) (input : Array Char) (position : Nat) : Prop :=
  ∀ later, position < later → later ≤ input.size → ∀ rule,
    store.matchAt rule input later ≠ .endless

/-- What comes after a match ends: further on everything does, and after a match that consumed
nothing `h` has to be shown. -/
theorem EndsBeyond.after (hbeyond : store.EndsBeyond input position) {part rule : Rule}
    {o : Outcome} {log : List Miss} (ho : store.matchAt part input position = .ends o log)
    (h : o.length = 0 → store.matchAt rule input position ≠ .endless) :
    store.matchAt rule input (position + o.length) ≠ .endless := by
  have hspan := (store.matchAt_spansAt part input position).of_ends ho
  by_cases hlength : o.length = 0
  · rw [hlength, Nat.add_zero]
    exact h hlength
  · have hlater : position < position + o.length := by omega
    have hsize := hspan.reaches.le_size_of_lt hlater
    exact hbeyond _ hlater hsize rule

theorem nullable_of_matchAt {rule : Rule} {o : Outcome} {log : List Miss}
    (h : store.matchAt rule input position = .ends o log) (hm : o.matched = true)
    (hlength : o.length = 0) : Nullable store rule := by
  have hderived := derives_of_matchAt h
  exact hderived.nullable (Outcome.verdict_eq_consumed_iff.mpr ⟨hm, hlength⟩)

/-- A rule ends if its left calls do, and everything does further on. -/
theorem matchAt_ne_endless (hbeyond : store.EndsBeyond input position) (rule : Rule)
    (hcalls : ∀ target, LeftCalls store rule target →
      store.matchAt (.ref target) input position ≠ .endless) :
    store.matchAt rule input position ≠ .endless := by
  induction rule with
  | char c =>
    rw [matchAt, Rule.matchWith]
    exact ends_ne_endless _ _
  | range low high =>
    rw [matchAt, Rule.matchWith]
    exact ends_ne_endless _ _
  | string chars =>
    rw [matchAt, Rule.matchWith]
    exact ends_ne_endless _ _
  | seq parts ih =>
    induction parts with
    | nil =>
      rw [matchAt_seq_nil]
      exact ends_ne_endless _ _
    | cons part rest ihrest =>
      obtain ⟨hpart, hrest⟩ := List.forall_mem_cons.mp ih
      have hfirst : store.matchAt part input position ≠ .endless :=
        hpart fun target h => hcalls target (leftCalls_seq_cons_iff.mpr (Or.inl h))
      rw [matchAt_seq_cons]
      apply followedBy_ne_endless hfirst
      intro o log ho hm
      apply hbeyond.after ho
      intro hlength
      -- The first part matched without consuming anything, so the others are on the left as well.
      have hnullable := nullable_of_matchAt ho hm hlength
      apply ihrest hrest
      intro target h
      exact hcalls target (leftCalls_seq_cons_iff.mpr (Or.inr ⟨hnullable, h⟩))
  | pair left right ihl ihr =>
    have hleft : store.matchAt left input position ≠ .endless :=
      ihl fun target h => hcalls target (.pair_left h)
    rw [matchAt_pair]
    apply followedBy_ne_endless hleft
    intro o log ho hm
    apply hbeyond.after ho
    intro hlength
    have hnullable := nullable_of_matchAt ho hm hlength
    apply ihr
    intro target h
    exact hcalls target (.pair_right hnullable h)
  | choice alternatives ih =>
    induction alternatives with
    | nil =>
      rw [matchAt_choice_nil]
      exact ends_ne_endless _ _
    | cons alternative rest ihrest =>
      obtain ⟨halternative, hrest⟩ := List.forall_mem_cons.mp ih
      have hfirst : store.matchAt alternative input position ≠ .endless :=
        halternative fun target h => hcalls target (.choice List.mem_cons_self h)
      rw [matchAt_choice_cons]
      apply bind_ne_endless hfirst
      intro o log ho
      split
      · exact ends_ne_endless _ _
      · apply ihrest hrest
        intro target h
        exact hcalls target (leftCalls_choice_cons h)
  | not operand ih =>
    have hoperand := ih fun target h => hcalls target (.not h)
    rw [matchAt_not]
    exact bind_ne_endless hoperand fun _ _ _ => ends_ne_endless _ _
  | star operand ih =>
    have hoperand := ih fun target h => hcalls target (.star h)
    rw [matchAt_star]
    apply bind_ne_endless hoperand
    intro o log ho
    by_cases hlength : o.length = 0
    · rw [if_pos hlength]
      exact ends_ne_endless _ _
    · rw [if_neg hlength]
      exact map_ne_endless (hbeyond.after ho fun hzero => absurd hzero hlength)
  | plus operand ih =>
    have hoperand := ih fun target h => hcalls target (.plus h)
    rw [matchAt_plus]
    apply bind_ne_endless hoperand
    intro o log ho
    by_cases hlength : o.length = 0
    · rw [if_pos hlength]
      exact ends_ne_endless _ _
    · rw [if_neg hlength]
      exact map_ne_endless (hbeyond.after ho fun hzero => absurd hzero hlength)
  | opt operand ih =>
    have hoperand := ih fun target h => hcalls target (.opt h)
    rw [matchAt_opt]
    exact bind_ne_endless hoperand fun _ _ _ => ends_ne_endless _ _
  | ref target => exact hcalls target (.ref target)

/-- A reference that leads nowhere has an outcome, so only the others have to be shown to end. -/
theorem matchAt_ref_ne_endless {target : Ref}
    (h : ∀ rule, store.resolve target = .ok rule →
      store.matchAt (.ref target) input position ≠ .endless) :
    store.matchAt (.ref target) input position ≠ .endless := by
  cases hres : store.resolve target with
  | ok rule => exact h rule hres
  | error miss =>
    rw [matchAt_ref_of_error hres]
    exact ends_ne_endless _ _

/-! ### Stores without a cycle of left calls -/

/-- Left calls among finitely many names can only be followed so often, unless they come back. -/
theorem leftCall_wellFoundedOn (h : ∀ target, ¬ Relation.TransGen store.LeftCall target target) :
    {target | target ∈ store.registered}.WellFoundedOn
      fun target target' => Relation.TransGen store.LeftCall target' target := by
  have hstrict : IsStrictOrder Ref
      fun target target' => Relation.TransGen store.LeftCall target' target :=
    { irrefl := h
      trans := fun _ _ _ h h' => h'.trans h }
  exact (List.finite_toSet store.registered).wellFoundedOn

/-- Without a cycle of left calls every match ends with an outcome. The induction is on what is left
of the text, then on the left calls, and then on the rule. -/
theorem exists_matchAt_of_acyclic {store : Store}
    (h : ∀ target, ¬ Relation.TransGen store.LeftCall target target) (rule : Rule)
    (input : Array Char) (position : Nat) :
    ∃ o log, store.matchAt rule input position = .ends o log := by
  suffices hends : store.matchAt rule input position ≠ .endless by
    cases hrun : store.matchAt rule input position with
    | endless => exact absurd hrun hends
    | ends o log => exact ⟨o, log, rfl⟩
  induction hleft : input.size - position using Nat.strongRecOn generalizing rule position with
  | _ left ih =>
    have hbeyond : store.EndsBeyond input position := by
      intro later hlt hle rule
      exact ih (input.size - later) (by omega) rule later rfl
    have href : ∀ target, store.matchAt (.ref target) input position ≠ .endless := by
      intro target
      -- Left calls are well founded among the registered names, and others lead nowhere.
      apply matchAt_ref_ne_endless
      intro body hres
      refine (leftCall_wellFoundedOn h).induction
        (P := fun target => store.matchAt (.ref target) input position ≠ .endless)
        (mem_registered hres) ?_
      intro target _ ihcalls
      apply matchAt_ref_ne_endless
      intro body hres
      rw [matchAt_ref_of_ok hres]
      apply matchAt_ne_endless hbeyond body
      intro target' hcall
      apply matchAt_ref_ne_endless
      intro body' hres'
      have hleft : store.LeftCall target target' := ⟨body, hres, hcall, body', hres'⟩
      exact ihcalls target' (mem_registered hres') (.single hleft)
    exact matchAt_ne_endless hbeyond rule fun target _ => href target

/-- Names that call only names of smaller rank on the left do not call themselves. -/
theorem acyclic_of_rank (rank : Ref → Nat)
    (h : ∀ target target', store.LeftCall target target' → rank target' < rank target)
    (target : Ref) : ¬ Relation.TransGen store.LeftCall target target := by
  have hrank : ∀ {target target'}, Relation.TransGen store.LeftCall target target' →
      rank target' < rank target := by
    intro target target' hcalls
    induction hcalls with
    | single hcall => exact h _ _ hcall
    | tail _ hcall ih => exact (h _ _ hcall).trans ih
  exact fun hcycle => lt_irrefl _ (hrank hcycle)

/-- Words and blanks: `blank <- (!'x' ' '?)*` and `word <- (blank* 'x'+ word?)`. A blank may be
empty, and it is repeated before each word. -/
def words : Store :=
  ⟨#[some ⟨((∅ : Std.ExtTreeMap String (Option Rule)).insert "blank" (some blank)).insert
    "word" (some word)⟩]⟩
where
  /-- The rule of `blank`. -/
  blank : Rule := .star (.seq [.not (.char 'x'), .opt (.char ' ')])
  /-- The rule of `word`. -/
  word : Rule := .seq [.star (.ref ⟨0, "blank"⟩), .plus (.char 'x'), .opt (.ref ⟨0, "word"⟩)]

theorem resolve_words {target : Ref} {rule : Rule} (h : words.resolve target = .ok rule) :
    (target.name = "word" ∧ rule = words.word) ∨
      (target.name = "blank" ∧ rule = words.blank) := by
  obtain ⟨g, hg, hrule⟩ := resolve_eq_ok_iff.mp h
  simp only [words, grammar?, List.getElem?_toArray, List.getElem?_singleton] at hg
  -- There is one grammar, and the name is looked up among the later insertions first.
  split at hg
  · obtain rfl := Option.some.inj hg
    simp only [Grammar.rule?, Std.ExtTreeMap.getElem?_insert, Std.LawfulEqCmp.compare_eq_iff_eq,
      Std.ExtTreeMap.getElem?_empty] at hrule
    split at hrule
    · rename_i hname
      exact Or.inl ⟨hname.symm, (Option.some.inj hrule).symm⟩
    · split at hrule
      · rename_i hname
        exact Or.inr ⟨hname.symm, (Option.some.inj hrule).symm⟩
      · cases hrule
  · cases hg

/-- The first `x` of a word is tried after blanks only, and blanks call nothing. -/
theorem words_acyclic (target : Ref) : ¬ Relation.TransGen words.LeftCall target target := by
  refine acyclic_of_rank (fun target => if target.name = "word" then 1 else 0) ?_ target
  rintro target target' ⟨rule, hres, hcalls, -⟩
  rcases resolve_words hres with ⟨hname, rfl⟩ | ⟨-, rfl⟩
  · -- `'x'+` is not nullable, so the reference to `word` after it is not on the left.
    simp only [words.word, leftCalls_seq_cons_iff, leftCalls_star_iff, leftCalls_plus_iff,
      leftCalls_ref_iff, not_leftCalls_char, nullable_plus_iff, not_nullable_char, false_and,
      or_false, and_false] at hcalls
    subst hcalls
    simp [hname]
  · simp [words.blank, leftCalls_seq_cons_iff] at hcalls

/-- Repetitions of a blank, which may be empty, end within a repetition that may be empty too. -/
theorem exists_matchAt_words :
    (∀ target, ¬ Relation.TransGen words.LeftCall target target) ∧
      ∃ o log, words.matchAt (.plus (.star (.opt (.ref ⟨0, "word"⟩))))
        #[' ', 'x', 'x', ' ', ' ', 'x', ' ', 'y'] 0 = .ends o log :=
  ⟨words_acyclic, exists_matchAt_of_acyclic words_acyclic _ _ _⟩

end Store

end Peg
