import Peg.Proofs.Depth
import Peg.Proofs.Parts
import Peg.Proofs.References

/-!
# Rules with their references replaced

A reference into a grammar that was dropped matches nothing and is logged. So once a grammar is
dropped, the rules that are left match as if a rule that matches nothing stood in the place of each
reference into it, both in the rule that is matched and in all rules to which it leads. Only the
entries about these references are missing then.

To replace references in a rule is the same as to give another meaning to them. The two stores are
compared by what their references mean at each depth: the one whose references are replaced is ahead
of the other, but by no more than one step.

## Main definitions

* `Rule.subst` — the rule with its references replaced by rules
* `Rule.within` — the rule with its references read in another grammar
* `Run.filterLog` — the run with some entries of the log left out
* `Rule.sever`, `Store.sever` — with all references into one grammar replaced

## Main results

* `Rule.matchWith_subst` — replacing references changes what references mean
* `Rule.matchWith_filterLog` — entries can be left out before or after matching
* `Store.matchAt_sever` — a grammar that is dropped is as good as cut off
-/

namespace Peg

variable {ε α β : Type} {input : Array Char}

/-! ### Replacing references -/

namespace Rule

mutual

/-- The rule with `f target` in the place of each reference `target`. -/
def subst (f : Ref → Rule) : Rule → Rule
  | .char c => .char c
  | .range low high => .range low high
  | .string chars => .string chars
  | .seq parts => .seq (substAll f parts)
  | .pair left right => .pair (subst f left) (subst f right)
  | .choice alternatives => .choice (substAll f alternatives)
  | .not operand => .not (subst f operand)
  | .star operand => .star (subst f operand)
  | .plus operand => .plus (subst f operand)
  | .opt operand => .opt (subst f operand)
  | .ref target => f target

/-- Several rules with their references replaced. -/
def substAll (f : Ref → Rule) : List Rule → List Rule
  | [] => []
  | rule :: rest => subst f rule :: substAll f rest

end

theorem substAll_eq_map (f : Ref → Rule) (rules : List Rule) :
    substAll f rules = rules.map (·.subst f) := by
  induction rules with
  | nil => rfl
  | cons rule rest ih => rw [substAll, ih, List.map_cons]

/-- The rule with all its references read in the grammar `id`. -/
def within (rule : Rule) (id : GrammarId) : Rule :=
  rule.subst fun target => .ref ⟨id, target.name⟩

/-- A rule whose references are replaced matches as the rule itself does where each reference means
what stands in its place. -/
theorem matchWith_subst (f : Ref → Rule) (call : Meaning ε) (input : Array Char) (rule : Rule) :
    (rule.subst f).matchWith call input =
      rule.matchWith (fun target => (f target).matchWith call input) input := by
  induction rule with
  | char c => rfl
  | range low high => rfl
  | string chars => rfl
  | seq parts ih =>
    funext position
    rw [subst, substAll_eq_map, matchWith, matchWith, stopOfSeq_congr (matchAlike_map ih)]
  | pair left right ihl ihr => funext position; rw [subst, matchWith, matchWith, ihl, ihr]
  | choice alternatives ih =>
    funext position
    rw [subst, substAll_eq_map, matchWith, matchWith, firstMatch_congr (matchAlike_map ih)]
  | not operand ih => funext position; rw [subst, matchWith, matchWith, ih]
  | star operand ih => funext position; rw [subst, matchWith, matchWith, ih]
  | plus operand ih => funext position; rw [subst, matchWith, matchWith, ih]
  | opt operand ih => funext position; rw [subst, matchWith, matchWith, ih]
  | ref target => rfl

end Rule

/-! ### Leaving entries out -/

namespace Run

/-- The same computation with only those entries in its log that `keep` accepts. -/
def filterLog (keep : ε → Bool) : Run ε α → Run ε α
  | .endless => .endless
  | .ends a log => .ends a (log.filter keep)

variable (keep : ε → Bool)

@[simp] theorem filterLog_endless : (.endless : Run ε α).filterLog keep = .endless := rfl

@[simp] theorem filterLog_ends (a : α) (log : List ε) :
    (.ends a log : Run ε α).filterLog keep = .ends a (log.filter keep) := rfl

@[simp] theorem filterLog_bind (x : Run ε α) (f : α → Run ε β) :
    (x >>= f).filterLog keep = x.filterLog keep >>= fun a => (f a).filterLog keep := by
  cases x with
  | endless => rfl
  | ends a log =>
    rw [ends_bind, filterLog_ends, ends_bind]
    cases f a <;> simp

theorem compositional_filterLog :
    Compositional fun α (x y : Run ε α) => x.filterLog keep = y :=
  compositional_of_bind (fun _ => rfl) (filterLog_bind keep)

theorem always_filterLog {p : α → Prop} {x : Run ε α} :
    (x.filterLog keep).Always p ↔ x.Always p := by
  cases x <;> exact Iff.rfl

end Run

open Run

/-- Matching writes nothing of its own, so it does not matter when entries are left out. -/
theorem Rule.matchWith_filterLog (keep : ε → Bool) (call : Meaning ε) (input : Array Char)
    (rule : Rule) (position : Nat) :
    (rule.matchWith call input position).filterLog keep =
      rule.matchWith (fun target p => (call target p).filterLog keep) input position :=
  rule.matchWith_rel (compositional_filterLog keep) input (fun _ _ _ => rfl) position

/-! ### Cutting a grammar off -/

/-- What stands in the place of a reference: a rule that matches nothing, if the reference leads
into the grammar `id`. -/
def Ref.sever (id : GrammarId) (target : Ref) : Rule :=
  if target.grammar = id then .choice [] else .ref target

/-- The rule with a rule that matches nothing in the place of each reference into the grammar
`id`. -/
def Rule.sever (id : GrammarId) (rule : Rule) : Rule := rule.subst (Ref.sever id)

/-- The grammar with all its rules replaced. -/
def Grammar.mapRules (f : Rule → Rule) (g : Grammar) : Grammar :=
  ⟨g.slots.map fun _ slot => slot.map f⟩

theorem Grammar.rule?_mapRules (f : Rule → Rule) (g : Grammar) (name : String) :
    (g.mapRules f).rule? name = (g.rule? name).map f := by
  rw [rule?, mapRules, Std.ExtTreeMap.getElem?_map, rule?]
  cases g.slots[name]? <;> simp

/-- An entry about a reference into the grammar `id` when that had been dropped. -/
def Miss.isDropped (id : GrammarId) : Miss → Bool
  | .undefined _ => false
  | .dropped target => target.grammar == id

namespace Store

/-- The store with all references into the grammar `id` cut off, in all rules of all grammars. -/
def sever (store : Store) (id : GrammarId) : Store :=
  ⟨store.grammars.map fun slot => slot.map (·.mapRules (.sever id))⟩

variable {store : Store} {id : GrammarId} {target : Ref} {depth : Nat}

theorem grammar?_sever (store : Store) (id id' : GrammarId) :
    (store.sever id).grammar? id' = (store.grammar? id').map (·.mapRules (.sever id)) := by
  rw [grammar?, sever, Array.getElem?_map, grammar?]
  cases store.grammars[id']? <;> simp

/-- Cut-off references aside, what a reference leads to is the same as after the drop. -/
theorem resolve_sever (h : target.grammar ≠ id) :
    (store.sever id).resolve target = ((store.drop id).resolve target).map (.sever id) := by
  rw [resolve, resolve, grammar?_sever, grammar?_drop, if_neg (Ne.symm h)]
  cases hg : store.grammar? target.grammar with
  | none => rfl
  | some g =>
    simp only [Option.map_some, Grammar.rule?_mapRules]
    cases g.rule? target.name <;> rfl

theorem resolve_drop (h : target.grammar = id) :
    (store.drop id).resolve target = .error (.dropped target) := by
  apply resolve_of_dropped
  rw [grammar?_drop, if_pos h.symm]

/-- The entry about a reference names that reference. -/
theorem isDropped_of_resolve {miss : Miss} (h : store.resolve target = .error miss)
    (hne : target.grammar ≠ id) : miss.isDropped id = false := by
  unfold resolve at h
  split at h
  · obtain rfl := Except.error.inj h
    exact beq_false_of_ne hne
  · split at h
    · obtain rfl := Except.error.inj h
      rfl
    · cases h

/-- What references mean after the drop, without the entries about the dropped grammar. -/
def afterDrop (store : Store) (id : GrammarId) (input : Array Char) (depth : Nat) : Meaning Miss :=
  fun target position =>
    ((store.drop id).meaning input depth target position).filterLog (!·.isDropped id)

/-- What stands in the place of references when the grammar is cut off. -/
def afterSever (store : Store) (id : GrammarId) (input : Array Char) (depth : Nat) :
    Meaning Miss :=
  fun target => (target.sever id).matchWith ((store.sever id).meaning input depth) input

theorem afterDrop_spans : (store.afterDrop id input depth).Spans input := by
  intro target position
  rw [afterDrop, always_filterLog]
  exact meaning_spans _ input depth target position

theorem afterSever_spans : (store.afterSever id input depth).Spans input := by
  intro target position
  exact (target.sever id).matchWith_spansAt (meaning_spans _ input depth) position

theorem afterSever_of_eq (h : target.grammar = id) (depth position : Nat) :
    store.afterSever id input depth target position = .ends .noMatch [] := by
  rw [afterSever, Ref.sever, if_pos h]
  rfl

theorem afterSever_of_ne (h : target.grammar ≠ id) (depth position : Nat) :
    store.afterSever id input depth target position =
      (store.sever id).meaning input depth target position := by
  rw [afterSever, Ref.sever, if_neg h, Rule.matchWith]

theorem afterDrop_succ_of_eq (h : target.grammar = id) (depth position : Nat) :
    store.afterDrop id input (depth + 1) target position = .ends .noMatch [] := by
  rw [afterDrop, meaning_succ_of_error (resolve_drop h), filterLog_ends]
  simp [Miss.isDropped, h]

/-- One step of a reference that is not cut off. It leads to the same rule in both stores, or it
leads nowhere and the entry about that is kept. -/
theorem exists_step (store : Store) (input : Array Char) (h : target.grammar ≠ id) :
    (∃ rule : Rule, ∀ depth position,
      store.afterDrop id input (depth + 1) target position =
        rule.matchWith (store.afterDrop id input depth) input position ∧
      store.afterSever id input (depth + 1) target position =
        rule.matchWith (store.afterSever id input depth) input position) ∨
    ∃ miss : Miss, ∀ depth position,
      store.afterDrop id input (depth + 1) target position = .ends .noMatch [miss] ∧
      store.afterSever id input (depth + 1) target position = .ends .noMatch [miss] := by
  have hsever : (store.sever id).resolve target =
      ((store.drop id).resolve target).map (.sever id) := resolve_sever h
  cases hres : (store.drop id).resolve target with
  | ok rule =>
    left
    rw [hres] at hsever
    refine ⟨rule, fun depth position => ⟨?_, ?_⟩⟩
    · rw [afterDrop, meaning_succ_of_ok hres, Rule.matchWith_filterLog]
      rfl
    · rw [afterSever_of_ne h, meaning_succ_of_ok hsever, Rule.sever, Rule.matchWith_subst]
      rfl
  | error miss =>
    right
    rw [hres] at hsever
    refine ⟨miss, fun depth position => ⟨?_, ?_⟩⟩
    · rw [afterDrop, meaning_succ_of_error hres, filterLog_ends]
      simp [isDropped_of_resolve hres h]
    · rw [afterSever_of_ne h, meaning_succ_of_error hsever]

/-- With the grammar cut off, references have at least the outcomes that they have after the
drop. -/
theorem afterDrop_le_afterSever (store : Store) (id : GrammarId) (input : Array Char) (depth : Nat)
    (target : Ref) (position : Nat) :
    store.afterDrop id input depth target position ≤
      store.afterSever id input depth target position := by
  induction depth generalizing target position with
  | zero => exact endless_le _
  | succ depth ih =>
    by_cases h : target.grammar = id
    · rw [afterDrop_succ_of_eq h, afterSever_of_eq h]
    · rcases exists_step store input h with ⟨rule, hstep⟩ | ⟨miss, hstep⟩
      · rw [(hstep depth position).1, (hstep depth position).2]
        exact rule.matchWith_le afterDrop_spans (fun target p _ => ih target p) (.refl _ _)
      · rw [(hstep depth position).1, (hstep depth position).2]

/-- After the drop they have them one step later, as a reference into the dropped grammar takes a
step to find that out. -/
theorem afterSever_le_afterDrop (store : Store) (id : GrammarId) (input : Array Char) (depth : Nat)
    (target : Ref) (position : Nat) :
    store.afterSever id input depth target position ≤
      store.afterDrop id input (depth + 1) target position := by
  induction depth generalizing target position with
  | zero =>
    by_cases h : target.grammar = id
    · rw [afterDrop_succ_of_eq h, afterSever_of_eq h]
    · rw [afterSever_of_ne h]
      exact endless_le _
  | succ depth ih =>
    by_cases h : target.grammar = id
    · rw [afterDrop_succ_of_eq h, afterSever_of_eq h]
    · rcases exists_step store input h with ⟨rule, hstep⟩ | ⟨miss, hstep⟩
      · rw [(hstep depth position).2, (hstep (depth + 1) position).1]
        exact rule.matchWith_le afterSever_spans (fun target p _ => ih target p) (.refl _ _)
      · rw [(hstep depth position).2, (hstep (depth + 1) position).1]

/-- A grammar that is dropped is as good as cut off: what is left matches as if each reference into
it matched nothing, apart from the entries about these references. -/
theorem matchAt_sever (store : Store) (id : GrammarId) (rule : Rule) (input : Array Char)
    (position : Nat) :
    (store.sever id).matchAt (rule.sever id) input position =
      ((store.drop id).matchAt rule input position).filterLog (!·.isDropped id) := by
  -- At this depth both stores have settled.
  obtain ⟨depth, hdrop, hsever⟩ : ∃ depth, (store.drop id).depthLimit input ≤ depth ∧
      (store.sever id).depthLimit input ≤ depth := ⟨_, le_max_left _ _, le_max_right _ _⟩
  have hlast : store.afterDrop id input (depth + 1) = store.afterDrop id input depth := by
    funext target position
    rw [afterDrop, afterDrop, meaning_of_depthLimit_le hdrop,
      meaning_of_depthLimit_le (hdrop.trans (Nat.le_succ depth))]
  have hmeaning : store.afterSever id input depth = store.afterDrop id input depth := by
    funext target position
    apply le_antisymm
    · rw [← hlast]
      exact afterSever_le_afterDrop store id input depth target position
    · exact afterDrop_le_afterSever store id input depth target position
  calc (store.sever id).matchAt (rule.sever id) input position
    _ = rule.matchWith (store.afterSever id input depth) input position := by
        rw [matchAt_eq_of_depthLimit_le hsever, Rule.sever, Rule.matchWith_subst]
        rfl
    _ = rule.matchWith (store.afterDrop id input depth) input position := by rw [hmeaning]
    _ = ((store.drop id).matchAt rule input position).filterLog (!·.isDropped id) := by
        rw [matchAt_eq_of_depthLimit_le hdrop, Rule.matchWith_filterLog]
        rfl

end Store

end Peg
