import Peg.Proofs.Registry

/-!
# The order in which a grammar is built

References may be made and rules may be defined in any order, as long as several definitions of one
name keep theirs. The grammar that comes of it is the same: it has registered the names that were
mentioned, and it has the first definition of each. So it does not matter either whether a rule is
defined before those that refer to it, after them, or between them.

The listings of a grammar do not depend on the order in which its names are found, as they are
sorted.

## Main definitions

* `sortedNames` — names collected in any order, and sorted
* `Edit.defines` — the edits that define a given name

## Main results

* `Store.replay_eq_of_perm` — the order of calls on grammars that stay in place
* `sortedNames_eq` — the order in which names are found
* `Session.afterEdits_eq_of_perm` — the order of edits
-/

namespace Peg

/-! ### The order of calls -/

theorem Grammar.replay_eq_of_perm {calls calls' : List Change} (hperm : calls.Perm calls')
    (hfirst : ∀ target, firstDefinition target calls = firstDefinition target calls') (g : Grammar)
    (id : GrammarId) : g.replay id calls = g.replay id calls' := by
  apply Grammar.ext
  · intro name
    rw [Bool.eq_iff_iff, isRegistered_replay, isRegistered_replay]
    simp only [hperm.mem_iff]
  · intro name
    rw [rule?_replay, rule?_replay, hfirst]

/-- Calls may change places if the first definition of each name stays the first. -/
theorem Store.replay_eq_of_perm {calls calls' : List Change} (hwithin : ∀ c ∈ calls, c.Within)
    (hperm : calls.Perm calls')
    (hfirst : ∀ target, firstDefinition target calls = firstDefinition target calls')
    (store : Store) : store.replay calls = store.replay calls' := by
  have hwithin' : ∀ c ∈ calls', c.Within := fun c hc => hwithin c (hperm.mem_iff.mpr hc)
  apply Store.ext
  · rw [nextId_replay_of_within hwithin, nextId_replay_of_within hwithin']
  · intro id
    rw [grammar?_replay_of_within hwithin, grammar?_replay_of_within hwithin']
    simp only [Grammar.replay_eq_of_perm hperm hfirst]

/-! ### The order of names -/

/-- The names of the slots that `keep` accepts, sorted. The slots may stand in any order. -/
def sortedNames (keep : Option Rule → Bool) (slots : List (String × Option Rule)) : List String :=
  (slots.filterMap fun slot => if keep slot.2 then some slot.1 else none).mergeSort

/-- However the slots are found, sorting gives the names in the order of the grammar. -/
theorem sortedNames_eq {g : Grammar} {slots : List (String × Option Rule)}
    (hslots : slots.Perm g.slots.toList) (keep : Option Rule → Bool) :
    sortedNames keep slots = g.namesWith keep := by
  have hperm : (sortedNames keep slots).Perm (g.namesWith keep) :=
    (List.mergeSort_perm _ _).trans (hslots.filterMap _)
  have hsorted : (sortedNames keep slots).Pairwise (· ≤ ·) := by
    have htrans : ∀ a b c : String, decide (a ≤ b) = true → decide (b ≤ c) = true →
        decide (a ≤ c) = true := by
      intro a b c h h'
      exact decide_eq_true (Std.le_trans (of_decide_eq_true h) (of_decide_eq_true h'))
    have htotal : ∀ a b : String, (decide (a ≤ b) || decide (b ≤ a)) = true := by
      intro a b
      rw [Bool.or_eq_true, decide_eq_true_iff, decide_eq_true_iff]
      exact Std.le_total
    exact (List.pairwise_mergeSort htrans htotal _).imp of_decide_eq_true
  have hascend : (g.namesWith keep).Pairwise (· ≤ ·) := (g.namesWith_pairwise keep).imp Std.le_of_lt
  exact hperm.eq_of_pairwise (fun _ _ _ _ => Std.le_antisymm) hsorted hascend

/-! ### The order of edits -/

/-- The edit defines `name`. -/
def Edit.defines (name : String) : Edit → Bool
  | .define _ name' _ => name' == name
  | _ => false

namespace Session

variable {s : Session} {edits edits' : List Edit}

/-- Which calls an edit makes depends on the names of the grammars only. -/
theorem changesOf_of_handles {s' : Session} (h : s'.handles = s.handles) :
    s'.changesOf = s.changesOf := by
  have hlocate : s'.locate = s.locate := by
    funext grammar
    rw [locate, locate, h]
  funext edit
  cases edit <;> simp only [changesOf, drops, registers, hlocate]

/-- Edits that refer and define change nothing but the store, and each makes the same calls
whichever came before it. -/
theorem afterEdits_of_builds (h : ∀ edit ∈ edits, edit.Builds) :
    s.afterEdits edits = { s with store := s.store.replay (edits.flatMap s.changesOf) } := by
  induction edits generalizing s with
  | nil => rfl
  | cons edit rest ih =>
    obtain ⟨hedit, hrest⟩ := List.forall_mem_cons.mp h
    rw [afterEdits_cons, ih hrest, changesOf_of_handles (handles_edit hedit.keepsNames),
      edit_of_builds hedit, List.flatMap_cons, Store.replay_append]

/-- Only an edit that defines the name makes a call that defines it. -/
theorem firstDefinition_changesOf {edit : Edit} {target : Ref}
    (h : edit.defines target.name = false) :
    firstDefinition target (s.changesOf edit) = none := by
  rw [firstDefinition, List.findSome?_eq_none_iff]
  intro c hc
  cases makes_of_mem_changesOf hc with
  | define hlocate =>
    apply if_neg
    rintro rfl
    exact absurd rfl (ne_of_beq_false h)
  | _ => rfl

/-- So the other edits can be left out when the first definition of a name is looked for. -/
theorem firstDefinition_flatMap (s : Session) (edits : List Edit) (target : Ref) :
    firstDefinition target (edits.flatMap s.changesOf) =
      firstDefinition target ((edits.filter (·.defines target.name)).flatMap s.changesOf) := by
  induction edits with
  | nil => rfl
  | cons edit rest ih =>
    rw [List.flatMap_cons, firstDefinition_append, ih]
    cases hdefines : edit.defines target.name with
    | false =>
      rw [List.filter_cons_of_neg (by rw [hdefines]; exact Bool.false_ne_true),
        firstDefinition_changesOf hdefines, Option.none_or]
    | true =>
      rw [List.filter_cons_of_pos hdefines, List.flatMap_cons, firstDefinition_append]

/-- Edits that refer and define may change places, as long as those that define one name keep their
order. The session that comes of them is the same, so all questions have the same answers. That the
grammar keeps its names sorted is no restriction: whatever the order in which the names are found,
sorting them gives the same names, the same fault and the same text. -/
theorem afterEdits_eq_of_perm (s : Session) (hbuilds : ∀ edit ∈ edits, edit.Builds)
    (hperm : edits.Perm edits')
    (hdefines : ∀ name, edits.filter (·.defines name) = edits'.filter (·.defines name)) :
    s.afterEdits edits = s.afterEdits edits' ∧
    ∀ (g : Grammar) slots, slots.Perm g.slots.toList →
      sortedNames (·.isSome) slots = g.names ∧
      (match (sortedNames (·.isNone) slots).head? with
        | some name => .error (.undefinedRule name)
        | none => .ok ()) = g.check ∧
      ['\n'].intercalate ((sortedNames (·.isSome) slots).filterMap fun name =>
        (g.rule? name).map (Grammar.renderDefinition name)) = g.render := by
  constructor
  · have hbuilds' : ∀ edit ∈ edits', edit.Builds := fun edit h => hbuilds edit (hperm.mem_iff.mpr h)
    have hwithin : ∀ c ∈ edits.flatMap s.changesOf, c.Within := by
      intro c hc
      obtain ⟨edit, hedit, hc⟩ := List.mem_flatMap.mp hc
      exact within_of_mem_changesOf (hbuilds edit hedit).keepsNames c hc
    have hfirst : ∀ target, firstDefinition target (edits.flatMap s.changesOf) =
        firstDefinition target (edits'.flatMap s.changesOf) := by
      intro target
      rw [firstDefinition_flatMap s edits, firstDefinition_flatMap s edits', hdefines]
    rw [afterEdits_of_builds hbuilds, afterEdits_of_builds hbuilds',
      Store.replay_eq_of_perm hwithin (hperm.flatMap_right _) hfirst]
  · intro g slots hslots
    rw [sortedNames_eq hslots, sortedNames_eq hslots, g.render_eq, g.names_eq_namesWith]
    refine ⟨rfl, ?_, rfl⟩
    rw [Grammar.check, g.undefinedNames_eq_namesWith]
    cases g.namesWith (·.isNone) <;> rfl

/-- Two rules that refer to each other, `a` before `b`. A second definition of `a` is refused. -/
def forward : List Edit :=
  [.define "main" "a" (.pair (.char 'x') (.opt (.ref "main" "b"))),
    .define "main" "b" (.pair (.char 'y') (.opt (.ref "main" "a"))),
    .refer "main" "c", .define "main" "a" (.char 'z')]

/-- The same edits with `b` before `a`. -/
def backward : List Edit :=
  [.define "main" "b" (.pair (.char 'y') (.opt (.ref "main" "a"))),
    .define "main" "a" (.pair (.char 'x') (.opt (.ref "main" "b"))),
    .define "main" "a" (.char 'z'), .refer "main" "c"]

/-- In either order the first definition of `a` is kept, the two rules refer to each other, and the
name that was only mentioned is found to have no definition. -/
theorem afterEdits_forward :
    initial.afterEdits forward = initial.afterEdits backward ∧
    ∃ g, (initial.afterEdits backward).grammar? "main" = some g ∧ g.names = ["a", "b"] ∧
      g.rule? "a" = some (.pair (.char 'x') (.opt (.ref ⟨0, "b"⟩))) ∧
      g.rule? "b" = some (.pair (.char 'y') (.opt (.ref ⟨0, "a"⟩))) ∧
      g.check = .error (.undefinedRule "c") := by
  have hbuilds : ∀ edit ∈ forward, edit.Builds := by
    simp [forward, Edit.Builds]
  have hperm : forward.Perm backward :=
    (List.Perm.swap _ _ _).trans (((List.Perm.swap _ _ []).cons _).cons _)
  have hdefines : ∀ name, forward.filter (·.defines name) = backward.filter (·.defines name) := by
    intro name
    by_cases ha : "a" = name
    · subst ha
      rfl
    · simp [forward, backward, List.filter_cons, Edit.defines, ha]
  have hsame := (afterEdits_eq_of_perm initial hbuilds hperm hdefines).1
  -- The grammar is read off one order, and it is the grammar of the other one as well.
  refine ⟨hsame, ?_⟩
  rw [← hsame]
  exact ⟨_, rfl, by decide, rfl, rfl, by decide⟩

end Session

end Peg
