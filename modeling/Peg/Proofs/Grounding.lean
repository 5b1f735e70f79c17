import Peg.Proofs.Registry
import Peg.Proofs.Description

/-!
# Every reference that exists has been made

A rule can only hold references that were made before it was built. So in every session each
reference in a definition of a grammar, and each in a rule that is kept under a label, is among the
references that the session has made; the slot of its name is registered since then.

Rules of the host that are kept nowhere in the session are covered by the same notion: a rule
*is made in* a history if all references in it are.

## Main definitions

* `Rule.MadeIn` — all references in the rule have been made
* `Session.Grounded` — the rules of a session are made in its history

## Main results

* `Session.Grounded.afterEdits`, `Session.grounded_afterEdits` — every run keeps a session grounded
* `Session.Grounded.madeIn_of_resolve` — what a reference leads to is made in the history as well
-/

namespace Peg

/-- All references in the rule have been made. -/
def Rule.MadeIn (rule : Rule) (calls : List Change) : Prop :=
  ∀ target ∈ rule.refs, .register target ∈ calls

theorem Rule.MadeIn.mono {rule : Rule} {calls calls' : List Change} (h : rule.MadeIn calls)
    (hsub : calls ⊆ calls') : rule.MadeIn calls' :=
  fun target htarget => hsub (h target htarget)

/-! ### Sessions -/

namespace Session

variable {s : Session} {calls : List Change} {edit : Edit} {target : Ref} {rule : Rule}

/-- The rules of the session are made in its history: those that were to be defined, be they
accepted or not, and those that are kept under labels. -/
structure Grounded (s : Session) (calls : List Change) : Prop extends s.HasHistory calls where
  defined : ∀ {target : Ref} {rule : Rule}, .define target rule ∈ calls → rule.MadeIn calls
  held : ∀ {label : String} {rule : Rule}, s.held[label]? = some rule → rule.MadeIn calls

/-- An edit makes the references in a rule before it asks for its definition. -/
theorem madeIn_of_mem_changesOf (h : .define target rule ∈ s.changesOf edit) :
    rule.MadeIn (s.changesOf edit) := by
  -- Only the last call of an edit that defines is a definition.
  have hregisters : ∀ blueprint, .define target rule ∉ s.registers blueprint := by
    intro blueprint hmem
    obtain ⟨_, -, hcall⟩ := List.mem_map.mp hmem
    cases hcall
  have hdrops : ∀ grammar, .define target rule ∉ s.drops grammar := by
    intro grammar hmem
    obtain ⟨_, -, hcall⟩ := List.mem_map.mp hmem
    cases hcall
  cases edit with
  | create grammar =>
    rw [changesOf, List.mem_append, List.mem_singleton] at h
    rcases h with h | h
    · exact absurd h (hdrops grammar)
    · cases h
  | drop grammar => exact absurd h (hdrops grammar)
  | refer grammar name => exact absurd h (hregisters _)
  | define grammar name blueprint =>
    rw [changesOf] at h ⊢
    split at h
    · cases h
    · exact absurd h (hregisters _)
    · rename_i id built hlocate hresult
      rw [List.mem_append, List.mem_singleton] at h
      rcases h with h | h
      · exact absurd h (hregisters _)
      · obtain ⟨-, rfl⟩ := Change.define.inj h
        intro target' htarget'
        rw [← Blueprint.refs_build hresult] at htarget'
        exact List.mem_append_left _ (List.mem_map_of_mem htarget')
  | hold label blueprint => exact absurd h (hregisters _)

/-- A rule that is kept after an edit was kept before, or its references were made by the edit. -/
theorem held_edit {label : String} (h : (s.edit edit).1.held[label]? = some rule) :
    s.held[label]? = some rule ∨ rule.MadeIn (s.changesOf edit) := by
  cases edit with
  | create grammar => exact Or.inl h
  | drop grammar =>
    left
    rw [Session.edit, drop] at h
    cases hlocate : s.locate grammar with
    | none => rw [hlocate] at h; exact h
    | some id => rw [hlocate] at h; exact h
  | refer grammar name =>
    have hbuilds : (Edit.refer grammar name).Builds := trivial
    rw [edit_of_builds hbuilds] at h
    exact Or.inl h
  | define grammar name blueprint =>
    have hbuilds : (Edit.define grammar name blueprint).Builds := trivial
    rw [edit_of_builds hbuilds] at h
    exact Or.inl h
  | hold label' blueprint =>
    rw [Session.edit, build] at h
    cases hresult : (blueprint.build s.locate).result with
    | error fault => rw [hresult] at h; exact Or.inl h
    | ok built =>
      rw [hresult] at h
      dsimp only at h
      rw [Std.ExtTreeMap.getElem?_insert] at h
      split at h
      · obtain rfl := Option.some.inj h
        right
        intro target htarget
        rw [← Blueprint.refs_build hresult] at htarget
        exact List.mem_map_of_mem htarget
      · exact Or.inl h

theorem Grounded.afterEdit (h : s.Grounded calls) (hsound : s.Sound) (edit : Edit) :
    (s.edit edit).1.Grounded (calls ++ s.changesOf edit) where
  toHasHistory := by
    have hhistory := h.toHasHistory.afterEdits hsound [edit]
    rwa [changes, changes, List.append_nil] at hhistory
  defined := by
    intro target rule hmem
    rcases List.mem_append.mp hmem with hmem | hmem
    · exact (h.defined hmem).mono (List.subset_append_left _ _)
    · exact (madeIn_of_mem_changesOf hmem).mono (List.subset_append_right _ _)
  held := by
    intro label rule hheld
    rcases held_edit hheld with hheld | hmade
    · exact (h.held hheld).mono (List.subset_append_left _ _)
    · exact hmade.mono (List.subset_append_right _ _)

/-- Edits keep a session grounded. -/
theorem Grounded.afterEdits (h : s.Grounded calls) (hsound : s.Sound) (edits : List Edit) :
    (s.afterEdits edits).Grounded (calls ++ s.changes edits) := by
  induction edits generalizing s calls with
  | nil => rwa [changes, List.append_nil]
  | cons edit rest ih =>
    rw [afterEdits_cons, changes, ← List.append_assoc]
    exact ih (h.afterEdit hsound edit) (hsound.afterEdit edit)

/-- In every run each reference that exists has been made. -/
theorem grounded_afterEdits (edits : List Edit) :
    (initial.afterEdits edits).Grounded (history edits) := by
  have hinitial : initial.Grounded [.create] := by
    refine ⟨hasHistory_afterEdits [], ?_, ?_⟩
    · intro target rule hmem
      cases List.mem_singleton.mp hmem
    · intro label rule hheld
      simp [initial] at hheld
  exact hinitial.afterEdits sound_initial edits

/-- What a reference leads to has been made from references as well. -/
theorem Grounded.madeIn_of_resolve (h : s.Grounded calls)
    (hresolve : s.store.resolve target = .ok rule) : rule.MadeIn calls := by
  obtain ⟨g, hg, hrule⟩ := Store.resolve_eq_ok_iff.mp hresolve
  rw [h.rule?_eq hg] at hrule
  obtain ⟨c, hc, hdefinition⟩ := List.exists_of_findSome?_eq_some hrule
  rw [Change.eq_define_of_definition? hdefinition] at hc
  exact h.defined hc

end Session

end Peg
