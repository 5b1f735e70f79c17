import Peg.Proofs.History
import Peg.Session

/-!
# What a session remembers of its history

An edit of a session makes a number of calls on its store. To create a grammar under a name that is
taken, it drops a grammar first; to define a rule, it makes the references in the rule before. So
the store of a session is known from the calls that its edits have made. They are listed here, and
what is known of histories of stores applies to them.

In a session every name has a grammar of its own: it exists, and no other name has it. Edits keep
this, and it is the reason why each call finds the grammar that it works on.

## Main definitions

* `Session.changesOf`, `Session.changes` — the calls that an edit makes, and those of several edits
* `Session.Makes` — the calls that an edit may make at all
* `Session.Sound` — every name has a grammar of its own
* `Session.HasHistory` — the calls that have made the store of a session
* `Session.history` — all calls of a run, from the one that creates the first grammar on

## Main results

* `Session.store_afterEdits` — the store is what the calls have made of it
* `Session.Sound.afterEdit` — edits keep a session sound
* `Session.hasHistory_afterEdits` — every run has a history
-/

namespace Peg

/-! ### References of a blueprint -/

theorem Built.mem_refs_andThen {α β : Type} {first : Built α} {next : α → Built β} {target : Ref} :
    target ∈ (first.andThen next).refs ↔
      target ∈ first.refs ∨ ∃ a, first.result = .ok a ∧ target ∈ (next a).refs := by
  unfold Built.andThen
  cases first.result <;> simp

namespace Blueprint

variable {locate : String → Option GrammarId}

mutual

/-- References are made in grammars that have a name. -/
theorem exists_locate_of_mem_refs (blueprint : Blueprint) :
    ∀ target ∈ (blueprint.build locate).refs, ∃ name, locate name = some target.grammar := by
  intro target h
  cases blueprint with
  | char c => rw [build] at h; cases h
  | range low high => rw [build] at h; cases h
  | anyRange low high => rw [build] at h; cases h
  | string chars => rw [build] at h; cases h
  | seq parts => rw [build] at h; exact exists_locate_of_mem_refs_all parts target h
  | pair left right =>
    rw [build, Built.mem_refs_andThen] at h
    obtain h | ⟨a, -, h⟩ := h
    · exact exists_locate_of_mem_refs left target h
    · exact exists_locate_of_mem_refs right target h
  | choice alternatives =>
    rw [build] at h; exact exists_locate_of_mem_refs_all alternatives target h
  | anyChoice alternatives =>
    rw [build] at h; exact exists_locate_of_mem_refs_all alternatives target h
  | not operand => rw [build] at h; exact exists_locate_of_mem_refs operand target h
  | star operand => rw [build] at h; exact exists_locate_of_mem_refs operand target h
  | plus operand => rw [build] at h; exact exists_locate_of_mem_refs operand target h
  | opt operand => rw [build] at h; exact exists_locate_of_mem_refs operand target h
  | ref grammar name =>
    rw [build] at h
    cases hlocate : locate grammar with
    | none => rw [hlocate] at h; cases h
    | some id =>
      rw [hlocate] at h
      obtain rfl := List.mem_singleton.mp h
      exact ⟨grammar, hlocate⟩

theorem exists_locate_of_mem_refs_all (blueprints : List Blueprint) :
    ∀ target ∈ (buildAll locate blueprints).refs, ∃ name, locate name = some target.grammar := by
  intro target h
  cases blueprints with
  | nil => rw [buildAll] at h; cases h
  | cons blueprint rest =>
    rw [buildAll, Built.mem_refs_andThen] at h
    obtain h | ⟨a, -, h⟩ := h
    · exact exists_locate_of_mem_refs blueprint target h
    · exact exists_locate_of_mem_refs_all rest target h

end

end Blueprint

/-! ### The calls of a session -/

namespace Session

/-- The call that drops the grammar of a name, if there is one. -/
def drops (s : Session) (grammar : String) : List Change :=
  (s.locate grammar).toList.map .drop

/-- The calls that make the references of a blueprint. -/
def registers (s : Session) (blueprint : Blueprint) : List Change :=
  (blueprint.build s.locate).refs.map .register

/-- The calls that an edit makes, in this order. -/
def changesOf (s : Session) : Edit → List Change
  | .create grammar => s.drops grammar ++ [.create]
  | .drop grammar => s.drops grammar
  | .refer grammar name => s.registers (.ref grammar name)
  | .define grammar name blueprint =>
    match s.locate grammar, (blueprint.build s.locate).result with
    | none, _ => []
    | some _, .error _ => s.registers blueprint
    -- The definition comes last, and it is asked for only if the rule was built.
    | some id, .ok rule => s.registers blueprint ++ [.define ⟨id, name⟩ rule]
  | .hold _ blueprint => s.registers blueprint

/-- The calls that several edits make one after another. -/
def changes (s : Session) : List Edit → List Change
  | [] => []
  | edit :: rest => s.changesOf edit ++ (s.edit edit).1.changes rest

theorem afterEdits_cons (s : Session) (edit : Edit) (rest : List Edit) :
    s.afterEdits (edit :: rest) = (s.edit edit).1.afterEdits rest := rfl

theorem store_build (s : Session) (blueprint : Blueprint) :
    (s.build blueprint).1.store = s.store.replay (s.registers blueprint) := by
  rw [registers, Store.replay, List.foldl_map]
  rfl

theorem store_create (s : Session) (grammar : String) :
    (s.create grammar).store = s.store.replay (s.drops grammar ++ [.create]) := by
  rw [create, drops]
  cases s.locate grammar <;> rfl

theorem store_drop (s : Session) (grammar : String) :
    (s.drop grammar).1.store = s.store.replay (s.drops grammar) := by
  rw [drop, drops]
  cases s.locate grammar <;> rfl

theorem store_define (s : Session) (target : Ref) (rule : Rule) :
    (s.define target rule).1.store = s.store.change (.define target rule) := by
  rw [define, Store.change]
  cases s.store.define target rule <;> rfl

/-- The store after an edit is what its calls have made of it. -/
theorem store_edit (s : Session) (edit : Edit) :
    (s.edit edit).1.store = s.store.replay (s.changesOf edit) := by
  cases edit with
  | create grammar => exact store_create s grammar
  | drop grammar => exact store_drop s grammar
  | refer grammar name =>
    rw [changesOf, ← store_build, Session.edit, build]
    cases ((Blueprint.ref grammar name).build s.locate).result <;> rfl
  | define grammar name blueprint =>
    rw [changesOf, Session.edit]
    cases s.locate grammar with
    | none => rfl
    | some id =>
      have hbuild := store_build s blueprint
      rw [build] at hbuild ⊢
      cases (blueprint.build s.locate).result with
      | error fault => exact hbuild
      | ok rule =>
        dsimp only
        rw [store_define, hbuild, Store.replay_append]
        rfl
  | hold label blueprint =>
    rw [changesOf, ← store_build, Session.edit, build]
    cases (blueprint.build s.locate).result <;> rfl

theorem store_afterEdits (s : Session) (edits : List Edit) :
    (s.afterEdits edits).store = s.store.replay (s.changes edits) := by
  induction edits generalizing s with
  | nil => rfl
  | cons edit rest ih =>
    rw [afterEdits_cons, ih, store_edit, changes, Store.replay_append]

/-! ### Names and grammars -/

theorem locate_create (s : Session) (grammar name : String) :
    (s.create grammar).locate name =
      if grammar = name then some s.store.nextId else s.locate name := by
  rw [locate, create, Std.ExtTreeMap.getElem?_insert]
  cases s.locate grammar <;> simp [locate]

theorem locate_drop (s : Session) (grammar name : String) :
    (s.drop grammar).1.locate name = if grammar = name then none else s.locate name := by
  rw [drop]
  cases hlocate : s.locate grammar with
  | none =>
    by_cases heq : grammar = name
    · rw [if_pos heq, ← heq, hlocate]
    · rw [if_neg heq]
  | some id => simp [locate, Std.ExtTreeMap.getElem?_erase]

/-- The grammars after the one of a name was dropped. -/
theorem grammar?_drops (s : Session) (grammar : String) (id : GrammarId) :
    (s.store.replay (s.drops grammar)).grammar? id =
      if s.locate grammar = some id then none else s.store.grammar? id := by
  rw [drops]
  cases s.locate grammar with
  | none => simp
  | some id' => simp [Store.change, Store.grammar?_drop]

theorem nextId_drops (s : Session) (grammar : String) :
    (s.store.replay (s.drops grammar)).nextId = s.store.nextId := by
  rw [drops]
  cases s.locate grammar with
  | none => rfl
  | some id => exact Store.nextId_drop s.store id

theorem grammar?_create (s : Session) (grammar : String) (id : GrammarId) :
    (s.create grammar).store.grammar? id =
      if id = s.store.nextId then some .empty
      else if s.locate grammar = some id then none else s.store.grammar? id := by
  rw [store_create, Store.replay_append, Store.replay_cons, Store.replay_nil, Store.change,
    Store.grammar?_create, nextId_drops, grammar?_drops]

end Session

namespace Edit

/-- The edit refers to a name or defines one. -/
def Builds : Edit → Prop
  | .refer _ _ => True
  | .define _ _ _ => True
  | _ => False

/-- The edit neither makes nor drops a grammar. -/
def KeepsNames : Edit → Prop
  | .create _ => False
  | .drop _ => False
  | _ => True

theorem Builds.keepsNames {edit : Edit} (h : edit.Builds) : edit.KeepsNames := by
  cases edit with
  | refer grammar name => trivial
  | define grammar name blueprint => trivial
  | _ => cases h

end Edit

namespace Session

variable {s : Session} {edit : Edit}

/-- Referring and defining change nothing but grammars. -/
theorem edit_of_builds (h : edit.Builds) :
    (s.edit edit).1 = { s with store := s.store.replay (s.changesOf edit) } := by
  rw [← store_edit]
  cases edit with
  | refer grammar name =>
    rw [Session.edit, build]
    cases ((Blueprint.ref grammar name).build s.locate).result <;> rfl
  | define grammar name blueprint =>
    rw [Session.edit, build]
    cases s.locate grammar with
    | none => rfl
    | some id =>
      cases (blueprint.build s.locate).result with
      | error fault => rfl
      | ok rule =>
        dsimp only
        rw [define]
        split <;> rfl
  | _ => cases h

theorem handles_edit (h : edit.KeepsNames) : (s.edit edit).1.handles = s.handles := by
  cases edit with
  | create grammar => cases h
  | drop grammar => cases h
  | refer grammar name =>
    have hbuilds : (Edit.refer grammar name).Builds := trivial
    rw [edit_of_builds hbuilds]
  | define grammar name blueprint =>
    have hbuilds : (Edit.define grammar name blueprint).Builds := trivial
    rw [edit_of_builds hbuilds]
  | hold label blueprint =>
    rw [Session.edit, build]
    cases (blueprint.build s.locate).result <;> rfl

/-- The calls that an edit may make, with the names of the grammars that they work on. -/
inductive Makes (s : Session) : Edit → Change → Prop where
  | create {grammar : String} : Makes s (.create grammar) .create
  | replace {grammar : String} {id : GrammarId} (hlocate : s.locate grammar = some id) :
    Makes s (.create grammar) (.drop id)
  | drop {grammar : String} {id : GrammarId} (hlocate : s.locate grammar = some id) :
    Makes s (.drop grammar) (.drop id)
  | register {edit : Edit} {grammar : String} {target : Ref}
    (hlocate : s.locate grammar = some target.grammar) : Makes s edit (.register target)
  | define {grammar name : String} {blueprint : Blueprint} {id : GrammarId} {rule : Rule}
    (hlocate : s.locate grammar = some id) :
    Makes s (.define grammar name blueprint) (.define ⟨id, name⟩ rule)

theorem makes_of_mem_changesOf {c : Change} (h : c ∈ s.changesOf edit) : s.Makes edit c := by
  have hregisters : ∀ blueprint, c ∈ s.registers blueprint → s.Makes edit c := by
    intro blueprint hc
    obtain ⟨target, htarget, rfl⟩ := List.mem_map.mp hc
    obtain ⟨grammar, hlocate⟩ := blueprint.exists_locate_of_mem_refs target htarget
    exact .register hlocate
  cases edit with
  | create grammar =>
    rw [changesOf, List.mem_append, List.mem_singleton] at h
    obtain h | rfl := h
    · obtain ⟨id, hid, rfl⟩ := List.mem_map.mp h
      exact .replace (Option.mem_toList.mp hid)
    · exact .create
  | drop grammar =>
    obtain ⟨id, hid, rfl⟩ := List.mem_map.mp h
    exact .drop (Option.mem_toList.mp hid)
  | refer grammar name => exact hregisters _ h
  | define grammar name blueprint =>
    rw [changesOf] at h
    split at h
    · cases h
    · exact hregisters _ h
    · rename_i id rule hlocate _
      rw [List.mem_append, List.mem_singleton] at h
      obtain h | rfl := h
      · exact hregisters _ h
      · exact .define hlocate
  | hold label blueprint => exact hregisters _ h

/-- An edit that makes and drops no grammar makes no such call. -/
theorem within_of_mem_changesOf (h : edit.KeepsNames) : ∀ c ∈ s.changesOf edit, c.Within := by
  intro c hc
  cases makes_of_mem_changesOf hc with
  | create => cases h
  | replace => cases h
  | drop => cases h
  | register => trivial
  | define => trivial

/-- The calls of an edit work on grammars that have a name. -/
theorem exists_locate_of_mem_changesOf (s : Session) (edit : Edit) :
    ∀ c ∈ s.changesOf edit, ∀ id ∈ c.subject?, ∃ name, s.locate name = some id := by
  intro c hc id hid
  cases makes_of_mem_changesOf hc with
  | create => cases hid
  | _ hlocate =>
    obtain rfl := Option.some.inj hid
    exact ⟨_, hlocate⟩

/-! ### Soundness -/

/-- Every name has a grammar of its own. -/
structure Sound (s : Session) : Prop where
  /-- The grammar of a name exists. -/
  exists_grammar : ∀ {name id}, s.locate name = some id → ∃ g, s.store.grammar? id = some g
  /-- A grammar has one name only. -/
  name_unique : ∀ {name name' id}, s.locate name = some id → s.locate name' = some id →
    name = name'

theorem Sound.create (h : s.Sound) (grammar : String) : (s.create grammar).Sound where
  exists_grammar := by
    intro name id hlocate
    rw [grammar?_create]
    rw [locate_create] at hlocate
    split at hlocate
    · obtain rfl := Option.some.inj hlocate
      rw [if_pos rfl]
      exact ⟨_, rfl⟩
    · rename_i hne
      obtain ⟨g, hg⟩ := h.exists_grammar hlocate
      have hold : s.locate grammar ≠ some id := fun heq => hne (h.name_unique heq hlocate)
      rw [if_neg (Nat.ne_of_lt (Store.lt_nextId_of_grammar? hg)), if_neg hold]
      exact ⟨g, hg⟩
  name_unique := by
    intro name name' id hlocate hlocate'
    -- The new grammar has an identity that no name had before.
    have hnew : ∀ name, s.locate name ≠ some s.store.nextId := by
      intro name heq
      obtain ⟨g, hg⟩ := h.exists_grammar heq
      exact Nat.lt_irrefl _ (Store.lt_nextId_of_grammar? hg)
    rw [locate_create] at hlocate hlocate'
    split at hlocate <;> split at hlocate'
    · rename_i hname hname'
      exact hname.symm.trans hname'
    · exact absurd (hlocate'.trans hlocate.symm) (hnew _)
    · exact absurd (hlocate.trans hlocate'.symm) (hnew _)
    · exact h.name_unique hlocate hlocate'

theorem Sound.drop (h : s.Sound) (grammar : String) : (s.drop grammar).1.Sound where
  exists_grammar := by
    intro name id hlocate
    rw [locate_drop, Option.ite_none_left_eq_some] at hlocate
    obtain ⟨hne, hlocate⟩ := hlocate
    have hold : s.locate grammar ≠ some id := fun heq => hne (h.name_unique heq hlocate)
    rw [store_drop, grammar?_drops, if_neg hold]
    exact h.exists_grammar hlocate
  name_unique := by
    intro name name' id hlocate hlocate'
    rw [locate_drop, Option.ite_none_left_eq_some] at hlocate hlocate'
    exact h.name_unique hlocate.2 hlocate'.2

/-- An edit that makes and drops no grammar changes the grammars, but not which ones there are. -/
theorem Sound.of_keepsNames (h : s.Sound) (hedit : edit.KeepsNames) : (s.edit edit).1.Sound where
  exists_grammar := by
    intro name id hlocate
    rw [locate, handles_edit hedit] at hlocate
    obtain ⟨g, hg⟩ := h.exists_grammar hlocate
    rw [store_edit, Store.grammar?_replay_of_within (within_of_mem_changesOf hedit), hg]
    exact ⟨_, rfl⟩
  name_unique := by
    intro name name' id hlocate hlocate'
    rw [locate, handles_edit hedit] at hlocate hlocate'
    exact h.name_unique hlocate hlocate'

theorem Sound.afterEdit (h : s.Sound) (edit : Edit) : (s.edit edit).1.Sound := by
  cases edit with
  | create grammar => exact h.create grammar
  | drop grammar => exact h.drop grammar
  | refer grammar name => exact h.of_keepsNames trivial
  | define grammar name blueprint => exact h.of_keepsNames trivial
  | hold label blueprint => exact h.of_keepsNames trivial

theorem sound_initial : initial.Sound := by
  have hinitial : initial = (⟨Store.empty, ∅, ∅⟩ : Session).create "main" := by
    simp [initial, create, locate]
  rw [hinitial]
  exact Sound.create ⟨fun h => by simp [locate] at h, fun h => by simp [locate] at h⟩ "main"

/-! ### Histories of sessions -/

/-- The store of the session is what `calls` have made of the empty one, and each of them found the
grammar that it works on. -/
structure HasHistory (s : Session) (calls : List Change) : Prop where
  possible : Store.empty.Possible calls
  store_eq : s.store = Store.empty.replay calls

/-- In a sound session every call of an edit finds its grammar. -/
theorem Sound.possible_changesOf (h : s.Sound) (edit : Edit) :
    s.store.Possible (s.changesOf edit) := by
  have hexists : ∀ c ∈ s.changesOf edit, ∀ id ∈ c.subject?, ∃ g, s.store.grammar? id = some g := by
    intro c hc id hid
    obtain ⟨name, hlocate⟩ := s.exists_locate_of_mem_changesOf edit c hc id hid
    exact h.exists_grammar hlocate
  have hdrops : ∀ grammar, s.store.Possible (s.drops grammar) := by
    intro grammar
    rw [drops]
    cases hlocate : s.locate grammar with
    | none => trivial
    | some id =>
      refine ⟨?_, trivial⟩
      intro id' hid'
      obtain rfl := Option.some.inj hid'
      exact h.exists_grammar hlocate
  cases edit with
  | create grammar => exact Store.possible_append.mpr ⟨hdrops grammar, nofun, trivial⟩
  | drop grammar => exact hdrops grammar
  | refer grammar name =>
    exact Store.possible_of_within (within_of_mem_changesOf trivial) hexists
  | define grammar name blueprint =>
    exact Store.possible_of_within (within_of_mem_changesOf trivial) hexists
  | hold label blueprint =>
    exact Store.possible_of_within (within_of_mem_changesOf trivial) hexists

theorem Sound.possible_changes (h : s.Sound) (edits : List Edit) :
    s.store.Possible (s.changes edits) := by
  induction edits generalizing s with
  | nil => trivial
  | cons edit rest ih =>
    rw [changes, Store.possible_append, ← store_edit]
    exact ⟨h.possible_changesOf edit, ih (h.afterEdit edit)⟩

theorem HasHistory.afterEdits {calls : List Change} (h : s.HasHistory calls) (hsound : s.Sound)
    (edits : List Edit) : (s.afterEdits edits).HasHistory (calls ++ s.changes edits) where
  possible := by
    rw [Store.possible_append, ← h.store_eq]
    exact ⟨h.possible, hsound.possible_changes edits⟩
  store_eq := by rw [store_afterEdits, Store.replay_append, h.store_eq]

/-- All calls of a run, from the one that creates the first grammar on. -/
def history (edits : List Edit) : List Change := .create :: initial.changes edits

/-- Every run of edits has a history. -/
theorem hasHistory_afterEdits (edits : List Edit) :
    (initial.afterEdits edits).HasHistory (history edits) := by
  have hinitial : initial.HasHistory [.create] := ⟨⟨nofun, trivial⟩, rfl⟩
  exact hinitial.afterEdits sound_initial edits

end Session

end Peg
