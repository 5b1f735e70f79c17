import Peg.Store

/-!
# What a store remembers of its history

A store changes by calls of four kinds: a grammar is created or dropped, a reference is made, a rule
is defined. What such a history leaves behind is said here for each grammar by itself. A grammar
that was dropped is gone for good. One that was not has registered the names that calls on it
mentioned, and gives each name the rule of the first definition that was asked for, as later ones
are refused.

Changes of other grammars do not matter, and neither does what the rules refer to.

## Main definitions

* `Change` — the calls that change a store
* `Store.replay` — the store after a number of changes
* `Grammar.replay` — what a number of changes does to one grammar
* `firstDefinition` — the rule of the first definition of a name
* `Store.Possible` — every change works on a grammar that exists at that time
* `Store.Accepts` — a definition that was asked for and not refused

## Main results

* `Grammar.rule?_replay`, `Grammar.isRegistered_replay` — what is defined and what is registered
* `Store.Possible.grammar?_replay` — a grammar that was created has seen all changes
* `Store.Possible.grammar?_replay_of_drop` — unless it was dropped
* `Store.Possible.accepts_iff` — the first definition is accepted, and no other
-/

namespace Peg

/-- A call that changes a store. -/
inductive Change where
  /-- Add an empty grammar. -/
  | create
  /-- Remove a grammar. -/
  | drop (id : GrammarId)
  /-- Make a reference. -/
  | register (target : Ref)
  /-- Define the rule that `target` refers to, if it is not defined yet. -/
  | define (target : Ref) (rule : Rule)

namespace Change

/-- The rule that is asked to be defined under `target`. -/
def definition? (target : Ref) : Change → Option Rule
  | .define target' rule => if target' = target then some rule else none
  | _ => none

/-- A reference to `target` is made, or a definition of it is asked for. -/
def Mentions (target : Ref) : Change → Prop
  | .register target' => target' = target
  | .define target' _ => target' = target
  | _ => False

/-- The change happens within a grammar that exists before and after it. -/
def Within : Change → Prop
  | .register _ => True
  | .define _ _ => True
  | _ => False

/-- The grammar that has to exist for the change. -/
def subject? : Change → Option GrammarId
  | .create => none
  | .drop id => some id
  | .register target => some target.grammar
  | .define target _ => some target.grammar

theorem eq_define_of_definition? {c : Change} {target : Ref} {rule : Rule}
    (h : c.definition? target = some rule) : c = .define target rule := by
  cases c with
  | define target' rule' =>
    rw [definition?, Option.ite_none_right_eq_some] at h
    obtain ⟨rfl, h⟩ := h
    rw [Option.some.inj h]
  | _ => cases h

end Change

/-- The rule of the first definition of `target` among the changes. -/
def firstDefinition (target : Ref) (changes : List Change) : Option Rule :=
  changes.findSome? (Change.definition? target)

theorem firstDefinition_cons (target : Ref) (c : Change) (rest : List Change) :
    firstDefinition target (c :: rest) =
      (c.definition? target).or (firstDefinition target rest) := by
  rw [firstDefinition, List.findSome?_cons]
  cases c.definition? target <;> rfl

theorem firstDefinition_append (target : Ref) (changes later : List Change) :
    firstDefinition target (changes ++ later) =
      (firstDefinition target changes).or (firstDefinition target later) :=
  List.findSome?_append

/-! ### One grammar -/

namespace Grammar

variable {g : Grammar} {id : GrammarId} {name : String}

/-- A name that is defined anew had no definition. -/
theorem rule?_eq_none_of_define {g' : Grammar} {rule : Rule} (h : g.define name rule = .ok g') :
    g.rule? name = none := by
  cases hrule : g.rule? name with
  | none => rfl
  | some old =>
    have herror : g.define name rule = .error (.duplicateRule name) :=
      define_eq_error_iff.mpr ⟨rfl, by rw [hrule]; rfl⟩
    rw [h] at herror
    cases herror

/-- A name that has no definition can be given one. -/
theorem exists_define (h : g.rule? name = none) (rule : Rule) :
    ∃ g', g.define name rule = .ok g' := by
  cases hdefine : g.define name rule with
  | ok g' => exact ⟨g', rfl⟩
  | error fault =>
    obtain ⟨-, hsome⟩ := define_eq_error_iff.mp hdefine
    rw [h] at hsome
    cases hsome

/-- What a change does to the grammar `id`. -/
def change (g : Grammar) (id : GrammarId) : Change → Grammar
  | .register target => if target.grammar = id then g.register target.name else g
  | .define target rule =>
    if target.grammar = id then
      match g.define target.name rule with
      | .ok g' => g'
      | .error _ => g
    else
      g
  | _ => g

/-- What a number of changes does to the grammar `id`. -/
def replay (g : Grammar) (id : GrammarId) (changes : List Change) : Grammar :=
  changes.foldl (fun g c => g.change id c) g

theorem replay_cons (g : Grammar) (id : GrammarId) (c : Change) (rest : List Change) :
    g.replay id (c :: rest) = (g.change id c).replay id rest := rfl

theorem replay_append (g : Grammar) (id : GrammarId) (changes later : List Change) :
    g.replay id (changes ++ later) = (g.replay id changes).replay id later :=
  List.foldl_append

theorem change_eq_self {c : Change} (h : c.subject? ≠ some id) : g.change id c = g := by
  cases c with
  | create => rfl
  | drop => rfl
  | register target => exact if_neg fun hid => h (congrArg some hid)
  | define target rule => exact if_neg fun hid => h (congrArg some hid)

/-- Changes of other grammars do not matter. -/
theorem replay_eq_self {changes : List Change} (h : ∀ c ∈ changes, c.subject? ≠ some id) :
    g.replay id changes = g := by
  induction changes with
  | nil => rfl
  | cons c rest ih =>
    obtain ⟨hc, hrest⟩ := List.forall_mem_cons.mp h
    rw [replay_cons, change_eq_self hc, ih hrest]

/-- A definition counts if there was none before. -/
theorem rule?_change (g : Grammar) (id : GrammarId) (c : Change) (name : String) :
    (g.change id c).rule? name = (g.rule? name).or (c.definition? ⟨id, name⟩) := by
  cases c with
  | create => exact (Option.or_none).symm
  | drop => exact (Option.or_none).symm
  | register target =>
    have hnone : (Change.register target).definition? ⟨id, name⟩ = none := rfl
    rw [change, hnone, Option.or_none]
    split <;> simp
  | define target rule =>
    obtain ⟨grammar, name'⟩ := target
    simp only [change, Change.definition?, Ref.mk.injEq]
    by_cases hid : grammar = id
    · simp only [hid, true_and, if_true]
      cases hdefine : g.define name' rule with
      | ok g' =>
        have hnone := rule?_eq_none_of_define hdefine
        rw [rule?_define hdefine]
        by_cases hname : name' = name
        · rw [if_pos hname, if_pos hname, ← hname, hnone, Option.none_or]
        · rw [if_neg hname, if_neg hname, Option.or_none]
      | error fault =>
        -- The definition is refused because there is one, which is kept.
        obtain ⟨-, hold⟩ := define_eq_error_iff.mp hdefine
        by_cases hname : name' = name
        · rw [hname] at hold
          exact (Option.or_of_isSome hold).symm
        · rw [if_neg hname, Option.or_none]
    · simp [hid]

theorem isRegistered_change (g : Grammar) (id : GrammarId) (c : Change) (name : String) :
    (g.change id c).isRegistered name = true ↔
      g.isRegistered name = true ∨ c.Mentions ⟨id, name⟩ := by
  cases c with
  | create => exact (or_false _).symm.to_iff
  | drop => exact (or_false _).symm.to_iff
  | register target =>
    obtain ⟨grammar, name'⟩ := target
    by_cases hid : grammar = id
    · simp [change, Change.Mentions, hid, or_comm]
    · simp [change, Change.Mentions, hid]
  | define target rule =>
    obtain ⟨grammar, name'⟩ := target
    by_cases hid : grammar = id
    · simp only [change, Change.Mentions, hid, if_true, Ref.mk.injEq, true_and]
      cases hdefine : g.define name' rule with
      | ok g' =>
        rw [isRegistered_define hdefine]
        simp [or_comm]
      | error fault =>
        -- A name that is defined has been registered before.
        obtain ⟨-, hold⟩ := define_eq_error_iff.mp hdefine
        obtain ⟨old, hold⟩ := Option.isSome_iff_exists.mp hold
        have hregistered := isRegistered_of_rule? hold
        refine ⟨Or.inl, ?_⟩
        rintro (h | rfl)
        · exact h
        · exact hregistered
    · simp [change, Change.Mentions, hid]

/-- The first definition gives a name its rule, if it had none. -/
theorem rule?_replay (g : Grammar) (id : GrammarId) (changes : List Change) (name : String) :
    (g.replay id changes).rule? name =
      (g.rule? name).or (firstDefinition ⟨id, name⟩ changes) := by
  induction changes generalizing g with
  | nil => exact (Option.or_none).symm
  | cons c rest ih =>
    rw [replay_cons, ih, rule?_change, firstDefinition_cons, Option.or_assoc]

/-- The names that changes mention are registered. -/
theorem isRegistered_replay (g : Grammar) (id : GrammarId) (changes : List Change)
    (name : String) :
    (g.replay id changes).isRegistered name = true ↔
      g.isRegistered name = true ∨ ∃ c ∈ changes, c.Mentions ⟨id, name⟩ := by
  induction changes generalizing g with
  | nil => simp [replay]
  | cons c rest ih =>
    rw [replay_cons, ih, isRegistered_change]
    simp [or_assoc]

end Grammar

/-! ### Stores -/

namespace Store

variable {store : Store} {id : GrammarId} {g : Grammar} {c : Change} {changes : List Change}

/-- In a grammar that exists, a definition is accepted if the grammar accepts it. -/
theorem define_eq_ok_iff {store' : Store} {target : Ref} {rule : Rule}
    (hg : store.grammar? target.grammar = some g) :
    store.define target rule = .ok store' ↔
      ∃ g', g.define target.name rule = .ok g' ∧ store.update target.grammar g' = store' := by
  rw [define, hg]
  cases hdefine : g.define target.name rule <;> simp [hdefine, Except.map]

/-- The store after a change. A definition that is refused leaves it as it is. -/
def change (store : Store) : Change → Store
  | .create => store.create
  | .drop id => store.drop id
  | .register target => store.register target
  | .define target rule =>
    match store.define target rule with
    | .ok store' => store'
    | .error _ => store

/-- The store after a number of changes. -/
def replay (store : Store) (changes : List Change) : Store := changes.foldl change store

@[simp] theorem replay_nil (store : Store) : store.replay [] = store := rfl

@[simp] theorem replay_cons (store : Store) (c : Change) (rest : List Change) :
    store.replay (c :: rest) = (store.change c).replay rest := rfl

theorem replay_append (store : Store) (changes later : List Change) :
    store.replay (changes ++ later) = (store.replay changes).replay later :=
  List.foldl_append

/-- A change does to the grammar `id` what it does to that grammar alone, unless it creates or drops
it. -/
theorem grammar?_change (hcreate : c = .create → id ≠ store.nextId) (hdrop : c ≠ .drop id) :
    (store.change c).grammar? id = (store.grammar? id).map (·.change id c) := by
  cases c with
  | create =>
    rw [change, grammar?_create, if_neg (hcreate rfl)]
    exact Option.map_id_apply.symm
  | drop id' =>
    have hne : id' ≠ id := fun h => hdrop (h ▸ rfl)
    rw [change, grammar?_drop, if_neg hne]
    exact Option.map_id_apply.symm
  | register target =>
    simp only [change, register, Grammar.change]
    cases hg : store.grammar? target.grammar with
    | none =>
      by_cases hid : target.grammar = id
      · rw [← hid, hg, Option.map_none]
      · simp [hid]
    | some g =>
      dsimp only
      rw [grammar?_update hg]
      by_cases hid : target.grammar = id
      · simp [← hid, hg]
      · simp [hid]
  | define target rule =>
    simp only [change, define, Grammar.change]
    cases hg : store.grammar? target.grammar with
    | none =>
      by_cases hid : target.grammar = id
      · rw [← hid, hg, Option.map_none]
      · simp [hid]
    | some g =>
      by_cases hid : target.grammar = id
      · cases hdefine : g.define target.name rule <;>
          simp [Except.map, hdefine, grammar?_update hg, ← hid, hg]
      · cases hdefine : g.define target.name rule <;>
          simp [Except.map, hdefine, grammar?_update hg, hid]

theorem lt_nextId_of_grammar? (hg : store.grammar? id = some g) : id < store.nextId := by
  refine Nat.lt_of_not_le fun hge => ?_
  simp [grammar?, Array.getElem?_eq_none hge] at hg

theorem nextId_change (hc : c ≠ .create) : (store.change c).nextId = store.nextId := by
  cases c with
  | create => exact absurd rfl hc
  | drop id => exact nextId_drop store id
  | register target =>
    rw [change, register]
    split <;> simp
  | define target rule =>
    rw [change, define]
    cases store.grammar? target.grammar with
    | none => rfl
    | some g => cases hdefine : g.define target.name rule <;> simp [Except.map, hdefine]

theorem nextId_le_change (store : Store) (c : Change) :
    store.nextId ≤ (store.change c).nextId := by
  by_cases hc : c = .create
  · rw [hc, change, nextId_create]
    exact Nat.le_succ _
  · exact Nat.le_of_eq (nextId_change hc).symm

theorem nextId_le_replay (store : Store) (changes : List Change) :
    store.nextId ≤ (store.replay changes).nextId := by
  induction changes generalizing store with
  | nil => exact Nat.le_refl _
  | cons c rest ih => exact Nat.le_trans (nextId_le_change store c) (ih _)

/-- Changes within grammars leave all grammars in place. -/
theorem grammar?_replay_of_within (h : ∀ c ∈ changes, c.Within) (id : GrammarId) :
    (store.replay changes).grammar? id = (store.grammar? id).map (·.replay id changes) := by
  induction changes generalizing store with
  | nil => exact Option.map_id_apply.symm
  | cons c rest ih =>
    obtain ⟨hc, hrest⟩ := List.forall_mem_cons.mp h
    have hcreate : c ≠ .create := fun heq => by rw [heq] at hc; exact hc
    have hdrop : c ≠ .drop id := fun heq => by rw [heq] at hc; exact hc
    rw [replay_cons, ih hrest, grammar?_change (fun heq => absurd heq hcreate) hdrop,
      Option.map_map]
    rfl

theorem nextId_replay_of_within (h : ∀ c ∈ changes, c.Within) :
    (store.replay changes).nextId = store.nextId := by
  induction changes generalizing store with
  | nil => rfl
  | cons c rest ih =>
    obtain ⟨hc, hrest⟩ := List.forall_mem_cons.mp h
    have hcreate : c ≠ .create := fun heq => by rw [heq] at hc; exact hc
    rw [replay_cons, ih hrest, nextId_change hcreate]

/-- A grammar that exists and is not dropped has seen the changes. -/
theorem grammar?_replay (hg : store.grammar? id = some g) (hdrop : .drop id ∉ changes) :
    (store.replay changes).grammar? id = some (g.replay id changes) := by
  induction changes generalizing store g with
  | nil => exact hg
  | cons c rest ih =>
    rw [List.mem_cons, not_or] at hdrop
    obtain ⟨hc, hrest⟩ := hdrop
    have hnext : (store.change c).grammar? id = some (g.change id c) := by
      have hold : id ≠ store.nextId := Nat.ne_of_lt (lt_nextId_of_grammar? hg)
      rw [grammar?_change (fun _ => hold) (Ne.symm hc), hg, Option.map_some]
    exact ih hnext hrest

/-- A grammar that is gone stays so, as its identity is not given out again. -/
theorem grammar?_replay_of_none (hg : store.grammar? id = none) (hid : id < store.nextId)
    (changes : List Change) : (store.replay changes).grammar? id = none := by
  induction changes generalizing store with
  | nil => exact hg
  | cons c rest ih =>
    have hnext : (store.change c).grammar? id = none := by
      by_cases hdrop : c = .drop id
      · rw [hdrop, change, grammar?_drop, if_pos rfl]
      · rw [grammar?_change (fun _ => Nat.ne_of_lt hid) hdrop, hg, Option.map_none]
    exact ih hnext (Nat.lt_of_lt_of_le hid (nextId_le_change store c))

/-! ### Histories that can happen -/

/-- Every change finds the grammar that it works on. -/
def Possible : Store → List Change → Prop
  | _, [] => True
  | store, c :: rest =>
    (∀ id ∈ c.subject?, ∃ g, store.grammar? id = some g) ∧ (store.change c).Possible rest

theorem possible_append {later : List Change} :
    store.Possible (changes ++ later) ↔
      store.Possible changes ∧ (store.replay changes).Possible later := by
  induction changes generalizing store with
  | nil => simp [Possible]
  | cons c rest ih => simp [Possible, ih, and_assoc]

/-- Changes within grammars that exist are possible, as the grammars stay in place. -/
theorem possible_of_within (h : ∀ c ∈ changes, c.Within)
    (hexists : ∀ c ∈ changes, ∀ id ∈ c.subject?, ∃ g, store.grammar? id = some g) :
    store.Possible changes := by
  induction changes generalizing store with
  | nil => trivial
  | cons c rest ih =>
    rw [List.forall_mem_cons] at h hexists
    refine ⟨hexists.1, ih h.2 ?_⟩
    intro c' hc' id hid
    obtain ⟨g, hg⟩ := hexists.2 c' hc' id hid
    have hstays : (store.change c).grammar? id = (store.grammar? id).map (·.replay id [c]) :=
      grammar?_replay_of_within (List.forall_mem_singleton.mpr h.1) id
    rw [hg] at hstays
    exact ⟨_, hstays⟩

/-- Until a grammar is created no change can work on it. -/
theorem Possible.exists_create (h : store.Possible changes) (hnew : store.nextId ≤ id)
    (hid : id < (store.replay changes).nextId) :
    ∃ before after, changes = before ++ .create :: after ∧ (store.replay before).nextId = id ∧
      ∀ c ∈ before, c.subject? ≠ some id := by
  induction changes generalizing store with
  | nil => exact absurd hid (Nat.not_lt.mpr hnew)
  | cons c rest ih =>
    obtain ⟨hc, hrest⟩ := h
    by_cases hcreate : c = .create ∧ id = store.nextId
    · obtain ⟨rfl, rfl⟩ := hcreate
      exact ⟨[], rest, rfl, rfl, fun c hc => absurd hc List.not_mem_nil⟩
    · have hnext : (store.change c).nextId ≤ id := by
        by_cases hc : c = .create
        · rw [hc, change, nextId_create]
          exact Nat.lt_of_le_of_ne hnew fun heq => hcreate ⟨hc, heq.symm⟩
        · rwa [nextId_change hc]
      obtain ⟨before, after, rfl, hbefore, hsubject⟩ := ih hrest hnext hid
      refine ⟨c :: before, after, rfl, hbefore, ?_⟩
      rw [List.forall_mem_cons]
      refine ⟨?_, hsubject⟩
      intro hsome
      obtain ⟨g, hg⟩ := hc id hsome
      -- The grammar would exist already.
      exact Nat.not_lt.mpr hnew (lt_nextId_of_grammar? hg)

/-- A grammar that changes work on exists then, so its identity has been given out. -/
theorem Possible.lt_nextId (h : store.Possible changes) (hc : c ∈ changes)
    (hsubject : c.subject? = some id) : id < (store.replay changes).nextId := by
  obtain ⟨before, after, rfl⟩ := List.append_of_mem hc
  obtain ⟨-, hexists, -⟩ := possible_append.mp h
  obtain ⟨g, hg⟩ := hexists id hsubject
  rw [replay_append]
  exact Nat.lt_of_lt_of_le (lt_nextId_of_grammar? hg) (nextId_le_replay _ _)

/-- A grammar that was created and not dropped has seen all changes. -/
theorem Possible.grammar?_replay (h : store.Possible changes) (hnew : store.nextId ≤ id)
    (hid : id < (store.replay changes).nextId) (hdrop : .drop id ∉ changes) :
    (store.replay changes).grammar? id = some (Grammar.empty.replay id changes) := by
  obtain ⟨before, after, rfl, rfl, hsubject⟩ := h.exists_create hnew hid
  have hcreated : ((store.replay before).change .create).grammar? (store.replay before).nextId =
      some .empty := by
    rw [change, grammar?_create, if_pos rfl]
  have hafter : .drop (store.replay before).nextId ∉ after := by
    intro hmem
    exact hdrop (List.mem_append_right _ (List.mem_cons_of_mem _ hmem))
  rw [replay_append, replay_cons, Store.grammar?_replay hcreated hafter, Grammar.replay_append,
    Grammar.replay_eq_self hsubject, Grammar.replay_cons, Grammar.change]
  all_goals simp

/-- A grammar that was dropped is gone. -/
theorem Possible.grammar?_replay_of_drop (h : store.Possible changes)
    (hdrop : .drop id ∈ changes) : (store.replay changes).grammar? id = none := by
  obtain ⟨before, after, rfl⟩ := List.append_of_mem hdrop
  obtain ⟨-, hexists, -⟩ := possible_append.mp h
  obtain ⟨g, hg⟩ := hexists id rfl
  have hid := Nat.lt_of_lt_of_le (lt_nextId_of_grammar? hg) (nextId_le_change _ (.drop id))
  rw [replay_append, replay_cons]
  apply grammar?_replay_of_none _ hid
  rw [change, grammar?_drop, if_pos rfl]

/-- A grammar that exists and was created in the meantime has seen all changes. -/
theorem Possible.eq_replay (h : store.Possible changes) (hnew : store.nextId ≤ id)
    (hg : (store.replay changes).grammar? id = some g) : g = Grammar.empty.replay id changes := by
  have hdrop : .drop id ∉ changes := by
    intro hmem
    rw [h.grammar?_replay_of_drop hmem] at hg
    cases hg
  rw [h.grammar?_replay hnew (lt_nextId_of_grammar? hg) hdrop] at hg
  exact (Option.some.inj hg).symm

/-- Its rules are those of the first definitions. -/
theorem Possible.rule?_eq (h : store.Possible changes) (hnew : store.nextId ≤ id)
    (hg : (store.replay changes).grammar? id = some g) (name : String) :
    g.rule? name = firstDefinition ⟨id, name⟩ changes := by
  rw [h.eq_replay hnew hg, Grammar.rule?_replay, Grammar.rule?_empty, Option.none_or]

/-- Its registered names are those that were mentioned. -/
theorem Possible.isRegistered_iff (h : store.Possible changes) (hnew : store.nextId ≤ id)
    (hg : (store.replay changes).grammar? id = some g) (name : String) :
    g.isRegistered name = true ↔ ∃ c ∈ changes, c.Mentions ⟨id, name⟩ := by
  rw [h.eq_replay hnew hg, Grammar.isRegistered_replay, Grammar.isRegistered_empty]
  simp

/-- Among the changes is a definition of `target` as `rule` that is not refused. -/
def Accepts (store : Store) (changes : List Change) (target : Ref) (rule : Rule) : Prop :=
  ∃ before after store', changes = before ++ .define target rule :: after ∧
    (store.replay before).define target rule = .ok store'

/-- At the time of a definition, the grammar has what was defined until then. -/
theorem Possible.exists_grammar {before after : List Change} {target : Ref} {rule : Rule}
    (h : store.Possible (before ++ .define target rule :: after))
    (hnew : store.nextId ≤ target.grammar) :
    ∃ g, (store.replay before).grammar? target.grammar = some g ∧
      g.rule? target.name = firstDefinition target before := by
  obtain ⟨hbefore, hexists, -⟩ := possible_append.mp h
  obtain ⟨g, hg⟩ := hexists target.grammar rfl
  exact ⟨g, hg, hbefore.rule?_eq hnew hg target.name⟩

/-- The first definition of a name is accepted, and no other one is. -/
theorem Possible.accepts_iff (h : store.Possible changes) {target : Ref} {rule : Rule}
    (hnew : store.nextId ≤ target.grammar) :
    store.Accepts changes target rule ↔ firstDefinition target changes = some rule := by
  constructor
  · rintro ⟨before, after, store', rfl, hdefine⟩
    obtain ⟨g, hg, hrule⟩ := h.exists_grammar hnew
    obtain ⟨g', hg', -⟩ := (define_eq_ok_iff hg).mp hdefine
    rw [Grammar.rule?_eq_none_of_define hg'] at hrule
    rw [firstDefinition_append, ← hrule, Option.none_or, firstDefinition_cons,
      Change.definition?, if_pos rfl, Option.some_or]
  · intro hfirst
    obtain ⟨before, c, after, rfl, hc, hbefore⟩ := List.findSome?_eq_some_iff.mp hfirst
    obtain rfl := Change.eq_define_of_definition? hc
    obtain ⟨g, hg, hrule⟩ := h.exists_grammar hnew
    rw [firstDefinition, List.findSome?_eq_none_iff.mpr hbefore] at hrule
    obtain ⟨g', hg'⟩ := Grammar.exists_define hrule rule
    exact ⟨before, after, _, rfl, (define_eq_ok_iff hg).mpr ⟨g', hg', rfl⟩⟩

end Store

end Peg
