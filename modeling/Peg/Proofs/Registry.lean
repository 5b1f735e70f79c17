import Mathlib.Data.List.Sort
import Peg.Proofs.SessionHistory

/-!
# The registry of names

One map serves a grammar for all it knows of names: which were referred to, which are defined, and
as what. It is listed in three ways, as the defined names, as the smallest name that is still
missing, and as text. Here the listings are explained by what is registered and what is defined, and
these by the history of the grammar.

A definition that is refused changes nothing. The references in its rule were made before, so what
was registered with them stays registered.

## Main definitions

* `Grammar.namesWith` — the names whose slots are accepted by a test
* `Missing` — a name that was referred to and never defined

## Main results

* `Grammar.names_pairwise`, `Grammar.mem_names_iff` — the defined names, each once, ascending
* `Grammar.check_eq_ok_iff`, `Grammar.check_eq_error_iff` — the smallest name without a definition
* `Grammar.render_eq` — the text, line by line
* `Session.run_eq_afterEdits` — questions take no part in a run
* `Session.define_of_isSome`, `Session.exists_define_of_none` — when a definition is refused
* `Session.HasHistory.rule?_eq`, `Session.HasHistory.isRegistered_iff` — names and calls
* `Session.registry_of_history` — the registry in terms of its history
-/

namespace Peg

namespace Grammar

variable {g : Grammar} {name : String}

/-! ### Listings -/

/-- The names whose slots `keep` accepts, in the order in which they are kept. -/
def namesWith (g : Grammar) (keep : Option Rule → Bool) : List String :=
  g.slots.toList.filterMap fun slot => if keep slot.2 then some slot.1 else none

/-- The names are kept in ascending order. -/
theorem namesWith_pairwise (g : Grammar) (keep : Option Rule → Bool) :
    (g.namesWith keep).Pairwise (· < ·) := by
  rw [namesWith, List.pairwise_filterMap]
  apply Std.ExtTreeMap.ordered_keys_toList.imp
  rintro ⟨a, slot⟩ ⟨b, slot'⟩ hlt _ h _ h'
  obtain ⟨-, ⟨⟩⟩ := Option.ite_none_right_eq_some.mp h
  obtain ⟨-, ⟨⟩⟩ := Option.ite_none_right_eq_some.mp h'
  exact compareOfLessAndEq_eq_lt.mp (show compareOfLessAndEq a b = .lt from hlt)

theorem mem_namesWith_iff {keep : Option Rule → Bool} :
    name ∈ g.namesWith keep ↔ ∃ slot, g.slots[name]? = some slot ∧ keep slot = true := by
  rw [namesWith, List.mem_filterMap]
  constructor
  · rintro ⟨⟨key, slot⟩, hmem, h⟩
    obtain ⟨hkeep, ⟨⟩⟩ := Option.ite_none_right_eq_some.mp h
    exact ⟨slot, Std.ExtTreeMap.mem_toList_iff_getElem?_eq_some.mp hmem, hkeep⟩
  · rintro ⟨slot, hslot, hkeep⟩
    exact ⟨_, Std.ExtTreeMap.mem_toList_iff_getElem?_eq_some.mpr hslot, if_pos hkeep⟩

theorem names_eq_namesWith (g : Grammar) : g.names = g.namesWith (·.isSome) := by
  rw [names, definitions, namesWith, List.map_filterMap]
  congr 1
  funext slot
  cases slot.2 <;> rfl

theorem undefinedNames_eq_namesWith (g : Grammar) : g.undefinedNames = g.namesWith (·.isNone) := rfl

/-- The defined names ascend, so each is listed once. -/
theorem names_pairwise (g : Grammar) : g.names.Pairwise (· < ·) := by
  rw [names_eq_namesWith]
  exact g.namesWith_pairwise _

theorem mem_names_iff : name ∈ g.names ↔ (g.rule? name).isSome = true := by
  rw [names_eq_namesWith, mem_namesWith_iff, rule?]
  cases g.slots[name]? <;> simp

theorem mem_undefinedNames_iff :
    name ∈ g.undefinedNames ↔ g.isRegistered name = true ∧ g.rule? name = none := by
  rw [undefinedNames_eq_namesWith, mem_namesWith_iff, isRegistered, rule?,
    Std.ExtTreeMap.contains_eq_isSome_getElem?]
  cases g.slots[name]? <;> simp

theorem mem_definitions_iff {rule : Rule} :
    (name, rule) ∈ g.definitions ↔ g.rule? name = some rule := by
  rw [definitions, List.mem_filterMap, rule?, Option.join_eq_some_iff,
    ← Std.ExtTreeMap.mem_toList_iff_getElem?_eq_some]
  constructor
  · rintro ⟨⟨key, slot⟩, hmem, h⟩
    obtain ⟨_, rfl, ⟨⟩⟩ := Option.map_eq_some_iff.mp h
    exact hmem
  · exact fun hmem => ⟨_, hmem, rfl⟩

/-- A definition is told by its name. -/
theorem definitions_eq (g : Grammar) :
    g.definitions = g.names.filterMap fun name => (g.rule? name).map (name, ·) := by
  calc g.definitions
    _ = g.definitions.filterMap some := List.filterMap_some.symm
    _ = g.definitions.filterMap fun definition =>
          (g.rule? definition.1).map (definition.1, ·) := by
        apply List.filterMap_congr
        intro definition hmem
        rw [mem_definitions_iff.mp hmem]
        rfl
    _ = g.names.filterMap fun name => (g.rule? name).map (name, ·) := by
        rw [names, List.filterMap_map]
        rfl

theorem check_eq_ok_iff :
    g.check = .ok () ↔ ∀ name, g.isRegistered name = true → (g.rule? name).isSome = true := by
  have hcheck : g.check = .ok () ↔ g.undefinedNames = [] := by
    rw [check]
    cases g.undefinedNames <;> simp
  rw [hcheck, List.eq_nil_iff_forall_not_mem]
  apply forall_congr'
  intro name
  rw [mem_undefinedNames_iff, not_and, ← Option.ne_none_iff_isSome]

/-- The name that is reported is the smallest one that is registered and not defined. -/
theorem check_eq_error_iff {fault : Fault} :
    g.check = .error fault ↔ ∃ name, fault = .undefinedRule name ∧
      (g.isRegistered name = true ∧ g.rule? name = none) ∧
      ∀ other, g.isRegistered other = true ∧ g.rule? other = none → name ≤ other := by
  simp only [← mem_undefinedNames_iff]
  have hpairwise : g.undefinedNames.Pairwise (· < ·) := g.namesWith_pairwise _
  rw [check]
  cases hnames : g.undefinedNames with
  | nil => simp
  | cons first rest =>
    rw [hnames, List.pairwise_cons] at hpairwise
    have hfirst : ∀ other ∈ first :: rest, first ≤ other := by
      rw [List.forall_mem_cons]
      exact ⟨Std.le_refl first, fun other h => Std.le_of_lt (hpairwise.1 other h)⟩
    constructor
    · rintro ⟨⟩
      exact ⟨first, rfl, List.mem_cons_self, hfirst⟩
    · rintro ⟨name, rfl, hmem, hleast⟩
      rw [Std.le_antisymm (hleast first List.mem_cons_self) (hfirst name hmem)]

/-- The defined names are told by what is defined. -/
theorem names_eq_of_isSome {g' : Grammar}
    (h : ∀ name, (g.rule? name).isSome = (g'.rule? name).isSome) :
    g.names = g'.names := by
  apply g.names_pairwise.eq_of_mem_iff g'.names_pairwise
  intro name
  rw [mem_names_iff, mem_names_iff, h]

/-- So are, together with what is registered, the names that are missing. -/
theorem undefinedNames_eq_of_isSome {g' : Grammar}
    (hreg : ∀ name, g.isRegistered name = g'.isRegistered name)
    (h : ∀ name, (g.rule? name).isSome = (g'.rule? name).isSome) :
    g.undefinedNames = g'.undefinedNames := by
  have hpairwise : ∀ g : Grammar, g.undefinedNames.Pairwise (· < ·) := fun g =>
    g.namesWith_pairwise _
  apply (hpairwise g).eq_of_mem_iff (hpairwise g')
  intro name
  rw [mem_undefinedNames_iff, mem_undefinedNames_iff, hreg, ← Option.isNone_iff_eq_none,
    ← Option.isNone_iff_eq_none, ← Option.not_isSome, ← Option.not_isSome, h]

/-- The text has one line for each defined name, in the order of the names. -/
theorem render_eq (g : Grammar) :
    g.render = ['\n'].intercalate
      (g.names.filterMap fun name => (g.rule? name).map (renderDefinition name)) := by
  rw [render, definitions_eq, List.map_filterMap]
  simp only [Option.map_map]
  rfl

end Grammar

/-! ### Names in a history -/

/-- The name was referred to and never defined. -/
def Missing (calls : List Change) (target : Ref) : Prop :=
  .register target ∈ calls ∧ ∀ rule, .define target rule ∉ calls

theorem isSome_firstDefinition_iff {calls : List Change} {target : Ref} :
    (firstDefinition target calls).isSome = true ↔ ∃ rule, .define target rule ∈ calls := by
  rw [firstDefinition, List.findSome?_isSome_iff]
  constructor
  · rintro ⟨c, hc, hsome⟩
    obtain ⟨rule, hrule⟩ := Option.isSome_iff_exists.mp hsome
    rw [Change.eq_define_of_definition? hrule] at hc
    exact ⟨rule, hc⟩
  · rintro ⟨rule, hc⟩
    refine ⟨_, hc, ?_⟩
    rw [Change.definition?, if_pos rfl]
    rfl

theorem exists_mentions_iff {calls : List Change} {target : Ref} :
    (∃ c ∈ calls, c.Mentions target) ↔
      .register target ∈ calls ∨ ∃ rule, .define target rule ∈ calls := by
  constructor
  · rintro ⟨c, hc, hmentions⟩
    cases c with
    | create => cases hmentions
    | drop id => cases hmentions
    | register target' =>
      obtain rfl : target' = target := hmentions
      exact Or.inl hc
    | define target' rule =>
      obtain rfl : target' = target := hmentions
      exact Or.inr ⟨rule, hc⟩
  · rintro (hc | ⟨rule, hc⟩)
    · exact ⟨_, hc, rfl⟩
    · exact ⟨_, hc, rfl⟩

/-- The edit of a command, unless it is a question. -/
def Command.edit? : Command → Option Edit
  | .edit e => some e
  | .ask _ => none

namespace Session

variable {s s' : Session} {calls : List Change} {id : GrammarId} {g : Grammar} {name : String}

/-- Questions leave the session as it is, so a run does what its edits do. -/
theorem run_eq_afterEdits {commands : List Command} {replies : List Reply} {log : List Event}
    (h : s.run commands = .ends (s', replies) log) :
    s' = s.afterEdits (commands.filterMap Command.edit?) := by
  induction commands generalizing s replies log with
  | nil =>
    obtain ⟨⟩ := h
    rfl
  | cons command rest ih =>
    rw [run, Run.bind_eq_ends_iff] at h
    obtain ⟨⟨next, reply⟩, l, m, hexecute, hrest, -⟩ := h
    obtain ⟨⟨last, replies'⟩, l', m', hrun, hlast, -⟩ := Run.bind_eq_ends_iff.mp hrest
    obtain ⟨⟩ := hlast
    rw [ih hrun]
    cases command with
    | edit edit =>
      have hnext : (s.edit edit).1 = next :=
        congrArg Prod.fst (Run.ends.inj hexecute).1
      rw [← hnext]
      rfl
    | ask question =>
      obtain ⟨_, _, _, -, hnext, -⟩ := Run.bind_eq_ends_iff.mp hexecute
      obtain ⟨⟩ := hnext
      rfl

/-- A name that has a definition keeps it, and the session stays as it is. -/
theorem define_of_isSome (hg : s.store.grammar? id = some g)
    (hrule : (g.rule? name).isSome = true) (rule : Rule) :
    s.define ⟨id, name⟩ rule = (s, .fault (.duplicateRule name)) := by
  have herror : g.define name rule = .error (.duplicateRule name) :=
    Grammar.define_eq_error_iff.mpr ⟨rfl, hrule⟩
  rw [define, Store.define, hg]
  dsimp only
  rw [herror]
  rfl

/-- A name that has no definition is given one. -/
theorem exists_define_of_none (hg : s.store.grammar? id = some g)
    (hrule : g.rule? name = none) (rule : Rule) :
    ∃ g', g.define name rule = .ok g' ∧
      s.define ⟨id, name⟩ rule = ({ s with store := s.store.update id g' }, .done) := by
  obtain ⟨g', hok⟩ := Grammar.exists_define hrule rule
  refine ⟨g', hok, ?_⟩
  rw [define, Store.define, hg]
  dsimp only
  rw [hok]
  rfl

/-- A definition leaves the name defined, whether it is accepted or refused, and it leaves no other
name registered that was not. -/
theorem exists_grammar_define (hg : s.store.grammar? id = some g) (rule : Rule) :
    ∃ g', (s.define ⟨id, name⟩ rule).1.store.grammar? id = some g' ∧
      (g'.rule? name).isSome = true ∧
      ∀ other, g'.isRegistered other = true → g'.rule? other = none →
        g.isRegistered other = true ∧ g.rule? other = none := by
  cases hrule : g.rule? name with
  | none =>
    obtain ⟨g', hok, hdefine⟩ := exists_define_of_none hg hrule rule
    rw [hdefine]
    refine ⟨g', ?_, ?_, ?_⟩
    · rw [Store.grammar?_update hg, if_pos rfl]
    · rw [Grammar.rule?_define hok, if_pos rfl]
      rfl
    · intro other hregistered hnone
      rw [Grammar.rule?_define hok] at hnone
      split at hnone
      · cases hnone
      · rename_i hne
        rw [Grammar.isRegistered_define hok, beq_false_of_ne hne, Bool.false_or] at hregistered
        exact ⟨hregistered, hnone⟩
  | some old =>
    have hsome : (g.rule? name).isSome = true := by rw [hrule]; rfl
    rw [define_of_isSome hg hsome]
    exact ⟨g, hg, hsome, fun _ h h' => ⟨h, h'⟩⟩

namespace HasHistory

variable (hs : s.HasHistory calls) (hg : s.store.grammar? id = some g)
include hs hg

theorem rule?_eq (name : String) : g.rule? name = firstDefinition ⟨id, name⟩ calls := by
  rw [hs.store_eq] at hg
  exact hs.possible.rule?_eq (Nat.zero_le _) hg name

theorem isSome_rule?_iff (name : String) :
    (g.rule? name).isSome = true ↔ ∃ rule, .define ⟨id, name⟩ rule ∈ calls := by
  rw [hs.rule?_eq hg, isSome_firstDefinition_iff]

theorem rule?_eq_none_iff (name : String) :
    g.rule? name = none ↔ ∀ rule, .define ⟨id, name⟩ rule ∉ calls := by
  rw [← not_exists, ← hs.isSome_rule?_iff hg, Option.not_isSome_iff_eq_none]

/-- Every name is registered that was referred to or defined. -/
theorem isRegistered_iff (name : String) : g.isRegistered name = true ↔
    .register ⟨id, name⟩ ∈ calls ∨ ∃ rule, .define ⟨id, name⟩ rule ∈ calls := by
  rw [hs.store_eq] at hg
  rw [hs.possible.isRegistered_iff (Nat.zero_le _) hg, exists_mentions_iff]

theorem missing_iff (name : String) :
    (g.isRegistered name = true ∧ g.rule? name = none) ↔ Missing calls ⟨id, name⟩ := by
  rw [hs.isRegistered_iff hg, hs.rule?_eq_none_iff hg, Missing]
  constructor
  · rintro ⟨hmade | ⟨rule, hmem⟩, hundefined⟩
    · exact ⟨hmade, hundefined⟩
    · exact absurd hmem (hundefined rule)
  · exact fun ⟨hmade, hundefined⟩ => ⟨Or.inl hmade, hundefined⟩

/-- Later calls do not take a rule away. -/
theorem rule?_later {later : List Change} {g' : Grammar} {rule : Rule}
    (hlater : s.store.Possible later) (hg' : (s.store.replay later).grammar? id = some g')
    (hrule : g.rule? name = some rule) : g'.rule? name = some rule := by
  rw [hs.store_eq] at hlater hg'
  rw [← Store.replay_append] at hg'
  have hpossible := Store.possible_append.mpr ⟨hs.possible, hlater⟩
  rw [hpossible.rule?_eq (Nat.zero_le _) hg', firstDefinition_append, ← hs.rule?_eq hg, hrule,
    Option.some_or]

/-- A grammar passes the check if every name that was referred to has been defined. -/
theorem check_eq_ok_iff : g.check = .ok () ↔
    ∀ name, .register ⟨id, name⟩ ∈ calls → ∃ rule, .define ⟨id, name⟩ rule ∈ calls := by
  rw [Grammar.check_eq_ok_iff]
  apply forall_congr'
  intro name
  rw [hs.isRegistered_iff hg, hs.isSome_rule?_iff hg, or_imp]
  exact and_iff_left fun hmem => hmem

end HasHistory

/-- What a grammar knows of names, in terms of the calls that were made. -/
theorem registry_of_history (hs : s.HasHistory calls) (hg : s.store.grammar? id = some g) :
    -- The first definition of a name counts, and it counts for ever.
    (∀ name, g.rule? name = firstDefinition ⟨id, name⟩ calls) ∧
    (∀ name, (g.rule? name).isSome = true ↔ ∃ rule, .define ⟨id, name⟩ rule ∈ calls) ∧
    (∀ later g', s.store.Possible later → (s.store.replay later).grammar? id = some g' →
      ∀ name rule, g.rule? name = some rule → g'.rule? name = some rule) ∧
    -- A second one is refused and changes nothing, and any other is accepted.
    (∀ name rule, (∃ old, .define ⟨id, name⟩ old ∈ calls) →
      s.define ⟨id, name⟩ rule = (s, .fault (.duplicateRule name))) ∧
    (∀ name rule, (∀ old, .define ⟨id, name⟩ old ∉ calls) →
      (s.define ⟨id, name⟩ rule).2 = .done) ∧
    (∀ name rule, ∃ g', (s.define ⟨id, name⟩ rule).1.store.grammar? id = some g' ∧
      (g'.rule? name).isSome = true ∧
      ∀ other, g'.isRegistered other = true → g'.rule? other = none →
        g.isRegistered other = true ∧ g.rule? other = none) ∧
    -- The listings.
    (∀ name, name ∈ g.names ↔ ∃ rule, .define ⟨id, name⟩ rule ∈ calls) ∧
    g.names.Pairwise (· < ·) ∧
    (g.check = .ok () ↔ ∀ name, .register ⟨id, name⟩ ∈ calls →
      ∃ rule, .define ⟨id, name⟩ rule ∈ calls) ∧
    (∀ fault, g.check = .error fault ↔ ∃ name, fault = .undefinedRule name ∧
      Missing calls ⟨id, name⟩ ∧ ∀ other, Missing calls ⟨id, other⟩ → name ≤ other) ∧
    g.render = ['\n'].intercalate (g.names.filterMap fun name =>
      (g.rule? name).map fun rule => name.toList ++ " <- ".toList ++ rule.render) ∧
    -- Questions take no part.
    ∀ commands s' replies log, s.run commands = .ends (s', replies) log →
      s' = s.afterEdits (commands.filterMap Command.edit?) := by
  refine ⟨hs.rule?_eq hg, hs.isSome_rule?_iff hg, fun _ _ hlater hg' _ _ =>
    hs.rule?_later hg hlater hg', ?_, ?_, fun _ => exists_grammar_define hg, ?_,
    g.names_pairwise, hs.check_eq_ok_iff hg, ?_, g.render_eq, fun _ _ _ _ => run_eq_afterEdits⟩
  · intro name rule hold
    exact define_of_isSome hg ((hs.isSome_rule?_iff hg name).mpr hold) rule
  · intro name rule hnew
    obtain ⟨g', -, hdone⟩ :=
      exists_define_of_none hg ((hs.rule?_eq_none_iff hg name).mpr hnew) rule
    rw [hdone]
  · intro name
    rw [Grammar.mem_names_iff, hs.isSome_rule?_iff hg]
  · intro fault
    rw [Grammar.check_eq_error_iff]
    simp only [hs.missing_iff hg]

/-- A run in which a definition is refused. The reference in its rule was made all the same. -/
def refused : List Edit :=
  [.define "main" "b" (.ref "main" "c"), .define "main" "b" (.ref "main" "a"), .refer "main" "d"]

theorem history_refused : history refused =
    [.create, .register ⟨0, "c"⟩, .define ⟨0, "b"⟩ (.ref ⟨0, "c"⟩), .register ⟨0, "a"⟩,
      .define ⟨0, "b"⟩ (.ref ⟨0, "a"⟩), .register ⟨0, "d"⟩] := rfl

/-- The first of the two definitions is kept, a third is refused as well, and the name that was
mentioned only in the refused one is reported. -/
theorem registry_of_history_refused :
    let s := initial.afterEdits refused
    ∃ g, s.store.grammar? 0 = some g ∧ g.rule? "b" = some (.ref ⟨0, "c"⟩) ∧
      s.define ⟨0, "b"⟩ (.char 'x') = (s, .fault (.duplicateRule "b")) ∧
      g.check = .error (.undefinedRule "a") := by
  intro s
  have hs : s.HasHistory (history refused) := hasHistory_afterEdits refused
  have hg : (Store.empty.replay (history refused)).grammar? 0 =
      some (Grammar.empty.replay 0 (history refused)) :=
    hs.possible.grammar?_replay (Nat.zero_le _) (by decide) (by simp [history_refused])
  rw [← hs.store_eq] at hg
  obtain ⟨hrule, -, -, hduplicate, -, -, -, -, -, herror, -⟩ := registry_of_history hs hg
  refine ⟨_, hg, hrule "b", hduplicate "b" _ ⟨.ref ⟨0, "c"⟩, by simp [history_refused]⟩, ?_⟩
  rw [herror]
  refine ⟨"a", rfl, ⟨by simp [history_refused], by simp [history_refused]⟩, ?_⟩
  rintro other ⟨hmade, -⟩
  have hother : other = "c" ∨ other = "a" ∨ other = "d" := by simpa [history_refused] using hmade
  rcases hother with rfl | rfl | rfl <;> decide

end Session

end Peg
