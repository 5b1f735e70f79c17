import Peg.Proofs.Grounding
import Peg.Proofs.Depth

/-!
# What building does

A blueprint is built from the bottom up, and the building stops at the first fault. Both are seen
from the list of its nodes in postorder, where the parts of a node stand before it, from left to
right. The building goes through this list. A node may be at fault by itself, whatever its parts
are: a range with reversed bounds, a choice without alternatives, or a reference into a grammar that
there is not. The first such node ends the building with its fault, and the references before it
have been made. If there is no such node, building gives the rule that the blueprint describes.

To make a reference registers a name. Nothing else becomes of building in the grammars: definitions
and what they match stay as they were, and only the check for names without a definition takes
notice of the new ones.

## Main definitions

* `Blueprint.postorder` — the nodes of a blueprint, each after its parts
* `Blueprint.fault?` — the fault of a node by itself
* `Blueprint.completed` — the nodes before the first that is at fault
* `Built.Visits` — what was built by going through certain nodes
* `Grammar.Gains` — a grammar has gained names, and nothing else

## Main results

* `Blueprint.visits_build` — to build a blueprint is to go through its nodes
* `Blueprint.exists_describes_iff` — a blueprint describes a rule if none of its nodes is at fault
* `Session.ask_build` — only the check may be answered otherwise after building
* `Session.build_postorder` — the fault and the effects of building
-/

namespace Peg

/-! ### The nodes of a blueprint -/

namespace Blueprint

mutual

/-- The nodes of a blueprint: those of its parts from left to right, and then the blueprint. -/
def postorder : Blueprint → List Blueprint
  | .char c => [.char c]
  | .range low high => [.range low high]
  | .anyRange low high => [.anyRange low high]
  | .string chars => [.string chars]
  | .seq parts => postorderAll parts ++ [.seq parts]
  | .pair left right => postorder left ++ postorder right ++ [.pair left right]
  | .choice alternatives => postorderAll alternatives ++ [.choice alternatives]
  | .anyChoice alternatives => postorderAll alternatives ++ [.anyChoice alternatives]
  | .not operand => postorder operand ++ [.not operand]
  | .star operand => postorder operand ++ [.star operand]
  | .plus operand => postorder operand ++ [.plus operand]
  | .opt operand => postorder operand ++ [.opt operand]
  | .ref grammar name => [.ref grammar name]

/-- The nodes of several blueprints, from left to right. -/
def postorderAll : List Blueprint → List Blueprint
  | [] => []
  | blueprint :: rest => postorder blueprint ++ postorderAll rest

end

variable (locate : String → Option GrammarId)

/-- The fault of a node by itself, when its parts have been built. -/
def fault? : Blueprint → Option Fault
  | .range low high => if high < low then some (.reversedRange low high) else none
  | .choice [] => some .emptyChoice
  | .ref grammar _ => if (locate grammar).isNone then some (.unknownGrammar grammar) else none
  | _ => none

/-- The reference that a node makes. -/
def ref? : Blueprint → Option Ref
  | .ref grammar name => (locate grammar).map (⟨·, name⟩)
  | _ => none

/-- The nodes that are built when they are gone through: those before the first that is at fault, or
all of them. -/
def completed (nodes : List Blueprint) : List Blueprint :=
  nodes.takeWhile fun node => (fault? locate node).isNone

variable {locate} {nodes : List Blueprint} {fault : Fault}

theorem isSome_fault?_iff {node : Blueprint} :
    (fault? locate node).isSome = true ↔
      (∃ low high, high < low ∧ node = .range low high) ∨ node = .choice [] ∨
        ∃ grammar name, node = .ref grammar name ∧ locate grammar = none := by
  cases node with
  | range low high => simp [fault?]
  | choice alternatives => cases alternatives <;> simp [fault?]
  | ref grammar name => simp [fault?]
  | _ => simp [fault?]

/-- Where all grammars are known, there are two ways to be at fault. -/
theorem isSome_findSome?_fault?_iff
    (hknown : ∀ grammar name, .ref grammar name ∈ nodes → ∃ id, locate grammar = some id) :
    (nodes.findSome? (fault? locate)).isSome = true ↔
      (∃ low high, high < low ∧ .range low high ∈ nodes) ∨ .choice [] ∈ nodes := by
  rw [List.findSome?_isSome_iff]
  constructor
  · rintro ⟨node, hnode, hfault⟩
    obtain ⟨low, high, hlt, rfl⟩ | rfl | ⟨grammar, name, rfl, hnone⟩ := isSome_fault?_iff.mp hfault
    · exact Or.inl ⟨low, high, hlt, hnode⟩
    · exact Or.inr hnode
    · obtain ⟨id, hid⟩ := hknown grammar name hnode
      rw [hnone] at hid
      cases hid
  · rintro (⟨low, high, hlt, hnode⟩ | hnode)
    · exact ⟨_, hnode, isSome_fault?_iff.mpr (Or.inl ⟨low, high, hlt, rfl⟩)⟩
    · exact ⟨_, hnode, isSome_fault?_iff.mpr (Or.inr (Or.inl rfl))⟩

theorem ref?_eq_some_iff {node : Blueprint} {id : GrammarId} {name : String} :
    ref? locate node = some ⟨id, name⟩ ↔
      ∃ grammar, node = .ref grammar name ∧ locate grammar = some id := by
  cases node with
  | ref grammar name' =>
    rw [ref?, Option.map_eq_some_iff]
    constructor
    · rintro ⟨_, hlocate, ⟨⟩⟩
      exact ⟨grammar, rfl, hlocate⟩
    · rintro ⟨_, ⟨⟩, hlocate⟩
      exact ⟨id, hlocate, rfl⟩
  | _ => simp [ref?]

theorem completed_append (h : nodes.findSome? (fault? locate) = none) (after : List Blueprint) :
    completed locate (nodes ++ after) = nodes ++ completed locate after := by
  apply List.takeWhile_append_of_pos
  intro node hnode
  rw [List.findSome?_eq_none_iff.mp h node hnode]
  rfl

/-- Nothing is built after the first fault. -/
theorem completed_append_of_fault (h : nodes.findSome? (fault? locate) = some fault)
    (after : List Blueprint) : completed locate (nodes ++ after) = completed locate nodes := by
  obtain ⟨before, node, rest, rfl, hnode, hbefore⟩ := List.findSome?_eq_some_iff.mp h
  -- The node at fault is not completed, whatever comes after it.
  have hstops : ∀ after, completed locate (before ++ node :: after) = before := by
    intro after
    rw [completed_append (List.findSome?_eq_none_iff.mpr hbefore), completed,
      List.takeWhile_cons_of_neg (by simp [hnode]), List.append_nil]
  rw [List.append_assoc, List.cons_append, hstops, hstops]

end Blueprint

open Blueprint

/-! ### Building goes through the nodes -/

namespace Built

variable {α β : Type} {locate : String → Option GrammarId} {built : Built α}
  {nodes nodes' : List Blueprint} {node : Blueprint}

/-- What was built by going through the nodes up to the first fault. -/
structure Visits (locate : String → Option GrammarId) (built : Built α)
    (nodes : List Blueprint) : Prop where
  /-- The references are those of the nodes before the first fault. -/
  refs_eq : built.refs = (completed locate nodes).filterMap (ref? locate)
  /-- The first fault is the one that is reported. -/
  error_iff : ∀ fault, built.result = .error fault ↔ nodes.findSome? (fault? locate) = some fault

theorem visits_nil (locate : String → Option GrammarId) (a : α) : (plain a).Visits locate [] where
  refs_eq := rfl
  error_iff _ := ⟨nofun, nofun⟩

/-- A node that makes no reference. -/
theorem visits_node {result : Except Fault α} (href : ref? locate node = none)
    (h : ∀ fault, result = .error fault ↔ fault? locate node = some fault) :
    Visits locate ⟨[], result⟩ [node] where
  refs_eq := by
    symm
    rw [List.filterMap_eq_nil_iff]
    intro other hother
    rwa [List.mem_singleton.mp ((List.takeWhile_sublist _).subset hother)]
  error_iff fault := by
    rw [h, List.findSome?_singleton]

theorem visits_plain (href : ref? locate node = none) (hfault : fault? locate node = none) (a : α) :
    (plain a).Visits locate [node] := by
  refine visits_node href ?_
  simp [hfault]

namespace Visits

theorem findSome?_eq_none {a : α} (h : built.Visits locate nodes) (ha : built.result = .ok a) :
    nodes.findSome? (fault? locate) = none := by
  rw [Option.eq_none_iff_forall_ne_some]
  intro fault hfault
  rw [(h.error_iff fault).mpr hfault] at ha
  cases ha

/-- What comes next is built only if nothing was at fault before. -/
theorem andThen (h : built.Visits locate nodes) {next : α → Built β}
    (hnext : ∀ a, built.result = .ok a → (next a).Visits locate nodes') :
    (built.andThen next).Visits locate (nodes ++ nodes') := by
  unfold Built.andThen
  cases hresult : built.result with
  | error fault =>
    -- The fault is among the first nodes, so the other ones are not reached.
    have hfault := (h.error_iff fault).mp hresult
    exact {
      refs_eq := by rw [completed_append_of_fault hfault, ← h.refs_eq]
      error_iff := fun cause => by
        rw [List.findSome?_append, hfault, Option.some_or, Except.error.injEq, Option.some.injEq] }
  | ok a =>
    -- All the first nodes have been built, and what happens next is told by the other ones.
    have hnone := h.findSome?_eq_none hresult
    have hsecond := hnext a hresult
    have hself : completed locate nodes = nodes := by
      simpa [completed] using completed_append hnone []
    exact {
      refs_eq := by
        rw [completed_append hnone, List.filterMap_append, ← hsecond.refs_eq, h.refs_eq, hself]
      error_iff := fun cause => by
        rw [List.findSome?_append, hnone, Option.none_or]
        exact hsecond.error_iff cause }

theorem map (h : built.Visits locate nodes) (f : α → β) : (built.map f).Visits locate nodes := by
  rw [map_eq_andThen, ← List.append_nil nodes]
  exact h.andThen fun a _ => visits_nil locate (f a)

/-- A node whose parts have been built, and which makes no reference. -/
theorem check (h : built.Visits locate nodes) {f : α → Except Fault β}
    (href : ref? locate node = none)
    (hf : ∀ a, built.result = .ok a →
      ∀ fault, f a = .error fault ↔ fault? locate node = some fault) :
    (built.check f).Visits locate (nodes ++ [node]) := by
  rw [check_eq_andThen]
  exact h.andThen fun a ha => visits_node href (hf a ha)

/-- A node that cannot be at fault, after its parts. -/
theorem parent (h : built.Visits locate nodes) {f : α → β} (href : ref? locate node = none)
    (hfault : fault? locate node = none) : (built.map f).Visits locate (nodes ++ [node]) := by
  rw [map_eq_andThen]
  exact h.andThen fun a _ => visits_plain href hfault (f a)

end Visits

end Built

namespace Blueprint

variable {locate : String → Option GrammarId}

theorem visits_range (locate : String → Option GrammarId) (low high : Char) :
    (build locate (.range low high)).Visits locate [.range low high] := by
  rw [build]
  refine Built.visits_node rfl ?_
  intro fault
  rw [Rule.range?, fault?]
  split <;> simp

theorem visits_ref (locate : String → Option GrammarId) (grammar name : String) :
    (build locate (.ref grammar name)).Visits locate [.ref grammar name] := by
  rw [build]
  cases hlocate : locate grammar with
  | none =>
    refine Built.visits_node (by simp [ref?, hlocate]) ?_
    simp [fault?, hlocate]
  | some id =>
    exact {
      refs_eq := by simp [completed, fault?, ref?, hlocate]
      error_iff := by simp [fault?, hlocate] }

/-- Whether a choice has an alternative is known when its alternatives have been built. -/
theorem choice?_eq_error_iff {alternatives : List Blueprint} {rules : List Rule}
    (h : (buildAll locate alternatives).result = .ok rules) (fault : Fault) :
    Rule.choice? rules = .error fault ↔ fault? locate (.choice alternatives) = some fault := by
  cases alternatives with
  | nil =>
    rw [buildAll] at h
    obtain rfl := Except.ok.inj h
    simp [Rule.choice?, fault?]
  | cons alternative rest =>
    have hrules : rules ≠ [] := by
      rintro rfl
      cases describes_of_buildAll _ h
    simp [Rule.choice?, fault?, hrules]

mutual

/-- To build a blueprint is to go through its nodes. -/
theorem visits_build (locate : String → Option GrammarId) (blueprint : Blueprint) :
    (build locate blueprint).Visits locate blueprint.postorder := by
  cases blueprint with
  | char c => rw [build]; exact Built.visits_plain rfl rfl _
  | range low high => exact visits_range locate low high
  | anyRange low high => rw [build]; exact Built.visits_plain rfl rfl _
  | string chars => rw [build]; exact Built.visits_plain rfl rfl _
  | seq parts => rw [build]; exact (visits_buildAll locate parts).parent rfl rfl
  | pair left right =>
    -- The pair is made as soon as its right part has been built.
    rw [build, postorder, List.append_assoc]
    exact (visits_build locate left).andThen fun a _ =>
      (visits_build locate right).parent rfl rfl
  | choice alternatives =>
    rw [build]
    exact (visits_buildAll locate alternatives).check rfl fun rules hrules =>
      choice?_eq_error_iff hrules
  | anyChoice alternatives => rw [build]; exact (visits_buildAll locate alternatives).parent rfl rfl
  | not operand => rw [build]; exact (visits_build locate operand).parent rfl rfl
  | star operand => rw [build]; exact (visits_build locate operand).parent rfl rfl
  | plus operand => rw [build]; exact (visits_build locate operand).parent rfl rfl
  | opt operand => rw [build]; exact (visits_build locate operand).parent rfl rfl
  | ref grammar name => exact visits_ref locate grammar name

theorem visits_buildAll (locate : String → Option GrammarId) (blueprints : List Blueprint) :
    (buildAll locate blueprints).Visits locate (postorderAll blueprints) := by
  cases blueprints with
  | nil => rw [buildAll]; exact Built.visits_nil locate []
  | cons blueprint rest =>
    rw [buildAll, postorderAll]
    exact (visits_build locate blueprint).andThen fun rule _ => (visits_buildAll locate rest).map _

end

/-- A blueprint describes a rule exactly if none of its nodes is at fault. -/
theorem exists_describes_iff {blueprint : Blueprint} :
    (∃ rule, Describes locate blueprint rule) ↔
      blueprint.postorder.findSome? (fault? locate) = none := by
  have hvisits := visits_build locate blueprint
  constructor
  · rintro ⟨rule, h⟩
    exact hvisits.findSome?_eq_none (build_eq_ok_iff.mpr h)
  · intro hnone
    cases hresult : (build locate blueprint).result with
    | error fault =>
      rw [(hvisits.error_iff fault).mp hresult] at hnone
      cases hnone
    | ok rule => exact ⟨rule, describes_of_build blueprint hresult⟩

end Blueprint

/-! ### Questions are about matches -/

namespace Store

variable {store store' : Store}

theorem matchText_eq_of_matchAt (h : store.matchAt = store'.matchAt) :
    store.matchText = store'.matchText := by
  funext rule text
  rw [matchText, matchText, attempt, attempt, h]

/-- Stores in which rules match alike give the same answers. -/
theorem reply_eq_of_matchAt (h : store.matchAt = store'.matchAt) : store.reply = store'.reply := by
  have hattempt : store.attempt = store'.attempt := by
    funext rule input position
    rw [attempt, attempt, h]
  have hmatchText := matchText_eq_of_matchAt h
  have hfull : store.matchesFully = store'.matchesFully := by
    funext rule text
    rw [matchesFully, matchesFully, hmatchText]
  funext rule query
  cases query <;> simp only [reply, search, hattempt, hmatchText, hfull]

end Store

/-! ### What a grammar gains -/

/-- The grammar has gained these names, and nothing else. -/
structure Grammar.Gains (g g' : Grammar) (new : Set String) : Prop where
  /-- The definitions are the same. -/
  rule?_eq : ∀ name, g'.rule? name = g.rule? name
  /-- The new names are registered as well. -/
  isRegistered_iff : ∀ name,
    g'.isRegistered name = true ↔ g.isRegistered name = true ∨ name ∈ new
  /-- The same names are listed. -/
  names_eq : g'.names = g.names
  /-- The grammar is printed as before. -/
  render_eq : g'.render = g.render
  /-- The check succeeds if it did so before and the new names are defined. -/
  check_eq_ok_iff : g'.check = .ok () ↔
    g.check = .ok () ∧ ∀ name ∈ new, (g.rule? name).isSome = true
  /-- Otherwise it reports the smallest name without a definition, the new names included. -/
  check_eq_error_iff : ∀ fault, g'.check = .error fault ↔ ∃ name, fault = .undefinedRule name ∧
    IsLeast {name | (g.isRegistered name = true ∨ name ∈ new) ∧ g.rule? name = none} name

/-- A grammar is told by what is defined and what is registered. -/
theorem Grammar.gains_of {g g' : Grammar} {new : Set String}
    (hrule : ∀ name, g'.rule? name = g.rule? name)
    (hregistered : ∀ name, g'.isRegistered name = true ↔ g.isRegistered name = true ∨ name ∈ new) :
    g.Gains g' new := by
  have hnames : g'.names = g.names := names_eq_of_isSome fun name => by rw [hrule]
  exact {
    rule?_eq := hrule
    isRegistered_iff := hregistered
    names_eq := hnames
    render_eq := by simp only [Grammar.render_eq, hnames, hrule]
    check_eq_ok_iff := by
      simp only [Grammar.check_eq_ok_iff, hrule, hregistered, or_imp, forall_and]
    check_eq_error_iff := fun fault => by
      simp only [Grammar.check_eq_error_iff, hrule, hregistered]
      rfl }

/-! ### The effects of building -/

namespace Session

variable {s : Session} {blueprint : Blueprint}

/-- The names that a grammar gains from building: those of the references before the first fault. -/
def gained (s : Session) (blueprint : Blueprint) (id : GrammarId) : Set String :=
  {name | ∃ grammar, .ref grammar name ∈ completed s.locate blueprint.postorder ∧
    s.locate grammar = some id}

theorem within_of_mem_registers {c : Change} (h : c ∈ s.registers blueprint) : c.Within := by
  obtain ⟨target, -, rfl⟩ := List.mem_map.mp h
  trivial

theorem firstDefinition_registers (s : Session) (blueprint : Blueprint) (target : Ref) :
    firstDefinition target (s.registers blueprint) = none := by
  rw [firstDefinition, registers, List.findSome?_map, List.findSome?_eq_none_iff]
  exact fun _ _ => rfl

theorem exists_mentions_registers_iff {id : GrammarId} {name : String} :
    (∃ c ∈ s.registers blueprint, c.Mentions ⟨id, name⟩) ↔ name ∈ s.gained blueprint id := by
  rw [registers, (visits_build s.locate blueprint).refs_eq, gained, Set.mem_ofPred_eq]
  constructor
  · rintro ⟨c, hc, hmentions⟩
    -- To make a reference mentions its own name only.
    obtain ⟨target, htarget, rfl⟩ := List.mem_map.mp hc
    obtain rfl : target = ⟨id, name⟩ := hmentions
    obtain ⟨node, hnode, href⟩ := List.mem_filterMap.mp htarget
    obtain ⟨grammar, rfl, hlocate⟩ := ref?_eq_some_iff.mp href
    exact ⟨grammar, hnode, hlocate⟩
  · rintro ⟨grammar, hnode, hlocate⟩
    have href : ref? s.locate (.ref grammar name) = some ⟨id, name⟩ :=
      ref?_eq_some_iff.mpr ⟨grammar, rfl, hlocate⟩
    exact ⟨_, List.mem_map_of_mem (List.mem_filterMap.mpr ⟨_, hnode, href⟩), rfl⟩

theorem grammar?_build (s : Session) (blueprint : Blueprint) (id : GrammarId) :
    (s.build blueprint).1.store.grammar? id =
      (s.store.grammar? id).map (·.replay id (s.registers blueprint)) := by
  rw [store_build]
  exact Store.grammar?_replay_of_within (fun _ => within_of_mem_registers) id

/-- What building does to a grammar. -/
theorem gains_replay_registers (s : Session) (blueprint : Blueprint) (id : GrammarId)
    (g : Grammar) : g.Gains (g.replay id (s.registers blueprint)) (s.gained blueprint id) := by
  apply Grammar.gains_of
  · intro name
    rw [Grammar.rule?_replay, firstDefinition_registers, Option.or_none]
  · intro name
    rw [Grammar.isRegistered_replay, exists_mentions_registers_iff]

theorem resolve_build (s : Session) (blueprint : Blueprint) (target : Ref) :
    (s.build blueprint).1.store.resolve target = s.store.resolve target := by
  rw [Store.resolve, Store.resolve, grammar?_build]
  cases s.store.grammar? target.grammar with
  | none => rfl
  | some g =>
    have hgains := s.gains_replay_registers blueprint target.grammar g
    rw [Option.map_some]
    dsimp only
    rw [hgains.rule?_eq]

theorem matchAt_build (s : Session) (blueprint : Blueprint) :
    (s.build blueprint).1.store.matchAt = s.store.matchAt :=
  Store.matchAt_eq_of_resolve (s.resolve_build blueprint)

/-- What a grammar answers stays the same if it does not depend on the new names. -/
theorem withGrammar_build (grammar : String) {answer answer' : Grammar → Run Event Reply}
    (h : ∀ g g' new, g.Gains g' new → answer' g' = answer g) :
    (s.build blueprint).1.withGrammar grammar answer' = s.withGrammar grammar answer := by
  have hlocate : (s.build blueprint).1.locate grammar = s.locate grammar := rfl
  rw [withGrammar, withGrammar, grammar?, grammar?, hlocate]
  cases s.locate grammar with
  | none => rfl
  | some id =>
    rw [Option.bind_some, Option.bind_some, grammar?_build]
    cases s.store.grammar? id with
    | none => rfl
    | some g => exact h g _ _ (s.gains_replay_registers blueprint id g)

/-- Only the check may be answered otherwise after building. -/
theorem ask_build {question : Question} (hquestion : ∀ grammar, question ≠ .check grammar) :
    (s.build blueprint).1.ask question = s.ask question := by
  have hmatch := s.matchAt_build blueprint
  cases question with
  | check grammar => exact absurd rfl (hquestion grammar)
  | names grammar => exact withGrammar_build grammar fun g g' new h => by rw [h.names_eq]
  | print grammar => exact withGrammar_build grammar fun g g' new h => by rw [h.render_eq]
  | matchText grammar name text =>
    refine withGrammar_build grammar fun g g' new h => ?_
    rw [h.rule?_eq, Store.matchText_eq_of_matchAt hmatch]
  | defined grammar name query =>
    refine withGrammar_build grammar fun g g' new h => ?_
    rw [h.rule?_eq, Store.reply_eq_of_matchAt hmatch]
  | held label query =>
    have hheld : (s.build blueprint).1.held = s.held := rfl
    rw [ask, ask, hheld, Store.reply_eq_of_matchAt hmatch]

/-- Building fails exactly if there is a range with reversed bounds or a choice without alternatives
in the blueprint, and it reports the first of them in postorder; otherwise it gives the rule that
the blueprint describes, as told by `Blueprint.build_eq_ok_iff`. Grammars are neither made nor
dropped. Each gains the names of the references before that node, or of all references if there is
no such node, and nothing else. All rules match as before. -/
theorem build_postorder (s : Session) (blueprint : Blueprint)
    (hknown : ∀ grammar name, .ref grammar name ∈ blueprint.postorder →
      ∃ id, s.locate grammar = some id) :
    let after := (s.build blueprint).1
    let result := (s.build blueprint).2
    ((∃ fault, result = .error fault) ↔
      (∃ low high, high < low ∧ .range low high ∈ blueprint.postorder) ∨
        .choice [] ∈ blueprint.postorder) ∧
    (∀ fault, result = .error fault ↔
      blueprint.postorder.findSome? (fault? s.locate) = some fault) ∧
    after.handles = s.handles ∧ after.held = s.held ∧ after.store.nextId = s.store.nextId ∧
    (∀ id, s.store.grammar? id = none → after.store.grammar? id = none) ∧
    (∀ id g, s.store.grammar? id = some g →
      ∃ g', after.store.grammar? id = some g' ∧ g.Gains g' (s.gained blueprint id)) ∧
    ∀ rule input position,
      after.store.matchAt rule input position = s.store.matchAt rule input position := by
  intro after result
  have hvisits := visits_build s.locate blueprint
  refine ⟨?_, hvisits.error_iff, rfl, rfl, ?_, ?_, ?_, ?_⟩
  · rw [← isSome_findSome?_fault?_iff hknown, Option.isSome_iff_exists]
    exact exists_congr hvisits.error_iff
  · rw [store_build]
    exact Store.nextId_replay_of_within fun _ => within_of_mem_registers
  · intro id hg
    rw [grammar?_build, hg, Option.map_none]
  · intro id g hg
    exact ⟨_, by rw [grammar?_build, hg, Option.map_some], s.gains_replay_registers blueprint id g⟩
  · intro rule input position
    rw [matchAt_build]

/-- A choice with two faults in it, which stand on different levels. There are references before the
first fault and after it. -/
def faulty : Blueprint :=
  .choice [.seq [.ref "main" "b", .opt (.ref "main" "a")],
    .pair (.star (.range 'z' 'a')) (.ref "main" "c"), .choice []]

theorem completed_faulty : completed initial.locate faulty.postorder =
    [.ref "main" "b", .ref "main" "a", .opt (.ref "main" "a"),
      .seq [.ref "main" "b", .opt (.ref "main" "a")]] := rfl

theorem gained_faulty : initial.gained faulty 0 = {"b", "a"} := by
  ext name
  rw [gained, completed_faulty]
  constructor
  · rintro ⟨grammar, hmem, -⟩
    have hname : grammar = "main" ∧ name = "b" ∨ grammar = "main" ∧ name = "a" := by
      simpa using hmem
    exact hname.imp And.right And.right
  · rintro (rfl | rfl) <;> exact ⟨"main", by simp, rfl⟩

/-- The range is reported, and the references before it have been made. -/
theorem build_postorder_faulty :
    (∀ grammar name, .ref grammar name ∈ faulty.postorder →
      ∃ id, initial.locate grammar = some id) ∧
    (initial.build faulty).2 = .error (.reversedRange 'z' 'a') ∧
    ∃ g, (initial.build faulty).1.store.grammar? 0 = some g ∧
      (∀ name, g.isRegistered name = true ↔ name = "b" ∨ name = "a") ∧
      g.check = .error (.undefinedRule "a") := by
  have hknown : ∀ grammar name, .ref grammar name ∈ faulty.postorder →
      ∃ id, initial.locate grammar = some id := by
    intro grammar name hmem
    -- The third reference stands after the fault, and it has to be known as well.
    have hnode : (grammar = "main" ∧ name = "b") ∨ (grammar = "main" ∧ name = "a") ∨
        grammar = "main" ∧ name = "c" := by
      simpa [faulty, postorder, postorderAll] using hmem
    obtain ⟨rfl, -⟩ | ⟨rfl, -⟩ | ⟨rfl, -⟩ := hnode <;> exact ⟨0, rfl⟩
  obtain ⟨-, hfault, -, -, -, -, hgrammar, -⟩ := build_postorder initial faulty hknown
  obtain ⟨g, hg, hgains⟩ := hgrammar 0 .empty rfl
  rw [gained_faulty] at hgains
  refine ⟨hknown, (hfault _).mpr rfl, g, hg, ?_, ?_⟩
  · intro name
    simp [hgains.isRegistered_iff]
  · rw [hgains.check_eq_error_iff]
    refine ⟨"a", rfl, by simp, ?_⟩
    rintro name ⟨hname, -⟩
    have hcases : name = "b" ∨ name = "a" := by simpa using hname
    rcases hcases with rfl | rfl <;> decide

end Session

end Peg
