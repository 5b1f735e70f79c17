import Std.Data.ExtTreeMap
import Peg.Fault
import Peg.Rule.Render

/-!
# Grammars

A grammar gives rules to names. A name is *registered* as soon as a reference to it is made, and may
get its definition before or after that. A definition is final: a second one for the same name is
refused, and the first is kept.

Names are kept in the order of their code points, so everything that lists names is in that order.

## Main definitions

* `Grammar.register` — note that a name is referred to
* `Grammar.define` — give a name its rule, once
* `Grammar.rule?` — the rule of a name
* `Grammar.names` — the defined names in ascending order
* `Grammar.check` — refuse the grammar if a registered name has no definition
* `Grammar.render` — the definitions as text, one a line

## Main results

* `Grammar.ext` — a grammar is determined by which names are registered and by the rules of names
* `Grammar.rule?_register`, `Grammar.rule?_define` — what is defined after either operation
* `Grammar.isRegistered_register`, `Grammar.isRegistered_define` — what is registered after it
* `Grammar.define_eq_error_iff` — only a second definition is refused
-/

namespace Peg

/-- The registered names, each with its rule if it has been defined. -/
structure Grammar where
  /-- The registered names. A name that has no definition yet is kept with `none`. -/
  slots : Std.ExtTreeMap String (Option Rule) := ∅

namespace Grammar

/-- The grammar without names. -/
def empty : Grammar := {}

/-- Whether a name has been referred to or defined. -/
def isRegistered (g : Grammar) (name : String) : Bool := g.slots.contains name

/-- The rule defined under a name. -/
def rule? (g : Grammar) (name : String) : Option Rule := g.slots[name]?.join

/-- Note that `name` is referred to. A name that is known already stays as it is. -/
def register (g : Grammar) (name : String) : Grammar := ⟨g.slots.insertIfNew name none⟩

/-- Define `name` as `rule`. A name that has a definition keeps it, and the new one is refused. -/
def define (g : Grammar) (name : String) (rule : Rule) : Except Fault Grammar :=
  if (g.rule? name).isSome then
    .error (.duplicateRule name)
  else
    .ok ⟨g.slots.insert name (some rule)⟩

/-- The definitions, in ascending order of the names. -/
def definitions (g : Grammar) : List (String × Rule) :=
  g.slots.toList.filterMap fun slot => slot.2.map (slot.1, ·)

/-- The defined names, in ascending order. -/
def names (g : Grammar) : List String := g.definitions.map (·.1)

/-- The registered names without a definition, in ascending order. -/
def undefinedNames (g : Grammar) : List String :=
  g.slots.toList.filterMap fun slot => if slot.2.isNone then some slot.1 else none

/-- Require that every registered name is defined. The smallest that is not is reported. -/
def check (g : Grammar) : Except Fault Unit :=
  match g.undefinedNames with
  | [] => .ok ()
  | name :: _ => .error (.undefinedRule name)

/-- The written form of one definition. -/
def renderDefinition (name : String) (rule : Rule) : List Char :=
  name.toList ++ [' ', '<', '-', ' '] ++ rule.render

/-- The definitions in ascending order of the names, one a line. -/
def render (g : Grammar) : List Char :=
  ['\n'].intercalate (g.definitions.map fun definition =>
    renderDefinition definition.1 definition.2)

/-- A name that has a definition is registered. -/
theorem isRegistered_of_rule? {g : Grammar} {name : String} {rule : Rule}
    (h : g.rule? name = some rule) : g.isRegistered name = true := by
  simp only [isRegistered, Std.ExtTreeMap.contains_eq_isSome_getElem?]
  cases hslot : g.slots[name]? <;> simp_all [rule?]

/-- Two grammars are the same when they have registered the same names and give them the same
rules. -/
theorem ext {g g' : Grammar} (hreg : ∀ name, g.isRegistered name = g'.isRegistered name)
    (hrule : ∀ name, g.rule? name = g'.rule? name) : g = g' := by
  obtain ⟨slots⟩ := g
  obtain ⟨slots'⟩ := g'
  congr 1
  -- What a map holds under a name is told by whether it holds anything, and by the rule.
  apply Std.ExtTreeMap.ext_getElem?
  intro name
  specialize hreg name
  specialize hrule name
  simp only [isRegistered, Std.ExtTreeMap.contains_eq_isSome_getElem?, rule?] at hreg hrule
  cases h : slots[name]? <;> cases h' : slots'[name]? <;> simp_all

@[simp] theorem rule?_empty (name : String) : empty.rule? name = none := by
  simp [empty, rule?]

@[simp] theorem isRegistered_empty (name : String) : empty.isRegistered name = false := by
  simp [empty, isRegistered]

/-- Referring to a name defines nothing. -/
@[simp] theorem rule?_register (g : Grammar) (name name' : String) :
    (g.register name).rule? name' = g.rule? name' := by
  simp only [rule?, register, Std.ExtTreeMap.getElem?_insertIfNew]
  split
  · rename_i h
    obtain ⟨heq, hnew⟩ := h
    obtain rfl := Std.LawfulEqCmp.eq_of_compare heq
    simp [Std.ExtTreeMap.getElem?_eq_none hnew]
  · rfl

@[simp] theorem isRegistered_register (g : Grammar) (name name' : String) :
    (g.register name).isRegistered name' = (name == name' || g.isRegistered name') := by
  rw [Bool.eq_iff_iff]
  simp [isRegistered, register, Std.ExtTreeMap.contains_insertIfNew]

/-- A definition is refused exactly when the name has one already. -/
theorem define_eq_error_iff {g : Grammar} {name : String} {rule : Rule} {fault : Fault} :
    g.define name rule = .error fault ↔
      fault = .duplicateRule name ∧ (g.rule? name).isSome = true := by
  unfold define
  split
  · rename_i hdef
    exact ⟨fun h => ⟨(Except.error.inj h).symm, hdef⟩, fun h => h.1 ▸ rfl⟩
  · rename_i hnew
    exact ⟨nofun, fun h => absurd h.2 hnew⟩

theorem rule?_define {g g' : Grammar} {name : String} {rule : Rule}
    (h : g.define name rule = .ok g') (name' : String) :
    g'.rule? name' = if name = name' then some rule else g.rule? name' := by
  unfold define at h
  split at h
  · cases h
  · cases h
    by_cases hname : name = name' <;> simp [rule?, Std.ExtTreeMap.getElem?_insert, hname]

theorem isRegistered_define {g g' : Grammar} {name : String} {rule : Rule}
    (h : g.define name rule = .ok g') (name' : String) :
    g'.isRegistered name' = (name == name' || g.isRegistered name') := by
  unfold define at h
  split at h
  · cases h
  · cases h
    rw [Bool.eq_iff_iff]
    simp [isRegistered, Std.ExtTreeMap.contains_insert]

end Grammar

end Peg
