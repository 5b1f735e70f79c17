import Peg.Proofs.Answers
import Peg.Proofs.Equations
import Peg.Proofs.Parts
import Peg.Proofs.Readability
import Peg.Proofs.Registry

/-!
# A pair is the sequence of two

Two parts in a row can be written as a pair or as a sequence of two parts. A pair joins what its
parts consumed, and a sequence cuts the stretch over all of them from the text. As every part
consumes a stretch of the text, both give the same, and both are written alike. So pairs and
sequences of two may be exchanged for each other wherever they stand, also within the definitions of
grammars that refer to themselves, and nothing that can be asked tells the difference.

## Main definitions

* `Rule.Exchanged` — pairs and sequences of two are exchanged, in any number of places
* `Grammar.Exchanged`, `Store.Exchanged` — this is done in the definitions of grammars

## Main results

* `Rule.matchWith_pair_eq_seq` — a pair matches as the sequence of its parts
* `Rule.Exchanged.matchWith_eq`, `Rule.Exchanged.render_eq` — rules match and are written as before
* `Grammar.Exchanged.names_eq`, `Grammar.Exchanged.check_eq`, `Grammar.Exchanged.render_eq` — so are
  grammars
* `Store.Exchanged.matchAt_eq` — matches are as before
-/

namespace Peg

open Outcome Run

variable {ε : Type} {input : Array Char} {position : Nat}

/-! ### Rules -/

namespace Rule

variable {call : Meaning ε} {rule rule' : Rule}

/-- A pair matches as the sequence of its parts. -/
theorem matchWith_pair_eq_seq (hcall : call.Spans input) (left right : Rule) :
    (Rule.pair left right).matchWith call input =
      (Rule.seq [left, right]).matchWith call input := by
  funext position
  rw [matchWith_pair, matchWith_seq_cons hcall, matchWith_seq_singleton hcall]

/-- One rule is the other one with pairs exchanged for sequences of two parts, or these for pairs,
in any number of places. -/
inductive Exchanged : Rule → Rule → Prop where
  | pair (left right : Rule) : Exchanged (.pair left right) (.seq [left, right])
  | refl (rule : Rule) : Exchanged rule rule
  | symm {rule rule' : Rule} (h : Exchanged rule rule') : Exchanged rule' rule
  | trans {rule rule' rule'' : Rule} (h : Exchanged rule rule') (h' : Exchanged rule' rule'') :
    Exchanged rule rule''
  | seq {old new : Rule} (before after : List Rule) (h : Exchanged old new) :
    Exchanged (.seq (before ++ old :: after)) (.seq (before ++ new :: after))
  | pairLeft {old new : Rule} (right : Rule) (h : Exchanged old new) :
    Exchanged (.pair old right) (.pair new right)
  | pairRight {old new : Rule} (left : Rule) (h : Exchanged old new) :
    Exchanged (.pair left old) (.pair left new)
  | choice {old new : Rule} (before after : List Rule) (h : Exchanged old new) :
    Exchanged (.choice (before ++ old :: after)) (.choice (before ++ new :: after))
  | not {old new : Rule} (h : Exchanged old new) : Exchanged (.not old) (.not new)
  | star {old new : Rule} (h : Exchanged old new) : Exchanged (.star old) (.star new)
  | plus {old new : Rule} (h : Exchanged old new) : Exchanged (.plus old) (.plus new)
  | opt {old new : Rule} (h : Exchanged old new) : Exchanged (.opt old) (.opt new)

namespace Exchanged

/-- An exchange does not change what a rule matches, whatever its references mean. -/
theorem matchWith_eq (h : Exchanged rule rule') (hcall : call.Spans input) :
    rule.matchWith call input = rule'.matchWith call input := by
  -- The parts are matched with the same references, so `call` stays as it is.
  induction h with
  | pair left right => exact matchWith_pair_eq_seq hcall left right
  | refl rule => rfl
  | symm _ ih => exact ih.symm
  | trans _ _ ih ih' => exact ih.trans ih'
  | seq before after _ ih =>
    funext position
    rw [matchWith, matchWith, stopOfSeq_congr (matchAlike_inPlace before after ih)]
  | pairLeft right _ ih => funext position; rw [matchWith, matchWith, ih]
  | pairRight left _ ih => funext position; rw [matchWith, matchWith, ih]
  | choice before after _ ih =>
    funext position
    rw [matchWith, matchWith, firstMatch_congr (matchAlike_inPlace before after ih)]
  | not _ ih => funext position; rw [matchWith, matchWith, ih]
  | star _ ih => funext position; rw [matchWith, matchWith, ih]
  | plus _ ih => funext position; rw [matchWith, matchWith, ih]
  | opt _ ih => funext position; rw [matchWith, matchWith, ih]

/-- It is one of the rewritings that keep the normal form. -/
theorem norm_eq (h : Exchanged rule rule') : rule.norm = rule'.norm := by
  induction h with
  | pair left right => rfl
  | refl rule => rfl
  | symm _ ih => exact ih.symm
  | trans _ _ ih ih' => exact ih.trans ih'
  | seq before after _ ih => simp [norm, normAll_eq_map, ih]
  | pairLeft right _ ih => rw [norm, norm, ih]
  | pairRight left _ ih => rw [norm, norm, ih]
  | choice before after _ ih => simp [norm, normAll_eq_map, ih]
  | not _ ih => rw [norm, norm, ih]
  | star _ ih => rw [norm, norm, ih]
  | plus _ ih => rw [norm, norm, ih]
  | opt _ ih => rw [norm, norm, ih]

/-- So an exchange does not change what is written. -/
theorem render_eq (h : Exchanged rule rule') : rule.render = rule'.render :=
  render_eq_of_normByName (congrArg (within · 0) h.norm_eq)

end Exchanged

end Rule

/-! ### Grammars -/

theorem none_or_some_of_rel {α β : Type} {r : α → β → Prop} {x : Option α} {y : Option β}
    (h : Option.Rel r x y) :
    (x = none ∧ y = none) ∨ ∃ a b, x = some a ∧ y = some b ∧ r a b := by
  cases h with
  | none => exact Or.inl ⟨rfl, rfl⟩
  | some h => exact Or.inr ⟨_, _, rfl, rfl, h⟩

namespace Grammar

variable {g g' : Grammar}

/-- The grammars have registered the same names, and give them rules that are exchanged for each
other. -/
structure Exchanged (g g' : Grammar) : Prop where
  isRegistered_eq : ∀ name, g.isRegistered name = g'.isRegistered name
  rule? : ∀ name, Option.Rel Rule.Exchanged (g.rule? name) (g'.rule? name)

namespace Exchanged

theorem refl (g : Grammar) : g.Exchanged g where
  isRegistered_eq _ := rfl
  rule? name := by
    cases g.rule? name with
    | none => exact .none
    | some rule => exact .some (.refl rule)

variable (h : g.Exchanged g')
include h

theorem isSome_eq (name : String) : (g.rule? name).isSome = (g'.rule? name).isSome := by
  rcases none_or_some_of_rel (h.rule? name) with ⟨hrule, hrule'⟩ | ⟨_, _, hrule, hrule', -⟩
  · rw [hrule, hrule']
  · rw [hrule, hrule', Option.isSome_some, Option.isSome_some]

theorem names_eq : g.names = g'.names := names_eq_of_isSome h.isSome_eq

theorem check_eq : g.check = g'.check := by
  rw [check, check, undefinedNames_eq_of_isSome h.isRegistered_eq h.isSome_eq]

theorem render_eq : g.render = g'.render := by
  rw [Grammar.render_eq, Grammar.render_eq, h.names_eq]
  congr 2
  funext name
  rcases none_or_some_of_rel (h.rule? name) with ⟨hrule, hrule'⟩ | ⟨_, _, hrule, hrule', hexch⟩
  · rw [hrule, hrule']
  · rw [hrule, hrule', Option.map_some, Option.map_some, renderDefinition, renderDefinition,
      hexch.render_eq]

theorem register (name : String) : (g.register name).Exchanged (g'.register name) where
  isRegistered_eq name' := by
    rw [isRegistered_register, isRegistered_register, h.isRegistered_eq]
  rule? name' := by
    rw [rule?_register, rule?_register]
    exact h.rule? name'

end Exchanged

end Grammar

/-! ### Stores -/

/-- Both failed for the same reason, or both gave values that are related. -/
def Agree {α β : Type} (r : α → β → Prop) (x : Except ε α) (y : Except ε β) : Prop :=
  (∃ e, x = .error e ∧ y = .error e) ∨ ∃ a b, x = .ok a ∧ y = .ok b ∧ r a b

/-- The stores hold grammars that are exchanged for each other, under the same identities. -/
structure Store.Exchanged (store store' : Store) : Prop where
  nextId_eq : store.nextId = store'.nextId
  grammar? : ∀ id, Option.Rel Grammar.Exchanged (store.grammar? id) (store'.grammar? id)

namespace Store.Exchanged

theorem refl (store : Store) : store.Exchanged store where
  nextId_eq := rfl
  grammar? id := by
    cases store.grammar? id with
    | none => exact .none
    | some g => exact .some (.refl g)

variable {store store' : Store} {rule rule' : Rule} (h : store.Exchanged store')
include h

/-- A reference leads to rules that are exchanged for each other, or nowhere for the same reason. -/
theorem resolve (target : Ref) :
    Agree Rule.Exchanged (store.resolve target) (store'.resolve target) := by
  rcases none_or_some_of_rel (h.grammar? target.grammar) with
    ⟨hg, hg'⟩ | ⟨g, g', hg, hg', hexch⟩
  · exact Or.inl ⟨_, resolve_of_dropped hg, resolve_of_dropped hg'⟩
  · rcases none_or_some_of_rel (hexch.rule? target.name) with
      ⟨hrule, hrule'⟩ | ⟨rule, rule', hrule, hrule', hrules⟩
    · exact Or.inl ⟨_, resolve_of_undefined hg hrule, resolve_of_undefined hg' hrule'⟩
    · exact Or.inr ⟨rule, rule', resolve_eq_ok_iff.mpr ⟨g, hg, hrule⟩,
        resolve_eq_ok_iff.mpr ⟨g', hg', hrule'⟩, hrules⟩

theorem meaning_eq (input : Array Char) (depth : Nat) :
    store.meaning input depth = store'.meaning input depth := by
  induction depth with
  | zero => rfl
  | succ depth ih =>
    funext target position
    rcases h.resolve target with ⟨miss, hres, hres'⟩ | ⟨rule, rule', hres, hres', hrule⟩
    · rw [meaning_succ_of_error hres, meaning_succ_of_error hres']
    · -- First the references within the rules are the same, and then the rules may be exchanged.
      rw [meaning_succ_of_ok hres, meaning_succ_of_ok hres', ih,
        hrule.matchWith_eq (store'.meaning_spans input depth)]

/-- An exchange in a rule and in all definitions changes neither what is matched nor what is
logged. -/
theorem matchAt_eq (hrule : rule.Exchanged rule') (input : Array Char) (position : Nat) :
    store.matchAt rule input position = store'.matchAt rule' input position := by
  obtain ⟨depth, hmatch, hmatch'⟩ := exists_depth_matchAt store store' input input
  rw [hmatch, hmatch', h.meaning_eq, hrule.matchWith_eq (store'.meaning_spans input depth)]

theorem reply_line_eq (hrule : rule.Exchanged rule') (query : Query) :
    (store.reply rule query).mapLog Event.line = (store'.reply rule' query).mapLog Event.line := by
  apply Store.reply_line_eq hrule.render_eq
  intro input position
  rw [h.matchAt_eq hrule]

end Store.Exchanged

end Peg
