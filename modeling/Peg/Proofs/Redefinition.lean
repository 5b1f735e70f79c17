import Peg.Proofs.References
import Peg.Proofs.Substitution

/-!
# Replacing a definition by an equivalent one

Two rules are equivalent in a store if at every position of every text they end together, with the
same outcome. A reference is equivalent to the rule to which it leads, and rules in which some parts
are replaced by equivalent ones are equivalent.

The equivalence of two rules is known in one grammar, but the new one takes the place of the old one
in another grammar, where it may come back to the name that is redefined. Still, whatever can be
matched with the new definition can be matched with the old one, and gives the same. This is shown
along the new match: the references in it are followed less deep than the one under consideration,
so that what they match is known for the old grammar before the equivalence is used there. The other
direction fails, as a reference to a name is equivalent to its definition, but of no use as one.

## Main definitions

* `Store.Equivalent` — two rules end together with the same outcome
* `Grammar.Redefines` — a grammar with the definitions of another one, but for one name
* `Store.Refines` — what is matched in one grammar is matched in another one

## Main results

* `Store.Equivalent.subst` — equivalent rules in the same context
* `Store.refines_of_redefines` — an equivalent definition never changes an outcome
-/

namespace Peg

variable {ε δ α β : Type} {input : Array Char} {position : Nat}

/-! ### Relations between outcomes -/

namespace Run

/-- The value of a run that ends. -/
def value? : Run ε α → Option α
  | .endless => none
  | .ends a _ => some a

@[simp] theorem value?_endless : (.endless : Run ε α).value? = none := rfl

@[simp] theorem value?_ends (a : α) (log : List ε) : (.ends a log : Run ε α).value? = some a := rfl

theorem value?_eq_some_iff {x : Run ε α} {a : α} :
    x.value? = some a ↔ ∃ log, x = .ends a log := by
  cases x <;> simp

@[simp] theorem value?_bind (x : Run ε α) (f : α → Run ε β) :
    (x >>= f).value? = x.value?.bind fun a => (f a).value? := by
  cases x with
  | endless => rfl
  | ends a log =>
    rw [ends_bind, value?_ends, Option.bind_some]
    cases f a <;> rfl

@[simp] theorem value?_map (f : α → β) (x : Run ε α) : (f <$> x).value? = x.value?.map f := by
  cases x with
  | endless => rfl
  | ends a log => rw [map_ends, value?_ends, value?_ends, Option.map_some]

theorem compositional_value? :
    Compositional fun α (x : Run ε α) (y : Run δ α) => x.value? = y.value? where
  pure _ := rfl
  bind := by
    intro α β x y f g hx hf
    rw [value?_bind, value?_bind, hx]
    congr 1
    funext a
    exact hf a

/-- Where the first run ends, the second one ends with the same value. -/
theorem compositional_imp : Compositional fun α (x : Run ε α) (y : Run δ α) =>
    ∀ a, x.value? = some a → y.value? = some a where
  pure _ := fun _ h => h
  bind := by
    intro α β x y f g hx hf b h
    rw [value?_bind, Option.bind_eq_some_iff] at h ⊢
    obtain ⟨a, ha, hb⟩ := h
    exact ⟨a, hx a ha, hf a b hb⟩

end Run

open Run

/-! ### Equivalent rules -/

namespace Store

variable {store : Store}

/-- At every position of every text the two rules end together, with the same outcome. -/
def Equivalent (store : Store) (rule rule' : Rule) : Prop :=
  ∀ input position,
    (store.matchAt rule input position).value? = (store.matchAt rule' input position).value?

/-- A reference is equivalent to the rule to which it leads. -/
theorem equivalent_ref {target : Ref} {definition : Rule}
    (h : store.resolve target = .ok definition) : store.Equivalent (.ref target) definition := by
  intro input position
  rw [matchAt_ref_of_ok h]

/-- Equivalent rules in the places of the references of a rule give equivalent rules. -/
theorem Equivalent.subst {context : Rule} {f f' : Ref → Rule}
    (h : ∀ target ∈ context.refs, store.Equivalent (f target) (f' target)) :
    store.Equivalent (context.subst f) (context.subst f') := by
  intro input position
  rw [matchAt, Rule.matchWith_subst, matchAt, Rule.matchWith_subst]
  apply context.matchWith_rel compositional_value?
  intro target htarget position
  exact h target htarget input position

end Store

/-! ### The same definitions in another grammar -/

/-- The grammar `g'` has the definitions of `g`, each with its references read in the grammar in
which it stands. Only `name` is defined as `body'` in the place of `body`. -/
structure Grammar.Redefines (id id' : GrammarId) (g g' : Grammar) (name : String)
    (body body' : Rule) : Prop where
  before : g.rule? name = some body
  after : g'.rule? name = some (body'.within id')
  others : ∀ other ≠ name, g'.rule? other = (g.rule? other).map (·.within id')
  /-- The definitions refer to the names of the grammar itself. -/
  closed : ∀ {other definition}, g.rule? other = some definition →
    definition.RefersInto (· = id)
  closed' : body'.RefersInto (· = id)

namespace Store

variable {store store' : Store} {id id' : GrammarId} {g g' : Grammar} {name : String}
  {body body' rule : Rule}

/-- What a rule over the names of the grammar `id` matches when it is read in the grammar `id'` of
the other store, it matches as it stands. -/
def Refines (store' store : Store) (id' id : GrammarId) : Prop :=
  ∀ rule : Rule, rule.RefersInto (· = id) → ∀ input position o log',
    store'.matchAt (rule.within id') input position = .ends o log' →
      ∃ log, store.matchAt rule input position = .ends o log

/-- If the references into the grammar `id` match what they match in the grammar `id'` at a limited
depth, then so does every rule over the names of the grammar. -/
theorem matchAt_of_meaning {depth : Nat}
    (h : ∀ name position o,
      (store'.meaning input depth ⟨id', name⟩ position).value? = some o →
        (store.matchAt (.ref ⟨id, name⟩) input position).value? = some o)
    (hrule : rule.RefersInto (· = id)) {o : Outcome}
    (hmatch : ((rule.within id').matchWith (store'.meaning input depth) input position).value? =
      some o) :
    (store.matchAt rule input position).value? = some o := by
  rw [Rule.within, Rule.matchWith_subst] at hmatch
  refine rule.matchWith_rel compositional_imp input ?_ position o hmatch
  rintro ⟨grammar, name⟩ htarget position o
  obtain rfl : grammar = id := hrule _ htarget
  exact h name position o

section Redefinition

variable (hg : store.grammar? id = some g) (hg' : store'.grammar? id' = some g')
  (hredefines : Grammar.Redefines id id' g g' name body body')
  (hequivalent : store.Equivalent body body')
include hg hg' hredefines hequivalent

/-- What a reference matches in the new grammar it matches in the old one. The induction is on the
depth to which references are followed in the new one, so it passes through the new definition. -/
theorem matchAt_ref_of_redefines (depth : Nat) {other : String} {o : Outcome}
    (h : (store'.meaning input depth ⟨id', other⟩ position).value? = some o) :
    (store.matchAt (.ref ⟨id, other⟩) input position).value? = some o := by
  induction depth generalizing other position o with
  | zero => cases h
  | succ depth ih =>
    by_cases hname : other = name
    · rw [hname] at h ⊢
      have hnew : store'.resolve ⟨id', name⟩ = .ok (body'.within id') :=
        resolve_eq_ok_iff.mpr ⟨g', hg', hredefines.after⟩
      have hold : store.resolve ⟨id, name⟩ = .ok body :=
        resolve_eq_ok_iff.mpr ⟨g, hg, hredefines.before⟩
      -- What the new rule matches is known in the old grammar first. There it is as good as the
      -- old rule.
      rw [meaning_succ_of_ok hnew] at h
      rw [matchAt_ref_of_ok hold, hequivalent]
      exact matchAt_of_meaning (fun _ _ _ => ih) hredefines.closed' h
    · have hothers := hredefines.others other hname
      cases hrule : g.rule? other with
      | none =>
        rw [hrule, Option.map_none] at hothers
        rw [meaning_succ_of_error (resolve_of_undefined hg' hothers)] at h
        rw [matchAt_ref_of_error (resolve_of_undefined hg hrule)]
        exact h
      | some definition =>
        rw [hrule, Option.map_some] at hothers
        have hnew : store'.resolve ⟨id', other⟩ = .ok (definition.within id') :=
          resolve_eq_ok_iff.mpr ⟨g', hg', hothers⟩
        have hold : store.resolve ⟨id, other⟩ = .ok definition :=
          resolve_eq_ok_iff.mpr ⟨g, hg, hrule⟩
        rw [meaning_succ_of_ok hnew] at h
        rw [matchAt_ref_of_ok hold]
        exact matchAt_of_meaning (fun _ _ _ => ih) (hredefines.closed hrule) h

theorem refines_of_equivalent : store'.Refines store id' id := by
  intro rule hrule input position o log' h
  apply value?_eq_some_iff.mp
  apply matchAt_of_meaning
    (fun _ _ _ => matchAt_ref_of_redefines hg hg' hredefines hequivalent _) hrule
  exact value?_eq_some_iff.mpr ⟨log', h⟩

end Redefinition

/-- If a definition is replaced by an equivalent one, whatever is matched in the new grammar is
matched in the old one. Rules are equivalent in particular if one has other rules in some places of
the other one, each of them either equivalent to the rule that was there or the definition of the
reference that was there. -/
theorem refines_of_redefines (hg : store.grammar? id = some g) (hg' : store'.grammar? id' = some g')
    (hredefines : Grammar.Redefines id id' g g' name body body') :
    (store.Equivalent body body' → store'.Refines store id' id) ∧
    ∀ (context : Rule) (f f' : Ref → Rule),
      (∀ place ∈ context.refs, store.Equivalent (f place) (f' place) ∨
        ∃ target, f place = .ref target ∧ store.resolve target = .ok (f' place)) →
      store.Equivalent (context.subst f) (context.subst f') ∧
      (body = context.subst f → body' = context.subst f' → store'.Refines store id' id) := by
  have hrefines := refines_of_equivalent hg hg' hredefines
  refine ⟨hrefines, ?_⟩
  intro context f f' hplaces
  have hequivalent : store.Equivalent (context.subst f) (context.subst f') := by
    apply Equivalent.subst
    intro place hplace
    rcases hplaces place hplace with hequivalent | ⟨target, href, hresolve⟩
    · exact hequivalent
    · rw [href]
      exact equivalent_ref hresolve
  refine ⟨hequivalent, ?_⟩
  rintro rfl rfl
  exact hrefines hequivalent

/-- A grammar of lines. What stands before the period is up to `letters`. -/
def lines (id : GrammarId) (letters : Rule) : Grammar :=
  ⟨(∅ : Std.ExtTreeMap String (Option Rule))
    |>.insert "line" (some (.pair (.ref ⟨id, "letters"⟩) (.char '.')))
    |>.insert "letters" (some letters)⟩

theorem rule?_lines (id : GrammarId) (letters : Rule) (name : String) :
    (lines id letters).rule? name =
      if name = "letters" then some letters
      else if name = "line" then some (.pair (.ref ⟨id, "letters"⟩) (.char '.'))
      else none := by
  simp only [Grammar.rule?, lines, Std.ExtTreeMap.getElem?_insert, Std.compare_eq_iff_eq,
    eq_comm (a := name)]
  split
  · rfl
  · split
    · rfl
    · simp

/-- Nothing, or a letter with `rest` after it. -/
def letterThen (rest : Rule) : Rule := .choice [.seq [.char 'x', rest], .seq []]

/-- Two grammars of lines. In the second one the reference of a rule to itself is replaced by the
rule. -/
def unfolded : Store :=
  ⟨#[some (lines 0 (letterThen (.ref ⟨0, "letters"⟩))),
    some (lines 1 (letterThen (letterThen (.ref ⟨1, "letters"⟩))))]⟩

theorem redefines_lines :
    Grammar.Redefines 0 1 (lines 0 (letterThen (.ref ⟨0, "letters"⟩)))
      (lines 1 (letterThen (letterThen (.ref ⟨1, "letters"⟩)))) "letters"
      (letterThen (.ref ⟨0, "letters"⟩)) (letterThen (letterThen (.ref ⟨0, "letters"⟩))) where
  before := by rw [rule?_lines, if_pos rfl]
  after := by
    rw [rule?_lines, if_pos rfl]
    rfl
  others := by
    intro other hne
    rw [rule?_lines, if_neg hne, rule?_lines, if_neg hne]
    split <;> rfl
  closed := by
    intro other definition hrule target htarget
    rw [rule?_lines] at hrule
    have hmem : target ∈ [(⟨0, "letters"⟩ : Ref)] := by
      split at hrule
      · obtain rfl := Option.some.inj hrule
        exact htarget
      · split at hrule
        · obtain rfl := Option.some.inj hrule
          exact htarget
        · cases hrule
    rw [List.mem_singleton.mp hmem]
  closed' := by
    intro target htarget
    rw [List.mem_singleton.mp htarget]

/-- What is matched after the unfolding is matched before it, and lines are matched after it. -/
theorem refines_of_redefines_unfolded :
    unfolded.Refines unfolded 1 0 ∧
    unfolded.matchAt ((Rule.ref ⟨0, "line"⟩).within 1) #['x', 'x', 'x', '.'] 0 =
      .ends (.success ['x', 'x', 'x', '.']) [] := by
  have hg : unfolded.grammar? 0 = some (lines 0 (letterThen (.ref ⟨0, "letters"⟩))) := rfl
  have hg' : unfolded.grammar? 1 =
      some (lines 1 (letterThen (letterThen (.ref ⟨1, "letters"⟩)))) := rfl
  obtain ⟨-, hcontext⟩ := refines_of_redefines hg hg' redefines_lines
  refine ⟨(hcontext (letterThen (.ref ⟨0, "letters"⟩)) .ref
    (fun _ => letterThen (.ref ⟨0, "letters"⟩)) ?_).2 rfl rfl, by decide⟩
  intro place hplace
  obtain rfl : place = ⟨0, "letters"⟩ := List.mem_singleton.mp hplace
  exact Or.inr ⟨_, rfl, rfl⟩

/-- A grammar in which a name is defined as itself. The name is equivalent to its definition in the
other grammar, which is matched, yet it is not matched when it takes the place of the definition. -/
example :
    let char : Rule := .char 'x'
    let loop : Rule := .ref ⟨1, "a"⟩
    let store : Store := ⟨#[some ⟨.ofList [("a", some char)]⟩, some ⟨.ofList [("a", some loop)]⟩]⟩
    store.matchAt (.ref ⟨0, "a"⟩) #['x'] 0 = .ends (.success ['x']) [] ∧
      store.matchAt (.ref ⟨1, "a"⟩) #['x'] 0 = .endless := by
  decide

end Store

end Peg
