import Peg.Proofs.SessionHistory
import Peg.Proofs.Substitution

/-!
# What references lead to over a whole history

A reference belongs to one grammar for good, and it is resolved each time it is matched. What it
leads to then is known from the history. Once its grammar was dropped it leads nowhere, whatever
became of the name of that grammar. Until its name was defined it leads nowhere either. From then on
it leads to the rule of the first definition, and matches as that rule does.

This holds wherever the reference stands: in rules of its own grammar, in rules of other grammars,
and in rules that were kept outside any grammar.

## Main results

* `Store.Possible.exists_grammar_of_register` — the grammar of a reference, unless it was dropped
* `Session.ref_resolves` — what matching a reference gives, and what is asked of its grammar
-/

namespace Peg

/-! ### The lines about references -/

theorem Event.line_dropped (target : Ref) :
    (Event.miss (.dropped target)).line =
      "TRACE rule ".toList ++ target.name.toList ++ " belongs to a dropped grammar".toList := rfl

theorem Event.line_undefined (target : Ref) :
    (Event.miss (.undefined target)).line =
      "TRACE rule ".toList ++ target.name.toList ++ " is not defined".toList := rfl

namespace Store

variable {store : Store} {target : Ref} {calls : List Change}

theorem attempt_ref_of_ok {rule : Rule} (h : store.resolve target = .ok rule) (input : Array Char)
    (position : Nat) :
    store.attempt (.ref target) input position = store.attempt rule input position := by
  rw [attempt, matchAt_ref_of_ok h, attempt]

theorem attempt_ref_of_error {miss : Miss} (h : store.resolve target = .error miss)
    (input : Array Char) (position : Nat) :
    store.attempt (.ref target) input position = .ends .noMatch [.miss miss] := by
  rw [attempt, matchAt_ref_of_error h]
  rfl

/-- The grammar of a reference that was made exists until it is dropped, and its rules are those of
the first definitions. -/
theorem Possible.exists_grammar_of_register (h : empty.Possible calls)
    (hmade : .register target ∈ calls) (hdrop : .drop target.grammar ∉ calls) :
    ∃ g, (empty.replay calls).grammar? target.grammar = some g ∧
      ∀ name, g.rule? name = firstDefinition ⟨target.grammar, name⟩ calls := by
  have hg := h.grammar?_replay (Nat.zero_le _) (h.lt_nextId hmade rfl) hdrop
  exact ⟨_, hg, h.rule?_eq (Nat.zero_le _) hg⟩

/-- Nothing is defined under a name as long as no definition of it has been accepted. -/
theorem Possible.firstDefinition_eq_none (h : empty.Possible calls)
    (hnone : ∀ rule, ¬ empty.Accepts calls target rule) : firstDefinition target calls = none := by
  rw [Option.eq_none_iff_forall_ne_some]
  intro rule hfirst
  exact hnone rule ((h.accepts_iff (Nat.zero_le _)).mpr hfirst)

end Store

namespace Session

variable {s : Session} {calls : List Change}

theorem ask_matchText {grammar : String} {id : GrammarId} {g : Grammar}
    (hlocate : s.locate grammar = some id) (hg : s.store.grammar? id = some g) (name : String)
    (text : List Char) :
    s.ask (.matchText grammar name text) =
      match g.rule? name with
      | some rule => Reply.outcome <$> s.store.matchText rule text
      | none => pure (.fault (.undefinedRule name)) := by
  cases hrule : g.rule? name <;>
    simp only [ask, withGrammar, grammar?, hlocate, Option.bind_some, hg, hrule]

/-- A text is matched by a defined rule as it is by a reference to it. -/
theorem ask_matchText_of_matchAt {grammar : String} {target : Ref} {rule : Rule} {text : List Char}
    {o : Outcome} {log : List Miss} (hlocate : s.locate grammar = some target.grammar)
    (hres : s.store.resolve target = .ok rule)
    (ho : s.store.matchAt (.ref target) text.toArray 0 = .ends o log) :
    s.ask (.matchText grammar target.name text) =
      .ends (.outcome o) (log.map .miss ++ [.answer rule text o]) := by
  obtain ⟨g, hg, hrule⟩ := Store.resolve_eq_ok_iff.mp hres
  rw [Store.matchAt_ref_of_ok hres] at ho
  rw [ask_matchText hlocate hg, hrule]
  simp only [Store.matchText_of_matchAt ho, Run.map_ends]

/-- What a reference gives that was made at some time before, when it is matched now, be it by
itself or within a rule. If its grammar was dropped in the meantime it matches nothing, and what is
left matches as if all references into that grammar were cut off. Otherwise it depends on whether a
definition of its name was accepted, which can only have been the first. -/
theorem ref_resolves (hs : s.HasHistory calls) (target : Ref) (hmade : .register target ∈ calls) :
    (∀ rule input position, s.store.matchAt rule input position =
      rule.matchWith (fun target p => s.store.matchAt (.ref target) input p) input position) ∧
    (.drop target.grammar ∈ calls →
      (∀ input position, s.store.attempt (.ref target) input position =
        .ends .noMatch [.miss (.dropped target)]) ∧
      (Event.miss (.dropped target)).line =
        "TRACE rule ".toList ++ target.name.toList ++ " belongs to a dropped grammar".toList ∧
      ∀ rule input position,
        (s.store.sever target.grammar).matchAt (rule.sever target.grammar) input position =
          (s.store.matchAt rule input position).filterLog (!·.isDropped target.grammar)) ∧
    (.drop target.grammar ∉ calls →
      ∃ g, s.store.grammar? target.grammar = some g ∧
        ((∀ rule, ¬ Store.empty.Accepts calls target rule) →
          (∀ input position, s.store.attempt (.ref target) input position =
            .ends .noMatch [.miss (.undefined target)]) ∧
          (Event.miss (.undefined target)).line =
            "TRACE rule ".toList ++ target.name.toList ++ " is not defined".toList ∧
          g.rule? target.name = none ∧
          ∀ grammar text, s.locate grammar = some target.grammar →
            s.ask (.matchText grammar target.name text) =
              pure (.fault (.undefinedRule target.name))) ∧
        (∀ rule, Store.empty.Accepts calls target rule →
          firstDefinition target calls = some rule ∧
          (∀ input position, s.store.attempt (.ref target) input position =
            s.store.attempt rule input position) ∧
          g.rule? target.name = some rule ∧
          ∀ grammar text, s.locate grammar = some target.grammar →
            s.ask (.matchText grammar target.name text) =
              Reply.outcome <$> s.store.matchText rule text)) := by
  refine ⟨fun _ _ _ => rfl, ?_, ?_⟩
  · intro hdrop
    have hgone : s.store.grammar? target.grammar = none := by
      rw [hs.store_eq]
      exact hs.possible.grammar?_replay_of_drop hdrop
    refine ⟨Store.attempt_ref_of_error (Store.resolve_of_dropped hgone), Event.line_dropped target,
      ?_⟩
    intro rule input position
    rw [Store.matchAt_sever, Store.drop_eq_self hgone]
  · intro hdrop
    obtain ⟨g, hg, hrules⟩ := hs.possible.exists_grammar_of_register hmade hdrop
    rw [← hs.store_eq] at hg
    refine ⟨g, hg, ?_, ?_⟩
    · intro hnone
      have hrule : g.rule? target.name = none :=
        (hrules target.name).trans (hs.possible.firstDefinition_eq_none hnone)
      refine ⟨Store.attempt_ref_of_error (Store.resolve_of_undefined hg hrule),
        Event.line_undefined target, hrule, ?_⟩
      intro grammar text hlocate
      rw [ask_matchText hlocate hg, hrule]
    · intro rule haccepts
      have hfirst := (hs.possible.accepts_iff (Nat.zero_le _)).mp haccepts
      have hrule : g.rule? target.name = some rule := (hrules target.name).trans hfirst
      have hresolve : s.store.resolve target = .ok rule :=
        Store.resolve_eq_ok_iff.mpr ⟨g, hg, hrule⟩
      refine ⟨hfirst, Store.attempt_ref_of_ok hresolve, hrule, ?_⟩
      intro grammar text hlocate
      rw [ask_matchText hlocate hg, hrule]

/-- A run in which a grammar is replaced by another one of the same name, where the same name is
defined. It refers to `b`, which is never defined. -/
def replaced : List Edit :=
  [.define "main" "a" (.char 'x'), .refer "main" "a", .create "main",
    .define "main" "a" (.ref "main" "b"), .define "main" "a" (.char 'y'), .refer "main" "a"]

theorem history_replaced : history replaced =
    [.create, .define ⟨0, "a"⟩ (.char 'x'), .register ⟨0, "a"⟩, .drop 0, .create,
      .register ⟨1, "b"⟩, .define ⟨1, "a"⟩ (.ref ⟨1, "b"⟩), .define ⟨1, "a"⟩ (.char 'y'),
      .register ⟨1, "a"⟩] := rfl

/-- The reference into the grammar that was replaced matches nothing. That into the new one leads to
the first of the two definitions, and from there to a name without a definition. -/
theorem ref_resolves_replaced :
    let store := (initial.afterEdits replaced).store
    (∀ input position, store.attempt (.ref ⟨0, "a"⟩) input position =
      .ends .noMatch [.miss (.dropped ⟨0, "a"⟩)]) ∧
    (∀ input position, store.attempt (.ref ⟨1, "a"⟩) input position =
      store.attempt (.ref ⟨1, "b"⟩) input position) ∧
    ∀ input position, store.attempt (.ref ⟨1, "b"⟩) input position =
      .ends .noMatch [.miss (.undefined ⟨1, "b"⟩)] := by
  have hs := hasHistory_afterEdits replaced
  have hkept : .drop 1 ∉ history replaced := by simp [history_replaced]
  refine ⟨?_, ?_, ?_⟩
  · exact ((ref_resolves hs ⟨0, "a"⟩ (by simp [history_replaced])).2.1
      (by simp [history_replaced])).1
  · obtain ⟨g, -, -, hdefined⟩ :=
      (ref_resolves hs ⟨1, "a"⟩ (by simp [history_replaced])).2.2 hkept
    have haccepts : Store.empty.Accepts (history replaced) ⟨1, "a"⟩ (.ref ⟨1, "b"⟩) :=
      (hs.possible.accepts_iff (Nat.zero_le _)).mpr rfl
    exact (hdefined _ haccepts).2.1
  · obtain ⟨g, -, hundefined, -⟩ :=
      (ref_resolves hs ⟨1, "b"⟩ (by simp [history_replaced])).2.2 hkept
    refine (hundefined ?_).1
    intro rule haccepts
    have hfirst := (hs.possible.accepts_iff (Nat.zero_le _)).mp haccepts
    cases hfirst

end Session

end Peg
