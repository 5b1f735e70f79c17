import Peg.Proofs.Answers
import Peg.Proofs.Frame

/-!
# Matching within checked grammars

A grammar that passes its check has a definition for every name that was registered in it. Rules
whose references stay among such grammars therefore never meet a reference that leads nowhere, and
no match or search writes that one did. This remains so for good, as a definition is never taken
away. What is registered later may make the check fail, but it is not in the rules that are there.

The check looks at one table of names. That a match finds nothing outside of these tables is a
matter of all rules that it comes to, from one grammar to the next.

## Main definitions

* `Store.Reaches` — the references that a match of a rule may come to
* `Store.Checked` — a family of grammars that passed their checks and refer to each other only

## Main results

* `Store.matchAt_logs` — what is logged comes from references that the rule reaches
* `Store.reply_logs` — what a question about a rule logs comes from its matches
* `Session.not_miss_of_checked` — a family that was checked never logs a reference that led nowhere
-/

namespace Peg

variable {ε δ α β : Type}

/-! ### What is logged on the way -/

namespace Run

variable {p : ε → Prop} {x : Run ε α}

theorem Logs.mono {q : ε → Prop} (h : x.Logs p) (hpq : ∀ e, p e → q e) : x.Logs q := by
  cases x with
  | endless => trivial
  | ends a log => exact fun e he => hpq e (h e he)

theorem Logs.mapLog {f : δ → ε} {x : Run δ α} (h : x.Logs fun e => p (f e)) :
    (x.mapLog f).Logs p := by
  cases x with
  | endless => trivial
  | ends a log => exact List.forall_mem_map.mpr h

theorem Logs.collectLog {q : δ → Prop} {f : ε → Option δ} (h : x.Logs p)
    (hpq : ∀ e d, p e → f e = some d → q d) : (x.collectLog f).Logs q := by
  cases x with
  | endless => trivial
  | ends a log =>
    intro d hd
    obtain ⟨e, he, hf⟩ := List.mem_filterMap.mp hd
    exact hpq e d (h e he) hf

end Run

open Run

/-- A search logs what its attempts log. -/
theorem Search.next_logs {search : Search ε} {p : ε → Prop}
    (h : ∀ position, (search.attempt position).Logs p) (cursor : Nat) :
    (search.next cursor).Logs p :=
  @next_rel ε ε _ (compositional_logs p) search search rfl h cursor

/-- The entry is not about a reference that led nowhere. -/
def Event.NotMiss (event : Event) : Prop := ∀ miss, event ≠ .miss miss

namespace Store

variable {store : Store} {rule : Rule}

/-- A question about a rule logs what the attempts to match it log, and perhaps outcomes. -/
theorem reply_logs {p : Event → Prop}
    (h : ∀ input position, (store.attempt rule input position).Logs p)
    (hanswer : ∀ text o, p (.answer rule text o)) (query : Query) :
    (store.reply rule query).Logs p :=
  @reply_rel _ (compositional_logs p) store store rule rule h
    (fun text o => List.forall_mem_singleton.mpr (hanswer text o)) rfl query

/-! ### What a match comes to -/

/-- The references that a match of the rule may come to: those in the rule, and those in rules to
which such references lead. -/
inductive Reaches (store : Store) (rule : Rule) : Ref → Prop where
  | here {target : Ref} (hmem : target ∈ rule.refs) : store.Reaches rule target
  | through {target target' : Ref} {definition : Rule} (hreaches : store.Reaches rule target)
    (hresolve : store.resolve target = .ok definition) (hmem : target' ∈ definition.refs) :
    store.Reaches rule target'

/-- What a match logs comes from references that the rule reaches. -/
theorem matchAt_logs (store : Store) (rule : Rule) (input : Array Char) (position : Nat) :
    (store.matchAt rule input position).Logs fun miss =>
      ∃ target, store.Reaches rule target ∧ store.resolve target = .error miss := by
  have htrace : (store.trace rule input position).Logs (store.Reaches rule) :=
    trace_logs (fun _ => .here) (fun hreaches hresolve _ => .through hreaches hresolve) input
      position
  rw [matchAt_eq_trace]
  apply htrace.collectLog
  intro target miss hreaches hmiss
  refine ⟨target, hreaches, ?_⟩
  rw [miss?] at hmiss
  split at hmiss
  · cases hmiss
  · rename_i hresolve
    obtain rfl := Option.some.inj hmiss
    exact hresolve

/-- All grammars of the family exist and pass their checks, and their definitions refer only into
the family. -/
structure Checked (store : Store) (family : GrammarId → Prop) : Prop where
  check : ∀ {id}, family id → ∃ g, store.grammar? id = some g ∧ g.check = .ok ()
  closed : ∀ {id g name definition}, family id → store.grammar? id = some g →
    g.rule? name = some definition → definition.RefersInto family

end Store

/-! ### Checked families in a session -/

namespace Session

variable {s : Session} {calls later : List Change} {family : GrammarId → Prop} {target : Ref}

/-- In a family that was checked each reference that was made leads to a rule, and still does later
on. -/
theorem resolve_of_checked (hs : s.HasHistory calls) (hchecked : s.store.Checked family)
    (hkept : ∀ id, family id → .drop id ∉ later) (hmade : .register target ∈ calls)
    (hfamily : family target.grammar) :
    ∃ definition, s.store.resolve target = .ok definition ∧
      (s.store.replay later).resolve target = .ok definition := by
  obtain ⟨g, hg, hcheck⟩ := hchecked.check hfamily
  have hregistered := (hs.isRegistered_iff hg target.name).mpr (Or.inl hmade)
  have hsome := Grammar.check_eq_ok_iff.mp hcheck target.name hregistered
  obtain ⟨definition, hrule⟩ := Option.isSome_iff_exists.mp hsome
  have hresolve : s.store.resolve target = .ok definition :=
    Store.resolve_eq_ok_iff.mpr ⟨g, hg, hrule⟩
  refine ⟨definition, hresolve, ?_⟩
  rw [← hresolve]
  apply resolve_replay hs hmade (hkept _ hfamily)
  rw [hresolve]
  nofun

/-- What rules within a checked family reach was made, and within the family. -/
theorem made_of_reaches (hs : s.Grounded calls) (hchecked : s.store.Checked family)
    (hkept : ∀ id, family id → .drop id ∉ later) {rule : Rule} (hmade : rule.MadeIn calls)
    (hrefs : rule.RefersInto family) (hreaches : (s.store.replay later).Reaches rule target) :
    .register target ∈ calls ∧ family target.grammar := by
  induction hreaches with
  | here hmem => exact ⟨hmade _ hmem, hrefs _ hmem⟩
  | through _ hlater hmem ih =>
    -- The definition to which a reference leads later is the one to which it leads now.
    obtain ⟨definition, hnow, hlater'⟩ :=
      resolve_of_checked hs.toHasHistory hchecked hkept ih.1 ih.2
    obtain rfl := Except.ok.inj (hlater'.symm.trans hlater)
    obtain ⟨g, hg, hrule⟩ := Store.resolve_eq_ok_iff.mp hnow
    exact ⟨hs.madeIn_of_resolve hnow _ hmem, hchecked.closed ih.2 hg hrule _ hmem⟩

/-- Let all grammars of a family pass their checks while their definitions, and the rule, refer only
into the family. Then every reference to which the rule leads has a definition, and none is logged
as undefined or as one into a dropped grammar, whatever is asked about the rule. It stays so as long
as no grammar of the family is dropped. -/
theorem not_miss_of_checked (hs : s.Grounded calls) (hchecked : s.store.Checked family)
    {rule : Rule} (hmade : rule.MadeIn calls) (hrefs : rule.RefersInto family)
    (hkept : ∀ id, family id → .drop id ∉ later) :
    (∀ target, (s.store.replay later).Reaches rule target →
      ∃ definition, (s.store.replay later).resolve target = .ok definition) ∧
    (∀ input position, ((s.store.replay later).matchAt rule input position).Logs fun _ => False) ∧
    (∀ text cursor, (((s.store.replay later).search rule text).next cursor).Logs Event.NotMiss) ∧
    ∀ query, ((s.store.replay later).reply rule query).Logs Event.NotMiss := by
  have hreaches : ∀ target, (s.store.replay later).Reaches rule target →
      ∃ definition, (s.store.replay later).resolve target = .ok definition := by
    intro target hreaches
    obtain ⟨hcalls, hfamily⟩ := made_of_reaches hs hchecked hkept hmade hrefs hreaches
    obtain ⟨definition, -, hlater⟩ :=
      resolve_of_checked hs.toHasHistory hchecked hkept hcalls hfamily
    exact ⟨definition, hlater⟩
  have hmatch : ∀ input position,
      ((s.store.replay later).matchAt rule input position).Logs fun _ => False := by
    intro input position
    apply ((s.store.replay later).matchAt_logs rule input position).mono
    rintro miss ⟨target, htarget, hmiss⟩
    obtain ⟨definition, hok⟩ := hreaches target htarget
    rw [hok] at hmiss
    cases hmiss
  have hattempt : ∀ input position,
      ((s.store.replay later).attempt rule input position).Logs Event.NotMiss := by
    intro input position
    apply Logs.mapLog
    exact (hmatch input position).mono fun _ => False.elim
  refine ⟨hreaches, hmatch, fun text => Search.next_logs (hattempt _), ?_⟩
  exact Store.reply_logs hattempt fun _ _ => nofun

/-- A run that ends with two grammars that refer to each other, with nested lists as the rules. -/
def lists : List Edit :=
  [.create "item", .define "main" "list" (.seq [.char '(', .star (.ref "item" "any"), .char ')']),
    .define "item" "any" (.choice [.char 'x', .ref "main" "list"])]

theorem history_lists : history lists =
    [.create, .create, .register ⟨1, "any"⟩,
      .define ⟨0, "list"⟩ (.seq [.char '(', .star (.ref ⟨1, "any"⟩), .char ')']),
      .register ⟨0, "list"⟩,
      .define ⟨1, "any"⟩ (.choice [.char 'x', .ref ⟨0, "list"⟩])] := rfl

theorem checked_lists : (initial.afterEdits lists).store.Checked (· < 2) where
  check := by
    intro id hid
    have hs := hasHistory_afterEdits lists
    have hg := hs.possible.grammar?_replay (Nat.zero_le _) hid (by simp [history_lists])
    rw [← hs.store_eq] at hg
    refine ⟨_, hg, (hs.check_eq_ok_iff hg).mpr ?_⟩
    intro name hmade
    have hname : id = 1 ∧ name = "any" ∨ id = 0 ∧ name = "list" := by
      simpa [history_lists] using hmade
    rcases hname with ⟨rfl, rfl⟩ | ⟨rfl, rfl⟩ <;> simp [history_lists]
  closed := by
    intro id g name definition _ hg hrule target htarget
    -- All references that were made at all are made from these two grammars.
    have hs := grounded_afterEdits lists
    have hresolve : (initial.afterEdits lists).store.resolve ⟨id, name⟩ = .ok definition :=
      Store.resolve_eq_ok_iff.mpr ⟨g, hg, hrule⟩
    have hmade := hs.madeIn_of_resolve hresolve target htarget
    have htwo : target = ⟨1, "any"⟩ ∨ target = ⟨0, "list"⟩ := by
      simpa [history_lists] using hmade
    rcases htwo with rfl | rfl <;> decide

/-- A reference to a name that is never defined makes the check of a grammar fail, but no match of
its rules finds it. -/
theorem not_miss_of_checked_lists :
    let store := (initial.afterEdits lists).store.replay [.register ⟨0, "other"⟩]
    (∃ g, store.grammar? 0 = some g ∧ g.check = .error (.undefinedRule "other")) ∧
    ∀ query, (store.reply (.ref ⟨0, "list"⟩) query).Logs Event.NotMiss := by
  intro store
  constructor
  · exact ⟨_, rfl, by decide⟩
  · have hrefs : ∀ target ∈ (Rule.ref ⟨0, "list"⟩).refs, target = ⟨0, "list"⟩ := by
      intro target htarget
      exact List.mem_singleton.mp htarget
    refine (not_miss_of_checked (grounded_afterEdits lists) checked_lists ?_ ?_ ?_).2.2.2
    · intro target htarget
      rw [hrefs target htarget, history_lists]
      simp
    · intro target htarget
      rw [hrefs target htarget]
      decide
    · simp

end Session

end Peg
