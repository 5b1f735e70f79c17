import Peg.Proofs.Depth
import Peg.Proofs.Grounding

/-!
# A match depends on the references that it tries

Which references a match tries is found out on the way: a choice that succeeds early leaves its
other alternatives alone, and what a lookup finds decides what is looked up next. The trace of a
match records all of them. It determines the log, since a reference that led nowhere is one of
those that were tried.

Whatever happens to a store afterwards, a match stays the same as long as the references in its
trace lead where they led. A rule is not taken away but with its whole grammar. So it is enough that
none of these grammars is dropped, and that no name that was found missing is defined.

## Main definitions

* `Store.trace` — a match with the references that it tries for its log
* `Store.miss?` — the entry that trying a reference leaves in the log
* `Run.collectLog` — the run with the entries of its log replaced or left out

## Main results

* `Store.matchAt_eq_trace` — the log of a match is found in its trace
* `Store.matchAt_of_trace` — a match is the same where the references in its trace lead to the same
* `Session.resolve_replay` — what references lead to as time goes on
* `Session.matchAt_replay_of_tried` — a match as time goes on
-/

namespace Peg

variable {ε δ α β : Type} {input : Array Char} {position : Nat}

/-! ### Logs -/

namespace Run

/-- The same computation with every entry of its log replaced, or left out. -/
def collectLog (f : ε → Option δ) : Run ε α → Run δ α
  | .endless => .endless
  | .ends a log => .ends a (log.filterMap f)

variable (f : ε → Option δ)

@[simp] theorem collectLog_ends (a : α) (log : List ε) :
    (.ends a log : Run ε α).collectLog f = .ends a (log.filterMap f) := rfl

@[simp] theorem collectLog_bind (x : Run ε α) (g : α → Run ε β) :
    (x >>= g).collectLog f = x.collectLog f >>= fun a => (g a).collectLog f := by
  cases x with
  | endless => rfl
  | ends a log =>
    rw [ends_bind, collectLog_ends, ends_bind]
    cases g a with
    | endless => rfl
    | ends b rest => simp

theorem compositional_collectLog :
    Compositional fun α (x : Run ε α) (y : Run δ α) => x.collectLog f = y :=
  compositional_of_bind (fun _ => rfl) (collectLog_bind f)

theorem collectLog_eq_ends {x : Run ε α} {a : α} {log : List δ}
    (h : x.collectLog f = .ends a log) : ∃ rest, x = .ends a rest ∧ log = rest.filterMap f := by
  cases x with
  | endless => cases h
  | ends b rest =>
    obtain ⟨rfl, rfl⟩ := ends.inj h
    exact ⟨rest, rfl, rfl⟩

/-- Where the first run ends and all its entries are accepted, the second run is the same. -/
theorem compositional_same (p : ε → Prop) :
    Compositional fun α (x y : Run ε α) =>
      ∀ a log, x = .ends a log → (∀ e ∈ log, p e) → y = .ends a log where
  pure _ := by
    intro a log h _
    exact h
  bind := by
    intro α β x y f g hx hf b log h hlog
    obtain ⟨a, l, m, ha, hb, rfl⟩ := bind_eq_ends_iff.mp h
    have hy := hx a l ha fun e he => hlog e (List.mem_append_left _ he)
    have hg := hf a b m hb fun e he => hlog e (List.mem_append_right _ he)
    exact bind_eq_ends_iff.mpr ⟨a, l, m, hy, hg, rfl⟩

end Run

open Run

/-! ### The trace of a match -/

namespace Store

/-- What references mean, as in `Store.meaning`, with all references that are tried for a log. -/
def tracing (store : Store) (input : Array Char) : (depth : Nat) → Meaning Ref
  | 0, _, _ => .endless
  | depth + 1, target, position => do
    Run.note target
    match store.resolve target with
    | .ok rule => rule.matchWith (store.tracing input depth) input position
    | .error _ => pure .noMatch

/-- A match, with all references that it tries for a log, in the order in which they are tried. -/
def trace (store : Store) (rule : Rule) (input : Array Char) (position : Nat) : Run Ref Outcome :=
  rule.matchWith (store.tracing input (store.depthLimit input)) input position

/-- The entry that trying a reference leaves in the log, if it leads nowhere. -/
def miss? (store : Store) (target : Ref) : Option Miss :=
  match store.resolve target with
  | .ok _ => none
  | .error miss => some miss

variable {store store' : Store} {target : Ref} {depth : Nat}

theorem tracing_succ_of_ok {rule : Rule} (h : store.resolve target = .ok rule) (depth : Nat)
    (position : Nat) :
    store.tracing input (depth + 1) target position =
      after [target] (rule.matchWith (store.tracing input depth) input position) := by
  rw [tracing, h]
  exact ends_bind _ _ _

theorem tracing_succ_of_error {miss : Miss} (h : store.resolve target = .error miss) (depth : Nat)
    (position : Nat) :
    store.tracing input (depth + 1) target position = .ends .noMatch [target] := by
  rw [tracing, h]
  rfl

/-- What references mean is found in what they try. -/
theorem collectLog_tracing (store : Store) (input : Array Char) (depth : Nat) (target : Ref)
    (position : Nat) :
    (store.tracing input depth target position).collectLog store.miss? =
      store.meaning input depth target position := by
  induction depth generalizing target position with
  | zero => rfl
  | succ depth ih =>
    cases hres : store.resolve target with
    | ok rule =>
      have hrule := rule.matchWith_rel (compositional_collectLog store.miss?) input
        (fun target _ position => ih target position) position
      rw [tracing_succ_of_ok hres, meaning_succ_of_ok hres, ← hrule]
      have hmiss : store.miss? target = none := by rw [miss?, hres]
      cases rule.matchWith (store.tracing input depth) input position with
      | endless => rfl
      | ends o tried => simp [hmiss]
    | error miss =>
      have hmiss : store.miss? target = some miss := by rw [miss?, hres]
      rw [tracing_succ_of_error hres, meaning_succ_of_error hres]
      simp [hmiss]

/-- The log of a match is found in its trace. -/
theorem matchAt_eq_trace (store : Store) (rule : Rule) (input : Array Char) (position : Nat) :
    store.matchAt rule input position = (store.trace rule input position).collectLog store.miss? :=
  (rule.matchWith_rel (compositional_collectLog store.miss?) input
    (fun target _ position => store.collectLog_tracing input _ target position) position).symm

/-- Where the references that are tried lead to the same, the same references are tried. -/
theorem tracing_eq_of_resolve {o : Outcome} {tried : List Ref}
    (h : store.tracing input depth target position = .ends o tried)
    (hsame : ∀ target ∈ tried, store'.resolve target = store.resolve target) :
    store'.tracing input depth target position = .ends o tried := by
  induction depth generalizing target position o tried with
  | zero => cases h
  | succ depth ih =>
    cases hres : store.resolve target with
    | ok rule =>
      rw [tracing_succ_of_ok hres] at h
      cases hrun : rule.matchWith (store.tracing input depth) input position with
      | endless => rw [hrun] at h; cases h
      | ends o' tried' =>
        rw [hrun, after_ends, ends.injEq] at h
        obtain ⟨rfl, rfl⟩ := h
        -- The reference itself was tried, and so was all that its rule tries.
        have hres' : store'.resolve target = .ok rule := by
          rw [hsame target List.mem_cons_self, hres]
        have hrun' := rule.matchWith_rel
          (compositional_same fun target => store'.resolve target = store.resolve target) input
          (fun target _ position o tried => ih) position o' tried' hrun
          fun target htarget => hsame target (List.mem_cons_of_mem _ htarget)
        rw [tracing_succ_of_ok hres', hrun', after_ends]
    | error miss =>
      rw [tracing_succ_of_error hres, ends.injEq] at h
      obtain ⟨rfl, rfl⟩ := h
      have hres' : store'.resolve target = .error miss := by
        rw [hsame target List.mem_cons_self, hres]
      rw [tracing_succ_of_error hres']

/-- Where the references in the trace of a match lead to the same, the match is the same. -/
theorem matchAt_of_trace {rule : Rule} {o : Outcome} {tried : List Ref}
    (h : store.trace rule input position = .ends o tried)
    (hsame : ∀ target ∈ tried, store'.resolve target = store.resolve target) :
    store'.matchAt rule input position = .ends o (tried.filterMap store.miss?) := by
  -- The other store may have another depth limit, so the depth of this one is kept for a while.
  have htrace : rule.matchWith (store'.tracing input (store.depthLimit input)) input position =
      .ends o tried :=
    rule.matchWith_rel
      (compositional_same fun target => store'.resolve target = store.resolve target) input
      (fun _ _ _ _ _ => tracing_eq_of_resolve) position o tried h hsame
  have hmeaning : (rule.matchWith (store'.tracing input (store.depthLimit input)) input
      position).collectLog store'.miss? =
        rule.matchWith (store'.meaning input (store.depthLimit input)) input position :=
    rule.matchWith_rel (compositional_collectLog store'.miss?) input
      (fun target _ position => store'.collectLog_tracing input _ target position) position
  have hlog : tried.filterMap store'.miss? = tried.filterMap store.miss? := by
    apply List.filterMap_congr
    intro target htarget
    rw [miss?, hsame target htarget, miss?]
  rw [htrace, collectLog_ends, hlog] at hmeaning
  exact matchAt_of_matchWith_meaning hmeaning.symm

/-- Whatever the references of a rule try, and those of all rules to which they lead, has the
property `p`. -/
theorem trace_logs {p : Ref → Prop} {rule : Rule} (hrule : ∀ target ∈ rule.refs, p target)
    (hresolve : ∀ {target rule}, p target → store.resolve target = .ok rule →
      ∀ target' ∈ rule.refs, p target')
    (input : Array Char) (position : Nat) : (store.trace rule input position).Logs p := by
  have htracing : ∀ depth target, p target → ∀ position,
      (store.tracing input depth target position).Logs p := by
    intro depth
    induction depth with
    | zero => exact fun _ _ _ => trivial
    | succ depth ih =>
      intro target htarget position
      rw [tracing]
      apply Logs.bind
      · exact List.forall_mem_singleton.mpr htarget
      · intro _
        cases hres : store.resolve target with
        | ok rule =>
          apply rule.matchWith_logs
          intro target' htarget'
          exact ih target' (hresolve htarget hres target' htarget')
        | error miss => exact logs_pure _
  apply rule.matchWith_logs
  intro target htarget
  exact htracing _ target (hrule target htarget)

/-- A definition that is asked for where there is none is accepted. -/
theorem firstDefinition_eq_none_of_not_accepts {g : Grammar} {later : List Change}
    (hg : store.grammar? target.grammar = some g) (hrule : g.rule? target.name = none)
    (hdrop : .drop target.grammar ∉ later)
    (hnone : ∀ rule, ¬ store.Accepts later target rule) : firstDefinition target later = none := by
  rw [Option.eq_none_iff_forall_ne_some]
  intro rule hfirst
  obtain ⟨before, c, after, rfl, hc, hbefore⟩ := List.findSome?_eq_some_iff.mp hfirst
  obtain rfl := Change.eq_define_of_definition? hc
  have hkept : .drop target.grammar ∉ before := fun h => hdrop (List.mem_append_left _ h)
  have hstill : (g.replay target.grammar before).rule? target.name = none := by
    rw [Grammar.rule?_replay, hrule, Option.none_or]
    exact List.findSome?_eq_none_iff.mpr hbefore
  obtain ⟨g', hg'⟩ := Grammar.exists_define hstill rule
  apply hnone rule
  exact ⟨before, after, _, rfl, (define_eq_ok_iff (grammar?_replay hg hkept)).mpr ⟨g', hg', rfl⟩⟩

end Store

/-! ### Matches as time goes on -/

namespace Session

variable {s : Session} {calls later : List Change} {target : Ref}

/-- A reference that was made leads where it led, as long as its grammar is not dropped and, if its
name was missing, no definition of it is accepted. -/
theorem resolve_replay (hs : s.HasHistory calls) (hmade : .register target ∈ calls)
    (hdrop : .drop target.grammar ∉ later)
    (hnone : s.store.resolve target = .error (.undefined target) →
      ∀ rule, ¬ s.store.Accepts later target rule) :
    (s.store.replay later).resolve target = s.store.resolve target := by
  cases hg : s.store.grammar? target.grammar with
  | none =>
    have hid : target.grammar < s.store.nextId := by
      rw [hs.store_eq]
      exact hs.possible.lt_nextId hmade rfl
    have hgone := Store.grammar?_replay_of_none hg hid later
    rw [Store.resolve_of_dropped hg, Store.resolve_of_dropped hgone]
  | some g =>
    have hg' := Store.grammar?_replay hg hdrop
    cases hrule : g.rule? target.name with
    | none =>
      have hundefined := Store.resolve_of_undefined hg hrule
      -- The name stays missing, and so does what was logged.
      have hlater := Store.firstDefinition_eq_none_of_not_accepts hg hrule hdrop (hnone hundefined)
      have hrule' : (g.replay target.grammar later).rule? target.name = none := by
        rw [Grammar.rule?_replay, hrule, Option.none_or]
        exact hlater
      rw [hundefined, Store.resolve_of_undefined hg' hrule']
    | some rule =>
      have hrule' : (g.replay target.grammar later).rule? target.name = some rule := by
        rw [Grammar.rule?_replay, hrule, Option.some_or]
      rw [Store.resolve_eq_ok_iff.mpr ⟨g, hg, hrule⟩, Store.resolve_eq_ok_iff.mpr ⟨_, hg', hrule'⟩]

/-- A match gives the same outcome and the same log at all later times, as long as no grammar is
dropped to which a reference that it tried belongs, and no name is defined that it found missing.
If it found none missing, it stays the same as long as no grammar is dropped at all, whatever is
defined. -/
theorem matchAt_replay_of_tried (hs : s.Grounded calls) {rule : Rule} (hmade : rule.MadeIn calls)
    {input : Array Char} {position : Nat} {o : Outcome} {log : List Miss}
    (h : s.store.matchAt rule input position = .ends o log) :
    ∃ tried, s.store.trace rule input position = .ends o tried ∧
      log = tried.filterMap s.store.miss? ∧
      (∀ later, (∀ target ∈ tried, .drop target.grammar ∉ later) →
        (∀ target, .undefined target ∈ log →
          ∀ definition, ¬ s.store.Accepts later target definition) →
        (s.store.replay later).matchAt rule input position = .ends o log) ∧
      ((∀ target, .undefined target ∉ log) → ∀ later, (∀ id, .drop id ∉ later) →
        (s.store.replay later).matchAt rule input position = .ends o log) := by
  rw [Store.matchAt_eq_trace] at h
  obtain ⟨tried, htrace, rfl⟩ := collectLog_eq_ends _ h
  have hlogs : (s.store.trace rule input position).Logs fun target => .register target ∈ calls :=
    Store.trace_logs hmade (fun _ => hs.madeIn_of_resolve) input position
  have hstays : ∀ later, (∀ target ∈ tried, .drop target.grammar ∉ later) →
      (∀ target, .undefined target ∈ tried.filterMap s.store.miss? →
        ∀ definition, ¬ s.store.Accepts later target definition) →
      (s.store.replay later).matchAt rule input position =
        .ends o (tried.filterMap s.store.miss?) := by
    intro later hdrop hnone
    apply Store.matchAt_of_trace htrace
    intro target htarget
    have hmade := hlogs.of_ends htrace target htarget
    apply resolve_replay hs.toHasHistory hmade (hdrop target htarget)
    intro hundefined
    -- A name that was found missing has left its entry in the log.
    apply hnone target
    exact List.mem_filterMap.mpr ⟨target, htarget, by rw [Store.miss?, hundefined]⟩
  refine ⟨tried, htrace, rfl, hstays, ?_⟩
  intro hdefined later hdrop
  exact hstays later (fun _ _ => hdrop _) fun target hmem => absurd hmem (hdefined target)

/-- A run that ends with a rule whose first alternative has no definition. -/
def fallback : List Edit :=
  [.define "main" "a" (.choice [.ref "main" "b", .char 'x']), .refer "main" "a"]

/-- What happens to a store afterwards: a name that was not tried is defined, a definition is
refused, and another grammar comes and goes. -/
def unrelated : List Change :=
  [.create, .define ⟨0, "c"⟩ (.ref ⟨0, "b"⟩), .define ⟨0, "a"⟩ (.char 'y'), .drop 1]

/-- The second alternative of the rule matches, now and then. -/
theorem matchAt_replay_of_tried_fallback :
    let store := (initial.afterEdits fallback).store
    store.trace (.ref ⟨0, "a"⟩) #['x'] 0 = .ends (.success ['x']) [⟨0, "a"⟩, ⟨0, "b"⟩] ∧
    (store.replay unrelated).matchAt (.ref ⟨0, "a"⟩) #['x'] 0 =
      .ends (.success ['x']) [.undefined ⟨0, "b"⟩] := by
  intro store
  have hmade : (Rule.ref ⟨0, "a"⟩).MadeIn (history fallback) := by
    intro target htarget
    obtain rfl := List.mem_singleton.mp htarget
    have hhistory : history fallback = [.create, .register ⟨0, "b"⟩,
        .define ⟨0, "a"⟩ (.choice [.ref ⟨0, "b"⟩, .char 'x']), .register ⟨0, "a"⟩] := rfl
    simp [hhistory]
  have htrace : store.trace (.ref ⟨0, "a"⟩) #['x'] 0 =
      .ends (.success ['x']) [⟨0, "a"⟩, ⟨0, "b"⟩] := by decide
  have hmatch : store.matchAt (.ref ⟨0, "a"⟩) #['x'] 0 =
      .ends (.success ['x']) [.undefined ⟨0, "b"⟩] := by decide
  obtain ⟨tried, htried, -, hstays, -⟩ :=
    matchAt_replay_of_tried (grounded_afterEdits fallback) hmade hmatch
  refine ⟨htrace, hstays unrelated ?_ ?_⟩
  · obtain ⟨-, rfl⟩ := Run.ends.inj (htried.symm.trans htrace)
    simp [unrelated]
  · rintro target htarget definition ⟨before, after, store', hlater, -⟩
    obtain rfl : target = ⟨0, "b"⟩ := by simpa using htarget
    have hmem : .define ⟨0, "b"⟩ definition ∈ unrelated := hlater ▸ by simp
    simp [unrelated] at hmem

end Session

end Peg
