import Peg.Proofs.Interchange

/-!
# Runs in which pairs and sequences of two are exchanged

A session is given commands, some of which build rules. If pairs are exchanged for sequences of two
in what it is told to build, then rules and definitions differ in these places from then on, and in
nothing else: the same references are made, the same faults are found, and the same definitions are
refused. So the whole run gives the same replies and the same lines in the log.

## Main definitions

* `Blueprint.Exchanged` — the exchange in what is to be built
* `Session.Exchanged`, `Command.Exchanged` — the exchange in a session, and in what it is told
* `Session.replies` — the replies of a run

## Main results

* `Blueprint.Exchanged.build` — the same references and faults, or rules that differ by exchanges
* `Session.Exchanged.ask_line_eq`, `Session.Exchanged.edit` — one question, one edit
* `Session.Exchanged.replies_line_eq` — a whole run
* `Session.replies_of_exchanged` — what an exchange leaves as it is
-/

namespace Peg

open Run

variable {α β γ δ : Type}

/-! ### Building -/

/-- The same references were made, and what was built is related. -/
structure Built.Alike (r : α → β → Prop) (x : Built α) (y : Built β) : Prop where
  refs_eq : x.refs = y.refs
  result : Agree r x.result y.result

namespace Built.Alike

variable {r : α → β → Prop} {q : γ → δ → Prop} {x : Built α} {y : Built β}

theorem refl {r : α → α → Prop} (hr : ∀ a, r a a) (x : Built α) : x.Alike r x where
  refs_eq := rfl
  result := by
    cases x.result with
    | error fault => exact Or.inl ⟨fault, rfl, rfl⟩
    | ok a => exact Or.inr ⟨a, a, rfl, rfl, hr a⟩

theorem eq (x : Built α) : x.Alike Eq x := refl (fun _ => rfl) x

theorem symm {r : α → α → Prop} {x y : Built α} (h : x.Alike r y) (hr : ∀ {a b}, r a b → r b a) :
    y.Alike r x where
  refs_eq := h.refs_eq.symm
  result := by
    rcases h.result with ⟨fault, hx, hy⟩ | ⟨a, b, hx, hy, hab⟩
    · exact Or.inl ⟨fault, hy, hx⟩
    · exact Or.inr ⟨b, a, hy, hx, hr hab⟩

theorem trans {r : α → α → Prop} {x y z : Built α} (h : x.Alike r y) (h' : y.Alike r z)
    (hr : ∀ {a b c}, r a b → r b c → r a c) : x.Alike r z where
  refs_eq := h.refs_eq.trans h'.refs_eq
  result := by
    rcases h.result with ⟨fault, hx, hy⟩ | ⟨a, b, hx, hy, hab⟩
    · rcases h'.result with ⟨fault', hy', hz⟩ | ⟨b', c, hy', hz, hbc⟩
      · obtain rfl := Except.error.inj (hy.symm.trans hy')
        exact Or.inl ⟨fault, hx, hz⟩
      · -- What is in the middle cannot both fail and succeed.
        cases hy.symm.trans hy'
    · rcases h'.result with ⟨fault', hy', hz⟩ | ⟨b', c, hy', hz, hbc⟩
      · cases hy.symm.trans hy'
      · obtain rfl := Except.ok.inj (hy.symm.trans hy')
        exact Or.inr ⟨a, c, hx, hz, hr hab hbc⟩

theorem check (h : x.Alike r y) {f : α → Except Fault γ} {g : β → Except Fault δ}
    (hfg : ∀ {a b}, r a b → Agree q (f a) (g b)) : (x.check f).Alike q (y.check g) where
  refs_eq := h.refs_eq
  result := by
    rw [Built.check, Built.check]
    rcases h.result with ⟨fault, hx, hy⟩ | ⟨a, b, hx, hy, hab⟩
    · rw [hx, hy]
      exact Or.inl ⟨fault, rfl, rfl⟩
    · rw [hx, hy]
      exact hfg hab

theorem map (h : x.Alike r y) {f : α → γ} {g : β → δ} (hfg : ∀ {a b}, r a b → q (f a) (g b)) :
    (x.map f).Alike q (y.map g) :=
  h.check fun hab => Or.inr ⟨_, _, rfl, rfl, hfg hab⟩

theorem andThen (h : x.Alike r y) {f : α → Built γ} {g : β → Built δ}
    (hfg : ∀ {a b}, r a b → (f a).Alike q (g b)) : (x.andThen f).Alike q (y.andThen g) := by
  rw [Built.andThen, Built.andThen]
  rcases h.result with ⟨fault, hx, hy⟩ | ⟨a, b, hx, hy, hab⟩
  · rw [hx, hy]
    exact ⟨h.refs_eq, Or.inl ⟨fault, rfl, rfl⟩⟩
  · rw [hx, hy]
    dsimp only
    rw [h.refs_eq, (hfg hab).refs_eq]
    exact ⟨rfl, (hfg hab).result⟩

end Built.Alike

/-- The lists differ in one place, where they are related. -/
inductive DifferInOne (r : α → α → Prop) : List α → List α → Prop where
  | mk {old new : α} (before after : List α) (h : r old new) :
    DifferInOne r (before ++ old :: after) (before ++ new :: after)

namespace Blueprint

variable {blueprint blueprint' : Blueprint} {locate : String → Option GrammarId}

/-- One blueprint is the other one with pairs exchanged for sequences of two parts, or these for
pairs, in any number of places. -/
inductive Exchanged : Blueprint → Blueprint → Prop where
  | pair (left right : Blueprint) : Exchanged (.pair left right) (.seq [left, right])
  | refl (blueprint : Blueprint) : Exchanged blueprint blueprint
  | symm {blueprint blueprint' : Blueprint} (h : Exchanged blueprint blueprint') :
    Exchanged blueprint' blueprint
  | trans {blueprint blueprint' blueprint'' : Blueprint} (h : Exchanged blueprint blueprint')
    (h' : Exchanged blueprint' blueprint'') : Exchanged blueprint blueprint''
  | seq {old new : Blueprint} (before after : List Blueprint) (h : Exchanged old new) :
    Exchanged (.seq (before ++ old :: after)) (.seq (before ++ new :: after))
  | pairLeft {old new : Blueprint} (right : Blueprint) (h : Exchanged old new) :
    Exchanged (.pair old right) (.pair new right)
  | pairRight {old new : Blueprint} (left : Blueprint) (h : Exchanged old new) :
    Exchanged (.pair left old) (.pair left new)
  | choice {old new : Blueprint} (before after : List Blueprint) (h : Exchanged old new) :
    Exchanged (.choice (before ++ old :: after)) (.choice (before ++ new :: after))
  | anyChoice {old new : Blueprint} (before after : List Blueprint) (h : Exchanged old new) :
    Exchanged (.anyChoice (before ++ old :: after)) (.anyChoice (before ++ new :: after))
  | not {old new : Blueprint} (h : Exchanged old new) : Exchanged (.not old) (.not new)
  | star {old new : Blueprint} (h : Exchanged old new) : Exchanged (.star old) (.star new)
  | plus {old new : Blueprint} (h : Exchanged old new) : Exchanged (.plus old) (.plus new)
  | opt {old new : Blueprint} (h : Exchanged old new) : Exchanged (.opt old) (.opt new)

theorem build_pair_alike (locate : String → Option GrammarId) (left right : Blueprint) :
    ((Blueprint.pair left right).build locate).Alike Rule.Exchanged
      ((Blueprint.seq [left, right]).build locate) := by
  simp only [build, buildAll, Built.andThen, Built.map, Built.plain]
  cases (left.build locate).result with
  | error fault => exact ⟨rfl, Or.inl ⟨fault, rfl, rfl⟩⟩
  | ok a =>
    cases (right.build locate).result with
    | error fault => exact ⟨rfl, Or.inl ⟨fault, rfl, rfl⟩⟩
    | ok b => exact ⟨by simp, Or.inr ⟨_, _, rfl, rfl, .pair a b⟩⟩

theorem buildAll_alike {old new : Blueprint} (before after : List Blueprint)
    (h : (old.build locate).Alike Rule.Exchanged (new.build locate)) :
    (buildAll locate (before ++ old :: after)).Alike (DifferInOne Rule.Exchanged)
      (buildAll locate (before ++ new :: after)) := by
  induction before with
  | nil =>
    refine h.andThen fun hrule => (Built.Alike.eq (buildAll locate after)).map ?_
    rintro rest _ rfl
    exact .mk [] rest hrule
  | cons first others ih =>
    refine (Built.Alike.eq (first.build locate)).andThen ?_
    rintro rule _ rfl
    refine ih.map ?_
    rintro _ _ ⟨before, after, hrule⟩
    exact .mk (rule :: before) after hrule

/-- What is built is exchanged in the same places. The same references are made, and the same fault
is found. -/
theorem Exchanged.build (h : Exchanged blueprint blueprint') (locate : String → Option GrammarId) :
    (blueprint.build locate).Alike Rule.Exchanged (blueprint'.build locate) := by
  induction h with
  | pair left right => exact build_pair_alike locate left right
  | refl blueprint => exact .refl .refl _
  | symm _ ih => exact ih.symm .symm
  | trans _ _ ih ih' => exact ih.trans ih' .trans
  | seq before after _ ih =>
    refine (buildAll_alike before after ih).map ?_
    rintro _ _ ⟨before, after, hrule⟩
    exact .seq before after hrule
  | pairLeft right _ ih =>
    refine ih.andThen fun hleft => (Built.Alike.eq (right.build locate)).map ?_
    rintro b _ rfl
    exact .pairLeft b hleft
  | pairRight left _ ih =>
    refine (Built.Alike.eq (left.build locate)).andThen ?_
    rintro a _ rfl
    exact ih.map (.pairRight a)
  | choice before after _ ih =>
    refine (buildAll_alike before after ih).check ?_
    rintro _ _ ⟨before, after, hrule⟩
    -- There is an alternative, so neither choice is refused.
    have hchoice : ∀ rule, Rule.choice? (before ++ rule :: after) =
        .ok (.choice (before ++ rule :: after)) := by simp [Rule.choice?]
    exact Or.inr ⟨_, _, hchoice _, hchoice _, .choice before after hrule⟩
  | anyChoice before after _ ih =>
    refine (buildAll_alike before after ih).map ?_
    rintro _ _ ⟨before, after, hrule⟩
    exact .choice before after hrule
  | not _ ih => exact ih.map .not
  | star _ ih => exact ih.map .star
  | plus _ ih => exact ih.map .plus
  | opt _ ih => exact ih.map .opt

end Blueprint

/-! ### Changes of stores -/

theorem Grammar.Exchanged.define {g g' : Grammar} (h : g.Exchanged g') (name : String)
    {rule rule' : Rule} (hrule : rule.Exchanged rule') :
    Agree Grammar.Exchanged (g.define name rule) (g'.define name rule') := by
  -- A definition is refused if the name has one, and that is the same in both grammars.
  cases hdefine : g.define name rule with
  | error fault =>
    obtain ⟨rfl, hsome⟩ := define_eq_error_iff.mp hdefine
    rw [h.isSome_eq] at hsome
    exact Or.inl ⟨_, rfl, define_eq_error_iff.mpr ⟨rfl, hsome⟩⟩
  | ok next =>
    cases hdefine' : g'.define name rule' with
    | error fault =>
      obtain ⟨-, hsome⟩ := define_eq_error_iff.mp hdefine'
      rw [← h.isSome_eq, rule?_eq_none_of_define hdefine] at hsome
      cases hsome
    | ok next' =>
      refine Or.inr ⟨next, next', rfl, rfl, ?_, ?_⟩
      · intro name'
        rw [isRegistered_define hdefine, isRegistered_define hdefine', h.isRegistered_eq]
      · intro name'
        rw [rule?_define hdefine, rule?_define hdefine']
        split
        · exact .some hrule
        · exact h.rule? name'

namespace Store.Exchanged

variable {store store' : Store} (h : store.Exchanged store')
include h

theorem create : store.create.Exchanged store'.create where
  nextId_eq := by rw [nextId_create, nextId_create, h.nextId_eq]
  grammar? id := by
    rw [grammar?_create, grammar?_create, h.nextId_eq]
    split
    · exact .some (.refl _)
    · exact h.grammar? id

theorem drop (id : GrammarId) : (store.drop id).Exchanged (store'.drop id) where
  nextId_eq := by rw [nextId_drop, nextId_drop, h.nextId_eq]
  grammar? id' := by
    rw [grammar?_drop, grammar?_drop]
    split
    · exact .none
    · exact h.grammar? id'

theorem update {id : GrammarId} {old old' g g' : Grammar} (hg : store.grammar? id = some old)
    (hg' : store'.grammar? id = some old') (hexch : g.Exchanged g') :
    (store.update id g).Exchanged (store'.update id g') where
  nextId_eq := by rw [nextId_update, nextId_update, h.nextId_eq]
  grammar? id' := by
    rw [grammar?_update hg, grammar?_update hg']
    split
    · exact .some hexch
    · exact h.grammar? id'

theorem register (target : Ref) : (store.register target).Exchanged (store'.register target) := by
  rw [Store.register, Store.register]
  rcases none_or_some_of_rel (h.grammar? target.grammar) with
    ⟨hg, hg'⟩ | ⟨g, g', hg, hg', hexch⟩
  · rw [hg, hg']
    exact h
  · rw [hg, hg']
    exact h.update hg hg' (hexch.register target.name)

theorem registerAll (targets : List Ref) :
    (targets.foldl Store.register store).Exchanged (targets.foldl Store.register store') := by
  induction targets generalizing store store' with
  | nil => exact h
  | cons target rest ih => exact ih (h.register target)

theorem define (target : Ref) {rule rule' : Rule} (hrule : rule.Exchanged rule') :
    Agree Store.Exchanged (store.define target rule) (store'.define target rule') := by
  rw [Store.define, Store.define]
  rcases none_or_some_of_rel (h.grammar? target.grammar) with
    ⟨hg, hg'⟩ | ⟨g, g', hg, hg', hexch⟩
  · rw [hg, hg']
    exact Or.inr ⟨_, _, rfl, rfl, h⟩
  · rw [hg, hg']
    dsimp only
    rcases hexch.define target.name hrule with
      ⟨fault, hdefine, hdefine'⟩ | ⟨next, next', hdefine, hdefine', hnext⟩
    · rw [hdefine, hdefine']
      exact Or.inl ⟨fault, rfl, rfl⟩
    · rw [hdefine, hdefine']
      exact Or.inr ⟨_, _, rfl, rfl, h.update hg hg' hnext⟩

end Store.Exchanged

/-! ### Sessions -/

theorem define_line {rule rule' : Rule} (hrender : rule.render = rule'.render) (name : String) :
    (Event.define name rule).line = (Event.define name rule').line := by
  unfold Event.line Event.level Event.message Grammar.renderDefinition
  dsimp only
  rw [hrender]

/-- The sessions know the same names and labels, and in their rules pairs are exchanged for
sequences of two parts. -/
structure Session.Exchanged (s s' : Session) : Prop where
  store : s.store.Exchanged s'.store
  handles_eq : s.handles = s'.handles
  held : ∀ label : String, Option.Rel Rule.Exchanged s.held[label]? s'.held[label]?

/-- The edits build what is exchanged for each other. -/
inductive Edit.Exchanged : Edit → Edit → Prop where
  | create (grammar : String) : Exchanged (.create grammar) (.create grammar)
  | drop (grammar : String) : Exchanged (.drop grammar) (.drop grammar)
  | refer (grammar name : String) : Exchanged (.refer grammar name) (.refer grammar name)
  | define (grammar name : String) {blueprint blueprint' : Blueprint}
    (h : blueprint.Exchanged blueprint') :
    Exchanged (.define grammar name blueprint) (.define grammar name blueprint')
  | hold (label : String) {blueprint blueprint' : Blueprint} (h : blueprint.Exchanged blueprint') :
    Exchanged (.hold label blueprint) (.hold label blueprint')

/-- The commands ask the same, or they make edits that are exchanged for each other. -/
inductive Command.Exchanged : Command → Command → Prop where
  | edit {edit edit' : Edit} (h : edit.Exchanged edit') : Exchanged (.edit edit) (.edit edit')
  | ask (question : Question) : Exchanged (.ask question) (.ask question)

namespace Session

/-- The replies to a number of commands. -/
def replies (s : Session) (commands : List Command) : Run Event (List Reply) :=
  (·.2) <$> s.run commands

theorem replies_edit (s : Session) (edit : Edit) (rest : List Command) :
    s.replies (.edit edit :: rest) =
      after (s.edit edit).2.2 (((s.edit edit).2.1 :: ·) <$> (s.edit edit).1.replies rest) := by
  rw [replies, run, execute, replies]
  generalize s.edit edit = result
  obtain ⟨next, reply, log⟩ := result
  rw [ends_bind]
  dsimp only
  cases next.run rest <;> simp

theorem replies_ask (s : Session) (question : Question) (rest : List Command) :
    s.replies (.ask question :: rest) =
      s.ask question >>= fun reply => (reply :: ·) <$> s.replies rest := by
  simp only [replies, run, execute, bind_assoc, map_bind, pure_bind, map_pure]
  congr 1
  funext reply
  rw [Functor.map_map, map_eq_pure_bind]

namespace Exchanged

theorem refl (s : Session) : s.Exchanged s where
  store := .refl s.store
  handles_eq := rfl
  held label := by
    cases s.held[label]? with
    | none => exact .none
    | some rule => exact .some (.refl rule)

variable {s s' : Session} (h : s.Exchanged s')
include h

theorem locate_eq (grammar : String) : s.locate grammar = s'.locate grammar := by
  rw [locate, locate, h.handles_eq]

theorem grammar? (grammar : String) :
    Option.Rel Grammar.Exchanged (s.grammar? grammar) (s'.grammar? grammar) := by
  rw [Session.grammar?, Session.grammar?, h.locate_eq]
  cases s'.locate grammar with
  | none => exact .none
  | some id => exact h.store.grammar? id

/-- A question is answered from grammars that are exchanged for each other, or there is none. -/
theorem withGrammar_line_eq (grammar : String) {answer answer' : Grammar → Run Event Reply}
    (hanswer : ∀ {g g'}, g.Exchanged g' →
      (answer g).mapLog Event.line = (answer' g').mapLog Event.line) :
    (s.withGrammar grammar answer).mapLog Event.line =
      (s'.withGrammar grammar answer').mapLog Event.line := by
  rw [withGrammar, withGrammar]
  rcases none_or_some_of_rel (h.grammar? grammar) with ⟨hg, hg'⟩ | ⟨g, g', hg, hg', hexch⟩
  · rw [hg, hg']
  · rw [hg, hg']
    exact hanswer hexch

/-- A question has the same reply, and logs the same lines. -/
theorem ask_line_eq (question : Question) :
    (s.ask question).mapLog Event.line = (s'.ask question).mapLog Event.line := by
  cases question with
  | check grammar =>
    apply h.withGrammar_line_eq
    intro g g' hg
    rw [hg.check_eq]
  | names grammar =>
    apply h.withGrammar_line_eq
    intro g g' hg
    rw [hg.names_eq]
  | print grammar =>
    apply h.withGrammar_line_eq
    intro g g' hg
    rw [hg.render_eq]
  | matchText grammar name text =>
    apply h.withGrammar_line_eq
    intro g g' hg
    rcases none_or_some_of_rel (hg.rule? name) with ⟨hr, hr'⟩ | ⟨rule, rule', hr, hr', hrule⟩
    · rw [hr, hr']
    · rw [hr, hr']
      exact h.store.reply_line_eq hrule (.matchText text)
  | defined grammar name query =>
    apply h.withGrammar_line_eq
    intro g g' hg
    rcases none_or_some_of_rel (hg.rule? name) with ⟨hr, hr'⟩ | ⟨rule, rule', hr, hr', hrule⟩
    · rw [hr, hr']
    · rw [hr, hr']
      exact h.store.reply_line_eq hrule query
  | held label query =>
    rw [ask, ask]
    rcases none_or_some_of_rel (h.held label) with ⟨hr, hr'⟩ | ⟨rule, rule', hr, hr', hrule⟩
    · rw [hr, hr']
    · rw [hr, hr']
      exact h.store.reply_line_eq hrule query

/-- Building fails in both sessions with the same fault, or it succeeds in both. -/
theorem build {blueprint blueprint' : Blueprint} (hb : blueprint.Exchanged blueprint') :
    ∃ next next' result result', s.build blueprint = (next, result) ∧
      s'.build blueprint' = (next', result') ∧ next.Exchanged next' ∧
      Agree Rule.Exchanged result result' := by
  -- Names are registered for all references, also for those made before a fault was found.
  have hlocate : s.locate = s'.locate := funext h.locate_eq
  have hbuild := hb.build s.locate
  refine ⟨_, _, _, _, rfl, rfl, ⟨?_, h.handles_eq, h.held⟩, ?_⟩
  · rw [← hlocate, ← hbuild.refs_eq]
    exact h.store.registerAll _
  · rw [← hlocate]
    exact hbuild.result

theorem create (grammar : String) : (s.create grammar).Exchanged (s'.create grammar) := by
  -- The grammar that had the name was dropped from both stores, or there was none.
  have hnew : ∀ {store store' : Store}, store.Exchanged store' →
      Session.Exchanged ⟨store.create, s.handles.insert grammar store.nextId, s.held⟩
        ⟨store'.create, s'.handles.insert grammar store'.nextId, s'.held⟩ := by
    intro store store' hstore
    refine ⟨hstore.create, ?_, h.held⟩
    rw [hstore.nextId_eq, h.handles_eq]
  rw [Session.create, Session.create, h.locate_eq]
  cases s'.locate grammar with
  | none => exact hnew h.store
  | some id => exact hnew (h.store.drop id)

theorem drop (grammar : String) :
    ∃ next next' existed, s.drop grammar = (next, existed) ∧ s'.drop grammar = (next', existed) ∧
      next.Exchanged next' := by
  rw [Session.drop, Session.drop, h.locate_eq]
  cases s'.locate grammar with
  | none => exact ⟨s, s', false, rfl, rfl, h⟩
  | some id =>
    refine ⟨_, _, true, rfl, rfl, h.store.drop id, ?_, h.held⟩
    rw [h.handles_eq]

theorem define (target : Ref) {rule rule' : Rule} (hrule : rule.Exchanged rule') :
    ∃ next next' reply, s.define target rule = (next, reply) ∧
      s'.define target rule' = (next', reply) ∧ next.Exchanged next' := by
  rw [Session.define, Session.define]
  rcases h.store.define target hrule with ⟨fault, hd, hd'⟩ | ⟨store, store', hd, hd', hstore⟩
  · rw [hd, hd']
    exact ⟨s, s', .fault fault, rfl, rfl, h⟩
  · rw [hd, hd']
    exact ⟨_, _, .done, rfl, rfl, hstore, h.handles_eq, h.held⟩

/-- An edit has the same reply, logs the same lines, and leaves the sessions exchanged. -/
theorem edit {edit edit' : Edit} (he : edit.Exchanged edit') :
    (s.edit edit).1.Exchanged (s'.edit edit').1 ∧
      (s.edit edit).2.1 = (s'.edit edit').2.1 ∧
      (s.edit edit).2.2.map Event.line = (s'.edit edit').2.2.map Event.line := by
  cases he with
  | create grammar => exact ⟨h.create grammar, rfl, rfl⟩
  | drop grammar =>
    obtain ⟨next, next', existed, hdrop, hdrop', hnext⟩ := h.drop grammar
    rw [Session.edit, Session.edit, hdrop, hdrop']
    exact ⟨hnext, rfl, rfl⟩
  | refer grammar name =>
    obtain ⟨next, next', result, result', hbuild, hbuild', hnext, hresult⟩ :=
      h.build (.refl (.ref grammar name))
    rw [Session.edit, Session.edit, hbuild, hbuild']
    rcases hresult with ⟨fault, rfl, rfl⟩ | ⟨rule, rule', rfl, rfl, hrule⟩
    · exact ⟨hnext, rfl, rfl⟩
    · exact ⟨hnext, congrArg Reply.text hrule.render_eq, rfl⟩
  | define grammar name hb =>
    obtain ⟨next, next', result, result', hbuild, hbuild', hnext, hresult⟩ := h.build hb
    rw [Session.edit, Session.edit, h.locate_eq]
    cases s'.locate grammar with
    | none => exact ⟨h, rfl, rfl⟩
    | some id =>
      rw [hbuild, hbuild']
      rcases hresult with ⟨fault, rfl, rfl⟩ | ⟨rule, rule', rfl, rfl, hrule⟩
      · exact ⟨hnext, rfl, rfl⟩
      · obtain ⟨last, last', reply, hdefine, hdefine', hlast⟩ := hnext.define ⟨id, name⟩ hrule
        dsimp only
        rw [hdefine, hdefine']
        exact ⟨hlast, rfl, congrArg (fun line => [line]) (define_line hrule.render_eq name)⟩
  | hold label hb =>
    obtain ⟨next, next', result, result', hbuild, hbuild', hnext, hresult⟩ := h.build hb
    rw [Session.edit, Session.edit, hbuild, hbuild']
    rcases hresult with ⟨fault, rfl, rfl⟩ | ⟨rule, rule', rfl, rfl, hrule⟩
    · exact ⟨hnext, rfl, rfl⟩
    · refine ⟨⟨hnext.store, hnext.handles_eq, ?_⟩, congrArg Reply.text hrule.render_eq, rfl⟩
      intro label'
      rw [Std.ExtTreeMap.getElem?_insert, Std.ExtTreeMap.getElem?_insert]
      split
      · exact .some hrule
      · exact hnext.held label'

/-- A run has the same replies, and logs the same lines. -/
theorem replies_line_eq {commands commands' : List Command}
    (hcommands : List.Forall₂ Command.Exchanged commands commands') :
    (s.replies commands).mapLog Event.line = (s'.replies commands').mapLog Event.line := by
  induction hcommands generalizing s s' with
  | nil => rfl
  | cons hcommand _ ih =>
    cases hcommand with
    | edit he =>
      obtain ⟨hnext, hreply, hlines⟩ := h.edit he
      rw [replies_edit, replies_edit, mapLog_after, mapLog_after, mapLog_map, mapLog_map, hreply,
        hlines, ih hnext]
    | ask question =>
      simp only [replies_ask, mapLog_bind, mapLog_map]
      rw [h.ask_line_eq, ih h]

end Exchanged

/-- A pair and the sequence of its two parts match the same at every position of every text, with
the same log, and without end in the same cases. They are written alike. So if they are exchanged
for each other in any number of places of a rule and of the definitions in a store, then rules match
the same, are written alike and are searched for with the same answers. If that is done in the rules
that a run is told to build, the run gives the same replies and logs the same lines. -/
theorem replies_of_exchanged :
    (∀ (store : Store) (left right : Rule) (input : Array Char) (position : Nat),
      store.matchAt (.pair left right) input position =
        store.matchAt (.seq [left, right]) input position) ∧
    (∀ left right : Rule, (Rule.pair left right).render = (Rule.seq [left, right]).render) ∧
    (∀ (store store' : Store) (rule rule' : Rule), store.Exchanged store' → rule.Exchanged rule' →
      rule.render = rule'.render ∧
      (∀ input position, store.matchAt rule input position = store'.matchAt rule' input position) ∧
      ∀ query, (store.reply rule query).mapLog Event.line =
        (store'.reply rule' query).mapLog Event.line) ∧
    ∀ (s s' : Session) (commands commands' : List Command), s.Exchanged s' →
      List.Forall₂ Command.Exchanged commands commands' →
      (s.replies commands).mapLog Event.line = (s'.replies commands').mapLog Event.line := by
  refine ⟨?_, ?_, ?_, ?_⟩
  · intro store left right
    exact (Store.Exchanged.refl store).matchAt_eq (.pair left right)
  · intro left right
    exact (Rule.Exchanged.pair left right).render_eq
  · intro store store' rule rule' hstore hrule
    exact ⟨hrule.render_eq, hstore.matchAt_eq hrule, hstore.reply_line_eq hrule⟩
  · intro s s' commands commands' hs hcommands
    exact hs.replies_line_eq hcommands

/-- Define nested parentheses with `two` for two parts in a row, look at the definition, and search
a text for them. -/
def askNested (two : Blueprint → Blueprint → Blueprint) : List Command :=
  [.edit (.define "main" "nested"
      (two (.char '(') (two (.opt (.ref "main" "nested")) (.char ')')))),
    .ask (.print "main"), .ask (.defined "main" "nested" (.findAll ['(', '(', ')', ')'] none))]

/-- The three parts are two pairs, or two sequences of two parts. -/
theorem replies_of_exchanged_nested :
    List.Forall₂ Command.Exchanged (askNested .pair) (askNested fun a b => .seq [a, b]) ∧
    (initial.replies (askNested .pair)).mapLog Event.line =
      (initial.replies (askNested fun a b => .seq [a, b])).mapLog Event.line := by
  have hcommands : List.Forall₂ Command.Exchanged (askNested .pair)
      (askNested fun a b => .seq [a, b]) :=
    .cons (.edit (.define "main" "nested" (.trans (.pairRight _ (.pair _ _)) (.pair _ _))))
      (.cons (.ask _) (.cons (.ask _) .nil))
  exact ⟨hcommands,
    replies_of_exchanged.2.2.2 initial initial _ _ (Exchanged.refl initial) hcommands⟩

end Session

end Peg
