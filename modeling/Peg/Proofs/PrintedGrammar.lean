import Peg.Proofs.Interchange
import Peg.Proofs.Resolution

/-!
# The text of a grammar tells what it matches

The definitions of a grammar are written one a line. Whatever characters and strings occur in a
rule, its written form has no line feed, so the lines can be told apart, and in each line the name
from the rule. What is left open is which of several rules with this written form was defined. These
have the same normal form, and a rule matches as its normal form does, unless there is an empty
choice or a mark that follows a negation. So two grammars with the same text match the same,
whatever is asked of their rules, if they refer to themselves only: the text does not say to which
grammar a name belongs.

## Main definitions

* `Rule.Careful` — a choice has an alternative, and no mark follows a negation
* `Grammar.Plain` — names are words, references stay within the grammar, and the rules are careful
* `Store.byName` — what the names of a grammar mean

## Main results

* `Rule.newline_notMem_render` — a rule is written in one line
* `Grammar.exists_rule_of_render` — grammars with the same text define the same names, by rules that
  are written alike
* `Rule.matchWith_norm` — careful rules match as their normal forms
* `Store.matchAt_line_eq_of_render` — rules of grammars with the same text match the same
* `Session.ask_line_eq_of_render` — so questions about them are answered alike
-/

namespace Peg

open Outcome Run Text

variable {ε : Type} {input : Array Char}

/-! ### Lines -/

namespace Text

theorem digitChar_ne_newline : ∀ n < 16, n.digitChar ≠ '\n' := by decide

theorem newline_notMem_escapedBy (unprintable : Char → Bool) (c : Char) :
    '\n' ∉ escapedBy unprintable c := by
  have hdigits := notMem_toDigits digitChar_ne_newline c.toNat
  unfold escapedBy
  split
  · decide
  · decide
  · decide
  · decide
  · decide
  · decide
  · split
    · simp [byNumber, hdigits]
    · rename_i hnewline _ _ _
      simp [Ne.symm hnewline]

theorem newline_notMem_body (c : Char) : '\n' ∉ quotedChar.body c := by
  unfold quotedChar.body
  split
  · decide
  · decide
  · decide
  · decide
  · rename_i hnewline _
    simp [Ne.symm hnewline]

theorem newline_notMem_quotedChar (c : Char) : '\n' ∉ quotedChar c := by
  simp [quotedChar, newline_notMem_body]

end Text

theorem Token.newline_notMem_text {t : Token} (hplain : t.IsPlain) (unprintable : Char → Bool) :
    '\n' ∉ t.text unprintable := by
  cases t with
  | char c => exact newline_notMem_quotedChar c
  | range low high => simp [text, newline_notMem_quotedChar]
  | string chars => simp [text, newline_notMem_escapedBy]
  | word name =>
    intro hmem
    have hword : isWordChar '\n' = true := hplain.2 _ hmem
    exact absurd hword (by decide)
  | _ => rw [text]; decide

namespace Rule

variable {rule rule' : Rule}

/-- A rule is written in one line, whatever characters and strings occur in it. -/
theorem newline_notMem_render (h : rule.PlainNames) : '\n' ∉ rule.render := by
  rw [render_eq_renderBy, renderBy, List.mem_flatMap]
  rintro ⟨t, ht, hmem⟩
  exact Token.newline_notMem_text ((readable_tokens h).plain t ht) _ hmem

/-! ### Normal forms of careful rules -/

/-- A choice has an alternative, and no mark follows a negation. -/
def IsCareful : Rule → Prop
  | .choice alternatives => alternatives ≠ []
  | .star (.not _) => False
  | .plus (.not _) => False
  | .opt (.not _) => False
  | _ => True

/-- All choices in the rule have an alternative, and in no place a mark follows a negation. -/
def Careful (rule : Rule) : Prop := rule.Everywhere IsCareful

theorem Careful.of_on (mark : Suffix) {operand : Rule} (h : (mark.on operand).Careful) :
    (∀ inner, operand ≠ .not inner) ∧ operand.Careful := by
  have hnot : ∀ inner, operand ≠ .not inner := by
    rintro inner rfl
    cases mark <;> exact h.1
  cases mark <;> exact ⟨hnot, h.2⟩

theorem hoist_eq_on (mark : Suffix) (h : ∀ operand, rule ≠ .not operand) :
    rule.hoist mark = mark.on rule := by
  cases rule with
  | not operand => exact absurd rfl (h operand)
  | _ => rfl

theorem group_ne_not (alternatives : List Rule) (operand : Rule) :
    group alternatives ≠ .not operand := by
  match alternatives with
  | [] => nofun
  | [_] => nofun
  | _ :: _ :: _ => nofun

/-- The normal form of a careful rule does not begin with a negation, unless the rule does. -/
theorem Careful.norm_ne_not (h : rule.Careful) (hnot : ∀ operand, rule ≠ .not operand) :
    ∀ operand, rule.norm ≠ .not operand := by
  have hmark : ∀ (mark : Suffix) {inner : Rule}, (mark.on inner).Careful →
      (inner.Careful → (∀ operand, inner ≠ .not operand) → ∀ operand, inner.norm ≠ .not operand) →
      ∀ operand, inner.norm.hoist mark ≠ .not operand := by
    intro mark inner h ih
    obtain ⟨hne, hinner⟩ := h.of_on mark
    rw [hoist_eq_on mark (ih hinner hne)]
    cases mark <;> nofun
  induction rule with
  | not inner => exact absurd rfl (hnot inner)
  | choice alternatives => exact group_ne_not _
  | star inner ih => exact hmark .star h ih
  | plus inner ih => exact hmark .plus h ih
  | opt inner ih => exact hmark .opt h ih
  | _ => nofun

variable {call : Meaning ε}

theorem matchWith_on (mark : Suffix) (h : rule.matchWith call input = rule'.matchWith call input) :
    (mark.on rule).matchWith call input = (mark.on rule').matchWith call input := by
  cases mark with
  | star => funext position; rw [Suffix.on, matchWith, matchWith, h]
  | plus => funext position; rw [Suffix.on, matchWith, matchWith, h]
  | opt => funext position; rw [Suffix.on, matchWith, matchWith, h]

theorem matchWith_group (hcall : call.Spans input) {alternatives : List Rule}
    (h : alternatives ≠ []) :
    (group alternatives).matchWith call input =
      (Rule.choice alternatives).matchWith call input := by
  match alternatives with
  | [] => exact absurd rfl h
  | [alternative] =>
    exact (matchWith_seq_singleton hcall alternative).trans
      (matchWith_choice_singleton hcall alternative).symm
  | _ :: _ :: _ => rfl

/-- A careful rule matches as its normal form does. -/
theorem matchWith_norm (hcall : call.Spans input) (h : rule.Careful) :
    rule.norm.matchWith call input = rule.matchWith call input := by
  have hmark : ∀ (mark : Suffix) {inner : Rule}, (mark.on inner).Careful →
      (inner.Careful → inner.norm.matchWith call input = inner.matchWith call input) →
      (inner.norm.hoist mark).matchWith call input = (mark.on inner).matchWith call input := by
    intro mark inner h ih
    obtain ⟨hne, hinner⟩ := h.of_on mark
    rw [hoist_eq_on mark (hinner.norm_ne_not hne)]
    exact matchWith_on mark (ih hinner)
  induction rule with
  | seq parts ih =>
    obtain ⟨-, hparts⟩ := h
    rw [everywhereAll_iff] at hparts
    have halike := matchAlike_map fun part hpart => ih part hpart (hparts part hpart)
    funext position
    rw [norm, normAll_eq_map, matchWith, matchWith, stopOfSeq_congr halike]
  | pair left right ihl ihr =>
    obtain ⟨-, hleft, hright⟩ := h
    calc (Rule.pair left right).norm.matchWith call input
      _ = (Rule.pair left.norm right.norm).matchWith call input :=
          -- The normal form of a pair is a sequence.
          (matchWith_pair_eq_seq hcall left.norm right.norm).symm
      _ = (Rule.pair left right).matchWith call input := by
          funext position
          rw [matchWith_pair, matchWith_pair, ihl hleft, ihr hright]
  | choice alternatives ih =>
    obtain ⟨hne, halternatives⟩ := h
    rw [everywhereAll_iff] at halternatives
    have halike := matchAlike_map fun alternative hmem =>
      ih alternative hmem (halternatives alternative hmem)
    have hne' : alternatives.map norm ≠ [] := fun hnil => hne (List.map_eq_nil_iff.mp hnil)
    rw [norm, normAll_eq_map, matchWith_group hcall hne']
    funext position
    rw [matchWith, matchWith, firstMatch_congr halike]
  | not inner ih =>
    funext position
    rw [norm, matchWith, matchWith, ih h.2]
  | star inner ih => exact hmark .star h ih
  | plus inner ih => exact hmark .plus h ih
  | opt inner ih => exact hmark .opt h ih
  | _ => rfl

end Rule

/-! ### The text of a grammar -/

/-- Texts that are put together with a separator between them are found again, if none is empty and
the separator does not occur in them. -/
theorem filter_splitOn_intercalate {α : Type} [DecidableEq α] (separator : α)
    {texts : List (List α)} (h : ∀ text ∈ texts, text ≠ [] ∧ separator ∉ text) :
    (([separator].intercalate texts).splitOn separator).filter (· ≠ []) = texts := by
  cases texts with
  | nil => rfl
  | cons first rest =>
    rw [List.splitOn_intercalate separator (fun text htext => (h text htext).2) (by simp)]
    exact List.filter_eq_self.mpr fun text htext => decide_eq_true (h text htext).1

namespace Grammar

/-- Names are words, all references stay within the grammar, which has the identity `id`, and all
rules are careful. -/
structure Plain (g : Grammar) (id : GrammarId) : Prop where
  isPlain : ∀ {name rule}, g.rule? name = some rule → (Token.word name).IsPlain
  plainNames : ∀ {name rule}, g.rule? name = some rule → rule.PlainNames
  refersInto : ∀ {name rule}, g.rule? name = some rule → rule.RefersInto (· = id)
  careful : ∀ {name rule}, g.rule? name = some rule → rule.Careful

/-- The definitions of a grammar as lines of text. -/
def lines (g : Grammar) : List (List Char) :=
  g.definitions.map fun definition => renderDefinition definition.1 definition.2

variable {g g' : Grammar} {id id' : GrammarId} {name name' : String} {rule rule' : Rule}

theorem mem_lines_iff {line : List Char} :
    line ∈ g.lines ↔ ∃ name rule, g.rule? name = some rule ∧ renderDefinition name rule = line := by
  rw [lines, List.mem_map]
  constructor
  · rintro ⟨⟨name, rule⟩, hmem, rfl⟩
    exact ⟨name, rule, mem_definitions_iff.mp hmem, rfl⟩
  · rintro ⟨name, rule, hrule, rfl⟩
    exact ⟨(name, rule), mem_definitions_iff.mpr hrule, rfl⟩

theorem Plain.lines_eq (h : g.Plain id) : (g.render.splitOn '\n').filter (· ≠ []) = g.lines := by
  apply filter_splitOn_intercalate
  intro line hline
  obtain ⟨name, rule, hrule, rfl⟩ := mem_lines_iff.mp hline
  have hname := Token.newline_notMem_text (h.isPlain hrule) isUnprintable
  have hrender := Rule.newline_notMem_render (h.plainNames hrule)
  rw [Token.text] at hname
  constructor
  · simp [renderDefinition]
  · simp [renderDefinition, hname, hrender]

/-- The name is the first token of a line. -/
theorem lex_renderDefinition (h : (Token.word name).IsPlain) (rule : Rule) :
    Token.lex (renderDefinition name rule) =
      some (.word name, [' ', '<', '-', ' '] ++ rule.render) := by
  rw [renderDefinition, List.append_assoc]
  apply Token.lex_word h
  rintro c ⟨⟩
  decide

/-- Grammars with the same text define the same names, by rules that are written alike. -/
theorem exists_rule_of_render (h : g.Plain id) (h' : g'.Plain id') (hrender : g.render = g'.render)
    (hrule : g.rule? name = some rule) :
    ∃ rule', g'.rule? name = some rule' ∧ rule.render = rule'.render := by
  -- The line of this definition is also one of the other grammar, perhaps with another name.
  have hlines : g.lines = g'.lines := by rw [← h.lines_eq, hrender, h'.lines_eq]
  have hline : renderDefinition name rule ∈ g'.lines := by
    rw [← hlines]
    exact mem_lines_iff.mpr ⟨name, rule, hrule, rfl⟩
  obtain ⟨name', rule', hrule', hsame⟩ := mem_lines_iff.mp hline
  -- But the name is read back from the line, and so is the rest.
  have hread := lex_renderDefinition (h'.isPlain hrule') rule'
  rw [hsame, lex_renderDefinition (h.isPlain hrule), Option.some.injEq, Prod.mk.injEq,
    Token.word.injEq] at hread
  obtain ⟨rfl, hrest⟩ := hread
  exact ⟨rule', hrule', List.append_cancel_left hrest⟩

/-- A name is defined in both grammars, by rules that are written alike, or in neither. -/
theorem rule?_of_render (h : g.Plain id) (h' : g'.Plain id') (hrender : g.render = g'.render)
    (name : String) :
    (g.rule? name = none ∧ g'.rule? name = none) ∨
      ∃ rule rule', g.rule? name = some rule ∧ g'.rule? name = some rule' ∧
        rule.render = rule'.render := by
  cases hrule : g.rule? name with
  | some rule =>
    obtain ⟨rule', hrule', hsame⟩ := exists_rule_of_render h h' hrender hrule
    exact Or.inr ⟨rule, rule', rfl, hrule', hsame⟩
  | none =>
    cases hrule' : g'.rule? name with
    | none => exact Or.inl ⟨rfl, rfl⟩
    | some rule' =>
      obtain ⟨rule, hrule'', -⟩ := exists_rule_of_render h' h hrender.symm hrule'
      rw [hrule] at hrule''
      cases hrule''

theorem names_eq_of_render (h : g.Plain id) (h' : g'.Plain id') (hrender : g.render = g'.render) :
    g.names = g'.names := by
  apply names_eq_of_isSome
  intro name
  rcases rule?_of_render h h' hrender name with ⟨hrule, hrule'⟩ | ⟨_, _, hrule, hrule', -⟩
  · rw [hrule, hrule']
  · rw [hrule, hrule', Option.isSome_some, Option.isSome_some]

end Grammar

/-! ### Matches within a grammar -/

namespace Store

variable {store store' : Store} {id id' : GrammarId} {g g' : Grammar} {rule rule' : Rule}
  {depth : Nat}

/-- What names mean within the grammar `id`, with the lines that are logged. -/
def byName (store : Store) (id : GrammarId) (input : Array Char) (depth : Nat) :
    Meaning (List Char) :=
  fun target position => (store.meaning input depth ⟨id, target.name⟩ position).mapLog Miss.line

theorem byName_spans (store : Store) (id : GrammarId) (input : Array Char) (depth : Nat) :
    (store.byName id input depth).Spans input := by
  intro target position
  exact always_mapLog.mpr (store.meaning_spans input depth ⟨id, target.name⟩ position)

/-- A rule of the grammar matches as its normal form, in which references are told by their
names. -/
theorem matchWith_line (hrefs : rule.RefersInto (· = id)) (hcareful : rule.Careful)
    (position : Nat) :
    (rule.matchWith (store.meaning input depth) input position).mapLog Miss.line =
      rule.normByName.matchWith (store.byName id input depth) input position := by
  have hcall : ∀ target ∈ rule.refs, ∀ position,
      (store.meaning input depth target position).mapLog Miss.line =
        store.byName id input depth target position := by
    intro target htarget position
    rw [byName, ← hrefs target htarget]
  calc (rule.matchWith (store.meaning input depth) input position).mapLog Miss.line
    _ = rule.matchWith (store.byName id input depth) input position :=
        rule.matchWith_rel (compositional_of_bind (fun _ => rfl) (mapLog_bind Miss.line)) input
          hcall position
    _ = rule.norm.matchWith (store.byName id input depth) input position := by
        rw [Rule.matchWith_norm (store.byName_spans id input depth) hcareful]
    _ = rule.normByName.matchWith (store.byName id input depth) input position := by
        rw [Rule.normByName, Rule.within, Rule.matchWith_subst]
        rfl

variable (hg : store.grammar? id = some g) (hplain : g.Plain id)
  (hg' : store'.grammar? id' = some g') (hplain' : g'.Plain id') (hrender : g.render = g'.render)
include hg hplain hg' hplain' hrender

/-- In grammars with the same text names mean the same. -/
theorem byName_eq_of_render (input : Array Char) (depth : Nat) :
    store.byName id input depth = store'.byName id' input depth := by
  induction depth with
  | zero => rfl
  | succ depth ih =>
    funext target position
    rw [byName, byName]
    rcases Grammar.rule?_of_render hplain hplain' hrender target.name with
      ⟨hrule, hrule'⟩ | ⟨rule, rule', hrule, hrule', hsame⟩
    · have hres : store.resolve ⟨id, target.name⟩ = .error (.undefined ⟨id, target.name⟩) :=
        resolve_of_undefined hg hrule
      have hres' : store'.resolve ⟨id', target.name⟩ = .error (.undefined ⟨id', target.name⟩) :=
        resolve_of_undefined hg' hrule'
      -- The lines about them are the same, as only the name is written.
      rw [meaning_succ_of_error hres, meaning_succ_of_error hres']
      rfl
    · have hres : store.resolve ⟨id, target.name⟩ = .ok rule :=
        resolve_eq_ok_iff.mpr ⟨g, hg, hrule⟩
      have hres' : store'.resolve ⟨id', target.name⟩ = .ok rule' :=
        resolve_eq_ok_iff.mpr ⟨g', hg', hrule'⟩
      have hnorm := Rule.normByName_eq_of_render (hplain.plainNames hrule)
        (hplain'.plainNames hrule') hsame
      rw [meaning_succ_of_ok hres, meaning_succ_of_ok hres',
        matchWith_line (hplain.refersInto hrule) (hplain.careful hrule),
        matchWith_line (hplain'.refersInto hrule') (hplain'.careful hrule'), hnorm, ih]

/-- Rules that are written alike, in grammars with the same text, match the same. -/
theorem matchAt_line_eq_of_render {name : String} (hrule : g.rule? name = some rule)
    (hrule' : g'.rule? name = some rule') (input : Array Char) (position : Nat) :
    (store.matchAt rule input position).mapLog Miss.line =
      (store'.matchAt rule' input position).mapLog Miss.line := by
  obtain ⟨_, hsome, hsame⟩ := Grammar.exists_rule_of_render hplain hplain' hrender hrule
  obtain rfl := Option.some.inj (hsome.symm.trans hrule')
  have hnorm := Rule.normByName_eq_of_render (hplain.plainNames hrule) (hplain'.plainNames hrule')
    hsame
  obtain ⟨depth, hmatch, hmatch'⟩ := exists_depth_matchAt store store' input input
  rw [hmatch, hmatch',
    matchWith_line (hplain.refersInto hrule) (hplain.careful hrule),
    matchWith_line (hplain'.refersInto hrule') (hplain'.careful hrule'), hnorm,
    byName_eq_of_render hg hplain hg' hplain' hrender]

end Store

/-! ### Questions -/

namespace Session

variable {s s' : Session} {grammar grammar' : String} {id id' : GrammarId} {g g' : Grammar}

theorem ask_defined (hid : s.locate grammar = some id) (hg : s.store.grammar? id = some g)
    (name : String) (query : Query) :
    s.ask (.defined grammar name query) =
      match g.rule? name with
      | some rule => s.store.reply rule query
      | none => pure .absent := by
  cases hrule : g.rule? name <;>
    simp only [ask, withGrammar, Session.grammar?, hid, Option.bind_some, hg, hrule]

/-- Let all names of two grammars be words, all references stay within their grammars, no choice be
empty and no mark follow a negation. If the grammars have the same text, then they define the same
names, and under each name they match the same at every position of every text, with the same lines
in the log, and without end in the same cases. Whatever is asked of a name has the same answer, also
that there is no rule of this name. -/
theorem ask_line_eq_of_render (hid : s.locate grammar = some id)
    (hg : s.store.grammar? id = some g) (hplain : g.Plain id)
    (hid' : s'.locate grammar' = some id') (hg' : s'.store.grammar? id' = some g')
    (hplain' : g'.Plain id') (hrender : g.render = g'.render) :
    g.names = g'.names ∧
    (∀ name, (g.rule? name = none ∧ g'.rule? name = none) ∨
      ∃ rule rule', g.rule? name = some rule ∧ g'.rule? name = some rule' ∧
        ∀ input position, (s.store.matchAt rule input position).mapLog Miss.line =
          (s'.store.matchAt rule' input position).mapLog Miss.line) ∧
    (∀ name text, (s.ask (.matchText grammar name text)).mapLog Event.line =
      (s'.ask (.matchText grammar' name text)).mapLog Event.line) ∧
    ∀ name query, (s.ask (.defined grammar name query)).mapLog Event.line =
      (s'.ask (.defined grammar' name query)).mapLog Event.line := by
  have hnames := Grammar.rule?_of_render hplain hplain' hrender
  have hreply : ∀ {name rule rule'}, g.rule? name = some rule → g'.rule? name = some rule' →
      rule.render = rule'.render → ∀ query, (s.store.reply rule query).mapLog Event.line =
        (s'.store.reply rule' query).mapLog Event.line := by
    intro name rule rule' hrule hrule' hsame
    apply Store.reply_line_eq hsame
    exact Store.matchAt_line_eq_of_render hg hplain hg' hplain' hrender hrule hrule'
  refine ⟨Grammar.names_eq_of_render hplain hplain' hrender, ?_, ?_, ?_⟩
  · intro name
    rcases hnames name with hnone | ⟨rule, rule', hrule, hrule', -⟩
    · exact Or.inl hnone
    · exact Or.inr ⟨rule, rule', hrule, hrule',
        Store.matchAt_line_eq_of_render hg hplain hg' hplain' hrender hrule hrule'⟩
  · intro name text
    rw [ask_matchText hid hg, ask_matchText hid' hg']
    rcases hnames name with ⟨hrule, hrule'⟩ | ⟨rule, rule', hrule, hrule', hsame⟩
    · rw [hrule, hrule']
    · rw [hrule, hrule']
      exact hreply hrule hrule' hsame (.matchText text)
  · intro name query
    rw [ask_defined hid hg, ask_defined hid' hg']
    rcases hnames name with ⟨hrule, hrule'⟩ | ⟨rule, rule', hrule, hrule', hsame⟩
    · rw [hrule, hrule']
    · rw [hrule, hrule']
      exact hreply hrule hrule' hsame query

/-- A session with one grammar, in which `xs` is defined as `rule`. Before it other grammars were
made and dropped. -/
def withXs (dropped : Nat) (rule : Rule) : Session where
  store := ⟨(Array.replicate dropped none).push (some (xs rule))⟩
  handles := (∅ : Std.ExtTreeMap String GrammarId).insert "main" dropped
  held := ∅
where
  /-- The grammar. -/
  xs (rule : Rule) : Grammar := ⟨(∅ : Std.ExtTreeMap String (Option Rule)).insert "xs" (some rule)⟩

theorem plain_xs {rule : Rule} {id : GrammarId}
    (hrefs : ∀ target ∈ rule.refs, target = ⟨id, "xs"⟩) (hcareful : rule.Careful) :
    (withXs.xs rule).Plain id := by
  have hword : (Token.word "xs").IsPlain := ⟨by decide, List.all_eq_true.mp rfl⟩
  have hrule : ∀ {name rule'}, (withXs.xs rule).rule? name = some rule' →
      name = "xs" ∧ rule' = rule := by
    intro name rule' h
    simp only [Grammar.rule?, withXs.xs, Std.ExtTreeMap.getElem?_insert,
      Std.LawfulEqCmp.compare_eq_iff_eq, Std.ExtTreeMap.getElem?_empty] at h
    split at h
    · rename_i hname
      exact ⟨hname.symm, (Option.some.inj h).symm⟩
    · cases h
  constructor
  · intro name rule' h
    obtain ⟨rfl, -⟩ := hrule h
    exact hword
  · intro name rule' h target htarget
    obtain ⟨-, rfl⟩ := hrule h
    rw [hrefs target htarget]
    exact hword
  · intro name rule' h target htarget
    obtain ⟨-, rfl⟩ := hrule h
    rw [hrefs target htarget]
  · intro name rule' h
    obtain ⟨-, rfl⟩ := hrule h
    exact hcareful

/-- A definition `(('x') xs?)` whose outer parentheses are those of a pair and whose inner ones are
those of a choice, and the same with sequences. -/
theorem ask_line_eq_of_render_xs :
    let paired : Rule := .pair (.choice [.char 'x']) (.opt (.ref ⟨0, "xs"⟩))
    let listed : Rule := .seq [.seq [.char 'x'], .opt (.ref ⟨3, "xs"⟩)]
    (withXs.xs paired).render = (withXs.xs listed).render ∧
      ∀ query, ((withXs 0 paired).ask (.defined "main" "xs" query)).mapLog Event.line =
        ((withXs 3 listed).ask (.defined "main" "xs" query)).mapLog Event.line := by
  intro paired listed
  have hlocate : ∀ dropped rule, (withXs dropped rule).locate "main" = some dropped := by
    intro dropped rule
    exact Std.ExtTreeMap.getElem?_insert_self
  have hrender : (withXs.xs paired).render = (withXs.xs listed).render := by decide
  have hpaired : (withXs.xs paired).Plain 0 := by
    apply plain_xs
    · simp [paired, Rule.refs, Rule.refsAll]
    · simp [paired, Rule.Careful, Rule.Everywhere, Rule.EverywhereAll, Rule.IsCareful]
  have hlisted : (withXs.xs listed).Plain 3 := by
    apply plain_xs
    · simp [listed, Rule.refs, Rule.refsAll]
    · simp [listed, Rule.Careful, Rule.Everywhere, Rule.EverywhereAll, Rule.IsCareful]
  refine ⟨hrender, ?_⟩
  exact (ask_line_eq_of_render (hlocate 0 paired) rfl hpaired (hlocate 3 listed) rfl hlisted
    hrender).2.2.2 "xs"

/-- Without care the text does not tell what is matched: this is the text of two rules, of which one
matches where the other one fails. -/
example :
    let manyNot : Rule := .star (.not (.char 'x'))
    let notMany : Rule := .not (.star (.char 'x'))
    manyNot.render = notMany.render ∧
      Store.empty.matchAt manyNot #[] 0 ≠ Store.empty.matchAt notMany #[] 0 := by
  decide

end Session

end Peg
