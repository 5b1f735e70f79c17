import Peg.Rule.Render
import Peg.Proofs.Lexing
import Peg.Proofs.NormalForm
import Peg.Proofs.References

/-!
# Written forms can be read in one way only

Two rules have the same written form exactly if they have the same normal form, apart from the
grammars of their references, which are not written. This holds for all characters and strings, and
for names that are made of letters, digits and underscores.

A written form is a row of tokens, and the rule is found again from the tokens. They are read from
left to right by a machine that keeps what it has read of each sequence and choice that is not yet
at its end. A mark in front is kept until there is an operand. A mark behind an operand belongs to
it and not to the negation before it, so the machine arrives at the normal form.

## Main definitions

* `Rule.tokens`, `Rule.renderBy` — the tokens of a written form, and their text
* `Reading`, `Reading.step` — what the machine knows, and how it reads a token
* `Rule.PlainNames` — all names in the rule are made of letters, digits and underscores

## Main results

* `Rule.render_eq_renderBy` — the written form is the text of the tokens
* `Rule.readable_tokens` — its tokens can be told apart
* `Rule.foldl_step_tokens` — the machine reads the normal form
* `Rule.render_eq_iff` — written forms and normal forms
-/

namespace Peg

open Text

/-! ### The tokens of a written form -/

/-- The token of a mark after an operand. -/
def Suffix.token : Suffix → Token
  | .star => .star
  | .plus => .plus
  | .opt => .opt

namespace Rule

mutual

/-- The tokens of the written form of a rule. -/
def tokens : Rule → List Token
  | .char c => [.char c]
  | .range low high => [.range low high]
  | .string chars => [.string chars]
  | .seq parts => .left :: tokensJoined .gap parts ++ [.right]
  | .pair first second => .left :: tokens first ++ .gap :: tokens second ++ [.right]
  | .choice alternatives => .left :: tokensJoined .bar alternatives ++ [.right]
  | .not operand => .bang :: tokens operand
  | .star operand => tokens operand ++ [.star]
  | .plus operand => tokens operand ++ [.plus]
  | .opt operand => tokens operand ++ [.opt]
  | .ref target => [.word target.name]

/-- The tokens of several rules, with `separator` between two neighbours. -/
def tokensJoined (separator : Token) : List Rule → List Token
  | [] => []
  | rule :: rest => tokens rule ++ tokensRest separator rest

/-- The tokens of several rules, with `separator` before each. -/
def tokensRest (separator : Token) : List Rule → List Token
  | [] => []
  | rule :: rest => separator :: tokens rule ++ tokensRest separator rest

end

variable {rule : Rule} {rules : List Rule} {unprintable : Char → Bool}

theorem escaped_eq_escapedBy : escaped = escapedBy isUnprintable := rfl

theorem renderRest_eq_flatMap (separator : Token)
    (h : ∀ rule ∈ rules, rule.render = rule.tokens.flatMap (Token.text isUnprintable)) :
    renderRest (separator.text isUnprintable) rules =
      (tokensRest separator rules).flatMap (Token.text isUnprintable) := by
  induction rules with
  | nil => rfl
  | cons rule rest ih =>
    obtain ⟨hrule, hrest⟩ := List.forall_mem_cons.mp h
    rw [renderRest, tokensRest, hrule, ih hrest]
    simp

theorem renderJoined_eq_flatMap (separator : Token)
    (h : ∀ rule ∈ rules, rule.render = rule.tokens.flatMap (Token.text isUnprintable)) :
    renderJoined (separator.text isUnprintable) rules =
      (tokensJoined separator rules).flatMap (Token.text isUnprintable) := by
  cases rules with
  | nil => rfl
  | cons rule rest =>
    obtain ⟨hrule, hrest⟩ := List.forall_mem_cons.mp h
    rw [renderJoined, tokensJoined, hrule, renderRest_eq_flatMap separator hrest,
      List.flatMap_append]

/-- Two rules in a row have the tokens of the sequence of them. -/
theorem tokens_pair (left right : Rule) :
    (Rule.pair left right).tokens = (Rule.seq [left, right]).tokens := by
  simp [tokens, tokensJoined, tokensRest]

theorem tokens_on (suffix : Suffix) (operand : Rule) :
    (suffix.on operand).tokens = operand.tokens ++ [suffix.token] := by
  cases suffix <;> rfl

/-- The written form of a rule, if the characters that `unprintable` accepts have no glyph and are
written by their numbers in strings. -/
def renderBy (unprintable : Char → Bool) (rule : Rule) : List Char :=
  rule.tokens.flatMap (Token.text unprintable)

/-- The written form of a rule is the text of its tokens. -/
theorem render_eq_renderBy (rule : Rule) : rule.render = rule.renderBy isUnprintable := by
  unfold renderBy
  induction rule with
  | char c => simp [render, tokens, Token.text]
  | range low high => simp [render, tokens, Token.text]
  | string chars => simp [render, tokens, Token.text, quotedString, escaped_eq_escapedBy]
  | seq parts ih =>
    have hparts : renderJoined [' '] parts = _ := renderJoined_eq_flatMap .gap ih
    simp [render, tokens, Token.text, hparts]
  | pair left right ihl ihr => simp [render, tokens, Token.text, ihl, ihr]
  | choice alternatives ih =>
    have hparts : renderJoined [' ', '/', ' '] alternatives = _ := renderJoined_eq_flatMap .bar ih
    simp [render, tokens, Token.text, hparts]
  | not operand ih => simp [render, tokens, Token.text, ih]
  | star operand ih => simp [render, tokens, Token.text, ih]
  | plus operand ih => simp [render, tokens, Token.text, ih]
  | opt operand ih => simp [render, tokens, Token.text, ih]
  | ref target => simp [render, tokens, Token.text]

/-! ### The tokens can be told apart -/

/-- All names in the rule are made of letters, digits and underscores. -/
def PlainNames (rule : Rule) : Prop :=
  ∀ target ∈ rule.refs, target.name.toList ≠ [] ∧ ∀ c ∈ target.name.toList, isWordChar c = true

end Rule

/-- Rows of tokens that can be told apart can be put together with a mark between them. -/
theorem Token.Readable.append_cons {ts us : List Token} {mark : Token} (hts : Readable ts)
    (hus : Readable us) (hmark : ¬ mark.IsAtom) (hplain : mark.IsPlain) :
    Readable (ts ++ mark :: us) where
  plain := by
    intro t ht
    rcases List.mem_append.mp ht with ht | ht
    · exact hts.plain t ht
    · rcases List.mem_cons.mp ht with rfl | ht
      · exact hplain
      · exact hus.plain t ht
  apart := by
    -- A mark may stand next to every token, before and behind it.
    have hbehind : (mark :: us).IsChain fun t u => ¬ (t.IsAtom ∧ u.IsAtom) :=
      List.isChain_cons.mpr ⟨fun _ _ hatoms => hmark hatoms.1, hus.apart⟩
    apply List.isChain_append.mpr ⟨hts.apart, hbehind, ?_⟩
    rintro t - u hu hatoms
    obtain rfl := Option.some.inj hu
    exact hmark hatoms.2

theorem Token.readable_nil : Readable [] := ⟨nofun, .nil⟩

theorem Token.readable_singleton {t : Token} (h : t.IsPlain) : Readable [t] :=
  ⟨List.forall_mem_singleton.mpr h, .singleton t⟩

namespace Rule

variable {rule : Rule} {rules : List Rule}

theorem readable_tokensRest {separator : Token} {ts : List Token} (hts : Token.Readable ts)
    (hmark : ¬ separator.IsAtom) (hplain : separator.IsPlain)
    (h : ∀ rule ∈ rules, Token.Readable rule.tokens) :
    Token.Readable (ts ++ tokensRest separator rules) := by
  induction rules generalizing ts with
  | nil => rwa [tokensRest, List.append_nil]
  | cons rule rest ih =>
    obtain ⟨hrule, hrest⟩ := List.forall_mem_cons.mp h
    have hboth := ih (hts.append_cons hrule hmark hplain) hrest
    rwa [List.append_assoc] at hboth

/-- The tokens of a sequence or a choice can be told apart if those of its parts can. -/
theorem readable_enclosed {separator : Token} (hmark : ¬ separator.IsAtom)
    (hplain : separator.IsPlain) (h : ∀ rule ∈ rules, Token.Readable rule.tokens) :
    Token.Readable (.left :: tokensJoined separator rules ++ [.right]) := by
  have hjoined : Token.Readable (tokensJoined separator rules) := by
    cases rules with
    | nil => exact Token.readable_nil
    | cons rule rest =>
      obtain ⟨hrule, hrest⟩ := List.forall_mem_cons.mp h
      exact readable_tokensRest hrule hmark hplain hrest
  have hclosed : Token.Readable (tokensJoined separator rules ++ [.right]) :=
    hjoined.append_cons Token.readable_nil not_false trivial
  exact Token.readable_nil.append_cons hclosed not_false trivial

theorem PlainNames.of_mem (h : ∀ target ∈ refsAll rules, (Token.word target.name).IsPlain)
    (hmem : rule ∈ rules) : rule.PlainNames :=
  fun target htarget => h target (mem_refsAll.mpr ⟨rule, hmem, htarget⟩)

/-- The tokens of a rule can be told apart. -/
theorem readable_tokens (h : rule.PlainNames) : Token.Readable rule.tokens := by
  induction rule with
  | char c => exact Token.readable_singleton trivial
  | range low high => exact Token.readable_singleton trivial
  | string chars => exact Token.readable_singleton trivial
  | seq parts ih =>
    exact readable_enclosed not_false trivial fun part hpart =>
      ih part hpart (PlainNames.of_mem h hpart)
  | pair left right ihl ihr =>
    have hleft := ihl fun target htarget => h target (List.mem_append_left _ htarget)
    have hright := ihr fun target htarget => h target (List.mem_append_right _ htarget)
    have hparts : ∀ rule ∈ [left, right], Token.Readable rule.tokens :=
      List.forall_mem_cons.mpr ⟨hleft, List.forall_mem_singleton.mpr hright⟩
    rw [tokens_pair]
    exact readable_enclosed not_false trivial hparts
  | choice alternatives ih =>
    exact readable_enclosed not_false trivial fun alternative halternative =>
      ih alternative halternative (PlainNames.of_mem h halternative)
  | not operand ih => exact Token.readable_nil.append_cons (ih h) not_false trivial
  | star operand ih => exact (ih h).append_cons Token.readable_nil not_false trivial
  | plus operand ih => exact (ih h).append_cons Token.readable_nil not_false trivial
  | opt operand ih => exact (ih h).append_cons Token.readable_nil not_false trivial
  | ref target => exact Token.readable_singleton (h target List.mem_cons_self)

end Rule

/-! ### Reading the tokens -/

/-- What has been read of a sequence or of a choice. -/
structure Layer where
  /-- How many negations wait for an operand. -/
  nots : Nat
  /-- What was read, the last part first. -/
  parts : List Rule
  /-- A mark of a choice was read. -/
  isChoice : Bool

namespace Layer

/-- Nothing has been read yet. -/
def start : Layer := ⟨0, [], false⟩

/-- The rule with a number of negations before it. -/
def negate : Nat → Rule → Rule
  | 0, rule => rule
  | n + 1, rule => negate n (.not rule)

/-- An operand was read, to which the negations belong that wait for one. -/
def push (layer : Layer) (rule : Rule) : Layer :=
  ⟨0, negate layer.nots rule :: layer.parts, layer.isChoice⟩

/-- A mark was read that belongs to the last operand. -/
def mark (layer : Layer) (suffix : Suffix) : Layer :=
  match layer.parts with
  | [] => layer
  | last :: others => ⟨layer.nots, last.hoist suffix :: others, layer.isChoice⟩

theorem hoist_negate (suffix : Suffix) (n : Nat) (rule : Rule) :
    (negate n rule).hoist suffix = negate n (rule.hoist suffix) := by
  induction n generalizing rule with
  | zero => rfl
  | succ n ih => exact ih (.not rule)

theorem mark_push (layer : Layer) (suffix : Suffix) (rule : Rule) :
    (layer.push rule).mark suffix = layer.push (rule.hoist suffix) := by
  have hlast := hoist_negate suffix layer.nots rule
  simp only [push, mark, hlast]

/-- The sequence or the choice that has been read. -/
def close (layer : Layer) : Rule :=
  if layer.isChoice then .choice layer.parts.reverse else .seq layer.parts.reverse

end Layer

/-- What has been read of the sequences and choices that have not come to an end. -/
structure Reading where
  /-- The innermost one. -/
  inner : Layer
  /-- Those around it, from the inside to the outside. -/
  outer : List Layer

namespace Reading

/-- Read a token. -/
def step (reading : Reading) : Token → Reading
  | .bang => ⟨{ reading.inner with nots := reading.inner.nots + 1 }, reading.outer⟩
  | .left => ⟨.start, reading.inner :: reading.outer⟩
  | .right =>
    match reading.outer with
    | [] => reading
    | layer :: outer => ⟨layer.push reading.inner.close, outer⟩
  | .gap => reading
  | .bar => ⟨{ reading.inner with isChoice := true }, reading.outer⟩
  | .star => ⟨reading.inner.mark .star, reading.outer⟩
  | .plus => ⟨reading.inner.mark .plus, reading.outer⟩
  | .opt => ⟨reading.inner.mark .opt, reading.outer⟩
  | .char c => ⟨reading.inner.push (.char c), reading.outer⟩
  | .range low high => ⟨reading.inner.push (.range low high), reading.outer⟩
  | .string chars => ⟨reading.inner.push (.string chars), reading.outer⟩
  | .word name => ⟨reading.inner.push (.ref ⟨0, name⟩), reading.outer⟩

end Reading

namespace Rule

variable {rule rule₁ rule₂ : Rule} {rules : List Rule}

/-- The normal form, in which references are told by their names only. -/
def normByName (rule : Rule) : Rule := rule.norm.within 0

theorem within_hoist (suffix : Suffix) (rule : Rule) :
    (rule.hoist suffix).within 0 = (rule.within 0).hoist suffix := by
  induction rule with
  | not operand ih => exact congrArg Rule.not ih
  | _ => cases suffix <;> rfl

/-- The sequence of rules, or the choice between them if the marks are those of a choice and there
is at least one of them. -/
def enclose (isBar : Bool) (rules : List Rule) : Rule :=
  if isBar && 2 ≤ rules.length then .choice rules else .seq rules

theorem normByName_seq (parts : List Rule) :
    (Rule.seq parts).normByName = enclose false (parts.map normByName) := by
  rw [normByName, norm, within, subst, substAll_eq_map, normAll_eq_map, List.map_map]
  rfl

theorem normByName_choice (alternatives : List Rule) :
    (Rule.choice alternatives).normByName = enclose true (alternatives.map normByName) := by
  match alternatives with
  | [] => rfl
  | [_] => rfl
  | first :: second :: rest =>
    have hgroup : (Rule.choice (first :: second :: rest)).norm =
        .choice (normAll (first :: second :: rest)) := rfl
    have henclose : ∀ first second rest, enclose true (first :: second :: rest) =
        .choice (first :: second :: rest) := by simp [enclose]
    rw [normByName, hgroup, within, subst, substAll_eq_map, normAll_eq_map, List.map_map]
    exact (henclose _ _ _).symm

theorem normByName_on (suffix : Suffix) (operand : Rule) :
    (suffix.on operand).normByName = operand.normByName.hoist suffix := by
  cases suffix <;> exact within_hoist _ _

section Enclosed

variable {separator : Token} {isBar : Bool} {outer : List Layer}
  (hseparator : ∀ parts isChoice outer, Reading.step ⟨⟨0, parts, isChoice⟩, outer⟩ separator =
    ⟨⟨0, parts, isChoice || isBar⟩, outer⟩)
  (h : ∀ rule ∈ rules, ∀ layer outer,
    rule.tokens.foldl Reading.step ⟨layer, outer⟩ = ⟨layer.push rule.normByName, outer⟩)
include hseparator h

theorem foldl_step_tokensRest (parts : List Rule) (isChoice : Bool) :
    (tokensRest separator rules).foldl Reading.step ⟨⟨0, parts, isChoice⟩, outer⟩ =
      ⟨⟨0, (rules.map normByName).reverse ++ parts, isChoice || (isBar && !rules.isEmpty)⟩,
        outer⟩ := by
  induction rules generalizing parts isChoice with
  | nil => simp [tokensRest]
  | cons rule rest ih =>
    obtain ⟨hrule, hrest⟩ := List.forall_mem_cons.mp h
    -- No negation waits after a separator, so the rule is read as it stands.
    rw [tokensRest, List.cons_append, List.foldl_cons, hseparator, List.foldl_append, hrule,
      Layer.push, ih hrest]
    cases isBar <;> simp [Layer.negate]

/-- A sequence or a choice is read as an operand. -/
theorem foldl_step_enclosed (layer : Layer) :
    (Token.left :: tokensJoined separator rules ++ [Token.right]).foldl Reading.step
        ⟨layer, outer⟩ =
      ⟨layer.push (enclose isBar (rules.map normByName)), outer⟩ := by
  have hjoined : (tokensJoined separator rules).foldl Reading.step ⟨.start, layer :: outer⟩ =
      ⟨⟨0, (rules.map normByName).reverse, isBar && 2 ≤ rules.length⟩, layer :: outer⟩ := by
    cases rules with
    | nil => simp [tokensJoined, Layer.start]
    | cons rule rest =>
      obtain ⟨hrule, hrest⟩ := List.forall_mem_cons.mp h
      rw [tokensJoined, List.foldl_append, hrule, Layer.push,
        foldl_step_tokensRest hseparator hrest]
      cases rest <;> simp [Layer.start, Layer.negate]
  have hleft : Reading.step ⟨layer, outer⟩ .left = ⟨.start, layer :: outer⟩ := rfl
  rw [List.cons_append, List.foldl_cons, hleft, List.foldl_append, hjoined, List.foldl_cons,
    List.foldl_nil, Reading.step, Layer.close, enclose, List.reverse_reverse, List.length_map]

end Enclosed

theorem foldl_step_seq {parts : List Rule}
    (h : ∀ part ∈ parts, ∀ layer outer,
      part.tokens.foldl Reading.step ⟨layer, outer⟩ = ⟨layer.push part.normByName, outer⟩)
    (layer : Layer) (outer : List Layer) :
    (Rule.seq parts).tokens.foldl Reading.step ⟨layer, outer⟩ =
      ⟨layer.push (Rule.seq parts).normByName, outer⟩ := by
  rw [normByName_seq]
  refine foldl_step_enclosed ?_ h layer
  intro parts isChoice outer
  rw [Bool.or_false]
  rfl

theorem foldl_step_on (suffix : Suffix) {operand : Rule}
    (h : ∀ layer outer,
      operand.tokens.foldl Reading.step ⟨layer, outer⟩ = ⟨layer.push operand.normByName, outer⟩)
    (layer : Layer) (outer : List Layer) :
    (suffix.on operand).tokens.foldl Reading.step ⟨layer, outer⟩ =
      ⟨layer.push (suffix.on operand).normByName, outer⟩ := by
  have hmark : ∀ layer, Reading.step ⟨layer, outer⟩ suffix.token = ⟨layer.mark suffix, outer⟩ := by
    intro layer
    cases suffix <;> rfl
  rw [tokens_on, List.foldl_append, h, List.foldl_cons, hmark, Layer.mark_push, normByName_on,
    List.foldl_nil]

/-- The machine reads the tokens of a rule as one operand, which is the normal form of the rule. -/
theorem foldl_step_tokens (rule : Rule) (layer : Layer) (outer : List Layer) :
    rule.tokens.foldl Reading.step ⟨layer, outer⟩ = ⟨layer.push rule.normByName, outer⟩ := by
  induction rule generalizing layer outer with
  | char c => rfl
  | range low high => rfl
  | string chars => rfl
  | seq parts ih => exact foldl_step_seq ih layer outer
  | pair left right ihl ihr =>
    rw [tokens_pair]
    refine foldl_step_seq ?_ layer outer
    exact List.forall_mem_cons.mpr ⟨ihl, List.forall_mem_singleton.mpr ihr⟩
  | choice alternatives ih =>
    rw [normByName_choice]
    refine foldl_step_enclosed ?_ ih layer
    intro parts isChoice outer
    rw [Bool.or_true]
    rfl
  | not operand ih =>
    -- The operand is read with one more negation that waits for it.
    rw [tokens, List.foldl_cons]
    exact ih _ _
  | star operand ih => exact foldl_step_on .star ih layer outer
  | plus operand ih => exact foldl_step_on .plus ih layer outer
  | opt operand ih => exact foldl_step_on .opt ih layer outer
  | ref target => rfl

/-! ### Written forms and normal forms -/

/-- Rules with the same tokens have the same normal form. -/
theorem normByName_eq_of_tokens (h : rule₁.tokens = rule₂.tokens) :
    rule₁.normByName = rule₂.normByName := by
  have hread := rule₁.foldl_step_tokens .start []
  rw [h, rule₂.foldl_step_tokens, Reading.mk.injEq] at hread
  obtain ⟨hpush, -⟩ := hread
  exact (List.cons.inj (congrArg Layer.parts hpush)).1.symm

theorem tokensRest_map {separator : Token} {f : Rule → Rule}
    (h : ∀ rule ∈ rules, (f rule).tokens = rule.tokens) :
    tokensRest separator (rules.map f) = tokensRest separator rules := by
  induction rules with
  | nil => rfl
  | cons rule rest ih =>
    obtain ⟨hrule, hrest⟩ := List.forall_mem_cons.mp h
    rw [List.map_cons, tokensRest, tokensRest, hrule, ih hrest]

theorem tokensJoined_map {separator : Token} {f : Rule → Rule}
    (h : ∀ rule ∈ rules, (f rule).tokens = rule.tokens) :
    tokensJoined separator (rules.map f) = tokensJoined separator rules := by
  cases rules with
  | nil => rfl
  | cons rule rest =>
    obtain ⟨hrule, hrest⟩ := List.forall_mem_cons.mp h
    rw [List.map_cons, tokensJoined, tokensJoined, hrule, tokensRest_map hrest]

/-- With less than two parts there is no separator, so the separator does not matter. -/
theorem tokens_enclose_true (rules : List Rule) :
    (enclose true rules).tokens = (Rule.choice rules).tokens := by
  match rules with
  | [] => rfl
  | [_] => rfl
  | _ :: _ :: _ => simp [enclose]

theorem tokens_hoist (suffix : Suffix) (rule : Rule) :
    (rule.hoist suffix).tokens = rule.tokens ++ [suffix.token] := by
  induction rule with
  | not operand ih => exact congrArg (Token.bang :: ·) ih
  | _ => cases suffix <;> rfl

/-- The normal form has the same tokens. -/
theorem tokens_normByName (rule : Rule) : rule.normByName.tokens = rule.tokens := by
  have hsuffix : ∀ (suffix : Suffix) {operand : Rule}, operand.normByName.tokens = operand.tokens →
      (suffix.on operand).normByName.tokens = (suffix.on operand).tokens := by
    intro suffix operand h
    rw [normByName_on, tokens_hoist, h, tokens_on]
  induction rule with
  | char c => rfl
  | range low high => rfl
  | string chars => rfl
  | seq parts ih =>
    have henclose : ∀ rules, enclose false rules = .seq rules := fun _ => rfl
    rw [normByName_seq, henclose, tokens, tokensJoined_map ih, tokens]
  | pair left right ihl ihr =>
    calc (Rule.pair left right).normByName.tokens
      _ = (Rule.pair left.normByName right.normByName).tokens := (tokens_pair _ _).symm
      _ = (Rule.pair left right).tokens := by rw [tokens, ihl, ihr, tokens]
  | choice alternatives ih =>
    rw [normByName_choice, tokens_enclose_true, tokens, tokensJoined_map ih, tokens]
  | not operand ih => exact congrArg (Token.bang :: ·) ih
  | star operand ih => exact hsuffix .star ih
  | plus operand ih => exact hsuffix .plus ih
  | opt operand ih => exact hsuffix .opt ih
  | ref target => rfl

/-- Rules that are written alike have the same normal form. -/
theorem normByName_eq_of_render (h₁ : rule₁.PlainNames) (h₂ : rule₂.PlainNames)
    (h : rule₁.render = rule₂.render) : rule₁.normByName = rule₂.normByName := by
  rw [render_eq_renderBy, render_eq_renderBy] at h
  exact normByName_eq_of_tokens (Token.eq_of_flatMap_text_eq (readable_tokens h₁)
    (readable_tokens h₂) h)

/-- Rules with the same normal form are written alike. -/
theorem render_eq_of_normByName (h : rule₁.normByName = rule₂.normByName) :
    rule₁.render = rule₂.render := by
  rw [render_eq_renderBy, render_eq_renderBy, renderBy, renderBy, ← tokens_normByName rule₁, h,
    tokens_normByName]

/-- Two rules are written alike exactly if they have the same normal form, apart from the grammars
of their references. This does not depend on which characters are written by their numbers. The
normal form is what is left of a rule when it is rewritten until nothing in it can be rewritten. -/
theorem render_eq_iff (h₁ : rule₁.PlainNames) (h₂ : rule₂.PlainNames) :
    (rule₁.render = rule₂.render ↔ rule₁.norm.within 0 = rule₂.norm.within 0) ∧
    (∀ unprintable, rule₁.renderBy unprintable = rule₂.renderBy unprintable ↔
      rule₁.norm.within 0 = rule₂.norm.within 0) ∧
    ∀ rule result : Rule, Relation.ReflTransGen Rewrites rule result ∧ Final result ↔
      result = rule.norm := by
  have hread : ∀ unprintable, rule₁.renderBy unprintable = rule₂.renderBy unprintable ↔
      rule₁.normByName = rule₂.normByName := by
    intro unprintable
    constructor
    · intro h
      apply normByName_eq_of_tokens
      exact Token.eq_of_flatMap_text_eq (readable_tokens h₁) (readable_tokens h₂) h
    · intro h
      rw [renderBy, ← tokens_normByName rule₁, h, tokens_normByName rule₂, renderBy]
  refine ⟨?_, hread, fun _ _ => eq_norm_iff⟩
  rw [render_eq_renderBy, render_eq_renderBy]
  exact hread isUnprintable

/-- Many times not what `rule` matches, with a name after it. -/
def manyNot (rule : Rule) : Rule := .star (.not (.pair rule (.ref ⟨0, "name_1"⟩)))

/-- Not many times what `rule` matches, with a name of another grammar after it. -/
def notMany (rule : Rule) : Rule := .not (.star (.seq [rule, .ref ⟨1, "name_1"⟩]))

/-- Both are written as `!('x' name_1)*` with the same character, and a backslash and an apostrophe
are told apart. -/
theorem render_eq_iff_backslash :
    (manyNot (.char '\\')).render = (notMany (.char '\\')).render ∧
    (manyNot (.char '\\')).render ≠ (notMany (.char '\x27')).render := by
  have hplain : (Token.word "name_1").IsPlain := ⟨by decide, List.all_eq_true.mp rfl⟩
  have hmany : (manyNot (.char '\\')).PlainNames := by
    intro target htarget
    obtain rfl := List.mem_singleton.mp htarget
    exact hplain
  have hnot : ∀ c, (notMany (.char c)).PlainNames := by
    intro c target htarget
    obtain rfl := List.mem_singleton.mp htarget
    exact hplain
  refine ⟨(render_eq_iff hmany (hnot _)).1.mpr rfl, ?_⟩
  rw [Ne, (render_eq_iff hmany (hnot _)).1]
  intro h
  simp [manyNot, notMany, norm, normAll, hoist, Suffix.on, within, subst, substAll] at h

end Rule

end Peg
