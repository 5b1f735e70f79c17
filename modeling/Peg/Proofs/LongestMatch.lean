import Peg.Proofs.ContextFree
import Peg.Proofs.Lookahead
import Peg.Proofs.RepetitionLaws

/-!
# Greedy matches that are longest matches

A match is greedy and never gives anything back, so a rule may generate words that it does not
match. It is different where the next character tells how to go on. Say that a rule *takes* a word
if, wherever the text goes on with the word, the rule consumes at least that much; and it consumes
no more than that, unless the character after the word is one by which it may continue.

Composed rules take words if their parts do. A first part stops at the end of its word if what comes
after it begins with another character. It goes too far only where nothing of the word is left.
There the composed rule goes too far as well, and that is allowed, as long as the other parts match
wherever the first one has ended. A repetition does so. It takes one word after another if each of
them begins with a character that tells of another iteration.

A rule that takes all the words that it generates finds the longest of them.

## Main definitions

* `StartsOutside` — no character of a set comes next
* `Store.OpensWith` — the rule fails unless a character of a set comes next
* `Store.AlwaysMatches` — the rule matches everywhere
* `Store.Takes` — the rule consumes a word, and more only if a character of a set comes next
* `Rule.separated` — items, one or more, with a sign between each two of them
* `Outcome.IsLongestPrefix` — the outcome is the longest word with which a text begins

## Main results

* `Store.Takes.seq_cons`, `Store.Takes.seq_pair` — sequences take the words of their parts
* `Store.Takes.star` — a repetition takes any number of words
* `Store.takes_separated` — items with signs between them take what they generate
* `Store.isLongestPrefix_of_takes` — a rule that takes what it generates finds the longest word
-/

namespace Peg

open scoped Computability

/-- The text has ended, or its next character is not one of `more`. -/
def StartsOutside (more : Set Char) (chars : List Char) : Prop :=
  ∀ c ∈ chars.head?, c ∉ more

section StartsOutside

variable {more more' : Set Char} {word chars : List Char}

@[simp] theorem startsOutside_nil (more : Set Char) : StartsOutside more [] := nofun

@[simp] theorem startsOutside_cons {c : Char} :
    StartsOutside more (c :: chars) ↔ c ∉ more := by
  simp [StartsOutside]

@[simp] theorem startsOutside_empty (chars : List Char) : StartsOutside ∅ chars :=
  fun _ _ => Set.notMem_empty _

theorem StartsOutside.mono (h : StartsOutside more' chars) (hsub : more ⊆ more') :
    StartsOutside more chars :=
  fun c hc hmem => h c hc (hsub hmem)

theorem StartsOutside.append (h : StartsOutside more word) (hword : word ≠ []) :
    StartsOutside more (word ++ chars) := by
  cases word with
  | nil => exact absurd rfl hword
  | cons c rest => exact startsOutside_cons.mpr (startsOutside_cons.mp h)

end StartsOutside

open Run Verdict

namespace Store

variable {store : Store} {part rule rule' item : Rule} {rest : List Rule} {input : Array Char}
  {position : Nat} {more more' opening : Set Char} {word word' chars : List Char}

/-! ### Characters -/

/-- A character that matches consumes itself. -/
theorem eq_one_of_verdict?_char {c : Char} {n : Nat}
    (h : store.verdict? (.char c) input position = some (.consumed n)) : n = 1 := by
  rw [verdict?_char, Option.some.injEq] at h
  split at h
  · exact (Verdict.consumed.inj h).symm
  · cases h

theorem verdict?_choice_char (store : Store) (signs : List Char) (input : Array Char)
    (position : Nat) :
    store.verdict? (.choice (signs.map .char)) input position =
      some (if input[position]?.any (· ∈ signs) then .consumed 1 else .fail) := by
  induction signs with
  | nil => simp
  | cons sign signs ih =>
    rw [List.map_cons, verdict?_choice_cons, verdict?_char, ih, Option.bind_some]
    cases input[position]? with
    | none => simp
    | some c =>
      by_cases hsign : c = sign
      · simp [hsign]
      · simp [hsign]

theorem mem_language_choice_char {signs : List Char} :
    word ∈ store.language (.choice (signs.map .char)) ↔ ∃ c ∈ signs, word = [c] := by
  simp only [mem_language_choice, List.mem_map, exists_exists_and_eq_and, mem_language_char]

/-! ### Rules that open with certain characters -/

/-- The rule fails where the text goes on with none of the characters of `opening`. -/
def OpensWith (store : Store) (opening : Set Char) (rule : Rule) : Prop :=
  ∀ ⦃input : Array Char⦄ ⦃position : Nat⦄ ⦃chars : List Char⦄,
    remaining input position = some chars → StartsOutside opening chars →
      store.verdict? rule input position = some .fail

theorem opensWith_range (store : Store) (low high : Char) :
    store.OpensWith {c | low ≤ c ∧ c ≤ high} (.range low high) := by
  intro input position chars hleft houtside
  rw [verdict?_range, getElem?_of_remaining hleft, if_neg]
  intro hany
  obtain ⟨c, hc, hin⟩ := (Option.any_eq_true _ _).mp hany
  exact houtside c hc (of_decide_eq_true hin)

theorem opensWith_choice_char (store : Store) (signs : List Char) :
    store.OpensWith {c | c ∈ signs} (.choice (signs.map .char)) := by
  intro input position chars hleft houtside
  rw [verdict?_choice_char, getElem?_of_remaining hleft, if_neg]
  intro hany
  obtain ⟨c, hc, hin⟩ := (Option.any_eq_true _ _).mp hany
  exact houtside c hc (of_decide_eq_true hin)

namespace OpensWith

theorem ref {target : Ref} (h : store.OpensWith opening rule)
    (hres : store.resolve target = .ok rule) : store.OpensWith opening (.ref target) := by
  intro input position chars hleft houtside
  rw [verdict?_ref_of_ok hres]
  exact h hleft houtside

theorem seq (h : store.OpensWith opening part) :
    store.OpensWith opening (.seq (part :: rest)) := by
  intro input position chars hleft houtside
  rw [verdict?_seq_cons, h hleft houtside]
  rfl

theorem plus (h : store.OpensWith opening rule) : store.OpensWith opening (.plus rule) := by
  intro input position chars hleft houtside
  rw [verdict?_plus_eq_seq]
  exact h.seq hleft houtside

end OpensWith

/-! ### Rules that come to an end -/

theorem endsFrom_iff :
    store.EndsFrom rule input position ↔
      ∀ later, Reaches input position later → ∃ v, store.verdict? rule input later = some v := by
  constructor
  · exact fun h later hreaches => (h.later hreaches).exists_verdict?
  · intro h q hq hle
    have hreaches : Reaches input position q := by
      unfold Reaches
      omega
    obtain ⟨v, hv⟩ := h q hreaches
    obtain ⟨o, log, ho, -⟩ := exists_matchAt_of_verdict? hv
    rw [ho]
    exact ends_ne_endless o log

theorem endsFrom_char (store : Store) (c : Char) (input : Array Char) (position : Nat) :
    store.EndsFrom (.char c) input position :=
  endsFrom_iff.mpr fun later _ => ⟨_, store.verdict?_char c input later⟩

theorem endsFrom_range (store : Store) (low high : Char) (input : Array Char) (position : Nat) :
    store.EndsFrom (.range low high) input position :=
  endsFrom_iff.mpr fun later _ => ⟨_, store.verdict?_range low high input later⟩

theorem endsFrom_choice_char (store : Store) (signs : List Char) (input : Array Char)
    (position : Nat) : store.EndsFrom (.choice (signs.map .char)) input position :=
  endsFrom_iff.mpr fun later _ => ⟨_, store.verdict?_choice_char signs input later⟩

theorem endsFrom_choice (h : ∀ rule ∈ rest, store.EndsFrom rule input position) :
    store.EndsFrom (.choice rest) input position :=
  endsFrom_iff.mpr fun _ hreaches => exists_verdict?_choice fun rule hrule =>
    ((h rule hrule).later hreaches).exists_verdict?

namespace EndsFrom

theorem congr (h : store.EndsFrom rule input position)
    (heq : store.verdict? rule' = store.verdict? rule) : store.EndsFrom rule' input position := by
  rw [endsFrom_iff] at h ⊢
  rwa [heq]

theorem star (h : store.EndsFrom rule input position) :
    store.EndsFrom (.star rule) input position :=
  endsFrom_iff.mpr fun _ hreaches => (h.later hreaches).exists_verdict?_star

/-- The other parts are tried where the first one has ended. -/
theorem seq_cons_of_consumed (h : store.EndsFrom part input position)
    (hrest : ∀ q n, Reaches input position q → store.verdict? part input q = some (.consumed n) →
      ∃ v, store.verdict? (.seq rest) input (q + n) = some v) :
    store.EndsFrom (.seq (part :: rest)) input position := by
  rw [endsFrom_iff] at h ⊢
  intro q hreaches
  obtain ⟨v, hv⟩ := h q hreaches
  rw [verdict?_seq_cons, hv, Option.bind_some]
  cases v with
  | fail => exact ⟨.fail, rfl⟩
  | consumed n =>
    obtain ⟨w, hw⟩ := hrest q n hreaches hv
    exact ⟨w.after n, by rw [andThen_consumed, hw]; rfl⟩

theorem seq_pair (h : store.EndsFrom part input position)
    (hrule : store.EndsFrom rule input position) :
    store.EndsFrom (.seq [part, rule]) input position := by
  apply h.seq_cons_of_consumed
  intro q n hreaches hv
  rw [verdict?_seq_singleton]
  exact (hrule.later (hreaches.trans (reaches_of_verdict? hv))).exists_verdict?

theorem plus (h : store.EndsFrom rule input position) :
    store.EndsFrom (.plus rule) input position :=
  (h.seq_pair h.star).congr (store.verdict?_plus_eq_seq rule)

end EndsFrom

/-! ### Rules that match everywhere -/

/-- The rule matches at every position of every text. -/
def AlwaysMatches (store : Store) (rule : Rule) : Prop :=
  ∀ input position, ∃ n, store.verdict? rule input position = some (.consumed n)

theorem alwaysMatches_star (hends : ∀ input position, store.EndsFrom rule input position) :
    store.AlwaysMatches (.star rule) := by
  intro input position
  obtain ⟨v, hv⟩ := (hends input position).exists_verdict?_star
  cases v with
  | fail => exact absurd hv (neverFails_star store rule input position)
  | consumed n => exact ⟨n, hv⟩

/-! ### Rules that take a word -/

/-- Where the text goes on with the word, the rule consumes at least that much, and no more unless
the character after it is one of `more`. -/
def Takes (store : Store) (more : Set Char) (rule : Rule) (word : List Char) : Prop :=
  ∀ ⦃input : Array Char⦄ ⦃position : Nat⦄ ⦃chars : List Char⦄,
    remaining input position = some (word ++ chars) →
      ∃ n, store.verdict? rule input position = some (.consumed n) ∧ word.length ≤ n ∧
        (StartsOutside more chars → n = word.length)

/-- A rule that looks at one character takes it, and no more. -/
theorem takes_singleton {c : Char}
    (h : ∀ input position, input[position]? = some c →
      store.verdict? rule input position = some (.consumed 1)) : store.Takes ∅ rule [c] := by
  intro input position chars hleft
  exact ⟨1, h input position (getElem?_of_remaining hleft), Nat.le_refl 1, fun _ => rfl⟩

theorem takes_char (store : Store) (c : Char) : store.Takes ∅ (.char c) [c] :=
  takes_singleton fun input position hc => by rw [verdict?_char, if_pos hc]

theorem takes_range {low high c : Char} (hc : low ≤ c ∧ c ≤ high) :
    store.Takes ∅ (.range low high) [c] :=
  takes_singleton fun input position h => by
    rw [verdict?_range, h, Option.any_some, if_pos (decide_eq_true hc)]

theorem takes_choice_char {signs : List Char} {c : Char} (hc : c ∈ signs) :
    store.Takes ∅ (.choice (signs.map .char)) [c] :=
  takes_singleton fun input position h => by
    rw [verdict?_choice_char, h, Option.any_some, if_pos (decide_eq_true hc)]

/-- Each word opens with a character that does not continue a word before it. -/
theorem startsOutside_flatten {words : List (List Char)} (hdisjoint : ∀ c ∈ opening, c ∉ more)
    (hwords : ∀ word ∈ words, ∃ c rest, word = c :: rest ∧ c ∈ opening) :
    StartsOutside more words.flatten := by
  cases words with
  | nil => exact startsOutside_nil more
  | cons word words =>
    obtain ⟨c, rest, rfl, hc⟩ := hwords word List.mem_cons_self
    exact startsOutside_cons.mpr (hdisjoint c hc)

namespace Takes

theorem mono (h : store.Takes more rule word) (hsub : more ⊆ more') :
    store.Takes more' rule word := by
  intro input position chars hleft
  obtain ⟨n, hn, hle, hexact⟩ := h hleft
  exact ⟨n, hn, hle, fun houtside => hexact (houtside.mono hsub)⟩

theorem congr (h : store.Takes more rule word) (heq : store.verdict? rule' = store.verdict? rule) :
    store.Takes more rule' word := by
  intro input position chars hleft
  rw [heq]
  exact h hleft

theorem opt (h : store.Takes more rule word) : store.Takes more (.opt rule) word := by
  intro input position chars hleft
  obtain ⟨n, hn, hrest⟩ := h hleft
  exact ⟨n, by rw [verdict?_opt, hn]; rfl, hrest⟩

theorem choice_head (h : store.Takes more rule word) :
    store.Takes more (.choice (rule :: rest)) word := by
  intro input position chars hleft
  obtain ⟨n, hn, hrest⟩ := h hleft
  exact ⟨n, by rw [verdict?_choice_cons, hn]; rfl, hrest⟩

/-- Where the first alternative fails, the choice is among the others. -/
theorem choice_tail {c : Char} (hopens : store.OpensWith opening rule) (hc : c ∉ opening)
    (h : store.Takes more (.choice rest) (c :: word)) :
    store.Takes more (.choice (rule :: rest)) (c :: word) := by
  intro input position chars hleft
  obtain ⟨n, hn, hrest⟩ := h hleft
  have hfail := hopens hleft (startsOutside_cons.mpr hc)
  exact ⟨n, by rw [verdict?_choice_cons, hfail]; exact hn, hrest⟩

/-- If the first part stops where it should, the others go on from there. -/
theorem exists_verdict?_seq_cons (hpart : store.Takes more part word)
    (hrest : store.Takes more' (.seq rest) word')
    (hleft : remaining input position = some (word ++ (word' ++ chars)))
    (hstops : StartsOutside more (word' ++ chars)) :
    ∃ n, store.verdict? (.seq (part :: rest)) input position = some (.consumed n) ∧
      (word ++ word').length ≤ n ∧ (StartsOutside more' chars → n = (word ++ word').length) := by
  obtain ⟨n, hn, -, hexact⟩ := hpart hleft
  obtain rfl := hexact hstops
  obtain ⟨m, hm, hle, hexact'⟩ := hrest (remaining_add_length hleft)
  rw [List.length_append]
  refine ⟨word.length + m, ?_, by omega, fun houtside => by rw [hexact' houtside]⟩
  rw [verdict?_seq_cons, hn, Option.bind_some, andThen_consumed, hm]
  rfl

/-- The first part stops where it should, whatever comes after the word. -/
theorem seq_cons (hpart : store.Takes more part word) (hrest : store.Takes more' (.seq rest) word')
    (hstops : ∀ chars, StartsOutside more (word' ++ chars)) :
    store.Takes more' (.seq (part :: rest)) (word ++ word') := by
  intro input position chars hleft
  rw [List.append_assoc] at hleft
  exact hpart.exists_verdict?_seq_cons hrest hleft (hstops chars)

/-- The first part may go too far, if the second word is empty. The second part matches there
nevertheless. -/
theorem seq_pair (hpart : store.Takes more part word) (hrule : store.Takes more' rule word')
    (hsub : more ⊆ more') (halways : store.AlwaysMatches rule)
    (hstarts : StartsOutside more word') :
    store.Takes more' (.seq [part, rule]) (word ++ word') := by
  intro input position chars hleft
  rw [List.append_assoc] at hleft
  have hlast : store.Takes more' (.seq [rule]) word' :=
    hrule.congr (store.verdict?_seq_singleton rule)
  by_cases hstops : StartsOutside more (word' ++ chars)
  · exact hpart.exists_verdict?_seq_cons hlast hleft hstops
  · -- Here the first part may consume more than its word. Nothing is left of the second one.
    obtain rfl : word' = [] := by
      by_contra hword
      exact hstops (hstarts.append hword)
    obtain ⟨n, hn, hle, -⟩ := hpart hleft
    obtain ⟨m, hm⟩ := halways input (position + n)
    refine ⟨n + m, ?_, by rw [List.append_nil]; omega, ?_⟩
    · rw [verdict?_seq_cons, hn, Option.bind_some, andThen_consumed, verdict?_seq_singleton, hm]
      rfl
    · intro houtside
      exact absurd (houtside.mono hsub) hstops

/-- What holds of the operand and the repetition after it holds of `plus`. -/
theorem plus (hword : store.Takes more rule word) (hstar : store.Takes more' (.star rule) word')
    (hsub : more ⊆ more') (halways : store.AlwaysMatches (.star rule))
    (hstarts : StartsOutside more word') : store.Takes more' (.plus rule) (word ++ word') :=
  (hword.seq_pair hstar hsub halways hstarts).congr (store.verdict?_plus_eq_seq rule)

/-- A repetition takes word after word, if the next character tells that another iteration comes. By
induction on the words. -/
theorem star {words : List (List Char)} (hopens : store.OpensWith opening rule)
    (hdisjoint : ∀ c ∈ opening, c ∉ more) (halways : store.AlwaysMatches (.star rule))
    (hstarts : ∀ word ∈ words, ∃ c rest, word = c :: rest ∧ c ∈ opening)
    (hwords : ∀ word ∈ words, store.Takes more rule word) :
    store.Takes (opening ∪ more) (.star rule) words.flatten := by
  induction words with
  | nil =>
    intro input position chars hleft
    obtain ⟨n, hn⟩ := halways input position
    refine ⟨n, hn, Nat.zero_le n, ?_⟩
    intro houtside
    have hfail := hopens hleft (houtside.mono Set.subset_union_left)
    rw [verdict?_star, hfail, Option.bind_some, length_fail, if_pos rfl] at hn
    exact (Verdict.consumed.inj (Option.some.inj hn)).symm
  | cons word words ih =>
    obtain ⟨hword, hwords'⟩ := List.forall_mem_cons.mp hwords
    obtain ⟨-, hstarts'⟩ := List.forall_mem_cons.mp hstarts
    -- As there is another iteration, the repetition does what `plus` does.
    have hplus := hword.plus (ih hstarts' hwords') Set.subset_union_right halways
      (startsOutside_flatten hdisjoint hstarts')
    exact hplus.opt.congr (store.verdict?_opt_plus rule).symm

end Takes

/-- A repetition of a character of a range takes such characters as long as they come. -/
theorem takes_plus_range {low high : Char} (h : word ∈ store.language (.plus (.range low high))) :
    store.Takes {c | low ≤ c ∧ c ≤ high} (.plus (.range low high)) word := by
  rw [language_plus, language_star, Language.mem_mul] at h
  obtain ⟨first, hmem, others, hothers, rfl⟩ := h
  obtain ⟨c, hc, rfl⟩ := mem_language_range.mp hmem
  obtain ⟨words, rfl, hwords⟩ := Language.mem_kstar.mp hothers
  have halways := alwaysMatches_star (endsFrom_range store low high)
  have hstar : store.Takes {c | low ≤ c ∧ c ≤ high} (.star (.range low high)) words.flatten := by
    rw [← Set.union_empty {c | low ≤ c ∧ c ≤ high}]
    apply Takes.star (opensWith_range store low high) (fun _ _ => Set.notMem_empty _) halways
    · intro word hword
      obtain ⟨c, hc, rfl⟩ := mem_language_range.mp (hwords word hword)
      exact ⟨c, [], rfl, hc⟩
    · intro word hword
      obtain ⟨c, hc, rfl⟩ := mem_language_range.mp (hwords word hword)
      exact takes_range hc
  exact (takes_range hc).plus hstar (Set.empty_subset _) halways (startsOutside_empty _)

end Store

/-! ### Items with signs between them -/

/-- Items, one or more, with one of the signs between each two of them. -/
def Rule.separated (item : Rule) (signs : List Char) : Rule :=
  .seq [item, .star (.seq [.choice (signs.map .char), item])]

namespace Store

variable {store : Store} {rule item : Rule} {input : Array Char} {position : Nat} {more : Set Char}
  {word : List Char} {signs : List Char}

theorem endsFrom_separated (h : store.EndsFrom item input position) (signs : List Char) :
    store.EndsFrom (item.separated signs) input position := by
  have hsigned := (endsFrom_choice_char store signs input position).seq_pair h
  exact h.seq_pair hsigned.star

theorem language_separated (item : Rule) (signs : List Char) :
    store.language (item.separated signs) = store.language item *
      (store.language (.choice (signs.map .char)) * store.language item)∗ := by
  rw [Rule.separated, language_seq_cons, language_seq_singleton, language_star, language_seq_cons,
    language_seq_singleton]

/-- If the items take the words that they generate, so do the items with signs between them. -/
theorem takes_separated (hends : ∀ input position, store.EndsFrom item input position)
    (hsigns : ∀ c ∈ signs, c ∉ more) (h : word ∈ store.language (item.separated signs))
    (hitem : ∀ part ∈ store.language item, part.length ≤ word.length → store.Takes more item part) :
    store.Takes ({c | c ∈ signs} ∪ more) (item.separated signs) word := by
  rw [language_separated, Language.mem_mul] at h
  obtain ⟨first, hfirst, others, hothers, rfl⟩ := h
  obtain ⟨words, rfl, hwords⟩ := Language.mem_kstar.mp hothers
  have hsigned : ∀ word ∈ words, ∃ c ∈ signs, ∃ part ∈ store.language item, word = c :: part := by
    intro word hword
    obtain ⟨sign, hsign, part, hpart, rfl⟩ := Language.mem_mul.mp (hwords word hword)
    obtain ⟨c, hc, rfl⟩ := mem_language_choice_char.mp hsign
    exact ⟨c, hc, part, hpart, rfl⟩
  have hstarts : ∀ word ∈ words, ∃ c rest, word = c :: rest ∧ c ∈ {c | c ∈ signs} := by
    intro word hword
    obtain ⟨c, hc, part, -, rfl⟩ := hsigned word hword
    exact ⟨c, part, rfl, hc⟩
  have htakes : ∀ word ∈ words,
      store.Takes more (.seq [.choice (signs.map .char), item]) word := by
    intro word hword
    obtain ⟨c, hc, part, hpart, rfl⟩ := hsigned word hword
    -- The item is a part of the whole word, so it is not longer.
    have hlength : (c :: part).length ≤ words.flatten.length :=
      (List.sublist_flatten_of_mem hword).length_le
    have hle : part.length ≤ (first ++ words.flatten).length := by
      rw [List.length_cons] at hlength
      rw [List.length_append]
      omega
    have hlast := (hitem part hpart hle).congr (store.verdict?_seq_singleton item)
    exact (takes_choice_char hc).seq_cons hlast fun chars => startsOutside_empty _
  have halways := alwaysMatches_star fun input position =>
    (endsFrom_choice_char store signs input position).seq_pair (hends input position)
  have hstar := Takes.star (opensWith_choice_char store signs).seq hsigns halways hstarts htakes
  exact (hitem first hfirst (by simp)).seq_pair hstar Set.subset_union_right halways
    (startsOutside_flatten hsigns hstarts)

end Store

/-! ### The longest word -/

/-- What is to be expected of a match of a language at the start of a text: the longest of the words
of the language with which the text begins, or the failure if it begins with none of them. -/
structure Outcome.IsLongestPrefix (o : Outcome) (language : Language Char) (text : List Char) :
    Prop where
  /-- There is a match exactly if the text begins with a word of the language. -/
  matched_iff : o.matched = true ↔ ∃ word ∈ language, word <+: text
  /-- What is matched is such a word. -/
  content_mem : o.matched = true → o.content ∈ language ∧ o.content <+: text
  /-- The length is that of the word. -/
  length_eq : o.length = o.content.length
  /-- No other such word is longer. -/
  longest : ∀ word ∈ language, word <+: text → word.length ≤ o.length
  /-- Without a match the outcome is the failure. -/
  noMatch : o.matched = false → o = .noMatch

namespace Store

variable {store : Store} {rule : Rule} {more : Set Char}

/-- A rule that takes all the words that it generates finds the longest of them. -/
theorem isLongestPrefix_of_takes {text : List Char} {o : Outcome} {log : List Miss}
    (htakes : ∀ word ∈ store.language rule, store.Takes more rule word)
    (ho : store.matchAt rule text.toArray 0 = .ends o log) :
    o.IsLongestPrefix (store.language rule) text := by
  have hspan := (store.matchAt_spansAt rule text.toArray 0).of_ends ho
  have hcontent : o.content = text.take o.length := by simpa using hspan.content_eq
  have hmem : o.matched = true → o.content ∈ store.language rule ∧ o.content <+: text := by
    intro hm
    have hderived := derives_of_matchAt ho
    rw [Outcome.verdict_of_matched hm] at hderived
    have hgenerated : Generates store rule (text.take o.length) := by simpa using hderived.generates
    rw [hcontent]
    exact ⟨hgenerated, List.take_prefix _ _⟩
  -- Where the text begins with a word, the rule takes it.
  have hfound : ∀ word ∈ store.language rule, word <+: text →
      o.matched = true ∧ word.length ≤ o.length := by
    rintro word hword ⟨chars, rfl⟩
    obtain ⟨n, hn, hle, -⟩ := htakes word hword (remaining_of_le (Nat.zero_le _))
    rw [verdict?_of_matchAt ho, Option.some.injEq, Outcome.verdict_eq_consumed_iff] at hn
    exact ⟨hn.1, hn.2 ▸ hle⟩
  exact {
    matched_iff := ⟨fun hm => ⟨o.content, hmem hm⟩, fun ⟨word, hword, hstart⟩ =>
      (hfound word hword hstart).1⟩
    content_mem := hmem
    length_eq := hspan.length_content.symm
    longest := fun word hword hstart => (hfound word hword hstart).2
    noMatch := hspan.eq_noMatch }

end Store

end Peg
