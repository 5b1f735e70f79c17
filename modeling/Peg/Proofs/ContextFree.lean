import Mathlib.Computability.Language
import Peg.Proofs.Termination

/-!
# The context-free reading of rules

The same rules can be read as the productions of a context-free grammar. A choice may then be
settled in favour of any of its alternatives, a repetition may stop after any number of iterations,
and an option may be left out, whatever the text has in store. What can be generated in this way by
a rule is its *language*. Lookaheads have no place in such a grammar, and are taken as satisfied.

Whatever a match consumes is generated by its rule. The converse fails in general: a match commits
itself to the first alternative that matches and never gives back what a repetition has consumed.

## Main definitions

* `Generates` — the words that a rule generates
* `Store.language` — the language of a rule

## Main results

* `Store.language_seq_cons`, `Store.language_star`, ... — the languages of composed rules
* `Derives.generates` — whatever a match consumes is generated
-/

namespace Peg

open scoped Computability

/-- `Generates store rule word`: the rule generates the word, in the context-free reading. -/
inductive Generates (store : Store) : Rule → List Char → Prop
  | char (c : Char) : Generates store (.char c) [c]
  | range {low high c : Char} (hc : low ≤ c ∧ c ≤ high) : Generates store (.range low high) [c]
  | string (chars : List Char) : Generates store (.string chars) chars
  | seq_nil : Generates store (.seq []) []
  | seq_cons {part : Rule} {rest : List Rule} {word word' : List Char}
      (h : Generates store part word) (h' : Generates store (.seq rest) word') :
      Generates store (.seq (part :: rest)) (word ++ word')
  | pair {left right : Rule} {word word' : List Char} (h : Generates store left word)
      (h' : Generates store right word') : Generates store (.pair left right) (word ++ word')
  -- Any alternative will do, also one that comes after another that matches.
  | choice {alternatives : List Rule} {alternative : Rule} {word : List Char}
      (hmem : alternative ∈ alternatives) (h : Generates store alternative word) :
      Generates store (.choice alternatives) word
  | not (operand : Rule) : Generates store (.not operand) []
  -- A repetition may stop even if the operand would match once more.
  | star_nil (operand : Rule) : Generates store (.star operand) []
  | star_more {operand : Rule} {word word' : List Char} (h : Generates store operand word)
      (h' : Generates store (.star operand) word') : Generates store (.star operand) (word ++ word')
  | plus {operand : Rule} {word word' : List Char} (h : Generates store operand word)
      (h' : Generates store (.star operand) word') : Generates store (.plus operand) (word ++ word')
  | opt_nil (operand : Rule) : Generates store (.opt operand) []
  | opt {operand : Rule} {word : List Char} (h : Generates store operand word) :
      Generates store (.opt operand) word
  | ref {target : Ref} {rule : Rule} {word : List Char} (hres : store.resolve target = .ok rule)
      (h : Generates store rule word) : Generates store (.ref target) word

/-- The language of a rule. -/
def Store.language (store : Store) (rule : Rule) : Language Char :=
  {word | Generates store rule word}

variable {store : Store} {word : List Char}

/-! ### The languages of composed rules -/

namespace Store

theorem mem_language {rule : Rule} : word ∈ store.language rule ↔ Generates store rule word :=
  Iff.rfl

theorem mem_language_char {c : Char} : word ∈ store.language (.char c) ↔ word = [c] := by
  rw [mem_language]
  constructor
  · rintro ⟨⟩
    rfl
  · rintro rfl
    exact .char c

theorem mem_language_range {low high : Char} :
    word ∈ store.language (.range low high) ↔ ∃ c, (low ≤ c ∧ c ≤ high) ∧ word = [c] := by
  rw [mem_language]
  constructor
  · rintro ⟨⟩
    exact ⟨_, ‹_›, rfl⟩
  · rintro ⟨c, hc, rfl⟩
    exact .range hc

theorem language_seq_nil : store.language (.seq []) = 1 := by
  ext word
  rw [mem_language, Language.mem_one]
  constructor
  · intro h
    -- The list of parts has to be a variable to see by which clause a word is generated.
    generalize hparts : ([] : List Rule) = parts at h
    cases h with
    | seq_nil => rfl
    | seq_cons => cases hparts
  · rintro rfl
    exact .seq_nil

theorem language_seq_cons (part : Rule) (rest : List Rule) :
    store.language (.seq (part :: rest)) = store.language part * store.language (.seq rest) := by
  ext word
  rw [Language.mem_mul]
  constructor
  · intro h
    rw [mem_language] at h
    generalize hparts : part :: rest = parts at h
    cases h with
    | seq_nil => cases hparts
    | seq_cons h h' =>
      obtain ⟨rfl, rfl⟩ := List.cons.inj hparts
      exact ⟨_, h, _, h', rfl⟩
  · rintro ⟨word, h, word', h', rfl⟩
    exact .seq_cons h h'

theorem language_seq_singleton (part : Rule) :
    store.language (.seq [part]) = store.language part := by
  rw [language_seq_cons, language_seq_nil, mul_one]

theorem mem_language_choice {alternatives : List Rule} :
    word ∈ store.language (.choice alternatives) ↔
      ∃ alternative ∈ alternatives, word ∈ store.language alternative := by
  rw [mem_language]
  constructor
  · rintro ⟨⟩
    exact ⟨_, ‹_›, ‹_›⟩
  · rintro ⟨alternative, hmem, h⟩
    exact .choice hmem h

theorem language_star (operand : Rule) :
    store.language (.star operand) = (store.language operand)∗ := by
  ext word
  rw [Language.mem_kstar]
  constructor
  · intro h
    rw [mem_language] at h
    generalize hrule : Rule.star operand = rule at h
    induction h with
    | star_nil => exact ⟨[], rfl, fun _ hmem => absurd hmem List.not_mem_nil⟩
    | star_more h _ _ ih =>
      cases hrule
      obtain ⟨words, rfl, hwords⟩ := ih rfl
      exact ⟨_ :: words, rfl, List.forall_mem_cons.mpr ⟨h, hwords⟩⟩
    | _ => cases hrule
  · rintro ⟨words, rfl, hwords⟩
    induction words with
    | nil => exact .star_nil operand
    | cons word words ih =>
      obtain ⟨h, hrest⟩ := List.forall_mem_cons.mp hwords
      exact .star_more h (ih hrest)

theorem language_plus (operand : Rule) :
    store.language (.plus operand) =
      store.language operand * store.language (.star operand) := by
  ext word
  rw [Language.mem_mul]
  constructor
  · rintro ⟨⟩
    exact ⟨_, ‹_›, _, ‹_›, rfl⟩
  · rintro ⟨word, h, word', h', rfl⟩
    exact .plus h h'

theorem language_ref {target : Ref} {rule : Rule} (hres : store.resolve target = .ok rule) :
    store.language (.ref target) = store.language rule := by
  ext word
  constructor
  · intro h
    cases h with
    | ref hres' h =>
      obtain rfl := Except.ok.inj (hres.symm.trans hres')
      exact h
  · exact .ref hres

end Store

/-! ### Whatever a match consumes is generated -/

variable {input : Array Char} {position : Nat}

theorem Verdict.after_eq_consumed {n k : Nat} {v : Verdict} (h : v.after n = .consumed k) :
    ∃ m, v = .consumed m ∧ k = n + m := by
  cases v with
  | fail => cases h
  | consumed m => exact ⟨m, rfl, (Verdict.consumed.inj h).symm⟩

theorem take_drop_add (n m : Nat) :
    (input.toList.drop position).take (n + m) =
      (input.toList.drop position).take n ++ (input.toList.drop (position + n)).take m := by
  rw [List.take_add, List.drop_drop]

/-- What a repetition consumes after all is generated in at least one iteration, if the operand
matches where the repetition begins. -/
theorem generates_plus_of_star {operand : Rule} {n m : Nat} {l l' : List Miss}
    (h : Derives store input operand position (.consumed n) l)
    (h' : Derives store input (.star operand) position (.consumed m) l')
    (hoperand : Generates store operand ((input.toList.drop position).take n))
    (hstar : Generates store (.star operand) ((input.toList.drop position).take m)) :
    Generates store (.plus operand) ((input.toList.drop position).take m) := by
  by_cases hm : m = 0
  · -- The repetition stopped at its first attempt, and so it was a match of nothing.
    subst hm
    rcases h'.of_star_empty with hfail | hempty
    · cases (h.unique hfail).1
    · obtain rfl := Verdict.consumed.inj (h.unique hempty).1
      exact .plus hoperand (.star_nil operand)
  · rw [← Store.mem_language, Store.language_star, Language.mem_kstar] at hstar
    obtain ⟨words, hwords, hmem⟩ := hstar
    cases words with
    | nil =>
      -- The word is not empty, as something was consumed within the text.
      have hsize := h'.reaches.le_size_of_lt (by omega)
      have hlength := congrArg List.length hwords
      simp only [List.length_take, List.length_drop, Array.length_toList, List.flatten_nil,
        List.length_nil] at hlength
      omega
    | cons word words =>
      obtain ⟨hword, hrest⟩ := List.forall_mem_cons.mp hmem
      rw [hwords, List.flatten_cons]
      refine .plus hword ?_
      rw [← Store.mem_language, Store.language_star, Language.mem_kstar]
      exact ⟨words, rfl, hrest⟩

/-- Whatever a match consumes is generated by its rule. -/
theorem Derives.generates {rule : Rule} {n : Nat} {log : List Miss}
    (h : Derives store input rule position (.consumed n) log) :
    Generates store rule ((input.toList.drop position).take n) := by
  generalize hv : Verdict.consumed n = v at h
  induction h generalizing n with
  | char h =>
    obtain rfl := Verdict.consumed.inj hv
    rw [(remaining_eq_some_iff.mp h).2]
    exact .char _
  | range h hc =>
    obtain rfl := Verdict.consumed.inj hv
    rw [(remaining_eq_some_iff.mp h).2]
    exact .range hc
  | string h =>
    obtain rfl := Verdict.consumed.inj hv
    rw [(remaining_eq_some_iff.mp h).2, List.take_left]
    exact .string _
  | seq_nil =>
    obtain rfl := Verdict.consumed.inj hv
    exact .seq_nil
  | seq_cons _ _ ih ih' =>
    obtain ⟨m, rfl, rfl⟩ := Verdict.after_eq_consumed hv.symm
    rw [take_drop_add]
    exact .seq_cons (ih rfl) (ih' rfl)
  | pair _ _ ih ih' =>
    obtain ⟨m, rfl, rfl⟩ := Verdict.after_eq_consumed hv.symm
    rw [take_drop_add]
    exact .pair (ih rfl) (ih' rfl)
  | choice_head _ ih => exact .choice List.mem_cons_self (ih hv)
  | choice_tail _ _ _ ih' =>
    obtain ⟨alternative, hmem, hword⟩ := Store.mem_language_choice.mp (ih' hv)
    exact .choice (List.mem_cons_of_mem _ hmem) hword
  | not =>
    obtain rfl := Verdict.consumed.inj hv
    exact .not _
  -- Wherever a repetition stops, it may also stop in the context-free reading.
  | star_fail =>
    obtain rfl := Verdict.consumed.inj hv
    exact .star_nil _
  | star_empty =>
    obtain rfl := Verdict.consumed.inj hv
    exact .star_nil _
  | star_more _ _ _ ih ih' =>
    obtain rfl := Verdict.consumed.inj hv
    rw [take_drop_add]
    exact .star_more (ih rfl) (ih' rfl)
  | plus h h' ih ih' =>
    -- The first match of `plus` is made again within the repetition, which consumes it all.
    obtain rfl := Verdict.consumed.inj hv
    exact generates_plus_of_star h h' (ih rfl) (ih' rfl)
  | opt _ ih => exact .opt (ih hv)
  | opt_fail =>
    obtain rfl := Verdict.consumed.inj hv
    exact .opt_nil _
  | ref hres _ ih => exact .ref hres (ih hv)
  | _ => cases hv

end Peg
