import Peg.Proofs.LongestMatch
import Peg.Proofs.Resolution

/-!
# The grammar of arithmetic

Sums of products of numbers and of sums in parentheses are the usual example of a grammar whose
rules refer to each other. Its rules recognise their context-free language: a match of a text finds
the longest sum with which the text begins.

A match never tries another way, but here it has no need to. A number begins with a digit and
another factor with a parenthesis, so the choice of the first alternative that matches is the right
one. Repetitions may consume more than they should only if the next character is a sign or a digit,
and within parentheses the next character is the closing one. That all sums are found is shown by
induction on their length, as the sums in the parentheses of a sum are shorter than it.

## Main definitions

* `Arithmetic.expr`, `Arithmetic.term`, `Arithmetic.factor`, `Arithmetic.number` — the rules
* `Store.HasArithmetic` — a grammar has these rules
* `Session.arithmetic` — the edits that define them

## Main results

* `Store.HasArithmetic.endsFrom_expr` — every match of a sum comes to an end
* `Store.HasArithmetic.takes_expr` — a match of a sum consumes at least any sum that is there
* `Session.ask_arithmetic` — a match of a text is its longest prefix that is a sum
-/

namespace Peg

namespace Arithmetic

/-- `number <- '0'..'9'+` -/
def number : Rule := .plus (.range '0' '9')

variable (id : GrammarId)

/-- `factor <- number / '(' expr ')'` -/
def factor : Rule :=
  .choice [.ref ⟨id, "number"⟩, .seq [.char '(', .ref ⟨id, "expr"⟩, .char ')']]

/-- `term <- factor (('*' / '/') factor)*` -/
def term : Rule := (Rule.ref ⟨id, "factor"⟩).separated ['*', '/']

/-- `expr <- term (('+' / '-') term)*` -/
def expr : Rule := (Rule.ref ⟨id, "term"⟩).separated ['+', '-']

/-- The characters of numbers. -/
def digits : Set Char := {c | '0' ≤ c ∧ c ≤ '9'}

/-- The characters by which a product may go on. -/
def inTerm : Set Char := {c | c ∈ ['*', '/']} ∪ digits

/-- The characters by which a sum may go on. -/
def inExpr : Set Char := {c | c ∈ ['+', '-']} ∪ inTerm

theorem sign_notMem_digits : ∀ c ∈ ['*', '/'], c ∉ digits := by
  simp only [List.forall_mem_cons, digits, Set.mem_ofPred_eq]
  exact ⟨by decide, by decide, nofun⟩

theorem sign_notMem_inTerm : ∀ c ∈ ['+', '-'], c ∉ inTerm := by
  simp only [List.forall_mem_cons, inTerm, digits, Set.mem_union, Set.mem_ofPred_eq]
  exact ⟨by decide, by decide, nofun⟩

theorem open_notMem_digits : '(' ∉ digits := by
  simp only [digits, Set.mem_ofPred_eq]
  decide

theorem close_notMem_inExpr : ')' ∉ inExpr := by
  simp only [inExpr, inTerm, digits, Set.mem_union, Set.mem_ofPred_eq]
  decide

end Arithmetic

open Arithmetic

namespace Store

/-- The grammar has the rules of arithmetic. -/
structure HasArithmetic (store : Store) (id : GrammarId) : Prop where
  expr : store.resolve ⟨id, "expr"⟩ = .ok (expr id)
  term : store.resolve ⟨id, "term"⟩ = .ok (term id)
  factor : store.resolve ⟨id, "factor"⟩ = .ok (factor id)
  number : store.resolve ⟨id, "number"⟩ = .ok number

namespace HasArithmetic

variable {store : Store} {id : GrammarId} {input : Array Char} {position : Nat} {word : List Char}

/-! ### Every match comes to an end -/

theorem endsFrom_number (h : store.HasArithmetic id) (input : Array Char) (position : Nat) :
    store.EndsFrom (.ref ⟨id, "number"⟩) input position :=
  (endsFrom_range store '0' '9' input position).plus.congr (verdict?_ref_of_ok h.number)

/-- The sum in parentheses is tried after the opening one. -/
theorem endsFrom_factor (h : store.HasArithmetic id)
    (hlater : ∀ later, Peg.Reaches input position later → position < later →
      store.EndsFrom (.ref ⟨id, "expr"⟩) input later) :
    store.EndsFrom (.ref ⟨id, "factor"⟩) input position := by
  have hnumber := h.endsFrom_number input position
  have hparentheses :
      store.EndsFrom (.seq [.char '(', .ref ⟨id, "expr"⟩, .char ')']) input position := by
    apply (endsFrom_char store '(' input position).seq_cons_of_consumed
    intro q n hreaches hv
    obtain rfl := eq_one_of_verdict?_char hv
    have hreaches' := hreaches.trans (reaches_of_verdict? hv)
    have hexpr := hlater (q + 1) hreaches' (Nat.lt_succ_of_le hreaches.le)
    exact (hexpr.seq_pair (endsFrom_char store ')' input (q + 1))).exists_verdict?
  refine EndsFrom.congr (endsFrom_choice ?_) (verdict?_ref_of_ok h.factor)
  simp [hnumber, hparentheses]

theorem endsFrom_term (h : store.HasArithmetic id)
    (hfactor : store.EndsFrom (.ref ⟨id, "factor"⟩) input position) :
    store.EndsFrom (.ref ⟨id, "term"⟩) input position :=
  (endsFrom_separated hfactor ['*', '/']).congr (verdict?_ref_of_ok h.term)

/-- By induction on what is left of the text, which is less after a parenthesis. -/
theorem endsFrom_expr (h : store.HasArithmetic id) (input : Array Char) (position : Nat) :
    store.EndsFrom (.ref ⟨id, "expr"⟩) input position := by
  induction position using Reaches.induction input with
  | step position ih =>
    have hterm := h.endsFrom_term (h.endsFrom_factor ih)
    exact (endsFrom_separated hterm ['+', '-']).congr (verdict?_ref_of_ok h.expr)

/-! ### Every word is taken -/

theorem takes_number (h : store.HasArithmetic id)
    (hword : word ∈ store.language (.ref ⟨id, "number"⟩)) :
    store.Takes digits (.ref ⟨id, "number"⟩) word := by
  rw [language_ref h.number] at hword
  exact (takes_plus_range hword).congr (verdict?_ref_of_ok h.number)

theorem opensWith_number (h : store.HasArithmetic id) :
    store.OpensWith digits (.ref ⟨id, "number"⟩) :=
  (opensWith_range store '0' '9').plus.ref h.number

/-- A sum in parentheses ends where it should, as a closing parenthesis comes next. -/
theorem takes_factor (h : store.HasArithmetic id)
    (hexpr : ∀ part ∈ store.language (.ref ⟨id, "expr"⟩), part.length < word.length →
      store.Takes inExpr (.ref ⟨id, "expr"⟩) part)
    (hword : word ∈ store.language (.ref ⟨id, "factor"⟩)) :
    store.Takes digits (.ref ⟨id, "factor"⟩) word := by
  rw [language_ref h.factor, Arithmetic.factor, mem_language_choice] at hword
  refine Takes.congr ?_ (verdict?_ref_of_ok h.factor)
  simp only [List.mem_cons, List.not_mem_nil, or_false, exists_eq_or_imp, exists_eq_left] at hword
  -- A factor in parentheses does not begin with a digit, so the other alternative fails there.
  rcases hword with hnumber | hparentheses
  · exact (h.takes_number hnumber).choice_head
  · simp only [language_seq_cons, language_seq_nil, mul_one, Language.mem_mul,
      mem_language_char] at hparentheses
    obtain ⟨_, rfl, _, ⟨part, hpart, _, rfl, rfl⟩, rfl⟩ := hparentheses
    have hshorter : part.length < (['('] ++ (part ++ [')'])).length := by
      simp only [List.length_append, List.length_singleton]
      omega
    have hclose := (takes_char store ')').congr (store.verdict?_seq_singleton (.char ')'))
    have hinner := (hexpr part hpart hshorter).seq_cons hclose fun chars =>
      startsOutside_cons.mpr close_notMem_inExpr
    have hseq := (takes_char store '(').seq_cons hinner fun chars => startsOutside_empty _
    have hchoice := hseq.congr (store.verdict?_choice_singleton _)
    exact (hchoice.choice_tail h.opensWith_number open_notMem_digits).mono (Set.empty_subset _)

theorem takes_term (h : store.HasArithmetic id)
    (hexpr : ∀ part ∈ store.language (.ref ⟨id, "expr"⟩), part.length < word.length →
      store.Takes inExpr (.ref ⟨id, "expr"⟩) part)
    (hword : word ∈ store.language (.ref ⟨id, "term"⟩)) :
    store.Takes inTerm (.ref ⟨id, "term"⟩) word := by
  rw [language_ref h.term] at hword
  refine Takes.congr ?_ (verdict?_ref_of_ok h.term)
  apply takes_separated _ sign_notMem_digits hword
  · intro part hpart hle
    exact h.takes_factor (fun inner hinner hlt => hexpr inner hinner (by omega)) hpart
  · exact fun input position => h.endsFrom_factor fun later _ _ => h.endsFrom_expr input later

/-- By induction on the length of the word: a sum in parentheses is shorter than the factor. -/
theorem takes_expr (h : store.HasArithmetic id)
    (hword : word ∈ store.language (.ref ⟨id, "expr"⟩)) :
    store.Takes inExpr (.ref ⟨id, "expr"⟩) word := by
  induction hlength : word.length using Nat.strongRecOn generalizing word with
  | _ length ih =>
    rw [language_ref h.expr] at hword
    refine Takes.congr ?_ (verdict?_ref_of_ok h.expr)
    apply takes_separated _ sign_notMem_inTerm hword
    · intro part hpart hle
      exact h.takes_term (fun inner hinner hlt => ih _ (by omega) hinner rfl) hpart
    · exact fun input position => h.endsFrom_term
        (h.endsFrom_factor fun later _ _ => h.endsFrom_expr input later)

end HasArithmetic

end Store

namespace Session

/-- The edits that define the rules of arithmetic. -/
def arithmetic : List Edit :=
  [.define "main" "expr" (separated "term" '+' '-'),
    .define "main" "term" (separated "factor" '*' '/'),
    .define "main" "factor" (.choice [.ref "main" "number",
      .seq [.char '(', .ref "main" "expr", .char ')']]),
    .define "main" "number" (.plus (.range '0' '9'))]
where
  /-- Items with one of two signs between them. -/
  separated (item : String) (sign sign' : Char) : Blueprint :=
    .seq [.ref "main" item,
      .star (.seq [.choice [.char sign, .char sign'], .ref "main" item])]

/-- The grammar as it is printed. -/
example : ((initial.afterEdits arithmetic).grammar? "main").map (·.render) =
    some ("expr <- (term (('+' / '-') term)*)\n" ++
      "factor <- (number / ('(' expr ')'))\n" ++
      "number <- '0'..'9'+\n" ++
      "term <- (factor (('*' / '/') factor)*)").toList := by
  decide +kernel

theorem hasArithmetic : (initial.afterEdits arithmetic).store.HasArithmetic 0 where
  expr := rfl
  term := rfl
  factor := rfl
  number := rfl

/-- A match of a text by the grammar of arithmetic always comes to an end, and what it matches is
the longest sum with which the text begins, in the context-free reading of the rules. It is the
failure if the text does not begin with a sum. -/
theorem ask_arithmetic (text : List Char) :
    let s := initial.afterEdits arithmetic
    ∃ o log, s.ask (.matchText "main" "expr" text) = .ends (.outcome o) log ∧
      o.IsLongestPrefix (s.store.language (.ref ⟨0, "expr"⟩)) text := by
  intro s
  have h : s.store.HasArithmetic 0 := hasArithmetic
  obtain ⟨v, hv⟩ := (h.endsFrom_expr text.toArray 0).exists_verdict?
  obtain ⟨o, log, ho, -⟩ := Store.exists_matchAt_of_verdict? hv
  have hlocate : s.locate "main" = some 0 := rfl
  have hask := ask_matchText_of_matchAt hlocate h.expr ho
  exact ⟨o, _, hask, Store.isLongestPrefix_of_takes (fun word hword => h.takes_expr hword) ho⟩

/-- The last sign belongs to no sum. -/
example : (initial.afterEdits arithmetic).store.matchAt (.ref ⟨0, "expr"⟩)
    #['(', '1', '+', '2', ')', '*', '3', '-'] 0 =
      .ends (.success ['(', '1', '+', '2', ')', '*', '3']) [] := by
  decide +kernel

end Session

end Peg
