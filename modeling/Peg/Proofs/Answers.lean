import Peg.Query
import Peg.Proofs.References
import Peg.Proofs.Span

/-!
# What questions ask of matches

A question about a rule is answered from matches of that rule, and a search from attempts at one
position after another. So whatever relates the matches of two rules relates the answers as well, if
it is a relation that is passed on from steps to the whole.

Two runs are often compared by the lines in their logs and not by the entries. Entries tell more
than lines do: a reference is written without its grammar, and rules that differ may be written
alike.

## Main definitions

* `Run.ReadsAs` — the same value, with a log that reads the same

## Main results

* `Search.leftmost_rel`, `Search.answers_rel` — searches by their attempts
* `Store.reply_rel` — questions about rules by the matches of the rules
* `Store.reply_line_eq` — rules that match the same, line by line, are answered for the same
-/

namespace Peg

variable {ε δ γ α β : Type}

/-! ### Relations that are passed on -/

namespace Run

variable {R : (α : Type) → Run ε α → Run δ α → Prop}

theorem Compositional.map (hR : Compositional R) {x : Run ε α} {y : Run δ α} (f : α → β)
    (h : R α x y) : R β (f <$> x) (f <$> y) := by
  rw [map_eq_pure_bind, map_eq_pure_bind]
  exact hR.bind h fun a => hR.pure (f a)

theorem Compositional.mapM (hR : Compositional R) {f : α → Run ε β} {g : α → Run δ β}
    (h : ∀ a, R β (f a) (g a)) (as : List α) : R _ (as.mapM f) (as.mapM g) := by
  induction as with
  | nil => exact hR.pure []
  | cons a rest ih =>
    rw [List.mapM_cons, List.mapM_cons]
    exact hR.bind (h a) fun b => hR.bind ih fun bs => hR.pure (b :: bs)

@[simp] theorem mapLog_bind (g : ε → δ) (x : Run ε α) (f : α → Run ε β) :
    (x >>= f).mapLog g = x.mapLog g >>= fun a => (f a).mapLog g := by
  cases x with
  | endless => rfl
  | ends a log =>
    rw [ends_bind, mapLog_ends, ends_bind]
    cases f a <;> simp

theorem mapLog_after (g : ε → δ) (log : List ε) (x : Run ε α) :
    (after log x).mapLog g = after (log.map g) (x.mapLog g) := by
  cases x <;> simp

theorem mapLog_map (g : ε → δ) (f : α → β) (x : Run ε α) :
    (f <$> x).mapLog g = f <$> x.mapLog g := by
  cases x <;> simp

theorem mapLog_mapLog (g : δ → γ) (f : ε → δ) (x : Run ε α) :
    (x.mapLog f).mapLog g = x.mapLog (g ∘ f) := by
  cases x with
  | endless => rfl
  | ends a log => rw [mapLog_ends, mapLog_ends, mapLog_ends, List.map_map]

theorem always_mapLog {p : α → Prop} {g : ε → δ} {x : Run ε α} :
    (x.mapLog g).Always p ↔ x.Always p := by
  cases x <;> exact Iff.rfl

/-- Both runs have no end, or both end with the same value and with logs that read the same. -/
def ReadsAs (read : ε → γ) (read' : δ → γ) (α : Type) (x : Run ε α) (y : Run δ α) : Prop :=
  x.mapLog read = y.mapLog read'

theorem compositional_readsAs (read : ε → γ) (read' : δ → γ) :
    Compositional (ReadsAs read read') where
  pure _ := rfl
  bind := by
    intro α β x y f g hx hf
    rw [ReadsAs, mapLog_bind, mapLog_bind, hx]
    congr 1
    funext a
    exact hf a

end Run

open Run

/-! ### Searches -/

namespace Search

variable {R : (α : Type) → Run ε α → Run δ α → Prop} (hR : Compositional R)
  {search : Search ε} {search' : Search δ} (hsize : search.size = search'.size)
  (h : ∀ position, R _ (search.attempt position) (search'.attempt position))

include hR h

theorem leftmost_rel (tries start : Nat) :
    R _ (search.leftmost tries start) (search'.leftmost tries start) := by
  induction tries generalizing start with
  | zero => exact hR.pure none
  | succ tries ih =>
    apply hR.bind (h start)
    intro o
    exact rel_ite (hR.pure _) (ih _)

include hsize

theorem next_rel (cursor : Nat) : R _ (search.next cursor) (search'.next cursor) := by
  rw [next, next, hsize]
  apply hR.bind (leftmost_rel hR h _ _)
  intro found
  cases found with
  | none => exact hR.pure _
  | some found => exact hR.pure _

theorem first_rel : R _ search.first search'.first :=
  hR.bind (next_rel hR hsize h 0) fun answer => hR.pure answer.1

theorem answersFrom_rel (limit cursor : Nat) :
    R _ (search.answersFrom limit cursor) (search'.answersFrom limit cursor) := by
  induction limit generalizing cursor with
  | zero => exact hR.pure []
  | succ limit ih =>
    apply hR.bind (next_rel hR hsize h cursor)
    rintro ⟨found, cursor'⟩
    cases found with
    | none => exact hR.bind (next_rel hR hsize h cursor') fun again => hR.pure [none, again.1]
    | some found => exact hR.bind (ih cursor') fun rest => hR.pure (some found :: rest)

theorem answers_rel (limit : Option Nat) :
    R _ (search.answers limit) (search'.answers limit) := by
  rw [answers, answers, hsize]
  exact answersFrom_rel hR hsize h _ _

end Search

/-! ### Questions about a rule -/

namespace Store

section Relation

variable {R : (α : Type) → Run Event α → Run Event α → Prop} (hR : Compositional R)
  {store store' : Store} {rule rule' : Rule}
  (h : ∀ input position, R _ (store.attempt rule input position)
    (store'.attempt rule' input position))
  (hanswer : ∀ text o, R _ (Run.note (.answer rule text o)) (Run.note (.answer rule' text o)))

include hR h hanswer

theorem matchText_rel (text : List Char) :
    R _ (store.matchText rule text) (store'.matchText rule' text) :=
  hR.bind (h text.toArray 0) fun o => hR.bind (hanswer text o) fun _ => hR.pure o

theorem matchesFully_rel (text : List Char) :
    R _ (store.matchesFully rule text) (store'.matchesFully rule' text) :=
  hR.bind (matchText_rel hR h hanswer text) fun _ => hR.pure _

/-- Questions about rules that are written alike are answered from their matches. -/
theorem reply_rel (hrender : rule.render = rule'.render) (query : Query) :
    R _ (store.reply rule query) (store'.reply rule' query) := by
  have htext := matchText_rel hR h hanswer
  have hfully := matchesFully_rel hR h hanswer
  have hsize : ∀ text, (store.search rule text).size = (store'.search rule' text).size :=
    fun _ => rfl
  cases query with
  | display =>
    rw [reply, reply, hrender]
    exact hR.pure _
  | matchText text => exact hR.map _ (htext text)
  | matchTexts texts => exact hR.map _ (hR.mapM htext texts)
  | matchAt text positions => exact hR.map _ (hR.mapM (h _) positions)
  | find text => exact hR.map _ (Search.first_rel hR (hsize text) (h _))
  | findAll text limit => exact hR.map _ (Search.answers_rel hR (hsize text) (h _) limit)
  | full text => exact hR.map _ (hfully text)
  | fullTexts texts => exact hR.map _ (hR.mapM hfully texts)

end Relation

variable {store store' : Store} {rule rule' : Rule}

theorem miss_line (miss : Miss) :
    (Event.miss miss).line = Level.trace.word ++ ' ' :: miss.line := rfl

/-- The lines of an attempt are those about the references that led nowhere. -/
theorem attempt_line (store : Store) (rule : Rule) (input : Array Char) (position : Nat) :
    (store.attempt rule input position).mapLog Event.line =
      ((store.matchAt rule input position).mapLog Miss.line).mapLog
        (Level.trace.word ++ ' ' :: ·) := by
  have hline : Event.line ∘ Event.miss = (Level.trace.word ++ ' ' :: ·) ∘ Miss.line :=
    funext miss_line
  rw [attempt, mapLog_mapLog, mapLog_mapLog, hline]

theorem answer_line (hrender : rule.render = rule'.render) (text : List Char) (o : Outcome) :
    (Event.answer rule text o).line = (Event.answer rule' text o).line := by
  unfold Event.line Event.level Event.message
  dsimp only
  rw [hrender]

/-- Rules that are written alike, and that match the same with the same lines in the log, are
answered for with the same replies and the same lines. -/
theorem reply_line_eq (hrender : rule.render = rule'.render)
    (h : ∀ input position, (store.matchAt rule input position).mapLog Miss.line =
      (store'.matchAt rule' input position).mapLog Miss.line) (query : Query) :
    (store.reply rule query).mapLog Event.line = (store'.reply rule' query).mapLog Event.line := by
  have hattempt : ∀ input position, ReadsAs Event.line Event.line _
      (store.attempt rule input position) (store'.attempt rule' input position) := by
    intro input position
    rw [ReadsAs, attempt_line, attempt_line, h]
  have hanswer : ∀ text o, ReadsAs Event.line Event.line _
      (Run.note (.answer rule text o)) (Run.note (.answer rule' text o)) := by
    intro text o
    simp only [ReadsAs, note, mapLog_ends, List.map_cons, answer_line hrender]
  exact reply_rel (compositional_readsAs Event.line Event.line) hattempt hanswer hrender query

end Store

end Peg
