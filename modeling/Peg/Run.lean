/-!
# Computations that may have no end and keep a log

Matching follows references, and a grammar may send a reference back to where it came from without
consuming anything. Such a match has no outcome. One that has an outcome also says which references
led nowhere, in the order in which they were tried. `Run` holds both facts: a run either never
ends, or it ends with a value and with the entries written on the way to it.

## Main definitions

* `Run ε α` — a computation with a value in `α` and a log of entries in `ε`, or without end
* `Run.note` — write one entry
* `Run.mapLog` — the same computation, with every entry of the log replaced

## Main results

* `Run.bind_eq_ends_iff` — two steps end exactly when both end, and the log is the log of the first
  followed by the log of the second
* `Run.bind_eq_endless_iff` — two steps have no end exactly when one of them has none
* `Run` is a lawful monad
-/

namespace Peg

/-- A computation that never ends, or one that ends with a value and the entries logged on the way
to it, oldest first. -/
inductive Run (ε α : Type) where
  | endless
  | ends (value : α) (log : List ε)
  deriving DecidableEq

namespace Run

variable {ε δ α β : Type}

/-- Write one entry. -/
@[inline] def note (e : ε) : Run ε Unit := .ends () [e]

/-- The run with the entries `log` written before its own. -/
def after (log : List ε) : Run ε α → Run ε α
  | .endless => .endless
  | .ends a rest => .ends a (log ++ rest)

/-- One step after another. A first step that logged nothing leaves the second in tail position, so
that a silent loop runs in constant space. By `ends_bind` the value and the log are the same as if
the logs had been joined. -/
@[inline] protected def bind (x : Run ε α) (f : α → Run ε β) : Run ε β :=
  match x with
  | .endless => .endless
  | .ends a [] => f a
  | .ends a (e :: log) => after (e :: log) (f a)

instance : Monad (Run ε) where
  pure a := .ends a []
  bind := Run.bind

/-- The same computation with every entry of its log replaced. -/
def mapLog (g : ε → δ) : Run ε α → Run δ α
  | .endless => .endless
  | .ends a log => .ends a (log.map g)

@[simp] theorem after_endless (log : List ε) : after log (.endless : Run ε α) = .endless := rfl

@[simp] theorem after_ends (log rest : List ε) (a : α) :
    after log (.ends a rest) = .ends a (log ++ rest) := rfl

@[simp] theorem after_nil (x : Run ε α) : after [] x = x := by
  cases x <;> rfl

theorem after_append (l m : List ε) (x : Run ε α) : after (l ++ m) x = after l (after m x) := by
  cases x <;> simp

@[simp] theorem pure_def (a : α) : (pure a : Run ε α) = .ends a [] := rfl

@[simp] theorem endless_bind (f : α → Run ε β) : (.endless : Run ε α) >>= f = .endless := rfl

@[simp] theorem ends_bind (a : α) (log : List ε) (f : α → Run ε β) :
    .ends a log >>= f = after log (f a) := by
  cases log with
  | nil => exact (after_nil (f a)).symm
  | cons e log => rfl

/-- Two steps end exactly when both end, and the logs are joined in order. -/
theorem bind_eq_ends_iff {x : Run ε α} {f : α → Run ε β} {b : β} {log : List ε} :
    x >>= f = .ends b log ↔ ∃ a l m, x = .ends a l ∧ f a = .ends b m ∧ l ++ m = log := by
  cases x with
  | endless => simp
  | ends a l =>
    constructor
    · intro h
      cases hf : f a with
      | endless => simp [hf] at h
      | ends c m =>
        simp only [ends_bind, hf, after_ends, ends.injEq] at h
        exact ⟨a, l, m, rfl, by rw [hf, h.1], h.2⟩
    · rintro ⟨a', l', m, hx, hf, rfl⟩
      cases hx
      simp [hf]

/-- Two steps have no end exactly when the first has none, or the second has none on the value of
the first. -/
theorem bind_eq_endless_iff {x : Run ε α} {f : α → Run ε β} :
    x >>= f = .endless ↔ x = .endless ∨ ∃ a l, x = .ends a l ∧ f a = .endless := by
  cases x with
  | endless => simp
  | ends a l => cases h : f a <;> simp [h]

theorem after_bind (l : List ε) (x : Run ε α) (f : α → Run ε β) :
    after l x >>= f = after l (x >>= f) := by
  cases x <;> simp [after_append]

instance : LawfulMonad (Run ε) :=
  LawfulMonad.mk' _
    (fun x => show x >>= pure = x by cases x <;> simp)
    (fun a f => by simp)
    (fun x f g => by cases x <;> simp [after_bind])

@[simp] theorem map_endless (f : α → β) : f <$> (.endless : Run ε α) = .endless := rfl

@[simp] theorem map_ends (f : α → β) (a : α) (log : List ε) :
    f <$> (.ends a log : Run ε α) = .ends (f a) log := by
  rw [map_eq_pure_bind, ends_bind]
  simp

theorem map_eq_ends_iff {x : Run ε α} {f : α → β} {b : β} {log : List ε} :
    f <$> x = .ends b log ↔ ∃ a, x = .ends a log ∧ f a = b := by
  cases x with
  | endless => simp
  | ends a l =>
    rw [map_ends]
    constructor
    · rintro ⟨⟩
      exact ⟨a, rfl, rfl⟩
    · rintro ⟨_, ⟨⟩, rfl⟩
      rfl

@[simp] theorem mapLog_endless (g : ε → δ) : mapLog g (.endless : Run ε α) = .endless := rfl

@[simp] theorem mapLog_ends (g : ε → δ) (a : α) (log : List ε) :
    mapLog g (.ends a log) = .ends a (log.map g) := rfl

theorem ends_ne_endless (a : α) (log : List ε) : (.ends a log : Run ε α) ≠ .endless := nofun

theorem exists_eq_ends {x : Run ε α} (h : x ≠ .endless) : ∃ a log, x = .ends a log := by
  cases x with
  | endless => exact absurd rfl h
  | ends a log => exact ⟨a, log, rfl⟩

theorem bind_ne_endless {x : Run ε α} {f : α → Run ε β} (hx : x ≠ .endless)
    (hf : ∀ a log, x = .ends a log → f a ≠ .endless) : x >>= f ≠ .endless := by
  intro h
  rcases bind_eq_endless_iff.mp h with hendless | ⟨a, log, hends, hrest⟩
  · exact hx hendless
  · exact hf a log hends hrest

theorem map_ne_endless {x : Run ε α} {f : α → β} (hx : x ≠ .endless) : f <$> x ≠ .endless := by
  obtain ⟨a, log, rfl⟩ := exists_eq_ends hx
  simp

end Run

end Peg
