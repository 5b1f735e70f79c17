import Peg.Proofs.Span
import Peg.Query

/-!
# What a search finds

A search reports, from left to right, the matches that do not overlap. Its contract is a scan of the
text: from a cursor on, the least position at which the rule matches gives the next occurrence, and
the scan goes on at the end of that occurrence, or one further if the occurrence is empty. The end
of the text is a position too, so an empty match may be found there.

The search keeps a single cursor, and each of its calls moves the cursor past what was found. A scan
is a relation that knows nothing of calls. Here the calls are shown to answer with what the scan
finds, one occurrence after another, and with nothing for ever after. All that is said about the
occurrences is then shown for scans.

## Main definitions

* `Store.Matches` — a rule matches at a position of a text and consumes so much
* `Store.Scan` — the occurrences that are found from a cursor on
* `Search.calls` — the answers to a number of calls of `Search.next`

## Main results

* `Search.calls_within` — all that is found starts before it stops, and lies within the text
* `Store.exists_scan`, `Store.Scan.unique` — from each cursor there is exactly one scan
* `Store.Scan.calls_eq` — the calls of a search answer with the occurrences of the scan
* `Store.Scan.pairwise`, `Store.Scan.covers`, ... — occurrences are in order, and none is missed
* `Store.search_eq_scan` — what a search for a rule finds in a text
-/

namespace Peg

variable {ε : Type}

/-! ### One call of a search -/

theorem Occurrence.resume_mk (start length : Nat) (value : List Char) :
    resume ⟨start, start + length, value⟩ = if length = 0 then start + 1 else start + length := by
  by_cases hlength : length = 0 <;> simp [resume, isEmpty, Occurrence.length, hlength]

theorem Occurrence.resume_ofOutcome (start : Nat) (o : Outcome) :
    (ofOutcome start o).resume = if o.length = 0 then start + 1 else start + o.length :=
  resume_mk start o.length o.content

namespace Search

variable {search : Search ε} {position cursor : Nat}

/-- The attempt at a position comes to an end without a match. -/
def FailsAt (search : Search ε) (position : Nat) : Prop :=
  ∃ o log, search.attempt position = .ends o log ∧ o.matched = false

/-- The answers to `count` calls of `next`, each with the cursor that the last one left. -/
def calls (search : Search ε) : (count cursor : Nat) → Run ε (List (Option Occurrence))
  | 0, _ => pure []
  | count + 1, cursor => do
    let (found, cursor') ← search.next cursor
    let rest ← search.calls count cursor'
    pure (found :: rest)

theorem calls_succ {count cursor' : Nat} {found : Option Occurrence} {log log' : List ε}
    {rest : List (Option Occurrence)} (hnext : search.next cursor = .ends (found, cursor') log)
    (hrest : search.calls count cursor' = .ends rest log') :
    search.calls (count + 1) cursor = .ends (found :: rest) (log ++ log') := by
  rw [calls, hnext, Run.ends_bind]
  simp only [hrest, Run.ends_bind, Run.pure_def, Run.after_ends, List.append_nil]

theorem leftmost_of_fails {search : Search ε} (tries start : Nat)
    (h : ∀ p, start ≤ p → p < start + tries → search.FailsAt p) :
    ∃ log, search.leftmost tries start = .ends none log := by
  induction tries generalizing start with
  | zero => exact ⟨[], rfl⟩
  | succ tries ih =>
    obtain ⟨o, l, ho, hm⟩ := h start (Nat.le_refl start) (by omega)
    obtain ⟨m, hrest⟩ := ih (start + 1) fun p hp hlt => h p (by omega) (by omega)
    refine ⟨l ++ m, ?_⟩
    rw [leftmost, ho, Run.ends_bind, hm, if_neg Bool.false_ne_true, hrest, Run.after_ends]

theorem leftmost_of_matched (tries start : Nat) {o : Outcome} {l : List ε}
    (ho : search.attempt position = .ends o l) (hm : o.matched = true) (hstart : start ≤ position)
    (hlt : position < start + tries) (h : ∀ p, start ≤ p → p < position → search.FailsAt p) :
    ∃ log, search.leftmost tries start = .ends (some (.ofOutcome position o)) log := by
  induction tries generalizing start with
  | zero => omega
  | succ tries ih =>
    rw [leftmost]
    rcases Nat.eq_or_lt_of_le hstart with rfl | hless
    · exact ⟨l, by rw [ho, Run.ends_bind, if_pos hm]; simp⟩
    · obtain ⟨o', l', ho', hm'⟩ := h start (Nat.le_refl start) hless
      obtain ⟨m, hrest⟩ := ih (start + 1) hless (by omega) fun p hp hlt => h p (by omega) hlt
      refine ⟨l' ++ m, ?_⟩
      rw [ho', Run.ends_bind, hm', if_neg Bool.false_ne_true, hrest, Run.after_ends]

/-- Where no attempt is left that matches, a call finds nothing and passes the end of the text. -/
theorem next_of_fails (h : ∀ p, cursor ≤ p → p ≤ search.size → search.FailsAt p) :
    ∃ log, search.next cursor = .ends (none, max cursor (search.size + 1)) log := by
  obtain ⟨log, hlog⟩ := leftmost_of_fails (search.size + 1 - cursor) cursor
    fun p hp hlt => h p hp (by omega)
  exact ⟨log, by simp [next, hlog]⟩

/-- A call finds the first attempt that matches. -/
theorem next_of_matched {o : Outcome} {l : List ε} (ho : search.attempt position = .ends o l)
    (hm : o.matched = true) (hcursor : cursor ≤ position) (hsize : position ≤ search.size)
    (h : ∀ p, cursor ≤ p → p < position → search.FailsAt p) :
    ∃ log, search.next cursor =
      .ends (some (.ofOutcome position o),
        if o.length = 0 then position + 1 else position + o.length) log := by
  obtain ⟨log, hlog⟩ := leftmost_of_matched (search.size + 1 - cursor) cursor ho hm hcursor
    (by omega) h
  exact ⟨log, by simp [next, hlog, Occurrence.resume_ofOutcome]⟩

/-- Within the text a call makes an attempt, and goes on one position further if that fails. -/
theorem next_eq (h : cursor ≤ search.size) :
    search.next cursor = search.attempt cursor >>= fun o =>
      if o.matched then pure (some (.ofOutcome cursor o), (Occurrence.ofOutcome cursor o).resume)
      else search.next (cursor + 1) := by
  have htries : search.size + 1 - cursor = (search.size + 1 - (cursor + 1)) + 1 := by omega
  have hmax : max cursor (search.size + 1) = max (cursor + 1) (search.size + 1) := by omega
  rw [next, htries, leftmost, bind_assoc]
  congr 1
  funext o
  split
  · rfl
  · rw [next, hmax]

section Within

variable {input : Array Char} (hsize : search.size = input.size)
  (hspan : ∀ position, (search.attempt position).Always (Outcome.SpansAt input position))
include hsize hspan

/-- An occurrence does not stop before it starts, and it lies within the text. The cursor goes no
further than one position past the end of the text. -/
theorem next_within (hcursor : cursor ≤ search.size + 1) :
    (search.next cursor).Always fun answer =>
      (∀ m ∈ answer.1, m.start ≤ m.stop ∧ m.stop ≤ search.size) ∧
        answer.2 ≤ search.size + 1 := by
  induction hleft : search.size + 1 - cursor generalizing cursor with
  | zero =>
    rw [next_of_size_lt (by omega)]
    exact ⟨nofun, hcursor⟩
  | succ left ih =>
    rw [next_eq (by omega)]
    refine (hspan cursor).bind fun o ho => ?_
    split
    · have hstop : cursor + o.length ≤ search.size := by
        have hreaches := ho.reaches
        unfold Reaches at hreaches
        omega
      rw [Run.pure_def, Run.Always, Occurrence.resume_ofOutcome]
      refine ⟨?_, by split <;> omega⟩
      rintro m ⟨⟩
      exact ⟨Nat.le_add_right cursor o.length, hstop⟩
    · exact ih (by omega) (by omega)

theorem calls_within (count : Nat) (hcursor : cursor ≤ search.size + 1) :
    (search.calls count cursor).Always fun answers =>
      ∀ answer ∈ answers, ∀ m ∈ answer, m.start ≤ m.stop ∧ m.stop ≤ search.size := by
  induction count generalizing cursor with
  | zero => exact List.forall_mem_nil _
  | succ count ih =>
    refine (next_within hsize hspan hcursor).bind ?_
    rintro ⟨found, cursor'⟩ ⟨hfound, hcursor'⟩
    refine (ih hcursor').bind fun rest hrest => ?_
    exact List.forall_mem_cons.mpr ⟨hfound, hrest⟩

end Within

end Search

namespace Store

/-- The rule matches at `position` of the text and consumes `length` characters. -/
def Matches (store : Store) (rule : Rule) (text : List Char) (position length : Nat) : Prop :=
  ∃ o log, store.matchAt rule text.toArray position = .ends o log ∧
    o.matched = true ∧ o.length = length

/-- `store.Scan rule text cursor found`: from `cursor` on, `found` are the occurrences of the rule
in the text, each the leftmost that is left after the one before. -/
inductive Scan (store : Store) (rule : Rule) (text : List Char) : Nat → List Occurrence → Prop
  | done {cursor : Nat}
      (h : ∀ position length, cursor ≤ position → position ≤ text.length →
        ¬ store.Matches rule text position length) :
      Scan store rule text cursor []
  | found {cursor position length : Nat} {rest : List Occurrence}
      (hcursor : cursor ≤ position) (hsize : position ≤ text.length)
      (h : store.Matches rule text position length)
      (hleast : ∀ earlier length', cursor ≤ earlier → earlier < position →
        ¬ store.Matches rule text earlier length')
      -- After an empty occurrence the scan moves on by one, as it would find it for ever.
      (hrest : Scan store rule text (if length = 0 then position + 1 else position + length) rest) :
      Scan store rule text cursor
        (⟨position, position + length, (text.drop position).take length⟩ :: rest)

variable {store : Store} {rule : Rule} {text : List Char} {position length cursor : Nat}
  {found : List Occurrence}

/-! ### Matches of a rule in a text -/

@[simp] theorem search_size (store : Store) (rule : Rule) (text : List Char) :
    (store.search rule text).size = text.length := List.size_toArray

theorem Matches.unique {length' : Nat} (h : store.Matches rule text position length)
    (h' : store.Matches rule text position length') : length = length' := by
  obtain ⟨o, log, ho, -, rfl⟩ := h
  obtain ⟨o', log', ho', -, rfl⟩ := h'
  obtain ⟨rfl, -⟩ := Run.ends.inj (ho.symm.trans ho')
  rfl

/-- A match that begins within the text ends within it. -/
theorem Matches.stop_le (h : store.Matches rule text position length)
    (hposition : position ≤ text.length) : position + length ≤ text.length := by
  obtain ⟨o, log, ho, -, rfl⟩ := h
  have hreaches := ((store.matchAt_spansAt rule text.toArray position).of_ends ho).reaches
  rw [Reaches, List.size_toArray] at hreaches
  omega

theorem attempt_eq_ends {o : Outcome} {log : List Miss}
    (h : store.matchAt rule text.toArray position = .ends o log) :
    (store.search rule text).attempt position = .ends o (log.map .miss) := by
  change store.attempt rule text.toArray position = _
  rw [attempt, h, Run.mapLog_ends]

/-- Where the rule does not match, an attempt that ends is a failure. -/
theorem exists_matchAt_of_not_matches (h : store.matchAt rule text.toArray position ≠ .endless)
    (hnot : ∀ length, ¬ store.Matches rule text position length) :
    ∃ o log, store.matchAt rule text.toArray position = .ends o log ∧ o.matched = false := by
  obtain ⟨o, log, ho⟩ := Run.exists_eq_ends h
  refine ⟨o, log, ho, Bool.eq_false_iff.mpr fun hm => ?_⟩
  exact hnot o.length ⟨o, log, ho, hm, rfl⟩

theorem failsAt_of_not_matches (h : store.matchAt rule text.toArray position ≠ .endless)
    (hnot : ∀ length, ¬ store.Matches rule text position length) :
    (store.search rule text).FailsAt position := by
  obtain ⟨o, log, ho, hm⟩ := exists_matchAt_of_not_matches h hnot
  exact ⟨o, _, attempt_eq_ends ho, hm⟩

/-! ### There is exactly one scan -/

/-- A position at which the rule does not match may be passed over. -/
theorem Scan.of_not_matches (h : store.Scan rule text (cursor + 1) found)
    (hnot : ∀ length, ¬ store.Matches rule text cursor length) :
    store.Scan rule text cursor found := by
  cases h with
  | done hnone =>
    refine .done fun position length hposition hsize hmatch => ?_
    rcases Nat.eq_or_lt_of_le hposition with rfl | hlt
    · exact hnot length hmatch
    · exact hnone position length hlt hsize hmatch
  | found hcursor hsize hmatch hleast hrest =>
    refine .found (by omega) hsize hmatch (fun earlier length hearlier hlt hmatch' => ?_) hrest
    rcases Nat.eq_or_lt_of_le hearlier with rfl | hless
    · exact hnot length hmatch'
    · exact hleast earlier length hless hlt hmatch'

/-- By induction on what is left of the text: an occurrence moves the cursor on, and so does a
position that is passed over. -/
theorem exists_scan (store : Store) (rule : Rule) (text : List Char) (cursor : Nat) :
    ∃ found, store.Scan rule text cursor found := by
  induction hleft : text.length + 1 - cursor using Nat.strongRecOn generalizing cursor with
  | _ left ih =>
    by_cases hsize : cursor ≤ text.length
    · by_cases h : ∃ length, store.Matches rule text cursor length
      · obtain ⟨length, hmatch⟩ := h
        have hless : text.length + 1 -
            (if length = 0 then cursor + 1 else cursor + length) < left := by
          split <;> omega
        obtain ⟨rest, hrest⟩ := ih _ hless _ rfl
        exact ⟨_, .found (Nat.le_refl cursor) hsize hmatch (by omega) hrest⟩
      · obtain ⟨found, hfound⟩ := ih (text.length + 1 - (cursor + 1)) (by omega) _ rfl
        exact ⟨found, hfound.of_not_matches fun length hmatch => h ⟨length, hmatch⟩⟩
    · exact ⟨[], .done (by omega)⟩

theorem Scan.unique {found' : List Occurrence} (h : store.Scan rule text cursor found)
    (h' : store.Scan rule text cursor found') : found = found' := by
  induction h generalizing found' with
  | done hnone =>
    cases h' with
    | done => rfl
    | found hcursor hsize hmatch => exact absurd hmatch (hnone _ _ hcursor hsize)
  | @found cursor position length rest hcursor hsize hmatch hleast _ ih =>
    cases h' with
    | done hnone => exact absurd hmatch (hnone _ _ hcursor hsize)
    | @found _ position' length' rest' hcursor' _ hmatch' hleast' hrest' =>
      -- Neither position is before the other, as both are the least.
      have hle : position ≤ position' :=
        Nat.le_of_not_lt fun hlt => hleast _ _ hcursor' hlt hmatch'
      have hge : position' ≤ position :=
        Nat.le_of_not_lt fun hlt => hleast' _ _ hcursor hlt hmatch
      obtain rfl := Nat.le_antisymm hle hge
      obtain rfl := hmatch.unique hmatch'
      rw [ih hrest']

/-! ### The search makes the scan -/

/-- Where the rule matches nowhere from the cursor on, a call finds nothing. -/
theorem next_of_not_matches
    (hends : ∀ position ≤ text.length, store.matchAt rule text.toArray position ≠ .endless)
    (h : ∀ position length, cursor ≤ position → position ≤ text.length →
      ¬ store.Matches rule text position length) :
    ∃ log, (store.search rule text).next cursor =
      .ends (none, max cursor (text.length + 1)) log := by
  have hfails : ∀ p, cursor ≤ p → p ≤ (store.search rule text).size →
      (store.search rule text).FailsAt p := by
    intro p hcursor hsize
    rw [search_size] at hsize
    exact failsAt_of_not_matches (hends p hsize) fun length => h p length hcursor hsize
  simpa only [search_size] using Search.next_of_fails hfails

/-- A call finds the leftmost match, and reports it as a stretch of the text. -/
theorem next_of_matches
    (hends : ∀ position ≤ text.length, store.matchAt rule text.toArray position ≠ .endless)
    (hcursor : cursor ≤ position) (hsize : position ≤ text.length)
    (h : store.Matches rule text position length)
    (hleast : ∀ earlier length', cursor ≤ earlier → earlier < position →
      ¬ store.Matches rule text earlier length') :
    ∃ log, (store.search rule text).next cursor =
      .ends (some ⟨position, position + length, (text.drop position).take length⟩,
        if length = 0 then position + 1 else position + length) log := by
  obtain ⟨o, l, ho, hm, rfl⟩ := h
  have hspan := (store.matchAt_spansAt rule text.toArray position).of_ends ho
  have hvalue : (text.drop position).take o.length = o.content := hspan.content_eq.symm
  rw [hvalue]
  apply Search.next_of_matched (attempt_eq_ends ho) hm hcursor (by rwa [search_size])
  intro p hp hlt
  exact failsAt_of_not_matches (hends p (by omega)) fun length' => hleast p length' hp hlt

namespace Scan

/-- Calls answer with the occurrences of the scan one after another, and then with nothing. -/
theorem calls_eq
    (hends : ∀ position ≤ text.length, store.matchAt rule text.toArray position ≠ .endless)
    (h : store.Scan rule text cursor found) (count : Nat) :
    ∃ log, (store.search rule text).calls count cursor =
      .ends ((List.range count).map (found[·]?)) log := by
  induction count generalizing cursor found with
  | zero => exact ⟨[], rfl⟩
  | succ count ih =>
    rw [List.range_succ_eq_map, List.map_cons, List.map_map]
    cases h with
    | done hnone =>
      obtain ⟨log, hnext⟩ := next_of_not_matches hends hnone
      -- The cursor has passed the end of the text, and from there on nothing is found.
      have hpast : store.Scan rule text (max cursor (text.length + 1)) [] := .done (by omega)
      obtain ⟨log', hrest⟩ := ih hpast
      exact ⟨log ++ log', Search.calls_succ hnext hrest⟩
    | found hcursor hsize hmatch hleast hscan =>
      obtain ⟨log, hnext⟩ := next_of_matches hends hcursor hsize hmatch hleast
      obtain ⟨log', hrest⟩ := ih hscan
      exact ⟨log ++ log', Search.calls_succ hnext hrest⟩

/-- Asked for at most `limit` answers, a search gives the first occurrences. If it comes to its end
before, it says so, and it says so again when it is asked once more. -/
theorem answersFrom_eq
    (hends : ∀ position ≤ text.length, store.matchAt rule text.toArray position ≠ .endless)
    (h : store.Scan rule text cursor found) (limit : Nat) :
    ∃ log, (store.search rule text).answersFrom limit cursor =
      .ends (if limit ≤ found.length then (found.take limit).map some
        else found.map some ++ [none, none]) log := by
  induction limit generalizing cursor found with
  | zero => exact ⟨[], rfl⟩
  | succ limit ih =>
    rw [Search.answersFrom]
    cases h with
    | done hnone =>
      obtain ⟨log, hnext⟩ := next_of_not_matches hends hnone
      have hpassed : (store.search rule text).size < max cursor (text.length + 1) := by
        rw [search_size]
        omega
      refine ⟨log, ?_⟩
      rw [hnext, Run.ends_bind]
      simp [Search.next_of_size_lt hpassed]
    | found hcursor hsize hmatch hleast hscan =>
      obtain ⟨log, hnext⟩ := next_of_matches hends hcursor hsize hmatch hleast
      obtain ⟨log', hrest⟩ := ih hscan
      refine ⟨log ++ log', ?_⟩
      rw [hnext, Run.ends_bind]
      simp only [hrest, Run.ends_bind, Run.pure_def, Run.after_ends, List.append_nil,
        List.length_cons, Nat.add_le_add_iff_right, List.take_succ_cons, List.map_cons]
      split <;> rfl

/-- The first occurrence is what the first call finds. -/
theorem first_eq
    (hends : ∀ position ≤ text.length, store.matchAt rule text.toArray position ≠ .endless)
    (h : store.Scan rule text 0 found) :
    ∃ log, (store.search rule text).first = .ends found.head? log := by
  cases h with
  | done hnone =>
    obtain ⟨log, hnext⟩ := next_of_not_matches hends hnone
    exact ⟨log, by rw [Search.first, hnext, Run.ends_bind]; simp⟩
  | found hcursor hsize hmatch hleast =>
    obtain ⟨log, hnext⟩ := next_of_matches hends hcursor hsize hmatch hleast
    exact ⟨log, by rw [Search.first, hnext, Run.ends_bind]; simp⟩

/-! ### The occurrences of a scan -/

theorem le_start (h : store.Scan rule text cursor found) : ∀ m ∈ found, cursor ≤ m.start := by
  induction h with
  | done => exact fun m hm => absurd hm List.not_mem_nil
  | @found cursor position length rest hcursor _ _ _ _ ih =>
    rw [List.forall_mem_cons]
    refine ⟨hcursor, ?_⟩
    intro m hm
    have hafter := ih m hm
    split at hafter <;> omega

/-- Starts ascend, and no occurrence begins before the end of an earlier one. -/
theorem pairwise (h : store.Scan rule text cursor found) :
    found.Pairwise fun m m' => m.start < m'.start ∧ m.stop ≤ m'.start := by
  induction h with
  | done => exact .nil
  | @found cursor position length rest _ _ _ _ hrest ih =>
    refine List.pairwise_cons.mpr ⟨?_, ih⟩
    intro m hm
    have hafter := hrest.le_start m hm
    dsimp only
    split at hafter <;> omega

/-- Each occurrence is a stretch of the text at which the rule matches. -/
theorem within (h : store.Scan rule text cursor found) : ∀ m ∈ found,
    m.start ≤ m.stop ∧ m.stop ≤ text.length ∧ m.value = (text.drop m.start).take m.length ∧
      m.value.length = m.length ∧ store.Matches rule text m.start m.length := by
  induction h with
  | done => exact fun m hm => absurd hm List.not_mem_nil
  | @found cursor position length rest _ hsize hmatch _ _ ih =>
    rw [List.forall_mem_cons]
    refine ⟨?_, ih⟩
    have hstop := hmatch.stop_le hsize
    have hlength : (⟨position, position + length, (text.drop position).take length⟩ :
        Occurrence).length = length := Nat.add_sub_cancel_left position length
    rw [hlength]
    refine ⟨Nat.le_add_right _ _, hstop, rfl, ?_, hmatch⟩
    rw [List.length_take, List.length_drop]
    omega

/-- Every match is found, or it begins within an occurrence that was found before. -/
theorem covers (h : store.Scan rule text cursor found)
    (hmatch : store.Matches rule text position length) (hcursor : cursor ≤ position)
    (hsize : position ≤ text.length) :
    ∃ m ∈ found, m.start = position ∨ (m.start < position ∧ position < m.stop) := by
  induction h with
  | done hnone => exact absurd hmatch (hnone _ _ hcursor hsize)
  | @found cursor start length' rest _ _ hfirst hleast _ ih =>
    rcases Nat.lt_trichotomy position start with hlt | rfl | hgt
    · exact absurd hmatch (hleast _ _ hcursor hlt)
    · exact ⟨_, List.mem_cons_self, Or.inl rfl⟩
    · by_cases hinside : position < start + length'
      · exact ⟨_, List.mem_cons_self, Or.inr ⟨hgt, hinside⟩⟩
      · obtain ⟨m, hm, hcover⟩ := ih (by split <;> omega)
        exact ⟨m, List.mem_cons_of_mem _ hm, hcover⟩

/-- The first occurrence is the leftmost match. -/
theorem head_le (h : store.Scan rule text cursor found)
    (hmatch : store.Matches rule text position length) (hcursor : cursor ≤ position) :
    ∀ m ∈ found.head?, m.start ≤ position := by
  cases h with
  | done => exact fun m hm => absurd hm (Option.not_mem_none m)
  | found _ _ _ hleast =>
    rintro m ⟨⟩
    exact Nat.le_of_not_lt fun hlt => hleast _ _ hcursor hlt hmatch

/-- Each occurrence moves the cursor on, and the end of the text is the last place for one. -/
theorem length_le (h : store.Scan rule text cursor found) :
    found.length ≤ text.length + 1 - cursor := by
  induction h with
  | done => exact Nat.zero_le _
  | @found cursor position length rest hcursor hsize _ _ _ ih =>
    rw [List.length_cons]
    split at ih <;> omega

end Scan

/-! ### Searches -/

/-- A search for a rule in a text finds the one scan of the text. If the rule comes to an end at
each position, then the calls answer with the occurrences of the scan one after another, and with
nothing for ever after; the first occurrence is the leftmost match. Starts ascend, the occurrences
do not overlap, and each is a stretch of the text. A match that is not among them begins within
one. -/
theorem search_eq_scan (store : Store) (rule : Rule) (text : List Char)
    (hends : ∀ position ≤ text.length, store.matchAt rule text.toArray position ≠ .endless) :
    ∃ found,
      (∀ found', store.Scan rule text 0 found' ↔ found' = found) ∧
      (∀ count, ∃ log, (store.search rule text).calls count 0 =
        .ends ((List.range count).map (found[·]?)) log) ∧
      (∃ log, (store.search rule text).answers none =
        .ends (found.map some ++ [none, none]) log) ∧
      (∃ log, (store.search rule text).first = .ends found.head? log) ∧
      (found.Pairwise fun m m' => m.start < m'.start ∧ m.stop ≤ m'.start) ∧
      (∀ m ∈ found, m.start ≤ m.stop ∧ m.stop ≤ text.length ∧
        m.value = (text.drop m.start).take (m.stop - m.start) ∧
        m.value.length = m.stop - m.start ∧
        store.Matches rule text m.start (m.stop - m.start)) ∧
      (∀ position length, position ≤ text.length → store.Matches rule text position length →
        (∃ m ∈ found, m.start = position ∨ (m.start < position ∧ position < m.stop)) ∧
        ∀ m ∈ found.head?, m.start ≤ position) ∧
      found.length ≤ text.length + 1 := by
  obtain ⟨found, hscan⟩ := store.exists_scan rule text 0
  have hlength := hscan.length_le
  refine ⟨found, ?_, hscan.calls_eq hends, ?_, hscan.first_eq hends, hscan.pairwise,
    hscan.within, ?_, hlength⟩
  · intro found'
    constructor
    · exact fun h => h.unique hscan
    · rintro rfl
      exact hscan
  · -- Without a limit the search asks for more answers than there can be occurrences.
    obtain ⟨log, hanswers⟩ := hscan.answersFrom_eq hends (text.length + 2)
    rw [if_neg (by omega)] at hanswers
    exact ⟨log, by rwa [Search.answers, search_size]⟩
  · intro position length hsize hmatch
    exact ⟨hscan.covers hmatch (Nat.zero_le _) hsize, hscan.head_le hmatch (Nat.zero_le _)⟩

/-- Nested parentheses, or nothing, are found in `b()`: nothing at `b`, then the pair, and nothing
once more at the end. -/
theorem search_eq_scan_nested :
    (∀ position ≤ ['b', '(', ')'].length,
      nested.matchAt (.opt (.ref ⟨0, "nested"⟩)) ['b', '(', ')'].toArray position ≠ .endless) ∧
    ∃ found, nested.Scan (.opt (.ref ⟨0, "nested"⟩)) ['b', '(', ')'] 0 found ∧
      (List.range 5).map (found[·]?) =
        [some ⟨0, 0, []⟩, some ⟨1, 3, ['(', ')']⟩, some ⟨3, 3, []⟩, none, none] := by
  have hends : ∀ position ≤ ['b', '(', ')'].length,
      nested.matchAt (.opt (.ref ⟨0, "nested"⟩)) ['b', '(', ')'].toArray position ≠ .endless := by
    decide
  obtain ⟨found, hscan, hcalls, -⟩ := search_eq_scan nested _ _ hends
  obtain ⟨log, hlog⟩ := hcalls 5
  have hrun : (nested.search (.opt (.ref ⟨0, "nested"⟩)) ['b', '(', ')']).calls 5 0 =
      .ends [some ⟨0, 0, []⟩, some ⟨1, 3, ['(', ')']⟩, some ⟨3, 3, []⟩, none, none] [] := by
    rfl
  refine ⟨hends, found, (hscan found).mpr rfl, ?_⟩
  exact (Run.ends.inj (hlog.symm.trans hrun)).1

end Store

end Peg
