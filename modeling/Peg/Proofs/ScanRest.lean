import Peg.Proofs.Scan
import Peg.Proofs.Suffix

/-!
# Searching the rest of a text

A search remembers nothing but its cursor, and a match looks at nothing but what is left of the
text. So a search can be broken off after any occurrence and begun anew on the rest of the text,
where all positions count from the place at which it was cut. The occurrences are the same, but for
that offset.

In the same way the first occurrence is known from the rests of the text alone. It begins at the
least position from which the rest is matched from its own start.

## Main definitions

* `Occurrence.shift` — the same stretch, in a text with more characters in front
* `Store.MatchesText` — a rule matches a text from its start

## Main results

* `Store.matchAt_drop` — a match in the rest of a text
* `Store.Scan.shift` — a scan of the rest is a scan of the text
* `Store.Scan.drop` — what is found after an occurrence is found from where the scan goes on
* `Store.search_eq_restarted` — searches that are begun anew
-/

namespace Peg

/-- The same stretch in a text that has `offset` more characters in front. -/
def Occurrence.shift (offset : Nat) (m : Occurrence) : Occurrence :=
  ⟨offset + m.start, offset + m.stop, m.value⟩

/-- What is left at a position of the rest of a text. -/
theorem remaining_drop {text : List Char} {offset : Nat} (h : offset ≤ text.length)
    (position : Nat) :
    remaining (text.drop offset).toArray position = remaining text.toArray (offset + position) := by
  have hsize : position ≤ text.length - offset ↔ offset + position ≤ text.length := by omega
  simp [remaining, List.drop_drop, hsize]

namespace Store

variable {store : Store} {rule : Rule} {text : List Char} {found : List Occurrence}
  {offset position cursor length : Nat}

/-! ### Matches in the rest of a text -/

theorem matchAt_drop (store : Store) (rule : Rule) (h : offset ≤ text.length) (position : Nat) :
    store.matchAt rule (text.drop offset).toArray position =
      store.matchAt rule text.toArray (offset + position) :=
  store.matchAt_eq_of_remaining_eq rule (remaining_drop h position)

theorem matches_drop_iff (h : offset ≤ text.length) :
    store.Matches rule (text.drop offset) position length ↔
      store.Matches rule text (offset + position) length := by
  rw [Matches, Matches, matchAt_drop store rule h]

/-- The rule matches the text from its start. -/
def MatchesText (store : Store) (rule : Rule) (text : List Char) : Prop :=
  ∃ o log, store.matchText rule text = .ends o log ∧ o.matched = true

theorem matchesText_iff :
    store.MatchesText rule text ↔ ∃ length, store.Matches rule text 0 length := by
  constructor
  · rintro ⟨o, log, ho, hm⟩
    cases hrun : store.matchAt rule text.toArray 0 with
    | endless => cases ho.symm.trans (matchText_of_endless hrun)
    | ends o' l =>
      obtain ⟨rfl, -⟩ := Run.ends.inj (ho.symm.trans (matchText_of_matchAt hrun))
      exact ⟨o.length, o, l, hrun, hm, rfl⟩
  · rintro ⟨length, o, log, ho, hm, -⟩
    exact ⟨o, _, matchText_of_matchAt ho, hm⟩

theorem matchesText_drop_iff (h : offset ≤ text.length) :
    store.MatchesText rule (text.drop offset) ↔
      ∃ length, store.Matches rule text offset length := by
  simp only [matchesText_iff, matches_drop_iff h, Nat.add_zero]

namespace Scan

/-! ### Scans of the rest of a text -/

/-- A scan of the rest of a text is a scan of the text, once the offset is added. -/
theorem shift (hoffset : offset ≤ text.length)
    (h : store.Scan rule (text.drop offset) cursor found) :
    store.Scan rule text (offset + cursor) (found.map (.shift offset)) := by
  induction h with
  | done hnone =>
    refine .done fun position length hcursor hsize => ?_
    obtain ⟨p, rfl⟩ := Nat.exists_eq_add_of_le (show offset ≤ position by omega)
    rw [← matches_drop_iff hoffset]
    exact hnone p length (by omega) (by rw [List.length_drop]; omega)
  | @found cursor position length rest hcursor hsize hmatch hleast _ ih =>
    rw [List.length_drop] at hsize
    have hoccurrence : Occurrence.shift offset
        ⟨position, position + length, ((text.drop offset).drop position).take length⟩ =
          ⟨offset + position, offset + position + length,
            (text.drop (offset + position)).take length⟩ := by
      rw [Occurrence.shift, List.drop_drop, ← Nat.add_assoc]
    rw [List.map_cons, hoccurrence]
    refine .found (by omega) (by omega) ((matches_drop_iff hoffset).mp hmatch) ?_ ?_
    · intro earlier length' hearlier hlt
      obtain ⟨p, rfl⟩ := Nat.exists_eq_add_of_le (show offset ≤ earlier by omega)
      rw [← matches_drop_iff hoffset]
      exact hleast p length' (by omega) (by omega)
    · split at ih
      · rwa [if_pos ‹_›]
      · rwa [if_neg ‹_›, Nat.add_assoc]

/-- What a scan finds after an occurrence is what it finds from there, where it goes on. -/
theorem drop {k : Nat} {m : Occurrence} (h : store.Scan rule text cursor found)
    (hm : found[k]? = some m) : store.Scan rule text m.resume (found.drop (k + 1)) := by
  induction h generalizing k with
  | done => cases hm
  | found _ _ _ _ hrest ih =>
    cases k with
    | zero =>
      obtain rfl := Option.some.inj hm
      rwa [Occurrence.resume_mk]
    | succ k => exact ih hm

/-- The first occurrence begins at the least position at which the rule matches. -/
theorem head?_start_iff (h : store.Scan rule text cursor found) {start : Nat} :
    (∃ m ∈ found.head?, m.start = start) ↔
      cursor ≤ start ∧ start ≤ text.length ∧ (∃ length, store.Matches rule text start length) ∧
        ∀ earlier, cursor ≤ earlier → earlier < start →
          ¬ ∃ length, store.Matches rule text earlier length := by
  cases h with
  | done hnone =>
    constructor
    · rintro ⟨m, hm, -⟩
      cases hm
    · rintro ⟨hcursor, hsize, ⟨length, hmatch⟩, -⟩
      exact absurd hmatch (hnone _ _ hcursor hsize)
  | @found _ position length _ hcursor hsize hmatch hleast _ =>
    constructor
    · rintro ⟨m, hm, rfl⟩
      obtain rfl := Option.some.inj hm
      exact ⟨hcursor, hsize, ⟨length, hmatch⟩, fun earlier hearlier hlt ⟨length', hmatch'⟩ =>
        hleast earlier length' hearlier hlt hmatch'⟩
    · rintro ⟨hcursor', -, ⟨length', hmatch'⟩, hleast'⟩
      refine ⟨_, rfl, ?_⟩
      -- Neither position is before the other, as both are the least.
      rcases Nat.lt_trichotomy position start with hlt | heq | hgt
      · exact absurd ⟨length, hmatch⟩ (hleast' position hcursor hlt)
      · exact heq
      · exact absurd hmatch' (hleast start length' hcursor' hgt)

/-- Without a limit a search answers with all occurrences, and then with nothing, twice. -/
theorem answers_eq
    (hends : ∀ position ≤ text.length, store.matchAt rule text.toArray position ≠ .endless)
    (h : store.Scan rule text 0 found) :
    ∃ log, (store.search rule text).answers none = .ends (found.map some ++ [none, none]) log := by
  have hlength := h.length_le
  obtain ⟨log, hanswers⟩ := h.answersFrom_eq hends (text.length + 2)
  rw [if_neg (by omega)] at hanswers
  exact ⟨log, by rwa [Search.answers, search_size]⟩

end Scan

/-! ### Searches that are begun anew -/

/-- Let a rule come to an end at each position of a text. After any occurrence that a search finds,
it finds what a search of the rest of the text finds, the rest being cut at the end of the
occurrence, or one further if that is empty. Nothing more is found if there is no such rest. The
first occurrence begins at the least position such that the rest from there is matched from its
start. -/
theorem search_eq_restarted
    (hends : ∀ position ≤ text.length, store.matchAt rule text.toArray position ≠ .endless) :
    ∃ (found : List Occurrence) (first : Option Occurrence) (log log' : List Event),
      (store.search rule text).answers none = .ends (found.map some ++ [none, none]) log ∧
      (store.search rule text).first = .ends first log' ∧
      (∀ k m, found[k]? = some m →
        (m.resume ≤ text.length → ∃ (rest : List Occurrence) (l : List Event),
          (store.search rule (text.drop m.resume)).answers none =
            .ends (rest.map some ++ [none, none]) l ∧
          found.drop (k + 1) = rest.map (.shift m.resume)) ∧
        (text.length < m.resume → found.drop (k + 1) = [])) ∧
      ∀ start, (∃ m ∈ first, m.start = start) ↔
        start ≤ text.length ∧ store.MatchesText rule (text.drop start) ∧
          ∀ earlier < start, ¬ store.MatchesText rule (text.drop earlier) := by
  obtain ⟨found, hscan⟩ := store.exists_scan rule text 0
  obtain ⟨log, hanswers⟩ := hscan.answers_eq hends
  obtain ⟨log', hfirst⟩ := hscan.first_eq hends
  refine ⟨found, found.head?, log, log', hanswers, hfirst, ?_, ?_⟩
  · intro k m hm
    have hafter := hscan.drop hm
    constructor
    · intro hsize
      obtain ⟨rest, hrest⟩ := store.exists_scan rule (text.drop m.resume) 0
      have hends' : ∀ position ≤ (text.drop m.resume).length,
          store.matchAt rule (text.drop m.resume).toArray position ≠ .endless := by
        intro position hposition
        rw [List.length_drop] at hposition
        rw [matchAt_drop store rule hsize]
        exact hends _ (by omega)
      obtain ⟨l, hl⟩ := hrest.answers_eq hends'
      exact ⟨rest, l, hl, hafter.unique (hrest.shift hsize)⟩
    · intro hsize
      have hlength := hafter.length_le
      exact List.length_eq_zero_iff.mp (by omega)
  · intro start
    rw [hscan.head?_start_iff]
    constructor
    · rintro ⟨-, hsize, hmatch, hleast⟩
      refine ⟨hsize, (matchesText_drop_iff hsize).mpr hmatch, fun earlier hlt => ?_⟩
      rw [matchesText_drop_iff (by omega)]
      exact hleast earlier (Nat.zero_le _) hlt
    · rintro ⟨hsize, hmatch, hleast⟩
      refine ⟨Nat.zero_le _, hsize, (matchesText_drop_iff hsize).mp hmatch, fun earlier _ hlt => ?_⟩
      rw [← matchesText_drop_iff (by omega)]
      exact hleast earlier hlt

/-- Nested parentheses, or nothing, are found four times in `b()a`. After the second time, which is
not empty, the rest `a` is searched; after the last one nothing is left. -/
theorem search_eq_restarted_nested :
    let rule : Rule := .opt (.ref ⟨0, "nested"⟩)
    let text := ['b', '(', ')', 'a']
    let found : List Occurrence := [⟨0, 0, []⟩, ⟨1, 3, ['(', ')']⟩, ⟨3, 3, []⟩, ⟨4, 4, []⟩]
    (∀ position ≤ text.length, nested.matchAt rule text.toArray position ≠ .endless) ∧
      (nested.search rule text).answers none = .ends (found.map some ++ [none, none]) [] ∧
      (∃ (rest : List Occurrence) (l : List Event),
        (nested.search rule ['a']).answers none = .ends (rest.map some ++ [none, none]) l ∧
          found.drop 2 = rest.map (.shift 3)) ∧
      found.drop 4 = [] := by
  intro rule text found
  have hends : ∀ position ≤ text.length,
      nested.matchAt rule text.toArray position ≠ .endless := by decide
  have hrun : (nested.search (.opt (.ref ⟨0, "nested"⟩)) ['b', '(', ')', 'a']).answers none =
      .ends [some ⟨0, 0, []⟩, some ⟨1, 3, ['(', ')']⟩, some ⟨3, 3, []⟩, some ⟨4, 4, []⟩, none,
        none] [] := by
    rfl
  obtain ⟨found', first, log, log', hanswers, -, hrests, -⟩ := search_eq_restarted hends
  obtain ⟨hlists, -⟩ := Run.ends.inj (hrun.symm.trans hanswers)
  obtain rfl : found = found' :=
    List.map_injective_iff.mpr (Option.some_injective _) (List.append_cancel_right hlists)
  exact ⟨hends, hrun, (hrests 1 ⟨1, 3, ['(', ')']⟩ rfl).1 (by decide),
    (hrests 3 ⟨4, 4, []⟩ rfl).2 (by decide)⟩

end Store

end Peg
