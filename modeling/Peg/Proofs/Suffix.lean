import Peg.Proofs.Derivation

/-!
# Matching looks at nothing but what is left

A match at a position depends on the characters from there on and on nothing else: not on those
before it, and not on how many there are. So a match may be moved to another text that goes on in
the same way. Past the end of a text nothing is left, and all positions past the end of all texts
are alike.

A derivation is moved clause by clause. Each match within it leads to a position where again the
same characters are left.

## Main results

* `Reaches.remaining_congr` — a match leads from alike positions to alike positions
* `Derives.of_remaining_eq` — what is derived depends on what is left
* `Store.matchAt_eq_of_remaining_eq` — so does a match, with its content and its log
* `Store.matchAt_suffix` — a match at a position is a match of the rest of the text from its start
-/

namespace Peg

variable {store : Store} {x y : Array Char} {p q : Nat}

/-! ### Positions at which the same is left -/

/-- A match leads from positions at which the same is left to positions at which the same is
left. -/
theorem Reaches.remaining_congr {n : Nat} (h : Reaches x p (p + n))
    (hpq : remaining x p = remaining y q) : remaining x (p + n) = remaining y (q + n) := by
  rcases h with hstay | ⟨-, hsize⟩
  · -- Past the end of `x` only this case is possible.
    obtain rfl : n = 0 := by omega
    exact hpq
  · have hp : p ≤ x.size := by omega
    rw [remaining_of_le hp] at hpq
    obtain ⟨hq, hdrop⟩ := remaining_eq_some_iff.mp hpq.symm
    have hlength := congrArg List.length hdrop
    simp only [List.length_drop, Array.length_toList] at hlength
    have hsize' : q + n ≤ y.size := by omega
    rw [remaining_of_le hsize, remaining_of_le hsize', ← List.drop_drop, ← List.drop_drop, hdrop]

/-- What is left at a position is the whole of the text that begins there. -/
theorem remaining_extract (h : p ≤ x.size) : remaining (x.extract p) 0 = remaining x p := by
  rw [remaining_of_le h, remaining_of_le (Nat.zero_le _)]
  simp [List.extract_eq_take_drop]

/-- Outcomes at positions where the same is left have the same content if they say the same. -/
theorem Outcome.SpansAt.eq_of_remaining_eq {o o' : Outcome} (h : o.SpansAt x p)
    (h' : o'.SpansAt y q) (hpq : remaining x p = remaining y q) (hv : o.verdict = o'.verdict) :
    o = o' := by
  cases hm : o.matched with
  | false =>
    have hm' := verdict_eq_fail_iff.mp (hv ▸ verdict_eq_fail_iff.mpr hm)
    rw [h.eq_noMatch hm, h'.eq_noMatch hm']
  | true =>
    obtain ⟨hm', hlength⟩ := verdict_eq_consumed_iff.mp (hv.symm.trans (verdict_of_matched hm))
    apply Outcome.ext (hm.trans hm'.symm) hlength.symm
    -- Each content is a stretch of its own text, of the same length.
    rw [h.content_eq, h'.content_eq, hlength]
    by_cases hp : p ≤ x.size
    · rw [remaining_of_le hp] at hpq
      obtain ⟨-, hdrop⟩ := remaining_eq_some_iff.mp hpq.symm
      rw [hdrop]
    · have hstay := h.reaches.eq_of_size_lt (by omega)
      have hzero : o.length = 0 := by omega
      rw [hzero, List.take_zero, List.take_zero]

/-! ### Derivations and matches -/

/-- What is derived depends on nothing but what is left. -/
theorem Derives.of_remaining_eq {rule : Rule} {v : Verdict} {log : List Miss}
    (h : Derives store x rule p v log) (hpq : remaining x p = remaining y q) :
    Derives store y rule q v log := by
  induction h generalizing q with
  -- The first clauses speak of nothing but what is left.
  | char h => exact .char (hpq ▸ h)
  | char_fail h => exact .char_fail (hpq ▸ h)
  | range h hc => exact .range (hpq ▸ h) hc
  | range_fail h => exact .range_fail (hpq ▸ h)
  | string h => exact .string (hpq ▸ h)
  | string_fail h => exact .string_fail (hpq ▸ h)
  | seq_nil => exact .seq_nil
  | seq_cons h _ ih ih' => exact .seq_cons (ih hpq) (ih' (h.reaches.remaining_congr hpq))
  | seq_fail _ ih => exact .seq_fail (ih hpq)
  | pair h _ ih ih' => exact .pair (ih hpq) (ih' (h.reaches.remaining_congr hpq))
  | pair_fail _ ih => exact .pair_fail (ih hpq)
  | choice_nil => exact .choice_nil
  | choice_head _ ih => exact .choice_head (ih hpq)
  | choice_tail _ _ ih ih' => exact .choice_tail (ih hpq) (ih' hpq)
  | not _ ih => exact .not (ih hpq)
  | not_fail _ ih => exact .not_fail (ih hpq)
  | star_fail _ ih => exact .star_fail (ih hpq)
  | star_empty _ ih => exact .star_empty (ih hpq)
  | star_more hn h _ ih ih' =>
    exact .star_more hn (ih hpq) (ih' (h.reaches.remaining_congr hpq))
  | plus _ _ ih ih' => exact .plus (ih hpq) (ih' hpq)
  | plus_fail _ ih => exact .plus_fail (ih hpq)
  | opt _ ih => exact .opt (ih hpq)
  | opt_fail _ ih => exact .opt_fail (ih hpq)
  | ref hres _ ih => exact .ref hres (ih hpq)
  | ref_miss hres => exact .ref_miss hres

namespace Store

/-- Where the same is left, a match that ends in one text ends in the other and answers the same. -/
theorem matchAt_le_of_remaining_eq (store : Store) (rule : Rule)
    (hpq : remaining x p = remaining y q) : store.matchAt rule x p ≤ store.matchAt rule y q := by
  cases hrun : store.matchAt rule x p with
  | endless => exact Run.endless_le _
  | ends o log =>
    -- The derivation is moved to the other text, and there it is a match again.
    have hderived := (derives_of_matchAt hrun).of_remaining_eq hpq
    obtain ⟨o', ho', hv⟩ := hderived.exists_matchAt
    have hspan := (store.matchAt_spansAt rule x p).of_ends hrun
    have hspan' := (store.matchAt_spansAt rule y q).of_ends ho'
    rw [ho', hspan.eq_of_remaining_eq hspan' hpq hv.symm]

/-- A match depends on nothing but what is left of the text. -/
theorem matchAt_eq_of_remaining_eq (store : Store) (rule : Rule)
    (hpq : remaining x p = remaining y q) : store.matchAt rule x p = store.matchAt rule y q :=
  le_antisymm (store.matchAt_le_of_remaining_eq rule hpq)
    (store.matchAt_le_of_remaining_eq rule hpq.symm)

/-- A match at a position of a text is a match of the rest of the text from its start, with the same
outcome and the same log, or both have no end. So texts that go on in the same way have the same
matches from there on; and past their ends all texts have the same matches. -/
theorem matchAt_suffix (store : Store) (rule : Rule) :
    (∀ (x : Array Char) (p : Nat), p ≤ x.size →
      store.matchAt rule x p = store.matchAt rule (x.extract p) 0) ∧
    (∀ (x y : Array Char) (p q : Nat), p ≤ x.size → q ≤ y.size → x.extract p = y.extract q →
      store.matchAt rule x p = store.matchAt rule y q) ∧
    (∀ (x y : Array Char) (p q : Nat), x.size < p → y.size < q →
      store.matchAt rule x p = store.matchAt rule y q) := by
  refine ⟨?_, ?_, ?_⟩
  · intro x p hp
    exact store.matchAt_eq_of_remaining_eq rule (remaining_extract hp).symm
  · intro x y p q hp hq hxy
    have hpq : remaining x p = remaining y q := by
      rw [← remaining_extract hp, hxy, remaining_extract hq]
    exact store.matchAt_eq_of_remaining_eq rule hpq
  · intro x y p q hp hq
    have hpq : remaining x p = remaining y q := by
      rw [remaining_of_lt hp, remaining_of_lt hq]
    exact store.matchAt_eq_of_remaining_eq rule hpq

/-- A match in the middle of a text is one of its rest, together with the reference into a grammar
that is gone; and two positions past the ends of different texts are alike. -/
theorem matchAt_suffix_nested :
    (1 ≤ 5 ∧ nested.matchAt (.seq [.opt (.ref ⟨1, "gone"⟩), .ref ⟨0, "nested"⟩])
        #['a', '(', '(', ')', ')'] 1 =
      nested.matchAt (.seq [.opt (.ref ⟨1, "gone"⟩), .ref ⟨0, "nested"⟩])
        (#['a', '(', '(', ')', ')'].extract 1) 0) ∧
    (2 < 7 ∧ 1 < 3 ∧ nested.matchAt (.star (.ref ⟨1, "gone"⟩)) #['(', ')'] 7 =
      nested.matchAt (.star (.ref ⟨1, "gone"⟩)) #['b'] 3) :=
  ⟨⟨by decide, (matchAt_suffix nested _).1 _ 1 (by decide)⟩,
    by decide, by decide, (matchAt_suffix nested _).2.2 _ _ 7 3 (by decide) (by decide)⟩

end Store

end Peg
