import Mathlib.Data.List.Basic
import Peg.Text.Quoted

/-!
# Taking written forms apart into tokens

The written form of a rule is a row of tokens: marks, the gaps within parentheses, and the forms of
characters, ranges, strings and names. Where one token ends can be told from what is written, though
not from the token alone. A backslash between apostrophes is the beginning of an apostrophe between
apostrophes, the form of a character is the beginning of that of a range, and any beginning of a
name is a name. What follows decides these cases, as no two of the longer tokens stand side by side.

In strings some characters are written by their numbers. Which ones does not matter.

## Main definitions

* `Token` — the tokens of written forms
* `Token.text` — the text of a token
* `Token.lex` — the first token of a text, and the text after it
* `Token.Readable` — a row of tokens that can be taken apart

## Main results

* `Token.lex_text` — the first token is found again
* `Token.eq_of_flatMap_text_eq` — rows of tokens with the same text are the same
-/

namespace Peg

namespace Text

/-! ### Characters in strings -/

/-- The value of a hexadecimal digit. -/
def hexDigit (digit : Char) : Nat := "0123456789abcdef".toList.idxOf digit

/-- The number that is given by hexadecimal digits after those of `sofar`. -/
def hexNumber (sofar : Nat) (digits : List Char) : Nat :=
  digits.foldl (fun n digit => 16 * n + hexDigit digit) sofar

theorem hexDigit_digitChar : ∀ n < 16, hexDigit n.digitChar = n := by decide

theorem digitChar_ne_brace : ∀ n < 16, n.digitChar ≠ '\x7d' := by decide

theorem hexNumber_toDigits (n : Nat) : hexNumber 0 (Nat.toDigits 16 n) = n := by
  induction n using Nat.strongRecOn with
  | ind n ih =>
    rcases Nat.lt_or_ge n 16 with hlt | hge
    · rw [Nat.toDigits_of_lt_base hlt]
      simp [hexNumber, hexDigit_digitChar n hlt]
    · -- The digits before the last one are those of a smaller number.
      have hmod : n % 16 < 16 := Nat.mod_lt n (by decide)
      have hdiv : hexNumber 0 (Nat.toDigits 16 (n / 16)) = n / 16 := ih _ (by omega)
      rw [hexNumber] at hdiv
      rw [Nat.toDigits_of_base_le (by decide) hge, hexNumber, List.foldl_append, hdiv]
      simp [hexDigit_digitChar _ hmod]
      omega

theorem notMem_toDigits {c : Char} (hc : ∀ n < 16, n.digitChar ≠ c) (n : Nat) :
    c ∉ Nat.toDigits 16 n := by
  induction n using Nat.strongRecOn with
  | ind n ih =>
    rcases Nat.lt_or_ge n 16 with hlt | hge
    · rw [Nat.toDigits_of_lt_base hlt, List.mem_singleton]
      exact (hc n hlt).symm
    · have hmod : n % 16 < 16 := Nat.mod_lt n (by decide)
      rw [Nat.toDigits_of_base_le (by decide) hge, List.mem_append, List.mem_singleton]
      exact not_or.mpr ⟨ih _ (by omega), (hc _ hmod).symm⟩

/-- The form of a character within a string, if those that `unprintable` accepts have no glyph. -/
def escapedBy (unprintable : Char → Bool) (c : Char) : List Char :=
  match c with
  | '\x00' => ['\\', '0']
  | '\t' => ['\\', 't']
  | '\r' => ['\\', 'r']
  | '\n' => ['\\', 'n']
  | '\x22' => ['\\', '\x22']
  | '\\' => ['\\', '\\']
  | c => if unprintable c then byNumber c else [c]

/-- Read the characters of a string up to the closing quote. If a number is given, the digits of one
are being read, and those before gave that number. -/
def readString : Option Nat → List Char → Option (List Char × List Char)
  | none, '\x22' :: k => some ([], k)
  | none, '\\' :: '0' :: k => push '\x00' (readString none k)
  | none, '\\' :: 't' :: k => push '\t' (readString none k)
  | none, '\\' :: 'r' :: k => push '\r' (readString none k)
  | none, '\\' :: 'n' :: k => push '\n' (readString none k)
  | none, '\\' :: '\x22' :: k => push '\x22' (readString none k)
  | none, '\\' :: '\\' :: k => push '\\' (readString none k)
  | none, '\\' :: 'u' :: '\x7b' :: k => readString (some 0) k
  | none, c :: k => push c (readString none k)
  | some n, '\x7d' :: k => push (Char.ofNat n) (readString none k)
  | some n, digit :: k => readString (some (16 * n + hexDigit digit)) k
  | _, [] => none
where
  /-- The result with one more character in front. -/
  push (c : Char) : Option (List Char × List Char) → Option (List Char × List Char) :=
    Option.map fun result => (c :: result.1, result.2)

theorem readString_digits (n : Nat) (digits k : List Char) (h : '\x7d' ∉ digits) :
    readString (some n) (digits ++ k) = readString (some (hexNumber n digits)) k := by
  induction digits generalizing n with
  | nil => rfl
  | cons digit rest ih =>
    rw [List.mem_cons, not_or] at h
    rw [List.cons_append, readString]
    · exact ih _ h.2
    · exact fun heq => h.1 heq.symm

theorem readString_byNumber (c : Char) (k : List Char) :
    readString none (byNumber c ++ k) = readString.push c (readString none k) := by
  have hread : byNumber c ++ k =
      '\\' :: 'u' :: '\x7b' :: (Nat.toDigits 16 c.toNat ++ '\x7d' :: k) := by simp [byNumber]
  rw [hread, readString, readString_digits _ _ _ (notMem_toDigits digitChar_ne_brace _),
    hexNumber_toDigits, readString, Char.ofNat_toNat]

theorem readString_escapedBy (unprintable : Char → Bool) (c : Char) (k : List Char) :
    readString none (escapedBy unprintable c ++ k) = readString.push c (readString none k) := by
  unfold escapedBy
  split
  · rfl
  · rfl
  · rfl
  · rfl
  · rfl
  · rfl
  · split
    · exact readString_byNumber c k
    · -- Only quotes and backslashes are special, and these have forms of their own.
      rw [List.singleton_append, readString] <;> simp_all

theorem readString_flatMap (unprintable : Char → Bool) (chars k : List Char) :
    readString none (chars.flatMap (escapedBy unprintable) ++ '\x22' :: k) = some (chars, k) := by
  induction chars with
  | nil => rfl
  | cons c rest ih =>
    rw [List.flatMap_cons, List.append_assoc, readString_escapedBy, ih]
    rfl

/-! ### Single characters -/

/-- Read a character between apostrophes after the first of them. -/
def readQuoted : List Char → Option (Char × List Char)
  | '\\' :: 't' :: '\x27' :: k => some ('\t', k)
  | '\\' :: 'r' :: '\x27' :: k => some ('\r', k)
  | '\\' :: 'n' :: '\x27' :: k => some ('\n', k)
  | '\\' :: '\x27' :: '\x27' :: k => some ('\x27', k)
  -- From here on a backslash stands for itself.
  | c :: '\x27' :: k => some (c, k)
  | _ => none

/-- What follows tells a backslash between apostrophes from an apostrophe. -/
theorem readQuoted_body (c : Char) {k : List Char} (hk : k.head? ≠ some '\x27') :
    readQuoted (quotedChar.body c ++ '\x27' :: k) = some (c, k) := by
  unfold quotedChar.body
  split
  · rfl
  · rfl
  · rfl
  · rfl
  · rw [List.singleton_append, readQuoted]
    all_goals simp
    intro rest _ heq
    exact hk (by rw [heq]; rfl)

/-- The characters of which names are made. -/
def isWordChar (c : Char) : Bool := c.isAlphanum || c == '_'

end Text

open Text

/-! ### Tokens -/

/-- The tokens of which written forms are made. -/
inductive Token where
  /-- The mark before what must not match. -/
  | bang
  /-- The beginning of a sequence or a choice. -/
  | left
  /-- The end of a sequence or a choice. -/
  | right
  /-- What stands between the parts of a sequence. -/
  | gap
  /-- What stands between the alternatives of a choice. -/
  | bar
  /-- The mark after what may be repeated, or left out. -/
  | star
  /-- The mark after what may be repeated. -/
  | plus
  /-- The mark after what may be left out. -/
  | opt
  /-- A character. -/
  | char (c : Char)
  /-- A range of characters. -/
  | range (low high : Char)
  /-- A string. -/
  | string (chars : List Char)
  /-- A name. -/
  | word (name : String)

namespace Token

variable {unprintable : Char → Bool} {t u : Token} {k : List Char}

/-- The text of a token, if the characters that `unprintable` accepts have no glyph. -/
def text (unprintable : Char → Bool) : Token → List Char
  | .bang => ['!']
  | .left => ['(']
  | .right => [')']
  | .gap => [' ']
  | .bar => [' ', '/', ' ']
  | .star => ['*']
  | .plus => ['+']
  | .opt => ['?']
  | .char c => quotedChar c
  | .range low high => quotedChar low ++ ['.', '.'] ++ quotedChar high
  | .string chars => '\x22' :: chars.flatMap (escapedBy unprintable) ++ ['\x22']
  | .word name => name.toList

/-- The token stands for something to be matched. -/
def IsAtom : Token → Prop
  | .char _ => True
  | .range _ _ => True
  | .string _ => True
  | .word _ => True
  | _ => False

/-- A name consists of letters, digits and underscores, at least one of them. -/
def IsPlain : Token → Prop
  | .word name => name.toList ≠ [] ∧ ∀ c ∈ name.toList, isWordChar c = true
  | _ => True

/-! ### The first token -/

/-- Read a range if it goes on after its lower bound. Otherwise this is a character. -/
def charOrRange (low : Char) : List Char → Option (Token × List Char)
  | '.' :: '.' :: '\x27' :: k => (readQuoted k).map fun (high, k) => (.range low high, k)
  | k => some (.char low, k)

/-- Read a token that is not a name. Its first character is given. -/
def lexMark : Char → List Char → Option (Token × List Char)
  | '!', k => some (.bang, k)
  | '(', k => some (.left, k)
  | ')', k => some (.right, k)
  -- A gap is the beginning of this mark, so the mark comes first.
  | ' ', '/' :: ' ' :: k => some (.bar, k)
  | ' ', k => some (.gap, k)
  | '*', k => some (.star, k)
  | '+', k => some (.plus, k)
  | '?', k => some (.opt, k)
  | '\x22', k => (readString none k).map fun (chars, k) => (.string chars, k)
  | '\x27', k => (readQuoted k).bind fun (c, k) => charOrRange c k
  | _, _ => none

/-- Read the first token of a text. -/
def lex : List Char → Option (Token × List Char)
  | [] => none
  | c :: k =>
    if isWordChar c then
      some (.word (String.ofList ((c :: k).takeWhile isWordChar)), (c :: k).dropWhile isWordChar)
    else
      lexMark c k

/-- What follows the token does not seem to belong to it. -/
def EndsBefore (k : List Char) : Token → Prop
  | .gap => k.head? ≠ some '/'
  | .char _ => k.head? ≠ some '\x27' ∧ k.head? ≠ some '.'
  | .range _ _ => k.head? ≠ some '\x27'
  | .word _ => ∀ c ∈ k.head?, isWordChar c = false
  | _ => True

theorem lex_word {name : String} (hplain : (Token.word name).IsPlain)
    (hk : (Token.word name).EndsBefore k) : lex (name.toList ++ k) = some (.word name, k) := by
  obtain ⟨hne, hword⟩ := hplain
  have hstop : k.takeWhile isWordChar = [] ∧ k.dropWhile isWordChar = k := by
    cases k with
    | nil => exact ⟨rfl, rfl⟩
    | cons c rest =>
      have hc : isWordChar c = false := hk c rfl
      simp [hc]
  have htake : (name.toList ++ k).takeWhile isWordChar = name.toList := by
    rw [List.takeWhile_append_of_pos hword, hstop.1, List.append_nil]
  have hdrop : (name.toList ++ k).dropWhile isWordChar = k := by
    rw [List.dropWhile_append_of_pos hword, hstop.2]
  obtain ⟨c, rest, hname⟩ := List.exists_cons_of_ne_nil hne
  rw [hname, List.cons_append] at htake hdrop ⊢
  rw [lex, if_pos (hword c (by simp [hname])), htake, hdrop, ← hname, String.ofList_toList]

theorem lex_quote (k : List Char) : lex ('\x27' :: k) = lexMark '\x27' k := rfl

/-- The first token of a text is found again if it ends before what follows. -/
theorem lex_text (hplain : t.IsPlain) (hk : t.EndsBefore k) :
    lex (t.text unprintable ++ k) = some (t, k) := by
  cases t with
  | bang => rfl
  | left => rfl
  | right => rfl
  | gap =>
    have hread : lex ([' '] ++ k) = lexMark ' ' k := rfl
    rw [text, hread, lexMark]
    rintro rest rfl
    exact hk rfl
  | bar => rfl
  | star => rfl
  | plus => rfl
  | opt => rfl
  | char c =>
    have hread : quotedChar c ++ k = '\x27' :: (quotedChar.body c ++ '\x27' :: k) := by
      simp [quotedChar]
    rw [text, hread, lex_quote, lexMark, readQuoted_body c hk.1, Option.bind_some]
    dsimp only
    rw [charOrRange]
    rintro rest rfl
    exact hk.2 rfl
  | range low high =>
    have hread : quotedChar low ++ ['.', '.'] ++ quotedChar high ++ k =
        '\x27' :: (quotedChar.body low ++ '\x27' :: '.' :: '.' :: '\x27' ::
          (quotedChar.body high ++ '\x27' :: k)) := by
      simp [quotedChar]
    rw [text, hread, lex_quote, lexMark, readQuoted_body low (by simp), Option.bind_some]
    dsimp only
    rw [charOrRange, readQuoted_body high hk]
    rfl
  | string chars =>
    have hread : lex ('\x22' :: chars.flatMap (escapedBy unprintable) ++ ['\x22'] ++ k) =
        (readString none (chars.flatMap (escapedBy unprintable) ++ '\x22' :: k)).map
          fun (chars, k) => (.string chars, k) := by
      rw [List.append_assoc]
      rfl
    rw [text, hread, readString_flatMap]
    rfl
  | word name => exact lex_word hplain hk

/-! ### Rows of tokens -/

/-- The characters with which the marks begin. -/
def markChars : List Char := ['!', '(', ')', ' ', '*', '+', '?']

/-- A token begins with a mark, or it stands for something to be matched. -/
theorem exists_text_eq_cons (unprintable : Char → Bool) (hplain : t.IsPlain) :
    ∃ c rest, t.text unprintable = c :: rest ∧ c ≠ '/' ∧ (¬ t.IsAtom → c ∈ markChars) := by
  cases t with
  | char c => exact ⟨_, _, rfl, by decide, fun h => absurd trivial h⟩
  | range low high => exact ⟨_, _, rfl, by decide, fun h => absurd trivial h⟩
  | string chars => exact ⟨_, _, rfl, by decide, fun h => absurd trivial h⟩
  | word name =>
    obtain ⟨hne, hword⟩ := hplain
    obtain ⟨c, rest, hname⟩ := List.exists_cons_of_ne_nil hne
    refine ⟨c, rest, hname, ?_, fun h => absurd trivial h⟩
    rintro rfl
    have hslash := hword '/' (by simp [hname])
    exact absurd hslash (by decide)
  | _ => exact ⟨_, _, rfl, by decide, fun _ => by decide⟩

/-- The tokens can be told apart: names are names, and of two neighbours one is a mark. -/
structure Readable (ts : List Token) : Prop where
  plain : ∀ t ∈ ts, t.IsPlain
  apart : ts.IsChain fun t u => ¬ (t.IsAtom ∧ u.IsAtom)

theorem endsBefore_of_head? {k : List Char} (hslash : k.head? ≠ some '/')
    (h : t.IsAtom → ∀ c ∈ k.head?, c ∈ markChars) : t.EndsBefore k := by
  have hne : ∀ c, t.IsAtom → c ∉ markChars → k.head? ≠ some c := fun c ht hc heq =>
    hc (h ht c heq)
  cases t with
  | gap => exact hslash
  | char c => exact ⟨hne _ trivial (by decide), hne _ trivial (by decide)⟩
  | range low high => exact hne _ trivial (by decide)
  | word name =>
    intro c hc
    have hmarks : markChars.all (!isWordChar ·) = true := rfl
    have hc' := List.all_eq_true.mp hmarks c (h trivial c hc)
    rwa [Bool.not_eq_true'] at hc'
  | _ => trivial

theorem Readable.endsBefore {ts : List Token} (h : Readable (t :: ts)) :
    t.EndsBefore (ts.flatMap (text unprintable)) := by
  cases ts with
  | nil => exact endsBefore_of_head? nofun nofun
  | cons u rest =>
    obtain ⟨c, chars, htext, hslash, hmark⟩ :=
      exists_text_eq_cons unprintable (h.plain u (by simp))
    rw [List.flatMap_cons, htext]
    apply endsBefore_of_head?
    · exact fun heq => hslash (Option.some.inj heq)
    · intro hatom c' hc'
      obtain rfl := Option.some.inj hc'
      have hapart := (List.isChain_cons_cons.mp h.apart).1
      exact hmark fun hatom' => hapart ⟨hatom, hatom'⟩

theorem Readable.tail {ts : List Token} (h : Readable (t :: ts)) : Readable ts where
  plain := fun u hu => h.plain u (List.mem_cons_of_mem t hu)
  apart := h.apart.of_cons

theorem Readable.lex_flatMap {ts : List Token} (h : Readable (t :: ts)) :
    lex ((t :: ts).flatMap (text unprintable)) = some (t, ts.flatMap (text unprintable)) := by
  rw [List.flatMap_cons]
  exact lex_text (h.plain t List.mem_cons_self) h.endsBefore

/-- Rows of tokens that have the same text are the same. -/
theorem eq_of_flatMap_text_eq {ts us : List Token} (hts : Readable ts) (hus : Readable us)
    (h : ts.flatMap (text unprintable) = us.flatMap (text unprintable)) : ts = us := by
  have hlex := congrArg lex h
  induction ts generalizing us with
  | nil =>
    cases us with
    | nil => rfl
    | cons u us =>
      rw [hus.lex_flatMap] at hlex
      cases hlex
  | cons t ts ih =>
    cases us with
    | nil =>
      rw [hts.lex_flatMap] at hlex
      cases hlex
    | cons u us =>
      -- Both texts have the same first token and the same rest.
      rw [hts.lex_flatMap, hus.lex_flatMap] at hlex
      obtain ⟨rfl, hrest⟩ := Prod.mk.inj (Option.some.inj hlex)
      rw [ih hts.tail hus.tail hrest (congrArg lex hrest)]

end Token

end Peg
