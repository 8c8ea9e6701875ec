import Jungle.Printf.Integers
import Mathlib.Data.List.TakeWhile

/-!
# Reading numerals back

`readBack` reads what `format_integer` outputs: blanks, a sign, the prefix of base 16, digits in which
commas do not count, blanks. It gives the number and how many digits there are.
`readBack_outputInteger` says that it reads the digits in the buffer, with the zeros of the padding.
-/

set_option autoImplicit false
set_option relaxedAutoImplicit false

namespace Jungle.Printf

open Jungle.Lib

/-! ### The reader -/

/-- A sign, `true` for `-`. -/
def takeSign : List Char → Bool × List Char
  | '-' :: rest => (true, rest)
  | '+' :: rest => (false, rest)
  | rest => (false, rest)

/-- The prefix of base 16 is dropped. -/
def dropPrefix (b : IntegerBase) : List Char → List Char
  | '0' :: x :: rest => if b.x = some x then rest else '0' :: x :: rest
  | rest => rest

/-- Digits without the commas, from the highest one on. -/
def readDigits (b : IntegerBase) (chars : List Char) : Option (List ℕ) :=
  (chars.filter (· ≠ ',')).mapM b.digits.idxOf?

/-- A magnitude with its sign. -/
def signed (negative : Bool) (magnitude : ℕ) : ℤ := if negative then -magnitude else magnitude

/-- The number that is output, and the number of its digits. -/
def readBack (b : IntegerBase) (output : List Char) : Option (ℤ × ℕ) := do
  let (negative, rest) := takeSign (output.dropWhile (· = ' '))
  let rest := dropPrefix b rest
  if (rest.dropWhile (· ≠ ' ')).all (· = ' ') then
    let ds ← readDigits b (rest.takeWhile (· ≠ ' '))
    return (signed negative (Nat.ofDigits b.base ds.reverse), ds.length)
  else none

variable {b : IntegerBase} {c : PrintfConversion} {buf : Buffer} {chars rest : List Char} {ds : List ℕ}

/-! ### Digits -/

theorem idxOf?_digit (hb : b.Legible) {d : ℕ} (hd : d < b.base) : b.digits.idxOf? (b.digit d) = some d := by
  have hlt : d < b.digits.length := by rw [b.length_digits]; exact hd
  have hdigit : b.digit d = b.digits[d] := by
    unfold IntegerBase.digit
    simp only [List.get_eq_getElem, Nat.mod_eq_of_lt hd]
  rw [hdigit, List.idxOf?_eq_some_iff]
  refine ⟨hlt, rfl, fun j hj heq ↦ ?_⟩
  have hplace := hb.nodup.getElem_inj_iff.mp heq
  omega

theorem mapM_idxOf?_digit (hb : b.Legible) (hds : ∀ d ∈ ds, d < b.base) :
    (ds.map b.digit).mapM b.digits.idxOf? = some ds := by
  induction ds with
  | nil => rfl
  | cons d ds ih =>
    rw [List.map_cons, List.mapM_cons, idxOf?_digit hb (hds d List.mem_cons_self),
      ih fun d hd ↦ hds d (List.mem_cons_of_mem _ hd)]
    rfl

/-- Digits with commas, read from the highest one on. -/
theorem readDigits_eq (hb : b.Legible) (hds : ∀ d ∈ ds, d < b.base)
    (hchars : chars.filter (· ≠ ',') = ds.map b.digit) : readDigits b chars.reverse = some ds.reverse := by
  unfold readDigits
  rw [List.filter_reverse, hchars, ← List.map_reverse]
  exact mapM_idxOf?_digit hb fun d hd ↦ hds d (List.mem_reverse.mp hd)

/-! ### What the reader skips -/

/-- Characters of digits in groups. -/
def IsDigits (b : IntegerBase) (chars : List Char) : Prop := ∀ ch ∈ chars, ch = ',' ∨ ch ∈ b.digits

theorem IsDigits.ne_blank (hb : b.Legible) (h : IsDigits b chars) : ∀ ch ∈ chars, ch ≠ ' ' := by
  rintro ch hch rfl
  obtain hcomma | hdigit := h _ hch
  · exact absurd hcomma (by decide)
  · exact hb.plain _ hdigit (by decide)

theorem IsDigits.ne_sign (hb : b.Legible) (h : IsDigits b chars) : ∀ ch ∈ chars, ch ≠ '-' ∧ ch ≠ '+' := by
  intro ch hch
  constructor <;> rintro rfl
  all_goals
    obtain hcomma | hdigit := h _ hch
    · exact absurd hcomma (by decide)
    · exact hb.plain _ hdigit (by decide)

/-- No digit is the letter of the prefix. -/
theorem dropPrefix_of_isDigits (hb : b.Legible) (h : IsDigits b chars) (after : ℕ) :
    dropPrefix b (chars ++ List.replicate after ' ') = chars ++ List.replicate after ' ' := by
  unfold dropPrefix
  split
  · next x rest heq =>
    split_ifs with hx
    · exfalso
      have hplain := hb.x x hx
      have hmem : x ∈ (chars ++ List.replicate after ' ').tail := by rw [heq]; exact List.mem_cons_self
      obtain hchars | hblank := List.mem_append.mp (List.mem_of_mem_tail hmem)
      · obtain rfl | hdigit := h x hchars
        · exact hplain.1 (by decide)
        · exact hplain.2 hdigit
      · obtain rfl := List.eq_of_mem_replicate hblank
        exact hplain.1 (by decide)
    · exact heq.symm
  · rfl

/-- Blanks in front of something else or of nothing. -/
theorem dropWhile_blanks (chars : List Char) (before after : ℕ) (hchars : ∀ ch ∈ chars.head?, ch ≠ ' ') :
    ∃ after', (List.replicate before ' ' ++ (chars ++ List.replicate after ' ')).dropWhile (· = ' ') =
      chars ++ List.replicate after' ' ' := by
  rw [List.dropWhile_append_of_pos (by simp)]
  cases chars with
  | nil => exact ⟨0, by simp⟩
  | cons ch chars =>
    refine ⟨after, ?_⟩
    rw [List.cons_append, List.dropWhile_cons_of_neg (by simpa using hchars ch rfl)]

/-- Anything else is not taken for a sign. -/
theorem takeSign_of_head? (hchars : ∀ ch ∈ chars.head?, ch ≠ '-' ∧ ch ≠ '+') :
    takeSign chars = (false, chars) := by
  unfold takeSign
  split
  · exact absurd rfl (hchars '-' rfl).1
  · exact absurd rfl (hchars '+' rfl).2
  · rfl

/-- The reader behind the sign. -/
theorem readBack_aux (hb : b.Legible) {prefixChars : List Char} {output : List Char} {negative : Bool}
    {after : ℕ} (hds : ∀ d ∈ ds, d < b.base) (hchars : IsDigits b chars)
    (hfilter : chars.filter (· ≠ ',') = ds.map b.digit)
    (hlead : prefixChars = [] ∨ ∃ x, b.x = some x ∧ prefixChars = ['0', x])
    (hsign : takeSign (output.dropWhile (· = ' ')) =
      (negative, prefixChars ++ chars.reverse ++ List.replicate after ' ')) :
    readBack b output = some (signed negative (Nat.ofDigits b.base ds), ds.length) := by
  have hreverse : IsDigits b chars.reverse := fun ch hch ↦ hchars ch (List.mem_reverse.mp hch)
  have hdrop : dropPrefix b (prefixChars ++ chars.reverse ++ List.replicate after ' ') =
      chars.reverse ++ List.replicate after ' ' := by
    obtain rfl | ⟨x, hx, rfl⟩ := hlead
    · exact dropPrefix_of_isDigits hb hreverse after
    · simp [dropPrefix, hx]
  have hblank := hreverse.ne_blank hb
  have htake : (chars.reverse ++ List.replicate after ' ').takeWhile (· ≠ ' ') = chars.reverse := by
    rw [List.takeWhile_append_of_pos fun ch hch ↦ by simpa using hblank ch hch]
    cases after <;> simp [List.replicate_succ]
  have hrest : (chars.reverse ++ List.replicate after ' ').dropWhile (· ≠ ' ') =
      List.replicate after ' ' := by
    rw [List.dropWhile_append_of_pos fun ch hch ↦ by simpa using hblank ch hch]
    cases after <;> simp [List.replicate_succ]
  unfold readBack
  dsimp only [Bind.bind]
  rw [hsign]
  dsimp only
  rw [hdrop, htake, hrest, if_pos (List.all_eq_true.mpr fun ch hch ↦ by simpa using List.eq_of_mem_replicate hch),
    readDigits_eq hb hds hfilter, Option.bind_some, List.reverse_reverse, List.length_reverse]
  rfl

/-! ### The output -/

/-- The number of characters without the padding. -/
def bodyLength (sign x : Option Char) (buf : Buffer) : ℕ :=
  buf.chars.length + (if x.isSome then 2 else 0) + if sign.isSome then 1 else 0

/-- The `pad_cnt` of `format_integer`. -/
def padding (sign x : Option Char) (buf : Buffer) (c : PrintfConversion) : ℕ :=
  (int32 (c.width - bodyLength sign x buf)).toNat

/-- The prefix of base 16 in the output. -/
def prefixChars (x : Option Char) : List Char := x.elim [] fun x ↦ ['0', x]

/-- How the output is laid out: blanks, the sign, the prefix, zeros, the buffer and blanks, one of the
paddings at least being there. -/
theorem outputInteger_eq (sign x : Option Char) (buf : Buffer) (c : PrintfConversion) :
    ∃ before zeros after, outputInteger sign x buf c = List.replicate before ' ' ++
        (sign.toList ++ (prefixChars x ++ (buf.chars ++ List.replicate zeros '0').reverse ++
          List.replicate after ' ')) ∧
      (.zero ∉ c.flags → zeros = 0) ∧ padding sign x buf c ≤ before + zeros + after ∧
      (padding sign x buf c = 0 → before + zeros + after = 0) := by
  have hcnt : ∀ n : ℤ, (if n < 0 then 0 else n).toNat = n.toNat := by
    intro n
    split <;> omega
  have hpad : c.width - buf.chars.length - (if x.isSome then 2 else 0) - (if sign.isSome then 1 else 0) =
      c.width - bodyLength sign x buf := by
    unfold bodyLength
    split_ifs <;> push_cast <;> omega
  have hempty : ∀ ch : Char, ([] : List Char) = List.replicate 0 ch := fun _ ↦ rfl
  refine ⟨if .minus ∉ c.flags ∧ .zero ∉ c.flags then padding sign x buf c else 0,
    if .zero ∈ c.flags then padding sign x buf c else 0,
    if .minus ∈ c.flags then padding sign x buf c else 0, ?_, fun hzero ↦ if_neg hzero, ?_, ?_⟩
  · unfold outputInteger outputDup
    simp only [hcnt, hpad]
    rw [List.reverse_append, List.reverse_replicate]
    split_ifs <;> simp only [padding, prefixChars, List.replicate_zero]
  · split_ifs <;> first | omega | simp_all
  · intro hzero
    simp [hzero]

/-- The reader gets the digits in the buffer, whatever the padding. -/
theorem readBack_outputInteger (hb : b.Legible) {sign x : Option Char} (hds : ∀ d ∈ ds, d < b.base)
    (hchars : IsDigits b buf.chars) (hfilter : buf.chars.filter (· ≠ ',') = ds.map b.digit)
    (hx : x = none ∨ x = b.x) (hsign : ∀ ch ∈ sign, ch ∈ ['-', '+', ' ']) :
    ∃ zeros, readBack b (outputInteger sign x buf c) =
        some (signed (sign = some '-') (Nat.ofDigits b.base ds), ds.length + zeros) ∧
      (.zero ∉ c.flags → zeros = 0) := by
  obtain ⟨before, zeros, after, hout, hzeros, -, -⟩ := outputInteger_eq sign x buf c
  refine ⟨zeros, ?_, hzeros⟩
  have hbase : 0 < b.base := Nat.zero_lt_of_lt b.one_lt_base
  have hds' : ∀ d ∈ ds ++ List.replicate zeros 0, d < b.base := by
    intro d hd
    obtain hd | hd := List.mem_append.mp hd
    · exact hds d hd
    · exact (List.eq_of_mem_replicate hd).symm ▸ hbase
  have hchars' : IsDigits b (buf.chars ++ List.replicate zeros '0') := by
    intro ch hch
    obtain hch | hch := List.mem_append.mp hch
    · exact hchars ch hch
    · rw [List.eq_of_mem_replicate hch, ← hb.zero]
      exact Or.inr (b.digit_mem 0)
  have hfilter' : (buf.chars ++ List.replicate zeros '0').filter (· ≠ ',') =
      (ds ++ List.replicate zeros 0).map b.digit := by
    rw [List.filter_append, hfilter, List.map_append, List.map_replicate, hb.zero]
    simp
  have hlead : prefixChars x = [] ∨ ∃ ch, b.x = some ch ∧ prefixChars x = ['0', ch] := by
    cases x with
    | none => exact Or.inl rfl
    | some ch => exact Or.inr ⟨ch, (hx.resolve_left nofun).symm, rfl⟩
  have hcore : ∀ ch ∈ (prefixChars x ++ (buf.chars ++ List.replicate zeros '0').reverse).head?,
      ch ≠ ' ' ∧ ch ≠ '-' ∧ ch ≠ '+' := by
    intro ch hch
    obtain hnil | ⟨letter, -, hletter⟩ := hlead
    · rw [hnil, List.nil_append] at hch
      have hmem := List.mem_reverse.mp (List.mem_of_mem_head? hch)
      exact ⟨hchars'.ne_blank hb ch hmem, hchars'.ne_sign hb ch hmem⟩
    · rw [hletter] at hch
      obtain rfl := Option.some.inj hch
      decide
  have hread : ∀ negative after', takeSign ((outputInteger sign x buf c).dropWhile (· = ' ')) =
      (negative, prefixChars x ++ (buf.chars ++ List.replicate zeros '0').reverse ++
        List.replicate after' ' ') →
      readBack b (outputInteger sign x buf c) =
        some (signed negative (Nat.ofDigits b.base ds), ds.length + zeros) := by
    intro negative after' htake
    rw [readBack_aux hb hds' hchars' hfilter' hlead htake, List.length_append, List.length_replicate,
      Nat.ofDigits_append_replicate_zero]
  generalize prefixChars x ++ (buf.chars ++ List.replicate zeros '0').reverse = core at *
  have hunsigned : ∀ after', takeSign (core ++ List.replicate after' ' ') =
      (false, core ++ List.replicate after' ' ') := by
    intro after'
    refine takeSign_of_head? fun ch hch ↦ ?_
    cases core with
    | nil =>
      obtain rfl := List.eq_of_mem_replicate (List.mem_of_mem_head? hch)
      decide
    | cons _ _ => exact (hcore ch hch).2
  obtain _ | ch := sign
  · obtain ⟨after', hdrop⟩ := dropWhile_blanks core before after fun ch hch ↦ (hcore ch hch).1
    refine hread false after' ?_
    rw [hout, Option.toList_none, List.nil_append, hdrop]
    exact hunsigned after'
  · have hcases := hsign ch rfl
    simp only [List.mem_cons, List.not_mem_nil, or_false] at hcases
    rw [Option.toList_some, List.singleton_append] at hout
    obtain rfl | rfl | rfl := hcases
    · obtain ⟨after', hdrop⟩ := dropWhile_blanks ('-' :: core) before after (by simp)
      refine hread true after' ?_
      rw [hout, ← List.cons_append, hdrop]
      rfl
    · obtain ⟨after', hdrop⟩ := dropWhile_blanks ('+' :: core) before after (by simp)
      refine hread false after' ?_
      rw [hout, ← List.cons_append, hdrop]
      rfl
    · obtain ⟨after', hdrop⟩ := dropWhile_blanks core (before + 1) after
        fun ch hch ↦ (hcore ch hch).1
      refine hread false after' ?_
      rw [hout, List.append_cons, ← List.replicate_succ', hdrop]
      exact hunsigned after'

end Jungle.Printf
