import Jungle.Printf.Basic
import Mathlib.Data.Finset.Basic
import Mathlib.Data.Fintype.Basic

/-!
# Integer conversions

A `Directive` is an integer conversion of a format as one writes it: flags, a field width and a
precision, given as a numeral or as the argument of a `*`, a length modifier, the conversion character
and the argument. `text` is its part of the format and `args` its arguments. `parseConversion_text`
says what the kernel makes of it.
-/

set_option autoImplicit false
set_option relaxedAutoImplicit false

namespace Jungle.Printf

open Jungle.Lib

/-! ### Directives -/

/-- The conversion characters of integers. -/
inductive IntegerConversion
  | d | i | o | u | x | X
  deriving DecidableEq

namespace IntegerConversion

def char : IntegerConversion → Char
  | d => 'd'
  | i => 'i'
  | o => 'o'
  | u => 'u'
  | x => 'x'
  | X => 'X'

def isSigned : IntegerConversion → Bool
  | d | i => true
  | o | u | x | X => false

def base : IntegerConversion → IntegerBase
  | d | i | u => baseD
  | o => baseO
  | x => baseX
  | X => baseUpperX

end IntegerConversion

/-- The character of a flag. -/
def Flag.char : Flag → Char
  | minus => '-'
  | plus => '+'
  | space => ' '
  | pound => '#'
  | zero => '0'
  | group => '\''

/-- The characters of a length modifier. -/
def ArgType.modifier : ArgType → List Char
  | char => ['h', 'h']
  | short => ['h']
  | int => []
  | intmax => ['j']
  | long => ['l']
  | longlong => ['l', 'l']
  | ptrdifft => ['t']
  | sizet => ['z']

/-- The number of bits of a type on the 64-bit target. -/
def ArgType.bits : ArgType → ℕ
  | char => 8
  | short => 16
  | int => 32
  | intmax | long | longlong | ptrdifft | sizet => 64

/-- The character of a decimal digit. -/
def digitChar (d : Fin 10) : Char := Char.ofNat ('0'.toNat + d)

/-- The number that decimal digits give behind those of `n`. -/
def decimal (n : ℕ) : List (Fin 10) → ℕ
  | [] => n
  | d :: digits => decimal (n * 10 + d.val) digits

/-- A field width or a precision, an `int`: a numeral, or the argument of a `*`. The empty numeral
is `0`. -/
inductive Amount
  | numeral (digits : List (Fin 10)) (le_intMax : decimal 0 digits ≤ intMax)
  | star (slot : Slot)

namespace Amount

def text : Amount → List Char
  | numeral digits _ => digits.map digitChar
  | star _ => ['*']

def args : Amount → List Slot
  | numeral _ _ => []
  | star slot => [slot]

/-- The `int`. -/
def value : Amount → ℤ
  | numeral digits _ => decimal 0 digits
  | star slot => intArg slot

/-- A numeral that starts with `0` is no width, since the `0` is a flag. -/
def IsWidth : Amount → Prop
  | numeral digits _ => digits.head? ≠ some 0
  | star _ => True

end Amount

/-- An integer conversion with its arguments. -/
structure Directive where
  flags : List Flag
  width : Amount
  isWidth : width.IsWidth
  precision : Option Amount
  type : ArgType
  conversion : IntegerConversion
  slot : Slot

namespace Directive

/-- The options of the conversion. -/
def options (d : Directive) : List Char :=
  d.flags.map Flag.char ++ (d.width.text ++ (d.precision.elim [] ('.' :: ·.text) ++ d.type.modifier))

/-- The conversion in a format. -/
def text (d : Directive) : List Char := '%' :: (d.options ++ [d.conversion.char])

/-- The arguments the conversion takes. -/
def args (d : Directive) : List Slot :=
  d.width.args ++ (d.precision.elim [] Amount.args ++ [d.slot])

/-- The argument's value, in its type. -/
def value (d : Directive) : ℤ :=
  if d.conversion.isSigned then (d.slot.setWidth d.type.bits).toInt
  else (d.slot.setWidth d.type.bits).toNat

/-- The field width asked for; a negative argument is a `-` flag and a width. -/
def requestedWidth (d : Directive) : ℕ := d.width.value.natAbs

/-- The precision asked for; a negative argument is none. -/
def requestedPrecision (d : Directive) : Option ℕ :=
  d.precision.bind fun p ↦ if p.value < 0 then none else some p.value.toNat

/-- The conversion that `parse_conversion` makes. -/
def parsed (d : Directive) : PrintfConversion :=
  let width := d.width.value
  let precision := d.requestedPrecision.elim (-1) fun p ↦ (p : ℤ)
  let flags := d.flags.toFinset
  let flags := if .minus ∈ flags then flags.erase .zero else flags
  let flags := if .plus ∈ flags then flags.erase .space else flags
  let flags := if width < 0 then insert .minus flags else flags
  let flags := if 0 ≤ precision then flags.erase .zero else flags
  { flags, width := if width < 0 then int32 (-width) else width, precision, type := d.type }

/-- What it keeps of what is written. -/
structure Parsed (d : Directive) (c : PrintfConversion) : Prop where
  type : c.type = d.type
  width : c.width = if d.width.value < 0 then int32 (-d.width.value) else d.width.value
  precision : c.precision = d.requestedPrecision.elim (-1) fun p ↦ (p : ℤ)
  plus : .plus ∈ c.flags ↔ .plus ∈ d.flags
  space : .space ∈ c.flags ↔ .space ∈ d.flags ∧ .plus ∉ d.flags
  pound : .pound ∈ c.flags ↔ .pound ∈ d.flags
  group : .group ∈ c.flags ↔ .group ∈ d.flags
  zero : .zero ∈ c.flags → d.requestedPrecision = none

end Directive

/-! ### Parsing -/

variable {format rest : List Char}

@[simp] theorem ofChar_char (flag : Flag) : Flag.ofChar flag.char = some flag := by cases flag <;> rfl

/-- Flags, up to a character that is none. -/
theorem parseFlags_append (flags : Finset Flag) (fs : List Flag) (hrest : ∀ ch ∈ rest.head?, Flag.ofChar ch = none) :
    parseFlags flags (fs.map Flag.char ++ rest) = (flags ∪ fs.toFinset, rest) := by
  induction fs generalizing flags with
  | nil =>
    obtain _ | ⟨ch, rest⟩ := rest
    · simp [parseFlags]
    · simp [parseFlags, hrest ch rfl]
  | cons flag fs ih =>
    simp only [List.map_cons, List.cons_append, parseFlags, ofChar_char, ih, List.toFinset_cons]
    rw [Finset.insert_union, Finset.union_insert]

theorem isdigit_digitChar (d : Fin 10) : isdigit (digitChar d) = true := by
  revert d
  decide

theorem toNat_digitChar (d : Fin 10) : (digitChar d).toNat = '0'.toNat + d := by
  revert d
  decide

/-- A character of `'1'` to `'9'` is no flag. -/
theorem ofChar_digitChar {d : Fin 10} (hd : d ≠ 0) : Flag.ofChar (digitChar d) = none := by
  revert d
  decide

theorem le_decimal (digits : List (Fin 10)) (n : ℕ) : n ≤ decimal n digits := by
  induction digits generalizing n with
  | nil => exact Nat.le_refl n
  | cons d digits ih =>
    have hnext := ih (n * 10 + d.val)
    rw [decimal]
    omega

/-- A numeral, up to a character that is no digit; the `int` does not overflow while it is read, as the
numbers on the way are not greater. -/
theorem parseDigits_append (digits : List (Fin 10)) (n : ℕ) (hle : decimal n digits ≤ intMax)
    (hrest : ∀ ch ∈ rest.head?, isdigit ch = false) :
    parseDigits n (digits.map digitChar ++ rest) = (((decimal n digits : ℕ) : ℤ), rest) := by
  induction digits generalizing n with
  | nil =>
    obtain _ | ⟨ch, rest⟩ := rest
    · rfl
    · simp [parseDigits, hrest ch rfl, decimal]
  | cons d digits ih =>
    have hstep : int32 (n * 10 + (digitChar d).toNat - '0'.toNat) = (n * 10 + d.val : ℕ) := by
      have hmax := le_decimal digits (n * 10 + d.val)
      rw [decimal] at hle
      rw [toNat_digitChar, int32_of_mem]
      · push_cast
        omega
      · unfold intMin
        omega
      · push_cast at *
        omega
    simp only [List.map_cons, List.cons_append, parseDigits, isdigit_digitChar, if_true, hstep]
    exact ih _ hle

/-- A numeral does not begin with a `*`. -/
theorem head?_numeral_ne_star (digits : List (Fin 10)) (hrest : ∀ ch ∈ rest.head?, ch ≠ '*') :
    ∀ ch ∈ (digits.map digitChar ++ rest).head?, ch ≠ '*' := by
  cases digits with
  | nil => exact hrest
  | cons d digits =>
    rintro ch ⟨⟩ heq
    have hdigit := isdigit_digitChar d
    rw [heq] at hdigit
    contradiction

/-- A field width. -/
theorem parseWidth_append (width : Amount) (args : List Slot)
    (hrest : ∀ ch ∈ rest.head?, isdigit ch = false ∧ ch ≠ '*') :
    parseWidth (width.text ++ rest) (width.args ++ args) = some (width.value, rest, args) := by
  cases width with
  | star slot => rfl
  | numeral digits hle =>
    have hparse := parseDigits_append digits 0 hle fun ch hch ↦ (hrest ch hch).1
    have hstar := head?_numeral_ne_star digits fun ch hch ↦ (hrest ch hch).2
    simp only [Amount.text, Amount.args, Amount.value, List.nil_append]
    rw [Int.ofNat_zero] at hparse
    unfold parseWidth
    split
    · next format heq => exact absurd rfl (hstar '*' (by rw [heq]; rfl))
    · rw [hparse]

/-- A precision. -/
theorem parsePrecision_append (precision : Option Amount) (args : List Slot)
    (hrest : ∀ ch ∈ rest.head?, isdigit ch = false ∧ ch ≠ '*' ∧ ch ≠ '.') :
    parsePrecision (precision.elim [] ('.' :: ·.text) ++ rest) (precision.elim [] Amount.args ++ args) =
      some (precision.elim (-1) fun p ↦ if p.value < 0 then -1 else p.value, rest, args) := by
  cases precision with
  | none =>
    unfold parsePrecision
    split
    · next format heq => exact absurd rfl (hrest '.' (by rw [← List.nil_append rest]; exact heq ▸ rfl)).2.2
    · next format _ heq => exact absurd rfl (hrest '.' (by rw [← List.nil_append rest]; exact heq ▸ rfl)).2.2
    · rfl
  | some p =>
    cases p with
    | star slot => rfl
    | numeral digits hle =>
      have hparse := parseDigits_append digits 0 hle fun ch hch ↦ (hrest ch hch).1
      have hstar := head?_numeral_ne_star digits fun ch hch ↦ (hrest ch hch).2.1
      simp only [Option.elim_some, Amount.text, Amount.args, Amount.value, List.nil_append,
        List.cons_append]
      rw [Int.ofNat_zero] at hparse
      unfold parsePrecision
      split
      · next format heq =>
        exact absurd rfl (hstar '*' (by rw [(List.cons.inj heq).2]; rfl))
      · next format _ heq =>
        rw [← (List.cons.inj heq).2, hparse]
        rfl
      · next hno => exact absurd rfl (hno _)

/-- A length modifier in front of a conversion character. -/
theorem parseType_append (type : ArgType) (conversion : IntegerConversion) (rest : List Char) :
    parseType (type.modifier ++ conversion.char :: rest) = (type, conversion.char :: rest) := by
  cases type <;> cases conversion <;> rfl

/-- A length modifier or a conversion character is no part of the options in front of it. -/
theorem head?_modifier (type : ArgType) (conversion : IntegerConversion) (rest : List Char) :
    ∀ ch ∈ (type.modifier ++ conversion.char :: rest).head?,
      Flag.ofChar ch = none ∧ isdigit ch = false ∧ ch ≠ '*' ∧ ch ≠ '.' := by
  cases type <;> cases conversion <;> rintro ch ⟨⟩ <;> decide

/-- Nor is a precision or what follows it. -/
theorem head?_precision (precision : Option Amount)
    (hrest : ∀ ch ∈ rest.head?, Flag.ofChar ch = none ∧ isdigit ch = false ∧ ch ≠ '*' ∧ ch ≠ '.') :
    ∀ ch ∈ (precision.elim [] ('.' :: ·.text) ++ rest).head?,
      Flag.ofChar ch = none ∧ isdigit ch = false ∧ ch ≠ '*' := by
  cases precision with
  | none => exact fun ch hch ↦ ⟨(hrest ch hch).1, (hrest ch hch).2.1, (hrest ch hch).2.2.1⟩
  | some p =>
    rintro ch ⟨⟩
    decide

/-- Nor is a width or what follows it a flag. -/
theorem head?_width {width : Amount} (hwidth : width.IsWidth)
    (hrest : ∀ ch ∈ rest.head?, Flag.ofChar ch = none) :
    ∀ ch ∈ (width.text ++ rest).head?, Flag.ofChar ch = none := by
  obtain ⟨digits, hle⟩ | slot := width
  · obtain _ | ⟨d, digits⟩ := digits
    · exact hrest
    · rintro ch ⟨⟩
      exact ofChar_digitChar fun hzero ↦ hwidth (by rw [hzero]; rfl)
  · rintro ch ⟨⟩
    rfl

/-- The `int` that stands for the precision asked for. -/
theorem requestedPrecision_elim (d : Directive) :
    (d.precision.elim (-1) fun p ↦ if p.value < 0 then -1 else p.value) =
      d.requestedPrecision.elim (-1) fun p ↦ (p : ℤ) := by
  unfold Directive.requestedPrecision
  cases d.precision with
  | none => rfl
  | some p =>
    by_cases hneg : p.value < 0
    · simp [hneg]
    · simp [hneg, Int.toNat_of_nonneg (Int.not_lt.mp hneg)]

theorem parsed_spec (d : Directive) : d.Parsed d.parsed := by
  refine ⟨rfl, rfl, rfl, ?_, ?_, ?_, ?_, fun hzero ↦ ?_⟩
  · unfold Directive.parsed
    dsimp only
    split_ifs <;> simp
  · unfold Directive.parsed
    dsimp only
    split_ifs <;> simp_all
  · unfold Directive.parsed
    dsimp only
    split_ifs <;> simp
  · unfold Directive.parsed
    dsimp only
    split_ifs <;> simp
  · cases hrequested : d.requestedPrecision with
    | none => rfl
    | some p =>
      have hle : 0 ≤ d.requestedPrecision.elim (-1) fun p ↦ (p : ℤ) := by
        rw [hrequested]
        exact Int.natCast_nonneg p
      unfold Directive.parsed at hzero
      dsimp only at hzero
      rw [if_pos hle] at hzero
      exact absurd rfl (Finset.mem_erase.mp hzero).1

/-- The kernel reads a conversion as it is written. -/
theorem parseConversion_options (d : Directive) (rest : List Char) (args : List Slot) :
    parseConversion (d.options ++ d.conversion.char :: rest) (d.args ++ args) =
      some (d.parsed, d.conversion.char :: rest, d.slot :: args) := by
  have hmodifier := head?_modifier d.type d.conversion rest
  have hprecision := head?_precision d.precision hmodifier
  have hflags := parseFlags_append ∅ d.flags
    (head?_width d.isWidth fun ch hch ↦ (hprecision ch hch).1)
  have hwidth := parseWidth_append d.width (d.precision.elim [] Amount.args ++ d.slot :: args)
    fun ch hch ↦ (hprecision ch hch).2
  have hprec := parsePrecision_append d.precision (d.slot :: args)
    fun ch hch ↦ (hmodifier ch hch).2
  have htype := parseType_append d.type d.conversion rest
  have hargs : d.args ++ args = d.width.args ++ (d.precision.elim [] Amount.args ++ d.slot :: args) := by
    simp [Directive.args]
  have hoptions : d.options ++ d.conversion.char :: rest = d.flags.map Flag.char ++ (d.width.text ++
      (d.precision.elim [] ('.' :: ·.text) ++ (d.type.modifier ++ d.conversion.char :: rest))) := by
    simp [Directive.options]
  rw [Finset.empty_union] at hflags
  rw [requestedPrecision_elim] at hprec
  rw [hargs, hoptions]
  unfold parseConversion
  dsimp only [Bind.bind]
  rw [hflags]
  dsimp only
  rw [hwidth, Option.bind_some]
  dsimp only
  rw [hprec, Option.bind_some]
  dsimp only
  rw [htype]
  rfl

end Jungle.Printf
