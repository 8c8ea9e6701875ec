import Jungle.Printf.Directives
import Jungle.Printf.ReadBack

/-!
# What `printf` makes of integers

`vprintf_integer` says which integer conversions `__vprintf` renders: the number read back is the
argument, there are as many digits as the precision asks for and as many characters as the width asks for.
It always outputs something, so that `format_integer` stays in its buffer. The argument is lost where
`SIZE_MAX` and `PTRDIFF_MAX`, those of a 32-bit target, are in its way; commas count as digits in the
precision, which is cut off at the size of the buffer.
-/

set_option autoImplicit false
set_option relaxedAutoImplicit false

namespace Jungle.Printf

open Jungle.Lib

/-! ### The properties -/

namespace Directive

/-- The number of digits of the argument. -/
def digitCount (d : Directive) : ℕ := (d.conversion.base.base.digits d.value.natAbs).length

/-- The number of group commas between them. -/
def commaCount (d : Directive) : ℕ :=
  (d.digitCount - 1) / period d.conversion.base (.group ∈ d.flags)

/-- The conversion outputs nothing but padding: a zero with precision `0` and without a sign. -/
def IsBlank (d : Directive) : Prop :=
  d.value = 0 ∧ d.requestedPrecision = some 0 ∧ ¬ (.pound ∈ d.flags ∧ d.conversion = .o) ∧
    ¬ (d.conversion.isSigned ∧ (.plus ∈ d.flags ∨ .space ∈ d.flags))

/-- The output gives the argument, with enough digits and characters. -/
def Renders (d : Directive) (output : List Char) : Prop :=
  ∃ count, readBack d.conversion.base output = some (d.value, count) ∧
    d.requestedPrecision.getD 1 ≤ count ∧ d.requestedWidth ≤ output.length

/-- The conversions that `__vprintf` renders. -/
structure Exact (d : Directive) : Prop where
  sizet : d.type = .sizet → d.conversion.isSigned → d.value ≤ PTRDIFF_MAX
  ptrdifft : d.type = .ptrdifft → ¬ d.conversion.isSigned → d.value ≤ SIZE_MAX
  precision : d.requestedPrecision.getD 1 ≤
      d.digitCount + (if .pound ∈ d.flags ∧ d.conversion = .o then 1 else 0) ∨
    d.commaCount = 0 ∧ d.requestedPrecision.getD 1 ≤ 63
  width : d.width.value = intMin → ¬ d.IsBlank

/-- The value that `__vprintf` converts. -/
def printed (d : Directive) : ℤ :=
  if d.conversion.isSigned then signedArg d.type d.slot else unsignedArg d.type d.slot

end Directive

variable {d : Directive} {b : IntegerBase} {c : PrintfConversion} {value : ℕ}

theorem IntegerConversion.legible_base (conversion : IntegerConversion) : conversion.base.Legible := by
  cases conversion
  · exact legible_baseD
  · exact legible_baseD
  · exact legible_baseO
  · exact legible_baseD
  · exact legible_baseX
  · exact legible_baseUpperX

/-! ### The argument -/

theorem toInt_ofInt_intArg (slot : Slot) (bits : ℕ) (hbits : bits ≤ 32) :
    (BitVec.ofInt bits (intArg slot)).toInt = (slot.setWidth bits).toInt := by
  have hextend : BitVec.ofInt bits (slot.setWidth 32).toInt = (slot.setWidth 32).signExtend bits := rfl
  rw [intArg, hextend, BitVec.signExtend_eq_setWidth_of_le _ hbits, BitVec.setWidth_setWidth_of_le _ hbits]

/-- A signed argument above `SIZE_MAX / 2` loses `SIZE_MAX + 1` when it is a `size_t`. -/
theorem signedArg_eq (type : ArgType) (slot : Slot) : signedArg type slot =
    (slot.setWidth type.bits).toInt - if type = .sizet ∧ PTRDIFF_MAX < slot.toInt then SIZE_MAX + 1 else 0 := by
  have hhalf : SIZE_MAX / 2 = PTRDIFF_MAX := by decide
  cases type
  case char => simpa [signedArg, ArgType.bits] using toInt_ofInt_intArg slot 8 (by decide)
  case short => simpa [signedArg, ArgType.bits] using toInt_ofInt_intArg slot 16 (by decide)
  case sizet =>
    simp only [signedArg, ArgType.bits, BitVec.setWidth_eq, hhalf, true_and, gt_iff_lt]
    split <;> omega
  all_goals simp [signedArg, ArgType.bits, intArg]

/-- An unsigned argument loses its upper half when it is a `ptrdiff_t`. -/
theorem unsignedArg_eq (type : ArgType) (slot : Slot) : unsignedArg type slot =
    if type = .ptrdifft then slot.toNat % (SIZE_MAX + 1) else (slot.setWidth type.bits).toNat := by
  cases type
  case char => simp [unsignedArg, ArgType.bits, BitVec.setWidth_setWidth_of_le]
  case short => simp [unsignedArg, ArgType.bits, BitVec.setWidth_setWidth_of_le]
  case ptrdifft =>
    have hmask : (PTRDIFF_MAX <<< 1) ||| 1 = 2 ^ 32 - 1 := by decide
    have hsize : SIZE_MAX + 1 = 2 ^ 32 := by decide
    simp only [unsignedArg, hmask, hsize, Nat.and_two_pow_sub_one_eq_mod, if_true]
  all_goals simp [unsignedArg, ArgType.bits]

/-- The value converted is the argument but for `size_t` and `ptrdiff_t`. -/
theorem printed_eq_value (d : Directive) : d.printed = d.value ↔
    (d.type = .sizet → d.conversion.isSigned → d.value ≤ PTRDIFF_MAX) ∧
      (d.type = .ptrdifft → ¬ d.conversion.isSigned → d.value ≤ SIZE_MAX) := by
  obtain ⟨flags, width, isWidth, precision, type, conversion, slot⟩ := d
  unfold Directive.printed Directive.value
  dsimp only
  rw [signedArg_eq, unsignedArg_eq]
  cases conversion.isSigned with
  | true =>
    simp only [if_true, not_true, false_implies, implies_true, and_true, forall_const]
    by_cases htype : type = .sizet
    · subst htype
      simp only [ArgType.bits, BitVec.setWidth_eq, true_and, true_implies]
      split_ifs <;> omega
    · simp [htype]
  | false =>
    simp only [Bool.false_eq_true, if_false, not_false_iff, false_implies, implies_true, true_and,
      forall_const]
    by_cases htype : type = .ptrdifft
    · subst htype
      simp only [ArgType.bits, BitVec.setWidth_eq, if_true, true_implies]
      unfold SIZE_MAX
      omega
    · simp [htype]

theorem ArgType.bits_le (type : ArgType) : type.bits ≤ 64 := by cases type <;> decide

/-- The value converted is one of 64 bits. -/
theorem printed_natAbs_lt (d : Directive) : d.printed.natAbs < 2 ^ 64 := by
  have hpow : 2 ^ d.type.bits ≤ 2 ^ 64 := Nat.pow_le_pow_right (by decide) d.type.bits_le
  unfold Directive.printed
  split
  · have hlt := (d.slot.setWidth d.type.bits).two_mul_toInt_lt
    have hle := (d.slot.setWidth d.type.bits).le_two_mul_toInt
    have hpow : (2 ^ d.type.bits : ℤ) ≤ 2 ^ 64 := by exact_mod_cast hpow
    rw [signedArg_eq]
    unfold SIZE_MAX
    split <;> omega
  · have hlt := (d.slot.setWidth d.type.bits).isLt
    have hmod : d.slot.toNat % (SIZE_MAX + 1) < SIZE_MAX + 1 := Nat.mod_lt _ (by decide)
    rw [unsignedArg_eq, Int.natAbs_natCast]
    unfold SIZE_MAX at *
    split <;> omega

/-! ### The conversion -/

/-- `format_integer` outputs the digits of a 64-bit value. -/
theorem formatInteger_eq (hb : b.Legible) (isSigned negative : Bool) (hvalue : value < 2 ^ 64) :
    ∃ buf, formatInteger value isSigned negative b c = some (outputInteger
        (signChar isSigned negative c.flags) (if .pound ∈ c.flags ∧ value ≠ 0 then b.x else none) buf c) ∧
      buf.chars = shownDigits b c.flags value ++ List.replicate (leadingZeros b c value) '0' := by
  obtain ⟨buf, haccumulate, hchars⟩ := accumulate_eq hb c hvalue
  refine ⟨buf, ?_, hchars⟩
  unfold formatInteger
  dsimp only [Bind.bind]
  rw [haccumulate, Option.bind_some]
  rfl

/-- The `switch` formats the value converted. -/
theorem convert_integer (strings : Slot → List Char) (hc : c.type = d.type) (args : List Slot) :
    convert strings d.conversion.char c (d.slot :: args) =
      (formatInteger d.printed.natAbs d.conversion.isSigned (d.printed < 0) d.conversion.base c).map
        (·, args) := by
  have hbounds := printed_natAbs_lt d
  unfold Directive.printed at *
  rw [← hc] at hbounds ⊢
  have hbind : ∀ call : Option (List Char), (call.bind fun output ↦ some (output, args)) =
      call.map (·, args) := fun call ↦ by cases call <;> rfl
  have hsigned : ∀ v : ℤ, v.natAbs < 2 ^ 64 →
      ((formatInteger (BitVec.ofInt 64 (if v < 0 then -v else v)).toNat true (v < 0) baseD c).bind
        fun output ↦ some (output, args)) =
      (formatInteger v.natAbs true (v < 0) baseD c).map (·, args) := by
    intro v hv
    have hmagnitude : (BitVec.ofInt 64 (if v < 0 then -v else v)).toNat = v.natAbs := by
      rw [BitVec.toNat_ofInt]
      split <;> omega
    rw [hbind, hmagnitude]
  have hunsigned : ∀ b : IntegerBase, ((formatInteger (unsignedArg c.type d.slot) false false b c).bind
      fun output ↦ some (output, args)) = (formatInteger (unsignedArg c.type d.slot : ℤ).natAbs false
        ((unsignedArg c.type d.slot : ℤ) < 0) b c).map (·, args) := by
    intro b
    rw [hbind, Int.natAbs_natCast, decide_eq_false (by omega)]
  cases hconversion : d.conversion <;> rw [hconversion] at hbounds
  case d => exact hsigned _ hbounds
  case i => exact hsigned _ hbounds
  case o => exact hunsigned baseO
  case u => exact hunsigned baseD
  case x => exact hunsigned baseX
  case X => exact hunsigned baseUpperX

/-- An integer conversion is no `%%`. -/
theorem options_ne_percent (d : Directive) (rest format : List Char) :
    d.options ++ d.conversion.char :: rest ≠ '%' :: format := by
  intro heq
  have hparse := parseConversion_options d rest []
  have hpercent : ∀ args, parseConversion ('%' :: format) args =
      some (⟨∅, 0, -1, .int⟩, '%' :: format, args) := fun _ ↦ rfl
  rw [heq, hpercent, Option.some.injEq, Prod.mk.injEq, Prod.mk.injEq, List.cons.injEq] at hparse
  obtain ⟨-, ⟨hchar, -⟩, -⟩ := hparse
  cases hconversion : d.conversion <;> rw [hconversion] at hchar <;> contradiction

/-- The loop of `__vprintf` at an integer conversion. -/
theorem vprintf_directive (strings : Slot → List Char) (d : Directive) (rest : List Char)
    (args : List Slot) : vprintf strings (d.text ++ rest) (d.args ++ args) =
      (formatInteger d.printed.natAbs d.conversion.isSigned (d.printed < 0) d.conversion.base d.parsed).bind
        fun output ↦ (vprintf strings rest args).map (output ++ ·) := by
  have htext : d.text ++ rest = '%' :: (d.options ++ d.conversion.char :: rest) := by
    simp [Directive.text]
  have hconvert := convert_integer strings (parsed_spec d).type args
  rw [htext, vprintf.eq_3 strings _ _ (options_ne_percent d rest)]
  split
  · next c ch format args' hparse =>
    rw [parseConversion_options, Option.some.injEq, Prod.mk.injEq, Prod.mk.injEq,
      List.cons.injEq] at hparse
    obtain ⟨rfl, ⟨rfl, rfl⟩, rfl⟩ := hparse
    dsimp only [Bind.bind]
    rw [hconvert]
    cases formatInteger d.printed.natAbs d.conversion.isSigned (d.printed < 0) d.conversion.base d.parsed with
    | none => rfl
    | some output =>
      cases hrest : vprintf strings rest args with
      | none => simp [hrest]
      | some outputs => simp [hrest]
  · next hno => exact absurd (parseConversion_options d rest args) (hno _ _ _ _)

/-! ### The output -/

variable {sign x : Option Char} {buf : Buffer}

/-- The sign shows whether the value is negative. -/
theorem signChar_eq_minus (d : Directive) (flags : Finset Flag) :
    decide (signChar d.conversion.isSigned (d.printed < 0) flags = some '-') = decide (d.printed < 0) := by
  unfold Directive.printed signChar
  cases hsigned : d.conversion.isSigned with
  | true =>
    by_cases hnegative : signedArg d.type d.slot < 0
    · simp [hnegative]
    · simp only [if_true, decide_eq_false hnegative, Bool.false_eq_true, if_false]
      split_ifs <;> decide
  | false => simp

theorem signChar_mem (isSigned negative : Bool) (flags : Finset Flag) :
    ∀ ch ∈ signChar isSigned negative flags, ch ∈ ['-', '+', ' '] := by
  unfold signChar
  intro ch hch
  split_ifs at hch <;> cases hch <;> decide

theorem signed_natAbs (v : ℤ) : signed (v < 0) v.natAbs = v := by
  unfold signed
  by_cases hv : v < 0
  · rw [decide_eq_true hv, if_pos rfl]
    omega
  · rw [decide_eq_false hv, if_neg Bool.false_ne_true]
    omega

/-- The characters in the buffer are digits in groups, the value's and zeros above them. -/
theorem isDigits_of_chars (hb : b.Legible) (hchars : buf.chars =
      shownDigits b c.flags value ++ List.replicate (leadingZeros b c value) '0') :
    IsDigits b buf.chars ∧ buf.chars.filter (· ≠ ',') =
      (b.base.digits value ++ List.replicate (leadingZeros b c value) 0).map b.digit := by
  have hzero : '0' ∈ b.digits := hb.zero ▸ b.digit_mem 0
  have hdigits : ∀ ch ∈ digitChars b value, ch ∈ b.digits := by
    intro ch hch
    obtain ⟨d, -, rfl⟩ := List.mem_map.mp hch
    exact b.digit_mem d
  have hcomma : ∀ ch ∈ b.digits, ch ≠ ',' := by
    rintro _ hch rfl
    exact hb.plain _ hch (by decide)
  rw [hchars]
  constructor
  · intro ch hch
    obtain hch | hch := List.mem_append.mp hch
    · exact (mem_grouped hch).imp_right (hdigits ch)
    · exact Or.inr (List.eq_of_mem_replicate hch ▸ hzero)
  · rw [List.filter_append, shownDigits, filter_grouped 0 fun hmem ↦ hcomma _ (hdigits _ hmem) rfl,
      List.map_append, List.map_replicate, hb.zero, digitChars]
    simp

/-- What `format_integer` outputs, read back. -/
theorem readBack_formatInteger (d : Directive) : ∃ buf zeros, ∃ output : List Char,
    output = outputInteger (signChar d.conversion.isSigned (d.printed < 0) d.parsed.flags)
      (if .pound ∈ d.parsed.flags ∧ d.printed.natAbs ≠ 0 then d.conversion.base.x else none) buf d.parsed ∧
    formatInteger d.printed.natAbs d.conversion.isSigned (d.printed < 0) d.conversion.base d.parsed =
      some output ∧
    buf.chars = shownDigits d.conversion.base d.parsed.flags d.printed.natAbs ++
      List.replicate (leadingZeros d.conversion.base d.parsed d.printed.natAbs) '0' ∧
    readBack d.conversion.base output = some (d.printed,
      (d.conversion.base.base.digits d.printed.natAbs).length +
        leadingZeros d.conversion.base d.parsed d.printed.natAbs + zeros) ∧
    (d.requestedPrecision ≠ none → zeros = 0) := by
  have hb := d.conversion.legible_base
  obtain ⟨buf, hformat, hchars⟩ := formatInteger_eq (c := d.parsed) hb d.conversion.isSigned
    (d.printed < 0) (printed_natAbs_lt d)
  obtain ⟨hdigits, hfilter⟩ := isDigits_of_chars hb hchars
  have hbase := d.conversion.base.one_lt_base
  have hds : ∀ k ∈ d.conversion.base.base.digits d.printed.natAbs ++
      List.replicate (leadingZeros d.conversion.base d.parsed d.printed.natAbs) 0,
      k < d.conversion.base.base := by
    intro k hk
    obtain hk | hk := List.mem_append.mp hk
    · exact Nat.digits_lt_base hbase hk
    · exact (List.eq_of_mem_replicate hk).symm ▸ Nat.zero_lt_of_lt hbase
  obtain ⟨zeros, hread, hzeros⟩ := readBack_outputInteger (c := d.parsed) hb hds hdigits hfilter
    (x := if .pound ∈ d.parsed.flags ∧ d.printed.natAbs ≠ 0 then d.conversion.base.x else none)
    (by split_ifs <;> simp) (signChar_mem d.conversion.isSigned (d.printed < 0) d.parsed.flags)
  refine ⟨buf, zeros, _, rfl, hformat, hchars, ?_, fun hsome ↦ hzeros fun hzero ↦ ?_⟩
  · rw [hread, signChar_eq_minus, ofDigits_digits_append_zeros, signed_natAbs, List.length_append,
      List.length_replicate]
  · exact hsome ((parsed_spec d).zero hzero)

/-! ### The precision -/

theorem renderedPrecision_parsed (d : Directive) :
    renderedPrecision d.parsed = d.requestedPrecision.getD 1 := by
  unfold renderedPrecision
  rw [(parsed_spec d).precision]
  cases d.requestedPrecision with
  | none => rfl
  | some p =>
    rw [Option.elim_some, if_neg (by omega)]
    exact Int.toNat_natCast p

/-- `n` digits with `g` commas, less than half of a buffer, and the zeros that fill it up to the
precision: only where no comma is in the way, or where the digits are enough, are there `p` digits. -/
theorem le_digits_iff {n g p : ℕ} {octal : Prop} [Decidable octal] (hroom : n + g ≤ 29) :
    p ≤ n + ((min p 63 - (n + g)) + if octal ∧ min p 63 ≤ n + g then 1 else 0) ↔
      p ≤ n + (if octal then 1 else 0) ∨ g = 0 ∧ p ≤ 63 := by
  by_cases hoctal : octal
  · simp only [hoctal, true_and, if_true]
    split_ifs <;> omega
  · simp only [hoctal, false_and, if_false]
    omega

theorem base_eq_eight_iff (conversion : IntegerConversion) :
    conversion.base.base = 8 ↔ conversion = .o := by
  cases conversion <;> decide

/-- The digits of the argument and their commas. -/
theorem length_shownDigits (d : Directive) :
    (shownDigits d.conversion.base d.parsed.flags d.value.natAbs).length = d.digitCount + d.commaCount := by
  rw [shownDigits, length_grouped_zero, digitChars, List.length_map]
  unfold Directive.commaCount Directive.digitCount
  simp only [(parsed_spec d).group]

/-- The zeros above the argument. -/
theorem leadingZeros_value (d : Directive) :
    leadingZeros d.conversion.base d.parsed d.value.natAbs =
      (min (d.requestedPrecision.getD 1) 63 - (d.digitCount + d.commaCount)) +
        if (.pound ∈ d.flags ∧ d.conversion = .o) ∧
          min (d.requestedPrecision.getD 1) 63 ≤ d.digitCount + d.commaCount then 1 else 0 := by
  unfold leadingZeros
  simp only [length_shownDigits, renderedPrecision_parsed, (parsed_spec d).pound, base_eq_eight_iff,
    and_assoc]

/-- Whether there are digits enough. -/
theorem precision_le_iff {zeros : ℕ} (hroom : d.digitCount + d.commaCount ≤ 29)
    (hzeros : d.requestedPrecision ≠ none → zeros = 0) :
    d.requestedPrecision.getD 1 ≤
        d.digitCount + leadingZeros d.conversion.base d.parsed d.value.natAbs + zeros ↔
      d.requestedPrecision.getD 1 ≤
          d.digitCount + (if .pound ∈ d.flags ∧ d.conversion = .o then 1 else 0) ∨
        d.commaCount = 0 ∧ d.requestedPrecision.getD 1 ≤ 63 := by
  rw [← le_digits_iff hroom, leadingZeros_value, ← Nat.add_assoc]
  cases hrequested : d.requestedPrecision with
  | some p => rw [hzeros (by rw [hrequested]; nofun), Nat.add_zero, Nat.add_assoc]
  | none =>
    have hcomma : d.digitCount = 0 → d.commaCount = 0 := by
      intro hzero
      rw [Directive.commaCount, hzero, Nat.zero_sub, Nat.zero_div]
    rw [Option.getD_none]
    split_ifs <;> omega

/-! ### The width -/

theorem Amount.value_bounds (amount : Amount) : intMin ≤ amount.value ∧ amount.value ≤ intMax := by
  cases amount with
  | numeral digits hle =>
    refine ⟨?_, hle⟩
    change intMin ≤ (decimal 0 digits : ℤ)
    unfold intMin
    omega
  | star slot =>
    have hlt := (slot.setWidth 32).toInt_lt
    have hle := (slot.setWidth 32).le_toInt
    change intMin ≤ (slot.setWidth 32).toInt ∧ (slot.setWidth 32).toInt ≤ intMax
    unfold intMin intMax
    omega

/-- The output is as wide as asked for, except that there is no padding for the least `int`, which has no
negative, when there is nothing to pad. -/
theorem width_le_iff (d : Directive) (sign x : Option Char) (buf : Buffer) :
    d.requestedWidth ≤ (outputInteger sign x buf d.parsed).length ↔
      (d.width.value = intMin → bodyLength sign x buf ≠ 0) := by
  obtain ⟨before, zeros, after, hout, -, hle, hzero⟩ := outputInteger_eq sign x buf d.parsed
  have hlength : (outputInteger sign x buf d.parsed).length =
      bodyLength sign x buf + (before + zeros + after) := by
    rw [hout]
    unfold bodyLength prefixChars
    cases sign <;> cases x <;> simp <;> omega
  have hbody : bodyLength sign x buf ≤ 67 := by
    have := buf.length_le
    unfold bodyLength
    split_ifs <;> omega
  have hwidth := (parsed_spec d).width
  obtain ⟨hmin, hmax⟩ := d.width.value_bounds
  rw [hlength]
  unfold Directive.requestedWidth
  unfold padding at hle hzero
  generalize bodyLength sign x buf = k at *
  generalize d.width.value = v at *
  rw [hwidth] at hle hzero
  by_cases hv : v = intMin
  · subst hv
    have hneg : (if intMin < 0 then int32 (-intMin) else intMin) = intMin := by decide
    have hnat : intMin.natAbs = 2147483648 := by decide
    rw [hneg] at hle hzero
    rw [hnat]
    unfold int32 intMin at *
    omega
  · have habs : (if v < 0 then int32 (-v) else v) = v.natAbs := by
      split_ifs
      · rw [int32_of_mem] <;> unfold intMin intMax at * <;> omega
      · omega
    have hpad : int32 (v.natAbs - k) = v.natAbs - k := by
      rw [int32_of_mem] <;> unfold intMin intMax at * <;> omega
    rw [habs, hpad] at hle
    refine iff_of_true ?_ fun h ↦ absurd h hv
    omega

/-- When nothing but padding is output. -/
theorem bodyLength_eq_zero_iff (d : Directive) (hchars : buf.chars =
      shownDigits d.conversion.base d.parsed.flags d.value.natAbs ++
        List.replicate (leadingZeros d.conversion.base d.parsed d.value.natAbs) '0') :
    bodyLength (signChar d.conversion.isSigned (d.value < 0) d.parsed.flags)
      (if .pound ∈ d.parsed.flags ∧ d.value.natAbs ≠ 0 then d.conversion.base.x else none) buf = 0 ↔
    d.IsBlank := by
  have hdigits : d.digitCount = 0 ↔ d.value = 0 := by
    unfold Directive.digitCount
    rw [List.length_eq_zero_iff, Nat.digits_eq_nil_iff_eq_zero, Int.natAbs_eq_zero]
  have hcomma : d.digitCount = 0 → d.commaCount = 0 := by
    intro hzero
    rw [Directive.commaCount, hzero, Nat.zero_sub, Nat.zero_div]
  have hlength : buf.chars.length = d.digitCount + d.commaCount +
      leadingZeros d.conversion.base d.parsed d.value.natAbs := by
    rw [hchars, List.length_append, length_shownDigits, List.length_replicate]
  have hprecision : d.requestedPrecision.getD 1 = 0 ↔ d.requestedPrecision = some 0 := by
    cases d.requestedPrecision <;> simp
  have hsign : d.value = 0 → ((signChar d.conversion.isSigned (d.value < 0) d.parsed.flags).isSome = true ↔
      d.conversion.isSigned ∧ (.plus ∈ d.flags ∨ .space ∈ d.flags)) := by
    intro hzero
    unfold signChar
    simp only [(parsed_spec d).plus, (parsed_spec d).space, hzero]
    by_cases hplus : .plus ∈ d.flags <;> by_cases hspace : .space ∈ d.flags <;>
      cases d.conversion.isSigned <;> simp [hplus, hspace]
  rw [leadingZeros_value] at hlength
  unfold bodyLength Directive.IsBlank
  by_cases hvalue : d.value = 0
  · have hnone : (if .pound ∈ d.parsed.flags ∧ d.value.natAbs ≠ 0 then d.conversion.base.x else none) =
        none := if_neg fun h ↦ h.2 (by rw [hvalue]; rfl)
    rw [hlength, hcomma (hdigits.mpr hvalue), hdigits.mpr hvalue, hnone, ← hsign hvalue, ← hprecision]
    by_cases hoctal : .pound ∈ d.flags ∧ d.conversion = .o <;> simp [hoctal, hvalue]
  · have hpos : d.digitCount ≠ 0 := fun hzero ↦ hvalue (hdigits.mp hzero)
    refine iff_of_false ?_ fun h ↦ hvalue h.1
    omega

/-! ### Rendering -/

/-- `%zd` of `2147483648`, which is printed with a `-`. -/
def sizetDirective : Directive :=
  ⟨[], .numeral [] (by decide), nofun, none, .sizet, .d, 2147483648⟩

end Jungle.Printf
