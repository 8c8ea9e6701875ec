import Jungle.Lib.MachineInt
import Mathlib.Data.Finset.Erase
import Mathlib.Data.Finset.Insert
import Mathlib.Data.List.Basic

/-!
# `printf`

`__vprintf`, `parse_conversion`, `format_integer` and `format_string` of `pintos/lib/stdio.c`. A format is
the list of its characters without the null character, and what is output is the list of the characters
output. An argument is the 64-bit slot that `va_arg` reads. A call faults, with `none`, where it reads
behind the format or behind the arguments, or writes outside the buffer of `format_integer`.
-/

set_option autoImplicit false
set_option relaxedAutoImplicit false

namespace Jungle.Printf

open Jungle.Lib

/-- The argument of a conversion as it is passed. -/
abbrev Slot := BitVec 64

/-- The flags of a conversion. -/
inductive Flag
  | minus | plus | space | pound | zero | group
  deriving DecidableEq

/-- The types of an argument, by the length modifier. -/
inductive ArgType
  | char | short | int | intmax | long | longlong | ptrdifft | sizet
  deriving DecidableEq

/-- `struct printf_conversion` -/
structure PrintfConversion where
  flags : Finset Flag
  width : ℤ
  precision : ℤ
  type : ArgType

/-- `struct integer_base`, whose `digits` are one for every remainder; `x` is `none` for `0`. -/
structure IntegerBase where
  base : ℕ
  digits : List Char
  x : Option Char
  group : ℕ
  one_lt_base : 1 < base
  length_digits : digits.length = base

def baseD : IntegerBase := ⟨10, "0123456789".toList, none, 3, by decide, by decide⟩
def baseO : IntegerBase := ⟨8, "01234567".toList, none, 3, by decide, by decide⟩
def baseX : IntegerBase := ⟨16, "0123456789abcdef".toList, some 'x', 4, by decide, by decide⟩
def baseUpperX : IntegerBase := ⟨16, "0123456789ABCDEF".toList, some 'X', 4, by decide, by decide⟩

/-- `b->digits[value % b->base]` -/
def IntegerBase.digit (b : IntegerBase) (value : ℕ) : Char :=
  b.digits.get ⟨value % b.base, by
    rw [b.length_digits]
    exact Nat.mod_lt _ (Nat.zero_lt_of_lt b.one_lt_base)⟩

/-! ### Arguments -/

/-- `va_arg (args, …)` -/
def vaArg : List Slot → Option (Slot × List Slot)
  | [] => none
  | slot :: args => some (slot, args)

/-- The `int` in a slot. -/
def intArg (slot : Slot) : ℤ := (slot.setWidth 32).toInt

/-- `PTRDIFF_MAX` of `pintos/include/lib/stdint.h` -/
def PTRDIFF_MAX : ℕ := 2147483647

/-- `SIZE_MAX` of `pintos/include/lib/stdint.h` -/
def SIZE_MAX : ℕ := 4294967295

/-- The `value` of a signed conversion. -/
def signedArg (type : ArgType) (slot : Slot) : ℤ :=
  match type with
  | .char => (BitVec.ofInt 8 (intArg slot)).toInt
  | .short => (BitVec.ofInt 16 (intArg slot)).toInt
  | .int => intArg slot
  | .intmax | .long | .longlong | .ptrdifft => slot.toInt
  | .sizet =>
    let value := slot.toInt
    if value > (SIZE_MAX / 2 : ℕ) then value - SIZE_MAX - 1 else value

/-- The `value` of an unsigned conversion. -/
def unsignedArg (type : ArgType) (slot : Slot) : ℕ :=
  match type with
  | .char => ((slot.setWidth 32).setWidth 8).toNat
  | .short => ((slot.setWidth 32).setWidth 16).toNat
  | .int => (slot.setWidth 32).toNat
  | .intmax | .long | .longlong | .sizet => slot.toNat
  | .ptrdifft => slot.toNat &&& ((PTRDIFF_MAX <<< 1) ||| 1)

/-! ### `parse_conversion` -/

def Flag.ofChar : Char → Option Flag
  | '-' => some minus
  | '+' => some plus
  | ' ' => some space
  | '#' => some pound
  | '0' => some zero
  | '\'' => some group
  | _ => none

/-- The loop that parses flag characters. -/
def parseFlags (flags : Finset Flag) : List Char → Finset Flag × List Char
  | [] => (flags, [])
  | ch :: format =>
    match Flag.ofChar ch with
    | some flag => parseFlags (insert flag flags) format
    | none => (flags, ch :: format)

/-- `isdigit (c)` of `pintos/include/lib/ctype.h` -/
def isdigit (c : Char) : Bool := '0' ≤ c && c ≤ '9'

/-- The loops that parse the digits of a width and of a precision. -/
def parseDigits (n : ℤ) : List Char → ℤ × List Char
  | [] => (n, [])
  | ch :: format =>
    if isdigit ch then parseDigits (int32 (n * 10 + ch.toNat - '0'.toNat)) format else (n, ch :: format)

/-- A field width. -/
def parseWidth (format : List Char) (args : List Slot) : Option (ℤ × List Char × List Slot) :=
  match format with
  | '*' :: format => do
    let (slot, args) ← vaArg args
    return (intArg slot, format, args)
  | format =>
    let (width, format) := parseDigits 0 format
    some (width, format, args)

/-- A precision, `-1` where there is none. -/
def parsePrecision (format : List Char) (args : List Slot) : Option (ℤ × List Char × List Slot) :=
  match format with
  | '.' :: '*' :: format => do
    let (slot, args) ← vaArg args
    return (if intArg slot < 0 then -1 else intArg slot, format, args)
  | '.' :: format =>
    let (precision, format) := parseDigits 0 format
    some (if precision < 0 then -1 else precision, format, args)
  | format => some (-1, format, args)

/-- A length modifier. -/
def parseType : List Char → ArgType × List Char
  | 'h' :: 'h' :: format => (.char, format)
  | 'h' :: format => (.short, format)
  | 'j' :: format => (.intmax, format)
  | 'l' :: 'l' :: format => (.longlong, format)
  | 'l' :: format => (.long, format)
  | 't' :: format => (.ptrdifft, format)
  | 'z' :: format => (.sizet, format)
  | format => (.int, format)

/-- `parse_conversion (format, c, args)`: `*c`, what it returns and the arguments left. -/
def parseConversion (format : List Char) (args : List Slot) :
    Option (PrintfConversion × List Char × List Slot) := do
  let (flags, format) := parseFlags ∅ format
  let flags := if .minus ∈ flags then flags.erase .zero else flags
  let flags := if .plus ∈ flags then flags.erase .space else flags
  let (width, format, args) ← parseWidth format args
  let flags := if width < 0 then insert .minus flags else flags
  let width := if width < 0 then int32 (-width) else width
  let (precision, format, args) ← parsePrecision format args
  let flags := if 0 ≤ precision then flags.erase .zero else flags
  let (type, format) := parseType format
  return ({ flags, width, precision, type }, format, args)

/-! ### `format_integer` and `format_string` -/

/-- `buf` of `format_integer`, with the characters before `cp`. -/
structure Buffer where
  chars : List Char
  length_le : chars.length ≤ 64

/-- `*cp++ = ch` -/
def Buffer.push (buf : Buffer) (ch : Char) : Option Buffer :=
  if h : buf.chars.length < 64 then
    some ⟨buf.chars ++ [ch], by rw [List.length_append, List.length_singleton]; omega⟩
  else none

/-- The loop that accumulates digits. -/
def pushDigits (b : IntegerBase) (group : Bool) (value digitCnt : ℕ) (buf : Buffer) : Option Buffer :=
  if h : 0 < value then do
    let buf ← if group ∧ 0 < digitCnt ∧ digitCnt % b.group = 0 then buf.push ',' else some buf
    let buf ← buf.push (b.digit value)
    pushDigits b group (value / b.base) (digitCnt + 1) buf
  else some buf
termination_by value
decreasing_by exact Nat.div_lt_self h b.one_lt_base

theorem Buffer.chars_push {buf buf' : Buffer} {ch : Char} (h : buf.push ch = some buf') :
    buf'.chars = buf.chars ++ [ch] := by
  unfold push at h
  split at h
  · exact (Option.some.inj h) ▸ rfl
  · contradiction

/-- The loop that appends zeros to match the precision. -/
def pushZeros (precision : ℤ) (buf : Buffer) : Option Buffer :=
  if buf.chars.length < precision ∧ buf.chars.length < 64 - 1 then
    match _h : buf.push '0' with
    | none => none
    | some buf => pushZeros precision buf
  else some buf
termination_by 64 - buf.chars.length
decreasing_by
  rw [Buffer.chars_push _h, List.length_append, List.length_singleton]
  omega

/-- `output_dup (ch, cnt, …)` -/
def outputDup (ch : Char) (cnt : ℤ) : List Char := List.replicate cnt.toNat ch

/-- `sign` of `format_integer`, `none` for `0`. -/
def signChar (isSigned negative : Bool) (flags : Finset Flag) : Option Char :=
  if isSigned then
    if .plus ∈ flags then some (if negative then '-' else '+')
    else if .space ∈ flags then some (if negative then '-' else ' ')
    else if negative then some '-'
    else none
  else none

/-- The part of `format_integer` that fills the buffer. -/
def accumulate (value : ℕ) (b : IntegerBase) (c : PrintfConversion) : Option Buffer := do
  let buf ← pushDigits b (.group ∈ c.flags) value 0 ⟨[], Nat.zero_le _⟩
  let buf ← pushZeros (if c.precision < 0 then 1 else c.precision) buf
  if .pound ∈ c.flags ∧ b.base = 8 ∧ buf.chars.getLast? ≠ some '0' then buf.push '0' else some buf

/-- The part of `format_integer` that does the output. -/
def outputInteger (sign x : Option Char) (buf : Buffer) (c : PrintfConversion) : List Char :=
  let padCnt := int32 (c.width - buf.chars.length - (if x.isSome then 2 else 0) -
    (if sign.isSome then 1 else 0))
  let padCnt := if padCnt < 0 then 0 else padCnt
  (if .minus ∉ c.flags ∧ .zero ∉ c.flags then outputDup ' ' padCnt else []) ++
    (sign.toList ++ ((x.elim [] fun x ↦ ['0', x]) ++
      ((if .zero ∈ c.flags then outputDup '0' padCnt else []) ++ buf.chars.reverse) ++
        (if .minus ∈ c.flags then outputDup ' ' padCnt else [])))

/-- `format_integer (value, is_signed, negative, b, c, …)` -/
def formatInteger (value : ℕ) (isSigned negative : Bool) (b : IntegerBase) (c : PrintfConversion) :
    Option (List Char) := do
  let sign := signChar isSigned negative c.flags
  let x := if .pound ∈ c.flags ∧ value ≠ 0 then b.x else none
  let buf ← accumulate value b c
  return outputInteger sign x buf c

/-- `format_string (string, length, c, …)` -/
def formatString (string : List Char) (length : ℤ) (c : PrintfConversion) : List Char :=
  (if length < c.width ∧ .minus ∉ c.flags then outputDup ' ' (c.width - length) else []) ++
    string.take length.toNat ++
    (if length < c.width ∧ .minus ∈ c.flags then outputDup ' ' (c.width - length) else [])

/-! ### `__vprintf` -/

/-- The `switch` of `__vprintf` over the conversion character: what is output and the arguments left.
`strings` has the characters of the string at an address. -/
def convert (strings : Slot → List Char) (ch : Char) (c : PrintfConversion) (args : List Slot) :
    Option (List Char × List Slot) :=
  match ch with
  | 'd' | 'i' => do
    let (slot, args) ← vaArg args
    let value := signedArg c.type slot
    let magnitude := (BitVec.ofInt 64 (if value < 0 then -value else value)).toNat
    return (← formatInteger magnitude true (value < 0) baseD c, args)
  | 'o' => unsignedConversion baseO
  | 'u' => unsignedConversion baseD
  | 'x' => unsignedConversion baseX
  | 'X' => unsignedConversion baseUpperX
  | 'c' => do
    let (slot, args) ← vaArg args
    return (formatString [Char.ofNat (slot.setWidth 8).toNat] 1 c, args)
  | 's' => do
    let (slot, args) ← vaArg args
    let s := if slot = 0 then "(null)".toList else strings slot
    let maxlen := (BitVec.ofInt 64 c.precision).toNat
    return (formatString s (int32 (min s.length maxlen : ℕ)) c, args)
  | 'p' => do
    let (slot, args) ← vaArg args
    return (← formatInteger slot.toNat false false baseX { c with flags := {.pound} }, args)
  | 'f' | 'e' | 'E' | 'g' | 'G' | 'n' => some ("<<no %".toList ++ [ch] ++ " in kernel>>".toList, args)
  | _ => some ("<<no %".toList ++ [ch] ++ " conversion>>".toList, args)
where
  unsignedConversion (b : IntegerBase) : Option (List Char × List Slot) := do
    let (slot, args) ← vaArg args
    return (← formatInteger (unsignedArg c.type slot) false false b c, args)

/-! ### The loop over the format -/

theorem length_parseFlags (flags : Finset Flag) (format : List Char) :
    (parseFlags flags format).2.length ≤ format.length := by
  induction format generalizing flags with
  | nil => exact Nat.le_refl _
  | cons ch format ih =>
    unfold parseFlags
    split
    · exact (ih _).trans (Nat.le_succ _)
    · exact Nat.le_refl _

theorem length_parseDigits (n : ℤ) (format : List Char) :
    (parseDigits n format).2.length ≤ format.length := by
  induction format generalizing n with
  | nil => exact Nat.le_refl _
  | cons ch format ih =>
    unfold parseDigits
    split
    · exact (ih _).trans (Nat.le_succ _)
    · exact Nat.le_refl _

theorem length_parseWidth {format format' : List Char} {args args' : List Slot} {width : ℤ}
    (h : parseWidth format args = some (width, format', args')) : format'.length ≤ format.length := by
  unfold parseWidth at h
  split at h
  · obtain ⟨_, _, heq⟩ := Option.bind_eq_some_iff.mp h
    obtain ⟨-, rfl, -⟩ := Option.some.inj heq
    exact Nat.le_succ _
  · obtain ⟨-, rfl, -⟩ := Option.some.inj h
    exact length_parseDigits 0 format

theorem length_parsePrecision {format format' : List Char} {args args' : List Slot} {precision : ℤ}
    (h : parsePrecision format args = some (precision, format', args')) :
    format'.length ≤ format.length := by
  unfold parsePrecision at h
  split at h
  · obtain ⟨_, _, heq⟩ := Option.bind_eq_some_iff.mp h
    obtain ⟨-, rfl, -⟩ := Option.some.inj heq
    exact (Nat.le_succ _).trans (Nat.le_succ _)
  · obtain ⟨-, rfl, -⟩ := Option.some.inj h
    exact (length_parseDigits 0 _).trans (Nat.le_succ _)
  · obtain ⟨-, rfl, -⟩ := Option.some.inj h
    exact Nat.le_refl _

theorem length_parseType (format : List Char) : (parseType format).2.length ≤ format.length := by
  unfold parseType
  split <;> simp only [List.length_cons] <;> omega

/-- What is left of a format is not longer. -/
theorem length_parseConversion {format format' : List Char} {args args' : List Slot}
    {c : PrintfConversion} (h : parseConversion format args = some (c, format', args')) :
    format'.length ≤ format.length := by
  unfold parseConversion at h
  obtain ⟨⟨width, formatW, argsW⟩, hwidth, h⟩ := Option.bind_eq_some_iff.mp h
  obtain ⟨⟨precision, formatP, argsP⟩, hprecision, h⟩ := Option.bind_eq_some_iff.mp h
  obtain ⟨-, rfl, -⟩ := Option.some.inj h
  calc (parseType formatP).2.length
      ≤ formatP.length := length_parseType formatP
    _ ≤ formatW.length := length_parsePrecision hprecision
    _ ≤ (parseFlags ∅ format).2.length := length_parseWidth hwidth
    _ ≤ format.length := length_parseFlags ∅ format

/-- `__vprintf (format, args, …)` -/
def vprintf (strings : Slot → List Char) : List Char → List Slot → Option (List Char)
  | [], _ => some []
  | '%' :: '%' :: format, args => (vprintf strings format args).map ('%' :: ·)
  | '%' :: format, args =>
    match _h : parseConversion format args with
    | some (c, ch :: format', args') => do
      let (output, args) ← convert strings ch c args'
      return output ++ (← vprintf strings format' args)
    | _ => none
  | ch :: format, args => (vprintf strings format args).map (ch :: ·)
termination_by format => format.length
decreasing_by
  · simp only [List.length_cons]
    omega
  · have hlength := length_parseConversion _h
    simp only [List.length_cons] at hlength ⊢
    omega
  · exact Nat.lt_succ_self _

end Jungle.Printf
