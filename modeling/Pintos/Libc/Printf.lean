import Pintos.Libc.Arithmetic
import Pintos.Lib.Digits

/-! # Formatted output

`lib/stdio.c`. `__vprintf` copies the bytes of the format to `output` up to its null byte; at
a `%` it lets `parse_conversion` read the flags, the field width, the precision and the length
modifier, reads the argument with `va_arg` and writes it with `format_integer` or
`format_string`. `vsnprintf` hands each byte to `vsnprintf_helper`, which stores it while
there is room for it and for the null byte, and counts it in any case.

The format is the list of its bytes; a null byte or the end of the list ends it. An argument
is an integer, the value the caller passed, or a string, the bytes before its null byte.
`va_arg` of an integer type reads the value converted to that type (`int`, `long`,
`ptrdiff_t` and `size_t` are 32 bits wide and `intmax_t` and `long long` 64), a conversion
keeps the low bits, and a missing argument reads as the integer 0 and an integer read as a
`char *` as a null pointer, cases C leaves undefined. The output is the list of bytes handed
to `output`. A literal field width and the count of `vsnprintf_helper`, `int`s in C, are
unbounded here.
-/

namespace Pintos

/-- A character of the format or of the output, as a byte. -/
def chr (c : Char) : UInt8 := c.toNat.toUInt8

/-- The flag bits of `struct printf_conversion`. -/
structure PrintfFlags where
  minus : Bool
  plus : Bool
  space : Bool
  pound : Bool
  zero : Bool
  group : Bool
  deriving DecidableEq, Repr

/-- `c->flags = 0`. -/
def PrintfFlags.empty : PrintfFlags := ⟨false, false, false, false, false, false⟩

/-- The argument types of `struct printf_conversion`, one for each length modifier. -/
inductive ArgType
  | char
  | short
  | int
  | intmax
  | long
  | longlong
  | ptrdifft
  | sizet
  deriving DecidableEq, Repr

/-- `struct printf_conversion`; a precision of `-1` is none. -/
structure PrintfConversion where
  flags : PrintfFlags
  width : ℤ
  precision : ℤ
  type : ArgType
  deriving DecidableEq, Repr

/-- An argument of `printf`. -/
inductive PrintfArg
  | int (v : ℤ)
  | str (s : List UInt8)
  deriving DecidableEq, Repr

/-- The argument's value as an integer. -/
def PrintfArg.value : PrintfArg → ℤ
  | .int v => v
  | .str _ => 0

/-- The argument as a `char *`: the string's bytes, or `none` for a null pointer. -/
def PrintfArg.string? : PrintfArg → Option (List UInt8)
  | .int _ => none
  | .str s => some s

/-- `va_arg`: the next argument, and the arguments after it. -/
def vaArg : List PrintfArg → PrintfArg × List PrintfArg
  | [] => (.int 0, [])
  | a :: args => (a, args)

/-- A conversion of `v` to a signed type `bits` wide. -/
def castSigned (bits : ℕ) (v : ℤ) : ℤ := toSigned bits (toUnsigned bits v)

/-! ## `parse_conversion` -/

/-- `isdigit`. -/
def isDigit (c : UInt8) : Bool := chr '0' ≤ c && c ≤ chr '9'

/-- The flag loop of `parse_conversion`: the flags read, and the format after them. -/
def parseFlags (flags : PrintfFlags) : List UInt8 → PrintfFlags × List UInt8
  | [] => (flags, [])
  | c :: format =>
    if c = chr '-' then parseFlags { flags with minus := true } format
    else if c = chr '+' then parseFlags { flags with plus := true } format
    else if c = chr ' ' then parseFlags { flags with space := true } format
    else if c = chr '#' then parseFlags { flags with pound := true } format
    else if c = chr '0' then parseFlags { flags with zero := true } format
    -- the apostrophe, for grouping
    else if c = 39 then parseFlags { flags with group := true } format
    else (flags, c :: format)

/-- `for (; isdigit (*format); format++) n = n * 10 + *format - '0';` -/
def parseDigits (n : ℤ) : List UInt8 → ℤ × List UInt8
  | [] => (n, [])
  | c :: format =>
    if isDigit c then parseDigits (n * 10 + ((c.toNat : ℤ) - (chr '0').toNat)) format
    else (n, c :: format)

/-- A field width, or a precision after its `.`: `*` reads an `int` argument, and digits a
number, 0 when there are none. -/
def parseNumber (format : List UInt8) (args : List PrintfArg) :
    ℤ × List UInt8 × List PrintfArg :=
  if format.head? = some (chr '*') then
    (castSigned 32 (vaArg args).1.value, format.tail, (vaArg args).2)
  else ((parseDigits 0 format).1, (parseDigits 0 format).2, args)

/-- The precision: `-1` when there is no `.` or when `*` reads a negative argument. -/
def parsePrecision (format : List UInt8) (args : List PrintfArg) :
    ℤ × List UInt8 × List PrintfArg :=
  if format.head? = some (chr '.') then
    let r := parseNumber format.tail args
    (if r.1 < 0 then -1 else r.1, r.2)
  else (-1, format, args)

/-- The length modifier. -/
def parseType : List UInt8 → ArgType × List UInt8
  | [] => (.int, [])
  | c :: format =>
    if c = chr 'h' then
      if format.head? = some (chr 'h') then (.char, format.tail) else (.short, format)
    else if c = chr 'j' then (.intmax, format)
    else if c = chr 'l' then
      if format.head? = some (chr 'l') then (.longlong, format.tail) else (.long, format)
    else if c = chr 't' then (.ptrdifft, format)
    else if c = chr 'z' then (.sizet, format)
    else (.int, c :: format)

/-- `parse_conversion`: the conversion, the format from its conversion byte on, and the
arguments left. -/
def parseConversion (format : List UInt8) (args : List PrintfArg) :
    PrintfConversion × List UInt8 × List PrintfArg :=
  let f := parseFlags PrintfFlags.empty format
  let flags := if f.1.minus then { f.1 with zero := false } else f.1
  let flags := if flags.plus then { flags with space := false } else flags
  let w := parseNumber f.2 args
  -- a negative width is the `-` flag, set after `0` was cleared for `-`
  let flags := if w.1 < 0 then { flags with minus := true } else flags
  let p := parsePrecision w.2.1 w.2.2
  let flags := if 0 ≤ p.1 then { flags with zero := false } else flags
  let t := parseType p.2.1
  (⟨flags, if w.1 < 0 then -w.1 else w.1, p.1, t.1⟩, t.2, p.2.2)

/-! ## `format_integer` and `format_string` -/

/-- `struct integer_base`; an `x` of 0 is no `0x` prefix. -/
structure IntegerBase where
  base : ℕ
  digits : List UInt8
  x : UInt8
  group : ℕ
  two_le : 2 ≤ base
  zero_digit : digits.getD 0 0 = chr '0'

/-- The digit for `d`. -/
def IntegerBase.digit (b : IntegerBase) (d : ℕ) : UInt8 := b.digits.getD d 0

def baseD : IntegerBase :=
  ⟨10, ['0', '1', '2', '3', '4', '5', '6', '7', '8', '9'].map chr, 0, 3, by decide, rfl⟩

def baseO : IntegerBase := ⟨8, ['0', '1', '2', '3', '4', '5', '6', '7'].map chr, 0, 3, by decide, rfl⟩

def baseX : IntegerBase :=
  ⟨16, ['0', '1', '2', '3', '4', '5', '6', '7', '8', '9', 'a', 'b', 'c', 'd', 'e', 'f'].map chr,
    chr 'x', 4, by decide, rfl⟩

def baseXUpper : IntegerBase :=
  ⟨16, ['0', '1', '2', '3', '4', '5', '6', '7', '8', '9', 'A', 'B', 'C', 'D', 'E', 'F'].map chr,
    chr 'X', 4, by decide, rfl⟩

/-- The digit loop of `format_integer`: the digits of `value`, least significant first, after
`buf`, with a comma before every `group`th under the apostrophe flag. -/
def accumulateDigits (b : IntegerBase) (grouping : Bool) (value digitCnt : ℕ) (buf : List UInt8) :
    List UInt8 :=
  if 0 < value then
    let buf := if grouping ∧ 0 < digitCnt ∧ digitCnt % b.group = 0 then buf ++ [chr ','] else buf
    accumulateDigits b grouping (value / b.base) (digitCnt + 1) (buf ++ [b.digit (value % b.base)])
  else buf
termination_by value
decreasing_by exact Nat.div_lt_self ‹_› (by have := b.two_le; omega)

/-- `output_dup`. -/
def outputDup (ch : UInt8) (cnt : ℕ) : List UInt8 := List.replicate cnt ch

/-- The sign byte of `format_integer`, 0 for none; an unsigned conversion has none. -/
def integerSign (isSigned negative : Bool) (flags : PrintfFlags) : UInt8 :=
  if isSigned then
    if flags.plus then (if negative then chr '-' else chr '+')
    else if flags.space then (if negative then chr '-' else chr ' ')
    else if negative then chr '-' else 0
  else 0

/-- The buffer of `format_integer` once its digits, the zeros for the precision and the zero
of `#` in octal are in, least significant first. -/
def integerBuffer (value : ℕ) (b : IntegerBase) (c : PrintfConversion) : List UInt8 :=
  let buf := accumulateDigits b c.flags.group value 0 []
  let precision : ℕ := if c.precision < 0 then 1 else c.precision.toNat
  -- zeros up to the precision, within the 63 bytes `buf [64]` leaves before its last
  let buf := buf ++ List.replicate (min precision 63 - buf.length) (chr '0')
  if c.flags.pound ∧ b.base = 8 ∧ buf.getLast? ≠ some (chr '0') then buf ++ [chr '0'] else buf

/-- `format_integer`: the magnitude `value`, negative or not for a signed conversion. The
`x` byte is 0 when there is no `0x`. -/
def formatInteger (value : ℕ) (isSigned negative : Bool) (b : IntegerBase) (c : PrintfConversion) :
    List UInt8 :=
  let sign := integerSign isSigned negative c.flags
  let x : UInt8 := if c.flags.pound ∧ value ≠ 0 then b.x else 0
  let buf := integerBuffer value b c
  let padCnt := (c.width - buf.length - (if x ≠ 0 then 2 else 0) - (if sign ≠ 0 then 1 else 0)).toNat
  (if ¬c.flags.minus ∧ ¬c.flags.zero then outputDup (chr ' ') padCnt else []) ++
    (if sign ≠ 0 then [sign] else []) ++ (if x ≠ 0 then [chr '0', x] else []) ++
    (if c.flags.zero then outputDup (chr '0') padCnt else []) ++ buf.reverse ++
    (if c.flags.minus then outputDup (chr ' ') padCnt else [])

/-- `format_string`: the first `length` bytes of `string` in a field of `c.width`. -/
def formatString (string : List UInt8) (length : ℕ) (c : PrintfConversion) : List UInt8 :=
  (if length < c.width ∧ ¬c.flags.minus then outputDup (chr ' ') (c.width - length).toNat else []) ++
    string.take length ++
    (if length < c.width ∧ c.flags.minus then outputDup (chr ' ') (c.width - length).toNat else [])

/-! ## `__vprintf` -/

/-- The value `__vprintf` reads for `%d` and `%i`. -/
def signedValue (type : ArgType) (a : PrintfArg) : ℤ :=
  match type with
  | .char => castSigned 8 (castSigned 32 a.value)
  | .short => castSigned 16 (castSigned 32 a.value)
  | .int => castSigned 32 a.value
  | .intmax => castSigned 64 a.value
  | .long => castSigned 32 a.value
  | .longlong => castSigned 64 a.value
  | .ptrdifft => castSigned 32 a.value
  | .sizet =>
    -- `value = va_arg (args, size_t); if (value > SIZE_MAX / 2) value = value - SIZE_MAX - 1;`
    let value : ℤ := toUnsigned 32 a.value
    if value > (2 ^ 32 - 1) / 2 then value - (2 ^ 32 - 1) - 1 else value

/-- The value `__vprintf` reads for `%o`, `%u`, `%x` and `%X`. -/
def unsignedValue (type : ArgType) (a : PrintfArg) : ℕ :=
  match type with
  | .char => toUnsigned 8 (toUnsigned 32 a.value)
  | .short => toUnsigned 16 (toUnsigned 32 a.value)
  | .int => toUnsigned 32 a.value
  | .intmax => toUnsigned 64 a.value
  | .long => toUnsigned 32 a.value
  | .longlong => toUnsigned 64 a.value
  -- `value &= ((uintmax_t) PTRDIFF_MAX << 1) | 1`
  | .ptrdifft => toUnsigned 64 (castSigned 32 a.value) % 2 ^ 32
  | .sizet => toUnsigned 32 a.value

/-- `__printf ("<<no %%%c in kernel>>", output, aux, *format)`. -/
def noInKernel (k : UInt8) : List UInt8 :=
  "<<no %".toList.map chr ++ [k] ++ " in kernel>>".toList.map chr

/-- `__printf ("<<no %%%c conversion>>", output, aux, *format)`. -/
def noConversion (k : UInt8) : List UInt8 :=
  "<<no %".toList.map chr ++ [k] ++ " conversion>>".toList.map chr

/-- The `switch` of `__vprintf` on the conversion byte `k`: what it outputs, and the arguments
it leaves. -/
def doConversion (c : PrintfConversion) (k : UInt8) (args : List PrintfArg) :
    List UInt8 × List PrintfArg :=
  let a := (vaArg args).1
  let rest := (vaArg args).2
  if k = chr 'd' ∨ k = chr 'i' then
    let value := signedValue c.type a
    (formatInteger (toUnsigned 64 (if value < 0 then -value else value)) true (value < 0) baseD c,
      rest)
  else if k = chr 'o' ∨ k = chr 'u' ∨ k = chr 'x' ∨ k = chr 'X' then
    let b := if k = chr 'o' then baseO else if k = chr 'u' then baseD
      else if k = chr 'x' then baseX else baseXUpper
    (formatInteger (unsignedValue c.type a) false false b c, rest)
  else if k = chr 'c' then
    -- `char ch = va_arg (args, int)`
    (formatString [(toUnsigned 8 (castSigned 32 a.value)).toUInt8] 1 c, rest)
  else if k = chr 's' then
    let s := a.string?.getD ("(null)".toList.map chr)
    -- `strnlen (s, c.precision)`, the precision taken as a `size_t`
    (formatString s (min s.length (toUnsigned 32 c.precision)) c, rest)
  else if k = chr 'p' then
    (formatInteger (toUnsigned 32 a.value) false false baseX
      { c with flags := { PrintfFlags.empty with pound := true } }, rest)
  else if k ∈ ['f', 'e', 'E', 'g', 'G', 'n'].map chr then (noInKernel k, args)
  else (noConversion k, args)

/-- One round of `__vprintf`'s loop at the byte `c`, not the null byte, followed by `format`:
what it outputs, and the format and arguments the next round starts from; `none` when the
conversion byte is the null byte, after which the code reads on past the string. -/
def vprintfRound (c : UInt8) (format : List UInt8) (args : List PrintfArg) :
    List UInt8 × Option (List UInt8) × List PrintfArg :=
  if c ≠ chr '%' then ([c], some format, args)
  else if format.head? = some (chr '%') then ([chr '%'], some format.tail, args)
  else
    let r := parseConversion format args
    match r.2.1 with
    | k :: format =>
      if k = 0 then ((doConversion r.1 0 r.2.2).1, none, r.2.2)
      else ((doConversion r.1 k r.2.2).1, some format, (doConversion r.1 k r.2.2).2)
    | [] => ((doConversion r.1 0 r.2.2).1, none, r.2.2)

/-- `__vprintf`'s loop, for at most `fuel` rounds. -/
def vprintfLoop : ℕ → List UInt8 → List PrintfArg → List UInt8
  | 0, _, _ => []
  | _ + 1, [], _ => []
  | fuel + 1, c :: format, args =>
    if c = 0 then []
    else
      match vprintfRound c format args with
      | (out, some format, args) => out ++ vprintfLoop fuel format args
      | (out, none, _) => out

/-- `__vprintf`. Every round takes at least one byte of the format, so as many rounds as it has
bytes are enough (`vprintfLoop_of_length_le`). -/
def vprintf (format : List UInt8) (args : List PrintfArg) : List UInt8 :=
  vprintfLoop format.length format args

/-! ## `vsnprintf` -/

/-- `struct vsnprintf_aux`, with the bytes stored from `buffer` on in place of `p`. -/
structure VsnprintfAux where
  written : List UInt8
  length : ℕ
  maxLength : ℤ

/-- `vsnprintf_helper`. -/
def vsnprintfHelper (aux : VsnprintfAux) (ch : UInt8) : VsnprintfAux :=
  if (aux.length : ℤ) < aux.maxLength then
    { aux with written := aux.written ++ [ch], length := aux.length + 1 }
  else { aux with length := aux.length + 1 }

/-- `vsnprintf (buffer, buf_size, format, args)`: the count it returns, and the bytes it stores
from `buffer` on. -/
def vsnprintf (bufSize : ℕ) (format : List UInt8) (args : List PrintfArg) : ℤ × List UInt8 :=
  -- `aux.max_length = buf_size > 0 ? buf_size - 1 : 0`, an `int`
  let aux : VsnprintfAux := ⟨[], 0, if 0 < bufSize then castSigned 32 (bufSize - 1) else 0⟩
  let aux := (vprintf format args).foldl vsnprintfHelper aux
  (aux.length, if 0 < bufSize then aux.written ++ [0] else aux.written)

/-! ## Conversions of integers -/

/-- A conversion to a signed type keeps a value that the type holds. -/
theorem castSigned_of_mem {bits : ℕ} {v : ℤ} (hb : 0 < bits) (hlo : -2 ^ (bits - 1) ≤ v)
    (hhi : v < 2 ^ (bits - 1)) : castSigned bits v = v := by
  obtain ⟨k, rfl⟩ : ∃ k, bits = k + 1 := ⟨bits - 1, by omega⟩
  rw [Nat.add_sub_cancel] at hlo hhi
  have hpow : (2 : ℤ) ^ (k + 1) = 2 * 2 ^ k := by ring
  unfold castSigned toSigned toUnsigned
  rw [Nat.add_sub_cancel]
  rcases le_or_gt 0 v with hv | hv
  · have hmod : v % 2 ^ (k + 1) = v := Int.emod_eq_of_lt hv (by omega)
    rw [hmod, if_pos (by zify [hv]; omega), Int.toNat_of_nonneg hv]
  · have hmod : v % 2 ^ (k + 1) = v + 2 ^ (k + 1) := by
      rw [← Int.add_mul_emod_self_right v 1 (2 ^ (k + 1)), one_mul]
      exact Int.emod_eq_of_lt (by omega) (by omega)
    have hnn : 0 ≤ v + 2 ^ (k + 1) := by omega
    rw [hmod, if_neg (by zify [hnn]; omega), Int.toNat_of_nonneg hnn]
    ring

/-! ## Each round takes at least one byte of the format -/

theorem parseFlags_suffix (flags : PrintfFlags) (format : List UInt8) :
    (parseFlags flags format).2 <:+ format := by
  induction format generalizing flags with
  | nil => exact List.suffix_refl _
  | cons c format ih =>
    simp only [parseFlags]
    split_ifs <;> first | exact (ih _).trans (List.suffix_cons _ _) | exact List.suffix_refl _

theorem parseDigits_suffix (n : ℤ) (format : List UInt8) : (parseDigits n format).2 <:+ format := by
  induction format generalizing n with
  | nil => exact List.suffix_refl _
  | cons c format ih =>
    simp only [parseDigits]
    split_ifs
    · exact (ih _).trans (List.suffix_cons _ _)
    · exact List.suffix_refl _

theorem parseNumber_suffix (format : List UInt8) (args : List PrintfArg) :
    (parseNumber format args).2.1 <:+ format := by
  unfold parseNumber
  split_ifs
  · exact List.tail_suffix _
  · exact parseDigits_suffix 0 format

theorem parsePrecision_suffix (format : List UInt8) (args : List PrintfArg) :
    (parsePrecision format args).2.1 <:+ format := by
  unfold parsePrecision
  split_ifs
  · exact (parseNumber_suffix _ args).trans (List.tail_suffix _)
  · exact List.suffix_refl _

theorem parseType_suffix (format : List UInt8) : (parseType format).2 <:+ format := by
  cases format with
  | nil => exact List.suffix_refl _
  | cons c format =>
    simp only [parseType]
    split_ifs <;>
      first
      | exact List.suffix_refl _
      | exact List.suffix_cons _ _
      | exact (List.tail_suffix _).trans (List.suffix_cons _ _)

theorem parseConversion_suffix (format : List UInt8) (args : List PrintfArg) :
    (parseConversion format args).2.1 <:+ format :=
  (parseType_suffix _).trans <| (parsePrecision_suffix _ _).trans <|
    (parseNumber_suffix _ _).trans (parseFlags_suffix _ _)

theorem vprintfRound_suffix {c : UInt8} {format format' : List UInt8} {args args' : List PrintfArg}
    {out : List UInt8} (h : vprintfRound c format args = (out, some format', args')) :
    format' <:+ format := by
  unfold vprintfRound at h
  split_ifs at h with hc hpct
  · cases h
    exact List.suffix_refl _
  · cases h
    exact List.tail_suffix _
  · have hsuffix := parseConversion_suffix format args
    dsimp only at h
    rcases hr : (parseConversion format args).2.1 with _ | ⟨k, rest⟩ <;> rw [hr] at h hsuffix
    · cases h
    · dsimp only at h
      split_ifs at h
      · simp at h
      · simp only [Prod.mk.injEq, Option.some.injEq] at h
        rw [← h.2.1]
        exact (List.suffix_cons _ _).trans hsuffix

/-- Rounds beyond one per byte of the format change nothing. -/
theorem vprintfLoop_congr_fuel :
    ∀ (fuel fuel' : ℕ) (format : List UInt8) (args : List PrintfArg), format.length ≤ fuel →
      format.length ≤ fuel' → vprintfLoop fuel format args = vprintfLoop fuel' format args
  | 0, fuel', format, args, h, _ => by
    rw [List.eq_nil_of_length_eq_zero (Nat.le_zero.mp h)]
    cases fuel' <;> rfl
  | fuel + 1, 0, format, args, _, h => by
    rw [List.eq_nil_of_length_eq_zero (Nat.le_zero.mp h)]
    rfl
  | fuel + 1, fuel' + 1, [], args, _, _ => rfl
  | fuel + 1, fuel' + 1, c :: format, args, h, h' => by
    simp only [vprintfLoop]
    split_ifs
    · rfl
    · rcases hround : vprintfRound c format args with ⟨out, _ | next, args'⟩
      · rfl
      · have hlen := (vprintfRound_suffix hround).length_le
        simp only [List.length_cons] at h h'
        dsimp only
        rw [vprintfLoop_congr_fuel fuel fuel' next args' (by omega) (by omega)]

theorem vprintfLoop_of_length_le {fuel : ℕ} {format : List UInt8} (args : List PrintfArg)
    (h : format.length ≤ fuel) : vprintfLoop fuel format args = vprintf format args :=
  vprintfLoop_congr_fuel fuel format.length format args h le_rfl

/-! ## The digit buffer -/

theorem IntegerBase.one_lt (b : IntegerBase) : 1 < b.base := b.two_le

/-- Without the apostrophe flag the digit loop writes the digits of `value`, least significant
first. -/
theorem accumulateDigits_eq (b : IntegerBase) (value digitCnt : ℕ) (buf : List UInt8) :
    accumulateDigits b false value digitCnt buf = buf ++ (Nat.digits b.base value).map b.digit := by
  induction value using Nat.strong_induction_on generalizing digitCnt buf with
  | _ value ih =>
    rw [accumulateDigits]
    by_cases hv : 0 < value
    · rw [if_pos hv, ih (value / b.base) (Nat.div_lt_self hv b.one_lt),
        Nat.digits_def' b.one_lt hv]
      simp
    · rw [if_neg hv, Nat.eq_zero_of_not_pos hv]
      simp

/-- The zeros that follow the digits in the buffer make them the digits padded to the
precision, read from the end. -/
theorem digits_append_zeros (b : IntegerBase) (precision value : ℕ) :
    (Nat.digits b.base value).map b.digit ++
        List.replicate (precision - (Nat.digits b.base value).length) (chr '0') =
      ((Positional.padDigits b.base precision value).map b.digit).reverse := by
  have hzero : b.digit 0 = chr '0' := b.zero_digit
  rw [Positional.padDigits, List.map_reverse, List.reverse_reverse, Nat.digitsAppend,
    List.map_append, List.map_replicate, hzero]

/-- With no apostrophe flag and a precision the buffer holds, the buffer read from its end is
the digits padded with zeros to the precision, after a zero for `#` in octal when the first
digit is not one. -/
theorem integerBuffer_eq {value : ℕ} {b : IntegerBase} {c : PrintfConversion}
    (hgroup : c.flags.group = false) (hprec : c.precision ≤ 63) :
    integerBuffer value b c =
      (let ds := (Positional.padDigits b.base (if c.precision < 0 then 1 else c.precision.toNat)
          value).map b.digit
        if c.flags.pound ∧ b.base = 8 ∧ ds.head? ≠ some (chr '0') then chr '0' :: ds else ds).reverse := by
  have hmin : min (if c.precision < 0 then 1 else c.precision.toNat) 63 =
      if c.precision < 0 then 1 else c.precision.toNat := by
    split_ifs <;> omega
  simp only [integerBuffer, hgroup, accumulateDigits_eq, List.nil_append, hmin, List.length_map,
    digits_append_zeros, List.getLast?_reverse]
  split_ifs <;> simp

/-! ## `vsnprintf` -/

/-- The helper stores the bytes while the count is below `max_length`, and counts them all. -/
theorem foldl_vsnprintfHelper (out written : List UInt8) (n : ℕ) (m : ℤ) :
    out.foldl vsnprintfHelper ⟨written, n, m⟩ = ⟨written ++ out.take (m.toNat - n), n + out.length, m⟩ := by
  induction out generalizing written n with
  | nil => simp
  | cons ch out ih =>
    rw [List.foldl_cons, vsnprintfHelper]
    split_ifs with hroom <;> dsimp only at hroom
    · rw [ih]
      obtain ⟨k, hk⟩ : ∃ k, m.toNat - n = k + 1 := ⟨m.toNat - n - 1, by omega⟩
      rw [hk, List.take_succ_cons, show m.toNat - (n + 1) = k by omega]
      simp only [List.append_assoc, List.singleton_append, List.length_cons]
      congr 1
      omega
    · rw [ih, show m.toNat - (n + 1) = 0 by omega, show m.toNat - n = 0 by omega]
      simp only [List.length_cons]
      congr 1
      omega

/-- For a buffer of at most `2 ^ 31` bytes, `vsnprintf` returns the length of the whole output
and stores its first `buf_size - 1` bytes and a null byte; nothing when `buf_size` is 0. -/
theorem vsnprintf_eq {bufSize : ℕ} (format : List UInt8) (args : List PrintfArg)
    (h : bufSize ≤ 2 ^ 31) :
    vsnprintf bufSize format args = (((vprintf format args).length : ℤ),
      if 0 < bufSize then (vprintf format args).take (bufSize - 1) ++ [0] else []) := by
  simp only [vsnprintf, foldl_vsnprintfHelper, List.nil_append, Nat.zero_add, Nat.sub_zero]
  split_ifs with hpos
  · have hmax : castSigned 32 ((bufSize : ℤ) - 1) = ((bufSize - 1 : ℕ) : ℤ) := by
      rw [castSigned_of_mem (by decide) (by omega) (by norm_num; omega)]
      omega
    rw [hmax, Int.toNat_natCast]
  · simp

end Pintos
