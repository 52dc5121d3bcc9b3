import Pintos.Libc.Printf

/-! # `printf` against C99

What the C99 standard's `fprintf` (7.19.6.1) writes for the conversions `lib/stdio.c`
implements: the integer conversions `d i o u x X` with the flags `- + space # 0`, a field width
and a precision, each a number or `*`, and the length modifiers `hh h j l ll t z`; `%c` and
`%s` with `-` and a field width, `%s` also with a precision; and `%%`.

A format is a list of `Piece`s, spelled by `render`. `Piece.read` takes a piece's arguments as
C99 does (a negative `*` width is the `-` flag and a width, a negative `*` precision none) and
gives a `Directive`, whose `output` is the bytes C99 specifies; `none` is undefined behaviour:
an argument missing, or not of the type the conversion takes. The types have the widths of
`Printf`; for `hh` and `h` the promoted argument is converted back to the character or short
type, which keeps its low bits.
-/

namespace Pintos

/-- A flag of a conversion specification. -/
inductive FlagChar
  | minus
  | plus
  | space
  | pound
  | zero
  deriving DecidableEq, Repr

/-- A field width: none, a decimal number (which cannot start with the flag `0`), or `*`. -/
inductive FieldWidth
  | none
  | lit (n : ℕ) (pos : 0 < n)
  | star
  deriving DecidableEq, Repr

/-- A precision: none, `.` and a decimal number, or `.*`. -/
inductive FieldPrecision
  | none
  | lit (n : ℕ)
  | star
  deriving DecidableEq, Repr

inductive LengthModifier
  | hh
  | h
  | none
  | j
  | l
  | ll
  | t
  | z
  deriving DecidableEq, Repr

inductive IntConversion
  | d
  | i
  | o
  | u
  | x
  | X
  deriving DecidableEq, Repr

/-- A piece of a format: a byte other than `%` and the null byte, `%%`, or a conversion
specification. -/
inductive Piece
  | text (c : UInt8) (ok : c ≠ 0 ∧ c ≠ chr '%')
  | percent
  | int (flags : List FlagChar) (w : FieldWidth) (p : FieldPrecision) (m : LengthModifier)
      (k : IntConversion)
  | char (leftAdjust : Bool) (w : FieldWidth)
  | str (leftAdjust : Bool) (w : FieldWidth) (p : FieldPrecision)

/-! ## Spelling a format -/

/-- The digit `d` in base 10 or 16. -/
def digitByte (upper : Bool) (d : ℕ) : UInt8 :=
  if d < 10 then ((chr '0').toNat + d).toUInt8
  else ((if upper then chr 'A' else chr 'a').toNat + (d - 10)).toUInt8

/-- The decimal digits of `n`. -/
def decimal (n : ℕ) : List UInt8 := (Positional.padDigits 10 1 n).map (digitByte false)

def FlagChar.byte : FlagChar → UInt8
  | .minus => chr '-'
  | .plus => chr '+'
  | .space => chr ' '
  | .pound => chr '#'
  | .zero => chr '0'

def FieldWidth.render : FieldWidth → List UInt8
  | .none => []
  | .lit n _ => decimal n
  | .star => [chr '*']

def FieldPrecision.render : FieldPrecision → List UInt8
  | .none => []
  | .lit n => chr '.' :: decimal n
  | .star => [chr '.', chr '*']

def LengthModifier.render : LengthModifier → List UInt8
  | .hh => [chr 'h', chr 'h']
  | .h => [chr 'h']
  | .none => []
  | .j => [chr 'j']
  | .l => [chr 'l']
  | .ll => [chr 'l', chr 'l']
  | .t => [chr 't']
  | .z => [chr 'z']

def IntConversion.byte : IntConversion → UInt8
  | .d => chr 'd'
  | .i => chr 'i'
  | .o => chr 'o'
  | .u => chr 'u'
  | .x => chr 'x'
  | .X => chr 'X'

def Piece.render : Piece → List UInt8
  | .text c _ => [c]
  | .percent => [chr '%', chr '%']
  | .int flags w p m k =>
    chr '%' :: flags.map FlagChar.byte ++ w.render ++ p.render ++ m.render ++ [k.byte]
  | .char leftAdjust w => chr '%' :: (if leftAdjust then [chr '-'] else []) ++ w.render ++ [chr 'c']
  | .str leftAdjust w p =>
    chr '%' :: (if leftAdjust then [chr '-'] else []) ++ w.render ++ p.render ++ [chr 's']

/-- The format of the pieces `ps`. -/
def render (ps : List Piece) : List UInt8 := ps.flatMap Piece.render

/-! ## What C99 writes -/

/-- `v` is a value of a signed type `bits` wide. -/
def FitsSigned (bits : ℕ) (v : ℤ) : Prop := -2 ^ (bits - 1) ≤ v ∧ v < 2 ^ (bits - 1)

/-- `v` is a value of an unsigned type `bits` wide. -/
def FitsUnsigned (bits : ℕ) (v : ℤ) : Prop := 0 ≤ v ∧ v < 2 ^ bits

instance (bits : ℕ) : DecidablePred (FitsSigned bits) := fun _ =>
  inferInstanceAs (Decidable (_ ∧ _))

instance (bits : ℕ) : DecidablePred (FitsUnsigned bits) := fun _ =>
  inferInstanceAs (Decidable (_ ∧ _))

/-- The value of an `int` argument. -/
def intArg : PrintfArg → Option ℤ
  | .int v => if FitsSigned 32 v then some v else none
  | .str _ => none

/-- The width of the type a length modifier names, after the integer promotions. -/
def LengthModifier.bits : LengthModifier → ℕ
  | .j | .ll => 64
  | _ => 32

def IntConversion.signed (k : IntConversion) : Bool := k = .d ∨ k = .i

def IntConversion.base : IntConversion → ℕ
  | .o => 8
  | .x | .X => 16
  | _ => 10

/-- A signed argument converted to the type the length modifier names: `hh` and `h` convert the
promoted argument back to `signed char` or `short`. -/
def LengthModifier.signedWord (m : LengthModifier) (v : ℤ) : ℤ :=
  match m with
  | .hh => castSigned 8 v
  | .h => castSigned 16 v
  | _ => v

/-- An unsigned argument converted to the type the length modifier names. -/
def LengthModifier.unsignedWord (m : LengthModifier) (v : ℤ) : ℕ :=
  match m with
  | .hh => toUnsigned 8 v
  | .h => toUnsigned 16 v
  | _ => v.toNat

/-- The sign and the magnitude an integer conversion prints: the argument's value, of the
type the length modifier names (for `hh` and `h`, the promoted argument converted to the
character or short type); `none` for an argument of another type. An `hh` or `h` argument of an
unsigned conversion may have been promoted to `int` or to `unsigned int`. -/
def IntConversion.value (k : IntConversion) (m : LengthModifier) : PrintfArg → Option (Bool × ℕ)
  | .str _ => none
  | .int v =>
    if k.signed then
      if FitsSigned m.bits v then some (decide (m.signedWord v < 0), (m.signedWord v).natAbs)
      else none
    else if FitsUnsigned m.bits v ∨ ((m = .hh ∨ m = .h) ∧ FitsSigned 32 v) then
      some (false, m.unsignedWord v)
    else none

/-- A piece with its arguments taken. `starLeft` is left adjustment asked for by a negative `*`
width. -/
inductive Directive
  | text (c : UInt8)
  | integer (flags : List FlagChar) (starLeft : Bool) (width : ℕ) (precision : Option ℕ)
      (k : IntConversion) (negative : Bool) (magnitude : ℕ)
  | char (leftAdjust : Bool) (width : ℕ) (c : UInt8)
  | string (leftAdjust : Bool) (width : ℕ) (precision : Option ℕ) (s : List UInt8)

/-- A field width read: left adjustment from a negative `*` argument, and the width. -/
def FieldWidth.read : FieldWidth → List PrintfArg → Option ((Bool × ℕ) × List PrintfArg)
  | .none, args => some ((false, 0), args)
  | .lit n _, args => some ((false, n), args)
  | .star, [] => Option.none
  | .star, a :: args => (intArg a).map fun v => ((decide (v < 0), v.natAbs), args)

/-- A precision read; a negative `*` argument is taken as no precision. -/
def FieldPrecision.read : FieldPrecision → List PrintfArg → Option (Option ℕ × List PrintfArg)
  | .none, args => some (Option.none, args)
  | .lit n, args => some (some n, args)
  | .star, [] => Option.none
  | .star, a :: args => (intArg a).map fun v => (if v < 0 then Option.none else some v.toNat, args)

def Piece.read : Piece → List PrintfArg → Option (Directive × List PrintfArg)
  | .text c _, args => some (.text c, args)
  | .percent, args => some (.text (chr '%'), args)
  | .int flags w p m k, args =>
    (w.read args).bind fun r => (p.read r.2).bind fun q =>
      match q.2 with
      | [] => none
      | a :: args => (k.value m a).map fun v =>
        (.integer flags r.1.1 r.1.2 q.1 k v.1 v.2, args)
  | .char leftAdjust w, args =>
    (w.read args).bind fun r =>
      match r.2 with
      | [] => none
      | a :: args => (intArg a).map fun v =>
        -- the `int` argument converted to an `unsigned char`
        (.char (leftAdjust || r.1.1) r.1.2 (toUnsigned 8 v).toUInt8, args)
  | .str leftAdjust w p, args =>
    (w.read args).bind fun r => (p.read r.2).bind fun q =>
      match q.2 with
      | [] => none
      | a :: args => a.string?.map fun s => (.string (leftAdjust || r.1.1) r.1.2 q.1 s, args)

/-- `pre ++ body` in a field of `width` (p4, and `-` and `0` in p6): spaces on the left, on
the right when left adjusted, or zeros between the sign and `0x` in `pre` and the digits in
`body`. -/
def pad (leftAdjust zeroPad : Bool) (width : ℕ) (pre body : List UInt8) : List UInt8 :=
  let n := width - (pre.length + body.length)
  if leftAdjust then pre ++ body ++ List.replicate n (chr ' ')
  else if zeroPad then pre ++ List.replicate n (chr '0') ++ body
  else List.replicate n (chr ' ') ++ pre ++ body

/-- The digits of an integer conversion (p8), with at least `precision` of them, 1 by default,
and none for 0 at precision 0. `#` with `o` raises the precision just enough for the first digit
to be a zero. -/
def c99Digits (flags : List FlagChar) (precision : Option ℕ) (k : IntConversion) (magnitude : ℕ) :
    List UInt8 :=
  let ds := (Positional.padDigits k.base (precision.getD 1) magnitude).map (digitByte (k = .X))
  if .pound ∈ flags ∧ k = .o ∧ ds.head? ≠ some (chr '0') then chr '0' :: ds else ds

/-- The sign of a signed conversion: `-` for a negative value, else `+` or ` ` as the flags ask,
`+` before ` `. -/
def c99Sign (flags : List FlagChar) (k : IntConversion) (negative : Bool) : List UInt8 :=
  if k.signed then
    if negative then [chr '-'] else if .plus ∈ flags then [chr '+']
    else if .space ∈ flags then [chr ' '] else []
  else []

/-- `0x` or `0X` for `#` with a nonzero `x` or `X` conversion. -/
def c99Alt (flags : List FlagChar) (k : IntConversion) (magnitude : ℕ) : List UInt8 :=
  if .pound ∈ flags ∧ (k = .x ∨ k = .X) ∧ magnitude ≠ 0 then [chr '0', k.byte] else []

/-- What C99 writes for a directive. `0` gives way to `-` and to a precision. -/
def Directive.output : Directive → List UInt8
  | .text c => [c]
  | .integer flags starLeft width precision k negative magnitude =>
    pad (decide (.minus ∈ flags) || starLeft) (decide (.zero ∈ flags) && precision.isNone) width
      (c99Sign flags k negative ++ c99Alt flags k magnitude) (c99Digits flags precision k magnitude)
  | .char leftAdjust width c => pad leftAdjust false width [] [c]
  | .string leftAdjust width precision s => pad leftAdjust false width [] (precision.elim s s.take)

def readAll : List Piece → List PrintfArg → Option (List Directive)
  | [], _ => some []
  | p :: ps, args => (p.read args).bind fun r => (readAll ps r.2).map (r.1 :: ·)

/-- What C99's `fprintf` writes for the format `ps` and the arguments `args`; `none` when its
behaviour is undefined. -/
def c99Format (ps : List Piece) (args : List PrintfArg) : Option (List UInt8) :=
  (readAll ps args).map (List.flatMap Directive.output)

/-! ## Reading a rendered conversion -/

/-- The argument type `parse_conversion` records for a length modifier. -/
def LengthModifier.type : LengthModifier → ArgType
  | .hh => .char
  | .h => .short
  | .none => .int
  | .j => .intmax
  | .l => .long
  | .ll => .longlong
  | .t => .ptrdifft
  | .z => .sizet

/-- The conversion `parse_conversion` makes of flags, a field width read with the left
adjustment it asks for, a precision read and an argument type. `0` is cleared for `-` only when
`-` is among the flags. -/
def engineConversion (flags : List FlagChar) (left : Bool) (width : ℕ) (precision : Option ℕ)
    (type : ArgType) : PrintfConversion :=
  ⟨⟨decide (.minus ∈ flags) || left, decide (.plus ∈ flags),
      decide (.space ∈ flags) && !decide (.plus ∈ flags), decide (.pound ∈ flags),
      decide (.zero ∈ flags) && !decide (.minus ∈ flags) && precision.isNone, false⟩,
    width, precision.elim (-1) (↑), type⟩

/-- The flags a list of flag characters sets. -/
def flagsOf (flags : List FlagChar) : PrintfFlags :=
  ⟨decide (.minus ∈ flags), decide (.plus ∈ flags), decide (.space ∈ flags),
    decide (.pound ∈ flags), decide (.zero ∈ flags), false⟩

/-- The bytes that may follow the flags of a conversion: digits but `0`, `*`, `.`, the length
modifiers and the conversions. -/
def afterFlagsBytes : List UInt8 :=
  ['1', '2', '3', '4', '5', '6', '7', '8', '9', '*', '.', 'h', 'j', 'l', 't', 'z', 'd', 'i', 'o',
    'u', 'x', 'X', 'c', 's'].map chr

/-- The conversion bytes. -/
def convLetters : List UInt8 := ['d', 'i', 'o', 'u', 'x', 'X', 'c', 's'].map chr

theorem digitByte_digit : ∀ d < 10, isDigit (digitByte false d) = true ∧
    ((digitByte false d).toNat : ℤ) - (chr '0').toNat = d ∧ digitByte false d ≠ chr '%' ∧
    digitByte false d ≠ chr '*' := by
  decide

theorem digitByte_afterFlags : ∀ d < 10, 0 < d → digitByte false d ∈ afterFlagsBytes := by
  decide

theorem afterFlags_not_flag {c : UInt8} (hc : c ∈ afterFlagsBytes) :
    c ≠ chr '-' ∧ c ≠ chr '+' ∧ c ≠ chr ' ' ∧ c ≠ chr '#' ∧ c ≠ chr '0' ∧ c ≠ 39 := by
  have key : ∀ c ∈ afterFlagsBytes,
      c ≠ chr '-' ∧ c ≠ chr '+' ∧ c ≠ chr ' ' ∧ c ≠ chr '#' ∧ c ≠ chr '0' ∧ c ≠ 39 := by
    decide +kernel
  exact key c hc

theorem flagChar_byte_ne (f : FlagChar) : f.byte ≠ chr '%' := by
  cases f <;> decide

theorem convLetter_afterFlags {c : UInt8} (hc : c ∈ convLetters) : c ∈ afterFlagsBytes := by
  have key : ∀ c ∈ convLetters, c ∈ afterFlagsBytes := by decide +kernel
  exact key c hc

theorem convLetter_stop {c : UInt8} (hc : c ∈ convLetters) : isDigit c = false ∧ c ≠ chr '*' ∧
    c ≠ chr '.' ∧ c ≠ chr 'h' ∧ c ≠ chr 'j' ∧ c ≠ chr 'l' ∧ c ≠ chr 't' ∧ c ≠ chr 'z' ∧
    c ≠ 0 ∧ c ≠ chr '%' := by
  have key : ∀ c ∈ convLetters, isDigit c = false ∧ c ≠ chr '*' ∧
      c ≠ chr '.' ∧ c ≠ chr 'h' ∧ c ≠ chr 'j' ∧ c ≠ chr 'l' ∧ c ≠ chr 't' ∧ c ≠ chr 'z' ∧
      c ≠ 0 ∧ c ≠ chr '%' := by
    decide +kernel
  exact key c hc

theorem intConversion_convLetter (k : IntConversion) : k.byte ∈ convLetters := by
  cases k <;> decide

/-- The digits of `n` in base 10 are below 10, and the first is not 0 unless `n` is. -/
theorem decimal_cons (n : ℕ) :
    ∃ (d : ℕ) (ds : List ℕ), decimal n = digitByte false d :: ds.map (digitByte false) ∧ d < 10 ∧
      (∀ e ∈ ds, e < 10) ∧ (0 < n → 0 < d) := by
  have hlt : ∀ e ∈ Positional.padDigits 10 1 n, e < 10 := fun e he =>
    Positional.lt_of_mem_padDigits (by decide) he
  rcases hpad : Positional.padDigits 10 1 n with _ | ⟨d, ds⟩
  · have hlen := congrArg List.length hpad
    simp only [Positional.padDigits, Nat.digitsAppend, List.length_reverse, List.length_append,
      List.length_replicate, List.length_nil] at hlen
    omega
  · rw [hpad] at hlt
    refine ⟨d, ds, by rw [decimal, hpad, List.map_cons], hlt d (by simp),
      fun e he => hlt e (by simp [he]), fun hn => ?_⟩
    have hlast : (Nat.digits 10 n).reverse.head? = some d := by
      have hnil : Nat.digits 10 n ++ List.replicate (1 - (Nat.digits 10 n).length) 0 =
          Nat.digits 10 n := by
        have : 1 ≤ (Nat.digits 10 n).length := by
          rw [Nat.digits_def' (by decide) hn]
          simp
        simp [show 1 - (Nat.digits 10 n).length = 0 by omega]
      rw [Positional.padDigits, Nat.digitsAppend, hnil] at hpad
      rw [hpad]
      rfl
    rw [List.head?_reverse, List.getLast?_eq_some_getLast (Nat.digits_ne_nil_iff_ne_zero.mpr
      (by omega))] at hlast
    have := Nat.getLast_digit_ne_zero 10 (show n ≠ 0 by omega)
    simp only [Option.some.injEq] at hlast
    omega

theorem flagsOf_append (flags : List FlagChar) (f : FlagChar) :
    flagsOf (flags ++ [f]) = match f with
      | .minus => { flagsOf flags with minus := true }
      | .plus => { flagsOf flags with plus := true }
      | .space => { flagsOf flags with space := true }
      | .pound => { flagsOf flags with pound := true }
      | .zero => { flagsOf flags with zero := true } := by
  cases f <;> simp [flagsOf]

theorem flagsOf_nil : flagsOf [] = PrintfFlags.empty := by
  simp [flagsOf, PrintfFlags.empty]

/-- The flag loop reads the flags of a conversion up to the byte after them. -/
theorem parseFlags_render (before flags : List FlagChar) {format : List UInt8}
    (hformat : ∀ c ∈ format.head?, c ∈ afterFlagsBytes) :
    parseFlags (flagsOf before) (flags.map FlagChar.byte ++ format) =
      (flagsOf (before ++ flags), format) := by
  induction flags generalizing before with
  | nil =>
    cases format with
    | nil => simp [parseFlags]
    | cons c format =>
      obtain ⟨h1, h2, h3, h4, h5, h6⟩ := afterFlags_not_flag (hformat c rfl)
      simp [parseFlags, h1, h2, h3, h4, h5, h6]
  | cons f flags ih =>
    have hstep := ih (before ++ [f])
    rw [flagsOf_append, List.append_assoc, List.singleton_append] at hstep
    cases f <;> simpa +decide [parseFlags, FlagChar.byte] using hstep

/-- The digit loop reads the value of decimal digits up to the byte after them. -/
theorem parseDigits_digits (acc : ℕ) (ds : List ℕ) (hds : ∀ d ∈ ds, d < 10) {rest : List UInt8}
    (hrest : ∀ c ∈ rest.head?, isDigit c = false) :
    parseDigits acc (ds.map (digitByte false) ++ rest) =
      (((Positional.readDigits 10 acc ds : ℕ) : ℤ), rest) := by
  induction ds generalizing acc with
  | nil =>
    cases rest with
    | nil => rfl
    | cons c rest => simp [parseDigits, hrest c rfl]
  | cons d ds ih =>
    obtain ⟨hdigit, hvalue, -⟩ := digitByte_digit d (hds d (by simp))
    have hstep := ih (d + acc * 10) (fun e he => hds e (by simp [he]))
    simp only [List.map_cons, List.cons_append, parseDigits, hdigit, if_true, hvalue,
      Positional.readDigits_cons]
    rw [← hstep]
    congr 1
    push_cast
    ring

theorem parseNumber_decimal (n : ℕ) {rest : List UInt8} (hrest : ∀ c ∈ rest.head?, isDigit c = false)
    (args : List PrintfArg) : parseNumber (decimal n ++ rest) args = ((n : ℤ), rest, args) := by
  obtain ⟨d, ds, hdec, hd, -, -⟩ := decimal_cons n
  have hstar : (decimal n ++ rest).head? ≠ some (chr '*') := by
    rw [hdec]
    simpa using (digitByte_digit d hd).2.2.2
  have hread := parseDigits_digits 0 (Positional.padDigits 10 1 n)
    (fun e he => Positional.lt_of_mem_padDigits (by decide) he) hrest
  rw [Positional.readDigits_padDigits, Nat.cast_zero] at hread
  rw [parseNumber, if_neg hstar, decimal, hread]

/-- An `int` argument's value is what `va_arg (args, int)` reads. -/
theorem castSigned_of_intArg {a : PrintfArg} {v : ℤ} (h : intArg a = some v) :
    castSigned 32 a.value = v := by
  cases a with
  | int w =>
    simp only [intArg] at h
    split_ifs at h with hfit
    cases h
    exact castSigned_of_mem (by decide) hfit.1 hfit.2
  | str s => simp [intArg] at h

theorem FieldWidth.read_pos {w : FieldWidth} {args args' : List PrintfArg} {n : ℕ}
    (h : w.read args = some ((true, n), args')) : 0 < n := by
  cases w with
  | none => simp [FieldWidth.read] at h
  | lit m _ => simp [FieldWidth.read] at h
  | star =>
    cases args with
    | nil => simp [FieldWidth.read] at h
    | cons a args =>
      simp only [FieldWidth.read, Option.map_eq_some_iff, Prod.mk.injEq] at h
      obtain ⟨v, -, ⟨hneg, rfl⟩, -⟩ := h
      simp only [decide_eq_true_eq] at hneg
      omega

theorem parseNumber_star {a : PrintfArg} {v : ℤ} (h : intArg a = some v) (rest : List UInt8)
    (args : List PrintfArg) : parseNumber (chr '*' :: rest) (a :: args) = (v, rest, args) := by
  simp [parseNumber, vaArg, castSigned_of_intArg h]

/-- The field width is read as the width and the left adjustment `FieldWidth.read` takes. -/
theorem parseNumber_render {w : FieldWidth} {args args' : List PrintfArg} {left : Bool} {n : ℕ}
    (hw : w.read args = some ((left, n), args')) {rest : List UInt8}
    (hrest : ∀ c ∈ rest.head?, isDigit c = false ∧ c ≠ chr '*') :
    parseNumber (w.render ++ rest) args = (if left then -(n : ℤ) else n, rest, args') := by
  cases w with
  | none =>
    simp only [FieldWidth.read, Option.some.injEq, Prod.mk.injEq] at hw
    obtain ⟨⟨rfl, rfl⟩, rfl⟩ := hw
    have hdigits := parseDigits_digits 0 [] (by simp) fun c hc => (hrest c hc).1
    have hstar : rest.head? ≠ some (chr '*') := fun h => (hrest _ h).2 rfl
    simp only [List.map_nil, List.nil_append, Positional.readDigits_nil, Nat.cast_zero] at hdigits
    simp [FieldWidth.render, parseNumber, hstar, hdigits]
  | lit m _ =>
    simp only [FieldWidth.read, Option.some.injEq, Prod.mk.injEq] at hw
    obtain ⟨⟨rfl, rfl⟩, rfl⟩ := hw
    simpa [FieldWidth.render] using parseNumber_decimal _ (fun c hc => (hrest c hc).1) args
  | star =>
    cases args with
    | nil => simp [FieldWidth.read] at hw
    | cons a args =>
      simp only [FieldWidth.read, Option.map_eq_some_iff, Prod.mk.injEq] at hw
      obtain ⟨v, hv, ⟨rfl, rfl⟩, rfl⟩ := hw
      rw [FieldWidth.render, List.singleton_append, parseNumber_star hv]
      simp only [Prod.mk.injEq, and_true, decide_eq_true_eq]
      split_ifs <;> omega

/-- The precision is read as `FieldPrecision.read` takes it, none being `-1`. -/
theorem parsePrecision_render {p : FieldPrecision} {args args' : List PrintfArg} {prec : Option ℕ}
    (hp : p.read args = some (prec, args')) {rest : List UInt8}
    (hrest : ∀ c ∈ rest.head?, isDigit c = false ∧ c ≠ chr '.') :
    parsePrecision (p.render ++ rest) args = (prec.elim (-1) (↑), rest, args') := by
  cases p with
  | none =>
    simp only [FieldPrecision.read, Option.some.injEq, Prod.mk.injEq] at hp
    obtain ⟨rfl, rfl⟩ := hp
    have hdot : rest.head? ≠ some (chr '.') := fun h => (hrest _ h).2 rfl
    simp [FieldPrecision.render, parsePrecision, hdot]
  | lit n =>
    simp only [FieldPrecision.read, Option.some.injEq, Prod.mk.injEq] at hp
    obtain ⟨rfl, rfl⟩ := hp
    simp [FieldPrecision.render, parsePrecision, parseNumber_decimal n (fun c hc => (hrest c hc).1)]
  | star =>
    cases args with
    | nil => simp [FieldPrecision.read] at hp
    | cons a args =>
      simp only [FieldPrecision.read, Option.map_eq_some_iff, Prod.mk.injEq] at hp
      obtain ⟨v, hv, rfl, rfl⟩ := hp
      simp only [FieldPrecision.render, List.cons_append, parsePrecision, List.head?_cons,
        if_true, List.tail_cons, List.nil_append, parseNumber_star hv]
      split_ifs with hneg
      · rfl
      · simp only [Option.elim, Prod.mk.injEq, and_true]
        omega

theorem parseType_render (m : LengthModifier) {k : UInt8} (hk : k ∈ convLetters) (rest : List UInt8) :
    parseType (m.render ++ k :: rest) = (m.type, k :: rest) := by
  obtain ⟨-, -, -, hh, hj, hl, ht, hz, -, -⟩ := convLetter_stop hk
  cases m <;> simp +decide [LengthModifier.render, LengthModifier.type, parseType, hh, hj, hl, ht, hz]

theorem head_afterPrecision (m : LengthModifier) {k : UInt8} (hk : k ∈ convLetters)
    (rest : List UInt8) :
    ∀ c ∈ (m.render ++ k :: rest).head?, isDigit c = false ∧ c ≠ chr '.' ∧ c ≠ chr '*' ∧
      c ∈ afterFlagsBytes := by
  obtain ⟨hdig, hstar, hdot, -⟩ := convLetter_stop hk
  have hafter := convLetter_afterFlags hk
  cases m <;> simp +decide [LengthModifier.render, hdig, hstar, hdot, hafter]

theorem head_afterWidth (p : FieldPrecision) (m : LengthModifier) {k : UInt8}
    (hk : k ∈ convLetters) (rest : List UInt8) :
    ∀ c ∈ (p.render ++ m.render ++ k :: rest).head?, isDigit c = false ∧ c ≠ chr '*' ∧
      c ∈ afterFlagsBytes := by
  cases p with
  | none =>
    intro c hc
    obtain ⟨h1, -, h3, h4⟩ := head_afterPrecision m hk rest c hc
    exact ⟨h1, h3, h4⟩
  | lit n => simp +decide [FieldPrecision.render]
  | star => simp +decide [FieldPrecision.render]

theorem head_afterFlags (w : FieldWidth) (p : FieldPrecision) (m : LengthModifier) {k : UInt8}
    (hk : k ∈ convLetters) (rest : List UInt8) :
    ∀ c ∈ (w.render ++ p.render ++ m.render ++ k :: rest).head?, c ∈ afterFlagsBytes := by
  cases w with
  | none =>
    intro c hc
    exact (head_afterWidth p m hk rest c hc).2.2
  | lit n pos =>
    obtain ⟨d, ds, hdec, hd, -, hpos⟩ := decimal_cons n
    simp [FieldWidth.render, hdec, digitByte_afterFlags d hd (hpos pos)]
  | star => simp +decide [FieldWidth.render]

/-- `parse_conversion` on a rendered conversion specification reads its flags, its width and
precision as C99 reads them, and its length modifier, up to the conversion byte. -/
theorem parseConversion_render (flags : List FlagChar) {w : FieldWidth} {p : FieldPrecision}
    (m : LengthModifier) {k : UInt8} (hk : k ∈ convLetters) {args args₁ args₂ : List PrintfArg}
    {left : Bool} {n : ℕ} {prec : Option ℕ} (hw : w.read args = some ((left, n), args₁))
    (hp : p.read args₁ = some (prec, args₂)) (rest : List UInt8) :
    parseConversion (flags.map FlagChar.byte ++ w.render ++ p.render ++ m.render ++ k :: rest) args =
      (engineConversion flags left n prec m.type, k :: rest, args₂) := by
  have hflags := parseFlags_render [] flags (head_afterFlags w p m hk rest)
  rw [flagsOf_nil, List.nil_append] at hflags
  have hwidth := parseNumber_render hw fun c hc =>
    ⟨(head_afterWidth p m hk rest c hc).1, (head_afterWidth p m hk rest c hc).2.1⟩
  have hprec := parsePrecision_render hp fun c hc =>
    ⟨(head_afterPrecision m hk rest c hc).1, (head_afterPrecision m hk rest c hc).2.1⟩
  have hpos : left = true → 0 < n := fun h => FieldWidth.read_pos (h ▸ hw)
  simp only [List.append_assoc] at hflags hwidth hprec ⊢
  simp only [parseConversion, hflags, hwidth, hprec, parseType_render m hk rest]
  cases left <;> cases prec <;> simp [engineConversion, flagsOf] <;> grind

/-! ## Converting the argument -/

/-- The `struct integer_base` `__vprintf` takes for an integer conversion. -/
def IntConversion.integerBase : IntConversion → IntegerBase
  | .d | .i | .u => baseD
  | .o => baseO
  | .x => baseX
  | .X => baseXUpper

theorem IntConversion.base_integerBase (k : IntConversion) : k.integerBase.base = k.base := by
  cases k <;> rfl

theorem IntConversion.digit_integerBase (k : IntConversion) :
    ∀ d < k.base, k.integerBase.digit d = digitByte (decide (k = .X)) d := by
  cases k <;> decide

theorem toUnsigned_cast (bits : ℕ) (v : ℤ) : ((toUnsigned bits v : ℕ) : ℤ) = v % 2 ^ bits :=
  Int.toNat_of_nonneg (Int.emod_nonneg v (by positivity))

/-- A conversion to a signed type keeps the low bits. -/
theorem castSigned_emod (bits : ℕ) (v : ℤ) : castSigned bits v % 2 ^ bits = v % 2 ^ bits := by
  unfold castSigned toSigned
  split_ifs
  · rw [toUnsigned_cast, Int.emod_emod]
  · rw [Int.sub_emod, Int.emod_self, sub_zero, toUnsigned_cast, Int.emod_emod, Int.emod_emod]

theorem castSigned_mem {bits : ℕ} (hb : 0 < bits) (v : ℤ) :
    -2 ^ (bits - 1) ≤ castSigned bits v ∧ castSigned bits v < 2 ^ (bits - 1) := by
  obtain ⟨k, rfl⟩ : ∃ k, bits = k + 1 := ⟨bits - 1, by omega⟩
  have hpow : (2 : ℤ) ^ (k + 1) = 2 * 2 ^ k := by ring
  have hnn : 0 ≤ v % 2 ^ (k + 1) := Int.emod_nonneg v (by positivity)
  have hlt : v % 2 ^ (k + 1) < 2 ^ (k + 1) := Int.emod_lt_of_pos v (by positivity)
  unfold castSigned toSigned
  rw [Nat.add_sub_cancel]
  split_ifs with h <;> zify at h ⊢ <;> rw [toUnsigned_cast] at * <;> omega

theorem toUnsigned_toUnsigned {bits bits' : ℕ} (h : bits ≤ bits') (v : ℤ) :
    toUnsigned bits (toUnsigned bits' v) = toUnsigned bits v := by
  unfold toUnsigned
  rw [Int.toNat_of_nonneg (Int.emod_nonneg v (by positivity)),
    Int.emod_emod_of_dvd v (pow_dvd_pow 2 h)]

theorem toUnsigned_of_mem {bits : ℕ} {v : ℤ} (h0 : 0 ≤ v) (h1 : v < 2 ^ bits) :
    toUnsigned bits v = v.toNat := by
  rw [toUnsigned, Int.emod_eq_of_lt h0 h1]

/-- `va_arg` of the conversion's type reads the value C99 prints for a signed conversion. -/
theorem signedValue_of_fits (m : LengthModifier) {v : ℤ} (h : FitsSigned m.bits v) :
    signedValue m.type (.int v) = m.signedWord v := by
  obtain ⟨hlo, hhi⟩ := h
  have hfit : castSigned m.bits v = v := castSigned_of_mem (by cases m <;> decide) hlo hhi
  cases m <;> simp only [LengthModifier.bits, LengthModifier.type, LengthModifier.signedWord,
    signedValue, PrintfArg.value] at hfit hlo hhi ⊢ <;> try rw [hfit]
  -- `size_t`: the low 32 bits, read back as negative above `SIZE_MAX / 2`
  norm_num at hlo hhi ⊢
  have hcast := toUnsigned_cast 32 v
  norm_num at hcast
  rw [hcast]
  split_ifs <;> omega

/-- `va_arg` of the conversion's type reads the value C99 prints for an unsigned conversion. -/
theorem unsignedValue_of_fits (m : LengthModifier) {v : ℤ}
    (h : FitsUnsigned m.bits v ∨ ((m = .hh ∨ m = .h) ∧ FitsSigned 32 v)) :
    unsignedValue m.type (.int v) = m.unsignedWord v := by
  cases m with
  | hh => exact toUnsigned_toUnsigned (by decide) v
  | h => exact toUnsigned_toUnsigned (by decide) v
  | t =>
    -- `ptrdiff_t`: the value read as a signed word, widened, and masked back to 32 bits
    obtain ⟨h0, h1⟩ : 0 ≤ v ∧ v < 2 ^ 32 := by simpa [FitsUnsigned, LengthModifier.bits] using h
    simp only [LengthModifier.type, LengthModifier.unsignedWord, unsignedValue, PrintfArg.value]
    zify
    rw [toUnsigned_cast, Int.toNat_of_nonneg h0, Int.emod_emod_of_dvd _ (pow_dvd_pow 2 (by decide)),
      castSigned_emod, Int.emod_eq_of_lt h0 h1]
  | none | j | l | ll | z =>
    obtain ⟨h0, h1⟩ := h.resolve_right (by simp)
    exact toUnsigned_of_mem h0 h1

theorem toUnsigned_abs {w : ℤ} (hlo : -2 ^ 63 ≤ w) (hhi : w < 2 ^ 63) :
    toUnsigned 64 (if w < 0 then -w else w) = w.natAbs := by
  split_ifs with hneg
  · rw [toUnsigned_of_mem (by omega) (by omega)]
    omega
  · rw [toUnsigned_of_mem (by omega) (by omega)]
    omega

/-- A signed argument is at most 64 bits wide. -/
theorem signedWord_mem (m : LengthModifier) {v : ℤ} (h : FitsSigned m.bits v) :
    -2 ^ 63 ≤ m.signedWord v ∧ m.signedWord v < 2 ^ 63 := by
  obtain ⟨hlo, hhi⟩ := h
  have h8 := castSigned_mem (by decide : 0 < 8) v
  have h16 := castSigned_mem (by decide : 0 < 16) v
  cases m <;> simp only [LengthModifier.bits, LengthModifier.signedWord] at hlo hhi ⊢ <;>
    norm_num at h8 h16 hlo hhi ⊢ <;> omega

theorem doConversion_signed {k : IntConversion} (hk : k = .d ∨ k = .i) {m : LengthModifier}
    {a : PrintfArg} {negative : Bool} {magnitude : ℕ} (hv : k.value m a = some (negative, magnitude))
    {c : PrintfConversion} (hc : c.type = m.type) (args : List PrintfArg) :
    doConversion c k.byte (a :: args) =
      (formatInteger magnitude k.signed negative k.integerBase c, args) := by
  have hsigned : k.signed = true := by rcases hk with rfl | rfl <;> rfl
  cases a with
  | str s => simp [IntConversion.value] at hv
  | int v =>
    simp only [IntConversion.value, hsigned, if_true] at hv
    split_ifs at hv with hfit
    simp only [Option.some.injEq, Prod.mk.injEq] at hv
    obtain ⟨rfl, rfl⟩ := hv
    have hmem := signedWord_mem m hfit
    have hvalue := signedValue_of_fits m hfit
    rw [← hc] at hvalue
    rcases hk with rfl | rfl <;>
      simp +decide [doConversion, vaArg, IntConversion.integerBase,
        IntConversion.signed, hvalue, toUnsigned_abs hmem.1 hmem.2]

theorem doConversion_unsigned {k : IntConversion} (hk : k = .o ∨ k = .u ∨ k = .x ∨ k = .X)
    {m : LengthModifier} {a : PrintfArg} {negative : Bool} {magnitude : ℕ}
    (hv : k.value m a = some (negative, magnitude)) {c : PrintfConversion} (hc : c.type = m.type)
    (args : List PrintfArg) :
    doConversion c k.byte (a :: args) =
      (formatInteger magnitude k.signed negative k.integerBase c, args) := by
  have hsigned : k.signed = false := by rcases hk with rfl | rfl | rfl | rfl <;> rfl
  cases a with
  | str s => simp [IntConversion.value] at hv
  | int v =>
    simp only [IntConversion.value, hsigned, Bool.false_eq_true, if_false] at hv
    split_ifs at hv with hfit
    simp only [Option.some.injEq, Prod.mk.injEq] at hv
    obtain ⟨rfl, rfl⟩ := hv
    have hvalue := unsignedValue_of_fits m hfit
    rw [← hc] at hvalue
    rcases hk with rfl | rfl | rfl | rfl <;>
      simp +decide [doConversion, vaArg, IntConversion.integerBase,
        IntConversion.signed, hvalue]

theorem doConversion_int (k : IntConversion) {m : LengthModifier} {a : PrintfArg} {negative : Bool}
    {magnitude : ℕ} (hv : k.value m a = some (negative, magnitude)) {c : PrintfConversion}
    (hc : c.type = m.type) (args : List PrintfArg) :
    doConversion c k.byte (a :: args) =
      (formatInteger magnitude k.signed negative k.integerBase c, args) := by
  cases k
  · exact doConversion_signed (.inl rfl) hv hc args
  · exact doConversion_signed (.inr rfl) hv hc args
  · exact doConversion_unsigned (.inl rfl) hv hc args
  · exact doConversion_unsigned (.inr (.inl rfl)) hv hc args
  · exact doConversion_unsigned (.inr (.inr (.inl rfl))) hv hc args
  · exact doConversion_unsigned (.inr (.inr (.inr rfl))) hv hc args

theorem doConversion_char {a : PrintfArg} {v : ℤ} (hv : intArg a = some v) (c : PrintfConversion)
    (args : List PrintfArg) :
    doConversion c (chr 'c') (a :: args) = (formatString [(toUnsigned 8 v).toUInt8] 1 c, args) := by
  simp +decide [doConversion, vaArg, castSigned_of_intArg hv]

theorem doConversion_str {a : PrintfArg} {s : List UInt8} (hs : a.string? = some s)
    (c : PrintfConversion) (args : List PrintfArg) :
    doConversion c (chr 's') (a :: args) =
      (formatString s (min s.length (toUnsigned 32 c.precision)) c, args) := by
  simp +decide [doConversion, vaArg, hs]

/-! ## Writing the converted value -/

/-- `format_string` writes the first `length` bytes of the string in a field of the width. -/
theorem formatString_pad (string : List UInt8) {length : ℕ} (hlen : length ≤ string.length)
    (c : PrintfConversion) (hw : 0 ≤ c.width) :
    formatString string length c = pad c.flags.minus false c.width.toNat [] (string.take length) := by
  have hcount : (c.width - length).toNat = c.width.toNat - length := by omega
  simp only [formatString, pad, outputDup, List.length_nil, List.length_take,
    Nat.min_eq_left hlen, Nat.zero_add, hcount, Bool.false_eq_true, if_false, List.append_nil,
    List.nil_append]
  by_cases hlt : (length : ℤ) < c.width
  · cases c.flags.minus <;> simp [hlt]
  · have hzero : c.width.toNat - length = 0 := by omega
    cases c.flags.minus <;> simp [hlt, hzero]

/-- With a precision of at most 63, what the buffer of 64 bytes holds, the buffer of
`format_integer` read from its end is the digits C99 writes. -/
theorem integerBuffer_c99 (flags : List FlagChar) (left : Bool) (width : ℕ) {prec : Option ℕ}
    (hprec : ∀ p ∈ prec, p ≤ 63) (k : IntConversion) (type : ArgType) (magnitude : ℕ) :
    (integerBuffer magnitude k.integerBase (engineConversion flags left width prec type)).reverse =
      c99Digits flags prec k magnitude := by
  have hp : (engineConversion flags left width prec type).precision ≤ 63 := by
    cases prec with
    | none => simp [engineConversion]
    | some p =>
      have := hprec p rfl
      simp only [engineConversion, Option.elim]
      omega
  have hgetD : (if (engineConversion flags left width prec type).precision < 0 then 1
      else (engineConversion flags left width prec type).precision.toNat) = prec.getD 1 := by
    cases prec <;> simp [engineConversion]
  have hdigits : (Positional.padDigits k.base (prec.getD 1) magnitude).map k.integerBase.digit =
      (Positional.padDigits k.base (prec.getD 1) magnitude).map (digitByte (decide (k = .X))) :=
    List.map_congr_left fun d hd =>
      k.digit_integerBase d (Positional.lt_of_mem_padDigits (by cases k <;> decide) hd)
  have hoctal : k.base = 8 ↔ k = .o := by cases k <;> decide
  rw [integerBuffer_eq rfl hp, List.reverse_reverse, hgetD, k.base_integerBase, hdigits]
  simp only [c99Digits, engineConversion, decide_eq_true_eq, hoctal]

/-- The sign byte of `format_integer` is C99's sign. -/
theorem integerSign_c99 (flags : List FlagChar) (k : IntConversion) (negative : Bool)
    (flags' : PrintfFlags) (hplus : flags'.plus = decide (.plus ∈ flags))
    (hspace : flags'.space = (decide (.space ∈ flags) && !decide (.plus ∈ flags))) :
    (if integerSign k.signed negative flags' ≠ 0 then [integerSign k.signed negative flags'] else []) =
      c99Sign flags k negative := by
  unfold integerSign c99Sign
  rw [hplus, hspace]
  cases k.signed <;> cases negative <;> by_cases hp : FlagChar.plus ∈ flags <;>
    by_cases hs : FlagChar.space ∈ flags <;> simp +decide [hp, hs]

/-- The `0x` of `format_integer` is C99's. -/
theorem integerAlt_c99 (flags : List FlagChar) (k : IntConversion) (magnitude : ℕ)
    (flags' : PrintfFlags) (hpound : flags'.pound = decide (.pound ∈ flags)) :
    (if (if flags'.pound = true ∧ magnitude ≠ 0 then k.integerBase.x else 0) ≠ 0 then
        [chr '0', if flags'.pound = true ∧ magnitude ≠ 0 then k.integerBase.x else 0]
      else []) = c99Alt flags k magnitude := by
  unfold c99Alt
  rw [hpound]
  by_cases hp : FlagChar.pound ∈ flags <;> by_cases hm : magnitude = 0 <;>
    cases k <;> simp +decide [hp, hm, IntConversion.integerBase, IntConversion.byte]

/-- The order in which `format_integer` writes the padding, the sign, `0x`, the zeros, the
digits and the trailing spaces is `pad`, when `-` and `0` are not both set. -/
theorem assembly_eq_pad (minus zeroPad : Bool) (width : ℕ) (sign alt body : List UInt8) :
    let n := width - ((sign ++ alt).length + body.length)
    (if ¬minus = true ∧ ¬(zeroPad && !minus) = true then outputDup (chr ' ') n else []) ++ sign ++
        alt ++ (if (zeroPad && !minus) = true then outputDup (chr '0') n else []) ++ body ++
        (if minus = true then outputDup (chr ' ') n else []) =
      pad minus zeroPad width (sign ++ alt) body := by
  cases minus <;> cases zeroPad <;> simp [pad, outputDup]

/-- `format_integer`, given the conversion `parse_conversion` makes, writes what C99 does,
but for `0` with a negative `*` width and neither `-` nor a precision. -/
theorem formatInteger_output {flags : List FlagChar} {left : Bool} {width : ℕ} {prec : Option ℕ}
    (hprec : ∀ p ∈ prec, p ≤ 63)
    (hzero : ¬(FlagChar.zero ∈ flags ∧ FlagChar.minus ∉ flags ∧ prec = none ∧ left = true))
    (k : IntConversion) (type : ArgType) (negative : Bool) (magnitude : ℕ) :
    formatInteger magnitude k.signed negative k.integerBase (engineConversion flags left width prec type) =
      (Directive.integer flags left width prec k negative magnitude).output := by
  set c := engineConversion flags left width prec type with hc
  have hbuf := integerBuffer_c99 flags left width hprec k type magnitude
  have hsign := integerSign_c99 flags k negative c.flags rfl rfl
  have halt := integerAlt_c99 flags k magnitude c.flags rfl
  have hzero' : c.flags.zero = ((decide (.zero ∈ flags) && prec.isNone) && !c.flags.minus) := by
    simp only [hc, engineConversion]
    cases left <;> cases prec <;> by_cases hz : FlagChar.zero ∈ flags <;>
      by_cases hm : FlagChar.minus ∈ flags <;> simp_all
  have hlen : (c.width - (integerBuffer magnitude k.integerBase c).length -
      (if (if c.flags.pound = true ∧ magnitude ≠ 0 then k.integerBase.x else 0) ≠ 0 then 2 else 0) -
      (if integerSign k.signed negative c.flags ≠ 0 then 1 else 0)).toNat =
      width - ((c99Sign flags k negative ++ c99Alt flags k magnitude).length +
        (c99Digits flags prec k magnitude).length) := by
    rw [← hbuf, ← hsign, ← halt, List.length_reverse]
    simp only [List.length_append, hc, engineConversion]
    split_ifs <;> simp <;> omega
  simp only [formatInteger]
  rw [hlen, hsign, halt, hbuf, hzero', Directive.output]
  exact assembly_eq_pad _ _ width _ _ _

/-! ## A round of `__vprintf` on a rendered piece -/

/-- A directive `__vprintf` writes as C99 does: for an integer, a precision its buffer holds and
no `0` flag left standing against a negative `*` width; for a string, a length and a precision
that `strnlen` counts in 32 bits. -/
def Directive.Supported : Directive → Prop
  | .integer flags starLeft _ precision _ _ _ =>
    (∀ p ∈ precision, p ≤ 63) ∧
      ¬(FlagChar.zero ∈ flags ∧ FlagChar.minus ∉ flags ∧ precision = none ∧ starLeft = true)
  | .string _ _ precision s => s.length < 2 ^ 32 ∧ ∀ p ∈ precision, p < 2 ^ 32
  | _ => True

instance : DecidablePred Directive.Supported
  | .text _ => inferInstanceAs (Decidable True)
  | .integer flags starLeft _ precision _ _ _ =>
    inferInstanceAs (Decidable ((∀ p ∈ precision, p ≤ 63) ∧
      ¬(FlagChar.zero ∈ flags ∧ FlagChar.minus ∉ flags ∧ precision = none ∧ starLeft = true)))
  | .char .. => inferInstanceAs (Decidable True)
  | .string _ _ precision s =>
    inferInstanceAs (Decidable (s.length < 2 ^ 32 ∧ ∀ p ∈ precision, p < 2 ^ 32))

theorem afterFlags_ne_percent {c : UInt8} (hc : c ∈ afterFlagsBytes) : c ≠ chr '%' := by
  have key : ∀ c ∈ afterFlagsBytes, c ≠ chr '%' := by decide +kernel
  exact key c hc

/-- The byte after the `%` of a conversion specification is not a second `%`. -/
theorem conversion_head_ne_percent (flags : List FlagChar) (w : FieldWidth) (p : FieldPrecision)
    (m : LengthModifier) {k : UInt8} (hk : k ∈ convLetters) (rest : List UInt8) :
    (flags.map FlagChar.byte ++ w.render ++ p.render ++ m.render ++ k :: rest).head? ≠
      some (chr '%') := by
  cases flags with
  | nil =>
    intro h
    rw [List.map_nil, List.nil_append] at h
    exact afterFlags_ne_percent (head_afterFlags w p m hk rest _ h) rfl
  | cons f flags => simpa using flagChar_byte_ne f

/-- A round of `__vprintf` at a rendered conversion specification: `parse_conversion` reads it,
and `do_conversion` converts with the arguments left after the width and the precision. -/
theorem vprintfLoop_conversion (flags : List FlagChar) {w : FieldWidth} {p : FieldPrecision}
    (m : LengthModifier) {k : UInt8} (hk : k ∈ convLetters) {args args₁ args₂ : List PrintfArg}
    {left : Bool} {n : ℕ} {prec : Option ℕ} (hw : w.read args = some ((left, n), args₁))
    (hp : p.read args₁ = some (prec, args₂)) (rest : List UInt8) (fuel : ℕ) :
    vprintfLoop (fuel + 1)
        (chr '%' :: (flags.map FlagChar.byte ++ w.render ++ p.render ++ m.render ++ k :: rest)) args =
      (doConversion (engineConversion flags left n prec m.type) k args₂).1 ++
        vprintfLoop fuel rest (doConversion (engineConversion flags left n prec m.type) k args₂).2 := by
  have hk0 : k ≠ 0 := (convLetter_stop hk).2.2.2.2.2.2.2.2.1
  have hpct : chr '%' ≠ 0 := by decide
  simp only [vprintfLoop, vprintfRound, if_neg hpct, ne_eq, not_true_eq_false, if_false,
    if_neg (conversion_head_ne_percent flags w p m hk rest),
    parseConversion_render flags m hk hw hp rest, if_neg hk0]

/-- `strnlen (s, c.precision)`, the precision taken as a `size_t`, keeps of a string the bytes
C99 writes. -/
theorem take_strnlen (s : List UInt8) {prec : Option ℕ} (hs : s.length < 2 ^ 32)
    (hprec : ∀ p ∈ prec, p < 2 ^ 32) :
    s.take (min s.length (toUnsigned 32 (prec.elim (-1) (↑)))) = prec.elim s s.take := by
  cases prec with
  | none =>
    have hmax : toUnsigned 32 (-1) = 2 ^ 32 - 1 := by decide
    simp only [Option.elim, hmax, Nat.min_eq_left (show s.length ≤ 2 ^ 32 - 1 by omega),
      List.take_length]
  | some p =>
    have hp := hprec p rfl
    simp only [Option.elim]
    rw [toUnsigned_of_mem (by omega) (by exact_mod_cast hp), Int.toNat_natCast]
    rcases le_total p s.length with h | h
    · rw [Nat.min_eq_right h]
    · rw [Nat.min_eq_left h, List.take_length, List.take_of_length_le h]

/-- The flags of `%c` and `%s`: `-` or none. -/
theorem leftAdjust_bytes (leftAdjust : Bool) :
    (if leftAdjust then [FlagChar.minus] else []).map FlagChar.byte =
      (if leftAdjust then [chr '-'] else []) := by
  cases leftAdjust <;> rfl

/-- A round of `__vprintf` at a rendered piece writes what C99 writes for it, and leaves the
format after the piece and the arguments after the piece's. -/
theorem vprintfLoop_piece {p : Piece} {args args' : List PrintfArg} {d : Directive}
    (hread : p.read args = some (d, args')) (hd : d.Supported) (rest : List UInt8) (fuel : ℕ) :
    vprintfLoop (fuel + 1) (p.render ++ rest) args = d.output ++ vprintfLoop fuel rest args' := by
  cases p with
  | text c ok =>
    simp only [Piece.read, Option.some.injEq, Prod.mk.injEq] at hread
    obtain ⟨rfl, rfl⟩ := hread
    simp [Piece.render, vprintfLoop, vprintfRound, ok.1, ok.2, Directive.output]
  | percent =>
    simp only [Piece.read, Option.some.injEq, Prod.mk.injEq] at hread
    obtain ⟨rfl, rfl⟩ := hread
    have hpct : chr '%' ≠ 0 := by decide
    simp [Piece.render, vprintfLoop, vprintfRound, hpct, Directive.output]
  | int flags w p m k =>
    simp only [Piece.read, Option.bind_eq_some_iff] at hread
    obtain ⟨⟨⟨left, n⟩, args₁⟩, hw, ⟨prec, args₂⟩, hp, hrest⟩ := hread
    rcases args₂ with _ | ⟨a, args₂⟩
    · simp at hrest
    simp only [Option.map_eq_some_iff, Prod.mk.injEq] at hrest
    obtain ⟨⟨negative, magnitude⟩, hv, rfl, rfl⟩ := hrest
    have hround := vprintfLoop_conversion flags m (intConversion_convLetter k) hw hp rest fuel
    simp only [List.append_assoc] at hround
    have hconv : doConversion (engineConversion flags left n prec m.type) k.byte (a :: args₂) = _ :=
      doConversion_int k hv rfl args₂
    simp only [Piece.render, List.cons_append, List.nil_append, List.append_assoc, hround, hconv]
    rw [formatInteger_output hd.1 hd.2]
  | char leftAdjust w =>
    simp only [Piece.read, Option.bind_eq_some_iff] at hread
    obtain ⟨⟨⟨left, n⟩, args₁⟩, hw, hrest⟩ := hread
    rcases args₁ with _ | ⟨a, args₁⟩
    · simp at hrest
    simp only [Option.map_eq_some_iff, Prod.mk.injEq] at hrest
    obtain ⟨v, hv, rfl, rfl⟩ := hrest
    have hround := vprintfLoop_conversion (if leftAdjust then [.minus] else []) .none
      (by decide : chr 'c' ∈ convLetters) hw (rfl : FieldPrecision.none.read _ = _) rest fuel
    have hbytes := leftAdjust_bytes leftAdjust
    simp only [hbytes, FieldPrecision.render, LengthModifier.render, List.append_nil,
      List.append_assoc] at hround
    set c := engineConversion (if leftAdjust then [.minus] else []) left n none
      LengthModifier.none.type
    have hconv : doConversion c (chr 'c') (a :: args₁) = _ := doConversion_char hv c args₁
    have hpad := formatString_pad [(toUnsigned 8 v).toUInt8] (le_refl 1) c (Int.natCast_nonneg n)
    simp only [Piece.render, List.cons_append, List.nil_append, List.append_assoc, hround, hconv,
      hpad]
    simp [c, engineConversion, Directive.output]
  | str leftAdjust w p =>
    simp only [Piece.read, Option.bind_eq_some_iff] at hread
    obtain ⟨⟨⟨left, n⟩, args₁⟩, hw, ⟨prec, args₂⟩, hp, hrest⟩ := hread
    rcases args₂ with _ | ⟨a, args₂⟩
    · simp at hrest
    simp only [Option.map_eq_some_iff, Prod.mk.injEq] at hrest
    obtain ⟨s, hs, rfl, rfl⟩ := hrest
    have hround := vprintfLoop_conversion (if leftAdjust then [.minus] else []) .none
      (by decide : chr 's' ∈ convLetters) hw hp rest fuel
    have hbytes := leftAdjust_bytes leftAdjust
    simp only [hbytes, LengthModifier.render, List.append_nil, List.append_assoc] at hround
    set c := engineConversion (if leftAdjust then [.minus] else []) left n prec
      LengthModifier.none.type
    have hconv : doConversion c (chr 's') (a :: args₂) = _ := doConversion_str hs c args₂
    have hpad := formatString_pad s (min_le_left _ (toUnsigned 32 c.precision)) c
      (Int.natCast_nonneg n)
    simp only [Piece.render, List.cons_append, List.nil_append, List.append_assoc, hround, hconv,
      hpad]
    simp [c, engineConversion, Directive.output, take_strnlen s hd.1 hd.2]

/-! ## `__vprintf` on a rendered format -/

@[simp]
theorem render_nil : render [] = [] := rfl

@[simp]
theorem render_cons (p : Piece) (ps : List Piece) : render (p :: ps) = p.render ++ render ps :=
  List.flatMap_cons

theorem Piece.render_ne_nil (p : Piece) : p.render ≠ [] := by
  cases p <;> simp [Piece.render]

/-- Given a round for each byte of the rendered pieces, the loop of `__vprintf` writes what C99
writes for their directives. Induction on the pieces: each round takes one piece, its bytes of
the format and its arguments. -/
theorem vprintfLoop_render (ps : List Piece) {args : List PrintfArg} {ds : List Directive}
    {fuel : ℕ} (hfuel : (render ps).length ≤ fuel) (hread : readAll ps args = some ds)
    (hsupp : ∀ d ∈ ds, d.Supported) : vprintfLoop fuel (render ps) args = ds.flatMap Directive.output := by
  induction ps generalizing args ds fuel with
  | nil =>
    simp only [readAll, Option.some.injEq] at hread
    subst hread
    cases fuel <;> rfl
  | cons p ps ih =>
    simp only [readAll, Option.bind_eq_some_iff, Option.map_eq_some_iff] at hread
    obtain ⟨⟨d, args'⟩, hp, ds', hds', rfl⟩ := hread
    have hpos := List.length_pos_of_ne_nil p.render_ne_nil
    rw [render_cons, List.length_append] at hfuel
    obtain ⟨fuel, rfl⟩ : ∃ f, fuel = f + 1 := ⟨fuel - 1, by omega⟩
    have hrest : (render ps).length ≤ fuel := by omega
    rw [render_cons, vprintfLoop_piece hp (hsupp d List.mem_cons_self) _ fuel,
      ih hrest hds' fun d' hd' => hsupp d' (List.mem_cons_of_mem d hd'), List.flatMap_cons]

/-- `vsnprintf` on such a format returns the length of C99's output, and stores as much of it as
the buffer holds followed by a null byte. -/
theorem vsnprintf_c99 {ps : List Piece} {args : List PrintfArg} {ds : List Directive}
    (hread : readAll ps args = some ds) (hsupp : ∀ d ∈ ds, d.Supported) {bufSize : ℕ}
    (hbuf : bufSize ≤ 2 ^ 31) :
    vsnprintf bufSize (render ps) args =
      (((ds.flatMap Directive.output).length : ℤ),
        if 0 < bufSize then (ds.flatMap Directive.output).take (bufSize - 1) ++ [0] else []) := by
  rw [vsnprintf_eq _ _ hbuf, vprintf, vprintfLoop_render ps le_rfl hread hsupp]

/-- `%0*d` with the width `-5` and the value 42. C99 takes the negative width as `-` and a width
of 5, and `-` overrides `0`: it writes `42` and three spaces. `parse_conversion` clears `0` for
`-` before it reads the width, so the `-` of the negative width leaves `0` set, and
`format_integer` writes the zeros and then the spaces, and `vsnprintf` counts 8 bytes. -/
theorem vprintf_zero_negative_star_width :
    c99Format [.int [.zero] .star .none .none .d] [.int (-5), .int 42] =
        some [chr '4', chr '2', chr ' ', chr ' ', chr ' '] ∧
      vprintf (render [.int [.zero] .star .none .none .d]) [.int (-5), .int 42] =
        [chr '0', chr '0', chr '0', chr '4', chr '2', chr ' ', chr ' ', chr ' '] ∧
      (vsnprintf 16 (render [.int [.zero] .star .none .none .d]) [.int (-5), .int 42]).1 = 8 := by
  have hout : vprintf (render [.int [.zero] .star .none .none .d]) [.int (-5), .int 42] =
      [chr '0', chr '0', chr '0', chr '4', chr '2', chr ' ', chr ' ', chr ' '] := by
    decide +kernel
  refine ⟨by decide, hout, ?_⟩
  rw [vsnprintf_eq _ _ (by norm_num), hout]
  rfl

end Pintos
