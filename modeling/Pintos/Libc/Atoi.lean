import Pintos.Libc.PrintfSpec

/-! # `atoi`

`lib/stdlib.c`. `atoi` skips white space, reads an optional sign and then digits up to the
first byte that is not one. It accumulates the value as a negative `int`, `value * 10 - digit`,
since the negative range of `int` is the larger, and negates it at the end unless the sign was
`-`; `INT_MIN` is read without overflow.

The string is the list of its bytes; the end of the list reads as the null terminator. An `int`
product, difference or negation outside `[INT_MIN, INT_MAX]` is undefined behaviour in C, and
there the model returns `none`. `atoi` reads exactly the value of its digits when that is an
`int`, and overflows otherwise (`atoi_eq`); in particular it reads back every `int` that
`printf ("%d")` writes (`atoi_printf_d`).
-/

namespace Pintos

/-- `isspace` of `lib/ctype.h`: space, form feed, newline, carriage return, tab, vertical tab. -/
def isSpace (c : UInt8) : Bool :=
  c = chr ' ' || c = chr '\x0c' || c = chr '\n' || c = chr '\r' || c = chr '\t' || c = chr '\x0b'

/-- The loop skipping white space. -/
def skipSpace : List UInt8 → List UInt8
  | [] => []
  | c :: s => if isSpace c then skipSpace s else c :: s

/-- The sign: whether it is `-`, and the bytes after it. -/
def parseSign : List UInt8 → Bool × List UInt8
  | [] => (false, [])
  | c :: s => if c = chr '+' then (false, s) else if c = chr '-' then (true, s) else (false, c :: s)

/-- The digit loop from `value`: `value = value * 10 - (*s - '0')` for each digit; `none` once
the product or the difference leaves `int`. -/
def atoiDigits (value : ℤ) : List UInt8 → Option ℤ
  | [] => some value
  | c :: s =>
    if isDigit c then
      let next := value * 10 - ((c.toNat : ℤ) - (chr '0').toNat)
      if FitsSigned 32 (value * 10) ∧ FitsSigned 32 next then atoiDigits next s else none
    else some value

/-- `atoi (s)`. -/
def atoi (s : List UInt8) : Option ℤ :=
  let r := parseSign (skipSpace s)
  (atoiDigits 0 r.2).bind fun value =>
    if r.1 then some value else if FitsSigned 32 (-value) then some (-value) else none

/-- An optional sign before the digits. -/
inductive SignChar
  | none
  | plus
  | minus
  deriving DecidableEq

def SignChar.bytes : SignChar → List UInt8
  | .none => []
  | .plus => [chr '+']
  | .minus => [chr '-']

/-- The `int` that a sign and digits of value `n` denote, `none` when it is not an `int`. -/
def SignChar.value (sign : SignChar) (n : ℕ) : Option ℤ :=
  if sign = .minus then (if n ≤ 2 ^ 31 then some (-(n : ℤ)) else Option.none)
  else if n < 2 ^ 31 then some (n : ℤ) else Option.none

theorem digitByte_not_sign : ∀ d < 10, isSpace (digitByte false d) = false ∧
    digitByte false d ≠ chr '+' ∧ digitByte false d ≠ chr '-' := by
  decide

theorem skipSpace_append {ws : List UInt8} (hws : ∀ c ∈ ws, isSpace c = true) (s : List UInt8) :
    skipSpace (ws ++ s) = skipSpace s := by
  induction ws with
  | nil => rfl
  | cons c ws ih =>
    rw [List.cons_append, skipSpace, if_pos (hws c List.mem_cons_self)]
    exact ih fun c' hc' => hws c' (List.mem_cons_of_mem c hc')

theorem atoiDigits_stop (value : ℤ) {rest : List UInt8}
    (hrest : ∀ c ∈ rest.head?, isDigit c = false) : atoiDigits value rest = some value := by
  cases rest with
  | nil => rfl
  | cons c rest => simp [atoiDigits, hrest c rfl]

/-- The digit loop from `-a` over the digits `ds` reads `-(a · 10 ^ |ds| + ds)` when that is
at least `INT_MIN`, and overflows otherwise: the values it goes through only decrease, so the
first one out of range is a product or a difference that overflows. -/
theorem atoiDigits_digits (ds : List ℕ) (hds : ∀ d ∈ ds, d < 10) {rest : List UInt8}
    (hrest : ∀ c ∈ rest.head?, isDigit c = false) {a : ℕ} (ha : a ≤ 2 ^ 31) :
    atoiDigits (-(a : ℤ)) (ds.map (digitByte false) ++ rest) =
      if Positional.readDigits 10 a ds ≤ 2 ^ 31 then some (-(Positional.readDigits 10 a ds : ℤ))
      else none := by
  induction ds generalizing a with
  | nil =>
    rw [List.map_nil, List.nil_append, atoiDigits_stop _ hrest, Positional.readDigits_nil,
      if_pos ha]
  | cons d ds ih =>
    obtain ⟨hdig, hval, -, -⟩ := digitByte_digit d (hds d List.mem_cons_self)
    have hnext : -(a : ℤ) * 10 - (((digitByte false d).toNat : ℤ) - (chr '0').toNat) =
        -((d + a * 10 : ℕ) : ℤ) := by
      rw [hval]
      push_cast
      ring
    have hle := Positional.le_readDigits (b := 10) (by decide) (d + a * 10) ds
    rw [List.map_cons, List.cons_append, atoiDigits, if_pos hdig, Positional.readDigits_cons]
    simp only [hnext]
    by_cases hfit : d + a * 10 ≤ 2 ^ 31
    · rw [if_pos ⟨⟨by omega, by omega⟩, ⟨by omega, by omega⟩⟩]
      exact ih (fun e he => hds e (List.mem_cons_of_mem d he)) hfit
    · rw [if_neg (fun h => by have := h.2.1; omega), if_neg (by omega)]

/-- The first byte after the white space is the sign or a digit, neither of them white space. -/
theorem skipSpace_sign (sign : SignChar) {d : ℕ} (hd : d < 10) (s : List UInt8) :
    skipSpace (sign.bytes ++ digitByte false d :: s) = sign.bytes ++ digitByte false d :: s := by
  have hplus : isSpace (chr '+') = false := by decide
  have hminus : isSpace (chr '-') = false := by decide
  cases sign with
  | none => simp [SignChar.bytes, skipSpace, (digitByte_not_sign d hd).1]
  | plus => simp [SignChar.bytes, skipSpace, hplus]
  | minus => simp [SignChar.bytes, skipSpace, hminus]

theorem parseSign_sign (sign : SignChar) {d : ℕ} (hd : d < 10) (s : List UInt8) :
    parseSign (sign.bytes ++ digitByte false d :: s) =
      (decide (sign = .minus), digitByte false d :: s) := by
  obtain ⟨-, hplus, hminus⟩ := digitByte_not_sign d hd
  cases sign with
  | none => simp [SignChar.bytes, parseSign, hplus, hminus]
  | plus => simp [SignChar.bytes, parseSign]
  | minus =>
    have hne : chr '-' ≠ chr '+' := by decide
    simp [SignChar.bytes, parseSign, hne]

/-- The end of `atoi`: negate the value read unless the sign was `-`. -/
theorem atoi_finish (negative : Bool) (n : ℕ) :
    ((if n ≤ 2 ^ 31 then some (-(n : ℤ)) else none).bind fun value =>
        if negative then some value else if FitsSigned 32 (-value) then some (-value) else none) =
      if negative then (if n ≤ 2 ^ 31 then some (-(n : ℤ)) else none)
      else if n < 2 ^ 31 then some (n : ℤ) else none := by
  by_cases hle : n ≤ 2 ^ 31
  · rw [if_pos hle, Option.bind_some]
    cases negative with
    | true => simp
    | false =>
      simp only [Bool.false_eq_true, if_false, neg_neg, FitsSigned]
      by_cases hlt : n < 2 ^ 31
      · rw [if_pos ⟨by omega, by norm_num; omega⟩, if_pos hlt]
      · rw [if_neg (fun h => by norm_num at h; omega), if_neg hlt]
  · rw [if_neg hle, Option.bind_none]
    cases negative with
    | true => rw [if_pos rfl]
    | false => rw [if_neg (by decide), if_neg (by omega)]

theorem atoi_signed_digits {ws : List UInt8} (hws : ∀ c ∈ ws, isSpace c = true) (sign : SignChar)
    {ds : List ℕ} (hne : ds ≠ []) (hds : ∀ d ∈ ds, d < 10) {rest : List UInt8}
    (hrest : ∀ c ∈ rest.head?, isDigit c = false) :
    atoi (ws ++ sign.bytes ++ ds.map (digitByte false) ++ rest) = sign.value (Positional.readDigits 10 0 ds) := by
  obtain ⟨d, ds', rfl⟩ := List.exists_cons_of_ne_nil hne
  have hd := hds d List.mem_cons_self
  have hdigits := atoiDigits_digits (d :: ds') hds hrest (a := 0) (by norm_num)
  simp only [List.map_cons, List.cons_append, Nat.cast_zero, neg_zero] at hdigits
  simp only [List.append_assoc, List.map_cons, List.cons_append]
  rw [atoi, skipSpace_append hws, skipSpace_sign sign hd, parseSign_sign sign hd]
  dsimp only
  rw [hdigits, atoi_finish]
  by_cases hminus : sign = .minus <;> simp [SignChar.value, hminus]

/-- What `atoi` reads of white space, an optional sign and at least one digit, up to the first
byte that is not a digit: the value of the digits with the sign when that is an `int`, `INT_MIN`
included; past that the digit loop overflows, or for `INT_MAX + 1` without `-` the final
negation does. -/
theorem atoi_eq {ws : List UInt8} (hws : ∀ c ∈ ws, isSpace c = true) (sign : SignChar)
    {ds : List ℕ} (hne : ds ≠ []) (hds : ∀ d ∈ ds, d < 10) {rest : List UInt8}
    (hrest : ∀ c ∈ rest.head?, isDigit c = false) :
    atoi (ws ++ sign.bytes ++ ds.map (digitByte false) ++ rest) = sign.value (Positional.readDigits 10 0 ds) :=
  atoi_signed_digits hws sign hne hds hrest

/-- ` \t-42x`. -/
theorem atoi_eq_space_tab_minus :
    (∀ c ∈ [chr ' ', chr '\t'], isSpace c = true) ∧ [4, 2] ≠ [] ∧ (∀ d ∈ [4, 2], d < 10) ∧
      (∀ c ∈ [chr 'x'].head?, isDigit c = false) ∧
      atoi ([chr ' ', chr '\t'] ++ SignChar.minus.bytes ++ [4, 2].map (digitByte false) ++
        [chr 'x']) = some (-42) := by
  have hws : ∀ c ∈ [chr ' ', chr '\t'], isSpace c = true := by decide +kernel
  have hds : ∀ d ∈ [4, 2], d < 10 := by decide
  have hx : ∀ c ∈ [chr 'x'].head?, isDigit c = false := by decide +kernel
  exact ⟨hws, by decide, hds, hx, atoi_eq hws .minus (by decide) hds hx⟩

/-! ## Reading back what `printf ("%d")` writes -/

/-- `printf ("%d", v)` writes `-` for a negative `v` and then the decimal digits of `|v|`. -/
theorem vprintf_d {v : ℤ} (hv : FitsSigned 32 v) :
    vprintf (render [.int [] .none .none .none .d]) [.int v] =
      (if v < 0 then [chr '-'] else []) ++ decimal v.natAbs := by
  have hread : readAll [.int [] .none .none .none .d] [.int v] =
      some [.integer [] false 0 none .d (decide (v < 0)) v.natAbs] := by
    simp [readAll, Piece.read, FieldWidth.read, FieldPrecision.read, IntConversion.value,
      IntConversion.signed, LengthModifier.bits, LengthModifier.signedWord, hv]
    -- the sign `IntConversion.value` decides and the one stated here differ only in the instance
    rfl
  rw [vprintf, vprintfLoop_render _ le_rfl hread (by simp [Directive.Supported])]
  cases hneg : decide (v < 0) <;>
    simp_all [Directive.output, pad, c99Sign, c99Alt, c99Digits, IntConversion.signed,
      IntConversion.base, decimal]

theorem padDigits_ne_nil (n : ℕ) : Positional.padDigits 10 1 n ≠ [] := by
  obtain ⟨d, ds, hdec, -⟩ := decimal_cons n
  intro h
  simp [decimal, h] at hdec

/-- `atoi` reads back every `int` that `printf ("%d")` writes, `INT_MIN` included. -/
theorem atoi_printf_d {v : ℤ} (hlo : -2 ^ 31 ≤ v) (hhi : v < 2 ^ 31) :
    atoi (vprintf (render [.int [] .none .none .none .d]) [.int v]) = some v := by
  have hfit : FitsSigned 32 v := ⟨by norm_num; omega, by norm_num; omega⟩
  have hds : ∀ d ∈ Positional.padDigits 10 1 v.natAbs, d < 10 := fun d hd =>
    Positional.lt_of_mem_padDigits (by decide) hd
  have hread := @atoi_signed_digits [] (by simp) (if v < 0 then .minus else .none) _
    (padDigits_ne_nil v.natAbs) hds [] (by simp)
  rw [Positional.readDigits_padDigits] at hread
  rw [vprintf_d hfit, decimal]
  by_cases hneg : v < 0
  · simp only [hneg, if_true, SignChar.bytes, List.nil_append, List.append_nil] at hread ⊢
    rw [hread, SignChar.value, if_pos rfl, if_pos (by omega)]
    congr 1
    omega
  · simp only [hneg, if_false, SignChar.bytes, List.nil_append, List.append_nil] at hread ⊢
    rw [hread, SignChar.value, if_neg (by decide), if_pos (by omega)]
    congr 1
    omega

theorem atoi_printf_d_int_min :
    -2 ^ 31 ≤ (-2 ^ 31 : ℤ) ∧ (-2 ^ 31 : ℤ) < 2 ^ 31 ∧
      atoi (vprintf (render [.int [] .none .none .none .d]) [.int (-2 ^ 31)]) = some (-2 ^ 31) :=
  ⟨le_rfl, by norm_num, atoi_printf_d le_rfl (by norm_num)⟩

end Pintos
