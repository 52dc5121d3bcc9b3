import Pintos.Lib.Digits
import Pintos.Libc.PrintfSpec
import Mathlib.Data.List.TakeWhile
import Mathlib.Data.List.GetD
import Mathlib.Algebra.Order.BigOperators.Group.List

/-! # ustar archive headers

`lib/ustar.c`: `ustar_make_header` writes the 512-byte header of a file, and
`ustar_parse_header` reads one back. A name is a C string, the bytes before
its terminating null byte. A field that `strlcpy` or `snprintf` fills in the
zeroed header holds the string, cut to one byte less than the field, and
zeros after it. Numbers are octal strings, zero padded by `%07o` and `%011o`
and read back by `parse_octal_field`, whose arithmetic is in a 32-bit
`unsigned long`. `struct ustar_header` is `UstarHeader`, read from the bytes
as the cast in `ustar_parse_header` reads them.

A header made for a name whose stripped form fits and a size that fits in an
`int` parses back to the stripped name, the type and the size. A header that
parses has a checksum field equal to its byte sum, unless it is all zeros:
that block marks the end of the archive and is accepted before any check.
-/

namespace Pintos

def ustarHeaderSize : ℕ := 512

def ulongMax : ℕ := 2 ^ 32 - 1

def intMax : ℕ := 2 ^ 31 - 1

/-- `enum ustar_type`. -/
inductive UstarType
  | regular
  | directory
  | eof
  deriving DecidableEq, Repr

/-- The byte of each type in a header: `'0'`, `'5'`, and -1 for `USTAR_EOF`. -/
def UstarType.toByte : UstarType → UInt8
  | .regular => 48
  | .directory => 53
  | .eof => 255

/-- `struct ustar_header`; `pfx` is its `prefix`. -/
structure UstarHeader where
  name : List UInt8
  mode : List UInt8
  uid : List UInt8
  gid : List UInt8
  size : List UInt8
  mtime : List UInt8
  chksum : List UInt8
  typeflag : UInt8
  linkname : List UInt8
  magic : List UInt8
  version : List UInt8
  uname : List UInt8
  gname : List UInt8
  devmajor : List UInt8
  devminor : List UInt8
  pfx : List UInt8
  padding : List UInt8
  deriving DecidableEq, Repr

namespace UstarHeader

/-- The header's bytes: its fields in order, with nothing between them (it is `PACKED`). -/
def toBytes (h : UstarHeader) : List UInt8 :=
  h.name ++ (h.mode ++ (h.uid ++ (h.gid ++ (h.size ++ (h.mtime ++ (h.chksum ++ (h.typeflag ::
    (h.linkname ++ (h.magic ++ (h.version ++ (h.uname ++ (h.gname ++ (h.devmajor ++
    (h.devminor ++ (h.pfx ++ h.padding)))))))))))))))

/-- The fields of the header at `bs`, as `(const struct ustar_header *) header` reads them. -/
def ofBytes (bs : List UInt8) : UstarHeader :=
  let (name, bs) := bs.splitAt 100
  let (mode, bs) := bs.splitAt 8
  let (uid, bs) := bs.splitAt 8
  let (gid, bs) := bs.splitAt 8
  let (size, bs) := bs.splitAt 12
  let (mtime, bs) := bs.splitAt 12
  let (chksum, bs) := bs.splitAt 8
  let (typeflag, bs) := (bs.headD 0, bs.drop 1)
  let (linkname, bs) := bs.splitAt 100
  let (magic, bs) := bs.splitAt 6
  let (version, bs) := bs.splitAt 2
  let (uname, bs) := bs.splitAt 32
  let (gname, bs) := bs.splitAt 32
  let (devmajor, bs) := bs.splitAt 8
  let (devminor, bs) := bs.splitAt 8
  let (pfx, bs) := bs.splitAt 155
  ⟨name, mode, uid, gid, size, mtime, chksum, typeflag, linkname, magic, version, uname, gname,
    devmajor, devminor, pfx, bs.take 12⟩

/-- Every field has the size `struct ustar_header` gives it. -/
structure Sized (h : UstarHeader) : Prop where
  name : h.name.length = 100
  mode : h.mode.length = 8
  uid : h.uid.length = 8
  gid : h.gid.length = 8
  size : h.size.length = 12
  mtime : h.mtime.length = 12
  chksum : h.chksum.length = 8
  linkname : h.linkname.length = 100
  magic : h.magic.length = 6
  version : h.version.length = 2
  uname : h.uname.length = 32
  gname : h.gname.length = 32
  devmajor : h.devmajor.length = 8
  devminor : h.devminor.length = 8
  pfx : h.pfx.length = 155
  padding : h.padding.length = 12

end UstarHeader

/-- `calculate_chksum`: the sum of the header's bytes with the checksum field, bytes 148 to
155, counted as spaces. It is at most `512 * 255` and does not wrap. -/
def calculateChksum (header : List UInt8) : ℕ :=
  ((List.range ustarHeaderSize).map fun i =>
    if 148 ≤ i ∧ i < 148 + 8 then 32 else (header.getD i 0).toNat).sum

/-- A string stored by `strlcpy` or `snprintf` into a zeroed field of `n` bytes: as much of it
as fits before a terminating null byte, then the zeros that were there. -/
def cField (n : ℕ) (s : List UInt8) : List UInt8 :=
  let t := s.take (n - 1)
  t ++ List.replicate (n - t.length) 0

/-- The C string in a field: its bytes before the first null byte. -/
def cString (bs : List UInt8) : List UInt8 := bs.takeWhile (· ≠ 0)

/-- The character of an octal digit. -/
def octalDigit (d : ℕ) : UInt8 := UInt8.ofNat (48 + d)

/-- What `%0wo` prints for `n`: its octal digits, zero padded to `w`. -/
def octal (w n : ℕ) : List UInt8 := (Positional.padDigits 8 w n).map octalDigit

/-- The loop of `parse_octal_field` at offset `ofs` of the field, with the value read so far
and the bytes left. -/
def parseOctalLoop : ℕ → ℕ → List UInt8 → Option ℕ
  -- the field did not end in a space or a null byte
  | _, _, [] => none
  | ofs, value, c :: cs =>
    if 48 ≤ c ∧ c ≤ 55 then
      if ulongMax / 8 < value then none
      else parseOctalLoop (ofs + 1) (c.toNat - 48 + value * 8) cs
    -- the end of the field, which must not be empty
    else if c = 32 ∨ c = 0 then if 0 < ofs then some value else none
    else none

/-- `parse_octal_field` of a field's bytes: the value, when it returns true. -/
def parseOctalField (field : List UInt8) : Option ℕ := parseOctalLoop 0 0 field

def isAllZeros (block : List UInt8) : Bool := block.all (· = 0)

section Strip

/-- Whether a name starts with `/`, `./` or `../`. -/
def antisocial (s : List UInt8) : Bool :=
  s.head? = some 47 || [46, 47].isPrefixOf s || [46, 46, 47].isPrefixOf s

/-- `strchr (s, '/') + 1`. -/
def afterSlash (s : List UInt8) : List UInt8 := (s.dropWhile (· ≠ 47)).drop 1

/-- The loop of `strip_antisocial_prefixes` with `n` rounds of fuel; a name's length is
enough (`antisocial_stripLoop`). -/
def stripLoop : ℕ → List UInt8 → List UInt8
  | 0, s => s
  | n + 1, s => if antisocial s then stripLoop n (afterSlash s) else s

def stripAntisocialPrefixes (fileName : List UInt8) : List UInt8 :=
  let s := stripLoop fileName.length fileName
  if s = [] ∨ s = [46, 46] then [46] else s

end Strip

/-- `"ustar"`. -/
def ustarMagic : List UInt8 := [117, 115, 116, 97, 114]

/-- `"root"`. -/
def rootName : List UInt8 := [114, 111, 111, 116]

/-- The header `ustar_make_header` fills in before the checksum. `%o` prints the `int` size as
unsigned, and `mtime` is printed with `sizeof h->size`, which is its own size too. -/
def headerFields (fileName : List UInt8) (type : UstarType) (size : ℤ) : UstarHeader where
  name := cField 100 fileName
  mode := cField 8 (octal 7 (if type = .regular then 0o644 else 0o755))
  uid := cField 8 (List.replicate 7 48)
  gid := cField 8 (List.replicate 7 48)
  size := cField 12 (octal 11 (size % 2 ^ 32).toNat)
  mtime := cField 12 (octal 11 1136102400)
  chksum := List.replicate 8 0
  typeflag := type.toByte
  linkname := List.replicate 100 0
  magic := cField 6 ustarMagic
  version := [48, 48]
  uname := cField 32 rootName
  gname := cField 32 rootName
  devmajor := List.replicate 8 0
  devminor := List.replicate 8 0
  pfx := List.replicate 155 0
  padding := List.replicate 12 0

/-- `ustar_make_header`: `none` when its `ASSERT` on the type fails, `some none` when it
returns false, and the header's bytes when it returns true. -/
def ustarMakeHeader (fileName : List UInt8) (type : UstarType) (size : ℤ) :
    Option (Option (List UInt8)) :=
  if type = .eof then none
  else
    let fileName := stripAntisocialPrefixes fileName
    if 99 < fileName.length then some none
    else
      let h := headerFields fileName type size
      some (some { h with chksum := cField 8 (octal 7 (calculateChksum h.toBytes)) }.toBytes)

/-- `ustar_parse_header`: the error message, or the name (`none` at the end of the archive),
the type and the size. -/
def ustarParseHeader (header : List UInt8) :
    Except String (Option (List UInt8) × UstarType × ℤ) :=
  let h := UstarHeader.ofBytes header
  if isAllZeros (header.take ustarHeaderSize) then .ok (none, .eof, 0)
  else if h.magic ≠ ustarMagic ++ [0] then .error "not a ustar archive"
  else if h.version.getD 0 0 ≠ 48 ∨ h.version.getD 1 0 ≠ 48 then .error "invalid ustar version"
  else
    match parseOctalField h.chksum with
    | none => .error "corrupt chksum field"
    | some chksum =>
      if chksum ≠ calculateChksum header then .error "checksum mismatch"
      else if h.name.getD 99 0 ≠ 0 ∨ h.pfx.getD 0 0 ≠ 0 then .error "file name too long"
      else if h.typeflag ≠ UstarType.regular.toByte ∧ h.typeflag ≠ UstarType.directory.toByte then
        .error "unimplemented file type"
      else
        let sizeUl : Except String ℕ :=
          if h.typeflag = UstarType.regular.toByte then
            match parseOctalField h.size with
            | none => .error "corrupt file size field"
            | some v => if intMax < v then .error "file too large" else .ok v
          else .ok 0
        sizeUl.map fun v =>
          (some (stripAntisocialPrefixes (cString h.name)),
            if h.typeflag = UstarType.regular.toByte then .regular else .directory, v)

section Fields

variable {n : ℕ} {s : List UInt8}

theorem length_cField (n : ℕ) (s : List UInt8) : (cField n s).length = n := by
  have : (s.take (n - 1)).length ≤ n := by simp
  simp only [cField, List.length_append, List.length_replicate]
  omega

theorem cField_of_length_lt (h : s.length < n) : cField n s = s ++ List.replicate (n - s.length) 0 := by
  simp only [cField, List.take_of_length_le (show s.length ≤ n - 1 by omega)]

/-- A string shorter than its field reads back whole, up to the first of the zeros after it. -/
theorem cString_cField (hz : 0 ∉ s) (h : s.length < n) : cString (cField n s) = s := by
  have hs : ∀ a ∈ s, decide (a ≠ 0) = true := fun a ha => by
    simp only [ne_eq, decide_eq_true_eq]
    rintro rfl
    exact hz ha
  rw [cField_of_length_lt h, cString, List.takeWhile_append_of_pos hs, List.takeWhile_replicate]
  simp

theorem getD_cField (h : s.length < n) {i : ℕ} (hs : s.length ≤ i) :
    (cField n s).getD i 0 = 0 := by
  rw [cField_of_length_lt h, List.getD_append_right _ _ _ _ hs]
  simp

end Fields

section Octal

theorem octalDigit_toNat {d : ℕ} (hd : d < 8) : (octalDigit d).toNat = 48 + d := by
  simp only [octalDigit, UInt8.toNat_ofNat']
  omega

theorem octalDigit_isDigit {d : ℕ} (hd : d < 8) : 48 ≤ octalDigit d ∧ octalDigit d ≤ 55 := by
  simp only [UInt8.le_iff_toNat_le, octalDigit_toNat hd]
  exact ⟨by simp, by simp; omega⟩

/-- The loop reads a run of digits up to a space or a null byte, as long as the value fits in
an `unsigned long`: the check before each digit then never fires. -/
theorem parseOctalLoop_digits {ds : List ℕ} (hd : ∀ d ∈ ds, d < 8) {t : UInt8} (ht : t = 32 ∨ t = 0)
    (rest : List UInt8) {ofs v : ℕ} (hofs : 0 < ofs + ds.length)
    (hu : Positional.readDigits 8 v ds ≤ ulongMax) :
    parseOctalLoop ofs v (ds.map octalDigit ++ t :: rest) = some (Positional.readDigits 8 v ds) := by
  induction ds generalizing ofs v with
  | nil =>
    have hnd : ¬ (48 ≤ t ∧ t ≤ 55) := by rcases ht with rfl | rfl <;> decide
    simp only [List.map_nil, List.nil_append, parseOctalLoop, if_neg hnd, if_pos ht,
      Positional.readDigits_nil]
    rw [if_pos (by simpa using hofs)]
  | cons d ds ih =>
    have hd₀ := hd d List.mem_cons_self
    have hguard : ¬ ulongMax / 8 < v := by
      have := Positional.mul_le_readDigits_cons (b := 8) (by decide) v d ds
      rw [not_lt, Nat.le_div_iff_mul_le (by decide)]
      omega
    simp only [List.map_cons, List.cons_append, parseOctalLoop, if_pos (octalDigit_isDigit hd₀),
      if_neg hguard, octalDigit_toNat hd₀, Nat.add_sub_cancel_left]
    exact ih (fun d' hd' => hd d' (List.mem_cons_of_mem d hd')) (by omega) hu

/-- `parse_octal_field` reads back what `%0wo` wrote into a longer zeroed field. -/
theorem parseOctalField_octal {w n v : ℕ} (hw : 0 < w) (hn : w < n) (hv : v < 8 ^ w)
    (hu : v ≤ ulongMax) : parseOctalField (cField n (octal w v)) = some v := by
  have hl : (octal w v).length = w := by
    rw [octal, List.length_map, Positional.length_padDigits (by decide) hv]
  rw [cField_of_length_lt (by omega), hl, show n - w = (n - w - 1) + 1 by omega,
    List.replicate_succ, parseOctalField, octal]
  rw [parseOctalLoop_digits (fun d hd => Positional.lt_of_mem_padDigits (by decide) hd) (.inr rfl)
      _ (by rw [Positional.length_padDigits (by decide) hv]; omega)
      (by rwa [Positional.readDigits_padDigits]),
    Positional.readDigits_padDigits]

end Octal

/-! ## The numbers as `snprintf` writes them

`octal` is `%0wo` as C99 writes it; through `vsnprintf_c99` it is what the `vsnprintf` of
`lib/stdio.c` stores. -/

section Snprintf

theorem digitByte_eq_octalDigit {d : ℕ} (hd : d < 8) : digitByte false d = octalDigit d := by
  rw [digitByte, if_pos (by omega)]
  rfl

/-- C99's `%0wo` of `v` is `octal w v`. -/
theorem output_zero_octal {w : ℕ} (hw : 0 < w) (v : ℕ) :
    (Directive.integer [.zero] false w none .o false v).output = octal w v := by
  have hdigits : c99Digits [.zero] none .o v = (Positional.padDigits 8 1 v).map octalDigit := by
    rw [c99Digits, if_neg (by simp)]
    exact List.map_congr_left fun d hd =>
      digitByte_eq_octalDigit (Positional.lt_of_mem_padDigits (by decide) hd)
  have hsign : c99Sign [.zero] .o false ++ c99Alt [.zero] .o v = [] := by
    simp [c99Sign, c99Alt, IntConversion.signed]
  rw [Directive.output, hsign, hdigits, octal, Positional.padDigits_eq_replicate_append hw,
    List.map_append, List.map_replicate]
  -- the field is padded with the zero digit on the left
  have hflags : (decide (FlagChar.minus ∈ [FlagChar.zero]) || false) = false ∧
      (decide (FlagChar.zero ∈ [FlagChar.zero]) && (none : Option ℕ).isNone) = true := by decide
  rw [hflags.1, hflags.2, pad, if_neg Bool.false_ne_true, if_pos rfl, List.length_nil, Nat.zero_add,
    List.length_map, List.nil_append]
  rfl

/-- A conversion with a literal width and no precision reads its one argument. -/
theorem readAll_int_lit (flags : List FlagChar) {w : ℕ} (hw : 0 < w) (m : LengthModifier)
    (k : IntConversion) {a : PrintfArg} {r : Bool × ℕ} (h : k.value m a = some r) :
    readAll [.int flags (.lit w hw) .none m k] [a] = some [.integer flags false w none k r.1 r.2] := by
  simp only [readAll, Piece.read, FieldWidth.read, FieldPrecision.read, Option.bind_some, h,
    Option.map_some]

/-- An `unsigned` argument of `%o` is printed as it is. -/
theorem value_o_of_lt {v : ℕ} (h32 : v < 2 ^ 32) :
    IntConversion.o.value .none (.int (v : ℤ)) = some (false, v) := by
  have hfit : FitsUnsigned LengthModifier.none.bits (v : ℤ) := ⟨Int.natCast_nonneg v, by
    simp only [LengthModifier.bits]; exact_mod_cast h32⟩
  rw [IntConversion.value, if_neg (by decide), if_pos (.inl hfit)]
  rfl

/-- `snprintf (field, w + 1, "%0wo", v)` for an `unsigned` `v` of at most `w` octal digits
returns `w` and leaves the zeroed field holding `octal w v`. -/
theorem vsnprintf_zero_octal {w : ℕ} (hw : 0 < w) (hw31 : w < 2 ^ 31) {v : ℕ} (hv : v < 8 ^ w)
    (h32 : v < 2 ^ 32) :
    vsnprintf (w + 1) (render [.int [.zero] (.lit w hw) .none .none .o]) [.int v] =
      ((w : ℤ), cField (w + 1) (octal w v)) := by
  have hlen : (octal w v).length = w := by
    rw [octal, List.length_map, Positional.length_padDigits (by decide) hv]
  rw [vsnprintf_c99 (readAll_int_lit [.zero] hw .none .o (value_o_of_lt h32))
    (by simp [Directive.Supported]) (by omega)]
  simp only [List.flatMap_cons, List.flatMap_nil, List.append_nil, output_zero_octal hw, hlen,
    if_pos (Nat.succ_pos w), Nat.add_sub_cancel, List.take_of_length_le hlen.le]
  rw [cField_of_length_lt (by omega), hlen, Nat.add_sub_cancel_left]
  rfl

/-- The mode, size and time fields of a header are what `snprintf` with `%07o` and `%011o`
stores in them, for a size of an `int` that is not negative. -/
theorem headerFields_snprintf (fileName : List UInt8) (type : UstarType) {size : ℤ}
    (hs : 0 ≤ size) (hs31 : size < 2 ^ 31) :
    (headerFields fileName type size).mode = (vsnprintf 8
      (render [.int [.zero] (.lit 7 (by decide)) .none .none .o])
      [.int (if type = .regular then 0o644 else 0o755)]).2 ∧
    (headerFields fileName type size).size = (vsnprintf 12
      (render [.int [.zero] (.lit 11 (by decide)) .none .none .o]) [.int size]).2 ∧
    (headerFields fileName type size).mtime = (vsnprintf 12
      (render [.int [.zero] (.lit 11 (by decide)) .none .none .o]) [.int 1136102400]).2 := by
  refine ⟨?_, ?_, ?_⟩
  · have h := vsnprintf_zero_octal (w := 7) (by decide) (by decide)
      (v := if type = .regular then 0o644 else 0o755) (by split <;> decide) (by split <;> decide)
    simp only [Nat.reduceAdd, Nat.cast_ite, Nat.cast_ofNat] at h
    rw [h]
    rfl
  · -- the size is its own remainder modulo `2 ^ 32`
    have hmod : (size % 2 ^ 32).toNat = size.toNat := by rw [Int.emod_eq_of_lt hs (by omega)]
    have h8 : size.toNat < 8 ^ 11 := by
      have : (8 : ℕ) ^ 11 = 2 ^ 33 := by norm_num
      omega
    have h := vsnprintf_zero_octal (w := 11) (by decide) (by decide) h8 (by omega)
    simp only [Nat.reduceAdd, Int.toNat_of_nonneg hs] at h
    rw [h, headerFields, hmod]
  · have h := vsnprintf_zero_octal (w := 11) (by decide) (by decide) (v := 1136102400) (by decide)
      (by decide)
    simp only [Nat.reduceAdd, Nat.cast_ofNat] at h
    rw [h]
    rfl

end Snprintf

section Checksum

theorem calculateChksum_le (header : List UInt8) : calculateChksum header ≤ 512 * 255 := by
  have h := List.sum_le_card_nsmul ((List.range ustarHeaderSize).map fun i =>
    if 148 ≤ i ∧ i < 148 + 8 then 32 else (header.getD i 0).toNat) 255 (by
      intro x hx
      obtain ⟨i, -, rfl⟩ := List.mem_map.1 hx
      split
      · decide
      · exact Nat.le_of_lt_succ (header.getD i 0).toNat_lt)
  simpa [calculateChksum, ustarHeaderSize] using h

/-- The checksum reads no byte of the checksum field. -/
theorem calculateChksum_congr {bs bs' : List UInt8}
    (h : ∀ i, ¬ (148 ≤ i ∧ i < 148 + 8) → bs.getD i 0 = bs'.getD i 0) :
    calculateChksum bs = calculateChksum bs' := by
  unfold calculateChksum
  rw [List.map_congr_left fun i _ => ?_]
  split
  · rfl
  · next hi => rw [h i hi]

/-- Two lists that differ only in a middle piece of the same length agree outside it. -/
theorem getD_append_middle {α : Type*} {a c c' r : List α} (hc : c.length = c'.length) {i : ℕ}
    (hi : ¬ (a.length ≤ i ∧ i < a.length + c.length)) (d : α) :
    (a ++ (c ++ r)).getD i d = (a ++ (c' ++ r)).getD i d := by
  by_cases ha : i < a.length
  · rw [List.getD_append _ _ _ _ ha, List.getD_append _ _ _ _ ha]
  · have hr : c.length ≤ i - a.length := by omega
    rw [List.getD_append_right a (c ++ r) d i (by omega),
      List.getD_append_right a (c' ++ r) d i (by omega), List.getD_append_right c r d _ hr,
      List.getD_append_right c' r d _ (hc ▸ hr), hc]

theorem toBytes_eq (h : UstarHeader) :
    h.toBytes = (h.name ++ h.mode ++ h.uid ++ h.gid ++ h.size ++ h.mtime) ++ (h.chksum ++
      (h.typeflag :: (h.linkname ++ h.magic ++ h.version ++ h.uname ++ h.gname ++ h.devmajor ++
        h.devminor ++ h.pfx ++ h.padding))) := by
  simp [UstarHeader.toBytes]

/-- Writing the checksum field leaves the checksum as it was. -/
theorem calculateChksum_setChksum {h : UstarHeader} (hs : h.Sized) {c : List UInt8}
    (hc : c.length = 8) : calculateChksum { h with chksum := c }.toBytes = calculateChksum h.toBytes := by
  refine calculateChksum_congr fun i hi => ?_
  rw [toBytes_eq, toBytes_eq]
  refine getD_append_middle (hc.trans hs.chksum.symm) ?_ 0
  simpa [hs.name, hs.mode, hs.uid, hs.gid, hs.size, hs.mtime, hc] using hi

end Checksum

section StripLemmas

variable {s : List UInt8}

theorem length_afterSlash_lt (h : antisocial s = true) : (afterSlash s).length < s.length := by
  have hne : 0 < s.length := by
    cases s with
    | nil => simp [antisocial] at h
    | cons _ _ => simp
  have hd := (List.dropWhile_suffix (fun c => decide (c ≠ 47)) (l := s)).length_le
  simp only [afterSlash, List.length_drop]
  omega

/-- The loop stops by its own test before the fuel runs out. -/
theorem antisocial_stripLoop {n : ℕ} (h : s.length ≤ n) : antisocial (stripLoop n s) = false := by
  induction n generalizing s with
  | zero =>
    rw [List.length_eq_zero_iff.1 (Nat.le_zero.1 h)]
    rfl
  | succ n ih =>
    simp only [stripLoop]
    split
    · next ha => exact ih (by have := length_afterSlash_lt ha; omega)
    · next ha => simpa using ha

theorem stripLoop_of_not_antisocial (h : antisocial s = false) (n : ℕ) : stripLoop n s = s := by
  cases n <;> simp [stripLoop, h]

/-- What is left of a name is a suffix of it. -/
theorem stripLoop_suffix (n : ℕ) (s : List UInt8) : stripLoop n s <:+ s := by
  induction n generalizing s with
  | zero => exact List.suffix_refl s
  | succ n ih =>
    simp only [stripLoop]
    split
    · exact (ih _).trans ((List.drop_suffix 1 _).trans (List.dropWhile_suffix _))
    · exact List.suffix_refl s

theorem stripAntisocialPrefixes_of_not_antisocial (ha : antisocial s = false)
    (hc : ¬ (s = [] ∨ s = [46, 46])) : stripAntisocialPrefixes s = s := by
  simp only [stripAntisocialPrefixes, stripLoop_of_not_antisocial ha, if_neg hc]

/-- Stripping a stripped name changes nothing. -/
theorem stripAntisocialPrefixes_idem (s : List UInt8) :
    stripAntisocialPrefixes (stripAntisocialPrefixes s) = stripAntisocialPrefixes s := by
  have ha := antisocial_stripLoop (le_refl s.length)
  by_cases hc : stripLoop s.length s = [] ∨ stripLoop s.length s = [46, 46]
  · have h₁ : stripAntisocialPrefixes s = [46] := by simp only [stripAntisocialPrefixes, if_pos hc]
    rw [h₁]
    decide
  · have h₁ : stripAntisocialPrefixes s = stripLoop s.length s := by
      simp only [stripAntisocialPrefixes, if_neg hc]
    rw [h₁]
    exact stripAntisocialPrefixes_of_not_antisocial ha hc

theorem zero_not_mem_stripAntisocialPrefixes (hz : 0 ∉ s) : 0 ∉ stripAntisocialPrefixes s := by
  simp only [stripAntisocialPrefixes]
  split
  · decide
  · exact fun h => hz ((stripLoop_suffix _ _).subset h)

end StripLemmas

section Header

variable {h : UstarHeader}

theorem UstarHeader.Sized.setChksum (hs : h.Sized) {c : List UInt8} (hc : c.length = 8) :
    { h with chksum := c }.Sized :=
  ⟨hs.name, hs.mode, hs.uid, hs.gid, hs.size, hs.mtime, hc, hs.linkname, hs.magic, hs.version,
    hs.uname, hs.gname, hs.devmajor, hs.devminor, hs.pfx, hs.padding⟩

theorem sized_headerFields (fileName : List UInt8) (type : UstarType) (size : ℤ) :
    (headerFields fileName type size).Sized := by
  constructor <;> simp [headerFields, length_cField]

theorem length_toBytes (hs : h.Sized) : h.toBytes.length = ustarHeaderSize := by
  simp [UstarHeader.toBytes, hs.name, hs.mode, hs.uid, hs.gid, hs.size, hs.mtime, hs.chksum,
    hs.linkname, hs.magic, hs.version, hs.uname, hs.gname, hs.devmajor, hs.devminor, hs.pfx,
    hs.padding, ustarHeaderSize]

theorem mem_toBytes_of_mem_magic {b : UInt8} (hb : b ∈ h.magic) : b ∈ h.toBytes := by
  simp [UstarHeader.toBytes, hb]

/-- Reading the fields back from a header's bytes gives the header. -/
theorem ofBytes_toBytes (hs : h.Sized) : UstarHeader.ofBytes h.toBytes = h := by
  simp [UstarHeader.ofBytes, UstarHeader.toBytes, List.splitAt_eq, List.take_left', List.drop_left',
    hs.name, hs.mode, hs.uid, hs.gid, hs.size, hs.mtime, hs.chksum, hs.linkname, hs.magic,
    hs.version, hs.uname, hs.gname, hs.devmajor, hs.devminor, hs.pfx,
    List.take_of_length_le hs.padding.le]

end Header

section RoundTrip

/-- The header `ustar_make_header` writes once the checksum is in. -/
def madeHeader (fileName : List UInt8) (type : UstarType) (size : ℤ) : UstarHeader :=
  let h := headerFields fileName type size
  { h with chksum := cField 8 (octal 7 (calculateChksum h.toBytes)) }

theorem ustarMakeHeader_eq {fileName : List UInt8} {type : UstarType} (ht : type ≠ .eof)
    (hl : (stripAntisocialPrefixes fileName).length ≤ 99) (size : ℤ) :
    ustarMakeHeader fileName type size =
      some (some (madeHeader (stripAntisocialPrefixes fileName) type size).toBytes) := by
  simp only [ustarMakeHeader, if_neg ht, if_neg (not_lt.2 hl), madeHeader]

theorem sized_madeHeader (fileName : List UInt8) (type : UstarType) (size : ℤ) :
    (madeHeader fileName type size).Sized :=
  (sized_headerFields fileName type size).setChksum (length_cField 8 _)

section Fields

variable (fileName : List UInt8) (type : UstarType) (size : ℤ)

@[simp] theorem name_madeHeader : (madeHeader fileName type size).name = cField 100 fileName := rfl

@[simp] theorem size_madeHeader :
    (madeHeader fileName type size).size = cField 12 (octal 11 (size % 2 ^ 32).toNat) := rfl

@[simp] theorem typeflag_madeHeader : (madeHeader fileName type size).typeflag = type.toByte := rfl

@[simp] theorem magic_madeHeader : (madeHeader fileName type size).magic = ustarMagic ++ [0] := rfl

@[simp] theorem version_madeHeader : (madeHeader fileName type size).version = [48, 48] := rfl

@[simp] theorem pfx_madeHeader : (madeHeader fileName type size).pfx = List.replicate 155 0 := rfl

end Fields

/-- The checksum field of a made header parses to the header's checksum. -/
theorem parseOctalField_madeHeader_chksum (fileName : List UInt8) (type : UstarType) (size : ℤ) :
    parseOctalField (madeHeader fileName type size).chksum =
      some (calculateChksum (madeHeader fileName type size).toBytes) := by
  have hle := calculateChksum_le (headerFields fileName type size).toBytes
  rw [madeHeader, calculateChksum_setChksum (sized_headerFields fileName type size)
    (length_cField 8 _)]
  exact parseOctalField_octal (by decide) (by decide) (by omega) (by unfold ulongMax; omega)

theorem isAllZeros_madeHeader (fileName : List UInt8) (type : UstarType) (size : ℤ) :
    isAllZeros ((madeHeader fileName type size).toBytes.take ustarHeaderSize) = false := by
  rw [List.take_of_length_le (length_toBytes (sized_madeHeader fileName type size)).le]
  -- the magic field starts with `'u'`
  have hu : (117 : UInt8) ∈ (madeHeader fileName type size).toBytes :=
    mem_toBytes_of_mem_magic (by simp [ustarMagic])
  simp only [isAllZeros, List.all_eq_false]
  exact ⟨117, hu, by decide⟩

/-- The size field of a made header parses back to the size. -/
theorem parseOctalField_madeHeader_size {fileName : List UInt8} {type : UstarType} {size : ℤ}
    (h0 : 0 ≤ size) (hmax : size ≤ intMax) :
    parseOctalField (madeHeader fileName type size).size = some size.toNat := by
  have hm : size % 2 ^ 32 = size := Int.emod_eq_of_lt h0 (by unfold intMax at hmax; omega)
  rw [size_madeHeader, hm]
  exact parseOctalField_octal (by decide) (by decide) (by unfold intMax at hmax; omega)
    (by unfold intMax at hmax; unfold ulongMax; omega)

theorem ustarParseHeader_madeHeader {s : List UInt8} (hz : 0 ∉ s) (hl : s.length ≤ 99)
    (hs : stripAntisocialPrefixes s = s) {type : UstarType}
    (ht : type = .regular ∨ type = .directory) {size : ℤ} (h0 : 0 ≤ size) (hmax : size ≤ intMax) :
    ustarParseHeader (madeHeader s type size).toBytes =
      .ok (some s, type, if type = .regular then size else 0) := by
  have hname : cString (madeHeader s type size).name = s := cString_cField hz (by omega)
  have hend : (madeHeader s type size).name.getD 99 0 = 0 := getD_cField (by omega) hl
  unfold ustarParseHeader
  simp only [ofBytes_toBytes (sized_madeHeader s type size), isAllZeros_madeHeader,
    parseOctalField_madeHeader_chksum, hname, hend, hs, magic_madeHeader, version_madeHeader,
    pfx_madeHeader, typeflag_madeHeader, parseOctalField_madeHeader_size h0 hmax]
  rcases ht with rfl | rfl
  · simp [UstarType.toByte, Except.map, show ¬ intMax < size.toNat by omega, Int.toNat_of_nonneg h0]
  · simp [UstarType.toByte, Except.map]

theorem isAllZeros_replicate (n : ℕ) : isAllZeros (List.replicate n 0) = true := by
  simp [isAllZeros]

/-- A block of zeros sums to the eight spaces of its checksum field. -/
theorem calculateChksum_replicate_zero (n : ℕ) : calculateChksum (List.replicate n 0) = 256 := by
  have h : ∀ i, ((List.replicate n (0 : UInt8)).getD i 0).toNat = 0 := fun i => by
    rw [List.getD_eq_getElem?_getD, List.getElem?_replicate]
    split <;> rfl
  unfold calculateChksum
  simp only [h]
  decide +kernel

/-- A block of zeros ends the archive, whatever its checksum field says. -/
theorem ustarParseHeader_of_isAllZeros {header : List UInt8}
    (h : isAllZeros (header.take ustarHeaderSize) = true) :
    ustarParseHeader header = .ok (none, .eof, 0) := by
  unfold ustarParseHeader
  dsimp only
  rw [if_pos h]

/-- A header that parses is the end-of-archive block, or has a checksum field that parses to
its byte sum. -/
theorem ustarParseHeader_chksum {header : List UInt8} {r : Option (List UInt8) × UstarType × ℤ}
    (h : ustarParseHeader header = .ok r) :
    (isAllZeros (header.take ustarHeaderSize) = true ∧ r = (none, .eof, 0)) ∨
      parseOctalField (UstarHeader.ofBytes header).chksum = some (calculateChksum header) := by
  unfold ustarParseHeader at h
  dsimp only at h
  split at h
  · next hz =>
    cases h
    exact .inl ⟨hz, rfl⟩
  · split at h
    · cases h
    · split at h
      · cases h
      · split at h
        · cases h
        · next c hc =>
          split at h
          · cases h
          · next hne => exact .inr (hc.trans (congrArg some (not_not.1 hne)))

theorem ustar_header_round_trip :
    (∀ (fileName : List UInt8) (type : UstarType) (size : ℤ), 0 ∉ fileName →
      (stripAntisocialPrefixes fileName).length ≤ 99 → (type = .regular ∨ type = .directory) →
      0 ≤ size → size ≤ intMax →
      ∃ header, ustarMakeHeader fileName type size = some (some header) ∧
        ustarParseHeader header =
          .ok (some (stripAntisocialPrefixes fileName), type, if type = .regular then size else 0)) ∧
    ∀ (header : List UInt8) (r : Option (List UInt8) × UstarType × ℤ),
      ustarParseHeader header = .ok r →
      (isAllZeros (header.take ustarHeaderSize) = true ∧ r = (none, .eof, 0)) ∨
        parseOctalField (UstarHeader.ofBytes header).chksum = some (calculateChksum header) := by
  refine ⟨fun fileName type size hz hl ht h0 hmax => ?_, fun _ _ h => ustarParseHeader_chksum h⟩
  have hne : type ≠ .eof := by
    rintro rfl
    simp at ht
  exact ⟨_, ustarMakeHeader_eq hne hl size,
    ustarParseHeader_madeHeader (zero_not_mem_stripAntisocialPrefixes hz) hl
      (stripAntisocialPrefixes_idem fileName) ht h0 hmax⟩

/-- The header of a regular file of 5 bytes named `/a` is made for `a` and parses back. -/
theorem ustar_header_round_trip_slash_a :
    ∃ header, ustarMakeHeader [47, 97] .regular 5 = some (some header) ∧
      ustarParseHeader header = .ok (some [97], .regular, 5) := by
  have h := ustar_header_round_trip.1 [47, 97] .regular 5 (by decide) (by decide) (.inl rfl)
    (by decide) (by decide)
  have hs : stripAntisocialPrefixes [47, 97] = [97] := by decide
  simpa [hs] using h

/-- The all-zero block that ends an archive is accepted before any check, with a checksum
field that does not parse and a byte sum of 256. -/
theorem zero_header_accepted :
    ustarParseHeader (List.replicate 512 0) = .ok (none, .eof, 0) ∧
      parseOctalField (UstarHeader.ofBytes (List.replicate 512 0)).chksum = none ∧
      calculateChksum (List.replicate 512 0) = 256 := by
  refine ⟨ustarParseHeader_of_isAllZeros ?_, by decide +kernel, calculateChksum_replicate_zero 512⟩
  rw [List.take_replicate]
  exact isAllZeros_replicate _

end RoundTrip

end Pintos
