import Mathlib.Data.Int.Basic
import Mathlib.Tactic.Linarith
import Mathlib.Tactic.IntervalCases
import Mathlib.Tactic.Ring
import Mathlib.Tactic.Positivity

/-! # 64-bit division on a 32-bit machine

`lib/arithmetic.c`: GCC calls `__udivdi3`, `__umoddi3`, `__divdi3` and
`__moddi3` for 64-bit division, and Pintos builds them on the x86 `divl`
instruction, which divides a 64-bit dividend by a 32-bit divisor and traps
(#DE) when the quotient does not fit in 32 bits. A divisor of 32 bits takes
two `divl`s; a wider one is normalised by `nlz` and its quotient estimated
by one `divl` and corrected by one.

Words are natural numbers below `2 ^ 64` or `2 ^ 32`, and C's wrapping
arithmetic is written out with `%`. `long long` values are integers in
`[-2 ^ 63, 2 ^ 63)`; a conversion between signed and unsigned words keeps the
low bits. `none` is the divide error.
-/

namespace Pintos

/-- A word of `bits` bits read as a two's complement integer. -/
def toSigned (bits x : ℕ) : ℤ := if x < 2 ^ (bits - 1) then x else (x : ℤ) - 2 ^ bits

/-- The low `bits` bits of an integer, as an unsigned word. -/
def toUnsigned (bits : ℕ) (x : ℤ) : ℕ := (x % 2 ^ bits).toNat

/-- `divl`: the 64-bit `n` by the 32-bit `d`; the divide error when the quotient needs more
than 32 bits. -/
def divl (n d : ℕ) : Option ℕ := if d = 0 ∨ 2 ^ 32 ≤ n / d then none else some (n / d)

/-- `nlz`: the leading zero bits of a nonzero 32-bit `x`, found by halving the field. -/
def nlz (x : ℕ) : ℕ :=
  let (n, x) := if x ≤ 0x0000FFFF then (16, (x <<< 16) % 2 ^ 32) else (0, x)
  let (n, x) := if x ≤ 0x00FFFFFF then (n + 8, (x <<< 8) % 2 ^ 32) else (n, x)
  let (n, x) := if x ≤ 0x0FFFFFFF then (n + 4, (x <<< 4) % 2 ^ 32) else (n, x)
  let (n, x) := if x ≤ 0x3FFFFFFF then (n + 2, (x <<< 2) % 2 ^ 32) else (n, x)
  if x ≤ 0x7FFFFFFF then n + 1 else n

/-- `udiv64`. A divisor of 32 bits divides the high word, then the remainder and the low word;
a wider one is shifted left by `nlz` of its high word, its top 32 bits divide half the
dividend, and the estimate is corrected by one. -/
def udiv64 (n d : ℕ) : Option ℕ :=
  if d >>> 32 = 0 then
    let b := 2 ^ 32
    let n1 := n >>> 32
    let n0 := n % 2 ^ 32
    let d0 := d % 2 ^ 32
    (divl ((b * (n1 % d0) + n0) % 2 ^ 64) d0).map fun q => (q + b * (n1 / d0)) % 2 ^ 64
  else if n < d then some 0
  else
    let d1 := d >>> 32
    let s := nlz d1
    (divl (n >>> 1) (((d <<< s) % 2 ^ 64) >>> 32)).map fun q =>
      let q := (q >>> (31 - s)) % 2 ^ 32
      let q' := (q + 2 ^ 64 - 1) % 2 ^ 64
      if (n + 2 ^ 64 - q' * d % 2 ^ 64) % 2 ^ 64 < d then q' else q

/-- `umod64`, which returns a `uint32_t`. -/
def umod64 (n d : ℕ) : Option ℕ :=
  (udiv64 n d).map fun q => (n + 2 ^ 64 - d * q % 2 ^ 64) % 2 ^ 64 % 2 ^ 32

/-- `sdiv64`: divide the magnitudes, then give the quotient its sign. -/
def sdiv64 (n d : ℤ) : Option ℤ :=
  let nAbs := if 0 ≤ n then toUnsigned 64 n else (2 ^ 64 - toUnsigned 64 n) % 2 ^ 64
  let dAbs := if 0 ≤ d then toUnsigned 64 d else (2 ^ 64 - toUnsigned 64 d) % 2 ^ 64
  (udiv64 nAbs dAbs).map fun qAbs =>
    if (n < 0) = (d < 0) then toSigned 64 qAbs
    else toSigned 64 (toUnsigned 64 (-toSigned 64 qAbs))

/-- `smod64`, which returns an `int32_t`. -/
def smod64 (n d : ℤ) : Option ℤ :=
  (sdiv64 n d).map fun q => toSigned 32 (toUnsigned 32 (n - d * q))

/-- `__divdi3`. -/
def divdi3 (n d : ℤ) : Option ℤ := sdiv64 n d

/-- `__moddi3`: the `int32_t` of `smod64`, widened to `long long`. -/
def moddi3 (n d : ℤ) : Option ℤ := smod64 n d

/-- `__udivdi3`. -/
def udivdi3 (n d : ℕ) : Option ℕ := udiv64 n d

/-- `__umoddi3`: the `uint32_t` of `umod64`, widened to `unsigned long long`. -/
def umoddi3 (n d : ℕ) : Option ℕ := umod64 n d

/-- `divl` gives the quotient when it fits in 32 bits. -/
theorem divl_eq {n d : ℕ} (hd : 0 < d) (hq : n / d < 2 ^ 32) : divl n d = some (n / d) := by
  rw [divl, if_neg (by omega)]

theorem two_pow_split {s : ℕ} (hs : s ≤ 31) : (2 : ℕ) ^ 32 = 2 ^ (32 - s) * 2 ^ s := by
  rw [← pow_add]
  congr 1
  omega

/-- The divisor's top word after the shift by `s`, scaled back by `2 ^ (32 - s)`, is `d`
rounded down to a multiple of `2 ^ (32 - s)`. -/
theorem shifted_top_word {d s : ℕ} (hs : s ≤ 31) :
    d * 2 ^ s / 2 ^ 32 * 2 ^ (32 - s) ≤ d ∧ d < d * 2 ^ s / 2 ^ 32 * 2 ^ (32 - s) + 2 ^ (32 - s) := by
  have hpos : 0 < 2 ^ s := Nat.pow_pos (by decide)
  generalize hv : d * 2 ^ s / 2 ^ 32 = v
  have h₁ : v * 2 ^ 32 ≤ d * 2 ^ s := hv ▸ Nat.div_mul_le_self _ _
  have h₂ : d * 2 ^ s < 2 ^ 32 * (v + 1) := hv ▸ Nat.lt_mul_div_succ _ (Nat.pow_pos (by decide))
  rw [two_pow_split hs] at h₁ h₂
  constructor
  · rw [← Nat.mul_assoc] at h₁
    exact Nat.le_of_mul_le_mul_right h₁ hpos
  · have h₃ : d * 2 ^ s < (v * 2 ^ (32 - s) + 2 ^ (32 - s)) * 2 ^ s := by
      calc d * 2 ^ s < 2 ^ (32 - s) * 2 ^ s * (v + 1) := h₂
        _ = (v * 2 ^ (32 - s) + 2 ^ (32 - s)) * 2 ^ s := by ring
    exact Nat.lt_of_mul_lt_mul_right h₃

theorem correction_room : ∀ s < 32, (2 ^ (32 - s) - 1) * 2 ^ (s + 1) ≤ 2 ^ (63 - s) := by decide

/-- The estimate of `udiv64`: with `d * 2 ^ s` a 64-bit word whose top bit is set, half the
dividend divided by the top word of `d * 2 ^ s`, then shifted right by `31 - s`, is the quotient
or one more. -/
theorem estimate_bounds {n d s : ℕ} (hn : n < 2 ^ 64) (hs : s ≤ 31) (hlo : 2 ^ 63 ≤ d * 2 ^ s) :
    n / d ≤ n / 2 / (d * 2 ^ s / 2 ^ 32) / 2 ^ (31 - s) ∧
      n / 2 / (d * 2 ^ s / 2 ^ 32) / 2 ^ (31 - s) ≤ n / d + 1 := by
  obtain ⟨hw₁, hw₂⟩ := shifted_top_word (d := d) hs
  generalize hv : d * 2 ^ s / 2 ^ 32 = v at hw₁ hw₂
  have hv₁ : 2 ^ 31 ≤ v := by
    rw [← hv]
    exact (Nat.le_div_iff_mul_le (by positivity)).mpr (by simpa [← pow_add] using hlo)
  have hq : n / 2 / v / 2 ^ (31 - s) = n / (v * 2 ^ (32 - s)) := by
    rw [Nat.div_div_eq_div_mul, Nat.div_div_eq_div_mul]
    congr 1
    rw [show 32 - s = (31 - s) + 1 by omega, pow_succ]
    ring
  rw [hq]
  generalize hw : v * 2 ^ (32 - s) = w at hw₁ hw₂
  have hwpos : 0 < w := by rw [← hw]; positivity
  have hW : 2 ^ (63 - s) ≤ w := by
    rw [← hw, show 63 - s = 31 + (32 - s) by omega, pow_add]
    exact Nat.mul_le_mul_right _ hv₁
  -- `d` is at least `2 ^ (63 - s)`, so the quotient is below `2 ^ (s + 1)`
  have hd : 2 ^ (63 - s) ≤ d := hW.trans hw₁
  have hQ : n / d + 1 ≤ 2 ^ (s + 1) := by
    have hdpos : 0 < d := lt_of_lt_of_le (by positivity) hd
    have h₁ : n / d * 2 ^ (63 - s) < 2 ^ 64 :=
      lt_of_le_of_lt ((Nat.mul_le_mul_left _ hd).trans (Nat.div_mul_le_self n d)) hn
    rw [show 64 = (s + 1) + (63 - s) by omega, pow_add] at h₁
    exact Nat.lt_of_mul_lt_mul_right h₁
  refine ⟨Nat.div_le_div_left hw₁ hwpos, ?_⟩
  -- `n < d * (n / d + 1) ≤ w * (n / d + 2)`
  have hroom := correction_room s (by omega)
  have hstep : d * (n / d + 1) ≤ w * (n / d + 2) := by
    calc d * (n / d + 1) ≤ (w + (2 ^ (32 - s) - 1)) * (n / d + 1) := by
          apply Nat.mul_le_mul_right
          have : 0 < 2 ^ (32 - s) := by positivity
          omega
      _ = w * (n / d + 1) + (2 ^ (32 - s) - 1) * (n / d + 1) := by ring
      _ ≤ w * (n / d + 1) + (2 ^ (32 - s) - 1) * 2 ^ (s + 1) := by
          apply Nat.add_le_add_left
          exact Nat.mul_le_mul_left _ hQ
      _ ≤ w * (n / d + 1) + w := Nat.add_le_add_left (hroom.trans hW) _
      _ = w * (n / d + 2) := by ring
  have hlt : n < w * (n / d + 2) :=
    lt_of_lt_of_le (Nat.lt_mul_div_succ n (lt_of_lt_of_le hwpos hw₁)) hstep
  have := Nat.div_lt_of_lt_mul hlt
  omega

/-- A divisor of 32 bits: the high word, then the remainder and the low word. -/
theorem udiv64_of_lt {n d : ℕ} (hn : n < 2 ^ 64) (hd0 : 0 < d) (hd : d < 2 ^ 32) :
    udiv64 n d = some (n / d) := by
  have hshift : d >>> 32 = 0 := by rw [Nat.shiftRight_eq_div_pow]; exact Nat.div_eq_of_lt hd
  have hquot : n / d < 2 ^ 64 := lt_of_le_of_lt (Nat.div_le_self n d) hn
  unfold udiv64
  rw [if_pos hshift]
  simp only [Nat.shiftRight_eq_div_pow, Nat.mod_eq_of_lt hd]
  have hsplit : n = 2 ^ 32 * (n / 2 ^ 32) + n % 2 ^ 32 := (Nat.div_add_mod n _).symm
  have hn0 : n % 2 ^ 32 < 2 ^ 32 := Nat.mod_lt _ (by positivity)
  generalize n / 2 ^ 32 = n1 at hsplit ⊢
  generalize n % 2 ^ 32 = n0 at hsplit hn0 ⊢
  have hr : n1 % d < d := Nat.mod_lt n1 hd0
  -- the remainder word and the low word stay below `d * 2 ^ 32`, and so below `2 ^ 64`
  have hrem : 2 ^ 32 * (n1 % d) + n0 < d * 2 ^ 32 :=
    calc 2 ^ 32 * (n1 % d) + n0 < 2 ^ 32 * (n1 % d + 1) := by omega
      _ ≤ 2 ^ 32 * d := Nat.mul_le_mul_left _ hr
      _ = d * 2 ^ 32 := Nat.mul_comm _ _
  have h64 : 2 ^ 32 * (n1 % d) + n0 < 2 ^ 64 :=
    calc 2 ^ 32 * (n1 % d) + n0 < d * 2 ^ 32 := hrem
      _ ≤ 2 ^ 32 * 2 ^ 32 := Nat.mul_le_mul_right _ hd.le
      _ = 2 ^ 64 := by norm_num
  have hq : (2 ^ 32 * (n1 % d) + n0) / d < 2 ^ 32 := Nat.div_lt_of_lt_mul hrem
  -- the two quotients add up to the whole one
  have hsum : (2 ^ 32 * (n1 % d) + n0) / d + 2 ^ 32 * (n1 / d) = n / d := by
    have hn' : n = (2 ^ 32 * (n1 % d) + n0) + d * (2 ^ 32 * (n1 / d)) := by
      rw [hsplit]
      conv_lhs => rw [← Nat.mod_add_div n1 d]
      ring
    rw [hn', Nat.add_mul_div_left _ _ hd0]
  rw [Nat.mod_eq_of_lt h64, divl_eq hd0 hq, Option.map_some, hsum, Nat.mod_eq_of_lt hquot]

/-- One halving stage of `nlz`: a word no greater than `mask` is shifted left by `s`, and `s`
is added to the count. -/
def nlzStage (s mask : ℕ) (p : ℕ × ℕ) : ℕ × ℕ :=
  if p.2 ≤ mask then (p.1 + s, (p.2 <<< s) % 2 ^ 32) else p

theorem nlz_eq_stages (x : ℕ) :
    nlz x = let p := nlzStage 2 0x3FFFFFFF (nlzStage 4 0x0FFFFFFF (nlzStage 8 0x00FFFFFF
        (nlzStage 16 0x0000FFFF (0, x))))
      if p.2 ≤ 0x7FFFFFFF then p.1 + 1 else p.1 := by
  simp only [nlz, nlzStage]

/-- What the stages of `nlz` keep: the word is `x` shifted left by the count, without
overflow, and it is at least `2 ^ k`. -/
def NlzInv (x k : ℕ) (p : ℕ × ℕ) : Prop := p.2 = x * 2 ^ p.1 ∧ 2 ^ k ≤ p.2 ∧ p.2 < 2 ^ 32

/-- A stage of shift `s` takes a word of at least `32 - 2 * s` bits to one of at least `32 - s`
bits. -/
theorem NlzInv.stage {x s mask : ℕ} {p : ℕ × ℕ} (hs : s ≤ 16) (hmask : mask = 2 ^ (32 - s) - 1)
    (h : NlzInv x (32 - 2 * s) p) : NlzInv x (32 - s) (nlzStage s mask p) := by
  obtain ⟨hy, hlo, hhi⟩ := h
  subst hmask
  unfold nlzStage
  split_ifs with hsmall
  · have hlt : p.2 < 2 ^ (32 - s) := by
      have := Nat.one_le_two_pow (n := 32 - s)
      omega
    have hshift : p.2 * 2 ^ s < 2 ^ 32 :=
      calc p.2 * 2 ^ s < 2 ^ (32 - s) * 2 ^ s := Nat.mul_lt_mul_of_pos_right hlt (by positivity)
        _ = 2 ^ 32 := by rw [← pow_add, Nat.sub_add_cancel (by omega)]
    simp only [Nat.shiftLeft_eq, Nat.mod_eq_of_lt hshift]
    refine ⟨by rw [hy, pow_add, mul_assoc], ?_, hshift⟩
    calc 2 ^ (32 - s) = 2 ^ (32 - 2 * s) * 2 ^ s := by rw [← pow_add]; congr 1; omega
      _ ≤ p.2 * 2 ^ s := Nat.mul_le_mul_right _ hlo
  · exact ⟨hy, by omega, hhi⟩

theorem nlz_spec {x : ℕ} (h0 : 0 < x) (hx : x < 2 ^ 32) :
    nlz x ≤ 31 ∧ 2 ^ 31 ≤ x * 2 ^ nlz x ∧ x * 2 ^ nlz x < 2 ^ 32 := by
  have h₀ : NlzInv x (32 - 2 * 16) (0, x) := ⟨by simp, by simp; omega, hx⟩
  -- the four halving stages, each doubling the significant bits the word is known to have
  set p := nlzStage 2 0x3FFFFFFF (nlzStage 4 0x0FFFFFFF (nlzStage 8 0x00FFFFFF
    (nlzStage 16 0x0000FFFF (0, x)))) with hp
  obtain ⟨hy, hlo, hhi⟩ : NlzInv x 30 p :=
    (((h₀.stage (by norm_num) (by norm_num)).stage (s := 8) (by norm_num) (by norm_num)).stage
      (s := 4) (by norm_num) (by norm_num)).stage (s := 2) (by norm_num) (by norm_num)
  -- the last test doubles a word below `2 ^ 31`
  have hspec : 2 ^ 31 ≤ x * 2 ^ nlz x ∧ x * 2 ^ nlz x < 2 ^ 32 := by
    rw [nlz_eq_stages, ← hp]
    dsimp only
    split_ifs with h31
    · rw [pow_succ 2 p.1, ← mul_assoc, ← hy]
      omega
    · rw [← hy]
      omega
  have hpow : 2 ^ nlz x < 2 ^ 32 := lt_of_le_of_lt (Nat.le_mul_of_pos_left _ h0) hspec.2
  exact ⟨Nat.lt_succ_iff.mp ((Nat.pow_lt_pow_iff_right (by norm_num)).mp hpow), hspec⟩

/-- The correction of `udiv64`: from an estimate `q` that is the quotient `Q` or `Q + 1`, the
test `n - (q - 1) * d < d` on 64-bit words keeps the quotient. -/
theorem correct_estimate {n d q : ℕ} (hn : n < 2 ^ 64) (hd : 0 < d) (hnd : d ≤ n)
    (hlow : n / d ≤ q) (hhigh : q ≤ n / d + 1) :
    (if (n + 2 ^ 64 - (q + 2 ^ 64 - 1) % 2 ^ 64 * d % 2 ^ 64) % 2 ^ 64 < d then
      (q + 2 ^ 64 - 1) % 2 ^ 64 else q) = n / d := by
  have hQ : 1 ≤ n / d := (Nat.one_le_div_iff hd).mpr hnd
  have hQd : n / d * d ≤ n := Nat.div_mul_le_self n d
  have hQd' : n < d * (n / d + 1) := Nat.lt_mul_div_succ n hd
  have hQ64 : n / d < 2 ^ 64 := lt_of_le_of_lt (Nat.div_le_self n d) hn
  generalize n / d = Q at hQ hQd hQd' hQ64 hlow hhigh ⊢
  rcases Nat.eq_or_lt_of_le hhigh with rfl | hq
  · -- one too many: `n - Q * d` is the remainder
    rw [show (Q + 1 + 2 ^ 64 - 1) % 2 ^ 64 = Q by omega, Nat.mod_eq_of_lt (lt_of_le_of_lt hQd hn)]
    rw [Nat.mul_add, Nat.mul_one] at hQd'
    rw [Nat.mul_comm] at hQd'
    generalize Q * d = P at hQd hQd' ⊢
    rw [if_pos (by omega)]
  · have hqQ : q = Q := by omega
    subst hqQ
    have hsub : (q + 2 ^ 64 - 1) % 2 ^ 64 * d = q * d - d := by
      rw [show (q + 2 ^ 64 - 1) % 2 ^ 64 = q - 1 by omega, Nat.sub_mul, Nat.one_mul]
    have h64 : q * d - d < 2 ^ 64 := by omega
    rw [hsub, Nat.mod_eq_of_lt h64]
    rw [Nat.mul_add, Nat.mul_one, Nat.mul_comm] at hQd'
    have hqd : d ≤ q * d := Nat.le_mul_of_pos_left d hQ
    generalize q * d = P at hQd hQd' hqd ⊢
    rw [if_neg (by omega)]

/-- A divisor wider than 32 bits: the estimate from the shifted top word, corrected once. -/
theorem udiv64_of_ge {n d : ℕ} (hn : n < 2 ^ 64) (hd : 2 ^ 32 ≤ d) (hd64 : d < 2 ^ 64) :
    udiv64 n d = some (n / d) := by
  have hd1 : 0 < d / 2 ^ 32 := Nat.div_pos hd (by positivity)
  have hd1' : d / 2 ^ 32 < 2 ^ 32 := Nat.div_lt_of_lt_mul (by rw [← pow_add]; exact hd64)
  have hshift : d >>> 32 ≠ 0 := by rw [Nat.shiftRight_eq_div_pow]; omega
  unfold udiv64
  rw [if_neg hshift]
  split
  · next hlt => rw [Nat.div_eq_of_lt hlt]
  · next hge =>
    simp only [Nat.shiftRight_eq_div_pow, Nat.shiftLeft_eq]
    obtain ⟨hs, hlo, hhi⟩ := nlz_spec hd1 hd1'
    generalize nlz (d / 2 ^ 32) = s at hs hlo hhi ⊢
    -- `d * 2 ^ s` is a 64-bit word with its top bit set
    have hds : 2 ^ 63 ≤ d * 2 ^ s := by
      calc (2 : ℕ) ^ 63 = 2 ^ 31 * 2 ^ 32 := by norm_num
        _ ≤ d / 2 ^ 32 * 2 ^ s * 2 ^ 32 := Nat.mul_le_mul_right _ hlo
        _ = d / 2 ^ 32 * 2 ^ 32 * 2 ^ s := by ring
        _ ≤ d * 2 ^ s := Nat.mul_le_mul_right _ (Nat.div_mul_le_self d _)
    have hds' : d * 2 ^ s < 2 ^ 64 := by
      have hroom : (d / 2 ^ 32 + 1) * 2 ^ s ≤ 2 ^ 32 := by
        have h₁ : d / 2 ^ 32 * 2 ^ s < 2 ^ (32 - s) * 2 ^ s := by rwa [← two_pow_split hs]
        have h₂ := Nat.lt_of_mul_lt_mul_right h₁
        calc (d / 2 ^ 32 + 1) * 2 ^ s ≤ 2 ^ (32 - s) * 2 ^ s := Nat.mul_le_mul_right _ h₂
          _ = 2 ^ 32 := (two_pow_split hs).symm
      have hd' : d < 2 ^ 32 * (d / 2 ^ 32 + 1) := Nat.lt_mul_div_succ d (by positivity)
      calc d * 2 ^ s < 2 ^ 32 * (d / 2 ^ 32 + 1) * 2 ^ s :=
            Nat.mul_lt_mul_of_pos_right hd' (by positivity)
        _ = (d / 2 ^ 32 + 1) * 2 ^ s * 2 ^ 32 := by ring
        _ ≤ 2 ^ 32 * 2 ^ 32 := Nat.mul_le_mul_right _ hroom
        _ = 2 ^ 64 := by norm_num
    rw [Nat.mod_eq_of_lt hds']
    have hv : 2 ^ 31 ≤ d * 2 ^ s / 2 ^ 32 :=
      (Nat.le_div_iff_mul_le (by positivity)).mpr (by simpa [← pow_add] using hds)
    have hq1 : n / 2 / (d * 2 ^ s / 2 ^ 32) < 2 ^ 32 := by
      apply Nat.div_lt_of_lt_mul
      calc n / 2 < 2 ^ 63 := by omega
        _ = 2 ^ 31 * 2 ^ 32 := by norm_num
        _ ≤ d * 2 ^ s / 2 ^ 32 * 2 ^ 32 := Nat.mul_le_mul_right _ hv
    rw [divl_eq (by omega) hq1, Option.map_some]
    obtain ⟨hlow, hhigh⟩ := estimate_bounds hn hs hds
    have hq32 : n / 2 / (d * 2 ^ s / 2 ^ 32) / 2 ^ (31 - s) < 2 ^ 32 :=
      lt_of_le_of_lt (Nat.div_le_self _ _) hq1
    rw [Nat.mod_eq_of_lt hq32]
    exact congrArg some (correct_estimate hn (by omega) (by omega) hlow hhigh)

/-- `udiv64` never traps and returns the quotient. -/
theorem udiv64_eq {n d : ℕ} (hn : n < 2 ^ 64) (hd0 : 0 < d) (hd : d < 2 ^ 64) :
    udiv64 n d = some (n / d) := by
  rcases Nat.lt_or_ge d (2 ^ 32) with h | h
  · exact udiv64_of_lt hn hd0 h
  · exact udiv64_of_ge hn h hd

/-- `__umoddi3` returns the remainder cut to its low 32 bits. -/
theorem umoddi3_eq {n d : ℕ} (hn : n < 2 ^ 64) (hd0 : 0 < d) (hd : d < 2 ^ 64) :
    umoddi3 n d = some (n % d % 2 ^ 32) := by
  have hle : d * (n / d) ≤ n := Nat.mul_div_le n d
  have hmod : n % d = n - d * (n / d) := Nat.mod_eq_sub_mul_div
  rw [umoddi3, umod64, udiv64_eq hn hd0 hd, Option.map_some, Nat.mod_eq_of_lt (lt_of_le_of_lt hle hn)]
  congr 2
  generalize d * (n / d) = p at hle hmod
  omega

/-- The magnitude `sdiv64` takes of a `long long`. -/
theorem magnitude_eq {n : ℤ} (hlo : -2 ^ 63 ≤ n) (hhi : n < 2 ^ 63) :
    (if 0 ≤ n then toUnsigned 64 n else (2 ^ 64 - toUnsigned 64 n) % 2 ^ 64) = n.natAbs := by
  unfold toUnsigned
  norm_num at hlo hhi ⊢
  split <;> omega

/-- The magnitude of a quotient of `long long`s is below `2 ^ 63`, but for `INT64_MIN / ±1`. -/
theorem quotient_lt {a b : ℕ} (ha : a ≤ 2 ^ 63) (hb : 0 < b) : a / b < 2 ^ 63 ∨ a = 2 ^ 63 ∧ b = 1 := by
  rcases Nat.lt_or_ge b 2 with hb1 | hb2
  · have : b = 1 := by omega
    subst this
    rw [Nat.div_one]
    omega
  · left
    calc a / b ≤ a / 2 := Nat.div_le_div_left hb2 (by decide)
      _ < 2 ^ 63 := by omega

theorem toSigned_of_lt {x : ℕ} (h : x < 2 ^ 63) : toSigned 64 x = x := by
  rw [toSigned, if_pos h]

/-- Negating a magnitude in `long long` arithmetic: exact below `2 ^ 63`, and `2 ^ 63` wraps to
itself, which is `INT64_MIN` again. -/
theorem toSigned_neg {x : ℕ} (h : x ≤ 2 ^ 63) : toSigned 64 (toUnsigned 64 (-toSigned 64 x)) = -x := by
  unfold toSigned toUnsigned
  norm_num at h ⊢
  split_ifs <;> omega

/-- `sdiv64` is C99's division, truncating toward zero, but for `INT64_MIN / -1`. -/
theorem sdiv64_eq {n d : ℤ} (hn : -2 ^ 63 ≤ n ∧ n < 2 ^ 63) (hd : -2 ^ 63 ≤ d ∧ d < 2 ^ 63)
    (hd0 : d ≠ 0) (hov : ¬ (n = -2 ^ 63 ∧ d = -1)) : sdiv64 n d = some (n.tdiv d) := by
  unfold sdiv64
  simp only
  rw [magnitude_eq hn.1 hn.2, magnitude_eq hd.1 hd.2,
    udiv64_eq (by omega) (by omega) (by omega), Option.map_some]
  congr 1
  obtain ⟨a, rfl | rfl⟩ := Int.eq_nat_or_neg n <;> obtain ⟨b, rfl | rfl⟩ := Int.eq_nat_or_neg d <;>
    simp only [Int.natAbs_neg, Int.natAbs_natCast] <;>
    have hq : a / b ≤ 2 ^ 63 := (Nat.div_le_self _ _).trans (by omega)
  · -- both non-negative
    have hlt : a / b < 2 ^ 63 := lt_of_le_of_lt (Nat.div_le_self a b) (by omega)
    rw [if_pos (by rw [eq_iff_iff]; omega), ← Int.ofNat_tdiv, toSigned_of_lt hlt]
  · rw [if_neg (by rw [eq_iff_iff]; omega), Int.tdiv_neg, ← Int.ofNat_tdiv, toSigned_neg hq]
  · rcases Nat.eq_zero_or_pos a with rfl | ha
    · simp [toSigned]
    rw [if_neg (by rw [eq_iff_iff]; omega), Int.neg_tdiv, ← Int.ofNat_tdiv, toSigned_neg hq]
  · -- both negative: `INT64_MIN / -1` is the one quotient that does not fit
    rcases Nat.eq_zero_or_pos a with rfl | ha
    · simp [toSigned, toUnsigned]
    rcases quotient_lt (a := a) (b := b) (by omega) (by omega) with hlt | ⟨rfl, rfl⟩
    · rw [if_pos (by rw [eq_iff_iff]; omega), Int.neg_tdiv, Int.tdiv_neg, neg_neg, ← Int.ofNat_tdiv,
        toSigned_of_lt hlt]
    · exact absurd ⟨by norm_num, by norm_num⟩ hov

/-- `__moddi3` is C99's remainder cut to its low 32 bits, read as an `int32_t`. -/
theorem moddi3_eq {n d : ℤ} (hn : -2 ^ 63 ≤ n ∧ n < 2 ^ 63) (hd : -2 ^ 63 ≤ d ∧ d < 2 ^ 63)
    (hd0 : d ≠ 0) (hov : ¬ (n = -2 ^ 63 ∧ d = -1)) :
    moddi3 n d = some (toSigned 32 (toUnsigned 32 (n.tmod d))) := by
  rw [moddi3, smod64, sdiv64_eq hn hd hd0 hov, Option.map_some, Int.tmod_def]

/-- `__udivdi3` returns the quotient of every 64-bit dividend by every nonzero 64-bit divisor,
through `divl` for a divisor of 32 bits and the normalised estimate for a wider one. -/
theorem udivdi3_eq {n d : ℕ} (hn : n < 2 ^ 64) (hd0 : 0 < d) (hd : d < 2 ^ 64) :
    udivdi3 n d = some (n / d) := by
  rw [udivdi3, udiv64_eq hn hd0 hd]

theorem udivdi3_eq_max :
    2 ^ 64 - 1 < 2 ^ 64 ∧ 0 < 2 ^ 32 + 3 ∧ 2 ^ 32 + 3 < 2 ^ 64 ∧
      udivdi3 (2 ^ 64 - 1) (2 ^ 32 + 3) = some ((2 ^ 64 - 1) / (2 ^ 32 + 3)) :=
  ⟨by norm_num, by norm_num, by norm_num, udivdi3_eq (by norm_num) (by norm_num) (by norm_num)⟩

/-- `__divdi3` is C99's division of `long long`s, truncating toward zero, for every pair but
`INT64_MIN / -1`, whose quotient does not fit. -/
theorem divdi3_eq {n d : ℤ} (hn : -2 ^ 63 ≤ n ∧ n < 2 ^ 63) (hd : -2 ^ 63 ≤ d ∧ d < 2 ^ 63)
    (hd0 : d ≠ 0) (hov : ¬ (n = -2 ^ 63 ∧ d = -1)) : divdi3 n d = some (n.tdiv d) := by
  rw [divdi3, sdiv64_eq hn hd hd0 hov]

theorem divdi3_eq_min_by_two :
    (-2 ^ 63 ≤ (-2 ^ 63 : ℤ) ∧ (-2 ^ 63 : ℤ) < 2 ^ 63) ∧ (-2 ^ 63 ≤ (-2 : ℤ) ∧ (-2 : ℤ) < 2 ^ 63) ∧
      (-2 : ℤ) ≠ 0 ∧ ¬((-2 ^ 63 : ℤ) = -2 ^ 63 ∧ (-2 : ℤ) = -1) ∧
      divdi3 (-2 ^ 63) (-2) = some ((-2 ^ 63 : ℤ).tdiv (-2)) :=
  ⟨by norm_num, by norm_num, by norm_num, by norm_num,
    divdi3_eq (by norm_num) (by norm_num) (by norm_num) (by norm_num)⟩

/-- `__umoddi3 (2 ^ 32, 2 ^ 32 + 1)` returns 0 where the remainder is `2 ^ 32`: `umod64`
returns a `uint32_t`. -/
theorem umoddi3_truncates_remainder :
    umoddi3 4294967296 4294967297 = some 0 ∧ 4294967296 % 4294967297 = 4294967296 :=
  ⟨by decide, by decide⟩

end Pintos
