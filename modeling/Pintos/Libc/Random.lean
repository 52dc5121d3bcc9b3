import Mathlib.Logic.Equiv.Basic
import Pintos.Lib.Transition

/-! # The pseudo-random generator

`lib/random.c` is RC4. `random_init` fills `s` with the identity and shuffles it under the
bytes of the seed; each round of `random_bytes` steps `s_i`, moves `s_j` by `s[s_i]`, swaps
the two entries and outputs the entry at the sum of the two. `random_bytes` initialises the
generator with seed 0 on its first call, and `random_ulong` takes four bytes of the stream.

The array `s` is a function on bytes, and the byte arithmetic of the C code wraps as `UInt8`
arithmetic does. Every swap keeps `s` a permutation of the 256 byte values, in every run of calls
(`perm_invariant`). The bytes of a run do not depend on how they are split among
`random_bytes` calls (`randomBytes_append`).
-/

namespace Pintos

/-- The static variables of `random.c`: `s`, `s_i`, `s_j` and `inited`. -/
structure RandomState where
  s : UInt8 → UInt8
  i : UInt8
  j : UInt8
  inited : Bool

/-- The state at boot: static storage is zero. -/
def randomState₀ : RandomState := ⟨fun _ => 0, 0, 0, false⟩

/-- `swap_byte (s + a, s + b)`. -/
def Random.swapByte (s : UInt8 → UInt8) (a b : UInt8) : UInt8 → UInt8 :=
  fun x => if x = a then s b else if x = b then s a else s x

/-- `seedp[k]`: byte `k` of the 32-bit `unsigned` seed, least significant first. -/
def seedByte (seed : UInt32) (k : ℕ) : UInt8 := (seed >>> (8 * k).toUInt32).toUInt8

/-- A round of the second loop of `random_init`, at `i`, on `s` and `j`. -/
def initRound (seed : UInt32) (sj : (UInt8 → UInt8) × UInt8) (i : ℕ) :
    (UInt8 → UInt8) × UInt8 :=
  let j := sj.2 + sj.1 i.toUInt8 + seedByte seed (i % 4)
  (Random.swapByte sj.1 i.toUInt8 j, j)

/-- `random_init (seed)`: it writes every variable, so what was there before does not matter. -/
def randomInit (seed : UInt32) : RandomState :=
  let sj := (List.range 256).foldl (initRound seed) (fun x => x, 0)
  ⟨sj.1, 0, 0, true⟩

/-- A round of the loop of `random_bytes`: the state after it and the byte it stores. -/
def randomRound (st : RandomState) : RandomState × UInt8 :=
  let i := st.i + 1
  let j := st.j + st.s i
  let s := Random.swapByte st.s i j
  ({ st with s := s, i := i, j := j }, s (s i + s j))

/-- `size` rounds of the loop of `random_bytes`. -/
def randomLoop : ℕ → RandomState → RandomState × List UInt8
  | 0, st => (st, [])
  | size + 1, st =>
    let r := randomRound st
    let rest := randomLoop size r.1
    (rest.1, r.2 :: rest.2)

/-- `random_bytes (buf, size)`: the state after it and the bytes it writes to `buf`. -/
def randomBytes (st : RandomState) (size : ℕ) : RandomState × List UInt8 :=
  randomLoop size (if st.inited then st else randomInit 0)

/-- `random_ulong`: the four bytes `random_bytes` writes over a 32-bit `unsigned long`, read
least significant first. -/
def randomUlong (st : RandomState) : RandomState × ℕ :=
  let r := randomBytes st 4
  (r.1, r.2.foldr (fun b acc => b.toNat + 256 * acc) 0)

/-- A call into `random.c`. -/
inductive RandomCall
  | init (seed : UInt32)
  | bytes (size : ℕ)
  | ulong

def randomStep (st : RandomState) : RandomCall → RandomState
  | .init seed => randomInit seed
  | .bytes size => (randomBytes st size).1
  | .ulong => (randomUlong st).1

/-- The generator under any sequence of calls. -/
def randomSystem : Transition.System RandomState RandomCall where
  init := randomState₀
  Enabled _ _ := True
  step := randomStep

/-! ## `s` stays a permutation -/

theorem Random.swapByte_eq_comp (s : UInt8 → UInt8) (a b : UInt8) :
    Random.swapByte s a b = s ∘ Equiv.swap a b := by
  funext x
  by_cases ha : x = a
  · subst ha
    simp [Random.swapByte]
  · by_cases hb : x = b
    · subst hb
      simp [Random.swapByte, ha]
    · simp [Random.swapByte, ha, hb, Equiv.swap_apply_of_ne_of_ne ha hb]

theorem Random.bijective_swapByte {s : UInt8 → UInt8} (h : Function.Bijective s) (a b : UInt8) :
    Function.Bijective (Random.swapByte s a b) := by
  rw [Random.swapByte_eq_comp]
  exact h.comp (Equiv.swap a b).bijective

/-- The shuffle of `random_init` keeps a permutation one. -/
theorem bijective_foldl_initRound (seed : UInt32) :
    ∀ (is : List ℕ) (sj : (UInt8 → UInt8) × UInt8), Function.Bijective sj.1 →
      Function.Bijective (is.foldl (initRound seed) sj).1
  | [], _, h => h
  | _ :: is, _, h => bijective_foldl_initRound seed is _ (Random.bijective_swapByte h _ _)

theorem bijective_randomInit (seed : UInt32) : Function.Bijective (randomInit seed).s :=
  bijective_foldl_initRound seed _ _ Function.bijective_id

/-- The RC4 invariant: once the generator is initialised, `s` is a permutation of the byte
values. -/
def RandomState.Perm (st : RandomState) : Prop := st.inited = true → Function.Bijective st.s

theorem RandomState.Perm.randomRound {st : RandomState} (h : st.Perm) : (randomRound st).1.Perm :=
  fun hi => Random.bijective_swapByte (h hi) _ _

theorem RandomState.Perm.randomLoop :
    ∀ (size : ℕ) {st : RandomState}, st.Perm → (Pintos.randomLoop size st).1.Perm
  | 0, _, h => h
  | size + 1, _, h => RandomState.Perm.randomLoop size h.randomRound

theorem inited_randomLoop : ∀ (size : ℕ) (st : RandomState),
    (randomLoop size st).1.inited = st.inited
  | 0, _ => rfl
  | size + 1, st => inited_randomLoop size (randomRound st).1

/-- After `random_bytes` the generator is initialised and `s` is a permutation. -/
theorem randomBytes_perm {st : RandomState} (h : st.Perm) (size : ℕ) :
    (randomBytes st size).1.inited = true ∧ Function.Bijective (randomBytes st size).1.s := by
  have hstart : (if st.inited then st else randomInit 0).inited = true ∧
      (if st.inited then st else randomInit 0).Perm := by
    by_cases hi : st.inited = true
    · rw [if_pos hi]
      exact ⟨hi, h⟩
    · rw [if_neg hi]
      exact ⟨rfl, fun _ => bijective_randomInit 0⟩
  have hinit : (randomBytes st size).1.inited = true := by
    rw [randomBytes, inited_randomLoop, hstart.1]
  exact ⟨hinit, RandomState.Perm.randomLoop size hstart.2 hinit⟩

theorem RandomState.Perm.step {st : RandomState} (h : st.Perm) :
    ∀ c, (randomStep st c).Perm
  | .init seed => fun _ => bijective_randomInit seed
  | .bytes size => fun _ => (randomBytes_perm h size).2
  | .ulong => fun _ => (randomBytes_perm h 4).2

theorem perm_invariant : randomSystem.Invariant RandomState.Perm where
  init := fun h => absurd h (by decide)
  step st c h _ := h.step c

/-! ## Splitting a request -/

theorem randomLoop_add : ∀ (m n : ℕ) (st : RandomState),
    randomLoop (m + n) st =
      ((randomLoop n (randomLoop m st).1).1,
        (randomLoop m st).2 ++ (randomLoop n (randomLoop m st).1).2)
  | 0, n, st => by simp [randomLoop]
  | m + 1, n, st => by
    rw [Nat.add_right_comm, randomLoop, randomLoop_add m n]
    rfl

/-- `random_bytes (buf, m)` and then `random_bytes (buf + m, n)` write what one
`random_bytes (buf, m + n)` writes, and leave the generator as it does: the stream does not
depend on how it is requested, the first call's initialisation included. -/
theorem randomBytes_append (st : RandomState) (m n : ℕ) :
    randomBytes st (m + n) =
      ((randomBytes (randomBytes st m).1 n).1,
        (randomBytes st m).2 ++ (randomBytes (randomBytes st m).1 n).2) := by
  have hinit : (randomBytes st m).1.inited = true := by
    rw [randomBytes, inited_randomLoop]
    by_cases hi : st.inited = true
    · simp [hi]
    · simp [hi, randomInit]
  have hsecond : randomBytes (randomBytes st m).1 n = randomLoop n (randomBytes st m).1 := by
    rw [randomBytes, if_pos hinit]
  rw [hsecond]
  simp only [randomBytes]
  exact randomLoop_add m n _

end Pintos
