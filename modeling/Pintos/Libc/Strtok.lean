import Pintos.Libc.String

/-! # `strtok_r` over memory

`strtok_r` and `strchr` in `lib/string.c`, on the bytes of memory. A call
starts at `s`, or at `*save_ptr` when `s` is `NULL`, skips delimiters and
returns `NULL` at the null byte; otherwise it returns a pointer to the run of
non-delimiters that follows, writes a null byte over the delimiter that ends
the run, if one does, and leaves `*save_ptr` just past it. `strchr` finds the
null byte in every string, so the null byte stops both loops. The delimiters
are a C string apart from `s`, given by their bytes.

Over memory that holds a C string, one call does what the list model
`strtokR` of `Libc.String` does with the bytes from the pointer on
(`strtokR_call_some`, `strtokR_call_none`). The calls therefore return the
maximal runs of non-delimiters, each in place and null-terminated, and then
`NULL`, reading only the string and its null byte and writing only over its
delimiters.
-/

namespace Pintos

/-- `strchr (string, c)`, the string given by its bytes before the null byte: the offset of the
first `c`, the null byte being part of the string. -/
def strchr : List UInt8 → UInt8 → Option ℕ
  | [], c => if c = 0 then some 0 else none
  | b :: bs, c => if b = c then some 0 else (strchr bs c).map (· + 1)

theorem strchr_isSome_iff (string : List UInt8) (c : UInt8) :
    (strchr string c).isSome ↔ c = 0 ∨ c ∈ string := by
  induction string with
  | nil => by_cases hc : c = 0 <;> simp [strchr, hc]
  | cons b bs ih =>
    by_cases hb : b = c
    · simp [strchr, hb]
    · simp only [strchr, if_neg hb, Option.isSome_map, ih, List.mem_cons]
      constructor
      · rintro (h | h)
        · exact .inl h
        · exact .inr (.inr h)
      · rintro (h | h | h)
        · exact .inl h
        · exact absurd h.symm hb
        · exact .inr h

/-- `strchr` finds a byte other than the null byte exactly when it is a delimiter. -/
theorem strchr_isSome_of_ne_zero (delimiters : List UInt8) {c : UInt8} (hc : c ≠ 0) :
    (strchr delimiters c).isSome = isDelim delimiters c := by
  rw [Bool.eq_iff_iff, strchr_isSome_iff, isDelim, List.contains_iff_mem]
  simp [hc]

theorem strchr_isSome_zero (delimiters : List UInt8) : (strchr delimiters 0).isSome = true :=
  (strchr_isSome_iff delimiters 0).mpr (.inl rfl)

/-- `mem` holds the C string `str` at `p`: its bytes, none of them null, then the null byte. -/
structure StrAt (mem : ℕ → UInt8) (p : ℕ) (str : List UInt8) : Prop where
  bytes : ∀ i (hi : i < str.length), mem (p + i) = str[i]
  nul : mem (p + str.length) = 0
  no_nul : 0 ∉ str

namespace StrAt

variable {mem mem' : ℕ → UInt8} {p : ℕ}

theorem head {c : UInt8} {cs : List UInt8} (h : StrAt mem p (c :: cs)) : mem p = c :=
  h.bytes 0 (Nat.succ_pos _)

theorem ne_zero {c : UInt8} {cs : List UInt8} (h : StrAt mem p (c :: cs)) : c ≠ 0 :=
  fun hc => h.no_nul (hc ▸ List.mem_cons_self ..)

/-- The string from some byte on. -/
theorem append {xs ys : List UInt8} (h : StrAt mem p (xs ++ ys)) : StrAt mem (p + xs.length) ys where
  bytes i hi := by
    rw [Nat.add_assoc, h.bytes (xs.length + i) (by simp; omega), List.getElem_append_right (by omega)]
    simp
  nul := by
    have := h.nul
    rwa [List.length_append, ← Nat.add_assoc] at this
  no_nul h0 := h.no_nul (List.mem_append_right xs h0)

theorem tail {c : UInt8} {cs : List UInt8} (h : StrAt mem p (c :: cs)) : StrAt mem (p + 1) cs :=
  append (show StrAt mem p ([c] ++ cs) from h)

/-- What is left at the null byte of a string: the empty string. -/
theorem terminator {str : List UInt8} (h : StrAt mem p str) : StrAt mem (p + str.length) [] where
  bytes i hi := absurd hi (Nat.not_lt_zero i)
  nul := h.nul
  no_nul := List.not_mem_nil

/-- Memory that holds a string from address 0, and zeros after it. -/
theorem of_getD {str : List UInt8} (h0 : 0 ∉ str) : StrAt (fun a => str.getD a 0) 0 str where
  bytes i hi := by simp [hi]
  nul := by simp
  no_nul := h0

/-- A string stays where memory agrees with it, its null byte included. -/

theorem congr {str : List UInt8} (h : StrAt mem p str)
    (hm : ∀ i ≤ str.length, mem' (p + i) = mem (p + i)) : StrAt mem' p str where
  bytes i hi := by rw [hm i (Nat.le_of_lt hi), h.bytes i hi]
  nul := by rw [hm _ (Nat.le_refl _), h.nul]
  no_nul := h.no_nul

/-- A null byte written after the first bytes of a string ends a string of them in place. -/
theorem truncate {xs ys : List UInt8} (h : StrAt mem p (xs ++ ys)) :
    StrAt (Function.update mem (p + xs.length) 0) p xs where
  bytes i hi := by
    rw [Function.update_of_ne (by omega), h.bytes i (by simp; omega), List.getElem_append_left hi]
  nul := Function.update_self ..
  no_nul h0 := h.no_nul (List.mem_append_left ys h0)

end StrAt

/-- What one call of `strtok_r` leaves: the token returned (`none` for `NULL`), `*save_ptr`, the
memory, and the addresses it read and wrote. -/
structure StrtokCall where
  token : Option ℕ
  savePtr : ℕ
  mem : ℕ → UInt8
  reads : List ℕ
  writes : List ℕ

/-- What calls of `strtok_r` leave: the tokens returned, in order, the memory, and the addresses
read and written. -/
structure StrtokRun where
  tokens : List (Option ℕ)
  mem : ℕ → UInt8
  reads : List ℕ
  writes : List ℕ

namespace Mem

variable (mem : ℕ → UInt8) (delimiters : List UInt8)

/-- The first loop of `strtok_r`, from `s` for at most `fuel` bytes: where it stops, whether it
stopped at the null byte (and returns), and the addresses read. -/
def skipDelimiters : ℕ → ℕ → ℕ × Bool × List ℕ
  | 0, s => (s, false, [])
  | fuel + 1, s =>
    if (strchr delimiters (mem s)).isSome then
      if mem s = 0 then (s, true, [s])
      else
        let r := skipDelimiters fuel (s + 1)
        (r.1, r.2.1, s :: r.2.2)
    else (s, false, [s])

/-- The second loop, from `s`: where the first delimiter or the null byte is, and the addresses
read. -/
def skipToken : ℕ → ℕ → ℕ × List ℕ
  | 0, s => (s, [])
  | fuel + 1, s =>
    if (strchr delimiters (mem s)).isSome then (s, [s])
    else
      let r := skipToken fuel (s + 1)
      (r.1, s :: r.2)

/-- `strtok_r (s, delimiters, &save_ptr)`, `none` standing for `NULL`; each loop runs for at
most `fuel` bytes. -/
def strtokR (fuel : ℕ) (s : Option ℕ) (savePtr : ℕ) : StrtokCall :=
  let skip := skipDelimiters mem delimiters fuel (s.getD savePtr)
  if skip.2.1 then ⟨none, skip.1, mem, skip.2.2, []⟩
  else
    let token := skipToken mem delimiters fuel skip.1
    if mem token.1 ≠ 0 then
      ⟨some skip.1, token.1 + 1, Function.update mem token.1 0, skip.2.2 ++ token.2 ++ [token.1],
        [token.1]⟩
    else ⟨some skip.1, token.1, mem, skip.2.2 ++ token.2 ++ [token.1], []⟩

variable {mem} {delimiters}

/-- `strtok_r (NULL, delimiters, &save_ptr)` made `n` times from `*save_ptr = savePtr`. -/
def strtokRepeat (delimiters : List UInt8) (fuel : ℕ) : ℕ → (ℕ → UInt8) → ℕ → StrtokRun
  | 0, mem, _ => ⟨[], mem, [], []⟩
  | n + 1, mem, savePtr =>
    let c := strtokR mem delimiters fuel none savePtr
    let r := strtokRepeat delimiters fuel n c.mem c.savePtr
    ⟨c.token :: r.tokens, r.mem, c.reads ++ r.reads, c.writes ++ r.writes⟩

/-- `strtok_r (s, delimiters, &save_ptr)`, then `n` calls `strtok_r (NULL, delimiters,
&save_ptr)`. -/
def strtokCalls (mem : ℕ → UInt8) (delimiters : List UInt8) (fuel s savePtr n : ℕ) : StrtokRun :=
  let c := strtokR mem delimiters fuel (some s) savePtr
  let r := strtokRepeat delimiters fuel n c.mem c.savePtr
  ⟨c.token :: r.tokens, r.mem, c.reads ++ r.reads, c.writes ++ r.writes⟩

section Loops

variable {mem : ℕ → UInt8} {delimiters : List UInt8}

/-- The first loop stops at the first byte that is not a delimiter, or at the null byte, and
reads every byte up to it. -/
theorem skipDelimiters_spec : ∀ {p : ℕ} {rest : List UInt8} {fuel : ℕ}, StrAt mem p rest →
    rest.length < fuel →
    skipDelimiters mem delimiters fuel p =
      (p + (rest.takeWhile (isDelim delimiters)).length,
        (rest.dropWhile (isDelim delimiters)).isEmpty,
        List.range' p ((rest.takeWhile (isDelim delimiters)).length + 1))
  | _, _, 0, _, hf => absurd hf (Nat.not_lt_zero _)
  | p, [], fuel + 1, h, _ => by
    have h0 : mem p = 0 := h.nul
    simp [skipDelimiters, h0, strchr_isSome_zero]
  | p, c :: cs, fuel + 1, h, hf => by
    have hc := h.ne_zero
    rw [skipDelimiters, h.head, strchr_isSome_of_ne_zero delimiters hc]
    by_cases hd : isDelim delimiters c = true
    · rw [if_pos hd, if_neg hc,
        @skipDelimiters_spec (p + 1) cs fuel h.tail (by simp at hf; omega)]
      simp only [List.takeWhile_cons_of_pos hd, List.dropWhile_cons_of_pos hd, List.length_cons,
        List.range'_succ]
      simp only [Prod.mk.injEq, and_true]
      omega
    · rw [if_neg hd, List.takeWhile_cons_of_neg hd, List.dropWhile_cons_of_neg hd]
      simp

/-- The second loop stops at the first delimiter or the null byte, reading every byte up to
it. -/
theorem skipToken_spec : ∀ {p : ℕ} {rest : List UInt8} {fuel : ℕ}, StrAt mem p rest →
    rest.length < fuel →
    skipToken mem delimiters fuel p =
      (p + (rest.takeWhile fun c => !isDelim delimiters c).length,
        List.range' p ((rest.takeWhile fun c => !isDelim delimiters c).length + 1))
  | _, _, 0, _, hf => absurd hf (Nat.not_lt_zero _)
  | p, [], fuel + 1, h, _ => by
    have h0 : mem p = 0 := h.nul
    simp [skipToken, h0, strchr_isSome_zero]
  | p, c :: cs, fuel + 1, h, hf => by
    have hc := h.ne_zero
    rw [skipToken, h.head, strchr_isSome_of_ne_zero delimiters hc]
    by_cases hd : isDelim delimiters c = true
    · rw [if_pos hd, List.takeWhile_cons_of_neg (by simp [hd])]
      simp
    · rw [if_neg hd, @skipToken_spec (p + 1) cs fuel h.tail (by simp at hf; omega),
        List.takeWhile_cons_of_pos (by simpa using hd)]
      simp only [List.length_cons, List.range'_succ, Prod.mk.injEq, and_true]
      omega

end Loops

section Calls

variable {mem : ℕ → UInt8} {delimiters : List UInt8} {p fuel : ℕ}

/-- A call at a string of delimiters only stops at its null byte and returns `NULL`, having
read the string and written nothing. -/
theorem strtokR_call_delims {skipped : List UInt8} (h : StrAt mem p skipped)
    (hskip : ∀ c ∈ skipped, isDelim delimiters c = true) (hf : skipped.length < fuel)
    (s : Option ℕ) {savePtr : ℕ} (hs : s.getD savePtr = p) :
    strtokR mem delimiters fuel s savePtr =
      ⟨none, p + skipped.length, mem, List.range' p (skipped.length + 1), []⟩ := by
  rw [strtokR, hs, skipDelimiters_spec h hf, List.takeWhile_eq_self_iff.mpr hskip,
    List.dropWhile_eq_nil_iff.mpr hskip]
  simp

/-- A call at delimiters and then a run stops after the run, at the null byte or at the
delimiter there, and writes a null byte over it unless it is the null byte. -/
theorem strtokR_call_token {skipped token after : List UInt8}
    (h : StrAt mem p (skipped ++ token ++ after))
    (hskip : ∀ c ∈ skipped, isDelim delimiters c = true) (hne : token ≠ [])
    (htok : ∀ c ∈ token, isDelim delimiters c = false)
    (hafter : after.takeWhile (fun c => !isDelim delimiters c) = [])
    (hf : (skipped ++ token ++ after).length < fuel) (s : Option ℕ) {savePtr : ℕ}
    (hs : s.getD savePtr = p) :
    strtokR mem delimiters fuel s savePtr =
      let e := p + skipped.length + token.length
      let reads := List.range' p (skipped.length + 1) ++
        List.range' (p + skipped.length) (token.length + 1) ++ [e]
      if mem e ≠ 0 then ⟨some (p + skipped.length), e + 1, Function.update mem e 0, reads, [e]⟩
      else ⟨some (p + skipped.length), e, mem, reads, []⟩ := by
  obtain ⟨c, cs, rfl⟩ := List.exists_cons_of_ne_nil hne
  have hc : isDelim delimiters c = false := htok c (List.mem_cons_self ..)
  rw [List.append_assoc] at h hf
  have hst := h.append
  rw [strtokR, hs, skipDelimiters_spec h hf, List.takeWhile_append_of_pos hskip,
    List.cons_append, List.takeWhile_cons_of_neg (by simp [hc]),
    List.dropWhile_append_of_pos hskip, List.dropWhile_cons_of_neg (by simp [hc])]
  simp only [List.append_nil, List.isEmpty_cons, Bool.false_eq_true, if_false]
  rw [skipToken_spec hst (by simp only [List.length_append] at hf ⊢; omega),
    List.takeWhile_append_of_pos (fun a ha => by simp [htok a ha]), hafter, List.append_nil]

/-- A call at delimiters and then a last run returns the run, which the null byte of the string
ends; `*save_ptr` is left at that null byte and nothing is written. -/
theorem strtokR_call_last {skipped token : List UInt8} (h : StrAt mem p (skipped ++ token))
    (hskip : ∀ c ∈ skipped, isDelim delimiters c = true) (hne : token ≠ [])
    (htok : ∀ c ∈ token, isDelim delimiters c = false) (hf : (skipped ++ token).length < fuel)
    (s : Option ℕ) {savePtr : ℕ} (hs : s.getD savePtr = p) :
    strtokR mem delimiters fuel s savePtr =
      ⟨some (p + skipped.length), p + skipped.length + token.length, mem,
        List.range' p (skipped.length + 1) ++ List.range' (p + skipped.length) (token.length + 1) ++
          [p + skipped.length + token.length], []⟩ := by
  have h' : StrAt mem p (skipped ++ token ++ []) := by rwa [List.append_nil]
  have hnul : mem (p + skipped.length + token.length) = 0 := by
    simpa [Nat.add_assoc] using h.nul
  rw [strtokR_call_token h' hskip hne htok rfl (by simpa using hf) s hs]
  simp [hnul]

/-- A call at delimiters, a run and a delimiter returns the run, ended in place by a null byte
written over that delimiter, and leaves `*save_ptr` past it. -/
theorem strtokR_call_run {skipped token rest : List UInt8} {d : UInt8}
    (h : StrAt mem p (skipped ++ token ++ d :: rest))
    (hskip : ∀ c ∈ skipped, isDelim delimiters c = true) (hne : token ≠ [])
    (htok : ∀ c ∈ token, isDelim delimiters c = false) (hd : isDelim delimiters d = true)
    (hf : (skipped ++ token ++ d :: rest).length < fuel) (s : Option ℕ) {savePtr : ℕ}
    (hs : s.getD savePtr = p) :
    strtokR mem delimiters fuel s savePtr =
      ⟨some (p + skipped.length), p + skipped.length + token.length + 1,
        Function.update mem (p + skipped.length + token.length) 0,
        List.range' p (skipped.length + 1) ++ List.range' (p + skipped.length) (token.length + 1) ++
          [p + skipped.length + token.length], [p + skipped.length + token.length]⟩ := by
  have hdelim : StrAt mem (p + skipped.length + token.length) (d :: rest) := by
    simpa [Nat.add_assoc] using h.append
  rw [strtokR_call_token h hskip hne htok (by simp [hd]) hf s hs]
  simp [hdelim.head, hdelim.ne_zero]

/-- A call at what is left, when only delimiters are, is the call of the list model that finds
no token. -/
theorem strtokR_call_none {rest : List UInt8} (h : StrAt mem p rest) (hf : rest.length < fuel)
    (s : Option ℕ) {savePtr : ℕ} (hs : s.getD savePtr = p)
    (hnone : (Pintos.strtokR delimiters rest).1 = none) :
    strtokR mem delimiters fuel s savePtr =
      ⟨none, p + rest.length, mem, List.range' p (rest.length + 1), []⟩ :=
  strtokR_call_delims h ((strtokR_eq_none_iff delimiters rest).mp hnone) hf s hs

/-- A call at what is left, when a token is, does what the list model does: it returns a pointer
past the delimiters it skips to the token, null-terminated in place, and leaves `*save_ptr` at
the rest of the list model, which is still in memory. The byte it writes, if any, ends the token,
and the bytes it reads are those of the string and its null byte. -/
theorem strtokR_call_some {rest : List UInt8} (h : StrAt mem p rest) (hf : rest.length < fuel)
    (s : Option ℕ) {savePtr : ℕ} (hs : s.getD savePtr = p) {token rest' : List UInt8}
    (htok : Pintos.strtokR delimiters rest = (some token, rest')) :
    let c := strtokR mem delimiters fuel s savePtr
    c.token = some (p + (rest.takeWhile (isDelim delimiters)).length) ∧
      StrAt c.mem (p + (rest.takeWhile (isDelim delimiters)).length) token ∧
      StrAt c.mem c.savePtr rest' ∧ c.savePtr + rest'.length = p + rest.length ∧
      (rest' = [] ∨ p + (rest.takeWhile (isDelim delimiters)).length + token.length < c.savePtr) ∧
      (∀ a ∉ c.writes, c.mem a = mem a) ∧
      (∀ a ∈ c.reads, p ≤ a ∧ a ≤ p + rest.length) ∧
      (∀ a ∈ c.writes, p ≤ a ∧ a < c.savePtr) := by
  obtain ⟨hne, htoken, skipped, hskip, hcase⟩ := strtokR_eq_some htok
  obtain ⟨c, cs, rfl⟩ := List.exists_cons_of_ne_nil hne
  have hc : isDelim delimiters c = false := htoken c (List.mem_cons_self ..)
  have htw : ∀ after, (skipped ++ c :: cs ++ after).takeWhile (isDelim delimiters) = skipped := by
    intro after
    rw [List.append_assoc, List.takeWhile_append_of_pos hskip]
    simp [hc]
  rcases hcase with ⟨rfl, rfl⟩ | ⟨d, hd, rfl⟩
  -- the token ends at the null byte of the string
  · have htw := htw []
    rw [List.append_nil] at htw
    dsimp only
    rw [strtokR_call_last h hskip hne htoken hf s hs, htw]
    dsimp only
    refine ⟨rfl, h.append, ?_, by simp; omega, .inl rfl, fun _ _ => rfl, ?_, by simp⟩
    · simpa [Nat.add_assoc] using h.terminator
    · intro a ha
      simp only [List.mem_append, List.mem_range'_1, List.mem_singleton, List.length_append] at ha ⊢
      omega
  -- the token ends at a delimiter, which the call overwrites
  · have hrun : StrAt mem (p + skipped.length) (c :: cs ++ d :: rest') := by
      rw [List.append_assoc] at h
      exact h.append
    have hrest : StrAt mem (p + skipped.length + (c :: cs).length + 1) rest' := by
      have h' : StrAt mem p ((skipped ++ c :: cs ++ [d]) ++ rest') := by simpa using h
      simpa [Nat.add_assoc] using h'.append
    dsimp only
    rw [strtokR_call_run h hskip hne htoken hd hf s hs, htw]
    dsimp only
    refine ⟨rfl, hrun.truncate, hrest.congr fun i _ => Function.update_of_ne (by omega) _ _,
      by simp; omega, .inr (by omega), ?_, ?_, ?_⟩
    · intro a ha
      exact Function.update_of_ne (fun hae => ha (List.mem_singleton.mpr hae)) _ _
    · intro a ha
      simp only [List.mem_append, List.mem_range'_1, List.mem_singleton, List.length_append,
        List.length_cons] at ha ⊢
      omega
    · intro a ha
      rw [List.mem_singleton.mp ha]
      omega

end Calls

section Repeat

variable {delimiters : List UInt8} {fuel : ℕ}

/-- The first `n + 1` entries of a list, read with `[i]?`, are its head and then the first `n`
entries of its tail. -/
theorem map_range_getElem?_succ {α : Type} (l : List α) (n : ℕ) :
    (List.range (n + 1)).map (fun i => l[i]?) =
      l.head? :: (List.range n).map (fun i => l.tail[i]?) := by
  rw [List.range_succ_eq_map, List.map_cons, List.map_map]
  cases l <;> simp [Function.comp_def]

/-- `n` calls with `NULL` from `*save_ptr = p`, where memory holds `rest`, return pointers to the
first `n` runs of `rest`, then `NULL`; when they are done each run returned is in memory,
null-terminated, where it was returned. They read only `rest` and its null byte, and write only
inside `rest`. -/
theorem strtokRepeat_spec (n : ℕ) {mem : ℕ → UInt8} {p : ℕ} {rest : List UInt8}
    (h : StrAt mem p rest) (hf : rest.length < fuel) :
    let r := strtokRepeat delimiters fuel n mem p
    r.tokens = (List.range n).map (fun i => ((runStarts delimiters rest).map (p + ·))[i]?) ∧
      (∀ i < n, ∀ o run, (runStarts delimiters rest)[i]? = some o →
        (delimRuns delimiters rest)[i]? = some run → StrAt r.mem (p + o) run) ∧
      (∀ a ∉ r.writes, r.mem a = mem a) ∧
      (∀ a ∈ r.reads, p ≤ a ∧ a ≤ p + rest.length) ∧
      (∀ a ∈ r.writes, p ≤ a ∧ a < p + rest.length) := by
  induction n generalizing mem p rest with
  | zero => simp [strtokRepeat]
  | succ n ih =>
    dsimp only [strtokRepeat]
    rcases hcall : Pintos.strtokR delimiters rest with ⟨_ | token, rest'⟩
    -- only delimiters are left: `NULL` now, and from the null byte on
    · rw [strtokR_call_none h hf none rfl (by rw [hcall])]
      obtain ⟨htoks, -, hframe, hreads, hwrites⟩ := ih h.terminator (by simp; omega)
      have hnil : ∀ a, a ∉ (strtokRepeat delimiters fuel n mem (p + rest.length)).writes := by
        intro a ha
        have := hwrites a ha
        simp at this
        omega
      refine ⟨?_, ?_, ?_, ?_, ?_⟩
      · rw [runStarts_of_strtokR_none hcall, map_range_getElem?_succ, htoks]
        rfl
      · intro i _ o run ho
        simp [runStarts_of_strtokR_none hcall] at ho
      · intro a _
        exact hframe a (hnil a)
      · intro a ha
        rcases List.mem_append.mp ha with ha | ha
        · have := List.mem_range'_1.mp ha
          omega
        · have := hreads a ha
          simp at this
          omega
      · intro a ha
        exact absurd ha (hnil a)
    -- a token: the call does what the list model does, and the rest of the calls go on from
    -- `*save_ptr`, past the token and the byte that ends it
    · obtain ⟨htok, htokAt, hrest, hsave, hsep, hcframe, hcreads, hcwrites⟩ :=
        strtokR_call_some h hf none rfl hcall
      set c := strtokR mem delimiters fuel none p
      obtain ⟨hruns, hlen⟩ := delimRuns_of_strtokR hcall
      have hle : rest'.length ≤ rest.length := by
        rcases hlen with ⟨rfl, _⟩ | hlen
        · simp
        · omega
      obtain ⟨htoks, hruns', hframe, hreads, hwrites⟩ := ih hrest (by omega)
      set r := strtokRepeat delimiters fuel n c.mem c.savePtr
      have hshift : ∀ o, p + (rest.length - rest'.length + o) = c.savePtr + o := by
        intro o
        omega
      refine ⟨?_, ?_, ?_, ?_, ?_⟩
      · rw [runStarts_of_strtokR hcall, map_range_getElem?_succ, htok, htoks]
        simp [List.map_map, Function.comp_def, hshift]
      · intro i hi o run ho hrun
        cases i with
        | zero =>
          -- the token: no later call writes at or before the byte that ends it
          rw [runStarts_of_strtokR hcall] at ho
          rw [hruns] at hrun
          obtain rfl : _ = o := Option.some.inj ho
          obtain rfl : token = run := Option.some.inj hrun
          refine htokAt.congr fun i hi => hframe _ fun hw => ?_
          have := hwrites _ hw
          rcases hsep with rfl | hsep
          · simp at this
            omega
          · omega
        | succ j =>
          rw [runStarts_of_strtokR hcall, List.getElem?_cons_succ, List.getElem?_map] at ho
          rw [hruns, List.getElem?_cons_succ] at hrun
          obtain ⟨o', ho', rfl⟩ := Option.map_eq_some_iff.mp ho
          rw [hshift]
          exact hruns' j (by omega) o' run ho' hrun
      · intro a ha
        simp only [List.mem_append, not_or] at ha
        rw [hframe a ha.2, hcframe a ha.1]
      · intro a ha
        rcases List.mem_append.mp ha with ha | ha
        · exact hcreads a ha
        · have := hreads a ha
          omega
      · intro a ha
        rcases List.mem_append.mp ha with ha | ha
        · have := hcwrites a ha
          omega
        · have := hwrites a ha
          omega

end Repeat

/-- The first call, with `s`, is a call with `NULL` from `*save_ptr = s`. -/
theorem strtokCalls_eq {mem : ℕ → UInt8} {delimiters : List UInt8} {fuel s savePtr n : ℕ} :
    strtokCalls mem delimiters fuel s savePtr n = strtokRepeat delimiters fuel (n + 1) mem s :=
  rfl

end Mem

/-- `strtok_r (s, delimiters, &save_ptr)` and then `n` calls `strtok_r (NULL, delimiters,
&save_ptr)`, on memory holding the C string `str` at `s`, return pointers into the string to the
starts of its maximal runs of non-delimiters, in order, then `NULL` on every later call. When
they are done, each run is in memory where it was returned, null-terminated. They read only the
string and its null byte and write only inside the string. -/
theorem strtok_r_runs (delimiters str : List UInt8) {mem : ℕ → UInt8} {s : ℕ}
    (hs : StrAt mem s str) {fuel : ℕ} (hfuel : str.length < fuel) (savePtr n : ℕ) :
    let r := Mem.strtokCalls mem delimiters fuel s savePtr n
    r.tokens = (List.range (n + 1)).map (fun i => ((runStarts delimiters str).map (s + ·))[i]?) ∧
      (runStarts delimiters str).length = (delimRuns delimiters str).length ∧
      (∀ i ≤ n, ∀ o run, (runStarts delimiters str)[i]? = some o →
        (delimRuns delimiters str)[i]? = some run → run <+: str.drop o ∧ StrAt r.mem (s + o) run) ∧
      (∀ a ∈ r.reads, s ≤ a ∧ a ≤ s + str.length) ∧
      (∀ a ∈ r.writes, s ≤ a ∧ a < s + str.length) ∧
      (∀ a, a < s ∨ s + str.length ≤ a → r.mem a = mem a) := by
  dsimp only
  rw [Mem.strtokCalls_eq]
  obtain ⟨htoks, hruns, hframe, hreads, hwrites⟩ :=
    @Mem.strtokRepeat_spec delimiters fuel (n + 1) mem s str hs hfuel
  refine ⟨htoks, length_runStarts str, ?_, hreads, hwrites, ?_⟩
  · intro i hi o run ho hrun
    exact ⟨delimRuns_isPrefix_drop i ho hrun, hruns i (by omega) o run ho hrun⟩
  · intro a ha
    apply hframe
    intro hw
    have := hwrites a hw
    omega

/-- The string "a b" at address 0, split at spaces: pointers to "a" and to "b", then `NULL`. -/
theorem strtok_r_runs_a_b :
    StrAt (fun a => [97, 32, 98].getD a 0) 0 [97, 32, 98] ∧ [97, 32, 98].length < 4 ∧
      (Mem.strtokCalls (fun a => [97, 32, 98].getD a 0) [32] 4 0 0 2).tokens =
        [some 0, some 2, none] := by
  have hs : StrAt (fun a => [97, 32, 98].getD a 0) 0 [97, 32, 98] := StrAt.of_getD (by decide)
  refine ⟨hs, by decide, ?_⟩
  rw [(strtok_r_runs [32] [97, 32, 98] hs (by decide) 0 2).1]
  decide

end Pintos
