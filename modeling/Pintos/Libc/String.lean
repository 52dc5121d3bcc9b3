import Mathlib.Data.List.TakeWhile

/-! # Tokenizing: `strtok_r`, and `strnlen`

`lib/string.c`. A C string is the list of its bytes before the terminating
null byte, and a position in it is the suffix from there on. `strtok_r`
skips delimiters, returns the maximal run of non-delimiters after them, and
leaves `save_ptr` just past the single delimiter that ends the run (or at the
terminator). The null byte counts as a delimiter for both loops, which is the
end of the list here.
-/

namespace Pintos

/-- The loop of `strnlen (string, maxlen)` from `length` on, for at most `fuel` tests: the length
returned and the offsets of `string` read, in order. The test reads `string[length]` before it
compares `length` with `maxlen`. -/
def strnlenLoop (string : ℕ → UInt8) (maxlen : ℕ) : ℕ → ℕ → ℕ × List ℕ
  | 0, length => (length, [])
  | fuel + 1, length =>
    if string length ≠ 0 ∧ length < maxlen then
      let r := strnlenLoop string maxlen fuel (length + 1)
      (r.1, length :: r.2)
    else (length, [length])

/-- `strnlen`, a string being the bytes from its start on; the loop makes at most
`maxlen + 1` tests. -/
def strnlen (string : ℕ → UInt8) (maxlen : ℕ) : ℕ × List ℕ := strnlenLoop string maxlen (maxlen + 1) 0

/-- A byte of a delimiter set. -/
def isDelim (delims : List UInt8) (c : UInt8) : Bool := delims.contains c

/-- `strtok_r (s, delimiters, &save_ptr)`: the token found, if any, and the new `save_ptr`. -/
def strtokR (delims s : List UInt8) : Option (List UInt8) × List UInt8 :=
  match s.dropWhile (isDelim delims) with
  | [] => (none, [])
  | t =>
    let rest := t.dropWhile (fun c => !isDelim delims c)
    (some (t.takeWhile (fun c => !isDelim delims c)), rest.drop 1)

/-- The space byte. -/
def spaceChar : UInt8 := 32

/-- `strtok_r` finds no token exactly when every byte left is a delimiter. -/
theorem strtokR_eq_none_iff (delims s : List UInt8) :
    (strtokR delims s).1 = none ↔ ∀ c ∈ s, isDelim delims c = true := by
  rw [← List.dropWhile_eq_nil_iff]
  unfold strtokR
  split
  · next h => simp [h]
  · next t ht => simpa using ht

/-- A token of `strtok_r`: a nonempty run of non-delimiters after the delimiters it skips, and
`save_ptr` past the run and past the delimiter that ends it, if one does. -/
theorem strtokR_eq_some {delims s token rest : List UInt8}
    (h : strtokR delims s = (some token, rest)) :
    token ≠ [] ∧ (∀ c ∈ token, isDelim delims c = false) ∧
      ∃ skipped, (∀ c ∈ skipped, isDelim delims c = true) ∧
        (s = skipped ++ token ∧ rest = [] ∨
          ∃ d, isDelim delims d = true ∧ s = skipped ++ token ++ d :: rest) := by
  cases ht : s.dropWhile (isDelim delims) with
  | nil => simp [strtokR, ht] at h
  | cons x xs =>
    simp only [strtokR, ht, Prod.mk.injEq, Option.some.injEq] at h
    obtain ⟨rfl, rfl⟩ := h
    have hx : isDelim delims x = false := by
      simpa [ht] using List.head_dropWhile_not (isDelim delims) (l := s) (by simp [ht])
    refine ⟨by simp [hx], fun c hc => by simpa using List.mem_takeWhile_imp hc,
      s.takeWhile (isDelim delims), fun c hc => List.mem_takeWhile_imp hc, ?_⟩
    have hs : s = s.takeWhile (isDelim delims) ++ (x :: xs).takeWhile (fun c => !isDelim delims c) ++
        (x :: xs).dropWhile (fun c => !isDelim delims c) := by
      rw [List.append_assoc, List.takeWhile_append_dropWhile, ← ht, List.takeWhile_append_dropWhile]
    cases hd : (x :: xs).dropWhile (fun c => !isDelim delims c) with
    | nil => exact .inl ⟨by rwa [hd, List.append_nil] at hs, rfl⟩
    | cons d r =>
      have hdelim : isDelim delims d = true := by
        simpa [hd] using
          List.head_dropWhile_not (fun c => !isDelim delims c) (l := x :: xs) (by simp [hd])
      exact .inr ⟨d, hdelim, by rwa [hd] at hs⟩

section Runs

/-- The maximal runs of non-delimiters of a string, in order: what the tokens of repeated
`strtok_r` calls should be. -/
def delimRuns (delims s : List UInt8) : List (List UInt8) :=
  (s.splitOnP (isDelim delims)).filter fun run => !run.isEmpty

variable {delims : List UInt8}

theorem delimRuns_delims_append {skipped : List UInt8} (hs : ∀ c ∈ skipped, isDelim delims c = true)
    (s : List UInt8) : delimRuns delims (skipped ++ s) = delimRuns delims s := by
  induction skipped with
  | nil => rfl
  | cons d skipped ih =>
    have hd : isDelim delims d = true := hs d (List.mem_cons_self ..)
    rw [← ih fun c hc => hs c (List.mem_cons_of_mem d hc)]
    simp [delimRuns, List.splitOnP_cons_eq_if_modifyHead, hd]

theorem delimRuns_token {token : List UInt8} (hne : token ≠ [])
    (ht : ∀ c ∈ token, isDelim delims c = false) : delimRuns delims token = [token] := by
  simp [delimRuns, List.splitOnP_eq_singleton ht, hne]

theorem delimRuns_token_delim {token : List UInt8} (hne : token ≠ [])
    (ht : ∀ c ∈ token, isDelim delims c = false) {d : UInt8} (hd : isDelim delims d = true)
    (s : List UInt8) : delimRuns delims (token ++ d :: s) = token :: delimRuns delims s := by
  simp [delimRuns, List.splitOnP_append_cons_of_forall_mem ht d hd, hne]

/-- Each token `strtok_r` returns is the first run of what is left, and `save_ptr` moves to the
rest of the runs. -/
theorem delimRuns_of_strtokR {s token rest : List UInt8}
    (h : strtokR delims s = (some token, rest)) :
    delimRuns delims s = token :: delimRuns delims rest ∧
      (rest = [] ∧ token.length ≤ s.length ∨ token.length + 1 + rest.length ≤ s.length) := by
  obtain ⟨hne, htok, skipped, hskip, ⟨rfl, rfl⟩ | ⟨d, hd, rfl⟩⟩ := strtokR_eq_some h
  · rw [delimRuns_delims_append hskip, delimRuns_token hne htok]
    exact ⟨rfl, .inl ⟨rfl, by simp⟩⟩
  · rw [List.append_assoc, delimRuns_delims_append hskip, delimRuns_token_delim hne htok hd]
    exact ⟨rfl, .inr (by simp; omega)⟩

theorem delimRuns_of_strtokR_none {s rest : List UInt8} (h : strtokR delims s = (none, rest)) :
    delimRuns delims s = [] := by
  have hall := (strtokR_eq_none_iff delims s).mp (by rw [h])
  have hruns := delimRuns_delims_append hall []
  rw [List.append_nil] at hruns
  rw [hruns]
  rfl

/-- Whether a run of non-delimiters of `s` starts at offset `o`: a non-delimiter there, and a
delimiter or the start of `s` before it. -/
def startsRun (delims s : List UInt8) (o : ℕ) : Bool :=
  (s[o]?.any fun c => !isDelim delims c) && (o == 0 || s[o - 1]?.any (isDelim delims))

/-- The offsets where the runs of non-delimiters of `s` start, in order. -/
def runStarts (delims s : List UInt8) : List ℕ := (List.range s.length).filter (startsRun delims s)

theorem startsRun_append_left {ys zs : List UInt8} {o : ℕ} (ho : o < ys.length) :
    startsRun delims (ys ++ zs) o = startsRun delims ys o := by
  simp only [startsRun, List.getElem?_append_left ho,
    List.getElem?_append_left (Nat.lt_of_le_of_lt (Nat.sub_le o 1) ho)]

/-- Past a prefix that ends in a delimiter, runs start where they start in the rest. -/
theorem startsRun_append_right {ys zs : List UInt8}
    (hlast : ∀ c ∈ ys.getLast?, isDelim delims c = true) (o : ℕ) :
    startsRun delims (ys ++ zs) (ys.length + o) = startsRun delims zs o := by
  rw [startsRun, startsRun, List.getElem?_append_right (Nat.le_add_right _ _),
    Nat.add_sub_cancel_left]
  congr 1
  cases o with
  | zero =>
    cases ys.eq_nil_or_concat with
    | inl h => simp [h]
    | inr h =>
      obtain ⟨ys', c, rfl⟩ := h
      have hc := hlast c (by simp)
      simp [hc]
  | succ o =>
    rw [show ys.length + (o + 1) - 1 = ys.length + o by omega,
      List.getElem?_append_right (Nat.le_add_right _ _), Nat.add_sub_cancel_left]
    simp

theorem runStarts_append {ys zs : List UInt8} (hlast : ∀ c ∈ ys.getLast?, isDelim delims c = true) :
    runStarts delims (ys ++ zs) =
      runStarts delims ys ++ (runStarts delims zs).map (ys.length + ·) := by
  rw [runStarts, List.length_append, List.range_add, List.filter_append, List.filter_map, runStarts,
    runStarts]
  congr 1
  · apply List.filter_congr
    intro o ho
    exact startsRun_append_left (List.mem_range.mp ho)
  · congr 1
    apply List.filter_congr
    intro o _
    exact startsRun_append_right hlast o

theorem runStarts_delims {skipped : List UInt8} (hs : ∀ c ∈ skipped, isDelim delims c = true) :
    runStarts delims skipped = [] := by
  rw [runStarts, List.filter_eq_nil_iff]
  intro o ho
  have ho := List.mem_range.mp ho
  simp [startsRun, List.getElem?_eq_getElem ho, hs _ (List.getElem_mem ho)]

theorem runStarts_token {token : List UInt8} (hne : token ≠ [])
    (ht : ∀ c ∈ token, isDelim delims c = false) : runStarts delims token = [0] := by
  obtain ⟨c, cs, rfl⟩ := List.exists_cons_of_ne_nil hne
  rw [runStarts, List.length_cons, List.range_succ_eq_map, List.filter_cons,
    if_pos (by simp [startsRun, ht c (List.mem_cons_self ..)]), List.filter_eq_nil_iff.mpr]
  intro o ho
  obtain ⟨j, hj, rfl⟩ := List.mem_map.mp ho
  have hj := List.mem_range.mp hj
  -- the byte before offset `j + 1` is in the token, so no run starts there
  have hjlt : j < (c :: cs).length := by simp only [List.length_cons]; omega
  have hprev : (c :: cs)[j]? = some (c :: cs)[j] := List.getElem?_eq_getElem hjlt
  simp [startsRun, hprev, ht _ (List.getElem_mem hjlt)]

theorem runStarts_token_delim {token : List UInt8} (hne : token ≠ [])
    (ht : ∀ c ∈ token, isDelim delims c = false) {d : UInt8} (hd : isDelim delims d = true) :
    runStarts delims (token ++ [d]) = [0] := by
  rw [runStarts, List.length_append, List.length_singleton, List.range_succ, List.filter_append]
  have htoken : (List.range token.length).filter (startsRun delims (token ++ [d])) = [0] := by
    rw [← runStarts_token hne ht, runStarts]
    apply List.filter_congr
    intro o ho
    exact startsRun_append_left (List.mem_range.mp ho)
  have hend : startsRun delims (token ++ [d]) token.length = false := by simp [startsRun, hd]
  simp [htoken, hend]

/-- The token `strtok_r` returns starts the first run, past the delimiters it skips; the runs
of what is left start where they start in the string, shifted by what the call consumed. -/
theorem runStarts_of_strtokR {s token rest : List UInt8}
    (h : strtokR delims s = (some token, rest)) :
    runStarts delims s =
      (s.takeWhile (isDelim delims)).length :: (runStarts delims rest).map ((s.length - rest.length) + ·) := by
  obtain ⟨hne, htok, skipped, hskip, hcase⟩ := strtokR_eq_some h
  obtain ⟨c, cs, rfl⟩ := List.exists_cons_of_ne_nil hne
  have hlast : ∀ c ∈ skipped.getLast?, isDelim delims c = true :=
    fun c hc => hskip c (List.mem_of_getLast? hc)
  have hc : isDelim delims c = false := htok c (List.mem_cons_self ..)
  rcases hcase with ⟨rfl, rfl⟩ | ⟨d, hd, rfl⟩
  · have htw : (skipped ++ c :: cs).takeWhile (isDelim delims) = skipped := by
      rw [List.takeWhile_append_of_pos hskip]
      simp [hc]
    rw [runStarts_append hlast, runStarts_delims hskip, runStarts_token hne htok, htw]
    simp [runStarts]
  · have hsplit : skipped ++ (c :: cs) ++ d :: rest = skipped ++ ((c :: cs ++ [d]) ++ rest) := by
      simp
    have hdlast : ∀ x ∈ (c :: cs ++ [d]).getLast?, isDelim delims x = true := by
      intro x hx
      rw [List.getLast?_concat, Option.mem_def, Option.some_inj] at hx
      exact hx ▸ hd
    have htw : (skipped ++ ((c :: cs ++ [d]) ++ rest)).takeWhile (isDelim delims) = skipped := by
      rw [List.takeWhile_append_of_pos hskip]
      simp [hc]
    rw [hsplit, runStarts_append hlast, runStarts_delims hskip, runStarts_append hdlast,
      runStarts_token_delim hne htok hd, htw]
    simp only [List.nil_append, List.singleton_append, List.map_cons, List.map_map,
      List.length_append, List.length_cons]
    congr 2
    funext o
    simp only [Function.comp_apply]
    omega

theorem runStarts_of_strtokR_none {s rest : List UInt8} (h : strtokR delims s = (none, rest)) :
    runStarts delims s = [] :=
  runStarts_delims ((strtokR_eq_none_iff delims s).mp (by rw [h]))

/-- There are as many starts of runs as runs. -/
theorem length_runStarts (s : List UInt8) :
    (runStarts delims s).length = (delimRuns delims s).length := by
  rcases hcall : strtokR delims s with ⟨_ | token, rest⟩
  · rw [runStarts_of_strtokR_none hcall, delimRuns_of_strtokR_none hcall]
    rfl
  · obtain ⟨hruns, hlen⟩ := delimRuns_of_strtokR hcall
    rw [runStarts_of_strtokR hcall, hruns, List.length_cons, List.length_cons, List.length_map]
    rcases hlen with ⟨rfl, _⟩ | hlen
    · rfl
    · rw [length_runStarts rest]
termination_by s.length
decreasing_by omega

/-- The token starts where the delimiters skipped end, and `save_ptr` moves to a suffix. -/
theorem strtokR_infix {s token rest : List UInt8} (h : strtokR delims s = (some token, rest)) :
    token <+: s.drop (s.takeWhile (isDelim delims)).length ∧ rest <:+ s := by
  have hdrop : s.drop (s.takeWhile (isDelim delims)).length = s.dropWhile (isDelim delims) := by
    have h := @List.drop_left' _ (s.takeWhile (isDelim delims)) (s.dropWhile (isDelim delims)) _ rfl
    rwa [List.takeWhile_append_dropWhile] at h
  rw [hdrop]
  cases ht : s.dropWhile (isDelim delims) with
  | nil => simp [strtokR, ht] at h
  | cons x xs =>
    simp only [strtokR, ht, Prod.mk.injEq, Option.some.injEq] at h
    obtain ⟨rfl, rfl⟩ := h
    refine ⟨List.takeWhile_prefix _, ?_⟩
    rw [← ht]
    exact ((List.drop_suffix 1 _).trans (List.dropWhile_suffix _)).trans (List.dropWhile_suffix _)

/-- The `i`th run starts at the `i`th start of a run. -/
theorem delimRuns_isPrefix_drop : ∀ (i : ℕ) {s : List UInt8} {o : ℕ} {run : List UInt8},
    (runStarts delims s)[i]? = some o → (delimRuns delims s)[i]? = some run → run <+: s.drop o
  | i, s, o, run, ho, hrun => by
    rcases hcall : strtokR delims s with ⟨_ | token, rest⟩
    · rw [runStarts_of_strtokR_none hcall] at ho
      simp at ho
    · obtain ⟨htoken, hrest⟩ := strtokR_infix hcall
      rw [runStarts_of_strtokR hcall] at ho
      rw [(delimRuns_of_strtokR hcall).1] at hrun
      cases i with
      | zero =>
        obtain rfl : _ = o := Option.some.inj ho
        obtain rfl : token = run := Option.some.inj hrun
        exact htoken
      | succ j =>
        rw [List.getElem?_cons_succ, List.getElem?_map] at ho
        rw [List.getElem?_cons_succ] at hrun
        obtain ⟨o', ho', rfl⟩ := Option.map_eq_some_iff.mp ho
        -- what `save_ptr` is left at is the string from `s.length - rest.length` on
        have hsuffix : s.drop (s.length - rest.length) = rest := (List.suffix_iff_eq_drop.mp hrest).symm
        rw [← List.drop_drop, hsuffix]
        exact delimRuns_isPrefix_drop j ho' hrun

end Runs

section Strnlen

variable {string : ℕ → UInt8} {maxlen : ℕ}

theorem strnlenLoop_spec : ∀ (fuel length : ℕ), length ≤ maxlen → maxlen < length + fuel →
    ∃ n, length ≤ n ∧ n ≤ maxlen ∧ (∀ k, length ≤ k → k < n → string k ≠ 0) ∧
      (n < maxlen → string n = 0) ∧
      strnlenLoop string maxlen fuel length = (n, List.range' length (n + 1 - length))
  | 0, _, hl, hf => absurd hf (by omega)
  | fuel + 1, length, hl, hf => by
    rw [strnlenLoop]
    split
    · next hc =>
      obtain ⟨n, hn₁, hn₂, hbefore, hend, hrun⟩ := strnlenLoop_spec fuel (length + 1) hc.2 (by omega)
      refine ⟨n, by omega, hn₂, fun k hk hkn => ?_, hend, ?_⟩
      · rcases Nat.eq_or_lt_of_le hk with rfl | hk'
        · exact hc.1
        · exact hbefore k hk' hkn
      · have hlen : n + 1 - length = (n + 1 - (length + 1)) + 1 := by omega
        rw [hrun, hlen, List.range'_succ]
    · next hc =>
      refine ⟨length, le_rfl, hl, fun k hk hkn => absurd hkn (by omega), fun hlt => ?_, ?_⟩
      · by_contra h0
        exact hc ⟨h0, hlt⟩
      · simp

/-- `strnlen` returns the length of the string capped at `maxlen`, and reads every byte up to
and including the one at that length: `string[maxlen]` too, when no null byte comes before. -/
theorem strnlen_spec (string : ℕ → UInt8) (maxlen : ℕ) :
    (strnlen string maxlen).1 ≤ maxlen ∧
      (∀ k < (strnlen string maxlen).1, string k ≠ 0) ∧
      ((strnlen string maxlen).1 < maxlen → string (strnlen string maxlen).1 = 0) ∧
      (strnlen string maxlen).2 = List.range ((strnlen string maxlen).1 + 1) := by
  obtain ⟨n, -, hn, hbefore, hend, hrun⟩ :=
    @strnlenLoop_spec string maxlen (maxlen + 1) 0 (Nat.zero_le maxlen) (by omega)
  rw [strnlen, hrun]
  exact ⟨hn, fun k hk => hbefore k (Nat.zero_le k) hk, hend, by rw [List.range_eq_range', Nat.sub_zero]⟩

end Strnlen

end Pintos
