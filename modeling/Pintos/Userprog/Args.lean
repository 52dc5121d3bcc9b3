import Pintos.Libc.String
import Pintos.Userprog.Uaccess

/-! # Argument passing

`parse_args` and `start_process` in `userprog/process.c`. `parse_args` splits the
command line at spaces with `strtok_r`, stores a pointer to each token into
`argv` and a null pointer after the last one; `start_process` gives it an array
`argv` of 128 entries. Once `load` has set `esp` to the top of the stack,
`start_process` pushes the 80x86 entry frame: the tokens with their null bytes,
padding down to a multiple of 4, a null pointer and the tokens' user addresses
(the user's `argv`), then `argv`, `argc` and a return address of 0.

The stack is kept as the bytes between `esp` and the top `load` left it at: a
step `if_.esp -= n; memcpy (if_.esp, p, n)` puts `n` bytes in front.

Nothing bounds the number of tokens. `sys_exec` accepts command lines of up
to 255 bytes, which hold 128 one-byte tokens, and for those `parse_args`
stores its null pointer to `argv[128]`, one past the array. Lines of at most
253 bytes have at most 127 tokens and stay inside it (`startProcess_spec`).
-/

namespace Pintos

/-- The entries of the array `argv` of `start_process`. -/
def argvEntries : ℕ := 128

/-- The loop of `parse_args` from `save_ptr` at `rest`, with `argc` tokens stored so far: the
tokens found and the indices of `argv` stored to, the null pointer's last. -/
def parseArgsLoop : ℕ → List UInt8 → ℕ → List (List UInt8) × List ℕ
  | 0, _, argc => ([], [argc])
  | fuel + 1, rest, argc =>
    match strtokR [spaceChar] rest with
    | (none, _) => ([], [argc])
    | (some token, rest') =>
      let r := parseArgsLoop fuel rest' (argc + 1)
      (token :: r.1, argc :: r.2)

/-- `parse_args (cmd_line, argv, &argc)`: the tokens `argv[0]` to `argv[argc - 1]`, and the
indices of `argv` it stores to. A token takes at least a byte, so the loop calls `strtok_r` at
most `cmd_line.length + 1` times. -/
def parseArgs (cmdLine : List UInt8) : List (List UInt8) × List ℕ :=
  parseArgsLoop (cmdLine.length + 1) cmdLine 0

/-- The user stack below the top `load` left `esp` at: `image` holds the bytes from `esp` up. -/
structure UserStack where
  top : ℕ
  image : List UInt8

namespace UserStack

/-- Where `esp` points. -/
def esp (s : UserStack) : ℕ := s.top - s.image.length

/-- `if_.esp -= bytes.length`, then the bytes copied to the new `esp`. -/
def push (s : UserStack) (bytes : List UInt8) : UserStack := ⟨s.top, bytes ++ s.image⟩

/-- The `n` bytes at address `a` on. -/
def read (s : UserStack) (a n : ℕ) : List UInt8 := (s.image.drop (a - s.esp)).take n

end UserStack

/-- The four bytes of a 32-bit word, least significant first. -/
def wordBytes (w : ℕ) : List UInt8 :=
  [w.toUInt8, (w / 2 ^ 8).toUInt8, (w / 2 ^ 16).toUInt8, (w / 2 ^ 24).toUInt8]

/-- The word that bytes hold, least significant first. -/
def bytesWord (bytes : List UInt8) : ℕ := bytes.foldr (fun c w => c.toNat + 2 ^ 8 * w) 0

/-- The first loop of `start_process`, from `argv[argc - 1]` down to `argv[0]`: each token is
pushed with its null byte, and `user_argv_ptrs[i]` set to where it went. -/
def pushArgs : List (List UInt8) → UserStack → UserStack × List ℕ
  | [], s => (s, [])
  | token :: argv, s =>
    let r := pushArgs argv s
    let s' := r.1.push (token ++ [0])
    (s', s'.esp :: r.2)

/-- The second loop, from `user_argv_ptrs[argc - 1]` down to `user_argv_ptrs[0]`. -/
def pushPtrs : List ℕ → UserStack → UserStack
  | [], s => s
  | p :: ptrs, s => (pushPtrs ptrs s).push (wordBytes p)

/-- The frame `start_process` pushes once `load` has succeeded. -/
def buildFrame (argv : List (List UInt8)) (s : UserStack) : UserStack :=
  let r := pushArgs argv s
  let s := r.1.push (List.replicate (r.1.esp % 4) 0)
  let s := pushPtrs r.2 (s.push (wordBytes 0))
  let userArgv := s.esp
  ((s.push (wordBytes userArgv)).push (wordBytes argv.length)).push (wordBytes 0)

/-- `start_process` from `parse_args` on, given where `load` left `esp` (`none` when it fails):
the indices of `argv` stored to, and the stack the process starts with. -/
def startProcess (cmdLine : List UInt8) (loadEsp : Option ℕ) : List ℕ × Option UserStack :=
  let r := parseArgs cmdLine
  (r.2, loadEsp.map fun top => buildFrame r.1 ⟨top, []⟩)

section ParseArgs

/-- The loop finds the runs of non-spaces that are left and stores to one index per run and one
more, given a call of `strtok_r` for each byte left and one for the end. -/
theorem parseArgsLoop_spec : ∀ (fuel : ℕ) (rest : List UInt8) (argc : ℕ), rest.length < fuel →
    parseArgsLoop fuel rest argc =
      (delimRuns [spaceChar] rest, List.range' argc ((delimRuns [spaceChar] rest).length + 1))
  | 0, _, _, h => absurd h (Nat.not_lt_zero _)
  | fuel + 1, rest, argc, h => by
    rw [parseArgsLoop]
    match htok : strtokR [spaceChar] rest with
    | (none, _) =>
      simp [delimRuns_of_strtokR_none htok]
    | (some token, rest') =>
      obtain ⟨hruns, hlen⟩ := delimRuns_of_strtokR htok
      have hne : token ≠ [] := (strtokR_eq_some htok).1
      have hrest : rest'.length < fuel := by
        have := List.length_pos_iff.mpr hne
        rcases hlen with ⟨rfl, hlen⟩ | hlen
        · simp only [List.length_nil]
          omega
        · omega
      simp only [parseArgsLoop_spec fuel rest' (argc + 1) hrest, hruns, List.length_cons]
      simp [List.range'_succ]

/-- `parse_args` returns the maximal runs of non-spaces of the command line, and stores to
`argv[0]` through `argv[argc]`. -/
theorem parseArgs_spec (cmdLine : List UInt8) :
    parseArgs cmdLine = (delimRuns [spaceChar] cmdLine,
      List.range ((delimRuns [spaceChar] cmdLine).length + 1)) := by
  rw [parseArgs, parseArgsLoop_spec _ cmdLine 0 (Nat.lt_succ_self _), List.range_eq_range']

/-- Every store of `parse_args` lands in `argv` exactly when the line has fewer than 128 runs of
non-spaces. -/
theorem parseArgs_stores_lt_iff (cmdLine : List UInt8) :
    (∀ i ∈ (parseArgs cmdLine).2, i < argvEntries) ↔
      (delimRuns [spaceChar] cmdLine).length < argvEntries := by
  rw [parseArgs_spec]
  constructor
  · intro h
    exact h _ (List.mem_range.mpr (Nat.lt_succ_self _))
  · intro h i hi
    have := List.mem_range.mp hi
    omega

/-- Runs are separated by spaces: a run takes its bytes and, but for the last, the space after
it, and at least two bytes of the line and its end together. -/
theorem delimRuns_length_sum_le : ∀ (fuel : ℕ) (s : List UInt8), s.length < fuel →
    2 * (delimRuns [spaceChar] s).length ≤ ((delimRuns [spaceChar] s).map fun run => run.length + 1).sum ∧
      ((delimRuns [spaceChar] s).map fun run => run.length + 1).sum ≤ s.length + 1
  | 0, _, h => absurd h (Nat.not_lt_zero _)
  | fuel + 1, s, h => by
    match htok : strtokR [spaceChar] s with
    | (none, _) =>
      simp [delimRuns_of_strtokR_none htok]
    | (some token, rest) =>
      obtain ⟨hruns, hlen⟩ := delimRuns_of_strtokR htok
      have hpos := List.length_pos_iff.mpr (strtokR_eq_some htok).1
      rw [hruns, List.map_cons, List.sum_cons, List.length_cons]
      rcases hlen with ⟨rfl, hlen⟩ | hlen
      · simp [delimRuns]
        omega
      · have ih := delimRuns_length_sum_le fuel rest (by omega)
        omega

/-- A line of `n` bytes has at most `(n + 1) / 2` runs. -/
theorem delimRuns_length_le (s : List UInt8) :
    2 * (delimRuns [spaceChar] s).length ≤ s.length + 1 := by
  have hsum := delimRuns_length_sum_le (s.length + 1) s (Nat.lt_succ_self _)
  omega

theorem delimRuns_spaced (n : ℕ) :
    delimRuns [spaceChar] ((List.replicate n [97, spaceChar]).flatten ++ [97]) =
      List.replicate (n + 1) [97] := by
  induction n with
  | zero => rfl
  | succ n ih =>
    have htok : ∀ c ∈ [(97 : UInt8)], isDelim [spaceChar] c = false := by
      intro c hc
      rw [List.mem_singleton.mp hc]
      decide
    have hfirst := @delimRuns_token_delim [spaceChar] [97] (List.cons_ne_nil _ _) htok
      spaceChar (by decide) ((List.replicate n [97, spaceChar]).flatten ++ [97])
    rw [ih] at hfirst
    rw [List.replicate_succ, List.flatten_cons, List.append_assoc]
    exact hfirst

theorem spaced_length (n : ℕ) :
    ((List.replicate n [97, spaceChar]).flatten ++ [97]).length = 2 * n + 1 := by
  induction n with
  | zero => rfl
  | succ n ih =>
    rw [List.replicate_succ, List.flatten_cons, List.append_assoc, List.length_append, ih]
    simp only [List.length_cons, List.length_nil]
    omega

theorem zero_not_mem_spaced (n : ℕ) : 0 ∉ (List.replicate n [97, spaceChar]).flatten ++ [97] := by
  intro h
  rcases List.mem_append.mp h with h | h
  · obtain ⟨l, hl, h0⟩ := List.mem_flatten.mp h
    rw [(List.mem_replicate.mp hl).2] at h0
    revert h0
    decide
  · revert h
    decide

/-- A command line of 128 one-byte tokens has 255 bytes and no null byte, so `sys_exec` copies
it whole and passes it on; `parse_args` then stores its null pointer to `argv[128]`. -/
theorem parseArgs_stores_past_argv :
    ((List.replicate 127 [97, spaceChar]).flatten ++ [97]).length = 255 ∧
      0 ∉ (List.replicate 127 [97, spaceChar]).flatten ++ [97] ∧
      argvEntries ∈ (parseArgs ((List.replicate 127 [97, spaceChar]).flatten ++ [97])).2 := by
  refine ⟨spaced_length 127, zero_not_mem_spaced 127, ?_⟩
  rw [parseArgs_spec, delimRuns_spaced, List.length_replicate]
  exact List.mem_range.mpr (Nat.lt_succ_self _)

end ParseArgs

section Frame

namespace UserStack

variable (s : UserStack) (bytes : List UInt8)

@[simp] theorem push_top : (s.push bytes).top = s.top := rfl

@[simp] theorem push_image : (s.push bytes).image = bytes ++ s.image := rfl

theorem push_esp : (s.push bytes).esp = s.esp - bytes.length := by
  simp only [esp, push_top, push_image, List.length_append]
  omega

theorem push_push (a : List UInt8) : (s.push a).push bytes = s.push (bytes ++ a) := by
  simp [push, List.append_assoc]

theorem read_esp_add (k n : ℕ) : s.read (s.esp + k) n = (s.image.drop k).take n := by
  simp only [read]
  congr 2
  omega

end UserStack

theorem bytesWord_wordBytes {w : ℕ} (h : w < 2 ^ 32) : bytesWord (wordBytes w) = w := by
  simp [bytesWord, wordBytes]
  omega

theorem pushPtrs_eq (ptrs : List ℕ) (s : UserStack) :
    pushPtrs ptrs s = s.push (ptrs.flatMap wordBytes) := by
  induction ptrs with
  | nil => rfl
  | cons p ptrs ih => rw [pushPtrs, ih, UserStack.push_push, List.flatMap_cons]

theorem pushArgs_eq (argv : List (List UInt8)) (s : UserStack) :
    pushArgs argv s = (s.push (argv.flatMap fun t => t ++ [0]),
      (List.range argv.length).map fun i => s.esp - ((argv.drop i).flatMap fun t => t ++ [0]).length) := by
  induction argv with
  | nil => rfl
  | cons t argv ih =>
    rw [pushArgs, ih]
    simp only [UserStack.push_push, UserStack.push_esp, List.flatMap_cons, List.length_cons,
      List.range_succ_eq_map, List.map_cons, List.map_map, List.drop_zero, Function.comp_def,
      List.drop_succ_cons, List.length_append]

/-- The bytes the first loop pushes: each token with its null byte, `argv[0]`'s lowest. -/
def argStrings (argv : List (List UInt8)) : List UInt8 := argv.flatMap fun token => token ++ [0]

/-- Where the first loop puts each token, from `esp` at `esp`. -/
def argPtrs (argv : List (List UInt8)) (esp : ℕ) : List ℕ :=
  (List.range argv.length).map fun i => esp - (argStrings (argv.drop i)).length

theorem length_flatMap_wordBytes (ws : List ℕ) : (ws.flatMap wordBytes).length = 4 * ws.length := by
  induction ws with
  | nil => rfl
  | cons w ws ih =>
    rw [List.flatMap_cons, List.length_append, ih, List.length_cons]
    simp only [wordBytes, List.length_cons, List.length_nil]
    omega

/-- The frame as bytes: the words (return address, `argc`, `argv`, the tokens' addresses and a
null pointer), the padding, then the tokens. -/
theorem buildFrame_eq (argv : List (List UInt8)) (s : UserStack) :
    buildFrame argv s = s.push (([0, argv.length,
      s.esp - (argStrings argv).length - (s.esp - (argStrings argv).length) % 4 - 4 -
        4 * argv.length] ++ argPtrs argv s.esp ++ [0]).flatMap wordBytes ++
      (List.replicate ((s.esp - (argStrings argv).length) % 4) 0 ++ argStrings argv)) := by
  simp only [buildFrame, pushArgs_eq, pushPtrs_eq, UserStack.push_esp, length_flatMap_wordBytes,
    List.length_map, List.length_range, List.length_replicate]
  simp only [UserStack.push_push, List.flatMap_append, List.flatMap_cons, List.flatMap_nil,
    List.append_nil, List.append_assoc, argStrings, argPtrs]
  rfl

theorem take_drop_flatMap_wordBytes (ws : List ℕ) (rest : List UInt8) {j : ℕ} (hj : j < ws.length) :
    ((ws.flatMap wordBytes ++ rest).drop (4 * j)).take 4 = wordBytes ws[j] := by
  induction ws generalizing j with
  | nil => exact absurd hj (Nat.not_lt_zero _)
  | cons w ws ih =>
    rw [List.flatMap_cons, List.append_assoc]
    cases j with
    | zero => exact List.take_left' rfl
    | succ j =>
      have hofs : 4 * (j + 1) = (wordBytes w).length + 4 * j := by
        simp only [wordBytes, List.length_cons, List.length_nil]
        omega
      rw [hofs, List.drop_length_add_append]
      exact ih (Nat.lt_of_succ_lt_succ hj)

theorem argStrings_append (a b : List (List UInt8)) :
    argStrings (a ++ b) = argStrings a ++ argStrings b := List.flatMap_append

theorem argStrings_drop {argv : List (List UInt8)} {i : ℕ} (hi : i < argv.length) :
    argStrings (argv.drop i) = argv[i] ++ [0] ++ argStrings (argv.drop (i + 1)) := by
  rw [List.drop_eq_getElem_cons hi]
  rfl

/-- The `i`-th token with its null byte, after those before it. -/
theorem take_drop_argStrings {argv : List (List UInt8)} {i : ℕ} (hi : i < argv.length) :
    ((argStrings argv).drop (argStrings (argv.take i)).length).take (argv[i].length + 1) =
      argv[i] ++ [0] := by
  have hsplit : argStrings argv = argStrings (argv.take i) ++ argStrings (argv.drop i) := by
    rw [← argStrings_append, List.take_append_drop]
  rw [hsplit, List.drop_left, argStrings_drop hi]
  exact List.take_left' (by simp)

theorem read_push_word (s : UserStack) (ws : List ℕ) (rest : List UInt8) {j : ℕ}
    (hj : j < ws.length) :
    (s.push (ws.flatMap wordBytes ++ rest)).read ((s.push (ws.flatMap wordBytes ++ rest)).esp + 4 * j) 4 =
      wordBytes ws[j] := by
  rw [UserStack.read_esp_add, UserStack.push_image, List.append_assoc]
  exact take_drop_flatMap_wordBytes ws _ hj

/-- The frame `start_process` builds below `top`: `esp` points to a return address of 0 with
`argc` above it, then `argv`, which is `esp + 12` and a multiple of 4; `argv[i]` points to the
`i`-th token and its null byte, and `argv[argc]` is null. The frame takes the tokens' bytes, at
most 3 of padding and a word for each pointer, and lies just below `top`. -/
theorem buildFrame_layout (argv : List (List UInt8)) {top : ℕ} (htop : top < 2 ^ 32)
    (hfit : (argStrings argv).length + 4 * argv.length + 19 ≤ top)
    {f : UserStack} (hf : buildFrame argv ⟨top, []⟩ = f) :
    f.top = top ∧ f.esp + f.image.length = top ∧
      f.image.length ≤ (argStrings argv).length + 4 * argv.length + 19 ∧
      bytesWord (f.read f.esp 4) = 0 ∧ bytesWord (f.read (f.esp + 4) 4) = argv.length ∧
      bytesWord (f.read (f.esp + 8) 4) = f.esp + 12 ∧ (f.esp + 12) % 4 = 0 ∧
      (∀ i (hi : i < argv.length),
        f.read (bytesWord (f.read (f.esp + 12 + 4 * i) 4)) (argv[i].length + 1) = argv[i] ++ [0]) ∧
      bytesWord (f.read (f.esp + 12 + 4 * argv.length) 4) = 0 := by
  have hesp0 : (⟨top, []⟩ : UserStack).esp = top := Nat.sub_zero top
  rw [buildFrame_eq, hesp0] at hf
  subst hf
  set ws : List ℕ := [0, argv.length, top - (argStrings argv).length -
    (top - (argStrings argv).length) % 4 - 4 - 4 * argv.length] ++ argPtrs argv top ++ [0] with hws
  set rest := List.replicate ((top - (argStrings argv).length) % 4) 0 ++ argStrings argv with hrest
  set f := UserStack.push ⟨top, []⟩ (ws.flatMap wordBytes ++ rest) with hf
  have hwslen : ws.length = argv.length + 4 := by simp [hws, argPtrs]
  have hpad : (top - (argStrings argv).length) % 4 < 4 := Nat.mod_lt _ (by decide)
  have himage : f.image.length =
      4 * (argv.length + 4) + (top - (argStrings argv).length) % 4 + (argStrings argv).length := by
    simp only [hf, hrest, UserStack.push_image, List.length_append, length_flatMap_wordBytes,
      hwslen, List.length_replicate, List.length_nil, Nat.add_zero]
    omega
  have hesp : f.esp = top - f.image.length := rfl
  have hfimage : f.image = ws.flatMap wordBytes ++
      List.replicate ((top - (argStrings argv).length) % 4) 0 ++ argStrings argv := by
    simp [hf, hrest]
  have hbound : ∀ w ∈ ws, w ≤ top := by
    intro w hw
    simp only [hws, argPtrs, List.mem_append, List.mem_cons, List.mem_map, List.mem_range,
      List.not_mem_nil, or_false] at hw
    omega
  -- every word of the frame reads back as the value pushed
  have hword : ∀ j (hj : j < ws.length), bytesWord (f.read (f.esp + 4 * j) 4) = ws[j] := by
    intro j hj
    rw [read_push_word _ ws rest hj, bytesWord_wordBytes]
    exact Nat.lt_of_le_of_lt (hbound _ (List.getElem_mem hj)) htop
  refine ⟨rfl, by omega, by omega, ?_, ?_, ?_, ?_, ?_, ?_⟩
  · have h0 := hword 0 (by omega)
    rw [Nat.mul_zero, Nat.add_zero] at h0
    rw [h0]
    simp [hws]
  · rw [show f.esp + 4 = f.esp + 4 * 1 from rfl, hword 1 (by omega)]
    simp [hws]
  · rw [show f.esp + 8 = f.esp + 4 * 2 from rfl, hword 2 (by omega)]
    simp only [hws, List.cons_append, List.getElem_cons_succ, List.getElem_cons_zero]
    omega
  · omega
  · intro i hi
    have hptr : ws[i + 3] = top - (argStrings (argv.drop i)).length := by
      simp [hws, argPtrs, hi]
    rw [show f.esp + 12 + 4 * i = f.esp + 4 * (i + 3) by omega, hword (i + 3) (by omega), hptr]
    have hsplit : (argStrings argv).length =
        (argStrings (argv.take i)).length + (argStrings (argv.drop i)).length := by
      rw [← List.length_append, ← argStrings_append, List.take_append_drop]
    have hofs : top - (argStrings (argv.drop i)).length - f.esp =
        (ws.flatMap wordBytes ++ List.replicate ((top - (argStrings argv).length) % 4) 0).length +
          (argStrings (argv.take i)).length := by
      simp only [List.length_append, length_flatMap_wordBytes, hwslen, List.length_replicate]
      omega
    rw [UserStack.read, hofs, hfimage, List.drop_length_add_append]
    exact take_drop_argStrings hi
  · rw [show f.esp + 12 + 4 * argv.length = f.esp + 4 * (argv.length + 3) by omega,
      hword (argv.length + 3) (by omega)]
    simp [hws, argPtrs]

theorem length_argStrings (argv : List (List UInt8)) :
    (argStrings argv).length = (argv.map fun token => token.length + 1).sum := by
  simp [argStrings, List.length_flatMap]

/-- The frame for a command line that `sys_exec` accepts, with fewer than 128 tokens, fits in
one page. -/
theorem frame_fits_page {cmdLine : List UInt8} (hlen : cmdLine.length ≤ 255)
    (hruns : (delimRuns [spaceChar] cmdLine).length < argvEntries) :
    (argStrings (delimRuns [spaceChar] cmdLine)).length +
      4 * (delimRuns [spaceChar] cmdLine).length + 19 ≤ pgSize := by
  have hsum := (delimRuns_length_sum_le (cmdLine.length + 1) cmdLine (Nat.lt_succ_self _)).2
  rw [length_argStrings]
  simp only [argvEntries, pgSize] at hruns ⊢
  omega

end Frame

end Pintos
