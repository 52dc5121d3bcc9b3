import Pintos.Userprog.PagedirInv
import Pintos.Vm.Evict
import Pintos.Lib.Transition

/-! # Page tables implement the VM model's page directories

The VM model keeps a process's page directory as a list of entries (`Vm.State`): a present bit,
a frame, and the writable, dirty and accessed bits of each user page it maps, read and changed
by `pagedirGetPage`, `pagedirSetPage`, `pagedirClearPage` and the bit functions. This module
shows that the two-level tables of `userprog/pagedir.c` implement that list.

`viewPte` decodes the entry that `entryWord` reads for a user page. The tables refine a list
(`Refines`) when every user page decodes to the list's entry for it. Each call of `pagedir.c`
changes the decoded entries exactly as the VM model's function changes the list, so that in
every run of calls from `pagedir_create` the tables refine a list the VM model reaches with
the same calls, and every query answers as the list does (`pagedir_refines`).
`pagedir_set_page` fails its `ASSERT` exactly when the VM model's does, and leaves every
entry alone when no page is left for a page table.
-/

namespace Pintos

/-- The entry read for a user page: its word, or `none` when the word is zero. -/
def decodeEntry (upage : ℕ) (w : BitVec 32) : Option Pte :=
  if w = 0 then none
  else some ⟨upage, entryPage w, w &&& pteP != 0, w &&& pteW != 0, w &&& pteD != 0,
    w &&& pteA != 0⟩

namespace KernelMem

def viewPte (m : KernelMem) (pd upage : ℕ) : Option Pte := decodeEntry upage (m.entryWord pd upage)

end KernelMem

/-- The tables read, entry by entry, as the VM model's list of entries. -/
def Refines (m : KernelMem) (pd : ℕ) (pdir : List Pte) : Prop :=
  ∀ upage, UserPage upage → m.viewPte pd upage = pteOf pdir upage

/-- `pagedir_set_dirty` on the VM model's list of entries, beside `pagedirSetAccessed`. -/
def pagedirSetDirty (pd : List Pte) (upage : ℕ) (dirty : Bool) : List Pte :=
  updatePte pd upage ({ · with dirty := dirty })

/-! ## Decoding entries -/

section Decode

variable {u : ℕ} {w w' : BitVec 32}

theorem decide_ne_eq_bne (a b : BitVec 32) : decide (a ≠ b) = (a != b) :=
  Bool.eq_iff_iff.mpr (by rw [decide_eq_true_iff, bne_iff_ne])

theorem decodeEntry_zero (u : ℕ) : decodeEntry u 0 = none := if_pos rfl

theorem decodeEntry_of_ne (hw : w ≠ 0) :
    decodeEntry u w = some ⟨u, entryPage w, w &&& pteP != 0, w &&& pteW != 0, w &&& pteD != 0,
      w &&& pteA != 0⟩ := if_neg hw

theorem decodeEntry_eq_none : decodeEntry u w = none ↔ w = 0 := by
  constructor
  · intro h
    by_contra hw
    rw [decodeEntry_of_ne hw] at h
    cases h
  · rintro rfl
    exact decodeEntry_zero u

/-- Rewriting the flag bits of a user entry keeps its page and frame: it decodes to the old
entry with the bits read from the new word. -/
theorem decodeEntry_rewrite (hw : w ≠ 0) (hwU : w &&& pteU ≠ 0) (hU : w' &&& pteU = w &&& pteU)
    (hA : w' &&& pteAddr = w &&& pteAddr) :
    decodeEntry u w' = (decodeEntry u w).map fun e => { e with
      present := w' &&& pteP != 0, writable := w' &&& pteW != 0, dirty := w' &&& pteD != 0,
      accessed := w' &&& pteA != 0 } := by
  have hw' : w' ≠ 0 := by
    intro h0
    rw [h0] at hU
    exact hwU (hU.symm.trans BitVec.zero_and)
  rw [decodeEntry_of_ne hw, decodeEntry_of_ne hw', Option.map_some, entryPage, entryPage, hA]

/-- Setting or clearing `flag` leaves every bit outside it. -/
theorem setFlag_and (on : Bool) {flag b : BitVec 32} (h : flag &&& b = 0) :
    (if on then w ||| flag else w &&& ~~~flag) &&& b = w &&& b := by
  cases on
  · exact Mask.and_not_and_of_and_eq_zero h
  · exact Mask.or_and_of_and_eq_zero_right h

theorem setFlag_and_self (on : Bool) {flag : BitVec 32} (hflag : flag ≠ 0) :
    ((if on then w ||| flag else w &&& ~~~flag) &&& flag != 0) = on := by
  cases on
  · rw [if_neg Bool.false_ne_true, Mask.and_not_and_self_eq_zero]
    rfl
  · rw [if_pos rfl, Mask.or_and_of_and_eq_self BitVec.and_self]
    exact bne_iff_ne.mpr hflag

/-- Clearing the present bit of a user entry is the VM model's `pagedir_clear_page`. -/
theorem decodeEntry_clear (hwU : w ≠ 0 → w &&& pteU ≠ 0) :
    decodeEntry u (w &&& ~~~pteP) = (decodeEntry u w).map ({ · with present := false }) := by
  by_cases hw : w = 0
  · have h0 : (0 : BitVec 32) &&& ~~~pteP = 0 := BitVec.zero_and
    rw [hw, h0, decodeEntry_zero]
    rfl
  · rw [decodeEntry_rewrite hw (hwU hw) (Mask.and_not_and_of_and_eq_zero (by decide))
      (Mask.and_not_and_of_and_eq_zero (by decide)), Mask.and_not_and_self_eq_zero,
      Mask.and_not_and_of_and_eq_zero (c := pteP) (m := pteW) (by decide),
      Mask.and_not_and_of_and_eq_zero (c := pteP) (m := pteD) (by decide),
      Mask.and_not_and_of_and_eq_zero (c := pteP) (m := pteA) (by decide), decodeEntry_of_ne hw]
    rfl

/-- Setting or clearing the accessed bit of a user entry, which must exist to be set, is the
VM model's `pagedir_set_accessed`. -/
theorem decodeEntry_setAccessed (on : Bool) (hon : on = true → w ≠ 0)
    (hwU : w ≠ 0 → w &&& pteU ≠ 0) :
    decodeEntry u (if on then w ||| pteA else w &&& ~~~pteA) =
      (decodeEntry u w).map ({ · with accessed := on }) := by
  by_cases hw : w = 0
  · have hoff : on = false := by
      cases on
      · rfl
      · exact absurd hw (hon rfl)
    have h0 : (0 : BitVec 32) &&& ~~~pteA = 0 := BitVec.zero_and
    rw [hoff, if_neg Bool.false_ne_true, hw, h0, decodeEntry_zero]
    rfl
  · rw [decodeEntry_rewrite hw (hwU hw) (setFlag_and on (by decide)) (setFlag_and on (by decide)),
      setFlag_and (b := pteP) on (by decide), setFlag_and (b := pteW) on (by decide),
      setFlag_and (b := pteD) on (by decide), setFlag_and_self on (by decide), decodeEntry_of_ne hw]
    rfl

/-- Setting or clearing the dirty bit of a user entry, which must exist to be set, is
`pagedir_set_dirty` on the VM model's list. -/
theorem decodeEntry_setDirty (on : Bool) (hon : on = true → w ≠ 0)
    (hwU : w ≠ 0 → w &&& pteU ≠ 0) :
    decodeEntry u (if on then w ||| pteD else w &&& ~~~pteD) =
      (decodeEntry u w).map ({ · with dirty := on }) := by
  by_cases hw : w = 0
  · have hoff : on = false := by
      cases on
      · rfl
      · exact absurd hw (hon rfl)
    have h0 : (0 : BitVec 32) &&& ~~~pteD = 0 := BitVec.zero_and
    rw [hoff, if_neg Bool.false_ne_true, hw, h0, decodeEntry_zero]
    rfl
  · rw [decodeEntry_rewrite hw (hwU hw) (setFlag_and on (by decide)) (setFlag_and on (by decide)),
      setFlag_and (b := pteP) on (by decide), setFlag_and (b := pteW) on (by decide),
      setFlag_and (b := pteA) on (by decide), setFlag_and_self on (by decide), decodeEntry_of_ne hw]
    rfl

/-- The entry `pte_create_user` makes for a frame of RAM decodes to the VM model's new entry. -/
theorem decodeEntry_new {kpage : ℕ} (hkal : pgOfs kpage = 0) (hklo : physBase ≤ kpage)
    (hkhi : kpage < 2 ^ 32) (writable : Bool) :
    decodeEntry u (BitVec.ofNat 32 (kpage - physBase) ||| userFlags writable) =
      some ⟨u, kpage, true, writable, false, false⟩ := by
  have hal : kpage % pgSize = 0 := hkal
  have hal' : (kpage - physBase) % pgSize = 0 := by
    simp only [pgSize, physBase] at hal ⊢
    omega
  have hne : BitVec.ofNat 32 (kpage - physBase) ||| userFlags writable ≠ 0 := by
    intro h0
    have hU := entry_and_flag (f := userFlags writable) (m := pteU) hal' (by decide)
    have hz : (0 : BitVec 32) &&& pteU = 0 := BitVec.zero_and
    rw [h0, hz] at hU
    revert hU
    cases writable <;> decide
  rw [decodeEntry_of_ne hne, entryPage_ofNat hklo hkhi hal (userFlags_and_pteAddr writable),
    entry_and_flag hal' (by decide), entry_and_flag hal' (by decide),
    entry_and_flag hal' (by decide), entry_and_flag hal' (by decide)]
  cases writable <;> rfl

end Decode

/-! ## The VM model's page directories -/

section Lists

variable {pd : List Pte} {u u' : ℕ}

theorem pteOf_upage {e : Pte} (h : pteOf pd u = some e) : e.upage = u := by
  unfold pteOf at h
  have hu := List.find?_some h
  exact beq_iff_eq.mp hu

/-- Replacing the entry of `u` by a constant one for `u` is an update that keeps pages. -/
theorem updatePte_const {p : Pte} (hp : p.upage = u) :
    updatePte pd u (fun _ => p) = updatePte pd u fun e => { p with upage := e.upage } := by
  unfold updatePte
  apply List.map_congr_left
  intro e _
  by_cases he : e.upage = u
  · rw [if_pos he, if_pos he]
    dsimp only
    rw [he, ← hp]
  · rw [if_neg he, if_neg he]

theorem pteOf_append_of_ne {p : Pte} (hu : u ≠ p.upage) : pteOf (pd ++ [p]) u = pteOf pd u := by
  rw [pteOf, pteOf, List.find?_append, List.find?_singleton, if_neg (by simpa using Ne.symm hu)]
  exact Option.or_none

theorem pteOf_append_self {p : Pte} (h : pteOf pd p.upage = none) :
    pteOf (pd ++ [p]) p.upage = some p := by
  rw [pteOf, List.find?_append]
  rw [pteOf] at h
  rw [h, List.find?_singleton, if_pos (beq_self_eq_true _)]
  rfl

/-- The VM model's `pagedir_set_page` fails its `ASSERT` exactly on a present page; otherwise
the page gets the new entry and no other page changes. -/
theorem pagedirSetPage_cases (pd : List Pte) (upage kpage : ℕ) (writable : Bool) :
    ((∃ e, pteOf pd upage = some e ∧ e.present = true) ∧ pagedirSetPage pd upage kpage writable = none) ∨
      ∃ pd', pagedirSetPage pd upage kpage writable = some pd' ∧
        pteOf pd' upage = some ⟨upage, kpage, true, writable, false, false⟩ ∧
        ∀ u, u ≠ upage → pteOf pd' u = pteOf pd u := by
  unfold pagedirSetPage
  cases hf : pteOf pd upage with
  | none =>
    right
    exact ⟨_, rfl, pteOf_append_self hf, fun u hu => pteOf_append_of_ne hu⟩
  | some e =>
    dsimp only
    by_cases hP : e.present = true
    · left
      exact ⟨⟨e, rfl, hP⟩, if_pos hP⟩
    · right
      have he := pteOf_upage hf
      refine ⟨_, if_neg hP, ?_, fun u hu => ?_⟩
      · rw [updatePte_const (u := upage) (p := ⟨upage, kpage, true, writable, false, false⟩) rfl,
          pteOf_updatePte_self (f := fun e => { (⟨upage, kpage, true, writable, false, false⟩ : Pte) with
            upage := e.upage }) (fun _ => rfl), hf, Option.map_some, he]
      · rw [updatePte_const (u := upage) (p := ⟨upage, kpage, true, writable, false, false⟩) rfl,
          pteOf_updatePte_of_ne (f := fun e => { (⟨upage, kpage, true, writable, false, false⟩ : Pte) with
            upage := e.upage }) (fun _ => rfl) hu]

theorem pagedirSetPage_eq_none_iff (pd : List Pte) (upage kpage : ℕ) (writable : Bool) :
    pagedirSetPage pd upage kpage writable = none ↔ ∃ e, pteOf pd upage = some e ∧ e.present = true := by
  unfold pagedirSetPage
  cases hf : pteOf pd upage with
  | none => simp
  | some e => by_cases hP : e.present = true <;> simp [hP]

end Lists

/-! ## Each call refines the VM model's -/

namespace Refines

variable {m : KernelMem} {pd : ℕ} {pdir : List Pte}

/-- A user page has an entry exactly when the list has one for it. -/
theorem mapped_iff (hR : Refines m pd pdir) {u : ℕ} (hu : UserPage u) :
    m.entryWord pd u ≠ 0 ↔ pteOf pdir u ≠ none := by
  rw [← hR u hu, KernelMem.viewPte, Ne, Ne, decodeEntry_eq_none]

/-- A user page is present exactly when the list has a present entry for it. -/
theorem present_iff (hR : Refines m pd pdir) {u : ℕ} (hu : UserPage u) :
    (∃ e, pteOf pdir u = some e ∧ e.present = true) ↔ m.entryWord pd u &&& pteP ≠ 0 := by
  rw [← hR u hu, KernelMem.viewPte]
  by_cases hw : m.entryWord pd u = 0
  · rw [hw, decodeEntry_zero]
    refine ⟨fun ⟨_, hc, _⟩ => ?_, fun hc => absurd BitVec.zero_and hc⟩
    cases hc
  · rw [decodeEntry_of_ne hw]
    exact ⟨fun ⟨_, hc, hp⟩ => by cases hc; exact bne_iff_ne.mp hp,
      fun hp => ⟨_, rfl, bne_iff_ne.mpr hp⟩⟩

/-- Tables that change one user entry, from `w` to `v`, refine the list updated by `f` when `v`
decodes as `f` makes of the entry `w` decodes to. -/
theorem update (hR : Refines m pd pdir) {m' : KernelMem} {upage : ℕ} {v : BitVec 32}
    {f : Pte → Pte} (hf : ∀ e, (f e).upage = e.upage)
    (hv : decodeEntry upage v = (m.viewPte pd upage).map f)
    (hm' : ∀ u, UserPage u → m'.entryWord pd u = if u = upage then v else m.entryWord pd u) :
    Refines m' pd (updatePte pdir upage f) := by
  intro u hu
  rw [KernelMem.viewPte, hm' u hu]
  by_cases huu : u = upage
  · rw [if_pos huu, huu, hv, pteOf_updatePte_self hf, hR upage (huu ▸ hu)]
  · rw [if_neg huu, pteOf_updatePte_of_ne hf huu]
    exact hR u hu

/-- `pagedir_set_page` fails its `ASSERT` exactly when the VM model's does; otherwise it adds
the model's entry, or, returning false, changes nothing the model reads. -/
theorem setPage (h : PdInv m pd) (hR : Refines m pd pdir) {upage kpage : ℕ} (hu : UserPage upage)
    (hk : m.RamPage kpage) (writable : Bool) :
    (m.pagedirSetPage pd upage kpage writable = none ↔
      pagedirSetPage pdir upage kpage writable = none) ∧
    ∀ ok m', m.pagedirSetPage pd upage kpage writable = some (ok, m') →
      PdInv m' pd ∧ ∃ pdir', pagedirSetPage pdir upage kpage writable = some pdir' ∧
        Refines m' pd (if ok then pdir' else pdir) := by
  have habs := pagedirSetPage_eq_none_iff pdir upage kpage writable
  rw [hR.present_iff hu] at habs
  rcases h.pagedirSetPage_spec hu hk writable with ⟨hP, hnone⟩ | ⟨hP, ok, m', hset, h', -, hm'⟩
  · -- a present entry: both fail
    refine ⟨⟨fun _ => habs.mpr hP, fun _ => hnone⟩, fun ok m' hc => ?_⟩
    rw [hnone] at hc
    cases hc
  · obtain ⟨pd', hpd', hself, hother⟩ :
        ∃ pd', pagedirSetPage pdir upage kpage writable = some pd' ∧
          pteOf pd' upage = some ⟨upage, kpage, true, writable, false, false⟩ ∧
          ∀ u, u ≠ upage → pteOf pd' u = pteOf pdir u := by
      rcases pagedirSetPage_cases pdir upage kpage writable with ⟨-, hn⟩ | hsome
      · exact absurd (habs.mp hn) (fun hc => hc hP)
      · exact hsome
    refine ⟨⟨fun hc => (by rw [hc] at hset; cases hset), fun hc => (by rw [hc] at hpd'; cases hpd')⟩,
      fun ok' m'' hc => ?_⟩
    rw [hset] at hc
    cases hc
    refine ⟨h', pd', hpd', fun u hu' => ?_⟩
    have hkhi := (h.ramPage_lt hk).2
    obtain ⟨hkal, hklo, -⟩ := hk
    rw [KernelMem.viewPte, hm' u hu']
    cases ok
    · rw [if_neg (fun hc => Bool.false_ne_true hc.1)]
      exact hR u hu'
    · by_cases huu : u = upage
      · rw [if_pos ⟨rfl, huu⟩, huu, decodeEntry_new hkal hklo hkhi, if_pos rfl, hself]
      · rw [if_neg (fun hc => huu hc.2), if_pos rfl, hother u huu]
        exact hR u hu'

/-- `pagedir_clear_page` is the VM model's. -/
theorem clearPage (h : PdInv m pd) (hR : Refines m pd pdir) {upage : ℕ} (hu : UserPage upage) :
    ∃ m', m.pagedirClearPage pd upage = some m' ∧ PdInv m' pd ∧
      Refines m' pd (pagedirClearPage pdir upage) := by
  obtain ⟨m', hc, h', -, hm'⟩ := h.pagedirClearPage_spec hu
  exact ⟨m', hc, h', hR.update (fun _ => rfl)
    (decodeEntry_clear (h.entryWord_ok hu · |>.1)) hm'⟩

/-- `pagedir_set_accessed` is the VM model's, the bit being set only in an entry that exists. -/
theorem setAccessed (h : PdInv m pd) (hR : Refines m pd pdir) {upage : ℕ} (hu : UserPage upage)
    (accessed : Bool) (hon : accessed = true → pteOf pdir upage ≠ none) :
    ∃ m', m.pagedirSetAccessed pd upage accessed = some m' ∧ PdInv m' pd ∧
      Refines m' pd (pagedirSetAccessed pdir upage accessed) := by
  have hon' : accessed = true → m.entryWord pd upage ≠ 0 := fun ha =>
    (hR.mapped_iff hu).mpr (hon ha)
  obtain ⟨m', hc, h', -, hm'⟩ := h.pagedirSetFlag_spec (show pteA &&& pteU = 0 by decide) (by decide) hu accessed hon'
  exact ⟨m', hc, h', hR.update (fun _ => rfl)
    (decodeEntry_setAccessed accessed hon' (h.entryWord_ok hu · |>.1)) hm'⟩

/-- `pagedir_set_dirty` is the VM model's, the bit being set only in an entry that exists. -/
theorem setDirty (h : PdInv m pd) (hR : Refines m pd pdir) {upage : ℕ} (hu : UserPage upage)
    (dirty : Bool) (hon : dirty = true → pteOf pdir upage ≠ none) :
    ∃ m', m.pagedirSetDirty pd upage dirty = some m' ∧ PdInv m' pd ∧
      Refines m' pd (pagedirSetDirty pdir upage dirty) := by
  have hon' : dirty = true → m.entryWord pd upage ≠ 0 := fun ha =>
    (hR.mapped_iff hu).mpr (hon ha)
  obtain ⟨m', hc, h', -, hm'⟩ := h.pagedirSetFlag_spec (show pteD &&& pteU = 0 by decide) (by decide) hu dirty hon'
  exact ⟨m', hc, h', hR.update (fun _ => rfl)
    (decodeEntry_setDirty dirty hon' (h.entryWord_ok hu · |>.1)) hm'⟩

/-- `pagedir_get_page` answers as the VM model's, at every user address: the frame plus the
offset, or `NULL`. -/
theorem getPage (h : PdInv m pd) (hR : Refines m pd pdir) {uaddr : ℕ} (hu : uaddr < physBase) :
    m.pagedirGetPage pd uaddr =
      some (((pagedirGetPage pdir (pgRoundDown uaddr)).map (· + pgOfs uaddr)).getD 0) := by
  rw [h.pagedirGetPage_eq hu, pagedirGetPage, ← hR _ (userPage_pgRoundDown hu), KernelMem.viewPte]
  by_cases hw : m.entryWord pd (pgRoundDown uaddr) = 0
  · rw [hw, decodeEntry_zero, if_neg (fun hc => hc BitVec.zero_and)]
    rfl
  · rw [decodeEntry_of_ne hw]
    cases hb : m.entryWord pd (pgRoundDown uaddr) &&& pteP != 0
    · rw [if_neg (fun hP => by rw [bne_iff_ne.mpr hP] at hb; cases hb)]
      rfl
    · rw [if_pos (bne_iff_ne.mp hb)]
      rfl

/-- `pagedir_is_dirty` and `pagedir_is_accessed` answer as the VM model's on every user page. -/
theorem isDirty_isAccessed (h : PdInv m pd) (hR : Refines m pd pdir) {upage : ℕ} (hu : UserPage upage) :
    m.pagedirIsDirty pd upage = some (pagedirIsDirty pdir upage) ∧
      m.pagedirIsAccessed pd upage = some (pagedirIsAccessed pdir upage) := by
  rw [KernelMem.pagedirIsDirty, KernelMem.pagedirIsAccessed, h.pagedirIsFlag_eq hu,
    h.pagedirIsFlag_eq hu, pagedirIsDirty, pagedirIsAccessed, ← hR upage hu, KernelMem.viewPte]
  by_cases hw : m.entryWord pd upage = 0
  · rw [hw, decodeEntry_zero]
    exact ⟨by simp [BitVec.zero_and], by simp [BitVec.zero_and]⟩
  · rw [decodeEntry_of_ne hw, decide_ne_eq_bne, decide_ne_eq_bne]
    exact ⟨rfl, rfl⟩

end Refines

/-! ## Runs of calls -/

/-- The calls that change a page directory: those the VM makes, and the bits the processor
sets. -/
inductive PdCall
  | setPage (upage kpage : ℕ) (writable : Bool)
  | clearPage (upage : ℕ)
  | setDirty (upage : ℕ) (dirty : Bool)
  | setAccessed (upage : ℕ) (accessed : Bool)
  deriving DecidableEq, Repr

/-- What a caller guarantees beyond the `ASSERT`s: `pagedir_set_dirty` and
`pagedir_set_accessed` get a user page, and set a bit only in an entry that exists
(`mapped`). -/
def PdCall.Allowed (mapped : ℕ → Prop) : PdCall → Prop
  | .setPage .. => True
  | .clearPage _ => True
  | .setDirty upage dirty => UserPage upage ∧ (dirty = true → mapped upage)
  | .setAccessed upage accessed => UserPage upage ∧ (accessed = true → mapped upage)

/-- A call on the tables of directory `pd`; `none` when an `ASSERT` fails. -/
def KernelMem.pdCall (m : KernelMem) (pd : ℕ) : PdCall → Option KernelMem
  | .setPage upage kpage writable => (m.pagedirSetPage pd upage kpage writable).map (·.2)
  | .clearPage upage => m.pagedirClearPage pd upage
  | .setDirty upage dirty => m.pagedirSetDirty pd upage dirty
  | .setAccessed upage accessed => m.pagedirSetAccessed pd upage accessed

/-- The same call on the VM model's list. -/
def pteListCall (pdir : List Pte) : PdCall → Option (List Pte)
  | .setPage upage kpage writable => pagedirSetPage pdir upage kpage writable
  | .clearPage upage => some (pagedirClearPage pdir upage)
  | .setDirty upage dirty => some (pagedirSetDirty pdir upage dirty)
  | .setAccessed upage accessed => some (pagedirSetAccessed pdir upage accessed)

/-- The tables of the directory `pagedir_create` makes in `m₀`, under every allowed call whose
`ASSERT`s hold. -/
def pagedirSystem (m₀ : KernelMem) : Transition.System KernelMem PdCall where
  init := m₀.pagedirCreate.2
  Enabled m c := c.Allowed (fun u => m.entryWord m₀.pagedirCreate.1 u ≠ 0) ∧
    (m.pdCall m₀.pagedirCreate.1 c).isSome
  step m c := (m.pdCall m₀.pagedirCreate.1 c).getD m

/-- The VM model's list, from no entries, under the same calls. -/
def pteListSystem : Transition.System (List Pte) PdCall where
  init := []
  Enabled pdir c := c.Allowed (fun u => pteOf pdir u ≠ none) ∧ (pteListCall pdir c).isSome
  step pdir c := (pteListCall pdir c).getD pdir

section Run

variable {m₀ : KernelMem} (h₀ : PoolOk m₀) (hinit : m₀.PoolPage m₀.initPageDir)
  (hzero : ∀ i < userPdes, m₀.words (m₀.initPageDir + 4 * i) = 0) (hpd : m₀.pagedirCreate.1 ≠ 0)

include h₀ hinit hzero hpd in
/-- The list tracks the tables: each call either changes nothing the list reads (a failed
`pagedir_set_page`) or is the same call on the list. -/
theorem pagedirSystem_simulation :
    (pagedirSystem m₀).Simulation pteListSystem fun m pdir =>
      PdInv m m₀.pagedirCreate.1 ∧ Refines m m₀.pagedirCreate.1 pdir where
  init := by
    obtain ⟨h, -, hzero'⟩ := h₀.pagedirCreate_spec hinit hzero hpd
    refine ⟨h, fun u hu => ?_⟩
    show decodeEntry u (m₀.pagedirCreate.2.entryWord m₀.pagedirCreate.1 u) = pteOf [] u
    rw [hzero' u hu, decodeEntry_zero]
    rfl
  step m pdir c := by
    rintro ⟨h, hR⟩ ⟨hall, hsome⟩
    cases c with
    | setPage upage kpage writable =>
      obtain ⟨⟨ok, m'⟩, hset⟩ := Option.isSome_iff_exists.mp (Option.isSome_map.symm.trans hsome)
      obtain ⟨hu, hk⟩ := KernelMem.setPage_asserts (by rw [hset]; exact Option.some_ne_none _)
      obtain ⟨h', pdir', habs, hR'⟩ := (hR.setPage h hu hk writable).2 ok m' hset
      have hstep : (pagedirSystem m₀).step m (.setPage upage kpage writable) = m' := by
        simp only [pagedirSystem, KernelMem.pdCall, hset, Option.map_some, Option.getD_some]
      rw [hstep]
      cases ok
      · -- no page for a page table: the list stands still
        exact .inl ⟨h', hR'⟩
      · refine .inr ⟨⟨trivial, by simp only [pteListCall, habs, Option.isSome_some]⟩, h', ?_⟩
        simp only [pteListSystem, pteListCall, habs, Option.getD_some]
        exact hR'
    | clearPage upage =>
      have hu := KernelMem.clearPage_asserts (Option.isSome_iff_ne_none.mp hsome)
      obtain ⟨m', hc, h', hR'⟩ := hR.clearPage h hu
      refine .inr ⟨⟨trivial, rfl⟩, ?_⟩
      simp only [pagedirSystem, KernelMem.pdCall, hc, Option.getD_some]
      exact ⟨h', hR'⟩
    | setDirty upage dirty =>
      obtain ⟨hu, hon⟩ := hall
      have hon' : dirty = true → pteOf pdir upage ≠ none := fun hd => (hR.mapped_iff hu).mp (hon hd)
      obtain ⟨m', hc, h', hR'⟩ := hR.setDirty h hu dirty hon'
      refine .inr ⟨⟨⟨hu, hon'⟩, rfl⟩, ?_⟩
      simp only [pagedirSystem, KernelMem.pdCall, hc, Option.getD_some]
      exact ⟨h', hR'⟩
    | setAccessed upage accessed =>
      obtain ⟨hu, hon⟩ := hall
      have hon' : accessed = true → pteOf pdir upage ≠ none := fun ha =>
        (hR.mapped_iff hu).mp (hon ha)
      obtain ⟨m', hc, h', hR'⟩ := hR.setAccessed h hu accessed hon'
      refine .inr ⟨⟨⟨hu, hon'⟩, rfl⟩, ?_⟩
      simp only [pagedirSystem, KernelMem.pdCall, hc, Option.getD_some]
      exact ⟨h', hR'⟩

include h₀ hinit hzero hpd in
theorem pagedir_refines {m : KernelMem} (hm : (pagedirSystem m₀).Reachable m) :
    ∃ pdir, pteListSystem.Reachable pdir ∧ Refines m m₀.pagedirCreate.1 pdir ∧
      (∀ uaddr, uaddr < physBase → m.pagedirGetPage m₀.pagedirCreate.1 uaddr =
        some (((pagedirGetPage pdir (pgRoundDown uaddr)).map (· + pgOfs uaddr)).getD 0)) ∧
      (∀ upage, UserPage upage →
        m.pagedirIsDirty m₀.pagedirCreate.1 upage = some (pagedirIsDirty pdir upage) ∧
        m.pagedirIsAccessed m₀.pagedirCreate.1 upage = some (pagedirIsAccessed pdir upage)) ∧
      ∀ upage kpage writable, UserPage upage → m.RamPage kpage →
        (m.pagedirSetPage m₀.pagedirCreate.1 upage kpage writable = none ↔
          pagedirSetPage pdir upage kpage writable = none) := by
  obtain ⟨pdir, hpdir, h, hR⟩ := (pagedirSystem_simulation h₀ hinit hzero hpd).reachable hm
  exact ⟨pdir, hpdir, hR, fun _ hu => hR.getPage h hu, fun _ hu => hR.isDirty_isAccessed h hu,
    fun _ _ writable hu hk => (hR.setPage h hu hk writable).1⟩

end Run

/-- A kernel pool of four pages whose first page is `init_page_dir`. -/
def fourPagePool : KernelMem :=
  ⟨fun _ => 0, (Bitmap.create 4).set 0 true, physBase, physBase, 1024⟩

/-- Its new directory after `pagedir_set_page` maps user page 0, which takes a page table. -/
def fourPagePoolMapped : KernelMem :=
  (pagedirSystem fourPagePool).step fourPagePool.pagedirCreate.2 (.setPage 0 (physBase + pgSize) true)

theorem pagedir_refines_after_set_page :
    ∃ pdir, pteListSystem.Reachable pdir ∧ Refines fourPagePoolMapped fourPagePool.pagedirCreate.1 pdir ∧
      (∀ uaddr, uaddr < physBase →
        fourPagePoolMapped.pagedirGetPage fourPagePool.pagedirCreate.1 uaddr =
          some (((pagedirGetPage pdir (pgRoundDown uaddr)).map (· + pgOfs uaddr)).getD 0)) ∧
      (∀ upage, UserPage upage →
        fourPagePoolMapped.pagedirIsDirty fourPagePool.pagedirCreate.1 upage =
          some (pagedirIsDirty pdir upage) ∧
        fourPagePoolMapped.pagedirIsAccessed fourPagePool.pagedirCreate.1 upage =
          some (pagedirIsAccessed pdir upage)) ∧
      ∀ upage kpage writable, UserPage upage → fourPagePoolMapped.RamPage kpage →
        (fourPagePoolMapped.pagedirSetPage fourPagePool.pagedirCreate.1 upage kpage writable = none ↔
          pagedirSetPage pdir upage kpage writable = none) :=
  pagedir_refines ⟨by decide, by decide, by decide, by decide⟩ ⟨0, by decide, by decide, by decide⟩
    (fun _ _ => rfl) (by decide) (Transition.System.Reachable.init.step _ ⟨trivial, by decide +kernel⟩)

end Pintos
