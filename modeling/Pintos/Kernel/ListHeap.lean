import Pintos.Lib.DLink
import Pintos.Kernel.List

/-! # `list.c` over a heap of list elements

The functions of `lib/kernel/list.c` as the pointer code runs them: a
`struct list_elem` is a cell of a `DLink.Heap`, a `struct list` the pair of
its header cells, and each function reads and writes links in the order of
its statements. `none` is a failed `ASSERT` or a dereference of a null link;
the loops take fuel.

A list with header cells `head` and `tail` and elements `xs` is
`DLink.DList h head tail xs`. Each function is shown to leave its lists
well formed, to act on their element sequences as the functions of
`Kernel.List` do, and to change no cell but the ones of the lists it is given
and the element it is given.
-/

namespace Pintos.ListHeap

open DLink

variable {α : Type*} [DecidableEq α]

/-- `struct list`: the addresses of its two header elements. -/
structure KList (α : Type*) where
  head : α
  tail : α

/-- The cells of a list: its head, its elements and its tail. -/
def KList.cells (l : KList α) (xs : List α) : List α := l.head :: xs ++ [l.tail]

section Model

def isHead (h : Heap α) (e : α) : Bool := (h e).prev.isNone && (h e).next.isSome

def isInterior (h : Heap α) (e : α) : Bool := (h e).prev.isSome && (h e).next.isSome

def isTail (h : Heap α) (e : α) : Bool := (h e).prev.isSome && (h e).next.isNone

/-- `list_init`. -/
def listInit (h : Heap α) (l : KList α) : Heap α :=
  setNext (setPrev (setNext (setPrev h l.head none) l.head (some l.tail)) l.tail (some l.head))
    l.tail none

def listBegin (h : Heap α) (l : KList α) : Option α := (h l.head).next

def listNext (h : Heap α) (e : α) : Option α :=
  if isHead h e || isInterior h e then (h e).next else none

def listPrev (h : Heap α) (e : α) : Option α :=
  if isInterior h e || isTail h e then (h e).prev else none

def listEmpty (h : Heap α) (l : KList α) : Bool := listBegin h l == some l.tail

def listFront (h : Heap α) (l : KList α) : Option α :=
  if listEmpty h l then none else (h l.head).next

def listBack (h : Heap α) (l : KList α) : Option α :=
  if listEmpty h l then none else (h l.tail).prev

/-- `list_insert`: `elem` goes just before `before`, an interior element or a tail. -/
def listInsert (h : Heap α) (before elem : α) : Option (Heap α) :=
  if !(isInterior h before || isTail h before) then none
  else
    let h₁ := setPrev h elem (h before).prev
    let h₂ := setNext h₁ elem (some before)
    match (h₂ before).prev with
    | none => none
    | some p =>
      let h₃ := setNext h₂ p (some elem)
      some (setPrev h₃ before (some elem))

/-- `list_splice`: the elements from `first` up to `last` (exclusive) go before `before`. -/
def listSplice (h : Heap α) (before first last : α) : Option (Heap α) :=
  if !(isInterior h before || isTail h before) then none
  else if first = last then some h
  else
    match listPrev h last with
    | none => none
    | some last =>
      if !(isInterior h first && isInterior h last) then none
      else
        -- cleanly remove `first ... last` from its list
        match (h first).prev with
        | none => none
        | some fp =>
          let h₁ := setNext h fp (h last).next
          match (h₁ last).next with
          | none => none
          | some ln =>
            let h₂ := setPrev h₁ ln (h₁ first).prev
            -- and splice it in
            let h₃ := setPrev h₂ first (h₂ before).prev
            let h₄ := setNext h₃ last (some before)
            match (h₄ before).prev with
            | none => none
            | some bp =>
              let h₅ := setNext h₄ bp (some first)
              some (setPrev h₅ before (some last))

def listPushFront (h : Heap α) (l : KList α) (elem : α) : Option (Heap α) :=
  (listBegin h l).bind fun b => listInsert h b elem

def listPushBack (h : Heap α) (l : KList α) (elem : α) : Option (Heap α) :=
  listInsert h l.tail elem

/-- `list_remove`: the heap and the element that followed `elem`. -/
def listRemove (h : Heap α) (elem : α) : Option (Heap α × α) :=
  if !isInterior h elem then none
  else
    match (h elem).prev with
    | none => none
    | some p =>
      let h₁ := setNext h p (h elem).next
      match (h₁ elem).next with
      | none => none
      | some n =>
        let h₂ := setPrev h₁ n (h₁ elem).prev
        (h₂ elem).next.map fun r => (h₂, r)

def listPopFront (h : Heap α) (l : KList α) : Option (Heap α × α) :=
  (listFront h l).bind fun front => (listRemove h front).map fun r => (r.1, front)

def listPopBack (h : Heap α) (l : KList α) : Option (Heap α × α) :=
  (listBack h l).bind fun back => (listRemove h back).map fun r => (r.1, back)

/-- `swap (&e->prev, &e->next)`. -/
def swapLinks (h : Heap α) (e : α) : Heap α := Function.update h e ⟨(h e).next, (h e).prev⟩

/-- The loop of `list_reverse` from `e`: swap its links and go on from its new `prev`, its
old `next`, until the tail. -/
def reverseLoop (tl : α) : ℕ → Heap α → α → Option (Heap α)
  | 0, _, _ => none
  | n + 1, h, e =>
    if e = tl then some h
    else
      let h₁ := swapLinks h e
      match (h₁ e).prev with
      | none => none
      | some e' => reverseLoop tl n h₁ e'

def listReverse (fuel : ℕ) (h : Heap α) (l : KList α) : Option (Heap α) :=
  if listEmpty h l then some h
  else
    match listBegin h l with
    | none => none
    | some b =>
      match reverseLoop l.tail fuel h b with
      | none => none
      | some h₁ =>
        -- `swap (&list->head.next, &list->tail.prev)`
        let h₂ := setPrev (setNext h₁ l.head (h₁ l.tail).prev) l.tail (h₁ l.head).next
        -- `swap (&list->head.next->prev, &list->tail.prev->next)`
        match (h₂ l.head).next, (h₂ l.tail).prev with
        | some a, some z => some (setNext (setPrev h₂ a (h₂ z).next) z (h₂ a).prev)
        | _, _ => none

/-- The search of `list_insert_ordered` from `e`: the first element `elem` is `less` than,
or the tail. -/
def insertPos (h : Heap α) (less : α → α → Bool) (elem tl : α) : ℕ → α → Option α
  | 0, _ => none
  | n + 1, e =>
    if e = tl then some e
    else if less elem e then some e
    else (listNext h e).bind (insertPos h less elem tl n)

def listInsertOrdered (fuel : ℕ) (h : Heap α) (l : KList α) (elem : α) (less : α → α → Bool) :
    Option (Heap α) :=
  (listBegin h l).bind fun b =>
    (insertPos h less elem l.tail fuel b).bind fun e => listInsert h e elem

/-- The loop of `list_unique` from the kept element `elem`. -/
def uniqueLoop (less : α → α → Bool) (tl : α) (dups : Option (KList α)) :
    ℕ → Heap α → α → Option (Heap α)
  | 0, _, _ => none
  | n + 1, h, elem =>
    match listNext h elem with
    | none => none
    | some next =>
      if next = tl then some h
      else if !less elem next && !less next elem then
        match listRemove h next with
        | none => none
        | some (h₁, _) =>
          match dups with
          | none => uniqueLoop less tl dups n h₁ elem
          | some d => (listPushBack h₁ d next).bind fun h₂ => uniqueLoop less tl dups n h₂ elem
      else uniqueLoop less tl dups n h next

def listUnique (fuel : ℕ) (h : Heap α) (l : KList α) (dups : Option (KList α))
    (less : α → α → Bool) : Option (Heap α) :=
  if listEmpty h l then some h
  else (listBegin h l).bind (uniqueLoop less l.tail dups fuel h)

end Model

section Links

omit [DecidableEq α]

theorem interior_or_tail (h : Heap α) (e : α) :
    (isInterior h e || isTail h e) = (h e).prev.isSome := by
  unfold isInterior isTail
  cases (h e).prev <;> cases (h e).next <;> rfl

theorem head_or_interior (h : Heap α) (e : α) :
    (isHead h e || isInterior h e) = (h e).next.isSome := by
  unfold isHead isInterior
  cases (h e).prev <;> cases (h e).next <;> rfl

/-- `list_next` of a cell is its `next` link: its `ASSERT` fails exactly where that is null. -/
theorem listNext_eq (h : Heap α) (e : α) : listNext h e = (h e).next := by
  unfold listNext
  rw [head_or_interior]
  cases (h e).next <;> rfl

theorem listPrev_eq (h : Heap α) (e : α) : listPrev h e = (h e).prev := by
  unfold listPrev
  rw [interior_or_tail]
  cases (h e).prev <;> rfl

variable {l : KList α} {xs : List α}

theorem KList.cells_split (ys zs : List α) :
    l.cells (ys ++ zs) = (l.head :: ys) ++ (zs ++ [l.tail]) := by
  simp [KList.cells]

theorem KList.mem_cells_concat {q m : α} {ds : List α} :
    q ∈ l.cells (ds ++ [m]) ↔ q = m ∨ q ∈ l.cells ds := by
  simp only [KList.cells, List.mem_append, List.mem_cons, List.not_mem_nil, or_false]
  tauto

theorem tail_not_mem (hnd : (l.cells xs).Nodup) : l.tail ∉ xs := by
  unfold KList.cells at hnd
  exact fun hx => (List.nodup_append.mp (List.nodup_cons.mp hnd).2).2.2 _ hx _
    (List.mem_singleton_self _) rfl

theorem head_not_mem (hnd : (l.cells xs).Nodup) : l.head ∉ xs := fun hx =>
  (List.nodup_cons.mp hnd).1 (List.mem_append_left _ hx)

end Links

section Init

omit [DecidableEq α] in
theorem KList.cells_nil (l : KList α) : l.cells [] = [l.head, l.tail] := rfl

/-- `list_init` makes an empty list of its two header cells and writes nothing else. -/
theorem listInit_spec (h : Heap α) {l : KList α} (hne : l.head ≠ l.tail) :
    DList (listInit h l) l.head l.tail [] ∧ Within (l.cells []) h (listInit h l) := by
  refine ⟨⟨.cons_cons ⟨?_, ?_⟩ (.singleton _), ?_, ?_, ?_⟩, fun q hq => ?_⟩
  · simp [listInit, hne]
  · simp [listInit]
  · simp [listInit, hne]
  · simp [listInit]
  · simpa using hne
  · rw [KList.cells_nil, List.mem_pair, not_or] at hq
    simp [listInit, setPrev_of_ne, setNext_of_ne, hq.1, hq.2]

end Init

section Insert

variable {h : Heap α} {l : KList α} {xs : List α}

/-- An element or the tail of a list splits its elements into those before it and the rest,
and a range spliced before it lands between the two. -/
theorem exists_split {c : α} (hnd : (l.cells xs).Nodup) (hc : c ∈ xs ∨ c = l.tail) :
    ∃ ys zs, xs = ys ++ zs ∧ (zs ++ [l.tail]).head (by simp) = c ∧
      ∀ r, Pintos.listSplice c r xs = ys ++ r ++ zs := by
  rcases hc with hc | rfl
  · obtain ⟨ys, zs, rfl⟩ := List.append_of_mem hc
    have hcy : c ∉ ys := by
      unfold KList.cells at hnd
      have := (List.nodup_cons.mp hnd).2.of_append_left
      exact fun hy => (List.nodup_append.mp this).2.2 c hy c List.mem_cons_self rfl
    exact ⟨ys, c :: zs, rfl, rfl, fun r => listSplice_append zs hcy⟩
  · exact ⟨xs, [], by simp, rfl, fun r => by simp [listSplice_of_not_mem (tail_not_mem hnd)]⟩

theorem prev_isSome_of_dlist (hl : DList h l.head l.tail xs) {c : α} (hc : c ∈ xs ∨ c = l.tail) :
    (h c).prev.isSome := by
  obtain ⟨ys, zs, rfl, rfl, -⟩ := exists_split hl.nodup hc
  rw [hl.linked_split.2]
  rfl

omit [DecidableEq α] in
theorem next_isSome_of_dlist (hl : DList h l.head l.tail xs) {c : α} (hc : c ∈ xs) :
    (h c).next.isSome := by
  obtain ⟨ys, zs, rfl⟩ := List.append_of_mem hc
  have hl' : DList h l.head l.tail ((ys ++ [c]) ++ zs) := by simpa using hl
  have hn : (h c).next = some ((zs ++ [l.tail]).head (by simp)) := by
    simpa using hl'.linked_split.1
  rw [hn]
  rfl

/-- `list_insert` before an element or the tail of a list puts a new element there, and
writes only that element and the two cells around it. -/
theorem listInsert_spec (hl : DList h l.head l.tail xs) {before elem : α}
    (hb : before ∈ xs ∨ before = l.tail) (he : elem ∉ l.cells xs) :
    ∃ h', listInsert h before elem = some h' ∧
      DList h' l.head l.tail (Pintos.listSplice before [elem] xs) ∧
      Within (elem :: l.cells xs) h h' := by
  obtain ⟨ys, zs, rfl, rfl, hsplice⟩ := exists_split hl.nodup hb
  have hnd : (l.cells (ys ++ zs)).Nodup := hl.nodup
  rw [KList.cells_split] at he hnd
  have hpc := hl.linked_split
  set p := (l.head :: ys).getLast (List.cons_ne_nil _ _)
  set c := (zs ++ [l.tail]).head (by simp)
  have hce : c ≠ elem := fun hc => he (List.mem_append_right _ (hc ▸ List.head_mem _))
  have hpe : p ≠ elem := fun hp => he (List.mem_append_left _ (hp ▸ List.getLast_mem _))
  have hrun : listInsert h c elem = some (setPrev (setNext (setNext (setPrev h elem (some p))
      elem (some c)) p (some elem)) c (some elem)) := by
    unfold listInsert
    rw [interior_or_tail, hpc.2]
    simp only [Option.isSome_some, Bool.not_true, Bool.false_eq_true, if_false, prev_setNext,
      prev_setPrev, if_neg hce, hpc.2]
  refine ⟨_, hrun, ?_, fun q hq => ?_⟩
  · rw [hsplice]
    refine hl.insert_range (List.cons_ne_nil _ _) (.singleton elem) ?_ (fun q => ?_) (fun q => ?_)
    · rw [show l.head :: (ys ++ [elem] ++ zs) ++ [l.tail] =
        (l.head :: ys) ++ elem :: (zs ++ [l.tail]) by simp]
      exact List.nodup_middle.mpr (List.nodup_cons.mpr ⟨he, hnd⟩)
    · simp only [next_setPrev, next_setNext]
      rfl
    · simp only [prev_setPrev, prev_setNext]
      rfl
  · rw [List.mem_cons, KList.cells_split, not_or] at hq
    obtain ⟨hqe, hq⟩ := hq
    have hqc : q ≠ c := fun h' => hq (List.mem_append_right _ (h' ▸ List.head_mem _))
    have hqp : q ≠ p := fun h' => hq (List.mem_append_left _ (h' ▸ List.getLast_mem _))
    rw [setPrev_of_ne hqc, setNext_of_ne hqp, setNext_of_ne hqe, setPrev_of_ne hqe]

theorem listPushFront_spec (hl : DList h l.head l.tail xs) {elem : α}
    (he : elem ∉ l.cells xs) :
    ∃ h', listPushFront h l elem = some h' ∧ DList h' l.head l.tail (elem :: xs) ∧
      Within (elem :: l.cells xs) h h' := by
  have hb : (h l.head).next = some ((xs ++ [l.tail]).head (by simp)) :=
    (show DList h l.head l.tail ([] ++ xs) from hl).linked_split.1
  have hmem : (xs ++ [l.tail]).head (by simp) ∈ xs ∨ (xs ++ [l.tail]).head (by simp) = l.tail := by
    cases xs with
    | nil => exact .inr rfl
    | cons x xs => exact .inl List.mem_cons_self
  obtain ⟨h', hrun, hl', hw⟩ := listInsert_spec hl hmem he
  rw [listSplice_front] at hl'
  exact ⟨h', by rw [listPushFront, listBegin, hb]; exact hrun, hl', hw⟩

theorem listPushBack_spec (hl : DList h l.head l.tail xs) {elem : α}
    (he : elem ∉ l.cells xs) :
    ∃ h', listPushBack h l elem = some h' ∧ DList h' l.head l.tail (xs ++ [elem]) ∧
      Within (elem :: l.cells xs) h h' := by
  obtain ⟨h', hrun, hl', hw⟩ := listInsert_spec hl (.inr rfl) he
  rw [listSplice_of_not_mem (tail_not_mem hl.nodup)] at hl'
  exact ⟨h', hrun, hl', hw⟩

end Insert

section Remove

variable {h : Heap α} {l : KList α}

/-- `list_remove` takes an element out of its list, writes only the two cells around it, and
returns the cell that followed it; the element keeps its links. -/
theorem listRemove_spec {ys zs : List α} {elem : α} (hl : DList h l.head l.tail (ys ++ elem :: zs)) :
    ∃ h', listRemove h elem = some (h', (zs ++ [l.tail]).head (by simp)) ∧
      DList h' l.head l.tail (ys ++ zs) ∧ h' elem = h elem ∧
      Within (l.cells (ys ++ elem :: zs)) h h' := by
  have hl' : DList h l.head l.tail (ys ++ [elem] ++ zs) := by simpa using hl
  have hnd : (l.cells (ys ++ elem :: zs)).Nodup := hl.nodup
  rw [KList.cells_split] at hnd
  set p := (l.head :: ys).getLast (List.cons_ne_nil _ _)
  set n := (zs ++ [l.tail]).head (by simp)
  have hpe : (h elem).prev = some p := hl.linked_split.2
  have hen : (h elem).next = some n := by simpa using hl'.linked_split.1
  obtain ⟨-, hndr, hdisj⟩ := List.nodup_append.mp hnd
  have hep : elem ≠ p := (hdisj p (List.getLast_mem _) elem List.mem_cons_self).symm
  have hen' : elem ≠ n := fun h' => (List.nodup_cons.mp hndr).1 (h' ▸ List.head_mem _)
  have hrun : listRemove h elem = some (setPrev (setNext h p (some n)) n (some p), n) := by
    simp only [listRemove, isInterior, hpe, hen, Option.isSome_some, Bool.and_self,
      Bool.not_true, Bool.false_eq_true, if_false, next_setNext, if_neg hep, prev_setNext,
      next_setPrev, Option.map_some]
  refine ⟨_, hrun, hl'.remove_range (fun q => ?_) (fun q => ?_), ?_, fun q hq => ?_⟩
  · simp only [next_setPrev, next_setNext]
    rfl
  · simp only [prev_setPrev, prev_setNext]
    rfl
  · rw [setPrev_of_ne hen', setNext_of_ne hep]
  · rw [KList.cells_split] at hq
    have hqn : q ≠ n := fun h' =>
      hq (List.mem_append_right _ (List.mem_cons_of_mem elem (h' ▸ List.head_mem _)))
    have hqp : q ≠ p := fun h' => hq (List.mem_append_left _ (h' ▸ List.getLast_mem _))
    rw [setPrev_of_ne hqn, setNext_of_ne hqp]

theorem listPopFront_spec {x : α} {rest : List α} (hl : DList h l.head l.tail (x :: rest)) :
    ∃ h', listPopFront h l = some (h', x) ∧ DList h' l.head l.tail rest ∧
      Within (l.cells (x :: rest)) h h' := by
  obtain ⟨h', hrun, hl', -, hw⟩ := listRemove_spec (show DList h l.head l.tail ([] ++ x :: rest) from hl)
  have hb : (h l.head).next = some x :=
    (show DList h l.head l.tail ([] ++ x :: rest) from hl).linked_split.1
  have hxt : x ≠ l.tail := fun h' => tail_not_mem hl.nodup (h' ▸ List.mem_cons_self)
  have hfront : listFront h l = some x := by
    simp [listFront, listEmpty, listBegin, hb, hxt]
  exact ⟨h', by rw [listPopFront, hfront, Option.bind_some, hrun, Option.map_some], hl', hw⟩

theorem listPopBack_spec {x : α} {rest : List α} (hl : DList h l.head l.tail (rest ++ [x])) :
    ∃ h', listPopBack h l = some (h', x) ∧ DList h' l.head l.tail rest ∧
      Within (l.cells (rest ++ [x])) h h' := by
  obtain ⟨h', hrun, hl', -, hw⟩ := listRemove_spec hl
  have hb : (h l.tail).prev = some x := by
    simpa using (show DList h l.head l.tail ((rest ++ [x]) ++ []) by simpa using hl).linked_split.2
  have hb₀ : (h l.head).next = some ((rest ++ [x] ++ [l.tail]).head (by simp)) :=
    (show DList h l.head l.tail ([] ++ (rest ++ [x])) from hl).linked_split.1
  have hne : (h l.head).next ≠ some l.tail := by
    rw [hb₀]
    intro h'
    have hmem : (rest ++ [x] ++ [l.tail]).head (by simp) ∈ rest ++ [x] := by
      rw [List.head_append_of_ne_nil (by simp)]
      exact List.head_mem _
    exact tail_not_mem hl.nodup (Option.some.inj h' ▸ hmem)
  have hback : listBack h l = some x := by
    simp [listBack, listEmpty, listBegin, hne, hb]
  rw [List.append_nil] at hl'
  exact ⟨h', by rw [listPopBack, hback, Option.bind_some, hrun, Option.map_some], hl', hw⟩

end Remove

section Splice

variable {h : Heap α}

/-- The run of `list_splice` on a range from `first` to `lst`, followed by `last`, whose outer
links are `fp` and `last`, moved before `before`, whose `prev` is `bp`: six links written. -/
theorem listSplice_run {before first last fp lst bp : α} (hne : first ≠ last)
    (hbp : (h before).prev = some bp) (hfp : (h first).prev = some fp)
    (hfn : (h first).next.isSome) (hlst : (h last).prev = some lst)
    (hlp : (h lst).prev.isSome) (hln : (h lst).next = some last)
    (hlf : lst ≠ fp) (hbl : before ≠ last) (hbf : before ≠ first) :
    listSplice h before first last = some (setPrev (setNext (setNext (setPrev (setPrev
      (setNext h fp (some last)) last (some fp)) first (some bp)) lst (some before)) bp
      (some first)) before (some lst)) := by
  unfold listSplice
  rw [interior_or_tail, hbp]
  simp only [Option.isSome_some, Bool.not_true, Bool.false_eq_true, if_false, if_neg hne,
    listPrev_eq, hlst, isInterior, hfp, hfn, hlp, hln, Bool.and_self, next_setNext, if_neg hlf,
    prev_setNext, prev_setPrev, if_neg hbl, if_neg hbf, hbp]

/-- `list_splice` moves the range `rs` of one list before an element or the tail of another:
both stay lists, the first without the range and the second with it spliced in, and only
their cells are written. -/
theorem listSplice_spec {l₁ l₂ : KList α} {as rs bs xs₂ : List α} {before : α}
    (hl₁ : DList h l₁.head l₁.tail (as ++ rs ++ bs)) (hl₂ : DList h l₂.head l₂.tail xs₂)
    (hdisj : ∀ q ∈ l₁.cells (as ++ rs ++ bs), q ∉ l₂.cells xs₂)
    (hb : before ∈ xs₂ ∨ before = l₂.tail) :
    ∃ h', listSplice h before ((rs ++ bs ++ [l₁.tail]).head (by simp))
        ((bs ++ [l₁.tail]).head (by simp)) = some h' ∧
      DList h' l₁.head l₁.tail (as ++ bs) ∧
      DList h' l₂.head l₂.tail (Pintos.listSplice before rs xs₂) ∧
      Within (l₁.cells (as ++ rs ++ bs) ++ l₂.cells xs₂) h h' := by
  obtain ⟨ys, zs, rfl, rfl, hsplice⟩ := exists_split hl₂.nodup hb
  have hbp := hl₂.linked_split
  rw [hsplice]
  cases rs with
  | nil =>
    refine ⟨h, ?_, by simpa using hl₁, by simpa using hl₂, Within.refl _ _⟩
    unfold listSplice
    rw [interior_or_tail, hbp.2]
    simp
  | cons r rs =>
    set fp := (l₁.head :: as).getLast (List.cons_ne_nil _ _)
    set last := (bs ++ [l₁.tail]).head (by simp)
    set lst := (r :: rs).getLast (List.cons_ne_nil _ _)
    set bp := (l₂.head :: ys).getLast (List.cons_ne_nil _ _)
    set before := (zs ++ [l₂.tail]).head (by simp)
    have hc₁ : l₁.cells (as ++ r :: rs ++ bs) =
        (l₁.head :: as) ++ (r :: rs) ++ (bs ++ [l₁.tail]) := by simp [KList.cells]
    have hc₂ : l₂.cells (ys ++ zs) = (l₂.head :: ys) ++ (zs ++ [l₂.tail]) := KList.cells_split ys zs
    have hnd : (l₁.cells (as ++ r :: rs ++ bs)).Nodup := hl₁.nodup
    rw [hc₁] at hnd hdisj
    rw [hc₂] at hdisj
    obtain ⟨hnd', -, hdisj₂⟩ := List.nodup_append.mp hnd
    obtain ⟨-, hndr, hdisj₁⟩ := List.nodup_append.mp hnd'
    -- where the six written cells lie
    have hfp : fp ∈ l₁.head :: as := List.getLast_mem _
    have hlast : last ∈ bs ++ [l₁.tail] := List.head_mem _
    have hlst : lst ∈ r :: rs := List.getLast_mem _
    have hbp₂ : bp ∈ (l₂.head :: ys) ++ (zs ++ [l₂.tail]) := List.mem_append_left _ (List.getLast_mem _)
    have hb₂ : before ∈ (l₂.head :: ys) ++ (zs ++ [l₂.tail]) := List.mem_append_right _ (List.head_mem _)
    have hin₁ : ∀ q, q ∈ l₁.head :: as ∨ q ∈ r :: rs ∨ q ∈ bs ++ [l₁.tail] →
        q ∈ (l₁.head :: as) ++ (r :: rs) ++ (bs ++ [l₁.tail]) := by
      rintro q (hq | hq | hq)
      · exact List.mem_append_left _ (List.mem_append_left _ hq)
      · exact List.mem_append_left _ (List.mem_append_right _ hq)
      · exact List.mem_append_right _ hq
    have hoff₂ : ∀ q, q ∈ (l₂.head :: ys) ++ (zs ++ [l₂.tail]) →
        q ∉ l₁.head :: as ∧ q ∉ r :: rs ∧ q ∉ bs ++ [l₁.tail] := fun q hq =>
      ⟨fun h' => hdisj q (hin₁ q (.inl h')) hq, fun h' => hdisj q (hin₁ q (.inr (.inl h'))) hq,
        fun h' => hdisj q (hin₁ q (.inr (.inr h'))) hq⟩
    have hrs : ∀ q ∈ r :: rs, q ∉ l₁.head :: as ∧ q ∉ bs ++ [l₁.tail] := fun q hq =>
      ⟨fun h' => hdisj₁ q h' q hq rfl, fun h' => hdisj₂ q (List.mem_append_right _ hq) q h' rfl⟩
    -- the links `list_splice` reads
    have hlink₁ : Linked h fp r :=
      (show DList h l₁.head l₁.tail (as ++ (r :: rs ++ bs)) by simpa using hl₁).linked_split
    have hlink₂ : Linked h lst last := by
      have hg : (l₁.head :: (as ++ r :: rs)).getLast (List.cons_ne_nil _ _) = lst := by simp [lst]
      exact hg ▸ hl₁.linked_split
    have hrun := listSplice_run (fun h' : r = last => (hrs r List.mem_cons_self).2 (h' ▸ hlast))
      hbp.2 hlink₁.2 (next_isSome_of_dlist hl₁ (by simp)) hlink₂.2
      (prev_isSome_of_dlist hl₁ (.inl (List.mem_append_left _ (List.mem_append_right _ hlst))))
      hlink₂.1 (fun h' : lst = fp => (hrs lst hlst).1 (h' ▸ hfp))
      (fun h' : before = last => (hoff₂ _ hb₂).2.2 (h' ▸ hlast))
      (fun h' : before = r => (hoff₂ _ hb₂).2.1 (h' ▸ List.mem_cons_self))
    -- first the range leaves its list
    set h₂ := setPrev (setNext h fp (some last)) last (some fp)
    have hw₁ : Within ([fp] ++ [last]) h h₂ := (within_setNext h fp _).append (within_setPrev _ last _)
    have hoff : ∀ q, q ≠ fp → q ≠ last → h₂ q = h q := fun q h₁ h₂ =>
      hw₁ q (by simp [h₁, h₂])
    have hl₁' : DList h₂ l₁.head l₁.tail (as ++ bs) :=
      hl₁.remove_range (fun q => by simp only [h₂, next_setPrev, next_setNext]; rfl)
        (fun q => by simp only [h₂, prev_setPrev, prev_setNext]; rfl)
    have hl₂' : DList h₂ l₂.head l₂.tail (ys ++ zs) :=
      hl₂.of_agree fun q hq => hoff q (fun h' => (hoff₂ q (hc₂ ▸ hq)).1 (h' ▸ hfp))
        (fun h' => (hoff₂ q (hc₂ ▸ hq)).2.2 (h' ▸ hlast))
    have hcr : (r :: rs).IsChain (Linked h₂) := by
      have hc := hl₁.chain
      rw [show l₁.head :: (as ++ r :: rs ++ bs) ++ [l₁.tail] =
        (l₁.head :: as) ++ (r :: rs) ++ (bs ++ [l₁.tail]) by simp] at hc
      exact chain_of_agree hc.left_of_append.right_of_append fun q hq =>
        hoff q (fun h' => (hrs q hq).1 (h' ▸ hfp)) (fun h' => (hrs q hq).2 (h' ▸ hlast))
    -- then it goes before `before`
    have hnd₂ : (l₂.head :: (ys ++ r :: rs ++ zs) ++ [l₂.tail]).Nodup := by
      have hperm : (l₂.head :: (ys ++ r :: rs ++ zs) ++ [l₂.tail]).Perm
          ((r :: rs) ++ ((l₂.head :: ys) ++ (zs ++ [l₂.tail]))) := by
        rw [show l₂.head :: (ys ++ r :: rs ++ zs) ++ [l₂.tail] =
          ((l₂.head :: ys) ++ (r :: rs)) ++ (zs ++ [l₂.tail]) by simp]
        exact (List.perm_append_comm.append_right _).trans (by rw [List.append_assoc])
      refine hperm.nodup_iff.mpr (List.nodup_append.mpr ⟨hndr, hc₂ ▸ hl₂.nodup, fun a ha b hb => ?_⟩)
      rintro rfl
      exact (hoff₂ a hb).2.1 ha
    set h₃ := setPrev (setNext (setNext (setPrev h₂ r (some bp)) lst (some before)) bp (some r))
      before (some lst)
    have hl₂'' : DList h₃ l₂.head l₂.tail (ys ++ r :: rs ++ zs) :=
      hl₂'.insert_range (List.cons_ne_nil r rs) hcr hnd₂
        (fun q => by simp only [h₃, next_setPrev, next_setNext]; rfl)
        (fun q => by simp only [h₃, prev_setPrev, prev_setNext]; rfl)
    have hw₂ : Within ([r] ++ [lst] ++ [bp] ++ [before]) h₂ h₃ :=
      (((within_setPrev _ _ _).append (within_setNext _ _ _)).append (within_setNext _ _ _)).append
        (within_setPrev _ _ _)
    refine ⟨_, hrun, hl₁'.of_within hw₂ fun q hq hq' => ?_, hl₂'', (hw₁.append hw₂).mono ?_⟩
    · have hq₁ : q ∈ l₁.head :: as ∨ q ∈ bs ++ [l₁.tail] := by
        change q ∈ l₁.cells (as ++ bs) at hq
        rw [KList.cells_split] at hq
        exact List.mem_append.mp hq
      simp only [List.mem_append, List.mem_singleton] at hq'
      rcases hq' with ((h₀ | h₀) | h₀) | h₀ <;> rw [h₀] at hq₁
      · exact hq₁.elim (hrs r List.mem_cons_self).1 (hrs r List.mem_cons_self).2
      · exact hq₁.elim (hrs lst hlst).1 (hrs lst hlst).2
      · exact hq₁.elim (hoff₂ bp hbp₂).1 (hoff₂ bp hbp₂).2.2
      · exact hq₁.elim (hoff₂ before hb₂).1 (hoff₂ before hb₂).2.2
    · intro q hq
      rw [List.mem_append, hc₁, hc₂]
      simp only [List.mem_append, List.mem_singleton] at hq
      rcases hq with (rfl | rfl) | ((rfl | rfl) | rfl) | rfl
      · exact .inl (hin₁ _ (.inl hfp))
      · exact .inl (hin₁ _ (.inr (.inr hlast)))
      · exact .inl (hin₁ _ (.inr (.inl List.mem_cons_self)))
      · exact .inl (hin₁ _ (.inr (.inl hlst)))
      · exact .inr hbp₂
      · exact .inr hb₂

end Splice

section Reverse

variable {h : Heap α}

theorem swapLinks_apply (h : Heap α) (e q : α) :
    swapLinks h e q = if q = e then mirror h q else h q := by
  by_cases hq : q = e
  · subst hq
    simp [swapLinks, mirror]
  · simp [swapLinks, hq]

/-- The loop of `list_reverse`, from the first of the cells `ys` before the tail, swaps the two
links of each of them and stops at the tail. -/
theorem reverseLoop_spec {tl : α} : ∀ {ys : List α} {h : Heap α} {n : ℕ},
    (ys ++ [tl]).IsChain (Linked h) → (ys ++ [tl]).Nodup → ys.length < n →
    ∃ h₁, reverseLoop tl n h ((ys ++ [tl]).head (by simp)) = some h₁ ∧
      ∀ q, h₁ q = if q ∈ ys then mirror h q else h q
  | _, _, 0, _, _, hn => absurd hn (Nat.not_lt_zero _)
  | [], h, n + 1, _, _, _ => ⟨h, by simp [reverseLoop], fun q => by simp⟩
  | y :: ys, h, n + 1, hc, hnd, hn => by
    obtain ⟨hy, hnd'⟩ := List.nodup_cons.mp hnd
    have hyt : y ≠ tl := fun h' => hy (by simp [h'])
    have hnext : (h y).next = some ((ys ++ [tl]).head (by simp)) :=
      next_of_chain (show ([] ++ y :: (ys ++ [tl])).IsChain (Linked h) from hc) (by simp)
    have hagree : ∀ q ∈ ys ++ [tl], swapLinks h y q = h q := fun q hq => by
      rw [swapLinks_apply, if_neg (ne_of_mem_of_not_mem hq hy)]
    obtain ⟨h₁, hrun, hh₁⟩ := reverseLoop_spec (chain_of_agree hc.tail hagree) hnd'
      (by simpa using hn)
    refine ⟨h₁, ?_, fun q => ?_⟩
    · have hprev : (swapLinks h y y).prev = (h y).next := by simp [swapLinks_apply, mirror]
      simp only [List.cons_append, List.head_cons, reverseLoop, if_neg hyt, hprev, hnext]
      exact hrun
    · rw [hh₁]
      by_cases hq : q = y
      · subst hq
        have hy' : q ∉ ys := fun h' => hy (List.mem_append_left _ h')
        simp [hy', swapLinks_apply]
      · simp [hq, mirror, swapLinks_apply]

/-- `list_reverse` reverses a list and writes only its cells. -/
theorem listReverse_spec {l : KList α} {xs : List α} (hl : DList h l.head l.tail xs) {fuel : ℕ}
    (hf : xs.length < fuel) :
    ∃ h', listReverse fuel h l = some h' ∧ DList h' l.head l.tail xs.reverse ∧
      Within (l.cells xs) h h' := by
  have hbegin : Linked h l.head ((xs ++ [l.tail]).head (by simp)) :=
    (show DList h l.head l.tail ([] ++ xs) from hl).linked_split
  by_cases hx : xs = []
  · subst hx
    exact ⟨h, by simp [listReverse, listEmpty, listBegin, hbegin.1], hl, Within.refl _ _⟩
  have hb : (xs ++ [l.tail]).head (by simp) = xs.head hx := List.head_append_of_ne_nil hx
  set a := xs.getLast hx
  set z := xs.head hx
  have hhx := head_not_mem hl.nodup
  have htx := tail_not_mem hl.nodup
  have hza : Linked h l.head z := hb ▸ hbegin
  have hat : Linked h a l.tail := by
    simpa [List.getLast_cons hx] using
      (show DList h l.head l.tail (xs ++ []) by simpa using hl).linked_split
  have hzt : z ≠ l.tail := fun h' => htx (h' ▸ List.head_mem hx)
  have hhz : l.head ≠ z := fun h' => hhx (h' ▸ List.head_mem hx)
  have hat' : a ≠ l.tail := fun h' => htx (h' ▸ List.getLast_mem hx)
  obtain ⟨h₁, hloop, hh₁⟩ :=
    reverseLoop_spec (hl.chain.tail : (xs ++ [l.tail]).IsChain (Linked h))
      (List.nodup_cons.mp hl.nodup).2 hf
  rw [hb] at hloop
  have hh₁h : h₁ l.head = h l.head := by rw [hh₁, if_neg hhx]
  have hh₁t : h₁ l.tail = h l.tail := by rw [hh₁, if_neg htx]
  have hh₁z : (h₁ z).next = some l.head := by
    rw [hh₁, if_pos (List.head_mem hx)]
    exact hza.2
  have hh₁a : (h₁ a).prev = some l.tail := by
    rw [hh₁, if_pos (List.getLast_mem hx)]
    exact hat.1
  set h₂ := setPrev (setNext h₁ l.head (some a)) l.tail (some z)
  have hrun : listReverse fuel h l = some (setNext (setPrev h₂ a (some l.head)) z (some l.tail)) := by
    have hempty : listEmpty h l = false := by
      simp [listEmpty, listBegin, hbegin.1, hb, hzt]
    simp only [listReverse, hempty, Bool.false_eq_true, if_false, listBegin, hbegin.1, hloop,
      next_setPrev, next_setNext, prev_setPrev, prev_setNext, if_pos, hh₁t, hh₁h, hat.2, hb,
      if_neg hhz.symm, if_neg hat', hh₁z, hh₁a]
    rfl
  refine ⟨_, hrun, hl.reverse hx hh₁ (fun q => ?_) (fun q => ?_), ?_⟩
  · simp only [h₂, next_setNext, next_setPrev]
    by_cases hq : q = l.head
    · subst hq
      rw [if_neg hhz, if_pos rfl, if_pos rfl]
    · simp only [if_neg hq]
      rfl
  · simp only [h₂, prev_setNext, prev_setPrev]
    by_cases hq : q = l.tail
    · subst hq
      rw [if_neg hat'.symm, if_pos rfl, if_pos rfl]
    · simp only [if_neg hq]
      rfl
  · have hw₀ : Within xs h h₁ := fun q hq => by rw [hh₁, if_neg hq]
    have hw : Within (xs ++ ([l.head] ++ [l.tail]) ++ ([a] ++ [z])) h
        (setNext (setPrev h₂ a (some l.head)) z (some l.tail)) :=
      (hw₀.append ((within_setNext _ _ _).append (within_setPrev _ _ _))).append
        ((within_setPrev _ _ _).append (within_setNext _ _ _))
    have hxs : ∀ q ∈ xs, q ∈ l.cells xs := fun q hq => List.mem_append_left _ (List.mem_cons_of_mem _ hq)
    refine hw.mono fun q hq => ?_
    simp only [List.mem_append, List.mem_singleton] at hq
    rcases hq with (hq | hq | hq) | hq | hq
    · exact hxs q hq
    · exact hq ▸ List.mem_append_left _ List.mem_cons_self
    · exact hq ▸ List.mem_append_right _ (List.mem_singleton_self _)
    · exact hxs q (hq ▸ List.getLast_mem hx)
    · exact hxs q (hq ▸ List.head_mem hx)

end Reverse

section Ordered

variable {h : Heap α} (less : α → α → Bool) (elem : α)

/-- The search of `list_insert_ordered`, from the first of the cells `ys` before the tail, stops
at the first of them that `elem` is `less` than, or at the tail: splicing `elem` in there is
the ordered insertion into `ys`. -/
theorem insertPos_spec {tl : α} : ∀ {ys : List α} {n : ℕ},
    (ys ++ [tl]).IsChain (Linked h) → (ys ++ [tl]).Nodup → ys.length < n →
    ∃ e, insertPos h less elem tl n ((ys ++ [tl]).head (by simp)) = some e ∧
      (e ∈ ys ∨ e = tl) ∧ Pintos.listSplice e [elem] ys = Pintos.listInsertOrdered less elem ys
  | _, 0, _, _, hn => absurd hn (Nat.not_lt_zero _)
  | [], n + 1, _, _, _ => ⟨tl, by simp [insertPos], .inr rfl, rfl⟩
  | y :: ys, n + 1, hc, hnd, hn => by
    obtain ⟨hy, hnd'⟩ := List.nodup_cons.mp hnd
    have hyt : y ≠ tl := fun h' => hy (by simp [h'])
    by_cases hless : less elem y = true
    · refine ⟨y, ?_, .inl List.mem_cons_self, ?_⟩
      · simp [insertPos, hyt, hless]
      · simp [Pintos.listSplice, listInsertOrdered_cons, hless]
    · have hnext : (h y).next = some ((ys ++ [tl]).head (by simp)) :=
        next_of_chain (show ([] ++ y :: (ys ++ [tl])).IsChain (Linked h) from hc) (by simp)
      obtain ⟨e, hrun, he, hsplice⟩ := insertPos_spec hc.tail hnd' (by simpa using hn)
      have hey : e ≠ y := by
        rintro rfl
        rcases he with he | he
        · exact hy (List.mem_append_left _ he)
        · exact hyt he
      refine ⟨e, ?_, he.imp_left (List.mem_cons_of_mem y), ?_⟩
      · simp only [List.cons_append, List.head_cons, insertPos, if_neg hyt, hless,
          Bool.false_eq_true, if_false, listNext_eq, hnext, Option.bind_some]
        exact hrun
      · rw [Pintos.listSplice, if_neg hey.symm, hsplice, listInsertOrdered_cons,
          if_neg hless]

/-- `list_insert_ordered` puts a new element before the first element it is `less` than, as
the ordered insertion of `Kernel.List` does, and writes only that element and its
neighbours. -/
theorem listInsertOrdered_spec {l : KList α} {xs : List α} (hl : DList h l.head l.tail xs)
    (he : elem ∉ l.cells xs) {fuel : ℕ} (hf : xs.length < fuel) :
    ∃ h', ListHeap.listInsertOrdered fuel h l elem less = some h' ∧
      DList h' l.head l.tail (Pintos.listInsertOrdered less elem xs) ∧
      Within (elem :: l.cells xs) h h' := by
  have hbegin : (h l.head).next = some ((xs ++ [l.tail]).head (by simp)) :=
    (show DList h l.head l.tail ([] ++ xs) from hl).linked_split.1
  obtain ⟨e, hpos, hmem, hsplice⟩ := insertPos_spec less elem
    (hl.chain.tail : (xs ++ [l.tail]).IsChain (Linked h)) (List.nodup_cons.mp hl.nodup).2 hf
  obtain ⟨h', hrun, hl', hw⟩ := listInsert_spec hl hmem he
  rw [hsplice] at hl'
  refine ⟨h', ?_, hl', hw⟩
  rw [ListHeap.listInsertOrdered, listBegin, hbegin, Option.bind_some, hpos, Option.bind_some, hrun]

end Ordered

section Unique

variable (less : α → α → Bool) {l : KList α} (dups : Option (KList α))

/-- The loop of `list_unique` from the kept element `elem`, with the elements `ns` after it:
the list keeps what `uniqueFrom` keeps, and `duplicates`, if given, gets the rest appended. -/
theorem uniqueLoop_spec : ∀ {ns ks : List α} (ds : List α) {elem : α} {h : Heap α} {n : ℕ},
    DList h l.head l.tail (ks ++ elem :: ns) →
    (∀ d ∈ dups, DList h d.head d.tail ds ∧ ∀ q ∈ d.cells ds, q ∉ l.cells (ks ++ elem :: ns)) →
    ns.length < n →
    ∃ h', uniqueLoop less l.tail dups n h elem = some h' ∧
      DList h' l.head l.tail (ks ++ elem :: (uniqueFrom less elem ns).1) ∧
      (∀ d ∈ dups, DList h' d.head d.tail (ds ++ (uniqueFrom less elem ns).2)) ∧
      Within (l.cells (ks ++ elem :: ns) ++ dups.elim [] fun d => d.cells ds) h h'
  | _, _, _, _, _, 0, _, _, hn => absurd hn (Nat.not_lt_zero _)
  | [], ks, ds, elem, h, n + 1, hl, hd, _ => by
    have hnext : (h elem).next = some l.tail := by
      simpa using (show DList h l.head l.tail ((ks ++ [elem]) ++ []) by simpa using hl).linked_split.1
    refine ⟨h, by simp [uniqueLoop, listNext_eq, hnext], by simpa [uniqueFrom] using hl,
      fun d hd' => by simpa [uniqueFrom] using (hd d hd').1, Within.refl _ _⟩
  | m :: ns, ks, ds, elem, h, n + 1, hl, hd, hn => by
    have hl' : DList h l.head l.tail ((ks ++ [elem]) ++ m :: ns) := by simpa using hl
    have hnext : (h elem).next = some m := by simpa using hl'.linked_split.1
    have hcells : l.cells (ks ++ [elem] ++ m :: ns) = l.cells (ks ++ elem :: m :: ns) := by simp
    have hnd : (l.cells (ks ++ elem :: m :: ns)).Nodup := hl.nodup
    have hmt : m ≠ l.tail := fun h' => tail_not_mem hl.nodup (h' ▸ by simp)
    have hm : m ∈ l.cells (ks ++ elem :: m :: ns) := by simp [KList.cells]
    have hsub : l.cells (ks ++ elem :: ns) ⊆ l.cells (ks ++ elem :: m :: ns) :=
      List.Sublist.subset (by simp [KList.cells])
    have hmn : m ∉ l.cells (ks ++ elem :: ns) := by
      rw [show l.cells (ks ++ elem :: m :: ns) = (l.head :: ks ++ [elem]) ++ m :: (ns ++ [l.tail])
        by simp [KList.cells]] at hnd
      have := (List.nodup_cons.mp (List.nodup_middle.mp hnd)).1
      simpa [KList.cells] using this
    by_cases heq : (!less elem m && !less m elem) = true
    · obtain ⟨h₁, hrm, hl₁, -, hw₁⟩ := listRemove_spec hl'
      have hl₁' : DList h₁ l.head l.tail (ks ++ elem :: ns) := by simpa using hl₁
      rw [hcells] at hw₁
      have hfrom : uniqueFrom less elem (m :: ns) =
          ((uniqueFrom less elem ns).1, m :: (uniqueFrom less elem ns).2) := by
        simp [uniqueFrom, heq]
      rw [hfrom]
      rcases Option.eq_none_or_eq_some dups with hdup | ⟨d, hdup⟩
      · have hnone : ∀ d, d ∉ dups := by simp [hdup]
        obtain ⟨h', hrun, hl'', -, hw⟩ := uniqueLoop_spec ds hl₁'
          (fun d hd' => absurd hd' (hnone d)) (by simpa using hn)
        refine ⟨h', ?_, hl'', fun d hd' => absurd hd' (hnone d), ?_⟩
        · simp only [uniqueLoop, listNext_eq, hnext, if_neg hmt, heq, if_true, hrm, hdup]
          rw [hdup] at hrun
          exact hrun
        · simp only [hdup, Option.elim, List.append_nil] at hw ⊢
          exact hw₁.trans (hw.mono hsub)
      · obtain ⟨hdl, hdisj⟩ := hd d (hdup ▸ rfl)
        have hdl₁ : DList h₁ d.head d.tail ds := hdl.of_within hw₁ fun q hq => hdisj q hq
        obtain ⟨h₂, hpush, hd₂, hw₂⟩ := listPushBack_spec hdl₁ fun h' => hdisj m h' hm
        have hl₂ : DList h₂ l.head l.tail (ks ++ elem :: ns) := hl₁'.of_within hw₂ fun q hq hq' => by
          rcases List.mem_cons.mp hq' with rfl | hq'
          · exact hmn hq
          · exact hdisj q hq' (hsub hq)
        obtain ⟨h', hrun, hl'', hd'', hw⟩ := uniqueLoop_spec (ds ++ [m]) hl₂
          (fun d' hd' => by
            rw [hdup] at hd'
            obtain rfl := Option.mem_some_iff.mp hd'
            refine ⟨hd₂, fun q hq hq' => ?_⟩
            rcases KList.mem_cells_concat.mp hq with rfl | hq
            · exact hmn hq'
            · exact hdisj q hq (hsub hq'))
          (by simpa using hn)
        refine ⟨h', ?_, hl'', fun d' hd' => ?_, ?_⟩
        · simp only [uniqueLoop, listNext_eq, hnext, if_neg hmt, heq, if_true, hrm, hdup, hpush,
            Option.bind_some]
          rw [hdup] at hrun
          exact hrun
        · rw [hdup] at hd'
          obtain rfl := Option.mem_some_iff.mp hd'
          simpa using hd'' d (hdup ▸ rfl)
        · simp only [hdup, Option.elim] at hw ⊢
          refine (hw₁.mono (List.subset_append_left _ _)).trans ((hw₂.mono ?_).trans (hw.mono ?_))
          · intro q hq
            rcases List.mem_cons.mp hq with rfl | hq
            · exact List.mem_append_left _ hm
            · exact List.mem_append_right _ hq
          · intro q hq
            rcases List.mem_append.mp hq with hq | hq
            · exact List.mem_append_left _ (hsub hq)
            · rcases KList.mem_cells_concat.mp hq with rfl | hq
              · exact List.mem_append_left _ hm
              · exact List.mem_append_right _ hq
    · have hfrom : uniqueFrom less elem (m :: ns) =
          (m :: (uniqueFrom less m ns).1, (uniqueFrom less m ns).2) := by
        simp [uniqueFrom, heq]
      obtain ⟨h', hrun, hl'', hd'', hw⟩ := uniqueLoop_spec ds hl'
        (fun d hd' => ⟨(hd d hd').1, hcells ▸ (hd d hd').2⟩) (by simpa using hn)
      rw [hfrom]
      refine ⟨h', ?_, by simpa using hl'', hd'', hcells ▸ hw⟩
      simp only [uniqueLoop, listNext_eq, hnext, if_neg hmt, heq, Bool.false_eq_true, if_false]
      exact hrun

/-- `list_unique` keeps what `Kernel.List`'s `listUnique` keeps and appends the rest, in
order, to `duplicates` when that is given. -/
theorem listUnique_spec {h : Heap α} {xs : List α} (ds : List α) (hl : DList h l.head l.tail xs)
    (hd : ∀ d ∈ dups, DList h d.head d.tail ds ∧ ∀ q ∈ d.cells ds, q ∉ l.cells xs)
    {fuel : ℕ} (hf : xs.length < fuel) :
    ∃ h', ListHeap.listUnique fuel h l dups less = some h' ∧
      DList h' l.head l.tail (Pintos.listUnique less xs).1 ∧
      (∀ d ∈ dups, DList h' d.head d.tail (ds ++ (Pintos.listUnique less xs).2)) ∧
      Within (l.cells xs ++ dups.elim [] fun d => d.cells ds) h h' := by
  have hbegin : (h l.head).next = some ((xs ++ [l.tail]).head (by simp)) :=
    (show DList h l.head l.tail ([] ++ xs) from hl).linked_split.1
  cases xs with
  | nil =>
    exact ⟨h, by simp [ListHeap.listUnique, listEmpty, listBegin, hbegin], hl,
      fun d hd' => by simpa [Pintos.listUnique] using (hd d hd').1, Within.refl _ _⟩
  | cons x xs =>
    have hxt : x ≠ l.tail := fun h' => tail_not_mem hl.nodup (h' ▸ List.mem_cons_self)
    obtain ⟨h', hrun, hl', hd', hw⟩ :=
      uniqueLoop_spec less dups ds (show DList h l.head l.tail ([] ++ x :: xs) from hl) hd
        (Nat.lt_of_succ_lt hf)
    refine ⟨h', ?_, hl', hd', hw⟩
    simp only [ListHeap.listUnique, listEmpty, listBegin, hbegin, List.cons_append,
      List.head_cons, beq_iff_eq, Option.some.injEq, hxt, if_false, Option.bind_some]
    exact hrun

end Unique

/-- What the functions of `list.c` do to well-formed lists. Each leaves the lists it is given
well formed, acts on their element sequences as the function of `Kernel.List` does, and writes
no cell but those of its lists and the element it is given; so a list whose cells are not
among them stays as it was. The loops of `list_reverse`, `list_insert_ordered` and
`list_unique` are run with more fuel than the list has elements. -/
structure ListRefinement (α : Type*) [DecidableEq α] : Prop where
  init : ∀ (h : Heap α) (l : KList α), l.head ≠ l.tail →
    DList (listInit h l) l.head l.tail [] ∧ Within (l.cells []) h (listInit h l)
  insert : ∀ (h : Heap α) (l : KList α) (xs : List α) (before elem : α),
    DList h l.head l.tail xs → before ∈ xs ∨ before = l.tail → elem ∉ l.cells xs →
    ∃ h', listInsert h before elem = some h' ∧
      DList h' l.head l.tail (Pintos.listSplice before [elem] xs) ∧
      Within (elem :: l.cells xs) h h'
  remove : ∀ (h : Heap α) (l : KList α) (ys zs : List α) (elem : α),
    DList h l.head l.tail (ys ++ elem :: zs) →
    ∃ h', listRemove h elem = some (h', (zs ++ [l.tail]).head (by simp)) ∧
      DList h' l.head l.tail (Pintos.listRemove elem (ys ++ elem :: zs)) ∧ h' elem = h elem ∧
      Within (l.cells (ys ++ elem :: zs)) h h'
  pushFront : ∀ (h : Heap α) (l : KList α) (xs : List α) (elem : α),
    DList h l.head l.tail xs → elem ∉ l.cells xs →
    ∃ h', listPushFront h l elem = some h' ∧ DList h' l.head l.tail (elem :: xs) ∧
      Within (elem :: l.cells xs) h h'
  pushBack : ∀ (h : Heap α) (l : KList α) (xs : List α) (elem : α),
    DList h l.head l.tail xs → elem ∉ l.cells xs →
    ∃ h', listPushBack h l elem = some h' ∧ DList h' l.head l.tail (xs ++ [elem]) ∧
      Within (elem :: l.cells xs) h h'
  popFront : ∀ (h : Heap α) (l : KList α) (x : α) (rest : List α),
    DList h l.head l.tail (x :: rest) →
    ∃ h', listPopFront h l = some (h', x) ∧ DList h' l.head l.tail rest ∧
      Within (l.cells (x :: rest)) h h'
  popBack : ∀ (h : Heap α) (l : KList α) (x : α) (rest : List α),
    DList h l.head l.tail (rest ++ [x]) →
    ∃ h', listPopBack h l = some (h', x) ∧ DList h' l.head l.tail rest ∧
      Within (l.cells (rest ++ [x])) h h'
  splice : ∀ (h : Heap α) (l₁ l₂ : KList α) (as rs bs xs₂ : List α) (before : α),
    DList h l₁.head l₁.tail (as ++ rs ++ bs) → DList h l₂.head l₂.tail xs₂ →
    (∀ q ∈ l₁.cells (as ++ rs ++ bs), q ∉ l₂.cells xs₂) → before ∈ xs₂ ∨ before = l₂.tail →
    ∃ h', listSplice h before ((rs ++ bs ++ [l₁.tail]).head (by simp))
        ((bs ++ [l₁.tail]).head (by simp)) = some h' ∧
      DList h' l₁.head l₁.tail (as ++ bs) ∧
      DList h' l₂.head l₂.tail (Pintos.listSplice before rs xs₂) ∧
      Within (l₁.cells (as ++ rs ++ bs) ++ l₂.cells xs₂) h h'
  reverse : ∀ (h : Heap α) (l : KList α) (xs : List α) (fuel : ℕ),
    DList h l.head l.tail xs → xs.length < fuel →
    ∃ h', listReverse fuel h l = some h' ∧ DList h' l.head l.tail xs.reverse ∧
      Within (l.cells xs) h h'
  insertOrdered : ∀ (h : Heap α) (l : KList α) (xs : List α) (elem : α) (less : α → α → Bool)
    (fuel : ℕ), DList h l.head l.tail xs → elem ∉ l.cells xs → xs.length < fuel →
    ∃ h', ListHeap.listInsertOrdered fuel h l elem less = some h' ∧
      DList h' l.head l.tail (Pintos.listInsertOrdered less elem xs) ∧
      Within (elem :: l.cells xs) h h'
  sorted : ∀ (less : α → α → Bool), IsStrictWeakOrder α (fun a b => less a b = true) →
    ∀ (xs : List α) (elem : α), LessSorted less xs →
      LessSorted less (Pintos.listInsertOrdered less elem xs) ∧
      ∃ l₁ l₂, xs = l₁ ++ l₂ ∧ Pintos.listInsertOrdered less elem xs = l₁ ++ elem :: l₂ ∧
        (∀ e ∈ l₁, less elem e = false) ∧ ∀ e ∈ l₂, less elem e = true
  unique : ∀ (h : Heap α) (l : KList α) (dups : Option (KList α)) (xs ds : List α)
    (less : α → α → Bool) (fuel : ℕ), DList h l.head l.tail xs →
    (∀ d ∈ dups, DList h d.head d.tail ds ∧ ∀ q ∈ d.cells ds, q ∉ l.cells xs) →
    xs.length < fuel →
    ∃ h', ListHeap.listUnique fuel h l dups less = some h' ∧
      DList h' l.head l.tail (Pintos.listUnique less xs).1 ∧
      (∀ d ∈ dups, DList h' d.head d.tail (ds ++ (Pintos.listUnique less xs).2)) ∧
      Within (l.cells xs ++ dups.elim [] fun d => d.cells ds) h h'
  uniqueKeeps : ∀ (less : α → α → Bool) (xs : List α),
    ((Pintos.listUnique less xs).1 ++ (Pintos.listUnique less xs).2).Perm xs ∧
      (Pintos.listUnique less xs).1.IsChain fun a b => (!less a b && !less b a) = false

theorem list_refines_sequences (α : Type*) [DecidableEq α] : ListRefinement α where
  init h _ hne := listInit_spec h hne
  insert _ _ _ _ _ hl hb he := listInsert_spec hl hb he
  remove _ _ ys zs elem hl := by
    obtain ⟨h', hrun, hl', he, hw⟩ := listRemove_spec hl
    have hnd := (List.nodup_append.mp (List.nodup_cons.mp hl.nodup).2.of_append_left).2.2
    have hy : elem ∉ ys := fun hy => hnd elem hy elem List.mem_cons_self rfl
    exact ⟨h', hrun, by rwa [listRemove_append zs hy], he, hw⟩
  pushFront _ _ _ _ hl he := listPushFront_spec hl he
  pushBack _ _ _ _ hl he := listPushBack_spec hl he
  popFront _ _ _ _ hl := listPopFront_spec hl
  popBack _ _ _ _ hl := listPopBack_spec hl
  splice _ _ _ _ _ _ _ _ hl₁ hl₂ hdisj hb := listSplice_spec hl₁ hl₂ hdisj hb
  reverse _ _ _ _ hl hf := listReverse_spec hl hf
  insertOrdered _ _ _ elem less _ hl he hf := listInsertOrdered_spec less elem hl he hf
  sorted less _ _ elem hs := ⟨hs.listInsertOrdered elem, hs.listInsertOrdered_eq_append elem⟩
  unique _ _ dups _ ds less _ hl hd hf := listUnique_spec less dups ds hl hd hf
  uniqueKeeps less xs := ⟨listUnique_perm xs, isChain_listUnique xs⟩

end Pintos.ListHeap
