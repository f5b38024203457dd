import Determinator.Lib.Panic
import Determinator.Inc.Mmu

/-!
# Physical memory

The page allocator of `kern/mem.c` and the reference counts of `kern/mem.h`. The state `Mem` is
the contents of the physical pages and, of the `mem_pageinfo` array, the counts and the links of
the free list; a flag remembers whether the allocator has ever been out of pages. The fields a page
gets for remote references (`home`, `shared`) are not here: without remote sharing they are zero, and
`mem_decref` frees a page whose count drops to zero.

`Boot` is what the boot code leaves behind and nobody changes any more: the number of pages, the
pages of the kernel image, and the contents of the bootstrap page map from which new page maps are
made.
-/

namespace Determinator

/-- Why the kernel stops. -/
inductive Panic
  /-- A failed `assert`. -/
  | assert
  /-- `mem_free: attempt to free in-use page`. -/
  | freeInUse
  /-- `mem_free: attempt to free already free page!`. -/
  | freeFree
  /-- A trap in kernel mode that nobody handles. -/
  | trap
  /-- A table pointer into the middle of a page. -/
  | wild
  /-- A loop of the model out of fuel. -/
  | spin
  /-- A recursion over the levels of a page map goes on below the page tables. -/
  | level
  deriving DecidableEq

/-- The physical memory. -/
structure Mem where
  /-- The contents of each page. -/
  page : Frame → Page
  /-- `mem_pageinfo[i].refcount`. -/
  refcount : Frame → ℤ
  /-- `mem_pageinfo[i].free_next`. -/
  freeNext : Frame → Option Frame
  /-- `mem_freelist`. -/
  freelist : Option Frame
  /-- Of the record of the run: `mem_alloc` has found no page. -/
  dry : Bool

/-- Marks in the record of a run, at the places where the page-map code can go wrong. -/
inductive Note
  /-- A caller of `pmap_walk` or `pmap_walk_level` goes on although there was no page for a
  table. -/
  | ignored
  /-- `pmap_pagefault` copies a page through an address of the user area. -/
  | farCopy
  /-- `pmap_copy_level` goes down into a table of the destination that others use too. -/
  | sharedDest
  /-- `pmap_remove_level` goes down into a table that others use too. -/
  | staleW
  /-- `pmap_merge_level` goes down where the destination has no table, or above the page tables where
  the reference or the source has none. -/
  | missingTable
  /-- `pmap_merge_level` goes down into a table of the destination that others use too. -/
  | sharedMerge
  /-- What `pmap_merge_level` goes down for, or copies, does not end where the table of its beginning
  does. -/
  | overrun
  /-- `pmap_merge_level` copies an entry from an address in the middle of it. -/
  | unaligned
  /-- `pmap_merge_level` leaves out the beginning of the next entry. -/
  | skipped
  /-- `pmap_merge_level` copies an entry that ends behind the region. -/
  | beyond
  /-- `pmap_mergepage` on a zero mapping. -/
  | mergeZero
  deriving DecidableEq

/-- The kernel's computations over the physical memory. -/
abbrev Kern := PanicM Panic Note Mem

/-- An entry pointing to the zero page with no flags. -/
def zeroEntry (z : Frame) : Pte := .mk' z 0

/-- What the boot code leaves behind. -/
structure Boot where
  /-- `mem_npage`. -/
  npage : ℕ
  /-- The page of `pmap_zero`. -/
  zero : Frame
  /-- The pages of the link symbols `start` and `end - 1`. -/
  start : ℕ
  last : ℕ
  /-- The contents of `pmap_bootpmap` and of the table its entry `0` points to. -/
  bootpmap : Page
  bootpdp : Page
  /-- The pages `mem_init` puts on the free list, less the ones the bootstrap page map takes. -/
  avail : Set Frame
  /-- Physical memory fits in the 512GB above `VM_KERNLO`. -/
  npage_le : npage ≤ 2 ^ 27
  avail_range : ∀ f ∈ avail, 1 < f.toNat ∧ f.toNat < npage
  zero_ne : zero ≠ 0
  zero_avail : zero ∉ avail
  /-- The user part of the bootstrap page map is empty. -/
  bootpmap_user : ∀ i : Fin nptEntries, 1 ≤ i.val → i.val < 256 → bootpmap i = zeroEntry zero
  bootpdp_user : ∀ i : Fin nptEntries, 1 ≤ i.val → bootpdp i = zeroEntry zero

/-- The index of the pageinfo that `mem_ptr2pi` computes from an address of the kernel image. The
image is linked at its physical addresses, below `VM_KERNLO`, so subtracting `VM_KERNLO` adds
512GB. -/
def linkIndex (page : ℕ) : ℕ := page + 2 ^ 27

namespace Mem

/-- Replace the contents of a page. -/
def setPage (s : Mem) (f : Frame) (pg : Page) : Mem :=
  { s with page := Function.update s.page f pg }

/-- Set a reference count. -/
def setRef (s : Mem) (f : Frame) (n : ℤ) : Mem :=
  { s with refcount := Function.update s.refcount f n }

/-- The word `i` entries after the beginning of page `t`, which is in a later page when `i` is
512 or more. -/
def entry (s : Mem) (t : Frame) (i : ℕ) : Pte :=
  s.page (t + BitVec.ofNat 40 (i / nptEntries)) (Fin.ofNat nptEntries i)

/-- Replace that word. -/
def setEntry (s : Mem) (t : Frame) (i : ℕ) (e : Pte) : Mem :=
  let f := t + BitVec.ofNat 40 (i / nptEntries)
  s.setPage f (Function.update (s.page f) (Fin.ofNat nptEntries i) e)

end Mem

/-! ## Entries -/

section

variable {s : Mem} {t u f : Frame} {i j : ℕ} {e : Pte}

theorem entry_page (hi : i < 512) : s.entry t i = s.page t (Fin.ofNat 512 i) := by
  unfold Mem.entry
  rw [Nat.div_eq_of_lt hi]
  simp

theorem entry_congr {s' : Mem} (hi : i < 512) (h : s'.page f = s.page f) :
    s'.entry f i = s.entry f i := by
  rw [entry_page hi, entry_page hi, h]

theorem setEntry_page (hi : i < 512) :
    s.setEntry t i e
      = s.setPage t (Function.update (s.page t) (Fin.ofNat 512 i) e) := by
  unfold Mem.setEntry
  rw [Nat.div_eq_of_lt hi]
  simp

theorem fin_ofNat_inj (hi : i < 512) (hj : j < 512)
    (h : Fin.ofNat 512 i = Fin.ofNat 512 j) : i = j := by
  have := congrArg Fin.val h
  simpa [Fin.ofNat, Nat.mod_eq_of_lt hi, Nat.mod_eq_of_lt hj] using this

@[simp] theorem setEntry_entry_self (hi : i < 512) : (s.setEntry t i e).entry t i = e := by
  rw [setEntry_page hi, entry_page hi]
  simp [Mem.setPage]

theorem setEntry_entry_ne (hi : i < 512) (hj : j < 512) (h : u ≠ t ∨ j ≠ i) :
    (s.setEntry t i e).entry u j = s.entry u j := by
  rw [setEntry_page hi, entry_page hj, entry_page hj]
  by_cases hu : u = t
  · subst hu
    have hne : Fin.ofNat 512 j ≠ Fin.ofNat 512 i :=
      fun e => h.elim (fun h => h rfl) fun h => h (fin_ofNat_inj hj hi e)
    simp only [Mem.setPage, Function.update_self]
    rw [Function.update_of_ne hne]
  · simp [Mem.setPage, Function.update_of_ne hu]

theorem setPage_entry_ne {pg : Page} (hj : j < 512) (h : u ≠ f) :
    (s.setPage f pg).entry u j = s.entry u j := by
  rw [entry_page hj, entry_page hj]
  simp [Mem.setPage, Function.update_of_ne h]

theorem setPage_entry_self {pg : Page} (hj : j < 512) :
    (s.setPage f pg).entry f j = pg (Fin.ofNat 512 j) := by
  rw [entry_page hj]
  simp [Mem.setPage]

theorem setEntry_page_ne (hi : i < 512) (h : u ≠ t) :
    (s.setEntry t i e).page u = s.page u := by
  rw [setEntry_page hi]
  simp [Mem.setPage, Function.update_of_ne h]

end

/-! ## The page allocator -/

open PanicM

/-- Read an entry. -/
def readEntry (t : Frame) (i : ℕ) : Kern Pte := do
  let s ← get
  pure (s.entry t i)

/-- Write an entry. -/
def writeEntry (t : Frame) (i : ℕ) (e : Pte) : Kern Unit := modify fun s => s.setEntry t i e

/-- Write a whole page. -/
def writePage (f : Frame) (pg : Page) : Kern Unit := modify fun s => s.setPage f pg

/-- The state after the first page has been taken from the free list. -/
def Mem.taken (s : Mem) (f : Frame) : Mem :=
  { s with freelist := s.freeNext f, freeNext := Function.update s.freeNext f none }

/-- The state after a page has been put on the free list. -/
def Mem.given (s : Mem) (f : Frame) : Mem :=
  { s with freeNext := Function.update s.freeNext f s.freelist, freelist := some f }

/-- `mem_alloc`: take the page at the head of the free list; `none` when there is none. -/
def memAlloc : Kern (Option Frame) := do
  let s ← get
  match s.freelist with
  | none =>
    modify fun s => { s with dry := true }
    pure none
  | some pi =>
    modify fun s => s.taken pi
    pure (some pi)

/-- `mem_free`: put a page at the head of the free list. -/
def memFree (pi : Frame) : Kern Unit := do
  let s ← get
  check (s.refcount pi = 0) .freeInUse
  check (s.freeNext pi = none) .freeFree
  modify fun s => s.given pi

theorem memAlloc_none {m : Mem} (h : m.freelist = none) :
    memAlloc m = ⟨.ok none, { m with dry := true }, []⟩ := by
  simp [memAlloc, PanicM.get, Bind.bind, PanicM.bind, h, PanicM.modify, pure]

theorem memAlloc_some {m : Mem} {pi : Frame} (h : m.freelist = some pi) :
    memAlloc m = ⟨.ok (some pi), m.taken pi, []⟩ := by
  simp [memAlloc, PanicM.get, Bind.bind, PanicM.bind, h, PanicM.modify, pure]

theorem memFree_linked {m : Mem} {pi : Frame} (hr : m.refcount pi = 0) (h : m.freeNext pi ≠ none) :
    memFree pi m = ⟨.error .freeFree, m, []⟩ := by
  simp [memFree, PanicM.get, Bind.bind, PanicM.bind, PanicM.check, hr, h, PanicM.panic, pure]

theorem memFree_unlinked {m : Mem} {pi : Frame} (hr : m.refcount pi = 0)
    (h : m.freeNext pi = none) : memFree pi m = ⟨.ok (), m.given pi, []⟩ := by
  simp [memFree, PanicM.get, Bind.bind, PanicM.bind, PanicM.check, hr, h, PanicM.modify, pure]

section

variable {N : Set Note} {s : Mem} {E : Panic → Mem → Prop}

theorem ends_memAlloc {Q : Option Frame → Mem → Prop} (hn : s.freelist = none →
    Q none { s with dry := true }) (hs : ∀ pi, s.freelist = some pi → Q (some pi) (s.taken pi)) :
    Ends N memAlloc s Q E := by
  cases h : s.freelist with
  | none =>
    refine ⟨fun _ => ?_⟩
    rw [memAlloc_none h]
    exact hn h
  | some pi =>
    refine ⟨fun _ => ?_⟩
    rw [memAlloc_some h]
    exact hs pi h

theorem ends_memFree {pi : Frame} {Q : Unit → Mem → Prop} (hr : s.refcount pi = 0)
    (hn : s.freeNext pi = none) (h : Q () (s.given pi)) : Ends N (memFree pi) s Q E := by
  refine ⟨fun _ => ?_⟩
  rw [memFree_unlinked hr hn]
  exact h

end

variable (b : Boot)

/-- The assertions at the head of `mem_incref` and `mem_decref`. -/
def memAsserts (pi : Frame) : Kern Unit := do
  check (1 < pi.toNat ∧ pi.toNat < b.npage) .assert
  check (pi.toNat ≠ linkIndex b.zero.toNat) .assert
  check (pi.toNat < linkIndex b.start ∨ linkIndex b.last < pi.toNat) .assert

/-- `mem_incref`. -/
def memIncref (pi : Frame) : Kern Unit := do
  memAsserts b pi
  modify fun s => s.setRef pi (s.refcount pi + 1)

/-- `mem_decref`: give up a reference; `freefun` frees the page after the last one. -/
def memDecref (pi : Frame) (freefun : Frame → Kern Unit) : Kern Unit := do
  memAsserts b pi
  modify fun s => s.setRef pi (s.refcount pi - 1)
  let s ← get
  if s.refcount pi = 0 then freefun pi
  let s ← get
  check (0 ≤ s.refcount pi) .assert

end Determinator
