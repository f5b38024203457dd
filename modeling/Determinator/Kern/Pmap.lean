import Determinator.Kern.Mem

/-!
# Page maps

`kern/pmap.c`. A pointer to an entry is the page of its table and an index, which may run over the
end of the table as the pointer of the source may. The loops over a region are `whileM` loops with
the size of the region as fuel, and the functions with a level parameter recur on it; the part of
such a function that is the same at all levels takes the function of the level below as a
parameter. `pmap_inval` only concerns the TLB and is left out.

The notes mark the places where the code can go wrong. They have no effect.
-/

namespace Determinator

open PanicM

/-- The flags of an entry that points to a table. -/
def tableFlags : BitVec 12 := pteA ||| pteP ||| pteW ||| pteU

/-- The flags of a page made by a fault or a merge. -/
def ownedFlags : BitVec 12 := sysRW ||| pteA ||| pteD ||| pteW ||| pteU ||| pteP

@[simp] theorem tableFlags_isW (f : Frame) : (Pte.mk' f tableFlags).isW = true := by
  change tableFlags.getLsbD 1 = true
  decide

@[simp] theorem tableFlags_isP (f : Frame) : (Pte.mk' f tableFlags).isP = true := by
  change tableFlags.getLsbD 0 = true
  decide

variable (b : Boot)

/-- `PTE_ZERO`. -/
def pteZero : Pte := zeroEntry b.zero

@[simp] theorem pteZero_frame : (pteZero b).frame = b.zero := rfl

@[simp] theorem pteZero_isW : (pteZero b).isW = false := by
  change (0 : BitVec 12).getLsbD 1 = false
  decide

@[simp] theorem pteZero_isP : (pteZero b).isP = false := by
  change (0 : BitVec 12).getLsbD 0 = false
  decide

@[simp] theorem pteZero_clearW : (pteZero b).clearW = pteZero b := by
  simp [pteZero, zeroEntry, Pte.clearW, Pte.mk']

@[simp] theorem pteZero_perm : (pteZero b).perm = 0 := by
  simp [pteZero, zeroEntry, Pte.perm, Pte.mk']

/-! ## New page maps -/

/-- `PML4SELFOFFSET`. -/
def pml4SelfOffset : Fin nptEntries := 0x1bf

/-- `mem_alloc`, where the source asserts that there is a page. -/
def memAllocOk : Kern Frame := do
  match ← memAlloc with
  | none => panic .assert
  | some pi => pure pi

/-- `pmap_newpmap`. -/
def pmapNewpmap : Kern Frame := do
  let pml4 ← memAllocOk
  memIncref b pml4
  let pdp ← memAllocOk
  memIncref b pdp
  writePage pml4 (Function.update (Function.update b.bootpmap 0 (.mk' pdp tableFlags))
    pml4SelfOffset (.mk' pml4 (pteP ||| pteW)))
  writePage pdp b.bootpdp
  pure pml4

/-! ## Freeing -/

/-- Give up the pages a table points to, and free the table. -/
def freeTable (freefun : Frame → Kern Unit) (t : Frame) : Kern Unit := do
  each (fun i => do
    let e ← readEntry t i
    if e.frame ≠ b.zero then memDecref b e.frame freefun) (List.range nptEntries)
  memFree t

/-- `pmap_freept`. -/
def pmapFreept : Frame → Kern Unit := freeTable b memFree

/-- `pmap_freepd`. -/
def pmapFreepd : Frame → Kern Unit := freeTable b (pmapFreept b)

/-- `pmap_freepdp`. -/
def pmapFreepdp : Frame → Kern Unit := freeTable b (pmapFreepd b)

/-- What frees the thing an entry of a level-`n` table points to: `mem_free` for a page, and
`pmap_freefun[n - 1]` for a table. -/
def pmapFreefun : ℕ → Frame → Kern Unit
  | 0 => memFree
  | 1 => pmapFreept b
  | 2 => pmapFreepd b
  | _ => pmapFreepdp b

/-! ## Walking -/

/-- The first part of `pmap_walk_level`: find the lower table, or make an empty one. -/
def walkLower (t : Frame) (i : ℕ) (writing : Bool) : Kern Bool := do
  let e ← readEntry t i
  if e.frame ≠ b.zero then
    writeEntry t i (e.or pteP)
    pure true
  else if !writing then pure false
  else
    match ← memAlloc with
    | none => pure false
    | some pi =>
      memIncref b pi
      writePage pi fun _ => pteZero b
      writeEntry t i (.mk' pi tableFlags)
      pure true

/-- Copy a lower table that is shared: the pages below get one more reference each. -/
def copyTable (pi low : Frame) : Kern Unit :=
  each (fun j => do
    let e ← readEntry low j
    writeEntry pi j e.clearW
    check (e.frame ≠ 0) .assert
    if e.frame ≠ b.zero then memIncref b e.frame) (List.range nptEntries)

/-- The second part of `pmap_walk_level`: make sure that the lower table is not shared. -/
def walkUnshare (level : ℕ) (t : Frame) (i : ℕ) : Kern Bool := do
  let e ← readEntry t i
  let low := e.frame
  if e.isW then pure true
  else
    let s ← get
    if s.refcount low = 1 then
      writePage low fun j => (s.page low j).clearW
      writeEntry t i (.mk' low tableFlags)
      pure true
    else
      match ← memAlloc with
      | none => pure false
      | some pi =>
        memIncref b pi
        copyTable b pi low
        memDecref b low (pmapFreefun b level)
        writeEntry t i (.mk' pi tableFlags)
        pure true

/-- `pmap_walk_level`. -/
def pmapWalkLevel : ℕ → Frame → ℕ → Bool → Kern (Option (Frame × ℕ))
  | 0, _, _, _ => panic .assert
  | level + 1, t, la, writing => do
    let i := pdx (level + 1) la
    if !(← walkLower b t i writing) then pure none
    else if !(← if writing then walkUnshare b (level + 1) t i else pure true) then pure none
    else
      let e ← readEntry t i
      if level = 0 then pure (some (e.frame, pdx 0 la))
      else pmapWalkLevel level e.frame la writing

/-- `pmap_walk`. -/
def pmapWalk (pml4 : Frame) (va : ℕ) (writing : Bool) : Kern (Option (Frame × ℕ)) := do
  check (vmUserLo ≤ va ∧ va < vmUserHi) .assert
  pmapWalkLevel b nptLvls pml4 va writing

/-- `pmap_insert`. -/
def pmapInsert (pml4 pi : Frame) (va : ℕ) (perm : BitVec 12) : Kern (Option (Frame × ℕ)) := do
  match ← pmapWalk b pml4 va true with
  | none => pure none
  | some (t, i) =>
    memIncref b pi
    let e ← readEntry t i
    if e.frame ≠ b.zero then memDecref b e.frame memFree
    writeEntry t i (.mk' pi (perm ||| pteP))
    pure (some (t, i))

/-! ## Removing -/

/-- One round of the loop of `pmap_remove_level`, for the entry `i` of `t`. -/
def removeEntry (lower : Frame → ℕ → ℕ → Kern ℕ) (level : ℕ) (t : Frame) (vahi va i : ℕ) :
    Kern ℕ := do
  let e ← readEntry t i
  if e.frame = b.zero then pure (pdAddr level (va + pdSize level))
  else if pdOff level va = 0 ∧ pdSize level ≤ vahi - va then
    memDecref b e.frame (pmapFreefun b level)
    writeEntry t i (pteZero b)
    pure (va + pdSize level)
  else
    let s ← get
    noteIf (e.isW ∧ s.refcount e.frame ≠ 1) .staleW
    let r ← pmapWalkLevel b level t va true
    noteIf (r = none) .ignored
    let lvahi := min (pdAddr level va + pdSize level) vahi
    let e ← readEntry t i
    let _ ← lower e.frame va lvahi
    pure lvahi

/-- The loop of `pmap_remove_level`. -/
def removeLoop (lower : Frame → ℕ → ℕ → Kern ℕ) (level : ℕ) (t : Frame) (va vahi : ℕ) :
    Kern ℕ := do
  let x ← whileM .spin (fun x : ℕ × ℕ => x.1 < vahi)
    (fun x => do
      let va ← removeEntry b lower level t vahi x.1 x.2
      pure (va, x.2 + 1))
    (vahi - va) (va, pdx level va)
  pure x.1

/-- `pmap_remove_level`. -/
def pmapRemoveLevel : ℕ → Frame → ℕ → ℕ → Kern ℕ
  | 0 => removeLoop b (fun _ _ _ => panic .assert) 0
  | level + 1 => removeLoop b (pmapRemoveLevel level) (level + 1)

/-- `pmap_remove`. -/
def pmapRemove (pml4 : Frame) (va size : ℕ) : Kern Unit := do
  check (size % pageSize = 0) .assert
  check (vmUserLo ≤ va ∧ va < vmUserHi) .assert
  check (size ≤ vmUserHi - va) .assert
  let _ ← whileM .spin (fun x => x < va + size)
    (fun x => pmapRemoveLevel b nptLvls pml4 x (va + size)) size va

/-- `pmap_freepmap`. -/
def pmapFreepmap (pml4pi : Frame) : Kern Unit := do
  pmapRemove b pml4pi vmUserLo (vmUserHi - vmUserLo)
  memFree pml4pi

/-! ## Copying -/

/-- The address of the source, its index, the address of the destination and its index. -/
structure CopyAt where
  sva : ℕ
  si : ℕ
  dva : ℕ
  di : ℕ

/-- Share the whole entry. -/
def copyShare (level : ℕ) (st dt : Frame) (x : CopyAt) : Kern Unit := do
  let d ← readEntry dt x.di
  if d.frame ≠ b.zero then
    let _ ← pmapRemoveLevel b level dt x.dva (x.dva + pdSize level)
  let d ← readEntry dt x.di
  check (d.frame = b.zero) .assert
  let e ← readEntry st x.si
  writeEntry st x.si e.clearW
  let e ← readEntry st x.si
  writeEntry dt x.di e
  let e ← readEntry st x.si
  if e.frame ≠ b.zero then memIncref b e.frame

/-- Copy the part of the entry that starts at `x` and has `size` bytes. -/
def copyPart (lower : Frame → ℕ → Frame → ℕ → ℕ → Kern Unit) (level : ℕ) (st dt : Frame)
    (x : CopyAt) (size : ℕ) : Kern Unit := do
  let e ← readEntry st x.si
  if e.frame = b.zero then
    let _ ← pmapRemoveLevel b level dt x.dva (x.dva + size)
  else
    let d ← readEntry dt x.di
    if d.frame = b.zero then
      let r ← pmapWalkLevel b level dt x.dva true
      let d ← readEntry dt x.di
      noteIf (r = none ∧ d.frame ≠ b.zero) .ignored
    let d ← readEntry dt x.di
    check (d.frame ≠ b.zero) .assert
    let s ← get
    noteIf (s.refcount d.frame ≠ 1) .sharedDest
    let e ← readEntry st x.si
    lower e.frame x.sva d.frame x.dva (x.sva + size)

/-- The part of an entry that can be copied at once. -/
def copySize (level : ℕ) (x : CopyAt) (svahi : ℕ) : ℕ :=
  min (pdSize level - max (pdOff level x.sva) (pdOff level x.dva)) (svahi - x.sva)

/-- Move on by `size` bytes, to the next entry of a table if its address is aligned. -/
def CopyAt.advance (x : CopyAt) (level size : ℕ) : CopyAt where
  sva := x.sva + size
  si := if pdOff level (x.sva + size) = 0 then x.si + 1 else x.si
  dva := x.dva + size
  di := if pdOff level (x.dva + size) = 0 then x.di + 1 else x.di

/-- One round of the loop of `pmap_copy_level`. -/
def copyEntry (lower : Frame → ℕ → Frame → ℕ → ℕ → Kern Unit) (level : ℕ) (st dt : Frame)
    (svahi : ℕ) (x : CopyAt) : Kern CopyAt := do
  if pdOff level x.sva = 0 ∧ pdOff level x.dva = 0 ∧ pdSize level ≤ svahi - x.sva then
    copyShare b level st dt x
    pure ⟨x.sva + pdSize level, x.si + 1, x.dva + pdSize level, x.di + 1⟩
  else
    let size := copySize level x svahi
    copyPart b lower level st dt x size
    pure (x.advance level size)

/-- The loop of `pmap_copy_level`. -/
def copyLoop (lower : Frame → ℕ → Frame → ℕ → ℕ → Kern Unit) (level : ℕ) (st : Frame) (sva : ℕ)
    (dt : Frame) (dva svahi : ℕ) : Kern Unit := do
  let _ ← whileM .spin (fun x : CopyAt => x.sva < svahi) (copyEntry b lower level st dt svahi)
    (svahi - sva) ⟨sva, pdx level sva, dva, pdx level dva⟩

/-- `pmap_copy_level`. -/
def pmapCopyLevel : ℕ → Frame → ℕ → Frame → ℕ → ℕ → Kern Unit
  | 0 => copyLoop b (fun _ _ _ _ _ => panic .assert) 0
  | level + 1 => copyLoop b (pmapCopyLevel level) (level + 1)

/-- The assertions at the head of `pmap_copy` and `pmap_merge`. -/
def regionAsserts (sva dva size : ℕ) : Kern Unit := do
  check (pdOff 0 sva = 0) .assert
  check (pdOff 0 dva = 0) .assert
  check (pdOff 0 size = 0) .assert
  check (vmUserLo ≤ sva ∧ sva < vmUserHi) .assert
  check (vmUserLo ≤ dva ∧ dva < vmUserHi) .assert
  check (size ≤ vmUserHi - sva) .assert
  check (size ≤ vmUserHi - dva) .assert

/-- `pmap_copy`. -/
def pmapCopy (spml4 : Frame) (sva : ℕ) (dpml4 : Frame) (dva size : ℕ) : Kern Unit := do
  regionAsserts sva dva size
  pmapCopyLevel b nptLvls spml4 sva dpml4 dva (sva + size)

/-! ## Page faults -/

/-- The page an access of the kernel to a user address goes to: all entries on the way are present,
and for a write all of them are writeable. -/
def translate (s : Mem) (va : ℕ) (write : Bool) : ℕ → Frame → Option Frame
  | 0, t =>
    let e := s.entry t (pdx 0 va)
    if e.isP && (e.isW || !write) then some e.frame else none
  | level + 1, t =>
    let e := s.entry t (pdx (level + 1) va)
    if e.isP && (e.isW || !write) then translate s va write level e.frame else none

/-- The page that the kernel reads at the physical address of `f`. Below `VM_USERLO` physical
addresses are mapped to themselves; above, they are addresses of the current process. -/
def readThrough (pml4 f : Frame) : Kern Frame := do
  let va := f.toNat * pageSize
  if va < vmUserLo then pure f
  else
    let s ← get
    match translate s va false nptLvls pml4 with
    | some g => pure g
    | none => panic .trap

/-- The page that the kernel writes at the physical address of `f`; `fault` is the page fault
handler. -/
def writeThrough (fault : ℕ → Kern Bool) (pml4 f : Frame) : Kern Frame := do
  let va := f.toNat * pageSize
  if va < vmUserLo then pure f
  else
    let s ← get
    match translate s va true nptLvls pml4 with
    | some g => pure g
    | none =>
      if ← fault va then
        let s ← get
        match translate s va true nptLvls pml4 with
        | some g => pure g
        | none => panic .trap
      else panic .trap

/-- `memmove((void*)npg, (void*)pg, PAGESIZE)`, with physical addresses. -/
def copyPhys (fault : ℕ → Kern Bool) (pml4 npg pg : Frame) : Kern Unit := do
  noteIf (vmUserLo ≤ npg.toNat * pageSize ∨ vmUserLo ≤ pg.toNat * pageSize) .farCopy
  let src ← readThrough pml4 pg
  let dst ← writeThrough fault pml4 npg
  let s ← get
  writePage dst (s.page src)

/-- The tables on the way to `fva` are all present. -/
def tablesPresent (s : Mem) (fva : ℕ) : ℕ → Frame → Bool
  | 0, _ => true
  | level + 1, t =>
    let e := s.entry t (pdx (level + 1) fva)
    e.isP && tablesPresent s fva level e.frame

/-- The end of `pmap_pagefault`: give the process a page of its own. -/
def faultPage (fault : ℕ → Kern Bool) (pml4 t : Frame) (i : ℕ) (pg : Frame) : Kern Unit := do
  let s ← get
  if pg = b.zero ∨ 1 < s.refcount pg then
    let npi ← memAllocOk
    memIncref b npi
    copyPhys fault pml4 npi pg
    if pg ≠ b.zero then memDecref b pg memFree
    writeEntry t i (.mk' npi ownedFlags)
  else writeEntry t i (.mk' pg ownedFlags)

/-- `pmap_pagefault`, for an access to `fva` by the process with page map `pml4`; whether the fault
is resolved. The copy of the page may fault itself, and the fuel bounds how deep. When there is no
page for a table, the source goes on with the entry at the physical address `0`. -/
def pmapPagefault : ℕ → Frame → ℕ → Bool → Kern Bool
  | 0, _, _, _ => panic .spin
  | n + 1, pml4, fva, write => do
    if fva < vmUserLo ∨ vmUserHi ≤ fva ∨ write = false then pure false
    else
      let s ← get
      if !tablesPresent s fva nptLvls pml4 then pure false
      else
        let r ← pmapWalk b pml4 fva true
        noteIf (r = none) .ignored
        let (t, i) := r.getD (0, 0)
        let e ← readEntry t i
        if e.flags &&& (sysRW ||| pteP) ≠ sysRW ||| pteP then pure false
        else
          check (e.isW = false) .assert
          faultPage b (fun va => pmapPagefault n pml4 va true) pml4 t i e.frame
          pure true

/-! ## Merging -/

/-- Merge the bytes of a page from index `i` on: the merged page, or `none` at a conflict. -/
def mergeBytes (r s : Page) : ℕ → ℕ → Page → Page × Bool
  | 0, _, d => (d, true)
  | n + 1, i, d =>
    if s.byte i = r.byte i then mergeBytes r s n (i + 1) d
    else if d.byte i = r.byte i then mergeBytes r s n (i + 1) (d.setByte i (s.byte i))
    else (d, false)

/-- The first part of `pmap_mergepage`: the page of the destination, made its own. -/
def mergeOwn (dt : Frame) (di : ℕ) : Kern Frame := do
  let d ← readEntry dt di
  let s ← get
  noteIf (d.frame = b.zero) .mergeZero
  if d.frame = b.zero ∨ 1 < s.refcount d.frame then
    let npi ← memAllocOk
    memIncref b npi
    writePage npi (s.page d.frame)
    -- the source compares a pointer with a physical address, and finds them different
    memDecref b d.frame memFree
    writeEntry dt di (.mk' npi ownedFlags)
    pure npi
  else pure d.frame

/-- `pmap_mergepage`. -/
def pmapMergepage (r e : Pte) (dt : Frame) (di : ℕ) : Kern Unit := do
  let dpg ← mergeOwn b dt di
  let s ← get
  let m := mergeBytes (s.page r.frame) (s.page e.frame) pageSize 0 (s.page dpg)
  writePage dpg m.1
  if !m.2 then
    let d ← readEntry dt di
    memDecref b d.frame memFree
    writeEntry dt di (pteZero b)

/-- The addresses and the indices of a merge; reference and source have the same ones. -/
structure MergeAt where
  sva : ℕ
  si : ℕ
  dva : ℕ
  di : ℕ

/-- The end of the user addresses that the level-`level` table for `va` is for. -/
def tableEnd (level va : ℕ) : ℕ := min (pdAddr (level + 1) va + pdSize (level + 1)) vmUserHi

/-- The destination address of the last round over the source addresses from `sva` to `svahi`. -/
def lastDva (level sva dva svahi : ℕ) : ℕ := dva + (svahi - sva - 1) / pdSize level * pdSize level

/-- A computation to run at every round of a merge, given the level, the three tables and where the
merge is in them. It is there for what is said of the rounds; `pmap_merge` has none. -/
abbrev Look := ℕ → Frame → Frame → Frame → MergeAt → Kern Unit

/-- One round of the loop of `pmap_merge_level`. -/
def mergeEntry (look : Look) (lower : Frame → Frame → ℕ → Frame → ℕ → ℕ → Kern Unit) (level : ℕ)
    (rt st dt : Frame) (svahi : ℕ) (x : MergeAt) : Kern MergeAt := do
  look level rt st dt x
  noteIf (pdOff level x.sva ≠ 0 ∧ pdAddr level x.sva + pdSize level < svahi) .skipped
  let r ← readEntry rt x.si
  let e ← readEntry st x.si
  let d ← readEntry dt x.di
  if e = r then pure ()
  else if d = r then
    noteIf (pdOff level x.sva ≠ 0 ∨ pdOff level x.dva ≠ 0) .unaligned
    noteIf (svahi < x.sva + pdSize level) .beyond
    noteIf (tableEnd level x.sva < x.sva + pdSize level ∨
      tableEnd level x.dva < x.dva + pdSize level) .overrun
    pmapCopyLevel b level st x.sva dt x.dva (x.sva + pdSize level)
  else if 0 < level then
    let lsvahi := min (pdAddr level x.sva + pdSize level) svahi
    noteIf (d.frame = b.zero ∨ 1 < level ∧ (r.frame = b.zero ∨ e.frame = b.zero)) .missingTable
    noteIf (tableEnd (level - 1) x.dva ≤ lastDva (level - 1) x.sva x.dva lsvahi) .overrun
    let s ← get
    noteIf (s.refcount d.frame ≠ 1) .sharedMerge
    -- a missing table is the zero page here: `PTE_ADDR` of its pointer is not `PTE_ZERO`
    lower r.frame e.frame x.sva d.frame x.dva lsvahi
  else pmapMergepage b r e dt x.di
  pure ⟨x.sva + pdSize level, x.si + 1, x.dva + pdSize level, x.di + 1⟩

/-- The loop of `pmap_merge_level`. -/
def mergeLoop (look : Look) (lower : Frame → Frame → ℕ → Frame → ℕ → ℕ → Kern Unit) (level : ℕ)
    (rt st : Frame) (sva : ℕ) (dt : Frame) (dva svahi : ℕ) : Kern Unit := do
  let _ ← whileM .spin (fun x : MergeAt => x.sva < svahi)
    (mergeEntry b look lower level rt st dt svahi) (svahi - sva) ⟨sva, pdx level sva, dva, pdx level dva⟩

/-- `pmap_merge_level`. -/
def pmapMergeLevel (look : Look) : ℕ → Frame → Frame → ℕ → Frame → ℕ → ℕ → Kern Unit
  | 0 => mergeLoop b look (fun _ _ _ _ _ _ => panic .assert) 0
  | level + 1 => mergeLoop b look (pmapMergeLevel look level) (level + 1)

/-- `pmap_merge`, with a computation that is run at every round. -/
def pmapMergeLook (look : Look) (rpml4 spml4 : Frame) (sva : ℕ) (dpml4 : Frame) (dva size : ℕ) :
    Kern Unit := do
  regionAsserts sva dva size
  pmapMergeLevel b look nptLvls rpml4 spml4 sva dpml4 dva (sva + size)

/-- `pmap_merge`. -/
def pmapMerge (rpml4 spml4 : Frame) (sva : ℕ) (dpml4 : Frame) (dva size : ℕ) : Kern Unit :=
  pmapMergeLook b (fun _ _ _ _ _ => pure ()) rpml4 spml4 sva dpml4 dva size

/-! ## Permissions -/

/-- One round of the loop of `pmap_setperm_level`. -/
def setpermEntry (lower : Frame → ℕ → ℕ → Kern Unit) (level : ℕ) (t : Frame)
    (pteand pteor : BitVec 12) (vahi va : ℕ) : Kern ℕ := do
  let i := pdx level va
  let e ← readEntry t i
  if e.frame = b.zero ∧ pteor = 0 then pure (pdAddr level va + pdSize level)
  else
    if 0 < level then
      let r ← pmapWalkLevel b level t va true
      noteIf (r = none) .ignored
    if pdOff level va = 0 ∧ pdSize level ≤ vahi - va then
      if level = 0 then
        let e ← readEntry t i
        writeEntry t i { e with flags := e.flags &&& pteand ||| pteor }
      else
        let e ← readEntry t i
        lower e.frame va (va + pdSize level)
      pure (va + pdSize level)
    else
      let lvahi := min (pdAddr level va + pdSize level) vahi
      let e ← readEntry t i
      lower e.frame va lvahi
      pure lvahi

/-- The loop of `pmap_setperm_level`. -/
def setpermLoop (lower : Frame → ℕ → ℕ → Kern Unit) (level : ℕ) (pteand pteor : BitVec 12)
    (t : Frame) (va vahi : ℕ) : Kern Unit := do
  let _ ← whileM .spin (fun x => x < vahi) (setpermEntry b lower level t pteand pteor vahi)
    (vahi - va) va

/-- `pmap_setperm_level`. -/
def pmapSetpermLevel (pteand pteor : BitVec 12) : ℕ → Frame → ℕ → ℕ → Kern Unit
  | 0 => setpermLoop b (fun _ _ _ => panic .assert) 0 pteand pteor
  | level + 1 => setpermLoop b (pmapSetpermLevel pteand pteor level) (level + 1) pteand pteor

/-- The bits to keep and the bits to set. -/
def permMasks (perm : BitVec 12) : BitVec 12 × BitVec 12 :=
  if perm &&& sysRead = 0 then (~~~(sysRW ||| pteW ||| pteP), 0)
  else if perm &&& sysWrite = 0 then
    (~~~(sysWrite ||| pteW), sysRead ||| pteU ||| pteP ||| pteA)
  else (~~~0, sysRW ||| pteU ||| pteP ||| pteA ||| pteD)

/-- `pmap_setperm`. -/
def pmapSetperm (pml4 : Frame) (va size : ℕ) (perm : BitVec 12) : Kern Unit := do
  check (va % pageSize = 0) .assert
  check (size % pageSize = 0) .assert
  check (vmUserLo ≤ va ∧ va < vmUserHi) .assert
  check (size ≤ vmUserHi - va) .assert
  check (perm &&& ~~~sysRW = 0) .assert
  let (pteand, pteor) := permMasks perm
  pmapSetpermLevel b pteand pteor nptLvls pml4 va (va + size)

end Determinator
