import Determinator.Lib.Queue
import Determinator.Kern.Mem

/-!
# Finding the memory

`mem_init` and `mem_check` of `kern/mem.c`. The boot loader leaves a list of address ranges. From
it `mem_init` computes the end of the highest range and the total size of the usable ranges that
begin below `MEM_EXT`; with these two numbers and the end of the kernel image, which the linker
places at `MEM_EXT`, it chooses the pages of the free list.

Sizes and addresses are 64-bit words while the ranges are scanned. The loop counter over the pages
is an `int`: the loop ends with page `2 ^ 31 - 1` if it has not ended before.
-/

namespace Determinator

open PanicM

/-- `MEM_IO`: the hole for I/O begins. -/
def memIo : ℕ := 0x0a0000

/-- `MEM_EXT`: the hole ends, and the kernel image begins. -/
def memExt : ℕ := 0x100000

/-- `MEM_RESERVED`. -/
def memReserved : BitVec 32 := 2

/-- `sizeof(pageinfo)`. -/
def pageinfoSize : ℕ := 48

/-- `mem_addr_range`. -/
structure MemRange where
  base : BitVec 64
  size : BitVec 64
  type : BitVec 32
  deriving DecidableEq

/-- `ROUNDUP`. -/
def roundUp (a n : ℕ) : ℕ := a + n - 1 - (a + n - 1) % n

/-- The totals of the scan. -/
structure MemScan where
  basemem : BitVec 64
  memMax : BitVec 64

/-- What a range adds to the totals. -/
def MemScan.add (x : MemScan) (r : MemRange) : MemScan where
  basemem :=
    if r.type = memReserved then x.basemem
    else if r.base.toNat < memExt then x.basemem + r.size
    else x.basemem
  memMax := if x.memMax < r.base + r.size then r.base + r.size else x.memMax

/-- The loop over the ranges. -/
def scanRanges : MemScan → List MemRange → Kern MemScan
  | x, [] => pure x
  | x, r :: rs => do
    check (0 < r.size) .assert
    scanRanges (x.add r) rs

/-- `*freetail = v`. -/
def Mem.setLink (s : Mem) : Link Frame → Option Frame → Mem
  | .head, v => { s with freelist := v }
  | .next f, v => { s with freeNext := Function.update s.freeNext f v }

/-- Whether page `i` is free, where `freemem` is the address after the `pageinfo` array. -/
def isFree (basemem freemem i : ℕ) : Bool :=
  (1 < i && i < basemem / pageSize) || freemem / pageSize ≤ i

/-- One round of the loop over the pages. -/
def chainPage (basemem freemem : ℕ) (tail : Link Frame) (i : ℕ) : Kern (Link Frame) := do
  let f := BitVec.ofNat 40 i
  modify fun s => s.setRef f (if isFree basemem freemem i then 0 else 1)
  if isFree basemem freemem i then
    modify fun s => s.setLink tail (some f)
    pure (.next f)
  else pure tail

/-- The loop over the pages. -/
def chainPages (basemem freemem : ℕ) : Link Frame → List ℕ → Kern (Link Frame)
  | tail, [] => pure tail
  | tail, i :: is => do chainPages basemem freemem (← chainPage basemem freemem tail i) is

/-- Clear the `pageinfo` array. -/
def clearPageinfo (npage : ℕ) : Kern Unit :=
  modify fun s => { s with
    refcount := fun f => if f.toNat < npage then 0 else s.refcount f
    freeNext := fun f => if f.toNat < npage then none else s.freeNext f }

/-- Three different pages from `mem_alloc`. -/
def takeThree : Kern (Frame × Frame × Frame) := do
  let some pp0 ← memAlloc | panic .assert
  let some pp1 ← memAlloc | panic .assert
  let some pp2 ← memAlloc | panic .assert
  check (pp1 ≠ pp0 ∧ pp2 ≠ pp1 ∧ pp2 ≠ pp0) .assert
  pure (pp0, pp1, pp2)

/-- `mem_check`. -/
def memCheck (npage : ℕ) : Kern Unit := do
  let s ← get
  let x ← whileM .spin (fun x : Option Frame × ℕ => x.1.isSome)
    (fun x => pure (x.1.bind s.freeNext, x.2 + 1)) npage (s.freelist, 0)
  check (x.2 < npage) .assert
  check (16000 < x.2) .assert
  let (pp0, pp1, pp2) ← takeThree
  check (pp0.toNat < npage ∧ pp1.toNat < npage ∧ pp2.toNat < npage) .assert
  let fl := (← get).freelist
  modify fun s => { s with freelist := none }
  let p ← memAlloc
  check (p = none) .assert
  memFree pp0
  memFree pp1
  memFree pp2
  let (pp0, pp1, pp2) ← takeThree
  let p ← memAlloc
  check (p = none) .assert
  modify fun s => { s with freelist := fl }
  memFree pp0
  memFree pp1
  memFree pp2

/-- The address after the `pageinfo` array, rounded to a page; `last` is the link symbol `end`. -/
def freemem (last npage : ℕ) : ℕ := roundUp (roundUp last pageinfoSize + pageinfoSize * npage) pageSize

/-- `mem_init`. -/
def memInit (last : ℕ) (ranges : List MemRange) : Kern Unit := do
  let x ← scanRanges ⟨0, 0⟩ ranges
  let npage := x.memMax.toNat / pageSize
  clearPageinfo npage
  let tail ← chainPages x.basemem.toNat (freemem last npage) .head (List.range (min npage (2 ^ 31)))
  modify fun s => s.setLink tail none
  memCheck npage

end Determinator
