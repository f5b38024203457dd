import Determinator.Kern.Meminit

/-!
# The bootstrap page map

`pmap_init_bootpmap` of `kern/pmap.c` and its three calls in `pmap_init`. Linear and physical
addresses are `intptr_t` here, so that the kernel's half of the address space has negative
addresses; no sum leaves their range. A permission of `0xFFFF` means that the range is erased.

`bootWalk` is what the MMU finds for an address in such a page map.
-/

namespace Determinator.Bootpmap

open PanicM

/-- `VM_KERNLO`. -/
def vmKernLo : ℤ := -0x8000000000

/-- `PDX`, of a signed address. -/
def pdx (n : ℕ) (la : ℤ) : ℕ := (la / pdSize n % 512).toNat

/-- `PDOFF`, of a signed address. -/
def pdOff (n : ℕ) (la : ℤ) : ℤ := la % pdSize n

/-- `PDADDR`, of a signed address. -/
def pdAddr (n : ℕ) (la : ℤ) : ℤ := la - la % pdSize n

/-- The permission that erases. -/
def erase : BitVec 16 := 0xffff

/-- `PTE_P | PTE_W`. -/
def kernelRW : BitVec 16 := 0x003

/-- `page_perm`: with `PTE_G`, `PTE_P` and, above the page tables, `PTE_PS`. -/
def pagePerm (level : ℕ) (perm : BitVec 16) : BitVec 16 :=
  if 0 < level then perm ||| 0x100 ||| 0x001 ||| 0x080 else perm ||| 0x100 ||| 0x001

/-- `dir_perm`: with `PTE_P` and `PTE_U`. -/
def dirPerm (perm : BitVec 16) : BitVec 16 := (if perm ≠ erase then perm else 0) ||| 0x001 ||| 0x004

/-- The word `paddr | perm`. -/
def pageWord (paddr : ℤ) (perm : BitVec 16) : Pte :=
  .ofWord (BitVec.ofInt 64 paddr ||| perm.setWidth 64)

section

-- `max_page_entry_level` and the page of `pmap_zero`
variable (maxLevel : ℕ) (zero : Frame)

/-- Set the entry for a whole range at once. -/
def wholeEntry (level : ℕ) (paddr : ℤ) (perm : BitVec 16) : Pte :=
  if perm ≠ erase then pageWord paddr (pagePerm level perm) else zeroEntry zero

/-- Fill the table `pi` for the part of an entry from `vaddr` on that has `size` bytes. -/
def fillTable (lower : Frame → ℤ → ℤ → ℤ → BitVec 16 → Kern Unit) (level : ℕ) (vaddr paddr size : ℤ)
    (perm : BitVec 16) (pi : Frame) : Kern Unit := do
  lower pi (pdAddr level vaddr) 0 (vaddr - pdAddr level vaddr) erase
  lower pi vaddr paddr size perm
  lower pi (vaddr + size) 0 (pdSize level - pdOff level vaddr - size) erase

/-- Make a table for this part. -/
def partTable (lower : Frame → ℤ → ℤ → ℤ → BitVec 16 → Kern Unit) (level : ℕ) (vaddr paddr size : ℤ)
    (perm : BitVec 16) : Kern Frame := do
  match ← memAlloc with
  | none => panic .assert
  | some pi =>
    fillTable lower level vaddr paddr size perm pi
    pure pi

/-- One round of the loop of `pmap_init_bootpmap`. -/
def bootEntry (lower : Frame → ℤ → ℤ → ℤ → BitVec 16 → Kern Unit) (level : ℕ) (t : Frame)
    (perm : BitVec 16) (vhi : ℤ) (x : ℤ × ℤ) : Kern (ℤ × ℤ) := do
  let (vaddr, paddr) := x
  if pdOff level vaddr = 0 ∧ pdOff level paddr = 0 ∧ (pdSize level : ℤ) ≤ vhi - vaddr ∧
      (level ≤ maxLevel ∨ perm = erase) then
    writeEntry t (pdx level vaddr) (wholeEntry zero level paddr perm)
    pure (vaddr + pdSize level, paddr + pdSize level)
  else
    let size := min (pdSize level - pdOff level vaddr) (vhi - vaddr)
    let pi ← partTable lower level vaddr paddr size perm
    writeEntry t (pdx level vaddr) (pageWord (pi.toNat * pageSize) (dirPerm perm))
    pure (vaddr + size, paddr + size)

/-- The loop of `pmap_init_bootpmap`. -/
def bootLoop (lower : Frame → ℤ → ℤ → ℤ → BitVec 16 → Kern Unit) (level : ℕ) (t : Frame)
    (vaddr paddr size : ℤ) (perm : BitVec 16) : Kern Unit := do
  let vaddr := vaddr - vaddr % pageSize
  let paddr := paddr - paddr % pageSize
  let size := size - size % pageSize
  let _ ← whileM .spin (fun x : ℤ × ℤ => x.1 < vaddr + size)
    (bootEntry maxLevel zero lower level t perm (vaddr + size)) size.toNat (vaddr, paddr)

/-- `pmap_init_bootpmap`. -/
def pmapInitBootpmap : ℕ → Frame → ℤ → ℤ → ℤ → BitVec 16 → Kern Unit
  | 0 => bootLoop maxLevel zero (fun _ _ _ _ _ => panic .level) 0
  | level + 1 => bootLoop maxLevel zero (pmapInitBootpmap level) (level + 1)

/-- `mem_max`, as `pmap_init` rounds it. -/
def roundedMax (memMax : ℕ) : ℕ := roundUp memMax (pdSize maxLevel)

/-- `PML4SELFOFFSET`. -/
def selfOffset : ℕ := 0x1bf

/-- The three calls of `pmap_init` for the bootstrap page map at the page `t`, and the entry that
points back to it. -/
def initBootpmap (t : Frame) (memMax : ℕ) : Kern Unit := do
  pmapInitBootpmap maxLevel zero nptLvls t 0 0 (2 ^ 48) erase
  pmapInitBootpmap maxLevel zero nptLvls t 0 0 vmUserLo kernelRW
  pmapInitBootpmap maxLevel zero nptLvls t vmKernLo 0 (roundedMax maxLevel memMax) kernelRW
  writeEntry t selfOffset (pageWord (t.toNat * pageSize) kernelRW)

end

/-! ## What the MMU finds -/

/-- What is found for an address. -/
inductive Found
  /-- `PTE_ZERO`. -/
  | zero
  /-- A physical address, and whether all entries on the way allow user access. -/
  | page (paddr : ℤ) (user : Bool)
  deriving DecidableEq

/-- `PTE_PS`: the entry maps a large page. -/
def isPS (e : Pte) : Bool := e.flags.getLsbD 7

/-- What is found for `va` from the entry `e` of a table on. -/
def walkFrom (s : Mem) (zero : Frame) (va : ℤ) : ℕ → Pte → Bool → Found
  | 0, e, user =>
    if e = zeroEntry zero then .zero
    else .page (e.frame.toNat * pageSize + pdOff 0 va) (user && e.isU)
  | level + 1, e, user =>
    if e = zeroEntry zero then .zero
    else if isPS e then .page (e.frame.toNat * pageSize + pdOff (level + 1) va) (user && e.isU)
    else walkFrom s zero va level (s.entry e.frame (pdx level va)) (user && e.isU)

/-- What is found for `va` in the page map at `t`. -/
def bootWalk (s : Mem) (zero t : Frame) (va : ℤ) : Found :=
  walkFrom s zero va nptLvls (s.entry t (pdx nptLvls va)) true

end Determinator.Bootpmap
