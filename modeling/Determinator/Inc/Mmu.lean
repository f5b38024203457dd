import Mathlib.Tactic.Ring
import Mathlib.Tactic.Positivity
import Mathlib.Tactic.Common

/-!
# Linear addresses and page-map entries

The address arithmetic of `inc/mmu.h` and the layout of `inc/vm.h`, for the four-level page maps
of x86-64. Level `0` is a page table, level `3` a PML4.

A linear address is a natural number: every address the page-map code handles lies below `2 ^ 48`,
so the 64-bit arithmetic of the source never wraps there, and the masks and shifts of the macros
are the divisions and remainders below.

A page-map entry is the 64-bit word of the source, cut into its three bit fields: the flags in bits
0 to 11, the frame number in bits 12 to 51 (`PTE_ADDR` is the frame number times the page size) and
the bits 52 to 63. Comparing two entries as words is comparing the three fields.
-/

namespace Determinator

/-! ## Linear addresses -/

/-- `NPTENTRIES`: the entries of a table. -/
abbrev nptEntries : ℕ := 512

instance nptEntries_neZero : NeZero nptEntries := ⟨by decide⟩

/-- `NPTLVLS`: the level of a PML4. -/
abbrev nptLvls : ℕ := 3

/-- `PAGESIZE`. -/
abbrev pageSize : ℕ := 4096

/-- `PDSIZE(n)`: the bytes one entry of a level-`n` table maps. -/
def pdSize (n : ℕ) : ℕ := 4096 * 512 ^ n

/-- `PDX(n, la)`: the index of `la` in a level-`n` table. -/
def pdx (n la : ℕ) : ℕ := la / pdSize n % 512

/-- `PDOFF(n, la)`. -/
def pdOff (n la : ℕ) : ℕ := la % pdSize n

/-- `PDADDR(n, la)`. -/
def pdAddr (n la : ℕ) : ℕ := la - la % pdSize n

/-- `VM_USERLO`, the 1GB boundary. -/
def vmUserLo : ℕ := 0x40000000

/-- `VM_USERHI`, the 128TB boundary. -/
def vmUserHi : ℕ := 0x800000000000

theorem pdSize_pos (n : ℕ) : 0 < pdSize n := by unfold pdSize; positivity

theorem pdSize_succ (n : ℕ) : pdSize (n + 1) = 512 * pdSize n := by
  unfold pdSize
  rw [pow_succ]
  ring

theorem pdx_lt (n la : ℕ) : pdx n la < 512 := Nat.mod_lt _ (by decide)

/-! ## Entries -/

/-- The number of a physical page: a physical address divided by the page size. -/
abbrev Frame := BitVec 40

/-- `PTE_P`: present. -/
def pteP : BitVec 12 := 0x001
/-- `PTE_W`: writeable. -/
def pteW : BitVec 12 := 0x002
/-- `PTE_U`: user-accessible. -/
def pteU : BitVec 12 := 0x004
/-- `PTE_A`: accessed. -/
def pteA : BitVec 12 := 0x020
/-- `PTE_D`: dirty. -/
def pteD : BitVec 12 := 0x040
/-- `SYS_READ`: nominal read permission, in `PTE_AVAIL`. -/
def sysRead : BitVec 12 := 0x200
/-- `SYS_WRITE`: nominal write permission, in `PTE_AVAIL`. -/
def sysWrite : BitVec 12 := 0x400
/-- `SYS_RW`. -/
def sysRW : BitVec 12 := 0x600

/-- A page-map entry, or any 64-bit word of a page. -/
structure Pte where
  frame : Frame
  flags : BitVec 12
  high : BitVec 12
  deriving DecidableEq

namespace Pte

/-- The entry `phys | flags`. -/
def mk' (f : Frame) (flags : BitVec 12) : Pte := ⟨f, flags, 0⟩

/-- `e & ~PTE_W`. -/
def clearW (e : Pte) : Pte := { e with flags := e.flags &&& ~~~pteW }

/-- `e | bits`, for flag bits. -/
def or (e : Pte) (bits : BitVec 12) : Pte := { e with flags := e.flags ||| bits }

/-- `e & PTE_P`. -/
def isP (e : Pte) : Bool := e.flags.getLsbD 0

/-- `e & PTE_W`. -/
def isW (e : Pte) : Bool := e.flags.getLsbD 1

/-- `e & PTE_U`. -/
def isU (e : Pte) : Bool := e.flags.getLsbD 2

/-- The nominal permissions `e & SYS_RW`. -/
def perm (e : Pte) : BitVec 12 := e.flags &&& sysRW

/-- The 64-bit word. -/
def word (e : Pte) : BitVec 64 := e.high ++ (e.frame ++ e.flags)

/-- The fields of a 64-bit word. -/
def ofWord (w : BitVec 64) : Pte :=
  ⟨w.extractLsb' 12 40, w.extractLsb' 0 12, w.extractLsb' 52 12⟩

@[simp] theorem mk'_frame (f : Frame) (fl : BitVec 12) : (mk' f fl).frame = f := rfl
@[simp] theorem mk'_flags (f : Frame) (fl : BitVec 12) : (mk' f fl).flags = fl := rfl
@[simp] theorem clearW_frame (e : Pte) : e.clearW.frame = e.frame := rfl
@[simp] theorem or_frame (e : Pte) (bits : BitVec 12) : (e.or bits).frame = e.frame := rfl

@[simp] theorem clearW_isW (e : Pte) : e.clearW.isW = false := by
  simp [clearW, isW, pteW]

@[simp] theorem clearW_perm (e : Pte) : e.clearW.perm = e.perm := by
  unfold clearW perm
  rw [BitVec.and_assoc, show ~~~pteW &&& sysRW = sysRW from by decide]

@[simp] theorem clearW_clearW (e : Pte) : e.clearW.clearW = e.clearW := by
  simp only [clearW, BitVec.and_assoc, BitVec.and_self]

@[simp] theorem or_pteP_isW (e : Pte) : (e.or pteP).isW = e.isW := by
  simp [or, isW, pteP]

@[simp] theorem ofWord_word (e : Pte) : ofWord e.word = e := by
  obtain ⟨f, fl, h⟩ := e
  simp only [ofWord, word, mk.injEq]
  refine ⟨?_, ?_, ?_⟩ <;> ext i hi <;> simp <;> grind

@[simp] theorem word_ofWord (w : BitVec 64) : (ofWord w).word = w := by
  ext i hi
  simp only [ofWord, word]
  grind

end Pte

/-! ## Words and bytes -/

/-- Byte `j` of a word, the least significant one first. -/
def byteOf {n : ℕ} (w : BitVec n) (j : ℕ) : BitVec 8 := w.extractLsb' (8 * j) 8

/-- Replace byte `j` of a word. -/
def putByte {n : ℕ} (w : BitVec n) (j : ℕ) (v : BitVec 8) : BitVec n :=
  w &&& ~~~((0xff : BitVec n) <<< (8 * j)) ||| (v.setWidth n <<< (8 * j))

/-- The 512 words of a page. -/
abbrev Page := Fin nptEntries → Pte

/-- The byte at offset `i` of a page. -/
def Page.byte (pg : Page) (i : ℕ) : BitVec 8 :=
  byteOf (pg (Fin.ofNat nptEntries (i / 8))).word (i % 8)

/-- A page with the byte at offset `i` replaced. -/
def Page.setByte (pg : Page) (i : ℕ) (v : BitVec 8) : Page :=
  let j := Fin.ofNat nptEntries (i / 8)
  Function.update pg j (.ofWord (putByte (pg j).word (i % 8) v))

/-- A page of zero bytes. -/
def Page.zeros : Page := fun _ => ⟨0, 0, 0⟩

end Determinator
