import Mathlib.Tactic.Common
import Mathlib.Data.Nat.Notation

/-!
# The stacks of the deterministic-scheduling library

`selfno` and `self` of `lib/dsthread.c`, with the layout of `inc/vm.h`: the stack area of a terabyte is
divided among the threads, downwards, and a thread is to be found out by its stack pointer.

The part a stack pointer is in is its distance from the top by the size of a part (`part_eq`). `selfno`
narrows the distance to 32 bits before it divides it by the size, which is `2 ^ 36`: it gives 0 for every
thread (`selfno_zero`).
-/

namespace Determinator.Dsthread.Stack

/-! ## The layout -/

def vmStackhi : BitVec 64 := 0x7f0000000000
def vmStacklo : BitVec 64 := 0x7e0000000000

/-- `MAXTHREADS`. -/
def maxthreads : BitVec 32 := 16

/-- `TSTACKSIZE`. -/
def tstacksize : BitVec 64 := (vmStackhi - vmStacklo).sdiv (maxthreads.signExtend 64)

def tstackhi (tno : BitVec 32) : BitVec 64 := vmStackhi - tno.signExtend 64 * tstacksize
def tstacklo (tno : BitVec 32) : BitVec 64 := tstackhi tno - tstacksize

/-! ## `selfno` and `self` -/

/-- `selfno`, with the stack pointer; nothing where the assertion fails. -/
def selfno (rsp : BitVec 64) : Option (BitVec 32) :=
  let ofs : BitVec 32 := (vmStackhi - rsp).setWidth 32
  let tno : BitVec 32 := ((ofs.setWidth 64).sdiv tstacksize).setWidth 32
  if (0#32).sle tno ∧ tno.slt maxthreads then some tno else none

/-- `self`, with the array of control blocks. -/
def self {α : Type*} (th : BitVec 32 → α) (rsp : BitVec 64) : Option α := (selfno rsp).map th

/-- A stack pointer of a thread. -/
structure OnStack (tno : BitVec 32) (rsp : BitVec 64) : Prop where
  lt : tno.toNat < 16
  lo : tstacklo tno < rsp
  hi : rsp ≤ tstackhi tno

variable {tno : BitVec 32} {rsp : BitVec 64}

theorem tstacksize_eq : tstacksize = 0x1000000000 := by decide

theorem tstackhi_toNat (h : tno.toNat < 16) :
    (tstackhi tno).toNat = 0x7f0000000000 - tno.toNat * 0x1000000000 := by
  have hm : tno.msb = false := by
    rw [BitVec.msb_eq_false_iff_two_mul_lt]
    omega
  rw [tstackhi, tstacksize_eq, BitVec.signExtend_eq_setWidth_of_msb_false hm, BitVec.toNat_sub, BitVec.toNat_mul,
    BitVec.toNat_setWidth]
  change (2 ^ 64 - tno.toNat % 2 ^ 64 * 0x1000000000 % 2 ^ 64 + 0x7f0000000000) % 2 ^ 64 = _
  omega

/-- The part a stack pointer is in. -/
theorem part_eq (h : OnStack tno rsp) : ((vmStackhi - rsp) / tstacksize).toNat = tno.toNat := by
  obtain ⟨h, lo, hi⟩ := h
  have ht := tstackhi_toNat h
  have hl : (tstacklo tno).toNat = (tstackhi tno).toNat - 0x1000000000 := by
    rw [tstacklo, tstacksize_eq, BitVec.toNat_sub]
    change (2 ^ 64 - 0x1000000000 + (tstackhi tno).toNat) % 2 ^ 64 = _
    omega
  rw [BitVec.lt_def, hl, ht] at lo
  rw [BitVec.le_def, ht] at hi
  rw [tstacksize_eq, BitVec.toNat_udiv, BitVec.toNat_sub]
  change (2 ^ 64 - rsp.toNat + 0x7f0000000000) % 2 ^ 64 / 0x1000000000 = _
  omega

/-- What is left of a distance after narrowing is less than the size of a part. -/
theorem selfno_zero (rsp : BitVec 64) : selfno rsp = some 0 := by
  have h (ofs : BitVec 32) : (ofs.setWidth 64).sdiv tstacksize = 0 := by
    have hm : (ofs.setWidth 64).msb = false := by
      rw [BitVec.msb_eq_false_iff_two_mul_lt, BitVec.toNat_setWidth]
      omega
    have ht : tstacksize.msb = false := by decide
    rw [BitVec.sdiv_eq, hm, ht, tstacksize_eq]
    apply BitVec.eq_of_toNat_eq
    change (ofs.setWidth 64).toNat / 0x1000000000 = 0
    rw [BitVec.toNat_setWidth]
    omega
  simp only [selfno, h]
  rfl

/-- In 64 bits a thread would be found out by the part; in 32 bits it is if and only if it is the first one. -/
theorem selfno_eq (h : OnStack tno rsp) :
    ((vmStackhi - rsp) / tstacksize).toNat = tno.toNat ∧
      ((selfno rsp = some tno ∧ ∀ (α : Type) (th : BitVec 32 → α), self th rsp = some (th tno)) ↔ tno = 0) := by
  apply And.intro (part_eq h)
  rw [selfno_zero]
  constructor
  · intro ⟨h, _⟩
    exact (Option.some.inj h).symm
  · rintro rfl
    apply And.intro rfl
    intro α th
    rw [self, selfno_zero]
    rfl

theorem selfno_eq_sample : selfno 0x7eff00000000 = some 0 := by
  have h : OnStack 0 0x7eff00000000 := ⟨by decide, by decide, by decide⟩
  exact ((selfno_eq h).2.mpr rfl).1

/-- At the top of its stack, thread 1 takes itself for thread 0. -/
theorem selfno_wrong :
    OnStack 1 (tstackhi 1) ∧ selfno (tstackhi 1) ≠ some 1 ∧ self id (tstackhi 1) = some 0 :=
  ⟨⟨by decide, by decide, by decide⟩, by decide, by decide⟩

end Determinator.Dsthread.Stack
