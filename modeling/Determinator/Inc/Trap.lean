import Determinator.Inc.Mmu

/-!
# Trap frames and saved process states

The layouts of `inc/trap.h` and of `struct procstate` in `inc/syscall.h`. A trap frame is 26 words
of 64 bits; the segment registers are the low 16 bits of their words, the rest being padding. A
process state is 736 bytes: the trap frame, four 32-bit words and the 64 words of `fxsave`.
-/

namespace Determinator

/-! ## Trap frames -/

/-- `struct trapframe`, as its 64-bit words. -/
abbrev Trapframe := Fin 26 → BitVec 64

instance words_neZero : NeZero 26 := ⟨by decide⟩

namespace Trapframe

variable (tf : Trapframe)

def ds : BitVec 16 := (tf 3).setWidth 16
def rdi : BitVec 64 := tf 13
def rsi : BitVec 64 := tf 14
def rdx : BitVec 64 := tf 15
def rcx : BitVec 64 := tf 16
def rbx : BitVec 64 := tf 17
def rax : BitVec 64 := tf 18
def trapno : BitVec 64 := tf 19
def rip : BitVec 64 := tf 21
def cs : BitVec 16 := (tf 22).setWidth 16
def rflags : BitVec 64 := tf 23
def ss : BitVec 16 := (tf 25).setWidth 16

/-- Assign to a 16-bit segment register of the frame. -/
def setSeg (i : Fin 26) (v : BitVec 16) : Trapframe :=
  Function.update tf i (tf i &&& ~~~0xffff ||| v.setWidth 64)

def setTrapno (n : BitVec 64) : Trapframe := Function.update tf 19 n

/-- Assign to `err`, the low half of its word. -/
def setErr (e : BitVec 32) : Trapframe :=
  Function.update tf 20 (tf 20 &&& ~~~0xffffffff ||| e.setWidth 64)

def setRip (v : BitVec 64) : Trapframe := Function.update tf 21 v
def setRflags (v : BitVec 64) : Trapframe := Function.update tf 23 v
def setRsp (v : BitVec 64) : Trapframe := Function.update tf 24 v
def setRax (v : BitVec 64) : Trapframe := Function.update tf 18 v
def setRdx (v : BitVec 64) : Trapframe := Function.update tf 15 v

/-- The frame with the argument registers of a system call set. -/
def withArgs (rax rbx rcx rdx rsi rdi : BitVec 64) : Trapframe :=
  Function.update (Function.update (Function.update (Function.update (Function.update
    (Function.update tf 18 rax) 17 rbx) 16 rcx) 15 rdx) 14 rsi) 13 rdi

/-- What the processor and the trap entry code push on top of the registers. -/
def trapped (n : ℕ) (err : BitVec 32) : Trapframe :=
  Function.update (Function.update tf 19 (.ofNat 64 n)) 20 (err.setWidth 64)

/-- The registers a frame stands for: the trap number and the error code are not among them. -/
def regs : Trapframe := Function.update (Function.update tf 19 0) 20 0

end Trapframe

/-! ## Trap numbers -/

def tDebug : ℕ := 1
def tBrkpt : ℕ := 3
def tOflow : ℕ := 4
def tDevice : ℕ := 7
def tGpflt : ℕ := 13
def tPgflt : ℕ := 14
def tSyscall : ℕ := 48
def tIcnt : ℕ := 501

/-! ## Segments and flags -/

/-- `SEG_USER_CS_64 | 3`. -/
def segUserCs : BitVec 16 := 0x53
/-- `SEG_USER_DS_64 | 3`. -/
def segUserDs : BitVec 16 := 0x63
/-- `SEG_USER_GS_64 | 3`. -/
def segUserGs : BitVec 16 := 0x73

/-- `FL_TF`. -/
def flTF : BitVec 64 := 0x100
/-- `FL_IF`. -/
def flIF : BitVec 64 := 0x200
/-- `FL_IOPL_MASK`. -/
def flIOPL : BitVec 64 := 0x3000
/-- `FL_USER`: the flags user code may set. -/
def flUser : BitVec 64 := 0x001 ||| 0x004 ||| 0x010 ||| 0x040 ||| 0x080 ||| 0x400 ||| 0x800

/-- `PFF_USEFPU`. -/
def pffUseFpu : BitVec 32 := 0x0001
/-- `PFF_NONDET`. -/
def pffNondet : BitVec 32 := 0x0100
/-- `PFF_ICNT`. -/
def pffIcnt : BitVec 32 := 0x0200

/-! ## Process states -/

instance fxsave_neZero : NeZero 64 := ⟨by decide⟩

/-- `struct procstate`. -/
structure Procstate where
  tf : Trapframe
  pff : BitVec 32
  icnt : BitVec 32
  imax : BitVec 32
  pad : BitVec 32
  fx : Fin 64 → BitVec 64
  deriving DecidableEq

namespace Procstate

/-- All bytes zero. -/
def zero : Procstate := ⟨fun _ => 0, 0, 0, 0, 0, fun _ => 0⟩

/-- `offsetof(procstate, fx)`. -/
def fxOffset : ℕ := 224

/-- `sizeof(procstate)`. -/
def size : ℕ := 736

/-- The byte at an offset. -/
def byte (sv : Procstate) (i : ℕ) : BitVec 8 :=
  if i < 208 then byteOf (sv.tf (Fin.ofNat 26 (i / 8))) (i % 8)
  else if i < 212 then byteOf sv.pff (i % 4)
  else if i < 216 then byteOf sv.icnt (i % 4)
  else if i < 220 then byteOf sv.imax (i % 4)
  else if i < 224 then byteOf sv.pad (i % 4)
  else byteOf (sv.fx (Fin.ofNat 64 ((i - 224) / 8))) (i % 8)

/-- Replace the byte at an offset. -/
def setByte (sv : Procstate) (i : ℕ) (v : BitVec 8) : Procstate :=
  if i < 208 then
    let j := Fin.ofNat 26 (i / 8)
    { sv with tf := Function.update sv.tf j (putByte (sv.tf j) (i % 8) v) }
  else if i < 212 then { sv with pff := putByte sv.pff (i % 4) v }
  else if i < 216 then { sv with icnt := putByte sv.icnt (i % 4) v }
  else if i < 220 then { sv with imax := putByte sv.imax (i % 4) v }
  else if i < 224 then { sv with pad := putByte sv.pad (i % 4) v }
  else
    let j := Fin.ofNat 64 ((i - 224) / 8)
    { sv with fx := Function.update sv.fx j (putByte (sv.fx j) (i % 8) v) }

/-- Replace the bytes from an offset on. -/
def setBytes (sv : Procstate) : ℕ → List (BitVec 8) → Procstate
  | _, [] => sv
  | i, v :: vs => (sv.setByte i v).setBytes (i + 1) vs

end Procstate

/-! ## What the assignments leave alone -/

namespace Trapframe

variable (tf : Trapframe)

/-- A frame user code may run with: user segments, and no I/O privilege. -/
structure Unprivileged : Prop where
  cs : tf.cs = segUserCs
  ss : tf.ss = segUserDs
  iopl : tf.rflags &&& flIOPL = 0

theorem setSeg_low (w : BitVec 64) (v : BitVec 16) :
    (w &&& ~~~0xffff ||| v.setWidth 64).setWidth 16 = v := by
  ext i hi
  simp

/-- Masking with `FL_USER` takes the I/O privilege away. -/
theorem flUser_iopl (w : BitVec 64) : (w &&& flUser ||| flIF) &&& flIOPL = 0 := by
  have h : (flUser &&& flIOPL) = 0 ∧ (flIF &&& flIOPL) = 0 := by decide
  rw [BitVec.and_or_distrib_right, BitVec.and_assoc, h.1, h.2]
  simp

end Trapframe

end Determinator
