import Determinator.Kern.Machine

/-!
# Faults in user copies

The way of a fault in `usercopy`, at the level of pointers: `trap` hands it to the CPU's `recover`
handler together with `recoverdata`, `sysrecover` takes that for the address of the caller's trap
frame, and `systrap` and `proc_ret` stop the caller with what is found there. Next to the system
there are the fields `recover` and `recoverdata` of the CPU, the process locks the CPU holds, and
the trap frames in the kernel's memory, by address.

The model of `Kern.Syscall` has a `recoverdata` that is always `NULL` (`Kernel.trap_null`).
-/

set_option linter.unusedSectionVars false

namespace Determinator

/-- The system, with the fields of one CPU that matter to the recovery from a fault. -/
structure Kernel (Cpu μ : Type) where
  sys : Sys Cpu μ
  /-- `recover`: it is `sysrecover`, or `NULL`. -/
  recover : Bool
  /-- `recoverdata`, as an address. -/
  recoverdata : ℕ
  /-- The process locks the CPU holds. -/
  held : List Pid
  /-- The trap frame at an address. -/
  frame : ℕ → Trapframe

/-- The system calls that copy. -/
inductive Copier
  | cputs
  | put
  | get
  deriving DecidableEq

namespace Kernel

variable {Cpu μ : Type} [DecidableEq Cpu] (net : BitVec 8) (sp : Spaces μ)

/-- `panic`. -/
def halt (k : Kernel Cpu μ) : Kernel Cpu μ := { k with sys := k.sys.halt }

/-- `spinlock_acquire(&p->lock)`. -/
def acquire (p : Pid) (k : Kernel Cpu μ) : Kernel Cpu μ := { k with held := p :: k.held }

/-- `spinlock_release(&p->lock)`. -/
def release (p : Pid) (k : Kernel Cpu μ) : Kernel Cpu μ := { k with held := k.held.erase p }

/-- `proc_ret`. A process that stops does so with its parent's lock held, and the lock is released
by `proc_run` or by `proc_ret` itself. -/
def procRet (c : Cpu) (cp : Pid) (tf : Trapframe) (entry : Entry) (io : Io μ)
    (k : Kernel Cpu μ) : Kernel Cpu μ :=
  let sys := Determinator.procRet net c cp tf entry io k.sys
  match cp.parent with
  | some p => release p { acquire p k with sys := sys }
  | none => { k with sys := sys }

/-- `systrap`, on the trap frame at address `utf`. -/
def systrap (c : Cpu) (cp : Pid) (utf : ℕ) (trapno : BitVec 64) (err : BitVec 32) (io : Io μ)
    (k : Kernel Cpu μ) : Kernel Cpu μ :=
  let tf := ((k.frame utf).setTrapno trapno).setErr err
  procRet net c cp tf .abort io { k with frame := Function.update k.frame utf tf }

/-- `sysrecover`. -/
def sysrecover (c : Cpu) (cp : Pid) (ktf : Trapframe) (recoverdata : ℕ) (io : Io μ)
    (k : Kernel Cpu μ) : Kernel Cpu μ :=
  if k.recover = false then k.halt
  else systrap net c cp recoverdata ktf.trapno ((ktf 20).setWidth 32) io { k with recover := false }

/-- `trap`, for a trap in the kernel that is not a page fault `pmap_pagefault` resolves. -/
def trap (c : Cpu) (cp : Pid) (ktf : Trapframe) (io : Io μ) (k : Kernel Cpu μ) : Kernel Cpu μ :=
  if k.recover = true then sysrecover net c cp ktf k.recoverdata io k else k.halt

/-- The sections before the copy: PUT and GET find the child with the process locked. -/
def sync (h : Copier) (p : Pid) (k : Kernel Cpu μ) : Kernel Cpu μ :=
  match h with
  | .cputs => k
  | .put | .get => release p (acquire p k)

/-- `usercopy` up to a fault in its `memmove`, which has left the system in state `sys`. -/
def beginCopy (sys : Sys Cpu μ) (k : Kernel Cpu μ) : Kernel Cpu μ :=
  if k.recover = true then k.halt else { k with recover := true, sys := sys }

end Kernel

section

variable {Cpu μ : Type} [DecidableEq Cpu] (sp : Spaces μ)

/-- What the `memmove` of a system call of process `p`, with trap frame `tf`, has done to the system
when it faults; `none` if it does not. -/
def Copier.faults (km : KernMem) (h : Copier) (p : Pid) (r : Proc Cpu μ) (tf : Trapframe)
    (s : Sys Cpu μ) : Option (Sys Cpu μ) :=
  let cp := p.child tf.childNo
  match h with
  | .cputs =>
    match copyin sp km r.pml4 tf.rbx 256 with
    | .fault _ => some s
    | _ => none
  | .put =>
    match copyin sp km r.pml4 tf.rbx (regsLen tf.cmd) with
    | .fault vs => some (s.upd cp fun q => { q with sv := q.sv.setBytes 0 vs })
    | _ => none
  | .get =>
    let sv := (s.proc cp).elim .zero Proc.sv
    match copyout sp r.pml4 tf.rbx ((List.range (regsLen tf.cmd)).map sv.byte) with
    | .fault o => some (s.upd p fun r => { r with pml4 := o })
    | _ => none

variable (net : BitVec 8)

/-- A system call of process `p` on CPU `c` whose copy has faulted, with the system in state `sys`
then and the fault's trap frame `ktf`. -/
def Kernel.copyFault (h : Copier) (c : Cpu) (p : Pid) (sys : Sys Cpu μ) (ktf : Trapframe)
    (io : Io μ) (k : Kernel Cpu μ) : Kernel Cpu μ :=
  Kernel.trap net c p ktf io (Kernel.beginCopy sys (Kernel.sync h p k))

/-- Where `recoverdata` is `NULL`, a fault goes the way that `Kern.Syscall` gives it. -/
theorem Kernel.trap_null {c : Cpu} {p : Pid} {k : Kernel Cpu μ} {ktf : Trapframe} {io : Io μ}
    (hr : k.recover = true) (hd : k.recoverdata = 0) (hf : k.frame 0 = k.sys.low)
    (hn : ktf.trapno = .ofNat 64 tPgflt) {u : Sys Cpu μ}
    (hu : u = Determinator.sysrecover c ((ktf 20).setWidth 32) k.sys) :
    ∃ tf, (u.cpu c).mode = .ret tf .abort ∧
      (Kernel.trap net c p ktf io k).sys = Determinator.procRet net c p tf .abort io k.sys := by
  refine ⟨_, by rw [hu]; exact congrArg CpuState.mode (Sys.setMode_cpu_self _ c _), ?_⟩
  unfold Kernel.trap Kernel.sysrecover Kernel.systrap Kernel.procRet
  rw [if_pos hr, if_neg (by simp [hr]), hd]
  simp only [hf, hn]
  cases p.parent with
  | none => rfl
  | some q => rfl

end

end Determinator
