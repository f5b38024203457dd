import Determinator.Lib.Queue
import Determinator.Inc.Trap

/-!
# Processes and the scheduler

`kern/proc.c`: the process structure, the ready queue, and the functions that move a process
between its states. Each function below is one lock-protected section of the source, or a part of
one, as a function on the state of the system; a failed assertion or a panic halts the system.

A process is named by the child numbers that lead to it from the process at the top of its tree.
`proc_alloc` is the only function that writes to a `child` array and no process is ever freed, so a
name is as good as a pointer: `parent` and `child` are read off it. Tree `0` is the one of the root
process; the other trees belong to processes that came in from another node.

The address spaces are values of a type `μ`, and what the system calls do with them is in
`Kern.Syscall`. Performance counters are left out: a process that counts instructions is
single-stepped, as the source does where `pmc_set` is `NULL`.
-/

set_option linter.unusedSectionVars false

namespace Determinator

/-- `enum proc_state`. -/
inductive ProcState
  | stop
  | ready
  | run
  | wait
  | migr
  | away
  | pull
  deriving DecidableEq

instance children_neZero : NeZero 256 := ⟨by decide⟩

/-- The name of a process, its last child number first. -/
structure Pid where
  tree : ℕ
  path : List (Fin 256)
  deriving DecidableEq

namespace Pid

/-- `proc_root`. -/
def root : Pid := ⟨0, []⟩

/-- `p->child[cn]`. -/
def child (p : Pid) (cn : Fin 256) : Pid := ⟨p.tree, cn :: p.path⟩

/-- `p->parent`. -/
def parent (p : Pid) : Option Pid :=
  match p.path with
  | [] => none
  | _ :: q => some ⟨p.tree, q⟩

theorem child_inj {p q : Pid} {cn dn : Fin 256} (h : p.child cn = q.child dn) :
    p = q ∧ cn = dn := by
  obtain ⟨t, l⟩ := p
  obtain ⟨t', l'⟩ := q
  simp only [child, mk.injEq, List.cons.injEq] at h
  exact ⟨by rw [h.1, h.2.2], h.2.1⟩

theorem child_ne_root (p : Pid) (cn : Fin 256) : p.child cn ≠ .root := by
  simp [child, root]

theorem child_ne (p : Pid) (cn : Fin 256) : p.child cn ≠ p := by
  obtain ⟨t, l⟩ := p
  simp [child]

theorem parent_eq {p q : Pid} (h : q.parent = some p) : ∃ cn, q = p.child cn := by
  obtain ⟨t, l⟩ := q
  cases l with
  | nil => simp [parent] at h
  | cons cn l =>
    obtain rfl : (⟨t, l⟩ : Pid) = p := by simpa [parent] using h
    exact ⟨cn, rfl⟩

end Pid

/-- The `entry` argument of `proc_save`: `-1`, `0` and `1`. -/
inductive Entry
  | trap
  | abort
  | complete
  deriving DecidableEq

/-- `struct proc`. -/
structure Proc (Cpu μ : Type) where
  /-- The node of `home`. -/
  home : BitVec 8
  state : ProcState
  readynext : Option Pid
  runcpu : Option Cpu
  waitchild : Option Pid
  sv : Procstate
  pml4 : μ
  rpml4 : μ

/-- What a CPU is doing between two sections. -/
inductive Mode
  /-- Running user code with these registers. -/
  | user (tf : Trapframe)
  /-- In `do_put`, with child `cn` found stopped. -/
  | put (tf : Trapframe) (cn : Fin 256)
  /-- In `do_get`, with child `cn` found stopped or missing. -/
  | get (tf : Trapframe) (cn : Fin 256)
  /-- In `do_put`, about to make child `cn` ready. -/
  | start (tf : Trapframe) (cn : Fin 256)
  /-- About to enter `proc_ret`. -/
  | ret (tf : Trapframe) (entry : Entry)
  /-- In the loop of `proc_sched`. -/
  | sched
  /-- In a copy to or from an address outside of the user area. -/
  | wild

/-- `struct cpu`: the current process, and what the CPU is doing. -/
structure CpuState where
  proc : Option Pid
  mode : Mode

/-- The state of the system. -/
structure Sys (Cpu μ : Type) where
  proc : Pid → Option (Proc Cpu μ)
  readyhead : Option Pid
  /-- Points at `readyhead`, or at the `readynext` of a process. -/
  readytail : Link Pid
  cpu : Cpu → CpuState
  /-- The trap frame at address zero, in physical page 0. -/
  low : Trapframe
  halted : Bool

/-- The registers of a new process: user segments, and the words of `fxsave` that hold `fcw` and
`mxcsr`. -/
def freshSv : Procstate :=
  let tf := Trapframe.setSeg (fun _ => 0) 0 segUserGs
  let tf := ((tf.setSeg 3 segUserDs).setSeg 2 segUserDs).setSeg 22 segUserCs
  { Procstate.zero with
    tf := tf.setSeg 25 segUserDs
    fx := Function.update (Function.update (fun _ => 0) 0 0x037f) 3 0x00001f80 }

section

variable {Cpu μ : Type} [DecidableEq Cpu]

namespace Sys

/-- Change a process, if there is one of that name. -/
def upd (s : Sys Cpu μ) (p : Pid) (f : Proc Cpu μ → Proc Cpu μ) : Sys Cpu μ :=
  { s with proc := Function.update s.proc p ((s.proc p).map f) }

/-- Change what a CPU is doing. -/
def setMode (s : Sys Cpu μ) (c : Cpu) (m : Mode) : Sys Cpu μ :=
  { s with cpu := Function.update s.cpu c { s.cpu c with mode := m } }

/-- `panic`. -/
def halt (s : Sys Cpu μ) : Sys Cpu μ := { s with halted := true }

section

variable (s : Sys Cpu μ)

@[simp] theorem upd_proc_self (p : Pid) (f : Proc Cpu μ → Proc Cpu μ) :
    (s.upd p f).proc p = (s.proc p).map f := by simp [upd]

theorem upd_proc_ne {p q : Pid} (h : q ≠ p) (f : Proc Cpu μ → Proc Cpu μ) :
    (s.upd p f).proc q = s.proc q := by simp [upd, h]

@[simp] theorem upd_cpu (p : Pid) (f : Proc Cpu μ → Proc Cpu μ) : (s.upd p f).cpu = s.cpu := rfl

@[simp] theorem upd_readyhead (p : Pid) (f : Proc Cpu μ → Proc Cpu μ) :
    (s.upd p f).readyhead = s.readyhead := rfl

@[simp] theorem upd_readytail (p : Pid) (f : Proc Cpu μ → Proc Cpu μ) :
    (s.upd p f).readytail = s.readytail := rfl

@[simp] theorem setMode_cpu_self (c : Cpu) (m : Mode) :
    (s.setMode c m).cpu c = ⟨(s.cpu c).proc, m⟩ := by simp [setMode]

theorem setMode_cpu_ne {c d : Cpu} (h : d ≠ c) (m : Mode) : (s.setMode c m).cpu d = s.cpu d := by
  simp [setMode, h]

end

end Sys

/-- `proc_alloc`: a new stopped process, with no memory. -/
def procAlloc (net : BitVec 8) (fresh : μ) : Proc Cpu μ where
  home := net
  state := .stop
  readynext := none
  runcpu := none
  waitchild := none
  sv := freshSv
  pml4 := fresh
  rpml4 := fresh

/-- `proc_ready`. -/
def procReady (p : Pid) (s : Sys Cpu μ) : Sys Cpu μ :=
  let s := s.upd p fun r => { r with state := .ready, readynext := none }
  let s :=
    match s.readytail with
    | .head => { s with readyhead := some p }
    | .next q => s.upd q fun r => { r with readynext := some p }
  { s with readytail := .next p }

/-- The part of `proc_save` that concerns instruction counting. -/
def saveIcnt (sv : Procstate) (entry : Entry) : Option Procstate :=
  if sv.pff &&& pffIcnt = 0 then some sv
  else
    let sv :=
      if sv.tf.rflags &&& flTF = 0 then sv
      else
        { sv with
          icnt := if entry = .complete then sv.icnt + 1 else sv.icnt
          tf := sv.tf.setRflags (sv.tf.rflags &&& ~~~flTF ||| flIF) }
    if sv.icnt ≤ sv.imax then some sv else none

/-- `proc_save`, on the save area of the process; `none` when one of its assertions fails. -/
def procSave (sv : Procstate) (tf : Trapframe) (entry : Entry) : Option Procstate :=
  let sv := { sv with tf := if entry = .abort then tf.setRip (tf.rip - 2) else tf }
  (saveIcnt sv entry).filter fun sv => sv.tf.rflags &&& flTF = 0

/-- What `proc_run` makes of the saved registers, and what the CPU does next: a process that counts
its instructions is single-stepped, and sent back at once if it has none left. -/
def procResume (sv : Procstate) : Procstate × Mode :=
  if sv.pff &&& pffIcnt = 0 then (sv, .user sv.tf)
  else if sv.imax ≤ sv.icnt then
    let tf := sv.tf.setTrapno (.ofNat 64 tIcnt)
    ({ sv with tf := tf }, .ret tf .trap)
  else
    let tf := sv.tf.setRflags ((sv.tf.rflags ||| flTF) &&& ~~~flIF)
    ({ sv with tf := tf }, .user tf)

/-- `proc_run`: switch CPU `c` to process `p`. -/
def procRun (c : Cpu) (p : Pid) (s : Sys Cpu μ) : Sys Cpu μ :=
  match s.proc p with
  | none => s
  | some r =>
    let s := s.upd p fun r =>
      { r with state := .run, runcpu := some c, sv := (procResume r.sv).1 }
    let s := { s with cpu := Function.update s.cpu c ⟨some p, (procResume r.sv).2⟩ }
    if r.sv.tf.rflags &&& flTF ≠ 0 then s.halt else s

/-- Take the first process off the ready queue. -/
def takeReady (p : Pid) (s : Sys Cpu μ) : Sys Cpu μ :=
  let s := { s with
    readyhead := (s.proc p).bind Proc.readynext
    readytail := if s.readytail = Link.next p then .head else s.readytail }
  s.upd p fun r => { r with readynext := none }

/-- `proc_sched`, once there is a process on the ready queue: take the first one and run it. -/
def procSched (c : Cpu) (s : Sys Cpu μ) : Option (Sys Cpu μ) :=
  s.readyhead.map fun p => procRun c p (takeReady p s)

/-- `proc_wait`: put the current process `p` to sleep until its child stops. -/
def procWait (c : Cpu) (p cp : Pid) (tf : Trapframe) (s : Sys Cpu μ) : Sys Cpu μ :=
  match (s.proc p).bind fun r => procSave r.sv tf .abort with
  | none => s.halt
  | some sv =>
    let s := s.upd p fun r =>
      { r with state := .wait, runcpu := none, waitchild := some cp, sv := sv }
    s.setMode c .sched

/-- `net_migrate`: send the current process `p` to another node. -/
def netMigrate (net : BitVec 8) (c : Cpu) (p : Pid) (tf : Trapframe) (dst : BitVec 8)
    (entry : Entry) (s : Sys Cpu μ) : Sys Cpu μ :=
  match (s.proc p).bind fun r => procSave r.sv tf entry with
  | none => s.halt
  | some sv =>
    -- `NET_MAXNODES` is 32
    if 0 < dst.toNat ∧ dst.toNat ≤ 32 ∧ dst ≠ net then
      (s.upd p fun r => { r with state := .migr, sv := sv }).setMode c .sched
    else s.halt

/-- What `file_io` finds to do for the root process. -/
inductive Io (μ : Type)
  /-- Some input or output was done, in the memory of the root process. -/
  | done (m : μ)
  /-- The root process has exited. -/
  | exited
  /-- There was nothing to do. -/
  | idle

/-- `file_io`. -/
def fileIo (c : Cpu) (p : Pid) (tf : Trapframe) (io : Io μ) (s : Sys Cpu μ) : Sys Cpu μ :=
  match io with
  | .done m => (s.upd p fun r => { r with pml4 := m }).setMode c (.user tf)
  | .exited => s.halt
  | .idle =>
    match (s.proc p).bind fun r => procSave r.sv tf .complete with
    | none => s.halt
    | some sv =>
      let s := s.upd p fun r => { r with state := .stop, runcpu := none, sv := sv }
      s.setMode c .sched

/-- `file_wakeroot`. -/
def fileWakeroot (s : Sys Cpu μ) : Sys Cpu μ :=
  if (s.proc .root).map Proc.state = some .stop then procReady .root s else s

/-- The end of `proc_ret`, for a process `cp` with a parent `p`: stop, and wake the parent if it
is waiting. -/
def stopChild (c : Cpu) (p cp : Pid) (tf : Trapframe) (entry : Entry) (s : Sys Cpu μ) :
    Sys Cpu μ :=
  match (s.proc cp).bind fun r => procSave r.sv tf entry with
  | none => s.halt
  | some sv =>
    let s := s.upd cp fun r => { r with state := .stop, runcpu := none, sv := sv }
    if (s.proc p).any fun r => r.state = .wait ∧ r.waitchild = some cp then
      procRun c p (s.upd p fun r => { r with waitchild := none })
    else s.setMode c .sched

/-- `proc_ret`, on the CPU `c` whose current process is `cp`. -/
def procRet (net : BitVec 8) (c : Cpu) (cp : Pid) (tf : Trapframe) (entry : Entry) (io : Io μ)
    (s : Sys Cpu μ) : Sys Cpu μ :=
  let home := (s.proc cp).elim net Proc.home
  if home ≠ net then
    netMigrate net c cp tf home (if entry = .complete then .abort else entry) s
  else
    match cp.parent with
    | none =>
      -- the root process: anything but a system call is a panic
      if tf.trapno = .ofNat 64 tSyscall ∧ entry = .complete then fileIo c cp tf io s else s.halt
    | some p => stopChild c p cp tf entry s

end

end Determinator
