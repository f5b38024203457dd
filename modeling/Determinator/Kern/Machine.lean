import Determinator.Kern.Syscall

/-!
# The machine

The CPUs, as they run user code and the sections of the kernel. An `Event` is one thing that can
happen next: a CPU runs a piece of user code, traps, or goes through its next section, or a device
or another node interferes. `step` carries an event out; it is `none` where the event cannot
happen. User code is left open here: it may change its registers and its memory in any way the
processor lets it.

Interrupts that leave the processes alone (timers, the network card with nothing to deliver) are
not events.
-/

namespace Determinator

/-- What can happen next. -/
inductive Event (Cpu μ : Type)
  /-- User code runs on `c`; its registers and its memory after that. -/
  | user (c : Cpu) (tf : Trapframe) (fx : Fin 64 → BitVec 64) (m : μ)
  /-- User code on `c` uses the FPU for the first time. -/
  | device (c : Cpu)
  /-- User code on `c` executes `INT T_SYSCALL`. -/
  | syscall (c : Cpu) (t : BitVec 64) (err : BitVec 32) (km : KernMem)
  /-- User code on `c` causes another trap. -/
  | trap (c : Cpu) (trapno : ℕ) (err : BitVec 32)
  /-- A single-stepped instruction on `c` is over. -/
  | debug (c : Cpu)
  /-- The part of PUT or GET without locks. -/
  | body (c : Cpu) (err : BitVec 32) (km : KernMem)
  /-- The `proc_ready` of PUT. -/
  | start (c : Cpu)
  /-- `proc_ret`. -/
  | ret (c : Cpu) (io : Io μ)
  /-- `proc_sched` takes a process. -/
  | sched (c : Cpu)
  /-- A console interrupt. -/
  | wakeroot
  /-- A migration reply for `p`: `net_rxmigrp`. -/
  | migrated (p : Pid)
  /-- A migration request for `p`, which is away: `net_rxmigrq`. -/
  | arrive (p : Pid) (sv : Procstate)
  /-- A migration request for a process nobody here has seen. -/
  | newcomer (tree : ℕ) (home : BitVec 8) (sv : Procstate)
  /-- The last page of `p` has been pulled: `net_rxpullrp`. -/
  | pulled (p : Pid) (m : μ)

/-- The trap frame of an `INT T_SYSCALL`, which is two bytes long. -/
def Trapframe.intSyscall (tf : Trapframe) : Trapframe :=
  (tf.setRip (tf.rip + 2)).trapped tSyscall 0

/-- The traps that `trap` reflects to the parent process: not those it handles itself. -/
def reflected (trapno : ℕ) : Bool :=
  !(trapno = tDebug || trapno = tDevice || (32 ≤ trapno && trapno ≤ 51))

/-- The `entry` argument `trap` passes to `proc_ret`. -/
def trapEntry (trapno : ℕ) : Entry :=
  if trapno = tBrkpt ∨ trapno = tOflow then .complete else .trap

/-- What the processor does not let user code do: change its code segment or its I/O privilege
level, or touch the FPU while it is disabled. -/
def userCan (sv : Procstate) (tf tf' : Trapframe) (fx' : Fin 64 → BitVec 64) : Bool :=
  (tf.cs &&& 3 ≠ 3 || (tf'.cs = tf.cs && tf'.rflags &&& flIOPL = tf.rflags &&& flIOPL))
    && (sv.pff &&& pffUseFpu ≠ 0 || fx' = sv.fx)

section

variable {Cpu μ : Type} [DecidableEq Cpu] (net : BitVec 8) (sp : Spaces μ)

/-- The current process of a CPU. -/
def Sys.current (s : Sys Cpu μ) (c : Cpu) : Option (Pid × Proc Cpu μ) :=
  (s.cpu c).proc.bind fun p => (s.proc p).map (p, ·)

/-- The events of a CPU in user mode, with current process `p` and registers `tf`. -/
def userStep (c : Cpu) (p : Pid) (r : Proc Cpu μ) (tf : Trapframe) (s : Sys Cpu μ) :
    Event Cpu μ → Option (Sys Cpu μ)
  | .user _ tf' fx' m' =>
    if userCan r.sv tf tf' fx' then
      some ((s.upd p fun r => { r with sv := { r.sv with fx := fx' }, pml4 := m' }).setMode c
        (.user tf'))
    else none
  | .device _ =>
    some (s.upd p fun r => { r with sv := { r.sv with pff := r.sv.pff ||| pffUseFpu } })
  | .syscall _ t err km =>
    let tf := tf.intSyscall
    some (if tf.cs &&& 3 = 0 then s.halt else syscall net sp km c p r tf t err s)
  | .trap _ n err =>
    if !reflected n then none
    else
      let tf := tf.trapped n err
      some (if tf.cs &&& 3 = 0 then s.halt else s.setMode c (.ret tf (trapEntry n)))
  | .debug _ =>
    let tf := tf.trapped tDebug 0
    if tf.cs &&& 3 = 0 ∨ tf.rflags &&& flTF = 0 ∨ r.sv.pff &&& pffIcnt = 0 then some s.halt
    else
      let icnt := r.sv.icnt + 1
      let s := s.upd p fun r => { r with sv := { r.sv with icnt := icnt } }
      some (if icnt < r.sv.imax then s.setMode c (.user tf)
        else s.setMode c (.ret (tf.setTrapno (.ofNat 64 tIcnt)) .trap))
  | _ => none

/-- The events of a CPU, with current process `p`. -/
def cpuStep (c : Cpu) (p : Pid) (r : Proc Cpu μ) (s : Sys Cpu μ) (e : Event Cpu μ) :
    Option (Sys Cpu μ) :=
  match (s.cpu c).mode, e with
  | .user tf, e => userStep net sp c p r tf s e
  | .put tf cn, .body _ err km => some (doPut sp km c p tf cn err s)
  | .get tf cn, .body _ err _ => some (doGet sp c p tf cn err s)
  | .start tf cn, .start _ => some ((procReady (p.child cn) s).setMode c (.user tf))
  | .ret tf entry, .ret _ io => some (procRet net c p tf entry io s)
  | _, _ => none

/-- The CPU an event happens on. -/
def Event.cpu : Event Cpu μ → Option Cpu
  | .user c _ _ _ | .device c | .syscall c _ _ _ | .trap c _ _ | .debug c | .body c _ _ | .start c
  | .ret c _ | .sched c => some c
  | .wakeroot | .migrated _ | .arrive _ _ | .newcomer _ _ _ | .pulled _ _ => none

/-- The events that happen to a process from outside of the CPUs. -/
def netStep (s : Sys Cpu μ) : Event Cpu μ → Option (Sys Cpu μ)
  | .wakeroot => some (fileWakeroot s)
  | .migrated p =>
    if (s.proc p).map Proc.state = some .migr then
      some (s.upd p fun r => { r with state := .away })
    else none
  | .arrive p sv =>
    if (s.proc p).map Proc.state = some .away then
      some (s.upd p fun r => { r with state := .pull, sv := sv, pml4 := sp.fresh })
    else none
  | .newcomer n home sv =>
    if 0 < n ∧ (s.proc ⟨n, []⟩).isNone ∧ home ≠ net then
      some { s with
        proc := Function.update s.proc ⟨n, []⟩
          (some { procAlloc net sp.fresh with home := home, state := .pull, sv := sv }) }
    else none
  | .pulled p m =>
    if (s.proc p).map Proc.state = some .pull then
      some (procReady p (s.upd p fun r => { r with pml4 := m }))
    else none
  | _ => none

/-- One step of the system. -/
def step (s : Sys Cpu μ) (e : Event Cpu μ) : Option (Sys Cpu μ) :=
  if s.halted then none
  else
    match e, e.cpu with
    | .sched c, _ =>
      match (s.cpu c).mode with
      | .sched => procSched c s
      | _ => none
    | e, some c => (s.current c).bind fun pr => cpuStep net sp c pr.1 pr.2 s e
    | e, none => netStep net sp s e

/-! ## Starting up -/

/-- The registers `init` gives the root process. -/
def rootSv (entry rsp : BitVec 64) : Procstate :=
  let tf := (freshSv.tf.setRip entry).setRsp rsp
  { freshSv with tf := tf.setRflags (tf.rflags ||| flIF) }

/-- The state after `init` has made the root process ready: all CPUs are in the scheduler, and
only the boot CPU has had a current process. -/
def initSys (boot : Cpu) (sv : Procstate) (m : μ) (low : Trapframe) : Sys Cpu μ :=
  procReady .root
    { proc := fun p =>
        if p = .root then some { procAlloc net sp.fresh with sv := sv, pml4 := m } else none
      readyhead := none
      readytail := .head
      cpu := fun c => ⟨if c = boot then some .root else none, .sched⟩
      low := low
      halted := false }

/-- Runs all of whose steps are `ok`: the states some list of events leads to. -/
inductive Run (ok : Sys Cpu μ → Event Cpu μ → Prop) (s : Sys Cpu μ) :
    List (Event Cpu μ) → Sys Cpu μ → Prop
  | nil : Run ok s [] s
  | snoc {es : List (Event Cpu μ)} {t u : Sys Cpu μ} {e : Event Cpu μ} :
      Run ok s es t → ok t e → step net sp t e = some u → Run ok s (es ++ [e]) u

/-- Any step. -/
def anyStep : Sys Cpu μ → Event Cpu μ → Prop := fun _ _ => True

/-- Carry out a list of events. -/
def steps (s : Sys Cpu μ) : List (Event Cpu μ) → Option (Sys Cpu μ)
  | [] => some s
  | e :: es => (step net sp s e).bind fun t => steps t es

variable {net sp}

/-- An invariant of the steps is one of the runs. -/
theorem Run.invariant {ok : Sys Cpu μ → Event Cpu μ → Prop} {I : Sys Cpu μ → Prop}
    (hstep : ∀ s e t, I s → ok s e → step net sp s e = some t → I t) {s t : Sys Cpu μ}
    {es : List (Event Cpu μ)} (hr : Run net sp ok s es t) (hs : I s) : I t := by
  induction hr with
  | nil => exact hs
  | snoc _ hok ht ih => exact hstep _ _ _ ih hok ht

theorem Run.cons {ok : Sys Cpu μ → Event Cpu μ → Prop} {s t u : Sys Cpu μ} {e : Event Cpu μ}
    {es : List (Event Cpu μ)} (hok : ok s e) (ht : step net sp s e = some t)
    (hr : Run net sp ok t es u) : Run net sp ok s (e :: es) u := by
  induction hr with
  | nil => exact Run.snoc .nil hok ht
  | snoc _ hok' hu ih => exact Run.snoc ih hok' hu

theorem run_of_steps {s t : Sys Cpu μ} {es : List (Event Cpu μ)}
    (h : steps net sp s es = some t) : Run net sp anyStep s es t := by
  induction es generalizing s with
  | nil =>
    obtain rfl := Option.some.inj h
    exact .nil
  | cons e es ih =>
    obtain ⟨u, hu, ht⟩ := Option.bind_eq_some_iff.1 h
    exact Run.cons trivial hu (ih ht)

end

end Determinator
