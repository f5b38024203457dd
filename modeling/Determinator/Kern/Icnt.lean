import Mathlib.Algebra.Group.Int.Defs
import Mathlib.Algebra.Group.Nat.Defs
import Mathlib.Data.Nat.Init
import Mathlib.Tactic.Common

/-!
# Counting instructions

A process with `PFF_ICNT` runs until it has executed `imax` instructions. `proc_run` of
`kern/proc.c` chooses between the performance counter of `dev/pmc.c` and single steps, `proc_save`
collects the count, and `trap` of `kern/trap.c` handles the debug trap and the counter's interrupt.

The processor is part of the model. Its counter counts every instruction that the process executes,
the `INT` of a system call as well; where the counter has overflowed, an interrupt follows, at most
`pmcSafety` instructions later. With `FL_TF` set a debug trap follows every instruction but `INT`.
An interrupt of the counter may also come at any other time: one that belongs to a process that was
on this processor before.

`icnt0` and `done` are the record of the run: the count at the start, and the instructions
completed since. The flags `FL_TF` and `FL_IF` are those of the trap frame while the process is not
running.
-/

namespace Determinator.Icnt

/-- `pmc_safety`, where there are counters. -/
def pmcSafety : ℕ := 80

/-- A `uint32_t`. -/
def u32 (n : ℕ) : ℕ := n % 2 ^ 32

/-- The difference of two values of type `uint32_t`. -/
def sub32 (m n : ℕ) : ℕ := u32 (m + 2 ^ 32 - n)

/-- A `uint32_t` as an `int32_t`. -/
def i32 (n : ℕ) : ℤ := if n < 2 ^ 31 then n else n - 2 ^ 32

/-- The trap numbers a process stops with; `fault` stands for all others. -/
inductive Trapno
  | syscall
  | brkpt
  | oflow
  | icnt
  | fault
  deriving DecidableEq

/-- The argument `entry` of `proc_save`. -/
inductive Entry
  /-- `-1`: a trap before an instruction. -/
  | trap
  /-- `0`: a system call that is rolled back. -/
  | abort
  /-- `1`: a system call that is completed. -/
  | complete
  deriving DecidableEq

/-- What a process is doing. -/
inductive Mode
  /-- It has not been started. -/
  | fresh
  /-- It is saved and will run: it is ready, waits for a child or migrates. -/
  | saved
  | run
  /-- It has stopped, and its parent can see it. -/
  | stop (trapno : Trapno)
  deriving DecidableEq

/-- A process and the processor it runs on. -/
structure State where
  mode : Mode
  flTF : Bool
  flIF : Bool
  icnt : ℕ
  imax : ℕ
  pmcmax : ℕ
  /-- Whether `pmc_set` and `pmc_get` are there, on the node where the process runs. -/
  pmc : Bool
  /-- Whether that node is the home of the process. -/
  home : Bool
  /-- The counter's register. -/
  ctr : ℕ
  /-- Whether the counter counts. -/
  counting : Bool
  /-- How many instructions ago the counter has overflowed. -/
  since : Option ℕ
  panicked : Bool
  icnt0 : ℕ
  done : ℕ

/-- What an `INT` instruction does. -/
inductive Call
  /-- A system call that returns to the process at once. -/
  | inPlace
  /-- A system call that is rolled back to wait for a child or to migrate. -/
  | wait
  /-- A system call that is rolled back and becomes a trap, by `systrap`. -/
  | systrap
  /-- `SYS_RET`. -/
  | ret
  | brkpt
  | oflow
  /-- A system call of no known type, which is handled as a regular trap. -/
  | unknown
  deriving DecidableEq

/-- What can happen. -/
inductive Act
  /-- The parent sets the counts and starts the process. -/
  | start (icnt imax : ℕ)
  /-- `proc_run`, on a node with or without counters, the home node or another. -/
  | run (pmc home : Bool)
  /-- The process executes an instruction other than `INT`; one that loads the flags gives
  `FL_TF`. -/
  | insn (flTF : Option Bool)
  /-- The process executes an `INT` instruction. -/
  | int (call : Call)
  /-- A trap or an interrupt after which the process goes on. -/
  | resolved
  /-- Any other trap. -/
  | fault
  /-- The interrupt of the counter. -/
  | perfctr

variable (w : ℕ)

/-- The register that `pmc_amdset` writes; `w` is the width of the counter. -/
def pmcAmdset (maxcnt : ℕ) : ℕ := (2 ^ w - maxcnt % 2 ^ w) % 2 ^ w

/-- `pmc_amdget`. -/
def pmcAmdget (maxcnt ctr : ℕ) : ℕ :=
  let init := (2 ^ w - maxcnt % 2 ^ w) % 2 ^ w
  let ctr := if ctr < init then ctr + 2 ^ w else ctr
  ctr - init

namespace State

/-- An assertion. -/
def check (s : State) (c : Bool) : State := if c then s else { s with panicked := true }

/-- The processor completes an instruction. -/
def tick (s : State) : State :=
  if s.counting then
    let ctr := (s.ctr + 1) % 2 ^ w
    { s with ctr := ctr, since := if ctr = 0 then some 0 else s.since.map (· + 1) }
  else s

/-- The interrupt of the counter cannot be put off any longer. -/
def due (s : State) : Bool :=
  s.counting && match s.since with
    | some k => pmcSafety ≤ k
    | none => false

/-- `proc_save`. -/
def procSave (s : State) (entry : Entry) : State :=
  let s :=
    if s.flTF then
      { s with
        icnt := if entry = .complete then u32 (s.icnt + 1) else s.icnt
        flTF := false
        flIF := true }
    else if 0 < s.pmcmax then
      let s := s.check s.pmc
      let icnt := u32 (s.icnt + pmcAmdget w s.pmcmax s.ctr)
      let icnt := if entry = .abort then sub32 icnt 1 else icnt
      let s := { s with icnt := icnt, pmcmax := 0, counting := false }
      s.check (s.icnt ≤ s.imax)
    else s
  let s := s.check (s.icnt ≤ s.imax)
  let s := s.check (!s.flTF)
  s.check (s.pmcmax = 0)

/-- `proc_ret`: a process that is not at home migrates, and a system call is then rolled back. -/
def procRet (s : State) (trapno : Trapno) (entry : Entry) : State :=
  if s.home then { s.procSave w entry with mode := .stop trapno }
  else { s.procSave w (if entry = .complete then .abort else entry) with mode := .saved }

/-- `proc_run`. -/
def procRun (s : State) (pmc home : Bool) : State :=
  let s := { s with mode := .run, pmc := pmc, home := home }
  let s := s.check (!s.flTF)
  let s := s.check (s.pmcmax = 0)
  if s.imax ≤ s.icnt then s.procRet w .icnt .trap
  else
    let pmax := i32 (sub32 (sub32 s.imax s.icnt) pmcSafety)
    if s.pmc ∧ 0 < pmax then
      let s := s.check s.flIF
      { s with ctr := pmcAmdset w pmax.toNat, counting := true, since := none, pmcmax := pmax.toNat }
    else { s with flTF := true, flIF := false }

/-- The debug trap. -/
def debug (s : State) : State :=
  let s := s.check s.flTF
  let s := s.check (!s.pmc || sub32 s.imax s.icnt ≤ pmcSafety)
  let s := { s with icnt := u32 (s.icnt + 1) }
  if s.icnt < s.imax then s else s.procRet w .icnt .trap

/-- The interrupt of the counter. -/
def perfctr (s : State) : State :=
  if s.pmcmax = 0 then s
  else
    let s := s.check s.pmc
    let ninsn := pmcAmdget w s.pmcmax s.ctr
    let s := { s with icnt := u32 (s.icnt + ninsn), pmcmax := 0, counting := false }
    let s := s.check (s.icnt ≤ s.imax)
    if s.icnt < s.imax then { s with flTF := true } else s.procRet w .icnt .trap

/-- The process has executed an `INT` instruction. -/
def int (s : State) : Call → State
  | .inPlace => { s with done := s.done + 1 }
  | .wait => { s.procSave w .abort with mode := .saved }
  | .systrap => s.procRet w .fault .abort
  | .ret => { s.procRet w .syscall .complete with done := if s.home then s.done + 1 else s.done }
  | .brkpt => { s.procRet w .brkpt .complete with done := if s.home then s.done + 1 else s.done }
  | .oflow => { s.procRet w .oflow .complete with done := if s.home then s.done + 1 else s.done }
  | .unknown => { s.procRet w .syscall .trap with done := s.done + 1 }

/-- The parent may start the process. -/
def startable (s : State) : Bool :=
  match s.mode with
  | .fresh | .stop _ => true
  | .saved | .run => false

/-- One step; `none` where it cannot be taken. -/
def step (s : State) (a : Act) : Option State :=
  if s.panicked then none
  else
    match a with
    | .start icnt imax =>
      if s.startable ∧ icnt ≤ imax ∧ imax < 2 ^ 32 then
        some { s with
          mode := .saved, flTF := false, flIF := true, icnt := icnt, imax := imax,
          icnt0 := icnt, done := 0 }
      else none
    | .run pmc home => if s.mode = .saved then some (s.procRun w pmc home) else none
    | .insn flTF =>
      if s.mode = .run ∧ s.due = false then
        let u := s.tick w
        let u := { u with done := u.done + 1, flTF := flTF.getD u.flTF }
        some (if s.flTF then u.debug w else u)
      else none
    | .int call =>
      if s.mode = .run ∧ s.due = false then some ((s.tick w).int w call) else none
    | .resolved => if s.mode = .run ∧ s.due = false then some s else none
    | .fault =>
      if s.mode = .run ∧ s.due = false then some (s.procRet w .fault .trap) else none
    | .perfctr => if s.mode = .run then some (s.perfctr w) else none

/-- A process as `proc_alloc` makes it. -/
def init : State where
  mode := .fresh
  flTF := false
  flIF := false
  icnt := 0
  imax := 0
  pmcmax := 0
  pmc := false
  home := true
  ctr := 0
  counting := false
  since := none
  panicked := false
  icnt0 := 0
  done := 0

/-- The states that are reached by steps that meet `Q`. -/
inductive Run (Q : State → Act → Prop) : State → Prop
  | init : Run Q init
  | step {s u : State} {a : Act} : Run Q s → Q s a → s.step w a = some u → Run Q u

/-- Carry out a list of steps. -/
def steps (s : State) : List Act → Option State
  | [] => some s
  | a :: as => (s.step w a).bind fun u => steps u as

end State

end Determinator.Icnt
