import Determinator.Kern.Icnt

/-!
# Limits set by the parent

The instruction count of a child together with its feature flags `pff`, all of which the parent
stores with `PUT` and `SYS_REGS`. Without `PFF_ICNT` the kernel does not count and only looks
whether nobody else does; with it the rules of the count apply.

The state `sv` is that of a process and its processor. A `PUT` whose copy of the registers ends with
a fault leaves in the child what it has copied so far, with the flags register as the parent has
written it.
-/

namespace Determinator.Icnt

/-- `PFF_USEFPU`. -/
def pffUsefpu : BitVec 32 := 0x1

/-- `PFF_ICNT`. -/
def pffIcnt : BitVec 32 := 0x200

/-- A child: its feature flags, and its count. -/
structure Child where
  pff : BitVec 32
  sv : State

namespace Child

/-- What can happen. -/
inductive Act
  /-- `PUT` with `SYS_REGS`. -/
  | put (pff icnt imax : BitVec 32)
  /-- `PUT` with `SYS_REGS`, where the copy ends with a fault. -/
  | putAborted (pff icnt imax : BitVec 32) (flTF flIF : Bool)
  /-- `PUT` with `SYS_START`. -/
  | start
  /-- `proc_run`, on a node with or without counters, the home node or another. -/
  | run (pmc home : Bool)
  /-- The child executes an instruction other than `INT`; one that loads the flags gives
  `FL_TF`. -/
  | insn (flTF : Option Bool)
  /-- The child executes an `INT` instruction. -/
  | int (call : Call)
  /-- `T_DEVICE`. -/
  | device
  /-- Another trap or interrupt after which the child goes on. -/
  | resolved
  /-- Any other trap. -/
  | fault
  /-- `T_PERFCTR`. -/
  | perfctr

/-- Whether instructions are counted. -/
def counts (c : Child) : Bool := c.pff &&& pffIcnt != 0

/-- Change the count. -/
def setSv (c : Child) (s : State) : Child := { c with sv := s }

/-- An assertion. -/
def check (c : Child) (b : Bool) : Child := c.setSv (c.sv.check b)

/-- What the parent stores. -/
def store (c : Child) (pff icnt imax : BitVec 32) (flTF flIF : Bool) : Child :=
  ⟨pff, { c.sv with icnt := icnt.toNat, imax := imax.toNat, flTF := flTF, flIF := flIF }⟩

variable (w : ℕ)

/-- `proc_save`. -/
def procSave (c : Child) (entry : Entry) : Child :=
  if c.counts then c.setSv (c.sv.procSave w entry)
  else (c.check (!c.sv.flTF)).check (c.sv.pmcmax = 0)

/-- `proc_ret`. -/
def procRet (c : Child) (trapno : Trapno) (entry : Entry) : Child :=
  if c.sv.home then
    let c := c.procSave w entry
    c.setSv { c.sv with mode := .stop trapno }
  else
    let c := c.procSave w (if entry = .complete then .abort else entry)
    c.setSv { c.sv with mode := .saved }

/-- `proc_run`. -/
def procRun (c : Child) (pmc home : Bool) : Child :=
  if c.counts then c.setSv (c.sv.procRun w pmc home)
  else
    let c := c.setSv { c.sv with mode := .run, pmc := pmc, home := home }
    (c.check (!c.sv.flTF)).check (c.sv.pmcmax = 0)

/-- The debug trap. -/
def debug (c : Child) : Child :=
  if c.counts then c.setSv (c.sv.debug w) else c.check false

/-- The interrupt of the counter. -/
def perfctr (c : Child) : Child :=
  if c.sv.pmcmax = 0 then c
  else if c.counts then c.setSv (c.sv.perfctr w)
  else c.check false

/-- The child has executed an `INT` instruction. -/
def int (c : Child) : Call → Child
  | .inPlace => c
  | .wait =>
    let c := c.procSave w .abort
    c.setSv { c.sv with mode := .saved }
  | .systrap => c.procRet w .fault .abort
  | .ret => c.procRet w .syscall .complete
  | .brkpt => c.procRet w .brkpt .complete
  | .oflow => c.procRet w .oflow .complete
  | .unknown => c.procRet w .syscall .trap

/-- One step; `none` where it cannot be taken. -/
def step (c : Child) (a : Act) : Option Child :=
  if c.sv.panicked then none
  else
    match a with
    | .put pff icnt imax =>
      if c.sv.startable then some (c.store pff icnt imax false true) else none
    | .putAborted pff icnt imax flTF flIF =>
      if c.sv.startable then some (c.store pff icnt imax flTF flIF) else none
    | .start =>
      if c.sv.startable then some (c.setSv { c.sv with mode := .saved }) else none
    | .run pmc home => if c.sv.mode = .saved then some (c.procRun w pmc home) else none
    | .insn flTF =>
      if c.sv.mode = .run ∧ c.sv.due = false then
        let s := c.sv.tick w
        let d := c.setSv { s with flTF := flTF.getD s.flTF }
        some (if c.sv.flTF then d.debug w else d)
      else none
    | .int call =>
      if c.sv.mode = .run ∧ c.sv.due = false then some ((c.setSv (c.sv.tick w)).int w call)
      else none
    | .device =>
      if c.sv.mode = .run ∧ c.sv.due = false then some { c with pff := c.pff ||| pffUsefpu }
      else none
    | .resolved => if c.sv.mode = .run ∧ c.sv.due = false then some c else none
    | .fault =>
      if c.sv.mode = .run ∧ c.sv.due = false then some (c.procRet w .fault .trap) else none
    | .perfctr => if c.sv.mode = .run then some (c.perfctr w) else none

/-- A child as `proc_alloc` makes it. -/
def init : Child := ⟨0, State.init⟩

/-- The states that are reached by steps that meet `Q`. -/
inductive Run (Q : Child → Act → Prop) : Child → Prop
  | init : Run Q init
  | step {c d : Child} {a : Act} : Run Q c → Q c a → c.step w a = some d → Run Q d

end Child

end Determinator.Icnt
