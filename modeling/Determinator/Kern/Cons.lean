import Mathlib.Algebra.Group.Nat.Defs
import Mathlib.Data.List.Basic
import Mathlib.Logic.Function.Basic
import Mathlib.Tactic.Common

/-!
# The console and the root process

The console input buffer of `kern/cons.c`, and how the root process waits for input in
`kern/file.c`. The code is cut into its critical sections. The root process goes through `cons_io`
(under `cons_lock`) and, if there was nothing to do, to sleep (under `file_lock`); a console
interrupt, on any CPU, puts characters in the buffer (under `cons_lock`) and wakes the root process
(`file_wakeroot`, under `file_lock`). The kernel takes no interrupts while it runs for the root
process, so a CPU does one of the two at a time.

The bytes of the console files are lists; what the root process does with its files in user mode is
left open.
-/

namespace Determinator.Console

/-- `CONSBUFSIZE`. -/
def consBufsize : ℕ := 512

/-- `FILE_MAXSIZE`. -/
def fileMaxsize : ℕ := 2 ^ 22

/-- The console input buffer `cons`. -/
structure Buffer where
  buf : ℕ → BitVec 8
  rpos : ℕ
  wpos : ℕ

/-- Put a character in the buffer; a zero is dropped. -/
def Buffer.put (b : Buffer) (c : BitVec 8) : Buffer :=
  if c = 0 then b
  else
    { b with
      buf := Function.update b.buf b.wpos c
      wpos := if b.wpos + 1 = consBufsize then 0 else b.wpos + 1 }

/-- The loop of `cons_intr` over the characters that the device has. -/
def Buffer.puts (b : Buffer) (cs : List (BitVec 8)) : Buffer := cs.foldl Buffer.put b

/-- The console files of the root process, and its exit flag. -/
structure RootFiles where
  consin : List (BitVec 8)
  consout : List (BitVec 8)
  exited : Bool

/-- Where the root process is. -/
inductive Root (Cpu : Type)
  /-- In user mode. -/
  | user (c : Cpu)
  /-- In `file_io`, before `cons_io`. -/
  | io (c : Cpu)
  /-- In `file_io`, after a `cons_io` that did nothing. -/
  | idle (c : Cpu)
  /-- `PROC_STOP`. -/
  | stop
  /-- `PROC_READY`. -/
  | ready

/-- Where a console interrupt is on a CPU. -/
inductive Intr
  /-- There is none. -/
  | done
  /-- In `cons_intr`; the characters that the device has. -/
  | begin (cs : List (BitVec 8))
  /-- Before `file_wakeroot`. -/
  | wake

/-- The state of the console and of the root process. -/
structure State (Cpu : Type) where
  cons : Buffer
  consOutsize : ℕ
  printed : List (BitVec 8)
  files : RootFiles
  root : Root Cpu
  intr : Cpu → Intr
  halted : Bool

/-- One section. -/
inductive Act (Cpu : Type)
  /-- The root process runs in user mode and changes its files. -/
  | user (files : RootFiles)
  /-- The root process makes its RET. -/
  | ret
  /-- `cons_io`, and the rest of `file_io` up to the next lock. -/
  | consIo
  /-- The root process goes to sleep. -/
  | sleep
  /-- A console interrupt begins. -/
  | intr (c : Cpu) (cs : List (BitVec 8))
  /-- The loop of `cons_intr`. -/
  | store (c : Cpu)
  /-- `file_wakeroot`. -/
  | wakeroot (c : Cpu)
  /-- The scheduler of a CPU takes the root process. -/
  | sched (c : Cpu)

namespace State

variable {Cpu : Type} [DecidableEq Cpu]

/-- `cons_io`: print new output and take the input over; the flag tells whether there was any. A
failed assertion or a full input file halts the system. -/
def consIo (s : State Cpu) : Bool × State Cpu :=
  if s.files.consout.length < s.consOutsize ∨ s.cons.wpos < s.cons.rpos then
    (false, { s with halted := true })
  else
    let new := s.files.consout.drop s.consOutsize
    let amount := s.cons.wpos - s.cons.rpos
    if fileMaxsize < s.files.consin.length + amount ∨ consBufsize < amount then
      (false, { s with halted := true })
    else
      let s' := { s with
        printed := s.printed ++ new
        consOutsize := s.files.consout.length }
      if amount = 0 then (decide (new ≠ []), s')
      else
        let input := (List.range amount).map fun i => s.cons.buf (s.cons.rpos + i)
        (true, { s' with
          files := { s.files with consin := s.files.consin ++ input }
          cons := { s.cons with rpos := 0, wpos := 0 } })

/-- The root process is on this CPU. -/
def rootOn (s : State Cpu) (c : Cpu) : Bool :=
  match s.root with
  | .user d | .io d | .idle d => d = c
  | .stop | .ready => false

/-- The root process is in the kernel, on this CPU. -/
def rootInKernel (s : State Cpu) (c : Cpu) : Bool :=
  match s.root with
  | .io d | .idle d => d = c
  | .user _ | .stop | .ready => false

/-- There is no interrupt on this CPU. -/
def quiet (s : State Cpu) (c : Cpu) : Bool :=
  match s.intr c with
  | .done => true
  | .begin _ | .wake => false

/-- Change where the interrupt on a CPU is. -/
def setIntr (s : State Cpu) (c : Cpu) (i : Intr) : State Cpu :=
  { s with intr := Function.update s.intr c i }

/-- Carry out a section; `none` where it is not the next one. -/
def step (s : State Cpu) (a : Act Cpu) : Option (State Cpu) :=
  if s.halted then none
  else
    match a, s.root with
    | .user files, .user c => if s.quiet c then some { s with files := files } else none
    | .ret, .user c => if s.quiet c then some { s with root := .io c } else none
    | .consIo, .io c =>
      let r := s.consIo
      some (if r.2.files.exited then { r.2 with halted := true }
        else { r.2 with root := if r.1 then .user c else .idle c })
    | .sleep, .idle _ => some { s with root := .stop }
    | .intr c cs, _ =>
      if s.quiet c ∧ s.rootInKernel c = false then some (s.setIntr c (.begin cs)) else none
    | .store c, _ =>
      match s.intr c with
      | .begin cs => some { s.setIntr c .wake with cons := s.cons.puts cs }
      | .done | .wake => none
    | .wakeroot c, root =>
      match s.intr c with
      | .wake =>
        let s := s.setIntr c .done
        some (match root with
          | .stop => { s with root := .ready }
          | .user _ | .io _ | .idle _ | .ready => s)
      | .done | .begin _ => none
    | .sched c, .ready => if s.quiet c then some { s with root := .user c } else none
    | _, _ => none

/-- The start: the root process is ready, and no interrupt is under way. The devices may have
delivered characters before. -/
def init (cons : Buffer) (files : RootFiles) : State Cpu where
  cons := cons
  consOutsize := 0
  printed := []
  files := files
  root := .ready
  intr := fun _ => .done
  halted := false

/-- The states that are reached by steps that meet `P`. -/
inductive Run (P : State Cpu → Act Cpu → Prop) : State Cpu → Prop
  | init (cons : Buffer) (files : RootFiles) : Run P (init cons files)
  | step {s t : State Cpu} {a : Act Cpu} : Run P s → P s a → s.step a = some t → Run P t

/-- Carry out a list of sections. -/
def steps (s : State Cpu) : List (Act Cpu) → Option (State Cpu)
  | [] => some s
  | a :: as => (s.step a).bind fun t => steps t as

end State

end Determinator.Console
