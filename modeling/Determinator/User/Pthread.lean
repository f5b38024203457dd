import Determinator.Lib.Except
import Mathlib.Data.List.Range
import Mathlib.Logic.Function.Basic

/-!
# Joining a thread

Barriers and `pthread_join` of `lib/pthread.c`. A thread is a child process. It stops for its parent
when it waits at a barrier and when its start routine returns, and it leaves in `%edx` what the parent
needs to tell these apart.

What the threads do between two stops is left out: the model takes the stops of every thread, in
their order, as given, so that it covers every start routine, whatever it finds in shared memory.
A thread runs on when its parent restarts it, and then comes to its next stop. A thread whose start
routine has returned is not meant to be restarted; if it is, its further stops may be anything.
-/

namespace Determinator.Pthread

/-! ## Barriers -/

/-- `PROC_CHILDREN`. -/
def procChildren : ℕ := 256

/-- `BARRIER_MAX`. -/
def barrierMax : ℕ := procChildren

/-- A barrier, as its index in `files->barriers`. -/
abbrev Barrier := Fin barrierMax

/-- `EXIT_BARRIER`. -/
def exitBarrier : BitVec 32 := 0x80000000

/-- `BARRIER_MASK`. -/
def barrierMask : BitVec 32 := 0xff

/-- `BARRIER_READ`. -/
def barrierRead (b : BitVec 32) : Barrier :=
  ⟨(b &&& barrierMask).toNat, by
    rw [BitVec.toNat_and]
    exact Nat.lt_of_le_of_lt Nat.and_le_right (by decide)⟩

/-- `BARRIER_WRITE`. -/
def barrierWrite (b : Barrier) : BitVec 32 := exitBarrier ||| BitVec.ofNat 32 b

/-! ## Threads -/

/-- What a thread stops for: it waits at a barrier, its start routine returns, or it traps. -/
inductive Stop
  | wait (b : Barrier)
  | ret (v : BitVec 64)
  | trap
  deriving DecidableEq

/-- What the thread leaves in `%edx`. -/
def Stop.edx : Stop → BitVec 32
  | .wait b => barrierWrite b
  | .ret v => v.setWidth 32
  | .trap => 0

/-- Error numbers. -/
inductive Errno
  | einval
  | eagain
  deriving DecidableEq

/-- The function that has an assertion. -/
inductive Site
  | waitAtBarrier
  deriving DecidableEq

/-- The process that joins threads: its barriers with the number of threads that are to wait there, which
children are `PROC_FORKED`, how often each thread has been restarted, and as what it took the stops
that it looked at: as arrival at a barrier, or as exit (`none`). -/
structure Parent where
  barriers : Barrier → ℤ
  forked : ℕ → Bool
  pos : ℕ → ℕ
  log : List (Stop × Option Barrier)

namespace Parent

variable (stops : ℕ → ℕ → Stop) (σ : Parent)

/-- The stop at which `sys_get` finds the thread. -/
def stop (th : ℕ) : Stop := stops th (σ.pos th)

/-- Take a stop for an arrival or an exit. -/
def take (stop : Stop) (b : Option Barrier) : Parent := { σ with log := σ.log ++ [(stop, b)] }

/-- `sys_put` with `SYS_START` on these threads. -/
def restart (threads : List ℕ) : Parent :=
  { σ with pos := fun th => if th ∈ threads then σ.pos th + 1 else σ.pos th }

end Parent

/-! ## Joining -/

section join

variable (stops : ℕ → ℕ → Stop)

/-- The loop of `wait_at_barrier`, with the threads found so far. The result is `none` where a thread
has trapped. -/
def collect (first : ℕ) (barrier : Barrier) (count : ℤ) :
    List ℕ → List ℕ → Parent → Except Site (Option (List ℕ) × Parent)
  | [], threads, σ => return (some threads, σ)
  | th :: ths, threads, σ =>
    if ¬ threads.length < count then return (some threads, σ)
    else if th = first ∨ σ.forked th = false then collect first barrier count ths threads σ
    else do
      let stop := σ.stop stops th
      if stop = .trap then return (none, σ)
      require (barrier = barrierRead stop.edx) .waitAtBarrier
      collect first barrier count ths (threads ++ [th]) (σ.take stop (some barrier))

/-- `wait_at_barrier`. -/
def waitAtBarrier (first : ℕ) (barrier : Barrier) (σ : Parent) : Except Site (ℤ × Parent) := do
  let count := σ.barriers barrier
  let (threads, σ) ← collect stops first barrier count (List.range' 1 (procChildren - 1)) [first] σ
  match threads with
  | none => return (-1, σ)
  | some threads =>
    if threads.length < count then return (threads.length, σ)
    else return (0, σ.restart (threads.take count.toNat))

/-- What `pthread_join` returns, the error number, and what it stores in `out_exitval`. -/
structure Joined where
  ret : ℤ
  errno : Option Errno
  exitval : BitVec 64
  deriving DecidableEq

/-- The end of `pthread_join`: the child is free. The status is an `int`, which is converted to a
pointer. -/
def done (th : ℕ) (ret : ℤ) (errno : Option Errno) (status : BitVec 32) (σ : Parent) :
    Joined × Parent :=
  (⟨ret, errno, status.signExtend 64⟩, { σ with forked := Function.update σ.forked th false })

/-- `pthread_join`, for so many rounds of its loop at most; `none` if it goes on after them. -/
def pthreadJoin : ℕ → ℕ → Parent → Except Site (Option (Joined × Parent))
  | 0, _, _ => return none
  | k + 1, th, σ =>
    let stop := σ.stop stops th
    if stop = .trap then return some (done th (-1) (some .einval) (-1) σ)
    else
      let status := stop.edx
      if status &&& exitBarrier ≠ 0 then do
        let barrier := barrierRead status
        let (ret, σ) ← waitAtBarrier stops th barrier (σ.take stop (some barrier))
        if ret = -1 then return some (done th (-1) (some .einval) status σ)
        else if ret > 0 then return some (done th (-1) (some .eagain) status σ)
        else pthreadJoin k th σ
      else return some (done th 0 none status (σ.take stop none))

end join

end Determinator.Pthread
