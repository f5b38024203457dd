import Determinator.Lib.Mutex
import Mathlib.Logic.Function.Basic

/-!
# Spin locks

`kern/spinlock.c`, for one lock and any number of CPUs. A step is one access to the lock by one CPU. The caller's code
may call the functions in any order, and changes the data which the lock protects only where the CPU has acquired the
lock and not released it. What is kept in a lock for debugging (`file`, `line`, `eips`) is left out.
-/

namespace Determinator

namespace Spinlock

variable {C S : Type}

/-- The functions of a lock. -/
inductive Call
  | acquire
  | release
  | holding

/-- Where a CPU is. `held` says whether its caller's code is where the lock has been acquired and not released. -/
inductive Pc
  /-- In the caller's code. -/
  | caller (held : Bool)
  /-- In `spinlock_holding`, which the function has called or is: to read `lock->locked`. -/
  | locked (k : Call) (held : Bool)
  /-- To read `lock->cpu`. -/
  | cpu (k : Call) (held : Bool)
  /-- In `spinlock_acquire`: to exchange `lk->locked` with 1. -/
  | spin
  /-- To set `lk->cpu`. -/
  | record
  /-- In `spinlock_release`: to clear `lk->cpu`. -/
  | clear
  /-- To exchange `lk->locked` with 0. -/
  | unlock
  /-- The function has panicked. -/
  | panic (k : Call) (held : Bool)

/-- A lock, the CPUs and the data that the lock protects. -/
structure State (C S : Type) where
  locked : BitVec 32
  cpu : Option C
  pc : C → Pc
  data : S

/-- After `spinlock_init`, on data `d`. -/
def State.init (d : S) : State C S where
  locked := 0
  cpu := none
  pc _ := .caller false
  data := d

/-- What the function does with the answer of `spinlock_holding`. -/
def answer (held b : Bool) : Call → Pc
  | .acquire => if b then .panic .acquire held else .spin
  | .release => if b then .clear else .panic .release held
  | .holding => .caller held

/-- What a CPU does next: its caller's code calls a function or changes the data, or it goes on in a function. -/
inductive Act (S : Type)
  | call (k : Call)
  | act (f : S → S)
  | go

variable [DecidableEq C]

def State.goto (s : State C S) (c : C) (pc : Pc) : State C S := { s with pc := Function.update s.pc c pc }

/-- A CPU goes on in a function. -/
def go (s : State C S) (c : C) : Pc → Option (State C S × List (MutexEvent C S))
  | .locked k held =>
    if s.locked = 0 then some (s.goto c (answer held false k), [.ask c false])
    else some (s.goto c (.cpu k held), [])
  | .cpu k held =>
    let b := decide (s.cpu = some c)
    some (s.goto c (answer held b k), [.ask c b])
  | .spin =>
    if s.locked = 0 then some ({ s.goto c .record with locked := 1 }, [.take c])
    else some ({ s with locked := 1 }, [])
  | .record => some ({ s.goto c (.caller true) with cpu := some c }, [])
  | .clear => some ({ s.goto c .unlock with cpu := none }, [])
  | .unlock => some ({ s.goto c (.caller false) with locked := 0 }, [.drop c])
  | .caller _ => none
  | .panic _ _ => none

/-- A step of a CPU, and what it means. -/
def step (s : State C S) (c : C) (a : Act S) : Option (State C S × List (MutexEvent C S)) :=
  match a, s.pc c with
  | .call k, .caller held => some (s.goto c (.locked k held), [])
  | .act f, .caller true => some ({ s with data := f s.data }, [.act c f])
  | .go, pc => go s c pc
  | _, _ => none

/-- Steps of CPUs. -/
def run : List (C × Act S) → State C S → Option (State C S × List (MutexEvent C S))
  | [], s => some (s, [])
  | (c, a) :: as, s => do
    let (s, es) ← step s c a
    let (s, es') ← run as s
    some (s, es ++ es')

end Spinlock

end Determinator
