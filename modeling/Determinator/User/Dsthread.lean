import Determinator.Lib.Queue
import Mathlib.Data.List.Range

/-!
# Deterministically scheduled threads

The pthreads library of `lib/dsthread.c`: its thread, mutex and condition variable records, the
code of its calls, and the scheduler that runs each thread as a child process on a private copy of
the memory.

A thread's code is cut at its accesses to shared memory (`Pc`): a quantum may expire between any
two of them. `exec` is one such piece of code and works on whichever memory the thread runs on,
the child's or the master's; as in the source, `tlock` tells it which. A child that has taken
`tlock` when its quantum expires goes on in the master from where it was. The code of the master
is not preempted.

What is left out: saving and restoring registers (the thread resumes at the saved `eip`), thread
stacks and thread-private pages, exit values, thread-specific data and the heap. The model starts
where `init` has put thread 0 on the run queue. `self()` is the calling thread. The policy
constants `P_MUTEXFAIR` and `P_MUTEXIMMED` are 0, and `MAXTHREADS` is the parameter `N`.
-/

namespace Determinator.Dsthread

/-- A thread, by its index in `th`. -/
abbrev Tid := ℕ

/-- A mutex, by its address. -/
abbrev MutexId := ℕ

/-- A condition variable, by its address. -/
abbrev CondId := ℕ

/-! ## Records -/

/-- Thread states. -/
inductive TState
  | free
  | run
  | mutex
  | cond
  | exit
  deriving DecidableEq

/-- Where a panic or a failed assertion is. -/
inductive Site
  | mlock
  | mcall
  | mret
  | sched
  | trun
  | tblock
  | tready
  | create
  | join
  | exit
  | mutexlock
  | relock
  | trylock
  | mutexunlock
  | mutexreqs
  | condevent
  | condwait
  | condwakeups
  deriving DecidableEq

/-- What a thread does once `tevents` is through. -/
inductive After
  /-- `mret`: go on in the child. -/
  | ret
  /-- `pthread_sched`: resume user code that was preempted. -/
  | user
  /-- `pthread_sched`: resume `condevent` before its `mlock`. -/
  | test (c : CondId) (broadcast : Bool)
  /-- `tblock` in `mutexlock`. -/
  | lock (m : MutexId)
  /-- `tblock` in `pthread_cond_wait`. -/
  | wait (m : MutexId)
  /-- `tblock` in `pthread_join`. -/
  | join (tj : Tid)
  /-- `tblock` in `pthread_exit`. -/
  | exit
  deriving DecidableEq

/-- Where a thread is in the library's code. -/
inductive Pc
  /-- In the program's own code. -/
  | user
  /-- `mutexlock`, at the first test of the owner. -/
  | lock (m : MutexId)
  /-- `mutexlock`, in `mcall`. -/
  | lockCall (m : MutexId)
  /-- `mutexlock`, after `mcall`: steal the mutex from a blocked owner. -/
  | lockSync (m : MutexId)
  /-- `mutexlock`, at the second test of the owner. -/
  | lockIf (m : MutexId)
  /-- `mutexlock`, at `assert(m->owner == t)`. -/
  | grab (m : MutexId)
  /-- Before `m->locked = 1`, in `mutexlock` or `pthread_mutex_trylock`. -/
  | setLocked (m : MutexId)
  /-- `pthread_mutex_trylock`, at the test of the owner. -/
  | tryLock (m : MutexId)
  /-- `mutexunlock`, at its assertions. -/
  | unlock (m : MutexId)
  /-- `mutexunlock`, before `m->locked = 0`. -/
  | clearLocked (m : MutexId)
  /-- `condevent`, at the test for waiters; `tlock` is not taken yet. -/
  | test (c : CondId) (broadcast : Bool)
  /-- `condevent`, at the test of `nwake`. -/
  | link (c : CondId) (broadcast : Bool)
  /-- `condevent`, before `evconds = c`. -/
  | chain (c : CondId) (broadcast : Bool)
  /-- `condevent`, before the change of `nwake`. -/
  | count (c : CondId) (broadcast : Bool)
  /-- `pthread_cond_wait`, in `mcall`. -/
  | waitCall (c : CondId) (m : MutexId)
  /-- `pthread_cond_wait`, after `mcall`. -/
  | waitSync (c : CondId) (m : MutexId)
  /-- `pthread_create`, in `mcall`. -/
  | createCall (detached : Bool)
  /-- `pthread_create`, after `mcall`. -/
  | createSync (detached : Bool)
  /-- `pthread_join`, at the first test of the state. -/
  | join (tj : Tid)
  /-- `pthread_join`, in `mcall`. -/
  | joinCall (tj : Tid)
  /-- `pthread_join`, after `mcall`. -/
  | joinSync (tj : Tid)
  /-- `pthread_join`, at `assert(tj->state == TH_EXIT)`. -/
  | joinFree (tj : Tid)
  /-- `pthread_exit`, in `mcall`. -/
  | exitCall
  /-- `pthread_exit`, after `mcall`. -/
  | exitSync
  /-- `mret`. -/
  | ret
  /-- `tevents`, in `condwakeups`. -/
  | events (a : After)
  /-- `tevents`, in the loop of `mutexreqs`: `mp` points at `t->reqs` or at a `reqnext`. -/
  | reqs (mp : Link MutexId) (a : After)
  /-- `tevents` is through. -/
  | done (a : After)
  /-- An exited thread. -/
  | dead
  /-- A panic. -/
  | failed (w : Site)
  deriving DecidableEq

/-- The points at which a child traps into the master. -/
def Pc.traps : Pc → Bool
  | .lockCall _ | .waitCall _ _ | .createCall _ | .joinCall _ | .exitCall => true
  | _ => false

/-- `struct pthread`. -/
structure Pthread where
  state : TState
  detached : Bool
  qnext : Option Tid
  reqs : Option MutexId
  joiner : Option Tid
  eip : Pc
  deriving DecidableEq

/-- `struct pthread_mutex`. An initialised mutex always has an owner. -/
structure Mutex where
  owner : Tid
  locked : Bool
  qhead : Option Tid
  qtail : Link Tid
  reqnext : Option MutexId
  deriving DecidableEq

/-- `struct pthread_cond`. -/
structure Cond where
  nwake : ℕ
  qhead : Option Tid
  qtail : Link Tid
  evnext : Option CondId
  deriving DecidableEq

/-- The memory that the threads share. -/
structure Mem where
  th : Tid → Pthread
  mutex : MutexId → Mutex
  cond : CondId → Cond
  tlock : ℕ
  readyqhead : Option Tid
  readyqtail : Link Tid
  runqhead : Option Tid
  runqtail : Link Tid
  runqlen : ℕ
  evconds : Option CondId

/-- The queues that are threaded through `qnext`. -/
inductive Queue
  | ready
  | run
  | mutex (m : MutexId)
  | cond (c : CondId)
  deriving DecidableEq

/-- What a program sees of its calls. -/
inductive Note
  | locked (t : Tid) (m : MutexId)
  | unlocked (t : Tid) (m : MutexId)
  | waits (t : Tid) (c : CondId)
  | signals (t : Tid) (c : CondId)
  | broadcasts (t : Tid) (c : CondId)
  | wakes (t : Tid) (c : CondId)
  deriving DecidableEq

/-! ## Memory -/

namespace Mem

/-- Change the record of a thread. -/
def setTh (μ : Mem) (t : Tid) (f : Pthread → Pthread) : Mem :=
  { μ with th := Function.update μ.th t (f (μ.th t)) }

/-- Change a mutex. -/
def setMutex (μ : Mem) (m : MutexId) (f : Mutex → Mutex) : Mem :=
  { μ with mutex := Function.update μ.mutex m (f (μ.mutex m)) }

/-- Change a condition variable. -/
def setCond (μ : Mem) (c : CondId) (f : Cond → Cond) : Mem :=
  { μ with cond := Function.update μ.cond c (f (μ.cond c)) }

/-- The first thread of a queue. -/
def head (μ : Mem) : Queue → Option Tid
  | .ready => μ.readyqhead
  | .run => μ.runqhead
  | .mutex m => (μ.mutex m).qhead
  | .cond c => (μ.cond c).qhead

/-- The pointer to the last link of a queue. -/
def tail (μ : Mem) : Queue → Link Tid
  | .ready => μ.readyqtail
  | .run => μ.runqtail
  | .mutex m => (μ.mutex m).qtail
  | .cond c => (μ.cond c).qtail

/-- Set the pointer to the first thread of a queue. -/
def setHead (μ : Mem) (q : Queue) (h : Option Tid) : Mem :=
  match q with
  | .ready => { μ with readyqhead := h }
  | .run => { μ with runqhead := h }
  | .mutex m => μ.setMutex m fun x => { x with qhead := h }
  | .cond c => μ.setCond c fun x => { x with qhead := h }

/-- Set the pointer to the last link of a queue. -/
def setTail (μ : Mem) (q : Queue) (l : Link Tid) : Mem :=
  match q with
  | .ready => { μ with readyqtail := l }
  | .run => { μ with runqtail := l }
  | .mutex m => μ.setMutex m fun x => { x with qtail := l }
  | .cond c => μ.setCond c fun x => { x with qtail := l }

/-- The link of a thread. -/
def qnext (μ : Mem) (t : Tid) : Option Tid := (μ.th t).qnext

/-- Set the link of a thread. -/
def setQnext (μ : Mem) (t : Tid) (v : Option Tid) : Mem :=
  μ.setTh t fun x => { x with qnext := v }

/-- `*qtail`. -/
def last (μ : Mem) (q : Queue) : Option Tid :=
  match μ.tail q with
  | .head => μ.head q
  | .next u => μ.qnext u

/-- `*qtail = t; qtail = &t->qnext`. -/
def enqueue (μ : Mem) (q : Queue) (t : Tid) : Mem :=
  match μ.tail q with
  | .head => (μ.setHead q (some t)).setTail q (.next t)
  | .next u => (μ.setQnext u (some t)).setTail q (.next t)

/-- `qhead = t->qnext; t->qnext = NULL`. -/
def unlink (μ : Mem) (q : Queue) (t : Tid) : Mem :=
  (μ.setHead q (μ.qnext t)).setQnext t none

/-- `if (qhead == NULL) qtail = &qhead`. -/
def resetTail (μ : Mem) (q : Queue) : Mem :=
  if μ.head q = none then μ.setTail q .head else μ

/-- `*mp` in `mutexreqs`. -/
def req (μ : Mem) (t : Tid) : Link MutexId → Option MutexId
  | .head => (μ.th t).reqs
  | .next m => (μ.mutex m).reqnext

/-- Set `*mp` in `mutexreqs`. -/
def setReq (μ : Mem) (t : Tid) (mp : Link MutexId) (v : Option MutexId) : Mem :=
  match mp with
  | .head => μ.setTh t fun x => { x with reqs := v }
  | .next m => μ.setMutex m fun x => { x with reqnext := v }

end Mem

/-! ## The code of the library -/

/-- `assert`. -/
def check (p : Prop) [Decidable p] (w : Site) : Except Site Unit :=
  if p then .ok () else .error w

/-- Mark a thread ready and add it to the scheduler queue. -/
def tready (u : Tid) (μ : Mem) : Except Site Mem := do
  check (μ.tlock = 2) .tready
  check ((μ.th u).state ≠ .run) .tready
  check (μ.qnext u = none) .tready
  return (μ.setTh u fun x => { x with state := .run }).enqueue .ready u

/-- The part of `tblock` before `tevents`. -/
def tblock (t : Tid) (μ : Mem) (a : After) : Except Site Pc := do
  check (μ.tlock = 2) .tblock
  check ((μ.th t).state = .run) .tblock
  return .events a

/-- The part of `trun` after `tevents`. -/
def trun (N : ℕ) (t : Tid) (μ : Mem) : Except Site Mem := do
  check (μ.qnext t = none) .trun
  check (μ.last .run = none) .trun
  let μ := μ.enqueue .run t
  check (μ.runqlen + 1 ≤ N) .trun
  return { μ with runqlen := μ.runqlen + 1 }

/-- If the current owner is blocked, steal the mutex. -/
def steal (t : Tid) (m : MutexId) (μ : Mem) : Except Site Mem :=
  if (μ.mutex m).locked = false ∧ (μ.th (μ.mutex m).owner).state ≠ .run then do
    check ((μ.mutex m).qhead = none) .mutexlock
    check ((μ.mutex m).qtail = .head) .mutexlock
    check ((μ.mutex m).reqnext = none) .mutexlock
    return μ.setMutex m fun x => { x with owner := t }
  else
    return μ

/-- Request a mutex from its current owner. -/
def request (m : MutexId) (μ : Mem) : Except Site Mem :=
  if (μ.mutex m).qhead = none then do
    let tc := (μ.mutex m).owner
    check ((μ.mutex m).reqnext = none) .mutexlock
    return (μ.setMutex m fun x => { x with reqnext := (μ.th tc).reqs }).setTh tc
      fun x => { x with reqs := some m }
  else
    return μ

/-- Enqueue a thread on a mutex's thread queue. -/
def enlist (t : Tid) (m : MutexId) (μ : Mem) : Except Site Mem := do
  check (μ.qnext t = none) .mutexlock
  check (μ.last (.mutex m) = none) .mutexlock
  let μ := μ.enqueue (.mutex m) t
  check ((μ.mutex m).qhead ≠ none) .mutexlock
  check (μ.last (.mutex m) = none) .mutexlock
  return μ

/-- Change the ownership of a mutex to the first thread of its queue, in `mutexreqs`. -/
def handover (m : MutexId) (tn : Tid) (μ : Mem) : Mem :=
  let μ := μ.setMutex m fun x => { x with owner := tn }
  let μ := μ.setHead (.mutex m) (μ.qnext tn)
  if (μ.mutex m).qhead ≠ none then
    let μ := μ.setMutex m fun x => { x with reqnext := (μ.th tn).reqs }
    let μ := μ.setTh tn fun x => { x with reqs := some m }
    μ.setQnext tn none
  else
    let μ := μ.setMutex m fun x => { x with reqnext := none }
    μ.setTail (.mutex m) .head

/-- Transfer a mutex to its new owner, in `mutexreqs`. -/
def transfer (m : MutexId) (tn : Tid) (μ : Mem) : Except Site Mem := do
  check ((μ.th tn).state = .mutex) .mutexreqs
  tready tn (handover m tn μ)

/-- One turn of the loop of `mutexreqs`: the new `mp`, or none at the end of the list. -/
def mutexreqs (t : Tid) (mp : Link MutexId) (μ : Mem) :
    Except Site (Mem × Option (Link MutexId)) := do
  check (μ.tlock = 2) .mutexreqs
  match μ.req t mp with
  | none => return (μ, none)
  | some m =>
    check ((μ.mutex m).owner = t) .mutexreqs
    match (μ.mutex m).qhead with
    | none => throw .mutexreqs
    | some tn =>
      if (μ.mutex m).locked then
        return (μ, some (.next m))
      else
        let μ ← transfer m tn (μ.setReq t mp (μ.mutex m).reqnext)
        return (μ, some mp)

/-- The inner loop of `condwakeups`: wake at most so many of the waiting threads. The result
has the woken threads too. -/
def wakeup (c : CondId) : ℕ → Mem → Except Site (Mem × List Tid)
  | 0, μ => return (μ, [])
  | k + 1, μ =>
    match (μ.cond c).qhead with
    | none => return (μ, [])
    | some tw => do
      check ((μ.th tw).state = .cond) .condwakeups
      let μ ← tready tw (μ.unlink (.cond c) tw)
      let (μ, ts) ← wakeup c k μ
      return (μ, tw :: ts)

/-- One turn of the outer loop of `condwakeups`, for the condition variable `c`. -/
def condwakeups (c : CondId) (μ : Mem) : Except Site (Mem × List Tid) := do
  check (μ.tlock = 2) .condwakeups
  check (0 < (μ.cond c).nwake) .condwakeups
  let (μ, ts) ← wakeup c (μ.cond c).nwake μ
  let μ := μ.resetTail (.cond c)
  let μ := { μ with evconds := (μ.cond c).evnext }
  return (μ.setCond c fun x => { x with nwake := 0, evnext := none }, ts)

/-- `pthread_create`, in the master: the new thread starts in `tstart`, at its `mret`. -/
def create (N : ℕ) (detached : Bool) (μ : Mem) : Except Site Mem :=
  match (List.range N).find? fun u => u ≠ 0 ∧ (μ.th u).state = .free with
  | none => throw .create
  | some u => tready u <| μ.setTh u fun _ =>
      { state := .free, detached := detached, qnext := none, reqs := none, joiner := none,
        eip := .ret }

/-- Wake up any thread trying to join with an exiting one. -/
def wakeJoiner (t : Tid) (μ : Mem) : Except Site Mem :=
  match (μ.th t).joiner with
  | none => return μ
  | some j => tready j μ

/-- The piece of library code at a program point, run by thread `t` on the memory it sees. -/
def exec (N : ℕ) (t : Tid) : Pc → Mem → Except Site (Mem × Pc × List Note)
  | .lock m, μ => do
    check (0 < μ.tlock) .mutexlock
    if (μ.mutex m).owner ≠ t then return (μ, .lockCall m, []) else return (μ, .lockIf m, [])
  | .lockCall m, μ => do
    check (μ.tlock = 2) .mcall
    return (μ, .lockSync m, [])
  | .lockSync m, μ => do
    let μ ← steal t m μ
    return (μ, .lockIf m, [])
  | .lockIf m, μ => do
    if (μ.mutex m).owner ≠ t then
      let μ ← request m μ
      let μ ← enlist t m μ
      let pc ← tblock t μ (.lock m)
      return (μ, pc, [])
    else
      return (μ, .grab m, [])
  | .grab m, μ => do
    check ((μ.mutex m).owner = t) .mutexlock
    check ((μ.mutex m).locked = false) .relock
    return (μ, .setLocked m, [])
  | .setLocked m, μ =>
    return (μ.setMutex m fun x => { x with locked := true }, .ret, [.locked t m])
  | .tryLock m, μ => do
    if (μ.mutex m).owner ≠ t then
      return (μ, .ret, [])
    else
      check ((μ.mutex m).locked = false) .trylock
      return (μ, .setLocked m, [])
  | .unlock m, μ => do
    check (0 < μ.tlock) .mutexunlock
    check ((μ.mutex m).owner = t) .mutexunlock
    check ((μ.mutex m).locked = true) .mutexunlock
    return (μ, .clearLocked m, [])
  | .clearLocked m, μ =>
    return (μ.setMutex m fun x => { x with locked := false }, .ret, [.unlocked t m])
  | .test c b, μ => do
    if (μ.cond c).qhead = none then
      return (μ, .user, [if b then .broadcasts t c else .signals t c])
    else
      check (μ.tlock = 0) .mlock
      return ({ μ with tlock := 1 }, .link c b, [])
  | .link c b, μ => do
    if (μ.cond c).nwake = 0 then
      check ((μ.cond c).evnext = none) .condevent
      return (μ.setCond c fun x => { x with evnext := μ.evconds }, .chain c b, [])
    else
      return (μ, .count c b, [])
  | .chain c b, μ =>
    return ({ μ with evconds := some c }, .count c b, [])
  | .count c true, μ =>
    return (μ.setCond c fun x => { x with nwake := N }, .ret, [.broadcasts t c])
  | .count c false, μ =>
    return (μ.setCond c fun x => { x with nwake := if x.nwake < N then x.nwake + 1 else x.nwake },
      .ret, [.signals t c])
  | .waitCall c m, μ => do
    check (μ.tlock = 2) .mcall
    return (μ, .waitSync c m, [])
  | .waitSync c m, μ => do
    check ((μ.th t).state = .run) .condwait
    check (μ.qnext t = none) .condwait
    check (μ.last (.cond c) = none) .condwait
    let μ := μ.enqueue (.cond c) t
    check (0 < μ.tlock) .mutexunlock
    check ((μ.mutex m).owner = t) .mutexunlock
    check ((μ.mutex m).locked = true) .mutexunlock
    let μ := μ.setMutex m fun x => { x with locked := false }
    let pc ← tblock t μ (.wait m)
    return (μ, pc, [.waits t c, .unlocked t m])
  | .createCall d, μ => do
    check (μ.tlock = 2) .mcall
    return (μ, .createSync d, [])
  | .createSync d, μ => do
    let μ ← create N d μ
    return (μ, .ret, [])
  | .join tj, μ => do
    check (tj < N) .join
    check ((μ.th tj).detached = false) .join
    if (μ.th tj).state ≠ .exit then return (μ, .joinCall tj, []) else return (μ, .joinFree tj, [])
  | .joinCall tj, μ => do
    check (μ.tlock = 2) .mcall
    return (μ, .joinSync tj, [])
  | .joinSync tj, μ => do
    if (μ.th tj).state ≠ .exit then
      check ((μ.th tj).state ≠ .free) .join
      check ((μ.th tj).joiner = none) .join
      let μ := μ.setTh tj fun x => { x with joiner := some t }
      let pc ← tblock t μ (.join tj)
      return (μ, pc, [])
    else
      return (μ, .joinFree tj, [])
  | .joinFree tj, μ => do
    check ((μ.th tj).state = .exit) .join
    return (μ.setTh tj fun x => { x with state := .free }, .ret, [])
  | .exitCall, μ => do
    check (μ.tlock = 2) .mcall
    return (μ, .exitSync, [])
  | .exitSync, μ => do
    check ((μ.th t).state = .run) .exit
    let μ ← wakeJoiner t μ
    let pc ← tblock t μ .exit
    return (μ, pc, [])
  | .ret, μ => do
    check (0 < μ.tlock) .mret
    let μ := { μ with tlock := μ.tlock &&& 2 }
    if μ.tlock = 0 then
      return (μ, .user, [])
    else
      check (μ.tlock = 2) .mret
      return (μ, .events .ret, [])
  | .events a, μ =>
    match μ.evconds with
    | none => return (μ, .reqs .head a, [])
    | some c => do
      let (μ, ts) ← condwakeups c μ
      return (μ, .events a, ts.map (.wakes · c))
  | .reqs mp a, μ => do
    let (μ, mp) ← mutexreqs t mp μ
    match mp with
    | some mp => return (μ, .reqs mp a, [])
    | none => return (μ, .done a, [])
  | .user, μ => return (μ, .user, [])
  | .done a, μ => return (μ, .done a, [])
  | .dead, μ => return (μ, .dead, [])
  | .failed w, μ => return (μ, .failed w, [])

/-- The calls a program makes. -/
inductive Call
  | mutexLock (m : MutexId)
  | mutexTrylock (m : MutexId)
  | mutexUnlock (m : MutexId)
  | condSignal (c : CondId)
  | condBroadcast (c : CondId)
  | condWait (c : CondId) (m : MutexId)
  | create (detached : Bool)
  | join (tj : Tid)
  | exit
  deriving DecidableEq

/-- The start of a call, with its `mlock`. -/
def enter (call : Call) (μ : Mem) : Except Site (Mem × Pc) :=
  let mlock (pc : Pc) : Except Site (Mem × Pc) := do
    check (μ.tlock = 0) .mlock
    return ({ μ with tlock := 1 }, pc)
  match call with
  | .mutexLock m => mlock (.lock m)
  | .mutexTrylock m => mlock (.tryLock m)
  | .mutexUnlock m => mlock (.unlock m)
  | .condSignal c => return (μ, .test c false)
  | .condBroadcast c => return (μ, .test c true)
  | .condWait c m => mlock (.waitCall c m)
  | .create d => mlock (.createCall d)
  | .join tj => mlock (.join tj)
  | .exit => mlock .exitCall

/-! ## The scheduler and the child processes -/

/-- What the master process is doing. -/
inductive Who
  /-- At the start of `pthread_sched`. -/
  | sched
  /-- In the loop of `pthread_sched` that collects children. -/
  | collect
  /-- Running library code for a thread. -/
  | thread (t : Tid)
  deriving DecidableEq

/-- The master and the threads' child processes. -/
structure Sys where
  /-- The master's memory. -/
  mem : Mem
  who : Who
  /-- Where each thread that runs is. -/
  pc : Tid → Pc
  /-- The children's private memories. -/
  kid : Tid → Mem
  /-- The snapshots taken when the children were started. -/
  snap : Tid → Mem
  /-- The children that were started and are not collected yet. -/
  up : Tid → Bool
  /-- What has happened, oldest first. -/
  log : List Note

/-- Merge a field: `r` in the snapshot, `d` in the master, `s` in the child. -/
def merge {α : Type} [DecidableEq α] (r d s : α) : α := if s = r then d else s

/-- A field that both the master and the child changed. -/
def Clash {α : Type} (r d s : α) : Prop := s ≠ r ∧ d ≠ r

/-- Merge the records of a thread. -/
def Pthread.merge (r d s : Pthread) : Pthread where
  state := Dsthread.merge r.state d.state s.state
  detached := Dsthread.merge r.detached d.detached s.detached
  qnext := Dsthread.merge r.qnext d.qnext s.qnext
  reqs := Dsthread.merge r.reqs d.reqs s.reqs
  joiner := Dsthread.merge r.joiner d.joiner s.joiner
  eip := Dsthread.merge r.eip d.eip s.eip

/-- Merge a mutex. -/
def Mutex.merge (r d s : Mutex) : Mutex where
  owner := Dsthread.merge r.owner d.owner s.owner
  locked := Dsthread.merge r.locked d.locked s.locked
  qhead := Dsthread.merge r.qhead d.qhead s.qhead
  qtail := Dsthread.merge r.qtail d.qtail s.qtail
  reqnext := Dsthread.merge r.reqnext d.reqnext s.reqnext

/-- Merge a condition variable. -/
def Cond.merge (r d s : Cond) : Cond where
  nwake := Dsthread.merge r.nwake d.nwake s.nwake
  qhead := Dsthread.merge r.qhead d.qhead s.qhead
  qtail := Dsthread.merge r.qtail d.qtail s.qtail
  evnext := Dsthread.merge r.evnext d.evnext s.evnext

/-- `sys_get(SYS_MERGE)` of a child's memory. -/
def Mem.merge (r d s : Mem) : Mem where
  th t := (r.th t).merge (d.th t) (s.th t)
  mutex m := (r.mutex m).merge (d.mutex m) (s.mutex m)
  cond c := (r.cond c).merge (d.cond c) (s.cond c)
  tlock := Dsthread.merge r.tlock d.tlock s.tlock
  readyqhead := Dsthread.merge r.readyqhead d.readyqhead s.readyqhead
  readyqtail := Dsthread.merge r.readyqtail d.readyqtail s.readyqtail
  runqhead := Dsthread.merge r.runqhead d.runqhead s.runqhead
  runqtail := Dsthread.merge r.runqtail d.runqtail s.runqtail
  runqlen := Dsthread.merge r.runqlen d.runqlen s.runqlen
  evconds := Dsthread.merge r.evconds d.evconds s.evconds

/-- The merge conflicts on a field of a mutex. -/
def Mutex.Clash (r d s : Mutex) : Prop :=
  Dsthread.Clash r.owner d.owner s.owner ∨ Dsthread.Clash r.locked d.locked s.locked ∨
  Dsthread.Clash r.qhead d.qhead s.qhead ∨ Dsthread.Clash r.qtail d.qtail s.qtail ∨
  Dsthread.Clash r.reqnext d.reqnext s.reqnext

/-- The children's changes to the state of a thread conflict. -/
def Pthread.clash (r d s : Pthread) : Bool := s.state ≠ r.state ∧ d.state ≠ r.state

namespace Sys

/-- A panic of thread `t`. -/
def fail (s : Sys) (t : Tid) (w : Site) : Sys := { s with pc := Function.update s.pc t (.failed w) }

/-- `sys_put(SYS_REGS | SYS_COPY | SYS_SNAP | SYS_START)`: start a child at `pc`. -/
def start (s : Sys) (t : Tid) (pc : Pc) : Sys :=
  { s with
    kid := Function.update s.kid t { s.mem with tlock := 0 }
    snap := Function.update s.snap t { s.mem with tlock := 0 }
    up := Function.update s.up t true
    pc := Function.update s.pc t pc }

/-- `trun` after `tevents`, then start the child. -/
def resume (N : ℕ) (s : Sys) (t : Tid) (pc : Pc) (who : Who) : Sys :=
  match trun N t s.mem with
  | .error w => s.fail t w
  | .ok μ => { ({ s with mem := μ }).start t pc with who := who }

/-- `tblock` after `tevents`: set the new state and invoke the scheduler. -/
def block (s : Sys) (t : Tid) (st : TState) (pc : Pc) : Sys :=
  { s with mem := s.mem.setTh t fun x => { x with state := st, eip := pc }, who := .sched }

/-- What follows `tevents`. -/
def finish (N : ℕ) (s : Sys) (t : Tid) : After → Sys
  | .ret => s.resume N t .user .sched
  | .user => s.resume N t .user .collect
  | .test c b => s.resume N t (.test c b) .collect
  | .lock m => s.block t .mutex (.grab m)
  | .wait m => s.block t .cond (.lock m)
  | .join tj => s.block t .mutex (.joinFree tj)
  | .exit => s.block t (if (s.mem.th t).detached then .free else .exit) .dead

/-- Where `trun` in the collecting loop has to resume a child that was preempted. -/
def preempted : Pc → After
  | .test c b => .test c b
  | _ => .user

/-- The state after the master ran a piece of code for thread `t`. -/
def ran (s : Sys) (t : Tid) (μ : Mem) (pc : Pc) (notes : List Note) : Sys :=
  { s with mem := μ, pc := Function.update s.pc t pc, log := s.log ++ notes }

/-- A piece of library code run by the master for thread `t`. -/
def masterStep (N : ℕ) (s : Sys) (t : Tid) : Sys :=
  match s.pc t with
  | .done a => s.finish N t a
  | pc =>
    match exec N t pc s.mem with
    | .error w => s.fail t w
    | .ok (μ, pc, notes) => s.ran t μ pc notes

/-- A piece of code run by a child: the program makes the call `call`, or the library code goes
on. A child that has trapped waits to be collected. -/
def kidStep (N : ℕ) (s : Sys) (t : Tid) (call : Call) : Option Sys :=
  if s.pc t = .user then
    match enter call (s.kid t) with
    | .error w => some (s.fail t w)
    | .ok (μ, pc) =>
      some { s with kid := Function.update s.kid t μ, pc := Function.update s.pc t pc }
  else if (s.pc t).traps then
    none
  else
    match exec N t (s.pc t) (s.kid t) with
    | .error w => some (s.fail t w)
    | .ok (μ, pc, notes) =>
      some { s with
        kid := Function.update s.kid t μ
        pc := Function.update s.pc t pc
        log := s.log ++ notes }

/-- Resume the first ready thread in the master, or go on to the run queue. -/
def schedStep (s : Sys) : Sys :=
  match s.mem.readyqhead with
  | none => { s with who := .collect }
  | some t =>
    { s with
      mem := (s.mem.unlink .ready t).resetTail .ready
      pc := Function.update s.pc t (s.mem.th t).eip
      who := .thread t }

/-- Collect the first child of the run queue: merge its memory changes, and go on with its
library code in the master or put it back. There is no step when no thread runs (the scheduler
panics), nor when two children freed the same thread. -/
def collectStep (N : ℕ) (s : Sys) : Option Sys :=
  match s.mem.runqhead with
  | none => none
  | some t =>
    let μ := (s.mem.unlink .run t).resetTail .run
    if μ.runqlen = 0 then
      some { s.fail t .sched with who := .thread t }
    else if (List.range N).any fun u => ((s.snap t).th u).clash (μ.th u) ((s.kid t).th u) then
      none
    else
      let μ := Mem.merge (s.snap t) { μ with runqlen := μ.runqlen - 1, tlock := 0 } (s.kid t)
      let s' := { s with
        mem := { μ with tlock := 2 }, up := Function.update s.up t false, who := .thread t }
      if μ.tlock = 1 then
        some s'
      else if μ.tlock = 0 then
        some { s' with pc := Function.update s.pc t (.events (preempted (s.pc t))) }
      else
        some (s'.fail t .sched)

end Sys

/-- Who takes the next step. -/
inductive Act
  | kid (t : Tid) (call : Call)
  | master
  deriving DecidableEq

namespace Sys

/-- One step of the system: of the master, or of a child whose quantum has not expired. -/
def step (N : ℕ) (s : Sys) : Act → Option Sys
  | .kid t call => if s.up t then s.kidStep N t call else none
  | .master =>
    match s.who with
    | .sched => some s.schedStep
    | .collect => s.collectStep N
    | .thread t => some (s.masterStep N t)

/-- The memory that `init` leaves to thread 0, with the mutexes initialised by the threads
`owner`. -/
def initMem (owner : MutexId → Tid) : Mem where
  th t :=
    { state := if t = 0 then .run else .free, detached := false, qnext := none, reqs := none,
      joiner := none, eip := .dead }
  mutex m := { owner := owner m, locked := false, qhead := none, qtail := .head, reqnext := none }
  cond _ := { nwake := 0, qhead := none, qtail := .head, evnext := none }
  tlock := 2
  readyqhead := none
  readyqtail := .head
  runqhead := some 0
  runqtail := .next 0
  runqlen := 1
  evconds := none

/-- Thread 0 has been started. -/
def init (owner : MutexId → Tid) : Sys where
  mem := initMem owner
  who := .sched
  pc t := if t = 0 then .user else .dead
  kid _ := { initMem owner with tlock := 0 }
  snap _ := { initMem owner with tlock := 0 }
  up t := t = 0
  log := []

/-- The run of a list of steps, each taken only where `ok` holds. -/
def checked (N : ℕ) (ok : Sys → Act → Bool) (s : Sys) : List Act → Option Sys
  | [] => some s
  | a :: as => if ok s a then (s.step N a).bind fun s' => checked N ok s' as else none

/-- The states that the system reaches by steps that meet `P`. -/
inductive Run (N : ℕ) (P : Sys → Act → Prop) (owner : MutexId → Tid) : Sys → Prop
  | init : Run N P owner (init owner)
  | step {s s' : Sys} {a : Act} : Run N P owner s → P s a → s.step N a = some s' →
      Run N P owner s'

end Sys

end Determinator.Dsthread
