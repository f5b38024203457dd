import Determinator.Kern.Proc

/-!
# The page maps of the CPUs

Which page map each CPU runs on. A CPU loads its page map register `CR3` in `proc_run` only, so
that it keeps the page map of the last process it ran while it looks for the next one in
`proc_sched`. A page map is freed in `net_rxmigrq`, when a process comes back to a node where it
has been before. `net_rxmigrq` takes no lock; it is cut into the steps at which others can see
what it does.

Of a process there is its state, its page map, its parent and the child it waits for; of the
memory, what each page is used for. The ready queue is left open: a CPU may take any ready process.
The numbers `handed` and `loaded` belong to the record of the run: how often `mem_alloc` has handed
out a page, and how often it had when a CPU loaded it.
-/

namespace Determinator.Cr3

/-- What a page is used for. -/
inductive Use
  /-- It is on the free list. -/
  | free
  /-- The page map root of a process. -/
  | map
  /-- `pmap_bootpmap`. -/
  | boot
  /-- Anything else. -/
  | other
  deriving DecidableEq

/-- The part of `struct proc` that matters here. -/
structure MapProc (P : Type) where
  state : ProcState
  pml4 : Frame
  parent : Option P
  waitchild : Option P

/-- How far `net_rxmigrq` has come, for a process that it has found away. -/
inductive Handler (P : Type)
  /-- Before the old page map is given up. -/
  | drop (p : P)
  /-- Before the new page map is allocated. -/
  | newpmap (p : P)
  /-- Before `net_pull`. -/
  | pull (p : P)
  deriving DecidableEq

/-- The process a handler is about. -/
def Handler.proc {P : Type} : Handler P → P
  | .drop p | .newpmap p | .pull p => p

/-- The CPUs of a node, its processes and its pages. -/
structure State (P C : Type) where
  use : Frame → Use
  refcount : Frame → ℤ
  shared : Frame → Bool
  handed : Frame → ℕ
  proc : P → Option (MapProc P)
  /-- The process a CPU runs; none in `proc_sched`. -/
  cur : C → Option P
  handler : C → Option (Handler P)
  cr3 : C → Frame
  loaded : C → ℕ
  stopped : Bool

/-- What can happen. -/
inductive Act (P C : Type)
  /-- The running process creates a child. -/
  | put (c : C) (q : P) (m : Frame)
  /-- The running process starts a child. -/
  | start (c : C) (q : P)
  /-- `proc_sched` takes a process from the ready queue. -/
  | sched (c : C) (q : P)
  /-- `proc_yield`. -/
  | yield (c : C)
  /-- `proc_wait`. -/
  | wait (c : C) (q : P)
  /-- `proc_ret` at home. -/
  | ret (c : C)
  /-- `file_wakeroot`. -/
  | wakeroot (q : P)
  /-- `net_migrate`. -/
  | migrate (c : C)
  /-- `net_rxmigrp`. -/
  | rxmigrp (q : P)
  /-- The last page of a process has been pulled. -/
  | pulled (q : P)
  /-- `net_rrshare`, when another node pulls a page. -/
  | share (m : Frame)
  /-- `net_rxmigrq` up to the look at the state; `m` is the page map of a new process. -/
  | rxmigrq (c : C) (q : P) (m : Frame)
  /-- The next step of `net_rxmigrq`; `m` is the page `mem_alloc` gives. -/
  | go (c : C) (m : Frame)
  /-- A page is allocated for something else, or freed. -/
  | grab (m : Frame)
  | release (m : Frame)

variable {P C : Type} [DecidableEq P] [DecidableEq C]

namespace State

/-- Change a process. -/
def setProc (s : State P C) (q : P) (w : MapProc P) : State P C :=
  { s with proc := Function.update s.proc q (some w) }

/-- Set the process of a CPU. -/
def setCur (s : State P C) (c : C) (q : Option P) : State P C :=
  { s with cur := Function.update s.cur c q }

/-- Set the handler of a CPU. -/
def setHandler (s : State P C) (c : C) (h : Option (Handler P)) : State P C :=
  { s with handler := Function.update s.handler c h }

/-- `mem_alloc` and `mem_incref` of a free page. -/
def take (s : State P C) (m : Frame) (u : Use) : State P C :=
  { s with
    use := Function.update s.use m u
    shared := Function.update s.shared m false
    handed := Function.update s.handed m (s.handed m + 1)
    refcount := Function.update s.refcount m (s.refcount m + 1) }

/-- `mem_decref`, with the function that frees the page; a negative count stops the node. -/
def memDecref (s : State P C) (m : Frame) : State P C :=
  let s := { s with refcount := Function.update s.refcount m (s.refcount m - 1) }
  if s.refcount m = 0 then
    if s.shared m then s else { s with use := Function.update s.use m .free }
  else if s.refcount m < 0 then { s with stopped := true }
  else s

/-- `proc_run`. -/
def procRun (s : State P C) (c : C) (q : P) (w : MapProc P) : State P C :=
  { (s.setProc q { w with state := .run }).setCur c (some q) with
    cr3 := Function.update s.cr3 c w.pml4
    loaded := Function.update s.loaded c (s.handed w.pml4) }

/-- The process of a CPU is put in another state, and the CPU goes to `proc_sched`. -/
def switch (s : State P C) (c : C) (q : P) (w : MapProc P) : State P C :=
  (s.setProc q w).setCur c none

/-- A step of the process that CPU `c` runs. -/
def running (s : State P C) (c : C) (f : P → MapProc P → Option (State P C)) :
    Option (State P C) :=
  match s.handler c, s.cur c with
  | none, some q =>
    match s.proc q with
    | some w => f q w
    | none => none
  | _, _ => none

/-- The next step of `net_rxmigrq`. -/
def go (s : State P C) (c : C) (m : Frame) (h : Handler P) : Option (State P C) :=
  match h, s.proc h.proc with
  | .drop q, some w => some ((s.memDecref w.pml4).setHandler c (some (.newpmap q)))
  | .newpmap q, some w =>
    if s.use m = .free then
      some (((s.take m .map).setProc q { w with pml4 := m }).setHandler c (some (.pull q)))
    else none
  | .pull q, some w => some ((s.setProc q { w with state := .pull }).setHandler c none)
  | _, none => none

/-- One step; `none` where it cannot be taken. -/
def step (s : State P C) (a : Act P C) : Option (State P C) :=
  if s.stopped then none
  else
    match a with
    | .put c q m => s.running c fun p _ =>
        if s.proc q = none ∧ s.use m = .free then
          some ((s.take m .map).setProc q ⟨.stop, m, some p, none⟩)
        else none
    | .start c q => s.running c fun p _ =>
        match s.proc q with
        | some w =>
          if w.parent = some p ∧ w.state = .stop then some (s.setProc q { w with state := .ready })
          else none
        | none => none
    | .sched c q =>
      match s.handler c, s.cur c, s.proc q with
      | none, none, some w => if w.state = .ready then some (s.procRun c q w) else none
      | _, _, _ => none
    | .yield c => s.running c fun p w => some (s.switch c p { w with state := .ready })
    | .wait c q => s.running c fun p w =>
        match s.proc q with
        | some v =>
          if v.parent = some p ∧ v.state ≠ .stop then
            some (s.switch c p { w with state := .wait, waitchild := some q })
          else none
        | none => none
    | .ret c => s.running c fun p w =>
        let s := s.switch c p { w with state := .stop }
        match w.parent with
        | none => some s
        | some r =>
          match s.proc r with
          | some v =>
            if v.state = .wait ∧ v.waitchild = some p then
              some (s.procRun c r { v with waitchild := none })
            else some s
          | none => some s
    | .wakeroot q =>
      match s.proc q with
      | some w =>
        if w.parent = none ∧ w.state = .stop then some (s.setProc q { w with state := .ready })
        else none
      | none => none
    | .migrate c => s.running c fun p w => some (s.switch c p { w with state := .migr })
    | .rxmigrp q =>
      match s.proc q with
      | some w => if w.state = .migr then some (s.setProc q { w with state := .away }) else none
      | none => none
    | .pulled q =>
      match s.proc q with
      | some w => if w.state = .pull then some (s.setProc q { w with state := .ready }) else none
      | none => none
    | .share m =>
      if s.refcount m ≠ 0 then some { s with shared := Function.update s.shared m true } else none
    | .rxmigrq c q m =>
      match s.handler c, s.proc q with
      | none, some w =>
        some (if w.state = .away then s.setHandler c (some (.drop q)) else s)
      | none, none =>
        if s.use m = .free then
          some (((s.take m .map).setProc q ⟨.away, m, none, none⟩).setHandler c (some (.drop q)))
        else none
      | some _, _ => none
    | .go c m =>
      match s.handler c with
      | some h => s.go c m h
      | none => none
    | .grab m => if s.use m = .free then some (s.take m .other) else none
    | .release m =>
      if s.use m = .other ∧ s.refcount m = 1 ∧ s.shared m = false then some (s.memDecref m)
      else none

/-- The start: every CPU has loaded the bootstrap page map; the root process is ready. -/
def init (boot root : Frame) (q : P) (free : Frame → Bool) : State P C where
  use := fun m => if m = boot then .boot else if m = root then .map else
    if free m then .free else .other
  refcount := fun m => if m = root then 1 else 0
  shared := fun _ => false
  handed := fun _ => 0
  proc := fun p => if p = q then some ⟨.ready, root, none, none⟩ else none
  cur := fun _ => none
  handler := fun _ => none
  cr3 := fun _ => boot
  loaded := fun _ => 0
  stopped := false

/-- The states that are reached by steps that meet `Q`. -/
inductive Run (Q : State P C → Act P C → Prop) : State P C → Prop
  | init {boot root : Frame} (q : P) (free : Frame → Bool) : boot ≠ root →
      Run Q (init boot root q free)
  | step {s u : State P C} {a : Act P C} : Run Q s → Q s a → s.step a = some u → Run Q u

/-- Carry out a list of steps. -/
def steps (s : State P C) : List (Act P C) → Option (State P C)
  | [] => some s
  | a :: as => (s.step a).bind fun u => steps u as

end State

end Determinator.Cr3
