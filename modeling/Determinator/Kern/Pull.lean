import Determinator.Lib.Except
import Determinator.Lib.Queue
import Determinator.Kern.Proc
import Determinator.Kern.Rr

/-!
# Pulling pages

The pull protocol of `kern/net.c`, seen from a node that pulls: its processes wait on `net_pulllist`
for the three parts of a page, in packets that the network may lose, duplicate, delay and reorder.
The code is cut at the critical sections of `net_lock`; a `Task` is what a CPU has in hand between
two of them. What the parts contain is left open, and so is what `net_pullpte` makes of a page that
has arrived: the next page it asks for is part of the step. The page a process pulls into belongs
to the process; its three parts are the field `page`.

The fields `no` and `behind` of a process, the field `no` of a packet and the list `sent` belong to
the record of the run: the number of a pull, whether other processes were behind the process in
the list when its pull was complete, and the parts that the serving node has sent in answer to the
requests of each pull.
-/

namespace Determinator.Pull

/-- `NET_PULLPART0` to `NET_PULLPART2`. -/
def partlen : ℕ → ℕ
  | 0 | 1 => 1368
  | _ => 1360

/-- The part of `struct proc` that pulling works on, less the link `pullnext`. -/
structure Waiter (D : Type) where
  state : ProcState
  pullrr : Rr
  pglev : ℕ
  arrived : BitVec 8
  page : ℕ → Option D
  no : ℕ
  behind : Bool

/-- A packet. -/
inductive Packet (D : Type)
  /-- `NET_PULLRQ`. -/
  | rq (rr : Rr) (pglev : ℕ) (need : BitVec 8) (no : ℕ)
  /-- `NET_PULLRP`. -/
  | rp (rr : Rr) (part len : ℕ) (data : D) (no : ℕ)

/-- The reference a packet is about. -/
def Packet.rr {D : Type} : Packet D → Rr
  | .rq rr _ _ _ | .rp rr _ _ _ _ => rr

/-- The pull a packet belongs to. -/
def Packet.no {D : Type} : Packet D → ℕ
  | .rq _ _ _ no | .rp _ _ _ _ no => no

/-- What a CPU has in hand. -/
inductive Task (P : Type)
  /-- It is about to call `net_pull`. -/
  | pull (p : P) (rr : Rr) (pglev : ℕ)
  /-- It has stored a part, and is about to look whether it was the last one. -/
  | stored (p : P)
  /-- All parts have arrived. -/
  | complete (p : P)
  deriving DecidableEq

/-- The process a task is about. -/
def Task.proc {P : Type} : Task P → P
  | .pull p _ _ | .stored p | .complete p => p

/-- A node that pulls, and the network. -/
structure State (P T D : Type) where
  proc : P → Waiter D
  /-- `p->pullnext`. -/
  next : P → Option P
  /-- `net_pulllist`. -/
  list : Option P
  task : T → Option (Task P)
  wire : List (Packet D)
  /-- The number of pulls so far. -/
  count : ℕ
  sent : List (ℕ × ℕ × D)
  /-- An assertion has failed, or a walk over the list does not end. -/
  stopped : Bool

/-- What can happen. -/
inductive Act (P T D : Type)
  /-- `net_rxmigrq` of a process that is away, up to its `net_pull`. -/
  | arrive (t : T) (p : P) (rr : Rr)
  /-- `net_pull`. -/
  | pull (t : T)
  /-- The critical section of `net_rxpullrp`, for the packet at this place in the network. -/
  | receive (t : T) (i : ℕ)
  /-- The look at `p->arrived` after it. -/
  | look (t : T)
  /-- `net_pullpte` needs another page. -/
  | more (t : T) (rr : Rr) (pglev : ℕ)
  /-- There is no more to pull: `proc_ready`. -/
  | ready (t : T)
  /-- The process has run and has left the node. -/
  | leave (p : P)
  /-- `net_tick`, when it retransmits. -/
  | tick
  /-- `net_rxpullrq` on the serving node, which sends the parts asked for. -/
  | serve (i : ℕ) (data : ℕ → D)
  | lose (i : ℕ)
  | dup (i : ℕ)

variable {P T D : Type} [DecidableEq P] [DecidableEq T] (node : BitVec 8)

namespace State

/-- Change a process. -/
def setProc (s : State P T D) (p : P) (w : Waiter D) : State P T D :=
  { s with proc := Function.update s.proc p w }

/-- Set a task. -/
def setTask (s : State P T D) (t : T) (k : Option (Task P)) : State P T D :=
  { s with task := Function.update s.task t k }

/-- The assertions on the node of a reference in `net_pull` and `net_ethsetup`. -/
def NodeOk (rr : Rr) : Prop := nodeOk (rrNode rr) ∧ rrNode rr ≠ node

instance (rr : Rr) : Decidable (NodeOk node rr) := inferInstanceAs (Decidable (_ ∧ _))

/-- `net_txpullrq`. -/
def netTxpullrq (s : State P T D) (p : P) : Except Unit (State P T D) := do
  require ((s.proc p).state = .pull) ()
  require (NodeOk node (s.proc p).pullrr) ()
  let w := s.proc p
  pure { s with wire := s.wire ++ [.rq w.pullrr w.pglev (w.arrived ^^^ 7) w.no] }

/-- `net_pull`. -/
def netPull (s : State P T D) (p : P) (rr : Rr) (pglevel : ℕ) : Except Unit (State P T D) := do
  require (NodeOk node rr) ()
  require (pglevel ≤ 2) ()
  require (s.next p = none) ()
  let s := { s with
    next := Function.update s.next p s.list
    list := some p
    count := s.count + 1 }
  let s := s.setProc p { s.proc p with
    state := .pull, pullrr := rr, pglev := pglevel, arrived := 0, no := s.count }
  s.netTxpullrq node p

/-- The loop of `net_rxpullrp`: the first process on the list that waits for the reference, and the
link that points to it. The fuel bounds the length of the list. -/
def find (s : State P T D) (rr : Rr) : ℕ → Link P → Option P → Except Unit (Option (Link P × P))
  | _, _, none => .ok none
  | 0, _, some _ => .error ()
  | n + 1, pp, some p => do
    require ((s.proc p).state = .pull) ()
    if (s.proc p).pullrr = rr then pure (some (pp, p)) else s.find rr n (.next p) (s.next p)

/-- `*pp = p->pullnext`. -/
def unlink (s : State P T D) (pp : Link P) (p : P) : State P T D :=
  match pp with
  | .head => { s with list := s.next p }
  | .next q => { s with next := Function.update s.next q (s.next p) }

/-- The critical section of `net_rxpullrp`; it tells the process whose part it has stored. -/
def netRxpullrp (s : State P T D) (rr : Rr) (part len : ℕ) (data : D) :
    Except Unit (Option P × State P T D) := do
  let found ← s.find rr s.count .head s.list
  match found with
  | none => pure (none, s)
  | some (pp, p) =>
    let w := s.proc p
    if 2 < part then pure (none, s)
    else if w.arrived &&& ((1 : BitVec 8) <<< part) ≠ 0 then pure (none, s)
    else if len ≠ partlen part then pure (none, s)
    else
      let w := { w with
        page := Function.update w.page part (some data)
        arrived := w.arrived ||| ((1 : BitVec 8) <<< part) }
      if w.arrived = 7 then
        pure (some p, (s.setProc p { w with behind := (s.next p).isSome }).unlink pp p)
      else pure (some p, s.setProc p w)

/-- The second loop of `net_tick`. -/
def netTick (s : State P T D) : ℕ → Option P → Except Unit (State P T D)
  | _, none => .ok s
  | 0, some _ => .error ()
  | n + 1, some p => do
    let u ← s.netTxpullrq node p
    u.netTick n (u.next p)

/-- The parts that a request asks for. -/
def parts (need : BitVec 8) : List ℕ := [0, 1, 2].filter fun i => need.getLsbD i

/-- A failed assertion stops the node. -/
def finish (s : State P T D) : Except Unit (State P T D) → State P T D
  | .ok u => u
  | .error _ => { s with stopped := true }

/-- One step; `none` where it cannot be taken. -/
def step (s : State P T D) (a : Act P T D) : Option (State P T D) :=
  if s.stopped then none
  else
    match a with
    | .arrive t p rr =>
      if s.task t = none ∧ (s.proc p).state = .away then
        some (s.setTask t (some (.pull p rr 2)))
      else none
    | .pull t =>
      match s.task t with
      | some (.pull p rr pglev) => some (s.finish ((s.setTask t none).netPull node p rr pglev))
      | _ => none
    | .receive t i =>
      match s.task t, s.wire[i]? with
      | none, some (.rp rr part len data _) =>
        let u := { s with wire := s.wire.eraseIdx i }
        some (u.finish do
          let (found, u) ← u.netRxpullrp rr part len data
          pure (u.setTask t (found.map .stored)))
      | _, _ => none
    | .look t =>
      match s.task t with
      | some (.stored p) =>
        some (s.setTask t (if (s.proc p).arrived = 7 then some (.complete p) else none))
      | _ => none
    | .more t rr pglev =>
      match s.task t with
      | some (.complete p) => some (s.setTask t (some (.pull p rr pglev)))
      | _ => none
    | .ready t =>
      match s.task t with
      | some (.complete p) =>
        some ((s.setTask t none).setProc p { s.proc p with state := .ready })
      | _ => none
    | .leave p =>
      if (s.proc p).state = .ready then some (s.setProc p { s.proc p with state := .away }) else none
    | .tick => some (s.finish (s.netTick node s.count s.list))
    | .serve i data =>
      match s.wire[i]? with
      | some (.rq rr _ need no) =>
        some { s with
          wire := s.wire.eraseIdx i ++
            (parts need).map fun part => .rp rr part (partlen part) (data part) no
          sent := s.sent ++ (parts need).map fun part => (no, part, data part) }
      | _ => none
    | .lose i => if i < s.wire.length then some { s with wire := s.wire.eraseIdx i } else none
    | .dup i => s.wire[i]?.map fun pkt => { s with wire := s.wire ++ [pkt] }

/-- The start: every process is somewhere else, nothing is under way. -/
def init : State P T D where
  proc := fun _ => ⟨.away, 0, 0, 0, fun _ => none, 0, false⟩
  next := fun _ => none
  list := none
  task := fun _ => none
  wire := []
  count := 0
  sent := []
  stopped := false

/-- The states that are reached by steps that meet `Q`. -/
inductive Run (Q : State P T D → Act P T D → Prop) : State P T D → Prop
  | init : Run Q init
  | step {s u : State P T D} {a : Act P T D} : Run Q s → Q s a → s.step node a = some u → Run Q u

/-- Carry out a list of steps. -/
def steps (s : State P T D) : List (Act P T D) → Option (State P T D)
  | [] => some s
  | a :: as => (s.step node a).bind fun u => steps u as

end State

end Determinator.Pull
