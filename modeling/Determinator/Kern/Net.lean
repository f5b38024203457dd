import Determinator.Kern.Proc

/-!
# Process migration

The migration protocol of `kern/net.c`, on a cluster of nodes joined by a network that may lose,
duplicate, delay and reorder packets. A node keeps a process structure for each process that was
created on it or has ever come to it, found by the process's home reference: `mem_ptr` of its
address at home, `mem_rrlookup` elsewhere. A failed assertion takes the node down.

What happens to a process between its arrival and its departure is only followed as far as its
state goes: the pages it pulls from the node it has left are not here, and neither is the
scheduler.

The field `no` of processes and packets numbers the migrations of a process. It belongs to the
record of the run: no function of the protocol reads it.
-/

namespace Determinator

/-- `NET_MAXNODES`. -/
def netMaxnodes : ℕ := 32

/-- A node number. -/
abbrev NodeId := BitVec 8

/-- The numbers nodes have. -/
def NodeId.valid (n : NodeId) : Bool := 0 < n.toNat && n.toNat ≤ netMaxnodes

/-- A remote reference: a page of a node. -/
structure RR where
  node : NodeId
  addr : BitVec 20
  deriving DecidableEq

/-- The part of `struct proc` that migration works on. -/
structure NetProc where
  state : ProcState
  /-- `0` when the process is not migrating. -/
  migrdest : NodeId
  sv : Procstate
  /-- The page map, and the remote one to pull from. -/
  pml4 : BitVec 20
  rrpml4 : Option RR
  /-- The number of the migration, while the process is migrating. -/
  no : ℕ
  deriving DecidableEq

/-- A packet, from one node to another. -/
inductive Packet
  /-- `NET_MIGRQ`. -/
  | migrq (src dst : NodeId) (home pml4 : RR) (save : Procstate) (no : ℕ)
  /-- `NET_MIGRP`. -/
  | migrp (src dst : NodeId) (home : RR) (no : ℕ)
  deriving DecidableEq

/-- A node. -/
structure NodeState where
  /-- The process structure for a home reference. -/
  proc : RR → Option NetProc
  /-- `net_migrlist`, by home reference. -/
  migrlist : List RR
  down : Bool

/-- The cluster. -/
structure Cluster where
  node : NodeId → NodeState
  /-- The packets in flight. -/
  wire : List Packet
  /-- How often a process has migrated. -/
  count : RR → ℕ

namespace Cluster

/-- Change a node. -/
def upd (s : Cluster) (n : NodeId) (f : NodeState → NodeState) : Cluster :=
  { s with node := Function.update s.node n (f (s.node n)) }

/-- Set a process structure. -/
def setProc (s : Cluster) (n : NodeId) (home : RR) (p : NetProc) : Cluster :=
  s.upd n fun x => { x with proc := Function.update x.proc home (some p) }

/-- A failed assertion. -/
def panic (s : Cluster) (n : NodeId) : Cluster := s.upd n fun x => { x with down := true }

/-- `net_tx`, after `net_ethsetup` has checked the destination. -/
def netTx (s : Cluster) (n dst : NodeId) (pkt : Packet) : Cluster :=
  if dst.valid ∧ dst ≠ n then { s with wire := s.wire ++ [pkt] } else s.panic n

/-- `net_txmigrq`, for the process with this home reference on node `n`. -/
def netTxmigrq (s : Cluster) (n : NodeId) (home : RR) : Cluster :=
  match (s.node n).proc home with
  | none => s
  | some p =>
    if p.state = .migr then
      s.netTx n p.migrdest (.migrq n p.migrdest home ⟨n, p.pml4⟩ p.sv p.no)
    else s.panic n

/-- `net_txmigrp`, in reply to the request of migration `no`. -/
def netTxmigrp (s : Cluster) (n dst : NodeId) (home : RR) (no : ℕ) : Cluster :=
  s.netTx n dst (.migrp n dst home no)

/-- `p->migrnext`. -/
def migrnext : List RR → RR → Option RR
  | a :: b :: l, h => if a = h then some b else migrnext (b :: l) h
  | _, _ => none

/-- `net_migrate`, of a process that runs on node `n` and has saved its registers. -/
def netMigrate (s : Cluster) (n : NodeId) (home : RR) (dst : NodeId) (sv : Procstate) : Cluster :=
  match (s.node n).proc home with
  | none => s
  | some p =>
    if dst.valid ∧ dst ≠ n ∧ p.state = .run ∧ p.migrdest = 0 ∧
        migrnext (s.node n).migrlist home = none then
      let no := s.count home + 1
      let s := { s with count := Function.update s.count home no }
      let s := s.setProc n home { p with state := .migr, migrdest := dst, sv := sv, no := no }
      let s := s.upd n fun x => { x with migrlist := home :: x.migrlist }
      s.netTxmigrq n home
    else s.panic n

/-- A process structure for a process that has not been here before. -/
def newProc (pml4 : BitVec 20) : NetProc := ⟨.away, 0, .zero, pml4, none, 0⟩

/-- `net_rxmigrq`, on node `n`; `pml4` is the page map it allocates. -/
def netRxmigrq (s : Cluster) (n src : NodeId) (home rrpml4 : RR) (save : Procstate) (no : ℕ)
    (pml4 : BitVec 20) : Cluster :=
  if !src.valid then s.panic n
  else
    let p := ((s.node n).proc home).getD (newProc pml4)
    let s := s.setProc n home p
    if p.state ≠ .away then s.netTxmigrp n src home no
    else
      let s := s.setProc n home { p with sv := save, rrpml4 := some rrpml4 }
      let s := s.netTxmigrp n src home no
      -- `net_pull` of the page map
      if rrpml4.node.valid ∧ rrpml4.node ≠ n then
        s.setProc n home { p with
          sv := save, rrpml4 := some rrpml4, pml4 := pml4, state := .pull }
      else s.panic n

/-- `net_rxmigrp`, on node `n`. -/
def netRxmigrp (s : Cluster) (n src : NodeId) (home : RR) : Cluster :=
  if !src.valid then s.panic n
  else if home ∉ (s.node n).migrlist then s
  else
    let s := s.upd n fun x => { x with migrlist := x.migrlist.erase home }
    match (s.node n).proc home with
    | none => s
    | some p =>
      if p.migrdest = 0 then s.panic n
      else s.setProc n home { p with migrdest := 0, state := .away }

/-- `net_rx`, of a packet that has arrived at its destination. -/
def netRx (s : Cluster) (pkt : Packet) (pml4 : BitVec 20) : Cluster :=
  match pkt with
  | .migrq src dst home rrpml4 save no => s.netRxmigrq dst src home rrpml4 save no pml4
  | .migrp src dst home _ => s.netRxmigrp dst src home

/-- `net_tick`, when it retransmits. -/
def netTick (s : Cluster) (n : NodeId) : Cluster :=
  (s.node n).migrlist.foldl (fun s home => s.netTxmigrq n home) s

/-- The node a packet goes to. -/
def pktDst : Packet → NodeId
  | .migrq _ d _ _ _ _ | .migrp _ d _ _ => d

/-- What can happen in the cluster. -/
inductive Event
  /-- A new process on node `n`, in the page `addr`. -/
  | create (n : NodeId) (addr : BitVec 20) (sv : Procstate) (pml4 : BitVec 20)
  /-- The scheduler of node `n`. -/
  | sched (n : NodeId) (home : RR) (state : ProcState)
  /-- The last page of a process has been pulled. -/
  | pulled (n : NodeId) (home : RR)
  | migrate (n : NodeId) (home : RR) (dst : NodeId) (sv : Procstate)
  | tick (n : NodeId)
  /-- The packet at this place in the network arrives, gets lost or is duplicated. -/
  | deliver (i : ℕ) (pml4 : BitVec 20)
  | lose (i : ℕ)
  | dup (i : ℕ)

/-- The states the scheduler moves a process between. -/
def scheduled : ProcState → Bool
  | .stop | .ready | .run | .wait => true
  | _ => false

/-- One step; `none` where the event cannot happen. -/
def step (s : Cluster) : Event → Option Cluster
  | .create n addr sv pml4 =>
    if n.valid ∧ (s.node n).down = false ∧ (s.node n).proc ⟨n, addr⟩ = none then
      some (s.setProc n ⟨n, addr⟩ ⟨.stop, 0, sv, pml4, none, 0⟩)
    else none
  | .sched n home st =>
    match (s.node n).down, (s.node n).proc home with
    | false, some p =>
      if scheduled p.state ∧ scheduled st then some (s.setProc n home { p with state := st })
      else none
    | _, _ => none
  | .pulled n home =>
    match (s.node n).down, (s.node n).proc home with
    | false, some p =>
      if p.state = .pull then some (s.setProc n home { p with state := .ready }) else none
    | _, _ => none
  | .migrate n home dst sv =>
    match (s.node n).down, (s.node n).proc home with
    | false, some p => if p.state = .run then some (s.netMigrate n home dst sv) else none
    | _, _ => none
  | .tick n => if (s.node n).down then none else some (s.netTick n)
  | .deliver i pml4 =>
    match s.wire[i]? with
    | none => none
    | some pkt =>
      if (s.node (pktDst pkt)).down then none
      else some ({ s with wire := s.wire.eraseIdx i }.netRx pkt pml4)
  | .lose i => if i < s.wire.length then some { s with wire := s.wire.eraseIdx i } else none
  | .dup i => s.wire[i]?.map fun pkt => { s with wire := s.wire ++ [pkt] }

/-- The cluster before any process is created. -/
def init : Cluster := ⟨fun _ => ⟨fun _ => none, [], false⟩, [], fun _ => 0⟩

/-- The states some list of events leads to, all of whose steps are `ok`. -/
inductive Run (ok : Cluster → Event → Prop) : List Event → Cluster → Prop
  | nil : Run ok [] init
  | snoc {es : List Event} {s t : Cluster} {e : Event} :
      Run ok es s → ok s e → step s e = some t → Run ok (es ++ [e]) t

/-- Carry out a list of events that pass a check. -/
def checked (ok : Cluster → Event → Bool) (s : Cluster) : List Event → Option Cluster
  | [] => some s
  | e :: es => if ok s e then (step s e).bind fun t => checked ok t es else none

end Cluster

end Determinator
