import Determinator.Lib.Except
import Determinator.Lib.Queue
import Determinator.Kern.Mem

/-!
# Remote references and home lists

The packed remote references of `kern/net.h`, and the part of `kern/mem.c` and `kern/net.c` that
keeps the local copies of remote pages: a page with a home elsewhere is on the home list of the
page frame that has its home's address.

The code is cut at the critical sections of `mem_freelock`. A `Task` is a piece of work of a CPU
between two of them: a packet that it handles, a page that it has just allocated, a page whose
last reference it has given up. A CPU that frees a table gives up the pages of the table first, and
so has several tasks at a time.

The references to a page are counted twice: `refcount` is the field of the source, and `refs` and
`pins` belong to the record of the run and tell who holds them. `refs` are the references that
page maps hold and that anyone who has one may copy or give up; `pins` are the references of
process structures, which are never given up, the ones `net_rxmigrq` takes and forgets, and those
to a page that a task is entering in a home list.
-/

namespace Determinator

/-! ## Remote references -/

/-- A remote reference. -/
abbrev Rr := BitVec 32

/-- `RR_ADDR`. -/
def rrAddrMask : Rr := 0xfffff000
/-- `RR_REMOTE`. -/
def rrRemote : Rr := 0x00000800
/-- `RR_RW`. -/
def rrRW : Rr := 0x00000600

/-- `RRCONS`. -/
def rrCons (node : BitVec 8) (addr perm : Rr) : Rr :=
  rrRemote ||| (addr &&& rrAddrMask) ||| (node.setWidth 32 <<< 1) ||| (perm &&& rrRW)

/-- `RRNODE`. -/
def rrNode (rr : Rr) : BitVec 8 := (rr >>> 1).setWidth 8

/-- `RRADDR`. -/
def rrAddr (rr : Rr) : Rr := rr &&& rrAddrMask

/-- `mem_phys2pi`, of a 32-bit address. -/
def rrFrame (addr : Rr) : Frame := (addr >>> 12).setWidth 40

/-- `NET_MAXNODES`, and the assertion on node numbers. -/
def nodeOk (n : BitVec 8) : Prop := 0 < n.toNat ∧ n.toNat ≤ 32

instance (n : BitVec 8) : Decidable (nodeOk n) := inferInstanceAs (Decidable (_ ∧ _))

/-- `1 << (node - 1)`, an `int`, as an `intptr_t`. -/
def shareBit (node : BitVec 8) : BitVec 64 :=
  ((1 : BitVec 32) <<< (node.toNat - 1)).signExtend 64

namespace Home

/-! ## The state -/

/-- A piece of work of a CPU between two critical sections. -/
inductive Task
  /-- `net_rxmigrq` has not found the process. -/
  | migAlloc (home : Rr)
  /-- `net_rxmigrq` has a page for the process. -/
  | migTrack (home : Rr) (pi : Frame)
  /-- `net_pullpte` has not found the page. -/
  | pullAlloc (rr : Rr)
  /-- `net_pullpte` has a page for the copy. -/
  | pullTrack (rr : Rr) (pi : Frame)
  /-- `net_pullpte` has entered the page in the home list. -/
  | pullShare (rr : Rr) (pi : Frame)
  /-- A page from `mem_alloc`, without a reference. -/
  | fresh (pi : Frame)
  /-- `mem_decref` has given up the last reference. -/
  | zero (pi : Frame)
  /-- `mem_decref` has found the page not shared. -/
  | free (pi : Frame)
  deriving DecidableEq

/-- Where an assertion has failed. -/
inductive Stop
  /-- In `mem_rrtrack` or `mem_rrlookup`. -/
  | rr
  /-- Elsewhere. -/
  | other
  deriving DecidableEq

/-- The pages of a node, and the tasks of its CPUs. -/
structure State (T : Type) where
  freelist : Option Frame
  freeNext : Frame → Option Frame
  refcount : Frame → ℤ
  home : Frame → Rr
  shared : Frame → BitVec 64
  homelist : Frame → Option Frame
  homenext : Frame → Option Frame
  refs : Frame → ℕ
  pins : Frame → ℕ
  task : T → Option Task
  stopped : Option Stop

/-- What can happen. -/
inductive Act (T : Type)
  /-- `net_rxmigrq`, up to its lookup. -/
  | rxmigrq (t : T) (home : Rr)
  /-- `net_pullpte`, up to its lookup. -/
  | pullpte (t : T) (rr : Rr)
  /-- The next section of a packet that a task handles. -/
  | go (t : T)
  /-- `mem_alloc`. -/
  | alloc (t : T)
  /-- `mem_incref` of a page that `mem_alloc` has given. -/
  | keep (t : T)
  /-- `mem_free` of a page that `mem_alloc` has given, or that has no references any more. -/
  | free (t : T)
  /-- A reference is copied. -/
  | incref (pi : Frame)
  /-- `net_rrshare`. -/
  | share (pi : Frame) (node : BitVec 8)
  /-- `mem_decref`, up to the look at the sharing. -/
  | decref (t : T) (pi : Frame)
  /-- The look at the sharing. -/
  | look (t : T)

variable {T : Type} [DecidableEq T] (b : Boot) (node : BitVec 8)

namespace State

/-! ## The operations -/

/-- Set a task. -/
def setTask (s : State T) (t : T) (k : Option Task) : State T :=
  { s with task := Function.update s.task t k }

/-- Count a reference that page maps hold. -/
def addRef (s : State T) (pi : Frame) : State T :=
  { s with refs := Function.update s.refs pi (s.refs pi + 1) }

/-- Count a reference that is not given up. -/
def addPin (s : State T) (pi : Frame) : State T :=
  { s with pins := Function.update s.pins pi (s.pins pi + 1) }

/-- `mem_alloc`. -/
def memAlloc (s : State T) : Option (Frame × State T) :=
  match s.freelist with
  | none => none
  | some pi => some (pi, { s with
      freelist := s.freeNext pi
      freeNext := Function.update s.freeNext pi none
      home := Function.update s.home pi 0
      shared := Function.update s.shared pi 0 })

/-- `mem_free`. -/
def memFree (s : State T) (pi : Frame) : Except Stop (State T) := do
  require (s.refcount pi = 0) .other
  require (s.freeNext pi = none) .other
  pure { s with
    freeNext := Function.update s.freeNext pi s.freelist
    freelist := some pi }

/-- The assertions at the head of `mem_incref`, `mem_decref` and `mem_rrtrack`. -/
def PageOk (pi : Frame) : Prop :=
  (1 < pi.toNat ∧ pi.toNat < b.npage) ∧ pi.toNat ≠ linkIndex b.zero.toNat ∧
    (pi.toNat < linkIndex b.start ∨ linkIndex b.last < pi.toNat)

instance (pi : Frame) : Decidable (PageOk b pi) := inferInstanceAs (Decidable (_ ∧ _ ∧ _))

/-- `mem_incref`; `w` tells for whom. -/
def memIncref (s : State T) (pi : Frame) (w : Stop) : Except Stop (State T) := do
  require (PageOk b pi) w
  pure { s with refcount := Function.update s.refcount pi (s.refcount pi + 1) }

/-- The assertions on the remote reference in `mem_rrtrack` and `mem_rrlookup`. -/
def RrOk (rr : Rr) : Prop :=
  nodeOk (rrNode rr) ∧ 1 < (rrFrame (rrAddr rr)).toNat ∧ (rrFrame (rrAddr rr)).toNat < b.npage

instance (rr : Rr) : Decidable (RrOk b rr) := inferInstanceAs (Decidable (_ ∧ _ ∧ _))

/-- The loop of `mem_rrtrack`: every page of the list has the right address and another home. The
fuel bounds the length of the list. -/
def fresh (s : State T) (rr : Rr) : ℕ → Option Frame → Bool
  | _, none => true
  | 0, some _ => false
  | n + 1, some spi =>
    rrAddr (s.home spi) = rrAddr rr && s.home spi ≠ rr && s.fresh rr n (s.homenext spi)

/-- `mem_rrtrack`. -/
def memRrtrack (s : State T) (rr : Rr) (pi : Frame) : Except Stop (State T) := do
  require (PageOk b pi) .rr
  require (RrOk b rr) .rr
  let hpi := rrFrame (rrAddr rr)
  require (s.fresh rr b.npage (s.homelist hpi) = true) .rr
  pure { s with
    home := Function.update s.home pi rr
    homenext := Function.update s.homenext pi (s.homelist hpi)
    homelist := Function.update s.homelist hpi (some pi) }

/-- The loop of `mem_rrlookup`. -/
def search (s : State T) (rr : Rr) : ℕ → Option Frame → Except Stop (Option Frame)
  | _, none => .ok none
  | 0, some _ => .error .rr
  | n + 1, some pi => do
    require (rrAddr (s.home pi) = rrAddr rr) .rr
    if s.home pi = rr then pure (some pi) else s.search rr n (s.homenext pi)

/-- `mem_rrlookup`. -/
def memRrlookup (s : State T) (rr : Rr) : Except Stop (Option Frame × State T) := do
  require (RrOk b rr) .rr
  let found ← s.search rr b.npage (s.homelist (rrFrame (rrAddr rr)))
  match found with
  | none => pure (none, s)
  | some pi => do
    let s ← s.memIncref b pi .rr
    pure (some pi, s)

/-! ## The sections -/

/-- `net_rxmigrq` up to its lookup. A process at home is found without one. -/
def rxmigrq (s : State T) (t : T) (home : Rr) : Except Stop (State T) := do
  if rrNode home = node then pure s
  else
    let (found, s) ← s.memRrlookup b home
    match found with
    | none => pure (s.setTask t (some (.migAlloc home)))
    | some pi => pure (s.addPin pi)

/-- `net_pullpte` up to its lookup. Zero pages and pages of this node are found without one. -/
def pullpte (s : State T) (t : T) (rr : Rr) : Except Stop (State T) := do
  if rrAddr rr = 0 then pure s
  else if rrNode rr = node then
    let pi := rrFrame (rrAddr rr)
    let s ← s.memIncref b pi .other
    require (s.home pi = 0) .other
    require (s.shared pi ≠ 0) .other
    pure (s.addRef pi)
  else
    let (found, s) ← s.memRrlookup b rr
    match found with
    | none => pure (s.setTask t (some (.pullAlloc rr)))
    | some pi => do
      require (s.home pi = rr) .other
      require (s.shared pi ≠ 0) .other
      pure (s.addRef pi)

/-- The next section of a packet: the allocation of a page, its entry in the home list, and the
mark that it is shared. -/
def go (s : State T) (t : T) : Task → Except Stop (State T)
  | .migAlloc home =>
    match s.memAlloc with
    | none => .error .other
    | some (pi, s) => do
      let s ← s.memIncref b pi .other
      pure ((s.addPin pi).setTask t (some (.migTrack home pi)))
  | .migTrack home pi => do
    let s ← s.memRrtrack b home pi
    pure (s.setTask t none)
  | .pullAlloc rr =>
    match s.memAlloc with
    | none => .error .other
    | some (pi, s) => do
      let s ← s.memIncref b pi .other
      pure ((s.addPin pi).setTask t (some (.pullTrack rr pi)))
  | .pullTrack rr pi => do
    let s ← s.memRrtrack b rr pi
    pure (s.setTask t (some (.pullShare rr pi)))
  | .pullShare rr pi => do
    let s : State T := { s with shared := Function.update s.shared pi (shareBit (rrNode rr)) }
    require (s.shared pi ≠ 0) .other
    require (s.home pi = rr) .other
    pure (({ s with pins := Function.update s.pins pi (s.pins pi - 1) }.addRef pi).setTask t none)
  | .fresh _ | .zero _ | .free _ => .ok s

/-- `mem_decref` up to the look at the sharing. -/
def decref (s : State T) (t : T) (pi : Frame) : Except Stop (State T) := do
  require (PageOk b pi) .other
  let s := { s with
    refcount := Function.update s.refcount pi (s.refcount pi - 1)
    refs := Function.update s.refs pi (s.refs pi - 1) }
  pure (if s.refcount pi = 0 then s.setTask t (some (.zero pi)) else s)

/-- A failed assertion stops the node. -/
def finish (s : State T) : Except Stop (State T) → State T
  | .ok u => u
  | .error w => { s with stopped := some w }

/-- One step; `none` where it cannot be taken. -/
def step (s : State T) (a : Act T) : Option (State T) :=
  if s.stopped ≠ none then none
  else
    match a with
    | .rxmigrq t home =>
      if s.task t = none then some (s.finish (s.rxmigrq b node t home)) else none
    | .pullpte t rr =>
      if s.task t = none then some (s.finish (s.pullpte b node t rr)) else none
    | .go t =>
      match s.task t with
      | some (.fresh _) | some (.zero _) | some (.free _) | none => none
      | some k => some (s.finish (s.go b t k))
    | .alloc t =>
      if s.task t = none then
        match s.memAlloc with
        | none => some s
        | some (pi, u) => some (u.setTask t (some (.fresh pi)))
      else none
    | .keep t =>
      match s.task t with
      | some (.fresh pi) => some (s.finish do
          let s ← s.memIncref b pi .other
          pure ((s.addRef pi).setTask t none))
      | _ => none
    | .free t =>
      match s.task t with
      | some (.fresh pi) | some (.free pi) => some (s.finish do
          let s ← s.memFree pi
          pure (s.setTask t none))
      | _ => none
    | .incref pi =>
      if 0 < s.refs pi then some (s.finish do
          let s ← s.memIncref b pi .other
          pure (s.addRef pi))
      else none
    | .share pi n =>
      if 0 < s.refcount pi ∧ nodeOk n then
        some { s with shared := Function.update s.shared pi (s.shared pi ||| shareBit n) }
      else none
    | .decref t pi =>
      if s.task t = none ∧ 0 < s.refs pi then some (s.finish (s.decref b t pi)) else none
    | .look t =>
      match s.task t with
      | some (.zero pi) => some (s.setTask t (if s.shared pi = 0 then some (.free pi) else none))
      | _ => none

end State

/-- The pages at the end of the boot code: those on the free list, and those in use. -/
def init (fl : List Frame) (links : Frame → Option Frame) (used : Frame → ℕ) : State T where
  freelist := fl.head?
  freeNext := links
  refcount := fun f => used f
  home := fun _ => 0
  shared := fun _ => 0
  homelist := fun _ => none
  homenext := fun _ => none
  refs := used
  pins := fun _ => 0
  task := fun _ => none
  stopped := none

/-- What the boot code promises of the free list. -/
structure Booted (fl : List Frame) (links : Frame → Option Frame) (used : Frame → ℕ) : Prop where
  chain : Chain links fl.head? fl
  nodup : fl.Nodup
  avail : ∀ f ∈ fl, f ∈ b.avail
  unused : ∀ f ∈ fl, used f = 0

/-- The states that are reached by steps that meet `P`. -/
inductive Run (P : State T → Act T → Prop) : State T → Prop
  | init {fl : List Frame} {links : Frame → Option Frame} {used : Frame → ℕ} :
      Booted b fl links used → Run P (init fl links used)
  | step {s u : State T} {a : Act T} : Run P s → P s a → s.step b node a = some u → Run P u

/-- Carry out a list of steps. -/
def steps (s : State T) : List (Act T) → Option (State T)
  | [] => some s
  | a :: as => (s.step b node a).bind fun u => steps u as

end Home

end Determinator
