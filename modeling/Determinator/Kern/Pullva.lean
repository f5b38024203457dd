import Determinator.Kern.Rr

/-!
# Pulling an address space

How a process that has come to a node gets its pages: the loop over `pullva` at the end of
`net_rxpullrp`, with `net_pullpte` of `kern/net.c`. The process pulls its page map root, the tables
that the root refers to and the pages that the tables refer to, one at a time; between two
addresses of the loop other processes may take their turns. Page maps are seen here as this code
sees them: the table for an address is at the address's index at level 3 in the root, and the page
at its index at level 0 in the table.

An entry of a table is a word without a reference in it, a zero mapping, a remote reference or a
page of this node. The home lists are the map `track`; `net_pulllist` is left out, a reply is given
to a process that waits. The field `got` belongs to the record of the run and tells which parts of
a page have been received; a page that was here from the start has all of them.
-/

namespace Determinator.Pullva

/-- An entry of a table. -/
inductive Entry
  | blank
  | zero
  | ref (rr : Rr)
  | page (f : Frame)
  deriving DecidableEq

/-- A word that has been received: a remote reference, or a word without `PTE_REMOTE`. -/
def Entry.ofSent : Option Rr → Entry
  | some rr => .ref rr
  | none => .blank

/-- What a process is doing. -/
inductive Mode
  /-- It is not here. -/
  | away
  /-- It waits for the parts of a page. -/
  | wait
  /-- It is in the loop of `net_rxpullrp`. -/
  | walk
  /-- `proc_ready` has been called. -/
  | ready
  deriving DecidableEq

/-- The part of `struct proc` that pulling works on, with the page map root. -/
structure Puller where
  mode : Mode
  root : ℕ → Entry
  pullva : ℕ
  pullpg : Frame
  pglev : ℕ
  arrived : ℕ → Bool

/-- The processes that come to a node, and its pages. -/
structure State (P : Type) where
  proc : P → Puller
  tab : Frame → ℕ → Entry
  track : Rr → Option Frame
  /-- The pages that `mem_alloc` may give. -/
  free : Frame → Bool
  /-- The pages of this node that other nodes have references to. -/
  own : Frame → Bool
  got : Frame → ℕ → Bool
  stopped : Bool

/-- What can happen. -/
inductive Act (P : Type)
  /-- `net_rxmigrq`: a process comes and pulls its root into the page `f`. -/
  | rxmigrq (p : P) (f : Frame)
  /-- A part of the page that a process waits for. -/
  | rxpullrp (p : P) (part : ℕ) (words : ℕ → Option Rr)
  /-- The next address of the loop; `f` is the page that `mem_alloc` gives. -/
  | walk (p : P) (f : Frame)
  /-- The process has run and has left the node. -/
  | leave (p : P)

variable {P : Type} [DecidableEq P] (node : BitVec 8)

namespace State

/-- Change a process. -/
def setProc (s : State P) (p : P) (w : Puller) : State P :=
  { s with proc := Function.update s.proc p w }

/-- The entries of a page with the words of a part stored; `size` is the entries of a part. -/
def fill (e : ℕ → Entry) (size part : ℕ) (words : ℕ → Option Rr) : ℕ → Entry :=
  fun i => if i / size = part then .ofSent (words i) else e i

/-- Store a part, in `net_rxpullrp`. -/
def store (s : State P) (p : P) (part : ℕ) (words : ℕ → Option Rr) : State P :=
  let w := s.proc p
  if 2 < part ∨ w.arrived part then s
  else
    let arrived := Function.update w.arrived part true
    let mode : Mode := if arrived 0 ∧ arrived 1 ∧ arrived 2 then .walk else .wait
    let w := { w with arrived := arrived, mode := mode }
    if w.pglev = 2 then s.setProc p { w with root := fill w.root 171 part words }
    else
      let got := Function.update (s.got w.pullpg) part true
      let s := { s with got := Function.update s.got w.pullpg got }
      if w.pglev = 1 then
        { s.setProc p w with
          tab := Function.update s.tab w.pullpg (fill (s.tab w.pullpg) 342 part words) }
      else s.setProc p w

/-- `net_pullpte`: the entry in the place of a remote reference. A reference that is not known yet
makes the process pull the page into `f`. A reference to this node is asserted to be to a page that
this node has given references to. -/
def netPullpte (s : State P) (p : P) (rr : Rr) (pglevel : ℕ) (f : Frame) :
    Option (Entry × State P) :=
  if rrAddr rr = 0 then some (.zero, s)
  else if rrNode rr = node then
    let pi := rrFrame (rrAddr rr)
    if s.own pi then some (.page pi, s) else some (.ref rr, { s with stopped := true })
  else
    match s.track rr with
    | some pi => some (.page pi, s)
    | none =>
      if s.free f then
        some (.page f, { s.setProc p { s.proc p with
            mode := .wait, pullpg := f, pglev := pglevel, arrived := fun _ => false } with
          free := Function.update s.free f false
          track := Function.update s.track rr (some f)
          got := Function.update s.got f fun _ => false })
      else none

/-- Set an entry of a root. -/
def setRoot (s : State P) (p : P) (i : ℕ) (e : Entry) : State P :=
  s.setProc p { s.proc p with root := Function.update (s.proc p).root i e }

/-- Set an entry of a table. -/
def setTab (s : State P) (t : Frame) (i : ℕ) (e : Entry) : State P :=
  { s with tab := Function.update s.tab t (Function.update (s.tab t) i e) }

/-- One round of the loop of `net_rxpullrp`, up to the next change of an entry or of `pullva`. -/
def walk (s : State P) (p : P) (f : Frame) : Option (State P) :=
  let w := s.proc p
  if vmUserHi ≤ w.pullva then some (s.setProc p { w with mode := .ready })
  else
    match w.root (pdx 3 w.pullva) with
    | .ref rr => (s.netPullpte node p rr 1 f).map fun (e, u) => u.setRoot p (pdx 3 w.pullva) e
    | .zero => some (s.setProc p { w with pullva := pdAddr 1 (w.pullva + pdSize 1) })
    | .blank => some { s with stopped := true }
    | .page t =>
      match s.tab t (pdx 0 w.pullva) with
      | .ref rr => (s.netPullpte node p rr 0 f).map fun (e, u) => u.setTab t (pdx 0 w.pullva) e
      | .blank => some { s with stopped := true }
      | .zero | .page _ => some (s.setProc p { w with pullva := w.pullva + pageSize })

/-- One step; `none` where it cannot be taken. -/
def step (s : State P) (a : Act P) : Option (State P) :=
  if s.stopped then none
  else
    match a with
    | .rxmigrq p f =>
      if (s.proc p).mode = .away ∧ s.free f then
        some { s.setProc p ⟨.wait, fun _ => .blank, vmUserLo, f, 2, fun _ => false⟩ with
          free := Function.update s.free f false }
      else none
    | .rxpullrp p part words =>
      if (s.proc p).mode = .wait then some (s.store p part words) else none
    | .walk p f => if (s.proc p).mode = .walk then s.walk node p f else none
    | .leave p =>
      if (s.proc p).mode = .ready then some (s.setProc p { s.proc p with mode := .away }) else none

/-- The start: nobody is here, and the pages of this node are complete. -/
def init (free own : Frame → Bool) : State P where
  proc := fun _ => ⟨.away, fun _ => .blank, vmUserLo, 0, 0, fun _ => false⟩
  tab := fun _ _ => .blank
  track := fun _ => none
  free := free
  own := fun f => own f && !free f
  got := fun _ _ => true
  stopped := false

/-- The states that are reached by steps that meet `Q`. -/
inductive Run (Q : State P → Act P → Prop) : State P → Prop
  | init (free own : Frame → Bool) : Run Q (init free own)
  | step {s u : State P} {a : Act P} : Run Q s → Q s a → s.step node a = some u → Run Q u

/-- Carry out a list of steps. -/
def steps (s : State P) : List (Act P) → Option (State P)
  | [] => some s
  | a :: as => (s.step node a).bind fun u => steps u as

end State

end Determinator.Pullva
