import Determinator.Lib.Count
import Mathlib.Logic.Function.Basic
import Mathlib.Tactic.Common

/-!
# Processes that move between nodes

A process that migrates takes its address space along: the node it comes to pulls its page map and
the pages that it does not have. This is the part of `kern/net.c` that turns pages into remote
references and back (`net_txpullrp`, `net_rxpullrp`, `net_pullpte`), of `kern/mem.c` that finds the
copies of remote pages, and of `kern/pmap.c` that copies what is shared before it is written
(`pmap_walk`, `pmap_pagefault`), for any number of nodes and processes.

A page is a function from the indices of its words. A word is data, a zero mapping, a page of the
node, a remote reference, or has not been received yet. A path is the list of the indices in the
tables from the root of a page map on, so that nothing depends on the number of levels. A zero
mapping travels as a reference to the address zero and becomes a zero mapping again; it is one word
here. The checks of permissions in `pmap_pagefault`, which only rule out writes, are left out, and
so is the packing of a remote reference in 32 bits.

Three fields are the record of the run. `got` tells which of the three parts of a page have been
received (`arrived` of the process that pulls it), `old` which page map roots have been left behind
by a process that has gone to another node, and `past` where a process has come from, with that node
as it was.
-/

namespace Determinator.Nodes

/-- `RR_RW`, or the nominal permissions of an entry. -/
abbrev Perm := BitVec 2

/-- A remote reference: `RRNODE`, the page that `RRADDR` gives, and `RR_RW`. -/
structure Ref (N F : Type) where
  node : N
  frame : F
  perm : Perm
  deriving DecidableEq

/-- A word of a page. -/
inductive Word (N F D : Type)
  | blank
  | data (d : D)
  | zero (perm : Perm)
  | page (f : F) (perm : Perm)
  | ref (rr : Ref N F)
  deriving DecidableEq

/-- The pages of a node. -/
structure Node (N F D : Type) where
  mem : F → ℕ → Word N F D
  refcount : F → ℤ
  home : F → Option (Ref N F)
  /-- The home lists. -/
  track : Ref N F → Option F
  /-- Whether `shared` is not zero. -/
  shared : F → Bool
  free : F → Bool
  got : F → ℕ → Bool
  old : F → Bool

/-- A node as it was when a process left it. -/
structure Past (N F D : Type) where
  node : N
  pages : Node N F D
  root : F

/-- What a process is doing. -/
inductive Mode
  | run
  /-- It waits for the parts of a page. -/
  | wait
  /-- It is in the loop of `net_rxpullrp`. -/
  | walk
  deriving DecidableEq

/-- A process, on the node where it is. -/
structure Proc (N F D : Type) where
  node : N
  mode : Mode
  root : F
  pullrr : Ref N F
  pullpg : F
  past : Option (Past N F D)

/-- The nodes and the processes. -/
structure State (N P F D : Type) where
  node : N → Node N F D
  proc : P → Proc N F D
  stopped : Bool

/-- What can happen. -/
inductive Act (N P F D : Type)
  /-- A process that writes gets a page of its own, the page `f`, in the place of a shared one or of
  a zero mapping; a new page is a table or, if it is a leaf, a page of data. -/
  | unshare (p : P) (path : List ℕ) (i : ℕ) (leaf : Bool) (f : F)
  /-- A process writes a word. -/
  | write (p : P) (path : List ℕ) (i : ℕ) (d : D)
  /-- A process migrates and has the page `f` for its root. -/
  | migrate (p : P) (m : N) (f : F)
  /-- A part of the page that a process waits for. -/
  | pull (p : P) (part : ℕ)
  /-- `net_pullpte`; `f` is the page that `mem_alloc` gives. -/
  | resolve (p : P) (path : List ℕ) (i : ℕ) (f : F)
  /-- `proc_ready`. -/
  | ready (p : P)

variable {N P F D : Type} [DecidableEq N] [DecidableEq P] [DecidableEq F] [Inhabited D]

/-! ## One node -/

/-- The page that a word refers to. -/
def Word.target : Word N F D → Option F
  | .page f _ => some f
  | _ => none

namespace Node

/-- The pages that the entries of the tables refer to. -/
def slots (ns : Node N F D) (t : F) (i : ℕ) : Option F := (ns.mem t i).target

/-- The page at the end of a path. -/
def walkTo (ns : Node N F D) : F → List ℕ → Option F
  | t, [] => some t
  | t, i :: is =>
    match ns.slots t i with
    | some f => if i < 512 then ns.walkTo f is else none
    | none => none

/-- The page at the end of a path on which nothing is shared, for writing. -/
def walkW (ns : Node N F D) : F → List ℕ → Option F
  | t, [] => some t
  | t, i :: is =>
    match ns.slots t i with
    | some f => if i < 512 ∧ ns.refcount f ≤ 1 then ns.walkW f is else none
    | none => none

/-- Set a word. -/
def setWord (ns : Node N F D) (t : F) (i : ℕ) (w : Word N F D) : Node N F D :=
  { ns with mem := Function.update ns.mem t (Function.update (ns.mem t) i w) }

/-- `mem_alloc` and `mem_incref`, with the contents of the page. -/
def alloc (ns : Node N F D) (f : F) (words : ℕ → Word N F D) (got : Bool) : Node N F D :=
  { ns with
    mem := Function.update ns.mem f words
    refcount := Function.update ns.refcount f 1
    home := Function.update ns.home f none
    shared := Function.update ns.shared f false
    free := Function.update ns.free f false
    got := Function.update ns.got f fun _ => got }

/-- The page `g` is copied to `f` for the entry `i` of `t`: the copy has references to what `g` has
references to, and `g` has one less. -/
def copyPage (ns : Node N F D) (t : F) (i : ℕ) (g : F) (perm : Perm) (f : F) : Node N F D :=
  let ns := { ns with
    refcount := fun x =>
      Function.update ns.refcount g (ns.refcount g - 1) x + tableCount 512 ns.slots g x }
  (ns.alloc f (ns.mem g) true).setWord t i (.page f perm)

/-- A new page for the entry `i` of `t`. -/
def newPage (ns : Node N F D) (t : F) (i : ℕ) (perm : Perm) (f : F) (leaf : Bool) : Node N F D :=
  (ns.alloc f (fun _ => if leaf then .data default else .zero 0) true).setWord t i (.page f perm)

/-- An entry gets a page that is here. -/
def link (ns : Node N F D) (t : F) (i : ℕ) (g : F) (perm : Perm) : Node N F D :=
  { ns with refcount := Function.update ns.refcount g (ns.refcount g + 1) }.setWord t i
    (.page g perm)

/-- An entry gets a page that is going to be pulled. -/
def pullInto (ns : Node N F D) (t : F) (i : ℕ) (rr : Ref N F) (f : F) : Node N F D :=
  let ns := (ns.alloc f (fun _ => .blank) false).setWord t i (.page f rr.perm)
  { ns with
    home := Function.update ns.home f (some rr)
    track := Function.update ns.track rr (some f)
    shared := Function.update ns.shared f true }

/-- A word as `net_txpullrp` sends it: a page that came from elsewhere goes under its original
reference. -/
def wireWord (n : N) (ns : Node N F D) : Word N F D → Word N F D
  | .page f perm => .ref ((ns.home f).getD ⟨n, f, perm⟩)
  | w => w

/-- The words of a page as they are sent. -/
def wire (n : N) (ns : Node N F D) (f : F) (i : ℕ) : Word N F D := ns.wireWord n (ns.mem f i)

/-- The words of a part are stored. -/
def store (ns : Node N F D) (f : F) (part : ℕ) (words : ℕ → Word N F D) : Node N F D :=
  { ns with
    mem := Function.update ns.mem f fun i => if i / 171 = part then words i else ns.mem f i
    got := Function.update ns.got f (Function.update (ns.got f) part true) }

/-- All three parts of the page are here. -/
def complete (ns : Node N F D) (f : F) : Bool := ns.got f 0 && ns.got f 1 && ns.got f 2

end Node

/-! ## All nodes -/

namespace State

/-- Change a node. -/
def setNode (s : State N P F D) (n : N) (ns : Node N F D) : State N P F D :=
  { s with node := Function.update s.node n ns }

/-- Change a process. -/
def setProc (s : State N P F D) (p : P) (w : Proc N F D) : State N P F D :=
  { s with proc := Function.update s.proc p w }

/-- The node of a process. -/
def here (s : State N P F D) (p : P) : Node N F D := s.node (s.proc p).node

/-- A process that writes gets a page of its own. -/
def unshare (s : State N P F D) (p : P) (path : List ℕ) (i : ℕ) (leaf : Bool) (f : F) :
    Option (State N P F D) :=
  let w := s.proc p
  let ns := s.here p
  if w.mode = .run ∧ i < 512 ∧ ns.free f then
    match ns.walkW w.root path with
    | none => none
    | some t =>
      match ns.mem t i with
      | .page g perm =>
        if 1 < ns.refcount g then some (s.setNode w.node (ns.copyPage t i g perm f)) else none
      | .zero perm => some (s.setNode w.node (ns.newPage t i perm f leaf))
      | _ => none
  else none

/-- A process writes a word. -/
def write (s : State N P F D) (p : P) (path : List ℕ) (i : ℕ) (d : D) : Option (State N P F D) :=
  let w := s.proc p
  let ns := s.here p
  if w.mode = .run ∧ i < 512 then
    match ns.walkW w.root path with
    | none => none
    | some g =>
      match ns.mem g i with
      | .data _ => some (s.setNode w.node (ns.setWord g i (.data d)))
      | _ => none
  else none

/-- `net_migrate` and `net_rxmigrq`. -/
def migrate (s : State N P F D) (p : P) (m : N) (f : F) : Option (State N P F D) :=
  let w := s.proc p
  let ns := s.here p
  if w.mode = .run ∧ m ≠ w.node ∧ (s.node m).free f then
    let s := s.setNode w.node { ns with old := Function.update ns.old w.root true }
    let s := s.setNode m ((s.node m).alloc f (fun _ => .blank) false)
    some (s.setProc p
      { node := m, mode := .wait, root := f, pullrr := ⟨w.node, w.root, 0⟩, pullpg := f,
        past := some ⟨w.node, ns, w.root⟩ })
  else none

/-- `net_rxpullrq` on the node that is asked, and the reply. -/
def pull (s : State N P F D) (p : P) (part : ℕ) : Option (State N P F D) :=
  let w := s.proc p
  let rr := w.pullrr
  let owner := s.node rr.node
  if w.mode = .wait ∧ part < 3 ∧ (s.here p).got w.pullpg part = false ∧
      owner.home rr.frame = none ∧ owner.free rr.frame = false then
    let s := s.setNode rr.node { owner with shared := Function.update owner.shared rr.frame true }
    let ns := (s.here p).store w.pullpg part (owner.wire rr.node rr.frame)
    let s := s.setNode w.node ns
    some (s.setProc p { w with mode := if ns.complete w.pullpg then .walk else .wait })
  else none

/-- `net_pullpte`. -/
def resolve (s : State N P F D) (p : P) (path : List ℕ) (i : ℕ) (f : F) :
    Option (State N P F D) :=
  let w := s.proc p
  let ns := s.here p
  if w.mode = .walk ∧ i < 512 then
    match ns.walkTo w.root path with
    | none => none
    | some t =>
      match ns.mem t i with
      | .ref rr =>
        if rr.node = w.node then
          if ns.home rr.frame = none ∧ ns.shared rr.frame then
            some (s.setNode w.node (ns.link t i rr.frame rr.perm))
          else some { s with stopped := true }
        else
          match ns.track rr with
          | some g =>
            if ns.home g = some rr ∧ ns.shared g then
              some (s.setNode w.node (ns.link t i g rr.perm))
            else some { s with stopped := true }
          | none =>
            if ns.free f then
              some ((s.setNode w.node (ns.pullInto t i rr f)).setProc p
                { w with mode := .wait, pullrr := rr, pullpg := f })
            else none
      | _ => none
  else none

/-- One step; `none` where it cannot be taken. -/
def step (s : State N P F D) (a : Act N P F D) : Option (State N P F D) :=
  if s.stopped then none
  else
    match a with
    | .unshare p path i leaf f => s.unshare p path i leaf f
    | .write p path i d => s.write p path i d
    | .migrate p m f => s.migrate p m f
    | .pull p part => s.pull p part
    | .resolve p path i f => s.resolve p path i f
    | .ready p =>
      if (s.proc p).mode = .walk then some (s.setProc p { s.proc p with mode := .run }) else none

/-- What `net_pullpte` finds without a pull: the reference, and the page of this node. -/
def found (s : State N P F D) (p : P) (path : List ℕ) (i : ℕ) : Option (Ref N F × F) :=
  let w := s.proc p
  let ns := s.here p
  match ns.walkTo w.root path with
  | none => none
  | some t =>
    match ns.mem t i with
    | .ref rr =>
      if rr.node = w.node then some (rr, rr.frame) else (ns.track rr).map fun g => (rr, g)
    | _ => none

variable [Fintype F]

/-- The processes run on their nodes with page maps that may share tables and pages, and nobody has
moved yet. -/
structure Boot (s : State N P F D) : Prop where
  running : s.stopped = false
  mode : ∀ p, (s.proc p).mode = .run
  past : ∀ p, (s.proc p).past = none
  rootUsed : ∀ p, (s.here p).free (s.proc p).root = false
  rootAlone : ∀ p q, (s.proc p).node = (s.proc q).node → (s.proc p).root = (s.proc q).root → p = q
  rootSlot : ∀ p t, ∀ i < 512, (s.here p).slots t i ≠ some (s.proc p).root
  freeBlank : ∀ n t i, (s.node n).free t = true → (s.node n).mem t i = .blank
  slotUsed : ∀ n t f, ∀ i < 512, (s.node n).slots t i = some f → (s.node n).free f = false
  count : ∀ n f, refCount 512 (s.node n).slots f ≤ (s.node n).refcount f
  noRef : ∀ n t rr, ∀ i < 512, (s.node n).mem t i ≠ .ref rr
  home : ∀ n f, (s.node n).home f = none
  track : ∀ n rr, (s.node n).track rr = none
  got : ∀ n f part, (s.node n).got f part = true
  old : ∀ n f, (s.node n).old f = false

/-- The states that are reached by steps that meet `Q`. -/
inductive Run (Q : State N P F D → Act N P F D → Prop) : State N P F D → Prop
  | boot {s : State N P F D} : Boot s → Run Q s
  | step {s u : State N P F D} {a : Act N P F D} : Run Q s → Q s a → s.step a = some u → Run Q u

/-- Carry out a list of steps. -/
def steps (s : State N P F D) : List (Act N P F D) → Option (State N P F D)
  | [] => some s
  | a :: as => (s.step a).bind fun u => steps u as

end State

end Determinator.Nodes
