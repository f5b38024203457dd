import Determinator.Kern.Proc

/-!
# System calls

`kern/syscall.c`. The handlers of PUT and GET are cut where the source takes or releases a lock:
`doPutSync` and `doGetSync` are their first section, which finds the child and waits for it, and
`doPutBody` and `doGetBody` are what they do with the stopped child. The calls a handler makes of
the page-map code are collected in a list, so that they can be looked at; `Call.exec` carries them
out on the address spaces.
-/

namespace Determinator

/-! ## Commands -/

/-- `SYS_TYPE`. -/
def sysType : BitVec 32 := 0x0000000f
def sysStart : BitVec 32 := 0x00000010
def sysPerm : BitVec 32 := 0x00000100
/-- `SYS_RW`, as a bit mask of a command. -/
def sysRWCmd : BitVec 32 := 0x00000600
def sysRegs : BitVec 32 := 0x00001000
def sysFpu : BitVec 32 := 0x00002000
def sysMemop : BitVec 32 := 0x00030000
def sysZero : BitVec 32 := 0x00010000
def sysCopy : BitVec 32 := 0x00020000
def sysMerge : BitVec 32 := 0x00030000
def sysSnap : BitVec 32 := 0x00040000

/-- The command word of a system call. -/
def Trapframe.cmd (tf : Trapframe) : BitVec 32 := tf.rax.setWidth 32

/-- The child number of a PUT or GET. -/
def Trapframe.childNo (tf : Trapframe) : Fin 256 := Fin.ofNat 256 tf.rdx.toNat

/-- The node of a PUT or GET. -/
def Trapframe.node (tf : Trapframe) : BitVec 8 := (tf.rdx >>> 8).setWidth 8

/-! ## Address spaces -/

/-- The address spaces, as the system calls see them. -/
structure Spaces (μ : Type) where
  /-- `pmap_newpmap`. -/
  fresh : μ
  /-- What the null page maps of `proc_null` are taken for. -/
  null : μ
  /-- A byte read from a user address; `none` is a fault. -/
  load : μ → ℕ → Option (BitVec 8)
  /-- A byte written to a user address. -/
  store : μ → ℕ → BitVec 8 → Option μ
  remove : μ → ℕ → ℕ → μ
  /-- The destination after a copy. -/
  copy : μ → ℕ → μ → ℕ → ℕ → μ
  /-- The destination after a merge. -/
  merge : μ → μ → ℕ → μ → ℕ → ℕ → μ
  setperm : μ → ℕ → ℕ → BitVec 32 → μ

/-- The page maps a system call handles: `p->pml4`, `cp->pml4` and `cp->rpml4`. -/
inductive Map
  | own
  | kid
  | ref
  deriving DecidableEq

/-- The calls the handlers make of the page-map code. -/
inductive Call
  | remove (m : Map) (va size : ℕ)
  | copy (src : Map) (sva : ℕ) (dst : Map) (dva size : ℕ)
  | merge (old src : Map) (sva : ℕ) (dst : Map) (dva size : ℕ)
  | setperm (m : Map) (va size : ℕ) (perm : BitVec 32)
  deriving DecidableEq

section

variable {μ : Type} (sp : Spaces μ)

/-- Carry out a call. -/
def Call.exec (m : Map → μ) : Call → Map → μ
  | .remove d va size => Function.update m d (sp.remove (m d) va size)
  | .copy s sva d dva size => Function.update m d (sp.copy (m s) sva (m d) dva size)
  | .merge r s sva d dva size => Function.update m d (sp.merge (m r) (m s) sva (m d) dva size)
  | .setperm d va size perm => Function.update m d (sp.setperm (m d) va size perm)

/-! ## User copies -/

/-- `checkva`. Its address parameter has 32 bits. -/
def checkva (uva : BitVec 64) (size : ℕ) : Bool :=
  let u := (uva.setWidth 32).toNat
  !(u < vmUserLo || vmUserHi ≤ u || vmUserHi - u ≤ size)

/-- The block lies in the user area. -/
def inUserArea (uva : BitVec 64) (size : ℕ) : Bool :=
  vmUserLo ≤ uva.toNat && uva.toNat + size ≤ vmUserHi

/-- The kernel's memory, as far as it is read under addresses that are not of the user area. -/
abbrev KernMem := ℕ → Option (BitVec 8)

/-- A byte, at any address. -/
def Spaces.loadAny (km : KernMem) (m : μ) (a : ℕ) : Option (BitVec 8) :=
  if vmUserLo ≤ a ∧ a < vmUserHi then sp.load m a else km a

/-- The bytes from address `a` on, up to the first fault. -/
def Spaces.loads (km : KernMem) (m : μ) : ℕ → ℕ → List (BitVec 8)
  | _, 0 => []
  | a, n + 1 =>
    match sp.loadAny km m a with
    | none => []
    | some v => v :: Spaces.loads km m (a + 1) n

/-- Write bytes from address `a` on, up to the first fault; whether there was none. -/
def Spaces.stores (m : μ) : ℕ → List (BitVec 8) → μ × Bool
  | _, [] => (m, true)
  | a, v :: vs =>
    match sp.store m a v with
    | none => (m, false)
    | some m => Spaces.stores m (a + 1) vs

/-- How a user copy ends. -/
inductive Copied (α : Type)
  /-- `checkva` turns the block down. -/
  | refused
  /-- The kernel writes over its own memory: the block is not in the user area, though `checkva`
  let it pass. -/
  | wild
  /-- A fault, after what has been copied so far. -/
  | fault (a : α)
  | done (a : α)

/-- `usercopy` into the kernel: the bytes copied. -/
def copyin (km : KernMem) (m : μ) (uva : BitVec 64) (size : ℕ) : Copied (List (BitVec 8)) :=
  if !checkva uva size then .refused
  else
    let vs := sp.loads km m uva.toNat size
    if vs.length < size then .fault vs else .done vs

/-- `usercopy` out of the kernel: the memory after it. -/
def copyout (m : μ) (uva : BitVec 64) (vs : List (BitVec 8)) : Copied μ :=
  if !checkva uva vs.length then .refused
  else if !inUserArea uva vs.length then .wild
  else
    match sp.stores m uva.toNat vs with
    | (m, true) => .done m
    | (m, false) => .fault m

/-! ## The memory operations of PUT and GET -/

/-- The check of a region of the user area, as it stands in `do_put` and `do_get`. -/
def regionOk (va size : ℕ) : Bool :=
  va % pageSize = 0 && size % pageSize = 0 && vmUserLo ≤ va && va ≤ vmUserHi
    && size ≤ vmUserHi - va

/-- The calls a handler makes, and whether it gets to its end; if not, it ends in
`systrap(tf, T_GPFLT, 0)`. -/
abbrev Calls := List Call × Bool

/-- `SYS_PERM`: set permissions in `m` after the calls made so far. -/
def permCalls (m : Map) (cmd : BitVec 32) (dva size : ℕ) (cs : Calls) : Calls :=
  if !cs.2 || cmd &&& sysPerm = 0 then cs
  else if regionOk dva size then (cs.1 ++ [.setperm m dva size (cmd &&& sysRWCmd)], true)
  else (cs.1, false)

/-- The memory operation of `do_put`. -/
def putMemop (tf : Trapframe) (cmd : BitVec 32) : Calls :=
  let sva := tf.rsi.toNat
  let dva := tf.rdi.toNat
  let size := tf.rcx.toNat
  if cmd &&& sysMemop = 0 then ([], true)
  else if cmd &&& sysMemop = sysCopy then
    if !regionOk sva size then ([], false)
    else if !regionOk dva size then ([], false)
    else ([.copy .own sva .kid dva size], true)
  else if cmd &&& sysMemop = sysZero then
    if !regionOk dva size then ([], false) else ([.remove .kid dva size], true)
  else ([], false)

/-- The calls of `do_put`. -/
def putCalls (tf : Trapframe) (cmd : BitVec 32) : Calls :=
  let cs := permCalls .kid cmd tf.rdi.toNat tf.rcx.toNat (putMemop tf cmd)
  if !cs.2 || cmd &&& sysSnap = 0 then cs
  else (cs.1 ++ [.copy .kid vmUserLo .ref vmUserLo (vmUserHi - vmUserLo)], true)

/-- The memory operation of `do_get`. -/
def getMemop (tf : Trapframe) (cmd : BitVec 32) : Calls :=
  let sva := tf.rsi.toNat
  let dva := tf.rdi.toNat
  let size := tf.rcx.toNat
  if cmd &&& sysMemop = 0 then ([], true)
  else if cmd &&& sysMemop = sysZero then
    if !regionOk dva size then ([], false) else ([.remove .own dva size], true)
  else
    if !regionOk sva size then ([], false)
    else if !regionOk dva size then ([], false)
    else if cmd &&& sysMemop = sysCopy then ([.copy .kid sva .own dva size], true)
    else ([.merge .ref .kid sva .own dva size], true)

/-- The calls of `do_get`. -/
def getCalls (tf : Trapframe) (cmd : BitVec 32) : Calls :=
  let cs := permCalls .own cmd tf.rdi.toNat tf.rcx.toNat (getMemop tf cmd)
  if !cs.2 || cmd &&& sysSnap = 0 then cs else (cs.1, false)

/-! ## The registers -/

/-- The number of bytes `SYS_REGS` copies. -/
def regsLen (cmd : BitVec 32) : ℕ :=
  if cmd &&& sysFpu = 0 then Procstate.fxOffset else Procstate.size

/-- What `do_put` makes of the registers it has copied in: user segments, the flags user code may
set, and nondeterminism only if the parent has it. -/
def putSanitize (ppff : BitVec 32) (sv : Procstate) : Procstate :=
  let tf := (sv.tf.setSeg 0 segUserGs).setSeg 1 0
  let tf := ((tf.setSeg 3 segUserDs).setSeg 2 segUserDs).setSeg 22 segUserCs
  let tf := tf.setSeg 25 segUserDs
  { sv with
    tf := tf.setRflags (tf.rflags &&& flUser ||| flIF)
    pff := if ppff &&& pffNondet = 0 then sv.pff &&& ~~~pffNondet else sv.pff }

/-! ## PUT and GET -/

/-- How the part of a handler without locks ends. -/
inductive End
  /-- The handler got through. -/
  | done
  /-- `systrap(tf, trapno, 0)`. -/
  | systrap (trapno : ℕ)
  /-- A fault in a user copy. -/
  | fault
  /-- A user copy outside of the user area. -/
  | wild
  /-- A failed assertion. -/
  | panic

/-- What a handler leaves behind: the saved registers of the child, the address spaces, the calls
it has made, and how it ended. -/
structure Body (μ : Type) where
  sv : Procstate
  maps : Map → μ
  calls : List Call
  fin : End

/-- Carry out the calls of a handler. -/
def Body.ofCalls (sv : Procstate) (m : Map → μ) (cs : Calls) : Body μ :=
  ⟨sv, cs.1.foldl (Call.exec sp) m, cs.1, if cs.2 then .done else .systrap tGpflt⟩

/-- `do_put`, once the child is stopped: the child has saved registers `csv`, the parent the
feature flags `ppff`. -/
def doPutBody (km : KernMem) (tf : Trapframe) (ppff : BitVec 32) (csv : Procstate) (m : Map → μ) : Body μ :=
  let cmd := tf.cmd
  if cmd &&& sysRegs = 0 then .ofCalls sp csv m (putCalls tf cmd)
  else
    match copyin sp km (m .own) tf.rbx (regsLen cmd) with
    | .refused => ⟨csv, m, [], .systrap tPgflt⟩
    | .wild => ⟨csv, m, [], .wild⟩
    -- the bytes go straight into the save area of the child
    | .fault vs => ⟨csv.setBytes 0 vs, m, [], .fault⟩
    | .done vs => .ofCalls sp (putSanitize ppff (csv.setBytes 0 vs)) m (putCalls tf cmd)

/-- `do_get`, once the child is stopped. -/
def doGetBody (tf : Trapframe) (csv : Procstate) (m : Map → μ) : Body μ :=
  let cmd := tf.cmd
  if cmd &&& sysRegs = 0 then .ofCalls sp csv m (getCalls tf cmd)
  else if csv.tf.rflags &&& flTF ≠ 0 then ⟨csv, m, [], .panic⟩
  else
    match copyout sp (m .own) tf.rbx ((List.range (regsLen cmd)).map csv.byte) with
    | .refused => ⟨csv, m, [], .systrap tPgflt⟩
    -- the handler goes on, but what it has written over is not known
    | .wild => ⟨csv, m, (getCalls tf cmd).1, .wild⟩
    | .fault o => ⟨csv, Function.update m .own o, [], .fault⟩
    | .done o => .ofCalls sp csv (Function.update m .own o) (getCalls tf cmd)

end

section

variable {Cpu μ : Type} [DecidableEq Cpu] (net : BitVec 8) (sp : Spaces μ)

/-- The node a PUT or GET of a process names; `0` is its home. -/
def targetNode (home : BitVec 8) (tf : Trapframe) : BitVec 8 :=
  if tf.node = 0 then home else tf.node

/-- The first section of `do_put`, by process `p` on CPU `c`. -/
def doPutSync (c : Cpu) (p : Pid) (r : Proc Cpu μ) (tf : Trapframe) (s : Sys Cpu μ) : Sys Cpu μ :=
  let cp := p.child tf.childNo
  if targetNode r.home tf ≠ net then netMigrate net c p tf (targetNode r.home tf) .abort s
  else
    match s.proc cp with
    | none =>
      let s := { s with proc := Function.update s.proc cp (some (procAlloc net sp.fresh)) }
      s.setMode c (.put tf tf.childNo)
    | some q =>
      if q.state ≠ .stop then procWait c p cp tf s else s.setMode c (.put tf tf.childNo)

/-- The first section of `do_get`. -/
def doGetSync (c : Cpu) (p : Pid) (r : Proc Cpu μ) (tf : Trapframe) (s : Sys Cpu μ) : Sys Cpu μ :=
  let cp := p.child tf.childNo
  if targetNode r.home tf ≠ net then netMigrate net c p tf (targetNode r.home tf) .abort s
  else
    match s.proc cp with
    | none => s.setMode c (.get tf tf.childNo)
    | some q =>
      if q.state ≠ .stop then procWait c p cp tf s else s.setMode c (.get tf tf.childNo)

/-- `systrap`: abort the system call, with a trap for the parent. -/
def systrap (utf : Trapframe) (trapno : ℕ) (err : BitVec 32) : Mode :=
  .ret ((utf.setTrapno (.ofNat 64 trapno)).setErr err) .abort

/-- `sysrecover`, for a fault with error code `err`. Nobody sets `recoverdata`, so the trap frame
it works on is the one at address zero. -/
def sysrecover (c : Cpu) (err : BitVec 32) (s : Sys Cpu μ) : Sys Cpu μ :=
  let tf := (s.low.setTrapno (.ofNat 64 tPgflt)).setErr err
  { s with low := tf }.setMode c (.ret tf .abort)

/-- Leave the part of a handler without locks. -/
def finish (c : Cpu) (tf : Trapframe) (err : BitVec 32) (next : Mode) (fin : End)
    (s : Sys Cpu μ) : Sys Cpu μ :=
  match fin with
  | .done => s.setMode c next
  | .systrap n => s.setMode c (systrap tf n 0)
  | .fault => sysrecover c err s
  | .wild => s.setMode c .wild
  | .panic => s.halt

/-- The address spaces a PUT or GET of `p` sees; those of a missing child are the null ones. -/
def mapsOf (r : Proc Cpu μ) (q : Option (Proc Cpu μ)) : Map → μ
  | .own => r.pml4
  | .kid => q.elim sp.null Proc.pml4
  | .ref => q.elim sp.null Proc.rpml4

/-- The part of `do_put` without locks, on the system. -/
def doPut (km : KernMem) (c : Cpu) (p : Pid) (tf : Trapframe) (cn : Fin 256) (err : BitVec 32)
    (s : Sys Cpu μ) : Sys Cpu μ :=
  match s.proc p, s.proc (p.child cn) with
  | some r, some q =>
    let b := doPutBody sp km tf r.sv.pff q.sv (mapsOf sp r (some q))
    let s := s.upd p fun r => { r with pml4 := b.maps .own }
    let s := s.upd (p.child cn) fun q =>
      { q with sv := b.sv, pml4 := b.maps .kid, rpml4 := b.maps .ref }
    finish c tf err (if tf.cmd &&& sysStart = 0 then .user tf else .start tf cn) b.fin s
  | _, _ => s

/-- The part of `do_get` without locks, on the system. -/
def doGet (c : Cpu) (p : Pid) (tf : Trapframe) (cn : Fin 256) (err : BitVec 32) (s : Sys Cpu μ) :
    Sys Cpu μ :=
  match s.proc p with
  | some r =>
    let q := s.proc (p.child cn)
    let b := doGetBody sp tf (q.elim .zero Proc.sv) (mapsOf sp r q)
    let s := s.upd p fun r => { r with pml4 := b.maps .own }
    let s := s.upd (p.child cn) fun q =>
      { q with sv := b.sv, pml4 := b.maps .kid, rpml4 := b.maps .ref }
    finish c tf err (.user tf) b.fin s
  | none => s

/-- `do_cputs`: `CPUTS_MAX` bytes are copied in and printed. -/
def doCputs (km : KernMem) (c : Cpu) (r : Proc Cpu μ) (tf : Trapframe) (err : BitVec 32)
    (s : Sys Cpu μ) : Sys Cpu μ :=
  finish c tf err (.user tf)
    (match copyin sp km r.pml4 tf.rbx 256 with
      | .refused => .systrap tPgflt
      | .wild => .wild
      | .fault _ => .fault
      | .done _ => .done) s

/-- `syscall`, up to the end of its first section. The value `t` is the time, in nanoseconds, and
`err` the error code of a fault. -/
def syscall (km : KernMem) (c : Cpu) (p : Pid) (r : Proc Cpu μ) (tf : Trapframe) (t : BitVec 64)
    (err : BitVec 32) (s : Sys Cpu μ) : Sys Cpu μ :=
  match (tf.cmd &&& sysType).toNat with
  | 0 => doCputs sp km c r tf err s
  | 1 => doPutSync net sp c p r tf s
  | 2 => doGetSync net c p r tf s
  | 3 => s.setMode c (.ret tf .complete)
  | 4 => s.setMode c (.user ((tf.setRdx (t >>> 32)).setRax t))
  | 5 => s.setMode c (.user tf)
  | _ => s.setMode c (.ret tf .trap)

end

end Determinator
