import Determinator.Proc.Args
import Determinator.Kern.Machine

/-!
# Aborted system calls

A PUT or GET that ends in `systrap` or `sysrecover` is aborted: its caller stops, with a trap, as
if the INT instruction had caused it. The handlers check their arguments between the parts of their
work, so an abort may come after a part of the work is done; and `sysrecover` finds the caller's
registers through `recoverdata`, which nobody sets. The module says exactly when nothing but the
caller's state has changed.
-/

set_option linter.unusedSectionVars false

namespace Determinator

variable {Cpu μ : Type} [DecidableEq Cpu]

/-! ## What an aborted call should leave behind -/

/-- The frame `tf'` is that of a trap at an instruction executed with registers `tf`, up to the
flags that `proc_save` hides; `k` is how far `rip` has gone on. -/
structure FrameOf (tf tf' : Trapframe) (k : BitVec 64) : Prop where
  rip : tf'.rip = tf.rip + k
  rflags : tf'.rflags &&& ~~~(flTF ||| flIF) = tf.rflags &&& ~~~(flTF ||| flIF)
  rest : ∀ i, i ≠ 19 → i ≠ 20 → i ≠ 21 → i ≠ 23 → tf' i = tf i

/-- The number of a handler in `SYS_TYPE`. -/
def Handler.type : Handler → ℕ
  | .put => 1
  | .get => 2

variable (net : BitVec 8) (sp : Spaces μ)

/-- The register block: the registers of the child and the memory of the caller after it. -/
def Handler.block (km : KernMem) (h : Handler) (tf : Trapframe) (r : Proc Cpu μ)
    (q : Option (Proc Cpu μ)) : Copied (Procstate × μ) :=
  let sv := q.elim .zero Proc.sv
  if tf.cmd &&& sysRegs = 0 then .done (sv, r.pml4)
  else
    match h with
    | .put =>
      match copyin sp km r.pml4 tf.rbx (regsLen tf.cmd) with
      | .refused => .refused
      | .wild => .wild
      | .fault vs => .fault (sv.setBytes 0 vs, r.pml4)
      | .done vs => .done (putSanitize r.sv.pff (sv.setBytes 0 vs), r.pml4)
    | .get =>
      match copyout sp r.pml4 tf.rbx ((List.range (regsLen tf.cmd)).map sv.byte) with
      | .refused => .refused
      | .wild => .wild
      | .fault o => .fault (sv, o)
      | .done o => .done (sv, o)

/-- The page-map calls. -/
def Handler.calls (h : Handler) (tf : Trapframe) : Calls :=
  match h with
  | .put => putCalls tf tf.cmd
  | .get => getCalls tf tf.cmd

/-- The assertions of `proc_save` hold of a process with save area `sv` and registers `tf`. -/
def CanSave (sv : Procstate) (tf : Trapframe) : Prop :=
  if sv.pff &&& pffIcnt = 0 then tf.rflags &&& flTF = 0 else sv.icnt ≤ sv.imax

/-- What the handler has done when it gives up has changed nothing: the register block is what was
there before, and so is the memory after the page-map calls that come before the failing check.
After a fault the registers of the caller are taken from the frame at address zero, which must be
right by chance. -/
def Handler.Harmless (km : KernMem) (h : Handler) (tf : Trapframe) (r : Proc Cpu μ)
    (q : Option (Proc Cpu μ)) (low : Trapframe) : Prop :=
  let sv := q.elim .zero Proc.sv
  match h.block sp km tf.intSyscall r q with
  | .refused | .wild => CanSave r.sv tf
  | .fault (sv', o) => sv' = sv ∧ o = r.pml4 ∧ FrameOf tf low 2 ∧ CanSave r.sv low
  | .done (sv', o) => sv' = sv ∧ CanSave r.sv tf ∧
      (h.calls tf.intSyscall).1.foldl (Call.exec sp) (Function.update (mapsOf sp r q) .own o)
        = mapsOf sp r q

variable {net sp}

/-! ## The registers at the call -/

section

variable (tf : Trapframe)

variable (n : BitVec 64) (err : BitVec 32)

end

/-! ## Stopping the caller -/

/-- The child the handler works on: PUT creates a missing one. -/
def Handler.target (net : BitVec 8) (fresh : μ) (h : Handler) (q : Option (Proc Cpu μ)) :
    Option (Proc Cpu μ) :=
  match h with
  | .put => some (q.getD (procAlloc net fresh))
  | .get => q

/-- What the handler does with the child `q`. -/
def Handler.body (sp : Spaces μ) (km : KernMem) (h : Handler) (tf : Trapframe) (r : Proc Cpu μ)
    (q : Option (Proc Cpu μ)) : Body μ :=
  match h with
  | .put => doPutBody sp km tf r.sv.pff (q.elim .zero Proc.sv) (mapsOf sp r q)
  | .get => doGetBody sp tf (q.elim .zero Proc.sv) (mapsOf sp r q)

/-- The first section of a handler. -/
def Handler.sync (net : BitVec 8) (sp : Spaces μ) (h : Handler) (c : Cpu) (p : Pid)
    (r : Proc Cpu μ) (tf : Trapframe) (s : Sys Cpu μ) : Sys Cpu μ :=
  match h with
  | .put => doPutSync net sp c p r tf s
  | .get => doGetSync net c p r tf s

section

variable {km : KernMem} {h : Handler} {tf : Trapframe} {r : Proc Cpu μ} {q : Option (Proc Cpu μ)}

/-- The page map a call changes. -/
def Call.dst : Call → Map
  | .remove m _ _ | .setperm m _ _ _ | .copy _ _ m _ _ | .merge _ _ _ m _ _ => m

end

/-- A child that exists is the one the handler works on. -/
theorem target_eq {h : Handler} {q : Option (Proc Cpu μ)} (hex : h = .put → q ≠ none) :
    h.target net sp.fresh q = q := by
  cases h with
  | get => rfl
  | put =>
    obtain ⟨q, rfl⟩ := Option.ne_none_iff_exists'.1 (hex rfl)
    rfl

end Determinator
