import Determinator.Kern.Recover

/-!
# Copies to and from user space

`usercopy` in two respects: which blocks it copies, and what becomes of a fault on the way. The
address that `checkva` looks at has lost its upper half, and the bound it puts on the size is one
too small; `sysrecover` takes the caller's trap frame from `recoverdata`, which nobody sets.
-/

set_option linter.unusedSectionVars false

namespace Determinator

/-! ## The blocks that are copied -/

/-- The copy has begun. -/
def Copied.moves {α : Type} : Copied α → Bool
  | .refused => false
  | _ => true

/-- How a handler goes on after a copy. -/
def Copied.fin {α : Type} : Copied α → End
  | .refused => .systrap tPgflt
  | .wild => .wild
  | .fault _ => .fault
  | .done _ => .done

section

variable {μ : Type} (sp : Spaces μ)

/-- The user copies of a block, in both directions, are safe and complete: they move bytes only if
the block lies in the user area, and reflect a page fault otherwise; and they do so for every such
block that is not empty. -/
structure ChecksBlock (km : KernMem) (m : μ) (uva : BitVec 64) (vs : List (BitVec 8)) : Prop where
  inOnly : (copyin sp km m uva vs.length).moves = true → inUserArea uva vs.length = true
  outOnly : (copyout sp m uva vs).moves = true → inUserArea uva vs.length = true
  inElse : (copyin sp km m uva vs.length).moves = false →
    (copyin sp km m uva vs.length).fin = .systrap tPgflt
  outElse : (copyout sp m uva vs).moves = false → (copyout sp m uva vs).fin = .systrap tPgflt
  inAll : 0 < vs.length → inUserArea uva vs.length = true →
    (copyin sp km m uva vs.length).moves = true
  outAll : 0 < vs.length → inUserArea uva vs.length = true → (copyout sp m uva vs).moves = true

/-- The blocks for which the check with the lower half of the address comes out right. -/
def Judged (uva : BitVec 64) (size : ℕ) : Prop :=
  let lo := uva.toNat % 2 ^ 32
  if uva.toNat < 2 ^ 32 then vmUserLo ≤ lo → uva.toNat + size ≠ vmUserHi
  else if vmUserLo ≤ lo then uva.toNat + size ≤ vmUserHi ∨ vmUserHi ≤ lo + size
  else size = 0 ∨ vmUserHi < uva.toNat + size

theorem checkva_iff {uva : BitVec 64} {size : ℕ} :
    checkva uva size = true ↔
      vmUserLo ≤ uva.toNat % 2 ^ 32 ∧ uva.toNat % 2 ^ 32 + size < vmUserHi := by
  unfold checkva vmUserLo vmUserHi
  rw [BitVec.toNat_setWidth]
  simp only [Bool.not_eq_true', Bool.or_eq_false_iff, decide_eq_false_iff_not]
  omega

theorem inUserArea_iff {uva : BitVec 64} {size : ℕ} :
    inUserArea uva size = true ↔ vmUserLo ≤ uva.toNat ∧ uva.toNat + size ≤ vmUserHi := by
  simp [inUserArea]

theorem copyin_moves (km : KernMem) (m : μ) (uva : BitVec 64) (size : ℕ) :
    (copyin sp km m uva size).moves = checkva uva size := by
  unfold copyin
  cases checkva uva size with
  | false => rfl
  | true =>
    simp only [Bool.not_true, Bool.false_eq_true, if_false]
    split <;> rfl

theorem copyout_moves (m : μ) (uva : BitVec 64) (vs : List (BitVec 8)) :
    (copyout sp m uva vs).moves = checkva uva vs.length := by
  unfold copyout
  cases checkva uva vs.length with
  | false => rfl
  | true =>
    simp only [Bool.not_true, Bool.false_eq_true, if_false]
    split
    · rfl
    · split <;> rfl

/-- A copy that moves nothing ends in a page fault for the parent. -/
theorem Copied.fin_of_not_moves {α : Type} {c : Copied α} (h : c.moves = false) :
    c.fin = .systrap tPgflt := by
  cases c with
  | refused => rfl
  | wild | fault | done => cases h

/-- `usercopy` treats a block as it should exactly when its address fits in 32 bits and the block
does not end at `VM_USERHI`, or the upper half of the address makes no difference. -/
theorem usercopy_checks_block_iff (km : KernMem) (m : μ) (uva : BitVec 64)
    (vs : List (BitVec 8)) : ChecksBlock sp km m uva vs ↔ Judged uva vs.length := by
  have hjudge : Judged uva vs.length ↔
      (checkva uva vs.length = true → inUserArea uva vs.length = true) ∧
      (0 < vs.length → inUserArea uva vs.length = true → checkva uva vs.length = true) := by
    rw [checkva_iff, inUserArea_iff]
    unfold Judged vmUserLo vmUserHi
    have := uva.isLt
    simp only
    split
    · omega
    · split <;> omega
  rw [hjudge]
  constructor
  · intro h
    rw [← copyin_moves sp km m]
    exact ⟨h.inOnly, h.inAll⟩
  · rintro ⟨hin, hall⟩
    constructor
    case inOnly => rwa [copyin_moves]
    case outOnly => rwa [copyout_moves]
    case inElse => exact Copied.fin_of_not_moves
    case outElse => exact Copied.fin_of_not_moves
    case inAll => rwa [copyin_moves]
    case outAll => rwa [copyout_moves]

end

/-- An address space with nothing in it. -/
def emptySpaces : Spaces Unit where
  fresh := ()
  null := ()
  load _ _ := none
  store _ _ _ := none
  remove _ _ _ := ()
  copy _ _ _ _ _ := ()
  merge _ _ _ _ _ _ := ()
  setperm _ _ _ _ := ()

/-- A byte of the kernel, whose address has a lower half above `VM_USERLO`, is copied. -/
theorem usercopy_kernel_byte :
    (copyin emptySpaces (fun _ => some 0) () 0xffffff8040000000 1).moves = true ∧
      ¬ ChecksBlock emptySpaces (fun _ => some 0) () 0xffffff8040000000 [0] := by
  have hm : (copyin emptySpaces (fun _ => some 0) () 0xffffff8040000000 1).moves = true := by
    decide
  refine ⟨hm, fun h => ?_⟩
  exact absurd (h.inOnly hm) (by decide)

/-! ## Faults in a copy -/

section

variable {Cpu μ : Type} [DecidableEq Cpu] (net : BitVec 8) (sp : Spaces μ)

/-- The process `p` is in a system call, with its trap frame `tf` at address `utf`: it is running,
its CPU holds no process lock, and no recovery is under way. -/
structure Calling (k : Kernel Cpu μ) (p : Pid) (r : Proc Cpu μ) (utf : ℕ) (tf : Trapframe) :
    Prop where
  proc : k.sys.proc p = some r
  state : r.state = .run
  recover : k.recover = false
  held : k.held = []
  frame : k.frame utf = tf

/-- The frame of a caller that is blamed for a fault. -/
def Trapframe.blamed (tf ktf : Trapframe) : Trapframe :=
  ((tf.setTrapno ktf.trapno).setErr ((ktf 20).setWidth 32)).setRip (tf.rip - 2)

/-- A fault during a copy is blamed on the caller: `sysrecover` gets the caller's own trap frame,
and the caller is stopped with its registers, the trap of the fault, and the system call still
ahead of it; no recovery handler is left behind, and no process lock. -/
structure Blamed (h : Copier) (c : Cpu) (p : Pid) (utf : ℕ) (tf : Trapframe) (sys : Sys Cpu μ)
    (ktf : Trapframe) (io : Io μ) (k : Kernel Cpu μ) : Prop where
  own : (Kernel.beginCopy sys (Kernel.sync h p k)).recover = true ∧
    (Kernel.beginCopy sys (Kernel.sync h p k)).recoverdata = utf
  stopped : ∃ r', (Kernel.copyFault net h c p sys ktf io k).sys.proc p = some r' ∧
    r'.state = .stop ∧ r'.sv.tf = tf.blamed ktf
  recover : (Kernel.copyFault net h c p sys ktf io k).recover = false
  held : (Kernel.copyFault net h c p sys ktf io k).held = []

/-- `recoverdata` points at the caller's trap frame, and the caller can be stopped as it is: it is
at home, has a parent, is not single-stepped and has not used up its instructions. -/
structure Blamable (k : Kernel Cpu μ) (p : Pid) (r : Proc Cpu μ) (utf : ℕ) (tf : Trapframe) :
    Prop where
  recoverdata : k.recoverdata = utf
  home : r.home = net
  parent : p.parent ≠ none
  step : tf.rflags &&& flTF = 0
  icnt : r.sv.pff &&& pffIcnt ≠ 0 → r.sv.icnt ≤ r.sv.imax

variable {net sp}

/-! ### The registers -/

theorem blamed_rflags (tf ktf : Trapframe) : (tf.blamed ktf).rflags = tf.rflags := by
  simp [Trapframe.blamed, Trapframe.rflags, Trapframe.setRip, Trapframe.setErr,
    Trapframe.setTrapno]

/-- A process is saved with its registers as they are when it is not single-stepped and its
instruction count is within its limit. -/
theorem procSave_blamed_iff {sv : Procstate} {tf ktf : Trapframe} :
    (∃ sv', procSave sv ((tf.setTrapno ktf.trapno).setErr ((ktf 20).setWidth 32)) .abort = some sv' ∧
      sv'.tf = tf.blamed ktf) ↔
    tf.rflags &&& flTF = 0 ∧ (sv.pff &&& pffIcnt ≠ 0 → sv.icnt ≤ sv.imax) := by
  have hrip : ((tf.setTrapno ktf.trapno).setErr ((ktf 20).setWidth 32)).rip = tf.rip := by
    simp [Trapframe.rip, Trapframe.setErr, Trapframe.setTrapno]
  unfold procSave
  rw [if_pos rfl, hrip]
  change (∃ sv', (saveIcnt { sv with tf := tf.blamed ktf } .abort).filter _ = _ ∧ _) ↔ _
  have hfl := blamed_rflags tf ktf
  unfold saveIcnt
  simp only [hfl]
  by_cases hi : sv.pff &&& pffIcnt = 0
  · rw [if_pos hi]
    constructor
    · rintro ⟨sv', hsv, htf⟩
      rw [Option.filter_eq_some_iff] at hsv
      obtain ⟨hsv, hp⟩ := hsv
      obtain rfl := Option.some.inj hsv
      simp only [hfl, decide_eq_true_eq] at hp
      exact ⟨hp, fun h => absurd hi h⟩
    · rintro ⟨ht, -⟩
      refine ⟨_, Option.filter_eq_some_iff.2 ⟨rfl, ?_⟩, rfl⟩
      simp [hfl, ht]
  · rw [if_neg hi]
    by_cases ht : tf.rflags &&& flTF = 0
    · simp only [if_pos ht]
      constructor
      · rintro ⟨sv', hsv, htf⟩
        rw [Option.filter_eq_some_iff] at hsv
        refine ⟨ht, fun _ => ?_⟩
        by_contra hle
        rw [if_neg hle] at hsv
        exact absurd hsv.1 (by simp)
      · rintro ⟨-, hle⟩
        rw [if_pos (hle hi)]
        refine ⟨_, Option.filter_eq_some_iff.2 ⟨rfl, ?_⟩, rfl⟩
        simp [hfl, ht]
    · simp only [if_neg ht]
      constructor
      · rintro ⟨sv', hsv, htf⟩
        rw [Option.filter_eq_some_iff] at hsv
        obtain ⟨hsv, hp⟩ := hsv
        simp only [decide_eq_true_eq, htf, hfl] at hp
        exact absurd hp ht
      · rintro ⟨ht', -⟩
        exact absurd ht' ht

/-! ### The caller stops -/

theorem procRun_proc_ne {c : Cpu} {p q : Pid} {s : Sys Cpu μ} (h : q ≠ p) :
    (procRun c p s).proc q = s.proc q := by
  unfold procRun
  cases hp : s.proc p with
  | none => rfl
  | some r =>
    simp only
    split
    · exact s.upd_proc_ne h _
    · exact s.upd_proc_ne h _

/-- `proc_ret` after an aborted system call stops the process when it is at home and has a parent,
and its state can be saved. -/
theorem procRet_stops_iff {c : Cpu} {p : Pid} {tf X : Trapframe} {io : Io μ} {s : Sys Cpu μ}
    {r : Proc Cpu μ} (hp : s.proc p = some r) (hrun : r.state = .run) :
    (∃ r', (procRet net c p tf .abort io s).proc p = some r' ∧ r'.state = .stop ∧ r'.sv.tf = X) ↔
      r.home = net ∧ p.parent ≠ none ∧ ∃ sv, procSave r.sv tf .abort = some sv ∧ sv.tf = X := by
  have hhalt : ¬ ∃ r', s.halt.proc p = some r' ∧ r'.state = .stop ∧ r'.sv.tf = X := by
    rintro ⟨r', hr', hst, -⟩
    change s.proc p = some r' at hr'
    rw [hp] at hr'
    obtain rfl := Option.some.inj hr'
    rw [hrun] at hst
    cases hst
  unfold procRet
  simp only [hp, Option.elim_some]
  by_cases hh : r.home = net
  · rw [if_neg (by simp [hh])]
    cases hpar : p.parent with
    | none =>
      simp only
      rw [if_neg (by simp)]
      exact ⟨fun h => absurd h hhalt, fun h => absurd rfl h.2.1⟩
    | some q =>
      have hqp : p ≠ q := by
        obtain ⟨cn, rfl⟩ := Pid.parent_eq hpar
        exact Pid.child_ne q cn
      simp only
      unfold stopChild
      simp only [hp, Option.bind_some]
      cases hsave : procSave r.sv tf .abort with
      | none =>
        simp only
        refine ⟨fun h => absurd h hhalt, ?_⟩
        rintro ⟨-, -, sv, hsv, -⟩
        cases hsv
      | some sv =>
        have hproc : ∀ t : Sys Cpu μ, t.proc p = (s.upd p fun r =>
            { r with state := .stop, runcpu := none, sv := sv }).proc p →
            ((∃ r', t.proc p = some r' ∧ r'.state = .stop ∧ r'.sv.tf = X) ↔
              r.home = net ∧ some q ≠ none ∧ ∃ sv', some sv = some sv' ∧ sv'.tf = X) := by
          intro t ht
          rw [ht, Sys.upd_proc_self, hp]
          simp [hh]
        simp only
        split
        · apply hproc
          rw [procRun_proc_ne hqp, Sys.upd_proc_ne _ hqp]
        · exact hproc _ rfl
  · rw [if_pos hh]
    refine ⟨fun h => absurd h ?_, fun h => absurd h.1 hh⟩
    unfold netMigrate
    simp only [hp, Option.bind_some]
    cases procSave r.sv tf (if Entry.abort = .complete then .abort else .abort) with
    | none => exact hhalt
    | some sv =>
      simp only
      split
      · rintro ⟨r', hr', hst, -⟩
        change (s.upd p _).proc p = some r' at hr'
        rw [Sys.upd_proc_self, hp] at hr'
        obtain rfl := Option.some.inj hr'
        cases hst
      · exact hhalt

/-- The copy of a system call leaves the caller's registers, state and home as they are. -/
theorem Copier.faults_caller {km : KernMem} {h : Copier} {p : Pid} {r : Proc Cpu μ}
    {tf : Trapframe} {s t : Sys Cpu μ} (hp : s.proc p = some r)
    (hf : h.faults sp km p r tf s = some t) :
    ∃ m, t.proc p = some { r with pml4 := m } := by
  have hne : p ≠ p.child tf.childNo := (Pid.child_ne p _).symm
  unfold Copier.faults at hf
  cases h with
  | cputs =>
    simp only at hf
    split at hf
    · obtain rfl := Option.some.inj hf
      exact ⟨r.pml4, hp⟩
    · cases hf
  | put =>
    simp only at hf
    split at hf
    · obtain rfl := Option.some.inj hf
      exact ⟨r.pml4, by rw [Sys.upd_proc_ne _ hne, hp]⟩
    · cases hf
  | get =>
    simp only at hf
    split at hf
    next o _ =>
      obtain rfl := Option.some.inj hf
      exact ⟨o, by rw [Sys.upd_proc_self, hp]; rfl⟩
    · cases hf

/-! ### The fault -/

variable {k : Kernel Cpu μ} {h : Copier} {c : Cpu} {p : Pid} {r : Proc Cpu μ} {utf : ℕ}
  {tf ktf : Trapframe} {io : Io μ} {sys : Sys Cpu μ}

/-- The state in which the fault of a copy arrives at `trap`. -/
theorem beginCopy_eq (hk : Calling k p r utf tf) :
    Kernel.beginCopy sys (Kernel.sync h p k) = { k with recover := true, sys := sys } := by
  have hs : Kernel.sync h p k = k := by
    cases h with
    | cputs => rfl
    | put | get =>
      change { k with held := (p :: k.held).erase p } = k
      rw [List.erase_cons_head]
  rw [hs]
  unfold Kernel.beginCopy
  rw [if_neg (by simp [hk.recover])]

theorem copyFault_eq (hk : Calling k p r utf tf) :
    Kernel.copyFault net h c p sys ktf io k =
      Kernel.systrap net c p k.recoverdata ktf.trapno ((ktf 20).setWidth 32) io
        { k with recover := false, sys := sys } := by
  unfold Kernel.copyFault
  rw [beginCopy_eq hk]
  rfl

theorem systrap_held (hk : k.held = []) (d : ℕ) (n : BitVec 64) (e : BitVec 32) :
    (Kernel.systrap net c p d n e io k).held = [] := by
  unfold Kernel.systrap Kernel.procRet
  cases p.parent with
  | none => exact hk
  | some q => simp [Kernel.release, Kernel.acquire, hk]

theorem systrap_recover (d : ℕ) (n : BitVec 64) (e : BitVec 32) :
    (Kernel.systrap net c p d n e io k).recover = k.recover := by
  unfold Kernel.systrap Kernel.procRet
  cases p.parent <;> rfl

theorem systrap_sys (d : ℕ) (n : BitVec 64) (e : BitVec 32) :
    (Kernel.systrap net c p d n e io k).sys =
      procRet net c p (((k.frame d).setTrapno n).setErr e) .abort io k.sys := by
  unfold Kernel.systrap Kernel.procRet
  cases p.parent <;> rfl

/-- A fault during a user copy is blamed on the caller exactly when `recoverdata` happens to point
at the caller's trap frame and the caller can be stopped there. -/
theorem copy_fault_blamed_iff {km : KernMem} (hk : Calling k p r utf tf)
    (hf : h.faults sp km p r tf k.sys = some sys) :
    Blamed net h c p utf tf sys ktf io k ↔ Blamable net k p r utf tf := by
  obtain ⟨m, hp⟩ := Copier.faults_caller hk.proc hf
  have hstops : k.recoverdata = utf →
      ((∃ r', (Kernel.copyFault net h c p sys ktf io k).sys.proc p = some r' ∧
        r'.state = .stop ∧ r'.sv.tf = tf.blamed ktf) ↔
      r.home = net ∧ p.parent ≠ none ∧
        tf.rflags &&& flTF = 0 ∧ (r.sv.pff &&& pffIcnt ≠ 0 → r.sv.icnt ≤ r.sv.imax)) := by
    intro hd
    rw [copyFault_eq hk, systrap_sys]
    simp only [hd, hk.frame]
    rw [procRet_stops_iff hp hk.state, procSave_blamed_iff]
  constructor
  · intro hb
    have hd : k.recoverdata = utf := by
      have := hb.own.2
      rwa [beginCopy_eq hk] at this
    obtain ⟨hh, hpar, ht, hi⟩ := (hstops hd).1 hb.stopped
    exact ⟨hd, hh, hpar, ht, hi⟩
  · intro hb
    constructor
    case own =>
      rw [beginCopy_eq hk]
      exact ⟨rfl, hb.recoverdata⟩
    case stopped => exact (hstops hb.recoverdata).2 ⟨hb.home, hb.parent, hb.step, hb.icnt⟩
    case recover =>
      rw [copyFault_eq hk, systrap_recover]
    case held =>
      rw [copyFault_eq hk]
      refine systrap_held ?_ _ _ _
      exact hk.held

end

/-- The trap frame of a CPUTS of the string at `VM_USERLO`. -/
def cputsFrame : Trapframe := (freshSv.tf.withArgs 0 0x40000000 0 0 0 0).intSyscall

/-- A running process of node 1. -/
def cputsProc : Proc Unit Unit :=
  { (procAlloc 1 () : Proc Unit Unit) with state := .run, runcpu := some () }

/-- A child of the root process on node 1, in a CPUTS; its trap frame is at address `0x1000`. -/
def cputsKernel (recoverdata : ℕ) : Kernel Unit Unit where
  sys :=
    { proc := fun p =>
        if p = Pid.root.child 0 then some cputsProc else none
      readyhead := none
      readytail := .head
      cpu := fun _ => ⟨some (Pid.root.child 0), .user cputsFrame⟩
      low := fun _ => 0
      halted := false }
  recover := false
  recoverdata := recoverdata
  held := []
  frame := fun a => if a = 0x1000 then cputsFrame else fun _ => 0

theorem cputsKernel_calling (d : ℕ) :
    Calling (cputsKernel d) (Pid.root.child 0)
      cputsProc 0x1000 cputsFrame where
  proc := by simp [cputsKernel]
  state := rfl
  recover := rfl
  held := rfl
  frame := by simp [cputsKernel]

theorem cputsKernel_faults (d : ℕ) :
    Copier.faults emptySpaces (fun _ => none) .cputs (Pid.root.child 0)
      cputsProc cputsFrame (cputsKernel d).sys = some (cputsKernel d).sys := by
  have hc : copyin emptySpaces (fun _ => none) () cputsFrame.rbx 256 = .fault [] := by
    have hv : checkva cputsFrame.rbx 256 = true := by decide
    have hl : (emptySpaces.loads (fun _ => none) () cputsFrame.rbx.toNat 256) = [] := by
      unfold Spaces.loads Spaces.loadAny
      split
      · rfl
      next h => exact absurd h (by simp [emptySpaces])
    unfold copyin
    rw [hv]
    simp only [hl]
    rfl
  unfold Copier.faults
  simp only [cputsProc, procAlloc, hc]

theorem copy_fault_blamed_own : Calling (cputsKernel 0x1000) (Pid.root.child 0)
      cputsProc 0x1000 cputsFrame ∧
    Blamed 1 .cputs () (Pid.root.child 0) 0x1000 cputsFrame (cputsKernel 0x1000).sys
      (Trapframe.trapped (fun _ => 0) tPgflt 4) .idle (cputsKernel 0x1000) := by
  refine ⟨cputsKernel_calling _,
    (copy_fault_blamed_iff (cputsKernel_calling _) (cputsKernel_faults _)).2 ?_⟩
  exact ⟨rfl, rfl, by decide, by decide, fun h => absurd h (by decide)⟩

/-- With `recoverdata` as `trap_check` leaves it, the caller's trap frame does not get to
`sysrecover`. -/
theorem copy_fault_null : Calling (cputsKernel 0) (Pid.root.child 0)
      cputsProc 0x1000 cputsFrame ∧
    Copier.faults emptySpaces (fun _ => none) .cputs (Pid.root.child 0)
      cputsProc cputsFrame (cputsKernel 0).sys = some (cputsKernel 0).sys ∧
    ¬ Blamed 1 .cputs () (Pid.root.child 0) 0x1000 cputsFrame (cputsKernel 0).sys
      (Trapframe.trapped (fun _ => 0) tPgflt 4) .idle (cputsKernel 0) := by
  refine ⟨cputsKernel_calling _, cputsKernel_faults _, fun h => ?_⟩
  have := h.own.2
  rw [beginCopy_eq (cputsKernel_calling 0)] at this
  exact absurd this (by decide)

end Determinator
