import Determinator.Kern.Machine
import Determinator.Kern.Space

/-!
# Saved registers stay unprivileged

The registers a process is resumed with name the user segments and carry no I/O privilege, as long
as no user copy of a system call faults: `do_put` copies registers straight into the save area of
the child and makes them safe only afterwards, and the recovery from a fault in a copy saves the
trap frame at address zero for that of the caller.

The events of other nodes are left out here, and so is user code that loads another stack segment
than its own: the processor lets it load any data segment of user privilege.
-/

set_option linter.unusedSectionVars false

namespace Determinator

/-! ## Trap frames -/

namespace Trapframe.Unprivileged

variable {tf tf' : Trapframe}

theorem congr (h : tf.Unprivileged) (hcs : tf' 22 = tf 22) (hss : tf' 25 = tf 25)
    (hfl : tf' 23 &&& flIOPL = tf 23 &&& flIOPL) : tf'.Unprivileged := by
  refine ⟨?_, ?_, ?_⟩
  · rw [Trapframe.cs, hcs]
    exact h.cs
  · rw [Trapframe.ss, hss]
    exact h.ss
  · rw [Trapframe.rflags, hfl]
    exact h.iopl

/-- Assignments to other words of the frame. -/
theorem update (h : tf.Unprivileged) (i : Fin 26) (w : BitVec 64)
    (hi : i ≠ 22 ∧ i ≠ 23 ∧ i ≠ 25) : Unprivileged (Function.update tf i w) := by
  refine h.congr ?_ ?_ ?_
  · rw [Function.update_of_ne hi.1.symm]
  · rw [Function.update_of_ne hi.2.2.symm]
  · rw [Function.update_of_ne hi.2.1.symm]

theorem setRflags (h : tf.Unprivileged) {w : BitVec 64}
    (hw : w &&& flIOPL = tf.rflags &&& flIOPL) : (tf.setRflags w).Unprivileged := by
  refine h.congr ?_ ?_ ?_
  · exact Function.update_of_ne (by decide) _ _
  · exact Function.update_of_ne (by decide) _ _
  · simpa [Trapframe.setRflags, Trapframe.rflags] using hw

theorem setTrapno (h : tf.Unprivileged) (n : BitVec 64) : (tf.setTrapno n).Unprivileged :=
  h.update 19 n (by decide)

theorem setErr (h : tf.Unprivileged) (e : BitVec 32) : (tf.setErr e).Unprivileged :=
  h.update 20 _ (by decide)

theorem setRip (h : tf.Unprivileged) (v : BitVec 64) : (tf.setRip v).Unprivileged :=
  h.update 21 v (by decide)

theorem trapped (h : tf.Unprivileged) (n : ℕ) (e : BitVec 32) : (tf.trapped n e).Unprivileged :=
  (h.update 19 _ (by decide)).update 20 _ (by decide)

/-- Single-stepping plays with the trap and interrupt flags only. -/
theorem stepFlags (w : BitVec 64) :
    (w &&& ~~~flTF ||| flIF) &&& flIOPL = w &&& flIOPL ∧
      ((w ||| flTF) &&& ~~~flIF) &&& flIOPL = w &&& flIOPL := by
  have h₁ : ~~~flTF &&& flIOPL = flIOPL ∧ flIF &&& flIOPL = 0 := by decide
  have h₂ : ~~~flIF &&& flIOPL = flIOPL ∧ flTF &&& flIOPL = 0 := by decide
  constructor
  · rw [BitVec.and_or_distrib_right, BitVec.and_assoc, h₁.1, h₁.2]
    exact BitVec.or_zero
  · rw [BitVec.and_assoc, h₂.1, BitVec.and_or_distrib_right, h₂.2]
    exact BitVec.or_zero

end Trapframe.Unprivileged

/-! ## Saved states -/

/-- Saved registers a process may be resumed with. -/
structure Procstate.Confined (sv : Procstate) : Prop where
  tf : sv.tf.Unprivileged
  det : sv.pff &&& pffNondet = 0

open Procstate (Confined)

theorem saveIcnt_confined {sv sv' : Procstate} {entry : Entry} (h : sv.Confined)
    (hs : saveIcnt sv entry = some sv') : sv'.Confined := by
  unfold saveIcnt at hs
  split at hs
  · exact Option.some.inj hs ▸ h
  · have hkeep : ∀ sv₁ : Procstate, sv₁.Confined →
        (if sv₁.icnt ≤ sv₁.imax then some sv₁ else none) = some sv' → sv'.Confined := by
      intro sv₁ h₁ hs₁
      split at hs₁
      · exact Option.some.inj hs₁ ▸ h₁
      · cases hs₁
    refine hkeep _ ?_ hs
    split
    · exact h
    · exact ⟨h.tf.setRflags (Trapframe.Unprivileged.stepFlags _).1, h.det⟩

/-- What `proc_save` saves. -/
theorem procSave_confined {sv sv' : Procstate} {tf : Trapframe} {entry : Entry}
    (h : sv.Confined) (htf : tf.Unprivileged) (hs : procSave sv tf entry = some sv') :
    sv'.Confined := by
  obtain ⟨hs, -⟩ := Option.filter_eq_some_iff.1 hs
  refine saveIcnt_confined ⟨?_, ?_⟩ hs
  · simp only
    split
    · exact htf.setRip _
    · exact htf
  · exact h.det

/-- The registers of a CPU. -/
def Mode.Confined : Mode → Prop
  | .user tf | .put tf _ | .get tf _ | .start tf _ | .ret tf _ => tf.Unprivileged
  | .sched | .wild => True

theorem procResume_confined {sv : Procstate} (h : sv.Confined) :
    (procResume sv).1.Confined ∧ (procResume sv).2.Confined := by
  unfold procResume
  split
  · exact ⟨h, h.tf⟩
  · split
    · exact ⟨⟨h.tf.setTrapno _, h.det⟩, h.tf.setTrapno _⟩
    · have hfl := (Trapframe.Unprivileged.stepFlags sv.tf.rflags).2
      exact ⟨⟨h.tf.setRflags hfl, h.det⟩, h.tf.setRflags hfl⟩

/-- What `do_put` makes of any registers. -/
theorem putSanitize_confined (ppff : BitVec 32) (hp : ppff &&& pffNondet = 0) (sv : Procstate) :
    (putSanitize ppff sv).Confined := by
  unfold putSanitize
  simp only [hp, if_true]
  refine ⟨⟨?_, ?_, ?_⟩, ?_⟩
  · change BitVec.setWidth 16 _ = segUserCs
    simp only [Trapframe.setRflags, Trapframe.setSeg, Function.update_of_ne,
      Function.update_self, ne_eq, Fin.reduceEq, not_false_eq_true]
    exact Trapframe.setSeg_low _ _
  · change BitVec.setWidth 16 _ = segUserDs
    simp only [Trapframe.setRflags, Trapframe.setSeg, Function.update_of_ne,
      Function.update_self, ne_eq, Fin.reduceEq, not_false_eq_true]
    exact Trapframe.setSeg_low _ _
  · simp only [Trapframe.setRflags, Trapframe.rflags, Function.update_self]
    exact Trapframe.flUser_iopl _
  · simp only [BitVec.and_assoc]
    have : ~~~pffNondet &&& pffNondet = 0 := by decide
    rw [this]
    simp

theorem freshSv_confined : freshSv.Confined := by
  refine ⟨⟨?_, ?_, ?_⟩, ?_⟩ <;> decide

theorem rootSv_confined (entry rsp : BitVec 64) : (rootSv entry rsp).Confined := by
  have h : freshSv.tf.rflags = 0 := rfl
  refine ⟨?_, freshSv_confined.det⟩
  unfold rootSv
  refine Trapframe.Unprivileged.setRflags ?_ ?_
  · exact (freshSv_confined.tf.setRip entry).update 24 rsp (by decide)
  · change (freshSv.tf.rflags ||| flIF) &&& flIOPL = freshSv.tf.rflags &&& flIOPL
    rw [h]
    decide

/-! ## The invariant -/

variable {Cpu μ : Type} [DecidableEq Cpu] {net : BitVec 8} {sp : Spaces μ}

/-- All registers, saved or not, are unprivileged. -/
structure Sys.Confined (s : Sys Cpu μ) : Prop where
  saved : ∀ p r, s.proc p = some r → r.sv.Confined
  mode : ∀ c, (s.cpu c).mode.Confined

namespace Sys.Confined

variable {s t : Sys Cpu μ} {c : Cpu} {p : Pid}

theorem halt (h : s.Confined) : s.halt.Confined := ⟨h.saved, h.mode⟩

theorem upd (h : s.Confined) {f : Proc Cpu μ → Proc Cpu μ}
    (hf : ∀ r, s.proc p = some r → r.sv.Confined → (f r).sv.Confined) : (s.upd p f).Confined := by
  refine ⟨?_, h.mode⟩
  intro q r hq
  by_cases hqp : q = p
  · subst hqp
    rw [Sys.upd_proc_self] at hq
    obtain ⟨r₀, hr₀, rfl⟩ := Option.map_eq_some_iff.1 hq
    exact hf r₀ hr₀ (h.saved q r₀ hr₀)
  · rw [Sys.upd_proc_ne _ hqp] at hq
    exact h.saved q r hq

theorem setMode (h : s.Confined) {m : Mode} (hm : m.Confined) : (s.setMode c m).Confined := by
  refine ⟨h.saved, ?_⟩
  intro d
  by_cases hdc : d = c
  · subst hdc
    simpa using hm
  · rw [Sys.setMode_cpu_ne _ hdc]
    exact h.mode d

theorem alloc (h : s.Confined) {r : Proc Cpu μ} (hr : r.sv.Confined) :
    Sys.Confined { s with proc := Function.update s.proc p (some r) } := by
  refine ⟨?_, h.mode⟩
  intro q r' hq
  by_cases hqp : q = p
  · subst hqp
    simp only [Function.update_self, Option.some.injEq] at hq
    exact hq ▸ hr
  · simp only [Function.update_of_ne hqp] at hq
    exact h.saved q r' hq

/-- Saving the registers of a process. -/
theorem save (h : s.Confined) {tf : Trapframe} (htf : tf.Unprivileged) {entry : Entry}
    {sv : Procstate} (hs : ((s.proc p).bind fun r => procSave r.sv tf entry) = some sv) :
    sv.Confined := by
  obtain ⟨r, hr, hsv⟩ := Option.bind_eq_some_iff.1 hs
  exact procSave_confined (h.saved p r hr) htf hsv

theorem procReady (h : s.Confined) : (procReady p s).Confined := by
  have h₁ : (s.upd p fun r => { r with state := .ready, readynext := none }).Confined :=
    h.upd fun _ _ hr => hr
  unfold Determinator.procReady
  simp only [Sys.upd_readytail]
  cases s.readytail with
  | head => exact ⟨h₁.saved, h₁.mode⟩
  | next q =>
    have h₂ := h₁.upd (p := q) (f := fun r => { r with readynext := some p }) fun _ _ hr => hr
    exact ⟨h₂.saved, h₂.mode⟩

theorem procRun (h : s.Confined) : (procRun c p s).Confined := by
  unfold Determinator.procRun
  split
  · exact h
  · rename_i r hr
    have hres := procResume_confined (h.saved p r hr)
    have h₁ : (s.upd p fun r => { r with
        state := .run, runcpu := some c, sv := (procResume r.sv).1 }).Confined :=
      h.upd fun r' _ hr' => (procResume_confined hr').1
    have h₂ : Sys.Confined { s.upd p fun r => { r with
        state := .run, runcpu := some c, sv := (procResume r.sv).1 } with
        cpu := Function.update s.cpu c ⟨some p, (procResume r.sv).2⟩ } := by
      refine ⟨h₁.saved, ?_⟩
      intro d
      by_cases hdc : d = c
      · subst hdc
        simpa using hres.2
      · simp only [Function.update_of_ne hdc]
        exact h.mode d
    simp only
    split
    · exact h₂.halt
    · exact h₂

theorem procSched (h : s.Confined) (ht : procSched c s = some t) : t.Confined := by
  obtain ⟨p, -, rfl⟩ := Option.map_eq_some_iff.1 ht
  refine procRun ?_
  unfold takeReady
  have h₁ : Sys.Confined { s with
      readyhead := (s.proc p).bind Proc.readynext
      readytail := if s.readytail = Link.next p then .head else s.readytail } :=
    ⟨h.saved, h.mode⟩
  exact h₁.upd fun _ _ hr => hr

theorem procWait (h : s.Confined) {cp : Pid} {tf : Trapframe} (htf : tf.Unprivileged) :
    (procWait c p cp tf s).Confined := by
  unfold Determinator.procWait
  split
  · exact h.halt
  · rename_i sv hs
    have h₁ : (s.upd p fun r => { r with
        state := .wait, runcpu := none, waitchild := some cp, sv := sv }).Confined :=
      h.upd fun _ _ _ => h.save htf hs
    exact h₁.setMode trivial

theorem netMigrate (h : s.Confined) {tf : Trapframe} (htf : tf.Unprivileged) (dst : BitVec 8)
    (entry : Entry) : (netMigrate net c p tf dst entry s).Confined := by
  unfold Determinator.netMigrate
  split
  · exact h.halt
  · rename_i sv hs
    split
    · have h₁ : (s.upd p fun r => { r with state := .migr, sv := sv }).Confined :=
        h.upd fun _ _ _ => h.save htf hs
      exact h₁.setMode trivial
    · exact h.halt

theorem fileIo (h : s.Confined) {tf : Trapframe} (htf : tf.Unprivileged) (io : Io μ) :
    (fileIo c p tf io s).Confined := by
  unfold Determinator.fileIo
  cases io with
  | done m =>
    have h₁ : (s.upd p fun r => { r with pml4 := m }).Confined := h.upd fun _ _ hr => hr
    exact h₁.setMode htf
  | exited => exact h.halt
  | idle =>
    simp only
    split
    · exact h.halt
    · rename_i sv hs
      have h₁ : (s.upd p fun r => { r with state := .stop, runcpu := none, sv := sv }).Confined :=
        h.upd fun _ _ _ => h.save htf hs
      exact h₁.setMode trivial

theorem procRet (h : s.Confined) {tf : Trapframe} (htf : tf.Unprivileged) (entry : Entry)
    (io : Io μ) : (procRet net c p tf entry io s).Confined := by
  unfold Determinator.procRet
  simp only
  split
  · exact h.netMigrate htf _ _
  · cases p.parent with
    | none =>
      simp only
      split
      · exact h.fileIo htf io
      · exact h.halt
    | some q =>
      simp only [stopChild]
      split
      · exact h.halt
      · rename_i sv hs
        have h₁ : (s.upd p fun r => { r with
            state := .stop, runcpu := none, sv := sv }).Confined :=
          h.upd fun _ _ _ => h.save htf hs
        split
        · exact procRun (h₁.upd fun _ _ hr => hr)
        · exact h₁.setMode trivial

end Sys.Confined

/-! ## User copies that go well -/

section

variable (sp : Spaces μ)

/-- A block that `checkva` lets pass can be read to its end. -/
def CanCopyin (km : KernMem) (m : μ) (uva : BitVec 64) (size : ℕ) : Prop :=
  checkva uva size = true → ∀ i < size, (sp.loadAny km m (uva.toNat + i)).isSome

/-- A block that `checkva` lets pass is in the user area, and can be written to its end. -/
def CanCopyout (m : μ) (uva : BitVec 64) (vs : List (BitVec 8)) : Prop :=
  checkva uva vs.length = true →
    inUserArea uva vs.length = true ∧ (sp.stores m uva.toNat vs).2 = true

variable {sp}

theorem loads_length {km : KernMem} {m : μ} : ∀ {size a : ℕ},
    (∀ i < size, (sp.loadAny km m (a + i)).isSome) → (sp.loads km m a size).length = size
  | 0, _, _ => rfl
  | size + 1, a, h => by
    obtain ⟨v, hv⟩ := Option.isSome_iff_exists.1 (h 0 (by omega))
    have hrest : ∀ i < size, (sp.loadAny km m (a + 1 + i)).isSome := fun i hi => by
      rw [show a + 1 + i = a + (i + 1) by omega]
      exact h (i + 1) (by omega)
    simp only [Nat.add_zero] at hv
    simp only [Spaces.loads, hv, List.length_cons, loads_length hrest]

theorem copyin_no_fault {km : KernMem} {m : μ} {uva : BitVec 64} {size : ℕ}
    (h : CanCopyin sp km m uva size) : copyin sp km m uva size = .refused ∨
      ∃ vs, copyin sp km m uva size = .done vs := by
  unfold copyin
  by_cases hc : checkva uva size = true
  · have hlen := loads_length (h hc)
    right
    simp [hc, hlen]
  · left
    simp [hc]

theorem copyout_no_fault {m : μ} {uva : BitVec 64} {vs : List (BitVec 8)}
    (h : CanCopyout sp m uva vs) : copyout sp m uva vs = .refused ∨
      ∃ m', copyout sp m uva vs = .done m' := by
  unfold copyout
  by_cases hc : checkva uva vs.length = true
  · obtain ⟨hu, hs⟩ := h hc
    right
    rcases hst : sp.stores m uva.toNat vs with ⟨m', b⟩
    rw [hst] at hs
    obtain rfl : b = true := hs
    simp [hc, hu]
  · left
    simp [hc]

end

/-- How a handler ends if its user copy does. -/
def End.Smooth : End → Prop
  | .fault | .wild => False
  | _ => True

theorem Body.ofCalls_smooth (sv : Procstate) (m : Map → μ) (cs : Calls) :
    (Body.ofCalls sp sv m cs).fin.Smooth := by
  unfold Body.ofCalls
  simp only
  split <;> trivial

/-- PUT leaves the child with registers it may run with. -/
theorem doPutBody_confined {km : KernMem} {tf : Trapframe} {ppff : BitVec 32} {csv : Procstate}
    {m : Map → μ} (hc : csv.Confined) (hp : ppff &&& pffNondet = 0)
    (hcopy : tf.cmd &&& sysRegs ≠ 0 → CanCopyin sp km (m .own) tf.rbx (regsLen tf.cmd)) :
    (doPutBody sp km tf ppff csv m).sv.Confined ∧
      (doPutBody sp km tf ppff csv m).fin.Smooth := by
  unfold doPutBody
  simp only
  split
  · exact ⟨hc, Body.ofCalls_smooth _ _ _⟩
  · rename_i hregs
    rcases copyin_no_fault (hcopy hregs) with e | ⟨vs, e⟩
    · rw [e]
      exact ⟨hc, trivial⟩
    · rw [e]
      exact ⟨putSanitize_confined ppff hp _, Body.ofCalls_smooth _ _ _⟩

theorem doGetBody_confined {tf : Trapframe} {csv : Procstate} {m : Map → μ}
    (hcopy : tf.cmd &&& sysRegs ≠ 0 →
      CanCopyout sp (m .own) tf.rbx ((List.range (regsLen tf.cmd)).map csv.byte)) :
    (doGetBody sp tf csv m).sv = csv ∧ (doGetBody sp tf csv m).fin.Smooth := by
  unfold doGetBody
  simp only
  split
  · exact ⟨rfl, Body.ofCalls_smooth _ _ _⟩
  · rename_i hregs
    split
    · exact ⟨rfl, trivial⟩
    · rcases copyout_no_fault (hcopy hregs) with e | ⟨o, e⟩
      · rw [e]
        exact ⟨rfl, trivial⟩
      · rw [e]
        exact ⟨rfl, Body.ofCalls_smooth _ _ _⟩

/-! ## The steps -/

/-- Steps whose user copies go well, of user code that keeps its stack segment, with no other node
interfering. -/
def CopiesOk (sp : Spaces μ) (s : Sys Cpu μ) : Event Cpu μ → Prop
  | .user c tf' _ _ => ∀ tf, (s.cpu c).mode = .user tf → tf'.ss = tf.ss
  | .syscall c _ _ km => ∀ p r tf, (s.cpu c).proc = some p → s.proc p = some r →
      (s.cpu c).mode = .user tf → tf.cmd &&& sysType = 0 → CanCopyin sp km r.pml4 tf.rbx 256
  | .body c _ km => ∀ p r, (s.cpu c).proc = some p → s.proc p = some r →
      (∀ tf cn, (s.cpu c).mode = .put tf cn → tf.cmd &&& sysRegs ≠ 0 →
        CanCopyin sp km r.pml4 tf.rbx (regsLen tf.cmd)) ∧
      (∀ tf cn, (s.cpu c).mode = .get tf cn → tf.cmd &&& sysRegs ≠ 0 →
        CanCopyout sp r.pml4 tf.rbx ((List.range (regsLen tf.cmd)).map
          ((s.proc (p.child cn)).elim .zero Proc.sv).byte))
  | .arrive _ _ | .newcomer _ _ _ => False
  | _ => True

namespace Sys.Confined

variable {s t : Sys Cpu μ} {c : Cpu} {p : Pid}

theorem finish (h : s.Confined) {tf : Trapframe} (htf : tf.Unprivileged) {next : Mode}
    (hn : next.Confined) (err : BitVec 32) {fin : End} (hf : fin.Smooth) :
    (finish c tf err next fin s).Confined := by
  cases fin with
  | done => exact h.setMode hn
  | systrap n => exact h.setMode ((htf.setTrapno _).setErr _)
  | fault => exact hf.elim
  | wild => exact h.setMode trivial
  | panic => exact h.halt

theorem doPutSync (h : s.Confined) {r : Proc Cpu μ} {tf : Trapframe} (htf : tf.Unprivileged) :
    (doPutSync net sp c p r tf s).Confined := by
  unfold Determinator.doPutSync
  simp only
  split
  · exact h.netMigrate htf _ _
  · split
    · have h₁ := h.alloc (p := p.child tf.childNo) (r := procAlloc net sp.fresh) freshSv_confined
      exact h₁.setMode htf
    · split
      · exact h.procWait htf
      · exact h.setMode htf

theorem doGetSync (h : s.Confined) {r : Proc Cpu μ} {tf : Trapframe} (htf : tf.Unprivileged) :
    (doGetSync net c p r tf s).Confined := by
  unfold Determinator.doGetSync
  simp only
  split
  · exact h.netMigrate htf _ _
  · split
    · exact h.setMode htf
    · split
      · exact h.procWait htf
      · exact h.setMode htf

theorem syscall (h : s.Confined) {r : Proc Cpu μ} {tf : Trapframe} (htf : tf.Unprivileged)
    (t : BitVec 64) (err : BitVec 32) {km : KernMem}
    (hcopy : tf.cmd &&& sysType = 0 → CanCopyin sp km r.pml4 tf.rbx 256) :
    (syscall net sp km c p r tf t err s).Confined := by
  unfold Determinator.syscall
  split
  · rename_i hty
    have hzero : tf.cmd &&& sysType = 0 := BitVec.eq_of_toNat_eq hty
    have hmode : (Mode.user tf).Confined := htf
    unfold doCputs
    refine h.finish htf hmode err ?_
    rcases copyin_no_fault (hcopy hzero) with e | ⟨vs, e⟩ <;> rw [e] <;> trivial
  · exact h.doPutSync htf
  · exact h.doGetSync htf
  · exact h.setMode htf
  · exact h.setMode ((htf.update 15 _ (by decide)).update 18 _ (by decide))
  · exact h.setMode htf
  · exact h.setMode htf

theorem doPut (h : s.Confined) {cn : Fin 256} {tf : Trapframe} (htf : tf.Unprivileged)
    (err : BitVec 32) {km : KernMem}
    (hcopy : ∀ r, s.proc p = some r → tf.cmd &&& sysRegs ≠ 0 →
      CanCopyin sp km r.pml4 tf.rbx (regsLen tf.cmd)) :
    (doPut sp km c p tf cn err s).Confined := by
  unfold Determinator.doPut
  split
  · rename_i r q hr hq
    have hbody := doPutBody_confined (m := mapsOf sp r (some q)) (h.saved _ q hq)
      (h.saved p r hr).det (hcopy r hr)
    simp only
    set b := doPutBody sp km tf r.sv.pff q.sv (mapsOf sp r (some q)) with hb
    have h₁ : (s.upd p fun r => { r with pml4 := b.maps .own }).Confined := h.upd fun _ _ hr => hr
    have h₂ : ((s.upd p fun r => { r with pml4 := b.maps .own }).upd (p.child cn) fun q =>
        { q with sv := b.sv, pml4 := b.maps .kid, rpml4 := b.maps .ref }).Confined :=
      h₁.upd fun _ _ _ => hbody.1
    refine h₂.finish htf ?_ err hbody.2
    split <;> exact htf
  · exact h

theorem doGet (h : s.Confined) {cn : Fin 256} {tf : Trapframe} (htf : tf.Unprivileged)
    (err : BitVec 32)
    (hcopy : ∀ r, s.proc p = some r → tf.cmd &&& sysRegs ≠ 0 →
      CanCopyout sp r.pml4 tf.rbx ((List.range (regsLen tf.cmd)).map
        ((s.proc (p.child cn)).elim .zero Proc.sv).byte)) :
    (doGet sp c p tf cn err s).Confined := by
  unfold Determinator.doGet
  split
  · rename_i r hr
    have hbody := doGetBody_confined (m := mapsOf sp r (s.proc (p.child cn))) (hcopy r hr)
    simp only
    set b := doGetBody sp tf ((s.proc (p.child cn)).elim .zero Proc.sv)
      (mapsOf sp r (s.proc (p.child cn))) with hb
    have h₁ : (s.upd p fun r => { r with pml4 := b.maps .own }).Confined := h.upd fun _ _ hr => hr
    have h₂ : ((s.upd p fun r => { r with pml4 := b.maps .own }).upd (p.child cn) fun q =>
        { q with sv := b.sv, pml4 := b.maps .kid, rpml4 := b.maps .ref }).Confined := by
      refine h₁.upd fun q hq hqc => ?_
      rw [Sys.upd_proc_ne _ (p.child_ne cn)] at hq
      change b.sv.Confined
      rw [hbody.1, hq]
      exact hqc
    have hmode : (Mode.user tf).Confined := htf
    exact h₂.finish htf hmode err hbody.2
  · exact h

theorem userStep (h : s.Confined) (hp : (s.cpu c).proc = some p) {r : Proc Cpu μ}
    (hr : s.proc p = some r) {tf : Trapframe} (hm : (s.cpu c).mode = .user tf)
    {e : Event Cpu μ} (he : e.cpu = some c) (hok : CopiesOk sp s e)
    (ht : userStep net sp c p r tf s e = some t) : t.Confined := by
  have htf : tf.Unprivileged := by
    have := h.mode c
    rw [hm] at this
    exact this
  cases e with
  | user d tf' fx' m' =>
    obtain rfl : d = c := Option.some.inj he
    simp only [Determinator.userStep] at ht
    split at ht
    · rename_i hcan
      obtain rfl := Option.some.inj ht
      have h₁ : (s.upd p fun r => { r with
          sv := { r.sv with fx := fx' }, pml4 := m' }).Confined :=
        h.upd fun _ _ hr => ⟨hr.tf, hr.det⟩
      refine h₁.setMode (m := .user tf') ?_
      -- the processor keeps the code segment and the I/O privilege
      have hring : tf.cs &&& 3 = 3 := by
        rw [htf.cs]
        decide
      simp only [userCan, hring, Bool.and_eq_true, Bool.or_eq_true, decide_eq_true_eq, ne_eq,
        not_true, false_or] at hcan
      exact ⟨hcan.1.1.trans htf.cs, (hok tf hm).trans htf.ss, hcan.1.2.trans htf.iopl⟩
    · cases ht
  | device d =>
    obtain rfl := Option.some.inj ht
    refine h.upd fun r _ hr => ⟨hr.tf, ?_⟩
    have hfl : pffUseFpu &&& pffNondet = 0 := by decide
    change (r.sv.pff ||| pffUseFpu) &&& pffNondet = 0
    rw [BitVec.and_or_distrib_right, hr.det, hfl]
    decide
  | syscall d t' err km =>
    obtain rfl : d = c := Option.some.inj he
    obtain rfl := Option.some.inj ht
    split
    · exact h.halt
    · refine h.syscall ((htf.setRip _).trapped _ _) t' err ?_
      exact hok p r tf hp hr hm
  | trap d n err =>
    simp only [Determinator.userStep] at ht
    split at ht
    · cases ht
    · obtain rfl := Option.some.inj ht
      split
      · exact h.halt
      · exact h.setMode (htf.trapped n err)
  | debug d =>
    simp only [Determinator.userStep] at ht
    split at ht
    · obtain rfl := Option.some.inj ht
      exact h.halt
    · obtain rfl := Option.some.inj ht
      have h₁ : (s.upd p fun q => { q with
          sv := { q.sv with icnt := r.sv.icnt + 1 } }).Confined :=
        h.upd fun _ _ hr => ⟨hr.tf, hr.det⟩
      split
      · exact h₁.setMode (htf.trapped _ _)
      · exact h₁.setMode ((htf.trapped _ _).setTrapno _)
  | _ => cases ht

theorem cpuStep (h : s.Confined) (hp : (s.cpu c).proc = some p) {r : Proc Cpu μ}
    (hr : s.proc p = some r) {e : Event Cpu μ} (he : e.cpu = some c) (hok : CopiesOk sp s e)
    (ht : cpuStep net sp c p r s e = some t) : t.Confined := by
  have hmode := h.mode c
  unfold Determinator.cpuStep at ht
  split at ht
  · rename_i tf _ hm
    exact h.userStep hp hr hm he hok ht
  · rename_i tf cn d err km hm
    obtain rfl : d = c := Option.some.inj he
    obtain rfl := Option.some.inj ht
    rw [hm] at hmode
    refine h.doPut hmode err fun r' hr' => ?_
    exact (hok p r' hp hr').1 tf cn hm
  · rename_i tf cn d err km hm
    obtain rfl : d = c := Option.some.inj he
    obtain rfl := Option.some.inj ht
    rw [hm] at hmode
    refine h.doGet hmode err fun r' hr' => ?_
    exact (hok p r' hp hr').2 tf cn hm
  · rename_i tf cn d hm
    obtain rfl := Option.some.inj ht
    rw [hm] at hmode
    exact h.procReady.setMode hmode
  · rename_i tf entry d io hm
    obtain rfl := Option.some.inj ht
    rw [hm] at hmode
    exact h.procRet hmode entry io
  · cases ht

theorem netStep (h : s.Confined) {e : Event Cpu μ} (hok : CopiesOk sp s e)
    (ht : netStep net sp s e = some t) : t.Confined := by
  cases e with
  | wakeroot =>
    obtain rfl := Option.some.inj ht
    unfold fileWakeroot
    split
    · exact h.procReady
    · exact h
  | migrated p =>
    simp only [Determinator.netStep] at ht
    split at ht
    · obtain rfl := Option.some.inj ht
      exact h.upd fun _ _ hr => hr
    · cases ht
  | pulled p m =>
    simp only [Determinator.netStep] at ht
    split at ht
    · obtain rfl := Option.some.inj ht
      refine procReady ?_
      exact h.upd fun _ _ hr => hr
    · cases ht
  | arrive => exact hok.elim
  | newcomer => exact hok.elim
  | _ => cases ht

/-- A step whose user copies go well keeps all registers unprivileged. -/
theorem step (h : s.Confined) {e : Event Cpu μ} (hok : CopiesOk sp s e)
    (ht : step net sp s e = some t) : t.Confined := by
  unfold Determinator.step at ht
  split at ht
  · cases ht
  · split at ht
    · split at ht
      · exact h.procSched ht
      · cases ht
    · rename_i c _ he
      obtain ⟨pr, hpr, ht⟩ := Option.bind_eq_some_iff.1 ht
      obtain ⟨p, hp, hpr⟩ := Option.bind_eq_some_iff.1 hpr
      obtain ⟨r, hr, rfl⟩ := Option.map_eq_some_iff.1 hpr
      exact h.cpuStep hp hr he hok ht
    · exact h.netStep hok ht

end Sys.Confined

/-! ## Whole runs -/

theorem initSys_confined (boot : Cpu) (entry rsp : BitVec 64) (m : μ) (low : Trapframe) :
    (initSys net sp boot (rootSv entry rsp) m low).Confined := by
  refine Sys.Confined.procReady ⟨?_, fun _ => trivial⟩
  intro p r hp
  by_cases h : p = .root
  · simp only [h, if_true, Option.some.injEq] at hp
    rw [← hp]
    exact rootSv_confined entry rsp
  · simp [h] at hp

/-- **Saved registers stay unprivileged** in every run whose user copies go well: every process,
running or not, has user segments and no I/O privilege in its saved trap frame, and is
nondeterministic only if its parent is. -/
theorem saved_unprivileged {boot : Cpu} {entry rsp : BitVec 64} {m : μ} {low : Trapframe}
    {es : List (Event Cpu μ)} {s : Sys Cpu μ}
    (hr : Run net sp (CopiesOk sp) (initSys net sp boot (rootSv entry rsp) m low) es s) {p : Pid}
    {r : Proc Cpu μ} (hp : s.proc p = some r) :
    r.sv.tf.cs = segUserCs ∧ r.sv.tf.ss = segUserDs ∧ r.sv.tf.rflags &&& flIOPL = 0 ∧
      (r.sv.pff &&& pffNondet ≠ 0 → ∃ q r', p.parent = some q ∧ s.proc q = some r' ∧
        r'.sv.pff &&& pffNondet ≠ 0) := by
  have h : s.Confined :=
    hr.invariant (fun _ _ _ hI hok ht => hI.step hok ht) (initSys_confined boot entry rsp m low)
  obtain ⟨htf, hdet⟩ := h.saved p r hp
  exact ⟨htf.cs, htf.ss, htf.iopl, fun hn => absurd hdet hn⟩

/-- The command in the registers of user code. -/
def Mode.cmd : Mode → BitVec 32
  | .user tf => tf.cmd
  | _ => 0

/-- A child created by a PUT of the root process. -/
theorem saved_unprivileged_first_child :
    let km : KernMem := fun _ => none
    let tf := (rootSv 0x40000000 0x800000000000).tf.withArgs 1 0 0 0 0 0
    ∃ s r, Run 1 flat (CopiesOk flat)
        (initSys 1 flat true (rootSv 0x40000000 0x800000000000) flat.fresh fun _ => 0)
        [.sched true, .user true tf freshSv.fx flat.fresh, .syscall true 0 0 km] s ∧
      s.proc ⟨0, [0]⟩ = some r ∧ r.sv.tf.cs = segUserCs := by
  intro km tf
  have hsome : ((steps 1 flat
      (initSys 1 flat true (rootSv 0x40000000 0x800000000000) flat.fresh fun _ => 0)
      [.sched true, .user true tf freshSv.fx flat.fresh, .syscall true 0 0 km]).bind
      fun s => s.proc ⟨0, [0]⟩).isSome = true := by decide +kernel
  obtain ⟨r, hr⟩ := Option.isSome_iff_exists.1 hsome
  obtain ⟨s, hs, hr⟩ := Option.bind_eq_some_iff.1 hr
  obtain ⟨s₁, h₁, hs⟩ := Option.bind_eq_some_iff.1 hs
  obtain ⟨s₂, h₂, hs⟩ := Option.bind_eq_some_iff.1 hs
  obtain ⟨s₃, h₃, hs⟩ := Option.bind_eq_some_iff.1 hs
  obtain rfl := Option.some.inj hs
  have hm₁ : (s₁.cpu true).mode = .user (rootSv 0x40000000 0x800000000000).tf :=
    Option.some.inj h₁ ▸ rfl
  have hcmd : ((steps 1 flat
      (initSys 1 flat true (rootSv 0x40000000 0x800000000000) flat.fresh fun _ => 0)
      [.sched true, .user true tf freshSv.fx flat.fresh]).map fun s =>
        (s.cpu true).mode.cmd) = some 1 := by decide +kernel
  simp only [steps, h₁, h₂, Option.bind_some, Option.map_some, Option.some.injEq] at hcmd
  have hrun : Run 1 flat (CopiesOk flat)
      (initSys 1 flat true (rootSv 0x40000000 0x800000000000) flat.fresh fun _ => 0)
      [.sched true, .user true tf freshSv.fx flat.fresh, .syscall true 0 0 km] s₃ := by
    refine Run.cons trivial h₁ (Run.cons ?_ h₂ (Run.cons ?_ h₃ .nil))
    · intro tf' h
      obtain rfl := Mode.user.inj (hm₁.symm.trans h)
      decide
    · intro p r tf' _ _ h hty
      rw [h] at hcmd
      rw [show tf'.cmd = 1 from hcmd] at hty
      exact absurd hty (by decide)
  exact ⟨s₃, r, hrun, hr, (saved_unprivileged hrun hr).1⟩

/-! ## A copy that faults -/

/-- The memory of a root process whose first page ends in a selector of the kernel; the next page
is not mapped. -/
def faultMem : Flat := fun n =>
  if n = 0x40000 then ⟨0x600, fun i => if i = 4092 then 0x30 else 0⟩ else Flat.unmapped

/-- The root process copies the page to its child `0`, starts it and waits for it; the child does
a PUT with a register block that runs over the end of the page. -/
def faultRun : List (Event Bool Flat) :=
  let root := (rootSv 0x40000000 0x800000000000).tf
  let kidMem := flat.copy faultMem 0x40000000 flat.fresh 0x40000000 4096
  let km : KernMem := fun _ => none
  [.sched true,
   .user true (root.withArgs 0x20011 0 4096 0 0x40000000 0x40000000) freshSv.fx faultMem,
   .syscall true 0 0 km, .body true 0 km, .start true,
   .user true (root.withArgs 2 0 0 0 0 0) freshSv.fx faultMem,
   .syscall true 0 0 km, .sched true,
   .user true (freshSv.tf.withArgs 0x1001 0x40000f4c 0 0 0 0) freshSv.fx kidMem,
   .syscall true 0 0 km, .body true 0 km]

/-- The copy faults after 180 bytes, and leaves the stopped grandchild with a code segment of the
kernel. -/
theorem put_fault_leaves_kernel_cs : ∃ s, Run 1 flat anyStep
      (initSys 1 flat true (rootSv 0x40000000 0x800000000000) faultMem fun _ => 0) faultRun s ∧
    ∃ r, s.proc ⟨0, [0, 0]⟩ = some r ∧ r.state = .stop ∧ r.sv.tf.cs = 0x30 := by
  have h : ((steps 1 flat
      (initSys 1 flat true (rootSv 0x40000000 0x800000000000) faultMem fun _ => 0) faultRun).bind
      fun s => (s.proc ⟨0, [0, 0]⟩).map fun r => (r.state, r.sv.tf.cs)) = some (.stop, 0x30) := by
    decide +kernel
  obtain ⟨s, hs, hr⟩ := Option.bind_eq_some_iff.1 h
  obtain ⟨r, hr, he⟩ := Option.map_eq_some_iff.1 hr
  obtain ⟨hst, hcs⟩ := Prod.mk.inj he
  exact ⟨s, run_of_steps hs, r, hr, hst, hcs⟩

end Determinator
