import Determinator.Proc.Tree
import Determinator.Proc.Rendezvous

/-!
# Determinism

The machine, with its CPUs, its queue and its waiting processes, carries out the process tree of
`Proc.Tree`: `Sys.tree` reads the tree off a state of the machine, and each step of the machine is
a step of the tree, two of them, or none. What the scheduler decides is which of the steps comes
next. As the steps of the tree are independent, two schedules cannot tell the root process
different things.

A system call that comes too early is rolled back and made again, so the number of kernel entries
does depend on the schedule; `settled` leaves the entries out that end in a wait.
-/

set_option linter.unusedSectionVars false

namespace Determinator

variable {Cpu μ : Type} [DecidableEq Cpu] {net : BitVec 8} {sp : Spaces μ} {usr : User μ}

/-! ## The tree of a state -/

/-- What a process is doing, on a CPU in this mode. -/
def Mode.phase : Mode → Phase
  | .user tf => .user tf.regs
  | .put tf cn => .put tf cn
  | .get tf cn => .get tf cn
  | .start tf cn => .start tf cn
  | .ret tf entry => .ret tf entry
  | .sched => .stopped
  | .wild => .stopped

/-- The process as the tree sees it. Waiting and ready processes are about to run user code. -/
def Proc.node (cpu : Cpu → CpuState) (r : Proc Cpu μ) : Node μ :=
  match r.state with
  | .stop => ⟨r.home, .stopped, r.sv, r.pml4, r.rpml4⟩
  | .run =>
    ⟨r.home, r.runcpu.elim .stopped fun c => (cpu c).mode.phase, r.sv.noTf, r.pml4, r.rpml4⟩
  | _ => ⟨r.home, .user r.sv.tf.regs, r.sv.noTf, r.pml4, r.rpml4⟩

/-- The process without its links. -/
def Proc.unlinked (r : Proc Cpu μ) : Proc Cpu μ := { r with readynext := none, waitchild := none }

namespace Sys

/-- The process tree of a state. -/
def tree (s : Sys Cpu μ) : Tree μ := fun p => (s.proc p).map (Proc.node s.cpu)

/-- The processes of a state, without their links. -/
def bare (s : Sys Cpu μ) (p : Pid) : Option (Proc Cpu μ) := (s.proc p).map Proc.unlinked

variable {s t : Sys Cpu μ} {c : Cpu} {p q : Pid} {r : Proc Cpu μ}

theorem tree_eq_bare (s : Sys Cpu μ) (p : Pid) : s.tree p = (s.bare p).map (Proc.node s.cpu) := by
  simp only [tree, bare, Option.map_map]
  rfl

/-- A process that is not touched, and is not on the CPU that is, stays the same. -/
theorem tree_frame (h : Inv none none s) (hcpu : ∀ d, d ≠ c → t.cpu d = s.cpu d)
    (hc : (s.cpu c).mode.isSched = true ∨ (s.cpu c).proc ≠ some q)
    (hq : t.bare q = s.bare q) : t.tree q = s.tree q := by
  rw [tree_eq_bare, tree_eq_bare, hq]
  cases hs : s.proc q with
  | none => simp [bare, hs]
  | some r =>
    simp only [bare, hs, Option.map_some, Option.some.injEq]
    unfold Proc.node
    cases hst : r.unlinked.state with
    | run =>
      obtain ⟨d, hd, hdq, -, hds⟩ := h.run q r.view (by simp [view, hs]) hst
      have hdc : d ≠ c := by
        rintro rfl
        rcases hc with hc | hc
        · rw [hds] at hc
          cases hc
        · exact hc hdq
      have hd' : r.unlinked.runcpu = some d := hd
      simp only [hd', Option.elim_some, hcpu d hdc]
    | _ => rfl

theorem tree_running (hp : s.proc p = some r) (hs : r.state = .run) (hc : r.runcpu = some c) :
    s.tree p = some ⟨r.home, (s.cpu c).mode.phase, r.sv.noTf, r.pml4, r.rpml4⟩ := by
  simp [tree, hp, Proc.node, hs, hc]

theorem tree_stopped (hp : s.proc p = some r) (hs : r.state = .stop) :
    s.tree p = some ⟨r.home, .stopped, r.sv, r.pml4, r.rpml4⟩ := by
  simp [tree, hp, Proc.node, hs]

theorem tree_resting (hp : s.proc p = some r) (hs : r.state = .ready ∨ r.state = .wait) :
    s.tree p = some ⟨r.home, .user r.sv.tf.regs, r.sv.noTf, r.pml4, r.rpml4⟩ := by
  rcases hs with hs | hs <;> simp [tree, hp, Proc.node, hs]

/-- The current process of a CPU runs on it. -/
theorem current_runs (h : Inv none none s) (hb : (s.cpu c).mode.isSched = false)
    (hc : (s.cpu c).proc = some p) (hp : s.proc p = some r) :
    r.state = .run ∧ r.runcpu = some c := by
  obtain ⟨p', v, hp', hv, hs, hr⟩ := h.busy c (by simp) hb
  obtain rfl : p = p' := Option.some.inj (hc.symm.trans hp')
  obtain rfl : r.view = v := by simpa [view, hp] using hv
  exact ⟨hs, hr⟩

/-- A process that can be met is stopped or missing, and the other way round. -/
theorem tree_idle (hx : ∀ r, s.proc q = some r → r.state = .stop) : Node.Idle (s.tree q) := by
  cases hq : s.proc q with
  | none => simp [tree, hq, Node.Idle]
  | some r =>
    rw [tree_stopped hq (hx r hq)]
    rfl

end Sys

/-! ## Frames -/

namespace Trapframe

variable (tf : Trapframe)

theorem regs_trapped (n : ℕ) (err : BitVec 32) : tf.regs.trapped n err = tf.trapped n err := by
  unfold regs trapped
  ext i : 1
  by_cases h : i = 20
  · subst h
    simp
  · by_cases h' : i = 19
    · subst h'
      simp
    · simp [h, h']

theorem regs_intSyscall : tf.regs.intSyscall = tf.intSyscall := by
  unfold intSyscall regs trapped setRip rip
  ext i : 1
  by_cases h : i = 20
  · subst h
    simp
  · by_cases h' : i = 19
    · subst h'
      simp
    · by_cases h'' : i = 21
      · subst h''
        simp
      · simp [h, h', h'']

/-- A system call that is rolled back leaves the registers as they were. -/
theorem rollback_regs : (tf.intSyscall.setRip (tf.intSyscall.rip - 2)).regs = tf.regs := by
  unfold intSyscall regs trapped setRip rip
  ext i : 1
  by_cases h : i = 20
  · subst h
    simp
  · by_cases h' : i = 19
    · subst h'
      simp
    · by_cases h'' : i = 21
      · subst h''
        simp only [Function.update_self, Function.update_of_ne h, Function.update_of_ne h']
        exact BitVec.add_sub_cancel _ _
      · simp [h, h', h'']

theorem low_and_not (a : BitVec 32) : a.setWidth 64 &&& ~~~(0xffffffff : BitVec 64) = 0 := by
  have h : (0xffffffff : BitVec 64) = (BitVec.allOnes 32).setWidth 64 := by decide
  rw [h]
  ext i hi
  by_cases hi' : i < 32
  · simp [hi', -BitVec.reduceNot, -BitVec.reduceSetWidth, -BitVec.reduceAllOnes]
  · simp [BitVec.getLsbD_of_ge a i (by omega)]

/-- A second fault leaves nothing of the first one in the frame. -/
theorem setErr_again (n : BitVec 64) (a b : BitVec 32) :
    (((tf.setTrapno n).setErr a).setTrapno n).setErr b = (tf.setTrapno n).setErr b := by
  unfold setTrapno setErr
  ext i : 1
  by_cases h : i = 20
  · subst h
    simp only [Function.update_self, Function.update_of_ne (by decide : (20 : Fin 26) ≠ 19)]
    rw [BitVec.and_or_distrib_right, low_and_not, BitVec.and_assoc, BitVec.and_self]
    simp
  · by_cases h' : i = 19
    · subst h'
      simp
    · simp [h, h']

end Trapframe

/-! ## Schedules -/

namespace Sys

variable (usr)

/-- What user code does next on a CPU. -/
def userOp (s : Sys Cpu μ) (c : Cpu) : Option (UserOp μ) :=
  (s.current c).bind fun pr =>
    match (s.cpu c).mode with
    | .user tf => some (usr.op tf.regs pr.2.sv.fx (pr.2.sv.pff &&& pffUseFpu ≠ 0) pr.2.pml4)
    | _ => none

/-- What is seen of the root process, if it is the one on CPU `c` that enters the kernel. -/
def seenAt (s : Sys Cpu μ) (c : Cpu) (f : Trapframe → Trapframe) : List (Seen μ) :=
  match s.current c, (s.cpu c).mode with
  | some (p, r), .user tf => if p = .root then [⟨f tf, r.sv.fx, r.pml4⟩] else []
  | _, _ => []

end Sys

/-- The kernel entries of the root process. -/
def entries (s : Sys Cpu μ) : Event Cpu μ → List (Seen μ)
  | .device c => s.seenAt c fun tf => tf.trapped tDevice 0
  | .syscall c _ _ _ => s.seenAt c Trapframe.intSyscall
  | .trap c n err => s.seenAt c fun tf => tf.trapped n err
  | .debug c => s.seenAt c fun tf => tf.trapped tDebug 0
  | _ => []

/-- The kernel entries of the root process that are not rolled back: those that do not leave it
waiting. -/
def settled (s : Sys Cpu μ) (e : Event Cpu μ) (t : Sys Cpu μ) : List (Seen μ) :=
  if (t.proc .root).map Proc.state = some .wait then [] else entries s e

/-- A system call other than CPUTS, TIME and NCPU, that stays on the node. -/
def callOk (net : BitVec 8) (tf : Trapframe) : Prop :=
  tf.callType ≠ 0 ∧ tf.callType ≠ 4 ∧ tf.callType ≠ 5 ∧
    (tf.callType = 1 ∨ tf.callType = 2 → targetNode net tf = net)

/-- The block of registers of a PUT or GET is in the user area, if `checkva` lets it pass. -/
def blockOk (tf : Trapframe) : Prop :=
  tf.cmd &&& sysRegs ≠ 0 → checkva tf.rbx (regsLen tf.cmd) = true →
    inUserArea tf.rbx (regsLen tf.cmd) = true

/-- The PUT of a CPU sets no instruction limit. -/
def limitOk (sp : Spaces μ) (km : KernMem) (s : Sys Cpu μ) (p : Pid) (r : Proc Cpu μ)
    (tf : Trapframe) (cn : Fin 256) : Prop :=
  ∀ q, s.proc (p.child cn) = some q →
    (doPutBody sp km tf r.sv.pff q.sv (mapsOf sp r (some q))).sv.pff &&& pffIcnt = 0

/-- Steps with user code `usr` and none of the things that bring nondeterminism in. -/
def Tame (net : BitVec 8) (sp : Spaces μ) (usr : User μ) (s : Sys Cpu μ) : Event Cpu μ → Prop
  | .user c tf fx m => s.userOp usr c = some (.run tf fx m)
  | .device c => s.userOp usr c = some .device
  | .syscall c _ _ _ => s.userOp usr c = some .syscall ∧
      ∀ tf, (s.cpu c).mode = .user tf → callOk net tf.intSyscall
  | .trap c n err => s.userOp usr c = some (.trap n err)
  | .debug c => s.userOp usr c = some .debug
  | .body c err km => ∀ p r, s.current c = some (p, r) →
      (∀ tf cn, (s.cpu c).mode = .put tf cn →
        blockOk tf ∧ err = usr.err tf r.pml4 ∧ limitOk sp km s p r tf cn) ∧
      (∀ tf cn, (s.cpu c).mode = .get tf cn → blockOk tf ∧ err = usr.err tf r.pml4)
  | .start _ => True
  | .ret c _ => ∀ p tf entry, (s.cpu c).proc = some p → p.parent = none →
      (s.cpu c).mode = .ret tf entry → ¬(tf.trapno = .ofNat 64 tSyscall ∧ entry = .complete)
  | .sched _ => True
  | _ => False

/-- The ready queue in another order. -/
structure Shuffled (s t : Sys Cpu μ) : Prop where
  bare : t.bare = s.bare
  waits : ∀ p, (t.proc p).map Proc.waitchild = (s.proc p).map Proc.waitchild
  queue : ∃ l l', s.thread.Holds l ∧ t.thread.Holds l' ∧ l'.Perm l
  cpu : t.cpu = s.cpu
  low : t.low = s.low
  halted : t.halted = s.halted

/-- Schedules, with what they record of the kernel entries. -/
inductive Schedule (net : BitVec 8) (sp : Spaces μ) (usr : User μ)
    (obs : Sys Cpu μ → Event Cpu μ → Sys Cpu μ → List (Seen μ)) (s : Sys Cpu μ) :
    List (Seen μ) → Sys Cpu μ → Prop
  | nil : Schedule net sp usr obs s [] s
  | step {l : List (Seen μ)} {t u : Sys Cpu μ} {e : Event Cpu μ} :
      Schedule net sp usr obs s l t → Tame net sp usr t e → step net sp t e = some u →
      Schedule net sp usr obs s (l ++ obs t e u) u
  | shuffle {l : List (Seen μ)} {t u : Sys Cpu μ} :
      Schedule net sp usr obs s l t → Shuffled t u → Schedule net sp usr obs s l u

/-! ## Steps of the machine as steps of the tree -/

/-- The frame at address zero is `low`, but for what the faults leave there. -/
def Sys.LowIs (low : Trapframe) (s : Sys Cpu μ) : Prop :=
  ∀ err, (s.low.setTrapno (.ofNat 64 tPgflt)).setErr err
    = (low.setTrapno (.ofNat 64 tPgflt)).setErr err

/-- The step of the machine is a run of the tree with the same record; if the machine halts, the
tree need not keep up with it. -/
def Matches (net : BitVec 8) (sp : Spaces μ) (usr : User μ) (low : Trapframe) (s : Sys Cpu μ)
    (e : Event Cpu μ) (t : Sys Cpu μ) : Prop :=
  ∃ A, (treeAgents net sp usr low).Run s.tree (settled s e t) A ∧
    (t.halted = false → A = t.tree ∧ t.LowIs low)

section

variable {low : Trapframe} {s t : Sys Cpu μ} {c : Cpu} {p : Pid} {r : Proc Cpu μ}
  {e : Event Cpu μ} {l : List (Seen μ)}

theorem tree_run_one {A B : Tree μ} (hf : treeFire net sp usr low p A = some B) :
    (treeAgents net sp usr low).Run A ((treeAgents net sp usr low).out p A) B := by
  simpa using Agents.Run.snoc (g := treeAgents net sp usr low) .nil hf

/-- The node of the current process of a CPU. -/
def Proc.onCpu (r : Proc Cpu μ) (ph : Phase) : Node μ := ⟨r.home, ph, r.sv.noTf, r.pml4, r.rpml4⟩

/-- The situation a CPU is in when it takes a step with its current process. -/
structure OnCpu (s : Sys Cpu μ) (c : Cpu) (p : Pid) (r : Proc Cpu μ) : Prop where
  inv : Inv none none s
  busy : (s.cpu c).mode.isSched = false
  current : (s.cpu c).proc = some p
  proc : s.proc p = some r

namespace OnCpu

variable (h : OnCpu s c p r)

theorem run (h : OnCpu s c p r) : r.state = .run := (Sys.current_runs h.1 h.2 h.3 h.4).1

theorem runcpu (h : OnCpu s c p r) : r.runcpu = some c := (Sys.current_runs h.1 h.2 h.3 h.4).2

theorem node (h : OnCpu s c p r) : s.tree p = some (r.onCpu (s.cpu c).mode.phase) :=
  Sys.tree_running h.proc h.run h.runcpu

theorem sysCurrent (h : OnCpu s c p r) : s.current c = some (p, r) := by
  simp [Sys.current, h.current, h.proc]

/-- The other processes stay as they are. -/
theorem frame {q : Pid} (h : OnCpu s c p r) (hq : q ≠ p)
    (hcpu : ∀ d, d ≠ c → t.cpu d = s.cpu d) (hb : t.bare q = s.bare q) : t.tree q = s.tree q := by
  refine Sys.tree_frame h.inv hcpu (.inr ?_) hb
  rw [h.current]
  exact fun e => hq (Option.some.inj e).symm

/-- A step that changes only the current process. -/
theorem tree_own (h : OnCpu s c p r) (hcpu : ∀ d, d ≠ c → t.cpu d = s.cpu d)
    (hb : ∀ q, q ≠ p → t.bare q = s.bare q) : t.tree = Function.update s.tree p (t.tree p) := by
  funext q
  by_cases hq : q = p
  · subst hq
    simp
  · rw [Function.update_of_ne hq]
    exact h.frame hq hcpu (hb q hq)

/-- A step that changes the current process and one of its children. -/
theorem tree_pair (h : OnCpu s c p r) (cn : Fin 256) (hcpu : ∀ d, d ≠ c → t.cpu d = s.cpu d)
    (hb : ∀ q, q ≠ p → q ≠ p.child cn → t.bare q = s.bare q) :
    t.tree = Function.update (Function.update s.tree p (t.tree p)) (p.child cn)
      (t.tree (p.child cn)) := by
  funext q
  by_cases hq : q = p.child cn
  · subst hq
    simp
  · rw [Function.update_of_ne hq]
    by_cases hq' : q = p
    · subst hq'
      simp
    · rw [Function.update_of_ne hq']
      exact h.frame hq' hcpu (hb q hq' hq)

/-- A step after which the process still runs on its CPU. -/
theorem tree_goOn (h : OnCpu s c p r) {f : Proc Cpu μ → Proc Cpu μ} {m : Mode}
    (hs : (f r).state = r.state) (hr : (f r).runcpu = r.runcpu) :
    ((s.upd p f).setMode c m).tree = Function.update s.tree p (some ((f r).onCpu m.phase)) := by
  rw [h.tree_own (t := (s.upd p f).setMode c m) (fun d hd => Sys.setMode_cpu_ne _ hd _)
    fun q hq => congrArg _ (Sys.upd_proc_ne s hq f)]
  have hp : ((s.upd p f).setMode c m).proc p = some (f r) := by
    change (s.upd p f).proc p = _
    simp [h.proc]
  rw [Sys.tree_running hp (hs.trans h.run) (hr.trans h.runcpu)]
  simp [Proc.onCpu]

theorem tree_setMode (h : OnCpu s c p r) (m : Mode) :
    (s.setMode c m).tree = Function.update s.tree p (some (r.onCpu m.phase)) := by
  rw [h.tree_own (t := s.setMode c m) (fun d hd => Sys.setMode_cpu_ne _ hd _) fun q _ => rfl]
  have hp : (s.setMode c m).proc p = some r := h.proc
  rw [Sys.tree_running hp h.run h.runcpu]
  simp [Proc.onCpu]

/-- What user code does next. -/
theorem userOp (h : OnCpu s c p r) {tf : Trapframe} (hm : (s.cpu c).mode = .user tf)
    {op : UserOp μ} (ho : s.userOp usr c = some op) :
    (r.onCpu (.user tf.regs)).op usr tf.regs = op := by
  simp only [Sys.userOp, h.sysCurrent, hm, Option.bind_some, Option.some.injEq] at ho
  exact ho

theorem out (h : OnCpu s c p r) {tf : Trapframe} (hm : (s.cpu c).mode = .user tf)
    {op : UserOp μ} (ho : s.userOp usr c = some op) :
    (treeAgents net sp usr low).out p s.tree
      = if p = .root then op.seen tf.regs r.sv.fx r.pml4 else [] := by
  have hn := h.node
  rw [hm] at hn
  simp only [treeAgents, hn, Option.elim_some]
  split
  · rw [← h.userOp hm ho]
    rfl
  · rfl

theorem seenAt (h : OnCpu s c p r) {tf : Trapframe} (hm : (s.cpu c).mode = .user tf)
    (f : Trapframe → Trapframe) :
    s.seenAt c f = if p = .root then [⟨f tf, r.sv.fx, r.pml4⟩] else [] := by
  simp [Sys.seenAt, h.sysCurrent, hm]

/-- An entry that is not rolled back counts. -/
theorem settled_eq (h : OnCpu s c p r) {f : Trapframe → Trapframe} (he : entries s e = s.seenAt c f)
    {tf : Trapframe} (hm : (s.cpu c).mode = .user tf)
    (hw : (t.proc p).map Proc.state ≠ some .wait) :
    settled s e t = if p = .root then [⟨f tf, r.sv.fx, r.pml4⟩] else [] := by
  unfold settled
  rw [he, h.seenAt hm]
  by_cases hp : p = .root
  · subst hp
    rw [if_neg hw]
  · simp [hp]

/-- The steps of user code. -/
theorem matches_perform (h : OnCpu s c p r) {tf : Trapframe} (hm : (s.cpu c).mode = .user tf)
    {op : UserOp μ} (ho : s.userOp usr c = some op) {n : Node μ}
    (hn : (r.onCpu (.user tf.regs)).perform tf.regs op = some n)
    (hout : (treeAgents net sp usr low).out p s.tree = settled s e t)
    (ht : t.halted = false → t.tree = Function.update s.tree p (some n) ∧ t.LowIs low) :
    Matches net sp usr low s e t := by
  have hnode := h.node
  rw [hm] at hnode
  have ha : (r.onCpu (.user tf.regs)).alone usr p.parent.isNone = some n := by
    rw [← hn, ← h.userOp hm ho]
    rfl
  refine ⟨_, hout ▸ tree_run_one (treeFire_alone hnode rfl ha), ?_⟩
  intro hh
  exact ⟨(ht hh).1.symm, (ht hh).2⟩

theorem matches_user (h : OnCpu s c p r) {tf tf' : Trapframe} {fx : Fin 64 → BitVec 64} {m : μ}
    (hm : (s.cpu c).mode = .user tf) (hl : s.LowIs low)
    (ho : s.userOp usr c = some (.run tf' fx m)) :
    Matches net sp usr low s (.user c tf' fx m)
      ((s.upd p fun r => { r with sv := { r.sv with fx := fx }, pml4 := m }).setMode c
        (.user tf')) := by
  refine h.matches_perform hm ho rfl ?_ fun _ => ⟨h.tree_goOn rfl rfl, hl⟩
  rw [h.out hm ho]
  simp [settled, entries, UserOp.seen]

theorem matches_device (h : OnCpu s c p r) {tf : Trapframe} (hm : (s.cpu c).mode = .user tf)
    (hl : s.LowIs low) (ho : s.userOp usr c = some .device) :
    Matches net sp usr low s (.device c)
      (s.upd p fun r => { r with sv := { r.sv with pff := r.sv.pff ||| pffUseFpu } }) := by
  set f : Proc Cpu μ → Proc Cpu μ :=
    fun r => { r with sv := { r.sv with pff := r.sv.pff ||| pffUseFpu } } with hf
  have hp : (s.upd p f).proc p = some (f r) := by simp [h.proc]
  refine h.matches_perform hm ho rfl ?_ fun _ => ⟨?_, hl⟩
  · have hw : ((s.upd p f).proc p).map Proc.state ≠ some .wait := by
      rw [hp]
      simp [hf, h.run]
    rw [h.out hm ho, h.settled_eq (f := fun tf => tf.trapped tDevice 0) rfl hm hw]
    simp [UserOp.seen, Trapframe.regs_trapped]
  · rw [h.tree_own (t := s.upd p f) (fun d _ => rfl) fun q hq => congrArg _ (Sys.upd_proc_ne s hq f),
      Sys.tree_running hp h.run h.runcpu, Sys.upd_cpu, hm]
    rfl

/-- A kernel entry that leaves the process as it is counts. -/
theorem out_entry (h : OnCpu s c p r) {tf : Trapframe} (hm : (s.cpu c).mode = .user tf)
    {op : UserOp μ} (ho : s.userOp usr c = some op) {f : Trapframe → Trapframe}
    (he : entries s e = s.seenAt c f) (ht : t.proc p = some r)
    (hs : op.seen tf.regs r.sv.fx r.pml4 = [⟨f tf, r.sv.fx, r.pml4⟩]) :
    (treeAgents net sp usr low).out p s.tree = settled s e t := by
  have hw : (t.proc p).map Proc.state ≠ some .wait := by simp [ht, h.run]
  rw [h.out hm ho, h.settled_eq he hm hw, hs]

theorem matches_trap (h : OnCpu s c p r) {tf : Trapframe} (hm : (s.cpu c).mode = .user tf)
    (hl : s.LowIs low) {k : ℕ} {err : BitVec 32} (ho : s.userOp usr c = some (.trap k err))
    (hk : reflected k = true)
    (ht : t = s.halt ∨ t = s.setMode c (.ret (tf.trapped k err) (trapEntry k))) :
    Matches net sp usr low s (.trap c k err) t := by
  have hp : t.proc p = some r := by rcases ht with rfl | rfl <;> exact h.proc
  have hn : (r.onCpu (.user tf.regs)).perform tf.regs (.trap k err)
      = some (r.onCpu (.ret (tf.trapped k err) (trapEntry k))) := by
    simp [Node.perform, hk, Trapframe.regs_trapped, Proc.onCpu]
  refine h.matches_perform hm ho hn ?_ ?_
  · exact h.out_entry hm ho (f := fun tf => tf.trapped k err) rfl hp
      (by simp [UserOp.seen, Trapframe.regs_trapped])
  · rcases ht with rfl | rfl
    · intro hh
      cases hh
    · exact fun _ => ⟨h.tree_setMode _, hl⟩

theorem matches_debug (h : OnCpu s c p r) {tf : Trapframe} (hm : (s.cpu c).mode = .user tf)
    (ho : s.userOp usr c = some .debug) : Matches net sp usr low s (.debug c) s.halt := by
  refine h.matches_perform hm ho rfl ?_ ?_
  · exact h.out_entry hm ho (f := fun tf => tf.trapped tDebug 0) rfl h.proc
      (by simp [UserOp.seen, Trapframe.regs_trapped])
  · intro hh
    cases hh

/-! ### System calls -/

/-- The tree with the current process at the entry of its system call. -/
def entered (s : Sys Cpu μ) (p : Pid) (r : Proc Cpu μ) (tf : Trapframe) : Tree μ :=
  Function.update s.tree p (some (r.onCpu (.entry tf.intSyscall)))

theorem run_entered (h : OnCpu s c p r) {tf : Trapframe} (hm : (s.cpu c).mode = .user tf)
    (ho : s.userOp usr c = some .syscall) {x : BitVec 64} {err : BitVec 32} {km : KernMem}
    (hw : (t.proc p).map Proc.state ≠ some .wait) :
    (treeAgents net sp usr low).Run s.tree (settled s (.syscall c x err km) t)
      (entered s p r tf) := by
  have hnode := h.node
  rw [hm] at hnode
  have ha : (r.onCpu (.user tf.regs)).alone usr p.parent.isNone
      = some (r.onCpu (.entry tf.intSyscall)) := by
    have hp : (r.onCpu (.user tf.regs)).perform tf.regs .syscall
        = some (r.onCpu (.entry tf.intSyscall)) := by
      simp [Node.perform, Proc.onCpu, Trapframe.regs_intSyscall]
    rw [← hp, ← h.userOp hm ho]
    rfl
  have hout : (treeAgents net sp usr low).out p s.tree = settled s (.syscall c x err km) t := by
    rw [h.out hm ho, h.settled_eq (f := Trapframe.intSyscall) rfl hm hw]
    simp [UserOp.seen, Trapframe.regs_intSyscall]
  rw [← hout]
  exact tree_run_one (treeFire_alone hnode rfl ha)

/-- A system call that halts the machine at once. -/
theorem matches_syscall_halt (h : OnCpu s c p r) {tf : Trapframe} (hm : (s.cpu c).mode = .user tf)
    (ho : s.userOp usr c = some .syscall) {x : BitVec 64} {err : BitVec 32} {km : KernMem} :
    Matches net sp usr low s (.syscall c x err km) s.halt := by
  have hw : (s.halt.proc p).map Proc.state ≠ some .wait := by
    change (s.proc p).map Proc.state ≠ _
    simp [h.proc, h.run]
  refine ⟨_, h.run_entered hm ho hw, ?_⟩
  intro hh
  cases hh

/-- The entry of a system call is followed by a step that is not seen. -/
theorem matches_entered (h : OnCpu s c p r) {tf : Trapframe} (hm : (s.cpu c).mode = .user tf)
    (ho : s.userOp usr c = some .syscall) {x : BitVec 64} {err : BitVec 32} {km : KernMem}
    (hw : (t.proc p).map Proc.state ≠ some .wait)
    (hf : treeFire net sp usr low p (entered s p r tf) = some t.tree) (hl : t.LowIs low) :
    Matches net sp usr low s (.syscall c x err km) t := by
  refine ⟨t.tree, ?_, fun _ => ⟨rfl, hl⟩⟩
  have hout : (treeAgents net sp usr low).out p (entered s p r tf) = [] := by
    simp [treeAgents, entered, Node.seen, Proc.onCpu]
  have hrun : (treeAgents net sp usr low).Run s.tree (settled s (.syscall c x err km) t ++
      (treeAgents net sp usr low).out p (entered s p r tf)) t.tree :=
    (h.run_entered hm ho hw).trans (tree_run_one hf)
  rw [hout, List.append_nil] at hrun
  exact hrun

/-- RET, and system calls that do not exist. -/
theorem matches_ret_call (h : OnCpu s c p r) {tf : Trapframe} (hm : (s.cpu c).mode = .user tf)
    (hl : s.LowIs low) (ho : s.userOp usr c = some .syscall) {x : BitVec 64} {err : BitVec 32}
    {km : KernMem} {entry : Entry}
    (he : (tf.intSyscall.callType = 3 ∧ entry = .complete) ∨
      (5 < tf.intSyscall.callType ∧ entry = .trap)) :
    Matches net sp usr low s (.syscall c x err km) (s.setMode c (.ret tf.intSyscall entry)) := by
  have hw : ((s.setMode c (.ret tf.intSyscall entry)).proc p).map Proc.state ≠ some .wait := by
    change (s.proc p).map Proc.state ≠ _
    simp [h.proc, h.run]
  refine h.matches_entered hm ho hw ?_ hl
  have hn : entered s p r tf p = some (r.onCpu (.entry tf.intSyscall)) := by simp [entered]
  have hk : (r.onCpu (.entry tf.intSyscall)).kid = none := by
    simp only [Node.kid, Proc.onCpu]
    rw [if_neg]
    omega
  have ha : (r.onCpu (.entry tf.intSyscall)).alone usr p.parent.isNone
      = some (r.onCpu (.ret tf.intSyscall entry)) := by
    simp only [Node.alone, Proc.onCpu]
    rcases he with ⟨h3, rfl⟩ | ⟨h5, rfl⟩
    · rw [if_pos h3]
    · rw [if_neg (by omega), if_pos h5]
  rw [treeFire_alone hn hk ha, h.tree_setMode, entered, Function.update_idem]
  rfl

/-- PUT and GET, once the child is idle. -/
theorem fire_sync {tf : Trapframe} {n : Node μ} {q : Option (Node μ)}
    (hct : tf.intSyscall.callType = 1 ∨ tf.intSyscall.callType = 2)
    (hi : Node.Idle (s.tree (p.child tf.intSyscall.childNo)))
    (hs : (r.onCpu (.entry tf.intSyscall)).meet net sp usr low
      (s.tree (p.child tf.intSyscall.childNo)) = some (n, q)) :
    treeFire net sp usr low p (entered s p r tf)
      = some (Function.update (Function.update s.tree p (some n))
          (p.child tf.intSyscall.childNo) q) := by
  have hn : entered s p r tf p = some (r.onCpu (.entry tf.intSyscall)) := by simp [entered]
  have hk : (r.onCpu (.entry tf.intSyscall)).kid = some tf.intSyscall.childNo := by
    simp only [Node.kid, Proc.onCpu]
    rw [if_pos hct]
  have hchild : entered s p r tf (p.child tf.intSyscall.childNo)
      = s.tree (p.child tf.intSyscall.childNo) := by
    simp [entered, Function.update_of_ne (Pid.child_ne p _)]
  rw [treeFire_meet hn hk (hchild ▸ hi) (hchild ▸ hs), entered, Function.update_idem]

/-- The child is found stopped: nothing but the mode of the CPU changes. -/
theorem sync_stopped (h : OnCpu s c p r) (cn : Fin 256) {m : Mode} :
    (s.setMode c m).tree = Function.update
      (Function.update s.tree p (some (r.onCpu m.phase))) (p.child cn) (s.tree (p.child cn)) := by
  rw [h.tree_setMode, Function.update_comm (Pid.child_ne p cn).symm, Function.update_eq_self]

/-- The child is not idle: the process waits, and will make its call again. -/
theorem matches_wait (h : OnCpu s c p r) {tf : Trapframe} (hm : (s.cpu c).mode = .user tf)
    (hpl : r.sv.pff &&& pffIcnt = 0) (hl : s.LowIs low) (ho : s.userOp usr c = some .syscall)
    {x : BitVec 64} {err : BitVec 32} {km : KernMem} {cp : Pid} :
    Matches net sp usr low s (.syscall c x err km) (procWait c p cp tf.intSyscall s) := by
  unfold procWait
  rw [h.proc, Option.bind_some]
  cases hsv : procSave r.sv tf.intSyscall .abort with
  | none => exact h.matches_syscall_halt hm ho
  | some sv =>
    dsimp only
    set f : Proc Cpu μ → Proc Cpu μ :=
      fun r => { r with state := .wait, runcpu := none, waitchild := some cp, sv := sv } with hf
    have hp : ((s.upd p f).setMode c .sched).proc p = some (f r) := by
      change (s.upd p f).proc p = _
      simp [h.proc]
    have htree : ((s.upd p f).setMode c .sched).tree = s.tree := by
      rw [h.tree_own (t := (s.upd p f).setMode c .sched) (fun d hd => Sys.setMode_cpu_ne _ hd _)
        fun q hq => congrArg _ (Sys.upd_proc_ne s hq f)]
      rw [Sys.tree_resting hp (.inr rfl)]
      refine Function.update_eq_self_iff.2 ?_
      rw [h.node, hm]
      simp only [hf, procSave_plain hpl hsv, Proc.onCpu, Mode.phase, if_true,
        Trapframe.rollback_regs]
      rfl
    refine ⟨s.tree, ?_, fun _ => ⟨htree.symm, hl⟩⟩
    have hset : settled s (.syscall c x err km) ((s.upd p f).setMode c .sched) = [] := by
      unfold settled
      by_cases hr : p = .root
      · subst hr
        rw [if_pos (by rw [hp]; rfl)]
      · simp only [entries, h.seenAt hm, hr, if_false, ite_self]
    rw [hset]
    exact .nil

theorem matches_put (h : OnCpu s c p r) {tf : Trapframe} (hm : (s.cpu c).mode = .user tf)
    (hh : r.home = net) (hpl : r.sv.pff &&& pffIcnt = 0) (hl : s.LowIs low)
    (ho : s.userOp usr c = some .syscall) {x : BitVec 64} {err : BitVec 32} {km : KernMem}
    (hct : tf.intSyscall.callType = 1) (hnode : targetNode net tf.intSyscall = net) :
    Matches net sp usr low s (.syscall c x err km) (doPutSync net sp c p r tf.intSyscall s) := by
  unfold doPutSync
  rw [hh, if_neg (not_not.2 hnode)]
  dsimp only
  cases hq : s.proc (p.child tf.intSyscall.childNo) with
  | none =>
    dsimp only
    set cp := p.child tf.intSyscall.childNo with hcp
    set t : Sys Cpu μ :=
      Sys.setMode { s with proc := Function.update s.proc cp (some (procAlloc net sp.fresh)) } c
        (.put tf.intSyscall tf.intSyscall.childNo) with ht
    have hne : p ≠ cp := (Pid.child_ne p _).symm
    have hp : t.proc p = some r := by
      simp only [ht, Sys.setMode, Function.update_of_ne hne]
      exact h.proc
    have hc : t.proc cp = some (procAlloc net sp.fresh) := by simp [ht, Sys.setMode]
    have hidle : Node.Idle (s.tree cp) := Sys.tree_idle (by simp [hq])
    have hempty : s.tree cp = none := by simp [Sys.tree, hq]
    refine h.matches_entered hm ho (by simp [hp, h.run]) ?_ hl
    rw [fire_sync (.inl hct) hidle (n := r.onCpu (.put tf.intSyscall tf.intSyscall.childNo))
      (q := some (Node.fresh net sp))
      (by simp only [Node.meet, Proc.onCpu, if_pos hct, ← hcp, hempty]; rfl)]
    rw [h.tree_pair (t := t) tf.intSyscall.childNo (fun d hd => Sys.setMode_cpu_ne _ hd _)
      fun q _ hq' => by simp [Sys.bare, ht, Sys.setMode, Function.update_of_ne hq', hcp]]
    rw [← hcp, Sys.tree_stopped hc rfl, Sys.tree_running hp h.run h.runcpu]
    simp only [ht, Sys.setMode_cpu_self]
    rfl
  | some q =>
    dsimp only
    by_cases hst : q.state = .stop
    · rw [if_neg (not_not.2 hst)]
      have hidle : Node.Idle (s.tree (p.child tf.intSyscall.childNo)) :=
        Sys.tree_idle fun r' hr' => by
          rw [hq] at hr'
          exact Option.some.inj hr' ▸ hst
      have hsome := Sys.tree_stopped hq hst
      refine h.matches_entered hm ho ?_ ?_ hl
      · change (s.proc p).map Proc.state ≠ _
        simp [h.proc, h.run]
      · rw [fire_sync (.inl hct) hidle
          (n := r.onCpu (.put tf.intSyscall tf.intSyscall.childNo))
          (q := s.tree (p.child tf.intSyscall.childNo))
          (by simp only [Node.meet, Proc.onCpu, if_pos hct, hsome]; rfl)]
        rw [h.sync_stopped tf.intSyscall.childNo]
        rfl
    · rw [if_pos hst]
      exact h.matches_wait hm hpl hl ho

theorem matches_get (h : OnCpu s c p r) {tf : Trapframe} (hm : (s.cpu c).mode = .user tf)
    (hh : r.home = net) (hpl : r.sv.pff &&& pffIcnt = 0) (hl : s.LowIs low)
    (ho : s.userOp usr c = some .syscall) {x : BitVec 64} {err : BitVec 32} {km : KernMem}
    (hct : tf.intSyscall.callType = 2) (hnode : targetNode net tf.intSyscall = net) :
    Matches net sp usr low s (.syscall c x err km) (doGetSync net c p r tf.intSyscall s) := by
  have hgo : (∀ q, s.proc (p.child tf.intSyscall.childNo) = some q → q.state = .stop) →
      Matches net sp usr low s (.syscall c x err km)
        (s.setMode c (.get tf.intSyscall tf.intSyscall.childNo)) := by
    intro hst
    refine h.matches_entered hm ho ?_ ?_ hl
    · change (s.proc p).map Proc.state ≠ _
      simp [h.proc, h.run]
    · rw [fire_sync (.inr hct) (Sys.tree_idle hst)
        (n := r.onCpu (.get tf.intSyscall tf.intSyscall.childNo))
        (q := s.tree (p.child tf.intSyscall.childNo))
        (by simp only [Node.meet, Proc.onCpu, hct]; rfl)]
      rw [h.sync_stopped tf.intSyscall.childNo]
      rfl
  unfold doGetSync
  rw [hh, if_neg (not_not.2 hnode)]
  cases hq : s.proc (p.child tf.intSyscall.childNo) with
  | none => exact hgo (by simp [hq])
  | some q =>
    dsimp only
    by_cases hst : q.state = .stop
    · rw [if_neg (not_not.2 hst)]
      refine hgo fun q' hq' => ?_
      rw [hq] at hq'
      exact Option.some.inj hq' ▸ hst
    · rw [if_pos hst]
      exact h.matches_wait hm hpl hl ho

theorem matches_syscall (h : OnCpu s c p r) {tf : Trapframe} (hm : (s.cpu c).mode = .user tf)
    (hh : r.home = net) (hpl : r.sv.pff &&& pffIcnt = 0) (hl : s.LowIs low)
    (ho : s.userOp usr c = some .syscall) (hok : callOk net tf.intSyscall) {x : BitVec 64}
    {err : BitVec 32} {km : KernMem} :
    Matches net sp usr low s (.syscall c x err km)
      (syscall net sp km c p r tf.intSyscall x err s) := by
  obtain ⟨h0, h4, h5, hnode⟩ := hok
  have hcases : tf.intSyscall.callType = 1 ∨ tf.intSyscall.callType = 2 ∨
      tf.intSyscall.callType = 3 ∨ 5 < tf.intSyscall.callType := by omega
  unfold syscall
  rw [← Trapframe.callType]
  rcases hcases with hct | hct | hct | hct
  · rw [hct]
    exact h.matches_put hm hh hpl hl ho hct (hnode (.inl hct))
  · rw [hct]
    exact h.matches_get hm hh hpl hl ho hct (hnode (.inr hct))
  · rw [hct]
    exact h.matches_ret_call hm hl ho (.inl ⟨hct, rfl⟩)
  · split
    all_goals try omega
    exact h.matches_ret_call hm hl ho (.inr ⟨hct, rfl⟩)

/-! ### The part of PUT and GET without locks -/

theorem loads_userArea {km : KernMem} {m : μ} : ∀ {size a : ℕ}, vmUserLo ≤ a →
    a + size ≤ vmUserHi → sp.loads km m a size = sp.loads (fun _ => none) m a size
  | 0, _, _, _ => rfl
  | size + 1, a, hlo, hhi => by
    have ha : vmUserLo ≤ a ∧ a < vmUserHi := ⟨hlo, by omega⟩
    have ih : sp.loads km m (a + 1) size = sp.loads (fun _ => none) m (a + 1) size :=
      loads_userArea (by omega) (by omega)
    simp only [Spaces.loads, Spaces.loadAny, if_pos ha, ih]

/-- The kernel's own memory does not matter for a block in the user area. -/
theorem doPutBody_userArea {km : KernMem} {tf : Trapframe} {ppff : BitVec 32} {csv : Procstate}
    {m : Map → μ} (hb : blockOk tf) :
    doPutBody sp km tf ppff csv m = doPutBody sp (fun _ => none) tf ppff csv m := by
  unfold doPutBody
  dsimp only
  by_cases hr : tf.cmd &&& sysRegs = 0
  · rw [if_pos hr, if_pos hr]
  · rw [if_neg hr, if_neg hr]
    have hc : copyin sp km (m .own) tf.rbx (regsLen tf.cmd)
        = copyin sp (fun _ => none) (m .own) tf.rbx (regsLen tf.cmd) := by
      unfold copyin
      cases hv : checkva tf.rbx (regsLen tf.cmd) with
      | false => rfl
      | true =>
        have ha := hb hr hv
        simp only [inUserArea, Bool.and_eq_true, decide_eq_true_eq] at ha
        rw [loads_userArea ha.1 ha.2]
    rw [hc]

/-- Neither handler copies out of the user area. -/
theorem doPutBody_not_wild {km : KernMem} {tf : Trapframe} {ppff : BitVec 32} {csv : Procstate}
    {m : Map → μ} : (doPutBody sp km tf ppff csv m).fin ≠ .wild := by
  have hcalls : ∀ (sv : Procstate) (cs : Calls), (Body.ofCalls sp sv m cs).fin ≠ .wild := by
    intro sv cs
    simp only [Body.ofCalls]
    split <;> simp
  unfold doPutBody copyin
  dsimp only
  split
  · exact hcalls _ _
  · split
    · simp
    · rename_i hc
      split at hc
      · cases hc
      · split at hc <;> cases hc
    · simp
    · exact hcalls _ _

theorem doGetBody_not_wild {tf : Trapframe} {csv : Procstate} {m : Map → μ} (hb : blockOk tf) :
    (doGetBody sp tf csv m).fin ≠ .wild := by
  have hcalls : ∀ (m' : Map → μ) (cs : Calls), (Body.ofCalls sp csv m' cs).fin ≠ .wild := by
    intro m' cs
    simp only [Body.ofCalls]
    split <;> simp
  unfold doGetBody
  dsimp only
  split
  · exact hcalls _ _
  · rename_i hr
    split
    · simp
    · split
      · simp
      · rename_i hc
        exfalso
        unfold copyout at hc
        simp only [List.length_map, List.length_range] at hc
        cases hv : checkva tf.rbx (regsLen tf.cmd) with
        | false => simp [hv] at hc
        | true =>
          simp only [hv, hb hr hv] at hc
          simp only [Bool.not_true, Bool.false_eq_true, if_false] at hc
          split at hc <;> cases hc
      · simp
      · exact hcalls _ _

/-- Where a handler goes from its part without locks, in the machine and in the tree. -/
theorem finish_spec (c : Cpu) (tf : Trapframe) (err : BitVec 32) (next : Mode) {fin : End}
    (hl : s.LowIs low) (hw : fin ≠ .wild) :
    (finish c tf err next fin s).halted = true ∨
      ∃ m, Node.after low tf err next.phase fin = some m.phase ∧
        (finish c tf err next fin s).proc = s.proc ∧
        (finish c tf err next fin s).cpu = (s.setMode c m).cpu ∧
        (finish c tf err next fin s).LowIs low := by
  cases fin with
  | done => exact .inr ⟨next, rfl, rfl, rfl, hl⟩
  | systrap k => exact .inr ⟨systrap tf k 0, rfl, rfl, rfl, hl⟩
  | fault =>
    refine .inr ⟨.ret ((s.low.setTrapno (.ofNat 64 tPgflt)).setErr err) .abort, ?_, rfl, rfl, ?_⟩
    · simp only [Node.after, Mode.phase, hl err]
    · intro e
      rw [← hl e]
      exact Trapframe.setErr_again _ _ _ _
  | wild => exact absurd rfl hw
  | panic => exact .inl rfl

/-- A step of the current process with an idle child, in which it is not seen. -/
theorem matches_meet (h : OnCpu s c p r) (ph : Phase) (hph : (s.cpu c).mode.phase = ph)
    (hu : ∀ tf, ph ≠ .user tf) {cn : Fin 256} (hk : (r.onCpu ph).kid = some cn)
    (hi : Node.Idle (s.tree (p.child cn))) {x : Node μ × Option (Node μ)}
    (hs : (r.onCpu ph).meet net sp usr low (s.tree (p.child cn)) = some x)
    (he : entries s e = [])
    (ht : t.tree = Function.update (Function.update s.tree p (some x.1)) (p.child cn) x.2)
    (hl : t.LowIs low) : Matches net sp usr low s e t := by
  have hnode := h.node
  rw [hph] at hnode
  have hout : (treeAgents net sp usr low).out p s.tree = settled s e t := by
    have hseen : (r.onCpu ph).seen usr = [] := by
      simp only [Node.seen, Proc.onCpu]
    simp [treeAgents, hnode, hseen, settled, he]
  refine ⟨t.tree, ?_, fun _ => ⟨rfl, hl⟩⟩
  rw [← hout, ht]
  exact tree_run_one (treeFire_meet hnode hk hi hs)

/-- A step that halts the machine and is not seen. -/
theorem matches_halted (he : entries s e = []) (ht : t.halted = true) :
    Matches net sp usr low s e t := by
  refine ⟨s.tree, ?_, fun hh => ?_⟩
  · have : settled s e t = [] := by simp [settled, he]
    rw [this]
    exact .nil
  · rw [ht] at hh
    cases hh

/-- The child as the tree sees it after a PUT or GET. -/
def takenOff (b : Body μ) (q : Proc Cpu μ) : Node μ :=
  ⟨q.home, .stopped, b.sv, b.maps .kid, b.maps .ref⟩

/-- The part without locks, with what it leaves behind in `b`. -/
theorem matches_body (h : OnCpu s c p r) (ph : Phase) (hph : (s.cpu c).mode.phase = ph)
    (hu : ∀ tf, ph ≠ .user tf) {cn : Fin 256} (hk : (r.onCpu ph).kid = some cn)
    (hst : ∀ q, s.proc (p.child cn) = some q → q.state = .stop) (hl : s.LowIs low)
    {b : Body μ} (hw : b.fin ≠ .wild) {tf : Trapframe} {err : BitVec 32} {km : KernMem}
    (next : Mode)
    (hs : ∀ m : Mode, Node.after low tf err next.phase b.fin = some m.phase →
      (r.onCpu ph).meet net sp usr low (s.tree (p.child cn))
        = some (⟨r.home, m.phase, r.sv.noTf, b.maps .own, r.rpml4⟩,
            (s.proc (p.child cn)).map (takenOff b))) :
    Matches net sp usr low s (.body c err km) (finish c tf err next b.fin
      ((s.upd p fun r => { r with pml4 := b.maps .own }).upd (p.child cn) fun q =>
        { q with sv := b.sv, pml4 := b.maps .kid, rpml4 := b.maps .ref })) := by
  set f : Proc Cpu μ → Proc Cpu μ := fun r => { r with pml4 := b.maps .own } with hf
  set g : Proc Cpu μ → Proc Cpu μ :=
    fun q => { q with sv := b.sv, pml4 := b.maps .kid, rpml4 := b.maps .ref } with hg
  set s' := (s.upd p f).upd (p.child cn) g with hs'
  have hne : p ≠ p.child cn := (Pid.child_ne p cn).symm
  have hp2 : s'.proc p = some (f r) := by
    rw [hs', Sys.upd_proc_ne _ hne, Sys.upd_proc_self, h.proc]
    rfl
  have hq2 : s'.proc (p.child cn) = (s.proc (p.child cn)).map g := by
    rw [hs', Sys.upd_proc_self, Sys.upd_proc_ne _ hne.symm]
  have hl' : s'.LowIs low := hl
  rcases finish_spec c tf err next hl' hw
    with hh | ⟨m, hafter, hproc, hcpu, hlow⟩
  · exact matches_halted rfl hh
  · refine h.matches_meet ph hph hu hk (Sys.tree_idle hst) (hs m hafter) rfl ?_ hlow
    set u := finish c tf err next b.fin s' with hu'
    have hp3 : u.proc p = some (f r) := by rw [hproc, hp2]
    have hrun : (f r).state = .run := h.run
    have hrc : (f r).runcpu = some c := h.runcpu
    have htp : u.tree p = some ⟨r.home, m.phase, r.sv.noTf, b.maps .own, r.rpml4⟩ := by
      rw [Sys.tree_running hp3 hrun hrc, hcpu, Sys.setMode_cpu_self]
    have htc : u.tree (p.child cn) = (s.proc (p.child cn)).map (takenOff b) := by
      cases hq : s.proc (p.child cn) with
      | none => simp [Sys.tree, hproc, hq2, hq]
      | some q =>
        have hq3 : u.proc (p.child cn) = some (g q) := by
          rw [hproc, hq2, hq]
          rfl
        have hstop : (g q).state = .stop := hst q hq
        rw [Sys.tree_stopped hq3 hstop]
        rfl
    rw [h.tree_pair (t := u) cn, htp, htc]
    · intro d hd
      rw [hcpu, Sys.setMode_cpu_ne _ hd]
      rfl
    · intro x hx hx'
      simp only [Sys.bare, hproc, hs']
      rw [Sys.upd_proc_ne _ hx', Sys.upd_proc_ne _ hx]

/-- The child a CPU has found stopped or missing. -/
theorem kid_stopped (h : OnCpu s c p r) (cn : Fin 256) (hk : (s.cpu c).mode.kid = some cn) :
    (∀ q, s.proc (p.child cn) = some q → q.state = .stop) ∧
      ((s.cpu c).mode.made = true → ∃ q, s.proc (p.child cn) = some q) := by
  obtain ⟨p', hp', hkid⟩ := h.inv.kid c cn (by simp) hk
  obtain rfl : p = p' := Option.some.inj (h.current.symm.trans hp')
  refine ⟨fun q hq => hkid.1 q.view (by simp [Sys.view, hq]), fun hm => ?_⟩
  obtain ⟨v, hv⟩ := Option.isSome_iff_exists.1 (hkid.2 hm)
  obtain ⟨q, hq, -⟩ := Option.map_eq_some_iff.1 hv
  exact ⟨q, hq⟩

/-- The address spaces are the same in the machine and in the tree. -/
theorem maps_onCpu (sp : Spaces μ) (r : Proc Cpu μ) (ph : Phase) (q : Option (Proc Cpu μ)) (cpu : Cpu → CpuState) :
    (r.onCpu ph).maps sp (q.map (Proc.node cpu)) = mapsOf sp r q := by
  cases q with
  | none =>
    funext k
    cases k <;> rfl
  | some q =>
    have h : (q.node cpu).pml4 = q.pml4 ∧ (q.node cpu).rpml4 = q.rpml4 := by
      unfold Proc.node
      split <;> exact ⟨rfl, rfl⟩
    funext k
    cases k
    · rfl
    · exact h.1
    · exact h.2

theorem matches_doPut (h : OnCpu s c p r) {tf : Trapframe} {cn : Fin 256}
    (hm : (s.cpu c).mode = .put tf cn) (hl : s.LowIs low) {err : BitVec 32} {km : KernMem}
    (hb : blockOk tf) (herr : err = usr.err tf r.pml4) (hlim : limitOk sp km s p r tf cn) :
    Matches net sp usr low s (.body c err km) (doPut sp km c p tf cn err s) := by
  obtain ⟨hst, hmade⟩ := h.kid_stopped cn (by rw [hm]; rfl)
  obtain ⟨q, hq⟩ := hmade (by rw [hm]; rfl)
  have hlim' := hlim q hq
  unfold doPut
  rw [h.proc, hq]
  refine h.matches_body (.put tf cn) (by rw [hm]; rfl) (by simp) rfl hst hl doPutBody_not_wild
    (if tf.cmd &&& sysStart = 0 then .user tf else .start tf cn) ?_
  intro m hafter
  have hphase : (if tf.cmd &&& sysStart = 0 then Mode.user tf else .start tf cn).phase
      = if tf.cmd &&& sysStart = 0 then Phase.user tf.regs else .start tf cn := by
    split <;> rfl
  have hmaps := maps_onCpu sp r (.put tf cn) (some q) s.cpu
  have hnode := Sys.tree_stopped hq (hst q hq)
  simp only [Option.map_some, Proc.node, hst q hq] at hmaps
  rw [hphase, doPutBody_userArea hb] at hafter
  rw [doPutBody_userArea hb] at hlim' ⊢
  rw [hnode, hq]
  change (if (doPutBody sp (fun _ => none) tf r.sv.pff q.sv ((r.onCpu (.put tf cn)).maps sp
      (some ⟨q.home, .stopped, q.sv, q.pml4, q.rpml4⟩))).sv.pff &&& pffIcnt = 0 then
    Option.map _ (Node.after low tf (usr.err tf r.pml4) _ (doPutBody sp (fun _ => none) tf
      r.sv.pff q.sv ((r.onCpu (.put tf cn)).maps sp
        (some ⟨q.home, .stopped, q.sv, q.pml4, q.rpml4⟩))).fin) else none) = _
  rw [hmaps, if_pos hlim', ← herr, hafter]
  rfl

theorem matches_doGet (h : OnCpu s c p r) {tf : Trapframe} {cn : Fin 256}
    (hm : (s.cpu c).mode = .get tf cn) (hl : s.LowIs low) {err : BitVec 32} {km : KernMem}
    (hb : blockOk tf) (herr : err = usr.err tf r.pml4) :
    Matches net sp usr low s (.body c err km) (doGet sp c p tf cn err s) := by
  obtain ⟨hst, -⟩ := h.kid_stopped cn (by rw [hm]; rfl)
  unfold doGet
  rw [h.proc]
  refine h.matches_body (.get tf cn) (by rw [hm]; rfl) (by simp) rfl hst hl
    (doGetBody_not_wild hb) (.user tf) ?_
  intro m hafter
  have hmaps := maps_onCpu sp r (.get tf cn) (s.proc (p.child cn)) s.cpu
  have hsv : (s.tree (p.child cn)).elim .zero Node.sv = (s.proc (p.child cn)).elim .zero Proc.sv := by
    cases hq : s.proc (p.child cn) with
    | none => simp [Sys.tree, hq]
    | some q => simp [Sys.tree_stopped hq (hst q hq)]
  change Option.map _ (Node.after low tf (usr.err tf r.pml4) (.user tf.regs)
    (doGetBody sp tf ((s.tree (p.child cn)).elim .zero Node.sv)
      ((r.onCpu (.get tf cn)).maps sp (s.tree (p.child cn)))).fin) = _
  rw [hsv, Sys.tree, hmaps, ← herr]
  simp only [Mode.phase] at hafter
  rw [hafter]
  cases hq : s.proc (p.child cn) with
  | none => rfl
  | some q =>
    simp only [Option.map_some, Proc.node, hst q hq]
    rfl

end OnCpu

/-! ### Starting, stopping and dispatching -/

namespace Sys

theorem bare_upd (s : Sys Cpu μ) (p : Pid) {f g : Proc Cpu μ → Proc Cpu μ}
    (hfg : ∀ r, (f r).unlinked = g r.unlinked) :
    (s.upd p f).bare = Function.update s.bare p ((s.bare p).map g) := by
  funext q
  by_cases hq : q = p
  · subst hq
    simp only [bare, upd_proc_self, Function.update_self, Option.map_map]
    congr 1
    funext r
    exact hfg r
  · simp only [bare, Function.update_of_ne hq, upd_proc_ne s hq]

/-- Changing links changes nothing. -/
theorem bare_upd_links (s : Sys Cpu μ) (p : Pid) {f : Proc Cpu μ → Proc Cpu μ}
    (hf : ∀ r, (f r).unlinked = r.unlinked) : (s.upd p f).bare = s.bare := by
  rw [bare_upd s p (g := id) hf]
  simp

theorem tree_running_bare (hp : s.bare p = some r.unlinked) (hs : r.state = .run)
    (hc : r.runcpu = some c) : s.tree p = some (r.onCpu (s.cpu c).mode.phase) := by
  have hs' : r.unlinked.state = .run := hs
  have hc' : r.unlinked.runcpu = some c := hc
  rw [tree_eq_bare, hp]
  simp only [Option.map_some, Proc.node, hs', hc']
  rfl

theorem tree_resting_bare (hp : s.bare p = some r.unlinked)
    (hs : r.state = .ready ∨ r.state = .wait) : s.tree p = some (r.onCpu (.user r.sv.tf.regs)) := by
  have hs' : r.unlinked.state = .ready ∨ r.unlinked.state = .wait := hs
  rw [tree_eq_bare, hp]
  rcases hs' with hs' | hs' <;> simp only [Option.map_some, Proc.node, hs'] <;> rfl

/-- The processes of a plain tree. -/
theorem plain_proc (h : s.tree.Plain net) (hp : s.proc p = some r) :
    r.home = net ∧ r.sv.pff &&& pffIcnt = 0 := by
  have hnode : (r.node s.cpu).home = r.home ∧ (r.node s.cpu).sv.pff = r.sv.pff := by
    unfold Proc.node
    split <;> exact ⟨rfl, rfl⟩
  obtain ⟨hh, hf⟩ := h p (r.node s.cpu) (by simp [tree, hp])
  exact ⟨hnode.1 ▸ hh, hnode.2 ▸ hf⟩

end Sys

theorem procReady_bare (p : Pid) (s : Sys Cpu μ) :
    (procReady p s).bare
      = Function.update s.bare p ((s.bare p).map fun r => { r with state := .ready }) := by
  have hset := s.bare_upd p (f := fun r => { r with state := .ready, readynext := none })
    (g := fun r => { r with state := .ready }) fun _ => rfl
  unfold procReady
  simp only [Sys.upd_readytail]
  cases s.readytail with
  | head => exact hset
  | next b =>
    refine Eq.trans ?_ hset
    exact Sys.bare_upd_links _ b fun _ => rfl

theorem procReady_low (p : Pid) (s : Sys Cpu μ) : (procReady p s).low = s.low := by
  unfold procReady
  simp only [Sys.upd_readytail]
  cases s.readytail <;> rfl

/-- `proc_run`, for a process that does not count its instructions. -/
theorem procRun_spec (c : Cpu) (hp : s.proc p = some r) (hpl : r.sv.pff &&& pffIcnt = 0) :
    (procRun c p s).halted = true ∨
      (procRun c p s).bare = Function.update s.bare p
        (some { r with state := .run, runcpu := some c : Proc Cpu μ }.unlinked) ∧
      (procRun c p s).cpu = Function.update s.cpu c ⟨some p, .user r.sv.tf⟩ ∧
      (procRun c p s).low = s.low := by
  unfold procRun
  rw [hp]
  dsimp only
  split
  · exact .inl rfl
  · refine .inr ⟨?_, ?_, rfl⟩
    · set f : Proc Cpu μ → Proc Cpu μ :=
        fun r => { r with state := .run, runcpu := some c, sv := (procResume r.sv).1 }
      have h := s.bare_upd p (f := f) (g := f) fun _ => rfl
      change (s.upd p f).bare = _
      rw [h]
      simp [f, Sys.bare, hp, procResume, hpl, Proc.unlinked]
    · simp [procResume, hpl]

theorem OnCpu.matches_start (h : OnCpu s c p r) {tf : Trapframe} {cn : Fin 256}
    (hm : (s.cpu c).mode = .start tf cn) (hl : s.LowIs low) :
    Matches net sp usr low s (.start c) ((procReady (p.child cn) s).setMode c (.user tf)) := by
  obtain ⟨hst, hmade⟩ := h.kid_stopped cn (by rw [hm]; rfl)
  obtain ⟨q, hq⟩ := hmade (by rw [hm]; rfl)
  set u := (procReady (p.child cn) s).setMode c (.user tf) with hu
  have hbare : u.bare = _ := procReady_bare (p.child cn) s
  have hne : p ≠ p.child cn := (Pid.child_ne p cn).symm
  have hbp : u.bare p = some r.unlinked := by
    rw [hbare, Function.update_of_ne hne, Sys.bare, h.proc]
    rfl
  have hbc : u.bare (p.child cn) = some { q with state := .ready : Proc Cpu μ }.unlinked := by
    rw [hbare, Function.update_self, Sys.bare, hq]
    rfl
  refine h.matches_meet (.start tf cn) (by rw [hm]; rfl) (by simp) rfl (Sys.tree_idle hst)
    (x := (r.onCpu (.user tf.regs), some (q.onCpu (.user q.sv.tf.regs)))) ?_ rfl ?_ ?_
  · rw [Sys.tree_stopped hq (hst q hq)]
    rfl
  · rw [h.tree_pair (t := u) cn, Sys.tree_running_bare hbp h.run h.runcpu,
      Sys.tree_resting_bare hbc (.inl rfl)]
    · simp only [hu, Sys.setMode_cpu_self]
      rfl
    · intro d hd
      rw [hu, Sys.setMode_cpu_ne _ hd, procReady_cpu]
    · intro x hx hx'
      rw [hbare, Function.update_of_ne hx']
  · intro e
    rw [← hl e, hu]
    simp only [Sys.setMode, procReady_low]

/-- The process stops, and its parent goes on in its place if it is waiting for it. -/
theorem OnCpu.stopChild_tree (h : OnCpu s c p r) {pp : Pid} {cn : Fin 256} (hpp : p = pp.child cn)
    (hpl : s.tree.Plain net) {sv : Procstate} {tf : Trapframe} {entry : Entry}
    (hsv : procSave r.sv tf entry = some sv) (hh : (stopChild c pp p tf entry s).halted = false) :
    (stopChild c pp p tf entry s).tree
        = Function.update s.tree p (some ⟨r.home, .stopped, sv, r.pml4, r.rpml4⟩) ∧
      (stopChild c pp p tf entry s).low = s.low := by
  unfold stopChild at hh ⊢
  simp only [h.proc, Option.bind_some, hsv] at hh ⊢
  set f : Proc Cpu μ → Proc Cpu μ :=
    fun r => { r with state := .stop, runcpu := none, sv := sv } with hf
  have hne : pp ≠ p := hpp ▸ (Pid.child_ne pp cn).symm
  have hself : (s.upd p f).proc p = some (f r) := by simp [h.proc]
  by_cases hw : ((s.upd p f).proc pp).any fun r => decide (r.state = .wait ∧ r.waitchild = some p)
  · rw [if_pos hw] at hh ⊢
    rw [Sys.upd_proc_ne s hne] at hw
    obtain ⟨rp, hrp, hwait⟩ := (Option.any_eq_true _ _).1 hw
    have hstate : rp.state = .wait := (of_decide_eq_true hwait).1
    set g : Proc Cpu μ → Proc Cpu μ := fun r => { r with waitchild := none } with hg
    set s' := (s.upd p f).upd pp g with hs'
    have hrp' : s'.proc pp = some (g rp) := by
      rw [hs', Sys.upd_proc_self, Sys.upd_proc_ne s hne, hrp]
      rfl
    have hbare' : s'.bare = (s.upd p f).bare := Sys.bare_upd_links _ pp fun _ => rfl
    have hpl' : (g rp).sv.pff &&& pffIcnt = 0 := (Sys.plain_proc hpl hrp).2
    rcases procRun_spec c hrp' hpl' with hh' | ⟨hbare, hcpu, hlow⟩
    · rw [hh'] at hh
      cases hh
    · refine ⟨?_, hlow⟩
      set u := procRun c pp s' with hu
      have hother : ∀ q, q ≠ pp → u.bare q = (s.upd p f).bare q := fun q hq => by
        rw [hbare, Function.update_of_ne hq, hbare']
      funext q
      by_cases hq : q = p
      · subst hq
        have hst : (f r).unlinked.state = .stop := rfl
        rw [Function.update_self, Sys.tree_eq_bare, hother q hne.symm, Sys.bare, hself]
        simp only [Option.map_some, Proc.node, hst]
        rfl
      · rw [Function.update_of_ne hq]
        by_cases hq' : q = pp
        · subst hq'
          -- the parent goes on with the registers it has been waiting with
          have hup : u.bare q = some { g rp with state := .run, runcpu := some c : Proc Cpu μ }.unlinked := by
            rw [hbare, Function.update_self]
          rw [Sys.tree_running_bare hup rfl rfl, hcpu, Function.update_self,
            Sys.tree_resting hrp (.inr hstate)]
          rfl
        · refine h.frame hq (fun d hd => ?_) ?_
          · rw [hcpu, Function.update_of_ne hd]
            rfl
          · rw [hother q hq', Sys.bare, Sys.upd_proc_ne s hq]
            rfl
  · rw [if_neg hw]
    refine ⟨?_, rfl⟩
    rw [h.tree_own (t := (s.upd p f).setMode c .sched) (fun d hd => Sys.setMode_cpu_ne _ hd _)
      fun q hq => congrArg _ (Sys.upd_proc_ne s hq f)]
    have hself' : ((s.upd p f).setMode c .sched).proc p = some (f r) := hself
    rw [Sys.tree_stopped hself' rfl]

theorem OnCpu.matches_ret (h : OnCpu s c p r) {tf : Trapframe} {entry : Entry} {io : Io μ}
    (hm : (s.cpu c).mode = .ret tf entry) (hpl : s.tree.Plain net) (hl : s.LowIs low)
    (hok : p.parent = none → ¬(tf.trapno = .ofNat 64 tSyscall ∧ entry = .complete)) :
    Matches net sp usr low s (.ret c io) (procRet net c p tf entry io s) := by
  unfold procRet
  have hhome : r.home = net := (Sys.plain_proc hpl h.proc).1
  rw [h.proc]
  dsimp only [Option.elim_some]
  rw [if_neg (not_not.2 hhome)]
  cases hpar : p.parent with
  | none =>
    dsimp only
    rw [if_neg (hok hpar)]
    exact OnCpu.matches_halted rfl rfl
  | some pp =>
    dsimp only
    obtain ⟨cn, hpp⟩ := Pid.parent_eq hpar
    cases hsv : procSave r.sv tf entry with
    | none =>
      refine OnCpu.matches_halted rfl ?_
      unfold stopChild
      rw [h.proc, Option.bind_some, hsv]
      rfl
    | some sv =>
      have hnode := h.node
      rw [hm] at hnode
      have ha : (r.onCpu (.ret tf entry)).alone usr p.parent.isNone
          = some ⟨r.home, .stopped, sv, r.pml4, r.rpml4⟩ := by
        have hsv' : procSave r.sv.noTf tf entry = some sv := hsv
        simp only [Node.alone, Proc.onCpu, hpar, hsv']
        rfl
      refine ⟨Function.update s.tree p (some ⟨r.home, .stopped, sv, r.pml4, r.rpml4⟩), ?_,
        fun hh => ?_⟩
      · have hout : (treeAgents net sp usr low).out p s.tree
            = settled s (.ret c io) (stopChild c pp p tf entry s) := by
          simp [treeAgents, hnode, Node.seen, Proc.onCpu, Mode.phase, settled, entries]
        rw [← hout]
        exact tree_run_one (treeFire_alone hnode rfl ha)
      · obtain ⟨htree, hlow⟩ := h.stopChild_tree hpp hpl hsv hh
        refine ⟨htree.symm, fun e => ?_⟩
        rw [← hl e, hlow]

/-- `proc_sched` changes nothing for the processes. -/
theorem matches_sched (h : Inv none none s) (hs : (s.cpu c).mode.isSched = true)
    (hpl : s.tree.Plain net) (hl : s.LowIs low) (ht : procSched c s = some t) :
    Matches net sp usr low s (.sched c) t := by
  obtain ⟨p, hhead, rfl⟩ := Option.map_eq_some_iff.1 ht
  obtain ⟨l, hl', hmem⟩ := h.queue
  have hp : p ∈ l := by
    have := hl'.head_eq
    rw [show s.thread.head = some p from hhead] at this
    exact List.mem_of_head? this.symm
  obtain ⟨⟨v, hv, hst⟩, -⟩ := (hmem p).1 hp
  obtain ⟨r, hr, rfl⟩ := Option.map_eq_some_iff.1 hv
  have hready : r.state = .ready := hst
  have hbare' : (takeReady p s).bare = s.bare := Sys.bare_upd_links _ p fun _ => rfl
  have hr' : (takeReady p s).proc p = some { r with readynext := none } := by
    simp [takeReady, hr]
  have hpl' : r.sv.pff &&& pffIcnt = 0 := (Sys.plain_proc hpl hr).2
  rcases procRun_spec c hr' hpl' with hh | ⟨hbare, hcpu, hlow⟩
  · exact OnCpu.matches_halted rfl hh
  · set u := procRun c p (takeReady p s) with hu
    have htree : u.tree = s.tree := by
      funext q
      by_cases hq : q = p
      · subst hq
        have hup : u.bare q = some { r with state := .run, runcpu := some c : Proc Cpu μ }.unlinked := by
          rw [hbare, Function.update_self]
          rfl
        rw [Sys.tree_running_bare hup rfl rfl, hcpu, Function.update_self,
          Sys.tree_resting hr (.inl hready)]
        rfl
      · refine Sys.tree_frame h (fun d hd => ?_) (.inl hs) ?_
        · rw [hcpu, Function.update_of_ne hd]
          rfl
        · rw [hbare, Function.update_of_ne hq, hbare']
    refine ⟨s.tree, ?_, fun _ => ⟨htree.symm, fun e => ?_⟩⟩
    · have : settled s (.sched c) u = [] := by simp [settled, entries]
      rw [this]
      exact .nil
    · rw [← hl e, hlow]
      rfl

/-! ### All steps -/

theorem matches_cpuStep (hI : Inv none none s) (hc : (s.cpu c).proc = some p)
    (hp : s.proc p = some r) (hpl : s.tree.Plain net) (hl : s.LowIs low)
    (hok : Tame net sp usr s e) (he : e.cpu = some c) (ht : cpuStep net sp c p r s e = some t) :
    Matches net sp usr low s e t := by
  have hon : (s.cpu c).mode.isSched = false → OnCpu s c p r := fun hb => ⟨hI, hb, hc, hp⟩
  obtain ⟨hhome, hpff⟩ := Sys.plain_proc hpl hp
  unfold cpuStep at ht
  split at ht
  · rename_i e _ _ tf hm
    have h : OnCpu s c p r := hon (by rw [hm]; rfl)
    cases e with
    | user d tf' fx m =>
      obtain rfl : d = c := Option.some.inj he
      simp only [userStep] at ht
      split at ht
      · obtain rfl := Option.some.inj ht
        exact h.matches_user hm hl hok
      · cases ht
    | device d =>
      obtain rfl : d = c := Option.some.inj he
      obtain rfl := Option.some.inj ht
      exact h.matches_device hm hl hok
    | syscall d x err km =>
      obtain rfl : d = c := Option.some.inj he
      obtain rfl := Option.some.inj ht
      split
      · exact h.matches_syscall_halt hm hok.1
      · exact h.matches_syscall hm hhome hpff hl hok.1 (hok.2 tf hm)
    | trap d k err =>
      obtain rfl : d = c := Option.some.inj he
      simp only [userStep] at ht
      split at ht
      · cases ht
      · rename_i hk
        obtain rfl := Option.some.inj ht
        refine h.matches_trap hm hl hok (by simpa using hk) ?_
        split
        · exact .inl rfl
        · exact .inr rfl
    | debug d =>
      obtain rfl : d = c := Option.some.inj he
      simp only [userStep] at ht
      rw [if_pos (.inr (.inr hpff))] at ht
      obtain rfl := Option.some.inj ht
      exact h.matches_debug hm hok
    | _ => cases ht
  · rename_i tf cn d err km hm
    obtain rfl : d = c := Option.some.inj he
    obtain rfl := Option.some.inj ht
    have h : OnCpu s d p r := hon (by rw [hm]; rfl)
    obtain ⟨hb, herr, hlim⟩ := (hok p r h.sysCurrent).1 tf cn hm
    exact h.matches_doPut hm hl hb herr hlim
  · rename_i tf cn d err km hm
    obtain rfl : d = c := Option.some.inj he
    obtain rfl := Option.some.inj ht
    have h : OnCpu s d p r := hon (by rw [hm]; rfl)
    obtain ⟨hb, herr⟩ := (hok p r h.sysCurrent).2 tf cn hm
    exact h.matches_doGet hm hl hb herr
  · rename_i tf cn d hm
    obtain rfl : d = c := Option.some.inj he
    obtain rfl := Option.some.inj ht
    exact (hon (by rw [hm]; rfl)).matches_start hm hl
  · rename_i tf entry d io hm
    obtain rfl : d = c := Option.some.inj he
    obtain rfl := Option.some.inj ht
    exact (hon (by rw [hm]; rfl)).matches_ret hm hpl hl fun hpar => hok p tf entry hc hpar hm
  · cases ht

theorem matches_step (hI : Inv none none s) (hpl : s.tree.Plain net) (hl : s.LowIs low)
    (hok : Tame net sp usr s e) (ht : step net sp s e = some t) : Matches net sp usr low s e t := by
  unfold step at ht
  split at ht
  · cases ht
  · split at ht
    · rename_i c _
      split at ht
      · rename_i hm
        exact matches_sched hI (by rw [hm]; rfl) hpl hl ht
      · cases ht
    · rename_i c _ he
      obtain ⟨pr, hpr, ht⟩ := Option.bind_eq_some_iff.1 ht
      obtain ⟨p, hp, hr⟩ := Option.bind_eq_some_iff.1 hpr
      obtain ⟨r, hr', rfl⟩ := Option.map_eq_some_iff.1 hr
      exact matches_cpuStep hI hp hr' hpl hl hok he ht
    · rename_i e _ _ _ he
      cases e with
      | wakeroot | migrated | arrive | newcomer | pulled => exact hok.elim
      | _ => cases he

/-! ## Shuffling the queue -/

namespace Shuffled

theorem tree (h : Shuffled s t) : t.tree = s.tree := by
  funext p
  rw [Sys.tree_eq_bare, Sys.tree_eq_bare, h.bare, h.cpu]

/-- What the scheduler sees of a process, its place in the queue apart. -/
theorem view (h : Shuffled s t) {v : SchedView Cpu} (hv : t.view p = some v) :
    ∃ w, s.view p = some w ∧ w.state = v.state ∧ w.runcpu = v.runcpu ∧
      w.waitchild = v.waitchild := by
  obtain ⟨r, hr, rfl⟩ := Option.map_eq_some_iff.1 hv
  have hb : s.bare p = some r.unlinked := by rw [← h.bare, Sys.bare, hr]; rfl
  obtain ⟨q, hq, hqr⟩ := Option.map_eq_some_iff.1 hb
  have hw := h.waits p
  rw [hr, hq] at hw
  refine ⟨q.view, by simp [Sys.view, hq], ?_, ?_, ?_⟩
  · change q.unlinked.state = r.unlinked.state
    rw [hqr]
  · change q.unlinked.runcpu = r.unlinked.runcpu
    rw [hqr]
  · exact (Option.some.inj hw).symm

theorem symm (h : Shuffled s t) : Shuffled t s := by
  obtain ⟨l, l', hl, hl', hp⟩ := h.queue
  exact ⟨h.bare.symm, fun p => (h.waits p).symm, ⟨l', l, hl', hl, hp.symm⟩, h.cpu.symm,
    h.low.symm, h.halted.symm⟩

theorem inv (h : Shuffled s t) (hI : Inv none none s) : Inv none none t := by
  refine ⟨?_, ?_, ?_, ?_, ?_⟩
  · obtain ⟨l, l', hl, hl', hperm⟩ := h.queue
    obtain ⟨l₀, hl₀, hmem⟩ := hI.queue
    obtain rfl : l = l₀ := hl.chain.unique hl₀.chain
    refine ⟨l', hl', fun p => ?_⟩
    rw [hperm.mem_iff, hmem p]
    refine and_congr_left fun _ => ⟨?_, ?_⟩
    · rintro ⟨v, hv, hs⟩
      obtain ⟨w, hw, hst, -, -⟩ := h.symm.view hv
      exact ⟨w, hw, hst.trans hs⟩
    · rintro ⟨v, hv, hs⟩
      obtain ⟨w, hw, hst, -, -⟩ := h.view hv
      exact ⟨w, hw, hst.trans hs⟩
  · intro p v hv hs
    obtain ⟨w, hw, hst, hrc, -⟩ := h.view hv
    rw [h.cpu, ← hrc]
    exact hI.run p w hw (hst.trans hs)
  · intro p v hv ha hs
    obtain ⟨w, hw, hst, -, hwc⟩ := h.view hv
    obtain ⟨cn, x, hx, hxv, hxs⟩ := hI.wait p w hw ha (hst.trans hs)
    obtain ⟨y, hy, hys, -, -⟩ := h.symm.view hxv
    exact ⟨cn, y, hwc ▸ hx, hy, hys ▸ hxs⟩
  · intro c hc hb
    rw [h.cpu] at hb
    obtain ⟨p, v, hp, hv, hs, hrc⟩ := hI.busy c hc hb
    obtain ⟨w, hw, hst, hrc', -⟩ := h.symm.view hv
    exact ⟨p, w, h.cpu ▸ hp, hw, hst.trans hs, hrc'.trans hrc⟩
  · intro c cn hc hk
    rw [h.cpu] at hk
    obtain ⟨p, hp, hstop, hmade⟩ := hI.kid c cn hc hk
    refine ⟨p, h.cpu ▸ hp, ?_, ?_⟩
    · intro v hv
      obtain ⟨w, hw, hst, -, -⟩ := h.view hv
      exact hst ▸ hstop w hw
    · intro hm
      rw [h.cpu] at hm
      obtain ⟨v, hv⟩ := Option.isSome_iff_exists.1 (hmade hm)
      obtain ⟨w, hw, -⟩ := h.symm.view hv
      simp [hw]

end Shuffled

/-! ## Whole schedules -/

/-- A schedule is a run of the tree with the same record. -/
theorem Schedule.simulated (h : Schedule net sp usr settled s l t) (hI : Inv none none s)
    (hpl : s.tree.Plain net) :
    ∃ A, (treeAgents net sp usr s.low).Run s.tree l A ∧
      (t.halted = false → A = t.tree ∧ t.LowIs s.low ∧ Inv none none t) := by
  induction h with
  | nil => exact ⟨s.tree, .nil, fun _ => ⟨rfl, fun _ => rfl, hI⟩⟩
  | @step l t u e _ hok hst ih =>
    obtain ⟨A, hrun, hA⟩ := ih
    have ht : t.halted = false := by
      by_contra hne
      simp [Determinator.step, hne] at hst
    obtain ⟨rfl, hlow, hIt⟩ := hA ht
    obtain ⟨B, hrun', hB⟩ := matches_step hIt (tree_run_plain hpl hrun) hlow hok hst
    exact ⟨B, hrun.trans hrun', fun hu => ⟨(hB hu).1, (hB hu).2, hIt.step hst⟩⟩
  | shuffle _ hsh ih =>
    obtain ⟨A, hrun, hA⟩ := ih
    refine ⟨A, hrun, fun hu => ?_⟩
    obtain ⟨hAt, hlow, hIt⟩ := hA (hsh.halted ▸ hu)
    exact ⟨hAt.trans hsh.tree.symm, fun e => by rw [hsh.low]; exact hlow e, hsh.inv hIt⟩

theorem initSys_plain (boot : Cpu) (entry rsp : BitVec 64) (m : μ) (low : Trapframe) :
    (initSys net sp boot (rootSv entry rsp) m low).tree.Plain net := by
  intro p n hn
  have hroot : (initSys net sp boot (rootSv entry rsp) m low).proc .root
      = some { procAlloc net sp.fresh with sv := rootSv entry rsp, pml4 := m, state := .ready } := by
    simp [initSys, procReady]
    rfl
  obtain ⟨r, hr, rfl⟩ := Option.map_eq_some_iff.1 hn
  by_cases hp : p = .root
  · subst hp
    obtain rfl := Option.some.inj (hroot.symm.trans hr)
    have hpff : (rootSv entry rsp).pff &&& pffIcnt = 0 := by
      change freshSv.pff &&& pffIcnt = 0
      decide
    exact ⟨rfl, hpff⟩
  · simp [initSys, procReady, Sys.upd, hp] at hr

/-- **Determinism.** Whatever the schedule, the root process has the same registers and memory at
its successive kernel entries, as far as the shorter one goes. -/
theorem root_entries_agree {boot : Cpu} {entry rsp : BitVec 64} {m : μ} {low : Trapframe}
    {l l' : List (Seen μ)} {t t' : Sys Cpu μ}
    (h : Schedule net sp usr settled (initSys net sp boot (rootSv entry rsp) m low) l t)
    (h' : Schedule net sp usr settled (initSys net sp boot (rootSv entry rsp) m low) l' t') :
    l <+: l' ∨ l' <+: l := by
  have hI : Inv none none (initSys net sp boot (rootSv entry rsp) m low) := inv_init ..
  have hpl : (initSys net sp boot (rootSv entry rsp) m low).tree.Plain net :=
    initSys_plain boot entry rsp m low
  obtain ⟨A, hA, -⟩ := h.simulated hI hpl
  obtain ⟨B, hB, -⟩ := h'.simulated hI hpl
  exact tree_independent.records_agree hA hB

end

/-! ## Schedules that can be carried out -/

section

variable (net sp usr)

/-- The next event of a CPU, and whether it brings nondeterminism in. -/
def nextEvent (s : Sys Cpu μ) (c : Cpu) : Option (Event Cpu μ) :=
  match (s.cpu c).mode with
  | .user tf =>
    (s.userOp usr c).bind fun
      | .run tf fx m => some (.user c tf fx m)
      | .device => some (.device c)
      | .syscall =>
        let tf := tf.intSyscall
        if tf.callType ≠ 0 ∧ tf.callType ≠ 4 ∧ tf.callType ≠ 5 ∧ targetNode net tf = net then
          some (.syscall c 0 0 fun _ => none)
        else none
      | .trap n err => some (.trap c n err)
      | .debug => some (.debug c)
  -- without a block of registers there is nothing to go wrong
  | .put tf cn | .get tf cn =>
    (s.current c).bind fun pr =>
      if tf.cmd &&& sysRegs = 0 ∧
          (s.proc (pr.1.child cn)).all fun q => q.sv.pff &&& pffIcnt = 0 then
        some (.body c (usr.err tf pr.2.pml4) fun _ => none)
      else none
  | .start _ _ => some (.start c)
  | .ret _ _ =>
    if ((s.cpu c).proc.bind Pid.parent).isSome then some (.ret c .idle) else none
  | .sched => some (.sched c)
  | .wild => none

/-- Let the CPUs of a list take one step after the other, and record what `obs` sees. -/
def drive (obs : Sys Cpu μ → Event Cpu μ → Sys Cpu μ → List (Seen μ)) :
    List Cpu → List (Seen μ) × Sys Cpu μ → Option (List (Seen μ) × Sys Cpu μ)
  | [], x => some x
  | c :: cs, x =>
    (nextEvent net usr x.2 c).bind fun e =>
      (step net sp x.2 e).bind fun t => drive obs cs (x.1 ++ obs x.2 e t, t)

variable {net sp usr}

theorem doPutBody_no_regs {km : KernMem} {tf : Trapframe} {ppff : BitVec 32} {csv : Procstate}
    {m : Map → μ} (h : tf.cmd &&& sysRegs = 0) : (doPutBody sp km tf ppff csv m).sv = csv := by
  simp only [doPutBody, if_pos h]
  rfl

theorem nextEvent_tame {s : Sys Cpu μ} {c : Cpu} {e : Event Cpu μ}
    (h : nextEvent net usr s c = some e) : Tame net sp usr s e := by
  unfold nextEvent at h
  split at h
  · rename_i tf hm
    obtain ⟨op, hop, h⟩ := Option.bind_eq_some_iff.1 h
    cases op with
    | run tf' fx m =>
      obtain rfl := Option.some.inj h
      exact hop
    | device =>
      obtain rfl := Option.some.inj h
      exact hop
    | syscall =>
      obtain ⟨hok, h⟩ := Option.ite_none_right_eq_some.1 h
      obtain rfl := Option.some.inj h
      refine ⟨hop, fun tf' hm' => ?_⟩
      obtain rfl : tf = tf' := by
        rw [hm] at hm'
        exact Mode.user.inj hm'
      exact ⟨hok.1, hok.2.1, hok.2.2.1, fun _ => hok.2.2.2⟩
    | trap n err =>
      obtain rfl := Option.some.inj h
      exact hop
    | debug =>
      obtain rfl := Option.some.inj h
      exact hop
  · rename_i tf cn hm
    obtain ⟨pr, hpr, h⟩ := Option.bind_eq_some_iff.1 h
    obtain ⟨hok, h⟩ := Option.ite_none_right_eq_some.1 h
    obtain rfl := Option.some.inj h
    intro p r hp
    obtain rfl : pr = (p, r) := Option.some.inj (hpr.symm.trans hp)
    refine ⟨fun tf' cn' hm' => ?_, fun tf' cn' hm' => ?_⟩
    · rw [hm] at hm'
      obtain ⟨rfl, rfl⟩ := Mode.put.inj hm'
      refine ⟨fun hr => absurd hok.1 hr, rfl, fun q hq => ?_⟩
      rw [doPutBody_no_regs hok.1]
      have hall := hok.2
      rw [hq] at hall
      simpa using hall
    · rw [hm] at hm'
      cases hm'
  · rename_i tf cn hm
    obtain ⟨pr, hpr, h⟩ := Option.bind_eq_some_iff.1 h
    obtain ⟨hok, h⟩ := Option.ite_none_right_eq_some.1 h
    obtain rfl := Option.some.inj h
    intro p r hp
    obtain rfl : pr = (p, r) := Option.some.inj (hpr.symm.trans hp)
    refine ⟨fun tf' cn' hm' => ?_, fun tf' cn' hm' => ?_⟩
    · rw [hm] at hm'
      cases hm'
    · rw [hm] at hm'
      obtain ⟨rfl, rfl⟩ := Mode.get.inj hm'
      exact ⟨fun hr => absurd hok.1 hr, rfl⟩
  · obtain rfl := Option.some.inj h
    trivial
  · obtain ⟨hok, h⟩ := Option.ite_none_right_eq_some.1 h
    obtain rfl := Option.some.inj h
    intro p tf entry hp hpar
    simp [hp, hpar] at hok
  · obtain rfl := Option.some.inj h
    trivial
  · cases h

theorem schedule_of_drive {obs : Sys Cpu μ → Event Cpu μ → Sys Cpu μ → List (Seen μ)}
    {s : Sys Cpu μ} : ∀ {cs : List Cpu} {x y : List (Seen μ) × Sys Cpu μ},
      Schedule net sp usr obs s x.1 x.2 → drive net sp usr obs cs x = some y →
        Schedule net sp usr obs s y.1 y.2
  | [], x, y, hx, h => by
    obtain rfl := Option.some.inj h
    exact hx
  | c :: cs, x, y, hx, h => by
    obtain ⟨e, he, h⟩ := Option.bind_eq_some_iff.1 h
    obtain ⟨t, ht, h⟩ := Option.bind_eq_some_iff.1 h
    exact schedule_of_drive (.step hx (nextEvent_tame he) ht) h

end

/-- A root process that starts its child, waits for it with GET and makes another child; the first
child faults at once. -/
def forkJoin : User Flat where
  op tf fx _ m :=
    if tf.rip = 0x40000000 then .run ((tf.withArgs 0x11 0 0 0 0 0).setRip 0x40000100) fx m
    else if tf.rip = 0x40000102 then .run ((tf.withArgs 0x2 0 0 0 0 0).setRip 0x40000200) fx m
    else if tf.rip = 0x40000202 then .run ((tf.withArgs 0x1 0 0 1 0 0).setRip 0x40000300) fx m
    else if tf.rip = 0 then .trap tPgflt 4
    else .syscall
  err _ _ := 0

/-- The state `forkJoin` starts from, on two CPUs. -/
def forkJoinStart : Sys Bool Flat :=
  initSys 1 flat true (rootSv 0x40000000 0xf0000000) flat.fresh fun _ => 0

/-- The child stops before the root process asks for it. -/
def childFirst : List Bool :=
  [true, true, true, true, true, false, false, false, true, true, true, true, true]

/-- The root process asks for the child before it has run. -/
def parentFirst : List Bool :=
  [true, true, true, true, true, true, true, false, false, false, false, false]

theorem schedule_of_log (obs : Sys Bool Flat → Event Bool Flat → Sys Bool Flat → List (Seen Flat))
    (cs : List Bool) (log : List (BitVec 64))
    (h : (drive 1 flat forkJoin obs cs ([], forkJoinStart)).map
      (fun x => x.1.map fun y => y.tf.rax) = some log) :
    ∃ l t, Schedule 1 flat forkJoin obs forkJoinStart l t ∧ l.map (fun y => y.tf.rax) = log := by
  obtain ⟨x, hx, hlog⟩ := Option.map_eq_some_iff.1 h
  exact ⟨x.1, x.2, schedule_of_drive .nil hx, hlog⟩

/-- The call numbers the root process enters the kernel with, in two schedules. -/
theorem root_entries_agree_forkJoin :
    ∃ l l' t t', Schedule 1 flat forkJoin settled forkJoinStart l t ∧
      Schedule 1 flat forkJoin settled forkJoinStart l' t' ∧
      l.map (fun y => y.tf.rax) = [0x11, 2, 1] ∧ l'.map (fun y => y.tf.rax) = [0x11, 2] ∧
      (l <+: l' ∨ l' <+: l) := by
  obtain ⟨l, t, h, hl⟩ := schedule_of_log settled childFirst [0x11, 2, 1]
    (by decide +kernel)
  obtain ⟨l', t', h', hl'⟩ := schedule_of_log settled parentFirst [0x11, 2]
    (by decide +kernel)
  exact ⟨l, l', t, t', h, h', hl, hl', root_entries_agree h h'⟩

/-- With the entries that are rolled back, the kernel entries of the root process depend on the
schedule: the GET that comes too early is seen twice. -/
theorem replayed_entries_differ :
    ∃ l l' t t', Schedule 1 flat forkJoin (fun s e _ => entries s e) forkJoinStart l t ∧
      Schedule 1 flat forkJoin (fun s e _ => entries s e) forkJoinStart l' t' ∧
      ¬(l <+: l' ∨ l' <+: l) := by
  obtain ⟨l, t, h, hl⟩ := schedule_of_log (fun s e _ => entries s e) childFirst
    [0x11, 2, 1] (by decide +kernel)
  obtain ⟨l', t', h', hl'⟩ := schedule_of_log (fun s e _ => entries s e) parentFirst
    [0x11, 2, 2] (by decide +kernel)
  refine ⟨l, l', t, t', h, h', ?_⟩
  rintro (hp | hp)
  · have := hp.map fun y => y.tf.rax
    rw [hl, hl'] at this
    revert this
    decide
  · have := hp.map fun y => y.tf.rax
    rw [hl, hl'] at this
    revert this
    decide

end Determinator
