import Determinator.Kern.Machine
import Determinator.Kern.Space

/-!
# The scheduler and the rendezvous of parent and child

One invariant of the process states, the ready queue and the CPUs, kept by every event of the
machine. Between the moment a CPU gives up its process and the moment it takes the next one, and
between the moment a process is taken from the queue or from its wait and the moment it runs, parts
of the invariant do not hold; `Inv off awake` is the invariant with the CPU `off` and the process
`awake` excepted.
-/

set_option linter.unusedSectionVars false

namespace Determinator

variable {Cpu μ : Type} [DecidableEq Cpu] {net : BitVec 8} {sp : Spaces μ}

/-! ## What the scheduler sees -/

/-- The scheduling state of a process. -/
structure SchedView (Cpu : Type) where
  state : ProcState
  readynext : Option Pid
  runcpu : Option Cpu
  waitchild : Option Pid

def Proc.view (r : Proc Cpu μ) : SchedView Cpu := ⟨r.state, r.readynext, r.runcpu, r.waitchild⟩

namespace Sys

variable (s : Sys Cpu μ)

def view (p : Pid) : Option (SchedView Cpu) := (s.proc p).map Proc.view

/-- The ready queue. -/
def thread : Thread Pid := ⟨s.readyhead, fun p => (s.view p).bind SchedView.readynext, s.readytail⟩

theorem upd_view (p : Pid) (f : Proc Cpu μ → Proc Cpu μ) (g : SchedView Cpu → SchedView Cpu)
    (hfg : ∀ r, (f r).view = g r.view) :
    (s.upd p f).view = Function.update s.view p ((s.view p).map g) := by
  funext q
  by_cases h : q = p
  · subst h
    simp only [view, upd_proc_self, Function.update_self, Option.map_map]
    congr 1
    funext r
    exact hfg r
  · simp only [view, Function.update_of_ne h, upd_proc_ne s h]

theorem upd_view_quiet (p : Pid) (f : Proc Cpu μ → Proc Cpu μ) (hf : ∀ r, (f r).view = r.view) :
    (s.upd p f).view = s.view := by
  rw [s.upd_view p f id hf]
  simp

@[simp] theorem setMode_view (c : Cpu) (m : Mode) : (s.setMode c m).view = s.view := rfl

@[simp] theorem setMode_thread (c : Cpu) (m : Mode) : (s.setMode c m).thread = s.thread := rfl

end Sys

/-! ## The invariant -/

/-- The child a CPU in the middle of a PUT or GET has found stopped or missing. -/
def Mode.kid : Mode → Option (Fin 256)
  | .put _ cn | .get _ cn | .start _ cn => some cn
  | _ => none

/-- The CPU is in a PUT, which has created the child if it was missing. -/
def Mode.made : Mode → Bool
  | .put _ _ | .start _ _ => true
  | _ => false

/-- The CPU is in the scheduler. -/
def Mode.isSched : Mode → Bool
  | .sched => true
  | _ => false

/-- A child that is under the control of its parent: stopped, or missing if it need not exist. -/
def KidOk (made : Bool) (v : Option (SchedView Cpu)) : Prop :=
  (∀ w, v = some w → w.state = .stop) ∧ (made = true → v.isSome = true)

/-- The invariant of the scheduler, the CPU `off` and the process `awake` excepted. -/
structure Inv (off : Option Cpu) (awake : Option Pid) (s : Sys Cpu μ) : Prop where
  /-- The queue holds the ready processes. -/
  queue : ∃ l, s.thread.Holds l ∧
    ∀ p, p ∈ l ↔ (∃ v, s.view p = some v ∧ v.state = .ready) ∧ some p ≠ awake
  /-- A running process is the current one of its CPU. -/
  run : ∀ p v, s.view p = some v → v.state = .run →
    ∃ c, v.runcpu = some c ∧ (s.cpu c).proc = some p ∧ some c ≠ off ∧ (s.cpu c).mode.isSched = false
  /-- A waiting process waits for a child that will stop. -/
  wait : ∀ p v, s.view p = some v → some p ≠ awake → v.state = .wait →
    ∃ cn w, v.waitchild = some (p.child cn) ∧ s.view (p.child cn) = some w ∧ w.state ≠ .stop
  /-- A CPU outside of the scheduler runs its current process. -/
  busy : ∀ c, some c ≠ off → (s.cpu c).mode.isSched = false →
    ∃ p v, (s.cpu c).proc = some p ∧ s.view p = some v ∧ v.state = .run ∧ v.runcpu = some c
  /-- The child of a PUT or GET stays stopped. -/
  kid : ∀ c cn, some c ≠ off → (s.cpu c).mode.kid = some cn →
    ∃ p, (s.cpu c).proc = some p ∧ KidOk (s.cpu c).mode.made (s.view (p.child cn))

namespace Inv

variable {off : Option Cpu} {awake : Option Pid} {s t : Sys Cpu μ} {c : Cpu} {p : Pid}

/-- The invariant depends on what the scheduler sees only. -/
theorem congr (h : Inv off awake s) (hv : t.view = s.view) (hc : t.cpu = s.cpu)
    (hh : t.readyhead = s.readyhead) (ht : t.readytail = s.readytail) : Inv off awake t := by
  have hth : t.thread = s.thread := by simp only [Sys.thread, hv, hh, ht]
  refine ⟨?_, ?_, ?_, ?_, ?_⟩
  · rw [hth, hv]
    exact h.queue
  · rw [hv, hc]
    exact h.run
  · rw [hv]
    exact h.wait
  · rw [hv, hc]
    exact h.busy
  · rw [hv, hc]
    exact h.kid

/-- Changing registers and memory of a process is no business of the scheduler. -/
theorem upd (h : Inv off awake s) (f : Proc Cpu μ → Proc Cpu μ)
    (hf : ∀ r, (f r).view = r.view) : Inv off awake (s.upd p f) :=
  h.congr (s.upd_view_quiet p f hf) rfl rfl rfl

theorem halt (h : Inv off awake s) : Inv off awake s.halt := h.congr rfl rfl rfl rfl

theorem low (h : Inv off awake s) (tf : Trapframe) : Inv off awake { s with low := tf } :=
  h.congr rfl rfl rfl rfl

/-- A CPU goes on with its process. -/
theorem setMode (h : Inv none awake s) (hb : (s.cpu c).mode.isSched = false) {m : Mode}
    (hm : m.isSched = false)
    (hk : ∀ cn, m.kid = some cn → ∃ p, (s.cpu c).proc = some p ∧
      KidOk m.made (s.view (p.child cn))) : Inv none awake (s.setMode c m) := by
  refine ⟨?_, ?_, ?_, ?_, ?_⟩
  · exact h.queue
  · intro p v hp hv
    obtain ⟨d, hd, hdp, ho, hs⟩ := h.run p v hp hv
    by_cases hdc : d = c
    · subst hdc
      refine ⟨d, hd, ?_, ho, ?_⟩
      · simpa using hdp
      · simpa using hm
    · refine ⟨d, hd, ?_, ho, ?_⟩
      · rw [s.setMode_cpu_ne hdc]
        exact hdp
      · rw [s.setMode_cpu_ne hdc]
        exact hs
  · exact h.wait
  · intro d hd hds
    by_cases hdc : d = c
    · subst hdc
      simpa using h.busy d hd hb
    · rw [s.setMode_cpu_ne hdc] at hds ⊢
      exact h.busy d hd hds
  · intro d cn hd hdk
    by_cases hdc : d = c
    · subst hdc
      have hdk' : m.kid = some cn := by simpa using hdk
      simpa using hk cn hdk'
    · rw [s.setMode_cpu_ne hdc] at hdk ⊢
      exact h.kid d cn hd hdk

/-- Back from the kernel, or on to a part of it that concerns no child. -/
theorem setMode_plain (h : Inv none awake s) (hb : (s.cpu c).mode.isSched = false) {m : Mode}
    (hm : m.isSched = false) (hk : m.kid = none) : Inv none awake (s.setMode c m) :=
  h.setMode hb hm fun cn hcn => by
    rw [hk] at hcn
    cases hcn

/-- A CPU that has given up its process enters the scheduler. -/
theorem enterSched (h : Inv (some c) awake s) : Inv none awake (s.setMode c .sched) := by
  refine ⟨?_, ?_, ?_, ?_, ?_⟩
  · exact h.queue
  · intro p v hp hv
    obtain ⟨d, hd, hdp, ho, hs⟩ := h.run p v hp hv
    have hdc : d ≠ c := fun e => ho (congrArg some e)
    refine ⟨d, hd, ?_, by simp, ?_⟩
    · rw [s.setMode_cpu_ne hdc]
      exact hdp
    · rw [s.setMode_cpu_ne hdc]
      exact hs
  · exact h.wait
  · intro d _ hds
    by_cases hdc : d = c
    · subst hdc
      simp [Mode.isSched] at hds
    · rw [s.setMode_cpu_ne hdc] at hds ⊢
      exact h.busy d (fun e => hdc (Option.some.inj e)) hds
  · intro d cn _ hdk
    by_cases hdc : d = c
    · subst hdc
      simp [Mode.kid] at hdk
    · rw [s.setMode_cpu_ne hdc] at hdk ⊢
      exact h.kid d cn (fun e => hdc (Option.some.inj e)) hdk

/-- A CPU in the scheduler has no process. -/
theorem leaveSched (h : Inv none awake s) (hs : (s.cpu c).mode.isSched = true) :
    Inv (some c) awake s := by
  refine ⟨h.queue, ?_, h.wait, ?_, ?_⟩
  · intro p v hp hv
    obtain ⟨d, hd, hdp, -, hds⟩ := h.run p v hp hv
    refine ⟨d, hd, hdp, ?_, hds⟩
    intro e
    rw [Option.some.inj e, hs] at hds
    cases hds
  · exact fun d _ => h.busy d (by simp)
  · exact fun d cn _ => h.kid d cn (by simp)

/-- The current process of a CPU gives the CPU up: it waits for a child that is not stopped, it
stops while nobody waits for it, or it migrates. -/
theorem release (h : Inv none none s) (hb : (s.cpu c).mode.isSched = false)
    (hp : (s.cpu c).proc = some p) {f : Proc Cpu μ → Proc Cpu μ} {st : ProcState}
    (rc : SchedView Cpu → Option Cpu) (wc : SchedView Cpu → Option Pid)
    (ha : ∀ q, awake = some q → ∃ v, s.view q = some v ∧ v.state ≠ .ready)
    (hf : ∀ r, (f r).view = ⟨st, r.readynext, rc r.view, wc r.view⟩)
    (hst : st = .wait ∨ st = .stop ∨ st = .migr)
    (hw : st = .wait → ∀ v, ∃ cn w, wc v = some (p.child cn) ∧ s.view (p.child cn) = some w ∧
      w.state ≠ .stop)
    (hstop : st = .stop → ∀ q v cn, q.child cn = p → s.view q = some v → some q ≠ awake →
      v.state = .wait → v.waitchild ≠ some p) : Inv (some c) awake (s.upd p f) := by
  have hview := s.upd_view p f (fun v => ⟨st, v.readynext, rc v, wc v⟩) hf
  obtain ⟨p', v₀, hp', hv₀, hrun, hcpu⟩ := h.busy c (by simp) hb
  obtain rfl : p = p' := Option.some.inj (hp.symm.trans hp')
  have hself : (s.upd p f).view p = some ⟨st, v₀.readynext, rc v₀, wc v₀⟩ := by
    simp [hview, hv₀]
  have hne : ∀ {q}, q ≠ p → (s.upd p f).view q = s.view q := fun hq => by
    rw [hview, Function.update_of_ne hq]
  have hthread : (s.upd p f).thread = s.thread := by
    have : (fun q => ((s.upd p f).view q).bind SchedView.readynext)
        = fun q => (s.view q).bind SchedView.readynext := by
      funext q
      by_cases hq : q = p
      · subst hq
        simp [hself, hv₀]
      · rw [hne hq]
    simp only [Sys.thread, this, Sys.upd_readyhead, Sys.upd_readytail]
  refine ⟨?_, ?_, ?_, ?_, ?_⟩
  · obtain ⟨l, hl, hmem⟩ := h.queue
    refine ⟨l, hthread ▸ hl, ?_⟩
    intro q
    have hawake : (∃ v, s.view q = some v ∧ v.state = .ready) → some q ≠ awake := by
      rintro ⟨v, hv, hr⟩ e
      obtain ⟨w, hw, hnr⟩ := ha q e.symm
      rw [hv] at hw
      exact hnr (Option.some.inj hw ▸ hr)
    by_cases hq : q = p
    · subst hq
      rw [hmem q, hself, hv₀]
      rcases hst with rfl | rfl | rfl <;> simp [hrun]
    · rw [hmem q, hne hq]
      exact ⟨fun hr => ⟨hr.1, hawake hr.1⟩, fun hr => ⟨hr.1, by simp⟩⟩
  · intro q v hq hv
    have hqp : q ≠ p := by
      rintro rfl
      rw [hself] at hq
      obtain rfl := Option.some.inj hq
      rcases hst with rfl | rfl | rfl <;> cases hv
    rw [hne hqp] at hq
    obtain ⟨d, hd, hdq, -, hds⟩ := h.run q v hq hv
    refine ⟨d, hd, hdq, ?_, hds⟩
    rintro hdc
    obtain rfl := Option.some.inj hdc
    exact hqp (Option.some.inj (hdq.symm.trans hp))
  · intro q v hq hqa hv
    by_cases hqp : q = p
    · subst hqp
      rw [hself] at hq
      obtain rfl := Option.some.inj hq
      obtain ⟨cn, w, hwc, hvw, hns⟩ := hw hv v₀
      refine ⟨cn, w, hwc, ?_, hns⟩
      rw [hne (q.child_ne cn)]
      exact hvw
    · rw [hne hqp] at hq
      obtain ⟨cn, w, hwc, hvw, hns⟩ := h.wait q v hq (by simp) hv
      by_cases hk : q.child cn = p
      · refine ⟨cn, _, hwc, by rw [hk]; exact hself, ?_⟩
        intro he
        exact hstop he q v cn hk hq hqa hv (hk ▸ hwc)
      · exact ⟨cn, w, hwc, by rw [hne hk]; exact hvw, hns⟩
  · intro d hd hds
    obtain ⟨q, v, hdq, hq, hv, hvd⟩ := h.busy d (by simp) hds
    have hqp : q ≠ p := by
      rintro rfl
      rw [hv₀] at hq
      obtain rfl := Option.some.inj hq
      exact hd (hvd.symm.trans hcpu)
    exact ⟨q, v, hdq, by rw [hne hqp]; exact hq, hv, hvd⟩
  · intro d cn hd hdk
    obtain ⟨q, hdq, hq⟩ := h.kid d cn (by simp) hdk
    refine ⟨q, hdq, ?_⟩
    have hqp : q.child cn ≠ p := by
      intro e
      have hv := hq.1 v₀ (e ▸ hv₀)
      rw [hrun] at hv
      cases hv
    rw [hne hqp]
    exact hq

/-- A process changes its scheduling state without becoming ready, running, waiting or stopped, and
without ceasing to be one of these. -/
theorem setView (h : Inv off awake s) {v₀ : SchedView Cpu} (hv₀ : s.view p = some v₀)
    {f : Proc Cpu μ → Proc Cpu μ} {g : SchedView Cpu → SchedView Cpu}
    (hfg : ∀ r, (f r).view = g r.view) (hn : (g v₀).readynext = v₀.readynext)
    (hready : (g v₀).state = .ready ↔ v₀.state = .ready)
    (hrun : (g v₀).state = .run ↔ v₀.state = .run) (hrc : (g v₀).runcpu = v₀.runcpu)
    (hwait : some p ≠ awake → (g v₀).state = .wait →
      v₀.state = .wait ∧ (g v₀).waitchild = v₀.waitchild)
    (hstop : (g v₀).state = .stop ↔ v₀.state = .stop) : Inv off awake (s.upd p f) := by
  have hview := s.upd_view p f g hfg
  have hself : (s.upd p f).view p = some (g v₀) := by simp [hview, hv₀]
  have hne : ∀ {q}, q ≠ p → (s.upd p f).view q = s.view q := fun hq => by
    rw [hview, Function.update_of_ne hq]
  have hthread : (s.upd p f).thread = s.thread := by
    have : (fun q => ((s.upd p f).view q).bind SchedView.readynext)
        = fun q => (s.view q).bind SchedView.readynext := by
      funext q
      by_cases hq : q = p
      · subst hq
        simp [hself, hv₀, hn]
      · rw [hne hq]
    simp only [Sys.thread, this, Sys.upd_readyhead, Sys.upd_readytail]
  refine ⟨?_, ?_, ?_, ?_, ?_⟩
  · obtain ⟨l, hl, hmem⟩ := h.queue
    refine ⟨l, hthread ▸ hl, ?_⟩
    intro q
    rw [hmem q]
    by_cases hq : q = p
    · subst hq
      simp [hself, hv₀, hready]
    · rw [hne hq]
  · intro q v hq hv
    by_cases hqp : q = p
    · subst hqp
      rw [hself] at hq
      obtain rfl := Option.some.inj hq
      rw [hrc]
      exact h.run q v₀ hv₀ (hrun.1 hv)
    · rw [hne hqp] at hq
      exact h.run q v hq hv
  · intro q v hq hqa hv
    obtain ⟨cn, w, hcn, hw, hns⟩ : ∃ cn w, v.waitchild = some (q.child cn) ∧
        s.view (q.child cn) = some w ∧ w.state ≠ .stop := by
      by_cases hqp : q = p
      · subst hqp
        rw [hself] at hq
        obtain rfl := Option.some.inj hq
        obtain ⟨hst, hwc⟩ := hwait hqa hv
        rw [hwc]
        exact h.wait q v₀ hv₀ hqa hst
      · rw [hne hqp] at hq
        exact h.wait q v hq hqa hv
    by_cases hk : q.child cn = p
    · refine ⟨cn, g v₀, hcn, by rw [hk]; exact hself, ?_⟩
      rw [hk, hv₀] at hw
      obtain rfl := Option.some.inj hw
      exact fun e => hns (hstop.1 e)
    · exact ⟨cn, w, hcn, by rw [hne hk]; exact hw, hns⟩
  · intro d hd hds
    obtain ⟨q, v, hdq, hq, hv, hvd⟩ := h.busy d hd hds
    by_cases hqp : q = p
    · subst hqp
      rw [hv₀] at hq
      obtain rfl := Option.some.inj hq
      exact ⟨q, g v₀, hdq, hself, hrun.2 hv, hrc.trans hvd⟩
    · exact ⟨q, v, hdq, by rw [hne hqp]; exact hq, hv, hvd⟩
  · intro d cn hd hdk
    obtain ⟨q, hdq, hq⟩ := h.kid d cn hd hdk
    refine ⟨q, hdq, ?_⟩
    by_cases hk : q.child cn = p
    · have hv : v₀.state = .stop := hq.1 v₀ (hk ▸ hv₀)
      rw [hk, hself]
      refine ⟨?_, fun _ => rfl⟩
      rintro w hw
      rw [← Option.some.inj hw]
      exact hstop.2 hv
    · rw [hne hk]
      exact hq

/-- A CPU without a process takes up `p`, which is neither ready nor running any more. -/
theorem procRun (h : Inv (some c) (some p) s) {v₀ : SchedView Cpu} (hv₀ : s.view p = some v₀)
    (hst : v₀.state = .ready ∨ v₀.state = .wait) : Inv none none (procRun c p s) := by
  obtain ⟨r, hr, hrv⟩ : ∃ r, s.proc p = some r ∧ r.view = v₀ := by
    simpa [Sys.view, Option.map_eq_some_iff] using hv₀
  have hmode : (procResume r.sv).2.isSched = false ∧ (procResume r.sv).2.kid = none := by
    unfold procResume
    split
    · exact ⟨rfl, rfl⟩
    · split <;> exact ⟨rfl, rfl⟩
  set f : Proc Cpu μ → Proc Cpu μ := fun r =>
    { r with state := .run, runcpu := some c, sv := (procResume r.sv).1 } with hf
  suffices hI : Inv none none { s.upd p f with
      cpu := Function.update s.cpu c ⟨some p, (procResume r.sv).2⟩ } by
    unfold Determinator.procRun
    simp only [hr]
    split
    · exact hI.halt
    · exact hI
  set t : Sys Cpu μ := { s.upd p f with
      cpu := Function.update s.cpu c ⟨some p, (procResume r.sv).2⟩ } with ht
  have hview : t.view = Function.update s.view p
      ((s.view p).map fun v => ⟨.run, v.readynext, some c, v.waitchild⟩) :=
    s.upd_view p f (fun v => ⟨.run, v.readynext, some c, v.waitchild⟩) fun _ => rfl
  have hself : t.view p = some ⟨.run, v₀.readynext, some c, v₀.waitchild⟩ := by
    simp [hview, hv₀]
  have hne : ∀ {q}, q ≠ p → t.view q = s.view q := fun hq => by
    rw [hview, Function.update_of_ne hq]
  have hcpu : t.cpu c = ⟨some p, (procResume r.sv).2⟩ := by simp [ht]
  have hcne : ∀ {d}, d ≠ c → t.cpu d = s.cpu d := fun hd => by simp [ht, hd]
  have hthread : t.thread = s.thread := by
    have : (fun q => (t.view q).bind SchedView.readynext)
        = fun q => (s.view q).bind SchedView.readynext := by
      funext q
      by_cases hq : q = p
      · subst hq
        simp [hself, hv₀]
      · rw [hne hq]
    simp only [Sys.thread, this]
    rfl
  refine ⟨?_, ?_, ?_, ?_, ?_⟩
  · obtain ⟨l, hl, hmem⟩ := h.queue
    refine ⟨l, hthread ▸ hl, ?_⟩
    intro q
    by_cases hq : q = p
    · subst hq
      rw [hmem q, hself]
      simp
    · rw [hmem q, hne hq]
      simp [hq]
  · intro q v hq hv
    by_cases hqp : q = p
    · subst hqp
      rw [hself] at hq
      obtain rfl := Option.some.inj hq
      exact ⟨c, rfl, by rw [hcpu], by simp, by rw [hcpu]; exact hmode.1⟩
    · rw [hne hqp] at hq
      obtain ⟨d, hd, hdq, ho, hds⟩ := h.run q v hq hv
      have hdc : d ≠ c := fun e => ho (congrArg some e)
      exact ⟨d, hd, by rw [hcne hdc]; exact hdq, by simp, by rw [hcne hdc]; exact hds⟩
  · intro q v hq _ hv
    by_cases hqp : q = p
    · subst hqp
      rw [hself] at hq
      obtain rfl := Option.some.inj hq
      cases hv
    · rw [hne hqp] at hq
      obtain ⟨cn, w, hwc, hvw, hns⟩ := h.wait q v hq (by simpa using hqp) hv
      by_cases hk : q.child cn = p
      · exact ⟨cn, _, hwc, by rw [hk]; exact hself, by simp⟩
      · exact ⟨cn, w, hwc, by rw [hne hk]; exact hvw, hns⟩
  · intro d _ hds
    by_cases hdc : d = c
    · subst hdc
      exact ⟨p, _, by rw [hcpu], hself, rfl, rfl⟩
    · rw [hcne hdc] at hds ⊢
      obtain ⟨q, v, hdq, hq, hv, hvd⟩ := h.busy d (by simpa using hdc) hds
      have hqp : q ≠ p := by
        rintro rfl
        rw [hv₀] at hq
        obtain rfl := Option.some.inj hq
        rcases hst with e | e <;> rw [e] at hv <;> cases hv
      exact ⟨q, v, hdq, by rw [hne hqp]; exact hq, hv, hvd⟩
  · intro d cn _ hdk
    by_cases hdc : d = c
    · subst hdc
      rw [hcpu] at hdk
      rw [hmode.2] at hdk
      cases hdk
    · rw [hcne hdc] at hdk ⊢
      obtain ⟨q, hdq, hq⟩ := h.kid d cn (by simpa using hdc) hdk
      have hqp : q.child cn ≠ p := by
        intro e
        have hv := hq.1 v₀ (e ▸ hv₀)
        rcases hst with e | e <;> rw [e] at hv <;> cases hv
      exact ⟨q, hdq, by rw [hne hqp]; exact hq⟩

end Inv

section

variable (p : Pid) (s : Sys Cpu μ)

theorem procReady_cpu : (procReady p s).cpu = s.cpu := by
  unfold procReady
  simp only [Sys.upd_readytail]
  cases s.readytail <;> rfl

theorem procReady_readytail : (procReady p s).readytail = .next p := rfl

theorem procReady_readyhead : (procReady p s).readyhead = (s.thread.push p).head := by
  unfold procReady Thread.push
  simp only [Sys.upd_readytail, Sys.thread]
  cases s.readytail <;> rfl

/-- The process becomes ready, and the links are those of the longer queue. -/
theorem procReady_view (q : Pid) :
    (procReady p s).view q = (s.view q).map fun v =>
      ⟨if q = p then .ready else v.state, (s.thread.push p).next q, v.runcpu, v.waitchild⟩ := by
  have hset := s.upd_view p (fun r => { r with state := .ready, readynext := none })
    (fun v => ⟨.ready, none, v.runcpu, v.waitchild⟩) fun _ => rfl
  unfold procReady Thread.push
  simp only [Sys.upd_readytail, Sys.thread]
  cases s.readytail with
  | head =>
    change (s.upd p _).view q = _
    rw [hset]
    by_cases hq : q = p
    · subst hq
      simp
    · cases hv : s.view q with
      | none => simp [hq, hv]
      | some v => simp [hq, hv]
  | next b =>
    change ((s.upd p _).upd b _).view q = _
    rw [Sys.upd_view _ b _ (fun v => ⟨v.state, some p, v.runcpu, v.waitchild⟩) fun _ => rfl, hset]
    by_cases hb : q = b
    · subst hb
      by_cases hq : q = p
      · subst hq
        simp [Function.comp_def]
      · simp [hq]
    · by_cases hq : q = p
      · subst hq
        simp [hb]
      · cases hv : s.view q with
        | none => simp [hq, hb, hv]
        | some v => simp [hq, hb, hv]

/-- The ready queue after `proc_ready`. -/
theorem procReady_thread {l : List Pid} (hl : s.thread.Holds l) (hex : ∀ q ∈ l, (s.view q).isSome)
    (hp : (s.view p).isSome) : (procReady p s).thread = s.thread.push p := by
  have hnext : (fun q => ((procReady p s).view q).bind SchedView.readynext)
      = (s.thread.push p).next := by
    funext q
    rw [procReady_view]
    cases hv : s.view q with
    | some v => simp
    | none =>
      have hqp : q ≠ p := by
        rintro rfl
        simp [hv] at hp
      have hnq : s.thread.next q = none := by simp [Sys.thread, hv]
      have htail : s.thread.tail ≠ .next q := by
        intro e
        have := hex q (Thread.mem_of_lastLink (hl.tail ▸ e))
        simp [hv] at this
      simp only [Option.map_none, Option.bind_none, Thread.push]
      cases ht : s.thread.tail with
      | head => simp [hqp, hnq]
      | next b =>
        have hqb : q ≠ b := by
          rintro rfl
          exact htail ht
        simp [hqp, hqb, hnq]
  have htail : (s.thread.push p).tail = .next p := by
    unfold Thread.push
    cases s.thread.tail <;> rfl
  unfold Sys.thread at hnext ⊢
  rw [hnext, procReady_readyhead, procReady_readytail, ← htail]
  rfl

end

namespace Inv

variable {s : Sys Cpu μ} {c : Cpu} {p : Pid}

/-- A process that is stopped, or whose pages have arrived, goes to the end of the queue; no CPU may
be in the middle of a PUT to it. -/
theorem procReady (h : Inv none none s) {v₀ : SchedView Cpu} (hv₀ : s.view p = some v₀)
    (hst : v₀.state = .stop ∨ v₀.state = .pull)
    (hk : ∀ d cn q, (s.cpu d).mode.kid = some cn → (s.cpu d).proc = some q → q.child cn ≠ p) :
    Inv none none (procReady p s) := by
  obtain ⟨l, hl, hmem⟩ := h.queue
  have hpl : p ∉ l := by
    rw [hmem p]
    rintro ⟨⟨v, hv, hr⟩, -⟩
    rw [hv₀] at hv
    obtain rfl := Option.some.inj hv
    rcases hst with e | e <;> rw [e] at hr <;> cases hr
  have hex : ∀ q ∈ l, (s.view q).isSome := fun q hq => by
    obtain ⟨⟨v, hv, -⟩, -⟩ := (hmem q).1 hq
    simp [hv]
  have hthread := procReady_thread p s hl hex (by simp [hv₀])
  have hcpu := procReady_cpu p s
  -- a view of the new state comes from one of the old state that differs in the link only, but
  -- for the process itself, which is ready now
  have hold : ∀ {q v}, (Determinator.procReady p s).view q = some v → q ≠ p →
      ∃ w, s.view q = some w ∧ w.state = v.state ∧ w.runcpu = v.runcpu ∧
        w.waitchild = v.waitchild := by
    intro q v hv hq
    rw [procReady_view] at hv
    obtain ⟨w, hw, rfl⟩ := Option.map_eq_some_iff.1 hv
    exact ⟨w, hw, by simp [hq], rfl, rfl⟩
  have hnew : ∀ {q w}, s.view q = some w → q ≠ p →
      ∃ v, (Determinator.procReady p s).view q = some v ∧ v.state = w.state ∧
        v.runcpu = w.runcpu ∧ v.waitchild = w.waitchild := by
    intro q w hw hq
    refine ⟨⟨w.state, (s.thread.push p).next q, w.runcpu, w.waitchild⟩, ?_, rfl, rfl, rfl⟩
    rw [procReady_view, hw]
    simp [hq]
  have hself : ∃ v, (Determinator.procReady p s).view p = some v ∧ v.state = .ready :=
    ⟨⟨.ready, (s.thread.push p).next p, v₀.runcpu, v₀.waitchild⟩, by
      rw [procReady_view, hv₀]
      simp, rfl⟩
  refine ⟨?_, ?_, ?_, ?_, ?_⟩
  · refine ⟨l ++ [p], hthread ▸ hl.push hpl, ?_⟩
    intro q
    rw [List.mem_append, List.mem_singleton, hmem q]
    by_cases hq : q = p
    · subst hq
      simpa using hself
    · simp only [hq, or_false, ne_eq, reduceCtorEq, not_false_eq_true, and_true]
      constructor
      · rintro ⟨v, hv, hr⟩
        obtain ⟨w, hw, hs, -⟩ := hnew hv hq
        exact ⟨w, hw, hs.trans hr⟩
      · rintro ⟨v, hv, hr⟩
        obtain ⟨w, hw, hs, -⟩ := hold hv hq
        exact ⟨w, hw, hs.trans hr⟩
  · intro q v hq hv
    have hqp : q ≠ p := by
      rintro rfl
      obtain ⟨w, hw, hr⟩ := hself
      rw [hq] at hw
      obtain rfl := Option.some.inj hw
      rw [hv] at hr
      cases hr
    obtain ⟨w, hw, hs, hrc, -⟩ := hold hq hqp
    rw [hcpu, ← hrc]
    exact h.run q w hw (hs.trans hv)
  · intro q v hq _ hv
    have hqp : q ≠ p := by
      rintro rfl
      obtain ⟨w, hw, hr⟩ := hself
      rw [hq] at hw
      obtain rfl := Option.some.inj hw
      rw [hv] at hr
      cases hr
    obtain ⟨w, hw, hs, -, hwc⟩ := hold hq hqp
    obtain ⟨cn, u, hcn, hu, hns⟩ := h.wait q w hw (by simp) (hs.trans hv)
    by_cases hkp : q.child cn = p
    · obtain ⟨u', hu', hr⟩ := hself
      exact ⟨cn, u', hwc ▸ hcn, by rw [hkp]; exact hu', by simp [hr]⟩
    · obtain ⟨u', hu', hs', -⟩ := hnew hu hkp
      exact ⟨cn, u', hwc ▸ hcn, hu', hs' ▸ hns⟩
  · intro d hd hds
    rw [hcpu] at hds ⊢
    obtain ⟨q, v, hdq, hq, hv, hvd⟩ := h.busy d hd hds
    have hqp : q ≠ p := by
      rintro rfl
      rw [hv₀] at hq
      obtain rfl := Option.some.inj hq
      rcases hst with e | e <;> rw [e] at hv <;> cases hv
    obtain ⟨w, hw, hs, hrc, -⟩ := hnew hq hqp
    exact ⟨q, w, hdq, hw, hs.trans hv, hrc.trans hvd⟩
  · intro d cn hd hdk
    rw [hcpu] at hdk ⊢
    obtain ⟨q, hdq, hq⟩ := h.kid d cn hd hdk
    refine ⟨q, hdq, ?_, ?_⟩
    · intro v hv
      obtain ⟨w, hw, hs, -⟩ := hold hv (hk d cn q hdk hdq)
      exact hs.symm.trans (hq.1 w hw)
    · intro hmade
      rw [procReady_view, Option.isSome_map]
      exact hq.2 hmade

/-- The process at the head of the queue is taken by a CPU. -/
theorem procSched (h : Inv none none s) (hs : (s.cpu c).mode.isSched = true) {t : Sys Cpu μ}
    (ht : procSched c s = some t) : Inv none none t := by
  obtain ⟨p, hp, rfl⟩ := Option.map_eq_some_iff.1 ht
  obtain ⟨l, hl, hmem⟩ := h.queue
  obtain ⟨l', rfl⟩ : ∃ l', l = p :: l' := by
    cases l with
    | nil =>
      have : s.readyhead = none := hl.chain
      rw [hp] at this
      cases this
    | cons q l' =>
      have : s.readyhead = some q := hl.chain.1
      rw [hp] at this
      exact ⟨l', by rw [Option.some.inj this]⟩
  obtain ⟨⟨v₀, hv₀, hready⟩, -⟩ := (hmem p).1 List.mem_cons_self
  have hoff := h.leaveSched hs
  set u := takeReady p s with hu
  have hview : u.view = Function.update s.view p
      (some ⟨v₀.state, none, v₀.runcpu, v₀.waitchild⟩) := by
    have hv : s.view p = some v₀ := hv₀
    have := Sys.upd_view { s with
        readyhead := (s.proc p).bind Proc.readynext
        readytail := if s.readytail = Link.next p then .head else s.readytail } p
      (fun r => { r with readynext := none }) (fun v => ⟨v.state, none, v.runcpu, v.waitchild⟩)
      fun _ => rfl
    rw [hu, takeReady, this]
    change Function.update s.view p ((s.view p).map _) = _
    rw [hv]
    rfl
  have hself : u.view p = some ⟨v₀.state, none, v₀.runcpu, v₀.waitchild⟩ := by simp [hview]
  have hne : ∀ {q}, q ≠ p → u.view q = s.view q := fun hq => by
    rw [hview, Function.update_of_ne hq]
  have hcpu : u.cpu = s.cpu := rfl
  have hthread : u.thread = s.thread.pop p := by
    have hnext : (fun q => (u.view q).bind SchedView.readynext)
        = Function.update s.thread.next p none := by
      funext q
      by_cases hq : q = p
      · subst hq
        simp [hself]
      · simp [Sys.thread, hne hq, hq]
    have hhead : (s.proc p).bind Proc.readynext = s.thread.next p := by
      simp only [Sys.thread, Sys.view, Option.bind_map]
      rfl
    unfold Thread.pop
    rw [← hnext, ← hhead]
    rfl
  have hpop : Inv (some c) (some p) u := by
    refine ⟨⟨l', hthread ▸ hl.pop, ?_⟩, ?_, ?_, ?_, ?_⟩
    · intro q
      obtain ⟨hpl', -⟩ := List.nodup_cons.1 hl.nodup
      by_cases hq : q = p
      · subst hq
        simp [hpl']
      · rw [hne hq]
        have := hmem q
        simp only [List.mem_cons, hq, false_or] at this
        rw [this]
        simp [hq]
    · intro q v hq hv
      have hqp : q ≠ p := by
        rintro rfl
        rw [hself] at hq
        obtain rfl := Option.some.inj hq
        rw [hready] at hv
        cases hv
      rw [hne hqp] at hq
      rw [hcpu]
      exact hoff.run q v hq hv
    · intro q v hq hqa hv
      have hqp : q ≠ p := fun e => hqa (congrArg some e)
      rw [hne hqp] at hq
      obtain ⟨cn, w, hcn, hw, hns⟩ := h.wait q v hq (by simp) hv
      by_cases hk : q.child cn = p
      · exact ⟨cn, _, hcn, by rw [hk]; exact hself, by simp [hready]⟩
      · exact ⟨cn, w, hcn, by rw [hne hk]; exact hw, hns⟩
    · intro d hd hds
      rw [hcpu] at hds ⊢
      obtain ⟨q, v, hdq, hq, hv, hvd⟩ := hoff.busy d hd hds
      have hqp : q ≠ p := by
        rintro rfl
        rw [hv₀] at hq
        obtain rfl := Option.some.inj hq
        rw [hready] at hv
        cases hv
      exact ⟨q, v, hdq, by rw [hne hqp]; exact hq, hv, hvd⟩
    · intro d cn hd hdk
      rw [hcpu] at hdk ⊢
      obtain ⟨q, hdq, hq⟩ := hoff.kid d cn hd hdk
      have hqp : q.child cn ≠ p := by
        intro e
        have hv := hq.1 v₀ (e ▸ hv₀)
        rw [hready] at hv
        cases hv
      exact ⟨q, hdq, by rw [hne hqp]; exact hq⟩
  exact hpop.procRun hself (.inl hready)

/-- A new process, which nobody knows yet. -/
theorem alloc (h : Inv none none s) {q : Pid} (hq : s.proc q = none) {r : Proc Cpu μ}
    (hst : r.state = .stop ∨ r.state = .pull ∧ q.parent = none) (hn : r.readynext = none) :
    Inv none none { s with proc := Function.update s.proc q (some r) } := by
  have hready : r.state ≠ .ready := by rcases hst with e | ⟨e, -⟩ <;> simp [e]
  have hrun : r.state ≠ .run := by rcases hst with e | ⟨e, -⟩ <;> simp [e]
  have hwait : r.state ≠ .wait := by rcases hst with e | ⟨e, -⟩ <;> simp [e]
  set t : Sys Cpu μ := { s with proc := Function.update s.proc q (some r) } with ht
  have hself : t.view q = some r.view := by simp [ht, Sys.view]
  have hne : ∀ {p}, p ≠ q → t.view p = s.view p := fun hp => by simp [ht, Sys.view, hp]
  have hq' : s.view q = none := by simp [Sys.view, hq]
  have hsome : ∀ {p v}, s.view p = some v → t.view p = some v := by
    intro p v hv
    rw [hne]
    · exact hv
    · rintro rfl
      rw [hq'] at hv
      cases hv
  have hthread : t.thread = s.thread := by
    have : (fun p => (t.view p).bind SchedView.readynext)
        = fun p => (s.view p).bind SchedView.readynext := by
      funext p
      by_cases hp : p = q
      · subst hp
        simp [hself, hq', Proc.view, hn]
      · rw [hne hp]
    simp only [Sys.thread, this]
    rfl
  refine ⟨?_, ?_, ?_, ?_, ?_⟩
  · obtain ⟨l, hl, hmem⟩ := h.queue
    refine ⟨l, hthread ▸ hl, ?_⟩
    intro p
    rw [hmem p]
    by_cases hp : p = q
    · subst hp
      simp [hself, hq', Proc.view, hready]
    · rw [hne hp]
  · intro p v hp hv
    have hpq : p ≠ q := by
      rintro rfl
      rw [hself] at hp
      obtain rfl := Option.some.inj hp
      exact hrun hv
    rw [hne hpq] at hp
    exact h.run p v hp hv
  · intro p v hp hpa hv
    have hpq : p ≠ q := by
      rintro rfl
      rw [hself] at hp
      obtain rfl := Option.some.inj hp
      exact hwait hv
    rw [hne hpq] at hp
    obtain ⟨cn, w, hcn, hw, hns⟩ := h.wait p v hp hpa hv
    exact ⟨cn, w, hcn, hsome hw, hns⟩
  · intro d hd hds
    obtain ⟨p, v, hdp, hp, hv, hvd⟩ := h.busy d hd hds
    exact ⟨p, v, hdp, hsome hp, hv, hvd⟩
  · intro d cn hd hdk
    obtain ⟨p, hdp, hp⟩ := h.kid d cn hd hdk
    refine ⟨p, hdp, ?_⟩
    by_cases hk : p.child cn = q
    · rcases hst with e | ⟨-, htop⟩
      · rw [hk, hself]
        exact ⟨fun w hw => Option.some.inj hw ▸ e, fun _ => rfl⟩
      · rw [← hk] at htop
        simp [Pid.parent, Pid.child] at htop
    · rw [hne hk]
      exact hp

/-! ## The functions of the kernel keep the invariant -/

section

variable (h : Inv none none s) (hb : (s.cpu c).mode.isSched = false)
  (hp : (s.cpu c).proc = some p)

include h hb hp

theorem procWait {cn : Fin 256} {w : SchedView Cpu} (hw : s.view (p.child cn) = some w)
    (hns : w.state ≠ .stop) (tf : Trapframe) :
    Inv none none (procWait c p (p.child cn) tf s) := by
  unfold Determinator.procWait
  split
  · exact h.halt
  · refine enterSched (h.release hb hp (fun _ => none) (fun _ => some (p.child cn))
      (by simp) (fun _ => rfl) (.inl rfl) ?_ ?_)
    · exact fun _ _ => ⟨cn, w, rfl, hw, hns⟩
    · intro e
      cases e

theorem netMigrate (tf : Trapframe) (dst : BitVec 8) (entry : Entry) :
    Inv none none (netMigrate net c p tf dst entry s) := by
  unfold Determinator.netMigrate
  split
  · exact h.halt
  · split
    · refine enterSched (h.release hb hp SchedView.runcpu SchedView.waitchild
        (by simp) (fun _ => rfl) (.inr (.inr rfl)) ?_ ?_) <;>
      · intro e
        cases e
    · exact h.halt

/-- Nobody waits for the process at the top of a tree. -/
theorem fileIo (htop : p.parent = none) (tf : Trapframe) (io : Io μ) :
    Inv none none (fileIo c p tf io s) := by
  unfold Determinator.fileIo
  cases io with
  | done m =>
    have hupd : Inv none none (s.upd p fun r => { r with pml4 := m }) := h.upd _ fun _ => rfl
    exact hupd.setMode_plain hb rfl rfl
  | exited => exact h.halt
  | idle =>
    simp only
    split
    · exact h.halt
    · refine enterSched (h.release hb hp (fun _ => none) SchedView.waitchild
        (by simp) (fun _ => rfl) (.inr (.inl rfl)) ?_ ?_)
      · intro e
        cases e
      · rintro - q v cn rfl
        simp [Pid.parent, Pid.child] at htop

/-- A child that stops runs its parent if the parent waits for it, so that no wakeup is lost. -/
theorem stopChild {q : Pid} {cn : Fin 256} (hq : p = q.child cn) (tf : Trapframe)
    (entry : Entry) : Inv none none (stopChild c q p tf entry s) := by
  subst hq
  unfold Determinator.stopChild
  split
  · exact h.halt
  · rename_i sv _
    have hne : q ≠ q.child cn := (q.child_ne cn).symm
    set f : Proc Cpu μ → Proc Cpu μ := fun r =>
      { r with state := .stop, runcpu := none, sv := sv } with hf
    have hproc : (s.upd (q.child cn) f).proc q = s.proc q := Sys.upd_proc_ne _ hne f
    simp only [hproc]
    split
    · rename_i hany
      obtain ⟨r, hr, hwait⟩ := (Option.any_eq_true _ _).1 hany
      obtain ⟨hst, hwc⟩ : r.state = .wait ∧ r.waitchild = some (q.child cn) := by simpa using hwait
      have hview : s.view q = some r.view := by simp [Sys.view, hr]
      have hrel : Inv (some c) (some q) (s.upd (q.child cn) f) := by
        refine h.release hb hp (fun _ => none) SchedView.waitchild ?_
          (fun _ => rfl) (.inr (.inl rfl)) ?_ ?_
        · rintro q' e
          obtain rfl := Option.some.inj e
          refine ⟨r.view, hview, ?_⟩
          simp [Proc.view, hst]
        · intro e
          cases e
        · rintro - q' v cn' he - hn
          exact absurd (congrArg some (Pid.child_inj he).1) hn
      have hview' : (s.upd (q.child cn) f).view q = some r.view := by simp [Sys.view, hproc, hr]
      -- the parent is about to run, and forgets what it waited for
      have hforget : Inv (some c) (some q)
          ((s.upd (q.child cn) f).upd q fun r => { r with waitchild := none }) :=
        hrel.setView hview' (g := fun v => { v with waitchild := none }) (fun _ => rfl) rfl
          Iff.rfl Iff.rfl rfl (fun hn => absurd rfl hn) Iff.rfl
      have hlast : ((s.upd (q.child cn) f).upd q fun r => { r with waitchild := none }).view q
          = some { r.view with waitchild := none } := by
        simp only [Sys.view, Sys.upd_proc_self, hproc, hr]
        rfl
      exact hforget.procRun hlast (.inr hst)
    · rename_i hany
      refine enterSched (h.release hb hp (fun _ => none) SchedView.waitchild
        (by simp) (fun _ => rfl) (.inr (.inl rfl)) ?_ ?_)
      · intro e
        cases e
      · rintro - q' v cn' he hv - hst hwc
        obtain ⟨rfl, -⟩ := Pid.child_inj he
        obtain ⟨r, hr, rfl⟩ := Option.map_eq_some_iff.1 hv
        apply hany
        simp only [hr, Option.any_some, decide_eq_true_eq]
        exact ⟨hst, hwc⟩

theorem procRet (tf : Trapframe) (entry : Entry) (io : Io μ) :
    Inv none none (procRet net c p tf entry io s) := by
  unfold Determinator.procRet
  simp only
  split
  · exact h.netMigrate hb hp tf _ _
  · cases hpar : p.parent with
    | none =>
      simp only
      split
      · exact h.fileIo hb hp hpar tf io
      · exact h.halt
    | some q =>
      obtain ⟨cn, hcn⟩ := Pid.parent_eq hpar
      exact h.stopChild hb hp hcn tf entry

/-- Leaving the part of a handler without locks. -/
theorem finish {next : Mode} (hs : next.isSched = false)
    (hk : ∀ cn, next.kid = some cn → KidOk next.made (s.view (p.child cn)))
    (tf : Trapframe) (err : BitVec 32) (fin : End) :
    Inv none none (finish c tf err next fin s) := by
  cases fin with
  | done =>
    exact h.setMode hb hs fun cn hcn => ⟨p, hp, hk cn hcn⟩
  | systrap n => exact h.setMode_plain hb rfl rfl
  | fault =>
    have hlow := h.low ((s.low.setTrapno (.ofNat 64 tPgflt)).setErr err)
    exact hlow.setMode_plain hb rfl rfl
  | wild => exact h.setMode_plain hb rfl rfl
  | panic => exact h.halt

theorem doPutSync {r : Proc Cpu μ} (tf : Trapframe) :
    Inv none none (doPutSync net sp c p r tf s) := by
  unfold Determinator.doPutSync
  simp only
  split
  · exact h.netMigrate hb hp tf _ _
  · cases hq : s.proc (p.child tf.childNo) with
    | none =>
      have halloc := h.alloc hq (r := procAlloc net sp.fresh) (.inl rfl) rfl
      refine halloc.setMode hb rfl fun cn hcn => ?_
      obtain rfl : tf.childNo = cn := Option.some.inj hcn
      refine ⟨p, hp, ?_⟩
      simp only [Sys.view, Function.update_self, Option.map_some]
      exact ⟨fun w hw => Option.some.inj hw ▸ rfl, fun _ => rfl⟩
    | some q =>
      simp only
      split
      · rename_i hns
        exact h.procWait hb hp (w := q.view) (by simp [Sys.view, hq]) hns tf
      · rename_i hst
        refine h.setMode hb rfl fun cn hcn => ?_
        obtain rfl : tf.childNo = cn := Option.some.inj hcn
        have hst' : q.state = .stop := by simpa using hst
        refine ⟨p, hp, ?_⟩
        simp only [Sys.view, hq, Option.map_some]
        exact ⟨fun w hw => Option.some.inj hw ▸ hst', fun _ => rfl⟩

theorem doGetSync {r : Proc Cpu μ} (tf : Trapframe) :
    Inv none none (doGetSync net c p r tf s) := by
  unfold Determinator.doGetSync
  simp only
  split
  · exact h.netMigrate hb hp tf _ _
  · cases hq : s.proc (p.child tf.childNo) with
    | none =>
      refine h.setMode hb rfl fun cn hcn => ?_
      obtain rfl : tf.childNo = cn := Option.some.inj hcn
      refine ⟨p, hp, ?_⟩
      simp only [Sys.view, hq, Option.map_none]
      exact ⟨by simp, by simp [Mode.made]⟩
    | some q =>
      simp only
      split
      · rename_i hns
        exact h.procWait hb hp (w := q.view) (by simp [Sys.view, hq]) hns tf
      · rename_i hst
        refine h.setMode hb rfl fun cn hcn => ?_
        obtain rfl : tf.childNo = cn := Option.some.inj hcn
        have hst' : q.state = .stop := by simpa using hst
        refine ⟨p, hp, ?_⟩
        simp only [Sys.view, hq, Option.map_some]
        exact ⟨fun w hw => Option.some.inj hw ▸ hst', fun _ => rfl⟩

theorem syscall {r : Proc Cpu μ} (km : KernMem) (tf : Trapframe) (t : BitVec 64)
    (err : BitVec 32) : Inv none none (syscall net sp km c p r tf t err s) := by
  unfold Determinator.syscall
  split
  · exact h.finish hb hp rfl (by simp [Mode.kid]) tf err _
  · exact h.doPutSync hb hp tf
  · exact h.doGetSync hb hp tf
  · exact h.setMode_plain hb rfl rfl
  · exact h.setMode_plain hb rfl rfl
  · exact h.setMode_plain hb rfl rfl
  · exact h.setMode_plain hb rfl rfl

theorem doPut {cn : Fin 256} (hk : (s.cpu c).mode.kid = some cn) (km : KernMem) (tf : Trapframe)
    (err : BitVec 32) : Inv none none (doPut sp km c p tf cn err s) := by
  unfold Determinator.doPut
  split
  · rename_i r q hr hq
    simp only
    set b := doPutBody sp km tf r.sv.pff q.sv (mapsOf sp r (some q)) with hbody
    obtain ⟨p', hp', hkok⟩ := h.kid c cn (by simp) hk
    obtain rfl : p = p' := Option.some.inj (hp.symm.trans hp')
    have hown : Inv none none (s.upd p fun r => { r with pml4 := b.maps .own }) :=
      h.upd _ fun _ => rfl
    set f : Proc Cpu μ → Proc Cpu μ := fun q =>
      { q with sv := b.sv, pml4 := b.maps .kid, rpml4 := b.maps .ref } with hf
    have hkid : Inv none none ((s.upd p fun r => { r with pml4 := b.maps .own }).upd
        (p.child cn) f) := hown.upd _ fun _ => rfl
    refine hkid.finish hb hp ?_ ?_ tf err b.fin
    · split <;> rfl
    · intro cn' hcn'
      have hcc : cn = cn' := by
        split at hcn'
        · cases hcn'
        · exact Option.some.inj hcn'
      subst hcc
      rw [Sys.upd_view_quiet _ _ f fun _ => rfl, Sys.upd_view_quiet]
      · refine ⟨hkok.1, fun _ => ?_⟩
        simp [Sys.view, hq]
      · exact fun _ => rfl
  · exact h

theorem doGet {cn : Fin 256} (tf : Trapframe) (err : BitVec 32) :
    Inv none none (doGet sp c p tf cn err s) := by
  unfold Determinator.doGet
  split
  · rename_i r hr
    simp only
    set b := doGetBody sp tf ((s.proc (p.child cn)).elim .zero Proc.sv)
      (mapsOf sp r (s.proc (p.child cn))) with hbody
    have hown : Inv none none (s.upd p fun r => { r with pml4 := b.maps .own }) :=
      h.upd _ fun _ => rfl
    have hkid : Inv none none ((s.upd p fun r => { r with pml4 := b.maps .own }).upd
        (p.child cn) fun q =>
          { q with sv := b.sv, pml4 := b.maps .kid, rpml4 := b.maps .ref }) :=
      hown.upd _ fun _ => rfl
    exact hkid.finish hb hp rfl (by simp [Mode.kid]) tf err b.fin
  · exact h

end

/-! ## Every step keeps it -/

theorem userStep (h : Inv none none s) (hb : (s.cpu c).mode.isSched = false)
    (hp : (s.cpu c).proc = some p) {r : Proc Cpu μ} {tf : Trapframe} {e : Event Cpu μ}
    {t : Sys Cpu μ} (ht : userStep net sp c p r tf s e = some t) : Inv none none t := by
  cases e with
  | user _ tf' fx' m' =>
    simp only [Determinator.userStep] at ht
    split at ht
    · obtain rfl := Option.some.inj ht
      have hupd : Inv none none
          (s.upd p fun r => { r with sv := { r.sv with fx := fx' }, pml4 := m' }) :=
        h.upd _ fun _ => rfl
      exact hupd.setMode_plain hb rfl rfl
    · cases ht
  | device _ =>
    obtain rfl := Option.some.inj ht
    exact h.upd _ fun _ => rfl
  | syscall _ t' err km =>
    obtain rfl := Option.some.inj ht
    split
    · exact h.halt
    · exact h.syscall hb hp _ _ _ _
  | trap _ n err =>
    simp only [Determinator.userStep] at ht
    split at ht
    · cases ht
    · obtain rfl := Option.some.inj ht
      split
      · exact h.halt
      · exact h.setMode_plain hb rfl rfl
  | debug _ =>
    simp only [Determinator.userStep] at ht
    split at ht
    · obtain rfl := Option.some.inj ht
      exact h.halt
    · obtain rfl := Option.some.inj ht
      have hupd : Inv none none
          (s.upd p fun q => { q with sv := { q.sv with icnt := r.sv.icnt + 1 } }) :=
        h.upd _ fun _ => rfl
      split <;> exact hupd.setMode_plain hb rfl rfl
  | _ => cases ht

theorem cpuStep (h : Inv none none s) (hp : (s.cpu c).proc = some p) {r : Proc Cpu μ}
    {e : Event Cpu μ} {t : Sys Cpu μ} (ht : cpuStep net sp c p r s e = some t) :
    Inv none none t := by
  unfold Determinator.cpuStep at ht
  split at ht
  · rename_i tf _ hm
    exact h.userStep (by rw [hm]; rfl) hp ht
  · rename_i tf cn _ err km hm
    obtain rfl := Option.some.inj ht
    exact h.doPut (by rw [hm]; rfl) hp (by rw [hm]; rfl) km tf err
  · rename_i tf cn _ err _ hm
    obtain rfl := Option.some.inj ht
    exact h.doGet (by rw [hm]; rfl) hp tf err
  · rename_i tf cn _ hm
    obtain rfl := Option.some.inj ht
    -- the CPU is done with the child before the child is on the queue
    have hb : (s.cpu c).mode.isSched = false := by rw [hm]; rfl
    obtain ⟨p', hp', hkok⟩ := h.kid c cn (by simp) (by rw [hm]; rfl)
    obtain rfl : p = p' := Option.some.inj (hp.symm.trans hp')
    obtain ⟨v, hv⟩ := Option.isSome_iff_exists.1 (hkok.2 (by rw [hm]; rfl))
    have hst : v.state = .stop := hkok.1 v hv
    have hset : Inv none none (s.setMode c (.user tf)) := h.setMode_plain hb rfl rfl
    have hcomm : (Determinator.procReady (p.child cn) s).setMode c (.user tf)
        = Determinator.procReady (p.child cn) (s.setMode c (.user tf)) := by
      unfold Determinator.procReady Sys.setMode Sys.upd
      cases s.readytail <;> rfl
    rw [hcomm]
    refine hset.procReady hv (.inl hst) ?_
    intro d dn q hd hdq he
    obtain ⟨rfl, rfl⟩ := Pid.child_inj he
    by_cases hdc : d = c
    · subst hdc
      simp [Mode.kid] at hd
    · rw [Sys.setMode_cpu_ne _ hdc] at hd hdq
      have hds : (s.cpu d).mode.isSched = false := by
        cases hmd : (s.cpu d).mode <;> simp [hmd, Mode.kid, Mode.isSched] at hd ⊢
      obtain ⟨q₁, v₁, hq₁, hv₁, -, hd₁⟩ := h.busy d (by simp) hds
      obtain ⟨q₂, v₂, hq₂, hv₂, -, hc₂⟩ := h.busy c (by simp) hb
      obtain rfl : q = q₁ := Option.some.inj (hdq.symm.trans hq₁)
      obtain rfl : q = q₂ := Option.some.inj (hp.symm.trans hq₂)
      obtain rfl : v₁ = v₂ := Option.some.inj (hv₁.symm.trans hv₂)
      exact hdc (Option.some.inj (hd₁.symm.trans hc₂))
  · rename_i tf entry _ io hm
    obtain rfl := Option.some.inj ht
    exact h.procRet (by rw [hm]; rfl) hp tf entry io
  · cases ht

/-- A process that migrates moves on to its next state. -/
theorem advance (h : Inv none none s) {v₀ : SchedView Cpu} (hv₀ : s.view p = some v₀)
    (hst : v₀.state = .migr ∨ v₀.state = .away) {f : Proc Cpu μ → Proc Cpu μ} {st : ProcState}
    (hst' : st = .away ∨ st = .pull) (hf : ∀ r, (f r).view = { r.view with state := st }) :
    Inv none none (s.upd p f) := by
  refine h.setView hv₀ (g := fun v => { v with state := st }) hf rfl ?_ ?_ rfl ?_ ?_ <;>
  · rcases hst with e | e <;> rcases hst' with rfl | rfl <;> simp [e]

theorem netStep (h : Inv none none s) {e : Event Cpu μ} {t : Sys Cpu μ}
    (ht : netStep net sp s e = some t) : Inv none none t := by
  have hview : ∀ {p st}, (s.proc p).map Proc.state = some st →
      ∃ v, s.view p = some v ∧ v.state = st := by
    intro p st hp
    obtain ⟨r, hr, rfl⟩ := Option.map_eq_some_iff.1 hp
    exact ⟨r.view, by simp [Sys.view, hr], rfl⟩
  cases e with
  | wakeroot =>
    obtain rfl := Option.some.inj ht
    unfold fileWakeroot
    split
    · rename_i hst
      obtain ⟨v, hv, hs⟩ := hview hst
      exact h.procReady hv (.inl hs) fun d cn q _ _ => Pid.child_ne_root q cn
    · exact h
  | migrated p =>
    simp only [Determinator.netStep] at ht
    split at ht
    · rename_i hst
      obtain rfl := Option.some.inj ht
      obtain ⟨v, hv, hs⟩ := hview hst
      exact h.advance hv (.inl hs) (.inl rfl) fun _ => rfl
    · cases ht
  | arrive p sv =>
    simp only [Determinator.netStep] at ht
    split at ht
    · rename_i hst
      obtain rfl := Option.some.inj ht
      obtain ⟨v, hv, hs⟩ := hview hst
      exact h.advance hv (.inr hs) (.inr rfl) fun _ => rfl
    · cases ht
  | newcomer n home sv =>
    simp only [Determinator.netStep] at ht
    split at ht
    · rename_i hn
      obtain rfl := Option.some.inj ht
      exact h.alloc (by simpa using hn.2.1) (.inr ⟨rfl, rfl⟩) rfl
    · cases ht
  | pulled p m =>
    simp only [Determinator.netStep] at ht
    split at ht
    · rename_i hst
      obtain rfl := Option.some.inj ht
      obtain ⟨v, hv, hs⟩ := hview hst
      set f : Proc Cpu μ → Proc Cpu μ := fun r => { r with pml4 := m }
      have hupd : Inv none none (s.upd p f) := h.upd _ fun _ => rfl
      have hview' : (s.upd p f).view p = some v := by
        rw [Sys.upd_view_quiet _ _ f fun _ => rfl]
        exact hv
      refine hupd.procReady hview' (.inr hs) ?_
      rintro d cn q hd hdq rfl
      obtain ⟨q', hq', hkok⟩ := h.kid d cn (by simp) hd
      obtain rfl : q = q' := Option.some.inj (hdq.symm.trans hq')
      have hws := hkok.1 v hv
      rw [hs] at hws
      cases hws
    · cases ht
  | _ => cases ht

/-- Every step of the system keeps the invariant. -/
theorem step (h : Inv none none s) {e : Event Cpu μ} {t : Sys Cpu μ}
    (ht : step net sp s e = some t) : Inv none none t := by
  unfold Determinator.step at ht
  split at ht
  · cases ht
  · split at ht
    · rename_i c _
      split at ht
      · rename_i hm
        exact h.procSched (by rw [hm]; rfl) ht
      · cases ht
    · obtain ⟨pr, hpr, ht⟩ := Option.bind_eq_some_iff.1 ht
      obtain ⟨p, hp, hr⟩ := Option.bind_eq_some_iff.1 hpr
      obtain ⟨r, -, rfl⟩ := Option.map_eq_some_iff.1 hr
      exact h.cpuStep hp ht
    · exact h.netStep ht

end Inv

/-! ## Whole runs -/

/-- The invariant holds once the root process is ready. -/
theorem inv_init (boot : Cpu) (sv : Procstate) (m : μ) (low : Trapframe) :
    Inv none none (initSys net sp boot sv m low) := by
  set s : Sys Cpu μ :=
    { proc := fun p =>
        if p = .root then some { procAlloc net sp.fresh with sv := sv, pml4 := m } else none
      readyhead := none
      readytail := .head
      cpu := fun c => ⟨if c = boot then some .root else none, .sched⟩
      low := low
      halted := false } with hs
  have hroot : s.view .root = some ⟨.stop, none, none, none⟩ := by simp [hs, Sys.view]; rfl
  have hstate : ∀ {p v}, s.view p = some v → v.state = .stop := by
    intro p v hv
    by_cases hp : p = .root
    · subst hp
      rw [hroot] at hv
      exact Option.some.inj hv ▸ rfl
    · simp [hs, Sys.view, hp] at hv
  -- with all processes stopped and all CPUs in the scheduler there is nothing to show
  have h : Inv none none s := by
    refine ⟨⟨[], ⟨rfl, List.nodup_nil, rfl⟩, ?_⟩, ?_, ?_, ?_, ?_⟩
    · intro p
      simp only [List.not_mem_nil, false_iff, not_and]
      rintro ⟨v, hv, hr⟩
      rw [hstate hv] at hr
      cases hr
    · intro p v hv hr
      rw [hstate hv] at hr
      cases hr
    · intro p v hv _ hr
      rw [hstate hv] at hr
      cases hr
    · intro c _ hc
      simp [hs, Mode.isSched] at hc
    · intro c cn _ hc
      simp [hs, Mode.kid] at hc
  exact h.procReady hroot (.inl rfl) fun d cn q _ _ => Pid.child_ne_root q cn

end Determinator
