import Determinator.Kern.Limits
import Determinator.Proc.Counting

/-!
# Limits from the parent

The parent may store any count and any limit in a child, and `proc_run` takes them as they are. The
assertions on them hold where the count is not above the limit, where the two are not too far apart
for the performance counter, and where the flag for single steps is left alone.
-/

namespace Determinator.Icnt

variable {w : ℕ} {s : State} {n : ℕ}

namespace Child

variable {c d : Child} {a : Act}

/-! ## What is claimed -/

/-- The steps that the parent, the child and the processor can take, where the child does not set
`FL_TF`. -/
def Provided (_ : Child) : Act → Prop
  | .insn flTF => flTF ≠ some true
  | _ => True

/-- A child that counts is run with a count of at most the limit and, with the performance counter,
with a difference that an `int32_t` holds; a `PUT` that ends with a fault leaves `FL_IF` set and
`FL_TF` clear; no instruction changes `FL_TF`; the counter's interrupt comes from the use that is
made of the counter. -/
def Within (c : Child) : Act → Prop
  | .run pmc _ => c.counts = true → c.sv.icnt ≤ c.sv.imax ∧
      (pmc = true → c.sv.imax - c.sv.icnt < 2 ^ 31 + pmcSafety)
  | .putAborted _ _ _ flTF flIF => flTF = false ∧ flIF = true
  | .insn flTF => flTF.getD c.sv.flTF = c.sv.flTF
  | .perfctr => 0 < c.sv.pmcmax → c.sv.since ≠ none
  | _ => True

/-! ## The invariant -/

/-- The count of a child that does not run. -/
structure Idle (c : Child) (s : State) : Prop where
  running : s.panicked = false
  top : s.imax < 2 ^ 32
  rest : s.Rest
  flIF : c.counts = true → s.flIF = true

/-- The child runs. Where the performance counter is in use, it has counted `n` instructions. -/
inductive Runs (w : ℕ) (c : Child) (n : ℕ) : Prop
  | stepping : c.counts = true → c.sv.Stepping → Runs w c n
  | counting : c.counts = true → c.sv.Counting w n → Runs w c n
  | free : c.counts = false → c.sv.Rest → Runs w c n

/-- The invariant. -/
structure Inv (w : ℕ) (c : Child) : Prop where
  running : c.sv.panicked = false
  top : c.sv.imax < 2 ^ 32
  idle : c.sv.mode ≠ .run → c.Idle c.sv
  run : c.sv.mode = .run → ∃ n, c.Runs w n

@[simp] theorem counts_setSv (c : Child) (s : State) : (c.setSv s).counts = c.counts := rfl

@[simp] theorem sv_setSv (c : Child) (s : State) : (c.setSv s).sv = s := rfl

@[simp] theorem check_true (c : Child) : c.check true = c := rfl

theorem counts_device (c : Child) :
    ({ c with pff := c.pff ||| pffUsefpu } : Child).counts = c.counts := by
  have h : (c.pff ||| pffUsefpu) &&& pffIcnt = c.pff &&& pffIcnt := by
    rw [BitVec.and_comm, BitVec.and_or_distrib_left, BitVec.and_comm]
    simp [pffIcnt, pffUsefpu]
  simp only [counts, h]

/-- A child that stops or is saved. -/
theorem Idle.inv {m : Mode} (h : c.Idle s) (hm : m ≠ .run) :
    Inv w (c.setSv { s with mode := m }) where
  running := h.running
  top := h.top
  idle _ := ⟨h.running, h.top, ⟨h.rest.flTF, h.rest.pmcmax, h.rest.counting⟩, h.flIF⟩
  run hr := absurd hr hm

/-- A child that runs. -/
theorem Runs.inv (h : c.Runs w n) (hp : c.sv.panicked = false) (htop : c.sv.imax < 2 ^ 32)
    (hm : c.sv.mode = .run) : Inv w c where
  running := hp
  top := htop
  idle hne := absurd hm hne
  run _ := ⟨n, h⟩

/-! ## Leaving -/

/-- `leave` makes an idle child. -/
theorem idle_leave (hp : s.panicked = false) (htop : s.imax < 2 ^ 32) (i : ℕ) :
    c.Idle (s.leave i) :=
  ⟨hp, htop, ⟨rfl, rfl, rfl⟩, fun _ => rfl⟩

/-- `proc_save` of a running child passes its assertions. -/
theorem Runs.procSave (h : c.Runs w n) (hw : 32 ≤ w) (hp : c.sv.panicked = false)
    (htop : c.sv.imax < 2 ^ 32) (entry : Entry) (hn : entry = .abort → 0 < n) :
    ∃ s, c.procSave w entry = c.setSv s ∧ c.Idle s ∧ s.home = c.sv.home := by
  cases h with
  | stepping hc hs =>
    rw [Child.procSave, if_pos hc, hs.procSave htop entry]
    exact ⟨_, rfl, idle_leave hp htop _, rfl⟩
  | counting hc hs =>
    rw [Child.procSave, if_pos hc, hs.procSave hw htop entry hn]
    exact ⟨_, rfl, idle_leave hp htop _, rfl⟩
  | free hc hs =>
    rw [Child.procSave, if_neg (by simp [hc]), hs.flTF, hs.pmcmax]
    exact ⟨c.sv, rfl, ⟨hp, htop, hs, by simp [hc]⟩, rfl⟩

/-- `proc_ret` of a running child. -/
theorem Runs.procRet (h : c.Runs w n) (hw : 32 ≤ w) (hp : c.sv.panicked = false)
    (htop : c.sv.imax < 2 ^ 32) (entry : Entry) (hn : entry ≠ .trap → 0 < n) (t : Trapno) :
    Inv w (c.procRet w t entry) := by
  rw [Child.procRet]
  split
  · obtain ⟨s, hs, hi, -⟩ := h.procSave hw hp htop entry (by
      rintro rfl
      exact hn nofun)
    simp only [hs]
    exact hi.inv nofun
  · obtain ⟨s, hs, hi, -⟩ := h.procSave hw hp htop
      (if entry = .complete then .abort else entry) (by
        intro ha
        apply hn
        rintro rfl
        cases ha)
    simp only [hs]
    exact hi.inv nofun

/-- `proc_ret` on an idle state, as `proc_run` and the traps of the count call it. -/
theorem inv_procRet (hp : s.panicked = false) (htop : s.imax < 2 ^ 32)
    {i : ℕ} (hs : s.procSave w .trap = s.leave i) :
    Inv w (c.setSv (s.procRet w .icnt .trap)) := by
  cases hh : s.home with
  | true =>
    rw [State.procRet_home hh hs]
    exact (idle_leave hp htop i).inv nofun
  | false =>
    rw [State.procRet_away .trap hh hs]
    exact (idle_leave hp htop i).inv nofun

/-! ## The steps -/

/-- `proc_run`. -/
theorem Inv.procRun (h : Inv w c) (hw : 32 ≤ w) (hm : c.sv.mode = .saved) {pmc home : Bool}
    (hb : c.Within (.run pmc home)) : Inv w (c.procRun w pmc home) := by
  obtain ⟨-, htop, hr, hif⟩ := h.idle (by simp [hm])
  rw [Child.procRun]
  split
  next hc =>
    obtain ⟨hle, hnear⟩ := hb hc
    have hif := hif hc
    rcases Nat.lt_or_ge c.sv.icnt c.sv.imax with hlt | hge
    · have hs := hr.started hw hif htop home hnear hlt
      have hruns : (c.setSv (c.sv.procRun w pmc home)).Runs w 0 := by
        rcases hs.counts with hs | hs
        · exact .stepping hc hs
        · exact .counting hc hs
      exact hruns.inv (hs.panicked.trans h.running) (hs.imax ▸ htop) hs.mode
    · rw [hr.expired pmc home hif hge]
      have hb : (c.sv.board pmc home).Rest := ⟨hr.flTF, hr.pmcmax, hr.counting⟩
      exact inv_procRet (s := c.sv.board pmc home) h.running htop (hb.procSave hif hle .trap)
  next hc =>
    have hc : c.counts = false := by simpa using hc
    have hruns : (c.setSv { c.sv with mode := .run, pmc := pmc, home := home }).Runs w 0 :=
      .free hc ⟨hr.flTF, hr.pmcmax, hr.counting⟩
    have hi := hruns.inv (w := w) h.running htop rfl
    simpa only [sv_setSv, hr.flTF, hr.pmcmax, Bool.not_false, decide_true, check_true] using hi

/-- The processor completes an instruction. -/
theorem Runs.tick (h : c.Runs w n) (hw : 32 ≤ w) (hdue : c.sv.due = false) :
    (c.setSv (c.sv.tick w)).Runs w (n + 1) := by
  cases h with
  | stepping hc hs =>
    rw [hs.tick]
    exact .stepping hc hs
  | counting hc hs => exact .counting hc (hs.tick hw hdue)
  | free hc hs =>
    have ht : c.sv.tick w = c.sv := by
      rw [State.tick, hs.counting]
      rfl
    rw [ht]
    exact .free hc hs

/-- The debug trap under single steps. -/
theorem inv_debug (hc : c.counts = true) (hs : c.sv.Stepping) (hp : c.sv.panicked = false)
    (htop : c.sv.imax < 2 ^ 32) (hm : c.sv.mode = .run) : Inv w (c.debug w) := by
  rw [Child.debug, if_pos hc, hs.debug_eq htop]
  obtain ⟨h1, h2, h3, h4, h5⟩ := hs
  split
  next hlt =>
    have hruns : (c.setSv { c.sv with icnt := c.sv.icnt + 1 }).Runs w 0 := by
      refine .stepping hc ⟨h1, h2, h3, hlt, fun hpmc => ?_⟩
      have := h5 hpmc
      simp only [sv_setSv]
      omega
    exact hruns.inv hp htop hm
  next hge =>
    have hmax : c.sv.icnt + 1 = c.sv.imax := by omega
    apply inv_procRet (s := { c.sv with icnt := c.sv.icnt + 1 }) (i := c.sv.icnt + 1) hp htop
    exact State.procSave_step (s := { c.sv with icnt := c.sv.icnt + 1 }) h1 h2 h3 htop .trap
      (Nat.le_of_eq hmax)

/-- An instruction other than `INT`. -/
theorem Inv.insn (h : Inv w c) (hw : 32 ≤ w) (hm : c.sv.mode = .run) (hdue : c.sv.due = false)
    {flTF : Option Bool} (hb : flTF.getD c.sv.flTF = c.sv.flTF) {d : Child}
    (hd : d = c.setSv { c.sv.tick w with flTF := flTF.getD (c.sv.tick w).flTF }) :
    Inv w (if c.sv.flTF then d.debug w else d) := by
  obtain ⟨n, hr⟩ := h.run hm
  obtain ⟨ctr, since, heq⟩ := State.tick_eq (w := w) c.sv
  have hd' : d = c.setSv (c.sv.tick w) := by
    rw [hd, heq]
    simp only [hb]
  have ht := hr.tick hw hdue
  rw [hd', heq]
  rw [heq] at ht
  cases ht with
  | stepping hc hs =>
    have hf : c.sv.flTF = true := hs.flTF
    rw [if_pos hf]
    exact inv_debug hc hs h.running h.top hm
  | counting hc hs =>
    have hf : c.sv.flTF = false := hs.flTF
    rw [if_neg (by simp [hf])]
    exact (Runs.counting hc hs).inv h.running h.top hm
  | free hc hs =>
    have hf : c.sv.flTF = false := hs.flTF
    rw [if_neg (by simp [hf])]
    exact (Runs.free (n := 0) hc hs).inv h.running h.top hm

/-- An `INT` instruction. -/
theorem Inv.int (h : Inv w c) (hw : 32 ≤ w) (hm : c.sv.mode = .run) (hdue : c.sv.due = false)
    (call : Call) : Inv w ((c.setSv (c.sv.tick w)).int w call) := by
  obtain ⟨n, hr⟩ := h.run hm
  have ht := hr.tick hw hdue
  obtain ⟨ctr, since, heq⟩ := State.tick_eq (w := w) c.sv
  rw [heq] at ht ⊢
  have hret := fun (t : Trapno) (entry : Entry) =>
    ht.procRet hw h.running h.top entry (fun _ => n.succ_pos) t
  cases call with
  | inPlace => exact ht.inv h.running h.top hm
  | wait =>
    obtain ⟨s, hs, hi, -⟩ := ht.procSave hw h.running h.top .abort fun _ => n.succ_pos
    simp only [Child.int, hs]
    exact hi.inv nofun
  | systrap => exact hret .fault .abort
  | ret => exact hret .syscall .complete
  | brkpt => exact hret .brkpt .complete
  | oflow => exact hret .oflow .complete
  | unknown => exact hret .syscall .trap

/-- The interrupt of the counter. -/
theorem Inv.perfctr (h : Inv w c) (hw : 32 ≤ w) (hm : c.sv.mode = .run)
    (hb : 0 < c.sv.pmcmax → c.sv.since ≠ none) : Inv w (c.perfctr w) := by
  obtain ⟨n, hr⟩ := h.run hm
  cases hr with
  | stepping hc hs =>
    rw [Child.perfctr, if_pos hs.pmcmax]
    exact h
  | free hc hs =>
    rw [Child.perfctr, if_pos hs.pmcmax]
    exact h
  | counting hc hs =>
    have hpos := hs.pos
    have hgoal := hs.goal
    have hsum := hs.sum_le
    have hn : c.sv.pmcmax ≤ n := by
      by_contra hlt
      apply hb hpos
      rw [hs.since, if_pos (Nat.not_le.1 hlt)]
    rw [Child.perfctr, if_neg (Nat.ne_of_gt hpos), if_pos hc, hs.perfctr_eq hw h.top]
    split
    next hlt =>
      have hruns : (c.setSv { c.sv with
          icnt := c.sv.icnt + n, pmcmax := 0, counting := false, flTF := true }).Runs w 0 := by
        refine .stepping hc ⟨rfl, rfl, rfl, hlt, fun _ => ?_⟩
        simp only [sv_setSv]
        omega
      exact hruns.inv h.running h.top hm
    next hge =>
      have hr : ({ c.sv with
          icnt := c.sv.icnt + n, pmcmax := 0, counting := false } : State).Rest :=
        ⟨hs.flTF, rfl, rfl⟩
      exact inv_procRet (s := { c.sv with icnt := c.sv.icnt + n, pmcmax := 0, counting := false })
        h.running h.top (hr.procSave hs.flIF hsum .trap)

/-- What the parent stores in a child that it may start. -/
theorem Inv.store (h : Inv w c) (hm : c.sv.mode ≠ .run) (pff icnt imax : BitVec 32) :
    Inv w (c.store pff icnt imax false true) := by
  obtain ⟨-, -, hr, -⟩ := h.idle hm
  exact ⟨h.running, imax.isLt, fun _ => ⟨h.running, imax.isLt, ⟨rfl, hr.pmcmax, hr.counting⟩,
    fun _ => rfl⟩, fun hrun => absurd hrun hm⟩

theorem not_run_of_startable (h : s.startable = true) : s.mode ≠ .run := by
  intro hm
  simp [State.startable, hm] at h

theorem guard_some {p : Prop} [Decidable p] {c d : Child} (h : (if p then some c else none) = some d) :
    p ∧ c = d := by
  simpa [Option.ite_none_right_eq_some] using h

/-- The invariant is kept by every step within the limits. -/
theorem Inv.step (h : Inv w c) (hw : 32 ≤ w) (hb : c.Within a) (hd : c.step w a = some d) :
    Inv w d := by
  unfold Child.step at hd
  rw [if_neg (by simp [h.running])] at hd
  cases a with
  | put pff icnt imax =>
    obtain ⟨hs, rfl⟩ := guard_some hd
    exact h.store (not_run_of_startable hs) pff icnt imax
  | putAborted pff icnt imax flTF flIF =>
    obtain ⟨hs, rfl⟩ := guard_some hd
    obtain ⟨rfl, rfl⟩ := hb
    exact h.store (not_run_of_startable hs) pff icnt imax
  | start =>
    obtain ⟨hs, rfl⟩ := guard_some hd
    exact (h.idle (not_run_of_startable hs)).inv nofun
  | run pmc home =>
    obtain ⟨hm, rfl⟩ := guard_some hd
    exact h.procRun hw hm hb
  | insn flTF =>
    obtain ⟨⟨hm, hdue⟩, rfl⟩ := guard_some hd
    exact h.insn hw hm hdue hb rfl
  | int call =>
    obtain ⟨⟨hm, hdue⟩, rfl⟩ := guard_some hd
    exact h.int hw hm hdue call
  | device =>
    obtain ⟨⟨hm, -⟩, rfl⟩ := guard_some hd
    obtain ⟨n, hr⟩ := h.run hm
    have hc := counts_device c
    have hr' : ({ c with pff := c.pff ||| pffUsefpu } : Child).Runs w n := by
      cases hr with
      | stepping h hs => exact .stepping (hc.trans h) hs
      | counting h hs => exact .counting (hc.trans h) hs
      | free h hs => exact .free (hc.trans h) hs
    exact hr'.inv h.running h.top hm
  | resolved =>
    obtain ⟨-, rfl⟩ := guard_some hd
    exact h
  | fault =>
    obtain ⟨⟨hm, -⟩, rfl⟩ := guard_some hd
    obtain ⟨n, hr⟩ := h.run hm
    exact hr.procRet hw h.running h.top .trap (by simp) .fault
  | perfctr =>
    obtain ⟨hm, rfl⟩ := guard_some hd
    exact h.perfctr hw hm hb

theorem Inv.init : Inv w Child.init where
  running := rfl
  top := by decide
  idle _ := ⟨rfl, by decide, ⟨rfl, rfl, rfl⟩, by decide⟩
  run hm := by cases hm

/-- In every run within the limits, no assertion on the count fails. -/
theorem run_limits (hw : 32 ≤ w) (h : Run w Within c) : c.sv.panicked = false := by
  have hi : Inv w c := by
    induction h with
    | init => exact .init
    | step _ hb hd ih => exact ih.step hw hb hd
  exact hi.running

/-- A child with a limit of two instructions returns from a system call, with the counter's limit
below the margin. -/
theorem run_limits_small : ∃ d, Run 48 Within d ∧ d.counts = true ∧
    d.sv.mode = .stop .icnt ∧ d.sv.panicked = false := by
  have h1 : Run 48 Within _ := Run.init.step (a := .put pffIcnt 5 7) trivial rfl
  have h2 : Run 48 Within _ := h1.step (a := .start) trivial rfl
  have h3 : Run 48 Within _ := h2.step (a := .run true true) (fun _ => by decide) rfl
  have h4 : Run 48 Within _ := h3.step (a := .int .inPlace) trivial rfl
  have h5 : Run 48 Within _ := h4.step (a := .insn none) rfl rfl
  have h6 : Run 48 Within _ := h5.step (a := .insn none) rfl rfl
  exact ⟨_, h6, by decide, rfl, run_limits (by decide) h6⟩

/-- A count above the limit, a limit too far from the count, and an instruction that clears `FL_TF`
each stop the kernel. -/
theorem run_panics : (∃ d, Run 48 Provided d ∧ d.sv.icnt = 1 ∧ d.sv.imax = 0 ∧ d.sv.panicked = true) ∧
    (∃ d, Run 48 Provided d ∧ d.sv.imax = 2 ^ 31 + 80 ∧ d.sv.panicked = true) ∧
    ∃ d, Run 48 Provided d ∧ d.sv.imax = 7 ∧ d.sv.panicked = true := by
  refine ⟨?_, ?_, ?_⟩
  · have h1 : Run 48 Provided _ := Run.init.step (a := .put pffIcnt 1 0) trivial rfl
    have h2 : Run 48 Provided _ := h1.step (a := .start) trivial rfl
    have h3 : Run 48 Provided _ := h2.step (a := .run false true) trivial rfl
    exact ⟨_, h3, rfl, rfl, rfl⟩
  · have h1 : Run 48 Provided _ := Run.init.step (a := .put pffIcnt 0 (2 ^ 31 + 80)) trivial rfl
    have h2 : Run 48 Provided _ := h1.step (a := .start) trivial rfl
    have h3 : Run 48 Provided _ := h2.step (a := .run true true) trivial rfl
    have h4 : Run 48 Provided _ := h3.step (a := .insn none) nofun rfl
    exact ⟨_, h4, rfl, rfl⟩
  · have h1 : Run 48 Provided _ := Run.init.step (a := .put pffIcnt 0 7) trivial rfl
    have h2 : Run 48 Provided _ := h1.step (a := .start) trivial rfl
    have h3 : Run 48 Provided _ := h2.step (a := .run false true) trivial rfl
    have h4 : Run 48 Provided _ := h3.step (a := .insn (some false)) nofun rfl
    exact ⟨_, h4, rfl, rfl⟩

end Child

end Determinator.Icnt
