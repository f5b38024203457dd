import Determinator.Kern.Icnt

/-!
# The count is exact

With the performance counter the kernel reads what the processor has counted; with single steps it
counts the debug traps, and an `INT` instruction has none. `proc_save` makes up for the `INT` of a
system call that leaves the process, and nothing does for one that returns at once. Where no such
call is made under single steps, the count is exact.
-/

namespace Determinator.Icnt

variable {w : ℕ} {s u : State} {c n : ℕ} {a : Act}

/-! ## The counter -/

/-- The counter gives the instructions since it was set. -/
theorem pmcAmdget_eq (hw : 32 ≤ w) {maxcnt : ℕ} (h0 : 0 < maxcnt) (hm : maxcnt < 2 ^ 31)
    (hn : n ≤ maxcnt + pmcSafety) : pmcAmdget w maxcnt ((2 ^ w - maxcnt + n) % 2 ^ w) = n := by
  have hM : 2 ^ 32 ≤ 2 ^ w := Nat.pow_le_pow_right (by decide) hw
  unfold pmcSafety at hn
  unfold pmcAmdget
  generalize 2 ^ w = M at hM ⊢
  have h1 : maxcnt % M = maxcnt := Nat.mod_eq_of_lt (by omega)
  have h2 : (M - maxcnt) % M = M - maxcnt := Nat.mod_eq_of_lt (by omega)
  simp only [h1, h2]
  by_cases hlt : n < maxcnt
  · rw [Nat.mod_eq_of_lt (by omega : M - maxcnt + n < M), if_neg (by omega)]
    omega
  · have h3 : (M - maxcnt + n) % M = n - maxcnt := by
      rw [Nat.mod_eq_sub_mod (by omega), Nat.mod_eq_of_lt (by omega)]
      omega
    rw [h3, if_pos (by omega)]
    omega

/-- The `INT` is completed and stops a process that is at home. -/
def Call.stops : Call → Bool
  | .ret | .brkpt | .oflow | .unknown => true
  | .inPlace | .wait | .systrap => false

namespace State

/-! ## What is claimed -/

/-- A process that is saved or has stopped has its instructions counted, there are never more than
`imax`, and it stops with `T_ICNT` exactly where they are as many. -/
structure Exact (s : State) : Prop where
  running : s.panicked = false
  le : s.icnt ≤ s.imax
  done_le : s.icnt0 + s.done ≤ s.imax
  saved : s.mode = .saved → s.icnt = s.icnt0 + s.done
  stopped : ∀ t, s.mode = .stop t → s.icnt = s.icnt0 + s.done ∧ (t = .icnt ↔ s.icnt = s.imax)

/-- The instructions that are counted so far. -/
def counted (w : ℕ) (s : State) : ℕ :=
  s.icnt + if 0 < s.pmcmax then pmcAmdget w s.pmcmax s.ctr else 0

/-- The counter is not asked for more than an `int32_t` holds, no instruction changes `FL_TF`, no
system call returns or is unknown under single steps, none that stops the process is its last
instruction, and the counter's interrupt comes from the use that is made of the counter. -/
def Careful (w : ℕ) (s : State) : Act → Prop
  | .start _ _ => True
  | .run pmc _ => pmc = true → s.imax - s.icnt < 2 ^ 31 + pmcSafety
  | .insn flTF => flTF.getD s.flTF = s.flTF
  | .int call => (s.flTF = true → call ≠ .inPlace ∧ call ≠ .unknown) ∧
      (call.stops = true → s.home = true → s.counted w + 1 < s.imax)
  | .resolved => True
  | .fault => True
  | .perfctr => 0 < s.pmcmax → s.since ≠ none

/-! ## The invariant -/

/-- The process is under single steps. -/
structure Stepping (s : State) : Prop where
  flTF : s.flTF = true
  pmcmax : s.pmcmax = 0
  counting : s.counting = false
  lt : s.icnt < s.imax
  near : s.pmc = true → s.imax - s.icnt ≤ pmcSafety

/-- The counter has been set, and the process has executed `n` instructions since. -/
structure Counting (w : ℕ) (s : State) (n : ℕ) : Prop where
  flTF : s.flTF = false
  flIF : s.flIF = true
  pmc : s.pmc = true
  counting : s.counting = true
  pos : 0 < s.pmcmax
  small : s.pmcmax < 2 ^ 31
  goal : s.icnt + s.pmcmax + pmcSafety = s.imax
  le : n ≤ s.pmcmax + pmcSafety
  ctr : s.ctr = (2 ^ w - s.pmcmax + n) % 2 ^ w
  since : s.since = if n < s.pmcmax then none else some (n - s.pmcmax)

/-- Neither of the two is in use. -/
structure Rest (s : State) : Prop where
  flTF : s.flTF = false
  pmcmax : s.pmcmax = 0
  counting : s.counting = false

/-- The invariant. -/
structure Inv (w : ℕ) (s : State) : Prop where
  running : s.panicked = false
  top : s.imax < 2 ^ 32
  rest : s.mode ≠ .run → s.Rest ∧ s.icnt = s.icnt0 + s.done ∧ s.icnt ≤ s.imax
  saved : s.mode = .saved → s.flIF = true
  stopped : ∀ t, s.mode = .stop t → (t = .icnt ↔ s.icnt = s.imax)
  run : s.mode = .run → (s.Stepping ∧ s.icnt = s.icnt0 + s.done) ∨
    ∃ n, s.Counting w n ∧ s.icnt + n = s.icnt0 + s.done

/-- The invariant gives what is claimed. -/
theorem Inv.exact (h : Inv w s) : s.Exact := by
  by_cases hm : s.mode = .run
  · have hle : s.icnt ≤ s.imax ∧ s.icnt0 + s.done ≤ s.imax := by
      obtain ⟨hs, hd⟩ | ⟨n, hc, hd⟩ := h.run hm
      · have := hs.lt
        omega
      · have h1 := hc.goal
        have h2 := hc.le
        omega
    refine ⟨h.running, hle.1, hle.2, ?_, ?_⟩
    · simp [hm]
    · simp [hm]
  · obtain ⟨-, hd, hle⟩ := h.rest hm
    exact ⟨h.running, hle, hd ▸ hle, fun _ => hd, fun t ht => ⟨hd, h.stopped t ht⟩⟩

/-! ## Leaving -/

/-- The process is saved with the count `c`. -/
def leave (s : State) (c : ℕ) : State :=
  { s with icnt := c, flTF := false, flIF := true, pmcmax := 0, counting := false }

@[simp] theorem check_true (s : State) : s.check true = s := rfl

theorem procSave_step (h1 : s.flTF = true) (h2 : s.pmcmax = 0) (h3 : s.counting = false)
    (htop : s.imax < 2 ^ 32) (entry : Entry)
    (hle : (if entry = .complete then s.icnt + 1 else s.icnt) ≤ s.imax) :
    s.procSave w entry = s.leave (if entry = .complete then s.icnt + 1 else s.icnt) := by
  have hu : (if entry = .complete then u32 (s.icnt + 1) else s.icnt) =
      if entry = .complete then s.icnt + 1 else s.icnt := by
    split
    next he =>
      rw [if_pos he] at hle
      exact Nat.mod_eq_of_lt (by omega)
    · rfl
  simp only [State.procSave, h1, h2, hu, if_true, decide_true, check_true, Bool.not_false,
    decide_eq_true hle, leave, h3]

theorem Stepping.procSave (h : s.Stepping) (htop : s.imax < 2 ^ 32) (entry : Entry) :
    s.procSave w entry = s.leave (if entry = .complete then s.icnt + 1 else s.icnt) := by
  have hlt := h.lt
  apply procSave_step h.flTF h.pmcmax h.counting htop
  split <;> omega

theorem Counting.procSave (h : s.Counting w n) (hw : 32 ≤ w) (htop : s.imax < 2 ^ 32)
    (entry : Entry) (hn : entry = .abort → 0 < n) :
    s.procSave w entry = s.leave (if entry = .abort then s.icnt + n - 1 else s.icnt + n) := by
  have hget : pmcAmdget w s.pmcmax s.ctr = n := by
    rw [h.ctr]
    exact pmcAmdget_eq hw h.pos h.small h.le
  have hsum : s.icnt + n ≤ s.imax := by
    have h1 := h.goal
    have h2 := h.le
    omega
  have hu : u32 (s.icnt + n) = s.icnt + n := Nat.mod_eq_of_lt (by omega)
  have hi : (if entry = .abort then sub32 (s.icnt + n) 1 else s.icnt + n) =
      if entry = .abort then s.icnt + n - 1 else s.icnt + n := by
    split
    next he =>
      have := hn he
      unfold sub32 u32
      omega
    · rfl
  have hle : (if entry = .abort then s.icnt + n - 1 else s.icnt + n) ≤ s.imax := by
    split <;> omega
  have hpos := h.pos
  simp only [State.procSave, h.flTF, h.pmc, hget, hu, hi, hpos, if_true, decide_true, check_true,
    Bool.not_false, decide_eq_true hle, leave, h.flIF, Bool.false_eq_true, if_false]

theorem Rest.procSave (h : s.Rest) (hif : s.flIF = true) (hle : s.icnt ≤ s.imax) (entry : Entry) :
    s.procSave w entry = s.leave s.icnt := by
  obtain ⟨h1, h2, h3⟩ := h
  have hs : s.leave s.icnt = s := by
    cases s
    simp_all [leave]
  simp only [State.procSave, h1, h2, decide_true, check_true, Bool.not_false, decide_eq_true hle,
    hs, Bool.false_eq_true, if_false, Nat.lt_irrefl]

theorem procRet_home {t : Trapno} {entry : Entry} (hh : s.home = true)
    (h : s.procSave w entry = s.leave c) :
    s.procRet w t entry = { s.leave c with mode := .stop t } := by
  rw [State.procRet, if_pos hh, h]

theorem procRet_away {t : Trapno} (entry : Entry) (hh : s.home = false)
    (h : s.procSave w (if entry = .complete then .abort else entry) = s.leave c) :
    s.procRet w t entry = { s.leave c with mode := .saved } := by
  rw [State.procRet, if_neg (by simp [hh]), h]

/-- A process that has stopped. -/
theorem inv_stop {t : Trapno} {d : ℕ} (hp : s.panicked = false) (htop : s.imax < 2 ^ 32)
    (hc : c = s.icnt0 + d) (hle : c ≤ s.imax) (ht : t = .icnt ↔ c = s.imax) :
    Inv w { s.leave c with mode := .stop t, done := d } where
  running := hp
  top := htop
  rest _ := ⟨⟨rfl, rfl, rfl⟩, hc, hle⟩
  saved hm := by cases hm
  stopped t' ht' := by
    cases ht'
    exact ht
  run hm := by cases hm

/-- A process that is saved. -/
theorem inv_saved {d : ℕ} (hp : s.panicked = false) (htop : s.imax < 2 ^ 32)
    (hc : c = s.icnt0 + d) (hle : c ≤ s.imax) :
    Inv w { s.leave c with mode := .saved, done := d } where
  running := hp
  top := htop
  rest _ := ⟨⟨rfl, rfl, rfl⟩, hc, hle⟩
  saved _ := rfl
  stopped t ht := by cases ht
  run hm := by cases hm

/-- A process that runs. -/
theorem inv_run (hp : s.panicked = false) (htop : s.imax < 2 ^ 32) (hm : s.mode = .run)
    (h : (s.Stepping ∧ s.icnt = s.icnt0 + s.done) ∨
      ∃ n, s.Counting w n ∧ s.icnt + n = s.icnt0 + s.done) : Inv w s where
  running := hp
  top := htop
  rest hne := absurd hm hne
  saved hs := by simp [hm] at hs
  stopped t ht := by simp [hm] at ht
  run _ := h

/-- `proc_ret` of a trap, where the process is saved with all its instructions counted. -/
theorem inv_procRet {t : Trapno} (hp : s.panicked = false) (htop : s.imax < 2 ^ 32)
    {entry : Entry} (he : entry ≠ .complete) (h : s.procSave w entry = s.leave c)
    (hc : c = s.icnt0 + s.done) (hle : c ≤ s.imax) (ht : t = .icnt ↔ c = s.imax) :
    Inv w (s.procRet w t entry) := by
  cases hh : s.home with
  | true =>
    rw [procRet_home hh h]
    exact inv_stop hp htop hc hle ht
  | false =>
    rw [procRet_away entry hh (by rwa [if_neg he])]
    exact inv_saved hp htop hc hle

/-! ## The steps -/

/-- The number that `proc_run` gives to the counter. -/
theorem i32_pmax {m : ℕ} (hm : m < 2 ^ 31 + pmcSafety) :
    i32 (sub32 m pmcSafety) = (m : ℤ) - pmcSafety := by
  unfold pmcSafety at *
  unfold i32 sub32 u32
  split <;> omega

/-- The process is put on a processor. -/
def board (s : State) (pmc home : Bool) : State :=
  { s with mode := .run, pmc := pmc, home := home }

theorem Rest.procRun (h : s.Rest) (pmc home : Bool) (hif : s.flIF = true) :
    s.procRun w pmc home =
      if s.imax ≤ s.icnt then (s.board pmc home).procRet w .icnt .trap
      else
        let pmax := i32 (sub32 (sub32 s.imax s.icnt) pmcSafety)
        if pmc = true ∧ 0 < pmax then
          { s.board pmc home with
            ctr := pmcAmdset w pmax.toNat, counting := true, since := none, pmcmax := pmax.toNat }
        else { s.board pmc home with flTF := true, flIF := false } := by
  obtain ⟨h1, h2, h3⟩ := h
  simp only [State.procRun, board, h1, h2, hif, Bool.not_false, decide_true, check_true]

/-- A process that starts to run: either way of counting is set up, and the rest is as it was. -/
structure Started (w : ℕ) (s u : State) : Prop where
  counts : u.Stepping ∨ u.Counting w 0
  mode : u.mode = .run
  panicked : u.panicked = s.panicked
  icnt : u.icnt = s.icnt
  imax : u.imax = s.imax
  total : u.icnt0 + u.done = s.icnt0 + s.done

/-- `proc_run` of a process that may still run. -/
theorem Rest.started (h : s.Rest) (hw : 32 ≤ w) (hif : s.flIF = true) (htop : s.imax < 2 ^ 32)
    {pmc : Bool} (home : Bool) (hc : pmc = true → s.imax - s.icnt < 2 ^ 31 + pmcSafety)
    (hlt : s.icnt < s.imax) : Started w s (s.procRun w pmc home) := by
  rw [h.procRun pmc home hif, if_neg (Nat.not_le.2 hlt)]
  have hsub : sub32 s.imax s.icnt = s.imax - s.icnt := by
    unfold sub32 u32
    omega
  simp only [hsub]
  split
  next hpos =>
    obtain ⟨hpmc, hpos⟩ := hpos
    have hc := hc hpmc
    rw [i32_pmax hc] at hpos ⊢
    have hfar : pmcSafety < s.imax - s.icnt := by omega
    have hmax : ((s.imax - s.icnt : ℕ) - (pmcSafety : ℤ)).toNat =
        s.imax - s.icnt - pmcSafety := by omega
    rw [hmax]
    have hM : 2 ^ 32 ≤ 2 ^ w := Nat.pow_le_pow_right (by decide) hw
    have hmod : (s.imax - s.icnt - pmcSafety) % 2 ^ w = s.imax - s.icnt - pmcSafety :=
      Nat.mod_eq_of_lt (by omega)
    refine ⟨.inr ?_, rfl, rfl, rfl, rfl, rfl⟩
    exact
      { flTF := h.flTF
        flIF := hif
        pmc := hpmc
        counting := rfl
        pos := Nat.sub_pos_of_lt hfar
        small := by
          simp only
          omega
        goal := by
          simp only [board]
          omega
        le := Nat.zero_le _
        ctr := by simp only [pmcAmdset, hmod, Nat.add_zero]
        since := by rw [if_pos (Nat.sub_pos_of_lt hfar)] }
  next hpos =>
    refine ⟨.inl ⟨rfl, h.pmcmax, h.counting, hlt, ?_⟩, rfl, rfl, rfl, rfl, rfl⟩
    intro hpmc
    by_contra hfar
    apply hpos
    refine ⟨hpmc, ?_⟩
    rw [i32_pmax (hc hpmc)]
    simp only [board] at hfar
    omega

/-- `proc_run` of a process whose count has expired. -/
theorem Rest.expired (h : s.Rest) (pmc home : Bool) (hif : s.flIF = true) (hge : s.imax ≤ s.icnt) :
    s.procRun w pmc home = (s.board pmc home).procRet w .icnt .trap := by
  rw [h.procRun pmc home hif, if_pos hge]

/-- `proc_run`. -/
theorem Inv.procRun (h : Inv w s) (hw : 32 ≤ w) (hm : s.mode = .saved) {pmc : Bool}
    (home : Bool) (hc : pmc = true → s.imax - s.icnt < 2 ^ 31 + pmcSafety) :
    Inv w (s.procRun w pmc home) := by
  obtain ⟨hr, hd, hle⟩ := h.rest (by simp [hm])
  have hif := h.saved hm
  have htop := h.top
  rcases Nat.lt_or_ge s.icnt s.imax with hlt | hge
  · have hs := hr.started hw hif htop home hc hlt
    apply inv_run (hs.panicked.trans h.running) (hs.imax ▸ htop) hs.mode
    rw [hs.icnt, hs.total]
    exact hs.counts.imp (fun h => ⟨h, hd⟩) fun h => ⟨0, h, hd⟩
  · rw [hr.expired pmc home hif hge]
    have hb : (s.board pmc home).Rest := ⟨hr.flTF, hr.pmcmax, hr.counting⟩
    exact inv_procRet (s := s.board pmc home) h.running htop (by simp)
      (hb.procSave hif hle .trap) hd hle ⟨fun _ => Nat.le_antisymm hle hge, fun _ => rfl⟩

theorem Stepping.tick (h : s.Stepping) : s.tick w = s := by
  rw [State.tick, h.counting]
  rfl

/-- Where the interrupt is not due, the counter may count one more. -/
theorem Counting.lt_of_due (h : s.Counting w n) (hdue : s.due = false) :
    n < s.pmcmax + pmcSafety := by
  by_contra hge
  have hk : s.since = some (n - s.pmcmax) := by
    rw [h.since, if_neg (by omega)]
  rw [due, h.counting, hk] at hdue
  simp only [Bool.true_and, decide_eq_false_iff_not] at hdue
  omega

/-- The counter goes through zero when the process has executed as many as it was set for. -/
theorem tick_mod {M p : ℕ} (hM : 2 ^ 32 ≤ M) (h0 : 0 < p) (hp : p < 2 ^ 31)
    (hn : n < p + pmcSafety) : (M - p + (n + 1)) % M = 0 ↔ n + 1 = p := by
  unfold pmcSafety at hn
  by_cases hlt : n + 1 < p
  · rw [Nat.mod_eq_of_lt (by omega)]
    omega
  · rw [Nat.mod_eq_sub_mod (by omega), Nat.mod_eq_of_lt (by omega)]
    omega

theorem Counting.tick (h : s.Counting w n) (hw : 32 ≤ w) (hdue : s.due = false) :
    (s.tick w).Counting w (n + 1) := by
  have hM : 2 ^ 32 ≤ 2 ^ w := Nat.pow_le_pow_right (by decide) hw
  have hlt := h.lt_of_due hdue
  have hctr : (s.ctr + 1) % 2 ^ w = (2 ^ w - s.pmcmax + (n + 1)) % 2 ^ w := by
    rw [h.ctr, Nat.mod_add_mod, Nat.add_assoc]
  have hzero := tick_mod hM h.pos h.small hlt
  have hs : s.tick w = { s with
      ctr := (s.ctr + 1) % 2 ^ w
      since := if (s.ctr + 1) % 2 ^ w = 0 then some 0 else s.since.map (· + 1) } := by
    rw [State.tick, if_pos h.counting]
  rw [hs]
  refine ⟨h.flTF, h.flIF, h.pmc, h.counting, h.pos, h.small, h.goal, hlt, hctr, ?_⟩
  simp only [hctr, hzero, h.since]
  by_cases h1 : n + 1 = s.pmcmax
  · rw [if_pos h1, if_neg (by omega), h1, Nat.sub_self]
  · rw [if_neg h1]
    by_cases h2 : n < s.pmcmax
    · rw [if_pos h2, if_pos (by omega), Option.map_none]
    · rw [if_neg h2, if_neg (by omega), Option.map_some]
      congr 1
      omega

/-- The processor only changes the counter. -/
theorem tick_eq (s : State) : ∃ ctr since, s.tick w = { s with ctr := ctr, since := since } := by
  unfold State.tick
  split
  · exact ⟨_, _, rfl⟩
  · exact ⟨s.ctr, s.since, rfl⟩

/-- The debug trap under single steps passes its assertions. -/
theorem Stepping.debug_eq (h : s.Stepping) (htop : s.imax < 2 ^ 32) :
    s.debug w = if s.icnt + 1 < s.imax then { s with icnt := s.icnt + 1 }
      else ({ s with icnt := s.icnt + 1 } : State).procRet w .icnt .trap := by
  obtain ⟨h1, h2, h3, h4, h5⟩ := h
  have hu : u32 (s.icnt + 1) = s.icnt + 1 := Nat.mod_eq_of_lt (by omega)
  have hsub : sub32 s.imax s.icnt = s.imax - s.icnt := by
    unfold sub32 u32
    omega
  have hnear : (!s.pmc || decide (s.imax - s.icnt ≤ pmcSafety)) = true := by
    cases hpmc : s.pmc with
    | false => rfl
    | true => simpa using h5 hpmc
  simp only [State.debug, h1, check_true, hsub, hnear, hu]

/-- The debug trap, after an instruction under single steps. -/
theorem Stepping.debug (h : s.Stepping) (hp : s.panicked = false) (htop : s.imax < 2 ^ 32)
    (hm : s.mode = .run) (hd : s.icnt + 1 = s.icnt0 + s.done) : Inv w (s.debug w) := by
  rw [h.debug_eq htop]
  obtain ⟨h1, h2, h3, h4, h5⟩ := h
  split
  next hlt =>
    refine inv_run ?_ ?_ hm (.inl ⟨⟨h1, h2, h3, hlt, fun hpmc => ?_⟩, hd⟩)
    · exact hp
    · exact htop
    · have := h5 hpmc
      simp only
      omega
  next hge =>
    have hmax : s.icnt + 1 = s.imax := by omega
    refine inv_procRet (s := { s with icnt := s.icnt + 1 }) (c := s.icnt + 1) hp htop
      (by simp) ?_ hd ?_ ?_
    · exact procSave_step (s := { s with icnt := s.icnt + 1 }) h1 h2 h3 htop .trap (Nat.le_of_eq hmax)
    · exact Nat.le_of_eq hmax
    · exact ⟨fun _ => hmax, fun _ => rfl⟩

/-- The counter never passes the limit. -/
theorem Counting.sum_le (h : s.Counting w n) : s.icnt + n ≤ s.imax := by
  have h1 := h.goal
  have h2 := h.le
  omega

/-- The interrupt of the counter passes its assertions. -/
theorem Counting.perfctr_eq (h : s.Counting w n) (hw : 32 ≤ w) (htop : s.imax < 2 ^ 32) :
    s.perfctr w =
      if s.icnt + n < s.imax then
        { s with icnt := s.icnt + n, pmcmax := 0, counting := false, flTF := true }
      else
        ({ s with icnt := s.icnt + n, pmcmax := 0, counting := false } : State).procRet w .icnt
          .trap := by
  have hget : pmcAmdget w s.pmcmax s.ctr = n := by
    rw [h.ctr]
    exact pmcAmdget_eq hw h.pos h.small h.le
  have hsum := h.sum_le
  have hu : u32 (s.icnt + n) = s.icnt + n := Nat.mod_eq_of_lt (by omega)
  have hpos : ¬ s.pmcmax = 0 := by
    have := h.pos
    omega
  simp only [State.perfctr, if_neg hpos, h.pmc, check_true, hget, hu, decide_eq_true hsum]

/-- The interrupt of the counter. -/
theorem Counting.perfctr (h : s.Counting w n) (hw : 32 ≤ w) (hp : s.panicked = false)
    (htop : s.imax < 2 ^ 32) (hm : s.mode = .run) (hd : s.icnt + n = s.icnt0 + s.done)
    (hn : s.pmcmax ≤ n) : Inv w (s.perfctr w) := by
  have hgoal := h.goal
  have hsum := h.sum_le
  rw [h.perfctr_eq hw htop]
  split
  next hlt =>
    refine inv_run ?_ ?_ hm (.inl ⟨⟨rfl, rfl, rfl, hlt, fun _ => ?_⟩, hd⟩)
    · exact hp
    · exact htop
    · simp only
      omega
  next hge =>
    have hmax : s.icnt + n = s.imax := by omega
    have hr : ({ s with icnt := s.icnt + n, pmcmax := 0, counting := false } : State).Rest :=
      ⟨h.flTF, rfl, rfl⟩
    refine inv_procRet (s := { s with icnt := s.icnt + n, pmcmax := 0, counting := false }) hp htop
      (by simp) (hr.procSave h.flIF hsum .trap) hd hsum ?_
    exact ⟨fun _ => hmax, fun _ => rfl⟩

/-- A call that is completed and returns to the parent; `c` and `b` are the counts with it and
without it. -/
theorem inv_ret {b : ℕ} {t : Trapno} (hp : s.panicked = false) (htop : s.imax < 2 ^ 32)
    (h : s.procSave w .complete = s.leave c) (h' : s.procSave w .abort = s.leave b)
    (hc : c = s.icnt0 + (s.done + 1)) (hb : b = s.icnt0 + s.done)
    (hlt : s.home = true → c < s.imax) (hle : b ≤ s.imax) (ht : t ≠ .icnt) :
    Inv w { s.procRet w t .complete with done := if s.home then s.done + 1 else s.done } := by
  cases hh : s.home with
  | true =>
    rw [procRet_home hh h]
    have hlt := hlt hh
    exact inv_stop (s := s) (c := c) hp htop hc (Nat.le_of_lt hlt) ⟨fun h => absurd h ht, fun h => by omega⟩
  | false =>
    rw [procRet_away .complete hh (by rwa [if_pos rfl])]
    exact inv_saved (s := s) (c := b) hp htop hb hle

/-- An `INT` under single steps. -/
theorem Stepping.int (h : s.Stepping) (hp : s.panicked = false) (htop : s.imax < 2 ^ 32)
    (hd : s.icnt = s.icnt0 + s.done) {call : Call} (h1 : call ≠ .inPlace ∧ call ≠ .unknown)
    (h2 : call.stops = true → s.home = true → s.icnt + 1 < s.imax) : Inv w (s.int w call) := by
  have hlt := h.lt
  have hsave := fun entry => h.procSave (w := w) htop entry
  have hret : ∀ t : Trapno, t ≠ .icnt → (s.home = true → s.icnt + 1 < s.imax) →
      Inv w { s.procRet w t .complete with done := if s.home then s.done + 1 else s.done } :=
    fun t ht h2 => inv_ret hp htop (hsave .complete) (hsave .abort) (by simp; omega) (by simpa)
      (by simpa using h2) (by simp; omega) ht
  cases call with
  | inPlace => exact absurd rfl h1.1
  | unknown => exact absurd rfl h1.2
  | wait =>
    simp only [State.int]
    rw [hsave .abort]
    exact inv_saved (s := s) hp htop hd (Nat.le_of_lt hlt)
  | systrap =>
    refine inv_procRet hp htop (by simp) (hsave .abort) hd (Nat.le_of_lt hlt) ?_
    simp
    omega
  | ret => exact hret .syscall (by simp) (h2 rfl)
  | brkpt => exact hret .brkpt (by simp) (h2 rfl)
  | oflow => exact hret .oflow (by simp) (h2 rfl)

/-- An `INT` that the counter has counted as its `n + 1`st instruction. -/
theorem Counting.int (h : s.Counting w (n + 1)) (hw : 32 ≤ w) (hp : s.panicked = false)
    (htop : s.imax < 2 ^ 32) (hm : s.mode = .run) (hd : s.icnt + n = s.icnt0 + s.done) {call : Call}
    (h2 : call.stops = true → s.home = true → s.icnt + n + 1 < s.imax) :
    Inv w (s.int w call) := by
  have hle : s.icnt + n + 1 ≤ s.imax := by
    have h1 := h.goal
    have h2 := h.le
    omega
  have hsave := fun entry => h.procSave hw htop entry (fun _ => Nat.succ_pos n)
  have hret : ∀ t : Trapno, t ≠ .icnt → (s.home = true → s.icnt + n + 1 < s.imax) →
      Inv w { s.procRet w t .complete with done := if s.home then s.done + 1 else s.done } :=
    fun t ht h2 => inv_ret hp htop (hsave .complete) (hsave .abort) (by simp; omega)
      (by simp; omega) (by simpa [Nat.add_assoc] using h2) (by simp; omega) ht
  cases call with
  | inPlace =>
    refine inv_run hp htop hm (.inr ⟨n + 1, ?_, ?_⟩)
    · exact ⟨h.flTF, h.flIF, h.pmc, h.counting, h.pos, h.small, h.goal, h.le, h.ctr, h.since⟩
    · show s.icnt + (n + 1) = s.icnt0 + (s.done + 1)
      omega
  | unknown =>
    simp only [State.int]
    cases hh : s.home with
    | true =>
      rw [procRet_home hh (hsave .trap)]
      have := h2 rfl hh
      refine inv_stop (s := s) (c := s.icnt + (n + 1)) hp htop (by omega) (by omega) ?_
      simp only [reduceCtorEq, false_iff]
      omega
    | false =>
      rw [procRet_away .trap hh (hsave .trap)]
      exact inv_saved (s := s) (c := s.icnt + (n + 1)) hp htop (by omega) (by omega)
  | wait =>
    simp only [State.int]
    rw [hsave .abort]
    exact inv_saved (s := s) (c := s.icnt + (n + 1) - 1) (d := s.done) hp htop (by omega) (by omega)
  | systrap =>
    refine inv_procRet hp htop (by simp) (hsave .abort) (by simp; omega) (by simp; omega) ?_
    simp
    omega
  | ret => exact hret .syscall (by simp) (h2 rfl)
  | brkpt => exact hret .brkpt (by simp) (h2 rfl)
  | oflow => exact hret .oflow (by simp) (h2 rfl)

theorem Counting.counted (h : s.Counting w n) (hw : 32 ≤ w) : s.counted w = s.icnt + n := by
  rw [State.counted, if_pos h.pos, h.ctr, pmcAmdget_eq hw h.pos h.small h.le]

theorem Stepping.counted (h : s.Stepping) : s.counted w = s.icnt := by
  rw [State.counted, h.pmcmax]
  rfl

/-- The invariant is kept by an instruction other than `INT`. -/
theorem Inv.insn (h : Inv w s) (hw : 32 ≤ w) (hm : s.mode = .run) (hdue : s.due = false)
    {flTF : Option Bool} (hc : flTF.getD s.flTF = s.flTF) {u : State}
    (hu : u = { s.tick w with
      done := (s.tick w).done + 1, flTF := flTF.getD (s.tick w).flTF }) :
    Inv w (if s.flTF then u.debug w else u) := by
  obtain ⟨hs, hd⟩ | ⟨n, hn, hd⟩ := h.run hm
  · rw [hs.tick] at hu
    have hu : u = { s with done := s.done + 1 } := by rw [hu, hc]
    rw [if_pos hs.flTF, hu]
    have hs' : ({ s with done := s.done + 1 } : State).Stepping :=
      ⟨hs.flTF, hs.pmcmax, hs.counting, hs.lt, hs.near⟩
    apply hs'.debug h.running h.top hm
    show s.icnt + 1 = s.icnt0 + (s.done + 1)
    omega
  · have ht := hn.tick hw hdue
    obtain ⟨ctr, since, heq⟩ := tick_eq (w := w) s
    rw [heq] at hu ht
    have hu : u = { s with ctr := ctr, since := since, done := s.done + 1 } := by rw [hu, hc]
    rw [if_neg (by simp [hn.flTF]), hu]
    refine inv_run h.running h.top hm (.inr ⟨n + 1, ?_, ?_⟩)
    · exact ⟨ht.flTF, ht.flIF, ht.pmc, ht.counting, ht.pos, ht.small, ht.goal, ht.le, ht.ctr,
        ht.since⟩
    · show s.icnt + (n + 1) = s.icnt0 + (s.done + 1)
      omega

/-- The invariant is kept by an `INT`. -/
theorem Inv.int (h : Inv w s) (hw : 32 ≤ w) (hm : s.mode = .run) (hdue : s.due = false)
    {call : Call} (hc : s.Careful w (.int call)) : Inv w ((s.tick w).int w call) := by
  obtain ⟨hc1, hc2⟩ := hc
  obtain ⟨hs, hd⟩ | ⟨n, hn, hd⟩ := h.run hm
  · rw [hs.tick]
    rw [hs.counted] at hc2
    exact hs.int h.running h.top hd (hc1 hs.flTF) hc2
  · have ht := hn.tick hw hdue
    rw [hn.counted hw] at hc2
    obtain ⟨ctr, since, heq⟩ := tick_eq (w := w) s
    rw [heq] at ht ⊢
    exact ht.int hw h.running h.top hm hd hc2

/-- The invariant is kept by a trap that stops the process. -/
theorem Inv.fault (h : Inv w s) (hw : 32 ≤ w) (hm : s.mode = .run) (hdue : s.due = false) :
    Inv w (s.procRet w .fault .trap) := by
  obtain ⟨hs, hd⟩ | ⟨n, hn, hd⟩ := h.run hm
  · have hlt := hs.lt
    refine inv_procRet h.running h.top (by simp) (hs.procSave h.top .trap) hd ?_ ?_
    · exact Nat.le_of_lt hlt
    · simp
      omega
  · have hlt := hn.lt_of_due hdue
    have hgoal := hn.goal
    refine inv_procRet h.running h.top (by simp) (hn.procSave hw h.top .trap (by simp)) hd ?_ ?_
    · simp
      omega
    · simp
      omega

/-- The invariant is kept by an interrupt of the counter. -/
theorem Inv.perfctr (h : Inv w s) (hw : 32 ≤ w) (hm : s.mode = .run)
    (hc : 0 < s.pmcmax → s.since ≠ none) : Inv w (s.perfctr w) := by
  obtain ⟨hs, hd⟩ | ⟨n, hn, hd⟩ := h.run hm
  · rw [State.perfctr, if_pos hs.pmcmax]
    exact h
  · apply hn.perfctr hw h.running h.top hm hd
    by_contra hlt
    apply hc hn.pos
    rw [hn.since, if_pos (Nat.not_le.1 hlt)]

/-- The invariant is kept by every careful step. -/
theorem Inv.step (h : Inv w s) (hw : 32 ≤ w) (hc : s.Careful w a) (hu : s.step w a = some u) :
    Inv w u := by
  unfold State.step at hu
  rw [if_neg (by simp [h.running])] at hu
  cases a with
  | start icnt imax =>
    simp only at hu
    split at hu
    next hg =>
      cases hu
      obtain ⟨hst, hle, htop⟩ := hg
      obtain ⟨hr, -, -⟩ := h.rest (by
        intro hm
        simp [State.startable, hm] at hst)
      exact ⟨h.running, htop, fun _ => ⟨⟨rfl, hr.pmcmax, hr.counting⟩, rfl, hle⟩, fun _ => rfl,
        fun t ht => (by cases ht), fun hm => (by cases hm)⟩
    · cases hu
  | run pmc home =>
    simp only at hu
    split at hu
    next hm =>
      cases hu
      exact h.procRun hw hm home hc
    · cases hu
  | insn flTF =>
    simp only at hu
    split at hu
    next hg =>
      cases hu
      exact h.insn hw hg.1 hg.2 hc rfl
    · cases hu
  | int call =>
    simp only at hu
    split at hu
    next hg =>
      cases hu
      exact h.int hw hg.1 hg.2 hc
    · cases hu
  | resolved =>
    simp only at hu
    split at hu
    · cases hu
      exact h
    · cases hu
  | fault =>
    simp only at hu
    split at hu
    next hg =>
      cases hu
      exact h.fault hw hg.1 hg.2
    · cases hu
  | perfctr =>
    simp only at hu
    split at hu
    next hm =>
      cases hu
      exact h.perfctr hw hm hc
    · cases hu

theorem Inv.init : Inv w State.init where
  running := rfl
  top := by decide
  rest _ := ⟨⟨rfl, rfl, rfl⟩, rfl, Nat.le_refl _⟩
  saved hm := by cases hm
  stopped t ht := by cases ht
  run hm := by cases hm

/-- In every run of careful steps the count is exact. -/
theorem run_exact (hw : 32 ≤ w) (h : Run w (Careful w) s) : s.Exact := by
  have hi : Inv w s := by
    induction h with
    | init => exact .init
    | step _ hc hu ih => exact ih.step hw hc hu
  exact hi.exact

/-- A process with the counter makes a system call, goes over to single steps and waits. -/
theorem run_exact_wait :
    ∃ u, Run 48 (Careful 48) u ∧ u.mode = .saved ∧ u.icnt = 2 ∧ u.Exact := by
  have h1 : Run 48 (Careful 48) _ := Run.init.step (a := .start 0 82) trivial rfl
  have h2 : Run 48 (Careful 48) _ := h1.step (a := .run true true) (fun _ => by decide) rfl
  have h3 : Run 48 (Careful 48) _ := h2.step (a := .int .inPlace) ⟨nofun, nofun⟩ rfl
  have h4 : Run 48 (Careful 48) _ := h3.step (a := .insn none) rfl rfl
  have h5 : Run 48 (Careful 48) _ := h4.step (a := .perfctr) (fun _ => nofun) rfl
  have h6 : Run 48 (Careful 48) _ :=
    h5.step (a := .int .wait) ⟨fun _ => ⟨nofun, nofun⟩, nofun⟩ rfl
  exact ⟨_, h6, rfl, rfl, run_exact (by decide) h6⟩

/-- A list of steps, each of which meets the condition where it is taken, continues a run. -/
theorem Run.steps {Q : State → Act → Prop} (h : Run w Q s) (as : List Act)
    (hQ : ∀ as₁ a as₂ u, as = as₁ ++ a :: as₂ → s.steps w as₁ = some u → Q u a)
    (hu : s.steps w as = some u) : Run w Q u := by
  induction as generalizing s with
  | nil =>
    obtain rfl := Option.some.inj hu
    exact h
  | cons a as ih =>
    obtain ⟨v, hv, hu⟩ := Option.bind_eq_some_iff.1 hu
    refine ih (h.step (hQ [] a as s rfl rfl) hv) (fun as₁ c as₂ w has hw => ?_) hu
    apply hQ (a :: as₁) c as₂ w (by rw [has]; rfl)
    simpa [State.steps, hv] using hw

/-- A system call under single steps is not counted. -/
theorem run_not_exact_call :
    ∃ u, Run 48 (fun _ _ => True) u ∧ u.mode = .stop .icnt ∧ u.icnt = 1 ∧ u.done = 2 ∧
      ¬ u.Exact := by
  refine ⟨_, Run.steps .init [.start 0 1, .run false true, .int .inPlace, .insn none]
    (fun _ _ _ _ _ _ => trivial) rfl, rfl, rfl, rfl, ?_⟩
  intro h
  exact absurd h.done_le (by decide)

end State

end Determinator.Icnt
