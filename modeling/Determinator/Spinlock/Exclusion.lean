import Determinator.Kern.Spinlock

/-!
# Spin locks exclude

Whatever functions of a lock the CPUs call, and in whatever order they take their steps, a lock is a mutex
(`refines_mutex`): `spinlock_holding`, which reads two words of the lock while other CPUs write them, answers rightly,
and a call panics only where the caller's code misuses it. So the sections between `spinlock_acquire` and
`spinlock_release` have the effect they have one after the other (`sections_serial`).
-/

namespace Determinator

namespace Spinlock

variable {C S : Type} [DecidableEq C] {s s' : State C S} {o : Option C} {c c' : C} {pc : Pc} {a : Act S}
  {as : List (C × Act S)} {es : List (MutexEvent C S)} {d : S}

/-- The CPU has the lock: it has done its exchange in `spinlock_acquire`, and not the one in `spinlock_release`. -/
def Pc.holds : Pc → Bool
  | .caller held | .locked _ held | .cpu _ held | .panic _ held => held
  | .spin => false
  | .record | .clear | .unlock => true

/-- The CPU is in `lk->cpu`. -/
def Pc.recorded : Pc → Bool
  | .caller held | .locked _ held | .cpu _ held | .panic _ held => held
  | .spin | .record | .unlock => false
  | .clear => true

/-- If the CPU has panicked, it has acquired a lock that it had, or released one that it did not have. -/
def Pc.Rightful : Pc → Prop
  | .panic .acquire held => held = true
  | .panic .release held => held = false
  | .panic .holding _ => False
  | _ => True

theorem Pc.holds_of_recorded (h : pc.recorded = true) : pc.holds = true := by
  cases pc <;> first | exact h | rfl

@[simp] theorem answer_holds (held : Bool) (k : Call) : (answer held held k).holds = held := by
  cases k <;> cases held <;> rfl

@[simp] theorem answer_recorded (held : Bool) (k : Call) : (answer held held k).recorded = held := by
  cases k <;> cases held <;> rfl

theorem answer_rightful (held : Bool) (k : Call) : (answer held held k).Rightful := by
  cases k <;> cases held <;> first | rfl | trivial

/-- A lock, where CPU `o` has it. -/
structure Inv (s : State C S) (o : Option C) : Prop where
  free : s.locked = 0 ↔ o = none
  holds : ∀ c, (s.pc c).holds = true ↔ o = some c
  recorded : ∀ c, (s.pc c).recorded = true ↔ s.cpu = some c
  rightful : ∀ c, (s.pc c).Rightful

omit [DecidableEq C] in
theorem Inv.init (d : S) : Inv (State.init (C := C) d) none := by
  constructor
  · exact ⟨fun _ => rfl, fun _ => rfl⟩
  · intro c
    simp [State.init, Pc.holds]
  · intro c
    simp [State.init, Pc.recorded]
  · intro c
    trivial

/-- What is so of all CPUs stays so if it is so of the place where one of them is. -/
theorem forall_goto {P : C → Pc → Prop} (hc : P c pc) (h : ∀ c', c' ≠ c → P c' (s.pc c')) (c' : C) :
    P c' ((s.goto c pc).pc c') := by
  by_cases hcc : c' = c
  · subst hcc
    change P c' (Function.update s.pc c' pc c')
    rw [Function.update_self]
    exact hc
  · change P c' (Function.update s.pc c pc c')
    rw [Function.update_of_ne hcc]
    exact h c' hcc

/-- A CPU goes on to a place where it has the lock as before. -/
theorem Inv.goto (h : Inv s o) (hh : pc.holds = (s.pc c).holds) (hr : pc.recorded = (s.pc c).recorded)
    (hg : pc.Rightful) : Inv (s.goto c pc) o where
  free := h.free
  holds := forall_goto (P := fun c pc => pc.holds = true ↔ o = some c) (by rw [hh, h.holds]) fun c' _ => h.holds c'
  recorded := by
    refine forall_goto (P := fun c pc => pc.recorded = true ↔ s.cpu = some c) ?_ fun c' _ => h.recorded c'
    rw [hr, h.recorded]
  rightful := forall_goto (P := fun _ pc => pc.Rightful) hg fun c' _ => h.rightful c'

/-- The exchange in `spinlock_acquire`, when it has found the lock free. -/
theorem Inv.take (h : Inv s none) (hpc : s.pc c = .spin) : Inv { s.goto c .record with locked := 1 } (some c) where
  free := by simp
  holds := by
    refine forall_goto (P := fun c' pc => pc.holds = true ↔ some c = some c') (by simp [Pc.holds]) fun c' hne => ?_
    simp [h.holds, hne.symm]
  recorded := by
    refine forall_goto (P := fun c' pc => pc.recorded = true ↔ s.cpu = some c') ?_ fun c' _ => h.recorded c'
    rw [← h.recorded, hpc]
    rfl
  rightful := forall_goto (P := fun _ pc => pc.Rightful) trivial fun c' _ => h.rightful c'

omit [DecidableEq C] in
/-- Another CPU than the owner is not in `lk->cpu`. -/
theorem Inv.not_recorded (h : Inv s (some c)) (hne : c' ≠ c) : ¬(s.pc c').recorded = true := by
  intro hr
  have ho : some c = some c' := (h.holds c').1 (Pc.holds_of_recorded hr)
  exact hne (Option.some.inj ho).symm

theorem Inv.record (h : Inv s (some c)) : Inv { s.goto c (.caller true) with cpu := some c } (some c) where
  free := h.free
  holds := by
    refine forall_goto (P := fun c' pc => pc.holds = true ↔ some c = some c') (by simp [Pc.holds]) fun c' _ => h.holds c'
  recorded := by
    refine forall_goto (P := fun c' pc => pc.recorded = true ↔ some c = some c') (by simp [Pc.recorded]) fun c' hne => ?_
    simp [h.not_recorded hne, hne.symm]
  rightful := forall_goto (P := fun _ pc => pc.Rightful) trivial fun c' _ => h.rightful c'

theorem Inv.clear (h : Inv s (some c)) : Inv { s.goto c .unlock with cpu := none } (some c) where
  free := h.free
  holds := by
    refine forall_goto (P := fun c' pc => pc.holds = true ↔ some c = some c') (by simp [Pc.holds]) fun c' _ => h.holds c'
  recorded := by
    refine forall_goto (P := fun c' pc => pc.recorded = true ↔ none = some c') (by simp [Pc.recorded]) fun c' hne => ?_
    simp [h.not_recorded hne]
  rightful := forall_goto (P := fun _ pc => pc.Rightful) trivial fun c' _ => h.rightful c'

/-- The exchange in `spinlock_release`. -/
theorem Inv.drop (h : Inv s (some c)) (hpc : s.pc c = .unlock) :
    Inv { s.goto c (.caller false) with locked := 0 } none where
  free := by simp
  holds := by
    refine forall_goto (P := fun c' pc => pc.holds = true ↔ none = some c') (by simp [Pc.holds]) fun c' hne => ?_
    simp [h.holds, hne.symm]
  recorded := by
    refine forall_goto (P := fun c' pc => pc.recorded = true ↔ s.cpu = some c') ?_ fun c' _ => h.recorded c'
    rw [← h.recorded, hpc]
    rfl
  rightful := forall_goto (P := fun _ pc => pc.Rightful) trivial fun c' _ => h.rightful c'

/-- The answer of `spinlock_holding` is right, and the function goes on rightly. -/
theorem Inv.answer {b held : Bool} {k : Call} (h : Inv s o) (hh : (s.pc c).holds = held)
    (hr : (s.pc c).recorded = held) (hb : b = held) :
    Inv (s.goto c (answer held b k)) o ∧ Mutex.Run ⟨o, s.data⟩ [.ask c b] ⟨o, s.data⟩ := by
  subst hb
  refine ⟨h.goto ?_ ?_ (answer_rightful b k), .single (.ask c b _ ?_)⟩
  · rw [answer_holds, hh]
  · rw [answer_recorded, hr]
  · rw [← hh]
    exact h.holds c

theorem Inv.go (h : Inv s o) (hgo : go s c (s.pc c) = some (s', es)) :
    ∃ o', Inv s' o' ∧ Mutex.Run ⟨o, s.data⟩ es ⟨o', s'.data⟩ := by
  have hpc := h.holds c
  cases hc : s.pc c with
  | caller held => simp [hc, Spinlock.go] at hgo
  | panic k held => simp [hc, Spinlock.go] at hgo
  | locked k held =>
    rw [hc] at hgo hpc
    by_cases hl : s.locked = 0
    · simp only [Spinlock.go, if_pos hl, Option.some.injEq, Prod.mk.injEq] at hgo
      obtain ⟨rfl, rfl⟩ := hgo
      obtain rfl := h.free.1 hl
      obtain rfl : held = false := by simpa [Pc.holds] using hpc
      exact ⟨none, h.answer (by rw [hc]; rfl) (by rw [hc]; rfl) rfl⟩
    · simp only [Spinlock.go, if_neg hl, Option.some.injEq, Prod.mk.injEq] at hgo
      obtain ⟨rfl, rfl⟩ := hgo
      exact ⟨o, h.goto (by rw [hc]; rfl) (by rw [hc]; rfl) trivial, .nil⟩
  | cpu k held =>
    rw [hc] at hgo
    simp only [Spinlock.go, Option.some.injEq, Prod.mk.injEq] at hgo
    obtain ⟨rfl, rfl⟩ := hgo
    have hb : decide (s.cpu = some c) = held := by
      have hr := h.recorded c
      rw [hc] at hr
      cases held <;> simpa [Pc.recorded] using hr
    exact ⟨o, h.answer (by rw [hc]; rfl) (by rw [hc]; rfl) hb⟩
  | spin =>
    rw [hc] at hgo
    by_cases hl : s.locked = 0
    · simp only [Spinlock.go, if_pos hl, Option.some.injEq, Prod.mk.injEq] at hgo
      obtain ⟨rfl, rfl⟩ := hgo
      obtain rfl := h.free.1 hl
      exact ⟨some c, h.take hc, .single (.take c s.data)⟩
    · simp only [Spinlock.go, if_neg hl, Option.some.injEq, Prod.mk.injEq] at hgo
      obtain ⟨rfl, rfl⟩ := hgo
      refine ⟨o, ⟨?_, h.holds, h.recorded, h.rightful⟩, .nil⟩
      rw [← h.free]
      exact ⟨fun h₁ => absurd h₁ (by simp), fun h₀ => absurd h₀ hl⟩
  | record =>
    rw [hc] at hgo hpc
    simp only [Spinlock.go, Option.some.injEq, Prod.mk.injEq] at hgo
    obtain ⟨rfl, rfl⟩ := hgo
    obtain rfl := hpc.1 rfl
    exact ⟨some c, h.record, .nil⟩
  | clear =>
    rw [hc] at hgo hpc
    simp only [Spinlock.go, Option.some.injEq, Prod.mk.injEq] at hgo
    obtain ⟨rfl, rfl⟩ := hgo
    obtain rfl := hpc.1 rfl
    exact ⟨some c, h.clear, .nil⟩
  | unlock =>
    rw [hc] at hgo hpc
    simp only [Spinlock.go, Option.some.injEq, Prod.mk.injEq] at hgo
    obtain ⟨rfl, rfl⟩ := hgo
    obtain rfl := hpc.1 rfl
    exact ⟨none, h.drop hc, .single (.drop c s.data)⟩

theorem Inv.step (h : Inv s o) (hs : step s c a = some (s', es)) :
    ∃ o', Inv s' o' ∧ Mutex.Run ⟨o, s.data⟩ es ⟨o', s'.data⟩ := by
  cases a with
  | go => exact h.go hs
  | call k =>
    cases hc : s.pc c with
    | caller held =>
      simp only [Spinlock.step, hc, Option.some.injEq, Prod.mk.injEq] at hs
      obtain ⟨rfl, rfl⟩ := hs
      exact ⟨o, h.goto (by rw [hc]; rfl) (by rw [hc]; rfl) trivial, .nil⟩
    | _ => simp [Spinlock.step, hc] at hs
  | act f =>
    cases hc : s.pc c with
    | caller held =>
      cases held with
      | false => simp [Spinlock.step, hc] at hs
      | true =>
        simp only [Spinlock.step, hc, Option.some.injEq, Prod.mk.injEq] at hs
        obtain ⟨rfl, rfl⟩ := hs
        obtain rfl : o = some c := (h.holds c).1 (by rw [hc]; rfl)
        exact ⟨some c, ⟨h.free, h.holds, h.recorded, h.rightful⟩, .single (.act c s.data f)⟩
    | _ => simp [Spinlock.step, hc] at hs

theorem Inv.run (h : Inv s o) (hr : run as s = some (s', es)) :
    ∃ o', Inv s' o' ∧ Mutex.Run ⟨o, s.data⟩ es ⟨o', s'.data⟩ := by
  induction as generalizing s o es with
  | nil =>
    simp only [Spinlock.run, Option.some.injEq, Prod.mk.injEq] at hr
    obtain ⟨rfl, rfl⟩ := hr
    exact ⟨o, h, .nil⟩
  | cons ca as ih =>
    obtain ⟨c, a⟩ := ca
    simp only [Spinlock.run, Option.bind_eq_bind, Option.bind_eq_some_iff, Prod.exists, Option.some.injEq,
      Prod.mk.injEq] at hr
    obtain ⟨s₁, es₁, hs, s₂, es₂, hr, rfl, rfl⟩ := hr
    obtain ⟨o₁, h₁, hm₁⟩ := h.step hs
    obtain ⟨o₂, h₂, hm₂⟩ := ih h₁ hr
    exact ⟨o₂, h₂, hm₁.trans hm₂⟩

/-- **A spin lock is a mutex**, whatever the CPUs call and in whatever order they take their steps. -/
theorem refines_mutex (d : S) (h : run as (State.init d) = some (s, es)) :
    ∃ o, Mutex.Run ⟨none, d⟩ es ⟨o, s.data⟩ ∧ (∀ c, (s.pc c).holds = true ↔ o = some c) ∧ ∀ c, (s.pc c).Rightful := by
  obtain ⟨o, hi, hm⟩ := (Inv.init d).run h
  exact ⟨o, hm, hi.holds, hi.rightful⟩

/-- One CPU waits while the other one has the lock. -/
def contended : List (Bool × Act ℕ) :=
  [(false, .call .acquire), (true, .call .acquire), (false, .go), (true, .go), (false, .go), (true, .go),
    (false, .go), (false, .act (· + 1)), (false, .call .release), (true, .go), (false, .go), (false, .go),
    (false, .go), (true, .go), (false, .go), (true, .go), (true, .go), (true, .act (· * 2)), (false, .call .holding),
    (false, .go), (false, .go), (true, .call .acquire), (true, .go), (true, .go)]

theorem refines_mutex_sample : ∃ s es, run contended (State.init 1) = some (s, es) ∧ ∃ o,
    Mutex.Run ⟨none, 1⟩ es ⟨o, s.data⟩ ∧ (∀ c, (s.pc c).holds = true ↔ o = some c) ∧ ∀ c, (s.pc c).Rightful := by
  obtain ⟨s, es, h⟩ : ∃ s es, run contended (State.init 1) = some (s, es) := ⟨_, _, rfl⟩
  exact ⟨s, es, h, refines_mutex 1 h⟩

/-- **Sections of CPUs** with a spin lock are serial. -/
theorem sections_serial (d : S) (h : run as (State.init d) = some (s, es)) :
    ∃ o, (∀ c, (s.pc c).holds = true ↔ o = some c) ∧ Mutex.Serial d es ⟨o, s.data⟩ := by
  obtain ⟨o, hi, hm⟩ := (Inv.init d).run h
  exact ⟨o, hi.holds, hm.serial⟩

theorem sections_serial_sample : ∃ s es, run contended (State.init 1) = some (s, es) ∧
    ∃ o, (∀ c, (s.pc c).holds = true ↔ o = some c) ∧ Mutex.Serial 1 es ⟨o, s.data⟩ := by
  obtain ⟨s, es, h⟩ : ∃ s es, run contended (State.init 1) = some (s, es) := ⟨_, _, rfl⟩
  exact ⟨s, es, h, sections_serial 1 h⟩

end Spinlock

end Determinator
