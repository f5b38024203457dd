import Determinator.Kern.Cons

/-!
# Waking the root process

The root process looks for input in one critical section and goes to sleep in another. A wakeup
that falls in between finds a process that is not asleep, and is lost. Where no wakeup falls there
while there is input, the root process does not sleep through it.
-/

namespace Determinator.Console

namespace State

variable {Cpu : Type} {s t : State Cpu} {a : Act Cpu}

/-- There is a character that the root process has not got. -/
def Unread (s : State Cpu) : Prop := s.cons.rpos ≠ s.cons.wpos

/-- The root process sleeps, there is input, and no interrupt is left that would wake it. -/
def Oversleeps (s : State Cpu) : Prop :=
  (∀ c, s.quiet c = true) ∧ s.root = .stop ∧ s.Unread

/-- A wakeup does not fall between the `cons_io` of the root process and its going to sleep while
there is input. -/
def Heard (s : State Cpu) (a : Act Cpu) : Prop :=
  ∀ c d, a = .wakeroot c → s.root = .idle d → ¬ s.Unread

/-- Input that has come after the `cons_io` of the root process still has its wakeup ahead. -/
structure Pending (s : State Cpu) : Prop where
  idle : ∀ d, s.halted = false → s.root = .idle d → s.Unread → ∃ c, s.intr c = .wake
  stop : s.root = .stop → s.Unread → ∃ c, s.quiet c = false

/-- Away from `file_io` and from sleep there is nothing to show. -/
theorem Pending.of_root (hi : ∀ d, s.root ≠ .idle d) (hs : s.root ≠ .stop) : s.Pending :=
  ⟨fun d _ h => absurd h (hi d), fun h => absurd h hs⟩

theorem quiet_of_wake {c : Cpu} (h : s.intr c = .wake) : s.quiet c = false := by
  simp [quiet, h]

/-- `cons_io` that returns without having done anything has found no input. -/
theorem consIo_idle (h : s.consIo.1 = false) (hh : s.consIo.2.halted = false) :
    ¬ s.consIo.2.Unread := by
  unfold consIo at h hh ⊢
  split at h
  · simp_all
  next hlt =>
    rw [if_neg hlt] at hh ⊢
    simp only at h hh ⊢
    split at h
    · simp_all
    next hfull =>
      rw [if_neg hfull] at hh ⊢
      split at h
      next hz =>
        rw [if_pos hz]
        unfold Unread
        simp only
        omega
      · cases h

theorem consIo_root : s.consIo.2.root = s.root := by
  unfold consIo
  grind

variable [DecidableEq Cpu]

theorem Pending.consIo {c : Cpu} (h : s.root = .io c) (ht : s.step .consIo = some t) :
    t.Pending := by
  unfold step at ht
  split at ht
  · cases ht
  next hh =>
    simp only [h, Option.some.injEq] at ht
    split at ht
    · subst ht
      constructor
      · intro d hh
        cases hh
      · intro hs
        rw [consIo_root, h] at hs
        cases hs
    · cases hd : s.consIo.1 with
      | true =>
        rw [hd] at ht
        subst ht
        exact .of_root (by simp) (by simp)
      | false =>
        rw [hd] at ht
        subst ht
        constructor
        · intro d hp _ hu
          exact absurd hu (consIo_idle hd hp)
        · intro hs
          simp at hs

/-- A step that meets the condition leaves the wakeups that are needed. -/
theorem Pending.step (hp : s.Pending) (ha : s.Heard a) (ht : s.step a = some t) :
    t.Pending := by
  have hstep := ht
  unfold State.step at ht
  split at ht
  · cases ht
  next hh =>
    rw [Bool.not_eq_true] at hh
    cases a with
    | user files =>
      cases hr : s.root with
      | user c =>
        simp only [hr] at ht
        split at ht
        · obtain rfl := Option.some.inj ht
          exact .of_root (by simp) (by simp)
        · cases ht
      | io c | idle c | stop | ready => simp [hr] at ht
    | ret =>
      cases hr : s.root with
      | user c =>
        simp only [hr] at ht
        split at ht
        · obtain rfl := Option.some.inj ht
          exact .of_root (by simp) (by simp)
        · cases ht
      | io c | idle c | stop | ready => simp [hr] at ht
    | consIo =>
      cases hr : s.root with
      | io c => exact Pending.consIo hr hstep
      | user c | idle c | stop | ready => simp [hr] at ht
    | sleep =>
      cases hr : s.root with
      | idle d =>
        simp only [hr, Option.some.injEq] at ht
        subst ht
        refine ⟨fun _ _ h => by simp at h, fun _ hu => ?_⟩
        obtain ⟨c, hc⟩ := hp.idle d hh hr hu
        exact ⟨c, quiet_of_wake hc⟩
      | user c | io c | stop | ready => simp [hr] at ht
    | intr c cs =>
      simp only at ht
      split at ht
      next hq =>
        obtain rfl := Option.some.inj ht
        constructor
        · intro d _ hr hu
          obtain ⟨e, he⟩ := hp.idle d hh hr hu
          have hec : e ≠ c := by
            rintro rfl
            rw [quiet_of_wake he] at hq
            exact absurd hq.1 (by simp)
          exact ⟨e, by simp [setIntr, hec, he]⟩
        · intro hr hu
          exact ⟨c, by simp [setIntr, quiet]⟩
      · cases ht
    | store c =>
      cases hi : s.intr c with
      | begin cs =>
        simp only [hi, Option.some.injEq] at ht
        subst ht
        exact ⟨fun _ _ _ _ => ⟨c, by simp [setIntr]⟩, fun _ _ => ⟨c, by simp [setIntr, quiet]⟩⟩
      | done | wake => simp [hi] at ht
    | wakeroot c =>
      cases hi : s.intr c with
      | wake =>
        simp only [hi, Option.some.injEq] at ht
        subst ht
        cases hr : s.root with
        | user d | io d => exact .of_root (by simp [setIntr, hr]) (by simp [setIntr, hr])
        | idle d =>
          refine ⟨fun e _ _ hu => absurd hu (ha c d rfl hr), fun h => ?_⟩
          simp [setIntr, hr] at h
        | stop => exact .of_root (by simp) (by simp)
        | ready => exact .of_root (by simp [setIntr, hr]) (by simp [setIntr, hr])
      | done | begin cs => simp [hi] at ht
    | sched c =>
      cases hr : s.root with
      | ready =>
        simp only [hr] at ht
        split at ht
        · obtain rfl := Option.some.inj ht
          exact .of_root (by simp) (by simp)
        · cases ht
      | user d | io d | idle d | stop => simp [hr] at ht

/-- A list of sections that meet the condition wherever they run continues a run. -/
theorem Run.steps {P : State Cpu → Act Cpu → Prop} (h : Run P s) (as : List (Act Cpu))
    (hP : ∀ a ∈ as, ∀ u, P u a) (ht : s.steps as = some t) : Run P t := by
  induction as generalizing s with
  | nil =>
    obtain rfl := Option.some.inj ht
    exact h
  | cons a as ih =>
    obtain ⟨u, hu, ht⟩ := Option.bind_eq_some_iff.1 ht
    exact ih (h.step (hP a (by simp) s) hu) (fun b hb => hP b (by simp [hb])) ht

/-- In every run in which no wakeup falls between the root process's look for input and its going
to sleep while there is input, the root process does not sleep through input. -/
theorem run_not_oversleeps (h : Run Heard s) : ¬ s.Oversleeps := by
  have hp : s.Pending := by
    induction h with
    | init cons files => exact .of_root (by simp [State.init]) (by simp [State.init])
    | step hr ha ht ih => exact ih.step ha ht
  rintro ⟨hq, hr, hu⟩
  obtain ⟨c, hc⟩ := hp.stop hr hu
  rw [hq c] at hc
  cases hc

/-- The empty input buffer. -/
def empty : Buffer where
  buf := fun _ => 0
  rpos := 0
  wpos := 0

/-- The console files at the start. -/
def noFiles : RootFiles where
  consin := []
  consout := []
  exited := false

/-- The root process goes to sleep on one CPU, and a character comes on the other. -/
def asleep : List (Act Bool) :=
  [.sched false, .ret, .consIo, .sleep, .intr true [65], .store true]

/-- The wakeup falls between the look for input and the going to sleep. -/
def missed : List (Act Bool) :=
  [.sched false, .ret, .consIo, .intr true [65], .store true, .wakeroot true, .sleep]

theorem run_not_oversleeps_asleep :
    ∃ t : State Bool, (init empty noFiles).steps (asleep ++ [.wakeroot true]) = some t ∧
      Run Heard t ∧ ¬ t.Oversleeps := by
  have hr : ∀ t : State Bool, (init empty noFiles).steps asleep = some t → Run Heard t := by
    intro t
    apply Run.steps (.init empty noFiles)
    intro a ha u c d h
    subst h
    simp [asleep] at ha
  have ht : ∀ t u : State Bool, (init empty noFiles).steps asleep = some t → t.root = .stop →
      t.step (.wakeroot true) = some u → Run Heard u := by
    intro t u hs hr' hu
    refine (hr t hs).step ?_ hu
    intro c d _ h
    rw [hr'] at h
    cases h
  refine ⟨_, rfl, ht _ _ rfl rfl rfl, ?_⟩
  exact run_not_oversleeps (ht _ _ rfl rfl rfl)

theorem run_oversleeps_missed :
    ∃ t : State Bool, (init empty noFiles).steps missed = some t ∧
      Run (fun _ _ => True) t ∧ t.Oversleeps := by
  refine ⟨_, rfl, ?_, ?_, rfl, ?_⟩
  · exact Run.steps (.init empty noFiles) missed (fun _ _ _ => trivial) rfl
  · intro c
    cases c <;> rfl
  · intro h
    exact absurd h (by decide)

end State

end Determinator.Console
