import Determinator.Dsthread.Queues

/-!
# Where the threads are

`Placed s p` ties the queue `p t` of every thread to its state and to the code it is in: the
children that run are those of the run queue, a thread on a wait queue is blocked in the matching
state, and the one thread that the master runs is on a wait queue only while it is about to block.
With `Queued` this is `Sched`, and every step of the system keeps it.
-/

set_option linter.unusedSectionVars false

namespace Determinator.Dsthread

/-! ## Code that may fail -/

theorem bind_ok {α β : Type} {x : Except Site α} {f : α → Except Site β} {b : β} :
    x >>= f = .ok b ↔ ∃ a, x = .ok a ∧ f a = .ok b := by
  cases x with
  | error w => simp [bind, Except.bind]
  | ok a => simp [bind, Except.bind]

theorem check_ok {P : Prop} [Decidable P] {w : Site} {u : Unit} : check P w = .ok u ↔ P := by
  unfold check
  split <;> simp_all

theorem pure_ok {α : Type} {a b : α} : (pure a : Except Site α) = .ok b ↔ a = b := by
  simp [pure, Except.pure]

theorem bind_error {α β : Type} {x : Except Site α} {f : α → Except Site β} {w : Site} :
    x >>= f = .error w ↔ x = .error w ∨ ∃ a, x = .ok a ∧ f a = .error w := by
  cases x with
  | error w' => simp [bind, Except.bind]
  | ok a => simp [bind, Except.bind]

theorem check_error {P : Prop} [Decidable P] {w w' : Site} :
    check P w = .error w' ↔ ¬ P ∧ w = w' := by
  unfold check
  split <;> simp_all

/-- An assertion that holds is passed. -/
theorem check_bind {α : Type} {P : Prop} [Decidable P] (h : P) (w : Site)
    (f : Unit → Except Site α) : check P w >>= f = f () := by
  unfold check
  rw [if_pos h]
  rfl

theorem pure_error {α : Type} {a : α} {w : Site} : (pure a : Except Site α) = .error w ↔ False := by
  simp [pure, Except.pure]

/-! ## The invariant -/

/-- The queue on which a thread may be that is about to do this. -/
def After.Fits : After → Option Queue → Prop
  | .lock m, q => q = some (.mutex m)
  | .wait _, q => ∃ c, q = some (.cond c)
  | _, q => q = none

/-- The queue on which a thread may be that is in the master at this point. -/
def Pc.Fits : Pc → Option Queue → Prop
  | .events a, q | .reqs _ a, q | .done a, q => a.Fits q
  | .failed _, q => q ≠ some .run ∧ q ≠ some .ready
  | _, q => q = none

/-- The thread is in `tevents` and will do `a`, or has failed. -/
def Pc.In (a : After) : Pc → Prop
  | .events b | .reqs _ b | .done b => b = a
  | .failed _ => True
  | _ => False

/-- The `tlock` of a child at this point, if a child can be there. -/
def Pc.level : Pc → Option ℕ
  | .user | .test _ _ => some 0
  | .lockSync _ | .waitSync _ _ | .createSync _ | .joinSync _ | .exitSync | .events _ | .reqs _ _
  | .done _ | .dead => none
  | _ => some 1

theorem Pc.Fits_of_level {pc : Pc} {n : ℕ} (h : pc.level = some n) : pc.Fits none := by
  cases pc <;> simp_all [Pc.level, Pc.Fits]

/-- The points at which a thread can be made ready to go on. -/
def Pc.Wakes : Pc → Prop
  | .ret | .grab _ | .lock _ | .joinFree _ => True
  | _ => False

theorem Pc.Wakes.fits {pc : Pc} (h : pc.Wakes) : pc.Fits none := by
  cases pc <;> simp_all [Pc.Wakes, Pc.Fits]

/-- A thread that has not exited. -/
def Live (μ : Mem) (t : Tid) : Prop := (μ.th t).state ≠ .free ∧ (μ.th t).state ≠ .exit

/-- The master runs code for the thread. -/
def Sys.cur (s : Sys) (t : Tid) : Bool := s.who = .thread t

/-- What a thread can be doing: it resumes at `eip` when it is blocked or ready, and is at `pc`
when it runs. -/
inductive Spot (eip pc : Pc) : (up cur : Bool) → Option Queue → TState → Prop
  /-- It runs as a child. -/
  | child : Spot eip pc true false (some .run) .run
  /-- The scheduler will resume it. -/
  | ready (h : eip.Wakes) : Spot eip pc false false (some .ready) .run
  /-- The master runs it. -/
  | current {q : Option Queue} (h : pc.Fits q) : Spot eip pc false true q .run
  /-- It waits for a mutex. -/
  | mutex {m : MutexId} (h : eip = .grab m) : Spot eip pc false false (some (.mutex m)) .mutex
  /-- It waits on a condition variable. -/
  | cond {c : CondId} {m : MutexId} (h : eip = .lock m) :
      Spot eip pc false false (some (.cond c)) .cond
  /-- It waits for a thread to exit. -/
  | joining {j : Tid} (h : eip = .joinFree j) : Spot eip pc false false none .mutex
  /-- It has exited, or was never created. -/
  | gone {st : TState} (h : st = .free ∨ st = .exit) : Spot eip pc false false none st

/-- Thread `u` blocks, or is about to, until `j` exits. -/
def Joining (s : Sys) (p : Tid → Option Queue) (u j : Tid) : Prop :=
  (s.cur u = true ∧ (s.pc u).In (.join j)) ∨
  (s.cur u = false ∧ p u = none ∧ (s.mem.th u).state = .mutex ∧ (s.mem.th u).eip = .joinFree j)

/-- Thread `j` has woken its joiner and is about to exit. -/
def Exiting (s : Sys) (j : Tid) : Prop := s.cur j = true ∧ (s.pc j).In .exit

/-- The threads' states and program points agree with the queues they are on. -/
structure Spots (s : Sys) (p : Tid → Option Queue) : Prop where
  spot : ∀ t, Spot (s.mem.th t).eip (s.pc t) (s.up t) (s.cur t) (p t) (s.mem.th t).state
  joiner : ∀ j u, Live s.mem j → (s.mem.th j).joiner = some u → Joining s p u j ∨ Exiting s j

namespace Spot

variable {eip pc eip' pc' : Pc} {up cur : Bool} {q : Option Queue} {st : TState}

theorem up_iff (h : Spot eip pc up cur q st) : up = true ↔ q = some .run := by
  cases h with
  | current h =>
    refine iff_of_false (by simp) ?_
    rintro rfl
    cases pc <;> simp_all [Pc.Fits]
    all_goals rename_i a; cases a <;> simp_all [After.Fits]
  | _ => simp

theorem not_run_of_cur (h : Spot eip pc up true q st) : q ≠ some .run ∧ q ≠ some .ready := by
  cases h with
  | current h =>
    constructor
    all_goals
      rintro rfl
      cases pc <;> simp_all [Pc.Fits]
      all_goals rename_i a; cases a <;> simp_all [After.Fits]

theorem of_cur (h : Spot eip pc up true q st) : up = false ∧ st = .run ∧ pc.Fits q := by
  cases h with
  | current h => exact ⟨rfl, rfl, h⟩

theorem of_ready (h : Spot eip pc up false (some .ready) st) :
    up = false ∧ st = .run ∧ eip.Wakes := by
  cases h with
  | ready h => exact ⟨rfl, rfl, h⟩

theorem of_cond {c : CondId} (h : Spot eip pc up false (some (.cond c)) .cond) :
    ∃ m, eip = .lock m := by
  cases h with
  | cond h => exact ⟨_, h⟩

theorem of_mutex {m : MutexId} (h : Spot eip pc up false (some (.mutex m)) .mutex) :
    eip = .grab m := by
  cases h with
  | mutex h => exact h

theorem of_free (h : Spot eip pc up cur q .free) : q = none := by
  cases h with
  | gone _ => rfl

theorem run_iff (h : Spot eip pc up cur q st) :
    st = .run ↔ up = true ∨ q = some .ready ∨ cur = true := by
  cases h with
  | gone h => rcases h with rfl | rfl <;> simp
  | _ => simp

end Spot

theorem Sys.who_of_cur {s : Sys} {t : Tid} (h : s.cur t = true) : s.who = .thread t := by
  simpa [Sys.cur] using h

theorem Sys.cur_self {s : Sys} {t : Tid} (h : s.who = .thread t) : s.cur t = true := by
  simp [Sys.cur, h]

/-- The master runs code for one thread only. -/
theorem Sys.eq_of_cur {s : Sys} {t u : Tid} (h : s.who = .thread t) (hu : s.cur u = true) :
    u = t := by
  have := Sys.who_of_cur hu
  rw [h] at this
  injection this with e
  exact e.symm

theorem Sys.cur_of_ne {s : Sys} {t u : Tid} (h : s.who = .thread t) (hu : u ≠ t) :
    s.cur u = false := by
  simp [Sys.cur, h, Ne.symm hu]

/-- What the scheduler reads of the threads is the same, but for exited threads that were
freed. -/
structure Quiet (μ μ' : Mem) : Prop where
  eip : ∀ t, (μ'.th t).eip = (μ.th t).eip
  joiner : ∀ t, (μ'.th t).joiner = (μ.th t).joiner
  state : ∀ t, (μ'.th t).state = (μ.th t).state ∨
    (μ.th t).state = .exit ∧ (μ'.th t).state = .free

namespace Quiet

variable {μ μ' : Mem}

theorem refl (μ : Mem) : Quiet μ μ := ⟨fun _ => rfl, fun _ => rfl, fun _ => .inl rfl⟩

theorem of_th (h : μ'.th = μ.th) : Quiet μ μ' :=
  ⟨fun _ => by rw [h], fun _ => by rw [h], fun _ => .inl (by rw [h])⟩

theorem of_relink (h : Relink μ μ') : Quiet μ μ' := ⟨h.eip, h.joiner, fun t => .inl (h.state t)⟩

theorem state_eq (h : Quiet μ μ') {t : Tid} (hl : (μ.th t).state ≠ .exit) :
    (μ'.th t).state = (μ.th t).state :=
  (h.state t).resolve_right fun e => hl e.1

theorem live (h : Quiet μ μ') {t : Tid} (hl : Live μ' t) : Live μ t := by
  rcases h.state t with e | ⟨_, e'⟩
  · exact ⟨e ▸ hl.1, e ▸ hl.2⟩
  · exact absurd e' hl.1

theorem spot (h : Quiet μ μ') {t : Tid} {pc : Pc} {up cur : Bool} {q : Option Queue}
    (hs : Spot (μ.th t).eip pc up cur q (μ.th t).state) :
    Spot (μ'.th t).eip pc up cur q (μ'.th t).state := by
  rw [h.eip]
  rcases h.state t with e | ⟨e, e'⟩
  · rw [e]
    exact hs
  · rw [e] at hs
    rw [e']
    cases hs
    exact .gone (.inl rfl)

end Quiet

/-- The places after the threads `ts` became ready. -/
def readied (p : Tid → Option Queue) (ts : List Tid) (x : Tid) : Option Queue :=
  if x ∈ ts then some .ready else p x

theorem readied_singleton (p : Tid → Option Queue) (u : Tid) :
    readied p [u] = Function.update p u (some .ready) := by
  funext x
  simp [readied, Function.update_apply]

namespace Spots

variable {s : Sys} {p : Tid → Option Queue} {t u : Tid} {μ : Mem}

/-- The master goes on with its thread, which may have been put on a queue. -/
theorem advance (h : Spots s p) (hw : s.who = .thread t) (hμ : Quiet s.mem μ) (pc : Pc)
    (q : Option Queue) (hpc : pc.Fits q)
    (hin : ∀ a, (s.pc t).In a → pc.In a) (log : List Note) :
    Spots { s with mem := μ, pc := Function.update s.pc t pc, log := log }
      (Function.update p t q) := by
  refine ⟨fun u => ?_, fun j u hl hj => ?_⟩
  · by_cases hu : u = t
    · subst hu
      obtain ⟨hup, hrun, -⟩ := (Sys.cur_self hw ▸ h.spot u).of_cur
      have hst : (μ.th u).state = .run := by rw [hμ.state_eq (by simp [hrun]), hrun]
      show Spot _ _ (s.up u) (s.cur u) _ _
      rw [Sys.cur_self hw, hup]
      simp only [Function.update_self, hst]
      exact .current hpc
    · simp only [Function.update_of_ne hu]
      exact hμ.spot (h.spot u)
  · have hj' : (s.mem.th j).joiner = some u := by
      rw [← hμ.joiner]
      exact hj
    have hpcin : ∀ x a, s.cur x = true → (s.pc x).In a → (Function.update s.pc t pc x).In a := by
      intro x a hx hxa
      have e : x = t := Sys.eq_of_cur hw hx
      subst e
      simpa using hin a hxa
    rcases h.joiner j u (hμ.live hl) hj' with (⟨hu, hi⟩ | ⟨hne, hpu, hst, he⟩) | ⟨hu, hi⟩
    · exact .inl (.inl ⟨hu, hpcin u _ hu hi⟩)
    · have hut : u ≠ t := by
        rintro rfl
        rw [Sys.cur_self hw] at hne
        cases hne
      refine .inl (.inr ⟨hne, ?_, ?_, ?_⟩)
      · rw [Function.update_of_ne hut]
        exact hpu
      · show (μ.th u).state = _
        rw [hμ.state_eq (by simp [hst]), hst]
      · show (μ.th u).eip = _
        rw [hμ.eip]
        exact he
    · exact .inr ⟨hu, hpcin j _ hu hi⟩

/-- The master makes the threads of `ts` ready. -/
theorem wake (h : Spots s p) {ts : List Tid}
    (hts : ∀ u ∈ ts, s.cur u = false ∧ (s.mem.th u).state ≠ .run ∧ (μ.th u).eip.Wakes ∧
      (μ.th u).state = .run ∧
      (∀ v, (μ.th u).joiner = some v → Live s.mem u ∧ (s.mem.th u).joiner = some v) ∧
      ∀ j, Live s.mem j → (s.mem.th j).joiner = some u → Exiting s j)
    (hμ : ∀ x ∉ ts, (μ.th x).eip = (s.mem.th x).eip ∧
      (μ.th x).joiner = (s.mem.th x).joiner ∧ (μ.th x).state = (s.mem.th x).state) :
    Spots { s with mem := μ } (readied p ts) := by
  refine ⟨fun x => ?_, fun j x hl hjx => ?_⟩
  · by_cases hx : x ∈ ts
    · obtain ⟨hu, hst, heip, hrun, -⟩ := hts x hx
      have hup : s.up x = false := by
        have := (h.spot x).run_iff.not.1 hst
        simp only [not_or] at this
        simpa using this.1
      show Spot _ _ (s.up x) (s.cur x) _ _
      simp only [readied, if_pos hx, hu, hup, hrun]
      exact .ready heip
    · obtain ⟨he, -, hs⟩ := hμ x hx
      show Spot (μ.th x).eip (s.pc x) (s.up x) (s.cur x) _ (μ.th x).state
      rw [he, hs, readied, if_neg hx]
      exact h.spot x
  · have hold : Live s.mem j ∧ (s.mem.th j).joiner = some x := by
      by_cases e : j ∈ ts
      · exact (hts j e).2.2.2.2.1 x hjx
      · obtain ⟨-, hjj, hs⟩ := hμ j e
        have hl' : Live μ j := hl
        refine ⟨?_, hjj ▸ hjx⟩
        unfold Live at hl' ⊢
        rwa [hs] at hl'
    by_cases e : x ∈ ts
    · exact .inr ((hts x e).2.2.2.2.2 j hold.1 hold.2)
    · rcases h.joiner j x hold.1 hold.2 with (⟨hx, hi⟩ | ⟨hne, hpx, hsx, hex⟩) | hx
      · exact .inl (.inl ⟨hx, hi⟩)
      · obtain ⟨he, -, hs⟩ := hμ x e
        refine .inl (.inr ⟨hne, ?_, hs.trans hsx, he.trans hex⟩)
        rw [readied, if_neg e]
        exact hpx
      · exact .inr hx

/-- A thread that waits for a mutex or on a condition variable joins with no one. -/
theorem exiting_of_joiner (h : Spots s p) (hu : s.cur u = false) (hp : p u ≠ none) {j : Tid}
    (hl : Live s.mem j) (hj : (s.mem.th j).joiner = some u) : Exiting s j := by
  rcases h.joiner j u hl hj with (⟨hc, -⟩ | ⟨-, hn, -⟩) | hx
  · rw [hu] at hc
    cases hc
  · exact absurd hn hp
  · exact hx

end Spots

/-! ## Making threads ready -/

/-- The threads of `ts` became runnable; besides, only links changed, and no mutex did. -/
structure Awakes (ts : List Tid) (μ μ' : Mem) : Prop where
  th : ∀ x, ∃ v, μ'.th x =
    { μ.th x with state := if x ∈ ts then .run else (μ.th x).state, qnext := v }
  mutex : μ'.mutex = μ.mutex
  cond : ∀ c, ∃ h l, μ'.cond c = { μ.cond c with qhead := h, qtail := l }
  tlock : μ'.tlock = μ.tlock
  evconds : μ'.evconds = μ.evconds
  runqlen : μ'.runqlen = μ.runqlen

namespace Awakes

variable {ts us : List Tid} {μ μ' μ'' : Mem}

theorem nil (μ : Mem) : Awakes [] μ μ :=
  ⟨fun x => ⟨(μ.th x).qnext, by simp⟩, rfl, fun _ => ⟨_, _, rfl⟩, rfl, rfl, rfl⟩

theorem trans (h : Awakes ts μ μ') (h' : Awakes us μ' μ'') : Awakes (ts ++ us) μ μ'' := by
  refine ⟨fun x => ?_, h'.mutex.trans h.mutex, fun c => ?_, h'.tlock.trans h.tlock,
    h'.evconds.trans h.evconds, h'.runqlen.trans h.runqlen⟩
  · obtain ⟨v, e⟩ := h.th x
    obtain ⟨v', e'⟩ := h'.th x
    refine ⟨v', ?_⟩
    rw [e', e]
    by_cases hx : x ∈ us <;> simp [hx]
  · obtain ⟨a, b, e⟩ := h.cond c
    obtain ⟨a', b', e'⟩ := h'.cond c
    exact ⟨a', b', by rw [e', e]⟩

theorem of_relink (h : Relink μ μ') (hm : μ'.mutex = μ.mutex) : Awakes [] μ μ' :=
  ⟨fun x => by simpa using h.th x, hm, h.cond, h.tlock, h.evconds, h.runqlen⟩

variable (h : Awakes ts μ μ')
include h

theorem state (x : Tid) : (μ'.th x).state = if x ∈ ts then .run else (μ.th x).state := by
  obtain ⟨v, e⟩ := h.th x
  rw [e]

theorem eip (x : Tid) : (μ'.th x).eip = (μ.th x).eip := by
  obtain ⟨v, e⟩ := h.th x
  rw [e]

theorem joiner (x : Tid) : (μ'.th x).joiner = (μ.th x).joiner := by
  obtain ⟨v, e⟩ := h.th x
  rw [e]

theorem reqs (x : Tid) : (μ'.th x).reqs = (μ.th x).reqs := by
  obtain ⟨v, e⟩ := h.th x
  rw [e]

theorem nwake (c : CondId) : (μ'.cond c).nwake = (μ.cond c).nwake := by
  obtain ⟨a, b, e⟩ := h.cond c
  rw [e]

theorem evnext (c : CondId) : (μ'.cond c).evnext = (μ.cond c).evnext := by
  obtain ⟨a, b, e⟩ := h.cond c
  rw [e]

end Awakes

theorem Mem.enqueue_mutex {q : Queue} (hq : ∀ m, q ≠ .mutex m) (μ : Mem) (t : Tid) :
    (μ.enqueue q t).mutex = μ.mutex := by
  funext m
  unfold Mem.enqueue
  split <;> simp [Mem.setTail_mutex, Mem.setHead_mutex, Mem.setQnext, hq m]

theorem Mem.unlink_mutex {q : Queue} (hq : ∀ m, q ≠ .mutex m) (μ : Mem) (t : Tid) :
    (μ.unlink q t).mutex = μ.mutex := by
  funext m
  simp [Mem.unlink, Mem.setHead_mutex, Mem.setQnext, hq m]

theorem Mem.resetTail_mutex {q : Queue} (hq : ∀ m, q ≠ .mutex m) (μ : Mem) :
    (μ.resetTail q).mutex = μ.mutex := by
  funext m
  unfold Mem.resetTail
  split <;> simp [Mem.setTail_mutex, hq m]

section Tready

variable {μ μ' : Mem} {p : Tid → Option Queue} {l : Queue → List Tid} {u : Tid}

theorem tready_ok (h : tready u μ = .ok μ') : μ.tlock = 2 ∧ (μ.th u).state ≠ .run ∧
    μ.qnext u = none ∧ μ' = (μ.setTh u fun x => { x with state := .run }).enqueue .ready u := by
  simp only [tready, bind_ok, check_ok, pure_ok, exists_const] at h
  obtain ⟨h1, h2, h3, rfl⟩ := h
  exact ⟨h1, h2, h3, rfl⟩

theorem tready_awakes (h : tready u μ = .ok μ') : Awakes [u] μ μ' := by
  obtain ⟨-, -, -, rfl⟩ := tready_ok h
  have hr := Relink.enqueue (μ.setTh u fun x => { x with state := .run }) .ready u
  refine ⟨fun x => ?_, ?_, fun c => ?_, hr.tlock, hr.evconds, hr.runqlen⟩
  · obtain ⟨v, e⟩ := hr.th x
    refine ⟨v, ?_⟩
    rw [e, Mem.setTh_th]
    by_cases hx : x = u
    · subst hx
      simp
    · simp [hx]
  · rw [Mem.enqueue_mutex (by simp)]
    rfl
  · exact hr.cond c

theorem tready_queued (h : tready u μ = .ok μ') (hq : Queued μ p l) (hu : p u = none) :
    Queued μ' (Function.update p u (some .ready)) (Function.update l .ready (l .ready ++ [u])) := by
  obtain ⟨-, -, -, rfl⟩ := tready_ok h
  exact (hq.congr (by simp) (by simp) (by simp)).enqueue hu .ready

theorem tready_queuedBut (h : tready u μ = .ok μ') {c : CondId} (hq : QueuedBut (.cond c) μ p l)
    (hu : p u = none) : QueuedBut (.cond c) μ' (Function.update p u (some .ready))
      (Function.update l .ready (l .ready ++ [u])) := by
  obtain ⟨-, -, -, rfl⟩ := tready_ok h
  have hq' : QueuedBut (.cond c) (μ.setTh u fun x => { x with state := .run }) p l :=
    Queued.congr hq (by simp) (by simp [Mem.setTail_tail]) (by simp)
  exact hq'.enqueue hu (by simp)

end Tready

/-! ## The loop of `condwakeups` -/

/-- The lists after the threads `ts` moved from `q` to the ready queue, leaving `rest`. -/
def moved (l : Queue → List Tid) (q : Queue) (ts rest : List Tid) (r : Queue) : List Tid :=
  if r = .ready then l .ready ++ ts else if r = q then rest else l r

/-- What the inner loop of `condwakeups` does to the threads that wait on `c`: it takes at most
`k` of them from the front. -/
structure WakesUp (c : CondId) (k : ℕ) (μ μ' : Mem) (p : Tid → Option Queue)
    (l : Queue → List Tid) (ts rest : List Tid) : Prop where
  split : l (.cond c) = ts ++ rest
  enough : rest = [] ∨ ts.length = k
  waited : ∀ x ∈ ts, (μ.th x).state = .cond
  awakes : Awakes ts μ μ'
  tail : rest ≠ [] → μ'.tail (.cond c) = μ.tail (.cond c)
  others : ∀ c', c' ≠ c → μ'.cond c' = μ.cond c'
  queued : QueuedBut (.cond c) μ' (readied p ts) (moved l (.cond c) ts rest)

theorem Mem.enqueue_tail {q q' : Queue} (hq : q' ≠ q) (μ : Mem) (t : Tid) :
    (μ.enqueue q t).tail q' = μ.tail q' := by
  unfold Mem.enqueue
  split <;> simp [Mem.setTail_tail, hq]

theorem Mem.enqueue_ready_cond (μ : Mem) (t : Tid) : (μ.enqueue .ready t).cond = μ.cond := by
  funext c
  unfold Mem.enqueue
  split <;> simp [Mem.setTail_cond, Mem.setHead_cond, Mem.setQnext]

theorem tready_cond {μ μ' : Mem} {u : Tid} (h : tready u μ = .ok μ') : μ'.cond = μ.cond := by
  obtain ⟨-, -, -, rfl⟩ := tready_ok h
  rw [Mem.enqueue_ready_cond]
  rfl

theorem wakeup_spec (c : CondId) : ∀ (k : ℕ) {μ μ' : Mem} {p : Tid → Option Queue}
    {l : Queue → List Tid} {ts : List Tid}, QueuedBut (.cond c) μ p l →
    wakeup c k μ = .ok (μ', ts) → ∃ rest, WakesUp c k μ μ' p l ts rest
  | 0, μ, μ', p, l, ts, hq, h => by
    simp only [wakeup, pure_ok, Prod.mk.injEq] at h
    obtain ⟨rfl, rfl⟩ := h
    refine ⟨l (.cond c), rfl, .inr rfl, by simp, Awakes.nil μ, fun _ => rfl, fun _ _ => rfl, ?_⟩
    have ep : readied p [] = p := by
      funext x
      simp [readied]
    have el : moved l (.cond c) [] (l (.cond c)) = l := by
      funext r
      unfold moved
      split
      · simp_all
      · split <;> simp_all
    rwa [ep, el]
  | k + 1, μ, μ', p, l, ts, hq, h => by
    have hh : (μ.cond c).qhead = (l (.cond c)).head? := hq.head_eq (.cond c)
    cases hl : l (.cond c) with
    | nil =>
      rw [hl] at hh
      simp only [wakeup, hh, List.head?_nil, pure_ok, Prod.mk.injEq] at h
      obtain ⟨rfl, rfl⟩ := h
      refine ⟨[], by simp [hl], .inl rfl, by simp, Awakes.nil μ, fun _ => rfl, fun _ _ => rfl, ?_⟩
      have ep : readied p [] = p := by
        funext x
        simp [readied]
      have el : moved l (.cond c) [] [] = l := by
        funext r
        unfold moved
        split
        · simp_all
        · split <;> simp_all
      rwa [ep, el]
    | cons tw us =>
      rw [hl] at hh
      simp only [wakeup, hh, List.head?_cons, bind_ok, check_ok, pure_ok, exists_const,
        Prod.exists, Prod.mk.injEq] at h
      obtain ⟨hst, μ₁, h1, μ₂, ts', h2, rfl, rfl⟩ := h
      have hu := hq.unlink hl
      have hr := tready_queuedBut h1 hu (Function.update_self _ _ _)
      obtain ⟨rest, w⟩ := wakeup_spec c k hr h2
      have hul : Awakes [] μ (μ.unlink (.cond c) tw) :=
        .of_relink (.unlink μ _ _) (Mem.unlink_mutex (by simp) μ tw)
      have ha : Awakes [tw] μ μ₁ := hul.trans (tready_awakes h1)
      have hcons : us = ts' ++ rest := by
        have := w.split
        simpa using this
      have hnd : (tw :: us).Nodup := hl ▸ (Queued.holds hq (.cond c)).nodup
      refine ⟨rest, ?_, ?_, ?_, ?_, ?_, ?_, ?_⟩
      · simp [hl, hcons]
      · rcases w.enough with e | e
        · exact .inl e
        · exact .inr (by simp [e])
      · intro x hx
        rcases List.mem_cons.1 hx with rfl | hx'
        · exact hst
        · have hxt : x ≠ tw := by
            rintro rfl
            exact (List.nodup_cons.1 hnd).1 (hcons ▸ List.mem_append_left _ hx')
          have := w.waited x hx'
          rwa [ha.state, if_neg (by simpa using hxt)] at this
      · exact ha.trans w.awakes
      · intro hne
        rw [w.tail hne]
        obtain ⟨-, -, -, rfl⟩ := tready_ok h1
        rw [Mem.enqueue_tail (by simp)]
        simp [Mem.unlink]
      · intro c' hc
        rw [w.others c' hc, tready_cond h1]
        simp [Mem.unlink, Mem.setHead_cond, Mem.setQnext, Ne.symm hc]
      · have ep : readied (Function.update (Function.update p tw none) tw (some .ready)) ts' =
            readied p (tw :: ts') := by
          funext x
          by_cases hx : x = tw
          · subst hx
            simp [readied]
          · simp [readied, hx]
        have el : moved (Function.update (Function.update l (.cond c) us) .ready
            (Function.update l (.cond c) us .ready ++ [tw])) (.cond c) ts' rest =
            moved l (.cond c) (tw :: ts') rest := by
          funext r
          unfold moved
          by_cases hr : r = .ready
          · subst hr
            simp
          · by_cases hc : r = .cond c
            · simp [hc]
            · simp [hr, hc]
        have := w.queued
        rwa [ep, el] at this

/-- What one turn of the outer loop of `condwakeups` does. -/
structure CondWakes (c : CondId) (μ μ' : Mem) (p : Tid → Option Queue) (l : Queue → List Tid)
    (ts rest : List Tid) : Prop where
  pending : 0 < (μ.cond c).nwake
  split : l (.cond c) = ts ++ rest
  enough : rest = [] ∨ ts.length = (μ.cond c).nwake
  waited : ∀ x ∈ ts, (μ.th x).state = .cond
  th : ∀ x, ∃ v, μ'.th x =
    { μ.th x with state := if x ∈ ts then .run else (μ.th x).state, qnext := v }
  mutex : μ'.mutex = μ.mutex
  self : (μ'.cond c).nwake = 0 ∧ (μ'.cond c).evnext = none
  others : ∀ c', c' ≠ c → μ'.cond c' = μ.cond c'
  tlock : μ'.tlock = μ.tlock
  evconds : μ'.evconds = (μ.cond c).evnext
  runqlen : μ'.runqlen = μ.runqlen
  queued : Queued μ' (readied p ts) (moved l (.cond c) ts rest)

theorem condwakeups_spec {c : CondId} {μ μ' : Mem} {p : Tid → Option Queue}
    {l : Queue → List Tid} {ts : List Tid} (hq : Queued μ p l)
    (h : condwakeups c μ = .ok (μ', ts)) : ∃ rest, CondWakes c μ μ' p l ts rest := by
  simp only [condwakeups, bind_ok, check_ok, pure_ok, exists_const, Prod.exists,
    Prod.mk.injEq] at h
  obtain ⟨-, hn, μ₁, ts', h1, rfl, rfl⟩ := h
  obtain ⟨rest, w⟩ := wakeup_spec c _ (.of_queued hq _) h1
  have hr := Relink.resetTail μ₁ (.cond c)
  have hlc : moved l (.cond c) ts' rest (.cond c) = rest := by simp [moved]
  have htail : moved l (.cond c) ts' rest (.cond c) ≠ [] →
      μ₁.tail (.cond c) = Thread.lastLink (moved l (.cond c) ts' rest (.cond c)) := by
    intro hne
    rw [hlc] at hne ⊢
    rw [w.tail hne, show μ.tail (.cond c) = _ from (hq.holds (.cond c)).tail, w.split]
    obtain ⟨us, x, rfl⟩ := (List.eq_nil_or_concat' rest).resolve_left hne
    rw [← List.append_assoc, Thread.lastLink_concat, Thread.lastLink_concat]
  have hqd := w.queued.resetTail htail
  refine ⟨rest, hn, w.split, w.enough, w.waited, fun x => ?_, ?_, ?_, fun c' hc => ?_, ?_, ?_, ?_, ?_⟩
  · obtain ⟨v, e⟩ := w.awakes.th x
    obtain ⟨v', e'⟩ := hr.th x
    exact ⟨v', by simp [e', e]⟩
  · simp [Mem.resetTail_mutex, w.awakes.mutex]
  · simp [Mem.setCond_cond]
  · rw [Mem.setCond_cond, if_neg hc]
    show (μ₁.resetTail (.cond c)).cond c' = _
    rw [← w.others c' hc]
    unfold Mem.resetTail
    split <;> simp [Mem.setTail_cond, Ne.symm hc]
  · simp [hr.tlock, w.awakes.tlock]
  · simp [hr.evnext, w.awakes.evnext]
  · simp [hr.runqlen, w.awakes.runqlen]
  · refine hqd.congr (fun q => ?_) (fun q => ?_) rfl
    · cases q with
      | cond c' =>
        simp only [Mem.head, Mem.setCond_cond]
        split
        · rename_i e
          subst e
          rfl
        · rfl
      | _ => rfl
    · cases q with
      | cond c' =>
        simp only [Mem.tail, Mem.setCond_cond]
        split
        · rename_i e
          subst e
          rfl
        · rfl
      | _ => rfl

/-! ## Mutex queues -/

/-- What `transfer` does: `tn`, the first of `tn :: ts`, becomes the owner of `m` and ready. -/
structure Transfers (m : MutexId) (tn : Tid) (μ μ' : Mem) (p : Tid → Option Queue)
    (l : Queue → List Tid) (ts : List Tid) : Prop where
  waited : (μ.th tn).state = .mutex
  th : ∀ x, ∃ v, μ'.th x =
    { μ.th x with
      state := if x = tn then .run else (μ.th x).state
      reqs := if x = tn ∧ ts ≠ [] then some m else (μ.th x).reqs
      qnext := v }
  owner : (μ'.mutex m).owner = tn
  locked : (μ'.mutex m).locked = (μ.mutex m).locked
  reqnext : (μ'.mutex m).reqnext = if ts = [] then none else (μ.th tn).reqs
  others : ∀ m', m' ≠ m → μ'.mutex m' = μ.mutex m'
  cond : μ'.cond = μ.cond
  tlock : μ'.tlock = μ.tlock
  evconds : μ'.evconds = μ.evconds
  runqlen : μ'.runqlen = μ.runqlen
  queued : Queued μ' (Function.update p tn (some .ready)) (moved l (.mutex m) [tn] ts)

theorem moved_one {l : Queue → List Tid} {q : Queue} {t : Tid} {ts : List Tid}
    (hq : q ≠ .ready) : Function.update (Function.update l q ts) .ready
      (Function.update l q ts .ready ++ [t]) = moved l q [t] ts := by
  funext r
  unfold moved
  by_cases hr : r = .ready
  · subst hr
    simp [Function.update_of_ne (Ne.symm hq)]
  · by_cases e : r = q
    · subst e
      simp [hr]
    · simp [hr, e]

section Handover

variable (m : MutexId) (tn : Tid) (μ : Mem)

theorem handover_mutex (m' : MutexId) : (handover m tn μ).mutex m' =
    if m' = m then
      { μ.mutex m with
        owner := tn
        qhead := μ.qnext tn
        qtail := if μ.qnext tn = none then .head else (μ.mutex m).qtail
        reqnext := if μ.qnext tn = none then none else (μ.th tn).reqs }
    else μ.mutex m' := by
  have hq : (μ.setMutex m fun x => { x with owner := tn }).qnext tn = μ.qnext tn := rfl
  by_cases hn : μ.qnext tn = none
  · by_cases e : m' = m
    · subst e
      simp [handover, hq, hn, Mem.setHead_mutex, Mem.setTail_mutex, Mem.setMutex_mutex]
    · simp [handover, hq, hn, Mem.setHead_mutex, Mem.setTail_mutex, Mem.setMutex_mutex, e,
        Ne.symm e]
  · by_cases e : m' = m
    · subst e
      simp [handover, hq, hn, Mem.setHead_mutex, Mem.setMutex_mutex]
    · simp [handover, hq, hn, Mem.setHead_mutex, Mem.setMutex_mutex, e, Ne.symm e]

theorem handover_th (x : Tid) : (handover m tn μ).th x =
    { μ.th x with
      reqs := if x = tn ∧ μ.qnext tn ≠ none then some m else (μ.th x).reqs
      qnext := if x = tn then none else (μ.th x).qnext } := by
  have hq : (μ.setMutex m fun x => { x with owner := tn }).qnext tn = μ.qnext tn := rfl
  by_cases hn : μ.qnext tn = none
  · have hth : (handover m tn μ).th x = μ.th x := by
      simp [handover, hq, hn, Mem.setHead_mutex, Mem.setMutex_mutex]
    rw [hth]
    by_cases e : x = tn
    · subst e
      have : (μ.th x).qnext = none := hn
      simp [hn, ← this]
    · simp [e]
  · by_cases e : x = tn
    · subst e
      simp [handover, hq, hn, Mem.setHead_mutex, Mem.setMutex_mutex, Mem.setQnext, Mem.setTh_th]
    · simp [handover, hq, hn, Mem.setHead_mutex, Mem.setMutex_mutex, Mem.setQnext, Mem.setTh_th, e]

theorem handover_rest : (handover m tn μ).cond = μ.cond ∧ (handover m tn μ).tlock = μ.tlock ∧
    (handover m tn μ).evconds = μ.evconds ∧ (handover m tn μ).runqlen = μ.runqlen ∧
    (handover m tn μ).readyqhead = μ.readyqhead ∧ (handover m tn μ).readyqtail = μ.readyqtail ∧
    (handover m tn μ).runqhead = μ.runqhead ∧ (handover m tn μ).runqtail = μ.runqtail := by
  unfold handover
  dsimp only
  split <;> exact ⟨rfl, rfl, rfl, rfl, rfl, rfl, rfl, rfl⟩

variable {m tn μ} {p : Tid → Option Queue} {l : Queue → List Tid} {ts : List Tid}

theorem qnext_none_iff (hq : Queued μ p l) {q : Queue} (hl : l q = tn :: ts) :
    μ.qnext tn = none ↔ ts = [] := by
  have hchain : Chain μ.qnext (μ.qnext tn) ts := (hl ▸ (hq.holds q).chain :
    Chain μ.qnext (μ.head q) (tn :: ts)).2
  cases ts with
  | nil => exact iff_of_true hchain rfl
  | cons u us => exact iff_of_false (by rw [hchain.1]; simp) (by simp)

/-- The handover takes the new owner from the mutex's queue. -/
theorem handover_queued (hq : Queued μ p l) (hl : l (.mutex m) = tn :: ts) :
    Queued (handover m tn μ) (Function.update p tn none) (Function.update l (.mutex m) ts) := by
  obtain ⟨hc, -, -, -, h1, h2, h3, h4⟩ := handover_rest m tn μ
  refine (hq.unlink hl).congr (fun q => ?_) (fun q => ?_) ?_
  · have e : ((μ.unlink (.mutex m) tn).resetTail (.mutex m)).head q =
        if q = .mutex m then μ.qnext tn else μ.head q := by
      unfold Mem.resetTail Mem.unlink
      split <;> simp [Mem.setHead_head]
    rw [e]
    cases q with
    | ready => simp [Mem.head, h1]
    | run => simp [Mem.head, h3]
    | cond c => simp [Mem.head, hc]
    | mutex m' =>
      simp only [Mem.head, handover_mutex, Queue.mutex.injEq]
      split <;> rfl
  · have e : ((μ.unlink (.mutex m) tn).resetTail (.mutex m)).tail q =
        if q = .mutex m ∧ μ.qnext tn = none then .head else μ.tail q := by
      unfold Mem.resetTail Mem.unlink
      simp only [Mem.setQnext_head, Mem.setHead_head, if_true]
      by_cases e : μ.qnext tn = none
      · by_cases hq : q = .mutex m <;> simp [e, hq, Mem.setTail_tail]
      · simp [e]
    rw [e]
    cases q with
    | ready => simp [Mem.tail, h2]
    | run => simp [Mem.tail, h4]
    | cond c => simp [Mem.tail, hc]
    | mutex m' =>
      simp only [Mem.tail, handover_mutex, Queue.mutex.injEq]
      by_cases e' : m' = m
      · subst e'
        simp
      · simp [e']
  · have e : ((μ.unlink (.mutex m) tn).resetTail (.mutex m)).qnext =
        Function.update μ.qnext tn none := by
      unfold Mem.resetTail Mem.unlink
      split <;> simp
    rw [e]
    funext x
    simp only [Mem.qnext, handover_th, Function.update_apply]

theorem transfer_spec {μ' : Mem} (hq : Queued μ p l) (hl : l (.mutex m) = tn :: ts)
    (h : transfer m tn μ = .ok μ') : Transfers m tn μ μ' p l ts := by
  simp only [transfer, bind_ok, check_ok, exists_const] at h
  obtain ⟨hst, h⟩ := h
  have hts := qnext_none_iff hq hl
  have ha := tready_awakes h
  have hqd := tready_queued h (handover_queued hq hl) (Function.update_self _ _ _)
  obtain ⟨hc, h1, h2, h3, -⟩ := handover_rest m tn μ
  refine ⟨hst, fun x => ?_, ?_, ?_, ?_, fun m' hm => ?_, (tready_cond h).trans hc,
    ha.tlock.trans h1, ha.evconds.trans h2, ha.runqlen.trans h3, ?_⟩
  · obtain ⟨v, e⟩ := ha.th x
    refine ⟨v, ?_⟩
    rw [e, handover_th]
    simp [hts]
  · rw [ha.mutex, handover_mutex, if_pos rfl]
  · rw [ha.mutex, handover_mutex, if_pos rfl]
  · rw [ha.mutex, handover_mutex, if_pos rfl]
    simp [hts]
  · rw [ha.mutex, handover_mutex, if_neg hm]
  · rw [moved_one (by simp)] at hqd
    simpa using hqd

end Handover

/-! ## Waiting for a mutex -/

section Enlist

variable {m : MutexId} {t : Tid} {μ μ' : Mem} {p : Tid → Option Queue} {l : Queue → List Tid}

/-- What `request` does when no thread waits for the mutex yet. -/
def requested (m : MutexId) (μ : Mem) : Mem :=
  (μ.setMutex m fun x => { x with reqnext := (μ.th (μ.mutex m).owner).reqs }).setTh
    (μ.mutex m).owner fun x => { x with reqs := some m }

theorem request_ok (h : request m μ = .ok μ') :
    ((μ.mutex m).qhead ≠ none ∧ μ' = μ) ∨
    ((μ.mutex m).qhead = none ∧ (μ.mutex m).reqnext = none ∧ μ' = requested m μ) := by
  unfold request at h
  split at h
  · rename_i hn
    simp only [bind_ok, check_ok, exists_const, pure_ok] at h
    exact .inr ⟨hn, h.1, h.2.symm⟩
  · rename_i hn
    simp only [pure_ok] at h
    exact .inl ⟨hn, h.symm⟩

theorem requested_mutex (m' : MutexId) : (requested m μ).mutex m' = { μ.mutex m' with
    reqnext := if m' = m then (μ.th (μ.mutex m).owner).reqs else (μ.mutex m').reqnext } := by
  simp only [requested, Mem.setTh_mutex, Mem.setMutex_mutex]
  split
  · rename_i e
    rw [e]
  · rfl

theorem requested_head (q : Queue) : (requested m μ).head q = μ.head q := by
  cases q with
  | mutex m' => simp only [Mem.head, requested_mutex]
  | _ => rfl

theorem requested_tail (q : Queue) : (requested m μ).tail q = μ.tail q := by
  cases q with
  | mutex m' => simp only [Mem.tail, requested_mutex]
  | _ => rfl

theorem requested_qnext : (requested m μ).qnext = μ.qnext := by
  unfold requested
  rw [Mem.setTh_qnext_of]
  · rfl
  · rfl

theorem enlist_ok (h : enlist t m μ = .ok μ') : μ' = μ.enqueue (.mutex m) t := by
  simp only [enlist, bind_ok, check_ok, exists_const, pure_ok] at h
  exact h.2.2.2.2.symm

theorem request_tlock (h : request m μ = .ok μ') : μ'.tlock = μ.tlock := by
  rcases request_ok h with ⟨-, rfl⟩ | ⟨-, -, rfl⟩
  · rfl
  · rfl

theorem request_runqlen (h : request m μ = .ok μ') : μ'.runqlen = μ.runqlen := by
  rcases request_ok h with ⟨-, rfl⟩ | ⟨-, -, rfl⟩
  · rfl
  · rfl

theorem setReq_runqlen (μ : Mem) (t : Tid) (mp : Link MutexId) (v : Option MutexId) :
    (μ.setReq t mp v).runqlen = μ.runqlen := by
  cases mp <;> rfl

theorem request_queued (h : request m μ = .ok μ') (hq : Queued μ p l) : Queued μ' p l := by
  rcases request_ok h with ⟨-, rfl⟩ | ⟨-, -, rfl⟩
  · exact hq
  · exact hq.congr requested_head requested_tail requested_qnext

theorem request_quiet (h : request m μ = .ok μ') : Quiet μ μ' := by
  rcases request_ok h with ⟨-, rfl⟩ | ⟨-, -, rfl⟩
  · exact .refl _
  · refine ⟨fun x => ?_, fun x => ?_, fun x => .inl ?_⟩ <;>
    · simp only [requested, Mem.setTh_th]
      split
      · rename_i e
        rw [e]
        rfl
      · rfl

end Enlist

end Determinator.Dsthread
