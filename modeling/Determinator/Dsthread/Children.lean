import Determinator.Dsthread.Schedule

/-!
# What a child can change

A child process works on a private copy of the memory. `Drift N t r k` says how the copy `k` of
thread `t` can differ from the snapshot `r`: only the `locked` flag of mutexes that the thread
owns, the signals it counted, and exited threads that it joined with. Merging such a copy changes
nothing else in the master (`Drift.merge_th` and its companions).
-/

set_option linter.unusedSectionVars false

namespace Determinator.Dsthread

/-- The child `t` may have turned the snapshot `r` into `k`. -/
structure Drift (N : ℕ) (t : Tid) (r k : Mem) : Prop where
  th : ∀ u, k.th u = r.th u ∨
    u < N ∧ (r.th u).state = .exit ∧ k.th u = { r.th u with state := .free }
  mutex : ∀ m, k.mutex m = r.mutex m ∨
    (r.mutex m).owner = t ∧ k.mutex m = { r.mutex m with locked := (k.mutex m).locked }
  cond : ∀ c, k.cond c =
    { r.cond c with nwake := (k.cond c).nwake, evnext := (k.cond c).evnext }
  readyqhead : k.readyqhead = r.readyqhead
  readyqtail : k.readyqtail = r.readyqtail
  runqhead : k.runqhead = r.runqhead
  runqtail : k.runqtail = r.runqtail
  runqlen : k.runqlen = r.runqlen

namespace Drift

variable {N : ℕ} {t : Tid} {r k k' : Mem}

theorem refl (N : ℕ) (t : Tid) (r : Mem) : Drift N t r r :=
  ⟨fun _ => .inl rfl, fun _ => .inl rfl, fun _ => rfl, rfl, rfl, rfl, rfl, rfl⟩

theorem owner (h : Drift N t r k) (m : MutexId) : (k.mutex m).owner = (r.mutex m).owner := by
  rcases h.mutex m with e | ⟨-, e⟩
  · rw [e]
  · rw [e]

theorem trans (h : Drift N t r k) (h' : Drift N t k k') : Drift N t r k' := by
  refine ⟨fun u => ?_, fun m => ?_, fun c => ?_, h'.readyqhead.trans h.readyqhead,
    h'.readyqtail.trans h.readyqtail, h'.runqhead.trans h.runqhead,
    h'.runqtail.trans h.runqtail, h'.runqlen.trans h.runqlen⟩
  · rcases h.th u with e | ⟨hu, hx, e⟩
    · rw [← e]
      exact h'.th u
    · rcases h'.th u with e' | ⟨-, hx', -⟩
      · exact .inr ⟨hu, hx, e'.trans e⟩
      · rw [e] at hx'
        cases hx'
  · rcases h.mutex m with e | ⟨ho, e⟩
    · rw [← e]
      exact h'.mutex m
    · rcases h'.mutex m with e' | ⟨-, e'⟩
      · exact .inr ⟨ho, by rw [e', ← e]⟩
      · refine .inr ⟨ho, ?_⟩
        rw [e', e]
  · rw [h'.cond c, h.cond c]

theorem setTlock (h : Drift N t r k) (n : ℕ) : Drift N t r { k with tlock := n } :=
  ⟨h.th, h.mutex, h.cond, h.readyqhead, h.readyqtail, h.runqhead, h.runqtail, h.runqlen⟩

theorem setLocked {m : MutexId} (hm : (r.mutex m).owner = t) (b : Bool) :
    Drift N t r (r.setMutex m fun x => { x with locked := b }) := by
  refine ⟨fun _ => .inl rfl, fun m' => ?_, fun _ => rfl, rfl, rfl, rfl, rfl, rfl⟩
  rw [Mem.setMutex_mutex]
  split
  · rename_i e
    exact .inr ⟨e ▸ hm, by rw [e]⟩
  · exact .inl rfl

theorem setCond (c : CondId) (n : ℕ) (e : Option CondId) :
    Drift N t r (r.setCond c fun x => { x with nwake := n, evnext := e }) := by
  refine ⟨fun _ => .inl rfl, fun _ => .inl rfl, fun c' => ?_, rfl, rfl, rfl, rfl, rfl⟩
  rw [Mem.setCond_cond]
  split
  · rename_i e'
    rw [e']
  · rfl

theorem setEvconds (h : Drift N t r k) (e : Option CondId) :
    Drift N t r { k with evconds := e } :=
  ⟨h.th, h.mutex, h.cond, h.readyqhead, h.readyqtail, h.runqhead, h.runqtail, h.runqlen⟩

theorem setFree {u : Tid} (hu : u < N) (hx : (r.th u).state = .exit) :
    Drift N t r (r.setTh u fun x => { x with state := .free }) := by
  refine ⟨fun v => ?_, fun _ => .inl rfl, fun _ => rfl, rfl, rfl, rfl, rfl, rfl⟩
  rw [Mem.setTh_th]
  split
  · rename_i e
    subst e
    exact .inr ⟨hu, hx, rfl⟩
  · exact .inl rfl

end Drift

/-! ## Code run by a child -/

/-- A thread that is about to change the flag of a mutex owns it. -/
def Pc.Owns (t : Tid) (μ : Mem) : Pc → Prop
  | .setLocked m | .clearLocked m => (μ.mutex m).owner = t
  | _ => True

/-- A thread joins with slots of the thread table only. -/
def Pc.Bounded (N : ℕ) : Pc → Prop
  | .joinFree tj => tj < N
  | _ => True

/-- A child that was started from the snapshot `r`, has memory `k` and is at `pc`. -/
structure Kid (N : ℕ) (t : Tid) (r k : Mem) (pc : Pc) : Prop where
  snap : r.tlock = 0
  level : pc.level = some k.tlock
  owns : pc.Owns t k
  bounded : pc.Bounded N
  drift : Drift N t r k

/-- The start of a call changes `tlock` only. -/
theorem enter_mutex {call : Call} {k k' : Mem} {pc : Pc} (h : enter call k = .ok (k', pc)) :
    k'.mutex = k.mutex := by
  cases call <;>
    simp only [enter, bind_ok, check_ok, pure_ok, exists_const, Prod.mk.injEq] at h
  case condSignal | condBroadcast => rw [h.1]
  all_goals rw [← h.2.1]

namespace Kid

variable {N : ℕ} {t : Tid} {r k k' : Mem} {pc pc' : Pc}

theorem enter (h : Kid N t r k .user) {call : Call} (he : enter call k = .ok (k', pc')) :
    Kid N t r k' pc' := by
  have hk : k.tlock = 0 := by
    have := h.level
    simpa [Pc.level] using this.symm
  cases call <;>
    simp only [Dsthread.enter, bind_ok, check_ok, pure_ok, exists_const, Prod.mk.injEq] at he
  case condSignal | condBroadcast =>
    obtain ⟨rfl, rfl⟩ := he
    exact ⟨h.snap, by simp [Pc.level, hk], trivial, trivial, h.drift⟩
  all_goals
    obtain ⟨-, rfl, rfl⟩ := he
    exact ⟨h.snap, rfl, trivial, trivial, h.drift.setTlock 1⟩

theorem enter_ok (h : Kid N t r k .user) (call : Call) : ∃ x, Dsthread.enter call k = .ok x := by
  have hk : k.tlock = 0 := by
    have := h.level
    simpa [Pc.level] using this.symm
  cases call <;> simp [Dsthread.enter, check, hk, bind, Except.bind, pure, Except.pure]

/-- A piece of library code keeps a child within what it may change. -/
theorem exec (h : Kid N t r k pc) (hu : pc ≠ .user) (hp : pc.traps = false) {notes : List Note}
    (he : exec N t pc k = .ok (k', pc', notes)) : Kid N t r k' pc' := by
  have hlev := h.level
  have stay : ∀ q : Pc, q.level = some k.tlock → q.Owns t k → q.Bounded N → Kid N t r k q :=
    fun q h1 h2 h3 => ⟨h.snap, h1, h2, h3, h.drift⟩
  cases pc <;> simp only [Pc.level, Pc.traps, reduceCtorEq, Option.some.injEq, ne_eq,
    not_true_eq_false, Bool.true_eq_false] at hlev hu hp
  case lock m =>
    simp only [Dsthread.exec, bind_ok, check_ok, exists_const] at he
    obtain ⟨-, he⟩ := he
    split at he <;>
      · simp only [pure_ok, Prod.mk.injEq] at he
        obtain ⟨rfl, rfl, rfl⟩ := he
        exact stay _ (by simp [Pc.level, hlev]) trivial trivial
  case lockIf m =>
    simp only [Dsthread.exec] at he
    split at he
    · -- a child is never put on a queue: `tblock` insists on the master
      simp only [bind_ok, tblock, check_ok, exists_const, pure_ok] at he
      obtain ⟨μ₁, h1, μ₂, h2, pc₂, ⟨h3, -⟩, -⟩ := he
      rw [enlist_ok h2, (Relink.enqueue _ _ _).tlock, request_tlock h1, ← hlev] at h3
      cases h3
    · simp only [pure_ok, Prod.mk.injEq] at he
      obtain ⟨rfl, rfl, rfl⟩ := he
      exact stay _ (by simp [Pc.level, hlev]) trivial trivial
  case grab m =>
    simp only [Dsthread.exec, bind_ok, check_ok, exists_const, pure_ok, Prod.mk.injEq] at he
    obtain ⟨ho, -, rfl, rfl, rfl⟩ := he
    exact stay _ (by simp [Pc.level, hlev]) ho trivial
  case setLocked m =>
    simp only [Dsthread.exec, pure_ok, Prod.mk.injEq] at he
    obtain ⟨rfl, rfl, rfl⟩ := he
    exact ⟨h.snap, by simp [Pc.level, hlev], trivial, trivial, h.drift.trans (.setLocked h.owns _)⟩
  case tryLock m =>
    simp only [Dsthread.exec] at he
    split at he
    · simp only [pure_ok, Prod.mk.injEq] at he
      obtain ⟨rfl, rfl, rfl⟩ := he
      exact stay _ (by simp [Pc.level, hlev]) trivial trivial
    · rename_i ho
      simp only [bind_ok, check_ok, exists_const, pure_ok, Prod.mk.injEq] at he
      obtain ⟨-, rfl, rfl, rfl⟩ := he
      exact stay _ (by simp [Pc.level, hlev]) (not_not.1 ho) trivial
  case unlock m =>
    simp only [Dsthread.exec, bind_ok, check_ok, exists_const, pure_ok, Prod.mk.injEq] at he
    obtain ⟨-, ho, -, rfl, rfl, rfl⟩ := he
    exact stay _ (by simp [Pc.level, hlev]) ho trivial
  case clearLocked m =>
    simp only [Dsthread.exec, pure_ok, Prod.mk.injEq] at he
    obtain ⟨rfl, rfl, rfl⟩ := he
    exact ⟨h.snap, by simp [Pc.level, hlev], trivial, trivial, h.drift.trans (.setLocked h.owns _)⟩
  case test c b =>
    simp only [Dsthread.exec] at he
    split at he
    · simp only [pure_ok, Prod.mk.injEq] at he
      obtain ⟨rfl, rfl, rfl⟩ := he
      exact stay _ (by simp [Pc.level, hlev]) trivial trivial
    · simp only [bind_ok, check_ok, exists_const, pure_ok, Prod.mk.injEq] at he
      obtain ⟨-, rfl, rfl, rfl⟩ := he
      exact ⟨h.snap, rfl, trivial, trivial, h.drift.setTlock 1⟩
  case link c b =>
    simp only [Dsthread.exec] at he
    split at he
    · simp only [bind_ok, check_ok, exists_const, pure_ok, Prod.mk.injEq] at he
      obtain ⟨-, rfl, rfl, rfl⟩ := he
      exact ⟨h.snap, by simp [Pc.level, hlev], trivial, trivial, h.drift.trans (.setCond c _ _)⟩
    · simp only [pure_ok, Prod.mk.injEq] at he
      obtain ⟨rfl, rfl, rfl⟩ := he
      exact stay _ (by simp [Pc.level, hlev]) trivial trivial
  case chain c b =>
    simp only [Dsthread.exec, pure_ok, Prod.mk.injEq] at he
    obtain ⟨rfl, rfl, rfl⟩ := he
    exact ⟨h.snap, by simp [Pc.level, hlev], trivial, trivial, h.drift.setEvconds _⟩
  case count c b =>
    cases b <;>
    · simp only [Dsthread.exec, pure_ok, Prod.mk.injEq] at he
      obtain ⟨rfl, rfl, rfl⟩ := he
      exact ⟨h.snap, by simp [Pc.level, hlev], trivial, trivial, h.drift.trans (.setCond c _ _)⟩
  case join tj =>
    simp only [Dsthread.exec, bind_ok, check_ok, exists_const] at he
    obtain ⟨hN, -, he⟩ := he
    split at he
    · simp only [pure_ok, Prod.mk.injEq] at he
      obtain ⟨rfl, rfl, rfl⟩ := he
      exact stay _ (by simp [Pc.level, hlev]) trivial trivial
    · simp only [pure_ok, Prod.mk.injEq] at he
      obtain ⟨rfl, rfl, rfl⟩ := he
      exact stay _ (by simp [Pc.level, hlev]) trivial hN
  case joinFree tj =>
    simp only [Dsthread.exec, bind_ok, check_ok, exists_const, pure_ok, Prod.mk.injEq] at he
    obtain ⟨hx, rfl, rfl, rfl⟩ := he
    exact ⟨h.snap, by simp [Pc.level, hlev], trivial, trivial,
      h.drift.trans (.setFree h.bounded hx)⟩
  case ret =>
    simp only [Dsthread.exec, bind_ok, check_ok, exists_const, ← hlev] at he
    obtain ⟨-, he⟩ := he
    simp only [show 1 &&& 2 = 0 from rfl, if_true, pure_ok, Prod.mk.injEq] at he
    obtain ⟨rfl, rfl, rfl⟩ := he
    exact ⟨h.snap, rfl, trivial, trivial, h.drift.setTlock 0⟩
  case failed w =>
    simp only [Dsthread.exec, pure_ok, Prod.mk.injEq] at he
    obtain ⟨rfl, rfl, rfl⟩ := he
    exact h

/-- A child fails in library code only. -/
theorem fail (h : Kid N t r k pc) (hu : pc ≠ .user) {w : Site}
    (he : Dsthread.exec N t pc k = .error w) : Kid N t r k (.failed w) := by
  refine ⟨h.snap, ?_, trivial, trivial, h.drift⟩
  have hlev := h.level
  cases pc <;> simp only [Pc.level, reduceCtorEq, Option.some.injEq, ne_eq,
    not_true_eq_false] at hlev hu
  case test c b =>
    simp only [Dsthread.exec] at he
    split at he
    · cases he
    · simp [check, ← hlev, bind, Except.bind, pure, Except.pure] at he
  all_goals exact congrArg some hlev

end Kid

/-! ## Collecting a child -/

section Merge

variable {α : Type} [DecidableEq α]

theorem merge_same (r d : α) : merge r d r = d := by simp [merge]

theorem merge_of_eq (r s : α) : merge r r s = s := by
  unfold merge
  split <;> simp_all

variable {N : ℕ} {t : Tid} {r d k : Mem}

theorem Drift.merge_th (h : Drift N t r k) (u : Tid) : (Mem.merge r d k).th u =
    { d.th u with state := merge (r.th u).state (d.th u).state (k.th u).state } := by
  rcases h.th u with e | ⟨-, -, e⟩
  · simp only [Mem.merge, Pthread.merge, e, merge_same]
  · simp only [Mem.merge, Pthread.merge, e, merge_same]

theorem Drift.merge_mutex (h : Drift N t r k) (m : MutexId) : (Mem.merge r d k).mutex m =
    { d.mutex m with locked := merge (r.mutex m).locked (d.mutex m).locked (k.mutex m).locked } := by
  rcases h.mutex m with e | ⟨-, e⟩
  · simp only [Mem.merge, Mutex.merge, e, merge_same]
  · simp only [Mem.merge, Mutex.merge]
    rw [e]
    simp only [merge_same]

theorem Drift.merge_cond (h : Drift N t r k) (c : CondId) : (Mem.merge r d k).cond c =
    { d.cond c with
      nwake := merge (r.cond c).nwake (d.cond c).nwake (k.cond c).nwake
      evnext := merge (r.cond c).evnext (d.cond c).evnext (k.cond c).evnext } := by
  simp only [Mem.merge, Cond.merge]
  rw [h.cond c]
  simp only [merge_same]

theorem Drift.merge_head (h : Drift N t r k) (q : Queue) :
    (Mem.merge r d k).head q = d.head q := by
  cases q with
  | ready => simp only [Mem.head, Mem.merge, h.readyqhead, merge_same]
  | run => simp only [Mem.head, Mem.merge, h.runqhead, merge_same]
  | mutex m => simp only [Mem.head, h.merge_mutex]
  | cond c => simp only [Mem.head, h.merge_cond]

theorem Drift.merge_tail (h : Drift N t r k) (q : Queue) :
    (Mem.merge r d k).tail q = d.tail q := by
  cases q with
  | ready => simp only [Mem.tail, Mem.merge, h.readyqtail, merge_same]
  | run => simp only [Mem.tail, Mem.merge, h.runqtail, merge_same]
  | mutex m => simp only [Mem.tail, h.merge_mutex]
  | cond c => simp only [Mem.tail, h.merge_cond]

theorem Drift.merge_qnext (h : Drift N t r k) : (Mem.merge r d k).qnext = d.qnext := by
  funext u
  simp only [Mem.qnext, h.merge_th]

/-- Without a conflict, the merge frees exited threads at most. -/
theorem Drift.merge_quiet (h : Drift N t r k)
    (hc : ∀ u < N, (r.th u).clash (d.th u) (k.th u) = false) : Quiet d (Mem.merge r d k) := by
  refine ⟨fun u => ?_, fun u => ?_, fun u => ?_⟩
  · rw [h.merge_th]
  · rw [h.merge_th]
  · rw [h.merge_th]
    rcases h.th u with e | ⟨hu, hx, e⟩
    · left
      simp only [e, merge_same]
    · right
      have hd : (d.th u).state = .exit := by
        have := hc u hu
        simpa [Pthread.clash, e, hx] using this
      simp [e, hx, hd, merge]

end Merge

end Determinator.Dsthread
