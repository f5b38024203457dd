import Determinator.Dsthread.Steps

/-!
# Mutual exclusion

A thread takes a mutex it owns by setting `locked` in its private memory. `Views` is why this is
safe: a running child sees itself as the owner of exactly the mutexes that the master records as
its own, with their flags, because ownership leaves a thread only in the thread's own context or
while it is blocked. `Touch` says what a piece of library code can do to owners and flags.
-/

set_option linter.unusedSectionVars false

namespace Determinator.Dsthread

/-! ## Who holds a mutex -/

/-- Whether thread `t` is in a critical section of `m`, after a note. -/
def Note.flag (t : Tid) (m : MutexId) (b : Bool) : Note → Bool
  | .locked u k => if u = t ∧ k = m then true else b
  | .unlocked u k => if u = t ∧ k = m then false else b
  | _ => b

/-- Thread `t` is between a successful lock of `m` and the matching unlock. -/
def holds (log : List Note) (t : Tid) (m : MutexId) : Bool := log.foldl (Note.flag t m) false

theorem holds_append (log notes : List Note) (t : Tid) (m : MutexId) :
    holds (log ++ notes) t m = notes.foldl (Note.flag t m) (holds log t m) := by
  simp [holds, List.foldl_append]

/-- What a piece of library code of thread `t` does to owners and flags. -/
inductive Touch (t : Tid) (pc : Pc) (μ μ' : Mem) (notes : List Note) : Prop
  | none (ho : ∀ m, (μ'.mutex m).owner = (μ.mutex m).owner)
      (hl : ∀ m, (μ'.mutex m).locked = (μ.mutex m).locked)
      (hn : ∀ log u m, holds (log ++ notes) u m = holds log u m)
  | flag (m : MutexId) (b : Bool) (hm : (μ.mutex m).owner = t)
      (ho : ∀ m', (μ'.mutex m').owner = (μ.mutex m').owner)
      (hl : ∀ m', (μ'.mutex m').locked = if m' = m then b else (μ.mutex m').locked)
      (hn : ∀ log u m', holds (log ++ notes) u m' = if t = u ∧ m = m' then b else holds log u m')
  | steal (m : MutexId) (hpc : pc = .lockSync m) (hf : (μ.mutex m).locked = false)
      (hs : (μ.th (μ.mutex m).owner).state ≠ .run)
      (ho : ∀ m', (μ'.mutex m').owner = if m' = m then t else (μ.mutex m').owner)
      (hl : ∀ m', (μ'.mutex m').locked = (μ.mutex m').locked) (hn : notes = [])
  | give (m : MutexId) (tn : Tid) {mp : Link MutexId} {a : After} (hpc : pc = .reqs mp a)
      (hm : (μ.mutex m).owner = t) (hf : (μ.mutex m).locked = false)
      (hs : (μ.th tn).state = .mutex)
      (ho : ∀ m', (μ'.mutex m').owner = if m' = m then tn else (μ.mutex m').owner)
      (hl : ∀ m', (μ'.mutex m').locked = (μ.mutex m').locked) (hn : notes = [])

theorem wakeup_frame (c : CondId) : ∀ (k : ℕ) {μ μ' : Mem} {ts : List Tid},
    wakeup c k μ = .ok (μ', ts) → μ'.mutex = μ.mutex ∧ μ'.tlock = μ.tlock
  | 0, μ, μ', ts, h => by
    simp only [wakeup, pure_ok, Prod.mk.injEq] at h
    rw [h.1]
    exact ⟨rfl, rfl⟩
  | k + 1, μ, μ', ts, h => by
    unfold wakeup at h
    split at h
    · simp only [pure_ok, Prod.mk.injEq] at h
      rw [h.1]
      exact ⟨rfl, rfl⟩
    · rename_i tw htw
      simp only [bind_ok, check_ok, pure_ok, exists_const, Prod.exists, Prod.mk.injEq] at h
      obtain ⟨-, μ₁, h1, μ₂, ts', h2, rfl, rfl⟩ := h
      have ha := tready_awakes h1
      obtain ⟨hm, ht⟩ := wakeup_frame c k h2
      rw [hm, ht, ha.mutex, ha.tlock, Mem.unlink_mutex (by simp),
        (Relink.unlink μ (.cond c) tw).tlock]
      exact ⟨rfl, rfl⟩

theorem condwakeups_frame {c : CondId} {μ μ' : Mem} {ts : List Tid}
    (h : condwakeups c μ = .ok (μ', ts)) : μ'.mutex = μ.mutex ∧ μ'.tlock = μ.tlock := by
  simp only [condwakeups, bind_ok, check_ok, pure_ok, exists_const, Prod.exists,
    Prod.mk.injEq] at h
  obtain ⟨-, -, μ₁, ts', h1, rfl, rfl⟩ := h
  obtain ⟨hm, ht⟩ := wakeup_frame c _ h1
  simp [Mem.resetTail_mutex, hm, (Relink.resetTail μ₁ (.cond c)).tlock, ht]

theorem setReq_mutex (μ : Mem) (t : Tid) (mp : Link MutexId) (v : Option MutexId) (m : MutexId) :
    ((μ.setReq t mp v).mutex m).owner = (μ.mutex m).owner ∧
    ((μ.setReq t mp v).mutex m).locked = (μ.mutex m).locked ∧
    ((μ.setReq t mp v).mutex m).qhead = (μ.mutex m).qhead := by
  cases mp with
  | head => exact ⟨rfl, rfl, rfl⟩
  | next m' =>
    simp only [Mem.setReq, Mem.setMutex_mutex]
    split
    · rename_i e
      rw [e]
      exact ⟨rfl, rfl, rfl⟩
    · exact ⟨rfl, rfl, rfl⟩

theorem setReq_state (μ : Mem) (t : Tid) (mp : Link MutexId) (v : Option MutexId) (x : Tid) :
    ((μ.setReq t mp v).th x).state = (μ.th x).state := by
  cases mp with
  | head =>
    simp only [Mem.setReq, Mem.setTh_th]
    split
    · rename_i e
      rw [e]
    · rfl
  | next m' => rfl

theorem setReq_tlock (μ : Mem) (t : Tid) (mp : Link MutexId) (v : Option MutexId) :
    (μ.setReq t mp v).tlock = μ.tlock := by
  cases mp <;> rfl

section Touch

variable {N : ℕ} {t : Tid} {pc pc' : Pc} {μ μ' : Mem} {notes : List Note}

theorem Touch.same (h : μ'.mutex = μ.mutex)
    (hn : ∀ log u m, holds (log ++ notes) u m = holds log u m) : Touch t pc μ μ' notes :=
  .none (fun _ => by rw [h]) (fun _ => by rw [h]) hn

theorem Touch.silent (h : μ'.mutex = μ.mutex) : Touch t pc μ μ' [] :=
  .same h fun log u m => by simp

/-- Library code keeps to `Touch`, stays in the master and changes only flags it owns. -/
theorem exec_touch (hown : pc.Owns t μ) (he : exec N t pc μ = .ok (μ', pc', notes)) :
    Touch t pc μ μ' notes ∧ (μ.tlock = 2 → μ'.tlock = 2) ∧ pc'.Owns t μ' := by
  cases pc with
  | lock m =>
    simp only [exec, bind_ok, check_ok, exists_const] at he
    obtain ⟨-, he⟩ := he
    split at he <;>
    · simp only [pure_ok, Prod.mk.injEq] at he
      obtain ⟨rfl, rfl, rfl⟩ := he
      exact ⟨.silent rfl, id, trivial⟩
  | lockCall m | waitCall c m | createCall d | joinCall tj | exitCall =>
    simp only [exec, bind_ok, check_ok, exists_const, pure_ok, Prod.mk.injEq] at he
    obtain ⟨-, rfl, rfl, rfl⟩ := he
    exact ⟨.silent rfl, id, trivial⟩
  | lockSync m =>
    simp only [exec, bind_ok, pure_ok, Prod.mk.injEq] at he
    obtain ⟨μ', h1, rfl, rfl, rfl⟩ := he
    rcases steal_ok h1 with rfl | ⟨hf, hs, -, -, rfl⟩
    · exact ⟨.silent rfl, id, trivial⟩
    · refine ⟨.steal m rfl hf hs (fun m' => ?_) (fun m' => ?_) rfl, id, trivial⟩
      · rw [Mem.setMutex_mutex]
        split <;> rfl
      · rw [Mem.setMutex_mutex]
        split
        · rename_i e
          rw [e]
        · rfl
  | lockIf m =>
    simp only [exec] at he
    split at he
    · simp only [bind_ok, pure_ok, Prod.mk.injEq] at he
      obtain ⟨μ₁, h1, μ₂, h2, pc', h3, rfl, rfl, rfl⟩ := he
      obtain ⟨h4, -, rfl⟩ := tblock_ok h3
      obtain rfl := enlist_ok h2
      have hr := Relink.enqueue μ₁ (.mutex m) t
      refine ⟨.none (fun m' => ?_) (fun m' => ?_) (fun log u m => by simp), fun _ => h4, trivial⟩
      · rw [hr.owner]
        rcases request_ok h1 with ⟨-, rfl⟩ | ⟨-, -, rfl⟩
        · rfl
        · rw [requested_mutex]
      · rw [hr.locked]
        rcases request_ok h1 with ⟨-, rfl⟩ | ⟨-, -, rfl⟩
        · rfl
        · rw [requested_mutex]
    · simp only [pure_ok, Prod.mk.injEq] at he
      obtain ⟨rfl, rfl, rfl⟩ := he
      exact ⟨.silent rfl, id, trivial⟩
  | grab m =>
    simp only [exec, bind_ok, check_ok, exists_const, pure_ok, Prod.mk.injEq] at he
    obtain ⟨ho, -, rfl, rfl, rfl⟩ := he
    exact ⟨.silent rfl, id, ho⟩
  | setLocked m =>
    simp only [exec, pure_ok, Prod.mk.injEq] at he
    obtain ⟨rfl, rfl, rfl⟩ := he
    refine ⟨.flag m true hown (fun m' => ?_) (fun m' => ?_) (fun log u m' => ?_), id, trivial⟩
    · rw [Mem.setMutex_mutex]
      split
      · rename_i e
        rw [e]
      · rfl
    · rw [Mem.setMutex_mutex]
      split <;> rfl
    · rw [holds_append]
      rfl
  | clearLocked m =>
    simp only [exec, pure_ok, Prod.mk.injEq] at he
    obtain ⟨rfl, rfl, rfl⟩ := he
    refine ⟨.flag m false hown (fun m' => ?_) (fun m' => ?_) (fun log u m' => ?_), id, trivial⟩
    · rw [Mem.setMutex_mutex]
      split
      · rename_i e
        rw [e]
      · rfl
    · rw [Mem.setMutex_mutex]
      split <;> rfl
    · rw [holds_append]
      rfl
  | tryLock m =>
    simp only [exec] at he
    split at he
    · simp only [pure_ok, Prod.mk.injEq] at he
      obtain ⟨rfl, rfl, rfl⟩ := he
      exact ⟨.silent rfl, id, trivial⟩
    · rename_i ho
      simp only [bind_ok, check_ok, exists_const, pure_ok, Prod.mk.injEq] at he
      obtain ⟨-, rfl, rfl, rfl⟩ := he
      exact ⟨.silent rfl, id, not_not.1 ho⟩
  | unlock m =>
    simp only [exec, bind_ok, check_ok, exists_const, pure_ok, Prod.mk.injEq] at he
    obtain ⟨-, ho, -, rfl, rfl, rfl⟩ := he
    exact ⟨.silent rfl, id, ho⟩
  | test c b =>
    simp only [exec] at he
    split at he
    · simp only [pure_ok, Prod.mk.injEq] at he
      obtain ⟨rfl, rfl, rfl⟩ := he
      refine ⟨.same rfl fun log u m => ?_, id, trivial⟩
      rw [holds_append]
      cases b <;> rfl
    · simp only [bind_ok, check_ok, exists_const, pure_ok, Prod.mk.injEq] at he
      obtain ⟨h0, rfl, rfl, rfl⟩ := he
      refine ⟨.silent rfl, fun h2 => ?_, trivial⟩
      rw [h0] at h2
      cases h2
  | link c b =>
    simp only [exec] at he
    split at he
    · simp only [bind_ok, check_ok, exists_const, pure_ok, Prod.mk.injEq] at he
      obtain ⟨-, rfl, rfl, rfl⟩ := he
      exact ⟨.silent rfl, id, trivial⟩
    · simp only [pure_ok, Prod.mk.injEq] at he
      obtain ⟨rfl, rfl, rfl⟩ := he
      exact ⟨.silent rfl, id, trivial⟩
  | chain c b =>
    simp only [exec, pure_ok, Prod.mk.injEq] at he
    obtain ⟨rfl, rfl, rfl⟩ := he
    exact ⟨.silent rfl, id, trivial⟩
  | count c b =>
    cases b <;>
    · simp only [exec, pure_ok, Prod.mk.injEq] at he
      obtain ⟨rfl, rfl, rfl⟩ := he
      refine ⟨.same rfl fun log u m => ?_, id, trivial⟩
      rw [holds_append]
      rfl
  | waitSync c m =>
    simp only [exec, bind_ok, check_ok, exists_const, pure_ok, Prod.mk.injEq] at he
    obtain ⟨-, -, -, -, ho, -, pc', h3, rfl, rfl, rfl⟩ := he
    obtain ⟨h4, -, rfl⟩ := tblock_ok h3
    have hm : (μ.enqueue (.cond c) t).mutex = μ.mutex := Mem.enqueue_mutex (by simp) μ t
    rw [hm] at ho
    refine ⟨.flag m false ho (fun m' => ?_) (fun m' => ?_) (fun log u m' => ?_), fun _ => h4,
      trivial⟩
    · rw [Mem.setMutex_mutex, hm]
      split
      · rename_i e
        rw [e]
      · rfl
    · rw [Mem.setMutex_mutex, hm]
      split <;> rfl
    · rw [holds_append]
      rfl
  | createSync d =>
    simp only [exec, bind_ok, pure_ok, Prod.mk.injEq] at he
    obtain ⟨μ', h1, rfl, rfl, rfl⟩ := he
    unfold create at h1
    split at h1
    · cases h1
    · have ha := tready_awakes h1
      exact ⟨.silent ha.mutex, fun h => ha.tlock.trans h, trivial⟩
  | join tj =>
    simp only [exec, bind_ok, check_ok, exists_const] at he
    obtain ⟨-, -, he⟩ := he
    split at he <;>
    · simp only [pure_ok, Prod.mk.injEq] at he
      obtain ⟨rfl, rfl, rfl⟩ := he
      exact ⟨.silent rfl, id, trivial⟩
  | joinSync tj =>
    simp only [exec] at he
    split at he
    · simp only [bind_ok, check_ok, exists_const, pure_ok, Prod.mk.injEq] at he
      obtain ⟨-, -, pc', h3, rfl, rfl, rfl⟩ := he
      obtain ⟨-, -, rfl⟩ := tblock_ok h3
      exact ⟨.silent rfl, id, trivial⟩
    · simp only [pure_ok, Prod.mk.injEq] at he
      obtain ⟨rfl, rfl, rfl⟩ := he
      exact ⟨.silent rfl, id, trivial⟩
  | joinFree tj =>
    simp only [exec, bind_ok, check_ok, exists_const, pure_ok, Prod.mk.injEq] at he
    obtain ⟨-, rfl, rfl, rfl⟩ := he
    exact ⟨.silent rfl, id, trivial⟩
  | exitSync =>
    simp only [exec, bind_ok, check_ok, exists_const, pure_ok, Prod.mk.injEq] at he
    obtain ⟨-, μ', h1, pc', h3, rfl, rfl, rfl⟩ := he
    obtain ⟨h4, -, rfl⟩ := tblock_ok h3
    unfold wakeJoiner at h1
    split at h1
    · simp only [pure_ok] at h1
      rw [h1]
      exact ⟨.silent rfl, id, trivial⟩
    · exact ⟨.silent (tready_awakes h1).mutex, fun _ => h4, trivial⟩
  | ret =>
    simp only [exec, bind_ok, check_ok, exists_const] at he
    obtain ⟨-, he⟩ := he
    split at he
    · rename_i h0
      simp only [pure_ok, Prod.mk.injEq] at he
      obtain ⟨rfl, rfl, rfl⟩ := he
      refine ⟨.silent rfl, fun h2 => ?_, trivial⟩
      rw [h2] at h0
      cases h0
    · simp only [bind_ok, check_ok, exists_const, pure_ok, Prod.mk.injEq] at he
      obtain ⟨h2, rfl, rfl, rfl⟩ := he
      exact ⟨.silent rfl, fun _ => h2, trivial⟩
  | events a =>
    simp only [exec] at he
    split at he
    · simp only [pure_ok, Prod.mk.injEq] at he
      obtain ⟨rfl, rfl, rfl⟩ := he
      exact ⟨.silent rfl, id, trivial⟩
    · simp only [bind_ok, pure_ok, Prod.exists, Prod.mk.injEq] at he
      obtain ⟨μ', ts, h1, rfl, rfl, rfl⟩ := he
      obtain ⟨hm, ht⟩ := condwakeups_frame h1
      refine ⟨.same hm fun log u m => ?_, fun h => ht.trans h, trivial⟩
      rw [holds_append]
      clear h1
      induction ts with
      | nil => rfl
      | cons x xs ih => exact ih
  | reqs mp a =>
    simp only [exec, bind_ok, Prod.exists] at he
    obtain ⟨μ', r, h1, he⟩ := he
    rcases mutexreqs_ok h1 with ⟨-, rfl, rfl⟩ | ⟨m, tn, -, ho, -, ⟨-, rfl, rfl⟩ | ⟨hf, rfl, h2⟩⟩
    · simp only [pure_ok, Prod.mk.injEq] at he
      obtain ⟨rfl, rfl, rfl⟩ := he
      exact ⟨.silent rfl, id, trivial⟩
    · simp only [pure_ok, Prod.mk.injEq] at he
      obtain ⟨rfl, rfl, rfl⟩ := he
      exact ⟨.silent rfl, id, trivial⟩
    · simp only [pure_ok, Prod.mk.injEq] at he
      obtain ⟨rfl, rfl, rfl⟩ := he
      simp only [transfer, bind_ok, check_ok, exists_const] at h2
      obtain ⟨hst, h2⟩ := h2
      have ha := tready_awakes h2
      have hsr := setReq_mutex μ t mp (μ.mutex m).reqnext
      refine ⟨.give m tn rfl ho hf (setReq_state μ t mp _ tn ▸ hst) (fun m' => ?_) (fun m' => ?_)
        rfl, fun h => ?_, trivial⟩
      · rw [ha.mutex, handover_mutex]
        split
        · rfl
        · exact (hsr m').1
      · rw [ha.mutex, handover_mutex]
        split
        · rename_i e
          rw [e]
          exact (hsr m).2.1
        · exact (hsr m').2.1
      · rw [ha.tlock, (handover_rest m tn _).2.1, setReq_tlock, h]
  | user | done | dead | failed =>
    simp only [exec, pure_ok, Prod.mk.injEq] at he
    obtain ⟨rfl, rfl, rfl⟩ := he
    exact ⟨.silent rfl, id, trivial⟩

end Touch

/-! ## What the children see -/

/-- The memory that a thread works on. -/
def Sys.view (s : Sys) (t : Tid) : Mem := if s.up t then s.kid t else s.mem

/-- The children's private memories agree with the master on what the children own. -/
structure Views (N : ℕ) (s : Sys) : Prop where
  tlock : s.mem.tlock = 2
  kid : ∀ t, s.up t = true → Kid N t (s.snap t) (s.kid t) (s.pc t)
  owner : ∀ t m, s.up t = true →
    (((s.snap t).mutex m).owner = t ↔ (s.mem.mutex m).owner = t)
  locked : ∀ t m, s.up t = true → (s.mem.mutex m).owner = t →
    ((s.snap t).mutex m).locked = (s.mem.mutex m).locked
  owns : ∀ t, s.cur t = true → (s.pc t).Owns t s.mem
  held : ∀ t m, holds s.log t m = true →
    (s.mem.mutex m).owner = t ∧ ((s.view t).mutex m).locked = true

namespace Views

variable {N : ℕ} {s : Sys} {p : Tid → Option Queue} {l : Queue → List Tid} {t : Tid} {μ : Mem}
  {pc : Pc} {notes : List Note}

/-- A child sees itself as the owner of the mutexes it owns. -/
theorem kid_owner (h : Views N s) (hu : s.up t = true) (m : MutexId) :
    ((s.kid t).mutex m).owner = t ↔ (s.mem.mutex m).owner = t := by
  rw [(h.kid t hu).drift.owner m]
  exact h.owner t m hu

theorem held_iff (h : Views N s) {x : Tid} {m : MutexId} (hx : holds s.log x m = true) :
    (s.mem.mutex m).owner = x ∧
      (if s.up x then ((s.kid x).mutex m).locked else (s.mem.mutex m).locked) = true := by
  have := h.held x m hx
  unfold Sys.view at this
  refine ⟨this.1, ?_⟩
  split at this <;> simp_all

/-- The master runs code that leaves owners and flags alone. -/
theorem still (h : Views N s) (htl : μ.tlock = 2)
    (hkid : ∀ x, s.up x = true → Function.update s.pc t pc x = s.pc x)
    (howns : ∀ x, s.cur x = true → (Function.update s.pc t pc x).Owns x μ)
    (ho : ∀ m, (μ.mutex m).owner = (s.mem.mutex m).owner)
    (hl : ∀ m, (μ.mutex m).locked = (s.mem.mutex m).locked)
    (hn : ∀ log u m, holds (log ++ notes) u m = holds log u m) :
    Views N (s.ran t μ pc notes) := by
  refine ⟨htl, fun x hx => ?_, fun x m hx => ?_, fun x m hx hm => ?_, howns, fun x m hx => ?_⟩
  · show Kid N x _ _ (Function.update s.pc t pc x)
    rw [hkid x hx]
    exact h.kid x hx
  · show _ ↔ (μ.mutex m).owner = x
    rw [ho m]
    exact h.owner x m hx
  · show _ = (μ.mutex m).locked
    rw [hl m]
    exact h.locked x m hx (ho m ▸ hm)
  · rw [show (s.ran t μ pc notes).log = s.log ++ notes from rfl, hn] at hx
    obtain ⟨h1, h2⟩ := h.held_iff hx
    refine ⟨(ho m).trans h1, ?_⟩
    show ((if s.up x then s.kid x else μ).mutex m).locked = true
    split at h2
    · rename_i hup
      rwa [if_pos hup]
    · rename_i hup
      rw [if_neg hup, hl m]
      exact h2

/-- The master sets or clears the flag of a mutex that its thread owns. -/
theorem flag {m : MutexId} {b : Bool} (h : Views N s) (htl : μ.tlock = 2) (hupt : s.up t = false)
    (hkid : ∀ x, s.up x = true → Function.update s.pc t pc x = s.pc x)
    (howns : ∀ x, s.cur x = true → (Function.update s.pc t pc x).Owns x μ)
    (hm : (s.mem.mutex m).owner = t) (ho : ∀ k, (μ.mutex k).owner = (s.mem.mutex k).owner)
    (hl : ∀ k, (μ.mutex k).locked = if k = m then b else (s.mem.mutex k).locked)
    (hn : ∀ log u k, holds (log ++ notes) u k = if t = u ∧ m = k then b else holds log u k) :
    Views N (s.ran t μ pc notes) := by
  refine ⟨htl, fun x hx => ?_, fun x k hx => ?_, fun x k hx hk => ?_, howns, fun x k hx => ?_⟩
  · show Kid N x _ _ (Function.update s.pc t pc x)
    rw [hkid x hx]
    exact h.kid x hx
  · show _ ↔ (μ.mutex k).owner = x
    rw [ho k]
    exact h.owner x k hx
  · have hk' : (s.mem.mutex k).owner = x := ho k ▸ hk
    have hkm : k ≠ m := by
      rintro rfl
      have hx' : s.up x = true := hx
      rw [← hk', hm, hupt] at hx'
      cases hx'
    show _ = (μ.mutex k).locked
    rw [hl k, if_neg hkm]
    exact h.locked x k hx hk'
  · rw [show (s.ran t μ pc notes).log = s.log ++ notes from rfl, hn] at hx
    show (μ.mutex k).owner = x ∧ ((if s.up x then s.kid x else μ).mutex k).locked = true
    by_cases e : t = x ∧ m = k
    · obtain ⟨rfl, rfl⟩ := e
      rw [if_pos ⟨rfl, rfl⟩] at hx
      rw [ho m, hupt]
      refine ⟨hm, ?_⟩
      simp [hl, hx]
    · rw [if_neg e] at hx
      obtain ⟨h1, h2⟩ := h.held_iff hx
      refine ⟨(ho k).trans h1, ?_⟩
      split at h2
      · rename_i hup
        rwa [if_pos hup]
      · rename_i hup
        have hkm : k ≠ m := by
          rintro rfl
          exact e ⟨hm.symm.trans h1, rfl⟩
        rw [if_neg hup, hl, if_neg hkm]
        exact h2

/-- An unlocked mutex passes from one thread to another, neither of which runs as a child. -/
theorem pass {m : MutexId} {u : Tid} (h : Views N s) (htl : μ.tlock = 2)
    (hkid : ∀ x, s.up x = true → Function.update s.pc t pc x = s.pc x)
    (howns : ∀ x, s.cur x = true → (Function.update s.pc t pc x).Owns x μ)
    (hold : s.up (s.mem.mutex m).owner = false) (hnew : s.up u = false)
    (hf : (s.mem.mutex m).locked = false)
    (ho : ∀ k, (μ.mutex k).owner = if k = m then u else (s.mem.mutex k).owner)
    (hl : ∀ k, (μ.mutex k).locked = (s.mem.mutex k).locked) :
    Views N (s.ran t μ pc []) := by
  refine ⟨htl, fun x hx => ?_, fun x k hx => ?_, fun x k hx hk => ?_, howns, fun x k hx => ?_⟩
  · show Kid N x _ _ (Function.update s.pc t pc x)
    rw [hkid x hx]
    exact h.kid x hx
  · have hx' : s.up x = true := hx
    refine (h.owner x k hx).trans ?_
    show _ ↔ (μ.mutex k).owner = x
    rw [ho k]
    split
    · rename_i e
      subst e
      refine iff_of_false ?_ ?_
      · rintro rfl
        rw [hold] at hx'
        cases hx'
      · rintro rfl
        rw [hnew] at hx'
        cases hx'
    · rfl
  · have hx' : s.up x = true := hx
    have hk' : (μ.mutex k).owner = x := hk
    rw [ho k] at hk'
    split at hk'
    · rw [← hk', hnew] at hx'
      cases hx'
    · exact (h.locked x k hx hk').trans (hl k).symm
  · rw [show (s.ran t μ pc []).log = s.log ++ [] from rfl, List.append_nil] at hx
    obtain ⟨h1, h2⟩ := h.held_iff hx
    have hkm : k ≠ m := by
      rintro rfl
      rw [h1] at hold
      rw [hold, hf] at h2
      simp at h2
    show (μ.mutex k).owner = x ∧ ((if s.up x then s.kid x else μ).mutex k).locked = true
    rw [ho, if_neg hkm]
    refine ⟨h1, ?_⟩
    split at h2
    · rename_i hup
      rwa [if_pos hup]
    · rename_i hup
      rw [if_neg hup, hl]
      exact h2

/-- The master runs a piece of library code for a thread. -/
theorem exec (h : Views N s) (hs : Sched s p l) (hw : s.who = .thread t)
    (he : exec N t (s.pc t) s.mem = .ok (μ, pc, notes)) : Views N (s.ran t μ pc notes) := by
  have hupt := hs.cur_up hw
  obtain ⟨touch, htl, hown⟩ := exec_touch (h.owns t (Sys.cur_self hw)) he
  have hkid : ∀ x, s.up x = true → Function.update s.pc t pc x = s.pc x := by
    intro x hx
    refine Function.update_of_ne ?_ _ _
    rintro rfl
    rw [hupt] at hx
    cases hx
  have howns : ∀ x, s.cur x = true → (Function.update s.pc t pc x).Owns x μ := by
    intro x hx
    have e : x = t := Sys.eq_of_cur hw hx
    subst e
    rwa [Function.update_self]
  cases touch with
  | none ho hl hn => exact h.still (htl h.tlock) hkid howns ho hl hn
  | flag m b hm ho hl hn => exact h.flag (htl h.tlock) hupt hkid howns hm ho hl hn
  | steal m hpc hf hst ho hl hn =>
    subst hn
    refine h.pass (htl h.tlock) hkid howns ?_ hupt hf ho hl
    by_contra hup
    exact hst (hs.up_state (by simpa using hup))
  | give m tn hpc hm hf hst ho hl hn =>
    subst hn
    refine h.pass (htl h.tlock) hkid howns (hm ▸ hupt) ?_ hf ho hl
    by_contra hup
    have := hs.up_state (t := tn) (by simpa using hup)
    rw [hst] at this
    cases this

/-- The master's thread fails. -/
theorem fail (h : Views N s) (hs : Sched s p l) (hw : s.who = .thread t) (w : Site) :
    Views N (s.fail t w) := by
  have hupt := hs.cur_up hw
  refine ⟨h.tlock, fun x hx => ?_, h.owner, h.locked, fun x hx => ?_, h.held⟩
  · have hxt : x ≠ t := by
      rintro rfl
      have hx' : s.up x = true := hx
      rw [hupt] at hx'
      cases hx'
    show Kid N x _ _ (Function.update s.pc t (.failed w) x)
    rw [Function.update_of_ne hxt]
    exact h.kid x hx
  · have e : x = t := Sys.eq_of_cur hw hx
    subst e
    show Pc.Owns x s.mem (Function.update s.pc x (.failed w) x)
    rw [Function.update_self]
    trivial

/-- A child moves on without touching a flag. -/
theorem kidStay {k : Mem} (h : Views N s) (hu : s.up t = true) (hc : s.cur t = false)
    (hk : Kid N t (s.snap t) k pc)
    (hl : ∀ m, (k.mutex m).locked = ((s.kid t).mutex m).locked) (notes : List Note)
    (hn : ∀ log u m, holds (log ++ notes) u m = holds log u m) :
    Views N { s with
      kid := Function.update s.kid t k, pc := Function.update s.pc t pc, log := s.log ++ notes } := by
  refine ⟨h.tlock, fun x hx => ?_, h.owner, h.locked, fun x hx => ?_, fun x m hx => ?_⟩
  · by_cases e : x = t
    · subst e
      simpa using hk
    · simpa [Function.update_of_ne e] using h.kid x hx
  · have e : x ≠ t := by
      rintro rfl
      have hx' : s.cur x = true := hx
      rw [hc] at hx'
      cases hx'
    simpa [Function.update_of_ne e] using h.owns x hx
  · rw [hn] at hx
    obtain ⟨h1, h2⟩ := h.held_iff hx
    refine ⟨h1, ?_⟩
    show ((if s.up x then Function.update s.kid t k x else s.mem).mutex m).locked = true
    by_cases e : x = t
    · subst e
      rw [if_pos hu] at h2
      rw [if_pos hu, Function.update_self, hl]
      exact h2
    · rw [Function.update_of_ne e]
      split at h2
      · rename_i hup
        rwa [if_pos hup]
      · rename_i hup
        rwa [if_neg hup]

/-- A child runs a piece of library code. -/
theorem kidExec {k : Mem} (h : Views N s) (hu : s.up t = true) (hc : s.cur t = false)
    (hus : s.pc t ≠ .user) (htr : (s.pc t).traps = false)
    (he : Dsthread.exec N t (s.pc t) (s.kid t) = .ok (k, pc, notes)) :
    Views N { s with
      kid := Function.update s.kid t k, pc := Function.update s.pc t pc, log := s.log ++ notes } := by
  have hkid := h.kid t hu
  have hk := hkid.exec hus htr he
  obtain ⟨touch, -, -⟩ := exec_touch hkid.owns he
  cases touch with
  | none ho hl hn => exact h.kidStay hu hc hk hl notes hn
  | steal m hpc =>
    have := hkid.level
    rw [hpc] at this
    cases this
  | give m tn hpc =>
    have := hkid.level
    rw [hpc] at this
    cases this
  | flag m b hm ho hl hn =>
    have hm' : (s.mem.mutex m).owner = t := (h.kid_owner hu m).1 hm
    refine ⟨h.tlock, fun x hx => ?_, h.owner, h.locked, fun x hx => ?_, fun x k' hx => ?_⟩
    · by_cases e : x = t
      · subst e
        simpa using hk
      · simpa [Function.update_of_ne e] using h.kid x hx
    · have e : x ≠ t := by
        rintro rfl
        have hx' : s.cur x = true := hx
        rw [hc] at hx'
        cases hx'
      simpa [Function.update_of_ne e] using h.owns x hx
    · rw [hn] at hx
      show (s.mem.mutex k').owner = x ∧
        ((if s.up x then Function.update s.kid t k x else s.mem).mutex k').locked = true
      by_cases e : t = x ∧ m = k'
      · obtain ⟨rfl, rfl⟩ := e
        rw [if_pos ⟨rfl, rfl⟩] at hx
        refine ⟨hm', ?_⟩
        rw [if_pos hu, Function.update_self, hl, if_pos rfl, hx]
      · rw [if_neg e] at hx
        obtain ⟨h1, h2⟩ := h.held_iff hx
        refine ⟨h1, ?_⟩
        by_cases ex : x = t
        · subst ex
          have hkm : k' ≠ m := fun e' => e ⟨rfl, e'.symm⟩
          rw [if_pos hu] at h2
          rw [if_pos hu, Function.update_self, hl, if_neg hkm]
          exact h2
        · rw [Function.update_of_ne ex]
          split at h2
          · rename_i hup
            rwa [if_pos hup]
          · rename_i hup
            rwa [if_neg hup]

/-- A child fails. -/
theorem kidFail {w : Site} (h : Views N s) (hu : s.up t = true) (hc : s.cur t = false)
    (hk : Kid N t (s.snap t) (s.kid t) (.failed w)) : Views N (s.fail t w) := by
  have := h.kidStay hu hc hk (fun _ => rfl) [] (by simp)
  simp only [Function.update_eq_self, List.append_nil] at this
  exact this

/-- The master's thread blocks. -/
theorem block (h : Views N s) (st : TState) (eip : Pc) : Views N (s.block t st eip) := by
  refine ⟨h.tlock, h.kid, h.owner, h.locked, fun x hx => ?_, fun x m hx => ?_⟩
  · simp [Sys.cur, Sys.block] at hx
  · obtain ⟨h1, h2⟩ := h.held_iff hx
    refine ⟨h1, ?_⟩
    show ((if s.up x then s.kid x else
      s.mem.setTh t fun y => { y with state := st, eip := eip }).mutex m).locked = true
    split at h2
    · rename_i hup
      rwa [if_pos hup]
    · rename_i hup
      rwa [if_neg hup]

/-- The master's thread goes on as a child. -/
theorem resume {who : Who} (h : Views N s) (hr : trun N t s.mem = .ok μ) (hupt : s.up t = false)
    (hpc : pc.level = some 0) (hwho : ∀ x, who ≠ .thread x) :
    Views N { ({ s with mem := μ }).start t pc with who := who } := by
  obtain ⟨-, rfl⟩ := trun_ok hr
  have hm : (s.mem.enqueue .run t).mutex = s.mem.mutex := Mem.enqueue_mutex (by simp) _ _
  have htl : (s.mem.enqueue .run t).tlock = 2 := (Relink.enqueue _ _ _).tlock.trans h.tlock
  have hpc' : pc.Owns t (s.mem.enqueue .run t) ∧ pc.Bounded N := by
    cases pc <;> simp_all [Pc.level, Pc.Owns, Pc.Bounded]
  refine ⟨htl, fun x hx => ?_, fun x m hx => ?_, fun x m hx hxm => ?_, fun x hx => ?_,
    fun x m hx => ?_⟩
  · by_cases e : x = t
    · subst e
      simp only [Sys.start, Function.update_self]
      refine ⟨rfl, hpc, ?_, hpc'.2, .refl _ _ _⟩
      have := hpc'.1
      cases pc <;> simp_all [Pc.level, Pc.Owns]
    · simp only [Sys.start, Function.update_of_ne e] at hx ⊢
      exact h.kid x hx
  · by_cases e : x = t
    · subst e
      simp only [Sys.start, Function.update_self]
    · simp only [Sys.start, Function.update_of_ne e, hm] at hx ⊢
      exact h.owner x m hx
  · by_cases e : x = t
    · subst e
      simp only [Sys.start, Function.update_self]
    · simp only [Sys.start, Function.update_of_ne e, hm] at hx hxm ⊢
      exact h.locked x m hx hxm
  · simp [Sys.cur, hwho] at hx
  · obtain ⟨h1, h2⟩ := h.held_iff hx
    refine ⟨by simpa [Sys.start, hm] using h1, ?_⟩
    by_cases e : x = t
    · subst e
      rw [hupt] at h2
      simpa [Sys.view, Sys.start, hm] using h2
    · simp only [Sys.view, Sys.start, Function.update_of_ne e, hm]
      split at h2
      · rename_i hup
        rwa [if_pos hup]
      · rename_i hup
        rwa [if_neg hup]

/-- The master's thread is through with its events. -/
theorem finish {a : After} (h : Views N s) (hs : Sched s p l) (hw : s.who = .thread t) :
    Views N (s.finish N t a) := by
  have hrun : ∀ (pc : Pc) (who : Who), pc.level = some 0 → (∀ x, who ≠ .thread x) →
      Views N (s.resume N t pc who) := by
    intro pc who hpc hwho
    unfold Sys.resume
    split
    · exact h.fail hs hw _
    · rename_i μ' hr
      exact h.resume hr (hs.cur_up hw) hpc hwho
  cases a with
  | ret | user | test => exact hrun _ _ rfl (by simp)
  | lock | wait | join | exit => exact h.block _ _

/-- The scheduler resumes a ready thread. -/
theorem schedStep (h : Views N s) (hs : Sched s p l) (hw : s.who = .sched) :
    Views N s.schedStep := by
  unfold Sys.schedStep
  split
  · exact ⟨h.tlock, h.kid, h.owner, h.locked, fun x hx => by simp [Sys.cur] at hx, h.held⟩
  · rename_i t ht
    have hp : p t = some .ready := hs.queued.place_of_head (q := .ready) ht
    have hcur : s.cur t = false := by simp [Sys.cur, hw]
    have hsp := hs.spots.spot t
    rw [hp, hcur] at hsp
    obtain ⟨hup, -, hwk⟩ := hsp.of_ready
    have hr := (Relink.unlink s.mem .ready t).trans (Relink.resetTail _ .ready)
    have hm : ((s.mem.unlink .ready t).resetTail .ready).mutex = s.mem.mutex := by
      rw [Mem.resetTail_mutex (by simp), Mem.unlink_mutex (by simp)]
    refine ⟨hr.tlock.trans h.tlock, fun x hx => ?_, fun x m hx => ?_, fun x m hx hxm => ?_,
      fun x hx => ?_, fun x m hx => ?_⟩
    · have e : x ≠ t := by
        rintro rfl
        have hx' : s.up x = true := hx
        rw [hup] at hx'
        cases hx'
      simp only [Function.update_of_ne e]
      exact h.kid x hx
    · simp only [hm]
      exact h.owner x m hx
    · simp only [hm] at hxm ⊢
      exact h.locked x m hx hxm
    · have e : x = t := by
        have := Sys.who_of_cur hx
        injection this with e
        exact e.symm
      subst e
      simp only [Function.update_self]
      generalize (s.mem.th x).eip = eip at hwk
      cases eip <;> simp_all [Pc.Wakes, Pc.Owns]
    · obtain ⟨h1, h2⟩ := h.held_iff hx
      simp only [Sys.view, hm]
      refine ⟨h1, ?_⟩
      split at h2
      · rename_i hup
        rwa [if_pos hup]
      · rename_i hup
        rwa [if_neg hup, hm]

/-- The scheduler has merged the memory of a child into the master. -/
theorem collect {d : Mem} (h : Views N s) (hu : s.up t = true)
    (hd : d.mutex = s.mem.mutex) (howns : pc.Owns t s.mem) :
    Views N { s with
      mem := { Mem.merge (s.snap t) d (s.kid t) with tlock := 2 }
      up := Function.update s.up t false
      pc := Function.update s.pc t pc
      who := .thread t } := by
  have hk := h.kid t hu
  have ho : ∀ m, ((Mem.merge (s.snap t) d (s.kid t)).mutex m).owner = (s.mem.mutex m).owner := by
    intro m
    rw [hk.drift.merge_mutex, hd]
  have hlt : ∀ m, (s.mem.mutex m).owner = t →
      ((Mem.merge (s.snap t) d (s.kid t)).mutex m).locked = ((s.kid t).mutex m).locked := by
    intro m hm
    rw [hk.drift.merge_mutex, hd, h.locked t m hu hm]
    exact merge_of_eq _ _
  have hlo : ∀ m, (s.mem.mutex m).owner ≠ t →
      ((Mem.merge (s.snap t) d (s.kid t)).mutex m).locked = (s.mem.mutex m).locked := by
    intro m hm
    rw [hk.drift.merge_mutex, hd]
    rcases hk.drift.mutex m with e | ⟨e, -⟩
    · rw [e]
      exact merge_same _ _
    · exact absurd ((h.owner t m hu).1 e) hm
  have hup : ∀ x, Function.update s.up t false x = true → x ≠ t ∧ s.up x = true := by
    intro x hx
    by_cases e : x = t
    · subst e
      simp at hx
    · rw [Function.update_of_ne e] at hx
      exact ⟨e, hx⟩
  refine ⟨rfl, fun x hx => ?_, fun x m hx => ?_, fun x m hx hxm => ?_, fun x hx => ?_,
    fun x m hx => ?_⟩
  · obtain ⟨e, hx⟩ := hup x hx
    simp only [Function.update_of_ne e]
    exact h.kid x hx
  · obtain ⟨e, hx⟩ := hup x hx
    show _ ↔ ((Mem.merge (s.snap t) d (s.kid t)).mutex m).owner = x
    rw [ho]
    exact h.owner x m hx
  · obtain ⟨e, hx⟩ := hup x hx
    have hxm' : (s.mem.mutex m).owner = x := (ho m).symm.trans hxm
    show _ = ((Mem.merge (s.snap t) d (s.kid t)).mutex m).locked
    rw [hlo m (hxm' ▸ e)]
    exact h.locked x m hx hxm'
  · have e : x = t := by
      have := Sys.who_of_cur hx
      injection this with e
      exact e.symm
    subst e
    simp only [Function.update_self]
    cases pc <;> simp only [Pc.Owns] at howns ⊢
    · exact (ho _).trans howns
    · exact (ho _).trans howns
  · obtain ⟨h1, h2⟩ := h.held_iff hx
    refine ⟨(ho m).trans h1, ?_⟩
    show ((if Function.update s.up t false x then s.kid x else
      { Mem.merge (s.snap t) d (s.kid t) with tlock := 2 }).mutex m).locked = true
    by_cases e : x = t
    · subst e
      rw [if_pos hu] at h2
      rw [Function.update_self]
      show ((Mem.merge (s.snap x) d (s.kid x)).mutex m).locked = true
      rw [hlt m h1]
      exact h2
    · rw [Function.update_of_ne e]
      split at h2
      · rename_i hup
        rwa [if_pos hup]
      · rename_i hup
        rw [if_neg hup]
        show ((Mem.merge (s.snap t) d (s.kid t)).mutex m).locked = true
        rw [hlo m (h1 ▸ e)]
        exact h2

end Views

/-! ## Collecting a child -/

/-- What the scheduler does when it collects the child `t`: `d` is the master's memory before the
merge, and the thread goes on at `pc`. -/
structure Collects (s s' : Sys) (p : Tid → Option Queue) (l : Queue → List Tid) (t : Tid)
    (ts : List Tid) (d : Mem) (pc : Pc) : Prop where
  up : s.up t = true
  list : l .run = t :: ts
  before : d = { (s.mem.unlink .run t).resetTail .run with
    runqlen := s.mem.runqlen - 1, tlock := 0 }
  after : s' = { s with
    mem := { Mem.merge (s.snap t) d (s.kid t) with tlock := 2 }
    up := Function.update s.up t false
    pc := Function.update s.pc t pc
    who := .thread t }
  next : pc = s.pc t ∨ pc = .events (Sys.preempted (s.pc t)) ∧ (s.kid t).tlock = 0
  owns : pc.Owns t s.mem
  quiet : Quiet d (Mem.merge (s.snap t) d (s.kid t))
  sched : Sched s' (Function.update p t none) (Function.update l .run ts)

section

variable {N : ℕ} {s s' : Sys} {p : Tid → Option Queue} {l : Queue → List Tid} {t : Tid}
  {ts : List Tid} {d : Mem} {pc : Pc}

theorem Collects.mutex (h : Collects s s' p l t ts d pc) : d.mutex = s.mem.mutex := by
  rw [h.before]
  show ((s.mem.unlink .run t).resetTail .run).mutex = s.mem.mutex
  rw [Mem.resetTail_mutex (by simp), Mem.unlink_mutex (by simp)]

theorem Collects.views (h : Collects s s' p l t ts d pc) (hv : Views N s) : Views N s' := by
  rw [h.after]
  exact hv.collect h.up h.mutex h.owns

/-- The master's memory once `t` was collected. -/
theorem merged_sched (hsch : Sched s p l) (hv : Views N s) (hw : s.who = .collect)
    (ht : s.mem.runqhead = some t) (hl : l .run = t :: ts)
    (hd : d = { (s.mem.unlink .run t).resetTail .run with
      runqlen := s.mem.runqlen - 1, tlock := 0 })
    (hq : Quiet d (Mem.merge (s.snap t) d (s.kid t))) (hu : s.up t = true) (hf : pc.Fits none) :
    Sched { s with
      mem := { Mem.merge (s.snap t) d (s.kid t) with tlock := 2 }
      up := Function.update s.up t false
      pc := Function.update s.pc t pc
      who := .thread t } (Function.update p t none) (Function.update l .run ts) := by
  have hk := (hv.kid t hu).drift
  have hdh : ∀ q, d.head q = ((s.mem.unlink .run t).resetTail .run).head q := by
    intro q
    subst hd
    cases q <;> rfl
  have hdt : ∀ q, d.tail q = ((s.mem.unlink .run t).resetTail .run).tail q := by
    intro q
    subst hd
    cases q <;> rfl
  have hdq : d.qnext = ((s.mem.unlink .run t).resetTail .run).qnext := by
    subst hd
    rfl
  have hdth : d.th = ((s.mem.unlink .run t).resetTail .run).th := by
    subst hd
    rfl
  have hq' : Quiet ((s.mem.unlink .run t).resetTail .run)
      { Mem.merge (s.snap t) d (s.kid t) with tlock := 2 } :=
    ⟨fun x => hdth ▸ hq.eip x, fun x => hdth ▸ hq.joiner x, fun x => hdth ▸ hq.state x⟩
  have hn : (Mem.merge (s.snap t) d (s.kid t)).runqlen = s.mem.runqlen - 1 := by
    simp [Mem.merge, hk.runqlen, merge_same, hd]
  have hhead : ∀ q, ({ Mem.merge (s.snap t) d (s.kid t) with tlock := 2 } : Mem).head q =
      ((s.mem.unlink .run t).resetTail .run).head q := by
    intro q
    have := (hk.merge_head (d := d) q).trans (hdh q)
    cases q <;> exact this
  have htail : ∀ q, ({ Mem.merge (s.snap t) d (s.kid t) with tlock := 2 } : Mem).tail q =
      ((s.mem.unlink .run t).resetTail .run).tail q := by
    intro q
    have := (hk.merge_tail (d := d) q).trans (hdt q)
    cases q <;> exact this
  obtain ⟨ts', hl', hsc⟩ := hsch.collect hw
    { Mem.merge (s.snap t) d (s.kid t) with tlock := 2 } pc ht hhead htail
    (hk.merge_qnext.trans hdq) hq' hn hf
  have e : ts' = ts := by
    rw [hl] at hl'
    injection hl' with _ e
    exact e.symm
  rwa [e] at hsc

theorem collectStep_ok (hsch : Sched s p l) (hv : Views N s) (hw : s.who = .collect)
    (hs : s.collectStep N = some s') : ∃ t ts d pc, Collects s s' p l t ts d pc := by
  unfold Sys.collectStep at hs
  split at hs
  · cases hs
  · rename_i t ht
    have hp : p t = some .run := hsch.queued.place_of_head (q := .run) ht
    obtain ⟨ts, hl⟩ := hsch.queued.cons_of_head (q := .run) ht
    have hu : s.up t = true := (hsch.up_iff t).2 hp
    have hk := hv.kid t hu
    have hr := (Relink.unlink s.mem .run t).trans (Relink.resetTail _ .run)
    simp only [hr.runqlen] at hs
    split at hs
    · rename_i h0
      rw [hsch.len, hl] at h0
      cases h0
    · split at hs
      · cases hs
      · rename_i hcl
        set d : Mem := { (s.mem.unlink .run t).resetTail .run with
          runqlen := s.mem.runqlen - 1, tlock := 0 } with hd
        have hclash : ∀ u < N, ((s.snap t).th u).clash (d.th u) ((s.kid t).th u) = false := by
          intro u hu
          simp only [List.any_eq_true, List.mem_range, not_exists, not_and] at hcl
          simpa using hcl u hu
        have htl : (Mem.merge (s.snap t) d (s.kid t)).tlock = (s.kid t).tlock := by
          show merge (s.snap t).tlock 0 (s.kid t).tlock = _
          rw [hk.snap]
          exact merge_of_eq _ _
        have hq := hk.drift.merge_quiet hclash
        have hpcself : Function.update s.pc t (s.pc t) = s.pc := Function.update_eq_self _ _
        have hlev := hk.level
        simp only [htl] at hs
        split at hs
        · cases hs
          refine ⟨t, ts, d, s.pc t, hu, hl, hd, by rw [hpcself], .inl rfl, ?_, hq, ?_⟩
          · have ho := hk.owns
            generalize s.pc t = pc at ho ⊢
            cases pc <;> simp only [Pc.Owns] at ho ⊢
            · exact (hv.kid_owner hu _).1 ho
            · exact (hv.kid_owner hu _).1 ho
          · have := merged_sched hsch hv hw ht hl hd hq hu (Pc.Fits_of_level hlev)
            rwa [hpcself] at this
        · split at hs
          · rename_i h0
            cases hs
            have hf : (Pc.events (Sys.preempted (s.pc t))).Fits none := by
              unfold Sys.preempted
              split <;> rfl
            exact ⟨t, ts, d, _, hu, hl, hd, rfl, .inr ⟨rfl, h0⟩, trivial, hq,
              merged_sched hsch hv hw ht hl hd hq hu hf⟩
          · rename_i h1 h0
            generalize s.pc t = pc at hlev
            cases pc <;> simp_all [Pc.level]

end

/-! ## Every state reached -/

/-- Thread 0 is on the run queue. -/
theorem Sched.init (owner : MutexId → Tid) :
    Sched (Sys.init owner) (fun t => if t = 0 then some .run else none)
      (fun q => if q = .run then [0] else []) := by
  refine ⟨⟨fun q => ?_, fun t q => ?_, fun t ht => rfl⟩, ⟨fun t => ?_, fun j u hl hj => ?_⟩, rfl⟩
  · cases q with
    | run => exact ⟨⟨rfl, rfl⟩, by simp, rfl⟩
    | ready => exact ⟨rfl, by simp, rfl⟩
    | mutex m => exact ⟨rfl, by simp, rfl⟩
    | cond c => exact ⟨rfl, by simp, rfl⟩
  · by_cases ht : t = 0
    · by_cases hq : q = .run <;> simp [ht, hq, eq_comm]
    · by_cases hq : q = .run <;> simp [ht, hq]
  · by_cases ht : t = 0
    · subst ht
      exact .child
    · simp only [Sys.init, Sys.initMem, ht, if_false, decide_false]
      exact .gone (.inl rfl)
  · cases hj

theorem Views.init (N : ℕ) (owner : MutexId → Tid) : Views N (Sys.init owner) := by
  refine ⟨rfl, fun t ht => ?_, fun t m ht => Iff.rfl, fun t m ht hm => rfl, fun t ht => ?_,
    fun t m h => ?_⟩
  · have e : t = 0 := by simpa [Sys.init] using ht
    subst e
    exact ⟨rfl, rfl, trivial, trivial, .refl _ _ _⟩
  · simp [Sys.cur, Sys.init] at ht
  · simp [Sys.init, holds] at h

/-- The invariant of the scheduler and of the children's memories. -/
structure Good (N : ℕ) (s : Sys) : Prop where
  sched : ∃ p l, Sched s p l
  views : Views N s

namespace Good

variable {N : ℕ} {s s' : Sys} {t : Tid}

theorem init (N : ℕ) (owner : MutexId → Tid) : Good N (Sys.init owner) :=
  ⟨⟨_, _, .init owner⟩, .init N owner⟩

/-- A child takes a step. -/
theorem kidStep {call : Call} (h : Good N s) (hu : s.up t = true)
    (hs : s.kidStep N t call = some s') : Good N s' := by
  obtain ⟨⟨p, l, hsch⟩, hv⟩ := h
  have hk := hv.kid t hu
  have hc : s.cur t = false := by
    by_contra hc
    rw [hsch.cur_up (Sys.who_of_cur (by simpa using hc))] at hu
    cases hu
  unfold Sys.kidStep at hs
  split at hs
  · rename_i hus
    rw [hus] at hk
    split at hs
    · rename_i w he
      obtain ⟨x, hx⟩ := hk.enter_ok call
      rw [he] at hx
      cases hx
    · rename_i μ pc he
      cases hs
      have hk' := hk.enter he
      refine ⟨⟨p, l, hsch.kid hu _ _ _⟩, ?_⟩
      have := hv.kidStay hu hc hk' (fun m => ?_) [] (by simp)
      · simpa using this
      · have hm : μ.mutex = (s.kid t).mutex := enter_mutex he
        rw [hm]
  · rename_i hus
    split at hs
    · cases hs
    · rename_i htr
      split at hs
      · rename_i w he
        cases hs
        exact ⟨⟨p, l, hsch.kid hu s.kid (.failed w) s.log⟩, hv.kidFail hu hc (hk.fail hus he)⟩
      · rename_i μ pc notes he
        cases hs
        exact ⟨⟨p, l, hsch.kid hu _ _ _⟩, hv.kidExec hu hc hus (by simpa using htr) he⟩

/-- The master takes a step for a thread. -/
theorem masterStep (h : Good N s) (hw : s.who = .thread t) : Good N (s.masterStep N t) := by
  obtain ⟨⟨p, l, hsch⟩, hv⟩ := h
  unfold Sys.masterStep
  split
  · rename_i a hpc
    obtain ⟨p', l', hs, -⟩ := hsch.finish hw hpc
    exact ⟨⟨p', l', hs⟩, hv.finish hsch hw⟩
  · split
    · exact ⟨⟨p, l, hsch.fail hw _⟩, hv.fail hsch hw _⟩
    · rename_i μ pc notes he
      obtain ⟨p', l', hs, -⟩ := hsch.exec hw hv.tlock he
      exact ⟨⟨p', l', hs⟩, hv.exec hsch hw he⟩

/-- The scheduler collects a child. -/
theorem collectStep (h : Good N s) (hw : s.who = .collect) (hs : s.collectStep N = some s') :
    Good N s' := by
  obtain ⟨⟨p, l, hsch⟩, hv⟩ := h
  obtain ⟨t, ts, d, pc, hc⟩ := collectStep_ok hsch hv hw hs
  exact ⟨⟨_, _, hc.sched⟩, hc.views hv⟩

theorem step {a : Act} (h : Good N s) (hs : s.step N a = some s') : Good N s' := by
  unfold Sys.step at hs
  split at hs
  · split at hs
    · rename_i t call hu
      exact h.kidStep hu hs
    · cases hs
  · split at hs
    · rename_i hw
      cases hs
      obtain ⟨⟨p, l, hsch⟩, hv⟩ := h
      obtain ⟨p', l', hs, -⟩ := hsch.schedStep hw
      exact ⟨⟨p', l', hs⟩, hv.schedStep hsch hw⟩
    · rename_i hw
      exact h.collectStep hw hs
    · rename_i t hw
      cases hs
      exact h.masterStep hw

theorem run {P : Sys → Act → Prop} {owner : MutexId → Tid} (h : Sys.Run N P owner s) :
    Good N s := by
  induction h with
  | init => exact init N owner
  | step _ _ hs ih => exact ih.step hs

end Good

/-- No two threads are between a successful lock and the matching unlock of one mutex, and
collecting a child never conflicts on a field of a mutex. -/
theorem mutual_exclusion {N : ℕ} {owner : MutexId → Tid} {s : Sys}
    (h : Sys.Run N (fun _ _ => True) owner s) :
    (∀ m t u, holds s.log t m = true → holds s.log u m = true → t = u) ∧
    ∀ t m, s.up t = true →
      ¬ ((s.snap t).mutex m).Clash (s.mem.mutex m) ((s.kid t).mutex m) := by
  obtain ⟨-, hv⟩ := Good.run h
  refine ⟨fun m t u ht hu => ?_, fun t m hup hc => ?_⟩
  · exact (hv.held t m ht).1.symm.trans (hv.held u m hu).1
  · have hd := (hv.kid t hup).drift
    rcases hd.mutex m with e | ⟨ho, e⟩
    · simp [Mutex.Clash, Clash, e] at hc
    · rw [e] at hc
      have hlk := hv.locked t m hup ((hv.owner t m hup).1 ho)
      simp [Mutex.Clash, Clash, hlk] at hc

theorem Sys.run_of_checked {N : ℕ} {P : Sys → Act → Prop} {ok : Sys → Act → Bool}
    {owner : MutexId → Tid} (hok : ∀ s a, ok s a = true → P s a) :
    ∀ {as : List Act} {s s' : Sys}, Sys.Run N P owner s → s.checked N ok as = some s' →
      Sys.Run N P owner s'
  | [], _, _, h, e => by
    cases e
    exact h
  | a :: as, s, s', h, e => by
    unfold Sys.checked at e
    split at e
    · rename_i ha
      obtain ⟨s₁, h1, h2⟩ := Option.bind_eq_some_iff.1 e
      exact run_of_checked hok (h.step (hok s a ha) h1) h2
    · cases e

/-- Thread 0 creates thread 1 and takes mutex 0, which thread 1 then waits for. -/
def contended : List Act :=
  [.kid 0 (.create false)] ++ List.replicate 13 .master ++
  [.kid 0 (.mutexLock 0)] ++ List.replicate 5 (.kid 0 .exit) ++
  [.kid 1 (.mutexLock 0), .kid 1 .exit] ++ List.replicate 20 .master

/-- While thread 0 holds the mutex, no other thread does. -/
theorem mutual_exclusion_contended :
    (((Sys.init fun _ => 0).checked 16 (fun _ _ => true) contended).map fun s =>
      (holds s.log 0 0, (s.mem.th 1).state)) = some (true, .mutex) ∧
    ∀ s, (Sys.init fun _ => 0).checked 16 (fun _ _ => true) contended = some s →
      ∀ u, holds s.log u 0 = true → u = 0 := by
  have hrun : (((Sys.init fun _ => 0).checked 16 (fun _ _ => true) contended).map fun s =>
      (holds s.log 0 0, (s.mem.th 1).state)) = some (true, .mutex) := by decide +kernel
  refine ⟨hrun, fun s hs u hu => ?_⟩
  rw [hs] at hrun
  have h0 : holds s.log 0 0 = true := by
    simp only [Option.map_some, Option.some.injEq, Prod.mk.injEq] at hrun
    exact hrun.1
  have hr := Sys.run_of_checked (P := fun _ _ => True) (fun _ _ _ => trivial) (.init (N := 16)) hs
  exact (mutual_exclusion hr).1 0 u 0 hu h0

end Determinator.Dsthread
