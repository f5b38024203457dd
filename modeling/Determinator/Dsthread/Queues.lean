import Determinator.User.Dsthread
import Mathlib.Data.Fintype.Basic

/-!
# The queues through `qnext`

The run queue, the ready queue and the wait queues of mutexes and condition variables share the
threads' `qnext`. `Queued μ p l` says that they are well formed in the memory `μ`: each queue `q`
holds the list `l q`, and a thread is on the one queue `p t`, if any. `enqueue` and `unlink` keep
this; all other code of the library leaves the links alone (`Queued.congr`).
-/

namespace Determinator.Dsthread

/-! ## Reading a changed memory -/

namespace Mem

variable (μ : Mem) (q q' : Queue) (t u : Tid) (m : MutexId) (c : CondId)

@[simp] theorem setTh_mutex (f : Pthread → Pthread) : (μ.setTh t f).mutex = μ.mutex := rfl
@[simp] theorem setTh_cond (f : Pthread → Pthread) : (μ.setTh t f).cond = μ.cond := rfl
@[simp] theorem setTh_tlock (f : Pthread → Pthread) : (μ.setTh t f).tlock = μ.tlock := rfl
@[simp] theorem setTh_evconds (f : Pthread → Pthread) : (μ.setTh t f).evconds = μ.evconds := rfl
@[simp] theorem setTh_runqlen (f : Pthread → Pthread) : (μ.setTh t f).runqlen = μ.runqlen := rfl
@[simp] theorem setMutex_th (f : Mutex → Mutex) : (μ.setMutex m f).th = μ.th := rfl
@[simp] theorem setMutex_cond (f : Mutex → Mutex) : (μ.setMutex m f).cond = μ.cond := rfl
@[simp] theorem setMutex_tlock (f : Mutex → Mutex) : (μ.setMutex m f).tlock = μ.tlock := rfl
@[simp] theorem setMutex_evconds (f : Mutex → Mutex) : (μ.setMutex m f).evconds = μ.evconds := rfl
@[simp] theorem setMutex_runqlen (f : Mutex → Mutex) : (μ.setMutex m f).runqlen = μ.runqlen := rfl
@[simp] theorem setCond_th (f : Cond → Cond) : (μ.setCond c f).th = μ.th := rfl
@[simp] theorem setCond_mutex (f : Cond → Cond) : (μ.setCond c f).mutex = μ.mutex := rfl
@[simp] theorem setCond_tlock (f : Cond → Cond) : (μ.setCond c f).tlock = μ.tlock := rfl
@[simp] theorem setCond_evconds (f : Cond → Cond) : (μ.setCond c f).evconds = μ.evconds := rfl
@[simp] theorem setCond_runqlen (f : Cond → Cond) : (μ.setCond c f).runqlen = μ.runqlen := rfl

theorem setTh_th (f : Pthread → Pthread) :
    (μ.setTh t f).th u = if u = t then f (μ.th t) else μ.th u := by
  simp [setTh, Function.update_apply]

theorem setMutex_mutex (m' : MutexId) (f : Mutex → Mutex) :
    (μ.setMutex m f).mutex m' = if m' = m then f (μ.mutex m) else μ.mutex m' := by
  simp [setMutex, Function.update_apply]

theorem setCond_cond (c' : CondId) (f : Cond → Cond) :
    (μ.setCond c f).cond c' = if c' = c then f (μ.cond c) else μ.cond c' := by
  simp [setCond, Function.update_apply]

@[simp] theorem setHead_th (h : Option Tid) : (μ.setHead q h).th = μ.th := by cases q <;> rfl
@[simp] theorem setTail_th (h : Link Tid) : (μ.setTail q h).th = μ.th := by cases q <;> rfl
@[simp] theorem setHead_tlock (h : Option Tid) : (μ.setHead q h).tlock = μ.tlock := by
  cases q <;> rfl
@[simp] theorem setTail_tlock (h : Link Tid) : (μ.setTail q h).tlock = μ.tlock := by
  cases q <;> rfl
@[simp] theorem setHead_evconds (h : Option Tid) : (μ.setHead q h).evconds = μ.evconds := by
  cases q <;> rfl
@[simp] theorem setTail_evconds (h : Link Tid) : (μ.setTail q h).evconds = μ.evconds := by
  cases q <;> rfl
@[simp] theorem setHead_runqlen (h : Option Tid) : (μ.setHead q h).runqlen = μ.runqlen := by
  cases q <;> rfl
@[simp] theorem setTail_runqlen (h : Link Tid) : (μ.setTail q h).runqlen = μ.runqlen := by
  cases q <;> rfl

theorem setHead_mutex (h : Option Tid) : (μ.setHead q h).mutex m =
    if q = .mutex m then { μ.mutex m with qhead := h } else μ.mutex m := by
  cases q <;> simp only [setHead, setMutex_mutex, setCond_mutex, reduceCtorEq, if_false,
    Queue.mutex.injEq]
  simp only [eq_comm]
  split <;> simp_all

theorem setTail_mutex (h : Link Tid) : (μ.setTail q h).mutex m =
    if q = .mutex m then { μ.mutex m with qtail := h } else μ.mutex m := by
  cases q <;> simp only [setTail, setMutex_mutex, setCond_mutex, reduceCtorEq, if_false,
    Queue.mutex.injEq]
  simp only [eq_comm]
  split <;> simp_all

theorem setHead_cond (h : Option Tid) : (μ.setHead q h).cond c =
    if q = .cond c then { μ.cond c with qhead := h } else μ.cond c := by
  cases q <;> simp only [setHead, setMutex_cond, setCond_cond, reduceCtorEq, if_false,
    Queue.cond.injEq]
  simp only [eq_comm]
  split <;> simp_all

theorem setTail_cond (h : Link Tid) : (μ.setTail q h).cond c =
    if q = .cond c then { μ.cond c with qtail := h } else μ.cond c := by
  cases q <;> simp only [setTail, setMutex_cond, setCond_cond, reduceCtorEq, if_false,
    Queue.cond.injEq]
  simp only [eq_comm]
  split <;> simp_all

theorem setHead_head (h : Option Tid) :
    (μ.setHead q h).head q' = if q' = q then h else μ.head q' := by
  cases q' with
  | ready => cases q <;> rfl
  | run => cases q <;> rfl
  | mutex m =>
    simp only [head, setHead_mutex, eq_comm]
    split <;> rfl
  | cond c =>
    simp only [head, setHead_cond, eq_comm]
    split <;> rfl

@[simp] theorem setHead_tail (h : Option Tid) : (μ.setHead q h).tail q' = μ.tail q' := by
  cases q' with
  | ready => cases q <;> rfl
  | run => cases q <;> rfl
  | mutex m =>
    simp only [tail, setHead_mutex]
    split <;> rfl
  | cond c =>
    simp only [tail, setHead_cond]
    split <;> rfl

theorem setTail_tail (h : Link Tid) :
    (μ.setTail q h).tail q' = if q' = q then h else μ.tail q' := by
  cases q' with
  | ready => cases q <;> rfl
  | run => cases q <;> rfl
  | mutex m =>
    simp only [tail, setTail_mutex, eq_comm]
    split <;> rfl
  | cond c =>
    simp only [tail, setTail_cond, eq_comm]
    split <;> rfl

@[simp] theorem setTail_head (h : Link Tid) : (μ.setTail q h).head q' = μ.head q' := by
  cases q' with
  | ready => cases q <;> rfl
  | run => cases q <;> rfl
  | mutex m =>
    simp only [head, setTail_mutex]
    split <;> rfl
  | cond c =>
    simp only [head, setTail_cond]
    split <;> rfl

@[simp] theorem setTh_head (f : Pthread → Pthread) : (μ.setTh t f).head q = μ.head q := by
  cases q <;> rfl

@[simp] theorem setTh_tail (f : Pthread → Pthread) : (μ.setTh t f).tail q = μ.tail q := by
  cases q <;> rfl

@[simp] theorem setTh_qnext_of {f : Pthread → Pthread} (hf : (f (μ.th t)).qnext = (μ.th t).qnext) :
    (μ.setTh t f).qnext = μ.qnext := by
  funext u
  simp only [qnext, setTh_th]
  split
  · rename_i e
    rw [hf, e]
  · rfl

@[simp] theorem setQnext_qnext (v : Option Tid) :
    (μ.setQnext t v).qnext = Function.update μ.qnext t v := by
  funext u
  simp only [qnext, setQnext, setTh_th, Function.update_apply]
  split <;> rfl

@[simp] theorem setQnext_mutex (v : Option Tid) : (μ.setQnext t v).mutex = μ.mutex := rfl
@[simp] theorem setQnext_cond (v : Option Tid) : (μ.setQnext t v).cond = μ.cond := rfl
@[simp] theorem setQnext_tlock (v : Option Tid) : (μ.setQnext t v).tlock = μ.tlock := rfl
@[simp] theorem setQnext_evconds (v : Option Tid) : (μ.setQnext t v).evconds = μ.evconds := rfl
@[simp] theorem setQnext_runqlen (v : Option Tid) : (μ.setQnext t v).runqlen = μ.runqlen := rfl

@[simp] theorem setQnext_head (v : Option Tid) : (μ.setQnext t v).head q = μ.head q :=
  setTh_head μ q t _

@[simp] theorem setQnext_tail (v : Option Tid) : (μ.setQnext t v).tail q = μ.tail q :=
  setTh_tail μ q t _

@[simp] theorem setHead_qnext (h : Option Tid) : (μ.setHead q h).qnext = μ.qnext := by
  funext u
  simp [qnext]

@[simp] theorem setTail_qnext (h : Link Tid) : (μ.setTail q h).qnext = μ.qnext := by
  funext u
  simp [qnext]

end Mem

/-! ## Changing only links -/

/-- The two memories differ in the links of the queues only. -/
structure Relink (μ μ' : Mem) : Prop where
  th : ∀ t, ∃ v, μ'.th t = { μ.th t with qnext := v }
  mutex : ∀ m, ∃ h l, μ'.mutex m = { μ.mutex m with qhead := h, qtail := l }
  cond : ∀ c, ∃ h l, μ'.cond c = { μ.cond c with qhead := h, qtail := l }
  tlock : μ'.tlock = μ.tlock
  evconds : μ'.evconds = μ.evconds
  runqlen : μ'.runqlen = μ.runqlen

namespace Relink

variable {μ μ' μ'' : Mem}

theorem refl (μ : Mem) : Relink μ μ :=
  ⟨fun _ => ⟨_, rfl⟩, fun _ => ⟨_, _, rfl⟩, fun _ => ⟨_, _, rfl⟩, rfl, rfl, rfl⟩

theorem trans (h : Relink μ μ') (h' : Relink μ' μ'') : Relink μ μ'' := by
  refine ⟨fun t => ?_, fun m => ?_, fun c => ?_, h'.tlock.trans h.tlock,
    h'.evconds.trans h.evconds, h'.runqlen.trans h.runqlen⟩
  · obtain ⟨v, e⟩ := h.th t
    obtain ⟨v', e'⟩ := h'.th t
    exact ⟨v', by rw [e', e]⟩
  · obtain ⟨a, b, e⟩ := h.mutex m
    obtain ⟨a', b', e'⟩ := h'.mutex m
    exact ⟨a', b', by rw [e', e]⟩
  · obtain ⟨a, b, e⟩ := h.cond c
    obtain ⟨a', b', e'⟩ := h'.cond c
    exact ⟨a', b', by rw [e', e]⟩

theorem setHead (μ : Mem) (q : Queue) (h : Option Tid) : Relink μ (μ.setHead q h) := by
  refine ⟨fun t => ⟨(μ.th t).qnext, by simp⟩, fun m => ?_, fun c => ?_, by simp, by simp, by simp⟩
  · rw [Mem.setHead_mutex]
    split
    · exact ⟨_, _, rfl⟩
    · exact ⟨_, _, rfl⟩
  · rw [Mem.setHead_cond]
    split
    · exact ⟨_, _, rfl⟩
    · exact ⟨_, _, rfl⟩

theorem setTail (μ : Mem) (q : Queue) (h : Link Tid) : Relink μ (μ.setTail q h) := by
  refine ⟨fun t => ⟨(μ.th t).qnext, by simp⟩, fun m => ?_, fun c => ?_, by simp, by simp, by simp⟩
  · rw [Mem.setTail_mutex]
    split
    · exact ⟨_, _, rfl⟩
    · exact ⟨_, _, rfl⟩
  · rw [Mem.setTail_cond]
    split
    · exact ⟨_, _, rfl⟩
    · exact ⟨_, _, rfl⟩

theorem setQnext (μ : Mem) (t : Tid) (v : Option Tid) : Relink μ (μ.setQnext t v) := by
  refine ⟨fun u => ?_, fun _ => ⟨_, _, rfl⟩, fun _ => ⟨_, _, rfl⟩, rfl, rfl, rfl⟩
  rw [Mem.setQnext, Mem.setTh_th]
  split
  · rename_i e
    exact ⟨v, by rw [e]⟩
  · exact ⟨_, rfl⟩

theorem enqueue (μ : Mem) (q : Queue) (t : Tid) : Relink μ (μ.enqueue q t) := by
  unfold Mem.enqueue
  split
  · exact (setHead μ q _).trans (setTail _ q _)
  · exact (setQnext μ _ _).trans (setTail _ q _)

theorem unlink (μ : Mem) (q : Queue) (t : Tid) : Relink μ (μ.unlink q t) :=
  (setHead μ q _).trans (setQnext _ t none)

theorem resetTail (μ : Mem) (q : Queue) : Relink μ (μ.resetTail q) := by
  unfold Mem.resetTail
  split
  · exact setTail μ q _
  · exact refl μ

variable (h : Relink μ μ')
include h

theorem state (t : Tid) : (μ'.th t).state = (μ.th t).state := by
  obtain ⟨v, e⟩ := h.th t
  rw [e]

theorem eip (t : Tid) : (μ'.th t).eip = (μ.th t).eip := by
  obtain ⟨v, e⟩ := h.th t
  rw [e]

theorem joiner (t : Tid) : (μ'.th t).joiner = (μ.th t).joiner := by
  obtain ⟨v, e⟩ := h.th t
  rw [e]

theorem reqs (t : Tid) : (μ'.th t).reqs = (μ.th t).reqs := by
  obtain ⟨v, e⟩ := h.th t
  rw [e]

theorem detached (t : Tid) : (μ'.th t).detached = (μ.th t).detached := by
  obtain ⟨v, e⟩ := h.th t
  rw [e]

theorem owner (m : MutexId) : (μ'.mutex m).owner = (μ.mutex m).owner := by
  obtain ⟨a, b, e⟩ := h.mutex m
  rw [e]

theorem locked (m : MutexId) : (μ'.mutex m).locked = (μ.mutex m).locked := by
  obtain ⟨a, b, e⟩ := h.mutex m
  rw [e]

theorem reqnext (m : MutexId) : (μ'.mutex m).reqnext = (μ.mutex m).reqnext := by
  obtain ⟨a, b, e⟩ := h.mutex m
  rw [e]

theorem nwake (c : CondId) : (μ'.cond c).nwake = (μ.cond c).nwake := by
  obtain ⟨a, b, e⟩ := h.cond c
  rw [e]

theorem evnext (c : CondId) : (μ'.cond c).evnext = (μ.cond c).evnext := by
  obtain ⟨a, b, e⟩ := h.cond c
  rw [e]

end Relink

/-! ## Well-formed queues -/

/-- A queue as a threaded list. -/
def Mem.thread (μ : Mem) (q : Queue) : Thread Tid := ⟨μ.head q, μ.qnext, μ.tail q⟩

/-- Each queue `q` holds the list `l q`; a thread is on the queue `p t` only, and its link is null
when it is on none. -/
structure Queued (μ : Mem) (p : Tid → Option Queue) (l : Queue → List Tid) : Prop where
  holds : ∀ q, (μ.thread q).Holds (l q)
  mem : ∀ t q, t ∈ l q ↔ p t = some q
  off : ∀ t, p t = none → μ.qnext t = none

namespace Queued

variable {μ μ' : Mem} {p : Tid → Option Queue} {l : Queue → List Tid} {q : Queue} {t : Tid}
  {ts : List Tid}

theorem congr (h : Queued μ p l) (hh : ∀ q, μ'.head q = μ.head q) (ht : ∀ q, μ'.tail q = μ.tail q)
    (hq : μ'.qnext = μ.qnext) : Queued μ' p l := by
  refine ⟨fun q => ?_, h.mem, fun t e => hq ▸ h.off t e⟩
  have e : μ'.thread q = μ.thread q := by simp only [Mem.thread, hh, ht, hq]
  exact e ▸ h.holds q

theorem head_eq (h : Queued μ p l) (q : Queue) : μ.head q = (l q).head? := (h.holds q).head_eq

theorem head_none_iff (h : Queued μ p l) (q : Queue) : μ.head q = none ↔ l q = [] := by
  rw [h.head_eq]
  simp

theorem cons_of_head (h : Queued μ p l) (ht : μ.head q = some t) : ∃ ts, l q = t :: ts := by
  rw [h.head_eq] at ht
  cases hl : l q with
  | nil =>
    rw [hl] at ht
    cases ht
  | cons u us =>
    rw [hl] at ht
    cases ht
    exact ⟨us, rfl⟩

theorem place_of_head (h : Queued μ p l) (ht : μ.head q = some t) : p t = some q := by
  obtain ⟨ts, e⟩ := h.cons_of_head ht
  exact (h.mem t q).1 (e ▸ List.mem_cons_self)

/-- The pointer to the last link points at a null link. -/
theorem last_eq (h : Queued μ p l) (q : Queue) : μ.last q = none := by
  have ht : μ.tail q = Thread.lastLink (l q) := (h.holds q).tail
  rcases List.eq_nil_or_concat' (l q) with e | ⟨l', u, e⟩
  · rw [e] at ht
    simp only [Mem.last, ht]
    exact (h.head_none_iff q).2 e
  · rw [e, Thread.lastLink_concat] at ht
    simp only [Mem.last, ht]
    have hc : Chain μ.qnext (μ.head q) (l' ++ [u]) := e ▸ (h.holds q).chain
    exact hc.next_mid

theorem lists_update (h : Queued μ p l) (ht : p t = none) (q : Queue) (u : Tid) (q' : Queue) :
    u ∈ Function.update l q (l q ++ [t]) q' ↔ Function.update p t (some q) u = some q' := by
  by_cases hu : u = t
  · subst hu
    have hne : ∀ q', u ∉ l q' := fun q' e => by
      rw [(h.mem u q').1 e] at ht
      cases ht
    by_cases hq : q' = q
    · subst hq
      simp
    · simpa [Function.update_of_ne hq, hne q'] using Ne.symm hq
  · rw [Function.update_of_ne hu, ← h.mem u q']
    by_cases hq : q' = q
    · subst hq
      simp [hu]
    · rw [Function.update_of_ne hq]

/-- A thread is put at the end of a queue. -/
theorem enqueue (h : Queued μ p l) (ht : p t = none) (q : Queue) :
    Queued (μ.enqueue q t) (Function.update p t (some q)) (Function.update l q (l q ++ [t])) := by
  have hnext : μ.qnext t = none := h.off t ht
  have hfree : ∀ q', t ∉ l q' := fun q' e => by
    rw [(h.mem t q').1 e] at ht
    cases ht
  have hself : (μ.enqueue q t).thread q = (μ.thread q).push t := by
    have e : Function.update μ.qnext t none = μ.qnext := by rw [← hnext, Function.update_eq_self]
    unfold Mem.enqueue Thread.push
    cases htail : μ.tail q with
    | head => simp [Mem.thread, htail, Mem.setTail_tail, Mem.setHead_head, e]
    | next u => simp [Mem.thread, htail, Mem.setTail_tail, e]
  have hlast : ∀ u, μ.tail q = .next u → u ∈ l q := fun u e =>
    Thread.mem_of_lastLink ((h.holds q).tail.symm.trans e)
  have hother : ∀ q', q' ≠ q → ((μ.enqueue q t).thread q').Holds (l q') := by
    intro q' hq
    unfold Mem.enqueue
    cases htail : μ.tail q with
    | head =>
      simpa [Mem.thread, Mem.setTail_tail, Mem.setHead_head, hq] using h.holds q'
    | next u =>
      have hu : u ∉ l q' := by
        intro e
        have e' := (h.mem u q').1 e
        rw [(h.mem u q).1 (hlast u htail)] at e'
        exact hq (Option.some.inj e').symm
      have := (h.holds q').congr (Function.update μ.qnext u (some t)) fun b hb =>
        Function.update_of_ne (ne_of_mem_of_not_mem hb hu) _ _
      simpa [Mem.thread, Mem.setTail_tail, hq] using this
  refine ⟨fun q' => ?_, h.lists_update ht q, fun u hu => ?_⟩
  · by_cases hq : q' = q
    · subst hq
      rw [Function.update_self, hself]
      exact (h.holds q').push (hfree q')
    · rw [Function.update_of_ne hq]
      exact hother q' hq
  · have hut : u ≠ t := by
      rintro rfl
      simp at hu
    rw [Function.update_of_ne hut] at hu
    unfold Mem.enqueue
    cases htail : μ.tail q with
    | head => simpa using h.off u hu
    | next w =>
      have huw : u ≠ w := by
        rintro rfl
        rw [(h.mem u q).1 (hlast u htail)] at hu
        cases hu
      simpa [Function.update_of_ne huw] using h.off u hu

/-- The first thread is taken from a queue. -/
theorem unlink (h : Queued μ p l) (hl : l q = t :: ts) :
    Queued ((μ.unlink q t).resetTail q) (Function.update p t none) (Function.update l q ts) := by
  have hpt : p t = some q := (h.mem t q).1 (hl ▸ List.mem_cons_self)
  have hpop := (hl ▸ h.holds q : (μ.thread q).Holds (t :: ts)).pop
  have hhead : ∀ q', ((μ.unlink q t).resetTail q).head q' =
      if q' = q then μ.qnext t else μ.head q' := by
    intro q'
    unfold Mem.resetTail Mem.unlink
    split <;> simp [Mem.setHead_head]
  have hnext : ((μ.unlink q t).resetTail q).qnext = Function.update μ.qnext t none := by
    unfold Mem.resetTail Mem.unlink
    split <;> simp
  have htail : ∀ q', ((μ.unlink q t).resetTail q).tail q' =
      if q' = q ∧ μ.qnext t = none then .head else μ.tail q' := by
    intro q'
    unfold Mem.resetTail Mem.unlink
    simp only [Mem.setQnext_head, Mem.setHead_head, if_true]
    by_cases e : μ.qnext t = none
    · by_cases hq : q' = q <;> simp [e, hq, Mem.setTail_tail]
    · simp [e]
  have hself : ((μ.unlink q t).resetTail q).thread q = (μ.thread q).pop t := by
    have e : μ.tail q = .next t ↔ μ.qnext t = none := by
      have ht : μ.tail q = Thread.lastLink (t :: ts) := hl ▸ (h.holds q).tail
      have hc : Chain μ.qnext (μ.qnext t) ts := (hl ▸ (h.holds q).chain :
        Chain μ.qnext (μ.head q) (t :: ts)).2
      have hn : (t :: ts).Nodup := hl ▸ (h.holds q).nodup
      cases ts with
      | nil => exact iff_of_true ht hc
      | cons u us =>
        rw [Thread.lastLink_cons_cons] at ht
        refine iff_of_false (fun e => ?_) (by rw [hc.1]; simp)
        exact (List.nodup_cons.1 hn).1 (Thread.mem_of_lastLink (ht.symm.trans e))
    simp only [Mem.thread, Thread.pop, hhead, hnext, htail, if_true, true_and, e]
  refine ⟨fun q' => ?_, fun u q' => ?_, fun u hu => ?_⟩
  · by_cases hq : q' = q
    · subst hq
      rw [Function.update_self, hself]
      exact hpop
    · have htq : t ∉ l q' := fun e => hq (Option.some.inj (((h.mem t q').1 e).symm.trans hpt))
      have := (h.holds q').congr (Function.update μ.qnext t none) fun b hb =>
        Function.update_of_ne (ne_of_mem_of_not_mem hb htq) _ _
      rw [Function.update_of_ne hq]
      simpa [Mem.thread, hhead, hnext, htail, hq] using this
  · have hn : (t :: ts).Nodup := hl ▸ (h.holds q).nodup
    by_cases hu : u = t
    · subst hu
      rw [Function.update_self]
      refine iff_of_false (fun e => ?_) (by simp)
      by_cases hq : q' = q
      · subst hq
        rw [Function.update_self] at e
        exact (List.nodup_cons.1 hn).1 e
      · rw [Function.update_of_ne hq] at e
        exact hq (Option.some.inj (((h.mem u q').1 e).symm.trans hpt))
    · rw [Function.update_of_ne hu, ← h.mem u q']
      by_cases hq : q' = q
      · subst hq
        rw [Function.update_self, hl]
        simp [hu]
      · rw [Function.update_of_ne hq]
  · rw [hnext]
    by_cases hut : u = t
    · subst hut
      simp
    · rw [Function.update_of_ne hut] at hu ⊢
      exact h.off u hu

end Queued

/-- The queues are well formed except that the tail of `q` may be stale, as it is in the loop of
`condwakeups`. -/
def QueuedBut (q : Queue) (μ : Mem) (p : Tid → Option Queue) (l : Queue → List Tid) : Prop :=
  Queued (μ.setTail q (Thread.lastLink (l q))) p l

namespace QueuedBut

variable {μ : Mem} {p : Tid → Option Queue} {l : Queue → List Tid} {q : Queue} {t : Tid}
  {ts : List Tid}

theorem of_queued (h : Queued μ p l) (q : Queue) : QueuedBut q μ p l := by
  refine h.congr (by simp) (fun q' => ?_) (by simp)
  rw [Mem.setTail_tail]
  split
  · rename_i e
    exact e ▸ (h.holds q).tail.symm
  · rfl

theorem head_eq (h : QueuedBut q μ p l) (q' : Queue) : μ.head q' = (l q').head? := by
  simpa using Queued.head_eq h q'

theorem off (h : QueuedBut q μ p l) (ht : p t = none) : μ.qnext t = none := by
  simpa using Queued.off h t ht

theorem mem (h : QueuedBut q μ p l) (t : Tid) (q' : Queue) : t ∈ l q' ↔ p t = some q' :=
  Queued.mem h t q'

theorem unlink (h : QueuedBut q μ p l) (hl : l q = t :: ts) :
    QueuedBut q (μ.unlink q t) (Function.update p t none) (Function.update l q ts) := by
  have h' := Queued.unlink h hl
  refine h'.congr (fun q' => ?_) (fun q' => ?_) ?_
  · unfold Mem.resetTail Mem.unlink
    split <;> simp [Mem.setHead_head]
  · by_cases hq : q' = q
    · subst hq
      rw [Mem.setTail_tail, if_pos rfl]
      exact (h'.holds q').tail.symm
    · unfold Mem.resetTail Mem.unlink
      split <;> simp [Mem.setTail_tail, hq]
  · unfold Mem.resetTail Mem.unlink
    split <;> simp

theorem enqueue (h : QueuedBut q μ p l) (ht : p t = none) {q' : Queue} (hq : q' ≠ q) :
    QueuedBut q (μ.enqueue q' t) (Function.update p t (some q'))
      (Function.update l q' (l q' ++ [t])) := by
  have h' := Queued.enqueue h ht q'
  have htail : (μ.setTail q (Thread.lastLink (l q))).tail q' = μ.tail q' := by
    rw [Mem.setTail_tail, if_neg hq]
  refine h'.congr (fun r => ?_) (fun r => ?_) ?_
  · unfold Mem.enqueue
    rw [htail]
    split <;> simp [Mem.setHead_head]
  · by_cases hr : r = q
    · subst hr
      rw [Mem.setTail_tail, if_pos rfl]
      exact (h'.holds r).tail.symm
    · unfold Mem.enqueue
      rw [htail]
      split <;> simp [Mem.setTail_tail, hr]
  · unfold Mem.enqueue
    rw [htail]
    split <;> simp

/-- The tail is reset at the end of the loop. -/
theorem resetTail (h : QueuedBut q μ p l)
    (ht : l q ≠ [] → μ.tail q = Thread.lastLink (l q)) : Queued (μ.resetTail q) p l := by
  refine Queued.congr h (fun q' => ?_) (fun q' => ?_) ?_
  · unfold Mem.resetTail
    split <;> simp
  · have hh : μ.head q = (l q).head? := h.head_eq q
    unfold Mem.resetTail
    rw [Mem.setTail_tail]
    by_cases e : l q = []
    · rw [if_pos (by rw [hh, e]; rfl), Mem.setTail_tail, e]
      rfl
    · rw [if_neg (by rw [hh]; simpa using e)]
      split
      · rename_i eq
        rw [eq, ht e]
      · rfl
  · unfold Mem.resetTail
    split <;> simp

end QueuedBut

end Determinator.Dsthread
