import Determinator.Dsthread.Requests

/-!
# Condition variables

A signal is only counted, in the private memory of the thread that signals; the waiters it wakes
leave the queue when that thread next synchronises with the master. `Board` is what the calls
promise: a signal makes the longest waiting thread due to be woken, a broadcast all of them, and
only threads that are due are woken. As long as no thread starts to wait on a condition variable
for which it has more wakeups pending than there are waiters, the queues of the library agree with
this, because a thread that signals owns the mutex of the condition variable until its signals have
been processed.
-/

set_option linter.unusedSectionVars false

namespace Determinator.Dsthread

/-! ## What the calls promise -/

/-- The threads that wait on each condition variable, longest first, and those of them that are due
to be woken. -/
structure Board where
  waiting : CondId → List Tid
  due : CondId → List Tid

namespace Board

/-- The effect of a note. A thread may be woken only when it is the first that is due. -/
def note (b : Board) : Note → Option Board
  | .waits t c => some { b with waiting := Function.update b.waiting c (b.waiting c ++ [t]) }
  | .signals _ c => some
      { waiting := Function.update b.waiting c (b.waiting c).tail
        due := Function.update b.due c (b.due c ++ (b.waiting c).take 1) }
  | .broadcasts _ c => some
      { waiting := Function.update b.waiting c []
        due := Function.update b.due c (b.due c ++ b.waiting c) }
  | .wakes t c =>
    if (b.due c).head? = some t then
      some { b with due := Function.update b.due c (b.due c).tail }
    else none
  | _ => some b

/-- The effect of a list of notes. -/
def notes (b : Board) : List Note → Option Board
  | [] => some b
  | n :: ns => (b.note n).bind fun b' => b'.notes ns

/-- What has become of the calls so far, unless a thread was woken that was not due. -/
def replay (log : List Note) : Option Board := notes ⟨fun _ => [], fun _ => []⟩ log

theorem notes_append (b : Board) (xs ys : List Note) :
    b.notes (xs ++ ys) = (b.notes xs).bind fun b' => b'.notes ys := by
  induction xs generalizing b with
  | nil => rfl
  | cons x xs ih =>
    simp only [List.cons_append, notes]
    cases b.note x with
    | none => rfl
    | some b' => exact ih b'

/-- The board agrees with the queues `ls` and the numbers `nw` of pending wakeups. -/
def Fits (b : Board) (nw : CondId → ℕ) (ls : CondId → List Tid) : Prop :=
  ∀ c, ls c = b.due c ++ b.waiting c ∧ (b.due c).length = min (nw c) (ls c).length

variable {b : Board} {nw : CondId → ℕ} {ls : CondId → List Tid} {c : CondId} {t : Tid} {N : ℕ}

/-- A call for a condition variable without waiters changes nothing. -/
theorem Fits.ring_nil (h : b.Fits nw ls) (hl : ls c = []) (br : Bool) :
    b.note (if br then .broadcasts t c else .signals t c) = some b := by
  obtain ⟨h1, -⟩ := h c
  rw [hl] at h1
  obtain ⟨hd, hw⟩ := List.append_eq_nil_iff.1 h1.symm
  have e1 : Function.update b.waiting c [] = b.waiting := by
    rw [← hw]
    exact Function.update_eq_self c b.waiting
  have e2 : Function.update b.due c [] = b.due := by
    rw [← hd]
    exact Function.update_eq_self c b.due
  cases br <;> simp [note, hw, hd, e1, e2]

/-- The number of pending wakeups after a call. -/
def rung (N : ℕ) (br : Bool) (n : ℕ) : ℕ := if br then N else if n < N then n + 1 else n

theorem rung_pos (hN : 0 < N) (br : Bool) (n : ℕ) : 0 < rung N br n := by
  unfold rung
  split
  · exact hN
  · split <;> omega

/-- A signal makes one more waiter due, a broadcast all. -/
theorem Fits.ring (h : b.Fits nw ls) (hN : (ls c).length ≤ N) (br : Bool) :
    ∃ b', b.note (if br then .broadcasts t c else .signals t c) = some b' ∧
      b'.Fits (Function.update nw c (rung N br (nw c))) ls ∧
      ∀ c' ≠ c, b'.due c' = b.due c' := by
  obtain ⟨h1, h2⟩ := h c
  have hlen : (ls c).length = (b.due c).length + (b.waiting c).length := by
    rw [h1, List.length_append]
  cases br with
  | false =>
    refine ⟨_, rfl, fun c' => ?_, fun c' hc => Function.update_of_ne hc _ _⟩
    by_cases e : c' = c
    · subst e
      simp only [Function.update_self]
      refine ⟨?_, ?_⟩
      · rw [h1, List.append_assoc, ← List.drop_one, List.take_append_drop]
      · simp only [rung, Bool.false_eq_true, if_false, List.length_append, List.length_take]
        split <;> omega
    · simp only [Function.update_of_ne e]
      exact h c'
  | true =>
    refine ⟨_, rfl, fun c' => ?_, fun c' hc => Function.update_of_ne hc _ _⟩
    by_cases e : c' = c
    · subst e
      simp only [Function.update_self]
      refine ⟨?_, ?_⟩
      · rw [h1, List.append_nil]
      · simp only [rung, if_true, List.length_append]
        omega
    · simp only [Function.update_of_ne e]
      exact h c'

/-- A thread starts to wait, behind all the waiters that pending wakeups are for. -/
theorem Fits.wait (h : b.Fits nw ls) (hn : nw c ≤ (ls c).length) :
    ∃ b', b.note (.waits t c) = some b' ∧
      b'.Fits nw (Function.update ls c (ls c ++ [t])) ∧ b'.due = b.due := by
  refine ⟨_, rfl, fun c' => ?_, rfl⟩
  by_cases e : c' = c
  · subst e
    obtain ⟨h1, h2⟩ := h c'
    simp only [Function.update_self]
    refine ⟨?_, ?_⟩
    · rw [h1, List.append_assoc]
    · rw [h2, List.length_append]
      omega
  · simp only [Function.update_of_ne e]
    exact h c'

theorem notes_wakes (c : CondId) : ∀ (ts us : List Tid) (b : Board), b.due c = ts ++ us →
    ∃ b', b.notes (ts.map (.wakes · c)) = some b' ∧ b'.due = Function.update b.due c us ∧
      b'.waiting = b.waiting
  | [], us, b, h => by
    refine ⟨b, rfl, ?_, rfl⟩
    rw [show us = b.due c from h.symm, Function.update_eq_self]
  | t :: ts, us, b, h => by
    obtain ⟨b', h1, h2, h3⟩ := notes_wakes c ts us
      { b with due := Function.update b.due c (b.due c).tail } (by simp [h])
    refine ⟨b', ?_, ?_, h3⟩
    · simp only [List.map_cons, notes, note, h, List.cons_append, List.head?_cons, if_true,
        Option.bind_some, List.tail_cons]
      rw [h] at h1
      exact h1
    · rw [h2]
      exact Function.update_idem _ _ _

/-- The pending wakeups are delivered: exactly the threads that are due are woken. -/
theorem Fits.wake {ts rest : List Tid} (h : b.Fits nw ls) (hl : ls c = ts ++ rest)
    (hts : ts.length = min (nw c) (ls c).length) :
    ts = b.due c ∧ ∃ b', b.notes (ts.map (.wakes · c)) = some b' ∧
      b'.Fits (Function.update nw c 0) (Function.update ls c rest) ∧
      b'.due = Function.update b.due c [] := by
  obtain ⟨h1, h2⟩ := h c
  rw [hl] at h1
  obtain ⟨hd, hw⟩ := List.append_inj h1 (hts.trans h2.symm)
  obtain ⟨b', e1, e2, e3⟩ := notes_wakes c ts [] b (by rw [List.append_nil, hd])
  refine ⟨hd, b', e1, fun c' => ?_, e2⟩
  rw [e2, e3]
  by_cases e : c' = c
  · subst e
    simp [hw]
  · simp only [Function.update_of_ne e]
    exact h c'

end Board

/-! ## The chain of events -/

/-- No wakeup is pending for these condition variables. -/
def Cond.Idle (x : Cond) : Prop := x.nwake = 0 ∧ x.evnext = none

/-- No wakeup is pending. -/
def Idle (μ : Mem) : Prop := μ.evconds = none ∧ ∀ c, (μ.cond c).Idle

/-- The condition variables with pending wakeups are those on the chain `evconds`; `condevent`
first puts one there and then counts. -/
def Evs (μ : Mem) (pc : Pc) : Prop :=
  ∃ ev, Chain (fun c => (μ.cond c).evnext) μ.evconds ev ∧ ev.Nodup ∧
    match pc with
    | .chain c _ => c ∉ ev ∧ (μ.cond c).evnext = μ.evconds ∧ (μ.cond c).nwake = 0 ∧
        (∀ c' ∈ ev, 0 < (μ.cond c').nwake) ∧ ∀ c' ∉ ev, c' ≠ c → (μ.cond c').Idle
    | .count c _ => c ∈ ev ∧ (∀ c' ∈ ev, c' ≠ c → 0 < (μ.cond c').nwake) ∧
        ∀ c' ∉ ev, (μ.cond c').Idle
    | .reqs _ _ | .done _ => ev = [] ∧ ∀ c, (μ.cond c).Idle
    | _ => (∀ c ∈ ev, 0 < (μ.cond c).nwake) ∧ ∀ c ∉ ev, (μ.cond c).Idle

/-- A call that signals is made with the mutex `mx c` held, and so is a call that waits. -/
def After.Calls (mx : CondId → MutexId) (held : MutexId → Bool) : After → Prop
  | .test c _ => held (mx c) = true
  | _ => True

@[inherit_doc After.Calls]
def Pc.Calls (mx : CondId → MutexId) (held : MutexId → Bool) : Pc → Prop
  | .test c _ | .link c _ | .chain c _ | .count c _ => held (mx c) = true
  | .waitCall c m | .waitSync c m => m = mx c ∧ held m = true
  | .events a | .reqs _ a | .done a => a.Calls mx held
  | _ => True

section

variable {μ μ' : Mem} {pc pc' : Pc}

theorem Evs.congr (hn : ∀ c, (μ'.cond c).nwake = (μ.cond c).nwake)
    (he : ∀ c, (μ'.cond c).evnext = (μ.cond c).evnext) (hv : μ'.evconds = μ.evconds)
    (h : Evs μ pc) : Evs μ' pc := by
  simp only [Evs, Cond.Idle, hn, he, hv] at h ⊢
  exact h

theorem Evs.of_idle (h : Idle μ) (hc : ∀ c br, pc ≠ .chain c br ∧ pc ≠ .count c br) :
    Evs μ pc := by
  refine ⟨[], h.1, List.nodup_nil, ?_⟩
  cases pc with
  | chain c br => exact absurd rfl (hc c br).1
  | count c br => exact absurd rfl (hc c br).2
  | reqs | done => exact ⟨rfl, h.2⟩
  | _ => exact ⟨by simp, fun c _ => h.2 c⟩

/-- A thread does not fail while it links a condition variable into the chain. -/
theorem Evs.fail {w : Site} (h : Evs μ pc) (hc : ∀ c br, pc ≠ .chain c br ∧ pc ≠ .count c br) :
    Evs μ (.failed w) := by
  obtain ⟨ev, h1, h2, h3⟩ := h
  refine ⟨ev, h1, h2, ?_⟩
  cases pc with
  | chain c br => exact absurd rfl (hc c br).1
  | count c br => exact absurd rfl (hc c br).2
  | reqs | done =>
    obtain ⟨rfl, h3⟩ := h3
    exact ⟨by simp, fun c _ => h3 c⟩
  | _ => exact h3

/-- After `condwakeups`, nothing is pending. -/
theorem Evs.idle {a : After} (h : Evs μ (.done a)) : Idle μ := by
  obtain ⟨ev, hc, -, rfl, hi⟩ := h
  exact ⟨hc, hi⟩

/-- What a piece of code of thread `t` does to the pending wakeups. -/
inductive Rings (N : ℕ) (t : Tid) (pc : Pc) (μ μ' : Mem) (notes : List Note) : Prop
  | none (hc : ∀ c, (μ'.cond c).nwake = (μ.cond c).nwake)
      (hb : ∀ b : Board, b.notes notes = some b)
  | idle (c : CondId) (br : Bool) (hpc : pc = .test c br) (hq : (μ.cond c).qhead = none)
      (hc : ∀ c, (μ'.cond c).nwake = (μ.cond c).nwake)
      (hn : notes = [if br then .broadcasts t c else .signals t c])
  | ring (c : CondId) (br : Bool) (hpc : pc = .count c br)
      (hc : ∀ c', (μ'.cond c').nwake =
        if c' = c then Board.rung N br (μ.cond c).nwake else (μ.cond c').nwake)
      (hn : notes = [if br then .broadcasts t c else .signals t c])

theorem Rings.silent {N : ℕ} {t : Tid} (hc : ∀ c, (μ'.cond c).nwake = (μ.cond c).nwake) :
    Rings N t pc μ μ' [] := .none hc fun _ => rfl

end

theorem setCond_nwake (μ : Mem) (c c' : CondId) (f : Cond → Cond) :
    ((μ.setCond c f).cond c').nwake =
      if c' = c then (f (μ.cond c)).nwake else (μ.cond c').nwake := by
  rw [Mem.setCond_cond]
  split <;> rfl

theorem request_cond {m : MutexId} {μ μ' : Mem} (h : request m μ = .ok μ') :
    μ'.cond = μ.cond ∧ μ'.evconds = μ.evconds := by
  rcases request_ok h with ⟨-, rfl⟩ | ⟨-, -, rfl⟩
  · exact ⟨rfl, rfl⟩
  · exact ⟨rfl, rfl⟩

theorem setReq_cond (μ : Mem) (t : Tid) (mp : Link MutexId) (v : Option MutexId) :
    (μ.setReq t mp v).cond = μ.cond ∧ (μ.setReq t mp v).evconds = μ.evconds := by
  cases mp <;> exact ⟨rfl, rfl⟩

theorem Mem.enqueue_cond {q : Queue} (hq : ∀ c, q ≠ .cond c) (μ : Mem) (t : Tid) :
    (μ.enqueue q t).cond = μ.cond := by
  funext c
  unfold Mem.enqueue
  split <;> simp [Mem.setTail_cond, Mem.setHead_cond, Mem.setQnext, hq c]

/-- Code leads neither to a failure nor, but for `pthread_cond_wait`, to a thread that waits. -/
def Pc.Leads (pc pc' : Pc) : Prop :=
  (∀ m, pc' ≠ .events (.wait m)) ∧ ∀ w, pc' = .failed w → pc = .failed w

/-- Library code other than the two pieces that change the queues of condition variables. -/
theorem exec_rings {N : ℕ} {t : Tid} {pc pc' : Pc} {μ μ' : Mem} {notes : List Note}
    (mx : CondId → MutexId) (log : List Note) (hN : 0 < N) (h1 : ∀ c m, pc ≠ .waitSync c m)
    (h2 : ∀ a, pc = .events a → μ.evconds = none)
    (he : exec N t pc μ = .ok (μ', pc', notes)) :
    Rings N t pc μ μ' notes ∧ (∀ c, (μ'.cond c).qhead = (μ.cond c).qhead) ∧
      (Evs μ pc → Evs μ' pc') ∧
      (pc.Calls mx (holds log t) → pc'.Calls mx (holds (log ++ notes) t)) ∧
      pc.Leads pc' := by
  -- code that leaves the condition variables alone
  have quiet : ∀ {ν : Mem} {q : Pc}, ν.cond = μ.cond → ν.evconds = μ.evconds →
      (Evs μ pc → Evs μ q) → (pc.Calls mx (holds log t) → q.Calls mx (holds log t)) →
      pc.Leads q →
      Rings N t pc μ ν [] ∧ (∀ c, (ν.cond c).qhead = (μ.cond c).qhead) ∧
        (Evs μ pc → Evs ν q) ∧
        (pc.Calls mx (holds log t) → q.Calls mx (holds (log ++ []) t)) ∧
        pc.Leads q := by
    intro ν q hc hv hev hcl hne
    refine ⟨.silent fun c => by rw [hc], fun c => by rw [hc], fun h => ?_, fun h => ?_, hne⟩
    · exact (hev h).congr (fun c => by rw [hc]) (fun c => by rw [hc]) hv
    · rw [List.append_nil]
      exact hcl h
  cases pc with
  | lock m =>
    simp only [exec, bind_ok, check_ok, exists_const] at he
    obtain ⟨-, he⟩ := he
    split at he <;>
    · simp only [pure_ok, Prod.mk.injEq] at he
      obtain ⟨rfl, rfl, rfl⟩ := he
      exact quiet rfl rfl id id (by simp [Pc.Leads])
  | lockCall m | waitCall c m | createCall d | joinCall tj | exitCall =>
    simp only [exec, bind_ok, check_ok, exists_const, pure_ok, Prod.mk.injEq] at he
    obtain ⟨-, rfl, rfl, rfl⟩ := he
    exact quiet rfl rfl id id (by simp [Pc.Leads])
  | lockSync m =>
    simp only [exec, bind_ok, pure_ok, Prod.mk.injEq] at he
    obtain ⟨μ', h1, rfl, rfl, rfl⟩ := he
    rcases steal_ok h1 with rfl | ⟨-, -, -, -, rfl⟩
    · exact quiet rfl rfl id id (by simp [Pc.Leads])
    · exact quiet rfl rfl id id (by simp [Pc.Leads])
  | lockIf m =>
    simp only [exec] at he
    split at he
    · simp only [bind_ok, pure_ok, Prod.mk.injEq] at he
      obtain ⟨μ₁, h1, μ₂, h2, pc', h3, rfl, rfl, rfl⟩ := he
      obtain ⟨-, -, rfl⟩ := tblock_ok h3
      obtain rfl := enlist_ok h2
      obtain ⟨hc, hv⟩ := request_cond h1
      refine quiet ?_ ?_ id id (by simp [Pc.Leads])
      · rw [Mem.enqueue_cond (by simp), hc]
      · rw [(Relink.enqueue μ₁ _ t).evconds, hv]
    · simp only [pure_ok, Prod.mk.injEq] at he
      obtain ⟨rfl, rfl, rfl⟩ := he
      exact quiet rfl rfl id id (by simp [Pc.Leads])
  | grab m =>
    simp only [exec, bind_ok, check_ok, exists_const, pure_ok, Prod.mk.injEq] at he
    obtain ⟨-, -, rfl, rfl, rfl⟩ := he
    exact quiet rfl rfl id id (by simp [Pc.Leads])
  | setLocked m | clearLocked m =>
    simp only [exec, pure_ok, Prod.mk.injEq] at he
    obtain ⟨rfl, rfl, rfl⟩ := he
    exact ⟨.none (fun _ => rfl) fun _ => rfl, fun _ => rfl, id, fun _ => trivial, by simp [Pc.Leads]⟩
  | tryLock m =>
    simp only [exec] at he
    split at he
    · simp only [pure_ok, Prod.mk.injEq] at he
      obtain ⟨rfl, rfl, rfl⟩ := he
      exact quiet rfl rfl id id (by simp [Pc.Leads])
    · simp only [bind_ok, check_ok, exists_const, pure_ok, Prod.mk.injEq] at he
      obtain ⟨-, rfl, rfl, rfl⟩ := he
      exact quiet rfl rfl id id (by simp [Pc.Leads])
  | unlock m =>
    simp only [exec, bind_ok, check_ok, exists_const, pure_ok, Prod.mk.injEq] at he
    obtain ⟨-, -, -, rfl, rfl, rfl⟩ := he
    exact quiet rfl rfl id id (by simp [Pc.Leads])
  | test c b =>
    simp only [exec] at he
    split at he
    · rename_i hq
      simp only [pure_ok, Prod.mk.injEq] at he
      obtain ⟨rfl, rfl, rfl⟩ := he
      exact ⟨.idle c b rfl hq (fun _ => rfl) rfl, fun _ => rfl, id, fun _ => trivial, by simp [Pc.Leads]⟩
    · simp only [bind_ok, check_ok, exists_const, pure_ok, Prod.mk.injEq] at he
      obtain ⟨-, rfl, rfl, rfl⟩ := he
      exact quiet rfl rfl id id (by simp [Pc.Leads])
  | link c b =>
    simp only [exec] at he
    split at he
    · rename_i hn
      simp only [bind_ok, check_ok, exists_const, pure_ok, Prod.mk.injEq] at he
      obtain ⟨-, rfl, rfl, rfl⟩ := he
      refine ⟨.silent fun c' => ?_, fun c' => ?_, ?_, fun h => ?_, by simp [Pc.Leads]⟩
      · rw [setCond_nwake]
        split
        · rename_i e
          rw [e]
        · rfl
      · rw [Mem.setCond_cond]
        split
        · rename_i e
          rw [e]
        · rfl
      · rintro ⟨ev, hc, hnd, hpos, hidle⟩
        have hcev : c ∉ ev := by
          intro hce
          have := hpos c hce
          omega
        have hother : ∀ c', c' ≠ c →
            (μ.setCond c fun x => { x with evnext := μ.evconds }).cond c' = μ.cond c' := by
          intro c' hc'
          rw [Mem.setCond_cond, if_neg hc']
        have hself : (μ.setCond c fun x => { x with evnext := μ.evconds }).cond c =
            { μ.cond c with evnext := μ.evconds } := by
          rw [Mem.setCond_cond, if_pos rfl]
        refine ⟨ev, ?_, hnd, hcev, ?_, ?_, fun c' hc' => ?_, fun c' hc' hne => ?_⟩
        · refine hc.congr fun c' hc' => ?_
          rw [hother c' (ne_of_mem_of_not_mem hc' hcev)]
        · rw [hself]
          rfl
        · rw [hself]
          exact hn
        · rw [hother c' (ne_of_mem_of_not_mem hc' hcev)]
          exact hpos c' hc'
        · rw [hother c' hne]
          exact hidle c' hc'
      · rw [List.append_nil]
        exact h
    · rename_i hn
      simp only [pure_ok, Prod.mk.injEq] at he
      obtain ⟨rfl, rfl, rfl⟩ := he
      refine quiet rfl rfl ?_ id (by simp [Pc.Leads])
      rintro ⟨ev, hc, hnd, hpos, hidle⟩
      refine ⟨ev, hc, hnd, ?_, fun c' hc' _ => hpos c' hc', hidle⟩
      by_contra hce
      exact hn (hidle c hce).1
  | chain c b =>
    simp only [exec, pure_ok, Prod.mk.injEq] at he
    obtain ⟨rfl, rfl, rfl⟩ := he
    refine ⟨.silent fun _ => rfl, fun _ => rfl, ?_, fun h => ?_, by simp [Pc.Leads]⟩
    · rintro ⟨ev, hc, hnd, hcev, he, hn, hpos, hidle⟩
      refine ⟨c :: ev, ⟨rfl, ?_⟩, List.nodup_cons.2 ⟨hcev, hnd⟩, List.mem_cons_self,
        fun c' hc' hne => ?_, fun c' hc' => ?_⟩
      · show Chain _ (μ.cond c).evnext ev
        rw [he]
        exact hc
      · exact hpos c' ((List.mem_cons.1 hc').resolve_left hne)
      · exact hidle c' (fun h => hc' (List.mem_cons_of_mem _ h)) (List.ne_of_not_mem_cons hc')
    · rw [List.append_nil]
      exact h
  | count c b =>
    have hf : ∃ f : Cond → Cond, μ' = μ.setCond c f ∧
        (∀ x, f x = { x with nwake := Board.rung N b x.nwake }) ∧ pc' = .ret ∧
        notes = [if b then .broadcasts t c else .signals t c] := by
      cases b with
      | false =>
        simp only [exec, pure_ok, Prod.mk.injEq] at he
        obtain ⟨rfl, rfl, rfl⟩ := he
        exact ⟨_, rfl, fun _ => rfl, rfl, rfl⟩
      | true =>
        simp only [exec, pure_ok, Prod.mk.injEq] at he
        obtain ⟨rfl, rfl, rfl⟩ := he
        exact ⟨_, rfl, fun _ => rfl, rfl, rfl⟩
    obtain ⟨f, rfl, hf, rfl, rfl⟩ := hf
    have hcond : ∀ c', (μ.setCond c f).cond c' = { μ.cond c' with
        nwake := if c' = c then Board.rung N b (μ.cond c).nwake else (μ.cond c').nwake } := by
      intro c'
      rw [Mem.setCond_cond]
      split
      · rename_i e
        rw [hf, e]
      · rfl
    refine ⟨.ring c b rfl (fun c' => by rw [hcond]) rfl, fun c' => by rw [hcond],
      ?_, fun _ => trivial, by simp [Pc.Leads]⟩
    rintro ⟨ev, hc, hnd, hce, hpos, hidle⟩
    refine ⟨ev, ?_, hnd, fun c' hc' => ?_, fun c' hc' => ?_⟩
    · refine hc.congr fun c' _ => ?_
      rw [hcond]
    · rw [hcond]
      by_cases e : c' = c
      · simp only [if_pos e]
        exact Board.rung_pos hN b _
      · simp only [if_neg e]
        exact hpos c' hc' e
    · have e : c' ≠ c := by
        rintro rfl
        exact hc' hce
      obtain ⟨e1, e2⟩ := hidle c' hc'
      rw [hcond]
      simp only [Cond.Idle, if_neg e]
      exact ⟨e1, e2⟩
  | waitSync c m => exact absurd rfl (h1 c m)
  | createSync d =>
    simp only [exec, bind_ok, pure_ok, Prod.mk.injEq] at he
    obtain ⟨μ', h1, rfl, rfl, rfl⟩ := he
    unfold create at h1
    split at h1
    · cases h1
    · have hc := tready_cond h1
      have hv := (tready_awakes h1).evconds
      exact quiet hc hv id id (by simp [Pc.Leads])
  | join tj =>
    simp only [exec, bind_ok, check_ok, exists_const] at he
    obtain ⟨-, -, he⟩ := he
    split at he <;>
    · simp only [pure_ok, Prod.mk.injEq] at he
      obtain ⟨rfl, rfl, rfl⟩ := he
      exact quiet rfl rfl id id (by simp [Pc.Leads])
  | joinSync tj =>
    simp only [exec] at he
    split at he
    · simp only [bind_ok, check_ok, exists_const, pure_ok, Prod.mk.injEq] at he
      obtain ⟨-, -, pc', h3, rfl, rfl, rfl⟩ := he
      obtain ⟨-, -, rfl⟩ := tblock_ok h3
      exact quiet rfl rfl id id (by simp [Pc.Leads])
    · simp only [pure_ok, Prod.mk.injEq] at he
      obtain ⟨rfl, rfl, rfl⟩ := he
      exact quiet rfl rfl id id (by simp [Pc.Leads])
  | joinFree tj =>
    simp only [exec, bind_ok, check_ok, exists_const, pure_ok, Prod.mk.injEq] at he
    obtain ⟨-, rfl, rfl, rfl⟩ := he
    exact quiet rfl rfl id id (by simp [Pc.Leads])
  | exitSync =>
    simp only [exec, bind_ok, check_ok, exists_const, pure_ok, Prod.mk.injEq] at he
    obtain ⟨-, μ', h1, pc', h3, rfl, rfl, rfl⟩ := he
    obtain ⟨-, -, rfl⟩ := tblock_ok h3
    unfold wakeJoiner at h1
    split at h1
    · simp only [pure_ok] at h1
      rw [← h1]
      exact quiet rfl rfl id id (by simp [Pc.Leads])
    · exact quiet (tready_cond h1) (tready_awakes h1).evconds id id (by simp [Pc.Leads])
  | ret =>
    simp only [exec, bind_ok, check_ok, exists_const] at he
    obtain ⟨-, he⟩ := he
    split at he
    · simp only [pure_ok, Prod.mk.injEq] at he
      obtain ⟨rfl, rfl, rfl⟩ := he
      exact quiet rfl rfl id id (by simp [Pc.Leads])
    · simp only [bind_ok, check_ok, exists_const, pure_ok, Prod.mk.injEq] at he
      obtain ⟨-, rfl, rfl, rfl⟩ := he
      exact quiet rfl rfl id id (by simp [Pc.Leads])
  | events a =>
    simp only [exec, h2 a rfl, pure_ok, Prod.mk.injEq] at he
    obtain ⟨rfl, rfl, rfl⟩ := he
    refine quiet rfl rfl ?_ id (by simp [Pc.Leads])
    rintro ⟨ev, hc, hnd, hpos, hidle⟩
    rw [h2 a rfl] at hc
    cases ev with
    | nil => exact ⟨[], h2 a rfl, List.nodup_nil, rfl, fun c => hidle c (by simp)⟩
    | cons x xs => cases hc.1
  | reqs mp a =>
    simp only [exec, bind_ok, Prod.exists] at he
    obtain ⟨μ', r, h1, he⟩ := he
    rcases mutexreqs_ok h1 with ⟨-, rfl, rfl⟩ | ⟨m, tn, -, ho, -, ⟨-, rfl, rfl⟩ | ⟨hf, rfl, h2⟩⟩
    · simp only [pure_ok, Prod.mk.injEq] at he
      obtain ⟨rfl, rfl, rfl⟩ := he
      exact quiet rfl rfl id id (by simp [Pc.Leads])
    · simp only [pure_ok, Prod.mk.injEq] at he
      obtain ⟨rfl, rfl, rfl⟩ := he
      exact quiet rfl rfl id id (by simp [Pc.Leads])
    · simp only [pure_ok, Prod.mk.injEq] at he
      obtain ⟨rfl, rfl, rfl⟩ := he
      simp only [transfer, bind_ok, check_ok, exists_const] at h2
      obtain ⟨-, h2⟩ := h2
      obtain ⟨hc, -, hv, -⟩ := handover_rest m tn (μ.setReq t mp (μ.mutex m).reqnext)
      obtain ⟨hc', hv'⟩ := setReq_cond μ t mp (μ.mutex m).reqnext
      refine quiet ?_ ?_ id id (by simp [Pc.Leads])
      · rw [tready_cond h2, hc, hc']
      · rw [(tready_awakes h2).evconds, hv, hv']
  | user | done | dead | failed =>
    simp only [exec, pure_ok, Prod.mk.injEq] at he
    obtain ⟨rfl, rfl, rfl⟩ := he
    exact quiet rfl rfl id id (by simp [Pc.Leads])

/-- The start of a call counts no wakeup, and takes the thread where it may be. -/
theorem enter_conds {mx : CondId → MutexId} {held : MutexId → Bool} {call : Call} {k k' : Mem}
    {pc : Pc}
    (hd : match call with
      | .condWait c m => m = mx c ∧ held m = true
      | .condSignal c | .condBroadcast c => held (mx c) = true
      | _ => True)
    (he : enter call k = .ok (k', pc)) :
    k'.cond = k.cond ∧ k'.evconds = k.evconds ∧ (Evs k .user → Evs k' pc) ∧ pc.Calls mx held ∧
      ∀ w, pc = .failed w → w ≠ .condwakeups := by
  cases call with
  | condSignal c | condBroadcast c =>
    simp only [enter, pure_ok, Prod.mk.injEq] at he
    obtain ⟨rfl, rfl⟩ := he
    exact ⟨rfl, rfl, id, hd, by simp⟩
  | condWait c m =>
    simp only [enter, bind_ok, check_ok, pure_ok, exists_const, Prod.mk.injEq] at he
    obtain ⟨-, rfl, rfl⟩ := he
    exact ⟨rfl, rfl, id, hd, by simp⟩
  | mutexLock | mutexTrylock | mutexUnlock | create | join | exit =>
    simp only [enter, bind_ok, check_ok, pure_ok, exists_const, Prod.mk.injEq] at he
    obtain ⟨-, rfl, rfl⟩ := he
    exact ⟨rfl, rfl, id, trivial, by simp⟩

/-! ## The invariant -/

/-- A child or the master runs code of the thread. -/
def Sys.runs (s : Sys) (t : Tid) : Prop := s.up t = true ∨ s.cur t = true

/-- The wakeups that the owner of the mutex of a condition variable has pending for it. -/
def Sys.pending (mx : CondId → MutexId) (s : Sys) (c : CondId) : ℕ :=
  ((s.view (s.mem.mutex (mx c)).owner).cond c).nwake

/-- The invariant of the condition variables, whose mutexes are `mx`. -/
structure Conds (N : ℕ) (mx : CondId → MutexId) (s : Sys) (p : Tid → Option Queue)
    (l : Queue → List Tid) (b : Board) : Prop where
  bound : ∀ x, (s.mem.th x).state ≠ .free → x < N
  calls : ∀ x, s.runs x → (s.pc x).Calls mx (holds s.log x)
  idle : (∀ x, s.cur x = false) → Idle s.mem
  snap : ∀ x, s.up x = true → Idle (s.snap x)
  evs : ∀ x, s.runs x → Evs (s.view x) (s.pc x)
  own : ∀ x c, s.runs x → 0 < ((s.view x).cond c).nwake → (s.mem.mutex (mx c)).owner = x
  fresh : ∀ x c, s.up x = true → (s.mem.mutex (mx c)).owner = x →
    ((s.snap x).cond c).qhead = (s.mem.cond c).qhead
  replay : Board.replay s.log = some b
  fits : b.Fits (s.pending mx) fun c => l (.cond c)
  tail : ∀ x a c, s.cur x = true → s.pc x = .events a → p x = some (.cond c) →
    (s.mem.mutex (mx c)).owner = x ∧ x ∉ b.due c
  sites : ∀ x w, s.pc x = .failed w → w ≠ .condwakeups

theorem Sys.view_of_up {s : Sys} {t : Tid} (h : s.up t = true) : s.view t = s.kid t := if_pos h

theorem Sys.view_of_down {s : Sys} {t : Tid} (h : s.up t = false) : s.view t = s.mem := by
  rw [Sys.view, h]
  rfl

theorem Board.replay_append {log notes : List Note} {b : Board} (h : Board.replay log = some b) :
    Board.replay (log ++ notes) = b.notes notes := by
  unfold Board.replay at h ⊢
  rw [Board.notes_append, h]
  rfl

/-- The notes of a thread do not say what another thread holds. -/
theorem Touch.holds_of_ne {t x : Tid} {pc : Pc} {μ μ' : Mem} {notes : List Note}
    (h : Touch t pc μ μ' notes) (hx : x ≠ t) (log : List Note) (m : MutexId) :
    holds (log ++ notes) x m = holds log x m := by
  cases h with
  | none _ _ hn => exact hn log x m
  | flag k b _ _ _ hn => rw [hn, if_neg fun e => hx e.1.symm]
  | steal k _ _ _ _ _ hn => rw [hn, List.append_nil]
  | give k tn _ _ _ _ _ _ hn => rw [hn, List.append_nil]

/-- A running thread keeps its mutexes, until it hands them over itself. -/
theorem Touch.owner_of_run {t x : Tid} {pc : Pc} {μ μ' : Mem} {notes : List Note} {m : MutexId}
    (h : Touch t pc μ μ' notes) (hm : (μ.mutex m).owner = x) (hx : (μ.th x).state = .run)
    (hr : x ≠ t ∨ ∀ mp a, pc ≠ .reqs mp a) : (μ'.mutex m).owner = x := by
  cases h with
  | none ho => exact (ho m).trans hm
  | flag k b _ ho => exact (ho m).trans hm
  | steal k _ _ hs ho =>
    have e : m ≠ k := by
      rintro rfl
      exact hs (hm ▸ hx)
    rw [ho, if_neg e, hm]
  | give k tn hpc hk _ _ ho =>
    have e : m ≠ k := by
      rintro rfl
      rcases hr with hr | hr
      · exact hr (hm.symm.trans hk)
      · exact hr _ _ hpc
    rw [ho, if_neg e, hm]

/-- A mutex comes to a thread that does not run as a child only. -/
theorem Touch.owner_of_up {s : Sys} {p : Tid → Option Queue} {l : Queue → List Tid} {t x : Tid}
    {μ : Mem} {notes : List Note} {m : MutexId} (hs : Sched s p l) (hw : s.who = .thread t)
    (h : Touch t (s.pc t) s.mem μ notes) (hx : s.up x = true) (hm : (μ.mutex m).owner = x) :
    (s.mem.mutex m).owner = x := by
  cases h with
  | none ho => exact (ho m).symm.trans hm
  | flag k b _ ho => exact (ho m).symm.trans hm
  | steal k _ _ _ ho =>
    rw [ho] at hm
    split at hm
    · rw [← hm, hs.cur_up hw] at hx
      cases hx
    · exact hm
  | give k tn _ _ _ hst ho =>
    rw [ho] at hm
    split at hm
    · rw [← hm] at hx
      have := hs.up_state hx
      rw [hst] at this
      cases this
    · exact hm

namespace Conds

variable {N : ℕ} {mx : CondId → MutexId} {s : Sys} {p p' : Tid → Option Queue}
  {l l' : Queue → List Tid} {b b' : Board} {t : Tid} {μ : Mem} {pc : Pc} {notes : List Note}

/-- The master takes a step for a thread. -/
theorem advance (h : Conds N mx s p l b) (hs : Sched s p l) (hw : s.who = .thread t)
    (touch : Touch t (s.pc t) s.mem μ notes)
    (hbound : ∀ x, (μ.th x).state ≠ .free → x < N)
    (hcl : pc.Calls mx (holds (s.log ++ notes) t)) (hev : Evs μ pc)
    (hown : ∀ c, 0 < (μ.cond c).nwake → (μ.mutex (mx c)).owner = t)
    (hq : ∀ c, (s.mem.mutex (mx c)).owner ≠ t → (μ.cond c).qhead = (s.mem.cond c).qhead)
    (hrep : b.notes notes = some b')
    (hfits : b'.Fits (fun c => if s.up (s.mem.mutex (mx c)).owner then s.pending mx c else
      (μ.cond c).nwake) fun c => l' (.cond c))
    (htail : ∀ a c, pc = .events a → p' t = some (.cond c) →
      (μ.mutex (mx c)).owner = t ∧ t ∉ b'.due c)
    (hsite : ∀ w, pc = .failed w → w ≠ .condwakeups) :
    Conds N mx (s.ran t μ pc notes) p' l' b' := by
  have hupt := hs.cur_up hw
  have hself : Function.update s.pc t pc t = pc := Function.update_self _ _ _
  have hne : ∀ x, s.up x = true → x ≠ t := by
    rintro x hx rfl
    rw [hupt] at hx
    cases hx
  have hruns : ∀ x, (s.ran t μ pc notes).runs x → x = t ∨ s.up x = true := by
    rintro x (hx | hx)
    · exact .inr hx
    · exact .inl (Sys.eq_of_cur hw hx)
  have hview : ∀ x, (s.ran t μ pc notes).view x = if s.up x then s.kid x else μ := fun _ => rfl
  have hviewt : (s.ran t μ pc notes).view t = μ := by
    rw [hview, hupt]
    rfl
  refine ⟨hbound, fun x hx => ?_, fun hx => ?_, h.snap, fun x hx => ?_, fun x c hx hn => ?_,
    fun x c hx hm => ?_, ?_, ?_, fun x a c hx hpc hp => ?_, fun x w hx => ?_⟩
  · rcases hruns x hx with rfl | hx
    · show Pc.Calls mx _ (Function.update s.pc x pc x)
      rw [hself]
      exact hcl
    · show Pc.Calls mx (holds (s.log ++ notes) x) (Function.update s.pc t pc x)
      rw [Function.update_of_ne (hne x hx)]
      have he : holds (s.log ++ notes) x = holds s.log x :=
        funext fun m => touch.holds_of_ne (hne x hx) s.log m
      rw [he]
      exact h.calls x (.inl hx)
  · have := hx t
    rw [show (s.ran t μ pc notes).cur t = s.cur t from rfl, Sys.cur_self hw] at this
    cases this
  · rcases hruns x hx with rfl | hx
    · rw [hviewt]
      show Evs μ (Function.update s.pc x pc x)
      rw [hself]
      exact hev
    · have := h.evs x (.inl hx)
      rw [Sys.view_of_up hx] at this
      rw [hview, if_pos hx]
      show Evs (s.kid x) (Function.update s.pc t pc x)
      rwa [Function.update_of_ne (hne x hx)]
  · rcases hruns x hx with rfl | hx
    · rw [hviewt] at hn
      exact hown c hn
    · rw [hview, if_pos hx] at hn
      have := h.own x c (.inl hx) (by rwa [Sys.view_of_up hx])
      exact touch.owner_of_run this (hs.up_state hx) (.inl (hne x hx))
  · have hm' := Touch.owner_of_up hs hw touch hx hm
    rw [show (s.ran t μ pc notes).mem = μ from rfl, hq c (hm' ▸ hne x hx)]
    exact h.fresh x c hx hm'
  · exact (Board.replay_append h.replay).trans hrep
  · have e : (s.ran t μ pc notes).pending mx = fun c =>
        if s.up (s.mem.mutex (mx c)).owner then s.pending mx c else (μ.cond c).nwake := by
      funext c
      show (((s.ran t μ pc notes).view (μ.mutex (mx c)).owner).cond c).nwake = _
      rw [hview]
      by_cases hup : s.up (s.mem.mutex (mx c)).owner = true
      · rw [if_pos hup, touch.owner_of_run rfl (hs.up_state hup) (.inl (hne _ hup)), if_pos hup,
          Sys.pending, Sys.view_of_up hup]
      · have hup' : ¬ s.up (μ.mutex (mx c)).owner = true := by
          intro hup'
          have := Touch.owner_of_up hs hw touch hup' rfl
          rw [this] at hup
          exact hup hup'
        rw [if_neg hup, if_neg hup']
    rw [e]
    exact hfits
  · obtain rfl : x = t := Sys.eq_of_cur hw hx
    exact htail a c (hself.symm.trans hpc) hp
  · by_cases e : x = t
    · subst e
      exact hsite w (hself.symm.trans hx)
    · refine h.sites x w ?_
      rw [← hx]
      exact (Function.update_of_ne e _ _).symm

end Conds

/-! ## The code run by the master -/

theorem wakeup_length (c : CondId) : ∀ (k : ℕ) {μ μ' : Mem} {ts : List Tid},
    wakeup c k μ = .ok (μ', ts) → ts.length ≤ k
  | 0, μ, μ', ts, h => by
    simp only [wakeup, pure_ok, Prod.mk.injEq] at h
    rw [← h.2]
    exact Nat.le_refl 0
  | k + 1, μ, μ', ts, h => by
    unfold wakeup at h
    split at h
    · simp only [pure_ok, Prod.mk.injEq] at h
      rw [← h.2]
      exact Nat.zero_le _
    · simp only [bind_ok, check_ok, pure_ok, exists_const, Prod.exists, Prod.mk.injEq] at h
      obtain ⟨-, μ₁, -, μ₂, ts', h2, -, rfl⟩ := h
      have := wakeup_length c k h2
      rw [List.length_cons]
      omega

theorem condwakeups_length {c : CondId} {μ μ' : Mem} {ts : List Tid}
    (h : condwakeups c μ = .ok (μ', ts)) : ts.length ≤ (μ.cond c).nwake := by
  simp only [condwakeups, bind_ok, check_ok, pure_ok, exists_const, Prod.exists,
    Prod.mk.injEq] at h
  obtain ⟨-, -, μ₁, ts', h1, -, rfl⟩ := h
  exact wakeup_length c _ h1

/-- The loop meets only threads that wait. -/
theorem wakeup_pass (c : CondId) {w : Site} : ∀ (k : ℕ) {μ : Mem} {p : Tid → Option Queue}
    {l : Queue → List Tid}, QueuedBut (.cond c) μ p l → μ.tlock = 2 →
    (∀ x ∈ (l (.cond c)).take k, (μ.th x).state = .cond) → wakeup c k μ ≠ .error w
  | 0, μ, p, l, _, _, _ => by simp [wakeup, pure, Except.pure]
  | k + 1, μ, p, l, hq, htl, hst => by
    have hh : (μ.cond c).qhead = (l (.cond c)).head? := hq.head_eq (.cond c)
    cases hl : l (.cond c) with
    | nil =>
      rw [hl] at hh
      simp [wakeup, hh, pure, Except.pure]
    | cons tw us =>
      rw [hl] at hh hst
      have htw : (μ.th tw).state = .cond := hst tw (by simp)
      intro he
      simp only [wakeup, hh, List.head?_cons] at he
      rw [check_bind htw] at he
      simp only [bind_error, pure_error, and_false, exists_false, or_false] at he
      have hr := Relink.unlink μ (.cond c) tw
      have hu := hq.unlink hl
      rcases he with he | ⟨μ₁, h1, he⟩
      · refine tready_pass (hr.tlock.trans htl) ?_ (hu.off (Function.update_self _ _ _)) he
        rw [hr.state, htw]
        simp
      · have ha := tready_awakes h1
        have hnd : (tw :: us).Nodup := hl ▸ (Queued.holds hq (.cond c)).nodup
        refine wakeup_pass c k (tready_queuedBut h1 hu (Function.update_self _ _ _))
          (ha.tlock.trans (hr.tlock.trans htl)) (fun x hx => ?_) he
        have hx' : x ∈ us.take k := by simpa using hx
        have hne : x ≠ tw := by
          rintro rfl
          exact (List.nodup_cons.1 hnd).1 (List.mem_of_mem_take hx')
        rw [ha.state, if_neg (by simpa using hne), hr.state]
        exact hst x (by simp [hx'])

theorem condwakeups_pass {c : CondId} {μ : Mem} {p : Tid → Option Queue} {l : Queue → List Tid}
    {w : Site} (hq : Queued μ p l) (htl : μ.tlock = 2) (hn : 0 < (μ.cond c).nwake)
    (hst : ∀ x ∈ (l (.cond c)).take (μ.cond c).nwake, (μ.th x).state = .cond) :
    condwakeups c μ ≠ .error w := by
  intro he
  rw [condwakeups, check_bind htl, check_bind hn] at he
  simp only [bind_error, pure_error, and_false, exists_false, or_false] at he
  exact wakeup_pass c _ (.of_queued hq _) htl hst he

theorem Mem.enqueue_cond_of_ne {c c' : CondId} (hc : c' ≠ c) (μ : Mem) (t : Tid) :
    (μ.enqueue (.cond c) t).cond c' = μ.cond c' := by
  unfold Mem.enqueue
  split <;> simp [Mem.setTail_cond, Mem.setHead_cond, Mem.setQnext, Ne.symm hc]

theorem exec_bound {N : ℕ} {s : Sys} {p : Tid → Option Queue} {l : Queue → List Tid} {t : Tid}
    {pc : Pc} {μ : Mem} {notes : List Note} (hs : Sched s p l) (hw : s.who = .thread t)
    (hb : ∀ x, (s.mem.th x).state ≠ .free → x < N)
    (he : exec N t (s.pc t) s.mem = .ok (μ, pc, notes)) (x : Tid)
    (hx : (μ.th x).state ≠ .free) : x < N := by
  by_cases h1 : ∃ m, s.pc t = .lockIf m
  · obtain ⟨m, hm⟩ := h1
    rw [hm] at he
    simp only [exec] at he
    refine hb x fun e => hx ?_
    split at he
    · simp only [bind_ok, pure_ok, Prod.mk.injEq] at he
      obtain ⟨μ₁, h1, μ₂, h2, pc', -, rfl, -⟩ := he
      obtain rfl := enlist_ok h2
      rw [(Relink.enqueue μ₁ _ t).state, ((request_frame h1).2 x).1, e]
    · simp only [pure_ok, Prod.mk.injEq] at he
      rw [← he.1, e]
  by_cases h2 : ∃ mp a, s.pc t = .reqs mp a
  · obtain ⟨mp, a, hm⟩ := h2
    rw [hm] at he
    simp only [exec, bind_ok, Prod.exists] at he
    obtain ⟨μ₁, y, h1, he⟩ := he
    have hμ : μ₁ = μ := by
      split at he
      · simp only [pure_ok, Prod.mk.injEq] at he
        exact he.1
      · simp only [pure_ok, Prod.mk.injEq] at he
        exact he.1
    subst hμ
    refine hb x fun e => hx ?_
    rcases mutexreqs_ok h1 with ⟨-, rfl, -⟩ | ⟨m, tn, -, -, hq, ⟨-, rfl, -⟩ | ⟨-, -, h2⟩⟩
    · exact e
    · exact e
    · obtain ⟨ts, -, w, -⟩ := hs.reqs hw hm hq h2 []
      obtain ⟨v, ev⟩ := w.th x
      rw [ev]
      have hne : x ≠ tn := by
        rintro rfl
        have := w.waited
        rw [setReq_state, e] at this
        cases this
      simp only [if_neg hne, setReq_state]
      exact e
  rcases (exec_keeps hs hw rfl (fun m e => h1 ⟨m, e⟩) (fun mp a e => h2 ⟨mp, a, e⟩) he).bound x hx
    with hx | hx
  · exact hb x hx
  · exact hx

theorem holds_wakes (log : List Note) (ts : List Tid) (c : CondId) (x : Tid) :
    holds (log ++ ts.map (.wakes · c)) x = holds log x := by
  funext m
  rw [holds_append]
  induction ts with
  | nil => rfl
  | cons y ys ih => exact ih

namespace Conds

variable {N : ℕ} {mx : CondId → MutexId} {s : Sys} {p p' : Tid → Option Queue}
  {l l' : Queue → List Tid} {b : Board} {t : Tid} {μ : Mem} {pc : Pc} {notes : List Note}

/-- A queue is not longer than the thread table. -/
theorem length_le (h : Conds N mx s p l b) (hs : Sched s p l) (c : CondId) :
    (l (.cond c)).length ≤ N := by
  have hsub : ∀ x ∈ l (.cond c), x ∈ List.range N := by
    intro x hx
    have hsp := hs.spots.spot x
    rw [(hs.queued.mem x _).1 hx] at hsp
    refine List.mem_range.2 (h.bound x fun e => ?_)
    rw [e] at hsp
    cases hsp.of_free
  have := ((hs.queued.holds (.cond c)).nodup.subperm hsub).length_le
  rwa [List.length_range] at this

/-- The pending wakeups of a condition variable whose owner is in the master. -/
theorem pending_of_down (hup : s.up (s.mem.mutex (mx c)).owner = false) :
    s.pending mx c = (s.mem.cond c).nwake := by
  rw [Sys.pending, Sys.view_of_down hup]

/-- Nothing is counted. -/
theorem pending_stay (hc : ∀ c, (μ.cond c).nwake = (s.mem.cond c).nwake) :
    (fun c => if s.up (s.mem.mutex (mx c)).owner then s.pending mx c else (μ.cond c).nwake) =
      s.pending mx := by
  funext c
  split
  · rfl
  · rename_i hup
    rw [pending_of_down (by simpa using hup), hc]

/-- A thread that is in `condevent` or in `pthread_cond_wait` owns the mutex. -/
theorem owner_of_held (hv : Views N s) {m : MutexId} (hh : holds s.log t m = true) :
    (s.mem.mutex m).owner = t := (hv.held t m hh).1

/-- The master runs code that may count a wakeup. -/
theorem rings (h : Conds N mx s p l b) (hs : Sched s p l) (hv : Views N s)
    (hw : s.who = .thread t) (hs' : Sched (s.ran t μ pc notes) p' l')
    (hl : ∀ c, l' (.cond c) = l (.cond c)) (hbound : ∀ x, (μ.th x).state ≠ .free → x < N)
    (touch : Touch t (s.pc t) s.mem μ notes) (hr : Rings N t (s.pc t) s.mem μ notes)
    (hq : ∀ c, (μ.cond c).qhead = (s.mem.cond c).qhead)
    (hcl : pc.Calls mx (holds (s.log ++ notes) t)) (hev : Evs μ pc)
    (hleads : (s.pc t).Leads pc) : ∃ b', Conds N mx (s.ran t μ pc notes) p' l' b' := by
  have hcur := Sys.cur_self hw
  have hupt := hs.cur_up hw
  have hcall := h.calls t (.inr hcur)
  have hevs := h.evs t (.inr hcur)
  rw [Sys.view_of_down hupt] at hevs
  have hown' : ∀ c, 0 < (s.mem.cond c).nwake → (s.mem.mutex (mx c)).owner = t := by
    intro c hc
    refine h.own t c (.inr hcur) ?_
    rwa [Sys.view_of_down hupt]
  have hkeep : ∀ c, (s.mem.mutex (mx c)).owner = t → (∀ mp a, s.pc t ≠ .reqs mp a) →
      (μ.mutex (mx c)).owner = t :=
    fun c ho hr => touch.owner_of_run ho (hs.cur_state hw) (.inr hr)
  have htail : ∀ (b' : Board) (a : After) (c : CondId), pc = .events a →
      p' t = some (.cond c) → (μ.mutex (mx c)).owner = t ∧ t ∉ b'.due c := by
    intro b' a c hpc hp
    have hfit := hs'.cur_fits hw
    rw [show (s.ran t μ pc notes).pc t = pc from Function.update_self _ _ _, hpc, hp] at hfit
    cases a with
    | wait m => exact absurd hpc (hleads.1 m)
    | _ => simp [Pc.Fits, After.Fits] at hfit
  have hsite : ∀ w, pc = .failed w → w ≠ .condwakeups :=
    fun w hw => h.sites t w (hleads.2 w hw)
  have hl' : (fun c => l' (.cond c)) = fun c => l (.cond c) := funext hl
  have hsame : (∀ c, (μ.cond c).nwake = (s.mem.cond c).nwake) → ∀ c, 0 < (μ.cond c).nwake →
      (μ.mutex (mx c)).owner = t := by
    intro hc c hn
    rw [hc] at hn
    refine hkeep c (hown' c hn) fun mp a hpc => ?_
    rw [hpc] at hevs
    obtain ⟨ev, -, -, -, hidle⟩ := hevs
    rw [(hidle c).1] at hn
    cases hn
  cases hr with
  | none hc hb =>
    refine ⟨b, h.advance hs hw touch hbound hcl hev (hsame hc) (fun c _ => hq c) (hb b) ?_
      (htail b) hsite⟩
    rw [pending_stay hc, hl']
    exact h.fits
  | idle c br hpc hqn hc hn =>
    have hnil : l (.cond c) = [] := (hs.queued.head_none_iff (.cond c)).1 hqn
    refine ⟨b, h.advance hs hw touch hbound hcl hev (hsame hc) (fun c _ => hq c) ?_ ?_
      (htail b) hsite⟩
    · rw [hn]
      simp only [Board.notes, h.fits.ring_nil hnil br, Option.bind_some]
    · rw [pending_stay hc, hl']
      exact h.fits
  | ring c br hpc hc hn =>
    rw [hpc] at hcall
    have hoc : (s.mem.mutex (mx c)).owner = t := owner_of_held hv hcall
    obtain ⟨b', e1, e2, -⟩ := h.fits.ring (t := t) (h.length_le hs c) br
    refine ⟨b', h.advance hs hw touch hbound hcl hev (fun c' hn' => ?_) (fun c _ => hq c) ?_ ?_
      (htail b') hsite⟩
    · refine hkeep c' ?_ (by simp [hpc])
      by_cases e : c' = c
      · rw [e, hoc]
      · rw [hc, if_neg e] at hn'
        exact hown' c' hn'
    · rw [hn]
      simp only [Board.notes, e1, Option.bind_some]
    · rw [hl']
      convert e2 using 1
      funext c'
      by_cases e : c' = c
      · subst e
        rw [Function.update_self, hoc, hupt, hc, if_pos rfl, pending_of_down (hoc ▸ hupt)]
        rfl
      · rw [Function.update_of_ne e]
        split
        · rfl
        · rename_i hup
          rw [pending_of_down (by simpa using hup), hc, if_neg e]

/-- The master's thread starts to wait. -/
theorem wait {c : CondId} {m : MutexId} (h : Conds N mx s p l b) (hs : Sched s p l)
    (hv : Views N s) (hw : s.who = .thread t) (hpc : s.pc t = .waitSync c m)
    (hn : (s.mem.cond c).nwake ≤ (l (.cond c)).length)
    (touch : Touch t (s.pc t) s.mem
      ((s.mem.enqueue (.cond c) t).setMutex m fun x => { x with locked := false })
      [.waits t c, .unlocked t m]) :
    ∃ b', Conds N mx (s.ran t
        ((s.mem.enqueue (.cond c) t).setMutex m fun x => { x with locked := false })
        (.events (.wait m)) [.waits t c, .unlocked t m])
      (Function.update p t (some (.cond c)))
      (Function.update l (.cond c) (l (.cond c) ++ [t])) b' := by
  have hcur := Sys.cur_self hw
  have hupt := hs.cur_up hw
  have hcall := h.calls t (.inr hcur)
  have hfit := hs.cur_fits hw
  have hevs := h.evs t (.inr hcur)
  rw [Sys.view_of_down hupt] at hevs
  rw [hpc] at hcall hfit hevs
  obtain ⟨rfl, hheld⟩ := hcall
  have hoc : (s.mem.mutex (mx c)).owner = t := owner_of_held hv hheld
  have hr := Relink.enqueue s.mem (.cond c) t
  have hkeep : ∀ c', (s.mem.mutex (mx c')).owner = t →
      (((s.mem.enqueue (.cond c) t).setMutex (mx c) fun x =>
        { x with locked := false }).mutex (mx c')).owner = t :=
    fun c' ho => touch.owner_of_run ho (hs.cur_state hw) (.inr (by simp [hpc]))
  obtain ⟨b', e1, e2, e3⟩ := h.fits.wait (t := t) (c := c)
    (by rw [pending_of_down (hoc ▸ hupt)]; exact hn)
  refine ⟨b', h.advance hs hw touch (fun x hx => ?_) trivial ?_ (fun c' hn' => ?_)
    (fun c' hc' => ?_) ?_ ?_ (fun a c' ha hp => ?_) (by simp)⟩
  · exact h.bound x fun e => hx ((hr.state x).trans e)
  · exact hevs.congr hr.nwake hr.evnext hr.evconds
  · refine hkeep c' (h.own t c' (.inr hcur) ?_)
    rw [Sys.view_of_down hupt, ← hr.nwake]
    exact hn'
  · have hne : c' ≠ c := by
      rintro rfl
      exact hc' hoc
    show ((s.mem.enqueue (.cond c) t).cond c').qhead = _
    rw [Mem.enqueue_cond_of_ne hne]
  · rw [Board.notes, e1]
    rfl
  · have hls : (fun c' => Function.update l (.cond c) (l (.cond c) ++ [t]) (.cond c')) =
        Function.update (fun c' => l (.cond c')) c (l (.cond c) ++ [t]) := by
      funext c'
      by_cases e : c' = c
      · rw [e, Function.update_self, Function.update_self]
      · rw [Function.update_of_ne e, Function.update_of_ne (by simpa using e)]
    rw [hls]
    show b'.Fits (fun c' => if s.up (s.mem.mutex (mx c')).owner then s.pending mx c' else
      ((s.mem.enqueue (.cond c) t).cond c').nwake) _
    rw [pending_stay hr.nwake]
    exact e2
  · rw [Function.update_self] at hp
    injection hp with e
    injection e with e
    subst e
    refine ⟨hkeep c hoc, fun ht => ?_⟩
    rw [e3] at ht
    have hl : l (.cond c) = b.due c ++ b.waiting c := (h.fits c).1
    have hm : t ∈ l (.cond c) := by
      rw [hl]
      exact List.mem_append_left _ ht
    rw [hs.queued.mem, show p t = none from hfit] at hm
    cases hm

/-- The master processes the pending wakeups of a condition variable. -/
theorem wake {c : CondId} {a : After} {ts rest : List Tid} (h : Conds N mx s p l b)
    (hs : Sched s p l) (hw : s.who = .thread t) (hpc : s.pc t = .events a)
    (hev : s.mem.evconds = some c) (w : CondWakes c s.mem μ p l ts rest)
    (hlen : ts.length ≤ (s.mem.cond c).nwake)
    (touch : Touch t (s.pc t) s.mem μ (ts.map (.wakes · c))) :
    ∃ b', Conds N mx (s.ran t μ (.events a) (ts.map (.wakes · c))) (readied p ts)
      (moved l (.cond c) ts rest) b' := by
  have hcur := Sys.cur_self hw
  have hupt := hs.cur_up hw
  have hcall := h.calls t (.inr hcur)
  have hevs := h.evs t (.inr hcur)
  rw [Sys.view_of_down hupt] at hevs
  rw [hpc] at hcall hevs
  have hown' : ∀ c, 0 < (s.mem.cond c).nwake → (s.mem.mutex (mx c)).owner = t := by
    intro c hc
    refine h.own t c (.inr hcur) ?_
    rwa [Sys.view_of_down hupt]
  have hoc := hown' c w.pending
  have hpc' : s.pending mx c = (s.mem.cond c).nwake := pending_of_down (hoc ▸ hupt)
  have hts : ts.length = min (s.pending mx c) (l (.cond c)).length := by
    rw [hpc', w.split, List.length_append]
    rcases w.enough with e | e
    · rw [e, List.length_nil]
      omega
    · omega
  obtain ⟨hdue, b', e1, e2, e3⟩ := h.fits.wake w.split hts
  have hnw : ∀ c', (μ.cond c').nwake = if c' = c then 0 else (s.mem.cond c').nwake := by
    intro c'
    by_cases e : c' = c
    · rw [e, if_pos rfl, w.self.1]
    · rw [if_neg e, w.others c' e]
  have htts : t ∉ ts := by
    intro ht
    have := w.waited t ht
    rw [hs.cur_state hw] at this
    cases this
  refine ⟨b', h.advance hs hw touch (fun x hx => ?_) ?_ ?_ (fun c' hn' => ?_)
    (fun c' hc' => ?_) e1 ?_ (fun a' c' ha hp => ?_) (by simp)⟩
  · obtain ⟨v, e⟩ := w.th x
    rw [e] at hx
    refine h.bound x fun e' => ?_
    simp only at hx
    split at hx
    · rename_i hxt
      rw [w.waited x hxt] at e'
      cases e'
    · exact hx e'
  · rw [holds_wakes]
    exact hcall
  · obtain ⟨ev, hc, hnd, hpos, hidle⟩ := hevs
    rw [hev] at hc
    cases ev with
    | nil => cases hc
    | cons c' ev =>
      obtain rfl : c = c' := Option.some.inj hc.1
      obtain ⟨hcev, hnd'⟩ := List.nodup_cons.1 hnd
      refine ⟨ev, ?_, hnd', fun c' hc' => ?_, fun c' hc' => ?_⟩
      · rw [w.evconds]
        refine hc.2.congr fun c' hc' => ?_
        rw [w.others c' (ne_of_mem_of_not_mem hc' hcev)]
      · rw [w.others c' (ne_of_mem_of_not_mem hc' hcev)]
        exact hpos c' (List.mem_cons_of_mem _ hc')
      · by_cases e : c' = c
        · rw [e]
          exact w.self
        · rw [w.others c' e]
          refine hidle c' fun hm => ?_
          rcases List.mem_cons.1 hm with hm | hm
          · exact e hm
          · exact hc' hm
  · refine touch.owner_of_run (hown' c' ?_) (hs.cur_state hw) (.inr (by simp [hpc]))
    rw [hnw] at hn'
    split at hn'
    · cases hn'
    · exact hn'
  · have hne : c' ≠ c := by
      rintro rfl
      exact hc' hoc
    rw [w.others c' hne]
  · have hnw' : (fun c' => if s.up (s.mem.mutex (mx c')).owner then s.pending mx c' else
        (μ.cond c').nwake) = Function.update (s.pending mx) c 0 := by
      funext c'
      by_cases e : c' = c
      · rw [e, Function.update_self, hoc, hupt, hnw, if_pos rfl]
        rfl
      · rw [Function.update_of_ne e]
        split
        · rfl
        · rename_i hup
          rw [pending_of_down (by simpa using hup), hnw, if_neg e]
    have hls : (fun c' => moved l (.cond c) ts rest (.cond c')) =
        Function.update (fun c' => l (.cond c')) c rest := by
      funext c'
      by_cases e : c' = c
      · rw [e, Function.update_self]
        simp [moved]
      · rw [Function.update_of_ne e]
        simp [moved, e]
    rw [hnw', hls]
    exact e2
  · have hp' : p t = some (.cond c') := by
      rwa [readied, if_neg htts] at hp
    obtain ⟨h1, h2⟩ := h.tail t a c' hcur hpc hp'
    refine ⟨touch.owner_of_run h1 (hs.cur_state hw) (.inr (by simp [hpc])), ?_⟩
    rw [e3]
    by_cases e : c' = c
    · rw [e, Function.update_self]
      exact List.not_mem_nil
    · rw [Function.update_of_ne e]
      exact h2

end Conds

namespace Conds

variable {N : ℕ} {mx : CondId → MutexId} {s s' : Sys} {p p' : Tid → Option Queue}
  {l l' : Queue → List Tid} {b : Board} {t : Tid} {μ : Mem} {pc : Pc} {notes : List Note}

/-- The master runs a piece of library code. -/
theorem exec (h : Conds N mx s p l b) (hs : Sched s p l) (hv : Views N s) (hN : 0 < N)
    (hw : s.who = .thread t)
    (hn : ∀ c m, s.pc t = .waitSync c m → (s.mem.cond c).nwake ≤ (l (.cond c)).length)
    (he : Dsthread.exec N t (s.pc t) s.mem = .ok (μ, pc, notes)) :
    ∃ p' l' b', Sched (s.ran t μ pc notes) p' l' ∧ Conds N mx (s.ran t μ pc notes) p' l' b' := by
  have touch := (exec_touch (hv.owns t (Sys.cur_self hw)) he).1
  have hbound := exec_bound hs hw h.bound he
  by_cases h1 : ∃ c m, s.pc t = .waitSync c m
  · obtain ⟨c, m, hpc⟩ := h1
    rw [hpc] at he
    simp only [Dsthread.exec, bind_ok, check_ok, exists_const, pure_ok, Prod.mk.injEq] at he
    obtain ⟨-, -, -, -, -, -, pc', h3, rfl, rfl, rfl⟩ := he
    obtain ⟨-, -, rfl⟩ := tblock_ok h3
    obtain ⟨b', h'⟩ := h.wait hs hv hw hpc (hn c m hpc) touch
    exact ⟨_, _, b', hs.waitSync hw hpc _, h'⟩
  by_cases h2 : ∃ a c, s.pc t = .events a ∧ s.mem.evconds = some c
  · obtain ⟨a, c, hpc, hev⟩ := h2
    rw [hpc] at he
    simp only [Dsthread.exec, hev, bind_ok, pure_ok, Prod.exists, Prod.mk.injEq] at he
    obtain ⟨μ', ts, h3, rfl, rfl, rfl⟩ := he
    obtain ⟨rest, w, hs'⟩ := hs.events hw hpc h3 (ts.map (.wakes · c))
    obtain ⟨b', h'⟩ := h.wake hs hw hpc hev w (condwakeups_length h3) touch
    exact ⟨_, _, b', hs', h'⟩
  have h1' : ∀ c m, s.pc t ≠ .waitSync c m := fun c m e => h1 ⟨c, m, e⟩
  have h2' : ∀ a, s.pc t = .events a → s.mem.evconds = none := by
    intro a ha
    cases e : s.mem.evconds with
    | none => rfl
    | some c => exact absurd ⟨a, c, ha, e⟩ h2
  have hevs := h.evs t (.inr (Sys.cur_self hw))
  rw [Sys.view_of_down (hs.cur_up hw)] at hevs
  obtain ⟨hr, hq, hev, hcl, hleads⟩ := exec_rings mx s.log hN h1' h2' he
  have hsched : ∃ p' l', Sched (s.ran t μ pc notes) p' l' ∧ ∀ c, l' (.cond c) = l (.cond c) := by
    by_cases ha : ∃ a, s.pc t = .events a
    · obtain ⟨a, ha⟩ := ha
      have hfit := hs.cur_fits hw
      rw [ha] at he hfit
      simp only [Dsthread.exec, h2' a ha, pure_ok, Prod.mk.injEq] at he
      obtain ⟨rfl, rfl, rfl⟩ := he
      exact ⟨p, l, hs.move hw (.reqs .head a) hfit (fun b hb => by rwa [ha] at hb) _,
        fun _ => rfl⟩
    · obtain ⟨p', l', hs', -, hlc⟩ := hs.exec hw hv.tlock he
      exact ⟨p', l', hs', hlc h1' fun a e => ha ⟨a, e⟩⟩
  obtain ⟨p', l', hs', hlc'⟩ := hsched
  obtain ⟨b', h'⟩ := h.rings hs hv hw hs' hlc' hbound touch hr hq
    (hcl (h.calls t (.inr (Sys.cur_self hw)))) (hev hevs) hleads
  exact ⟨p', l', b', hs', h'⟩

/-- The assertions of `condwakeups` hold. -/
theorem error (h : Conds N mx s p l b) (hs : Sched s p l) (hv : Views N s)
    (hw : s.who = .thread t) {w : Site} (he : Dsthread.exec N t (s.pc t) s.mem = .error w) :
    w ≠ .condwakeups := by
  rintro rfl
  have hcur := Sys.cur_self hw
  have hupt := hs.cur_up hw
  have hsites := exec_sites he
  have hevs := h.evs t (.inr hcur)
  rw [Sys.view_of_down hupt] at hevs
  generalize hpc : s.pc t = pc at he hsites hevs
  cases pc with
  | events a =>
    simp only [Dsthread.exec] at he
    split at he
    · simp only [pure_error] at he
    · rename_i c hev
      simp only [bind_error, pure_error, and_false, exists_false, or_false] at he
      obtain ⟨ev, hc, -, hpos, -⟩ := hevs
      have hn : 0 < (s.mem.cond c).nwake := by
        rw [hev] at hc
        cases ev with
        | nil => cases hc
        | cons c' ev =>
          obtain rfl : c = c' := Option.some.inj hc.1
          exact hpos c List.mem_cons_self
      have ho : (s.mem.mutex (mx c)).owner = t := by
        refine h.own t c (.inr hcur) ?_
        rwa [Sys.view_of_down hupt]
      obtain ⟨h1, h2⟩ := h.fits c
      rw [pending_of_down (ho ▸ hupt)] at h2
      simp only at h1 h2
      refine condwakeups_pass hs.queued hv.tlock hn (fun x hx => ?_) he
      -- the first threads of the queue are those that are due, and this thread is not
      have hdue : x ∈ b.due c := by
        rw [h1, List.take_append] at hx
        rcases List.mem_append.1 hx with hx | hx
        · exact List.mem_of_mem_take hx
        · have hpos := List.length_pos_of_mem hx
          rw [List.length_take] at hpos
          rw [h1, List.length_append] at h2
          omega
      have hp : p x = some (.cond c) := by
        refine (hs.queued.mem x _).1 ?_
        rw [h1]
        exact List.mem_append_left _ hdue
      have hne : x ≠ t := by
        rintro rfl
        exact (h.tail x a c hcur hpc hp).2 hdue
      have hsp := hs.spots.spot x
      rw [hp, Sys.cur_of_ne hw hne] at hsp
      generalize s.up x = up, (s.mem.th x).state = st at hsp ⊢
      cases hsp
      rfl
  | _ => simp [Pc.sites] at hsites

/-- The master's thread fails elsewhere. -/
theorem fail (h : Conds N mx s p l b) (hs : Sched s p l) (hw : s.who = .thread t) {w : Site}
    (hw' : w ≠ .condwakeups) (hc : ∀ c br, s.pc t ≠ .chain c br ∧ s.pc t ≠ .count c br) :
    Conds N mx (s.fail t w) p l b := by
  have hcur := Sys.cur_self hw
  have hupt := hs.cur_up hw
  have hevs := h.evs t (.inr hcur)
  have hown := h.own t
  rw [Sys.view_of_down hupt] at hevs hown
  have e : s.ran t s.mem (.failed w) [] = s.fail t w := by simp [Sys.ran, Sys.fail]
  rw [← e]
  refine h.advance hs hw (.silent rfl) h.bound trivial (hevs.fail hc) (fun c hn => hown c (.inr hcur) hn)
    (fun _ _ => rfl) rfl ?_ (by simp) (fun w' hw'' => ?_)
  · rw [pending_stay fun _ => rfl]
    exact h.fits
  · injection hw'' with e
    exact e ▸ hw'

end Conds
/-! ## Every step -/

namespace Conds

variable {N : ℕ} {mx : CondId → MutexId} {s s' : Sys} {p p' : Tid → Option Queue}
  {l l' : Queue → List Tid} {b : Board} {t : Tid} {μ : Mem} {pc : Pc} {notes : List Note}

theorem congr (h : Conds N mx s p l b) (hl : ∀ c, l' (.cond c) = l (.cond c))
    (hcur : ∀ x, s.cur x = false) : Conds N mx s p' l' b := by
  refine ⟨h.bound, h.calls, h.idle, h.snap, h.evs, h.own, h.fresh, h.replay, ?_, ?_, h.sites⟩
  · rw [show (fun c => l' (.cond c)) = fun c => l (.cond c) from funext hl]
    exact h.fits
  · intro x a c hx
    rw [hcur] at hx
    cases hx

/-- The master's thread blocks. -/
theorem block {a : After} {st : TState} {eip : Pc} (h : Conds N mx s p l b) (hs : Sched s p l)
    (hw : s.who = .thread t) (hpc : s.pc t = .done a) : Conds N mx (s.block t st eip) p l b := by
  have hevs := h.evs t (.inr (Sys.cur_self hw))
  rw [Sys.view_of_down (hs.cur_up hw), hpc] at hevs
  have hcur : ∀ x, (s.block t st eip).cur x = false := fun x => by simp [Sys.cur, Sys.block]
  have hruns : ∀ x, (s.block t st eip).runs x → s.up x = true := by
    rintro x (hx | hx)
    · exact hx
    · rw [hcur] at hx
      cases hx
  have hview : ∀ x, s.up x = true → (s.block t st eip).view x = s.view x := by
    intro x hx
    rw [Sys.view_of_up hx]
    exact Sys.view_of_up (s := s.block t st eip) hx
  refine ⟨fun x hx => ?_, fun x hx => h.calls x (.inl (hruns x hx)), fun _ => hevs.idle, h.snap,
    fun x hx => ?_, fun x c hx hn => ?_, h.fresh, h.replay, ?_, fun x a c hx => ?_, h.sites⟩
  · by_cases e : x = t
    · refine h.bound x ?_
      rw [e, hs.cur_state hw]
      simp
    · refine h.bound x fun e' => hx ?_
      show ((s.mem.setTh t fun y => { y with state := st, eip := eip }).th x).state = .free
      rw [Mem.setTh_th, if_neg e, e']
  · rw [hview x (hruns x hx)]
    exact h.evs x (.inl (hruns x hx))
  · rw [hview x (hruns x hx)] at hn
    exact h.own x c (.inl (hruns x hx)) hn
  · have e : (s.block t st eip).pending mx = s.pending mx := by
      funext c
      unfold Sys.pending Sys.view
      show ((if s.up (s.mem.mutex (mx c)).owner then s.kid (s.mem.mutex (mx c)).owner else _).cond
        c).nwake = _
      split <;> rfl
    rw [e]
    exact h.fits
  · rw [hcur] at hx
    cases hx

/-- The master's thread goes on as a child. -/
theorem resume {a : After} {who : Who} (h : Conds N mx s p l b) (hs : Sched s p l)
    (hw : s.who = .thread t) (hpc : s.pc t = .done a) (hr : trun N t s.mem = .ok μ)
    (hlev : pc.level = some 0) (hwho : ∀ x, who ≠ .thread x) (hcl : pc.Calls mx (holds s.log t))
    (hl : ∀ c, l' (.cond c) = l (.cond c)) :
    Conds N mx { ({ s with mem := μ }).start t pc with who := who } p' l' b := by
  have hupt := hs.cur_up hw
  have hevs := h.evs t (.inr (Sys.cur_self hw))
  rw [Sys.view_of_down hupt, hpc] at hevs
  obtain ⟨-, rfl⟩ := trun_ok hr
  have hre := Relink.enqueue s.mem .run t
  have hcond : (s.mem.enqueue .run t).cond = s.mem.cond := Mem.enqueue_cond (by simp) _ _
  have hidle : ∀ {ν : Mem}, ν.cond = s.mem.cond → ν.evconds = s.mem.evconds → Idle ν := by
    intro ν h1 h2
    refine ⟨h2.trans hevs.idle.1, fun c => ?_⟩
    rw [h1]
    exact hevs.idle.2 c
  set s₁ : Sys := { ({ s with mem := { s.mem.enqueue .run t with
    runqlen := s.mem.runqlen + 1 } }).start t pc with who := who } with hs₁
  have hcur : ∀ x, s₁.cur x = false := fun x => by simp [hs₁, Sys.cur, hwho x]
  have hrunt : ∀ x, x ≠ t → s₁.runs x → s.up x = true := by
    rintro x hx (hu | hu)
    · simpa [hs₁, Sys.start, Function.update_of_ne hx] using hu
    · rw [hcur] at hu
      cases hu
  have hup : ∀ x, x ≠ t → s₁.up x = s.up x := fun x hx => by
    simp [hs₁, Sys.start, Function.update_of_ne hx]
  have hupt' : s₁.up t = true := by simp [hs₁, Sys.start]
  have hviewt : (s₁.view t).cond = s.mem.cond := by
    rw [Sys.view_of_up hupt']
    simp only [hs₁, Sys.start, Function.update_self]
    exact hcond
  have hview : ∀ x, x ≠ t → s.up x = true → s₁.view x = s.view x := by
    intro x hx hu
    rw [Sys.view_of_up hu, Sys.view_of_up ((hup x hx).trans hu)]
    simp [hs₁, Sys.start, Function.update_of_ne hx]
  have hpcx : ∀ x, x ≠ t → s₁.pc x = s.pc x := fun x hx => by
    simp [hs₁, Sys.start, Function.update_of_ne hx]
  have hpct : s₁.pc t = pc := by simp [hs₁, Sys.start]
  have hzero : ∀ c, (s.mem.cond c).nwake = 0 := fun c => (hevs.idle.2 c).1
  refine ⟨fun x hx => ?_, fun x hx => ?_, fun _ => hidle hcond hre.evconds, fun x hx => ?_,
    fun x hx => ?_, fun x c hx hn => ?_, fun x c hx hm => ?_, h.replay, ?_, fun x a c hx => ?_,
    fun x w hx => ?_⟩
  · exact h.bound x fun e => hx ((hre.state x).trans e)
  · by_cases e : x = t
    · rw [e, hpct]
      exact hcl
    · rw [hpcx x e]
      exact h.calls x (.inl (hrunt x e hx))
  · by_cases e : x = t
    · subst e
      simp only [hs₁, Sys.start, Function.update_self]
      exact hidle hcond hre.evconds
    · simp only [hs₁, Sys.start, Function.update_of_ne e] at hx ⊢
      exact h.snap x hx
  · by_cases e : x = t
    · subst e
      rw [hpct]
      refine .of_idle ⟨?_, fun c => ?_⟩ fun c br => ?_
      · rw [Sys.view_of_up hupt']
        simp only [hs₁, Sys.start, Function.update_self]
        exact hre.evconds.trans hevs.idle.1
      · rw [hviewt]
        exact hevs.idle.2 c
      · constructor <;>
        · rintro rfl
          cases hlev
    · have hu := hrunt x e hx
      rw [hview x e hu, hpcx x e]
      exact h.evs x (.inl hu)
  · by_cases e : x = t
    · rw [e, hviewt, hzero] at hn
      cases hn
    · have hu := hrunt x e hx
      rw [hview x e hu] at hn
      exact (hre.owner (mx c)).trans (h.own x c (.inl hu) hn)
  · have hm' : (s.mem.mutex (mx c)).owner = x := (hre.owner (mx c)).symm.trans hm
    by_cases e : x = t
    · subst e
      simp only [hs₁, Sys.start, Function.update_self]
    · simp only [hs₁, Sys.start, Function.update_of_ne e, hcond] at hx ⊢
      exact h.fresh x c hx hm'
  · have e : s₁.pending mx = s.pending mx := by
      funext c
      have ho : (s₁.mem.mutex (mx c)).owner = (s.mem.mutex (mx c)).owner := hre.owner (mx c)
      unfold Sys.pending
      rw [ho]
      by_cases e : (s.mem.mutex (mx c)).owner = t
      · rw [e, hviewt, Sys.view_of_down hupt]
      · by_cases hu : s.up (s.mem.mutex (mx c)).owner = true
        · rw [hview _ e hu]
        · have hu' : s.up (s.mem.mutex (mx c)).owner = false := by simpa using hu
          rw [Sys.view_of_down hu', Sys.view_of_down ((hup _ e).trans hu')]
          show ((s.mem.enqueue .run t).cond c).nwake = _
          rw [hcond]
    rw [e, show (fun c => l' (.cond c)) = fun c => l (.cond c) from funext hl]
    exact h.fits
  · rw [hcur] at hx
    cases hx
  · by_cases e : x = t
    · rw [e, hpct] at hx
      subst hx
      cases hlev
    · rw [hpcx x e] at hx
      exact h.sites x w hx

/-- The master's thread is through with its events. -/
theorem finish {a : After} (h : Conds N mx s p l b) (hs : Sched s p l) (hw : s.who = .thread t)
    (hpc : s.pc t = .done a) (hs' : Sched (s.finish N t a) p' l')
    (hl : ∀ c, l' (.cond c) = l (.cond c)) : Conds N mx (s.finish N t a) p' l' b := by
  have hcall := h.calls t (.inr (Sys.cur_self hw))
  rw [hpc] at hcall
  have hrun : ∀ (q : Pc) (who : Who), q.level = some 0 → (∀ x, who ≠ .thread x) →
      q.Calls mx (holds s.log t) → Sched (s.resume N t q who) p' l' →
      Conds N mx (s.resume N t q who) p' l' b := by
    intro q who h1 h2 h3 hs'
    unfold Sys.resume at hs' ⊢
    split
    · rename_i w he
      have hw' : w = .trun := by
        simp only [trun, bind_error, check_error, check_ok, exists_const, pure_error, and_false,
          or_false] at he
        rcases he with ⟨-, e⟩ | ⟨-, ⟨-, e⟩ | ⟨-, -, e⟩⟩
        · exact e.symm
        · exact e.symm
        · exact e.symm
      have := h.fail hs hw (w := w) (by simp [hw']) (by simp [hpc])
      refine ⟨this.bound, this.calls, this.idle, this.snap, this.evs, this.own, this.fresh,
        this.replay, ?_, fun x a c hx hxp => ?_, this.sites⟩
      · rw [show (fun c => l' (.cond c)) = fun c => l (.cond c) from funext hl]
        exact this.fits
      · obtain rfl : x = t := Sys.eq_of_cur hw hx
        simp [Sys.fail] at hxp
    · rename_i μ hr
      exact h.resume hs hw hpc hr h1 h2 h3 hl
  have hblock : ∀ (st : TState) (eip : Pc), Conds N mx (s.block t st eip) p' l' b := by
    intro st eip
    exact (h.block hs hw hpc).congr hl fun x => by simp [Sys.cur, Sys.block]
  cases a with
  | ret => exact hrun _ _ rfl (by simp) trivial hs'
  | user => exact hrun _ _ rfl (by simp) trivial hs'
  | test c br => exact hrun _ _ rfl (by simp) hcall hs'
  | lock | wait | join | exit => exact hblock _ _

end Conds

theorem Mem.unlink_cond {q : Queue} (hq : ∀ c, q ≠ .cond c) (μ : Mem) (t : Tid) :
    (μ.unlink q t).cond = μ.cond := by
  funext c
  simp [Mem.unlink, Mem.setHead_cond, Mem.setQnext, hq c]

theorem Mem.resetTail_cond {q : Queue} (hq : ∀ c, q ≠ .cond c) (μ : Mem) :
    (μ.resetTail q).cond = μ.cond := by
  funext c
  unfold Mem.resetTail
  split <;> simp [Mem.setTail_cond, hq c]

namespace Conds

variable {N : ℕ} {mx : CondId → MutexId} {s s' : Sys} {p p' : Tid → Option Queue}
  {l l' : Queue → List Tid} {b : Board} {t : Tid} {μ : Mem} {pc : Pc} {notes : List Note}

/-- The scheduler resumes a ready thread. -/
theorem schedStep (h : Conds N mx s p l b) (hs : Sched s p l) (hw : s.who = .sched)
    (hl : ∀ c, l' (.cond c) = l (.cond c)) : Conds N mx s.schedStep p' l' b := by
  have hcur : ∀ x, s.cur x = false := fun x => by simp [Sys.cur, hw]
  have hidle := h.idle hcur
  have hlc : (fun c => l' (.cond c)) = fun c => l (.cond c) := funext hl
  unfold Sys.schedStep
  split
  · have hruns : ∀ x, Sys.runs { s with who := .collect } x → s.up x = true := by
      rintro x (hx | hx)
      · exact hx
      · simp [Sys.cur] at hx
    refine ⟨h.bound, fun x hx => h.calls x (.inl (hruns x hx)), fun _ => hidle, h.snap,
      fun x hx => h.evs x (.inl (hruns x hx)), fun x c hx => h.own x c (.inl (hruns x hx)),
      h.fresh, h.replay, ?_, fun x a c hx => ?_, h.sites⟩
    · rw [hlc]
      exact h.fits
    · simp [Sys.cur] at hx
  · rename_i t ht
    have hp : p t = some .ready := hs.queued.place_of_head (q := .ready) ht
    have hsp := hs.spots.spot t
    rw [hp, hcur] at hsp
    obtain ⟨hupt, hst, hwk⟩ := hsp.of_ready
    have hr := (Relink.unlink s.mem .ready t).trans (Relink.resetTail _ .ready)
    have hcond : ((s.mem.unlink .ready t).resetTail .ready).cond = s.mem.cond := by
      rw [Mem.resetTail_cond (by simp), Mem.unlink_cond (by simp)]
    set s₁ : Sys := { s with
      mem := (s.mem.unlink .ready t).resetTail .ready
      pc := Function.update s.pc t (s.mem.th t).eip
      who := .thread t } with hs₁
    have hne : ∀ x, s.up x = true → x ≠ t := by
      rintro x hx rfl
      rw [hupt] at hx
      cases hx
    have hruns : ∀ x, s₁.runs x → x = t ∨ s.up x = true := by
      rintro x (hx | hx)
      · exact .inr hx
      · exact .inl (Sys.eq_of_cur (s := s₁) rfl hx)
    have hpct : s₁.pc t = (s.mem.th t).eip := Function.update_self _ _ _
    have hpcx : ∀ x, s.up x = true → s₁.pc x = s.pc x :=
      fun x hx => Function.update_of_ne (hne x hx) _ _
    have hview : ∀ x, s.up x = true → s₁.view x = s.view x := fun x hx =>
      (Sys.view_of_up (s := s₁) hx).trans (Sys.view_of_up hx).symm
    have hviewt : s₁.view t = (s.mem.unlink .ready t).resetTail .ready :=
      Sys.view_of_down (s := s₁) hupt
    refine ⟨fun x hx => ?_, fun x hx => ?_, fun hx => ?_, h.snap, fun x hx => ?_,
      fun x c hx hn => ?_, fun x c hx hm => ?_, h.replay, ?_, fun x a c hx hxp => ?_,
      fun x w hx => ?_⟩
    · exact h.bound x fun e => hx ((hr.state x).trans e)
    · rcases hruns x hx with rfl | hx
      · rw [hpct]
        generalize (s.mem.th x).eip = eip at hwk
        cases eip <;> trivial
      · rw [hpcx x hx]
        exact h.calls x (.inl hx)
    · have := hx t
      rw [Sys.cur_self rfl] at this
      cases this
    · rcases hruns x hx with rfl | hx
      · rw [hpct, hviewt]
        refine .of_idle ⟨hr.evconds.trans hidle.1, fun c => ?_⟩ fun c br => ?_
        · rw [hcond]
          exact hidle.2 c
        · constructor <;>
          · intro e
            rw [e] at hwk
            exact hwk
      · rw [hpcx x hx, hview x hx]
        exact h.evs x (.inl hx)
    · rcases hruns x hx with rfl | hx
      · rw [hviewt, hcond, (hidle.2 c).1] at hn
        cases hn
      · rw [hview x hx] at hn
        exact (hr.owner (mx c)).trans (h.own x c (.inl hx) hn)
    · show _ = (((s.mem.unlink .ready t).resetTail .ready).cond c).qhead
      rw [hcond]
      exact h.fresh x c hx ((hr.owner (mx c)).symm.trans hm)
    · have e : s₁.pending mx = s.pending mx := by
        funext c
        have ho : (s₁.mem.mutex (mx c)).owner = (s.mem.mutex (mx c)).owner := hr.owner (mx c)
        unfold Sys.pending
        rw [ho]
        by_cases hu : s.up (s.mem.mutex (mx c)).owner = true
        · rw [hview _ hu]
        · have hu' : s.up (s.mem.mutex (mx c)).owner = false := by simpa using hu
          rw [Sys.view_of_down hu', Sys.view_of_down (s := s₁) hu']
          show (((s.mem.unlink .ready t).resetTail .ready).cond c).nwake = _
          rw [hcond]
      rw [e, hlc]
      exact h.fits
    · obtain rfl : x = t := Sys.eq_of_cur (s := s₁) rfl hx
      rw [hpct] at hxp
      rw [hxp] at hwk
      exact hwk.elim
    · by_cases e : x = t
      · rw [e, hpct] at hx
        rw [hx] at hwk
        exact hwk.elim
      · exact h.sites x w ((Function.update_of_ne e _ _).symm.trans hx)

/-- The scheduler collects a child. -/
theorem collect {ts : List Tid} {d : Mem} (h : Conds N mx s p l b) (hv : Views N s)
    (hw : s.who = .collect) (hc : Collects s s' p l t ts d pc) :
    Conds N mx s' (Function.update p t none) (Function.update l .run ts) b := by
  have hcur : ∀ x, s.cur x = false := fun x => by simp [Sys.cur, hw]
  have hidle := h.idle hcur
  have hk := hv.kid t hc.up
  have hsnap := h.snap t hc.up
  have hr := (Relink.unlink s.mem .run t).trans (Relink.resetTail _ .run)
  have hdcond : d.cond = s.mem.cond := by
    rw [hc.before]
    show ((s.mem.unlink .run t).resetTail .run).cond = s.mem.cond
    rw [Mem.resetTail_cond (by simp), Mem.unlink_cond (by simp)]
  have hdev : d.evconds = none := by
    rw [hc.before]
    exact hr.evconds.trans hidle.1
  -- the child's events become the master's
  have hmc : ∀ c, (Mem.merge (s.snap t) d (s.kid t)).cond c =
      { s.mem.cond c with
        nwake := ((s.kid t).cond c).nwake, evnext := ((s.kid t).cond c).evnext } := by
    intro c
    rw [hk.drift.merge_cond, hdcond, (hsnap.2 c).1, (hsnap.2 c).2, (hidle.2 c).1, (hidle.2 c).2]
    rw [merge_of_eq, merge_of_eq]
  have hme : (Mem.merge (s.snap t) d (s.kid t)).evconds = (s.kid t).evconds := by
    show merge (s.snap t).evconds d.evconds (s.kid t).evconds = _
    rw [hsnap.1, hdev]
    exact merge_of_eq _ _
  have hmo : ∀ m, ((Mem.merge (s.snap t) d (s.kid t)).mutex m).owner = (s.mem.mutex m).owner := by
    intro m
    rw [hk.drift.merge_mutex, hc.mutex]
  have hkeep : pc = s.pc t ∨ ∃ a, pc = .events a ∧ (∀ c br, a = .test c br → s.pc t = .test c br) ∧
      (s.pc t = .user ∨ ∃ c br, s.pc t = .test c br) := by
    rcases hc.next with e | ⟨e, h0⟩
    · exact .inl e
    · refine .inr ⟨_, e, ?_⟩
      have hlev := hk.level
      rw [h0] at hlev
      generalize s.pc t = q at hlev ⊢
      cases q with
      | user => exact ⟨by simp [Sys.preempted], .inl rfl⟩
      | test c br => exact ⟨by simp [Sys.preempted], .inr ⟨c, br, rfl⟩⟩
      | _ => simp [Pc.level] at hlev
  have hruns0 : s.runs t := .inl hc.up
  have hevs := h.evs t hruns0
  rw [Sys.view_of_up hc.up] at hevs
  have hself : s'.pc t = pc := by
    rw [hc.after]
    exact Function.update_self _ _ _
  have hother : ∀ x, x ≠ t → s'.pc x = s.pc x ∧ s'.up x = s.up x := by
    intro x hx
    rw [hc.after]
    exact ⟨Function.update_of_ne hx _ _, Function.update_of_ne hx _ _⟩
  have hupt : s'.up t = false := by
    rw [hc.after]
    exact Function.update_self _ _ _
  have hw' : s'.who = .thread t := by rw [hc.after]
  have hmem : s'.mem = { Mem.merge (s.snap t) d (s.kid t) with tlock := 2 } := by rw [hc.after]
  have hkid : s'.kid = s.kid := by rw [hc.after]
  have hsnap' : s'.snap = s.snap := by rw [hc.after]
  have hlog : s'.log = s.log := by rw [hc.after]
  have hruns : ∀ x, s'.runs x → x = t ∨ x ≠ t ∧ s.up x = true := by
    intro x hx
    by_cases e : x = t
    · exact .inl e
    · rcases hx with hx | hx
      · exact .inr ⟨e, (hother x e).2 ▸ hx⟩
      · exact .inl (Sys.eq_of_cur hw' hx)
  have hview : ∀ x, x ≠ t → s.up x = true → s'.view x = s.view x := by
    intro x hx hu
    rw [Sys.view_of_up hu, Sys.view_of_up ((hother x hx).2.trans hu), hkid]
  have hviewt : s'.view t = { Mem.merge (s.snap t) d (s.kid t) with tlock := 2 } :=
    (Sys.view_of_down hupt).trans hmem
  have hcall := h.calls t hruns0
  refine ⟨fun x hx => ?_, fun x hx => ?_, fun hx => ?_, fun x hx => ?_, fun x hx => ?_,
    fun x c hx hn => ?_, fun x c hx hm => ?_, ?_, ?_, fun x a c hx hxp hp => ?_,
    fun x w hx => ?_⟩
  · rw [hmem] at hx
    refine h.bound x fun e => hx ?_
    have hq := hc.quiet
    have hdth : d.th = ((s.mem.unlink .run t).resetTail .run).th := by rw [hc.before]
    have hst : (d.th x).state = .free := by rw [hdth, hr.state, e]
    exact (hq.state_eq (by rw [hst]; simp)).trans hst
  · rcases hruns x hx with rfl | ⟨e, hx⟩
    · rw [hself, hlog]
      rcases hkeep with e | ⟨a, rfl, ha, -⟩
      · rw [e]
        exact hcall
      · cases a with
        | test c br =>
          rw [ha c br rfl] at hcall
          exact hcall
        | _ => trivial
    · rw [(hother x e).1, hlog]
      exact h.calls x (.inl hx)
  · have := hx t
    rw [Sys.cur_self hw'] at this
    cases this
  · have e : x ≠ t := by
      rintro rfl
      rw [hupt] at hx
      cases hx
    rw [hsnap']
    exact h.snap x ((hother x e).2 ▸ hx)
  · rcases hruns x hx with rfl | ⟨e, hx⟩
    · rw [hself, hviewt]
      have hevs' : Evs (s.kid x) pc := by
        rcases hkeep with e | ⟨a, rfl, -, e | ⟨c, br, e⟩⟩
        · rw [e]
          exact hevs
        · rw [e] at hevs
          exact hevs
        · rw [e] at hevs
          exact hevs
      refine hevs'.congr (fun c => ?_) (fun c => ?_) hme
      · show ((Mem.merge (s.snap x) d (s.kid x)).cond c).nwake = _
        rw [hmc]
      · show ((Mem.merge (s.snap x) d (s.kid x)).cond c).evnext = _
        rw [hmc]
    · rw [(hother x e).1, hview x e hx]
      exact h.evs x (.inl hx)
  · rw [hmem]
    show ((Mem.merge (s.snap t) d (s.kid t)).mutex (mx c)).owner = x
    rw [hmo]
    rcases hruns x hx with rfl | ⟨e, hx⟩
    · refine h.own x c hruns0 ?_
      rw [Sys.view_of_up hc.up]
      rw [hviewt] at hn
      have hn' : 0 < ((Mem.merge (s.snap x) d (s.kid x)).cond c).nwake := hn
      rwa [hmc] at hn'
    · rw [hview x e hx] at hn
      exact h.own x c (.inl hx) hn
  · have e : x ≠ t := by
      rintro rfl
      rw [hupt] at hx
      cases hx
    have hm' : (s.mem.mutex (mx c)).owner = x := by
      rw [hmem] at hm
      exact (hmo (mx c)).symm.trans hm
    rw [hsnap', hmem]
    show _ = ((Mem.merge (s.snap t) d (s.kid t)).cond c).qhead
    rw [hmc]
    exact h.fresh x c ((hother x e).2 ▸ hx) hm'
  · rw [hlog]
    exact h.replay
  · have e : s'.pending mx = s.pending mx := by
      funext c
      have ho : (s'.mem.mutex (mx c)).owner = (s.mem.mutex (mx c)).owner := by
        rw [hmem]
        exact hmo (mx c)
      unfold Sys.pending
      rw [ho]
      by_cases e : (s.mem.mutex (mx c)).owner = t
      · rw [e, hviewt, Sys.view_of_up hc.up]
        show ((Mem.merge (s.snap t) d (s.kid t)).cond c).nwake = _
        rw [hmc]
      · by_cases hu : s.up (s.mem.mutex (mx c)).owner = true
        · rw [hview _ e hu]
        · -- nothing is pending for the mutex of a blocked thread
          have hu' : s.up (s.mem.mutex (mx c)).owner = false := by simpa using hu
          rw [Sys.view_of_down hu', Sys.view_of_down ((hother _ e).2.trans hu'), hmem,
            (hidle.2 c).1]
          show ((Mem.merge (s.snap t) d (s.kid t)).cond c).nwake = 0
          rw [hmc]
          by_contra hne
          refine e (h.own t c hruns0 ?_)
          rw [Sys.view_of_up hc.up]
          exact Nat.pos_of_ne_zero hne
    have hls : (fun c => Function.update l .run ts (.cond c)) = fun c => l (.cond c) :=
      funext fun c => Function.update_of_ne (by simp) _ _
    rw [e, hls]
    exact h.fits
  · obtain rfl : x = t := Sys.eq_of_cur hw' hx
    rw [Function.update_self] at hp
    cases hp
  · by_cases e : x = t
    · subst e
      rw [hself] at hx
      rcases hkeep with e | ⟨a, rfl, -⟩
      · exact h.sites x w (e ▸ hx)
      · cases hx
    · exact h.sites x w ((hother x e).1 ▸ hx)

end Conds

namespace Conds

variable {N : ℕ} {mx : CondId → MutexId} {s s' : Sys} {p p' : Tid → Option Queue}
  {l l' : Queue → List Tid} {b : Board} {t : Tid} {k : Mem} {pc : Pc} {notes : List Note}

/-- A child moves on, and may count a wakeup in its own memory. -/
theorem kid (h : Conds N mx s p l b) (hs : Sched s p l) (hv : Views N s) (hu : s.up t = true)
    (hc : s.cur t = false) (hr : Rings N t (s.pc t) (s.kid t) k notes) (hev : Evs k pc)
    (hcl : pc.Calls mx (holds (s.log ++ notes) t))
    (hh : ∀ x, x ≠ t → holds (s.log ++ notes) x = holds s.log x)
    (hsite : ∀ w, pc = .failed w → w ≠ .condwakeups) :
    ∃ b', Conds N mx { s with
      kid := Function.update s.kid t k, pc := Function.update s.pc t pc,
      log := s.log ++ notes } p l b' := by
  have hk := hv.kid t hu
  have hcall := h.calls t (.inl hu)
  set s₁ : Sys := { s with
    kid := Function.update s.kid t k, pc := Function.update s.pc t pc,
    log := s.log ++ notes } with hs₁
  have hviewt : s₁.view t = k := by
    rw [Sys.view_of_up (s := s₁) hu]
    exact Function.update_self _ _ _
  have hview : ∀ x, x ≠ t → s₁.view x = s.view x := by
    intro x hx
    unfold Sys.view
    show (if s.up x then Function.update s.kid t k x else s.mem) = _
    rw [Function.update_of_ne hx]
  have hpct : s₁.pc t = pc := Function.update_self _ _ _
  have hpcx : ∀ x, x ≠ t → s₁.pc x = s.pc x := fun x hx => Function.update_of_ne hx _ _
  have hcurx : ∀ x, s₁.cur x = true → x ≠ t := by
    rintro x hx rfl
    have hx' : s.cur x = true := hx
    rw [hc] at hx'
    cases hx'
  -- what is pending, and for whom
  have hpend : ∀ c, s₁.pending mx c =
      if (s.mem.mutex (mx c)).owner = t then (k.cond c).nwake else s.pending mx c := by
    intro c
    unfold Sys.pending
    show ((s₁.view (s.mem.mutex (mx c)).owner).cond c).nwake = _
    split
    · rename_i e
      rw [e, hviewt]
    · rename_i e
      rw [hview _ e]
  have hpendt : ∀ c, (s.mem.mutex (mx c)).owner = t →
      s.pending mx c = ((s.kid t).cond c).nwake := by
    intro c ho
    rw [Sys.pending, ho, Sys.view_of_up hu]
  have hsame : (∀ c, (k.cond c).nwake = ((s.kid t).cond c).nwake) →
      s₁.pending mx = s.pending mx := by
    intro hn
    funext c
    rw [hpend]
    split
    · rename_i e
      rw [hpendt c e, hn]
    · rfl
  have hown0 : ∀ c, 0 < ((s.kid t).cond c).nwake → (s.mem.mutex (mx c)).owner = t := by
    intro c hn
    refine h.own t c (.inl hu) ?_
    rwa [Sys.view_of_up hu]
  have build : ∀ b', b.notes notes = some b' → b'.Fits (s₁.pending mx) (fun c => l (.cond c)) →
      (∀ c, 0 < (k.cond c).nwake → (s.mem.mutex (mx c)).owner = t) →
      (∀ x a c, s.cur x = true → s.pc x = .events a → p x = some (.cond c) → x ∉ b'.due c) →
      Conds N mx s₁ p l b' := by
    intro b' h1 h2 h3 h4
    refine ⟨h.bound, fun x hx => ?_, h.idle, h.snap, fun x hx => ?_, fun x c hx hn => ?_, h.fresh,
      (Board.replay_append h.replay).trans h1, h2, fun x a c hx hpc hp => ?_, fun x w hx => ?_⟩
    · by_cases e : x = t
      · subst e
        rw [hpct]
        exact hcl
      · rw [hpcx x e]
        show Pc.Calls mx (holds (s.log ++ notes) x) (s.pc x)
        rw [hh x e]
        exact h.calls x hx
    · by_cases e : x = t
      · subst e
        rw [hpct, hviewt]
        exact hev
      · rw [hpcx x e, hview x e]
        exact h.evs x hx
    · by_cases e : x = t
      · subst e
        rw [hviewt] at hn
        exact h3 c hn
      · rw [hview x e] at hn
        exact h.own x c hx hn
    · have e := hcurx x hx
      rw [hpcx x e] at hpc
      exact ⟨(h.tail x a c hx hpc hp).1, h4 x a c hx hpc hp⟩
    · by_cases e : x = t
      · subst e
        rw [hpct] at hx
        exact hsite w hx
      · rw [hpcx x e] at hx
        exact h.sites x w hx
  cases hr with
  | none hn hb =>
    refine ⟨b, build b (hb b) ?_ (fun c hp => hown0 c (hn c ▸ hp)) fun x a c h1 h2 h3 =>
      (h.tail x a c h1 h2 h3).2⟩
    rw [hsame hn]
    exact h.fits
  | idle c br hpc hq hn hno =>
    rw [hpc] at hcall
    have hoc := owner_of_held hv hcall
    have hnil : l (.cond c) = [] := by
      refine (hs.queued.head_none_iff (.cond c)).1 ?_
      show (s.mem.cond c).qhead = none
      rw [← h.fresh t c hu hoc, ← hq, hk.drift.cond c]
    refine ⟨b, build b ?_ ?_ (fun c hp => hown0 c (hn c ▸ hp)) fun x a c h1 h2 h3 =>
      (h.tail x a c h1 h2 h3).2⟩
    · rw [hno]
      simp only [Board.notes, h.fits.ring_nil hnil br, Option.bind_some]
    · rw [hsame hn]
      exact h.fits
  | ring c br hpc hn hno =>
    rw [hpc] at hcall
    have hoc := owner_of_held hv hcall
    obtain ⟨b', e1, e2, e3⟩ := h.fits.ring (t := t) (h.length_le hs c) br
    refine ⟨b', build b' ?_ ?_ (fun c' hp => ?_) fun x a c' h1 h2 h3 => ?_⟩
    · rw [hno]
      simp only [Board.notes, e1, Option.bind_some]
    · convert e2 using 1
      funext c'
      rw [hpend]
      by_cases e : c' = c
      · subst e
        rw [Function.update_self, if_pos hoc, hn, if_pos rfl, hpendt c' hoc]
      · rw [Function.update_of_ne e]
        split
        · rename_i ho
          rw [hn, if_neg e, hpendt c' ho]
        · rfl
    · by_cases e : c' = c
      · rw [e, hoc]
      · rw [hn, if_neg e] at hp
        exact hown0 c' hp
    · obtain ⟨h4, h5⟩ := h.tail x a c' h1 h2 h3
      have hne : c' ≠ c := by
        rintro rfl
        exact hcurx x h1 (h4.symm.trans hoc)
      rw [e3 c' hne]
      exact h5

end Conds

/-! ## Every state reached -/

/-- A program waits on a condition variable with its mutex held, and signals while holding it. -/
def Disciplined (mx : CondId → MutexId) (s : Sys) : Act → Prop
  | .kid t call => s.pc t = .user →
    match call with
    | .condWait c m => m = mx c ∧ holds s.log t m = true
    | .condSignal c | .condBroadcast c => holds s.log t (mx c) = true
    | _ => True
  | .master => True

/-- A thread starts to wait on a condition variable only if it has not more wakeups pending for it
than threads wait there. -/
def WaitsClean (s : Sys) (a : Act) : Prop :=
  a = .master → ∀ t c m, s.who = .thread t → s.pc t = .waitSync c m →
    ∀ ts, Chain s.mem.qnext (s.mem.cond c).qhead ts → (s.mem.cond c).nwake ≤ ts.length

/-- The invariants of such a run. -/
structure Awake (N : ℕ) (mx : CondId → MutexId) (s : Sys) : Prop where
  views : Views N s
  conds : ∃ p l b, Sched s p l ∧ Conds N mx s p l b

namespace Awake

variable {N : ℕ} {mx : CondId → MutexId} {s s' : Sys} {t : Tid} {a : Act}

theorem init (hN : 0 < N) (owner : MutexId → Tid) : Awake N mx (Sys.init owner) := by
  refine ⟨.init N owner, _, _, ⟨fun _ => [], fun _ => []⟩, .init owner, ?_⟩
  have hidle : ∀ {μ : Mem}, μ.cond = (Sys.initMem owner).cond → μ.evconds = none → Idle μ := by
    intro μ h1 h2
    refine ⟨h2, fun c => ?_⟩
    rw [h1]
    exact ⟨rfl, rfl⟩
  have hview : ∀ x, ((Sys.init owner).view x).cond = (Sys.initMem owner).cond ∧
      ((Sys.init owner).view x).evconds = none := by
    intro x
    unfold Sys.view
    split <;> exact ⟨rfl, rfl⟩
  have hpc : ∀ x, (Sys.init owner).pc x = .user ∨ (Sys.init owner).pc x = .dead := by
    intro x
    by_cases e : x = 0
    · exact .inl (if_pos e)
    · exact .inr (if_neg e)
  refine ⟨fun x hx => ?_, fun x _ => ?_, fun _ => hidle rfl rfl, fun x _ => hidle rfl rfl,
    fun x _ => ?_, fun x c _ hn => ?_, fun _ _ _ _ => rfl, rfl, fun c => ?_, fun x a c hx => ?_,
    fun x w hx => ?_⟩
  · by_cases e : x = 0
    · rw [e]
      exact hN
    · simp [Sys.init, Sys.initMem, e] at hx
  · rcases hpc x with e | e <;> rw [e] <;> trivial
  · refine .of_idle (hidle (hview x).1 (hview x).2) fun c br => ?_
    rcases hpc x with e | e <;> rw [e] <;> simp
  · rw [(hview x).1] at hn
    cases hn
  · simp
  · simp [Sys.cur, Sys.init] at hx
  · rcases hpc x with e | e <;> rw [e] at hx <;> cases hx

/-- A child takes a step. -/
theorem kidStep {call : Call} (h : Awake N mx s) (hN : 0 < N) (hu : s.up t = true)
    (ha : Disciplined mx s (.kid t call)) (hs : s.kidStep N t call = some s') :
    Awake N mx s' := by
  obtain ⟨hv, p, l, b, hsch, hco⟩ := h
  refine ⟨(Good.kidStep ⟨⟨p, l, hsch⟩, hv⟩ hu hs).views, p, l, ?_⟩
  have hk := hv.kid t hu
  have hevs := hco.evs t (.inl hu)
  have hcall := hco.calls t (.inl hu)
  rw [Sys.view_of_up hu] at hevs
  have hc : s.cur t = false := by
    by_contra hc
    rw [hsch.cur_up (Sys.who_of_cur (by simpa using hc))] at hu
    cases hu
  unfold Sys.kidStep at hs
  split at hs
  · rename_i hus
    rw [hus] at hk hevs
    split at hs
    · rename_i w he
      obtain ⟨x, hx⟩ := hk.enter_ok call
      rw [he] at hx
      cases hx
    · rename_i μ pc he
      cases hs
      obtain ⟨h1, h2, h3⟩ := enter_conds (ha hus) he
      obtain ⟨b', hb⟩ := hco.kid (k := μ) hsch hv hu hc
        (.silent fun c => by rw [h1]) (h3.1 hevs)
        (by rw [List.append_nil]; exact h3.2.1) (fun x _ => by rw [List.append_nil]) h3.2.2
      rw [List.append_nil] at hb
      exact ⟨b', hsch.kid hu _ _ _, hb⟩
  · rename_i hus
    split at hs
    · cases hs
    · rename_i htr
      have hlev : (s.pc t).level ≠ none := by
        rw [hk.level]
        simp
      split at hs
      · rename_i w he
        cases hs
        have hsites := exec_sites he
        have hne : ∀ c br, s.pc t ≠ .chain c br ∧ s.pc t ≠ .count c br := by
          intro c br
          constructor <;>
          · intro e
            rw [e] at hsites
            cases hsites
        have hw : w ≠ .condwakeups := by
          rintro rfl
          generalize s.pc t = q at hsites hlev
          cases q <;> simp [Pc.sites, Pc.level] at hsites hlev
        obtain ⟨b', hb⟩ := hco.kid (k := s.kid t) hsch hv hu hc (.silent fun _ => rfl)
          (hevs.fail hne (w := w)) trivial (fun x _ => by rw [List.append_nil])
          fun w' hw' => by
            cases hw'
            exact hw
        rw [List.append_nil, Function.update_eq_self] at hb
        exact ⟨b', hsch.kid hu s.kid (.failed w) s.log, hb⟩
      · rename_i μ pc notes he
        cases hs
        have touch := (exec_touch hk.owns he).1
        obtain ⟨hr, -, hev, hcl, hleads⟩ := exec_rings mx s.log hN
          (fun c m e => by rw [e] at hlev; exact hlev rfl)
          (fun a e => by rw [e] at hlev; exact absurd rfl hlev) he
        obtain ⟨b', hb⟩ := hco.kid hsch hv hu hc hr (hev hevs) (hcl hcall)
          (fun x hx => funext fun m => touch.holds_of_ne hx s.log m)
          fun w hw => hco.sites t w (hleads.2 w hw)
        exact ⟨b', hsch.kid hu _ _ _, hb⟩

end Awake

namespace Awake

variable {N : ℕ} {mx : CondId → MutexId} {s s' : Sys} {t : Tid} {a : Act}

/-- The master takes a step for a thread. -/
theorem masterStep (h : Awake N mx s) (hN : 0 < N) (hw : s.who = .thread t)
    (hcl : WaitsClean s .master) : Awake N mx (s.masterStep N t) := by
  obtain ⟨hv, p, l, b, hsch, hco⟩ := h
  refine ⟨(Good.masterStep ⟨⟨p, l, hsch⟩, hv⟩ hw).views, ?_⟩
  unfold Sys.masterStep
  split
  · rename_i a hpc
    obtain ⟨p', l', hs, hkept⟩ := hsch.finish (N := N) hw hpc
    exact ⟨p', l', b, hs, hco.finish hsch hw hpc hs hkept.2⟩
  · split
    · rename_i w he
      have hsites := exec_sites he
      refine ⟨p, l, b, hsch.fail hw w, hco.fail hsch hw (hco.error hsch hv hw he) fun c br => ?_⟩
      constructor <;>
      · intro e
        rw [e] at hsites
        cases hsites
    · rename_i μ pc notes he
      refine hco.exec hsch hv hN hw (fun c m hpc => ?_) he
      exact hcl rfl t c m hw hpc _ (hsch.queued.holds (.cond c)).chain

theorem step (h : Awake N mx s) (hN : 0 < N) (ha : Disciplined mx s a) (hcl : WaitsClean s a)
    (hs : s.step N a = some s') : Awake N mx s' := by
  unfold Sys.step at hs
  split at hs
  · split at hs
    · rename_i t call hu
      exact h.kidStep hN hu ha hs
    · cases hs
  · split at hs
    · rename_i hw
      cases hs
      obtain ⟨hv, p, l, b, hsch, hco⟩ := h
      obtain ⟨p', l', hs, hkept⟩ := hsch.schedStep hw
      exact ⟨hv.schedStep hsch hw, p', l', b, hs, hco.schedStep hsch hw hkept.2⟩
    · rename_i hw
      obtain ⟨hv, p, l, b, hsch, hco⟩ := h
      obtain ⟨t, ts, d, pc, hc⟩ := collectStep_ok hsch hv hw hs
      exact ⟨hc.views hv, _, _, b, hc.sched, hco.collect hv hw hc⟩
    · rename_i t hw
      cases hs
      exact h.masterStep hN hw hcl

theorem run {owner : MutexId → Tid} (hN : 0 < N)
    (h : Sys.Run N (fun s a => Disciplined mx s a ∧ WaitsClean s a) owner s) : Awake N mx s := by
  induction h with
  | init => exact init hN owner
  | step _ ha hs ih => exact ih.step hN ha.1 ha.2 hs

end Awake

/-- Thread 0 waits on condition variable 0; thread 1 locks the mutex and is about to call. -/
def waiting : List Act :=
  [.kid 0 (.create false)] ++ List.replicate 13 .master ++
  [.kid 0 (.mutexLock 0)] ++ List.replicate 5 (.kid 0 .exit) ++ [.kid 0 (.condWait 0 0)] ++
  List.replicate 8 .master ++
  [.kid 1 (.mutexLock 0), .kid 1 .exit] ++ List.replicate 11 .master

end Determinator.Dsthread
