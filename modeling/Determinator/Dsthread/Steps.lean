import Determinator.Dsthread.Children

/-!
# Every step keeps the scheduler's invariant

`Sched s p l` joins the two parts of the invariant, `Queued` and `Spots`. One theorem for each
kind of step of the system: code run by a child, code run by the master for a thread, blocking and
resuming a thread, and the two steps of the scheduler.
-/

set_option linter.unusedSectionVars false

namespace Determinator.Dsthread

/-- The queues are well formed and agree with the threads. -/
structure Sched (s : Sys) (p : Tid → Option Queue) (l : Queue → List Tid) : Prop where
  queued : Queued s.mem p l
  spots : Spots s p
  len : s.mem.runqlen = (l .run).length

/-- The wait queues are the same. -/
def Kept (l l' : Queue → List Tid) : Prop :=
  (∀ m, l' (.mutex m) = l (.mutex m)) ∧ ∀ c, l' (.cond c) = l (.cond c)

theorem Kept.refl (l : Queue → List Tid) : Kept l l := ⟨fun _ => rfl, fun _ => rfl⟩

theorem Kept.ready (l : Queue → List Tid) (ts : List Tid) :
    Kept l (Function.update l .ready ts) :=
  ⟨fun _ => Function.update_of_ne (by simp) _ _, fun _ => Function.update_of_ne (by simp) _ _⟩

theorem Kept.run (l : Queue → List Tid) (ts : List Tid) : Kept l (Function.update l .run ts) :=
  ⟨fun _ => Function.update_of_ne (by simp) _ _, fun _ => Function.update_of_ne (by simp) _ _⟩

theorem Quiet.setTh {μ : Mem} {t : Tid} {f : Pthread → Pthread}
    (he : (f (μ.th t)).eip = (μ.th t).eip) (hj : (f (μ.th t)).joiner = (μ.th t).joiner)
    (hs : (f (μ.th t)).state = (μ.th t).state ∨
      (μ.th t).state = .exit ∧ (f (μ.th t)).state = .free) : Quiet μ (μ.setTh t f) := by
  refine ⟨fun x => ?_, fun x => ?_, fun x => ?_⟩
  all_goals
    rw [Mem.setTh_th]
    split
    · rename_i e
      subst e
      assumption
    · first | rfl | exact .inl rfl

namespace Sched

variable {N : ℕ} {s : Sys} {p : Tid → Option Queue} {l : Queue → List Tid} {t : Tid} {μ : Mem}
  {pc : Pc} {notes : List Note}

theorem cur_fits (h : Sched s p l) (hw : s.who = .thread t) : (s.pc t).Fits (p t) :=
  (Sys.cur_self hw ▸ h.spots.spot t).of_cur.2.2

theorem cur_up (h : Sched s p l) (hw : s.who = .thread t) : s.up t = false :=
  (Sys.cur_self hw ▸ h.spots.spot t).of_cur.1

theorem cur_state (h : Sched s p l) (hw : s.who = .thread t) : (s.mem.th t).state = .run :=
  (Sys.cur_self hw ▸ h.spots.spot t).of_cur.2.1

theorem up_iff (h : Sched s p l) (t : Tid) : s.up t = true ↔ p t = some .run :=
  (h.spots.spot t).up_iff

/-- A thread that runs as a child is runnable. -/
theorem up_state (h : Sched s p l) (hu : s.up t = true) : (s.mem.th t).state = .run :=
  (h.spots.spot t).run_iff.2 (.inl hu)

/-- A blocked thread is not run by the master. -/
theorem cur_false (h : Sched s p l) (hs : (s.mem.th t).state ≠ .run) : s.cur t = false := by
  by_contra hc
  exact hs ((h.spots.spot t).run_iff.2 (.inr (.inr (by simpa using hc))))

/-- The master runs code that leaves the queues alone. -/
theorem stay (h : Sched s p l) (hw : s.who = .thread t) (hh : ∀ q, μ.head q = s.mem.head q)
    (ht : ∀ q, μ.tail q = s.mem.tail q) (hq : μ.qnext = s.mem.qnext) (hμ : Quiet s.mem μ)
    (hn : μ.runqlen = s.mem.runqlen) (pc : Pc) (hpc : pc.Fits (p t)) (hin : ∀ a, (s.pc t).In a → pc.In a) (notes : List Note) :
    Sched (s.ran t μ pc notes) p l := by
  refine ⟨h.queued.congr hh ht hq, ?_, hn.trans h.len⟩
  have := h.spots.advance hw hμ pc _ hpc hin (s.log ++ notes)
  rwa [Function.update_eq_self] at this

/-- The master only moves on in its code. -/
theorem move (h : Sched s p l) (hw : s.who = .thread t) (pc : Pc) (hpc : pc.Fits (p t))
    (hin : ∀ a, (s.pc t).In a → pc.In a) (notes : List Note) :
    Sched (s.ran t s.mem pc notes) p l :=
  h.stay hw (fun _ => rfl) (fun _ => rfl) rfl (.refl _) rfl pc hpc hin notes

/-- The master's thread fails. -/
theorem fail (h : Sched s p l) (hw : s.who = .thread t) (w : Site) : Sched (s.fail t w) p l := by
  refine ⟨h.queued, ?_, h.len⟩
  have := h.spots.advance hw (.refl _) (.failed w) (p t)
    (Sys.cur_self hw ▸ h.spots.spot t).not_run_of_cur (fun _ _ => trivial) s.log
  rwa [Function.update_eq_self] at this

/-- A child runs. -/
theorem kid (h : Sched s p l) (hu : s.up t = true) (kid : Tid → Mem) (pc : Pc)
    (log : List Note) :
    Sched { s with kid := kid, pc := Function.update s.pc t pc, log := log } p l := by
  have hcur : s.cur t = false := by
    by_contra hc
    rw [h.cur_up (Sys.who_of_cur (by simpa using hc))] at hu
    cases hu
  have hne : ∀ x, s.cur x = true → x ≠ t := by
    rintro x hx rfl
    rw [hcur] at hx
    cases hx
  refine ⟨h.queued, ⟨fun x => ?_, fun j x hl hj => ?_⟩, h.len⟩
  · by_cases hx : x = t
    · subst hx
      have hs := h.spots.spot x
      show Spot (s.mem.th x).eip (Function.update s.pc x pc x) (s.up x) (s.cur x) _ _
      rw [hu, hcur] at hs ⊢
      generalize p x = q, (s.mem.th x).state = st at hs ⊢
      cases hs
      exact .child
    · show Spot _ (Function.update s.pc t pc x) _ _ _ _
      rw [Function.update_of_ne hx]
      exact h.spots.spot x
  · rcases h.spots.joiner j x hl hj with (⟨hx, hi⟩ | hx) | ⟨hx, hi⟩
    · refine .inl (.inl ⟨hx, ?_⟩)
      show (Function.update s.pc t pc x).In _
      rwa [Function.update_of_ne (hne x hx)]
    · exact .inl (.inr hx)
    · refine .inr ⟨hx, ?_⟩
      show (Function.update s.pc t pc j).In _
      rwa [Function.update_of_ne (hne j hx)]

/-- A thread is made ready by the master. -/
theorem tready {u : Tid} (h : Sched s p l) (hr : tready u s.mem = .ok μ) (hp : p u = none)
    (he : (s.mem.th u).eip.Wakes) (hl : Live s.mem u)
    (hj : ∀ j, Live s.mem j → (s.mem.th j).joiner = some u → Exiting s j) :
    Sched { s with mem := μ } (Function.update p u (some .ready))
      (Function.update l .ready (l .ready ++ [u])) := by
  have hst : (s.mem.th u).state ≠ .run := (tready_ok hr).2.1
  have ha := tready_awakes hr
  refine ⟨tready_queued hr h.queued hp, ?_, ha.runqlen.trans (by simpa using h.len)⟩
  rw [← readied_singleton]
  refine h.spots.wake (fun v hv => ?_) fun x hx => ⟨ha.eip x, ha.joiner x, ?_⟩
  · obtain rfl := List.mem_singleton.1 hv
    refine ⟨h.cur_false hst, hst, ha.eip v ▸ he, ?_, fun w hw => ⟨hl, ha.joiner v ▸ hw⟩, hj⟩
    rw [ha.state, if_pos hv]
  · rw [ha.state, if_neg hx]

end Sched

/-! ## The code run by the master -/

theorem setMutex_head {μ : Mem} {m : MutexId} {f : Mutex → Mutex}
    (hf : (f (μ.mutex m)).qhead = (μ.mutex m).qhead) (q : Queue) :
    (μ.setMutex m f).head q = μ.head q := by
  cases q with
  | mutex m' =>
    simp only [Mem.head, Mem.setMutex_mutex]
    split
    · rename_i e
      rw [hf, e]
    · rfl
  | _ => rfl

theorem setMutex_tail {μ : Mem} {m : MutexId} {f : Mutex → Mutex}
    (hf : (f (μ.mutex m)).qtail = (μ.mutex m).qtail) (q : Queue) :
    (μ.setMutex m f).tail q = μ.tail q := by
  cases q with
  | mutex m' =>
    simp only [Mem.tail, Mem.setMutex_mutex]
    split
    · rename_i e
      rw [hf, e]
    · rfl
  | _ => rfl

theorem setCond_head {μ : Mem} {c : CondId} {f : Cond → Cond}
    (hf : (f (μ.cond c)).qhead = (μ.cond c).qhead) (q : Queue) :
    (μ.setCond c f).head q = μ.head q := by
  cases q with
  | cond c' =>
    simp only [Mem.head, Mem.setCond_cond]
    split
    · rename_i e
      rw [hf, e]
    · rfl
  | _ => rfl

theorem setCond_tail {μ : Mem} {c : CondId} {f : Cond → Cond}
    (hf : (f (μ.cond c)).qtail = (μ.cond c).qtail) (q : Queue) :
    (μ.setCond c f).tail q = μ.tail q := by
  cases q with
  | cond c' =>
    simp only [Mem.tail, Mem.setCond_cond]
    split
    · rename_i e
      rw [hf, e]
    · rfl
  | _ => rfl

theorem steal_ok {t : Tid} {m : MutexId} {μ μ' : Mem} (h : steal t m μ = .ok μ') :
    μ' = μ ∨ ((μ.mutex m).locked = false ∧ (μ.th (μ.mutex m).owner).state ≠ .run ∧
      (μ.mutex m).qhead = none ∧ (μ.mutex m).reqnext = none ∧
      μ' = μ.setMutex m fun x => { x with owner := t }) := by
  unfold steal at h
  split at h
  · rename_i hc
    simp only [bind_ok, check_ok, exists_const, pure_ok] at h
    exact .inr ⟨hc.1, hc.2, h.1, h.2.2.1, h.2.2.2.symm⟩
  · simp only [pure_ok] at h
    exact .inl h.symm

theorem tblock_ok {t : Tid} {μ : Mem} {a : After} {pc : Pc} (h : tblock t μ a = .ok pc) :
    μ.tlock = 2 ∧ (μ.th t).state = .run ∧ pc = .events a := by
  simp only [tblock, bind_ok, check_ok, exists_const, pure_ok] at h
  exact ⟨h.1, h.2.1, h.2.2.symm⟩

/-- What a successful turn of `mutexreqs` did. -/
theorem mutexreqs_ok {t : Tid} {mp : Link MutexId} {μ μ' : Mem} {r : Option (Link MutexId)}
    (h : mutexreqs t mp μ = .ok (μ', r)) :
    (μ.req t mp = none ∧ μ' = μ ∧ r = none) ∨
    ∃ m tn, μ.req t mp = some m ∧ (μ.mutex m).owner = t ∧ (μ.mutex m).qhead = some tn ∧
      (((μ.mutex m).locked = true ∧ μ' = μ ∧ r = some (.next m)) ∨
       ((μ.mutex m).locked = false ∧ r = some mp ∧
        transfer m tn (μ.setReq t mp (μ.mutex m).reqnext) = .ok μ')) := by
  simp only [mutexreqs, bind_ok, check_ok, exists_const] at h
  obtain ⟨-, h⟩ := h
  split at h
  · rename_i hr
    simp only [pure_ok, Prod.mk.injEq] at h
    exact .inl ⟨hr, h.1.symm, h.2.symm⟩
  · rename_i m hr
    simp only [bind_ok, check_ok, exists_const] at h
    obtain ⟨ho, h⟩ := h
    refine .inr ⟨m, ?_⟩
    split at h
    · cases h
    · rename_i tn hq
      refine ⟨tn, hr, ho, hq, ?_⟩
      split at h
      · rename_i hl
        simp only [pure_ok, Prod.mk.injEq] at h
        exact .inl ⟨hl, h.1.symm, h.2.symm⟩
      · rename_i hl
        simp only [bind_ok, pure_ok, Prod.mk.injEq] at h
        obtain ⟨μ₁, h1, rfl, rfl⟩ := h
        exact .inr ⟨by simpa using hl, rfl, h1⟩

namespace Sched

variable {N : ℕ} {s : Sys} {p : Tid → Option Queue} {l : Queue → List Tid} {t : Tid} {μ : Mem}
  {pc : Pc} {notes : List Note}

theorem place_none_of_free (h : Sched s p l) (hs : (s.mem.th t).state = .free) : p t = none := by
  have hsp := h.spots.spot t
  rw [hs] at hsp
  exact hsp.of_free

/-- `pthread_create` in the master. -/
theorem create {d : Bool} (h : Sched s p l) (hr : create N d s.mem = .ok μ) :
    ∃ u, (s.mem.th u).state = .free ∧ u ≠ 0 ∧ u < N ∧
      Sched { s with mem := μ } (Function.update p u (some .ready))
        (Function.update l .ready (l .ready ++ [u])) := by
  unfold Dsthread.create at hr
  split at hr
  · cases hr
  · rename_i u hu
    have hu' := List.find?_some hu
    simp only [decide_eq_true_eq] at hu'
    obtain ⟨hu0, hf⟩ := hu'
    refine ⟨u, hf, hu0, List.mem_range.1 (List.mem_of_find?_eq_some hu), ?_⟩
    have hp := h.place_none_of_free hf
    have hst : (s.mem.th u).state ≠ .run := by simp [hf]
    have ha := tready_awakes hr
    have hqn : (s.mem.th u).qnext = none := h.queued.off u hp
    refine ⟨tready_queued hr (h.queued.congr (by simp) (by simp) ?_) hp, ?_,
      ha.runqlen.trans (by simpa using h.len)⟩
    · exact Mem.setTh_qnext_of _ _ hqn.symm
    · rw [← readied_singleton]
      refine h.spots.wake (fun v hv => ?_) fun x hx => ?_
      · obtain rfl := List.mem_singleton.1 hv
        refine ⟨h.cur_false hst, hst, ?_, ?_, fun w hw => ?_, fun j hl hj => ?_⟩
        · rw [ha.eip, Mem.setTh_th, if_pos rfl]
          trivial
        · rw [ha.state, if_pos hv]
        · rw [ha.joiner, Mem.setTh_th, if_pos rfl] at hw
          cases hw
        · rcases h.spots.joiner j v hl hj with (⟨hc, -⟩ | ⟨-, -, hs, -⟩) | hx
          · rw [h.cur_false hst] at hc
            cases hc
          · rw [hf] at hs
            cases hs
          · exact hx
      · have hxu : x ≠ u := by simpa using hx
        rw [ha.eip, ha.joiner, ha.state, if_neg hx, Mem.setTh_th, if_neg hxu]
        exact ⟨rfl, rfl, rfl⟩

/-- `pthread_exit` in the master, once it is at `tevents`. -/
theorem exitSync (h : Sched s p l) (hw : s.who = .thread t) (hpc : s.pc t = .exitSync)
    (hr : wakeJoiner t s.mem = .ok μ) (notes : List Note) :
    ∃ p' l', Sched (s.ran t μ (.events .exit) notes) p' l' ∧ p' t = none ∧
      (∀ m, l' (.mutex m) = l (.mutex m)) ∧ ∀ c, l' (.cond c) = l (.cond c) := by
  have hfit : p t = none := by
    have := h.cur_fits hw
    rwa [hpc] at this
  have hm : Sched (s.ran t s.mem (.events .exit) notes) p l := by
    refine h.move hw (.events .exit) hfit (fun a ha => ?_) _
    rw [hpc] at ha
    exact ha.elim
  unfold wakeJoiner at hr
  split at hr
  · simp only [pure_ok] at hr
    subst hr
    exact ⟨p, l, hm, hfit, fun _ => rfl, fun _ => rfl⟩
  · rename_i j hj
    have hlive : Live s.mem t := by
      unfold Live
      rw [h.cur_state hw]
      exact ⟨by simp, by simp⟩
    have hex : Exiting (s.ran t s.mem (.events .exit) notes) t :=
      ⟨Sys.cur_self hw, by simp [Sys.ran, Pc.In]⟩
    have hjoin : s.cur j = false ∧ p j = none ∧ (s.mem.th j).state = .mutex ∧
        (s.mem.th j).eip = .joinFree t := by
      rcases h.spots.joiner t j hlive hj with (⟨hc, hi⟩ | hx) | ⟨-, hi⟩
      · have e : j = t := Sys.eq_of_cur hw hc
        rw [e, hpc] at hi
        exact hi.elim
      · exact hx
      · rw [hpc] at hi
        exact hi.elim
    obtain ⟨hc, hpj, hsj, hej⟩ := hjoin
    have hjt : j ≠ t := by
      rintro rfl
      rw [Sys.cur_self hw] at hc
      cases hc
    refine ⟨_, _, hm.tready (u := j) hr hpj ?_ ?_ ?_, ?_, fun _ => ?_, fun _ => ?_⟩
    · show (s.mem.th j).eip.Wakes
      rw [hej]
      trivial
    · show Live s.mem j
      unfold Live
      rw [hsj]
      exact ⟨by simp, by simp⟩
    · intro j' hl' hj'
      have e : j' = t := by
        rcases h.spots.joiner j' j hl' hj' with (⟨hc', -⟩ | ⟨-, -, -, he⟩) | ⟨hc', -⟩
        · rw [hc] at hc'
          cases hc'
        · rw [hej] at he
          injection he with e
          exact e.symm
        · have := Sys.who_of_cur hc'
          rw [hw] at this
          injection this with e
          exact e.symm
      rw [e]
      exact hex
    · rw [Function.update_of_ne (Ne.symm hjt)]
      exact hfit
    · rw [Function.update_of_ne (by simp)]
    · rw [Function.update_of_ne (by simp)]

/-- `pthread_join` in the master has to wait. -/
theorem joinSync {tj : Tid} (h : Sched s p l) (hw : s.who = .thread t)
    (hpc : s.pc t = .joinSync tj) (notes : List Note) :
    Sched (s.ran t (s.mem.setTh tj fun x => { x with joiner := some t }) (.events (.join tj)) notes)
      p l := by
  have hfit : p t = none := by
    have := h.cur_fits hw
    rwa [hpc] at this
  have hm : Sched (s.ran t s.mem (.events (.join tj)) notes) p l := by
    refine h.move hw (.events (.join tj)) hfit (fun a ha => ?_) _
    rw [hpc] at ha
    exact ha.elim
  have hst : ∀ x, ((s.mem.setTh tj fun x => { x with joiner := some t }).th x).state =
      (s.mem.th x).state := by
    intro x
    rw [Mem.setTh_th]
    split
    · rename_i e
      rw [e]
    · rfl
  have heip : ∀ x, ((s.mem.setTh tj fun x => { x with joiner := some t }).th x).eip =
      (s.mem.th x).eip := by
    intro x
    rw [Mem.setTh_th]
    split
    · rename_i e
      rw [e]
    · rfl
  refine ⟨hm.queued.congr (by simp [Sys.ran]) (by simp [Sys.ran]) (by simp [Sys.ran]),
    ⟨fun x => ?_, fun j x hl hj => ?_⟩, h.len⟩
  · have := hm.spots.spot x
    simp only [Sys.ran, hst, heip] at this ⊢
    exact this
  · have hl' : Live s.mem j := by
      unfold Live at hl ⊢
      simpa only [Sys.ran, hst] using hl
    by_cases e : j = tj
    · subst e
      simp only [Sys.ran, Mem.setTh_th, if_true, Option.some.injEq] at hj
      subst hj
      exact .inl (.inl ⟨Sys.cur_self hw, by simp [Sys.ran, Pc.In]⟩)
    · simp only [Sys.ran, Mem.setTh_th, if_neg e] at hj
      rcases hm.spots.joiner j x hl' hj with (hx | ⟨h1, h2, h3, h4⟩) | hx
      · exact .inl (.inl hx)
      · exact .inl (.inr ⟨h1, h2, (hst x).trans h3, (heip x).trans h4⟩)
      · exact .inr hx

/-- One turn of `condwakeups`. -/
theorem events {a : After} {c : CondId} {ts : List Tid} (h : Sched s p l)
    (hw : s.who = .thread t) (hpc : s.pc t = .events a)
    (hr : condwakeups c s.mem = .ok (μ, ts)) (notes : List Note) :
    ∃ rest, CondWakes c s.mem μ p l ts rest ∧
      Sched (s.ran t μ (.events a) notes) (readied p ts) (moved l (.cond c) ts rest) := by
  obtain ⟨rest, w⟩ := condwakeups_spec h.queued hr
  have hplace : ∀ x ∈ ts, p x = some (.cond c) := fun x hx =>
    (h.queued.mem x _).1 (w.split ▸ List.mem_append_left _ hx)
  have hne : ∀ x ∈ ts, (s.mem.th x).state ≠ .run := fun x hx => by simp [w.waited x hx]
  have hs : Sched { s with mem := μ } (readied p ts) (moved l (.cond c) ts rest) := by
    refine ⟨w.queued, h.spots.wake (fun x hx => ?_) fun x hx => ?_, w.runqlen.trans h.len⟩
    · have hcur := h.cur_false (hne x hx)
      have hsp := h.spots.spot x
      obtain ⟨v, e⟩ := w.th x
      rw [if_pos hx] at e
      rw [hcur, hplace x hx, w.waited x hx] at hsp
      have hlive : Live s.mem x := by
        unfold Live
        rw [w.waited x hx]
        exact ⟨by simp, by simp⟩
      refine ⟨hcur, hne x hx, ?_, by rw [e], fun v hv => ⟨hlive, ?_⟩, fun j hl hj =>
        h.spots.exiting_of_joiner hcur (by simp [hplace x hx]) hl hj⟩
      · rw [e]
        generalize s.up x = up at hsp
        obtain ⟨m, he⟩ := hsp.of_cond
        show (s.mem.th x).eip.Wakes
        rw [he]
        trivial
      · rw [e] at hv
        exact hv
    · obtain ⟨v, e⟩ := w.th x
      rw [if_neg hx] at e
      rw [e]
      exact ⟨rfl, rfl, rfl⟩
  refine ⟨rest, w, hs.move hw (.events a) ?_ (fun b hb => ?_) notes⟩
  · have ht : t ∉ ts := fun ht => hne t ht (h.cur_state hw)
    rw [readied, if_neg ht]
    have := h.cur_fits hw
    rwa [hpc] at this
  · have hb' : (s.pc t).In b := hb
    rwa [hpc] at hb'

/-- A turn of `mutexreqs` that hands a mutex over. -/
theorem reqs {a : After} {m : MutexId} {tn : Tid} {mp : Link MutexId} {v : Option MutexId}
    (h : Sched s p l) (hw : s.who = .thread t) (hpc : s.pc t = .reqs mp a)
    (hq : (s.mem.mutex m).qhead = some tn)
    (hr : transfer m tn (s.mem.setReq t mp v) = .ok μ) (notes : List Note) :
    ∃ ts, l (.mutex m) = tn :: ts ∧ Transfers m tn (s.mem.setReq t mp v) μ p l ts ∧
      Sched (s.ran t μ (.reqs mp a) notes) (Function.update p tn (some .ready))
        (moved l (.mutex m) [tn] ts) := by
  obtain ⟨ts, hl⟩ := h.queued.cons_of_head (q := .mutex m) hq
  have hpl : p tn = some (.mutex m) := h.queued.place_of_head (q := .mutex m) hq
  have hsr : ∀ x, ((s.mem.setReq t mp v).th x).state = (s.mem.th x).state ∧
      ((s.mem.setReq t mp v).th x).eip = (s.mem.th x).eip ∧
      ((s.mem.setReq t mp v).th x).joiner = (s.mem.th x).joiner := by
    intro x
    cases mp with
    | head =>
      simp only [Mem.setReq, Mem.setTh_th]
      split
      · rename_i e
        rw [e]
        exact ⟨rfl, rfl, rfl⟩
      · exact ⟨rfl, rfl, rfl⟩
    | next m' => exact ⟨rfl, rfl, rfl⟩
  have hq' : Queued (s.mem.setReq t mp v) p l := by
    cases mp with
    | head => exact h.queued.congr (by simp [Mem.setReq]) (by simp [Mem.setReq]) (by simp [Mem.setReq])
    | next m' => exact h.queued.congr (setMutex_head rfl) (setMutex_tail rfl) rfl
  have w := transfer_spec hq' hl hr
  have hst : (s.mem.th tn).state = .mutex := (hsr tn).1 ▸ w.waited
  have hne : (s.mem.th tn).state ≠ .run := by simp [hst]
  have hcur := h.cur_false hne
  have htn : tn ≠ t := by
    rintro rfl
    rw [Sys.cur_self hw] at hcur
    cases hcur
  have hs : Sched { s with mem := μ } (Function.update p tn (some .ready))
      (moved l (.mutex m) [tn] ts) := by
    refine ⟨w.queued, ?_, ?_⟩
    rotate_left
    · rw [w.runqlen, setReq_runqlen, h.len]
      rfl
    rw [← readied_singleton]
    refine h.spots.wake (fun x hx => ?_) fun x hx => ?_
    · obtain rfl := List.mem_singleton.1 hx
      have hsp := h.spots.spot x
      obtain ⟨y, e⟩ := w.th x
      rw [if_pos rfl] at e
      rw [hcur, hpl, hst] at hsp
      have hlive : Live s.mem x := by
        unfold Live
        rw [hst]
        exact ⟨by simp, by simp⟩
      refine ⟨hcur, hne, ?_, by rw [e], fun v hv => ⟨hlive, ?_⟩, fun j hl hj =>
        h.spots.exiting_of_joiner hcur (by simp [hpl]) hl hj⟩
      · rw [e]
        show ((s.mem.setReq t mp _).th x).eip.Wakes
        rw [(hsr x).2.1, hsp.of_mutex]
        trivial
      · rw [e] at hv
        exact (hsr x).2.2 ▸ hv
    · have hx' : x ≠ tn := by simpa using hx
      obtain ⟨y, e⟩ := w.th x
      rw [if_neg hx'] at e
      rw [e]
      exact ⟨(hsr x).2.1, (hsr x).2.2, (hsr x).1⟩
  refine ⟨ts, hl, w, hs.move hw (.reqs mp a) ?_ (fun b hb => ?_) notes⟩
  · rw [Function.update_of_ne (Ne.symm htn)]
    have := h.cur_fits hw
    rwa [hpc] at this
  · have hb' : (s.pc t).In b := hb
    rwa [hpc] at hb'

/-- A thread goes on the queue of a mutex. -/
theorem lockIf {m : MutexId} {μ' : Mem} (h : Sched s p l) (hw : s.who = .thread t)
    (hpc : s.pc t = .lockIf m) (h1 : request m s.mem = .ok μ') (h2 : enlist t m μ' = .ok μ)
    (notes : List Note) :
    Sched (s.ran t μ (.events (.lock m)) notes) (Function.update p t (some (.mutex m)))
      (Function.update l (.mutex m) (l (.mutex m) ++ [t])) := by
  have hfit : p t = none := by
    have := h.cur_fits hw
    rwa [hpc] at this
  obtain rfl := enlist_ok h2
  have hr := Relink.enqueue μ' (.mutex m) t
  have hq := request_quiet h1
  refine ⟨(request_queued h1 h.queued).enqueue hfit _, ?_,
    hr.runqlen.trans ((request_runqlen h1).trans (by simpa using h.len))⟩
  refine h.spots.advance hw ?_ (.events (.lock m)) (some (.mutex m)) rfl (fun a ha => ?_) _
  · exact ⟨fun x => (hr.eip x).trans (hq.eip x), fun x => (hr.joiner x).trans (hq.joiner x),
      fun x => by rw [hr.state]; exact hq.state x⟩
  · rw [hpc] at ha
    exact ha.elim

/-- A thread goes on the queue of a condition variable. -/
theorem waitSync {c : CondId} {m : MutexId} (h : Sched s p l) (hw : s.who = .thread t)
    (hpc : s.pc t = .waitSync c m) (notes : List Note) :
    Sched (s.ran t ((s.mem.enqueue (.cond c) t).setMutex m fun x => { x with locked := false })
        (.events (.wait m)) notes) (Function.update p t (some (.cond c)))
      (Function.update l (.cond c) (l (.cond c) ++ [t])) := by
  have hfit : p t = none := by
    have := h.cur_fits hw
    rwa [hpc] at this
  have hr := Relink.enqueue s.mem (.cond c) t
  refine ⟨(h.queued.enqueue hfit (.cond c)).congr (setMutex_head rfl) (setMutex_tail rfl) rfl, ?_,
    hr.runqlen.trans (by simpa using h.len)⟩
  have hqt : Quiet s.mem
      ((s.mem.enqueue (.cond c) t).setMutex m fun x => { x with locked := false }) :=
    ⟨hr.eip, hr.joiner, fun x => .inl (hr.state x)⟩
  refine h.spots.advance hw hqt (.events (.wait m)) (some (.cond c)) ⟨c, rfl⟩ (fun a ha => ?_) _
  rw [hpc] at ha
  exact ha.elim

/-- The master runs a piece of library code. -/
theorem exec (h : Sched s p l) (hw : s.who = .thread t) (ht : s.mem.tlock = 2)
    (he : exec N t (s.pc t) s.mem = .ok (μ, pc, notes)) :
    ∃ p' l', Sched (s.ran t μ pc notes) p' l' ∧
      ((∀ m, s.pc t ≠ .lockIf m) → (∀ mp a, s.pc t ≠ .reqs mp a) →
        ∀ m, l' (.mutex m) = l (.mutex m)) ∧
      ((∀ c m, s.pc t ≠ .waitSync c m) → (∀ a, s.pc t ≠ .events a) →
        ∀ c, l' (.cond c) = l (.cond c)) := by
  have hfit := h.cur_fits hw
  have hin : ∀ pc', (∀ a, ¬ (s.pc t).In a) → ∀ a, (s.pc t).In a → Pc.In a pc' :=
    fun _ hn a ha => absurd ha (hn a)
  generalize hpc : s.pc t = pc₀ at he
  rw [hpc] at hfit hin
  have same : ∀ {l' : Queue → List Tid} {A B C D : Prop}, l' = l →
      (A → B → ∀ m, l' (.mutex m) = l (.mutex m)) ∧ (C → D → ∀ c, l' (.cond c) = l (.cond c)) := by
    rintro l' A B C D rfl
    exact ⟨fun _ _ _ => rfl, fun _ _ _ => rfl⟩
  have hmove : ∀ pc', Pc.Fits pc' (p t) → (∀ a, ¬ Pc.In a pc₀) →
      ∃ p' l', Sched (s.ran t s.mem pc' notes) p' l' ∧
        ((∀ m, pc₀ ≠ .lockIf m) → (∀ mp a, pc₀ ≠ .reqs mp a) →
          ∀ m, l' (.mutex m) = l (.mutex m)) ∧
        ((∀ c m, pc₀ ≠ .waitSync c m) → (∀ a, pc₀ ≠ .events a) →
          ∀ c, l' (.cond c) = l (.cond c)) := by
    intro pc' hf hn
    exact ⟨p, l, h.move hw pc' hf (hpc ▸ hin pc' hn) notes, same rfl⟩
  have hstay : ∀ μ' pc', (∀ q, μ'.head q = s.mem.head q) → (∀ q, μ'.tail q = s.mem.tail q) →
      μ'.qnext = s.mem.qnext → Quiet s.mem μ' → μ'.runqlen = s.mem.runqlen → Pc.Fits pc' (p t) → (∀ a, ¬ Pc.In a pc₀) →
      ∃ p' l', Sched (s.ran t μ' pc' notes) p' l' ∧
        ((∀ m, pc₀ ≠ .lockIf m) → (∀ mp a, pc₀ ≠ .reqs mp a) →
          ∀ m, l' (.mutex m) = l (.mutex m)) ∧
        ((∀ c m, pc₀ ≠ .waitSync c m) → (∀ a, pc₀ ≠ .events a) →
          ∀ c, l' (.cond c) = l (.cond c)) := by
    intro μ' pc' h1 h2 h3 h4 h5 hf hn
    exact ⟨p, l, h.stay hw h1 h2 h3 h4 h5 pc' hf (hpc ▸ hin pc' hn) notes, same rfl⟩
  cases pc₀ with
  | lock m =>
    simp only [Dsthread.exec, bind_ok, check_ok, exists_const] at he
    obtain ⟨-, he⟩ := he
    split at he <;>
    · simp only [pure_ok, Prod.mk.injEq] at he
      obtain ⟨rfl, rfl, rfl⟩ := he
      exact hmove _ hfit fun _ => id
  | lockCall m =>
    simp only [Dsthread.exec, bind_ok, check_ok, exists_const, pure_ok, Prod.mk.injEq] at he
    obtain ⟨-, rfl, rfl, rfl⟩ := he
    exact hmove _ hfit fun _ => id
  | lockSync m =>
    simp only [Dsthread.exec, bind_ok, pure_ok, Prod.mk.injEq] at he
    obtain ⟨μ', h1, rfl, rfl, rfl⟩ := he
    rcases steal_ok h1 with rfl | ⟨-, -, -, -, rfl⟩
    · exact hmove _ hfit fun _ => id
    · exact hstay _ _ (setMutex_head rfl) (setMutex_tail rfl) rfl (.of_th rfl) rfl hfit fun _ => id
  | lockIf m =>
    simp only [Dsthread.exec] at he
    split at he
    · simp only [bind_ok, pure_ok, Prod.mk.injEq] at he
      obtain ⟨μ₁, h1, μ₂, h2, pc', h3, rfl, rfl, rfl⟩ := he
      obtain ⟨-, -, rfl⟩ := tblock_ok h3
      refine ⟨_, _, h.lockIf hw hpc h1 h2 _, fun hn => absurd rfl (hn m), fun _ _ c => ?_⟩
      rw [Function.update_of_ne (by simp)]
    · simp only [pure_ok, Prod.mk.injEq] at he
      obtain ⟨rfl, rfl, rfl⟩ := he
      exact hmove _ hfit fun _ => id
  | grab m =>
    simp only [Dsthread.exec, bind_ok, check_ok, exists_const, pure_ok, Prod.mk.injEq] at he
    obtain ⟨-, -, rfl, rfl, rfl⟩ := he
    exact hmove _ hfit fun _ => id
  | setLocked m =>
    simp only [Dsthread.exec, pure_ok, Prod.mk.injEq] at he
    obtain ⟨rfl, rfl, rfl⟩ := he
    exact hstay _ _ (setMutex_head rfl) (setMutex_tail rfl) rfl (.of_th rfl) rfl hfit fun _ => id
  | tryLock m =>
    simp only [Dsthread.exec] at he
    split at he
    · simp only [pure_ok, Prod.mk.injEq] at he
      obtain ⟨rfl, rfl, rfl⟩ := he
      exact hmove _ hfit fun _ => id
    · simp only [bind_ok, check_ok, exists_const, pure_ok, Prod.mk.injEq] at he
      obtain ⟨-, rfl, rfl, rfl⟩ := he
      exact hmove _ hfit fun _ => id
  | unlock m =>
    simp only [Dsthread.exec, bind_ok, check_ok, exists_const, pure_ok, Prod.mk.injEq] at he
    obtain ⟨-, -, -, rfl, rfl, rfl⟩ := he
    exact hmove _ hfit fun _ => id
  | clearLocked m =>
    simp only [Dsthread.exec, pure_ok, Prod.mk.injEq] at he
    obtain ⟨rfl, rfl, rfl⟩ := he
    exact hstay _ _ (setMutex_head rfl) (setMutex_tail rfl) rfl (.of_th rfl) rfl hfit fun _ => id
  | test c b =>
    simp only [Dsthread.exec] at he
    split at he
    · simp only [pure_ok, Prod.mk.injEq] at he
      obtain ⟨rfl, rfl, rfl⟩ := he
      exact hmove _ hfit fun _ => id
    · simp only [bind_ok, check_ok, exists_const, ht, reduceCtorEq, false_and] at he
  | link c b =>
    simp only [Dsthread.exec] at he
    split at he
    · simp only [bind_ok, check_ok, exists_const, pure_ok, Prod.mk.injEq] at he
      obtain ⟨-, rfl, rfl, rfl⟩ := he
      exact hstay _ _ (setCond_head rfl) (setCond_tail rfl) rfl (.of_th rfl) rfl hfit fun _ => id
    · simp only [pure_ok, Prod.mk.injEq] at he
      obtain ⟨rfl, rfl, rfl⟩ := he
      exact hmove _ hfit fun _ => id
  | chain c b =>
    simp only [Dsthread.exec, pure_ok, Prod.mk.injEq] at he
    obtain ⟨rfl, rfl, rfl⟩ := he
    refine hstay _ _ (fun q => ?_) (fun q => ?_) rfl (.of_th rfl) rfl hfit fun _ => id
    · cases q <;> rfl
    · cases q <;> rfl
  | count c b =>
    cases b <;>
    · simp only [Dsthread.exec, pure_ok, Prod.mk.injEq] at he
      obtain ⟨rfl, rfl, rfl⟩ := he
      exact hstay _ _ (setCond_head rfl) (setCond_tail rfl) rfl (.of_th rfl) rfl hfit fun _ => id
  | waitCall c m =>
    simp only [Dsthread.exec, bind_ok, check_ok, exists_const, pure_ok, Prod.mk.injEq] at he
    obtain ⟨-, rfl, rfl, rfl⟩ := he
    exact hmove _ hfit fun _ => id
  | waitSync c m =>
    simp only [Dsthread.exec, bind_ok, check_ok, exists_const, pure_ok, Prod.mk.injEq] at he
    obtain ⟨-, -, -, -, -, -, pc', h3, rfl, rfl, rfl⟩ := he
    obtain ⟨-, -, rfl⟩ := tblock_ok h3
    refine ⟨_, _, h.waitSync hw hpc _, fun _ _ m => ?_, fun hn => absurd rfl (hn c m)⟩
    rw [Function.update_of_ne (by simp)]
  | createCall d =>
    simp only [Dsthread.exec, bind_ok, check_ok, exists_const, pure_ok, Prod.mk.injEq] at he
    obtain ⟨-, rfl, rfl, rfl⟩ := he
    exact hmove _ hfit fun _ => id
  | createSync d =>
    simp only [Dsthread.exec, bind_ok, pure_ok, Prod.mk.injEq] at he
    obtain ⟨μ', h1, rfl, rfl, rfl⟩ := he
    obtain ⟨u, hf, -, -, hs⟩ := h.create h1
    refine ⟨_, _, hs.move hw .ret ?_ (hpc ▸ hin _ fun _ => id) _, fun _ _ m => ?_,
      fun _ _ c => ?_⟩
    rotate_left
    · rw [Function.update_of_ne (by simp)]
    · rw [Function.update_of_ne (by simp)]
    have hut : t ≠ u := by
      rintro rfl
      rw [h.cur_state hw] at hf
      cases hf
    rw [Function.update_of_ne hut]
    exact hfit
  | join tj =>
    simp only [Dsthread.exec, bind_ok, check_ok, exists_const] at he
    obtain ⟨-, -, he⟩ := he
    split at he <;>
    · simp only [pure_ok, Prod.mk.injEq] at he
      obtain ⟨rfl, rfl, rfl⟩ := he
      exact hmove _ hfit fun _ => id
  | joinCall tj =>
    simp only [Dsthread.exec, bind_ok, check_ok, exists_const, pure_ok, Prod.mk.injEq] at he
    obtain ⟨-, rfl, rfl, rfl⟩ := he
    exact hmove _ hfit fun _ => id
  | joinSync tj =>
    simp only [Dsthread.exec] at he
    split at he
    · simp only [bind_ok, check_ok, exists_const, pure_ok, Prod.mk.injEq] at he
      obtain ⟨-, -, pc', h3, rfl, rfl, rfl⟩ := he
      obtain ⟨-, -, rfl⟩ := tblock_ok h3
      exact ⟨_, _, h.joinSync hw hpc _, same rfl⟩
    · simp only [pure_ok, Prod.mk.injEq] at he
      obtain ⟨rfl, rfl, rfl⟩ := he
      exact hmove _ hfit fun _ => id
  | joinFree tj =>
    simp only [Dsthread.exec, bind_ok, check_ok, exists_const, pure_ok, Prod.mk.injEq] at he
    obtain ⟨hx, rfl, rfl, rfl⟩ := he
    exact hstay _ _ (by simp) (by simp) (by simp) (.setTh rfl rfl (.inr ⟨hx, rfl⟩)) rfl hfit
      fun _ => id
  | exitCall =>
    simp only [Dsthread.exec, bind_ok, check_ok, exists_const, pure_ok, Prod.mk.injEq] at he
    obtain ⟨-, rfl, rfl, rfl⟩ := he
    exact hmove _ hfit fun _ => id
  | exitSync =>
    simp only [Dsthread.exec, bind_ok, check_ok, exists_const, pure_ok, Prod.mk.injEq] at he
    obtain ⟨-, μ', h1, pc', h3, rfl, rfl, rfl⟩ := he
    obtain ⟨-, -, rfl⟩ := tblock_ok h3
    obtain ⟨p', l', hs, -, hm, hc⟩ := h.exitSync hw hpc h1 []
    exact ⟨p', l', hs, fun _ _ => hm, fun _ _ => hc⟩
  | ret =>
    simp only [Dsthread.exec, bind_ok, check_ok, exists_const, ht, show 2 &&& 2 = 2 from rfl] at he
    obtain ⟨-, he⟩ := he
    simp only [show ¬ (2 = 0) by decide, if_false] at he
    obtain ⟨rfl, rfl, rfl⟩ := he
    refine hstay _ _ (fun q => ?_) (fun q => ?_) rfl (.of_th rfl) rfl hfit fun _ => id
    · cases q <;> rfl
    · cases q <;> rfl
  | events a =>
    simp only [Dsthread.exec] at he
    split at he
    · simp only [pure_ok, Prod.mk.injEq] at he
      obtain ⟨rfl, rfl, rfl⟩ := he
      exact ⟨p, l, h.move hw (.reqs .head a) hfit (fun b hb => by rwa [hpc] at hb) _, same rfl⟩
    · simp only [bind_ok, pure_ok, Prod.exists, Prod.mk.injEq] at he
      obtain ⟨μ', ts, h1, rfl, rfl, rfl⟩ := he
      obtain ⟨rest, -, hs⟩ := h.events hw hpc h1 (ts.map (.wakes · _))
      refine ⟨_, _, hs, fun _ _ m => ?_, fun _ hn => absurd rfl (hn a)⟩
      simp [moved]
  | reqs mp a =>
    simp only [Dsthread.exec, bind_ok, Prod.exists] at he
    obtain ⟨μ', r, h1, he⟩ := he
    rcases mutexreqs_ok h1 with ⟨-, rfl, rfl⟩ | ⟨m, tn, -, -, hq, ⟨-, rfl, rfl⟩ | ⟨-, rfl, h2⟩⟩
    · simp only [pure_ok, Prod.mk.injEq] at he
      obtain ⟨rfl, rfl, rfl⟩ := he
      exact ⟨p, l, h.move hw (.done a) hfit (fun b hb => by rwa [hpc] at hb) _, same rfl⟩
    · simp only [pure_ok, Prod.mk.injEq] at he
      obtain ⟨rfl, rfl, rfl⟩ := he
      exact ⟨p, l, h.move hw (.reqs (.next m) a) hfit (fun b hb => by rwa [hpc] at hb) _, same rfl⟩
    · simp only [pure_ok, Prod.mk.injEq] at he
      obtain ⟨rfl, rfl, rfl⟩ := he
      obtain ⟨ts, -, -, hs⟩ := h.reqs hw hpc hq h2 []
      refine ⟨_, _, hs, fun _ hn => absurd rfl (hn mp a), fun _ _ c => ?_⟩
      simp [moved]
  | user | done | dead | failed =>
    simp only [Dsthread.exec, pure_ok, Prod.mk.injEq] at he
    obtain ⟨rfl, rfl, rfl⟩ := he
    exact ⟨p, l, h.move hw _ hfit (fun b hb => hpc ▸ hb) _, same rfl⟩

end Sched

/-! ## Blocking, resuming and scheduling -/

section

variable {N : ℕ} {s : Sys} {p : Tid → Option Queue} {l : Queue → List Tid} {t : Tid} {μ μ' : Mem}

theorem trun_ok (h : trun N t μ = .ok μ') : μ.runqlen + 1 ≤ N ∧
    μ' = { μ.enqueue .run t with runqlen := μ.runqlen + 1 } := by
  simp only [trun, bind_ok, check_ok, exists_const, pure_ok, (Relink.enqueue μ .run t).runqlen] at h
  exact ⟨h.2.2.1, h.2.2.2.symm⟩

namespace Sched

/-- The master's thread blocks. -/
theorem block {st : TState} {eip : Pc} (h : Sched s p l) (hw : s.who = .thread t)
    (hs : Spot eip (s.pc t) false false (p t) st)
    (hex : (s.pc t).In .exit → st = .free ∨ st = .exit)
    (hjn : ∀ j, (s.pc t).In (.join j) → p t = none ∧ st = .mutex ∧ eip = .joinFree j) :
    Sched (s.block t st eip) p l := by
  have hth : ∀ x, (s.block t st eip).mem.th x =
      if x = t then { s.mem.th t with state := st, eip := eip } else s.mem.th x :=
    fun x => Mem.setTh_th s.mem t x fun y => { y with state := st, eip := eip }
  have hcur : ∀ x, (s.block t st eip).cur x = false := fun x => by simp [Sys.cur, Sys.block]
  refine ⟨h.queued.congr (by simp [Sys.block]) (by simp [Sys.block]) (by simp [Sys.block]),
    ⟨fun x => ?_, fun j u hl hj => ?_⟩, h.len⟩
  · rw [hth, hcur]
    by_cases hx : x = t
    · subst hx
      simp only [if_true]
      show Spot eip (s.pc x) (s.up x) _ _ _
      rw [h.cur_up hw]
      exact hs
    · rw [if_neg hx, ← Sys.cur_of_ne hw hx]
      exact h.spots.spot x
  · have hold : Live s.mem j ∧ (s.mem.th j).joiner = some u := by
      unfold Live at hl ⊢
      rw [hth] at hl hj
      by_cases e : j = t
      · subst e
        rw [if_pos rfl] at hj
        rw [h.cur_state hw]
        exact ⟨⟨by simp, by simp⟩, hj⟩
      · rw [if_neg e] at hl hj
        exact ⟨hl, hj⟩
    rcases h.spots.joiner j u hold.1 hold.2 with (⟨hu, hi⟩ | ⟨hne, hpu, hst, he⟩) | ⟨hu, hi⟩
    · have e : u = t := Sys.eq_of_cur hw hu
      subst e
      obtain ⟨h1, h2, h3⟩ := hjn j hi
      refine .inl (.inr ⟨hcur u, h1, ?_, ?_⟩)
      · rw [hth, if_pos rfl]
        exact h2
      · rw [hth, if_pos rfl]
        exact h3
    · have hut : u ≠ t := by
        rintro rfl
        rw [Sys.cur_self hw] at hne
        cases hne
      refine .inl (.inr ⟨hcur u, hpu, ?_, ?_⟩)
      · rw [hth, if_neg hut]
        exact hst
      · rw [hth, if_neg hut]
        exact he
    · have e : j = t := Sys.eq_of_cur hw hu
      subst e
      unfold Live at hl
      rw [hth, if_pos rfl] at hl
      rcases hex hi with e | e
      · exact absurd e hl.1
      · exact absurd e hl.2

/-- The master's thread goes on as a child. -/
theorem resume {μ' : Mem} {pc : Pc} {who : Who} (h : Sched s p l) (hw : s.who = .thread t)
    (hr : trun N t s.mem = .ok μ') (hp : p t = none) (hwho : ∀ x, who ≠ .thread x)
    (hex : ¬ (s.pc t).In .exit) (hjn : ∀ j, ¬ (s.pc t).In (.join j)) :
    Sched { ({ s with mem := μ' }).start t pc with who := who } (Function.update p t (some .run))
      (Function.update l .run (l .run ++ [t])) := by
  obtain ⟨-, rfl⟩ := trun_ok hr
  have hr := Relink.enqueue s.mem .run t
  set s' : Sys := { ({ s with mem := { s.mem.enqueue .run t with
    runqlen := s.mem.runqlen + 1 } }).start t pc with who := who } with hs'
  have hcur : ∀ x, s'.cur x = false := fun x => by simp [hs', Sys.cur, Sys.start, hwho x]
  have hst : ∀ x, (s'.mem.th x).state = (s.mem.th x).state := hr.state
  have heip : ∀ x, (s'.mem.th x).eip = (s.mem.th x).eip := hr.eip
  refine ⟨(h.queued.enqueue hp .run).congr (fun q => ?_) (fun q => ?_) rfl, ⟨fun x => ?_,
    fun j u hl hj => ?_⟩, ?_⟩
  rotate_right
  · simp [hs', Sys.start, h.len]
  · cases q <;> rfl
  · cases q <;> rfl
  · rw [hcur, hst, heip]
    by_cases hx : x = t
    · subst hx
      rw [h.cur_state hw, Function.update_self]
      show Spot _ _ (Function.update s.up x true x) _ _ _
      rw [Function.update_self]
      exact .child
    · show Spot _ (Function.update s.pc t pc x) (Function.update s.up t true x) _
        (Function.update p t (some .run) x) _
      rw [Function.update_of_ne hx, Function.update_of_ne hx, Function.update_of_ne hx,
        ← Sys.cur_of_ne hw hx]
      exact h.spots.spot x
  · have hl' : Live s.mem j := by
      unfold Live at hl ⊢
      rwa [hst] at hl
    have hj' : (s.mem.th j).joiner = some u := (hr.joiner j).symm.trans hj
    rcases h.spots.joiner j u hl' hj' with (⟨hu, hi⟩ | ⟨hne, hpu, hsu, he⟩) | ⟨hu, hi⟩
    · have e : u = t := Sys.eq_of_cur hw hu
      subst e
      exact absurd hi (hjn j)
    · have hut : u ≠ t := by
        rintro rfl
        rw [Sys.cur_self hw] at hne
        cases hne
      refine .inl (.inr ⟨hcur u, ?_, (hst u).trans hsu, (heip u).trans he⟩)
      rw [Function.update_of_ne hut]
      exact hpu
    · have e : j = t := Sys.eq_of_cur hw hu
      subst e
      exact absurd hi hex

/-- The master's thread is through with its events. -/
theorem finish {a : After} (h : Sched s p l) (hw : s.who = .thread t) (hpc : s.pc t = .done a) :
    ∃ p' l', Sched (s.finish N t a) p' l' ∧ Kept l l' := by
  have hfit := h.cur_fits hw
  rw [hpc] at hfit
  have hrun : ∀ (pc : Pc) (who : Who), (∀ x, who ≠ .thread x) → p t = none → a ≠ .exit →
      (∀ j, a ≠ .join j) → ∃ p' l', Sched (s.resume N t pc who) p' l' ∧ Kept l l' := by
    intro pc who hwho hp hex hjn
    unfold Sys.resume
    split
    · exact ⟨p, l, h.fail hw _, .refl l⟩
    · rename_i μ' hr
      exact ⟨_, _, h.resume hw hr hp hwho (by rw [hpc]; exact hex) (by rw [hpc]; exact hjn),
        .run l _⟩
  have hblock : ∀ (st : TState) (eip : Pc), Spot eip (s.pc t) false false (p t) st →
      (a = .exit → st = .free ∨ st = .exit) →
      (∀ j, a = .join j → p t = none ∧ st = .mutex ∧ eip = .joinFree j) →
      ∃ p' l', Sched (s.block t st eip) p' l' ∧ Kept l l' := by
    intro st eip h1 h2 h3
    exact ⟨p, l, h.block hw h1 (by rw [hpc]; exact h2) (by rw [hpc]; exact h3), .refl l⟩
  cases a with
  | ret => exact hrun _ _ (by simp) hfit (by simp) (by simp)
  | user => exact hrun _ _ (by simp) hfit (by simp) (by simp)
  | test c b => exact hrun _ _ (by simp) hfit (by simp) (by simp)
  | lock m =>
    refine hblock _ _ ?_ (by simp) (by simp)
    rw [show p t = some (.mutex m) from hfit]
    exact .mutex rfl
  | wait m =>
    refine hblock _ _ ?_ (by simp) (by simp)
    obtain ⟨c, hc⟩ := hfit
    rw [hc]
    exact .cond rfl
  | join tj =>
    have hp : p t = none := hfit
    refine hblock _ _ ?_ (by simp) fun j hj => ⟨hp, rfl, ?_⟩
    · rw [hp]
      exact .joining rfl
    · injection hj with e
      rw [e]
  | exit =>
    have hp : p t = none := hfit
    have hst : (if (s.mem.th t).detached then TState.free else .exit) = .free ∨
        (if (s.mem.th t).detached then TState.free else .exit) = .exit := by
      split
      · exact .inl rfl
      · exact .inr rfl
    refine hblock _ _ ?_ (fun _ => hst) (by simp)
    rw [hp]
    exact .gone hst

/-- The scheduler resumes a ready thread. -/
theorem schedStep (h : Sched s p l) (hw : s.who = .sched) :
    ∃ p' l', Sched s.schedStep p' l' ∧ Kept l l' := by
  have hcur : ∀ x, s.cur x = false := fun x => by simp [Sys.cur, hw]
  unfold Sys.schedStep
  split
  · refine ⟨p, l, ⟨h.queued, ⟨fun x => ?_, fun j u hl hj => ?_⟩, h.len⟩, .refl l⟩
    · have := h.spots.spot x
      rw [hcur] at this
      simpa [Sys.cur] using this
    · rcases h.spots.joiner j u hl hj with (⟨hu, -⟩ | ⟨-, h2⟩) | ⟨hu, -⟩
      · rw [hcur] at hu
        cases hu
      · exact .inl (.inr ⟨by simp [Sys.cur], h2⟩)
      · rw [hcur] at hu
        cases hu
  · rename_i t ht
    obtain ⟨ts, hl⟩ := h.queued.cons_of_head (q := .ready) ht
    have hp : p t = some .ready := h.queued.place_of_head (q := .ready) ht
    have hr := (Relink.unlink s.mem .ready t).trans (Relink.resetTail _ .ready)
    refine ⟨_, _, ⟨h.queued.unlink hl, ⟨fun x => ?_, fun j u hl hj => ?_⟩,
      hr.runqlen.trans (by simpa using h.len)⟩, .ready l _⟩
    · show Spot (((s.mem.unlink .ready t).resetTail .ready).th x).eip
        (Function.update s.pc t (s.mem.th t).eip x) (s.up x) _ _ _
      rw [hr.eip, hr.state]
      have hs := h.spots.spot x
      rw [hcur] at hs
      by_cases hx : x = t
      · subst hx
        rw [hp] at hs
        rw [Function.update_self, Function.update_self, Sys.cur_self rfl]
        obtain ⟨h1, h2, h3⟩ := hs.of_ready
        rw [h1, h2]
        exact .current h3.fits
      · rw [Function.update_of_ne hx, Function.update_of_ne hx, Sys.cur_of_ne rfl hx]
        exact hs
    · have hl' : Live s.mem j := by
        unfold Live at hl ⊢
        rwa [hr.state] at hl
      have hj' : (s.mem.th j).joiner = some u := (hr.joiner j).symm.trans hj
      rcases h.spots.joiner j u hl' hj' with (⟨hu, -⟩ | ⟨-, h2, h3, h4⟩) | ⟨hu, -⟩
      · rw [hcur] at hu
        cases hu
      · have hut : u ≠ t := by
          rintro rfl
          rw [hp] at h2
          cases h2
        refine .inl (.inr ⟨Sys.cur_of_ne rfl hut, ?_, (hr.state u).trans h3, (hr.eip u).trans h4⟩)
        rw [Function.update_of_ne hut]
        exact h2
      · rw [hcur] at hu
        cases hu

/-- The scheduler takes a child from the run queue; `μ` is the merged memory. -/
theorem collect (h : Sched s p l) (hw : s.who = .collect) (μ : Mem) (pc : Pc)
    (ht : s.mem.runqhead = some t) (hh : ∀ q, μ.head q = ((s.mem.unlink .run t).resetTail .run).head q)
    (htl : ∀ q, μ.tail q = ((s.mem.unlink .run t).resetTail .run).tail q)
    (hq : μ.qnext = ((s.mem.unlink .run t).resetTail .run).qnext)
    (hμ : Quiet ((s.mem.unlink .run t).resetTail .run) μ)
    (hn : μ.runqlen = s.mem.runqlen - 1) (hpc : pc.Fits none) :
    ∃ ts, l .run = t :: ts ∧
      Sched { s with
        mem := μ, up := Function.update s.up t false, pc := Function.update s.pc t pc,
        who := .thread t } (Function.update p t none) (Function.update l .run ts) := by
  obtain ⟨ts, hl⟩ := h.queued.cons_of_head (q := .run) ht
  have hp : p t = some .run := h.queued.place_of_head (q := .run) ht
  have hr := (Relink.unlink s.mem .run t).trans (Relink.resetTail _ .run)
  have hqt : Quiet s.mem μ := ⟨fun x => (hμ.eip x).trans (hr.eip x),
    fun x => (hμ.joiner x).trans (hr.joiner x), fun x => by rw [← hr.state]; exact hμ.state x⟩
  have hcur : ∀ x, s.cur x = false := fun x => by simp [Sys.cur, hw]
  refine ⟨ts, hl, (h.queued.unlink hl).congr hh htl hq, ⟨fun x => ?_, fun j u hl hj => ?_⟩, ?_⟩
  rotate_right
  · simp [hn, h.len, hl]
  · by_cases hx : x = t
    · subst hx
      have hst : (μ.th x).state = .run := by
        have := h.up_state ((h.up_iff x).2 hp)
        rw [hqt.state_eq (by simp [this]), this]
      simp only [Function.update_self, Sys.cur_self, hst]
      exact .current hpc
    · simp only [Function.update_of_ne hx]
      rw [Sys.cur_of_ne rfl hx, ← hcur x]
      exact hqt.spot (h.spots.spot x)
  · have hj' : (s.mem.th j).joiner = some u := (hqt.joiner j).symm.trans hj
    rcases h.spots.joiner j u (hqt.live hl) hj' with (⟨hu, -⟩ | ⟨-, h2, h3, h4⟩) | ⟨hu, -⟩
    · rw [hcur] at hu
      cases hu
    · have hut : u ≠ t := by
        rintro rfl
        rw [hp] at h2
        cases h2
      refine .inl (.inr ⟨Sys.cur_of_ne rfl hut, ?_, ?_, (hqt.eip u).trans h4⟩)
      · rw [Function.update_of_ne hut]
        exact h2
      · show (μ.th u).state = _
        rw [hqt.state_eq (by simp [h3]), h3]
    · rw [hcur] at hu
      cases hu

end Sched

end

end Determinator.Dsthread
