import Determinator.Dsthread.Mutex

/-!
# Requests for mutexes

A thread that has to wait for a mutex puts it on the `reqs` list of the owner, and the owner hands
its requested mutexes over whenever it synchronises with the master. `Lists` says that these lists
are exact: a mutex is on the list of its owner if and only if threads wait for it. As long as no
thread exits while it owns a locked mutex, `Requests` holds in every state reached, and the
assertions about mutexes and queues never fail.
-/

set_option linter.unusedSectionVars false

namespace Determinator.Dsthread

/-! ## The request lists -/

/-- The mutexes on the list `r t` of a thread are those it owns that threads wait for. -/
structure Lists (μ : Mem) (l : Queue → List Tid) (r : Tid → List MutexId) : Prop where
  chain : ∀ t, Chain (fun m => (μ.mutex m).reqnext) (μ.th t).reqs (r t)
  nodup : ∀ t, (r t).Nodup
  mem : ∀ m, l (.mutex m) ≠ [] → m ∈ r (μ.mutex m).owner
  only : ∀ t m, m ∈ r t → (μ.mutex m).owner = t ∧ l (.mutex m) ≠ []
  null : ∀ m, l (.mutex m) = [] → (μ.mutex m).reqnext = none
  other : ∀ m t, t ∈ l (.mutex m) → (μ.mutex m).owner ≠ t

namespace Lists

variable {μ μ' : Mem} {l l' : Queue → List Tid} {r : Tid → List MutexId} {t tn : Tid}
  {m : MutexId} {ts : List Tid}

/-- The link behind `pre` leads to the rest of the list. -/
theorem req_eq (h : Lists μ l r) {pre post : List MutexId} (hr : r t = pre ++ post) :
    μ.req t (Thread.lastLink pre) = post.head? := by
  have hc := h.chain t
  rw [hr] at hc
  rcases List.eq_nil_or_concat' pre with rfl | ⟨pre', k, rfl⟩
  · exact hc.head_eq
  · rw [Thread.lastLink_concat]
    rw [List.append_assoc] at hc
    exact (Chain.next_mid (l := pre') hc).head_eq

/-- Mutexes that no one waits for may change their owner. -/
theorem congr (h : Lists μ l r) (hn : ∀ m, (μ'.mutex m).reqnext = (μ.mutex m).reqnext)
    (ho : ∀ m, l (.mutex m) ≠ [] → (μ'.mutex m).owner = (μ.mutex m).owner)
    (hr : ∀ t, (μ'.th t).reqs = (μ.th t).reqs ∨ r t = [] ∧ (μ'.th t).reqs = none)
    (hl : ∀ m, l' (.mutex m) = l (.mutex m)) : Lists μ' l' r := by
  refine ⟨fun t => ?_, h.nodup, fun m hm => ?_, fun t m hm => ?_, fun m hm => ?_,
    fun m t hm => ?_⟩
  · simp only [hn]
    rcases hr t with e | ⟨e, e'⟩
    · rw [e]
      exact h.chain t
    · rw [e, e']
      rfl
  · rw [hl] at hm
    rw [ho m hm]
    exact h.mem m hm
  · obtain ⟨h1, h2⟩ := h.only t m hm
    rw [ho m h2, hl]
    exact ⟨h1, h2⟩
  · rw [hn]
    exact h.null m (hl m ▸ hm)
  · rw [hl] at hm
    rw [ho m (List.ne_nil_of_mem hm)]
    exact h.other m t hm

/-- The thread `t` requests a mutex and waits for it. -/
theorem ask (h : Lists μ l r) (hr : request m μ = .ok μ') (hrel : Relink μ' μ'')
    (hq : (μ.mutex m).qhead = none ↔ l (.mutex m) = []) (hot : (μ.mutex m).owner ≠ t)
    (hl : ∀ k, l' (.mutex k) = if k = m then l (.mutex m) ++ [t] else l (.mutex k)) :
    ∃ r', Lists μ'' l' r' := by
  have hmem : ∀ k x, x ∈ l' (.mutex k) → x ∈ l (.mutex k) ∨ x = t ∧ k = m := by
    intro k x hx
    rw [hl] at hx
    split at hx
    · rename_i e
      rcases List.mem_append.1 hx with hx | hx
      · exact .inl (e ▸ hx)
      · exact .inr ⟨List.mem_singleton.1 hx, e⟩
    · exact .inl hx
  rcases request_ok hr with ⟨hne, rfl⟩ | ⟨hno, -, rfl⟩
  · have hlm : l (.mutex m) ≠ [] := fun e => hne (hq.2 e)
    refine ⟨r, fun x => ?_, h.nodup, fun k hk => ?_, fun x k hk => ?_, fun k hk => ?_,
      fun k x hk => ?_⟩
    · simp only [hrel.reqnext, hrel.reqs]
      exact h.chain x
    · rw [hrel.owner]
      refine h.mem k ?_
      rw [hl] at hk
      split at hk
      · rename_i e
        exact e ▸ hlm
      · exact hk
    · obtain ⟨h1, h2⟩ := h.only x k hk
      refine ⟨(hrel.owner k).trans h1, ?_⟩
      rw [hl]
      split
      · simp
      · exact h2
    · rw [hl] at hk
      rw [hrel.reqnext]
      split at hk
      · simp at hk
      · exact h.null k hk
    · rw [hrel.owner]
      rcases hmem k x hk with hx | ⟨rfl, rfl⟩
      · exact h.other k x hx
      · exact hot
  · have hlm : l (.mutex m) = [] := hq.1 hno
    have hnot : ∀ x, m ∉ r x := fun x hx => (h.only x m hx).2 hlm
    set tc := (μ.mutex m).owner with htc
    have hreqs : ∀ x, (μ''.th x).reqs = if x = tc then some m else (μ.th x).reqs := by
      intro x
      rw [hrel.reqs, requested, Mem.setTh_th]
      split <;> rfl
    have hnext : ∀ k, (μ''.mutex k).reqnext =
        if k = m then (μ.th tc).reqs else (μ.mutex k).reqnext := by
      intro k
      rw [hrel.reqnext, requested_mutex]
    have ho : ∀ k, (μ''.mutex k).owner = (μ.mutex k).owner := by
      intro k
      rw [hrel.owner, requested_mutex]
    have hold : ∀ x, Chain (fun k => (μ''.mutex k).reqnext) (μ.th x).reqs (r x) := by
      intro x
      refine (h.chain x).congr fun k hk => ?_
      have hkm : k ≠ m := by
        rintro rfl
        exact hnot x hk
      rw [hnext, if_neg hkm]
    refine ⟨Function.update r tc (m :: r tc), fun x => ?_, fun x => ?_, fun k hk => ?_,
      fun x k hk => ?_, fun k hk => ?_, fun k x hk => ?_⟩
    · rw [hreqs]
      by_cases e : x = tc
      · rw [e, if_pos rfl, Function.update_self]
        refine ⟨rfl, ?_⟩
        have e' : (μ''.mutex m).reqnext = (μ.th tc).reqs := by rw [hnext, if_pos rfl]
        show Chain _ (μ''.mutex m).reqnext _
        rw [e']
        exact hold tc
      · rw [if_neg e, Function.update_of_ne e]
        exact hold x
    · by_cases e : x = tc
      · rw [e, Function.update_self]
        exact List.nodup_cons.2 ⟨hnot tc, h.nodup tc⟩
      · rw [Function.update_of_ne e]
        exact h.nodup x
    · rw [ho]
      by_cases e : k = m
      · rw [e, ← htc, Function.update_self]
        exact List.mem_cons_self
      · rw [hl, if_neg e] at hk
        have := h.mem k hk
        by_cases e' : (μ.mutex k).owner = tc
        · rw [e', Function.update_self]
          exact List.mem_cons_of_mem _ (e' ▸ this)
        · rw [Function.update_of_ne e']
          exact this
    · have hold' : k ∈ r x → (μ''.mutex k).owner = x ∧ l' (.mutex k) ≠ [] := by
        intro hk
        obtain ⟨h1, h2⟩ := h.only x k hk
        refine ⟨(ho k).trans h1, ?_⟩
        rw [hl]
        split
        · simp
        · exact h2
      by_cases e : x = tc
      · subst e
        rw [Function.update_self] at hk
        rcases List.mem_cons.1 hk with rfl | hk
        · refine ⟨ho k, ?_⟩
          rw [hl, if_pos rfl]
          simp
        · exact hold' hk
      · rw [Function.update_of_ne e] at hk
        exact hold' hk
    · rw [hl] at hk
      split at hk
      · simp at hk
      · rename_i e
        rw [hnext, if_neg e]
        exact h.null k hk
    · rw [ho]
      rcases hmem k x hk with hx | ⟨rfl, rfl⟩
      · exact h.other k x hx
      · exact hot

/-- The thread `t` hands over the mutex `m`, which it has on its list behind `pre`. -/
theorem give {p : Tid → Option Queue} {pre post : List MutexId} {μ₁ : Mem} (h : Lists μ l r)
    (hrt : r t = pre ++ m :: post)
    (h1 : μ₁ = μ.setReq t (Thread.lastLink pre) (μ.mutex m).reqnext)
    (hl : l (.mutex m) = tn :: ts) (w : Transfers m tn μ₁ μ' p l ts)
    (hnd : (tn :: ts).Nodup) :
    ∃ r', Lists μ' (moved l (.mutex m) [tn] ts) r' ∧ r' t = pre ++ post := by
  have hot : (μ.mutex m).owner = t := (h.only t m (by rw [hrt]; simp)).1
  have htn : tn ≠ t := by
    rintro rfl
    exact h.other m tn (by rw [hl]; exact List.mem_cons_self) hot
  have hndt : (pre ++ m :: post).Nodup := hrt ▸ h.nodup t
  have hmt : m ∉ pre ++ post := (List.nodup_middle.1 hndt |> List.nodup_cons.1).1
  have hmr : ∀ x, x ≠ t → m ∉ r x := fun x hx hm => hx ((h.only x m hm).1.symm.trans hot)
  have hpre : ∀ x k, x ≠ t → k ∈ r x → Thread.lastLink pre ≠ .next k := by
    intro x k hx hk e
    have : k ∈ r t := by
      rw [hrt]
      exact List.mem_append_left _ (Thread.mem_of_lastLink e)
    exact hx ((h.only x k hk).1.symm.trans (h.only t k this).1)
  have hnext1 : ∀ k, (μ₁.mutex k).reqnext =
      if Thread.lastLink pre = .next k then (μ.mutex m).reqnext else (μ.mutex k).reqnext := by
    intro k
    rw [h1]
    cases hp : Thread.lastLink pre with
    | head => simp [Mem.setReq]
    | next k' =>
      simp only [Mem.setReq, Mem.setMutex_mutex, Link.next.injEq]
      by_cases e : k = k'
      · rw [if_pos e, if_pos e.symm]
      · rw [if_neg e, if_neg (Ne.symm e)]
  have hreqs1 : ∀ x, (μ₁.th x).reqs =
      if x = t ∧ Thread.lastLink pre = .head then (μ.mutex m).reqnext else (μ.th x).reqs := by
    intro x
    rw [h1]
    cases hp : Thread.lastLink pre with
    | head =>
      simp only [Mem.setReq, Mem.setTh_th, and_true]
      split <;> rfl
    | next k' => simp [Mem.setReq]
  have ho1 : ∀ k, (μ₁.mutex k).owner = (μ.mutex k).owner := fun k => by
    rw [h1]
    exact (setReq_mutex μ t _ _ k).1
  have hnext : ∀ k, (μ'.mutex k).reqnext =
      if k = m then (if ts = [] then none else (μ₁.th tn).reqs) else (μ₁.mutex k).reqnext := by
    intro k
    by_cases e : k = m
    · rw [e, if_pos rfl, w.reqnext]
    · rw [if_neg e, w.others k e]
  have hreqs : ∀ x, (μ'.th x).reqs = if x = tn ∧ ts ≠ [] then some m else (μ₁.th x).reqs := by
    intro x
    obtain ⟨v, e⟩ := w.th x
    rw [e]
  have ho : ∀ k, (μ'.mutex k).owner = if k = m then tn else (μ.mutex k).owner := by
    intro k
    by_cases e : k = m
    · rw [e, if_pos rfl, w.owner]
    · rw [if_neg e, w.others k e, ho1]
  have hlm : ∀ k, moved l (.mutex m) [tn] ts (.mutex k) = if k = m then ts else l (.mutex k) := by
    intro k
    simp [moved]
  have hreqstn : (μ₁.th tn).reqs = (μ.th tn).reqs := by
    rw [hreqs1, if_neg (fun e => htn e.1)]
  have hold : ∀ x, x ≠ t → Chain (fun k => (μ'.mutex k).reqnext) (μ.th x).reqs (r x) := by
    intro x hx
    refine (h.chain x).congr fun k hk => ?_
    have hkm : k ≠ m := by
      rintro rfl
      exact hmr x hx hk
    rw [hnext, if_neg hkm, hnext1, if_neg (hpre x k hx hk)]
  refine ⟨fun x => if x = t then pre ++ post else if x = tn ∧ ts ≠ [] then m :: r x else r x,
    ⟨fun x => ?_, fun x => ?_, fun k hk => ?_, fun x k hk => ?_, fun k hk => ?_, fun k x hk => ?_⟩,
    if_pos rfl⟩
  · by_cases e : x = t
    · subst e
      have hc := Thread.chain_erase (hrt ▸ h.chain x :
        Chain (fun m => (μ.mutex m).reqnext) (μ.th x).reqs (pre ++ m :: post)) hndt
      have e1 : (μ'.th x).reqs =
          if Thread.lastLink pre = .head then (μ.mutex m).reqnext else (μ.th x).reqs := by
        rw [hreqs, if_neg (fun e => htn e.1.symm), hreqs1]
        simp
      rw [if_pos rfl, e1]
      refine hc.congr fun k hk => ?_
      have hkm : k ≠ m := by
        rintro rfl
        exact hmt hk
      rw [hnext, if_neg hkm, hnext1]
    · rw [if_neg e, hreqs]
      split
      · rename_i e'
        obtain ⟨rfl, hts⟩ := e'
        refine ⟨rfl, ?_⟩
        have e2 : (μ'.mutex m).reqnext = (μ.th x).reqs := by
          rw [hnext, if_pos rfl, if_neg hts, hreqstn]
        show Chain _ (μ'.mutex m).reqnext _
        rw [e2]
        exact hold x e
      · rw [hreqs1, if_neg (fun e' => e e'.1)]
        exact hold x e
  · by_cases e : x = t
    · rw [if_pos e]
      exact (List.nodup_cons.1 (List.nodup_middle.1 hndt)).2
    · rw [if_neg e]
      split
      · exact List.nodup_cons.2 ⟨hmr x e, h.nodup x⟩
      · exact h.nodup x
  · rw [hlm] at hk
    rw [ho]
    by_cases e : k = m
    · rw [if_pos e] at hk
      rw [if_pos e, if_neg htn, if_pos ⟨rfl, hk⟩, e]
      exact List.mem_cons_self
    · rw [if_neg e] at hk
      rw [if_neg e]
      have hkr := h.mem k hk
      by_cases e' : (μ.mutex k).owner = t
      · rw [if_pos e']
        rw [e', hrt] at hkr
        simpa [e] using hkr
      · rw [if_neg e']
        split
        · exact List.mem_cons_of_mem _ hkr
        · exact hkr
  · have hold' : k ≠ m → k ∈ r x →
        (μ'.mutex k).owner = x ∧ moved l (.mutex m) [tn] ts (.mutex k) ≠ [] := by
      intro hkm hkr
      obtain ⟨h2, h3⟩ := h.only x k hkr
      rw [ho, hlm, if_neg hkm, if_neg hkm]
      exact ⟨h2, h3⟩
    by_cases e : x = t
    · rw [if_pos e] at hk
      have hkm : k ≠ m := by
        rintro rfl
        exact hmt hk
      refine hold' hkm ?_
      rw [e, hrt]
      rcases List.mem_append.1 hk with hk | hk
      · exact List.mem_append_left _ hk
      · exact List.mem_append_right _ (List.mem_cons_of_mem _ hk)
    · rw [if_neg e] at hk
      split at hk
      · rename_i e'
        rcases List.mem_cons.1 hk with rfl | hk
        · rw [ho, hlm, if_pos rfl, if_pos rfl]
          exact ⟨e'.1.symm, e'.2⟩
        · exact hold' (fun ek => hmr x e (ek ▸ hk)) hk
      · exact hold' (fun ek => hmr x e (ek ▸ hk)) hk
  · rw [hlm] at hk
    rw [hnext]
    by_cases e : k = m
    · rw [if_pos e] at hk
      rw [if_pos e, if_pos hk]
    · rw [if_neg e] at hk
      rw [if_neg e, hnext1, if_neg ?_]
      · exact h.null k hk
      · intro e'
        have : k ∈ r t := by
          rw [hrt]
          exact List.mem_append_left _ (Thread.mem_of_lastLink e')
        exact (h.only t k this).2 hk
  · rw [hlm] at hk
    rw [ho]
    by_cases e : k = m
    · rw [if_pos e] at hk
      rw [if_pos e]
      rintro rfl
      exact (List.nodup_cons.1 hnd).1 hk
    · rw [if_neg e] at hk
      rw [if_neg e]
      exact h.other k x hk

end Lists

/-! ## Code that leaves the lists alone -/

/-- The request lists are the same, but for a new thread, no thread was blocked, and the threads
that were made ready do not wait for a mutex. -/
structure Keeps (N : ℕ) (μ μ' : Mem) : Prop where
  reqnext : ∀ m, (μ'.mutex m).reqnext = (μ.mutex m).reqnext
  reqs : ∀ x, (μ'.th x).reqs = (μ.th x).reqs ∨
    (μ.th x).state = .free ∧ (μ'.th x).reqs = none
  state : ∀ x, (μ'.th x).state = (μ.th x).state ∨ (μ'.th x).state = .run ∨
    (μ.th x).state = .exit ∧ (μ'.th x).state = .free
  woken : ∀ x m, (μ'.th x).state = .run → (μ'.th x).eip = .grab m →
    (μ.th x).state = .run ∧ (μ.th x).eip = .grab m
  bound : ∀ x, (μ'.th x).state ≠ .free → (μ.th x).state ≠ .free ∨ x < N

namespace Keeps

variable {N : ℕ} {μ μ' : Mem}

theorem of_th (hm : ∀ m, (μ'.mutex m).reqnext = (μ.mutex m).reqnext) (ht : μ'.th = μ.th) :
    Keeps N μ μ' := by
  refine ⟨hm, fun x => .inl ?_, fun x => .inl ?_, fun x m h1 h2 => ?_, fun x hx => .inl ?_⟩
  · rw [ht]
  · rw [ht]
  · rw [ht] at h1 h2
    exact ⟨h1, h2⟩
  · rwa [ht] at hx

theorem refl (μ : Mem) : Keeps N μ μ := of_th (fun _ => rfl) rfl

theorem setMutex {m : MutexId} {f : Mutex → Mutex}
    (hf : (f (μ.mutex m)).reqnext = (μ.mutex m).reqnext) : Keeps N μ (μ.setMutex m f) := by
  refine of_th (fun k => ?_) rfl
  rw [Mem.setMutex_mutex]
  split
  · rename_i e
    rw [hf, e]
  · rfl

theorem of_quiet (h : Quiet μ μ') (hm : ∀ m, (μ'.mutex m).reqnext = (μ.mutex m).reqnext)
    (hr : ∀ x, (μ'.th x).reqs = (μ.th x).reqs) : Keeps N μ μ' := by
  refine ⟨hm, fun x => .inl (hr x), fun x => ?_, fun x m h1 h2 => ?_,
    fun x hx => .inl fun e => ?_⟩
  · rcases h.state x with e | e
    · exact .inl e
    · exact .inr (.inr e)
  · rw [h.eip] at h2
    rcases h.state x with e | ⟨-, e⟩
    · exact ⟨e ▸ h1, h2⟩
    · rw [e] at h1
      cases h1
  · rcases h.state x with e' | ⟨e', -⟩
    · exact hx (e'.trans e)
    · rw [e] at e'
      cases e'

/-- The threads `ts` are made ready. -/
theorem of_wake (ts : List Tid) (hm : ∀ m, (μ'.mutex m).reqnext = (μ.mutex m).reqnext)
    (hr : ∀ x, (μ'.th x).reqs = (μ.th x).reqs) (he : ∀ x, (μ'.th x).eip = (μ.th x).eip)
    (hs : ∀ x, (μ'.th x).state = if x ∈ ts then .run else (μ.th x).state)
    (hts : ∀ x ∈ ts, (μ.th x).state ≠ .free ∧ ∀ m, (μ.th x).eip ≠ .grab m) : Keeps N μ μ' := by
  refine ⟨hm, fun x => .inl (hr x), fun x => ?_, fun x m h1 h2 => ?_, fun x hx => .inl ?_⟩
  · rw [hs]
    split
    · exact .inr (.inl rfl)
    · exact .inl rfl
  · rw [he] at h2
    rw [hs] at h1
    split at h1
    · rename_i hx
      exact absurd h2 ((hts x hx).2 m)
    · exact ⟨h1, h2⟩
  · rw [hs] at hx
    split at hx
    · rename_i hxt
      exact (hts x hxt).1
    · exact hx

/-- A thread that does not run did not run before. -/
theorem not_run (h : Keeps N μ μ') {x : Tid} (hx : (μ'.th x).state ≠ .run) :
    (μ.th x).state ≠ .run := by
  rcases h.state x with e | e | ⟨e, -⟩
  · rwa [e] at hx
  · exact absurd e hx
  · rw [e]
    simp

/-- A thread that has exited had exited before. -/
theorem not_live (h : Keeps N μ μ') {x : Tid} (hx : ¬ Live μ' x) : ¬ Live μ x := by
  unfold Live at hx ⊢
  rcases h.state x with e | e | ⟨e, -⟩
  · rwa [e] at hx
  · rw [e] at hx
    simp at hx
  · rw [e]
    simp

end Keeps

section

variable {N : ℕ} {s : Sys} {p : Tid → Option Queue} {l : Queue → List Tid} {t : Tid}

/-- A thread that waits on a condition variable resumes before `mutexlock`. -/
theorem Sched.eip_of_cond (h : Sched s p l) {x : Tid} (hx : (s.mem.th x).state = .cond) :
    ∃ m, (s.mem.th x).eip = .lock m := by
  have hsp := h.spots.spot x
  rw [hx] at hsp
  generalize s.up x = up, s.cur x = cur, p x = q at hsp
  cases hsp with
  | cond he => exact ⟨_, he⟩
  | gone hg => simp at hg

/-- The joiner of a thread that exits is blocked in `pthread_join`. -/
theorem Sched.joiner_of_exit (h : Sched s p l) (hw : s.who = .thread t)
    (hpc : s.pc t = .exitSync) {j : Tid} (hj : (s.mem.th t).joiner = some j) :
    s.cur j = false ∧ p j = none ∧ (s.mem.th j).state = .mutex ∧
      (s.mem.th j).eip = .joinFree t := by
  have hlive : Live s.mem t := by
    unfold Live
    rw [h.cur_state hw]
    exact ⟨by simp, by simp⟩
  rcases h.spots.joiner t j hlive hj with (⟨hc, hi⟩ | hx) | ⟨-, hi⟩
  · rw [Sys.eq_of_cur hw hc, hpc] at hi
    exact hi.elim
  · exact hx
  · rw [hpc] at hi
    exact hi.elim

theorem exec_keeps {pc pc' : Pc} {μ' : Mem} {notes : List Note} (hs : Sched s p l)
    (hw : s.who = .thread t) (hpc : s.pc t = pc) (h1 : ∀ m, pc ≠ .lockIf m)
    (h2 : ∀ mp a, pc ≠ .reqs mp a) (he : exec N t pc s.mem = .ok (μ', pc', notes)) :
    Keeps N s.mem μ' := by
  cases pc with
  | lock m =>
    simp only [exec, bind_ok, check_ok, exists_const] at he
    obtain ⟨-, he⟩ := he
    split at he <;>
    · simp only [pure_ok, Prod.mk.injEq] at he
      obtain ⟨rfl, rfl, rfl⟩ := he
      exact .refl _
  | lockCall m | waitCall c m | createCall d | joinCall tj | exitCall =>
    simp only [exec, bind_ok, check_ok, exists_const, pure_ok, Prod.mk.injEq] at he
    obtain ⟨-, rfl, rfl, rfl⟩ := he
    exact .refl _
  | lockSync m =>
    simp only [exec, bind_ok, pure_ok, Prod.mk.injEq] at he
    obtain ⟨μ', h1, rfl, rfl, rfl⟩ := he
    rcases steal_ok h1 with rfl | ⟨-, -, -, -, rfl⟩
    · exact .refl _
    · exact .setMutex rfl
  | lockIf m => exact absurd rfl (h1 m)
  | grab m =>
    simp only [exec, bind_ok, check_ok, exists_const, pure_ok, Prod.mk.injEq] at he
    obtain ⟨-, -, rfl, rfl, rfl⟩ := he
    exact .refl _
  | setLocked m | clearLocked m =>
    simp only [exec, pure_ok, Prod.mk.injEq] at he
    obtain ⟨rfl, rfl, rfl⟩ := he
    exact .setMutex rfl
  | tryLock m =>
    simp only [exec] at he
    split at he
    · simp only [pure_ok, Prod.mk.injEq] at he
      obtain ⟨rfl, rfl, rfl⟩ := he
      exact .refl _
    · simp only [bind_ok, check_ok, exists_const, pure_ok, Prod.mk.injEq] at he
      obtain ⟨-, rfl, rfl, rfl⟩ := he
      exact .refl _
  | unlock m =>
    simp only [exec, bind_ok, check_ok, exists_const, pure_ok, Prod.mk.injEq] at he
    obtain ⟨-, -, -, rfl, rfl, rfl⟩ := he
    exact .refl _
  | test c b =>
    simp only [exec] at he
    split at he
    · simp only [pure_ok, Prod.mk.injEq] at he
      obtain ⟨rfl, rfl, rfl⟩ := he
      exact .refl _
    · simp only [bind_ok, check_ok, exists_const, pure_ok, Prod.mk.injEq] at he
      obtain ⟨-, rfl, rfl, rfl⟩ := he
      exact .of_th (fun _ => rfl) rfl
  | link c b =>
    simp only [exec] at he
    split at he
    · simp only [bind_ok, check_ok, exists_const, pure_ok, Prod.mk.injEq] at he
      obtain ⟨-, rfl, rfl, rfl⟩ := he
      exact .of_th (fun _ => rfl) rfl
    · simp only [pure_ok, Prod.mk.injEq] at he
      obtain ⟨rfl, rfl, rfl⟩ := he
      exact .refl _
  | chain c b =>
    simp only [exec, pure_ok, Prod.mk.injEq] at he
    obtain ⟨rfl, rfl, rfl⟩ := he
    exact .of_th (fun _ => rfl) rfl
  | count c b =>
    cases b <;>
    · simp only [exec, pure_ok, Prod.mk.injEq] at he
      obtain ⟨rfl, rfl, rfl⟩ := he
      exact .of_th (fun _ => rfl) rfl
  | waitSync c m =>
    simp only [exec, bind_ok, check_ok, exists_const, pure_ok, Prod.mk.injEq] at he
    obtain ⟨-, -, -, -, -, -, pc', h3, rfl, rfl, rfl⟩ := he
    have hr := Relink.enqueue s.mem (.cond c) t
    have hq : Quiet s.mem
        ((s.mem.enqueue (.cond c) t).setMutex m fun x => { x with locked := false }) :=
      ⟨hr.eip, hr.joiner, fun x => .inl (hr.state x)⟩
    refine .of_quiet hq (fun k => ?_) hr.reqs
    rw [Mem.setMutex_mutex]
    split
    · rename_i e
      rw [e]
      exact hr.reqnext m
    · exact hr.reqnext k
  | createSync d =>
    simp only [exec, bind_ok, pure_ok, Prod.mk.injEq] at he
    obtain ⟨μ', h1, rfl, rfl, rfl⟩ := he
    unfold create at h1
    split at h1
    · cases h1
    · rename_i u hu
      have hu' := List.find?_some hu
      simp only [decide_eq_true_eq] at hu'
      have ha := tready_awakes h1
      have hne : ∀ x, x ∉ [u] → x ≠ u := fun x hx => by simpa using hx
      refine ⟨fun m => by rw [ha.mutex]; rfl, fun x => ?_, fun x => ?_, fun x m h1 h2 => ?_,
        fun x hx => ?_⟩
      · rw [ha.reqs, Mem.setTh_th]
        split
        · rename_i e
          exact .inr ⟨e ▸ hu'.2, rfl⟩
        · exact .inl rfl
      · rw [ha.state]
        split
        · exact .inr (.inl rfl)
        · rename_i hx
          rw [Mem.setTh_th, if_neg (hne x hx)]
          exact .inl rfl
      · rw [ha.eip, Mem.setTh_th] at h2
        split at h2
        · cases h2
        · rename_i hx
          rw [ha.state, if_neg (by simpa using hx), Mem.setTh_th, if_neg hx] at h1
          exact ⟨h1, h2⟩
      · by_cases e : x = u
        · rw [e]
          exact .inr (List.mem_range.1 (List.mem_of_find?_eq_some hu))
        · rw [ha.state, if_neg (by simpa using e), Mem.setTh_th, if_neg e] at hx
          exact .inl hx
  | join tj =>
    simp only [exec, bind_ok, check_ok, exists_const] at he
    obtain ⟨-, -, he⟩ := he
    split at he <;>
    · simp only [pure_ok, Prod.mk.injEq] at he
      obtain ⟨rfl, rfl, rfl⟩ := he
      exact .refl _
  | joinSync tj =>
    simp only [exec] at he
    split at he
    · simp only [bind_ok, check_ok, exists_const, pure_ok, Prod.mk.injEq] at he
      obtain ⟨-, -, pc', h3, rfl, rfl, rfl⟩ := he
      have hth : ∀ x, (s.mem.setTh tj fun x => { x with joiner := some t }).th x =
          { s.mem.th x with joiner := if x = tj then some t else (s.mem.th x).joiner } := by
        intro x
        rw [Mem.setTh_th]
        split
        · rename_i e
          rw [e]
        · rfl
      refine .of_wake [] (fun _ => rfl) (fun x => ?_) (fun x => ?_) (fun x => ?_) ?_
      · rw [hth]
      · rw [hth]
      · rw [hth]
        simp
      · simp
    · simp only [pure_ok, Prod.mk.injEq] at he
      obtain ⟨rfl, rfl, rfl⟩ := he
      exact .refl _
  | joinFree tj =>
    simp only [exec, bind_ok, check_ok, exists_const, pure_ok, Prod.mk.injEq] at he
    obtain ⟨hx, rfl, rfl, rfl⟩ := he
    refine .of_quiet (.setTh rfl rfl (.inr ⟨hx, rfl⟩)) (fun _ => rfl) fun x => ?_
    rw [Mem.setTh_th]
    split
    · rename_i e
      rw [e]
    · rfl
  | exitSync =>
    simp only [exec, bind_ok, check_ok, exists_const, pure_ok, Prod.mk.injEq] at he
    obtain ⟨-, μ', h1, pc', h3, rfl, rfl, rfl⟩ := he
    unfold wakeJoiner at h1
    split at h1
    · simp only [pure_ok] at h1
      rw [h1]
      exact .refl _
    · rename_i j hj
      obtain ⟨-, -, hsj, hej⟩ := hs.joiner_of_exit hw hpc hj
      have ha := tready_awakes h1
      refine .of_wake [j] (fun m => ?_) ha.reqs ha.eip ha.state fun x hx => ?_
      · rw [ha.mutex]
      · obtain rfl := List.mem_singleton.1 hx
        rw [hsj, hej]
        exact ⟨by simp, by simp⟩
  | ret =>
    simp only [exec, bind_ok, check_ok, exists_const] at he
    obtain ⟨-, he⟩ := he
    split at he
    · simp only [pure_ok, Prod.mk.injEq] at he
      obtain ⟨rfl, rfl, rfl⟩ := he
      exact .of_th (fun _ => rfl) rfl
    · simp only [bind_ok, check_ok, exists_const, pure_ok, Prod.mk.injEq] at he
      obtain ⟨-, rfl, rfl, rfl⟩ := he
      exact .of_th (fun _ => rfl) rfl
  | events a =>
    simp only [exec] at he
    split at he
    · simp only [pure_ok, Prod.mk.injEq] at he
      obtain ⟨rfl, rfl, rfl⟩ := he
      exact .refl _
    · simp only [bind_ok, pure_ok, Prod.exists, Prod.mk.injEq] at he
      obtain ⟨μ', ts, h1, rfl, rfl, rfl⟩ := he
      obtain ⟨rest, w⟩ := condwakeups_spec hs.queued h1
      have hth : ∀ x, (μ'.th x).reqs = (s.mem.th x).reqs ∧ (μ'.th x).eip = (s.mem.th x).eip ∧
          (μ'.th x).state = if x ∈ ts then .run else (s.mem.th x).state := by
        intro x
        obtain ⟨v, e⟩ := w.th x
        rw [e]
        exact ⟨rfl, rfl, rfl⟩
      refine .of_wake ts (fun m => ?_) (fun x => (hth x).1) (fun x => (hth x).2.1)
        (fun x => (hth x).2.2) fun x hx => ?_
      · rw [w.mutex]
      · obtain ⟨m, e⟩ := hs.eip_of_cond (w.waited x hx)
        rw [w.waited x hx, e]
        exact ⟨by simp, by simp⟩
  | reqs mp a => exact absurd rfl (h2 mp a)
  | user | done | dead | failed =>
    simp only [exec, pure_ok, Prod.mk.injEq] at he
    obtain ⟨rfl, rfl, rfl⟩ := he
    exact .refl _

end

/-! ## The invariant -/

/-- The assertions of `mutexlock`, `mutexreqs`, `trun` and `tready`. -/
def Site.ofQueues : Site → Bool
  | .mutexlock | .mutexreqs | .trun | .tready => true
  | _ => false

/-- Thread `t` owns no locked mutex. -/
def Clean (μ : Mem) (t : Tid) : Prop := ∀ m, (μ.mutex m).owner = t → (μ.mutex m).locked = false

/-- What the master's thread has done about its requests at a program point: `mutexreqs` has
walked the part `pre` of its list, and left only locked mutexes there. -/
def Scan (μ : Mem) (r : Tid → List MutexId) (t : Tid) : Pc → Prop
  | .lockIf m => (μ.mutex m).owner = t ∨ (μ.mutex m).locked = true ∨
      (μ.th (μ.mutex m).owner).state = .run
  | .grab m => (μ.mutex m).owner = t
  | .events a => a = .exit → Clean μ t
  | .reqs mp a => (∃ pre post, r t = pre ++ post ∧ mp = Thread.lastLink pre ∧
      ∀ m ∈ pre, (μ.mutex m).locked = true) ∧ (a = .exit → Clean μ t)
  | .done a => (∀ m ∈ r t, (μ.mutex m).locked = true) ∧ (a = .exit → Clean μ t)
  | .failed w => w.ofQueues = false
  | _ => True

/-- The invariant of the requests. -/
structure Requests (N : ℕ) (s : Sys) (l : Queue → List Tid) (r : Tid → List MutexId) : Prop where
  lists : Lists s.mem l r
  locked : ∀ m, l (.mutex m) ≠ [] → (s.mem.th (s.mem.mutex m).owner).state ≠ .run →
    (s.mem.mutex m).locked = true
  gone : ∀ m, ¬ Live s.mem (s.mem.mutex m).owner → (s.mem.mutex m).locked = false
  child : ∀ x m, s.up x = true → s.pc x = .lockIf m ∨ s.pc x = .grab m →
    (s.mem.mutex m).owner = x
  woken : ∀ x m, (s.mem.th x).state = .run → s.up x = false → s.cur x = false →
    (s.mem.th x).eip = .grab m → (s.mem.mutex m).owner = x
  scan : ∀ x, s.cur x = true → Scan s.mem r x (s.pc x)
  bound : ∀ x, (s.mem.th x).state ≠ .free → x < N
  sites : ∀ x w, s.pc x = .failed w → w.ofQueues = false

namespace Requests

variable {N : ℕ} {s s' : Sys} {p : Tid → Option Queue} {l l' : Queue → List Tid}
  {r : Tid → List MutexId} {t : Tid} {μ : Mem} {pc : Pc} {notes : List Note}

/-- No one waits for a mutex of an exited thread. -/
theorem list_of_gone (h : Requests N s l r) (ht : ¬ Live s.mem t) : r t = [] := by
  refine List.eq_nil_iff_forall_not_mem.2 fun m hm => ?_
  obtain ⟨rfl, hl⟩ := h.lists.only t m hm
  have hr : (s.mem.th (s.mem.mutex m).owner).state ≠ .run := by
    intro e
    apply ht
    unfold Live
    rw [e]
    exact ⟨by simp, by simp⟩
  have h1 := h.locked m hl hr
  rw [h.gone m ht] at h1
  cases h1

/-- A step that leaves the request lists alone: the running thread `t` may have stolen a mutex
from a blocked thread, and changed the flags of its own mutexes. -/
theorem keep (h : Requests N s l r) (hk : Keeps N s.mem s'.mem)
    (hrun : (s.mem.th t).state = .run)
    (ho : ∀ m, (s'.mem.mutex m).owner = (s.mem.mutex m).owner ∨
      (s'.mem.mutex m).owner = t ∧ (s.mem.mutex m).locked = false ∧
        (s.mem.th (s.mem.mutex m).owner).state ≠ .run)
    (hf : ∀ m, (s'.mem.mutex m).locked = (s.mem.mutex m).locked ∨ (s.mem.mutex m).owner = t)
    (hl : ∀ m, l' (.mutex m) = l (.mutex m))
    (hchild : ∀ x m, s'.up x = true → s'.pc x = .lockIf m ∨ s'.pc x = .grab m →
      (s.mem.th x).state = .run ∧ (s.mem.mutex m).owner = x)
    (hwoken : ∀ x, (s.mem.th x).state = .run → s'.up x = false → s'.cur x = false →
      s.up x = false ∧ s.cur x = false)
    (hscan : ∀ x, s'.cur x = true → Scan s'.mem r x (s'.pc x))
    (hsites : ∀ x w, s'.pc x = .failed w → w.ofQueues = false) : Requests N s' l' r := by
  have hkept : ∀ m, l (.mutex m) ≠ [] → (s'.mem.mutex m).owner = (s.mem.mutex m).owner := by
    intro m hm
    refine (ho m).resolve_right fun ⟨_, h2, h3⟩ => ?_
    rw [h.locked m hm h3] at h2
    cases h2
  -- a running thread keeps its mutexes
  have hown : ∀ m x, (s.mem.th x).state = .run → (s.mem.mutex m).owner = x →
      (s'.mem.mutex m).owner = x := by
    rintro m x hx rfl
    exact (ho m).resolve_right fun e => e.2.2 hx
  refine ⟨h.lists.congr hk.reqnext hkept (fun x => ?_) hl, fun m hm hst => ?_, fun m hm => ?_,
    fun x m hu hpc => ?_, fun x m hst hu hc he => ?_, hscan, fun x hx => ?_, hsites⟩
  · rcases hk.reqs x with e | ⟨e, e'⟩
    · exact .inl e
    · refine .inr ⟨h.list_of_gone ?_, e'⟩
      unfold Live
      simp [e]
  · rw [hl] at hm
    rw [hkept m hm] at hst
    have hst' := hk.not_run hst
    rcases hf m with e | e
    · exact e.trans (h.locked m hm hst')
    · rw [e] at hst'
      exact absurd hrun hst'
  · have hlive : ∀ x, (s.mem.th x).state = .run → Live s'.mem x := by
      intro x hx
      by_contra hn
      apply hk.not_live hn
      unfold Live
      rw [hx]
      exact ⟨by simp, by simp⟩
    rcases ho m with e | ⟨e, -⟩
    · rw [e] at hm
      rcases hf m with e' | e'
      · exact e'.trans (h.gone m (hk.not_live hm))
      · rw [e'] at hm
        exact absurd (hlive t hrun) hm
    · rw [e] at hm
      exact absurd (hlive t hrun) hm
  · obtain ⟨h1, h2⟩ := hchild x m hu hpc
    exact hown m x h1 h2
  · obtain ⟨h1, h2⟩ := hk.woken x m hst he
    obtain ⟨h3, h4⟩ := hwoken x h1 hu hc
    exact hown m x h1 (h.woken x m h1 h3 h4 h2)
  · rcases hk.bound x hx with hx | hx
    · exact h.bound x hx
    · exact hx

end Requests

/-! ## The code run by the master -/

theorem steal_cases {t : Tid} {m : MutexId} {μ μ' : Mem} (h : steal t m μ = .ok μ') :
    (μ'.mutex m).owner = t ∨ μ' = μ ∧
      ((μ.mutex m).locked = true ∨ (μ.th (μ.mutex m).owner).state = .run) := by
  by_cases hc : (μ.mutex m).locked = false ∧ (μ.th (μ.mutex m).owner).state ≠ .run
  · unfold steal at h
    rw [if_pos hc] at h
    simp only [bind_ok, check_ok, exists_const, pure_ok] at h
    obtain ⟨-, -, -, rfl⟩ := h
    rw [Mem.setMutex_mutex, if_pos rfl]
    exact .inl rfl
  · unfold steal at h
    rw [if_neg hc] at h
    simp only [pure_ok] at h
    refine .inr ⟨h.symm, ?_⟩
    rw [not_and_or, not_not] at hc
    rcases hc with hc | hc
    · exact .inl (by simpa using hc)
    · exact .inr hc

/-- The program point that code reaches which leaves the lists alone. -/
theorem exec_scan {N : ℕ} {t : Tid} {pc pc' : Pc} {μ μ' : Mem} {notes : List Note}
    {r : Tid → List MutexId} (h1 : ∀ m, pc ≠ .lockIf m) (h2 : ∀ mp a, pc ≠ .reqs mp a)
    (hsc : Scan μ r t pc) (hcl : pc = .exitSync → Clean μ t)
    (he : exec N t pc μ = .ok (μ', pc', notes)) : Scan μ' r t pc' := by
  cases pc with
  | lock m =>
    simp only [exec, bind_ok, check_ok, exists_const] at he
    obtain ⟨-, he⟩ := he
    split at he
    · simp only [pure_ok, Prod.mk.injEq] at he
      obtain ⟨rfl, rfl, rfl⟩ := he
      trivial
    · rename_i ho
      simp only [pure_ok, Prod.mk.injEq] at he
      obtain ⟨rfl, rfl, rfl⟩ := he
      exact .inl (not_not.1 ho)
  | lockSync m =>
    simp only [exec, bind_ok, pure_ok, Prod.mk.injEq] at he
    obtain ⟨μ', h1, rfl, rfl, rfl⟩ := he
    rcases steal_cases h1 with e | ⟨rfl, e⟩
    · exact .inl e
    · exact .inr e
  | lockIf m => exact absurd rfl (h1 m)
  | exitSync =>
    simp only [exec, bind_ok, check_ok, exists_const, pure_ok, Prod.mk.injEq] at he
    obtain ⟨-, μ', h1, pc', h3, rfl, rfl, rfl⟩ := he
    obtain ⟨-, -, rfl⟩ := tblock_ok h3
    intro _ m hm
    have hmu : μ'.mutex = μ.mutex := by
      unfold wakeJoiner at h1
      split at h1
      · simp only [pure_ok] at h1
        rw [h1]
      · exact (tready_awakes h1).mutex
    rw [hmu] at hm ⊢
    exact hcl rfl m hm
  | events a =>
    simp only [exec] at he
    split at he
    · simp only [pure_ok, Prod.mk.injEq] at he
      obtain ⟨rfl, rfl, rfl⟩ := he
      exact ⟨⟨[], r t, rfl, rfl, by simp⟩, hsc⟩
    · simp only [bind_ok, pure_ok, Prod.exists, Prod.mk.injEq] at he
      obtain ⟨μ', ts, h1, rfl, rfl, rfl⟩ := he
      intro ha m hm
      rw [(condwakeups_frame h1).1] at hm ⊢
      exact hsc ha m hm
  | reqs mp a => exact absurd rfl (h2 mp a)
  | waitSync c m =>
    simp only [exec, bind_ok, check_ok, exists_const, pure_ok, Prod.mk.injEq] at he
    obtain ⟨-, -, -, -, -, -, pc', h3, rfl, rfl, rfl⟩ := he
    obtain ⟨-, -, rfl⟩ := tblock_ok h3
    simp [Scan]
  | joinSync tj =>
    simp only [exec] at he
    split at he
    · simp only [bind_ok, check_ok, exists_const, pure_ok, Prod.mk.injEq] at he
      obtain ⟨-, -, pc', h3, rfl, rfl, rfl⟩ := he
      obtain ⟨-, -, rfl⟩ := tblock_ok h3
      simp [Scan]
    · simp only [pure_ok, Prod.mk.injEq] at he
      obtain ⟨rfl, rfl, rfl⟩ := he
      trivial
  | ret =>
    simp only [exec, bind_ok, check_ok, exists_const] at he
    obtain ⟨-, he⟩ := he
    split at he
    · simp only [pure_ok, Prod.mk.injEq] at he
      obtain ⟨rfl, rfl, rfl⟩ := he
      trivial
    · simp only [bind_ok, check_ok, exists_const, pure_ok, Prod.mk.injEq] at he
      obtain ⟨-, rfl, rfl, rfl⟩ := he
      simp [Scan]
  | tryLock m =>
    simp only [exec] at he
    split at he
    · simp only [pure_ok, Prod.mk.injEq] at he
      obtain ⟨rfl, rfl, rfl⟩ := he
      trivial
    · simp only [bind_ok, check_ok, exists_const, pure_ok, Prod.mk.injEq] at he
      obtain ⟨-, rfl, rfl, rfl⟩ := he
      trivial
  | test c b =>
    simp only [exec] at he
    split at he
    · simp only [pure_ok, Prod.mk.injEq] at he
      obtain ⟨rfl, rfl, rfl⟩ := he
      trivial
    · simp only [bind_ok, check_ok, exists_const, pure_ok, Prod.mk.injEq] at he
      obtain ⟨-, rfl, rfl, rfl⟩ := he
      trivial
  | link c b =>
    simp only [exec] at he
    split at he
    · simp only [bind_ok, check_ok, exists_const, pure_ok, Prod.mk.injEq] at he
      obtain ⟨-, rfl, rfl, rfl⟩ := he
      trivial
    · simp only [pure_ok, Prod.mk.injEq] at he
      obtain ⟨rfl, rfl, rfl⟩ := he
      trivial
  | count c b =>
    cases b <;>
    · simp only [exec, pure_ok, Prod.mk.injEq] at he
      obtain ⟨rfl, rfl, rfl⟩ := he
      trivial
  | join tj =>
    simp only [exec, bind_ok, check_ok, exists_const] at he
    obtain ⟨-, -, he⟩ := he
    split at he <;>
    · simp only [pure_ok, Prod.mk.injEq] at he
      obtain ⟨rfl, rfl, rfl⟩ := he
      trivial
  | createSync d =>
    simp only [exec, bind_ok, pure_ok, Prod.mk.injEq] at he
    obtain ⟨μ', h1, rfl, rfl, rfl⟩ := he
    trivial
  | lockCall m | waitCall c m | createCall d | joinCall tj | exitCall | joinFree tj =>
    simp only [exec, bind_ok, check_ok, exists_const, pure_ok, Prod.mk.injEq] at he
    obtain ⟨-, rfl, rfl, rfl⟩ := he
    trivial
  | grab m =>
    simp only [exec, bind_ok, check_ok, exists_const, pure_ok, Prod.mk.injEq] at he
    obtain ⟨-, -, rfl, rfl, rfl⟩ := he
    trivial
  | unlock m =>
    simp only [exec, bind_ok, check_ok, exists_const, pure_ok, Prod.mk.injEq] at he
    obtain ⟨-, -, -, rfl, rfl, rfl⟩ := he
    trivial
  | setLocked | clearLocked | chain | user | dead =>
    simp only [exec, pure_ok, Prod.mk.injEq] at he
    obtain ⟨rfl, rfl, rfl⟩ := he
    trivial
  | done | failed =>
    simp only [exec, pure_ok, Prod.mk.injEq] at he
    obtain ⟨rfl, rfl, rfl⟩ := he
    exact hsc

theorem setReq_eip (μ : Mem) (t : Tid) (mp : Link MutexId) (v : Option MutexId) (x : Tid) :
    ((μ.setReq t mp v).th x).eip = (μ.th x).eip := by
  cases mp with
  | head =>
    simp only [Mem.setReq, Mem.setTh_th]
    split
    · rename_i e
      rw [e]
    · rfl
  | next m' => rfl

/-- A request changes no owner, no flag and no thread's state. -/
theorem request_frame {m : MutexId} {μ μ' : Mem} (h : request m μ = .ok μ') :
    (∀ k, (μ'.mutex k).owner = (μ.mutex k).owner ∧ (μ'.mutex k).locked = (μ.mutex k).locked) ∧
    ∀ x, (μ'.th x).state = (μ.th x).state ∧ (μ'.th x).eip = (μ.th x).eip := by
  rcases request_ok h with ⟨-, rfl⟩ | ⟨-, -, rfl⟩
  · exact ⟨fun _ => ⟨rfl, rfl⟩, fun _ => ⟨rfl, rfl⟩⟩
  · refine ⟨fun k => ?_, fun x => ?_⟩
    · rw [requested_mutex]
      exact ⟨rfl, rfl⟩
    · simp only [requested, Mem.setTh_th]
      split
      · rename_i e
        rw [e]
        exact ⟨rfl, rfl⟩
      · exact ⟨rfl, rfl⟩

namespace Requests

variable {N : ℕ} {s s' : Sys} {p : Tid → Option Queue} {l l' : Queue → List Tid}
  {r : Tid → List MutexId} {t : Tid} {μ μ' : Mem} {pc : Pc} {notes : List Note}

/-- The program points of the other threads do not change. -/
theorem pc_of_up (pc : Pc) (hs : Sched s p l) (hw : s.who = .thread t) {x : Tid} (hx : s.up x = true) :
    Function.update s.pc t pc x = s.pc x := by
  refine Function.update_of_ne ?_ _ _
  rintro rfl
  rw [hs.cur_up hw] at hx
  cases hx

theorem sites_ran {r' : Tid → List MutexId} (h : Requests N s l r) (hpc : Scan μ r' t pc) (x : Tid)
    (w : Site) (hx : Function.update s.pc t pc x = .failed w) : w.ofQueues = false := by
  by_cases e : x = t
  · rw [e, Function.update_self] at hx
    rwa [hx] at hpc
  · rw [Function.update_of_ne e] at hx
    exact h.sites x w hx

/-- The master's thread goes on the queue of a mutex. -/
theorem ask {m : MutexId} (h : Requests N s l r) (hs : Sched s p l) (hw : s.who = .thread t)
    (hpc : s.pc t = .lockIf m) (hot : (s.mem.mutex m).owner ≠ t)
    (h1 : request m s.mem = .ok μ') (h2 : enlist t m μ' = .ok μ) :
    ∃ r', Requests N (s.ran t μ (.events (.lock m)) [])
      (Function.update l (.mutex m) (l (.mutex m) ++ [t])) r' := by
  obtain rfl := enlist_ok h2
  have hr := Relink.enqueue μ' (.mutex m) t
  obtain ⟨hm1, hth1⟩ := request_frame h1
  have ho : ∀ k, ((μ'.enqueue (.mutex m) t).mutex k).owner = (s.mem.mutex k).owner :=
    fun k => (hr.owner k).trans (hm1 k).1
  have hf : ∀ k, ((μ'.enqueue (.mutex m) t).mutex k).locked = (s.mem.mutex k).locked :=
    fun k => (hr.locked k).trans (hm1 k).2
  have hst : ∀ x, ((μ'.enqueue (.mutex m) t).th x).state = (s.mem.th x).state :=
    fun x => (hr.state x).trans (hth1 x).1
  have heip : ∀ x, ((μ'.enqueue (.mutex m) t).th x).eip = (s.mem.th x).eip :=
    fun x => (hr.eip x).trans (hth1 x).2
  have hl : ∀ k, Function.update l (.mutex m) (l (.mutex m) ++ [t]) (.mutex k) =
      if k = m then l (.mutex m) ++ [t] else l (.mutex k) := by
    intro k
    by_cases e : k = m
    · rw [e, Function.update_self, if_pos rfl]
    · rw [Function.update_of_ne (by simpa using e), if_neg e]
  obtain ⟨r', hlists⟩ := h.lists.ask h1 hr (hs.queued.head_none_iff (.mutex m)) hot hl
  have hscan : Scan (μ'.enqueue (.mutex m) t) r' t (.events (.lock m)) := by simp [Scan]
  refine ⟨r', hlists, fun k hk hnr => ?_, fun k hk => ?_, fun x k hu hx => ?_,
    fun x k hx hu hc he => ?_, fun x hx => ?_, fun x hx => ?_,
    h.sites_ran hscan⟩
  · show ((μ'.enqueue (.mutex m) t).mutex k).locked = true
    replace hnr : ((μ'.enqueue (.mutex m) t).th
      ((μ'.enqueue (.mutex m) t).mutex k).owner).state ≠ .run := hnr
    rw [ho, hst] at hnr
    rw [hf]
    by_cases e : k = m
    · subst e
      have hsc := h.scan t (Sys.cur_self hw)
      rw [hpc] at hsc
      rcases hsc with e | e | e
      · exact absurd e hot
      · exact e
      · exact absurd e hnr
    · rw [hl, if_neg e] at hk
      exact h.locked k hk hnr
  · refine (hf k).trans (h.gone k fun hlive => hk ?_)
    show Live (μ'.enqueue (.mutex m) t) ((μ'.enqueue (.mutex m) t).mutex k).owner
    unfold Live
    rw [ho, hst]
    exact hlive
  · refine (ho k).trans (h.child x k hu ?_)
    rwa [← pc_of_up (.events (.lock m)) hs hw hu]
  · exact (ho k).trans (h.woken x k ((hst x).symm.trans hx) hu hc ((heip x).symm.trans he))
  · rw [Sys.eq_of_cur hw hx]
    show Scan _ _ t (Function.update s.pc t _ t)
    rwa [Function.update_self]
  · exact h.bound x fun e => hx ((hst x).trans e)

/-- The master's thread hands over a mutex. -/
theorem give {m : MutexId} {tn : Tid} {mp : Link MutexId} {a : After} {ts : List Tid}
    (h : Requests N s l r) (hs : Sched s p l) (hw : s.who = .thread t)
    (hpc : s.pc t = .reqs mp a) (hreq : s.mem.req t mp = some m)
    (hq : l (.mutex m) = tn :: ts) (hf : (s.mem.mutex m).locked = false)
    (w : Transfers m tn (s.mem.setReq t mp (s.mem.mutex m).reqnext) μ p l ts) :
    ∃ r', Requests N (s.ran t μ (.reqs mp a) []) (moved l (.mutex m) [tn] ts) r' := by
  have hsc := h.scan t (Sys.cur_self hw)
  rw [hpc] at hsc
  obtain ⟨⟨pre, post, hrt, rfl, hpre⟩, hcl⟩ := hsc
  obtain ⟨post, rfl⟩ : ∃ post', post = m :: post' := by
    have e := h.lists.req_eq hrt
    rw [hreq] at e
    cases post with
    | nil => cases e
    | cons k post =>
      cases e
      exact ⟨post, rfl⟩
  have hnd : (tn :: ts).Nodup := hq ▸ (hs.queued.holds (.mutex m)).nodup
  obtain ⟨r', hlists, hr'⟩ := h.lists.give hrt rfl hq w hnd
  have hot : (s.mem.mutex m).owner = t := (h.lists.only t m (by rw [hrt]; simp)).1
  have hsm := setReq_mutex s.mem t (Thread.lastLink pre) (s.mem.mutex m).reqnext
  have hsst := setReq_state s.mem t (Thread.lastLink pre) (s.mem.mutex m).reqnext
  have ho : ∀ k, (μ.mutex k).owner = if k = m then tn else (s.mem.mutex k).owner := by
    intro k
    by_cases e : k = m
    · rw [e, if_pos rfl, w.owner]
    · rw [if_neg e, w.others k e, (hsm k).1]
  have hfl : ∀ k, (μ.mutex k).locked = (s.mem.mutex k).locked := by
    intro k
    by_cases e : k = m
    · rw [e, w.locked, (hsm m).2.1]
    · rw [w.others k e, (hsm k).2.1]
  have hst : ∀ x, (μ.th x).state = if x = tn then .run else (s.mem.th x).state := by
    intro x
    obtain ⟨v, e⟩ := w.th x
    rw [e, hsst]
  have heip : ∀ x, (μ.th x).eip = (s.mem.th x).eip := by
    intro x
    obtain ⟨v, e⟩ := w.th x
    rw [e]
    exact (setReq_eip s.mem t _ _ x)
  have hwt : (s.mem.th tn).state = .mutex := (hsst tn).symm.trans w.waited
  have hptn : p tn = some (.mutex m) := by
    refine (hs.queued.mem tn _).1 ?_
    rw [hq]
    exact List.mem_cons_self
  have hlm : ∀ k, moved l (.mutex m) [tn] ts (.mutex k) = if k = m then ts else l (.mutex k) := by
    intro k
    simp [moved]
  have hclean : Clean s.mem t → Clean μ t := by
    intro hc k hk
    rw [ho] at hk
    split at hk
    · rename_i e
      rw [hfl, e]
      exact hf
    · rw [hfl]
      exact hc k hk
  have hscan : Scan μ r' t (.reqs (Thread.lastLink pre) a) := by
    refine ⟨⟨pre, post, hr', rfl, fun k hk => ?_⟩, fun e => hclean (hcl e)⟩
    rw [hfl]
    exact hpre k hk
  refine ⟨r', hlists, fun k hk hnr => ?_, fun k hk => ?_, fun x k hu hx => ?_,
    fun x k hx hu hc he => ?_, fun x hx => ?_, fun x hx => ?_, h.sites_ran hscan⟩
  · show (μ.mutex k).locked = true
    replace hnr : (μ.th (μ.mutex k).owner).state ≠ .run := hnr
    rw [hlm] at hk
    rw [ho] at hnr
    by_cases e : k = m
    · rw [if_pos e, hst, if_pos rfl] at hnr
      exact absurd rfl hnr
    · rw [if_neg e] at hk hnr
      rw [hst] at hnr
      split at hnr
      · exact absurd rfl hnr
      · rw [hfl]
        exact h.locked k hk hnr
  · show (μ.mutex k).locked = false
    replace hk : ¬ Live μ (μ.mutex k).owner := hk
    rw [hfl]
    unfold Live at hk
    rw [ho] at hk
    by_cases e : k = m
    · rw [e]
      exact hf
    · rw [if_neg e, hst] at hk
      split at hk
      · simp at hk
      · exact h.gone k hk
  · have hne : x ≠ tn := by
      rintro rfl
      have := hs.up_state hu
      rw [hwt] at this
      cases this
    have hxo : (s.mem.mutex k).owner = x := by
      refine h.child x k hu ?_
      rwa [← pc_of_up (.reqs (Thread.lastLink pre) a) hs hw hu]
    show (μ.mutex k).owner = x
    have hkm : k ≠ m := by
      rintro rfl
      rw [← hxo, hot] at hu
      have hu' : s.up t = true := hu
      rw [hs.cur_up hw] at hu'
      cases hu'
    rw [ho, if_neg hkm]
    exact hxo
  · replace hx : (μ.th x).state = .run := hx
    replace he : (μ.th x).eip = .grab k := he
    rw [heip] at he
    show (μ.mutex k).owner = x
    by_cases e : x = tn
    · -- it waited for the mutex that it now owns
      subst e
      have hsp := hs.spots.spot x
      rw [hs.cur_false (by simp [hwt]), hptn, hwt] at hsp
      have hg := hsp.of_mutex
      rw [he] at hg
      injection hg with e
      rw [ho, if_pos e]
    · rw [hst, if_neg e] at hx
      have hxo := h.woken x k hx hu hc he
      have hkm : k ≠ m := by
        rintro rfl
        rw [← hxo, hot] at hc
        have hc' : s.cur t = false := hc
        rw [Sys.cur_self hw] at hc'
        cases hc'
      rw [ho, if_neg hkm]
      exact hxo
  · rw [Sys.eq_of_cur hw hx]
    show Scan _ _ t (Function.update s.pc t _ t)
    rwa [Function.update_self]
  · replace hx : (μ.th x).state ≠ .free := hx
    rw [hst] at hx
    split at hx
    · rename_i e
      refine h.bound x ?_
      rw [e, hwt]
      simp
    · exact h.bound x hx

end Requests

namespace Requests

variable {N : ℕ} {s s' : Sys} {p : Tid → Option Queue} {l l' : Queue → List Tid}
  {r : Tid → List MutexId} {t : Tid} {μ μ' : Mem} {pc : Pc} {notes : List Note}

/-- The master's thread only moves on. -/
theorem walk (h : Requests N s l r) (hs : Sched s p l) (hw : s.who = .thread t) (hμ : μ = s.mem)
    (hscan : Scan μ r t pc) : Requests N (s.ran t μ pc notes) l r := by
  subst hμ
  refine h.keep (t := t) (.refl _) (hs.cur_state hw) (fun m => .inl rfl) (fun m => .inl rfl)
    (fun _ => rfl) (fun x m hu hx => ?_) (fun x _ hu hc => ⟨hu, hc⟩) (fun x hx => ?_)
    (h.sites_ran hscan)
  · have hu' : s.up x = true := hu
    refine ⟨hs.up_state hu', h.child x m hu' ?_⟩
    rwa [← pc_of_up pc hs hw hu']
  · rw [Sys.eq_of_cur hw hx]
    show Scan s.mem r t (Function.update s.pc t pc t)
    rwa [Function.update_self]

/-- The master runs code that leaves the lists alone. -/
theorem stay (h : Requests N s l r) (hs : Sched s p l) (hw : s.who = .thread t)
    (hk : Keeps N s.mem μ) (ht : Touch t (s.pc t) s.mem μ notes)
    (hnr : ∀ mp a, s.pc t ≠ .reqs mp a) (hl : ∀ m, l' (.mutex m) = l (.mutex m))
    (hscan : Scan μ r t pc) : Requests N (s.ran t μ pc notes) l' r := by
  have hcur : ∀ x, (s.ran t μ pc notes).cur x = s.cur x := fun _ => rfl
  refine h.keep (t := t) hk (hs.cur_state hw) (fun m => ?_) (fun m => ?_) hl (fun x m hu hx => ?_)
    (fun x _ hu hc => ⟨hu, hc⟩) (fun x hx => ?_) (h.sites_ran hscan)
  · cases ht with
    | none ho => exact .inl (ho m)
    | flag k b hm ho => exact .inl (ho m)
    | steal k hpc hf hst ho =>
      by_cases e : m = k
      · subst e
        refine .inr ⟨?_, hf, hst⟩
        exact (ho m).trans (if_pos rfl)
      · exact .inl ((ho m).trans (if_neg e))
    | give k tn hpc => exact absurd hpc (hnr _ _)
  · cases ht with
    | none _ hl => exact .inl (hl m)
    | flag k b hm ho hl =>
      by_cases e : m = k
      · exact .inr (e ▸ hm)
      · exact .inl ((hl m).trans (if_neg e))
    | steal k hpc hf hst ho hl => exact .inl (hl m)
    | give k tn hpc => exact absurd hpc (hnr _ _)
  · have hu' : s.up x = true := hu
    refine ⟨hs.up_state hu', h.child x m hu' ?_⟩
    rwa [← pc_of_up pc hs hw hu']
  · rw [Sys.eq_of_cur hw hx]
    show Scan μ r t (Function.update s.pc t pc t)
    rwa [Function.update_self]

/-- The master runs a piece of library code. -/
theorem exec (h : Requests N s l r) (hs : Sched s p l) (hv : Views N s) (hw : s.who = .thread t)
    (hcl : s.pc t = .exitSync → Clean s.mem t)
    (he : Dsthread.exec N t (s.pc t) s.mem = .ok (μ, pc, notes)) :
    ∃ p' l' r', Sched (s.ran t μ pc notes) p' l' ∧ Requests N (s.ran t μ pc notes) l' r' := by
  have hsc := h.scan t (Sys.cur_self hw)
  by_cases h1 : ∃ m, s.pc t = .lockIf m
  · obtain ⟨m, hm⟩ := h1
    rw [hm] at he hsc
    simp only [Dsthread.exec] at he
    split at he
    · rename_i hot
      simp only [bind_ok, pure_ok, Prod.mk.injEq] at he
      obtain ⟨μ₁, h1, μ₂, h2, pc', h3, rfl, rfl, rfl⟩ := he
      obtain ⟨-, -, rfl⟩ := tblock_ok h3
      obtain ⟨r', h'⟩ := h.ask hs hw hm hot h1 h2
      exact ⟨_, _, r', hs.lockIf hw hm h1 h2 [], h'⟩
    · rename_i hot
      simp only [pure_ok, Prod.mk.injEq] at he
      obtain ⟨rfl, rfl, rfl⟩ := he
      refine ⟨p, l, r, hs.move hw (.grab m) ?_ ?_ [], h.walk hs hw rfl (not_not.1 hot)⟩
      · have := hs.cur_fits hw
        rwa [hm] at this
      · intro a ha
        rw [hm] at ha
        exact ha.elim
  by_cases h2 : ∃ mp a, s.pc t = .reqs mp a
  · obtain ⟨mp, a, hm⟩ := h2
    have hfit := hs.cur_fits hw
    rw [hm] at he hsc hfit
    simp only [Dsthread.exec, bind_ok, Prod.exists] at he
    obtain ⟨⟨pre, post, hrt, rfl, hpre⟩, hcx⟩ := hsc
    obtain ⟨μ₁, x, h1, he⟩ := he
    have hin : ∀ q : Pc, (∀ b, b = a → q.In b) → ∀ b, (s.pc t).In b → q.In b := by
      intro q hq b hb
      rw [hm] at hb
      exact hq b hb.symm
    rcases mutexreqs_ok h1 with ⟨hn, rfl, rfl⟩ | ⟨m, tn, hn, -, hq, ⟨hlk, rfl, rfl⟩ | ⟨hf, rfl, h2⟩⟩
    · simp only [pure_ok, Prod.mk.injEq] at he
      obtain ⟨rfl, rfl, rfl⟩ := he
      refine ⟨p, l, r, hs.move hw (.done a) hfit (hin _ fun b e => e.symm) [],
        h.walk hs hw rfl ?_⟩
      rw [h.lists.req_eq hrt] at hn
      have hnil : post = [] := List.head?_eq_none_iff.1 hn
      refine ⟨fun k hk => hpre k ?_, hcx⟩
      rwa [hrt, hnil, List.append_nil] at hk
    · simp only [pure_ok, Prod.mk.injEq] at he
      obtain ⟨rfl, rfl, rfl⟩ := he
      refine ⟨p, l, r, hs.move hw (.reqs (.next m) a) hfit (hin _ fun b e => e.symm) [],
        h.walk hs hw rfl ?_⟩
      rw [h.lists.req_eq hrt] at hn
      obtain ⟨post', rfl⟩ := List.head?_eq_some_iff.1 hn
      refine ⟨⟨pre ++ [m], post', by rw [hrt]; simp, (Thread.lastLink_concat _ _).symm,
        fun k hk => ?_⟩, hcx⟩
      rcases List.mem_append.1 hk with hk | hk
      · exact hpre k hk
      · rwa [List.mem_singleton.1 hk]
    · simp only [pure_ok, Prod.mk.injEq] at he
      obtain ⟨rfl, rfl, rfl⟩ := he
      obtain ⟨ts, hl, w, hs'⟩ := hs.reqs hw hm hq h2 []
      obtain ⟨r', h'⟩ := h.give hs hw hm hn hl hf w
      exact ⟨_, _, r', hs', h'⟩
  have h1' : ∀ m, s.pc t ≠ .lockIf m := fun m e => h1 ⟨m, e⟩
  have h2' : ∀ mp a, s.pc t ≠ .reqs mp a := fun mp a e => h2 ⟨mp, a, e⟩
  obtain ⟨p', l', hs', hlm, -⟩ := hs.exec hw hv.tlock he
  refine ⟨p', l', r, hs', h.stay hs hw (exec_keeps hs hw rfl h1' h2' he)
    (exec_touch (hv.owns t (Sys.cur_self hw)) he).1 h2' (hlm h1' h2')
    (exec_scan h1' h2' hsc hcl he)⟩

end Requests

/-! ## Where code can fail -/

/-- The assertions that the code at a program point makes. -/
def Pc.sites : Pc → List Site
  | .lock _ | .lockSync _ => [.mutexlock]
  | .lockCall _ | .waitCall _ _ | .createCall _ | .joinCall _ | .exitCall => [.mcall]
  | .lockIf _ => [.mutexlock, .tblock]
  | .grab _ => [.mutexlock, .relock]
  | .tryLock _ => [.trylock]
  | .unlock _ => [.mutexunlock]
  | .test _ _ => [.mlock]
  | .link _ _ => [.condevent]
  | .waitSync _ _ => [.condwait, .mutexunlock, .tblock]
  | .createSync _ => [.create, .tready]
  | .join _ | .joinFree _ => [.join]
  | .joinSync _ => [.join, .tblock]
  | .exitSync => [.exit, .tready, .tblock]
  | .ret => [.mret]
  | .events _ => [.condwakeups, .tready]
  | .reqs _ _ => [.mutexreqs, .tready]
  | _ => []

section

variable {t u : Tid} {m : MutexId} {c : CondId} {μ : Mem} {w : Site}

theorem tblock_error {a : After} (h : tblock t μ a = .error w) : w = .tblock := by
  simp only [tblock, bind_error, check_error, check_ok, exists_const, pure_error, and_false,
    or_false] at h
  rcases h with ⟨-, e⟩ | ⟨-, -, e⟩
  · exact e.symm
  · exact e.symm

theorem tready_error (h : tready u μ = .error w) : w = .tready := by
  simp only [tready, bind_error, check_error, check_ok, exists_const, pure_error, and_false,
    or_false] at h
  rcases h with ⟨-, e⟩ | ⟨-, ⟨-, e⟩ | ⟨-, -, e⟩⟩
  · exact e.symm
  · exact e.symm
  · exact e.symm

theorem steal_error (h : steal t m μ = .error w) : w = .mutexlock := by
  unfold steal at h
  split at h
  · simp only [bind_error, check_error, check_ok, exists_const, pure_error, and_false,
      or_false] at h
    rcases h with ⟨-, e⟩ | ⟨-, ⟨-, e⟩ | ⟨-, -, e⟩⟩
    · exact e.symm
    · exact e.symm
    · exact e.symm
  · simp only [pure_error] at h

theorem request_error (h : request m μ = .error w) : w = .mutexlock := by
  unfold request at h
  split at h
  · simp only [bind_error, check_error, pure_error, and_false, exists_false, or_false] at h
    exact h.2.symm
  · simp only [pure_error] at h

theorem enlist_error (h : enlist t m μ = .error w) : w = .mutexlock := by
  simp only [enlist, bind_error, check_error, check_ok, exists_const, pure_error, and_false,
    or_false] at h
  rcases h with ⟨-, e⟩ | ⟨-, ⟨-, e⟩ | ⟨-, ⟨-, e⟩ | ⟨-, -, e⟩⟩⟩
  · exact e.symm
  · exact e.symm
  · exact e.symm
  · exact e.symm

theorem create_error {N : ℕ} {d : Bool} (h : create N d μ = .error w) :
    w = .create ∨ w = .tready := by
  unfold create at h
  split at h
  · cases h
    exact .inl rfl
  · exact .inr (tready_error h)

theorem wakeJoiner_error (h : wakeJoiner t μ = .error w) : w = .tready := by
  unfold wakeJoiner at h
  split at h
  · simp only [pure_error] at h
  · exact tready_error h

theorem wakeup_error (c : CondId) : ∀ (k : ℕ) {μ : Mem}, wakeup c k μ = .error w →
    w = .condwakeups ∨ w = .tready
  | 0, μ, h => by
    simp only [wakeup, pure_error] at h
  | k + 1, μ, h => by
    unfold wakeup at h
    split at h
    · simp only [pure_error] at h
    · simp only [bind_error, check_error, check_ok, exists_const, pure_error, and_false, or_false,
        exists_false] at h
      rcases h with ⟨-, e⟩ | ⟨-, h | ⟨μ₁, -, h⟩⟩
      · exact .inl e.symm
      · exact .inr (tready_error h)
      · exact wakeup_error c k h

theorem condwakeups_error (h : condwakeups c μ = .error w) : w = .condwakeups ∨ w = .tready := by
  simp only [condwakeups, bind_error, check_error, check_ok, exists_const, pure_error, and_false,
    or_false, exists_false] at h
  rcases h with ⟨-, e⟩ | ⟨-, ⟨-, e⟩ | ⟨-, h⟩⟩
  · exact .inl e.symm
  · exact .inl e.symm
  · exact wakeup_error c _ h

theorem mutexreqs_error {mp : Link MutexId} (h : mutexreqs t mp μ = .error w) :
    w = .mutexreqs ∨ w = .tready := by
  simp only [mutexreqs, bind_error, check_error, check_ok, exists_const] at h
  rcases h with ⟨-, e⟩ | ⟨-, h⟩
  · exact .inl e.symm
  · split at h
    · simp only [pure_error] at h
    · simp only [bind_error, check_error, check_ok, exists_const] at h
      rcases h with ⟨-, e⟩ | ⟨-, h⟩
      · exact .inl e.symm
      · split at h
        · cases h
          exact .inl rfl
        · split at h
          · simp only [pure_error] at h
          · simp only [transfer, bind_error, check_error, check_ok, exists_const, pure_error,
              and_false, exists_false, or_false] at h
            rcases h with ⟨-, e⟩ | ⟨-, h⟩
            · exact .inl e.symm
            · exact .inr (tready_error h)

theorem exec_sites {N : ℕ} {pc : Pc} (he : exec N t pc μ = .error w) : w ∈ pc.sites := by
  cases pc with
  | lock m =>
    simp only [exec, bind_error, check_error, check_ok, exists_const] at he
    rcases he with ⟨-, e⟩ | ⟨-, e⟩
    · simp [Pc.sites, ← e]
    · split at e <;> simp only [pure_error] at e
  | lockSync m =>
    simp only [exec, bind_error, pure_error, and_false, exists_false, or_false] at he
    simp [Pc.sites, steal_error he]
  | lockIf m =>
    simp only [exec] at he
    split at he
    · simp only [bind_error, pure_error, and_false, exists_false, or_false] at he
      rcases he with e | ⟨μ₁, -, e | ⟨μ₂, -, e⟩⟩
      · simp [Pc.sites, request_error e]
      · simp [Pc.sites, enlist_error e]
      · simp [Pc.sites, tblock_error e]
    · simp only [pure_error] at he
  | grab m =>
    simp only [exec, bind_error, check_error, check_ok, exists_const, pure_error, and_false,
      or_false] at he
    rcases he with ⟨-, e⟩ | ⟨-, -, e⟩ <;> simp [Pc.sites, ← e]
  | createSync d =>
    simp only [exec, bind_error, pure_error, and_false, exists_false, or_false] at he
    rcases create_error he with e | e <;> simp [Pc.sites, e]
  | exitSync =>
    simp only [exec, bind_error, check_error, check_ok, exists_const, pure_error, and_false,
      exists_false, or_false] at he
    rcases he with ⟨-, e⟩ | ⟨-, e | ⟨μ₁, -, e⟩⟩
    · simp [Pc.sites, ← e]
    · simp [Pc.sites, wakeJoiner_error e]
    · simp [Pc.sites, tblock_error e]
  | events a =>
    simp only [exec] at he
    split at he
    · simp only [pure_error] at he
    · simp only [bind_error, pure_error, and_false, exists_false, or_false] at he
      rcases condwakeups_error he with e | e <;> simp [Pc.sites, e]
  | reqs mp a =>
    simp only [exec, bind_error, Prod.exists] at he
    rcases he with e | ⟨μ₁, x, -, e⟩
    · rcases mutexreqs_error e with e | e <;> simp [Pc.sites, e]
    · split at e <;> simp only [pure_error] at e
  | tryLock m | test c b =>
    simp only [exec] at he
    split at he
    · simp only [pure_error] at he
    · simp only [bind_error, check_error, pure_error, and_false, exists_false, or_false] at he
      simp [Pc.sites, ← he.2]
  | link c b =>
    simp only [exec] at he
    split at he
    · simp only [bind_error, check_error, pure_error, and_false, exists_false, or_false] at he
      simp [Pc.sites, ← he.2]
    · simp only [pure_error] at he
  | unlock m =>
    simp only [exec, bind_error, check_error, check_ok, exists_const, pure_error, and_false,
      or_false] at he
    rcases he with ⟨-, e⟩ | ⟨-, ⟨-, e⟩ | ⟨-, -, e⟩⟩ <;> simp [Pc.sites, ← e]
  | waitSync c m =>
    simp only [exec, bind_error, check_error, check_ok, exists_const, pure_error, and_false,
      exists_false, or_false] at he
    rcases he with ⟨-, e⟩ | ⟨-, ⟨-, e⟩ | ⟨-, ⟨-, e⟩ | ⟨-, ⟨-, e⟩ | ⟨-, ⟨-, e⟩ | ⟨-, ⟨-, e⟩ |
      ⟨-, e⟩⟩⟩⟩⟩⟩
    rotate_right
    · simp [Pc.sites, tblock_error e]
    all_goals simp [Pc.sites, ← e]
  | join tj =>
    simp only [exec, bind_error, check_error, check_ok, exists_const] at he
    rcases he with ⟨-, e⟩ | ⟨-, ⟨-, e⟩ | ⟨-, e⟩⟩
    · simp [Pc.sites, ← e]
    · simp [Pc.sites, ← e]
    · split at e <;> simp only [pure_error] at e
  | joinSync tj =>
    simp only [exec] at he
    split at he
    · simp only [bind_error, check_error, check_ok, exists_const, pure_error, and_false,
        exists_false, or_false] at he
      rcases he with ⟨-, e⟩ | ⟨-, ⟨-, e⟩ | ⟨-, e⟩⟩
      · simp [Pc.sites, ← e]
      · simp [Pc.sites, ← e]
      · simp [Pc.sites, tblock_error e]
    · simp only [pure_error] at he
  | ret =>
    simp only [exec, bind_error, check_error, check_ok, exists_const] at he
    rcases he with ⟨-, e⟩ | ⟨-, e⟩
    · simp [Pc.sites, ← e]
    · split at e
      · simp only [pure_error] at e
      · simp only [bind_error, check_error, pure_error, and_false, exists_false, or_false] at e
        simp [Pc.sites, ← e.2]
  | lockCall m | waitCall c m | createCall d | joinCall tj | exitCall | joinFree tj =>
    simp only [exec, bind_error, check_error, pure_error, and_false, exists_false, or_false] at he
    simp [Pc.sites, ← he.2]
  | count c b => cases b <;> simp only [exec, pure_error] at he
  | setLocked | clearLocked | chain | user | done | dead | failed =>
    simp only [exec, pure_error] at he

end

/-! ## The assertions -/

section

variable {t u tn : Tid} {m : MutexId} {c : CondId} {μ μ' : Mem} {w : Site}
  {p : Tid → Option Queue} {l : Queue → List Tid} {r : Tid → List MutexId}

/-- `tready` has nothing to complain about a blocked thread that is on no queue. -/
theorem tready_pass (h1 : μ.tlock = 2) (h2 : (μ.th u).state ≠ .run) (h3 : μ.qnext u = none) :
    tready u μ ≠ .error w := by
  rw [tready, check_bind h1, check_bind h2, check_bind h3]
  simp [pure, Except.pure]

theorem wakeup_site (c : CondId) : ∀ (k : ℕ) {μ : Mem}, μ.tlock = 2 →
    wakeup c k μ = .error w → w = .condwakeups
  | 0, μ, _, h => by
    simp only [wakeup, pure_error] at h
  | k + 1, μ, htl, h => by
    unfold wakeup at h
    split at h
    · simp only [pure_error] at h
    · rename_i tw htw
      simp only [bind_error, check_error, check_ok, exists_const, pure_error, and_false, or_false,
        exists_false] at h
      have hr := Relink.unlink μ (.cond c) tw
      rcases h with ⟨-, e⟩ | ⟨hst, h | ⟨μ₁, h1, h⟩⟩
      · exact e.symm
      · refine absurd h (tready_pass (hr.tlock.trans htl) ?_ ?_)
        · rw [hr.state, hst]
          simp
        · rw [Mem.unlink, Mem.qnext, Mem.setQnext, Mem.setTh_th, if_pos rfl]
      · exact wakeup_site c k ((tready_awakes h1).tlock.trans (hr.tlock.trans htl)) h

theorem condwakeups_site (htl : μ.tlock = 2) (h : condwakeups c μ = .error w) :
    w = .condwakeups := by
  simp only [condwakeups, bind_error, check_error, check_ok, exists_const, pure_error, and_false,
    or_false, exists_false] at h
  rcases h with ⟨-, e⟩ | ⟨-, ⟨-, e⟩ | ⟨-, h⟩⟩
  · exact e.symm
  · exact e.symm
  · exact wakeup_site c _ htl h

theorem create_site {N : ℕ} {d : Bool} (htl : μ.tlock = 2) (h : create N d μ = .error w) :
    w = .create := by
  unfold create at h
  split at h
  · cases h
    rfl
  · rename_i u _
    refine absurd h (tready_pass htl ?_ ?_)
    · rw [Mem.setTh_th, if_pos rfl]
      simp
    · rw [Mem.qnext, Mem.setTh_th, if_pos rfl]

theorem steal_pass (h : Lists μ l r) (hq : Queued μ p l)
    (hl : l (.mutex m) ≠ [] → (μ.th (μ.mutex m).owner).state ≠ .run → (μ.mutex m).locked = true) :
    steal t m μ ≠ .error w := by
  unfold steal
  split
  · rename_i hc
    have hnil : l (.mutex m) = [] := by
      by_contra hn
      have := hl hn hc.2
      rw [hc.1] at this
      cases this
    have h1 : (μ.mutex m).qhead = none := (hq.head_none_iff (.mutex m)).2 hnil
    have h2 : (μ.mutex m).qtail = .head := by
      have := (hq.holds (.mutex m)).tail
      rw [hnil] at this
      exact this
    rw [check_bind h1, check_bind h2, check_bind (h.null m hnil)]
    simp [pure, Except.pure]
  · simp [pure, Except.pure]

theorem request_pass (h : Lists μ l r) (hq : Queued μ p l) : request m μ ≠ .error w := by
  unfold request
  split
  · rename_i hn
    rw [check_bind (h.null m ((hq.head_none_iff (.mutex m)).1 hn))]
    simp [pure, Except.pure]
  · simp [pure, Except.pure]

theorem enlist_pass (hq : Queued μ p l) (ht : p t = none) : enlist t m μ ≠ .error w := by
  have hq' := hq.enqueue ht (.mutex m)
  have h1 : μ.qnext t = none := hq.off t ht
  have h2 : ((μ.enqueue (.mutex m) t).mutex m).qhead ≠ none := by
    intro e
    have := (hq'.head_none_iff (.mutex m)).1 e
    simp at this
  rw [enlist, check_bind h1, check_bind (hq.last_eq _)]
  dsimp only
  rw [check_bind h2, check_bind (hq'.last_eq _)]
  simp [pure, Except.pure]

/-- `mutexreqs` has nothing to complain about exact lists whose waiters are blocked. -/
theorem mutexreqs_pass {pre post : List MutexId} (h : Lists μ l r) (hq : Queued μ p l)
    (htl : μ.tlock = 2) (hr : r t = pre ++ post)
    (hst : ∀ x m, p x = some (.mutex m) → x ≠ t → (μ.th x).state = .mutex) :
    mutexreqs t (Thread.lastLink pre) μ ≠ .error w := by
  intro he
  simp only [mutexreqs, bind_error, check_error, htl, not_true_eq_false, false_and, false_or,
    check_ok, exists_const, true_and, h.req_eq hr] at he
  cases post with
  | nil => simp [pure_error] at he
  | cons m post =>
    obtain ⟨ho, hne⟩ := h.only t m (by rw [hr]; simp)
    obtain ⟨tn, ts, hl⟩ := List.exists_cons_of_ne_nil hne
    have hqh : (μ.mutex m).qhead = some tn := by
      have := hq.head_eq (.mutex m)
      rw [hl] at this
      exact this
    have hptn : p tn = some (.mutex m) := hq.place_of_head (q := .mutex m) hqh
    have htn : tn ≠ t := by
      rintro rfl
      exact h.other m tn (by rw [hl]; exact List.mem_cons_self) ho
    simp only [List.head?_cons, ho, bind_error, check_error, not_true_eq_false, false_and,
      false_or, check_ok, exists_const, true_and, hqh] at he
    split at he
    · simp [pure_error] at he
    · simp only [transfer, bind_error, check_error, setReq_state, hst tn m hptn htn,
        not_true_eq_false, false_and, false_or, check_ok, exists_const, true_and, pure_error,
        and_false, exists_false, or_false] at he
      have hq' : Queued (μ.setReq t (Thread.lastLink pre) (μ.mutex m).reqnext) p l := by
        cases Thread.lastLink pre with
        | head => exact hq.congr (by simp [Mem.setReq]) (by simp [Mem.setReq]) (by simp [Mem.setReq])
        | next m' => exact hq.congr (setMutex_head rfl) (setMutex_tail rfl) rfl
      refine absurd he (tready_pass ?_ ?_ ?_)
      · rw [(handover_rest m tn _).2.1, setReq_tlock, htl]
      · rw [handover_th]
        show ((μ.setReq t (Thread.lastLink pre) (μ.mutex m).reqnext).th tn).state ≠ .run
        rw [setReq_state, hst tn m hptn htn]
        simp
      · exact (handover_queued hq' hl).off tn (Function.update_self _ _ _)

end

/-- The assertions of `mutexlock`, `mutexreqs` and `tready` hold at a program point. -/
def Safe (t : Tid) (μ : Mem) : Pc → Prop
  | .lock _ => 0 < μ.tlock
  | .lockSync m => ∀ w, steal t m μ ≠ .error w
  | .lockIf m => (μ.mutex m).owner = t ∨ (∀ w, request m μ ≠ .error w) ∧
      ∀ μ' w, request m μ = .ok μ' → enlist t m μ' ≠ .error w
  | .grab m => (μ.mutex m).owner = t
  | .createSync _ | .events _ => μ.tlock = 2
  | .exitSync => ∀ w, wakeJoiner t μ ≠ .error w
  | .reqs mp _ => ∀ w, mutexreqs t mp μ ≠ .error w
  | _ => True

/-- The other assertions are not about the queues of mutexes and of runnable threads. -/
theorem exec_error {N : ℕ} {t : Tid} {pc : Pc} {μ : Mem} {w : Site} (hs : Safe t μ pc)
    (he : exec N t pc μ = .error w) : w.ofQueues = false := by
  have hsites := exec_sites he
  cases pc with
  | lock m =>
    have hs' : 0 < μ.tlock := hs
    simp only [exec] at he
    rw [check_bind hs'] at he
    split at he <;> simp only [pure_error] at he
  | lockSync m =>
    simp only [exec, bind_error, pure_error, and_false, exists_false, or_false] at he
    exact absurd he (hs w)
  | lockIf m =>
    simp only [exec] at he
    split at he
    · rename_i hot
      obtain ⟨h1, h2⟩ := hs.resolve_left hot
      simp only [bind_error, pure_error, and_false, exists_false, or_false] at he
      rcases he with e | ⟨μ₁, e, e' | ⟨μ₂, e', e''⟩⟩
      · exact absurd e (h1 w)
      · exact absurd e' (h2 μ₁ w e)
      · rw [tblock_error e'']
        rfl
    · simp only [pure_error] at he
  | grab m =>
    have hs' : (μ.mutex m).owner = t := hs
    simp only [exec] at he
    rw [check_bind hs'] at he
    simp only [bind_error, check_error, pure_error, and_false, exists_false, or_false] at he
    rw [← he.2]
    rfl
  | createSync d =>
    simp only [exec, bind_error, pure_error, and_false, exists_false, or_false] at he
    rw [create_site hs he]
    rfl
  | exitSync =>
    simp only [exec, bind_error, check_error, check_ok, exists_const, pure_error, and_false,
      exists_false, or_false] at he
    rcases he with ⟨-, e⟩ | ⟨-, e | ⟨μ₁, -, e⟩⟩
    · rw [← e]
      rfl
    · exact absurd e (hs w)
    · rw [tblock_error e]
      rfl
  | events a =>
    simp only [exec] at he
    split at he
    · simp only [pure_error] at he
    · simp only [bind_error, pure_error, and_false, exists_false, or_false] at he
      rw [condwakeups_site hs he]
      rfl
  | reqs mp a =>
    simp only [exec, bind_error, Prod.exists] at he
    rcases he with e | ⟨μ₁, x, -, e⟩
    · exact absurd e (hs w)
    · split at e <;> simp only [pure_error] at e
  | waitSync | joinSync =>
    simp only [Pc.sites, List.mem_cons, List.not_mem_nil, or_false] at hsites
    rcases hsites with rfl | rfl | rfl <;> rfl
  | lockCall | waitCall | createCall | joinCall | exitCall | tryLock | unlock | test | link | join
  | joinFree | ret =>
    simp only [Pc.sites, List.mem_cons, List.not_mem_nil, or_false] at hsites
    rw [hsites]
    rfl
  | _ => cases hsites

namespace Requests

variable {N : ℕ} {s s' : Sys} {p : Tid → Option Queue} {l l' : Queue → List Tid}
  {r : Tid → List MutexId} {t : Tid} {μ μ' : Mem} {pc : Pc} {notes : List Note} {w : Site}

/-- The thread for which the master runs code passes the assertions. -/
theorem safe (h : Requests N s l r) (hs : Sched s p l) (hv : Views N s) (hw : s.who = .thread t) :
    Safe t s.mem (s.pc t) := by
  have hsc := h.scan t (Sys.cur_self hw)
  have hfit := hs.cur_fits hw
  have htl := hv.tlock
  generalize hpc : s.pc t = pc at hsc hfit ⊢
  cases pc with
  | lock m =>
    show 0 < s.mem.tlock
    omega
  | lockSync m => exact fun w => steal_pass h.lists hs.queued (h.locked m)
  | lockIf m =>
    refine .inr ⟨fun w => request_pass h.lists hs.queued, fun μ' w hr => ?_⟩
    exact enlist_pass (request_queued hr hs.queued) hfit
  | grab m => exact hsc
  | createSync d => exact htl
  | events a => exact htl
  | exitSync =>
    intro w he
    unfold wakeJoiner at he
    split at he
    · simp only [pure_error] at he
    · rename_i j hj
      obtain ⟨-, hpj, hst, -⟩ := hs.joiner_of_exit hw hpc hj
      refine tready_pass htl ?_ (hs.queued.off j hpj) he
      rw [hst]
      simp
  | reqs mp a =>
    obtain ⟨⟨pre, post, hr, rfl, -⟩, -⟩ := hsc
    refine fun w => mutexreqs_pass h.lists hs.queued htl hr fun x m hx hne => ?_
    have hsp := hs.spots.spot x
    rw [hx, Sys.cur_of_ne hw hne] at hsp
    generalize s.up x = up, (s.mem.th x).state = st at hsp ⊢
    cases hsp
    rfl
  | _ => trivial

/-- A child passes the assertions. -/
theorem safe_kid (h : Requests N s l r) (hv : Views N s) (hu : s.up t = true) :
    Safe t (s.kid t) (s.pc t) := by
  have hlev := (hv.kid t hu).level
  have hch := fun m => h.child t m hu
  generalize s.pc t = pc at hlev hch ⊢
  cases pc with
  | lock m =>
    simp only [Pc.level, Option.some.injEq] at hlev
    show 0 < (s.kid t).tlock
    omega
  | lockIf m => exact .inl ((hv.kid_owner hu m).2 (hch m (.inl rfl)))
  | grab m => exact (hv.kid_owner hu m).2 (hch m (.inr rfl))
  | lockSync | createSync | events | exitSync | reqs => cases hlev
  | _ => trivial

/-- What a child has done about its mutexes. -/
theorem scan_kid (h : Requests N s l r) (hv : Views N s) (hu : s.up t = true)
    (ho : ∀ m, (s.mem.mutex m).owner = t → (μ.mutex m).owner = t) : Scan μ r t (s.pc t) := by
  have hlev := (hv.kid t hu).level
  have hch := fun m => h.child t m hu
  have hsi := h.sites t
  generalize s.pc t = pc at hlev hch hsi ⊢
  cases pc with
  | lockIf m => exact .inl (ho m (hch m (.inl rfl)))
  | grab m => exact ho m (hch m (.inr rfl))
  | failed w => exact hsi w rfl
  | events | reqs | done => cases hlev
  | _ => trivial

/-- The master's thread fails elsewhere. -/
theorem fail (h : Requests N s l r) (hs : Sched s p l) (hw : s.who = .thread t)
    (hw' : w.ofQueues = false) : Requests N (s.fail t w) l r := by
  have : Requests N (s.ran t s.mem (.failed w) []) l r := h.walk hs hw rfl hw'
  rwa [show s.ran t s.mem (.failed w) [] = s.fail t w by simp [Sys.ran, Sys.fail]] at this

end Requests

/-- A child reaches these points only if it owns the mutex. -/
theorem exec_owner {N : ℕ} {t : Tid} {pc pc' : Pc} {μ μ' : Mem} {notes : List Note} {m : MutexId}
    (hlev : pc.level ≠ none) (he : exec N t pc μ = .ok (μ', pc', notes))
    (hpc : pc' = .lockIf m ∨ pc' = .grab m) : (μ.mutex m).owner = t := by
  cases pc with
  | lockSync | waitSync | createSync | joinSync | exitSync | events | reqs | done | dead =>
    exact absurd rfl hlev
  | lock k =>
    simp only [exec, bind_ok, check_ok, exists_const] at he
    obtain ⟨-, he⟩ := he
    split at he
    · simp only [pure_ok, Prod.mk.injEq] at he
      rw [← he.2.1] at hpc
      simp at hpc
    · rename_i ho
      simp only [pure_ok, Prod.mk.injEq] at he
      rw [← he.2.1] at hpc
      have e : k = m := by simpa using hpc
      exact e ▸ not_not.1 ho
  | lockIf k =>
    simp only [exec] at he
    split at he
    · simp only [bind_ok, pure_ok, Prod.mk.injEq] at he
      obtain ⟨μ₁, -, μ₂, -, pc', h3, -, rfl, -⟩ := he
      rw [(tblock_ok h3).2.2] at hpc
      simp at hpc
    · rename_i ho
      simp only [pure_ok, Prod.mk.injEq] at he
      rw [← he.2.1] at hpc
      have e : k = m := by simpa using hpc
      exact e ▸ not_not.1 ho
  | count c b =>
    cases b <;>
    · simp only [exec, pure_ok, Prod.mk.injEq] at he
      rw [← he.2.1] at hpc
      simp at hpc
  | tryLock | test | link =>
    simp only [exec] at he
    split at he <;>
    · simp only [bind_ok, check_ok, exists_const, pure_ok, Prod.mk.injEq] at he
      grind
  | join tj =>
    simp only [exec, bind_ok, check_ok, exists_const] at he
    obtain ⟨-, -, he⟩ := he
    split at he <;>
    · simp only [pure_ok, Prod.mk.injEq] at he
      rw [← he.2.1] at hpc
      simp at hpc
  | ret =>
    simp only [exec, bind_ok, check_ok, exists_const] at he
    obtain ⟨-, he⟩ := he
    split at he <;>
    · simp only [bind_ok, check_ok, exists_const, pure_ok, Prod.mk.injEq] at he
      grind
  | lockCall | waitCall | createCall | joinCall | exitCall | joinFree | grab | unlock =>
    simp only [exec, bind_ok, check_ok, exists_const, pure_ok, Prod.mk.injEq] at he
    grind
  | setLocked | clearLocked | chain | user | failed =>
    simp only [exec, pure_ok, Prod.mk.injEq] at he
    rw [← he.2.1] at hpc
    simp at hpc

/-! ## Every step -/

theorem trun_pass {N : ℕ} {t : Tid} {μ : Mem} {w : Site} {p : Tid → Option Queue}
    {l : Queue → List Tid} (hq : Queued μ p l) (ht : p t = none) (hn : μ.runqlen < N) :
    trun N t μ ≠ .error w := by
  have hn' : (μ.enqueue .run t).runqlen + 1 ≤ N := by
    rw [(Relink.enqueue μ .run t).runqlen]
    exact hn
  rw [trun, check_bind (hq.off t ht), check_bind (hq.last_eq _)]
  dsimp only
  rw [check_bind hn']
  simp [pure, Except.pure]

namespace Requests

variable {N : ℕ} {s s' : Sys} {p : Tid → Option Queue} {l l' : Queue → List Tid}
  {r : Tid → List MutexId} {t : Tid} {μ μ' : Mem} {pc : Pc} {notes : List Note} {w : Site}

/-- There is room on the run queue for a thread that is not on it. -/
theorem runqlen_lt (h : Requests N s l r) (hs : Sched s p l) (hw : s.who = .thread t) :
    s.mem.runqlen < N := by
  have hbound : ∀ x ∈ t :: l .run, x ∈ List.range N := by
    intro x hx
    refine List.mem_range.2 (h.bound x ?_)
    rcases List.mem_cons.1 hx with rfl | hx
    · rw [hs.cur_state hw]
      simp
    · rw [hs.up_state ((hs.up_iff x).2 ((hs.queued.mem x .run).1 hx))]
      simp
  have hnot : t ∉ l .run := by
    intro hx
    have hu := (hs.up_iff t).2 ((hs.queued.mem t .run).1 hx)
    rw [hs.cur_up hw] at hu
    cases hu
  have hnd : (t :: l .run).Nodup := List.nodup_cons.2 ⟨hnot, (hs.queued.holds .run).nodup⟩
  have hlen := (hnd.subperm hbound).length_le
  rw [List.length_cons, List.length_range] at hlen
  rw [hs.len]
  omega

/-- The master's thread goes on as a child. -/
theorem resume {who : Who} (h : Requests N s l r) (hs : Sched s p l) (hw : s.who = .thread t)
    (hr : trun N t s.mem = .ok μ) (hpc : pc.level = some 0) (hwho : ∀ x, who ≠ .thread x)
    (hl : ∀ m, l' (.mutex m) = l (.mutex m)) :
    Requests N { ({ s with mem := μ }).start t pc with who := who } l' r := by
  obtain ⟨-, rfl⟩ := trun_ok hr
  have hre := Relink.enqueue s.mem .run t
  have hq : Quiet s.mem { s.mem.enqueue .run t with runqlen := s.mem.runqlen + 1 } :=
    ⟨hre.eip, hre.joiner, fun x => .inl (hre.state x)⟩
  have hcur : ∀ x, Sys.cur { ({ s with mem := { s.mem.enqueue .run t with
      runqlen := s.mem.runqlen + 1 } }).start t pc with who := who } x = false := by
    intro x
    simp [Sys.cur, hwho x]
  refine h.keep (t := t) (.of_quiet hq hre.reqnext hre.reqs) (hs.cur_state hw)
    (fun m => .inl (hre.owner m)) (fun m => .inl (hre.locked m)) hl (fun x m hu hx => ?_)
    (fun x _ hu _ => ?_) (fun x hx => ?_) fun x w hx => ?_
  · by_cases e : x = t
    · subst e
      simp only [Sys.start, Function.update_self] at hx
      rcases hx with rfl | rfl <;> cases hpc
    · simp only [Sys.start, Function.update_of_ne e] at hu hx
      exact ⟨hs.up_state hu, h.child x m hu hx⟩
  · have e : x ≠ t := by
      rintro rfl
      simp [Sys.start] at hu
    simp only [Sys.start, Function.update_of_ne e] at hu
    exact ⟨hu, Sys.cur_of_ne hw e⟩
  · rw [hcur] at hx
    cases hx
  · by_cases e : x = t
    · subst e
      simp only [Sys.start, Function.update_self] at hx
      subst hx
      cases hpc
    · simp only [Sys.start, Function.update_of_ne e] at hx
      exact h.sites x w hx

/-- The master's thread blocks. -/
theorem block {a : After} {st : TState} {eip : Pc} (h : Requests N s l r) (hs : Sched s p l)
    (hw : s.who = .thread t) (hpc : s.pc t = .done a) (hst : st ≠ .run)
    (hex : st = .free ∨ st = .exit → a = .exit) : Requests N (s.block t st eip) l r := by
  have hth : ∀ x, (s.block t st eip).mem.th x =
      if x = t then { s.mem.th t with state := st, eip := eip } else s.mem.th x :=
    fun x => Mem.setTh_th s.mem t x fun y => { y with state := st, eip := eip }
  have hcur : ∀ x, (s.block t st eip).cur x = false := fun x => by simp [Sys.cur, Sys.block]
  have hmu : (s.block t st eip).mem.mutex = s.mem.mutex := rfl
  have hsc := h.scan t (Sys.cur_self hw)
  rw [hpc] at hsc
  obtain ⟨hall, hclean⟩ := hsc
  refine ⟨h.lists.congr (fun _ => rfl) (fun _ _ => rfl) (fun x => .inl ?_) fun _ => rfl,
    fun m hm hnr => ?_, fun m hm => ?_, h.child, fun x m hx hu _ he => ?_, fun x hx => ?_,
    fun x hx => ?_, h.sites⟩
  · rw [hth]
    split
    · rename_i e
      rw [e]
    · rfl
  · by_cases e : (s.mem.mutex m).owner = t
    · exact hall m (e ▸ h.lists.mem m hm)
    · rw [hmu, hth, if_neg e] at hnr
      exact h.locked m hm hnr
  · by_cases e : (s.mem.mutex m).owner = t
    · refine hclean (hex ?_) m e
      unfold Live at hm
      rw [hmu, hth, if_pos e] at hm
      tauto
    · unfold Live at hm
      rw [hmu, hth, if_neg e] at hm
      exact h.gone m hm
  · have e : x ≠ t := by
      rintro rfl
      rw [hth, if_pos rfl] at hx
      exact hst hx
    rw [hth, if_neg e] at hx he
    exact h.woken x m hx hu (Sys.cur_of_ne hw e) he
  · rw [hcur] at hx
    cases hx
  · by_cases e : x = t
    · refine h.bound x ?_
      rw [e, hs.cur_state hw]
      simp
    · rw [hth, if_neg e] at hx
      exact h.bound x hx

/-- The master's thread is through with its events. -/
theorem finish {a : After} (h : Requests N s l r) (hs : Sched s p l) (hw : s.who = .thread t)
    (hpc : s.pc t = .done a) (hl : ∀ m, l' (.mutex m) = l (.mutex m)) :
    Requests N (s.finish N t a) l' r := by
  have hrun : ∀ (pc : Pc) (who : Who), pc.level = some 0 → (∀ x, who ≠ .thread x) → p t = none →
      Requests N (s.resume N t pc who) l' r := by
    intro pc who h1 h2 hp
    unfold Sys.resume
    split
    · rename_i w he
      exact absurd he (trun_pass hs.queued hp (h.runqlen_lt hs hw))
    · rename_i μ hr
      exact h.resume hs hw hr h1 h2 hl
  have hcongr : ∀ {s' : Sys}, Requests N s' l r → Requests N s' l' r := by
    intro s' h'
    exact ⟨h'.lists.congr (fun _ => rfl) (fun _ _ => rfl) (fun _ => .inl rfl) hl,
      fun m hm => h'.locked m (hl m ▸ hm), h'.gone, h'.child, h'.woken, h'.scan, h'.bound, h'.sites⟩
  have hfit := hs.cur_fits hw
  rw [hpc] at hfit
  cases a with
  | ret => exact hrun _ _ rfl (by simp) hfit
  | user => exact hrun _ _ rfl (by simp) hfit
  | test c b => exact hrun _ _ rfl (by simp) hfit
  | lock m => exact hcongr (h.block hs hw hpc (by simp) (by simp))
  | wait m => exact hcongr (h.block hs hw hpc (by simp) (by simp))
  | join tj => exact hcongr (h.block hs hw hpc (by simp) (by simp))
  | exit =>
    refine hcongr (h.block hs hw hpc ?_ fun _ => rfl)
    split <;> simp

/-- The scheduler resumes a ready thread. -/
theorem schedStep (h : Requests N s l r) (hs : Sched s p l) (hw : s.who = .sched)
    (hl : ∀ m, l' (.mutex m) = l (.mutex m)) : Requests N s.schedStep l' r := by
  have hcur : ∀ x, s.cur x = false := fun x => by simp [Sys.cur, hw]
  unfold Sys.schedStep
  split
  · refine ⟨h.lists.congr (fun _ => rfl) (fun _ _ => rfl) (fun _ => .inl rfl) hl,
      fun m hm => h.locked m (hl m ▸ hm), h.gone, h.child, fun x m hx hu _ => ?_, fun x hx => ?_,
      h.bound, h.sites⟩
    · exact h.woken x m hx hu (hcur x)
    · simp [Sys.cur] at hx
  · rename_i t ht
    have hp : p t = some .ready := hs.queued.place_of_head (q := .ready) ht
    have hsp := hs.spots.spot t
    rw [hp, hcur] at hsp
    obtain ⟨hup, hrun, hwk⟩ := hsp.of_ready
    have hr := (Relink.unlink s.mem .ready t).trans (Relink.resetTail _ .ready)
    refine h.keep (t := t) (.of_quiet (.of_relink hr) hr.reqnext hr.reqs) hrun
      (fun m => .inl (hr.owner m)) (fun m => .inl (hr.locked m)) hl (fun x m hu hx => ?_)
      (fun x _ hu _ => ⟨hu, hcur x⟩) (fun x hx => ?_) fun x w hx => ?_
    · have e : x ≠ t := by
        rintro rfl
        have hu' : s.up x = true := hu
        rw [hup] at hu'
        cases hu'
      simp only [Function.update_of_ne e] at hx
      exact ⟨hs.up_state hu, h.child x m hu hx⟩
    · obtain rfl : x = t := Sys.eq_of_cur rfl hx
      simp only [Function.update_self]
      have hwoken := fun m => h.woken x m hrun hup (hcur x)
      generalize (s.mem.th x).eip = eip at hwk hwoken
      cases eip with
      | grab m => exact (hr.owner m).trans (hwoken m rfl)
      | ret | lock | joinFree => trivial
      | _ => exact hwk.elim
    · by_cases e : x = t
      · subst e
        simp only [Function.update_self] at hx
        rw [hx] at hwk
        exact hwk.elim
      · simp only [Function.update_of_ne e] at hx
        exact h.sites x w hx

/-- The scheduler collects a child. -/
theorem collect {ts : List Tid} {d : Mem} (h : Requests N s l r) (hs : Sched s p l)
    (hv : Views N s) (hw : s.who = .collect) (hc : Collects s s' p l t ts d pc) :
    Requests N s' (Function.update l .run ts) r := by
  have hcur : ∀ x, s.cur x = false := fun x => by simp [Sys.cur, hw]
  have hk := hv.kid t hc.up
  have hrun := hs.up_state hc.up
  have hr := (Relink.unlink s.mem .run t).trans (Relink.resetTail _ .run)
  have hdth : d.th = ((s.mem.unlink .run t).resetTail .run).th := by rw [hc.before]
  have hmu : ∀ m, (Mem.merge (s.snap t) d (s.kid t)).mutex m =
      { s.mem.mutex m with
        locked := merge ((s.snap t).mutex m).locked (s.mem.mutex m).locked
          ((s.kid t).mutex m).locked } := by
    intro m
    rw [hk.drift.merge_mutex, hc.mutex]
  have hq : Quiet s.mem (Mem.merge (s.snap t) d (s.kid t)) := by
    have hq := hc.quiet
    refine ⟨fun x => ?_, fun x => ?_, fun x => ?_⟩
    · rw [hq.eip, hdth, hr.eip]
    · rw [hq.joiner, hdth, hr.joiner]
    · have := hq.state x
      rwa [hdth, hr.state] at this
  have hq2 : Quiet s.mem { Mem.merge (s.snap t) d (s.kid t) with tlock := 2 } :=
    ⟨hq.eip, hq.joiner, hq.state⟩
  have hpcs : ∀ x, x ≠ t → Function.update s.pc t pc x = s.pc x :=
    fun x hx => Function.update_of_ne hx _ _
  rw [hc.after]
  refine h.keep (t := t) (.of_quiet hq2 (fun m => ?_) fun x => ?_) hrun (fun m => .inl ?_)
    (fun m => ?_) (fun m => Function.update_of_ne (by simp) _ _) (fun x m hu hx => ?_)
    (fun x _ hu hx => ?_) (fun x hx => ?_) fun x w hx => ?_
  · show ((Mem.merge (s.snap t) d (s.kid t)).mutex m).reqnext = _
    rw [hmu]
  · show ((Mem.merge (s.snap t) d (s.kid t)).th x).reqs = _
    rw [hk.drift.merge_th, hdth, hr.reqs]
  · show ((Mem.merge (s.snap t) d (s.kid t)).mutex m).owner = _
    rw [hmu]
  · show ((Mem.merge (s.snap t) d (s.kid t)).mutex m).locked = _ ∨ _
    rw [hmu]
    rcases hk.drift.mutex m with e | ⟨e, -⟩
    · rw [e]
      exact .inl (merge_same _ _)
    · exact .inr ((hv.owner t m hc.up).1 e)
  · have e : x ≠ t := by
      rintro rfl
      simp at hu
    simp only [Function.update_of_ne e] at hu hx
    exact ⟨hs.up_state hu, h.child x m hu hx⟩
  · have e : x ≠ t := by
      rintro rfl
      simp [Sys.cur] at hx
    simp only [Function.update_of_ne e] at hu
    exact ⟨hu, hcur x⟩
  · obtain rfl : x = t := Sys.eq_of_cur rfl hx
    simp only [Function.update_self]
    rcases hc.next with e | ⟨e, -⟩
    · rw [e]
      refine h.scan_kid hv hc.up fun m hm => ?_
      show ((Mem.merge (s.snap x) d (s.kid x)).mutex m).owner = x
      rw [hmu]
      exact hm
    · rw [e]
      intro he
      unfold Sys.preempted at he
      split at he <;> cases he
  · by_cases e : x = t
    · subst e
      simp only [Function.update_self] at hx
      rcases hc.next with e | ⟨e, -⟩
      · exact h.sites x w (e ▸ hx)
      · rw [e] at hx
        cases hx
    · exact h.sites x w ((hpcs x e).symm.trans hx)

/-- A child moves on. -/
theorem kid {k : Tid → Mem} {log : List Note} (h : Requests N s l r) (hs : Sched s p l)
    (hu : s.up t = true) (hc : s.cur t = false)
    (hpc : ∀ m, pc = .lockIf m ∨ pc = .grab m → (s.mem.mutex m).owner = t)
    (hsite : ∀ w, pc = .failed w → w.ofQueues = false) :
    Requests N { s with kid := k, pc := Function.update s.pc t pc, log := log } l r := by
  refine h.keep (t := t) (.refl _) (hs.up_state hu) (fun m => .inl rfl) (fun m => .inl rfl)
    (fun _ => rfl) (fun x m hx hm => ⟨hs.up_state hx, ?_⟩) (fun x _ h1 h2 => ⟨h1, h2⟩)
    (fun x hx => ?_) fun x w hx => ?_
  · by_cases e : x = t
    · subst e
      simp only [Function.update_self] at hm
      exact hpc m hm
    · simp only [Function.update_of_ne e] at hm
      exact h.child x m hx hm
  · have e : x ≠ t := by
      rintro rfl
      have hx' : s.cur x = true := hx
      rw [hc] at hx'
      cases hx'
    simp only [Function.update_of_ne e]
    exact h.scan x hx
  · by_cases e : x = t
    · subst e
      simp only [Function.update_self] at hx
      exact hsite w hx
    · simp only [Function.update_of_ne e] at hx
      exact h.sites x w hx

end Requests

/-! ## Every state reached -/

/-- No thread exits while it owns a locked mutex. -/
def ExitsClean (s : Sys) (a : Act) : Prop :=
  a = .master → ∀ t, s.who = .thread t → s.pc t = .exitSync → Clean s.mem t

/-- The invariants of a run in which threads exit without a locked mutex. -/
structure Sound (N : ℕ) (s : Sys) : Prop where
  views : Views N s
  requests : ∃ p l r, Sched s p l ∧ Requests N s l r

namespace Sound

variable {N : ℕ} {s s' : Sys} {t : Tid} {a : Act}

theorem init {N : ℕ} (hN : 0 < N) (owner : MutexId → Tid) : Sound N (Sys.init owner) := by
  refine ⟨.init N owner, _, _, fun _ => [], .init owner, ?_⟩
  refine ⟨⟨fun _ => rfl, fun _ => List.nodup_nil, fun m hm => ?_, fun t m hm => ?_, fun _ _ => rfl,
    fun m t hm => ?_⟩, fun m hm => ?_, fun m _ => rfl, fun x m _ hx => ?_, fun x m hx hu _ => ?_,
    fun x hx => ?_, fun x hx => ?_, fun x w hx => ?_⟩
  · simp at hm
  · simp at hm
  · simp at hm
  · simp at hm
  · by_cases e : x = 0 <;> simp [Sys.init, e] at hx
  · by_cases e : x = 0 <;> simp [Sys.init, Sys.initMem, e] at hx hu
  · simp [Sys.cur, Sys.init] at hx
  · by_cases e : x = 0
    · rw [e]
      exact hN
    · simp [Sys.init, Sys.initMem, e] at hx
  · by_cases e : x = 0 <;> simp [Sys.init, e] at hx

/-- A child takes a step. -/
theorem kidStep {call : Call} (h : Sound N s) (hu : s.up t = true)
    (hs : s.kidStep N t call = some s') : Sound N s' := by
  obtain ⟨hv, p, l, r, hsch, hreq⟩ := h
  refine ⟨(Good.kidStep ⟨⟨p, l, hsch⟩, hv⟩ hu hs).views, p, l, r, ?_⟩
  have hk := hv.kid t hu
  have hc : s.cur t = false := by
    by_contra hc
    rw [hsch.cur_up (Sys.who_of_cur (by simpa using hc))] at hu
    cases hu
  unfold Sys.kidStep at hs
  split at hs
  · rename_i hus
    rw [hus] at hk
    split at hs
    · rename_i w he
      obtain ⟨x, hx⟩ := hk.enter_ok call
      rw [he] at hx
      cases hx
    · rename_i μ pc he
      cases hs
      refine ⟨hsch.kid hu _ _ _, hreq.kid hsch hu hc (fun m hm => ?_) fun w hw => ?_⟩
      all_goals
        cases call <;>
          simp only [enter, bind_ok, check_ok, pure_ok, exists_const, Prod.mk.injEq] at he <;>
          grind
  · split at hs
    · cases hs
    · split at hs
      · rename_i w he
        cases hs
        refine ⟨hsch.kid hu s.kid (.failed w) s.log, hreq.kid hsch hu hc (fun m hm => ?_) ?_⟩
        · simp at hm
        · intro w' hw'
          cases hw'
          exact exec_error (hreq.safe_kid hv hu) he
      · rename_i μ pc notes he
        cases hs
        have hlev : (s.pc t).level ≠ none := by
          rw [hk.level]
          simp
        refine ⟨hsch.kid hu _ _ _, hreq.kid hsch hu hc (fun m hm => ?_) fun w hw => ?_⟩
        · exact (hv.kid_owner hu m).1 (exec_owner hlev he hm)
        · subst hw
          by_cases h1 : ∃ m, s.pc t = .lockIf m
          · obtain ⟨m, hm⟩ := h1
            rw [hm] at he
            simp only [exec] at he
            split at he
            · simp only [bind_ok, pure_ok, Prod.mk.injEq] at he
              obtain ⟨μ₁, -, μ₂, -, pc', h3, -, rfl, -⟩ := he
              cases (tblock_ok h3).2.2
            · simp [pure_ok] at he
          · have hsc := hreq.scan_kid (μ := s.kid t) hv hu fun m => (hv.kid_owner hu m).2
            refine exec_scan (fun m e => h1 ⟨m, e⟩) (fun mp a e => ?_) hsc (fun e => ?_) he
            · rw [e] at hlev
              exact hlev rfl
            · rw [e] at hlev
              exact absurd rfl hlev

/-- The master takes a step for a thread. -/
theorem masterStep (h : Sound N s) (hw : s.who = .thread t)
    (hcl : s.pc t = .exitSync → Clean s.mem t) : Sound N (s.masterStep N t) := by
  obtain ⟨hv, p, l, r, hsch, hreq⟩ := h
  refine ⟨(Good.masterStep ⟨⟨p, l, hsch⟩, hv⟩ hw).views, ?_⟩
  unfold Sys.masterStep
  split
  · rename_i a hpc
    obtain ⟨p', l', hs, hkept⟩ := hsch.finish (N := N) hw hpc
    exact ⟨p', l', r, hs, hreq.finish hsch hw hpc hkept.1⟩
  · split
    · rename_i w he
      exact ⟨p, l, r, hsch.fail hw w, hreq.fail hsch hw (exec_error (hreq.safe hsch hv hw) he)⟩
    · rename_i μ pc notes he
      exact hreq.exec hsch hv hw hcl he

theorem step (h : Sound N s) (ha : ExitsClean s a) (hs : s.step N a = some s') : Sound N s' := by
  unfold Sys.step at hs
  split at hs
  · split at hs
    · rename_i t call hu
      exact h.kidStep hu hs
    · cases hs
  · split at hs
    · rename_i hw
      cases hs
      obtain ⟨hv, p, l, r, hsch, hreq⟩ := h
      obtain ⟨p', l', hs, hkept⟩ := hsch.schedStep hw
      exact ⟨hv.schedStep hsch hw, p', l', r, hs, hreq.schedStep hsch hw hkept.1⟩
    · rename_i hw
      obtain ⟨hv, p, l, r, hsch, hreq⟩ := h
      obtain ⟨t, ts, d, pc, hc⟩ := collectStep_ok hsch hv hw hs
      exact ⟨hc.views hv, _, _, r, hc.sched, hreq.collect hsch hv hw hc⟩
    · rename_i t hw
      cases hs
      exact h.masterStep hw (ha rfl t hw)

theorem run {owner : MutexId → Tid} (hN : 0 < N) (h : Sys.Run N ExitsClean owner s) :
    Sound N s := by
  induction h with
  | init => exact init hN owner
  | step _ ha hs ih => exact ih.step ha hs

end Sound

end Determinator.Dsthread
