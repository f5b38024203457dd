import Determinator.Net.Moves

/-!
# Where a migrating process is

Requests and acknowledgements carry no sequence number: a node takes any request for a process that
is away, and any acknowledgement for one that it is sending. So a packet that has been delayed for
long enough is taken for a later one. The module shows what holds as long as that does not happen:
a process is on one node at most as long as no old request is accepted (`one_holder`), and it is
never lost as long as acknowledgements are not mixed up (`never_lost`).
-/

namespace Determinator

namespace Cluster

/-! ## The numbers of the migrations -/

/-- The packets and the structures of a process carry numbers of migrations that have taken place,
and a process that has not been created is nowhere. -/
structure Numbered (h : RR) (s : Cluster) : Prop where
  request : ∀ src dst pml4 save no, .migrq src dst h pml4 save no ∈ s.wire →
    no ≤ s.count h ∧ dst.valid = true ∧ pml4.node.valid = true ∧ pml4.node ≠ dst
  reply : ∀ src dst no, .migrp src dst h no ∈ s.wire → no ≤ s.count h
  migr : ∀ n p, s.held h n = some p → p.state = .migr → p.no ≤ s.count h
  valid : ∀ n p, s.held h n = some p → n.valid = true
  born : s.held h h.node = none → (∀ n, s.held h n = none) ∧ ∀ x ∈ s.wire, x.home ≠ h

section

variable {s t : Cluster} {e : Event} {h : RR}

theorem numbered_init (h : RR) : Numbered h init :=
  ⟨by simp [init], by simp [init], by simp [init, held], by simp [init, held],
    by simp [init, held]⟩

/-- A process that a packet is about has been created. -/
theorem Numbered.known (hs : Numbered h s) {x : Packet} (hx : x ∈ s.wire) (hxh : x.home = h) :
    s.held h h.node ≠ none := by
  intro hn
  exact (hs.born hn).2 x hx hxh

/-- A process that a node knows has been created. -/
theorem Numbered.created (hs : Numbered h s) {n : NodeId} {p : NetProc}
    (hp : s.held h n = some p) : s.held h h.node ≠ none := by
  intro hn
  rw [(hs.born hn).1 n] at hp
  cases hp

/-- A structure that is set stays set, so a process that has been created stays so. -/
theorem still_created {n : NodeId} {p' : NetProc} (hb : s.held h h.node ≠ none)
    (hp' : t.held h n = some p') (ho : ∀ m, m ≠ n → t.held h m = s.held h m) :
    t.held h h.node ≠ none := by
  by_cases hn : h.node = n
  · rw [hn, hp']
    simp
  · rw [ho _ hn]
    exact hb

theorem numbered_move (hs : Numbered h s) (hm : Move h s e t) : Numbered h t := by
  cases hm with
  | idle hh hc hw =>
    refine ⟨?_, ?_, ?_, ?_, ?_⟩
    · intro src dst pml4 save no hx
      rw [hc]
      rcases hw _ hx rfl with hx | ⟨n, p, hp, hpm, hr, hv, hne⟩
      · exact hs.request src dst pml4 save no hx
      · simp only [Cluster.request, Packet.migrq.injEq] at hr
        obtain ⟨rfl, rfl, -, rfl, -, rfl⟩ := hr
        exact ⟨hs.migr src p hp hpm, hv, hs.valid src p hp, hne.symm⟩
    · intro src dst no hx
      rw [hc]
      rcases hw _ hx rfl with hx | ⟨n, p, -, -, hr, -⟩
      · exact hs.reply src dst no hx
      · cases hr
    · intro n p hp hpm
      rw [hc]
      exact hs.migr n p (hh n ▸ hp) hpm
    · exact fun n p hp => hs.valid n p (hh n ▸ hp)
    · intro hn
      rw [hh] at hn
      refine ⟨fun n => (hh n).trans ((hs.born hn).1 n), fun x hx hxh => ?_⟩
      rcases hw x hx hxh with hx | ⟨n, p, hp, -⟩
      · exact (hs.born hn).2 x hx hxh
      · exact absurd hn (hs.created hp)
  | stay n p p' hp hph hp' hph' ho hc hw =>
    refine ⟨?_, ?_, ?_, ?_, fun hn => absurd hn (still_created (hs.created hp) hp' ho)⟩
    · intro src dst pml4 save no hx
      rw [hc]
      exact hs.request src dst pml4 save no (hw _ hx rfl)
    · intro src dst no hx
      rw [hc]
      exact hs.reply src dst no (hw _ hx rfl)
    · intro m q hq hqm
      rw [hc]
      by_cases hmn : m = n
      · subst hmn
        obtain rfl := Option.some.inj (hp'.symm.trans hq)
        exact absurd hqm hph'.1
      · exact hs.migr m q (ho m hmn ▸ hq) hqm
    · intro m q hq
      by_cases hmn : m = n
      · subst hmn
        exact hs.valid m p hp
      · exact hs.valid m q (ho m hmn ▸ hq)
  | create p' hv hp hp' hph' ho hc hw =>
    obtain ⟨hnone, hwire⟩ := hs.born hp
    have hfresh : ∀ m q, t.held h m = some q → m = h.node ∧ q = p' := by
      intro m q hq
      by_cases hmn : m = h.node
      · subst hmn
        exact ⟨rfl, (Option.some.inj (hp'.symm.trans hq)).symm⟩
      · rw [ho m hmn, hnone m] at hq
        cases hq
    refine ⟨?_, ?_, ?_, ?_, ?_⟩
    · intro src dst pml4 save no hx
      exact absurd rfl (hwire _ (hw _ hx rfl))
    · intro src dst no hx
      exact absurd rfl (hwire _ (hw _ hx rfl))
    · intro m q hq hqm
      obtain ⟨-, rfl⟩ := hfresh m q hq
      exact absurd hqm hph'.1
    · intro m q hq
      obtain ⟨rfl, -⟩ := hfresh m q hq
      exact hv
    · intro hn
      rw [hp'] at hn
      cases hn
  | leave n dst p p' hp hph hp' hpm hd hno ho hc hw =>
    refine ⟨?_, ?_, ?_, ?_, fun hn => absurd hn (still_created (hs.created hp) hp' ho)⟩
    · intro src dst' pml4 save no hx
      rw [hc]
      rcases hw _ hx rfl with hx | ⟨hr, hv, hne⟩
      · obtain ⟨h₁, h₂⟩ := hs.request src dst' pml4 save no hx
        exact ⟨by omega, h₂⟩
      · simp only [Cluster.request, Packet.migrq.injEq] at hr
        obtain ⟨rfl, rfl, -, rfl, -, rfl⟩ := hr
        exact ⟨by omega, hv, hs.valid src p hp, hne.symm⟩
    · intro src dst' no hx
      rw [hc]
      rcases hw _ hx rfl with hx | ⟨hr, -⟩
      · have := hs.reply src dst' no hx
        omega
      · cases hr
    · intro m q hq hqm
      rw [hc]
      by_cases hmn : m = n
      · subst hmn
        obtain rfl := Option.some.inj (hp'.symm.trans hq)
        omega
      · have := hs.migr m q (ho m hmn ▸ hq) hqm
        omega
    · intro m q hq
      by_cases hmn : m = n
      · subst hmn
        exact hs.valid m p hp
      · exact hs.valid m q (ho m hmn ▸ hq)
  | refuse i src n pml4 save no p hev hpkt hp hpa hh hc hw =>
    have hmem := List.mem_of_getElem? hpkt
    refine ⟨?_, ?_, ?_, ?_, ?_⟩
    · intro src' dst pml4' save' no' hx
      rw [hc]
      rcases hw _ hx rfl with hx | hx
      · exact hs.request src' dst pml4' save' no' hx
      · cases hx
    · intro src' dst no' hx
      rw [hc]
      rcases hw _ hx rfl with hx | hx
      · exact hs.reply src' dst no' hx
      · simp only [Packet.migrp.injEq] at hx
        obtain ⟨-, -, -, rfl⟩ := hx
        exact (hs.request src n pml4 save no' hmem).1
    · intro m q hq hqm
      rw [hc]
      exact hs.migr m q (hh m ▸ hq) hqm
    · exact fun m q hq => hs.valid m q (hh m ▸ hq)
    · intro hn
      rw [hh] at hn
      exact absurd hn (hs.created hp)
  | accept i src n pml4 save no p' hev hpkt hp hp' hst ho hc hw =>
    have hmem := List.mem_of_getElem? hpkt
    refine ⟨?_, ?_, ?_, ?_, fun hn => absurd hn (still_created (hs.known hmem rfl) hp' ho)⟩
    · intro src' dst pml4' save' no' hx
      rw [hc]
      rcases hw _ hx rfl with hx | hx
      · exact hs.request src' dst pml4' save' no' hx
      · cases hx
    · intro src' dst no' hx
      rw [hc]
      rcases hw _ hx rfl with hx | hx
      · exact hs.reply src' dst no' hx
      · simp only [Packet.migrp.injEq] at hx
        obtain ⟨-, -, -, rfl⟩ := hx
        exact (hs.request src n pml4 save no' hmem).1
    · intro m q hq hqm
      rw [hc]
      by_cases hmn : m = n
      · subst hmn
        obtain rfl := Option.some.inj (hp'.symm.trans hq)
        rcases hst with hst | ⟨hst, -⟩ <;> rw [hqm] at hst <;> cases hst
      · exact hs.migr m q (ho m hmn ▸ hq) hqm
    · intro m q hq
      by_cases hmn : m = n
      · subst hmn
        exact (hs.request src m pml4 save no hmem).2.1
      · exact hs.valid m q (ho m hmn ▸ hq)
  | ack i src n no p p' hev hpkt hp hpm hp' hpa ho hc hw =>
    refine ⟨?_, ?_, ?_, ?_, fun hn => absurd hn (still_created (hs.created hp) hp' ho)⟩
    · intro src' dst pml4 save no' hx
      rw [hc]
      exact hs.request src' dst pml4 save no' (hw _ hx rfl)
    · intro src' dst no' hx
      rw [hc]
      exact hs.reply src' dst no' (hw _ hx rfl)
    · intro m q hq hqm
      rw [hc]
      by_cases hmn : m = n
      · subst hmn
        obtain rfl := Option.some.inj (hp'.symm.trans hq)
        rw [hqm] at hpa
        cases hpa
      · exact hs.migr m q (ho m hmn ▸ hq) hqm
    · intro m q hq
      by_cases hmn : m = n
      · subst hmn
        exact hs.valid m p hp
      · exact hs.valid m q (ho m hmn ▸ hq)

/-- The rule for invariants of a process, with the numbers at hand. -/
theorem Run.numbered {ok : Cluster → Event → Prop} {I : Cluster → Prop} (h : RR) (h0 : I init)
    (hstep : ∀ s e t, Numbered h s → I s → ok s e → Move h s e t → I t) {es : List Event}
    (hr : Run ok es s) : I s :=
  (hr.invariant (I := fun s => Numbered h s ∧ I s) h ⟨numbered_init h, h0⟩
    fun s e t hs hok hm => ⟨numbered_move hs.1 hm, hstep s e t hs.1 hs.2 hok hm⟩).2

end

/-! ## At most one node -/

/-- A request is only accepted if it belongs to the latest migration of its process. -/
def RequestsFresh (s : Cluster) (e : Event) : Prop :=
  ∀ i pg src n h pml4 save no, e = .deliver i pg →
    s.wire[i]? = some (.migrq src n h pml4 save no) →
    (∀ p, s.held h n = some p → p.state = .away) → no = s.count h

/-- The latest migration of the process went to node `d`, and has ended there or not; before the
first one the process is on its home node. -/
structure Settled (h : RR) (d : NodeId) (arrived : Prop) (s : Cluster) : Prop where
  request : ∀ src dst pml4 save, .migrq src dst h pml4 save (s.count h) ∈ s.wire → dst = d
  migr : ∀ n p, s.held h n = some p → p.state = .migr → p.no = s.count h → p.migrdest = d
  here : ∀ n p, s.held h n = some p → p.here → arrived ∧ n = d
  there : arrived → ∃ p, s.held h d = some p ∧ p.here

section

variable {s t : Cluster} {e : Event} {h : RR}

theorem settled_init (h : RR) : Settled h 0 False init :=
  ⟨by simp [init], by simp [init, held], by simp [init, held], False.elim⟩

theorem settled_move (hn : Numbered h s) (hs : ∃ d arrived, Settled h d arrived s)
    (hok : RequestsFresh s e) (hm : Move h s e t) : ∃ d arrived, Settled h d arrived t := by
  obtain ⟨d, arrived, hs⟩ := hs
  cases hm with
  | idle hh hc hw =>
    refine ⟨d, arrived, ?_, ?_, ?_, ?_⟩
    · intro src dst pml4 save hx
      rw [hc] at hx
      rcases hw _ hx rfl with hx | ⟨n, p, hp, hpm, hr, -⟩
      · exact hs.request src dst pml4 save hx
      · simp only [Cluster.request, Packet.migrq.injEq] at hr
        obtain ⟨-, rfl, -, -, -, hno⟩ := hr
        exact hs.migr n p hp hpm hno.symm
    · intro n p hp hpm
      rw [hc]
      exact hs.migr n p (hh n ▸ hp) hpm
    · exact fun n p hp => hs.here n p (hh n ▸ hp)
    · intro ha
      rw [hh]
      exact hs.there ha
  | stay n p p' hp hph hp' hph' ho hc hw =>
    obtain ⟨ha, rfl⟩ := hs.here n p hp hph
    refine ⟨n, arrived, ?_, ?_, ?_, fun _ => ⟨p', hp', hph'⟩⟩
    · intro src dst pml4 save hx
      rw [hc] at hx
      exact hs.request src dst pml4 save (hw _ hx rfl)
    · intro m q hq hqm
      rw [hc]
      by_cases hmn : m = n
      · subst hmn
        obtain rfl := Option.some.inj (hp'.symm.trans hq)
        exact absurd hqm hph'.1
      · exact hs.migr m q (ho m hmn ▸ hq) hqm
    · intro m q hq hqh
      by_cases hmn : m = n
      · exact ⟨ha, hmn⟩
      · exact hs.here m q (ho m hmn ▸ hq) hqh
  | create p' hv hp hp' hph' ho hc hw =>
    obtain ⟨hnone, hwire⟩ := hn.born hp
    refine ⟨h.node, True, ?_, ?_, ?_, fun _ => ⟨p', hp', hph'⟩⟩
    · intro src dst pml4 save hx
      exact absurd rfl (hwire _ (hw _ hx rfl))
    · intro m q hq hqm
      by_cases hmn : m = h.node
      · subst hmn
        obtain rfl := Option.some.inj (hp'.symm.trans hq)
        exact absurd hqm hph'.1
      · rw [ho m hmn, hnone m] at hq
        cases hq
    · intro m q hq _
      refine ⟨trivial, ?_⟩
      by_contra hmn
      rw [ho m hmn, hnone m] at hq
      cases hq
  | leave n dst p p' hp hph hp' hpm hd hno ho hc hw =>
    obtain ⟨ha, rfl⟩ := hs.here n p hp hph
    refine ⟨dst, False, ?_, ?_, ?_, False.elim⟩
    · intro src dst' pml4 save hx
      rcases hw _ hx rfl with hx | ⟨hr, -⟩
      · have := (hn.request src dst' pml4 save _ hx).1
        omega
      · simp only [Cluster.request, Packet.migrq.injEq] at hr
        obtain ⟨-, rfl, -⟩ := hr
        exact hd
    · intro m q hq hqm hqno
      by_cases hmn : m = n
      · subst hmn
        obtain rfl := Option.some.inj (hp'.symm.trans hq)
        exact hd
      · have := hn.migr m q (ho m hmn ▸ hq) hqm
        omega
    · intro m q hq hqh
      exfalso
      by_cases hmn : m = n
      · subst hmn
        obtain rfl := Option.some.inj (hp'.symm.trans hq)
        exact hqh.1 hpm
      · exact hmn (hs.here m q (ho m hmn ▸ hq) hqh).2
  | refuse i src n pml4 save no p hev hpkt hp hpa hh hc hw =>
    refine ⟨d, arrived, ?_, ?_, ?_, ?_⟩
    · intro src' dst pml4' save' hx
      rw [hc] at hx
      rcases hw _ hx rfl with hx | hx
      · exact hs.request src' dst pml4' save' hx
      · cases hx
    · intro m q hq hqm
      rw [hc]
      exact hs.migr m q (hh m ▸ hq) hqm
    · exact fun m q hq => hs.here m q (hh m ▸ hq)
    · intro ha
      rw [hh]
      exact hs.there ha
  | accept i src n pml4 save no p' hev hpkt hp hp' hst ho hc hw =>
    have hmem := List.mem_of_getElem? hpkt
    obtain ⟨pg, rfl⟩ := hev
    -- the request is of the latest migration, so it has come to the right node, and was not there
    obtain rfl := hok i pg src n h pml4 save no rfl hpkt hp
    obtain rfl := hs.request src n pml4 save hmem
    have hnot : ¬arrived := by
      intro ha
      obtain ⟨q, hq, hqh⟩ := hs.there ha
      exact hqh.2 (hp q hq)
    have hreq : ∀ src' dst pml4' save', .migrq src' dst h pml4' save' (t.count h) ∈ t.wire →
        dst = n := by
      intro src' dst pml4' save' hx
      rw [hc] at hx
      rcases hw _ hx rfl with hx | hx
      · exact hs.request src' dst pml4' save' hx
      · cases hx
    have hmigr : ∀ m q, t.held h m = some q → q.state = .migr → q.no = t.count h →
        q.migrdest = n := by
      intro m q hq hqm
      rw [hc]
      by_cases hmn : m = n
      · subst hmn
        obtain rfl := Option.some.inj (hp'.symm.trans hq)
        rcases hst with hst | ⟨hst, -⟩ <;> rw [hqm] at hst <;> cases hst
      · exact hs.migr m q (ho m hmn ▸ hq) hqm
    have hother : ∀ m q, t.held h m = some q → q.here → m = n := by
      intro m q hq hqh
      by_contra hmn
      exact hnot (hs.here m q (ho m hmn ▸ hq) hqh).1
    rcases hst with hst | ⟨hst, -⟩
    · have hph' : p'.here := by simp [NetProc.here, hst]
      exact ⟨n, True, hreq, hmigr, fun m q hq hqh => ⟨trivial, hother m q hq hqh⟩,
        fun _ => ⟨p', hp', hph'⟩⟩
    · refine ⟨n, False, hreq, hmigr, fun m q hq hqh => ?_, False.elim⟩
      exfalso
      obtain rfl := hother m q hq hqh
      obtain rfl := Option.some.inj (hp'.symm.trans hq)
      exact hqh.2 hst
  | ack i src n no p p' hev hpkt hp hpm hp' hpa ho hc hw =>
    refine ⟨d, arrived, ?_, ?_, ?_, ?_⟩
    · intro src' dst pml4 save hx
      rw [hc] at hx
      exact hs.request src' dst pml4 save (hw _ hx rfl)
    · intro m q hq hqm
      rw [hc]
      by_cases hmn : m = n
      · subst hmn
        obtain rfl := Option.some.inj (hp'.symm.trans hq)
        rw [hqm] at hpa
        cases hpa
      · exact hs.migr m q (ho m hmn ▸ hq) hqm
    · intro m q hq hqh
      by_cases hmn : m = n
      · subst hmn
        obtain rfl := Option.some.inj (hp'.symm.trans hq)
        exact absurd hpa hqh.2
      · exact hs.here m q (ho m hmn ▸ hq) hqh
    · intro ha
      obtain ⟨q, hq, hqh⟩ := hs.there ha
      have hdn : d ≠ n := by
        rintro rfl
        obtain rfl := Option.some.inj (hp.symm.trans hq)
        exact hqh.1 hpm
      exact ⟨q, by rw [ho d hdn, hq], hqh⟩

/-- **A process is on one node at most**, in every run in which only requests of the latest
migration are accepted. -/
theorem one_holder {es : List Event} (hr : Run RequestsFresh es s) {n m : NodeId} {p q : NetProc}
    (hn : s.held h n = some p) (hp : p.here) (hm : s.held h m = some q) (hq : q.here) : n = m := by
  obtain ⟨d, arrived, hs⟩ := hr.numbered h ⟨0, False, settled_init h⟩
    fun s e t hnum hs hok hm => settled_move hnum hs hok hm
  rw [(hs.here n p hn hp).2, (hs.here m q hm hq).2]

/-- `RequestsFresh`, as a check. -/
def requestsFresh (s : Cluster) : Event → Bool
  | .deliver i _ =>
    match s.wire[i]? with
    | some (.migrq _ n h _ _ no) =>
      !(s.held h n).all (fun p => p.state = .away) || no = s.count h
    | _ => true
  | _ => true

theorem requestsFresh_ok {e : Event} (hc : requestsFresh s e = true) : RequestsFresh s e := by
  rintro i pg src n h pml4 save no rfl hi hp
  simp only [requestsFresh, hi, Bool.or_eq_true, decide_eq_true_eq] at hc
  refine hc.resolve_left ?_
  cases hh : s.held h n with
  | none => simp
  | some p => simp [hp p hh]

/-- Process `5` of node `1`, on its way to node `2`. -/
def departure : List Event :=
  [.create 1 5 .zero 9, .sched 1 ⟨1, 5⟩ .run, .migrate 1 ⟨1, 5⟩ 2 .zero]

/-- The request is accepted. -/
theorem one_holder_arrival : ∃ s, Run RequestsFresh (departure ++ [.deliver 0 7]) s ∧
    ∃ p, s.held ⟨1, 5⟩ 2 = some p ∧ p.here ∧
      ∀ m q, s.held ⟨1, 5⟩ m = some q → q.here → 2 = m := by
  have hs : ((checked requestsFresh init (departure ++ [.deliver 0 7])).bind fun s =>
      (s.held ⟨1, 5⟩ 2).map fun p => p.state) = some .pull := by decide +kernel
  obtain ⟨s, hs, hp⟩ := Option.bind_eq_some_iff.1 hs
  obtain ⟨p, hp, hst⟩ := Option.map_eq_some_iff.1 hp
  have hr := run_of_checked (fun _ _ => requestsFresh_ok) hs
  have hh : p.here := by simp [NetProc.here, hst]
  exact ⟨s, hr, p, hp, hh, fun m q hq hqh => one_holder hr hp hh hq hqh⟩

/-- A duplicate of the first request arrives when the process has gone on from node `2` to node
`3`. -/
def lateRequest : List Event :=
  departure ++ [.dup 0, .deliver 0 7, .deliver 1 0, .pulled 2 ⟨1, 5⟩, .sched 2 ⟨1, 5⟩ .run,
    .migrate 2 ⟨1, 5⟩ 3 .zero, .deliver 1 7, .deliver 1 0, .deliver 0 8]

/-- Both nodes have the process. -/
theorem late_request_accepted : ∃ s p q, Run (fun _ _ => True) lateRequest s ∧
    s.held ⟨1, 5⟩ 2 = some p ∧ p.here ∧ s.held ⟨1, 5⟩ 3 = some q ∧ q.here := by
  have hs : ((checked (fun _ _ => true) init lateRequest).bind fun s =>
      (s.held ⟨1, 5⟩ 2).bind fun p => (s.held ⟨1, 5⟩ 3).map fun q => (p.state, q.state))
      = some (.pull, .pull) := by decide +kernel
  obtain ⟨s, hs, hp⟩ := Option.bind_eq_some_iff.1 hs
  obtain ⟨p, hp, hq⟩ := Option.bind_eq_some_iff.1 hp
  obtain ⟨q, hq, hst⟩ := Option.map_eq_some_iff.1 hq
  obtain ⟨hp', hq'⟩ := Prod.mk.inj hst
  exact ⟨s, p, q, run_of_checked (fun _ _ _ => trivial) hs, hp, by simp [NetProc.here, hp'], hq,
    by simp [NetProc.here, hq']⟩

end

/-! ## Never lost -/

/-- A node that is sending a process only takes replies to its own request, and no request of the
latest migration comes to a node that is still sending the process. -/
def RepliesMatch (s : Cluster) (e : Event) : Prop :=
  ∀ i pg h n p, e = .deliver i pg → s.held h n = some p → p.state = .migr →
    (∀ src no, s.wire[i]? = some (.migrp src n h no) → no = p.no) ∧
      ∀ src pml4 save no, s.wire[i]? = some (.migrq src n h pml4 save no) → no ≠ s.count h

/-- Some node has the process or is sending it, or a request of its latest migration is on its way
to a node that will accept it. -/
def NotLost (h : RR) (s : Cluster) : Prop :=
  (∃ n p, s.held h n = some p ∧ p.state ≠ .away) ∨
    ∃ src n pml4 save, .migrq src n h pml4 save (s.count h) ∈ s.wire ∧
      ∀ p, s.held h n = some p → p.state = .away

/-- The process is on some node, or the node that is sending it has not been answered. -/
def Kept (h : RR) (s : Cluster) : Prop :=
  s.held h h.node ≠ none →
    (∃ n p, s.held h n = some p ∧ p.here) ∨
      ∃ n p, s.held h n = some p ∧ p.state = .migr ∧ p.no = s.count h ∧
        ∀ src dst no, .migrp src dst h no ∈ s.wire → no ≠ s.count h

section

variable {s t : Cluster} {e : Event} {h : RR}

theorem kept_move (hn : Numbered h s) (hs : Kept h s) (hok : RepliesMatch s e)
    (hm : Move h s e t) : Kept h t := by
  intro hb
  cases hm with
  | idle hh hc hw =>
    rw [hh] at hb
    rcases hs hb with ⟨n, p, hp, hph⟩ | ⟨n, p, hp, hpm, hno, hr⟩
    · exact .inl ⟨n, p, by rw [hh, hp], hph⟩
    · refine .inr ⟨n, p, by rw [hh, hp], hpm, by rw [hc, hno], fun src dst no hx => ?_⟩
      rw [hc]
      rcases hw _ hx rfl with hx | ⟨m, q, -, -, hq, -⟩
      · exact hr src dst no hx
      · cases hq
  | stay n p p' hp hph hp' hph' ho hc hw => exact .inl ⟨n, p', hp', hph'⟩
  | create p' hv hp hp' hph' ho hc hw => exact .inl ⟨h.node, p', hp', hph'⟩
  | leave n dst p p' hp hph hp' hpm hd hno ho hc hw =>
    refine .inr ⟨n, p', hp', hpm, by rw [hc, hno], fun src dst' no hx => ?_⟩
    rcases hw _ hx rfl with hx | ⟨hr, -⟩
    · have := hn.reply src dst' no hx
      omega
    · cases hr
  | refuse i src n pml4 save no p hev hpkt hp hpa hh hc hw =>
    rw [hh] at hb
    obtain ⟨pg, rfl⟩ := hev
    by_cases hpm : p.state = .migr
    · -- the node is sending the process itself: the request is an old one
      have hold := (hok i pg h n p rfl hp hpm).2 src pml4 save no hpkt
      rcases hs hb with ⟨m, q, hq, hqh⟩ | ⟨m, q, hq, hqm, hno, hr⟩
      · exact .inl ⟨m, q, by rw [hh, hq], hqh⟩
      · refine .inr ⟨m, q, by rw [hh, hq], hqm, by rw [hc, hno], fun src' dst no' hx => ?_⟩
        rw [hc]
        rcases hw _ hx rfl with hx | hx
        · exact hr src' dst no' hx
        · simp only [Packet.migrp.injEq] at hx
          obtain ⟨-, -, -, rfl⟩ := hx
          exact hold
    · exact .inl ⟨n, p, by rw [hh, hp], hpm, hpa⟩
  | accept i src n pml4 save no p' hev hpkt hp hp' hst ho hc hw =>
    obtain ⟨-, -, hv, hne⟩ := hn.request src n pml4 save no (List.mem_of_getElem? hpkt)
    rcases hst with hst | ⟨-, hst⟩
    · exact .inl ⟨n, p', hp', by simp [NetProc.here, hst]⟩
    · exact absurd ⟨hv, hne⟩ hst
  | ack i src n no p p' hev hpkt hp hpm hp' hpa ho hc hw =>
    obtain ⟨pg, rfl⟩ := hev
    have hno := (hok i pg h n p rfl hp hpm).1 src no hpkt
    have hmem := List.mem_of_getElem? hpkt
    rcases hs (hn.created hp) with ⟨m, q, hq, hqh⟩ | ⟨m, q, hq, hqm, hqno, hr⟩
    · have hmn : m ≠ n := by
        rintro rfl
        obtain rfl := Option.some.inj (hp.symm.trans hq)
        exact hqh.1 hpm
      exact .inl ⟨m, q, by rw [ho m hmn, hq], hqh⟩
    · have hmn : m ≠ n := by
        rintro rfl
        obtain rfl := Option.some.inj (hp.symm.trans hq)
        exact hr src m no hmem (hno.trans hqno)
      refine .inr ⟨m, q, by rw [ho m hmn, hq], hqm, by rw [hc, hqno], fun src' dst no' hx => ?_⟩
      rw [hc]
      exact hr src' dst no' (hw _ hx rfl)

/-- **A process is never lost**, in every run in which replies and requests are not mixed up. -/
theorem never_lost {es : List Event} (hr : Run RepliesMatch es s) (hb : s.held h h.node ≠ none) :
    NotLost h s := by
  have hk : Kept h s := hr.numbered h (fun hb => absurd rfl hb)
    fun s e t hnum hs hok hm => kept_move hnum hs hok hm
  rcases hk hb with ⟨n, p, hp, hph⟩ | ⟨n, p, hp, hpm, -⟩
  · exact .inl ⟨n, p, hp, hph.2⟩
  · refine .inl ⟨n, p, hp, ?_⟩
    rw [hpm]
    decide

/-- `RepliesMatch`, as a check. -/
def repliesMatch (s : Cluster) : Event → Bool
  | .deliver i _ =>
    match s.wire[i]? with
    | some (.migrp _ n h no) =>
      (s.held h n).all fun p => p.state ≠ .migr || no = p.no
    | some (.migrq _ n h _ _ no) =>
      (s.held h n).all fun p => p.state ≠ .migr || no ≠ s.count h
    | none => true
  | _ => true

theorem repliesMatch_ok {e : Event} (hc : repliesMatch s e = true) : RepliesMatch s e := by
  rintro i pg h n p rfl hp hpm
  constructor
  · intro src no hi
    simpa [repliesMatch, hi, hp, hpm] using hc
  · intro src pml4 save no hi
    simpa [repliesMatch, hi, hp, hpm] using hc

/-- The request is lost. -/
theorem never_lost_departure : ∃ s, Run RepliesMatch (departure ++ [.lose 0]) s ∧ s.wire = [] ∧
    NotLost ⟨1, 5⟩ s := by
  have hs : ((checked repliesMatch init (departure ++ [.lose 0])).map fun s =>
      (s.wire, (s.held ⟨1, 5⟩ 1).isSome)) = some ([], true) := by decide +kernel
  obtain ⟨s, hs, hp⟩ := Option.map_eq_some_iff.1 hs
  obtain ⟨hw, hp⟩ := Prod.mk.inj hp
  have hr := run_of_checked (fun _ _ => repliesMatch_ok) hs
  exact ⟨s, hr, hw, never_lost hr (Option.isSome_iff_ne_none.1 hp)⟩

/-- A duplicate of the first acknowledgement arrives when the process has come back to node `1`
and is on its way to node `3`, and the request has been lost. -/
def lateReply : List Event :=
  departure ++ [.deliver 0 7, .dup 0, .deliver 0 0, .pulled 2 ⟨1, 5⟩, .sched 2 ⟨1, 5⟩ .run,
    .migrate 2 ⟨1, 5⟩ 1 .zero, .deliver 1 8, .deliver 1 0, .pulled 1 ⟨1, 5⟩,
    .sched 1 ⟨1, 5⟩ .run, .migrate 1 ⟨1, 5⟩ 3 .zero, .lose 1, .deliver 0 0]

/-- The process is away everywhere, and no packet is in flight. -/
theorem late_reply_loses : ∃ s, Run (fun _ _ => True) lateReply s ∧
    s.held ⟨1, 5⟩ 1 ≠ none ∧ ¬NotLost ⟨1, 5⟩ s := by
  have hs : ((checked (fun _ _ => true) init lateReply).map fun s =>
      (s.wire, (s.held ⟨1, 5⟩ 1).isSome, (List.range 256).all fun n =>
        (s.held ⟨1, 5⟩ (.ofNat 8 n)).all fun p => p.state = .away)) = some ([], true, true) := by
    decide +kernel
  obtain ⟨s, hs, hp⟩ := Option.map_eq_some_iff.1 hs
  obtain ⟨hw, hp⟩ := Prod.mk.inj hp
  obtain ⟨hp, ha⟩ := Prod.mk.inj hp
  refine ⟨s, run_of_checked (fun _ _ _ => trivial) hs, Option.isSome_iff_ne_none.1 hp, ?_⟩
  rintro (⟨n, p, hn, hst⟩ | ⟨src, n, pml4, save, hx, -⟩)
  · have hn' := List.all_eq_true.1 ha n.toNat (List.mem_range.2 n.isLt)
    rw [BitVec.ofNat_toNat, BitVec.setWidth_eq, hn] at hn'
    exact hst (by simpa using hn')
  · rw [hw] at hx
    cases hx

end

end Cluster

end Determinator
