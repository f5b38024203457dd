import Determinator.Kern.Net

/-!
# The moves of a migrating process

What a step of the cluster can mean for one process: nothing, a retransmission, a step on the node
it is on, its creation, its departure, a request that is turned down, one that is accepted, or an
acknowledgement. The invariants of the protocol are proved from this list alone.
-/

namespace Determinator

/-- The process a packet is about. -/
def Packet.home : Packet → RR
  | .migrq _ _ h _ _ _ | .migrp _ _ h _ => h

/-- The process is on this node: it is neither leaving nor away. -/
def NetProc.here (p : NetProc) : Prop := p.state ≠ .migr ∧ p.state ≠ .away

namespace Cluster

/-- The structure that node `n` keeps for a process. -/
def held (s : Cluster) (h : RR) (n : NodeId) : Option NetProc := (s.node n).proc h

section

variable (s : Cluster) (n m : NodeId) (h k : RR) (p : NetProc)

@[simp] theorem setProc_held_self : (s.setProc n h p).held h n = some p := by
  simp [setProc, upd, held]

theorem setProc_held_ne {m : NodeId} (hm : m ≠ n) : (s.setProc n k p).held h m = s.held h m := by
  simp [setProc, upd, held, hm]

theorem setProc_held_other (hk : h ≠ k) : (s.setProc n k p).held h m = s.held h m := by
  unfold setProc upd held
  by_cases hm : m = n
  · subst hm
    simp [hk]
  · simp [hm]

@[simp] theorem setProc_wire : (s.setProc n h p).wire = s.wire := rfl
@[simp] theorem setProc_count : (s.setProc n h p).count = s.count := rfl
@[simp] theorem panic_wire : (s.panic n).wire = s.wire := rfl
@[simp] theorem panic_count : (s.panic n).count = s.count := rfl

@[simp] theorem panic_held : (s.panic n).held h m = s.held h m := by
  unfold panic upd held
  by_cases hm : m = n
  · subst hm
    simp
  · simp [hm]

@[simp] theorem panic_migrlist : ((s.panic n).node m).migrlist = (s.node m).migrlist := by
  unfold panic upd
  by_cases hm : m = n
  · subst hm
    simp
  · simp [hm]

@[simp] theorem setProc_migrlist : ((s.setProc n h p).node m).migrlist = (s.node m).migrlist := by
  unfold setProc upd
  by_cases hm : m = n
  · subst hm
    simp
  · simp [hm]

end

theorem setProc_held (s : Cluster) (n : NodeId) (k : RR) (p : NetProc) (h : RR) (m : NodeId)
    (hkm : h ≠ k ∨ m ≠ n) : (s.setProc n k p).held h m = s.held h m := by
  by_cases hm : m = n
  · subst hm
    exact setProc_held_other s m m h k p (hkm.elim id fun e => absurd rfl e)
  · exact setProc_held_ne s n h k p hm

/-! ## What the functions do -/

/-- Nothing but the network has changed, and it has only got the packets `new`. -/
structure Sends (s t : Cluster) (new : Packet → Prop) : Prop where
  held : ∀ h n, t.held h n = s.held h n
  count : t.count = s.count
  migrlist : ∀ n, (t.node n).migrlist = (s.node n).migrlist
  wire : ∀ x ∈ t.wire, x ∈ s.wire ∨ new x

/-- The request for a migrating process. -/
def request (n : NodeId) (h : RR) (p : NetProc) : Packet :=
  .migrq n p.migrdest h ⟨n, p.pml4⟩ p.sv p.no

/-- The packet is the request for a process that migrates from `n`. -/
def IsRequest (n : NodeId) (h : RR) (p : NetProc) (x : Packet) : Prop :=
  x = request n h p ∧ p.migrdest.valid = true ∧ p.migrdest ≠ n

section

variable {s t u : Cluster} {n : NodeId} {h : RR} {new new' : Packet → Prop}

theorem Sends.refl : Sends s s new := ⟨fun _ _ => rfl, rfl, fun _ => rfl, fun _ hx => .inl hx⟩

theorem Sends.trans (h₁ : Sends s t new) (h₂ : Sends t u new') (hn : ∀ x, new' x → new x) :
    Sends s u new := by
  refine ⟨fun h n => (h₂.held h n).trans (h₁.held h n), h₂.count.trans h₁.count,
    fun n => (h₂.migrlist n).trans (h₁.migrlist n), fun x hx => ?_⟩
  rcases h₂.wire x hx with hx | hx
  · exact h₁.wire x hx
  · exact .inr (hn x hx)

theorem Sends.panic (s : Cluster) (n : NodeId) : Sends s (s.panic n) new :=
  ⟨fun h m => panic_held s n m h, rfl, fun m => panic_migrlist s n m, fun _ hx => .inl hx⟩

theorem netTx_sends (s : Cluster) (n dst : NodeId) (pkt : Packet) :
    Sends s (s.netTx n dst pkt) fun x => x = pkt ∧ dst.valid = true ∧ dst ≠ n := by
  unfold netTx
  split
  · rename_i hd
    refine ⟨fun _ _ => rfl, rfl, fun _ => rfl, fun x hx => ?_⟩
    rcases List.mem_append.1 hx with hx | hx
    · exact .inl hx
    · exact .inr ⟨List.mem_singleton.1 hx, hd⟩
  · exact Sends.panic s n

theorem netTxmigrq_sends (s : Cluster) (n : NodeId) (h : RR) :
    Sends s (s.netTxmigrq n h)
      fun x => ∃ p, s.held h n = some p ∧ p.state = .migr ∧ IsRequest n h p x := by
  unfold netTxmigrq
  cases hp : (s.node n).proc h with
  | none => exact Sends.refl
  | some p =>
    simp only
    split
    · rename_i hm
      exact Sends.refl.trans (netTx_sends s n _ _) fun x hx => ⟨p, hp, hm, hx⟩
    · exact Sends.panic s n

theorem netTick_sends (s : Cluster) (n : NodeId) :
    Sends s (s.netTick n)
      fun x => ∃ h p, s.held h n = some p ∧ p.state = .migr ∧ IsRequest n h p x := by
  unfold netTick
  -- the requests are sent one after the other, and none of them changes a process
  have hfold : ∀ (l : List RR) (t : Cluster),
      Sends s t (fun x => ∃ h p, s.held h n = some p ∧ p.state = .migr ∧ IsRequest n h p x) →
      Sends s (l.foldl (fun s home => s.netTxmigrq n home) t)
        fun x => ∃ h p, s.held h n = some p ∧ p.state = .migr ∧ IsRequest n h p x := by
    intro l
    induction l with
    | nil => exact fun t ht => ht
    | cons k l ih =>
      intro t ht
      refine ih _ (ht.trans (netTxmigrq_sends t n k) ?_)
      rintro x ⟨p, hp, hm, hx⟩
      exact ⟨k, p, by rw [← ht.held, hp], hm, hx⟩
  exact hfold _ s Sends.refl

/-- A process leaves node `n`: from `p` to `p'`. -/
structure Leaves (s t : Cluster) (n : NodeId) (h : RR) (dst : NodeId) (p' : NetProc) : Prop where
  held : t.held h n = some p'
  others : ∀ k m, (k ≠ h ∨ m ≠ n) → t.held k m = s.held k m
  state : p'.state = .migr
  migrdest : p'.migrdest = dst
  no : p'.no = s.count h + 1
  count : t.count = Function.update s.count h (s.count h + 1)
  migrlist : (t.node n).migrlist = h :: (s.node n).migrlist
  migrlist_ne : ∀ m, m ≠ n → (t.node m).migrlist = (s.node m).migrlist
  wire : ∀ x ∈ t.wire, x ∈ s.wire ∨ IsRequest n h p' x

theorem netMigrate_leaves {p : NetProc} (dst : NodeId) (sv : Procstate)
    (hp : s.held h n = some p) :
    Sends s (s.netMigrate n h dst sv) (fun _ => False) ∨
      ∃ p', Leaves s (s.netMigrate n h dst sv) n h dst p' := by
  unfold netMigrate
  rw [show (s.node n).proc h = some p from hp]
  simp only
  split
  · right
    set p' : NetProc :=
      { p with state := .migr, migrdest := dst, sv := sv, no := s.count h + 1 } with hp'
    set u : Cluster := (({ s with count := Function.update s.count h (s.count h + 1) }).setProc n h
      p').upd n fun x => { x with migrlist := h :: x.migrlist } with hu
    have hself : u.held h n = some p' := by simp [hu, upd, setProc, held]
    have hother : ∀ k m, (k ≠ h ∨ m ≠ n) → u.held k m = s.held k m := by
      intro k m hkm
      by_cases hm : m = n
      · subst hm
        have hk : k ≠ h := hkm.elim id fun e => absurd rfl e
        simp [hu, upd, setProc, held, hk]
      · simp [hu, upd, setProc, held, hm]
    have hlist : (u.node n).migrlist = h :: (s.node n).migrlist := by simp [hu, upd, setProc]
    have hlist' : ∀ m, m ≠ n → (u.node m).migrlist = (s.node m).migrlist := by
      intro m hm
      simp [hu, upd, setProc, hm]
    have hsend := netTxmigrq_sends u n h
    refine ⟨p', ⟨?_, ?_, rfl, rfl, rfl, ?_, ?_, ?_, ?_⟩⟩
    · rw [hsend.held, hself]
    · intro k m hkm
      rw [hsend.held, hother k m hkm]
    · rw [hsend.count]
      rfl
    · rw [hsend.migrlist, hlist]
    · intro m hm
      rw [hsend.migrlist, hlist' m hm]
    · intro x hx
      rcases hsend.wire x hx with hx | ⟨q, hq, -, hx⟩
      · exact .inl hx
      · obtain rfl := Option.some.inj (hq.symm.trans hself)
        exact .inr hx
  · exact .inl (Sends.panic s n)

/-- A process arrives at node `n`. -/
structure Arrives (s t : Cluster) (n : NodeId) (h rr : RR) (p' : NetProc) (new : Packet → Prop) :
    Prop where
  held : t.held h n = some p'
  others : ∀ k m, (k ≠ h ∨ m ≠ n) → t.held k m = s.held k m
  /-- It stays away if the node goes down, for want of a node to pull it from. -/
  state : p'.state = .pull ∨ p'.state = .away ∧ ¬(rr.node.valid = true ∧ rr.node ≠ n)
  count : t.count = s.count
  migrlist : ∀ m, (t.node m).migrlist = (s.node m).migrlist
  wire : ∀ x ∈ t.wire, x ∈ s.wire ∨ new x

theorem netRxmigrq_cases (s : Cluster) (n src : NodeId) (h rr : RR) (save : Procstate) (no : ℕ)
    (pml4 : BitVec 20) :
    Sends s (s.netRxmigrq n src h rr save no pml4) (fun _ => False) ∨
    (∃ p, s.held h n = some p ∧ p.state ≠ .away ∧
      Sends s (s.netRxmigrq n src h rr save no pml4) (· = .migrp n src h no)) ∨
    ((∀ p, s.held h n = some p → p.state = .away) ∧
      ∃ p', Arrives s (s.netRxmigrq n src h rr save no pml4) n h rr p' (· = .migrp n src h no)) := by
  unfold netRxmigrq
  split
  · exact .inl (Sends.panic s n)
  right
  simp only
  have hset : ∀ (t : Cluster) (p : NetProc) (k : RR) (m : NodeId), (k ≠ h ∨ m ≠ n) →
      (t.setProc n h p).held k m = t.held k m := fun t p => setProc_held t n h p
  by_cases ha : (((s.node n).proc h).getD (newProc pml4)).state ≠ .away
  · rw [if_pos ha]
    left
    cases hp : (s.node n).proc h with
    | none =>
      rw [hp] at ha
      exact absurd rfl ha
    | some p =>
      rw [hp] at ha
      have hsame : Sends s (s.setProc n h p) (· = .migrp n src h no) := by
        refine ⟨fun k m => ?_, rfl, fun m => setProc_migrlist s n m h p, fun x hx => .inl hx⟩
        by_cases hkm : k ≠ h ∨ m ≠ n
        · exact hset s p k m hkm
        · push Not at hkm
          obtain ⟨rfl, rfl⟩ := hkm
          rw [setProc_held_self]
          exact hp.symm
      exact ⟨p, hp, ha, hsame.trans (netTx_sends _ n _ _) fun _ hx => hx.1⟩
  · rw [if_neg ha]
    right
    have haway : ∀ p, s.held h n = some p → p.state = .away := by
      intro p hp
      rw [show (s.node n).proc h = some p from hp] at ha
      simpa using ha
    refine ⟨haway, ?_⟩
    set p := ((s.node n).proc h).getD (newProc pml4) with hpdef
    set q : NetProc := { p with sv := save, rrpml4 := some rr } with hq
    set u := (s.setProc n h p).setProc n h q with hu
    have hsend := netTx_sends u n src (.migrp n src h no)
    have hstate : p.state = .away := by simpa using ha
    have hu' : ∀ k m, (k ≠ h ∨ m ≠ n) → u.held k m = s.held k m := fun k m hkm => by
      rw [hu, hset _ _ k m hkm, hset _ _ k m hkm]
    have hul : ∀ m, (u.node m).migrlist = (s.node m).migrlist := fun m => by
      rw [hu, setProc_migrlist, setProc_migrlist]
    unfold netTxmigrp
    have hwire : ∀ x ∈ (u.netTx n src (.migrp n src h no)).wire,
        x ∈ s.wire ∨ x = .migrp n src h no := fun x hx => (hsend.wire x hx).imp_right fun hx => hx.1
    split
    · refine ⟨_, ⟨setProc_held_self _ _ _ _, fun k m hkm => ?_, .inl rfl, hsend.count,
        fun m => ?_, hwire⟩⟩
      · rw [hset _ _ k m hkm, hsend.held, hu' k m hkm]
      · rw [setProc_migrlist, hsend.migrlist, hul]
    · rename_i hpull
      refine ⟨q, ⟨?_, fun k m hkm => ?_, .inr ⟨hstate, hpull⟩, hsend.count, fun m => ?_, hwire⟩⟩
      · rw [panic_held, hsend.held, hu, setProc_held_self]
      · rw [panic_held, hsend.held, hu' k m hkm]
      · rw [panic_migrlist, hsend.migrlist, hul]

/-- The migration of a process from node `n` is acknowledged. -/
structure Acked (s t : Cluster) (n : NodeId) (h : RR) (p' : NetProc) : Prop where
  listed : h ∈ (s.node n).migrlist
  held : t.held h n = some p'
  others : ∀ k m, (k ≠ h ∨ m ≠ n) → t.held k m = s.held k m
  state : p'.state = .away ∨ s.held h n = some p'
  count : t.count = s.count
  migrlist : (t.node n).migrlist = (s.node n).migrlist.erase h
  migrlist_ne : ∀ m, m ≠ n → (t.node m).migrlist = (s.node m).migrlist
  wire : t.wire = s.wire

theorem netRxmigrp_cases (s : Cluster) (n src : NodeId) (h : RR)
    (hl : h ∈ (s.node n).migrlist → ∃ p, s.held h n = some p) :
    Sends s (s.netRxmigrp n src h) (fun _ => False) ∨
      ∃ p', Acked s (s.netRxmigrp n src h) n h p' := by
  unfold netRxmigrp
  split
  · exact .inl (Sends.panic s n)
  split
  · exact .inl Sends.refl
  rename_i hmem
  have hmem : h ∈ (s.node n).migrlist := by simpa using hmem
  obtain ⟨p, hp⟩ := hl hmem
  right
  simp only
  set u := s.upd n fun x => { x with migrlist := x.migrlist.erase h } with hu
  have hheld : ∀ k m, u.held k m = s.held k m := by
    intro k m
    by_cases hm : m = n
    · subst hm
      simp [hu, upd, held]
    · simp [hu, upd, held, hm]
  have hlist : (u.node n).migrlist = (s.node n).migrlist.erase h := by simp [hu, upd]
  have hlist' : ∀ m, m ≠ n → (u.node m).migrlist = (s.node m).migrlist := by
    intro m hm
    simp [hu, upd, hm]
  rw [show (u.node n).proc h = some p from (hheld h n).trans hp]
  simp only
  split
  · refine ⟨p, hmem, ?_, fun k m _ => ?_, .inr hp, rfl, ?_, fun m hm => ?_, rfl⟩
    · rw [panic_held, hheld, hp]
    · rw [panic_held, hheld]
    · rw [panic_migrlist, hlist]
    · rw [panic_migrlist, hlist' m hm]
  · refine ⟨_, hmem, setProc_held_self _ _ _ _, fun k m hkm => ?_, .inl rfl, rfl, ?_,
      fun m hm => ?_, rfl⟩
    · rw [← hheld k m]
      exact setProc_held u n h _ k m hkm
    · rw [setProc_migrlist, hlist]
    · rw [setProc_migrlist, hlist' m hm]

end

/-! ## The steps -/

/-- The list of migrating processes holds each process once, and only processes that migrate. -/
structure Listed (s : Cluster) : Prop where
  migr : ∀ n h, h ∈ (s.node n).migrlist → ∃ p, s.held h n = some p ∧ p.state = .migr
  nodup : ∀ n, (s.node n).migrlist.Nodup

/-- What a step means for the process `h`. -/
inductive Move (h : RR) (s : Cluster) (e : Event) (t : Cluster) : Prop
  | idle (held : ∀ n, t.held h n = s.held h n) (count : t.count h = s.count h)
      (wire : ∀ x ∈ t.wire, x.home = h → x ∈ s.wire ∨
        ∃ n p, s.held h n = some p ∧ p.state = .migr ∧ IsRequest n h p x)
  | stay (n : NodeId) (p p' : NetProc) (before : s.held h n = some p) (here : p.here)
      (after : t.held h n = some p') (here' : p'.here)
      (others : ∀ m, m ≠ n → t.held h m = s.held h m) (count : t.count h = s.count h)
      (wire : ∀ x ∈ t.wire, x.home = h → x ∈ s.wire)
  | create (p' : NetProc) (valid : h.node.valid = true) (before : s.held h h.node = none) (after : t.held h h.node = some p')
      (here : p'.here) (others : ∀ m, m ≠ h.node → t.held h m = s.held h m)
      (count : t.count h = s.count h) (wire : ∀ x ∈ t.wire, x.home = h → x ∈ s.wire)
  | leave (n dst : NodeId) (p p' : NetProc) (before : s.held h n = some p) (here : p.here)
      (after : t.held h n = some p') (migr : p'.state = .migr) (migrdest : p'.migrdest = dst)
      (no : p'.no = s.count h + 1) (others : ∀ m, m ≠ n → t.held h m = s.held h m)
      (count : t.count h = s.count h + 1)
      (wire : ∀ x ∈ t.wire, x.home = h → x ∈ s.wire ∨ IsRequest n h p' x)
  | refuse (i : ℕ) (src n : NodeId) (pml4 : RR) (save : Procstate) (no : ℕ) (p : NetProc)
      (event : ∃ pg, e = .deliver i pg) (pkt : s.wire[i]? = some (.migrq src n h pml4 save no))
      (before : s.held h n = some p) (state : p.state ≠ .away)
      (held : ∀ m, t.held h m = s.held h m) (count : t.count h = s.count h)
      (wire : ∀ x ∈ t.wire, x.home = h → x ∈ s.wire ∨ x = .migrp n src h no)
  | accept (i : ℕ) (src n : NodeId) (pml4 : RR) (save : Procstate) (no : ℕ) (p' : NetProc)
      (event : ∃ pg, e = .deliver i pg) (pkt : s.wire[i]? = some (.migrq src n h pml4 save no))
      (before : ∀ p, s.held h n = some p → p.state = .away) (after : t.held h n = some p')
      (state : p'.state = .pull ∨ p'.state = .away ∧ ¬(pml4.node.valid = true ∧ pml4.node ≠ n))
      (others : ∀ m, m ≠ n → t.held h m = s.held h m) (count : t.count h = s.count h)
      (wire : ∀ x ∈ t.wire, x.home = h → x ∈ s.wire ∨ x = .migrp n src h no)
  | ack (i : ℕ) (src n : NodeId) (no : ℕ) (p p' : NetProc) (event : ∃ pg, e = .deliver i pg)
      (pkt : s.wire[i]? = some (.migrp src n h no)) (before : s.held h n = some p)
      (migr : p.state = .migr) (after : t.held h n = some p') (away : p'.state = .away)
      (others : ∀ m, m ≠ n → t.held h m = s.held h m) (count : t.count h = s.count h)
      (wire : ∀ x ∈ t.wire, x.home = h → x ∈ s.wire)

section

variable {s t : Cluster} {e : Event} {h : RR}

theorem scheduled_here {p : NetProc} (hp : scheduled p.state = true) : p.here := by
  unfold NetProc.here
  cases hs : p.state <;> rw [hs] at hp <;> simp [scheduled] at hp ⊢

/-- A structure is set at `n`, and nothing else happens. -/
theorem move_stay {n : NodeId} {k : RR} {p p' : NetProc} (hp : s.held k n = some p)
    (hh : p.here) (hh' : p'.here) (e : Event) : Move h s e (s.setProc n k p') := by
  by_cases hk : h = k
  · subst hk
    exact .stay n p p' hp hh (setProc_held_self s n h p') hh'
      (fun m hm => setProc_held_ne s n h h p' hm) rfl fun x hx _ => hx
  · exact .idle (fun m => setProc_held_other s n m h k p' hk) rfl fun x hx _ => .inl hx

/-- A step that only sends requests for migrating processes. -/
theorem move_sends {n : NodeId} (hs : Sends s t fun x =>
    ∃ h p, s.held h n = some p ∧ p.state = .migr ∧ IsRequest n h p x) : Move h s e t := by
  refine .idle (fun m => hs.held h m) (by rw [hs.count]) fun x hx hxh => ?_
  rcases hs.wire x hx with hx | ⟨k, p, hp, hm, hr⟩
  · exact .inl hx
  · obtain rfl : k = h := by
      rw [hr.1] at hxh
      exact hxh
    exact .inr ⟨n, p, hp, hm, hr⟩

theorem move_still (hs : Sends s t fun _ => False) : Move h s e t :=
  .idle (fun m => hs.held h m) (by rw [hs.count]) fun x hx _ =>
    .inl ((hs.wire x hx).elim id False.elim)

/-- **Every step is a move of every process.** -/
theorem step_move (hl : Listed s) (hst : step s e = some t) (h : RR) : Move h s e t := by
  cases e with
  | create n addr sv pml4 =>
    simp only [step] at hst
    split at hst
    · rename_i hc
      obtain rfl := Option.some.inj hst
      by_cases hk : h = ⟨n, addr⟩
      · subst hk
        refine .create _ hc.1 hc.2.2 (setProc_held_self s n _ _) ?_
          (fun m hm => setProc_held_ne s n _ _ _ hm) rfl fun x hx _ => hx
        simp [NetProc.here]
      · exact .idle (fun m => setProc_held_other s n m h _ _ hk) rfl fun x hx _ => .inl hx
    · cases hst
  | sched n k st =>
    simp only [step] at hst
    split at hst
    · rename_i p _ hp
      split at hst
      · rename_i hc
        obtain rfl := Option.some.inj hst
        exact move_stay hp (scheduled_here hc.1) (scheduled_here hc.2) _
      · cases hst
    · cases hst
  | pulled n k =>
    simp only [step] at hst
    split at hst
    · rename_i p _ hp
      split at hst
      · rename_i hc
        obtain rfl := Option.some.inj hst
        refine move_stay hp ?_ ?_ _
        · simp [NetProc.here, hc]
        · simp [NetProc.here]
      · cases hst
    · cases hst
  | migrate n k dst sv =>
    simp only [step] at hst
    split at hst
    · rename_i p _ hp
      split at hst
      · rename_i hrun
        obtain rfl := Option.some.inj hst
        have hhere : p.here := by simp [NetProc.here, hrun]
        rcases netMigrate_leaves dst sv hp with hs | ⟨p', hs⟩
        · exact move_still hs
        · by_cases hk : h = k
          · subst hk
            refine .leave n dst p p' hp hhere hs.held hs.state hs.migrdest hs.no
              (fun m hm => hs.others h m (.inr hm)) ?_ fun x hx _ => hs.wire x hx
            rw [hs.count]
            simp
          · refine .idle (fun m => hs.others h m (.inl hk)) ?_ fun x hx hxh => ?_
            · rw [hs.count, Function.update_of_ne hk]
            · rcases hs.wire x hx with hx | ⟨rfl, -⟩
              · exact .inl hx
              · exact absurd hxh.symm hk
      · cases hst
    · cases hst
  | tick n =>
    simp only [step] at hst
    split at hst
    · cases hst
    · obtain rfl := Option.some.inj hst
      exact move_sends (netTick_sends s n)
  | deliver i pg =>
    simp only [step] at hst
    cases hi : s.wire[i]? with
    | none =>
      rw [hi] at hst
      cases hst
    | some pkt =>
      rw [hi] at hst
      simp only at hst
      split at hst
      · cases hst
      obtain rfl := Option.some.inj hst
      set u : Cluster := { s with wire := s.wire.eraseIdx i } with hu
      have hsub : ∀ x ∈ u.wire, x ∈ s.wire := fun x hx => List.mem_of_mem_eraseIdx hx
      cases pkt with
      | migrq src n k rr save no =>
        simp only [netRx]
        rcases netRxmigrq_cases u n src k rr save no pg with hs | ⟨p, hp, hpa, hs⟩ | ⟨hpa, p', hs⟩
        · exact .idle (fun m => hs.held h m) (by rw [hs.count]) fun x hx _ =>
            .inl (hsub x ((hs.wire x hx).elim id False.elim))
        · by_cases hk : h = k
          · subst hk
            exact .refuse i src n rr save no p ⟨pg, rfl⟩ hi hp hpa (fun m => hs.held h m)
              (by rw [hs.count]) fun x hx _ => (hs.wire x hx).imp_left (hsub x)
          · refine .idle (fun m => hs.held h m) (by rw [hs.count]) fun x hx hxh => ?_
            rcases hs.wire x hx with hx | rfl
            · exact .inl (hsub x hx)
            · exact absurd hxh.symm hk
        · by_cases hk : h = k
          · subst hk
            exact .accept i src n rr save no p' ⟨pg, rfl⟩ hi hpa hs.held hs.state
              (fun m hm => hs.others h m (.inr hm)) (by rw [hs.count])
              fun x hx _ => (hs.wire x hx).imp_left (hsub x)
          · refine .idle (fun m => hs.others h m (.inl hk)) (by rw [hs.count]) fun x hx hxh => ?_
            rcases hs.wire x hx with hx | rfl
            · exact .inl (hsub x hx)
            · exact absurd hxh.symm hk
      | migrp src n k no =>
        simp only [netRx]
        rcases netRxmigrp_cases u n src k (fun hm => (hl.migr n k hm).imp fun p hp => hp.1) with
          hs | ⟨p', hs⟩
        · exact .idle (fun m => hs.held h m) (by rw [hs.count]) fun x hx _ =>
            .inl (hsub x ((hs.wire x hx).elim id False.elim))
        · have hwire : ∀ x ∈ (u.netRxmigrp n src k).wire, x ∈ s.wire := fun x hx =>
            hsub x (by rwa [hs.wire] at hx)
          by_cases hk : h = k
          · subst hk
            obtain ⟨p, hp, hm⟩ := hl.migr n h hs.listed
            rcases hs.state with ha | ha
            · exact .ack i src n no p p' ⟨pg, rfl⟩ hi hp hm hs.held ha
                (fun m hm => hs.others h m (.inr hm)) (by rw [hs.count]) fun x hx _ => hwire x hx
            · -- the node goes down before the state is changed
              refine .idle (fun m => ?_) (by rw [hs.count]) fun x hx _ => .inl (hwire x hx)
              by_cases hmn : m = n
              · subst hmn
                rw [hs.held]
                exact ha.symm
              · exact hs.others h m (.inr hmn)
          · exact .idle (fun m => hs.others h m (.inl hk)) (by rw [hs.count])
              fun x hx _ => .inl (hwire x hx)
  | lose i =>
    simp only [step] at hst
    split at hst
    · obtain rfl := Option.some.inj hst
      exact .idle (fun _ => rfl) rfl fun x hx _ => .inl (List.mem_of_mem_eraseIdx hx)
    · cases hst
  | dup i =>
    simp only [step] at hst
    obtain ⟨pkt, hi, rfl⟩ := Option.map_eq_some_iff.1 hst
    refine .idle (fun _ => rfl) rfl fun x hx _ => .inl ?_
    rcases List.mem_append.1 hx with hx | hx
    · exact hx
    · rw [List.mem_singleton.1 hx]
      exact List.mem_of_getElem? hi

/-! ## The list of migrating processes -/

theorem Listed.sends {new : Packet → Prop} (hl : Listed s) (hs : Sends s t new) : Listed t := by
  refine ⟨fun n h hm => ?_, fun n => ?_⟩
  · rw [hs.migrlist] at hm
    obtain ⟨p, hp, hst⟩ := hl.migr n h hm
    exact ⟨p, by rw [hs.held, hp], hst⟩
  · rw [hs.migrlist]
    exact hl.nodup n

/-- Setting a structure of a process that is not on the list. -/
theorem Listed.set {n : NodeId} {k : RR} (hl : Listed s) (hk : k ∉ (s.node n).migrlist)
    (ho : ∀ h m, (h ≠ k ∨ m ≠ n) → t.held h m = s.held h m)
    (hm : ∀ m, (t.node m).migrlist = (s.node m).migrlist) : Listed t := by
  refine ⟨fun m h hmem => ?_, fun m => ?_⟩
  · rw [hm] at hmem
    obtain ⟨p, hp, hst⟩ := hl.migr m h hmem
    refine ⟨p, ?_, hst⟩
    rw [ho h m ?_, hp]
    by_contra hne
    push Not at hne
    obtain ⟨rfl, rfl⟩ := hne
    exact hk hmem
  · rw [hm]
    exact hl.nodup m

theorem Listed.not_mem {n : NodeId} (hl : Listed s)
    (hp : ∀ p, s.held h n = some p → p.state ≠ .migr) : h ∉ (s.node n).migrlist := by
  intro hm
  obtain ⟨p, hp', hst⟩ := hl.migr n h hm
  exact hp p hp' hst

theorem Listed.setProc {n : NodeId} {k : RR} {p : NetProc} (hl : Listed s)
    (hp : ∀ q, s.held k n = some q → q.state ≠ .migr) : Listed (s.setProc n k p) :=
  hl.set (hl.not_mem hp) (setProc_held s n k p) fun m => setProc_migrlist s n m k p

theorem listed_init : Listed init := ⟨by simp [init], by simp [init]⟩

theorem listed_step (hl : Listed s) (hst : step s e = some t) : Listed t := by
  cases e with
  | create n addr sv pml4 =>
    simp only [step] at hst
    split at hst
    · rename_i hc
      obtain rfl := Option.some.inj hst
      refine hl.setProc fun q hq => ?_
      rw [show s.held ⟨n, addr⟩ n = none from hc.2.2] at hq
      cases hq
    · cases hst
  | sched n k st =>
    simp only [step] at hst
    split at hst
    · rename_i p _ hp
      split at hst
      · rename_i hc
        obtain rfl := Option.some.inj hst
        refine hl.setProc fun q hq => ?_
        rw [show s.held k n = some p from hp] at hq
        obtain rfl := Option.some.inj hq
        exact (scheduled_here hc.1).1
      · cases hst
    · cases hst
  | pulled n k =>
    simp only [step] at hst
    split at hst
    · rename_i p _ hp
      split at hst
      · rename_i hc
        obtain rfl := Option.some.inj hst
        refine hl.setProc fun q hq => ?_
        rw [show s.held k n = some p from hp] at hq
        obtain rfl := Option.some.inj hq
        simp [hc]
      · cases hst
    · cases hst
  | migrate n k dst sv =>
    simp only [step] at hst
    split at hst
    · rename_i p _ hp
      split at hst
      · rename_i hrun
        obtain rfl := Option.some.inj hst
        rcases netMigrate_leaves dst sv hp with hs | ⟨p', hs⟩
        · exact hl.sends hs
        have hk : k ∉ (s.node n).migrlist := by
          refine hl.not_mem fun q hq => ?_
          rw [show s.held k n = some p from hp] at hq
          obtain rfl := Option.some.inj hq
          simp [hrun]
        refine ⟨fun m h hm => ?_, fun m => ?_⟩
        · by_cases hkm : h ≠ k ∨ m ≠ n
          · have hm' : h ∈ (s.node m).migrlist := by
              by_cases hmn : m = n
              · subst hmn
                rw [hs.migrlist] at hm
                exact (List.mem_cons.1 hm).resolve_left (hkm.elim id fun e => absurd rfl e)
              · rwa [hs.migrlist_ne m hmn] at hm
            obtain ⟨q, hq, hst⟩ := hl.migr m h hm'
            exact ⟨q, by rw [hs.others h m hkm, hq], hst⟩
          · push Not at hkm
            obtain ⟨rfl, rfl⟩ := hkm
            exact ⟨p', hs.held, hs.state⟩
        · by_cases hmn : m = n
          · subst hmn
            rw [hs.migrlist]
            exact List.nodup_cons.2 ⟨hk, hl.nodup m⟩
          · rw [hs.migrlist_ne m hmn]
            exact hl.nodup m
      · cases hst
    · cases hst
  | tick n =>
    simp only [step] at hst
    split at hst
    · cases hst
    · obtain rfl := Option.some.inj hst
      exact hl.sends (netTick_sends s n)
  | deliver i pg =>
    simp only [step] at hst
    cases hi : s.wire[i]? with
    | none =>
      rw [hi] at hst
      cases hst
    | some pkt =>
      rw [hi] at hst
      simp only at hst
      split at hst
      · cases hst
      obtain rfl := Option.some.inj hst
      set u : Cluster := { s with wire := s.wire.eraseIdx i } with hu
      have hlu : Listed u := ⟨hl.migr, hl.nodup⟩
      cases pkt with
      | migrq src n k rr save no =>
        simp only [netRx]
        rcases netRxmigrq_cases u n src k rr save no pg with hs | ⟨p, hp, hpa, hs⟩ | ⟨hpa, p', hs⟩
        · exact hlu.sends hs
        · exact hlu.sends hs
        · refine hlu.set (hlu.not_mem fun q hq => ?_) hs.others hs.migrlist
          rw [hpa q hq]
          simp
      | migrp src n k no =>
        simp only [netRx]
        rcases netRxmigrp_cases u n src k (fun hm => (hl.migr n k hm).imp fun p hp => hp.1) with
          hs | ⟨p', hs⟩
        · exact hlu.sends hs
        · refine ⟨fun m h hm => ?_, fun m => ?_⟩
          · by_cases hkm : h ≠ k ∨ m ≠ n
            · have hm' : h ∈ (u.node m).migrlist := by
                by_cases hmn : m = n
                · subst hmn
                  rw [hs.migrlist] at hm
                  exact List.mem_of_mem_erase hm
                · rwa [hs.migrlist_ne m hmn] at hm
              obtain ⟨q, hq, hst⟩ := hlu.migr m h hm'
              exact ⟨q, by rw [hs.others h m hkm, hq], hst⟩
            · push Not at hkm
              obtain ⟨rfl, rfl⟩ := hkm
              rw [hs.migrlist] at hm
              exact absurd hm ((hlu.nodup m).not_mem_erase)
          · by_cases hmn : m = n
            · subst hmn
              rw [hs.migrlist]
              exact (hlu.nodup m).erase k
            · rw [hs.migrlist_ne m hmn]
              exact hlu.nodup m
  | lose i =>
    simp only [step] at hst
    split at hst
    · obtain rfl := Option.some.inj hst
      exact ⟨hl.migr, hl.nodup⟩
    · cases hst
  | dup i =>
    simp only [step] at hst
    obtain ⟨pkt, hi, rfl⟩ := Option.map_eq_some_iff.1 hst
    exact ⟨hl.migr, hl.nodup⟩

/-- Runs go on from where they are. -/
theorem Run.checked {ok : Cluster → Event → Bool} {OK : Cluster → Event → Prop}
    (hok : ∀ s e, ok s e = true → OK s e) {es₀ : List Event} (hr : Run OK es₀ s) :
    ∀ {es : List Event}, checked ok s es = some t → Run OK (es₀ ++ es) t := by
  intro es
  induction es generalizing s es₀ with
  | nil =>
    intro h
    obtain rfl := Option.some.inj h
    rwa [List.append_nil]
  | cons e es ih =>
    intro h
    simp only [Cluster.checked] at h
    split at h
    · rename_i hc
      obtain ⟨u, hu, h⟩ := Option.bind_eq_some_iff.1 h
      have := ih (Run.snoc hr (hok s e hc) hu) h
      rwa [List.append_assoc] at this
    · cases h

theorem run_of_checked {ok : Cluster → Event → Bool} {OK : Cluster → Event → Prop}
    (hok : ∀ s e, ok s e = true → OK s e) {es : List Event} (h : checked ok init es = some s) :
    Run OK es s :=
  Run.checked hok .nil h

/-- The rule for invariants of a process, from the moves. -/
theorem Run.invariant {ok : Cluster → Event → Prop} {I : Cluster → Prop} (h : RR) (h0 : I init)
    (hstep : ∀ s e t, I s → ok s e → Move h s e t → I t) {es : List Event}
    (hr : Run ok es s) : I s := by
  have hboth : Listed s ∧ I s := by
    induction hr with
    | nil => exact ⟨listed_init, h0⟩
    | snoc _ hok hst ih => exact ⟨listed_step ih.1 hst, hstep _ _ _ ih.2 hok (step_move ih.1 hst h)⟩
  exact hboth.2

end

end Cluster

end Determinator
