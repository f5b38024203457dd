import Determinator.Kern.Pull

/-!
# The bookkeeping of pulls

A process leaves `net_pulllist` with its link to the processes behind it still set, and a CPU
looks whether a part was the last one after it has given up the lock. Where a process pulls again
only if it was the last of the list when its pull was complete, no CPU handles a packet for a
process that another CPU has in hand, and a reference is pulled only while nothing about it is
under way, the bookkeeping is sound.
-/

namespace Determinator.Pull

variable {P T D : Type} {node : BitVec 8} {s u : State P T D} {l : List P} {p q : P} {t : T}
  {k : Task P} {rr : Rr}

namespace State

/-! ## What is claimed -/

/-- The process waits for parts of a page. -/
def Waiting (s : State P T D) (p : P) : Prop :=
  (s.proc p).state = .pull ∧ (s.proc p).arrived ≠ 7

/-- The list has exactly the waiting processes, the node runs, and a page that is complete consists
of parts that were sent in answer to requests of its pull. -/
structure Sound (s : State P T D) : Prop where
  list : ∃ l, Chain s.next s.list l ∧ l.Nodup ∧ ∀ p, p ∈ l ↔ s.Waiting p
  running : s.stopped = false
  parts : ∀ p, (s.proc p).state = .pull → (s.proc p).arrived = 7 →
    ∀ i < 3, ∃ d, (s.proc p).page i = some d ∧ ((s.proc p).no, i, d) ∈ s.sent

/-- No CPU has the process in hand. -/
def Unattended (s : State P T D) (p : P) : Prop := ∀ t k, s.task t = some k → k.proc ≠ p

/-- Nothing about the reference is under way, and no process waits for it. -/
def Unasked (s : State P T D) (rr : Rr) : Prop :=
  (∀ pkt ∈ s.wire, pkt.rr ≠ rr) ∧ ∀ p, s.Waiting p → (s.proc p).pullrr ≠ rr

/-- The condition on a step. -/
def Careful (node : BitVec 8) (s : State P T D) : Act P T D → Prop
  | .arrive _ p _ => s.Unattended p
  | .pull t => ∀ p rr pglev, s.task t = some (.pull p rr pglev) →
      (NodeOk node rr ∧ pglev ≤ 2) ∧ (s.proc p).behind = false ∧ s.Unasked rr
  | .receive _ i => ∀ pkt p, s.wire[i]? = some pkt → s.Waiting p → (s.proc p).pullrr = pkt.rr →
      s.Unattended p
  | _ => True

/-! ## The invariant -/

/-- What holds of a task. -/
def TaskOk (s : State P T D) : Task P → Prop
  | .pull p _ _ =>
    (s.proc p).state = .away ∨ (s.proc p).state = .pull ∧ (s.proc p).arrived = 7
  | .stored p => (s.proc p).state = .pull
  | .complete p => (s.proc p).state = .pull ∧ (s.proc p).arrived = 7

/-- The list is `l`, and the packets under way belong to the pulls they are for. -/
structure Inv (node : BitVec 8) (s : State P T D) (l : List P) : Prop where
  chain : Chain s.next s.list l
  nodup : l.Nodup
  length : l.length ≤ s.count
  waiting : ∀ p, p ∈ l ↔ s.Waiting p
  task : ∀ t k, s.task t = some k → s.TaskOk k
  lone : ∀ t t' k k', s.task t = some k → s.task t' = some k' → k.proc = k'.proc → t = t'
  next : ∀ p, ¬ s.Waiting p → (s.proc p).behind = false → s.next p = none
  nodeOk : ∀ p, s.Waiting p → NodeOk node (s.proc p).pullrr
  asked : ∀ pkt ∈ s.wire, ∀ p, s.Waiting p → pkt.rr = (s.proc p).pullrr → pkt.no = (s.proc p).no
  apart : ∀ p q, s.Waiting p → s.Waiting q → (s.proc p).pullrr = (s.proc q).pullrr → p = q
  sent : ∀ rr part len d no, Packet.rp rr part len d no ∈ s.wire → (no, part, d) ∈ s.sent
  parts : ∀ p, (s.proc p).state = .pull → ∀ i < 3, (s.proc p).arrived.getLsbD i = true →
    ∃ d, (s.proc p).page i = some d ∧ ((s.proc p).no, i, d) ∈ s.sent
  running : s.stopped = false

/-- The invariant gives what is claimed. -/
theorem Inv.sound (h : Inv node s l) : s.Sound := by
  refine ⟨⟨l, h.chain, h.nodup, h.waiting⟩, h.running, ?_⟩
  intro p hp h7 i hi
  apply h.parts p hp i hi
  rw [h7]
  have : ∀ i < 3, (7 : BitVec 8).getLsbD i = true := by decide
  exact this i hi

/-- What holds of a task depends on its process only. -/
theorem TaskOk.congr (hk : s.TaskOk k) (h : u.proc k.proc = s.proc k.proc) : u.TaskOk k := by
  cases k with
  | pull q rr lev => simpa only [TaskOk, show u.proc q = s.proc q from h] using hk
  | stored q => simpa only [TaskOk, show u.proc q = s.proc q from h] using hk
  | complete q => simpa only [TaskOk, show u.proc q = s.proc q from h] using hk

theorem TaskOk.not_waiting {pglev : ℕ} (h : s.TaskOk (.pull p rr pglev)) : ¬ s.Waiting p := by
  rintro ⟨hs, ha⟩
  obtain h | h := h
  · rw [h] at hs
    cases hs
  · exact ha h.2

theorem Inv.state_of_mem (h : Inv node s l) (hp : p ∈ l) : (s.proc p).state = .pull :=
  ((h.waiting p).1 hp).1

/-! ## The list -/

/-- The search for a reference ends at the first process that waits for it. -/
theorem find_of_chain (rr : Rr) : ∀ {l : List P} {n : ℕ} (pp : Link P) {o : Option P}, Chain s.next o l →
    l.length ≤ n → (∀ p ∈ l, (s.proc p).state = .pull) →
    s.find rr n pp o = .ok none ∨
      ∃ l₁ p l₂, l = l₁ ++ p :: l₂ ∧ (s.proc p).pullrr = rr ∧
        s.find rr n pp o = .ok (some (l₁.getLast?.elim pp .next, p))
  | [], n, pp, o, hc, _, _ => by
    obtain rfl : o = none := hc
    left
    cases n <;> rfl
  | q :: l, 0, pp, o, _, hn, _ => by simp at hn
  | q :: l, n + 1, pp, o, ⟨ho, hc⟩, hn, hs => by
    subst ho
    have hq : (s.proc q).state = .pull := hs q (by simp)
    by_cases hr : (s.proc q).pullrr = rr
    · right
      refine ⟨[], q, l, rfl, hr, ?_⟩
      simp only [find, require_bind hq, if_pos hr]
      rfl
    · simp only [find, require_bind hq, if_neg hr]
      obtain h | ⟨l₁, p, l₂, rfl, hp, h⟩ := find_of_chain rr (n := n) (.next q) hc
        (by simpa using hn) fun p hp => hs p (by simp [hp])
      · exact .inl h
      · right
        refine ⟨q :: l₁, p, l₂, rfl, hp, ?_⟩
        rw [h]
        cases hl : l₁.getLast? with
        | none =>
          rw [List.getLast?_eq_none_iff] at hl
          subst hl
          rfl
        | some x => simp [List.getLast?_cons, hl]

variable [DecidableEq P]

/-- The process is taken out of the list. -/
theorem unlink_chain {l₁ l₂ : List P} (hc : Chain s.next s.list (l₁ ++ p :: l₂))
    (hn : (l₁ ++ p :: l₂).Nodup) :
    Chain (s.unlink (l₁.getLast?.elim .head .next) p).next
      (s.unlink (l₁.getLast?.elim .head .next) p).list (l₁ ++ l₂) := by
  have h := Thread.chain_erase hc hn
  unfold Thread.lastLink at h
  cases hl : l₁.getLast? with
  | none =>
    rw [hl] at h
    simpa [unlink] using h
  | some q =>
    rw [hl] at h
    have hnext : Function.update s.next q (s.next p) =
        fun b => if Link.next q = Link.next b then s.next p else s.next b := by
      ext1 b
      rw [Function.update_apply]
      by_cases hb : b = q
      · subst hb
        simp
      · simp [hb, Ne.symm hb]
    simpa [unlink, hnext] using h

/-! ## Tasks and packets -/

omit [DecidableEq P] in
/-- A task gets a new state. -/
theorem Inv.setTask [DecidableEq T] (h : Inv node s l) (o : Option (Task P))
    (hok : ∀ k, o = some k → s.TaskOk k)
    (hlone : ∀ k, o = some k → ∀ t' k', t' ≠ t → s.task t' = some k' → k'.proc ≠ k.proc) :
    Inv node (s.setTask t o) l := by
  have hcase : ∀ t' k', (s.setTask t o).task t' = some k' →
      t' = t ∧ o = some k' ∨ t' ≠ t ∧ s.task t' = some k' := by
    intro t' k' h'
    by_cases ht : t' = t
    · subst ht
      exact .inl ⟨rfl, by simpa [State.setTask] using h'⟩
    · exact .inr ⟨ht, by simpa [State.setTask, ht] using h'⟩
  have hOk : ∀ k : Task P, s.TaskOk k → (s.setTask t o).TaskOk k := fun _ hk => hk.congr rfl
  refine { h with task := ?_, lone := ?_ }
  · intro t' k' h'
    obtain ⟨-, h'⟩ | ⟨-, h'⟩ := hcase t' k' h'
    · exact hOk k' (hok k' h')
    · exact hOk k' (h.task t' k' h')
  · intro t₁ t₂ k₁ k₂ h₁ h₂ he
    obtain ⟨e₁, h₁⟩ | ⟨e₁, h₁⟩ := hcase t₁ k₁ h₁ <;>
      obtain ⟨e₂, h₂⟩ | ⟨e₂, h₂⟩ := hcase t₂ k₂ h₂
    · exact e₁.trans e₂.symm
    · exact absurd he.symm (hlone k₁ h₁ t₂ k₂ e₂ h₂)
    · exact absurd he (hlone k₂ h₂ t₁ k₁ e₁ h₁)
    · exact h.lone t₁ t₂ k₁ k₂ h₁ h₂ he

omit [DecidableEq P] in
/-- A task ends. -/
theorem Inv.endTask [DecidableEq T] (h : Inv node s l) : Inv node (s.setTask t none) l :=
  h.setTask none (by simp) (by simp)

omit [DecidableEq P] in
/-- A task about the same process takes its place. -/
theorem Inv.nextTask [DecidableEq T] (h : Inv node s l) (hk : s.task t = some k) (k' : Task P)
    (hp : k'.proc = k.proc) (hok : s.TaskOk k') : Inv node (s.setTask t (some k')) l := by
  apply h.setTask
  · rintro k'' ⟨⟩
    exact hok
  · rintro k'' ⟨⟩ t' k'' hne hk'' he
    exact hne (h.lone t' t k'' k hk'' hk (he.trans hp))

omit [DecidableEq P] in
/-- When its only task ends, a process is in nobody's hands. -/
theorem Inv.unattended [DecidableEq T] (h : Inv node s l) (hk : s.task t = some k) :
    (s.setTask t none).Unattended k.proc := by
  intro t' k' hk' he
  by_cases ht : t' = t
  · subst ht
    simp [State.setTask] at hk'
  · simp only [State.setTask, Function.update_of_ne ht] at hk'
    exact ht (h.lone t' t k' k hk' hk he)

omit [DecidableEq P] in
/-- Packets come and go. -/
theorem Inv.packets (h : Inv node s l) {wire : List (Packet D)} {sent : List (ℕ × ℕ × D)}
    (hasked : ∀ pkt ∈ wire, ∀ p, s.Waiting p → pkt.rr = (s.proc p).pullrr →
      pkt.no = (s.proc p).no)
    (hmono : ∀ x ∈ s.sent, x ∈ sent)
    (hsent : ∀ rr part len d no, Packet.rp rr part len d no ∈ wire → (no, part, d) ∈ sent) :
    Inv node { s with wire := wire, sent := sent } l := by
  refine { h with task := ?_, asked := hasked, sent := hsent, parts := ?_ }
  · exact fun t k hk => (h.task t k hk).congr rfl
  · intro p hp i hi hb
    obtain ⟨d, hd, hm⟩ := h.parts p hp i hi hb
    exact ⟨d, hd, hmono _ hm⟩

omit [DecidableEq P] in
/-- Packets get lost. -/
theorem Inv.subset (h : Inv node s l) {wire : List (Packet D)} (hw : ∀ pkt ∈ wire, pkt ∈ s.wire) :
    Inv node { s with wire := wire } l :=
  h.packets (fun pkt hpkt => h.asked pkt (hw pkt hpkt)) (fun _ => id)
    fun rr part len d no hm => h.sent rr part len d no (hw _ hm)

omit [DecidableEq P] in
/-- `net_txpullrq` of a waiting process. -/
theorem Inv.netTxpullrq (h : Inv node s l) (hp : p ∈ l) :
    ∃ u, s.netTxpullrq node p = .ok u ∧ Inv node u l ∧ u.next = s.next ∧ u.stopped = s.stopped := by
  have hw := (h.waiting p).1 hp
  refine ⟨{ s with wire := s.wire ++ [.rq (s.proc p).pullrr (s.proc p).pglev
      ((s.proc p).arrived ^^^ 7) (s.proc p).no] }, ?_, h.packets ?_ (fun _ => id) ?_, rfl, rfl⟩
  · unfold State.netTxpullrq
    rw [require_bind hw.1, require_bind (h.nodeOk p hw)]
    rfl
  · intro pkt hpkt q hq hrr
    obtain hpkt | hpkt := List.mem_append.1 hpkt
    · exact h.asked pkt hpkt q hq hrr
    · obtain rfl := List.mem_singleton.1 hpkt
      obtain rfl := h.apart p q hw hq hrr
      rfl
  · intro rr part len d no hm
    obtain hm | hm := List.mem_append.1 hm
    · exact h.sent rr part len d no hm
    · cases List.mem_singleton.1 hm

omit [DecidableEq P] in
/-- `net_tick` asks again for every process of the rest of the list. -/
theorem Inv.netTick : ∀ {l' : List P} {n : ℕ} {o : Option P} {s : State P T D}, Inv node s l →
    Chain s.next o l' → (∀ p ∈ l', p ∈ l) → l'.length ≤ n →
    ∃ u, s.netTick node n o = .ok u ∧ Inv node u l
  | [], n, o, s, h, hc, _, _ => by
    obtain rfl : o = none := hc
    refine ⟨s, ?_, h⟩
    cases n <;> rfl
  | p :: l', 0, o, s, _, _, _, hn => by simp at hn
  | p :: l', n + 1, o, s, h, ⟨ho, hc⟩, hsub, hn => by
    subst ho
    obtain ⟨u, hu, hi, hnext, -⟩ := h.netTxpullrq (hsub p (by simp))
    simp only [State.netTick, hu, ok_bind]
    apply Inv.netTick hi
    · rw [hnext]
      exact hc
    · exact fun q hq => hsub q (by simp [hq])
    · simpa using hn

/-! ## `net_pull` -/

/-- The process at the head of the list, with a new pull. -/
def enlist (s : State P T D) (p : P) (rr : Rr) (pglev : ℕ) : State P T D :=
  { s with
    next := Function.update s.next p s.list
    list := some p
    count := s.count + 1
    proc := Function.update s.proc p { s.proc p with
      state := .pull, pullrr := rr, pglev := pglev, arrived := 0, no := s.count + 1 } }

theorem enlist_proc_of_ne {pglev : ℕ} (h : q ≠ p) : (s.enlist p rr pglev).proc q = s.proc q :=
  Function.update_of_ne h _ _

theorem enlist_waiting {pglev : ℕ} : (s.enlist p rr pglev).Waiting q ↔ q = p ∨ s.Waiting q := by
  by_cases h : q = p
  · subst h
    simp [Waiting, enlist]
  · simp [Waiting, enlist_proc_of_ne h, h]

theorem Inv.enlist (h : Inv node s l) {pglev : ℕ} (hp : ¬ s.Waiting p) (hun : s.Unattended p)
    (hrr : NodeOk node rr) (hask : s.Unasked rr) : Inv node (s.enlist p rr pglev) (p :: l) := by
  have hpl : p ∉ l := fun hm => hp ((h.waiting p).1 hm)
  have hself : ((s.enlist p rr pglev).proc p).pullrr = rr := by simp [State.enlist]
  have hother : ∀ q, q ≠ p → (s.enlist p rr pglev).proc q = s.proc q :=
    fun q hq => enlist_proc_of_ne hq
  constructor
  case chain =>
    refine ⟨rfl, ?_⟩
    simp only [State.enlist, Function.update_self]
    exact h.chain.update hpl _
  case nodup => exact List.nodup_cons.2 ⟨hpl, h.nodup⟩
  case length => simpa [State.enlist] using h.length
  case waiting =>
    intro q
    rw [enlist_waiting, List.mem_cons, h.waiting q]
  case task =>
    intro t k hk
    exact (h.task t k hk).congr (hother _ (hun t k hk))
  case lone => exact h.lone
  case next =>
    intro q hq hb
    rw [enlist_waiting, not_or] at hq
    rw [hother q hq.1] at hb
    simpa only [State.enlist, Function.update_of_ne hq.1] using h.next q hq.2 hb
  case nodeOk =>
    intro q hq
    by_cases hqp : q = p
    · subst hqp
      rw [hself]
      exact hrr
    · rw [hother q hqp]
      exact h.nodeOk q ((enlist_waiting.1 hq).resolve_left hqp)
  case asked =>
    intro pkt hpkt q hq he
    by_cases hqp : q = p
    · subst hqp
      rw [hself] at he
      exact absurd he (hask.1 pkt hpkt)
    · rw [hother q hqp] at he ⊢
      exact h.asked pkt hpkt q ((enlist_waiting.1 hq).resolve_left hqp) he
  case apart =>
    intro q r hq hr he
    have hq := enlist_waiting.1 hq
    have hr := enlist_waiting.1 hr
    by_cases hqp : q = p <;> by_cases hrp : r = p
    · rw [hqp, hrp]
    · subst hqp
      rw [hself, hother r hrp] at he
      exact absurd he.symm (hask.2 r (hr.resolve_left hrp))
    · subst hrp
      rw [hself, hother q hqp] at he
      exact absurd he (hask.2 q (hq.resolve_left hqp))
    · rw [hother q hqp, hother r hrp] at he
      exact h.apart q r (hq.resolve_left hqp) (hr.resolve_left hrp) he
  case sent => exact h.sent
  case parts =>
    intro q hq i hi hb
    by_cases hqp : q = p
    · subst hqp
      simp [State.enlist] at hb
    · rw [hother q hqp] at hq hb ⊢
      exact h.parts q hq i hi hb
  case running => exact h.running

/-- `net_pull` of a process that was the last of the list when it left it. -/
theorem Inv.netPull (h : Inv node s l) {pglev : ℕ} (hp : ¬ s.Waiting p) (hun : s.Unattended p)
    (hrr : NodeOk node rr ∧ pglev ≤ 2) (hb : (s.proc p).behind = false) (hask : s.Unasked rr) :
    ∃ u, s.netPull node p rr pglev = .ok u ∧ Inv node u (p :: l) := by
  obtain ⟨u, hu, hi, -, -⟩ := (h.enlist hp hun hrr.1 hask).netTxpullrq (p := p) (by simp)
  refine ⟨u, ?_, hi⟩
  unfold State.netPull
  rw [require_bind hrr.1, require_bind hrr.2, require_bind (h.next p hp hb)]
  exact hu

/-! ## `net_rxpullrp` -/

/-- The process with one more part. -/
def Waiter.store (w : Waiter D) (part : ℕ) (data : D) : Waiter D :=
  { w with
    page := Function.update w.page part (some data)
    arrived := w.arrived ||| ((1 : BitVec 8) <<< part) }

theorem getLsbD_bit : ∀ part < 3, ∀ i < 3, ((1 : BitVec 8) <<< part).getLsbD i = decide (i = part) := by
  decide

omit [DecidableEq P] in
/-- The parts of a page are those it had and the new one. -/
theorem Inv.store_parts (h : Inv node s l) {part : ℕ} {data : D} (hp : s.Waiting p)
    (hpart : part < 3) (hsent : ((s.proc p).no, part, data) ∈ s.sent) :
    ∀ i < 3, (Waiter.store (s.proc p) part data).arrived.getLsbD i = true →
      ∃ d, (Waiter.store (s.proc p) part data).page i = some d ∧
        ((s.proc p).no, i, d) ∈ s.sent := by
  intro i hi hb
  by_cases he : i = part
  · subst he
    exact ⟨data, by simp [Waiter.store], hsent⟩
  · simp only [Waiter.store, BitVec.getLsbD_or, getLsbD_bit part hpart i hi, he, decide_false,
      Bool.or_false] at hb
    obtain ⟨d, hd, hm⟩ := h.parts p hp.1 i hi hb
    exact ⟨d, by simp only [Waiter.store, Function.update_of_ne he]; exact hd, hm⟩

/-- A part that is not the last one. -/
theorem Inv.storePart (h : Inv node s l) {part : ℕ} {data : D} (hp : s.Waiting p)
    (hun : s.Unattended p) (hpart : part < 3) (hsent : ((s.proc p).no, part, data) ∈ s.sent)
    (h7 : (Waiter.store (s.proc p) part data).arrived ≠ 7) :
    Inv node (s.setProc p (Waiter.store (s.proc p) part data)) l := by
  have hself : (s.setProc p (Waiter.store (s.proc p) part data)).proc p =
      Waiter.store (s.proc p) part data := Function.update_self _ _ _
  have hother : ∀ q, q ≠ p →
      (s.setProc p (Waiter.store (s.proc p) part data)).proc q = s.proc q :=
    fun q hq => Function.update_of_ne hq _ _
  have hw : ∀ q, (s.setProc p (Waiter.store (s.proc p) part data)).Waiting q ↔ s.Waiting q := by
    intro q
    by_cases hq : q = p
    · subst hq
      exact ⟨fun _ => hp, fun _ => ⟨by rw [hself]; exact hp.1, by rw [hself]; exact h7⟩⟩
    · simp only [Waiting, hother q hq]
  have hfix : ∀ q, ((s.setProc p (Waiter.store (s.proc p) part data)).proc q).pullrr =
        (s.proc q).pullrr ∧
      ((s.setProc p (Waiter.store (s.proc p) part data)).proc q).no = (s.proc q).no ∧
      ((s.setProc p (Waiter.store (s.proc p) part data)).proc q).behind = (s.proc q).behind := by
    intro q
    by_cases hq : q = p
    · subst hq
      rw [hself]
      exact ⟨rfl, rfl, rfl⟩
    · rw [hother q hq]
      exact ⟨rfl, rfl, rfl⟩
  refine { h with
    waiting := ?_, task := ?_, next := ?_, nodeOk := ?_, asked := ?_, apart := ?_, parts := ?_ }
  · exact fun q => (h.waiting q).trans (hw q).symm
  · intro t k hk
    exact (h.task t k hk).congr (hother _ (hun t k hk))
  · intro q hq hb
    rw [(hfix q).2.2] at hb
    exact h.next q (fun hq' => hq ((hw q).2 hq')) hb
  · intro q hq
    rw [(hfix q).1]
    exact h.nodeOk q ((hw q).1 hq)
  · intro pkt hpkt q hq he
    rw [(hfix q).1] at he
    rw [(hfix q).2.1]
    exact h.asked pkt hpkt q ((hw q).1 hq) he
  · intro q r hq hr he
    rw [(hfix q).1, (hfix r).1] at he
    exact h.apart q r ((hw q).1 hq) ((hw r).1 hr) he
  · intro q hq i hi hb
    by_cases hqp : q = p
    · subst hqp
      rw [hself] at hb ⊢
      exact h.store_parts hp hpart hsent i hi hb
    · rw [hother q hqp] at hq hb ⊢
      exact h.parts q hq i hi hb

theorem unlink_next_of_not_mem {l₁ : List P} (hq : q ∉ l₁) :
    (s.unlink (l₁.getLast?.elim .head .next) p).next q = s.next q := by
  cases hl : l₁.getLast? with
  | none => rfl
  | some r =>
    have hne : q ≠ r := by
      rintro rfl
      exact hq (List.mem_of_getLast? hl)
    exact Function.update_of_ne hne _ _

theorem unlink_fields (pp : Link P) :
    (s.unlink pp p).proc = s.proc ∧ (s.unlink pp p).task = s.task ∧
      (s.unlink pp p).wire = s.wire ∧ (s.unlink pp p).count = s.count ∧
      (s.unlink pp p).sent = s.sent ∧ (s.unlink pp p).stopped = s.stopped := by
  cases pp <;> exact ⟨rfl, rfl, rfl, rfl, rfl, rfl⟩

/-- The last part. -/
theorem Inv.storeLast {l₁ l₂ : List P} (h : Inv node s (l₁ ++ p :: l₂)) {part : ℕ} {data : D}
    (hun : s.Unattended p) (hpart : part < 3) (hsent : ((s.proc p).no, part, data) ∈ s.sent)
    (h7 : (Waiter.store (s.proc p) part data).arrived = 7) :
    Inv node ((s.setProc p { Waiter.store (s.proc p) part data with
      behind := (s.next p).isSome }).unlink (l₁.getLast?.elim .head .next) p) (l₁ ++ l₂) := by
  have hp : s.Waiting p := (h.waiting p).1 (by simp)
  obtain ⟨hp₁, hp₂, hnd⟩ : p ∉ l₁ ∧ p ∉ l₂ ∧ (l₁ ++ l₂).Nodup := by
    have := h.nodup
    simp only [List.nodup_append, List.nodup_cons, List.mem_cons, ne_eq] at this ⊢
    grind
  set w : Waiter D := { Waiter.store (s.proc p) part data with behind := (s.next p).isSome }
    with hwdef
  set pp : Link P := l₁.getLast?.elim .head .next with hpp
  obtain ⟨fproc, ftask, fwire, fcount, fsent, fstop⟩ := unlink_fields (s := s.setProc p w) (p := p) pp
  have hself : ((s.setProc p w).unlink pp p).proc p = w := by
    rw [fproc]
    exact Function.update_self _ _ _
  have hother : ∀ q, q ≠ p → ((s.setProc p w).unlink pp p).proc q = s.proc q := by
    intro q hq
    rw [fproc]
    exact Function.update_of_ne hq _ _
  have hw : ∀ q, ((s.setProc p w).unlink pp p).Waiting q ↔ q ≠ p ∧ s.Waiting q := by
    intro q
    by_cases hq : q = p
    · subst hq
      simp only [Waiting, hself, ne_eq, not_true_eq_false, false_and, iff_false, not_and_not_right]
      exact fun _ => h7
    · simp only [Waiting, hother q hq, ne_eq, hq, not_false_eq_true, true_and]
  constructor
  case chain => exact unlink_chain (s := s.setProc p w) h.chain h.nodup
  case nodup => exact hnd
  case length =>
    rw [fcount]
    have := h.length
    simp only [List.length_append, List.length_cons, State.setProc] at this ⊢
    omega
  case waiting =>
    intro q
    rw [hw q, ← h.waiting q]
    simp only [List.mem_append, List.mem_cons]
    grind
  case task =>
    intro t k hk
    rw [ftask] at hk
    exact (h.task t k hk).congr (hother _ (hun t k hk))
  case lone =>
    rw [ftask]
    exact h.lone
  case next =>
    intro q hq hb
    rw [hw q, not_and] at hq
    by_cases hqp : q = p
    · subst hqp
      rw [hself] at hb
      have hn : s.next q = none := by simpa [hwdef] using hb
      rw [unlink_next_of_not_mem hp₁]
      exact hn
    · have hnw := hq hqp
      have hq₁ : q ∉ l₁ := fun hm => hnw ((h.waiting q).1 (by simp [hm]))
      rw [hother q hqp] at hb
      rw [unlink_next_of_not_mem hq₁]
      exact h.next q hnw hb
  case nodeOk =>
    intro q hq
    obtain ⟨hqp, hq⟩ := (hw q).1 hq
    rw [hother q hqp]
    exact h.nodeOk q hq
  case asked =>
    intro pkt hpkt q hq he
    obtain ⟨hqp, hq⟩ := (hw q).1 hq
    rw [fwire] at hpkt
    rw [hother q hqp] at he ⊢
    exact h.asked pkt hpkt q hq he
  case apart =>
    intro q r hq hr he
    obtain ⟨hqp, hq⟩ := (hw q).1 hq
    obtain ⟨hrp, hr⟩ := (hw r).1 hr
    rw [hother q hqp, hother r hrp] at he
    exact h.apart q r hq hr he
  case sent =>
    rw [fwire, fsent]
    exact h.sent
  case parts =>
    intro q hq i hi hb
    rw [fsent]
    by_cases hqp : q = p
    · subst hqp
      rw [hself] at hb ⊢
      exact h.store_parts hp hpart hsent i hi hb
    · rw [hother q hqp] at hq hb ⊢
      exact h.parts q hq i hi hb
  case running =>
    rw [fstop]
    exact h.running

/-- The critical section of `net_rxpullrp`, for a packet that is under way. -/
theorem Inv.netRxpullrp (h : Inv node s l) (rr : Rr) (part len no : ℕ) (data : D)
    (hun : ∀ p, s.Waiting p → (s.proc p).pullrr = rr → s.Unattended p)
    (hno : ∀ p, s.Waiting p → rr = (s.proc p).pullrr → no = (s.proc p).no)
    (hsent : (no, part, data) ∈ s.sent) :
    ∃ o u, s.netRxpullrp rr part len data = .ok (o, u) ∧ u.task = s.task ∧ (∃ l', Inv node u l') ∧
      ∀ p, o = some p → (u.proc p).state = .pull ∧ s.Unattended p := by
  unfold State.netRxpullrp
  obtain hf | ⟨l₁, p, l₂, hl, hrr, hf⟩ :=
    find_of_chain rr .head h.chain h.length fun p hp => h.state_of_mem hp
  · rw [hf]
    exact ⟨none, s, rfl, rfl, ⟨l, h⟩, by simp⟩
  subst hl
  have hp : s.Waiting p := (h.waiting p).1 (by simp)
  have hun := hun p hp hrr
  have hsent : ((s.proc p).no, part, data) ∈ s.sent := hno p hp hrr.symm ▸ hsent
  rw [hf]
  simp only [ok_bind]
  split
  · exact ⟨none, s, rfl, rfl, ⟨_, h⟩, by simp⟩
  next hpart =>
    have hpart : part < 3 := by omega
    split
    · exact ⟨none, s, rfl, rfl, ⟨_, h⟩, by simp⟩
    · split
      · exact ⟨none, s, rfl, rfl, ⟨_, h⟩, by simp⟩
      · split
        next h7 =>
          have hi := h.storeLast hun hpart hsent h7
          refine ⟨some p, _, rfl, ?_, ⟨_, hi⟩, ?_⟩
          · exact (unlink_fields _).2.1
          · rintro q ⟨⟩
            refine ⟨?_, hun⟩
            rw [(unlink_fields _).1]
            simpa [State.setProc] using hp.1
        next h7 =>
          have hi := h.storePart hp hun hpart hsent h7
          refine ⟨some p, _, rfl, rfl, ⟨_, hi⟩, ?_⟩
          rintro q ⟨⟩
          refine ⟨?_, hun⟩
          simpa [State.setProc] using hp.1

/-! ## Steps -/

/-- Only the state of a process that has no pull to wait for changes. -/
theorem Inv.setState (h : Inv node s l) {st : ProcState} (hst : st ≠ .pull)
    (hp : ¬ s.Waiting p) (hun : s.Unattended p) :
    Inv node (s.setProc p { s.proc p with state := st }) l := by
  have hself : (s.setProc p { s.proc p with state := st }).proc p = { s.proc p with state := st } :=
    Function.update_self _ _ _
  have hother : ∀ q, q ≠ p → (s.setProc p { s.proc p with state := st }).proc q = s.proc q :=
    fun q hq => Function.update_of_ne hq _ _
  have hne : ∀ q, ((s.setProc p { s.proc p with state := st }).proc q).state = .pull → q ≠ p := by
    rintro q hq rfl
    rw [hself] at hq
    exact hst hq
  have hw : ∀ q, (s.setProc p { s.proc p with state := st }).Waiting q ↔ s.Waiting q := by
    intro q
    by_cases hq : q = p
    · subst hq
      exact ⟨fun hq => absurd rfl (hne q hq.1), fun hq => absurd hq hp⟩
    · simp only [Waiting, hother q hq]
  refine { h with
    waiting := ?_, task := ?_, next := ?_, nodeOk := ?_, asked := ?_, apart := ?_, parts := ?_ }
  · exact fun q => (h.waiting q).trans (hw q).symm
  · exact fun t k hk => (h.task t k hk).congr (hother _ (hun t k hk))
  · intro q hq hb
    apply h.next q fun hq' => hq ((hw q).2 hq')
    by_cases hqp : q = p
    · subst hqp
      rwa [hself] at hb
    · rwa [hother q hqp] at hb
  · intro q hq
    rw [hother q (hne q hq.1)]
    exact h.nodeOk q ((hw q).1 hq)
  · intro pkt hpkt q hq he
    rw [hother q (hne q hq.1)] at he ⊢
    exact h.asked pkt hpkt q ((hw q).1 hq) he
  · intro q r hq hr he
    rw [hother q (hne q hq.1), hother r (hne r hr.1)] at he
    exact h.apart q r ((hw q).1 hq) ((hw r).1 hr) he
  · intro q hq i hi hb
    have hqp := hne q hq
    rw [hother q hqp] at hq hb ⊢
    exact h.parts q hq i hi hb

variable [DecidableEq T]

/-- A step that meets the condition keeps the invariant. -/
theorem Inv.step (h : Inv node s l) {a : Act P T D} (ha : s.Careful node a)
    (hu : s.step node a = some u) : ∃ l', Inv node u l' := by
  unfold State.step at hu
  rw [if_neg (by simp [h.running])] at hu
  cases a with
  | arrive t p rr =>
    simp only at hu
    split at hu
    next hc =>
      cases hu
      refine ⟨l, h.setTask _ ?_ ?_⟩
      · rintro k ⟨⟩
        exact .inl hc.2
      · rintro k ⟨⟩ t' k' _ hk'
        exact ha t' k' hk'
    · cases hu
  | pull t =>
    simp only at hu
    split at hu
    next p rr pglev hk =>
      cases hu
      obtain ⟨hrr, hb, hask⟩ := ha p rr pglev hk
      obtain ⟨v, hv, hi⟩ := (h.endTask (t := t)).netPull (p := p) (h.task t _ hk).not_waiting
        (h.unattended hk) hrr hb hask
      rw [hv]
      exact ⟨_, hi⟩
    · cases hu
  | receive t i =>
    simp only at hu
    split at hu
    next rr part len data no ht hi =>
      cases hu
      have hmem := List.mem_of_getElem? hi
      have h' : Inv node { s with wire := s.wire.eraseIdx i } l :=
        h.subset fun pkt hp => List.mem_of_mem_eraseIdx hp
      obtain ⟨o, v, hv, htask, ⟨l', hi'⟩, ho⟩ := h'.netRxpullrp rr part len no data
        (fun p hp he => ha _ p hi hp he)
        (fun p hp he => h.asked _ hmem p hp he) (h.sent _ _ _ _ _ hmem)
      rw [hv]
      refine ⟨l', hi'.setTask _ ?_ ?_⟩
      · intro k hk
        obtain ⟨p, rfl, rfl⟩ := Option.map_eq_some_iff.1 hk
        exact (ho p rfl).1
      · intro k hk t' k' _ hk'
        obtain ⟨p, rfl, rfl⟩ := Option.map_eq_some_iff.1 hk
        exact (ho p rfl).2 t' k' (htask ▸ hk')
    · cases hu
  | look t =>
    simp only at hu
    split at hu
    next p hk =>
      cases hu
      split
      next h7 => exact ⟨l, h.nextTask hk (.complete p) rfl ⟨h.task t _ hk, h7⟩⟩
      · exact ⟨l, h.endTask⟩
    · cases hu
  | more t rr pglev =>
    simp only at hu
    split at hu
    next p hk =>
      cases hu
      exact ⟨l, h.nextTask hk (.pull p rr pglev) rfl (.inr (h.task t _ hk))⟩
    · cases hu
  | ready t =>
    simp only at hu
    split at hu
    next p hk =>
      cases hu
      exact ⟨l, (h.endTask (t := t)).setState (by simp) (fun hw => hw.2 (h.task t _ hk).2)
        (h.unattended hk)⟩
    · cases hu
  | leave p =>
    simp only at hu
    split at hu
    next hp =>
      cases hu
      refine ⟨l, h.setState (by simp) ?_ ?_⟩
      · intro hw
        cases hp.symm.trans hw.1
      · rintro t k hk rfl
        have hok := h.task t k hk
        cases k with
        | pull q rr lev =>
          obtain hq | hq := hok
          · cases hp.symm.trans hq
          · cases hp.symm.trans hq.1
        | stored q => cases hp.symm.trans hok
        | complete q => cases hp.symm.trans hok.1
    · cases hu
  | tick =>
    cases hu
    obtain ⟨v, hv, hi⟩ := h.netTick h.chain (fun _ => id) h.length
    rw [hv]
    exact ⟨l, hi⟩
  | serve i data =>
    simp only at hu
    split at hu
    next rr pglev need no hi =>
      cases hu
      have hmem := List.mem_of_getElem? hi
      refine ⟨l, h.packets ?_ (fun x hx => List.mem_append_left _ hx) ?_⟩
      · intro pkt hpkt p hp he
        obtain hpkt | hpkt := List.mem_append.1 hpkt
        · exact h.asked pkt (List.mem_of_mem_eraseIdx hpkt) p hp he
        · obtain ⟨part, _, rfl⟩ := List.mem_map.1 hpkt
          exact h.asked _ hmem p hp he
      · intro rr' part len d no' hm
        obtain hm | hm := List.mem_append.1 hm
        · exact List.mem_append_left _ (h.sent _ _ _ _ _ (List.mem_of_mem_eraseIdx hm))
        · obtain ⟨part', hp', he⟩ := List.mem_map.1 hm
          cases he
          exact List.mem_append_right _ (List.mem_map.2 ⟨part, hp', rfl⟩)
    · cases hu
  | lose i =>
    simp only at hu
    split at hu
    · cases hu
      exact ⟨l, h.subset fun pkt hp => List.mem_of_mem_eraseIdx hp⟩
    · cases hu
  | dup i =>
    simp only at hu
    obtain ⟨pkt, hpkt, rfl⟩ := Option.map_eq_some_iff.1 hu
    have hmem := List.mem_of_getElem? hpkt
    refine ⟨l, h.subset fun x hx => ?_⟩
    obtain hx | hx := List.mem_append.1 hx
    · exact hx
    · exact List.mem_singleton.1 hx ▸ hmem

omit [DecidableEq P] [DecidableEq T] in
/-- The invariant holds at the start. -/
theorem Inv.init : Inv node (State.init : State P T D) [] where
  chain := rfl
  nodup := List.nodup_nil
  length := le_rfl
  waiting p := by simp [Waiting, State.init]
  task t k hk := by cases hk
  lone t t' k k' hk := by cases hk
  next p _ _ := rfl
  nodeOk p hp := by cases hp.1
  asked pkt hpkt := by cases hpkt
  apart p q hp := by cases hp.1
  sent rr part len d no hm := by cases hm
  parts p hp := by cases hp
  running := rfl

/-- In every run whose steps meet the condition, the bookkeeping of pulls is sound. -/
theorem run_sound (h : Run node (Careful node) s) : s.Sound := by
  have hi : ∃ l, Inv node s l := by
    induction h with
    | init => exact ⟨[], .init⟩
    | step _ ha hu ih =>
      obtain ⟨l, hi⟩ := ih
      exact hi.step ha hu
  obtain ⟨l, hi⟩ := hi
  exact hi.sound

/-- A list of steps, each of which meets the condition where it is taken, continues a run. -/
theorem Run.steps {Q : State P T D → Act P T D → Prop} (h : Run node Q s) (as : List (Act P T D))
    (hQ : ∀ as₁ a as₂ u, as = as₁ ++ a :: as₂ → s.steps node as₁ = some u → Q u a)
    (hu : s.steps node as = some u) : Run node Q u := by
  induction as generalizing s with
  | nil =>
    obtain rfl := Option.some.inj hu
    exact h
  | cons a as ih =>
    obtain ⟨v, hv, hu⟩ := Option.bind_eq_some_iff.1 hu
    refine ih (h.step (hQ [] a as s rfl rfl) hv) (fun as₁ c as₂ w has hw => ?_) hu
    apply hQ (a :: as₁) c as₂ w (by rw [has]; rfl)
    simpa [State.steps, hv] using hw

/-- A process of node 2 comes to node 1 and pulls its page map. -/
theorem run_sound_pull :
    ∃ u : State Bool Unit ℕ, Run 1 (Careful 1) u ∧ (u.proc false).arrived = 7 ∧
      (u.proc false).state = .pull ∧ u.Sound := by
  have hnone : ∀ (v : State Bool Unit ℕ) p, v.task () = none → v.Unattended p := by
    intro v p hv t k hk
    cases hv.symm.trans hk
  have h1 : Run 1 (Careful 1) _ := Run.init.step
    (a := (.arrive () false (rrCons 2 0x5000 0) : Act Bool Unit ℕ)) (hnone _ _ rfl) rfl
  have h2 : Run 1 (Careful 1) _ := h1.step (a := .pull ()) (by
    intro p rr lev hk
    cases hk
    refine ⟨by decide, rfl, by simp [State.init, State.setTask], fun p hp => ?_⟩
    cases hp.1) rfl
  have h3 : Run 1 (Careful 1) _ := h2.step (a := .serve 0 id) trivial rfl
  have h4 : Run 1 (Careful 1) _ := h3.step (a := .receive () 0) (fun _ p _ _ _ => hnone _ p rfl) rfl
  have h5 : Run 1 (Careful 1) _ := h4.step (a := .look ()) trivial rfl
  have h6 : Run 1 (Careful 1) _ := h5.step (a := .receive () 0) (fun _ p _ _ _ => hnone _ p rfl) rfl
  have h7 : Run 1 (Careful 1) _ := h6.step (a := .look ()) trivial rfl
  have h8 : Run 1 (Careful 1) _ := h7.step (a := .receive () 0) (fun _ p _ _ _ => hnone _ p rfl) rfl
  exact ⟨_, h8, rfl, rfl, run_sound h8⟩

/-- Two processes of node 2 come to node 1, and the pull of the second one is complete first. -/
def overtaking : List (Act Bool Unit ℕ) :=
  [.arrive () false (rrCons 2 0x5000 0), .pull (),
    .arrive () true (rrCons 2 0x6000 0), .pull (),
    .serve 1 id, .receive () 1, .look (), .receive () 1, .look (), .receive () 1, .look ()]

/-- The second process pulls its page table. -/
def again : List (Act Bool Unit ℕ) := [.more () (rrCons 2 0x7000 0) 1, .pull ()]

theorem run_stopped_overtaking :
    ∃ u : State Bool Unit ℕ, init.steps 1 (overtaking ++ again) = some u ∧
      Run 1 (fun _ _ => True) u ∧ ¬ u.Sound := by
  refine ⟨_, rfl, ?_, ?_⟩
  · exact Run.steps .init (overtaking ++ again) (fun _ _ _ _ _ _ => trivial) rfl
  · intro h
    exact absurd h.running (by decide)

end State

end Determinator.Pull
