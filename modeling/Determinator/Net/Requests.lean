import Determinator.Kern.Packets
import Determinator.Net.Homes

/-!
# Pull requests

What a request for a page can do to the node that serves it. The level in the request decides
whether the page is taken for a table, and a word of a page that is not one may name any page; the
assertions of `net_txpullrp` on such a word fail where it names none that is in use.
-/

namespace Determinator.Packets

open Pull (partlen)
open Pullpage (Sender Word pteG pageWord partWords)

variable {s s' : Node} {pkt : Pkt} {rq : Bytes} {junk buf : ℕ → Bytes} {pkts : List Pkt}
  {pi : Frame} {rr : Rr} {part pglev : ℕ} {n : BitVec 8}

/-! ## What is claimed -/

/-- The request names a page of this node that is allocated and has its origin here. -/
def Served (s : Node) (rq : Bytes) : Prop :=
  rrNode (rqRr rq) = s.node ∧ ((rqPage rq).toNat ≠ 0 ∧ (rqPage rq).toNat < s.boot.npage) ∧
    s.refcount (rqPage rq) ≠ 0 ∧ s.home (rqPage rq) = 0

/-- The bit of a node in a sharing mask. -/
def nodeBit (n : BitVec 8) : BitVec 64 := (1 : BitVec 64) <<< (n.toNat - 1)

/-- The node with the requester's bit set for a page. -/
def Node.shareWith (s : Node) (pi : Frame) (n : BitVec 8) : Node :=
  { s with shared := Function.update s.shared pi (s.shared pi ||| nodeBit n) }

/-- The node with other contents of its pages. -/
def Node.withPages (s : Node) (page : Frame → Page) : Node := { s with page := page }

/-- A request is harmless: no assertion fails, packets are sent only for a page that is served, its
sharing mask gets the requester's bit and nothing else changes, and no other page is read. -/
def Harmless (s : Node) (rq : Bytes) (junk buf : ℕ → Bytes) : Prop :=
  ∃ pkts s', netRxpullrq s rq junk buf = .ok (pkts, s') ∧
    (pkts ≠ [] → Served s rq) ∧
    (Served s rq → s' = s.shareWith (rqPage rq) (rqNode rq)) ∧ (¬ Served s rq → s' = s) ∧
    ∀ page, page (rqPage rq) = s.page (rqPage rq) →
      netRxpullrq (s.withPages page) rq junk buf = .ok (pkts, s'.withPages page)

/-- `net_txpullrp` can convert a word: it is a remote reference, an entry of the kernel or of the
zero page, or it names a page that is in use. -/
def WordOk (s : Sender) (pte : Word) : Prop :=
  pte &&& rrRemote ≠ 0 ∨ pte &&& pteG ≠ 0 ∨
    (pte &&& rrAddrMask).toNat = s.boot.zero.toNat * pageSize ∨
    (0 < (rrFrame (pte &&& rrAddrMask)).toNat ∧
      (rrFrame (pte &&& rrAddrMask)).toNat < s.boot.npage ∧
      0 < s.refcount (rrFrame (pte &&& rrAddrMask)))

/-- The request does not come from the node itself; the page it is served is not page 1, where the
requester is node 32 its sharing mask has the upper bits set already, and where it asks for a
table, every word of the parts it asks for can be converted. -/
def Safe (s : Node) (rq : Bytes) : Prop :=
  rqNode rq ≠ s.node ∧ (Served s rq → 1 < (rqPage rq).toNat ∧
    ((rqNode rq).toNat = 32 → ∀ i, 32 ≤ i → i < 64 → (s.shared (rqPage rq)).getLsbD i = true) ∧
    (0 < (rq rqPglevOfs).toNat → ∀ part ∈ needed (rq rqNeedOfs), ∀ i < partWords part,
      WordOk s.toSender (pageWord (s.page (rqPage rq)) (342 * part + i))))

/-! ## The checks -/

/-- What `net_rx` has checked of a request. -/
theorem netRx_pullrq (h : netRx s pkt = some .pullrq) :
    nodeOk (rqNode pkt.bytes) ∧ pkt.bytes.load 4 typeOfs = tagPullrq := by
  simp only [netRx] at h
  split at h
  · cases h
  · split at h
    · cases h
    · split at h
      · cases h
      next hsrc =>
        split at h
        · cases h
        · split at h
          next ht =>
            rw [not_or, not_not, not_not] at hsrc
            exact ⟨hsrc.2, ht⟩
          · split at h
            · split at h <;> cases h
            · cases h

/-! ## The sharing mask -/

theorem one_shift_getLsbD {w k i : ℕ} (hk : k < w) :
    ((1 : BitVec w) <<< k).getLsbD i = decide (i = k) := by
  rw [BitVec.getLsbD_shiftLeft, BitVec.ofNat_eq_ofNat, BitVec.getLsbD_one]
  by_cases h : i = k
  · subst h
    simp [hk]
    omega
  · simp [h]
    omega

theorem shareBit_getLsbD (hn : nodeOk n) {i : ℕ} (hi : i < 64) :
    (shareBit n).getLsbD i = decide (i = n.toNat - 1 ∨ n.toNat = 32 ∧ 32 ≤ i) := by
  obtain ⟨h1, h2⟩ := hn
  have hk : n.toNat - 1 < 32 := by omega
  unfold shareBit
  rw [BitVec.getLsbD_signExtend, BitVec.msb_eq_getLsbD_last, one_shift_getLsbD hk,
    one_shift_getLsbD hk, decide_eq_true hi, Bool.true_and]
  split
  · rw [decide_eq_decide]
    omega
  · rw [decide_eq_decide]
    omega

theorem nodeBit_getLsbD (hn : nodeOk n) {i : ℕ} :
    (nodeBit n).getLsbD i = decide (i = n.toNat - 1) := by
  obtain ⟨h1, h2⟩ := hn
  exact one_shift_getLsbD (by omega)

/-- Setting the bit as `net_rrshare` does sets the requester's bit and no other, but for node 32. -/
theorem or_shareBit (hn : nodeOk n) (m : BitVec 64) :
    m ||| shareBit n = m ||| nodeBit n ↔
      (n.toNat = 32 → ∀ i, 32 ≤ i → i < 64 → m.getLsbD i = true) := by
  constructor
  · intro h h32 i h1 h2
    have hb := congrArg (fun b : BitVec 64 => b.getLsbD i) h
    simp only [BitVec.getLsbD_or, shareBit_getLsbD hn h2, nodeBit_getLsbD hn] at hb
    rw [decide_eq_true (.inr ⟨h32, h1⟩), decide_eq_false (by omega), Bool.or_true, Bool.or_false] at hb
    exact hb.symm
  · intro h
    apply BitVec.eq_of_getLsbD_eq
    intro i hi
    simp only [BitVec.getLsbD_or, shareBit_getLsbD hn hi, nodeBit_getLsbD hn]
    by_cases hup : n.toNat = 32 ∧ 32 ≤ i
    · rw [h hup.1 i hup.2 hi, Bool.true_or, Bool.true_or]
    · simp only [hup, or_false]

/-- `net_rrshare` of a page of this node. -/
theorem netRrshare_ok_iff (hn : nodeOk n) (hpi : pi.toNat < s.boot.npage) :
    netRrshare s pi n = .ok s' ↔ 1 < pi.toNat ∧
      s' = { s with shared := Function.update s.shared pi (s.shared pi ||| shareBit n) } := by
  have hle := s.boot.npage_le
  have hlink : pi.toNat ≠ linkIndex s.boot.zero.toNat := by
    unfold linkIndex
    omega
  unfold netRrshare
  rw [require_bind_ok, require_bind hlink, require_bind hn, pure_ok]
  constructor
  · rintro ⟨⟨h1, -⟩, h2⟩
    exact ⟨h1, h2.symm⟩
  · rintro ⟨h1, h2⟩
    exact ⟨⟨h1, hpi⟩, h2.symm⟩

/-! ## The reply -/

theorem txWord_ok_iff (s : Sender) (pte : Word) : (∃ rr, s.txWord pte = .ok rr) ↔ WordOk s pte := by
  unfold Sender.txWord WordOk
  split
  next h1 => exact iff_of_true ⟨_, rfl⟩ (.inl h1)
  next h1 =>
    split
    next h2 => exact iff_of_true ⟨_, rfl⟩ (.inr (.inl h2))
    next h2 =>
      dsimp only
      split
      next h3 => exact iff_of_true ⟨_, rfl⟩ (.inr (.inr (.inl h3)))
      next h3 =>
        rw [or_iff_right h1, or_iff_right h2, or_iff_right h3]
        constructor
        · rintro ⟨rr, h⟩
          rw [require_bind_ok, require_bind_ok, require_bind_ok] at h
          exact ⟨h.1, h.2.1, h.2.2.1⟩
        · rintro ⟨ha, hb, hc⟩
          rw [require_bind ha, require_bind hb, require_bind hc]
          split
          · exact ⟨_, rfl⟩
          · exact ⟨_, rfl⟩

theorem netTxpullrp_table_ok_iff (s : Sender) (part : ℕ) (pg : Page) :
    (∃ rrs, s.netTxpullrp part pg = .ok rrs) ↔
      ∀ i < partWords part, WordOk s (pageWord pg (342 * part + i)) := by
  unfold Sender.netTxpullrp
  rw [mapM_ok_iff]
  simp only [List.mem_range, txWord_ok_iff]

/-- A reply is sent where the words of a table can be converted. -/
theorem netTxpullrp_ok_iff (hn : nodeOk n) (hne : n ≠ s.node) (pg : Page) (junk buf : Bytes)
    (hpart : part ≤ 2) : (∃ p, netTxpullrp s n rr pglev part pg junk buf = .ok p) ↔
      (0 < pglev → ∀ i < partWords part, WordOk s.toSender (pageWord pg (342 * part + i))) := by
  have hlen : partlen part ≤ netPullpart ∧ partlen part % 4 = 0 := by
    obtain rfl | rfl | rfl : part = 0 ∨ part = 1 ∨ part = 2 := by omega
    · decide
    · decide
    · decide
  have heth : ∃ m, netEthsetup s junk n = .ok m := by
    unfold netEthsetup
    rw [require_bind hn, require_bind hne]
    exact ⟨_, rfl⟩
  obtain ⟨m, heth⟩ := heth
  have hmax : Layout.size netPullrphdr + partlen part ≤ netMaxpkt := by
    have h40 : Layout.size netPullrphdr = 40 := by decide
    have h1368 : netPullpart = 1368 ∧ netMaxpkt = 1514 := ⟨rfl, rfl⟩
    omega
  unfold netTxpullrp
  rw [require_bind hlen.1, require_bind hlen.2]
  by_cases hp : 0 < pglev
  · simp only [if_pos hp, heth, ok_bind, e100Tx, require_bind hmax]
    rw [← netTxpullrp_table_ok_iff]
    constructor
    · rintro ⟨p, h⟩ -
      rw [bind_ok] at h
      obtain ⟨data, hdata, -⟩ := h
      exact ⟨data, hdata⟩
    · intro h
      obtain ⟨rrs, hrrs⟩ := h hp
      rw [hrrs]
      exact ⟨_, rfl⟩
  · simp only [if_neg hp, heth, e100Tx, pure, Except.pure, ok_bind, require_bind hmax]
    exact ⟨fun _ h => absurd h hp, fun _ => ⟨_, rfl⟩⟩

/-! ## The request -/

/-- The node after a request that is served. -/
def Node.marked (s : Node) (pi : Frame) (n : BitVec 8) : Node :=
  { s with shared := Function.update s.shared pi (s.shared pi ||| shareBit n) }

/-- The packets that are sent for a request that is served. -/
def replies (s : Node) (rq : Bytes) (junk buf : ℕ → Bytes) : Except Unit (List Pkt) :=
  (needed (rq rqNeedOfs)).mapM fun part =>
    netTxpullrp s (rqNode rq) (rqRr rq) (rq rqPglevOfs).toNat part (s.page (rqPage rq)) (junk part)
      (buf part)

theorem mem_needed {need : UInt8} (h : part ∈ needed need) : part ≤ 2 := by
  have h := List.mem_of_mem_filter h
  simp only [List.mem_cons, List.not_mem_nil, or_false] at h
  omega

/-- A request that is not served is dropped. -/
theorem netRxpullrq_unserved (ht : rq.load 4 typeOfs = tagPullrq) (hn : nodeOk (rqNode rq))
    (hne : rqNode rq ≠ s.node) (hs : ¬ Served s rq) (junk buf : ℕ → Bytes) :
    netRxpullrq s rq junk buf = .ok ([], s) := by
  unfold netRxpullrq
  rw [require_bind ht, require_bind ⟨hn, hne⟩]
  split
  · rfl
  next h1 =>
    dsimp only
    split
    · rfl
    next h2 =>
      split
      · rfl
      next h3 =>
        split
        · rfl
        next h4 =>
          rw [not_or] at h2
          exact absurd ⟨not_not.1 h1, ⟨h2.1, Nat.not_le.1 h2.2⟩, h3, not_not.1 h4⟩ hs

/-- A request that is served. -/
theorem netRxpullrq_served (ht : rq.load 4 typeOfs = tagPullrq) (hn : nodeOk (rqNode rq))
    (hne : rqNode rq ≠ s.node) (hs : Served s rq) (junk buf : ℕ → Bytes) :
    netRxpullrq s rq junk buf = .ok (pkts, s') ↔
      1 < (rqPage rq).toNat ∧ replies s rq junk buf = .ok pkts ∧
        s' = s.marked (rqPage rq) (rqNode rq) := by
  obtain ⟨h1, ⟨h2, h2'⟩, h3, h4⟩ := hs
  have htwice : ∀ u : Node, u = s.marked (rqPage rq) (rqNode rq) →
      u.marked (rqPage rq) (rqNode rq) = u := by
    rintro u rfl
    simp only [Node.marked, Function.update_self, BitVec.or_assoc, BitVec.or_self,
      Function.update_idem]
  unfold netRxpullrq
  rw [require_bind ht, require_bind ⟨hn, hne⟩, if_neg (not_not.2 h1)]
  dsimp only
  rw [if_neg (not_or.2 ⟨h2, Nat.not_le.2 h2'⟩), if_neg h3, if_neg (not_not.2 h4)]
  rw [bind_ok]
  constructor
  · rintro ⟨u, hu, h⟩
    obtain ⟨hlt, hu⟩ := (netRrshare_ok_iff hn h2').1 hu
    rw [bind_ok] at h
    obtain ⟨ps, hps, h⟩ := h
    rw [pure_ok, Prod.mk.injEq] at h
    obtain ⟨rfl, rfl⟩ := h
    refine ⟨hlt, ?_, ?_⟩
    · subst hu
      exact hps
    · exact (htwice u hu).trans hu
  · rintro ⟨hlt, hr, rfl⟩
    refine ⟨_, (netRrshare_ok_iff hn h2').2 ⟨hlt, rfl⟩, ?_⟩
    rw [bind_ok]
    refine ⟨pkts, hr, ?_⟩
    rw [pure_ok, Prod.mk.injEq]
    exact ⟨rfl, htwice _ rfl⟩

theorem replies_ok_iff (hn : nodeOk (rqNode rq)) (hne : rqNode rq ≠ s.node) (junk buf : ℕ → Bytes) :
    (∃ pkts, replies s rq junk buf = .ok pkts) ↔
      (0 < (rq rqPglevOfs).toNat → ∀ part ∈ needed (rq rqNeedOfs), ∀ i < partWords part,
        WordOk s.toSender (pageWord (s.page (rqPage rq)) (342 * part + i))) := by
  unfold replies
  rw [mapM_ok_iff]
  constructor
  · intro h hp part hpart
    exact (netTxpullrp_ok_iff hn hne _ _ _ (mem_needed hpart)).1 (h part hpart) hp
  · intro h part hpart
    exact (netTxpullrp_ok_iff hn hne _ _ _ (mem_needed hpart)).2 fun hp => h hp part hpart

/-- The requester's bit is the only one that is set. -/
theorem marked_eq_iff (hn : nodeOk n) : s.marked pi n = s.shareWith pi n ↔
    (n.toNat = 32 → ∀ i, 32 ≤ i → i < 64 → (s.shared pi).getLsbD i = true) := by
  rw [← or_shareBit hn]
  constructor
  · intro h
    have hm := congrArg (fun u : Node => u.shared pi) h
    simpa only [Node.marked, Node.shareWith, Function.update_self] using hm
  · intro h
    rw [Node.marked, Node.shareWith, h]

/-- A request that has passed `net_rx` is harmless exactly if it is safe. -/
theorem request_harmless_iff (h : netRx s pkt = some .pullrq) (junk buf : ℕ → Bytes) :
    Harmless s pkt.bytes junk buf ↔ Safe s pkt.bytes := by
  obtain ⟨hn, ht⟩ := netRx_pullrq h
  set rq := pkt.bytes
  by_cases hne : rqNode rq ≠ s.node
  · by_cases hs : Served s rq
    · constructor
      · rintro ⟨pkts, s', hok, -, hset, -, -⟩
        obtain ⟨hlt, hr, hs'⟩ := (netRxpullrq_served ht hn hne hs junk buf).1 hok
        exact ⟨hne, fun _ => ⟨hlt, (marked_eq_iff hn).1 (hs'.symm.trans (hset hs)),
          (replies_ok_iff hn hne junk buf).1 ⟨pkts, hr⟩⟩⟩
      · rintro ⟨-, hsafe⟩
        obtain ⟨hlt, hmask, hwords⟩ := hsafe hs
        obtain ⟨pkts, hr⟩ := (replies_ok_iff hn hne junk buf).2 hwords
        refine ⟨pkts, _, (netRxpullrq_served ht hn hne hs junk buf).2 ⟨hlt, hr, rfl⟩, fun _ => hs,
          fun _ => (marked_eq_iff hn).2 hmask, fun hns => absurd hs hns, fun page hpage => ?_⟩
        have hr' : replies (s.withPages page) rq junk buf = .ok pkts := by
          have hpg : (s.withPages page).page (rqPage rq) = s.page (rqPage rq) := hpage
          rw [← hr, replies, hpg]
          rfl
        exact (netRxpullrq_served (s := s.withPages page) ht hn hne hs junk buf).2 ⟨hlt, hr', rfl⟩
    · have hok := netRxpullrq_unserved ht hn hne hs junk buf
      refine iff_of_true ⟨[], s, hok, fun h => absurd rfl h, fun h => absurd h hs, fun _ => rfl,
        fun page _ => ?_⟩ ⟨hne, fun h => absurd h hs⟩
      exact netRxpullrq_unserved (s := s.withPages page) ht hn hne hs junk buf
  · apply iff_of_false
    · rintro ⟨pkts, s', hok, -⟩
      unfold netRxpullrq at hok
      rw [require_bind ht, require_bind_ok] at hok
      exact hne hok.1.2
    · rintro ⟨hne', -⟩
      exact hne hne'

/-- A node with one page of user data, and a request for it from node 2: the page's number, the
level and the parts are the request's. -/
def smallNode : Node where
  boot := Home.smallBoot
  node := 1
  refcount := fun f => if f = 8 then 1 else 0
  home := fun _ => 0
  page := fun _ _ => Pte.ofWord 5
  mac := fun i => if i = 5 then 1 else 0
  shared := fun _ => 0

@[inherit_doc smallNode]
def smallRequest (pglev : UInt8) : Pkt where
  bytes := fun i => [0, 0, 0, 0, 0, 1, 0, 0, 0, 0, 0, 2, 0x98, 0x76, 0, 0, 3, 0, 0, 0, 0, 0, 0, 0,
    0x02, 0x80, 0, 0, 0, 0, 0, 0, pglev, 7].getD i 0
  len := 64

/-- A request for a page of data. -/
theorem request_harmless_data : Harmless smallNode (smallRequest 0).bytes (fun _ _ => 0) fun _ _ => 0 := by
  have h : netRx smallNode (smallRequest 0) = some .pullrq := by decide
  refine (request_harmless_iff h _ _).2 ⟨by decide, fun _ => ⟨by decide, ?_, ?_⟩⟩
  · intro h32
    exact absurd h32 (by decide)
  · intro hp
    exact absurd hp (by decide)

/-- The same page asked for as a table: its first word names page 0. -/
theorem request_stops : netRx smallNode (smallRequest 1) = some .pullrq ∧
    ¬ Harmless smallNode (smallRequest 1).bytes (fun _ _ => 0) fun _ _ => 0 := by
  have h : netRx smallNode (smallRequest 1) = some .pullrq := by decide
  refine ⟨h, ?_⟩
  rintro ⟨pkts, s', hok, -⟩
  have he : netRxpullrq smallNode (smallRequest 1).bytes (fun _ _ => 0) (fun _ _ => 0) = .error () := rfl
  rw [he] at hok
  cases hok

end Determinator.Packets
