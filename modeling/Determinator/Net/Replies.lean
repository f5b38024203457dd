import Determinator.Kern.Packets
import Determinator.Net.Requests

/-!
# Pull replies

What arrives of a page that is sent in three parts. The sender puts the data behind `sizeof` of the
header, which is 40 bytes with the padding at its end; the receiver finds it at the member `data`, which
lies before the padding. Every part that is stored begins with the four bytes of padding, and the last
four bytes of its data are lost.
-/

namespace Determinator.Packets

open Pull (partlen)

variable {s : Node} {n : BitVec 8} {rr : Rr} {part k : ℕ} {pg : Page} {junk : Bytes} {buf : Bytes}
  {rp : Pkt} {P : Type} {d d' : Receiver P} {p : P}

/-! ## What is claimed -/

/-- The process is the first one on the list that waits for the reference. -/
structure Receiver.Waiting (d : Receiver P) (p : P) (rr : Rr) : Prop where
  state : (d.proc p).state = .pull
  pullrr : (d.proc p).pullrr = rr
  first : ∃ pre post, d.list = pre ++ p :: post ∧
    ∀ q ∈ pre, (d.proc q).state = .pull ∧ (d.proc q).pullrr ≠ rr

variable [DecidableEq P]

/-- The packets are all accepted for the process; they leave the page in the memory it pulls into, and
the rest of the memory as it was. -/
def Receiver.Delivered (d : Receiver P) (p : P) (pg : Page) (rps : List Pkt) : Prop :=
  ∃ ps d', d.receive rps = .ok (ps, d') ∧ (∀ q ∈ ps, q = some p) ∧
    (∀ i < pageSize, d'.mem ((d.proc p).pullpg + i) = pageByte pg i) ∧
    ∀ a, a < (d.proc p).pullpg ∨ (d.proc p).pullpg + pageSize ≤ a → d'.mem a = d.mem a

/-- The four bytes that pad the header of each part are repeated all over this part of the page. -/
def Repeats (pg : Page) (junk : ℕ → Bytes) : Prop :=
  ∀ part ≤ 2, ∀ j < partlen part, pageByte pg (netPullpart * part + j) = junk part (rpDataOfs + j % 4)

/-! ## The packet -/

theorem typeOfs_eq : typeOfs = 16 := by decide
theorem rpRrOfs_eq : rpRrOfs = 24 := by decide
theorem rpPartOfs_eq : rpPartOfs = 32 := by decide
theorem rpDataOfs_eq : rpDataOfs = 36 := by decide
theorem size_netPullrphdr : Layout.size netPullrphdr = 40 := by decide

theorem partlen_le (part : ℕ) : 1360 ≤ partlen part ∧ partlen part ≤ netPullpart := by
  unfold partlen netPullpart
  split <;> decide

/-- `net_ethsetup` writes the first 14 bytes. -/
theorem netEthsetup_out {eth eth' : Bytes} (h : netEthsetup s eth n = .ok eth') {x : ℕ} (hx : 14 ≤ x) :
    eth' x = eth x := by
  unfold netEthsetup at h
  rw [require_bind_ok, require_bind_ok] at h
  obtain ⟨-, -, h⟩ := h
  cases h
  have h12 : ethTypeOfs = 12 := by decide
  have h6 : srcOfs = 6 := by decide
  rw [Bytes.store_out (.inr (by omega)), Bytes.copy_out (.inr (by omega)),
    Bytes.store_out (.inr (by omega)), Bytes.copy_out (.inr (by omega))]

/-- What a part of a page looks like on the wire. -/
structure IsPart (rp : Pkt) (rr : Rr) (part : ℕ) (pg : Page) (junk : Bytes) : Prop where
  len : rp.len = 40 + partlen part
  type : rp.bytes.load 4 16 = tagPullrp
  rr : rp.bytes.load 8 24 = rr.toNat
  no : rp.bytes.load 4 32 = part
  pad : ∀ j < 4, rp.bytes (36 + j) = junk (36 + j)
  data : ∀ j < partlen part, rp.bytes (40 + j) = pageByte pg (netPullpart * part + j)

theorem isPart_of_tx (h : netTxpullrp s n rr 0 part pg junk buf = .ok rp) (hpart : part ≤ 2) :
    IsPart rp rr part pg junk := by
  unfold netTxpullrp at h
  rw [require_bind_ok, require_bind_ok] at h
  obtain ⟨-, -, h⟩ := h
  rw [if_neg (Nat.lt_irrefl 0)] at h
  obtain ⟨data, hdata, h⟩ := bind_ok.1 h
  cases hdata
  obtain ⟨eth, heth, h⟩ := bind_ok.1 h
  unfold e100Tx at h
  rw [require_bind_ok] at h
  obtain ⟨-, h⟩ := h
  simp only [typeOfs_eq, rpRrOfs_eq, rpPartOfs_eq, size_netPullrphdr] at h
  cases h
  -- The header, up to its padding, and what of it is in the packet.
  set hdr : Bytes := ((eth.store 4 16 tagPullrp).store 8 24 rr.toNat).store 4 32 part with hhdr
  have hlow : ∀ x < 40, (buf.copy 0 hdr 0 40).copy 40 (fun i => pageByte pg (netPullpart * part + i)) 0
      (partlen part) x = hdr x := by
    intro x hx
    have h : buf.copy 0 hdr 0 40 (0 + x) = hdr (0 + x) := Bytes.copy_in hx
    rw [Bytes.copy_out (.inl hx)]
    simpa only [Nat.zero_add] using h
  have hload : ∀ k a, a + k ≤ 40 → Bytes.load k ((buf.copy 0 hdr 0 40).copy 40
      (fun i => pageByte pg (netPullpart * part + i)) 0 (partlen part)) a = hdr.load k a :=
    fun k a ha => Bytes.load_congr fun i hi => hlow (a + i) (by omega)
  have hrr : rr.toNat < 256 ^ 8 := rr.isLt.trans (by decide)
  have hp4 : part < 256 ^ 4 := Nat.lt_of_le_of_lt hpart (by decide)
  have hlen := partlen_le part
  constructor
  · exact Nat.max_eq_left (by omega)
  · rw [hload 4 16 (by omega), hhdr, Bytes.load_store_ne (.inl (by omega)),
      Bytes.load_store_ne (.inl (by omega)), Bytes.load_store_of_lt (by decide)]
  · rw [hload 8 24 (by omega), hhdr, Bytes.load_store_ne (.inl (by omega)), Bytes.load_store_of_lt hrr]
  · rw [hload 4 32 (by omega), hhdr, Bytes.load_store_of_lt hp4]
  · intro j hj
    dsimp only
    rw [hlow _ (by omega), hhdr, Bytes.store_out (.inr (by omega)), Bytes.store_out (.inr (by omega)),
      Bytes.store_out (.inr (by omega)), netEthsetup_out heth (by omega)]
  · intro j hj
    dsimp only
    rw [Bytes.copy_in hj, Nat.zero_add]

/-- What the receiver takes for the data. -/
theorem IsPart.received (h : IsPart rp rr part pg junk) {j : ℕ} (hj : j < partlen part) :
    rp.bytes (36 + j) =
      if j < 4 then junk (36 + j) else pageByte pg (netPullpart * part + (j - 4)) := by
  split
  next h4 => exact h.pad j h4
  next h4 =>
    have he : 36 + j = 40 + (j - 4) := by omega
    rw [he, h.data (j - 4) (by omega)]

/-! ## The receiver -/

namespace Receiver

omit [DecidableEq P] in
theorem find_waiting (hw : d.Waiting p rr) : d.find rr.toNat d.list = .ok (some p) := by
  obtain ⟨pre, post, hl, hpre⟩ := hw.first
  rw [hl]
  clear hl
  induction pre with
  | nil =>
    rw [List.nil_append, find, require_bind hw.state, if_pos (congrArg BitVec.toNat hw.pullrr)]
    rfl
  | cons q pre ih =>
    obtain ⟨hq, hne⟩ := hpre q (by simp)
    rw [List.cons_append, find, require_bind hq, if_neg fun h => hne (BitVec.eq_of_toNat_eq h)]
    exact ih fun q hq => hpre q (by simp [hq])

/-- The bit of a part in `arrived`. -/
theorem arrived_or (a : BitVec 8) (hpart : part ≤ 2) {i : ℕ} (hi : i ≤ 2) :
    (a ||| ((1 : BitVec 8) <<< part)).getLsbD i = (a.getLsbD i || decide (i = part)) := by
  have h : part = 0 ∨ part = 1 ∨ part = 2 := by omega
  have h' : i = 0 ∨ i = 1 ∨ i = 2 := by omega
  rw [BitVec.getLsbD_or]
  congr 1
  rcases h with rfl | rfl | rfl <;> rcases h' with rfl | rfl | rfl <;> rfl

theorem not_arrived {a : BitVec 8} (hpart : part ≤ 2) (h : a.getLsbD part = false) :
    a &&& ((1 : BitVec 8) <<< part) = 0 := by
  revert a
  obtain rfl | rfl | rfl : part = 0 ∨ part = 1 ∨ part = 2 := by omega
  · decide
  · decide
  · decide

/-- The state after a part has been stored. -/
def stored (d : Receiver P) (p : P) (part : ℕ) (rp : Pkt) : Receiver P :=
  let arrived := (d.proc p).arrived ||| ((1 : BitVec 8) <<< part)
  { list := if arrived = 7 then d.list.erase p else d.list
    proc := Function.update d.proc p { d.proc p with arrived := arrived }
    mem := d.mem.copy ((d.proc p).pullpg + netPullpart * part) rp.bytes 36 (partlen part) }

/-- A part that has not arrived is stored. -/
theorem netRxpullrp_waiting (hw : d.Waiting p rr) (h : IsPart rp rr part pg junk) (hpart : part ≤ 2)
    (ha : (d.proc p).arrived.getLsbD part = false) :
    d.netRxpullrp rp = .ok (some p, d.stored p part rp) := by
  have hint : (part : ℤ).bmod (2 ^ 32) = part := Int.bmod_eq_of_le (by omega) (by omega)
  unfold netRxpullrp
  rw [typeOfs_eq, rpRrOfs_eq, rpPartOfs_eq, rpDataOfs_eq, size_netPullrphdr, require_bind h.type, h.rr,
    find_waiting hw, ok_bind]
  dsimp only
  rw [h.no, hint, if_neg (by omega), Int.toNat_natCast, if_neg (not_not.2 (not_arrived hpart ha)),
    h.len]
  have hlen : ((40 + partlen part : ℕ) : ℤ) - (40 : ℕ) = partlen part := by omega
  rw [hlen, if_neg (not_not.2 rfl), Int.toNat_natCast]
  rfl

/-- The process still waits where another part is missing. -/
theorem Waiting.stored (hw : d.Waiting p rr) (hpart : part ≤ 2) (hk : k ≤ 2) (hne : k ≠ part)
    (ha : (d.proc p).arrived.getLsbD k = false) : (d.stored p part rp).Waiting p rr := by
  have h7 : (d.proc p).arrived ||| ((1 : BitVec 8) <<< part) ≠ 7 := by
    intro h
    have hb := congrArg (fun b : BitVec 8 => b.getLsbD k) h
    simp only [arrived_or _ hpart hk, ha, hne, decide_false, Bool.or_false] at hb
    obtain rfl | rfl | rfl : k = 0 ∨ k = 1 ∨ k = 2 := by omega
    · cases hb
    · cases hb
    · cases hb
  obtain ⟨pre, post, hl, hpre⟩ := hw.first
  have hnot : p ∉ pre := fun hp => (hpre p hp).2 hw.pullrr
  refine ⟨?_, ?_, pre, post, ?_, ?_⟩
  · simp [Receiver.stored, hw.state]
  · simp [Receiver.stored, hw.pullrr]
  · simp only [Receiver.stored, if_neg h7, hl]
  · intro q hq
    have hqp : q ≠ p := by
      rintro rfl
      exact hnot hq
    simp only [Receiver.stored, Function.update_of_ne hqp]
    exact hpre q hq

/-- What a list of parts leaves in memory. -/
structure Stored (d d' : Receiver P) (p : P) (rps : ℕ → Pkt) (parts : List ℕ) : Prop where
  inside : ∀ part ∈ parts, ∀ j < partlen part,
    d'.mem ((d.proc p).pullpg + netPullpart * part + j) = (rps part).bytes (36 + j)
  outside : ∀ a, (∀ part ∈ parts, a < (d.proc p).pullpg + netPullpart * part ∨
    (d.proc p).pullpg + netPullpart * part + partlen part ≤ a) → d'.mem a = d.mem a

/-- Different parts are stored in different places. -/
theorem part_apart {pos : ℕ} (hne : k ≠ part) {j : ℕ} (hj : j < partlen k) :
    pos + netPullpart * k + j < pos + netPullpart * part ∨
      pos + netPullpart * part + partlen part ≤ pos + netPullpart * k + j := by
  have h1 := (partlen_le k).2
  have h2 := (partlen_le part).2
  unfold netPullpart at *
  omega

/-- Parts that have not arrived are all stored, in whatever order they come. -/
theorem receive_parts {rps : ℕ → Pkt} {junks : ℕ → Bytes} {parts : List ℕ}
    (hrps : ∀ k ≤ 2, IsPart (rps k) rr k pg (junks k)) (hw : parts ≠ [] → d.Waiting p rr)
    (hparts : ∀ k ∈ parts, k ≤ 2) (hnd : parts.Nodup)
    (ha : ∀ k ∈ parts, (d.proc p).arrived.getLsbD k = false) :
    ∃ d', d.receive (parts.map rps) = .ok (parts.map fun _ => some p, d') ∧
      Stored d d' p rps parts := by
  induction parts generalizing d with
  | nil => exact ⟨d, rfl, nofun, fun _ _ => rfl⟩
  | cons part parts ih =>
    obtain ⟨hnot, hnd⟩ := List.nodup_cons.1 hnd
    have hpart := hparts part (by simp)
    have hw := hw (by simp)
    have hrest : ∀ k ∈ parts, k ≤ 2 ∧ k ≠ part ∧ (d.proc p).arrived.getLsbD k = false := by
      intro k hk
      refine ⟨hparts k (by simp [hk]), ?_, ha k (by simp [hk])⟩
      rintro rfl
      exact hnot hk
    have hrx := netRxpullrp_waiting hw (hrps part hpart) hpart (ha part (by simp))
    have hw' : parts ≠ [] → (d.stored p part (rps part)).Waiting p rr := by
      intro hne
      obtain ⟨k, hk⟩ := List.exists_mem_of_ne_nil parts hne
      obtain ⟨h1, h2, h3⟩ := hrest k hk
      exact hw.stored hpart h1 h2 h3
    have hpg : ((d.stored p part (rps part)).proc p).pullpg = (d.proc p).pullpg := by
      simp [Receiver.stored]
    obtain ⟨d', hd', hs⟩ := ih hw' (fun k hk => (hrest k hk).1) hnd (by
      intro k hk
      obtain ⟨h1, h2, h3⟩ := hrest k hk
      simp only [Receiver.stored, Function.update_self]
      rw [arrived_or _ hpart h1, h3, decide_eq_false h2]
      rfl)
    refine ⟨d', ?_, ?_, ?_⟩
    · rw [List.map_cons, receive, hrx, ok_bind]
      dsimp only
      rw [hd', ok_bind]
      rfl
    · intro k hk j hj
      rw [← hpg]
      rcases List.mem_cons.1 hk with rfl | hk
      · rw [hs.outside]
        · rw [hpg]
          exact Bytes.copy_in hj
        · intro m hm
          exact part_apart (hrest m hm).2.1.symm hj
      · exact hs.inside k hk j hj
    · intro a hout
      rw [hs.outside a]
      · exact Bytes.copy_out (hout part (by simp))
      · intro k hk
        rw [hpg]
        exact hout k (by simp [hk])

end Receiver

/-! ## The page -/

/-- A place in a page lies in one of the three parts. -/
theorem part_of_offset {i : ℕ} (hi : i < pageSize) :
    ∃ part ≤ 2, ∃ j < partlen part, i = netPullpart * part + j := by
  unfold pageSize at hi
  unfold netPullpart
  rcases Nat.lt_or_ge i 1368 with h | h
  · exact ⟨0, by omega, i, h, by omega⟩
  · rcases Nat.lt_or_ge i 2736 with h' | h'
    · exact ⟨1, by omega, i - 1368, (by omega : i - 1368 < 1368), by omega⟩
    · exact ⟨2, by omega, i - 2736, (by omega : i - 2736 < 1360), by omega⟩

theorem part_lt {j : ℕ} (hpart : part ≤ 2) (hj : j < partlen part) :
    netPullpart * part + j < pageSize := by
  unfold netPullpart pageSize
  obtain rfl | rfl | rfl : part = 0 ∨ part = 1 ∨ part = 2 := by omega
  · have hj : j < 1368 := hj
    omega
  · have hj : j < 1368 := hj
    omega
  · have hj : j < 1360 := hj
    omega

/-- Four bytes late, a part is what it should be exactly if it repeats the padding. -/
theorem repeats_iff {junk : Bytes} : (∀ j < partlen part, (if j < 4 then junk (36 + j)
      else pageByte pg (netPullpart * part + (j - 4))) = pageByte pg (netPullpart * part + j)) ↔
    ∀ j < partlen part, pageByte pg (netPullpart * part + j) = junk (36 + j % 4) := by
  constructor
  · intro h j
    induction j using Nat.strongRecOn with
    | ind j ih =>
      intro hj
      rw [← h j hj]
      split
      next h4 => rw [Nat.mod_eq_of_lt h4]
      next h4 =>
        rw [ih (j - 4) (by omega) (by omega)]
        congr 2
        omega
  · intro h j hj
    rw [h j hj]
    split
    next h4 => rw [Nat.mod_eq_of_lt h4]
    next h4 =>
      rw [h (j - 4) (by omega)]
      congr 2
      omega

/-- The three parts are delivered exactly if each is what it should be where it is stored. -/
theorem delivered_iff_parts {rps : ℕ → Pkt} {junks : ℕ → Bytes} {parts : List ℕ}
    (hrps : ∀ k ≤ 2, IsPart (rps k) rr k pg (junks k)) (hw : d.Waiting p rr)
    (ha : (d.proc p).arrived = 0) (hparts : parts.Perm [0, 1, 2]) :
    d.Delivered p pg (parts.map rps) ↔ ∀ part ≤ 2, ∀ j < partlen part,
      (if j < 4 then junks part (36 + j) else pageByte pg (netPullpart * part + (j - 4))) =
        pageByte pg (netPullpart * part + j) := by
  have hmem : ∀ k, k ∈ parts ↔ k ≤ 2 := by
    intro k
    rw [hparts.mem_iff]
    simp only [List.mem_cons, List.not_mem_nil, or_false]
    omega
  obtain ⟨d', hd', hs⟩ := Receiver.receive_parts hrps (fun _ => hw) (fun k hk => (hmem k).1 hk)
    (hparts.nodup_iff.2 (by decide)) fun k _ => by rw [ha]; exact BitVec.getLsbD_zero
  have hin : ∀ part ≤ 2, ∀ j < partlen part, d'.mem ((d.proc p).pullpg + (netPullpart * part + j)) =
      if j < 4 then junks part (36 + j) else pageByte pg (netPullpart * part + (j - 4)) := by
    intro part hpart j hj
    rw [← Nat.add_assoc, hs.inside part ((hmem part).2 hpart) j hj, (hrps part hpart).received hj]
  constructor
  · rintro ⟨ps, u, hu, -, hbytes, -⟩ part hpart j hj
    rw [hd'] at hu
    obtain ⟨-, rfl⟩ := Prod.mk.inj (Except.ok.inj hu)
    rw [← hin part hpart j hj]
    exact hbytes _ (part_lt hpart hj)
  · intro h
    refine ⟨_, d', hd', ?_, ?_, ?_⟩
    · intro q hq
      obtain ⟨_, -, rfl⟩ := List.mem_map.1 hq
      rfl
    · intro i hi
      obtain ⟨part, hpart, j, hj, rfl⟩ := part_of_offset hi
      rw [hin part hpart j hj]
      exact h part hpart j hj
    · intro a hout
      apply hs.outside
      intro part hpart
      have hlast := part_lt ((hmem part).1 hpart) (j := partlen part - 1) (by
        have := partlen_le part
        omega)
      have hlen := partlen_le part
      omega

/-- The replies for a page of data leave this page at the receiver exactly if each part repeats the
padding of its header. -/
theorem reply_delivered_iff {rps : ℕ → Pkt} {junks bufs : ℕ → Bytes} {parts : List ℕ}
    (htx : ∀ k ≤ 2, netTxpullrp s n rr 0 k pg (junks k) (bufs k) = .ok (rps k))
    (hw : d.Waiting p rr) (ha : (d.proc p).arrived = 0) (hparts : parts.Perm [0, 1, 2]) :
    d.Delivered p pg (parts.map rps) ↔ Repeats pg junks := by
  rw [delivered_iff_parts (fun k hk => isPart_of_tx (htx k hk) hk) hw ha hparts]
  unfold Repeats
  rw [rpDataOfs_eq]
  constructor
  · intro h part hpart
    exact repeats_iff.1 (h part hpart)
  · intro h part hpart
    exact repeats_iff.2 (h part hpart)

/-- Node 1, which serves a page to node 2. -/
def servingNode : Node where
  boot := Home.smallBoot
  node := 1
  refcount := fun _ => 1
  home := fun _ => 0
  page := fun _ => Page.zeros
  mac := fun i => if i = 5 then 1 else 0
  shared := fun _ => 0

/-- A process of node 2 that waits for the page at 0x8000 of node 1. -/
def pullingNode : Receiver Unit where
  list := [()]
  proc := fun _ => ⟨.pull, rrCons 1 0x8000 0x200, 0x5000, 0⟩
  mem := fun _ => 0

theorem waiting_pullingNode : pullingNode.Waiting () (rrCons 1 0x8000 0x200) :=
  ⟨rfl, rfl, [], [], rfl, nofun⟩

/-- A stack and transmit buffers of zeros. -/
def cleared : ℕ → Bytes := fun _ _ => 0

/-- The replies for a page, with headers that are padded with zeros. -/
def sentPart (pg : Page) (k : ℕ) : Pkt :=
  match netTxpullrp servingNode 2 (rrCons 1 0x8000 0x200) 0 k pg (cleared k) (cleared k) with
  | .ok rp => rp
  | .error _ => ⟨fun _ => 0, 0⟩

theorem netTxpullrp_sentPart (pg : Page) (k : ℕ) (hk : k ≤ 2) :
    netTxpullrp servingNode 2 (rrCons 1 0x8000 0x200) 0 k pg (cleared k) (cleared k) =
      .ok (sentPart pg k) := by
  have h : ∃ rp, netTxpullrp servingNode 2 (rrCons 1 0x8000 0x200) 0 k pg (cleared k) (cleared k) =
      .ok rp := (netTxpullrp_ok_iff (by decide) (by decide) pg _ _ hk).2 nofun
  obtain ⟨rp, hrp⟩ := h
  unfold sentPart
  rw [hrp]

/-- A page of zeros. -/
theorem reply_delivered_zeros :
    pullingNode.Delivered () Page.zeros ([2, 0, 1].map (sentPart Page.zeros)) := by
  refine (reply_delivered_iff (netTxpullrp_sentPart Page.zeros)
    waiting_pullingNode rfl (by decide)).2 ?_
  intro part _ j _
  have h : (Page.zeros (Fin.ofNat nptEntries ((netPullpart * part + j) / 8))).word = 0 := by
    change Pte.word ⟨0, 0, 0⟩ = 0
    decide
  unfold pageByte Page.byte byteOf
  rw [h]
  simp [cleared, BitVec.extractLsb']

/-- A page whose first byte is not zero arrives with another one. -/
theorem reply_not_delivered : ¬ pullingNode.Delivered () (fun _ => Pte.ofWord 1)
    ([0, 1, 2].map (sentPart fun _ => Pte.ofWord 1)) := by
  intro h
  have hparts := (delivered_iff_parts (fun k hk => isPart_of_tx (netTxpullrp_sentPart _ k hk) hk)
    waiting_pullingNode rfl (List.Perm.refl _)).1 h
  have h0 := hparts 0 (by omega) 0 (by decide)
  exact absurd h0 (by decide)

end Determinator.Packets
