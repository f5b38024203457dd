import Determinator.Lib.Bytes
import Determinator.Kern.Pull
import Determinator.Kern.Pullpage

/-!
# Packets as bytes

The packets of `kern/net.h` that pull a page, byte by byte: what `net_rx` checks, what `net_rxpullrq`
and `net_txpullrp` do with a request, what `e100_tx` makes of a header and a body, and where
`net_rxpullrp` stores a part. The structures are laid out as the x86-64 ABI has it.

A structure on the stack has the bytes that were there before, where its code does not store
anything (`junk`), and so has a transmit buffer (`buf`).
-/

namespace Determinator.Packets

open Pull (partlen)
open Pullpage (Sender)

/-! ## Layout -/

/-- `net_ethhdr`. -/
def netEthhdr : List Member := [⟨6, 1⟩, ⟨6, 1⟩, ⟨2, 2⟩]

/-- `net_hdr`; a `net_msgtype` is an `int`. -/
def netHdr : List Member := [Layout.member netEthhdr, ⟨4, 4⟩]

/-- `net_pullrq`. -/
def netPullrq : List Member := netHdr ++ [⟨8, 8⟩, ⟨1, 1⟩, ⟨1, 1⟩]

/-- `net_pullrphdr`; `data` has no elements. -/
def netPullrphdr : List Member := netHdr ++ [⟨8, 8⟩, ⟨4, 4⟩, ⟨0, 1⟩]

/-- Offsets of `eth.src`, `eth.type` and `type` in every packet. -/
def srcOfs : ℕ := Layout.offset netEthhdr 1

@[inherit_doc srcOfs]
def ethTypeOfs : ℕ := Layout.offset netEthhdr 2

@[inherit_doc srcOfs]
def typeOfs : ℕ := Layout.offset netHdr 1

/-- Offsets of `rr`, `pglev` and `need` in `net_pullrq`. -/
def rqRrOfs : ℕ := Layout.offset netPullrq 2

@[inherit_doc rqRrOfs]
def rqPglevOfs : ℕ := Layout.offset netPullrq 3

@[inherit_doc rqRrOfs]
def rqNeedOfs : ℕ := Layout.offset netPullrq 4

/-- Offsets of `rr`, `part` and `data` in `net_pullrphdr`. -/
def rpRrOfs : ℕ := Layout.offset netPullrphdr 2

@[inherit_doc rpRrOfs]
def rpPartOfs : ℕ := Layout.offset netPullrphdr 3

@[inherit_doc rpRrOfs]
def rpDataOfs : ℕ := Layout.offset netPullrphdr 4

/-- `NET_PULLPART`. -/
def netPullpart : ℕ := 1368

/-- `NET_MAXPKT`. -/
def netMaxpkt : ℕ := 1514

/-- `htons(NET_ETHERTYPE)`. -/
def ethertype : ℕ := 0x7698

/-- `NET_PULLRQ`. -/
def tagPullrq : ℕ := 3

/-- `NET_PULLRP`. -/
def tagPullrp : ℕ := 4

/-- A packet, or a buffer with a length. -/
structure Pkt where
  bytes : Bytes
  len : ℕ

/-! ## The node -/

/-- A node that serves pages: its pages and their `pageinfo`, and `net_mac`. -/
structure Node extends Sender where
  mac : Bytes
  shared : Frame → BitVec 64

/-- The byte at offset `i` of a page. -/
def pageByte (pg : Page) (i : ℕ) : UInt8 := ⟨pg.byte i⟩

/-- `net_ethsetup`. -/
def netEthsetup (s : Node) (eth : Bytes) (destnode : BitVec 8) : Except Unit Bytes := do
  require (nodeOk destnode) ()
  require (destnode ≠ s.node) ()
  let eth := eth.copy 0 s.mac 0 6
  let eth := eth.store 1 5 destnode.toNat
  let eth := eth.copy srcOfs s.mac 0 6
  pure (eth.store 2 ethTypeOfs ethertype)

/-- `e100_tx`: the packet in the transmit buffer. -/
def e100Tx (hdr body : Pkt) (buf : Bytes) : Except Unit Pkt := do
  require (hdr.len + body.len ≤ netMaxpkt) ()
  let buf := buf.copy 0 hdr.bytes 0 hdr.len
  let buf := buf.copy hdr.len body.bytes 0 body.len
  pure ⟨buf, max (hdr.len + body.len) 64⟩

/-- The handler `net_rx` hands a packet to. Migration packets are not followed here. -/
inductive Handler
  | pullrq
  | pullrp
  deriving DecidableEq

/-- `net_rx`. -/
def netRx (s : Node) (pkt : Pkt) : Option Handler :=
  let m := pkt.bytes
  if pkt.len < Layout.size netHdr then none
  else if ¬ ∀ i < 6, m i = s.mac i then none
  else if ¬ (∀ i < 5, m (srcOfs + i) = s.mac i) ∨ ¬ nodeOk (m (srcOfs + 5)).toBitVec then none
  else if m.load 2 ethTypeOfs ≠ ethertype then none
  else if m.load 4 typeOfs = tagPullrq then
    if pkt.len < Layout.size netPullrq then none else some .pullrq
  else if m.load 4 typeOfs = tagPullrp then
    if pkt.len < Layout.size netPullrphdr then none else some .pullrp
  else none

/-- `net_rrshare`, of a page by its number. -/
def netRrshare (s : Node) (pi : Frame) (dstnode : BitVec 8) : Except Unit Node := do
  require (1 < pi.toNat ∧ pi.toNat < s.boot.npage) ()
  require (pi.toNat ≠ linkIndex s.boot.zero.toNat) ()
  require (nodeOk dstnode) ()
  pure { s with shared := Function.update s.shared pi (s.shared pi ||| shareBit dstnode) }

/-- The words of a part of a table, as bytes. -/
def wordBytes (rrs : List Rr) : Bytes := fun i => leByte (rrs.getD (i / 4) 0).toNat (i % 4)

/-- `net_txpullrp`. -/
def netTxpullrp (s : Node) (rqnode : BitVec 8) (rr : Rr) (pglev part : ℕ) (pg : Page)
    (junk buf : Bytes) : Except Unit Pkt := do
  let len := partlen part
  require (len ≤ netPullpart) ()
  require (len % 4 = 0) ()
  let data : Bytes ←
    if 0 < pglev then do
      let rrs ← s.toSender.netTxpullrp part pg
      pure (wordBytes rrs)
    else pure fun i => pageByte pg (netPullpart * part + i)
  let rph ← netEthsetup s junk rqnode
  let rph := rph.store 4 typeOfs tagPullrp
  let rph := rph.store 8 rpRrOfs rr.toNat
  let rph := rph.store 4 rpPartOfs part
  e100Tx ⟨rph, Layout.size netPullrphdr⟩ ⟨data, len⟩ buf

/-- The parts that a request asks for. -/
def needed (need : UInt8) : List ℕ := [0, 1, 2].filter fun i => need.toBitVec.getLsbD i

/-- The node a request comes from, `rq->eth.src[5]`. -/
def rqNode (rq : Bytes) : BitVec 8 := (rq (srcOfs + 5)).toBitVec

/-- The reference in a request, as the `uint32_t` that it is assigned to. -/
def rqRr (rq : Bytes) : Rr := BitVec.ofNat 32 (rq.load 8 rqRrOfs)

/-- The page it names. -/
def rqPage (rq : Bytes) : Frame := rrFrame (rrAddr (rqRr rq))

/-- `net_rxpullrq`: the packets it sends, and the node after it. -/
def netRxpullrq (s : Node) (rq : Bytes) (junk buf : ℕ → Bytes) : Except Unit (List Pkt × Node) := do
  require (rq.load 4 typeOfs = tagPullrq) ()
  require (nodeOk (rqNode rq) ∧ rqNode rq ≠ s.node) ()
  if rrNode (rqRr rq) ≠ s.node then return ([], s)
  let pi := rqPage rq
  if pi.toNat = 0 ∨ s.boot.npage ≤ pi.toNat then return ([], s)
  if s.refcount pi = 0 then return ([], s)
  if s.home pi ≠ 0 then return ([], s)
  let s ← netRrshare s pi (rqNode rq)
  let pkts ← (needed (rq rqNeedOfs)).mapM fun part =>
    netTxpullrp s (rqNode rq) (rqRr rq) (rq rqPglevOfs).toNat part (s.page pi) (junk part) (buf part)
  pure (pkts, { s with shared := Function.update s.shared pi (s.shared pi ||| shareBit (rqNode rq)) })

/-! ## The node that pulls -/

/-- The part of `struct proc` that a reply is stored by. -/
structure Puller where
  state : ProcState
  pullrr : Rr
  pullpg : ℕ
  arrived : BitVec 8

/-- The processes on `net_pulllist`, and the physical memory. -/
structure Receiver (P : Type) where
  list : List P
  proc : P → Puller
  mem : Bytes

variable {P : Type} [DecidableEq P]

namespace Receiver

/-- The loop of `net_rxpullrp`: the first process that waits for the reference. -/
def find (d : Receiver P) (rr : ℕ) : List P → Except Unit (Option P)
  | [] => .ok none
  | p :: ps => do
    require ((d.proc p).state = .pull) ()
    if (d.proc p).pullrr.toNat = rr then pure (some p) else d.find rr ps

/-- The critical section of `net_rxpullrp`; it tells the process whose part it has stored. -/
def netRxpullrp (d : Receiver P) (rp : Pkt) : Except Unit (Option P × Receiver P) := do
  require (rp.bytes.load 4 typeOfs = tagPullrp) ()
  let found ← d.find (rp.bytes.load 8 rpRrOfs) d.list
  match found with
  | none => return (none, d)
  | some p =>
    let part : ℤ := (rp.bytes.load 4 rpPartOfs : ℤ).bmod (2 ^ 32)
    if part < 0 ∨ 2 < part then return (none, d)
    let part := part.toNat
    if (d.proc p).arrived &&& ((1 : BitVec 8) <<< part) ≠ 0 then return (none, d)
    let datalen : ℤ := rp.len - Layout.size netPullrphdr
    if datalen ≠ partlen part then return (none, d)
    let mem := d.mem.copy ((d.proc p).pullpg + netPullpart * part) rp.bytes rpDataOfs datalen.toNat
    let arrived := (d.proc p).arrived ||| ((1 : BitVec 8) <<< part)
    return (some p,
      { list := if arrived = 7 then d.list.erase p else d.list
        proc := Function.update d.proc p { d.proc p with arrived := arrived }
        mem := mem })

/-- Packets that come one after the other. -/
def receive (d : Receiver P) : List Pkt → Except Unit (List (Option P) × Receiver P)
  | [] => .ok ([], d)
  | rp :: rps => do
    let (p, d) ← d.netRxpullrp rp
    let (ps, d) ← d.receive rps
    pure (p :: ps, d)

end Receiver

end Determinator.Packets
