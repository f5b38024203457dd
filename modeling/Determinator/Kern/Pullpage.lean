import Determinator.Kern.Rr

/-!
# Page tables on the wire

How a node sends a page of a page map and how another one takes it over: `net_txpullrp` and
`net_pullpte` of `kern/net.c`. The two work on the 32-bit words of a page, and a remote reference
has the 32 bits of a word. The entries of a page map have 64 bits, so that each of them is two words
to this code.

The parts of a page are taken to arrive as they were sent. `mem_rrlookup` and `mem_alloc` are the
fields `find` and `alloc` of the receiving node.
-/

namespace Determinator.Pullpage

/-- A word of a page. -/
abbrev Word := BitVec 32

/-- `PTE_G`: a mapping of the kernel. -/
def pteG : Word := 0x100
/-- `PTE_P | PTE_U`. -/
def ptePU : Word := 0x5
/-- `SYS_READ`. -/
def rrRead : Word := 0x200

/-- The word at index `j` of a page, the low half of an entry first. -/
def pageWord (pg : Page) (j : ℕ) : Word :=
  (pg (Fin.ofNat nptEntries (j / 2))).word.extractLsb' (32 * (j % 2)) 32

/-- The words of a part: `NET_PULLPART0` to `NET_PULLPART2`, over four. -/
def partWords : ℕ → ℕ
  | 0 | 1 => 342
  | _ => 340

/-! ## Sending -/

/-- The node that serves a page. -/
structure Sender where
  boot : Boot
  node : BitVec 8
  refcount : Frame → ℤ
  home : Frame → Rr
  page : Frame → Page

/-- The loop body of `net_txpullrp`: a word of a table as a remote reference. -/
def Sender.txWord (s : Sender) (pte : Word) : Except Unit Rr :=
  if pte &&& rrRemote ≠ 0 then .ok pte
  else if pte &&& pteG ≠ 0 then .ok 0
  else
    let addr := pte &&& rrAddrMask
    if addr.toNat = s.boot.zero.toNat * pageSize then .ok (rrRemote ||| (pte &&& rrRW))
    else do
      let pi := rrFrame addr
      require (0 < pi.toNat) ()
      require (pi.toNat < s.boot.npage) ()
      require (0 < s.refcount pi) ()
      if s.home pi ≠ 0 then pure (s.home pi) else pure (rrCons s.node addr (pte &&& rrRW))

/-- `net_txpullrp`, for a part of a table. -/
def Sender.netTxpullrp (s : Sender) (part : ℕ) (pg : Page) : Except Unit (List Rr) :=
  (List.range (partWords part)).mapM fun i => s.txWord (pageWord pg (342 * part + i))

/-- The three parts of a table. -/
def Sender.sendTable (s : Sender) (pg : Page) : Except Unit (List Rr) := do
  let p0 ← s.netTxpullrp 0 pg
  let p1 ← s.netTxpullrp 1 pg
  let p2 ← s.netTxpullrp 2 pg
  pure (p0 ++ p1 ++ p2)

/-! ## Receiving -/

/-- The node that pulls a page. -/
structure Receiver where
  boot : Boot
  node : BitVec 8
  home : Frame → Rr
  shared : Frame → BitVec 64
  /-- `mem_rrlookup`. -/
  find : Rr → Option Frame
  /-- `mem_alloc`. -/
  alloc : Option Frame

/-- The word that `net_pullpte` has put in the table, and the homes of the pages after it. -/
structure Resolved where
  word : Word
  home : Frame → Rr

/-- The word `mem_pi2phys(pi) | (rr & RR_RW)`, with `PTE_P | PTE_U` for tables and readable
pages. -/
def localWord (pi : Frame) (rr : Rr) (pglevel : ℕ) : Word :=
  (pi.setWidth 32 <<< 12) ||| (rr &&& rrRW) |||
    (if 0 < pglevel ∨ rr &&& rrRead ≠ 0 then ptePU else 0)

/-- `net_pullpte`, on the word of an entry. -/
def Receiver.netPullpte (d : Receiver) (rr : Word) (pglevel : ℕ) : Except Unit Resolved := do
  require (rr &&& rrRemote ≠ 0) ()
  if rrAddr rr = 0 then pure ⟨localWord d.boot.zero rr 0, d.home⟩
  else if rrNode rr = d.node then
    let pi := rrFrame (rrAddr rr)
    require (Home.State.PageOk d.boot pi) ()
    require (d.home pi = 0) ()
    require (d.shared pi ≠ 0) ()
    pure ⟨localWord pi rr pglevel, d.home⟩
  else
    match d.find rr with
    | some pi => do
      require (d.home pi = rr) ()
      require (d.shared pi ≠ 0) ()
      pure ⟨localWord pi rr pglevel, d.home⟩
    | none =>
      match d.alloc with
      | none => .error ()
      | some pi => pure ⟨localWord pi rr pglevel, Function.update d.home pi rr⟩

/-- The entry at index `i` of a table that has arrived: its low word as `net_pullpte` leaves it,
its high word as it has come. -/
def Receiver.entry (d : Receiver) (words : List Rr) (i pglevel : ℕ) :
    Except Unit (Pte × (Frame → Rr)) := do
  let r ← d.netPullpte (words.getD (2 * i) 0) pglevel
  pure (.ofWord (words.getD (2 * i + 1) 0 ++ r.word), r.home)

end Determinator.Pullpage
