import Determinator.Kern.Pullpage
import Determinator.Net.Homes

/-!
# A migrated process and its address space

The claim of the protocol is that a process finds the same pages with the same permissions on the
node it has moved to. `net_txpullrp` takes the two halves of a page-map entry for two entries. The
upper half of an entry for a page in physical memory has no address in it, and an assertion fails
on it, so that no page map can be sent.
-/

namespace Determinator.Pullpage

/-! ## What is claimed -/

/-- What an entry maps: nothing but zeros, or a page, by the node it comes from and its address
there; and the nominal permissions. -/
inductive Mapping
  | zero (perm : BitVec 12)
  | page (perm : BitVec 12) (node : BitVec 8) (addr : ℕ)
  deriving DecidableEq

/-- What an entry maps on a node. -/
def mapping (b : Boot) (node : BitVec 8) (home : Frame → Rr) (e : Pte) : Mapping :=
  if e.frame = b.zero then .zero e.perm
  else if home e.frame ≠ 0 then
    .page e.perm (rrNode (home e.frame)) (rrAddr (home e.frame)).toNat
  else .page e.perm node (e.frame.toNat * pageSize)

/-- The tables through which the sender's page map with the given root leads to an address, by
level. -/
inductive Reaches (s : Sender) (root : Frame) (va : ℕ) : ℕ → Frame → Prop
  | root : Reaches s root va nptLvls root
  | down {n : ℕ} {t : Frame} : Reaches s root va (n + 1) t →
      (s.page t (Fin.ofNat nptEntries (pdx (n + 1) va))).frame ≠ s.boot.zero →
      Reaches s root va n (s.page t (Fin.ofNat nptEntries (pdx (n + 1) va))).frame

/-- The table is sent, and its entry at index `i` maps on the receiver what it maps on the
sender. -/
def EntryKept (s : Sender) (d : Receiver) (t : Frame) (i pglevel : ℕ) : Prop :=
  ∃ words e home, s.sendTable (s.page t) = .ok words ∧ d.entry words i pglevel = .ok (e, home) ∧
    mapping d.boot d.node home e =
      mapping s.boot s.node s.home (s.page t (Fin.ofNat nptEntries i))

/-- Every user address leads on the receiver where it leads on the sender. -/
def AddressSpaceKept (s : Sender) (d : Receiver) (root : Frame) : Prop :=
  ∀ va, vmUserLo ≤ va → va < vmUserHi → ∀ n t, Reaches s root va n t →
    EntryKept s d t (pdx n va) (if n = 0 then 0 else 1)

/-- The entries of a table of a page map: physical memory lies below 512GB, and the bits above the
address are not used. -/
def IsTable (pg : Page) : Prop := ∀ i, (pg i).high = 0 ∧ (pg i).frame.toNat < 2 ^ 27

/-! ## The upper half of an entry -/

/-- The upper half of an entry has seven bits. -/
theorem high_bit {e : Pte} (hh : e.high = 0) (hf : e.frame.toNat < 2 ^ 27) {i : ℕ} (hi : 7 ≤ i) :
    (e.word.extractLsb' 32 32).getLsbD i = false := by
  have hbit : e.frame.getLsbD (20 + i) = false := by
    apply Nat.testBit_lt_two_pow
    calc e.frame.toNat < 2 ^ 27 := hf
      _ ≤ 2 ^ (20 + i) := Nat.pow_le_pow_right (by decide) (by omega)
  simp only [BitVec.getLsbD_extractLsb', Pte.word, hh, BitVec.getLsbD_append]
  have h12 : ¬ 32 + i < 12 := by omega
  have h20 : 32 + i - 12 = 20 + i := by omega
  simp [h12, h20, hbit]

/-- A mask without the seven lowest bits takes everything away. -/
theorem high_and {e : Pte} (hh : e.high = 0) (hf : e.frame.toNat < 2 ^ 27) {mask : Word}
    (hm : ∀ i < 7, mask.getLsbD i = false) : e.word.extractLsb' 32 32 &&& mask = 0 := by
  apply BitVec.eq_of_getLsbD_eq
  intro i _
  rw [BitVec.getLsbD_and]
  by_cases hi : i < 7
  · simp [hm i hi]
  · simp [high_bit hh hf (Nat.not_lt.1 hi)]

/-- The upper half of an entry cannot be sent. -/
theorem txWord_high (s : Sender) {e : Pte} (hh : e.high = 0) (hf : e.frame.toNat < 2 ^ 27)
    (rr : Rr) : s.txWord (e.word.extractLsb' 32 32) ≠ .ok rr := by
  have hz : (0 : Word).toNat ≠ s.boot.zero.toNat * pageSize := by
    intro h
    apply s.boot.zero_ne
    have h : 0 = s.boot.zero.toNat * 4096 := h
    have hn : s.boot.zero.toNat = 0 := by omega
    exact BitVec.eq_of_toNat_eq hn
  have h1 : e.word.extractLsb' 32 32 &&& rrRemote = 0 := high_and hh hf (by decide)
  have h2 : e.word.extractLsb' 32 32 &&& pteG = 0 := high_and hh hf (by decide)
  have h3 : e.word.extractLsb' 32 32 &&& rrAddrMask = 0 := high_and hh hf (by decide)
  unfold Sender.txWord
  rw [if_neg (by simp [h1]), if_neg (by simp [h2])]
  simp only [h3]
  rw [if_neg hz]
  intro h
  rw [require_bind_ok] at h
  exact absurd h.1 (by decide)

/-! ## Sending a table -/

/-- No table of a page map can be sent. -/
theorem sendTable_ne_ok (s : Sender) {pg : Page} (hpg : IsTable pg) (words : List Rr) :
    s.sendTable pg ≠ .ok words := by
  intro h
  unfold Sender.sendTable at h
  rw [bind_ok] at h
  obtain ⟨p0, h0, -⟩ := h
  obtain ⟨rr, hrr⟩ := mapM_ok_mem h0 1 (by decide)
  exact txWord_high s (hpg 0).1 (hpg 0).2 rr hrr

/-- No process keeps its address space. -/
theorem not_addressSpaceKept (s : Sender) (d : Receiver) (root : Frame)
    (hroot : IsTable (s.page root)) : ¬ AddressSpaceKept s d root := by
  intro h
  obtain ⟨words, -, -, hs, -⟩ := h vmUserLo le_rfl (by decide) nptLvls root .root
  exact sendTable_ne_ok s hroot words hs

/-- A small machine with an empty page map: a root with one table, of zero mappings. -/
def emptyMap : Sender where
  boot := Home.smallBoot
  node := 1
  refcount := fun _ => 1
  home := fun _ => 0
  page := fun f i => if f = 8 ∧ i = 0 then .mk' 9 0x27 else zeroEntry 2

/-- Another one. -/
def otherNode : Receiver where
  boot := Home.smallBoot
  node := 2
  home := fun _ => 0
  shared := fun _ => 0
  find := fun _ => none
  alloc := some 8

theorem isTable_emptyMap : IsTable (emptyMap.page 8) := by
  intro i
  simp only [emptyMap]
  split
  · exact ⟨rfl, by decide⟩
  · exact ⟨rfl, by decide⟩

theorem not_addressSpaceKept_emptyMap :
    IsTable (emptyMap.page 8) ∧ ¬ AddressSpaceKept emptyMap otherNode 8 :=
  ⟨isTable_emptyMap, not_addressSpaceKept emptyMap otherNode 8 isTable_emptyMap⟩

/-- The page map of the small machine stops the sender. -/
theorem emptyMap_not_kept : ¬ AddressSpaceKept emptyMap otherNode 8 := by
  intro h
  obtain ⟨words, -, -, hs, -⟩ := h vmUserLo le_rfl (by decide) nptLvls 8 .root
  have he : emptyMap.sendTable (emptyMap.page 8) = .error () := rfl
  rw [he] at hs
  cases hs

end Determinator.Pullpage
