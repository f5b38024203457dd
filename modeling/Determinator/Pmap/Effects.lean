import Determinator.Pmap.Replicas
import Determinator.Lib.Trace

/-!
# What the operations do to the page maps

What is found in a page map is changed by an operation on it in the range it is for, and nowhere else, and nothing
is changed in the others (`Maps.Changes`). That is so for removing, permissions, new pages and faults as long as
`mem_alloc` finds pages; for copies it is so if they do not go down into tables that others use.
-/

namespace Determinator

open PanicM

variable {b : Boot} {G G' : Ghost} {s s' s₀ : Mem} {σ : Maps} {f t r r' pi sr dr : Frame} {v v' : View}
  {a l lo hi va sva dva size n : ℕ} {C D : ℕ → View → View → Prop} {R R' : ℕ → View → View → Prop} {perm : BitVec 12}

/-! ## Changes of a page map -/

/-- From `lo` up to `hi` there is the change `C`, and nothing is seen elsewhere. -/
def Inside (lo hi : ℕ) (C : ℕ → View → View → Prop) (a : ℕ) (v v' : View) : Prop :=
  if lo ≤ a ∧ a < hi then C a v v' else View.Keeps v v'

theorem Inside.mono (h : Inside lo hi C a v v') (hD : lo ≤ a → a < hi → C a v v' → D a v v') :
    Inside lo hi D a v v' := by
  unfold Inside at *
  split at h
  · rename_i hin
    rw [if_pos hin]
    exact hD hin.1 hin.2 h
  · rename_i hin
    rw [if_neg hin]
    exact h

theorem Inside.here (h : Inside lo hi C a v v') (h₁ : lo ≤ a) (h₂ : a < hi) : C a v v' := by
  unfold Inside at h
  rwa [if_pos ⟨h₁, h₂⟩] at h

theorem Ranged.inside (hu : UserVa va) (ha : UserVa a) (h : Ranged 3 va lo hi C a v v') : Inside lo hi C a v v' :=
  h ((user_block ha).trans (user_block hu).symm)

/-- An operation on the page map `r` leaves `s'`: the page map has changed as `R` says, the others show what they
did, and the zero page holds zeros. -/
structure Maps.Changes (b : Boot) (σ : Maps) (r : Frame) (R : ℕ → View → View → Prop) (s' : Mem) : Prop where
  self : ∀ a, UserVa a → R a (viewAt b σ.mem a nptLvls r) (viewAt b s' a nptLvls r)
  other : ∀ r' a, σ.IsRoot r' → r' ≠ r → UserVa a →
    View.Keeps (viewAt b σ.mem a nptLvls r') (viewAt b s' a nptLvls r')
  zero : s'.page b.zero = Page.zeros

namespace Maps

theorem Changes.mono (h : σ.Changes b r R s') (hR : ∀ a, UserVa a →
    R a (viewAt b σ.mem a nptLvls r) (viewAt b s' a nptLvls r) →
      R' a (viewAt b σ.mem a nptLvls r) (viewAt b s' a nptLvls r)) : σ.Changes b r R' s' :=
  { h with self := fun a ha => hR a ha (h.self a ha) }

namespace Inv

theorem level (h : Maps.Inv b s₀ σ G) (hr : σ.IsRoot r) : (G.kind r).level = some 3 := by
  rw [h.is_root hr]
  rfl

theorem maps (h : Maps.Inv b s₀ σ G) (hr : σ.IsRoot r) (ha : UserVa a) : (G.kind r).maps a := by
  rw [h.is_root hr]
  exact ha

theorem changes (h : Maps.Inv b s₀ σ G) (hr : σ.IsRoot r) (ha : Acts b 3 r R G σ.mem G' s') :
    σ.Changes b r R s' where
  self a hu := ha.self a (h.maps hr hu)
  other r' a hr' hne hu := ha.other r' a (h.level hr') hne (h.maps hr' hu)
  zero := ha.zero.trans h.zeros

/-- The operations on a range. -/
theorem changes_range (h : Maps.Inv b s₀ σ G) (hr : σ.IsRoot r) (hu : UserVa va)
    (ha : Acts b 3 r (Ranged 3 va lo hi C) G σ.mem G' s') : σ.Changes b r (Inside lo hi C) s' :=
  (h.changes hr ha).mono fun _ ha' hR => hR.inside hu ha'

/-- What is not seen changes no page map. -/
theorem unchanged (h : Maps.Inv b s₀ σ G) (hu : Unseen b 3 G σ.mem G' s') (hr : σ.IsRoot r) (ha : UserVa a) :
    View.Keeps (viewAt b σ.mem a nptLvls r) (viewAt b s' a nptLvls r) :=
  hu.view 3 r a (h.level hr) (h.maps hr ha)

/-- Where nothing is mapped, there are zeros. -/
theorem page_zero (h : Maps.Inv b s₀ σ G) (hv : (viewAt b σ.mem a l t).leaf.frame = b.zero) :
    (viewAt b σ.mem a l t).page = Page.zeros := by
  rw [viewAt_frame, hv, h.zeros]

end Inv

end Maps

theorem Area.end_le (h : Area va size) (ha : a < va + size) (ha' : va ≤ a) : UserVa a := by
  have h₁ := h.user
  have h₂ := h.le
  exact ⟨by omega, by omega⟩

/-! ## Removing -/

/-- There are zeros. Flags of a mapping of the zero page can be left. -/
structure Emptied (b : Boot) (v v' : View) : Prop where
  page : v'.page = Page.zeros
  leaf : v'.leaf = pteZero b ∨ v.leaf.frame = b.zero ∧ v'.leaf = v.leaf

/-- Nothing is found in a range. -/
def Empty (b : Boot) (s : Mem) (r : Frame) (lo hi : ℕ) : Prop :=
  ∀ a, lo ≤ a → a < hi → (viewAt b s a nptLvls r).leaf = pteZero b

/-- Mappings of the zero page have no flags, where the range does not cover the 2MB around them. -/
def Removable (b : Boot) (s : Mem) (r : Frame) (lo hi : ℕ) : Prop :=
  ∀ a, lo ≤ a → a < hi → ¬InBlock lo hi a → (viewAt b s a nptLvls r).leaf.frame = b.zero →
    (viewAt b s a nptLvls r).leaf = pteZero b

/-- What is cleared is gone. -/
theorem Maps.Inv.cleared {C : Prop} (h : Maps.Inv b s₀ σ G) (hr : σ.IsRoot r) (hu : UserVa va) (hC : C)
    (hl : Left b 3 r C (Ranged 3 va lo hi (Cleared b lo hi)) G σ.mem G' s') :
    σ.Changes b r (Inside lo hi fun _ => Emptied b) s' := by
  have hc := h.changes_range hr hu (hl.acts hC)
  refine hc.mono fun a _ hin => hin.mono fun _ _ hcl => ?_
  by_cases hz : (viewAt b σ.mem a nptLvls r).leaf.frame = b.zero ∧ ¬InBlock lo hi a
  · have hleaf := hcl.1 hz.1 hz.2
    refine ⟨?_, .inr ⟨hz.1, hleaf⟩⟩
    rw [viewAt_frame, hleaf, hz.1, hc.zero]
  · have hleaf := hcl.2 hz
    refine ⟨?_, .inl hleaf⟩
    rw [viewAt_frame, hleaf, pteZero_frame, hc.zero]

/-- **`pmap_remove`** leaves zeros in its range, and nothing else there unless there are flags of the zero page. -/
theorem remove_changes (hb : Booted b s₀) (h : Reach b (fun _ => True) defects s₀ σ) (hr : σ.IsRoot r)
    (ha : Area va size) (hd : (pmapRemove b r va size σ.mem).state.dry = false) :
    (pmapRemove b r va size σ.mem).val = .ok () ∧
    σ.Changes b r (Inside va (va + size) fun _ => Emptied b) (pmapRemove b r va size σ.mem).state ∧
    (Empty b (pmapRemove b r va size σ.mem).state r va (va + size) ↔ Removable b σ.mem r va (va + size)) := by
  obtain ⟨G, hG⟩ := h.inv hb fun c _ => c.defects_subset
  have hmeets : Meets {Note.ignored} (pmapRemove b r va size) σ.mem fun _ s' => ∃ G',
      Left b 3 r True (Ranged 3 va va (va + size) (Cleared b va (va + size))) G σ.mem G' s' :=
    pmapRemove_ends (fun _ => Set.mem_singleton _) hG.toSound (hG.is_root hr) ha
  have hn : ∀ n ∈ (pmapRemove b r va size σ.mem).notes, n ∉ ({Note.ignored} : Set Note) := by
    intro n hn hi
    rw [Set.mem_singleton_iff] at hi
    exact (records_pmapRemove r va size σ.mem hd).2.1 (hi ▸ hn)
  obtain ⟨_, s', hret, G', hl⟩ := hmeets.returns hn
  rw [hret.state]
  refine ⟨hret.val, ?_⟩
  have hc := hG.changes_range hr ha.user (hl.acts trivial)
  refine ⟨hG.cleared hr ha.user trivial hl, ?_⟩
  constructor
  · intro hempty a h₁ h₂ hblock hz
    have hcl := (hc.self a (ha.end_le h₂ h₁)).here h₁ h₂
    rw [← hcl.1 hz hblock]
    exact hempty a h₁ h₂
  · intro hrem a h₁ h₂
    have hcl := (hc.self a (ha.end_le h₂ h₁)).here h₁ h₂
    by_cases hz : (viewAt b σ.mem a nptLvls r).leaf.frame = b.zero ∧ ¬InBlock va (va + size) a
    · rw [hcl.1 hz.1 hz.2]
      exact hrem a h₁ h₂ hz.2 hz.1
    · exact hcl.2 hz

/-- A page is removed, and another one stays. -/
theorem remove_changes_sample : ∃ σ, Reach sampleBoot (fun _ => True) defects (freshMem samplePages) σ ∧
    (pmapRemove sampleBoot 0x1000 0x40001000 4096 σ.mem).val = .ok () ∧
    σ.Changes sampleBoot 0x1000 (Inside 0x40001000 (0x40001000 + 4096) fun _ => Emptied sampleBoot)
      (pmapRemove sampleBoot 0x1000 0x40001000 4096 σ.mem).state := by
  obtain ⟨σ, hσ, hP⟩ := exists_reach sampleBoot (fun _ => True) defects (freshMem samplePages)
    [.newpmap, .alloc, .insert 0x1000 0x1002 0x40001000 (sysRW ||| pteU ||| pteA), .alloc,
      .insert 0x1000 0x1005 0x40002000 (sysRW ||| pteU ||| pteA)]
    (fun σ => decide (σ.IsRoot 0x1000 ∧ (pmapRemove sampleBoot 0x1000 0x40001000 4096 σ.mem).state.dry = false))
    (fun _ _ => trivial) (by decide +kernel)
  obtain ⟨hr, hd⟩ := of_decide_eq_true hP
  obtain ⟨h₁, h₂, -⟩ := remove_changes sample_booted hσ hr (by decide) hd
  exact ⟨σ, hσ, h₁, h₂⟩

/-! ## Permissions -/

/-- What `pmap_setperm` makes of permissions: without read permission there is none. -/
def granted (perm : BitVec 12) : BitVec 12 := if perm &&& sysRead = 0 then 0 else perm

/-- The permissions are set, but for a mapping of the zero page that would lose its own. -/
structure Granted (b : Boot) (perm : BitVec 12) (v v' : View) : Prop where
  page : v'.page = v.page
  frame : v'.leaf.frame = v.leaf.frame
  wr : v'.wr = true → v.wr = true ∧ perm &&& sysWrite ≠ 0
  up : perm &&& sysRead ≠ 0 → v'.up = true
  leaf : v'.leaf.perm = granted perm ∧ (v'.leaf.isP = true ↔ perm &&& sysRead ≠ 0) ∨
    v.leaf.frame = b.zero ∧ perm &&& sysRead = 0 ∧ v'.leaf = v.leaf

/-- The permissions of a range are these, and nothing is present unless it can be read. -/
def Permissions (b : Boot) (s : Mem) (r : Frame) (lo hi : ℕ) (perm : BitVec 12) : Prop :=
  ∀ a, lo ≤ a → a < hi → (viewAt b s a nptLvls r).leaf.perm = granted perm ∧
    ((viewAt b s a nptLvls r).leaf.isP = true ↔ perm &&& sysRead ≠ 0)

/-- The bits that are kept are among those that are set. -/
theorem permMasks_spec (hp : perm &&& ~~~sysRW = 0) :
    (permMasks perm).2 &&& sysRW = granted perm ∧
    (permMasks perm).1 &&& sysRW ||| granted perm = granted perm ∧
    ((permMasks perm).2.getLsbD 0 = true ↔ perm &&& sysRead ≠ 0) ∧
    ((permMasks perm).1.getLsbD 0 = true → perm &&& sysRead ≠ 0) ∧
    ((permMasks perm).1.getLsbD 1 = true → perm &&& sysWrite ≠ 0) ∧
    ((permMasks perm).2 = 0 ↔ perm &&& sysRead = 0) := by
  revert perm
  decide +kernel

theorem masked_perm (e : Pte) (hp : perm &&& ~~~sysRW = 0) :
    (e.masked (permMasks perm).1 (permMasks perm).2).perm = granted perm ∧
      ((e.masked (permMasks perm).1 (permMasks perm).2).isP = true ↔ perm &&& sysRead ≠ 0) := by
  obtain ⟨h₁, h₂, h₃, h₄, -⟩ := permMasks_spec hp
  constructor
  · have hbits : (e.masked (permMasks perm).1 (permMasks perm).2).perm =
        e.flags &&& ((permMasks perm).1 &&& sysRW) ||| granted perm := by
      rw [← h₁]
      ext i hi
      simp [Pte.masked, Pte.perm, Bool.and_or_distrib_right, Bool.and_assoc]
    rw [hbits, ← h₂]
    ext i hi
    simp only [BitVec.getElem_or, BitVec.getElem_and]
    cases e.flags[i] <;> simp
  · rw [← h₃]
    unfold Pte.masked Pte.isP
    rw [BitVec.getLsbD_or, BitVec.getLsbD_and, Bool.or_eq_true, Bool.and_eq_true]
    constructor
    · rintro (h | h)
      · exact h₃.2 (h₄ h.2)
      · exact h
    · exact .inr

/-- **`pmap_setperm`** sets the permissions of its range, and nothing else changes. Permissions that a mapping of the
zero page has are not taken away. -/
theorem setperm_changes (hb : Booted b s₀) (h : Reach b (fun _ => True) defects s₀ σ) (hr : σ.IsRoot r)
    (ha : Area va size) (hp : perm &&& ~~~sysRW = 0) (hd : (pmapSetperm b r va size perm σ.mem).state.dry = false) :
    (pmapSetperm b r va size perm σ.mem).val = .ok () ∧
    σ.Changes b r (Inside va (va + size) fun _ => Granted b perm) (pmapSetperm b r va size perm σ.mem).state ∧
    (Permissions b (pmapSetperm b r va size perm σ.mem).state r va (va + size) perm ↔
      (perm &&& sysRead = 0 → ∀ a, va ≤ a → a < va + size → (viewAt b σ.mem a nptLvls r).leaf.frame = b.zero →
        (viewAt b σ.mem a nptLvls r).leaf.perm = 0 ∧ (viewAt b σ.mem a nptLvls r).leaf.isP = false)) := by
  obtain ⟨G, hG⟩ := h.inv hb fun c _ => c.defects_subset
  obtain ⟨-, -, -, -, hwrite, hnone⟩ := permMasks_spec hp
  have hmeets : Meets {Note.ignored} (pmapSetperm b r va size perm) σ.mem fun _ s' => ∃ G', Left b 3 r True
      (Ranged 3 va va (va + size) (Permitted b (permMasks perm).1 (permMasks perm).2)) G σ.mem G' s' :=
    pmapSetperm_ends (Set.mem_singleton _) hG.toSound (hG.is_root hr) ha hp
  have hn : ∀ n ∈ (pmapSetperm b r va size perm σ.mem).notes, n ∉ ({Note.ignored} : Set Note) := by
    intro n hn hi
    rw [Set.mem_singleton_iff] at hi
    exact (records_pmapSetperm r va size perm σ.mem hd).2.1 (hi ▸ hn)
  obtain ⟨_, s', hret, G', hl⟩ := hmeets.returns hn
  rw [hret.state]
  have hc : σ.Changes b r (Inside va (va + size) fun _ => Granted b perm) s' :=
    (hG.changes_range hr ha.user (hl.acts trivial)).mono fun a hu hin => hin.mono fun _ _ hpm => ?_
  · refine ⟨hret.val, hc, ?_⟩
    constructor
    · intro hset hread a h₁ h₂ hz
      obtain ⟨hperm, hpres⟩ := hset a h₁ h₂
      have hgr := (hc.self a (ha.end_le h₂ h₁)).here h₁ h₂
      have hskip : (viewAt b s' a nptLvls r).leaf = (viewAt b σ.mem a nptLvls r).leaf :=
        ((hG.changes_range hr ha.user (hl.acts trivial)).self a (ha.end_le h₂ h₁)).here h₁ h₂ |>.skip hz (hnone.2 hread)
      rw [← hskip, hperm]
      refine ⟨if_pos hread, ?_⟩
      by_contra hP
      exact hpres.1 (by simpa using hP) hread
    · intro hzero a h₁ h₂
      have hgr := (hc.self a (ha.end_le h₂ h₁)).here h₁ h₂
      rcases hgr.leaf with hleaf | ⟨hz, hread, hleaf⟩
      · exact hleaf
      · obtain ⟨hperm, hpres⟩ := hzero hread a h₁ h₂ hz
        rw [hleaf, hperm, hpres]
        refine ⟨(if_pos hread).symm, ?_⟩
        simp [hread]
  · by_cases hz : (viewAt b σ.mem a nptLvls r).leaf.frame = b.zero ∧ (permMasks perm).2 = 0
    · have hleaf := hpm.skip hz.1 hz.2
      refine ⟨hpm.page, congrArg Pte.frame hleaf, fun hw => ⟨(hpm.wr hw).1, hwrite (hpm.wr hw).2⟩, fun hread => ?_,
        .inr ⟨hz.1, hnone.1 hz.2, hleaf⟩⟩
      exact absurd (hnone.1 hz.2) hread
    · have hleaf := hpm.set hz
      have hmask := masked_perm (viewAt b σ.mem a nptLvls r).leaf hp
      refine ⟨hpm.page, ?_, fun hw => ⟨(hpm.wr hw).1, hwrite (hpm.wr hw).2⟩, fun hread => hpm.up fun h0 => ?_,
        .inl ?_⟩
      · rw [hleaf]
        rfl
      · exact hread (hnone.1 h0)
      · rw [hleaf]
        exact hmask

/-- The 2MB of a page table lose their permissions, and a page in them stays. -/
theorem setperm_changes_sample : ∃ σ, Reach sampleBoot (fun _ => True) defects (freshMem samplePages) σ ∧
    (pmapSetperm sampleBoot 0x1000 0x40000000 0x200000 0 σ.mem).val = .ok () ∧
    σ.Changes sampleBoot 0x1000 (Inside 0x40000000 (0x40000000 + 0x200000) fun _ => Granted sampleBoot 0)
      (pmapSetperm sampleBoot 0x1000 0x40000000 0x200000 0 σ.mem).state := by
  obtain ⟨σ, hσ, hP⟩ := exists_reach sampleBoot (fun _ => True) defects (freshMem samplePages)
    [.newpmap, .alloc, .insert 0x1000 0x1002 0x40001000 (sysRW ||| pteU ||| pteA)]
    (fun σ => decide (σ.IsRoot 0x1000 ∧ (pmapSetperm sampleBoot 0x1000 0x40000000 0x200000 0 σ.mem).state.dry = false))
    (fun _ _ => trivial) (by decide +kernel)
  obtain ⟨hr, hd⟩ := of_decide_eq_true hP
  obtain ⟨h₁, h₂, -⟩ := setperm_changes sample_booted hσ hr (by decide) (by decide) hd
  exact ⟨σ, hσ, h₁, h₂⟩

/-! ## New pages -/

/-- The first address of the page of an address, and the first one of the next. -/
def pageStart (va : ℕ) : ℕ := va / pdSize 0 * pdSize 0
def pageEnd (va : ℕ) : ℕ := (va / pdSize 0 + 1) * pdSize 0

theorem pageStart_le (va : ℕ) : pageStart va ≤ va := block_le 0 va

theorem lt_pageEnd (va : ℕ) : va < pageEnd va := next_lt 0 va

/-- What a view finds is a page of user memory, or nothing. -/
theorem Sound.leaf_kind (hS : Sound b G s) (hl : (G.kind t).level = some l) (hm : (G.kind t).maps va)
    (hz : (viewAt b s va l t).leaf.frame ≠ b.zero) : G.kind (viewAt b s va l t).leaf.frame = .data := by
  induction l generalizing t with
  | zero => exact data_of_slot hS.toGood hl (hS.slot_maps hl hm hz)
  | succ l ih =>
    by_cases hz' : (s.entry t (pdx (l + 1) va)).frame = b.zero
    · rw [viewAt_none hz'] at hz
      exact absurd rfl hz
    · rw [viewAt_some hz'] at hz ⊢
      obtain ⟨hl', hm'⟩ := kid_of_slot hS.toGood hl hm (hS.slot_maps hl hm hz')
      exact ih hl' hm' hz

/-- A page that `pmap_insert` may be called with: one the kernel has taken, or one that is in a page map. -/
def Maps.Insertable (b : Boot) (σ : Maps) (pi : Frame) : Prop :=
  pi ∈ σ.pages ∨ pi ≠ b.zero ∧ ∃ r a, σ.IsRoot r ∧ UserVa a ∧ (viewAt b σ.mem a nptLvls r).leaf.frame = pi

/-- What `pmap_insert` leaves, when the walk to the page table has left `s₁`: the page is at the address, and
the one that was there has one reference less. -/
structure Maps.Mapped (b : Boot) (σ : Maps) (r pi : Frame) (va : ℕ) (perm : BitVec 12) (s₁ s' : Mem) : Prop where
  changes : σ.Changes b r (Inside (pageStart va) (pageEnd va) (MapsTo (insertedPte pi perm) (σ.mem.page pi))) s'
  counts : ∀ g, s'.refcount g = s₁.refcount g + (if g = pi then 1 else 0) -
    if g = (viewAt b σ.mem va nptLvls r).leaf.frame ∧ g ≠ b.zero then 1 else 0
  freed : s'.freelist = if (viewAt b σ.mem va nptLvls r).leaf.frame ≠ b.zero ∧
    s'.refcount (viewAt b σ.mem va nptLvls r).leaf.frame = 0 then some (viewAt b σ.mem va nptLvls r).leaf.frame
    else s₁.freelist

/-- The counts after an entry has been replaced. -/
theorem remapped_counts {e : Pte} {i : ℕ} (hi : i < 512) (hf : (s.entry t i).frame = f) (g : Frame) :
    ((s.setRef pi (s.refcount pi + 1)).remapped b t i e).refcount g = s.refcount g + (if g = pi then 1 else 0) -
      if g = f ∧ g ≠ b.zero then 1 else 0 := by
  have hf' : ((s.setRef pi (s.refcount pi + 1)).entry t i).frame = f := hf
  rw [Mem.remapped, setEntry_refcount hi, hf']
  have hup : (s.setRef pi (s.refcount pi + 1)).refcount g = s.refcount g + if g = pi then 1 else 0 := by
    simp only [Mem.setRef, Function.update_apply]
    split
    · rename_i h
      rw [h]
    · rw [Int.add_zero]
  by_cases hg : g = f
  · subst hg
    by_cases hz : g = b.zero
    · rw [Mem.release, if_pos hz, hup]
      simp [hz]
    · rw [Mem.release, if_neg hz, unref_refcount, Function.update_self, hup]
      simp [hz]
  · rw [release_refcount hg, hup]
    simp [hg]

theorem remapped_freelist {e : Pte} {i : ℕ} (hi : i < 512) (hf : (s.entry t i).frame = f) :
    (s.remapped b t i e).freelist =
      if f ≠ b.zero ∧ (s.remapped b t i e).refcount f = 0 then some f else s.freelist := by
  have hlist : (s.remapped b t i e).freelist = (s.release b f).freelist := by
    rw [Mem.remapped, hf, setEntry_page hi]
    rfl
  rw [hlist, Mem.remapped, setEntry_refcount hi, hf]
  unfold Mem.release
  by_cases hz : f = b.zero
  · rw [if_pos hz, if_neg (fun h => h.1 hz)]
  · rw [if_neg hz, unref_refcount, Function.update_self]
    unfold Mem.unref
    by_cases hone : s.refcount f = 1
    · rw [if_pos hone, if_pos ⟨hz, by omega⟩]
      rfl
    · rw [if_neg hone, if_neg (fun h => hone (by omega))]
      rfl

/-- **`pmap_insert`** puts a page at an address, or finds no page for a table and leaves all as it was. -/
theorem insert_changes (hb : Booted b s₀) (h : Reach b (fun _ => True) defects s₀ σ) (hr : σ.IsRoot r)
    (hu : UserVa va) (hpi : σ.Insertable b pi) :
    ((pmapInsert b r pi va perm σ.mem).val = .ok none ∧ (pmapInsert b r pi va perm σ.mem).state.dry = true ∧
      (∀ r' a, σ.IsRoot r' → UserVa a → View.Keeps (viewAt b σ.mem a nptLvls r')
        (viewAt b (pmapInsert b r pi va perm σ.mem).state a nptLvls r')) ∧
      (pmapInsert b r pi va perm σ.mem).state.refcount pi = σ.mem.refcount pi) ∨
    ∃ t, (pmapInsert b r pi va perm σ.mem).val = .ok (some (t, pdx 0 va)) ∧
      σ.Mapped b r pi va perm (pmapWalk b r va true σ.mem).state (pmapInsert b r pi va perm σ.mem).state := by
  obtain ⟨G, hG⟩ := h.inv hb fun c _ => c.defects_subset
  have hk : G.kind pi = .held ∧ pi ∈ b.avail ∨ G.kind pi = .data := by
    rcases hpi with hp | ⟨hz, r', a, hr', ha, rfl⟩
    · exact .inl ⟨(hG.held pi).2 (.inr hp), hG.pages pi hp⟩
    · exact .inr (hG.toSound.leaf_kind (hG.level hr') (hG.maps hr' ha) hz)
  have hmeets : Meets ∅ (pmapInsert b r pi va perm) σ.mem _ := pmapInsert_ends hG.toSound (hG.is_root hr) hu hk
  obtain ⟨x, s', hret, hx⟩ := hmeets.returns fun _ _ => id
  rw [hret.state, hret.val]
  rcases hx with ⟨rfl, G', hw⟩ | ⟨t, G₁, s₁, rfl, hi⟩
  · refine .inl ⟨rfl, (hw.fails rfl).1, fun r' a hr' ha => hG.unchanged hw.tame hr' ha, (hw.fails rfl).2 pi ?_⟩
    rcases hk with hk | hk
    · exact .inr hk.1
    · exact .inl hk
  · obtain ⟨-, -, -, hpath⟩ := hi.walked.leaf t _ rfl
    have hold : (s₁.entry t (pdx 0 va)).frame = (viewAt b σ.mem va nptLvls r).leaf.frame := by
      rw [← (hG.unchanged hi.walked.tame hr hu).leaf, hpath.viewAt]
      rfl
    have hidx := pdx_lt 0 va
    rw [hi.returns.state]
    refine .inr ⟨t, rfl, hG.changes_range hr hu hi.mapping.acts, fun g => ?_, ?_⟩
    · rw [hi.state]
      exact remapped_counts hidx hold g
    · have hfree := remapped_freelist (b := b) (s := s₁.setRef pi (s₁.refcount pi + 1)) (e := insertedPte pi perm)
        hidx hold
      rw [← hi.state] at hfree
      exact hfree

/-- A page is inserted at an address where another one is, which is free then. -/
theorem insert_changes_sample : ∃ σ, Reach sampleBoot (fun _ => True) defects (freshMem samplePages) σ ∧
    ∃ t, (pmapInsert sampleBoot 0x1000 0x1005 0x40001000 sysRead σ.mem).val = .ok (some (t, pdx 0 0x40001000)) ∧
      σ.Mapped sampleBoot 0x1000 0x1005 0x40001000 sysRead (pmapWalk sampleBoot 0x1000 0x40001000 true σ.mem).state
        (pmapInsert sampleBoot 0x1000 0x1005 0x40001000 sysRead σ.mem).state := by
  obtain ⟨σ, hσ, hP⟩ := exists_reach sampleBoot (fun _ => True) defects (freshMem samplePages)
    [.newpmap, .alloc, .insert 0x1000 0x1002 0x40001000 (sysRW ||| pteU ||| pteA), .alloc]
    (fun σ => decide (σ.IsRoot 0x1000 ∧ 0x1005 ∈ σ.pages ∧
      (pmapInsert sampleBoot 0x1000 0x1005 0x40001000 sysRead σ.mem).state.dry = false))
    (fun _ _ => trivial) (by decide +kernel)
  obtain ⟨hr, hpi, hd⟩ := of_decide_eq_true hP
  have hu : UserVa 0x40001000 := by decide
  rcases insert_changes sample_booted hσ hr hu (.inl hpi) with ⟨-, hdry, -⟩ | h
  · rw [hd] at hdry
    cases hdry
  · exact ⟨σ, hσ, h⟩

/-! ## Faults -/

/-- The entries on the way to a writeable address carry `PTE_W`. -/
theorem pathWrites_of_wr (h : (viewAt b s va l t).wr = true) : pathWrites s va l t = true := by
  induction l generalizing t with
  | zero => exact h
  | succ l ih =>
    have hW := viewAt_wr h
    by_cases hz : (s.entry t (pdx (l + 1) va)).frame = b.zero
    · rw [viewAt_none hz] at h
      cases h
    · rw [viewAt_some hz, View.under, Bool.and_eq_true] at h
      rw [pathWrites, hW, ih h.2, Bool.and_self]

/-- The addresses of a page have one view. -/
theorem viewAt_div (h : a / pdSize 0 = va / pdSize 0) : viewAt b s a l t = viewAt b s va l t := by
  have hdiv : ∀ m, a / pdSize m = va / pdSize m := by
    intro m
    obtain ⟨q, hq⟩ := pdSize_dvd (Nat.zero_le m)
    rw [hq, ← Nat.div_div_eq_div_mul, ← Nat.div_div_eq_div_mul, h]
  have hidx : ∀ m, pdx m a = pdx m va := fun m => by rw [pdx_eq, pdx_eq, hdiv]
  induction l generalizing t with
  | zero => simp only [viewAt, hidx]
  | succ l ih => simp only [viewAt, hidx, ih]

theorem div_of_page (h₁ : pageStart va ≤ a) (h₂ : a < pageEnd va) : a / pdSize 0 = va / pdSize 0 := block_of_lt h₁ h₂

/-- What a resolved fault leaves at the addresses of a page: the contents are the same, the process may write
them, and the entries on the way are all present. -/
structure Opened (v v' : View) : Prop where
  page : v'.page = v.page
  flags : v'.leaf.flags = ownedFlags &&& ~~~pteW
  wr : v'.wr = true
  up : v'.up = true

/-- **A page fault** that is a write to a page which may be written is resolved: the process has a page of its own
there, with the old contents. Another one changes nothing. -/
theorem fault_changes {write : Bool} (hb : Booted b s₀) (h : Reach b (fun _ => True) defects s₀ σ) (hr : σ.IsRoot r)
    (ht : translate σ.mem va write nptLvls r = none)
    (hd : (pmapPagefault b (n + 1) r va write σ.mem).state.dry = false)
    (hfar : Note.farCopy ∉ (pmapPagefault b (n + 1) r va write σ.mem).notes) :
    ((pmapPagefault b (n + 1) r va write σ.mem).val = .ok true ∧ Resolvable b σ.mem r va write ∧
      σ.Changes b r (Inside (pageStart va) (pageEnd va) fun _ => Opened)
        (pmapPagefault b (n + 1) r va write σ.mem).state ∧
      Maps.Owns b { σ with mem := (pmapPagefault b (n + 1) r va write σ.mem).state } r va) ∨
    ((pmapPagefault b (n + 1) r va write σ.mem).val = .ok false ∧ ¬Resolvable b σ.mem r va write ∧
      ∀ r' a, σ.IsRoot r' → UserVa a → View.Keeps (viewAt b σ.mem a nptLvls r')
        (viewAt b (pmapPagefault b (n + 1) r va write σ.mem).state a nptLvls r')) := by
  obtain ⟨G, hG⟩ := h.inv hb fun c _ => c.defects_subset
  have hnone : translate σ.mem va true nptLvls r = none := by
    cases write with
    | false => exact translate_write ht
    | true => exact ht
  have hends : Ends {.ignored, .farCopy} (pmapPagefault b (n + 1) r va write) σ.mem _ _ :=
    pmapPagefault_ends (.inl rfl) (.inr rfl) hG.toSound (hG.is_root hr) hnone
  have hn : ∀ n' ∈ (pmapPagefault b (n + 1) r va write σ.mem).notes, n' ∉ ({.ignored, .farCopy} : Set Note) := by
    rintro n' hn' (rfl | rfl)
    · exact (records_pmapPagefault _ r va write σ.mem hd).2.1 hn'
    · exact hfar hn'
  have hout := hends.out hn
  cases hv : (pmapPagefault b (n + 1) r va write σ.mem).val with
  | error e =>
    rw [hv] at hout
    obtain ⟨-, hdry, -⟩ := hout
    rw [hd] at hdry
    cases hdry
  | ok x =>
    rw [hv] at hout
    rcases hout with ⟨rfl, hnot, -, G', hS, hu⟩ | ⟨rfl, hres, e, G', hdone⟩
    · exact .inr ⟨rfl, hnot, fun r' a hr' ha => hG.unchanged hu hr' ha⟩
    · have hu : UserVa va := hres.user
      have hW : e.isW = true := by
        rw [Pte.isW, hdone.flags]
        decide
      have hc : σ.Changes b r (Inside (pageStart va) (pageEnd va) (MapsTo e (viewAt b σ.mem va nptLvls r).page))
          (pmapPagefault b (n + 1) r va write σ.mem).state := hG.changes_range hr hu hdone.mapping.acts
      refine .inl ⟨rfl, hres, hc.mono fun a ha hin => hin.mono fun h₁ h₂ hmap => ?_, ?_⟩
      · rw [hmap, viewAt_div (div_of_page h₁ h₂)]
        refine ⟨rfl, ?_, hW, rfl⟩
        rw [← hdone.flags]
        rfl
      · have hI : Maps.Inv b s₀ { σ with mem := (pmapPagefault b (n + 1) r va write σ.mem).state } G' := hG.resolved hdone
        refine hI.owns hr hu (pathWrites_of_wr (b := b) ?_)
        have hmap := (hc.self va hu).here (pageStart_le va) (lt_pageEnd va)
        rw [hmap]
        exact hW

/-- A page that two page maps share is written by one of them. -/
theorem fault_changes_sample : ∃ σ, Reach sampleBoot (fun _ => True) defects (freshMem samplePages) σ ∧
    σ.Changes sampleBoot 0x1000 (Inside (pageStart 0x40001234) (pageEnd 0x40001234) fun _ => Opened)
      (pmapPagefault sampleBoot 1 0x1000 0x40001234 true σ.mem).state := by
  obtain ⟨σ, hσ, hP⟩ := exists_reach sampleBoot (fun _ => True) defects (freshMem samplePages)
    [.newpmap, .newpmap, .alloc, .insert 0x1000 0x1004 0x40001000 (sysRW ||| pteU ||| pteA),
      .copy 0x1000 0x40001000 0x1002 0x40001000 4096, .alloc]
    (fun σ => decide (σ.IsRoot 0x1000 ∧ translate σ.mem 0x40001234 true nptLvls 0x1000 = none ∧
      (pmapPagefault sampleBoot 1 0x1000 0x40001234 true σ.mem).state.dry = false ∧
      Note.farCopy ∉ (pmapPagefault sampleBoot 1 0x1000 0x40001234 true σ.mem).notes ∧
      (pmapPagefault sampleBoot 1 0x1000 0x40001234 true σ.mem).val = .ok true))
    (fun _ _ => trivial) (by decide +kernel)
  obtain ⟨hr, ht, hd, hfar, hv⟩ := of_decide_eq_true hP
  rcases fault_changes sample_booted hσ hr ht hd hfar with ⟨-, -, hc, -⟩ | ⟨hf, -⟩
  · exact ⟨σ, hσ, hc⟩
  · rw [hv] at hf
    cases hf

/-! ## Copies -/

section

variable {N : Set Note}

/-- **`pmap_copy`** to another page map. -/
theorem pmapCopy_takes (hN : CopyNotes N) (hS : Sound b G s) (hsr : G.kind sr = .root) (hdr : G.kind dr = .root)
    (hne : sr ≠ dr) (hreg : Region sva dva size) :
    Ends N (pmapCopy b sr sva dr dva size) s (fun _ s' => ∃ G', Left b 3 dr True
      (Ranged 3 dva dva (dva + size) fun a => Taken b (sourceView b s 3 sr sva dva a)) G s G' s') fun _ _ => True := by
  have hsl : (G.kind sr).level = some 3 := by rw [hsr]; rfl
  have hdl : (G.kind dr).level = some 3 := by rw [hdr]; rfl
  unfold pmapCopy
  refine regionAsserts_ends hreg ?_
  rcases Nat.eq_zero_or_pos size with rfl | hpos
  · have h3 : pmapCopyLevel b nptLvls = copyLoop b (pmapCopyLevel b 2) 3 := rfl
    rw [h3]
    unfold copyLoop
    rw [Nat.add_zero, Nat.sub_self]
    unfold whileM
    rw [if_neg (by simp)]
    exact ends_bind (ends_pure.2 (ends_pure.2 ⟨G, hS.left_refl fun _ _ => Ranged.empty⟩))
  · have hsub : sva + size - sva = size := Nat.add_sub_cancel_left _ _
    have h := pmapCopyLevel_takes hN 3 G s sr dr sva dva (sva + size) hS hsl hdl hne ?_ ?_
    · rw [hsub] at h
      exact h
    · rw [hsr]
      exact hreg.source.span hpos
    · rw [hdr, hsub]
      exact hreg.dest_area.span hpos

end

/-- The notes that a copy into another page map does not make if it does not go down into a table that others use, and
does not go on without a table. -/
def copyDefects : List Note := [.ignored, .sharedDest, .staleW]

/-- **`pmap_copy`** gives the destination the pages of the source with their flags, and nothing else changes: not the
source, not the rest of the destination, and no other page map. If there is no page for a table it stops, and
still no other page map has changed. -/
theorem copy_changes (hb : Booted b s₀) (h : Reach b (fun _ => True) defects s₀ σ) (hsr : σ.IsRoot sr) (hdr : σ.IsRoot dr)
    (hne : sr ≠ dr) (hreg : Region sva dva size)
    (hn : ∀ n ∈ copyDefects, n ∉ (pmapCopy b sr sva dr dva size σ.mem).notes) :
    ((pmapCopy b sr sva dr dva size σ.mem).val = .ok () ∧
      σ.Changes b dr (Inside dva (dva + size) fun a => Taken b (viewAt b σ.mem (sva + (a - dva)) nptLvls sr))
        (pmapCopy b sr sva dr dva size σ.mem).state) ∨
    ((pmapCopy b sr sva dr dva size σ.mem).val = .error .assert ∧
      (pmapCopy b sr sva dr dva size σ.mem).state.dry = true ∧
      σ.Changes b dr (fun _ _ _ => True) (pmapCopy b sr sva dr dva size σ.mem).state) := by
  obtain ⟨G, hG⟩ := h.inv hb fun c _ => c.defects_subset
  have hN : CopyNotes {n | n ∈ copyDefects} := by
    constructor <;> simp [copyDefects]
  have hends := (pmapCopy_takes hN hG.toSound (hG.is_root hsr) (hG.is_root hdr) hne hreg).and
    (pmapCopy_ends (C := True) (fun _ => ⟨hN.ignored, hN.dest, hN.stale⟩) hG.toSound (hG.is_root hsr) (hG.is_root hdr)
      hreg)
  have hout := hends.out fun n hn' hmem => hn n hmem hn'
  cases hv : (pmapCopy b sr sva dr dva size σ.mem).val with
  | error e =>
    rw [hv] at hout
    obtain ⟨-, ⟨rfl, G', -, ha⟩, hdry⟩ := hout
    exact .inr ⟨rfl, hdry, hG.changes hdr (ha trivial).any⟩
  | ok u =>
    rw [hv] at hout
    obtain ⟨⟨G', hl⟩, -⟩ := hout
    exact .inl ⟨rfl, hG.changes_range hdr hreg.dest (hl.acts trivial)⟩

/-- A page is copied from the middle of one 2MB to the end of another. -/
theorem copy_changes_sample : ∃ σ, Reach sampleBoot (fun _ => True) defects (freshMem samplePages) σ ∧
    σ.Changes sampleBoot 0x1002 (Inside 0x401ff000 (0x401ff000 + 0x2000) fun a =>
      Taken sampleBoot (viewAt sampleBoot σ.mem (0x40001000 + (a - 0x401ff000)) nptLvls 0x1000))
      (pmapCopy sampleBoot 0x1000 0x40001000 0x1002 0x401ff000 0x2000 σ.mem).state := by
  obtain ⟨σ, hσ, hP⟩ := exists_reach sampleBoot (fun _ => True) defects (freshMem samplePages)
    [.newpmap, .newpmap, .alloc, .insert 0x1000 0x1004 0x40001000 (sysRW ||| pteU ||| pteA)]
    (fun σ => decide (σ.IsRoot 0x1000 ∧ σ.IsRoot 0x1002 ∧
      (∀ n ∈ copyDefects, n ∉ (pmapCopy sampleBoot 0x1000 0x40001000 0x1002 0x401ff000 0x2000 σ.mem).notes) ∧
      (pmapCopy sampleBoot 0x1000 0x40001000 0x1002 0x401ff000 0x2000 σ.mem).state.dry = false))
    (fun _ _ => trivial) (by decide +kernel)
  obtain ⟨hsr, hdr, hn, hd⟩ := of_decide_eq_true hP
  rcases copy_changes sample_booted hσ hsr hdr (by decide) (by decide) hn with ⟨-, hc⟩ | ⟨-, hdry, -⟩
  · exact ⟨σ, hσ, hc⟩
  · rw [hd] at hdry
    cases hdry

end Determinator
