import Determinator.Pmap.Calls

/-!
# Reference counts

Between calls the count of a page is the number of the entries of user memory that lead to it, and one
more for a page map, and the free list holds the pages that have no references. This is read off the
invariant: the tables that the ghost state knows are those that can be reached from a page map.
-/

namespace Determinator

open PanicM

variable {b : Boot} {G : Ghost} {s₀ : Mem} {σ : Maps} {k : Kind} {t f : Frame} {l : ℕ}

/-- A table of the page maps, and what its place makes of it. -/
inductive Maps.Table (b : Boot) (σ : Maps) : Kind → Frame → Prop
  | root {r : Frame} : σ.IsRoot r → Table b σ .root r
  | lower {k : Kind} {t : Frame} {i l : ℕ} : Table b σ k t → k.user i = true → (k.kid i).level = some l →
      (σ.mem.entry t i).frame ≠ b.zero → Table b σ (k.kid i) (σ.mem.entry t i).frame

/-- The entries for user memory that lead to a page. -/
def Maps.entriesTo (b : Boot) (σ : Maps) (f : Frame) : Set (Frame × ℕ) :=
  {x | ∃ k, σ.Table b k x.1 ∧ k.user x.2 = true ∧ (σ.mem.entry x.1 x.2).frame = f}

/-- The call is no merge. -/
def PmapCall.NoMerge : PmapCall → Prop
  | merge .. => False
  | _ => True

instance : DecidablePred PmapCall.NoMerge := fun c => by
  cases c <;> (unfold PmapCall.NoMerge; infer_instance)

theorem PmapCall.NoMerge.defects {c : PmapCall} (h : c.NoMerge) : ∀ n ∈ c.defects, n = .ignored ∨ n = .farCopy := by
  cases c <;> simp_all [PmapCall.defects, PmapCall.NoMerge]

/-- Without merges, the two things that can go wrong are a page map that runs out of memory and a fault that
copies through the user area. -/
theorem Reach.inv_noMerge (hb : Booted b s₀) (h : Reach b PmapCall.NoMerge [.farCopy] s₀ σ)
    (hd : σ.mem.dry = false) : ∃ G, Maps.Inv b s₀ σ G := by
  refine (h.enough hd).inv hb fun c hc n hn => ?_
  rcases hc.defects n hn with rfl | rfl
  · exact List.mem_cons_self
  · exact List.mem_cons_of_mem _ List.mem_cons_self

namespace Maps.Inv

/-! ## Tables -/

theorem kind_of_table (h : Maps.Inv b s₀ σ G) (ht : σ.Table b k t) : G.kind t = k := by
  induction ht with
  | root hr => exact h.is_root hr
  | @lower k t i l ht hu hl hz ih =>
    have hs := slot_of_user (G := G) (s := σ.mem) (b := b) (t := t) (i := i) (by rw [ih]; exact hu)
      (by rw [h.off]; nofun) hz
    rw [h.typed hs, ih]

/-- Every table is a table of a page map. -/
theorem table_of_kind (hb : Booted b s₀) (h : Maps.Inv b s₀ σ G) (hl : (G.kind t).level = some l) :
    σ.Table b (G.kind t) t := by
  -- from the roots downwards
  obtain ⟨n, hn⟩ : ∃ n, l + n = 3 := ⟨3 - l, by have := h.level_le hl; omega⟩
  induction n generalizing l t with
  | zero =>
    obtain rfl : l = 3 := hn
    have hr : G.kind t = .root := by
      cases hk : G.kind t with
      | root => rfl
      | table m =>
        have := h.levels t m hk
        rw [hk] at hl
        obtain rfl : m = 3 := Option.some.inj hl
        omega
      | low =>
        rw [hk] at hl
        cases hl
      | _ => rw [hk] at hl; cases hl
    rw [hr]
    exact .root ((h.root t).1 hr)
  | succ n ih =>
    have hr : G.kind t ≠ .root := by
      intro hr
      rw [hr] at hl
      obtain rfl : 3 = l := Option.some.inj hl
      omega
    have hu : (G.kind t).Used := by
      cases hk : G.kind t <;> first | trivial | (rw [hk] at hl; cases hl)
    obtain ⟨u, i, hs⟩ := h.exists_slot hu hr (h.page_extra hb (h.used_avail hu))
    obtain ⟨hui, -, hz, hf⟩ := slot_eq_some.1 hs
    have hk := h.typed hs
    have hlu : (G.kind u).level = some (l + 1) := Kind.level_of_kid hui (by rw [← hk]; exact hl)
    have := (ih hlu (by omega)).lower hui (by rw [← hk]; exact hl) hz
    rwa [hf, ← hk] at this

theorem table_iff (hb : Booted b s₀) (h : Maps.Inv b s₀ σ G) :
    σ.Table b k t ↔ G.kind t = k ∧ k.level ≠ none := by
  constructor
  · intro ht
    refine ⟨h.kind_of_table ht, ?_⟩
    cases ht with
    | root _ => nofun
    | lower _ _ hl _ => rw [hl]; nofun
  · rintro ⟨rfl, hl⟩
    obtain ⟨l, hl⟩ := Option.ne_none_iff_exists'.1 hl
    exact h.table_of_kind hb hl

/-! ## Counts -/

theorem entriesTo_eq (hb : Booted b s₀) (h : Maps.Inv b s₀ σ G) (hf : f ≠ b.zero) :
    σ.entriesTo b f = {x | x.2 < 512 ∧ slot b G σ.mem x.1 x.2 = some f} := by
  ext ⟨t, i⟩
  constructor
  · rintro ⟨k, ht, hu, rfl⟩
    rw [← h.kind_of_table ht] at hu
    exact ⟨Kind.user_lt hu, slot_of_user hu (by rw [h.off]; nofun) hf⟩
  · rintro ⟨-, hs⟩
    obtain ⟨hu, -, -, rfl⟩ := slot_eq_some.1 hs
    obtain ⟨l, hl⟩ := Kind.level_of_user hu
    exact ⟨_, h.table_of_kind hb hl, hu, rfl⟩

theorem refcount_eq (hb : Booted b s₀) (h : Maps.Inv b s₀ σ G) (hf : f ∈ b.avail) :
    σ.mem.refcount f = (σ.entriesTo b f).ncard + if σ.IsRoot f then 1 else 0 := by
  have hz : f ≠ b.zero := by
    rintro rfl
    exact b.zero_avail hf
  have hr : rootRef (G.kind f) = if σ.IsRoot f then 1 else 0 := by
    unfold rootRef
    simp only [h.root f]
  rw [h.count f, refCount_eq_ncard, h.entriesTo_eq hb hz, hr, h.page_extra hb hf, add_zero]

/-- The free pages are those without references, less the ones that the kernel has taken. -/
theorem free_iff (hb : Booted b s₀) (h : Maps.Inv b s₀ σ G) :
    G.kind f = .free ↔ f ∈ b.avail ∧ σ.mem.refcount f = 0 ∧ f ∉ σ.pages := by
  constructor
  · intro hk
    have hu : ¬(G.kind f).Used := by
      rw [hk]
      exact id
    refine ⟨h.avail f (by rw [hk]; nofun), ?_, fun hp => ?_⟩
    · rw [h.refcount_unused hu, h.extra_free f hk]
    · rw [(h.held f).2 (.inr hp)] at hk
      cases hk
  · rintro ⟨hv, hr, hp⟩
    have hx := h.page_extra hb hv
    by_contra hk
    have hu : (G.kind f).Used := by
      have hheld : G.kind f ≠ .held := fun e => ((h.held f).1 e).elim (fun hn => hn hv) hp
      cases hk' : G.kind f <;> trivial
    by_cases hroot : G.kind f = .root
    · have hc := h.count f
      have := refCount_nonneg (n := 512) (g := slot b G σ.mem) (f := f)
      rw [hroot, rootRef, if_pos rfl] at hc
      omega
    · have := h.alive f hu hroot
      omega

end Maps.Inv

/-! ## Runs without merges -/

/-- The count of every page that can be allocated is the number of its references, and those without
references are on the free list once, if the kernel does not hold them. -/
structure Maps.CountsRight (b : Boot) (σ : Maps) : Prop where
  count : ∀ f ∈ b.avail, σ.mem.refcount f = (σ.entriesTo b f).ncard + if σ.IsRoot f then 1 else 0
  free : ∃ l, Chain σ.mem.freeNext σ.mem.freelist l ∧ l.Nodup ∧
    ∀ f, f ∈ l ↔ f ∈ b.avail ∧ σ.mem.refcount f = 0 ∧ f ∉ σ.pages

theorem Maps.Inv.countsRight (hb : Booted b s₀) (h : Maps.Inv b s₀ σ G) : σ.CountsRight b := by
  obtain ⟨l, hl, hn, hm⟩ := h.freeList
  exact ⟨fun f hf => h.refcount_eq hb hf, l, hl, hn, fun f => (hm f).trans (h.free_iff hb)⟩

/-- **Reference counts** are right in every state that the kernel comes to without merges, when no page is
copied through the user area and memory suffices; and no call stops at an assertion about them. -/
theorem counts_right (hb : Booted b s₀) (h : Reach b PmapCall.NoMerge [.farCopy] s₀ σ)
    (hd : σ.mem.dry = false) : σ.CountsRight b ∧ ∀ c : PmapCall, c.NoMerge → c.Allowed σ → ¬c.MayStop →
      .farCopy ∉ (c.exec b σ).notes → (c.exec b σ).state.mem.dry = false → (c.exec b σ).val = .ok () := by
  obtain ⟨G, hG⟩ := h.inv_noMerge hb hd
  refine ⟨hG.countsRight hb, fun c hc ha hm hfar hd' => PmapCall.exec_returns hb hG ha (fun n hn hig => ?_) hm hd'⟩
  rcases hc.defects n hn with rfl | rfl
  · exact absurd rfl hig
  · exact hfar

/-- A page is shared, one of the two page maps changes it, and the other is removed. -/
theorem counts_right_sample : ∃ σ, Reach sampleBoot PmapCall.NoMerge [.farCopy] (freshMem samplePages) σ ∧
    σ.IsRoot 0x1002 ∧ σ.CountsRight sampleBoot := by
  obtain ⟨σ, hσ, hP⟩ := exists_reach sampleBoot PmapCall.NoMerge [.farCopy] (freshMem samplePages)
    [.newpmap, .newpmap, .alloc, .insert 0x1000 0x1004 0x40001000 (sysRW ||| pteU ||| pteA),
      .copy 0x1000 0x40001000 0x1002 0x40001000 4096, .setperm 0x1002 0x40001000 4096 sysRead,
      .remove 0x1000 0x40001000 4096]
    (fun σ => decide (σ.mem.dry = false ∧ σ.IsRoot 0x1002)) (by decide) (by decide +kernel)
  obtain ⟨hd, hr⟩ := of_decide_eq_true hP
  exact ⟨σ, hσ, hr, (counts_right sample_booted hσ hd).1⟩

theorem Maps.entriesTo_finite (b : Boot) (σ : Maps) (f : Frame) : (σ.entriesTo b f).Finite := by
  refine Set.Finite.subset ((Set.finite_univ (α := Frame)).prod (Set.finite_lt_nat 512)) ?_
  rintro ⟨t, i⟩ ⟨k, -, hu, -⟩
  exact ⟨trivial, Kind.user_lt hu⟩

/-- A page that has been copied is written. The page for the new contents is above 1GB, so that the copy
goes to an address of the process, where there is a page that two page maps share. -/
theorem counts_wrong : ∃ σ, Reach sampleBoot PmapCall.NoMerge [] (freshMem samplePages) σ ∧
    σ.mem.dry = false ∧ ¬σ.CountsRight sampleBoot := by
  obtain ⟨σ, hσ, hP⟩ := exists_reach sampleBoot PmapCall.NoMerge [] (freshMem samplePages)
    [.newpmap, .newpmap, .alloc, .insert 0x1000 0x1004 0x40001000 (sysRW ||| pteU ||| pteA),
      .copy 0x1000 0x40001000 0x1002 0x40001000 4096, .fault 0x1000 0x40001000 true 3]
    (fun σ => decide (σ.mem.dry = false ∧ σ.mem.refcount 0x1004 = 0 ∧ σ.IsRoot 0x1002 ∧
      (σ.mem.entry 0x1002 0).frame = 0x1003 ∧ (σ.mem.entry 0x1003 1).frame = 0x1007 ∧
      (σ.mem.entry 0x1007 0).frame = 0x1008 ∧ (σ.mem.entry 0x1008 1).frame = 0x1004)) (by decide) (by decide +kernel)
  obtain ⟨hd, hzero, hr, h₁, h₂, h₃, h₄⟩ := of_decide_eq_true hP
  refine ⟨σ, hσ, hd, fun hright => ?_⟩
  have ht₁ : σ.Table sampleBoot .low 0x1003 := h₁ ▸ (Maps.Table.root hr).lower (l := 2) (i := 0) rfl rfl (by rw [h₁]; decide)
  have ht₂ : σ.Table sampleBoot (.table 1) 0x1007 := h₂ ▸ ht₁.lower (l := 1) (i := 1) rfl rfl (by rw [h₂]; decide)
  have ht₃ : σ.Table sampleBoot (.table 0) 0x1008 := h₃ ▸ ht₂.lower (l := 0) (i := 0) rfl rfl (by rw [h₃]; decide)
  have hmem : ((0x1008 : Frame), 1) ∈ σ.entriesTo sampleBoot 0x1004 := ⟨_, ht₃, rfl, h₄⟩
  have hpos := (Set.ncard_pos (σ.entriesTo_finite sampleBoot 0x1004)).2 ⟨_, hmem⟩
  have hcount := hright.count 0x1004 (show (0x1004 : Frame) ∈ samplePages by decide)
  rw [hzero] at hcount
  split at hcount <;> omega

/-! ## The zero page -/

/-- The zero page is zero, its count is that of the memory `m`, and it is not free. -/
structure Maps.ZeroKept (b : Boot) (m : Mem) (σ : Maps) : Prop where
  page : σ.mem.page b.zero = Page.zeros
  refcount : σ.mem.refcount b.zero = m.refcount b.zero
  notFree : ∃ l, Chain σ.mem.freeNext σ.mem.freelist l ∧ b.zero ∉ l

/-- **The zero page** stays as it is in every run in which none of the calls comes by a defect. -/
theorem zero_kept (hb : Booted b s₀) (h : Reach b (fun _ => True) defects s₀ σ) : σ.ZeroKept b s₀ := by
  obtain ⟨G, hG⟩ := h.inv hb fun c _ => c.defects_subset
  have hu : ¬(G.kind b.zero).Used := by
    rw [hG.zero]
    exact id
  obtain ⟨l, hl, -, hm⟩ := hG.freeList
  refine ⟨hG.zeros, ?_, l, hl, fun hmem => ?_⟩
  · rw [hG.refcount_unused hu, hG.refs]
  · have hfree := (hm _).1 hmem
    rw [hG.zero] at hfree
    cases hfree

/-- A page is merged that the destination does not have. -/
theorem zero_kept_sample : ∃ σ, Reach sampleBoot (fun _ => True) defects (freshMem samplePages) σ ∧
    σ.IsRoot 0x1004 ∧ σ.ZeroKept sampleBoot (freshMem samplePages) := by
  obtain ⟨σ, hσ, hP⟩ := exists_reach sampleBoot (fun _ => True) defects (freshMem samplePages)
    [.newpmap, .newpmap, .newpmap, .alloc,
      .insert 0x1002 0x1006 0x40001000 (sysRW ||| pteU ||| pteA),
      .merge 0x1000 0x1002 0x40000000 0x1004 0x40000000 (2 ^ 39 - 0x40000000)]
    (fun σ => decide (σ.IsRoot 0x1004)) (fun _ _ => trivial) (by decide +kernel)
  exact ⟨σ, hσ, of_decide_eq_true hP, zero_kept sample_booted hσ⟩

/-- The reference has a page where the source and the destination have none: `pmap_mergepage` gives up a
reference to the zero page. -/
theorem zero_freed : ∃ σ, Reach sampleBoot (fun _ => True) [] (freshMem samplePages) σ ∧
    ¬σ.ZeroKept sampleBoot (freshMem samplePages) := by
  obtain ⟨σ, hσ, hP⟩ := exists_reach sampleBoot (fun _ => True) [] (freshMem samplePages)
    [.newpmap, .newpmap, .newpmap, .alloc, .insert 0x1000 0x1006 0x40000000 0,
      .walk 0x1002 0x40000000 true, .walk 0x1004 0x40000000 true,
      .merge 0x1000 0x1002 0x40000000 0x1004 0x40000000 4096]
    (fun σ => decide (σ.mem.refcount 0x300 = 0)) (fun _ _ => trivial) (by decide +kernel)
  refine ⟨σ, hσ, fun h => ?_⟩
  have hkept := h.refcount
  have hone : (freshMem samplePages).refcount 0x300 = 1 := by decide
  rw [show sampleBoot.zero = 0x300 from rfl, of_decide_eq_true hP, hone] at hkept
  cases hkept

end Determinator
