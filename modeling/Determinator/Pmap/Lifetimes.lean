import Determinator.Pmap.Counts
import Determinator.Pmap.Freepmap

/-!
# Lifetimes of page maps

Page maps are made, used and given up again (`Life`). Every one that is given up costs a page: the table of its first
512GB is not freed, as `pmap_freepmap` removes what is above 1GB only, and nothing points to it any more. All else is
given back. The rest of the run is one on a machine that has had the lost pages never (`Boot.lose`).
-/

namespace Determinator

open PanicM

variable {b : Boot} {G G' : Ghost} {s s' s₀ : Mem} {σ τ : Maps} {c : PmapCall} {f q r : Frame} {n : ℕ}
  {L L' : List Frame}

/-! ## Lost pages -/

/-- The machine without the pages of `L`. -/
def Boot.lose (b : Boot) (L : List Frame) : Boot :=
  { b with
    avail := {f ∈ b.avail | f ∉ L}
    avail_range := fun f hf => b.avail_range f hf.1
    zero_avail := fun h => b.zero_avail h.1 }

section

variable (b : Boot) (L : List Frame)

theorem lose_zero : (b.lose L).zero = b.zero := rfl

theorem lose_mergepage : pmapMergepage (b.lose L) = pmapMergepage b := rfl

theorem lose_walk : pmapWalkLevel (b.lose L) = pmapWalkLevel b := by
  funext n
  induction n with
  | zero => rfl
  | succ n ih =>
    funext t la w
    rw [pmapWalkLevel, pmapWalkLevel, ih]
    rfl

theorem lose_insert : pmapInsert (b.lose L) = pmapInsert b := by
  unfold pmapInsert pmapWalk
  rw [lose_walk]
  rfl

theorem lose_removeLevel (l : ℕ) : pmapRemoveLevel (b.lose L) l = pmapRemoveLevel b l := by
  induction l with
  | zero => rfl
  | succ l ih =>
    rw [pmapRemoveLevel, pmapRemoveLevel, ih]
    unfold removeLoop removeEntry
    rw [lose_walk]
    rfl

theorem lose_remove : pmapRemove (b.lose L) = pmapRemove b := by
  unfold pmapRemove
  rw [lose_removeLevel]

theorem lose_copyEntry (lower : Frame → ℕ → Frame → ℕ → ℕ → Kern Unit) (l : ℕ) :
    copyEntry (b.lose L) lower l = copyEntry b lower l := by
  have hshare : copyShare (b.lose L) = copyShare b := by
    unfold copyShare
    simp only [lose_removeLevel]
    rfl
  have hpart : copyPart (b.lose L) lower l = copyPart b lower l := by
    unfold copyPart
    rw [lose_walk, lose_removeLevel]
    rfl
  unfold copyEntry
  rw [hshare, hpart]

theorem lose_copyLevel (l : ℕ) : pmapCopyLevel (b.lose L) l = pmapCopyLevel b l := by
  induction l with
  | zero =>
    unfold pmapCopyLevel copyLoop
    rw [lose_copyEntry]
  | succ l ih =>
    rw [pmapCopyLevel, pmapCopyLevel, ih]
    unfold copyLoop
    rw [lose_copyEntry]

theorem lose_mergeLoop (look : Look) (lower : Frame → Frame → ℕ → Frame → ℕ → ℕ → Kern Unit) (l : ℕ) :
    mergeLoop (b.lose L) look lower l = mergeLoop b look lower l := by
  unfold mergeLoop mergeEntry
  simp only [lose_copyLevel, lose_mergepage, lose_zero]
  rfl

theorem lose_mergeLevel (look : Look) (l : ℕ) : pmapMergeLevel (b.lose L) look l = pmapMergeLevel b look l := by
  induction l with
  | zero => exact lose_mergeLoop b L look _ 0
  | succ l ih => rw [pmapMergeLevel, pmapMergeLevel, ih, lose_mergeLoop]

theorem lose_setpermLevel (x y : BitVec 12) (l : ℕ) : pmapSetpermLevel (b.lose L) x y l = pmapSetpermLevel b x y l := by
  induction l with
  | zero => rfl
  | succ l ih =>
    rw [pmapSetpermLevel, pmapSetpermLevel, ih]
    unfold setpermLoop setpermEntry
    rw [lose_walk]
    rfl

theorem lose_fault (n : ℕ) : pmapPagefault (b.lose L) n = pmapPagefault b n := by
  induction n with
  | zero => rfl
  | succ n ih =>
    funext r va w
    rw [pmapPagefault, pmapPagefault, ih]
    unfold pmapWalk
    rw [lose_walk]
    rfl

theorem lose_decref (r : Frame) : memDecref (b.lose L) r (pmapFreepmap (b.lose L)) = memDecref b r (pmapFreepmap b) := by
  have h : pmapFreepmap (b.lose L) = pmapFreepmap b := by
    unfold pmapFreepmap
    rw [lose_remove]
  rw [h]
  rfl

/-- The calls do not look at which pages there are. -/
theorem lose_exec (c : PmapCall) : c.exec (b.lose L) = c.exec b := by
  cases c with
  | walk r va w =>
    unfold PmapCall.exec pmapWalk
    rw [lose_walk]
  | insert r pi va perm =>
    unfold PmapCall.exec
    rw [lose_insert]
  | remove r va size =>
    unfold PmapCall.exec
    rw [lose_remove]
  | copy sr sva dr dva size =>
    unfold PmapCall.exec pmapCopy
    rw [lose_copyLevel]
  | merge rr sr sva dr dva size =>
    unfold PmapCall.exec pmapMerge pmapMergeLook
    rw [lose_mergeLevel]
  | setperm r va size perm =>
    unfold PmapCall.exec pmapSetperm
    simp only [lose_setpermLevel]
  | fault r va w depth => simp only [PmapCall.exec, lose_fault]
  | newpmap => rfl
  | alloc => rfl
  | fill pi pg => rfl
  | store r va pg => rfl

end

theorem Sound.lose (h : Sound (b.lose L) G s) (hL : ∀ f, G.kind f ≠ .held → f ∉ L') : Sound (b.lose L') G s := by
  have hreach : ∀ {f}, WReach (b.lose L') G s f → WReach (b.lose L) G s f := by
    intro f hf
    induction hf with
    | root hr => exact .root hr
    | step _ hs hW ih => exact .step ih hs hW
  have hcount : Counted (b.lose L') G s :=
    ⟨h.typed, h.count, h.alive, h.extra_nonneg, fun f hf => ⟨(h.avail f hf).1, hL f hf⟩, h.levels, h.zero, h.pinned⟩
  exact ⟨⟨⟨hcount, h.toListed⟩, h.off⟩, fun f hf => h.single f (hreach hf), h.zeroRO, h.opened⟩

/-- The machine has never had the lost pages. -/
theorem Booted.lose (hb : Booted b s₀) (L : List Frame) : ∃ s₁, Booted (b.lose L) s₁ ∧
    s₁.refcount = fun f => if f ∈ L then 1 else s₀.refcount f := by
  obtain ⟨l, hl, hn, hm⟩ := hb.free
  set l' := l.filter fun f => f ∉ L with hl'
  have hm' : ∀ f, f ∈ l' ↔ f ∈ (b.lose L).avail := by
    intro f
    rw [hl', List.mem_filter, hm f, decide_eq_true_eq]
    rfl
  refine ⟨{ s₀ with refcount := fun f => if f ∈ L then 1 else s₀.refcount f, freeNext := links l', freelist := l'.head? },
    ⟨⟨l', chain_links (hn.filter _), hn.filter _, hm'⟩, fun f hf => ?_, fun f hf => ?_, fun f => ?_, hb.zero⟩, rfl⟩
  · exact links_not_mem fun hmem => hf ((hm' f).1 hmem)
  · exact (if_neg hf.2).trans (hb.unused f hf.1)
  · by_cases hf : f ∈ L
    · simp [hf]
    · simp [hf, hb.refs f]

/-! ## Lives -/

/-- The page map with the root `r` has been given up. -/
def Maps.dropRoot (σ : Maps) (r : Frame) : Maps :=
  { σ with roots := (σ.roots.filter fun x => x.1 ≠ r).map fun x => (x.1, σ.mem.low x.1) }

/-- `mem_decref(.., pmap_freepmap)` for the root of a page map. -/
def dropMap (b : Boot) (r : Frame) : PanicM Panic Note Maps Unit := do
  onMem (memDecref b r (pmapFreepmap b))
  modify fun σ => σ.dropRoot r

/-- The states that the kernel can come to, without the notes of `defects`, when `n` page maps have been given up. -/
inductive Life (b : Boot) (s₀ : Mem) : ℕ → Maps → Prop
  | boot : Life b s₀ 0 ⟨s₀, [], []⟩
  | call {n : ℕ} {σ τ : Maps} {c : PmapCall} : Life b s₀ n σ → c.Allowed σ →
      Returns {n | n ∈ defects} (c.exec b) σ () τ → Life b s₀ n τ
  | drop {n : ℕ} {σ τ : Maps} {r : Frame} : Life b s₀ n σ → σ.IsRoot r → Returns ∅ (dropMap b r) σ () τ →
      Life b s₀ (n + 1) τ

theorem isRoot_dropRoot : (σ.dropRoot r).IsRoot f ↔ σ.IsRoot f ∧ f ≠ r := by
  unfold Maps.IsRoot Maps.dropRoot
  rw [List.map_map]
  constructor
  · intro h
    obtain ⟨x, hx, rfl⟩ := List.mem_map.1 h
    obtain ⟨hx, hne⟩ := List.mem_filter.1 hx
    exact ⟨List.mem_map.2 ⟨x, hx, rfl⟩, of_decide_eq_true hne⟩
  · rintro ⟨h, hne⟩
    obtain ⟨x, hx, rfl⟩ := List.mem_map.1 h
    exact List.mem_map.2 ⟨x, List.mem_filter.2 ⟨hx, decide_eq_true hne⟩, rfl⟩

/-- What holds when the pages of `L` are lost. -/
structure Maps.Lost (b : Boot) (s₀ : Mem) (L : List Frame) (σ : Maps) (G : Ghost) (s₁ : Mem) : Prop extends
    Maps.Inv (b.lose L) s₁ σ G where
  booted : Booted (b.lose L) s₁
  start : s₁.refcount = fun f => if f ∈ L then 1 else s₀.refcount f
  lost_nodup : L.Nodup
  lost_avail : ∀ f ∈ L, f ∈ b.avail

namespace Maps.Lost

variable {s₁ : Mem}

theorem boot (hb : Booted b s₀) : ∃ s₁ G, Maps.Lost b s₀ [] ⟨s₀, [], []⟩ G s₁ := by
  have hb' : Booted (b.lose []) s₀ := by
    obtain ⟨s₁, h₁, hr⟩ := hb.lose []
    refine ⟨?_, fun f hf => hb.unlinked f fun hv => hf ⟨hv, List.not_mem_nil⟩, fun f hf => hb.unused f hf.1, hb.refs, hb.zero⟩
    obtain ⟨l, hl, hn, hm⟩ := hb.free
    exact ⟨l, hl, hn, fun f => (hm f).trans ⟨fun hv => ⟨hv, List.not_mem_nil⟩, fun hv => hv.1⟩⟩
  exact ⟨s₀, _, hb'.inv, hb', by simp, List.nodup_nil, by simp⟩

theorem call (h : Maps.Lost b s₀ L σ G s₁) (hc : c.Allowed σ) (hret : Returns {n | n ∈ defects} (c.exec b) σ () τ) :
    ∃ G', Maps.Lost b s₀ L τ G' s₁ := by
  rw [← lose_exec b L] at hret
  obtain ⟨G', hG⟩ := (PmapCall.exec_ends h.booted h.toInv hc fun n hn => c.defects_subset n hn).of_returns hret
  exact ⟨G', hG, h.booted, h.start, h.lost_nodup, h.lost_avail⟩

/-- One more page is lost. -/
theorem released (hb : Booted b s₀) (h : Maps.Lost b s₀ L σ G s₁)
    (hrel : Released (b.lose L) r G σ.mem G' s') :
    ∃ s₂, Maps.Lost b s₀ (s'.low r :: L) ({ σ with mem := s' }.dropRoot r) G' s₂ := by
  obtain ⟨s₂, hb₂, hs₂⟩ := hb.lose (s'.low r :: L)
  have hq := h.avail _ hrel.lost
  have havail : ∀ f, f ∉ (b.lose (s'.low r :: L)).avail ↔ f ∉ (b.lose L).avail ∨ f = s'.low r := by
    intro f
    change ¬(f ∈ b.avail ∧ f ∉ s'.low r :: L) ↔ ¬(f ∈ b.avail ∧ f ∉ L) ∨ f = s'.low r
    rw [List.mem_cons]
    tauto
  refine ⟨s₂, ⟨hrel.sound.lose fun f hf hmem => ?_, fun f => ?_, ?_, fun f => ?_, ?_, h.nodup, ?_, ?_⟩, hb₂, hs₂, ?_, ?_⟩
  · refine hf ((hrel.held f).2 ?_)
    rcases List.mem_cons.1 hmem with rfl | hmem
    · exact .inr rfl
    · exact .inl ((h.held f).2 (.inl fun hv => hv.2 hmem))
  · rw [hrel.root, h.root, isRoot_dropRoot]
    rfl
  · intro x hx
    obtain ⟨y, hy, rfl⟩ := List.mem_map.1 hx
    obtain ⟨hy, hne⟩ := List.mem_filter.1 hy
    exact hrel.sound.kind_low ((hrel.root _).2 ⟨(h.root _).2 (List.mem_map_of_mem hy), of_decide_eq_true hne⟩)
  · rw [hrel.held, h.held, havail]
    tauto
  · intro f hf
    refine ⟨(h.pages f hf).1, fun hmem => ?_⟩
    rcases List.mem_cons.1 hmem with rfl | hmem
    · exact hrel.lost ((h.held _).2 (.inr hf))
    · exact (h.pages f hf).2 hmem
  · funext f
    rw [hrel.extra, h.refs, h.start, hs₂]
    by_cases hf : f = s'.low r
    · subst hf
      simp only [one_self, List.mem_cons_self, if_true]
      rw [if_neg hq.2, hb.unused _ hq.1, zero_add]
    · simp [one_ne hf, hf]
  · exact hrel.zero.trans h.zeros
  · exact List.nodup_cons.2 ⟨hq.2, h.lost_nodup⟩
  · intro f hf
    rcases List.mem_cons.1 hf with rfl | hf
    · exact hq.1
    · exact h.lost_avail f hf

/-- A page map is given up. -/
theorem dropMap_ends (h : Maps.Lost b s₀ L σ G s₁) (hr : σ.IsRoot r) :
    Ends ∅ (dropMap b r) σ (fun _ τ => ∃ G' s', Released (b.lose L) r G σ.mem G' s' ∧ τ = { σ with mem := s' }.dropRoot r)
      fun _ _ => False := by
  have hk := h.is_root hr
  have hv : r ∈ (b.lose L).avail := h.avail r (by rw [hk]; simp)
  have hx := h.page_extra h.booted hv
  have hc : σ.mem.refcount r = 1 := by
    have hno : refCount 512 (slot (b.lose L) G σ.mem) r = 0 :=
      refCount_eq_zero fun t i _ hs => Kind.kid_ne_root _ _ ((h.typed hs).symm.trans hk)
    rw [h.count r, hno, hk, rootRef, if_pos rfl, hx]
    rfl
  unfold dropMap
  refine ends_bind (ends_onMem ?_)
  rw [← lose_decref b L]
  refine (memDecref_pmap_ends h.toSound hk hc hx hv).imp ?_
  rintro _ s' ⟨G', hrel⟩
  exact ends_modify ⟨G', s', hrel, rfl⟩

end Maps.Lost

/-- **Every life** keeps the invariant. -/
theorem Life.lost (hb : Booted b s₀) (h : Life b s₀ n σ) : ∃ L : List Frame, L.length = n ∧
    ∃ s₁ G, Maps.Lost b s₀ L σ G s₁ := by
  induction h with
  | boot => exact ⟨[], rfl, Maps.Lost.boot hb⟩
  | call _ hc hret ih =>
    obtain ⟨L, hn, s₁, G, hG⟩ := ih
    obtain ⟨G', hG'⟩ := hG.call hc hret
    exact ⟨L, hn, s₁, G', hG'⟩
  | drop _ hr hret ih =>
    obtain ⟨L, hn, s₁, G, hG⟩ := ih
    obtain ⟨G', s', hrel, rfl⟩ := (hG.dropMap_ends hr).of_returns hret
    obtain ⟨s₂, hG₂⟩ := hG.released hb hrel
    exact ⟨_, by rw [List.length_cons, hn], s₂, G', hG₂⟩

/-! ## What is there and what is lost -/

theorem lose_view (l : ℕ) (a : ℕ) (t : Frame) : viewAt (b.lose L) s a l t = viewAt b s a l t := by
  induction l generalizing t with
  | zero => rfl
  | succ l ih =>
    unfold viewAt
    simp only [ih]
    rfl

theorem lose_table {k : Kind} {t : Frame} (h : σ.Table b k t) : σ.Table (b.lose L) k t := by
  induction h with
  | root hr => exact .root hr
  | lower _ hu hl hz ih => exact ih.lower hu hl hz

theorem table_of_lose {k : Kind} {t : Frame} (h : σ.Table (b.lose L) k t) : σ.Table b k t := by
  induction h with
  | root hr => exact .root hr
  | lower _ hu hl hz ih => exact ih.lower hu hl hz

theorem lose_entriesTo (f : Frame) : σ.entriesTo (b.lose L) f = σ.entriesTo b f := by
  ext x
  constructor
  · rintro ⟨k, ht, hu, hf⟩
    exact ⟨k, table_of_lose ht, hu, hf⟩
  · rintro ⟨k, ht, hu, hf⟩
    exact ⟨k, lose_table ht, hu, hf⟩

theorem Life.drops (hb : Booted b s₀) (h : Life b s₀ n σ) (hr : σ.IsRoot r) :
    Returns ∅ (dropMap b r) σ () (dropMap b r σ).state := by
  obtain ⟨L, -, s₁, G, hG⟩ := h.lost hb
  have hout := (hG.dropMap_ends hr).out fun _ _ => id
  refine ⟨?_, rfl, fun _ _ => id⟩
  cases hv : (dropMap b r σ).val with
  | ok u => rfl
  | error e =>
    rw [hv] at hout
    exact hout.elim

theorem Reach.life (h : Reach b (fun _ => True) defects s₀ σ) : Life b s₀ 0 σ := by
  induction h with
  | boot => exact .boot
  | call _ _ hc hret ih => exact ih.call hc hret

/-- **A page map is given up** without failing, and the others show what they did. -/
theorem drop_changes (hb : Booted b s₀) (h : Life b s₀ n σ) (hr : σ.IsRoot r) :
    (dropMap b r σ).val = .ok () ∧ Life b s₀ (n + 1) (dropMap b r σ).state ∧
    ∀ r' a, σ.IsRoot r' → r' ≠ r → UserVa a →
      View.Keeps (viewAt b σ.mem a nptLvls r') (viewAt b (dropMap b r σ).state.mem a nptLvls r') := by
  have hret := h.drops hb hr
  refine ⟨hret.val, h.drop hr hret, fun r' a hr' hne ha => ?_⟩
  obtain ⟨L, -, s₁, G, hG⟩ := h.lost hb
  obtain ⟨G', s', hrel, he⟩ := (hG.dropMap_ends hr).of_returns hret
  have hv := hrel.view r' a (hG.is_root hr') hne ha
  rw [lose_view, lose_view] at hv
  rw [he]
  exact hv

/-- Two page maps that share a page. -/
def sampleShared : List PmapCall := [.newpmap, .newpmap, .alloc, .insert 0x1000 0x1004 0x40001000 sysRW,
  .copy 0x1000 0x40001000 0x1002 0x40001000 4096]

theorem sample_shared : ∃ σ, Life sampleBoot (freshMem samplePages) 0 σ ∧ σ.IsRoot 0x1000 ∧ σ.IsRoot 0x1002 := by
  obtain ⟨σ, hσ, hP⟩ := exists_reach sampleBoot (fun _ => True) defects (freshMem samplePages) sampleShared
    (fun σ => decide (σ.IsRoot 0x1000 ∧ σ.IsRoot 0x1002)) (fun _ _ => trivial) (by decide +kernel)
  exact ⟨σ, hσ.life, of_decide_eq_true hP⟩

/-- One of them is given up. -/
theorem drop_changes_sample : ∃ σ, Life sampleBoot (freshMem samplePages) 1 (dropMap sampleBoot 0x1000 σ).state ∧
    σ.IsRoot 0x1002 ∧ View.Keeps (viewAt sampleBoot σ.mem 0x40001000 nptLvls 0x1002)
      (viewAt sampleBoot (dropMap sampleBoot 0x1000 σ).state.mem 0x40001000 nptLvls 0x1002) := by
  obtain ⟨σ, hσ, hr, hr'⟩ := sample_shared
  obtain ⟨-, hlife, hview⟩ := drop_changes sample_booted hσ hr
  exact ⟨σ, hlife, hr', hview 0x1002 0x40001000 hr' (by decide) (by decide)⟩

/-- The pages of `L` are lost; the counts of the others are right, and the free list holds what is neither used nor lost
nor taken by the kernel. -/
structure Maps.Exact (b : Boot) (L : List Frame) (σ : Maps) : Prop where
  nodup : L.Nodup
  lost : ∀ f ∈ L, f ∈ b.avail ∧ σ.mem.refcount f = 1 ∧ σ.entriesTo b f = ∅ ∧ ¬σ.IsRoot f ∧ f ∉ σ.pages
  count : ∀ f ∈ b.avail, f ∉ L → σ.mem.refcount f = (σ.entriesTo b f).ncard + if σ.IsRoot f then 1 else 0
  free : ∃ l, Chain σ.mem.freeNext σ.mem.freelist l ∧ l.Nodup ∧
    ∀ f, f ∈ l ↔ f ∈ b.avail ∧ σ.mem.refcount f = 0 ∧ f ∉ σ.pages

/-- **Page maps leak** one page each, and no more: as many pages are lost as page maps have been given up, and all the
others are accounted for. -/
theorem lives_exact (hb : Booted b s₀) (h : Life b s₀ n σ) : ∃ L : List Frame, L.length = n ∧ σ.Exact b L := by
  obtain ⟨L, hn, s₁, G, hG⟩ := h.lost hb
  obtain ⟨hcount, l, hl, hln, hm⟩ := hG.countsRight hG.booted
  have hlost : ∀ f ∈ L, σ.mem.refcount f = 1 ∧ ¬(G.kind f).Used := by
    intro f hf
    have hk := (hG.held f).2 (.inl fun hv => hv.2 hf)
    have hu : ¬(G.kind f).Used := by
      rw [hk]
      exact id
    refine ⟨?_, hu⟩
    rw [hG.refcount_unused hu, hG.refs, hG.start]
    exact if_pos hf
  refine ⟨L, hn, hG.lost_nodup, fun f hf => ?_, fun f hf hL => ?_, l, hl, hln, fun f => ?_⟩
  · obtain ⟨hone, hu⟩ := hlost f hf
    refine ⟨hG.lost_avail f hf, hone, ?_, fun hroot => ?_, fun hp => (hG.pages f hp).2 hf⟩
    · have hz : f ≠ b.zero := fun e => b.zero_avail (e ▸ hG.lost_avail f hf)
      rw [← lose_entriesTo (L := L), hG.entriesTo_eq hG.booted hz]
      refine Set.eq_empty_of_forall_notMem fun x hx => ?_
      exact hu (hG.slot_used hx.2)
    · rw [hG.is_root hroot] at hu
      exact hu trivial
  · rw [hcount f ⟨hf, hL⟩, lose_entriesTo]
  · rw [hm f]
    constructor
    · rintro ⟨hv, hr, hp⟩
      exact ⟨hv.1, hr, hp⟩
    · rintro ⟨hv, hr, hp⟩
      refine ⟨⟨hv, fun hf => ?_⟩, hr, hp⟩
      rw [(hlost f hf).1] at hr
      cases hr

/-- Both are given up. -/
theorem lives_exact_sample : ∃ σ L, Life sampleBoot (freshMem samplePages) 2 σ ∧ L.length = 2 ∧
    σ.Exact sampleBoot L := by
  obtain ⟨σ, hσ, hr, hr'⟩ := sample_shared
  have hret := hσ.drops sample_booted hr
  have hσ' := hσ.drop hr hret
  have hkeep : (dropMap sampleBoot 0x1000 σ).state.IsRoot 0x1002 := by
    obtain ⟨L, -, s₁, G, hG⟩ := hσ.lost sample_booted
    obtain ⟨G', s', -, he⟩ := (hG.dropMap_ends hr).of_returns hret
    rw [he]
    exact isRoot_dropRoot.2 ⟨hr', by decide⟩
  have hσ'' := hσ'.drop hkeep (hσ'.drops sample_booted hkeep)
  obtain ⟨L, hL, hex⟩ := lives_exact sample_booted hσ''
  exact ⟨_, L, hσ'', hL, hex⟩

end Determinator
