import Determinator.Pmap.Insert

/-!
# Page faults

`pmap_pagefault` after a write to an address whose page may be written, but that is not writeable: the
process gets a page of its own there, with the same contents. Any other fault changes no view.
-/

namespace Determinator

open PanicM

variable {b : Boot} {G G' G₁ : Ghost} {s s' s₁ : Mem} {f t T r pi : Frame} {i l va : ℕ} {e : Pte}
  {write : Bool}

/-! ## Writeable addresses -/

/-- A writeable address has its page to itself. -/
theorem wr_leaf (hS : Sound b G s) (hl : (G.kind T).level = some l) (hm : (G.kind T).maps va)
    (hw : WReach b G s T) (h : (viewAt b s va l T).wr = true) :
    ∃ t, WReach b G s t ∧ slot b G s t (pdx 0 va) = some (viewAt b s va l T).leaf.frame ∧
      (s.entry t (pdx 0 va)).isW = true ∧ (G.kind t).level = some 0 := by
  induction l generalizing T with
  | zero =>
    have hW : (s.entry T (pdx 0 va)).isW = true := h
    have hz := hS.zeroRO T _ (Kind.maps_user hl hm) hW
    exact ⟨T, hw, hS.slot_maps hl hm hz, hW, hl⟩
  | succ l ih =>
    have hW := viewAt_wr h
    have hz := hS.zeroRO T _ (Kind.maps_user hl hm) hW
    rw [viewAt_some hz] at h ⊢
    have hs := hS.slot_maps hl hm hz
    obtain ⟨hl', hm'⟩ := kid_of_slot hS.toGood hl hm hs
    simp only [View.under, Bool.and_eq_true] at h
    exact ih hl' hm' (hw.step hs hW) h.2

theorem wr_single (hS : Sound b G s) (hl : (G.kind T).level = some l) (hm : (G.kind T).maps va)
    (hw : WReach b G s T) (h : (viewAt b s va l T).wr = true) :
    s.refcount (viewAt b s va l T).leaf.frame = 1 := by
  obtain ⟨t, ht, hs, hW, -⟩ := wr_leaf hS hl hm hw h
  refine hS.single _ (ht.step hs hW) ?_
  rw [hS.typed hs]
  exact Kind.kid_ne_root _ _

theorem up_of_present (h : (viewAt b s va l T).wr = true) (hp : tablesPresent s va l T = true) :
    (viewAt b s va l T).up = true := by
  induction l generalizing T with
  | zero => rfl
  | succ l ih =>
    by_cases hz : (s.entry T (pdx (l + 1) va)).frame = b.zero
    · rw [viewAt_none hz] at h
      cases h
    · rw [viewAt_some hz] at h ⊢
      simp only [View.under, Bool.and_eq_true, tablesPresent] at *
      exact ⟨hp.1, ih h.2 hp.2⟩

/-- A write to a writeable address goes through. -/
theorem translate_of_view (hw : (viewAt b s va l T).wr = true) (hu : (viewAt b s va l T).up = true)
    (hp : (viewAt b s va l T).leaf.isP = true) :
    translate s va true l T = some (viewAt b s va l T).leaf.frame := by
  induction l generalizing T with
  | zero =>
    simp only [viewAt, Pte.clearW_isP] at hw hp
    simp [translate, viewAt, hw, hp]
  | succ l ih =>
    by_cases hz : (s.entry T (pdx (l + 1) va)).frame = b.zero
    · rw [viewAt_none hz] at hw
      cases hw
    · rw [viewAt_some hz] at hw hu hp ⊢
      simp only [View.under, Bool.and_eq_true] at hw hu hp
      rw [translate]
      simp only [hu.1, hw.1, Bool.true_or, Bool.and_true, if_true]
      exact ih hw.2 hu.2 hp

/-! ## The fault -/

/-- The flags of a page that may be written and is present. -/
def writeFlags : BitVec 12 := sysRW ||| pteP

theorem clearW_writeFlags (e : Pte) : e.clearW.flags &&& writeFlags = e.flags &&& writeFlags := by
  unfold Pte.clearW
  simp only [BitVec.and_assoc]
  rw [show ~~~pteW &&& writeFlags = writeFlags from by decide]

theorem isP_of_writeFlags (h : e.flags &&& writeFlags = writeFlags) : e.isP = true := by
  have h' := congrArg (BitVec.getLsbD · 0) h
  simpa [writeFlags, sysRW, pteP, Pte.isP] using h'

/-- A write fault that the kernel resolves: tables and page are present, and the page may be
written. -/
structure Resolvable (b : Boot) (s : Mem) (r : Frame) (va : ℕ) (write : Bool) : Prop where
  user : vmUserLo ≤ va ∧ va < vmUserHi
  write : write = true
  present : tablesPresent s va nptLvls r = true
  flags : (viewAt b s va nptLvls r).leaf.flags &&& writeFlags = writeFlags

/-- What a resolved fault leaves: `e` is the new entry, for a page with the old contents. -/
structure Resolved (b : Boot) (r : Frame) (va : ℕ) (G : Ghost) (s : Mem) (e : Pte) (G' : Ghost)
    (s' : Mem) : Prop where
  sound : Sound b G' s'
  flags : e.flags = ownedFlags
  mapping : Mapping b r va e (viewAt b s va nptLvls r).page G s G' s'
  kind : G.kind e.frame ≠ .held
  dry : s'.dry = s.dry

section

variable {N : Set Note}

/-- The page has one reference and is mapped: it becomes writeable. -/
theorem Sound.own_page (hS : Sound b G s) (hr : G.kind r = .root) (hm : vmUserLo ≤ va ∧ va < vmUserHi)
    (hp : OwnPath b s va 3 r t) (hf : (s.entry t (pdx 0 va)).frame = f) (hz : f ≠ b.zero)
    (href : ¬1 < s.refcount f) :
    Sound b G (s.setEntry t (pdx 0 va) (.mk' f ownedFlags)) ∧
      Mapping b r va (.mk' f ownedFlags) (s.page f) G s G
        (s.setEntry t (pdx 0 va) (.mk' f ownedFlags)) := by
  have hrl : (G.kind r).level = some 3 := by rw [hr]; rfl
  have hrm : (G.kind r).maps va := by rw [hr]; exact hm
  obtain ⟨-, hl, htm⟩ := hp.wreach hS.toWhole hrl hrm (.root hr)
  have hu := Kind.maps_user hl htm
  have hi := Kind.user_lt hu
  have hs := hS.slot_maps hl htm (by rw [hf]; exact hz)
  rw [hf] at hs
  have hk : G.kind f = .data := data_of_slot hS.toGood hl hs
  have hpos := hS.alive f (by rw [hk]; trivial) (by rw [hk]; nofun)
  have hft : f ≠ t := by
    rintro rfl
    rw [hk] at hl
    cases hl
  have hself : (s.setEntry t (pdx 0 va) (.mk' f ownedFlags)).entry t (pdx 0 va) = .mk' f ownedFlags :=
    setEntry_entry_self hi
  have hgood : Good b G (s.setEntry t (pdx 0 va) (.mk' f ownedFlags)) :=
    ⟨hS.toCounted.setEntry_flags hu hf.symm (by intro hr'; rw [hr'] at hl; cases hl), hS.toListed.setEntry hi⟩
  have hput := hS.toWhole.put_flags (e := .mk' f ownedFlags) hl hi
  refine ⟨hS.of_put (t := t) (i := pdx 0 va) hgood hS.off (fun _ _ => rfl) (fun _ h => h)
    (fun u j hj hne => setEntry_entry_ne hi (Kind.user_lt hj) hne) (fun _ => ?_)
    (fun g _ _ => by rw [setEntry_refcount hi]), ⟨⟨hgood, hS.off⟩, ?_, rfl, fun g => ?_, fun _ => id⟩⟩
  · rw [hself, setEntry_refcount hi, Pte.mk'_frame]
    refine ⟨hz, by omega, ?_⟩
    rw [hk]
    rfl
  · exact hp.acts hS hrl hrm (.root hr) le_rfl le_rfl (hput.ranged hS.toWhole hl hft)
  · refine ⟨fun hg => ⟨?_, hg⟩, And.right⟩
    rintro rfl
    rw [hk] at hg
    cases hg

/-- The end of a fault, when there is memory and the pages are below the user area. -/
theorem faultPage_ends {fault : ℕ → Kern Bool} (hN : Note.farCopy ∈ N) (hS : Sound b G s)
    (hr : G.kind r = .root) (hm : vmUserLo ≤ va ∧ va < vmUserHi) (hp : OwnPath b s va 3 r t)
    (hf : (s.entry t (pdx 0 va)).frame = f) :
    Ends N (faultPage b fault r t (pdx 0 va) f) s (fun _ s' => ∃ e G', Resolved b r va G s e G' s')
      (fun e s' => e = .assert ∧ s' = s.dried) := by
  have hrl : (G.kind r).level = some 3 := by rw [hr]; rfl
  have hrm : (G.kind r).maps va := by rw [hr]; exact hm
  obtain ⟨-, hl, htm⟩ := hp.wreach hS.toWhole hrl hrm (.root hr)
  have hpg : (viewAt b s va 3 r).page = s.page f := by
    rw [hp.viewAt, viewAt, hf]
  unfold faultPage
  refine ends_bind_get (ends_ite (fun hc => ?_) fun hc => ?_)
  · unfold memAllocOk
    refine ends_bind (ends_bind (ends_memAlloc (fun _ => ends_panic ⟨rfl, rfl⟩) fun pi hpi => ends_pure.2 ?_))
    obtain ⟨hfree, href, hSf⟩ := hS.filled hpi (s.page f)
    have hcl := hS.claimed hpi (s.page f)
    have hv : pi ∈ b.avail := hS.avail pi (by rw [hfree]; simp)
    refine ends_bind (ends_memIncref hv (ends_bind ?_))
    unfold copyPhys
    refine ends_bind_noteIf fun hfar => ?_
    have hfar := hfar hN
    push Not at hfar
    unfold readThrough writeThrough
    refine ends_bind (ends_ite (fun _ => ends_pure.2 ?_) fun h => absurd hfar.2 h)
    refine ends_bind (ends_ite (fun _ => ends_pure.2 ?_) fun h => absurd hfar.1 h)
    refine ends_bind_get (ends_modify ?_)
    change Ends N _ (s.filled pi (s.page f)) _ _
    have he : (s.filled pi (s.page f)).entry t (pdx 0 va) = s.entry t (pdx 0 va) :=
      setPage_entry_ne (pdx_lt _ _) (hcl.ne_of_level hl)
    have hne : pi ≠ f := by
      rintro rfl
      by_cases hz : pi = b.zero
      · exact hcl.ne_zero hz.symm
      · have := data_of_slot hS.toGood hl (hS.slot_maps hl htm (by rw [hf]; exact hz))
        rw [hf, hfree] at this
        cases this
    obtain ⟨hmap, hsound⟩ := hS.remapped (e := .mk' pi ownedFlags) hr hm hp hcl
    have hdone : ∃ e G', Resolved b r va G s e G'
        ((s.filled pi (s.page f)).remapped b t (pdx 0 va) (.mk' pi ownedFlags)) := by
      refine ⟨.mk' pi ownedFlags, _, hsound hSf.toCow fun _ => ?_, rfl, ?_, ?_, ?_⟩
      · change ((s.filled pi (s.page f)).release b _).refcount pi = 1
        rw [release_refcount (by rw [he, hf]; exact hne), filled_refcount, Function.update_self, href]
        rfl
      · have hnew : (s.filled pi (s.page f)).page (Pte.mk' pi ownedFlags).frame = (viewAt b s va 3 r).page := by
          rw [filled_page, Pte.mk'_frame, Function.update_self, hpg]
        have := hmap
        rwa [hnew] at this
      · rw [Pte.mk'_frame, hfree]
        simp
      · unfold Mem.remapped
        rw [setEntry_dry (pdx_lt _ _), release_dry]
        rfl
    refine ends_ite (fun hz => ends_bind ?_) fun hz => ?_
    · have hslot : slot b (G.claim pi) (s.filled pi (s.page f)) t (pdx 0 va) = some f := by
        refine slot_eq_some.2 ⟨?_, by rw [hSf.off]; simp, ?_, ?_⟩
        · rw [hcl.kind_level hl]
          exact Kind.maps_user hl htm
        · rw [he, hf]
          exact hz
        · rw [he, hf]
      refine hSf.toGood.memDecref_data (data_of_slot hSf.toGood (by rw [hcl.kind_level hl]; exact hl) hslot) ?_
      unfold writeEntry
      refine ends_modify ?_
      unfold Mem.remapped at hdone
      rw [he, hf, Mem.release, if_neg hz] at hdone
      exact hdone
    · unfold writeEntry
      refine ends_modify ?_
      unfold Mem.remapped at hdone
      rw [he, hf, Mem.release, if_pos (not_not.1 hz)] at hdone
      exact hdone
  · push Not at hc
    unfold writeEntry
    refine ends_modify ?_
    obtain ⟨hS', hmap⟩ := hS.own_page hr hm hp hf hc.1 (by omega)
    have hk : G.kind f = .data := by
      have hs := hS.slot_maps hl htm (by rw [hf]; exact hc.1)
      rw [hf] at hs
      exact data_of_slot hS.toGood hl hs
    refine ⟨_, G, hS', rfl, by rwa [hpg], ?_, setEntry_dry (pdx_lt _ _)⟩
    rw [Pte.mk'_frame, hk]
    simp

/-- **A page fault**: it is resolved, or changes no view. Without memory it stops at an assertion,
before any view has changed. -/
theorem pmapPagefault_ends {n : ℕ} (hN : Note.ignored ∈ N) (hF : Note.farCopy ∈ N) (hS : Sound b G s)
    (hr : G.kind r = .root) (hf : translate s va true nptLvls r = none) :
    Ends N (pmapPagefault b (n + 1) r va write) s (fun x s' =>
      (x = false ∧ ¬Resolvable b s r va write ∧ s'.dry = s.dry ∧ ∃ G', Sound b G' s' ∧ Unseen b 3 G s G' s') ∨
      (x = true ∧ Resolvable b s r va write ∧ ∃ e G', Resolved b r va G s e G' s'))
      (fun e s' => e = .assert ∧ s'.dry = true ∧ Resolvable b s r va write ∧
        ∃ G', Sound b G' s' ∧ Unseen b 3 G s G' s') := by
  have hrl : (G.kind r).level = some 3 := by rw [hr]; rfl
  unfold pmapPagefault
  refine ends_ite (fun hc => ends_pure.2 (.inl ⟨rfl, fun h => ?_, rfl, G, hS, Unseen.refl _ _ _⟩)) fun hc => ?_
  · have h₁ := h.user
    have h₂ := h.write
    rcases hc with hc | hc | hc
    · omega
    · omega
    · rw [h₂] at hc
      cases hc
  push Not at hc
  have hm : vmUserLo ≤ va ∧ va < vmUserHi := ⟨hc.1, hc.2.1⟩
  have hrm : (G.kind r).maps va := by rw [hr]; exact hm
  refine ends_bind_get (ends_ite (fun hp => ends_pure.2 (.inl ⟨rfl, fun h => ?_, rfl, G, hS, Unseen.refl _ _ _⟩))
    fun hp => ?_)
  · rw [h.present] at hp
    cases hp
  replace hp : tablesPresent s va nptLvls r = true := by simpa using hp
  unfold pmapWalk
  refine ends_bind (ends_bind_check hm ((pmapWalkLevel_ends hS hrl hrm).imp ?_))
  rintro x s₁ ⟨G₁, hw⟩
  refine ends_bind_noteIf fun hig => ?_
  obtain ⟨⟨t, i⟩, rfl⟩ := Option.ne_none_iff_exists'.1 (hig hN)
  obtain ⟨hdry, rfl, hl, hpath⟩ := hw.leaf t i rfl
  have hr₁ : G₁.kind r = .root := by
    rw [hw.tame.kind r (by rw [hr]; nofun)]
    exact hr
  have hkeep := hw.tame.view 3 r va hrl hrm
  have hleaf : (s₁.entry t (pdx 0 va)).clearW = (viewAt b s va 3 r).leaf := by
    rw [← hkeep.leaf, hpath.viewAt]
    rfl
  have hflags : (s₁.entry t (pdx 0 va)).flags &&& writeFlags = (viewAt b s va 3 r).leaf.flags &&& writeFlags := by
    rw [← hleaf, clearW_writeFlags]
  simp only [Option.getD_some]
  unfold readEntry
  refine ends_bind (ends_bind_get (ends_pure.2 (ends_ite (fun hc' => ?_) fun hc' => ?_)))
  · refine ends_pure.2 (.inl ⟨rfl, fun h => ?_, hdry, G₁, hw.sound, hw.tame⟩)
    exact hc' (hflags.trans h.flags)
  replace hc' : (viewAt b s va nptLvls r).leaf.flags &&& writeFlags = writeFlags :=
    hflags.symm.trans (not_not.1 hc')
  have hres : Resolvable b s r va write := ⟨hm, by simpa using hc.2.2, hp, hc'⟩
  have hW : (s₁.entry t (pdx 0 va)).isW = false := by
    by_contra hW
    have hwr : (viewAt b s va 3 r).wr = true := by
      refine hkeep.wr ?_
      rw [hpath.viewAt]
      exact Bool.eq_true_of_not_eq_false hW
    have := translate_of_view hwr (up_of_present hwr hp) (isP_of_writeFlags hc')
    rw [this] at hf
    cases hf
  refine ends_bind_check hW (ends_bind ((faultPage_ends hF hw.sound hr₁ hm hpath rfl).mono ?_ ?_))
  · rintro _ s' ⟨e, G', h⟩
    refine ends_pure.2 (.inr ⟨rfl, hres, e, G', h.sound, h.flags, ?_, ?_, h.dry.trans hdry⟩)
    · have := h.mapping.of_tame hw.tame hS hr
      rwa [hkeep.page] at this
    · intro hk
      exact h.kind ((hw.tame.neat.held _).2 hk)
  · rintro e s' ⟨rfl, rfl⟩
    exact ⟨rfl, rfl, hres, G₁, hw.sound.dried, hw.tame.trans tame_dried⟩

end

end Determinator
