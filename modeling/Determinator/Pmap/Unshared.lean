import Determinator.Pmap.Owner

/-!
# Unsharing

A walk for writing takes tables out of the shared part of the page maps. Nothing is seen of that at any
address: the bytes and the nominal permissions stay, and no address becomes writeable. Afterwards the tables
on the way have one reference each, from the page map of the walk, through an entry that carries `PTE_W`.
-/

namespace Determinator

open PanicM

variable {b : Boot} {G G' : Ghost} {s s' s₀ : Mem} {σ : Maps} {f t u T r : Frame} {i l m va : ℕ} {e : Pte}

/-! ## The processor -/

/-- The processor lets a store to `va` through, be it one of the kernel or of a user program. -/
def hardWrites (s : Mem) (user : Bool) (va : ℕ) : ℕ → Frame → Bool
  | 0, t =>
    let e := s.entry t (pdx 0 va)
    e.isP && e.isW && (e.isU || !user)
  | level + 1, t =>
    let e := s.entry t (pdx (level + 1) va)
    e.isP && e.isW && (e.isU || !user) && hardWrites s user va level e.frame

theorem Pte.clearW_isU (e : Pte) : e.clearW.isU = e.isU := by
  simp [Pte.clearW, Pte.isU, pteW]

/-- It does so where all entries on the way carry `PTE_W` and the flags of the last one allow it. -/
theorem hardWrites_iff {user : Bool} (hS : Sound b G s) (hl : (G.kind T).level = some l)
    (hm : (G.kind T).maps va) : hardWrites s user va l T = true ↔
      (viewAt b s va l T).wr = true ∧ (viewAt b s va l T).leaf.isP = true ∧
        (user = true → (viewAt b s va l T).leaf.isU = true) := by
  induction l generalizing T with
  | zero =>
    simp only [hardWrites, viewAt, Pte.clearW_isP, Pte.clearW_isU, Bool.and_eq_true, Bool.or_eq_true]
    cases user <;> simp [and_comm, and_left_comm, and_assoc]
  | succ l ih =>
    have hu := Kind.maps_user hl hm
    by_cases hW : (s.entry T (pdx (l + 1) va)).isW = true
    · obtain ⟨hz, ho⟩ := hS.entries hu hW
      obtain ⟨hP, hU⟩ := ho l hl
      obtain ⟨hl', hm'⟩ := kid_of_slot hS.toGood hl hm (hS.slot_maps hl hm hz)
      rw [hardWrites, viewAt_some hz]
      simp only [hP, hW, hU, View.under, Bool.true_and, Bool.true_or]
      exact ih hl' hm'
    · have hwr : ¬(viewAt b s va (l + 1) T).wr = true := fun h => hW (viewAt_wr h)
      have hhard : hardWrites s user va (l + 1) T = false := by
        rw [hardWrites]
        simp [hW]
      rw [hhard]
      simp [hwr]

/-! ## The tables on the way -/

/-- The tables on the way are those of the walk. -/
theorem OwnPath.tableAt (h : OwnPath b s va l T t) : tableAt b s va l T 0 = some t := by
  induction l generalizing T with
  | zero =>
    obtain rfl : T = t := h
    rfl
  | succ l ih =>
    obtain ⟨hz, -, -, h⟩ := h
    rw [Determinator.tableAt, if_neg (by omega)]
    simp only
    rw [if_neg hz, ih h]

/-- At every level below the first there is a table, and the entry for it carries `PTE_W` as do those before. -/
theorem OwnPath.upper (h : OwnPath b s va l T t) (hS : Sound b G s) (hl : (G.kind T).level = some l)
    (hm : (G.kind T).maps va) (hw : WReach b G s T) (hlt : m < l) :
    ∃ p, Determinator.tableAt b s va l T (m + 1) = some p ∧ (s.entry p (pdx (m + 1) va)).isW = true ∧
      (s.entry p (pdx (m + 1) va)).frame ≠ b.zero ∧ WReach b G s (s.entry p (pdx (m + 1) va)).frame ∧
      Determinator.tableAt b s va l T m = some (s.entry p (pdx (m + 1) va)).frame := by
  induction l generalizing T with
  | zero => omega
  | succ l ih =>
    obtain ⟨hz, hW, -, h⟩ := h
    have hs := hS.slot_maps hl hm hz
    obtain ⟨hl', hm'⟩ := kid_of_slot hS.toGood hl hm hs
    have hstep : ∀ n, n ≤ l → Determinator.tableAt b s va (l + 1) T n =
        Determinator.tableAt b s va l (s.entry T (pdx (l + 1) va)).frame n := by
      intro n hn
      rw [Determinator.tableAt, if_neg (by omega)]
      simp only
      rw [if_neg hz]
    rcases Nat.lt_succ_iff_lt_or_eq.1 hlt with hlt | rfl
    · rw [hstep _ hlt, hstep _ hlt.le]
      exact ih h hl' hm' (hw.step hs hW) hlt
    · refine ⟨T, tableAt_self _ _, hW, hz, hw.step hs hW, ?_⟩
      rw [hstep m le_rfl, tableAt_self]

/-! ## Walks -/

/-- What a walk for `va` in the page map `r`, with the entry `i` of `t` for its result, leaves of the page
maps. -/
structure Maps.Unshares (b : Boot) (σ : Maps) (r : Frame) (va : ℕ) (t : Frame) (i : ℕ) (s' : Mem) : Prop where
  /-- The entry for an address, but for `PTE_W`, and the contents of its page are as they were. -/
  seen : ∀ r' va', σ.IsRoot r' → UserVa va' →
    (viewAt b s' va' nptLvls r').leaf = (viewAt b σ.mem va' nptLvls r').leaf ∧
    (viewAt b s' va' nptLvls r').page = (viewAt b σ.mem va' nptLvls r').page
  hardware : ∀ r' va' user, σ.IsRoot r' → UserVa va' →
    hardWrites s' user va' nptLvls r' = true → hardWrites σ.mem user va' nptLvls r' = true
  table : ∀ l < nptLvls, ∃ p, tableAt b s' va nptLvls r (l + 1) = some p ∧
    ∃ u, tableAt b s' va nptLvls r l = some u ∧ (s'.entry p (pdx (l + 1) va)).frame = u ∧
      (s'.entry p (pdx (l + 1) va)).isW = true ∧ s'.refcount u = 1 ∧
      Maps.entriesTo b { σ with mem := s' } u = {(p, pdx (l + 1) va)}
  leaf : tableAt b s' va nptLvls r 0 = some t ∧ i = pdx 0 va

theorem Maps.Inv.unshares (hb : Booted b s₀) (h : Maps.Inv b s₀ σ G) (hr : σ.IsRoot r) (hu : UserVa va)
    (hw : Walked b nptLvls r va G σ.mem (some (t, i)) G' s') : σ.Unshares b r va t i s' := by
  have h' := h.unseen hw.sound hw.tame
  have hkind : ∀ {r'}, σ.IsRoot r' → (G.kind r').level = some nptLvls ∧ (G'.kind r').level = some nptLvls := by
    intro r' hr'
    have h₁ : G.kind r' = .root := h.is_root hr'
    have h₂ : G'.kind r' = .root := h'.is_root hr'
    rw [h₁, h₂]
    exact ⟨rfl, rfl⟩
  have hmaps : ∀ {r' va'}, σ.IsRoot r' → UserVa va' → (G.kind r').maps va' ∧ (G'.kind r').maps va' := by
    intro r' va' hr' hu'
    rw [h.is_root hr', h'.is_root (r := r') hr']
    exact ⟨hu', hu'⟩
  have hkeeps : ∀ {r' va'}, σ.IsRoot r' → UserVa va' →
      View.Keeps (viewAt b σ.mem va' nptLvls r') (viewAt b s' va' nptLvls r') :=
    fun hr' hu' => hw.tame.view _ _ _ (hkind hr').1 (hmaps hr' hu').1
  obtain ⟨-, hi, -, hp⟩ := hw.leaf t i rfl
  refine ⟨fun r' va' hr' hu' => ⟨(hkeeps hr' hu').leaf, (hkeeps hr' hu').page⟩,
    fun r' va' user hr' hu' => ?_, fun l hl => ?_, hp.tableAt, hi⟩
  · have hk := hkeeps hr' hu'
    rw [hardWrites_iff hw.sound (hkind hr').2 (hmaps hr' hu').2,
      hardWrites_iff h.toSound (hkind hr').1 (hmaps hr' hu').1, hk.leaf]
    exact And.imp_left hk.wr
  · obtain ⟨p, hpt, hW, hz, hreach, hlt⟩ :=
      hp.upper hw.sound (hkind hr).2 (hmaps hr hu).2 (.root (h'.is_root hr)) hl
    have hto : TableOf b G' s' r va (l + 1) p := ⟨h'.is_root hr, hu, hpt⟩
    obtain ⟨hpl, hpm⟩ := hto.kind hw.sound.toWhole
    have hs := hw.sound.slot_maps hpl hpm hz
    have hone : s'.refcount (s'.entry p (pdx (l + 1) va)).frame = 1 := by
      refine hw.sound.single _ hreach ?_
      rw [hw.sound.typed hs]
      exact Kind.kid_ne_root _ _
    refine ⟨p, hpt, _, hlt, rfl, hW, hone, ?_⟩
    rw [h'.entriesTo_eq hb hz]
    ext ⟨q, j⟩
    constructor
    · rintro ⟨-, hq⟩
      obtain ⟨rfl, rfl⟩ := hw.sound.single_slot hone hq hs
      rfl
    · rintro ⟨rfl, rfl⟩
      exact ⟨slot_lt hs, hs⟩

/-- **Unsharing** is invisible, in every state that the kernel comes to without a defect. -/
theorem walk_unshares (hb : Booted b s₀) (h : Reach b (fun _ => True) defects s₀ σ) (hr : σ.IsRoot r)
    (hu : UserVa va) (hw : (pmapWalk b r va true σ.mem).val = .ok (some (t, i))) :
    σ.Unshares b r va t i (pmapWalk b r va true σ.mem).state := by
  obtain ⟨G, hG⟩ := h.inv hb fun c _ => c.defects_subset
  have hk := hG.is_root hr
  have hwalk := pmapWalkLevel_ends (N := ∅) (E := fun _ _ => True) (l := 2) hG.toSound
    (show (G.kind r).level = some 3 by rw [hk]; rfl) (show (G.kind r).maps va by rw [hk]; exact hu)
  have hends : Ends ∅ (pmapWalk b r va true) σ.mem
      (fun r' s' => ∃ G', Walked b 3 r va G σ.mem r' G' s') fun _ _ => True := by
    unfold pmapWalk
    exact ends_bind_check hu hwalk
  obtain ⟨G', hG'⟩ := hends.of_returns ⟨hw, rfl, fun _ _ => id⟩
  exact hG.unshares hb hr hu hG'

/-- A page is shared, and there is a walk for another address of one of the two page maps. -/
theorem walk_unshares_sample : ∃ σ, Reach sampleBoot (fun _ => True) defects (freshMem samplePages) σ ∧
    σ.Unshares sampleBoot 0x1002 0x80000000 0x1009 0 (pmapWalk sampleBoot 0x1002 0x80000000 true σ.mem).state := by
  obtain ⟨σ, hσ, hP⟩ := exists_reach sampleBoot (fun _ => True) defects (freshMem samplePages)
    [.newpmap, .newpmap, .alloc, .insert 0x1000 0x1004 0x40001000 (sysRW ||| pteU ||| pteA),
      .copy 0x1000 0x40001000 0x1002 0x40001000 4096]
    (fun σ => decide (σ.IsRoot 0x1002 ∧
      (pmapWalk sampleBoot 0x1002 0x80000000 true σ.mem).val = .ok (some (0x1009, 0))))
    (fun _ _ => trivial) (by decide +kernel)
  obtain ⟨hr, hw⟩ := of_decide_eq_true hP
  exact ⟨σ, hσ, walk_unshares sample_booted hσ hr (by decide) hw⟩

/-- After a copy through the user area a page is free that a page map still has. A walk in the other page
map takes it for a table. -/
theorem walk_seen : ∃ σ, Reach sampleBoot PmapCall.NoMerge [] (freshMem samplePages) σ ∧
    σ.mem.dry = false ∧ σ.IsRoot 0x1000 ∧ ∃ t i,
      (pmapWalk sampleBoot 0x1000 0x80000000 true σ.mem).val = .ok (some (t, i)) ∧
      ¬σ.Unshares sampleBoot 0x1000 0x80000000 t i (pmapWalk sampleBoot 0x1000 0x80000000 true σ.mem).state := by
  obtain ⟨σ, hσ, hP⟩ := exists_reach sampleBoot PmapCall.NoMerge [] (freshMem samplePages)
    [.newpmap, .newpmap, .alloc, .insert 0x1000 0x1004 0x40001000 (sysRW ||| pteU ||| pteA),
      .copy 0x1000 0x40001000 0x1002 0x40001000 4096, .fault 0x1000 0x40001000 true 3]
    (fun σ => decide (σ.mem.dry = false ∧ σ.IsRoot 0x1000 ∧ σ.IsRoot 0x1002 ∧
      (pmapWalk sampleBoot 0x1000 0x80000000 true σ.mem).val = .ok (some (0x100a, 0)) ∧
      (viewAt sampleBoot (pmapWalk sampleBoot 0x1000 0x80000000 true σ.mem).state 0x40001000 nptLvls
        0x1002).page 0 ≠ (viewAt sampleBoot σ.mem 0x40001000 nptLvls 0x1002).page 0))
    (by decide) (by decide +kernel)
  obtain ⟨hd, hr, hr', hw, hpage⟩ := of_decide_eq_true hP
  refine ⟨σ, hσ, hd, hr, _, _, hw, fun h => hpage ?_⟩
  rw [(h.seen 0x1002 0x40001000 hr' (by decide)).2]

end Determinator
