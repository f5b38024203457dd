import Determinator.Pmap.Counts

/-!
# Who owns what is writeable

If all entries on the way to an address of a page map carry `PTE_W`, then the tables on the way and the page
have one reference each, and they are nobody else's: going back up from a table with one reference, there
is only one way to a root.
-/

namespace Determinator

open PanicM

variable {b : Boot} {G : Ghost} {s s₀ : Mem} {σ : Maps} {f t T r r' : Frame} {l l' m n va va' : ℕ}

/-- All entries on the way to `va` carry `PTE_W`. -/
def pathWrites (s : Mem) (va : ℕ) : ℕ → Frame → Bool
  | 0, t => (s.entry t (pdx 0 va)).isW
  | l + 1, t => (s.entry t (pdx (l + 1) va)).isW && pathWrites s va l (s.entry t (pdx (l + 1) va)).frame

/-- A table that is not the first on the way comes after another. -/
theorem tableAt_upper (h : tableAt b s va n T m = some t) (hlt : m < n) :
    ∃ p, tableAt b s va n T (m + 1) = some p ∧ (s.entry p (pdx (m + 1) va)).frame ≠ b.zero ∧
      (s.entry p (pdx (m + 1) va)).frame = t := by
  induction n generalizing T with
  | zero => omega
  | succ n ih =>
    rw [tableAt, if_neg (by omega)] at h
    simp only at h
    split at h
    · cases h
    · rename_i hz
      rcases Nat.lt_succ_iff_lt_or_eq.1 hlt with hlt | rfl
      · obtain ⟨p, hp, hz', hf⟩ := ih h hlt
        refine ⟨p, ?_, hz', hf⟩
        rw [tableAt, if_neg (by omega)]
        simp only
        rw [if_neg hz, hp]
      · rw [tableAt_self] at h
        exact ⟨T, tableAt_self _ _, hz, Option.some.inj h⟩

/-- The tables on a writeable way are reached through writeable entries. -/
theorem writeable_table (hS : Sound b G s) (hl : (G.kind T).level = some n) (hm : (G.kind T).maps va)
    (hw : WReach b G s T) (hp : pathWrites s va n T = true) (hle : m ≤ n) :
    ∃ t, tableAt b s va n T m = some t ∧ WReach b G s t ∧ pathWrites s va m t = true := by
  induction n generalizing T with
  | zero =>
    obtain rfl : m = 0 := by omega
    exact ⟨T, rfl, hw, hp⟩
  | succ n ih =>
    rcases hle.lt_or_eq with hlt | rfl
    · have hp' := hp
      rw [pathWrites, Bool.and_eq_true] at hp'
      have hz := hS.zeroRO T _ (Kind.maps_user hl hm) hp'.1
      have hs := hS.slot_maps hl hm hz
      obtain ⟨hl', hm'⟩ := kid_of_slot hS.toGood hl hm hs
      obtain ⟨t, ht, h⟩ := ih hl' hm' (hw.step hs hp'.1) hp'.2 (by omega)
      refine ⟨t, ?_, h⟩
      rw [tableAt, if_neg (by omega)]
      simp only
      rw [if_neg hz, ht]
    · exact ⟨T, tableAt_self _ _, hw, hp⟩

/-! ## Ways back to a root -/

/-- Addresses of the user area are in one root. -/
theorem user_block (hu : vmUserLo ≤ va ∧ va < vmUserHi) : va / pdSize (3 + 1) = 0 := by
  have h4 : pdSize (3 + 1) = 281474976710656 := by decide
  have h := hu.2
  unfold vmUserHi at h
  rw [h4]
  omega

/-- What has one reference at the end of a way is at the end of no other. -/
theorem slot_way (hS : Sound b G s) (h : TableOf b G s r va l t) (h' : TableOf b G s r' va' l' T)
    (hz : (s.entry t (pdx l va)).frame ≠ b.zero) (hf : (s.entry t (pdx l va)).frame = f)
    (hf' : (s.entry T (pdx l' va')).frame = f) (hone : s.refcount f = 1) :
    t = T ∧ l = l' ∧ pdx l va = pdx l va' := by
  obtain ⟨hl, hm⟩ := h.kind hS.toWhole
  obtain ⟨hl', hm'⟩ := h'.kind hS.toWhole
  have hs := hS.slot_maps hl hm hz
  have hs' := hS.slot_maps hl' hm' (by rw [hf', ← hf]; exact hz)
  rw [hf] at hs
  rw [hf'] at hs'
  obtain ⟨rfl, hi⟩ := hS.single_slot hone hs hs'
  rw [hl] at hl'
  obtain rfl : l = l' := Option.some.inj hl'
  exact ⟨rfl, rfl, hi⟩

/-- A table on a writeable way is on no other. -/
theorem TableOf.unique (hS : Sound b G s) (h : TableOf b G s r va l t) (h' : TableOf b G s r' va' l' t)
    (hp : pathWrites s va nptLvls r = true) :
    r' = r ∧ l' = l ∧ va' / pdSize (l + 1) = va / pdSize (l + 1) := by
  have hkind : l = l' := by
    have h₁ := (h.kind hS.toWhole).1
    rw [(h'.kind hS.toWhole).1] at h₁
    exact (Option.some.inj h₁).symm
  subst hkind
  have hrl : (G.kind r).level = some nptLvls := by rw [h.root]; rfl
  have hrm : (G.kind r).maps va := by rw [h.root]; exact h.user
  -- from the root downwards
  have key : ∀ n l t, l + n = 3 → TableOf b G s r va l t → TableOf b G s r' va' l t →
      r' = r ∧ va' / pdSize (l + 1) = va / pdSize (l + 1) := by
    intro n
    induction n with
    | zero =>
      intro l t hn h h'
      obtain rfl : l = 3 := hn
      have ht := h.at_eq
      have ht' := h'.at_eq
      rw [show nptLvls = 3 from rfl, tableAt_self] at ht ht'
      refine ⟨Option.some.inj (ht'.trans ht.symm), ?_⟩
      rw [user_block h.user, user_block h'.user]
    | succ n ih =>
      intro l t hn h h'
      have hlt : l < nptLvls := by
        change l < 3
        omega
      obtain ⟨p, hp₁, hz, hf⟩ := tableAt_upper h.at_eq hlt
      obtain ⟨p', hp₁', -, hf'⟩ := tableAt_upper h'.at_eq hlt
      have hone : s.refcount t = 1 := by
        obtain ⟨t', ht', hw, -⟩ := writeable_table (m := l) hS hrl hrm (.root h.root) hp hlt.le
        rw [h.at_eq] at ht'
        obtain rfl := Option.some.inj ht'
        refine hS.single _ hw fun hr => ?_
        have := (h.kind hS.toWhole).1
        rw [hr] at this
        have : 3 = l := Option.some.inj this
        omega
      have hto : TableOf b G s r va (l + 1) p := ⟨h.root, h.user, hp₁⟩
      have hto' : TableOf b G s r' va' (l + 1) p' := ⟨h'.root, h'.user, hp₁'⟩
      obtain ⟨rfl, -, hi⟩ := slot_way hS hto hto' hz hf hf' hone
      obtain ⟨hr, hb⟩ := ih (l + 1) p (by omega) hto hto'
      exact ⟨hr, (div_of_pdx hb).1 hi.symm⟩
  obtain ⟨hr, hb⟩ := key (3 - l) l t (by have := h.level_le; omega) h h'
  exact ⟨hr, rfl, hb⟩

/-- A page at the end of a writeable way is at the end of no other. -/
theorem page_unique (hS : Sound b G s) (h : TableOf b G s r va 0 t) (h' : TableOf b G s r' va' 0 T)
    (hp : pathWrites s va nptLvls r = true)
    (hf : (s.entry T (pdx 0 va')).frame = (s.entry t (pdx 0 va)).frame) :
    s.refcount (s.entry t (pdx 0 va)).frame = 1 ∧ r' = r ∧ va' / pdSize 0 = va / pdSize 0 := by
  have hrl : (G.kind r).level = some nptLvls := by rw [h.root]; rfl
  have hrm : (G.kind r).maps va := by rw [h.root]; exact h.user
  obtain ⟨t', ht', hw, hp'⟩ := writeable_table (m := 0) hS hrl hrm (.root h.root) hp (Nat.zero_le _)
  rw [h.at_eq] at ht'
  obtain rfl := Option.some.inj ht'
  obtain ⟨hl, hm⟩ := h.kind hS.toWhole
  have hW : (s.entry t (pdx 0 va)).isW = true := hp'
  have hz := hS.zeroRO t _ (Kind.maps_user hl hm) hW
  have hs := hS.slot_maps hl hm hz
  have hone : s.refcount (s.entry t (pdx 0 va)).frame = 1 := by
    refine hS.single _ (hw.step hs hW) ?_
    rw [data_of_slot hS.toGood hl hs]
    nofun
  obtain ⟨rfl, -, hi⟩ := slot_way hS h h' hz rfl hf hone
  obtain ⟨hr, -, hb⟩ := h.unique hS h' hp
  exact ⟨hone, hr, (div_of_pdx hb).1 hi.symm⟩

/-! ## Stores -/

/-- A page is not seen where it is not mapped. -/
theorem viewAt_setPage (hS : Sound b G s) (hk : G.kind f = .data) (hl : (G.kind T).level = some n)
    (hm : (G.kind T).maps va) (pg : Page)
    (hne : ∀ t, tableAt b s va n T 0 = some t → (s.entry t (pdx 0 va)).frame ≠ f) :
    viewAt b (s.setPage f pg) va n T = viewAt b s va n T := by
  have hpage : ∀ g, g ≠ f → (s.setPage f pg).page g = s.page g := fun g hg => by
    simp [Mem.setPage, Function.update_of_ne hg]
  have hzero : (s.setPage f pg).page b.zero = s.page b.zero := by
    refine hpage _ fun e => ?_
    rw [← e, hS.zero] at hk
    cases hk
  induction n generalizing T with
  | zero =>
    refine viewAt_entry hzero (entry_congr (pdx_lt _ _) (hpage T ?_)) (fun _ _ => hpage _ (hne T rfl)) (by simp)
    rintro rfl
    rw [hk] at hl
    cases hl
  | succ n ih =>
    refine viewAt_entry hzero (entry_congr (pdx_lt _ _) (hpage T ?_)) (by simp) fun m hm' hz => ?_
    · rintro rfl
      rw [hk] at hl
      cases hl
    · obtain rfl : n = m := by omega
      obtain ⟨hl', hm''⟩ := kid_of_slot hS.toGood hl hm (hS.slot_maps hl hm hz)
      refine ih hl' hm'' fun t ht => hne t ?_
      rw [tableAt, if_neg (by omega)]
      simp only
      rw [if_neg hz, ht]

/-- An access that goes through goes to the page of the address. -/
theorem pathWrites_of_translate (h : translate s va true l T = some f) : pathWrites s va l T = true := by
  induction l generalizing T with
  | zero =>
    simp only [translate, Bool.not_true, Bool.or_false] at h
    split at h
    · rename_i hc
      exact (Bool.and_eq_true _ _ ▸ hc).2
    · cases h
  | succ l ih =>
    simp only [translate, Bool.not_true, Bool.or_false] at h
    split at h
    · rename_i hc
      rw [Bool.and_eq_true] at hc
      rw [pathWrites, hc.2, ih h, Bool.and_self]
    · cases h

theorem translate_page (h : translate s va true l T = some f) (hz : ∀ t i, (G.kind t).user i = true →
    (s.entry t i).isW = true → (s.entry t i).frame ≠ b.zero) (hS : Whole b G s)
    (hl : (G.kind T).level = some l) (hm : (G.kind T).maps va) :
    ∃ t, tableAt b s va l T 0 = some t ∧ (s.entry t (pdx 0 va)).frame = f := by
  induction l generalizing T with
  | zero =>
    simp only [translate] at h
    split at h
    · exact ⟨T, rfl, Option.some.inj h⟩
    · cases h
  | succ l ih =>
    simp only [translate, Bool.not_true, Bool.or_false] at h
    split at h
    · rename_i hc
      rw [Bool.and_eq_true] at hc
      have hne := hz T _ (Kind.maps_user hl hm) hc.2
      obtain ⟨hl', hm'⟩ := kid_of_slot hS.toGood hl hm (hS.slot_maps hl hm hne)
      obtain ⟨t, ht, hf⟩ := ih h hl' hm'
      refine ⟨t, ?_, hf⟩
      rw [tableAt, if_neg (by omega)]
      simp only
      rw [if_neg hne, ht]
    · cases h

/-! ## Page maps -/

/-- An address of the user area. -/
def UserVa (va : ℕ) : Prop := vmUserLo ≤ va ∧ va < vmUserHi

instance : DecidablePred UserVa := fun va => inferInstanceAs (Decidable (vmUserLo ≤ va ∧ va < vmUserHi))

/-- The tables below the root on the way to an address, and its page, have one reference each, and they are
on the way to no other address, be it of this page map or of another. -/
structure Maps.Owns (b : Boot) (σ : Maps) (r : Frame) (va : ℕ) : Prop where
  table : ∀ l < nptLvls, ∃ t, tableAt b σ.mem va nptLvls r l = some t ∧ σ.mem.refcount t = 1 ∧
    ∀ r' va' l', σ.IsRoot r' → UserVa va' → tableAt b σ.mem va' nptLvls r' l' = some t →
      r' = r ∧ l' = l ∧ va' / pdSize (l + 1) = va / pdSize (l + 1)
  page : ∃ t, tableAt b σ.mem va nptLvls r 0 = some t ∧ σ.mem.refcount (σ.mem.entry t (pdx 0 va)).frame = 1 ∧
    ∀ r' va' t', σ.IsRoot r' → UserVa va' → tableAt b σ.mem va' nptLvls r' 0 = some t' →
      (σ.mem.entry t' (pdx 0 va')).frame = (σ.mem.entry t (pdx 0 va)).frame →
        r' = r ∧ va' / pageSize = va / pageSize

theorem Maps.Inv.owns (h : Maps.Inv b s₀ σ G) (hr : σ.IsRoot r) (hu : UserVa va)
    (hp : pathWrites σ.mem va nptLvls r = true) : σ.Owns b r va := by
  have hrk := h.is_root hr
  have hrl : (G.kind r).level = some nptLvls := by rw [hrk]; rfl
  have hrm : (G.kind r).maps va := by rw [hrk]; exact hu
  refine ⟨fun l hl => ?_, ?_⟩
  · obtain ⟨t, ht, hw, -⟩ := writeable_table h.toSound hrl hrm (.root hrk) hp hl.le
    have hto : TableOf b G σ.mem r va l t := ⟨hrk, hu, ht⟩
    refine ⟨t, ht, h.single t hw fun hk => ?_, fun r' va' l' hr' hu' ht' => ?_⟩
    · have := (hto.kind h.toWhole).1
      rw [hk] at this
      have : 3 = l := Option.some.inj this
      have : l < 3 := hl
      omega
    · exact hto.unique h.toSound ⟨h.is_root hr', hu', ht'⟩ hp
  · obtain ⟨t, ht, -, -⟩ := writeable_table (m := 0) h.toSound hrl hrm (.root hrk) hp (Nat.zero_le _)
    have hto : TableOf b G σ.mem r va 0 t := ⟨hrk, hu, ht⟩
    refine ⟨t, ht, (page_unique h.toSound hto hto hp rfl).1, fun r' va' t' hr' hu' ht' hf => ?_⟩
    exact (page_unique h.toSound hto ⟨h.is_root hr', hu', ht'⟩ hp hf).2

/-- A store is seen at the addresses of its page, in its page map. -/
theorem Maps.Inv.store_view (h : Maps.Inv b s₀ σ G) (hr : σ.IsRoot r) (hu : UserVa va)
    (ht : translate σ.mem va true nptLvls r = some f) (pg : Page) (hr' : σ.IsRoot r') (hu' : UserVa va')
    (hne : r' ≠ r ∨ va' / pageSize ≠ va / pageSize) :
    viewAt b (σ.mem.setPage f pg) va' nptLvls r' = viewAt b σ.mem va' nptLvls r' := by
  have hrk := h.is_root hr
  have hrl : (G.kind r).level = some nptLvls := by rw [hrk]; rfl
  have hrm : (G.kind r).maps va := by rw [hrk]; exact hu
  have hrk' := h.is_root hr'
  obtain ⟨-, -, hk⟩ := store_sound h.toSound hrk hu ht pg
  obtain ⟨t, ht₀, rfl⟩ := translate_page ht h.zeroRO h.toWhole hrl hrm
  refine viewAt_setPage h.toSound hk (by rw [hrk']; rfl) (by rw [hrk']; exact hu') pg fun t' ht' hf => ?_
  obtain ⟨-, h₁, h₂⟩ := page_unique h.toSound ⟨hrk, hu, ht₀⟩ ⟨hrk', hu', ht'⟩ (pathWrites_of_translate ht) hf
  exact hne.elim (fun hn => hn h₁) fun hn => hn h₂

/-- **Copy on write** is safe, as long as no page is copied through the user area and memory suffices: what is
writeable belongs to one address of one page map, and a store is seen by no other. -/
theorem writeable_owned (hb : Booted b s₀) (h : Reach b PmapCall.NoMerge [.farCopy] s₀ σ)
    (hd : σ.mem.dry = false) (hr : σ.IsRoot r) (hu : UserVa va) :
    (pathWrites σ.mem va nptLvls r = true → σ.Owns b r va) ∧
    ∀ f pg, translate σ.mem va true nptLvls r = some f → ∀ r' va', σ.IsRoot r' → UserVa va' →
      (r' ≠ r ∨ va' / pageSize ≠ va / pageSize) →
      viewAt b (σ.mem.setPage f pg) va' nptLvls r' = viewAt b σ.mem va' nptLvls r' := by
  obtain ⟨G, hG⟩ := h.inv_noMerge hb hd
  exact ⟨hG.owns hr hu, fun f pg ht r' va' hr' hu' hne => hG.store_view hr hu ht pg hr' hu' hne⟩

/-- A page is shared and then written by one of the two page maps. -/
theorem writeable_owned_sample : ∃ σ, Reach sampleBoot PmapCall.NoMerge [.farCopy] (freshMem samplePages) σ ∧
    pathWrites σ.mem 0x40001000 nptLvls 0x1000 = true ∧ σ.Owns sampleBoot 0x1000 0x40001000 := by
  obtain ⟨σ, hσ, hP⟩ := exists_reach sampleBoot PmapCall.NoMerge [.farCopy] (freshMem samplePages)
    [.newpmap, .newpmap, .alloc, .insert 0x1000 0x1004 0x40001000 (sysRW ||| pteU ||| pteA),
      .copy 0x1000 0x40001000 0x1002 0x40001000 4096, .remove 0x1002 0x40001000 4096,
      .fault 0x1000 0x40001000 true 1]
    (fun σ => decide (σ.mem.dry = false ∧ σ.IsRoot 0x1000 ∧
      pathWrites σ.mem 0x40001000 nptLvls 0x1000 = true)) (by decide) (by decide +kernel)
  obtain ⟨hd, hr, hw⟩ := of_decide_eq_true hP
  exact ⟨σ, hσ, hw, (writeable_owned sample_booted hσ hd hr (by decide)).1 hw⟩

/-- After a copy through the user area a page is free that a page map still has, and the page map may
write it. -/
theorem writeable_free : ∃ σ, Reach sampleBoot PmapCall.NoMerge [] (freshMem samplePages) σ ∧
    σ.mem.dry = false ∧ σ.IsRoot 0x1002 ∧ pathWrites σ.mem 0x40001000 nptLvls 0x1002 = true ∧
    ¬σ.Owns sampleBoot 0x1002 0x40001000 := by
  obtain ⟨σ, hσ, hP⟩ := exists_reach sampleBoot PmapCall.NoMerge [] (freshMem samplePages)
    [.newpmap, .newpmap, .alloc, .insert 0x1000 0x1004 0x40001000 (sysRW ||| pteU ||| pteA),
      .copy 0x1000 0x40001000 0x1002 0x40001000 4096, .fault 0x1000 0x40001000 true 3,
      .fault 0x1002 0x40001000 true 1]
    (fun σ => decide (σ.mem.dry = false ∧ σ.IsRoot 0x1002 ∧
      pathWrites σ.mem 0x40001000 nptLvls 0x1002 = true ∧
      tableAt sampleBoot σ.mem 0x40001000 nptLvls 0x1002 0 = some 0x1008 ∧
      (σ.mem.entry 0x1008 (pdx 0 0x40001000)).frame = 0x1004 ∧ σ.mem.refcount 0x1004 = 0)) (by decide) (by decide +kernel)
  obtain ⟨hd, hr, hw, ht, hf, hzero⟩ := of_decide_eq_true hP
  refine ⟨σ, hσ, hd, hr, hw, fun howns => ?_⟩
  obtain ⟨t, ht', hone, -⟩ := howns.page
  obtain rfl : t = 0x1008 := Option.some.inj (ht'.symm.trans ht)
  rw [hf, hzero] at hone
  cases hone

end Determinator
