import Determinator.Pmap.Tables

/-!
# Walking

`pmap_walk_level` changes no view (`Unseen`), and after it the tables on the way to an address belong to
one page map only: the entries for them are writeable, and what is reached through writeable entries
has one reference.
-/

namespace Determinator

open PanicM

variable {b : Boot} {G G' G₁ G₂ : Ghost} {s s' s₁ s₂ : Mem} {f g t u T pi low : Frame}
  {i j l m L va : ℕ} {e : Pte}

/-- What a walk from a level-`L` table may do: pages are taken from the free list for tables, and
writeable bits are cleared or moved up. -/
structure Unseen (b : Boot) (L : ℕ) (G : Ghost) (s : Mem) (G' : Ghost) (s' : Mem) : Prop where
  kind : ∀ g, G.kind g ≠ .free → G'.kind g = G.kind g
  fresh : ∀ g, G.kind g = .free → G'.kind g = .free ∨ ∃ m < L, G'.kind g = .table m
  extra : G'.extra = G.extra
  plain : ∀ g, (G.kind g).level = none → G.kind g ≠ .free → s'.page g = s.page g
  high : ∀ g m, (G.kind g).level = some m → L < m → s'.page g = s.page g
  refs : ∀ g m, (G.kind g).level = some m → L ≤ m → s'.refcount g = s.refcount g
  view : ∀ m g va, (G.kind g).level = some m → (G.kind g).maps va →
    View.Keeps (viewAt b s va m g) (viewAt b s' va m g)

theorem Kind.ne_free {k : Kind} (h : k.level = some l) : k ≠ .free := by
  rintro rfl
  cases h

namespace Unseen

theorem refl (L : ℕ) (G : Ghost) (s : Mem) : Unseen b L G s G s :=
  ⟨fun _ _ => rfl, fun _ h => .inl h, rfl, fun _ _ _ => rfl, fun _ _ _ _ => rfl, fun _ _ _ _ => rfl,
    fun _ _ _ _ _ => View.Keeps.refl _⟩

theorem trans (h : Unseen b L G s G₁ s₁) (h' : Unseen b L G₁ s₁ G₂ s₂) : Unseen b L G s G₂ s₂ where
  kind g hg := by
    have h₁ := h.kind g hg
    rw [h'.kind g (by rw [h₁]; exact hg), h₁]
  fresh g hg := by
    rcases h.fresh g hg with h₁ | ⟨m, hm, h₁⟩
    · exact h'.fresh g h₁
    · exact .inr ⟨m, hm, (h'.kind g (by rw [h₁]; nofun)).trans h₁⟩
  extra := h'.extra.trans h.extra
  plain g hl hg := by
    have h₁ := h.kind g hg
    rw [h'.plain g (by rw [h₁]; exact hl) (by rw [h₁]; exact hg), h.plain g hl hg]
  high g m hl hm := by
    have h₁ := h.kind g (Kind.ne_free hl)
    rw [h'.high g m (by rw [h₁]; exact hl) hm, h.high g m hl hm]
  refs g m hl hm := by
    have h₁ := h.kind g (Kind.ne_free hl)
    rw [h'.refs g m (by rw [h₁]; exact hl) hm, h.refs g m hl hm]
  view m g va hl hm := by
    have h₁ := h.kind g (Kind.ne_free hl)
    exact (h.view m g va hl hm).trans (h'.view m g va (by rw [h₁]; exact hl) (by rw [h₁]; exact hm))

theorem mono (h : Unseen b l G s G' s') (hl : l ≤ L) : Unseen b L G s G' s' :=
  { h with
    fresh := fun g hg => (h.fresh g hg).imp id fun ⟨m, hm, hk⟩ => ⟨m, by omega, hk⟩
    high := fun g m hg hm => h.high g m hg (by omega)
    refs := fun g m hg hm => h.refs g m hg (by omega) }

theorem base (h : Unseen b L G s G' s') (hS : Sound b G s) : Base b L G s G' s' where
  kind g m hg _ := h.kind g (Kind.ne_free hg)
  kind_new g m hg hm := by
    by_cases hf : G.kind g = .free
    · rcases h.fresh g hf with h₁ | ⟨n, hn, h₁⟩
      · rw [h₁] at hg
        cases hg
      · rw [h₁] at hg
        have : n = m := Option.some.inj hg
        omega
    · exact (h.kind g hf).symm
  zero := h.plain b.zero (by rw [hS.zero]; rfl) (by rw [hS.zero]; nofun)
  page := h.high

/-- A walk does nothing to a table. -/
theorem acts (h : Unseen b L G s G' s') (hS : Sound b G s) (hT : (G.kind T).level = some L) :
    Acts b L T (fun _ v v' => View.Keeps v v') G s G' s' where
  toBase := h.base hS
  other g va hg _ hm := h.view L g va hg hm
  self va hm := h.view L T va hT hm

end Unseen

/-! ## The moves -/

theorem Pte.clearW_isP (e : Pte) : e.clearW.isP = e.isP := by
  simp [Pte.clearW, Pte.isP, pteW]

theorem viewAt_wr (h : (viewAt b s va l t).wr = true) : (s.entry t (pdx l va)).isW = true := by
  cases l with
  | zero => exact h
  | succ l =>
    by_cases hz : (s.entry t (pdx (l + 1) va)).frame = b.zero
    · rw [viewAt_none hz] at h
      cases h
    · rw [viewAt_some hz] at h
      simp only [View.under, Bool.and_eq_true] at h
      exact h.1

/-- The view of an empty table. -/
theorem viewAt_empty (h : ∀ j < 512, s.entry t j = pteZero b) :
    (viewAt b s va l t).leaf = pteZero b ∧ (viewAt b s va l t).page = s.page b.zero ∧
      (viewAt b s va l t).wr = false := by
  have he := h (pdx l va) (pdx_lt l va)
  cases l with
  | zero => simp [viewAt, he]
  | succ l =>
    rw [viewAt_none (by rw [he]; rfl)]
    exact ⟨rfl, rfl, rfl⟩

/-- A copy of a table, without the writeable bits, has the same view. -/
theorem keeps_copy (h : ∀ j < 512, s.entry pi j = (s.entry low j).clearW) :
    View.Keeps (viewAt b s va l low) (viewAt b s va l pi) := by
  have he := h (pdx l va) (pdx_lt l va)
  cases l with
  | zero =>
    refine ⟨?_, ?_, ?_, fun _ => rfl⟩
    · simp [viewAt, he]
    · simp [viewAt, he]
    · simp [viewAt, he]
  | succ l =>
    by_cases hz : (s.entry low (pdx (l + 1) va)).frame = b.zero
    · rw [viewAt_none hz, viewAt_none (by rw [he]; exact hz)]
      exact View.Keeps.refl _
    · rw [viewAt_some hz, viewAt_some (by rw [he]; exact hz), he, Pte.clearW_frame]
      refine (View.Keeps.refl _).under ?_ ?_
      · rw [Pte.clearW_isW]
        simp
      · rw [Pte.clearW_isP]
        exact id

/-- Setting flags of an entry. -/
theorem Sound.tame_setFlags (h : Sound b G s) (hu : (G.kind t).user i = true)
    (hl : (G.kind t).level = some l) (hL : l ≤ L) (he : e.frame = (s.entry t i).frame)
    (hw : e.isW = true → (s.entry t i).isW = true) (hp : (s.entry t i).isP = true → e.isP = true)
    (h0 : l = 0 → e.clearW = (s.entry t i).clearW) : Unseen b L G s G (s.setEntry t i e) := by
  have hi := Kind.user_lt hu
  have hplain : ∀ g, (G.kind g).level = none → (s.setEntry t i e).page g = s.page g := by
    intro g hg
    refine setEntry_page_ne hi ?_
    rintro rfl
    rw [hg] at hl
    cases hl
  have hz : (s.setEntry t i e).page b.zero = s.page b.zero := hplain _ (by rw [h.zero]; rfl)
  refine ⟨fun _ _ => rfl, fun _ hg => .inl hg, rfl, fun g hg _ => hplain g hg, ?_, ?_, ?_⟩
  · intro g m hg hm
    refine setEntry_page_ne hi ?_
    rintro rfl
    rw [hg] at hl
    have := Option.some.inj hl
    omega
  · intro g m _ _
    rw [setEntry_refcount hi]
  refine keeps_of_tables h.toWhole hz ?_ ?_
  · intro g va hg hm
    have hpage : ∀ f, f = (s.entry g (pdx 0 va)).frame → (s.setEntry t i e).page f = s.page f := by
      rintro f rfl
      by_cases hzf : (s.entry g (pdx 0 va)).frame = b.zero
      · rw [hzf, hz]
      · refine hplain _ ?_
        rw [data_of_slot h.toGood hg (h.slot_maps hg hm hzf)]
        rfl
    by_cases hne : g ≠ t ∨ pdx 0 va ≠ i
    · have heq := setEntry_entry_ne (s := s) (e := e) hi (pdx_lt 0 va) hne
      refine ⟨?_, ?_, ?_, id⟩
      · simp only [viewAt, heq]
      · simp only [viewAt, heq]
        exact hpage _ rfl
      · simp only [viewAt, heq]
        exact id
    · obtain ⟨rfl, rfl⟩ : g = t ∧ pdx 0 va = i := by
        push Not at hne
        exact hne
      have heq := setEntry_entry_self (s := s) (t := g) (e := e) hi
      have hl0 : l = 0 := by
        rw [hg] at hl
        exact (Option.some.inj hl).symm
      refine ⟨?_, ?_, ?_, id⟩
      · simp only [viewAt, heq]
        exact h0 hl0
      · simp only [viewAt, heq, he]
        exact hpage _ rfl
      · simp only [viewAt, heq]
        exact hw
  · intro l' g va hg hm _
    refine .inl ?_
    by_cases hne : g ≠ t ∨ pdx (l' + 1) va ≠ i
    · rw [setEntry_entry_ne hi (pdx_lt _ _) hne]
      exact ⟨rfl, id, id⟩
    · obtain ⟨rfl, rfl⟩ : g = t ∧ pdx (l' + 1) va = i := by
        push Not at hne
        exact hne
      rw [setEntry_entry_self hi]
      exact ⟨he, hw, hp⟩

/-- Taking over a lower table. -/
theorem Sound.tame_own (h : Sound b G s) (hu : (G.kind t).user i = true)
    (hl : (G.kind t).level = some (l + 1)) (hL : l + 1 ≤ L) (hlow : (s.entry t i).frame = low)
    (hz : low ≠ b.zero) : Unseen b L G s G
      ((s.setPage low fun j => (s.page low j).clearW).setEntry t i (.mk' low tableFlags)) := by
  have hi := Kind.user_lt hu
  have hs : slot b G s t i = some low :=
    slot_eq_some.2 ⟨hu, by rw [h.off]; simp, by rw [hlow]; exact hz, hlow⟩
  have hll : (G.kind low).level = some l := by
    rw [h.typed hs]
    exact Kind.kid_level hl i
  have hne : low ≠ t := by
    rintro rfl
    rw [hl] at hll
    have := Option.some.inj hll
    omega
  set s' := (s.setPage low fun j => (s.page low j).clearW).setEntry t i (.mk' low tableFlags) with hs'
  have hself : s'.entry t i = .mk' low tableFlags := setEntry_entry_self hi
  have hlowe : ∀ j < 512, s'.entry low j = (s.entry low j).clearW := by
    intro j hj
    rw [hs', setEntry_entry_ne hi hj (.inl hne), setPage_entry_self hj, entry_page hj]
  have hsame : ∀ u j, j < 512 → u ≠ low → (u ≠ t ∨ j ≠ i) → s'.entry u j = s.entry u j := by
    intro u j hj hul hne'
    rw [hs', setEntry_entry_ne hi hj hne', setPage_entry_ne hj hul]
  have hpage : ∀ u, u ≠ low → u ≠ t → s'.page u = s.page u := by
    intro u hul hut
    rw [hs', setEntry_page_ne hi hut]
    simp [Mem.setPage, Function.update_of_ne hul]
  have hplain : ∀ g, (G.kind g).level = none → s'.page g = s.page g := by
    intro g hg
    refine hpage g ?_ ?_
    · rintro rfl
      rw [hg] at hll
      cases hll
    · rintro rfl
      rw [hg] at hl
      cases hl
  have hzero : s'.page b.zero = s.page b.zero := hplain _ (by rw [h.zero]; rfl)
  refine ⟨fun _ _ => rfl, fun _ hg => .inl hg, rfl, fun g hg _ => hplain g hg, ?_, ?_, ?_⟩
  · intro g m hg hm
    refine hpage g ?_ ?_
    · rintro rfl
      rw [hg] at hll
      have := Option.some.inj hll
      omega
    · rintro rfl
      rw [hg] at hl
      have := Option.some.inj hl
      omega
  · intro g m _ _
    rw [hs', setEntry_refcount hi]
    rfl
  refine keeps_of_tables h.toWhole hzero ?_ ?_
  · intro g va hg hm
    have hleaf : s'.page (s.entry g (pdx 0 va)).frame = s.page (s.entry g (pdx 0 va)).frame := by
      by_cases hzf : (s.entry g (pdx 0 va)).frame = b.zero
      · rw [hzf, hzero]
      · refine hplain _ ?_
        rw [data_of_slot h.toGood hg (h.slot_maps hg hm hzf)]
        rfl
    by_cases hgl : g = low
    · subst hgl
      refine ⟨?_, ?_, ?_, id⟩ <;> simp only [viewAt, hlowe _ (pdx_lt 0 va)]
      · exact Pte.clearW_clearW _
      · exact hleaf
      · rw [Pte.clearW_isW]
        simp
    · have hgt : g ≠ t := by
        rintro rfl
        rw [hg] at hl
        have := Option.some.inj hl
        omega
      refine ⟨?_, ?_, ?_, id⟩ <;> simp only [viewAt, hsame g _ (pdx_lt 0 va) hgl (.inl hgt)]
      · exact hleaf
      · exact id
  · intro l' g va hg hm ih
    by_cases hgl : g = low
    · subst hgl
      rw [hlowe _ (pdx_lt _ _), Pte.clearW_isP, Pte.clearW_isW]
      exact .inl ⟨rfl, by simp, id⟩
    · by_cases hne' : g ≠ t ∨ pdx (l' + 1) va ≠ i
      · rw [hsame g _ (pdx_lt _ _) hgl hne']
        exact .inl ⟨rfl, id, id⟩
      · obtain ⟨rfl, rfl⟩ : g = t ∧ pdx (l' + 1) va = i := by
          push Not at hne'
          exact hne'
        obtain ⟨hll', hml⟩ := kid_of_slot h.toGood hg hm hs
        have hk := ih low va hll' hml
        have hwr : (viewAt b s' va l' low).wr = false := by
          by_contra hn
          have := viewAt_wr (show (viewAt b s' va l' low).wr = true by simpa using hn)
          rw [hlowe _ (pdx_lt _ _), Pte.clearW_isW] at this
          cases this
        refine .inr ?_
        rw [viewAt_some (by rw [hlow]; exact hz), viewAt_some (by rw [hself]; exact hz), hlow, hself]
        refine ⟨hk.leaf, hk.page, ?_, ?_⟩
        · simp [View.under, hwr]
        · simp only [View.under, tableFlags_isP, Bool.true_and, Bool.and_eq_true]
          exact fun e => hk.up e.2

/-- What an entry for a new table does to views, when the table has the view of what was there. -/
theorem Sound.tame_attach (h : Sound b G s) (hu : (G.kind t).user i = true)
    (hl : (G.kind t).level = some (l + 1)) (hL : l + 1 ≤ L) (hf : G.kind pi = .free)
    (he : s'.entry t i = .mk' pi tableFlags)
    (hsame : ∀ u j, j < 512 → u ≠ pi → (u ≠ t ∨ j ≠ i) → s'.entry u j = s.entry u j)
    (hpage : ∀ u, u ≠ pi → u ≠ t → s'.page u = s.page u)
    (hrefs : ∀ g m, g ≠ pi → (G.kind g).level = some m → l + 1 ≤ m → s'.refcount g = s.refcount g)
    (hview : ∀ va, pdx (l + 1) va = i → (G.kind t).maps va →
      (∀ u va, (G.kind u).level = some l → (G.kind u).maps va →
        View.Keeps (viewAt b s va l u) (viewAt b s' va l u)) →
      View.Keeps (viewAt b s va (l + 1) t) (viewAt b s' va (l + 1) t)) :
    Unseen b L G s (G.setKind pi (.table l)) s' := by
  have hi := Kind.user_lt hu
  have hne : ∀ g, G.kind g ≠ .free → g ≠ pi := by
    rintro g hg rfl
    exact hg hf
  have hplain : ∀ g, (G.kind g).level = none → G.kind g ≠ .free → s'.page g = s.page g := by
    intro g hg hgf
    refine hpage g (hne g hgf) ?_
    rintro rfl
    rw [hg] at hl
    cases hl
  have hzero : s'.page b.zero = s.page b.zero :=
    hplain _ (by rw [h.zero]; rfl) (by rw [h.zero]; nofun)
  refine ⟨fun g hg => setKind_ne (hne g hg), fun g hg => ?_, rfl, hplain, ?_, ?_, ?_⟩
  · by_cases hgp : g = pi
    · subst hgp
      exact .inr ⟨l, by omega, setKind_self _⟩
    · exact .inl ((setKind_ne hgp).trans hg)
  · intro g m hg hm
    refine hpage g (hne g (Kind.ne_free hg)) ?_
    rintro rfl
    rw [hg] at hl
    have := Option.some.inj hl
    omega
  · intro g m hg hm
    exact hrefs g m (hne g (Kind.ne_free hg)) hg (by omega)
  refine keeps_of_tables h.toWhole hzero ?_ ?_
  · intro g va hg hm
    have hgt : g ≠ t := by
      rintro rfl
      rw [hg] at hl
      have := Option.some.inj hl
      omega
    have heq := hsame g _ (pdx_lt 0 va) (hne g (Kind.ne_free hg)) (.inl hgt)
    have hleaf : s'.page (s.entry g (pdx 0 va)).frame = s.page (s.entry g (pdx 0 va)).frame := by
      by_cases hzf : (s.entry g (pdx 0 va)).frame = b.zero
      · rw [hzf, hzero]
      · have := data_of_slot h.toGood hg (h.slot_maps hg hm hzf)
        refine hplain _ ?_ ?_
        · rw [this]
          rfl
        · rw [this]
          nofun
    refine ⟨?_, ?_, ?_, id⟩ <;> simp only [viewAt, heq]
    · exact hleaf
    · exact id
  · intro l' g va hg hm ih
    by_cases hne' : g ≠ t ∨ pdx (l' + 1) va ≠ i
    · rw [hsame g _ (pdx_lt _ _) (hne g (Kind.ne_free hg)) hne']
      exact .inl ⟨rfl, id, id⟩
    · obtain ⟨rfl, hidx⟩ : g = t ∧ pdx (l' + 1) va = i := by
        push Not at hne'
        exact hne'
      obtain rfl : l = l' := by
        rw [hg] at hl
        have := Option.some.inj hl
        omega
      exact .inr (hview va hidx hm ih)

/-- Making an empty lower table. -/
theorem Sound.tame_newTable (h : Sound b G s) (hu : (G.kind t).user i = true)
    (hl : (G.kind t).level = some (l + 1)) (hL : l + 1 ≤ L) (hf : G.kind pi = .free)
    (hz : (s.entry t i).frame = b.zero) :
    Unseen b L G s (G.setKind pi (.table l)) (s.withTable b t i pi) := by
  have hi := Kind.user_lt hu
  have hne : t ≠ pi := by
    rintro rfl
    rw [hf] at hl
    cases hl
  have hzp : b.zero ≠ pi := by
    intro e
    have := h.zero
    rw [e, hf] at this
    cases this
  have hzt : b.zero ≠ t := by
    intro e
    rw [← e, h.zero] at hl
    cases hl
  refine h.tame_attach hu hl hL hf (withTable_entry_self hi)
    (fun u j hj hup hne' => withTable_entry_ne hi hj hup hne')
    (fun u hup hut => withTable_page hi hup hut) (fun g m hgp _ _ => ?_) (fun va hidx hm _ => ?_)
  · rw [withTable_refcount hi, Function.update_of_ne hgp]
  · subst hidx
    rw [viewAt_none hz, viewAt_some (by rw [withTable_entry_self hi]; exact Ne.symm hzp),
      withTable_entry_self hi, Pte.mk'_frame]
    obtain ⟨h₁, h₂, h₃⟩ := viewAt_empty (b := b) (s := s.withTable b t (pdx (l + 1) va) pi)
      (t := pi) (l := l) fun j hj => withTable_entry_new hi hj hne
    refine ⟨h₁, ?_, ?_, nofun⟩
    · exact h₂.trans (withTable_page hi hzp hzt)
    · simp [View.under, h₃]

/-- Copying a shared lower table. -/
theorem TableCopied.tame (hc : TableCopied b G s t i l low pi s') (h : Sound b G s)
    (hu : (G.kind t).user i = true) (hl : (G.kind t).level = some (l + 1)) (hL : l + 1 ≤ L)
    (hf : G.kind pi = .free) (hlow : (s.entry t i).frame = low) (hz : low ≠ b.zero) :
    Unseen b L G s (G.setKind pi (.table l)) s' := by
  have hs : slot b G s t i = some low :=
    slot_eq_some.2 ⟨hu, by rw [h.off]; nofun, by rw [hlow]; exact hz, hlow⟩
  have hll : (G.kind low).level = some l := by
    rw [h.typed hs]
    exact Kind.kid_level hl i
  have hlt : low ≠ t := by
    rintro rfl
    rw [hl] at hll
    have := Option.some.inj hll
    omega
  have hlp : low ≠ pi := by
    rintro rfl
    rw [hf] at hll
    cases hll
  have hpz : pi ≠ b.zero := by
    intro e
    have := h.zero
    rw [← e, hf] at this
    cases this
  refine h.tame_attach hu hl hL hf hc.entry hc.same hc.page (fun g m hgp hg hm => ?_)
    (fun va hidx hm ih => ?_)
  · have hgl : g ≠ low := by
      rintro rfl
      rw [hg] at hll
      have := Option.some.inj hll
      omega
    have hzero : tableCount 512 (slot b G s) low g = 0 := by
      refine Finset.sum_eq_zero fun j _ => if_neg fun hj => ?_
      have := Kind.level_of_kid (slot_eq_some.1 hj).1 (by rw [← h.typed hj]; exact hg)
      rw [hll] at this
      have := Option.some.inj this
      omega
    rw [hc.refs g hgp hgl, hzero, add_zero]
  · subst hidx
    obtain ⟨hll', hml⟩ := kid_of_slot h.toGood hl hm hs
    have hk := ih low va hll' hml
    have hcopy : View.Keeps (viewAt b s' va l low) (viewAt b s' va l pi) := by
      refine keeps_copy fun j hj => ?_
      rw [hc.copy j hj, hc.same low j hj hlp (.inl hlt)]
    have hwr : (viewAt b s' va l pi).wr = false := by
      by_contra hn
      have := viewAt_wr (show (viewAt b s' va l pi).wr = true by simpa using hn)
      rw [hc.copy _ (pdx_lt _ _), Pte.clearW_isW] at this
      cases this
    rw [viewAt_some (by rw [hlow]; exact hz), viewAt_some (by rw [hc.entry]; exact hpz), hlow,
      hc.entry, Pte.mk'_frame]
    have hk' := hk.trans hcopy
    refine ⟨hk'.leaf, hk'.page, ?_, ?_⟩
    · simp [View.under, hwr]
    · simp only [View.under, tableFlags_isP, Bool.true_and, Bool.and_eq_true]
      exact fun e => hk'.up e.2

/-! ## Out of pages -/

/-- The state after `mem_alloc` has found no page. -/
def Mem.dried (s : Mem) : Mem := { s with dry := true }

theorem Sound.dried (h : Sound b G s) : Sound b G s.dried := by
  have hg : Good b G s.dried := ⟨h.toCounted.congr (fun _ _ _ => rfl) (fun _ _ => rfl) rfl,
    h.toListed.congr (fun _ => Iff.rfl) (fun _ _ => rfl) rfl rfl⟩
  refine ⟨⟨hg, h.off⟩, hg.cow (G := G) (s := s) (fun _ => id) (fun _ _ _ hs hW => .inl ⟨hs, hW⟩)
    (fun f hf _ hr => (h.single f hf hr).le) fun _ _ => h.entries⟩

theorem viewAt_dried : viewAt b s.dried va l t = viewAt b s va l t := by
  induction l generalizing t with
  | zero => rfl
  | succ l ih =>
    by_cases hz : (s.entry t (pdx (l + 1) va)).frame = b.zero
    · rw [viewAt_none hz, viewAt_none (s := s.dried) hz]
      rfl
    · rw [viewAt_some hz, viewAt_some (s := s.dried) hz, ← ih]
      rfl

theorem tame_dried : Unseen b L G s G s.dried :=
  ⟨fun _ _ => rfl, fun _ h => .inl h, rfl, fun _ _ _ => rfl, fun _ _ _ _ => rfl, fun _ _ _ _ => rfl,
    fun _ _ _ _ _ => by rw [viewAt_dried]; exact View.Keeps.refl _⟩

/-! ## One level -/

/-- The first entry of a root always leads to a table of its own. -/
theorem Sound.not_pinned (h : Sound b G s)
    (hw : (s.entry t i).isW = false ∨ (s.entry t i).frame = b.zero) :
    G.kind t = .root → i ≠ 0 := by
  rintro hr rfl
  obtain ⟨h₁, h₂, -⟩ := h.pinned t hr
  rcases hw with hw | hw
  · rw [h₂] at hw
    cases hw
  · exact h₁ hw

section

variable {N : Set Note} {E : Panic → Mem → Prop} {writing : Bool}

/-- What the first part of `pmap_walk_level` leaves. -/
theorem walkLower_ends (hv : ∀ pi, s.freelist = some pi → pi ∈ b.avail) :
    Ends N (walkLower b T i writing) s (fun r s' =>
      (r = true ∧ (s.entry T i).frame ≠ b.zero ∧ s' = s.setEntry T i ((s.entry T i).or pteP)) ∨
      (r = true ∧ (s.entry T i).frame = b.zero ∧ writing = true ∧
        ∃ pi, s.freelist = some pi ∧ s' = s.withTable b T i pi) ∨
      (r = false ∧ (s.entry T i).frame = b.zero ∧
        if writing then s' = s.dried else s' = s)) E := by
  unfold walkLower readEntry writeEntry writePage
  refine ends_bind (ends_bind_get (ends_pure.2 (ends_ite (fun hz => ?_) fun hz => ?_)))
  · exact ends_bind (ends_modify (ends_pure.2 (.inl ⟨rfl, hz, rfl⟩)))
  · have hz : (s.entry T i).frame = b.zero := not_not.1 hz
    cases writing with
    | false => exact ends_pure.2 (.inr (.inr ⟨rfl, hz, rfl⟩))
    | true =>
      refine ends_bind (ends_memAlloc (fun _ => ?_) fun pi hpi => ?_)
      · exact ends_pure.2 (.inr (.inr ⟨rfl, hz, rfl⟩))
      · refine ends_bind (ends_memIncref (hv pi hpi) (ends_bind (ends_modify (ends_bind
          (ends_modify (ends_pure.2 ?_))))))
        exact .inr (.inl ⟨rfl, hz, rfl, pi, hpi, rfl⟩)

/-- What the second part leaves. -/
theorem Sound.walkUnshare_ends (h : Sound b G s) (hu : (G.kind T).user i = true)
    (hl : (G.kind T).level = some (l + 1)) (hlow : (s.entry T i).frame = low) (hz : low ≠ b.zero) :
    Ends N (walkUnshare b (l + 1) T i) s (fun r s' =>
      (r = true ∧ (s.entry T i).isW = true ∧ s' = s) ∨
      (r = true ∧ (s.entry T i).isW = false ∧ s.refcount low = 1 ∧
        s' = (s.setPage low fun j => (s.page low j).clearW).setEntry T i (.mk' low tableFlags)) ∨
      (r = true ∧ (s.entry T i).isW = false ∧ s.refcount low ≠ 1 ∧
        ∃ pi, G.kind pi = .free ∧ TableCopied b G s T i l low pi s') ∨
      (r = false ∧ s' = s.dried)) E := by
  unfold walkUnshare readEntry
  refine ends_bind (ends_bind_get (ends_pure.2 ?_))
  simp only [hlow]
  refine ends_ite (fun hW => ends_pure.2 (.inl ⟨rfl, hW, rfl⟩)) fun hW => ends_bind_get ?_
  have hW : (s.entry T i).isW = false := by simpa using hW
  unfold writeEntry writePage
  refine ends_ite (fun hr => ?_) fun hr => ?_
  · exact ends_bind (ends_modify (ends_bind (ends_modify (ends_pure.2
      (.inr (.inl ⟨rfl, hW, hr, rfl⟩))))))
  · refine ends_bind (ends_memAlloc (fun _ => ?_) fun pi hpi => ?_)
    · exact ends_pure.2 (.inr (.inr (.inr ⟨rfl, rfl⟩)))
    · have hp := h.not_pinned (.inl hW)
      refine h.copied hu (Kind.kid_eq_below hl hp) hlow hz hr hpi hp fun s' hfree hc => ?_
      exact ends_pure.2 (.inr (.inr (.inl ⟨rfl, hW, hr, pi, hfree, hc⟩)))

end

/-- No table on the way is shared. -/
def Unshared (b : Boot) (s : Mem) (va : ℕ) : ℕ → Frame → Prop
  | 0, _ => True
  | l + 1, T => (s.entry T (pdx (l + 1) va)).frame = b.zero ∨
      s.refcount (s.entry T (pdx (l + 1) va)).frame = 1 ∧
        Unshared b s va l (s.entry T (pdx (l + 1) va)).frame

theorem Unshared.congr (h : Unshared b s va l T) (hS : Sound b G s)
    (hT : (G.kind T).level = some l) (hm : (G.kind T).maps va)
    (he : ∀ u j, j < 512 → (s'.entry u j).frame = (s.entry u j).frame)
    (hr : ∀ g, G.kind g ≠ .free → s'.refcount g = s.refcount g) : Unshared b s' va l T := by
  induction l generalizing T with
  | zero => trivial
  | succ l ih =>
    unfold Unshared at h ⊢
    rw [he T _ (pdx_lt _ _)]
    rcases h with h | ⟨h₁, h₂⟩
    · exact .inl h
    · by_cases hz : (s.entry T (pdx (l + 1) va)).frame = b.zero
      · exact .inl hz
      · obtain ⟨hl', hm'⟩ := kid_of_slot hS.toGood hT hm (hS.slot_maps hT hm hz)
        exact .inr ⟨by rw [hr _ (Kind.ne_free hl'), h₁], ih h₂ hl' hm'⟩

/-- What one level of a walk leaves when it goes on: the entry `i` of `T` leads to a table of its
own. -/
structure Entered (b : Boot) (l : ℕ) (T : Frame) (i : ℕ) (G : Ghost) (s : Mem) (G' : Ghost)
    (s' : Mem) : Prop where
  sound : Sound b G' s'
  tame : Unseen b (l + 1) G s G' s'
  ne_zero : (s'.entry T i).frame ≠ b.zero
  isW : (s'.entry T i).isW = true
  isP : (s'.entry T i).isP = true
  fresh : (s.entry T i).isW = false → s'.refcount (s'.entry T i).frame = 1
  kept : (s.entry T i).isW = true → (s'.entry T i).frame = (s.entry T i).frame ∧
    s'.refcount (s.entry T i).frame = s.refcount (s.entry T i).frame
  data : 0 < l → ∀ g, G.kind g = .data ∨ G.kind g = .held → s'.refcount g = s.refcount g
  dry : s'.dry = s.dry
  single : (s.entry T i).frame = b.zero ∨ s.refcount (s.entry T i).frame = 1 →
    ∀ g, G.kind g ≠ .free → s'.refcount g = s.refcount g
  below : ∀ va, (G.kind T).maps va → pdx (l + 1) va = i → Unshared b s va (l + 1) T →
    Unshared b s' va l (s'.entry T i).frame
  same : ∀ u j, j < 512 → (G.kind u).level = some (l + 1) → (u ≠ T ∨ j ≠ i) →
    s'.entry u j = s.entry u j

theorem or_pteP_isP (e : Pte) : (e.or pteP).isP = true := by
  simp [Pte.or, Pte.isP, pteP]

theorem Pte.Open.or_pteP (h : e.Open) : (e.or pteP).Open := by
  refine ⟨or_pteP_isP e, ?_⟩
  have hU : e.flags.getLsbD 2 = true := h.isU
  simp only [Pte.or, Pte.isU, BitVec.getLsbD_or, hU, Bool.true_or]

section

variable {N : Set Note} {E : Panic → Mem → Prop}

/-- The entry has an empty table after the first part. -/
theorem Sound.entered_new (h : Sound b G s) (hu : (G.kind T).user i = true)
    (hl : (G.kind T).level = some (l + 1)) (hz : (s.entry T i).frame = b.zero)
    (hf : s.freelist = some pi) :
    Entered b l T i G s (G.setKind pi (.table l)) (s.withTable b T i pi) := by
  have hi := Kind.user_lt hu
  have hp := h.not_pinned (t := T) (i := i) (.inr hz)
  have hl2 : l ≤ 2 := by
    cases hk : G.kind T with
    | table m =>
      rw [hk] at hl
      have := h.levels T m hk
      have : m = l + 1 := Option.some.inj hl
      omega
    | low =>
      rw [hk] at hl
      have : 2 = l + 1 := Option.some.inj hl
      omega
    | root =>
      rw [hk] at hl
      have : 3 = l + 1 := Option.some.inj hl
      omega
    | _ => rw [hk] at hl; cases hl
  obtain ⟨hfree, hS⟩ := h.newTable hu (Kind.kid_eq_below hl hp) hl2 hz hf hp
  have hr : s.refcount pi = 0 := (h.toGood.taken hf).2.2.1
  have hne : ∀ g, G.kind g ≠ .free → g ≠ pi := by
    rintro g hg rfl
    exact hg hfree
  have hrefs : ∀ g, G.kind g ≠ .free → (s.withTable b T i pi).refcount g = s.refcount g := by
    intro g hg
    rw [withTable_refcount hi, Function.update_of_ne (hne g hg)]
  have hTp : T ≠ pi := hne T (Kind.ne_free hl)
  have hne' : ∀ u, (G.kind u).level = some (l + 1) → u ≠ pi := fun u hu' => hne u (Kind.ne_free hu')
  have hpz : pi ≠ b.zero := by
    intro e
    have := h.zero
    rw [← e, hfree] at this
    cases this
  have he : (s.withTable b T i pi).entry T i = .mk' pi tableFlags := withTable_entry_self hi
  refine ⟨hS, h.tame_newTable hu hl le_rfl hfree hz, ?_, ?_, ?_, ?_, ?_, ?_, rfl, fun _ => hrefs, ?_,
    fun u j hj hu' hne => withTable_entry_ne hi hj (hne' u hu') hne⟩
  · rw [he]
    exact hpz
  · rw [he, tableFlags_isW]
  · rw [he, tableFlags_isP]
  · intro _
    rw [he, Pte.mk'_frame, withTable_refcount hi, Function.update_self, hr]
    rfl
  · intro hW
    exact absurd hz (h.zeroRO T i hu hW)
  · intro _ g hg
    exact hrefs g (by rcases hg with hg | hg <;> rw [hg] <;> nofun)
  · intro va _ _ _
    rw [he, Pte.mk'_frame]
    cases l with
    | zero => trivial
    | succ l => exact .inl (by rw [withTable_entry_new hi (pdx_lt _ _) hTp, pteZero_frame])

/-- The entry leads to a table already, which is made its own. -/
theorem Sound.entered_old (h : Sound b G s) (hu : (G.kind T).user i = true)
    (hl : (G.kind T).level = some (l + 1)) (hz : (s.entry T i).frame ≠ b.zero) :
    Ends N (walkUnshare b (l + 1) T i) (s.setEntry T i ((s.entry T i).or pteP)) (fun r s' =>
      (r = true ∧ ∃ G', Entered b l T i G s G' s') ∨
      (r = false ∧ ∃ G', Sound b G' s' ∧ Unseen b (l + 1) G s G' s' ∧ s'.dry = true ∧
        (∀ g, G.kind g ≠ .free → s'.refcount g = s.refcount g) ∧ (s'.entry T i).frame ≠ b.zero ∧
        ∀ u j, j < 512 → (u ≠ T ∨ j ≠ i) → s'.entry u j = s.entry u j)) E := by
  have hi := Kind.user_lt hu
  set low := (s.entry T i).frame with hlow
  set s₁ := s.setEntry T i ((s.entry T i).or pteP) with hs₁
  have he₁ : s₁.entry T i = (s.entry T i).or pteP := setEntry_entry_self hi
  have hpin : G.kind T = .root → i = 0 → ((s.entry T i).or pteP).isW = true := by
    rintro hr rfl
    rw [Pte.or_pteP_isW]
    exact (h.pinned T hr).2.1
  have h₁ : Sound b G s₁ := h.setFlags hu rfl (by rw [Pte.or_pteP_isW]; exact id) hpin
    fun _ _ => Pte.Open.or_pteP
  have ht₁ : Unseen b (l + 1) G s G s₁ := h.tame_setFlags hu hl le_rfl rfl
    (by rw [Pte.or_pteP_isW]; exact id) (fun _ => or_pteP_isP _) (fun e => by cases e)
  have hr₁ : s₁.refcount = s.refcount := setEntry_refcount hi
  have hf₁ : ∀ u j, j < 512 → (s₁.entry u j).frame = (s.entry u j).frame := by
    intro u j hj
    by_cases hne : u ≠ T ∨ j ≠ i
    · rw [hs₁, setEntry_entry_ne hi hj hne]
    · obtain ⟨rfl, rfl⟩ : u = T ∧ j = i := by
        push Not at hne
        exact hne
      rw [he₁]
      rfl
  have hs : slot b G s T i = some low :=
    slot_eq_some.2 ⟨hu, by rw [h.off]; nofun, hz, rfl⟩
  have hkl : (G.kind low).level = some l := by
    rw [h.typed hs]
    exact Kind.kid_level hl i
  have hbelow : ∀ {s' : Mem} va, (∀ u j, j < 512 → (s'.entry u j).frame = (s.entry u j).frame) →
      (∀ g, G.kind g ≠ .free → s'.refcount g = s.refcount g) → (G.kind T).maps va →
      pdx (l + 1) va = i → Unshared b s va (l + 1) T → Unshared b s' va l low := by
    rintro s' va hf hr hm rfl hun
    obtain ⟨hl', hm'⟩ := kid_of_slot h.toGood hl hm hs
    rcases hun with hun | ⟨-, hun⟩
    · exact absurd hun hz
    · exact hun.congr h hl' hm' hf hr
  have hsame₁ : ∀ u j, j < 512 → (u ≠ T ∨ j ≠ i) → s₁.entry u j = s.entry u j := fun u j hj hne => by
    rw [hs₁, setEntry_entry_ne hi hj hne]
  refine (h₁.walkUnshare_ends hu hl (show (s₁.entry T i).frame = low by rw [he₁]; rfl) hz).imp ?_
  rw [he₁, Pte.or_pteP_isW, hr₁]
  rintro r s' (⟨rfl, hW, rfl⟩ | ⟨rfl, hW, hr, rfl⟩ | ⟨rfl, hW, hr, pi, hfree, hc⟩ | ⟨rfl, rfl⟩)
  · refine .inl ⟨rfl, G, h₁, ht₁, ?_, ?_, ?_, ?_, ?_, ?_, ?_, ?_, ?_, fun u j hj _ => hsame₁ u j hj⟩
    · rw [he₁]
      exact hz
    · rw [he₁, Pte.or_pteP_isW, hW]
    · rw [he₁]
      exact or_pteP_isP _
    · intro e
      rw [hW] at e
      cases e
    · intro _
      rw [he₁, hr₁]
      exact ⟨rfl, rfl⟩
    · intro _ g _
      rw [hr₁]
    · rw [hs₁, setEntry_dry hi]
    · intro _ g _
      rw [hr₁]
    · intro va hm hi' hun
      rw [he₁]
      exact hbelow va hf₁ (fun g _ => by rw [hr₁]) hm hi' hun
  · have hlow₁ : (s₁.entry T i).frame = low := by
      rw [he₁]
      rfl
    have hlT : low ≠ T := by
      intro e
      rw [e, hl] at hkl
      have := Option.some.inj hkl
      omega
    set s₂ := (s₁.setPage low fun j => (s₁.page low j).clearW).setEntry T i (.mk' low tableFlags)
      with hs₂
    have he₂ : s₂.entry T i = .mk' low tableFlags := setEntry_entry_self hi
    have hr₂ : s₂.refcount = s.refcount := by
      rw [hs₂, setEntry_refcount hi, ← hr₁]
      rfl
    have hf₂ : ∀ u j, j < 512 → (s₂.entry u j).frame = (s.entry u j).frame := by
      intro u j hj
      by_cases hne : u ≠ T ∨ j ≠ i
      · rw [hs₂, setEntry_entry_ne hi hj hne, ← hf₁ u j hj]
        by_cases hul : u = low
        · rw [hul, setPage_entry_self hj, entry_page hj]
          rfl
        · rw [setPage_entry_ne hj hul]
      · obtain ⟨rfl, rfl⟩ : u = T ∧ j = i := by
          push Not at hne
          exact hne
        rw [he₂]
        rfl
    refine .inl ⟨rfl, G, h₁.own hu hl hlow₁ hz (by rw [hr₁]; exact hr),
      ht₁.trans (h₁.tame_own hu hl le_rfl hlow₁ hz), ?_, ?_, ?_, ?_, ?_, ?_, ?_, ?_, ?_,
      fun u j hj hul hne => ?_⟩
    · rw [he₂]
      exact hz
    · rw [he₂, tableFlags_isW]
    · rw [he₂, tableFlags_isP]
    · intro _
      rw [he₂, hr₂]
      exact hr
    · intro e
      rw [hW] at e
      cases e
    · intro _ g _
      rw [hr₂]
    · rw [hs₂, setEntry_dry hi]
      change s₁.dry = s.dry
      rw [hs₁, setEntry_dry hi]
    · intro _ g _
      rw [hr₂]
    · intro va hm hi' hun
      rw [he₂]
      exact hbelow va hf₂ (fun g _ => by rw [hr₂]) hm hi' hun
    · have hlow : u ≠ low := by
        rintro rfl
        rw [hul] at hkl
        have := Option.some.inj hkl
        omega
      rw [hs₂, setEntry_entry_ne hi hj hne, setPage_entry_ne hj hlow, hsame₁ u j hj hne]
  · have hlow₁ : (s₁.entry T i).frame = low := by
      rw [he₁]
      rfl
    refine .inl ⟨rfl, _, hc.sound, ht₁.trans (hc.tame h₁ hu hl le_rfl hfree hlow₁ hz), ?_, ?_, ?_, ?_,
      ?_, ?_, ?_, ?_, ?_, fun u j hj hul hne => ?_⟩
    · rw [hc.entry, Pte.mk'_frame]
      intro e
      have := h.zero
      rw [← e, hfree] at this
      cases this
    · rw [hc.entry, tableFlags_isW]
    · rw [hc.entry, tableFlags_isP]
    · intro _
      rw [hc.entry, Pte.mk'_frame, hc.ref]
    · intro e
      rw [hW] at e
      cases e
    · intro hpos g hg
      have hnone : (G.kind g).level = none := by
        rcases hg with hg | hg <;> rw [hg] <;> rfl
      have hgp : g ≠ pi := by
        rintro rfl
        rw [hfree] at hg
        rcases hg with hg | hg <;> cases hg
      have hgl : g ≠ low := by
        rintro rfl
        rw [hkl] at hnone
        cases hnone
      have hzero : tableCount 512 (slot b G s₁) low g = 0 := by
        refine Finset.sum_eq_zero fun j _ => if_neg fun hj => ?_
        obtain ⟨l', rfl⟩ : ∃ l', l = l' + 1 := ⟨l - 1, by omega⟩
        have := Kind.kid_level hkl j
        rw [← h₁.typed hj, hnone] at this
        cases this
      rw [hc.refs g hgp hgl, hzero, add_zero, hr₁]
    · rw [hc.dry, hs₁, setEntry_dry hi]
    · rintro (e | e)
      · exact absurd e hz
      · exact absurd e hr
    · rintro va _ rfl (e | ⟨e, -⟩)
      · exact absurd e hz
      · exact absurd e hr
    · have hup : u ≠ pi := by
        rintro rfl
        rw [hfree] at hul
        cases hul
      rw [hc.same u j hj hup hne, hsame₁ u j hj hne]
  · exact .inr ⟨rfl, G, h₁.dried, ht₁.trans tame_dried, rfl, fun g _ => by
      rw [show s₁.dried.refcount = s₁.refcount from rfl, hr₁], (hf₁ T i hi).symm ▸ hz, hsame₁⟩

end

/-! ## The walk -/

/-- The entries on the way are present and writeable; the last table is `t`. -/
def OwnPath (b : Boot) (s : Mem) (va : ℕ) : ℕ → Frame → Frame → Prop
  | 0, T, t => T = t
  | l + 1, T, t => (s.entry T (pdx (l + 1) va)).frame ≠ b.zero ∧
      (s.entry T (pdx (l + 1) va)).isW = true ∧ (s.entry T (pdx (l + 1) va)).isP = true ∧
      OwnPath b s va l (s.entry T (pdx (l + 1) va)).frame t

/-- The view at the end of such a way is the view from its beginning. -/
theorem OwnPath.viewAt (h : OwnPath b s va l T t) : viewAt b s va l T = viewAt b s va 0 t := by
  induction l generalizing T with
  | zero => rw [show T = t from h]
  | succ l ih =>
    obtain ⟨hz, hW, hP, h⟩ := h
    rw [viewAt_some hz, View.under_self hW hP, ih h]

/-- What a walk to `la` leaves, with the result `r`. -/
structure Went (b : Boot) (L : ℕ) (T : Frame) (la : ℕ) (G : Ghost) (s : Mem)
    (r : Option (Frame × ℕ)) (G' : Ghost) (s' : Mem) : Prop where
  sound : Sound b G' s'
  tame : Unseen b L G s G' s'
  /-- Without a table the reference counts of pages are as they were. -/
  fails : r = none → s'.dry = true ∧
    ∀ g, G.kind g = .data ∨ G.kind g = .held → s'.refcount g = s.refcount g
  leaf : ∀ t i, r = some (t, i) → s'.dry = s.dry ∧ i = pdx 0 la ∧ (G'.kind t).level = some 0 ∧
    OwnPath b s' la L T t
  unshared : Unshared b s la L T → ∀ g, G.kind g ≠ .free → s'.refcount g = s.refcount g

/-- What `pmap_walk_level` leaves: if it does not fail, the first entry on the way leads to a table of
its own, or was writeable and leads where it did. -/
structure Walked (b : Boot) (L : ℕ) (T : Frame) (la : ℕ) (G : Ghost) (s : Mem)
    (r : Option (Frame × ℕ)) (G' : Ghost) (s' : Mem) : Prop extends Went b L T la G s r G' s' where
  fresh : r ≠ none → (s.entry T (pdx L la)).isW = false →
    s'.refcount (s'.entry T (pdx L la)).frame = 1
  kept : r ≠ none → (s.entry T (pdx L la)).isW = true →
    (s'.entry T (pdx L la)).frame = (s.entry T (pdx L la)).frame ∧
    s'.refcount (s.entry T (pdx L la)).frame = s.refcount (s.entry T (pdx L la)).frame
  stays : (s.entry T (pdx L la)).frame ≠ b.zero → (s'.entry T (pdx L la)).frame ≠ b.zero
  same : ∀ u j, j < 512 → (G.kind u).level = some L → (u ≠ T ∨ j ≠ pdx L la) →
    s'.entry u j = s.entry u j

section

variable {N : Set Note} {E : Panic → Mem → Prop} {la : ℕ}

/-- The walk goes on from the table that the entry leads to now. -/
theorem Entered.walked {r : Option (Frame × ℕ)} (h : Entered b l T (pdx (l + 1) la) G s G₁ s₁)
    (hl : (G.kind T).level = some (l + 1)) (hm : (G.kind T).maps la)
    (hw : Went b l (s₁.entry T (pdx (l + 1) la)).frame la G₁ s₁ r G' s') (hpos : r = none → 0 < l) :
    Walked b (l + 1) T la G s r G' s' := by
  have hT : (G₁.kind T).level = some (l + 1) := by
    rw [h.tame.kind T (Kind.ne_free hl)]
    exact hl
  have hm₁ : (G₁.kind T).maps la := by
    rw [h.tame.kind T (Kind.ne_free hl)]
    exact hm
  have he : s'.entry T (pdx (l + 1) la) = s₁.entry T (pdx (l + 1) la) :=
    entry_congr (pdx_lt _ _) (hw.tame.high T (l + 1) hT (by omega))
  have hslot := h.sound.slot_maps hT hm₁ h.ne_zero
  obtain ⟨hl', -⟩ := kid_of_slot h.sound.toGood hT hm₁ hslot
  have href := hw.tame.refs _ l hl' le_rfl
  refine ⟨⟨hw.sound, h.tame.trans (hw.tame.mono (by omega)), fun hr => ⟨(hw.fails hr).1, fun g hg => ?_⟩,
    fun t i hr => ?_, fun hun g hg => ?_⟩, fun _ hW => ?_, fun _ hW => ?_, fun _ => ?_,
    fun u j hj hul hne => ?_⟩
  · have hf : G.kind g ≠ .free := by
      rcases hg with hg | hg <;> rw [hg] <;> nofun
    rw [(hw.fails hr).2 g (by rw [h.tame.kind g hf]; exact hg), h.data (hpos hr) g hg]
  · obtain ⟨h₁, h₂, h₃, h₄⟩ := hw.leaf t i hr
    refine ⟨h₁.trans h.dry, h₂, h₃, ?_⟩
    unfold OwnPath
    rw [he]
    exact ⟨h.ne_zero, h.isW, h.isP, h₄⟩
  · have hsingle : (s.entry T (pdx (l + 1) la)).frame = b.zero ∨
        s.refcount (s.entry T (pdx (l + 1) la)).frame = 1 := by
      rcases hun with e | e
      · exact .inl e
      · exact .inr e.1
    have hg₁ : G₁.kind g ≠ .free := by
      rw [h.tame.kind g hg]
      exact hg
    rw [hw.unshared (h.below la hm rfl hun) g hg₁, h.single hsingle g hg]
  · rw [he, href]
    exact h.fresh hW
  · obtain ⟨h₁, h₂⟩ := h.kept hW
    rw [he, h₁]
    refine ⟨rfl, ?_⟩
    rw [← h₂, ← h₁, href]
  · rw [he]
    exact h.ne_zero
  · rw [← h.same u j hj hul hne]
    refine entry_congr hj (hw.tame.high u (l + 1) ?_ (by omega))
    rw [h.tame.kind u (Kind.ne_free hul)]
    exact hul

/-- A walk that fails at its first level. -/
theorem walked_none (hS : Sound b G' s') (ht : Unseen b (l + 1) G s G' s') (hd : s'.dry = true)
    (hr : ∀ g, G.kind g ≠ .free → s'.refcount g = s.refcount g)
    (hz : (s.entry T (pdx (l + 1) la)).frame ≠ b.zero → (s'.entry T (pdx (l + 1) la)).frame ≠ b.zero)
    (he : ∀ u j, j < 512 → (G.kind u).level = some (l + 1) → (u ≠ T ∨ j ≠ pdx (l + 1) la) →
      s'.entry u j = s.entry u j) :
    Walked b (l + 1) T la G s none G' s' :=
  ⟨⟨hS, ht, fun _ => ⟨hd, fun g hg => hr g (by rcases hg with hg | hg <;> rw [hg] <;> nofun)⟩, nofun,
    fun _ => hr⟩, fun h => absurd rfl h, fun h => absurd rfl h, hz, he⟩

/-- One level of the walk, given what the rest does from the table that the entry leads to. -/
theorem walk_level (hS : Sound b G s) (hl : (G.kind T).level = some (l + 1))
    (hm : (G.kind T).maps la)
    (hrest : ∀ (G₁ : Ghost) (s₁ : Mem) (low : Frame), Sound b G₁ s₁ → (G₁.kind low).level = some l →
      (G₁.kind low).maps la →
      Ends N (if l = 0 then pure (some (low, pdx 0 la)) else pmapWalkLevel b l low la true) s₁
        (fun r s' => (∃ G', Went b l low la G₁ s₁ r G' s') ∧ (r = none → 0 < l)) E) :
    Ends N (pmapWalkLevel b (l + 1) T la true) s
      (fun r s' => ∃ G', Walked b (l + 1) T la G s r G' s') E := by
  have hu := Kind.maps_user hl hm
  have hi := pdx_lt (l + 1) la
  -- the rest of the walk, after the first level
  have hgo : ∀ G₁ s₁, Entered b l T (pdx (l + 1) la) G s G₁ s₁ →
      Ends N (do
        let e ← readEntry T (pdx (l + 1) la)
        if l = 0 then pure (some (e.frame, pdx 0 la)) else pmapWalkLevel b l e.frame la true) s₁
        (fun r s' => ∃ G', Walked b (l + 1) T la G s r G' s') E := by
    intro G₁ s₁ h
    have hT : (G₁.kind T).level = some (l + 1) := by
      rw [h.tame.kind T (Kind.ne_free hl)]
      exact hl
    have hm₁ : (G₁.kind T).maps la := by
      rw [h.tame.kind T (Kind.ne_free hl)]
      exact hm
    obtain ⟨hl', hm'⟩ := kid_of_slot h.sound.toGood hT hm₁ (h.sound.slot_maps hT hm₁ h.ne_zero)
    unfold readEntry
    refine ends_bind (ends_bind_get (ends_pure.2 ?_))
    refine (hrest G₁ s₁ _ h.sound hl' hm').imp ?_
    rintro r s' ⟨⟨G', hw⟩, hpos⟩
    exact ⟨G', h.walked hl hm hw hpos⟩
  unfold pmapWalkLevel
  refine ends_bind ((walkLower_ends fun pi hpi => (hS.toGood.taken hpi).2.1).imp ?_)
  rintro r s' (⟨rfl, hz, rfl⟩ | ⟨rfl, hz, -, pi, hpi, rfl⟩ | ⟨rfl, hz, hd⟩)
  · rw [if_neg (by simp), if_pos rfl]
    refine ends_bind ((hS.entered_old hu hl hz).imp ?_)
    rintro r s' (⟨rfl, G', h⟩ | ⟨rfl, G', h₁, h₂, h₃, h₄, h₅, h₆⟩)
    · exact hgo G' s' h
    · change Ends N (pure none) s' _ E
      exact ends_pure.2 ⟨G', walked_none h₁ h₂ h₃ h₄ (fun _ => h₅) fun u j hj _ => h₆ u j hj⟩
  · have h := hS.entered_new hu hl hz hpi
    have he : (s.withTable b T (pdx (l + 1) la) pi).entry T (pdx (l + 1) la) = .mk' pi tableFlags :=
      withTable_entry_self hi
    rw [if_neg (by simp), if_pos rfl]
    have hl' : ((G.setKind pi (.table l)).kind T).level = some (l + 1) := by
      rw [h.tame.kind T (Kind.ne_free hl)]
      exact hl
    have hu' : ((G.setKind pi (.table l)).kind T).user (pdx (l + 1) la) = true := by
      rw [h.tame.kind T (Kind.ne_free hl)]
      exact hu
    refine ends_bind ((h.sound.walkUnshare_ends hu' hl' rfl h.ne_zero).imp ?_)
    rintro r s' (⟨rfl, -, rfl⟩ | ⟨-, hW, -⟩ | ⟨-, hW, -⟩ | ⟨rfl, rfl⟩)
    · exact hgo _ _ h
    · rw [h.isW] at hW
      cases hW
    · rw [h.isW] at hW
      cases hW
    · change Ends N (pure none) _ _ E
      exact ends_pure.2 ⟨_, walked_none h.sound.dried (h.tame.trans tame_dried) rfl
        (fun g hg => h.single (.inl hz) g hg) (fun hn => absurd hz hn) h.same⟩
  · rw [if_pos (by simp)]
    rw [if_pos rfl] at hd
    subst hd
    exact ends_pure.2 ⟨G, walked_none hS.dried tame_dried rfl (fun _ _ => rfl) (fun hn => absurd hz hn)
      fun _ _ _ _ _ => rfl⟩

/-- **The walk**: all views are kept, and after it the tables on the way are present, writeable and no
one else's. -/
theorem pmapWalkLevel_ends (hS : Sound b G s) (hl : (G.kind T).level = some (l + 1))
    (hm : (G.kind T).maps la) :
    Ends N (pmapWalkLevel b (l + 1) T la true) s
      (fun r s' => ∃ G', Walked b (l + 1) T la G s r G' s') E := by
  induction l generalizing G s T with
  | zero =>
    refine walk_level hS hl hm fun G₁ s₁ low h₁ hl₁ _ => ?_
    rw [if_pos rfl]
    refine ends_pure.2 ⟨⟨G₁, h₁, Unseen.refl _ _ _, nofun, ?_, fun _ _ _ => rfl⟩, nofun⟩
    rintro t i hr
    obtain ⟨rfl, rfl⟩ := Prod.mk.inj (Option.some.inj hr)
    exact ⟨rfl, rfl, hl₁, rfl⟩
  | succ l ih =>
    refine walk_level hS hl hm fun G₁ s₁ low h₁ hl₁ hm₁ => ?_
    rw [if_neg (by omega)]
    refine (ih h₁ hl₁ hm₁).imp ?_
    rintro r s' ⟨G', h⟩
    exact ⟨⟨G', h.toWent⟩, fun _ => by omega⟩

/-- A walk that does not write makes entries present, and nothing else. -/
theorem pmapWalkLevel_read_ends (hS : Sound b G s) (hl : (G.kind T).level = some (l + 1))
    (hm : (G.kind T).maps la) :
    Ends N (pmapWalkLevel b (l + 1) T la false) s
      (fun _ s' => Sound b G s' ∧ Unseen b (l + 1) G s G s' ∧ s'.refcount = s.refcount ∧
        s'.dry = s.dry) E := by
  have hpart : ∀ {l : ℕ} {s : Mem} {T : Frame}, Sound b G s → (G.kind T).level = some (l + 1) →
      (G.kind T).maps la → (s.entry T (pdx (l + 1) la)).frame ≠ b.zero →
      Sound b G (s.setEntry T (pdx (l + 1) la) ((s.entry T (pdx (l + 1) la)).or pteP)) ∧
      Unseen b (l + 1) G s G
        (s.setEntry T (pdx (l + 1) la) ((s.entry T (pdx (l + 1) la)).or pteP)) := by
    intro l s T hS hl hm hz
    have hu := Kind.maps_user hl hm
    refine ⟨hS.setFlags hu rfl (by rw [Pte.or_pteP_isW]; exact id) ?_ (fun _ _ => Pte.Open.or_pteP),
      hS.tame_setFlags hu hl le_rfl rfl (by rw [Pte.or_pteP_isW]; exact id) (fun _ => or_pteP_isP _) nofun⟩
    intro hr hi
    rw [Pte.or_pteP_isW, hi]
    exact (hS.pinned T hr).2.1
  induction l generalizing s T with
  | zero =>
    unfold pmapWalkLevel
    refine ends_bind ((walkLower_ends fun pi hpi => (hS.toGood.taken hpi).2.1).imp ?_)
    rintro r s' (⟨rfl, hz, rfl⟩ | ⟨-, -, hw, -⟩ | ⟨rfl, hz, hd⟩)
    · obtain ⟨h₁, h₂⟩ := hpart hS hl hm hz
      refine ends_bind (ends_pure.2 (ends_bind (ends_bind_get (ends_pure.2 ?_))))
      refine ends_pure.2 ⟨h₁, h₂, setEntry_refcount (pdx_lt _ _), setEntry_dry (pdx_lt _ _)⟩
    · cases hw
    · rw [if_neg (by simp)] at hd
      subst hd
      exact ends_pure.2 ⟨hS, Unseen.refl _ _ _, rfl, rfl⟩
  | succ l ih =>
    unfold pmapWalkLevel
    refine ends_bind ((walkLower_ends fun pi hpi => (hS.toGood.taken hpi).2.1).imp ?_)
    rintro r s' (⟨rfl, hz, rfl⟩ | ⟨-, -, hw, -⟩ | ⟨rfl, hz, hd⟩)
    · obtain ⟨h₁, h₂⟩ := hpart hS hl hm hz
      have hi := pdx_lt (l + 1 + 1) la
      refine ends_bind (ends_pure.2 (ends_bind (ends_bind_get (ends_pure.2 ?_))))
      rw [setEntry_entry_self hi]
      obtain ⟨hl', hm'⟩ := kid_of_slot hS.toGood hl hm (hS.slot_maps hl hm hz)
      refine (ih h₁ hl' hm').imp ?_
      rintro _ s' ⟨h₃, h₄, h₅, h₆⟩
      exact ⟨h₃, h₂.trans (h₄.mono (by omega)), h₅.trans (setEntry_refcount hi),
        h₆.trans (setEntry_dry hi)⟩
    · cases hw
    · rw [if_neg (by simp)] at hd
      subst hd
      exact ends_pure.2 ⟨hS, Unseen.refl _ _ _, rfl, rfl⟩

end

end Determinator
