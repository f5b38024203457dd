import Determinator.Pmap.Unshared

/-!
# The contents of a copy

After a copy the destination has the pages of the source and their flags (`Taken`). Only where the source has
no page table can the flags of a mapping of the zero page stay in the destination. The two tables of
a round have to be different ones; that of the source is then seen as it was, whatever is done to the
destination.
-/

namespace Determinator

open PanicM

variable {b : Boot} {G G' G₁ G₂ : Ghost} {s s' s₁ s₂ : Mem} {f g t T st dt : Frame} {e : Pte} {u v v' w w' : View}
  {i l m a a' va va' lo hi sva dva svahi si di : ℕ} {C : Prop} {D : ℕ → View → View → Prop}

/-! ## Views -/

/-- The page of a view is the one its entry is for. -/
theorem viewAt_frame (va l : ℕ) (t : Frame) :
    (viewAt b s va l t).page = s.page (viewAt b s va l t).leaf.frame := by
  induction l generalizing t with
  | zero => simp only [viewAt, Pte.clearW_frame]
  | succ l ih =>
    by_cases hz : (s.entry t (pdx (l + 1) va)).frame = b.zero
    · rw [viewAt_none hz]
      rfl
    · rw [viewAt_some hz]
      exact ih _

theorem pdx_mod (h : va % pdSize (l + 1) = va' % pdSize (l + 1)) : pdx l va = pdx l va' := by
  have key : ∀ a, a % pdSize (l + 1) / pdSize l = pdx l a := by
    intro a
    rw [pdSize_succ, Nat.mul_comm, Nat.mod_mul_right_div_self]
    rfl
  rw [← key, ← key, h]

/-- What is found from a table on does not depend on the way to it. -/
theorem viewAt_mod (h : va % pdSize (l + 1) = va' % pdSize (l + 1)) :
    viewAt b s va l t = viewAt b s va' l t := by
  induction l generalizing t with
  | zero => simp only [viewAt, pdx_mod h]
  | succ l ih =>
    have hlow : va % pdSize (l + 1) = va' % pdSize (l + 1) := by
      rw [← Nat.mod_mod_of_dvd va (pdSize_dvd (Nat.le_succ (l + 1))), h,
        Nat.mod_mod_of_dvd va' (pdSize_dvd (Nat.le_succ (l + 1)))]
    simp only [viewAt, pdx_mod h, ih hlow]

/-- Two tables with the same entry show the same there, if it leads to the same. -/
theorem viewAt_same (he : s'.entry g (pdx l a) = s.entry t (pdx l a')) (hz : s'.page b.zero = s.page b.zero)
    (h0 : l = 0 → s'.page (s.entry t (pdx l a')).frame = s.page (s.entry t (pdx l a')).frame)
    (hs : ∀ m, l = m + 1 → (s.entry t (pdx l a')).frame ≠ b.zero →
      viewAt b s' a m (s.entry t (pdx l a')).frame = viewAt b s a' m (s.entry t (pdx l a')).frame) :
    viewAt b s' a l g = viewAt b s a' l t := by
  cases l with
  | zero => simp only [viewAt, he, h0 rfl]
  | succ m =>
    by_cases hzf : (s.entry t (pdx (m + 1) a')).frame = b.zero
    · rw [viewAt_none hzf, viewAt_none (by rw [he]; exact hzf), hz]
    · rw [viewAt_some hzf, viewAt_some (by rw [he]; exact hzf), he, hs m rfl hzf]

/-! ## Ranges -/

theorem Ranged.block (hb : va / pdSize (l + 1) = va' / pdSize (l + 1)) (h : Ranged l va lo hi D a u v) :
    Ranged l va' lo hi D a u v :=
  fun ha => h (ha.trans hb.symm)

/-- What holds of an operation on a table holds of the views it comes from and leads to. -/
theorem Left.mono_view {R R' : ℕ → View → View → Prop} (h : Left b l T C R G s G' s')
    (hR : ∀ va, (G.kind T).maps va → R va (viewAt b s va l T) (viewAt b s' va l T) →
      R' va (viewAt b s va l T) (viewAt b s' va l T)) : Left b l T C R' G s G' s' :=
  { h with acts := fun hC => { h.acts hC with self := fun va hm => hR va hm ((h.acts hC).self va hm) } }

/-- What is done to a table that one entry leads to is done to a part of the stretch of the entry, if it does not
depend on the flags of the entry. -/
theorem Left.lift_under (hD : ∀ a v v' e, D a v v' → D a (v.under e) (v'.under e))
    (h : Left b l t C (Ranged l va lo hi D) G s G' s') (hS : Sound b G s) (hT : (G.kind T).level = some (l + 1))
    (hs : slot b G s T (pdx (l + 1) va) = some t) (hr : C → s.refcount t = 1)
    (hlo : va / pdSize (l + 1) * pdSize (l + 1) ≤ lo) (hhi : hi ≤ (va / pdSize (l + 1) + 1) * pdSize (l + 1)) :
    Left b (l + 1) T C (Ranged (l + 1) va lo hi D) G s G' s' where
  sound := h.sound
  base := h.base.mono (by omega)
  neat := h.neat
  dry := h.dry
  acts hC := by
    refine (h.acts hC).lift hS.toWhole hT hs (hr hC) (fun a v v' _ hi' hR hab => ?_) fun a v v' hne hK hab => ?_
    · have hR := hR ((div_of_pdx hab).1 hi')
      split at hR
      · rename_i hin
        rw [if_pos hin]
        exact hD a v v' _ hR
      · rename_i hin
        rw [if_neg hin]
        exact hR.under id id
    · rw [if_neg]
      · exact hK
      · rintro ⟨h₁, h₂⟩
        exact hne ((div_of_pdx hab).2 (block_of_lt (hlo.trans h₁) (h₂.trans_le hhi)))

/-- The addresses that an entry is for. -/
theorem in_entry_iff (ho : pdOff l va = 0) (hb : a / pdSize (l + 1) = va / pdSize (l + 1)) :
    va ≤ a ∧ a < va + pdSize l ↔ pdx l a = pdx l va := by
  have hstart := pdOff_eq_zero.1 ho
  have hnext : (va / pdSize l + 1) * pdSize l = va + pdSize l := by
    rw [Nat.succ_mul, hstart]
  rw [div_of_pdx hb]
  constructor
  · rintro ⟨h₁, h₂⟩
    exact block_of_lt ((block_le _ _).trans h₁) (by rw [hnext]; exact h₂)
  · intro h
    have h₁ := block_le l a
    rw [h, hstart] at h₁
    rw [← hnext]
    exact ⟨h₁, lt_of_block h⟩

/-- The same place in two entries. -/
theorem shift_entry (hs : pdOff l sva = 0) (hd : pdOff l dva = 0) (h₁ : dva ≤ a) (h₂ : a < dva + pdSize l) :
    (sva + (a - dva)) / pdSize l = sva / pdSize l ∧ (sva + (a - dva)) % pdSize l = a % pdSize l := by
  obtain ⟨p, hp⟩ := Nat.dvd_of_mod_eq_zero hs
  obtain ⟨q, hq⟩ := Nat.dvd_of_mod_eq_zero hd
  obtain ⟨k, rfl⟩ := Nat.exists_eq_add_of_le h₁
  have hk : k < pdSize l := by omega
  rw [Nat.add_sub_cancel_left, hp, hq]
  constructor
  · rw [Nat.mul_add_div (pdSize_pos l), Nat.mul_div_cancel_left _ (pdSize_pos l), Nat.div_eq_of_lt hk, Nat.add_zero]
  · rw [Nat.mul_add_mod, Nat.mul_add_mod]

/-! ## What a copy leaves at an address -/

/-- Where there was `v` and the source has `w`, there is the page of the source now, with its flags. If the source
has nothing there, the flags of a mapping of the zero page can stay. -/
structure Taken (b : Boot) (w v v' : View) : Prop where
  page : v'.page = w.page
  leaf : v'.leaf = w.leaf ∨ w.leaf = pteZero b ∧ v.leaf.frame = b.zero ∧ v'.leaf = v.leaf

namespace Taken

/-- The source may have been seen before. -/
theorem source (h : Taken b w' v v') (hK : View.Keeps w w') : Taken b w v v' := by
  refine ⟨h.page.trans hK.page, ?_⟩
  rw [← hK.leaf]
  exact h.leaf

theorem under (h : Taken b w v v') (e : Pte) : Taken b w (v.under e) (v'.under e) := ⟨h.page, h.leaf⟩

theorem source_under (h : Taken b w v v') (e : Pte) : Taken b (w.under e) v v' := ⟨h.page, h.leaf⟩

/-- Nothing is to be copied, and what was there is removed. -/
theorem of_cleared {rlo rhi : ℕ} (hw : w.leaf = pteZero b) (hp : w.page = s.page b.zero)
    (hv' : v'.page = s.page v'.leaf.frame) (h : Cleared b rlo rhi va v v') : Taken b w v v' := by
  by_cases hc : v.leaf.frame = b.zero ∧ ¬InBlock rlo rhi va
  · have hl := h.1 hc.1 hc.2
    refine ⟨?_, .inr ⟨hw, hc.1, hl⟩⟩
    rw [hv', hl, hc.1, hp]
  · have hl := h.2 hc
    refine ⟨?_, .inl (hl.trans hw.symm)⟩
    rw [hv', hl, hp]
    rfl

end Taken

theorem stable_taken (b : Boot) (w : ℕ → View) : Stable fun a => Taken b (w a) where
  pre hK h := by
    refine ⟨h.page, ?_⟩
    rw [← hK.leaf]
    exact h.leaf
  post h hK := by
    refine ⟨hK.page.trans h.page, ?_⟩
    rw [hK.leaf]
    exact h.leaf

/-! ## One entry -/

section

variable {N : Set Note} {E : Panic → Mem → Prop}

/-- The view of the source for an address of the destination. -/
def sourceView (b : Boot) (s : Mem) (l : ℕ) (st : Frame) (sva dva a : ℕ) : View :=
  viewAt b s (sva + (a - dva)) l st

/-- An entry `di` of the destination shows what the entry `si` of the source did. -/
def Showing (b : Boot) (s : Mem) (k : Kind) (l si di : ℕ) (st : Frame) (a : ℕ) (v v' : View) : Prop :=
  if pdx l a = di then ∀ a', k.maps a' → pdx l a' = si → a' % pdSize l = a % pdSize l →
    v'.page = (viewAt b s a' l st).page ∧ v'.leaf = (viewAt b s a' l st).leaf
  else View.Keeps v v'

/-- The new entry of the destination is the one of the source. -/
theorem Put.shows (h : Put b l dt di e G s G' s') (hS : Whole b G s) (hdt : (G.kind dt).level = some l)
    (hst : (G.kind st).level = some l) (he : s.entry st si = e) :
    Acts b l dt (Showing b s (G.kind st) l si di st) G s G' s' := by
  have hzt : b.zero ≠ dt := by
    intro e'
    rw [← e', hS.zero] at hdt
    cases hdt
  refine h.acts hS hdt (fun a hm hi => ?_) fun a v hne => ?_
  · rw [Showing, if_pos hi]
    rintro a' hm' rfl ha
    have hsame : viewAt b s' a l dt = viewAt b s a' l st := by
      refine viewAt_same (by rw [hi, h.entry, he]) (h.page _ hzt) ?_ ?_
      · rintro rfl
        refine h.page _ fun hf => ?_
        by_cases hz : (s.entry st (pdx 0 a')).frame = b.zero
        · exact hzt (hz.symm.trans hf)
        · have := data_of_slot hS.toGood hst (hS.slot_maps hst hm' hz)
          rw [hf] at this
          rw [this] at hdt
          cases hdt
      · rintro m rfl hz
        have hs := hS.slot_maps hst hm' hz
        obtain ⟨hl, hmk⟩ := kid_of_slot hS.toGood hst hm' hs
        rw [viewAt_mod ha.symm, h.viewAt_ne hS hdt hl hmk (.inl (Nat.lt_succ_self m))]
    rw [hsame]
    exact ⟨rfl, rfl⟩
  · rw [Showing, if_neg hne]
    exact View.Keeps.refl v

/-- The source entry is made read-only and copied to an entry of another table that leads nowhere. -/
theorem shareEntry_shows (hS : Sound b G s) (hst : (G.kind st).level = some l) (hdt : (G.kind dt).level = some l)
    (hne : st ≠ dt) (hu : (G.kind st).user si = true) (hu' : (G.kind dt).user di = true)
    (hp : G.kind st = .root → si ≠ 0) (hp' : G.kind dt = .root → di ≠ 0) (hd : (s.entry dt di).frame = b.zero) :
    Ends N (do
      let e ← readEntry st si
      writeEntry st si e.clearW
      let e ← readEntry st si
      writeEntry dt di e
      let e ← readEntry st si
      if e.frame ≠ b.zero then memIncref b e.frame) s
      (fun _ s' => ∃ G', Left b l dt True (Showing b s (G.kind st) l si di st) G s G' s') E := by
  have hi := Kind.user_lt hu
  have hi' := Kind.user_lt hu'
  set e := (s.entry st si).clearW with he
  set s₁ := s.setEntry st si e with hs₁
  have hself : s₁.entry st si = e := setEntry_entry_self hi
  have heW : e.isW = false := by rw [he, Pte.clearW_isW]
  have hS₁ : Sound b G s₁ := hS.setFlags hu rfl (by rw [heW]; simp) (fun hr h0 => absurd h0 (hp hr))
    (by rw [heW]; simp)
  have ht₁ : Unseen b l G s G s₁ := hS.tame_setFlags hu hst le_rfl rfl (by rw [heW]; simp)
    (by rw [he, Pte.clearW_isP]; exact id) fun _ => Pte.clearW_clearW _
  have hl₁ : Left b l dt True (fun _ v v' => View.Keeps v v') G s G s₁ :=
    ⟨hS₁, ht₁.base hS, Neat.refl _, fun _ => setEntry_dry hi, fun _ => ht₁.acts hS hdt⟩
  have hd₁ : (s₁.entry dt di).frame = b.zero := by
    rw [hs₁, setEntry_entry_ne hi hi' (.inl hne.symm), hd]
  have hself₂ : (s₁.setEntry dt di e).entry st si = e := by
    rw [setEntry_entry_ne hi' hi (.inl hne), hself]
  -- the entry of the destination shows what is found through that of the source
  have hend : ∀ {s₂}, Sound b G s₂ → Put b l dt di e G s₁ G s₂ →
      Left b l dt True (Showing b s (G.kind st) l si di st) G s G s₂ := by
    intro s₂ hS₂ hput
    have hshow := hput.shows hS₁.toWhole hdt hst hself
    refine hl₁.trans ⟨hS₂, hput.base, Neat.refl _, fun _ => hput.dry, fun _ => hshow⟩ hdt ?_
    intro a v v₁ v₂ _ hK hR
    by_cases hx : pdx l a = di
    · rw [Showing, if_pos hx] at hR ⊢
      intro a' hm' hi'' ha
      have hsrc := ht₁.view l st a' hst hm'
      obtain ⟨hpg, hlf⟩ := hR a' hm' hi'' ha
      exact ⟨hpg.trans hsrc.page, hlf.trans hsrc.leaf⟩
    · rw [Showing, if_neg hx] at hR ⊢
      exact hK.trans hR
  unfold readEntry writeEntry
  refine ends_bind (ends_bind_get (ends_pure.2 (ends_bind (ends_modify ?_))))
  rw [← he, ← hs₁]
  refine ends_bind (ends_bind_get (ends_pure.2 (ends_bind (ends_modify ?_))))
  rw [hself]
  refine ends_bind (ends_bind_get (ends_pure.2 ?_))
  rw [hself₂]
  refine ends_ite (fun hz => ?_) fun hz => ?_
  · have hslot : slot b G s₁ st si = some e.frame := by
      rw [← hself]
      exact slot_of_user hu (by rw [hS.off]; simp) (by rw [hself]; exact hz)
    have hk : G.kind e.frame = .below l := (hS₁.typed hslot).trans (Kind.kid_eq_below hst hp)
    obtain ⟨hS₂, hput⟩ := hS₁.share hu' hdt hp' hd₁ hslot hk hself (Pte.clearW_isW _)
    exact ends_memIncref (hS₁.used_avail (hS₁.slot_used hslot)) ⟨G, hend hS₂ hput⟩
  · have hze : e.frame = (s₁.entry dt di).frame := by
      rw [hd₁]
      exact not_not.1 hz
    have hS₂ : Sound b G (s₁.setEntry dt di e) := hS₁.setFlags hu' hze (by rw [heW]; simp)
      (fun hr h0 => absurd h0 (hp' hr)) (by rw [heW]; simp)
    exact ends_pure.2 ⟨G, hend hS₂ (hS₁.toWhole.put_flags hdt hi')⟩

/-- Sharing a whole entry. -/
theorem copyShare_takes {x : CopyAt} (hS : Sound b G s) (hst : (G.kind st).level = some l)
    (hdt : (G.kind dt).level = some l) (hne : st ≠ dt)
    (hss : Span (G.kind st) l x.sva (x.sva + pdSize l) x.sva (x.sva + pdSize l)) (hmd : (G.kind dt).maps x.dva)
    (hos : pdOff l x.sva = 0) (hod : pdOff l x.dva = 0) (hsi : x.si = pdx l x.sva) (hdi : x.di = pdx l x.dva) :
    Ends N (copyShare b l st dt x) s (fun _ s' => ∃ G', Left b l dt True
      (Ranged l x.dva x.dva (x.dva + pdSize l) fun a => Taken b (sourceView b s l st x.sva x.dva a)) G s G' s') E := by
  have hms := hss.maps x.sva le_rfl hss.lt
  -- after what was there has been removed
  have hrest : ∀ G₁ s₁, Left b l dt True (fun a v v' => pdx l a ≠ x.di → v' = v) G s G₁ s₁ →
      (s₁.entry dt x.di).frame = b.zero → Ends N (do
        let d ← readEntry dt x.di
        check (d.frame = b.zero) .assert
        let e ← readEntry st x.si
        writeEntry st x.si e.clearW
        let e ← readEntry st x.si
        writeEntry dt x.di e
        let e ← readEntry st x.si
        if e.frame ≠ b.zero then memIncref b e.frame) s₁
        (fun _ s' => ∃ G', Left b l dt True
          (Ranged l x.dva x.dva (x.dva + pdSize l) fun a => Taken b (sourceView b s l st x.sva x.dva a)) G s G' s') E := by
    intro G₁ s₁ hl hz
    have hks := hl.base.kind st l hst le_rfl
    have hkd := hl.base.kind dt l hdt le_rfl
    unfold readEntry
    refine ends_bind (ends_bind_get (ends_pure.2 (ends_bind_check hz ?_)))
    rw [hsi, hdi]
    rw [hdi] at hz
    have h := shareEntry_shows (N := N) (E := E) hl.sound (by rw [hks]; exact hst) (by rw [hkd]; exact hdt) hne
      (by rw [hks]; exact Kind.maps_user hst hms) (by rw [hkd]; exact Kind.maps_user hdt hmd)
      (by rw [hks]; exact Kind.root_pdx_ne hst hms hos) (by rw [hkd]; exact Kind.root_pdx_ne hdt hmd hod) hz
    refine h.imp ?_
    rintro _ s₂ ⟨G₂, hl₂⟩
    refine ⟨G₂, hl.trans hl₂ hdt fun a v v₁ v₂ _ hv hR hab => ?_⟩
    by_cases hin : x.dva ≤ a ∧ a < x.dva + pdSize l
    · have hidx := (in_entry_iff hod hab).1 hin
      rw [Showing, if_pos hidx] at hR
      rw [if_pos hin]
      obtain ⟨hdiv, hmod⟩ := shift_entry hos hod hin.1 hin.2
      have hm' : (G.kind st).maps (x.sva + (a - x.dva)) := hss.maps _ (by omega) (by omega)
      obtain ⟨hpg, hlf⟩ := hR (x.sva + (a - x.dva)) (by rw [hks]; exact hm') (by rw [pdx_eq, pdx_eq, hdiv]) hmod
      exact Taken.source ⟨hpg, .inl hlf⟩ ((hl.acts trivial).other st _ hst hne hm')
    · have hidx := (in_entry_iff hod hab).not.1 hin
      rw [Showing, if_neg hidx] at hR
      rw [if_neg hin, ← hv (by rw [hdi]; exact hidx)]
      exact hR
  unfold copyShare
  refine ends_bind (ends_bind_get (ends_pure.2 (ends_ite (fun hz => ?_) fun hz => ?_)))
  · rw [hdi] at hz
    refine ends_bind ((removeWhole_ends hS hdt hmd hod hz).imp ?_)
    rintro _ s₁ ⟨G₁, hS₁, hn, hput⟩
    refine hrest G₁ s₁ ⟨hS₁, hput.base, hn, fun _ => hput.dry, fun _ => ?_⟩ ?_
    · exact hput.acts hS.toWhole hdt (fun a _ hi hne' => absurd (hi.trans hdi.symm) hne') fun _ _ _ _ => rfl
    · rw [hdi, hput.entry]
      rfl
  · exact hrest G s (hS.left_refl fun _ _ _ => rfl) (not_not.1 hz)

end

section

variable (b : Boot) (N : Set Note)

/-- What copying a stretch of a level-`l` table to a stretch of another one does. -/
def Takes (l : ℕ) (copy : Frame → ℕ → Frame → ℕ → ℕ → Kern Unit) : Prop :=
  ∀ (G : Ghost) (s : Mem) (st dt : Frame) (sva dva svahi : ℕ), Sound b G s →
    (G.kind st).level = some l → (G.kind dt).level = some l → st ≠ dt →
    Span (G.kind st) l sva svahi sva svahi →
    Span (G.kind dt) l dva (dva + (svahi - sva)) dva (dva + (svahi - sva)) →
    Ends N (copy st sva dt dva svahi) s (fun _ s' => ∃ G', Left b l dt True
      (Ranged l dva dva (dva + (svahi - sva)) fun a => Taken b (sourceView b s l st sva dva a)) G s G' s')
      fun _ _ => True

/-- The notes of a copy that changes tables that others use. -/
structure CopyNotes : Prop where
  ignored : Note.ignored ∈ N
  dest : Note.sharedDest ∈ N
  stale : Note.staleW ∈ N

end

section

variable {N : Set Note} {lower : Frame → ℕ → Frame → ℕ → ℕ → Kern Unit}

/-- What is left of a change after which the source was copied, and before which it showed the same. -/
theorem Left.takes {n : ℕ} (h : Left b l dt True (fun _ v v' => View.Keeps v v') G s G₁ s₁)
    (h' : Left b l dt True (Ranged l dva dva (dva + n) fun a => Taken b (sourceView b s₁ l st sva dva a)) G₁ s₁ G' s')
    (hst : (G.kind st).level = some l) (hdt : (G.kind dt).level = some l) (hne : st ≠ dt)
    (hms : ∀ a, sva ≤ a → a < sva + n → (G.kind st).maps a) : Left b l dt True
      (Ranged l dva dva (dva + n) fun a => Taken b (sourceView b s l st sva dva a)) G s G' s' := by
  refine h.trans h' hdt fun a v v₁ v₂ _ hK hR hab => ?_
  have hR := hR hab
  by_cases hin : dva ≤ a ∧ a < dva + n
  · rw [if_pos hin] at hR ⊢
    have hm := hms (sva + (a - dva)) (by omega) (by omega)
    exact ((stable_taken b _).pre hK hR).source ((h.acts trivial).other st _ hst hne hm)
  · rw [if_neg hin] at hR ⊢
    exact hK.trans hR

/-- Copying part of an entry. -/
theorem copyPart_takes {x : CopyAt} {size : ℕ} (hN : CopyNotes N) (hS : Sound b G s)
    (hst : (G.kind st).level = some (l + 1)) (hdt : (G.kind dt).level = some (l + 1)) (hne : st ≠ dt)
    (hss : Span (G.kind st) (l + 1) x.sva (x.sva + size) x.sva (x.sva + size))
    (hsd : Span (G.kind dt) (l + 1) x.dva (x.dva + size) x.dva (x.dva + size))
    (hes : x.sva + size ≤ (x.sva / pdSize (l + 1) + 1) * pdSize (l + 1))
    (hed : x.dva + size ≤ (x.dva / pdSize (l + 1) + 1) * pdSize (l + 1))
    (hsi : x.si = pdx (l + 1) x.sva) (hdi : x.di = pdx (l + 1) x.dva) (hlow : Takes b N l lower) :
    Ends N (copyPart b lower (l + 1) st dt x size) s (fun _ s' => ∃ G', Left b (l + 1) dt True
      (Ranged (l + 1) x.dva x.dva (x.dva + size) fun a => Taken b (sourceView b s (l + 1) st x.sva x.dva a)) G s G' s')
      fun _ _ => True := by
  have hms := hss.maps x.sva le_rfl hss.lt
  have hmd := hsd.maps x.dva le_rfl hsd.lt
  -- the source entry is the same for all of the part
  have hidx : ∀ a, x.dva ≤ a → a < x.dva + size → pdx (l + 1) (x.sva + (a - x.dva)) = pdx (l + 1) x.sva := by
    intro a h₁ h₂
    rw [pdx_eq, pdx_eq, block_of_lt ((block_le _ _).trans (Nat.le_add_right x.sva _)) (by omega)]
  -- both entries lead to tables
  have hrest : ∀ G₁ s₁, Left b (l + 1) dt True (fun _ v v' => View.Keeps v v') G s G₁ s₁ →
      (s₁.entry st x.si).frame ≠ b.zero → (s₁.entry dt x.di).frame ≠ b.zero →
      Ends N (do
        let d ← readEntry dt x.di
        check (d.frame ≠ b.zero) .assert
        let s ← get
        noteIf (s.refcount d.frame ≠ 1) .sharedDest
        let e ← readEntry st x.si
        lower e.frame x.sva d.frame x.dva (x.sva + size)) s₁
        (fun _ s' => ∃ G', Left b (l + 1) dt True (Ranged (l + 1) x.dva x.dva (x.dva + size) fun a =>
          Taken b (sourceView b s (l + 1) st x.sva x.dva a)) G s G' s') fun _ _ => True := by
    intro G₁ s₁ hl hzs hzd
    have hks := hl.base.kind st (l + 1) hst le_rfl
    have hkd := hl.base.kind dt (l + 1) hdt le_rfl
    rw [hsi] at hzs ⊢
    rw [hdi] at hzd ⊢
    have hslot := hl.sound.slot_maps (by rw [hks]; exact hst) (by rw [hks]; exact hms) hzs
    have hslot' := hl.sound.slot_maps (by rw [hkd]; exact hdt) (by rw [hkd]; exact hmd) hzd
    have hk : G₁.kind (s₁.entry st (pdx (l + 1) x.sva)).frame = (G.kind st).kid (pdx (l + 1) x.sva) := by
      rw [hl.sound.typed hslot, hks]
    have hk' : G₁.kind (s₁.entry dt (pdx (l + 1) x.dva)).frame = (G.kind dt).kid (pdx (l + 1) x.dva) := by
      rw [hl.sound.typed hslot', hkd]
    have hsub : x.sva + size - x.sva = size := by omega
    unfold readEntry
    refine ends_bind (ends_bind_get (ends_pure.2 (ends_bind_check hzd (ends_bind_get ?_))))
    refine ends_bind_noteIf fun hone => ends_bind (ends_bind_get (ends_pure.2 ?_))
    have hr : s₁.refcount (s₁.entry dt (pdx (l + 1) x.dva)).frame = 1 := not_not.1 (hone hN.dest)
    -- the lower table of the destination is in one table only
    have hne' : (s₁.entry st (pdx (l + 1) x.sva)).frame ≠ (s₁.entry dt (pdx (l + 1) x.dva)).frame := by
      intro hf
      rw [← hf] at hslot' hr
      exact hne (hl.sound.single_slot hr hslot hslot').1
    refine (hlow G₁ s₁ _ _ x.sva x.dva (x.sva + size) hl.sound (by rw [hk]; exact Kind.kid_level hst _)
      (by rw [hk']; exact Kind.kid_level hdt _) hne' ?_ ?_).imp ?_
    · rw [hk]
      exact hss.kid hst le_rfl le_rfl hss.lt hss.lo_dvd hss.hi_dvd hes
    · rw [hk', hsub]
      exact hsd.kid hdt le_rfl le_rfl hsd.lt hsd.lo_dvd hsd.hi_dvd hed
    · rintro _ s₂ ⟨G₂, hl₂⟩
      rw [hsub] at hl₂
      have hup := hl₂.lift_under (fun _ _ _ e h => h.under e) hl.sound
        (by rw [hkd]; exact hdt) hslot' (fun _ => hr) (block_le _ _) hed
      refine ⟨G₂, hl.takes (hup.mono fun a v v' _ hR hab => ?_) hst hdt hne hss.maps⟩
      have hR := hR hab
      by_cases hin : x.dva ≤ a ∧ a < x.dva + size
      · rw [if_pos hin] at hR ⊢
        have hv : sourceView b s₁ (l + 1) st x.sva x.dva a =
            (sourceView b s₁ l (s₁.entry st (pdx (l + 1) x.sva)).frame x.sva x.dva a).under
              (s₁.entry st (pdx (l + 1) x.sva)) := by
          unfold sourceView
          rw [viewAt_some (by rw [hidx a hin.1 hin.2]; exact hzs), hidx a hin.1 hin.2]
        simp only [hv]
        exact hR.source_under _
      · rw [if_neg hin] at hR ⊢
        exact hR
  unfold copyPart
  nth_rewrite 1 [readEntry]
  refine ends_bind (ends_bind_get (ends_pure.2 (ends_ite (fun hz => ?_) fun hz => ?_)))
  · -- the source has nothing there
    rw [hsi] at hz
    refine ends_bind ((pmapRemoveLevel_ends (C := True) (fun _ => hN.ignored) (l + 1) G s dt x.dva (x.dva + size) hS
      hdt hsd (by simp) fun _ => .inl hN.stale).imp ?_)
    rintro _ s₁ ⟨-, G₁, hl₁⟩
    refine ends_pure.2 ⟨G₁, hl₁.mono_view fun a _ hR hab => ?_⟩
    have hR := hR hab
    by_cases hin : x.dva ≤ a ∧ a < x.dva + size
    · rw [if_pos hin] at hR ⊢
      have hv : sourceView b s (l + 1) st x.sva x.dva a = ⟨pteZero b, s.page b.zero, false, false⟩ :=
        viewAt_none (by rw [hidx a hin.1 hin.2]; exact hz)
      simp only [hv]
      refine Taken.of_cleared (s := s₁) rfl ?_ (viewAt_frame _ _ _) hR
      exact hl₁.base.zero.symm
    · rw [if_neg hin] at hR ⊢
      exact hR
  nth_rewrite 1 [readEntry]
  refine ends_bind (ends_bind_get (ends_pure.2 (ends_ite (fun hzd => ?_) fun hzd => ?_)))
  · -- the destination gets a table
    refine ends_bind ((pmapWalkLevel_ends hS hdt hmd).imp ?_)
    rintro r s₁ ⟨G₁, hw⟩
    have hsame : s₁.entry st x.si = s.entry st x.si := by
      refine hw.same st x.si ?_ hst (.inl hne)
      rw [hsi]
      exact pdx_lt _ _
    nth_rewrite 1 [readEntry]
    refine ends_bind (ends_bind_get (ends_pure.2 (ends_bind_noteIf fun hig => ?_)))
    by_cases hzd₁ : (s₁.entry dt x.di).frame = b.zero
    · unfold readEntry
      exact ends_bind (ends_bind_get (ends_pure.2 (ends_bind (ends_check (fun h => absurd hzd₁ h) fun _ => trivial))))
    · refine hrest G₁ s₁ (hw.left hS hdt fun _ hr => ?_) (by rw [hsame]; exact hz) hzd₁
      exact hig hN.ignored ⟨hr, hzd₁⟩
  · exact hrest G s (hS.left_refl fun _ _ => View.Keeps.refl _) hz hzd

/-- One round: the entry is shared or copied in part. -/
theorem copyEntry_takes {x : CopyAt} {dvahi : ℕ} (hN : CopyNotes N) (hS : Sound b G s)
    (hst : (G.kind st).level = some l) (hdt : (G.kind dt).level = some l) (hne : st ≠ dt)
    (hss : Span (G.kind st) l sva svahi sva svahi) (hsd : Span (G.kind dt) l dva dvahi dva dvahi)
    (h₁ : sva ≤ x.sva) (h₂ : x.sva < svahi) (h₃ : dva ≤ x.dva) (h₄ : x.dva + (svahi - x.sva) = dvahi)
    (hs : 4096 ∣ x.sva) (hd : 4096 ∣ x.dva) (hsi : x.si = pdx l x.sva) (hdi : x.di = pdx l x.dva)
    (hlow : ∀ m, l = m + 1 → Takes b N m lower) :
    Ends N (copyEntry b lower l st dt svahi x) s (fun y s' => ∃ size, 0 < size ∧ 4096 ∣ size ∧
      x.sva + size ≤ svahi ∧ y.sva = x.sva + size ∧ y.dva = x.dva + size ∧
      (y.sva < svahi → y.si = pdx l y.sva ∧ y.di = pdx l y.dva) ∧
      ∃ G', Left b l dt True
        (Ranged l x.dva x.dva (x.dva + size) fun a => Taken b (sourceView b s l st x.sva x.dva a)) G s G' s')
      fun _ _ => True := by
  have hp := pdSize_pos l
  have hmd := hsd.maps x.dva h₃ (by omega)
  unfold copyEntry
  refine ends_ite (fun hwhole => ?_) fun hpart => ?_
  · obtain ⟨hos, hod, hle⟩ := hwhole
    have hss' := hss.sub h₁ (show x.sva + pdSize l ≤ svahi by omega) (by omega) hs (Nat.dvd_add hs (four_dvd l))
    refine ends_bind ((copyShare_takes hS hst hdt hne hss' hmd hos hod hsi hdi).imp ?_)
    rintro _ s' h
    refine ends_pure.2 ⟨pdSize l, hp, four_dvd l, by omega, rfl, rfl, fun hlt => ⟨?_, ?_⟩, h⟩
    · rw [hsi]
      exact hss.pdx_whole h₁ hos hlt
    · rw [hdi]
      exact hsd.pdx_whole h₃ hod (by simp only at hlt; omega)
  · obtain ⟨m, rfl⟩ : ∃ m, l = m + 1 := by
      cases l with
      | succ m => exact ⟨m, rfl⟩
      | zero => exact absurd (x.whole hs hd hss.hi_dvd h₂) hpart
    obtain ⟨hsz, hpos, hes, hed, hle⟩ := copySize_spec (l := m + 1) hs hd hss.hi_dvd h₂
    set size := copySize (m + 1) x svahi with hsize
    have hss' := hss.sub h₁ hle (by omega) hs (Nat.dvd_add hs hsz)
    have hsd' := hsd.sub h₃ (show x.dva + size ≤ dvahi by omega) (by omega) hd (Nat.dvd_add hd hsz)
    refine ends_bind ((copyPart_takes hN hS hst hdt hne hss' hsd' hes hed hsi hdi (hlow m rfl)).imp ?_)
    rintro _ s' h
    refine ends_pure.2 ⟨size, hpos, hsz, hle, rfl, rfl, fun hlt => ⟨?_, ?_⟩, h⟩
    · simp only [CopyAt.advance] at hlt ⊢
      rw [hsi]
      exact hss.pdx_part h₁ hpos hlt hes
    · simp only [CopyAt.advance] at hlt ⊢
      rw [hdi]
      exact hsd.pdx_part h₃ hpos (by omega) hed

/-- The loop over the entries. -/
theorem copyLoop_takes (hN : CopyNotes N) (hlow : ∀ m, l = m + 1 → Takes b N m lower) :
    Takes b N l (copyLoop b lower l) := by
  intro G s st dt sva dva svahi hS hst hdt hne hss hsd
  have hlt := hss.lt
  unfold copyLoop
  refine ends_bind (ends_whileM (I := fun x s' => sva ≤ x.sva ∧ x.sva ≤ svahi ∧
    dva + (x.sva - sva) = x.dva ∧ 4096 ∣ x.sva ∧
    (x.sva < svahi → x.si = pdx l x.sva ∧ x.di = pdx l x.dva) ∧ ∃ G', Left b l dt True
      (Ranged l dva dva x.dva fun a => Taken b (sourceView b s l st sva dva a)) G s G' s')
    (fun x => svahi - x.sva) ?_ ?_ ?_ _ _ _ le_rfl ?_)
  · rintro x s' - hc
    simp only [decide_eq_true_eq] at hc
    omega
  · rintro x s' ⟨h₁, h₂, h₃, h₄, h₅, G', hl⟩ hc
    simp only [decide_eq_true_eq] at hc
    obtain ⟨hsi, hdi⟩ := h₅ hc
    have hks := hl.base.kind st l hst le_rfl
    have hkd := hl.base.kind dt l hdt le_rfl
    have hd := hsd.lo_dvd
    have hs := hss.lo_dvd
    refine (copyEntry_takes hN hl.sound (by rw [hks]; exact hst) (by rw [hkd]; exact hdt) hne
      (by rw [hks]; exact hss) (by rw [hkd]; exact hsd) h₁ hc (by omega) (by omega) h₄ (by omega) hsi hdi
      hlow).imp ?_
    rintro y s₂ ⟨size, hpos, hsz, hle, hy, hy', hi, G₂, hl₂⟩
    refine ⟨⟨by omega, by omega, by omega, by omega, hi, G₂, ?_⟩, by omega⟩
    have hb : x.dva / pdSize (l + 1) = dva / pdSize (l + 1) := hsd.block_eq (by omega) (by omega)
    rw [hy']
    refine hl.trans hl₂ hdt fun a v v₁ v₂ _ hR hR₂ => ?_
    -- the source shows what it did before
    have hR₂' : Ranged l dva x.dva (x.dva + size) (fun a => Taken b (sourceView b s l st sva dva a)) a v₁ v₂ := by
      intro hab
      have hR₂ := hR₂ (hab.trans hb.symm)
      by_cases hin : x.dva ≤ a ∧ a < x.dva + size
      · rw [if_pos hin] at hR₂ ⊢
        have hat : x.sva + (a - x.dva) = sva + (a - dva) := by omega
        have hm := hss.maps (sva + (a - dva)) (by omega) (by omega)
        rw [sourceView, hat] at hR₂
        exact hR₂.source ((hl.acts trivial).other st _ hst hne hm)
      · rw [if_neg hin] at hR₂ ⊢
        exact hR₂
    exact Ranged.comp (stable_taken b _) (by omega) (by omega) hR hR₂'
  · rintro x s' ⟨h₁, h₂, h₃, -, -, h⟩ hc
    simp only [decide_eq_false_iff_not, not_lt] at hc
    obtain rfl : x.sva = svahi := by omega
    rw [h₃]
    exact ends_pure.2 h
  · refine ⟨le_rfl, hlt.le, by simp, hss.lo_dvd, fun _ => ⟨rfl, rfl⟩, G, hS.left_refl fun a _ _ => ?_⟩
    rw [if_neg (by simp only; omega)]
    exact View.Keeps.refl _

/-- **Copying a stretch of a table** to a stretch of another one. -/
theorem pmapCopyLevel_takes (hN : CopyNotes N) (l : ℕ) : Takes b N l (pmapCopyLevel b l) := by
  induction l with
  | zero =>
    unfold pmapCopyLevel
    exact copyLoop_takes hN (by simp)
  | succ m ih =>
    unfold pmapCopyLevel
    refine copyLoop_takes hN fun m' hm => ?_
    obtain rfl : m = m' := by omega
    exact ih

end

end Determinator
