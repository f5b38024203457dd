import Determinator.Pmap.Remove

/-!
# Setting permissions

What `pmap_setperm_level` does to a stretch of a table: the flags of every page-table entry change, and
missing tables are made, unless no bits are to be set; then a mapping of the zero page stays as it is.
-/

namespace Determinator

open PanicM

variable {b : Boot} {G G' : Ghost} {s s' : Mem} {t T : Frame} {i l va lo hi rlo rhi : ℕ}
  {pand por : BitVec 12}

/-- The flags after `& pteand | pteor`. -/
def Pte.masked (e : Pte) (pand por : BitVec 12) : Pte := { e with flags := e.flags &&& pand ||| por }

/-- What setting permissions does to an address. -/
structure Permitted (b : Boot) (pand por : BitVec 12) (va : ℕ) (v v' : View) : Prop where
  skip : v.leaf.frame = b.zero → por = 0 → v'.leaf = v.leaf
  set : ¬(v.leaf.frame = b.zero ∧ por = 0) → v'.leaf = v.leaf.masked pand por
  page : v'.page = v.page
  wr : v'.wr = true → v.wr = true ∧ pand.getLsbD 1 = true
  up : por ≠ 0 → v'.up = true

theorem stable_permitted (b : Boot) (pand por : BitVec 12) : Stable (Permitted b pand por) where
  pre hK h := by
    obtain ⟨h₁, h₂, h₃, h₄, h₅⟩ := h
    rw [hK.leaf] at h₁ h₂
    exact ⟨h₁, h₂, h₃.trans hK.page, fun hw => ⟨hK.wr (h₄ hw).1, (h₄ hw).2⟩, h₅⟩
  post h hK :=
    ⟨fun h₁ h₂ => hK.leaf.trans (h.skip h₁ h₂), fun hn => hK.leaf.trans (h.set hn), hK.page.trans h.page,
      fun hw => h.wr (hK.wr hw), fun hp => hK.up (h.up hp)⟩

theorem pteW_getElem (h : i < 12) : pteW[i] = decide (i = 1) := by
  interval_cases i <;> decide +revert

theorem masked_isW (e : Pte) (hor : por.getLsbD 1 = false) :
    (e.masked pand por).isW = (e.isW && pand.getLsbD 1) := by
  unfold Pte.masked Pte.isW
  rw [BitVec.getLsbD_or, BitVec.getLsbD_and, hor, Bool.or_false]

theorem masked_clearW (e : Pte) (hor : por.getLsbD 1 = false) :
    (e.masked pand por).clearW = e.clearW.masked pand por := by
  unfold Pte.masked Pte.clearW
  simp only [Pte.mk.injEq, true_and, and_true]
  ext j hj
  simp only [BitVec.getElem_or, BitVec.getElem_and, BitVec.getElem_not, pteW_getElem hj]
  by_cases h : j = 1
  · subst h
    simp [show por[1] = false from hor]
  · simp [h]

section

variable (b : Boot) (N : Set Note) (pand por : BitVec 12) (rlo rhi : ℕ) (E : Panic → Mem → Prop)

/-- What setting permissions on a stretch of a level-`l` table does, if the table is reached through
writeable entries. -/
def Permits (l : ℕ) (setperm : Frame → ℕ → ℕ → Kern Unit) : Prop :=
  ∀ (G : Ghost) (s : Mem) (T : Frame) (lo hi : ℕ), Sound b G s → (G.kind T).level = some l →
    Span (G.kind T) l lo hi rlo rhi → WReach b G s T →
    Ends N (setperm T lo hi) s (fun _ s' => ∃ G',
      Left b l T True (Ranged l lo lo hi (Permitted b pand por)) G s G' s') E

end

section

variable {N : Set Note} {E : Panic → Mem → Prop} {lower : Frame → ℕ → ℕ → Kern Unit}

/-- A page-table entry gets its new flags. -/
theorem Sound.setperm_zero (hS : Sound b G s) (hT : (G.kind T).level = some 0)
    (hm : (G.kind T).maps va) (hb : va / pdSize 1 = lo / pdSize 1) (hoff : pdOff 0 va = 0)
    (hor : por.getLsbD 1 = false) (hz : ¬((s.entry T (pdx 0 va)).frame = b.zero ∧ por = 0)) :
    Left b 0 T True (Ranged 0 lo va (va + pdSize 0) (Permitted b pand por)) G s G
      (s.setEntry T (pdx 0 va) ((s.entry T (pdx 0 va)).masked pand por)) := by
  have hi := pdx_lt 0 va
  have hnext : (va / pdSize 0 + 1) * pdSize 0 = va + pdSize 0 := by
    rw [Nat.succ_mul, pdOff_eq_zero.1 hoff]
  have hput := hS.toWhole.put_flags (e := (s.entry T (pdx 0 va)).masked pand por) hT hi
  refine ⟨hS.setFlags (Kind.maps_user hT hm) rfl ?_ ?_ (fun _ hne => absurd hT hne), hput.base, Neat.refl _, fun _ => hput.dry,
    fun _ => hput.acts hS.toWhole hT (fun a hma hidx hab => ?_) (fun a v hne hab => ?_)⟩
  · rw [masked_isW _ hor, Bool.and_eq_true]
    exact fun h => h.1
  · intro hr
    rw [hr] at hT
    cases hT
  · have hba := (div_of_pdx (hab.trans hb.symm)).1 hidx
    have hlo := block_le 0 a
    rw [hba, pdOff_eq_zero.1 hoff] at hlo
    have hhi : a < va + pdSize 0 := by
      rw [← hnext]
      exact lt_of_block hba
    have hne : ((s.entry T (pdx 0 va)).masked pand por).frame ≠ T := by
      intro e
      have hf : (s.entry T (pdx 0 va)).frame = T := e
      by_cases hz : (s.entry T (pdx 0 va)).frame = b.zero
      · rw [← hf, hz, hS.zero] at hT
        cases hT
      · have := data_of_slot hS.toGood hT (hS.slot_maps hT hm hz)
        rw [hf] at this
        rw [this] at hT
        cases hT
    rw [if_pos ⟨hlo, hhi⟩, hput.viewAt_zero hidx hne]
    have hv : viewAt b s a 0 T = ⟨(s.entry T (pdx 0 va)).clearW, s.page (s.entry T (pdx 0 va)).frame,
        (s.entry T (pdx 0 va)).isW, true⟩ := by
      simp only [viewAt, hidx]
    rw [hv]
    refine ⟨fun h₁ h₂ => absurd ⟨h₁, h₂⟩ hz, fun _ => masked_clearW _ hor, rfl, fun hw => ?_, fun _ => rfl⟩
    simp only at hw ⊢
    rwa [masked_isW _ hor, Bool.and_eq_true] at hw
  · rw [if_neg]
    · exact View.Keeps.refl _
    · rintro ⟨h₁, h₂⟩
      refine hne ((div_of_pdx (hab.trans hb.symm)).2 (block_of_lt ((block_le _ _).trans h₁) ?_))
      rw [hnext]
      exact h₂

/-- One round: the entry is skipped, set, or entered. -/
theorem setpermEntry_ends (hN : Note.ignored ∈ N) (hor : por.getLsbD 1 = false) (hS : Sound b G s)
    (hT : (G.kind T).level = some l) (hsp : Span (G.kind T) l lo hi rlo rhi) (h₁ : lo ≤ va)
    (h₂ : va < hi) (ha : va = lo ∨ pdOff l va = 0) (hwr : WReach b G s T)
    (hlow : ∀ m, l = m + 1 → Permits b N pand por rlo rhi E m lower) :
    Ends N (setpermEntry b lower l T pand por hi va) s (fun va' s' =>
      va < va' ∧ (va' < hi → va' = (va / pdSize l + 1) * pdSize l) ∧ ∃ G',
        Left b l T True (Ranged l lo va (min va' hi) (Permitted b pand por)) G s G' s') E := by
  have hm := hsp.maps va h₁ h₂
  have hb := hsp.block_eq h₁ h₂
  have hnext : pdAddr l va + pdSize l = (va / pdSize l + 1) * pdSize l := by
    rw [pdAddr_eq, Nat.succ_mul]
  have hwhole : pdOff l va = 0 ∧ pdSize l ≤ hi - va → va + pdSize l = min (pdAddr l va + pdSize l) hi := by
    rintro ⟨hoff, hle⟩
    rw [hnext, Nat.succ_mul, pdOff_eq_zero.1 hoff, min_eq_left]
    omega
  have hend : va < min (pdAddr l va + pdSize l) hi ∧ (min (pdAddr l va + pdSize l) hi < hi →
      min (pdAddr l va + pdSize l) hi = (va / pdSize l + 1) * pdSize l) := by
    rw [hnext]
    refine ⟨lt_min (next_lt _ _) h₂, fun hlt => ?_⟩
    rcases min_choice ((va / pdSize l + 1) * pdSize l) hi with e | e
    · exact e
    · rw [e] at hlt
      exact absurd hlt (lt_irrefl _)
  unfold setpermEntry readEntry writeEntry
  refine ends_bind (ends_bind_get (ends_pure.2 (ends_ite (fun hz => ?_) fun hz => ?_)))
  · -- nothing is there
    refine ends_pure.2 ⟨by rw [hnext]; exact next_lt _ _, fun _ => hnext, G, hS.left_refl fun a hma hab => ?_⟩
    split
    · rename_i hin
      have hidx : pdx l a = pdx l va := by
        rw [hnext] at hin
        refine (div_of_pdx (hab.trans hb.symm)).2 (block_of_lt ((block_le _ _).trans hin.1) ?_)
        exact hin.2.trans_le (min_le_left _ _)
      have hw : (viewAt b s a l T).wr ≠ true := by
        intro hw
        have := viewAt_wr hw
        rw [hidx] at this
        exact hS.zeroRO _ _ (Kind.maps_user hT hm) this hz.1
      refine ⟨fun _ _ => rfl, fun hn => absurd ⟨?_, hz.2⟩ hn, rfl, fun h => absurd h hw,
        fun hp => absurd hz.2 hp⟩
      cases l with
      | zero =>
        simp only [viewAt, Pte.clearW_frame, hidx]
        exact hz.1
      | succ m =>
        rw [viewAt_none (by rw [hidx]; exact hz.1)]
        rfl
    · exact View.Keeps.refl _
  cases l with
  | zero =>
    have hoff : pdOff 0 va = 0 ∧ pdSize 0 ≤ hi - va := hsp.whole h₂ ha
    refine ends_ite (fun h => absurd h (lt_irrefl 0)) fun _ => ?_
    refine ends_ite (fun _ => ends_ite (fun _ => ?_) fun h => absurd rfl h) fun h => absurd hoff h
    refine ends_bind (ends_bind_get (ends_pure.2 (ends_bind (ends_modify ?_))))
    refine ends_pure.2 ⟨by have := pdSize_pos 0; omega, ?_, G, ?_⟩
    · rw [hwhole hoff]
      exact hend.2
    · rw [min_eq_left (by omega)]
      exact hS.setperm_zero hT hm hb hoff.1 hor hz
  | succ m =>
    refine ends_ite (fun _ => ?_) fun h => absurd (Nat.succ_pos m) h
    refine ends_bind ((pmapWalkLevel_ends hS hT hm).imp ?_)
    rintro r s₁ ⟨G₁, hw⟩
    refine ends_bind (ends_noteIf fun hig => ?_)
    have hr : r ≠ none := hig hN
    obtain ⟨x, hx⟩ := Option.ne_none_iff_exists'.1 hr
    obtain ⟨-, -, -, hz₁, hW, hP, -⟩ := hw.leaf x.1 x.2 hx
    have hleft := hw.left (C := True) hS hT fun _ => hr
    have hT₁ : G₁.kind T = G.kind T := hleft.kind_T hT
    have hm₁ : (G₁.kind T).maps va := by
      rw [hT₁]
      exact hm
    have hl₁ : (G₁.kind T).level = some (m + 1) := by
      rw [hT₁]
      exact hT
    have hs₁ := hw.sound.slot_maps hl₁ hm₁ hz₁
    obtain ⟨hlev, -⟩ := kid_of_slot hw.sound.toGood hl₁ hm₁ hs₁
    set t := (s₁.entry T (pdx (m + 1) va)).frame with ht
    have hkt : G₁.kind t = (G.kind T).kid (pdx (m + 1) va) := by
      rw [hw.sound.typed hs₁, hT₁]
    -- all of the entry or a part of it: the lower table is entered for its stretch
    have hgo := (hlow m rfl G₁ s₁ t va _ hw.sound hlev (by rw [hkt]; exact hsp.lower hT h₁ h₂ ha)
      ((hleft.wreach hS hT hwr).step hs₁ hW)).imp (R := fun _ s' => ∃ G', Left b (m + 1) T True (Ranged (m + 1) lo va
        (min (min (pdAddr (m + 1) va + pdSize (m + 1)) hi) hi) (Permitted b pand por)) G s G' s') ?_
    · refine ends_ite (fun hfull => ends_ite (fun h => absurd h (Nat.succ_ne_zero m)) fun _ => ?_)
        fun _ => ?_
      · refine ends_bind (ends_bind_get (ends_pure.2 (ends_bind ?_)))
        rw [hwhole hfull]
        exact hgo.imp fun _ s' hl => ends_pure.2 ⟨hend.1, hend.2, hl⟩
      · refine ends_bind (ends_bind_get (ends_pure.2 (ends_bind ?_)))
        exact hgo.imp fun _ s' hl => ends_pure.2 ⟨hend.1, hend.2, hl⟩
    · rintro _ s₂ ⟨G₂, hl₂⟩
      have hlift := hl₂.lift hw.sound hl₁ hm₁ rfl hz₁ (fun _ => hW) (fun _ => hP)
        (fun _ => hw.single hS hT hm hr (.inr hwr)) (by rw [entryEnd_eq]; exact min_le_left _ _)
      refine ⟨G₂, hleft.trans hlift hT fun a v v₁ v₂ _ hK hR hab => ?_⟩
      have hR := hR (hab.trans hb.symm)
      rw [min_eq_left (min_le_right _ _)]
      split at hR
      · rename_i hin
        rw [if_pos hin]
        exact (stable_permitted b pand por).pre hK hR
      · rename_i hin
        rw [if_neg hin]
        exact hK.trans hR

/-- The loop over the entries of a table. -/
theorem setpermLoop_ends (hN : Note.ignored ∈ N) (hor : por.getLsbD 1 = false)
    (hlow : ∀ m, l = m + 1 → Permits b N pand por rlo rhi E m lower) :
    Permits b N pand por rlo rhi E l (setpermLoop b lower l pand por) := by
  intro G s T lo hi hS hT hsp hwr
  unfold setpermLoop
  refine ends_bind (ends_whileM (I := fun va s' => lo ≤ va ∧ (va < hi → va = lo ∨ pdOff l va = 0) ∧
    ∃ G', Left b l T True (Ranged l lo lo (min va hi) (Permitted b pand por)) G s G' s')
    (fun va => hi - va) ?_ ?_ ?_ _ _ _ le_rfl ?_)
  · intro va s' _ hc
    simp only [decide_eq_true_eq] at hc
    omega
  · rintro va s' ⟨h₁, ha, G', hl⟩ hc
    simp only [decide_eq_true_eq] at hc
    have hk := hl.kind_T hT
    refine (setpermEntry_ends hN hor hl.sound (by rw [hk]; exact hT) (by rw [hk]; exact hsp) h₁ hc
      (ha hc) (hl.wreach hS hT hwr) hlow).imp ?_
    rintro va' s₂ ⟨hlt, hnext, G₂, hl₂⟩
    refine ⟨⟨by omega, fun hva => .inr ?_, G₂, ?_⟩, by omega⟩
    · rw [hnext hva, pdOff_eq_zero, next_div]
    · rw [min_eq_left hc.le] at hl
      exact hl.trans hl₂ hT fun a v v₁ v₂ _ =>
        Ranged.comp (stable_permitted b pand por) h₁ (le_min hlt.le hc.le)
  · rintro va s' ⟨-, -, G', hl⟩ hc
    simp only [decide_eq_false_iff_not, not_lt] at hc
    rw [min_eq_right hc] at hl
    exact ends_pure.2 ⟨G', hl⟩
  · refine ⟨le_rfl, fun _ => .inl rfl, G, hS.left_refl fun a _ _ => ?_⟩
    rw [if_neg (by omega)]
    exact View.Keeps.refl _

/-- **Setting permissions on a stretch of a table.** -/
theorem pmapSetpermLevel_ends (hN : Note.ignored ∈ N) (hor : por.getLsbD 1 = false) (l : ℕ) :
    Permits b N pand por rlo rhi E l (pmapSetpermLevel b pand por l) := by
  induction l with
  | zero =>
    unfold pmapSetpermLevel
    exact setpermLoop_ends hN hor nofun
  | succ m ih =>
    unfold pmapSetpermLevel
    refine setpermLoop_ends hN hor fun m' hm => ?_
    obtain rfl : m = m' := by omega
    exact ih

end

end Determinator
