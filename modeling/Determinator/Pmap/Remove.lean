import Determinator.Pmap.Span

/-!
# Removing

What `pmap_remove_level` does to a stretch of a table: mappings of pages are replaced by `PTE_ZERO`.
A mapping of the zero page stays as it is, with its permissions, unless the page table goes as a
whole.
-/

namespace Determinator

open PanicM

variable {b : Boot} {G G' : Ghost} {s s' : Mem} {t T : Frame} {i l va lo hi rlo rhi : ℕ}

/-- The 2MB around an address lie in the region. -/
def InBlock (rlo rhi va : ℕ) : Prop :=
  rlo ≤ va / pdSize 1 * pdSize 1 ∧ (va / pdSize 1 + 1) * pdSize 1 ≤ rhi

/-- The page-table entry of an address in the removed region: a mapping of the zero page is kept if the
page table is. -/
def Cleared (b : Boot) (rlo rhi va : ℕ) (v v' : View) : Prop :=
  (v.leaf.frame = b.zero → ¬InBlock rlo rhi va → v'.leaf = v.leaf) ∧
  (¬(v.leaf.frame = b.zero ∧ ¬InBlock rlo rhi va) → v'.leaf = pteZero b)

theorem stable_cleared (b : Boot) (rlo rhi : ℕ) : Stable (Cleared b rlo rhi) where
  pre hK h := by
    unfold Cleared at *
    rw [hK.leaf] at h
    exact h
  post h hK := by
    unfold Cleared at *
    rw [hK.leaf]
    exact h

/-- Where nothing is mapped, nothing changes. -/
theorem cleared_of_leaf {v v' : View} (hv : v.leaf = pteZero b) (hv' : v'.leaf = pteZero b) :
    Cleared b rlo rhi va v v' :=
  ⟨fun _ _ => hv'.trans hv.symm, fun _ => hv'⟩

section

variable (b : Boot) (N : Set Note) (C : Prop) (rlo rhi : ℕ) (E : Panic → Mem → Prop)

/-- What removing a stretch of a level-`l` table does. Other tables do not see it if the table is
reached through writeable entries, or if no writeable entry leads to a shared table. -/
def Removes (l : ℕ) (remove : Frame → ℕ → ℕ → Kern ℕ) : Prop :=
  ∀ (G : Ghost) (s : Mem) (T : Frame) (lo hi : ℕ), Sound b G s → (G.kind T).level = some l →
    Span (G.kind T) l lo hi rlo rhi → (l = 0 → ¬InBlock rlo rhi lo) →
    (C → Note.staleW ∈ N ∨ WReach b G s T) →
    Ends N (remove T lo hi) s (fun va s' => hi ≤ va ∧ ∃ G',
      Left b l T C (Ranged l lo lo hi (Cleared b rlo rhi)) G s G' s') E

end

section

variable {N : Set Note} {C : Prop} {E : Panic → Mem → Prop} {lower : Frame → ℕ → ℕ → Kern ℕ}

/-- A page table is entered when its 2MB are not removed as a whole. -/
theorem not_inBlock_of_part {k : Kind} (h : Span k 1 lo hi rlo rhi) (h₁ : lo ≤ va) (h₂ : va < hi)
    (ha : va = lo ∨ pdOff 1 va = 0) (hpart : ¬(pdOff 1 va = 0 ∧ pdSize 1 ≤ hi - va)) :
    ¬InBlock rlo rhi va := by
  rintro ⟨hlo, hhi⟩
  have hb := h.block_eq h₁ h₂
  have hp₁ := h.part (va / pdSize 1 * pdSize 1)
  have hp₂ := h.part ((va / pdSize 1 + 1) * pdSize 1 - 1)
  have h21 : pdSize 1 = 2097152 := by decide
  have h30 : pdSize (1 + 1) = 1073741824 := by decide
  unfold pdOff at ha hpart
  rw [h21] at hlo hhi hp₁ hp₂ ha hpart
  rw [h30] at hb hp₁ hp₂
  have hin₁ := (hp₁ (by omega)).2 ⟨hlo, by omega⟩
  have hin₂ := (hp₂ (by omega)).2 ⟨by omega, by omega⟩
  omega

/-- One round: the entry is skipped, dropped as a whole, or entered. -/
theorem removeEntry_ends (hN : C → Note.ignored ∈ N) (hS : Sound b G s) (hT : (G.kind T).level = some l)
    (hsp : Span (G.kind T) l lo hi rlo rhi) (h₁ : lo ≤ va) (h₂ : va < hi)
    (ha : va = lo ∨ pdOff l va = 0) (h0 : l = 0 → ¬InBlock rlo rhi lo)
    (hC : C → Note.staleW ∈ N ∨ WReach b G s T)
    (hlow : ∀ m, l = m + 1 → Removes b N C rlo rhi E m lower) :
    Ends N (removeEntry b lower l T hi va (pdx l va)) s (fun va' s' =>
      va < va' ∧ (va' < hi → va' = (va / pdSize l + 1) * pdSize l) ∧ ∃ G',
        Left b l T C (Ranged l lo va (min va' hi) (Cleared b rlo rhi)) G s G' s') E := by
  have hm := hsp.maps va h₁ h₂
  have hu := Kind.maps_user hT hm
  have hb := hsp.block_eq h₁ h₂
  unfold removeEntry readEntry writeEntry
  refine ends_bind (ends_bind_get (ends_pure.2 (ends_ite (fun hz => ?_) fun hz => ends_ite ?_ ?_)))
  · have hnext : pdAddr l (va + pdSize l) = (va / pdSize l + 1) * pdSize l := by
      rw [pdAddr_eq, Nat.add_div_right _ (pdSize_pos l)]
    refine ends_pure.2 ⟨?_, fun _ => hnext, G, hS.left_refl fun a hma hab => ?_⟩
    · rw [hnext]
      exact next_lt _ _
    · split
      · rename_i hin
        have hidx : pdx l a = pdx l va := by
          rw [hnext] at hin
          refine (div_of_pdx (hab.trans hb.symm)).2 (block_of_lt ((block_le _ _).trans hin.1) ?_)
          exact hin.2.trans_le (min_le_left _ _)
        cases l with
        | zero =>
          refine ⟨fun _ _ => rfl, fun hn => absurd ⟨?_, ?_⟩ hn⟩
          · simp only [viewAt, Pte.clearW_frame, hidx]
            exact hz
          · unfold InBlock
            rw [hab]
            exact h0 rfl
        | succ m =>
          have hv : viewAt b s a (m + 1) T = ⟨pteZero b, s.page b.zero, false, false⟩ :=
            viewAt_none (by rw [hidx]; exact hz)
          rw [hv]
          exact cleared_of_leaf rfl rfl
      · exact View.Keeps.refl _
  · -- the whole entry
    rintro ⟨hoff, hle⟩
    have hstart := pdOff_eq_zero.1 hoff
    have hnext : (va / pdSize l + 1) * pdSize l = va + pdSize l := by
      rw [Nat.succ_mul, hstart]
    have hp : G.kind T = .root → pdx l va ≠ 0 := by
      intro hr hx
      rw [hr] at hT hm
      obtain rfl : 3 = l := Option.some.inj hT
      obtain ⟨hlo, hhi⟩ : vmUserLo ≤ va ∧ va < vmUserHi := hm
      unfold vmUserLo at hlo
      unfold vmUserHi at hhi
      simp only [pdx, pdSize] at hx
      simp only [pdSize] at hstart
      omega
    refine ends_bind ((hS.drop_ends hu hT hp hz).imp ?_)
    rintro _ s₁ ⟨G', hS', hn, hput⟩
    refine ends_bind (ends_modify (ends_pure.2 ⟨?_, fun _ => hnext.symm, G', hS', hput.base, hn, fun _ => hput.dry,
      fun _ => hput.acts hS.toWhole hT (fun a hma hi' hab => ?_) (fun a v hne hab => ?_)⟩))
    · have := pdSize_pos l
      omega
    · have hba : a / pdSize l = va / pdSize l := (div_of_pdx (hab.trans hb.symm)).1 hi'
      have hlo : va ≤ a := by
        have := block_le l a
        rw [hba, hstart] at this
        exact this
      have hhi : a < va + pdSize l := by
        rw [← hnext]
        exact lt_of_block hba
      rw [if_pos ⟨hlo, lt_min hhi (by omega)⟩]
      cases l with
      | zero =>
        refine ⟨fun hv _ => ?_, fun _ => ?_⟩
        · simp only [viewAt, hi', Pte.clearW_frame] at hv
          exact absurd hv hz
        · simp only [viewAt, hi', hput.entry, pteZero_clearW]
      | succ m =>
        have hin : InBlock rlo rhi a := by
          have hdvd : pdSize 1 ∣ pdSize (m + 1) :=
            ⟨512 ^ m, by unfold pdSize; rw [pow_succ, pow_one]; ring⟩
          have hd₁ : pdSize 1 ∣ va := hdvd.trans (Nat.dvd_of_mod_eq_zero hoff)
          have h₃ : va / pdSize 1 ≤ a / pdSize 1 := Nat.div_le_div_right hlo
          have hd₂ : pdSize 1 ∣ va + pdSize (m + 1) := hd₁.add hdvd
          have h₄ : a / pdSize 1 + 1 ≤ (va + pdSize (m + 1)) / pdSize 1 := by
            refine (Nat.div_lt_iff_lt_mul (pdSize_pos 1)).2 ?_
            rw [Nat.div_mul_cancel hd₂]
            exact hhi
          have hpart := fun x hx => (hsp.part x hx).1
          have hrlo : rlo ≤ va := (hpart va hb ⟨h₁, h₂⟩).1
          have hrhi : va + pdSize (m + 1) ≤ rhi := by
            have hlast : (va + pdSize (m + 1) - 1) / pdSize (m + 1 + 1) = lo / pdSize (m + 1 + 1) := by
              have := pdSize_pos (m + 1)
              exact hsp.block_eq (by omega) (by omega)
            have := pdSize_pos (m + 1)
            have := (hpart _ hlast ⟨by omega, by omega⟩).2
            omega
          refine ⟨?_, ?_⟩
          · calc rlo ≤ va := hrlo
              _ = va / pdSize 1 * pdSize 1 := (Nat.div_mul_cancel hd₁).symm
              _ ≤ a / pdSize 1 * pdSize 1 := Nat.mul_le_mul_right _ h₃
          · calc (a / pdSize 1 + 1) * pdSize 1
                ≤ (va + pdSize (m + 1)) / pdSize 1 * pdSize 1 := Nat.mul_le_mul_right _ h₄
              _ = va + pdSize (m + 1) := Nat.div_mul_cancel hd₂
              _ ≤ rhi := hrhi
        refine ⟨fun _ hn' => absurd hin hn', fun _ => ?_⟩
        rw [viewAt_none (by rw [hi', hput.entry]; rfl)]
    · rw [if_neg]
      · exact View.Keeps.refl _
      · rintro ⟨hlo, hhi⟩
        refine hne ((div_of_pdx (hab.trans hb.symm)).2 (block_of_lt ((block_le _ _).trans hlo) ?_))
        rw [hnext]
        exact hhi.trans_le (min_le_left _ _)
  · -- part of the entry
    intro hpart
    obtain ⟨m, rfl⟩ : ∃ m, l = m + 1 := by
      cases l with
      | succ m => exact ⟨m, rfl⟩
      | zero => exact absurd (hsp.whole h₂ ha) hpart
    refine ends_bind_get (ends_bind_noteIf fun hst => ends_bind ((pmapWalkLevel_ends hS hT hm).imp ?_))
    rintro r s₁ ⟨G₁, hw⟩
    refine ends_bind_noteIf fun hig => ?_
    have hr : C → r ≠ none := fun hc => hig (hN hc)
    have hz₁ := hw.stays hz
    have hpath : C → (s₁.entry T (pdx (m + 1) va)).isW = true ∧ (s₁.entry T (pdx (m + 1) va)).isP = true := by
      intro hc
      obtain ⟨x, hx⟩ := Option.ne_none_iff_exists'.1 (hr hc)
      obtain ⟨-, -, -, -, hW, hP, -⟩ := hw.leaf x.1 x.2 hx
      exact ⟨hW, hP⟩
    have hleft := hw.left (C := C) hS hT hr
    have hT₁ : G₁.kind T = G.kind T := hleft.kind_T hT
    have hm₁ : (G₁.kind T).maps va := by
      rw [hT₁]
      exact hm
    have hl₁ : (G₁.kind T).level = some (m + 1) := by
      rw [hT₁]
      exact hT
    have hs₁ := hw.sound.slot_maps hl₁ hm₁ hz₁
    obtain ⟨hlev, -⟩ := kid_of_slot hw.sound.toGood hl₁ hm₁ hs₁
    refine ends_bind (ends_bind_get (ends_pure.2 ?_))
    set t := (s₁.entry T (pdx (m + 1) va)).frame with ht
    have hone : C → s₁.refcount t = 1 := fun hc =>
      hw.single hS hT hm (hr hc) ((hC hc).imp (fun h hW' => by_contra fun hne => hst h ⟨hW', hne⟩) id)
    have hspan := hsp.lower hT h₁ h₂ ha
    have hkt : G₁.kind t = (G.kind T).kid (pdx (m + 1) va) := by
      rw [hw.sound.typed hs₁, hT₁]
    refine ends_bind ((hlow m rfl G₁ s₁ t va _ hw.sound hlev (by rw [hkt]; exact hspan) ?_ ?_).imp ?_)
    · rintro rfl
      exact not_inBlock_of_part hsp h₁ h₂ ha hpart
    · intro hc
      refine (hC hc).imp id fun h => ?_
      exact (hleft.wreach hS hT h).step hs₁ (hpath hc).1
    · rintro _ s₂ ⟨-, G₂, hl₂⟩
      have hlift := hl₂.lift hw.sound hl₁ hm₁ rfl hz₁ (fun hc => (hpath hc).1) (fun hc => (hpath hc).2) hone
        (by rw [entryEnd_eq]; exact min_le_left _ _)
      refine ends_pure.2 ⟨?_, ?_, G₂, ?_⟩
      · rw [entryEnd_eq]
        exact lt_min (next_lt _ _) h₂
      · rw [entryEnd_eq]
        intro hlt
        rcases min_choice ((va / pdSize (m + 1) + 1) * pdSize (m + 1)) hi with e | e
        · exact e
        · rw [e] at hlt
          exact absurd hlt (lt_irrefl _)
      · refine hleft.trans hlift hT fun a v v₁ v₂ _ hK hR hab => ?_
        have hR := hR (hab.trans hb.symm)
        rw [min_eq_left (min_le_right _ _)]
        split at hR
        · rename_i hin
          rw [if_pos hin]
          exact (stable_cleared b rlo rhi).pre hK hR
        · rename_i hin
          rw [if_neg hin]
          exact hK.trans hR

/-- The loop over the entries of a table. -/
theorem removeLoop_ends (hN : C → Note.ignored ∈ N)
    (hlow : ∀ m, l = m + 1 → Removes b N C rlo rhi E m lower) :
    Removes b N C rlo rhi E l (removeLoop b lower l) := by
  intro G s T lo hi hS hT hsp h0 hC
  unfold removeLoop
  refine ends_bind (ends_whileM (I := fun x s' => lo ≤ x.1 ∧
    (x.1 < hi → (x.1 = lo ∨ pdOff l x.1 = 0) ∧ x.2 = pdx l x.1) ∧ ∃ G',
      Left b l T C (Ranged l lo lo (min x.1 hi) (Cleared b rlo rhi)) G s G' s') (fun x => hi - x.1)
    ?_ ?_ ?_ _ _ _ le_rfl ?_)
  · rintro ⟨va, i⟩ s' - hc
    simp only [decide_eq_true_eq] at hc
    omega
  · rintro ⟨va, i⟩ s' ⟨h₁, hx, G', hl⟩ hc
    simp only [decide_eq_true_eq] at h₁ hx hc hl ⊢
    obtain ⟨ha, rfl⟩ := hx hc
    have hk := hl.kind_T hT
    refine ends_bind ((removeEntry_ends hN hl.sound (by rw [hk]; exact hT) (by rw [hk]; exact hsp) h₁ hc
      ha h0 (fun h => (hC h).imp id (hl.wreach hS hT)) hlow).imp ?_)
    rintro va' s₂ ⟨hlt, hnext, G₂, hl₂⟩
    refine ends_pure.2 ⟨⟨by omega, fun hva => ?_, G₂, ?_⟩, by simp only; omega⟩
    · have he := hnext hva
      simp only at hva ⊢
      rw [he] at hva
      obtain ⟨-, hidx⟩ := next_block (hva.trans_le hsp.block) (hsp.block_eq h₁ hc)
      rw [he]
      refine ⟨.inr (pdOff_eq_zero.2 ?_), hidx.symm⟩
      rw [next_div]
    · rw [min_eq_left hc.le] at hl
      exact hl.trans hl₂ hT fun a v v₁ v₂ _ => Ranged.comp (stable_cleared b rlo rhi) h₁ (le_min hlt.le hc.le)
  · rintro ⟨va, i⟩ s' ⟨-, -, G', hl⟩ hc
    simp only [decide_eq_false_iff_not, not_lt] at hc hl
    rw [min_eq_right hc] at hl
    exact ends_pure.2 ⟨hc, G', hl⟩
  · refine ⟨le_rfl, fun _ => ⟨.inl rfl, rfl⟩, G, hS.left_refl fun a _ _ => ?_⟩
    rw [if_neg (by omega)]
    exact View.Keeps.refl _

/-- **Removing a stretch of a table.** -/
theorem pmapRemoveLevel_ends (hN : C → Note.ignored ∈ N) (l : ℕ) :
    Removes b N C rlo rhi E l (pmapRemoveLevel b l) := by
  induction l with
  | zero =>
    unfold pmapRemoveLevel
    exact removeLoop_ends hN nofun
  | succ m ih =>
    unfold pmapRemoveLevel
    refine removeLoop_ends hN fun m' hm => ?_
    obtain rfl : m = m' := by omega
    exact ih

end

end Determinator
