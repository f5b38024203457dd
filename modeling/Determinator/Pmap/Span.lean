import Determinator.Pmap.Entries

/-!
# Stretches of addresses

The operations on a region go through its tables from the top. `Span` is the stretch of the region
that one table is for; the stretch of an entry is `Span.lower`. `Left` is what an operation on such a
stretch leaves when it returns.
-/

namespace Determinator

open PanicM

variable {b : Boot} {G G' G₁ G₂ : Ghost} {s s' s₁ s₂ : Mem} {f g t T : Frame} {k : Kind}
  {i l m va lo mid hi rlo rhi : ℕ}

/-! ## Addresses -/

theorem pdAddr_eq (l va : ℕ) : pdAddr l va = va / pdSize l * pdSize l := by
  unfold pdAddr
  have := Nat.div_add_mod va (pdSize l)
  rw [Nat.mul_comm] at this
  omega

theorem div_succ (l va : ℕ) : va / pdSize (l + 1) = va / pdSize l / 512 := by
  rw [pdSize_succ, Nat.div_div_eq_div_mul, Nat.mul_comm]

theorem pdx_eq (l va : ℕ) : pdx l va = va / pdSize l % 512 := rfl

/-- Addresses with the same entries on the way to a level. -/
theorem div_of_pdx (h : va / pdSize (l + 1) = m / pdSize (l + 1)) :
    pdx l va = pdx l m ↔ va / pdSize l = m / pdSize l := by
  rw [div_succ, div_succ] at h
  rw [pdx_eq, pdx_eq]
  omega

theorem four_dvd (l : ℕ) : 4096 ∣ pdSize l := ⟨512 ^ l, rfl⟩

theorem lt_of_block (h : va / pdSize l = m / pdSize l) : va < (m / pdSize l + 1) * pdSize l := by
  have := Nat.lt_mul_div_succ va (pdSize_pos l)
  rw [Nat.mul_comm] at this
  rw [← h]
  exact this

theorem block_of_lt (h₁ : m / pdSize l * pdSize l ≤ va) (h₂ : va < (m / pdSize l + 1) * pdSize l) :
    va / pdSize l = m / pdSize l :=
  Nat.div_eq_of_lt_le h₁ h₂

theorem block_le (l va : ℕ) : va / pdSize l * pdSize l ≤ va := Nat.div_mul_le_self _ _

/-- The next entry. -/
theorem next_div (l va : ℕ) : (va / pdSize l + 1) * pdSize l / pdSize l = va / pdSize l + 1 :=
  Nat.mul_div_cancel _ (pdSize_pos l)

theorem next_lt (l va : ℕ) : va < (va / pdSize l + 1) * pdSize l := lt_of_block rfl

/-- The next entry is in the same table, if it is before the end of the table. -/
theorem next_block (h : (va / pdSize l + 1) * pdSize l < (m / pdSize (l + 1) + 1) * pdSize (l + 1))
    (hb : va / pdSize (l + 1) = m / pdSize (l + 1)) :
    (va / pdSize l + 1) * pdSize l / pdSize (l + 1) = m / pdSize (l + 1) ∧
      pdx l ((va / pdSize l + 1) * pdSize l) = pdx l va + 1 := by
  generalize m / pdSize (l + 1) = q at *
  rw [pdSize_succ, ← Nat.mul_assoc] at h
  have hlt : va / pdSize l + 1 < (q + 1) * 512 := Nat.lt_of_mul_lt_mul_right h
  rw [div_succ] at hb
  rw [div_succ, pdx_eq, pdx_eq, next_div]
  omega

theorem pdOff_eq_zero : pdOff l va = 0 ↔ va / pdSize l * pdSize l = va := by
  unfold pdOff
  have := Nat.div_add_mod va (pdSize l)
  rw [Nat.mul_comm] at this
  omega

/-! ## Stretches -/

/-- The stretch `lo, …, hi - 1` of the region `rlo, …, rhi - 1` that a level-`l` table of kind `k` is
for. -/
structure Span (k : Kind) (l lo hi rlo rhi : ℕ) : Prop where
  lo_dvd : 4096 ∣ lo
  hi_dvd : 4096 ∣ hi
  lt : lo < hi
  block : hi ≤ (lo / pdSize (l + 1) + 1) * pdSize (l + 1)
  maps : ∀ a, lo ≤ a → a < hi → k.maps a
  part : ∀ a, a / pdSize (l + 1) = lo / pdSize (l + 1) → (lo ≤ a ∧ a < hi ↔ rlo ≤ a ∧ a < rhi)

/-- The end of the stretch of an entry. -/
theorem entryEnd_eq (l va hi : ℕ) :
    min (pdAddr l va + pdSize l) hi = min ((va / pdSize l + 1) * pdSize l) hi := by
  rw [pdAddr_eq, Nat.succ_mul]

namespace Span

theorem block_eq (h : Span k l lo hi rlo rhi) (h₁ : lo ≤ va) (h₂ : va < hi) :
    va / pdSize (l + 1) = lo / pdSize (l + 1) :=
  block_of_lt ((block_le _ _).trans h₁) (h₂.trans_le h.block)

/-- What is left of the stretch of a page table begins with a whole entry. -/
theorem whole (h : Span k 0 lo hi rlo rhi) (h₂ : va < hi) (ha : va = lo ∨ pdOff 0 va = 0) :
    pdOff 0 va = 0 ∧ pdSize 0 ≤ hi - va := by
  have hd := h.lo_dvd
  have hd' := h.hi_dvd
  unfold pdOff at *
  simp only [pdSize, pow_zero, mul_one] at *
  omega

/-- The stretch of an entry, from the beginning of the stretch or of the entry on. -/
theorem lower (h : Span k (l + 1) lo hi rlo rhi) (hk : k.level = some (l + 1)) (h₁ : lo ≤ va)
    (h₂ : va < hi) (ha : va = lo ∨ pdOff (l + 1) va = 0) :
    Span (k.kid (pdx (l + 1) va)) l va (min (pdAddr (l + 1) va + pdSize (l + 1)) hi) rlo rhi := by
  rw [entryEnd_eq]
  have hb := h.block_eq h₁ h₂
  have hdvd : 4096 ∣ va := by
    rcases ha with rfl | ha
    · exact h.lo_dvd
    · exact (four_dvd _).trans (Nat.dvd_of_mod_eq_zero ha)
  have hkid : ∀ a, a / pdSize (l + 1) = va / pdSize (l + 1) → lo ≤ a → a < hi →
      (k.kid (pdx (l + 1) va)).maps a := by
    intro a hab hl hh
    have hx : pdx (l + 1) a = pdx (l + 1) va := by
      rw [pdx_eq, pdx_eq, hab]
    rw [← hx]
    exact Kind.maps_kid hk (h.maps a hl hh)
  refine ⟨hdvd, ?_, ?_, min_le_left _ _, fun a hl hh => ?_, fun a hab => ?_⟩
  · rcases min_choice ((va / pdSize (l + 1) + 1) * pdSize (l + 1)) hi with e | e <;> rw [e]
    · exact (four_dvd _).mul_left _
    · exact h.hi_dvd
  · exact lt_min (next_lt _ _) h₂
  · exact hkid a (block_of_lt ((block_le _ _).trans hl) (hh.trans_le (min_le_left _ _)))
      (h₁.trans hl) (hh.trans_le (min_le_right _ _))
  · have hab' : a / pdSize (l + 1 + 1) = lo / pdSize (l + 1 + 1) := by
      rw [← hb, div_succ, div_succ (l + 1) va, hab]
    rw [← h.part a hab']
    have hlt := lt_of_block hab
    have hle := (block_le (l + 1) a)
    rw [hab] at hle
    constructor
    · rintro ⟨hl, hh⟩
      exact ⟨h₁.trans hl, hh.trans_le (min_le_right _ _)⟩
    · rintro ⟨hl, hh⟩
      refine ⟨?_, lt_min hlt hh⟩
      rcases ha with rfl | ha
      · exact hl
      · rwa [pdOff_eq_zero.1 ha] at hle

end Span

/-! ## Operations on a stretch -/

/-- What an operation on the level-`l` table `T` leaves: under the condition `C` it did not run out of
memory, the other tables of the level do not see it, and what happens to the views of `T` is described
by `R`. -/
structure Left (b : Boot) (l : ℕ) (T : Frame) (C : Prop) (R : ℕ → View → View → Prop) (G : Ghost)
    (s : Mem) (G' : Ghost) (s' : Mem) : Prop where
  sound : Sound b G' s'
  base : Base b l G s G' s'
  neat : Neat G G'
  dry : C → s'.dry = s.dry
  acts : C → Acts b l T R G s G' s'

namespace Left

variable {C : Prop} {R R' R'' : ℕ → View → View → Prop}

theorem mono (h : Left b l T C R G s G' s') (hR : ∀ va v v', (G.kind T).maps va → R va v v' → R' va v v') :
    Left b l T C R' G s G' s' :=
  { h with acts := fun hC => (h.acts hC).mono hR }

theorem trans (h : Left b l T C R G s G₁ s₁) (h' : Left b l T C R' G₁ s₁ G₂ s₂)
    (hT : (G.kind T).level = some l)
    (hR : ∀ va v v₁ v₂, (G.kind T).maps va → R va v v₁ → R' va v₁ v₂ → R'' va v v₂) :
    Left b l T C R'' G s G₂ s₂ where
  sound := h'.sound
  base := h.base.trans h'.base
  neat := h.neat.trans h'.neat
  dry hC := (h'.dry hC).trans (h.dry hC)
  acts hC := (h.acts hC).trans (h'.acts hC) hT hR

theorem kind_T (h : Left b l T C R G s G' s') (hT : (G.kind T).level = some l) :
    G'.kind T = G.kind T :=
  h.base.kind T l hT le_rfl

/-- What is reached through writeable entries still is. -/
theorem wreach (h : Left b l T C R G s G' s') (hS : Sound b G s) (hT : (G.kind T).level = some l)
    (hw : WReach b G s T) : WReach b G' s' T :=
  h.base.wreach (hS.level_le hT) hS.toGood h.sound.off hw hT le_rfl

end Left

/-- Nothing has been done. -/
theorem Sound.left_refl {C : Prop} {R : ℕ → View → View → Prop} (h : Sound b G s)
    (hR : ∀ va, (G.kind T).maps va → R va (viewAt b s va l T) (viewAt b s va l T)) :
    Left b l T C R G s G s :=
  ⟨h, Base.refl _ _ _, Neat.refl _, fun _ => rfl,
    fun _ => ⟨Base.refl _ _ _, fun _ _ _ _ _ => View.Keeps.refl _, hR⟩⟩

/-- What is done to a table that one entry leads to is done to a part of the stretch of the entry. -/
theorem Acts.lift_ranged {D : ℕ → View → View → Prop} (h : Acts b l t (Ranged l va lo hi D) G s G' s')
    (hS : Whole b G s) (hT : (G.kind T).level = some (l + 1)) (hm : (G.kind T).maps va)
    (ht : (s.entry T (pdx (l + 1) va)).frame = t) (hz : t ≠ b.zero)
    (hW : (s.entry T (pdx (l + 1) va)).isW = true) (hP : (s.entry T (pdx (l + 1) va)).isP = true)
    (hr : s.refcount t = 1) (hlo : va / pdSize (l + 1) * pdSize (l + 1) ≤ lo)
    (hhi : hi ≤ (va / pdSize (l + 1) + 1) * pdSize (l + 1)) :
    Acts b (l + 1) T (Ranged (l + 1) va lo hi D) G s G' s' := by
  have hs := hS.slot_maps hT hm (by rw [ht]; exact hz)
  rw [ht] at hs
  refine h.lift hS hT hs hr (fun a v v' _ hi' hR hab => ?_) (fun a v v' hne hK hab => ?_)
  · rw [View.under_self hW hP, View.under_self hW hP]
    exact hR ((div_of_pdx hab).1 hi')
  · rw [if_neg]
    · exact hK
    · rintro ⟨h₁, h₂⟩
      exact hne ((div_of_pdx hab).2 (block_of_lt (hlo.trans h₁) (h₂.trans_le hhi)))

theorem Left.lift {C : Prop} {D : ℕ → View → View → Prop} (h : Left b l t C (Ranged l va va hi D) G s G' s')
    (hS : Sound b G s) (hT : (G.kind T).level = some (l + 1)) (hm : (G.kind T).maps va)
    (ht : (s.entry T (pdx (l + 1) va)).frame = t) (hz : t ≠ b.zero)
    (hW : C → (s.entry T (pdx (l + 1) va)).isW = true)
    (hP : C → (s.entry T (pdx (l + 1) va)).isP = true)
    (hr : C → s.refcount t = 1) (hhi : hi ≤ (va / pdSize (l + 1) + 1) * pdSize (l + 1)) :
    Left b (l + 1) T C (Ranged (l + 1) va va hi D) G s G' s' where
  sound := h.sound
  base := h.base.mono (by omega)
  neat := h.neat
  dry := h.dry
  acts hC := (h.acts hC).lift_ranged hS.toWhole hT hm ht hz (hW hC) (hP hC) (hr hC) (block_le _ _) hhi

/-- What a walk leaves, as an operation on the stretch. -/
theorem Walked.left {r : Option (Frame × ℕ)} {C : Prop} (h : Walked b (l + 1) T va G s r G' s')
    (hS : Sound b G s) (hT : (G.kind T).level = some (l + 1)) (hr : C → r ≠ none) :
    Left b (l + 1) T C (fun _ v v' => View.Keeps v v') G s G' s' := by
  refine ⟨h.sound, h.tame.base hS, h.tame.neat, fun hC => ?_, fun _ => h.tame.acts hS hT⟩
  obtain ⟨x, hx⟩ := Option.ne_none_iff_exists'.1 (hr hC)
  exact (h.leaf x.1 x.2 hx).1

/-- What the lower table has for references after the walk. -/
theorem Walked.single {r : Option (Frame × ℕ)} (h : Walked b (l + 1) T va G s r G' s')
    (hS : Sound b G s) (hT : (G.kind T).level = some (l + 1)) (hm : (G.kind T).maps va) (hr : r ≠ none)
    (hw : ((s.entry T (pdx (l + 1) va)).isW = true →
      s.refcount (s.entry T (pdx (l + 1) va)).frame = 1) ∨ WReach b G s T) :
    s'.refcount (s'.entry T (pdx (l + 1) va)).frame = 1 := by
  cases hW : (s.entry T (pdx (l + 1) va)).isW with
  | false => exact h.fresh hr hW
  | true =>
    obtain ⟨h₁, h₂⟩ := h.kept hr hW
    rw [h₁, h₂]
    rcases hw with hw | hw
    · exact hw hW
    · have hs := hS.slot_maps hT hm (hS.zeroRO _ _ (Kind.maps_user hT hm) hW)
      refine hS.single _ (hw.step hs hW) ?_
      rw [hS.typed hs]
      exact Kind.kid_ne_root _ _

end Determinator
