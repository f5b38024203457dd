import Determinator.Pmap.Effects

/-!
# Freeing a page map

`pmap_freepmap` removes everything from the user area of a page map and frees its root. All entries of the root but
the first are given up as a whole. The first one is for the 512GB below which there is the kernel: its table is
entered, and all its entries for user memory are given up; the table itself stays, and nothing points to it once the
root is free.
-/

namespace Determinator

open PanicM

variable {b : Boot} {G G' G₁ G₂ : Ghost} {s s' s₁ s₂ : Mem} {f g q r t T : Frame} {i j k l m n va hi : ℕ}

/-! ## Giving up entries -/

/-- The entries of `T` from `i` up to `j` lead nowhere, and nothing else has been written. -/
structure Dropped (b : Boot) (T : Frame) (i j : ℕ) (s s' : Mem) : Prop where
  gone : ∀ k, i ≤ k → k < j → (s'.entry T k).frame = b.zero
  same : ∀ k < 512, k < i ∨ j ≤ k → s'.entry T k = s.entry T k
  page : ∀ u, u ≠ T → s'.page u = s.page u

theorem Dropped.refl (T : Frame) (i : ℕ) (s : Mem) : Dropped b T i i s s :=
  ⟨fun _ _ _ => by omega, fun _ _ _ => rfl, fun _ _ => rfl⟩

theorem Dropped.trans (h : Dropped b T i j s s₁) (h' : Dropped b T j k s₁ s') (h₁ : i ≤ j) (h₂ : j ≤ k) (h₃ : j ≤ 512) :
    Dropped b T i k s s' where
  gone m hi hk := by
    by_cases hm : m < j
    · rw [h'.same m (by omega) (.inl hm)]
      exact h.gone m hi hm
    · exact h'.gone m (by omega) hk
  same m hm hout := by
    rw [h'.same m hm (by omega), h.same m hm (by omega)]
  page u hu := (h'.page u hu).trans (h.page u hu)

theorem Dropped.entry (h : Dropped b T i j s s') (hu : t ≠ T) (hk : k < 512) : s'.entry t k = s.entry t k :=
  entry_congr hk (h.page t hu)

section

variable {N : Set Note} {E : Panic → Mem → Prop} {lower : Frame → ℕ → ℕ → Kern ℕ}

/-- One round, at an entry that is given up as a whole. -/
theorem dropEntry_ends (hS : Sound b G s) (hT : (G.kind T).level = some l) (hx : pdx l va = i)
    (hu : (G.kind T).user i = true) (hp : G.kind T = .root → i ≠ 0) (hoff : pdOff l va = 0) (hle : pdSize l ≤ hi - va) :
    Ends N (removeEntry b lower l T hi va i) s (fun va' s' => va' = va + pdSize l ∧ ∃ G',
      Left b l T True Any G s G' s' ∧ Dropped b T i (i + 1) s s') E := by
  subst hx
  have hi := Kind.user_lt hu
  have hstart := pdOff_eq_zero.1 hoff
  unfold removeEntry readEntry writeEntry
  refine ends_bind (ends_bind_get (ends_pure.2 (ends_ite (fun hz => ?_) fun hz => ?_)))
  · refine ends_pure.2 ⟨?_, G, hS.left_refl fun _ _ => trivial, fun k h₁ h₂ => ?_, fun _ _ _ => rfl, fun _ _ => rfl⟩
    · rw [pdAddr_eq, Nat.add_div_right _ (pdSize_pos l), Nat.succ_mul, hstart]
    · obtain rfl : k = pdx l va := by omega
      exact hz
  · rw [if_pos ⟨hoff, hle⟩]
    refine ends_bind ((hS.drop_ends hu hT hp hz).imp ?_)
    rintro _ s₁ ⟨G', hS', hn, hput⟩
    refine ends_bind (ends_modify (ends_pure.2 ⟨rfl, G', hput.left hS hS' hn hT, fun k h₁ h₂ => ?_, fun k hk hne => ?_,
      hput.page⟩))
    · obtain rfl : k = pdx l va := by omega
      rw [hput.entry]
      exact pteZero_frame b
    · exact hput.same k hk (by omega)

theorem pdx_add_mul (hlt : pdx l va + m < 512) : pdx l (va + m * pdSize l) = pdx l va + m := by
  rw [pdx_eq] at hlt ⊢
  rw [pdx_eq, Nat.add_mul_div_right _ _ (pdSize_pos l)]
  omega

theorem pdOff_add_mul (h : pdOff l va = 0) (m : ℕ) : pdOff l (va + m * pdSize l) = 0 := by
  unfold pdOff at *
  rw [Nat.add_mul_mod_self_right, h]

/-- The loop, where all the entries are given up. -/
theorem dropLoop_ends (hS : Sound b G s) (hT : (G.kind T).level = some l)
    (hu : ∀ k, pdx l va ≤ k → k < pdx l va + n → (G.kind T).user k = true ∧ (G.kind T = .root → k ≠ 0))
    (hoff : pdOff l va = 0) :
    Ends N (removeLoop b lower l T va (va + n * pdSize l)) s (fun _ s' => ∃ G',
      Left b l T True Any G s G' s' ∧ Dropped b T (pdx l va) (pdx l va + n) s s') E := by
  have hpos := pdSize_pos l
  unfold removeLoop
  refine ends_bind (ends_whileM (I := fun x s' => ∃ m ≤ n, x = (va + m * pdSize l, pdx l va + m) ∧ ∃ G',
    Left b l T True Any G s G' s' ∧ Dropped b T (pdx l va) (pdx l va + m) s s') (fun x => va + n * pdSize l - x.1)
    ?_ ?_ ?_ _ _ _ le_rfl ?_)
  · rintro x s' - hc
    simp only [decide_eq_true_eq] at hc
    omega
  · rintro x s' ⟨m, hm, rfl, G', hl, hd⟩ hc
    simp only [decide_eq_true_eq] at hc ⊢
    have hlt : m < n := by
      by_contra hge
      have := Nat.mul_le_mul_right (pdSize l) (not_lt.1 hge)
      omega
    obtain ⟨hum, hpm⟩ := hu (pdx l va + m) (by omega) (by omega)
    have hk := hl.kind_T hT
    have hx := pdx_add_mul (Kind.user_lt hum)
    have hnext : va + (m + 1) * pdSize l ≤ va + n * pdSize l :=
      Nat.add_le_add_left (Nat.mul_le_mul_right _ hlt) _
    rw [Nat.succ_mul] at hnext
    refine ends_bind ((dropEntry_ends hl.sound (by rw [hk]; exact hT) hx (by rw [hk]; exact hum) (by rw [hk]; exact hpm)
      (pdOff_add_mul hoff m) (by omega)).imp ?_)
    rintro _ s₂ ⟨rfl, G₂, hl₂, hd₂⟩
    refine ends_pure.2 ⟨⟨m + 1, hlt, ?_, G₂, hl.trans hl₂ hT fun _ _ _ _ _ _ _ => trivial, ?_⟩, ?_⟩
    · rw [Nat.succ_mul, Nat.add_assoc, Nat.add_assoc]
    · exact hd.trans hd₂ (by omega) (by omega) (Kind.user_lt hum).le
    · simp only
      omega
  · rintro x s' ⟨m, hm, rfl, G', hl, hd⟩ hc
    simp only [decide_eq_false_iff_not, not_lt] at hc
    obtain rfl : m = n := by
      refine le_antisymm hm (not_lt.1 fun hlt => ?_)
      have := Nat.mul_lt_mul_of_pos_right hlt hpos
      omega
    exact ends_pure.2 ⟨G', hl, hd⟩
  · exact ⟨0, Nat.zero_le _, by simp, G, hS.left_refl fun _ _ => trivial, Dropped.refl _ _ _⟩

end

/-! ## The root -/

/-- What an operation on a level-`l` table leaves, whether or not it has run out of memory. -/
structure Drops (b : Boot) (l : ℕ) (T : Frame) (G : Ghost) (s : Mem) (G' : Ghost) (s' : Mem) : Prop where
  sound : Sound b G' s'
  neat : Neat G G'
  acts : Acts b l T Any G s G' s'

theorem Left.drops (h : Left b l T True Any G s G' s') : Drops b l T G s G' s' := ⟨h.sound, h.neat, h.acts trivial⟩

theorem Drops.trans (h : Drops b l T G s G₁ s₁) (h' : Drops b l T G₁ s₁ G' s') (hT : (G.kind T).level = some l) :
    Drops b l T G s G' s' :=
  ⟨h'.sound, h.neat.trans h'.neat, h.acts.trans h'.acts hT fun _ _ _ _ _ _ _ => trivial⟩

/-- The table of the first 512GB of a page map. -/
def Mem.low (s : Mem) (r : Frame) : Frame := (s.entry r 0).frame

theorem Sound.slot_low (h : Sound b G s) (hr : G.kind r = .root) : slot b G s r 0 = some (s.low r) :=
  slot_of_user (by rw [hr]; rfl) (h.pinned r hr).2.2 (h.pinned r hr).1

theorem Sound.kind_low (h : Sound b G s) (hr : G.kind r = .root) : G.kind (s.low r) = .low := by
  rw [h.typed (h.slot_low hr), hr]
  rfl

theorem Sound.low_ne (h : Sound b G s) (hr : G.kind r = .root) : s.low r ≠ r := by
  intro e
  have hk := h.kind_low hr
  rw [e, hr] at hk
  cases hk

/-- No other page map has it. -/
theorem Sound.refcount_low (h : Sound b G s) (hr : G.kind r = .root) : s.refcount (s.low r) = 1 := by
  refine h.single _ (.step (.root hr) (h.slot_low hr) (h.pinned r hr).2.1) ?_
  rw [h.kind_low hr]
  simp

/-- The entries of a root lead nowhere up to `n`, and so do those of the table of the first 512GB. -/
structure Bare (b : Boot) (r : Frame) (n : ℕ) (s : Mem) : Prop where
  top : ∀ k, 1 ≤ k → k < n → (s.entry r k).frame = b.zero
  low : ∀ k, 1 ≤ k → k < 512 → (s.entry (s.low r) k).frame = b.zero

/-- Another entry of the root is given up. -/
theorem Bare.drop (h : Bare b r n s) (hd : Dropped b r n (n + 1) s s') (h₁ : 1 ≤ n) (h₂ : n < 256) (hne : s.low r ≠ r) :
    Bare b r (n + 1) s' where
  top k hk hlt := by
    by_cases hkn : k < n
    · rw [hd.same k (by omega) (.inl hkn)]
      exact h.top k hk hkn
    · exact hd.gone k (by omega) hlt
  low k hk hlt := by
    have hsame : s'.low r = s.low r := congrArg Pte.frame (hd.same 0 (by omega) (.inl (by omega)))
    rw [hsame, hd.entry hne hlt]
    exact h.low k hk hlt

section

variable {E : Panic → Mem → Prop}

/-- The first round: the table of the first 512GB is entered, and all its entries are given up. The walk before that
may find no memory for tables that would be given up again at once. -/
theorem firstEntry_ends (hS : Sound b G s) (hr : G.kind r = .root) :
    Ends ∅ (removeEntry b (pmapRemoveLevel b 2) 3 r vmUserHi vmUserLo 0) s (fun va' s' => va' = pdSize 3 ∧ ∃ G',
      Drops b 3 r G s G' s' ∧ Bare b r 1 s') E := by
  have hT : (G.kind r).level = some 3 := by rw [hr]; rfl
  have hm : (G.kind r).maps vmUserLo := by
    rw [hr]
    exact ⟨le_rfl, by decide⟩
  have hidx : pdx 3 vmUserLo = 0 := by decide
  unfold removeEntry readEntry
  refine ends_bind (ends_bind_get (ends_pure.2 ?_))
  rw [if_neg (hS.pinned r hr).1, if_neg (by decide)]
  refine ends_bind_get (ends_bind_noteIf fun _ => ends_bind ((pmapWalkLevel_ends hS hT hm).imp ?_))
  rintro x s₁ ⟨G₁, hw⟩
  refine ends_bind_noteIf fun _ => ends_bind (ends_bind_get (ends_pure.2 ?_))
  have hr₁ : G₁.kind r = .root := (hw.tame.kind r (by rw [hr]; simp)).trans hr
  have hlow := hw.sound.kind_low hr₁
  have hd₁ : Drops b 3 r G s G₁ s₁ := ⟨hw.sound, hw.tame.neat, (hw.tame.acts hS hT).mono fun _ _ _ _ _ => trivial⟩
  have hoff : pdOff 2 vmUserLo = 0 := by decide
  have hone : pdx 2 vmUserLo = 1 := by decide
  have hend : min (pdAddr 3 vmUserLo + pdSize 3) vmUserHi = vmUserLo + 511 * pdSize 2 := by decide
  rw [hend]
  have huser : ∀ k, pdx 2 vmUserLo ≤ k → k < pdx 2 vmUserLo + 511 →
      (G₁.kind (s₁.low r)).user k = true ∧ (G₁.kind (s₁.low r) = .root → k ≠ 0) := by
    intro k h₁ h₂
    rw [hone] at h₁ h₂
    rw [hlow]
    simp only [Kind.user, Bool.and_eq_true, decide_eq_true_eq]
    exact ⟨by omega, by simp⟩
  refine ends_bind ((dropLoop_ends hw.sound (by rw [hlow]; rfl) huser hoff).imp ?_)
  rintro _ s₂ ⟨G₂, hl, hd⟩
  have hup := hl.up hw.sound (by rw [hr₁]; rfl) (hw.sound.slot_low hr₁) fun _ => hw.sound.refcount_low hr₁
  refine ends_pure.2 ⟨by decide, G₂, hd₁.trans hup.drops hT, fun k h₁ h₂ => by omega, fun k h₁ h₂ => ?_⟩
  have hsame : s₂.low r = s₁.low r := congrArg Pte.frame (hd.entry (hw.sound.low_ne hr₁).symm (by decide))
  rw [hsame]
  exact hd.gone k (by omega) (by omega)

/-- The loop over the root. -/
theorem rootLoop_ends (hS : Sound b G s) (hr : G.kind r = .root) :
    Ends ∅ (pmapRemoveLevel b nptLvls r vmUserLo vmUserHi) s (fun va s' => va = vmUserHi ∧ ∃ G',
      Drops b 3 r G s G' s' ∧ Bare b r 256 s') E := by
  have hT : (G.kind r).level = some 3 := by rw [hr]; rfl
  have hhi : vmUserHi = 256 * pdSize 3 := by decide
  have hpos := pdSize_pos 3
  change Ends ∅ (removeLoop b (pmapRemoveLevel b 2) 3 r vmUserLo vmUserHi) s _ E
  unfold removeLoop
  -- the first entry is apart; then the entries up to `m` have been given up
  refine ends_bind (ends_whileM (I := fun x s' => x = (vmUserLo, 0) ∧ s' = s ∨
    ∃ m, 1 ≤ m ∧ m ≤ 256 ∧ x = (m * pdSize 3, m) ∧ ∃ G', Drops b 3 r G s G' s' ∧ Bare b r m s')
    (fun x => vmUserHi - x.1) ?_ ?_ ?_ _ _ _ le_rfl (.inl ⟨rfl, rfl⟩))
  · rintro x s' - hc
    simp only [decide_eq_true_eq] at hc
    omega
  · rintro x s' (⟨rfl, rfl⟩ | ⟨m, h₁, h₂, rfl, G', hd, hbare⟩) hc
    · refine ends_bind ((firstEntry_ends hS hr).imp ?_)
      rintro _ s₁ ⟨rfl, G₁, hd, hbare⟩
      exact ends_pure.2 ⟨.inr ⟨1, le_rfl, by omega, by rw [one_mul], G₁, hd, hbare⟩, by decide⟩
    · simp only [decide_eq_true_eq] at hc ⊢
      have hm : m < 256 := by
        rw [hhi] at hc
        exact lt_of_mul_lt_mul_right hc (Nat.zero_le _)
      have hr' : G'.kind r = .root := (hd.acts.toBase.root le_rfl).2 hr
      have hidx : pdx 3 (m * pdSize 3) = m := by
        rw [pdx_eq, Nat.mul_div_cancel _ hpos]
        omega
      have hnext : m * pdSize 3 + pdSize 3 ≤ vmUserHi := by
        rw [hhi, ← Nat.succ_mul]
        exact Nat.mul_le_mul_right _ hm
      have hum : (G'.kind r).user m = true := by
        rw [hr']
        simpa [Kind.user] using hm
      refine ends_bind ((dropEntry_ends hd.sound (by rw [hr']; rfl) hidx hum (fun _ => by omega) (Nat.mul_mod_left _ _)
        (by omega)).imp ?_)
      rintro _ s₂ ⟨rfl, G₂, hl₂, hd₂⟩
      refine ends_pure.2 ⟨.inr ⟨m + 1, by omega, hm, by rw [Nat.succ_mul], G₂, hd.trans hl₂.drops hT,
        hbare.drop hd₂ h₁ hm (hd.sound.low_ne hr')⟩, ?_⟩
      simp only
      omega
  · rintro x s' (⟨rfl, rfl⟩ | ⟨m, h₁, h₂, rfl, G', hd, hbare⟩) hc
    · exact absurd hc (by decide)
    · simp only [decide_eq_false_iff_not, not_lt] at hc
      rw [hhi] at hc
      obtain rfl : m = 256 := le_antisymm h₂ (Nat.le_of_mul_le_mul_right hc hpos)
      exact ends_pure.2 ⟨hhi.symm, G', hd, hbare⟩

/-- Everything is removed from the user area. -/
theorem pmapRemove_all_ends (hS : Sound b G s) (hr : G.kind r = .root) :
    Ends ∅ (pmapRemove b r vmUserLo (vmUserHi - vmUserLo)) s (fun _ s' => ∃ G',
      Drops b 3 r G s G' s' ∧ Bare b r 256 s') E := by
  have hall : vmUserLo + (vmUserHi - vmUserLo) = vmUserHi := by decide
  unfold pmapRemove
  refine ends_bind_check (by decide) (ends_bind_check (by decide) (ends_bind_check le_rfl ?_))
  rw [hall]
  refine ends_bind (ends_whileM (I := fun x s' => x = vmUserLo ∧ s' = s ∨
    x = vmUserHi ∧ ∃ G', Drops b 3 r G s G' s' ∧ Bare b r 256 s') (fun x => vmUserHi - x) ?_ ?_ ?_ _ _ _ le_rfl
    (.inl ⟨rfl, rfl⟩))
  · rintro x s' - hc
    simp only [decide_eq_true_eq] at hc
    omega
  · rintro x s' (⟨rfl, rfl⟩ | ⟨rfl, -⟩) hc
    · refine (rootLoop_ends hS hr).imp ?_
      rintro _ s₁ ⟨rfl, h⟩
      exact ⟨.inr ⟨rfl, h⟩, by decide⟩
    · exact absurd hc (by decide)
  · rintro x s' (⟨rfl, rfl⟩ | ⟨rfl, h⟩) hc
    · exact absurd hc (by decide)
    · exact ends_pure.2 h

end

/-! ## The root becomes free -/

/-- The ghost state after the root `r` has become free. The table `q` of its first 512GB is lost: nothing points to it,
but it has a reference. -/
def Ghost.dropRoot (G : Ghost) (r q : Frame) : Ghost :=
  ⟨Function.update (Function.update G.kind q .held) r .free, fun g => G.extra g + one q g, G.off⟩

namespace Ghost

theorem dropRoot_root : (G.dropRoot r q).kind r = .free := Function.update_self ..

theorem dropRoot_low (h : q ≠ r) : (G.dropRoot r q).kind q = .held := by
  simp [dropRoot, Function.update_of_ne h]

theorem dropRoot_kind (h : g ≠ r) (h' : g ≠ q) : (G.dropRoot r q).kind g = G.kind g := by
  simp [dropRoot, Function.update_of_ne h, Function.update_of_ne h']

end Ghost

/-- A reference to a root is given up. -/
theorem Sound.setRef_root (h : Sound b G s) (hr : G.kind r = .root) (n : ℤ) :
    Sound b (G.addExtra fun g => n * one r g) (s.setRef r (s.refcount r + n)) := by
  have hg : Good b (G.addExtra fun g => n * one r g) (s.setRef r (s.refcount r + n)) :=
    h.toGood.setRef (by rw [hr]; simp) (fun hn => absurd hr hn) fun _ hn => absurd hr hn
  refine ⟨⟨hg, h.off⟩, hg.cow (G := G) (s := s) (fun _ => id) (fun _ _ _ hs hW => .inl ⟨hs, hW⟩)
    (fun f hf _ hn => ?_) fun t i hu hW => h.entries hu hW⟩
  have hne : f ≠ r := by
    rintro rfl
    exact hn hr
  have hc : (s.setRef r (s.refcount r + n)).refcount f = s.refcount f := Function.update_of_ne hne ..
  rw [hc]
  exact (h.single f hf hn).le

namespace Bare

theorem slot_root (h : Bare b r 256 s) (hS : Sound b G s) (hr : G.kind r = .root) (i : ℕ) :
    slot b G s r i = if i = 0 then some (s.low r) else none := by
  by_cases h0 : i = 0
  · rw [if_pos h0, h0]
    exact hS.slot_low hr
  · rw [if_neg h0]
    refine if_neg fun hn => hn.2.2 (h.top i (by omega) ?_)
    have hu := hn.1
    rw [hr] at hu
    simpa [Kind.user] using hu

theorem slot_low (h : Bare b r 256 s) (hS : Sound b G s) (hr : G.kind r = .root) (i : ℕ) :
    slot b G s (s.low r) i = none := by
  refine if_neg fun hn => ?_
  have hu := hn.1
  rw [hS.kind_low hr] at hu
  simp only [Kind.user, Bool.and_eq_true, decide_eq_true_eq] at hu
  exact hn.2.2 (h.low i hu.1 hu.2)

/-- The root has the one entry that counts. -/
theorem count (h : Bare b r 256 s) (hS : Sound b G s) (hr : G.kind r = .root) (g : Frame) :
    tableCount 512 (slot b G s) r g = one (s.low r) g := by
  have hzero : tableCount 512 (fun (_ : Frame) (_ : ℕ) => (none : Option Frame)) r g = 0 :=
    Finset.sum_eq_zero fun _ _ => rfl
  rw [tableCount_slot (g := fun (_ : Frame) (_ : ℕ) => (none : Option Frame)) (show 0 < 512 by decide)
    (fun j _ hj => by rw [h.slot_root hS hr, if_neg hj]), hzero, h.slot_root hS hr, if_pos rfl, pointsTo_none]
  simp [one]

/-- The root and the table of its first 512GB are no page map any more. -/
theorem retire (h : Bare b r 256 s) (hS : Sound b G s) (hr : G.kind r = .root) (hx : G.extra r = -1) :
    Good b ⟨Function.update (Function.update G.kind r .held) (s.low r) .held,
      fun g => G.extra g + (one (s.low r) g + one r g), G.off⟩ s := by
  have hne := hS.low_ne hr
  have hlow := hS.kind_low hr
  have hv : ∀ f, G.kind f ≠ .held → f ≠ b.zero := fun f hf e => b.zero_avail (e ▸ hS.avail f hf)
  have hzr : r ≠ b.zero := hv r (by rw [hr]; simp)
  have hzq : s.low r ≠ b.zero := hv _ (by rw [hlow]; simp)
  have hnew : ∀ i, slot b (G.setKind r .held) s r i = none := slot_plain (by rw [setKind_self]; rfl)
  have h₁ : Counted b ((G.setKind r .held).addExtra fun g => one (s.low r) g + one r g) s := by
    refine hS.toCounted.setKind (fun t i hs => ?_) (fun g => ?_) (fun i g hs => ?_) (fun g hg => ?_) False.elim
      (fun e => absurd rfl e) (by simp) hzr (by simp)
    · exact Kind.kid_ne_root _ _ ((hS.typed hs).symm.trans hr)
    · have hnone : tableCount 512 (slot b (G.setKind r .held) s) r g = 0 :=
        Finset.sum_eq_zero fun i _ => by rw [hnew, pointsTo_none]
      rw [h.count hS hr, hnone, hr]
      by_cases hg : g = r
      · rw [hg, one_self, if_pos rfl]
        simp [rootRef]
      · rw [one_ne hg, if_neg hg]
        ring
    · rw [hnew] at hs
      cases hs
    · have h₁ : 0 ≤ one (s.low r) g := pointsTo_nonneg _ _
      by_cases hgr : g = r
      · rw [hgr, hx, one_self, one_ne hne.symm]
        omega
      · rw [setKind_ne hgr] at hg
        rw [one_ne hgr]
        have := hS.extra_nonneg g hg
        omega
  set G₁ := (G.setKind r .held).addExtra fun g => one (s.low r) g + one r g with hG₁
  have hk₁ : G₁.kind (s.low r) = .low := by
    change (G.setKind r .held).kind _ = _
    rw [setKind_ne hne, hlow]
  have hptr : ∀ t i, slot b G₁ s t i ≠ some (s.low r) := by
    intro t i hs
    have hc := h₁.count (s.low r)
    rw [hS.refcount_low hr, rootRef, hk₁, if_neg (by simp)] at hc
    have hpos := refCount_pos (slot_lt hs) hs
    have hxq := hS.extra_nonneg (s.low r) (by rw [hlow]; simp)
    have hx₁ : G₁.extra (s.low r) = G.extra (s.low r) + (one (s.low r) (s.low r) + one r (s.low r)) := rfl
    rw [one_self, one_ne hne] at hx₁
    omega
  have hnone : ∀ i, slot b G₁ s (s.low r) i = none := by
    intro i
    have hs := h.slot_low hS hr i
    unfold slot at hs ⊢
    rw [hk₁]
    rw [hlow] at hs
    exact hs
  have h₂ := h₁.rekind (k := .held) hptr hnone (slot_plain (by rw [setKind_self]; rfl)) (by rw [hk₁]; simp) (by simp)
    False.elim (fun e => absurd rfl e) (by simp) hzq
  refine ⟨h₂, hS.toListed.congr (fun g => ?_) (fun g hg => ?_) rfl rfl⟩
  · by_cases hgq : g = s.low r
    · rw [hgq]
      simp [hlow]
    · by_cases hgr : g = r
      · rw [hgr]
        simp [Function.update_of_ne hne.symm, hr]
      · simp [Function.update_of_ne hgq, Function.update_of_ne hgr]
  · have hgq : g ≠ s.low r := by
      rintro rfl
      rw [hlow] at hg
      cases hg
    have hgr : g ≠ r := by
      rintro rfl
      rw [hr] at hg
      cases hg
    simp [one_ne hgq, one_ne hgr]

/-- The root is put on the free list. -/
theorem given (h : Bare b r 256 s) (hS : Sound b G s) (hr : G.kind r = .root) (hx : G.extra r = -1) (hv : r ∈ b.avail) :
    Good b ((G.addExtra fun g => 1 * one r g).dropRoot r (s.low r)) (s.given r) := by
  have hne := hS.low_ne hr
  have hgiven := (h.retire hS hr hx).given (f := r) (by simp [Function.update_of_ne hne.symm])
    (by simp [one_self, one_ne hne.symm, hx]) hv
  have hG : (Ghost.setKind ⟨Function.update (Function.update G.kind r .held) (s.low r) .held,
      fun g => G.extra g + (one (s.low r) g + one r g), G.off⟩ r .free) =
      (G.addExtra fun g => 1 * one r g).dropRoot r (s.low r) := by
    ext g
    · by_cases hgr : g = r
      · rw [hgr]
        simp [Ghost.setKind, Ghost.dropRoot]
      · by_cases hgq : g = s.low r
        · rw [hgq]
          simp [Ghost.setKind, Ghost.dropRoot, Function.update_of_ne hne]
        · simp [Ghost.setKind, Ghost.dropRoot, Ghost.addExtra, Function.update_of_ne hgr, Function.update_of_ne hgq]
    · simp only [Ghost.setKind, Ghost.dropRoot, Ghost.addExtra]
      ring
    · rfl
  rw [← hG]
  exact hgiven

end Bare

/-- What is left when the page map `r` has been freed. -/
structure Released (b : Boot) (r : Frame) (G : Ghost) (s : Mem) (G' : Ghost) (s' : Mem) : Prop where
  sound : Sound b G' s'
  root : ∀ g, G'.kind g = .root ↔ G.kind g = .root ∧ g ≠ r
  held : ∀ g, G'.kind g = .held ↔ G.kind g = .held ∨ g = s'.low r
  lost : G.kind (s'.low r) ≠ .held
  extra : ∀ g, G'.extra g = G.extra g + one (s'.low r) g
  zero : s'.page b.zero = s.page b.zero
  /-- The other page maps show the same. -/
  view : ∀ g a, G.kind g = .root → g ≠ r → UserVa a → View.Keeps (viewAt b s a 3 g) (viewAt b s' a 3 g)

/-- `mem_free` of the root. -/
theorem Bare.released (h : Bare b r 256 s₁) (hd : Drops b 3 r (G.addExtra fun g => -1 * one r g) (s.setRef r 0) G₁ s₁)
    (hr : G.kind r = .root) (hx : G.extra r = 0) (hv : r ∈ b.avail) :
    Released b r G s ((G₁.addExtra fun g => 1 * one r g).dropRoot r (s₁.low r)) (s₁.given r) := by
  have hS := hd.sound
  have hroots : ∀ g, G₁.kind g = .root ↔ G.kind g = .root := fun g => hd.acts.toBase.root le_rfl
  have hr₁ : G₁.kind r = .root := (hroots r).2 hr
  have hne := hS.low_ne hr₁
  have hlow := hS.kind_low hr₁
  have hx₁ : G₁.extra r = -1 := by
    rw [hd.neat.extra]
    simp [Ghost.addExtra, hx, one_self]
  have hg := h.given hS hr₁ hx₁ hv
  have hsame : (s₁.given r).low r = s₁.low r := rfl
  set G' := (G₁.addExtra fun g => 1 * one r g).dropRoot r (s₁.low r) with hG'
  have hkind : ∀ {g}, g ≠ r → g ≠ s₁.low r → G'.kind g = G₁.kind g := fun h₁ h₂ => Ghost.dropRoot_kind h₁ h₂
  have hkr : G'.kind r = .free := Ghost.dropRoot_root
  have hkq : G'.kind (s₁.low r) = .held := Ghost.dropRoot_low hne
  -- tables are other pages, and what they were
  have htab : ∀ {t i}, (G'.kind t).user i = true → G'.kind t = G₁.kind t := by
    intro t i hu
    refine hkind ?_ ?_
    · rintro rfl
      rw [hkr] at hu
      cases hu
    · rintro rfl
      rw [hkq] at hu
      cases hu
  have hcow : Cow b G' (s₁.given r) := by
    refine hg.cow (G := G₁) (s := s₁) (fun g hroot => ?_) (fun t i f hs hW => .inl ⟨?_, hW⟩) (fun f hf hu hn => ?_)
      fun t i hu hW => ?_
    · by_cases hgr : g = r
      · rw [hgr, hkr] at hroot
        cases hroot
      · by_cases hgq : g = s₁.low r
        · rw [hgq, hkq] at hroot
          cases hroot
        · rwa [hkind hgr hgq] at hroot
    · obtain ⟨h₁, h₂, h₃, h₄⟩ := slot_eq_some.1 hs
      rw [htab h₁] at h₁
      exact slot_eq_some.2 ⟨h₁, h₂, h₃, h₄⟩
    · refine (hS.single f hf fun e => ?_).le
      by_cases hgr : f = r
      · rw [hgr, hkr] at hu
        exact hu
      · by_cases hgq : f = s₁.low r
        · rw [hgq, hkq] at hu
          exact hu
        · rw [hkind hgr hgq] at hn
          exact hn e
    · have hk := htab hu
      rw [hk] at hu ⊢
      exact hS.entries hu hW
  constructor
  · exact ⟨⟨hg, hS.off⟩, hcow⟩
  · intro g
    by_cases hgr : g = r
    · rw [hgr, hkr]
      simp
    · by_cases hgq : g = s₁.low r
      · rw [hgq, hkq, ← hroots, hlow]
        simp
      · rw [hkind hgr hgq, hroots]
        simp [hgr]
  · intro g
    rw [hsame]
    by_cases hgr : g = r
    · rw [hgr, hkr, hr]
      simp [hne.symm]
    · by_cases hgq : g = s₁.low r
      · rw [hgq, hkq]
        simp
      · rw [hkind hgr hgq, hd.neat.held]
        simp [hgq, Ghost.addExtra]
  · rw [hsame]
    intro hheld
    rw [(hd.neat.held _).2 hheld] at hlow
    cases hlow
  · intro g
    rw [hsame, hG']
    simp only [Ghost.dropRoot, Ghost.addExtra, hd.neat.extra]
    ring
  · exact hd.acts.toBase.zero
  · intro g a hgk hgr ha
    have hpage : (s₁.given r).page = s₁.page := rfl
    have hview : ∀ l t, viewAt b (s₁.given r) a l t = viewAt b s₁ a l t := fun l t => viewAt_page hpage a l t
    have hpage' : (s.setRef r 0).page = s.page := rfl
    have hview' : ∀ l t, viewAt b (s.setRef r 0) a l t = viewAt b s a l t := fun l t => viewAt_page hpage' a l t
    rw [hview, ← hview']
    refine hd.acts.other g a ?_ hgr ?_
    · change (G.kind g).level = _
      rw [hgk]
      rfl
    · change (G.kind g).maps a
      rw [hgk]
      exact ha

/-- **Giving up a page map.** It never fails, even if there is no memory. -/
theorem memDecref_pmap_ends {E : Panic → Mem → Prop} (hS : Sound b G s) (hr : G.kind r = .root) (hc : s.refcount r = 1)
    (hx : G.extra r = 0) (hv : r ∈ b.avail) :
    Ends ∅ (memDecref b r (pmapFreepmap b)) s (fun _ s' => ∃ G', Released b r G s G' s') E := by
  have hS₀ := hS.setRef_root hr (-1)
  rw [hc, show (1 : ℤ) + -1 = 0 from rfl] at hS₀
  have hr₀ : (G.addExtra fun g => -1 * one r g).kind r = .root := hr
  refine ends_memDecref_last hv hc ?_
  unfold pmapFreepmap
  refine ends_bind ((pmapRemove_all_ends hS₀ hr₀).imp ?_)
  rintro _ s₁ ⟨G₁, hd, hbare⟩
  have hr₁ : G₁.kind r = .root := (hd.acts.toBase.root le_rfl).2 hr
  have hcount : s₁.refcount r = 0 := by
    have hno : refCount 512 (slot b G₁ s₁) r = 0 :=
      refCount_eq_zero fun t i _ hs => Kind.kid_ne_root _ _ ((hd.sound.typed hs).symm.trans hr₁)
    rw [hd.sound.count r, hno, hr₁, rootRef, if_pos rfl, hd.neat.extra]
    simp [Ghost.addExtra, hx, one_self]
  refine ends_memFree hcount (hd.sound.unlinked r (by rw [hr₁]; simp)) ⟨?_, _, hbare.released hd hr hx hv⟩
  exact le_of_eq hcount.symm

end Determinator
