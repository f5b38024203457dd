import Determinator.Pmap.Setperm
import Determinator.Pmap.Merge
import Determinator.Pmap.Fault

/-!
# The operations on page maps

What each of the functions of `pmap.h` does to the whole of a page map and to the others, given that its
assertions about the region hold.
-/

namespace Determinator

open PanicM

variable {b : Boot} {G G' G₁ : Ghost} {s s' s₁ : Mem} {f g t T r pi : Frame} {i l va sva dva size : ℕ}
  {N : Set Note} {E : Panic → Mem → Prop}

/-! ## Regions -/

/-- A region that `pmap_remove` and `pmap_setperm` take. -/
structure Area (va size : ℕ) : Prop where
  va_dvd : 4096 ∣ va
  size_dvd : 4096 ∣ size
  user : vmUserLo ≤ va ∧ va < vmUserHi
  le : size ≤ vmUserHi - va

theorem Region.source (h : Region sva dva size) : Area sva size := ⟨h.sva_dvd, h.size_dvd, h.src, h.src_le⟩

theorem Region.dest_area (h : Region sva dva size) : Area dva size :=
  ⟨h.dva_dvd, h.size_dvd, h.dest, h.dest_le⟩

/-- The whole region is in one root. -/
theorem Area.span (h : Area va size) (hpos : 0 < size) : Span .root 3 va (va + size) va (va + size) := by
  have h₁ := h.user
  have h₂ := h.le
  refine ⟨h.va_dvd, Nat.dvd_add h.va_dvd h.size_dvd, by omega, ?_, fun a ha ha' => ⟨by omega, by omega⟩,
    fun _ _ => Iff.rfl⟩
  have := tableEnd_root h₁.2
  rw [tableEnd_eq] at this
  have := min_le_left ((va / pdSize (3 + 1) + 1) * pdSize (3 + 1)) vmUserHi
  omega

/-- An empty region. -/
theorem Ranged.empty {C : ℕ → View → View → Prop} {v : View} {a m : ℕ} : Ranged l va m m C a v v := by
  intro _
  rw [if_neg (by omega)]
  exact View.Keeps.refl v

/-! ## `pmap_remove` -/

/-- **`pmap_remove`** clears its region, except for mappings of the zero page in page tables that it
does not remove as a whole. -/
theorem pmapRemove_ends {C : Prop} (hN : C → Note.ignored ∈ N) (hS : Sound b G s) (hr : G.kind r = .root)
    (ha : Area va size) :
    Ends N (pmapRemove b r va size) s (fun _ s' => ∃ G',
      Left b 3 r C (Ranged 3 va va (va + size) (Cleared b va (va + size))) G s G' s') E := by
  have hrl : (G.kind r).level = some 3 := by rw [hr]; rfl
  unfold pmapRemove
  refine ends_bind_check (Nat.mod_eq_zero_of_dvd ha.size_dvd) (ends_bind_check ha.user (ends_bind_check ha.le ?_))
  refine ends_bind (ends_whileM (I := fun x s' => (x = va ∧ s' = s) ∨ (va + size ≤ x ∧ ∃ G',
    Left b 3 r C (Ranged 3 va va (va + size) (Cleared b va (va + size))) G s G' s'))
    (fun x => va + size - x) ?_ ?_ ?_ _ _ _ (by simp) (.inl ⟨rfl, rfl⟩))
  · intro x s' _ hc
    simp only [decide_eq_true_eq] at hc
    omega
  · rintro x s' (⟨rfl, rfl⟩ | ⟨hle, -⟩) hc <;> simp only [decide_eq_true_eq] at hc
    · refine (pmapRemoveLevel_ends hN 3 G _ r x (x + size) hS hrl
        (by rw [hr]; exact ha.span (by omega)) nofun fun _ => .inr (.root hr)).imp ?_
      rintro y s₂ ⟨hy, h⟩
      exact ⟨.inr ⟨hy, h⟩, by omega⟩
    · omega
  · rintro x s' (⟨rfl, rfl⟩ | ⟨-, h⟩) hc
    · simp only [decide_eq_false_iff_not, not_lt] at hc
      obtain rfl : size = 0 := by omega
      exact ends_pure.2 ⟨G, hS.left_refl fun _ _ => Ranged.empty⟩
    · exact ends_pure.2 h

/-! ## `pmap_copy` -/

/-- **`pmap_copy`**: other page maps than the destination do not see it, unless a table that others use
is changed. -/
theorem pmapCopy_ends {C : Prop} {sr dr : Frame}
    (hC : C → Note.ignored ∈ N ∧ Note.sharedDest ∈ N ∧ Note.staleW ∈ N) (hS : Sound b G s)
    (hsr : G.kind sr = .root) (hdr : G.kind dr = .root) (hreg : Region sva dva size) :
    Ends N (pmapCopy b sr sva dr dva size) s (fun _ s' => ∃ G', Left b 3 dr C Any G s G' s')
      (RanOut b 3 dr C G s) := by
  have hsl : (G.kind sr).level = some 3 := by rw [hsr]; rfl
  have hdl : (G.kind dr).level = some 3 := by rw [hdr]; rfl
  unfold pmapCopy
  refine regionAsserts_ends hreg ?_
  rcases Nat.eq_zero_or_pos size with rfl | hpos
  · have h3 : pmapCopyLevel b nptLvls = copyLoop b (pmapCopyLevel b 2) 3 := rfl
    rw [h3]
    unfold copyLoop
    rw [Nat.add_zero, Nat.sub_self]
    unfold whileM
    rw [if_neg (by simp)]
    exact ends_bind (ends_pure.2 (ends_pure.2 ⟨G, hS.left_refl fun _ _ => trivial⟩))
  · refine pmapCopyLevel_ends hC 3 G s sr dr sva dva (sva + size) hS hsl hdl ?_ ?_
    · rw [hsr]
      exact hreg.source.span hpos
    · rw [hdr, Nat.add_sub_cancel_left]
      exact hreg.dest_area.span hpos

/-! ## `pmap_setperm` -/

theorem permMasks_or (perm : BitVec 12) : (permMasks perm).2.getLsbD 1 = false := by
  unfold permMasks
  split
  · change (0 : BitVec 12).getLsbD 1 = false
    decide
  · split
    · change (sysRead ||| pteU ||| pteP ||| pteA).getLsbD 1 = false
      decide
    · change (sysRW ||| pteU ||| pteP ||| pteA ||| pteD).getLsbD 1 = false
      decide

/-- **`pmap_setperm`** gives the pages of its region their new flags, except for mappings of the zero
page when no bits are to be set. -/
theorem pmapSetperm_ends {perm : BitVec 12} (hN : Note.ignored ∈ N) (hS : Sound b G s)
    (hr : G.kind r = .root) (ha : Area va size) (hp : perm &&& ~~~sysRW = 0) :
    Ends N (pmapSetperm b r va size perm) s (fun _ s' => ∃ G', Left b 3 r True
      (Ranged 3 va va (va + size) (Permitted b (permMasks perm).1 (permMasks perm).2)) G s G' s') E := by
  have hrl : (G.kind r).level = some 3 := by rw [hr]; rfl
  unfold pmapSetperm
  refine ends_bind_check (Nat.mod_eq_zero_of_dvd ha.va_dvd) (ends_bind_check
    (Nat.mod_eq_zero_of_dvd ha.size_dvd) (ends_bind_check ha.user (ends_bind_check ha.le (ends_bind_check hp ?_))))
  rcases Nat.eq_zero_or_pos size with rfl | hpos
  · have h3 : ∀ x y, pmapSetpermLevel b x y nptLvls = setpermLoop b (pmapSetpermLevel b x y 2) 3 x y :=
      fun _ _ => rfl
    simp only [h3]
    unfold setpermLoop
    rw [Nat.add_zero, Nat.sub_self]
    unfold whileM
    rw [if_neg (by simp)]
    exact ends_bind (ends_pure.2 (ends_pure.2 ⟨G, hS.left_refl fun _ _ => Ranged.empty⟩))
  · have hsp : Span (G.kind r) 3 va (va + size) va (va + size) := by
      rw [hr]
      exact ha.span hpos
    exact pmapSetpermLevel_ends hN (permMasks_or perm) 3 G s r va (va + size) hS hrl hsp (.root hr)

/-! ## `pmap_walk` -/

/-- **`pmap_walk`** changes no view. -/
theorem pmapWalk_ends {w : Bool} (hS : Sound b G s) (hr : G.kind r = .root)
    (hu : vmUserLo ≤ va ∧ va < vmUserHi) :
    Ends N (pmapWalk b r va w) s (fun x s' => (x ≠ none → s'.dry = s.dry) ∧
      ∃ G', Sound b G' s' ∧ Unseen b 3 G s G' s') E := by
  have hrl : (G.kind r).level = some 3 := by rw [hr]; rfl
  have hrm : (G.kind r).maps va := by rw [hr]; exact hu
  unfold pmapWalk
  refine ends_bind_check hu ?_
  cases w with
  | true =>
    refine (pmapWalkLevel_ends hS hrl hrm).imp ?_
    rintro x s' ⟨G', hw⟩
    refine ⟨fun hx => ?_, G', hw.sound, hw.tame⟩
    obtain ⟨y, hy⟩ := Option.ne_none_iff_exists'.1 hx
    exact (hw.leaf y.1 y.2 hy).1
  | false =>
    refine (pmapWalkLevel_read_ends hS hrl hrm).imp ?_
    rintro x s' ⟨h₁, h₂, -, h₄⟩
    exact ⟨fun _ => h₄, G, h₁, h₂⟩

/-! ## Stores -/

/-- Where a store goes through, the address is writeable and leads to the page. -/
theorem wr_of_translate (h : translate s va true l T = some f)
    (hz : ∀ t i, (G.kind t).user i = true → (s.entry t i).isW = true → (s.entry t i).frame ≠ b.zero)
    (hS : Whole b G s) (hl : (G.kind T).level = some l) (hm : (G.kind T).maps va) :
    (viewAt b s va l T).wr = true ∧ (viewAt b s va l T).leaf.frame = f := by
  induction l generalizing T with
  | zero =>
    simp only [translate, Bool.not_true, Bool.or_false] at h
    split at h
    · rename_i hc
      rw [Bool.and_eq_true] at hc
      exact ⟨hc.2, Option.some.inj h⟩
    · cases h
  | succ l ih =>
    simp only [translate, Bool.not_true, Bool.or_false] at h
    split at h
    · rename_i hc
      rw [Bool.and_eq_true] at hc
      have hne := hz T _ (Kind.maps_user hl hm) hc.2
      obtain ⟨hl', hm'⟩ := kid_of_slot hS.toGood hl hm (hS.slot_maps hl hm hne)
      obtain ⟨h₁, h₂⟩ := ih h hl' hm'
      rw [viewAt_some hne]
      exact ⟨by simp [View.under, hc.2, h₁], h₂⟩
    · cases h

/-- **A store** changes the contents of one page at one address of one page map. -/
theorem store_sound (hS : Sound b G s) (hr : G.kind r = .root) (hu : vmUserLo ≤ va ∧ va < vmUserHi)
    (h : translate s va true nptLvls r = some f) (pg : Page) :
    Sound b G (s.setPage f pg) ∧ s.refcount f = 1 ∧ G.kind f = .data := by
  have hrl : (G.kind r).level = some 3 := by rw [hr]; rfl
  have hrm : (G.kind r).maps va := by rw [hr]; exact hu
  obtain ⟨hw, hf⟩ := wr_of_translate h hS.zeroRO hS.toWhole hrl hrm
  obtain ⟨t, -, hs, -, hl⟩ := wr_leaf hS hrl hrm (.root hr) hw
  rw [hf] at hs
  have hk : G.kind f = .data := data_of_slot hS.toGood hl hs
  refine ⟨hS.setData hk pg, ?_, hk⟩
  rw [← hf]
  exact wr_single hS hrl hrm (.root hr) hw

end Determinator
