import Determinator.Pmap.Operations
import Determinator.Pmap.Visits

/-!
# Sweeps over ranges

The iterations of `pmap_remove_level` and `pmap_setperm_level`. Every one uses the entry for its address in
the table for it (`Cursor.Fits`) and is for bytes below that entry, and for each address of the range there is
one that does not leave it to the level below (`times`).
-/

namespace Determinator

open PanicM

variable {b : Boot} {G G' G₁ : Ghost} {s s' s₁ s₀ : Mem} {t T r sr dr st dt : Frame} {v : Visit}
  {w w' w₁ w₂ : List Visit} {a i l m n va lo mid hi lo' hi' sva dva svahi size : ℕ} {q : Bool}

/-! ## Iterations -/

/-- The entry is that for the address, in the level-`l` table for it of the page map `r`. The `size` bytes from
the address on are below the entry and between `lo` and `hi`. -/
structure Cursor.Fits (b : Boot) (s : Mem) (r : Frame) (lo hi l size : ℕ) (c : Cursor) : Prop where
  table : tableAt b s c.va nptLvls r l = some c.table
  index : c.index = pdx l c.va
  lt : c.index < nptEntries
  lo_le : lo ≤ c.va
  le_hi : c.va + size ≤ hi
  below : c.va + size ≤ pdAddr l c.va + pdSize l

/-- What holds of an iteration for a range of the page map `r`. -/
structure Visit.Fits (b : Boot) (r : Frame) (lo hi : ℕ) (v : Visit) : Prop where
  pos : 0 < v.size
  /-- The assertions about `pmlevel`. -/
  level : v.lower = true → 0 < v.level
  entry : v.entry.Fits b v.mem r lo hi v.level v.size

/-- The iteration is for the address. -/
def Visit.At (v : Visit) (a : ℕ) : Prop := v.entry.va ≤ a ∧ a < v.entry.va + v.size

instance (v : Visit) (a : ℕ) : Decidable (v.At a) := inferInstanceAs (Decidable (_ ∧ _))

/-- How many iterations, those of `pmap_copy_level` or the others, deal with the address themselves. -/
def times (copying : Bool) (a : ℕ) (w : List Visit) : ℕ :=
  w.countP fun v => v.source.isSome = copying ∧ v.lower = false ∧ v.At a

@[simp] theorem times_nil : times q a [] = 0 := rfl

@[simp] theorem times_append : times q a (w₁ ++ w₂) = times q a w₁ + times q a w₂ := List.countP_append

theorem times_cons : times q a (v :: w) =
    times q a w + if v.source.isSome = q ∧ v.lower = false ∧ v.At a then 1 else 0 := by
  simp [times, List.countP_cons]

theorem Cursor.Fits.mono {c : Cursor} (h : c.Fits b s r lo' hi' l size) (h₁ : lo ≤ lo') (h₂ : hi' ≤ hi) :
    c.Fits b s r lo hi l size :=
  { h with lo_le := h₁.trans h.lo_le, le_hi := h.le_hi.trans h₂ }

theorem Visit.Fits.mono (h : v.Fits b r lo' hi') (h₁ : lo ≤ lo') (h₂ : hi' ≤ hi) : v.Fits b r lo hi :=
  { h with entry := h.entry.mono h₁ h₂ }

theorem TableOf.fits (h : TableOf b G s r va l T) (h₁ : lo ≤ va) (h₂ : va + size ≤ hi)
    (h₃ : va + size ≤ (va / pdSize l + 1) * pdSize l) :
    (⟨T, pdx l va, va⟩ : Cursor).Fits b s r lo hi l size := by
  refine ⟨h.at_eq, rfl, pdx_lt _ _, h₁, h₂, ?_⟩
  rw [pdAddr_eq, ← Nat.succ_mul]
  exact h₃

/-! ## Sweeps -/

/-- What the iterations of `pmap_remove_level` or `pmap_setperm_level` are for a range. -/
structure Swept (b : Boot) (r : Frame) (lo hi : ℕ) (w : List Visit) : Prop where
  fits : ∀ v ∈ w, v.Fits b r lo hi
  plain : ∀ v ∈ w, v.source = none ∧ v.clears = false
  once : ∀ a, times false a w = if lo ≤ a ∧ a < hi then 1 else 0

theorem swept_nil : Swept b r lo lo [] := by
  refine ⟨by simp, by simp, fun a => ?_⟩
  rw [times_nil, if_neg (by omega)]

/-- One range after the other. -/
theorem Swept.append (h₁ : Swept b r lo mid w₁) (h₂ : Swept b r mid hi w₂) (hl : lo ≤ mid) (hm : mid ≤ hi) :
    Swept b r lo hi (w₁ ++ w₂) where
  fits v hv := by
    rcases List.mem_append.1 hv with hv | hv
    · exact (h₁.fits v hv).mono le_rfl hm
    · exact (h₂.fits v hv).mono hl le_rfl
  plain v hv := (List.mem_append.1 hv).elim (h₁.plain v) (h₂.plain v)
  once a := by
    rw [times_append, h₁.once, h₂.once]
    split <;> split <;> split <;> omega

/-- An iteration that deals with its bytes itself. -/
theorem TableOf.swept (h : TableOf b G s r va l T) (hlt : va < hi) (he : hi ≤ (va / pdSize l + 1) * pdSize l) :
    Swept b r va hi [⟨s, l, none, ⟨T, pdx l va, va⟩, hi - va, false, false⟩] := by
  have hsub : va + (hi - va) = hi := by omega
  refine ⟨fun v hv => ?_, fun v hv => ?_, fun a => ?_⟩
  · rw [List.mem_singleton.1 hv]
    exact ⟨Nat.sub_pos_of_lt hlt, nofun, h.fits le_rfl hsub.le (hsub.trans_le he)⟩
  · rw [List.mem_singleton.1 hv]
    exact ⟨rfl, rfl⟩
  · simp [times_cons, Visit.At, hsub]

/-- An iteration that leaves its bytes to the level below. -/
theorem TableOf.swept_lower (h : TableOf b G s r va (l + 1) T) (hlt : va < hi)
    (he : hi ≤ (va / pdSize (l + 1) + 1) * pdSize (l + 1)) (hw : Swept b r va hi w) :
    Swept b r va hi (⟨s, l + 1, none, ⟨T, pdx (l + 1) va, va⟩, hi - va, true, false⟩ :: w) := by
  have hsub : va + (hi - va) = hi := by omega
  refine ⟨fun v hv => ?_, fun v hv => ?_, fun a => ?_⟩
  · rcases List.mem_cons.1 hv with rfl | hv
    · exact ⟨Nat.sub_pos_of_lt hlt, fun _ => Nat.succ_pos l, h.fits le_rfl hsub.le (hsub.trans_le he)⟩
    · exact hw.fits v hv
  · rcases List.mem_cons.1 hv with rfl | hv
    · exact ⟨rfl, rfl⟩
    · exact hw.plain v hv
  · rw [times_cons, hw.once, Nat.add_eq_left]
    exact if_neg (by simp)

/-- Where `Left` is asked for no more than that the page maps stay sound. -/
protected theorem Left.some {C : Prop} {R : ℕ → View → View → Prop} (h : Left b l T C R G s G' s') :
    Left b l T False Any G s G' s' :=
  ⟨h.sound, h.base, h.neat, nofun, nofun⟩

section

variable (b : Boot) (N : Set Note) {α : Type}

/-- The range from `lo` to `hi` below the level-`l` table `T` has been gone over. -/
def Gone (l : ℕ) (T r : Frame) (lo hi : ℕ) (G : Ghost) (s : Mem) (w : List Visit) (x : Mem × List Visit) : Prop :=
  ∃ G' w', Left b l T False Any G s G' x.1 ∧ x.2 = w ++ w' ∧ Swept b r lo hi w'

/-- What going over a range below a level-`l` table does. -/
def Sweeps (l : ℕ) (go : Frame → ℕ → ℕ → Traced α) : Prop :=
  ∀ (G : Ghost) (s : Mem) (w : List Visit) (r T : Frame) (lo hi : ℕ), Sound b G s → TableOf b G s r lo l T →
    Span (G.kind T) l lo hi lo hi → hi ≤ vmUserHi →
    Ends N (go T lo hi) (s, w) (fun _ => Gone b l T r lo hi G s w) fun _ _ => False

end

theorem Sound.gone (hS : Sound b G s) : Gone b l T r lo lo G s w (s, w) :=
  ⟨G, [], hS.left_refl fun _ _ => trivial, (List.append_nil w).symm, swept_nil⟩

/-- The rest of a range is gone over after a part of it. -/
theorem Gone.after {x : Mem × List Visit} (h : Gone b l T r mid hi G₁ s₁ (w ++ w₁) x)
    (hl : Left b l T False Any G s G₁ s₁) (hw : Swept b r lo mid w₁) (hT : (G.kind T).level = some l)
    (h₁ : lo ≤ mid) (h₂ : mid ≤ hi) : Gone b l T r lo hi G s w x := by
  obtain ⟨G₂, w₂, hl₂, hx, hw₂⟩ := h
  refine ⟨G₂, w₁ ++ w₂, hl.then hl₂ hT, ?_, hw.append hw₂ h₁ h₂⟩
  rw [hx, List.append_assoc]

/-- The table for the rest of the range, after a part of it. -/
theorem TableOf.rest (h : TableOf b G s r lo l T) (hS : Sound b G s) (hsp : Span (G.kind T) l lo hi lo hi)
    (hu : hi ≤ vmUserHi) (hb : Base b l G s G' s') (h₁ : lo ≤ va) (h₂ : va < hi) :
    TableOf b G' s' r va l T ∧ Span (G'.kind T) l lo hi lo hi := by
  obtain ⟨hT, -⟩ := h.kind hS.toWhole
  have hk := hb.kind T l hT le_rfl
  refine ⟨?_, by rw [hk]; exact hsp⟩
  exact (h.block ⟨h.user.1.trans h₁, h₂.trans_le hu⟩ (hsp.block_eq h₁ h₂)).base hS.toWhole hb

section

variable {N : Set Note} {α : Type}

/-- The table below an entry is entered for a part of the range that the entry is for. -/
theorem Sweeps.enter {go : Frame → ℕ → ℕ → Traced α} (h : Sweeps b N l go) (hS : Sound b G s)
    (ht : TableOf b G s r va (l + 1) T) (hsp : Span (G.kind T) (l + 1) lo hi lo hi) (h₁ : lo ≤ va) (h₂ : va < hi)
    (ha : va = lo ∨ pdOff (l + 1) va = 0) (hu : hi ≤ vmUserHi) (hz : (s.entry T (pdx (l + 1) va)).frame ≠ b.zero) :
    Ends N (go (s.entry T (pdx (l + 1) va)).frame va (min (pdAddr (l + 1) va + pdSize (l + 1)) hi)) (s, w)
      (fun _ => Gone b (l + 1) T r va (min (pdAddr (l + 1) va + pdSize (l + 1)) hi) G s w) fun _ _ => False := by
  obtain ⟨hT, hm⟩ := ht.kind hS.toWhole
  have hs := hS.slot_maps hT hm hz
  have hk : G.kind (s.entry T (pdx (l + 1) va)).frame = (G.kind T).kid (pdx (l + 1) va) := hS.typed hs
  have hlow := hsp.lower hT h₁ h₂ ha
  have hspan : Span (G.kind (s.entry T (pdx (l + 1) va)).frame) l va
      (min (pdAddr (l + 1) va + pdSize (l + 1)) hi) va (min (pdAddr (l + 1) va + pdSize (l + 1)) hi) := by
    rw [hk]
    exact hlow.sub le_rfl le_rfl hlow.lt hlow.lo_dvd hlow.hi_dvd
  refine (h G s w r _ va _ hS (ht.lower hz) hspan ((min_le_right _ _).trans hu)).imp ?_
  rintro _ x ⟨G', w', hl, hx, hw⟩
  exact ⟨G', w', hl.up hS hT hs nofun, hx, hw⟩

variable {lower : Frame → ℕ → ℕ → Traced ℕ}

/-- One round of `pmap_remove_level`. -/
theorem removeEntry_sweeps (hS : Sound b G s) (ht : TableOf b G s r va l T)
    (hsp : Span (G.kind T) l lo hi lo hi) (h₁ : lo ≤ va) (h₂ : va < hi) (ha : va = lo ∨ pdOff l va = 0)
    (hu : hi ≤ vmUserHi) (hlow : ∀ m, l = m + 1 → Sweeps b N m lower) :
    Ends N (Traced.removeEntry b lower l T hi va (pdx l va)) (s, w) (fun va' x =>
      va < va' ∧ (va' < hi → va' = (va / pdSize l + 1) * pdSize l) ∧
        Gone b l T r va (min va' hi) G s w x) fun _ _ => False := by
  obtain ⟨hT, hm⟩ := ht.kind hS.toWhole
  have hpos := pdSize_pos l
  unfold Traced.removeEntry readEntry writeEntry visit
  refine ends_bind_lift (ends_get (ends_bind_lift (ends_bind_get (ends_pure.2 ?_))))
  refine ends_ite (fun hz => ?_) fun hz => ends_ite (fun hfull => ?_) fun hpart => ?_
  · have hnext : pdAddr l (va + pdSize l) = (va / pdSize l + 1) * pdSize l := by
      rw [pdAddr_eq, Nat.add_div_right _ hpos]
    have hlt := next_lt l va
    refine ends_bind_record (ends_pure.2 ⟨by omega, fun _ => hnext, G, _, hS.left_refl fun _ _ => trivial, rfl, ?_⟩)
    rw [hnext]
    exact ht.swept (lt_min hlt h₂) (min_le_left _ _)
  · -- the whole entry
    obtain ⟨hoff, hle⟩ := hfull
    have hnext : (va / pdSize l + 1) * pdSize l = va + pdSize l := by
      rw [Nat.succ_mul, pdOff_eq_zero.1 hoff]
    refine ends_bind_record (ends_bind_lift ?_)
    refine (hS.drop_ends (Kind.maps_user hT hm) hT (Kind.root_pdx_ne hT hm hoff) hz).imp ?_
    rintro _ s₁ ⟨G', hS', hn, hput⟩
    refine ends_bind_lift (ends_modify (ends_pure.2 ⟨by omega, fun _ => hnext.symm, G', _, ?_, rfl, ?_⟩))
    · exact hput.left hS hS' hn hT
    · rw [min_eq_left (by omega)]
      exact ht.swept (by omega) hnext.ge
  · -- part of the entry
    obtain ⟨m, rfl⟩ : ∃ m, l = m + 1 := by
      cases l with
      | succ m => exact ⟨m, rfl⟩
      | zero => exact absurd (hsp.whole h₂ ha) hpart
    refine ends_bind_record (ends_bind_lift (ends_get (ends_bind_lift (ends_noteIf fun _ => ends_bind_lift ?_))))
    refine (pmapWalkLevel_ends hS hT hm).imp ?_
    rintro x s₁ ⟨G₁, hw⟩
    have hleft : Left b (m + 1) T False Any G s G₁ s₁ := (hw.left (C := False) hS hT nofun).any
    have hT₁ : G₁.kind T = G.kind T := hleft.kind_T hT
    refine ends_bind_lift (ends_noteIf fun _ => ends_bind_lift (ends_bind_get (ends_pure.2 (ends_bind ?_))))
    refine ((hlow m rfl).enter hw.sound (ht.base hS.toWhole hleft.base) (by rw [hT₁]; exact hsp) h₁ h₂ ha
      hu (hw.stays hz)).imp ?_
    rintro _ ⟨s₂, w₂⟩ ⟨G₂, w', hl₂, rfl, hsw⟩
    have he := entryEnd_eq (m + 1) va hi
    have hlt : va < min (pdAddr (m + 1) va + pdSize (m + 1)) hi := by
      rw [he]
      exact lt_min (next_lt _ _) h₂
    refine ends_pure.2 ⟨hlt, fun h => ?_, G₂, _ :: w', hleft.then hl₂ hT, by rw [List.append_assoc]; rfl, ?_⟩
    · omega
    · rw [min_eq_left (min_le_right _ _)]
      exact ht.swept_lower hlt (by rw [he]; exact min_le_left _ _) hsw

/-- The loop of `pmap_remove_level`. -/
theorem removeLoop_sweeps (hlow : ∀ m, l = m + 1 → Sweeps b N m lower) :
    Sweeps b N l (Traced.removeLoop b lower l) := by
  intro G s w r T lo hi hS ht hsp hu
  obtain ⟨hT, -⟩ := ht.kind hS.toWhole
  unfold Traced.removeLoop
  refine ends_bind (ends_whileM (I := fun x y => lo ≤ x.1 ∧
    (x.1 < hi → (x.1 = lo ∨ pdOff l x.1 = 0) ∧ x.2 = pdx l x.1) ∧ Gone b l T r lo (min x.1 hi) G s w y)
    (fun x => hi - x.1) ?_ ?_ ?_ _ _ _ le_rfl ?_)
  · rintro ⟨va, i⟩ y - hc
    simp only [decide_eq_true_eq] at hc
    omega
  · rintro ⟨va, i⟩ ⟨s', w₁⟩ ⟨h₁, hx, hg⟩ hc
    simp only [decide_eq_true_eq] at h₁ hx hc hg ⊢
    obtain ⟨ha, rfl⟩ := hx hc
    rw [min_eq_left hc.le] at hg
    obtain ⟨G₁, w', hl, rfl, hw⟩ := hg
    obtain ⟨ht', hsp'⟩ := ht.rest hS hsp hu hl.base h₁ hc
    refine ends_bind ((removeEntry_sweeps hl.sound ht' hsp' h₁ hc ha hu hlow).imp ?_)
    rintro va' y ⟨hlt, hnext, hg'⟩
    refine ends_pure.2 ⟨⟨by omega, fun hva => ?_, ?_⟩, by simp only; omega⟩
    · have he := hnext hva
      simp only at hva ⊢
      rw [he] at hva
      obtain ⟨-, hidx⟩ := next_block (hva.trans_le hsp.block) (hsp.block_eq h₁ hc)
      rw [he]
      refine ⟨.inr (pdOff_eq_zero.2 ?_), hidx.symm⟩
      rw [next_div]
    · exact hg'.after hl hw hT h₁ (le_min hlt.le hc.le)
  · rintro ⟨va, i⟩ y ⟨-, -, hg⟩ hc
    simp only [decide_eq_false_iff_not, not_lt] at hc hg
    rw [min_eq_right hc] at hg
    exact ends_pure.2 hg
  · refine ⟨le_rfl, fun _ => ⟨.inl rfl, rfl⟩, ?_⟩
    rw [min_eq_left hsp.lt.le]
    exact hS.gone

/-- **Removing a range** below a table. -/
theorem pmapRemoveLevel_sweeps (l : ℕ) : Sweeps b N l (Traced.pmapRemoveLevel b l) := by
  induction l with
  | zero => exact removeLoop_sweeps nofun
  | succ m ih =>
    refine removeLoop_sweeps fun m' hm => ?_
    obtain rfl : m = m' := by omega
    exact ih

/-! ## Permissions -/

variable {go : Frame → ℕ → ℕ → Traced Unit} {pand por : BitVec 12}

/-- One round of `pmap_setperm_level`. -/
theorem setpermEntry_sweeps (hN : Note.ignored ∈ N) (hor : por.getLsbD 1 = false) (hS : Sound b G s)
    (ht : TableOf b G s r va l T) (hsp : Span (G.kind T) l lo hi lo hi) (h₁ : lo ≤ va) (h₂ : va < hi)
    (ha : va = lo ∨ pdOff l va = 0) (hu : hi ≤ vmUserHi) (hlow : ∀ m, l = m + 1 → Sweeps b N m go) :
    Ends N (Traced.setpermEntry b go l T pand por hi va) (s, w) (fun va' x =>
      va < va' ∧ (va' < hi → va' = (va / pdSize l + 1) * pdSize l) ∧
        Gone b l T r va (min va' hi) G s w x) fun _ _ => False := by
  obtain ⟨hT, hm⟩ := ht.kind hS.toWhole
  have hpos := pdSize_pos l
  have he := entryEnd_eq l va hi
  have hlt : va < min (pdAddr l va + pdSize l) hi := by
    rw [he]
    exact lt_min (next_lt _ _) h₂
  have hend : min (pdAddr l va + pdSize l) hi < hi → min (pdAddr l va + pdSize l) hi = (va / pdSize l + 1) * pdSize l := by
    omega
  have hwhole : pdOff l va = 0 ∧ pdSize l ≤ hi - va → va + pdSize l = min (pdAddr l va + pdSize l) hi := by
    rintro ⟨hoff, hle⟩
    rw [he, Nat.succ_mul, pdOff_eq_zero.1 hoff, min_eq_left]
    omega
  unfold Traced.setpermEntry readEntry writeEntry visit
  refine ends_bind_lift (ends_get (ends_bind_lift (ends_bind_get (ends_pure.2 ?_))))
  refine ends_ite (fun hz => ?_) fun hz => ?_
  · have hnext : pdAddr l va + pdSize l = (va / pdSize l + 1) * pdSize l := by
      rw [pdAddr_eq, Nat.succ_mul]
    refine ends_bind_record (ends_pure.2 ⟨hlt.trans_le (min_le_left _ _), fun _ => hnext, G, _,
      hS.left_refl fun _ _ => trivial, rfl, ?_⟩)
    exact ht.swept hlt (by rw [he]; exact min_le_left _ _)
  cases l with
  | zero =>
    have hfull : pdOff 0 va = 0 ∧ pdSize 0 ≤ hi - va := hsp.whole h₂ ha
    refine ends_ite (fun h => absurd h (lt_irrefl 0)) fun _ => ?_
    refine ends_ite (fun _ => ends_ite (fun _ => ?_) fun h => absurd rfl h) fun h => absurd hfull h
    refine ends_bind_record (ends_bind_lift (ends_bind_get (ends_pure.2 (ends_bind_lift (ends_modify ?_)))))
    have hset : Left b 0 T True (Ranged 0 lo va (va + pdSize 0) (Permitted b pand por)) G s G _ :=
      hS.setperm_zero hT hm (hsp.block_eq h₁ h₂) hfull.1 hor hz
    refine ends_pure.2 ⟨by omega, fun h => ?_, G, _, hset.some, rfl, ?_⟩
    · rw [hwhole hfull] at h ⊢
      exact hend h
    · rw [hwhole hfull, min_eq_left (min_le_right _ _)]
      exact ht.swept hlt (by rw [he]; exact min_le_left _ _)
  | succ m =>
    refine ends_ite (fun _ => ?_) fun h => absurd (Nat.succ_pos m) h
    refine ends_bind_lift ((pmapWalkLevel_ends hS hT hm).imp ?_)
    rintro x s₁ ⟨G₁, hw⟩
    refine ends_bind_lift (ends_noteIf fun hig => ?_)
    obtain ⟨y, hy⟩ := Option.ne_none_iff_exists'.1 (hig hN)
    obtain ⟨-, -, -, hz₁, -⟩ := hw.leaf y.1 y.2 hy
    have hleft : Left b (m + 1) T False Any G s G₁ s₁ := (hw.left (C := False) hS hT nofun).any
    have hT₁ : G₁.kind T = G.kind T := hleft.kind_T hT
    -- all of the entry or a part of it: the lower table is entered
    have hgo : ∀ n, n = min (pdAddr (m + 1) va + pdSize (m + 1)) hi → Ends N (do
        record fun _ => ⟨s, m + 1, none, ⟨T, pdx (m + 1) va, va⟩, n - va, true, false⟩
        let e ← lift (readEntry T (pdx (m + 1) va))
        go e.frame va n
        pure n) (s₁, w) (fun va' x => va < va' ∧ (va' < hi → va' = (va / pdSize (m + 1) + 1) * pdSize (m + 1)) ∧
          Gone b (m + 1) T r va (min va' hi) G s w x) fun _ _ => False := by
      rintro n rfl
      unfold readEntry
      refine ends_bind_record (ends_bind_lift (ends_bind_get (ends_pure.2 (ends_bind ?_))))
      refine ((hlow m rfl).enter hw.sound (ht.base hS.toWhole hleft.base) (by rw [hT₁]; exact hsp) h₁ h₂ ha hu
        hz₁).imp ?_
      rintro _ ⟨s₂, w₂⟩ ⟨G₂, w', hl₂, rfl, hsw⟩
      refine ends_pure.2 ⟨hlt, hend, G₂, _ :: w', hleft.then hl₂ hT, by rw [List.append_assoc]; rfl, ?_⟩
      rw [min_eq_left (min_le_right _ _)]
      exact ht.swept_lower hlt (by rw [he]; exact min_le_left _ _) hsw
    refine ends_ite (fun hfull => ends_ite (fun h => absurd h (Nat.succ_ne_zero m)) fun _ => ?_) fun _ => ?_
    · exact hgo _ (hwhole hfull)
    · exact hgo _ rfl

/-- The loop of `pmap_setperm_level`. -/
theorem setpermLoop_sweeps (hN : Note.ignored ∈ N) (hor : por.getLsbD 1 = false)
    (hlow : ∀ m, l = m + 1 → Sweeps b N m go) : Sweeps b N l (Traced.setpermLoop b go l pand por) := by
  intro G s w r T lo hi hS ht hsp hu
  obtain ⟨hT, -⟩ := ht.kind hS.toWhole
  unfold Traced.setpermLoop
  refine ends_bind (ends_whileM (I := fun va y => lo ≤ va ∧ (va < hi → va = lo ∨ pdOff l va = 0) ∧
    Gone b l T r lo (min va hi) G s w y) (fun va => hi - va) ?_ ?_ ?_ _ _ _ le_rfl ?_)
  · intro va y _ hc
    simp only [decide_eq_true_eq] at hc
    omega
  · rintro va ⟨s', w₁⟩ ⟨h₁, ha, hg⟩ hc
    simp only [decide_eq_true_eq] at hc
    rw [min_eq_left hc.le] at hg
    obtain ⟨G₁, w', hl, rfl, hw⟩ := hg
    obtain ⟨ht', hsp'⟩ := ht.rest hS hsp hu hl.base h₁ hc
    refine (setpermEntry_sweeps hN hor hl.sound ht' hsp' h₁ hc (ha hc) hu hlow).imp ?_
    rintro va' y ⟨hlt, hnext, hg'⟩
    refine ⟨⟨by omega, fun hva => .inr ?_, hg'.after hl hw hT h₁ (le_min hlt.le hc.le)⟩, by omega⟩
    rw [hnext hva, pdOff_eq_zero, next_div]
  · rintro va y ⟨-, -, hg⟩ hc
    simp only [decide_eq_false_iff_not, not_lt] at hc
    rw [min_eq_right hc] at hg
    exact ends_pure.2 hg
  · refine ⟨le_rfl, fun _ => .inl rfl, ?_⟩
    rw [min_eq_left hsp.lt.le]
    exact hS.gone

/-- **Setting the permissions of a range** below a table. -/
theorem pmapSetpermLevel_sweeps (hN : Note.ignored ∈ N) (hor : por.getLsbD 1 = false) (l : ℕ) :
    Sweeps b N l (Traced.pmapSetpermLevel b pand por l) := by
  induction l with
  | zero => exact setpermLoop_sweeps hN hor nofun
  | succ m ih =>
    refine setpermLoop_sweeps hN hor fun m' hm => ?_
    obtain rfl : m = m' := by omega
    exact ih

end

end Determinator
