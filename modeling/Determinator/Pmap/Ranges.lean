import Determinator.Pmap.Calls
import Determinator.Pmap.Sweeps

/-!
# Ranges

`pmap_remove`, `pmap_copy` and `pmap_setperm` stay in the tables of their page maps, and they end
(`RangeCall.Orderly`). In a copy the two entry pointers move beside two addresses, which are always at the same
distance from the beginnings of their ranges. It can only stop at the assertion that there is a table; a
`pmap_setperm` goes on without one, and takes the zero page for it.
-/

namespace Determinator

open PanicM

variable {b : Boot} {G G' G₁ : Ghost} {s s' s₁ s₀ : Mem} {σ : Maps} {r sr dr st dt : Frame} {v : Visit}
  {w w' w₁ w₂ : List Visit} {a l m n va lo hi sva dva svahi size : ℕ}

/-! ## Copies -/

/-- The iterations of a copy, and of the removals in it, while it goes on: they are for places in the two ranges
at the same distance from the beginning. -/
structure Copying (b : Boot) (sr : Frame) (sva : ℕ) (dr : Frame) (dva size : ℕ) (w : List Visit) : Prop where
  fits : ∀ v ∈ w, v.Fits b dr dva (dva + size)
  source : ∀ v ∈ w, ∀ c, v.source = some c →
    c.Fits b v.mem sr sva (sva + size) v.level v.size ∧ c.va + dva = v.entry.va + sva

/-- The iterations of a copy that has come to its end. The removals in it have been for all of the bytes that
they were called for. -/
structure Duplicated (b : Boot) (sr : Frame) (sva : ℕ) (dr : Frame) (dva size : ℕ) (w : List Visit) : Prop
    extends Copying b sr sva dr dva size w where
  once : ∀ a, times true a w = if dva ≤ a ∧ a < dva + size then 1 else 0
  cleared : ∀ a, times false a w = w.countP fun v => v.clears ∧ v.At a

theorem duplicated_nil : Duplicated b sr sva dr dva 0 [] := by
  refine ⟨⟨by simp, by simp⟩, fun a => ?_, fun a => rfl⟩
  rw [times_nil, if_neg (by omega)]

theorem Copying.mono {k : ℕ} (h : Copying b sr (sva + k) dr (dva + k) n w) (hle : k + n ≤ size) :
    Copying b sr sva dr dva size w where
  fits v hv := (h.fits v hv).mono (by omega) (by omega)
  source v hv c hc := by
    obtain ⟨hf, he⟩ := h.source v hv c hc
    exact ⟨hf.mono (by omega) (by omega), by omega⟩

theorem Copying.append (h₁ : Copying b sr sva dr dva size w₁) (h₂ : Copying b sr sva dr dva size w₂) :
    Copying b sr sva dr dva size (w₁ ++ w₂) where
  fits v hv := (List.mem_append.1 hv).elim (h₁.fits v) (h₂.fits v)
  source v hv := (List.mem_append.1 hv).elim (h₁.source v) (h₂.source v)

/-- One part after the other. -/
theorem Duplicated.append (h₁ : Duplicated b sr sva dr dva m w₁) (h₂ : Duplicated b sr (sva + m) dr (dva + m) n w₂) :
    Duplicated b sr sva dr dva (m + n) (w₁ ++ w₂) := by
  have h₀ : Copying b sr (sva + 0) dr (dva + 0) m w₁ := h₁.toCopying
  refine ⟨(h₀.mono (by omega)).append (h₂.toCopying.mono le_rfl), fun a => ?_, fun a => ?_⟩
  · rw [times_append, h₁.once, h₂.once]
    split <;> split <;> split <;> omega
  · rw [times_append, h₁.cleared, h₂.cleared, List.countP_append]

/-- The entries of an iteration of `pmap_copy_level`. -/
theorem TableOf.copying {lower clears : Bool} (hs : TableOf b G s sr sva l st) (hd : TableOf b G s dr dva l dt)
    (hpos : 0 < size) (hes : sva + size ≤ (sva / pdSize l + 1) * pdSize l)
    (hed : dva + size ≤ (dva / pdSize l + 1) * pdSize l) (hl : lower = true → 0 < l) :
    Copying b sr sva dr dva size
      [⟨s, l, some ⟨st, pdx l sva, sva⟩, ⟨dt, pdx l dva, dva⟩, size, lower, clears⟩] := by
  refine ⟨fun v hv => ?_, fun v hv c hc => ?_⟩ <;> obtain rfl := List.mem_singleton.1 hv
  · exact ⟨hpos, hl, hd.fits le_rfl le_rfl hed⟩
  · obtain rfl := Option.some.inj hc
    exact ⟨hs.fits le_rfl le_rfl hes, Nat.add_comm _ _⟩

theorem Swept.copying (h : Swept b dr dva (dva + size) w) : Copying b sr sva dr dva size w :=
  ⟨h.fits, fun v hv c hc => by rw [(h.plain v hv).1] at hc; cases hc⟩

/-- No iteration of a removal is one of `pmap_copy_level`. -/
theorem Swept.times_copying (h : Swept b r lo hi w) : times true a w = 0 := by
  refine List.countP_eq_zero.2 fun v hv => ?_
  simp [(h.plain v hv).1]

theorem Swept.clears (h : Swept b r lo hi w) : (w.countP fun v => v.clears ∧ v.At a) = 0 := by
  refine List.countP_eq_zero.2 fun v hv => ?_
  simp [(h.plain v hv).2]

/-- An iteration that calls nothing. -/
theorem TableOf.duplicated (hs : TableOf b G s sr sva l st) (hd : TableOf b G s dr dva l dt) (hpos : 0 < size)
    (hes : sva + size ≤ (sva / pdSize l + 1) * pdSize l) (hed : dva + size ≤ (dva / pdSize l + 1) * pdSize l) :
    Duplicated b sr sva dr dva size
      [⟨s, l, some ⟨st, pdx l sva, sva⟩, ⟨dt, pdx l dva, dva⟩, size, false, false⟩] := by
  refine ⟨hs.copying hd hpos hes hed nofun, fun a => ?_, fun a => ?_⟩ <;> simp [times_cons, Visit.At]

/-- An iteration that removes what the destination has. -/
theorem TableOf.duplicated_clear (hs : TableOf b G s sr sva l st) (hd : TableOf b G s dr dva l dt) (hpos : 0 < size)
    (hes : sva + size ≤ (sva / pdSize l + 1) * pdSize l) (hed : dva + size ≤ (dva / pdSize l + 1) * pdSize l)
    (hw : Swept b dr dva (dva + size) w) : Duplicated b sr sva dr dva size
      (⟨s, l, some ⟨st, pdx l sva, sva⟩, ⟨dt, pdx l dva, dva⟩, size, false, true⟩ :: w) := by
  have hv : Copying b sr sva dr dva size
      [⟨s, l, some ⟨st, pdx l sva, sva⟩, ⟨dt, pdx l dva, dva⟩, size, false, true⟩] :=
    hs.copying hd hpos hes hed nofun
  refine ⟨hv.append hw.copying, fun a => ?_, fun a => ?_⟩
  · rw [times_cons, hw.times_copying]
    simp [Visit.At]
  · rw [times_cons, List.countP_cons, hw.once, hw.clears]
    simp [Visit.At]

/-- An iteration that leaves its bytes to the level below. -/
theorem TableOf.duplicated_lower (hs : TableOf b G s sr sva (l + 1) st) (hd : TableOf b G s dr dva (l + 1) dt)
    (hpos : 0 < size) (hes : sva + size ≤ (sva / pdSize (l + 1) + 1) * pdSize (l + 1))
    (hed : dva + size ≤ (dva / pdSize (l + 1) + 1) * pdSize (l + 1)) (hw : Duplicated b sr sva dr dva size w) :
    Duplicated b sr sva dr dva size (⟨s, l + 1, some ⟨st, pdx (l + 1) sva, sva⟩, ⟨dt, pdx (l + 1) dva, dva⟩,
      size, true, false⟩ :: w) := by
  refine ⟨(hs.copying hd hpos hes hed fun _ => Nat.succ_pos l).append hw.toCopying, fun a => ?_, fun a => ?_⟩
  · rw [times_cons, hw.once]
    simp
  · rw [times_cons, List.countP_cons, hw.cleared]
    simp

section

variable (b : Boot) (N : Set Note)

/-- A range has been copied. -/
def Done (l : ℕ) (dt sr : Frame) (sva : ℕ) (dr : Frame) (dva size : ℕ) (G : Ghost) (s : Mem) (w : List Visit)
    (x : Mem × List Visit) : Prop :=
  ∃ G' w', Left b l dt False Any G s G' x.1 ∧ x.2 = w ++ w' ∧ Duplicated b sr sva dr dva size w'

/-- A copy has stopped, as there was no page for a table of the destination. -/
def Short (sr : Frame) (sva : ℕ) (dr : Frame) (dva size : ℕ) (w : List Visit) (e : Panic)
    (x : Mem × List Visit) : Prop :=
  e = .assert ∧ x.1.dry = true ∧ ∃ w', x.2 = w ++ w' ∧ Copying b sr sva dr dva size w'

/-- What copying a range below a level-`l` table does. -/
def Duplicates (l : ℕ) (copy : Frame → ℕ → Frame → ℕ → ℕ → Traced Unit) : Prop :=
  ∀ (G : Ghost) (s : Mem) (w : List Visit) (sr dr st dt : Frame) (sva dva svahi : ℕ), Sound b G s →
    TableOf b G s sr sva l st → TableOf b G s dr dva l dt → Span (G.kind st) l sva svahi sva svahi →
    Span (G.kind dt) l dva (dva + (svahi - sva)) dva (dva + (svahi - sva)) → svahi ≤ vmUserHi →
    dva + (svahi - sva) ≤ vmUserHi →
    Ends N (copy st sva dt dva svahi) (s, w) (fun _ => Done b l dt sr sva dr dva (svahi - sva) G s w)
      (Short b sr sva dr dva (svahi - sva) w)

end

theorem Sound.done (hS : Sound b G s) : Done b l dt sr sva dr dva 0 G s w (s, w) :=
  ⟨G, [], hS.left_refl fun _ _ => trivial, (List.append_nil w).symm, duplicated_nil⟩

/-- The rest of a range is copied after a part of it. -/
theorem Done.after {x : Mem × List Visit} (h : Done b l dt sr (sva + m) dr (dva + m) n G₁ s₁ (w ++ w₁) x)
    (hl : Left b l dt False Any G s G₁ s₁) (hw : Duplicated b sr sva dr dva m w₁)
    (hT : (G.kind dt).level = some l) : Done b l dt sr sva dr dva (m + n) G s w x := by
  obtain ⟨G₂, w₂, hl₂, hx, hw₂⟩ := h
  refine ⟨G₂, w₁ ++ w₂, hl.then hl₂ hT, ?_, hw.append hw₂⟩
  rw [hx, List.append_assoc]

theorem Short.mono {e : Panic} {x : Mem × List Visit} (h : Short b sr sva dr dva n w e x) (hle : n ≤ size) :
    Short b sr sva dr dva size w e x := by
  obtain ⟨he, hd, w', hx, hw⟩ := h
  have h₀ : Copying b sr (sva + 0) dr (dva + 0) n w' := hw
  exact ⟨he, hd, w', hx, h₀.mono (by omega)⟩

theorem Short.after {e : Panic} {x : Mem × List Visit}
    (h : Short b sr (sva + m) dr (dva + m) n (w ++ w₁) e x) (hw : Duplicated b sr sva dr dva m w₁)
    (hle : m + n ≤ size) : Short b sr sva dr dva size w e x := by
  obtain ⟨he, hd, w₂, hx, hw₂⟩ := h
  have h₀ : Copying b sr (sva + 0) dr (dva + 0) m w₁ := hw.toCopying
  refine ⟨he, hd, w₁ ++ w₂, ?_, (h₀.mono (by omega)).append (hw₂.mono hle)⟩
  rw [hx, List.append_assoc]

theorem ends_any {N : Set Note} {α : Type} {m : Kern α} : Ends N m s (fun _ _ => True) fun _ _ => True :=
  ⟨fun _ => by split <;> trivial⟩

section

variable {N : Set Note} {copy : Frame → ℕ → Frame → ℕ → ℕ → Traced Unit}

/-- Sharing a whole entry. -/
theorem copyShare_done {x : CopyAt} (hS : Sound b G s) (hs : TableOf b G s sr x.sva l st)
    (hd : TableOf b G s dr x.dva l dt) (hsd : Span (G.kind dt) l x.dva (x.dva + pdSize l) x.dva (x.dva + pdSize l))
    (hos : pdOff l x.sva = 0) (hod : pdOff l x.dva = 0) (hsi : x.si = pdx l x.sva) (hdi : x.di = pdx l x.dva)
    (hu : x.dva + pdSize l ≤ vmUserHi) :
    Ends N (Traced.copyShare b s l st dt x) (s, w)
      (fun _ => Done b l dt sr x.sva dr x.dva (pdSize l) G s w) fun _ _ => False := by
  obtain ⟨hst, hms⟩ := hs.kind hS.toWhole
  obtain ⟨hdt, hmd⟩ := hd.kind hS.toWhole
  have hnext : ∀ {va}, pdOff l va = 0 → va + pdSize l ≤ (va / pdSize l + 1) * pdSize l := by
    intro va ho
    rw [Nat.succ_mul, pdOff_eq_zero.1 ho]
  have hleft : Ends N (copyShare b l st dt x) s (fun _ s' => ∃ G', Left b l dt False Any G s G' s')
      fun _ _ => False := copyShare_ends hS hst hdt hms hmd hos hod hsi hdi
  have hlist : Ends N (Traced.copyShare b s l st dt x) (s, w) (fun _ y => ∃ w', y.2 = w ++ w' ∧
      Duplicated b sr x.sva dr x.dva (pdSize l) w') fun _ _ => True := by
    unfold Traced.copyShare readEntry visitCopy
    refine ends_bind_lift (ends_bind_get (ends_pure.2 (ends_bind_record (ends_ite (fun hz => ?_) fun hz => ?_))))
    · refine ends_bind ((pmapRemoveLevel_sweeps l G s _ dr dt x.dva _ hS hd hsd hu).mono ?_ nofun)
      rintro _ ⟨s₁, w₁⟩ ⟨G₁, w', -, rfl, hw⟩
      refine ends_lift (ends_any.mono (fun _ _ _ => ⟨_ :: w', by rw [List.append_assoc]; rfl, ?_⟩) fun _ _ _ => trivial)
      rw [decide_eq_true hz, hsi, hdi]
      exact hs.duplicated_clear hd (pdSize_pos l) (hnext hos) (hnext hod) hw
    · refine ends_lift (ends_any.mono (fun _ _ _ => ⟨_, rfl, ?_⟩) fun _ _ _ => trivial)
      rw [decide_eq_false hz, hsi, hdi]
      exact hs.duplicated hd (pdSize_pos l) (hnext hos) (hnext hod)
  refine (((erases_copyShare s x).ends hleft).and hlist).mono ?_ fun _ _ h => h.1
  rintro _ y ⟨⟨G', hl⟩, w', hy, hw⟩
  exact ⟨G', w', hl, hy, hw⟩

/-- Copying part of an entry. -/
theorem copyPart_done {x : CopyAt} (hS : Sound b G s) (hs : TableOf b G s sr x.sva (l + 1) st)
    (hd : TableOf b G s dr x.dva (l + 1) dt)
    (hss : Span (G.kind st) (l + 1) x.sva (x.sva + size) x.sva (x.sva + size))
    (hsd : Span (G.kind dt) (l + 1) x.dva (x.dva + size) x.dva (x.dva + size))
    (hes : x.sva + size ≤ (x.sva / pdSize (l + 1) + 1) * pdSize (l + 1))
    (hed : x.dva + size ≤ (x.dva / pdSize (l + 1) + 1) * pdSize (l + 1)) (hsi : x.si = pdx (l + 1) x.sva)
    (hdi : x.di = pdx (l + 1) x.dva) (hus : x.sva + size ≤ vmUserHi) (hud : x.dva + size ≤ vmUserHi)
    (hlow : Duplicates b N l copy) : Ends N (Traced.copyPart b copy s (l + 1) st dt x size) (s, w)
      (fun _ => Done b (l + 1) dt sr x.sva dr x.dva size G s w) (Short b sr x.sva dr x.dva size w) := by
  obtain ⟨hst, hms⟩ := hs.kind hS.toWhole
  obtain ⟨hdt, hmd⟩ := hd.kind hS.toWhole
  have hpos : 0 < size := Nat.lt_add_right_iff_pos.1 hss.lt
  have hsub : x.sva + size - x.sva = size := by omega
  -- the record, when the level below is called
  set v : Visit := ⟨s, l + 1, some ⟨st, pdx (l + 1) x.sva, x.sva⟩, ⟨dt, pdx (l + 1) x.dva, x.dva⟩, size, true,
    false⟩ with hv
  have hcv : Copying b sr x.sva dr x.dva size [v] := hs.copying hd hpos hes hed fun _ => Nat.succ_pos l
  -- both entries lead to tables
  have hrest : ∀ G₁ s₁, Left b (l + 1) dt False Any G s G₁ s₁ → (s₁.entry st x.si).frame ≠ b.zero →
      (s₁.entry dt x.di).frame ≠ b.zero →
      Ends N (do
        let d ← lift (readEntry dt x.di)
        lift (check (d.frame ≠ b.zero) .assert)
        let s ← lift get
        lift (noteIf (s.refcount d.frame ≠ 1) .sharedDest)
        let e ← lift (readEntry st x.si)
        copy e.frame x.sva d.frame x.dva (x.sva + size)) (s₁, w ++ [v])
        (fun _ => Done b (l + 1) dt sr x.sva dr x.dva size G s w) (Short b sr x.sva dr x.dva size w) := by
    intro G₁ s₁ hl hzs hzd
    have hs₁ := hs.base hS.toWhole (hl.base)
    have hd₁ := hd.base hS.toWhole hl.base
    have hks := hl.base.kind st (l + 1) hst le_rfl
    have hkd := hl.kind_T hdt
    rw [hsi] at hzs ⊢
    rw [hdi] at hzd ⊢
    have hslot := hl.sound.slot_maps (by rw [hks]; exact hst) (by rw [hks]; exact hms) hzs
    have hslot' := hl.sound.slot_maps (by rw [hkd]; exact hdt) (by rw [hkd]; exact hmd) hzd
    have hk : G₁.kind (s₁.entry st (pdx (l + 1) x.sva)).frame = (G.kind st).kid (pdx (l + 1) x.sva) := by
      rw [hl.sound.typed hslot, hks]
    have hk' : G₁.kind (s₁.entry dt (pdx (l + 1) x.dva)).frame = (G.kind dt).kid (pdx (l + 1) x.dva) := by
      rw [hl.sound.typed hslot', hkd]
    unfold readEntry
    refine ends_bind_lift (ends_bind_get (ends_pure.2 (ends_bind_lift (ends_check (fun _ => ?_) fun hn => absurd hzd hn))))
    refine ends_bind_lift (ends_get (ends_bind_lift (ends_noteIf fun _ => ends_bind_lift (ends_bind_get
      (ends_pure.2 ?_)))))
    refine (hlow G₁ s₁ (w ++ [v]) sr dr _ _ x.sva x.dva (x.sva + size) hl.sound (hs₁.lower hzs) (hd₁.lower hzd)
      ?_ ?_ hus (by rw [hsub]; exact hud)).mono ?_ ?_
    · rw [hk]
      exact hss.kid hst le_rfl le_rfl hss.lt hss.lo_dvd hss.hi_dvd hes
    · rw [hk', hsub]
      exact hsd.kid hdt le_rfl le_rfl hsd.lt hsd.lo_dvd hsd.hi_dvd hed
    · rintro _ y ⟨G₂, w', hl₂, hy, hw⟩
      rw [hsub] at hw
      refine ⟨G₂, v :: w', hl.then (hl₂.up hl.sound (by rw [hkd]; exact hdt) hslot' (by simp)) hdt, ?_, ?_⟩
      · rw [hy, List.append_assoc]
        rfl
      · exact hs.duplicated_lower hd hpos hes hed hw
    · rintro e y ⟨he, hdry, w', hy, hw⟩
      rw [hsub] at hw
      refine ⟨he, hdry, [v] ++ w', ?_, hcv.append hw⟩
      rw [hy, List.append_assoc]
  unfold Traced.copyPart visitCopy
  nth_rewrite 1 [readEntry]
  refine ends_bind_lift (ends_bind_get (ends_pure.2 (ends_ite (fun hz => ?_) fun hz => ?_)))
  · refine ends_bind_record (ends_bind ?_)
    refine (pmapRemoveLevel_sweeps (l + 1) G s _ dr dt x.dva _ hS hd hsd hud).mono ?_ (by simp)
    rintro _ ⟨s₁, w₁⟩ ⟨G₁, w', hl, rfl, hw⟩
    refine ends_pure.2 ⟨G₁, _ :: w', hl, by rw [List.append_assoc]; rfl, ?_⟩
    rw [hsi, hdi]
    exact hs.duplicated_clear hd hpos hes hed hw
  rw [← hsi, ← hdi] at hv
  refine ends_bind_record ?_
  rw [← hv]
  nth_rewrite 1 [readEntry]
  refine ends_bind_lift (ends_bind_get (ends_pure.2 (ends_ite (fun hzd => ?_) fun hzd => ?_)))
  · -- the destination gets a table
    refine ends_bind_lift ((pmapWalkLevel_ends hS hdt hmd).imp ?_)
    rintro r s₁ ⟨G₁, hw⟩
    have hleft : Left b (l + 1) dt False Any G s G₁ s₁ := (hw.left (C := False) hS hdt False.elim).any
    have hne : st ≠ dt ∨ x.si ≠ x.di := by
      by_contra hn
      push Not at hn
      rw [hn.1, hn.2] at hz
      exact hz hzd
    have hsame : s₁.entry st x.si = s.entry st x.si := by
      refine hw.same st x.si ?_ hst ?_
      · rw [hsi]
        exact pdx_lt _ _
      · rw [← hdi]
        exact hne
    nth_rewrite 1 [readEntry]
    refine ends_bind_lift (ends_bind_get (ends_pure.2 (ends_bind_lift (ends_noteIf fun _ => ?_))))
    by_cases hzd₁ : (s₁.entry dt x.di).frame = b.zero
    · unfold readEntry
      refine ends_bind_lift (ends_bind_get (ends_pure.2 (ends_bind_lift (ends_check (fun h => absurd hzd₁ h) ?_))))
      intro _
      refine ⟨rfl, ?_, [v], rfl, hcv⟩
      cases r with
      | none => exact (hw.fails rfl).1
      | some y =>
        obtain ⟨-, -, -, hown⟩ := hw.leaf y.1 y.2 rfl
        rw [hdi] at hzd₁
        exact absurd hzd₁ hown.1
    · exact hrest G₁ s₁ hleft (by rw [hsame]; exact hz) hzd₁
  · exact hrest G s (hS.left_refl fun _ _ => trivial) hz hzd

/-- One round of `pmap_copy_level`. -/
theorem copyEntry_done {x : CopyAt} {dvahi : ℕ} (hS : Sound b G s) (hs : TableOf b G s sr x.sva l st)
    (hd : TableOf b G s dr x.dva l dt) (hss : Span (G.kind st) l sva svahi sva svahi)
    (hsd : Span (G.kind dt) l dva dvahi dva dvahi) (h₁ : sva ≤ x.sva) (h₂ : x.sva < svahi) (h₃ : dva ≤ x.dva)
    (h₄ : x.dva + (svahi - x.sva) = dvahi) (has : 4096 ∣ x.sva) (had : 4096 ∣ x.dva) (hsi : x.si = pdx l x.sva)
    (hdi : x.di = pdx l x.dva) (hus : svahi ≤ vmUserHi) (hud : dvahi ≤ vmUserHi)
    (hlow : ∀ m, l = m + 1 → Duplicates b N m copy) :
    Ends N (Traced.copyEntry b copy l st dt svahi x) (s, w) (fun y z => ∃ n, 0 < n ∧ 4096 ∣ n ∧
      x.sva + n ≤ svahi ∧ y.sva = x.sva + n ∧ y.dva = x.dva + n ∧
      (y.sva < svahi → y.si = pdx l y.sva ∧ y.di = pdx l y.dva) ∧ Done b l dt sr x.sva dr x.dva n G s w z)
      (Short b sr x.sva dr x.dva (svahi - x.sva) w) := by
  have hp := pdSize_pos l
  unfold Traced.copyEntry
  refine ends_bind_lift (ends_get (ends_ite (fun ⟨hos, hod, hle⟩ => ?_) fun hpart => ?_))
  · have hd' : 4096 ∣ x.dva + pdSize l := Nat.dvd_add had (four_dvd l)
    refine ends_bind ((copyShare_done hS hs hd (hsd.sub h₃ (by omega) (by omega) had hd') hos hod hsi hdi
      (by omega)).mono ?_ nofun)
    intro _ z hz
    refine ends_pure.2 ⟨pdSize l, hp, four_dvd l, by omega, rfl, rfl, fun hlt => ⟨?_, ?_⟩, hz⟩
    · rw [hsi]
      exact hss.pdx_whole h₁ hos hlt
    · rw [hdi]
      exact hsd.pdx_whole h₃ hod (by simp only at hlt; omega)
  · obtain ⟨m, rfl⟩ : ∃ m, l = m + 1 := by
      cases l with
      | succ m => exact ⟨m, rfl⟩
      | zero => exact absurd (x.whole has had hss.hi_dvd h₂) hpart
    obtain ⟨hsz, hpos, hes, hed, hle⟩ := copySize_spec (l := m + 1) has had hss.hi_dvd h₂
    set n := copySize (m + 1) x svahi with hn
    have hss' := hss.sub h₁ hle (by omega) has (Nat.dvd_add has hsz)
    have hsd' := hsd.sub h₃ (show x.dva + n ≤ dvahi by omega) (by omega) had (Nat.dvd_add had hsz)
    refine ends_bind ((copyPart_done hS hs hd hss' hsd' hes hed hsi hdi (by omega) (by omega)
      (hlow m rfl)).mono ?_ ?_)
    · intro _ z hz
      refine ends_pure.2 ⟨n, hpos, hsz, hle, rfl, rfl, fun hlt => ⟨?_, ?_⟩, hz⟩
      · simp only [CopyAt.advance] at hlt ⊢
        rw [hsi]
        exact hss.pdx_part h₁ hpos hlt hes
      · simp only [CopyAt.advance] at hlt ⊢
        rw [hdi]
        exact hsd.pdx_part h₃ hpos (by omega) hed
    · intro e z hz
      exact hz.mono (by omega)

/-- The loop of `pmap_copy_level`. -/
theorem copyLoop_done (hlow : ∀ m, l = m + 1 → Duplicates b N m copy) :
    Duplicates b N l (Traced.copyLoop b copy l) := by
  intro G s w sr dr st dt sva dva svahi hS hs hd hss hsd hus hud
  obtain ⟨hst, -⟩ := hs.kind hS.toWhole
  obtain ⟨hdt, -⟩ := hd.kind hS.toWhole
  unfold Traced.copyLoop
  refine ends_bind (ends_whileM (I := fun x y => ∃ m, x.sva = sva + m ∧ x.dva = dva + m ∧ x.sva ≤ svahi ∧
    4096 ∣ m ∧ (x.sva < svahi → x.si = pdx l x.sva ∧ x.di = pdx l x.dva) ∧ Done b l dt sr sva dr dva m G s w y)
    (fun x => svahi - x.sva) ?_ ?_ ?_ _ _ _ le_rfl ?_)
  · rintro x y - hc
    simp only [decide_eq_true_eq] at hc
    omega
  · rintro x ⟨s', w₁⟩ ⟨m, hxs, hxd, hle, hm, hidx, G₁, w', hl, rfl, hw⟩ hc
    simp only [decide_eq_true_eq] at hc
    obtain ⟨hsi, hdi⟩ := hidx hc
    have has : 4096 ∣ x.sva := hxs ▸ Nat.dvd_add hss.lo_dvd hm
    have had : 4096 ∣ x.dva := hxd ▸ Nat.dvd_add hsd.lo_dvd hm
    obtain ⟨hs', hss'⟩ := hs.rest hS hss hus hl.base (show sva ≤ x.sva by omega) hc
    obtain ⟨hd', hsd'⟩ := hd.rest hS hsd hud hl.base (show dva ≤ x.dva by omega) (by omega)
    refine (copyEntry_done hl.sound hs' hd' hss' hsd' (by omega) hc (by omega) (by omega) has had hsi hdi hus hud
      hlow).mono ?_ ?_
    · rintro y z ⟨n, hpos, hn, hle', hy, hy', hi, hg⟩
      rw [hxs, hxd] at hg
      exact ⟨⟨m + n, by omega, by omega, by omega, Nat.dvd_add hm hn, hi, hg.after hl hw hdt⟩, by omega⟩
    · intro e z hz
      rw [hxs, hxd] at hz
      exact hz.after hw (by omega)
  · rintro x y ⟨m, hxs, -, hle, -, -, hg⟩ hc
    simp only [decide_eq_false_iff_not, not_lt] at hc
    obtain rfl : m = svahi - sva := by omega
    exact ends_pure.2 hg
  · exact ⟨0, rfl, rfl, hss.lt.le, dvd_zero _, fun _ => ⟨rfl, rfl⟩, hS.done⟩

/-- **Copying a range** below a table. -/
theorem pmapCopyLevel_done (l : ℕ) : Duplicates b N l (Traced.pmapCopyLevel b l) := by
  induction l with
  | zero => exact copyLoop_done nofun
  | succ m ih =>
    refine copyLoop_done fun m' hm => ?_
    obtain rfl : m = m' := by omega
    exact ih

/-! ## Whole calls -/

/-- **`pmap_remove`** sweeps its range. -/
theorem pmapRemove_swept (hS : Sound b G s) (hr : G.kind r = .root) (ha : Area va size) :
    Ends N (Traced.pmapRemove b r va size) (s, []) (fun _ x => Swept b r va (va + size) x.2)
      fun _ _ => False := by
  have hle := ha.le
  have hu := ha.user
  unfold Traced.pmapRemove
  refine ends_bind_lift_check (Nat.mod_eq_zero_of_dvd ha.size_dvd) (ends_bind_lift_check hu
    (ends_bind_lift_check hle ?_))
  -- the loop has one round
  refine ends_bind (ends_whileM (I := fun x y => (x = va ∧ y = (s, [])) ∨
    (va + size ≤ x ∧ Swept b r va (va + size) y.2)) (fun x => va + size - x) ?_ ?_ ?_ _ _ _ (by simp)
    (.inl ⟨rfl, rfl⟩))
  · intro x y _ hc
    simp only [decide_eq_true_eq] at hc
    omega
  · rintro x y (⟨rfl, rfl⟩ | ⟨hge, -⟩) hc <;> simp only [decide_eq_true_eq] at hc
    · have hsp : Span (G.kind r) 3 x (x + size) x (x + size) := by
        rw [hr]
        exact ha.span (by omega)
      have hend : Ends N (pmapRemoveLevel b 3 r x (x + size)) s (fun y _ => x + size ≤ y) fun _ _ => False :=
        (pmapRemoveLevel_ends (C := False) nofun 3 G s r x (x + size) hS (by rw [hr]; rfl) hsp nofun nofun).imp
          fun _ _ h => h.1
      refine (((erases_pmapRemoveLevel 3 r x (x + size)).ends hend).and (pmapRemoveLevel_sweeps 3 G s [] r r x
        (x + size) hS (.of_root hr hu) hsp (by omega))).mono ?_ fun _ _ h => h.1
      rintro y z ⟨hy, -, w', -, hz, hw⟩
      rw [List.nil_append] at hz
      refine ⟨.inr ⟨hy, ?_⟩, by omega⟩
      rw [hz]
      exact hw
    · omega
  · rintro x y (⟨rfl, rfl⟩ | ⟨-, hw⟩) hc
    · simp only [decide_eq_false_iff_not, not_lt] at hc
      obtain rfl : size = 0 := by omega
      exact ends_pure.2 swept_nil
    · exact ends_pure.2 hw

/-- **`pmap_setperm`** sweeps its range. -/
theorem pmapSetperm_swept {perm : BitVec 12} (hN : Note.ignored ∈ N) (hS : Sound b G s) (hr : G.kind r = .root)
    (ha : Area va size) (hp : perm &&& ~~~sysRW = 0) :
    Ends N (Traced.pmapSetperm b r va size perm) (s, []) (fun _ x => Swept b r va (va + size) x.2)
      fun _ _ => False := by
  have hle := ha.le
  have hu := ha.user
  unfold Traced.pmapSetperm
  refine ends_bind_lift_check (Nat.mod_eq_zero_of_dvd ha.va_dvd) (ends_bind_lift_check
    (Nat.mod_eq_zero_of_dvd ha.size_dvd) (ends_bind_lift_check hu (ends_bind_lift_check hle
    (ends_bind_lift_check hp ?_))))
  rcases Nat.eq_zero_or_pos size with rfl | hpos
  · have h3 : ∀ x y, Traced.pmapSetpermLevel b x y nptLvls =
        Traced.setpermLoop b (Traced.pmapSetpermLevel b x y 2) 3 x y := fun _ _ => rfl
    simp only [h3]
    unfold Traced.setpermLoop
    rw [Nat.add_zero, Nat.sub_self]
    unfold whileM
    rw [if_neg (by simp)]
    exact ends_bind (ends_pure.2 (ends_pure.2 swept_nil))
  · have hsp : Span (G.kind r) 3 va (va + size) va (va + size) := by
      rw [hr]
      exact ha.span hpos
    refine (pmapSetpermLevel_sweeps hN (permMasks_or perm) 3 G s [] r r va (va + size) hS (.of_root hr hu) hsp
      (by omega)).imp ?_
    rintro _ z ⟨-, w', -, hz, hw⟩
    rw [hz]
    exact hw

/-- **`pmap_copy`** copies its range, unless there is no page for a table. -/
theorem pmapCopy_done (hS : Sound b G s) (hsr : G.kind sr = .root) (hdr : G.kind dr = .root)
    (hreg : Region sva dva size) : Ends N (Traced.pmapCopy b sr sva dr dva size) (s, [])
      (fun _ x => Duplicated b sr sva dr dva size x.2)
      fun e x => e = .assert ∧ x.1.dry = true ∧ Copying b sr sva dr dva size x.2 := by
  have h₁ := hreg.src
  have h₂ := hreg.src_le
  have h₃ := hreg.dest
  have h₄ := hreg.dest_le
  have hlow : Ends N (Traced.pmapCopyLevel b nptLvls sr sva dr dva (sva + size)) (s, [])
      (fun _ x => Duplicated b sr sva dr dva size x.2)
      fun e x => e = .assert ∧ x.1.dry = true ∧ Copying b sr sva dr dva size x.2 := by
    rcases Nat.eq_zero_or_pos size with rfl | hpos
    · have h3 : Traced.pmapCopyLevel b nptLvls = Traced.copyLoop b (Traced.pmapCopyLevel b 2) 3 := rfl
      rw [h3]
      unfold Traced.copyLoop
      rw [Nat.add_zero, Nat.sub_self]
      unfold whileM
      rw [if_neg (by simp)]
      exact ends_bind (ends_pure.2 (ends_pure.2 duplicated_nil))
    · have hsub : sva + size - sva = size := by omega
      have hss : Span (G.kind sr) 3 sva (sva + size) sva (sva + size) := by
        rw [hsr]
        exact hreg.source.span hpos
      have hsd : Span (G.kind dr) 3 dva (dva + size) dva (dva + size) := by
        rw [hdr]
        exact hreg.dest_area.span hpos
      have h := pmapCopyLevel_done (N := N) 3 G s [] sr dr sr dr sva dva (sva + size) hS (.of_root hsr h₁)
        (.of_root hdr h₃) hss (by rw [hsub]; exact hsd) (by omega) (by omega)
      rw [hsub] at h
      refine h.mono ?_ ?_
      · rintro _ z ⟨-, w', -, hz, hw⟩
        rw [hz]
        exact hw
      · rintro e z ⟨he, hdry, w', hz, hw⟩
        rw [hz]
        exact ⟨he, hdry, hw⟩
  unfold Traced.pmapCopy
  exact ends_bind_lift (ends_regionAsserts hreg hlow)

end

/-! ## The calls of the kernel -/

/-- A call that goes over a range. -/
inductive RangeCall
  | remove (r : Frame) (va size : ℕ)
  | copy (sr : Frame) (sva : ℕ) (dr : Frame) (dva size : ℕ)
  | setperm (r : Frame) (va size : ℕ) (perm : BitVec 12)

namespace RangeCall

/-- As one of the calls of `pmap.h`. -/
def call : RangeCall → PmapCall
  | remove r va size => .remove r va size
  | copy sr sva dr dva size => .copy sr sva dr dva size
  | setperm r va size perm => .setperm r va size perm

/-- The function. -/
def run (b : Boot) : RangeCall → Kern Unit
  | remove r va size => pmapRemove b r va size
  | copy sr sva dr dva size => pmapCopy b sr sva dr dva size
  | setperm r va size perm => pmapSetperm b r va size perm

/-- The function with the record of its iterations. -/
def traced (b : Boot) : RangeCall → Traced Unit
  | remove r va size => Traced.pmapRemove b r va size
  | copy sr sva dr dva size => Traced.pmapCopy b sr sva dr dva size
  | setperm r va size perm => Traced.pmapSetperm b r va size perm

/-- The iterations. -/
def visits (b : Boot) (c : RangeCall) (s : Mem) : List Visit := (c.traced b (s, [])).state.2

/-- Whether there is a range to copy from. -/
def copying : RangeCall → Bool
  | copy .. => true
  | _ => false

/-- The page map that is changed, and the range. -/
def dest : RangeCall → Frame × ℕ × ℕ
  | remove r va size => (r, va, size)
  | copy _ _ dr dva size => (dr, dva, size)
  | setperm r va size _ => (r, va, size)

/-- The page map that is copied from, and where. -/
def source : RangeCall → Option (Frame × ℕ)
  | copy sr sva _ _ _ => some (sr, sva)
  | _ => none

/-- What the call does to the memory is what the function does. -/
theorem exec_call (c : RangeCall) : c.call.exec b = onMem (c.run b) := by
  cases c <;> rfl

theorem erases (c : RangeCall) : Erases (c.traced b) (c.run b) := by
  cases c with
  | remove r va size => exact erases_pmapRemove r va size
  | copy sr sva dr dva size => exact erases_pmapCopy sr sva dr dva size
  | setperm r va size perm => exact erases_pmapSetperm r va size perm

/-- The call stays in the tables of its page maps and goes over its range once. -/
structure Orderly (b : Boot) (c : RangeCall) (s : Mem) : Prop where
  /-- The recorded run is that of the function. -/
  same : (c.traced b (s, [])).val = (c.run b s).val ∧ (c.traced b (s, [])).state.1 = (c.run b s).state ∧
    (c.traced b (s, [])).notes = (c.run b s).notes
  fits : ∀ v ∈ c.visits b s, v.Fits b c.dest.1 c.dest.2.1 (c.dest.2.1 + c.dest.2.2)
  source : ∀ v ∈ c.visits b s, ∀ x, v.source = some x → ∃ sr sva, c.source = some (sr, sva) ∧
    x.Fits b v.mem sr sva (sva + c.dest.2.2) v.level v.size ∧ x.va + c.dest.2.1 = v.entry.va + sva
  /-- It returns, but for the assertion in a copy that there is a table. -/
  ends : (c.run b s).val = .ok () ∨
    c.copying = true ∧ (c.run b s).val = .error .assert ∧ (c.run b s).state.dry = true
  once : (c.run b s).val = .ok () → ∀ a, times c.copying a (c.visits b s) =
    if c.dest.2.1 ≤ a ∧ a < c.dest.2.1 + c.dest.2.2 then 1 else 0
  /-- The removals in a copy go once over the bytes they are called for. -/
  cleared : (c.run b s).val = .ok () → c.copying = true → ∀ a, times false a (c.visits b s) =
    (c.visits b s).countP fun v => v.clears ∧ v.At a

/-- A call that only sweeps its range. -/
theorem orderly_of_swept {c : RangeCall} (hs : c.copying = false)
    (hn : ∀ n ∈ c.call.defects, n ∉ (c.run b s).notes)
    (h : Ends {n | n ∈ c.call.defects} (c.traced b) (s, [])
      (fun _ x => Swept b c.dest.1 c.dest.2.1 (c.dest.2.1 + c.dest.2.2) x.2) fun _ _ => False) : c.Orderly b s := by
  have hn' : ∀ n ∈ (c.run b s).notes, n ∉ {n | n ∈ c.call.defects} := fun n hr hd => hn n hd hr
  have hval : (c.run b s).val = .ok () := by
    cases hv : (c.run b s).val with
    | ok u => rfl
    | error e => exact (c.erases.of_error h hn' hv).elim
  have hw : Swept b c.dest.1 c.dest.2.1 (c.dest.2.1 + c.dest.2.2) (c.visits b s) := c.erases.of_ok h hn' hval
  refine ⟨c.erases.same s [], hw.fits, fun v hv x hx => ?_, .inl hval, fun _ a => ?_, fun _ hc => ?_⟩
  · rw [(hw.plain v hv).1] at hx
    cases hx
  · rw [hs, hw.once]
  · rw [hs] at hc
    cases hc

/-- A copy. -/
theorem orderly_copy {G : Ghost} (hS : Sound b G s) (hsr : G.kind sr = .root) (hdr : G.kind dr = .root)
    (hreg : Region sva dva size) : (copy sr sva dr dva size).Orderly b s := by
  have he := (copy sr sva dr dva size).erases (b := b)
  have h := pmapCopy_done (N := ∅) hS hsr hdr hreg
  have hn : ∀ n ∈ ((copy sr sva dr dva size).run b s).notes, n ∉ (∅ : Set Note) := fun _ _ => id
  have hdup : ∀ {u}, ((copy sr sva dr dva size).run b s).val = .ok u →
      Duplicated b sr sva dr dva size ((copy sr sva dr dva size).visits b s) := fun hv => he.of_ok h hn hv
  have hends : Copying b sr sva dr dva size ((copy sr sva dr dva size).visits b s) ∧
      (((copy sr sva dr dva size).run b s).val = .ok () ∨
        ((copy sr sva dr dva size).run b s).val = .error .assert ∧
          ((copy sr sva dr dva size).run b s).state.dry = true) := by
    cases hv : ((copy sr sva dr dva size).run b s).val with
    | ok u => exact ⟨(hdup hv).toCopying, .inl rfl⟩
    | error e =>
      obtain ⟨rfl, hdry, hw⟩ := he.of_error h hn hv
      rw [(he.same s []).2.1] at hdry
      exact ⟨hw, .inr ⟨rfl, hdry⟩⟩
  refine ⟨he.same s [], hends.1.fits, fun v hv x hx => ?_, hends.2.imp id fun h => ⟨rfl, h⟩,
    fun hv => (hdup hv).once, fun hv _ => (hdup hv).cleared⟩
  exact ⟨sr, sva, rfl, hends.1.source v hv x hx⟩

end RangeCall

theorem Maps.Inv.orderly {G : Ghost} {c : RangeCall} (h : Maps.Inv b s₀ σ G) (hc : c.call.Allowed σ)
    (hn : ∀ n ∈ c.call.defects, n ∉ (c.run b σ.mem).notes) : c.Orderly b σ.mem := by
  cases c with
  | remove r va size =>
    exact RangeCall.orderly_of_swept rfl hn (pmapRemove_swept h.toSound (h.is_root hc.1) hc.2)
  | copy sr sva dr dva size =>
    exact RangeCall.orderly_copy h.toSound (h.is_root hc.1) (h.is_root hc.2.1) hc.2.2
  | setperm r va size perm =>
    exact RangeCall.orderly_of_swept rfl hn
      (pmapSetperm_swept (List.mem_singleton_self _) h.toSound (h.is_root hc.1) hc.2.1 hc.2.2)

/-- **Ranges**: in every state that the kernel comes to without a defect, a call that does not come by one of its
own stays in the tables of its page maps and goes over its range once. -/
theorem range_orderly (hb : Booted b s₀) (h : Reach b (fun _ => True) defects s₀ σ) {c : RangeCall}
    (hc : c.call.Allowed σ) (hn : ∀ n ∈ c.call.defects, n ∉ (c.call.exec b σ).notes) : c.Orderly b σ.mem := by
  obtain ⟨G, hG⟩ := h.inv hb fun c _ => c.defects_subset
  rw [c.exec_call] at hn
  exact hG.orderly hc hn

/-- A page in a range without page tables gets its permissions. -/
theorem range_orderly_sample : ∃ σ, Reach sampleBoot (fun _ => True) defects (freshMem samplePages) σ ∧
    (RangeCall.setperm 0x1000 0x401ff000 0x2000 sysRW).Orderly sampleBoot σ.mem := by
  obtain ⟨σ, hσ, hP⟩ := exists_reach sampleBoot (fun _ => True) defects (freshMem samplePages) [.newpmap]
    (fun σ => decide ((RangeCall.setperm 0x1000 0x401ff000 0x2000 sysRW).call.Allowed σ ∧
      ∀ n ∈ (RangeCall.setperm 0x1000 0x401ff000 0x2000 sysRW).call.defects,
        n ∉ ((RangeCall.setperm 0x1000 0x401ff000 0x2000 sysRW).call.exec sampleBoot σ).notes))
    (fun _ _ => trivial) (by decide +kernel)
  obtain ⟨hc, hn⟩ := of_decide_eq_true hP
  exact ⟨σ, hσ, range_orderly sample_booted hσ hc hn⟩

/-- There are no pages left, and permissions are set for a page without a page table: the zero page is taken for
a page directory. -/
theorem range_zero : ∃ σ, Reach sampleBoot (fun _ => True) defects (freshMem samplePages) σ ∧ σ.mem.dry = false ∧
    ∃ c : RangeCall, c.call.Allowed σ ∧ ¬c.Orderly sampleBoot σ.mem := by
  obtain ⟨σ, hσ, hP⟩ := exists_reach sampleBoot (fun _ => True) defects (freshMem samplePages)
    (.newpmap :: List.replicate 15 .alloc)
    (fun σ => decide (σ.mem.dry = false ∧ (RangeCall.setperm 0x1000 0x40001000 4096 sysRW).call.Allowed σ ∧
      ∃ v ∈ (RangeCall.setperm 0x1000 0x40001000 4096 sysRW).visits sampleBoot σ.mem,
        tableAt sampleBoot v.mem v.entry.va nptLvls 0x1000 v.level ≠ some v.entry.table))
    (fun _ _ => trivial) (by decide +kernel)
  obtain ⟨hd, hc, v, hv, hne⟩ := of_decide_eq_true hP
  exact ⟨σ, hσ, hd, _, hc, fun h => hne (h.fits v hv).entry.table⟩

end Determinator
