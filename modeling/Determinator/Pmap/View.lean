import Determinator.Pmap.Frees

/-!
# What a page map says of an address

`viewAt` is what is found for an address from a table on: the entry of the page table, the contents
of the page, and whether the entries on the way all allow writing and are present. The writeable bit
of the last entry is not part of it, since copying clears it; `Keeps` says that nothing but these
bits has changed, and that no address has become writeable.

`Acts l T R` is what an operation on the level-`l` table `T` may do: it leaves the tables above alone,
the view of every other table of the level is kept, and that of `T` changes as `R` says. An operation
on a table that one entry points to is an operation on the table with that entry (`Acts.lift`).
-/

namespace Determinator

open PanicM

variable {b : Boot} {G G' G₁ G₂ : Ghost} {s s' s₁ s₂ : Mem} {f g t u T : Frame} {i l m va : ℕ}

/-! ## Views -/

/-- What is found for an address. -/
structure View where
  /-- The entry of the page table, without `PTE_W`. -/
  leaf : Pte
  page : Page
  /-- All entries on the way are writeable. -/
  wr : Bool
  /-- The entries for tables are all present. -/
  up : Bool

namespace View

/-- The view through an entry for a table. -/
def under (e : Pte) (v : View) : View := ⟨v.leaf, v.page, e.isW && v.wr, e.isP && v.up⟩

/-- Leaf and page are the same, no address becomes writeable and no table goes away. -/
structure Keeps (v v' : View) : Prop where
  leaf : v'.leaf = v.leaf
  page : v'.page = v.page
  wr : v'.wr = true → v.wr = true
  up : v.up = true → v'.up = true

theorem Keeps.refl (v : View) : Keeps v v := ⟨rfl, rfl, id, id⟩

theorem Keeps.trans {v₁ v₂ v₃ : View} (h : Keeps v₁ v₂) (h' : Keeps v₂ v₃) : Keeps v₁ v₃ :=
  ⟨h'.leaf.trans h.leaf, h'.page.trans h.page, fun e => h.wr (h'.wr e), fun e => h'.up (h.up e)⟩

theorem Keeps.under {v v' : View} {e e' : Pte} (h : Keeps v v') (hw : e'.isW = true → e.isW = true)
    (hp : e.isP = true → e'.isP = true) : Keeps (v.under e) (v'.under e') := by
  refine ⟨h.leaf, h.page, fun hv => ?_, fun hv => ?_⟩
  · simp only [View.under, Bool.and_eq_true] at hv ⊢
    exact ⟨hw hv.1, h.wr hv.2⟩
  · simp only [View.under, Bool.and_eq_true] at hv ⊢
    exact ⟨hp hv.1, h.up hv.2⟩

theorem under_self {v : View} {e : Pte} (hw : e.isW = true) (hp : e.isP = true) : v.under e = v := by
  simp [View.under, hw, hp]

end View

/-- What is found for `va` from a level-`l` table on. -/
def viewAt (b : Boot) (s : Mem) (va : ℕ) : ℕ → Frame → View
  | 0, t =>
    let e := s.entry t (pdx 0 va)
    ⟨e.clearW, s.page e.frame, e.isW, true⟩
  | l + 1, t =>
    let e := s.entry t (pdx (l + 1) va)
    if e.frame = b.zero then ⟨pteZero b, s.page b.zero, false, false⟩
    else (viewAt b s va l e.frame).under e

theorem viewAt_none (h : (s.entry t (pdx (l + 1) va)).frame = b.zero) :
    viewAt b s va (l + 1) t = ⟨pteZero b, s.page b.zero, false, false⟩ := by
  rw [viewAt]
  exact if_pos h

theorem viewAt_some (h : (s.entry t (pdx (l + 1) va)).frame ≠ b.zero) :
    viewAt b s va (l + 1) t = (viewAt b s va l (s.entry t (pdx (l + 1) va)).frame).under
      (s.entry t (pdx (l + 1) va)) := by
  rw [viewAt]
  exact if_neg h

/-- The addresses that a table is for. -/
def Kind.maps : Kind → ℕ → Prop
  | .table _, _ => True
  | .low, va => 0 < pdx 2 va
  | .root, va => vmUserLo ≤ va ∧ va < vmUserHi
  | _, _ => False

theorem Kind.maps_user {k : Kind} (hl : k.level = some l) (h : k.maps va) :
    k.user (pdx l va) = true := by
  have hlt := pdx_lt l va
  cases k with
  | table m => simpa [Kind.user] using hlt
  | low =>
    obtain rfl : 2 = l := Option.some.inj hl
    simp only [Kind.user, Bool.and_eq_true, decide_eq_true_eq]
    exact ⟨h, hlt⟩
  | root =>
    obtain rfl : 3 = l := Option.some.inj hl
    have h₂ : va < vmUserHi := h.2
    have hi : pdx 3 va < 256 := by
      unfold pdx pdSize
      unfold vmUserHi at h₂
      omega
    simpa [Kind.user] using hi
  | _ => simp [Kind.level] at hl

theorem Kind.maps_kid {k : Kind} (hl : k.level = some (l + 1)) (h : k.maps va) :
    (k.kid (pdx (l + 1) va)).maps va := by
  cases k with
  | table m =>
    obtain rfl : m = l + 1 := Option.some.inj hl
    trivial
  | low =>
    obtain rfl : l = 1 := by simpa [Kind.level] using hl
    trivial
  | root =>
    obtain rfl : l = 2 := by simpa [Kind.level] using hl
    have h₁ : vmUserLo ≤ va := h.1
    have h₂ : va < vmUserHi := h.2
    simp only [Kind.kid]
    split
    · rename_i h0
      change 0 < pdx 2 va
      unfold pdx pdSize at h0 ⊢
      unfold vmUserLo at h₁
      unfold vmUserHi at h₂
      omega
    · trivial
  | _ => simp [Kind.level] at hl

theorem Kind.level_of_kid {k : Kind} (hu : k.user i = true) (h : (k.kid i).level = some l) :
    k.level = some (l + 1) := by
  cases k with
  | table m => cases m <;> simp_all [Kind.kid, Kind.level]
  | low =>
    obtain rfl : 1 = l := Option.some.inj h
    rfl
  | root =>
    simp only [Kind.kid] at h
    split at h
    · obtain rfl : 2 = l := Option.some.inj h
      rfl
    · obtain rfl : 2 = l := Option.some.inj h
      rfl
  | _ => simp [Kind.user] at hu

/-! ## Sound states -/

/-- All entries count. -/
structure Whole (b : Boot) (G : Ghost) (s : Mem) : Prop extends Good b G s where
  off : G.off = none

/-- The invariant between operations. -/
structure Sound (b : Boot) (G : Ghost) (s : Mem) : Prop extends Whole b G s, Cow b G s

namespace Whole

theorem slot_maps (h : Whole b G s) (hl : (G.kind t).level = some l) (hm : (G.kind t).maps va)
    (hz : (s.entry t (pdx l va)).frame ≠ b.zero) :
    slot b G s t (pdx l va) = some (s.entry t (pdx l va)).frame :=
  slot_of_user (Kind.maps_user hl hm) (by rw [h.off]; nofun) hz

end Whole

/-- The table an entry leads to. -/
theorem kid_of_slot (h : Good b G s) (hl : (G.kind t).level = some (l + 1))
    (hm : (G.kind t).maps va) (hs : slot b G s t (pdx (l + 1) va) = some u) :
    (G.kind u).level = some l ∧ (G.kind u).maps va := by
  rw [h.typed hs]
  exact ⟨Kind.kid_level hl _, Kind.maps_kid hl hm⟩

/-- The page an entry of a page table leads to. -/
theorem data_of_slot (h : Good b G s) (hl : (G.kind t).level = some 0)
    (hs : slot b G s t i = some u) : G.kind u = .data := by
  rw [h.typed hs]
  exact Kind.kid_data hl i

/-- Views are kept if they are at each table, given that they are at the tables below. -/
theorem keeps_of_tables (hS : Whole b G s) (h0 : s'.page b.zero = s.page b.zero)
    (hleaf : ∀ g va, (G.kind g).level = some 0 → (G.kind g).maps va →
      View.Keeps (viewAt b s va 0 g) (viewAt b s' va 0 g))
    (hstep : ∀ l g va, (G.kind g).level = some (l + 1) → (G.kind g).maps va →
      (∀ u va, (G.kind u).level = some l → (G.kind u).maps va →
        View.Keeps (viewAt b s va l u) (viewAt b s' va l u)) →
      ((s'.entry g (pdx (l + 1) va)).frame = (s.entry g (pdx (l + 1) va)).frame ∧
        ((s'.entry g (pdx (l + 1) va)).isW = true → (s.entry g (pdx (l + 1) va)).isW = true) ∧
        ((s.entry g (pdx (l + 1) va)).isP = true → (s'.entry g (pdx (l + 1) va)).isP = true)) ∨
      View.Keeps (viewAt b s va (l + 1) g) (viewAt b s' va (l + 1) g)) :
    ∀ l g va, (G.kind g).level = some l → (G.kind g).maps va →
      View.Keeps (viewAt b s va l g) (viewAt b s' va l g) := by
  intro l
  induction l with
  | zero => exact hleaf
  | succ l ih =>
    intro g va hl hm
    rcases hstep l g va hl hm ih with ⟨hf, hw, hp⟩ | h
    · by_cases hz : (s.entry g (pdx (l + 1) va)).frame = b.zero
      · rw [viewAt_none hz, viewAt_none (hf.trans hz), h0]
        exact View.Keeps.refl _
      · obtain ⟨hl', hm'⟩ := kid_of_slot hS.toGood hl hm (hS.slot_maps hl hm hz)
        rw [viewAt_some hz, viewAt_some (by rw [hf]; exact hz), hf]
        exact (ih _ va hl' hm').under hw hp
    · exact h

/-- A change is not seen from a table through an entry that is the same, if it is not seen below. -/
theorem viewAt_entry (hz : s'.page b.zero = s.page b.zero)
    (he : s'.entry g (pdx l va) = s.entry g (pdx l va))
    (h0 : l = 0 → (s.entry g (pdx 0 va)).frame ≠ b.zero →
      s'.page (s.entry g (pdx 0 va)).frame = s.page (s.entry g (pdx 0 va)).frame)
    (hs : ∀ m, l = m + 1 → (s.entry g (pdx l va)).frame ≠ b.zero →
      viewAt b s' va m (s.entry g (pdx l va)).frame = viewAt b s va m (s.entry g (pdx l va)).frame) :
    viewAt b s' va l g = viewAt b s va l g := by
  cases l with
  | zero =>
    have hpage : s'.page (s.entry g (pdx 0 va)).frame = s.page (s.entry g (pdx 0 va)).frame := by
      by_cases hzf : (s.entry g (pdx 0 va)).frame = b.zero
      · rw [hzf, hz]
      · exact h0 rfl hzf
    simp only [viewAt, he, hpage]
  | succ m =>
    by_cases hzf : (s.entry g (pdx (m + 1) va)).frame = b.zero
    · rw [viewAt_none hzf, viewAt_none (by rw [he]; exact hzf), hz]
    · rw [viewAt_some hzf, viewAt_some (by rw [he]; exact hzf), he, hs m rfl hzf]

/-- A change is not seen from a set of tables that leads only to itself, if it changes neither the
tables nor the pages they lead to. -/
theorem viewAt_congr (hS : Whole b G s) (A : Frame → Prop) (hz : s'.page b.zero = s.page b.zero)
    (hp : ∀ u m, A u → (G.kind u).level = some m → s'.page u = s.page u)
    (hd : ∀ u j f, A u → slot b G s u j = some f → G.kind f = .data → s'.page f = s.page f)
    (hA : ∀ u j f, A u → slot b G s u j = some f → G.kind f ≠ .data → A f)
    (hm : (G.kind g).level = some m) (hmap : (G.kind g).maps va) (hg : A g) :
    viewAt b s' va m g = viewAt b s va m g := by
  induction m generalizing g with
  | zero =>
    refine viewAt_entry hz (entry_congr (pdx_lt 0 va) (hp g 0 hg hm)) (fun _ hzf => ?_) nofun
    have hs := hS.slot_maps hm hmap hzf
    exact hd g _ _ hg hs (data_of_slot hS.toGood hm hs)
  | succ m ih =>
    refine viewAt_entry hz (entry_congr (pdx_lt _ va) (hp g _ hg hm)) nofun fun m' hm' hzf => ?_
    obtain rfl : m = m' := by omega
    have hs := hS.slot_maps hm hmap hzf
    obtain ⟨hl', hmap'⟩ := kid_of_slot hS.toGood hm hmap hs
    exact ih hl' hmap' (hA g _ _ hg hs (by intro e; rw [e] at hl'; cases hl'))

/-- Tables below the level of `T`, and the others of its level, do not see a change to `T` and to the
pages that are in no other table. -/
theorem viewAt_eq (hS : Whole b G s) (hT : (G.kind T).level = some l)
    (hz : s'.page b.zero = s.page b.zero)
    (hp : ∀ u m, u ≠ T → (G.kind u).level = some m → s'.page u = s.page u)
    (hd : ∀ u j f, u ≠ T → slot b G s u j = some f → G.kind f = .data → s'.page f = s.page f)
    (hm : (G.kind g).level = some m) (hmap : (G.kind g).maps va) (hlt : m < l ∨ g ≠ T ∧ m = l) :
    viewAt b s' va m g = viewAt b s va m g := by
  have hne : ∀ {g}, (∃ m, (G.kind g).level = some m ∧ (m < l ∨ g ≠ T ∧ m = l)) → g ≠ T := by
    rintro g ⟨m, hm, h | h⟩
    · rintro rfl
      rw [hm] at hT
      have := Option.some.inj hT
      omega
    · exact h.1
  refine viewAt_congr hS (fun g => ∃ m, (G.kind g).level = some m ∧ (m < l ∨ g ≠ T ∧ m = l)) hz
    (fun u m hu => hp u m (hne hu)) (fun u j f hu => hd u j f (hne hu)) ?_ hm hmap ⟨m, hm, hlt⟩
  rintro u j f ⟨m, hu, hlt⟩ hs hf
  have huser := (slot_eq_some.1 hs).1
  have hk := hS.typed hs
  cases m with
  | zero => exact absurd (hk.trans (Kind.kid_data hu j)) hf
  | succ m => exact ⟨m, by rw [hk]; exact Kind.kid_level hu j, .inl (by omega)⟩

/-! ## Operations on a table -/

/-- What an operation on a level-`l` table leaves alone: the kinds of the tables from its level on,
the contents of the tables above it, and the zero page. -/
structure Base (b : Boot) (l : ℕ) (G : Ghost) (s : Mem) (G' : Ghost) (s' : Mem) : Prop where
  kind : ∀ g m, (G.kind g).level = some m → l ≤ m → G'.kind g = G.kind g
  kind_new : ∀ g m, (G'.kind g).level = some m → l ≤ m → G.kind g = G'.kind g
  zero : s'.page b.zero = s.page b.zero
  page : ∀ g m, (G.kind g).level = some m → l < m → s'.page g = s.page g

namespace Base

theorem refl (l : ℕ) (G : Ghost) (s : Mem) : Base b l G s G s :=
  ⟨fun _ _ _ _ => rfl, fun _ _ _ _ => rfl, rfl, fun _ _ _ _ => rfl⟩

theorem trans (h : Base b l G s G₁ s₁) (h' : Base b l G₁ s₁ G₂ s₂) : Base b l G s G₂ s₂ where
  kind g m hg hm := by
    have h₁ := h.kind g m hg hm
    rw [h'.kind g m (by rw [h₁]; exact hg) hm, h₁]
  kind_new g m hg hm := by
    have h₁ := h'.kind_new g m hg hm
    rw [h.kind_new g m (by rw [h₁]; exact hg) hm, h₁]
  zero := h'.zero.trans h.zero
  page g m hg hm := by
    have h₁ := h.kind g m hg hm.le
    rw [h'.page g m (by rw [h₁]; exact hg) hm, h.page g m hg hm]

theorem mono (h : Base b l G s G' s') (hl : l ≤ m) : Base b m G s G' s' where
  kind g n hg hn := h.kind g n hg (hl.trans hn)
  kind_new g n hg hn := h.kind_new g n hg (hl.trans hn)
  zero := h.zero
  page g n hg hn := h.page g n hg (by omega)

theorem root (h : Base b l G s G' s') (hl : l ≤ 3) : G'.kind g = .root ↔ G.kind g = .root := by
  constructor
  · intro e
    rw [h.kind_new g 3 (by rw [e]; rfl) hl, e]
  · intro e
    rw [h.kind g 3 (by rw [e]; rfl) hl, e]

/-- What is reached through tables above is still reached. -/
theorem wreach (h : Base b l G s G' s') (hl : l ≤ 3) (hg : Good b G s) (ho : G'.off = none)
    (hw : WReach b G s t) : (G.kind t).level = some m → l ≤ m → WReach b G' s' t := by
  induction hw generalizing m with
  | root hr =>
    intro _ _
    exact .root ((h.root hl).2 hr)
  | @step t f i _ hs hW ih =>
    intro hf hm
    have hu := (slot_eq_some.1 hs).1
    have hlt : (G.kind t).level = some (m + 1) := by
      refine Kind.level_of_kid hu ?_
      rw [← hg.typed hs]
      exact hf
    have hp := h.page t (m + 1) hlt (by omega)
    have he : s'.entry t i = s.entry t i := entry_congr (slot_lt hs) hp
    refine .step (ih hlt (by omega)) ?_ (by rw [he]; exact hW)
    rw [slot_eq_some, he, h.kind t (m + 1) hlt (by omega)]
    obtain ⟨h₁, -, h₃, h₄⟩ := slot_eq_some.1 hs
    exact ⟨h₁, by rw [ho]; nofun, h₃, h₄⟩

end Base

/-- What an operation on the level-`l` table `T` does to the views of this level. -/
structure Acts (b : Boot) (l : ℕ) (T : Frame) (R : ℕ → View → View → Prop) (G : Ghost) (s : Mem)
    (G' : Ghost) (s' : Mem) : Prop extends Base b l G s G' s' where
  other : ∀ g va, (G.kind g).level = some l → g ≠ T → (G.kind g).maps va →
    View.Keeps (viewAt b s va l g) (viewAt b s' va l g)
  self : ∀ va, (G.kind T).maps va → R va (viewAt b s va l T) (viewAt b s' va l T)

namespace Acts

variable {R R' R'' : ℕ → View → View → Prop}

theorem mono (h : Acts b l T R G s G' s')
    (hR : ∀ va v v', (G.kind T).maps va → R va v v' → R' va v v') : Acts b l T R' G s G' s' :=
  { h with self := fun va hm => hR va _ _ hm (h.self va hm) }

/-- Any change of the table itself. -/
theorem any (h : Acts b l T R G s G' s') : Acts b l T (fun _ _ _ => True) G s G' s' :=
  h.mono fun _ _ _ _ _ => trivial

theorem trans (h : Acts b l T R G s G₁ s₁) (h' : Acts b l T R' G₁ s₁ G₂ s₂)
    (hT : (G.kind T).level = some l)
    (hR : ∀ va v v₁ v₂, (G.kind T).maps va → R va v v₁ → R' va v₁ v₂ → R'' va v v₂) :
    Acts b l T R'' G s G₂ s₂ where
  toBase := h.toBase.trans h'.toBase
  other g va hg hne hm := by
    have hk := h.kind g l hg le_rfl
    have h₂ := h'.other g va (by rw [hk]; exact hg) hne (by rw [hk]; exact hm)
    exact (h.other g va hg hne hm).trans h₂
  self va hm := by
    have hk := h.kind T l hT le_rfl
    exact hR va _ _ _ hm (h.self va hm) (h'.self va (by rw [hk]; exact hm))

/-- An operation on a table that one entry leads to is an operation on the table above. -/
theorem lift (h : Acts b l t R G s G' s') (hS : Whole b G s) (hT : (G.kind T).level = some (l + 1))
    (hs : slot b G s T i = some t) (hr : s.refcount t = 1)
    (hR : ∀ va v v', (G.kind T).maps va → pdx (l + 1) va = i → R va v v' →
      R' va (v.under (s.entry T i)) (v'.under (s.entry T i)))
    (hK : ∀ va v v', pdx (l + 1) va ≠ i → View.Keeps v v' → R' va v v') :
    Acts b (l + 1) T R' G s G' s' := by
  -- the view of a table above through an entry that leads elsewhere
  have key : ∀ g va, (G.kind g).level = some (l + 1) → (G.kind g).maps va →
      (g ≠ T ∨ pdx (l + 1) va ≠ i) →
      View.Keeps (viewAt b s va (l + 1) g) (viewAt b s' va (l + 1) g) := by
    intro g va hg hm hne
    have he : s'.entry g (pdx (l + 1) va) = s.entry g (pdx (l + 1) va) :=
      entry_congr (pdx_lt _ _) (h.page g (l + 1) hg (by omega))
    by_cases hz : (s.entry g (pdx (l + 1) va)).frame = b.zero
    · rw [viewAt_none hz, viewAt_none (by rw [he]; exact hz), h.zero]
      exact View.Keeps.refl _
    · have hslot := hS.slot_maps hg hm hz
      obtain ⟨hl', hm'⟩ := kid_of_slot hS.toGood hg hm hslot
      rw [viewAt_some hz, viewAt_some (by rw [he]; exact hz), he]
      refine (h.other _ va hl' (fun e => ?_) hm').under id id
      rw [e] at hslot
      obtain ⟨h₁, h₂⟩ := hS.single_slot hr hslot hs
      exact hne.elim (fun hn => hn h₁) fun hn => hn h₂
  refine ⟨h.toBase.mono (by omega), fun g va hg hne hm => key g va hg hm (.inl hne), fun va hm => ?_⟩
  by_cases hi : pdx (l + 1) va = i
  · obtain ⟨-, -, hz, hf⟩ := slot_eq_some.1 hs
    have he : s'.entry T i = s.entry T i :=
      entry_congr (slot_lt hs) (h.page T (l + 1) hT (by omega))
    rw [← hi] at hz hf he hs
    rw [viewAt_some hz, viewAt_some (by rw [he]; exact hz), he, hf]
    obtain ⟨-, hm'⟩ := kid_of_slot hS.toGood hT hm hs
    have := hR va _ _ hm hi (h.self va hm')
    rwa [← hi] at this
  · exact hK va _ _ hi (key T va hT hm (.inr hi))

end Acts

/-! ## Ranges -/

/-- In the part of the address space that a level-`l` table with `va` in it is for, `C` describes what
happens from `lo` up to `hi`, and the rest is kept. -/
def Ranged (l va lo hi : ℕ) (C : ℕ → View → View → Prop) (va' : ℕ) (v v' : View) : Prop :=
  va' / pdSize (l + 1) = va / pdSize (l + 1) →
    if lo ≤ va' ∧ va' < hi then C va' v v' else View.Keeps v v'

/-- A change that does not depend on the bits that copying changes. -/
structure Stable (C : ℕ → View → View → Prop) : Prop where
  pre : ∀ {va u v w}, View.Keeps u v → C va v w → C va u w
  post : ∀ {va u v w}, C va u v → View.Keeps v w → C va u w

theorem Ranged.comp {C : ℕ → View → View → Prop} (hC : Stable C) {lo mid hi va' : ℕ} {u v w : View}
    (h₁ : lo ≤ mid) (h₂ : mid ≤ hi) (h : Ranged l va lo mid C va' u v)
    (h' : Ranged l va mid hi C va' v w) : Ranged l va lo hi C va' u w := by
  intro hw
  have h := h hw
  have h' := h' hw
  by_cases hlo : lo ≤ va' ∧ va' < mid
  · rw [if_pos hlo] at h
    rw [if_neg (by omega)] at h'
    rw [if_pos (by omega)]
    exact hC.post h h'
  · rw [if_neg hlo] at h
    by_cases hhi : mid ≤ va' ∧ va' < hi
    · rw [if_pos hhi] at h'
      rw [if_pos (by omega)]
      exact hC.pre h h'
    · rw [if_neg hhi] at h'
      rw [if_neg (by omega)]
      exact h.trans h'

end Determinator
