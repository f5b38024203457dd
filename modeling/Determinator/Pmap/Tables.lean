import Determinator.Pmap.View

/-!
# Moves on tables

The four things `pmap_walk_level` does to a table: it sets flags of an entry, makes an empty lower
table, takes a lower table that has one reference for its own, and copies a lower table that has more.
Each keeps the invariant and all views.
-/

namespace Determinator

open PanicM

variable {b : Boot} {G G' : Ghost} {s s' : Mem} {f g t u pi low : Frame} {i j l m va : ℕ} {e : Pte}

/-! ## Copy on write -/

/-- What is writeable afterwards was so before, or leads to a page that has one reference and leads
nowhere itself. -/
theorem Good.cow (hg : Good b G' s')
    (root : ∀ r, G'.kind r = .root → G.kind r = .root)
    (slots : ∀ t i f, slot b G' s' t i = some f → (s'.entry t i).isW = true →
      (slot b G s t i = some f ∧ (s.entry t i).isW = true) ∨
      (s'.refcount f = 1 ∧ ∀ j f', slot b G' s' f j = some f' → (s'.entry f j).isW = false))
    (refs : ∀ f, WReach b G s f → (G'.kind f).Used → G'.kind f ≠ .root → s'.refcount f ≤ 1)
    (entries : ∀ t i, (G'.kind t).user i = true → (s'.entry t i).isW = true →
      (s'.entry t i).frame ≠ b.zero ∧
        ∀ l, (G'.kind t).level = some (l + 1) → (s'.entry t i).Open) : Cow b G' s' := by
  have hreach : ∀ f, WReach b G' s' f → WReach b G s f ∨
      (s'.refcount f = 1 ∧ ∀ j f', slot b G' s' f j = some f' → (s'.entry f j).isW = false) := by
    intro f hf
    induction hf with
    | root hr => exact .inl (.root (root _ hr))
    | step _ hs hW ih =>
      rcases slots _ _ _ hs hW with ⟨hs', hW'⟩ | hclean
      · rcases ih with ht | ⟨-, hno⟩
        · exact .inl (.step ht hs' hW')
        · rw [hno _ _ hs] at hW
          cases hW
      · exact .inr hclean
  refine ⟨fun f hf hr => ?_, fun t i hu hW => (entries t i hu hW).1, fun t i hu hW => (entries t i hu hW).2⟩
  rcases hreach f hf with h₁ | h₁
  · have hu := hf.used hg.toCounted
    have := refs f h₁ hu hr
    have := hg.alive f hu hr
    omega
  · exact h₁.1

theorem Cow.entries (h : Cow b G s) (hu : (G.kind t).user i = true) (hW : (s.entry t i).isW = true) :
    (s.entry t i).frame ≠ b.zero ∧ ∀ l, (G.kind t).level = some (l + 1) → (s.entry t i).Open :=
  ⟨h.zeroRO t i hu hW, h.opened t i hu hW⟩

theorem setEntry_refcount (hi : i < 512) : (s.setEntry t i e).refcount = s.refcount := by
  rw [setEntry_page hi]
  rfl

theorem Listed.setEntry (h : Listed G s) (hi : i < 512) : Listed G (s.setEntry t i e) := by
  rw [setEntry_page hi]
  exact h.congr (fun _ => Iff.rfl) (fun _ _ => rfl) rfl rfl

theorem setEntry_dry (hi : i < 512) : (s.setEntry t i e).dry = s.dry := by
  rw [setEntry_page hi]
  rfl

/-! ## Flags -/

/-- Flags of an entry are changed, without making it writeable. -/
theorem Sound.setFlags (h : Sound b G s) (hu : (G.kind t).user i = true)
    (he : e.frame = (s.entry t i).frame) (hw : e.isW = true → (s.entry t i).isW = true)
    (hp : G.kind t = .root → i = 0 → e.isW = true)
    (ho : e.isW = true → (G.kind t).level ≠ some 0 → (s.entry t i).Open → e.Open) :
    Sound b G (s.setEntry t i e) := by
  have hi := Kind.user_lt hu
  have hg : Good b G (s.setEntry t i e) := ⟨h.toCounted.setEntry_flags hu he hp, h.toListed.setEntry hi⟩
  have hold : ∀ u j, (G.kind u).user j = true →
      ((s.setEntry t i e).entry u j).frame = (s.entry u j).frame ∧
      (((s.setEntry t i e).entry u j).isW = true → (s.entry u j).isW = true ∧
        ((G.kind u).level ≠ some 0 → (s.entry u j).Open → ((s.setEntry t i e).entry u j).Open)) := by
    intro u j hj
    by_cases hne : u ≠ t ∨ j ≠ i
    · rw [setEntry_entry_ne hi (Kind.user_lt hj) hne]
      exact ⟨rfl, fun hW => ⟨hW, fun _ => id⟩⟩
    · obtain ⟨rfl, rfl⟩ : u = t ∧ j = i := by
        push Not at hne
        exact hne
      rw [setEntry_entry_self hi]
      exact ⟨he, fun hW => ⟨hw hW, ho hW⟩⟩
  refine ⟨⟨hg, h.off⟩, hg.cow (G := G) (s := s) (fun _ => id) (fun u j f hs hW => .inl ?_)
    (fun f hf _ hr => ?_) ?_⟩
  · obtain ⟨h₁, h₂, h₃, h₄⟩ := slot_eq_some.1 hs
    obtain ⟨hf, hw'⟩ := hold u j h₁
    exact ⟨slot_eq_some.2 ⟨h₁, h₂, by rw [← hf]; exact h₃, by rw [← hf]; exact h₄⟩, (hw' hW).1⟩
  · rw [setEntry_refcount hi, h.single f hf hr]
  · intro u j hj hW
    obtain ⟨hf, hw'⟩ := hold u j hj
    obtain ⟨hW', ho'⟩ := hw' hW
    obtain ⟨h₁, h₂⟩ := h.entries hj hW'
    rw [hf]
    exact ⟨h₁, fun l hl => ho' (by rw [hl]; nofun) (h₂ l hl)⟩

/-! ## A lower table with one reference -/

/-- A lower table with one reference is taken over: the writeable bits of its entries are cleared, and
the entry for it is made writeable. -/
theorem Sound.own (h : Sound b G s) (hu : (G.kind t).user i = true)
    (hl : (G.kind t).level = some (l + 1)) (hlow : (s.entry t i).frame = low) (hz : low ≠ b.zero)
    (hr : s.refcount low = 1) :
    Sound b G ((s.setPage low fun j => (s.page low j).clearW).setEntry t i (.mk' low tableFlags)) := by
  have hi := Kind.user_lt hu
  have hs : slot b G s t i = some low :=
    slot_eq_some.2 ⟨hu, by rw [h.off]; nofun, by rw [hlow]; exact hz, hlow⟩
  have hk := h.typed hs
  have hlevel : (G.kind low).level = some l := by
    rw [hk]
    exact Kind.kid_level hl i
  have hne : t ≠ low := by
    rintro rfl
    rw [hl] at hlevel
    have := Option.some.inj hlevel
    omega
  have hroot : G.kind low ≠ .root := by
    rw [hk]
    exact Kind.kid_ne_root _ _
  set s₁ := s.setPage low fun j => (s.page low j).clearW with hs₁
  have he₁ : ∀ j, j < 512 → s₁.entry low j = (s.entry low j).clearW := by
    intro j hj
    rw [hs₁, setPage_entry_self hj, entry_page hj]
  have ho₁ : ∀ u j, j < 512 → u ≠ low → s₁.entry u j = s.entry u j :=
    fun u j hj hu => setPage_entry_ne hj hu
  have hg₁ : Good b G s₁ := by
    refine ⟨h.toCounted.setPage_flags hroot fun j hj => ?_,
      h.toListed.congr (fun _ => Iff.rfl) (fun _ _ => rfl) rfl rfl⟩
    rw [entry_page hj]
    rfl
  have hfr : (s₁.entry t i).frame = low := by rw [ho₁ t i hi hne, hlow]
  have hg : Good b G (s₁.setEntry t i (.mk' low tableFlags)) :=
    ⟨hg₁.toCounted.setEntry_flags hu (by rw [hfr]; rfl) fun _ _ => tableFlags_isW low, hg₁.toListed.setEntry hi⟩
  have hsame : ∀ u j, j < 512 → (u ≠ t ∨ j ≠ i) → u ≠ low →
      (s₁.setEntry t i (.mk' low tableFlags)).entry u j = s.entry u j := by
    intro u j hj hne' hul
    rw [setEntry_entry_ne hi hj hne', ho₁ u j hj hul]
  have hlowW : ∀ j, j < 512 →
      ((s₁.setEntry t i (.mk' low tableFlags)).entry low j).isW = false := by
    intro j hj
    rw [setEntry_entry_ne hi hj (.inl (Ne.symm hne)), he₁ j hj]
    exact Pte.clearW_isW _
  refine ⟨⟨hg, h.off⟩, hg.cow (G := G) (s := s) (fun _ => id) (fun u j f hs' hW => ?_)
    (fun f hf _ hr => ?_) ?_⟩
  · have hj := slot_lt hs'
    by_cases hul : u = low
    · subst hul
      rw [hlowW j hj] at hW
      cases hW
    · by_cases hne' : u ≠ t ∨ j ≠ i
      · rw [hsame u j hj hne' hul] at hW
        rw [slot_eq_some, hsame u j hj hne' hul] at hs'
        exact .inl ⟨slot_eq_some.2 hs', hW⟩
      · obtain ⟨rfl, rfl⟩ : u = t ∧ j = i := by
          push Not at hne'
          exact hne'
        obtain rfl : low = f := by
          have := (slot_eq_some.1 hs').2.2.2
          rwa [setEntry_entry_self hi] at this
        refine .inr ⟨by rw [setEntry_refcount hi]; exact hr, fun k f' hk' => hlowW k (slot_lt hk')⟩
  · rw [setEntry_refcount hi]
    exact (h.single f hf hr).le
  · intro u j hj hW
    have hj' := Kind.user_lt hj
    by_cases hul : u = low
    · subst hul
      rw [hlowW j hj'] at hW
      cases hW
    · by_cases hne' : u ≠ t ∨ j ≠ i
      · rw [hsame u j hj' hne' hul] at hW ⊢
        exact h.entries hj hW
      · obtain ⟨rfl, rfl⟩ : u = t ∧ j = i := by
          push Not at hne'
          exact hne'
        rw [setEntry_entry_self hi]
        exact ⟨hz, fun _ _ => tableFlags_open low⟩

/-! ## New lower tables -/

/-- A page that is held becomes a table, and the entry that does not count is made to point to it. -/
theorem Good.attach (hg : Good b G s) (ho : G.off = some (t, i)) (hk : G.kind pi = .held)
    (hv : pi ∈ b.avail) (hu : (G.kind t).user i = true) (hkid : (G.kind t).kid i = .table m)
    (hm : m ≤ 2) (hr : 0 < s.refcount pi)
    (hkids : ∀ j g, slot b (G.setKind pi (.table m)) s pi j = some g →
      G.kind g = (Kind.table m).kid j)
    (hx : ∀ g, G.kind g ≠ .root →
      one pi g + tableCount 512 (slot b (G.setKind pi (.table m)) s) pi g ≤ G.extra g) :
    Good b ⟨Function.update G.kind pi (.table m), fun g => G.extra g -
      tableCount 512 (slot b (G.setKind pi (.table m)) s) pi g - one pi g, none⟩
      (s.setEntry t i (.mk' pi tableFlags)) := by
  have hunused : ¬(G.kind pi).Used := by
    rw [hk]
    exact id
  have hz : pi ≠ b.zero := fun e => b.zero_avail (e ▸ hv)
  have hne : t ≠ pi := by
    rintro rfl
    rw [hk] at hu
    cases hu
  have hold : ∀ g, tableCount 512 (slot b G s) pi g = 0 := fun g =>
    Finset.sum_eq_zero fun j _ => by rw [slot_plain (by rw [hk]; rfl), pointsTo_none]
  have hkind : ∀ j g, slot b (G.setKind pi (.table m)) s pi j = some g → g ≠ pi := by
    intro j g hs e
    have := hkids j g hs
    rw [e, hk] at this
    have hu' := Kind.kid_used (slot_eq_some.1 hs).1
    rw [setKind_self, ← this] at hu'
    exact hu'
  have hnn : ∀ g, 0 ≤ one pi g := fun g => pointsTo_nonneg _ _
  have h₁ := hg.toCounted.setKind (k := .table m)
    (x := fun g => -tableCount 512 (slot b (G.setKind pi (.table m)) s) pi g)
    (fun t i hs => hunused (hg.slot_used hs)) ?_ (fun j g hs => ⟨hkind j g hs, hkids j g hs⟩) ?_
    (fun _ _ => hr) (fun _ => hv) ?_ hz (by simp)
  · set G₁ := (G.setKind pi (.table m)).addExtra
      fun g => -tableCount 512 (slot b (G.setKind pi (.table m)) s) pi g with hG₁
    have hk₁ : ∀ g, g ≠ pi → G₁.kind g = G.kind g := fun g hg => setKind_ne hg
    have h₂ := h₁.putBack (t := t) (i := i) (e := .mk' pi tableFlags) ho
      (by rw [hk₁ t hne]; exact hu) fun _ => ⟨?_, ?_⟩
    · refine ⟨?_, hg.toListed.congr (fun g => ?_) (fun g hf => ?_) ?_ ?_⟩
      · have hG : (⟨G₁.kind, fun g => G₁.extra g - pointsTo (if (Pte.mk' pi tableFlags).frame = b.zero
            then none else some (Pte.mk' pi tableFlags).frame) g, none⟩ : Ghost)
            = ⟨Function.update G.kind pi (.table m), fun g => G.extra g -
              tableCount 512 (slot b (G.setKind pi (.table m)) s) pi g - one pi g, none⟩ := by
          ext g
          · rfl
          · have hz' : (Pte.mk' pi tableFlags).frame ≠ b.zero := hz
            rw [if_neg hz']
            rfl
          · rfl
        rw [← hG]
        exact h₂
      · by_cases hgp : g = pi
        · subst hgp
          simp [hk]
        · simp [Function.update_of_ne hgp]
      · have hx' := hx g (by rw [hf]; simp)
        have hxf := hg.extra_free g hf
        have h₃ := hnn g
        have h₄ : 0 ≤ tableCount 512 (slot b (G.setKind pi (.table m)) s) pi g := tableCount_nonneg
        simp only
        omega
      · rw [setEntry_page (Kind.user_lt hu)]
        rfl
      · rw [setEntry_page (Kind.user_lt hu)]
        rfl
    · rw [Pte.mk'_frame, hk₁ t hne, hkid]
      exact setKind_self _
    · have := hx pi (by rw [hk]; simp)
      rw [one_self] at this
      simp only [Pte.mk'_frame, hG₁, Ghost.addExtra, Ghost.setKind] at this ⊢
      omega
  · intro g
    rw [hold g, hk]
    simp [rootRef]
  · intro g hroot
    have hgr : G.kind g ≠ .root := by
      by_cases hgp : g = pi
      · rw [hgp, hk]
        simp
      · rwa [setKind_ne hgp] at hroot
    have := hx g hgr
    have := hnn g
    omega
  · rintro l hl
    injection hl with hl
    omega

/-- Where an entry points to a new table and all other tables are as they were, what is writeable is
what was so before. -/
theorem Sound.of_attach (h : Sound b G s) (hg : Good b G' s') (ho : G'.off = none)
    (hu : (G.kind t).user i = true) (hf : G.kind pi = .free)
    (hk : ∀ g, g ≠ pi → G'.kind g = G.kind g) (hnr : G'.kind pi ≠ .root)
    (he : s'.entry t i = .mk' pi tableFlags)
    (hsame : ∀ u j, j < 512 → u ≠ pi → (u ≠ t ∨ j ≠ i) → s'.entry u j = s.entry u j)
    (hnew : ∀ j, j < 512 → (s'.entry pi j).isW = false) (hr : s'.refcount pi = 1)
    (hrefs : ∀ f, WReach b G s f → s'.refcount f ≤ s.refcount f) : Sound b G' s' := by
  have hv : pi ≠ b.zero := by
    intro e
    have := h.zero
    rw [← e, hf] at this
    cases this
  refine ⟨⟨hg, ho⟩, hg.cow (G := G) (s := s) (fun r hr' => ?_) (fun u j f hs hW => ?_)
    (fun f hf' hused hr' => ?_) ?_⟩
  · have hne : r ≠ pi := fun e => hnr (e ▸ hr')
    rw [← hk r hne]
    exact hr'
  · have hj := slot_lt hs
    have hup : u ≠ pi := by
      rintro rfl
      rw [hnew j hj] at hW
      cases hW
    by_cases hne : u ≠ t ∨ j ≠ i
    · rw [hsame u j hj hup hne] at hW
      rw [slot_eq_some, hsame u j hj hup hne, hk u hup] at hs
      exact .inl ⟨slot_eq_some.2 ⟨hs.1, by rw [h.off]; nofun, hs.2.2⟩, hW⟩
    · obtain ⟨rfl, rfl⟩ : u = t ∧ j = i := by
        push Not at hne
        exact hne
      obtain rfl : pi = f := by
        have := (slot_eq_some.1 hs).2.2.2
        rwa [he] at this
      exact .inr ⟨hr, fun k f' hk' => hnew k (slot_lt hk')⟩
  · have hne : f ≠ pi := by
      rintro rfl
      have := hf'.used h.toCounted
      rw [hf] at this
      exact this
    rw [hk f hne] at hr'
    have := hrefs f hf'
    rw [h.single f hf' hr'] at this
    exact this
  · intro u j hj hW
    have hj' := Kind.user_lt hj
    have hup : u ≠ pi := by
      rintro rfl
      rw [hnew j hj'] at hW
      cases hW
    by_cases hne : u ≠ t ∨ j ≠ i
    · rw [hsame u j hj' hup hne] at hW ⊢
      rw [hk u hup] at hj ⊢
      exact h.entries hj hW
    · obtain ⟨rfl, rfl⟩ : u = t ∧ j = i := by
        push Not at hne
        exact hne
      rw [he]
      exact ⟨hv, fun _ _ => tableFlags_open pi⟩

theorem setPage_entry_const {pg : Page} (e : Pte) (hpg : ∀ j, pg j = e) (hj : j < 512) :
    (s.setPage f pg).entry f j = e := by
  rw [setPage_entry_self hj, hpg]

/-- The state after an empty table has been made for the entry `i` of `t`. -/
def Mem.withTable (b : Boot) (s : Mem) (t : Frame) (i : ℕ) (pi : Frame) : Mem :=
  (((s.taken pi).setRef pi ((s.taken pi).refcount pi + 1)).setPage pi fun _ => pteZero b).setEntry t i
    (.mk' pi tableFlags)

section

variable (hi : i < 512)
include hi

theorem withTable_entry_self : (s.withTable b t i pi).entry t i = .mk' pi tableFlags :=
  setEntry_entry_self hi

theorem withTable_entry_ne (hj : j < 512) (hu : u ≠ pi) (hne : u ≠ t ∨ j ≠ i) :
    (s.withTable b t i pi).entry u j = s.entry u j := by
  unfold Mem.withTable
  rw [setEntry_entry_ne hi hj hne, setPage_entry_ne hj hu]
  rfl

theorem withTable_entry_new (hj : j < 512) (hne : t ≠ pi) :
    (s.withTable b t i pi).entry pi j = pteZero b := by
  unfold Mem.withTable
  rw [setEntry_entry_ne hi hj (.inl (Ne.symm hne)), setPage_entry_self hj]

theorem withTable_page (hu : u ≠ pi) (hut : u ≠ t) : (s.withTable b t i pi).page u = s.page u := by
  unfold Mem.withTable
  rw [setEntry_page_ne hi hut]
  simp [Mem.setPage, Function.update_of_ne hu, Mem.setRef, Mem.taken]

theorem withTable_refcount : (s.withTable b t i pi).refcount
    = Function.update s.refcount pi (s.refcount pi + 1) := by
  unfold Mem.withTable
  rw [setEntry_refcount hi]
  rfl

end

/-- An empty lower table is made. -/
theorem Sound.newTable (h : Sound b G s) (hu : (G.kind t).user i = true)
    (hkid : (G.kind t).kid i = .table m) (hm : m ≤ 2) (hz : (s.entry t i).frame = b.zero)
    (hf : s.freelist = some pi) (hp : G.kind t = .root → i ≠ 0) :
    G.kind pi = .free ∧ Sound b (G.setKind pi (.table m)) (s.withTable b t i pi) := by
  have hi := Kind.user_lt hu
  obtain ⟨hk, hv, hr, hg₁⟩ := h.toGood.taken hf
  refine ⟨hk, ?_⟩
  have hne : t ≠ pi := by
    rintro rfl
    rw [hk] at hu
    cases hu
  set G₁ := G.setKind pi .held with hG₁
  have hk₁ : G₁.kind pi = .held := setKind_self _
  have hx₁ : G.extra pi = 0 := h.extra_free pi hk
  have hg₂ := hg₁.setRef (f := pi) (n := 1) (by rw [hk₁]; simp)
    (fun hr => by have := hg₁.extra_nonneg pi hr; omega) (by rw [hk₁]; exact False.elim)
  set s₂ := (s.taken pi).setRef pi ((s.taken pi).refcount pi + 1) with hs₂
  set G₂ := G₁.addExtra fun g => 1 * one pi g with hG₂
  set s₃ := s₂.setPage pi fun _ => pteZero b with hs₃
  have hg₃ : Good b G₂ s₃ :=
    ⟨hg₂.toCounted.setPage_plain (show (G₁.kind pi).level = none by rw [hk₁]; rfl) _,
      hg₂.toListed.congr (fun _ => Iff.rfl) (fun _ _ => rfl) rfl rfl⟩
  have he₃ : ∀ u j, j < 512 → u ≠ pi → s₃.entry u j = s.entry u j :=
    fun u j hj hu => setPage_entry_ne hj hu
  have hslot : slot b G₂ s₃ t i = none := by
    unfold slot
    rw [he₃ t i hi hne, if_neg fun e => e.2.2 hz]
  have hg₄ : Good b ⟨G₂.kind, fun g => G₂.extra g + pointsTo (slot b G₂ s₃ t i) g, some (t, i)⟩ s₃ := by
    refine ⟨hg₃.toCounted.takeOff h.off hi ?_, hg₃.toListed.congr (fun _ => Iff.rfl) (fun g _ => ?_)
      rfl rfl⟩
    · rw [hG₂]
      change G₁.kind t = .root → i ≠ 0
      rw [hG₁, setKind_ne hne]
      exact hp
    · simp only [hslot, pointsTo_none, add_zero]
  set G₄ : Ghost := ⟨G₂.kind, fun g => G₂.extra g + pointsTo (slot b G₂ s₃ t i) g, some (t, i)⟩ with hG₄
  have hempty : ∀ j, slot b (G₄.setKind pi (.table m)) s₃ pi j = none := by
    intro j
    unfold slot
    rw [if_neg]
    rintro ⟨hj, -, hn⟩
    rw [hs₃, setPage_entry_const (pteZero b) (fun _ => rfl) (Kind.user_lt hj)] at hn
    exact hn rfl
  have hcount : ∀ g, tableCount 512 (slot b (G₄.setKind pi (.table m)) s₃) pi g = 0 := fun g =>
    Finset.sum_eq_zero fun j _ => by rw [hempty, pointsTo_none]
  have hkt : G₄.kind t = G.kind t := setKind_ne hne
  have hr₃ : s₃.refcount pi = 1 := by
    simp [hs₃, hs₂, Mem.setPage, Mem.setRef, Mem.taken, hr]
  have hx₄ : ∀ g, G₄.extra g = G.extra g + one pi g := by
    intro g
    change G₂.extra g + pointsTo (slot b G₂ s₃ t i) g = _
    rw [hslot, pointsTo_none, add_zero, hG₂]
    simp only [Ghost.addExtra, one_mul]
    rfl
  have hg₅ := hg₄.attach (m := m) rfl hk₁ hv (by rw [hkt]; exact hu)
    (by rw [hkt]; exact hkid) hm (by omega) ?_ ?_
  · have hG : (⟨Function.update G₄.kind pi (.table m), fun g => G₄.extra g -
        tableCount 512 (slot b (G₄.setKind pi (.table m)) s₃) pi g - one pi g, none⟩ : Ghost)
        = G.setKind pi (.table m) := by
      ext g
      · simp [hG₄, hG₂, hG₁, Ghost.addExtra, Ghost.setKind]
      · change G₄.extra g - tableCount 512 (slot b (G₄.setKind pi (.table m)) s₃) pi g - one pi g
          = G.extra g
        rw [hcount, hx₄]
        ring
      · simp [Ghost.setKind, h.off]
    rw [hG] at hg₅
    refine h.of_attach hg₅ (by simp [Ghost.setKind, h.off]) hu hk (fun g hg => setKind_ne hg)
      (by rw [setKind_self]; simp) (withTable_entry_self hi) ?_ ?_ ?_ ?_
    · exact fun u j hj hup hne' => withTable_entry_ne hi hj hup hne'
    · intro j hj
      rw [withTable_entry_new hi hj hne, pteZero_isW]
    · rw [withTable_refcount hi, Function.update_self, hr]
      rfl
    · intro f hf'
      have hfp : f ≠ pi := by
        rintro rfl
        have := hf'.used h.toCounted
        rw [hk] at this
        exact this
      rw [withTable_refcount hi, Function.update_of_ne hfp]
  · intro j g hs
    rw [hempty] at hs
    cases hs
  · intro g hgr
    have hgr : G.kind g ≠ .root := by
      by_cases hgp : g = pi
      · rw [hgp, hk]
        simp
      · rwa [show G₄.kind g = G.kind g from setKind_ne hgp] at hgr
    rw [hcount, hx₄]
    have := h.extra_nonneg g hgr
    omega

/-! ## Copies of lower tables -/

/-- The entries of a table are copied to a page that is held; the pages below get one more reference
each, which is held until the page becomes a table. -/
theorem copyTable_ends {N : Set Note} {E : Panic → Mem → Prop} (hg : Good b G s) (ho : G.off = none)
    (hk : G.kind pi = .held) (hl : G.kind low = .table m) :
    Ends N (copyTable b pi low) s (fun _ s' =>
      Good b ⟨G.kind, fun g => G.extra g + tableCount 512 (slot b G s) low g, none⟩ s' ∧
      (∀ g, s'.refcount g = s.refcount g + tableCount 512 (slot b G s) low g) ∧
      (∀ u, u ≠ pi → s'.page u = s.page u) ∧
      (∀ j < 512, s'.entry pi j = (s.entry low j).clearW) ∧ s'.dry = s.dry) E := by
  have hne : low ≠ pi := by
    rintro rfl
    rw [hk] at hl
    cases hl
  unfold copyTable
  generalize hL : List.range nptEntries = L
  set rest : List ℕ → Frame → ℤ := fun as g => (as.map fun j => pointsTo (slot b G s low j) g).sum
    with hrest
  have htotal : ∀ g, tableCount 512 (slot b G s) low g = rest L g := by
    intro g
    rw [tableCount_list, ← hL]
  refine ends_each (I := fun as s' => (∀ j ∈ as, j < 512) ∧
    Good b ⟨G.kind, fun g => G.extra g + (rest L g - rest as g), none⟩ s' ∧
    (∀ g, s'.refcount g = s.refcount g + (rest L g - rest as g)) ∧
    (∀ u, u ≠ pi → s'.page u = s.page u) ∧
    (∀ j < 512, j ∉ as → s'.entry pi j = (s.entry low j).clearW) ∧ s'.dry = s.dry) ?_ ?_ L s ?_
  · rintro a as s' ⟨has, hg', hr, hp, he, hd⟩
    have ha : a < 512 := has a List.mem_cons_self
    have has' : ∀ j ∈ as, j < 512 := fun j hj => has j (List.mem_cons_of_mem a hj)
    have hlow : s'.entry low a = s.entry low a := entry_congr ha (hp low hne)
    have hcons : ∀ g, rest (a :: as) g = pointsTo (slot b G s low a) g + rest as g := fun g => rfl
    unfold readEntry writeEntry
    refine ends_bind (ends_bind_get (ends_pure.2 (ends_bind (ends_modify ?_))))
    rw [hlow]
    set s₁ := s'.setEntry pi a (s.entry low a).clearW with hs₁
    have hg₁ : Good b ⟨G.kind, fun g => G.extra g + (rest L g - rest (a :: as) g), none⟩ s₁ := by
      refine ⟨?_, hg'.toListed.setEntry ha⟩
      rw [hs₁, setEntry_page ha]
      exact hg'.toCounted.setPage_plain (show (G.kind pi).level = none by rw [hk]; rfl) _
    have hp₁ : ∀ u, u ≠ pi → s₁.page u = s.page u := by
      intro u hu
      rw [hs₁, setEntry_page_ne ha hu, hp u hu]
    have he₁ : ∀ j < 512, j ∉ as → s₁.entry pi j = (s.entry low j).clearW := by
      intro j hj hjas
      by_cases hja : j = a
      · subst hja
        exact setEntry_entry_self hj
      · rw [hs₁, setEntry_entry_ne ha hj (.inr hja)]
        refine he j hj ?_
        rw [List.mem_cons, not_or]
        exact ⟨hja, hjas⟩
    have hd₁ : s₁.dry = s.dry := by rw [hs₁, setEntry_dry ha, hd]
    have hr₁ : ∀ g, s₁.refcount g = s.refcount g + (rest L g - rest (a :: as) g) := by
      intro g
      rw [hs₁, setEntry_refcount ha, hr]
    have hu : (G.kind low).user a = true := by
      rw [hl]
      simpa [Kind.user] using ha
    by_cases hz : (s.entry low a).frame = b.zero
    · have hs : slot b G s low a = none := by
        unfold slot
        rw [if_neg fun e => e.2.2 hz]
      have hsame : rest (a :: as) = rest as := by
        funext g
        rw [hcons, hs, pointsTo_none, zero_add]
      rw [hsame] at hg₁ hr₁
      refine ends_bind_check (by rw [hz]; exact b.zero_ne) ?_
      rw [if_neg (by simpa using hz)]
      exact ends_pure.2 ⟨has', hg₁, hr₁, hp₁, he₁, hd₁⟩
    · have hs : slot b G s low a = some (s.entry low a).frame :=
        slot_of_user hu (by rw [ho]; simp) hz
      set f := (s.entry low a).frame
      have hused := hg.slot_used hs
      have hv := hg.used_avail hused
      have hf0 : f ≠ 0 := by
        intro e
        have := (b.avail_range f hv).1
        rw [e] at this
        simp at this
      refine ends_bind_check hf0 ?_
      rw [if_pos hz]
      have hfree : G.kind f ≠ .free := by
        intro e
        rw [e] at hused
        exact hused
      have hg₂ := hg₁.setRef (f := f) (n := 1) hfree
        (fun hr => by have := hg₁.extra_nonneg f hr; omega)
        (fun hu hr => by have := hg₁.alive f hu hr; omega)
      refine ends_memIncref hv ⟨has', ?_, fun g => ?_, hp₁, he₁, hd₁⟩
      · have hG : Ghost.addExtra ⟨G.kind, fun g => G.extra g + (rest L g - rest (a :: as) g), none⟩
            (fun g => 1 * one f g) = ⟨G.kind, fun g => G.extra g + (rest L g - rest as g), none⟩ := by
          ext g
          · rfl
          · simp only [Ghost.addExtra, hcons, hs, one]
            ring
          · rfl
        rw [hG] at hg₂
        exact hg₂
      · have h₁ := hr₁ g
        have h₂ := hcons g
        rw [hs] at h₂
        by_cases hgf : g = f
        · subst hgf
          rw [pointsTo_self] at h₂
          simp only [Mem.setRef, Function.update_self]
          omega
        · rw [show pointsTo (some f) g = 0 from one_ne hgf] at h₂
          simp only [Mem.setRef, Function.update_of_ne hgf]
          omega
  · rintro s' ⟨-, hg', hr, hp, he, hd⟩
    have hnil : ∀ g, rest [] g = 0 := fun g => rfl
    simp only [hnil, sub_zero, ← htotal] at hg' hr
    exact ⟨hg', hr, hp, fun j hj => he j hj (by simp), hd⟩
  · refine ⟨fun j hj => ?_, ?_, fun g => ?_, fun _ _ => rfl, fun j hj hn => ?_, rfl⟩
    · rw [← hL] at hj
      exact List.mem_range.1 hj
    · have hG : (⟨G.kind, fun g => G.extra g + (rest L g - rest L g), none⟩ : Ghost) = G := by
        ext g
        · rfl
        · simp only
          ring
        · simp only [ho]
      rw [hG]
      exact hg
    · ring
    · refine absurd ?_ hn
      rw [← hL]
      exact List.mem_range.2 hj

/-- What a shared table leads to cannot be reached through writeable entries. -/
theorem Sound.not_wreach_kid (h : Sound b G s) (hr : s.refcount low ≠ 1) (hlow : G.kind low ≠ .root)
    (hs : slot b G s low j = some f) : ¬ WReach b G s f := by
  have hroot : G.kind f ≠ .root := by
    rw [h.typed hs]
    exact Kind.kid_ne_root _ _
  intro hw
  have hone := h.single f hw hroot
  cases hw with
  | root hr' => exact hroot hr'
  | step ht hs' _ =>
    obtain ⟨rfl, -⟩ := h.single_slot hone hs' hs
    exact hr (h.single _ ht hlow)

/-- What the copy of a shared lower table leaves. -/
structure TableCopied (b : Boot) (G : Ghost) (s : Mem) (t : Frame) (i m : ℕ) (low pi : Frame) (s' : Mem) :
    Prop where
  sound : Sound b (G.setKind pi (.table m)) s'
  entry : s'.entry t i = .mk' pi tableFlags
  same : ∀ u j, j < 512 → u ≠ pi → (u ≠ t ∨ j ≠ i) → s'.entry u j = s.entry u j
  copy : ∀ j < 512, s'.entry pi j = (s.entry low j).clearW
  page : ∀ u, u ≠ pi → u ≠ t → s'.page u = s.page u
  ref : s'.refcount pi = 1
  refs : ∀ g, g ≠ pi → g ≠ low → s'.refcount g = s.refcount g + tableCount 512 (slot b G s) low g
  dry : s'.dry = s.dry

/-- A shared lower table is copied. -/
theorem Sound.copied {α : Type} {k : Kern α} {N : Set Note} {Q : α → Mem → Prop}
    {E : Panic → Mem → Prop} {freefun : Frame → Kern Unit} (h : Sound b G s) (hu : (G.kind t).user i = true) (hkid : (G.kind t).kid i = .table m)
    (hlow : (s.entry t i).frame = low) (hz : low ≠ b.zero) (hr : s.refcount low ≠ 1)
    (hf : s.freelist = some pi) (hp : G.kind t = .root → i ≠ 0)
    (hk : ∀ s', G.kind pi = .free → TableCopied b G s t i m low pi s' → Ends N k s' Q E) :
    Ends N (do
      memIncref b pi
      copyTable b pi low
      memDecref b low freefun
      writeEntry t i (.mk' pi tableFlags)
      k) (s.taken pi) Q E := by
  have hi := Kind.user_lt hu
  have hs : slot b G s t i = some low :=
    slot_eq_some.2 ⟨hu, by rw [h.off]; simp, by rw [hlow]; exact hz, hlow⟩
  have hkl : G.kind low = .table m := by rw [h.typed hs, hkid]
  have hm : m ≤ 2 := h.levels low m hkl
  have hlr : G.kind low ≠ .root := by
    rw [hkl]
    simp
  have halive := h.alive low (by rw [hkl]; trivial) hlr
  obtain ⟨hfree, hv, hrpi, hg₁⟩ := h.toGood.taken hf
  have hne : t ≠ pi := by
    rintro rfl
    rw [hfree] at hu
    cases hu
  have hnl : low ≠ pi := by
    rintro rfl
    rw [hfree] at hkl
    cases hkl
  have htl : t ≠ low := by
    rintro rfl
    rw [hkl] at hkid
    cases m <;> simp [Kind.kid] at hkid
  have hlv : low ∈ b.avail := h.avail low (by rw [hkl]; simp)
  set G₁ := G.setKind pi .held with hG₁
  have hk₁ : G₁.kind pi = .held := setKind_self _
  have hg₂ := hg₁.setRef (f := pi) (n := 1) (by rw [hk₁]; simp)
    (fun hr => by have := hg₁.extra_nonneg pi hr; omega) (by rw [hk₁]; exact False.elim)
  refine ends_bind (ends_memIncref hv ?_)
  set s₂ := (s.taken pi).setRef pi ((s.taken pi).refcount pi + 1) with hs₂
  set G₂ := G₁.addExtra fun g => 1 * one pi g with hG₂
  have hslots : slot b G₂ s₂ low = slot b G s low := by
    funext j
    unfold slot
    rw [show G₂.kind low = G.kind low from setKind_ne hnl]
    rfl
  have hcount : ∀ g, tableCount 512 (slot b G₂ s₂) low g = tableCount 512 (slot b G s) low g :=
    fun g => tableCount_congr fun j _ => by rw [hslots]
  refine ends_bind ((copyTable_ends hg₂ h.off hk₁ ((setKind_ne hnl).trans hkl)).imp ?_)
  rintro _ s₃ ⟨hg₃, hr₃, hp₃, he₃, hd₃⟩
  simp only [hcount] at hg₃ hr₃
  set G₃ : Ghost := ⟨G₂.kind, fun g => G₂.extra g + tableCount 512 (slot b G s) low g, none⟩ with hG₃
  have hself : tableCount 512 (slot b G s) low low = 0 := by
    refine Finset.sum_eq_zero fun j _ => if_neg fun hj => ?_
    have := h.typed hj
    rw [hkl] at this
    cases m <;> simp [Kind.kid] at this
  have hr₂ : ∀ g, g ≠ pi → s₂.refcount g = s.refcount g := fun g hg => by
    simp [hs₂, Mem.setRef, Mem.taken, Function.update_of_ne hg]
  have hrlow : 1 < s₃.refcount low := by
    rw [hr₃, hself, hr₂ low hnl]
    omega
  refine ends_bind (ends_memDecref_more hlv hrlow (ends_bind (ends_modify (hk _ hfree ?_))))
  -- the entry is taken off, the reference given up, and the entry put back
  have hst : slot b G₃ s₃ t i = some low := by
    rw [slot_eq_some, show G₃.kind t = G.kind t from setKind_ne hne,
      entry_congr hi (hp₃ t hne)]
    exact ⟨hu, by simp, by rw [show (s₂.entry t i).frame = low from hlow]; exact hz, hlow⟩
  have hg₄ : Good b ⟨G₃.kind, fun g => G₃.extra g + pointsTo (slot b G₃ s₃ t i) g, some (t, i)⟩ s₃ := by
    refine ⟨hg₃.toCounted.takeOff rfl hi ?_, hg₃.toListed.congr (fun _ => Iff.rfl) (fun g hf' => ?_)
      rfl rfl⟩
    · rw [show G₃.kind t = G.kind t from setKind_ne hne]
      exact hp
    · have : pointsTo (slot b G₃ s₃ t i) g = 0 := by
        refine if_neg fun hs' => ?_
        have := hg₃.slot_used hs'
        rw [hf'] at this
        exact this
      simp only [this, add_zero]
  rw [hst] at hg₄
  set G₄ : Ghost := ⟨G₃.kind, fun g => G₃.extra g + pointsTo (some low) g, some (t, i)⟩ with hG₄
  have hk₄ : ∀ g, g ≠ pi → G₄.kind g = G.kind g := fun g hg => setKind_ne hg
  have hx₄ : ∀ g, G₄.extra g
      = G.extra g + one pi g + tableCount 512 (slot b G s) low g + one low g := by
    intro g
    change G.extra g + 1 * one pi g + tableCount 512 (slot b G s) low g + pointsTo (some low) g = _
    rw [one_mul]
    rfl
  have hcn : ∀ g, 0 ≤ tableCount 512 (slot b G s) low g := fun g => tableCount_nonneg
  have hg₅ := hg₄.setRef (f := low) (n := -1) (by rw [hk₄ low hnl, hkl]; simp) ?_
    (fun _ _ => by omega)
  rotate_left
  · intro _
    have := h.extra_nonneg low hlr
    rw [hx₄, hself, one_self, one_ne hnl]
    omega
  rw [← sub_eq_add_neg] at hg₅
  set G₅ := G₄.addExtra fun g => -1 * one low g with hG₅
  set s₄ := s₃.setRef low (s₃.refcount low - 1) with hs₄
  have he₄ : ∀ j < 512, s₄.entry pi j = (s.entry low j).clearW := he₃
  have hnew : ∀ j < 512, slot b (G₅.setKind pi (.table m)) s₄ pi j = slot b G s low j := by
    intro j hj
    have hoff : ¬ (t = pi ∧ i = j) := fun e => hne e.1
    unfold slot
    rw [setKind_self, he₄ j hj, hkl]
    simp [Kind.user, hj, h.off, Ghost.setKind, hG₅, Ghost.addExtra, hG₄, hoff]
  have hcount' : ∀ g, tableCount 512 (slot b (G₅.setKind pi (.table m)) s₄) pi g
      = tableCount 512 (slot b G s) low g := by
    intro g
    refine Finset.sum_congr rfl fun j hj => ?_
    rw [hnew j (Finset.mem_range.1 hj)]
  have hx₅ : ∀ g, G₅.extra g = G.extra g + one pi g + tableCount 512 (slot b G s) low g := by
    intro g
    change G₄.extra g + -1 * one low g = _
    rw [hx₄]
    ring
  have hrpi₄ : s₄.refcount pi = 1 := by
    have hzero : tableCount 512 (slot b G s) low pi = 0 := by
      refine Finset.sum_eq_zero fun j _ => if_neg fun hj => ?_
      have := h.slot_used hj
      rw [hfree] at this
      exact this
    have : s₃.refcount pi = 1 := by
      rw [hr₃, hzero]
      simp [hs₂, Mem.setRef, Mem.taken, hrpi]
    simpa [hs₄, Mem.setRef, Function.update_of_ne (Ne.symm hnl)] using this
  have hkt : G₅.kind t = G.kind t := hk₄ t hne
  have hg₆ := hg₅.attach (m := m) rfl hk₁ hv (by rw [hkt]; exact hu)
    (by rw [hkt]; exact hkid) hm (by omega) ?_ ?_
  rotate_left
  · intro j g hs'
    have hj : j < 512 := slot_lt hs'
    rw [hnew j hj] at hs'
    have hgp : g ≠ pi := by
      rintro rfl
      have := h.slot_used hs'
      rw [hfree] at this
      exact this
    rw [show G₅.kind g = G.kind g from hk₄ g hgp, h.typed hs', hkl]
  · intro g hgr
    have hgr : G.kind g ≠ .root := by
      by_cases hgp : g = pi
      · rw [hgp, hfree]
        simp
      · rwa [show G₅.kind g = G.kind g from hk₄ g hgp] at hgr
    rw [hcount', hx₅]
    have := h.extra_nonneg g hgr
    omega
  have hG : (⟨Function.update G₅.kind pi (.table m), fun g => G₅.extra g -
      tableCount 512 (slot b (G₅.setKind pi (.table m)) s₄) pi g - one pi g, none⟩ : Ghost)
      = G.setKind pi (.table m) := by
    ext g
    · change Function.update (Function.update G.kind pi .held) pi (.table m) g = _
      rw [Function.update_idem]
      rfl
    · change G₅.extra g - tableCount 512 (slot b (G₅.setKind pi (.table m)) s₄) pi g - one pi g
        = G.extra g
      rw [hcount', hx₅]
      ring
    · simp [Ghost.setKind, h.off]
  rw [hG] at hg₆
  have hsame : ∀ u j, j < 512 → u ≠ pi → (u ≠ t ∨ j ≠ i) →
      (s₄.setEntry t i (.mk' pi tableFlags)).entry u j = s.entry u j := by
    intro u j hj hup hne'
    rw [setEntry_entry_ne hi hj hne']
    exact entry_congr hj (hp₃ u hup)
  have hcopy : ∀ j < 512, (s₄.setEntry t i (.mk' pi tableFlags)).entry pi j = (s.entry low j).clearW := by
    intro j hj
    rw [setEntry_entry_ne hi hj (.inl (Ne.symm hne)), he₄ j hj]
  have hrefs : ∀ g, g ≠ pi → g ≠ low → s₄.refcount g
      = s.refcount g + tableCount 512 (slot b G s) low g := by
    intro g hgp hgl
    simp only [hs₄, Mem.setRef, Function.update_of_ne hgl]
    rw [hr₃, hr₂ g hgp]
  refine ⟨?_, setEntry_entry_self hi, hsame, hcopy, ?_, ?_, ?_, ?_⟩
  · refine h.of_attach hg₆ (by simp [Ghost.setKind, h.off]) hu hfree (fun g hg => setKind_ne hg)
      (by rw [setKind_self]; simp) (setEntry_entry_self hi) hsame ?_ ?_ ?_
    · intro j hj
      rw [hcopy j hj, Pte.clearW_isW]
    · rw [setEntry_refcount hi]
      exact hrpi₄
    · intro f hw
      rw [setEntry_refcount hi]
      have hfp : f ≠ pi := by
        rintro rfl
        have := hw.used h.toCounted
        rw [hfree] at this
        exact this
      by_cases hfl : f = low
      · subst hfl
        simp only [hs₄, Mem.setRef, Function.update_self]
        rw [hr₃, hself, hr₂ f hnl]
        omega
      · have hzero : tableCount 512 (slot b G s) low f = 0 := by
          refine Finset.sum_eq_zero fun j _ => if_neg fun hj => ?_
          exact h.not_wreach_kid hr (by rw [hkl]; simp) hj hw
        rw [hrefs f hfp hfl, hzero, add_zero]
  · intro u hup hut
    rw [setEntry_page_ne hi hut]
    exact hp₃ u hup
  · rw [setEntry_refcount hi]
    exact hrpi₄
  · intro g hgp hgl
    rw [setEntry_refcount hi]
    exact hrefs g hgp hgl
  · rw [setEntry_dry hi]
    exact hd₃

end Determinator
