import Determinator.Pmap.Walk

/-!
# Changing an entry

The entry of a table is dropped, replaced by one for another page, or shared with another table. In
between the entry does not count, and the code holds its reference; `Put` says what is left when it
counts again.
-/

namespace Determinator

open PanicM

variable {b : Boot} {G G' G₁ G₂ : Ghost} {s s' s₁ s₂ : Mem} {f g t u T pi st dt : Frame}
  {i j l m va si di : ℕ} {e : Pte}

/-! ## Off and on -/

theorem Counted.level_le (h : Counted b G s) (hl : (G.kind t).level = some l) : l ≤ 3 := by
  cases hk : G.kind t with
  | table m =>
    rw [hk] at hl
    have := h.levels t m hk
    have : m = l := Option.some.inj hl
    omega
  | low =>
    rw [hk] at hl
    have : 2 = l := Option.some.inj hl
    omega
  | root =>
    rw [hk] at hl
    have : 3 = l := Option.some.inj hl
    omega
  | _ => rw [hk] at hl; cases hl

namespace Good

/-- The reference of an entry is held by the code. -/
theorem offEntry (h : Good b G s) (ho : G.off = none) (hi : i < 512) (hp : G.kind t = .root → i ≠ 0) :
    Good b ⟨G.kind, fun g => G.extra g + pointsTo (slot b G s t i) g, some (t, i)⟩ s := by
  refine ⟨h.toCounted.takeOff ho hi hp, h.toListed.congr (fun _ => Iff.rfl) (fun g hg => ?_) rfl rfl⟩
  have : pointsTo (slot b G s t i) g = 0 := by
    refine if_neg fun hs => ?_
    have := h.slot_used hs
    rw [hg] at this
    exact this
  simp only [this, add_zero]

/-- The entry is written, and has its reference again. -/
theorem putEntry (h : Good b G s) (ho : G.off = some (t, i)) (hu : (G.kind t).user i = true)
    (hk : e.frame ≠ b.zero → G.kind e.frame = (G.kind t).kid i ∧ 1 ≤ G.extra e.frame) :
    Good b ⟨G.kind, fun g => G.extra g -
      pointsTo (if e.frame = b.zero then none else some e.frame) g, none⟩ (s.setEntry t i e) := by
  refine ⟨h.toCounted.putBack ho hu hk,
    (h.toListed.setEntry (Kind.user_lt hu)).congr (fun _ => Iff.rfl) (fun g hg => ?_) rfl rfl⟩
  by_cases hz : e.frame = b.zero
  · simp [hz]
  · have hne : g ≠ e.frame := by
      rintro rfl
      have := Kind.kid_used hu
      rw [← (hk hz).1, hg] at this
      exact this
    simp only [if_neg hz, show pointsTo (some e.frame) g = 0 from one_ne hne, sub_zero]

end Good

/-- Where one entry has changed and no count of what is writeable has grown. -/
theorem Sound.of_put (h : Sound b G s) (hg : Good b G' s') (ho : G'.off = none)
    (hkind : ∀ u, (G'.kind u).level ≠ none → G.kind u = G'.kind u)
    (hroot : ∀ r, G.kind r = .root → G'.kind r = .root)
    (hsame : ∀ u j, (G'.kind u).user j = true → (u ≠ t ∨ j ≠ i) → s'.entry u j = s.entry u j)
    (hnew : (s'.entry t i).isW = true → (s'.entry t i).frame ≠ b.zero ∧
      s'.refcount (s'.entry t i).frame = 1 ∧ (G'.kind (s'.entry t i).frame).level = none)
    (hrefs : ∀ f, WReach b G s f → G'.kind f ≠ .free → s'.refcount f ≤ s.refcount f) :
    Sound b G' s' := by
  have hlevel : ∀ {u j}, (G'.kind u).user j = true → (G'.kind u).level ≠ none := by
    intro u j hj e
    rw [Kind.not_user_of_level e] at hj
    cases hj
  refine ⟨⟨hg, ho⟩, hg.cow (G := G) (s := s) (fun r hr => ?_) (fun u j f hs hW => ?_)
    (fun f hf hu hr => ?_) (fun u j hj hW => ?_)⟩
  · rw [hkind r (by rw [hr]; nofun), hr]
  · obtain ⟨hj, -, hz, hf⟩ := slot_eq_some.1 hs
    by_cases hne : u ≠ t ∨ j ≠ i
    · rw [hsame u j hj hne] at hz hf hW
      refine .inl ⟨slot_eq_some.2 ⟨?_, by rw [h.off]; nofun, hz, hf⟩, hW⟩
      rw [hkind u (hlevel hj)]
      exact hj
    · obtain ⟨rfl, rfl⟩ : u = t ∧ j = i := by
        push Not at hne
        exact hne
      obtain ⟨-, h₂, h₃⟩ := hnew hW
      rw [hf] at h₂ h₃
      refine .inr ⟨h₂, fun k f' hk => ?_⟩
      rw [slot_plain h₃] at hk
      cases hk
  · have hroot' : G.kind f ≠ .root := fun e => hr (hroot f e)
    have := hrefs f hf fun e => by
      rw [e] at hu
      exact hu
    rw [h.single f hf hroot'] at this
    exact this
  · by_cases hne : u ≠ t ∨ j ≠ i
    · rw [hsame u j hj hne] at hW ⊢
      have hk := hkind u (hlevel hj)
      rw [← hk] at hj ⊢
      exact h.entries hj hW
    · obtain ⟨rfl, rfl⟩ : u = t ∧ j = i := by
        push Not at hne
        exact hne
      obtain ⟨hz, -, hl⟩ := hnew hW
      refine ⟨hz, fun l ht => ?_⟩
      -- the entry is one of a page table
      have hs := slot_of_user hj (by rw [ho]; nofun) hz
      rw [hg.typed hs, Kind.kid_level ht] at hl
      cases hl

/-- The references of the code and the pages of the kernel are as they were. -/
structure Neat (G G' : Ghost) : Prop where
  extra : G'.extra = G.extra
  held : ∀ g, G'.kind g = .held ↔ G.kind g = .held
  /-- The tables of the first 512GB stay. -/
  low : ∀ g, G.kind g = .low → G'.kind g = .low

theorem Neat.refl (G : Ghost) : Neat G G := ⟨rfl, fun _ => Iff.rfl, fun _ h => h⟩

theorem Neat.trans (h : Neat G G₁) (h' : Neat G₁ G₂) : Neat G G₂ :=
  ⟨h'.extra.trans h.extra, fun g => (h'.held g).trans (h.held g), fun g hg => h'.low g (h.low g hg)⟩

theorem Unseen.neat (h : Unseen b l G s G' s') : Neat G G' where
  extra := h.extra
  held g := by
    by_cases hg : G.kind g = .free
    · rcases h.fresh g hg with hg' | ⟨m, -, hg'⟩ <;> simp [hg, hg']
    · rw [h.kind g hg]
  low g hg := (h.kind g (by rw [hg]; nofun)).trans hg

/-- What a change of the entry `i` of the level-`l` table `t` to `e` leaves. -/
structure Put (b : Boot) (l : ℕ) (t : Frame) (i : ℕ) (e : Pte) (G : Ghost) (s : Mem) (G' : Ghost)
    (s' : Mem) : Prop where
  base : Base b l G s G' s'
  entry : s'.entry t i = e
  same : ∀ j < 512, j ≠ i → s'.entry t j = s.entry t j
  page : ∀ u, u ≠ t → s'.page u = s.page u
  dry : s'.dry = s.dry

namespace Put

variable {R : ℕ → View → View → Prop}

/-- The views through other entries do not change. -/
theorem viewAt_ne (h : Put b l t i e G s G' s') (hS : Whole b G s) (hl : (G.kind t).level = some l)
    (hg : (G.kind g).level = some m) (hm : (G.kind g).maps va)
    (hlt : m < l ∨ m = l ∧ (g ≠ t ∨ pdx l va ≠ i)) : viewAt b s' va m g = viewAt b s va m g := by
  have hzt : b.zero ≠ t := by
    intro e
    rw [← e, hS.zero] at hl
    cases hl
  have hother : ∀ {g m}, (G.kind g).level = some m → (G.kind g).maps va → m < l ∨ g ≠ t ∧ m = l →
      viewAt b s' va m g = viewAt b s va m g := fun hg hm hlt =>
    viewAt_eq hS hl (h.page _ hzt) (fun u _ hu _ => h.page u hu) (fun u j f _ _ hf => h.page f (by
      rintro rfl
      rw [hf] at hl
      cases hl)) hg hm hlt
  by_cases hgt : g = t
  · subst hgt
    rcases hlt with hlt | ⟨rfl, hne⟩
    · exact hother hg hm (.inl hlt)
    · have hne : pdx m va ≠ i := hne.resolve_left fun hn => hn rfl
      refine viewAt_entry (h.page _ hzt) (h.same _ (pdx_lt _ _) hne) ?_ ?_
      · rintro rfl hz
        refine h.page _ fun e => ?_
        have := data_of_slot hS.toGood hg (hS.slot_maps hg hm hz)
        rw [e] at this
        rw [this] at hg
        cases hg
      · rintro k rfl hz
        obtain ⟨hl', hm'⟩ := kid_of_slot hS.toGood hg hm (hS.slot_maps hg hm hz)
        exact hother hl' hm' (.inl (by omega))
  · exact hother hg hm (hlt.imp id fun h => ⟨hgt, h.1⟩)

theorem acts (h : Put b l t i e G s G' s') (hS : Whole b G s) (hl : (G.kind t).level = some l)
    (hR : ∀ va, (G.kind t).maps va → pdx l va = i → R va (viewAt b s va l t) (viewAt b s' va l t))
    (hK : ∀ va v, pdx l va ≠ i → R va v v) : Acts b l t R G s G' s' where
  toBase := h.base
  other g va hg hne hm := by
    rw [h.viewAt_ne hS hl hg hm (.inr ⟨rfl, .inl hne⟩)]
    exact View.Keeps.refl _
  self va hm := by
    by_cases hi : pdx l va = i
    · exact hR va hm hi
    · rw [h.viewAt_ne hS hl hl hm (.inr ⟨rfl, .inr hi⟩)]
      exact hK va _ hi

/-- The view through the new entry of a page table. -/
theorem viewAt_zero (h : Put b 0 t i e G s G' s') (hi : pdx 0 va = i) (he : e.frame ≠ t) :
    viewAt b s' va 0 t = ⟨e.clearW, s.page e.frame, e.isW, true⟩ := by
  simp only [viewAt, hi, h.entry, h.page _ he]

end Put

/-- Flags of an entry are changed. -/
theorem Whole.put_flags (h : Whole b G s) (hl : (G.kind t).level = some l) (hi : i < 512) :
    Put b l t i e G s G (s.setEntry t i e) := by
  have hpage : ∀ u, u ≠ t → (s.setEntry t i e).page u = s.page u := fun u hu => setEntry_page_ne hi hu
  refine ⟨⟨fun _ _ _ _ => rfl, fun _ _ _ _ => rfl, hpage _ ?_, fun g m hg hm => hpage g ?_⟩,
    setEntry_entry_self hi, fun j hj hne => setEntry_entry_ne hi hj (.inr hne), hpage, setEntry_dry hi⟩
  · intro e
    rw [← e, h.zero] at hl
    cases hl
  · rintro rfl
    rw [hg] at hl
    have := Option.some.inj hl
    omega

/-! ## Dropping an entry -/

/-- Giving up references changes no table of a level from `l` on. -/
theorem Freed.kind_of_level (h : Freed l G s G' s') (hl : (G.kind g).level = some m) (hm : l ≤ m) :
    G'.kind g = G.kind g := by
  rcases h.kind g with e | ⟨-, n, hn, e⟩
  · exact e
  · rw [e] at hl
    have := Kind.below_level hl
    omega

/-- The kinds after an entry of a level-`l` table has been dropped. -/
theorem Freed.base (h : Freed l G₁ s₁ G₂ s₂) (hk : G₁.kind = G.kind) (hk' : G'.kind = G₂.kind)
    (hz : s'.page b.zero = s.page b.zero) (hp : ∀ u, (G.kind u).level ≠ some l → s'.page u = s.page u) :
    Base b l G s G' s' where
  kind g m hg hm := by
    rw [hk', ← hk]
    exact h.kind_of_level (by rw [hk]; exact hg) hm
  kind_new g m hg hm := by
    rw [hk'] at hg ⊢
    rw [h.kind_eq (Kind.ne_free hg), hk]
  zero := hz
  page g m hg hm := hp g (by rw [hg]; intro e; have := Option.some.inj e; omega)

/-- The reference of an entry is given up, and the entry cleared. -/
theorem Sound.drop_ends {N : Set Note} {E : Panic → Mem → Prop} (h : Sound b G s)
    (hu : (G.kind t).user i = true) (hl : (G.kind t).level = some l) (hp : G.kind t = .root → i ≠ 0)
    (hz : (s.entry t i).frame ≠ b.zero) :
    Ends N (memDecref b (s.entry t i).frame (pmapFreefun b l)) s (fun _ s₁ =>
      ∃ G', Sound b G' (s₁.setEntry t i (pteZero b)) ∧ Neat G G' ∧
        Put b l t i (pteZero b) G s G' (s₁.setEntry t i (pteZero b))) E := by
  have hi := Kind.user_lt hu
  set f := (s.entry t i).frame with hf
  have hs : slot b G s t i = some f := slot_eq_some.2 ⟨hu, by rw [h.off]; nofun, hz, rfl⟩
  have hkf : G.kind f = .below l := (h.typed hs).trans (Kind.kid_eq_below hl hp)
  have hoff := h.toGood.offEntry h.off hi hp
  rw [hs] at hoff
  have hfx : G.extra f + pointsTo (some f) f = G.extra f + 1 := by rw [pointsTo_self]
  have hx := h.extra_nonneg f (by rw [hkf]; exact (Kind.below_ne l).1)
  have habove : OffAbove l ⟨G.kind, fun g => G.extra g + pointsTo (some f) g, some (t, i)⟩ := by
    rintro t' i' ht m hm hk
    obtain ⟨rfl, rfl⟩ := Prod.mk.inj (Option.some.inj ht)
    simp only at hk
    rw [hk] at hl
    have := Kind.below_level hl
    omega
  have hdec := (decrefs_pmapFreefun (h.level_le hl)) _ s f hoff hkf habove (by simp only [hfx]; omega)
  refine (hdec.ends.notes_mono (Set.empty_subset N)).imp ?_
  rintro _ s₁ ⟨G₂, hg₂, hx₂, hfr⟩
  have hkt : G₂.kind t = G.kind t := hfr.kind_of_level hl le_rfl
  have hg₃ := hg₂.putEntry (e := pteZero b) hfr.off (by rw [hkt]; exact hu) fun e => absurd rfl e
  set G₃ : Ghost := ⟨G₂.kind, fun g => G₂.extra g -
    pointsTo (if (pteZero b).frame = b.zero then none else some (pteZero b).frame) g, none⟩ with hG₃
  have hx₃ : G₃.extra = G.extra := by
    funext g
    have := hx₂ g
    simp only [hG₃, pteZero_frame, if_true, pointsTo_none, sub_zero]
    rw [this]
    simp only [one]
    ring
  have hpage : ∀ u, u ≠ t → (s₁.setEntry t i (pteZero b)).page u = s.page u := by
    intro u hut
    rw [setEntry_page_ne hi hut, hfr.page]
  have hself := setEntry_entry_self (s := s₁) (t := t) (e := pteZero b) hi
  have hzt : b.zero ≠ t := by
    intro e
    rw [← e, h.zero] at hl
    cases hl
  have hkept : ∀ g, (∀ n, G.kind g ≠ .below n) → G₂.kind g = G.kind g := by
    intro g hg
    rcases hfr.kind g with e | ⟨-, n, -, e⟩
    · exact e
    · exact absurd e (hg n)
  refine ⟨G₃, ?_, ⟨hx₃, fun g => ?_, fun g hg => ?_⟩,
    ⟨hfr.base rfl rfl (hpage _ hzt) fun u hul => hpage u ?_, hself, ?_, hpage, ?_⟩⟩
  · refine h.of_put (t := t) (i := i) hg₃ rfl (fun u hul => ?_) (fun r hr => ?_) (fun u j hj hne => ?_)
      (fun hW => ?_) (fun f' _ _ => ?_)
    · refine (hfr.kind_eq fun e => hul ?_).symm
      change (G₂.kind u).level = none
      rw [e]
      rfl
    · have := hfr.kind_of_level (g := r) (m := 3) (show (G.kind r).level = _ by rw [hr]; rfl)
        (h.level_le hl)
      rw [← hr]
      exact this
    · rw [setEntry_entry_ne hi (Kind.user_lt hj) hne, hfr.entry_eq]
    · rw [hself, pteZero_isW] at hW
      cases hW
    · rw [setEntry_refcount hi]
      exact hfr.ref_le f'
  · constructor
    · intro hg
      rcases hfr.kind g with e | ⟨e, -⟩
      · exact e.symm.trans hg
      · cases e.symm.trans hg
    · intro hg
      refine (hkept g fun n e => ?_).trans hg
      exact (Kind.below_ne n).2.2.1 (e.symm.trans hg)
  · refine (hkept g fun n e => ?_).trans hg
    exact (Kind.below_ne n).2.1 (e.symm.trans hg)
  · rintro rfl
    exact hul hl
  · intro j hj hne
    rw [setEntry_entry_ne hi hj (.inr hne), hfr.entry_eq]
  · rw [setEntry_dry hi, hfr.dry]

/-! ## Pages of user memory -/

/-- The state after a reference to a page of user memory has been given up. -/
def Mem.unref (s : Mem) (f : Frame) : Mem :=
  if s.refcount f = 1 then (s.setRef f 0).given f else s.setRef f (s.refcount f - 1)

theorem unref_page (s : Mem) (f : Frame) : (s.unref f).page = s.page := by
  unfold Mem.unref
  split <;> rfl

theorem unref_dry (s : Mem) (f : Frame) : (s.unref f).dry = s.dry := by
  unfold Mem.unref
  split <;> rfl

theorem unref_refcount (s : Mem) (f : Frame) :
    (s.unref f).refcount = Function.update s.refcount f (s.refcount f - 1) := by
  unfold Mem.unref
  split
  · rename_i h
    rw [h]
    rfl
  · rfl

/-- The ghost state after that. -/
def Ghost.unref (G : Ghost) (s : Mem) (f : Frame) : Ghost :=
  ⟨if s.refcount f = 1 then Function.update G.kind f .free else G.kind,
    fun g => G.extra g - one f g, G.off⟩

namespace Good

theorem unref (hg : Good b G s) (hk : G.kind f = .data) (hx : 1 ≤ G.extra f) :
    Good b (G.unref s f) (s.unref f) := by
  have hv : f ∈ b.avail := hg.avail f (by rw [hk]; simp)
  unfold Ghost.unref Mem.unref
  split
  · rename_i hr
    have h₁ := hg.retire (l := 0) hk hr hx
    have hzero : ∀ g, tableCount 512 (slot b G s) f g = 0 := fun g =>
      Finset.sum_eq_zero fun i _ => by rw [slot_plain (by rw [hk]; rfl), pointsTo_none]
    have h₂ := h₁.given (f := f) (by simp) ?_ hv
    · have hG : Ghost.setKind ⟨Function.update G.kind f .held,
          fun g => G.extra g + tableCount 512 (slot b G s) f g - one f g, G.off⟩ f .free
          = ⟨Function.update G.kind f .free, fun g => G.extra g - one f g, G.off⟩ := by
        ext g
        · simp [Ghost.setKind]
        · simp [Ghost.setKind, hzero]
        · rfl
      rwa [hG] at h₂
    · have := h₁.refcount_unused (f := f) (by simp [Kind.Used])
      simp only [Mem.setRef, Function.update_self] at this
      exact this.symm
  · rename_i hr
    have hpos := hg.alive f (by rw [hk]; trivial) (by rw [hk]; simp)
    have h := hg.setRef (f := f) (n := -1) (by rw [hk]; simp) (fun _ => by omega)
      (fun _ _ => by omega)
    rw [← sub_eq_add_neg] at h
    have hG : G.addExtra (fun g => -1 * one f g) = ⟨G.kind, fun g => G.extra g - one f g, G.off⟩ := by
      ext g
      · rfl
      · simp only [Ghost.addExtra]
        ring
      · rfl
    rwa [hG] at h

theorem memDecref_data {N : Set Note} {E : Panic → Mem → Prop} {Q : Unit → Mem → Prop}
    (hg : Good b G s) (hk : G.kind f = .data) (h : Q () (s.unref f)) :
    Ends N (memDecref b f memFree) s Q E := by
  have hv : f ∈ b.avail := hg.avail f (by rw [hk]; nofun)
  have hpos := hg.alive f (by rw [hk]; trivial) (by rw [hk]; nofun)
  unfold Mem.unref at h
  split at h
  · rename_i hr
    have hn : s.freeNext f = none := hg.unlinked f (by rw [hk]; nofun)
    refine ends_memDecref_last hv hr (ends_memFree (by simp [Mem.setRef]) hn ⟨?_, h⟩)
    simp [Mem.given, Mem.setRef]
  · exact ends_memDecref_more hv (by omega) h

end Good

theorem unref_kind (G : Ghost) (s : Mem) (hg : g ≠ f) : (G.unref s f).kind g = G.kind g := by
  unfold Ghost.unref
  split
  · exact Function.update_of_ne hg _ _
  · rfl

theorem unref_kind_self (G : Ghost) (s : Mem) :
    (G.unref s f).kind f = if s.refcount f = 1 then .free else G.kind f := by
  unfold Ghost.unref
  split
  · exact Function.update_self _ _ _
  · rfl

/-- The state after the reference of an entry of a page table has been given up. -/
def Mem.release (b : Boot) (s : Mem) (f : Frame) : Mem := if f = b.zero then s else s.unref f

/-- The ghost state when the entry for `f` has been replaced by one for `pi`, whose reference was held
by the code. -/
def Ghost.swap (b : Boot) (G : Ghost) (s : Mem) (f pi : Frame) : Ghost :=
  ⟨if f = b.zero then G.kind else (G.unref s f).kind, fun g => G.extra g - one pi g, none⟩

theorem release_page (s : Mem) (f : Frame) : (s.release b f).page = s.page := by
  unfold Mem.release
  split
  · rfl
  · exact unref_page s f

theorem release_dry (s : Mem) (f : Frame) : (s.release b f).dry = s.dry := by
  unfold Mem.release
  split
  · rfl
  · exact unref_dry s f

theorem release_refcount (hg : g ≠ f) : (s.release b f).refcount g = s.refcount g := by
  unfold Mem.release
  split
  · rfl
  · rw [unref_refcount, Function.update_of_ne hg]

theorem release_refcount_le (s : Mem) (f g : Frame) : (s.release b f).refcount g ≤ s.refcount g := by
  unfold Mem.release
  split
  · exact le_rfl
  · rw [unref_refcount]
    by_cases hg : g = f
    · subst hg
      rw [Function.update_self]
      omega
    · rw [Function.update_of_ne hg]

theorem swap_kind (hg : g ≠ f) : (G.swap b s f pi).kind g = G.kind g := by
  unfold Ghost.swap
  split
  · rfl
  · exact unref_kind G s hg

theorem swap_kind_ne_free (h : (G.swap b s f pi).kind g ≠ .free) :
    (G.swap b s f pi).kind g = G.kind g := by
  by_cases hg : g = f
  · subst hg
    unfold Ghost.swap at h ⊢
    split at h
    · rename_i hz
      rw [if_pos hz]
    · rename_i hz
      rw [if_neg hz]
      simp only [unref_kind_self] at h ⊢
      split at h
      · exact absurd rfl h
      · rename_i hr
        rw [if_neg hr]
  · exact swap_kind hg

theorem swap_kind_level (hf : f ≠ b.zero → G.kind f = .data) (hg : G.kind g ≠ .data) :
    (G.swap b s f pi).kind g = G.kind g := by
  by_cases hgf : g = f
  · subst hgf
    unfold Ghost.swap
    rw [if_pos (by_contra fun hz => hg (hf hz))]
  · exact swap_kind hgf

/-- **The entry of a page table is replaced.** -/
theorem Whole.swap (h : Whole b G s) (hu : (G.kind t).user i = true) (hl : (G.kind t).level = some 0)
    (hpi : G.kind e.frame = .data) (hx : 1 ≤ G.extra e.frame) :
    Good b (G.swap b s (s.entry t i).frame e.frame)
      ((s.release b (s.entry t i).frame).setEntry t i e) ∧
    Put b 0 t i e G s (G.swap b s (s.entry t i).frame e.frame)
      ((s.release b (s.entry t i).frame).setEntry t i e) ∧
    (Cow b G s → (e.isW = true → (s.release b (s.entry t i).frame).refcount e.frame = 1) →
      Sound b (G.swap b s (s.entry t i).frame e.frame)
        ((s.release b (s.entry t i).frame).setEntry t i e)) := by
  have hi := Kind.user_lt hu
  set f := (s.entry t i).frame with hf
  have hp : G.kind t = .root → i ≠ 0 := by
    intro hr
    rw [hr] at hl
    cases hl
  have hfd : f ≠ b.zero → G.kind f = .data := fun hz =>
    data_of_slot h.toGood hl (slot_eq_some.2 ⟨hu, by rw [h.off]; simp, hz, rfl⟩)
  have hpz : e.frame ≠ b.zero := by
    intro hz
    have := h.zero
    rw [← hz, hpi] at this
    cases this
  have hkid : (G.kind t).kid i = .data := Kind.kid_data hl i
  have hoff := h.toGood.offEntry h.off hi hp
  have hkt : (G.swap b s f e.frame).kind t = G.kind t :=
    swap_kind_level hfd (by intro e; rw [e] at hl; cases hl)
  have hgood : Good b (G.swap b s f e.frame) ((s.release b f).setEntry t i e) := by
    by_cases hz : f = b.zero
    · have hs : slot b G s t i = none := by
        unfold slot
        rw [if_neg fun hn => hn.2.2 hz]
      rw [hs] at hoff
      have := hoff.putEntry (e := e) rfl hu fun _ => ⟨hpi.trans hkid.symm, by simpa using hx⟩
      simp only [pointsTo_none, add_zero, if_neg hpz] at this
      unfold Ghost.swap Mem.release
      rw [if_pos hz, if_pos hz]
      exact this
    · have hs : slot b G s t i = some f := slot_eq_some.2 ⟨hu, by rw [h.off]; simp, hz, rfl⟩
      rw [hs] at hoff
      have hfx := h.extra_nonneg f (by rw [hfd hz]; simp)
      have hun := hoff.unref (f := f) (hfd hz) (by simp only [pointsTo_self]; omega)
      have hlive : e.frame = f → s.refcount f ≠ 1 := by
        intro hef hr
        have hc := h.count f
        have hpos := refCount_pos hi hs
        rw [rootRef, if_neg (by rw [hfd hz]; simp)] at hc
        rw [hef] at hx
        omega
      have := hun.putEntry (e := e) rfl ?_ fun _ => ⟨?_, ?_⟩
      · have hG : (⟨(Ghost.unref ⟨G.kind, fun g => G.extra g + pointsTo (some f) g, some (t, i)⟩ s f).kind,
            fun g => (Ghost.unref ⟨G.kind, fun g => G.extra g + pointsTo (some f) g,
              some (t, i)⟩ s f).extra g -
              pointsTo (if e.frame = b.zero then none else some e.frame) g, none⟩ : Ghost)
            = G.swap b s f e.frame := by
          ext g
          · unfold Ghost.swap
            rw [if_neg hz]
            rfl
          · simp only [Ghost.swap, Ghost.unref, if_neg hpz, one]
            ring
          · rfl
        rw [hG] at this
        unfold Mem.release
        rw [if_neg hz]
        exact this
      · have : (Ghost.unref ⟨G.kind, fun g => G.extra g + pointsTo (some f) g, some (t, i)⟩ s f).kind t
            = G.kind t := by
          rw [unref_kind]
          intro e
          rw [e, hfd hz] at hl
          cases hl
        rw [this]
        exact hu
      · rw [show (Ghost.unref ⟨G.kind, fun g => G.extra g + pointsTo (some f) g, some (t, i)⟩ s f).kind t
            = G.kind t from ?_, hkid]
        · by_cases hef : e.frame = f
          · rw [hef, unref_kind_self, if_neg (hlive hef)]
            exact hfd hz
          · rw [unref_kind _ _ hef]
            exact hpi
        · rw [unref_kind]
          intro e
          rw [e, hfd hz] at hl
          cases hl
      · simp only [Ghost.unref, one]
        omega
  have hself := setEntry_entry_self (s := s.release b f) (t := t) (e := e) hi
  have hsame : ∀ u j, j < 512 → (u ≠ t ∨ j ≠ i) →
      ((s.release b f).setEntry t i e).entry u j = s.entry u j := by
    intro u j hj hne
    rw [setEntry_entry_ne hi hj hne]
    exact entry_congr hj (by rw [release_page])
  have hpage : ∀ u, u ≠ t → ((s.release b f).setEntry t i e).page u = s.page u := by
    intro u hut
    rw [setEntry_page_ne hi hut, release_page]
  have hnd : ∀ {g m}, (G.kind g).level = some m → G.kind g ≠ .data := by
    rintro g m hg e
    rw [e] at hg
    cases hg
  have hzt : b.zero ≠ t := by
    intro e
    rw [← e, h.zero] at hl
    cases hl
  refine ⟨hgood, ⟨⟨?_, ?_, hpage _ hzt, ?_⟩, hself, fun j hj hne => hsame t j hj (.inr hne), hpage, ?_⟩,
    fun hcow hw => ?_⟩
  · intro g m hg _
    exact swap_kind_level hfd (hnd hg)
  · intro g m hg _
    exact (swap_kind_ne_free (Kind.ne_free hg)).symm
  · intro g m hg hm
    refine hpage g ?_
    rintro rfl
    rw [hg] at hl
    have := Option.some.inj hl
    omega
  · rw [setEntry_dry hi, release_dry]
  · refine (Sound.mk h hcow).of_put (t := t) (i := i) hgood rfl (fun u hul => ?_) (fun r hr => ?_)
      (fun u j hj hne => hsame u j (Kind.user_lt hj) hne) (fun hW => ?_) (fun g hg _ => ?_)
    · refine (swap_kind_ne_free fun e => hul ?_).symm
      rw [e]
      rfl
    · rw [swap_kind_level hfd (by rw [hr]; simp), hr]
    · rw [hself] at hW ⊢
      rw [setEntry_refcount hi]
      refine ⟨hpz, hw hW, ?_⟩
      by_cases hfr : (G.swap b s f e.frame).kind e.frame = .free
      · rw [hfr]
        rfl
      · rw [swap_kind_ne_free hfr, hpi]
        rfl
    · rw [setEntry_refcount hi]
      exact release_refcount_le s f g

/-! ## New references -/

/-- The state after the code has taken a page from the free list, with a reference, and filled it. -/
def Mem.filled (s : Mem) (pi : Frame) (pg : Page) : Mem :=
  ((s.taken pi).setRef pi ((s.taken pi).refcount pi + 1)).setPage pi pg

/-- The ghost state after the code has taken a reference to a page of user memory. -/
def Ghost.claim (G : Ghost) (pi : Frame) : Ghost :=
  (G.setKind pi .data).addExtra fun g => 1 * one pi g

theorem claim_kind (hg : g ≠ pi) : (G.claim pi).kind g = G.kind g := setKind_ne hg

@[simp] theorem claim_kind_self : (G.claim pi).kind pi = .data := setKind_self _

theorem claim_extra (G : Ghost) (pi g : Frame) : (G.claim pi).extra g = G.extra g + one pi g := by
  simp [Ghost.claim, Ghost.addExtra, Ghost.setKind]

theorem claim_kind_data (h : G.kind pi = .data) : (G.claim pi).kind = G.kind := by
  unfold Ghost.claim Ghost.addExtra Ghost.setKind
  rw [← h]
  exact Function.update_eq_self pi G.kind

/-- A page that gets its first reference becomes a page of user memory. -/
theorem Good.claim_held (h : Good b G s) (hk : G.kind pi = .held) (hv : pi ∈ b.avail)
    (hr : 0 ≤ s.refcount pi) :
    Good b (G.claim pi) (s.setRef pi (s.refcount pi + 1)) := by
  have hx := h.extra_nonneg pi (by rw [hk]; nofun)
  have h₁ := h.setRef (f := pi) (n := 1) (by rw [hk]; nofun) (fun _ => by omega)
    (by rw [hk]; exact False.elim)
  have h₂ := h₁.rekind (f := pi) (k := .data)
    (by rw [show (G.addExtra fun g => 1 * one pi g).kind pi = .held from hk]; exact id) rfl
    (fun _ => by simp only [Mem.setRef, Function.update_self]; omega) hv
  refine ⟨h₂, h₁.toListed.congr (fun g => ?_) (fun _ _ => rfl) rfl rfl⟩
  by_cases hg : g = pi
  · subst hg
    rw [claim_kind_self, show (G.addExtra fun g' => 1 * one g g').kind g = .held from hk]
    simp
  · rw [claim_kind hg]
    rfl

namespace Sound

/-- A page that nothing points to becomes a page of user memory. -/
theorem of_claim (h : Sound b G s) (hg : Good b (G.claim pi) s') (hk : ¬(G.kind pi).Used)
    (he : ∀ u j, j < 512 → u ≠ pi → s'.entry u j = s.entry u j)
    (hr : ∀ g, g ≠ pi → s'.refcount g = s.refcount g) : Sound b (G.claim pi) s' := by
  have hne : ∀ {u j}, ((G.claim pi).kind u).user j = true → u ≠ pi ∧ (G.kind u).user j = true := by
    intro u j hu
    have hup : u ≠ pi := by
      rintro rfl
      rw [claim_kind_self] at hu
      cases hu
    exact ⟨hup, by rwa [claim_kind hup] at hu⟩
  refine ⟨⟨hg, h.off⟩, hg.cow (G := G) (s := s) (fun r hr' => ?_) (fun u j f hs hW => .inl ?_)
    (fun f hf _ hr' => ?_) (fun u j hj hW => ?_)⟩
  · have hrp : r ≠ pi := by
      rintro rfl
      rw [claim_kind_self] at hr'
      cases hr'
    rwa [claim_kind hrp] at hr'
  · obtain ⟨h₁, -, h₃, h₄⟩ := slot_eq_some.1 hs
    obtain ⟨hup, hu⟩ := hne h₁
    rw [he u j (slot_lt hs) hup] at h₃ h₄ hW
    exact ⟨slot_eq_some.2 ⟨hu, by rw [h.off]; nofun, h₃, h₄⟩, hW⟩
  · have hfp : f ≠ pi := by
      rintro rfl
      exact hk (hf.used h.toCounted)
    rw [hr f hfp, h.single f hf (by rwa [claim_kind hfp] at hr')]
  · obtain ⟨hup, hu⟩ := hne hj
    rw [he u j (Kind.user_lt hj) hup] at hW ⊢
    rw [claim_kind hup]
    exact h.entries hu hW

theorem claim_held (h : Sound b G s) (hk : G.kind pi = .held) (hv : pi ∈ b.avail) :
    Sound b (G.claim pi) (s.setRef pi (s.refcount pi + 1)) := by
  have hr : 0 ≤ s.refcount pi := by
    rw [h.refcount_unused (by rw [hk]; exact id)]
    exact h.extra_nonneg pi (by rw [hk]; nofun)
  refine h.of_claim (h.toGood.claim_held hk hv hr) (by rw [hk]; exact id) (fun u j hj _ => rfl) ?_
  intro g hg
  simp [Mem.setRef, Function.update_of_ne hg]

theorem filled (h : Sound b G s) (hf : s.freelist = some pi) (pg : Page) :
    G.kind pi = .free ∧ s.refcount pi = 0 ∧ Sound b (G.claim pi) (s.filled pi pg) := by
  obtain ⟨hk, hv, hr, hg⟩ := h.toGood.taken hf
  refine ⟨hk, hr, ?_⟩
  have h₁ := hg.claim_held (setKind_self (f := pi) _) hv (by rw [show (s.taken pi).refcount pi
    = s.refcount pi from rfl, hr])
  have hG : (G.setKind pi .held).claim pi = G.claim pi := by
    unfold Ghost.claim Ghost.setKind
    simp only [Function.update_idem]
  rw [hG] at h₁
  have h₂ : Good b (G.claim pi) (s.filled pi pg) :=
    ⟨h₁.toCounted.setPage_plain (by rw [claim_kind_self]; rfl) pg,
      h₁.toListed.congr (fun _ => Iff.rfl) (fun _ _ => rfl) rfl rfl⟩
  refine h.of_claim h₂ (by rw [hk]; exact id) (fun u j hj hup => ?_) fun g hgp => ?_
  · exact setPage_entry_ne hj hup
  · simp [Mem.filled, Mem.setPage, Mem.setRef, Mem.taken, Function.update_of_ne hgp]

end Sound

theorem filled_page (s : Mem) (pi : Frame) (pg : Page) :
    (s.filled pi pg).page = Function.update s.page pi pg := rfl

theorem filled_refcount (s : Mem) (pi : Frame) (pg : Page) :
    (s.filled pi pg).refcount = Function.update s.refcount pi (s.refcount pi + 1) := rfl

/-- Nothing sees a page that nothing points to. -/
theorem Whole.viewAt_unused (h : Whole b G s) (hk : ¬(G.kind pi).Used) (hz : pi ≠ b.zero)
    (hp : ∀ u, u ≠ pi → s'.page u = s.page u) (hl : (G.kind g).level = some l)
    (hm : (G.kind g).maps va) : viewAt b s' va l g = viewAt b s va l g := by
  refine viewAt_congr h (fun _ => True) (hp _ (Ne.symm hz)) (fun u m _ hu => hp u ?_)
    (fun u j f _ hs _ => hp f ?_) (fun _ _ _ _ _ _ => trivial) hl hm trivial
  · rintro rfl
    cases hk' : G.kind u <;> simp_all [Kind.Used, Kind.level]
  · rintro rfl
    exact hk (h.slot_used hs)

/-! ## Sharing an entry -/

theorem Sound.not_wreach (h : Sound b G s) (hs : slot b G s st si = some f)
    (hw : (s.entry st si).isW = false) : ¬WReach b G s f := by
  have hr : G.kind f ≠ .root := by
    rw [h.typed hs]
    exact Kind.kid_ne_root _ _
  intro hf
  have h₁ := h.single f hf hr
  cases hf with
  | root hr' => exact hr hr'
  | step ht hs' hW =>
    obtain ⟨rfl, rfl⟩ := h.single_slot h₁ hs' hs
    rw [hw] at hW
    cases hW

/-- The state after an entry has been shared. -/
def Mem.shared (s : Mem) (dt : Frame) (di : ℕ) (e : Pte) : Mem :=
  (s.setEntry dt di e).setRef e.frame ((s.setEntry dt di e).refcount e.frame + 1)

/-- An entry that is not writeable is copied to one that leads nowhere. -/
theorem Sound.share (h : Sound b G s) (hu : (G.kind dt).user di = true)
    (hl : (G.kind dt).level = some l) (hp : G.kind dt = .root → di ≠ 0)
    (hz : (s.entry dt di).frame = b.zero) (hs : slot b G s st si = some e.frame)
    (hk : G.kind e.frame = .below l) (he : s.entry st si = e) (hw : e.isW = false) :
    Sound b G (s.shared dt di e) ∧ Put b l dt di e G s G (s.shared dt di e) := by
  have hi := Kind.user_lt hu
  have hez : e.frame ≠ b.zero := by
    intro e'
    have := h.zero
    rw [← e', hk] at this
    exact (Kind.below_ne l).2.2.1 this
  have hslot : slot b G s dt di = none := by
    unfold slot
    rw [if_neg fun hn => hn.2.2 hz]
  have h₁ := h.toGood.setRef (f := e.frame) (n := 1) (by rw [hk]; exact (Kind.below_ne l).2.2.2)
    (fun hr => by have := h.extra_nonneg _ hr; omega)
    (fun hu' hr => by have := h.alive _ hu' hr; omega)
  have h₂ := h₁.offEntry (t := dt) (i := di) h.off hi hp
  rw [show slot b (G.addExtra fun g => 1 * one e.frame g) (s.setRef e.frame (s.refcount e.frame + 1))
    dt di = none from hslot] at h₂
  have h₃ := h₂.putEntry (e := e) rfl hu fun _ => ⟨hk.trans (Kind.kid_eq_below hl hp).symm, ?_⟩
  · have hG : (⟨G.kind, fun g => (G.extra g + 1 * one e.frame g + pointsTo none g) -
        pointsTo (if e.frame = b.zero then none else some e.frame) g, none⟩ : Ghost) = G := by
      ext g
      · rfl
      · simp only [if_neg hez, pointsTo_none, one]
        ring
      · simp [h.off]
    have hgood : Good b G (s.shared dt di e) := by
      rw [← hG]
      exact h₃
    have hself : (s.shared dt di e).entry dt di = e := setEntry_entry_self hi
    have hsame : ∀ u j, j < 512 → (u ≠ dt ∨ j ≠ di) → (s.shared dt di e).entry u j = s.entry u j :=
      fun u j hj hne => setEntry_entry_ne hi hj hne
    have hpage : ∀ u, u ≠ dt → (s.shared dt di e).page u = s.page u :=
      fun u hut => setEntry_page_ne hi hut
    have hzt : b.zero ≠ dt := by
      intro e'
      rw [← e', h.zero] at hl
      cases hl
    refine ⟨h.of_put (t := dt) (i := di) hgood h.off (fun _ _ => rfl) (fun _ hr => hr)
      (fun u j hj hne => hsame u j (Kind.user_lt hj) hne) (fun hW => ?_) (fun g hg _ => ?_),
      ⟨⟨fun _ _ _ _ => rfl, fun _ _ _ _ => rfl, hpage _ hzt, fun g m hg hm => hpage g ?_⟩, hself,
        fun j hj hne => hsame dt j hj (.inr hne), hpage,
        setEntry_dry (s := s) (t := dt) (e := e) hi⟩⟩
    · rw [hself, hw] at hW
      cases hW
    · have hge : g ≠ e.frame := by
        rintro rfl
        exact h.not_wreach hs (by rw [he]; exact hw) hg
      simp only [Mem.shared, Mem.setRef, Function.update_of_ne hge]
      rw [setEntry_refcount hi]
    · rintro rfl
      rw [hg] at hl
      have := Option.some.inj hl
      omega
  · have := h.extra_nonneg e.frame (by rw [hk]; exact (Kind.below_ne l).1)
    simp only [Ghost.addExtra, one_self, pointsTo_none]
    omega

/-! ## Writing to a page -/

theorem Whole.setData (h : Whole b G s) (hk : G.kind f = .data) (pg : Page) :
    Whole b G (s.setPage f pg) :=
  ⟨⟨h.toCounted.setPage_plain (by rw [hk]; rfl) pg,
    h.toListed.congr (fun _ => Iff.rfl) (fun _ _ => rfl) rfl rfl⟩, h.off⟩

/-- Writing to a page of user memory. -/
theorem Sound.setData (h : Sound b G s) (hk : G.kind f = .data) (pg : Page) :
    Sound b G (s.setPage f pg) := by
  have hw := h.toWhole.setData hk pg
  have he : ∀ {u j}, (G.kind u).user j = true → (s.setPage f pg).entry u j = s.entry u j := by
    intro u j hj
    refine setPage_entry_ne (Kind.user_lt hj) ?_
    rintro rfl
    rw [hk] at hj
    cases hj
  refine ⟨hw, hw.toGood.cow (G := G) (s := s) (fun _ => id) (fun u j g hs hW => .inl ?_)
    (fun g hg _ hr => (h.single g hg hr).le) (fun u j hj hW => ?_)⟩
  · obtain ⟨h₁, h₂, h₃, h₄⟩ := slot_eq_some.1 hs
    rw [he h₁] at h₃ h₄ hW
    exact ⟨slot_eq_some.2 ⟨h₁, h₂, h₃, h₄⟩, hW⟩
  · rw [he hj] at hW ⊢
    exact h.entries hj hW

/-- Only the table with the one entry for a page sees what is written to it. -/
theorem Whole.setData_acts (h : Whole b G s) (hl : (G.kind t).level = some 0)
    (hs : slot b G s t i = some f) (hr : s.refcount f = 1) (pg : Page) :
    Acts b 0 t (fun va v v' => v' = if pdx 0 va = i then { v with page := pg } else v) G s G
      (s.setPage f pg) := by
  have hkf : G.kind f = .data := data_of_slot h.toGood hl hs
  have hpage : ∀ u, u ≠ f → (s.setPage f pg).page u = s.page u := fun u hu => by
    simp [Mem.setPage, Function.update_of_ne hu]
  have hlevel : ∀ {u m}, (G.kind u).level = some m → u ≠ f := by
    rintro u m hu rfl
    rw [hkf] at hu
    cases hu
  have hz : (s.setPage f pg).page b.zero = s.page b.zero := by
    refine hpage _ fun e => ?_
    have := h.zero
    rw [e, hkf] at this
    cases this
  refine ⟨⟨fun _ _ _ _ => rfl, fun _ _ _ _ => rfl, hz, fun g m hg _ => hpage g (hlevel hg)⟩, ?_, ?_⟩
  · intro g va hg hne hm
    rw [viewAt_eq h hl hz (fun u m _ hu => hpage u (hlevel hu)) (fun u j f' hu hs' _ => hpage f' ?_) hg
      hm (.inr ⟨hne, rfl⟩)]
    · exact View.Keeps.refl _
    · rintro rfl
      exact hu (h.single_slot hr hs' hs).1
  · intro va hm
    have he : (s.setPage f pg).entry t (pdx 0 va) = s.entry t (pdx 0 va) :=
      setPage_entry_ne (pdx_lt 0 va) (hlevel hl)
    by_cases hi : pdx 0 va = i
    · have hf : (s.entry t (pdx 0 va)).frame = f := by
        rw [hi]
        exact (slot_eq_some.1 hs).2.2.2
      rw [if_pos hi]
      simp only [viewAt, he, hf]
      simp [Mem.setPage]
    · rw [if_neg hi]
      refine viewAt_entry hz he (fun _ hzf => hpage _ fun e => hi ?_) (by simp)
      have hs' := h.slot_maps hl hm hzf
      rw [e] at hs'
      exact (h.single_slot hr hs' hs).2

end Determinator
