import Determinator.Pmap.Invariant

/-!
# Moves

What the assignments of the page-map code do to the invariant: taking a page from the free list and
putting it back, changing a reference count, writing a page or an entry, and turning a page into a
table or a table into a page.
-/

set_option linter.unusedSectionVars false

namespace Determinator

variable {b : Boot} {G G' : Ghost} {s s' : Mem} {t u f g : Frame} {i j : ℕ} {k : Kind}

/-! ## The free list -/

theorem Listed.congr (h : Listed G s) (hk : ∀ g, G'.kind g = .free ↔ G.kind g = .free)
    (hx : ∀ g, G.kind g = .free → G'.extra g = G.extra g) (hn : s'.freeNext = s.freeNext)
    (hl : s'.freelist = s.freelist) : Listed G' s' := by
  refine ⟨?_, ?_, ?_⟩
  · obtain ⟨l, hc, hnd, hmem⟩ := h.freeList
    refine ⟨l, ?_, hnd, fun g => (hmem g).trans (hk g).symm⟩
    rw [hn, hl]
    exact hc
  · intro g hg
    rw [hn]
    exact h.unlinked g fun e => hg ((hk g).2 e)
  · intro g hg
    have hg' := (hk g).1 hg
    rw [hx g hg']
    exact h.extra_free g hg'

theorem Listed.taken (h : Listed G s) (hf : s.freelist = some f) :
    G.kind f = .free ∧ Listed (G.setKind f .held) (s.taken f) := by
  obtain ⟨l, hl, hnd, hmem⟩ := h.freeList
  cases l with
  | nil =>
    rw [hf] at hl
    cases hl
  | cons a l =>
    obtain ⟨ha, hl'⟩ := hl
    obtain rfl : f = a := Option.some.inj (hf.symm.trans ha)
    have hfl : f ∉ l := (List.nodup_cons.1 hnd).1
    refine ⟨(hmem f).1 List.mem_cons_self, ?_, ?_, ?_⟩
    · refine ⟨l, hl'.update hfl none, (List.nodup_cons.1 hnd).2, fun g => ?_⟩
      by_cases hg : g = f
      · subst hg
        simp [Ghost.setKind, hfl]
      · simp [Ghost.setKind, hg, ← hmem g]
    · intro g hg
      by_cases hgf : g = f
      · subst hgf
        simp [Mem.taken]
      · simp only [Ghost.setKind, Function.update_of_ne hgf] at hg
        simp only [Mem.taken, Function.update_of_ne hgf]
        exact h.unlinked g hg
    · intro g hg
      by_cases hgf : g = f
      · subst hgf
        simp [Ghost.setKind] at hg
      · simp only [Ghost.setKind, Function.update_of_ne hgf] at hg ⊢
        exact h.extra_free g hg

theorem Listed.given (h : Listed G s) (hf : G.kind f ≠ .free) (hx : G.extra f = 0) :
    Listed (G.setKind f .free) (s.given f) := by
  obtain ⟨l, hl, hnd, hmem⟩ := h.freeList
  have hfl : f ∉ l := fun e => hf ((hmem f).1 e)
  refine ⟨?_, ?_, ?_⟩
  · refine ⟨f :: l, ⟨rfl, ?_⟩, List.nodup_cons.2 ⟨hfl, hnd⟩, fun g => ?_⟩
    · simp only [Mem.given, Function.update_self]
      exact hl.update hfl s.freelist
    · by_cases hg : g = f
      · subst hg
        simp [Ghost.setKind]
      · simp [Ghost.setKind, hg, ← hmem g]
  · intro g hg
    by_cases hgf : g = f
    · subst hgf
      simp [Ghost.setKind] at hg
    · simp only [Ghost.setKind, Function.update_of_ne hgf] at hg
      simp only [Mem.given, Function.update_of_ne hgf]
      exact h.unlinked g hg
  · intro g hg
    by_cases hgf : g = f
    · subst hgf
      exact hx
    · simp only [Ghost.setKind, Function.update_of_ne hgf] at hg ⊢
      exact h.extra_free g hg

/-! ## The counts -/

namespace Counted

/-- The counts depend on the user entries and the reference counts only. -/
theorem congr (h : Counted b G s) (he : ∀ t i, (G.kind t).user i = true →
      (s'.entry t i).frame = (s.entry t i).frame)
    (hw : ∀ r, G.kind r = .root → (s'.entry r 0).isW = (s.entry r 0).isW)
    (hr : s'.refcount = s.refcount) : Counted b G s' := by
  have hslot : slot b G s' = slot b G s := by
    funext t i
    unfold slot
    by_cases hu : (G.kind t).user i = true
    · rw [he t i hu]
    · simp [hu]
  refine ⟨?_, ?_, ?_, h.extra_nonneg, h.avail, h.levels, h.zero, ?_⟩
  · intro t i f hs
    rw [hslot] at hs
    exact h.typed hs
  · intro f
    rw [hslot, hr]
    exact h.count f
  · intro f hf hroot
    rw [hr]
    exact h.alive f hf hroot
  · intro r hk
    have h0 : (G.kind r).user 0 = true := by rw [hk]; rfl
    rw [he r 0 h0, hw r hk]
    exact h.pinned r hk

/-- Writing to a page that is not a table. -/
theorem setPage_plain (h : Counted b G s) (hf : (G.kind f).level = none) (pg : Page) :
    Counted b G (s.setPage f pg) := by
  have hne : ∀ t i, (G.kind t).user i = true → t ≠ f := by
    rintro t i hu rfl
    rw [Kind.not_user_of_level hf] at hu
    cases hu
  refine h.congr ?_ ?_ rfl
  · intro t i hu
    rw [setPage_entry_ne (Kind.user_lt hu) (hne t i hu)]
  · intro r hr
    have h0 : (G.kind r).user 0 = true := by rw [hr]; rfl
    rw [setPage_entry_ne (by decide) (hne r 0 h0)]

/-- Changing flags in a table below the root. -/
theorem setPage_flags (h : Counted b G s) (hr : G.kind f ≠ .root) {pg : Page}
    (hpg : ∀ i < 512, (pg (Fin.ofNat 512 i)).frame = (s.entry f i).frame) :
    Counted b G (s.setPage f pg) := by
  refine h.congr ?_ ?_ rfl
  · intro t i hu
    by_cases ht : t = f
    · subst ht
      rw [setPage_entry_self (Kind.user_lt hu), hpg i (Kind.user_lt hu)]
    · rw [setPage_entry_ne (Kind.user_lt hu) ht]
  · intro r hk
    have hne : r ≠ f := by
      rintro rfl
      exact hr hk
    rw [setPage_entry_ne (by decide) hne]

/-- Changing the flags of an entry. -/
theorem setEntry_flags (h : Counted b G s) (hu : (G.kind t).user i = true) {e : Pte}
    (he : e.frame = (s.entry t i).frame)
    (hw : G.kind t = .root → i = 0 → e.isW = true) : Counted b G (s.setEntry t i e) := by
  have hi := Kind.user_lt hu
  refine h.congr ?_ ?_ ?_
  · intro u j huj
    by_cases hne : u ≠ t ∨ j ≠ i
    · rw [setEntry_entry_ne hi (Kind.user_lt huj) hne]
    · obtain ⟨rfl, rfl⟩ : u = t ∧ j = i := by
        push Not at hne
        exact hne
      rw [setEntry_entry_self hi, he]
  · intro r hr
    by_cases hne : r ≠ t ∨ (0 : ℕ) ≠ i
    · rw [setEntry_entry_ne hi (by decide) hne]
    · obtain ⟨rfl, rfl⟩ : r = t ∧ 0 = i := by
        push Not at hne
        exact hne
      rw [setEntry_entry_self hi, hw hr rfl, (h.pinned r hr).2.1]
  · rw [setEntry_page hi]
    rfl

/-- Changing a reference count along with the references that are held. -/
theorem setRef (h : Counted b G s) {n : ℤ} (hx : G.kind f ≠ .root → 0 ≤ G.extra f + n)
    (ha : (G.kind f).Used → G.kind f ≠ .root → 0 < s.refcount f + n) :
    Counted b (G.addExtra fun g => n * one f g) (s.setRef f (s.refcount f + n)) := by
  have hslot : slot b (G.addExtra fun g => n * one f g) (s.setRef f (s.refcount f + n))
      = slot b G s := rfl
  refine ⟨?_, ?_, ?_, ?_, h.avail, h.levels, h.zero, h.pinned⟩
  · intro t i g hs
    rw [hslot] at hs
    exact h.typed hs
  · intro g
    rw [hslot]
    have hc := h.count g
    by_cases hg : g = f
    · subst hg
      simp only [Mem.setRef, Function.update_self, Ghost.addExtra, one_self]
      omega
    · simp only [Mem.setRef, Function.update_of_ne hg, Ghost.addExtra, one_ne hg]
      omega
  · intro g hg hroot
    by_cases hgf : g = f
    · subst hgf
      simp only [Mem.setRef, Function.update_self]
      exact ha hg hroot
    · simp only [Mem.setRef, Function.update_of_ne hgf]
      exact h.alive g hg hroot
  · intro g hroot
    have hn := h.extra_nonneg g hroot
    by_cases hg : g = f
    · subst hg
      have := hx hroot
      simp only [Ghost.addExtra, one_self]
      omega
    · simp only [Ghost.addExtra, one_ne hg]
      omega

/-- An entry stops to count; its reference is held instead. -/
theorem takeOff (h : Counted b G s) (ho : G.off = none) (hi : i < 512)
    (hp : G.kind t = .root → i ≠ 0) :
    Counted b ⟨G.kind, fun g => G.extra g + pointsTo (slot b G s t i) g, some (t, i)⟩ s := by
  set G' : Ghost := ⟨G.kind, fun g => G.extra g + pointsTo (slot b G s t i) g, some (t, i)⟩ with hG'
  have hself : slot b G' s t i = none := by simp [slot, hG']
  have hother : ∀ u j, (u ≠ t ∨ j ≠ i) → slot b G' s u j = slot b G s u j := by
    intro u j hne
    have : ¬(t = u ∧ i = j) := fun e => hne.elim (fun h => h e.1.symm) fun h => h e.2.symm
    simp [slot, hG', ho, this]
  refine ⟨?_, ?_, h.alive, ?_, h.avail, h.levels, h.zero, ?_⟩
  · intro u j g hs
    by_cases hne : u ≠ t ∨ j ≠ i
    · rw [hother u j hne] at hs
      exact h.typed hs
    · obtain ⟨rfl, rfl⟩ : u = t ∧ j = i := by
        push Not at hne
        exact hne
      rw [hself] at hs
      cases hs
  · intro g
    have hc := h.count g
    have hslot : refCount 512 (slot b G' s) g = refCount 512 (slot b G s) g -
        pointsTo (slot b G s t i) g + pointsTo (slot b G' s t i) g :=
      refCount_slot hi fun u j _ hne => hother u j hne
    rw [hself, pointsTo_none] at hslot
    simp only [hG'] at hslot ⊢
    omega
  · intro g hroot
    have hn := h.extra_nonneg g hroot
    have hp := pointsTo_nonneg (slot b G s t i) g
    simp only [hG']
    omega
  · intro r hr
    obtain ⟨h₁, h₂, -⟩ := h.pinned r hr
    refine ⟨h₁, h₂, ?_⟩
    simp only [hG', ne_eq, Option.some.injEq, Prod.mk.injEq, not_and]
    rintro rfl
    exact hp hr

/-- The entry is written, and counts again. -/
theorem putBack (h : Counted b G s) (ho : G.off = some (t, i)) (hu : (G.kind t).user i = true)
    {e : Pte} (hk : e.frame ≠ b.zero → G.kind e.frame = (G.kind t).kid i ∧ 1 ≤ G.extra e.frame) :
    Counted b ⟨G.kind, fun g => G.extra g -
      pointsTo (if e.frame = b.zero then none else some e.frame) g, none⟩ (s.setEntry t i e) := by
  have hi := Kind.user_lt hu
  set o : Option Frame := if e.frame = b.zero then none else some e.frame with hodef
  set G' : Ghost := ⟨G.kind, fun g => G.extra g - pointsTo o g, none⟩ with hG'
  have hself : slot b G' (s.setEntry t i e) t i = o := by
    unfold slot
    rw [setEntry_entry_self hi, hodef]
    by_cases hz : e.frame = b.zero
    · simp [hz]
    · simp [hz, hG', hu]
  have hold : slot b G s t i = none := by simp [slot, ho]
  have hother : ∀ u j, j < 512 → (u ≠ t ∨ j ≠ i) →
      slot b G' (s.setEntry t i e) u j = slot b G s u j := by
    intro u j hj hne
    have : ¬(t = u ∧ i = j) := fun e => hne.elim (fun h => h e.1.symm) fun h => h e.2.symm
    simp [slot, hG', ho, this, setEntry_entry_ne hi hj hne]
  have hroot : ∀ r, G.kind r = .root → r ≠ t ∨ (0 : ℕ) ≠ i := by
    intro r hr
    by_contra hne
    push Not at hne
    obtain ⟨rfl, rfl⟩ := hne
    exact (h.pinned r hr).2.2 ho
  refine ⟨?_, ?_, ?_, ?_, h.avail, h.levels, h.zero, ?_⟩
  · intro u j g hs
    by_cases hne : u ≠ t ∨ j ≠ i
    · rw [hother u j (slot_lt hs) hne] at hs
      exact h.typed hs
    · obtain ⟨rfl, rfl⟩ : u = t ∧ j = i := by
        push Not at hne
        exact hne
      rw [hself, hodef] at hs
      by_cases hz : e.frame = b.zero
      · simp [hz] at hs
      · rw [if_neg hz] at hs
        rw [← Option.some.inj hs]
        exact (hk hz).1
  · intro g
    have hc := h.count g
    have hslot : refCount 512 (slot b G' (s.setEntry t i e)) g = refCount 512 (slot b G s) g -
        pointsTo (slot b G s t i) g + pointsTo (slot b G' (s.setEntry t i e) t i) g :=
      refCount_slot hi fun u j hj hne => hother u j hj hne
    have href : (s.setEntry t i e).refcount g = s.refcount g := by
      rw [setEntry_page hi]
      rfl
    rw [hold, hself, pointsTo_none] at hslot
    rw [href]
    simp only [hG'] at hslot ⊢
    omega
  · intro g hg hr
    have href : (s.setEntry t i e).refcount g = s.refcount g := by
      rw [setEntry_page hi]
      rfl
    rw [href]
    exact h.alive g hg hr
  · intro g hr
    have hn := h.extra_nonneg g hr
    simp only [hG', hodef]
    by_cases hz : e.frame = b.zero
    · simp [hz, hn]
    · rw [if_neg hz]
      by_cases hg : g = e.frame
      · subst hg
        rw [pointsTo_self]
        have := (hk hz).2
        omega
      · rw [show pointsTo (some e.frame) g = 0 from one_ne hg]
        omega
  · intro r hr
    obtain ⟨h₁, h₂, -⟩ := h.pinned r hr
    rw [setEntry_entry_ne hi (by decide) (hroot r hr)]
    exact ⟨h₁, h₂, by simp [hG']⟩

/-- A page nobody points to is put to another use. -/
theorem setKind (h : Counted b G s) (hptr : ∀ t i, slot b G s t i ≠ some f) {x : Frame → ℤ}
    (hx : ∀ g, x g = tableCount 512 (slot b G s) f g
      - tableCount 512 (slot b (G.setKind f k) s) f g
      + (if g = f then rootRef (G.kind f) - rootRef k else 0))
    (hkids : ∀ i g, slot b (G.setKind f k) s f i = some g → g ≠ f ∧ G.kind g = k.kid i)
    (hn : ∀ g, (G.setKind f k).kind g ≠ .root → 0 ≤ G.extra g + x g)
    (ha : k.Used → k ≠ .root → 0 < s.refcount f)
    (hv : k ≠ .held → f ∈ b.avail) (hl : ∀ l, k = .table l → l ≤ 2) (hz : f ≠ b.zero)
    (hp : k = .root → (s.entry f 0).frame ≠ b.zero ∧ (s.entry f 0).isW = true ∧
      G.off ≠ some (f, 0)) :
    Counted b ((G.setKind f k).addExtra x) s := by
  set G' := (G.setKind f k).addExtra x with hG'
  have hself : G'.kind f = k := by simp [hG', Ghost.setKind, Ghost.addExtra]
  have hne : ∀ {g}, g ≠ f → G'.kind g = G.kind g := fun hg => by
    simp [hG', Ghost.setKind, Ghost.addExtra, Function.update_of_ne hg]
  have hslot' : slot b G' s = slot b (G.setKind f k) s := rfl
  have hother : ∀ u, u ≠ f → ∀ j < 512, slot b G' s u j = slot b G s u j := by
    intro u hu j _
    unfold slot
    rw [hne hu]
    rfl
  refine ⟨?_, ?_, ?_, hn, ?_, ?_, ?_, ?_⟩
  · intro u j g hs
    by_cases hu : u = f
    · subst hu
      obtain ⟨hg, hkg⟩ := hkids j g hs
      rw [hne hg, hself]
      exact hkg
    · rw [hother u hu j (slot_lt hs)] at hs
      have hg : g ≠ f := by
        rintro rfl
        exact hptr u j hs
      rw [hne hg, hne hu]
      exact h.typed hs
  · intro g
    have hc := h.count g
    have ht : refCount 512 (slot b G' s) g = refCount 512 (slot b G s) g -
        tableCount 512 (slot b G s) f g + tableCount 512 (slot b G' s) f g := refCount_table hother
    have hxg := hx g
    have hext : G'.extra g = G.extra g + x g := rfl
    rw [hslot'] at ht ⊢
    by_cases hg : g = f
    · subst hg
      rw [hself, hext]
      simp only [if_true] at hxg
      omega
    · rw [hne hg, hext]
      simp only [hg, if_false] at hxg
      omega
  · intro g hg hr
    by_cases hgf : g = f
    · subst hgf
      rw [hself] at hg hr
      exact ha hg hr
    · rw [hne hgf] at hg hr
      exact h.alive g hg hr
  · intro g hg
    by_cases hgf : g = f
    · subst hgf
      rw [hself] at hg
      exact hv hg
    · rw [hne hgf] at hg
      exact h.avail g hg
  · intro g l hg
    by_cases hgf : g = f
    · subst hgf
      rw [hself] at hg
      exact hl l hg
    · rw [hne hgf] at hg
      exact h.levels g l hg
  · rw [hne (Ne.symm hz)]
    exact h.zero
  · intro r hr
    by_cases hrf : r = f
    · subst hrf
      rw [hself] at hr
      exact hp hr
    · rw [hne hrf] at hr
      exact h.pinned r hr

/-- The same, for a page that has no entries before or after. -/
theorem rekind (h : Counted b G s) (hptr : ∀ t i, slot b G s t i ≠ some f)
    (hold : ∀ i, slot b G s f i = none) (hnew : ∀ i, slot b (G.setKind f k) s f i = none)
    (hr : G.kind f ≠ .root) (hk : k ≠ .root) (ha : k.Used → 0 < s.refcount f)
    (hv : k ≠ .held → f ∈ b.avail) (hl : ∀ l, k = .table l → l ≤ 2) (hz : f ≠ b.zero) :
    Counted b (G.setKind f k) s := by
  have hc := h.setKind (k := k) (x := fun _ => 0) hptr ?_ ?_ (fun g hg => ?_)
    (fun hu _ => ha hu) hv hl hz fun e => absurd e hk
  · have hG : (G.setKind f k).addExtra (fun _ => 0) = G.setKind f k := by
      ext g <;> simp [Ghost.addExtra]
    rwa [hG] at hc
  · intro g
    have h₁ : tableCount 512 (slot b G s) f g = 0 :=
      Finset.sum_eq_zero fun i _ => by rw [hold, pointsTo_none]
    have h₂ : tableCount 512 (slot b (G.setKind f k) s) f g = 0 :=
      Finset.sum_eq_zero fun i _ => by rw [hnew, pointsTo_none]
    simp [h₁, h₂, rootRef, hr, hk]
  · intro i g hs
    rw [hnew] at hs
    cases hs
  · by_cases hgf : g = f
    · rw [hgf, add_zero]
      exact h.extra_nonneg f hr
    · rw [add_zero]
      refine h.extra_nonneg g fun e => hg ?_
      rw [← e]
      simp [Ghost.setKind, Function.update_of_ne hgf]

end Counted

end Determinator
