import Determinator.Pmap.Operations

/-!
# New page maps

`pmap_newpmap` takes two pages from the free list: the new root, and the table of the first 512GB. The
user part of the new page map is empty.
-/

namespace Determinator

open PanicM

variable {b : Boot} {G : Ghost} {s : Mem} {f g p r t u : Frame} {i l va : ℕ}

/-- The state after the code has taken a page from the free list, with a reference. -/
def Mem.grab (s : Mem) (f : Frame) : Mem := (s.taken f).setRef f ((s.taken f).refcount f + 1)

/-- The ghost state after that. -/
def Ghost.grab (G : Ghost) (f : Frame) : Ghost := (G.setKind f .held).addExtra fun g => 1 * one f g

theorem grab_kind (h : g ≠ f) : (G.grab f).kind g = G.kind g := setKind_ne h

theorem grab_kind_self : (G.grab f).kind f = .held := setKind_self _

theorem grab_extra (g : Frame) : (G.grab f).extra g = G.extra g + one f g := by
  simp [Ghost.grab, Ghost.addExtra, Ghost.setKind]

theorem Good.grab (h : Good b G s) (hf : s.freelist = some f) :
    G.kind f = .free ∧ f ∈ b.avail ∧ s.refcount f = 0 ∧ G.extra f = 0 ∧ Good b (G.grab f) (s.grab f) := by
  obtain ⟨hk, hv, hr, hg⟩ := h.taken hf
  have hx := h.extra_free f hk
  refine ⟨hk, hv, hr, hx, hg.setRef (by rw [setKind_self]; nofun) (fun _ => ?_) fun hu => ?_⟩
  · change 0 ≤ G.extra f + 1
    omega
  · rw [setKind_self] at hu
    exact hu.elim

/-- Writing to a page that is not a table. -/
theorem Good.setPage_plain (h : Good b G s) (hf : (G.kind f).level = none) (pg : Page) :
    Good b G (s.setPage f pg) :=
  ⟨h.toCounted.setPage_plain hf pg, h.toListed.congr (fun _ => Iff.rfl) (fun _ _ => rfl) rfl rfl⟩

/-- The contents of a new root. -/
def newPml4 (b : Boot) (r p : Frame) : Page :=
  Function.update (Function.update b.bootpmap 0 (.mk' p tableFlags)) pml4SelfOffset (.mk' r (pteP ||| pteW))

/-- The state after a page map has been made of two pages. -/
def Mem.newpmap (b : Boot) (s : Mem) (r p : Frame) : Mem :=
  (((s.grab r).grab p).setPage r (newPml4 b r p)).setPage p b.bootpdp

/-- The ghost state after that. -/
def Ghost.newpmap (G : Ghost) (r p : Frame) : Ghost := (G.setKind p .low).setKind r .root

section

theorem newpmap_entry_low (i : Fin 512) : (s.newpmap b r p).entry p i = b.bootpdp i := by
  unfold Mem.newpmap
  rw [setPage_entry_self i.isLt]
  congr 1
  apply Fin.ext
  simp [Fin.ofNat, Nat.mod_eq_of_lt i.isLt]

theorem newpmap_low_user (h₁ : 0 < i) (h₂ : i < 512) : (s.newpmap b r p).entry p i = zeroEntry b.zero := by
  have h := newpmap_entry_low (b := b) (s := s) (r := r) (p := p) ⟨i, h₂⟩
  rw [b.bootpdp_user ⟨i, h₂⟩ h₁] at h
  exact h

variable (hne : r ≠ p)

include hne

theorem newpmap_entry_root (i : Fin 512) : (s.newpmap b r p).entry r i = newPml4 b r p i := by
  unfold Mem.newpmap
  rw [setPage_entry_ne i.isLt hne, setPage_entry_self i.isLt]
  congr 1
  apply Fin.ext
  simp [Fin.ofNat, Nat.mod_eq_of_lt i.isLt]

theorem newpmap_entry_zero : (s.newpmap b r p).entry r 0 = .mk' p tableFlags := by
  have h := newpmap_entry_root (b := b) (s := s) hne 0
  have h0 : (0 : Fin 512) ≠ pml4SelfOffset := by decide
  simpa [newPml4, Function.update_of_ne h0] using h

theorem newpmap_entry_user (h₁ : 0 < i) (h₂ : i < 256) : (s.newpmap b r p).entry r i = zeroEntry b.zero := by
  have hself : (⟨i, by omega⟩ : Fin 512) ≠ pml4SelfOffset := fun e => by
    have he : i = pml4SelfOffset.val := congrArg Fin.val e
    have h447 : pml4SelfOffset.val = 447 := by decide
    omega
  have hzero : (⟨i, by omega⟩ : Fin 512) ≠ 0 := fun e => by
    have : i = 0 := congrArg Fin.val e
    omega
  have h := newpmap_entry_root (b := b) (s := s) hne ⟨i, by omega⟩
  rw [newPml4, Function.update_of_ne hself, Function.update_of_ne hzero,
    b.bootpmap_user ⟨i, h₂.trans (by decide)⟩ h₁ h₂] at h
  exact h

end

theorem newpmap_page (hr : g ≠ r) (hp : g ≠ p) : (s.newpmap b r p).page g = s.page g := by
  simp [Mem.newpmap, Mem.setPage, Function.update_of_ne hr, Function.update_of_ne hp, Mem.grab, Mem.setRef,
    Mem.taken]

theorem newpmap_kind (hr : g ≠ r) (hp : g ≠ p) : (G.newpmap r p).kind g = G.kind g := by
  rw [Ghost.newpmap, setKind_ne hr, setKind_ne hp]

/-- The entries of the new root for user memory. -/
theorem newpmap_slot (ho : G.off = none) (hne : r ≠ p) (hz : p ≠ b.zero) (hk : G.kind r = .root) (i : ℕ) :
    slot b G (s.newpmap b r p) r i = if i = 0 then some p else none := by
  unfold slot
  rw [hk, ho]
  by_cases h0 : i = 0
  · subst h0
    rw [newpmap_entry_zero hne]
    simp [Kind.user, hz]
  · rw [if_neg h0]
    refine if_neg fun hn => hn.2.2 ?_
    have hu := hn.1
    simp only [Kind.user, decide_eq_true_eq] at hu
    rw [newpmap_entry_user hne (by omega) hu]
    rfl

theorem newpmap_slot_low (hk : G.kind p = .low) (i : ℕ) :
    slot b G (s.newpmap b r p) p i = none := by
  unfold slot
  refine if_neg fun hn => hn.2.2 ?_
  have hu := hn.1
  rw [hk] at hu
  simp only [Kind.user, Bool.and_eq_true, decide_eq_true_eq] at hu
  rw [newpmap_low_user hu.1 hu.2]
  rfl

/-- Two pages of the code become a page map. -/
theorem Good.newpmap (h : Good b G s) (ho : G.off = none) (hf : s.freelist = some r)
    (hf' : (s.grab r).freelist = some p) : G.kind r = .free ∧ G.kind p = .free ∧ r ≠ p ∧
      s.refcount p = 0 ∧ Good b (G.newpmap r p) (s.newpmap b r p) := by
  obtain ⟨hkr, hvr, hrr, hxr, h₁⟩ := h.grab hf
  obtain ⟨hkp, hvp, hrp, hxp, h₂⟩ := h₁.grab hf'
  have hne : r ≠ p := by
    rintro rfl
    rw [grab_kind_self] at hkp
    cases hkp
  rw [grab_kind hne.symm] at hkp
  rw [grab_extra, one_ne hne.symm, add_zero] at hxp
  have hrp' : s.refcount p = 0 := by
    simpa [Mem.grab, Mem.setRef, Mem.taken, Function.update_of_ne hne.symm] using hrp
  have hk₂ : ((G.grab r).grab p).kind r = .held := by rw [grab_kind hne, grab_kind_self]
  have hk₂' : ((G.grab r).grab p).kind p = .held := grab_kind_self
  have hx₂ : ∀ g, ((G.grab r).grab p).extra g = G.extra g + one r g + one p g := fun g => by
    rw [grab_extra, grab_extra]
  have h₃ : Good b ((G.grab r).grab p) (s.newpmap b r p) :=
    (h₂.setPage_plain (by rw [hk₂]; rfl) _).setPage_plain (by rw [hk₂']; rfl) _
  have hzp : p ≠ b.zero := fun e => b.zero_avail (e ▸ hvp)
  have hzr : r ≠ b.zero := fun e => b.zero_avail (e ▸ hvr)
  -- the table of the first 512GB
  set G₄ := ((G.grab r).grab p).setKind p .low with hG₄
  have hk₄ : G₄.kind r = .held := by rw [hG₄, setKind_ne hne, hk₂]
  have hkp₄ : G₄.kind p = .low := setKind_self _
  have hx₄ : ∀ g, G₄.extra g = G.extra g + one r g + one p g := hx₂
  have h₄ : Counted b G₄ (s.newpmap b r p) := by
    refine h₃.toCounted.rekind (fun t i hs => ?_) (slot_plain (by rw [hk₂']; rfl))
      (newpmap_slot_low hkp₄) (by rw [hk₂']; simp) (by simp) (fun _ => ?_) (fun _ => hvp) (by simp) hzp
    · have := h₃.slot_used hs
      rw [hk₂'] at this
      exact this
    · rw [h₃.refcount_unused (by rw [hk₂']; exact id), hx₂, one_self, one_ne hne.symm]
      omega
  -- the root
  have hslot := newpmap_slot (b := b) (s := s) (G := G₄.setKind r .root) ho hne hzp (setKind_self _)
  have hcount : ∀ g, tableCount 512 (slot b (G₄.setKind r .root) (s.newpmap b r p)) r g = one p g := by
    intro g
    have hzero : tableCount 512 (fun (_ : Frame) (_ : ℕ) => (none : Option Frame)) r g = 0 :=
      Finset.sum_eq_zero fun _ _ => rfl
    rw [tableCount_slot (g := fun (_ : Frame) (_ : ℕ) => (none : Option Frame)) (show 0 < 512 by decide)
      (fun j _ hj => by rw [hslot, if_neg hj]), hzero, hslot, if_pos rfl, pointsTo_none]
    simp [one]
  have hold : ∀ g, tableCount 512 (slot b G₄ (s.newpmap b r p)) r g = 0 := fun g =>
    Finset.sum_eq_zero fun i _ => by rw [slot_plain (by rw [hk₄]; rfl), pointsTo_none]
  have h₅ := h₄.setKind (f := r) (k := .root) (x := fun g => -one r g - one p g) (fun t i hs => ?_)
    (fun g => ?_) (fun i g hs => ?_) (fun g hg => ?_) (fun _ e => absurd rfl e) (fun _ => hvr) (by simp) hzr
    (fun _ => ⟨?_, ?_, ?_⟩)
  · have hG : (G₄.setKind r .root).addExtra (fun g => -one r g - one p g) = G.newpmap r p := by
      ext g
      · by_cases hg : g = r
        · subst hg
          rw [Ghost.newpmap, setKind_self]
          exact setKind_self _
        · rw [Ghost.newpmap, setKind_ne hg]
          change (G₄.setKind r .root).kind g = _
          rw [setKind_ne hg]
          by_cases hgp : g = p
          · subst hgp
            rw [hkp₄, setKind_self]
          · rw [hG₄, setKind_ne hgp, setKind_ne hgp, grab_kind hgp, grab_kind hg]
      · change G₄.extra g + (-one r g - one p g) = G.extra g
        rw [hx₄]
        ring
      · rfl
    rw [hG] at h₅
    refine ⟨hkr, hkp, hne, hrp', h₅, h₃.toListed.congr (fun g => ?_) (fun g hg => ?_) rfl rfl⟩
    · by_cases hg : g = r
      · subst hg
        rw [Ghost.newpmap, setKind_self, hk₂]
        simp
      · by_cases hgp : g = p
        · subst hgp
          rw [Ghost.newpmap, setKind_ne hg, setKind_self, hk₂']
          simp
        · rw [newpmap_kind hg hgp, grab_kind hgp, grab_kind hg]
    · have hg₁ : g ≠ r := by
        rintro rfl
        rw [hk₂] at hg
        cases hg
      have hg₂ : g ≠ p := by
        rintro rfl
        rw [hk₂'] at hg
        cases hg
      rw [hx₂, one_ne hg₁, one_ne hg₂]
      simp [Ghost.newpmap, Ghost.setKind]
  · have := h₄.slot_used hs
    rw [hk₄] at this
    exact this
  · rw [hold, hcount, hk₄]
    by_cases hg : g = r
    · subst hg
      rw [one_self, one_ne hne]
      simp [rootRef]
    · rw [one_ne hg, if_neg hg]
      ring
  · rw [hslot] at hs
    split at hs
    · rename_i h0
      obtain rfl : p = g := Option.some.inj hs
      rw [hkp₄, h0]
      exact ⟨hne.symm, rfl⟩
    · cases hs
  · have hgr : g ≠ r := by
      rintro rfl
      exact hg (setKind_self _)
    rw [setKind_ne hgr] at hg
    rw [hx₄, one_ne hgr]
    by_cases hgp : g = p
    · subst hgp
      rw [one_self]
      omega
    · rw [one_ne hgp]
      have := h.extra_nonneg g (by rwa [hG₄, setKind_ne hgp, grab_kind hgp, grab_kind hgr] at hg)
      omega
  · rw [newpmap_entry_zero hne]
    exact hzp
  · rw [newpmap_entry_zero hne, tableFlags_isW]
  · change G.off ≠ _
    rw [ho]
    simp

/-- **A new page map.** -/
theorem Sound.newpmap (h : Sound b G s) (hf : s.freelist = some r) (hf' : (s.grab r).freelist = some p) :
    G.kind r = .free ∧ G.kind p = .free ∧ r ≠ p ∧ Sound b (G.newpmap r p) (s.newpmap b r p) := by
  obtain ⟨hkr, hkp, hne, hrp, hg⟩ := h.toGood.newpmap h.off hf hf'
  have hnew : ∀ {t}, (G.kind t).Used → t ≠ r ∧ t ≠ p := by
    intro t ht
    constructor
    · rintro rfl
      rw [hkr] at ht
      exact ht
    · rintro rfl
      rw [hkp] at ht
      exact ht
  have hkind : (G.newpmap r p).kind r = .root := setKind_self _
  have hkind' : (G.newpmap r p).kind p = .low := by rw [Ghost.newpmap, setKind_ne hne.symm, setKind_self]
  have hzp : p ≠ b.zero := by
    rintro rfl
    rw [h.zero] at hkp
    cases hkp
  have hentry : ∀ {t i}, i < 512 → t ≠ r → t ≠ p → (s.newpmap b r p).entry t i = s.entry t i :=
    fun hi hr hp => entry_congr hi (newpmap_page hr hp)
  have hslot : ∀ {t i f}, t ≠ r → t ≠ p → slot b (G.newpmap r p) (s.newpmap b r p) t i = some f →
      slot b G s t i = some f := by
    intro t i f hr hp hs
    obtain ⟨h₁, h₂, h₃, h₄⟩ := slot_eq_some.1 hs
    rw [hentry (Kind.user_lt h₁) hr hp] at h₃ h₄
    rw [newpmap_kind hr hp] at h₁
    exact slot_eq_some.2 ⟨h₁, h₂, h₃, h₄⟩
  have hreach : ∀ f, WReach b (G.newpmap r p) (s.newpmap b r p) f → f = r ∨ f = p ∨ WReach b G s f := by
    intro f hw
    induction hw with
    | @root q hq =>
      by_cases hqr : q = r
      · exact .inl hqr
      · by_cases hqp : q = p
        · exact .inr (.inl hqp)
        · rw [newpmap_kind hqr hqp] at hq
          exact .inr (.inr (.root hq))
    | @step t f i hw hs hW ih =>
      rcases ih with rfl | rfl | ht
      · rw [newpmap_slot (G := G.newpmap _ p) h.off hne hzp hkind] at hs
        split at hs
        · exact .inr (.inl (Option.some.inj hs).symm)
        · cases hs
      · rw [newpmap_slot_low hkind'] at hs
        cases hs
      · obtain ⟨hr, hp⟩ := hnew (ht.used h.toCounted)
        rw [hentry (slot_lt hs) hr hp] at hW
        exact .inr (.inr (ht.step (hslot hr hp hs) hW))
  have hent : ∀ t i, ((G.newpmap r p).kind t).user i = true → ((s.newpmap b r p).entry t i).isW = true →
      ((s.newpmap b r p).entry t i).frame ≠ b.zero ∧
        ∀ l, ((G.newpmap r p).kind t).level = some (l + 1) → ((s.newpmap b r p).entry t i).Open := by
    intro t i hu hW
    by_cases hr : t = r
    · subst hr
      rw [hkind] at hu
      simp only [Kind.user, decide_eq_true_eq] at hu
      rcases Nat.eq_zero_or_pos i with rfl | hpos
      · rw [newpmap_entry_zero hne]
        exact ⟨hzp, fun _ _ => tableFlags_open p⟩
      · rw [newpmap_entry_user hne hpos hu] at hW
        exact absurd hW (by rw [show zeroEntry b.zero = pteZero b from rfl, pteZero_isW]; simp)
    · by_cases hp : t = p
      · subst hp
        rw [hkind'] at hu
        simp only [Kind.user, Bool.and_eq_true, decide_eq_true_eq] at hu
        rw [newpmap_low_user hu.1 hu.2] at hW
        exact absurd hW (by rw [show zeroEntry b.zero = pteZero b from rfl, pteZero_isW]; simp)
      · rw [newpmap_kind hr hp] at hu ⊢
        rw [hentry (Kind.user_lt hu) hr hp] at hW ⊢
        exact h.entries hu hW
  refine ⟨hkr, hkp, hne, ⟨hg, h.off⟩, fun f hf hroot => ?_, fun t i hu hW => (hent t i hu hW).1,
    fun t i hu hW => (hent t i hu hW).2⟩
  · rcases hreach f hf with rfl | rfl | hw
    · exact absurd hkind hroot
    · simp [Mem.newpmap, Mem.setPage, Mem.grab, Mem.setRef, Mem.taken, hne.symm, hrp]
    · obtain ⟨hr, hp⟩ := hnew (hw.used h.toCounted)
      rw [newpmap_kind hr hp] at hroot
      rw [← h.single f hw hroot]
      simp [Mem.newpmap, Mem.setPage, Mem.grab, Mem.setRef, Mem.taken, Function.update_of_ne hr,
        Function.update_of_ne hp]

section

variable {N : Set Note} {E : Panic → Mem → Prop}

/-- **`pmap_newpmap`.** -/
theorem pmapNewpmap_ends (h : Sound b G s) :
    Ends N (pmapNewpmap b) s (fun r s' => ∃ p, G.kind r = .free ∧ G.kind p = .free ∧ r ≠ p ∧
      s' = s.newpmap b r p ∧ Sound b (G.newpmap r p) (s.newpmap b r p)) (fun e s' => e = .assert ∧ s'.dry = true) := by
  unfold pmapNewpmap memAllocOk
  refine ends_bind (ends_bind (ends_memAlloc (fun _ => ends_panic ⟨rfl, rfl⟩) fun r hr => ends_pure.2 ?_))
  obtain ⟨hkr, hvr, -, -, h₁⟩ := h.toGood.grab hr
  refine ends_bind (ends_memIncref hvr (ends_bind (ends_bind (ends_memAlloc (fun _ => ends_panic ⟨rfl, rfl⟩)
    fun p hp => ends_pure.2 ?_))))
  obtain ⟨-, hvp, -⟩ := h₁.grab hp
  unfold writePage
  refine ends_bind (ends_memIncref hvp (ends_bind (ends_modify (ends_bind (ends_modify (ends_pure.2 ?_))))))
  obtain ⟨-, hkp, hne, hS⟩ := h.newpmap hr hp
  exact ⟨p, hkr, hkp, hne, rfl, hS⟩

end

/-- Nothing sees a new page map. -/
theorem newpmap_view (h : Whole b G s) (hr : G.kind r = .free) (hp : G.kind p = .free)
    (hl : (G.kind g).level = some l) (hm : (G.kind g).maps va) :
    viewAt b (s.newpmap b r p) va l g = viewAt b s va l g := by
  have hpage : ∀ u, G.kind u ≠ .free → (s.newpmap b r p).page u = s.page u := by
    intro u hu
    refine newpmap_page ?_ ?_
    · rintro rfl
      exact hu hr
    · rintro rfl
      exact hu hp
  refine viewAt_congr h (fun _ => True) (hpage _ (by rw [h.zero]; nofun)) (fun u m _ hu => hpage u (Kind.ne_free hu))
    (fun u j f _ _ hf => hpage f (by rw [hf]; nofun)) (fun _ _ _ _ _ _ => trivial) hl hm trivial

end Determinator
