import Mathlib.Tactic.IntervalCases
import Determinator.Pmap.Moves

/-!
# Taking pages and giving them back

The specifications of `mem_alloc`, `mem_incref` and `mem_decref` against the invariant. Giving up the
last reference to a table frees the table and gives up its references in turn. None of this writes
to a page: `Freed` says that pages only become free, and which ones can.
-/

namespace Determinator

open PanicM

variable {b : Boot} {G G' G₁ G₂ : Ghost} {s s' s₁ s₂ : Mem} {f g t : Frame} {i l m : ℕ}
  {N : Set Note} {E : Panic → Mem → Prop} {Q : Unit → Mem → Prop}

/-- What an entry of a level-`l` table points to, the entry of the first 512GB apart. -/
def Kind.below : ℕ → Kind
  | 0 => .data
  | l + 1 => .table l

theorem Kind.kid_eq_below {k : Kind} (hl : k.level = some l) (hp : k = .root → i ≠ 0) :
    k.kid i = .below l := by
  cases k with
  | table m =>
    obtain rfl : m = l := Option.some.inj hl
    cases m <;> rfl
  | low =>
    obtain rfl : l = 2 := by simpa [Kind.level] using hl.symm
    rfl
  | root =>
    obtain rfl : l = 3 := by simpa [Kind.level] using hl.symm
    simp [Kind.kid, Kind.below, hp rfl]
  | _ => simp [Kind.level] at hl

theorem Kind.below_used (l : ℕ) : (Kind.below l).Used := by
  cases l <;> trivial

theorem Kind.below_ne (l : ℕ) : Kind.below l ≠ .root ∧ Kind.below l ≠ .low ∧ Kind.below l ≠ .held ∧
    Kind.below l ≠ .free := by
  cases l <;> simp [Kind.below]

theorem Kind.below_inj (h : Kind.below l = .below m) : l = m := by
  cases l <;> cases m <;> simp_all [Kind.below]

theorem Kind.below_level (h : (Kind.below l).level = some m) : m < l := by
  cases l with
  | zero => simp [Kind.below, Kind.level] at h
  | succ l =>
    simp only [Kind.below, Kind.level, Option.some.injEq] at h
    omega

/-! ## Reference counts -/

/-- The assertions hold of every page that can be allocated. -/
theorem ends_memAsserts (hf : f ∈ b.avail) (h : Q () s) : Ends N (memAsserts b f) s Q E := by
  obtain ⟨h₁, h₂⟩ := b.avail_range f hf
  have hn := b.npage_le
  unfold memAsserts linkIndex
  refine ends_bind_check ⟨h₁, h₂⟩ (ends_bind_check ?_ (ends_check (fun _ => h) fun hc => ?_))
  · omega
  · exact absurd (.inl (by omega)) hc

theorem ends_memIncref (hf : f ∈ b.avail) (h : Q () (s.setRef f (s.refcount f + 1))) :
    Ends N (memIncref b f) s Q E :=
  ends_bind (ends_memAsserts hf (ends_modify h))

/-- Giving up a reference that is not the last one. -/
theorem ends_memDecref_more {freefun : Frame → Kern Unit} (hf : f ∈ b.avail)
    (hr : 1 < s.refcount f) (h : Q () (s.setRef f (s.refcount f - 1))) :
    Ends N (memDecref b f freefun) s Q E := by
  unfold memDecref
  refine ends_bind (ends_memAsserts hf (ends_bind (ends_modify (ends_bind_get ?_))))
  have hcount : (s.setRef f (s.refcount f - 1)).refcount f = s.refcount f - 1 := by
    simp [Mem.setRef]
  rw [if_neg (by omega)]
  refine ends_bind_get (ends_check (fun _ => h) fun hc => ?_)
  omega

/-- Giving up the last reference. -/
theorem ends_memDecref_last {freefun : Frame → Kern Unit} (hf : f ∈ b.avail)
    (hr : s.refcount f = 1)
    (h : Ends N (freefun f) (s.setRef f 0) (fun _ t => 0 ≤ t.refcount f ∧ Q () t) E) :
    Ends N (memDecref b f freefun) s Q E := by
  unfold memDecref
  refine ends_bind (ends_memAsserts hf (ends_bind (ends_modify (ends_bind_get ?_))))
  rw [hr, show (1 : ℤ) - 1 = 0 from rfl, if_pos (by simp [Mem.setRef])]
  refine ends_bind (h.imp ?_)
  rintro _ t ⟨hc, hQ⟩
  exact ends_bind_get (ends_check (fun _ => hQ) fun hn => absurd hc hn)

/-! ## The invariant -/

/-- Pages that have no entries. -/
theorem slot_plain (hk : (G.kind f).level = none) (i : ℕ) : slot b G s f i = none := by
  unfold slot
  rw [if_neg]
  rintro ⟨hu, -⟩
  rw [Kind.not_user_of_level hk] at hu
  cases hu

theorem setKind_self (k : Kind) : (G.setKind f k).kind f = k := by simp [Ghost.setKind]

theorem setKind_ne {k : Kind} (h : g ≠ f) : (G.setKind f k).kind g = G.kind g := by
  simp [Ghost.setKind, Function.update_of_ne h]

namespace Good

/-- A page becomes one without entries. -/
theorem rekind (h : Good b G s) {k : Kind} (hf : ¬(G.kind f).Used) (hk : k.level = none)
    (ha : k.Used → 0 < s.refcount f) (hv : f ∈ b.avail) : Counted b (G.setKind f k) s := by
  have hz : f ≠ b.zero := fun e => b.zero_avail (e ▸ hv)
  have hlevel : (G.kind f).level = none := by
    cases hk : G.kind f <;> simp_all [Kind.Used, Kind.level]
  refine h.toCounted.rekind (fun t i hs => hf (h.slot_used hs)) (slot_plain hlevel)
    (slot_plain (by rw [setKind_self]; exact hk)) ?_ ?_ ha (fun _ => hv) ?_ hz
  · intro e
    rw [e] at hlevel
    cases hlevel
  · rintro rfl
    cases hk
  · rintro l rfl
    cases hk

theorem taken (h : Good b G s) (hf : s.freelist = some f) :
    G.kind f = .free ∧ f ∈ b.avail ∧ s.refcount f = 0 ∧ Good b (G.setKind f .held) (s.taken f) := by
  obtain ⟨hk, hl⟩ := h.toListed.taken hf
  have hu : ¬(G.kind f).Used := by
    rw [hk]
    exact id
  have hv : f ∈ b.avail := h.avail f (by rw [hk]; nofun)
  refine ⟨hk, hv, ?_, ⟨?_, hl⟩⟩
  · rw [h.refcount_unused hu]
    exact h.extra_free f hk
  · have hc := h.rekind (k := .held) hu rfl False.elim hv
    exact hc.congr (fun _ _ _ => rfl) (fun _ _ => rfl) rfl

theorem given (h : Good b G s) (hk : G.kind f = .held) (hx : G.extra f = 0) (hv : f ∈ b.avail) :
    Good b (G.setKind f .free) (s.given f) := by
  refine ⟨?_, h.toListed.given (by rw [hk]; nofun) hx⟩
  have hu : ¬(G.kind f).Used := by
    rw [hk]
    exact id
  have hc := h.rekind (k := .free) hu rfl False.elim hv
  exact hc.congr (fun _ _ _ => rfl) (fun _ _ => rfl) rfl

/-- A reference is taken or given up by something other than an entry. -/
theorem setRef (h : Good b G s) {n : ℤ} (hf : G.kind f ≠ .free)
    (hx : G.kind f ≠ .root → 0 ≤ G.extra f + n)
    (ha : (G.kind f).Used → G.kind f ≠ .root → 0 < s.refcount f + n) :
    Good b (G.addExtra fun g => n * one f g) (s.setRef f (s.refcount f + n)) := by
  refine ⟨h.toCounted.setRef hx ha, h.toListed.congr (fun _ => Iff.rfl) (fun g hg => ?_) rfl rfl⟩
  have hne : g ≠ f := fun e => hf (e ▸ hg)
  simp [Ghost.addExtra, one_ne hne]

/-- The last reference is given up: the references of the entries are held for the time being. -/
theorem retire (h : Good b G s) (hk : G.kind f = .below l) (hr : s.refcount f = 1)
    (hx : 1 ≤ G.extra f) :
    Good b ⟨Function.update G.kind f .held,
      fun g => G.extra g + tableCount 512 (slot b G s) f g - one f g, G.off⟩ (s.setRef f 0) := by
  have hc := h.count f
  have hroot : G.kind f ≠ .root := by
    rw [hk]
    exact (Kind.below_ne l).1
  have hfree : G.kind f ≠ .free := by
    rw [hk]
    exact (Kind.below_ne l).2.2.2
  have hv : f ∈ b.avail := h.avail f (by rw [hk]; exact (Kind.below_ne l).2.2.1)
  have hz : f ≠ b.zero := fun e => b.zero_avail (e ▸ hv)
  rw [rootRef, if_neg hroot] at hc
  have hnn : 0 ≤ refCount 512 (slot b G s) f := refCount_nonneg
  have hptr : ∀ t i, slot b G s t i ≠ some f := by
    intro t i hs
    have := refCount_pos (slot_lt hs) hs
    omega
  have hnew : ∀ i, slot b (G.setKind f .held) s f i = none :=
    slot_plain (by rw [setKind_self]; rfl)
  have hself : tableCount 512 (slot b G s) f f = 0 := by
    have := tableCount_le_refCount (n := 512) (g := slot b G s) (t := f) (f := f)
    have := tableCount_nonneg (n := 512) (g := slot b G s) (t := f) (f := f)
    omega
  have h₁ := h.toCounted.setKind (k := .held) (x := fun g => tableCount 512 (slot b G s) f g) hptr
    ?_ ?_ ?_ False.elim (fun e => absurd rfl e) (by simp) hz (by simp)
  · have h₂ := h₁.setRef (f := f) (n := -1) ?_ ?_
    · refine ⟨?_, h.toListed.congr ?_ ?_ rfl rfl⟩
      · have hG : ((G.setKind f .held).addExtra fun g => tableCount 512 (slot b G s) f g).addExtra
            (fun g => -1 * one f g) = ⟨Function.update G.kind f .held,
              fun g => G.extra g + tableCount 512 (slot b G s) f g - one f g, G.off⟩ := by
          ext g
          · rfl
          · simp only [Ghost.addExtra, Ghost.setKind]
            ring
          · rfl
        rw [hG, hr] at h₂
        exact h₂
      · intro g
        by_cases hg : g = f
        · subst hg
          simp [hfree]
        · simp [Function.update_of_ne hg]
      · intro g hg
        have hne : g ≠ f := fun e => hfree (e ▸ hg)
        have : tableCount 512 (slot b G s) f g = 0 := by
          refine Finset.sum_eq_zero fun i _ => if_neg fun hs => ?_
          have := h.slot_used hs
          rw [hg] at this
          exact this
        simp only [this, one_ne hne]
        ring
    · intro _
      simp only [Ghost.addExtra, Ghost.setKind, hself]
      omega
    · intro hu
      simp [Ghost.addExtra, Ghost.setKind, Kind.Used] at hu
  · intro g
    have : tableCount 512 (slot b (G.setKind f .held) s) f g = 0 :=
      Finset.sum_eq_zero fun i _ => by rw [hnew, pointsTo_none]
    simp [this, rootRef, hroot]
  · intro i g hs
    rw [hnew] at hs
    cases hs
  · intro g hg
    have hx' : 0 ≤ G.extra g := by
      by_cases hgf : g = f
      · rw [hgf]
        omega
      · exact h.extra_nonneg g (by rwa [setKind_ne hgf] at hg)
    have := tableCount_nonneg (n := 512) (g := slot b G s) (t := f) (f := g)
    omega

end Good

/-! ## Freeing -/

/-- Pages become free, at most those below entries of levels up to `l`; nothing is written. -/
structure Freed (l : ℕ) (G : Ghost) (s : Mem) (G' : Ghost) (s' : Mem) : Prop where
  page : s'.page = s.page
  kind : ∀ g, G'.kind g = G.kind g ∨ G'.kind g = .free ∧ ∃ m ≤ l, G.kind g = .below m
  ref_le : ∀ g, s'.refcount g ≤ s.refcount g
  off : G'.off = G.off
  dry : s'.dry = s.dry

/-- The entry whose reference is being given up is above level `l`. -/
def OffAbove (l : ℕ) (G : Ghost) : Prop :=
  ∀ t i, G.off = some (t, i) → ∀ m ≤ l, G.kind t ≠ .below m

namespace Freed

theorem trans (h : Freed l G s G₁ s₁) (h' : Freed l G₁ s₁ G₂ s₂) : Freed l G s G₂ s₂ := by
  refine ⟨h'.page.trans h.page, fun g => ?_, fun g => (h'.ref_le g).trans (h.ref_le g),
    h'.off.trans h.off, h'.dry.trans h.dry⟩
  rcases h'.kind g with h₂ | ⟨h₂, m, hm, h₃⟩
  · rcases h.kind g with h₁ | ⟨h₁, hb⟩
    · exact .inl (h₂.trans h₁)
    · exact .inr ⟨h₂.trans h₁, hb⟩
  · rcases h.kind g with h₁ | ⟨h₁, hb⟩
    · exact .inr ⟨h₂, m, hm, h₁ ▸ h₃⟩
    · exact .inr ⟨h₂, hb⟩

theorem entry_eq (h : Freed l G s G' s') (t : Frame) (i : ℕ) : s'.entry t i = s.entry t i := by
  unfold Mem.entry
  rw [h.page]

/-- A page that did not become free is what it was. -/
theorem kind_eq (h : Freed l G s G' s') (hg : G'.kind g ≠ .free) : G'.kind g = G.kind g :=
  (h.kind g).resolve_right fun e => hg e.1

theorem offAbove (h : Freed l G s G' s') (ho : OffAbove m G) : OffAbove m G' := by
  intro t i e n hn hk
  rw [h.off] at e
  refine ho t i e n hn ?_
  rw [← h.kind_eq, hk]
  rw [hk]
  exact (Kind.below_ne n).2.2.2

end Freed

/-- What giving up a reference to something below a level-`l` entry does. -/
def Decrefs (b : Boot) (l : ℕ) (freefun : Frame → Kern Unit) : Prop :=
  ∀ (G : Ghost) (s : Mem) (f : Frame), Good b G s → G.kind f = .below l → OffAbove l G →
    1 ≤ G.extra f → Meets ∅ (memDecref b f freefun) s fun _ s' => ∃ G', Good b G' s' ∧
      (∀ g, G'.extra g = G.extra g - one f g) ∧ Freed l G s G' s'

/-- What freeing it does, once the last reference has been given up. -/
def Retires (b : Boot) (l : ℕ) (freefun : Frame → Kern Unit) : Prop :=
  ∀ (G : Ghost) (s : Mem) (f : Frame), Good b G s → G.kind f = .below l → OffAbove l G →
    s.refcount f = 1 → 1 ≤ G.extra f →
    Meets ∅ (freefun f) (s.setRef f 0) fun _ s' => 0 ≤ s'.refcount f ∧ ∃ G', Good b G' s' ∧
      (∀ g, G'.extra g = G.extra g - one f g) ∧ Freed l G s G' s'

theorem Retires.decrefs {freefun : Frame → Kern Unit} (h : Retires b l freefun) :
    Decrefs b l freefun := by
  intro G s f hg hk ho hx
  have hv : f ∈ b.avail := hg.avail f (by rw [hk]; exact (Kind.below_ne l).2.2.1)
  have hpos := hg.alive f (by rw [hk]; exact Kind.below_used l)
    (by rw [hk]; exact (Kind.below_ne l).1)
  by_cases hr : s.refcount f = 1
  · exact ends_memDecref_last hv hr (h G s f hg hk ho hr hx)
  · refine ends_memDecref_more hv (by omega) ⟨G.addExtra fun g => -1 * one f g, ?_, ?_, ?_⟩
    · have := hg.setRef (f := f) (n := -1) (by rw [hk]; exact (Kind.below_ne l).2.2.2)
        (fun _ => by omega) (fun _ _ => by omega)
      rwa [← sub_eq_add_neg] at this
    · intro g
      simp only [Ghost.addExtra]
      ring
    · refine ⟨rfl, fun g => .inl rfl, fun g => ?_, rfl, rfl⟩
      by_cases hgf : g = f
      · subst hgf
        simp [Mem.setRef]
      · simp [Mem.setRef, Function.update_of_ne hgf]

/-- Freeing the page itself. -/
theorem Good.free_ends (hg : Good b G s) (hk : G.kind f = .held) (hr : s.refcount f = 0)
    (hv : f ∈ b.avail) (h : Good b (G.setKind f .free) (s.given f) → Q () (s.given f)) :
    Meets ∅ (memFree f) s Q := by
  have hx : G.extra f = 0 := by
    rw [← hg.refcount_unused (by rw [hk]; exact id), hr]
  exact ends_memFree hr (hg.unlinked f (by rw [hk]; nofun)) (h (hg.given hk hx hv))

theorem retires_memFree : Retires b 0 memFree := by
  intro G s f hg hk ho hr hx
  have hv : f ∈ b.avail := hg.avail f (by rw [hk]; nofun)
  have h₁ := hg.retire hk hr hx
  refine h₁.free_ends (by simp) (by simp [Mem.setRef]) hv fun h₂ => ⟨?_, _, h₂, ?_, ?_⟩
  · simp [Mem.given, Mem.setRef]
  · intro g
    have : tableCount 512 (slot b G s) f g = 0 :=
      Finset.sum_eq_zero fun i _ => by rw [slot_plain (by rw [hk]; rfl), pointsTo_none]
    simp [Ghost.setKind, this]
  · refine ⟨rfl, fun g => ?_, fun g => ?_, rfl, rfl⟩
    · by_cases hgf : g = f
      · subst hgf
        exact .inr ⟨by simp [Ghost.setKind], 0, le_rfl, hk⟩
      · exact .inl (by simp [Ghost.setKind, Function.update_of_ne hgf])
    · by_cases hgf : g = f
      · subst hgf
        simp [Mem.given, Mem.setRef, hr]
      · simp [Mem.given, Mem.setRef, Function.update_of_ne hgf]

/-- Freeing a table gives up the reference of each entry in turn; what is still to come is counted
in the references that are held. -/
theorem retires_freeTable {freefun : Frame → Kern Unit} (h : Decrefs b l freefun) :
    Retires b (l + 1) (freeTable b freefun) := by
  intro G s f hg hk ho hr hx
  have hv : f ∈ b.avail := hg.avail f (by rw [hk]; exact (Kind.below_ne (l + 1)).2.2.1)
  have hg₁ := hg.retire hk hr hx
  set G₁ : Ghost := ⟨Function.update G.kind f .held,
    fun g => G.extra g + tableCount 512 (slot b G s) f g - one f g, G.off⟩ with hG₁
  have hheld : G₁.kind f = .held := by simp [hG₁]
  unfold freeTable
  generalize hL : List.range nptEntries = L
  refine ends_bind (ends_each (I := fun as s' => (∀ i ∈ as, i < 512) ∧ ∃ G', Good b G' s' ∧
    Freed l G₁ (s.setRef f 0) G' s' ∧ ∀ g, G'.extra g = G.extra g - one f g +
      (as.map fun i => pointsTo (slot b G s f i) g).sum) ?_ ?_ _ _ ?_)
  · rintro a as s' ⟨has, G', hg', hfr, hx'⟩
    have ha : a < 512 := has a List.mem_cons_self
    have has' : ∀ i ∈ as, i < 512 := fun i hi => has i (List.mem_cons_of_mem a hi)
    unfold readEntry
    refine ends_bind (ends_bind_get (ends_pure.2 ?_))
    have he : s'.entry f a = s.entry f a := hfr.entry_eq f a
    rw [he]
    simp only [List.map_cons, List.sum_cons] at hx'
    refine ends_ite (fun hz => ?_) fun hz => ends_pure.2 ⟨has', G', hg', hfr, fun g => ?_⟩
    · have hu : (G.kind f).user a = true := by
        rw [hk]
        simp [Kind.below, Kind.user, ha]
      have hs : slot b G s f a = some (s.entry f a).frame :=
        slot_of_user hu (fun e => ho f a e (l + 1) le_rfl hk) hz
      set u := (s.entry f a).frame
      have hku : G.kind u = .below l := by
        rw [hg.typed hs, hk]
        exact Kind.kid_eq_below rfl fun e => absurd e (Kind.below_ne (l + 1)).1
      have huf : u ≠ f := by
        intro e
        rw [e, hk] at hku
        have := Kind.below_inj hku
        omega
      have hxu := hx' u
      rw [hs, pointsTo_self, one_ne huf] at hxu
      have hrest := list_pointsTo_nonneg (f := u) as fun i => slot b G s f i
      have hxn := hg.extra_nonneg u (by rw [hku]; exact (Kind.below_ne l).1)
      have hk' : G'.kind u = .below l := by
        rw [hfr.kind_eq, hG₁]
        · simp only [Function.update_of_ne huf]
          exact hku
        · intro e
          have := hg'.extra_free u e
          omega
      have ho' : OffAbove l G' := by
        refine hfr.offAbove fun t i e m hm hkt => ?_
        by_cases htf : t = f
        · subst htf
          rw [hheld] at hkt
          exact (Kind.below_ne m).2.2.1 hkt.symm
        · rw [hG₁] at hkt
          simp only [Function.update_of_ne htf] at hkt
          exact ho t i e m (by omega) hkt
      refine (h G' s' u hg' hk' ho' (by omega)).mono ?_ fun _ _ => id
      rintro _ s'' ⟨G'', hg'', hx'', hfr'⟩
      refine ⟨has', G'', hg'', hfr.trans hfr', fun g => ?_⟩
      rw [hx'' g, hx' g, hs, show pointsTo (some u) g = one u g from rfl]
      ring
    · have hs : slot b G s f a = none := by
        unfold slot
        rw [if_neg fun e => hz e.2.2]
      rw [hx' g, hs, pointsTo_none, zero_add]
  · rintro s' ⟨-, G', hg', hfr, hx'⟩
    have hk' : G'.kind f = .held := by
      rcases hfr.kind f with e | ⟨-, m, -, e⟩
      · rw [e, hheld]
      · rw [hheld] at e
        exact absurd e.symm (Kind.below_ne m).2.2.1
    have hrf : s'.refcount f = 0 := by
      have h₁ := hfr.ref_le f
      have h₂ := hg'.refcount_unused (f := f) (by rw [hk']; exact id)
      have h₃ := hg'.extra_nonneg f (by rw [hk']; simp)
      simp only [Mem.setRef, Function.update_self] at h₁
      omega
    refine hg'.free_ends hk' hrf hv fun hg'' => ⟨?_, _, hg'', ?_, ?_⟩
    · simp [Mem.given, hrf]
    · intro g
      simp [Ghost.setKind, hx' g]
    · refine ⟨hfr.page, fun g => ?_, fun g => ?_, hfr.off, hfr.dry⟩
      · by_cases hgf : g = f
        · subst hgf
          exact .inr ⟨setKind_self _, l + 1, le_rfl, hk⟩
        · rw [setKind_ne hgf]
          have hne : G₁.kind g = G.kind g := by simp [hG₁, Function.update_of_ne hgf]
          rw [← hne]
          rcases hfr.kind g with e | ⟨e, m, hm, e'⟩
          · exact .inl e
          · exact .inr ⟨e, m, by omega, e'⟩
      · refine (hfr.ref_le g).trans ?_
        by_cases hgf : g = f
        · subst hgf
          simp [Mem.setRef, hr]
        · simp [Mem.setRef, Function.update_of_ne hgf]
  · refine ⟨fun i hi => ?_, G₁, hg₁, ⟨rfl, fun g => .inl rfl, fun g => le_rfl, rfl, rfl⟩,
      fun g => ?_⟩
    · rw [← hL] at hi
      exact List.mem_range.1 hi
    · have hsum : tableCount 512 (slot b G s) f g
          = (L.map fun i => pointsTo (slot b G s f i) g).sum := by
        rw [tableCount_list, hL]
      rw [hG₁]
      simp only [hsum]
      ring

/-- **Giving up a reference**: every `pmap_freefun` does what it should. -/
theorem decrefs_pmapFreefun (hl : l ≤ 3) : Decrefs b l (pmapFreefun b l) := by
  have h₀ : Decrefs b 0 memFree := retires_memFree.decrefs
  have h₁ : Decrefs b 1 (pmapFreept b) := by
    unfold pmapFreept
    exact Retires.decrefs (retires_freeTable h₀)
  have h₂ : Decrefs b 2 (pmapFreepd b) := by
    unfold pmapFreepd
    exact (retires_freeTable h₁).decrefs
  have h₃ : Decrefs b 3 (pmapFreepdp b) := by
    unfold pmapFreepdp
    exact (retires_freeTable h₂).decrefs
  interval_cases l
  · exact h₀
  · exact h₁
  · exact h₂
  · exact h₃

end Determinator
