import Determinator.Pmap.Dry
import Determinator.Pmap.Operations
import Determinator.Pmap.Newpmap

/-!
# Runs of the kernel over its page maps

The functions of `pmap.h` are called one after the other on the page maps that `pmap_newpmap` has made, and
in between user programs write where they may and fault where they may not. `Reach` is about the states
that such runs come to; the runs in which the notes of a list are not made are among them. `Maps.Inv` is what
holds in them, unless one of the `defects` has come up.
-/

namespace Determinator

open PanicM

/-! ## The machine -/

/-- The memory, and what the kernel knows about it. -/
structure Maps where
  mem : Mem
  /-- The page maps: the two pages that `pmap_newpmap` has allocated for each. -/
  roots : List (Frame × Frame)
  /-- Pages from `mem_alloc` that have not been inserted anywhere yet. -/
  pages : List Frame

/-- There is a page map with this PML4. -/
def Maps.IsRoot (σ : Maps) (r : Frame) : Prop := r ∈ σ.roots.map Prod.fst

instance (σ : Maps) (r : Frame) : Decidable (σ.IsRoot r) :=
  inferInstanceAs (Decidable (r ∈ σ.roots.map Prod.fst))

/-- What happens to the page maps. -/
inductive PmapCall
  | newpmap
  | alloc
  /-- The kernel writes a page it has not inserted yet. -/
  | fill (pi : Frame) (pg : Page)
  | walk (r : Frame) (va : ℕ) (writing : Bool)
  | insert (r pi : Frame) (va : ℕ) (perm : BitVec 12)
  | remove (r : Frame) (va size : ℕ)
  | copy (sr : Frame) (sva : ℕ) (dr : Frame) (dva size : ℕ)
  | merge (rr sr : Frame) (sva : ℕ) (dr : Frame) (dva size : ℕ)
  | setperm (r : Frame) (va size : ℕ) (perm : BitVec 12)
  /-- An access of the process with page map `r` faults. -/
  | fault (r : Frame) (va : ℕ) (write : Bool) (depth : ℕ)
  /-- The process with page map `r` writes to a page. -/
  | store (r : Frame) (va : ℕ) (pg : Page)

/-- Run a computation over the memory. -/
def onMem {α : Type} (m : Kern α) : PanicM Panic Note Maps α := fun σ =>
  ⟨(m σ.mem).val, { σ with mem := (m σ.mem).state }, (m σ.mem).notes⟩

/-- A page map has been made. -/
def Maps.addRoot (σ : Maps) (r : Frame) : Maps :=
  { σ with roots := (r, (σ.mem.entry r 0).frame) :: σ.roots }

/-- A page of user memory is replaced through the entries for its address. -/
def storePage (r : Frame) (va : ℕ) (pg : Page) : Kern Unit := do
  let s ← get
  match translate s va true nptLvls r with
  | none => pure ()
  | some f => writePage f pg

variable (b : Boot)

/-- What a call does. -/
def PmapCall.exec : PmapCall → PanicM Panic Note Maps Unit
  | newpmap => do
    let r ← onMem (pmapNewpmap b)
    modify fun σ => σ.addRoot r
  | alloc => do
    match ← onMem memAlloc with
    | none => pure ()
    | some pi => modify fun σ => { σ with pages := pi :: σ.pages }
  | fill pi pg => onMem (writePage pi pg)
  | walk r va writing => do
    let _ ← onMem (pmapWalk b r va writing)
  | insert r pi va perm => do
    match ← onMem (pmapInsert b r pi va perm) with
    | none => pure ()
    | some _ => modify fun σ => { σ with pages := σ.pages.erase pi }
  | remove r va size => onMem (pmapRemove b r va size)
  | copy sr sva dr dva size => onMem (pmapCopy b sr sva dr dva size)
  | merge rr sr sva dr dva size => onMem (pmapMerge b rr sr sva dr dva size)
  | setperm r va size perm => onMem (pmapSetperm b r va size perm)
  | fault r va write depth => do
    let _ ← onMem (pmapPagefault b depth r va write)
  | store r va pg => onMem (storePage r va pg)

theorem area_iff {va size : ℕ} : Area va size ↔
    4096 ∣ va ∧ 4096 ∣ size ∧ (vmUserLo ≤ va ∧ va < vmUserHi) ∧ size ≤ vmUserHi - va :=
  ⟨fun h => ⟨h.va_dvd, h.size_dvd, h.user, h.le⟩, fun h => ⟨h.1, h.2.1, h.2.2.1, h.2.2.2⟩⟩

instance (va size : ℕ) : Decidable (Area va size) := decidable_of_iff _ area_iff.symm

theorem region_iff {sva dva size : ℕ} : Region sva dva size ↔ Area sva size ∧ Area dva size :=
  ⟨fun h => ⟨h.source, h.dest_area⟩, fun ⟨h, h'⟩ => ⟨h.va_dvd, h'.va_dvd, h.size_dvd, h.user, h'.user, h.le, h'.le⟩⟩

instance (sva dva size : ℕ) : Decidable (Region sva dva size) := decidable_of_iff _ region_iff.symm

/-- What the callers see to: page maps are there, only new pages are inserted, and regions are those that
the assertions let pass. A fault is an access that does not go through. -/
def PmapCall.Allowed (σ : Maps) : PmapCall → Prop
  | newpmap => True
  | alloc => True
  | fill pi _ => pi ∈ σ.pages
  | walk r va _ => σ.IsRoot r ∧ vmUserLo ≤ va ∧ va < vmUserHi
  | insert r pi va _ => σ.IsRoot r ∧ pi ∈ σ.pages ∧ vmUserLo ≤ va ∧ va < vmUserHi
  | remove r va size => σ.IsRoot r ∧ Area va size
  | copy sr sva dr dva size => σ.IsRoot sr ∧ σ.IsRoot dr ∧ Region sva dva size
  | merge rr sr sva dr dva size => σ.IsRoot rr ∧ σ.IsRoot sr ∧ σ.IsRoot dr ∧ Region sva dva size
  | setperm r va size perm => σ.IsRoot r ∧ Area va size ∧ perm &&& ~~~sysRW = 0
  | fault r va write _ => σ.IsRoot r ∧ translate σ.mem va write nptLvls r = none
  | store r va _ => σ.IsRoot r ∧ vmUserLo ≤ va ∧ va < vmUserHi

instance (σ : Maps) : DecidablePred (PmapCall.Allowed σ)
  | .newpmap => inferInstanceAs (Decidable True)
  | .alloc => inferInstanceAs (Decidable True)
  | .fill pi _ => inferInstanceAs (Decidable (pi ∈ σ.pages))
  | .walk r va _ => inferInstanceAs (Decidable (σ.IsRoot r ∧ vmUserLo ≤ va ∧ va < vmUserHi))
  | .insert r pi va _ =>
    inferInstanceAs (Decidable (σ.IsRoot r ∧ pi ∈ σ.pages ∧ vmUserLo ≤ va ∧ va < vmUserHi))
  | .remove r va size => inferInstanceAs (Decidable (σ.IsRoot r ∧ Area va size))
  | .copy sr sva dr dva size =>
    inferInstanceAs (Decidable (σ.IsRoot sr ∧ σ.IsRoot dr ∧ Region sva dva size))
  | .merge rr sr sva dr dva size =>
    inferInstanceAs (Decidable (σ.IsRoot rr ∧ σ.IsRoot sr ∧ σ.IsRoot dr ∧ Region sva dva size))
  | .setperm r va size perm =>
    inferInstanceAs (Decidable (σ.IsRoot r ∧ Area va size ∧ perm &&& ~~~sysRW = 0))
  | .fault r va write _ =>
    inferInstanceAs (Decidable (σ.IsRoot r ∧ translate σ.mem va write nptLvls r = none))
  | .store r va _ => inferInstanceAs (Decidable (σ.IsRoot r ∧ vmUserLo ≤ va ∧ va < vmUserHi))

/-- The memory after booting: the pages of `avail` are free and not used, and the zero page is zero. -/
structure Booted (s : Mem) : Prop where
  free : ∃ l, Chain s.freeNext s.freelist l ∧ l.Nodup ∧ ∀ f, f ∈ l ↔ f ∈ b.avail
  unlinked : ∀ f, f ∉ b.avail → s.freeNext f = none
  unused : ∀ f, f ∈ b.avail → s.refcount f = 0
  refs : ∀ f, 0 ≤ s.refcount f
  zero : s.page b.zero = Page.zeros

/-- The states that the kernel can come to from `s₀`, with calls out of `A` and without the notes
of `N`. -/
inductive Reach (A : PmapCall → Prop) (N : List Note) (s₀ : Mem) : Maps → Prop
  | boot : Reach A N s₀ ⟨s₀, [], []⟩
  | call {σ τ : Maps} {c : PmapCall} : Reach A N s₀ σ → A c → c.Allowed σ →
      Returns {n | n ∈ N} (c.exec b) σ () τ → Reach A N s₀ τ

/-! ## The invariant -/

/-- The notes of what breaks the page maps. -/
def defects : List Note := [.ignored, .farCopy, .missingTable, .overrun, .mergeZero]

/-- Those that a call can come by. -/
def PmapCall.defects : PmapCall → List Note
  | merge .. => [.missingTable, .overrun, .mergeZero]
  | setperm .. => [.ignored]
  | fault .. => [.ignored, .farCopy]
  | _ => []

/-- Calls that may stop although there is memory: a merge at one of its assertions, and a fault that is
not followed further. -/
def PmapCall.MayStop : PmapCall → Prop
  | merge .. => True
  | fault _ _ _ depth => depth = 0
  | _ => False

/-- What holds between calls: the page maps are sound, the ghost state knows the roots and the pages that
the kernel has taken, and the zero page is zero. -/
structure Maps.Inv (s₀ : Mem) (σ : Maps) (G : Ghost) : Prop extends Sound b G σ.mem where
  root : ∀ f, G.kind f = .root ↔ σ.IsRoot f
  pdp : ∀ x ∈ σ.roots, G.kind x.2 = .low
  held : ∀ f, G.kind f = .held ↔ f ∉ b.avail ∨ f ∈ σ.pages
  pages : ∀ f ∈ σ.pages, f ∈ b.avail
  nodup : σ.pages.Nodup
  refs : G.extra = s₀.refcount
  zeros : σ.mem.page b.zero = Page.zeros

variable {b}
variable {G G' : Ghost} {s s' s₀ : Mem} {σ τ : Maps} {r f pi : Frame} {va l : ℕ} {N : Set Note}

open Classical in
/-- The ghost state after booting. -/
noncomputable def bootGhost (b : Boot) (s : Mem) : Ghost :=
  ⟨fun f => if f ∈ b.avail then .free else .held, s.refcount, none⟩

theorem bootGhost_free : (bootGhost b s).kind f = .free ↔ f ∈ b.avail := by
  unfold bootGhost
  by_cases hf : f ∈ b.avail <;> simp [hf]

theorem bootGhost_held : (bootGhost b s).kind f = .held ↔ f ∉ b.avail := by
  unfold bootGhost
  by_cases hf : f ∈ b.avail <;> simp [hf]

theorem bootGhost_level : ((bootGhost b s).kind f).level = none := by
  unfold bootGhost
  by_cases hf : f ∈ b.avail <;> simp [hf, Kind.level]

theorem bootGhost_unused : ¬((bootGhost b s).kind f).Used := by
  unfold bootGhost
  by_cases hf : f ∈ b.avail <;> simp [hf, Kind.Used]

/-- After booting there are no page maps. -/
theorem Booted.inv (h : Booted b s) : Maps.Inv b s ⟨s, [], []⟩ (bootGhost b s) := by
  have hslot : ∀ t i, slot b (bootGhost b s) s t i = none := fun t i => slot_plain bootGhost_level i
  have hroot : ∀ f, (bootGhost b s).kind f ≠ .root := by
    intro f hf
    have := bootGhost_level (b := b) (s := s) (f := f)
    rw [hf] at this
    cases this
  have hcount : Counted b (bootGhost b s) s := by
    refine ⟨fun hs => ?_, fun f => ?_, fun f hf => absurd hf bootGhost_unused, fun f _ => h.refs f,
      fun f hf => ?_, fun f l hf => ?_, bootGhost_held.2 b.zero_avail, fun r hr => absurd hr (hroot r)⟩
    · rw [hslot] at hs
      cases hs
    · have hzero : refCount 512 (slot b (bootGhost b s) s) f = 0 :=
        refCount_eq_zero fun t i _ hs => by rw [hslot] at hs; cases hs
      rw [hzero, rootRef, if_neg (hroot f)]
      simp [bootGhost]
    · by_contra hv
      exact hf (bootGhost_held.2 hv)
    · have := bootGhost_level (b := b) (s := s) (f := f)
      rw [hf] at this
      cases this
  have hlist : Listed (bootGhost b s) s := by
    obtain ⟨l, hl, hn, hm⟩ := h.free
    refine ⟨⟨l, hl, hn, fun f => (hm f).trans bootGhost_free.symm⟩, fun f hf => ?_, fun f hf => ?_⟩
    · exact h.unlinked f fun hv => hf (bootGhost_free.2 hv)
    · exact h.unused f (bootGhost_free.1 hf)
  have hreach : ∀ f, ¬WReach b (bootGhost b s) s f := by
    intro f hf
    induction hf with
    | root hr => exact hroot _ hr
    | step _ _ _ ih => exact ih
  have hsound : Sound b (bootGhost b s) s := by
    refine ⟨⟨⟨hcount, hlist⟩, rfl⟩, fun f hf => absurd hf (hreach f), fun t i hu => ?_, fun t i hu => ?_⟩
    all_goals
      rw [Kind.not_user_of_level bootGhost_level] at hu
      cases hu
  refine ⟨hsound, fun f => ?_, by simp, fun f => ?_, by simp, List.nodup_nil, rfl, h.zero⟩
  · simp [hroot f, Maps.IsRoot]
  · simp [bootGhost_held]

/-! ## What a call keeps -/

theorem translate_write (h : translate s va false l f = none) : translate s va true l f = none := by
  induction l generalizing f with
  | zero =>
    simp only [translate, Bool.not_false, Bool.or_true, Bool.and_true] at h
    simp only [translate, Bool.not_true, Bool.or_false]
    split at h
    · cases h
    · rename_i hp
      rw [if_neg (by simp [hp])]
  | succ l ih =>
    simp only [translate, Bool.not_false, Bool.or_true, Bool.and_true] at h
    simp only [translate, Bool.not_true, Bool.or_false]
    split at h
    · split
      · exact ih h
      · rfl
    · rename_i hp
      rw [if_neg (by simp [hp])]

theorem ends_onMem {α : Type} {m : Kern α} {Q : α → Maps → Prop} {E : Panic → Maps → Prop}
    {M : Set Note} (h : Ends M m σ.mem (fun a s => Q a { σ with mem := s }) fun e s => E e { σ with mem := s }) :
    Ends M (onMem m) σ Q E := ⟨h.out⟩

/-- The code takes a page for itself. -/
theorem Sound.taken (h : Sound b G s) (hf : s.freelist = some pi) :
    Sound b (G.setKind pi .held) (s.taken pi) := by
  obtain ⟨hk, -, -, hg⟩ := h.toGood.taken hf
  have hne : ∀ {u j}, ((G.setKind pi .held).kind u).user j = true → (G.kind u).user j = true := by
    intro u j hu
    have hup : u ≠ pi := by
      rintro rfl
      rw [setKind_self] at hu
      cases hu
    rwa [setKind_ne hup] at hu
  have hroot : ∀ g, (G.setKind pi .held).kind g = .root ↔ G.kind g = .root := by
    intro g
    by_cases hg : g = pi
    · rw [hg, setKind_self, hk]
      simp
    · rw [setKind_ne hg]
  refine ⟨⟨hg, h.off⟩, hg.cow (G := G) (s := s) (fun r => (hroot r).1) (fun u j f hs hW => .inl ?_)
    (fun f hf _ hr => (h.single f hf fun e => hr ((hroot f).2 e)).le)
    fun u j hj hW => ?_⟩
  · obtain ⟨h₁, h₂, h₃, h₄⟩ := slot_eq_some.1 hs
    exact ⟨slot_eq_some.2 ⟨hne h₁, h₂, h₃, h₄⟩, hW⟩
  · obtain ⟨h₁, h₂⟩ := h.entries (hne hj) hW
    refine ⟨h₁, fun l hl => h₂ l ?_⟩
    have hup : u ≠ pi := by
      rintro rfl
      rw [setKind_self] at hl
      cases hl
    rwa [setKind_ne hup] at hl

namespace Maps.Inv

theorem is_root (h : Maps.Inv b s₀ σ G) (hr : σ.IsRoot r) : G.kind r = .root := (h.root r).2 hr

/-- An operation on a page map that leaves the roots and the pages of the kernel alone. -/
theorem keep (h : Maps.Inv b s₀ σ G) (hS : Sound b G' s') (hb : Base b 3 G σ.mem G' s') (hn : Neat G G') :
    Maps.Inv b s₀ { σ with mem := s' } G' where
  toSound := hS
  root f := (hb.root le_rfl).trans (h.root f)
  pdp x hx := hn.low _ (h.pdp x hx)
  held f := (hn.held f).trans (h.held f)
  pages := h.pages
  nodup := h.nodup
  refs := hn.extra.trans h.refs
  zeros := hb.zero.trans h.zeros

theorem left {C : Prop} {R : ℕ → View → View → Prop} (h : Maps.Inv b s₀ σ G)
    (hl : Left b 3 r C R G σ.mem G' s') : Maps.Inv b s₀ { σ with mem := s' } G' :=
  h.keep hl.sound hl.base hl.neat

theorem unseen (h : Maps.Inv b s₀ σ G) (hS : Sound b G' s') (hu : Unseen b 3 G σ.mem G' s') :
    Maps.Inv b s₀ { σ with mem := s' } G' :=
  h.keep hS (hu.base h.toSound) hu.neat

/-- `pmap_newpmap` has made a page map. -/
theorem newpmap {p : Frame} (h : Maps.Inv b s₀ σ G) (hr : G.kind r = .free) (hp : G.kind p = .free)
    (hne : r ≠ p) (hS : Sound b (G.newpmap r p) (σ.mem.newpmap b r p)) :
    Maps.Inv b s₀ ({ σ with mem := σ.mem.newpmap b r p }.addRoot r) (G.newpmap r p) := by
  have hroots : ({ σ with mem := σ.mem.newpmap b r p }.addRoot r).roots = (r, p) :: σ.roots := by
    unfold Maps.addRoot
    rw [newpmap_entry_zero hne, Pte.mk'_frame]
  have hkr : (G.newpmap r p).kind r = .root := setKind_self _
  have hkp : (G.newpmap r p).kind p = .low := by rw [Ghost.newpmap, setKind_ne hne.symm, setKind_self]
  have hold : ∀ {f}, G.kind f ≠ .free → (G.newpmap r p).kind f = G.kind f := by
    intro f hf
    refine newpmap_kind ?_ ?_
    · rintro rfl
      exact hf hr
    · rintro rfl
      exact hf hp
  refine ⟨hS, fun f => ?_, fun x hx => ?_, fun f => ?_, h.pages, h.nodup, h.refs, ?_⟩
  · unfold Maps.IsRoot
    rw [hroots, List.map_cons, List.mem_cons]
    by_cases hf : f = r
    · simp [hf, hkr]
    · have hfp : f = p → ¬σ.IsRoot f := by
        rintro rfl hσ
        rw [h.is_root hσ] at hp
        cases hp
      by_cases hf' : f = p
      · have hp' := hfp hf'
        unfold Maps.IsRoot at hp'
        simpa [hf', hkp, hne.symm] using hp'
      · rw [newpmap_kind hf hf', h.root f]
        simp [hf, Maps.IsRoot]
  · rw [hroots, List.mem_cons] at hx
    rcases hx with rfl | hx
    · exact hkp
    · have hlow := h.pdp x hx
      rw [hold (by rw [hlow]; simp), hlow]
  · have hheld : (G.newpmap r p).kind f = .held ↔ G.kind f = .held := by
      by_cases hf : f = r
      · simp [hf, hkr, hr]
      · by_cases hf' : f = p
        · simp [hf', hkp, hp]
        · rw [newpmap_kind hf hf']
    exact hheld.trans (h.held f)
  · refine (newpmap_page ?_ ?_).trans h.zeros
    · rintro e
      rw [← e, h.zero] at hr
      cases hr
    · rintro e
      rw [← e, h.zero] at hp
      cases hp

/-- `mem_alloc` has given the kernel a page. -/
theorem take (h : Maps.Inv b s₀ σ G) (hf : σ.mem.freelist = some pi) :
    Maps.Inv b s₀ { σ with mem := σ.mem.taken pi, pages := pi :: σ.pages } (G.setKind pi .held) := by
  obtain ⟨hk, hv, -, -⟩ := h.toGood.taken hf
  have hpi : pi ∉ σ.pages := by
    intro hm
    rw [(h.held pi).2 (.inr hm)] at hk
    cases hk
  refine ⟨h.toSound.taken hf, fun f => ?_, fun x hx => ?_, fun f => ?_, fun f hf => ?_,
    List.nodup_cons.2 ⟨hpi, h.nodup⟩, h.refs, h.zeros⟩
  · by_cases hfp : f = pi
    · have : ¬σ.IsRoot pi := by
        intro hσ
        rw [h.is_root hσ] at hk
        cases hk
      simpa [hfp, setKind_self, Maps.IsRoot] using this
    · rw [setKind_ne hfp]
      exact h.root f
  · have hlow := h.pdp x hx
    have hne : x.2 ≠ pi := by
      intro e
      rw [e, hk] at hlow
      cases hlow
    rw [setKind_ne hne, hlow]
  · by_cases hfp : f = pi
    · simp [hfp, setKind_self]
    · rw [setKind_ne hfp, h.held f]
      simp [hfp]
  · rcases List.mem_cons.1 hf with rfl | hf
    · exact hv
    · exact h.pages f hf

theorem page_extra (h : Maps.Inv b s₀ σ G) (hb : Booted b s₀) (hf : f ∈ b.avail) : G.extra f = 0 := by
  rw [h.refs, hb.unused f hf]

/-- A page of the kernel has been inserted. -/
theorem mapped {e : Pte} {pg : Page} (h : Maps.Inv b s₀ σ G) (hm : Mapping b r va e pg G σ.mem G' s')
    (hS : Sound b G' s') (hp : e.frame ∈ b.avail) :
    Maps.Inv b s₀ { σ with mem := s', pages := σ.pages.erase e.frame } G' := by
  refine ⟨hS, fun f => (hm.acts.toBase.root le_rfl).trans (h.root f), fun x hx => hm.low _ (h.pdp x hx),
    fun f => ?_, fun f hf => h.pages f (List.mem_of_mem_erase hf), h.nodup.erase _, hm.extra.trans h.refs,
    hm.acts.toBase.zero.trans h.zeros⟩
  rw [hm.held f, h.held f, h.nodup.mem_erase_iff]
  constructor
  · rintro ⟨hne, hf | hf⟩
    · exact .inl hf
    · exact .inr ⟨hne, hf⟩
  · rintro (hf | ⟨hne, hf⟩)
    · exact ⟨fun e => hf (e ▸ hp), .inl hf⟩
    · exact ⟨hne, .inr hf⟩

/-- A fault has been resolved: the new page is not one of the kernel. -/
theorem resolved {e : Pte} (h : Maps.Inv b s₀ σ G) (hr : Resolved b r va G σ.mem e G' s') :
    Maps.Inv b s₀ { σ with mem := s' } G' := by
  have hm := hr.mapping
  have hnot : ¬(e.frame ∉ b.avail ∨ e.frame ∈ σ.pages) := fun hf => hr.kind ((h.held _).2 hf)
  rw [not_or, not_not] at hnot
  have hI := h.mapped hm hr.sound hnot.1
  rwa [List.erase_of_not_mem hnot.2] at hI

/-- A store. -/
theorem store (h : Maps.Inv b s₀ σ G) (hr : G.kind r = .root) (hu : vmUserLo ≤ va ∧ va < vmUserHi)
    (ht : translate σ.mem va true nptLvls r = some f) (pg : Page) :
    Maps.Inv b s₀ { σ with mem := σ.mem.setPage f pg } G := by
  obtain ⟨hS, -, hk⟩ := store_sound h.toSound hr hu ht pg
  have hpage : ∀ g, G.kind g ≠ .data → (σ.mem.setPage f pg).page g = σ.mem.page g := by
    intro g hg
    have hgf : g ≠ f := by
      rintro rfl
      exact hg hk
    simp [Mem.setPage, hgf]
  refine h.keep hS ⟨fun _ _ _ _ => rfl, fun _ _ _ _ => rfl, hpage _ ?_, fun g m hg _ => hpage g ?_⟩
    (Neat.refl G)
  · rw [h.zero]
    simp
  · intro e
    rw [e] at hg
    cases hg

/-- The kernel writes a page that it has not inserted yet. -/
theorem fill (h : Maps.Inv b s₀ σ G) (hp : pi ∈ σ.pages) (pg : Page) :
    Maps.Inv b s₀ { σ with mem := σ.mem.setPage pi pg } G := by
  have hk : G.kind pi = .held := (h.held pi).2 (.inr hp)
  have hu : ¬(G.kind pi).Used := by
    rw [hk]
    exact id
  have hz : b.zero ≠ pi := by
    rintro e
    exact b.zero_avail (e ▸ h.pages pi hp)
  have hpage : ∀ g, g ≠ pi → (σ.mem.setPage pi pg).page g = σ.mem.page g := by
    intro g hg
    simp [Mem.setPage, hg]
  have hentry : ∀ {u j}, (G.kind u).user j = true →
      (σ.mem.setPage pi pg).entry u j = σ.mem.entry u j := by
    intro u j hj
    refine setPage_entry_ne (Kind.user_lt hj) ?_
    rintro rfl
    rw [hk] at hj
    cases hj
  have hgood : Good b G (σ.mem.setPage pi pg) :=
    ⟨h.toCounted.setPage_plain (by rw [hk]; rfl) pg,
      h.toListed.congr (fun _ => Iff.rfl) (fun _ _ => rfl) rfl rfl⟩
  have hS : Sound b G (σ.mem.setPage pi pg) := by
    refine ⟨⟨hgood, h.off⟩, hgood.cow (G := G) (s := σ.mem) (fun _ => id) (fun u j f hs hW => .inl ?_)
      (fun f hf _ hr => (h.single f hf hr).le) fun u j hj hW => ?_⟩
    · obtain ⟨h₁, h₂, h₃, h₄⟩ := slot_eq_some.1 hs
      rw [hentry h₁] at h₃ h₄ hW
      exact ⟨slot_eq_some.2 ⟨h₁, h₂, h₃, h₄⟩, hW⟩
    · rw [hentry hj] at hW ⊢
      exact h.entries hj hW
  refine h.keep hS ⟨fun _ _ _ _ => rfl, fun _ _ _ _ => rfl, hpage _ hz, fun g m hg _ => hpage g ?_⟩
    (Neat.refl G)
  rintro rfl
  rw [hk] at hg
  cases hg

end Maps.Inv

/-- **Every call** keeps the invariant, if it does not come by a defect. -/
theorem PmapCall.exec_ends {c : PmapCall} (hb : Booted b s₀) (h : Maps.Inv b s₀ σ G) (hc : c.Allowed σ)
    (hN : ∀ n ∈ c.defects, n ∈ N) :
    Ends N (c.exec b) σ (fun _ τ => ∃ G', Maps.Inv b s₀ τ G') fun _ τ => τ.mem.dry = true ∨ c.MayStop := by
  cases c with
  | newpmap =>
    refine ends_bind (ends_onMem ((pmapNewpmap_ends h.toSound).mono ?_ fun _ _ h => .inl h.2))
    rintro r s ⟨p, hr, hp, hne, rfl, hS⟩
    exact ends_modify ⟨_, h.newpmap hr hp hne hS⟩
  | alloc =>
    refine ends_bind (ends_onMem (ends_memAlloc (fun _ => ?_) fun pi hpi => ?_))
    · exact ends_pure.2 ⟨G, h.unseen h.toSound.dried tame_dried⟩
    · exact ends_modify ⟨_, h.take hpi⟩
  | fill pi pg => exact ends_onMem (ends_modify ⟨G, h.fill hc pg⟩)
  | walk r va writing =>
    refine ends_bind (ends_onMem ((pmapWalk_ends h.toSound (h.is_root hc.1) hc.2).imp ?_))
    rintro x s ⟨-, G', hS, hu⟩
    exact ends_pure.2 ⟨G', h.unseen hS hu⟩
  | insert r pi va perm =>
    obtain ⟨hr, hpi, hu⟩ := hc
    have hk := (h.held pi).2 (.inr hpi)
    refine ends_bind (ends_onMem ((pmapInsert_ends h.toSound (h.is_root hr) hu
      (.inl ⟨hk, h.pages pi hpi⟩)).imp ?_))
    rintro x s (⟨rfl, G', hw⟩ | ⟨t, G₁, s₁, rfl, hi⟩)
    · exact ends_pure.2 ⟨G', h.unseen hw.sound hw.tame⟩
    · have hS := hi.sound hk (h.page_extra hb (h.pages pi hpi))
      exact ends_modify ⟨_, h.mapped hi.mapping hS (h.pages pi hpi)⟩
  | remove r va size =>
    refine ends_onMem ((pmapRemove_ends (C := False) nofun h.toSound (h.is_root hc.1) hc.2).imp ?_)
    rintro _ s ⟨G', hl⟩
    exact ⟨G', h.left hl⟩
  | copy sr sva dr dva size =>
    refine ends_onMem ((pmapCopy_ends (C := False) nofun h.toSound (h.is_root hc.1) (h.is_root hc.2.1)
      hc.2.2).mono ?_ fun _ _ h => .inl h.2)
    rintro _ s ⟨G', hl⟩
    exact ⟨G', h.left hl⟩
  | merge rr sr sva dr dva size =>
    have hnotes : MergeNotes N False :=
      ⟨hN _ (by simp [PmapCall.defects]), hN _ (by simp [PmapCall.defects]), hN _ (by simp [PmapCall.defects]), nofun⟩
    obtain ⟨hrr, hsr, hdr, hreg⟩ := hc
    have hquiet : Quiet b N rr sr dr fun _ _ _ _ _ => pure () := fun _ _ _ _ _ _ _ _ _ => ends_pure.2 rfl
    refine ends_onMem ((pmapMergeLook_ends hnotes hquiet h.toSound h.zeros (h.is_root hrr)
      (h.is_root hsr) (h.is_root hdr) hreg).mono ?_ fun _ _ _ => .inr trivial)
    rintro _ s ⟨G', hl⟩
    exact ⟨G', h.left hl⟩
  | setperm r va size perm =>
    refine ends_onMem ((pmapSetperm_ends (hN _ (by simp [PmapCall.defects])) h.toSound (h.is_root hc.1) hc.2.1 hc.2.2).imp ?_)
    rintro _ s ⟨G', hl⟩
    exact ⟨G', h.left hl⟩
  | fault r va write depth =>
    obtain ⟨hr, ht⟩ := hc
    refine ends_bind (ends_onMem ?_)
    cases depth with
    | zero => exact ends_panic (.inr rfl)
    | succ depth =>
      have hnone : translate σ.mem va true nptLvls r = none := by
        cases write with
        | false => exact translate_write ht
        | true => exact ht
      refine (pmapPagefault_ends (hN _ (by simp [PmapCall.defects])) (hN _ (by simp [PmapCall.defects])) h.toSound (h.is_root hr) hnone).mono ?_
        fun _ _ h => .inl h.2.1
      rintro x s (⟨-, -, -, G', hS, hu⟩ | ⟨-, -, e, G', hres⟩)
      · exact ends_pure.2 ⟨G', h.unseen hS hu⟩
      · exact ends_pure.2 ⟨G', h.resolved hres⟩
  | store r va pg =>
    refine ends_onMem (ends_bind_get ?_)
    cases ht : translate σ.mem va true nptLvls r with
    | none => exact ends_pure.2 ⟨G, h⟩
    | some f => exact ends_modify ⟨G, h.store (h.is_root hc.1) hc.2 ht pg⟩

/-- **Every run** keeps the invariant, if none of its calls comes by a defect. -/
theorem Reach.inv {A : PmapCall → Prop} {N : List Note} (hb : Booted b s₀) (h : Reach b A N s₀ σ)
    (hN : ∀ c, A c → ∀ n ∈ c.defects, n ∈ N) : ∃ G, Maps.Inv b s₀ σ G := by
  induction h with
  | boot => exact ⟨_, hb.inv⟩
  | call _ hA hc hret ih =>
    obtain ⟨G, hG⟩ := ih
    exact (PmapCall.exec_ends hb hG hc (hN _ hA)).of_returns hret

theorem PmapCall.defects_subset (c : PmapCall) : ∀ n ∈ c.defects, n ∈ Determinator.defects := by
  cases c <;> simp [PmapCall.defects, Determinator.defects]

/-! ## Enough memory -/

/-- If there are pages left after a computation there were before, and no failure was ignored. -/
theorem recorded_onMem {α : Type} {m : Kern α} {k : α → PanicM Panic Note Maps Unit} (h : Records m)
    (hk : ∀ a τ, (k a τ).state.mem = τ.mem ∧ (k a τ).notes = [])
    (hd : ((onMem m >>= k) σ).state.mem.dry = false) :
    σ.mem.dry = false ∧ Note.ignored ∉ ((onMem m >>= k) σ).notes := by
  change (PanicM.bind (onMem m) k σ).state.mem.dry = false at hd
  change _ ∧ Note.ignored ∉ (PanicM.bind (onMem m) k σ).notes
  have h := h σ.mem
  unfold Recorded at h
  unfold PanicM.bind onMem at hd ⊢
  rcases hm : m σ.mem with ⟨_ | a, t, w⟩
  · rw [hm] at h hd
    exact ⟨(h hd).1, (h hd).2.1⟩
  · rw [hm] at h hd
    obtain ⟨h₁, h₂⟩ := hk a { σ with mem := t }
    simp only [h₁, h₂, List.append_nil] at hd ⊢
    exact ⟨(h hd).1, (h hd).2.1⟩

theorem recorded_onMem_unit {m : Kern Unit} (h : Records m) (hd : (onMem m σ).state.mem.dry = false) :
    σ.mem.dry = false ∧ Note.ignored ∉ (onMem m σ).notes :=
  ⟨(h σ.mem hd).1, (h σ.mem hd).2.1⟩

theorem PmapCall.exec_recorded (c : PmapCall) (hd : (c.exec b σ).state.mem.dry = false) :
    σ.mem.dry = false ∧ Note.ignored ∉ (c.exec b σ).notes := by
  cases c with
  | newpmap => exact recorded_onMem records_pmapNewpmap (fun _ _ => ⟨rfl, rfl⟩) hd
  | alloc =>
    refine recorded_onMem (fun s => recorded_memAlloc.any) (fun x _ => ?_) hd
    cases x <;> exact ⟨rfl, rfl⟩
  | fill pi pg => exact recorded_onMem_unit (records_writePage _ _) hd
  | walk r va w =>
    exact recorded_onMem (fun s => (recorded_pmapWalk _ _ _ s).any) (fun _ _ => ⟨rfl, rfl⟩) hd
  | insert r pi va perm =>
    refine recorded_onMem (records_pmapInsert _ _ _ _) (fun x _ => ?_) hd
    cases x <;> exact ⟨rfl, rfl⟩
  | remove r va size => exact recorded_onMem_unit (records_pmapRemove _ _ _) hd
  | copy sr sva dr dva size => exact recorded_onMem_unit (records_pmapCopy _ _ _ _ _) hd
  | merge rr sr sva dr dva size => exact recorded_onMem_unit (records_pmapMerge _ _ _ _ _ _) hd
  | setperm r va size perm => exact recorded_onMem_unit (records_pmapSetperm _ _ _ _) hd
  | fault r va w depth => exact recorded_onMem (records_pmapPagefault _ _ _ _) (fun _ _ => ⟨rfl, rfl⟩) hd
  | store r va pg =>
    refine recorded_onMem_unit (records_get fun s => ?_) hd
    split
    · exact records_pure _
    · exact records_writePage _ _

/-- Where `mem_alloc` has always found a page, nobody has gone on without one. -/
theorem Reach.enough {A : PmapCall → Prop} {N : List Note} (h : Reach b A N s₀ σ) (hd : σ.mem.dry = false) :
    Reach b A (.ignored :: N) s₀ σ := by
  induction h with
  | boot => exact .boot
  | @call σ τ c _ hA hc hret ih =>
    have hst : (c.exec b σ).state = τ := hret.state
    obtain ⟨hd', hn⟩ := c.exec_recorded (by rw [hst]; exact hd)
    refine (ih hd').call hA hc ⟨hret.val, hst, fun n hn' hmem => ?_⟩
    rcases List.mem_cons.1 hmem with rfl | hmem
    · exact hn hn'
    · exact hret.notes n hn' hmem

/-- A call that does not come by a defect returns if there is memory. -/
theorem PmapCall.exec_returns {c : PmapCall} (hb : Booted b s₀) (h : Maps.Inv b s₀ σ G) (hc : c.Allowed σ)
    (hn : ∀ n ∈ c.defects, n ≠ .ignored → n ∉ (c.exec b σ).notes) (hm : ¬c.MayStop)
    (hd : (c.exec b σ).state.mem.dry = false) : (c.exec b σ).val = .ok () := by
  have h' := (PmapCall.exec_ends (N := {n | n ∈ c.defects}) hb h hc fun _ => id).out fun n hn' hmem => by
    by_cases hig : n = .ignored
    · exact (c.exec_recorded hd).2 (hig ▸ hn')
    · exact hn n hmem hig hn'
  cases hv : (c.exec b σ).val with
  | ok u => rfl
  | error e =>
    rw [hv] at h'
    rcases h' with h' | h'
    · rw [hd] at h'
      cases h'
    · exact absurd h' hm

/-! ## Running calls -/

/-- Calls one after the other: the state they lead to, unless one of them is not allowed, stops or makes
a note of `N`. -/
def runCalls (b : Boot) (N : List Note) : List PmapCall → Maps → Option Maps
  | [], σ => some σ
  | c :: cs, σ =>
    match c.exec b σ with
    | ⟨.ok (), τ, w⟩ => if c.Allowed σ ∧ ∀ n ∈ w, n ∉ N then runCalls b N cs τ else none
    | ⟨.error _, _, _⟩ => none

theorem Reach.run {A : PmapCall → Prop} {N : List Note} {cs : List PmapCall} (h : Reach b A N s₀ σ)
    (hA : ∀ c ∈ cs, A c) (hrun : runCalls b N cs σ = some τ) : Reach b A N s₀ τ := by
  induction cs generalizing σ with
  | nil =>
    cases hrun
    exact h
  | cons c cs ih =>
    rw [runCalls] at hrun
    rcases hout : c.exec b σ with ⟨_ | u, σ', w⟩ <;> rw [hout] at hrun
    · cases hrun
    · simp only at hrun
      split at hrun
      case isTrue hok =>
        refine ih (h.call (hA c List.mem_cons_self) hok.1 ⟨?_, ?_, ?_⟩)
          (fun c' hc' => hA c' (List.mem_cons_of_mem c hc')) hrun
        · rw [hout]
        · rw [hout]
        · rw [hout]
          exact hok.2
      case isFalse => cases hrun

/-- A run from the start, as far as a property of the state it leads to is concerned. -/
theorem exists_reach (b : Boot) (A : PmapCall → Prop) (N : List Note) (s₀ : Mem) (cs : List PmapCall)
    (P : Maps → Bool) (hA : ∀ c ∈ cs, A c) (hP : (runCalls b N cs ⟨s₀, [], []⟩).any P = true) :
    ∃ τ, Reach b A N s₀ τ ∧ P τ = true := by
  cases hrun : runCalls b N cs ⟨s₀, [], []⟩ with
  | none =>
    rw [hrun] at hP
    cases hP
  | some τ =>
    rw [hrun] at hP
    exact ⟨τ, Reach.boot.run hA hrun, hP⟩

/-- The links of a free list. -/
def links : List Frame → Frame → Option Frame
  | [], _ => none
  | a :: l, f => if f = a then l.head? else links l f

theorem links_not_mem {l : List Frame} (h : f ∉ l) : links l f = none := by
  induction l with
  | nil => rfl
  | cons a l ih =>
    rw [List.mem_cons, not_or] at h
    rw [links, if_neg h.1, ih h.2]

theorem chain_links {l : List Frame} (h : l.Nodup) : Chain (links l) l.head? l := by
  induction l with
  | nil => rfl
  | cons a l ih =>
    obtain ⟨ha, hl⟩ := List.nodup_cons.1 h
    refine ⟨rfl, ?_⟩
    rw [links, if_pos rfl]
    refine (ih hl).congr fun f hf => ?_
    have hne : f ≠ a := by
      rintro rfl
      exact ha hf
    rw [links, if_neg hne]

/-- A memory in which the pages of a list are free, and the others hold zeros. -/
def freshMem (l : List Frame) : Mem where
  page := fun _ => Page.zeros
  refcount := fun f => if f ∈ l then 0 else 1
  freeNext := links l
  freelist := l.head?
  dry := false

theorem freshMem_booted {l : List Frame} (hl : l.Nodup) (hv : ∀ f, f ∈ l ↔ f ∈ b.avail) :
    Booted b (freshMem l) where
  free := ⟨l, chain_links hl, hl, hv⟩
  unlinked f hf := links_not_mem fun hm => hf ((hv f).1 hm)
  unused f hf := if_pos ((hv f).2 hf)
  refs f := by
    unfold freshMem
    by_cases hf : f ∈ l <;> simp [hf]
  zero := rfl

/-- Free pages, one of them above 1GB. -/
def samplePages : List Frame :=
  [0x1000, 0x1001, 0x1002, 0x1003, 0x1004, 0x1005, 0x1006, 0x1007, 0x1008, 0x40001, 0x1009, 0x100a,
    0x100b, 0x100c, 0x100d, 0x100e, 0x100f]

/-- A machine with 4GB and few pages free. -/
def sampleBoot : Boot where
  npage := 0x100000
  zero := 0x300
  start := 0x100
  last := 0x3ff
  bootpmap := fun _ => zeroEntry 0x300
  bootpdp := fun _ => zeroEntry 0x300
  avail := {f | f ∈ samplePages}
  npage_le := by decide
  avail_range := by
    intro f hf
    have hall : (samplePages.all fun f => decide (1 < f.toNat ∧ f.toNat < 0x100000)) = true := by
      decide
    exact of_decide_eq_true (List.all_eq_true.1 hall f hf)
  zero_ne := by decide
  zero_avail := by
    change _ ∉ samplePages
    decide
  bootpmap_user := fun _ _ _ => rfl
  bootpdp_user := fun _ _ => rfl

theorem sample_booted : Booted sampleBoot (freshMem samplePages) :=
  freshMem_booted (by decide) fun _ => Iff.rfl

end Determinator
