import Determinator.Kern.Nodes

/-!
# The pages of one node

What holds of the pages of a node, and how the steps of processes change them: a table gets a new
page or a page that is here, a word is written, a part of a page is stored. New entries refer only to
pages that entries referred to before, to pages that were pulled and to pages that were free.
-/

set_option linter.unusedSectionVars false

namespace Determinator.Nodes

variable {N F D : Type} [DecidableEq N] [DecidableEq F] [Inhabited D] [Fintype F]
variable {ns ns' : Node N F D} {n m : N} {r t f g : F} {i : ℕ}
  {rr : Ref N F}

/-! ## Address spaces -/

/-- The pages of an address space, tables included. -/
inductive Node.InSpace (ns : Node N F D) (r : F) : F → Prop
  | root : InSpace ns r r
  | entry {t f : F} {i : ℕ} : InSpace ns r t → i < 512 → ns.slots t i = some f → InSpace ns r f

/-- The reference under which a page of a node is sent. -/
def Node.Names (n : N) (ns : Node N F D) (g : F) (rr : Ref N F) : Prop :=
  ns.home g = some rr ∨ ns.home g = none ∧ rr.node = n ∧ rr.frame = g

namespace Node

theorem InSpace.walkTo {path : List ℕ} (h : ns.InSpace r t) (hw : ns.walkTo t path = some f) :
    ns.InSpace r f := by
  induction path generalizing t with
  | nil =>
    obtain rfl := Option.some.inj hw
    exact h
  | cons i is ih =>
    rw [Node.walkTo] at hw
    cases hs : ns.slots t i with
    | none => simp [hs] at hw
    | some g =>
      simp only [hs] at hw
      split at hw
      next hi => exact ih (h.entry hi hs) hw
      · cases hw

/-- The marks of the roots that are left behind do not matter to an address space. -/
theorem inSpace_old {old : F → Bool} : ({ ns with old := old } : Node N F D).InSpace r f ↔
    ns.InSpace r f := by
  constructor
  · intro h
    induction h with
    | root => exact .root
    | entry _ hi hs ih => exact ih.entry hi hs
  · intro h
    induction h with
    | root => exact .root
    | entry _ hi hs ih => exact ih.entry hi hs

theorem got_of_complete (h : ns.complete f = true) (hi : i < 512) :
    ns.got f (i / 171) = true := by
  simp only [complete, Bool.and_eq_true] at h
  have hpart : i / 171 = 0 ∨ i / 171 = 1 ∨ i / 171 = 2 := by omega
  obtain hp | hp | hp := hpart
  · rw [hp]
    exact h.1.1
  · rw [hp]
    exact h.1.2
  · rw [hp]
    exact h.2

/-- A page that entries refer to, or that was pulled. -/
def Linked (ns : Node N F D) (g : F) : Prop :=
  (∃ t, ∃ i < 512, ns.slots t i = some g) ∨ ns.home g ≠ none

/-- What holds of the pages of a node. -/
structure Tidy (ns : Node N F D) : Prop where
  freeBlank : ∀ t i, ns.free t = true → ns.mem t i = .blank
  slotUsed : ∀ t f, ∀ i < 512, ns.slots t i = some f → ns.free f = false
  homeUsed : ∀ f rr, ns.home f = some rr → ns.free f = false
  track : ∀ rr f, ns.track rr = some f → ns.home f = some rr
  oldSlot : ∀ r, ns.old r = true → ∀ t, ∀ i < 512, ns.slots t i ≠ some r
  oldUsed : ∀ r, ns.old r = true → ns.free r = false
  oldHome : ∀ r, ns.old r = true → ns.home r = none
  count : ∀ f, refCount 512 ns.slots f ≤ ns.refcount f

/-- How a step changes the pages of a node: new entries refer to pages that entries referred to
before, that were pulled, or that were free. -/
structure Change (ns ns' : Node N F D) : Prop where
  old : ns'.old = ns.old
  free : ∀ g, ns'.free g = true → ns.free g = true
  slots : ∀ t g, ∀ i < 512, ns'.slots t i = some g →
    (ns.Linked g ∨ ns.free g = true) ∧ ns'.free g = false
  home : ∀ g, ns.free g = false → ns'.home g = ns.home g
  homeUsed : ∀ g rr, ns'.home g = some rr → ns'.free g = false
  freeBlank : ∀ t i, ns'.free t = true → ns'.mem t i = .blank
  track : ∀ rr f, ns'.track rr = some f → ns'.home f = some rr
  count : ∀ f, refCount 512 ns'.slots f ≤ ns'.refcount f

theorem Linked.used (h : ns.Tidy) (hg : ns.Linked g) : ns.free g = false := by
  obtain ⟨t, i, hi, hs⟩ | hh := hg
  · exact h.slotUsed t g i hi hs
  · obtain ⟨rr, hrr⟩ := Option.ne_none_iff_exists'.1 hh
    exact h.homeUsed g rr hrr

theorem Linked.not_old (h : ns.Tidy) (hg : ns.Linked g) : ns.old g = false := by
  by_contra hold
  have hold : ns.old g = true := by simpa using hold
  obtain ⟨t, i, hi, hs⟩ | hh := hg
  · exact h.oldSlot g hold t i hi hs
  · exact hh (h.oldHome g hold)

theorem Tidy.change (h : ns.Tidy) (hc : ns.Change ns') : ns'.Tidy where
  freeBlank := hc.freeBlank
  slotUsed t f i hi hs := (hc.slots t f i hi hs).2
  homeUsed := hc.homeUsed
  track := hc.track
  oldSlot r hr t i hi hs := by
    rw [hc.old] at hr
    obtain hl | hf := (hc.slots t r i hi hs).1
    · have := hl.not_old h
      simp [hr] at this
    · have := h.oldUsed r hr
      simp [hf] at this
  oldUsed r hr := by
    rw [hc.old] at hr
    by_contra hf
    have := hc.free r (by simpa using hf)
    simp [h.oldUsed r hr] at this
  oldHome r hr := by
    rw [hc.old] at hr
    rw [hc.home r (h.oldUsed r hr)]
    exact h.oldHome r hr
  count := hc.count

@[simp] theorem target_page (f : F) (perm : Perm) :
    (.page f perm : Word N F D).target = some f := rfl

@[simp] theorem target_data (d : D) : (.data d : Word N F D).target = none := rfl

@[simp] theorem target_ref (rr : Ref N F) : (.ref rr : Word N F D).target = none := rfl

/-- A word is sent as before where its page was not free. -/
theorem Change.wireWord (hc : ns.Change ns') {w : Word N F D}
    (hw : ∀ g, w.target = some g → ns.free g = false) : ns'.wireWord n w = ns.wireWord n w := by
  cases w with
  | page g perm => simp only [Node.wireWord, hc.home g (hw g rfl)]
  | blank => rfl
  | data d => rfl
  | zero perm => rfl
  | ref rr => rfl

/-- The words of a page are the same, or are references that have been resolved. -/
def Stable (n : N) (ns ns' : Node N F D) (f : F) : Prop :=
  ∀ i < 512, ns'.mem f i = ns.mem f i ∨ ∃ rr g, ns.mem f i = .ref rr ∧
    ns'.mem f i = .page g rr.perm ∧ (ns'.home g).getD ⟨n, g, rr.perm⟩ = rr

theorem Stable.wire (hs : Stable n ns ns' f) (h : ns.Tidy) (hc : ns.Change ns') (hi : i < 512) :
    ns'.wire n f i = ns.wire n f i := by
  unfold Node.wire
  obtain he | ⟨rr, g, h1, h2, h3⟩ := hs i hi
  · rw [he]
    apply hc.wireWord
    intro g hg
    exact h.slotUsed f g i hi hg
  · rw [h1, h2]
    simp only [Node.wireWord, h3]

/-- A word that is sent has no page of the node in it. -/
theorem target_wireWord (w : Word N F D) : (ns.wireWord n w).target = none := by
  cases w <;> rfl

theorem wireWord_wireWord (w : Word N F D) : ns'.wireWord m (ns.wireWord n w) = ns.wireWord n w := by
  cases w <;> rfl

end Node

/-! ## Changes of a node -/

namespace Node

theorem setWord_mem (ns : Node N F D) (t : F) (i : ℕ) (w : Word N F D) (t' : F) (j : ℕ) :
    (ns.setWord t i w).mem t' j = if t' = t ∧ j = i then w else ns.mem t' j := by
  unfold setWord
  by_cases ht : t' = t
  · subst ht
    by_cases hj : j = i
    · subst hj
      simp
    · simp [hj]
  · simp [ht]

/-- No entry refers to a free page. -/
theorem Tidy.refCount_free (h : ns.Tidy) (hf : ns.free f = true) : refCount 512 ns.slots f = 0 := by
  apply refCount_eq_zero
  intro t i hi hs
  rw [h.slotUsed t f i hi hs] at hf
  cases hf

theorem Tidy.tableCount_free (h : ns.Tidy) (hf : ns.free f = true) (x : F) :
    tableCount 512 ns.slots f x = 0 := by
  unfold tableCount
  apply Finset.sum_eq_zero
  intro i _
  rw [slots, h.freeBlank f i hf]
  rfl

/-- The entry `i` of `t` gets the page `f`, which was free, with new words. -/
structure Graft (ns ns' : Node N F D) (t : F) (i : ℕ) (f : F) (perm : Perm)
    (words : ℕ → Word N F D) : Prop where
  freed : ns.free f = true
  used : ns.free t = false
  lt : i < 512
  mem : ∀ t' j, ns'.mem t' j =
    if t' = t ∧ j = i then .page f perm else if t' = f then words j else ns.mem t' j
  old : ns'.old = ns.old
  free : ∀ g, ns'.free g = if g = f then false else ns.free g
  home : ∀ g, g ≠ f → ns'.home g = ns.home g

theorem Graft.ne {perm : Perm} {words : ℕ → Word N F D} (hg : Graft ns ns' t i f perm words) : t ≠ f := by
  rintro rfl
  have := hg.used
  rw [hg.freed] at this
  cases this

theorem Graft.slots_eq {perm : Perm} {words : ℕ → Word N F D}
    (hg : Graft ns ns' t i f perm words) (t' : F) (j : ℕ) :
    ns'.slots t' j = if t' = t ∧ j = i then some f
      else if t' = f then (words j).target else ns.slots t' j := by
  unfold Node.slots
  rw [hg.mem]
  split
  · rfl
  · split <;> rfl

/-- The references after it. -/
theorem Graft.refCount {perm : Perm} {words : ℕ → Word N F D}
    (hg : Graft ns ns' t i f perm words) (h : ns.Tidy) (x : F) :
    refCount 512 ns'.slots x = refCount 512 ns.slots x - pointsTo (ns.slots t i) x +
      pointsTo (some f) x + tableCount 512 (fun (_ : F) j => (words j).target) f x := by
  let g₁ : F → ℕ → Option F := fun t' j => if t' = f then (words j).target else ns.slots t' j
  have h1 : Determinator.refCount 512 g₁ x = Determinator.refCount 512 ns.slots x -
      tableCount 512 ns.slots f x + tableCount 512 g₁ f x := by
    apply refCount_table
    intro u hu j _
    simp [g₁, hu]
  have h2 : Determinator.refCount 512 ns'.slots x = Determinator.refCount 512 g₁ x -
      pointsTo (g₁ t i) x + pointsTo (ns'.slots t i) x := by
    apply refCount_slot hg.lt
    intro u j _ huj
    have hne : ¬ (u = t ∧ j = i) := fun e => huj.elim (fun h => h e.1) fun h => h e.2
    simp [g₁, hg.slots_eq, hne]
  have h3 : g₁ t i = ns.slots t i := by simp [g₁, hg.ne]
  have h4 : ns'.slots t i = some f := by simp [hg.slots_eq]
  have h5 : tableCount 512 g₁ f x = tableCount 512 (fun (_ : F) j => (words j).target) f x := by
    apply Finset.sum_congr rfl
    intro j _
    simp [g₁]
  rw [h2, h1, h3, h4, h5, h.tableCount_free hg.freed]
  omega

theorem Graft.change {perm : Perm} {words : ℕ → Word N F D}
    (hg : Graft ns ns' t i f perm words) (h : ns.Tidy)
    (hwords : ∀ j < 512, ∀ g, (words j).target = some g → ns.Linked g)
    (hhome : ∀ g rr, ns'.home g = some rr → ns'.free g = false)
    (htrack : ∀ rr g, ns'.track rr = some g → ns'.home g = some rr)
    (hcount : ∀ x, Determinator.refCount 512 ns'.slots x ≤ ns'.refcount x) : ns.Change ns' where
  old := hg.old
  free g hf := by
    rw [hg.free] at hf
    split at hf
    · cases hf
    · exact hf
  slots t' g j hj hs := by
    rw [hg.slots_eq] at hs
    rw [hg.free]
    split at hs
    · cases hs
      exact ⟨.inr hg.freed, by simp⟩
    · have hl : ns.Linked g := by
        split at hs
        · exact hwords j hj g hs
        · exact .inl ⟨t', j, hj, hs⟩
      refine ⟨.inl hl, ?_⟩
      split
      · rfl
      · exact hl.used h
  home g hf := by
    apply hg.home
    rintro rfl
    rw [hg.freed] at hf
    cases hf
  homeUsed := hhome
  freeBlank t' j hf := by
    rw [hg.free] at hf
    split at hf
    · cases hf
    next hne =>
      rw [hg.mem, if_neg, if_neg hne]
      · exact h.freeBlank t' j hf
      · rintro ⟨rfl, -⟩
        rw [hg.used] at hf
        cases hf
  track := htrack
  count := hcount

/-- The new page has not been pulled. -/
theorem Graft.plain {perm : Perm} {words : ℕ → Word N F D}
    (hg : Graft ns ns' t i f perm words) (h : ns.Tidy)
    (hwords : ∀ j < 512, ∀ g, (words j).target = some g → ns.Linked g)
    (hhome : ns'.home f = none) (htrack : ns'.track = ns.track)
    (hcount : ∀ x, Determinator.refCount 512 ns'.slots x ≤ ns'.refcount x) : ns.Change ns' := by
  have hne : ∀ x rr, ns'.home x = some rr → x ≠ f := by
    rintro x rr hx rfl
    rw [hhome] at hx
    cases hx
  apply hg.change h hwords
  · intro x rr hx
    rw [hg.free, if_neg (hne x rr hx)]
    rw [hg.home x (hne x rr hx)] at hx
    exact h.homeUsed x rr hx
  · intro rr x hx
    rw [htrack] at hx
    have hx' : ns.home x = some rr := h.track rr x hx
    rw [hg.home x, hx']
    rintro rfl
    have := hg.freed
    rw [h.homeUsed x rr hx'] at this
    cases this
  · exact hcount

theorem graft_copyPage {perm : Perm} (hf : ns.free f = true) (ht : ns.free t = false) (hi : i < 512) :
    Graft ns (ns.copyPage t i g perm f) t i f perm (ns.mem g) where
  freed := hf
  used := ht
  lt := hi
  mem t' j := by
    rw [copyPage, setWord_mem]
    split
    · rfl
    · by_cases hne : t' = f
      · subst hne
        simp [alloc]
      · simp [alloc, hne]
  old := rfl
  free x := by
    by_cases hx : x = f
    · simp [copyPage, setWord, alloc, hx]
    · simp [copyPage, setWord, alloc, hx]
  home x hx := by simp [copyPage, setWord, alloc, hx]

theorem Tidy.copyPage {perm : Perm} (h : ns.Tidy) (hf : ns.free f = true) (ht : ns.free t = false)
    (hi : i < 512) (hg : ns.mem t i = .page g perm) : ns.Change (ns.copyPage t i g perm f) := by
  have hgr : Graft ns (ns.copyPage t i g perm f) t i f perm (ns.mem g) := graft_copyPage hf ht hi
  have hs : ns.slots t i = some g := by rw [slots, hg, Word.target]
  have hgf : g ≠ f := by
    rintro rfl
    rw [h.slotUsed t g i hi hs] at hf
    cases hf
  apply hgr.plain h
  · intro j hj x hx
    exact .inl ⟨g, j, hj, hx⟩
  · simp [Node.copyPage, setWord, alloc]
  · rfl
  · intro x
    have hcount := h.count x
    rw [hgr.refCount h, hs]
    have htab : tableCount 512 (fun (_ : F) j => (ns.mem g j).target) f x =
        tableCount 512 ns.slots g x := rfl
    rw [htab]
    by_cases hx : x = f
    · subst hx
      have hzero : tableCount 512 ns.slots g x = 0 := by
        have h1 : tableCount 512 ns.slots g x ≤ refCount 512 ns.slots x := tableCount_le_refCount
        have h2 : 0 ≤ tableCount 512 ns.slots g x := tableCount_nonneg
        rw [h.refCount_free hf] at h1
        omega
      have hr : (ns.copyPage t i g perm x).refcount x = 1 := by
        simp [Node.copyPage, setWord, alloc]
      rw [hzero, hr, h.refCount_free hf, pointsTo_self]
      have := pointsTo_nonneg (some g) x
      omega
    · have hr : (ns.copyPage t i g perm f).refcount x =
          Function.update ns.refcount g (ns.refcount g - 1) x + tableCount 512 ns.slots g x := by
        simp [Node.copyPage, setWord, alloc, hx]
      have hp : pointsTo (some f) x = 0 := by simp [pointsTo, Ne.symm hx]
      rw [hr, hp]
      by_cases hxg : x = g
      · subst hxg
        simp only [Function.update_self, pointsTo_self]
        omega
      · rw [Function.update_of_ne hxg]
        have := pointsTo_nonneg (some g) x
        omega

/-- A page with words that refer to no pages. -/
theorem Graft.refCount_le {perm : Perm} {words : ℕ → Word N F D}
    (hg : Graft ns ns' t i f perm words) (h : ns.Tidy) (hwords : ∀ j, (words j).target = none)
    (hr : ∀ x, ns'.refcount x = if x = f then 1 else ns.refcount x) (x : F) :
    Determinator.refCount 512 ns'.slots x ≤ ns'.refcount x := by
  have hcount := h.count x
  have htab : tableCount 512 (fun (_ : F) j => (words j).target) f x = 0 := by
    apply Finset.sum_eq_zero
    intro j _
    simp only [hwords j, pointsTo_none]
  have hnn := pointsTo_nonneg (ns.slots t i) x
  rw [hg.refCount h, htab, hr]
  by_cases hx : x = f
  · subst hx
    rw [h.refCount_free hg.freed, if_pos rfl, pointsTo_self]
    omega
  · rw [if_neg hx]
    have hp : pointsTo (some f) x = 0 := by simp [pointsTo, Ne.symm hx]
    rw [hp]
    omega

theorem graft_newPage {perm : Perm} {leaf : Bool} (hf : ns.free f = true) (ht : ns.free t = false)
    (hi : i < 512) : Graft ns (ns.newPage t i perm f leaf) t i f perm
      fun _ => if leaf then .data default else .zero 0 where
  freed := hf
  used := ht
  lt := hi
  mem t' j := by
    rw [newPage, setWord_mem]
    split
    · rfl
    · by_cases hne : t' = f
      · subst hne
        simp [alloc]
      · simp [alloc, hne]
  old := rfl
  free x := by
    by_cases hx : x = f
    · simp [newPage, setWord, alloc, hx]
    · simp [newPage, setWord, alloc, hx]
  home x hx := by simp [newPage, setWord, alloc, hx]

theorem Tidy.newPage {perm : Perm} {leaf : Bool} (h : ns.Tidy) (hf : ns.free f = true)
    (ht : ns.free t = false) (hi : i < 512) : ns.Change (ns.newPage t i perm f leaf) := by
  have hgr : Graft ns (ns.newPage t i perm f leaf) t i f perm _ := graft_newPage hf ht hi
  have hwords : (if leaf then (.data default : Word N F D) else .zero 0).target = none := by
    cases leaf <;> rfl
  apply hgr.plain h
  · intro j _ x hx
    rw [hwords] at hx
    cases hx
  · simp [Node.newPage, setWord, alloc]
  · rfl
  · apply hgr.refCount_le h fun _ => hwords
    intro x
    by_cases hx : x = f
    · simp [Node.newPage, setWord, alloc, hx]
    · simp [Node.newPage, setWord, alloc, hx]

theorem graft_pullInto (hf : ns.free f = true) (ht : ns.free t = false) (hi : i < 512) :
    Graft ns (ns.pullInto t i rr f) t i f rr.perm fun _ => .blank where
  freed := hf
  used := ht
  lt := hi
  mem t' j := by
    have hmem : (ns.pullInto t i rr f).mem t' j =
        ((ns.alloc f (fun _ => .blank) false).setWord t i (.page f rr.perm)).mem t' j := rfl
    rw [hmem, setWord_mem]
    split
    · rfl
    · by_cases hne : t' = f
      · subst hne
        simp [alloc]
      · simp [alloc, hne]
  old := rfl
  free x := by
    by_cases hx : x = f
    · simp [pullInto, setWord, alloc, hx]
    · simp [pullInto, setWord, alloc, hx]
  home x hx := by simp [pullInto, setWord, alloc, hx]

theorem pullInto_home (ns : Node N F D) (t : F) (i : ℕ) (rr : Ref N F) (f : F) :
    (ns.pullInto t i rr f).home f = some rr := by
  simp [pullInto]

theorem Tidy.pullInto (h : ns.Tidy) (hf : ns.free f = true) (ht : ns.free t = false)
    (hi : i < 512) : ns.Change (ns.pullInto t i rr f) := by
  have hgr : Graft ns (ns.pullInto t i rr f) t i f rr.perm _ := graft_pullInto hf ht hi
  apply hgr.change h
  · intro j _ x hx
    cases hx
  · intro x rr' hx
    rw [hgr.free]
    split
    · rfl
    next hne =>
      rw [hgr.home x hne] at hx
      exact h.homeUsed x rr' hx
  · intro rr' x hx
    by_cases hrr : rr' = rr
    · subst hrr
      have hxf : x = f := by simpa [Node.pullInto, eq_comm] using hx
      rw [hxf]
      exact pullInto_home ns t i rr' f
    · have hx' : ns.home x = some rr' := by
        apply h.track
        simpa [Node.pullInto, setWord, alloc, hrr] using hx
      rw [hgr.home x, hx']
      rintro rfl
      rw [h.homeUsed x rr' hx'] at hf
      cases hf
  · apply hgr.refCount_le h fun _ => rfl
    intro x
    by_cases hx : x = f
    · simp [Node.pullInto, setWord, alloc, hx]
    · simp [Node.pullInto, setWord, alloc, hx]

/-- A word that refers to no page is replaced. -/
theorem refCount_setWord (ns : Node N F D) (hi : i < 512) {w : Word N F D} (hs : ns.slots t i = none) (x : F) :
    refCount 512 (ns.setWord t i w).slots x = refCount 512 ns.slots x + pointsTo w.target x := by
  have h1 : refCount 512 (ns.setWord t i w).slots x = refCount 512 ns.slots x -
      pointsTo (ns.slots t i) x + pointsTo ((ns.setWord t i w).slots t i) x := by
    apply refCount_slot hi
    intro u j _ huj
    have hne : ¬ (u = t ∧ j = i) := fun e => huj.elim (fun h => h e.1) fun h => h e.2
    rw [slots, setWord_mem, if_neg hne, slots]
  have h2 : (ns.setWord t i w).slots t i = w.target := by
    rw [slots, setWord_mem, if_pos ⟨rfl, rfl⟩]
  rw [h1, h2, hs, pointsTo_none]
  omega

/-- A word that refers to no page is replaced by one that refers to none or to a page that is
linked already. -/
theorem Tidy.setWord (h : ns.Tidy) (ht : ns.free t = false) (hi : i < 512) {w : Word N F D}
    (hs : ns.slots t i = none) (hw : ∀ g, w.target = some g → ns.Linked g)
    {refcount : F → ℤ} (hr : ∀ x, ns.refcount x + pointsTo w.target x ≤ refcount x) :
    ns.Change ({ ns with refcount := refcount }.setWord t i w) where
  old := rfl
  free g hg := hg
  slots t' g j hj hs' := by
    rw [slots, setWord_mem] at hs'
    have hl : ns.Linked g := by
      split at hs'
      · exact hw g hs'
      · exact .inl ⟨t', j, hj, hs'⟩
    have hu : ns.free g = false := hl.used h
    exact ⟨.inl hl, hu⟩
  home g _ := rfl
  homeUsed := h.homeUsed
  freeBlank t' j hf := by
    rw [setWord_mem, if_neg]
    · exact h.freeBlank t' j hf
    · rintro ⟨rfl, -⟩
      have hf : ns.free t' = true := hf
      rw [ht] at hf
      cases hf
  track := h.track
  count x := by
    have h1 := refCount_setWord { ns with refcount := refcount } (w := w) hi hs x
    have h2 : refCount 512 ({ ns with refcount := refcount } : Node N F D).slots x =
        refCount 512 ns.slots x := rfl
    rw [h1, h2]
    exact le_trans (Int.add_le_add_right (h.count x) _) (hr x)

/-- A part of a page is stored. -/
theorem Tidy.store (h : ns.Tidy) (hf : ns.free f = false) {part : ℕ} {words : ℕ → Word N F D}
    (hwords : ∀ j, (words j).target = none) : ns.Change (ns.store f part words) := by
  have hmem : ∀ t j, (ns.store f part words).mem t j =
      if t = f ∧ j / 171 = part then words j else ns.mem t j := by
    intro t j
    by_cases ht : t = f
    · subst ht
      simp [Node.store]
    · simp [Node.store, ht]
  have hslots : ∀ t j, (ns.store f part words).slots t j = none ∨
      (ns.store f part words).slots t j = ns.slots t j := by
    intro t j
    unfold slots
    rw [hmem]
    split
    · exact .inl (hwords j)
    · exact .inr rfl
  refine ⟨rfl, fun g hg => hg, ?_, fun g _ => rfl, h.homeUsed, ?_, h.track, ?_⟩
  · intro t g j hj hs
    obtain hnone | hsame := hslots t j
    · rw [hnone] at hs
      cases hs
    · rw [hsame] at hs
      exact ⟨.inl (.inl ⟨t, j, hj, hs⟩), h.slotUsed t g j hj hs⟩
  · intro t j ht
    have hft : ns.free t = true := ht
    rw [hmem, if_neg]
    · exact h.freeBlank t j hft
    · rintro ⟨rfl, -⟩
      rw [hf] at hft
      cases hft
  · intro x
    exact le_trans (refCount_mono fun t j _ => hslots t j) (h.count x)

/-- A free page becomes a root. -/
theorem Tidy.alloc (h : ns.Tidy) (hf : ns.free f = true) :
    ns.Change (ns.alloc f (fun _ => .blank) false) := by
  have hmem : ∀ t j, (ns.alloc f (fun _ => .blank) false).mem t j = ns.mem t j := by
    intro t j
    by_cases ht : t = f
    · subst ht
      simp [Node.alloc, h.freeBlank t j hf]
    · simp [Node.alloc, ht]
  have hslots : (ns.alloc f (fun _ => .blank) false).slots = ns.slots := by
    funext t j
    rw [slots, hmem, slots]
  have hhome : ∀ g, (ns.alloc f (fun _ => .blank) false).home g = ns.home g := by
    intro g
    by_cases hg : g = f
    · subst hg
      have hnone : ns.home g = none := by
        by_contra hh
        obtain ⟨rr, hrr⟩ := Option.ne_none_iff_exists'.1 hh
        rw [h.homeUsed g rr hrr] at hf
        cases hf
      simp [Node.alloc, hnone]
    · simp [Node.alloc, hg]
  have hfree : ∀ g, (ns.alloc f (fun _ => .blank) false).free g =
      if g = f then false else ns.free g := by
    intro g
    by_cases hg : g = f
    · simp [Node.alloc, hg]
    · simp [Node.alloc, hg]
  constructor
  case old => rfl
  case free =>
    intro g hg
    rw [hfree] at hg
    split at hg
    · cases hg
    · exact hg
  case slots =>
    intro t g j hj hs
    rw [hslots] at hs
    have hl : ns.Linked g := .inl ⟨t, j, hj, hs⟩
    refine ⟨.inl hl, ?_⟩
    rw [hfree]
    split
    · rfl
    · exact hl.used h
  case home => exact fun g _ => hhome g
  case homeUsed =>
    intro g rr hg
    rw [hhome] at hg
    rw [hfree]
    split
    · rfl
    · exact h.homeUsed g rr hg
  case freeBlank =>
    intro t j ht
    rw [hfree] at ht
    split at ht
    · cases ht
    · rw [hmem]
      exact h.freeBlank t j ht
  case track =>
    intro rr g hg
    rw [hhome]
    exact h.track rr g hg
  case count =>
    intro x
    rw [hslots]
    by_cases hx : x = f
    · subst hx
      simp [Node.alloc, h.refCount_free hf]
    · simpa [Node.alloc, hx] using h.count x

end Node

end Determinator.Nodes
