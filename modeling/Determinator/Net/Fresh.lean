import Determinator.Net.Pages

/-!
# Copies of remote pages

A page that a process takes to another node is known by its reference from then on. On the node that
it came from it stays as it is: the page map that the process has left behind still refers to it, so
that whoever writes it gets a copy. On the nodes that have pulled it nothing does that: a copy with
one reference is written in place and keeps its reference. Where this does not happen, what
`net_pullpte` finds without a pull is what the process had when it left.
-/

set_option linter.unusedSectionVars false

namespace Determinator.Nodes

variable {N P F D : Type} [DecidableEq N] [DecidableEq P] [DecidableEq F] [Inhabited D] [Fintype F]
variable {s u : State N P F D} {ns ns' : Node N F D} {n m : N} {p q : P} {r t f g : F} {i : ℕ}
  {rr : Ref N F}

/-! ## What is claimed -/

namespace State

/-- A copy of a page of another node is not written in place, `net_pullpte` finds pages that have
arrived, and a process that leaves has all of its pages. -/
def Careful (s : State N P F D) : Act N P F D → Prop
  | .unshare p path _ _ _ => ∀ t, (s.here p).walkW (s.proc p).root path = some t →
      (s.here p).home t = none
  | .write p path _ _ => ∀ t, (s.here p).walkW (s.proc p).root path = some t →
      (s.here p).home t = none
  | .migrate p _ _ => ∀ g, (s.here p).InSpace (s.proc p).root g →
      (s.here p).complete g = true ∧ ∀ rr, ∀ i < 512, (s.here p).mem g i ≠ .ref rr
  | .pull _ _ => True
  | .resolve p path i _ =>
      (∀ path', path' <+: path → ∀ t, (s.here p).walkTo (s.proc p).root path' = some t →
        (s.here p).complete t = true) ∧
      ∀ rr g, s.found p path i = some (rr, g) → (s.here p).complete g = true
  | .ready _ => True

end State

/-! ## The invariant -/

namespace State

/-- A page of an address space that a process has left behind. -/
def Frozen (s : State N P F D) (n : N) (f : F) : Prop :=
  ∃ r, (s.node n).old r = true ∧ (s.node n).InSpace r f

/-- The reference is to a page that its node keeps. -/
def Held (s : State N P F D) (rr : Ref N F) : Prop :=
  s.Frozen rr.node rr.frame ∧ (s.node rr.node).home rr.frame = none

/-- The reference is to a page that its node keeps and that a table there refers to. -/
def Given (s : State N P F D) (rr : Ref N F) : Prop :=
  (∃ t, s.Frozen rr.node t ∧ ∃ i < 512, (s.node rr.node).slots t i = some rr.frame) ∧
    (s.node rr.node).home rr.frame = none

/-- What the page has on its own node. -/
def canon (s : State N P F D) (rr : Ref N F) (i : ℕ) : Word N F D :=
  (s.node rr.node).wire rr.node rr.frame i

/-- What the pages of a node have to do with those of others. -/
structure Cross (s : State N P F D) (n : N) (ns : Node N F D) : Prop where
  given : ∀ t rr, ∀ i < 512, ns.mem t i = .ref rr → s.Given rr
  home : ∀ f rr, ns.home f = some rr → s.Given rr
  copy : ∀ f rr, ns.home f = some rr → ∀ i < 512, ns.got f (i / 171) = true →
    ns.wire n f i = s.canon rr i

/-- What holds of a page map root on a node. -/
structure Rooted (ns : Node N F D) (r : F) : Prop where
  used : ns.free r = false
  slot : ∀ t, ∀ i < 512, ns.slots t i ≠ some r
  new : ns.old r = false
  home : ns.home r = none

/-- Where a process has come from: its pages there are still what they were. -/
structure Left (s : State N P F D) (past : Past N F D) : Prop where
  home : past.pages.home past.root = none
  noRef : ∀ g, past.pages.InSpace past.root g → ∀ rr, ∀ i < 512, past.pages.mem g i ≠ .ref rr
  held : ∀ g, past.pages.InSpace past.root g → ∀ rr, past.pages.Names past.node g rr →
    s.Held rr ∧ ∀ i < 512, past.pages.wire past.node g i = s.canon rr i

/-- A process that pulls has in its root what it had where it has come from. -/
def RootPulled (s : State N P F D) (w : Proc N F D) : Prop :=
  ∃ past, w.past = some past ∧ ∀ i < 512, (s.node w.node).got w.root (i / 171) = true →
    (s.node w.node).wire w.node w.root i = past.pages.wire past.node past.root i

/-- A process that waits pulls a page for its reference, or its root. -/
def Waits (s : State N P F D) (w : Proc N F D) : Prop :=
  (s.node w.node).home w.pullpg = some w.pullrr ∨ w.pullpg = w.root ∧ ∃ past,
    w.past = some past ∧ w.pullrr.node = past.node ∧ w.pullrr.frame = past.root

/-- The invariant. -/
structure Inv (s : State N P F D) : Prop where
  tidy : ∀ n, (s.node n).Tidy
  cross : ∀ n, s.Cross n (s.node n)
  whole : ∀ n f, s.Frozen n f → (s.node n).complete f = true ∧
    ∀ rr, ∀ i < 512, (s.node n).mem f i ≠ .ref rr
  root : ∀ p, Rooted (s.here p) (s.proc p).root
  alone : ∀ p q, (s.proc p).node = (s.proc q).node → (s.proc p).root = (s.proc q).root → p = q
  left : ∀ p past, (s.proc p).past = some past → s.Left past
  pulled : ∀ p, (s.proc p).mode ≠ .run → s.RootPulled (s.proc p)
  waits : ∀ p, (s.proc p).mode = .wait → s.Waits (s.proc p)

theorem Frozen.entry (h : s.Frozen n t) (hi : i < 512) (hs : (s.node n).slots t i = some f) :
    s.Frozen n f := by
  obtain ⟨r, hr, hsp⟩ := h
  exact ⟨r, hr, hsp.entry hi hs⟩

theorem Given.frozen (h : s.Given rr) : s.Frozen rr.node rr.frame := by
  obtain ⟨⟨t, ht, i, hi, hs⟩, -⟩ := h
  exact ht.entry hi hs

/-- A page of an address space that was left behind is not on a path for writing: it would have
another reference. -/
theorem Inv.not_frozen_walkW (h : s.Inv) {path : List ℕ} {a : F} (ha : ¬ s.Frozen n a)
    (hw : (s.node n).walkW a path = some t) : ¬ s.Frozen n t := by
  induction path generalizing a with
  | nil =>
    obtain rfl := Option.some.inj hw
    exact ha
  | cons i is ih =>
    rw [Node.walkW] at hw
    cases hs : (s.node n).slots a i with
    | none => simp [hs] at hw
    | some f =>
      simp only [hs] at hw
      split at hw
      next hg =>
        refine ih ?_ hw
        rintro ⟨r, hr, hsp⟩
        cases hsp with
        | root => exact (h.tidy n).oldSlot _ hr a i hg.1 hs
        | @entry t' _ j ht' hj hs' =>
          have hone : refCount 512 (s.node n).slots f ≤ 1 := le_trans ((h.tidy n).count f) hg.2
          obtain ⟨rfl, -⟩ := slot_unique hone hg.1 hj hs hs'
          exact ha ⟨r, hr, ht'⟩
      · cases hw

theorem Inv.root_not_frozen (h : s.Inv) (p : P) :
    ¬ s.Frozen (s.proc p).node (s.proc p).root := by
  rintro ⟨r, hr, hsp⟩
  cases hsp with
  | root =>
    have hnew : (s.node (s.proc p).node).old (s.proc p).root = false := (h.root p).new
    rw [hr] at hnew
    cases hnew
  | entry _ hi hs => exact (h.root p).slot _ _ hi hs

/-! ## What is left behind stays -/

/-- The pages of address spaces that were left behind stay as they are. -/
structure Kept (s u : State N P F D) : Prop where
  frozen : ∀ n f, s.Frozen n f → u.Frozen n f
  slots : ∀ n t, s.Frozen n t → ∀ i < 512, ∀ g, (s.node n).slots t i = some g →
    (u.node n).slots t i = some g
  home : ∀ n f, s.Frozen n f → (u.node n).home f = (s.node n).home f
  wire : ∀ n f, s.Frozen n f → ∀ i < 512, (u.node n).wire n f i = (s.node n).wire n f i

theorem Given.held (h : s.Given rr) : s.Held rr := ⟨h.frozen, h.2⟩

theorem Kept.held (hk : Kept s u) (h : s.Held rr) : u.Held rr :=
  ⟨hk.frozen _ _ h.1, (hk.home _ _ h.1).trans h.2⟩

theorem Kept.canon (hk : Kept s u) (h : s.Held rr) (hi : i < 512) : u.canon rr i = s.canon rr i :=
  hk.wire _ _ h.1 i hi

theorem Kept.given (hk : Kept s u) (h : s.Given rr) : u.Given rr := by
  obtain ⟨⟨t, ht, i, hi, hs⟩, hh⟩ := id h
  exact ⟨⟨t, hk.frozen _ _ ht, i, hi, hk.slots _ _ ht i hi _ hs⟩, (hk.home _ _ h.frozen).trans hh⟩

theorem Kept.cross (hk : Kept s u) (h : s.Cross n ns) : u.Cross n ns where
  given t rr i hi hm := hk.given (h.given t rr i hi hm)
  home f rr hf := hk.given (h.home f rr hf)
  copy f rr hf i hi hg :=
    (h.copy f rr hf i hi hg).trans (hk.canon (h.home f rr hf).held hi).symm

theorem Kept.left {past : Past N F D} (hk : Kept s u) (h : s.Left past) : u.Left past where
  home := h.home
  noRef := h.noRef
  held g hg rr hn :=
    ⟨hk.held (h.held g hg rr hn).1, fun i hi =>
      ((h.held g hg rr hn).2 i hi).trans (hk.canon (h.held g hg rr hn).1 hi).symm⟩

@[simp] theorem setNode_self (ns : Node N F D) : (s.setNode n ns).node n = ns := by
  simp [setNode]

theorem setNode_of_ne (ns : Node N F D) (h : m ≠ n) : (s.setNode n ns).node m = s.node m := by
  simp [setNode, h]

/-- The pages that are left behind are the same, where their words are. -/
theorem frozen_setNode (hc : (s.node n).Change ns')
    (hmem : ∀ f, s.Frozen n f → ∀ i < 512, ns'.mem f i = (s.node n).mem f i) :
    (s.setNode n ns').Frozen m f ↔ s.Frozen m f := by
  by_cases hm : m = n
  · subst hm
    constructor
    · rintro ⟨r, hr, hsp⟩
      rw [setNode_self] at hr hsp
      rw [hc.old] at hr
      induction hsp with
      | root => exact ⟨r, hr, .root⟩
      | @entry t f i _ hi hs ih =>
        apply ih.entry hi
        rw [← hs, Node.slots, Node.slots, hmem t ih i hi]
    · rintro ⟨r, hr, hsp⟩
      refine ⟨r, by rw [setNode_self, hc.old]; exact hr, ?_⟩
      rw [setNode_self]
      induction hsp with
      | root => exact .root
      | @entry t f i ht hi hs ih =>
        apply ih.entry hi
        rw [← hs, Node.slots, Node.slots, hmem t ⟨r, hr, ht⟩ i hi]
  · unfold Frozen
    rw [setNode_of_ne ns' hm]

theorem Inv.kept_setNode (h : s.Inv) (hc : (s.node n).Change ns')
    (hmem : ∀ f, s.Frozen n f → ∀ i < 512, ns'.mem f i = (s.node n).mem f i) :
    Kept s (s.setNode n ns') := by
  have hused : ∀ f, s.Frozen n f → (s.node n).free f = false := by
    rintro f ⟨r, hr, hsp⟩
    cases hsp with
    | root => exact (h.tidy n).oldUsed _ hr
    | entry _ hi hs => exact (h.tidy n).slotUsed _ _ _ hi hs
  refine ⟨fun m f hf => (frozen_setNode hc hmem).2 hf, ?_, ?_, ?_⟩
  · intro m t ht i hi g hs
    by_cases hm : m = n
    · subst hm
      rw [setNode_self, ← hs, Node.slots, Node.slots, hmem t ht i hi]
    · rw [setNode_of_ne ns' hm]
      exact hs
  · intro m f hf
    by_cases hm : m = n
    · subst hm
      rw [setNode_self]
      exact hc.home f (hused f hf)
    · rw [setNode_of_ne ns' hm]
  · intro m f hf i hi
    by_cases hm : m = n
    · subst hm
      rw [setNode_self]
      exact Node.Stable.wire (fun j hj => .inl (hmem f hf j hj)) (h.tidy m) hc hi
    · rw [setNode_of_ne ns' hm]

/-- A root stays one. -/
theorem Rooted.change (h : Rooted ns r) (hc : ns.Change ns') : Rooted ns' r where
  used := by
    by_contra hf
    have := hc.free r (by simpa using hf)
    simp [h.used] at this
  slot t i hi hs := by
    obtain (⟨t', j, hj, hs'⟩ | hh) | hf := (hc.slots t r i hi hs).1
    · exact h.slot t' j hj hs'
    · exact hh h.home
    · rw [h.used] at hf
      cases hf
  new := by
    rw [hc.old]
    exact h.new
  home := by
    rw [hc.home r h.used]
    exact h.home

theorem here_setNode (s : State N P F D) (n : N) (ns : Node N F D) (p : P) :
    (s.setNode n ns).here p = (s.setNode n ns).node (s.proc p).node := rfl

/-- One node changes. -/
theorem Inv.setNode (h : s.Inv) (hc : (s.node n).Change ns')
    (hmem : ∀ f, s.Frozen n f → ∀ i < 512, ns'.mem f i = (s.node n).mem f i)
    (hgot : ∀ f, s.Frozen n f → ns'.complete f = true) (hcross : s.Cross n ns')
    (hpull : ∀ p, (s.proc p).node = n → (s.proc p).mode ≠ .run → ∀ past,
      (s.proc p).past = some past → ∀ i < 512, ns'.got (s.proc p).root (i / 171) = true →
        ns'.wire n (s.proc p).root i = past.pages.wire past.node past.root i) :
    (s.setNode n ns').Inv := by
  have hk := h.kept_setNode hc hmem
  have hroot : ∀ p, Rooted ((s.setNode n ns').here p) (s.proc p).root := by
    intro p
    rw [here_setNode]
    by_cases hp : (s.proc p).node = n
    · rw [hp, setNode_self]
      have hr := h.root p
      rw [here, hp] at hr
      exact hr.change hc
    · rw [setNode_of_ne ns' hp]
      exact h.root p
  constructor
  case tidy =>
    intro m
    by_cases hm : m = n
    · subst hm
      rw [setNode_self]
      exact (h.tidy m).change hc
    · rw [setNode_of_ne ns' hm]
      exact h.tidy m
  case cross =>
    intro m
    by_cases hm : m = n
    · subst hm
      rw [setNode_self]
      exact hk.cross hcross
    · rw [setNode_of_ne ns' hm]
      exact hk.cross (h.cross m)
  case whole =>
    intro m f hf
    rw [frozen_setNode hc hmem] at hf
    by_cases hm : m = n
    · subst hm
      rw [setNode_self]
      refine ⟨hgot f hf, fun rr i hi => ?_⟩
      rw [hmem f hf i hi]
      exact (h.whole m f hf).2 rr i hi
    · rw [setNode_of_ne ns' hm]
      exact h.whole m f hf
  case root => exact hroot
  case alone => exact h.alone
  case left => exact fun p past hp => hk.left (h.left p past hp)
  case pulled =>
    intro p hp
    obtain ⟨past, hpast, hw⟩ := h.pulled p hp
    refine ⟨past, hpast, ?_⟩
    change ∀ i < 512, ((s.setNode n ns').node (s.proc p).node).got (s.proc p).root (i / 171) = true →
      ((s.setNode n ns').node (s.proc p).node).wire (s.proc p).node (s.proc p).root i = _
    by_cases hm : (s.proc p).node = n
    · rw [hm, setNode_self]
      exact hpull p hm hp past hpast
    · rw [setNode_of_ne ns' hm]
      exact hw
  case waits =>
    intro p hp
    obtain hh | hr := h.waits p hp
    · left
      change ((s.setNode n ns').node (s.proc p).node).home (s.proc p).pullpg = _
      by_cases hm : (s.proc p).node = n
      · rw [hm] at hh ⊢
        rw [setNode_self, hc.home _ ((h.tidy n).homeUsed _ _ hh)]
        exact hh
      · rw [setNode_of_ne ns' hm]
        exact hh
    · exact .inr hr

/-- A process goes on. -/
theorem Inv.setProc (h : s.Inv) {w : Proc N F D} (hnode : w.node = (s.proc p).node)
    (hroot : w.root = (s.proc p).root) (hpast : w.past = (s.proc p).past)
    (hpull : w.mode ≠ .run → s.RootPulled w) (hwait : w.mode = .wait → s.Waits w) :
    (s.setProc p w).Inv := by
  have hself : (s.setProc p w).proc p = w := by simp [State.setProc]
  have hne : ∀ q, q ≠ p → (s.setProc p w).proc q = s.proc q := by
    intro q hq
    simp [State.setProc, hq]
  have hnodes : ∀ q, ((s.setProc p w).proc q).node = (s.proc q).node := by
    intro q
    by_cases hq : q = p
    · rw [hq, hself, hnode]
    · rw [hne q hq]
  have hroots : ∀ q, ((s.setProc p w).proc q).root = (s.proc q).root := by
    intro q
    by_cases hq : q = p
    · rw [hq, hself, hroot]
    · rw [hne q hq]
  have hpasts : ∀ q, ((s.setProc p w).proc q).past = (s.proc q).past := by
    intro q
    by_cases hq : q = p
    · rw [hq, hself, hpast]
    · rw [hne q hq]
  constructor
  case tidy => exact h.tidy
  case cross => exact fun n => ⟨(h.cross n).given, (h.cross n).home, (h.cross n).copy⟩
  case whole => exact h.whole
  case root =>
    intro q
    have hq := h.root q
    rw [here, hnodes, hroots]
    exact hq
  case alone =>
    intro q q' h1 h2
    rw [hnodes, hnodes] at h1
    rw [hroots, hroots] at h2
    exact h.alone q q' h1 h2
  case left =>
    intro q past hq
    rw [hpasts] at hq
    have hl := h.left q past hq
    exact ⟨hl.home, hl.noRef, hl.held⟩
  case pulled =>
    intro q hq
    by_cases hqp : q = p
    · subst hqp
      rw [hself] at hq ⊢
      exact hpull hq
    · rw [hne q hqp] at hq ⊢
      exact h.pulled q hq
  case waits =>
    intro q hq
    by_cases hqp : q = p
    · subst hqp
      rw [hself] at hq ⊢
      exact hwait hq
    · rw [hne q hqp] at hq ⊢
      exact h.waits q hq

/-- One node changes. Pages outside of `X` keep their words, and those in `X` are known to nobody
else. -/
theorem Inv.edit (h : s.Inv) (hc : (s.node n).Change ns') (X : F → Prop)
    (hX : ∀ f, X f → ¬ s.Frozen n f ∧ (s.node n).home f = none ∧
      ∀ p, (s.proc p).node = n → (s.proc p).mode ≠ .run → (s.proc p).root ≠ f)
    (hst : ∀ f, (s.node n).free f = false → ¬ X f →
      Node.Stable n (s.node n) ns' f ∧ ns'.got f = (s.node n).got f)
    (hgiven : ∀ t rr, ∀ i < 512, ns'.mem t i = .ref rr → s.Given rr)
    (hhome : ∀ f rr, ns'.home f = some rr →
      (s.node n).home f = some rr ∨ s.Given rr ∧ ∀ part, ns'.got f part = false) :
    (s.setNode n ns').Inv := by
  have hfrozen : ∀ f, s.Frozen n f →
      Node.Stable n (s.node n) ns' f ∧ ns'.got f = (s.node n).got f := by
    intro f hf
    have hused : (s.node n).free f = false := by
      obtain ⟨r, hr, hsp⟩ := id hf
      cases hsp with
      | root => exact (h.tidy n).oldUsed _ hr
      | entry _ hi hs => exact (h.tidy n).slotUsed _ _ _ hi hs
    exact hst f hused fun hx => (hX f hx).1 hf
  apply h.setNode hc
  · intro f hf i hi
    obtain heq | ⟨rr, g, hrr, -⟩ := (hfrozen f hf).1 i hi
    · exact heq
    · exact absurd hrr ((h.whole n f hf).2 rr i hi)
  · intro f hf
    have := (h.whole n f hf).1
    rw [Node.complete] at this ⊢
    rwa [(hfrozen f hf).2]
  · refine ⟨hgiven, ?_, ?_⟩
    · intro f rr hf
      obtain hf | ⟨hg, -⟩ := hhome f rr hf
      · exact (h.cross n).home f rr hf
      · exact hg
    · intro f rr hf i hi hgot
      obtain hf | ⟨-, hg⟩ := hhome f rr hf
      · have hx : ¬ X f := by
          intro hx
          rw [(hX f hx).2.1] at hf
          cases hf
        obtain ⟨hs, hg⟩ := hst f ((h.tidy n).homeUsed f rr hf) hx
        rw [hs.wire (h.tidy n) hc hi]
        rw [hg] at hgot
        exact (h.cross n).copy f rr hf i hi hgot
      · rw [hg] at hgot
        cases hgot
  · intro p hp hm past hpast i hi hgot
    have hr : Rooted (s.node n) (s.proc p).root := by
      have := h.root p
      rwa [here, hp] at this
    have hx : ¬ X (s.proc p).root := fun hx => (hX _ hx).2.2 p hp hm rfl
    obtain ⟨hs, hg⟩ := hst _ hr.used hx
    obtain ⟨past', hpast', hw⟩ := h.pulled p hm
    rw [hpast] at hpast'
    cases hpast'
    rw [hp] at hw
    rw [hs.wire (h.tidy n) hc hi]
    rw [hg] at hgot
    exact hw i hi hgot

end State

/-! ## The steps -/

namespace Node

theorem walkW_cases {path : List ℕ} {a : F} (h : ns.walkW a path = some t) :
    t = a ∨ ∃ t', ∃ i < 512, ns.slots t' i = some t := by
  induction path generalizing a with
  | nil => exact .inl (Option.some.inj h).symm
  | cons i is ih =>
    rw [Node.walkW] at h
    cases hs : ns.slots a i with
    | none => simp [hs] at h
    | some f =>
      simp only [hs] at h
      split at h
      next hg =>
        obtain rfl | hslot := ih h
        · exact .inr ⟨a, i, hg.1, hs⟩
        · exact .inr hslot
      · cases h

theorem walkTo_cases {path : List ℕ} {a : F} (h : ns.walkTo a path = some t) :
    t = a ∨ ∃ t', ∃ i < 512, ns.slots t' i = some t := by
  have hsp : ns.InSpace a t := Node.InSpace.root.walkTo h
  cases hsp with
  | root => exact .inl rfl
  | entry _ hi hs => exact .inr ⟨_, _, hi, hs⟩

end Node

namespace State

/-- A page on a path of a process for writing is used by nobody else. -/
theorem Inv.walkW (h : s.Inv) {path : List ℕ} (hm : (s.proc p).mode = .run)
    (hw : (s.here p).walkW (s.proc p).root path = some t) :
    (s.here p).free t = false ∧ ¬ s.Frozen (s.proc p).node t ∧
      ∀ q, (s.proc q).node = (s.proc p).node → (s.proc q).mode ≠ .run → (s.proc q).root ≠ t := by
  refine ⟨?_, h.not_frozen_walkW (h.root_not_frozen p) hw, ?_⟩
  · obtain rfl | ⟨t', i, hi, hs⟩ := Node.walkW_cases hw
    · exact (h.root p).used
    · exact (h.tidy _).slotUsed t' t i hi hs
  · rintro q hq hqm rfl
    obtain heq | ⟨t', i, hi, hs⟩ := Node.walkW_cases hw
    · obtain rfl := h.alone q p hq heq
      exact hqm hm
    · have hr := h.root q
      rw [here, hq] at hr
      exact hr.slot t' i hi hs

/-- A process writes a word. -/
theorem Inv.write (h : s.Inv) {path : List ℕ} {d : D} (hc : s.Careful (.write p path i d))
    (hu : s.write p path i d = some u) : u.Inv := by
  unfold State.write at hu
  simp only at hu
  split at hu
  next hg =>
    cases hw : (s.here p).walkW (s.proc p).root path with
    | none => simp [hw] at hu
    | some t =>
      simp only [hw] at hu
      split at hu
      next d' hd =>
        cases hu
        obtain ⟨hused, hfr, hroot⟩ := h.walkW hg.1 hw
        have hs : (s.here p).slots t i = none := by rw [Node.slots, hd, Node.target_data]
        have hch : (s.here p).Change ((s.here p).setWord t i (.data d)) := by
          apply (h.tidy (s.proc p).node).setWord hused hg.2 hs
          · intro g hg'
            cases hg'
          · intro x
            rw [Node.target_data, pointsTo_none, add_zero]
        apply h.edit hch (· = t)
        · rintro f rfl
          exact ⟨hfr, hc f hw, hroot⟩
        · intro f _ hf
          refine ⟨fun j _ => .inl ?_, rfl⟩
          rw [Node.setWord_mem, if_neg fun e => hf e.1]
          rfl
        · intro t' rr j hj hm
          rw [Node.setWord_mem] at hm
          split at hm
          · cases hm
          · exact (h.cross _).given t' rr j hj hm
        · exact fun f rr hf => .inl hf
      · cases hu
  · cases hu

/-- A table on a path for writing gets a new page. -/
theorem Inv.graft (h : s.Inv) {path : List ℕ} {perm : Perm} {words : ℕ → Word N F D}
    (hm : (s.proc p).mode = .run) (hw : (s.here p).walkW (s.proc p).root path = some t)
    (ht : (s.here p).home t = none) (hg : (s.here p).Graft ns' t i f perm words)
    (hch : (s.here p).Change ns') (hhome : ns'.home f = none)
    (hgot : ∀ g, g ≠ f → ns'.got g = (s.here p).got g)
    (hgiven : ∀ rr, ∀ j < 512, words j = .ref rr → s.Given rr) :
    (s.setNode (s.proc p).node ns').Inv := by
  obtain ⟨-, hfr, hroot⟩ := h.walkW hm hw
  apply h.edit hch (· = t)
  · rintro x rfl
    exact ⟨hfr, ht, hroot⟩
  · intro x hx hxt
    have hxf : x ≠ f := by
      rintro rfl
      have hfreed : (s.node (s.proc p).node).free x = true := hg.freed
      rw [hx] at hfreed
      cases hfreed
    refine ⟨fun j _ => .inl ?_, hgot x hxf⟩
    rw [hg.mem, if_neg fun e => hxt e.1, if_neg hxf]
    rfl
  · intro t' rr j hj hmem
    rw [hg.mem] at hmem
    split at hmem
    · cases hmem
    · split at hmem
      · exact hgiven rr j hj hmem
      · exact (h.cross _).given t' rr j hj hmem
  · intro x rr hx
    have hxf : x ≠ f := by
      rintro rfl
      rw [hhome] at hx
      cases hx
    rw [hg.home x hxf] at hx
    exact .inl hx

/-- A process that writes gets a page of its own. -/
theorem Inv.unshare (h : s.Inv) {path : List ℕ} {leaf : Bool}
    (hc : s.Careful (.unshare p path i leaf f)) (hu : s.unshare p path i leaf f = some u) :
    u.Inv := by
  unfold State.unshare at hu
  simp only at hu
  split at hu
  next hg =>
    obtain ⟨hm, hi, hf⟩ := hg
    cases hw : (s.here p).walkW (s.proc p).root path with
    | none => simp [hw] at hu
    | some t =>
      simp only [hw] at hu
      have hused := (h.walkW hm hw).1
      have hty : (s.here p).Tidy := h.tidy _
      split at hu
      next g perm hpg =>
        split at hu
        · cases hu
          refine h.graft hm hw (hc t hw) (Node.graft_copyPage hf hused hi)
            (hty.copyPage hf hused hi hpg) ?_ ?_ ?_
          · simp [Node.copyPage, Node.setWord, Node.alloc]
          · intro x hx
            simp [Node.copyPage, Node.setWord, Node.alloc, hx]
          · exact fun rr j hj hmem => (h.cross _).given g rr j hj hmem
        · cases hu
      next perm hz =>
        cases hu
        refine h.graft hm hw (hc t hw) (Node.graft_newPage hf hused hi)
          (hty.newPage hf hused hi) ?_ ?_ ?_
        · simp [Node.newPage, Node.setWord, Node.alloc]
        · intro x hx
          simp [Node.newPage, Node.setWord, Node.alloc, hx]
        · intro rr j _ hmem
          cases leaf <;> cases hmem
      · cases hu
  · cases hu

/-- A reference becomes a page that is here. -/
theorem Inv.link (h : s.Inv) (ht : (s.node n).free t = false) (hi : i < 512)
    (hmem : (s.node n).mem t i = .ref rr) (hl : (s.node n).Linked g)
    (hname : ((s.node n).home g).getD ⟨n, g, rr.perm⟩ = rr) :
    (s.setNode n ((s.node n).link t i g rr.perm)).Inv := by
  have hs : (s.node n).slots t i = none := by rw [Node.slots, hmem, Node.target_ref]
  have hch : (s.node n).Change ((s.node n).link t i g rr.perm) := by
    apply (h.tidy n).setWord ht hi hs
    · intro x hx
      rw [Node.target_page] at hx
      cases hx
      exact hl
    · intro x
      rw [Node.target_page]
      by_cases hx : x = g
      · subst hx
        rw [Function.update_self, pointsTo_self]
      · rw [Function.update_of_ne hx]
        simp [pointsTo, Ne.symm hx]
  have hword : ∀ t' j, ((s.node n).link t i g rr.perm).mem t' j =
      if t' = t ∧ j = i then .page g rr.perm else (s.node n).mem t' j := by
    intro t' j
    rw [Node.link, Node.setWord_mem]
  apply h.edit hch fun _ => False
  · exact fun _ hx => hx.elim
  · intro x _ _
    refine ⟨fun j _ => ?_, rfl⟩
    rw [hword]
    split
    next e =>
      right
      obtain ⟨rfl, rfl⟩ := e
      exact ⟨rr, g, hmem, rfl, hname⟩
    · exact .inl rfl
  · intro t' rr' j hj hm
    rw [hword] at hm
    split at hm
    · cases hm
    · exact (h.cross n).given t' rr' j hj hm
  · exact fun x rr' hx => .inl hx

/-- A reference becomes a page that is going to be pulled. -/
theorem Inv.pullInto (h : s.Inv) (ht : (s.node n).free t = false) (hf : (s.node n).free f = true)
    (hi : i < 512) (hmem : (s.node n).mem t i = .ref rr) :
    (s.setNode n ((s.node n).pullInto t i rr f)).Inv := by
  have hg : (s.node n).Graft ((s.node n).pullInto t i rr f) t i f rr.perm fun _ => .blank :=
    Node.graft_pullInto hf ht hi
  have hhome : ((s.node n).pullInto t i rr f).home f = some rr := Node.pullInto_home ..
  apply h.edit ((h.tidy n).pullInto hf ht hi) fun _ => False
  · exact fun _ hx => hx.elim
  · intro x hx _
    have hxf : x ≠ f := by
      rintro rfl
      rw [hx] at hf
      cases hf
    constructor
    · intro j _
      rw [hg.mem]
      split
      next e =>
        right
        obtain ⟨rfl, rfl⟩ := e
        refine ⟨rr, f, hmem, rfl, ?_⟩
        rw [hhome]
        rfl
      · exact .inl rfl
    · simp [Node.pullInto, Node.setWord, Node.alloc, hxf]
  · intro t' rr' j hj hm
    rw [hg.mem] at hm
    split at hm
    · cases hm
    · split at hm
      · cases hm
      · exact (h.cross n).given t' rr' j hj hm
  · intro x rr' hx
    by_cases hxf : x = f
    · subst hxf
      rw [hhome] at hx
      cases hx
      right
      refine ⟨(h.cross n).given t rr i hi hmem, fun part => ?_⟩
      simp [Node.pullInto, Node.setWord, Node.alloc]
    · rw [hg.home x hxf] at hx
      exact .inl hx

/-- `net_pullpte`. -/
theorem Inv.resolve (h : s.Inv) {path : List ℕ} (hu : s.resolve p path i f = some u) :
    u.stopped = true ∨ u.Inv := by
  unfold State.resolve at hu
  simp only at hu
  split at hu
  next hg =>
    obtain ⟨hm, hi⟩ := hg
    cases hw : (s.here p).walkTo (s.proc p).root path with
    | none => simp [hw] at hu
    | some t =>
      simp only [hw] at hu
      have hused : (s.here p).free t = false := by
        obtain rfl | ⟨t', j, hj, hs⟩ := Node.walkTo_cases hw
        · exact (h.root p).used
        · exact (h.tidy _).slotUsed t' t j hj hs
      split at hu
      next rr hrr =>
        have hgiven : s.Given rr := (h.cross _).given t rr i hi hrr
        split at hu
        next hnode =>
          split at hu
          next hown =>
            cases hu
            right
            obtain ⟨⟨t', -, j, hj, hs⟩, hh⟩ := id hgiven
            rw [hnode] at hs hh
            refine h.link hused hi hrr (.inl ⟨t', j, hj, hs⟩) ?_
            rw [hh]
            simp only [Option.getD_none]
            rw [← hnode]
          · cases hu
            exact .inl rfl
        · split at hu
          next g htr =>
            split at hu
            · cases hu
              right
              have hh : (s.here p).home g = some rr := (h.tidy _).track rr g htr
              refine h.link hused hi hrr (.inr ?_) ?_
              · change (s.here p).home g ≠ none
                rw [hh]
                simp
              · change ((s.here p).home g).getD _ = rr
                rw [hh]
                rfl
            · cases hu
              exact .inl rfl
          · split at hu
            next hf =>
              cases hu
              right
              have hs := h.pullInto (n := (s.proc p).node) hused hf hi hrr
              refine hs.setProc rfl rfl rfl (fun _ => ?_) (fun _ => ?_)
              · exact hs.pulled p (by
                  change (s.proc p).mode ≠ .run
                  simp [hm])
              · left
                change ((s.setNode (s.proc p).node _).node (s.proc p).node).home f = some rr
                rw [setNode_self]
                exact Node.pullInto_home ..
            · cases hu
      · cases hu
  · cases hu

/-- The words that `net_txpullrp` sends of a page that is left behind are references to pages that
are. -/
theorem Inv.given_wire (h : s.Inv) (hf : s.Frozen n f) (hi : i < 512)
    (hw : (s.node n).wire n f i = .ref rr) : s.Given rr := by
  unfold Node.wire at hw
  cases hmem : (s.node n).mem f i with
  | page g perm =>
    have hs : (s.node n).slots f i = some g := by rw [Node.slots, hmem, Node.target_page]
    rw [hmem, Node.wireWord] at hw
    cases hh : (s.node n).home g with
    | some rr' =>
      rw [hh] at hw
      cases hw
      exact (h.cross n).home g _ hh
    | none =>
      rw [hh] at hw
      cases hw
      exact ⟨⟨f, hf, i, hi, hs⟩, hh⟩
  | ref rr' =>
    rw [hmem] at hw
    cases hw
    exact (h.cross n).given f rr i hi hmem
  | blank =>
    rw [hmem] at hw
    cases hw
  | data d =>
    rw [hmem] at hw
    cases hw
  | zero perm =>
    rw [hmem] at hw
    cases hw

/-- The mark that a page is shared changes nothing else. -/
theorem Inv.share (h : s.Inv) (shared : F → Bool) :
    (s.setNode n { s.node n with shared := shared }).Inv := by
  have hty := h.tidy n
  have hch : (s.node n).Change { s.node n with shared := shared } :=
    ⟨rfl, fun _ hf => hf, fun t g i hi hs => ⟨.inl (.inl ⟨t, i, hi, hs⟩), hty.slotUsed t g i hi hs⟩,
      fun _ _ => rfl, hty.homeUsed, hty.freeBlank, hty.track, hty.count⟩
  apply h.edit hch fun _ => False
  · exact fun _ hx => hx.elim
  · exact fun x _ _ => ⟨fun j _ => .inl rfl, rfl⟩
  · exact (h.cross n).given
  · exact fun x rr' hx => .inl hx

/-- The page that a process waits for is kept on its own node. -/
theorem Inv.held_pullrr (h : s.Inv) (hm : (s.proc p).mode = .wait) : s.Held (s.proc p).pullrr := by
  obtain hh | ⟨-, past, hpast, hn, hr⟩ := h.waits p hm
  · exact ((h.cross _).home _ _ hh).held
  · have hl := h.left p past hpast
    exact (hl.held past.root .root _ (.inr ⟨hl.home, hn, hr⟩)).1

theorem store_mem (ns : Node N F D) (f : F) (part : ℕ) (words : ℕ → Word N F D) (t : F) (j : ℕ) :
    (ns.store f part words).mem t j = if t = f ∧ j / 171 = part then words j else ns.mem t j := by
  by_cases ht : t = f
  · subst ht
    simp [Node.store]
  · simp [Node.store, ht]

theorem store_got (ns : Node N F D) (f : F) (part : ℕ) (words : ℕ → Word N F D) (t : F) (k : ℕ) :
    (ns.store f part words).got t k = if t = f ∧ k = part then true else ns.got t k := by
  by_cases ht : t = f
  · subst ht
    by_cases hk : k = part
    · subst hk
      simp [Node.store]
    · simp [Node.store, hk]
  · simp [Node.store, ht]

/-- A part of the page that a process waits for is stored. -/
theorem Inv.store (h : s.Inv) (hm : (s.proc p).mode = .wait) {part : ℕ} (hpart : part < 3)
    (hgot : (s.here p).got (s.proc p).pullpg part = false) :
    (s.setNode (s.proc p).node
      ((s.here p).store (s.proc p).pullpg part (s.canon (s.proc p).pullrr))).Inv := by
  have hheld := h.held_pullrr hm
  have hwaits := h.waits p hm
  have hroot := h.root p
  unfold Waits at hwaits
  change (s.here p).home _ = _ ∨ _ at hwaits
  rw [here] at *
  generalize (s.proc p).pullpg = pg at hwaits hgot ⊢
  generalize (s.proc p).pullrr = rr at hwaits hheld ⊢
  generalize hn : (s.proc p).node = n at hwaits hgot hroot ⊢
  have hty := h.tidy n
  have hused : (s.node n).free pg = false := by
    obtain hh | ⟨rfl, -⟩ := hwaits
    · exact hty.homeUsed _ _ hh
    · exact hroot.used
  have hch : (s.node n).Change ((s.node n).store pg part (s.canon rr)) :=
    hty.store hused fun j => Node.target_wireWord _
  have hfr : ∀ f, s.Frozen n f → f ≠ pg := by
    rintro f hf rfl
    have hwhole := (h.whole n f hf).1
    simp only [Node.complete, Bool.and_eq_true] at hwhole
    have : part = 0 ∨ part = 1 ∨ part = 2 := by omega
    obtain rfl | rfl | rfl := this <;> simp_all
  -- the words of other pages, and those of other parts, are sent as before
  have hother : ∀ f j, j < 512 → ¬ (f = pg ∧ j / 171 = part) →
      ((s.node n).store pg part (s.canon rr)).wire n f j = (s.node n).wire n f j := by
    intro f j hj hne
    unfold Node.wire
    rw [store_mem, if_neg hne]
    apply hch.wireWord
    intro g hg
    exact hty.slotUsed f g j hj hg
  have hnew : ∀ j, j / 171 = part →
      ((s.node n).store pg part (s.canon rr)).wire n pg j = s.canon rr j := by
    intro j hj
    unfold Node.wire
    rw [store_mem, if_pos ⟨rfl, hj⟩]
    exact Node.wireWord_wireWord _
  apply h.setNode hch
  · intro f hf i _
    rw [store_mem, if_neg fun e => hfr f hf e.1]
  · intro f hf
    have hwhole := (h.whole n f hf).1
    simp only [Node.complete, store_got, hfr f hf, false_and, if_false] at hwhole ⊢
    exact hwhole
  · constructor
    · intro t rr' j hj hmem
      rw [store_mem] at hmem
      split at hmem
      · exact h.given_wire hheld.1 hj hmem
      · exact (h.cross n).given t rr' j hj hmem
    · exact (h.cross n).home
    · intro f rr' hf j hj hg
      have hold : (s.node n).home f = some rr' := hf
      by_cases hne : f = pg ∧ j / 171 = part
      · obtain ⟨rfl, hj'⟩ := hne
        rw [hnew j hj']
        obtain hh | ⟨rfl, -⟩ := hwaits
        · rw [hh] at hold
          cases hold
          rfl
        · rw [hroot.home] at hold
          cases hold
      · rw [hother f j hj hne]
        apply (h.cross n).copy f rr' hold j hj
        rw [store_got] at hg
        split at hg
        next e => exact absurd e hne
        · exact hg
  · intro q hq hqm past hpast j hj hg
    by_cases hne : (s.proc q).root = pg ∧ j / 171 = part
    · obtain ⟨hrt, hj'⟩ := hne
      have hqroot := h.root q
      rw [here, hq, hrt] at hqroot
      rw [hrt, hnew j hj']
      obtain hh | ⟨hpg, past', hpast', hnode, hframe⟩ := hwaits
      · rw [hqroot.home] at hh
        cases hh
      · obtain rfl := h.alone q p (hq.trans hn.symm) (hrt.trans hpg)
        rw [hpast] at hpast'
        cases hpast'
        have hl := h.left q past hpast
        exact ((hl.held past.root .root rr (.inr ⟨hl.home, hnode, hframe⟩)).2 j hj).symm
    · rw [hother _ j hj hne]
      obtain ⟨past', hpast', hw⟩ := h.pulled q hqm
      rw [hpast] at hpast'
      cases hpast'
      rw [hq] at hw
      apply hw j hj
      rw [store_got] at hg
      split at hg
      next e => exact absurd e hne
      · exact hg

/-- A part of a page arrives. -/
theorem Inv.pull (h : s.Inv) {part : ℕ} (hu : s.pull p part = some u) : u.Inv := by
  unfold State.pull at hu
  simp only at hu
  split at hu
  next hg =>
    obtain ⟨hm, hpart, hgot, -, -⟩ := hg
    cases hu
    have hsh := h.share (n := (s.proc p).pullrr.node)
      (Function.update (s.node (s.proc p).pullrr.node).shared (s.proc p).pullrr.frame true)
    generalize hv : s.setNode (s.proc p).pullrr.node _ = v at hsh ⊢
    have hproc : v.proc = s.proc := by rw [← hv]; rfl
    have hcanon : (s.node (s.proc p).pullrr.node).wire (s.proc p).pullrr.node
        (s.proc p).pullrr.frame = v.canon (v.proc p).pullrr := by
      funext j
      rw [hproc, canon, ← hv, setNode_self]
      rfl
    have hgot' : (v.here p).got (v.proc p).pullpg part = false := by
      rw [here, hproc, ← hv]
      by_cases hnode : (s.proc p).node = (s.proc p).pullrr.node
      · rw [hnode, setNode_self]
        rw [here, hnode] at hgot
        exact hgot
      · rw [setNode_of_ne _ hnode]
        exact hgot
    have hst := hsh.store (p := p) (by rw [hproc]; exact hm) hpart hgot'
    rw [hcanon, ← hproc]
    refine hst.setProc rfl rfl rfl (fun _ => ?_) (fun _ => ?_)
    · exact hst.pulled p (by
        change (v.proc p).mode ≠ .run
        rw [hproc]
        simp [hm])
    · exact hst.waits p (by
        change (v.proc p).mode = .wait
        rw [hproc]
        exact hm)
  · cases hu

/-- A free page becomes a root, and nothing else changes. -/
theorem Inv.newRoot (h : s.Inv) (hf : (s.node n).free f = true) :
    (s.setNode n ((s.node n).alloc f (fun _ => .blank) false)).Inv ∧
      Rooted ((s.node n).alloc f (fun _ => .blank) false) f ∧
      ∀ q, (s.proc q).node = n → (s.proc q).root ≠ f := by
  have hty := h.tidy n
  have hch := hty.alloc hf
  have hne : ∀ x, (s.node n).free x = false → x ≠ f := by
    rintro x hx rfl
    rw [hx] at hf
    cases hf
  have hmem : ∀ t j, ((s.node n).alloc f (fun _ => .blank) false).mem t j = (s.node n).mem t j := by
    intro t j
    by_cases ht : t = f
    · subst ht
      simp [Node.alloc, hty.freeBlank t j hf]
    · simp [Node.alloc, ht]
  refine ⟨?_, ⟨?_, ?_, ?_, ?_⟩, ?_⟩
  · apply h.edit hch fun _ => False
    · exact fun _ hx => hx.elim
    · intro x hx _
      exact ⟨fun j _ => .inl (hmem x j), by simp [Node.alloc, hne x hx]⟩
    · intro t rr j hj hm
      rw [hmem] at hm
      exact (h.cross n).given t rr j hj hm
    · intro x rr hx
      left
      by_cases hxf : x = f
      · simp [Node.alloc, hxf] at hx
      · simpa [Node.alloc, hxf] using hx
  · simp [Node.alloc]
  · intro t j hj hs
    rw [Node.slots, hmem] at hs
    exact hne f (hty.slotUsed t f j hj hs) rfl
  · by_contra hold
    have hold : (s.node n).old f = true := by simpa [Node.alloc] using hold
    exact hne f (hty.oldUsed f hold) rfl
  · simp [Node.alloc]
  · rintro q hq rfl
    have hr := (h.root q).used
    rw [here, hq] at hr
    exact hne _ hr rfl

/-- A page map root is marked as left behind. -/
def leave (s : State N P F D) (n : N) (r : F) : State N P F D :=
  s.setNode n { s.node n with old := Function.update (s.node n).old r true }

theorem leave_node (s : State N P F D) (n : N) (r : F) (k : N) : ∃ old : F → Bool,
    (s.leave n r).node k = { s.node k with old := old } ∧
      ∀ x, old x = true ↔ (s.node k).old x = true ∨ k = n ∧ x = r := by
  by_cases hk : k = n
  · subst hk
    refine ⟨_, setNode_self _, fun x => ?_⟩
    by_cases hx : x = r
    · simp [hx]
    · simp [hx]
  · exact ⟨(s.node k).old, setNode_of_ne _ hk, by simp [hk]⟩

theorem frozen_leave {k : N} : (s.leave n r).Frozen k f ↔
    s.Frozen k f ∨ k = n ∧ (s.node n).InSpace r f := by
  obtain ⟨old, hnode, hold⟩ := leave_node s n r k
  unfold Frozen
  rw [hnode]
  simp only [Node.inSpace_old, hold]
  constructor
  · rintro ⟨x, hx | ⟨rfl, rfl⟩, hsp⟩
    · exact .inl ⟨x, hx, hsp⟩
    · exact .inr ⟨rfl, hsp⟩
  · rintro (⟨x, hx, hsp⟩ | ⟨rfl, hsp⟩)
    · exact ⟨x, .inl hx, hsp⟩
    · exact ⟨r, .inr ⟨rfl, rfl⟩, hsp⟩

theorem kept_leave (s : State N P F D) (n : N) (r : F) : Kept s (s.leave n r) := by
  refine ⟨fun k f hf => frozen_leave.2 (.inl hf), ?_, ?_, ?_⟩
  · intro k t _ i _ g hs
    obtain ⟨old, hnode, -⟩ := leave_node s n r k
    rw [hnode]
    exact hs
  · intro k f _
    obtain ⟨old, hnode, -⟩ := leave_node s n r k
    rw [hnode]
  · intro k f _ i _
    obtain ⟨old, hnode, -⟩ := leave_node s n r k
    rw [hnode]
    rfl

/-- A process that leaves can tell what it had. -/
theorem Inv.left_leave (h : s.Inv) (p : P)
    (hspace : ∀ g, (s.here p).InSpace (s.proc p).root g →
      (s.here p).complete g = true ∧ ∀ rr, ∀ i < 512, (s.here p).mem g i ≠ .ref rr) :
    (s.leave (s.proc p).node (s.proc p).root).Left
      ⟨(s.proc p).node, s.here p, (s.proc p).root⟩ where
  home := (h.root p).home
  noRef g hg := (hspace g hg).2
  held g hg rr hname := by
    have hk := kept_leave s (s.proc p).node (s.proc p).root
    obtain hh | ⟨hh, hnode, hframe⟩ := hname
    · have hheld : s.Held rr := ((h.cross _).home g rr hh).held
      refine ⟨hk.held hheld, fun i hi => ?_⟩
      rw [hk.canon hheld hi]
      exact (h.cross _).copy g rr hh i hi (Node.got_of_complete (hspace g hg).1 hi)
    · obtain ⟨old, hold, -⟩ := leave_node s (s.proc p).node (s.proc p).root (s.proc p).node
      refine ⟨⟨?_, ?_⟩, fun i hi => ?_⟩
      · rw [hnode, hframe]
        exact frozen_leave.2 (.inr ⟨rfl, hg⟩)
      · rw [hnode, hframe, hold]
        exact hh
      · rw [canon, hnode, hframe, hold]
        rfl

/-- A process leaves its address space behind. -/
theorem Inv.depart (h : s.Inv) (hm : m ≠ (s.proc p).node)
    (hspace : ∀ g, (s.here p).InSpace (s.proc p).root g →
      (s.here p).complete g = true ∧ ∀ rr, ∀ i < 512, (s.here p).mem g i ≠ .ref rr)
    (hr : Rooted (s.node m) f) (hf : ∀ q, (s.proc q).node = m → (s.proc q).root ≠ f)
    (hgot : ∀ k, (s.node m).got f k = false) {w : Proc N F D} (hw : w =
      { node := m, mode := .wait, root := f, pullrr := ⟨(s.proc p).node, (s.proc p).root, 0⟩,
        pullpg := f, past := some ⟨(s.proc p).node, s.here p, (s.proc p).root⟩ }) :
    ((s.leave (s.proc p).node (s.proc p).root).setProc p w).Inv := by
  have hk := kept_leave s (s.proc p).node (s.proc p).root
  have hself : ((s.leave (s.proc p).node (s.proc p).root).setProc p w).proc p = w := by
    simp [State.setProc]
  have hne : ∀ q, q ≠ p →
      ((s.leave (s.proc p).node (s.proc p).root).setProc p w).proc q = s.proc q := by
    intro q hq
    simp [State.setProc, hq]
    rfl
  have hnode : ∀ k, k ≠ (s.proc p).node →
      (s.leave (s.proc p).node (s.proc p).root).node k = s.node k := by
    intro k hk
    exact setNode_of_ne _ hk
  constructor
  case tidy =>
    intro k
    obtain ⟨old, hnode, hold⟩ := leave_node s (s.proc p).node (s.proc p).root k
    change ((s.leave (s.proc p).node (s.proc p).root).node k).Tidy
    rw [hnode]
    have hty := h.tidy k
    refine ⟨hty.freeBlank, hty.slotUsed, hty.homeUsed, hty.track, ?_, ?_, ?_, hty.count⟩
    · intro x hx t i hi
      obtain hx | ⟨rfl, rfl⟩ := (hold x).1 hx
      · exact hty.oldSlot x hx t i hi
      · exact (h.root p).slot t i hi
    · intro x hx
      obtain hx | ⟨rfl, rfl⟩ := (hold x).1 hx
      · exact hty.oldUsed x hx
      · exact (h.root p).used
    · intro x hx
      obtain hx | ⟨rfl, rfl⟩ := (hold x).1 hx
      · exact hty.oldHome x hx
      · exact (h.root p).home
  case cross =>
    intro k
    obtain ⟨old, hnode, -⟩ := leave_node s (s.proc p).node (s.proc p).root k
    have hc := hk.cross (h.cross k)
    refine ⟨?_, ?_, ?_⟩
    · change ∀ t rr, ∀ i < 512,
        ((s.leave (s.proc p).node (s.proc p).root).node k).mem t i = _ → _
      rw [hnode]
      exact hc.given
    · change ∀ f rr, ((s.leave (s.proc p).node (s.proc p).root).node k).home f = _ → _
      rw [hnode]
      exact hc.home
    · change ∀ f rr, ((s.leave (s.proc p).node (s.proc p).root).node k).home f = _ → ∀ i < 512,
        ((s.leave (s.proc p).node (s.proc p).root).node k).got f _ = _ →
          ((s.leave (s.proc p).node (s.proc p).root).node k).wire k f i = _
      rw [hnode]
      exact hc.copy
  case whole =>
    intro k g hg
    obtain ⟨old, hnode, -⟩ := leave_node s (s.proc p).node (s.proc p).root k
    change ((s.leave (s.proc p).node (s.proc p).root).node k).complete g = true ∧ ∀ rr, ∀ i < 512,
      ((s.leave (s.proc p).node (s.proc p).root).node k).mem g i ≠ .ref rr
    rw [hnode]
    obtain hfr | ⟨rfl, hsp⟩ := frozen_leave.1 hg
    · exact h.whole k g hfr
    · exact hspace g hsp
  case root =>
    intro q
    by_cases hq : q = p
    · subst hq
      rw [here, hself, hw]
      change Rooted ((s.leave _ _).node m) f
      rw [hnode m hm]
      exact hr
    · rw [here, hne q hq]
      obtain ⟨old, hnode, hold⟩ := leave_node s (s.proc p).node (s.proc p).root (s.proc q).node
      change Rooted ((s.leave (s.proc p).node (s.proc p).root).node (s.proc q).node) _
      rw [hnode]
      have hrq := h.root q
      refine ⟨hrq.used, hrq.slot, ?_, hrq.home⟩
      by_contra hnew
      obtain hx | ⟨hn, hx⟩ := (hold _).1 (by simpa using hnew)
      · have := hrq.new
        rw [here, hx] at this
        cases this
      · exact hq (h.alone q p hn hx)
  case alone =>
    intro q q' h1 h2
    by_cases hq : q = p
    · by_cases hq' : q' = p
      · rw [hq, hq']
      · rw [hq, hself, hne q' hq', hw] at h1 h2
        exact absurd h2.symm (hf q' h1.symm)
    · by_cases hq' : q' = p
      · rw [hq', hself, hne q hq, hw] at h1 h2
        exact absurd h2 (hf q h1)
      · rw [hne q hq, hne q' hq'] at h1 h2
        exact h.alone q q' h1 h2
  case left =>
    intro q past hq
    by_cases hqp : q = p
    · rw [hqp, hself, hw] at hq
      cases hq
      have hl := h.left_leave p hspace
      exact ⟨hl.home, hl.noRef, hl.held⟩
    · rw [hne q hqp] at hq
      have hl := hk.left (h.left q past hq)
      exact ⟨hl.home, hl.noRef, hl.held⟩
  case pulled =>
    intro q hq
    by_cases hqp : q = p
    · rw [hqp, hself, hw]
      refine ⟨_, rfl, fun i _ hg => ?_⟩
      change ((s.leave _ _).node m).got f _ = true at hg
      rw [hnode m hm, hgot] at hg
      cases hg
    · rw [hne q hqp] at hq ⊢
      obtain ⟨past, hpast, hpl⟩ := h.pulled q hq
      refine ⟨past, hpast, ?_⟩
      obtain ⟨old, hnode, -⟩ := leave_node s (s.proc p).node (s.proc p).root (s.proc q).node
      change ∀ i < 512, ((s.leave (s.proc p).node (s.proc p).root).node (s.proc q).node).got _ _ = _ →
        ((s.leave (s.proc p).node (s.proc p).root).node (s.proc q).node).wire _ _ i = _
      rw [hnode]
      exact hpl
  case waits =>
    intro q hq
    by_cases hqp : q = p
    · rw [hqp, hself, hw]
      exact .inr ⟨rfl, _, rfl, rfl, rfl⟩
    · rw [hne q hqp] at hq ⊢
      obtain hh | hh := h.waits q hq
      · left
        obtain ⟨old, hnode, -⟩ := leave_node s (s.proc p).node (s.proc p).root (s.proc q).node
        change ((s.leave (s.proc p).node (s.proc p).root).node (s.proc q).node).home _ = _
        rw [hnode]
        exact hh
      · exact .inr hh

/-- A process migrates. -/
theorem Inv.migrate (h : s.Inv) (hc : s.Careful (.migrate p m f))
    (hu : s.migrate p m f = some u) : u.Inv := by
  unfold State.migrate at hu
  simp only at hu
  split at hu
  next hg =>
    obtain ⟨-, hm, hf⟩ := hg
    cases hu
    obtain ⟨hinv, hr, hroots⟩ := h.newRoot (n := m) hf
    have hhere : (s.setNode m ((s.node m).alloc f (fun _ => .blank) false)).here p = s.here p := by
      rw [here_setNode, setNode_of_ne _ (Ne.symm hm)]
      rfl
    have hcomm : (s.setNode (s.proc p).node { s.here p with
          old := Function.update (s.here p).old (s.proc p).root true }).setNode m
        (((s.setNode (s.proc p).node { s.here p with
          old := Function.update (s.here p).old (s.proc p).root true }).node m).alloc f
            (fun _ => .blank) false) =
        (s.setNode m ((s.node m).alloc f (fun _ => .blank) false)).leave (s.proc p).node
          (s.proc p).root := by
      rw [setNode_of_ne _ hm, leave, setNode_of_ne _ (Ne.symm hm)]
      unfold State.setNode
      simp only
      rw [Function.update_comm (Ne.symm hm)]
      rfl
    rw [hcomm]
    refine hinv.depart (p := p) (f := f) hm ?_ ?_ ?_ ?_ ?_
    · rw [hhere]
      exact hc
    · rw [setNode_self]
      exact hr
    · exact hroots
    · intro k
      rw [setNode_self]
      simp [Node.alloc]
    · rw [hhere]
      rfl
  · cases hu

/-- The start. -/
theorem Inv.boot (h : Boot s) : s.Inv := by
  have hfr : ∀ n f, ¬ s.Frozen n f := by
    rintro n f ⟨r, hr, -⟩
    rw [h.old] at hr
    cases hr
  constructor
  case tidy =>
    intro n
    refine ⟨h.freeBlank n, h.slotUsed n, ?_, ?_, ?_, ?_, ?_, h.count n⟩
    · intro f rr hf
      rw [h.home] at hf
      cases hf
    · intro rr f hf
      rw [h.track] at hf
      cases hf
    · intro r hr
      rw [h.old] at hr
      cases hr
    · intro r hr
      rw [h.old] at hr
      cases hr
    · exact fun r _ => h.home n r
  case cross =>
    intro n
    refine ⟨fun t rr i hi hm => absurd hm (h.noRef n t rr i hi), ?_, ?_⟩
    · intro f rr hf
      rw [h.home] at hf
      cases hf
    · intro f rr hf
      rw [h.home] at hf
      cases hf
  case whole => exact fun n f hf => absurd hf (hfr n f)
  case root => exact fun p => ⟨h.rootUsed p, h.rootSlot p, h.old _ _, h.home _ _⟩
  case alone => exact h.rootAlone
  case left =>
    intro p past hp
    rw [h.past] at hp
    cases hp
  case pulled => exact fun p hp => absurd (h.mode p) hp
  case waits =>
    intro p hp
    rw [h.mode] at hp
    cases hp

/-- The invariant is kept by every careful step. -/
theorem Inv.step (h : s.Inv) {a : Act N P F D} (hc : s.Careful a) (hu : s.step a = some u) :
    u.stopped = true ∨ u.Inv := by
  unfold State.step at hu
  split at hu
  · cases hu
  · cases a with
    | unshare p path i leaf f => exact .inr (h.unshare hc hu)
    | write p path i d => exact .inr (h.write hc hu)
    | migrate p m f => exact .inr (h.migrate hc hu)
    | pull p part => exact .inr (h.pull hu)
    | resolve p path i f => exact h.resolve hu
    | ready p =>
      right
      simp only at hu
      split at hu
      · cases hu
        refine h.setProc rfl rfl rfl (fun hne => absurd rfl hne) (fun hw => ?_)
        cases hw
      · cases hu

theorem Run.inv (h : Run Careful s) : s.stopped = true ∨ s.Inv := by
  induction h with
  | boot hb => exact .inr (.boot hb)
  | step _ hc hu ih =>
    obtain hs | hi := ih
    · unfold State.step at hu
      rw [if_pos hs] at hu
      cases hu
    · exact hi.step hc hu

/-! ## What is found -/

/-- The first of two nodes: a root, a table and a page of data that the table refers to once or
twice. -/
def smallNode (twice : Bool) : Node Bool (Fin 8) ℕ where
  mem t i :=
    if t = 1 then if i = 0 then .page 2 3 else .zero 0
    else if t = 2 then if i = 0 ∨ i = 1 ∧ twice then .page 3 3 else .zero 0
    else if t = 3 then .data 0
    else .blank
  refcount f := if f = 2 then 1 else if f = 3 then if twice then 2 else 1 else 0
  home _ := none
  track _ := none
  shared _ := false
  free f := f ≠ 1 ∧ f ≠ 2 ∧ f ≠ 3
  got _ _ := true
  old _ := false

/-- A list of steps, each of which meets the condition where it is taken, continues a run. -/
theorem Run.steps {Q : State N P F D → Act N P F D → Prop} (h : Run Q s) (as : List (Act N P F D))
    (hQ : ∀ as₁ a as₂ u, as = as₁ ++ a :: as₂ → s.steps as₁ = some u → Q u a)
    (hu : s.steps as = some u) : Run Q u := by
  induction as generalizing s with
  | nil =>
    obtain rfl := Option.some.inj hu
    exact h
  | cons a as ih =>
    obtain ⟨v, hv, hu⟩ := Option.bind_eq_some_iff.1 hu
    refine ih (h.step (hQ [] a as s rfl rfl) hv) (fun as₁ c as₂ w has hw => ?_) hu
    apply hQ (a :: as₁) c as₂ w (by rw [has]; rfl)
    simpa [State.steps, hv] using hw

/-- The three parts of a page. -/
def threeParts : List (Act Bool Unit (Fin 8) ℕ) := [.pull () 0, .pull () 1, .pull () 2]

/-- The process has come to the second node and pulls its root, the table and the page. -/
def visit : List (Act Bool Unit (Fin 8) ℕ) :=
  threeParts ++ .resolve () [] 0 2 :: threeParts ++ .resolve () [0] 0 3 :: threeParts

/-- The condition on a step as a test; a process that leaves is not tested. -/
def carefulTest (s : State N P F D) : Act N P F D → Bool
  | .unshare p path _ _ _ | .write p path _ _ =>
    ((s.here p).walkW (s.proc p).root path).all fun t => (s.here p).home t = none
  | .migrate _ _ _ => false
  | .resolve p path i _ =>
    (path.inits.all fun path' =>
      ((s.here p).walkTo (s.proc p).root path').all (s.here p).complete) &&
    (s.found p path i).all fun x => (s.here p).complete x.2
  | .pull _ _ | .ready _ => true

theorem careful_of_test {a : Act N P F D} (h : s.carefulTest a = true) : s.Careful a := by
  cases a with
  | unshare p path i leaf f =>
    intro t ht
    simpa [carefulTest, ht] using h
  | write p path i d =>
    intro t ht
    simpa [carefulTest, ht] using h
  | migrate p m f => cases h
  | pull p part => trivial
  | resolve p path i f =>
    simp only [carefulTest, Bool.and_eq_true, List.all_eq_true, List.mem_inits] at h
    constructor
    · intro path' hpre t ht
      simpa [ht] using h.1 path' hpre
    · intro rr g hg
      simpa [hg] using h.2
  | ready p => trivial

/-- Carry out a list of steps and test each of them. -/
def carefulSteps (s : State N P F D) : List (Act N P F D) → Option (State N P F D)
  | [] => some s
  | a :: as => if s.carefulTest a then (s.step a).bind fun u => carefulSteps u as else none

theorem Run.carefulSteps (h : Run Careful s) (as : List (Act N P F D))
    (hu : s.carefulSteps as = some u) : Run Careful u := by
  induction as generalizing s with
  | nil =>
    obtain rfl := Option.some.inj hu
    exact h
  | cons a as ih =>
    rw [State.carefulSteps] at hu
    split at hu
    next hc =>
      obtain ⟨v, hv, hu⟩ := Option.bind_eq_some_iff.1 hu
      exact ih (h.step (careful_of_test hc) hv) hu
    · cases hu

end State

end Determinator.Nodes
