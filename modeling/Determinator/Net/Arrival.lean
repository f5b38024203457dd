import Determinator.Kern.Pullva

/-!
# A process runs when its pages have arrived

`net_pullpte` enters a page in a table and in the home list before its contents have arrived, and
the loop of `net_rxpullrp` does not wait for a page that another process is pulling. Where the loop
passes over a page only when all three parts of it are there, a process that is ready has all of its
pages.
-/

namespace Determinator.Pullva

variable {P : Type} {node : BitVec 8} {s u : State P} {p q : P} {t f g : Frame} {va : ℕ}

/-! ## Addresses -/

/-- Addresses in one block of level `m` have the same index at the levels above. -/
theorem pdx_eq_of_block {m n va va' : ℕ} (hmn : m ≤ n) (h : va / pdSize m = va' / pdSize m) :
    pdx n va = pdx n va' := by
  have hs : pdSize n = pdSize m * 512 ^ (n - m) := by
    unfold pdSize
    rw [Nat.mul_assoc, ← pow_add, Nat.add_sub_cancel' hmn]
  unfold pdx
  rw [hs, ← Nat.div_div_eq_div_mul, ← Nat.div_div_eq_div_mul, h]

/-- The addresses of a page. -/
theorem block_page {va va' : ℕ} (ha : va % pageSize = 0) (h : va ≤ va')
    (h' : va' < va + pageSize) : va / pdSize 0 = va' / pdSize 0 := by
  have hs : pdSize 0 = 4096 := by simp [pdSize]
  rw [hs]
  simp only [pageSize] at ha h'
  omega

/-- The addresses up to the next block of level 1. -/
theorem block_next {va va' : ℕ} (h : va ≤ va') (h' : va' < pdAddr 1 (va + pdSize 1)) :
    va / pdSize 1 = va' / pdSize 1 := by
  have hs : pdSize 1 = 2097152 := by simp [pdSize]
  unfold pdAddr at h'
  rw [hs] at h' ⊢
  omega

theorem next_aligned (va : ℕ) : pdAddr 1 (va + pdSize 1) % pageSize = 0 := by
  have hs : pdSize 1 = 2097152 := by simp [pdSize]
  unfold pdAddr pageSize
  rw [hs]
  omega

namespace State

/-! ## What is claimed -/

/-- All three parts of the page have been received. -/
def Complete (s : State P) (f : Frame) : Prop := ∀ i < 3, s.got f i = true

/-- What an address leads to is a zero mapping or complete pages. -/
def ArrivedAt (s : State P) (p : P) (va : ℕ) : Prop :=
  (s.proc p).root (pdx 3 va) = .zero ∨
    ∃ t, (s.proc p).root (pdx 3 va) = .page t ∧ s.Complete t ∧
      (s.tab t (pdx 0 va) = .zero ∨ ∃ g, s.tab t (pdx 0 va) = .page g ∧ s.Complete g)

/-- A process that is ready has all the pages of its address space. -/
def Arrived (s : State P) : Prop :=
  ∀ p, (s.proc p).mode = .ready → ∀ va, vmUserLo ≤ va → va < vmUserHi → s.ArrivedAt p va

/-- The loop passes over tables and pages only when they are complete. -/
def Patient (s : State P) : Act P → Prop
  | .walk p _ => (s.proc p).pullva < vmUserHi → ∀ t,
      (s.proc p).root (pdx 3 (s.proc p).pullva) = .page t →
        s.Complete t ∧ ∀ g, s.tab t (pdx 0 (s.proc p).pullva) = .page g → s.Complete g
  | _ => True

/-! ## The invariant -/

/-- The process waits for a table or a page. -/
def Pulls (s : State P) (p : P) (f : Frame) : Prop :=
  (s.proc p).mode = .wait ∧ (s.proc p).pglev ≠ 2 ∧ (s.proc p).pullpg = f

/-- The addresses a process has passed have arrived, and a page that is being pulled is pulled by
one process. -/
structure Inv (s : State P) : Prop where
  passed : ∀ p, (s.proc p).mode ≠ .away → ∀ va, vmUserLo ≤ va → va < (s.proc p).pullva →
    va < vmUserHi → s.ArrivedAt p va
  aligned : ∀ p, (s.proc p).pullva % pageSize = 0
  first : ∀ p, (s.proc p).mode = .wait → (s.proc p).pglev = 2 → (s.proc p).pullva = vmUserLo
  ready : ∀ p, (s.proc p).mode = .ready → vmUserHi ≤ (s.proc p).pullva
  mask : ∀ p f, s.Pulls p f → ∀ i, (s.proc p).arrived i = s.got f i
  alone : ∀ p q f, s.Pulls p f → s.Pulls q f → p = q
  pullsUsed : ∀ p f, s.Pulls p f → s.free f = false
  rootUsed : ∀ p i f, (s.proc p).root i = .page f → s.free f = false
  tabUsed : ∀ t i f, s.tab t i = .page f → s.free f = false
  trackUsed : ∀ rr f, s.track rr = some f → s.free f = false
  ownUsed : ∀ f, s.own f = true → s.free f = false

/-- The invariant gives what is claimed. -/
theorem Inv.arrived (h : Inv s) : s.Arrived := by
  intro p hp va hlo hhi
  apply h.passed p (by simp [hp]) va hlo _ hhi
  have := h.ready p hp
  omega

/-- What an address leads to stays as it is while its entries and its pages do. -/
theorem ArrivedAt.congr (h : s.ArrivedAt p va)
    (hroot : (s.proc p).root (pdx 3 va) = .zero ∨ (∃ t, (s.proc p).root (pdx 3 va) = .page t) →
      (u.proc p).root (pdx 3 va) = (s.proc p).root (pdx 3 va))
    (htab : ∀ t, (s.proc p).root (pdx 3 va) = .page t → s.Complete t →
      s.tab t (pdx 0 va) = .zero ∨ (∃ g, s.tab t (pdx 0 va) = .page g) →
        u.tab t (pdx 0 va) = s.tab t (pdx 0 va))
    (hgot : ∀ t, (s.proc p).root (pdx 3 va) = .page t ∨
      (∃ t', (s.proc p).root (pdx 3 va) = .page t' ∧ s.tab t' (pdx 0 va) = .page t) →
        s.Complete t → u.Complete t) : u.ArrivedAt p va := by
  obtain hz | ⟨t, ht, hc, hz | ⟨g, hg, hcg⟩⟩ := h
  · exact .inl ((hroot (.inl hz)).trans hz)
  · right
    refine ⟨t, (hroot (.inr ⟨t, ht⟩)).trans ht, hgot t (.inl ht) hc, .inl ?_⟩
    exact (htab t ht hc (.inl hz)).trans hz
  · right
    refine ⟨t, (hroot (.inr ⟨t, ht⟩)).trans ht, hgot t (.inl ht) hc, .inr ⟨g, ?_, ?_⟩⟩
    · exact (htab t ht hc (.inr ⟨g, hg⟩)).trans hg
    · exact hgot g (.inr ⟨t, ht, hg⟩) hcg

/-! ## Entries -/

variable [DecidableEq P]

theorem setRoot_of_ne {i : ℕ} {e : Entry} (h : q ≠ p) : (s.setRoot p i e).proc q = s.proc q :=
  Function.update_of_ne h _ _

theorem setRoot_root {i j : ℕ} {e : Entry} :
    ((s.setRoot p i e).proc q).root j =
      if q = p ∧ j = i then e else (s.proc q).root j := by
  by_cases hq : q = p
  · subst hq
    by_cases hj : j = i
    · subst hj
      simp [setRoot, setProc]
    · simp [setRoot, setProc, hj]
  · simp [setRoot_of_ne hq, hq]

theorem setRoot_fields {i : ℕ} {e : Entry} :
    ((s.setRoot p i e).proc q).mode = (s.proc q).mode ∧
      ((s.setRoot p i e).proc q).pullva = (s.proc q).pullva ∧
      ((s.setRoot p i e).proc q).pglev = (s.proc q).pglev ∧
      ((s.setRoot p i e).proc q).pullpg = (s.proc q).pullpg ∧
      ((s.setRoot p i e).proc q).arrived = (s.proc q).arrived := by
  by_cases hq : q = p
  · subst hq
    simp [setRoot, setProc]
  · simp [setRoot_of_ne hq]

/-- A remote reference in a root is replaced. -/
theorem Inv.setRoot (h : Inv s) {i : ℕ} {rr : Rr} {e : Entry} (hr : (s.proc p).root i = .ref rr)
    (he : ∀ g, e = .page g → s.free g = false) : Inv (s.setRoot p i e) := by
  have hf := fun q => setRoot_fields (s := s) (p := p) (q := q) (i := i) (e := e)
  have hpulls : ∀ q f, (s.setRoot p i e).Pulls q f ↔ s.Pulls q f := by
    intro q f
    obtain ⟨h1, h2, h3, h4, h5⟩ := hf q
    simp only [Pulls, h1, h3, h4]
  have harr : ∀ q va, s.ArrivedAt q va → (s.setRoot p i e).ArrivedAt q va := by
    intro q va ha
    refine ha.congr ?_ (fun _ _ _ _ => rfl) (fun _ _ => id)
    intro hcase
    rw [setRoot_root, if_neg]
    rintro ⟨rfl, hi⟩
    rw [hi, hr] at hcase
    obtain hc | ⟨t, hc⟩ := hcase <;> cases hc
  constructor
  case passed =>
    intro q hm va hlo hlt hhi
    obtain ⟨h1, h2, -⟩ := hf q
    rw [h1] at hm
    rw [h2] at hlt
    exact harr q va (h.passed q hm va hlo hlt hhi)
  case aligned =>
    intro q
    rw [(hf q).2.1]
    exact h.aligned q
  case first =>
    intro q hm hl
    obtain ⟨h1, h2, h3, -⟩ := hf q
    rw [h1] at hm
    rw [h3] at hl
    rw [h2]
    exact h.first q hm hl
  case ready =>
    intro q hm
    obtain ⟨h1, h2, -⟩ := hf q
    rw [h1] at hm
    rw [h2]
    exact h.ready q hm
  case mask =>
    intro q f hq j
    rw [(hf q).2.2.2.2]
    exact h.mask q f ((hpulls q f).1 hq) j
  case alone =>
    intro q r f hq hr'
    exact h.alone q r f ((hpulls q f).1 hq) ((hpulls r f).1 hr')
  case pullsUsed => exact fun q f hq => h.pullsUsed q f ((hpulls q f).1 hq)
  case rootUsed =>
    intro q j f hq
    rw [setRoot_root] at hq
    split at hq
    · exact he f hq
    · exact h.rootUsed q j f hq
  case tabUsed => exact h.tabUsed
  case trackUsed => exact h.trackUsed
  case ownUsed => exact h.ownUsed

omit [DecidableEq P] in
/-- A remote reference in a table is replaced. -/
theorem Inv.setTab (h : Inv s) {i : ℕ} {rr : Rr} {e : Entry} (hr : s.tab t i = .ref rr)
    (he : ∀ g, e = .page g → s.free g = false) : Inv (s.setTab t i e) := by
  have htab : ∀ t' j, (s.setTab t i e).tab t' j = if t' = t ∧ j = i then e else s.tab t' j := by
    intro t' j
    by_cases ht : t' = t
    · subst ht
      by_cases hj : j = i
      · subst hj
        simp [State.setTab]
      · simp [State.setTab, hj]
    · simp [State.setTab, ht]
  have harr : ∀ q va, s.ArrivedAt q va → (s.setTab t i e).ArrivedAt q va := by
    intro q va ha
    refine ha.congr (fun _ => rfl) ?_ (fun _ _ => id)
    intro t' _ _ hcase
    rw [htab, if_neg]
    rintro ⟨rfl, hi⟩
    rw [hi, hr] at hcase
    obtain hc | ⟨g, hc⟩ := hcase <;> cases hc
  exact { h with
    passed := fun q hm va hlo hlt hhi => harr q va (h.passed q hm va hlo hlt hhi)
    tabUsed := by
      intro t' j f hf
      rw [htab] at hf
      split at hf
      · exact he f hf
      · exact h.tabUsed t' j f hf }

/-! ## `net_pullpte` -/

omit [DecidableEq P] in
theorem Inv.stop (h : Inv s) : Inv { s with stopped := true } := by
  refine { h with passed := ?_ }
  intro q hm va hlo hlt hhi
  exact (h.passed q hm va hlo hlt hhi).congr (fun _ => rfl) (fun _ _ _ _ => rfl) (fun _ _ => id)

/-- A process starts to pull a page into a free one. -/
def startPull (s : State P) (p : P) (rr : Rr) (pglevel : ℕ) (f : Frame) : State P :=
  { s.setProc p { s.proc p with
      mode := .wait, pullpg := f, pglev := pglevel, arrived := fun _ => false } with
    free := Function.update s.free f false
    track := Function.update s.track rr (some f)
    got := Function.update s.got f fun _ => false }

theorem Inv.startPull (h : Inv s) {rr : Rr} {lev : ℕ} (hp : (s.proc p).mode = .walk)
    (hlev : lev ≤ 1) (hf : s.free f = true) : Inv (s.startPull p rr lev f) := by
  set v := s.startPull p rr lev f with hv
  have hself : v.proc p = { s.proc p with
      mode := .wait, pullpg := f, pglev := lev, arrived := fun _ => false } :=
    Function.update_self _ _ _
  have hother : ∀ q, q ≠ p → v.proc q = s.proc q := fun q hq => Function.update_of_ne hq _ _
  have hroot : ∀ q, (v.proc q).root = (s.proc q).root ∧ (v.proc q).pullva = (s.proc q).pullva := by
    intro q
    by_cases hq : q = p
    · subst hq
      rw [hself]
      exact ⟨rfl, rfl⟩
    · rw [hother q hq]
      exact ⟨rfl, rfl⟩
  have hfree : ∀ g, s.free g = false → v.free g = false := by
    intro g hg
    by_cases hgf : g = f
    · subst hgf
      exact Function.update_self _ _ _
    · exact (Function.update_of_ne hgf _ _).trans hg
  have hgot : ∀ g, s.free g = false → v.got g = s.got g := by
    intro g hg
    apply Function.update_of_ne
    rintro rfl
    rw [hf] at hg
    cases hg
  have hpulls : ∀ q g, v.Pulls q g → q = p ∧ g = f ∨ q ≠ p ∧ s.Pulls q g := by
    intro q g hq
    by_cases hqp : q = p
    · subst hqp
      obtain ⟨-, -, hg⟩ := hq
      rw [hself] at hg
      exact .inl ⟨rfl, hg.symm⟩
    · refine .inr ⟨hqp, ?_⟩
      unfold Pulls at hq ⊢
      rwa [hother q hqp] at hq
  have harr : ∀ q va, s.ArrivedAt q va → v.ArrivedAt q va := by
    intro q va ha
    refine ha.congr (fun _ => by rw [(hroot q).1]) (fun _ _ _ _ => rfl) ?_
    intro t ht hc i hi
    have hused : s.free t = false := by
      obtain ht | ⟨t', -, ht⟩ := ht
      · exact h.rootUsed q _ t ht
      · exact h.tabUsed t' _ t ht
    rw [hgot t hused]
    exact hc i hi
  constructor
  case passed =>
    intro q hm va hlo hlt hhi
    apply harr q va
    rw [(hroot q).2] at hlt
    by_cases hq : q = p
    · subst hq
      exact h.passed q (by simp [hp]) va hlo hlt hhi
    · rw [hother q hq] at hm
      exact h.passed q hm va hlo hlt hhi
  case aligned =>
    intro q
    rw [(hroot q).2]
    exact h.aligned q
  case first =>
    intro q hm hl
    by_cases hq : q = p
    · subst hq
      rw [hself] at hl
      simp only at hl
      omega
    · rw [hother q hq] at hm hl ⊢
      exact h.first q hm hl
  case ready =>
    intro q hm
    by_cases hq : q = p
    · subst hq
      rw [hself] at hm
      cases hm
    · rw [hother q hq] at hm ⊢
      exact h.ready q hm
  case mask =>
    intro q g hq i
    obtain ⟨rfl, rfl⟩ | ⟨hqp, hq⟩ := hpulls q g hq
    · rw [hself]
      simp [hv, State.startPull]
    · rw [hother q hqp, hgot g (h.pullsUsed q g hq)]
      exact h.mask q g hq i
  case alone =>
    intro q r g hq hr
    have hclash : ∀ x, s.Pulls x f → False := by
      intro x hx
      have := h.pullsUsed x f hx
      rw [hf] at this
      cases this
    obtain ⟨hqp, hg⟩ | ⟨-, hq'⟩ := hpulls q g hq <;> obtain ⟨hrp, hg'⟩ | ⟨-, hr'⟩ := hpulls r g hr
    · rw [hqp, hrp]
    · exact (hclash r (hg ▸ hr')).elim
    · exact (hclash q (hg' ▸ hq')).elim
    · exact h.alone q r g hq' hr'
  case pullsUsed =>
    intro q g hq
    obtain ⟨-, rfl⟩ | ⟨-, hq⟩ := hpulls q g hq
    · exact Function.update_self _ _ _
    · exact hfree g (h.pullsUsed q g hq)
  case rootUsed =>
    intro q i g hg
    rw [(hroot q).1] at hg
    exact hfree g (h.rootUsed q i g hg)
  case tabUsed => exact fun t i g hg => hfree g (h.tabUsed t i g hg)
  case trackUsed =>
    intro x g hg
    by_cases hx : x = rr
    · subst hx
      simp only [hv, State.startPull, Function.update_self, Option.some.injEq] at hg
      subst hg
      exact Function.update_self _ _ _
    · simp only [hv, State.startPull, Function.update_of_ne hx] at hg
      exact hfree g (h.trackUsed x g hg)
  case ownUsed => exact fun g hg => hfree g (h.ownUsed g hg)

/-- `net_pullpte` keeps the invariant, the tables and the roots, and the entry it gives is not to a
free page. -/
theorem Inv.netPullpte (h : Inv s) {rr : Rr} {lev : ℕ} {e : Entry} (hp : (s.proc p).mode = .walk)
    (hlev : lev ≤ 1) (hu : s.netPullpte node p rr lev f = some (e, u)) :
    Inv u ∧ (∀ g, e = .page g → u.free g = false) ∧ u.tab = s.tab ∧
      (u.proc p).root = (s.proc p).root := by
  unfold State.netPullpte at hu
  split at hu
  · cases hu
    exact ⟨h, by simp, rfl, rfl⟩
  · split at hu
    · simp only at hu
      split at hu
      next hown =>
        cases hu
        refine ⟨h, ?_, rfl, rfl⟩
        rintro g ⟨⟩
        exact h.ownUsed _ hown
      · cases hu
        exact ⟨h.stop, by simp, rfl, rfl⟩
    · split at hu
      next pi htr =>
        cases hu
        refine ⟨h, ?_, rfl, rfl⟩
        rintro g ⟨⟩
        exact h.trackUsed _ _ htr
      · split at hu
        next hf =>
          cases hu
          refine ⟨h.startPull hp hlev hf, ?_, rfl, ?_⟩
          · rintro g ⟨⟩
            exact Function.update_self _ _ _
          · simp [State.setProc]
        · cases hu

/-! ## The loop -/

/-- A process that does not wait goes on to another address or another mode. -/
theorem Inv.move (h : Inv s) (m : Mode) (va : ℕ) (hold : (s.proc p).mode ≠ .wait) (hm : m ≠ .wait)
    (ha : va % pageSize = 0) (hr : m = .ready → vmUserHi ≤ va)
    (hpass : m ≠ .away → ∀ x, vmUserLo ≤ x → x < va → x < vmUserHi → s.ArrivedAt p x) :
    Inv (s.setProc p { s.proc p with mode := m, pullva := va }) := by
  set v := s.setProc p { s.proc p with mode := m, pullva := va } with hv
  have hself : v.proc p = { s.proc p with mode := m, pullva := va } := Function.update_self _ _ _
  have hother : ∀ q, q ≠ p → v.proc q = s.proc q := fun q hq => Function.update_of_ne hq _ _
  have hroot : ∀ q, (v.proc q).root = (s.proc q).root := by
    intro q
    by_cases hq : q = p
    · subst hq
      rw [hself]
    · rw [hother q hq]
  have hpulls : ∀ q g, v.Pulls q g → q ≠ p ∧ s.Pulls q g := by
    intro q g hq
    have hqp : q ≠ p := by
      rintro rfl
      have := hq.1
      rw [hself] at this
      exact hm this
    refine ⟨hqp, ?_⟩
    unfold Pulls at hq ⊢
    rwa [hother q hqp] at hq
  have harr : ∀ q x, s.ArrivedAt q x → v.ArrivedAt q x := by
    intro q x hx
    exact hx.congr (fun _ => by rw [hroot q]) (fun _ _ _ _ => rfl) (fun _ _ => id)
  constructor
  case passed =>
    intro q hmq x hlo hlt hhi
    apply harr q x
    by_cases hq : q = p
    · subst hq
      rw [hself] at hmq hlt
      exact hpass hmq x hlo hlt hhi
    · rw [hother q hq] at hmq hlt
      exact h.passed q hmq x hlo hlt hhi
  case aligned =>
    intro q
    by_cases hq : q = p
    · subst hq
      rw [hself]
      exact ha
    · rw [hother q hq]
      exact h.aligned q
  case first =>
    intro q hmq hl
    by_cases hq : q = p
    · subst hq
      rw [hself] at hmq
      exact absurd hmq hm
    · rw [hother q hq] at hmq hl ⊢
      exact h.first q hmq hl
  case ready =>
    intro q hmq
    by_cases hq : q = p
    · subst hq
      rw [hself] at hmq ⊢
      exact hr hmq
    · rw [hother q hq] at hmq ⊢
      exact h.ready q hmq
  case mask =>
    intro q g hq i
    obtain ⟨hqp, hq⟩ := hpulls q g hq
    rw [hother q hqp]
    exact h.mask q g hq i
  case alone => exact fun q r g hq hr' => h.alone q r g (hpulls q g hq).2 (hpulls r g hr').2
  case pullsUsed => exact fun q g hq => h.pullsUsed q g (hpulls q g hq).2
  case rootUsed =>
    intro q i g hg
    rw [hroot q] at hg
    exact h.rootUsed q i g hg
  case tabUsed => exact h.tabUsed
  case trackUsed => exact h.trackUsed
  case ownUsed => exact h.ownUsed

omit [DecidableEq P] in
theorem ArrivedAt.of_pdx {x y : ℕ} (h : s.ArrivedAt p x) (h3 : pdx 3 x = pdx 3 y)
    (h0 : pdx 0 x = pdx 0 y) : s.ArrivedAt p y := by
  unfold ArrivedAt at h ⊢
  rwa [h3, h0] at h

/-- One round of the loop. -/
theorem Inv.walk (h : Inv s) (hm : (s.proc p).mode = .walk) (ha : s.Patient (.walk p f))
    (hu : s.walk node p f = some u) : Inv u := by
  have hnw : (s.proc p).mode ≠ .wait := by simp [hm]
  have hpassed := h.passed p (by simp [hm])
  have halign := h.aligned p
  unfold State.walk at hu
  simp only at hu
  split at hu
  next hhi =>
    cases hu
    have := h.move .ready _ hnw (by simp) halign (fun _ => hhi) fun _ => hpassed
    exact this
  next hhi =>
    have hhi : (s.proc p).pullva < vmUserHi := Nat.not_le.1 hhi
    split at hu
    next rr hrr =>
      obtain ⟨⟨e, v⟩, hv, rfl⟩ := Option.map_eq_some_iff.1 hu
      obtain ⟨hi, he, -, hroot⟩ := h.netPullpte hm le_rfl hv
      exact hi.setRoot (by rw [hroot]; exact hrr) he
    next hz =>
      cases hu
      have := h.move .walk (pdAddr 1 ((s.proc p).pullva + pdSize 1)) hnw (by simp)
        (next_aligned _) (by simp) ?_
      · rw [← hm] at this
        exact this
      · intro _ x hlo hlt hx
        by_cases hxp : x < (s.proc p).pullva
        · exact hpassed x hlo hxp hx
        · have hb := block_next (Nat.not_lt.1 hxp) hlt
          left
          rw [← pdx_eq_of_block (by omega) hb]
          exact hz
    · cases hu
      exact h.stop
    next t ht =>
      obtain ⟨hct, hcg⟩ := ha hhi t ht
      have hadv : s.ArrivedAt p (s.proc p).pullva →
          Inv (s.setProc p { s.proc p with pullva := (s.proc p).pullva + pageSize }) := by
        intro harr
        have := h.move .walk ((s.proc p).pullva + pageSize) hnw (by simp) ?_ (by simp) ?_
        · rw [← hm] at this
          exact this
        · simp only [pageSize] at halign ⊢
          omega
        · intro _ x hlo hlt hx
          by_cases hxp : x < (s.proc p).pullva
          · exact hpassed x hlo hxp hx
          · have hb := block_page halign (Nat.not_lt.1 hxp) hlt
            exact harr.of_pdx (pdx_eq_of_block (by omega) hb) (pdx_eq_of_block (by omega) hb)
      split at hu
      next rr hrr =>
        obtain ⟨⟨e, v⟩, hv, rfl⟩ := Option.map_eq_some_iff.1 hu
        obtain ⟨hi, he, htab, -⟩ := h.netPullpte hm (by omega) hv
        exact hi.setTab (by rw [htab]; exact hrr) he
      · cases hu
        exact h.stop
      next hz =>
        cases hu
        exact hadv (.inr ⟨t, ht, hct, .inl hz⟩)
      next g hg =>
        cases hu
        exact hadv (.inr ⟨t, ht, hct, .inr ⟨g, hg, hcg g hg⟩⟩)

/-! ## Receiving -/

omit [DecidableEq P] in
theorem fill_page {e : ℕ → Entry} {size part i : ℕ} {words : ℕ → Option Rr}
    (h : fill e size part words i = .page f) : e i = .page f := by
  unfold fill at h
  split at h
  · cases hw : words i <;> rw [hw] at h <;> cases h
  · exact h

/-- The root of a process is replaced while it has not passed any address. -/
theorem Inv.setFirst (h : Inv s) {w : Puller} (hl : w.pglev = 2) (hm : w.mode = .wait ∨ w.mode = .walk)
    (hva : w.pullva = vmUserLo)
    (hroot : ∀ i g, w.root i = .page g → s.free g = false) : Inv (s.setProc p w) := by
  have hself : (s.setProc p w).proc p = w := Function.update_self _ _ _
  have hother : ∀ q, q ≠ p → (s.setProc p w).proc q = s.proc q := fun q hq => Function.update_of_ne hq _ _
  have hpulls : ∀ q g, (s.setProc p w).Pulls q g → q ≠ p ∧ s.Pulls q g := by
    intro q g hq
    have hqp : q ≠ p := by
      rintro rfl
      have := hq.2.1
      rw [hself] at this
      exact this hl
    refine ⟨hqp, ?_⟩
    unfold Pulls at hq ⊢
    rwa [hother q hqp] at hq
  constructor
  case passed =>
    intro q hmq x hlo hlt hhi
    by_cases hq : q = p
    · subst hq
      rw [hself, hva] at hlt
      omega
    · rw [hother q hq] at hmq hlt
      refine (h.passed q hmq x hlo hlt hhi).congr ?_ (fun _ _ _ _ => rfl) (fun _ _ => id)
      intro _
      rw [hother q hq]
  case aligned =>
    intro q
    by_cases hq : q = p
    · subst hq
      rw [hself, hva]
      decide
    · rw [hother q hq]
      exact h.aligned q
  case first =>
    intro q hmq hlq
    by_cases hq : q = p
    · subst hq
      rw [hself]
      exact hva
    · rw [hother q hq] at hmq hlq ⊢
      exact h.first q hmq hlq
  case ready =>
    intro q hmq
    by_cases hq : q = p
    · subst hq
      rw [hself] at hmq
      obtain hm | hm := hm <;> rw [hm] at hmq <;> cases hmq
    · rw [hother q hq] at hmq ⊢
      exact h.ready q hmq
  case mask =>
    intro q g hq i
    obtain ⟨hqp, hq⟩ := hpulls q g hq
    rw [hother q hqp]
    exact h.mask q g hq i
  case alone => exact fun q r g hq hr' => h.alone q r g (hpulls q g hq).2 (hpulls r g hr').2
  case pullsUsed => exact fun q g hq => h.pullsUsed q g (hpulls q g hq).2
  case rootUsed =>
    intro q i g hg
    by_cases hq : q = p
    · subst hq
      rw [hself] at hg
      exact hroot i g hg
    · rw [hother q hq] at hg
      exact h.rootUsed q i g hg
  case tabUsed => exact h.tabUsed
  case trackUsed => exact h.trackUsed
  case ownUsed => exact h.ownUsed

/-- A part of a table or a page is stored. -/
theorem Inv.storePart (h : Inv s) {part : ℕ} {m : Mode} {tab : Frame → ℕ → Entry}
    (hp : s.Pulls p f) (hnew : (s.proc p).arrived part = false) (hpart : part < 3)
    (hm : m = .wait ∨ m = .walk)
    (htab : ∀ g, g ≠ f → tab g = s.tab g)
    (hpage : ∀ i g, tab f i = .page g → s.free g = false) :
    Inv { s.setProc p { s.proc p with arrived := Function.update (s.proc p).arrived part true
                                      mode := m } with
      got := Function.update s.got f (Function.update (s.got f) part true)
      tab := tab } := by
  set v : State P := { s.setProc p { s.proc p with
      arrived := Function.update (s.proc p).arrived part true
      mode := m } with
    got := Function.update s.got f (Function.update (s.got f) part true)
    tab := tab } with hv
  have hself : v.proc p = { s.proc p with
      arrived := Function.update (s.proc p).arrived part true
      mode := m } := Function.update_self _ _ _
  have hother : ∀ q, q ≠ p → v.proc q = s.proc q := fun q hq => Function.update_of_ne hq _ _
  have hfix : ∀ q, (v.proc q).root = (s.proc q).root ∧ (v.proc q).pullva = (s.proc q).pullva ∧
      (v.proc q).pglev = (s.proc q).pglev ∧ (v.proc q).pullpg = (s.proc q).pullpg := by
    intro q
    by_cases hq : q = p
    · subst hq
      rw [hself]
      exact ⟨rfl, rfl, rfl, rfl⟩
    · rw [hother q hq]
      exact ⟨rfl, rfl, rfl, rfl⟩
  have hpulls : ∀ q g, v.Pulls q g → s.Pulls q g := by
    intro q g hq
    by_cases hqp : q = p
    · subst hqp
      obtain ⟨-, -, hg⟩ := hq
      rw [(hfix q).2.2.2, hp.2.2] at hg
      exact hg ▸ hp
    · unfold Pulls at hq ⊢
      rwa [hother q hqp] at hq
  have hnc : ¬ s.Complete f := by
    intro hc
    have := h.mask p f hp part
    rw [hnew, hc part hpart] at this
    cases this
  have hgot : ∀ g i, s.got g i = true → v.got g i = true := by
    intro g i hg
    by_cases hgf : g = f
    · subst hgf
      by_cases hi : i = part
      · subst hi
        simp [hv]
      · simpa [hv, hi] using hg
    · simpa [hv, hgf] using hg
  have harr : ∀ q x, s.ArrivedAt q x → v.ArrivedAt q x := by
    intro q x hx
    refine hx.congr (fun _ => by rw [(hfix q).1]) ?_ (fun t _ hc i hi => hgot t i (hc i hi))
    intro t _ hc _
    have htf : t ≠ f := by
      rintro rfl
      exact hnc hc
    exact congrFun (htab t htf) _
  have hmode : ∀ q, (v.proc q).mode ≠ .away → (s.proc q).mode ≠ .away := by
    intro q hq
    by_cases hqp : q = p
    · subst hqp
      rw [hp.1]
      simp
    · rwa [hother q hqp] at hq
  constructor
  case passed =>
    intro q hmq x hlo hlt hhi
    rw [(hfix q).2.1] at hlt
    exact harr q x (h.passed q (hmode q hmq) x hlo hlt hhi)
  case aligned =>
    intro q
    rw [(hfix q).2.1]
    exact h.aligned q
  case first =>
    intro q hmq hl
    rw [(hfix q).2.2.1] at hl
    rw [(hfix q).2.1]
    by_cases hq : q = p
    · subst hq
      exact absurd hl hp.2.1
    · rw [hother q hq] at hmq
      exact h.first q hmq hl
  case ready =>
    intro q hmq
    rw [(hfix q).2.1]
    by_cases hq : q = p
    · subst hq
      rw [hself] at hmq
      obtain hm | hm := hm <;> rw [hm] at hmq <;> cases hmq
    · rw [hother q hq] at hmq
      exact h.ready q hmq
  case mask =>
    intro q g hq i
    have hq' := hpulls q g hq
    by_cases hqp : q = p
    · subst hqp
      obtain rfl : g = f := hq'.2.2.symm.trans hp.2.2
      rw [hself]
      by_cases hi : i = part
      · subst hi
        simp [hv]
      · simpa [hv, hi] using h.mask q g hp i
    · have hgf : g ≠ f := by
        rintro rfl
        exact hqp (h.alone q p g hq' hp)
      rw [hother q hqp]
      simpa [hv, hgf] using h.mask q g hq' i
  case alone => exact fun q r g hq hr' => h.alone q r g (hpulls q g hq) (hpulls r g hr')
  case pullsUsed => exact fun q g hq => h.pullsUsed q g (hpulls q g hq)
  case rootUsed =>
    intro q i g hg
    rw [(hfix q).1] at hg
    exact h.rootUsed q i g hg
  case tabUsed =>
    intro t i g hg
    by_cases ht : t = f
    · subst ht
      exact hpage i g hg
    · exact h.tabUsed t i g ((congrFun (htab t ht) i) ▸ hg)
  case trackUsed => exact h.trackUsed
  case ownUsed => exact h.ownUsed

/-- A part of a page arrives. -/
theorem Inv.store (h : Inv s) (hm : (s.proc p).mode = .wait) (part : ℕ) (words : ℕ → Option Rr) :
    Inv (s.store p part words) := by
  unfold State.store
  simp only
  split
  · exact h
  next hpart =>
    rw [not_or] at hpart
    have hlt : part < 3 := by omega
    have hnew : (s.proc p).arrived part = false := by simpa using hpart.2
    set m : Mode := if Function.update (s.proc p).arrived part true 0 = true ∧
        Function.update (s.proc p).arrived part true 1 = true ∧
        Function.update (s.proc p).arrived part true 2 = true then .walk else .wait with hmdef
    have hmode : m = .wait ∨ m = .walk := by
      rw [hmdef]
      split
      · exact .inr rfl
      · exact .inl rfl
    split
    next hl =>
      refine h.setFirst hl hmode (h.first p hm hl) ?_
      exact fun i g hg => h.rootUsed p i g (fill_page hg)
    next hl =>
      have hp : s.Pulls p (s.proc p).pullpg := ⟨hm, hl, rfl⟩
      split
      · refine h.storePart hp hnew hlt hmode (fun g hg => Function.update_of_ne hg _ _) ?_
        intro i g hg
        simp only [Function.update_self] at hg
        exact h.tabUsed _ i g (fill_page hg)
      · exact h.storePart hp hnew hlt hmode (fun _ _ => rfl) fun i g hg => h.tabUsed _ i g hg

/-! ## Runs -/

omit [DecidableEq P] in
/-- A page is taken from the free ones. -/
theorem Inv.take (h : Inv s) (f : Frame) :
    Inv { s with free := Function.update s.free f false } := by
  have hfree : ∀ g, s.free g = false → Function.update s.free f false g = false := by
    intro g hg
    by_cases hgf : g = f
    · subst hgf
      simp
    · rw [Function.update_of_ne hgf]
      exact hg
  refine { h with
    passed := ?_, pullsUsed := ?_, rootUsed := ?_, tabUsed := ?_, trackUsed := ?_, ownUsed := ?_ }
  · intro q hm va hlo hlt hhi
    exact (h.passed q hm va hlo hlt hhi).congr (fun _ => rfl) (fun _ _ _ _ => rfl) (fun _ _ => id)
  · exact fun q g hq => hfree g (h.pullsUsed q g hq)
  · exact fun q i g hg => hfree g (h.rootUsed q i g hg)
  · exact fun t i g hg => hfree g (h.tabUsed t i g hg)
  · exact fun rr g hg => hfree g (h.trackUsed rr g hg)
  · exact fun g hg => hfree g (h.ownUsed g hg)

/-- A step that meets the condition keeps the invariant. -/
theorem Inv.step (h : Inv s) {a : Act P} (ha : s.Patient a) (hu : s.step node a = some u) :
    Inv u := by
  unfold State.step at hu
  split at hu
  · cases hu
  cases a with
  | rxmigrq p f =>
    simp only at hu
    split at hu
    next hc =>
      cases hu
      refine (h.take f).setFirst rfl (.inl rfl) rfl ?_
      intro i g hg
      cases hg
    · cases hu
  | rxpullrp p part words =>
    simp only at hu
    split at hu
    next hm =>
      cases hu
      exact h.store hm part words
    · cases hu
  | walk p f =>
    simp only at hu
    split at hu
    next hm => exact h.walk hm ha hu
    · cases hu
  | leave p =>
    simp only at hu
    split at hu
    next hm =>
      cases hu
      exact h.move .away _ (by simp [hm]) (by simp) (h.aligned p) (by simp) (by simp)
    · cases hu

omit [DecidableEq P] in
/-- The invariant holds at the start. -/
theorem Inv.init (free own : Frame → Bool) : Inv (State.init free own : State P) where
  passed p hm := absurd rfl hm
  aligned p := show vmUserLo % pageSize = 0 from by decide
  first p hm := by cases hm
  ready p hm := by cases hm
  mask p f hp := by cases hp.1
  alone p q f hp := by cases hp.1
  pullsUsed p f hp := by cases hp.1
  rootUsed p i f hf := by cases hf
  tabUsed t i f hf := by cases hf
  trackUsed rr f hf := by cases hf
  ownUsed f hf := by
    simp only [State.init, Bool.and_eq_true, Bool.not_eq_true'] at hf
    exact hf.2

/-- An entry that the loop passes without a pull: a zero mapping, a reference to one, or a page that
has the property `K`. -/
def TameEntry (K : Frame → Prop) : Entry → Prop
  | .zero => True
  | .ref rr => rrAddr rr = 0
  | .page g => K g
  | .blank => False

theorem TameEntry.mono {K K' : Frame → Prop} (h : ∀ g, K g → K' g) {e : Entry}
    (he : TameEntry K e) : TameEntry K' e := by
  cases e with
  | blank => exact he
  | zero => exact he
  | ref rr => exact he
  | page g => exact h g he

/-- All entries that a process has are such. -/
def Tame (K : Frame → Prop) (s : State P) (p : P) : Prop :=
  ∀ i < 512, TameEntry K ((s.proc p).root i) ∧
    ∀ t, (s.proc p).root i = .page t → ∀ j < 512, TameEntry K (s.tab t j)

/-- The loop has gone on, and the pages of the process are still in its tables. -/
structure Onward (s u : State P) (p : P) : Prop where
  stopped : u.stopped = s.stopped
  got : u.got = s.got
  root : ∀ i g, (s.proc p).root i = .page g → (u.proc p).root i = .page g
  tab : ∀ t i g, s.tab t i = .page g → u.tab t i = .page g

/-- The steps that are left: two for every address, one of them done if its entries are
resolved. -/
def left (s : State P) (p : P) : ℕ :=
  2 * (vmUserHi - (s.proc p).pullva) +
    match (s.proc p).root (pdx 3 (s.proc p).pullva) with
    | .ref _ => 1
    | .page t =>
      match s.tab t (pdx 0 (s.proc p).pullva) with
      | .ref _ => 1
      | _ => 0
    | _ => 0

omit [DecidableEq P] in
theorem Onward.refl (s : State P) (p : P) : Onward s s p :=
  ⟨rfl, rfl, fun _ _ => id, fun _ _ _ => id⟩

omit [DecidableEq P] in
theorem Onward.trans {v : State P} (h : Onward s u p) (h' : Onward u v p) : Onward s v p where
  stopped := h'.stopped.trans h.stopped
  got := h'.got.trans h.got
  root i g hg := h'.root i g (h.root i g hg)
  tab t i g hg := h'.tab t i g (h.tab t i g hg)

/-- A list of steps, each of which meets the condition where it is taken, continues a run. -/
theorem Run.steps {Q : State P → Act P → Prop} (h : Run node Q s) (as : List (Act P))
    (hQ : ∀ as₁ a as₂ u, as = as₁ ++ a :: as₂ → s.steps node as₁ = some u → Q u a)
    (hu : s.steps node as = some u) : Run node Q u := by
  induction as generalizing s with
  | nil =>
    obtain rfl := Option.some.inj hu
    exact h
  | cons a as ih =>
    obtain ⟨v, hv, hu⟩ := Option.bind_eq_some_iff.1 hu
    refine ih (h.step (hQ [] a as s rfl rfl) hv) (fun as₁ c as₂ w has hw => ?_) hu
    apply hQ (a :: as₁) c as₂ w (by rw [has]; rfl)
    simpa [State.steps, hv] using hw

instance (K : Frame → Prop) [DecidablePred K] (e : Entry) : Decidable (TameEntry K e) :=
  match e with
  | .zero => inferInstanceAs (Decidable True)
  | .ref rr => inferInstanceAs (Decidable (rrAddr rr = 0))
  | .page g => inferInstanceAs (Decidable (K g))
  | .blank => inferInstanceAs (Decidable False)

end State

end Determinator.Pullva
