import Determinator.Kern.Cr3

/-!
# No CPU runs on a freed page map

A process that has left the node keeps its page map there, and so may an idle CPU. When the process
comes back, its old page map is freed unless another node has pulled it. Where `net_rxmigrq`
finds a process away only when this page map has been pulled or no CPU has it loaded, and no two
CPUs handle requests for one process at a time, every CPU runs on a page map that is in use.
-/

namespace Determinator.Cr3

variable {P C : Type} {s u : State P C} {q r : P} {w v : MapProc P} {c d : C} {m : Frame}

namespace State

/-! ## What is claimed -/

/-- The page map of every CPU has not been freed since the CPU loaded it. -/
def InUse (s : State P C) : Prop :=
  ∀ c, s.use (s.cr3 c) ≠ .free ∧ s.handed (s.cr3 c) = s.loaded c

/-- A request for a process that is away is handled while no other CPU handles one, and while its
old page map has been pulled by another node or is loaded nowhere. -/
def Safe (s : State P C) : Act P C → Prop
  | .rxmigrq _ q _ => ∀ w, s.proc q = some w → w.state = .away →
      (∀ d h, s.handler d = some h → h.proc ≠ q) ∧
        (s.shared w.pml4 = true ∨ ∀ d, s.cr3 d ≠ w.pml4)
  | _ => True

/-! ## The invariant -/

/-- The process has a page map: it is not between the old one and the new one. -/
def Owns (s : State P C) (q : P) : Prop := ∀ c, s.handler c ≠ some (.newpmap q)

/-- An old page map that is kept for another node. -/
def Kept (s : State P C) (m : Frame) : Prop :=
  s.use m = .map ∧ s.refcount m = 0 ∧ s.shared m = true

/-- A page map that is not freed. -/
def Held (s : State P C) (m : Frame) : Prop :=
  s.use m = .boot ∨ s.Kept m ∨ ∃ q w, s.proc q = some w ∧ s.Owns q ∧ w.pml4 = m

/-- Every process has a page map of its own, and every CPU has loaded one that is not freed. -/
structure Inv (s : State P C) : Prop where
  held : ∀ c, s.Held (s.cr3 c)
  loaded : ∀ c, s.handed (s.cr3 c) = s.loaded c
  owned : ∀ q w, s.proc q = some w → s.Owns q → s.use w.pml4 = .map ∧ s.refcount w.pml4 = 1
  inj : ∀ q r w v, s.proc q = some w → s.proc r = some v → s.Owns q → s.Owns r →
    w.pml4 = v.pml4 → q = r
  handler : ∀ c h, s.handler c = some h → ∃ w, s.proc h.proc = some w ∧ w.state = .away
  drop : ∀ c q w, s.handler c = some (.drop q) → s.proc q = some w →
    s.shared w.pml4 = true ∨ ∀ d, s.cr3 d ≠ w.pml4
  lone : ∀ c d h k, s.handler c = some h → s.handler d = some k → h.proc = k.proc → c = d
  cur : ∀ c q, s.cur c = some q → ∃ w, s.proc q = some w ∧ w.state = .run
  solo : ∀ c d q, s.cur c = some q → s.cur d = some q → c = d
  free : ∀ m, s.use m = .free → s.refcount m = 0

theorem Inv.held_not_free (h : Inv s) (hm : s.Held m) : s.use m ≠ .free := by
  obtain hb | hk | ⟨q, w, hq, ho, rfl⟩ := hm
  · rw [hb]
    simp
  · rw [hk.1]
    simp
  · rw [(h.owned q w hq ho).1]
    simp

/-- The invariant gives what is claimed. -/
theorem Inv.inUse (h : Inv s) : s.InUse :=
  fun c => ⟨h.held_not_free (h.held c), h.loaded c⟩

/-- A free page is loaded nowhere. -/
theorem Inv.cr3_ne (h : Inv s) (hm : s.use m = .free) (c : C) : s.cr3 c ≠ m :=
  fun he => h.held_not_free (h.held c) (he ▸ hm)

/-- A process that is not away is in no handler's hands. -/
theorem Inv.not_handled (h : Inv s) (hq : s.proc q = some w) (hst : w.state ≠ .away)
    {k : Handler P} (hk : s.handler c = some k) : k.proc ≠ q := by
  rintro rfl
  obtain ⟨v, hv, ha⟩ := h.handler c k hk
  rw [hq] at hv
  cases hv
  exact hst ha

/-- A process about to lose its page map still has it. -/
theorem Inv.owns_of_drop (h : Inv s) (hd : s.handler c = some (.drop q)) : s.Owns q := by
  intro d hn
  obtain rfl := h.lone c d _ _ hd hn rfl
  rw [hd] at hn
  cases hn

/-! ## Processes -/

variable [DecidableEq P]

theorem setProc_self : (s.setProc q w).proc q = some w := Function.update_self _ _ _

theorem setProc_of_ne (h : r ≠ q) : (s.setProc q w).proc r = s.proc r :=
  Function.update_of_ne h _ _

/-- A process changes, but for its page map. -/
theorem Inv.setProc (h : Inv s) (hq : s.proc q = some w) (hm : v.pml4 = w.pml4)
    (hh : ∀ c k, s.handler c = some k → k.proc = q → v.state = .away)
    (hc : ∀ c, s.cur c = some q → v.state = .run) : Inv (s.setProc q v) := by
  have hback : ∀ r x, (s.setProc q v).proc r = some x → ∃ y, s.proc r = some y ∧ x.pml4 = y.pml4 := by
    intro r x hx
    by_cases hr : r = q
    · subst hr
      rw [setProc_self] at hx
      cases hx
      exact ⟨w, hq, hm⟩
    · rw [setProc_of_ne hr] at hx
      exact ⟨x, hx, rfl⟩
  have hforth : ∀ r y, s.proc r = some y → ∃ x, (s.setProc q v).proc r = some x ∧
      x.pml4 = y.pml4 ∧ (r = q → x = v) ∧ (r ≠ q → x = y) := by
    intro r y hy
    by_cases hr : r = q
    · subst hr
      rw [hq] at hy
      cases hy
      exact ⟨v, setProc_self, hm, fun _ => rfl, fun hn => absurd rfl hn⟩
    · exact ⟨y, by rw [setProc_of_ne hr]; exact hy, rfl, fun hn => absurd hn hr, fun _ => rfl⟩
  constructor
  case held =>
    intro c
    obtain hb | hk | ⟨r, y, hr, ho, he⟩ := h.held c
    · exact .inl hb
    · exact .inr (.inl hk)
    · obtain ⟨x, hx, hxy, -⟩ := hforth r y hr
      exact .inr (.inr ⟨r, x, hx, ho, hxy.trans he⟩)
  case loaded => exact h.loaded
  case owned =>
    intro r x hx ho
    obtain ⟨y, hy, he⟩ := hback r x hx
    rw [he]
    exact h.owned r y hy ho
  case inj =>
    intro r r' x x' hx hx' ho ho' he
    obtain ⟨y, hy, hxy⟩ := hback r x hx
    obtain ⟨y', hy', hxy'⟩ := hback r' x' hx'
    exact h.inj r r' y y' hy hy' ho ho' (hxy.symm.trans (he.trans hxy'))
  case handler =>
    intro c k hk
    obtain ⟨y, hy, ha⟩ := h.handler c k hk
    obtain ⟨x, hx, -, hself, hother⟩ := hforth k.proc y hy
    refine ⟨x, hx, ?_⟩
    by_cases hkq : k.proc = q
    · rw [hself hkq]
      exact hh c k hk hkq
    · rw [hother hkq]
      exact ha
  case drop =>
    intro c r x hd hx
    obtain ⟨y, hy, he⟩ := hback r x hx
    rw [he]
    exact h.drop c r y hd hy
  case lone => exact h.lone
  case cur =>
    intro c r hr
    obtain ⟨y, hy, hrun⟩ := h.cur c r hr
    obtain ⟨x, hx, -, hself, hother⟩ := hforth r y hy
    refine ⟨x, hx, ?_⟩
    by_cases hrq : r = q
    · subst hrq
      rw [hself rfl]
      exact hc c hr
    · rw [hother hrq]
      exact hrun
  case solo => exact h.solo
  case free => exact h.free

variable [DecidableEq C]

omit [DecidableEq P] in
/-- A CPU goes to `proc_sched`. -/
theorem Inv.idle (h : Inv s) (c : C) : Inv (s.setCur c none) := by
  have hcur : ∀ d r, (s.setCur c none).cur d = some r → s.cur d = some r := by
    intro d r hd
    by_cases hdc : d = c
    · subst hdc
      simp [State.setCur] at hd
    · simpa [State.setCur, hdc] using hd
  exact { h with
    cur := fun d r hd => h.cur d r (hcur d r hd)
    solo := fun d e r hd he => h.solo d e r (hcur d r hd) (hcur e r he) }

/-- The process of a CPU is put in another state. -/
theorem Inv.switch (h : Inv s) (hc : s.cur c = some q) (hq : s.proc q = some w)
    (hm : v.pml4 = w.pml4) (hst : w.state ≠ .away) : Inv (s.switch c q v) := by
  refine (h.idle c).setProc hq hm ?_ ?_
  · intro d k hk he
    exact absurd he (h.not_handled hq hst hk)
  · intro d hd
    by_cases hdc : d = c
    · subst hdc
      simp [State.setCur] at hd
    · simp only [State.setCur, Function.update_of_ne hdc] at hd
      exact absurd (h.solo d c q hd hc) hdc

/-- `proc_run`, on a CPU that runs nothing else. -/
theorem Inv.procRun (h : Inv s) (hq : s.proc q = some w) (hm : v.pml4 = w.pml4)
    (ha : w.state ≠ .away) (hr : w.state ≠ .run) : Inv (s.procRun c q v) := by
  have hnc : ∀ d, s.cur d ≠ some q := by
    intro d hd
    obtain ⟨x, hx, hrun⟩ := h.cur d q hd
    rw [hq] at hx
    cases hx
    exact hr hrun
  have hnh : ∀ d k, s.handler d = some k → k.proc ≠ q := fun d k hk => h.not_handled hq ha hk
  have hown : s.Owns q := fun d hd => hnh d _ hd rfl
  have h1 : Inv (s.setProc q { v with state := .run }) := by
    refine h.setProc hq hm ?_ ?_
    · exact fun d k hk he => absurd he (hnh d k hk)
    · exact fun _ _ => rfl
  have hself : (s.setProc q { v with state := .run }).proc q = some { v with state := .run } :=
    setProc_self
  have hcase : ∀ d r, (s.procRun c q v).cur d = some r → d = c ∧ r = q ∨ d ≠ c ∧ s.cur d = some r := by
    intro d r hd
    by_cases hdc : d = c
    · subst hdc
      exact .inl ⟨rfl, by simpa [State.procRun, State.setCur, eq_comm] using hd⟩
    · exact .inr ⟨hdc, by simpa [State.procRun, State.setCur, State.setProc, hdc] using hd⟩
  refine { h1 with held := ?_, loaded := ?_, drop := ?_, cur := ?_, solo := ?_ }
  · intro d
    by_cases hdc : d = c
    · subst hdc
      refine .inr (.inr ⟨q, _, hself, hown, ?_⟩)
      simp [State.procRun]
    · simp only [State.procRun, Function.update_of_ne hdc]
      exact h1.held d
  · intro d
    by_cases hdc : d = c
    · subst hdc
      simp [State.procRun, State.setCur, State.setProc]
    · simp only [State.procRun, Function.update_of_ne hdc]
      exact h1.loaded d
  · intro d r x hd hx
    refine (h1.drop d r x hd hx).imp id fun hne e => ?_
    by_cases hec : e = c
    · subst hec
      simp only [State.procRun, Function.update_self]
      intro he
      have hrq := h1.inj q r _ x hself hx hown (h1.owns_of_drop hd) he
      exact hnh d _ hd hrq.symm
    · simp only [State.procRun, Function.update_of_ne hec]
      exact hne e
  · intro d r hd
    obtain ⟨rfl, rfl⟩ | ⟨-, hd⟩ := hcase d r hd
    · exact ⟨_, hself, rfl⟩
    · exact h1.cur d r hd
  · intro d e r hd he
    obtain ⟨hd', hrq⟩ | ⟨-, hd'⟩ := hcase d r hd <;>
      obtain ⟨he', hrq'⟩ | ⟨-, he'⟩ := hcase e r he
    · rw [hd', he']
    · rw [hrq] at he'
      exact absurd he' (hnc e)
    · rw [hrq'] at hd'
      exact absurd hd' (hnc d)
    · exact h.solo d e r hd' he'

/-! ## Pages -/

omit [DecidableEq P] [DecidableEq C] in
/-- A free page is taken. -/
theorem Inv.take (h : Inv s) {x : Use} (hm : s.use m = .free) (hx : x ≠ .free) :
    Inv (s.take m x) := by
  have hne : ∀ f, s.use f ≠ .free → f ≠ m := by
    rintro f hf rfl
    exact hf hm
  have huse : ∀ f, f ≠ m → (s.take m x).use f = s.use f := fun f hf => Function.update_of_ne hf _ _
  have hcr3 : ∀ c, s.cr3 c ≠ m := h.cr3_ne hm
  have hpml4 : ∀ q w, s.proc q = some w → s.Owns q → w.pml4 ≠ m := by
    intro q w hq ho
    apply hne
    rw [(h.owned q w hq ho).1]
    simp
  constructor
  case held =>
    intro c
    have hc := hcr3 c
    obtain hb | ⟨h1, h2, h3⟩ | ho := h.held c
    · left
      exact (huse _ hc).trans hb
    · right
      left
      refine ⟨(huse _ hc).trans h1, ?_, ?_⟩
      · exact (Function.update_of_ne hc _ _).trans h2
      · exact (Function.update_of_ne hc _ _).trans h3
    · exact .inr (.inr ho)
  case loaded => exact fun c => (Function.update_of_ne (hcr3 c) _ _).trans (h.loaded c)
  case owned =>
    intro q w hq ho
    have hf := hpml4 q w hq ho
    obtain ⟨h1, h2⟩ := h.owned q w hq ho
    exact ⟨(huse _ hf).trans h1, (Function.update_of_ne hf _ _).trans h2⟩
  case inj => exact h.inj
  case handler => exact h.handler
  case drop =>
    intro c q w hd hq
    refine (h.drop c q w hd hq).imp (fun hs => ?_) id
    exact (Function.update_of_ne (hpml4 q w hq (h.owns_of_drop hd)) _ _).trans hs
  case lone => exact h.lone
  case cur => exact h.cur
  case solo => exact h.solo
  case free =>
    intro f hf
    have hfm : f ≠ m := by
      rintro rfl
      simp only [State.take, Function.update_self] at hf
      exact hx hf
    rw [huse f hfm] at hf
    exact (Function.update_of_ne hfm _ _).trans (h.free f hf)

omit [DecidableEq P] [DecidableEq C] in
/-- A page with references is marked shared. -/
theorem Inv.share (h : Inv s) (m : Frame) :
    Inv { s with shared := Function.update s.shared m true } := by
  have hs : ∀ f, s.shared f = true → Function.update s.shared m true f = true := by
    intro f hf
    by_cases hfm : f = m
    · subst hfm
      simp
    · rw [Function.update_of_ne hfm]
      exact hf
  refine { h with held := ?_, drop := ?_ }
  · intro c
    obtain hb | ⟨h1, h2, h3⟩ | ho := h.held c
    · exact .inl hb
    · exact .inr (.inl ⟨h1, h2, hs _ h3⟩)
    · exact .inr (.inr ho)
  · exact fun c q w hd hq => (h.drop c q w hd hq).imp (hs _) id

omit [DecidableEq P] [DecidableEq C] in
/-- A page that is not a page map is freed. -/
theorem Inv.release (h : Inv s) (hu : s.use m = .other) (hr : s.refcount m = 1)
    (hs : s.shared m = false) : Inv (s.memDecref m) := by
  have heq : s.memDecref m = { s with
      refcount := Function.update s.refcount m 0
      use := Function.update s.use m .free } := by
    simp [State.memDecref, hr, hs]
  rw [heq]
  have hne : ∀ f, s.use f ≠ .other → f ≠ m := by
    rintro f hf rfl
    exact hf hu
  constructor
  case held =>
    intro c
    obtain hb | ⟨h1, h2, h3⟩ | ho := h.held c
    · left
      have : s.cr3 c ≠ m := hne _ (by rw [hb]; simp)
      exact (Function.update_of_ne this _ _).trans hb
    · right
      left
      have : s.cr3 c ≠ m := hne _ (by rw [h1]; simp)
      exact ⟨(Function.update_of_ne this _ _).trans h1, (Function.update_of_ne this _ _).trans h2, h3⟩
    · exact .inr (.inr ho)
  case loaded => exact h.loaded
  case owned =>
    intro q w hq ho
    obtain ⟨h1, h2⟩ := h.owned q w hq ho
    have : w.pml4 ≠ m := hne _ (by rw [h1]; simp)
    exact ⟨(Function.update_of_ne this _ _).trans h1, (Function.update_of_ne this _ _).trans h2⟩
  case inj => exact h.inj
  case handler => exact h.handler
  case drop => exact h.drop
  case lone => exact h.lone
  case cur => exact h.cur
  case solo => exact h.solo
  case free =>
    intro f hf
    by_cases hfm : f = m
    · subst hfm
      simp
    · simp only [Function.update_of_ne hfm] at hf ⊢
      exact h.free f hf

omit [DecidableEq C] in
/-- A new process, with a page map of its own. -/
theorem Inv.addProc (h : Inv s) (hq : s.proc q = none) (hm : s.use w.pml4 = .map)
    (hr : s.refcount w.pml4 = 1)
    (hfresh : ∀ r v, s.proc r = some v → s.Owns r → v.pml4 ≠ w.pml4) : Inv (s.setProc q w) := by
  have hback : ∀ r x, (s.setProc q w).proc r = some x → r = q ∧ x = w ∨ r ≠ q ∧ s.proc r = some x := by
    intro r x hx
    by_cases hrq : r = q
    · subst hrq
      rw [setProc_self] at hx
      cases hx
      exact .inl ⟨rfl, rfl⟩
    · rw [setProc_of_ne hrq] at hx
      exact .inr ⟨hrq, hx⟩
  have hforth : ∀ r x, s.proc r = some x → (s.setProc q w).proc r = some x := by
    intro r x hx
    rw [setProc_of_ne]
    · exact hx
    · rintro rfl
      rw [hq] at hx
      cases hx
  constructor
  case held =>
    intro c
    obtain hb | hk | ⟨r, x, hx, ho, he⟩ := h.held c
    · exact .inl hb
    · exact .inr (.inl hk)
    · exact .inr (.inr ⟨r, x, hforth r x hx, ho, he⟩)
  case loaded => exact h.loaded
  case owned =>
    intro r x hx ho
    obtain ⟨-, rfl⟩ | ⟨-, hx⟩ := hback r x hx
    · exact ⟨hm, hr⟩
    · exact h.owned r x hx ho
  case inj =>
    intro r r' x x' hx hx' ho ho' he
    obtain ⟨hrq, hxw⟩ | ⟨-, hy⟩ := hback r x hx <;> obtain ⟨hrq', hxw'⟩ | ⟨-, hy'⟩ := hback r' x' hx'
    · rw [hrq, hrq']
    · rw [hxw] at he
      exact absurd he.symm (hfresh r' x' hy' ho')
    · rw [hxw'] at he
      exact absurd he (hfresh r x hy ho)
    · exact h.inj r r' x x' hy hy' ho ho' he
  case handler =>
    intro c k hk
    obtain ⟨x, hx, ha⟩ := h.handler c k hk
    exact ⟨x, hforth _ x hx, ha⟩
  case drop =>
    intro c r x hd hx
    obtain ⟨rfl, rfl⟩ | ⟨-, hx⟩ := hback r x hx
    · obtain ⟨y, hy, -⟩ := h.handler c _ hd
      rw [show (Handler.drop r).proc = r from rfl, hq] at hy
      cases hy
    · exact h.drop c r x hd hx
  case lone => exact h.lone
  case cur =>
    intro c r hr
    obtain ⟨x, hx, hrun⟩ := h.cur c r hr
    exact ⟨x, hforth _ x hx, hrun⟩
  case solo => exact h.solo
  case free => exact h.free

/-! ## `net_rxmigrq` -/

omit [DecidableEq P] in
theorem setHandler_cases {o : Option (Handler P)} {k : Handler P}
    (h : (s.setHandler c o).handler d = some k) :
    d = c ∧ o = some k ∨ d ≠ c ∧ s.handler d = some k := by
  by_cases hd : d = c
  · subst hd
    exact .inl ⟨rfl, by simpa [State.setHandler] using h⟩
  · exact .inr ⟨hd, by simpa [State.setHandler, hd] using h⟩

omit [DecidableEq P] in
/-- A process that has a page map keeps it while no handler takes it away. -/
theorem owns_setHandler {o : Option (Handler P)} (hc : ∀ r, s.handler c ≠ some (.newpmap r))
    (ho : ∀ r, o ≠ some (.newpmap r)) : (s.setHandler c o).Owns r ↔ s.Owns r := by
  constructor
  · intro h d hd
    apply h d
    by_cases hdc : d = c
    · subst hdc
      exact absurd hd (hc r)
    · simpa [State.setHandler, hdc] using hd
  · intro h d hd
    obtain ⟨-, hd⟩ | ⟨-, hd⟩ := setHandler_cases hd
    · exact ho r hd
    · exact h d hd

omit [DecidableEq P] in
/-- `net_rxmigrq` finds a process away. -/
theorem Inv.begin (h : Inv s) (hc : s.handler c = none) (hq : s.proc q = some w)
    (ha : w.state = .away) (hn : ∀ d k, s.handler d = some k → k.proc ≠ q)
    (hs : s.shared w.pml4 = true ∨ ∀ d, s.cr3 d ≠ w.pml4) :
    Inv (s.setHandler c (some (.drop q))) := by
  have howns : ∀ r, (s.setHandler c (some (.drop q))).Owns r ↔ s.Owns r :=
    fun r => owns_setHandler (by simp [hc]) (by simp)
  constructor
  case held =>
    intro d
    obtain hb | hk | ⟨r, x, hx, ho, he⟩ := h.held d
    · exact .inl hb
    · exact .inr (.inl hk)
    · exact .inr (.inr ⟨r, x, hx, (howns r).2 ho, he⟩)
  case loaded => exact h.loaded
  case owned => exact fun r x hx ho => h.owned r x hx ((howns r).1 ho)
  case inj =>
    intro r r' x x' hx hx' ho ho'
    exact h.inj r r' x x' hx hx' ((howns r).1 ho) ((howns r').1 ho')
  case handler =>
    intro d k hk
    obtain ⟨-, hk⟩ | ⟨-, hk⟩ := setHandler_cases hk
    · cases hk
      exact ⟨w, hq, ha⟩
    · exact h.handler d k hk
  case drop =>
    intro d r x hd hx
    obtain ⟨-, hd⟩ | ⟨-, hd⟩ := setHandler_cases hd
    · cases hd
      have hx : s.proc q = some x := hx
      rw [hq] at hx
      cases hx
      exact hs
    · exact h.drop d r x hd hx
  case lone =>
    intro d e k k' hk hk' he
    obtain ⟨hdc, hk⟩ | ⟨-, hk⟩ := setHandler_cases hk <;>
      obtain ⟨hec, hk'⟩ | ⟨-, hk'⟩ := setHandler_cases hk'
    · rw [hdc, hec]
    · cases hk
      exact absurd he.symm (hn e k' hk')
    · cases hk'
      exact absurd he (hn d k hk)
    · exact h.lone d e k k' hk hk' he
  case cur => exact h.cur
  case solo => exact h.solo
  case free => exact h.free

omit [DecidableEq P] [DecidableEq C] in
/-- `mem_decref` of a page map with one reference. -/
theorem memDecref_eq (hr : s.refcount m = 1) :
    s.memDecref m = { s with
      refcount := Function.update s.refcount m 0
      use := if s.shared m then s.use else Function.update s.use m .free } := by
  cases hs : s.shared m <;> simp [State.memDecref, hr, hs]

omit [DecidableEq P] in
/-- The old page map is given up. -/
theorem Inv.dropMap (h : Inv s) (hc : s.handler c = some (.drop q)) (hq : s.proc q = some w) :
    Inv ((s.memDecref w.pml4).setHandler c (some (.newpmap q))) := by
  have hown := h.owns_of_drop hc
  obtain ⟨hmap, hr⟩ := h.owned q w hq hown
  have hdrop := h.drop c q w hc hq
  rw [memDecref_eq hr]
  set m := w.pml4 with hm
  set use := if s.shared m then s.use else Function.update s.use m .free with huse
  have huse_ne : ∀ f, f ≠ m → use f = s.use f := by
    intro f hf
    rw [huse]
    split
    · rfl
    · exact Function.update_of_ne hf _ _
  -- only `q` loses its page map
  have howns : ∀ r, State.Owns (State.setHandler { s with
      refcount := Function.update s.refcount m 0
      use := use } c (some (.newpmap q))) r → r ≠ q ∧ s.Owns r := by
    intro r ho
    refine ⟨?_, fun d hd => ?_⟩
    · rintro rfl
      exact ho c (by simp [State.setHandler])
    · by_cases hdc : d = c
      · subst hdc
        rw [hc] at hd
        cases hd
      · exact ho d (by simpa [State.setHandler, hdc] using hd)
  have howns' : ∀ r, r ≠ q → s.Owns r → State.Owns (State.setHandler { s with
      refcount := Function.update s.refcount m 0
      use := use } c (some (.newpmap q))) r := by
    intro r hrq ho d hd
    obtain ⟨-, hd⟩ | ⟨-, hd⟩ := setHandler_cases hd
    · cases hd
      exact hrq rfl
    · exact ho d hd
  have hother : ∀ r x, s.proc r = some x → r ≠ q → s.Owns r → x.pml4 ≠ m :=
    fun r x hx hrq ho he => hrq (h.inj r q x w hx hq ho hown he)
  constructor
  case held =>
    intro d
    by_cases hd : s.cr3 d = m
    · have hs : s.shared m = true := hdrop.resolve_right fun hn => hn d hd
      right
      left
      simp only [State.setHandler, hd]
      refine ⟨?_, by simp, hs⟩
      simp only [huse, hs, if_true]
      exact hmap
    · obtain hb | ⟨h1, h2, h3⟩ | ⟨r, x, hx, ho, he⟩ := h.held d
      · exact .inl ((huse_ne _ hd).trans hb)
      · exact .inr (.inl ⟨(huse_ne _ hd).trans h1, (Function.update_of_ne hd _ _).trans h2, h3⟩)
      · have hrq : r ≠ q := by
          rintro rfl
          rw [hq] at hx
          cases hx
          exact hd he.symm
        exact .inr (.inr ⟨r, x, hx, howns' r hrq ho, he⟩)
  case loaded => exact h.loaded
  case owned =>
    intro r x hx ho
    obtain ⟨hrq, ho⟩ := howns r ho
    have hne := hother r x hx hrq ho
    obtain ⟨h1, h2⟩ := h.owned r x hx ho
    exact ⟨(huse_ne _ hne).trans h1, (Function.update_of_ne hne _ _).trans h2⟩
  case inj =>
    intro r r' x x' hx hx' ho ho'
    exact h.inj r r' x x' hx hx' (howns r ho).2 (howns r' ho').2
  case handler =>
    intro d k hk
    obtain ⟨-, hk⟩ | ⟨-, hk⟩ := setHandler_cases hk
    · cases hk
      exact h.handler c (.drop q) hc
    · exact h.handler d k hk
  case drop =>
    intro d r x hd hx
    obtain ⟨-, hd⟩ | ⟨-, hd⟩ := setHandler_cases hd
    · cases hd
    · exact h.drop d r x hd hx
  case lone =>
    intro d e k k' hk hk' he
    obtain ⟨hdc, hk⟩ | ⟨-, hk⟩ := setHandler_cases hk <;>
      obtain ⟨hec, hk'⟩ | ⟨-, hk'⟩ := setHandler_cases hk'
    · rw [hdc, hec]
    · cases hk
      exact hdc.trans (h.lone c e _ k' hc hk' he)
    · cases hk'
      exact (h.lone d c k _ hk hc he).trans hec.symm
    · exact h.lone d e k k' hk hk' he
  case cur => exact h.cur
  case solo => exact h.solo
  case free =>
    intro f hf
    by_cases hfm : f = m
    · subst hfm
      simp [State.setHandler]
    · simp only [State.setHandler, Function.update_of_ne hfm] at hf ⊢
      rw [huse_ne f hfm] at hf
      exact h.free f hf

/-- The new page map. -/
theorem Inv.newMap (h : Inv s) (hc : s.handler c = some (.newpmap q)) (hq : s.proc q = some w)
    (hm : s.use m = .map) (hr : s.refcount m = 1)
    (hfresh : ∀ r v, s.proc r = some v → s.Owns r → v.pml4 ≠ m) :
    Inv ((s.setProc q { w with pml4 := m }).setHandler c (some (.pull q))) := by
  set t := (s.setProc q { w with pml4 := m }).setHandler c (some (.pull q)) with ht
  have hself : t.proc q = some { w with pml4 := m } := setProc_self
  have hother : ∀ r, r ≠ q → t.proc r = s.proc r := fun r hr => setProc_of_ne hr
  have hnot : ¬ s.Owns q := fun ho => ho c hc
  have hcase : ∀ d k, t.handler d = some k → d = c ∧ k = .pull q ∨
      d ≠ c ∧ s.handler d = some k ∧ k.proc ≠ q := by
    intro d k hk
    obtain ⟨hd, hk⟩ | ⟨hd, hk⟩ := setHandler_cases hk
    · cases hk
      exact .inl ⟨hd, rfl⟩
    · have hk : s.handler d = some k := hk
      exact .inr ⟨hd, hk, fun he => hd (h.lone d c k _ hk hc he)⟩
  have howns : ∀ r, r ≠ q → (t.Owns r ↔ s.Owns r) := by
    intro r hr
    constructor
    · intro ho d hd
      have hdc : d ≠ c := by
        rintro rfl
        rw [hc] at hd
        cases hd
        exact hr rfl
      exact ho d (by simpa [ht, State.setHandler, State.setProc, hdc] using hd)
    · intro ho d hd
      obtain ⟨-, hk⟩ | ⟨-, hk, -⟩ := hcase d _ hd
      · cases hk
      · exact ho d hk
  have hback : ∀ r x, t.proc r = some x → t.Owns r → r = q ∧ x.pml4 = m ∨
      r ≠ q ∧ s.proc r = some x ∧ s.Owns r := by
    intro r x hx ho
    by_cases hr : r = q
    · subst hr
      rw [hself] at hx
      cases hx
      exact .inl ⟨rfl, rfl⟩
    · rw [hother r hr] at hx
      exact .inr ⟨hr, hx, (howns r hr).1 ho⟩
  constructor
  case held =>
    intro d
    obtain hb | hk | ⟨r, x, hx, ho, he⟩ := h.held d
    · exact .inl hb
    · exact .inr (.inl hk)
    · have hr : r ≠ q := by
        rintro rfl
        exact hnot ho
      exact .inr (.inr ⟨r, x, (hother r hr).trans hx, (howns r hr).2 ho, he⟩)
  case loaded => exact h.loaded
  case owned =>
    intro r x hx ho
    obtain ⟨-, he⟩ | ⟨-, hx, ho⟩ := hback r x hx ho
    · rw [he]
      exact ⟨hm, hr⟩
    · exact h.owned r x hx ho
  case inj =>
    intro r r' x x' hx hx' ho ho' he
    obtain ⟨hrq, hxm⟩ | ⟨-, hy, hoy⟩ := hback r x hx ho <;>
      obtain ⟨hrq', hxm'⟩ | ⟨-, hy', hoy'⟩ := hback r' x' hx' ho'
    · rw [hrq, hrq']
    · exact absurd (he.symm.trans hxm) (hfresh r' x' hy' hoy')
    · exact absurd (he.trans hxm') (hfresh r x hy hoy)
    · exact h.inj r r' x x' hy hy' hoy hoy' he
  case handler =>
    intro d k hk
    obtain ⟨-, rfl⟩ | ⟨-, hk, hkq⟩ := hcase d k hk
    · obtain ⟨x, hx, ha⟩ := h.handler c _ hc
      have hx : s.proc q = some x := hx
      rw [hq] at hx
      cases hx
      exact ⟨_, hself, ha⟩
    · obtain ⟨x, hx, ha⟩ := h.handler d k hk
      exact ⟨x, (hother _ hkq).trans hx, ha⟩
  case drop =>
    intro d r x hd hx
    obtain ⟨-, hk⟩ | ⟨-, hk, hkq⟩ := hcase d _ hd
    · cases hk
    · rw [hother r hkq] at hx
      exact h.drop d r x hk hx
  case lone =>
    intro d e k k' hk hk' he
    obtain ⟨hdc, hkp⟩ | ⟨-, hks, hkq⟩ := hcase d k hk <;>
      obtain ⟨hec, hkp'⟩ | ⟨-, hks', hkq'⟩ := hcase e k' hk'
    · rw [hdc, hec]
    · rw [hkp] at he
      exact absurd he.symm hkq'
    · rw [hkp'] at he
      exact absurd he hkq
    · exact h.lone d e k k' hks hks' he
  case cur =>
    intro d r hr
    obtain ⟨x, hx, hrun⟩ := h.cur d r hr
    have hrq : r ≠ q := by
      rintro rfl
      obtain ⟨y, hy, ha⟩ := h.handler c _ hc
      have hy : s.proc r = some y := hy
      rw [hx] at hy
      cases hy
      rw [hrun] at ha
      cases ha
    exact ⟨x, (hother r hrq).trans hx, hrun⟩
  case solo => exact h.solo
  case free => exact h.free

/-- `net_pull`. -/
theorem Inv.pull (h : Inv s) (hc : s.handler c = some (.pull q)) (hq : s.proc q = some w) :
    Inv ((s.setProc q { w with state := .pull }).setHandler c none) := by
  have howns : ∀ r, (s.setHandler c none).Owns r ↔ s.Owns r :=
    fun r => owns_setHandler (by simp [hc]) (by simp)
  have hcase : ∀ d k, (s.setHandler c none).handler d = some k → d ≠ c ∧ s.handler d = some k := by
    intro d k hk
    obtain ⟨-, hk⟩ | h := setHandler_cases hk
    · cases hk
    · exact h
  have h1 : Inv (s.setHandler c none) := by
    constructor
    case held =>
      intro d
      obtain hb | hk | ⟨r, x, hx, ho, he⟩ := h.held d
      · exact .inl hb
      · exact .inr (.inl hk)
      · exact .inr (.inr ⟨r, x, hx, (howns r).2 ho, he⟩)
    case loaded => exact h.loaded
    case owned => exact fun r x hx ho => h.owned r x hx ((howns r).1 ho)
    case inj =>
      intro r r' x x' hx hx' ho ho'
      exact h.inj r r' x x' hx hx' ((howns r).1 ho) ((howns r').1 ho')
    case handler => exact fun d k hk => h.handler d k (hcase d k hk).2
    case drop => exact fun d r x hd hx => h.drop d r x (hcase d _ hd).2 hx
    case lone =>
      intro d e k k' hk hk'
      exact h.lone d e k k' (hcase d k hk).2 (hcase e k' hk').2
    case cur => exact h.cur
    case solo => exact h.solo
    case free => exact h.free
  refine h1.setProc hq rfl ?_ ?_
  · intro d k hk he
    obtain ⟨hdc, hk⟩ := hcase d k hk
    exact absurd (h.lone d c k _ hk hc he) hdc
  · intro d hd
    obtain ⟨x, hx, hrun⟩ := h.cur d q hd
    obtain ⟨y, hy, ha⟩ := h.handler c _ hc
    have hy : s.proc q = some y := hy
    rw [hx] at hy
    cases hy
    rw [hrun] at ha
    cases ha

/-! ## Steps -/

omit [DecidableEq P] [DecidableEq C] in
/-- A step of a running process. -/
theorem running_cases {f : P → MapProc P → Option (State P C)} (h : s.running c f = some u) :
    ∃ q w, s.cur c = some q ∧ s.proc q = some w ∧ f q w = some u := by
  unfold State.running at h
  split at h
  next q _ hc =>
    split at h
    next w hw => exact ⟨q, w, hc, hw, h⟩
    · cases h
  · cases h

omit [DecidableEq P] [DecidableEq C] in
theorem Inv.run_of_cur (h : Inv s) (hc : s.cur c = some q) (hq : s.proc q = some w) :
    w.state = .run := by
  obtain ⟨x, hx, hrun⟩ := h.cur c q hc
  rw [hq] at hx
  cases hx
  exact hrun

omit [DecidableEq C] in
/-- A process in neither a handler's nor a CPU's hands changes its state. -/
theorem Inv.setState (h : Inv s) (hq : s.proc q = some w) (hm : v.pml4 = w.pml4)
    (ha : w.state ≠ .away) (hr : w.state ≠ .run) : Inv (s.setProc q v) := by
  refine h.setProc hq hm ?_ ?_
  · exact fun c k hk he => absurd he (h.not_handled hq ha hk)
  · exact fun c hc => absurd (h.run_of_cur hc hq) hr

omit [DecidableEq P] [DecidableEq C] in
/-- The page that is taken belongs to no process yet. -/
theorem Inv.fresh (h : Inv s) (hm : s.use m = .free) :
    (s.take m .map).use m = .map ∧ (s.take m .map).refcount m = 1 ∧
      ∀ r v, s.proc r = some v → s.Owns r → v.pml4 ≠ m := by
  refine ⟨by simp [State.take], by simp [State.take, h.free m hm], ?_⟩
  rintro r v hv ho rfl
  rw [(h.owned r v hv ho).1] at hm
  cases hm

theorem Inv.go (h : Inv s) {k : Handler P} (hk : s.handler c = some k)
    (hu : s.go c m k = some u) : Inv u := by
  unfold State.go at hu
  split at hu
  next q w hq =>
    cases hu
    exact h.dropMap hk hq
  next q w hq =>
    split at hu
    next hm =>
      cases hu
      obtain ⟨h1, h2, h3⟩ := h.fresh hm
      exact (h.take hm (by simp)).newMap hk hq h1 h2 h3
    · cases hu
  next q w hq =>
    cases hu
    exact h.pull hk hq
  · cases hu

/-- A step that meets the condition keeps the invariant. -/
theorem Inv.step (h : Inv s) {a : Act P C} (ha : s.Safe a) (hu : s.step a = some u) : Inv u := by
  unfold State.step at hu
  split at hu
  · cases hu
  cases a with
  | put c q m =>
    obtain ⟨p, x, -, -, hu⟩ := running_cases hu
    split at hu
    next hc =>
      cases hu
      obtain ⟨h1, h2, h3⟩ := h.fresh hc.2
      exact (h.take hc.2 (by simp)).addProc hc.1 h1 h2 h3
    · cases hu
  | start c q =>
    obtain ⟨p, x, -, -, hu⟩ := running_cases hu
    split at hu
    next w hq =>
      split at hu
      next hc =>
        cases hu
        exact h.setState hq rfl (by simp [hc.2]) (by simp [hc.2])
      · cases hu
    · cases hu
  | sched c q =>
    simp only at hu
    split at hu
    next w _ _ hq =>
      split at hu
      next hc =>
        cases hu
        exact h.procRun hq rfl (by simp [hc]) (by simp [hc])
      · cases hu
    · cases hu
  | yield c =>
    obtain ⟨p, x, hc, hp, hu⟩ := running_cases hu
    cases hu
    exact h.switch hc hp rfl (by simp [h.run_of_cur hc hp])
  | wait c q =>
    obtain ⟨p, x, hc, hp, hu⟩ := running_cases hu
    split at hu
    · split at hu
      · cases hu
        exact h.switch hc hp rfl (by simp [h.run_of_cur hc hp])
      · cases hu
    · cases hu
  | ret c =>
    obtain ⟨p, x, hc, hp, hu⟩ := running_cases hu
    have h1 : Inv (s.switch c p { x with state := .stop }) :=
      h.switch hc hp rfl (by simp [h.run_of_cur hc hp])
    simp only at hu
    split at hu
    · cases hu
      exact h1
    · split at hu
      next v hv =>
        split at hu
        next hw =>
          cases hu
          exact h1.procRun hv rfl (by simp [hw.1]) (by simp [hw.1])
        · cases hu
          exact h1
      · cases hu
        exact h1
  | wakeroot q =>
    simp only at hu
    split at hu
    next w hq =>
      split at hu
      next hc =>
        cases hu
        exact h.setState hq rfl (by simp [hc.2]) (by simp [hc.2])
      · cases hu
    · cases hu
  | migrate c =>
    obtain ⟨p, x, hc, hp, hu⟩ := running_cases hu
    cases hu
    exact h.switch hc hp rfl (by simp [h.run_of_cur hc hp])
  | rxmigrp q =>
    simp only at hu
    split at hu
    next w hq =>
      split at hu
      next hc =>
        cases hu
        exact h.setState hq rfl (by simp [hc]) (by simp [hc])
      · cases hu
    · cases hu
  | pulled q =>
    simp only at hu
    split at hu
    next w hq =>
      split at hu
      next hc =>
        cases hu
        exact h.setState hq rfl (by simp [hc]) (by simp [hc])
      · cases hu
    · cases hu
  | share m =>
    simp only at hu
    split at hu
    · cases hu
      exact h.share m
    · cases hu
  | rxmigrq c q m =>
    simp only at hu
    split at hu
    next w hc hq =>
      cases hu
      split
      next haway =>
        obtain ⟨hn, hs⟩ := ha w hq haway
        exact h.begin hc hq haway hn hs
      · exact h
    next hc hq =>
      split at hu
      next hm =>
        cases hu
        obtain ⟨h1, h2, h3⟩ := h.fresh hm
        have h4 := (h.take hm (by simp)).addProc (w := ⟨.away, m, none, none⟩) hq h1 h2 h3
        refine h4.begin hc setProc_self rfl ?_ (.inr (h.cr3_ne hm))
        rintro d k hk rfl
        obtain ⟨x, hx, -⟩ := h.handler d k hk
        rw [hq] at hx
        cases hx
      · cases hu
    · cases hu
  | go c m =>
    simp only at hu
    split at hu
    next k hk => exact h.go hk hu
    · cases hu
  | grab m =>
    simp only at hu
    split at hu
    next hm =>
      cases hu
      exact h.take hm (by simp)
    · cases hu
  | release m =>
    simp only at hu
    split at hu
    next hm =>
      cases hu
      exact h.release hm.1 hm.2.1 hm.2.2
    · cases hu

omit [DecidableEq C] in
/-- The invariant holds at the start. -/
theorem Inv.init {boot root : Frame} (q : P) (free : Frame → Bool) (hb : boot ≠ root) :
    Inv (State.init boot root q free : State P C) := by
  have hproc : ∀ r w, (State.init boot root q free : State P C).proc r = some w →
      r = q ∧ w.pml4 = root := by
    intro r w hw
    simp only [State.init] at hw
    split at hw
    next hr =>
      cases hw
      exact ⟨hr, rfl⟩
    · cases hw
  constructor
  case held => exact fun c => .inl (by simp [State.init])
  case loaded => exact fun c => rfl
  case owned =>
    intro r w hw _
    rw [(hproc r w hw).2]
    simp [State.init, hb.symm]
  case inj => exact fun r r' w w' hw hw' _ _ _ => (hproc r w hw).1.trans (hproc r' w' hw').1.symm
  case handler => exact fun c k hk => by cases hk
  case drop => exact fun c r w hd => by cases hd
  case lone => exact fun c d k k' hk => by cases hk
  case cur => exact fun c r hr => by cases hr
  case solo => exact fun c d r hr => by cases hr
  case free =>
    intro m hm
    simp only [State.init] at hm ⊢
    split at hm
    · cases hm
    · split at hm
      · cases hm
      next h => simp [h]

/-- A list of steps that meet the condition wherever they are taken continues a run. -/
theorem Run.steps {Q : State P C → Act P C → Prop} (h : Run Q s) (as : List (Act P C))
    (hQ : ∀ a ∈ as, ∀ u, Q u a) (hu : s.steps as = some u) : Run Q u := by
  induction as generalizing s with
  | nil =>
    obtain rfl := Option.some.inj hu
    exact h
  | cons a as ih =>
    obtain ⟨x, hx, hu⟩ := Option.bind_eq_some_iff.1 hu
    exact ih (h.step (hQ a (by simp) s) hx) (fun b hb => hQ b (by simp [hb])) hu

/-- A process comes from another node, runs and leaves again. -/
def visit : List (Act Bool Unit) :=
  [.go () 0, .go () 9, .go () 0, .pulled true, .sched () true, .migrate (), .rxmigrp true]

end State

end Determinator.Cr3
