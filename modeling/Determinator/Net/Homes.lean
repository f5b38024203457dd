import Determinator.Kern.Rr

/-!
# The home lists

The lookup of a remote reference and the entry of a page under it are two critical sections. Two
CPUs that look for the same reference at the same time both find nothing and both enter a page.
Where no lookup of a reference begins while another task is between the two sections for it, the
home lists stay consistent.
-/

namespace Determinator.Home

variable {T : Type} {b : Boot} {node : BitVec 8} {s u : State T} {fl : List Frame}
  {hl : Frame → List Frame} {t : T} {k : Task} {pi f a : Frame} {rr : Rr}

/-! ## What is claimed -/

/-- The page is on the free list. -/
def State.Free (s : State T) (f : Frame) : Prop :=
  ∃ fl, Chain s.freeNext s.freelist fl ∧ f ∈ fl

/-- The home lists are consistent, and no assertion on them has failed. -/
structure Consistent (s : State T) : Prop where
  lists : ∀ a, ∃ l, Chain s.homenext (s.homelist a) l ∧ l.Nodup ∧ (l.map s.home).Nodup ∧
    ∀ f ∈ l, ¬ s.Free f ∧ rrFrame (rrAddr (s.home f)) = a
  stopped : s.stopped ≠ some .rr

/-- The reference that a task is about to enter in a home list. -/
def Task.inFlight : Task → Option Rr
  | .migAlloc rr | .migTrack rr _ | .pullAlloc rr | .pullTrack rr _ => some rr
  | .pullShare _ _ | .fresh _ | .zero _ | .free _ => none

/-- The reference that a step looks up. -/
def Act.lookup (node : BitVec 8) : Act T → Option Rr
  | .rxmigrq _ home => if rrNode home = node then none else some home
  | .pullpte _ rr => if rrAddr rr = 0 ∨ rrNode rr = node then none else some rr
  | _ => none

/-- A reference that is looked up names a page that there can be, and no task is about to enter
it. -/
def Serial (b : Boot) (node : BitVec 8) (s : State T) (a : Act T) : Prop :=
  ∀ rr, a.lookup node = some rr →
    State.RrOk b rr ∧ ∀ t k, s.task t = some k → k.inFlight ≠ some rr

/-! ## The invariant -/

/-- A page that `mem_alloc` may give. -/
def InRange (b : Boot) (f : Frame) : Prop := 1 < f.toNat ∧ f.toNat < b.npage

/-- The page a task has for itself. -/
def Task.Owns (s : State T) : Task → Frame → Prop
  | .migTrack _ pi, f | .pullTrack _ pi, f | .pullShare _ pi, f | .fresh pi, f | .free pi, f =>
    pi = f
  | .zero pi, f => pi = f ∧ s.shared pi = 0
  | .migAlloc _, _ | .pullAlloc _, _ => False

/-- A page that nothing refers to. -/
structure Unused (b : Boot) (s : State T) (fl : List Frame) (f : Frame) : Prop where
  range : InRange b f
  refcount : s.refcount f = 0
  shared : s.shared f = 0
  taken : f ∉ fl

/-- What holds of a task. -/
def Task.Ok (b : Boot) (s : State T) (fl : List Frame) (hl : Frame → List Frame) : Task → Prop
  | .migAlloc rr | .pullAlloc rr =>
    State.RrOk b rr ∧ rr ∉ (hl (rrFrame (rrAddr rr))).map s.home
  | .migTrack rr pi | .pullTrack rr pi =>
    (State.RrOk b rr ∧ rr ∉ (hl (rrFrame (rrAddr rr))).map s.home) ∧
      InRange b pi ∧ 0 < s.pins pi ∧ ∀ a, pi ∉ hl a
  | .pullShare rr pi => nodeOk (rrNode rr) ∧ InRange b pi ∧ 0 < s.pins pi ∧ s.home pi = rr
  | .fresh pi | .free pi => Unused b s fl pi
  | .zero pi => InRange b pi ∧ (s.shared pi = 0 → Unused b s fl pi)

/-- The lists are `fl` and `hl`, and the references are counted. -/
structure Inv (b : Boot) (s : State T) (fl : List Frame) (hl : Frame → List Frame) : Prop where
  count : ∀ f, s.refcount f = s.refs f + s.pins f
  freeChain : Chain s.freeNext s.freelist fl
  freeNodup : fl.Nodup
  freeRange : ∀ f ∈ fl, InRange b f
  freeRefs : ∀ f ∈ fl, s.refcount f = 0
  freeShared : ∀ f ∈ fl, s.shared f = 0
  chain : ∀ a, Chain s.homenext (s.homelist a) (hl a)
  nodup : ∀ a, ((hl a).map s.home).Nodup
  addr : ∀ a, ∀ f ∈ hl a, rrFrame (rrAddr (s.home f)) = a
  range : ∀ a, ∀ f ∈ hl a, InRange b f
  kept : ∀ a, ∀ f ∈ hl a, s.shared f ≠ 0 ∨ 0 < s.pins f
  task : ∀ t k, s.task t = some k → k.Ok b s fl hl
  owner : ∀ t t' k k' f, s.task t = some k → s.task t' = some k' → k.Owns s f → k'.Owns s f →
    t = t'
  flight : ∀ t t' k k' rr, s.task t = some k → s.task t' = some k' → k.inFlight = some rr →
    k'.inFlight = some rr → t = t'
  stopped : s.stopped ≠ some .rr

/-- A page that is in use, or kept for other nodes. -/
structure Live (s : State T) (fl : List Frame) (f : Frame) : Prop where
  taken : f ∉ fl
  used : ∀ t k, s.task t = some k → k.Owns s f → 0 < s.refcount f

theorem Inv.refs_eq_zero (h : Inv b s fl hl) (hr : s.refcount f = 0) :
    s.refs f = 0 ∧ s.pins f = 0 := by
  have := h.count f
  omega

/-- A page without references that is not shared is on no home list. -/
theorem Inv.not_homed (h : Inv b s fl hl) (hr : s.refcount f = 0) (hs : s.shared f = 0)
    (a : Frame) : f ∉ hl a := by
  intro hf
  obtain h' | h' := h.kept a f hf
  · exact h' hs
  · have := (h.refs_eq_zero hr).2
    omega

/-- A page on a home list is not free. -/
theorem Inv.not_free (h : Inv b s fl hl) (hf : f ∈ hl a) : f ∉ fl :=
  fun hfl => h.not_homed (h.freeRefs f hfl) (h.freeShared f hfl) a hf

/-- The invariant gives what is claimed. -/
theorem Inv.consistent (h : Inv b s fl hl) : Consistent s := by
  refine ⟨fun a => ⟨hl a, h.chain a, (h.nodup a).of_map, h.nodup a, ?_⟩, h.stopped⟩
  intro f hf
  refine ⟨?_, h.addr a f hf⟩
  rintro ⟨l, hl', hfl⟩
  rw [hl'.unique h.freeChain] at hfl
  exact h.not_free hf hfl

theorem InRange.pageOk (h : InRange b f) : State.PageOk b f := by
  have := b.npage_le
  refine ⟨h, ?_, .inl ?_⟩
  · unfold linkIndex
    have := h.2
    omega
  · unfold linkIndex
    have := h.2
    omega

theorem shareBit_ne_zero {n : BitVec 8} (h : nodeOk n) : shareBit n ≠ 0 := by
  revert n
  decide

theorem live_of_refcount (h : Inv b s fl hl) (hr : 0 < s.refcount f) : Live s fl f := by
  refine ⟨fun hf => ?_, fun _ _ _ _ => hr⟩
  have := h.freeRefs f hf
  omega

/-- A task that owns a page without references owns one that is not shared either. -/
theorem Inv.owned_shared (h : Inv b s fl hl) (hk : s.task t = some k) (ho : k.Owns s f)
    (hr : ¬ 0 < s.refcount f) : s.shared f = 0 := by
  have hok := h.task t k hk
  have hc := h.count f
  cases k with
  | migAlloc rr | pullAlloc rr => exact ho.elim
  | migTrack rr pi | pullTrack rr pi =>
    obtain rfl : pi = f := ho
    have := hok.2.2.1
    omega
  | pullShare rr pi =>
    obtain rfl : pi = f := ho
    have := hok.2.2.1
    omega
  | fresh pi | free pi =>
    obtain rfl : pi = f := ho
    exact hok.shared
  | zero pi =>
    obtain ⟨rfl, hs⟩ := ho
    exact hs

theorem live_of_shared (h : Inv b s fl hl) (hs : s.shared f ≠ 0) : Live s fl f := by
  refine ⟨fun hf => hs (h.freeShared f hf), fun t k hk ho => ?_⟩
  by_contra hr
  exact hs (h.owned_shared hk ho hr)

theorem live_of_homed (h : Inv b s fl hl) (hf : f ∈ hl a) : Live s fl f := by
  obtain hs | hp := h.kept a f hf
  · exact live_of_shared h hs
  · apply live_of_refcount h
    have := h.count f
    omega

/-! ## References -/

/-- A page without references that a task owns is not live. -/
theorem Live.ne (hl' : Live s fl pi) (hk : s.task t = some k) (ho : k.Owns s f)
    (hr : s.refcount f = 0) : f ≠ pi := by
  rintro rfl
  have := hl'.used t k hk ho
  omega

/-- One more reference to a live page. -/
theorem Inv.more (h : Inv b s fl hl) (hlive : Live s fl pi) {refs pins : Frame → ℕ}
    (hpins : ∀ f, s.pins f ≤ pins f)
    (hc : ∀ f, refs f + pins f = s.refs f + s.pins f + if f = pi then 1 else 0) :
    Inv b { s with
      refcount := Function.update s.refcount pi (s.refcount pi + 1)
      refs := refs
      pins := pins } fl hl := by
  have hne : ∀ f, f ≠ pi → Function.update s.refcount pi (s.refcount pi + 1) f = s.refcount f :=
    fun f hf => Function.update_of_ne hf _ _
  have hunused : ∀ t k f, s.task t = some k → k.Owns s f → Unused b s fl f →
      Unused b { s with
        refcount := Function.update s.refcount pi (s.refcount pi + 1)
        refs := refs
        pins := pins } fl f := by
    intro t k f hk ho hu
    exact ⟨hu.range, (hne f (hlive.ne hk ho hu.refcount)).trans hu.refcount, hu.shared, hu.taken⟩
  refine { h with count := ?_, freeRefs := ?_, kept := ?_, task := ?_, owner := ?_ }
  · intro f
    have h1 := h.count f
    have h2 := hc f
    by_cases hf : f = pi
    · subst hf
      simp only [Function.update_self, if_true] at h2 ⊢
      omega
    · simp only [hne f hf, if_neg hf] at h2 ⊢
      omega
  · intro f hf
    have : f ≠ pi := fun e => hlive.taken (e ▸ hf)
    exact (hne f this).trans (h.freeRefs f hf)
  · intro a f hf
    exact (h.kept a f hf).imp id fun h' => h'.trans_le (hpins f)
  · intro t k hk
    have hok := h.task t k hk
    cases k with
    | migAlloc rr | pullAlloc rr => exact hok
    | migTrack rr f | pullTrack rr f =>
      exact ⟨hok.1, hok.2.1, hok.2.2.1.trans_le (hpins f), hok.2.2.2⟩
    | pullShare rr f => exact ⟨hok.1, hok.2.1, hok.2.2.1.trans_le (hpins f), hok.2.2.2⟩
    | fresh f | free f => exact hunused t _ f hk rfl hok
    | zero f => exact ⟨hok.1, fun hs => hunused t _ f hk ⟨rfl, hs⟩ (hok.2 hs)⟩
  · intro t t' k k' f hk hk' ho ho'
    apply h.owner t t' k k' f hk hk'
    · cases k <;> exact ho
    · cases k' <;> exact ho'

/-! ## Tasks -/

/-- A task gets a new state. -/
theorem Inv.setTask [DecidableEq T] (h : Inv b s fl hl) (o : Option Task)
    (hok : ∀ k, o = some k → k.Ok b s fl hl)
    (hown : ∀ k, o = some k → ∀ t' k' f, t' ≠ t → s.task t' = some k' → k.Owns s f →
      ¬ k'.Owns s f)
    (hflight : ∀ k, o = some k → ∀ t' k' rr, t' ≠ t → s.task t' = some k' →
      k.inFlight = some rr → k'.inFlight ≠ some rr) :
    Inv b (s.setTask t o) fl hl := by
  have hcase : ∀ t' k', (s.setTask t o).task t' = some k' →
      t' = t ∧ o = some k' ∨ t' ≠ t ∧ s.task t' = some k' := by
    intro t' k' h'
    by_cases ht : t' = t
    · subst ht
      exact .inl ⟨rfl, by simpa [State.setTask] using h'⟩
    · exact .inr ⟨ht, by simpa [State.setTask, ht] using h'⟩
  have hOk : ∀ k : Task, k.Ok b s fl hl → k.Ok b (s.setTask t o) fl hl := by
    intro k hk
    cases k with
    | migAlloc rr | pullAlloc rr | migTrack rr f | pullTrack rr f | pullShare rr f => exact hk
    | fresh f | free f => exact ⟨hk.range, hk.refcount, hk.shared, hk.taken⟩
    | zero f =>
      refine ⟨hk.1, fun hs => ?_⟩
      obtain ⟨h1, h2, h3, h4⟩ := hk.2 hs
      exact ⟨h1, h2, h3, h4⟩
  have hOwns : ∀ (k : Task) f, k.Owns (s.setTask t o) f → k.Owns s f := by
    intro k f hk
    cases k <;> exact hk
  refine { h with task := ?_, owner := ?_, flight := ?_ }
  · intro t' k' h'
    obtain ⟨-, h'⟩ | ⟨-, h'⟩ := hcase t' k' h'
    · exact hOk k' (hok k' h')
    · exact hOk k' (h.task t' k' h')
  · intro t₁ t₂ k₁ k₂ f h₁ h₂ ho₁ ho₂
    have ho₁ := hOwns k₁ f ho₁
    have ho₂ := hOwns k₂ f ho₂
    obtain ⟨e₁, h₁⟩ | ⟨e₁, h₁⟩ := hcase t₁ k₁ h₁ <;>
      obtain ⟨e₂, h₂⟩ | ⟨e₂, h₂⟩ := hcase t₂ k₂ h₂
    · exact e₁.trans e₂.symm
    · exact absurd ho₂ (hown k₁ h₁ t₂ k₂ f e₂ h₂ ho₁)
    · exact absurd ho₁ (hown k₂ h₂ t₁ k₁ f e₁ h₁ ho₂)
    · exact h.owner t₁ t₂ k₁ k₂ f h₁ h₂ ho₁ ho₂
  · intro t₁ t₂ k₁ k₂ rr h₁ h₂ ho₁ ho₂
    obtain ⟨e₁, h₁⟩ | ⟨e₁, h₁⟩ := hcase t₁ k₁ h₁ <;>
      obtain ⟨e₂, h₂⟩ | ⟨e₂, h₂⟩ := hcase t₂ k₂ h₂
    · exact e₁.trans e₂.symm
    · exact absurd ho₂ (hflight k₁ h₁ t₂ k₂ rr e₂ h₂ ho₁)
    · exact absurd ho₁ (hflight k₂ h₂ t₁ k₁ rr e₁ h₁ ho₂)
    · exact h.flight t₁ t₂ k₁ k₂ rr h₁ h₂ ho₁ ho₂

/-- A task ends. -/
theorem Inv.endTask [DecidableEq T] (h : Inv b s fl hl) : Inv b (s.setTask t none) fl hl :=
  h.setTask none (by simp) (by simp) (by simp)

/-- No task owns a page of the free list. -/
theorem Inv.not_owned (h : Inv b s fl hl) (hf : f ∈ fl) (hk : s.task t = some k) :
    ¬ k.Owns s f := by
  intro ho
  have hok := h.task t k hk
  have hc := h.count f
  have hr := h.freeRefs f hf
  cases k with
  | migAlloc rr | pullAlloc rr => exact ho
  | migTrack rr pi | pullTrack rr pi =>
    obtain rfl : pi = f := ho
    have := hok.2.2.1
    omega
  | pullShare rr pi =>
    obtain rfl : pi = f := ho
    have := hok.2.2.1
    omega
  | fresh pi | free pi =>
    obtain rfl : pi = f := ho
    exact hok.taken hf
  | zero pi =>
    obtain ⟨rfl, hs⟩ := ho
    exact (hok.2 hs).taken hf

/-! ## The free list -/

/-- `mem_alloc` gives a page that nothing refers to. -/
theorem Inv.alloc (h : Inv b s fl hl) (ha : s.memAlloc = some (pi, u)) :
    u.task = s.task ∧ ∃ fl', Inv b u fl' hl ∧ Unused b u fl' pi ∧
      ∀ t k, u.task t = some k → ¬ k.Owns u pi := by
  unfold State.memAlloc at ha
  split at ha
  · cases ha
  next pi' hhead =>
    cases ha
    have hhd := h.freeChain.head_eq
    rw [hhead] at hhd
    cases fl with
    | nil => cases hhd
    | cons f fl =>
      obtain rfl : pi = f := by simpa using hhd
      have hsh : Function.update s.shared pi 0 = s.shared := by
        rw [Function.update_eq_self_iff]
        exact (h.freeShared pi (by simp)).symm
      obtain ⟨hnot, hnd⟩ := List.nodup_cons.1 h.freeNodup
      have hhome : ∀ a, ∀ f ∈ hl a, Function.update s.home pi 0 f = s.home f := by
        intro a f hf
        apply Function.update_of_ne
        rintro rfl
        exact h.not_free hf (by simp)
      have hmap : ∀ a, (hl a).map (Function.update s.home pi 0) = (hl a).map s.home :=
        fun a => List.map_congr_left (hhome a)
      have hun : Unused b s fl pi :=
        ⟨h.freeRange pi (by simp), h.freeRefs pi (by simp), h.freeShared pi (by simp), hnot⟩
      refine ⟨rfl, fl, ?_, ?_, ?_⟩
      · simp only [hsh]
        refine { h with
          freeChain := ?_, freeNodup := hnd, freeRange := ?_, freeRefs := ?_, freeShared := ?_
          nodup := ?_, addr := ?_, task := ?_, owner := ?_ }
        · exact h.freeChain.2.update hnot none
        · exact fun f hf => h.freeRange f (by simp [hf])
        · exact fun f hf => h.freeRefs f (by simp [hf])
        · exact fun f hf => h.freeShared f (by simp [hf])
        · exact fun a => by simpa only [hmap] using h.nodup a
        · exact fun a f hf => by simpa only [hhome a f hf] using h.addr a f hf
        · intro t k hk
          have hok := h.task t k hk
          have hno := h.not_owned (f := pi) (by simp) hk
          cases k with
          | migAlloc rr | pullAlloc rr => simpa only [Task.Ok, hmap] using hok
          | migTrack rr f | pullTrack rr f => simpa only [Task.Ok, hmap] using hok
          | pullShare rr f =>
            have hne : f ≠ pi := hno
            simpa only [Task.Ok, Function.update_of_ne hne] using hok
          | fresh f | free f =>
            exact ⟨hok.range, hok.refcount, hok.shared, fun hf => hok.taken (by simp [hf])⟩
          | zero f =>
            refine ⟨hok.1, fun hs => ?_⟩
            obtain ⟨h1, h2, h3, h4⟩ := hok.2 hs
            exact ⟨h1, h2, h3, fun hf => h4 (by simp [hf])⟩
        · intro t t' k k' f hk hk' ho ho'
          apply h.owner t t' k k' f hk hk'
          · cases k <;> exact ho
          · cases k' <;> exact ho'
      · exact ⟨hun.range, hun.refcount, by simp, hun.taken⟩
      · intro t k hk ho
        apply h.not_owned (f := pi) (by simp) hk
        cases k with
        | zero f => exact ⟨ho.1, h.freeShared f (by simp [ho.1])⟩
        | _ => exact ho

/-- A task other than the owner of a page does not need it. -/
theorem Inv.other_not_owns (h : Inv b s fl hl) {t' : T} {k' : Task} (hk : s.task t = some k)
    (ho : k.Owns s f) (hne : t' ≠ t) (hk' : s.task t' = some k') : ¬ k'.Owns s f :=
  fun ho' => hne (h.owner t' t k' k f hk' hk ho' ho)

/-- A page that nothing refers to goes to the free list, and the task that had it ends. -/
theorem Inv.free [DecidableEq T] (h : Inv b s fl hl) (hk : s.task t = some k) (ho : k.Owns s pi)
    (hun : Unused b s fl pi) :
    Inv b ({ s with
      freeNext := Function.update s.freeNext pi s.freelist
      freelist := some pi }.setTask t none) (pi :: fl) hl := by
  have hne : ∀ t' k' f, (s.setTask t none).task t' = some k' → k'.Owns s f → f ≠ pi := by
    rintro t' k' f hk' ho' rfl
    by_cases ht : t' = t
    · subst ht
      simp [State.setTask] at hk'
    · simp only [State.setTask, Function.update_of_ne ht] at hk'
      exact h.other_not_owns hk ho ht hk' ho'
  have h' : Inv b (s.setTask t none) fl hl := h.endTask
  refine { h' with
    freeChain := ?_, freeNodup := ?_, freeRange := ?_, freeRefs := ?_, freeShared := ?_
    task := ?_, owner := ?_ }
  · refine ⟨rfl, ?_⟩
    simp only [State.setTask, Function.update_self]
    exact h.freeChain.update hun.taken _
  · exact List.nodup_cons.2 ⟨hun.taken, h.freeNodup⟩
  · rintro f (_ | ⟨_, hf⟩)
    · exact hun.range
    · exact h.freeRange f hf
  · rintro f (_ | ⟨_, hf⟩)
    · exact hun.refcount
    · exact h.freeRefs f hf
  · rintro f (_ | ⟨_, hf⟩)
    · exact hun.shared
    · exact h.freeShared f hf
  · intro t' k' hk'
    have hok := h'.task t' k' hk'
    have hn := fun f => hne t' k' f hk'
    cases k' with
    | migAlloc rr | pullAlloc rr | migTrack rr f | pullTrack rr f | pullShare rr f => exact hok
    | fresh f | free f =>
      exact ⟨hok.range, hok.refcount, hok.shared, by simp [hn f rfl, hok.taken]⟩
    | zero f =>
      refine ⟨hok.1, fun hs => ?_⟩
      obtain ⟨h1, h2, h3, h4⟩ := hok.2 hs
      exact ⟨h1, h2, h3, by simp [hn f ⟨rfl, hs⟩, h4]⟩
  · intro t₁ t₂ k₁ k₂ f h₁ h₂ ho₁ ho₂
    apply h'.owner t₁ t₂ k₁ k₂ f h₁ h₂
    · cases k₁ <;> exact ho₁
    · cases k₂ <;> exact ho₂

/-- A reference is given up. -/
theorem Inv.less (h : Inv b s fl hl) (hr : 0 < s.refs pi) :
    Inv b { s with
      refcount := Function.update s.refcount pi (s.refcount pi - 1)
      refs := Function.update s.refs pi (s.refs pi - 1) } fl hl := by
  have hc := h.count pi
  have hne : ∀ f, s.refcount f = 0 → f ≠ pi := by
    rintro f hf rfl
    omega
  have hz : ∀ f, s.refcount f = 0 →
      Function.update s.refcount pi (s.refcount pi - 1) f = 0 := by
    intro f hf
    rw [Function.update_of_ne (hne f hf)]
    exact hf
  refine { h with count := ?_, freeRefs := ?_, task := ?_, owner := ?_ }
  · intro f
    by_cases hf : f = pi
    · subst hf
      simp only [Function.update_self]
      omega
    · simpa only [Function.update_of_ne hf] using h.count f
  · exact fun f hf => hz f (h.freeRefs f hf)
  · intro t k hk
    have hok := h.task t k hk
    cases k with
    | migAlloc rr | pullAlloc rr | migTrack rr f | pullTrack rr f | pullShare rr f => exact hok
    | fresh f | free f => exact ⟨hok.range, hz f hok.refcount, hok.shared, hok.taken⟩
    | zero f =>
      refine ⟨hok.1, fun hs => ?_⟩
      obtain ⟨h1, h2, h3, h4⟩ := hok.2 hs
      exact ⟨h1, hz f h2, h3, h4⟩
  · intro t t' k k' f hk hk' ho ho'
    apply h.owner t t' k k' f hk hk'
    · cases k <;> exact ho
    · cases k' <;> exact ho'

/-- No task owns a page that only page maps refer to. -/
theorem Inv.not_owned_of_refs (h : Inv b s fl hl) (hr : 0 < s.refs f) (hp : s.pins f = 0)
    (hk : s.task t = some k) : ¬ k.Owns s f := by
  intro ho
  have hok := h.task t k hk
  have hc := h.count f
  cases k with
  | migAlloc rr | pullAlloc rr => exact ho
  | migTrack rr pi | pullTrack rr pi =>
    obtain rfl : pi = f := ho
    have := hok.2.2.1
    omega
  | pullShare rr pi =>
    obtain rfl : pi = f := ho
    have := hok.2.2.1
    omega
  | fresh pi | free pi =>
    obtain rfl : pi = f := ho
    have := hok.refcount
    omega
  | zero pi =>
    obtain ⟨rfl, hs⟩ := ho
    have := (hok.2 hs).refcount
    omega

/-- `mem_decref` of a page that is in use. -/
theorem Inv.decref [DecidableEq T] (h : Inv b s fl hl) (hr : 0 < s.refs pi)
    (hu : s.decref b t pi = .ok u) : Inv b u fl hl := by
  unfold State.decref at hu
  rw [require_bind_ok] at hu
  obtain ⟨hpage, hu⟩ := hu
  have hless := h.less hr
  have hc := h.count pi
  simp only [pure_ok, Function.update_self] at hu
  split at hu
  next hz =>
    subst hu
    have hp : s.pins pi = 0 := by omega
    apply hless.setTask
    · intro k hk
      cases hk
      refine ⟨hpage.1, fun hs => ⟨hpage.1, ?_, hs, (live_of_refcount h (by omega)).taken⟩⟩
      simpa only [Function.update_self] using hz
    · intro k hk t' k' f _ hk' ho ho'
      cases hk
      obtain ⟨rfl, _⟩ := ho
      apply h.not_owned_of_refs hr hp hk'
      cases k' <;> exact ho'
    · intro k hk t' k' rr _ _ hfl
      cases hk
      cases hfl
  · subst hu
    exact hless

/-! ## Sharing -/

/-- A page with a reference is marked shared. -/
theorem Inv.share (h : Inv b s fl hl) {v : BitVec 64} (hv : v ≠ 0) (hr : 0 < s.refcount pi) :
    Inv b { s with shared := Function.update s.shared pi v } fl hl := by
  have hzero : ∀ f, Function.update s.shared pi v f = 0 → f ≠ pi ∧ s.shared f = 0 := by
    intro f hf
    have hne : f ≠ pi := by
      rintro rfl
      exact hv (by simpa using hf)
    exact ⟨hne, by rwa [Function.update_of_ne hne] at hf⟩
  have hsame : ∀ f, s.refcount f = 0 → Function.update s.shared pi v f = s.shared f := by
    intro f hf
    apply Function.update_of_ne
    rintro rfl
    omega
  have hOwns : ∀ (k : Task) f, k.Owns { s with shared := Function.update s.shared pi v } f →
      k.Owns s f := by
    intro k f ho
    cases k with
    | zero f => exact ⟨ho.1, (hzero f ho.2).2⟩
    | _ => exact ho
  refine { h with freeShared := ?_, kept := ?_, task := ?_, owner := ?_ }
  · exact fun f hf => (hsame f (h.freeRefs f hf)).trans (h.freeShared f hf)
  · intro a f hf
    refine (h.kept a f hf).imp (fun hs hz => hs (hzero f hz).2) id
  · intro t k hk
    have hok := h.task t k hk
    cases k with
    | migAlloc rr | pullAlloc rr | migTrack rr f | pullTrack rr f | pullShare rr f => exact hok
    | fresh f | free f =>
      exact ⟨hok.range, hok.refcount, (hsame f hok.refcount).trans hok.shared, hok.taken⟩
    | zero f =>
      refine ⟨hok.1, fun hs => ?_⟩
      obtain ⟨h1, h2, h3, h4⟩ := hok.2 (hzero f hs).2
      exact ⟨h1, h2, hs, h4⟩
  · intro t t' k k' f hk hk' ho ho'
    exact h.owner t t' k k' f hk hk' (hOwns k f ho) (hOwns k' f ho')

/-- A page that a task has entered in a home list passes from the task to the page map. -/
theorem Inv.pass [DecidableEq T] (h : Inv b s fl hl) (hk : s.task t = some k) (ho : k.Owns s pi)
    (hp : 0 < s.pins pi) (hs : s.shared pi ≠ 0) :
    Inv b (({ s with pins := Function.update s.pins pi (s.pins pi - 1) }.addRef pi).setTask t none)
      fl hl := by
  have h' : Inv b (s.setTask t none) fl hl := h.endTask
  have hother : ∀ t' k' f, (s.setTask t none).task t' = some k' → k'.Owns s f → f ≠ pi := by
    rintro t' k' f hk' ho' rfl
    by_cases ht : t' = t
    · subst ht
      simp [State.setTask] at hk'
    · simp only [State.setTask, Function.update_of_ne ht] at hk'
      exact h.other_not_owns hk ho ht hk' ho'
  have hpins : ∀ f, f ≠ pi → Function.update s.pins pi (s.pins pi - 1) f = s.pins f :=
    fun f hf => Function.update_of_ne hf _ _
  refine { h' with count := ?_, kept := ?_, task := ?_, owner := ?_ }
  · intro f
    have hc := h.count f
    by_cases hf : f = pi
    · subst hf
      simp only [State.setTask, State.addRef, Function.update_self]
      omega
    · simpa only [State.setTask, State.addRef, Function.update_of_ne hf] using hc
  · intro a f hf
    by_cases hfp : f = pi
    · subst hfp
      exact .inl hs
    · refine (h.kept a f hf).imp id fun hp' => ?_
      simpa only [State.setTask, State.addRef, hpins f hfp] using hp'
  · intro t' k' hk'
    have hok := h'.task t' k' hk'
    have hn := fun f => hother t' k' f hk'
    cases k' with
    | migAlloc rr | pullAlloc rr => exact hok
    | migTrack rr f | pullTrack rr f =>
      refine ⟨hok.1, hok.2.1, ?_, hok.2.2.2⟩
      simpa only [State.setTask, State.addRef, hpins f (hn f rfl)] using hok.2.2.1
    | pullShare rr f =>
      refine ⟨hok.1, hok.2.1, ?_, hok.2.2.2⟩
      simpa only [State.setTask, State.addRef, hpins f (hn f rfl)] using hok.2.2.1
    | fresh f | free f => exact ⟨hok.range, hok.refcount, hok.shared, hok.taken⟩
    | zero f =>
      refine ⟨hok.1, fun hs => ?_⟩
      obtain ⟨h1, h2, h3, h4⟩ := hok.2 hs
      exact ⟨h1, h2, h3, h4⟩
  · intro t₁ t₂ k₁ k₂ f h₁ h₂ ho₁ ho₂
    apply h'.owner t₁ t₂ k₁ k₂ f h₁ h₂
    · cases k₁ <;> exact ho₁
    · cases k₂ <;> exact ho₂

/-! ## The home lists -/

theorem rrAddrMask_getLsbD : ∀ i < 32, rrAddrMask.getLsbD i = decide (12 ≤ i) := by decide

/-- The frame of an address determines the address. -/
theorem rrAddr_eq_of_frame {x y : Rr} (h : rrFrame (rrAddr x) = rrFrame (rrAddr y)) :
    rrAddr x = rrAddr y := by
  apply BitVec.eq_of_getLsbD_eq
  intro i hi
  by_cases hlt : i < 12
  · simp only [rrAddr, BitVec.getLsbD_and, rrAddrMask_getLsbD i hi]
    simp [Nat.not_le.2 hlt]
  · have hb := congrArg (fun v => v.getLsbD (i - 12)) h
    have h12 : 12 + (i - 12) = i := by omega
    have h40 : i < 40 := by omega
    simpa [rrFrame, BitVec.getLsbD_setWidth, BitVec.getLsbD_ushiftRight, h12, h40] using hb

/-- A list without repetitions of pages in range is no longer than the number of pages. -/
theorem length_le_npage {l : List Frame} (hn : l.Nodup) (hr : ∀ f ∈ l, InRange b f) :
    l.length ≤ b.npage := by
  have hnd : (l.map BitVec.toNat).Nodup := hn.map (fun _ _ => BitVec.eq_of_toNat_eq)
  have hsub : l.map BitVec.toNat ⊆ List.range b.npage := by
    intro n hn
    obtain ⟨f, hf, rfl⟩ := List.mem_map.1 hn
    exact List.mem_range.2 (hr f hf).2
  simpa using (hnd.subperm hsub).length_le

/-- The scan of `mem_rrtrack` passes over a list that does not have the reference. -/
theorem fresh_of_chain : ∀ {l : List Frame} {n : ℕ} {o : Option Frame}, Chain s.homenext o l →
    l.length ≤ n → (∀ f ∈ l, rrAddr (s.home f) = rrAddr rr) → rr ∉ l.map s.home →
    s.fresh rr n o = true
  | [], n, o, hc, _, _, _ => by
    obtain rfl : o = none := hc
    cases n <;> rfl
  | f :: l, 0, o, _, hn, _, _ => by simp at hn
  | f :: l, n + 1, o, ⟨ho, hc⟩, hn, ha, hrr => by
    subst ho
    simp only [List.map_cons, List.mem_cons, not_or] at hrr
    have ih := fresh_of_chain (n := n) hc (by simpa using hn) (fun g hg => ha g (by simp [hg])) hrr.2
    simp [State.fresh, ha f (by simp), Ne.symm hrr.1, ih]

/-- The search of `mem_rrlookup` finds the page with the reference, if there is one. -/
theorem search_of_chain : ∀ {l : List Frame} {n : ℕ} {o : Option Frame}, Chain s.homenext o l →
    l.length ≤ n → (∀ f ∈ l, rrAddr (s.home f) = rrAddr rr) →
    (s.search rr n o = .ok none ∧ rr ∉ l.map s.home) ∨
      ∃ f ∈ l, s.search rr n o = .ok (some f) ∧ s.home f = rr
  | [], n, o, hc, _, _ => by
    obtain rfl : o = none := hc
    left
    refine ⟨?_, by simp⟩
    cases n <;> rfl
  | f :: l, 0, o, _, hn, _ => by simp at hn
  | f :: l, n + 1, o, ⟨ho, hc⟩, hn, ha => by
    subst ho
    have hf : rrAddr (s.home f) = rrAddr rr := ha f (by simp)
    by_cases he : s.home f = rr
    · right
      refine ⟨f, by simp, ?_, he⟩
      simp only [State.search, require_bind hf, if_pos he]
      rfl
    · have ih := search_of_chain (n := n) hc (by simpa using hn) (fun g hg => ha g (by simp [hg]))
      simp only [State.search, require_bind hf, if_neg he]
      obtain ⟨h1, h2⟩ | ⟨g, hg, h1, h2⟩ := ih
      · left
        exact ⟨h1, by simp [Ne.symm he, h2]⟩
      · right
        exact ⟨g, by simp [hg], h1, h2⟩

theorem Inv.length_le (h : Inv b s fl hl) (a : Frame) : (hl a).length ≤ b.npage :=
  length_le_npage (h.nodup a).of_map (h.range a)

theorem Inv.addr_eq (h : Inv b s fl hl) (rr : Rr) :
    ∀ f ∈ hl (rrFrame (rrAddr rr)), rrAddr (s.home f) = rrAddr rr :=
  fun f hf => rrAddr_eq_of_frame (h.addr _ f hf)

/-- `mem_rrlookup` finds the page with the reference and takes a reference to it, or finds that
there is none. -/
theorem Inv.memRrlookup (h : Inv b s fl hl) (hrr : State.RrOk b rr) :
    (s.memRrlookup b rr = .ok (none, s) ∧ rr ∉ (hl (rrFrame (rrAddr rr))).map s.home) ∨
      ∃ f ∈ hl (rrFrame (rrAddr rr)), s.memRrlookup b rr = .ok (some f, { s with
        refcount := Function.update s.refcount f (s.refcount f + 1) }) := by
  have hs := search_of_chain (h.chain _) (h.length_le _) (h.addr_eq rr)
  unfold State.memRrlookup
  rw [require_bind hrr]
  obtain ⟨h1, h2⟩ | ⟨f, hf, h1, h2⟩ := hs
  · left
    rw [h1]
    exact ⟨rfl, h2⟩
  · right
    refine ⟨f, hf, ?_⟩
    rw [h1]
    simp only [ok_bind, State.memIncref, require_bind (h.range _ f hf).pageOk]
    rfl

/-- What `mem_rrtrack` does: put the page at the head of the home list. -/
def State.enter (s : State T) (rr : Rr) (pi : Frame) : State T :=
  { s with
    home := Function.update s.home pi rr
    homenext := Function.update s.homenext pi (s.homelist (rrFrame (rrAddr rr)))
    homelist := Function.update s.homelist (rrFrame (rrAddr rr)) (some pi) }

/-- `mem_rrtrack` of a reference that is not in its list returns. -/
theorem Inv.memRrtrack (h : Inv b s fl hl) (hrr : State.RrOk b rr)
    (hnew : rr ∉ (hl (rrFrame (rrAddr rr))).map s.home) (hpi : InRange b pi) :
    s.memRrtrack b rr pi = .ok (s.enter rr pi) := by
  have hfresh := fresh_of_chain (h.chain _) (h.length_le _)
    (h.addr_eq rr) hnew
  unfold State.memRrtrack
  rw [require_bind hpi.pageOk, require_bind hrr, require_bind hfresh]
  rfl

/-- The page of a task is entered in a home list. -/
theorem Inv.enter [DecidableEq T] (h : Inv b s fl hl) (hk : s.task t = some k)
    (ho : k.Owns s pi) (hfl : k.inFlight = some rr)
    (hnew : rr ∉ (hl (rrFrame (rrAddr rr))).map s.home) (hpi : InRange b pi) (hp : 0 < s.pins pi)
    (hnot : ∀ a, pi ∉ hl a) :
    Inv b ((s.enter rr pi).setTask t none) fl
      (Function.update hl (rrFrame (rrAddr rr)) (pi :: hl (rrFrame (rrAddr rr)))) := by
  set c := rrFrame (rrAddr rr) with hc
  have h' : Inv b (s.setTask t none) fl hl := h.endTask
  have hhome : ∀ a, ∀ f ∈ hl a, Function.update s.home pi rr f = s.home f := by
    intro a f hf
    apply Function.update_of_ne
    rintro rfl
    exact hnot a hf
  have hmap : ∀ a, (hl a).map (Function.update s.home pi rr) = (hl a).map s.home :=
    fun a => List.map_congr_left (hhome a)
  have hmem : ∀ a f, f ∈ Function.update hl c (pi :: hl c) a → f = pi ∧ a = c ∨ f ∈ hl a := by
    intro a f hf
    by_cases ha : a = c
    · subst ha
      rw [Function.update_self, List.mem_cons] at hf
      exact hf.imp (fun e => ⟨e, rfl⟩) id
    · rw [Function.update_of_ne ha] at hf
      exact .inr hf
  have hother : ∀ t' k', (s.setTask t none).task t' = some k' →
      ¬ k'.Owns s pi ∧ k'.inFlight ≠ some rr := by
    intro t' k' hk'
    by_cases ht : t' = t
    · subst ht
      simp [State.setTask] at hk'
    · simp only [State.setTask, Function.update_of_ne ht] at hk'
      exact ⟨h.other_not_owns hk ho ht hk', fun hf => ht (h.flight t' t k' k rr hk' hk hf hfl)⟩
  have hstill : ∀ x : Rr, x ≠ rr → x ∉ (hl (rrFrame (rrAddr x))).map s.home →
      x ∉ (Function.update hl c (pi :: hl c) (rrFrame (rrAddr x))).map
        (Function.update s.home pi rr) := by
    intro x hx hn
    by_cases hxc : rrFrame (rrAddr x) = c
    · rw [hxc, Function.update_self, List.map_cons, Function.update_self, hmap]
      rw [hxc] at hn
      simp [hx, hn]
    · rw [Function.update_of_ne hxc, hmap]
      exact hn
  refine { h' with
    chain := ?_, nodup := ?_, addr := ?_, range := ?_, kept := ?_, task := ?_, owner := ?_ }
  · intro a
    by_cases ha : a = c
    · subst ha
      simp only [State.setTask, State.enter, ← hc, Function.update_self]
      refine ⟨rfl, ?_⟩
      rw [Function.update_self]
      exact (h.chain c).update (hnot c) _
    · simp only [State.setTask, State.enter, ← hc, Function.update_of_ne ha]
      exact (h.chain a).update (hnot a) _
  · intro a
    simp only [State.setTask, State.enter]
    by_cases ha : a = c
    · subst ha
      rw [Function.update_self, List.map_cons, Function.update_self, hmap]
      exact List.nodup_cons.2 ⟨hnew, h.nodup c⟩
    · rw [Function.update_of_ne ha, hmap]
      exact h.nodup a
  · intro a f hf
    simp only [State.setTask, State.enter]
    obtain ⟨rfl, rfl⟩ | hf := hmem a f hf
    · rw [Function.update_self]
    · rw [hhome a f hf]
      exact h.addr a f hf
  · intro a f hf
    obtain ⟨rfl, rfl⟩ | hf := hmem a f hf
    · exact hpi
    · exact h.range a f hf
  · intro a f hf
    obtain ⟨rfl, rfl⟩ | hf := hmem a f hf
    · exact .inr hp
    · exact h.kept a f hf
  · intro t' k' hk'
    have hok := h'.task t' k' hk'
    obtain ⟨hno, hnf⟩ := hother t' k' hk'
    cases k' with
    | migAlloc x | pullAlloc x =>
      exact ⟨hok.1, hstill x (fun e => hnf (congrArg some e)) hok.2⟩
    | migTrack x f | pullTrack x f =>
      refine ⟨⟨hok.1.1, hstill x (fun e => hnf (congrArg some e)) hok.1.2⟩, hok.2.1, hok.2.2.1, ?_⟩
      intro a hf
      obtain ⟨rfl, -⟩ | hf := hmem a f hf
      · exact hno rfl
      · exact hok.2.2.2 a hf
    | pullShare x f =>
      refine ⟨hok.1, hok.2.1, hok.2.2.1, ?_⟩
      have hne : f ≠ pi := hno
      simp only [State.setTask, State.enter, Function.update_of_ne hne]
      exact hok.2.2.2
    | fresh f | free f => exact ⟨hok.range, hok.refcount, hok.shared, hok.taken⟩
    | zero f =>
      refine ⟨hok.1, fun hs => ?_⟩
      obtain ⟨h1, h2, h3, h4⟩ := hok.2 hs
      exact ⟨h1, h2, h3, h4⟩
  · intro t₁ t₂ k₁ k₂ f h₁ h₂ ho₁ ho₂
    apply h'.owner t₁ t₂ k₁ k₂ f h₁ h₂
    · cases k₁ <;> exact ho₁
    · cases k₂ <;> exact ho₂

/-! ## Steps -/

/-- The invariant, for some lists. -/
def Good (b : Boot) (s : State T) : Prop := ∃ fl hl, Inv b s fl hl

/-- A section that does not fail in `mem_rrtrack` or `mem_rrlookup`, and that keeps the invariant
where it returns. -/
def Keeps (b : Boot) (x : Except Stop (State T)) : Prop :=
  x ≠ .error .rr ∧ ∀ u, x = .ok u → Good b u

theorem Keeps.ok (h : Good b s) : Keeps b (.ok s) := by
  refine ⟨by simp, ?_⟩
  rintro u ⟨⟩
  exact h

theorem Keeps.require {p : Prop} [Decidable p] {x : Unit → Except Stop (State T)}
    (h : p → Keeps b (x ())) : Keeps b (require p .other >>= x) := by
  by_cases hp : p
  · rw [require_bind hp]
    exact h hp
  · simp [Determinator.require, hp, Keeps]

theorem Keeps.finish {x : Except Stop (State T)} (hx : Keeps b x) (h : Inv b s fl hl) :
    Good b (s.finish x) := by
  cases x with
  | ok u => exact hx.2 u rfl
  | error w =>
    refine ⟨fl, hl, { h with task := ?_, owner := ?_, stopped := ?_ }⟩
    · intro t k hk
      have hok := h.task t k hk
      cases k with
      | migAlloc rr | pullAlloc rr | migTrack rr f | pullTrack rr f | pullShare rr f => exact hok
      | fresh f | free f => exact ⟨hok.range, hok.refcount, hok.shared, hok.taken⟩
      | zero f =>
        refine ⟨hok.1, fun hs => ?_⟩
        obtain ⟨h1, h2, h3, h4⟩ := hok.2 hs
        exact ⟨h1, h2, h3, h4⟩
    · intro t₁ t₂ k₁ k₂ f h₁ h₂ ho₁ ho₂
      apply h.owner t₁ t₂ k₁ k₂ f h₁ h₂
      · cases k₁ <;> exact ho₁
      · cases k₂ <;> exact ho₂
    · rintro ⟨⟩
      exact hx.1 rfl

/-- One more reference that a page map holds. -/
theorem Inv.addRef (h : Inv b s fl hl) (hlive : Live s fl pi) :
    Inv b ({ s with
      refcount := Function.update s.refcount pi (s.refcount pi + 1) }.addRef pi) fl hl := by
  refine h.more hlive (fun _ => le_rfl) fun f => ?_
  by_cases hf : f = pi
  · subst hf
    simp only [Function.update_self, if_true]
    omega
  · simp only [Function.update_of_ne hf, if_neg hf]
    omega

/-- One more reference that is not given up. -/
theorem Inv.addPin (h : Inv b s fl hl) (hlive : Live s fl pi) :
    Inv b ({ s with
      refcount := Function.update s.refcount pi (s.refcount pi + 1) }.addPin pi) fl hl := by
  refine h.more hlive (fun f => ?_) fun f => ?_
  · by_cases hf : f = pi
    · subst hf
      simp
    · simp [Function.update_of_ne hf]
  · by_cases hf : f = pi
    · subst hf
      simp only [Function.update_self, if_true]
      omega
    · simp only [Function.update_of_ne hf, if_neg hf]
      omega

variable [DecidableEq T]

/-- A lookup that has found nothing leaves a task that is about to enter the reference. -/
theorem Inv.missed (h : Inv b s fl hl) (k : Task) (hok : k.Ok b s fl hl)
    (hown : ∀ f, ¬ k.Owns s f) (hk : k.inFlight = some rr)
    (hser : ∀ t k, s.task t = some k → k.inFlight ≠ some rr) :
    Inv b (s.setTask t (some k)) fl hl := by
  apply h.setTask
  · rintro k' ⟨⟩
    exact hok
  · rintro k' ⟨⟩ t' k' f _ _ ho
    exact absurd ho (hown f)
  · rintro k' ⟨⟩ t' k' x _ hk' hx
    rw [hk] at hx
    cases hx
    exact hser t' k' hk'

theorem Inv.rxmigrq (h : Inv b s fl hl)
    (hs : Serial b node s (.rxmigrq t rr)) : Keeps b (s.rxmigrq b node t rr) := by
  unfold State.rxmigrq
  split
  · exact .ok ⟨fl, hl, h⟩
  next hn =>
    obtain ⟨hrr, hser⟩ := hs rr (if_neg hn)
    obtain ⟨he, hnew⟩ | ⟨f, hf, he⟩ := h.memRrlookup hrr
    · rw [he]
      exact .ok ⟨fl, hl, h.missed (.migAlloc rr) ⟨hrr, hnew⟩ (fun _ => id) rfl hser⟩
    · rw [he]
      exact .ok ⟨fl, hl, h.addPin (live_of_homed h hf)⟩

theorem Inv.pullpte (h : Inv b s fl hl)
    (hs : Serial b node s (.pullpte t rr)) : Keeps b (s.pullpte b node t rr) := by
  unfold State.pullpte
  split
  · exact .ok ⟨fl, hl, h⟩
  next hz =>
    split
    · simp only [State.memIncref, bind_assoc]
      refine .require fun _ => .require fun _ => .require fun hsh => ?_
      exact .ok ⟨fl, hl, h.addRef (live_of_shared h hsh)⟩
    next hn =>
      obtain ⟨hrr, hser⟩ := hs rr (if_neg (not_or.2 ⟨hz, hn⟩))
      obtain ⟨he, hnew⟩ | ⟨f, hf, he⟩ := h.memRrlookup hrr
      · rw [he]
        exact .ok ⟨fl, hl, h.missed (.pullAlloc rr) ⟨hrr, hnew⟩ (fun _ => id) rfl hser⟩
      · rw [he]
        refine .require fun _ => .require fun _ => ?_
        exact .ok ⟨fl, hl, h.addRef (live_of_homed h hf)⟩

theorem setTask_setTask (s : State T) (k k' : Option Task) :
    (s.setTask t k).setTask t k' = s.setTask t k' := by
  simp [State.setTask]

/-- A task that is about to enter a reference gets a page for it. -/
theorem Inv.allocate (h : Inv b s fl hl) {k k' : Task} (hk : s.task t = some k)
    (hrr : State.RrOk b rr ∧ rr ∉ (hl (rrFrame (rrAddr rr))).map s.home)
    (hf : k.inFlight = some rr) (ha : s.memAlloc = some (pi, u))
    (hk' : k' = .migTrack rr pi ∨ k' = .pullTrack rr pi) :
    Keeps b (u.memIncref b pi .other >>= fun s => pure ((s.addPin pi).setTask t (some k'))) := by
  obtain ⟨htask, fl', hu, hun, hno⟩ := h.alloc ha
  unfold State.memIncref
  rw [require_bind hun.range.pageOk]
  have hlive : Live u fl' pi := ⟨hun.taken, fun t' k' hk' ho => absurd ho (hno t' k' hk')⟩
  have hpin := hu.addPin hlive
  have hnew : rr ∉ (hl (rrFrame (rrAddr rr))).map u.home := by
    have hku : u.task t = some k := htask ▸ hk
    have hok := hu.task t k hku
    cases k with
    | migAlloc x | pullAlloc x =>
      obtain rfl : x = rr := Option.some.inj hf
      exact hok.2
    | migTrack x f | pullTrack x f =>
      obtain rfl : x = rr := Option.some.inj hf
      exact hok.1.2
    | pullShare x f | fresh f | zero f | free f => cases hf
  refine .ok ⟨fl', hl, hpin.setTask _ ?_ ?_ ?_⟩
  · rintro k'' ⟨⟩
    have hp : 0 < (({ u with
        refcount := Function.update u.refcount pi (u.refcount pi + 1) }.addPin pi).pins pi) := by
      simp [State.addPin]
    have hnot := hu.not_homed hun.refcount hun.shared
    obtain rfl | rfl := hk' <;> exact ⟨⟨hrr.1, hnew⟩, hun.range, hp, hnot⟩
  · rintro k'' ⟨⟩ t' k'' f _ hk'' ho ho'
    have hown : k''.Owns u f := by
      cases k'' <;> exact ho'
    obtain rfl | rfl := hk' <;>
      · obtain rfl : pi = f := ho
        exact hno t' k'' hk'' hown
  · rintro k'' ⟨⟩ t' k'' x hne hk'' hx hx'
    have hx : some rr = some x := by
      obtain rfl | rfl := hk' <;> exact hx
    cases hx
    exact hne (hu.flight t' t k'' k rr hk'' (htask ▸ hk) hx' hf)

theorem Inv.go (h : Inv b s fl hl) (hk : s.task t = some k) : Keeps b (s.go b t k) := by
  have hok := h.task t k hk
  cases k with
  | migAlloc rr =>
    simp only [State.go]
    split
    · exact ⟨by simp, by simp⟩
    next pi u ha => exact h.allocate hk hok rfl ha (.inl rfl)
  | pullAlloc rr =>
    simp only [State.go]
    split
    · exact ⟨by simp, by simp⟩
    next pi u ha => exact h.allocate hk hok rfl ha (.inr rfl)
  | migTrack rr pi =>
    obtain ⟨⟨hrr, hnew⟩, hpi, hp, hnot⟩ := hok
    simp only [State.go]
    rw [h.memRrtrack hrr hnew hpi]
    exact .ok ⟨fl, _, h.enter hk rfl rfl hnew hpi hp hnot⟩
  | pullTrack rr pi =>
    obtain ⟨⟨hrr, hnew⟩, hpi, hp, hnot⟩ := hok
    simp only [State.go]
    rw [h.memRrtrack hrr hnew hpi]
    have he := h.enter hk rfl rfl hnew hpi hp hnot
    have heq := setTask_setTask (t := t) (s.enter rr pi) none (some (.pullShare rr pi))
    refine .ok ⟨fl, _, heq ▸ he.setTask _ ?_ ?_ ?_⟩
    · rintro k' ⟨⟩
      exact ⟨hrr.1, hpi, hp, by simp [State.setTask, State.enter]⟩
    · rintro k' ⟨⟩ t' k' f hne hk' ho ho'
      obtain rfl : pi = f := ho
      simp only [State.setTask, Function.update_of_ne hne] at hk'
      apply h.other_not_owns hk rfl hne hk'
      cases k' <;> exact ho'
    · rintro k' ⟨⟩ t' k' x _ _ hx
      cases hx
  | pullShare rr pi =>
    obtain ⟨hn, hpi, hp, hh⟩ := hok
    simp only [State.go]
    refine .require fun hs => .require fun _ => ?_
    have hc := h.count pi
    have hpos : 0 < s.refcount pi := by omega
    have hsh := h.share (shareBit_ne_zero hn) hpos
    exact .ok ⟨fl, hl, hsh.pass hk rfl hp hs⟩
  | fresh f | zero f | free f => exact .ok ⟨fl, hl, h⟩

/-- A step that meets the condition keeps the invariant. -/
theorem Inv.step (h : Inv b s fl hl) {a : Act T} (hs : Serial b node s a)
    (hu : s.step b node a = some u) : Good b u := by
  unfold State.step at hu
  split at hu
  · cases hu
  cases a with
  | rxmigrq t home =>
    simp only at hu
    split at hu
    · cases hu
      exact (h.rxmigrq hs).finish h
    · cases hu
  | pullpte t rr =>
    simp only at hu
    split at hu
    · cases hu
      exact (h.pullpte hs).finish h
    · cases hu
  | go t =>
    simp only at hu
    split at hu
    · cases hu
    · cases hu
    · cases hu
    · cases hu
    next k _ _ _ hk =>
      cases hu
      exact (h.go hk).finish h
  | alloc t =>
    simp only at hu
    split at hu
    next ht =>
      split at hu
      · cases hu
        exact ⟨fl, hl, h⟩
      next pi v ha =>
        cases hu
        obtain ⟨-, fl', hv, hun, hno⟩ := h.alloc ha
        refine ⟨fl', hl, hv.setTask _ ?_ ?_ ?_⟩
        · rintro k ⟨⟩
          exact hun
        · rintro k ⟨⟩ t' k' f _ hk' ho
          obtain rfl : pi = f := ho
          exact hno t' k' hk'
        · rintro k ⟨⟩ t' k' rr _ _ hx
          cases hx
    · cases hu
  | keep t =>
    simp only at hu
    split at hu
    next pi hk =>
      cases hu
      have hun := h.task t _ hk
      refine Keeps.finish ?_ h
      simp only [State.memIncref, bind_assoc]
      refine .require fun _ => .ok ⟨fl, hl, (h.endTask (t := t)).addRef ⟨hun.taken, ?_⟩⟩
      intro t' k' hk' ho
      by_cases ht : t' = t
      · subst ht
        simp [State.setTask] at hk'
      · simp only [State.setTask, Function.update_of_ne ht] at hk'
        refine absurd ?_ (h.other_not_owns (f := pi) hk rfl ht hk')
        cases k' <;> exact ho
    · cases hu
  | free t =>
    simp only at hu
    split at hu
    next pi hk =>
      cases hu
      refine Keeps.finish ?_ h
      unfold State.memFree
      simp only [bind_assoc]
      refine .require fun _ => .require fun _ => ?_
      exact .ok ⟨pi :: fl, hl, h.free hk rfl (h.task t _ hk)⟩
    next pi hk =>
      cases hu
      refine Keeps.finish ?_ h
      unfold State.memFree
      simp only [bind_assoc]
      refine .require fun _ => .require fun _ => ?_
      exact .ok ⟨pi :: fl, hl, h.free hk rfl (h.task t _ hk)⟩
    · cases hu
  | incref pi =>
    simp only at hu
    split at hu
    next hr =>
      cases hu
      refine Keeps.finish ?_ h
      unfold State.memIncref
      simp only [bind_assoc]
      refine .require fun _ => .ok ⟨fl, hl, h.addRef (live_of_refcount h ?_)⟩
      have := h.count pi
      omega
    · cases hu
  | share pi n =>
    simp only at hu
    split at hu
    next hr =>
      cases hu
      refine ⟨fl, hl, h.share ?_ hr.1⟩
      intro hz
      exact shareBit_ne_zero hr.2 (BitVec.or_eq_zero_iff.1 hz).2
    · cases hu
  | decref t pi =>
    simp only at hu
    split at hu
    next hr =>
      cases hu
      refine Keeps.finish ⟨?_, fun u hu => ⟨fl, hl, h.decref hr.2 hu⟩⟩ h
      unfold State.decref
      by_cases hp : State.PageOk b pi
      · rw [require_bind hp]
        simp [pure, Except.pure]
      · simp [require, hp]
    · cases hu
  | look t =>
    simp only at hu
    split at hu
    next pi hk =>
      cases hu
      have hok := h.task t _ hk
      by_cases hsh : s.shared pi = 0
      · rw [if_pos hsh]
        refine ⟨fl, hl, h.setTask _ ?_ ?_ ?_⟩
        · rintro k ⟨⟩
          exact hok.2 hsh
        · rintro k ⟨⟩ t' k' f hne hk' ho
          obtain rfl : pi = f := ho
          exact h.other_not_owns hk ⟨rfl, hsh⟩ hne hk'
        · rintro k ⟨⟩ t' k' rr _ _ hx
          cases hx
      · rw [if_neg hsh]
        exact ⟨fl, hl, h.endTask⟩
    · cases hu

omit [DecidableEq T] in
/-- The invariant holds after boot. -/
theorem Inv.init {links : Frame → Option Frame} {used : Frame → ℕ} (h : Booted b fl links used) :
    Inv b (init fl links used : State T) fl fun _ => [] where
  count f := by simp [Home.init]
  freeChain := h.chain
  freeNodup := h.nodup
  freeRange f hf := b.avail_range f (h.avail f hf)
  freeRefs f hf := by simp [Home.init, h.unused f hf]
  freeShared _ _ := rfl
  chain _ := rfl
  nodup _ := List.nodup_nil
  addr _ f hf := by cases hf
  range _ f hf := by cases hf
  kept _ f hf := by cases hf
  task t k hk := by cases hk
  owner t t' k k' f hk := by cases hk
  flight t t' k k' rr hk := by cases hk
  stopped := by simp [Home.init]

/-- In every run in which a reference is looked up only while no task is about to enter it, and
names a page that there can be, the home lists are consistent. -/
theorem run_consistent (h : Run b node (Serial b node) s) : Consistent s := by
  have hg : Good b s := by
    induction h with
    | init hb => exact ⟨_, _, .init hb⟩
    | step _ hP hu ih =>
      obtain ⟨fl, hl, hi⟩ := ih
      exact hi.step hP hu
  obtain ⟨fl, hl, hi⟩ := hg
  exact hi.consistent

/-- A list of steps that meet the condition wherever they are taken continues a run. -/
theorem Run.steps {P : State T → Act T → Prop} (h : Run b node P s) (as : List (Act T))
    (hP : ∀ a ∈ as, ∀ u, P u a) (hu : Home.steps b node s as = some u) : Run b node P u := by
  induction as generalizing s with
  | nil =>
    obtain rfl := Option.some.inj hu
    exact h
  | cons a as ih =>
    obtain ⟨v, hv, hu⟩ := Option.bind_eq_some_iff.1 hu
    exact ih (h.step (hP a (by simp) s) hv) (fun c hc => hP c (by simp [hc])) hu

/-- A small machine. -/
def smallBoot : Boot where
  npage := 16
  zero := 2
  start := 0
  last := 1
  bootpmap := fun _ => zeroEntry 2
  bootpdp := fun _ => zeroEntry 2
  avail := { f | 8 ≤ f.toNat ∧ f.toNat < 16 }
  npage_le := by decide
  avail_range := by
    rintro f ⟨h, h'⟩
    exact ⟨by omega, h'⟩
  zero_ne := by decide
  zero_avail := by
    rintro ⟨h, -⟩
    exact absurd h (by decide)
  bootpmap_user := fun _ _ _ => rfl
  bootpdp_user := fun _ _ => rfl

/-- Two pages are free. -/
def twoPages : State Bool :=
  init [8, 9] (fun f => if f = 8 then some 9 else none) fun _ => 0

theorem booted_twoPages :
    Booted smallBoot [8, 9] (fun f => if f = 8 then some 9 else none) fun _ => 0 where
  chain := ⟨rfl, rfl, rfl⟩
  nodup := by decide
  avail := by
    intro f hf
    obtain rfl | rfl : f = 8 ∨ f = 9 := by simpa using hf
    · exact ⟨by decide, by decide⟩
    · exact ⟨by decide, by decide⟩
  unused := fun _ _ => rfl

/-- A page of node 2. -/
def farPage : Rr := rrCons 2 0x5000 0x200

/-- Node 1 pulls a page. -/
theorem run_consistent_pull :
    ∃ u : State Bool, steps smallBoot 1 twoPages
        [.pullpte false farPage, .go false, .go false, .go false] = some u ∧
      Run smallBoot 1 (Serial smallBoot 1) u ∧ u.homelist 5 = some 8 ∧ Consistent u := by
  have h0 : Run smallBoot 1 (Serial smallBoot 1) twoPages := .init booted_twoPages
  have h1 : Serial smallBoot 1 twoPages (.pullpte false farPage) := by
    intro rr hrr
    have hrr : some farPage = some rr := hrr
    cases hrr
    refine ⟨by decide, fun t k hk => ?_⟩
    cases hk
  have h2 : ∀ a ∈ [Act.go false, .go false, .go false], ∀ u : State Bool,
      Serial smallBoot 1 u a := by
    intro a ha u rr hrr
    obtain rfl : a = .go false := by simpa using ha
    cases hrr
  refine ⟨_, rfl, ?_, rfl, ?_⟩
  · exact (h0.step h1 rfl).steps _ h2 rfl
  · exact run_consistent ((h0.step h1 rfl).steps _ h2 rfl)

/-- Two CPUs pull the same page at the same time. -/
def race : List (Act Bool) :=
  [.pullpte false farPage, .pullpte true farPage, .go false, .go true, .go false, .go true]

theorem run_stopped_race :
    ∃ u : State Bool, steps smallBoot 1 twoPages race = some u ∧
      Run smallBoot 1 (fun _ _ => True) u ∧ ¬ Consistent u := by
  refine ⟨_, rfl, ?_, ?_⟩
  · exact Run.steps (.init booted_twoPages) race (fun _ _ _ => trivial) rfl
  · intro h
    exact h.stopped rfl

end Determinator.Home
