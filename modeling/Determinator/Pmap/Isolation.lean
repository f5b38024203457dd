import Determinator.Pmap.Effects

/-!
# Page maps are private

A call is for one page map at most (`PmapCall.target`). As long as it does not come by one of its `strays`, all others
show what they did before, whether it returns, or stops for want of memory or at an assertion (`exec_isolated`).
`run_isolated` is about runs.
-/

namespace Determinator

open PanicM

variable {b : Boot} {G G' : Ghost} {s s' s₀ : Mem} {σ τ : Maps} {r : Frame} {a va : ℕ} {N : Set Note}
  {R : ℕ → View → View → Prop} {c : PmapCall}

/-! ## What a call is for -/

/-- The page map that a call is for. -/
def PmapCall.target : PmapCall → Option Frame
  | insert r .. => some r
  | remove r .. => some r
  | copy _ _ dr .. => some dr
  | merge _ _ _ dr .. => some dr
  | setperm r .. => some r
  | fault r .. => some r
  | store r .. => some r
  | _ => none

/-- The notes of what can change other page maps: there was no page for a table and the caller has gone on, or
a call has gone down into a table that others use, or into none. -/
def PmapCall.strays : PmapCall → List Note
  | remove .. => [.ignored]
  | copy .. => copyDefects
  | merge .. => copyDefects ++ [.missingTable, .overrun, .mergeZero, .sharedMerge]
  | setperm .. => [.ignored]
  | fault .. => [.ignored, .farCopy]
  | _ => []

/-- The page maps that a call is not for show what they did, and the zero page holds zeros. -/
structure Maps.Apart (b : Boot) (σ : Maps) (c : PmapCall) (s' : Mem) : Prop where
  other : ∀ r a, σ.IsRoot r → c.target ≠ some r → UserVa a →
    View.Keeps (viewAt b σ.mem a nptLvls r) (viewAt b s' a nptLvls r)
  zero : s'.page b.zero = Page.zeros

namespace Maps

theorem Changes.apart (h : σ.Changes b r R s') (hc : c.target = some r) : σ.Apart b c s' where
  other r' a hr' hne ha := by
    refine h.other r' a hr' (fun e => hne ?_) ha
    rw [e, hc]
  zero := h.zero

namespace Inv

theorem apart_unseen (h : Maps.Inv b s₀ σ G) (hu : Unseen b 3 G σ.mem G' s') : σ.Apart b c s' where
  other _ _ hr _ ha := h.unchanged hu hr ha
  zero := (hu.base h.toSound).zero.trans h.zeros

theorem apart_page (h : Maps.Inv b s₀ σ G) (hp : s'.page = σ.mem.page) : σ.Apart b c s' where
  other _ _ _ _ _ := by
    rw [viewAt_page hp]
    exact View.Keeps.refl _
  zero := by
    rw [hp]
    exact h.zeros

/-- A store is seen in one page map. -/
theorem apart_store {f : Frame} (h : Maps.Inv b s₀ σ G) (hr : σ.IsRoot r) (hu : UserVa va)
    (ht : translate σ.mem va true nptLvls r = some f) (pg : Page) (hc : c.target = some r) :
    σ.Apart b c (σ.mem.setPage f pg) where
  other r' a hr' hne ha := by
    have hne' : r' ≠ r := fun e => hne (by rw [e, hc])
    rw [h.store_view hr hu ht pg hr' ha (.inl hne')]
    exact View.Keeps.refl _
  zero := (h.store (h.is_root hr) hu ht pg).zeros

/-- The pages of the kernel are in no page map. -/
theorem apart_fill {pi : Frame} (h : Maps.Inv b s₀ σ G) (hp : pi ∈ σ.pages) (pg : Page) :
    σ.Apart b c (σ.mem.setPage pi pg) where
  other r a hr _ ha := by
    have hk : G.kind pi = .held := (h.held pi).2 (.inr hp)
    have hpage : ∀ g, G.kind g ≠ .held → (σ.mem.setPage pi pg).page g = σ.mem.page g := by
      intro g hg
      have hne : g ≠ pi := fun e => hg (e ▸ hk)
      simp [Mem.setPage, hne]
    have hz : (σ.mem.setPage pi pg).page b.zero = σ.mem.page b.zero := (h.fill hp pg).zeros.trans h.zeros.symm
    rw [viewAt_congr h.toWhole (fun _ => True) hz (fun u m _ hu => hpage u (fun e => ?_))
      (fun u j f _ _ hf => hpage f (by rw [hf]; simp)) (fun _ _ _ _ _ _ => trivial) (h.level hr) (h.maps hr ha) trivial]
    · exact View.Keeps.refl _
    · rw [e] at hu
      cases hu
  zero := (h.fill hp pg).zeros

end Inv

end Maps

/-! ## Calls -/

/-- A new page map, or the pages for it that there were. -/
theorem pmapNewpmap_apart {E : Panic → Mem → Prop} {Q : Frame → Mem → Prop} (h : Maps.Inv b s₀ σ G)
    (hQ : ∀ r s', σ.Apart b c s' → Q r s') (hE : ∀ e s', σ.Apart b c s' → E e s') :
    Ends N (pmapNewpmap b) σ.mem Q E := by
  have hstop : Ends N (pmapNewpmap b) σ.mem (fun _ _ => True) fun _ s' => s'.page = σ.mem.page := by
    unfold pmapNewpmap memAllocOk
    refine ends_bind (ends_bind (ends_memAlloc (fun _ => ends_panic rfl) fun r hr => ends_pure.2 ?_))
    obtain ⟨-, hvr, -, -, h₁⟩ := h.toGood.grab hr
    refine ends_bind (ends_memIncref hvr (ends_bind (ends_bind (ends_memAlloc (fun _ => ends_panic rfl)
      fun p hp => ends_pure.2 ?_))))
    obtain ⟨-, hvp, -⟩ := h₁.grab hp
    unfold writePage
    exact ends_bind (ends_memIncref hvp (ends_bind (ends_modify (ends_bind (ends_modify (ends_pure.2 trivial))))))
  refine ((pmapNewpmap_ends h.toSound).and hstop).mono ?_ fun e s' hs => hE e s' (h.apart_page hs.2)
  rintro r s' ⟨⟨p, hr, hp, -, rfl, -⟩, -⟩
  refine hQ r _ ⟨fun r' a hr' _ ha => ?_, ?_⟩
  · rw [newpmap_view h.toWhole hr hp (h.level hr') (h.maps hr' ha)]
    exact View.Keeps.refl _
  · refine (newpmap_page ?_ ?_).trans h.zeros
    · rintro e
      rw [← e, h.zero] at hr
      cases hr
    · rintro e
      rw [← e, h.zero] at hp
      cases hp

theorem PmapCall.exec_apart (h : Maps.Inv b s₀ σ G) (hc : c.Allowed σ) (hN : ∀ n ∈ c.strays, n ∈ N) :
    Ends N (c.exec b) σ (fun _ τ => σ.Apart b c τ.mem) fun _ τ => σ.Apart b c τ.mem := by
  cases c with
  | newpmap =>
    exact ends_bind (ends_onMem (pmapNewpmap_apart h (fun r s' hs => ends_modify hs) fun _ _ hs => hs))
  | alloc =>
    refine ends_bind (ends_onMem (ends_memAlloc (fun _ => ?_) fun pi hpi => ?_))
    · exact ends_pure.2 (h.apart_page rfl)
    · exact ends_modify (h.apart_page rfl)
  | fill pi pg => exact ends_onMem (ends_modify (h.apart_fill hc pg))
  | walk r va writing =>
    refine ends_bind (ends_onMem ((pmapWalk_ends h.toSound (h.is_root hc.1) hc.2).imp ?_))
    rintro x s ⟨-, G', -, hu⟩
    exact ends_pure.2 (h.apart_unseen hu)
  | insert r pi va perm =>
    obtain ⟨hr, hpi, hu⟩ := hc
    have hk := (h.held pi).2 (.inr hpi)
    refine ends_bind (ends_onMem ((pmapInsert_ends h.toSound (h.is_root hr) hu (.inl ⟨hk, h.pages pi hpi⟩)).imp ?_))
    rintro x s (⟨rfl, G', hw⟩ | ⟨t, G₁, s₁, rfl, hi⟩)
    · exact ends_pure.2 (h.apart_unseen hw.tame)
    · exact ends_modify ((h.changes hr hi.mapping.acts).apart rfl)
  | remove r va size =>
    refine ends_onMem ((pmapRemove_ends (C := True) (fun _ => hN _ (by simp [strays])) h.toSound (h.is_root hc.1) hc.2).imp
      ?_)
    rintro _ s ⟨G', hl⟩
    exact (h.changes hc.1 (hl.acts trivial)).apart rfl
  | copy sr sva dr dva size =>
    obtain ⟨hsr, hdr, hreg⟩ := hc
    refine ends_onMem ((pmapCopy_ends (C := True) (fun _ => ⟨hN _ ?_, hN _ ?_, hN _ ?_⟩) h.toSound (h.is_root hsr)
      (h.is_root hdr) hreg).mono ?_ ?_)
    · simp [strays, copyDefects]
    · simp [strays, copyDefects]
    · simp [strays, copyDefects]
    · rintro _ s ⟨G', hl⟩
      exact (h.changes hdr (hl.acts trivial)).apart rfl
    · rintro e s ⟨⟨-, G', -, ha⟩, -⟩
      exact (h.changes hdr (ha trivial)).apart rfl
  | merge rr sr sva dr dva size =>
    obtain ⟨hrr, hsr, hdr, hreg⟩ := hc
    have hnotes : MergeNotes N True := by
      refine ⟨hN _ ?_, hN _ ?_, hN _ ?_, fun _ => ⟨⟨hN _ ?_, hN _ ?_, hN _ ?_⟩, hN _ ?_⟩⟩ <;> simp [strays, copyDefects]
    have hquiet : Quiet b N rr sr dr fun _ _ _ _ _ => pure () := fun _ _ _ _ _ _ _ _ _ => ends_pure.2 rfl
    refine ends_onMem ((pmapMergeLook_ends hnotes hquiet h.toSound h.zeros (h.is_root hrr) (h.is_root hsr)
      (h.is_root hdr) hreg).mono ?_ ?_)
    · rintro _ s ⟨G', hl⟩
      exact (h.changes hdr (hl.acts trivial)).apart rfl
    · rintro e s ⟨-, G', -, ha⟩
      exact (h.changes hdr (ha trivial)).apart rfl
  | setperm r va size perm =>
    refine ends_onMem ((pmapSetperm_ends (hN _ (by simp [strays])) h.toSound (h.is_root hc.1) hc.2.1 hc.2.2).imp ?_)
    rintro _ s ⟨G', hl⟩
    exact (h.changes hc.1 (hl.acts trivial)).apart rfl
  | fault r va write depth =>
    obtain ⟨hr, ht⟩ := hc
    refine ends_bind (ends_onMem ?_)
    cases depth with
    | zero => exact ends_panic (h.apart_page rfl)
    | succ depth =>
      have hnone : translate σ.mem va true nptLvls r = none := by
        cases write with
        | false => exact translate_write ht
        | true => exact ht
      refine (pmapPagefault_ends (hN _ (by simp [strays])) (hN _ (by simp [strays])) h.toSound (h.is_root hr) hnone).mono
        ?_ ?_
      · rintro x s (⟨-, -, -, G', -, hu⟩ | ⟨-, -, e, G', hres⟩)
        · exact ends_pure.2 (h.apart_unseen hu)
        · exact ends_pure.2 ((h.changes hr hres.mapping.acts).apart rfl)
      · rintro e s ⟨-, -, -, G', -, hu⟩
        exact h.apart_unseen hu
  | store r va pg =>
    refine ends_onMem (ends_bind_get ?_)
    cases ht : translate σ.mem va true nptLvls r with
    | none => exact ends_pure.2 (h.apart_page rfl)
    | some f => exact ends_modify (h.apart_store hc.1 hc.2 ht pg rfl)

/-! ## Runs -/

/-- The notes of what can change a page map that the call is not for. -/
def strayNotes : List Note := copyDefects ++ [.missingTable, .overrun, .mergeZero, .sharedMerge, .farCopy]

theorem PmapCall.strays_subset (c : PmapCall) : ∀ n ∈ c.strays, n ∈ strayNotes := by
  cases c <;> simp [strays, strayNotes, copyDefects]

theorem defects_stray : ∀ n ∈ defects, n ∈ strayNotes := by
  simp [defects, strayNotes, copyDefects]

theorem roots_onMem {α : Type} {m : Kern α} {k : α → PanicM Panic Note Maps Unit} (hr : σ.IsRoot r)
    (hk : ∀ a τ, τ.IsRoot r → ((k a τ).state).IsRoot r) : ((onMem m >>= k) σ).state.IsRoot r := by
  change (PanicM.bind (onMem m) k σ).state.IsRoot r
  unfold PanicM.bind onMem
  rcases m σ.mem with ⟨_ | a, t, w⟩
  · exact hr
  · exact hk a _ hr

/-- Page maps stay. -/
theorem PmapCall.exec_isRoot (c : PmapCall) (hr : σ.IsRoot r) : (c.exec b σ).state.IsRoot r := by
  cases c with
  | newpmap => exact roots_onMem hr fun r' τ hτ => List.mem_cons_of_mem _ hτ
  | alloc => exact roots_onMem hr fun x τ hτ => by cases x <;> exact hτ
  | insert => exact roots_onMem hr fun x τ hτ => by cases x <;> exact hτ
  | walk => exact roots_onMem hr fun _ _ hτ => hτ
  | fault => exact roots_onMem hr fun _ _ hτ => hτ
  | _ => exact hr

/-- The first call of a run. -/
theorem runCalls_cons {N : List Note} {cs : List PmapCall} (h : runCalls b N (c :: cs) σ = some τ) :
    ∃ σ', c.Allowed σ ∧ Returns {n | n ∈ N} (c.exec b) σ () σ' ∧ runCalls b N cs σ' = some τ := by
  rw [runCalls] at h
  rcases hout : c.exec b σ with ⟨_ | u, σ', w⟩ <;> rw [hout] at h
  · cases h
  · simp only at h
    split at h
    case isFalse => cases h
    case isTrue hok =>
      refine ⟨σ', hok.1, ⟨?_, ?_, ?_⟩, h⟩
      · rw [hout]
      · rw [hout]
      · rw [hout]
        exact hok.2

/-- One call of a run. -/
theorem Reach.isolated (hb : Booted b s₀) (h : Reach b (fun _ => True) defects s₀ σ) (hc : c.Allowed σ)
    (hret : Returns {n | n ∈ strayNotes} (c.exec b) σ () τ) :
    Reach b (fun _ => True) defects s₀ τ ∧ σ.Apart b c τ.mem := by
  obtain ⟨G, hG⟩ := h.inv hb fun c _ => c.defects_subset
  exact ⟨h.call trivial hc ⟨hret.val, hret.state, fun n hn hd => hret.notes n hn (defects_stray n hd)⟩,
    (PmapCall.exec_apart hG hc c.strays_subset).of_returns hret⟩

/-- **Page maps are private**: in a run of which no call goes astray, a page map that no call is for shows the same
all the time, and so it does after a last call that may have stopped. -/
theorem run_isolated {cs : List PmapCall} (hb : Booted b s₀) (h : Reach b (fun _ => True) defects s₀ σ)
    (hrun : runCalls b strayNotes cs σ = some τ) (hr : σ.IsRoot r) (hcs : ∀ c ∈ cs, c.target ≠ some r)
    (hc : c.Allowed τ) (hct : c.target ≠ some r) (hn : ∀ n ∈ c.strays, n ∉ (c.exec b τ).notes) (ha : UserVa a) :
    View.Keeps (viewAt b σ.mem a nptLvls r) (viewAt b τ.mem a nptLvls r) ∧
    View.Keeps (viewAt b σ.mem a nptLvls r) (viewAt b (c.exec b τ).state.mem a nptLvls r) := by
  induction cs generalizing σ with
  | nil =>
    obtain rfl : σ = τ := Option.some.inj hrun
    obtain ⟨G, hG⟩ := h.inv hb fun c _ => c.defects_subset
    have hap := (PmapCall.exec_apart (N := {n | n ∈ c.strays}) hG hc fun _ => id).state fun n hn' hmem => hn n hmem hn'
    exact ⟨View.Keeps.refl _, hap.other r a hr hct ha⟩
  | cons c' cs ih =>
    obtain ⟨σ', hc', hret, hrun⟩ := runCalls_cons hrun
    obtain ⟨h', hap⟩ := h.isolated hb hc' hret
    have hr' : σ'.IsRoot r := by
      rw [← hret.state]
      exact c'.exec_isRoot hr
    have hkeep := hap.other r a hr (hcs c' List.mem_cons_self) ha
    obtain ⟨h₁, h₂⟩ := ih h' hrun hr' fun c hc => hcs c (List.mem_cons_of_mem _ hc)
    exact ⟨hkeep.trans h₁, hkeep.trans h₂⟩

/-- A process writes a page that another one has too, and then there is no memory for a third. -/
theorem run_isolated_sample : ∃ σ τ, Reach sampleBoot (fun _ => True) defects (freshMem samplePages) σ ∧
    runCalls sampleBoot strayNotes [.fault 0x1000 0x40001000 true 1, .store 0x1000 0x40001000 sampleBoot.bootpmap,
      .alloc, .alloc, .alloc, .alloc, .alloc] σ = some τ ∧
    (PmapCall.newpmap.exec sampleBoot τ).val = .error .assert ∧
    View.Keeps (viewAt sampleBoot σ.mem 0x40001000 nptLvls 0x1002)
      (viewAt sampleBoot (PmapCall.newpmap.exec sampleBoot τ).state.mem 0x40001000 nptLvls 0x1002) := by
  obtain ⟨σ, hσ, hP⟩ := exists_reach sampleBoot (fun _ => True) defects (freshMem samplePages)
    [.newpmap, .newpmap, .alloc, .insert 0x1000 0x1004 0x40001000 (sysRW ||| pteU ||| pteA),
      .copy 0x1000 0x40001000 0x1002 0x40001000 4096, .alloc]
    (fun σ => decide (σ.IsRoot 0x1002) && (runCalls sampleBoot strayNotes [.fault 0x1000 0x40001000 true 1,
      .store 0x1000 0x40001000 sampleBoot.bootpmap, .alloc, .alloc, .alloc, .alloc, .alloc] σ).any fun τ =>
        decide ((PmapCall.newpmap.exec sampleBoot τ).val = .error .assert))
    (fun _ _ => trivial) (by decide +kernel)
  rw [Bool.and_eq_true, Option.any_eq_true] at hP
  obtain ⟨hr, τ, hrun, hstop⟩ := hP
  refine ⟨σ, τ, hσ, hrun, of_decide_eq_true hstop, ?_⟩
  exact (run_isolated (c := .newpmap) sample_booted hσ hrun (of_decide_eq_true hr) (by decide) trivial (by decide)
    (by simp [PmapCall.strays]) (by decide)).2

end Determinator
