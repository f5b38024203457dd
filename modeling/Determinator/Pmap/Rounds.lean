import Determinator.Lib.Guard
import Determinator.Pmap.Isolation

/-!
# The tables of a merge

`pmap_merge_level` goes through three tables at once and steps through them by addresses and by indices.
`roundCheck` looks at every round whether the tables are still those of the page maps for the addresses. Run with it,
a merge is watched (`mergeLook_guards`); it is never stopped if it does not go down where there is no table or over the
end of one (`merge_inTables`).
-/

namespace Determinator

open PanicM

variable {b : Boot} {G : Ghost} {s s₀ : Mem} {σ : Maps} {t rt st dt r rr sr dr : Frame} {l va sva dva svahi size : ℕ}
  {strict : Bool} {N : Set Note} {look : Look} {stop : Panic → Prop}

/-! ## Looking at the rounds -/

/-- The level-`l` table of the page map `r` for an address, or if that is allowed the zero page in place of a page
table. -/
def FromMap (b : Boot) (s : Mem) (strict : Bool) (r : Frame) (va l : ℕ) (t : Frame) : Prop :=
  tableAt b s va nptLvls r l = some t ∨ strict = false ∧ l = 0 ∧ t = b.zero

instance : Decidable (FromMap b s strict r va l t) :=
  inferInstanceAs (Decidable (tableAt b s va nptLvls r l = some t ∨ strict = false ∧ l = 0 ∧ t = b.zero))

/-- Stop unless the round is in the tables of the page maps for its addresses, at the entries for them. -/
def roundCheck (b : Boot) (strict : Bool) (rr sr dr : Frame) : Look := fun l rt st dt x => do
  let s ← get
  check (FromMap b s strict rr x.sva l rt ∧ FromMap b s strict sr x.sva l st ∧
    tableAt b s x.dva nptLvls dr l = some dt ∧ x.si = pdx l x.sva ∧ x.di = pdx l x.dva) .wild

theorem TableOrZero.fromMap (h : TableOrZero b G s r va l t) : FromMap b s false r va l t :=
  h.imp (fun h => h.at_eq) fun h => ⟨rfl, h⟩

/-- The rounds of a merge that goes right pass. -/
theorem quiet_roundCheck (N : Set Note) : Quiet b N rr sr dr (roundCheck b false rr sr dr) := by
  intro G s l rt st dt x hS hR
  unfold roundCheck
  exact ends_bind_get (ends_check (fun _ => rfl)
    fun hn => hn ⟨hR.ref.fromMap, hR.src.fromMap, hR.dest.at_eq, hR.si, hR.di⟩)

/-! ## The merge is the same -/

theorem roundCheck_guards (x : MergeAt) :
    Guards (· = .wild) (roundCheck b strict rr sr dr l rt st dt x) (pure ()) :=
  Guards.look rfl

section

variable (hlook : ∀ l rt st dt x, Guards stop (look l rt st dt x) (pure ()))

include hlook

theorem mergeEntry_guards {lower lower' : Frame → Frame → ℕ → Frame → ℕ → ℕ → Kern Unit} {x : MergeAt}
    (h : ∀ r e sva d dva svahi, Guards stop (lower' r e sva d dva svahi) (lower r e sva d dva svahi)) :
    Guards stop (mergeEntry b look lower' l rt st dt svahi x)
      (mergeEntry b (fun _ _ _ _ _ => pure ()) lower l rt st dt svahi x) := by
  unfold mergeEntry
  refine (hlook l rt st dt x).bind fun _ => (Guards.refl _).bind fun _ => (Guards.refl _).bind fun r =>
    (Guards.refl _).bind fun e => (Guards.refl _).bind fun d => ?_
  refine Guards.ite (.refl _) (Guards.ite (.refl _) (Guards.ite ?_ (.refl _)))
  exact (Guards.refl _).bind fun _ => (Guards.refl _).bind fun _ => (Guards.refl _).bind fun _ =>
    (Guards.refl _).bind fun _ => (h _ _ _ _ _ _).bind fun _ => .refl _

theorem mergeLoop_guards {lower lower' : Frame → Frame → ℕ → Frame → ℕ → ℕ → Kern Unit}
    (h : ∀ r e sva d dva svahi, Guards stop (lower' r e sva d dva svahi) (lower r e sva d dva svahi)) :
    Guards stop (mergeLoop b look lower' l rt st sva dt dva svahi)
      (mergeLoop b (fun _ _ _ _ _ => pure ()) lower l rt st sva dt dva svahi) := by
  unfold mergeLoop
  exact (Guards.whileM (fun x => mergeEntry_guards hlook h) _ _).bind fun _ => .refl _

theorem pmapMergeLevel_guards (l : ℕ) (rt st : Frame) (sva : ℕ) (dt : Frame) (dva svahi : ℕ) :
    Guards stop (pmapMergeLevel b look l rt st sva dt dva svahi)
      (pmapMergeLevel b (fun _ _ _ _ _ => pure ()) l rt st sva dt dva svahi) := by
  induction l generalizing rt st sva dt dva svahi with
  | zero =>
    unfold pmapMergeLevel
    exact mergeLoop_guards hlook fun _ _ _ _ _ _ => .refl _
  | succ l ih =>
    unfold pmapMergeLevel
    exact mergeLoop_guards hlook ih

/-- A merge that is looked at is the merge, as long as the looks do nothing but stop. -/
theorem mergeLook_guards : Guards stop (pmapMergeLook b look rr sr sva dr dva size) (pmapMerge b rr sr sva dr dva size) := by
  unfold pmapMerge pmapMergeLook
  exact (Guards.refl _).bind fun _ => pmapMergeLevel_guards hlook _ _ _ _ _ _ _

end

/-! ## In a run -/

/-- The notes of a merge that goes down where the destination has no table, where above the page tables the others have
none, or over the end of a table. -/
def tableDefects : List Note := [.missingTable, .overrun, .mergeZero]

/-- **The rounds of `pmap_merge`** are in the tables of the three page maps for the addresses they are at, at the entries
for them. In place of a page table that the reference or the source does not have they are in the zero page. -/
theorem merge_inTables (hb : Booted b s₀) (h : Reach b (fun _ => True) defects s₀ σ) (hrr : σ.IsRoot rr) (hsr : σ.IsRoot sr)
    (hdr : σ.IsRoot dr) (hreg : Region sva dva size)
    (hn : ∀ n ∈ tableDefects, n ∉ (pmapMerge b rr sr sva dr dva size σ.mem).notes) :
    pmapMergeLook b (roundCheck b false rr sr dr) rr sr sva dr dva size σ.mem = pmapMerge b rr sr sva dr dva size σ.mem := by
  obtain ⟨G, hG⟩ := h.inv hb fun c _ => c.defects_subset
  have hnotes : MergeNotes {n | n ∈ tableDefects} False := by
    refine ⟨?_, ?_, ?_, nofun⟩ <;> simp [tableDefects]
  have hends := pmapMergeLook_ends hnotes (quiet_roundCheck _) hG.toSound hG.zeros (hG.is_root hrr) (hG.is_root hsr)
    (hG.is_root hdr) hreg
  refine (mergeLook_guards fun _ _ _ _ x => roundCheck_guards x).same hends ?_ fun n hn' hmem => hn n hmem hn'
  rintro e s' ⟨rfl, -⟩ he
  cases he

/-- Three page maps, one of which has a page. -/
def sampleMerge : List PmapCall := [.newpmap, .newpmap, .newpmap, .alloc,
  .insert 0x1004 0x1006 0x40001000 (sysRW ||| pteU ||| pteA)]

/-- The page is merged. -/
theorem merge_inTables_sample : ∃ σ, Reach sampleBoot (fun _ => True) defects (freshMem samplePages) σ ∧
    pmapMergeLook sampleBoot (roundCheck sampleBoot false 0x1002 0x1004 0x1000) 0x1002 0x1004 0x40000000 0x1000 0x40000000
      0x40000000 σ.mem = pmapMerge sampleBoot 0x1002 0x1004 0x40000000 0x1000 0x40000000 0x40000000 σ.mem := by
  obtain ⟨σ, hσ, hP⟩ := exists_reach sampleBoot (fun _ => True) defects (freshMem samplePages) sampleMerge
    (fun σ => decide (σ.IsRoot 0x1002 ∧ σ.IsRoot 0x1004 ∧ σ.IsRoot 0x1000 ∧
      ∀ n ∈ tableDefects, n ∉ (pmapMerge sampleBoot 0x1002 0x1004 0x40000000 0x1000 0x40000000 0x40000000 σ.mem).notes))
    (fun _ _ => trivial) (by decide +kernel)
  obtain ⟨hrr, hsr, hdr, hn⟩ := of_decide_eq_true hP
  exact ⟨σ, hσ, merge_inTables sample_booted hσ hrr hsr hdr (by decide) hn⟩

end Determinator
