import Determinator.Kern.Space
import Determinator.Pmap.Forks

/-!
# PUT and GET on page maps

The handlers of PUT and GET make calls of the page-map code, for the page maps of the process, of its child and of the
child's snapshot. Carried out on the page maps they do to the bytes what they do to flat address spaces
(`put_simulates`, `get_simulates`). So forks and joins, as in `tfork` and `tjoin` of the thread library, come to this: the
child starts with the bytes of its parent, and in the end the parent has what either has written since, but for the pages
of which both have changed the same byte (`fork_join`).
-/

namespace Determinator

open PanicM

variable {b : Boot} {s₀ : Mem} {σ σ₁ σ₂ τ : Maps} {F : Map → Frame} {M : Map → Flat} {S : Frame → Space} {f : Flat}
  {s : Space} {a lo sva dva size : ℕ} {c : Call} {cs : List Call} {os os₁ os₂ : List SpaceOp}

/-- A call of a handler, with the page maps it is for. -/
def Call.onMaps (F : Map → Frame) : Call → PmapCall
  | .remove m va size => .remove (F m) va size
  | .copy s sva d dva size => .copy (F s) sva (F d) dva size
  | .merge r s sva d dva size => .merge (F r) (F s) sva (F d) dva size
  | .setperm m va size perm => .setperm (F m) va size (perm.setWidth 12)

/-! ## Flat address spaces -/

/-- The pages of `f` have the bytes of `s`. -/
def Flat.Shows (f : Flat) (s : Space) : Prop := ∀ a, UserVa a → (f (a / pageSize)).data (a % pageSize) = s a

theorem Region.inRegion (h : Region sva dva size) : Flat.inRegion dva size (a / pageSize) ↔ dva ≤ a ∧ a < dva + size := by
  have h₁ := h.dva_dvd
  have h₂ := h.size_dvd
  unfold Flat.inRegion
  change dva ≤ a / 4096 * 4096 ∧ a / 4096 * 4096 < dva + size ↔ _
  omega

theorem Area.inRegion {va : ℕ} (h : Area va size) : Flat.inRegion va size (a / pageSize) ↔ va ≤ a ∧ a < va + size := by
  have h₁ := h.va_dvd
  have h₂ := h.size_dvd
  unfold Flat.inRegion
  change va ≤ a / 4096 * 4096 ∧ a / 4096 * 4096 < va + size ↔ _
  omega

/-- The bytes of the page that belongs to a page of the destination. -/
theorem Flat.Shows.source (h : f.Shows s) (hreg : Region sva dva size) (h₁ : dva ≤ a) (h₂ : a < dva + size) {k : ℕ}
    (hk : k < pageSize) : (f (Flat.srcPage sva dva (a / pageSize))).data k =
      s.moved sva dva size (a / pageSize * pageSize + k) := by
  have h₃ := hreg.sva_dvd
  have h₄ := hreg.dva_dvd
  have h₅ := hreg.size_dvd
  change k < 4096 at hk
  obtain ⟨hin, hdiv, hmod⟩ : (dva ≤ a / pageSize * pageSize + k ∧ a / pageSize * pageSize + k < dva + size) ∧
      (sva + (a / pageSize * pageSize + k - dva)) / pageSize = Flat.srcPage sva dva (a / pageSize) ∧
      (sva + (a / pageSize * pageSize + k - dva)) % pageSize = k := by
    unfold Flat.srcPage
    change (dva ≤ a / 4096 * 4096 + k ∧ a / 4096 * 4096 + k < dva + size) ∧
      (sva + (a / 4096 * 4096 + k - dva)) / 4096 = (a / 4096 * 4096 - dva + sva) / 4096 ∧
      (sva + (a / 4096 * 4096 + k - dva)) % 4096 = k
    omega
  have hu : UserVa (sva + (a / pageSize * pageSize + k - dva)) := hreg.source.end_le (by omega) (by omega)
  have hs := h _ hu
  rw [hdiv, hmod] at hs
  rw [hs, Space.moved, if_pos hin]

theorem Flat.Shows.page (h : f.Shows s) (ha : UserVa a) {k : ℕ} (hk : k < pageSize) :
    (f (a / pageSize)).data k = s (a / pageSize * pageSize + k) := by
  obtain ⟨hdiv, hmod⟩ := page_div hk a
  have hs := h _ (userVa_div ha hdiv)
  rwa [hdiv, hmod] at hs

/-- The merge of a page, byte by byte. -/
theorem Flat.mergePage_data {p e d : FlatPage} {k : ℕ} (hk : k < pageSize) : (Flat.mergePage p e d).data k =
    if Flat.conflict p e d then 0 else if e.data k = p.data k then d.data k else e.data k := by
  unfold Flat.mergePage
  by_cases hd : Flat.differs e p = true
  · by_cases hc : Flat.conflict p e d = true
    · simp [hd, hc, Flat.unmapped]
    · simp [hd, hc]
  · have hsame : ∀ i < pageSize, e.data i = p.data i := by
      simpa [Flat.differs] using hd
    have hc : Flat.conflict p e d = false := by
      simp only [Flat.conflict, List.any_eq_false, List.mem_range]
      intro i hi
      simp [hsame i hi]
    simp [hd, hc, hsame k hk]

theorem Flat.conflict_iff {p e d : FlatPage} : Flat.conflict p e d = true ↔
    ∃ k < pageSize, e.data k ≠ p.data k ∧ d.data k ≠ p.data k := by
  simp [Flat.conflict]

theorem Flat.Shows.remove {va : ℕ} (h : f.Shows s) (ha : Area va size) :
    (flat.remove f va size).Shows fun a => if va ≤ a ∧ a < va + size then 0 else s a := by
  intro a hu
  simp only [flat, ha.inRegion]
  by_cases hin : va ≤ a ∧ a < va + size
  · rw [if_pos hin, if_pos hin]
    rfl
  · rw [if_neg hin, if_neg hin]
    exact h a hu

theorem Flat.Shows.setperm (h : f.Shows s) (va size : ℕ) (perm : BitVec 32) : (flat.setperm f va size perm).Shows s := by
  intro a hu
  simp only [flat]
  split <;> exact h a hu

theorem Flat.Shows.copy {g : Flat} {d : Space} (h : f.Shows s) (h' : g.Shows d) (hreg : Region sva dva size) :
    (flat.copy f sva g dva size).Shows fun a => if dva ≤ a ∧ a < dva + size then s.moved sva dva size a else d a := by
  intro a hu
  simp only [flat, hreg.inRegion]
  by_cases hin : dva ≤ a ∧ a < dva + size
  · rw [if_pos hin, if_pos hin, h.source hreg hin.1 hin.2 (Nat.mod_lt a (by decide)), Nat.div_add_mod']
  · rw [if_neg hin, if_neg hin]
    exact h' a hu

open Classical in
theorem Flat.Shows.merge {e g : Flat} {p t d : Space} (hp : f.Shows p) (he : e.Shows t) (hd : g.Shows d)
    (hreg : Region sva dva size) : (flat.merge f e sva g dva size).Shows fun a =>
      if dva ≤ a ∧ a < dva + size then
        if Space.Opposed (p.moved sva dva size) (t.moved sva dva size) d a then 0
        else if t.moved sva dva size a = p.moved sva dva size a then d a else t.moved sva dva size a
      else d a := by
  intro a hu
  have hk : a % pageSize < pageSize := Nat.mod_lt a (by decide)
  simp only [flat, hreg.inRegion]
  by_cases hin : dva ≤ a ∧ a < dva + size
  · have hopp : Flat.conflict (f (Flat.srcPage sva dva (a / pageSize))) (e (Flat.srcPage sva dva (a / pageSize)))
        (g (a / pageSize)) = true ↔ Space.Opposed (p.moved sva dva size) (t.moved sva dva size) d a := by
      rw [Flat.conflict_iff]
      refine exists_congr fun k => and_congr_right fun hk => ?_
      rw [hp.source hreg hin.1 hin.2 hk, he.source hreg hin.1 hin.2 hk, hd.page hu hk]
    rw [if_pos hin, if_pos hin, Flat.mergePage_data hk, hp.source hreg hin.1 hin.2 hk, he.source hreg hin.1 hin.2 hk,
      hd a hu, Nat.div_add_mod']
    by_cases ho : Space.Opposed (p.moved sva dva size) (t.moved sva dva size) d a
    · rw [if_pos ho, if_pos (hopp.2 ho)]
    · rw [if_neg ho, if_neg fun h => ho (hopp.1 h)]
  · rw [if_neg hin, if_neg hin]
    exact hd a hu

/-! ## Simulation -/

/-- One call, on flat address spaces and on separate memories. -/
theorem Call.exec_shows (hF : Function.Injective F) (hM : ∀ m, (M m).Shows (S (F m))) (hc : (c.onMaps F).Allowed σ)
    (m : Map) : (Call.exec flat M c m).Shows (SpaceOp.run ((c.onMaps F).ops b σ) S (F m)) := by
  have hupd : ∀ {d : Map} {f : Flat} {s : Space}, f.Shows s →
      (Function.update M d f m).Shows (Function.update S (F d) s (F m)) := by
    intro d f s h
    by_cases hm : m = d
    · rw [hm, Function.update_self, Function.update_self]
      exact h
    · rw [Function.update_of_ne hm, Function.update_of_ne fun e => hm (hF e)]
      exact hM m
  cases c with
  | remove d va size => exact hupd ((hM d).remove hc.2)
  | copy s sva d dva size => exact hupd ((hM s).copy (hM d) hc.2.2)
  | merge r s sva d dva size => exact hupd ((hM r).merge (hM s) (hM d) hc.2.2.2)
  | setperm d va size perm =>
    change (Function.update M d _ m).Shows (S (F m))
    have h : Function.update S (F d) (S (F d)) = S := Function.update_eq_self ..
    rw [← h]
    exact hupd ((hM d).setperm va size perm)

/-- What a call is on the separate memories is for its target. -/
theorem PmapCall.ops_target {c : PmapCall} {o : SpaceOp} (h : o ∈ c.ops b σ) : c.target = some o.target := by
  cases c with
  | insert r pi va perm =>
    simp only [ops] at h
    split at h
    · cases h
    · rw [List.mem_singleton.1 h]
      rfl
  | store r va pg =>
    simp only [ops] at h
    split at h
    · rw [List.mem_singleton.1 h]
      rfl
    · cases h
  | remove r va size =>
    rw [List.mem_singleton.1 h]
    rfl
  | copy sr sva dr dva size =>
    rw [List.mem_singleton.1 h]
    rfl
  | merge rr sr sva dr dva size =>
    rw [List.mem_singleton.1 h]
    rfl
  | newpmap => cases h
  | alloc => cases h
  | fill pi pg => cases h
  | walk r va w => cases h
  | setperm r va size perm => cases h
  | fault r va w depth => cases h

/-- The memories that no call of a run is for stay. -/
theorem plainRun_stays {cs : List PmapCall} {r : Frame} (hb : Booted b s₀) (h : Reach b (fun _ => True) defects s₀ σ)
    (hrun : plainRun b cs σ = some (os, τ)) (hcs : ∀ c ∈ cs, c.target ≠ some r) : τ.spaces b r = σ.spaces b r := by
  induction cs generalizing σ os with
  | nil =>
    obtain ⟨rfl, rfl⟩ := Prod.mk.inj (Option.some.inj hrun)
    rfl
  | cons c cs ih =>
    obtain ⟨σ', os', hc, hp, hret, hrest, rfl⟩ := plainRun_cons hrun
    obtain ⟨h', hs⟩ := h.plain hb hc hp hret
    rw [ih h' hrest fun c' hc' => hcs c' (List.mem_cons_of_mem c hc'), hs]
    refine LocalAct.run_ne fun p hp => ?_
    obtain ⟨o, ho, rfl⟩ := List.mem_map.1 hp
    rintro rfl
    exact hcs c List.mem_cons_self (PmapCall.ops_target ho)

/-- The calls of a handler, on page maps and on flat address spaces. -/
theorem calls_simulate (hb : Booted b s₀) (h : Reach b (fun _ => True) defects s₀ σ) (hF : Function.Injective F)
    (hM : ∀ m, (M m).Shows (σ.spaces b (F m))) (hrun : plainRun b (cs.map (Call.onMaps F)) σ = some (os, τ)) (m : Map) :
    (cs.foldl (Call.exec flat) M m).Shows (τ.spaces b (F m)) := by
  induction cs generalizing σ os M with
  | nil =>
    obtain ⟨rfl, rfl⟩ := Prod.mk.inj (Option.some.inj hrun)
    exact hM m
  | cons c cs ih =>
    obtain ⟨σ', os', hc, hp, hret, hrest, rfl⟩ := plainRun_cons hrun
    obtain ⟨h', hs⟩ := h.plain hb hc hp hret
    refine ih h' (fun m => ?_) hrest
    rw [hs]
    exact Call.exec_shows hF hM hc m

section

variable {km : KernMem} {tf : Trapframe} {ppff : BitVec 32} {csv : Procstate} {M : Map → Flat}

/-- The address spaces after PUT are those that its calls make. -/
theorem doPutBody_maps : (doPutBody flat km tf ppff csv M).maps =
    (doPutBody flat km tf ppff csv M).calls.foldl (Call.exec flat) M := by
  unfold doPutBody
  by_cases hr : tf.cmd &&& sysRegs = 0
  · rw [if_pos hr]
    rfl
  · rw [if_neg hr]
    cases copyin flat km (M .own) tf.rbx (regsLen tf.cmd) <;> rfl

/-- The address spaces when the calls of GET are made: the registers of the child have been copied. -/
def getStart (tf : Trapframe) (csv : Procstate) (M : Map → Flat) : Map → Flat :=
  if tf.cmd &&& sysRegs = 0 then M
  else if csv.tf.rflags &&& flTF ≠ 0 then M
  else
    match copyout flat (M .own) tf.rbx ((List.range (regsLen tf.cmd)).map csv.byte) with
    | .refused => M
    | .wild => M
    | .fault o => Function.update M .own o
    | .done o => Function.update M .own o

theorem doGetBody_maps (hw : (doGetBody flat tf csv M).fin ≠ .wild) : (doGetBody flat tf csv M).maps =
    (doGetBody flat tf csv M).calls.foldl (Call.exec flat) (getStart tf csv M) := by
  unfold doGetBody getStart at *
  by_cases hr : tf.cmd &&& sysRegs = 0
  · rw [if_pos hr, if_pos hr]
    rfl
  · rw [if_neg hr] at hw
    rw [if_neg hr, if_neg hr]
    by_cases ht : csv.tf.rflags &&& flTF ≠ 0
    · rw [if_pos ht, if_pos ht]
      rfl
    · rw [if_neg ht] at hw
      rw [if_neg ht, if_neg ht]
      cases hc : copyout flat (M .own) tf.rbx ((List.range (regsLen tf.cmd)).map csv.byte) with
      | refused => rfl
      | wild =>
        simp only [hc] at hw
        exact absurd rfl hw
      | fault o => rfl
      | done o => rfl

end

/-- The page maps of a process, of its child and of the snapshot. -/
def sampleMaps : Map → Frame
  | .own => 0x1000
  | .kid => 0x1002
  | .ref => 0x1004

theorem sampleMaps_injective : Function.Injective sampleMaps := by
  intro m m' h
  cases m <;> cases m' <;> first | rfl | exact absurd h (by decide)

theorem Flat.unmapped_shows : Flat.Shows (fun _ => Flat.unmapped) fun _ => 0 := fun _ _ => rfl

/-- Three new page maps. -/
theorem sample_newpmaps {P : Maps → Bool}
    (hP : (plainRun sampleBoot [.newpmap, .newpmap, .newpmap] ⟨freshMem samplePages, [], []⟩).any
      (fun x => x.1.isEmpty && P x.2) = true) :
    ∃ σ, Reach sampleBoot (fun _ => True) defects (freshMem samplePages) σ ∧ P σ = true ∧
      σ.spaces sampleBoot = fun _ _ => 0 := by
  rw [Option.any_eq_true] at hP
  obtain ⟨⟨os, σ⟩, hrun, hP⟩ := hP
  rw [Bool.and_eq_true, List.isEmpty_iff] at hP
  obtain ⟨rfl, hP⟩ := hP
  exact ⟨σ, Reach.plainRun sample_booted .boot hrun, hP, run_simulates sample_booted hrun⟩

def sampleArgs (cmd : BitVec 32) : Trapframe :=
  Trapframe.withArgs (fun _ => 0) (cmd.setWidth 64) 0 4096 1 0x40001000 0x40001000

/-- **PUT** on page maps leaves the bytes that it leaves on flat address spaces. -/
theorem put_simulates {km : KernMem} {tf : Trapframe} {ppff : BitVec 32} {csv : Procstate} (hb : Booted b s₀)
    (h : Reach b (fun _ => True) defects s₀ σ) (hF : Function.Injective F) (hM : ∀ m, (M m).Shows (σ.spaces b (F m)))
    (hrun : plainRun b ((doPutBody flat km tf ppff csv M).calls.map (Call.onMaps F)) σ = some (os, τ)) (m : Map) :
    ((doPutBody flat km tf ppff csv M).maps m).Shows (τ.spaces b (F m)) := by
  rw [doPutBody_maps]
  exact calls_simulate hb h hF hM hrun m

/-- PUT sets the permissions of a page that it has copied. -/
theorem put_simulates_sample : ∃ σ os τ, Reach sampleBoot (fun _ => True) defects (freshMem samplePages) σ ∧
    plainRun sampleBoot ((doPutBody flat (fun _ => none) (sampleArgs (1 ||| sysCopy ||| sysPerm)) 0 Procstate.zero
      fun _ _ => Flat.unmapped).calls.map (Call.onMaps sampleMaps)) σ = some (os, τ) ∧
    ∀ m, ((doPutBody flat (fun _ => none) (sampleArgs (1 ||| sysCopy ||| sysPerm)) 0 Procstate.zero
      fun _ _ => Flat.unmapped).maps m).Shows (τ.spaces sampleBoot (sampleMaps m)) := by
  obtain ⟨σ, hσ, hP, hs⟩ := sample_newpmaps (P := fun σ => (plainRun sampleBoot ((putCalls (sampleArgs (1 ||| sysCopy ||| sysPerm))
    (sampleArgs (1 ||| sysCopy ||| sysPerm)).cmd).1.map (Call.onMaps sampleMaps)) σ).isSome) (by decide +kernel)
  obtain ⟨⟨os, τ⟩, hrun⟩ := Option.isSome_iff_exists.1 hP
  refine ⟨σ, os, τ, hσ, hrun, put_simulates sample_booted hσ sampleMaps_injective (fun m => ?_) hrun⟩
  rw [hs]
  exact Flat.unmapped_shows

/-- **GET** on page maps leaves the bytes that it leaves on flat address spaces, from the state in which the registers
have been copied. -/
theorem get_simulates {tf : Trapframe} {csv : Procstate} (hb : Booted b s₀) (h : Reach b (fun _ => True) defects s₀ σ)
    (hF : Function.Injective F) (hM : ∀ m, (getStart tf csv M m).Shows (σ.spaces b (F m)))
    (hw : (doGetBody flat tf csv M).fin ≠ .wild)
    (hrun : plainRun b ((doGetBody flat tf csv M).calls.map (Call.onMaps F)) σ = some (os, τ)) (m : Map) :
    ((doGetBody flat tf csv M).maps m).Shows (τ.spaces b (F m)) := by
  rw [doGetBody_maps hw]
  exact calls_simulate hb h hF hM hrun m

/-- GET merges a page. -/
theorem get_simulates_sample : ∃ σ os τ, Reach sampleBoot (fun _ => True) defects (freshMem samplePages) σ ∧
    plainRun sampleBoot ((doGetBody flat (sampleArgs (2 ||| sysMerge)) Procstate.zero
      fun _ _ => Flat.unmapped).calls.map (Call.onMaps sampleMaps)) σ = some (os, τ) ∧
    ∀ m, ((doGetBody flat (sampleArgs (2 ||| sysMerge)) Procstate.zero fun _ _ => Flat.unmapped).maps m).Shows
      (τ.spaces sampleBoot (sampleMaps m)) := by
  obtain ⟨σ, hσ, hP, hs⟩ := sample_newpmaps (P := fun σ => (plainRun sampleBoot ((getCalls (sampleArgs (2 ||| sysMerge))
    (sampleArgs (2 ||| sysMerge)).cmd).1.map (Call.onMaps sampleMaps)) σ).isSome) (by decide +kernel)
  obtain ⟨⟨os, τ⟩, hrun⟩ := Option.isSome_iff_exists.1 hP
  have hw : (doGetBody flat (sampleArgs (2 ||| sysMerge)) Procstate.zero fun _ _ => Flat.unmapped).fin ≠ .wild := by
    change End.done ≠ .wild
    simp
  refine ⟨σ, os, τ, hσ, hrun, get_simulates sample_booted hσ sampleMaps_injective (fun m => ?_) hw hrun⟩
  rw [hs]
  exact Flat.unmapped_shows

/-! ## Empty page maps -/

section

variable {s : Mem} {st dt r r' : Frame} {i m n level va : ℕ} {lower : Frame → ℕ → Frame → ℕ → ℕ → Kern Unit}
  {c : PmapCall} {cs : List PmapCall}

theorem readEntry_still {t : Frame} {i : ℕ} : readEntry t i s = ⟨.ok (s.entry t i), s, []⟩ := rfl

/-- Nothing is copied to nothing. -/
theorem copyShare_empty {x : CopyAt} (hi : x.si < 512) (hj : x.di < 512) (hs : s.entry st x.si = pteZero b)
    (hd : s.entry dt x.di = pteZero b) : copyShare b level st dt x s = ⟨.ok (), s, []⟩ := by
  have hwrite : ∀ {t i}, i < 512 → s.entry t i = pteZero b → writeEntry t i (pteZero b) s = ⟨.ok (), s, []⟩ := by
    intro t i hi he
    change (⟨_, s.setEntry t i (pteZero b), _⟩ : Out _ _ _ _) = _
    rw [setEntry_same hi he]
  unfold copyShare
  refine (bind_still readEntry_still).trans ?_
  rw [hd, if_neg (by simp)]
  refine (bind_still readEntry_still).trans ?_
  refine (bind_still (check_still (by rw [hd, pteZero_frame]))).trans ?_
  refine (bind_still readEntry_still).trans ?_
  rw [hs, pteZero_clearW]
  refine (bind_still (hwrite hi hs)).trans ?_
  refine (bind_still readEntry_still).trans ?_
  rw [hs]
  refine (bind_still (hwrite hj hd)).trans ?_
  refine (bind_still readEntry_still).trans ?_
  rw [hs, if_neg (by simp)]
  rfl

/-- There is nothing in the `n` entries of a table from `i` on. -/
structure Blank (b : Boot) (s : Mem) (t : Frame) (i n : ℕ) : Prop where
  le : i + n ≤ 512
  entry : ∀ k < n, s.entry t (i + k) = pteZero b

instance (b : Boot) (s : Mem) (t : Frame) (i n : ℕ) : Decidable (Blank b s t i n) :=
  decidable_of_iff (i + n ≤ 512 ∧ ∀ k ∈ List.range n, s.entry t (i + k) = pteZero b)
    ⟨fun h => ⟨h.1, fun k hk => h.2 k (List.mem_range.2 hk)⟩, fun h => ⟨h.le, fun k hk => h.entry k (List.mem_range.1 hk)⟩⟩

theorem Blank.tail (h : Blank b s st i (n + 1)) : Blank b s st (i + 1) n where
  le := by
    have h := h.le
    omega
  entry k hk := by
    rw [Nat.add_assoc, Nat.add_comm 1 k]
    exact h.entry (k + 1) (Nat.succ_lt_succ hk)

theorem pdOff_next (h : pdOff level va = 0) : pdOff level (va + pdSize level) = 0 := by
  unfold pdOff at *
  rw [Nat.add_mod_right, h]

/-- The rounds of a copy over entries where there is nothing. -/
theorem copyRounds_blank (hs : Blank b s st i n) (hd : Blank b s dt i n) (hoff : pdOff level va = 0) (hn : n ≤ m) :
    whileM .spin (fun x : CopyAt => x.sva < va + n * pdSize level)
      (copyEntry b lower level st dt (va + n * pdSize level)) m ⟨va, i, va, i⟩ s =
      ⟨.ok ⟨va + n * pdSize level, i + n, va + n * pdSize level, i + n⟩, s, []⟩ := by
  have hpos : 0 < pdSize level := pdSize_pos _
  induction n generalizing m va i with
  | zero =>
    cases m <;> simp [whileM] <;> rfl
  | succ n ih =>
    obtain ⟨m, rfl⟩ : ∃ k, m = k + 1 := ⟨m - 1, by omega⟩
    have hle := hs.le
    have hround : copyEntry b lower level st dt (va + (n + 1) * pdSize level) ⟨va, i, va, i⟩ s =
        ⟨.ok ⟨va + pdSize level, i + 1, va + pdSize level, i + 1⟩, s, []⟩ := by
      have hsize : pdSize level ≤ va + (n + 1) * pdSize level - va := by
        rw [Nat.add_sub_cancel_left]
        exact Nat.le_mul_of_pos_left _ (Nat.succ_pos n)
      unfold copyEntry
      rw [if_pos ⟨hoff, hoff, hsize⟩]
      have hlt : i < 512 := by omega
      exact bind_still (copyShare_empty hlt hlt (hs.entry 0 (Nat.succ_pos n)) (hd.entry 0 (Nat.succ_pos n)))
    have hlt : va < va + (n + 1) * pdSize level := Nat.lt_add_of_pos_right (Nat.mul_pos (Nat.succ_pos n) hpos)
    have hnext : va + (n + 1) * pdSize level = va + pdSize level + n * pdSize level := by ring
    rw [whileM, if_pos (by simpa using hlt), bind_still hround, hnext, ih hs.tail hd.tail (pdOff_next hoff) (by omega)]
    congr 3 <;> omega

/-- A page map with nothing in the user area. -/
structure BlankMap (b : Boot) (s : Mem) (r : Frame) : Prop where
  low : (s.entry r 0).frame ≠ b.zero
  count : s.refcount (s.entry r 0).frame = 1
  lows : Blank b s (s.entry r 0).frame 1 511
  rest : Blank b s r 1 255

instance (b : Boot) (s : Mem) (r : Frame) : Decidable (BlankMap b s r) :=
  decidable_of_iff ((s.entry r 0).frame ≠ b.zero ∧ s.refcount (s.entry r 0).frame = 1 ∧
      Blank b s (s.entry r 0).frame 1 511 ∧ Blank b s r 1 255)
    ⟨fun h => ⟨h.1, h.2.1, h.2.2.1, h.2.2.2⟩, fun h => ⟨h.low, h.count, h.lows, h.rest⟩⟩

theorem regionAsserts_still {sva dva size : ℕ} (h : Region sva dva size) :
    regionAsserts sva dva size s = ⟨.ok (), s, []⟩ := by
  have hoff : ∀ {va}, 4096 ∣ va → pdOff 0 va = 0 := fun h => Nat.mod_eq_zero_of_dvd (by simpa [pdSize] using h)
  unfold regionAsserts
  refine (bind_still (check_still (hoff h.sva_dvd))).trans ?_
  refine (bind_still (check_still (hoff h.dva_dvd))).trans ?_
  refine (bind_still (check_still (hoff h.size_dvd))).trans ?_
  refine (bind_still (check_still h.src)).trans ?_
  refine (bind_still (check_still h.dest)).trans ?_
  refine (bind_still (check_still h.src_le)).trans ?_
  exact check_still h.dest_le

theorem userRegion : Region vmUserLo vmUserLo (vmUserHi - vmUserLo) := by
  constructor <;> decide

/-- Copying the user area does nothing where both page maps have nothing in it. -/
theorem pmapCopy_blank (h : BlankMap b s r) (h' : BlankMap b s r') :
    pmapCopy b r vmUserLo r' vmUserLo (vmUserHi - vmUserLo) s = ⟨.ok (), s, []⟩ := by
  have hrounds : whileM .spin (fun x : CopyAt => x.sva < vmUserLo + 511 * pdSize 2)
      (copyEntry b (pmapCopyLevel b 1) 2 (s.entry r 0).frame (s.entry r' 0).frame (vmUserLo + 511 * pdSize 2))
      (pdSize 3 - vmUserLo) ⟨vmUserLo, 1, vmUserLo, 1⟩ s = ⟨.ok _, s, []⟩ :=
    copyRounds_blank h.lows h'.lows (by decide) (by decide)
  have hlow : pmapCopyLevel b 2 (s.entry r 0).frame vmUserLo (s.entry r' 0).frame vmUserLo (pdSize 3) s = ⟨.ok (), s, []⟩ :=
    bind_still hrounds
  have hpart : copyPart b (pmapCopyLevel b 2) 3 r r' ⟨vmUserLo, 0, vmUserLo, 0⟩ (pdSize 3 - vmUserLo) s = ⟨.ok (), s, []⟩ := by
    unfold copyPart
    refine (bind_still readEntry_still).trans ?_
    rw [if_neg h.low]
    refine (bind_still readEntry_still).trans ?_
    rw [if_neg h'.low]
    refine (bind_still readEntry_still).trans ?_
    refine (bind_still (check_still h'.low)).trans ?_
    refine (bind_still get_still).trans ?_
    refine (bind_still (noteIf_still (not_not.2 h'.count))).trans ?_
    exact (bind_still readEntry_still).trans hlow
  have hround : copyEntry b (pmapCopyLevel b 2) 3 r r' vmUserHi ⟨vmUserLo, 0, vmUserLo, 0⟩ s =
      ⟨.ok ⟨pdSize 3, 1, pdSize 3, 1⟩, s, []⟩ := by
    unfold copyEntry
    rw [if_neg (by decide)]
    exact bind_still hpart
  have hrest : whileM .spin (fun x : CopyAt => x.sva < pdSize 3 + 255 * pdSize 3)
      (copyEntry b (pmapCopyLevel b 2) 3 r r' (pdSize 3 + 255 * pdSize 3)) (vmUserHi - vmUserLo - 1)
      ⟨pdSize 3, 1, pdSize 3, 1⟩ s = ⟨.ok _, s, []⟩ :=
    copyRounds_blank h.rest h'.rest (by decide) (by decide)
  unfold pmapCopy
  refine (bind_still (regionAsserts_still userRegion)).trans ?_
  refine bind_still (a := (⟨vmUserHi, 256, vmUserHi, 256⟩ : CopyAt)) ?_
  have hfuel : vmUserLo + (vmUserHi - vmUserLo) - vmUserLo = vmUserHi - vmUserLo - 1 + 1 := by decide
  rw [hfuel, whileM, if_pos (by decide)]
  exact (bind_still hround).trans hrest

/-- A call that leaves the state as it was. -/
theorem plainRun_still (hc : c.Allowed σ) (hp : c.Plain b σ) (h : c.exec b σ = ⟨.ok (), σ, []⟩) :
    plainRun b (c :: cs) σ = (plainRun b cs σ).map fun x => (c.ops b σ ++ x.1, x.2) := by
  rw [plainRun, h]
  simp only
  rw [if_pos ⟨hc, hp, by simp⟩]

end

/-! ## Threads -/

/-- The arguments of `sys_put` in a fork: a region is copied to the child, and the snapshot is taken. -/
structure IsFork (tf : Trapframe) (lo size : ℕ) : Prop where
  cmd : tf.cmd = 1 ||| sysRegs ||| sysCopy ||| sysSnap ||| sysStart
  src : tf.rsi.toNat = lo
  dst : tf.rdi.toNat = lo
  len : tf.rcx.toNat = size
  ok : regionOk lo size = true

/-- The arguments of `sys_get` in a join: a region is merged. -/
structure IsJoin (tf : Trapframe) (lo size : ℕ) : Prop where
  cmd : tf.cmd = 2 ||| sysMerge ||| sysRegs
  src : tf.rsi.toNat = lo
  dst : tf.rdi.toNat = lo
  len : tf.rcx.toNat = size
  ok : regionOk lo size = true

/-- `VM_SHARELO` and `SHARESIZE`. -/
def shareLo : ℕ := vmUserLo

@[inherit_doc shareLo]
def shareSize : ℕ := 0x40000000

/-- `tfork` copies everything, and `tjoin` merges the shared area. -/
def IsTfork (tf : Trapframe) : Prop := IsFork tf vmUserLo (vmUserHi - vmUserLo)

@[inherit_doc IsTfork]
def IsTjoin (tf : Trapframe) : Prop := IsJoin tf shareLo shareSize

theorem IsFork.calls {tf : Trapframe} (h : IsFork tf lo size) : (putCalls tf tf.cmd).1 =
    [.copy .own lo .kid lo size, .copy .kid vmUserLo .ref vmUserLo (vmUserHi - vmUserLo)] := by
  unfold putCalls putMemop
  simp only [h.cmd, h.src, h.dst, h.len, h.ok]
  rfl

theorem IsJoin.calls {tf : Trapframe} (h : IsJoin tf lo size) :
    (getCalls tf tf.cmd).1 = [.merge .ref .kid lo .own lo size] := by
  unfold getCalls getMemop
  simp only [h.cmd, h.src, h.dst, h.len, h.ok]
  rfl

theorem Space.moved_same (h : lo ≤ a ∧ a < lo + size) : s.moved lo lo size a = s a := by
  rw [Space.moved, if_pos h, show lo + (a - lo) = a by omega]

theorem Area.page_in {k : ℕ} (ha : Area lo size) (h : lo ≤ a ∧ a < lo + size) (hk : k < pageSize) :
    lo ≤ a / pageSize * pageSize + k ∧ a / pageSize * pageSize + k < lo + size := by
  have h₁ := ha.va_dvd
  have h₂ := ha.size_dvd
  change k < 4096 at hk
  change lo ≤ a / 4096 * 4096 + k ∧ a / 4096 * 4096 + k < lo + size
  omega

/-- A merge of whole pages that stay at their addresses. -/
theorem SpaceOp.merge_join {rr sr dr : Frame} (ha : Area lo size) :
    (SpaceOp.merge rr sr lo dr lo size).result S = Space.join lo size (S rr) (S sr) (S dr) := by
  funext a
  simp only [SpaceOp.result, Space.join]
  by_cases hin : lo ≤ a ∧ a < lo + size
  · have hopp : Space.Opposed ((S rr).moved lo lo size) ((S sr).moved lo lo size) (S dr) a ↔
        Space.Opposed (S rr) (S sr) (S dr) a := by
      refine exists_congr fun k => and_congr_right fun hk => ?_
      rw [Space.moved_same (ha.page_in hin hk), Space.moved_same (ha.page_in hin hk)]
    rw [if_pos hin, if_pos hin, Space.moved_same hin, Space.moved_same hin]
    by_cases ho : Space.Opposed (S rr) (S sr) (S dr) a
    · rw [if_pos ho, if_pos (hopp.2 ho)]
    · rw [if_neg ho, if_neg fun h => ho (hopp.1 h)]
  · rw [if_neg hin, if_neg hin]

/-- Only the bytes in the region of the reference matter. -/
theorem Space.join_congr {p p' e d : Space} (ha : Area lo size) (h : ∀ a, lo ≤ a → a < lo + size → p a = p' a) :
    Space.join lo size p e d = Space.join lo size p' e d := by
  funext a
  unfold Space.join
  by_cases hin : lo ≤ a ∧ a < lo + size
  · have hopp : Space.Opposed p e d a ↔ Space.Opposed p' e d a := by
      refine exists_congr fun k => and_congr_right fun hk => ?_
      obtain ⟨h₁, h₂⟩ := ha.page_in hin hk
      rw [h _ h₁ h₂]
    rw [if_pos hin, if_pos hin, h a hin.1 hin.2]
    by_cases ho : Space.Opposed p e d a
    · rw [if_pos ho, if_pos (hopp.1 ho)]
    · rw [if_neg ho, if_neg fun h => ho (hopp.2 h)]
  · rw [if_neg hin, if_neg hin]

/-- After a fork the child has the bytes of the parent in the region, and the snapshot has those of the child. -/
theorem fork_spaces {tf : Trapframe} (hb : Booted b s₀) (h : Reach b (fun _ => True) defects s₀ σ)
    (hF : Function.Injective F) (htf : IsFork tf lo size)
    (hrun : plainRun b ((putCalls tf tf.cmd).1.map (Call.onMaps F)) σ = some (os, τ)) :
    Reach b (fun _ => True) defects s₀ τ ∧
      (∀ a, lo ≤ a → a < lo + size → τ.spaces b (F .kid) a = σ.spaces b (F .own) a) ∧
      τ.spaces b (F .ref) = τ.spaces b (F .kid) ∧ ∀ r, r ≠ F .kid → r ≠ F .ref → τ.spaces b r = σ.spaces b r := by
  rw [htf.calls] at hrun
  obtain ⟨σ', os', hc, hp, hret, hrest, rfl⟩ := plainRun_cons hrun
  obtain ⟨h', hs⟩ := h.plain hb hc hp hret
  obtain ⟨σ'', os'', hc', hp', hret', hrest', rfl⟩ := plainRun_cons hrest
  obtain ⟨h'', hs'⟩ := h'.plain hb hc' hp' hret'
  obtain ⟨rfl, rfl⟩ := Prod.mk.inj (Option.some.inj hrest')
  have hkr : F .kid ≠ F .ref := fun e => by cases hF e
  have hall : (SpaceOp.copy (F .kid) vmUserLo (F .ref) vmUserLo (vmUserHi - vmUserLo)).result (σ'.spaces b) =
      σ'.spaces b (F .kid) := by
    funext a
    simp only [SpaceOp.result]
    by_cases ha : UserVa a
    · have hin : vmUserLo ≤ a ∧ a < vmUserLo + (vmUserHi - vmUserLo) := ha
      rw [if_pos hin, Space.moved_same hin]
    · have hin : ¬(vmUserLo ≤ a ∧ a < vmUserLo + (vmUserHi - vmUserLo)) := ha
      rw [if_neg hin, Maps.spaces_not fun hc => ha hc.2, Maps.spaces_not fun hc => ha hc.2]
  have h₁ : σ'.spaces b = Function.update (σ.spaces b) (F .kid) _ := hs
  have h₂ : σ''.spaces b = Function.update (σ'.spaces b) (F .ref) _ := hs'
  refine ⟨h'', fun a hlo hhi => ?_, ?_, fun r hk hr => ?_⟩
  · rw [h₂, Function.update_of_ne hkr, h₁, Function.update_self]
    simp only [SpaceOp.act, SpaceOp.result]
    rw [if_pos ⟨hlo, hhi⟩, Space.moved_same ⟨hlo, hhi⟩]
  · rw [h₂, Function.update_self, Function.update_of_ne hkr]
    exact hall
  · rw [h₂, Function.update_of_ne hr, h₁, Function.update_of_ne hk]

/-- A join merges the bytes of the region. -/
theorem join_spaces {tf : Trapframe} (hb : Booted b s₀) (h : Reach b (fun _ => True) defects s₀ σ)
    (htf : IsJoin tf lo size) (hrun : plainRun b ((getCalls tf tf.cmd).1.map (Call.onMaps F)) σ = some (os, τ)) :
    Area lo size ∧ τ.spaces b = Function.update (σ.spaces b) (F .own)
      (Space.join lo size (σ.spaces b (F .ref)) (σ.spaces b (F .kid)) (σ.spaces b (F .own))) := by
  rw [htf.calls] at hrun
  obtain ⟨σ', os', hc, hp, hret, hrest, rfl⟩ := plainRun_cons hrun
  obtain ⟨-, hs⟩ := h.plain hb hc hp hret
  obtain ⟨rfl, rfl⟩ := Prod.mk.inj (Option.some.inj hrest)
  have harea := hc.2.2.2.source
  refine ⟨harea, hs.trans ?_⟩
  rw [← SpaceOp.merge_join harea]
  exact SpaceOp.run_singleton ..

/-- A join of some of the pages puts into the parent the bytes that the child has changed since the fork. -/
theorem join_forked {tf tf' : Trapframe} {lo' size' : ℕ} {cs : List PmapCall} (hb : Booted b s₀)
    (h : Reach b (fun _ => True) defects s₀ σ) (hF : Function.Injective F) (htf : IsFork tf lo size)
    (htf' : IsJoin tf' lo' size') (hlo : lo ≤ lo') (hhi : lo' + size' ≤ lo + size)
    (hfork : plainRun b ((putCalls tf tf.cmd).1.map (Call.onMaps F)) σ = some (os, σ₁))
    (hrun : plainRun b cs σ₁ = some (os₁, σ₂)) (hcs : ∀ c ∈ cs, c.target ≠ some (F .ref))
    (hjoin : plainRun b ((getCalls tf' tf'.cmd).1.map (Call.onMaps F)) σ₂ = some (os₂, τ)) :
    τ.spaces b = Function.update (σ₂.spaces b) (F .own)
      (Space.join lo' size' (σ.spaces b (F .own)) (σ₂.spaces b (F .kid)) (σ₂.spaces b (F .own))) := by
  obtain ⟨h₁, hkid, href, -⟩ := fork_spaces hb h hF htf hfork
  obtain ⟨harea, hτ⟩ := join_spaces hb (Reach.plainRun hb h₁ hrun) htf' hjoin
  have hstay : σ₂.spaces b (F .ref) = σ₁.spaces b (F .kid) := by rw [plainRun_stays hb h₁ hrun hcs, href]
  rw [hτ, hstay, Space.join_congr harea fun a h₁ h₂ => hkid a (by omega) (by omega)]

/-- **Fork and join**: after a fork the child has the bytes of its parent. Whatever has been done since then to the page
maps, but for the snapshot, a join of some of the pages puts into the parent the bytes that the child has changed since
the fork, and zeros into a page of which both have changed a byte. Nothing else is changed. -/
theorem fork_join {tf tf' : Trapframe} {lo' size' : ℕ} {cs : List PmapCall} (hb : Booted b s₀)
    (h : Reach b (fun _ => True) defects s₀ σ) (hF : Function.Injective F) (htf : IsFork tf lo size)
    (htf' : IsJoin tf' lo' size') (hlo : lo ≤ lo') (hhi : lo' + size' ≤ lo + size)
    (hfork : plainRun b ((putCalls tf tf.cmd).1.map (Call.onMaps F)) σ = some (os, σ₁))
    (hrun : plainRun b cs σ₁ = some (os₁, σ₂)) (hcs : ∀ c ∈ cs, c.target ≠ some (F .ref))
    (hjoin : plainRun b ((getCalls tf' tf'.cmd).1.map (Call.onMaps F)) σ₂ = some (os₂, τ)) :
    (∀ a, lo ≤ a → a < lo + size → σ₁.spaces b (F .kid) a = σ.spaces b (F .own) a) ∧
    σ₁.spaces b (F .own) = σ.spaces b (F .own) ∧
    τ.spaces b (F .own) =
      Space.join lo' size' (σ.spaces b (F .own)) (σ₂.spaces b (F .kid)) (σ₂.spaces b (F .own)) ∧
    ∀ r, r ≠ F .own → τ.spaces b r = σ₂.spaces b r := by
  obtain ⟨-, hkid, -, hother⟩ := fork_spaces hb h hF htf hfork
  have hτ := join_forked hb h hF htf htf' hlo hhi hfork hrun hcs hjoin
  refine ⟨hkid, hother _ (fun e => by cases hF e) (fun e => by cases hF e), ?_, fun r hr => ?_⟩
  · rw [hτ, Function.update_self]
  · rw [hτ, Function.update_of_ne hr]

/-- `tfork` with page maps in which there is nothing. -/
theorem fork_blank {tf : Trapframe} (htf : IsTfork tf) (hF : Function.Injective F)
    (hr : ∀ m, σ.IsRoot (F m)) (hm : ∀ m, BlankMap b σ.mem (F m)) :
    ∃ os, plainRun b ((putCalls tf tf.cmd).1.map (Call.onMaps F)) σ = some (os, σ) := by
  have hcopy : ∀ m m', m ≠ m' → ∀ cs,
      plainRun b (.copy (F m) vmUserLo (F m') vmUserLo (vmUserHi - vmUserLo) :: cs) σ = (plainRun b cs σ).map fun x =>
        (.copy (F m) vmUserLo (F m') vmUserLo (vmUserHi - vmUserLo) :: x.1, x.2) := by
    intro m m' hne cs
    refine plainRun_still ⟨hr m, hr m', userRegion⟩ (fun e => hne (hF e)) ?_
    change onMem (pmapCopy b (F m) vmUserLo (F m') vmUserLo (vmUserHi - vmUserLo)) σ = _
    unfold onMem
    rw [pmapCopy_blank (hm m) (hm m')]
  rw [IsFork.calls htf]
  exact ⟨_, (hcopy .own .kid (by decide) _).trans (congrArg _ (hcopy .kid .ref (by decide) []))⟩

/-- The arguments of `tfork`. -/
def sampleTfork : Trapframe :=
  Trapframe.withArgs (fun _ => 0) ((1 ||| sysRegs ||| sysCopy ||| sysSnap ||| sysStart).setWidth 64) 0 (vmUserHi - vmUserLo) 1
    vmUserLo vmUserLo

def sampleTjoin : Trapframe :=
  Trapframe.withArgs (fun _ => 0) ((2 ||| sysMerge ||| sysRegs).setWidth 64) 0 shareSize 1 shareLo shareLo

theorem sampleTfork_is : IsTfork sampleTfork := by
  constructor <;> decide

theorem sampleTjoin_is : IsTjoin sampleTjoin := by
  constructor <;> decide

/-- A thread is forked that writes a page, and joined. -/
theorem fork_join_sample : ∃ σ os σ₁ os₁ σ₂ os₂ τ,
    Reach sampleBoot (fun _ => True) defects (freshMem samplePages) σ ∧
    plainRun sampleBoot ((putCalls sampleTfork sampleTfork.cmd).1.map (Call.onMaps sampleMaps)) σ = some (os, σ₁) ∧
    plainRun sampleBoot [.alloc, .insert 0x1002 0x1006 0x40001000 sysRW] σ₁ = some (os₁, σ₂) ∧
    plainRun sampleBoot ((getCalls sampleTjoin sampleTjoin.cmd).1.map (Call.onMaps sampleMaps)) σ₂ = some (os₂, τ) ∧
    τ.spaces sampleBoot 0x1000 = Space.join shareLo shareSize (σ.spaces sampleBoot 0x1000) (σ₂.spaces sampleBoot 0x1002)
      (σ₂.spaces sampleBoot 0x1000) := by
  obtain ⟨σ, hσ, hP⟩ := exists_reach sampleBoot (fun _ => True) defects (freshMem samplePages) [.newpmap, .newpmap, .newpmap]
    (fun σ => (plainRun sampleBoot [.alloc, .insert 0x1002 0x1006 0x40001000 sysRW] σ).any (fun x =>
        (plainRun sampleBoot ((getCalls sampleTjoin sampleTjoin.cmd).1.map (Call.onMaps sampleMaps)) x.2).isSome) &&
      [0x1000, 0x1002, 0x1004].all fun r =>
        decide (PmapCall.Allowed σ (.remove r 0x40001000 4096)) && decide (BlankMap sampleBoot σ.mem r))
    (fun _ _ => trivial) (by decide +kernel)
  rw [Bool.and_eq_true, Option.any_eq_true] at hP
  obtain ⟨⟨⟨os₁, σ₂⟩, hrun, hjoin⟩, hmaps⟩ := hP
  obtain ⟨⟨os₂, τ⟩, hjoin⟩ := Option.isSome_iff_exists.1 hjoin
  simp only [List.all_cons, List.all_nil, Bool.and_true, Bool.and_eq_true, decide_eq_true_eq] at hmaps
  obtain ⟨⟨ho, hbo⟩, ⟨hk, hbk⟩, hr, hbr⟩ := hmaps
  have hroot : ∀ m, σ.IsRoot (sampleMaps m) := by
    intro m
    cases m with
    | own => exact ho.1
    | kid => exact hk.1
    | ref => exact hr.1
  have hblank : ∀ m, BlankMap sampleBoot σ.mem (sampleMaps m) := by
    intro m
    cases m with
    | own => exact hbo
    | kid => exact hbk
    | ref => exact hbr
  obtain ⟨os, hfork⟩ := fork_blank sampleTfork_is sampleMaps_injective hroot hblank
  obtain ⟨-, -, hown, -⟩ := fork_join sample_booted hσ sampleMaps_injective sampleTfork_is sampleTjoin_is (by decide)
    (by decide) hfork hrun (by decide) hjoin
  exact ⟨σ, os, σ, os₁, σ₂, os₂, τ, hσ, hfork, hrun, hjoin, hown⟩

end Determinator
