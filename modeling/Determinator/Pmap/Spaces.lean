import Determinator.Lib.Local
import Determinator.Lib.Threeway
import Determinator.Pmap.Joins

/-!
# Address spaces

What page maps are for: each of them is a memory of its own, a byte for each address. Inserting a page and writing to
one put bytes at the addresses of a page; removing makes zeros; copying and merging take the bytes of other
memories as they are at the time. Those are the `SpaceOp`s, and there are no others: walks, faults and permissions
change no byte, and a new page map holds zeros.

The kernel does that with pages and tables that are shared until somebody writes to them. `run_simulates` says that
nothing is seen of the sharing: the bytes that are found through the page maps are those of the separate memories.
-/

namespace Determinator

open PanicM

/-! ## Separate memories -/

/-- A byte for each address. -/
abbrev Space := ℕ → BitVec 8

/-- What happens to the memories. -/
inductive SpaceOp
  | put (r : Frame) (va : ℕ) (pg : Page)
  | clear (r : Frame) (va size : ℕ)
  | copy (sr : Frame) (sva : ℕ) (dr : Frame) (dva size : ℕ)
  | merge (rr sr : Frame) (sva : ℕ) (dr : Frame) (dva size : ℕ)

/-- The bytes of `s` at the addresses that are copied to those of `d`. -/
def Space.moved (s : Space) (sva dva size : ℕ) : Space := fun a =>
  if dva ≤ a ∧ a < dva + size then s (sva + (a - dva)) else 0

/-- Both `e` and `d` have changed a byte in the page of an address. -/
def Space.Opposed (p e d : Space) (a : ℕ) : Prop :=
  ∃ k < pageSize, e (a / pageSize * pageSize + k) ≠ p (a / pageSize * pageSize + k) ∧
    d (a / pageSize * pageSize + k) ≠ p (a / pageSize * pageSize + k)

instance (p e d : Space) (a : ℕ) : Decidable (Space.Opposed p e d a) :=
  decidable_of_iff (∃ k ∈ List.range pageSize, e (a / pageSize * pageSize + k) ≠ p (a / pageSize * pageSize + k) ∧
      d (a / pageSize * pageSize + k) ≠ p (a / pageSize * pageSize + k))
    (exists_congr fun _ => and_congr_left fun _ => List.mem_range)

/-- The bytes of `d` when those of `e` in a region have been merged, which were those of `p` at first. -/
def Space.join (lo size : ℕ) (p e d : Space) : Space := fun a =>
  if lo ≤ a ∧ a < lo + size then if Space.Opposed p e d a then 0 else if e a = p a then d a else e a else d a

namespace SpaceOp

def target : SpaceOp → Frame
  | put r .. => r
  | clear r .. => r
  | copy _ _ dr .. => dr
  | merge _ _ _ dr .. => dr

def reads : SpaceOp → Set Frame
  | copy sr .. => {sr}
  | merge rr sr .. => {rr, sr}
  | _ => ∅

open Classical in
/-- The memory of the target afterwards. -/
noncomputable def result (S : Frame → Space) : SpaceOp → Space
  | put r va pg => fun a => if a / pageSize = va / pageSize then pg.byte (a % pageSize) else S r a
  | clear r va size => fun a => if va ≤ a ∧ a < va + size then 0 else S r a
  | copy sr sva dr dva size => fun a => if dva ≤ a ∧ a < dva + size then (S sr).moved sva dva size a else S dr a
  | merge rr sr sva dr dva size => fun a =>
    if dva ≤ a ∧ a < dva + size then
      if Space.Opposed ((S rr).moved sva dva size) ((S sr).moved sva dva size) (S dr) a then 0
      else if (S sr).moved sva dva size a = (S rr).moved sva dva size a then S dr a
      else (S sr).moved sva dva size a
    else S dr a

/-- An operation as an action on the memories. -/
noncomputable def act (o : SpaceOp) : LocalAct Frame Space where
  target := o.target
  reads := o.reads
  result S := o.result S
  agree S S' ht hr := by
    cases o with
    | put r va pg =>
      have ht : S r = S' r := ht
      simp only [result, ht]
    | clear r va size =>
      have ht : S r = S' r := ht
      simp only [result, ht]
    | copy sr sva dr dva size =>
      have ht : S dr = S' dr := ht
      have hs : S sr = S' sr := hr sr rfl
      simp only [result, ht, hs]
    | merge rr sr sva dr dva size =>
      have ht : S dr = S' dr := ht
      have hs : S sr = S' sr := hr sr (.inr rfl)
      have hp : S rr = S' rr := hr rr (.inl rfl)
      simp only [result]
      rw [ht, hs, hp]

/-- Operations one after the other. -/
noncomputable def run (os : List SpaceOp) (S : Frame → Space) : Frame → Space := LocalAct.run (os.map act) S

theorem run_append (os os' : List SpaceOp) (S : Frame → Space) : run (os ++ os') S = run os' (run os S) := by
  unfold run
  rw [List.map_append, LocalAct.run_append]

theorem run_singleton (o : SpaceOp) (S : Frame → Space) : run [o] S = Function.update S o.target (o.result S) := rfl

end SpaceOp

/-! ## What is found through the page maps -/

variable {b : Boot} {G G' : Ghost} {s s' s₀ : Mem} {σ τ : Maps} {f r rr sr dr T : Frame} {a n va sva dva size : ℕ}
  {N : Set Note} {R : ℕ → View → View → Prop} {c : PmapCall} {g : Space}

/-- The bytes at the addresses of the user area. -/
def Maps.spaces (b : Boot) (σ : Maps) (r : Frame) : Space := fun a =>
  if σ.IsRoot r ∧ UserVa a then (viewAt b σ.mem a nptLvls r).page.byte (a % pageSize) else 0

/-- What a call does to the memories. -/
def PmapCall.ops (b : Boot) (σ : Maps) : PmapCall → List SpaceOp
  | insert r pi va perm => if (pmapInsert b r pi va perm σ.mem).val = .ok none then [] else [.put r va (σ.mem.page pi)]
  | remove r va size => [.clear r va size]
  | copy sr sva dr dva size => [.copy sr sva dr dva size]
  | merge rr sr sva dr dva size => [.merge rr sr sva dr dva size]
  | store r va pg => if (translate σ.mem va true nptLvls r).isSome then [.put r va pg] else []
  | _ => []

/-- The memories of copies and merges are different ones, and a merge stays in tables. -/
def PmapCall.Plain (b : Boot) (σ : Maps) : PmapCall → Prop
  | copy sr _ dr .. => sr ≠ dr
  | merge rr sr sva dr dva size => rr ≠ dr ∧ sr ≠ dr ∧
    (pmapMergeLook b (roundCheck b true rr sr dr) rr sr sva dr dva size σ.mem).val ≠ .error .wild
  | _ => True

instance (b : Boot) (σ : Maps) : DecidablePred (PmapCall.Plain b σ)
  | .copy sr _ dr .. => inferInstanceAs (Decidable (sr ≠ dr))
  | .merge rr sr sva dr dva size => inferInstanceAs (Decidable (rr ≠ dr ∧ sr ≠ dr ∧
    (pmapMergeLook b (roundCheck b true rr sr dr) rr sr sva dr dva size σ.mem).val ≠ .error .wild))
  | .newpmap => inferInstanceAs (Decidable True)
  | .alloc => inferInstanceAs (Decidable True)
  | .fill .. => inferInstanceAs (Decidable True)
  | .walk .. => inferInstanceAs (Decidable True)
  | .insert .. => inferInstanceAs (Decidable True)
  | .remove .. => inferInstanceAs (Decidable True)
  | .setperm .. => inferInstanceAs (Decidable True)
  | .fault .. => inferInstanceAs (Decidable True)
  | .store .. => inferInstanceAs (Decidable True)

/-! ## Bytes and pages -/

theorem userVa_div (ha : UserVa va) (h : a / pageSize = va / pageSize) : UserVa a := by
  obtain ⟨h₁, h₂⟩ := ha
  change a / 4096 = va / 4096 at h
  change 0x40000000 ≤ va at h₁
  change va < 0x800000000000 at h₂
  constructor
  · change 0x40000000 ≤ a
    omega
  · change a < 0x800000000000
    omega

theorem page_div {k : ℕ} (hk : k < pageSize) (a : ℕ) : (a / pageSize * pageSize + k) / pageSize = a / pageSize ∧
    (a / pageSize * pageSize + k) % pageSize = k := by
  change k < 4096 at hk
  change (a / 4096 * 4096 + k) / 4096 = a / 4096 ∧ (a / 4096 * 4096 + k) % 4096 = k
  omega

@[simp] theorem Page.zeros_byte (k : ℕ) : Page.zeros.byte k = 0 := by
  have h : (⟨0, 0, 0⟩ : Pte).word = 0 := by decide
  rw [Page.byte, Page.zeros, h]
  ext i hi
  simp [byteOf]

namespace Maps

theorem spaces_of (hr : σ.IsRoot r) (ha : UserVa a) :
    σ.spaces b r a = (viewAt b σ.mem a nptLvls r).page.byte (a % pageSize) := if_pos ⟨hr, ha⟩

theorem spaces_not (h : ¬(σ.IsRoot r ∧ UserVa a)) : σ.spaces b r a = 0 := if_neg h

/-- A byte of the page of an address. -/
theorem spaces_page {k : ℕ} (hr : σ.IsRoot r) (ha : UserVa a) (hk : k < pageSize) :
    σ.spaces b r (a / pageSize * pageSize + k) = (viewAt b σ.mem a nptLvls r).page.byte k := by
  obtain ⟨hdiv, hmod⟩ := page_div hk a
  rw [spaces_of hr (userVa_div ha hdiv), hmod, viewAt_div hdiv]

/-- The bytes are found through the same page maps. -/
structure Same (b : Boot) (σ τ : Maps) : Prop where
  root : ∀ r, τ.IsRoot r ↔ σ.IsRoot r
  page : ∀ r a, σ.IsRoot r → UserVa a → (viewAt b τ.mem a nptLvls r).page = (viewAt b σ.mem a nptLvls r).page

theorem Same.spaces (h : Same b σ τ) : τ.spaces b = σ.spaces b := by
  funext r a
  by_cases hc : σ.IsRoot r ∧ UserVa a
  · rw [spaces_of hc.1 hc.2, spaces_of ((h.root r).2 hc.1) hc.2, h.page r a hc.1 hc.2]
  · rw [spaces_not hc, spaces_not fun hc' => hc ⟨(h.root r).1 hc'.1, hc'.2⟩]

/-- An operation has changed one page map. -/
theorem Changes.spaces (h : σ.Changes b r R τ.mem) (hτ : ∀ r, τ.IsRoot r ↔ σ.IsRoot r) (hr : σ.IsRoot r)
    (hg : ∀ a, UserVa a → R a (viewAt b σ.mem a nptLvls r) (viewAt b τ.mem a nptLvls r) →
      (viewAt b τ.mem a nptLvls r).page.byte (a % pageSize) = g a) (hout : ∀ a, ¬UserVa a → g a = 0) :
    τ.spaces b = Function.update (σ.spaces b) r g := by
  funext r' a
  by_cases hr' : r' = r
  · subst hr'
    rw [Function.update_self]
    by_cases ha : UserVa a
    · rw [spaces_of ((hτ r').2 hr) ha]
      exact hg a ha (h.self a ha)
    · rw [spaces_not fun hc => ha hc.2, hout a ha]
  · rw [Function.update_of_ne hr']
    by_cases hc : σ.IsRoot r' ∧ UserVa a
    · rw [spaces_of hc.1 hc.2, spaces_of ((hτ r').2 hc.1) hc.2, (h.other r' a hc.1 hr' hc.2).page]
    · rw [spaces_not hc, spaces_not fun hc' => hc ⟨(hτ r').1 hc'.1, hc'.2⟩]

/-- The same, where no byte has changed. -/
theorem Changes.same (h : σ.Changes b r R τ.mem) (hτ : ∀ r, τ.IsRoot r ↔ σ.IsRoot r)
    (hR : ∀ a v v', R a v v' → v'.page = v.page) : Same b σ τ where
  root := hτ
  page r' a hr' ha := by
    by_cases hne : r' = r
    · subst hne
      exact hR a _ _ (h.self a ha)
    · exact (h.other r' a hr' hne ha).page

/-- Only counts and the free list have changed. -/
theorem same_page (hr : τ.roots = σ.roots) (hp : τ.mem.page = σ.mem.page) : Same b σ τ where
  root r := by
    unfold IsRoot
    rw [hr]
  page r a _ _ := by rw [viewAt_page hp]

namespace Inv

theorem same_unseen (h : Maps.Inv b s₀ σ G) (hu : Unseen b 3 G σ.mem G' s') : Same b σ { σ with mem := s' } where
  root _ := Iff.rfl
  page _ _ hr ha := (h.unchanged hu hr ha).page

end Inv

end Maps

/-! ## Stores -/

theorem leaf_setPage (hS : Sound b G s) (hk : G.kind f = .data) (hl : (G.kind T).level = some n) (hm : (G.kind T).maps va)
    (pg : Page) : (viewAt b (s.setPage f pg) va n T).leaf = (viewAt b s va n T).leaf := by
  have he : ∀ {t m} i, (G.kind t).level = some m → i < 512 → (s.setPage f pg).entry t i = s.entry t i := by
    intro t m i ht hi
    refine setPage_entry_ne hi ?_
    rintro rfl
    rw [hk] at ht
    cases ht
  induction n generalizing T with
  | zero => simp only [viewAt, he _ hl (pdx_lt 0 va)]
  | succ n ih =>
    have heT := he _ hl (pdx_lt (n + 1) va)
    by_cases hz : (s.entry T (pdx (n + 1) va)).frame = b.zero
    · rw [viewAt_none hz, viewAt_none (by rw [heT]; exact hz)]
    · obtain ⟨hl', hm'⟩ := kid_of_slot hS.toGood hl hm (hS.slot_maps hl hm hz)
      rw [viewAt_some hz, viewAt_some (by rw [heT]; exact hz), heT]
      exact ih hl' hm'

/-- What is stored is found at its address. -/
theorem Maps.Inv.store_page (h : Maps.Inv b s₀ σ G) (hr : σ.IsRoot r) (hu : UserVa va)
    (ht : translate σ.mem va true nptLvls r = some f) (pg : Page) :
    (viewAt b (σ.mem.setPage f pg) va nptLvls r).page = pg := by
  obtain ⟨-, -, hk⟩ := store_sound h.toSound (h.is_root hr) hu ht pg
  have hleaf := leaf_setPage h.toSound hk (h.level hr) (h.maps hr hu) pg
  have hf := (wr_of_translate (b := b) ht h.zeroRO h.toWhole (h.level hr) (h.maps hr hu)).2
  rw [viewAt_frame, hleaf, hf]
  exact Function.update_self ..

/-- A store puts a page at its address. -/
theorem Maps.Inv.stored (h : Maps.Inv b s₀ σ G) (hr : σ.IsRoot r) (hu : UserVa va)
    (ht : translate σ.mem va true nptLvls r = some f) (pg : Page) :
    σ.Changes b r (fun a v v' => v'.page = if a / pageSize = va / pageSize then pg else v.page) (σ.mem.setPage f pg) where
  self a ha := by
    split
    · rename_i hd
      rw [viewAt_div hd]
      exact h.store_page hr hu ht pg
    · rename_i hd
      rw [h.store_view hr hu ht pg hr ha (.inr hd)]
  other r' a hr' hne ha := by
    rw [h.store_view hr hu ht pg hr' ha (.inl hne)]
    exact View.Keeps.refl _
  zero := (h.store (h.is_root hr) hu ht pg).zeros

/-! ## Calls -/

/-- Where the change of a range is known, so are the bytes. -/
theorem Inside.byte {C : ℕ → View → View → Prop} {lo hi : ℕ} {v v' : View} {x y : BitVec 8} (h : Inside lo hi C a v v')
    (hin : lo ≤ a → a < hi → C a v v' → v'.page.byte (a % pageSize) = x) (hout : v.page.byte (a % pageSize) = y) :
    v'.page.byte (a % pageSize) = if lo ≤ a ∧ a < hi then x else y := by
  unfold Inside at h
  split at h
  · rename_i hc
    rw [if_pos hc]
    exact hin hc.1 hc.2 h
  · rename_i hc
    rw [if_neg hc, h.page]
    exact hout

theorem Inside.page {C : ℕ → View → View → Prop} {lo hi : ℕ} {v v' : View} (h : Inside lo hi C a v v')
    (hC : C a v v' → v'.page = v.page) : v'.page = v.page := by
  unfold Inside at h
  split at h
  · exact hC h
  · exact h.page

theorem in_page_iff : pageStart va ≤ a ∧ a < pageEnd va ↔ a / pageSize = va / pageSize :=
  ⟨fun h => div_of_page h.1 h.2, fun h => ⟨by rw [pageStart, ← show a / pdSize 0 = va / pdSize 0 from h]; exact block_le 0 a,
    lt_of_block h⟩⟩

/-- A page is found at its addresses. -/
theorem Inside.mapped {e : Pte} {pg : Page} {v v' : View} (h : Inside (pageStart va) (pageEnd va) (MapsTo e pg) a v v') :
    v'.page = if a / pageSize = va / pageSize then pg else v.page := by
  unfold Inside at h
  split at h
  · rename_i hin
    rw [if_pos (in_page_iff.1 hin), h]
  · rename_i hin
    rw [if_neg (mt in_page_iff.2 hin), h.page]

/-- Source and destination are at the same places of their pages. -/
theorem Region.moved_mod (h : Region sva dva size) (ha : dva ≤ a) : (sva + (a - dva)) % pageSize = a % pageSize := by
  have h₁ := h.sva_dvd
  have h₂ := h.dva_dvd
  change (sva + (a - dva)) % 4096 = a % 4096
  omega

namespace Maps

/-- A page has come to an address. -/
theorem Changes.put {pg : Page} (h : σ.Changes b r (fun a v v' => v'.page = if a / pageSize = va / pageSize then pg else v.page)
    τ.mem) (hτ : ∀ r, τ.IsRoot r ↔ σ.IsRoot r) (hr : σ.IsRoot r) (hu : UserVa va) :
    τ.spaces b = SpaceOp.run [.put r va pg] (σ.spaces b) := by
  rw [SpaceOp.run_singleton]
  refine h.spaces hτ hr (fun a ha hp => ?_) fun a ha => ?_
  · rw [hp]
    simp only [SpaceOp.result, spaces_of hr ha]
    split <;> rfl
  · simp only [SpaceOp.result]
    rw [if_neg fun hd => ha (userVa_div hu hd), spaces_not fun hc => ha hc.2]

/-- Zeros are left. -/
theorem Changes.clear (h : σ.Changes b r (Inside va (va + size) fun _ => Emptied b) τ.mem)
    (hτ : ∀ r, τ.IsRoot r ↔ σ.IsRoot r) (hr : σ.IsRoot r) :
    τ.spaces b = SpaceOp.run [.clear r va size] (σ.spaces b) := by
  rw [SpaceOp.run_singleton]
  refine h.spaces hτ hr (fun a ha hin => ?_) fun a ha => ?_
  · refine hin.byte (fun _ _ hC => ?_) (spaces_of hr ha).symm
    rw [hC.page, Page.zeros_byte]
  · simp only [SpaceOp.result, spaces_not fun hc => ha hc.2, ite_self]

/-- The bytes of another page map are there. -/
theorem Changes.copied (h : σ.Changes b dr (Inside dva (dva + size) fun a =>
      Taken b (viewAt b σ.mem (sva + (a - dva)) nptLvls sr)) τ.mem) (hτ : ∀ r, τ.IsRoot r ↔ σ.IsRoot r) (hsr : σ.IsRoot sr)
    (hdr : σ.IsRoot dr) (hreg : Region sva dva size) : τ.spaces b = SpaceOp.run [.copy sr sva dr dva size] (σ.spaces b) := by
  rw [SpaceOp.run_singleton]
  refine h.spaces hτ hdr (fun a ha hin => ?_) fun a ha => ?_
  · refine hin.byte (fun h₁ h₂ hC => ?_) (spaces_of hdr ha).symm
    have hu : UserVa (sva + (a - dva)) := hreg.source.end_le (by omega) (by omega)
    have hmod : (sva + (a - dva)) % pageSize = a % pageSize := hreg.moved_mod h₁
    rw [hC.page, Space.moved, if_pos ⟨h₁, h₂⟩, spaces_of hsr hu, hmod]
  · simp only [SpaceOp.result]
    rw [if_neg fun hin => ha (hreg.dest_area.end_le hin.2 hin.1), spaces_not fun hc => ha hc.2]

/-- The bytes of a page that is moved. -/
theorem moved_page {k : ℕ} (hr : σ.IsRoot r) (hreg : Region sva dva size) (h₁ : dva ≤ a) (h₂ : a < dva + size)
    (hk : k < pageSize) : (σ.spaces b r).moved sva dva size (a / pageSize * pageSize + k) =
      (viewAt b σ.mem (sva + (a - dva)) nptLvls r).page.byte k := by
  have hu : UserVa (sva + (a - dva)) := hreg.source.end_le (by omega) (by omega)
  obtain ⟨hin₁, hin₂, hat⟩ : dva ≤ a / pageSize * pageSize + k ∧ a / pageSize * pageSize + k < dva + size ∧
      sva + (a / pageSize * pageSize + k - dva) = (sva + (a - dva)) / pageSize * pageSize + k := by
    have h₃ := hreg.sva_dvd
    have h₄ := hreg.dva_dvd
    have h₅ := hreg.size_dvd
    change k < 4096 at hk
    change dva ≤ a / 4096 * 4096 + k ∧ a / 4096 * 4096 + k < dva + size ∧
      sva + (a / 4096 * 4096 + k - dva) = (sva + (a - dva)) / 4096 * 4096 + k
    omega
  rw [Space.moved, if_pos ⟨hin₁, hin₂⟩, hat, spaces_page hr hu hk]

/-- The bytes of the source are merged. -/
theorem Changes.merged (h : σ.Changes b dr (Inside dva (dva + size) fun a =>
      Joined (viewAt b σ.mem (sva + (a - dva)) nptLvls rr) (viewAt b σ.mem (sva + (a - dva)) nptLvls sr)) τ.mem)
    (hτ : ∀ r, τ.IsRoot r ↔ σ.IsRoot r) (hrr : σ.IsRoot rr) (hsr : σ.IsRoot sr) (hdr : σ.IsRoot dr)
    (hreg : Region sva dva size) : τ.spaces b = SpaceOp.run [.merge rr sr sva dr dva size] (σ.spaces b) := by
  rw [SpaceOp.run_singleton]
  refine h.spaces hτ hdr (fun a ha hin => ?_) fun a ha => ?_
  · refine hin.byte (fun h₁ h₂ hC => ?_) (spaces_of hdr ha).symm
    have hk : a % pageSize < pageSize := Nat.mod_lt a (by decide)
    have hat : a / pageSize * pageSize + a % pageSize = a := Nat.div_add_mod' a pageSize
    have hopp : Space.Opposed ((σ.spaces b rr).moved sva dva size) ((σ.spaces b sr).moved sva dva size) (σ.spaces b dr) a ↔
        Opposed (viewAt b σ.mem (sva + (a - dva)) nptLvls rr).page (viewAt b σ.mem (sva + (a - dva)) nptLvls sr).page
          (viewAt b σ.mem a nptLvls dr).page := by
      refine exists_congr fun k => and_congr_right fun hk => ?_
      rw [moved_page hrr hreg h₁ h₂ hk, moved_page hsr hreg h₁ h₂ hk, spaces_page hdr ha hk]
    have hp := moved_page (b := b) hrr hreg h₁ h₂ hk
    have he := moved_page (b := b) hsr hreg h₁ h₂ hk
    rw [hat] at hp he
    simp only [hp, he, spaces_of hdr ha]
    by_cases ho : Opposed (viewAt b σ.mem (sva + (a - dva)) nptLvls rr).page
        (viewAt b σ.mem (sva + (a - dva)) nptLvls sr).page (viewAt b σ.mem a nptLvls dr).page
    · rw [if_pos (hopp.2 ho), hC.opposed ho, Page.zeros_byte]
    · rw [if_neg fun h => ho (hopp.1 h), hC.merged ho _ hk]
  · simp only [SpaceOp.result]
    rw [if_neg fun hin => ha (hreg.dest_area.end_le hin.2 hin.1), spaces_not fun hc => ha hc.2]

namespace Inv

/-- A new page map holds zeros. -/
theorem spaces_newpmap {p : Frame} (h : Maps.Inv b s₀ σ G) (hr : G.kind r = .free) (hp : G.kind p = .free) (hne : r ≠ p) :
    ({ σ with mem := σ.mem.newpmap b r p }.addRoot r).spaces b = σ.spaces b := by
  have hzero : (σ.mem.newpmap b r p).page b.zero = Page.zeros := by
    refine (newpmap_page ?_ ?_).trans h.zeros
    · rintro e
      rw [← e, h.zero] at hr
      cases hr
    · rintro e
      rw [← e, h.zero] at hp
      cases hp
  have hroot : ∀ r', ({ σ with mem := σ.mem.newpmap b r p }.addRoot r).IsRoot r' ↔ r' = r ∨ σ.IsRoot r' := fun r' => by
    unfold Maps.IsRoot Maps.addRoot
    rw [List.map_cons, List.mem_cons]
  have hempty : ∀ a, UserVa a → (viewAt b (σ.mem.newpmap b r p) a nptLvls r).page = Page.zeros := by
    intro a ha
    have hm : Kind.maps .root a := ha
    have hnone : ∀ {l t}, ((σ.mem.newpmap b r p).entry t (pdx (l + 1) a)).frame = b.zero →
        (viewAt b (σ.mem.newpmap b r p) a (l + 1) t).page = Page.zeros := fun hz => by rw [viewAt_none hz, hzero]
    have hlt : pdx 3 a < 256 := by simpa [Kind.user] using Kind.maps_user (k := .root) rfl hm
    rcases Nat.eq_zero_or_pos (pdx 3 a) with h0 | hpos
    · have hzp : ((σ.mem.newpmap b r p).entry r (pdx 3 a)).frame = p := by
        rw [h0, newpmap_entry_zero hne]
        rfl
      have hpz : p ≠ b.zero := by
        rintro rfl
        rw [h.zero] at hp
        cases hp
      have hlow : Kind.maps .low a := by
        have hk := Kind.maps_kid (k := .root) (l := 2) rfl hm
        rwa [h0] at hk
      rw [viewAt_some (by rw [hzp]; exact hpz), hzp]
      exact hnone (by rw [newpmap_low_user hlow (pdx_lt 2 a)]; rfl)
    · exact hnone (by rw [newpmap_entry_user hne hpos hlt]; rfl)
  funext r' a
  by_cases ha : UserVa a
  · by_cases hr' : r' = r
    · subst hr'
      have hnot : ¬σ.IsRoot r' := fun hσ => by
        rw [h.is_root hσ] at hr
        cases hr
      rw [spaces_of ((hroot r').2 (.inl rfl)) ha, spaces_not fun hc => hnot hc.1]
      change (viewAt b (σ.mem.newpmap b r' p) a nptLvls r').page.byte _ = 0
      rw [hempty a ha, Page.zeros_byte]
    · by_cases hσ : σ.IsRoot r'
      · rw [spaces_of ((hroot r').2 (.inr hσ)) ha, spaces_of hσ ha]
        change (viewAt b (σ.mem.newpmap b r p) a nptLvls r').page.byte _ = _
        rw [newpmap_view h.toWhole hr hp (h.level hσ) (h.maps hσ ha)]
      · rw [spaces_not fun hc => hσ hc.1, spaces_not fun hc => ((hroot r').1 hc.1).elim hr' hσ]
  · rw [spaces_not fun hc => ha hc.2, spaces_not fun hc => ha hc.2]

end Inv

end Maps

/-- The notes of what can be seen of the sharing. -/
def spaceDefects : List Note := mergeDefects ++ [.farCopy]

theorem defects_space : ∀ n ∈ defects, n ∈ spaceDefects := by
  simp [defects, spaceDefects, mergeDefects, copyDefects, tableDefects]

/-- **A call** does to the bytes of the page maps what it is to do to separate memories. -/
theorem PmapCall.exec_spaces (h : Maps.Inv b s₀ σ G) (hc : c.Allowed σ) (hp : c.Plain b σ) :
    Ends {n | n ∈ spaceDefects} (c.exec b) σ (fun _ τ => τ.spaces b = SpaceOp.run (c.ops b σ) (σ.spaces b))
      fun _ _ => True := by
  have hN : ∀ n ∈ mergeDefects, n ∈ {n | n ∈ spaceDefects} := fun n hn => List.mem_append_left _ hn
  have hig : Note.ignored ∈ {n | n ∈ spaceDefects} := hN _ (by simp [mergeDefects, copyDefects])
  have hfar : Note.farCopy ∈ {n | n ∈ spaceDefects} := List.mem_append_right _ (by simp)
  have hcopy : CopyNotes {n | n ∈ spaceDefects} := by
    refine ⟨hN _ ?_, hN _ ?_, hN _ ?_⟩ <;> simp [mergeDefects, copyDefects]
  have hroot : ∀ s' r, Maps.IsRoot { σ with mem := s' } r ↔ σ.IsRoot r := fun _ _ => Iff.rfl
  cases c with
  | newpmap =>
    refine ends_bind (ends_onMem ((pmapNewpmap_ends h.toSound).mono ?_ fun _ _ _ => trivial))
    rintro r s ⟨p, hr, hp, hne, rfl, -⟩
    exact ends_modify (h.spaces_newpmap hr hp hne)
  | alloc =>
    refine ends_bind (ends_onMem (ends_memAlloc (fun _ => ?_) fun pi hpi => ?_))
    · exact ends_pure.2 (Maps.same_page rfl rfl).spaces
    · exact ends_modify (Maps.same_page rfl rfl).spaces
  | fill pi pg =>
    refine ends_onMem (ends_modify (Maps.Same.spaces ⟨hroot _, fun r a hr ha => ?_⟩))
    exact ((h.apart_fill (c := .fill pi pg) hc pg).other r a hr (by simp [target]) ha).page
  | walk r va writing =>
    refine ends_bind (ends_onMem ((pmapWalk_ends h.toSound (h.is_root hc.1) hc.2).imp ?_))
    rintro x s ⟨-, G', -, hu⟩
    exact ends_pure.2 (h.same_unseen hu).spaces
  | insert r pi va perm =>
    obtain ⟨hr, hpi, hu⟩ := hc
    have hk := (h.held pi).2 (.inr hpi)
    refine ends_bind (ends_onMem ((pmapInsert_ends h.toSound (h.is_root hr) hu (.inl ⟨hk, h.pages pi hpi⟩)).run.imp ?_))
    rintro x s ⟨⟨rfl, G', hw⟩ | ⟨t, G₁, s₁, rfl, hi⟩, hret⟩
    · refine ends_pure.2 ?_
      rw [ops, if_pos hret.val]
      exact (h.same_unseen hw.tame).spaces
    · refine ends_modify ?_
      rw [ops, if_neg (by rw [hret.val]; simp)]
      exact Maps.Changes.put ((h.changes_range hr hu hi.mapping.acts).mono fun a _ hin => hin.mapped) (hroot s) hr hu
  | remove r va size =>
    refine ends_onMem ((pmapRemove_ends (C := True) (fun _ => hig) h.toSound (h.is_root hc.1) hc.2).imp ?_)
    rintro _ s ⟨G', hl⟩
    exact Maps.Changes.clear (h.cleared hc.1 hc.2.user trivial hl) (hroot s) hc.1
  | copy sr sva dr dva size =>
    obtain ⟨hsr, hdr, hreg⟩ := hc
    refine ends_onMem ((pmapCopy_takes hcopy h.toSound (h.is_root hsr) (h.is_root hdr) hp hreg).imp ?_)
    rintro _ s ⟨G', hl⟩
    exact Maps.Changes.copied (h.changes_range hdr hreg.dest (hl.acts trivial)) (hroot s) hsr hdr hreg
  | merge rr sr sva dr dva size =>
    obtain ⟨hrr, hsr, hdr, hreg⟩ := hc
    obtain ⟨hrd, hsd, hw⟩ := hp
    have hjoin : JoinNotes {n | n ∈ spaceDefects} := by
      refine ⟨⟨hN _ ?_, hN _ ?_, hN _ ?_, fun _ => ⟨⟨hN _ ?_, hN _ ?_, hN _ ?_⟩, hN _ ?_⟩⟩, hN _ ?_, hN _ ?_, hN _ ?_⟩ <;>
        simp [mergeDefects, copyDefects, tableDefects]
    have hsame : pmapMergeLook b (roundCheck b true rr sr dr) rr sr sva dr dva size σ.mem =
        pmapMerge b rr sr sva dr dva size σ.mem := by
      refine (mergeLook_guards fun _ _ _ _ x => roundCheck_guards x).same_of_ne ?_
      rintro e rfl
      exact hw
    have hends := pmapMerge_joins hjoin h.toSound h.zeros (h.is_root hrr) (h.is_root hsr) (h.is_root hdr) hrd hsd hreg
    refine ends_onMem ((hends.congr hsame).imp ?_)
    rintro _ s ⟨G', hl⟩
    exact Maps.Changes.merged (h.changes_range hdr hreg.dest (hl.acts trivial)) (hroot s) hrr hsr hdr hreg
  | setperm r va size perm =>
    refine ends_onMem ((pmapSetperm_ends hig h.toSound (h.is_root hc.1) hc.2.1 hc.2.2).imp ?_)
    rintro _ s ⟨G', hl⟩
    refine Maps.Same.spaces (Maps.Changes.same (h.changes_range hc.1 hc.2.1.user (hl.acts trivial)) (hroot s) ?_)
    exact fun a v v' hin => hin.page fun hp => hp.page
  | fault r va write depth =>
    obtain ⟨hr, ht⟩ := hc
    refine ends_bind (ends_onMem ?_)
    cases depth with
    | zero => exact ends_panic trivial
    | succ depth =>
      have hnone : translate σ.mem va true nptLvls r = none := by
        cases write with
        | false => exact translate_write ht
        | true => exact ht
      refine (pmapPagefault_ends hig hfar h.toSound (h.is_root hr) hnone).mono ?_ fun _ _ _ => trivial
      rintro x s (⟨-, -, -, G', -, hu⟩ | ⟨-, hres, e, G', hdone⟩)
      · exact ends_pure.2 (h.same_unseen hu).spaces
      · refine ends_pure.2 (Maps.Same.spaces ⟨hroot s, fun r' a hr' ha => ?_⟩)
        have hch := h.changes_range hr hres.user hdone.mapping.acts
        by_cases he : r' = r
        · subst he
          refine (hch.self a ha).mapped.trans ?_
          split
          · rename_i hd
            rw [viewAt_div hd]
          · rfl
        · exact (hch.other r' a hr' he ha).page
  | store r va pg =>
    refine ends_onMem (ends_bind_get ?_)
    cases ht : translate σ.mem va true nptLvls r with
    | none =>
      refine ends_pure.2 ?_
      rw [ops, ht]
      rfl
    | some f =>
      refine ends_modify ?_
      rw [ops, ht]
      exact Maps.Changes.put (h.stored hc.1 hc.2 ht pg) (hroot _) hc.1 hc.2

/-! ## Runs -/

/-- Calls one after the other, with the operations that they are on the separate memories: the state they lead to, unless
one of them is not allowed or not plain, stops or makes a note of `spaceDefects`. -/
def plainRun (b : Boot) : List PmapCall → Maps → Option (List SpaceOp × Maps)
  | [], σ => some ([], σ)
  | c :: cs, σ =>
    match c.exec b σ with
    | ⟨.ok (), τ, w⟩ =>
      if c.Allowed σ ∧ c.Plain b σ ∧ ∀ n ∈ w, n ∉ spaceDefects then
        (plainRun b cs τ).map fun x => (c.ops b σ ++ x.1, x.2)
      else none
    | ⟨.error _, _, _⟩ => none

/-- The first call of a run. -/
theorem plainRun_cons {cs : List PmapCall} {os : List SpaceOp} (h : plainRun b (c :: cs) σ = some (os, τ)) :
    ∃ σ' os', c.Allowed σ ∧ c.Plain b σ ∧ Returns {n | n ∈ spaceDefects} (c.exec b) σ () σ' ∧
      plainRun b cs σ' = some (os', τ) ∧ os = c.ops b σ ++ os' := by
  rw [plainRun] at h
  rcases hout : c.exec b σ with ⟨_ | u, σ', w⟩ <;> rw [hout] at h
  · cases h
  · simp only at h
    split at h
    case isFalse => cases h
    case isTrue hok =>
      obtain ⟨⟨os', τ'⟩, hrun, he⟩ := Option.map_eq_some_iff.1 h
      obtain ⟨rfl, rfl⟩ := Prod.mk.inj he
      refine ⟨σ', os', hok.1, hok.2.1, ⟨?_, ?_, ?_⟩, hrun, rfl⟩
      · rw [hout]
      · rw [hout]
      · rw [hout]
        exact hok.2.2

/-- One call of a run. -/
theorem Reach.plain (hb : Booted b s₀) (h : Reach b (fun _ => True) defects s₀ σ) (hc : c.Allowed σ) (hp : c.Plain b σ)
    (hret : Returns {n | n ∈ spaceDefects} (c.exec b) σ () τ) :
    Reach b (fun _ => True) defects s₀ τ ∧ τ.spaces b = SpaceOp.run (c.ops b σ) (σ.spaces b) := by
  obtain ⟨G, hG⟩ := h.inv hb fun c _ => c.defects_subset
  exact ⟨h.call trivial hc ⟨hret.val, hret.state, fun n hn hd => hret.notes n hn (defects_space n hd)⟩,
    (PmapCall.exec_spaces hG hc hp).of_returns hret⟩

theorem Reach.plainRun {cs : List PmapCall} {os : List SpaceOp} (hb : Booted b s₀)
    (h : Reach b (fun _ => True) defects s₀ σ) (hrun : plainRun b cs σ = some (os, τ)) :
    Reach b (fun _ => True) defects s₀ τ := by
  induction cs generalizing σ os with
  | nil =>
    obtain ⟨rfl, rfl⟩ := Prod.mk.inj (Option.some.inj hrun)
    exact h
  | cons c cs ih =>
    obtain ⟨σ', os', hc, hp, hret, hrest, rfl⟩ := plainRun_cons hrun
    exact ih (h.plain hb hc hp hret).1 hrest

theorem plainRun_spaces {cs : List PmapCall} {os : List SpaceOp} (hb : Booted b s₀)
    (h : Reach b (fun _ => True) defects s₀ σ) (hrun : plainRun b cs σ = some (os, τ)) :
    τ.spaces b = SpaceOp.run os (σ.spaces b) := by
  induction cs generalizing σ os with
  | nil =>
    obtain ⟨rfl, rfl⟩ := Prod.mk.inj (Option.some.inj hrun)
    rfl
  | cons c cs ih =>
    obtain ⟨σ', os', hc, hp, hret, hrest, rfl⟩ := plainRun_cons hrun
    obtain ⟨h', hs⟩ := h.plain hb hc hp hret
    rw [ih h' hrest, SpaceOp.run_append, hs]

/-- After booting there are no page maps. -/
theorem spaces_boot (b : Boot) (s₀ : Mem) : Maps.spaces b ⟨s₀, [], []⟩ = fun _ _ => 0 := by
  funext r a
  exact Maps.spaces_not fun hc => absurd hc.1 (by simp [Maps.IsRoot])

/-- **The page maps are separate memories**: in a run, the bytes that are found through them are those that the operations
on separate memories make. -/
theorem run_simulates {cs : List PmapCall} {os : List SpaceOp} (hb : Booted b s₀)
    (hrun : plainRun b cs ⟨s₀, [], []⟩ = some (os, τ)) : τ.spaces b = SpaceOp.run os fun _ _ => 0 := by
  rw [plainRun_spaces hb .boot hrun, spaces_boot]

/-- A page of one page map is copied to another, and both are written. -/
theorem run_simulates_sample : ∃ os τ, plainRun sampleBoot [.newpmap, .newpmap, .alloc,
      .insert 0x1000 0x1004 0x40001000 (sysRW ||| pteU ||| pteA), .copy 0x1000 0x40001000 0x1002 0x40001000 4096, .alloc,
      .fault 0x1000 0x40001000 true 1, .store 0x1000 0x40001000 sampleBoot.bootpmap] ⟨freshMem samplePages, [], []⟩ =
        some (os, τ) ∧ os.length = 3 ∧ τ.spaces sampleBoot = SpaceOp.run os fun _ _ => 0 := by
  have hrun : (plainRun sampleBoot [.newpmap, .newpmap, .alloc,
      .insert 0x1000 0x1004 0x40001000 (sysRW ||| pteU ||| pteA), .copy 0x1000 0x40001000 0x1002 0x40001000 4096, .alloc,
      .fault 0x1000 0x40001000 true 1, .store 0x1000 0x40001000 sampleBoot.bootpmap]
        ⟨freshMem samplePages, [], []⟩).any (fun x => x.1.length = 3) = true := by
    decide +kernel
  rw [Option.any_eq_true] at hrun
  obtain ⟨⟨os, τ⟩, hrun, hlen⟩ := hrun
  exact ⟨os, τ, hrun, of_decide_eq_true hlen, run_simulates sample_booted hrun⟩

end Determinator
