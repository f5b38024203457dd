import Determinator.Kern.Meminit
import Determinator.Mem.FreeList

/-!
# The pages that are handed out

What the free list holds after `mem_init`, for an arbitrary list of address ranges. The code keeps
two numbers of the ranges: the size of the usable ranges that begin below `MEM_EXT`, which it takes
for one range from address `0`, and the end of the last range, up to which it takes all memory after
the kernel for usable. `memInit_usable_iff` says for which ranges the pages of the free list are
usable memory.
-/

namespace Determinator

open PanicM FreeList

/-! ## The free list that is built -/

/-- The threaded list in the memory when the last link is cleared. -/
def threadOf (s : Mem) : Link Frame → Thread Frame
  | .head => ⟨none, s.freeNext, .head⟩
  | .next f => ⟨s.freelist, Function.update s.freeNext f none, .next f⟩

/-- The free pages among those given, in order. -/
def freePages (basemem past : ℕ) (is : List ℕ) : List Frame :=
  (is.filter fun i => isFree basemem past i).map (BitVec.ofNat 40)

variable {basemem past npage last : ℕ} {ranges : List MemRange} {s t : Mem} {tail : Link Frame}
  {l : List Frame} {f : Frame}

theorem threadOf_push (h : (threadOf s tail).Holds l) (hf : f ∉ l) :
    (threadOf (s.setLink tail (some f)) (.next f)).Holds (l ++ [f]) := by
  have hp := h.push hf
  cases tail with
  | head => exact hp
  | next c =>
    have hc : c ∈ l := Thread.mem_of_lastLink h.tail.symm
    have hne : c ≠ f := fun e => hf (e ▸ hc)
    have heq : threadOf (s.setLink (.next c) (some f)) (.next f) = (threadOf s (.next c)).push f := by
      simp only [threadOf, Mem.setLink, Thread.push, Thread.mk.injEq, true_and, and_true]
      rw [Function.update_comm hne, Function.update_comm hne, Function.update_idem]
    rw [heq]
    exact hp

theorem threadOf_close (h : (threadOf s tail).Holds l) :
    Chain (s.setLink tail none).freeNext (s.setLink tail none).freelist l := by
  have hc := h.chain
  cases tail with
  | head => exact hc
  | next c => exact hc

theorem threadOf_congr (hn : t.freeNext = s.freeNext) (hl : t.freelist = s.freelist) :
    threadOf t tail = threadOf s tail := by
  cases tail <;> simp only [threadOf, hn, hl]

theorem freePages_cons (i : ℕ) (is : List ℕ) : freePages basemem past (i :: is) =
    if isFree basemem past i then BitVec.ofNat 40 i :: freePages basemem past is
    else freePages basemem past is := by
  unfold freePages
  rw [List.filter_cons]
  split <;> rfl

/-- The loop over the pages puts the free ones on the list, and sets the counts. -/
theorem chainPages_spec (is : List ℕ) (hn : (is.map (BitVec.ofNat 40)).Nodup)
    (hd : ∀ f ∈ l, f ∉ is.map (BitVec.ofNat 40)) (h : (threadOf s tail).Holds l)
    (hr : ∀ f ∈ l, s.refcount f = 0) :
    Meets ∅ (chainPages basemem past tail is) s fun tail' t =>
      (threadOf t tail').Holds (l ++ freePages basemem past is) ∧
      ∀ f ∈ l ++ freePages basemem past is, t.refcount f = 0 := by
  induction is generalizing s tail l with
  | nil =>
    refine ends_pure.2 ?_
    rw [show freePages basemem past [] = [] from rfl, List.append_nil]
    exact ⟨h, hr⟩
  | cons i is ih =>
    set f := BitVec.ofNat 40 i with hf
    rw [List.map_cons, ← hf, List.nodup_cons] at hn
    have hfl : f ∉ l := fun hm => hd f hm (by simp [hf])
    have hd' : ∀ g ∈ l, g ∉ is.map (BitVec.ofNat 40) := fun g hg hm =>
      hd g hg (by rw [List.map_cons]; exact List.mem_cons_of_mem _ hm)
    have hset : ∀ n, ∀ g ∈ l, (s.setRef f n).refcount g = 0 := by
      intro n g hg
      exact (Function.update_of_ne (fun e : g = f => hfl (e ▸ hg)) _ _).trans (hr g hg)
    unfold chainPages chainPage
    rw [freePages_cons, ← hf]
    refine ends_bind (ends_bind (ends_modify ?_))
    by_cases hi : isFree basemem past i = true
    · simp only [hi, if_true]
      refine ends_bind (ends_modify (ends_pure.2 ?_))
      rw [show l ++ f :: freePages basemem past is = (l ++ [f]) ++ freePages basemem past is by
        simp]
      refine ih hn.2 ?_ ?_ ?_
      · intro g hg
        rcases List.mem_append.1 hg with hg | hg
        · exact hd' g hg
        · rw [List.mem_singleton.1 hg]
          exact hn.1
      · refine threadOf_push ?_ hfl
        rw [threadOf_congr rfl rfl]
        exact h
      · intro g hg
        have hset' : ((s.setRef f 0).setLink tail (some f)).refcount = (s.setRef f 0).refcount := by
          cases tail <;> rfl
        rw [hset']
        rcases List.mem_append.1 hg with hg | hg
        · exact hset 0 g hg
        · rw [List.mem_singleton.1 hg]
          exact Function.update_self ..
    · simp only [hi]
      refine ends_pure.2 (ih hn.2 hd' ?_ ?_)
      · rw [threadOf_congr rfl rfl]
        exact h
      · exact hset _

/-! ## The check -/

theorem ends_takeThree {a c d : Frame} {E : Panic → Mem → Prop}
    {Q : Frame × Frame × Frame → Mem → Prop} (ha : s.freelist = some a)
    (hc : s.freeNext a = some c) (hd : s.freeNext c = some d) (hac : c ≠ a) (hcd : d ≠ c)
    (had : d ≠ a) (hQ : Q (a, c, d) { s with
      freelist := s.freeNext d
      freeNext := Function.update (Function.update (Function.update s.freeNext a none) c none) d
        none }) : Ends ∅ takeThree s Q E := by
  have hc' : (s.taken a).freelist = some c := hc
  have hd' : ((s.taken a).taken c).freelist = some d := (Function.update_of_ne hac _ _).trans hd
  have hlast : ((s.taken a).taken c).freeNext d = s.freeNext d :=
    (Function.update_of_ne hcd _ _).trans (Function.update_of_ne had _ _)
  have halloc : ∀ {u : Mem} {f : Frame} {P : Option Frame → Mem → Prop}, u.freelist = some f →
      P (some f) (u.taken f) → Ends ∅ memAlloc u P E := by
    intro u f P hu hP
    refine ends_memAlloc (fun h => ?_) fun pi h => ?_
    · rw [hu] at h
      cases h
    · obtain rfl := Option.some.inj (hu.symm.trans h)
      exact hP
  unfold takeThree
  refine ends_bind (halloc ha (ends_bind (halloc hc' (ends_bind (halloc hd' ?_)))))
  refine ends_bind_check ⟨hac, hcd, had⟩ (ends_pure.2 ?_)
  simp only [Mem.taken] at hlast ⊢
  rw [hlast]
  exact hQ

/-- Counting the pages of a list. -/
theorem count_spec {E : Panic → Mem → Prop} {Q : Option Frame × ℕ → Mem → Prop} (u : Mem)
    (hc : Chain s.freeNext s.freelist l) (hl : l.length ≤ npage) (hQ : Q (none, l.length) u) :
    Ends (∅ : Set Note) (whileM .spin (fun x : Option Frame × ℕ => x.1.isSome)
      (fun x => pure (x.1.bind s.freeNext, x.2 + 1)) npage (s.freelist, 0)) u Q E := by
  refine ends_whileM (I := fun x t => t = u ∧ ∃ m, Chain s.freeNext x.1 m ∧
    l.length = x.2 + m.length) (fun x => l.length - x.2) ?_ ?_ ?_ _ _ _ (by simpa using hl)
    ⟨rfl, l, hc, by simp⟩
  · rintro ⟨p, k⟩ t ⟨-, m, hm, hk⟩ hp
    cases m with
    | nil =>
      rw [show p = none from hm] at hp
      cases hp
    | cons a m =>
      simp only [List.length_cons] at hk ⊢
      omega
  · rintro ⟨p, k⟩ t ⟨rfl, m, hm, hk⟩ hp
    refine ends_pure.2 ?_
    cases m with
    | nil =>
      rw [show p = none from hm] at hp
      cases hp
    | cons a m =>
      obtain ⟨rfl, hm⟩ := hm
      simp only [List.length_cons] at hk ⊢
      exact ⟨⟨trivial, m, hm, by omega⟩, by omega⟩
  · rintro ⟨p, k⟩ t ⟨rfl, m, hm, hk⟩ hp
    obtain rfl : p = none := by simpa using hp
    cases m with
    | nil =>
      obtain rfl : l.length = k := by simpa using hk
      exact hQ
    | cons a m => cases hm.1

/-- `mem_check` leaves the list as it is, and passes when the number of pages is in range. -/
theorem memCheck_spec (hc : Chain s.freeNext s.freelist l) (hn : l.Nodup)
    (hr : ∀ f ∈ l, s.refcount f = 0) (hlt : ∀ f ∈ l, f.toNat < npage) (hl : l.length ≤ npage) :
    Ends ∅ (memCheck npage) s
      (fun _ t => t.freelist = s.freelist ∧ t.freeNext = s.freeNext)
      (fun _ _ => ¬(16000 < l.length ∧ l.length < npage)) := by
  unfold memCheck
  refine ends_bind_get (ends_bind (count_spec s hc hl ?_))
  refine ends_bind (ends_check (fun hlo => ?_) fun h => by omega)
  refine ends_bind (ends_check (fun hhi => ?_) fun h => by omega)
  obtain ⟨a, c, d, r, rfl⟩ : ∃ a c d r, l = a :: c :: d :: r := by
    match l, hhi with
    | a :: c :: d :: r, _ => exact ⟨a, c, d, r, rfl⟩
  obtain ⟨ha, hc', hd, hrest⟩ := hc
  simp only [List.nodup_cons, List.mem_cons, not_or] at hn
  obtain ⟨⟨hac, had, -⟩, ⟨hcd, -⟩, -⟩ := hn
  have hr' : s.refcount a = 0 ∧ s.refcount c = 0 ∧ s.refcount d = 0 :=
    ⟨hr a (by simp), hr c (by simp), hr d (by simp)⟩
  refine ends_bind (ends_takeThree ha hc' hd (Ne.symm hac) (Ne.symm hcd) (Ne.symm had) ?_)
  refine ends_bind_check ⟨hlt a (by simp), hlt c (by simp), hlt d (by simp)⟩ ?_
  refine ends_bind_get (ends_bind (ends_modify (ends_bind (ends_memAlloc (fun _ => ?_) nofun))))
  refine ends_bind_check rfl ?_
  -- the three pages are freed, taken again in the opposite order and freed once more
  refine ends_bind (ends_memFree hr'.1 (by simp [hac, had]) ?_)
  refine ends_bind (ends_memFree hr'.2.1 (by simp [Mem.given, hcd, Ne.symm hac]) ?_)
  refine ends_bind (ends_memFree hr'.2.2 (by simp [Mem.given, Ne.symm hcd, Ne.symm had]) ?_)
  refine ends_bind (ends_takeThree (a := d) (c := c) (d := a) rfl ?_ ?_ hcd hac had ?_)
  · simp [Mem.given]
  · simp [Mem.given, hcd]
  refine ends_bind (ends_memAlloc (fun _ => ends_bind_check rfl (ends_bind (ends_modify ?_))) ?_)
  · refine ends_bind (ends_memFree hr'.2.2 (by simp [Mem.given, Ne.symm hcd, Ne.symm had]) ?_)
    refine ends_bind (ends_memFree hr'.2.1 (by simp [Mem.given, hcd, Ne.symm hac]) ?_)
    refine ends_memFree hr'.1 (by simp [Mem.given, hac, had]) ⟨ha.symm, ?_⟩
    funext g
    rcases eq_or_ne g a with rfl | hga
    · simp [Mem.given, hc']
    rcases eq_or_ne g c with rfl | hgc
    · simp [Mem.given, hga, hd]
    rcases eq_or_ne g d with rfl | hgd
    · simp [Mem.given, hga, hgc]
    · simp [Mem.given, hga, hgc, hgd]
  · intro pi h
    simp [Mem.given, hac, had] at h

/-! ## The pages -/

/-- The totals of a list of ranges. -/
def memTotals (ranges : List MemRange) : MemScan := ranges.foldl MemScan.add ⟨0, 0⟩

/-- `mem_npage`, for a list of ranges. -/
def memNpage (ranges : List MemRange) : ℕ := (memTotals ranges).memMax.toNat / pageSize

/-- The pages `mem_init` looks at. -/
def memPages (ranges : List MemRange) : ℕ := min (memNpage ranges) (2 ^ 31)

/-- The pages that the usable ranges which begin below `MEM_EXT` would fill from address `0`. -/
def basePages (ranges : List MemRange) : ℕ := (memTotals ranges).basemem.toNat / pageSize

/-- The first page after the `pageinfo` array. -/
def firstFree (last : ℕ) (ranges : List MemRange) : ℕ := freemem last (memNpage ranges) / pageSize

/-- The free list that `mem_init` builds. -/
def initialPages (last : ℕ) (ranges : List MemRange) : List Frame :=
  freePages (memTotals ranges).basemem.toNat (freemem last (memNpage ranges))
    (List.range (memPages ranges))

theorem scanRanges_spec (x : MemScan) :
    Ends ∅ (scanRanges x ranges) s (fun y t => y = ranges.foldl MemScan.add x ∧ t = s)
      (fun _ _ => ∃ r ∈ ranges, r.size = 0) := by
  induction ranges generalizing x with
  | nil => exact ends_pure.2 ⟨rfl, rfl⟩
  | cons r rs ih =>
    unfold scanRanges
    refine ends_bind (ends_check (fun _ => ?_) fun h => ⟨r, by simp, ?_⟩)
    · refine (ih (x.add r)).mono (fun y t h => h) ?_
      rintro _ _ ⟨r', hr', h⟩
      exact ⟨r', List.mem_cons_of_mem r hr', h⟩
    · simpa using h

theorem nodup_pages {n : ℕ} (hn : n ≤ 2 ^ 31) :
    ((List.range n).map (BitVec.ofNat 40)).Nodup := by
  refine List.Nodup.map_on ?_ List.nodup_range
  intro i hi j hj h
  have hi := List.mem_range.1 hi
  have hj := List.mem_range.1 hj
  have := congrArg BitVec.toNat h
  rw [BitVec.toNat_ofNat, BitVec.toNat_ofNat, Nat.mod_eq_of_lt (by omega),
    Nat.mod_eq_of_lt (by omega)] at this
  exact this

theorem mem_initialPages : f ∈ initialPages last ranges ↔ f.toNat < memPages ranges ∧
    (1 < f.toNat ∧ f.toNat < basePages ranges ∨ firstFree last ranges ≤ f.toNat) := by
  have hn : memPages ranges ≤ 2 ^ 31 := Nat.min_le_right ..
  unfold initialPages freePages
  simp only [List.mem_map, List.mem_filter, List.mem_range, isFree, Bool.or_eq_true,
    Bool.and_eq_true, decide_eq_true_eq]
  constructor
  · rintro ⟨i, ⟨hi, h⟩, rfl⟩
    rw [BitVec.toNat_ofNat, Nat.mod_eq_of_lt (by omega)]
    exact ⟨hi, h⟩
  · rintro ⟨hi, h⟩
    exact ⟨f.toNat, ⟨hi, h⟩, by simp⟩

theorem nodup_initialPages : (initialPages last ranges).Nodup :=
  (nodup_pages (Nat.min_le_right ..)).sublist (List.filter_sublist.map _)

/-- `mem_init` returns if all ranges have a size and the number of free pages passes the check, and
then the free list is as built. -/
theorem memInit_spec : Ends ∅ (memInit last ranges) s
    (fun _ t => Chain t.freeNext t.freelist (initialPages last ranges))
    (fun _ _ => (∃ r ∈ ranges, r.size = 0) ∨ ¬(16000 < (initialPages last ranges).length ∧
      (initialPages last ranges).length < memNpage ranges)) := by
  unfold memInit
  refine ends_bind ((scanRanges_spec ⟨0, 0⟩).mono ?_ fun _ _ h => .inl h)
  rintro _ _ ⟨rfl, rfl⟩
  refine ends_bind (ends_modify (ends_bind ?_))
  have hlen : (initialPages last ranges).length ≤ memNpage ranges := by
    have h₁ : (initialPages last ranges).length ≤ (List.range (memPages ranges)).length := by
      unfold initialPages freePages
      rw [List.length_map]
      exact List.length_filter_le _ _
    rw [List.length_range] at h₁
    exact h₁.trans (Nat.min_le_left ..)
  refine (chainPages_spec (l := []) _ (nodup_pages (Nat.min_le_right ..)) (by simp) ?_ (by simp)).mono
    ?_ fun _ _ => nofun
  · exact ⟨rfl, List.nodup_nil, rfl⟩
  rintro tail t ⟨hh, hr⟩
  rw [List.nil_append] at hh hr
  refine ends_bind (ends_modify ?_)
  have hc := threadOf_close hh
  have href : (t.setLink tail none).refcount = t.refcount := by cases tail <;> rfl
  refine (memCheck_spec hc nodup_initialPages ?_ ?_ hlen).mono ?_ ?_
  · intro f hf
    rw [href]
    exact hr f hf
  · intro f hf
    exact (mem_initialPages.1 hf).1.trans_le (Nat.min_le_left ..)
  · rintro _ u ⟨h₁, h₂⟩
    rw [h₁, h₂]
    exact hc
  · intro _ _ h
    exact .inr h

theorem memInit_chain (h : (memInit last ranges s).val = .ok ()) :
    Chain (memInit last ranges s).state.freeNext (memInit last ranges s).state.freelist
      (initialPages last ranges) := by
  have hs := (@memInit_spec last ranges s).out fun _ _ => Set.notMem_empty _
  rw [h] at hs
  exact hs

theorem memInit_onList (h : (memInit last ranges s).val = .ok ()) :
    OnList (memInit last ranges s).state.freeNext (memInit last ranges s).state.freelist f ↔
      f ∈ initialPages last ranges :=
  State.onList_iff (memInit_chain h)

/-! ## Usable memory -/

/-- The page lies inside a range that is not reserved. -/
def InUsable (ranges : List MemRange) (i : ℕ) : Prop :=
  ∃ r ∈ ranges, r.type ≠ memReserved ∧ r.base.toNat ≤ i * pageSize ∧
    (i + 1) * pageSize ≤ r.base.toNat + r.size.toNat

/-- The page has a byte in `[lo, hi)`. -/
def Touches (i lo hi : ℕ) : Prop :=
  ∃ a, i * pageSize ≤ a ∧ a < (i + 1) * pageSize ∧ lo ≤ a ∧ a < hi

/-- The free list has each page once, and only pages of usable memory outside the first two pages,
the I/O hole, the kernel image and the `pageinfo` array. -/
structure HandsOutUsable (last : ℕ) (ranges : List MemRange) (s : Mem) : Prop where
  once : ∃ l, Chain s.freeNext s.freelist l ∧ l.Nodup
  usable : ∀ f, OnList s.freeNext s.freelist f → InUsable ranges f.toNat
  low : ∀ f, OnList s.freeNext s.freelist f → f.toNat ≠ 0 ∧ f.toNat ≠ 1
  io : ∀ f, OnList s.freeNext s.freelist f → ¬ Touches f.toNat memIo memExt
  image : ∀ f, OnList s.freeNext s.freelist f → ¬ Touches f.toNat memExt last
  array : ∀ f, OnList s.freeNext s.freelist f → ¬ Touches f.toNat (roundUp last pageinfoSize)
    (roundUp last pageinfoSize + pageinfoSize * memNpage ranges)

/-- The usable ranges that begin below `MEM_EXT` do not fill more than the pages up to the I/O
hole, and the pages that they would fill from address `0`, like all the pages after the `pageinfo`
array, do lie in usable ranges. -/
structure WellCovered (last : ℕ) (ranges : List MemRange) : Prop where
  below : basePages ranges ≤ memIo / pageSize ∨ memPages ranges ≤ memIo / pageSize
  base : ∀ i, 1 < i → i < basePages ranges → i < memPages ranges → InUsable ranges i
  rest : ∀ i, firstFree last ranges ≤ i → i < memPages ranges → InUsable ranges i

theorem le_roundUp (a : ℕ) {n : ℕ} (hn : 0 < n) : a ≤ roundUp a n := by
  unfold roundUp
  have := Nat.mod_lt (a + n - 1) hn
  omega

theorem roundUp_dvd (a n : ℕ) : n ∣ roundUp a n := Nat.dvd_sub_mod _

/-- The pages after the `pageinfo` array begin after it. -/
theorem firstFree_le {i : ℕ} (hi : firstFree last ranges ≤ i) :
    roundUp last pageinfoSize + pageinfoSize * memNpage ranges ≤ i * pageSize := by
  have hd : pageSize ∣ freemem last (memNpage ranges) := roundUp_dvd _ _
  have hle : roundUp last pageinfoSize + pageinfoSize * memNpage ranges
      ≤ freemem last (memNpage ranges) := le_roundUp _ (by decide)
  have hmul : freemem last (memNpage ranges) / pageSize * pageSize = freemem last (memNpage ranges) :=
    Nat.div_mul_cancel hd
  have : freemem last (memNpage ranges) / pageSize * pageSize ≤ i * pageSize :=
    Nat.mul_le_mul_right _ hi
  omega

theorem frame_toNat {i : ℕ} (hi : i < memPages ranges) : (BitVec.ofNat 40 i).toNat = i := by
  have hn : memPages ranges ≤ 2 ^ 31 := Nat.min_le_right ..
  rw [BitVec.toNat_ofNat, Nat.mod_eq_of_lt (by omega)]

/-- With the free list that `mem_init` builds, only usable memory is handed out if and only if the
ranges are as the code takes them to be. -/
theorem handsOutUsable_iff (hlast : memExt ≤ last)
    (hc : Chain t.freeNext t.freelist (initialPages last ranges)) :
    HandsOutUsable last ranges t ↔ WellCovered last ranges := by
  have hon : ∀ f, OnList t.freeNext t.freelist f ↔ f.toNat < memPages ranges ∧
      (1 < f.toNat ∧ f.toNat < basePages ranges ∨ firstFree last ranges ≤ f.toNat) :=
    fun f => (State.onList_iff hc).trans mem_initialPages
  have hround : last ≤ roundUp last pageinfoSize := le_roundUp _ (by decide)
  constructor
  · intro h
    refine ⟨?_, ?_, ?_⟩
    · by_contra hn
      rw [not_or, not_le, not_le] at hn
      -- the first page of the I/O hole is on the list
      have hf := frame_toNat hn.2
      refine h.io (BitVec.ofNat 40 (memIo / pageSize)) ((hon _).2 ?_) ?_
      · rw [hf]
        exact ⟨hn.2, .inl ⟨by decide, hn.1⟩⟩
      · rw [hf]
        exact ⟨memIo, by decide, by decide, by decide, by decide⟩
    · intro i h1 hb hi
      have hf := frame_toNat hi
      have := h.usable (BitVec.ofNat 40 i) ((hon _).2 (by rw [hf]; exact ⟨hi, .inl ⟨h1, hb⟩⟩))
      rwa [hf] at this
    · intro i h1 hi
      have hf := frame_toNat hi
      have := h.usable (BitVec.ofNat 40 i) ((hon _).2 (by rw [hf]; exact ⟨hi, .inr h1⟩))
      rwa [hf] at this
  · intro h
    have hlow : ∀ f : Frame, f.toNat < memPages ranges → f.toNat < basePages ranges →
        (f.toNat + 1) * pageSize ≤ memIo := by
      intro f hf hb
      have : f.toNat < memIo / pageSize := h.below.elim (fun h => by omega) fun h => by omega
      simp only [memIo, pageSize] at this ⊢
      omega
    have hhigh : ∀ f : Frame, firstFree last ranges ≤ f.toNat →
        roundUp last pageinfoSize + pageinfoSize * memNpage ranges ≤ f.toNat * pageSize :=
      fun f hf => firstFree_le hf
    have hext : memIo ≤ memExt := by decide
    refine ⟨⟨_, hc, nodup_initialPages⟩, ?_, ?_, ?_, ?_, ?_⟩
    · intro f hf
      obtain ⟨hn, ⟨h1, hb⟩ | hr⟩ := (hon f).1 hf
      · exact h.base _ h1 hb hn
      · exact h.rest _ hr hn
    · intro f hf
      obtain ⟨-, ⟨h1, -⟩ | hr⟩ := (hon f).1 hf
      · omega
      · have := hhigh f hr
        simp only [memExt, pageSize] at this hlast
        omega
    · rintro f hf ⟨a, ha, ha', hlo, hhi⟩
      obtain ⟨hn, ⟨-, hb⟩ | hr⟩ := (hon f).1 hf
      · have := hlow f hn hb
        omega
      · have := hhigh f hr
        omega
    · rintro f hf ⟨a, ha, ha', hlo, hhi⟩
      obtain ⟨hn, ⟨-, hb⟩ | hr⟩ := (hon f).1 hf
      · have := hlow f hn hb
        omega
      · have := hhigh f hr
        omega
    · rintro f hf ⟨a, ha, ha', hlo, hhi⟩
      obtain ⟨hn, ⟨-, hb⟩ | hr⟩ := (hon f).1 hf
      · have := hlow f hn hb
        omega
      · have := hhigh f hr
        omega

/-- Whenever `mem_init` returns, only usable memory is handed out if and only if the ranges are
`WellCovered`. -/
theorem memInit_usable_iff (hlast : memExt ≤ last) (h : (memInit last ranges s).val = .ok ()) :
    HandsOutUsable last ranges (memInit last ranges s).state ↔ WellCovered last ranges :=
  handsOutUsable_iff hlast (memInit_chain h)

theorem length_initialPages_lt (h0 : 0 < firstFree last ranges) (hn : 0 < memPages ranges) :
    (initialPages last ranges).length < memNpage ranges := by
  unfold initialPages freePages
  have hlt : ((List.range (memPages ranges)).filter fun i => isFree (memTotals ranges).basemem.toNat
      (freemem last (memNpage ranges)) i).length < (List.range (memPages ranges)).length := by
    rw [List.length_filter_lt_length_iff_exists]
    refine ⟨0, List.mem_range.2 hn, ?_⟩
    have hne : ¬ freemem last (memNpage ranges) / pageSize ≤ 0 := not_le.2 h0
    simp [isFree, hne]
  rw [List.length_map]
  rw [List.length_range] at hlt
  exact hlt.trans_le (Nat.min_le_left ..)

theorem le_length_initialPages :
    memPages ranges - firstFree last ranges ≤ (initialPages last ranges).length := by
  unfold initialPages freePages firstFree
  rw [List.length_map]
  induction memPages ranges with
  | zero => simp
  | succ n ih =>
    rw [List.range_succ, List.filter_append, List.length_append]
    by_cases hf : freemem last (memNpage ranges) / pageSize ≤ n
    · have : isFree (memTotals ranges).basemem.toNat (freemem last (memNpage ranges)) n = true := by
        simp [isFree, hf]
      simp only [List.filter_cons, this, if_true, List.filter_nil, List.length_singleton]
      omega
    · omega

/-- `mem_init` returns when the ranges have sizes and there are enough pages after the kernel. -/
theorem memInit_returns (hr : ∀ r ∈ ranges, r.size ≠ 0) (h0 : 0 < firstFree last ranges)
    (hp : 16000 < memPages ranges - firstFree last ranges) :
    (memInit last ranges s).val = .ok () := by
  have hs := (@memInit_spec last ranges s).out fun _ _ => Set.notMem_empty _
  cases hv : (memInit last ranges s).val with
  | ok _ => rfl
  | error e =>
    rw [hv] at hs
    rcases hs with ⟨r, hm, h⟩ | h
    · exact absurd h (hr r hm)
    · refine absurd ⟨?_, ?_⟩ h
      · exact hp.trans_le le_length_initialPages
      · exact length_initialPages_lt h0 (by omega)

/-- The ranges of a small machine: 128 MB, the last kilobyte of the base memory reserved. -/
def smallRanges : List MemRange :=
  [⟨0, 0x9fc00, 1⟩, ⟨0x9fc00, 0x400, 2⟩, ⟨0xf0000, 0x10000, 2⟩, ⟨0x100000, 0x7f00000, 1⟩]

/-- The same machine, with the ranges in full: the ROM below 4 GB is reserved. -/
def romRanges : List MemRange := smallRanges ++ [⟨0xfffc0000, 0x40000, 2⟩]

/-- Where the kernel image of the examples ends. -/
def imageEnd : ℕ := 0x200000

/-- A memory before `mem_init`. -/
def bootMem : Mem where
  page := fun _ => Page.zeros
  refcount := fun _ => 0
  freeNext := fun _ => none
  freelist := none
  dry := false

theorem memInit_usable_small :
    HandsOutUsable imageEnd smallRanges (memInit imageEnd smallRanges bootMem).state := by
  have hp : memPages smallRanges = 0x8000 := by decide
  have hf : firstFree imageEnd smallRanges = 0x381 := by decide
  have hb : basePages smallRanges = 0x9f := by decide
  refine (memInit_usable_iff (by decide) (memInit_returns (by decide) ?_ ?_)).2 ⟨?_, ?_, ?_⟩
  · omega
  · omega
  · rw [hb]
    decide
  · intro i _ hi _
    rw [hb] at hi
    refine ⟨_, List.mem_cons_self, by decide, Nat.zero_le _, ?_⟩
    change (i + 1) * 4096 ≤ 0 + 0x9fc00
    omega
  · intro i hi hn
    rw [hf] at hi
    rw [hp] at hn
    refine ⟨⟨0x100000, 0x7f00000, 1⟩, by decide, by decide, ?_, ?_⟩
    · change 0x100000 ≤ i * 4096
      omega
    · change (i + 1) * 4096 ≤ 0x100000 + 0x7f00000
      omega

/-- With the ROM among the ranges, the page at 128 MB is handed out, where there is no memory. -/
theorem memInit_hole : (memInit imageEnd romRanges bootMem).val = .ok () ∧
    OnList (memInit imageEnd romRanges bootMem).state.freeNext
      (memInit imageEnd romRanges bootMem).state.freelist 0x8000 ∧
    ¬ InUsable romRanges (0x8000 : Frame).toNat ∧
    ¬ HandsOutUsable imageEnd romRanges (memInit imageEnd romRanges bootMem).state := by
  have hp : memPages romRanges = 0x100000 := by decide
  have hf : firstFree imageEnd romRanges = 0x3201 := by decide
  have hv : (memInit imageEnd romRanges bootMem).val = .ok () := by
    refine memInit_returns (by decide) ?_ ?_
    · omega
    · omega
  have hm : (0x8000 : Frame) ∈ initialPages imageEnd romRanges := by
    rw [mem_initialPages, hp, hf]
    decide
  have hon := (memInit_onList hv).2 hm
  have hno : ¬ InUsable romRanges (0x8000 : Frame).toNat := by
    unfold InUsable
    decide
  exact ⟨hv, hon, hno, fun h => hno (h.usable _ hon)⟩

end Determinator
