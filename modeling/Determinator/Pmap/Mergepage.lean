import Determinator.Pmap.Calls

/-!
# Merging a page

The law of `pmap_mergepage`, for any memory in which the destination's page is in use and the first page of
the free list is not (`Mergeable`): the invariant gives that for the entries of a merge. The destination's
page is made its own first; so neither the page of the reference nor that of the source is written, although
the entries may all point to one page.
-/

namespace Determinator

open PanicM

/-! ## Bytes -/

section

variable {n i j k : ℕ} {w : BitVec n} {v : BitVec 8}

theorem putByte_getLsbD (m : ℕ) (hm : m < n) :
    (putByte w j v).getLsbD m = if 8 * j ≤ m ∧ m < 8 * j + 8 then v.getLsbD (m - 8 * j) else w.getLsbD m := by
  have h255 (k : ℕ) (hk : k < n) : (0xff : BitVec n).getLsbD k = decide (k < 8) := by
    change (BitVec.ofNat n 255).getLsbD k = _
    rw [BitVec.getLsbD_ofNat, decide_eq_true hk, Bool.true_and]
    exact Nat.testBit_two_pow_sub_one 8 k
  rw [putByte, BitVec.getLsbD_or, BitVec.getLsbD_and, BitVec.getLsbD_not, BitVec.getLsbD_shiftLeft,
    BitVec.getLsbD_shiftLeft, BitVec.getLsbD_setWidth, h255 _ (by omega), decide_eq_true hm,
    decide_eq_true (show m - 8 * j < n by omega)]
  by_cases h : m < 8 * j
  · rw [if_neg (by omega), decide_eq_true h]
    simp
  by_cases h' : m < 8 * j + 8
  · rw [if_pos (by omega), decide_eq_false h, decide_eq_true (show m - 8 * j < 8 by omega)]
    simp
  · rw [if_neg (by omega), decide_eq_false h, decide_eq_false (show ¬ m - 8 * j < 8 by omega),
      BitVec.getLsbD_of_ge v (m - 8 * j) (by omega)]
    simp

theorem byteOf_putByte (hj : 8 * j + 8 ≤ n) (hk : 8 * k + 8 ≤ n) :
    byteOf (putByte w j v) k = if k = j then v else byteOf w k := by
  ext m hm
  rw [byteOf, BitVec.getElem_extractLsb', putByte_getLsbD _ (by omega)]
  by_cases h : k = j
  · subst h
    rw [if_pos (by omega), if_pos rfl, Nat.add_sub_cancel_left]
    rfl
  · rw [if_neg (by omega)]
    simp [h, byteOf]

end

variable {i k n : ℕ} {v : BitVec 8} {r e d : Page}

theorem Page.byte_setByte (hi : i < pageSize) (hk : k < pageSize) :
    (d.setByte i v).byte k = if k = i then v else d.byte k := by
  have hf (a c : ℕ) (ha : a < 512) (hc : c < 512) : Fin.ofNat nptEntries a = Fin.ofNat nptEntries c ↔ a = c :=
    ⟨fin_ofNat_inj ha hc, fun h => by rw [h]⟩
  have hi : i < 4096 := hi
  have hk : k < 4096 := hk
  rw [Page.byte, Page.setByte, Function.update_apply]
  split
  next h =>
    rw [hf _ _ (by omega) (by omega)] at h
    rw [Pte.word_ofWord, byteOf_putByte (by omega) (by omega)]
    by_cases hki : k = i
    · subst hki
      rw [if_pos rfl, if_pos rfl]
    · rw [if_neg (by omega), if_neg hki, Page.byte, h]
  next h =>
    rw [hf _ _ (by omega) (by omega)] at h
    rw [if_neg (by rintro rfl; exact h rfl)]
    rfl

/-- Merging stops at the first conflict. -/
theorem mergeBytes_ok (hn : i + n ≤ pageSize) :
    (mergeBytes r e n i d).2 = true ↔ ∀ k, i ≤ k → k < i + n → e.byte k = r.byte k ∨ d.byte k = r.byte k := by
  induction n generalizing i d with
  | zero => exact ⟨fun _ k hk hk' => by omega, fun _ => rfl⟩
  | succ n ih =>
    have hrest (d' : Page) (hd : ∀ k, i < k → k < pageSize → d'.byte k = d.byte k)
        (hi : e.byte i = r.byte i ∨ d.byte i = r.byte i) :
        (mergeBytes r e n (i + 1) d').2 = true ↔
          ∀ k, i ≤ k → k < i + (n + 1) → e.byte k = r.byte k ∨ d.byte k = r.byte k := by
      rw [ih (by omega)]
      constructor
      · intro h k hk hk'
        obtain rfl | hlt := Nat.eq_or_lt_of_le hk
        · exact hi
        · have hb := h k hlt (by omega)
          rwa [hd k hlt (by omega)] at hb
      · intro h k hk hk'
        rw [hd k hk (by omega)]
        exact h k (by omega) (by omega)
    rw [mergeBytes]
    split_ifs with he hd
    · exact hrest d (fun _ _ _ => rfl) (.inl he)
    · refine hrest _ (fun k hk hk' => ?_) (.inr hd)
      rw [Page.byte_setByte (by omega) hk', if_neg (by omega)]
    · simp only [false_iff]
      intro h
      exact (h i (Nat.le_refl i) (by omega)).elim he hd

/-- Without a conflict, what the source has changed is in the merged page. -/
theorem mergeBytes_byte (hn : i + n ≤ pageSize) (h : (mergeBytes r e n i d).2 = true) (hk : k < pageSize) :
    (mergeBytes r e n i d).1.byte k = if i ≤ k ∧ k < i + n ∧ e.byte k ≠ r.byte k then e.byte k else d.byte k := by
  induction n generalizing i d with
  | zero =>
    rw [if_neg (by omega)]
    rfl
  | succ n ih =>
    rw [mergeBytes] at h ⊢
    by_cases he : e.byte i = r.byte i
    · rw [if_pos he] at h ⊢
      rw [ih (by omega) h]
      apply if_congr _ rfl rfl
      constructor
      · intro ⟨h₁, h₂, h₃⟩
        exact ⟨by omega, by omega, h₃⟩
      · intro ⟨h₁, h₂, h₃⟩
        obtain rfl | hlt := Nat.eq_or_lt_of_le h₁
        · exact absurd he h₃
        · exact ⟨hlt, by omega, h₃⟩
    by_cases hd : d.byte i = r.byte i
    · rw [if_neg he, if_pos hd] at h ⊢
      rw [ih (by omega) h, Page.byte_setByte (by omega) hk]
      by_cases hki : k = i
      · subst hki
        rw [if_neg (by omega), if_pos rfl, if_pos ⟨Nat.le_refl k, by omega, he⟩]
      · rw [if_neg hki]
        apply if_congr _ rfl rfl
        constructor
        · intro ⟨h₁, h₂, h₃⟩
          exact ⟨by omega, by omega, h₃⟩
        · intro ⟨h₁, h₂, h₃⟩
          exact ⟨by omega, by omega, h₃⟩
    · rw [if_neg he, if_neg hd] at h
      cases h

/-! ## What a merge needs and does -/

/-- A memory in which these entries of the reference and of the source can be merged into an entry of `dt`: the
pages are in use, and if the destination's page is also the reference's or the source's, it is counted so. -/
structure Mergeable (b : Boot) (s : Mem) (r e : Pte) (dt : Frame) (di : ℕ) : Prop where
  index : di < 512
  avail : (s.entry dt di).frame ∈ b.avail
  used : 0 < s.refcount (s.entry dt di).frame
  unlinked : s.freeNext (s.entry dt di).frame = none
  table : 0 < s.refcount dt ∧ dt ≠ (s.entry dt di).frame ∧ dt ≠ r.frame ∧ dt ≠ e.frame
  ref : r.frame = b.zero ∨ 0 < s.refcount r.frame
  src : e.frame = b.zero ∨ 0 < s.refcount e.frame
  refShared : r.frame = (s.entry dt di).frame → 1 < s.refcount (s.entry dt di).frame
  srcShared : e.frame = (s.entry dt di).frame → 1 < s.refcount (s.entry dt di).frame
  free : ∀ pi, s.freelist = some pi → pi ∈ b.avail ∧ s.refcount pi = 0

/-- Both the source and the destination have changed a byte. -/
def Conflict (s : Mem) (r e : Pte) (f : Frame) : Prop :=
  ∃ k < pageSize, (s.page e.frame).byte k ≠ (s.page r.frame).byte k ∧ (s.page f).byte k ≠ (s.page r.frame).byte k

/-- What a merge leaves. -/
structure Merged (b : Boot) (s : Mem) (r e : Pte) (dt : Frame) (di : ℕ) (s' : Mem) : Prop where
  conflict : s'.entry dt di = pteZero b ↔ Conflict s r e (s.entry dt di).frame
  merged : ¬ Conflict s r e (s.entry dt di).frame →
    (s'.entry dt di).frame ≠ b.zero ∧ s'.refcount (s'.entry dt di).frame = 1 ∧
    ∀ k < pageSize, (s'.page (s'.entry dt di).frame).byte k =
      if (s.page e.frame).byte k ≠ (s.page r.frame).byte k then (s.page e.frame).byte k
      else (s.page (s.entry dt di).frame).byte k
  entries : ∀ j < 512, j ≠ di → s'.entry dt j = s.entry dt j
  ref : s'.page r.frame = s.page r.frame
  src : s'.page e.frame = s.page e.frame
  shared : 1 < s.refcount (s.entry dt di).frame → s'.page (s.entry dt di).frame = s.page (s.entry dt di).frame
  others : ∀ g, g ≠ dt → g ≠ (s.entry dt di).frame → (g ∈ b.avail → s.refcount g ≠ 0) → s'.page g = s.page g
  counts : ∀ g, s'.refcount g = s.refcount g - (if g = (s.entry dt di).frame then 1 else 0) +
    if g = (s'.entry dt di).frame ∧ g ≠ b.zero then 1 else 0

variable {b : Boot} {N : Set Note} {s s' s₁ : Mem} {re se : Pte} {dt f g : Frame} {di : ℕ}

/-- The destination's page has been made its own: it is `g`. -/
structure Owned (b : Boot) (s : Mem) (dt : Frame) (di : ℕ) (g : Frame) (s₁ : Mem) : Prop where
  entry : (s₁.entry dt di).frame = g
  entries : ∀ j < 512, j ≠ di → s₁.entry dt j = s.entry dt j
  avail : g ∈ b.avail
  unlinked : s₁.freeNext g = none
  own : s₁.refcount g = 1
  page : s₁.page g = s.page (s.entry dt di).frame
  was : g = (s.entry dt di).frame ∧ s.refcount g = 1 ∨
    g ≠ (s.entry dt di).frame ∧ s.refcount g = 0 ∧ 1 < s.refcount (s.entry dt di).frame
  table : g ≠ dt
  pages : ∀ h, h ≠ g → h ≠ dt → s₁.page h = s.page h
  counts : ∀ h, s₁.refcount h = s.refcount h - (if h = (s.entry dt di).frame then 1 else 0) + if h = g then 1 else 0

theorem Mergeable.frame_ne (h : Mergeable b s re se dt di) : (s.entry dt di).frame ≠ b.zero :=
  fun hz => b.zero_avail (hz ▸ h.avail)

/-- The first part: it only stops where `mem_alloc` finds no page. -/
theorem Mergeable.mergeOwn (h : Mergeable b s re se dt di) :
    Ends N (mergeOwn b dt di) s (Owned b s dt di) fun p _ =>
      p = .assert ∧ s.freelist = none ∧ 1 < s.refcount (s.entry dt di).frame := by
  have hi := h.index
  have hused := h.used
  unfold Determinator.mergeOwn readEntry
  refine ends_bind (ends_bind_get (ends_pure.2 (ends_bind_get (ends_bind_noteIf fun _ => ?_))))
  set f := (s.entry dt di).frame with hf
  apply ends_ite
  · intro hc
    have hc : 1 < s.refcount f := hc.resolve_left h.frame_ne
    unfold memAllocOk
    refine ends_bind (ends_bind (ends_memAlloc (fun hn => ends_panic ⟨rfl, hn, hc⟩) fun pi hpi => ends_pure.2 ?_))
    obtain ⟨hpa, hp0⟩ := h.free pi hpi
    have hpf : pi ≠ f := by
      rintro rfl
      omega
    have hpd : pi ≠ dt := by
      rintro rfl
      have := h.table.1
      omega
    refine ends_bind (ends_memIncref hpa ?_)
    unfold writePage
    refine ends_bind (ends_modify ?_)
    change Ends N _ (s.filled pi (s.page f)) _ _
    have hrf : (s.filled pi (s.page f)).refcount f = s.refcount f := by
      rw [filled_refcount, Function.update_of_ne hpf.symm]
    have hcount (g : Frame) : ((s.filled pi (s.page f)).setRef f ((s.filled pi (s.page f)).refcount f - 1)).refcount g =
        s.refcount g - (if g = f then 1 else 0) + if g = pi then 1 else 0 := by
      simp only [Mem.setRef, hrf, filled_refcount, Function.update_apply]
      split_ifs with h₁ h₂ h₂
      · exact absurd (h₂.symm.trans h₁) hpf
      · rw [h₁, Int.add_zero]
      · rw [h₂, Int.sub_zero]
      · rw [Int.sub_zero, Int.add_zero]
    refine ends_bind (ends_memDecref_more h.avail (by rw [hrf]; exact hc) ?_)
    unfold writeEntry
    refine ends_bind (ends_modify (ends_pure.2 ?_))
    constructor
    case entry => rw [setEntry_entry_self hi]; rfl
    case entries =>
      intro j hj hne
      rw [setEntry_entry_ne hi hj (.inr hne)]
      exact setPage_entry_ne hj hpd.symm
    case avail => exact hpa
    case unlinked =>
      rw [setEntry_page hi]
      exact Function.update_self ..
    case own =>
      rw [setEntry_refcount hi, hcount, if_neg hpf, if_pos rfl, hp0]
      rfl
    case page =>
      rw [setEntry_page_ne hi hpd]
      exact Function.update_self ..
    case was => exact .inr ⟨hpf, hp0, hc⟩
    case table => exact hpd
    case pages =>
      intro g hg hgd
      rw [setEntry_page_ne hi hgd]
      exact Function.update_of_ne hg ..
    case counts =>
      intro g
      rw [setEntry_refcount hi]
      exact hcount g
  · intro hc
    push Not at hc
    have h1 : s.refcount f = 1 := by
      have := hc.2
      omega
    apply ends_pure.2
    constructor
    case entry => rfl
    case entries => exact fun _ _ _ => rfl
    case avail => exact h.avail
    case unlinked => exact h.unlinked
    case own => exact h1
    case page => rfl
    case was => exact .inl ⟨rfl, h1⟩
    case table => exact h.table.2.1.symm
    case pages => exact fun _ _ _ => rfl
    case counts => exact fun _ => (Int.sub_add_cancel ..).symm

/-- The merged page is neither the reference's nor the source's. -/
theorem Owned.ne_of (h : Owned b s dt di g s₁) (hz : f = b.zero ∨ 0 < s.refcount f)
    (hs : f = (s.entry dt di).frame → 1 < s.refcount (s.entry dt di).frame) : f ≠ g := by
  rintro rfl
  obtain hz | hz := hz
  · exact b.zero_avail (hz ▸ h.avail)
  · obtain ⟨he, h1⟩ | ⟨-, h0, -⟩ := h.was
    · have := hs he
      rw [← he] at this
      omega
    · omega

/-- What is left where only the merged page, the table and the free list are changed. -/
theorem Mergeable.merged (h : Mergeable b s re se dt di) (ho : Owned b s dt di g s₁)
    (hp : ∀ x, x ≠ g → x ≠ dt → s'.page x = s₁.page x)
    (conflict : s'.entry dt di = pteZero b ↔ Conflict s re se (s.entry dt di).frame)
    (merged : ¬ Conflict s re se (s.entry dt di).frame →
      (s'.entry dt di).frame ≠ b.zero ∧ s'.refcount (s'.entry dt di).frame = 1 ∧
      ∀ k < pageSize, (s'.page (s'.entry dt di).frame).byte k =
        if (s.page se.frame).byte k ≠ (s.page re.frame).byte k then (s.page se.frame).byte k
        else (s.page (s.entry dt di).frame).byte k)
    (entries : ∀ j < 512, j ≠ di → s'.entry dt j = s₁.entry dt j)
    (counts : ∀ x, s'.refcount x = s.refcount x - (if x = (s.entry dt di).frame then 1 else 0) +
      if x = (s'.entry dt di).frame ∧ x ≠ b.zero then 1 else 0) :
    Merged b s re se dt di s' := by
  have hpages (x : Frame) (hg : x ≠ g) (hd : x ≠ dt) : s'.page x = s.page x := by rw [hp x hg hd, ho.pages x hg hd]
  constructor
  case conflict => exact conflict
  case merged => exact merged
  case entries => exact fun j hj hne => by rw [entries j hj hne, ho.entries j hj hne]
  case ref => exact hpages _ (ho.ne_of h.ref h.refShared) h.table.2.2.1.symm
  case src => exact hpages _ (ho.ne_of h.src h.srcShared) h.table.2.2.2.symm
  case shared => exact fun hs => hpages _ (ho.ne_of (.inr h.used) fun _ => hs) h.table.2.1.symm
  case others =>
    intro x hd hf hx
    apply hpages x _ hd
    rintro rfl
    obtain ⟨he, -⟩ | ⟨-, h0, -⟩ := ho.was
    · exact hf he
    · exact hx ho.avail h0
  case counts => exact counts

/-- **The law of `pmap_mergepage`.** It only stops where the destination's page is shared and `mem_alloc` finds
no page. -/
theorem pmapMergepage_merges (h : Mergeable b s re se dt di) :
    Ends N (pmapMergepage b re se dt di) s (fun _ => Merged b s re se dt di) fun p _ =>
      p = .assert ∧ s.freelist = none ∧ 1 < s.refcount (s.entry dt di).frame := by
  have hi := h.index
  unfold Determinator.pmapMergepage
  refine ends_bind (h.mergeOwn.imp fun g s₁ ho => ends_bind_get ?_)
  have hgz : g ≠ b.zero := fun hz => b.zero_avail (hz ▸ ho.avail)
  rw [ho.pages _ (ho.ne_of h.ref h.refShared) h.table.2.2.1.symm,
    ho.pages _ (ho.ne_of h.src h.srcShared) h.table.2.2.2.symm, ho.page]
  set f := (s.entry dt di).frame with hf
  set m := mergeBytes (s.page re.frame) (s.page se.frame) pageSize 0 (s.page f) with hm
  have hconf : m.2 = true ↔ ¬ Conflict s re se f := by
    rw [hm, mergeBytes_ok (Nat.le_of_eq (Nat.zero_add _))]
    constructor
    · intro hall ⟨k, hk, he, hd⟩
      exact (hall k (Nat.zero_le k) (by omega)).elim he hd
    · intro hc k _ hk
      by_contra hn
      push Not at hn
      exact hc ⟨k, by omega, hn⟩
  have hpage (x : Frame) (hg : x ≠ g) : (s₁.setPage g m.1).page x = s₁.page x := Function.update_of_ne hg ..
  have hentry (j : ℕ) (hj : j < 512) : (s₁.setPage g m.1).entry dt j = s₁.entry dt j := setPage_entry_ne hj ho.table.symm
  unfold writePage
  refine ends_bind (ends_modify (ends_ite (fun hc => ?_) fun hc => ends_pure.2 ?_))
  · -- a conflict: the merged page is given up
    have hc : Conflict s re se f := by
      by_contra hn
      rw [hconf.mpr hn] at hc
      cases hc
    unfold readEntry writeEntry
    refine ends_bind (ends_bind_get (ends_pure.2 (ends_bind ?_)))
    rw [hentry di hi, ho.entry]
    apply ends_memDecref_last ho.avail (s := s₁.setPage g m.1) ho.own
    apply ends_memFree
    · exact Function.update_self ..
    · exact ho.unlinked
    · have h0 : (((s₁.setPage g m.1).setRef g 0).given g).refcount g = 0 := Function.update_self ..
      refine ⟨h0.ge, ends_modify ?_⟩
      apply h.merged ho
      case hp =>
        intro x hg hd
        rw [setEntry_page_ne hi hd]
        exact hpage x hg
      case conflict =>
        rw [setEntry_entry_self hi]
        exact iff_of_true rfl hc
      case merged => exact fun hn => absurd hc hn
      case entries =>
        intro j hj hne
        rw [setEntry_entry_ne hi hj (.inr hne)]
        exact hentry j hj
      case counts =>
        intro x
        have hx0 : ¬ (x = b.zero ∧ x ≠ b.zero) := fun hx => hx.2 hx.1
        rw [setEntry_entry_self hi, setEntry_refcount hi, pteZero_frame, if_neg hx0, Int.add_zero]
        change Function.update s₁.refcount g 0 x = _
        rw [Function.update_apply, ho.counts]
        split
        next hx =>
          have := ho.counts x
          rw [hx, ho.own, if_pos rfl] at this
          rw [hx]
          omega
        next hx => rw [Int.add_zero]
  · -- no conflict
    have hc : ¬ Conflict s re se f := hconf.mp (by simpa using hc)
    have he : ((s₁.setPage g m.1).entry dt di).frame = g := by rw [hentry di hi, ho.entry]
    apply h.merged ho
    case hp => exact fun x hg _ => hpage x hg
    case conflict =>
      refine iff_of_false (fun hz => hgz ?_) hc
      rw [← he, hz]
      rfl
    case merged =>
      intro _
      rw [he]
      refine ⟨hgz, ho.own, fun k hk => ?_⟩
      change ((Function.update s₁.page g m.1) g).byte k = _
      rw [Function.update_self, mergeBytes_byte (Nat.le_of_eq (Nat.zero_add _)) (hconf.mpr hc) hk]
      apply if_congr _ rfl rfl
      exact ⟨fun h => h.2.2, fun h => ⟨Nat.zero_le k, by omega, h⟩⟩
    case entries => exact fun j hj _ => hentry j hj
    case counts =>
      intro x
      change s₁.refcount x = _
      rw [he, ← hf, ho.counts]
      congr 1
      apply if_congr _ rfl rfl
      exact ⟨fun hx => ⟨hx, hx ▸ hgz⟩, And.left⟩

/-- A page that is the reference's and the destination's is copied. -/
def sharedRef : Mem where
  page f := if f = 0x1000 then fun _ => .mk' 0x1001 0 else Page.zeros
  refcount f := if f = 0x1001 then 2 else if f = 0x1003 then 0 else 1
  freeNext _ := none
  freelist := some 0x1003
  dry := false

theorem pmapMergepage_merges_sample :
    Meets ∅ (pmapMergepage sampleBoot (.mk' 0x1001 0) (.mk' 0x1002 0) 0x1000 0) sharedRef
      (fun _ => Merged sampleBoot sharedRef (.mk' 0x1001 0) (.mk' 0x1002 0) 0x1000 0) := by
  refine (pmapMergepage_merges ?_).mono (fun _ _ h => h) fun _ _ h => nomatch h.2.1
  constructor
  case index => decide
  case avail =>
    change _ ∈ samplePages
    decide
  case used => decide
  case unlinked => rfl
  case table => decide
  case ref => decide
  case src => decide
  case refShared => decide
  case srcShared => decide
  case free =>
    intro pi hpi
    obtain rfl := Option.some.inj hpi
    refine ⟨?_, rfl⟩
    change _ ∈ samplePages
    decide

/-! ## In a run -/

section

variable {G : Ghost} {t rt st : Frame} {si : ℕ}

theorem Sound.slot_page (hS : Sound b G s) (hu : (G.kind t).user i = true) (hz : (s.entry t i).frame ≠ b.zero) :
    slot b G s t i = some (s.entry t i).frame :=
  slot_of_user hu (by rw [hS.off]; nofun) hz

/-- An entry of a page table points to the zero page or to a page that is in use. -/
theorem Sound.page_used (hS : Sound b G s) (hl : (G.kind t).level = some 0) (hu : (G.kind t).user i = true) :
    (s.entry t i).frame = b.zero ∨ G.kind (s.entry t i).frame = .data ∧ 0 < s.refcount (s.entry t i).frame := by
  by_cases hz : (s.entry t i).frame = b.zero
  · exact .inl hz
  · have hk := data_of_slot hS.toGood hl (hS.slot_page hu hz)
    exact .inr ⟨hk, hS.alive _ (by rw [hk]; trivial) (by rw [hk]; nofun)⟩

/-- A page table is not a page that an entry points to. -/
theorem Sound.table_ne (hS : Sound b G s) (hd : (G.kind dt).level = some 0) (hl : (G.kind t).level = some 0)
    (hu : (G.kind t).user i = true) : dt ≠ (s.entry t i).frame := by
  rintro rfl
  obtain hz | ⟨hk, -⟩ := hS.page_used hl hu
  · rw [hz, hS.zero] at hd
    cases hd
  · rw [hk] at hd
    cases hd

/-- A page that two entries point to has two references. -/
theorem Sound.two (hS : Sound b G s) (hu : (G.kind dt).user di = true) (hz : (s.entry dt di).frame ≠ b.zero)
    (hut : (G.kind t).user i = true) (hne : (t, i) ≠ (dt, di)) (he : (s.entry t i).frame = (s.entry dt di).frame)
    (hp : 0 < s.refcount (s.entry dt di).frame) : 1 < s.refcount (s.entry dt di).frame := by
  by_contra hc
  have hd := hS.slot_page hu hz
  have ht := hS.slot_page hut (by rw [he]; exact hz)
  rw [he] at ht
  obtain ⟨h₁, h₂⟩ := hS.toCounted.single_slot (by omega) ht hd
  exact hne (by rw [h₁, h₂])

/-- Between the operations, entries of page tables can be merged, if neither the reference's nor the source's is
the destination's. -/
theorem Sound.mergeable (hS : Sound b G s) (hl : (G.kind dt).level = some 0)
    (hu : (G.kind dt).user di = true) (hz : (s.entry dt di).frame ≠ b.zero) (hr : (G.kind rt).level = some 0)
    (he : (G.kind st).level = some 0) (hur : (G.kind rt).user si = true) (hue : (G.kind st).user si = true)
    (hrd : (rt, si) ≠ (dt, di)) (hed : (st, si) ≠ (dt, di)) :
    Mergeable b s (s.entry rt si) (s.entry st si) dt di := by
  obtain ⟨hk, hused⟩ := (hS.page_used hl hu).resolve_left hz
  constructor
  case index => exact Kind.user_lt hu
  case avail => exact hS.avail _ (by rw [hk]; nofun)
  case used => exact hused
  case unlinked => exact hS.unlinked _ (by rw [hk]; nofun)
  case table =>
    refine ⟨?_, hS.table_ne hl hl hu, hS.table_ne hl hr hur, hS.table_ne hl he hue⟩
    apply hS.alive
    · cases hkd : G.kind dt with
      | free | held => rw [hkd] at hl; cases hl
      | _ => trivial
    · intro hkd
      rw [hkd] at hl
      cases hl
  case ref => exact (hS.page_used hr hur).imp id And.right
  case src => exact (hS.page_used he hue).imp id And.right
  case refShared => exact fun h => hS.two hu hz hur hrd h hused
  case srcShared => exact fun h => hS.two hu hz hue hed h hused
  case free =>
    intro pi hpi
    obtain ⟨-, ha, h0, -⟩ := hS.toGood.taken hpi
    exact ⟨ha, h0⟩

end

end Determinator
