import Determinator.Pmap.Span

/-!
# Replacing one mapping

After a walk the page table of an address is reached through writeable entries only, so that what is
done to one of its entries is seen at the addresses of one page of one page map (`OwnPath.acts`).
`Mapping` is what replacing the entry leaves: it is used for `pmap_insert` and for page faults, where
the new page has been claimed from the free list.
-/

namespace Determinator

open PanicM

variable {b : Boot} {G G' G₁ G₂ : Ghost} {s s' s₁ s₂ : Mem} {f g t u T r pi : Frame}
  {i l m va lo hi : ℕ} {e : Pte} {pg : Page}

/-! ## The way to a page -/

theorem pdSize_dvd (h : l ≤ m) : pdSize l ∣ pdSize m := by
  obtain ⟨k, rfl⟩ := Nat.exists_eq_add_of_le h
  exact ⟨512 ^ k, by unfold pdSize; rw [pow_add, mul_assoc]⟩

/-- The stretch of an entry contains those of the entries below. -/
theorem block_mono (h : l ≤ m) (va : ℕ) : va / pdSize m * pdSize m ≤ va / pdSize l * pdSize l ∧
    (va / pdSize l + 1) * pdSize l ≤ (va / pdSize m + 1) * pdSize m := by
  have hp := pdSize_pos l
  have hd := pdSize_dvd h
  constructor
  · have h₁ : va / pdSize m * pdSize m / pdSize l ≤ va / pdSize l := Nat.div_le_div_right (block_le m va)
    rw [← Nat.div_mul_cancel (hd.mul_left (va / pdSize m))]
    exact Nat.mul_le_mul_right _ h₁
  · have h₁ : va / pdSize l < (va / pdSize m + 1) * pdSize m / pdSize l := by
      rw [Nat.div_lt_iff_lt_mul hp, Nat.div_mul_cancel (hd.mul_left (va / pdSize m + 1))]
      exact next_lt m va
    rw [← Nat.div_mul_cancel (hd.mul_left (va / pdSize m + 1))]
    exact Nat.mul_le_mul_right _ h₁

namespace OwnPath

/-- The page table at the end of the way is reached through writeable entries. -/
theorem wreach (h : OwnPath b s va l T t) (hS : Whole b G s) (hl : (G.kind T).level = some l)
    (hm : (G.kind T).maps va) (hw : WReach b G s T) :
    WReach b G s t ∧ (G.kind t).level = some 0 ∧ (G.kind t).maps va := by
  induction l generalizing T with
  | zero =>
    obtain rfl : T = t := h
    exact ⟨hw, hl, hm⟩
  | succ l ih =>
    obtain ⟨hz, hW, -, h⟩ := h
    have hs := hS.slot_maps hl hm hz
    obtain ⟨hl', hm'⟩ := kid_of_slot hS.toGood hl hm hs
    exact ih h hl' hm' (hw.step hs hW)

/-- What is done to the page of an address in its page table is done to it in the tables above. -/
theorem acts {D : ℕ → View → View → Prop} (h : OwnPath b s va l T t) (hS : Sound b G s)
    (hl : (G.kind T).level = some l) (hm : (G.kind T).maps va) (hw : WReach b G s T)
    (hlo : va / pdSize 0 * pdSize 0 ≤ lo) (hhi : hi ≤ (va / pdSize 0 + 1) * pdSize 0)
    (ha : Acts b 0 t (Ranged 0 va lo hi D) G s G' s') : Acts b l T (Ranged l va lo hi D) G s G' s' := by
  induction l generalizing T with
  | zero =>
    obtain rfl : T = t := h
    exact ha
  | succ l ih =>
    obtain ⟨hz, hW, hP, h⟩ := h
    have hs := hS.slot_maps hl hm hz
    obtain ⟨hl', hm'⟩ := kid_of_slot hS.toGood hl hm hs
    have hw' := hw.step hs hW
    have hr : s.refcount (s.entry T (pdx (l + 1) va)).frame = 1 := by
      refine hS.single _ hw' ?_
      rw [hS.typed hs]
      exact Kind.kid_ne_root _ _
    obtain ⟨h₁, h₂⟩ := block_mono (Nat.zero_le (l + 1)) va
    exact (ih h hl' hm' hw').lift_ranged hS.toWhole hl hm rfl hz hW hP hr (h₁.trans hlo) (hhi.trans h₂)

end OwnPath

/-! ## Claiming a page -/

/-- The views do not depend on the counts. -/
theorem viewAt_page (h : s'.page = s.page) (va l : ℕ) (t : Frame) :
    viewAt b s' va l t = viewAt b s va l t := by
  have he : ∀ t i, s'.entry t i = s.entry t i := fun t i => by
    unfold Mem.entry
    rw [h]
  induction l generalizing t with
  | zero => simp only [viewAt, he, h]
  | succ l ih => simp only [viewAt, he, ih, h]

/-- A page that is not a table has got one more reference, which the code holds, and nothing sees
it. -/
structure Claimed (b : Boot) (G : Ghost) (s : Mem) (pi : Frame) (s' : Mem) : Prop where
  whole : Whole b (G.claim pi) s'
  kind : (G.kind pi).level = none
  page : ∀ u, u ≠ pi → s'.page u = s.page u
  view : ∀ l g va, (G.kind g).level = some l → (G.kind g).maps va → viewAt b s' va l g = viewAt b s va l g

namespace Claimed

theorem ne_of_level (h : Claimed b G s pi s') (hg : (G.kind g).level = some l) : g ≠ pi := by
  rintro rfl
  rw [h.kind] at hg
  cases hg

theorem ne_zero (h : Claimed b G s pi s') : b.zero ≠ pi := by
  intro e
  have := h.whole.zero
  rw [e, claim_kind_self] at this
  cases this

theorem kind_level (h : Claimed b G s pi s') (hg : (G.kind g).level = some l) :
    (G.claim pi).kind g = G.kind g :=
  claim_kind (h.ne_of_level hg)

/-- No table sees a claim. -/
theorem acts (h : Claimed b G s pi s') (l : ℕ) (T : Frame) (hT : (G.kind T).level = some l) :
    Acts b l T (fun _ v v' => v' = v) G s (G.claim pi) s' := by
  refine ⟨⟨fun g m hg _ => h.kind_level hg, fun g m hg _ => ?_, h.page _ h.ne_zero,
    fun g m hg _ => h.page g (h.ne_of_level hg)⟩, fun g va hg _ hm => ?_, fun va hm => h.view l T va hT hm⟩
  · have hgp : g ≠ pi := by
      rintro rfl
      rw [claim_kind_self] at hg
      cases hg
    exact (claim_kind hgp).symm
  · rw [h.view l g va hg hm]
    exact View.Keeps.refl _

end Claimed

/-- The code takes a reference to a page of its own, or to a page of user memory. -/
theorem Whole.claimed (h : Whole b G s) (hk : G.kind pi = .held ∧ pi ∈ b.avail ∨ G.kind pi = .data) :
    Claimed b G s pi (s.setRef pi (s.refcount pi + 1)) := by
  have hlev : (G.kind pi).level = none := by
    rcases hk with ⟨hk, -⟩ | hk <;> rw [hk] <;> rfl
  refine ⟨⟨?_, h.off⟩, hlev, fun _ _ => rfl, fun l g va _ _ => viewAt_page (show (s.setRef pi _).page = s.page from rfl) va l g⟩
  rcases hk with ⟨hk, hv⟩ | hk
  · refine h.toGood.claim_held hk hv ?_
    rw [h.refcount_unused (by rw [hk]; exact id)]
    exact h.extra_nonneg pi (by rw [hk]; nofun)
  · have hpos := h.alive pi (by rw [hk]; trivial) (by rw [hk]; nofun)
    have hx := h.extra_nonneg pi (by rw [hk]; nofun)
    have := h.toGood.setRef (f := pi) (n := 1) (by rw [hk]; nofun) (fun _ => by omega) fun _ _ => by omega
    have hG : G.claim pi = G.addExtra fun g => 1 * one pi g := by
      ext g
      · exact congrFun (claim_kind_data hk) g
      · rfl
      · rfl
    rwa [hG]

/-- The code takes a page from the free list and fills it. -/
theorem Sound.claimed (h : Sound b G s) (hf : s.freelist = some pi) (pg : Page) :
    Claimed b G s pi (s.filled pi pg) := by
  obtain ⟨hk, -, hS⟩ := h.filled hf pg
  have hne : pi ≠ b.zero := by
    rintro rfl
    rw [h.zero] at hk
    cases hk
  have hpage : ∀ u, u ≠ pi → (s.filled pi pg).page u = s.page u := fun u hu => by
    rw [filled_page, Function.update_of_ne hu]
  exact ⟨hS.toWhole, by rw [hk]; rfl, hpage, fun l g va hl hm =>
    h.toWhole.viewAt_unused (by rw [hk]; exact id) hne hpage hl hm⟩

/-! ## The new mapping -/

/-- An address maps to a page. -/
def MapsTo (e : Pte) (pg : Page) (_ : ℕ) (_ v' : View) : Prop := v' = ⟨e.clearW, pg, e.isW, true⟩

/-- A new entry is seen at the addresses of one page. -/
theorem Put.ranged (h : Put b 0 t (pdx 0 va) e G s G' s') (hS : Whole b G s)
    (hl : (G.kind t).level = some 0) (he : e.frame ≠ t) :
    Acts b 0 t (Ranged 0 va (va / pdSize 0 * pdSize 0) ((va / pdSize 0 + 1) * pdSize 0)
      (MapsTo e (s.page e.frame))) G s G' s' := by
  refine h.acts hS hl (fun a _ hi hab => ?_) fun a v hne hab => ?_
  · have hba := (div_of_pdx hab).1 hi
    have hle := block_le 0 a
    rw [hba] at hle
    rw [if_pos ⟨hle, lt_of_block hba⟩]
    exact h.viewAt_zero hi he
  · rw [if_neg]
    · exact View.Keeps.refl v
    · rintro ⟨h₁, h₂⟩
      exact hne ((div_of_pdx hab).2 (block_of_lt h₁ h₂))

/-- The state in which a page table entry has been replaced, after a reference to the new page has been
taken. -/
def Mem.remapped (b : Boot) (s : Mem) (t : Frame) (i : ℕ) (e : Pte) : Mem :=
  (s.release b (s.entry t i).frame).setEntry t i e

/-- The ghost state after that. -/
def Ghost.remapped (b : Boot) (G : Ghost) (s : Mem) (t : Frame) (i : ℕ) (e : Pte) : Ghost :=
  (G.claim e.frame).swap b s (s.entry t i).frame e.frame

/-- What replacing an entry of a page table leaves. -/
structure Replaced (b : Boot) (G : Ghost) (s s₁ : Mem) (t : Frame) (i : ℕ) (e : Pte) : Prop where
  whole : Whole b (G.remapped b s₁ t i e) (s₁.remapped b t i e)
  put : Put b 0 t i e (G.claim e.frame) s₁ (G.remapped b s₁ t i e) (s₁.remapped b t i e)
  extra : (G.remapped b s₁ t i e).extra = G.extra
  held : ∀ g, (G.remapped b s₁ t i e).kind g = .held ↔ g ≠ e.frame ∧ G.kind g = .held
  low : ∀ g, G.kind g = .low → (G.remapped b s₁ t i e).kind g = .low
  sound : Cow b (G.claim e.frame) s₁ →
    (e.isW = true → (s₁.release b (s₁.entry t i).frame).refcount e.frame = 1) →
    Sound b (G.remapped b s₁ t i e) (s₁.remapped b t i e)

/-- An entry of a page table is replaced by one for a claimed page. -/
theorem Claimed.replaced (hc : Claimed b G s e.frame s₁) (hS : Sound b G s)
    (hl : (G.kind t).level = some 0) (hu : (G.kind t).user i = true) : Replaced b G s s₁ t i e := by
  have hkt := hc.kind_level hl
  have hl₁ : ((G.claim e.frame).kind t).level = some 0 := by rw [hkt]; exact hl
  have hu₁ : ((G.claim e.frame).kind t).user i = true := by rw [hkt]; exact hu
  have hx : 1 ≤ (G.claim e.frame).extra e.frame := by
    have := hS.extra_nonneg e.frame (by intro e'; have := hc.kind; rw [e'] at this; cases this)
    rw [claim_extra, one_self]
    omega
  obtain ⟨hgood, hput, hsound⟩ := hc.whole.swap (e := e) hu₁ hl₁ claim_kind_self hx
  have hdata : (s₁.entry t i).frame ≠ b.zero → (G.claim e.frame).kind (s₁.entry t i).frame = .data :=
    fun hz => data_of_slot hc.whole.toGood hl₁ (slot_eq_some.2 ⟨hu₁, by rw [hc.whole.off]; simp, hz, rfl⟩)
  refine ⟨⟨hgood, rfl⟩, hput, ?_, fun g => ⟨fun hk => ?_, ?_⟩, fun g hk => ?_, hsound⟩
  · funext g
    simp only [Ghost.remapped, Ghost.swap, claim_extra]
    ring
  · have hk₁ : (G.claim e.frame).kind g = .held := by
      unfold Ghost.remapped at hk
      rwa [swap_kind_ne_free (by rw [hk]; simp)] at hk
    have hg : g ≠ e.frame := by
      intro hg
      rw [hg, claim_kind_self] at hk₁
      cases hk₁
    exact ⟨hg, (claim_kind hg).symm.trans hk₁⟩
  · rintro ⟨hg, hk⟩
    have hk₁ : (G.claim e.frame).kind g = .held := (claim_kind hg).trans hk
    rw [Ghost.remapped, swap_kind_level hdata (by rw [hk₁]; simp), hk₁]
  · have hg : g ≠ e.frame := hc.ne_of_level (l := 2) (by rw [hk]; rfl)
    have hk₁ : (G.claim e.frame).kind g = .low := (claim_kind hg).trans hk
    rw [Ghost.remapped, swap_kind_level hdata (by rw [hk₁]; simp), hk₁]

/-- What a new mapping of `va` in the page map `r` leaves. -/
structure Mapping (b : Boot) (r : Frame) (va : ℕ) (e : Pte) (pg : Page) (G : Ghost) (s : Mem) (G' : Ghost)
    (s' : Mem) : Prop where
  whole : Whole b G' s'
  acts : Acts b 3 r (Ranged 3 va (va / pdSize 0 * pdSize 0) ((va / pdSize 0 + 1) * pdSize 0)
    (MapsTo e pg)) G s G' s'
  extra : G'.extra = G.extra
  held : ∀ g, G'.kind g = .held ↔ g ≠ e.frame ∧ G.kind g = .held
  low : ∀ g, G.kind g = .low → G'.kind g = .low

/-- **A mapping is replaced** by one for a claimed page. -/
theorem Sound.remapped (hS : Sound b G s) (hr : G.kind r = .root) (hm : vmUserLo ≤ va ∧ va < vmUserHi)
    (hp : OwnPath b s va 3 r t) (hc : Claimed b G s e.frame s₁) :
    Mapping b r va e (s₁.page e.frame) G s (G.remapped b s₁ t (pdx 0 va) e)
      (s₁.remapped b t (pdx 0 va) e) ∧
    (Cow b (G.claim e.frame) s₁ →
      (e.isW = true → (s₁.release b (s₁.entry t (pdx 0 va)).frame).refcount e.frame = 1) →
      Sound b (G.remapped b s₁ t (pdx 0 va) e) (s₁.remapped b t (pdx 0 va) e)) := by
  have hrl : (G.kind r).level = some 3 := by rw [hr]; rfl
  have hrm : (G.kind r).maps va := by rw [hr]; exact hm
  obtain ⟨-, hl, htm⟩ := hp.wreach hS.toWhole hrl hrm (.root hr)
  have hrep := hc.replaced (i := pdx 0 va) hS hl (Kind.maps_user hl htm)
  have hranged := hrep.put.ranged hc.whole (by rw [hc.kind_level hl]; exact hl) (hc.ne_of_level hl).symm
  have hacts : Acts b 0 t (Ranged 0 va (va / pdSize 0 * pdSize 0) ((va / pdSize 0 + 1) * pdSize 0)
      (MapsTo e (s₁.page e.frame))) G s (G.remapped b s₁ t (pdx 0 va) e) (s₁.remapped b t (pdx 0 va) e) :=
    (hc.acts 0 t hl).trans hranged hl fun a v v₁ v₂ _ hv hR => by rw [hv] at hR; exact hR
  exact ⟨⟨hrep.whole, hp.acts hS hrl hrm (.root hr) le_rfl le_rfl hacts, hrep.extra, hrep.held, hrep.low⟩,
    hrep.sound⟩

/-! ## `pmap_insert` -/

section

variable {N : Set Note} {E : Panic → Mem → Prop}

/-- The rest of `pmap_insert`, after the walk. -/
theorem insertRest_ends {perm : BitVec 12} (hS : Sound b G s) (hl : (G.kind t).level = some 0)
    (hu : (G.kind t).user i = true) (hk : G.kind pi = .held ∧ pi ∈ b.avail ∨ G.kind pi = .data) :
    Ends N (do
      memIncref b pi
      let e ← readEntry t i
      if e.frame ≠ b.zero then memDecref b e.frame memFree
      writeEntry t i (.mk' pi (perm ||| pteP))
      pure (some (t, i))) s (fun x s' => x = some (t, i) ∧
        s' = (s.setRef pi (s.refcount pi + 1)).remapped b t i (.mk' pi (perm ||| pteP))) E := by
  have hv : pi ∈ b.avail := by
    rcases hk with ⟨-, hv⟩ | hk
    · exact hv
    · exact hS.used_avail (by rw [hk]; trivial)
  have hc := hS.toWhole.claimed hk
  have hl₁ : ((G.claim pi).kind t).level = some 0 := by rw [hc.kind_level hl]; exact hl
  set s₁ := s.setRef pi (s.refcount pi + 1) with hs₁
  unfold readEntry writeEntry
  refine ends_bind (ends_memIncref hv (ends_bind (ends_bind_get (ends_pure.2 ?_))))
  rw [← hs₁]
  refine ends_ite (fun hz => ends_bind ?_) fun hz => ?_
  · have hslot : slot b (G.claim pi) s₁ t i = some (s₁.entry t i).frame :=
      slot_eq_some.2 ⟨by rw [hc.kind_level hl]; exact hu, by rw [hc.whole.off]; simp, hz, rfl⟩
    refine hc.whole.toGood.memDecref_data (data_of_slot hc.whole.toGood hl₁ hslot) ?_
    refine ends_bind (ends_modify (ends_pure.2 ⟨rfl, ?_⟩))
    rw [Mem.remapped, Mem.release, if_neg hz]
  · refine ends_bind (ends_modify (ends_pure.2 ⟨rfl, ?_⟩))
    rw [Mem.remapped, Mem.release, if_pos (not_not.1 hz)]

/-- The entry of an inserted page. -/
def insertedPte (pi : Frame) (perm : BitVec 12) : Pte := .mk' pi (perm ||| pteP)

/-- What `pmap_insert` leaves when the walk to the page table `t` has left `s₁`. -/
structure Inserted (b : Boot) (N : Set Note) (r pi t : Frame) (va : ℕ) (perm : BitVec 12) (G : Ghost)
    (s : Mem) (G₁ : Ghost) (s₁ s' : Mem) : Prop where
  walked : Walked b 3 r va G s (some (t, pdx 0 va)) G₁ s₁
  returns : Returns N (pmapWalk b r va true) s (some (t, pdx 0 va)) s₁
  state : s' = (s₁.setRef pi (s₁.refcount pi + 1)).remapped b t (pdx 0 va) (insertedPte pi perm)
  mapping : Mapping b r va (insertedPte pi perm) (s.page pi) G s (G₁.remapped b
    (s₁.setRef pi (s₁.refcount pi + 1)) t (pdx 0 va) (insertedPte pi perm)) s'
  sound : G.kind pi = .held → G.extra pi = 0 → Sound b (G₁.remapped b
    (s₁.setRef pi (s₁.refcount pi + 1)) t (pdx 0 va) (insertedPte pi perm)) s'

/-- What comes before a mapping does not change a view. -/
theorem Mapping.of_tame {G₁ : Ghost} (h : Mapping b r va e pg G₁ s₁ G' s') (ht : Unseen b 3 G s G₁ s₁)
    (hS : Sound b G s) (hr : G.kind r = .root) : Mapping b r va e pg G s G' s' where
  whole := h.whole
  acts := by
    have hrl : (G.kind r).level = some 3 := by rw [hr]; rfl
    refine (ht.acts hS hrl).trans h.acts hrl fun a v v₁ v₂ _ hK hR hab => ?_
    have hR := hR hab
    split at hR
    · rename_i hin
      rw [if_pos hin]
      exact hR
    · rename_i hin
      rw [if_neg hin]
      exact hK.trans hR
  extra := h.extra.trans ht.extra
  held g := (h.held g).trans (and_congr_right fun _ => ht.neat.held g)
  low g hk := h.low g (ht.neat.low g hk)

/-- **Inserting a page**, one that the code holds or one of user memory. -/
theorem pmapInsert_ends {perm : BitVec 12} (hS : Sound b G s) (hr : G.kind r = .root)
    (hm : vmUserLo ≤ va ∧ va < vmUserHi) (hk : G.kind pi = .held ∧ pi ∈ b.avail ∨ G.kind pi = .data) :
    Ends N (pmapInsert b r pi va perm) s (fun x s' =>
      (x = none ∧ ∃ G', Walked b 3 r va G s none G' s') ∨
      ∃ t G₁ s₁, x = some (t, pdx 0 va) ∧ Inserted b N r pi t va perm G s G₁ s₁ s') E := by
  have hrl : (G.kind r).level = some 3 := by rw [hr]; rfl
  have hrm : (G.kind r).maps va := by rw [hr]; exact hm
  have hpf : G.kind pi ≠ .free := by
    rcases hk with ⟨hk, -⟩ | hk <;> rw [hk] <;> nofun
  have hplev : (G.kind pi).level = none := by
    rcases hk with ⟨hk, -⟩ | hk <;> rw [hk] <;> rfl
  have hwalk : Ends N (pmapWalk b r va true) s (fun x s' => ∃ G', Walked b 3 r va G s x G' s') E := by
    unfold pmapWalk
    exact ends_bind_check hm (pmapWalkLevel_ends hS hrl hrm)
  unfold pmapInsert
  refine ends_bind (hwalk.run.imp ?_)
  rintro x s₁ ⟨⟨G₁, hw⟩, hret⟩
  cases x with
  | none => exact ends_pure.2 (.inl ⟨rfl, G₁, hw⟩)
  | some x =>
    obtain ⟨t, i⟩ := x
    obtain ⟨-, rfl, hl, hpath⟩ := hw.leaf t i rfl
    have hk₁ : G₁.kind pi = .held ∧ pi ∈ b.avail ∨ G₁.kind pi = .data := by
      rw [hw.tame.kind pi hpf]
      exact hk
    have hr₁ : G₁.kind r = .root := by
      rw [hw.tame.kind r (by rw [hr]; nofun)]
      exact hr
    have hc := hw.sound.toWhole.claimed hk₁
    obtain ⟨-, -, htm⟩ := hpath.wreach hw.sound.toWhole (l := 3) (by rw [hr₁]; rfl) (by rw [hr₁]; exact hm)
      (.root hr₁)
    obtain ⟨hmap, hsound⟩ := hw.sound.remapped (e := insertedPte pi perm) hr₁ hm hpath hc
    refine (insertRest_ends hw.sound hl (Kind.maps_user hl htm) hk₁).imp ?_
    rintro _ s' ⟨rfl, rfl⟩
    refine .inr ⟨t, G₁, s₁, rfl, hw, hret, rfl, ?_, fun hheld hx => hsound ?_ fun _ => ?_⟩
    · have hpg : (s₁.setRef pi (s₁.refcount pi + 1)).page pi = s.page pi := hw.tame.plain pi hplev hpf
      have := hmap.of_tame hw.tame hS hr
      rwa [show (insertedPte pi perm).frame = pi from rfl, hpg] at this
    · have hheld₁ : G₁.kind pi = .held := (hw.tame.kind pi hpf).trans hheld
      have hv : pi ∈ b.avail := by
        rcases hk with ⟨-, hv⟩ | hk
        · exact hv
        · rw [hk] at hheld
          cases hheld
      exact (hw.sound.claim_held hheld₁ hv).toCow
    · have hheld₁ : G₁.kind pi = .held := (hw.tame.kind pi hpf).trans hheld
      have href : s₁.refcount pi = 0 := by
        rw [hw.sound.refcount_unused (by rw [hheld₁]; exact id), hw.tame.extra, hx]
      have hne : pi ≠ (s₁.entry t (pdx 0 va)).frame := by
        intro e
        by_cases hz : (s₁.entry t (pdx 0 va)).frame = b.zero
        · rw [e, hz] at hc
          exact hc.ne_zero rfl
        · have := data_of_slot hw.sound.toGood hl (hw.sound.slot_maps hl htm hz)
          rw [← e, hheld₁] at this
          cases this
      change ((s₁.setRef pi (s₁.refcount pi + 1)).release b (s₁.entry t (pdx 0 va)).frame).refcount pi = 1
      rw [release_refcount hne]
      simp [Mem.setRef, href]

end

end Determinator
