import Determinator.Pmap.Mergepage
import Determinator.Pmap.Rounds

/-!
# The contents of a merge

A page of the destination gets the bytes that the source has changed, or becomes zeros if the destination has
changed one of them too (`Combined`). That is so for all addresses of a merge whose rounds are in the tables of
the three page maps, that neither leaves out nor adds parts of entries and that does not change shared tables. Parts of
the source without changes can be for addresses behind the table of the destination; nothing is done for them.
-/

namespace Determinator

open PanicM

variable {b : Boot} {G G' G₁ G₂ : Ghost} {s s' s₀ s₁ s₂ : Mem} {σ : Maps} {f g t T rt st dt r rr sr dr : Frame}
  {w w' x x' v v' : View} {i di si l m n a a' va sva dva svahi size : ℕ} {N : Set Note}

/-! ## Pages -/

section

variable {p e d d' : Page}

/-- A byte is changed in both pages. -/
def Opposed (p e d : Page) : Prop := ∃ k < pageSize, e.byte k ≠ p.byte k ∧ d.byte k ≠ p.byte k

/-- `d'` is `d` with the bytes of `e` that are not those of `p`, or zeros if one of them is changed in both. -/
structure Combined (p e d d' : Page) : Prop where
  opposed : Opposed p e d → d' = Page.zeros
  merged : ¬Opposed p e d → ∀ k < pageSize, d'.byte k = if e.byte k = p.byte k then d.byte k else e.byte k

namespace Combined

theorem of_source (p d : Page) : Combined p p d d where
  opposed := by
    rintro ⟨k, -, hk, -⟩
    exact absurd rfl hk
  merged _ _ _ := (if_pos rfl).symm

theorem of_dest (p e : Page) : Combined p e p e where
  opposed := by
    rintro ⟨k, -, -, hk⟩
    exact absurd rfl hk
  merged _ k _ := by
    split
    · rename_i h
      exact h
    · rfl

/-- What `pmap_mergepage` makes of three pages. -/
theorem of_mergeBytes (p e d : Page) :
    Combined p e d (if (mergeBytes p e pageSize 0 d).2 then (mergeBytes p e pageSize 0 d).1 else Page.zeros) := by
  have hiff : (mergeBytes p e pageSize 0 d).2 = true ↔ ¬Opposed p e d := by
    rw [mergeBytes_ok (Nat.le_of_eq (Nat.zero_add _))]
    constructor
    · rintro h ⟨k, hk, he, hd⟩
      exact (h k (Nat.zero_le k) (by omega)).elim he hd
    · intro h k _ hk
      by_contra hn
      push Not at hn
      exact h ⟨k, by omega, hn⟩
  by_cases h : (mergeBytes p e pageSize 0 d).2 = true
  · rw [if_pos h]
    refine ⟨fun ho => absurd ho (hiff.1 h), fun _ k hk => ?_⟩
    rw [mergeBytes_byte (Nat.le_of_eq (Nat.zero_add _)) h hk]
    by_cases hb : e.byte k = p.byte k
    · rw [if_pos hb, if_neg fun hc => hc.2.2 hb]
    · rw [if_neg hb, if_pos ⟨Nat.zero_le k, by omega, hb⟩]
  · rw [if_neg h]
    exact ⟨fun _ => rfl, fun hn => absurd (hiff.2 hn) h⟩

end Combined

end

/-- Where there was `v`, there is now what a merge makes of it, of `w` of the reference and of `x` of the source. -/
def Joined (w x v v' : View) : Prop := Combined w.page x.page v.page v'.page

theorem stable_joined (w x : ℕ → View) : Stable fun a => Joined (w a) (x a) where
  pre hK h := by
    unfold Joined at *
    rw [← hK.page]
    exact h
  post h hK := by
    unfold Joined at *
    rw [hK.page]
    exact h

/-- The reference and the source may have been seen before. -/
theorem Joined.source (h : Joined w' x' v v') (hw : View.Keeps w w') (hx : View.Keeps x x') : Joined w x v v' := by
  unfold Joined at *
  rw [← hw.page, ← hx.page]
  exact h

/-! ## One page -/

/-- The other entries of the table show what they did. -/
theorem Owned.view_ne (h : Owned b s dt di g s₁) (hS : Sound b G s) (hl : (G.kind dt).level = some 0)
    (hm : (G.kind dt).maps a) (hne : pdx 0 a ≠ di) : viewAt b s₁ a 0 dt = viewAt b s a 0 dt := by
  have hu := Kind.maps_user hl hm
  have he := h.entries (pdx 0 a) (pdx_lt 0 a) hne
  have hp : s₁.page (s.entry dt (pdx 0 a)).frame = s.page (s.entry dt (pdx 0 a)).frame := by
    by_cases hg : (s.entry dt (pdx 0 a)).frame = g
    · rcases h.was with ⟨hw, -⟩ | ⟨-, h0, -⟩
      · rw [hg, h.page, ← hw]
      · rcases hS.page_used hl hu with hz | ⟨-, hpos⟩
        · exact absurd h.avail (by rw [← hg, hz]; exact b.zero_avail)
        · rw [hg, h0] at hpos
          exact absurd hpos (lt_irrefl 0)
    · exact h.pages _ hg (hS.table_ne hl hl hu).symm
  simp only [viewAt, he, hp]

theorem Owned.view_page (h : Owned b s dt di g s₁) (ha : pdx 0 a = di) :
    (viewAt b s₁ a 0 dt).page = (viewAt b s a 0 dt).page := by
  simp only [viewAt, ha, h.entry, h.page]

/-- **Merging a page** that the destination has. -/
theorem pmapMergepage_joins (hN : Note.mergeZero ∈ N) (hS : Sound b G s) (h0 : s.page b.zero = Page.zeros)
    (hl : (G.kind dt).level = some 0) (hu : (G.kind dt).user di = true) (hrl : (G.kind rt).level = some 0)
    (hsl : (G.kind st).level = some 0) (hur : (G.kind rt).user si = true) (hus : (G.kind st).user si = true)
    (hrd : rt ≠ dt) (hsd : st ≠ dt) :
    Ends N (pmapMergepage b (s.entry rt si) (s.entry st si) dt di) s (fun _ s' => ∃ G', Left b 0 dt True
      (fun a v v' => if pdx 0 a = di then Combined (s.page (s.entry rt si).frame) (s.page (s.entry st si).frame) v.page v'.page
        else View.Keeps v v') G s G' s') fun _ _ => True := by
  unfold pmapMergepage
  by_cases hz : (s.entry dt di).frame = b.zero
  · unfold mergeOwn readEntry
    exact ends_bind (ends_bind (ends_bind_get (ends_pure.2 (ends_bind_get (ends_bind_noteIf fun hn => absurd hz (hn hN))))))
  have hmg := hS.mergeable hl hu hz hrl hsl hur hus (fun e => hrd (congrArg Prod.fst e)) fun e => hsd (congrArg Prod.fst e)
  refine ends_bind (((mergeOwn_ends (C := True) hN hS hl hu).and hmg.mergeOwn).mono ?_ fun _ _ _ => trivial)
  rintro g s₁ ⟨⟨G₁, hl₁, hs, hone⟩, ho⟩
  have hkd := hl₁.kind_T hl
  have hld : (G₁.kind dt).level = some 0 := by rw [hkd]; exact hl
  have hkg := data_of_slot hl₁.sound.toGood hld hs
  have hown : Left b 0 dt True (fun a v v' => if pdx 0 a = di then v'.page = v.page else View.Keeps v v') G s G₁ s₁ := by
    refine { hl₁ with acts := fun hC => { hl₁.acts hC with self := fun a hm => ?_ } }
    split
    · rename_i ha
      exact ho.view_page ha
    · rename_i ha
      rw [ho.view_ne hS hl hm ha]
      exact View.Keeps.refl _
  refine ends_bind_get ?_
  rw [ho.pages _ (ho.ne_of hmg.ref hmg.refShared) hmg.table.2.2.1.symm,
    ho.pages _ (ho.ne_of hmg.src hmg.srcShared) hmg.table.2.2.2.symm, ho.page]
  set m := mergeBytes (s.page (s.entry rt si).frame) (s.page (s.entry st si).frame) pageSize 0
    (s.page (s.entry dt di).frame) with hm
  have hcomb := Combined.of_mergeBytes (s.page (s.entry rt si).frame) (s.page (s.entry st si).frame)
    (s.page (s.entry dt di).frame)
  rw [← hm] at hcomb
  have hend : ∀ {G' s'}, Left b 0 dt True
      (fun a v v' => if pdx 0 a = di then v'.page = (if m.2 then m.1 else Page.zeros) else View.Keeps v v') G s G' s' →
      Left b 0 dt True (fun a v v' => if pdx 0 a = di then Combined (s.page (s.entry rt si).frame)
        (s.page (s.entry st si).frame) v.page v'.page else View.Keeps v v') G s G' s' := by
    intro G' s' h
    refine h.mono_view fun a _ hR => ?_
    by_cases ha : pdx 0 a = di
    · rw [if_pos ha] at hR ⊢
      rw [hR]
      simp only [viewAt, ha]
      exact hcomb
    · rw [if_neg ha] at hR ⊢
      exact hR
  -- the merged page is in its place
  have hS₂ := hl₁.sound.setData hkg m.1
  have hacts := hl₁.sound.toWhole.setData_acts hld hs hone m.1
  have hl₂ : Left b 0 dt True (fun a v v' => if pdx 0 a = di then v'.page = m.1 else View.Keeps v v') G s G₁
      (s₁.setPage g m.1) := by
    refine hown.trans ⟨hS₂, hacts.toBase, Neat.refl _, fun _ => rfl, fun _ => hacts⟩ hl fun a v v₁ v₂ _ hR hR₂ => ?_
    by_cases ha : pdx 0 a = di
    · rw [if_pos ha] at hR₂ ⊢
      rw [hR₂]
    · rw [if_neg ha] at hR hR₂ ⊢
      rw [hR₂]
      exact hR
  unfold writePage
  refine ends_bind (ends_modify (ends_ite (fun hc => ?_) fun hc => ends_pure.2 ⟨G₁, hend ?_⟩))
  · -- there is a conflict
    have hc : m.2 = false := by simpa using hc
    have hz₂ : ((s₁.setPage g m.1).entry dt di).frame ≠ b.zero := by
      rw [setPage_entry_ne (Kind.user_lt hu)]
      · exact (slot_eq_some.1 hs).2.2.1
      · rintro rfl
        rw [hkg] at hld
        cases hld
    unfold readEntry writeEntry
    refine ends_bind (ends_bind_get (ends_pure.2 (ends_bind ((hS₂.drop_ends (by rw [hkd]; exact hu) hld ?_ hz₂).imp ?_))))
    · intro hr
      rw [hr] at hld
      cases hld
    · rintro _ s₃ ⟨G₃, hS₃, hn, hput⟩
      have hzero : (s₃.setEntry dt di (pteZero b)).page b.zero = Page.zeros :=
        hput.base.zero.trans (hl₂.base.zero.trans h0)
      have hdrop := hput.acts (R := fun a v v' => if pdx 0 a = di then v'.page = Page.zeros else View.Keeps v v')
        hS₂.toWhole hld (fun a _ ha => ?_) fun a v ha => ?_
      · refine ends_modify ⟨G₃, hend (hl₂.trans ⟨hS₃, hput.base, hn, fun _ => hput.dry, fun _ => hdrop⟩ hl
          fun a v v₁ v₂ _ hR hR₂ => ?_)⟩
        by_cases ha : pdx 0 a = di
        · rw [if_pos ha] at hR₂ ⊢
          rw [hR₂, hc]
          rfl
        · rw [if_neg ha] at hR hR₂ ⊢
          exact hR.trans hR₂
      · rw [if_pos ha]
        simp only [viewAt, ha, hput.entry, pteZero_frame, hzero]
      · rw [if_neg ha]
        exact View.Keeps.refl v
  · have hc : m.2 = true := by simpa using hc
    rw [hc]
    exact hl₂

/-! ## Rounds -/

/-- What is merged in one round. -/
def roundSize (l : ℕ) (x : MergeAt) (svahi : ℕ) : ℕ := min (pdAddr l x.sva + pdSize l) svahi - x.sva

theorem roundSize_spec {x : MergeAt} (hlt : x.sva < svahi)
    (hs : ¬(pdOff l x.sva ≠ 0 ∧ pdAddr l x.sva + pdSize l < svahi)) :
    0 < roundSize l x svahi ∧ x.sva + roundSize l x svahi ≤ svahi ∧
      x.sva + roundSize l x svahi ≤ (x.sva / pdSize l + 1) * pdSize l ∧
      min (x.sva + pdSize l) svahi = x.sva + roundSize l x svahi := by
  have hnext := next_lt l x.sva
  have hend := entryEnd_eq l x.sva svahi
  have haddr : pdAddr l x.sva + pdSize l = (x.sva / pdSize l + 1) * pdSize l := by rw [pdAddr_eq, Nat.succ_mul]
  unfold roundSize
  rw [haddr] at hs ⊢
  by_cases ho : pdOff l x.sva = 0
  · have hst := pdOff_eq_zero.1 ho
    rw [Nat.succ_mul, hst] at hnext ⊢
    omega
  · have hge : svahi ≤ (x.sva / pdSize l + 1) * pdSize l := by
      by_contra hc
      exact hs ⟨ho, by omega⟩
    have hle : svahi ≤ x.sva + pdSize l := by
      have := block_le l x.sva
      rw [Nat.succ_mul] at hge
      omega
    omega

/-- The entry is the same for all of the round. -/
theorem pdx_round {k : ℕ} (h : sva + k < (sva / pdSize l + 1) * pdSize l) : pdx l (sva + k) = pdx l sva := by
  rw [pdx_eq, pdx_eq, block_of_lt ((block_le _ _).trans (Nat.le_add_right _ _)) h]

/-- What is merged from the source at an address of the destination. -/
def JoinedFrom (b : Boot) (s : Mem) (l : ℕ) (rt st : Frame) (sva dva a : ℕ) : View → View → Prop :=
  Joined (sourceView b s l rt sva dva a) (sourceView b s l st sva dva a)

/-- For addresses that are not in the table of `dva`, the source has no changes. -/
def Inert (b : Boot) (s : Mem) (l : ℕ) (rt st : Frame) (sva dva n : ℕ) : Prop :=
  ∀ a, dva ≤ a → a < dva + n → a / pdSize (l + 1) ≠ dva / pdSize (l + 1) →
    (sourceView b s l st sva dva a).page = (sourceView b s l rt sva dva a).page

/-- The notes of a merge that changes tables that others use, or that leaves out or adds parts of entries. -/
structure JoinNotes (N : Set Note) : Prop where
  merge : MergeNotes N True
  skipped : Note.skipped ∈ N
  unaligned : Note.unaligned ∈ N
  beyond : Note.beyond ∈ N

/-- What merging `n` bytes of a level-`l` table leaves. -/
structure JoinsAt (b : Boot) (l : ℕ) (rt st dt : Frame) (sva dva n : ℕ) (G : Ghost) (s s' : Mem) : Prop where
  ref : (G.kind rt).level = some l
  src : (G.kind st).level = some l
  left : ∃ G', Left b l dt True (Ranged l dva dva (dva + n) (JoinedFrom b s l rt st sva dva)) G s G' s'
  inert : Inert b s l rt st sva dva n

/-- What merging a stretch of a level-`l` table does. -/
def MergesTo (b : Boot) (N : Set Note) (rr sr dr : Frame) (l : ℕ)
    (merge : Frame → Frame → ℕ → Frame → ℕ → ℕ → Kern Unit) : Prop :=
  ∀ (G : Ghost) (s : Mem) (rt st dt : Frame) (sva dva svahi : ℕ), Sound b G s → s.page b.zero = Page.zeros →
    G.kind rr = .root → G.kind sr = .root → Round b rr sr dr G s l rt st dt ⟨sva, pdx l sva, dva, pdx l dva⟩ →
    Stretch l sva dva svahi → rt ≠ dt → st ≠ dt →
    Ends N (merge rt st sva dt dva svahi) s (fun _ s' => JoinsAt b l rt st dt sva dva (svahi - sva) G s s')
      fun _ _ => True

section

variable {lower : Frame → Frame → ℕ → Frame → ℕ → ℕ → Kern Unit}

/-- Two tables with the same entry show the same through it. -/
theorem viewAt_entry_eq (he : s.entry st (pdx l a) = s.entry rt (pdx l a)) : viewAt b s a l st = viewAt b s a l rt :=
  viewAt_same he rfl (fun _ => rfl) fun _ _ _ => rfl

/-- The destination has what the reference has, and gets what the source has. -/
theorem copyRound_joins {x : MergeAt} (hN : JoinNotes N) (hS : Sound b G s) (hsrc : TableOf b G s sr x.sva l st)
    (hdest : TableOf b G s dr x.dva l dt) (hsd : st ≠ dt) (hds : 4096 ∣ x.sva) (hdd : 4096 ∣ x.dva)
    (hos : pdOff l x.sva = 0) (hod : pdOff l x.dva = 0) (hes : x.sva + pdSize l ≤ tableEnd l x.sva)
    (hed : x.dva + pdSize l ≤ tableEnd l x.dva) (he : s.entry dt (pdx l x.dva) = s.entry rt (pdx l x.sva)) :
    Ends N (pmapCopyLevel b l st x.sva dt x.dva (x.sva + pdSize l)) s (fun _ s' => ∃ G', Left b l dt True
      (Ranged l x.dva x.dva (x.dva + pdSize l) (JoinedFrom b s l rt st x.sva x.dva)) G s G' s') fun _ _ => True := by
  have hcopy : CopyNotes N := by
    obtain ⟨⟨h₁, h₂, h₃⟩, -⟩ := hN.merge.shared trivial
    exact ⟨h₁, h₂, h₃⟩
  have hsub : x.sva + pdSize l - x.sva = pdSize l := Nat.add_sub_cancel_left _ _
  have hsp := hdest.span hS.toWhole hdd hed
  have h := pmapCopyLevel_takes (b := b) hcopy l G s st dt x.sva x.dva (x.sva + pdSize l) hS (hsrc.kind hS.toWhole).1
    (hdest.kind hS.toWhole).1 hsd (hsrc.span hS.toWhole hds hes) (by rw [hsub]; exact hsp)
  rw [hsub] at h
  refine h.imp ?_
  rintro _ s' ⟨G', hl⟩
  refine ⟨G', hl.mono_view fun a _ hR hab => ?_⟩
  have hR := hR hab
  by_cases hin : x.dva ≤ a ∧ a < x.dva + pdSize l
  · rw [if_pos hin] at hR ⊢
    have hidx := (in_entry_iff hod hab).1 hin
    obtain ⟨hdiv, hmod⟩ := shift_entry hos hod hin.1 hin.2
    have hidx' : pdx l (x.sva + (a - x.dva)) = pdx l x.sva := by rw [pdx_eq, pdx_eq, hdiv]
    have hsame : viewAt b s a l dt = sourceView b s l rt x.sva x.dva a := by
      refine viewAt_same (by rw [hidx, hidx', he]) rfl (fun _ => rfl) fun m hm _ => viewAt_mod ?_
      rw [← hm, hmod]
    rw [hsame]
    unfold JoinedFrom Joined
    rw [hR.page]
    exact Combined.of_dest _ _
  · rw [if_neg hin] at hR ⊢
    exact hR

/-- Down one level. -/
theorem lowerRound_joins {x : MergeAt} (hS : Sound b G s) (h0 : s.page b.zero = Page.zeros)
    (hrr : G.kind rr = .root) (hsr : G.kind sr = .root) (href : TableOf b G s rr x.sva (m + 1) rt)
    (hsrc : TableOf b G s sr x.sva (m + 1) st) (hR : Round b rr sr dr G s (m + 1) rt st dt x)
    (hst : Stretch (m + 1) x.sva x.dva svahi) (hrd : rt ≠ dt) (hsd : st ≠ dt)
    (hn : x.sva + roundSize (m + 1) x svahi ≤ (x.sva / pdSize (m + 1) + 1) * pdSize (m + 1))
    (hzd : (s.entry dt (pdx (m + 1) x.dva)).frame ≠ b.zero)
    (hz : 1 < m + 1 → (s.entry rt (pdx (m + 1) x.sva)).frame ≠ b.zero ∧ (s.entry st (pdx (m + 1) x.sva)).frame ≠ b.zero)
    (hov : lastDva m x.sva x.dva (min (pdAddr (m + 1) x.sva + pdSize (m + 1)) svahi) < tableEnd m x.dva)
    (hone : s.refcount (s.entry dt (pdx (m + 1) x.dva)).frame = 1) (hlow : MergesTo b N rr sr dr m lower) :
    Ends N (lower (s.entry rt (pdx (m + 1) x.sva)).frame (s.entry st (pdx (m + 1) x.sva)).frame x.sva
        (s.entry dt (pdx (m + 1) x.dva)).frame x.dva (min (pdAddr (m + 1) x.sva + pdSize (m + 1)) svahi)) s
      (fun _ s' => JoinsAt b (m + 1) rt st dt x.sva x.dva (roundSize (m + 1) x svahi) G s s') fun _ _ => True := by
  obtain ⟨hl, hm⟩ := hR.dest.kind hS.toWhole
  obtain ⟨hrl, hrm⟩ := href.kind hS.toWhole
  obtain ⟨hsl, hsm⟩ := hsrc.kind hS.toWhole
  have hslot := hS.slot_maps hl hm hzd
  have hend : svahi ≤ vmUserHi := hst.src.trans (min_le_right _ _)
  -- below a page directory there can be the zero page
  have hdown : ∀ {r t}, TableOf b G s r x.sva (m + 1) t → (1 < m + 1 → (s.entry t (pdx (m + 1) x.sva)).frame ≠ b.zero) →
      TableOrZero b G s r x.sva m (s.entry t (pdx (m + 1) x.sva)).frame := by
    intro r t h hz
    by_cases hz' : (s.entry t (pdx (m + 1) x.sva)).frame = b.zero
    · refine .inr ⟨?_, hz'⟩
      by_contra hm0
      exact hz (by omega) hz'
    · exact .inl (h.lower hz')
  -- the lower table of the destination is in one table only
  have hne : ∀ {t}, (G.kind t).level = some (m + 1) → (G.kind t).maps x.sva → t ≠ dt →
      (s.entry t (pdx (m + 1) x.sva)).frame ≠ (s.entry dt (pdx (m + 1) x.dva)).frame := by
    intro t htl htm htd hf
    have hslot' := hS.slot_maps htl htm (by rw [hf]; exact hzd)
    rw [hf] at hslot'
    exact htd (hS.single_slot hone hslot' hslot).1
  have hlow := hlow G s _ _ _ x.sva x.dva (min (pdAddr (m + 1) x.sva + pdSize (m + 1)) svahi) hS h0 hrr hsr
    ⟨hdown href fun h => (hz h).1, hdown hsrc fun h => (hz h).2, hR.dest.lower hzd, hR.user, rfl, rfl, hR.sva_dvd, hR.dva_dvd⟩
    ⟨?_, ?_, ?_, hov⟩ (hne hrl hrm hrd) (hne hsl hsm hsd)
  · refine hlow.imp ?_
    rintro _ s' ⟨hr, hs, ⟨G', hleft⟩, hin⟩
    change Left b m _ True (Ranged m x.dva x.dva (x.dva + roundSize (m + 1) x svahi) _) G s G' s' at hleft
    change Inert b s m _ _ x.sva x.dva (roundSize (m + 1) x svahi) at hin
    have hnz : ∀ {f}, (G.kind f).level = some m → f ≠ b.zero := by
      rintro f hf rfl
      rw [hS.zero] at hf
      cases hf
    -- what is found through the entries
    have hpage : ∀ {t} a, (s.entry t (pdx (m + 1) x.sva)).frame ≠ b.zero → x.dva ≤ a → a < x.dva + roundSize (m + 1) x svahi →
        (sourceView b s (m + 1) t x.sva x.dva a).page =
          (sourceView b s m (s.entry t (pdx (m + 1) x.sva)).frame x.sva x.dva a).page := by
      intro t a hz h₁ h₂
      have hidx : pdx (m + 1) (x.sva + (a - x.dva)) = pdx (m + 1) x.sva := pdx_round (by omega)
      unfold sourceView
      rw [viewAt_some (by rw [hidx]; exact hz), hidx]
      rfl
    have hinert : ∀ a, x.dva ≤ a → a < x.dva + roundSize (m + 1) x svahi → a / pdSize (m + 1) ≠ x.dva / pdSize (m + 1) →
        (sourceView b s (m + 1) st x.sva x.dva a).page = (sourceView b s (m + 1) rt x.sva x.dva a).page := by
      intro a h₁ h₂ h₃
      rw [hpage a (hnz hr) h₁ h₂, hpage a (hnz hs) h₁ h₂]
      exact hin a h₁ h₂ h₃
    refine ⟨hrl, hsl, ⟨G', hleft.sound, hleft.base.mono (by omega), hleft.neat, hleft.dry, fun hC => ?_⟩, fun a h₁ h₂ h₃ =>
      hinert a h₁ h₂ fun hb => h₃ (by rw [div_succ (m + 1) a, hb, ← div_succ])⟩
    refine (hleft.acts hC).lift hS.toWhole hl hslot hone (fun a v v' _ hi hR' hab => ?_) fun a v v' hni hK hab => ?_
    · have hR' := hR' ((div_of_pdx hab).1 hi)
      split at hR'
      · rename_i hin'
        rw [if_pos hin']
        unfold JoinedFrom Joined at *
        rw [hpage a (hnz hr) hin'.1 hin'.2, hpage a (hnz hs) hin'.1 hin'.2]
        exact hR'
      · rename_i hin'
        rw [if_neg hin']
        exact hR'.under id id
    · split
      · rename_i hin'
        unfold JoinedFrom Joined
        rw [hinert a hin'.1 hin'.2 fun hb => hni ((div_of_pdx hab).2 hb), hK.page]
        exact Combined.of_source _ _
      · exact hK
  · rw [entryEnd_eq]
    rcases min_choice ((x.sva / pdSize (m + 1) + 1) * pdSize (m + 1)) svahi with e | e <;> rw [e]
    · exact (four_dvd _).mul_left _
    · exact hst.dvd
  · rw [entryEnd_eq]
    exact lt_min (next_lt _ _) hst.lt
  · exact min_le_min le_rfl hend

/-- One round. -/
theorem mergeEntry_joins {x : MergeAt} (hN : JoinNotes N) (hS : Sound b G s) (h0 : s.page b.zero = Page.zeros)
    (hrr : G.kind rr = .root) (hsr : G.kind sr = .root) (hR : Round b rr sr dr G s l rt st dt x)
    (hst : Stretch l x.sva x.dva svahi) (hrd : rt ≠ dt) (hsd : st ≠ dt)
    (hlow : ∀ m, l = m + 1 → MergesTo b N rr sr dr m lower) :
    Ends N (mergeEntry b (roundCheck b true rr sr dr) lower l rt st dt svahi x) s (fun y s' =>
      y = ⟨x.sva + pdSize l, x.si + 1, x.dva + pdSize l, x.di + 1⟩ ∧
      ¬(pdOff l x.sva ≠ 0 ∧ pdAddr l x.sva + pdSize l < svahi) ∧
      JoinsAt b l rt st dt x.sva x.dva (roundSize l x svahi) G s s') fun _ _ => True := by
  obtain ⟨hl, hm⟩ := hR.dest.kind hS.toWhole
  have hp := pdSize_pos l
  unfold mergeEntry readEntry
  refine ends_bind ?_
  unfold roundCheck
  refine ends_bind_get (ends_check (fun hc => ?_) fun _ => trivial)
  obtain ⟨hrt, hst', -, hsi, hdi⟩ := hc
  have href : TableOf b G s rr x.sva l rt := ⟨hrr, hR.user, hrt.resolve_right (by simp)⟩
  have hsrc : TableOf b G s sr x.sva l st := ⟨hsr, hR.user, hst'.resolve_right (by simp)⟩
  obtain ⟨hrl, hrm⟩ := href.kind hS.toWhole
  obtain ⟨hsl, hsm⟩ := hsrc.kind hS.toWhole
  refine ends_bind_noteIf fun hskip => ?_
  have hskip := hskip hN.skipped
  obtain ⟨hpos, hle, hn, -⟩ := roundSize_spec hst.lt hskip
  refine ends_bind (ends_bind_get (ends_pure.2 (ends_bind (ends_bind_get (ends_pure.2 (ends_bind
    (ends_bind_get (ends_pure.2 ?_))))))))
  rw [hsi, hdi]
  refine ends_ite (fun heq => ?_) fun hne => ends_ite (fun heq => ?_) fun hdr => ends_ite (fun hdown => ?_)
    fun hzero => ?_
  · -- nothing has changed
    have hsame : ∀ a, x.dva ≤ a → a < x.dva + roundSize l x svahi →
        sourceView b s l st x.sva x.dva a = sourceView b s l rt x.sva x.dva a := by
      intro a h₁ h₂
      refine viewAt_entry_eq ?_
      rw [pdx_round (by omega), heq]
    refine ends_pure.2 ⟨rfl, hskip, hrl, hsl, ⟨G, hS.left_refl fun a _ _ => ?_⟩, fun a h₁ h₂ _ => by rw [hsame a h₁ h₂]⟩
    split
    · rename_i hin
      unfold JoinedFrom Joined
      rw [hsame a hin.1 hin.2]
      exact Combined.of_source _ _
    · exact View.Keeps.refl _
  · -- the entry is copied
    refine ends_bind_noteIf fun hun => ends_bind_noteIf fun hby => ends_bind_noteIf fun hov => ?_
    have hun := hun hN.unaligned
    have hby := hby hN.beyond
    have hov := hov hN.merge.overrun
    push Not at hun hby hov
    have hsize : roundSize l x svahi = pdSize l := by
      unfold roundSize
      have := pdOff_eq_zero.1 hun.1
      rw [pdAddr_eq, this, min_eq_left hby]
      omega
    refine ends_bind ((copyRound_joins hN hS hsrc hR.dest hsd hR.sva_dvd hR.dva_dvd hun.1 hun.2 hov.1 hov.2 heq).imp ?_)
    rintro _ s' h
    rw [hsize]
    refine ends_pure.2 ⟨rfl, hskip, hrl, hsl, h, fun a h₁ h₂ h₃ => ?_⟩
    exact absurd (block_of_tableEnd h₁ (h₂.trans_le hov.2)).1 h₃
  · -- down
    obtain ⟨m, rfl⟩ : ∃ m, l = m + 1 := ⟨l - 1, by omega⟩
    refine ends_bind_noteIf fun hmiss => ends_bind_noteIf fun hov => ends_bind_get (ends_bind_noteIf
      fun hsh => ?_)
    have hmiss := hmiss hN.merge.missing
    have hov := hov hN.merge.overrun
    push Not at hmiss hov
    rw [Nat.add_sub_cancel] at hov
    have hone := not_not.1 (hsh (hN.merge.shared trivial).2)
    refine ends_bind ((lowerRound_joins hS h0 hrr hsr href hsrc hR hst hrd hsd hn hmiss.1 hmiss.2 hov hone
      (hlow m rfl)).imp ?_)
    rintro _ s' h
    exact ends_pure.2 ⟨rfl, hskip, h⟩
  · -- a page
    obtain rfl : l = 0 := by omega
    have hu := Kind.maps_user hl hm
    have hur := Kind.maps_user hrl hrm
    have hus := Kind.maps_user hsl hsm
    have hoff : ∀ {va}, 4096 ∣ va → pdOff 0 va = 0 := fun h => Nat.mod_eq_zero_of_dvd (by simpa [pdSize] using h)
    have hos := hoff hR.sva_dvd
    have hod := hoff hR.dva_dvd
    have hsize : roundSize 0 x svahi = pdSize 0 := by
      have hge : x.sva + pdSize 0 ≤ svahi := by
        have h₁ := hst.lt
        have h₂ := hst.dvd
        have h₃ := hR.sva_dvd
        have h₄ : pdSize 0 = 4096 := rfl
        omega
      unfold roundSize
      rw [pdAddr_eq, pdOff_eq_zero.1 hos, min_eq_left hge]
      omega
    refine ends_bind ((pmapMergepage_joins hN.merge.zero hS h0 hl hu hrl hsl hur hus hrd hsd).imp ?_)
    rintro _ s' ⟨G', h⟩
    rw [hsize] at hn ⊢
    refine ends_pure.2 ⟨rfl, hskip, hrl, hsl, ⟨G', h.mono fun a v v' _ hR' hab => ?_⟩, fun a h₁ h₂ h₃ => ?_⟩
    · by_cases hin : x.dva ≤ a ∧ a < x.dva + pdSize 0
      · rw [if_pos ((in_entry_iff hod hab).1 hin)] at hR'
        rw [if_pos hin]
        have hidx : pdx 0 (x.sva + (a - x.dva)) = pdx 0 x.sva := pdx_round (by omega)
        unfold JoinedFrom Joined sourceView
        simp only [viewAt, hidx]
        exact hR'
      · rw [if_neg ((in_entry_iff hod hab).not.1 hin)] at hR'
        rw [if_neg hin]
        exact hR'
    · have hblock : x.dva + pdSize 0 ≤ (x.dva / pdSize 1 + 1) * pdSize 1 := by
        have h₄ : pdSize 1 = 2097152 := rfl
        have h₅ : pdSize 0 = 4096 := rfl
        have h₆ := hR.dva_dvd
        rw [h₄, h₅]
        omega
      exact absurd (block_of_lt ((block_le _ _).trans h₁) (h₂.trans_le hblock)) h₃

theorem TableOrZero.maps (h : TableOrZero b G s r va l t) (hS : Whole b G s) (hl : (G.kind t).level = some l)
    (h₁ : va ≤ a) (h₂ : a < tableEnd l va) : (G.kind t).maps a := by
  rcases h with h | ⟨-, rfl⟩
  · obtain ⟨hb, hu⟩ := block_of_tableEnd h₁ h₂
    exact ((h.block ⟨h.user.1.trans h₁, hu⟩ hb).kind hS).2
  · rw [hS.zero] at hl
    cases hl

/-- What a round finds in the reference and in the source is what was there at the beginning. -/
theorem Left.sourceView_keeps {x : MergeAt} {R : ℕ → View → View → Prop} (h : Left b l dt True R G s G' s')
    (ht : TableOrZero b G' s' r x.sva l t) (hl : (G'.kind t).level = some l) (hne : t ≠ dt)
    (hx : x.dva = dva + (x.sva - sva)) (hle : sva ≤ x.sva) (h₁ : x.dva ≤ a) (h₂ : x.sva + (a - x.dva) < tableEnd l x.sva) :
    View.Keeps (sourceView b s l t sva dva a) (sourceView b s' l t x.sva x.dva a) := by
  have hk := h.base.kind_new t l hl le_rfl
  have hat : x.sva + (a - x.dva) = sva + (a - dva) := by omega
  have hm := ht.maps h.sound.toWhole hl (Nat.le_add_right _ _) h₂
  unfold sourceView
  rw [← hat]
  exact (h.acts trivial).other t _ (by rw [hk]; exact hl) hne (by rw [hk]; exact hm)

/-- The loop over the entries. -/
theorem mergeLoop_joins (hN : JoinNotes N) (hlow : ∀ m, l = m + 1 → MergesTo b N rr sr dr m lower) :
    MergesTo b N rr sr dr l (mergeLoop b (roundCheck b true rr sr dr) lower l) := by
  intro G s rt st dt sva dva svahi hS h0 hrr hsr hR hst hrd hsd
  obtain ⟨hl, -⟩ := hR.dest.kind hS.toWhole
  have hp := pdSize_pos l
  have hlt := hst.lt
  unfold mergeLoop
  refine ends_bind (ends_whileM (I := fun x s' => sva ≤ x.sva ∧ x.dva = dva + (x.sva - sva) ∧
    (sva < x.sva → (G.kind rt).level = some l ∧ (G.kind st).level = some l) ∧
    Inert b s l rt st sva dva (min x.sva svahi - sva) ∧ ∃ G',
    Left b l dt True (Ranged l dva dva (dva + (min x.sva svahi - sva)) (JoinedFrom b s l rt st sva dva)) G s G' s' ∧
    (x.sva < svahi → Round b rr sr dr G' s' l rt st dt x ∧ Stretch l x.sva x.dva svahi ∧
      x.dva / pdSize (l + 1) = dva / pdSize (l + 1)))
    (fun x => svahi - x.sva) ?_ ?_ ?_ _ _ _ le_rfl ?_)
  · rintro x s' - hc
    simp only [decide_eq_true_eq] at hc
    omega
  · rintro x s' ⟨hle, hx, -, hin, G', hleft, h⟩ hc
    simp only [decide_eq_true_eq] at hc
    obtain ⟨hR', hst', hb⟩ := h hc
    have hmin : min x.sva svahi = x.sva := min_eq_left hc.le
    rw [hmin] at hin hleft
    have hroot : ∀ {r}, G.kind r = .root → G'.kind r = .root := fun hr => (hleft.base.root hR.dest.level_le).2 hr
    refine (mergeEntry_joins hN hleft.sound (hleft.base.zero.trans h0) (hroot hrr) (hroot hsr) hR' hst' hrd hsd hlow).imp ?_
    rintro y s₂ ⟨rfl, hskip, hrl, hsl, ⟨G₂, hleft₂⟩, hin₂⟩
    obtain ⟨hpos, hsize, -, hmin₂⟩ := roundSize_spec hc hskip
    have hend := hst'.src
    have hsum : dva + (x.sva + roundSize l x svahi - sva) = x.dva + roundSize l x svahi := by omega
    have hx' : dva + (x.sva - sva) = x.dva := hx.symm
    -- the views of the round are those of the beginning
    have hkr : ∀ a, x.dva ≤ a → a < x.dva + roundSize l x svahi →
        View.Keeps (sourceView b s l rt sva dva a) (sourceView b s' l rt x.sva x.dva a) := fun a h₁ h₂ =>
      hleft.sourceView_keeps hR'.ref hrl hrd hx hle h₁ (by omega)
    have hks : ∀ a, x.dva ≤ a → a < x.dva + roundSize l x svahi →
        View.Keeps (sourceView b s l st sva dva a) (sourceView b s' l st x.sva x.dva a) := fun a h₁ h₂ =>
      hleft.sourceView_keeps hR'.src hsl hsd hx hle h₁ (by omega)
    refine ⟨⟨by simp only; omega, by simp only; omega, fun _ => ⟨?_, ?_⟩, ?_, G₂, ?_, fun hlt' => ?_⟩, by simp only; omega⟩
    · rw [hleft.base.kind_new rt l hrl le_rfl]
      exact hrl
    · rw [hleft.base.kind_new st l hsl le_rfl]
      exact hsl
    · simp only [hmin₂]
      intro a h₁ h₂ h₃
      by_cases ha : a < x.dva
      · exact hin a h₁ (by omega) h₃
      · have hpage := hin₂ a (by omega) (by omega) (by rw [hb]; exact h₃)
        rw [← (hkr a (by omega) (by omega)).page, ← (hks a (by omega) (by omega)).page]
        exact hpage
    · simp only [hmin₂, hsum]
      rw [hx'] at hleft
      refine hleft.trans hleft₂ hl fun a v v₁ v₂ _ hRg hRg₂ => ?_
      refine Ranged.comp (stable_joined _ _) (by omega) (by omega) hRg fun hab => ?_
      have hRg₂ := hRg₂ (hab.trans hb.symm)
      split
      · rename_i hin'
        rw [if_pos hin'] at hRg₂
        exact hRg₂.source (hkr a hin'.1 hin'.2) (hks a hin'.1 hin'.2)
      · rename_i hin'
        rw [if_neg hin'] at hRg₂
        exact hRg₂
    · simp only at hlt'
      obtain ⟨hR₂, hst₂⟩ := (hR'.base hleft.sound.toWhole hleft₂.base).next hst' hlt'
      refine ⟨hR₂, hst₂, ?_⟩
      obtain ⟨-, hdle⟩ : lastDva l (x.sva + pdSize l) (x.dva + pdSize l) svahi = lastDva l x.sva x.dva svahi ∧
          x.dva + pdSize l ≤ lastDva l x.sva x.dva svahi := lastDva_step hlt'
      exact (block_of_tableEnd (Nat.le_add_right x.dva (pdSize l)) (hdle.trans_lt hst'.dest)).1.trans hb
  · rintro x s' ⟨hle, -, hlev, hin, G', hleft, -⟩ hc
    simp only [decide_eq_false_iff_not, not_lt] at hc
    obtain ⟨hrl, hsl⟩ := hlev (by omega)
    rw [min_eq_right hc] at hin hleft
    exact ends_pure.2 ⟨hrl, hsl, ⟨G', hleft⟩, hin⟩
  · refine ⟨le_rfl, by simp, fun h => absurd h (lt_irrefl _), fun a h₁ h₂ => ?_, G, hS.left_refl fun a _ _ => ?_, fun _ =>
      ⟨hR, hst, rfl⟩⟩
    · simp only at h₂
      omega
    · rw [if_neg (by simp only; omega)]
      exact View.Keeps.refl _

/-- **Merging a stretch of a table.** -/
theorem pmapMergeLevel_joins (hN : JoinNotes N) (l : ℕ) :
    MergesTo b N rr sr dr l (pmapMergeLevel b (roundCheck b true rr sr dr) l) := by
  induction l with
  | zero =>
    unfold pmapMergeLevel
    exact mergeLoop_joins hN (by simp)
  | succ m ih =>
    unfold pmapMergeLevel
    refine mergeLoop_joins hN fun m' hm => ?_
    obtain rfl : m = m' := by omega
    exact ih

/-- **`pmap_merge`** of page maps of which neither the reference nor the source is the destination. -/
theorem pmapMerge_joins (hN : JoinNotes N) (hS : Sound b G s) (h0 : s.page b.zero = Page.zeros) (hrr : G.kind rr = .root)
    (hsr : G.kind sr = .root) (hdr : G.kind dr = .root) (hrd : rr ≠ dr) (hsd : sr ≠ dr) (hreg : Region sva dva size) :
    Ends N (pmapMergeLook b (roundCheck b true rr sr dr) rr sr sva dr dva size) s (fun _ s' => ∃ G', Left b 3 dr True
      (Ranged 3 dva dva (dva + size) (JoinedFrom b s 3 rr sr sva dva)) G s G' s') fun _ _ => True := by
  unfold pmapMergeLook
  refine regionAsserts_ends hreg ?_
  rcases Nat.eq_zero_or_pos size with rfl | hpos
  · rw [Nat.add_zero]
    have h3 : pmapMergeLevel b (roundCheck b true rr sr dr) nptLvls =
        mergeLoop b (roundCheck b true rr sr dr) (pmapMergeLevel b (roundCheck b true rr sr dr) 2) 3 := rfl
    rw [h3]
    unfold mergeLoop
    rw [Nat.sub_self]
    unfold whileM
    rw [if_neg (by simp)]
    exact ends_bind (ends_pure.2 (ends_pure.2 ⟨G, hS.left_refl fun _ _ => Ranged.empty⟩))
  have h₁ := hreg.src
  have h₂ := hreg.dest
  have h₃ := hreg.src_le
  have h₄ := hreg.dest_le
  have hsub : sva + size - sva = size := Nat.add_sub_cancel_left _ _
  refine (pmapMergeLevel_joins hN 3 G s rr sr dr sva dva (sva + size) hS h0 hrr hsr
    ⟨.inl (.of_root hrr h₁), .inl (.of_root hsr h₁), .of_root hdr h₂, h₁, rfl, rfl, hreg.sva_dvd,
      hreg.dva_dvd⟩ ⟨Nat.dvd_add hreg.sva_dvd hreg.size_dvd, by omega, ?_, ?_⟩ hrd hsd).imp ?_
  · rw [tableEnd_root h₁.2]
    omega
  · rw [tableEnd_root h₂.2]
    unfold lastDva
    have := Nat.div_mul_le_self (sva + size - sva - 1) (pdSize 3)
    omega
  · rintro _ s' ⟨-, -, h, -⟩
    rw [hsub] at h
    exact h

end

/-! ## In a run -/

/-- The notes that a merge does not make if it stays in tables of the destination that nobody else uses, and neither
leaves out nor adds parts of entries. -/
def mergeDefects : List Note := copyDefects ++ tableDefects ++ [.sharedMerge, .skipped, .unaligned, .beyond]

theorem joinNotes_mergeDefects : JoinNotes {n | n ∈ mergeDefects} := by
  refine ⟨⟨?_, ?_, ?_, fun _ => ⟨⟨?_, ?_, ?_⟩, ?_⟩⟩, ?_, ?_, ?_⟩ <;> simp [mergeDefects, copyDefects, tableDefects]

/-- **`pmap_merge`** puts into the destination the bytes that the source has changed since it was the reference. A page of
which both have changed a byte is gone. Nothing else changes: not the reference, not the source, not the rest of the
destination, and no other page map. It can stop at an assertion, and still no other page map has changed. -/
theorem merge_changes (hb : Booted b s₀) (h : Reach b (fun _ => True) defects s₀ σ) (hrr : σ.IsRoot rr) (hsr : σ.IsRoot sr)
    (hdr : σ.IsRoot dr) (hrd : rr ≠ dr) (hsd : sr ≠ dr) (hreg : Region sva dva size)
    (hn : ∀ n ∈ mergeDefects, n ∉ (pmapMerge b rr sr sva dr dva size σ.mem).notes)
    (hw : (pmapMergeLook b (roundCheck b true rr sr dr) rr sr sva dr dva size σ.mem).val ≠ .error .wild) :
    ((pmapMerge b rr sr sva dr dva size σ.mem).val = .ok () ∧
      σ.Changes b dr (Inside dva (dva + size) fun a => Joined (viewAt b σ.mem (sva + (a - dva)) nptLvls rr)
        (viewAt b σ.mem (sva + (a - dva)) nptLvls sr)) (pmapMerge b rr sr sva dr dva size σ.mem).state) ∨
    ((pmapMerge b rr sr sva dr dva size σ.mem).val = .error .assert ∧
      σ.Changes b dr (fun _ _ _ => True) (pmapMerge b rr sr sva dr dva size σ.mem).state) := by
  obtain ⟨G, hG⟩ := h.inv hb fun c _ => c.defects_subset
  have hN := joinNotes_mergeDefects
  have hsame : pmapMergeLook b (roundCheck b true rr sr dr) rr sr sva dr dva size σ.mem =
      pmapMerge b rr sr sva dr dva size σ.mem := by
    refine (mergeLook_guards fun _ _ _ _ x => roundCheck_guards x).same_of_ne ?_
    rintro e rfl
    exact hw
  have hjoin := (pmapMerge_joins hN hG.toSound hG.zeros (hG.is_root hrr) (hG.is_root hsr) (hG.is_root hdr) hrd hsd
    hreg).out
  rw [hsame] at hjoin
  have hjoin := hjoin fun n hn' hmem => hn n hmem hn'
  have hquiet : Quiet b {n | n ∈ mergeDefects} rr sr dr fun _ _ _ _ _ => pure () := fun _ _ _ _ _ _ _ _ _ => ends_pure.2 rfl
  have hends : Ends {n | n ∈ mergeDefects} (pmapMerge b rr sr sva dr dva size) σ.mem _ _ :=
    pmapMergeLook_ends hN.merge hquiet hG.toSound hG.zeros (hG.is_root hrr) (hG.is_root hsr) (hG.is_root hdr) hreg
  have hstop := hends.out fun n hn' hmem => hn n hmem hn'
  cases hv : (pmapMerge b rr sr sva dr dva size σ.mem).val with
  | error e =>
    rw [hv] at hstop
    obtain ⟨rfl, G', -, ha⟩ := hstop
    exact .inr ⟨rfl, hG.changes hdr (ha trivial).any⟩
  | ok u =>
    rw [hv] at hjoin
    obtain ⟨G', hl⟩ := hjoin
    exact .inl ⟨rfl, hG.changes_range hdr hreg.dest (hl.acts trivial)⟩

theorem merge_changes_sample : ∃ σ, Reach sampleBoot (fun _ => True) defects (freshMem samplePages) σ ∧
    σ.Changes sampleBoot 0x1000 (Inside 0x40000000 (0x40000000 + 0x40000000) fun a =>
      Joined (viewAt sampleBoot σ.mem (0x40000000 + (a - 0x40000000)) nptLvls 0x1002)
        (viewAt sampleBoot σ.mem (0x40000000 + (a - 0x40000000)) nptLvls 0x1004))
      (pmapMerge sampleBoot 0x1002 0x1004 0x40000000 0x1000 0x40000000 0x40000000 σ.mem).state := by
  obtain ⟨σ, hσ, hP⟩ := exists_reach sampleBoot (fun _ => True) defects (freshMem samplePages) sampleMerge
    (fun σ => decide (σ.IsRoot 0x1002 ∧ σ.IsRoot 0x1004 ∧ σ.IsRoot 0x1000 ∧
      (∀ n ∈ mergeDefects, n ∉ (pmapMerge sampleBoot 0x1002 0x1004 0x40000000 0x1000 0x40000000 0x40000000 σ.mem).notes) ∧
      (pmapMergeLook sampleBoot (roundCheck sampleBoot true 0x1002 0x1004 0x1000) 0x1002 0x1004 0x40000000 0x1000 0x40000000
        0x40000000 σ.mem).val ≠ .error .wild ∧
      (pmapMerge sampleBoot 0x1002 0x1004 0x40000000 0x1000 0x40000000 0x40000000 σ.mem).val = .ok ()))
    (fun _ _ => trivial) (by decide +kernel)
  obtain ⟨hrr, hsr, hdr, hn, hw, hv⟩ := of_decide_eq_true hP
  rcases merge_changes sample_booted hσ hrr hsr hdr (by decide) (by decide) (by decide) hn hw with ⟨-, hc⟩ | ⟨hstop, -⟩
  · exact ⟨σ, hσ, hc⟩
  · rw [hv] at hstop
    cases hstop

end Determinator
