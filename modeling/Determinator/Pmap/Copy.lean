import Determinator.Pmap.Remove

/-!
# Copying

`pmap_copy_level` goes through a stretch of the source table and the stretch of the destination table
that it is copied to; the two tables may be one. An entry that is copied as a whole is shared, and
below an entry that is copied in part the destination gets a table if it has none. The only way to
stop is the assertion that there is one then.
-/

namespace Determinator

open PanicM

variable {b : Boot} {G G' G₁ G₂ : Ghost} {s s' s₁ s₂ : Mem} {f g t u T st dt : Frame} {k : Kind}
  {i l m va lo hi lo' hi' rlo rhi sva dva svahi : ℕ}

/-! ## Parts of stretches -/

/-- A region of the user area that is aligned does not begin with the first entry of a root. -/
theorem Kind.root_pdx_ne (hl : k.level = some l) (hm : k.maps va) (ho : pdOff l va = 0) (hr : k = .root) :
    pdx l va ≠ 0 := by
  intro hx
  rw [hr] at hl hm
  obtain rfl : 3 = l := Option.some.inj hl
  obtain ⟨hlo, hhi⟩ : vmUserLo ≤ va ∧ va < vmUserHi := hm
  have hstart := pdOff_eq_zero.1 ho
  unfold vmUserLo at hlo
  unfold vmUserHi at hhi
  simp only [pdx, pdSize] at hx
  simp only [pdSize] at hstart
  omega

namespace Span

/-- A part of a stretch, as a region of its own. -/
theorem sub (h : Span k l lo hi rlo rhi) (h₁ : lo ≤ lo') (h₂ : hi' ≤ hi) (hlt : lo' < hi')
    (hd : 4096 ∣ lo') (hd' : 4096 ∣ hi') : Span k l lo' hi' lo' hi' := by
  have hb := h.block_eq h₁ (hlt.trans_le h₂)
  refine ⟨hd, hd', hlt, ?_, fun a ha ha' => h.maps a (h₁.trans ha) (ha'.trans_le h₂), fun a _ => Iff.rfl⟩
  rw [hb]
  exact h₂.trans h.block

/-- A part of a stretch that one entry is for. -/
theorem kid (h : Span k (l + 1) lo hi rlo rhi) (hk : k.level = some (l + 1)) (h₁ : lo ≤ lo')
    (h₂ : hi' ≤ hi) (hlt : lo' < hi') (hd : 4096 ∣ lo') (hd' : 4096 ∣ hi')
    (he : hi' ≤ (lo' / pdSize (l + 1) + 1) * pdSize (l + 1)) :
    Span (k.kid (pdx (l + 1) lo')) l lo' hi' lo' hi' := by
  refine ⟨hd, hd', hlt, he, fun a ha ha' => ?_, fun a _ => Iff.rfl⟩
  have hx : pdx (l + 1) a = pdx (l + 1) lo' := by
    rw [pdx_eq, pdx_eq, block_of_lt ((block_le _ _).trans ha) (ha'.trans_le he)]
  rw [← hx]
  exact Kind.maps_kid hk (h.maps a (h₁.trans ha) (ha'.trans_le h₂))

end Span

/-- The index after moving on within an entry, or to its end. -/
theorem pdx_step (h₁ : va < lo') (h₂ : lo' ≤ (va / pdSize l + 1) * pdSize l)
    (hb : lo' / pdSize (l + 1) = va / pdSize (l + 1)) :
    (if pdOff l lo' = 0 then pdx l va + 1 else pdx l va) = pdx l lo' := by
  rcases h₂.lt_or_eq with h₂ | rfl
  · have hdiv : lo' / pdSize l = va / pdSize l := block_of_lt ((block_le _ _).trans h₁.le) h₂
    rw [if_neg, pdx_eq, pdx_eq, hdiv]
    intro ho
    have := pdOff_eq_zero.1 ho
    rw [hdiv] at this
    have := block_le l va
    omega
  · have hlt : (va / pdSize l + 1) * pdSize l < (va / pdSize (l + 1) + 1) * pdSize (l + 1) := by
      rw [← hb]
      exact next_lt _ _
    rw [if_pos (pdOff_eq_zero.2 (by rw [next_div])), (next_block hlt rfl).2]

/-- The index after a part of an entry that is not the last of the stretch. -/
theorem Span.pdx_part {n : ℕ} (h : Span k l lo hi rlo rhi) (h₁ : lo ≤ va) (hpos : 0 < n) (hlt : va + n < hi)
    (hle : va + n ≤ (va / pdSize l + 1) * pdSize l) :
    (if pdOff l (va + n) = 0 then pdx l va + 1 else pdx l va) = pdx l (va + n) := by
  refine pdx_step (by omega) hle ?_
  rw [h.block_eq h₁ (by omega)]
  exact h.block_eq (by omega) hlt

/-- The index after a whole entry. -/
theorem Span.pdx_whole (h : Span k l lo hi rlo rhi) (h₁ : lo ≤ va) (ho : pdOff l va = 0)
    (hlt : va + pdSize l < hi) : pdx l va + 1 = pdx l (va + pdSize l) := by
  have hnext : (va / pdSize l + 1) * pdSize l = va + pdSize l := by
    rw [Nat.succ_mul, pdOff_eq_zero.1 ho]
  rw [← h.pdx_part h₁ (pdSize_pos l) hlt hnext.ge, if_pos]
  rw [pdOff_eq_zero, ← hnext, next_div]

/-! ## Operations of which only the others matter -/

/-- Any change. -/
def Any (_ : ℕ) (_ _ : View) : Prop := True

/-- An assertion has failed; the other tables of the level do not see what has been done before. -/
def Stopped (b : Boot) (l : ℕ) (T : Frame) (C : Prop) (G : Ghost) (s : Mem) (e : Panic) (s' : Mem) : Prop :=
  e = .assert ∧ ∃ G', Base b l G s G' s' ∧ (C → Acts b l T Any G s G' s')

variable {C : Prop} {R : ℕ → View → View → Prop} {e : Panic}

theorem Left.any (h : Left b l T C R G s G' s') : Left b l T C Any G s G' s' :=
  h.mono fun _ _ _ _ _ => trivial

theorem Left.then (h : Left b l T C R G s G₁ s₁) (h' : Left b l T C Any G₁ s₁ G₂ s₂)
    (hT : (G.kind T).level = some l) : Left b l T C Any G s G₂ s₂ :=
  h.trans h' hT fun _ _ _ _ _ _ _ => trivial

/-- What is done before the assertion. -/
theorem Left.stopped (h : Left b l T C R G s G₁ s₁) (h' : Stopped b l T C G₁ s₁ e s')
    (hT : (G.kind T).level = some l) : Stopped b l T C G s e s' := by
  obtain ⟨he, G', hb, ha⟩ := h'
  exact ⟨he, G', h.base.trans hb, fun hC => (h.acts hC).trans (ha hC) hT fun _ _ _ _ _ _ _ => trivial⟩

/-- There was no page to go on with. -/
def RanOut (b : Boot) (l : ℕ) (T : Frame) (C : Prop) (G : Ghost) (s : Mem) (e : Panic) (s' : Mem) : Prop :=
  Stopped b l T C G s e s' ∧ s'.dry = true

theorem Left.ranOut (h : Left b l T C R G s G₁ s₁) (h' : RanOut b l T C G₁ s₁ e s')
    (hT : (G.kind T).level = some l) : RanOut b l T C G s e s' :=
  ⟨h.stopped h'.1 hT, h'.2⟩

/-- A change of one entry. -/
theorem Put.left {e : Pte} (h : Put b l t i e G s G' s') (hS : Sound b G s) (hS' : Sound b G' s')
    (hn : Neat G G') (hl : (G.kind t).level = some l) : Left b l t C Any G s G' s' :=
  ⟨hS', h.base, hn, fun _ => h.dry, fun _ => h.acts hS.toWhole hl (fun _ _ _ => trivial) fun _ _ _ => trivial⟩

/-- An operation on a table that one entry leads to is an operation on the table above. -/
theorem Left.up (h : Left b l t C Any G s G' s') (hS : Sound b G s) (hT : (G.kind T).level = some (l + 1))
    (hs : slot b G s T i = some t) (hr : C → s.refcount t = 1) : Left b (l + 1) T C Any G s G' s' where
  sound := h.sound
  base := h.base.mono (by omega)
  neat := h.neat
  dry := h.dry
  acts hC := (h.acts hC).lift hS.toWhole hT hs (hr hC) (fun _ _ _ _ _ _ => trivial) fun _ _ _ _ _ => trivial

theorem Stopped.up (h : Stopped b l t C G s e s') (hS : Sound b G s)
    (hT : (G.kind T).level = some (l + 1)) (hs : slot b G s T i = some t) (hr : C → s.refcount t = 1) :
    Stopped b (l + 1) T C G s e s' := by
  obtain ⟨he, G', hb, ha⟩ := h
  exact ⟨he, G', hb.mono (by omega), fun hC => (ha hC).lift hS.toWhole hT hs (hr hC)
    (fun _ _ _ _ _ _ => trivial) fun _ _ _ _ _ => trivial⟩

theorem RanOut.up (h : RanOut b l t C G s e s') (hS : Sound b G s)
    (hT : (G.kind T).level = some (l + 1)) (hs : slot b G s T i = some t) (hr : C → s.refcount t = 1) :
    RanOut b (l + 1) T C G s e s' :=
  ⟨h.1.up hS hT hs hr, h.2⟩

/-! ## One entry -/

section

variable {N : Set Note} {E : Panic → Mem → Prop}

/-- Removing what one entry is for clears the entry. -/
theorem removeWhole_ends (hS : Sound b G s) (hl : (G.kind t).level = some l) (hm : (G.kind t).maps va)
    (ho : pdOff l va = 0) (hz : (s.entry t (pdx l va)).frame ≠ b.zero) :
    Ends N (pmapRemoveLevel b l t va (va + pdSize l)) s (fun _ s' => ∃ G', Sound b G' s' ∧ Neat G G' ∧
      Put b l t (pdx l va) (pteZero b) G s G' s') E := by
  have hpos := pdSize_pos l
  have key : ∀ lower, Ends N (removeLoop b lower l t va (va + pdSize l)) s (fun _ s' => ∃ G',
      Sound b G' s' ∧ Neat G G' ∧ Put b l t (pdx l va) (pteZero b) G s G' s') E := by
    intro lower
    unfold removeLoop
    -- the loop has one round
    refine ends_bind (ends_whileM (I := fun x s' => (x = (va, pdx l va) ∧ s' = s) ∨
      (x.1 = va + pdSize l ∧ ∃ G', Sound b G' s' ∧ Neat G G' ∧
        Put b l t (pdx l va) (pteZero b) G s G' s')) (fun x => va + pdSize l - x.1) ?_ ?_ ?_ _ _ _
      le_rfl (.inl ⟨rfl, rfl⟩))
    · rintro x s' - hc
      simp only [decide_eq_true_eq] at hc
      omega
    · rintro x s' (⟨rfl, rfl⟩ | ⟨hx, -⟩) hc
      · unfold removeEntry readEntry writeEntry
        refine ends_bind (ends_bind (ends_bind_get (ends_pure.2 ?_)))
        refine ends_ite (fun h => absurd h hz) fun _ => ends_ite (fun _ => ?_) fun h =>
          absurd ⟨ho, by simp⟩ h
        refine ends_bind ((hS.drop_ends (Kind.maps_user hl hm) hl (Kind.root_pdx_ne hl hm ho) hz).imp ?_)
        rintro _ s₁ h
        refine ends_bind (ends_modify (ends_pure.2 (ends_pure.2 ⟨.inr ⟨rfl, h⟩, ?_⟩)))
        simp only
        omega
      · simp only [decide_eq_true_eq] at hc
        omega
    · rintro x s' (⟨rfl, rfl⟩ | ⟨-, h⟩) hc
      · simp only [decide_eq_false_iff_not] at hc
        omega
      · exact ends_pure.2 h
  cases l <;> exact key _

/-- The source entry is made read-only and copied to an entry that leads nowhere. -/
theorem shareEntry_ends {si di : ℕ} (hS : Sound b G s) (hst : (G.kind st).level = some l)
    (hdt : (G.kind dt).level = some l) (hu : (G.kind st).user si = true)
    (hu' : (G.kind dt).user di = true) (hp : G.kind st = .root → si ≠ 0)
    (hp' : G.kind dt = .root → di ≠ 0) (hd : (s.entry dt di).frame = b.zero) :
    Ends N (do
      let e ← readEntry st si
      writeEntry st si e.clearW
      let e ← readEntry st si
      writeEntry dt di e
      let e ← readEntry st si
      if e.frame ≠ b.zero then memIncref b e.frame) s
      (fun _ s' => ∃ G', Left b l dt C Any G s G' s') E := by
  have hi := Kind.user_lt hu
  have hi' := Kind.user_lt hu'
  set e := (s.entry st si).clearW with he
  set s₁ := s.setEntry st si e with hs₁
  have hself : s₁.entry st si = e := setEntry_entry_self hi
  have heW : e.isW = false := by rw [he, Pte.clearW_isW]
  have hS₁ : Sound b G s₁ := hS.setFlags hu rfl (by rw [heW]; nofun) (fun hr h0 => absurd h0 (hp hr))
    (by rw [heW]; nofun)
  have ht₁ : Unseen b l G s G s₁ := hS.tame_setFlags hu hst le_rfl rfl (by rw [heW]; nofun)
    (by rw [he, Pte.clearW_isP]; exact id) fun _ => Pte.clearW_clearW _
  have hl₁ : Left b l dt C Any G s G s₁ := by
    refine Left.any (R := fun _ v v' => View.Keeps v v') ⟨hS₁, ht₁.base hS, Neat.refl _, fun _ => ?_,
      fun _ => ht₁.acts hS hdt⟩
    exact setEntry_dry hi
  have hd₁ : (s₁.entry dt di).frame = b.zero := by
    by_cases hne : dt ≠ st ∨ di ≠ si
    · rw [hs₁, setEntry_entry_ne hi hi' hne, hd]
    · obtain ⟨rfl, rfl⟩ : dt = st ∧ di = si := by
        push Not at hne
        exact hne
      rw [hself, he, Pte.clearW_frame, hd]
  have hself₂ : (s₁.setEntry dt di e).entry st si = e := by
    by_cases hne : st ≠ dt ∨ si ≠ di
    · rw [setEntry_entry_ne hi' hi hne, hself]
    · obtain ⟨rfl, rfl⟩ : st = dt ∧ si = di := by
        push Not at hne
        exact hne
      rw [setEntry_entry_self hi]
  unfold readEntry writeEntry
  refine ends_bind (ends_bind_get (ends_pure.2 (ends_bind (ends_modify ?_))))
  rw [← he, ← hs₁]
  refine ends_bind (ends_bind_get (ends_pure.2 (ends_bind (ends_modify ?_))))
  rw [hself]
  refine ends_bind (ends_bind_get (ends_pure.2 ?_))
  rw [hself₂]
  refine ends_ite (fun hz => ?_) fun hz => ?_
  · have hslot : slot b G s₁ st si = some e.frame := by
      rw [← hself]
      exact slot_of_user hu (by rw [hS.off]; nofun) (by rw [hself]; exact hz)
    have hk : G.kind e.frame = .below l := (hS₁.typed hslot).trans (Kind.kid_eq_below hst hp)
    obtain ⟨hS₂, hput⟩ := hS₁.share hu' hdt hp' hd₁ hslot hk hself (Pte.clearW_isW _)
    refine ends_memIncref (hS₁.used_avail (hS₁.slot_used hslot)) ⟨G, ?_⟩
    exact hl₁.then (hput.left hS₁ hS₂ (Neat.refl _) hdt) hdt
  · have hze : e.frame = (s₁.entry dt di).frame := by
      rw [hd₁]
      exact not_not.1 hz
    have hS₂ : Sound b G (s₁.setEntry dt di e) := hS₁.setFlags hu' hze (by rw [heW]; nofun)
      (fun hr h0 => absurd h0 (hp' hr)) (by rw [heW]; nofun)
    refine ends_pure.2 ⟨G, hl₁.then ?_ hdt⟩
    exact (hS₁.toWhole.put_flags hdt hi').left hS₁ hS₂ (Neat.refl _) hdt

/-- Sharing a whole entry. -/
theorem copyShare_ends {x : CopyAt} (hS : Sound b G s) (hst : (G.kind st).level = some l)
    (hdt : (G.kind dt).level = some l) (hms : (G.kind st).maps x.sva) (hmd : (G.kind dt).maps x.dva)
    (hos : pdOff l x.sva = 0) (hod : pdOff l x.dva = 0) (hsi : x.si = pdx l x.sva)
    (hdi : x.di = pdx l x.dva) :
    Ends N (copyShare b l st dt x) s (fun _ s' => ∃ G', Left b l dt C Any G s G' s') E := by
  have hrest : ∀ G₁ s₁, Left b l dt C Any G s G₁ s₁ → (s₁.entry dt x.di).frame = b.zero →
      Ends N (do
        let d ← readEntry dt x.di
        check (d.frame = b.zero) .assert
        let e ← readEntry st x.si
        writeEntry st x.si e.clearW
        let e ← readEntry st x.si
        writeEntry dt x.di e
        let e ← readEntry st x.si
        if e.frame ≠ b.zero then memIncref b e.frame) s₁
        (fun _ s' => ∃ G', Left b l dt C Any G s G' s') E := by
    intro G₁ s₁ hl hz
    have hks := hl.base.kind st l hst le_rfl
    have hkd := hl.base.kind dt l hdt le_rfl
    unfold readEntry
    refine ends_bind (ends_bind_get (ends_pure.2 (ends_bind_check hz ?_)))
    rw [hsi, hdi]
    rw [hdi] at hz
    have h := shareEntry_ends (C := C) (N := N) (E := E) hl.sound (by rw [hks]; exact hst) (by rw [hkd]; exact hdt)
      (by rw [hks]; exact Kind.maps_user hst hms) (by rw [hkd]; exact Kind.maps_user hdt hmd)
      (by rw [hks]; exact Kind.root_pdx_ne hst hms hos) (by rw [hkd]; exact Kind.root_pdx_ne hdt hmd hod) hz
    refine h.imp ?_
    rintro _ s₂ ⟨G₂, hl₂⟩
    exact ⟨G₂, hl.then hl₂ hdt⟩
  unfold copyShare
  refine ends_bind (ends_bind_get (ends_pure.2 (ends_ite (fun hz => ?_) fun hz => ?_)))
  · rw [hdi] at hz
    refine ends_bind ((removeWhole_ends hS hdt hmd hod hz).imp ?_)
    rintro _ s₁ ⟨G₁, hS₁, hn, hput⟩
    refine hrest G₁ s₁ (hput.left hS hS₁ hn hdt) ?_
    rw [hdi, hput.entry]
    rfl
  · exact hrest G s (hS.left_refl fun _ _ => trivial) (not_not.1 hz)

end

section

variable (b : Boot) (N : Set Note) (C : Prop)

/-- What copying a stretch of a level-`l` table does. Other tables do not see it, if the tables of the
destination that are entered are not shared. -/
def Copies (l : ℕ) (copy : Frame → ℕ → Frame → ℕ → ℕ → Kern Unit) : Prop :=
  ∀ (G : Ghost) (s : Mem) (st dt : Frame) (sva dva svahi : ℕ), Sound b G s →
    (G.kind st).level = some l → (G.kind dt).level = some l → Span (G.kind st) l sva svahi sva svahi →
    Span (G.kind dt) l dva (dva + (svahi - sva)) dva (dva + (svahi - sva)) →
    Ends N (copy st sva dt dva svahi) s (fun _ s' => ∃ G', Left b l dt C Any G s G' s')
      (RanOut b l dt C G s)

end

section

variable {N : Set Note} {lower : Frame → ℕ → Frame → ℕ → ℕ → Kern Unit}

/-- Copying part of an entry. -/
theorem copyPart_ends {x : CopyAt} {size : ℕ} (hC : C → Note.ignored ∈ N ∧ Note.sharedDest ∈ N ∧ Note.staleW ∈ N)
    (hS : Sound b G s)
    (hst : (G.kind st).level = some (l + 1)) (hdt : (G.kind dt).level = some (l + 1))
    (hss : Span (G.kind st) (l + 1) x.sva (x.sva + size) x.sva (x.sva + size))
    (hsd : Span (G.kind dt) (l + 1) x.dva (x.dva + size) x.dva (x.dva + size))
    (hes : x.sva + size ≤ (x.sva / pdSize (l + 1) + 1) * pdSize (l + 1))
    (hed : x.dva + size ≤ (x.dva / pdSize (l + 1) + 1) * pdSize (l + 1))
    (hsi : x.si = pdx (l + 1) x.sva) (hdi : x.di = pdx (l + 1) x.dva) (hlow : Copies b N C l lower) :
    Ends N (copyPart b lower (l + 1) st dt x size) s
      (fun _ s' => ∃ G', Left b (l + 1) dt C Any G s G' s') (RanOut b (l + 1) dt C G s) := by
  have hms := hss.maps x.sva le_rfl hss.lt
  have hmd := hsd.maps x.dva le_rfl hsd.lt
  -- both entries lead to tables
  have hrest : ∀ G₁ s₁, Left b (l + 1) dt C Any G s G₁ s₁ → (s₁.entry st x.si).frame ≠ b.zero →
      (s₁.entry dt x.di).frame ≠ b.zero →
      Ends N (do
        let d ← readEntry dt x.di
        check (d.frame ≠ b.zero) .assert
        let s ← get
        noteIf (s.refcount d.frame ≠ 1) .sharedDest
        let e ← readEntry st x.si
        lower e.frame x.sva d.frame x.dva (x.sva + size)) s₁
        (fun _ s' => ∃ G', Left b (l + 1) dt C Any G s G' s') (RanOut b (l + 1) dt C G s) := by
    intro G₁ s₁ hl hzs hzd
    have hks := hl.base.kind st (l + 1) hst le_rfl
    have hkd := hl.base.kind dt (l + 1) hdt le_rfl
    rw [hsi] at hzs ⊢
    rw [hdi] at hzd ⊢
    have hslot := hl.sound.slot_maps (by rw [hks]; exact hst) (by rw [hks]; exact hms) hzs
    have hslot' := hl.sound.slot_maps (by rw [hkd]; exact hdt) (by rw [hkd]; exact hmd) hzd
    have hk : G₁.kind (s₁.entry st (pdx (l + 1) x.sva)).frame = (G.kind st).kid (pdx (l + 1) x.sva) := by
      rw [hl.sound.typed hslot, hks]
    have hk' : G₁.kind (s₁.entry dt (pdx (l + 1) x.dva)).frame = (G.kind dt).kid (pdx (l + 1) x.dva) := by
      rw [hl.sound.typed hslot', hkd]
    have hsub : x.sva + size - x.sva = size := by omega
    unfold readEntry
    refine ends_bind (ends_bind_get (ends_pure.2 (ends_bind_check hzd (ends_bind_get ?_))))
    refine ends_bind_noteIf fun hone => ends_bind (ends_bind_get (ends_pure.2 ?_))
    have hr : C → s₁.refcount (s₁.entry dt (pdx (l + 1) x.dva)).frame = 1 :=
      fun hc => not_not.1 (hone (hC hc).2.1)
    refine (hlow G₁ s₁ _ _ x.sva x.dva (x.sva + size) hl.sound (by rw [hk]; exact Kind.kid_level hst _)
      (by rw [hk']; exact Kind.kid_level hdt _) ?_ ?_).mono ?_ ?_
    · rw [hk]
      exact hss.kid hst le_rfl le_rfl hss.lt hss.lo_dvd hss.hi_dvd hes
    · rw [hk', hsub]
      exact hsd.kid hdt le_rfl le_rfl hsd.lt hsd.lo_dvd hsd.hi_dvd hed
    · rintro _ s₂ ⟨G₂, hl₂⟩
      exact ⟨G₂, hl.then (hl₂.up hl.sound (by rw [hkd]; exact hdt) hslot' hr) hdt⟩
    · intro e s₂ hst₂
      exact hl.ranOut (hst₂.up hl.sound (by rw [hkd]; exact hdt) hslot' hr) hdt
  unfold copyPart
  nth_rewrite 1 [readEntry]
  refine ends_bind (ends_bind_get (ends_pure.2 (ends_ite (fun hz => ?_) fun hz => ?_)))
  · refine ends_bind ((pmapRemoveLevel_ends (fun hc => (hC hc).1) (l + 1) G s dt x.dva (x.dva + size) hS
      hdt hsd nofun fun hc => .inl (hC hc).2.2).imp ?_)
    rintro _ s₁ ⟨-, G₁, hl₁⟩
    exact ends_pure.2 ⟨G₁, hl₁.any⟩
  nth_rewrite 1 [readEntry]
  refine ends_bind (ends_bind_get (ends_pure.2 (ends_ite (fun hzd => ?_) fun hzd => ?_)))
  · -- the destination gets a table
    refine ends_bind ((pmapWalkLevel_ends hS hdt hmd).imp ?_)
    rintro r s₁ ⟨G₁, hw⟩
    have hne : st ≠ dt ∨ x.si ≠ x.di := by
      by_contra hn
      push Not at hn
      rw [hn.1, hn.2] at hz
      exact hz hzd
    have hsame : s₁.entry st x.si = s.entry st x.si := by
      refine hw.same st x.si ?_ hst ?_
      · rw [hsi]
        exact pdx_lt _ _
      · rw [← hdi]
        exact hne
    nth_rewrite 1 [readEntry]
    refine ends_bind (ends_bind_get (ends_pure.2 (ends_bind_noteIf fun hig => ?_)))
    by_cases hzd₁ : (s₁.entry dt x.di).frame = b.zero
    · unfold readEntry
      refine ends_bind (ends_bind_get (ends_pure.2 (ends_bind (ends_check (fun h => absurd hzd₁ h) ?_))))
      intro _
      refine ⟨⟨rfl, G₁, hw.tame.base hS, fun _ => (hw.tame.acts hS hdt).any⟩, ?_⟩
      cases r with
      | none => exact (hw.fails rfl).1
      | some y =>
        obtain ⟨-, -, -, hown⟩ := hw.leaf y.1 y.2 rfl
        rw [hdi] at hzd₁
        exact absurd hzd₁ hown.1
    · refine hrest G₁ s₁ (hw.left hS hdt fun hc hr => ?_).any (by rw [hsame]; exact hz) hzd₁
      exact hig (hC hc).1 ⟨hr, hzd₁⟩
  · exact hrest G s (hS.left_refl fun _ _ => trivial) hz hzd

/-- The size of a part. -/
theorem copySize_spec {x : CopyAt} (hs : 4096 ∣ x.sva) (hd : 4096 ∣ x.dva) (hh : 4096 ∣ svahi)
    (hlt : x.sva < svahi) : 4096 ∣ copySize l x svahi ∧ 0 < copySize l x svahi ∧
      x.sva + copySize l x svahi ≤ (x.sva / pdSize l + 1) * pdSize l ∧
      x.dva + copySize l x svahi ≤ (x.dva / pdSize l + 1) * pdSize l ∧
      x.sva + copySize l x svahi ≤ svahi := by
  have hp := pdSize_pos l
  have hoff : ∀ va, pdOff l va < pdSize l := fun va => Nat.mod_lt _ hp
  have hend : ∀ va, (va / pdSize l + 1) * pdSize l = va + (pdSize l - pdOff l va) := by
    intro va
    have := Nat.div_add_mod va (pdSize l)
    have hlt := hoff va
    unfold pdOff at *
    rw [Nat.succ_mul, Nat.mul_comm]
    omega
  have hdvd : ∀ va, 4096 ∣ va → 4096 ∣ pdOff l va := fun va h =>
    (Nat.dvd_mod_iff (four_dvd l)).2 h
  have h₁ := hoff x.sva
  have h₂ := hoff x.dva
  have h₃ := hdvd x.sva hs
  have h₄ := hdvd x.dva hd
  have h₅ := four_dvd l
  rw [hend, hend]
  unfold copySize
  omega

/-- At the level of page tables, whole entries are copied. -/
theorem CopyAt.whole (x : CopyAt) (hs : 4096 ∣ x.sva) (hd : 4096 ∣ x.dva) (hh : 4096 ∣ svahi)
    (hlt : x.sva < svahi) : pdOff 0 x.sva = 0 ∧ pdOff 0 x.dva = 0 ∧ pdSize 0 ≤ svahi - x.sva := by
  unfold pdOff
  simp only [pdSize, pow_zero, mul_one]
  omega

/-- One round: the entry is shared or copied in part. -/
theorem copyEntry_ends {x : CopyAt} {dvahi : ℕ} (hC : C → Note.ignored ∈ N ∧ Note.sharedDest ∈ N ∧ Note.staleW ∈ N)
    (hS : Sound b G s)
    (hst : (G.kind st).level = some l) (hdt : (G.kind dt).level = some l)
    (hss : Span (G.kind st) l sva svahi sva svahi) (hsd : Span (G.kind dt) l dva dvahi dva dvahi)
    (h₁ : sva ≤ x.sva) (h₂ : x.sva < svahi) (h₃ : dva ≤ x.dva) (h₄ : x.dva + (svahi - x.sva) = dvahi)
    (hs : 4096 ∣ x.sva) (hd : 4096 ∣ x.dva) (hsi : x.si = pdx l x.sva) (hdi : x.di = pdx l x.dva)
    (hlow : ∀ m, l = m + 1 → Copies b N C m lower) :
    Ends N (copyEntry b lower l st dt svahi x) s (fun y s' => ∃ size, 0 < size ∧ 4096 ∣ size ∧
      x.sva + size ≤ svahi ∧ y.sva = x.sva + size ∧ y.dva = x.dva + size ∧
      (y.sva < svahi → y.si = pdx l y.sva ∧ y.di = pdx l y.dva) ∧
      ∃ G', Left b l dt C Any G s G' s') (RanOut b l dt C G s) := by
  have hp := pdSize_pos l
  have hms := hss.maps x.sva h₁ h₂
  have hmd := hsd.maps x.dva h₃ (by omega)
  unfold copyEntry
  refine ends_ite (fun ⟨hos, hod, hle⟩ => ?_) fun hpart => ?_
  · refine ends_bind ((copyShare_ends (C := C) hS hst hdt hms hmd hos hod hsi hdi).imp ?_)
    rintro _ s' h
    refine ends_pure.2 ⟨pdSize l, hp, four_dvd l, by omega, rfl, rfl, fun hlt => ⟨?_, ?_⟩, h⟩
    · rw [hsi]
      exact hss.pdx_whole h₁ hos hlt
    · rw [hdi]
      exact hsd.pdx_whole h₃ hod (by simp only at hlt; omega)
  · obtain ⟨m, rfl⟩ : ∃ m, l = m + 1 := by
      cases l with
      | succ m => exact ⟨m, rfl⟩
      | zero => exact absurd (x.whole hs hd hss.hi_dvd h₂) hpart
    obtain ⟨hsz, hpos, hes, hed, hle⟩ := copySize_spec (l := m + 1) hs hd hss.hi_dvd h₂
    set size := copySize (m + 1) x svahi with hsize
    have hss' := hss.sub h₁ hle (by omega) hs (Nat.dvd_add hs hsz)
    have hsd' := hsd.sub h₃ (show x.dva + size ≤ dvahi by omega) (by omega) hd (Nat.dvd_add hd hsz)
    refine ends_bind ((copyPart_ends hC hS hst hdt hss' hsd' hes hed hsi hdi (hlow m rfl)).imp ?_)
    rintro _ s' h
    refine ends_pure.2 ⟨size, hpos, hsz, hle, rfl, rfl, fun hlt => ⟨?_, ?_⟩, h⟩
    · simp only [CopyAt.advance] at hlt ⊢
      rw [hsi]
      exact hss.pdx_part h₁ hpos hlt hes
    · simp only [CopyAt.advance] at hlt ⊢
      rw [hdi]
      exact hsd.pdx_part h₃ hpos (by omega) hed

/-- The loop over the entries. -/
theorem copyLoop_ends (hC : C → Note.ignored ∈ N ∧ Note.sharedDest ∈ N ∧ Note.staleW ∈ N)
    (hlow : ∀ m, l = m + 1 → Copies b N C m lower) : Copies b N C l (copyLoop b lower l) := by
  intro G s st dt sva dva svahi hS hst hdt hss hsd
  unfold copyLoop
  refine ends_bind (ends_whileM (I := fun x s' => sva ≤ x.sva ∧ x.sva ≤ svahi ∧
    dva + (x.sva - sva) = x.dva ∧ 4096 ∣ x.sva ∧
    (x.sva < svahi → x.si = pdx l x.sva ∧ x.di = pdx l x.dva) ∧ ∃ G', Left b l dt C Any G s G' s')
    (fun x => svahi - x.sva) ?_ ?_ ?_ _ _ _ le_rfl ?_)
  · rintro x s' - hc
    simp only [decide_eq_true_eq] at hc
    omega
  · rintro x s' ⟨h₁, h₂, h₃, h₄, h₅, G', hl⟩ hc
    simp only [decide_eq_true_eq] at hc
    obtain ⟨hsi, hdi⟩ := h₅ hc
    have hks := hl.base.kind st l hst le_rfl
    have hkd := hl.base.kind dt l hdt le_rfl
    have hd := hsd.lo_dvd
    have hs := hss.lo_dvd
    refine (copyEntry_ends hC hl.sound (by rw [hks]; exact hst) (by rw [hkd]; exact hdt)
      (by rw [hks]; exact hss) (by rw [hkd]; exact hsd) h₁ hc (by omega) (by omega) h₄ (by omega) hsi hdi
      hlow).mono ?_ ?_
    · rintro y s₂ ⟨size, hpos, hsz, hle, hy, hy', hi, G₂, hl₂⟩
      exact ⟨⟨by omega, by omega, by omega, by omega, hi, G₂, hl.then hl₂ hdt⟩, by omega⟩
    · intro e s₂ h
      exact hl.ranOut h hdt
  · rintro x s' ⟨-, -, -, -, -, h⟩ -
    exact ends_pure.2 h
  · exact ⟨le_rfl, hss.lt.le, by simp, hss.lo_dvd, fun _ => ⟨rfl, rfl⟩, G, hS.left_refl fun _ _ => trivial⟩

/-- **Copying a stretch of a table.** -/
theorem pmapCopyLevel_ends (hC : C → Note.ignored ∈ N ∧ Note.sharedDest ∈ N ∧ Note.staleW ∈ N) (l : ℕ) :
    Copies b N C l (pmapCopyLevel b l) := by
  induction l with
  | zero =>
    unfold pmapCopyLevel
    exact copyLoop_ends hC nofun
  | succ m ih =>
    unfold pmapCopyLevel
    refine copyLoop_ends hC fun m' hm => ?_
    obtain rfl : m = m' := by omega
    exact ih

end

end Determinator
