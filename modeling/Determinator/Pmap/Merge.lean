import Determinator.Pmap.Copy
import Determinator.Pmap.Insert

/-!
# Merging

`pmap_merge_level` goes through stretches of three tables, of the reference, the source and the
destination. The bound of its loop follows the addresses of the source, and it steps from entry to
entry without aligning them. The tables it is in are those of the three page maps for the addresses it
is at (`TableOf`), as long as it goes down only where there are tables and the destination does not
leave its table before the source does. In place of a page table of the reference or of the source
there can be the zero page.
-/

namespace Determinator

open PanicM

variable {b : Boot} {G G' G₁ G₂ : Ghost} {s s' s₁ s₂ : Mem} {f g t u T rt st dt r rr sr dr : Frame}
  {i di k l m n va va' sva dva svahi : ℕ} {C : Prop}

/-! ## The tables for an address -/

/-- The level-`m` table for `va` below the level-`n` table `t`, unless an entry on the way leads
nowhere. -/
def tableAt (b : Boot) (s : Mem) (va : ℕ) : ℕ → Frame → ℕ → Option Frame
  | 0, t, m => if m = 0 then some t else none
  | n + 1, t, m =>
    if m = n + 1 then some t
    else
      let e := s.entry t (pdx (n + 1) va)
      if e.frame = b.zero then none else tableAt b s va n e.frame m

theorem tableAt_self (n : ℕ) (t : Frame) : tableAt b s va n t n = some t := by
  cases n <;> simp [tableAt]

theorem tableAt_le (h : tableAt b s va n T m = some t) : m ≤ n := by
  induction n generalizing T with
  | zero =>
    simp only [tableAt] at h
    split at h
    · omega
    · cases h
  | succ n ih =>
    simp only [tableAt] at h
    split at h
    · omega
    · split at h
      · cases h
      · exact (ih h).trans (by omega)

/-- The next table on the way. -/
theorem tableAt_lower (h : tableAt b s va n T (m + 1) = some t)
    (hz : (s.entry t (pdx (m + 1) va)).frame ≠ b.zero) :
    tableAt b s va n T m = some (s.entry t (pdx (m + 1) va)).frame := by
  induction n generalizing T with
  | zero => simp [tableAt] at h
  | succ n ih =>
    simp only [tableAt] at h ⊢
    split at h
    · rename_i hmn
      obtain rfl : T = t := Option.some.inj h
      obtain rfl : m = n := by omega
      rw [if_neg (by omega), if_neg hz, tableAt_self]
    · split at h
      · cases h
      · rename_i hne hze
        have := tableAt_le h
        rw [if_neg (by omega), if_neg hze]
        exact ih h

/-- Addresses with the same entries on the way have the same table. -/
theorem tableAt_block (hb : va' / pdSize (m + 1) = va / pdSize (m + 1)) :
    tableAt b s va' n T m = tableAt b s va n T m := by
  induction n generalizing T with
  | zero => rfl
  | succ n ih =>
    simp only [tableAt]
    split
    · rfl
    · by_cases hle : m + 1 ≤ n + 1
      · have hdiv : va' / pdSize (n + 1) = va / pdSize (n + 1) := by
          obtain ⟨q, hq⟩ := pdSize_dvd hle
          rw [hq, ← Nat.div_div_eq_div_mul, ← Nat.div_div_eq_div_mul, hb]
        rw [show pdx (n + 1) va' = pdx (n + 1) va by rw [pdx_eq, pdx_eq, hdiv]]
        split
        · rfl
        · exact ih
      · -- there is no such table
        have hnone : ∀ a t, tableAt b s a n t m = none := by
          intro a t
          by_contra hn
          obtain ⟨u, hu⟩ := Option.ne_none_iff_exists'.1 hn
          have := tableAt_le hu
          omega
        rw [hnone, hnone]
        simp

/-- The level-`l` table of the page map `r` for the address `va`. -/
structure TableOf (b : Boot) (G : Ghost) (s : Mem) (r : Frame) (va l : ℕ) (t : Frame) : Prop where
  root : G.kind r = .root
  user : vmUserLo ≤ va ∧ va < vmUserHi
  at_eq : tableAt b s va nptLvls r l = some t

namespace TableOf

theorem kind (h : TableOf b G s r va l t) (hS : Whole b G s) :
    (G.kind t).level = some l ∧ (G.kind t).maps va := by
  have key : ∀ n T, (G.kind T).level = some n → (G.kind T).maps va →
      tableAt b s va n T l = some t → (G.kind t).level = some l ∧ (G.kind t).maps va := by
    intro n
    induction n with
    | zero =>
      intro T hl hm h
      simp only [tableAt] at h
      split at h
      · rename_i hl0
        obtain rfl : T = t := Option.some.inj h
        exact ⟨hl0 ▸ hl, hm⟩
      · cases h
    | succ n ih =>
      intro T hl hm h
      simp only [tableAt] at h
      split at h
      · rename_i hln
        obtain rfl : T = t := Option.some.inj h
        exact ⟨hln ▸ hl, hm⟩
      · split at h
        · cases h
        · rename_i hz
          obtain ⟨hl', hm'⟩ := kid_of_slot hS.toGood hl hm (hS.slot_maps hl hm hz)
          exact ih _ hl' hm' h
  exact key nptLvls r (by rw [h.root]; rfl) (by rw [h.root]; exact h.user) h.at_eq

theorem level_le (h : TableOf b G s r va l t) : l ≤ 3 := tableAt_le h.at_eq

theorem block (h : TableOf b G s r va l t) (hu : vmUserLo ≤ va' ∧ va' < vmUserHi)
    (hb : va' / pdSize (l + 1) = va / pdSize (l + 1)) : TableOf b G s r va' l t :=
  ⟨h.root, hu, by rw [tableAt_block hb, h.at_eq]⟩

theorem lower (h : TableOf b G s r va (l + 1) t) (hz : (s.entry t (pdx (l + 1) va)).frame ≠ b.zero) :
    TableOf b G s r va l (s.entry t (pdx (l + 1) va)).frame :=
  ⟨h.root, h.user, tableAt_lower h.at_eq hz⟩

/-- Changes to tables of the level and below leave the table in its place. -/
theorem base (h : TableOf b G s r va l t) (hS : Whole b G s) (hb : Base b l G s G' s') :
    TableOf b G' s' r va l t := by
  have key : ∀ n T, (G.kind T).level = some n → (G.kind T).maps va →
      tableAt b s va n T l = some t → tableAt b s' va n T l = some t := by
    intro n
    induction n with
    | zero => exact fun _ _ _ h => h
    | succ n ih =>
      intro T hl hm h
      have hle := tableAt_le h
      simp only [tableAt] at h ⊢
      split at h
      · rename_i hln
        rw [if_pos hln]
        exact h
      · rename_i hln
        have he : s'.entry T (pdx (n + 1) va) = s.entry T (pdx (n + 1) va) :=
          entry_congr (pdx_lt _ _) (hb.page T (n + 1) hl (by omega))
        rw [if_neg hln, he]
        split at h
        · cases h
        · rename_i hz
          obtain ⟨hl', hm'⟩ := kid_of_slot hS.toGood hl hm (hS.slot_maps hl hm hz)
          rw [if_neg hz]
          exact ih _ hl' hm' h
  refine ⟨(hb.root h.level_le).2 h.root, h.user, ?_⟩
  exact key nptLvls r (by rw [h.root]; rfl) (by rw [h.root]; exact h.user) h.at_eq

end TableOf

/-- A table of the reference or of the source, or the zero page for a page table. -/
def TableOrZero (b : Boot) (G : Ghost) (s : Mem) (r : Frame) (va l : ℕ) (t : Frame) : Prop :=
  TableOf b G s r va l t ∨ l = 0 ∧ t = b.zero

theorem TableOrZero.base (h : TableOrZero b G s r va l t) (hS : Whole b G s) (hb : Base b l G s G' s') :
    TableOrZero b G' s' r va l t :=
  h.imp (fun h => h.base hS hb) id

theorem TableOrZero.block (h : TableOrZero b G s r va l t) (hu : vmUserLo ≤ va' ∧ va' < vmUserHi)
    (hb : va' / pdSize (l + 1) = va / pdSize (l + 1)) : TableOrZero b G s r va' l t :=
  h.imp (fun h => h.block hu hb) id

/-! ## Ends of tables -/

theorem tableEnd_eq (l va : ℕ) : tableEnd l va = min ((va / pdSize (l + 1) + 1) * pdSize (l + 1)) vmUserHi := by
  unfold tableEnd
  rw [pdAddr_eq, Nat.succ_mul]

/-- An address before the end of the table. -/
theorem block_of_tableEnd (h₁ : va ≤ va') (h₂ : va' < tableEnd l va) :
    va' / pdSize (l + 1) = va / pdSize (l + 1) ∧ va' < vmUserHi := by
  rw [tableEnd_eq] at h₂
  exact ⟨block_of_lt ((block_le _ _).trans h₁) (h₂.trans_le (min_le_left _ _)),
    h₂.trans_le (min_le_right _ _)⟩

theorem tableEnd_block (hb : va' / pdSize (l + 1) = va / pdSize (l + 1)) : tableEnd l va' = tableEnd l va := by
  rw [tableEnd_eq, tableEnd_eq, hb]

/-- The entry after that of `va`, when it is in the same table. -/
theorem pdx_add (hb : (va + pdSize l) / pdSize (l + 1) = va / pdSize (l + 1)) :
    pdx l (va + pdSize l) = pdx l va + 1 := by
  rw [div_succ, div_succ, Nat.add_div_right _ (pdSize_pos l)] at hb
  rw [pdx_eq, pdx_eq, Nat.add_div_right _ (pdSize_pos l)]
  omega

/-- The last round is the same after one round. -/
theorem lastDva_step (h : sva + pdSize l < svahi) :
    lastDva l (sva + pdSize l) (dva + pdSize l) svahi = lastDva l sva dva svahi ∧
      dva + pdSize l ≤ lastDva l sva dva svahi := by
  have hp := pdSize_pos l
  unfold lastDva
  have he : svahi - sva - 1 = svahi - (sva + pdSize l) - 1 + pdSize l := by omega
  rw [he, Nat.add_div_right _ hp, Nat.succ_mul]
  omega

theorem TableOf.span (h : TableOf b G s r va l t) (hS : Whole b G s) (hd : 4096 ∣ va)
    (he : va + pdSize l ≤ tableEnd l va) : Span (G.kind t) l va (va + pdSize l) va (va + pdSize l) := by
  have hp := pdSize_pos l
  refine ⟨hd, Nat.dvd_add hd (four_dvd l), by omega, ?_, fun a ha ha' => ?_, fun _ _ => Iff.rfl⟩
  · rw [tableEnd_eq] at he
    exact he.trans (min_le_left _ _)
  · obtain ⟨hb, hu⟩ := block_of_tableEnd ha (ha'.trans_le he)
    exact ((h.block ⟨h.user.1.trans ha, hu⟩ hb).kind hS).2

/-! ## Pages -/

section

variable {N : Set Note}

/-- Stopping where nothing has been done yet. -/
theorem Sound.stopped_dried (hS : Sound b G s) (hl : (G.kind t).level = some l) :
    Stopped b l t C G s .assert s.dried :=
  ⟨rfl, G, tame_dried.base hS, fun _ => (tame_dried.acts hS hl).any⟩

/-- The destination's page is made its own. -/
theorem mergeOwn_ends (hN : Note.mergeZero ∈ N) (hS : Sound b G s) (hl : (G.kind dt).level = some 0)
    (hu : (G.kind dt).user di = true) :
    Ends N (mergeOwn b dt di) s (fun f s' => ∃ G', Left b 0 dt C Any G s G' s' ∧
      slot b G' s' dt di = some f ∧ s'.refcount f = 1) (Stopped b 0 dt C G s) := by
  have hi := Kind.user_lt hu
  set f := (s.entry dt di).frame with hf
  unfold mergeOwn readEntry
  refine ends_bind (ends_bind_get (ends_pure.2 (ends_bind_get (ends_bind_noteIf fun hzero => ?_))))
  have hz : f ≠ b.zero := hzero hN
  have hs : slot b G s dt di = some f := slot_eq_some.2 ⟨hu, by rw [hS.off]; simp, hz, rfl⟩
  have hk : G.kind f = .data := data_of_slot hS.toGood hl hs
  refine ends_ite (fun hc => ?_) fun hc => ?_
  · unfold memAllocOk
    refine ends_bind (ends_bind (ends_memAlloc (fun _ => ends_panic (hS.stopped_dried hl)) fun pi hpi =>
      ends_pure.2 ?_))
    obtain ⟨hfree, href, hSf⟩ := hS.filled hpi (s.page f)
    have hcl := hS.claimed hpi (s.page f)
    refine ends_bind (ends_memIncref (hS.avail pi (by rw [hfree]; simp)) ?_)
    unfold writePage
    refine ends_bind (ends_modify ?_)
    change Ends N _ (s.filled pi (s.page f)) _ _
    have he : (s.filled pi (s.page f)).entry dt di = s.entry dt di :=
      setPage_entry_ne hi (hcl.ne_of_level hl)
    have hne : pi ≠ f := by
      rintro rfl
      rw [hk] at hfree
      cases hfree
    have hrep := hcl.replaced (e := .mk' pi ownedFlags) hS hl hu
    have hone : ((s.filled pi (s.page f)).release b f).refcount pi = 1 := by
      rw [release_refcount hne, filled_refcount, Function.update_self, href]
      rfl
    refine ends_bind (hSf.toGood.memDecref_data (by rw [claim_kind hne.symm]; exact hk) ?_)
    unfold writeEntry
    refine ends_bind (ends_modify (ends_pure.2 ?_))
    have hst : (s.filled pi (s.page f)).remapped b dt di (.mk' pi ownedFlags)
        = ((s.filled pi (s.page f)).unref f).setEntry dt di (.mk' pi ownedFlags) := by
      rw [Mem.remapped, he, ← hf, Mem.release, if_neg hz]
    rw [← hst]
    have hS' := hrep.sound hSf.toCow fun _ => by rw [he]; exact hone
    have hlc : ((G.claim pi).kind dt).level = some 0 := by
      rw [hcl.kind_level hl]
      exact hl
    have hany := hrep.put.acts hcl.whole hlc (R := Any) (fun _ _ _ => trivial) fun _ _ _ => trivial
    have hacts : Acts b 0 dt Any G s _ _ := (hcl.acts 0 dt hl).trans hany hl fun _ _ _ _ _ _ _ => trivial
    refine ⟨_, ⟨hS', hacts.toBase, ⟨hrep.extra, fun g => (hrep.held g).trans ⟨And.right, fun hg => ⟨?_, hg⟩⟩, hrep.low⟩, fun _ => ?_,
      fun _ => hacts⟩, ?_, ?_⟩
    · rintro rfl
      rw [hfree] at hg
      cases hg
    · exact hrep.put.dry
    · refine slot_eq_some.2 ⟨?_, by rw [hS'.off]; simp, ?_, ?_⟩
      · rw [hacts.toBase.kind dt 0 hl le_rfl]
        exact hu
      · rw [hrep.put.entry]
        exact hcl.ne_zero.symm
      · rw [hrep.put.entry]
        rfl
    · rw [Mem.remapped, setEntry_refcount hi, he]
      exact hone
  · push Not at hc
    have hpos := hS.alive f (by rw [hk]; trivial) (by rw [hk]; simp)
    have hle : s.refcount f ≤ 1 := hc.2
    exact ends_pure.2 ⟨G, hS.left_refl fun _ _ => trivial, hs, show s.refcount f = 1 by omega⟩

/-- Merging one page. -/
theorem pmapMergepage_ends {e₁ e₂ : Pte} (hN : Note.mergeZero ∈ N) (hS : Sound b G s)
    (hl : (G.kind dt).level = some 0) (hu : (G.kind dt).user di = true) :
    Ends N (pmapMergepage b e₁ e₂ dt di) s (fun _ s' => ∃ G', Left b 0 dt C Any G s G' s')
      (Stopped b 0 dt C G s) := by
  unfold pmapMergepage
  refine ends_bind ((mergeOwn_ends hN hS hl hu).imp ?_)
  rintro f s₁ ⟨G₁, hl₁, hs, hone⟩
  have hkd := hl₁.kind_T hl
  have hld : (G₁.kind dt).level = some 0 := by rw [hkd]; exact hl
  have hkf := data_of_slot hl₁.sound.toGood hld hs
  refine ends_bind_get ?_
  set m := mergeBytes (s₁.page e₁.frame) (s₁.page e₂.frame) pageSize 0 (s₁.page f) with hm
  have hS₂ := hl₁.sound.setData hkf m.1
  have hacts := hl₁.sound.toWhole.setData_acts hld hs hone m.1
  have hl₂ : Left b 0 dt C Any G s G₁ (s₁.setPage f m.1) :=
    hl₁.then ⟨hS₂, hacts.toBase, Neat.refl _, fun _ => rfl, fun _ => hacts.any⟩ hl
  unfold writePage
  refine ends_bind (ends_modify (ends_ite (fun _ => ?_) fun _ => ends_pure.2 ⟨G₁, hl₂⟩))
  have hz : ((s₁.setPage f m.1).entry dt di).frame ≠ b.zero := by
    rw [setPage_entry_ne (Kind.user_lt hu)]
    · exact (slot_eq_some.1 hs).2.2.1
    · rintro rfl
      rw [hkf] at hld
      cases hld
  unfold readEntry writeEntry
  refine ends_bind (ends_bind_get (ends_pure.2 (ends_bind ((hS₂.drop_ends (by rw [hkd]; exact hu) hld ?_ hz).imp ?_))))
  · intro hr
    rw [hr] at hld
    cases hld
  · rintro _ s₃ ⟨G₃, hS₃, hn, hput⟩
    exact ends_modify ⟨G₃, hl₂.then (hput.left hS₂ hS₃ hn hld) hl⟩

theorem setEntry_same {e : Pte} (hi : i < 512) (he : s.entry t i = e) : s.setEntry t i e = s := by
  rw [setEntry_page hi, ← he, entry_page hi, Function.update_eq_self]
  simp [Mem.setPage]

/-- Copying an entry of the zero page, in place of a page table, stops at an assertion of `mem_incref`:
the entry is for page `0`. -/
theorem copyShare_zero_ends {x : CopyAt} {Q : Unit → Mem → Prop} (hS : Sound b G s)
    (h0 : s.page b.zero = Page.zeros) (hl : (G.kind dt).level = some 0) (hm : (G.kind dt).maps x.dva)
    (ho : pdOff 0 x.dva = 0) (hsi : x.si < 512) (hdi : x.di = pdx 0 x.dva) :
    Ends N (copyShare b 0 b.zero dt x) s Q (Stopped b 0 dt C G s) := by
  have hu := Kind.maps_user hl hm
  have hzt : b.zero ≠ dt := by
    rintro rfl
    rw [hS.zero] at hl
    cases hl
  have hrest : ∀ G₁ s₁, Left b 0 dt C Any G s G₁ s₁ → (s₁.entry dt x.di).frame = b.zero →
      Ends N (do
        let d ← readEntry dt x.di
        check (d.frame = b.zero) .assert
        let e ← readEntry b.zero x.si
        writeEntry b.zero x.si e.clearW
        let e ← readEntry b.zero x.si
        writeEntry dt x.di e
        let e ← readEntry b.zero x.si
        if e.frame ≠ b.zero then memIncref b e.frame) s₁ Q (Stopped b 0 dt C G s) := by
    intro G₁ s₁ hl₁ hz
    set w : Pte := ⟨0, 0, 0⟩ with hw
    have he : s₁.entry b.zero x.si = w := by
      rw [entry_page hsi, hl₁.base.zero, h0]
      rfl
    have hcl : w.clearW = w := by decide
    have hsame : s₁.setEntry b.zero x.si w = s₁ := setEntry_same hsi he
    have hkd := hl₁.kind_T hl
    have hld : (G₁.kind dt).level = some 0 := by rw [hkd]; exact hl
    have hput := hl₁.sound.toWhole.put_flags (e := w) hld (Kind.user_lt hu)
    unfold readEntry writeEntry
    refine ends_bind (ends_bind_get (ends_pure.2 (ends_bind_check hz ?_)))
    refine ends_bind (ends_bind_get (ends_pure.2 (ends_bind (ends_modify ?_))))
    rw [he, hcl, hsame]
    refine ends_bind (ends_bind_get (ends_pure.2 (ends_bind (ends_modify ?_))))
    rw [he]
    refine ends_bind (ends_bind_get (ends_pure.2 ?_))
    have he₂ : (s₁.setEntry dt x.di w).entry b.zero x.si = w := by
      rw [hdi, setEntry_entry_ne (pdx_lt _ _) hsi (.inl hzt), he]
    rw [he₂]
    refine ends_ite (fun _ => ?_) fun h => absurd ?_ h
    · unfold memIncref memAsserts
      refine ends_bind (ends_bind (ends_check (fun h => ?_) fun _ => ?_))
      · exact absurd h.1 (by simp [hw])
      · refine ⟨rfl, G₁, hl₁.base.trans ?_, fun hC => ?_⟩
        · rw [hdi]
          exact hput.base
        · rw [hdi]
          exact (hl₁.acts hC).trans (hput.acts hl₁.sound.toWhole hld (R := Any) (fun _ _ _ => trivial)
            fun _ _ _ => trivial) hl fun _ _ _ _ _ _ _ => trivial
    · exact b.zero_ne.symm
  unfold copyShare
  unfold readEntry
  refine ends_bind (ends_bind_get (ends_pure.2 (ends_ite (fun hz => ?_) fun hz => ?_)))
  · rw [hdi] at hz
    refine ends_bind ((removeWhole_ends hS hl hm ho hz).imp ?_)
    rintro _ s₁ ⟨G₁, hS₁, hn, hput⟩
    refine hrest G₁ s₁ (hput.left hS hS₁ hn hl) ?_
    rw [hdi, hput.entry]
    rfl
  · exact hrest G s (hS.left_refl fun _ _ => trivial) (not_not.1 hz)

/-- Copying from the zero page. -/
theorem copyZero_ends {Q : Unit → Mem → Prop} (hS : Sound b G s) (h0 : s.page b.zero = Page.zeros)
    (hl : (G.kind dt).level = some 0) (hm : (G.kind dt).maps dva) (hs : 4096 ∣ sva) (hd : 4096 ∣ dva) :
    Ends N (pmapCopyLevel b 0 b.zero sva dt dva (sva + pdSize 0)) s Q (Stopped b 0 dt C G s) := by
  have hoff : ∀ va, 4096 ∣ va → pdOff 0 va = 0 := fun va h => Nat.mod_eq_zero_of_dvd (by simpa [pdSize] using h)
  have hp := pdSize_pos 0
  unfold pmapCopyLevel copyLoop
  refine ends_bind (ends_whileM (I := fun x s' => x = ⟨sva, pdx 0 sva, dva, pdx 0 dva⟩ ∧ s' = s)
    (fun x => sva + pdSize 0 - x.sva) ?_ ?_ ?_ _ _ _ le_rfl ⟨rfl, rfl⟩)
  · rintro x s' ⟨rfl, -⟩ -
    simp only
    omega
  · rintro x s' ⟨rfl, rfl⟩ -
    unfold copyEntry
    refine ends_ite (fun _ => ends_bind ?_) fun h => absurd ⟨hoff _ hs, hoff _ hd, by simp⟩ h
    exact copyShare_zero_ends hS h0 hl hm (hoff _ hd) (pdx_lt _ _) rfl
  · rintro x s' ⟨rfl, -⟩ hc
    simp only [decide_eq_false_iff_not] at hc
    omega

end

/-! ## Rounds -/

/-- A round of a merge of page maps is in their tables for the addresses it is at. -/
structure Round (b : Boot) (rr sr dr : Frame) (G : Ghost) (s : Mem) (l : ℕ) (rt st dt : Frame)
    (x : MergeAt) : Prop where
  ref : TableOrZero b G s rr x.sva l rt
  src : TableOrZero b G s sr x.sva l st
  dest : TableOf b G s dr x.dva l dt
  user : vmUserLo ≤ x.sva ∧ x.sva < vmUserHi
  si : x.si = pdx l x.sva
  di : x.di = pdx l x.dva
  sva_dvd : 4096 ∣ x.sva
  dva_dvd : 4096 ∣ x.dva

/-- A stretch of a merge: the source addresses up to `svahi` are in one table, and so are the
destination addresses the rounds come to. -/
structure Stretch (l sva dva svahi : ℕ) : Prop where
  dvd : 4096 ∣ svahi
  lt : sva < svahi
  src : svahi ≤ tableEnd l sva
  dest : lastDva l sva dva svahi < tableEnd l dva

section

variable (b : Boot) (N : Set Note) (C : Prop) (rr sr dr : Frame)

/-- What is run at every round does nothing when the round is in the right tables. -/
def Quiet (look : Look) : Prop :=
  ∀ (G : Ghost) (s : Mem) (l : ℕ) (rt st dt : Frame) (x : MergeAt), Sound b G s →
    Round b rr sr dr G s l rt st dt x →
    Ends N (look l rt st dt x) s (fun _ s' => s' = s) fun _ _ => False

/-- What merging a stretch of a level-`l` table does. -/
def Merges (l : ℕ) (merge : Frame → Frame → ℕ → Frame → ℕ → ℕ → Kern Unit) : Prop :=
  ∀ (G : Ghost) (s : Mem) (rt st dt : Frame) (sva dva svahi : ℕ), Sound b G s →
    s.page b.zero = Page.zeros → Round b rr sr dr G s l rt st dt ⟨sva, pdx l sva, dva, pdx l dva⟩ →
    Stretch l sva dva svahi →
    Ends N (merge rt st sva dt dva svahi) s (fun _ s' => ∃ G', Left b l dt C Any G s G' s')
      (Stopped b l dt C G s)

/-- The notes of what goes wrong in a merge, and of what changes tables that others use. -/
structure MergeNotes : Prop where
  missing : Note.missingTable ∈ N
  overrun : Note.overrun ∈ N
  zero : Note.mergeZero ∈ N
  shared : C → (Note.ignored ∈ N ∧ Note.sharedDest ∈ N ∧ Note.staleW ∈ N) ∧ Note.sharedMerge ∈ N

end

section

variable {N : Set Note} {look : Look} {lower : Frame → Frame → ℕ → Frame → ℕ → ℕ → Kern Unit}

/-- One round. -/
theorem mergeEntry_ends {x : MergeAt} (hN : MergeNotes N C) (hlook : Quiet b N rr sr dr look)
    (hS : Sound b G s) (h0 : s.page b.zero = Page.zeros) (hR : Round b rr sr dr G s l rt st dt x)
    (hst : Stretch l x.sva x.dva svahi)
    (hlow : ∀ m, l = m + 1 → Merges b N C rr sr dr m lower) :
    Ends N (mergeEntry b look lower l rt st dt svahi x) s (fun y s' =>
      y = ⟨x.sva + pdSize l, x.si + 1, x.dva + pdSize l, x.di + 1⟩ ∧ ∃ G', Left b l dt C Any G s G' s')
      (Stopped b l dt C G s) := by
  obtain ⟨hl, hm⟩ := hR.dest.kind hS.toWhole
  have hu := Kind.maps_user hl hm
  have hp := pdSize_pos l
  have hend : svahi ≤ vmUserHi := hst.src.trans (min_le_right _ _)
  unfold mergeEntry readEntry
  refine ends_bind ((hlook G s l rt st dt x hS hR).mono ?_ fun _ _ => False.elim)
  rintro _ s' hs'
  rw [hs']
  refine ends_bind_noteIf fun _ => ?_
  refine ends_bind (ends_bind_get (ends_pure.2 (ends_bind (ends_bind_get (ends_pure.2 (ends_bind
    (ends_bind_get (ends_pure.2 ?_))))))))
  refine ends_ite (fun _ => ?_) fun hne => ends_ite (fun heq => ?_) fun hdr => ends_ite (fun hpos => ?_)
    fun hzero => ?_
  · exact ends_pure.2 ⟨rfl, G, hS.left_refl fun _ _ => trivial⟩
  · -- the entry is copied
    refine ends_bind_noteIf fun _ => ends_bind_noteIf fun _ => ends_bind_noteIf fun hov => ?_
    have hov := hov hN.overrun
    push Not at hov
    rcases hR.src with hsrc | ⟨rfl, rfl⟩
    · obtain ⟨hls, -⟩ := hsrc.kind hS.toWhole
      refine ends_bind ((pmapCopyLevel_ends (fun hc => (hN.shared hc).1) l G _ st dt x.sva x.dva _ hS hls
        hl (hsrc.span hS.toWhole hR.sva_dvd hov.1) ?_).mono ?_ fun _ _ h => h.1)
      · rw [Nat.add_sub_cancel_left]
        exact hR.dest.span hS.toWhole hR.dva_dvd hov.2
      · rintro _ s' h
        exact ends_pure.2 ⟨rfl, h⟩
    · exact ends_bind (copyZero_ends hS h0 hl hm hR.sva_dvd hR.dva_dvd)
  · -- down
    obtain ⟨m, rfl⟩ : ∃ m, l = m + 1 := ⟨l - 1, by omega⟩
    refine ends_bind_noteIf fun hmiss => ends_bind_noteIf fun hov => ends_bind_get (ends_bind_noteIf
      fun hsh => ?_)
    have hmiss := hmiss hN.missing
    have hov := hov hN.overrun
    push Not at hmiss hov
    rw [Nat.add_sub_cancel] at hov
    have href : TableOf b G _ rr x.sva (m + 1) rt := hR.ref.resolve_right fun h => by cases h.1
    have hsrc : TableOf b G _ sr x.sva (m + 1) st := hR.src.resolve_right fun h => by cases h.1
    -- below a page directory there can be the zero page
    have hdown : ∀ {r t i}, TableOf b G s r x.sva (m + 1) t → i = pdx (m + 1) x.sva →
        (1 < m + 1 → (s.entry t i).frame ≠ b.zero) → TableOrZero b G s r x.sva m (s.entry t i).frame := by
      rintro r t i h rfl hz
      by_cases hz' : (s.entry t (pdx (m + 1) x.sva)).frame = b.zero
      · refine .inr ⟨?_, hz'⟩
        by_contra hm0
        exact hz (by omega) hz'
      · exact .inl (h.lower hz')
    have hzd := hmiss.1
    have hdi := hR.di
    have hslot : slot b G s dt x.di = some (s.entry dt x.di).frame := by
      rw [hdi]
      rw [hdi] at hzd
      exact hS.slot_maps hl hm hzd
    have hlow' := hlow m rfl G s (s.entry rt x.si).frame (s.entry st x.si).frame (s.entry dt x.di).frame
      x.sva x.dva (min (pdAddr (m + 1) x.sva + pdSize (m + 1)) svahi) hS h0
      ⟨hdown href hR.si fun h => (hmiss.2 h).1, hdown hsrc hR.si fun h => (hmiss.2 h).2, ?_, hR.user, rfl,
        rfl, hR.sva_dvd, hR.dva_dvd⟩ ⟨?_, ?_, ?_, hov⟩
    · have hone : C → s.refcount (s.entry dt x.di).frame = 1 := fun hc => not_not.1 (hsh (hN.shared hc).2)
      refine ends_bind (hlow'.mono ?_ fun e s' h => h.up hS hl hslot hone)
      rintro _ s' ⟨G', h⟩
      exact ends_pure.2 ⟨rfl, G', h.up hS hl hslot hone⟩
    · rw [hdi]
      rw [hdi] at hzd
      exact hR.dest.lower hzd
    · rw [entryEnd_eq]
      rcases min_choice ((x.sva / pdSize (m + 1) + 1) * pdSize (m + 1)) svahi with e | e <;> rw [e]
      · exact (four_dvd _).mul_left _
      · exact hst.dvd
    · rw [entryEnd_eq]
      exact lt_min (next_lt _ _) hst.lt
    · exact min_le_min le_rfl hend
  · obtain rfl : l = 0 := by omega
    refine ends_bind ((pmapMergepage_ends hN.zero hS hl (by rw [hR.di]; exact hu)).imp ?_)
    rintro _ s' h
    exact ends_pure.2 ⟨rfl, h⟩

/-- The next round is in the same tables. -/
theorem Round.next {x : MergeAt} (h : Round b rr sr dr G s l rt st dt x)
    (hst : Stretch l x.sva x.dva svahi) (hlt : x.sva + pdSize l < svahi) :
    Round b rr sr dr G s l rt st dt ⟨x.sva + pdSize l, x.si + 1, x.dva + pdSize l, x.di + 1⟩ ∧
      Stretch l (x.sva + pdSize l) (x.dva + pdSize l) svahi := by
  obtain ⟨hlast, hle⟩ : lastDva l (x.sva + pdSize l) (x.dva + pdSize l) svahi =
      lastDva l x.sva x.dva svahi ∧ x.dva + pdSize l ≤ lastDva l x.sva x.dva svahi := lastDva_step hlt
  obtain ⟨hbs, hus⟩ := block_of_tableEnd (Nat.le_add_right x.sva (pdSize l)) (hlt.trans_le hst.src)
  obtain ⟨hbd, hud⟩ := block_of_tableEnd (Nat.le_add_right x.dva (pdSize l)) (hle.trans_lt hst.dest)
  have hus' : vmUserLo ≤ x.sva + pdSize l ∧ x.sva + pdSize l < vmUserHi :=
    ⟨h.user.1.trans (Nat.le_add_right _ _), hus⟩
  have hud' : vmUserLo ≤ x.dva + pdSize l ∧ x.dva + pdSize l < vmUserHi :=
    ⟨h.dest.user.1.trans (Nat.le_add_right _ _), hud⟩
  refine ⟨⟨h.ref.block hus' hbs, h.src.block hus' hbs, h.dest.block hud' hbd, hus', ?_, ?_,
    Nat.dvd_add h.sva_dvd (four_dvd l), Nat.dvd_add h.dva_dvd (four_dvd l)⟩, ⟨hst.dvd, hlt, ?_, ?_⟩⟩
  · rw [pdx_add hbs, h.si]
  · rw [pdx_add hbd, h.di]
  · rw [tableEnd_block hbs]
    exact hst.src
  · rw [hlast, tableEnd_block hbd]
    exact hst.dest

theorem Round.base {x : MergeAt} (h : Round b rr sr dr G s l rt st dt x) (hS : Whole b G s)
    (hb : Base b l G s G' s') : Round b rr sr dr G' s' l rt st dt x :=
  { h with
    ref := h.ref.base hS hb
    src := h.src.base hS hb
    dest := h.dest.base hS hb }

/-- The loop over the entries. -/
theorem mergeLoop_ends (hN : MergeNotes N C) (hlook : Quiet b N rr sr dr look)
    (hlow : ∀ m, l = m + 1 → Merges b N C rr sr dr m lower) :
    Merges b N C rr sr dr l (mergeLoop b look lower l) := by
  intro G s rt st dt sva dva svahi hS h0 hR hst
  obtain ⟨hl, -⟩ := hR.dest.kind hS.toWhole
  have hp := pdSize_pos l
  unfold mergeLoop
  refine ends_bind (ends_whileM (I := fun x s' => ∃ G', Left b l dt C Any G s G' s' ∧
    (x.sva < svahi → Round b rr sr dr G' s' l rt st dt x ∧ Stretch l x.sva x.dva svahi))
    (fun x => svahi - x.sva) ?_ ?_ ?_ _ _ _ le_rfl ?_)
  · rintro x s' - hc
    simp only [decide_eq_true_eq] at hc
    omega
  · rintro x s' ⟨G', hl', h⟩ hc
    simp only [decide_eq_true_eq] at hc
    obtain ⟨hR', hst'⟩ := h hc
    refine (mergeEntry_ends hN hlook hl'.sound (hl'.base.zero.trans h0) hR' hst' hlow).mono ?_ ?_
    · rintro y s₂ ⟨rfl, G₂, hl₂⟩
      refine ⟨⟨G₂, hl'.then hl₂ hl, fun hlt => ?_⟩, by simp only; omega⟩
      exact (hR'.base hl'.sound.toWhole hl₂.base).next hst' hlt
    · intro e s₂ h
      exact hl'.stopped h hl
  · rintro x s' ⟨G', hl', -⟩ -
    exact ends_pure.2 ⟨G', hl'⟩
  · exact ⟨G, hS.left_refl fun _ _ => trivial, fun _ => ⟨hR, hst⟩⟩

/-- **Merging a stretch of a table.** -/
theorem pmapMergeLevel_ends (hN : MergeNotes N C) (hlook : Quiet b N rr sr dr look) (l : ℕ) :
    Merges b N C rr sr dr l (pmapMergeLevel b look l) := by
  induction l with
  | zero =>
    unfold pmapMergeLevel
    exact mergeLoop_ends hN hlook nofun
  | succ m ih =>
    unfold pmapMergeLevel
    refine mergeLoop_ends hN hlook fun m' hm => ?_
    obtain rfl : m = m' := by omega
    exact ih

/-- The regions that `pmap_copy` and `pmap_merge` take. -/
structure Region (sva dva size : ℕ) : Prop where
  sva_dvd : 4096 ∣ sva
  dva_dvd : 4096 ∣ dva
  size_dvd : 4096 ∣ size
  src : vmUserLo ≤ sva ∧ sva < vmUserHi
  dest : vmUserLo ≤ dva ∧ dva < vmUserHi
  src_le : size ≤ vmUserHi - sva
  dest_le : size ≤ vmUserHi - dva

theorem ends_regionAsserts {E : Panic → Mem → Prop} {Q : Unit → Mem → Prop} (h : Region sva dva m) (hq : Q () s) :
    Ends N (regionAsserts sva dva m) s Q E := by
  have hoff : ∀ {va}, 4096 ∣ va → pdOff 0 va = 0 := fun h => Nat.mod_eq_zero_of_dvd (by simpa [pdSize] using h)
  unfold regionAsserts
  refine ends_bind_check (hoff h.sva_dvd) (ends_bind_check (hoff h.dva_dvd) (ends_bind_check
    (hoff h.size_dvd) (ends_bind_check h.src (ends_bind_check h.dest (ends_bind_check h.src_le ?_)))))
  exact ends_check (fun _ => hq) fun hn => absurd h.dest_le hn

theorem regionAsserts_ends {E : Panic → Mem → Prop} {α : Type} {k : Unit → Kern α} {Q : α → Mem → Prop}
    (h : Region sva dva m) (hk : Ends N (k ()) s Q E) : Ends N (regionAsserts sva dva m >>= k) s Q E :=
  ends_bind (ends_regionAsserts h hk)

/-- A root is a table for every address of the user area. -/
theorem TableOf.of_root (hr : G.kind r = .root) (hu : vmUserLo ≤ va ∧ va < vmUserHi) :
    TableOf b G s r va 3 r :=
  ⟨hr, hu, tableAt_self 3 r⟩

theorem tableEnd_root (hu : va < vmUserHi) : tableEnd 3 va = vmUserHi := by
  have h4 : pdSize (3 + 1) = 281474976710656 := by decide
  rw [tableEnd_eq, h4]
  unfold vmUserHi at *
  omega

/-- **`pmap_merge`**: other page maps than the destination's do not see it, unless a shared table is
changed. -/
theorem pmapMergeLook_ends {size : ℕ} (hN : MergeNotes N C) (hlook : Quiet b N rr sr dr look)
    (hS : Sound b G s) (h0 : s.page b.zero = Page.zeros) (hrr : G.kind rr = .root)
    (hsr : G.kind sr = .root) (hdr : G.kind dr = .root) (hreg : Region sva dva size) :
    Ends N (pmapMergeLook b look rr sr sva dr dva size) s (fun _ s' => ∃ G', Left b 3 dr C Any G s G' s')
      (Stopped b 3 dr C G s) := by
  unfold pmapMergeLook
  refine regionAsserts_ends hreg ?_
  rcases Nat.eq_zero_or_pos size with hz | hpos
  · -- there are no rounds
    rw [hz, Nat.add_zero]
    have h3 : pmapMergeLevel b look nptLvls = mergeLoop b look (pmapMergeLevel b look 2) 3 := rfl
    rw [h3]
    unfold mergeLoop
    rw [Nat.sub_self]
    unfold whileM
    rw [if_neg (by simp)]
    exact ends_bind (ends_pure.2 (ends_pure.2 ⟨G, hS.left_refl fun _ _ => trivial⟩))
  have h₁ := hreg.src
  have h₂ := hreg.dest
  have h₃ := hreg.src_le
  have h₄ := hreg.dest_le
  refine pmapMergeLevel_ends hN hlook 3 G s rr sr dr sva dva (sva + size) hS h0
    ⟨.inl (.of_root hrr h₁), .inl (.of_root hsr h₁), .of_root hdr h₂, h₁, rfl, rfl, hreg.sva_dvd,
      hreg.dva_dvd⟩ ⟨Nat.dvd_add hreg.sva_dvd hreg.size_dvd, by omega, ?_, ?_⟩
  · rw [tableEnd_root h₁.2]
    omega
  · rw [tableEnd_root h₂.2]
    unfold lastDva
    have := Nat.div_mul_le_self (sva + size - sva - 1) (pdSize 3)
    omega

end

end Determinator
