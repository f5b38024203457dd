import Determinator.Dev.E100

/-!
# Where the frames of the receive ring are

The descriptors from the tail to the head are being processed or done, and those from the head to the place of
the card hold frames that no CPU has claimed; the first of the slots before the tail has its suspend bit set, so
that the card stops there (`Placed`). One lemma for each thing that can be done to the ring says that this stays so.
-/

set_option linter.unusedSectionVars false

namespace Determinator.E100.State

variable {C : Type} [DecidableEq C]

theorem goto_pc (s : State C) (c c' : C) (p : Pc) :
    (s.goto c p).pc c' = if c' = c then p else s.pc c' := by
  unfold goto
  by_cases h : c' = c
  · rw [h, if_pos rfl]
    exact Function.update_self ..
  · rw [if_neg h]
    exact Function.update_of_ne h ..

theorem setSlot_rx (s : State C) (i j : ℤ) (x : Slot) :
    (s.setSlot i x).rx j = if j = i then x else s.rx j := by
  unfold setSlot
  by_cases h : j = i
  · rw [h, if_pos rfl]
    exact Function.update_self ..
  · rw [if_neg h]
    exact Function.update_of_ne h ..

theorem tmod_slots {k : ℤ} (h : 0 ≤ k) : k.tmod rxSlots = k % 64 := Int.tmod_eq_emod_of_nonneg h

/-- What is known of the CPU that holds the lock. -/
structure Turns (s : State C) : Prop where
  locks : ∀ c, (s.pc c).Locks → s.lock = some c
  marked : ∀ c i, s.pc c = .marked i ∨ s.pc c = .cleared i → (s.rx i).suspend = true
  cleared : ∀ c i, s.pc c = .cleared i → (s.rx i).complete = false
  tailMove : ∀ c, s.pc c = .tailMove → s.rxTail < s.rxHead ∧ (s.rx (s.rxTail % 64)).complete = false
  command : ∀ c i, s.pc c = .command i → i = s.rxHead % 64

namespace Turns

variable {s t : State C} {c c' : C} {p : Pc}

/-- Only one CPU is where the lock is held. -/
theorem one (h : Turns s) (hc : (s.pc c).Locks) (hc' : (s.pc c').Locks) : c' = c :=
  Option.some.inj ((h.locks c' hc').symm.trans (h.locks c hc))

/-- A CPU goes on at `p`, and no other holds the lock then. -/
theorem go (hpc : t.pc = Function.update s.pc c p) (hothers : ∀ c', c' ≠ c → ¬(s.pc c').Locks)
    (hlock : p.Locks → t.lock = some c)
    (hmarked : ∀ i, p = .marked i ∨ p = .cleared i → (t.rx i).suspend = true)
    (hcleared : ∀ i, p = .cleared i → (t.rx i).complete = false)
    (htail : p = .tailMove → t.rxTail < t.rxHead ∧ (t.rx (t.rxTail % 64)).complete = false)
    (hcommand : ∀ i, p = .command i → i = t.rxHead % 64) : Turns t := by
  have hp : ∀ c', (t.pc c').Locks → c' = c ∧ t.pc c' = p := by
    intro c' hl
    rw [hpc] at hl ⊢
    by_cases hcc : c' = c
    · subst hcc
      exact ⟨rfl, Function.update_self ..⟩
    · rw [Function.update_of_ne hcc] at hl
      exact absurd hl (hothers c' hcc)
  refine ⟨fun c' hl => ?_, fun c' i hi => ?_, fun c' i hi => ?_, fun c' hi => ?_, fun c' i hi => ?_⟩
  · obtain ⟨rfl, he⟩ := hp c' hl
    exact hlock (he ▸ hl)
  · have hl : (t.pc c').Locks := by rcases hi with hi | hi <;> rw [hi] <;> trivial
    exact hmarked i ((hp c' hl).2 ▸ hi)
  · exact hcleared i ((hp c' (by rw [hi]; trivial)).2 ▸ hi)
  · exact htail ((hp c' (by rw [hi]; trivial)).2 ▸ hi)
  · exact hcommand i ((hp c' (by rw [hi]; trivial)).2 ▸ hi)

/-- No other CPU holds the lock. -/
theorem others (h : Turns s) (hc : (s.pc c).Locks) : ∀ c', c' ≠ c → ¬(s.pc c').Locks :=
  fun _ hne hc' => hne (h.one hc hc')

theorem others_free (h : Turns s) (hl : s.lock = none) : ∀ c', c' ≠ c → ¬(s.pc c').Locks := by
  intro c' _ hc'
  have := h.locks c' hc'
  rw [hl] at this
  cases this

/-- A CPU goes on without the lock. -/
theorem away (h : Turns s) (hpc : t.pc = Function.update s.pc c p) (hp : ¬p.Locks) (hlock : t.lock = s.lock)
    (hrx : t.rx = s.rx) (hhead : t.rxHead = s.rxHead) (htail : t.rxTail = s.rxTail) : Turns t := by
  have hold : ∀ c', (t.pc c').Locks → t.pc c' = s.pc c' := by
    intro c' hl
    rw [hpc] at hl ⊢
    by_cases hcc : c' = c
    · rw [hcc, Function.update_self] at hl
      exact absurd hl hp
    · exact Function.update_of_ne hcc ..
  refine ⟨fun c' hl => ?_, fun c' i hi => ?_, fun c' i hi => ?_, fun c' hi => ?_, fun c' i hi => ?_⟩
  · rw [hlock]
    exact h.locks c' (hold c' hl ▸ hl)
  · have hl : (t.pc c').Locks := by rcases hi with hi | hi <;> rw [hi] <;> trivial
    rw [hrx]
    exact h.marked c' i (hold c' hl ▸ hi)
  · rw [hrx]
    exact h.cleared c' i (hold c' (by rw [hi]; trivial) ▸ hi)
  · rw [hrx, hhead, htail]
    exact h.tailMove c' (hold c' (by rw [hi]; trivial) ▸ hi)
  · rw [hhead]
    exact h.command c' i (hold c' (by rw [hi]; trivial) ▸ hi)

end Turns

/-- Where the frames are, and what the slots say. -/
structure Placed (s : State C) : Prop extends Turns s where
  tail_nonneg : 0 ≤ s.rxTail
  tail_le : s.rxTail ≤ s.rxHead
  head_le : s.rxHead ≤ s.count
  count_le : s.count ≤ s.rxTail + 64
  head_lt : s.rxHead < 2 ^ 31
  going : s.running = true → s.count < s.rxTail + 64
  next : s.next = s.count % 64
  waiting : ∀ k, s.rxHead ≤ k → k < s.count →
    (s.rx (k % 64)).complete = true ∧ (s.rx (k % 64)).frame = some k
  busy : ∀ c i, (s.pc c).slot = some i →
    ∃ k, s.rxTail ≤ k ∧ k < s.rxHead ∧ i = k % 64 ∧ (s.rx i).frame = some k
  distinct : ∀ c c' i, (s.pc c).slot = some i → (s.pc c').slot = some i → c = c'
  full : ∀ c i, (s.pc c).slot = some i → s.pc c ≠ .cleared i → (s.rx i).complete = true
  /-- Complete slots have an owner. -/
  owner : ∀ i, 0 ≤ i → i < 64 → (s.rx i).complete = true →
    (∃ k, s.rxHead ≤ k ∧ k < s.count ∧ i = k % 64) ∨ ∃ c, (s.pc c).slot = some i
  /-- The slots that are done wait for the tail with their suspend bit set, and so does the one before it. -/
  done : ∀ k, s.rxTail ≤ k → k < s.rxHead → (s.rx (k % 64)).complete = false → (s.rx (k % 64)).suspend = true
  last : (s.rx ((s.rxTail - 1) % 64)).suspend = true
  failed : s.failed = false

namespace Placed

variable {s t : State C} {c : C} {p : Pc} {i k : ℤ}

theorem attach (mem : ℤ → Slot) (c : C) : Placed (State.attach mem c) := by
  have hslot : ∀ c', ((State.attach mem c).pc c').slot = none := by
    intro c'
    by_cases h : c' = c
    · simp [State.attach, h, Pc.slot]
    · simp [State.attach, h, Pc.slot]
  have hcomplete : ∀ i, 0 ≤ i → i < 64 → ((State.attach mem c).rx i).complete = false := by
    intro i h₀ h₁
    change (if 0 ≤ i ∧ i < rxSlots then (⟨false, false, i = rxSlots - 1, none⟩ : Slot) else mem i).complete = false
    rw [if_pos ⟨h₀, h₁⟩]
  have hno : ∀ k : ℤ, 0 ≤ k → k < 0 → False := fun k h₀ h₁ => by omega
  refine ⟨⟨fun c' h => ?_, fun c' i h => ?_, fun c' i h => ?_, fun c' h => ?_, fun c' i h => ?_⟩, le_rfl, le_rfl,
    le_rfl, show (0 : ℤ) ≤ 0 + 64 by omega, show (0 : ℤ) < 2 ^ 31 by omega, fun h => absurd h Bool.false_ne_true, rfl, fun k h₀ h₁ => (hno k h₀ h₁).elim,
    fun c' i h => ?_, fun c' _ i h => ?_, fun c' i h => ?_, fun i h₀ h₁ h => ?_,
    fun k h₀ h₁ => (hno k h₀ h₁).elim, rfl, rfl⟩
  · by_cases hc : c' = c
    · rw [hc]
      rfl
    · simp [State.attach, hc, Pc.Locks] at h
  · have := hslot c'
    rcases h with h | h <;> rw [h] at this <;> cases this
  · have := hslot c'
    rw [h] at this
    cases this
  · by_cases hc : c' = c <;> simp [State.attach, hc] at h
  · by_cases hc : c' = c <;> simp [State.attach, hc] at h
  · rw [hslot] at h
    cases h
  · rw [hslot] at h
    cases h
  · rw [hslot] at h
    cases h
  · rw [hcomplete i h₀ h₁] at h
    cases h

/-! ### Steps that leave the ring alone -/

/-- The ring stays as it is, and the CPU processes what it did before. -/
theorem quiet (h : Placed s) (hslot : p.slot = (s.pc c).slot) (hc : ∀ i, s.pc c ≠ .cleared i) (fr rnr idle : Bool)
    (passed : List (Option ℤ)) (used : List ℤ) (lock : Option C)
    (hT : Turns ({ s with fr, rnr, rxIdle := idle, passed, used, lock }.goto c p)) :
    Placed ({ s with fr, rnr, rxIdle := idle, passed, used, lock }.goto c p) := by
  have hs : ∀ c', (({ s with fr, rnr, rxIdle := idle, passed, used, lock }.goto c p).pc c').slot =
      (s.pc c').slot := by
    intro c'
    rw [goto_pc]
    split
    next hcc => rw [hslot, hcc]
    next => rfl
  refine ⟨hT, h.tail_nonneg, h.tail_le, h.head_le, h.count_le, h.head_lt, h.going, h.next, h.waiting,
    fun c' i hi => ?_, fun c' d i hi hi' => ?_, fun c' i hi hne => ?_, fun i h₀ h₁ hi => ?_, h.done, h.last, h.failed⟩
  · rw [hs] at hi
    exact h.busy c' i hi
  · rw [hs] at hi hi'
    exact h.distinct c' d i hi hi'
  · rw [hs] at hi
    refine h.full c' i hi fun hcl => ?_
    rw [goto_pc] at hne
    split at hne
    next hcc => exact hc i (hcc ▸ hcl)
    next => exact hne hcl
  · refine (h.owner i h₀ h₁ hi).imp id fun ⟨c', hc'⟩ => ⟨c', ?_⟩
    rw [hs]
    exact hc'

/-! ### Claims -/

theorem busy_ne (h : Placed s) (hi : (s.pc c).slot = some i) (h₀ : s.rxHead ≤ k) (h₁ : k < s.count) : k % 64 ≠ i := by
  obtain ⟨m, hm₀, hm₁, rfl, -⟩ := h.busy c i hi
  have := h.count_le
  omega

/-- The slot at the head is claimed. -/
theorem claim (h : Placed s) (hc : s.pc c = .loop) (hx : (s.rx (s.rxHead % 64)).complete = true)
    (hfree : s.rxHead - s.rxTail < 64) (hmax : s.rxHead < 2 ^ 31 - 1) (used : List ℤ) :
    s.rxHead < s.count ∧ Placed ({ s with used, rxHead := s.rxHead + 1 }.goto c (.claimed (s.rxHead % 64))) := by
  have h₀ := h.tail_nonneg
  have hle := h.tail_le
  have hbusy : ∀ c' i, (s.pc c').slot = some i → i ≠ s.rxHead % 64 := by
    rintro c' i hi rfl
    obtain ⟨k, hk₀, hk₁, hk, -⟩ := h.busy c' _ hi
    omega
  have hlt : s.rxHead < s.count := by
    rcases h.owner _ (by omega) (by omega) hx with ⟨k, hk₀, hk₁, -⟩ | ⟨c', hc'⟩
    · omega
    · exact absurd rfl (hbusy c' _ hc')
  have hlocks : (s.pc c).Locks := by
    rw [hc]
    trivial
  refine ⟨hlt, .go rfl (h.others hlocks) (fun _ => h.locks c hlocks) ?_ nofun nofun nofun, h₀,
    show s.rxTail ≤ s.rxHead + 1 by omega, show s.rxHead + 1 ≤ s.count by omega, h.count_le,
    show s.rxHead + 1 < 2 ^ 31 by omega, h.going, h.next, fun k hk₀ hk₁ => ?_, fun c' i hi => ?_,
    fun c' d i hi hi' => ?_, fun c' i hi hne => ?_, fun i hi₀ hi₁ hi => ?_, fun k hk₀ hk₁ hk => ?_, h.last, h.failed⟩
  · rintro i (hi | hi) <;> cases hi
  · change s.rxHead + 1 ≤ k at hk₀
    exact h.waiting k (by omega) hk₁
  · rw [goto_pc] at hi
    split at hi
    next =>
      obtain rfl := Option.some.inj hi
      exact ⟨s.rxHead, hle, show s.rxHead < s.rxHead + 1 by omega, rfl, (h.waiting _ le_rfl hlt).2⟩
    next =>
      obtain ⟨k, hk₀, hk₁, hk⟩ := h.busy c' i hi
      exact ⟨k, hk₀, show k < s.rxHead + 1 by omega, hk⟩
  · rw [goto_pc] at hi hi'
    split at hi <;> split at hi'
    next hcc hd => exact hcc.trans hd.symm
    next => exact absurd (Option.some.inj hi).symm (hbusy d i hi')
    next => exact absurd (Option.some.inj hi').symm (hbusy c' i hi)
    next => exact h.distinct c' d i hi hi'
  · rw [goto_pc] at hi hne
    split at hi
    next =>
      obtain rfl := Option.some.inj hi
      exact hx
    next hcc =>
      rw [if_neg hcc] at hne
      exact h.full c' i hi hne
  · rcases h.owner i hi₀ hi₁ hi with ⟨k, hk₀, hk₁, rfl⟩ | ⟨c', hc'⟩
    · rcases hk₀.eq_or_lt with rfl | hk₀
      · refine .inr ⟨c, ?_⟩
        rw [goto_pc, if_pos rfl]
        rfl
      · exact .inl ⟨k, show s.rxHead + 1 ≤ k by omega, hk₁, rfl⟩
    · refine .inr ⟨c', ?_⟩
      rw [goto_pc, if_neg]
      · exact hc'
      · rintro rfl
        rw [hc] at hc'
        cases hc'
  · change k < s.rxHead + 1 at hk₁
    rcases (show k ≤ s.rxHead by omega).eq_or_lt with rfl | hk₁
    · rw [show (s.rx (s.rxHead % 64)).complete = false from hk] at hx
      cases hx
    · exact h.done k hk₀ hk₁ hk

/-! ### Slots that are processed -/

/-- The CPU goes on with the slot it is processing, and writes to it. -/
theorem write (h : Placed s) (hc : (s.pc c).slot = some i) (hp : p.slot = some i) {x : Slot}
    (hframe : x.frame = (s.rx i).frame) (hsuspend : x.suspend = true)
    (hcomplete : x.complete = true → (s.rx i).complete = true) (hfull : p ≠ .cleared i → x.complete = true)
    (hT : Turns ((s.setSlot i x).goto c p)) : Placed ((s.setSlot i x).goto c p) := by
  set t := (s.setSlot i x).goto c p with ht
  have hrx : ∀ j, t.rx j = if j = i then x else s.rx j := fun j => setSlot_rx ..
  have hs : ∀ c', (t.pc c').slot = (s.pc c').slot := by
    intro c'
    rw [ht, goto_pc]
    split
    next hcc => rw [hcc, hc, hp]
    next => rfl
  refine ⟨hT, h.tail_nonneg, h.tail_le, h.head_le, h.count_le, h.head_lt, h.going, h.next, fun k hk₀ hk₁ => ?_,
    fun c' j hj => ?_, fun c' d j hj hj' => ?_, fun c' j hj hne => ?_, fun j hj₀ hj₁ hj => ?_,
    fun k hk₀ hk₁ hk => ?_, ?_, h.failed⟩
  · rw [hrx, if_neg (h.busy_ne hc hk₀ hk₁)]
    exact h.waiting k hk₀ hk₁
  · rw [hs] at hj
    obtain ⟨k, hk₀, hk₁, hk, hf⟩ := h.busy c' j hj
    refine ⟨k, hk₀, hk₁, hk, ?_⟩
    rw [hrx]
    split
    next hji =>
      rw [hframe, ← hji]
      exact hf
    next => exact hf
  · rw [hs] at hj hj'
    exact h.distinct c' d j hj hj'
  · rw [hs] at hj
    rw [hrx]
    rw [ht, goto_pc] at hne
    by_cases hcc : c' = c
    · obtain rfl : i = j := by
        rw [hcc, hc] at hj
        exact Option.some.inj hj
      rw [if_pos hcc] at hne
      rw [if_pos rfl]
      exact hfull hne
    · rw [if_neg hcc] at hne
      rw [if_neg fun hji => hcc (h.distinct c' c j hj (by rw [hji]; exact hc))]
      exact h.full c' j hj hne
  · have hj' : (s.rx j).complete = true := by
      rw [hrx] at hj
      split at hj
      next hji =>
        rw [hji]
        exact hcomplete hj
      next => exact hj
    refine (h.owner j hj₀ hj₁ hj').imp id fun ⟨c', hc'⟩ => ⟨c', ?_⟩
    rw [hs]
    exact hc'
  · rw [hrx] at hk ⊢
    split
    next => exact hsuspend
    next hki =>
      rw [if_neg hki] at hk
      exact h.done k hk₀ hk₁ hk
  · rw [hrx]
    split
    next => exact hsuspend
    next => exact h.last

/-- The slot is given back. -/
theorem leave (h : Placed s) (hc : s.pc c = .cleared i) :
    Placed ((s.setSlot i { s.rx i with frame := none }).goto c .loop) := by
  have hci : (s.pc c).slot = some i := by rw [hc]; rfl
  have hlocks : (s.pc c).Locks := by
    rw [hc]
    trivial
  set t := (s.setSlot i { s.rx i with frame := none }).goto c .loop with ht
  have hrx : ∀ j, t.rx j = if j = i then { s.rx i with frame := none } else s.rx j := fun j => setSlot_rx ..
  have hcomplete : ∀ j, (t.rx j).complete = (s.rx j).complete := by
    intro j
    rw [hrx]
    split
    next hj => rw [hj]
    next => rfl
  have hsuspend : ∀ j, (t.rx j).suspend = (s.rx j).suspend := by
    intro j
    rw [hrx]
    split
    next hj => rw [hj]
    next => rfl
  have hs : ∀ c' j, (t.pc c').slot = some j → c' ≠ c ∧ (s.pc c').slot = some j ∧ t.pc c' = s.pc c' := by
    intro c' j hj
    rw [ht, goto_pc] at hj ⊢
    split at hj
    next => cases hj
    next hcc =>
      rw [if_neg hcc]
      exact ⟨hcc, hj, rfl⟩
  refine ⟨.go rfl (h.others hlocks) (fun _ => h.locks c hlocks) ?_ nofun nofun nofun, h.tail_nonneg, h.tail_le,
    h.head_le, h.count_le, h.head_lt, h.going, h.next, fun k hk₀ hk₁ => ?_, fun c' j hj => ?_, fun c' d j hj hj' => ?_,
    fun c' j hj hne => ?_, fun j hj₀ hj₁ hj => ?_, fun k hk₀ hk₁ hk => ?_, ?_, h.failed⟩
  · rintro j (hj | hj) <;> cases hj
  · rw [hrx, if_neg (h.busy_ne hci hk₀ hk₁)]
    exact h.waiting k hk₀ hk₁
  · obtain ⟨hcc, hj, -⟩ := hs c' j hj
    rw [hrx, if_neg fun hji => hcc (h.distinct c' c j hj (by rw [hji]; exact hci))]
    exact h.busy c' j hj
  · exact h.distinct c' d j (hs c' j hj).2.1 (hs d j hj').2.1
  · obtain ⟨-, hj, he⟩ := hs c' j hj
    rw [hcomplete]
    exact h.full c' j hj (by rw [← he]; exact hne)
  · rw [hcomplete] at hj
    refine (h.owner j hj₀ hj₁ hj).imp id fun ⟨c', hc'⟩ => ⟨c', ?_⟩
    rw [ht, goto_pc, if_neg]
    · exact hc'
    · rintro rfl
      obtain rfl : i = j := Option.some.inj (hci.symm.trans hc')
      rw [h.cleared c' i hc] at hj
      cases hj
  · rw [hcomplete] at hk
    rw [hsuspend]
    exact h.done k hk₀ hk₁ hk
  · rw [hsuspend]
    exact h.last

/-! ### The tail -/

/-- The tail moves on. -/
theorem move (h : Placed s) (hc : s.pc c = .tailMove) (hx : (s.rx (s.rxTail % 64)).suspend = true)
    (hfree : s.rxHead - s.rxTail = 64 → 0 < s.rxTail → (s.rx ((s.rxTail - 1).tmod rxSlots)).complete = true)
    (used : List ℤ) :
    Placed ({ s.setSlot ((s.rxTail - 1).tmod rxSlots) { s.rx ((s.rxTail - 1).tmod rxSlots) with suspend := false } with
      used, rxTail := s.rxTail + 1 }.goto c .tail) := by
  obtain ⟨hlt, hopen⟩ := h.tailMove c hc
  have h₀ := h.tail_nonneg
  have hhead := h.head_le
  have hcount := h.count_le
  have hlocks : (s.pc c).Locks := by
    rw [hc]
    trivial
  -- the first time the index is before the ring
  have hprev : s.rxTail = 0 ∧ (s.rxTail - 1).tmod rxSlots = -1 ∨
      0 < s.rxTail ∧ (s.rxTail - 1).tmod rxSlots = (s.rxTail - 1) % 64 := by
    rcases h₀.eq_or_lt with he | hpos
    · left
      rw [← he]
      exact ⟨rfl, by decide⟩
    · exact .inr ⟨hpos, tmod_slots (by omega)⟩
  set i := (s.rxTail - 1).tmod rxSlots with hi
  set t := { s.setSlot i { s.rx i with suspend := false } with used, rxTail := s.rxTail + 1 }.goto c .tail with ht
  have hrx : ∀ j, t.rx j = if j = i then { s.rx i with suspend := false } else s.rx j := fun j => setSlot_rx s i j _
  have hcomplete : ∀ j, (t.rx j).complete = (s.rx j).complete := by
    intro j
    rw [hrx]
    split
    next hj => rw [hj]
    next => rfl
  have hframe : ∀ j, (t.rx j).frame = (s.rx j).frame := by
    intro j
    rw [hrx]
    split
    next hj => rw [hj]
    next => rfl
  have hpc : ∀ c', t.pc c' = if c' = c then .tail else s.pc c' := fun c' => goto_pc ..
  have hs : ∀ c', (t.pc c').slot = (s.pc c').slot := by
    intro c'
    rw [hpc]
    split
    next hcc => rw [hcc, hc]; rfl
    next => rfl
  refine ⟨.go rfl (h.others hlocks) (fun _ => h.locks c hlocks) ?_ nofun nofun nofun, show 0 ≤ s.rxTail + 1 by omega,
    show s.rxTail + 1 ≤ s.rxHead by omega, hhead, show s.count ≤ s.rxTail + 1 + 64 by omega, h.head_lt, fun hr => ?_,
    h.next, fun k hk₀ hk₁ => ?_, fun c' j hj => ?_, fun c' d j hj hj' => ?_, fun c' j hj hne => ?_,
    fun j hj₀ hj₁ hj => ?_, fun k hk₀ hk₁ hk => ?_, ?_, h.failed⟩
  · rintro j (hj | hj) <;> cases hj
  · have : s.count < s.rxTail + 64 := h.going hr
    change s.count < s.rxTail + 1 + 64
    omega
  · rw [hcomplete, hframe]
    exact h.waiting k hk₀ hk₁
  · rw [hs] at hj
    obtain ⟨k, hk₀, hk₁, hk, hf⟩ := h.busy c' j hj
    refine ⟨k, ?_, hk₁, hk, by rw [hframe]; exact hf⟩
    change s.rxTail + 1 ≤ k
    rcases hk₀.eq_or_lt with rfl | hk₀
    · -- the slot at the tail would be one that this CPU has cleared
      have hcl : s.pc c' = .cleared j := by
        by_contra hne
        have := h.full c' j hj hne
        rw [hk, hopen] at this
        cases this
      have hlocks' : (s.pc c').Locks := by rw [hcl]; trivial
      obtain rfl := h.one hlocks hlocks'
      rw [hc] at hcl
      cases hcl
    · omega
  · rw [hs] at hj hj'
    exact h.distinct c' d j hj hj'
  · rw [hs] at hj
    rw [hcomplete]
    refine h.full c' j hj fun hcl => hne ?_
    rw [hpc, if_neg]
    · exact hcl
    · rintro rfl
      rw [hc] at hcl
      cases hcl
  · rw [hcomplete] at hj
    refine (h.owner j hj₀ hj₁ hj).imp id fun ⟨c', hc'⟩ => ⟨c', ?_⟩
    rw [hs]
    exact hc'
  · change s.rxTail + 1 ≤ k at hk₀
    change k < s.rxHead at hk₁
    rw [hcomplete] at hk
    rw [hrx, if_neg]
    · exact h.done k (by omega) hk₁ hk
    · intro hki
      rcases hprev with ⟨-, he⟩ | ⟨hpos, he⟩
      · omega
      · -- the slot before the tail is the last one before the head
        have hfull := hfree (by omega) hpos
        rw [← hki, hk] at hfull
        cases hfull
  · change (t.rx ((s.rxTail + 1 - 1) % 64)).suspend = true
    rw [add_sub_cancel_right, hrx, if_neg]
    · exact hx
    · omega

/-! ### The card -/

/-- The card goes on where it is, which is at the slot that the next frame belongs to. -/
theorem send (h : Placed s) (hc : s.pc c = .command i) (hgo : s.count < s.rxTail + 64) {n : ℤ}
    (hn : n = s.count % 64) (idle : Bool) :
    Placed ({ s with next := n, running := true, rxIdle := idle, lock := none }.goto c .out) := by
  have hlocks : (s.pc c).Locks := by
    rw [hc]
    trivial
  set t := { s with next := n, running := true, rxIdle := idle, lock := none }.goto c .out with ht
  have hs : ∀ c' j, (t.pc c').slot = some j → c' ≠ c ∧ (s.pc c').slot = some j ∧ t.pc c' = s.pc c' := by
    intro c' j hj
    rw [ht, goto_pc] at hj ⊢
    split at hj
    next => cases hj
    next hcc =>
      rw [if_neg hcc]
      exact ⟨hcc, hj, rfl⟩
  refine ⟨.go rfl (h.others hlocks) nofun ?_ nofun nofun nofun, h.tail_nonneg, h.tail_le, h.head_le, h.count_le,
    h.head_lt, fun _ => hgo, hn, h.waiting, fun c' j hj => h.busy c' j (hs c' j hj).2.1,
    fun c' d j hj hj' => h.distinct c' d j (hs c' j hj).2.1 (hs d j hj').2.1, fun c' j hj hne => ?_,
    fun j hj₀ hj₁ hj => ?_, h.done, h.last, h.failed⟩
  · rintro j (hj | hj) <;> cases hj
  · obtain ⟨-, hj, he⟩ := hs c' j hj
    exact h.full c' j hj (by rw [← he]; exact hne)
  · refine (h.owner j hj₀ hj₁ hj).imp id fun ⟨c', hc'⟩ => ⟨c', ?_⟩
    rw [ht, goto_pc, if_neg]
    · exact hc'
    · rintro rfl
      rw [hc] at hc'
      cases hc'

/-- The card puts a frame into a slot. -/
theorem receive {ok : Bool} (h : Placed s) (hs : s.complete ok = some t) :
    s.running = true ∧
      t.rx = Function.update s.rx (s.count % 64) ⟨true, ok, (s.rx (s.count % 64)).suspend, some s.count⟩ ∧
      Placed t := by
  unfold complete at hs
  split at hs
  case isFalse => cases hs
  case isTrue hr =>
    rw [h.next] at hs
    obtain rfl := Option.some.inj hs
    refine ⟨hr, rfl, ?_⟩
    have h₀ := h.tail_nonneg
    have hle := h.tail_le
    have hhead := h.head_le
    have hgo := h.going hr
    set t : State C := {
        s.setSlot (s.count % 64) { s.rx (s.count % 64) with complete := true, ok, frame := some s.count } with
      next := (s.count % 64 + 1) % rxSlots
      running := !(s.rx (s.count % 64)).suspend
      fr := true
      rnr := s.rnr || (s.rx (s.count % 64)).suspend
      count := s.count + 1
      received := if ok then s.count :: s.received else s.received } with ht
    have hrx : ∀ j, t.rx j = if j = s.count % 64 then
        ⟨true, ok, (s.rx (s.count % 64)).suspend, some s.count⟩ else s.rx j := fun j => setSlot_rx ..
    have hother : ∀ {j}, j ≠ s.count % 64 → t.rx j = s.rx j := fun hj => by rw [hrx, if_neg hj]
    have hsuspend : ∀ j, (t.rx j).suspend = (s.rx j).suspend := by
      intro j
      rw [hrx]
      split
      next hj => rw [hj]
      next => rfl
    have hbusy : ∀ {c' j}, (s.pc c').slot = some j → j ≠ s.count % 64 := by
      intro c' j hj
      obtain ⟨k, hk₀, hk₁, rfl, -⟩ := h.busy c' j hj
      omega
    refine ⟨⟨h.locks, fun c' j hj => ?_, fun c' j hj => ?_, fun c' hj => ?_, h.command⟩, h₀, hle,
      show s.rxHead ≤ s.count + 1 by omega, show s.count + 1 ≤ s.rxTail + 64 by omega, h.head_lt, fun hr' => ?_, ?_,
      fun k hk₀ hk₁ => ?_, fun c' j hj => ?_, h.distinct, fun c' j hj hne => ?_, fun j hj₀ hj₁ hj => ?_,
      fun k hk₀ hk₁ hk => ?_, ?_, h.failed⟩
    · rw [hsuspend]
      exact h.marked c' j hj
    · have hj' : (s.pc c').slot = some j := by rw [show s.pc c' = .cleared j from hj]; rfl
      rw [hother (hbusy hj')]
      exact h.cleared c' j hj
    · obtain ⟨hlt, hopen⟩ := h.tailMove c' hj
      refine ⟨hlt, ?_⟩
      change (t.rx (s.rxTail % 64)).complete = false
      rw [hother (by omega)]
      exact hopen
    · change s.count + 1 < s.rxTail + 64
      by_contra hn
      -- the last slot makes the card suspend
      have hlast := h.last
      rw [show (s.rxTail - 1) % 64 = s.count % 64 by omega] at hlast
      rw [show t.running = !(s.rx (s.count % 64)).suspend from rfl, hlast] at hr'
      cases hr'
    · change (s.count % 64 + 1) % 64 = (s.count + 1) % 64
      omega
    · change s.rxHead ≤ k at hk₀
      change k < s.count + 1 at hk₁
      rcases (show k ≤ s.count by omega).eq_or_lt with rfl | hk₁
      · rw [hrx, if_pos rfl]
        exact ⟨rfl, rfl⟩
      · rw [hother (by omega)]
        exact h.waiting k hk₀ hk₁
    · rw [hother (hbusy hj)]
      exact h.busy c' j hj
    · rw [hother (hbusy hj)]
      exact h.full c' j hj hne
    · rw [hrx] at hj
      split at hj
      next hji => exact .inl ⟨s.count, hhead, show s.count < s.count + 1 by omega, hji⟩
      next =>
        refine (h.owner j hj₀ hj₁ hj).imp (fun ⟨k, hk₀, hk₁, hk⟩ => ⟨k, hk₀, ?_, hk⟩) id
        change k < s.count + 1
        omega
    · change s.rxTail ≤ k at hk₀
      change k < s.rxHead at hk₁
      rw [hother (by omega)] at hk ⊢
      exact h.done k hk₀ hk₁ hk
    · rw [hsuspend]
      exact h.last

end Placed

end Determinator.E100.State
