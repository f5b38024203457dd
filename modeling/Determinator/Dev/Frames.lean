import Determinator.Dev.Ring

/-!
# What the receive ring passes on

`net_rx` is called once for each frame that the card has received okay (`Told`), and the only index out of
bounds is the one the tail leaves 0 with (`Indexed`). With what is known of the slots this is the invariant of
the runs that do not come by a defect.
-/

set_option linter.unusedSectionVars false

namespace Determinator.E100

namespace State

variable {C : Type} [DecidableEq C]

/-- What `net_rx` has been called for, and for what it will be. -/
structure Told (s : State C) : Prop where
  waiting : ∀ k, s.rxHead ≤ k → k < s.count → ((s.rx (k % 64)).ok = true ↔ k ∈ s.received)
  taken : ∀ c i k, (s.pc c).Takes i → (s.rx i).frame = some k →
    some k ∉ s.passed ∧ ((s.rx i).ok = true ↔ k ∈ s.received)
  unlocked : ∀ c i, s.pc c = .unlocked i → (s.rx i).ok = true
  once : s.passed.Nodup
  only : ∀ x ∈ s.passed, ∃ k ∈ s.received, x = some k ∧ k < s.rxHead
  known : ∀ k ∈ s.received, k < s.count
  kept : ∀ k ∈ s.received, k < s.rxHead →
    some k ∈ s.passed ∨ ∃ c, (s.pc c).Takes (k % 64) ∧ (s.rx (k % 64)).frame = some k

namespace Told

variable {s t : State C} {c : C} {p : Pc} {i : ℤ}

theorem attach (mem : ℤ → Slot) (c : C) : Told (State.attach mem c) := by
  have hno : ∀ k : ℤ, 0 ≤ k → k < 0 → False := fun k h₀ h₁ => by omega
  have htakes : ∀ c' i, ¬((State.attach mem c).pc c').Takes i := by
    rintro c' i (h | h) <;> by_cases hc : c' = c <;> simp [State.attach, hc] at h
  exact ⟨fun k h₀ h₁ => (hno k h₀ h₁).elim, fun c' i _ h => absurd h (htakes c' i),
    fun c' i h => absurd (.inr h) (htakes c' i), List.nodup_nil, fun x hx => absurd hx List.not_mem_nil,
    fun k hk => absurd hk List.not_mem_nil, fun k hk => absurd hk List.not_mem_nil⟩

/-- A CPU that has no frame to pass on goes on, and writes at most to the slot it is processing. -/
theorem same (h : Told s) (hP : Placed s) (hpc : t.pc = Function.update s.pc c p) (hc : ∀ i, ¬(s.pc c).Takes i)
    (hp : ∀ i, ¬p.Takes i)
    (hrx : ∀ j, (s.pc c).slot ≠ some j → (t.rx j).ok = (s.rx j).ok ∧ (t.rx j).frame = (s.rx j).frame)
    (hhead : t.rxHead = s.rxHead) (hcount : t.count = s.count) (hreceived : t.received = s.received)
    (hpassed : t.passed = s.passed) : Told t := by
  have htakes : ∀ {c' i}, (t.pc c').Takes i ↔ (s.pc c').Takes i := by
    intro c' i
    rw [hpc]
    by_cases hcc : c' = c
    · rw [hcc, Function.update_self]
      exact iff_of_false (hp i) (hc i)
    · rw [Function.update_of_ne hcc]
  have hslot : ∀ {c' i}, (s.pc c').Takes i → (t.rx i).ok = (s.rx i).ok ∧ (t.rx i).frame = (s.rx i).frame := by
    intro c' i ht
    refine hrx i fun hi => hc i ?_
    rw [hP.distinct c c' i hi ht.slot.1]
    exact ht
  refine ⟨fun k hk₀ hk₁ => ?_, fun c' i k ht hf => ?_, fun c' i hi => ?_, ?_, fun x hx => ?_, fun k hk => ?_,
    fun k hk hlt => ?_⟩
  · rw [hhead] at hk₀
    rw [hcount] at hk₁
    rw [(hrx _ fun hi => hP.busy_ne hi hk₀ hk₁ rfl).1, hreceived]
    exact h.waiting k hk₀ hk₁
  · have ht := htakes.1 ht
    obtain ⟨hok, hframe⟩ := hslot ht
    rw [hframe] at hf
    rw [hpassed, hreceived, hok]
    exact h.taken c' i k ht hf
  · have ht : (t.pc c').Takes i := .inr hi
    have ht := htakes.1 ht
    rw [(hslot ht).1]
    refine h.unlocked c' i ?_
    rw [← hi, hpc, Function.update_of_ne]
    rintro rfl
    exact hc i ht
  · rw [hpassed]
    exact h.once
  · rw [hpassed] at hx
    rw [hreceived, hhead]
    exact h.only x hx
  · rw [hreceived] at hk
    rw [hcount]
    exact h.known k hk
  · rw [hreceived] at hk
    rw [hhead] at hlt
    rw [hpassed]
    refine (h.kept k hk hlt).imp id ?_
    rintro ⟨c', ht, hf⟩
    exact ⟨c', htakes.2 ht, by rw [(hslot ht).2]; exact hf⟩

/-- The frame of the slot that is claimed is taken. -/
theorem claim (h : Told s) (hP : Placed s) (hc : s.pc c = .loop) (hlt : s.rxHead < s.count) (used : List ℤ) :
    Told ({ s with used, rxHead := s.rxHead + 1 }.goto c (.claimed (s.rxHead % 64))) := by
  have hnot : ∀ i, ¬(s.pc c).Takes i := by
    rintro i (hi | hi) <;> rw [hc] at hi <;> cases hi
  refine ⟨fun k hk₀ hk₁ => ?_, fun c' i k ht hf => ?_, fun c' i hi => ?_, h.once, fun x hx => ?_, h.known,
    fun k hk hlt => ?_⟩
  · change s.rxHead + 1 ≤ k at hk₀
    exact h.waiting k (by omega) hk₁
  · rw [goto_pc] at ht
    split at ht
    next =>
      obtain rfl : s.rxHead % 64 = i := by rcases ht with ht | ht <;> cases ht; rfl
      obtain rfl := Option.some.inj ((hP.waiting _ le_rfl hlt).2.symm.trans hf)
      refine ⟨fun hx => ?_, h.waiting _ le_rfl hlt⟩
      obtain ⟨k, -, hk, hk'⟩ := h.only _ hx
      have := Option.some.inj hk
      omega
    next => exact h.taken c' i k ht hf
  · rw [goto_pc] at hi
    split at hi
    next => cases hi
    next => exact h.unlocked c' i hi
  · obtain ⟨k, hk, he, hk'⟩ := h.only x hx
    exact ⟨k, hk, he, show k < s.rxHead + 1 by omega⟩
  · change k < s.rxHead + 1 at hlt
    rcases (show k ≤ s.rxHead by omega).eq_or_lt with rfl | hlt
    · refine .inr ⟨c, ?_, (hP.waiting _ le_rfl (by assumption)).2⟩
      rw [goto_pc, if_pos rfl]
      exact .inl rfl
    · refine (h.kept k hk hlt).imp id ?_
      rintro ⟨c', ht, hf⟩
      refine ⟨c', ?_, hf⟩
      rw [goto_pc, if_neg]
      · exact ht
      · rintro rfl
        exact hnot _ ht

/-- A frame received okay is to be passed on without the lock. -/
theorem unlock (h : Told s) (hc : s.pc c = .claimed i) (hok : (s.rx i).ok = true) :
    Told (s.release c (.unlocked i)) := by
  have htakes : ∀ {c' j}, ((s.release c (.unlocked i)).pc c').Takes j ↔ (s.pc c').Takes j := by
    intro c' j
    rw [release, goto_pc]
    split
    next hcc =>
      rw [hcc, hc]
      constructor
      · rintro (hj | hj) <;> cases hj
        exact .inl rfl
      · rintro (hj | hj) <;> cases hj
        exact .inr rfl
    next => rfl
  refine ⟨h.waiting, fun c' j k ht hf => h.taken c' j k (htakes.1 ht) hf, fun c' j hj => ?_, h.once, h.only, h.known,
    fun k hk hlt => (h.kept k hk hlt).imp id fun ⟨c', ht, hf⟩ => ⟨c', htakes.2 ht, hf⟩⟩
  rw [release, goto_pc] at hj
  split at hj
  next =>
    cases hj
    exact hok
  next => exact h.unlocked c' j hj

/-- A frame with an error is not passed on. -/
theorem skip (h : Told s) (hc : s.pc c = .claimed i) (hok : (s.rx i).ok = false) : Told (s.goto c (.locked i)) := by
  have htakes : ∀ {c' j}, ((s.goto c (.locked i)).pc c').Takes j → c' ≠ c ∧ (s.pc c').Takes j := by
    intro c' j ht
    rw [goto_pc] at ht
    split at ht
    next => rcases ht with ht | ht <;> cases ht
    next hcc => exact ⟨hcc, ht⟩
  refine ⟨h.waiting, fun c' j k ht hf => h.taken c' j k (htakes ht).2 hf, fun c' j hj => ?_, h.once, h.only, h.known,
    fun k hk hlt => (h.kept k hk hlt).imp id ?_⟩
  · have hcc := (htakes (.inr hj)).1
    rw [goto_pc, if_neg hcc] at hj
    exact h.unlocked c' j hj
  · rintro ⟨c', ht, hf⟩
    refine ⟨c', ?_, hf⟩
    rw [goto_pc, if_neg]
    · exact ht
    · rintro rfl
      have hi : k % 64 = i := by
        rw [hc] at ht
        rcases ht with ht | ht <;> cases ht
        rfl
      have := (h.taken c' _ k ht hf).2.2 hk
      rw [hi, hok] at this
      cases this

/-- `net_rx` is called. -/
theorem pass (h : Told s) (hP : Placed s) (hc : s.pc c = .unlocked i) :
    Told ({ s with passed := s.passed ++ [(s.rx i).frame] }.goto c (.returned i)) := by
  have hci : (s.pc c).Takes i := .inr hc
  obtain ⟨m, -, hm, hi, hf⟩ := hP.busy c i hci.slot.1
  obtain ⟨hnew, hok⟩ := h.taken c i m hci hf
  have hmr := hok.1 (h.unlocked c i hc)
  set t := { s with passed := s.passed ++ [(s.rx i).frame] }.goto c (.returned i) with ht
  have hpassed : t.passed = s.passed ++ [some m] := by
    rw [← hf]
    rfl
  have htakes : ∀ {c' j}, (t.pc c').Takes j → c' ≠ c ∧ (s.pc c').Takes j := by
    intro c' j ht'
    rw [ht, goto_pc] at ht'
    split at ht'
    next => rcases ht' with ht' | ht' <;> cases ht'
    next hcc => exact ⟨hcc, ht'⟩
  refine ⟨h.waiting, fun c' j k ht' hk => ?_, fun c' j hj => ?_, ?_, fun x hx => ?_, h.known, fun k hk hlt => ?_⟩
  · obtain ⟨hcc, hj⟩ := htakes ht'
    obtain ⟨h₁, h₂⟩ := h.taken c' j k hj hk
    refine ⟨?_, h₂⟩
    rw [hpassed, List.mem_append, List.mem_singleton]
    rintro (hx | hx)
    · exact h₁ hx
    · -- the frame would be in two slots
      obtain rfl := Option.some.inj hx
      obtain ⟨n, -, -, hjn, hn⟩ := hP.busy c' j hj.slot.1
      obtain rfl := Option.some.inj (hn.symm.trans hk)
      refine hcc (hP.distinct c' c j hj.slot.1 ?_)
      rw [hjn, ← hi]
      exact hci.slot.1
  · obtain ⟨hcc, -⟩ := htakes (.inr hj)
    rw [ht, goto_pc, if_neg hcc] at hj
    exact h.unlocked c' j hj
  · rw [hpassed]
    refine h.once.append (List.nodup_singleton _) ?_
    rw [List.disjoint_singleton]
    exact hnew
  · rw [hpassed, List.mem_append, List.mem_singleton] at hx
    rcases hx with hx | rfl
    · exact h.only x hx
    · exact ⟨m, hmr, rfl, hm⟩
  · rw [hpassed]
    rcases h.kept k hk hlt with hx | ⟨c', hj, hk'⟩
    · exact .inl (List.mem_append_left _ hx)
    · by_cases hcc : c' = c
      · subst hcc
        have hki : i = k % 64 := Option.some.inj (hci.slot.1.symm.trans hj.slot.1)
        rw [← hki, hf] at hk'
        rw [hk']
        exact .inl (List.mem_append_right _ (List.mem_singleton_self _))
      · refine .inr ⟨c', ?_, hk'⟩
        rw [ht, goto_pc, if_neg hcc]
        exact hj

/-- The card puts a frame into a slot. -/
theorem receive {ok : Bool} (h : Told s) (hP : Placed s) (hs : s.complete ok = some t) : Told t := by
  obtain ⟨hr, hrx, -⟩ := hP.receive hs
  have hother : ∀ {j}, j ≠ s.count % 64 → t.rx j = s.rx j := fun hj => by rw [hrx, Function.update_of_ne hj]
  have hgo := hP.going hr
  have hle := hP.tail_le
  have hbusy : ∀ {c' j}, (s.pc c').slot = some j → j ≠ s.count % 64 := by
    intro c' j hj
    obtain ⟨k, hk₀, hk₁, rfl, -⟩ := hP.busy c' j hj
    have := hP.head_le
    omega
  unfold complete at hs
  rw [if_pos hr] at hs
  have hmem : ∀ k, k < s.count → (k ∈ t.received ↔ k ∈ s.received) := by
    intro k hk
    rw [← Option.some.inj hs]
    change k ∈ (if ok then s.count :: s.received else s.received) ↔ _
    split
    · rw [List.mem_cons]
      exact or_iff_right (by omega)
    · rfl
  have hnew : s.count ∈ t.received ↔ ok = true := by
    rw [← Option.some.inj hs]
    change s.count ∈ (if ok then s.count :: s.received else s.received) ↔ _
    split
    next hok => exact iff_of_true List.mem_cons_self hok
    next hok =>
      refine iff_of_false (fun hm => ?_) hok
      have := h.known _ hm
      omega
  have hback : ∀ k ∈ t.received, k = s.count ∨ k < s.count ∧ k ∈ s.received := by
    intro k hk
    rw [← Option.some.inj hs] at hk
    change k ∈ (if ok then s.count :: s.received else s.received) at hk
    split at hk
    next => exact (List.mem_cons.1 hk).imp id fun hk => ⟨h.known k hk, hk⟩
    next => exact .inr ⟨h.known k hk, hk⟩
  obtain ⟨hpc, hhead, hcount, hpassed⟩ :
      t.pc = s.pc ∧ t.rxHead = s.rxHead ∧ t.count = s.count + 1 ∧ t.passed = s.passed := by
    rw [← Option.some.inj hs]
    exact ⟨rfl, rfl, rfl, rfl⟩
  refine ⟨fun k hk₀ hk₁ => ?_, fun c' j k ht hf => ?_, fun c' j hj => ?_, ?_, fun x hx => ?_, fun k hk => ?_,
    fun k hk hlt => ?_⟩
  · rw [hhead] at hk₀
    rw [hcount] at hk₁
    rcases (show k ≤ s.count by omega).eq_or_lt with rfl | hk₁
    · rw [hrx, Function.update_self, hnew]
    · rw [hother (by omega), hmem k hk₁]
      exact h.waiting k hk₀ hk₁
  · rw [hpc] at ht
    rw [hother (hbusy ht.slot.1)] at hf ⊢
    obtain ⟨n, -, hn, -, hn'⟩ := hP.busy c' j ht.slot.1
    obtain rfl := Option.some.inj (hn'.symm.trans hf)
    rw [hpassed, hmem n (by have := hP.head_le; omega)]
    exact h.taken c' j n ht hf
  · rw [hpc] at hj
    have ht : (s.pc c').Takes j := .inr hj
    rw [hother (hbusy ht.slot.1)]
    exact h.unlocked c' j hj
  · rw [hpassed]
    exact h.once
  · rw [hpassed] at hx
    rw [hhead]
    obtain ⟨k, hk, he, hlt⟩ := h.only x hx
    exact ⟨k, (hmem k (h.known k hk)).2 hk, he, hlt⟩
  · rw [hcount]
    rcases hback k hk with rfl | ⟨hlt, -⟩ <;> omega
  · rw [hhead] at hlt
    rw [hpassed]
    have := hP.head_le
    obtain ⟨-, hk⟩ := (hback k hk).resolve_left (by omega)
    refine (h.kept k hk hlt).imp id ?_
    rintro ⟨c', ht, hf⟩
    refine ⟨c', by rw [hpc]; exact ht, ?_⟩
    rw [hother (hbusy ht.slot.1)]
    exact hf

end Told

/-! ## The indices -/

/-- The index `-1` is used when the tail leaves 0, and no other out of bounds. -/
structure Indexed (s : State C) : Prop where
  bounds : ∀ i ∈ s.used, -1 ≤ i ∧ i < 64
  before : -1 ∈ s.used ↔ 0 < s.rxTail

namespace Indexed

variable {s t : State C} {i : ℤ}

theorem same (h : Indexed s) (hused : t.used = s.used) (htail : t.rxTail = s.rxTail) : Indexed t := by
  refine ⟨?_, ?_⟩
  · rw [hused]
    exact h.bounds
  · rw [hused, htail]
    exact h.before

theorem use (h : Indexed s) (hused : t.used = i :: s.used) (htail : t.rxTail = s.rxTail) (h₀ : 0 ≤ i) (h₁ : i < 64) :
    Indexed t := by
  refine ⟨fun j hj => ?_, ?_⟩
  · rw [hused] at hj
    rcases List.mem_cons.1 hj with rfl | hj
    · omega
    · exact h.bounds j hj
  · rw [hused, htail, List.mem_cons, or_iff_right (by omega)]
    exact h.before

theorem move (h : Indexed s) (hused : t.used = (s.rxTail - 1).tmod rxSlots :: s.used) (htail : t.rxTail = s.rxTail + 1)
    (h₀ : 0 ≤ s.rxTail) : Indexed t := by
  have hi : s.rxTail = 0 ∧ (s.rxTail - 1).tmod rxSlots = -1 ∨
      0 < s.rxTail ∧ (s.rxTail - 1).tmod rxSlots = (s.rxTail - 1) % 64 := by
    rcases h₀.eq_or_lt with he | hpos
    · left
      rw [← he]
      exact ⟨rfl, by decide⟩
    · exact .inr ⟨hpos, tmod_slots (by omega)⟩
  refine ⟨fun j hj => ?_, ?_⟩
  · rw [hused] at hj
    rcases List.mem_cons.1 hj with rfl | hj
    · omega
    · exact h.bounds j hj
  · rw [hused, htail, List.mem_cons]
    refine iff_of_true ?_ (by omega)
    rcases hi with ⟨-, he⟩ | ⟨hpos, -⟩
    · exact .inl he.symm
    · exact .inr (h.before.2 hpos)

end Indexed

/-! ## Runs -/

/-- The invariant. -/
structure Inv (s : State C) : Prop where
  placed : Placed s
  told : Told s
  indexed : Indexed s

namespace Inv

variable {s t : State C} {c : C} {p : Pc} {i : ℤ}

theorem attach (mem : ℤ → Slot) (c : C) : Inv (State.attach mem c) :=
  ⟨.attach mem c, .attach mem c, nofun, iff_of_false nofun (lt_irrefl 0)⟩

/-- Steps that leave the ring alone, of a CPU that is not processing a slot. -/
theorem idle (h : Inv s) (hc : (s.pc c).slot = none) (hp : p.slot = none) (fr rnr idle : Bool) (used : List ℤ)
    (lock : Option C) (hused : used = s.used ∨ ∃ i, 0 ≤ i ∧ i < 64 ∧ used = i :: s.used)
    (hT : Turns ({ s with fr, rnr, rxIdle := idle, used, lock }.goto c p)) :
    Inv ({ s with fr, rnr, rxIdle := idle, used, lock }.goto c p) := by
  have hnot : ∀ {q : Pc}, q.slot = none → ∀ i, ¬q.Takes i ∧ q ≠ .cleared i := by
    intro q hq i
    refine ⟨fun ht => ?_, fun he => ?_⟩
    · rw [ht.slot.1] at hq
      cases hq
    · rw [he] at hq
      cases hq
  refine ⟨h.placed.quiet (hp.trans hc.symm) (fun i => (hnot hc i).2) fr rnr idle s.passed used lock hT,
    h.told.same h.placed rfl (fun i => (hnot hc i).1) (fun i => (hnot hp i).1) (fun _ _ => ⟨rfl, rfl⟩) rfl rfl rfl
      rfl, ?_⟩
  rcases hused with rfl | ⟨i, h₀, h₁, rfl⟩
  · exact h.indexed.same rfl rfl
  · exact h.indexed.use rfl rfl h₀ h₁

/-- The slots at the head and at the tail. -/
theorem index (h : Inv s) : s.rxHead.tmod rxSlots = s.rxHead % 64 ∧ s.rxTail.tmod rxSlots = s.rxTail % 64 :=
  ⟨tmod_slots (h.placed.tail_nonneg.trans h.placed.tail_le), tmod_slots h.placed.tail_nonneg⟩

/-- On the way to the loops. -/
theorem enter (h : Inv s) (hs : s.cpu c = some t)
    (hpc : s.pc c = .out ∨ s.pc c = .entered ∨ ∃ fr rnr, s.pc c = .acking fr rnr) : Inv t := by
  unfold State.cpu at hs
  rcases hpc with hpc | hpc | ⟨fr, rnr, hpc⟩ <;> rw [hpc] at hs
  · simp only [acquire] at hs
    split at hs
    case isFalse => cases hs
    case isTrue hl =>
      obtain rfl := Option.some.inj hs
      refine h.idle (by rw [hpc]; rfl) rfl _ _ _ _ _ (.inl rfl) ?_
      exact .go rfl (h.placed.others_free hl) (fun _ => rfl) nofun nofun nofun nofun
  · obtain rfl := Option.some.inj hs
    have hl : (s.pc c).Locks := by rw [hpc]; trivial
    refine h.idle (by rw [hpc]; rfl) rfl _ _ _ _ _ (.inl rfl) ?_
    exact .go rfl (h.placed.others hl) (fun _ => h.placed.locks c hl) nofun nofun nofun nofun
  · obtain rfl := Option.some.inj hs
    have hl : (s.pc c).Locks := by rw [hpc]; trivial
    cases fr
    · refine h.idle (by rw [hpc]; rfl) rfl _ _ _ _ _ (.inl rfl) ?_
      exact .go rfl (h.placed.others hl) (fun _ => h.placed.locks c hl) nofun nofun nofun nofun
    · refine h.idle (by rw [hpc]; rfl) rfl _ _ _ _ _ (.inl rfl) ?_
      exact .go rfl (h.placed.others hl) (fun _ => h.placed.locks c hl) nofun nofun nofun nofun

/-- The head of the first loop. -/
theorem loop (h : Inv s) (hA : s.Calm (.cpu c)) (hs : s.cpu c = some t) (hpc : s.pc c = .loop) : Inv t := by
  have hl : (s.pc c).Locks := by rw [hpc]; trivial
  simp only [Calm, CalmAt, hpc, h.index.1] at hA
  simp only [State.cpu, hpc, h.index.1] at hs
  obtain rfl := Option.some.inj hs
  split
  case isTrue hx =>
    obtain ⟨hfree, hmax⟩ := hA hx
    obtain ⟨hlt, hP⟩ := h.placed.claim hpc hx hfree hmax (s.rxHead % 64 :: s.used)
    have hnext : intSucc s.rxHead = s.rxHead + 1 := if_neg (by omega)
    rw [hnext]
    exact ⟨hP, h.told.claim h.placed hpc hlt _, h.indexed.use rfl rfl (by omega) (by omega)⟩
  case isFalse =>
    refine h.idle (by rw [hpc]; rfl) rfl _ _ _ _ _ (.inr ⟨s.rxHead % 64, by omega, by omega, rfl⟩) ?_
    exact .go rfl (h.placed.others hl) (fun _ => h.placed.locks c hl) nofun nofun nofun nofun

/-- Around the call of `net_rx`. -/
theorem call (h : Inv s) (hs : s.cpu c = some t)
    (hpc : s.pc c = .claimed i ∨ s.pc c = .unlocked i ∨ s.pc c = .returned i) : Inv t := by
  unfold State.cpu at hs
  rcases hpc with hpc | hpc | hpc <;> rw [hpc] at hs
  · have hl : (s.pc c).Locks := by rw [hpc]; trivial
    obtain rfl := Option.some.inj hs
    split
    case isTrue hok =>
      refine ⟨h.placed.quiet (by rw [hpc]; rfl) (by rw [hpc]; nofun) _ _ _ _ _ none ?_, h.told.unlock hpc hok,
        h.indexed.same rfl rfl⟩
      exact .go rfl (h.placed.others hl) nofun nofun nofun nofun nofun
    case isFalse hok =>
      refine ⟨h.placed.quiet (by rw [hpc]; rfl) (by rw [hpc]; nofun) _ _ _ _ _ _ ?_,
        h.told.skip hpc (by simpa using hok), h.indexed.same rfl rfl⟩
      exact .go rfl (h.placed.others hl) (fun _ => h.placed.locks c hl) nofun nofun nofun nofun
  · obtain rfl := Option.some.inj hs
    refine ⟨h.placed.quiet (by rw [hpc]; rfl) (by rw [hpc]; nofun) _ _ _ _ _ _ ?_, h.told.pass h.placed hpc,
      h.indexed.same rfl rfl⟩
    exact h.placed.away rfl id rfl rfl rfl rfl
  · simp only [acquire] at hs
    split at hs
    case isFalse => cases hs
    case isTrue hl =>
      obtain rfl := Option.some.inj hs
      have hT : Turns ({ s with lock := some c }.goto c (.locked i)) :=
        .go rfl (h.placed.others_free hl) (fun _ => rfl) nofun nofun nofun nofun
      refine ⟨h.placed.quiet (by rw [hpc]; rfl) (by rw [hpc]; nofun) _ _ _ _ _ _ hT,
        h.told.same h.placed rfl ?_ ?_ (fun _ _ => ⟨rfl, rfl⟩) rfl rfl rfl rfl, h.indexed.same rfl rfl⟩
      · rintro j (hj | hj) <;> rw [hpc] at hj <;> cases hj
      · rintro j (hj | hj) <;> cases hj

/-- A processed slot is made ready for the next frame. -/
theorem unclaim (h : Inv s) (hs : s.cpu c = some t)
    (hpc : s.pc c = .locked i ∨ s.pc c = .marked i ∨ s.pc c = .cleared i) : Inv t := by
  have hl : (s.pc c).Locks := by rcases hpc with hpc | hpc | hpc <;> rw [hpc] <;> trivial
  have hslot : (s.pc c).slot = some i := by rcases hpc with hpc | hpc | hpc <;> rw [hpc] <;> rfl
  have hnot : ∀ j, ¬(s.pc c).Takes j := by
    rintro j (hj | hj) <;> rcases hpc with hpc | hpc | hpc <;> rw [hpc] at hj <;> cases hj
  have hother : ∀ x p j, (s.pc c).slot ≠ some j → (((s.setSlot i x).goto c p).rx j).ok = (s.rx j).ok ∧
      (((s.setSlot i x).goto c p).rx j).frame = (s.rx j).frame := by
    intro x p j hj
    have hrx : ((s.setSlot i x).goto c p).rx j = s.rx j := by
      refine (setSlot_rx s i j x).trans (if_neg ?_)
      rintro rfl
      exact hj hslot
    rw [hrx]
    exact ⟨rfl, rfl⟩
  rcases hpc with hpc | hpc | hpc <;> simp only [State.cpu, hpc] at hs
  · have hx := h.placed.full c i hslot (by rw [hpc]; nofun)
    rw [if_pos hx] at hs
    obtain rfl := Option.some.inj hs
    refine ⟨h.placed.write hslot rfl rfl rfl id (fun _ => hx) ?_,
      h.told.same h.placed rfl hnot ?_ (hother _ _) rfl rfl rfl rfl, h.indexed.same rfl rfl⟩
    · refine .go rfl (h.placed.others hl) (fun _ => h.placed.locks c hl) ?_ nofun nofun nofun
      rintro j (hj | hj) <;> cases hj
      rw [show ((s.setSlot i _).goto c _).rx i = _ from setSlot_rx s i i _, if_pos rfl]
    · rintro j (hj | hj) <;> cases hj
  · have hsus := h.placed.marked c i (.inl hpc)
    obtain rfl := Option.some.inj hs
    refine ⟨h.placed.write hslot rfl rfl hsus nofun (fun hne => absurd rfl hne) ?_,
      h.told.same h.placed rfl hnot ?_ (hother _ _) rfl rfl rfl rfl, h.indexed.same rfl rfl⟩
    · refine .go rfl (h.placed.others hl) (fun _ => h.placed.locks c hl) ?_ ?_ nofun nofun
      · rintro j (hj | hj) <;> cases hj
        rw [show ((s.setSlot i _).goto c _).rx i = _ from setSlot_rx s i i _, if_pos rfl]
        exact hsus
      · rintro j hj
        cases hj
        rw [show ((s.setSlot i _).goto c _).rx i = _ from setSlot_rx s i i _, if_pos rfl]
    · rintro j (hj | hj) <;> cases hj
  · obtain rfl := Option.some.inj hs
    refine ⟨h.placed.leave hpc, h.told.same h.placed rfl hnot ?_ (hother _ _) rfl rfl rfl rfl, h.indexed.same rfl rfl⟩
    rintro j (hj | hj) <;> cases hj

/-- The second loop. -/
theorem second (h : Inv s) (hA : s.Calm (.cpu c)) (hs : s.cpu c = some t)
    (hpc : s.pc c = .tail ∨ s.pc c = .tailMove) : Inv t := by
  have hl : (s.pc c).Locks := by rcases hpc with hpc | hpc <;> rw [hpc] <;> trivial
  rcases hpc with hpc | hpc
  · simp only [State.cpu, hpc, h.index.2] at hs
    split at hs
    case isTrue hlt =>
      obtain rfl := Option.some.inj hs
      split
      case isTrue =>
        refine h.idle (by rw [hpc]; rfl) rfl _ _ _ _ _ (.inr ⟨s.rxTail % 64, by omega, by omega, rfl⟩) ?_
        exact .go rfl (h.placed.others hl) (fun _ => h.placed.locks c hl) nofun nofun nofun nofun
      case isFalse hx =>
        have hopen : (s.rx (s.rxTail % 64)).complete = false := by simpa using hx
        refine h.idle (by rw [hpc]; rfl) rfl _ _ _ _ _ (.inr ⟨s.rxTail % 64, by omega, by omega, rfl⟩) ?_
        exact .go rfl (h.placed.others hl) (fun _ => h.placed.locks c hl) nofun nofun (fun _ => ⟨hlt, hopen⟩) nofun
    case isFalse =>
      obtain rfl := Option.some.inj hs
      refine h.idle (by rw [hpc]; rfl) rfl _ _ _ _ _ (.inl rfl) ?_
      exact .go rfl (h.placed.others hl) (fun _ => h.placed.locks c hl) nofun nofun nofun nofun
  · obtain ⟨hlt, hopen⟩ := h.placed.tailMove c hpc
    have hx := h.placed.done _ le_rfl hlt hopen
    have hhead := h.placed.head_lt
    have hnext : intSucc s.rxTail = s.rxTail + 1 := if_neg (by omega)
    simp only [Calm, CalmAt, hpc] at hA
    simp only [State.cpu, hpc, h.index.2, hx, if_true, hnext] at hs
    obtain rfl := Option.some.inj hs
    refine ⟨h.placed.move hpc hx hA _, h.told.same h.placed rfl ?_ ?_ ?_ rfl rfl rfl rfl,
      h.indexed.move rfl rfl h.placed.tail_nonneg⟩
    · rintro j (hj | hj) <;> rw [hpc] at hj <;> cases hj
    · rintro j (hj | hj) <;> cases hj
    · intro j _
      change ((s.setSlot _ _).rx j).ok = _ ∧ ((s.setSlot _ _).rx j).frame = _
      rw [setSlot_rx]
      split
      next hj => rw [hj]; exact ⟨rfl, rfl⟩
      next => exact ⟨rfl, rfl⟩

/-- `e100_rx_start`. -/
theorem rxStart (h : Inv s) (hA : s.Calm (.cpu c)) (hs : s.cpu c = some t)
    (hpc : s.pc c = .start ∨ s.pc c = .command i) : Inv t := by
  have hl : (s.pc c).Locks := by rcases hpc with hpc | hpc <;> rw [hpc] <;> trivial
  rcases hpc with hpc | hpc
  · simp only [State.cpu, hpc, h.index.1] at hs
    obtain rfl := Option.some.inj hs
    split
    case isTrue =>
      refine h.idle (by rw [hpc]; rfl) rfl _ _ _ _ none (.inr ⟨s.rxHead % 64, by omega, by omega, rfl⟩) ?_
      exact .go rfl (h.placed.others hl) nofun nofun nofun nofun nofun
    case isFalse =>
      refine h.idle (by rw [hpc]; rfl) rfl _ _ _ _ _ (.inr ⟨s.rxHead % 64, by omega, by omega, rfl⟩) ?_
      refine .go rfl (h.placed.others hl) (fun _ => h.placed.locks c hl) nofun nofun nofun ?_
      rintro j hj
      cases hj
      rfl
  · simp only [Calm, CalmAt, hpc, h.index.1] at hA
    simp only [State.cpu, hpc] at hs
    obtain rfl := Option.some.inj hs
    have hhead := h.placed.head_le
    -- unless it is going, the card has got as far as the head
    have hcount : s.rxIdle = true ∨ s.running = false → s.count = s.rxHead ∧ s.count < s.rxTail + 64 := by
      intro hi
      obtain ⟨hopen, hlt⟩ := hA hi
      have hle : s.count ≤ s.rxHead := by
        by_contra hn
        have := (h.placed.waiting s.rxHead le_rfl (by omega)).1
        rw [hopen] at this
        cases this
      have : s.rxHead - s.rxTail < 64 := hlt
      omega
    have htold : ∀ n idle, Told ({ s with next := n, running := true, rxIdle := idle, lock := none }.goto c .out) := by
      intro n idle
      refine h.told.same h.placed rfl ?_ ?_ (fun _ _ => ⟨rfl, rfl⟩) rfl rfl rfl rfl
      · rintro j (hj | hj) <;> rw [hpc] at hj <;> cases hj
      · rintro j (hj | hj) <;> cases hj
    unfold release scbCmd
    split
    case isTrue hi =>
      obtain ⟨he, hgo⟩ := hcount (.inl hi)
      have hn : i = s.count % 64 := by
        rw [he]
        exact h.placed.command c i hpc
      exact ⟨h.placed.send hpc hgo hn false, htold i false, h.indexed.same rfl rfl⟩
    case isFalse hi =>
      have hgo : s.count < s.rxTail + 64 := by
        cases hr : s.running with
        | true => exact h.placed.going hr
        | false => exact (hcount (.inr hr)).2
      exact ⟨h.placed.send hpc hgo h.placed.next s.rxIdle, htold s.next s.rxIdle, h.indexed.same rfl rfl⟩

/-- **One step** keeps the invariant. -/
theorem step {e : Event C} (h : Inv s) (hA : s.Calm e) (hs : s.step e = some t) : Inv t := by
  cases e with
  | frame ok =>
    have hu : t.used = s.used ∧ t.rxTail = s.rxTail := by
      obtain ⟨hr, -⟩ := h.placed.receive hs
      simp only [State.step, complete, hr, if_true] at hs
      rw [← Option.some.inj hs]
      exact ⟨rfl, rfl⟩
    exact ⟨(h.placed.receive hs).2.2, h.told.receive h.placed hs, h.indexed.same hu.1 hu.2⟩
  | cpu c =>
    have hs : s.cpu c = some t := hs
    cases hpc : s.pc c with
    | out => exact h.enter hs (.inl hpc)
    | entered => exact h.enter hs (.inr (.inl hpc))
    | acking fr rnr => exact h.enter hs (.inr (.inr ⟨fr, rnr, hpc⟩))
    | loop => exact h.loop hA hs hpc
    | claimed i => exact h.call hs (.inl hpc)
    | unlocked i => exact h.call hs (.inr (.inl hpc))
    | returned i => exact h.call hs (.inr (.inr hpc))
    | locked i => exact h.unclaim hs (.inl hpc)
    | marked i => exact h.unclaim hs (.inr (.inl hpc))
    | cleared i => exact h.unclaim hs (.inr (.inr hpc))
    | tail => exact h.second hA hs (.inl hpc)
    | tailMove => exact h.second hA hs (.inr hpc)
    | start => exact h.rxStart (i := 0) hA hs (.inl hpc)
    | command i => exact h.rxStart hA hs (.inr hpc)
    | halted =>
      unfold State.cpu at hs
      rw [hpc] at hs
      cases hs

theorem of_reach (h : Reach Calm s) : Inv s := by
  induction h with
  | attach mem c => exact .attach mem c
  | step _ hA hs ih => exact ih.step hA hs

theorem ring (h : Inv s) : s.Ring := by
  have hle := h.placed.tail_le
  have hhead := h.placed.head_le
  have hcount := h.placed.count_le
  refine ⟨⟨hle, show s.rxHead ≤ s.rxTail + 64 by omega⟩, h.told.once, fun x hx => ?_, fun k hk => ?_, h.placed.distinct,
    fun c i hi hr => ?_, h.placed.failed, h.placed.locks⟩
  · obtain ⟨k, hk, he, -⟩ := h.told.only x hx
    exact ⟨k, hk, he⟩
  · rcases lt_or_ge k s.rxHead with hlt | hge
    · refine (h.told.kept k hk hlt).imp id ?_
      rintro ⟨c, ht, hf⟩
      exact ⟨h.placed.full c _ ht.slot.1 ht.slot.2, (h.told.taken c _ k ht hf).2.2 hk, hf, .inr ⟨c, ht⟩⟩
    · have hlt := h.told.known k hk
      obtain ⟨hx, hf⟩ := h.placed.waiting k hge hlt
      exact .inr ⟨hx, (h.told.waiting k hge hlt).2 hk, hf, .inl hge⟩
  · obtain ⟨k, hk₀, hk₁, rfl, -⟩ := h.placed.busy c i hi
    have := h.placed.going hr
    rw [h.placed.next]
    omega

theorem indices (h : Inv s) : s.Indices ↔ s.rxTail = 0 := by
  have h₀ := h.placed.tail_nonneg
  constructor
  · intro hi
    by_contra hne
    have := (hi _ (h.indexed.before.2 (by omega))).1
    omega
  · intro he i hi
    obtain ⟨h₁, h₂⟩ := h.indexed.bounds i hi
    have hne : i ≠ -1 := by
      rintro rfl
      have := h.indexed.before.1 hi
      omega
    exact ⟨by omega, h₂⟩

end Inv

end State

open State

variable {C : Type} [DecidableEq C]

/-- **The receive ring** is consistent in every run that does not come by a defect, but for the indices: these
are in bounds until the tail first moves. -/
theorem ring_consistent {s : State C} (h : Reach Calm s) : s.Ring ∧ (s.Indices ↔ s.rxTail = 0) :=
  ⟨(Inv.of_reach h).ring, (Inv.of_reach h).indices⟩

/-- What happens when one frame comes in: the start of the card, the frame, and an interrupt. -/
def oneFrame : List (Event Unit) :=
  [.cpu (), .cpu (), .frame true] ++ List.replicate 16 (.cpu ())

/-- One frame is received and passed on, and the tail moves. -/
theorem ring_consistent_sample : ∃ s : State Unit, s.passed = [some 0] ∧ s.rxTail = 1 ∧ s.Ring ∧
    (s.Indices ↔ s.rxTail = 0) := by
  obtain ⟨s, hs, hP⟩ := (Reach.attach (A := Calm) (fun _ => ⟨false, false, false, none⟩) ()).exists_run oneFrame
    (fun s => decide (s.passed = [some 0] ∧ s.rxTail = 1)) (by decide +kernel)
  obtain ⟨hpassed, htail⟩ := of_decide_eq_true hP
  exact ⟨s, hpassed, htail, ring_consistent hs⟩

/-- With the first frame the tail leaves 0, and `rx[-1]` is written. -/
theorem rx_before : ∃ s : State Unit, Reach (fun _ _ => True) s ∧ ¬(s.Ring ∧ s.Indices) := by
  obtain ⟨s, hs, hP⟩ := (Reach.attach (A := fun _ _ => True) (fun _ => ⟨false, false, false, none⟩) ()).exists_run
    oneFrame (fun s => decide (-1 ∈ s.used)) (by decide +kernel)
  refine ⟨s, hs, fun h => ?_⟩
  have := (h.2 _ (of_decide_eq_true hP)).1
  omega

end Determinator.E100
