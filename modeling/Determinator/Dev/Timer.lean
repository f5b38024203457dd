import Determinator.Inc.Trap

/-!
# The clock

`timer_read` extends the 16-bit counter of the 8253, which counts down from 65535 to 1 and then
reloads, to 64 bits; `do_time` converts the ticks to nanoseconds and hands them over in two
registers, which `sys_time` puts together again.

The count itself is exact as long as it is read once in every 65534 ticks (`Soon`). The conversion
multiplies before it divides, in 64 bits: it is exact for the tick counts whose product with
`1000000000` is below `2 ^ 64`, which is a little over four hours, and for no others.
-/

namespace Determinator.Timer

/-! ## The 8253 -/

/-- The counter, a number of ticks after it was loaded. -/
def counter (n : ℕ) : BitVec 16 := .ofNat 16 (65535 - n % 65535)

/-- The two bytes a latched counter is read in, the low one first. -/
def latched (ctr : BitVec 16) : BitVec 8 × BitVec 8 :=
  (ctr.extractLsb' 0 8, ctr.extractLsb' 8 8)

theorem counter_toNat (n : ℕ) : (counter n).toNat = 65535 - n % 65535 := by
  have h : n % 65535 < 65535 := Nat.mod_lt _ (by omega)
  simp only [counter, BitVec.toNat_ofNat]
  omega

/-! ## `timer.c` -/

/-- The static variables of `timer.c`. -/
structure State where
  base : BitVec 64
  last : BitVec 16

namespace State

/-- The variables at boot. -/
def init : State := ⟨0, 0⟩

/-- `timer_read`, with the two bytes the port gives: the ticks. The assertion fails on a counter
that reads zero. -/
def timerRead (s : State) (lo hi : BitVec 8) : Option (BitVec 64 × State) :=
  let ctr : BitVec 16 := hi.setWidth 16 <<< 8 ||| lo.setWidth 16
  if ctr = 0 then none
  else
    -- If the counter has wrapped, assume we're into the next tick.
    let base := if s.last < ctr then s.base + 65535 else s.base
    some (base + .ofNat 64 (65535 - ctr.toNat), ⟨base, ctr⟩)

/-- `timer_read` after these numbers of ticks, one call after another. -/
def reads (s : State) : List ℕ → Option (List (BitVec 64))
  | [] => some []
  | n :: ns => do
    let (t, s) ← s.timerRead (latched (counter n)).1 (latched (counter n)).2
    let ts ← s.reads ns
    return t :: ts

end State

/-! ## `do_time` and `sys_time` -/

/-- `TIMER_FREQ`. -/
def timerFreq : ℕ := 1193182

/-- `do_time`: the tick count `timer_read` has given, in nanoseconds. -/
def doTime (tf : Trapframe) (t : BitVec 64) : Trapframe :=
  let t := t * 1000000000 / .ofNat 64 timerFreq
  (tf.setRdx (t >>> 32)).setRax t

/-- `sys_time`, with the registers after the system call. -/
def sysTime (tf : Trapframe) : BitVec 64 :=
  let hi : BitVec 32 := tf.rdx.setWidth 32
  let lo : BitVec 32 := tf.rax.setWidth 32
  hi.setWidth 64 <<< 32 ||| lo.setWidth 64

/-! ## The count -/

/-- The bytes of a latched counter make up the counter. -/
theorem latched_eq (ctr : BitVec 16) :
    (latched ctr).2.setWidth 16 <<< 8 ||| (latched ctr).1.setWidth 16 = ctr := by
  apply BitVec.eq_of_getLsbD_eq
  intro i hi
  rcases Nat.lt_or_ge i 8 with h | h
  · simp [latched, h, hi]
  · have : i - 8 < 8 := by omega
    simp [latched, hi, this, Nat.not_lt.2 h, Nat.add_sub_cancel' h]

/-- The counter is never zero, so that `timer_read` returns. -/
theorem timerRead_counter (s : State) (n : ℕ) :
    s.timerRead (latched (counter n)).1 (latched (counter n)).2 =
      let base := if s.last < counter n then s.base + 65535 else s.base
      some (base + .ofNat 64 (65535 - (counter n).toNat), ⟨base, counter n⟩) := by
  have h : counter n ≠ 0 := by
    intro he
    have h0 := congrArg BitVec.toNat he
    have h1 : n % 65535 < 65535 := Nat.mod_lt _ (by omega)
    rw [counter_toNat] at h0
    simp only [BitVec.ofNat_eq_ofNat, BitVec.toNat_ofNat] at h0
    omega
  simp only [State.timerRead, latched_eq, if_neg h]

/-- The variables after a read, where `c` is what the count is ahead of the ticks. -/
structure State.At (s : State) (c : BitVec 64) (n : ℕ) : Prop where
  base : s.base = c + .ofNat 64 (65535 * (n / 65535))
  last : s.last = counter n

/-- A read follows soon enough on the one before it. -/
def Soon (m n : ℕ) : Prop := m ≤ n ∧ n ≤ m + 65534

instance (m n : ℕ) : Decidable (Soon m n) := inferInstanceAs (Decidable (_ ∧ _))

/-- The counter is above the last one exactly when it has wrapped in between. -/
theorem counter_lt_iff {m n : ℕ} (h : Soon m n) :
    counter m < counter n ↔ n / 65535 = m / 65535 + 1 := by
  obtain ⟨hmn, hnm⟩ := h
  have hm : m % 65535 < 65535 := Nat.mod_lt _ (by omega)
  have hn : n % 65535 < 65535 := Nat.mod_lt _ (by omega)
  rw [BitVec.lt_def, counter_toNat, counter_toNat]
  omega

/-- The part of the count below a wrap comes from the counter. -/
theorem base_add (c : BitVec 64) (n : ℕ) :
    c + .ofNat 64 (65535 * (n / 65535)) + .ofNat 64 (65535 - (counter n).toNat) =
      c + .ofNat 64 n := by
  have h : n % 65535 < 65535 := Nat.mod_lt _ (by omega)
  rw [BitVec.add_assoc, ← BitVec.ofNat_add, counter_toNat]
  congr 2
  omega

/-- A read that follows soon enough gives the ticks that have passed. -/
theorem State.At.timerRead {s : State} {c : BitVec 64} {m n : ℕ} (h : s.At c m) (hn : Soon m n) :
    ∃ s', s.timerRead (latched (counter n)).1 (latched (counter n)).2 =
      some (c + .ofNat 64 n, s') ∧ s'.At c n := by
  have hb : (if s.last < counter n then s.base + 65535 else s.base) =
      c + .ofNat 64 (65535 * (n / 65535)) := by
    rw [h.last, h.base]
    by_cases hw : counter m < counter n
    · have hq := (counter_lt_iff hn).1 hw
      rw [if_pos hw, hq, Nat.mul_add, BitVec.ofNat_add, BitVec.add_assoc]
      rfl
    · have hq : n / 65535 = m / 65535 := by
        have h1 : ¬ n / 65535 = m / 65535 + 1 := fun hq => hw ((counter_lt_iff hn).2 hq)
        obtain ⟨hmn, hnm⟩ := hn
        omega
      rw [if_neg hw, hq]
  refine ⟨⟨c + .ofNat 64 (65535 * (n / 65535)), counter n⟩, ?_, rfl, rfl⟩
  rw [timerRead_counter]
  simp only [hb, base_add]

/-- The first read takes the counter for wrapped, whatever it is. -/
theorem timerRead_first (n : ℕ) :
    ∃ c s, State.init.timerRead (latched (counter n)).1 (latched (counter n)).2 =
      some (c + .ofNat 64 n, s) ∧ s.At c n := by
  have h : State.init.last < counter n := by
    have h1 : n % 65535 < 65535 := Nat.mod_lt _ (by omega)
    rw [BitVec.lt_def, counter_toNat]
    simp only [State.init, BitVec.ofNat_eq_ofNat, BitVec.toNat_ofNat]
    omega
  have hb : (65535 : BitVec 64) =
      65535 - .ofNat 64 (65535 * (n / 65535)) + .ofNat 64 (65535 * (n / 65535)) :=
    (BitVec.sub_add_cancel _ _).symm
  have hs : State.At ⟨65535, counter n⟩ (65535 - .ofNat 64 (65535 * (n / 65535))) n := by
    constructor
    · exact hb
    · simp only
  refine ⟨_, _, ?_, hs⟩
  rw [← base_add, ← hb, timerRead_counter, if_pos h]
  simp only [State.init, BitVec.ofNat_eq_ofNat, BitVec.zero_add]

/-- Reads that each follow soon enough on the one before give the ticks that have passed, up to one
number for all of them. -/
theorem State.At.reads {s : State} {c : BitVec 64} {m : ℕ} {ns : List ℕ} (h : s.At c m)
    (hs : (m :: ns).IsChain Soon) :
    s.reads ns = some (ns.map fun n => c + .ofNat 64 n) := by
  induction ns generalizing s m with
  | nil => rfl
  | cons n ns ih =>
    obtain ⟨hn, hs⟩ := List.isChain_cons_cons.1 hs
    obtain ⟨s', hr, h'⟩ := h.timerRead hn
    rw [State.reads, hr]
    simp only [Option.bind_eq_bind, Option.bind_some, ih h' hs, Option.pure_def, List.map_cons]

theorem reads_init {ns : List ℕ} (hs : ns.IsChain Soon) :
    ∃ c : BitVec 64, State.init.reads ns = some (ns.map fun n => c + .ofNat 64 n) := by
  cases ns with
  | nil => exact ⟨0, rfl⟩
  | cons n ns =>
    obtain ⟨c, s, hr, h⟩ := timerRead_first n
    refine ⟨c, ?_⟩
    rw [State.reads, hr]
    simp only [Option.bind_eq_bind, Option.bind_some, h.reads hs, Option.pure_def, List.map_cons]

/-! ## The conversion -/

/-- The two halves make up the word again. -/
theorem halves (r : BitVec 64) :
    ((r >>> 32).setWidth 32).setWidth 64 <<< 32 ||| (r.setWidth 32).setWidth 64 = r := by
  apply BitVec.eq_of_getLsbD_eq
  intro i hi
  rcases Nat.lt_or_ge i 32 with h | h
  · simp [h, hi]
  · have : i - 32 < 32 := by omega
    simp [hi, this, Nat.not_lt.2 h, Nat.add_sub_cancel' h]

theorem sysTime_doTime (tf : Trapframe) (t : BitVec 64) :
    sysTime (doTime tf t) = t * 1000000000 / .ofNat 64 timerFreq := by
  simp only [sysTime, doTime, Trapframe.setRax, Trapframe.setRdx, Trapframe.rdx, Trapframe.rax,
    Function.update_self, Function.update_of_ne (show (15 : Fin 26) ≠ 18 by decide), halves]

theorem sysTime_toNat (tf : Trapframe) (t : BitVec 64) :
    (sysTime (doTime tf t)).toNat = t.toNat * 1000000000 % 2 ^ 64 / timerFreq := by
  rw [sysTime_doTime, BitVec.toNat_udiv, BitVec.toNat_mul]
  rfl

/-- The conversion is exact for the products that 64 bits hold, and for no others. -/
theorem sysTime_exact_iff (tf : Trapframe) (t : BitVec 64) :
    (sysTime (doTime tf t)).toNat = t.toNat * 1000000000 / timerFreq ↔
      t.toNat * 1000000000 < 2 ^ 64 := by
  rw [sysTime_toNat]
  simp only [timerFreq]
  omega

/-- While the conversion is exact, time does not go back from one read to a later one. -/
theorem sysTime_mono (tf : Trapframe) {t u : BitVec 64} (h : t.toNat ≤ u.toNat)
    (hu : u.toNat * 1000000000 < 2 ^ 64) :
    (sysTime (doTime tf t)).toNat ≤ (sysTime (doTime tf u)).toNat := by
  have hm : t.toNat * 1000000000 ≤ u.toNat * 1000000000 := Nat.mul_le_mul_right _ h
  rw [(sysTime_exact_iff tf u).2 hu, (sysTime_exact_iff tf t).2 (lt_of_le_of_lt hm hu)]
  exact Nat.div_le_div_right hm

/-- The times of a run of reads do not go back while the conversion is exact at all of them. -/
theorem sysTime_chain (tf : Trapframe) (c : BitVec 64) {ns : List ℕ} (hs : ns.IsChain Soon)
    (he : ∀ n ∈ ns, (c + BitVec.ofNat 64 n).toNat * 1000000000 < 2 ^ 64) :
    (ns.map fun n => (sysTime (doTime tf (c + BitVec.ofNat 64 n))).toNat).IsChain (· ≤ ·) := by
  induction ns with
  | nil => exact List.isChain_nil
  | cons m ns ih =>
    cases ns with
    | nil => exact List.isChain_singleton _
    | cons n ns =>
      obtain ⟨hn, hs⟩ := List.isChain_cons_cons.1 hs
      refine List.isChain_cons_cons.2 ⟨?_, ih hs fun k hk => he k (.tail _ hk)⟩
      have hm := he m (.head _)
      apply sysTime_mono tf _ (he n (.tail _ (.head _)))
      -- the later count does not wrap: the earlier one is far below `2 ^ 64`
      obtain ⟨d, rfl⟩ := Nat.exists_eq_add_of_le hn.1
      have hd : d ≤ 65534 := by have := hn.2; omega
      rw [BitVec.ofNat_add, ← BitVec.add_assoc, BitVec.toNat_add (c + _), BitVec.toNat_ofNat]
      omega

/-! ## Runs -/

/-- Over a run of reads each soon enough after the one before, the results differ by the ticks in
between; a tick count is converted exactly if and only if its product with `1000000000` is below
`2 ^ 64`, and time does not go back while that is so. -/
theorem clock_exact (tf : Trapframe) (ns : List ℕ) (hs : ns.IsChain Soon) :
    (∃ ts, State.init.reads ns = some ts ∧ ts.length = ns.length ∧
      (ts.zip ns).Pairwise (fun p q => q.1 - p.1 = .ofNat 64 (q.2 - p.2)) ∧
      ((∀ t ∈ ts, t.toNat * 1000000000 < 2 ^ 64) →
        (ts.map fun t => (sysTime (doTime tf t)).toNat).Pairwise (· ≤ ·))) ∧
      ∀ t : BitVec 64, (sysTime (doTime tf t)).toNat = t.toNat * 1000000000 / timerFreq ↔
        t.toNat * 1000000000 < 2 ^ 64 := by
  obtain ⟨c, hr⟩ := reads_init hs
  refine ⟨⟨_, hr, List.length_map _, ?_, ?_⟩, sysTime_exact_iff tf⟩
  · have hle : ns.Pairwise (· ≤ ·) := (hs.imp fun _ _ h => h.1).pairwise
    rw [← List.map_id'' (fun _ => rfl) ns, List.map_map, List.zip_map', List.pairwise_map]
    apply hle.imp
    intro m n hmn
    obtain ⟨d, rfl⟩ := Nat.exists_eq_add_of_le hmn
    simp only [Function.comp_apply, Nat.add_sub_cancel_left, BitVec.ofNat_add]
    rw [← BitVec.add_assoc, BitVec.add_comm (c + _), BitVec.add_sub_cancel]
  · intro he
    rw [List.map_map]
    exact (sysTime_chain tf c hs fun n hn => he _ (List.mem_map_of_mem hn)).pairwise

/-- Three reads, the second after the counter has wrapped. -/
theorem clock_exact_wrapped :
    ∃ ts, State.init.reads [10, 65540, 65541] = some ts ∧ ts.length = 3 :=
  (clock_exact (fun _ => 0) [10, 65540, 65541]
    (.cons_cons (by decide) (.cons_cons (by decide) (.singleton _)))).1.imp fun _ h => ⟨h.1, h.2.1⟩

/-- A little over four hours after boot, time goes back to the beginning. -/
theorem clock_wraps :
    (sysTime (doTime (fun _ => 0) 18446744073)).toNat = 15460126010114 ∧
      (sysTime (doTime (fun _ => 0) 18446744074)).toNat = 243 ∧
      18446744074 < 2 ^ 44 ∧ 18446744074 * 1000000000 / timerFreq = 15460126010952 := by
  refine ⟨?_, ?_, by decide, by decide⟩ <;> rw [sysTime_toNat] <;> decide

end Determinator.Timer
