import Mathlib.Data.Int.ModEq
import Mathlib.Data.List.Nodup
import Mathlib.Tactic.Common

/-!
# The receive ring of the network card

`e100_intr`, `e100_intr_rx` and `e100_rx_start` of `dev/e100.c`, on any number of CPUs, and the card. A CPU
takes one step for each access to what the card or other CPUs can see, and holds `e100.lock` where the source
does; the card puts a frame into a descriptor at any time. Frames are numbered, and a descriptor remembers the
frame that is in its buffer.

`rx` is defined for all integers, since the code indexes it with what the remainder of C gives. Transmission is
left out.
-/

set_option linter.unusedSectionVars false

namespace Determinator.E100

/-- `E100_RX_SLOTS`. -/
def rxSlots : ℤ := 64

/-- `x + 1` for an `int`; a sum that is too large wraps around. -/
def intSucc (x : ℤ) : ℤ := if x = 2 ^ 31 - 1 then -2 ^ 31 else x + 1

/-- A receive slot. -/
structure Slot where
  /-- `E100_RFA_STATUS_C` is set in `status`. -/
  complete : Bool
  /-- `E100_RFA_STATUS_OK` is set in `status`. -/
  ok : Bool
  /-- `control` is `E100_RFA_CONTROL_S`, and not 0. -/
  suspend : Bool
  /-- The frame in `buf`, with its length in `actual`; nothing when `actual` is 0. -/
  frame : Option ℤ

/-- Where a CPU is. The number is its local variable `i`. -/
inductive Pc
  /-- Not in `e100_intr`. -/
  | out
  | entered
  /-- The bits `FR` and `RNR` of `SCB_STATACK` have been read. -/
  | acking (fr rnr : Bool)
  /-- At the first loop of `e100_intr_rx`. -/
  | loop
  /-- `rx_head` has been moved past the slot. -/
  | claimed (i : ℤ)
  /-- The lock is released; `net_rx` comes next. -/
  | unlocked (i : ℤ)
  | returned (i : ℤ)
  /-- The lock is held again. -/
  | locked (i : ℤ)
  /-- `control` is set. -/
  | marked (i : ℤ)
  /-- `status` is 0. -/
  | cleared (i : ℤ)
  /-- At the second loop. -/
  | tail
  /-- The slot at the tail was not complete. -/
  | tailMove
  /-- At `e100_rx_start`. -/
  | start
  /-- The slot was not complete; the command comes next. -/
  | command (i : ℤ)
  /-- In `panic`. -/
  | halted
  deriving DecidableEq

namespace Pc

/-- The slot that a CPU is processing. -/
def slot : Pc → Option ℤ
  | claimed i | unlocked i | returned i | locked i | marked i | cleared i => some i
  | _ => none

/-- The CPU has taken the frame of the slot, and `net_rx` is still to be called for it. -/
def Takes (p : Pc) (i : ℤ) : Prop := p = .claimed i ∨ p = .unlocked i

theorem Takes.slot {p : Pc} {i : ℤ} (h : p.Takes i) : p.slot = some i ∧ p ≠ .cleared i := by
  rcases h with rfl | rfl <;> exact ⟨rfl, nofun⟩

/-- A CPU here holds the lock. -/
def Locks : Pc → Prop
  | out | unlocked _ | returned _ => False
  | _ => True

end Pc

/-- The ring, the card and the CPUs. -/
structure State (C : Type) where
  rx : ℤ → Slot
  rxHead : ℤ
  rxTail : ℤ
  rxIdle : Bool
  /-- The card: the slot it is at, whether it receives, and the bits of `SCB_STATACK`. -/
  next : ℤ
  running : Bool
  fr : Bool
  rnr : Bool
  /-- The CPU that holds `e100.lock`. -/
  lock : Option C
  pc : C → Pc
  /-- Of the record of the run: how many frames the card has taken, which of them it has received okay, what
  `net_rx` was called for, the indices that `rx` was used with, and whether an assertion has failed. -/
  count : ℤ
  received : List ℤ
  passed : List (Option ℤ)
  used : List ℤ
  failed : Bool

namespace State

variable {C : Type} [DecidableEq C]

/-! ## Steps -/

/-- The CPU goes on at `p`. -/
def goto (s : State C) (c : C) (p : Pc) : State C := { s with pc := Function.update s.pc c p }

/-- `rx` is used with the index `i`. -/
def use (s : State C) (i : ℤ) : State C := { s with used := i :: s.used }

def setSlot (s : State C) (i : ℤ) (x : Slot) : State C := { s with rx := Function.update s.rx i x }

/-- `spinlock_acquire`, which waits until the lock is free. -/
def acquire (s : State C) (c : C) (p : Pc) : Option (State C) :=
  if s.lock = none then some ({ s with lock := some c }.goto c p) else none

/-- `spinlock_release`. -/
def release (s : State C) (c : C) (p : Pc) : State C := { s with lock := none }.goto c p

/-- A failed `assert`. -/
def fail (s : State C) (c : C) : State C := { s with failed := true }.goto c .halted

/-- `E100_SCB_COMMAND_RU_START` or `E100_SCB_COMMAND_RU_RESUME`. -/
def scbCmd (s : State C) (i : ℤ) : State C :=
  if s.rxIdle then { s with next := i, running := true, rxIdle := false } else { s with running := true }

/-- A step of a CPU. -/
def cpu (s : State C) (c : C) : Option (State C) :=
  match s.pc c with
  | .out => s.acquire c .entered
  | .entered => some (s.goto c (.acking s.fr s.rnr))
  | .acking fr rnr =>
    some ({ s with fr := s.fr && !fr, rnr := s.rnr && !rnr, rxIdle := s.rxIdle || rnr }.goto c
      (if fr then .loop else .start))
  | .loop =>
    let i := s.rxHead.tmod rxSlots
    some (if (s.rx i).complete then { s.use i with rxHead := intSucc s.rxHead }.goto c (.claimed i)
      else (s.use i).goto c .tail)
  | .claimed i => some (if (s.rx i).ok then s.release c (.unlocked i) else s.goto c (.locked i))
  | .unlocked i => some ({ s with passed := s.passed ++ [(s.rx i).frame] }.goto c (.returned i))
  | .returned i => s.acquire c (.locked i)
  | .locked i =>
    some (if (s.rx i).complete then (s.setSlot i { s.rx i with suspend := true }).goto c (.marked i)
      else s.fail c)
  | .marked i => some ((s.setSlot i { s.rx i with complete := false, ok := false }).goto c (.cleared i))
  | .cleared i => some ((s.setSlot i { s.rx i with frame := none }).goto c .loop)
  | .tail =>
    if s.rxTail < s.rxHead then
      let i := s.rxTail.tmod rxSlots
      some ((s.use i).goto c (if (s.rx i).complete then .start else .tailMove))
    else some (s.goto c .start)
  | .tailMove =>
    if (s.rx (s.rxTail.tmod rxSlots)).suspend then
      let i := (s.rxTail - 1).tmod rxSlots
      some ({ (s.use i).setSlot i { s.rx i with suspend := false } with rxTail := intSucc s.rxTail }.goto c .tail)
    else some (s.fail c)
  | .start =>
    let i := s.rxHead.tmod rxSlots
    some (if (s.rx i).complete then (s.use i).release c .out else (s.use i).goto c (.command i))
  | .command i => some ((s.scbCmd i).release c .out)
  | .halted => none

/-- The card puts a frame into the slot it is at, and suspends after it if the slot says so. -/
def complete (s : State C) (ok : Bool) : Option (State C) :=
  if s.running then
    let x := s.rx s.next
    some { s.setSlot s.next { x with complete := true, ok, frame := some s.count } with
      next := (s.next + 1) % rxSlots
      running := !x.suspend
      fr := true
      rnr := s.rnr || x.suspend
      count := s.count + 1
      received := if ok then s.count :: s.received else s.received }
  else none

/-- What happens. -/
inductive Event (C : Type)
  | cpu (c : C)
  | frame (ok : Bool)

def step (s : State C) : Event C → Option (State C)
  | .cpu c => s.cpu c
  | .frame ok => s.complete ok

/-- The end of `e100_attach`, at its `e100_rx_start`; `mem` is what is in memory around the ring. -/
def attach (mem : ℤ → Slot) (c : C) : State C where
  rx i := if 0 ≤ i ∧ i < rxSlots then ⟨false, false, i = rxSlots - 1, none⟩ else mem i
  rxHead := 0
  rxTail := 0
  rxIdle := true
  next := 0
  running := false
  fr := false
  rnr := false
  lock := some c
  pc := Function.update (fun _ => .out) c .start
  count := 0
  received := []
  passed := []
  used := []
  failed := false

/-- The states that the ring comes to when all steps are in `A`. -/
inductive Reach (A : State C → Event C → Prop) : State C → Prop
  | attach (mem : ℤ → Slot) (c : C) : Reach A (attach mem c)
  | step {s t : State C} {e : Event C} : Reach A s → A s e → s.step e = some t → Reach A t

/-! ## What is promised -/

/-- A frame is in its slot, and `net_rx` has not been called for it: the first loop has not come to it yet, or
a CPU has taken it. -/
def Waits (s : State C) (k : ℤ) : Prop :=
  (s.rx (k % rxSlots)).complete = true ∧ (s.rx (k % rxSlots)).ok = true ∧ (s.rx (k % rxSlots)).frame = some k ∧
    (s.rxHead ≤ k ∨ ∃ c, (s.pc c).Takes (k % rxSlots))

/-- The ring is consistent, but for the indices. -/
structure Ring (s : State C) : Prop where
  order : s.rxTail ≤ s.rxHead ∧ s.rxHead ≤ s.rxTail + rxSlots
  /-- `net_rx` is called once for each frame received okay, and for nothing else. -/
  once : s.passed.Nodup
  only : ∀ x ∈ s.passed, ∃ k ∈ s.received, x = some k
  kept : ∀ k ∈ s.received, some k ∈ s.passed ∨ s.Waits k
  /-- No slot is processed by two CPUs, or next for the card while it is processed. -/
  exclusive : ∀ c c' i, (s.pc c).slot = some i → (s.pc c').slot = some i → c = c'
  refill : ∀ c i, (s.pc c).slot = some i → s.running = true → s.next ≠ i
  /-- The assertions hold, and so do those that the lock is held. -/
  asserts : s.failed = false
  holding : ∀ c, (s.pc c).Locks → s.lock = some c

/-- The indices that `rx` has been used with are in its bounds. -/
def Indices (s : State C) : Prop := ∀ i ∈ s.used, 0 ≤ i ∧ i < rxSlots

/-- At `p` a CPU does not come by one of the defects: a slot is claimed while all slots are between tail and
head, or as the head overflows; the tail is moved while the slot before it is done and counts as one of these;
the card is sent to a slot that is complete, or when there is no slot left. -/
def CalmAt (s : State C) : Pc → Prop
  | .loop => (s.rx (s.rxHead.tmod rxSlots)).complete = true →
      s.rxHead - s.rxTail < rxSlots ∧ s.rxHead < 2 ^ 31 - 1
  | .tailMove => s.rxHead - s.rxTail = rxSlots → 0 < s.rxTail →
      (s.rx ((s.rxTail - 1).tmod rxSlots)).complete = true
  | .command _ => s.rxIdle = true ∨ s.running = false →
      (s.rx (s.rxHead.tmod rxSlots)).complete = false ∧ s.rxHead - s.rxTail < rxSlots
  | _ => True

/-- The steps that do not come by one of the defects. -/
def Calm (s : State C) : Event C → Prop
  | .cpu c => s.CalmAt (s.pc c)
  | .frame _ => True

instance (s : State C) : DecidablePred s.CalmAt
  | .loop | .tailMove | .command _ => inferInstanceAs (Decidable (_ → _))
  | .out | .entered | .acking _ _ | .claimed _ | .unlocked _ | .returned _ | .locked _ | .marked _ | .cleared _
  | .tail | .start | .halted => inferInstanceAs (Decidable True)

instance (s : State C) : DecidablePred s.Calm
  | .cpu c => inferInstanceAs (Decidable (s.CalmAt (s.pc c)))
  | .frame _ => inferInstanceAs (Decidable True)

/-- What a list of events leads to, if each of them is possible and in `A`. -/
def run (A : State C → Event C → Prop) [∀ s, DecidablePred (A s)] (s : State C) : List (Event C) → Option (State C)
  | [] => some s
  | e :: es => if A s e then (s.step e).bind fun t => run A t es else none

theorem Reach.run {A : State C → Event C → Prop} [∀ s, DecidablePred (A s)] {s t : State C} {es : List (Event C)}
    (h : Reach A s) (hrun : s.run A es = some t) : Reach A t := by
  induction es generalizing s with
  | nil =>
    cases hrun
    exact h
  | cons e es ih =>
    rw [State.run] at hrun
    split at hrun
    case isFalse => cases hrun
    case isTrue hA =>
      obtain ⟨u, hu, hrun⟩ := Option.bind_eq_some_iff.1 hrun
      exact ih (h.step hA hu) hrun

theorem Reach.exists_run {A : State C → Event C → Prop} [∀ s, DecidablePred (A s)] {s : State C} (h : Reach A s)
    (es : List (Event C)) (P : State C → Bool) (hP : (s.run A es).any P = true) : ∃ t, Reach A t ∧ P t = true := by
  cases hrun : s.run A es with
  | none =>
    rw [hrun] at hP
    cases hP
  | some t =>
    rw [hrun] at hP
    exact ⟨t, h.run hrun, hP⟩

end State

end Determinator.E100
