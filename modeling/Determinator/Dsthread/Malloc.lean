import Mathlib.Algebra.Group.Nat.Defs
import Mathlib.Data.List.Basic
import Mathlib.Data.Fintype.Basic
import Mathlib.Logic.Function.Basic
import Mathlib.Tactic.Common

/-!
# The heap of the deterministic-scheduling library

`malloc` and `calloc` of `lib/dsthread.c`: each thread has a part of the heap of its own and a break
in it that goes up. A block is eight bytes of header and what was asked for, rounded up; what is
stored in it (the size, the zeros of `calloc`) is not modelled.

The addresses are computed in 64 bits, and so is the product in `calloc`. A call that returns gives
a block of its own if and only if neither wraps (`Call.Fits`): otherwise the block is shorter than
what was asked for, and the break has gone down below blocks that are in use.
-/

namespace Determinator.Dsthread.Heap

/-! ## The layout -/

/-- The conversion of an `int` to a pointer. `VM_SHAREHI` is a sum of two `int`s that is one above
the greatest of them; `sx` says whether the compiler extends its sign or takes it for the sum. -/
def ptrOf (sx : Bool) (i : BitVec 32) : ℕ := if sx then (i.signExtend 64).toNat else i.toNat

def vmSharelo : BitVec 32 := 0x40000000
def vmSharehi : BitVec 32 := vmSharelo + 0x40000000

/-- `HEAPSIZE`: half of the shared area. -/
def heapsize : BitVec 32 := (vmSharehi - vmSharelo).sdiv 2

def heaplo : BitVec 32 := vmSharehi - heapsize

/-- `THEAPSIZE`, with `MAXTHREADS` parts. -/
def theapsize : BitVec 32 := heapsize.sdiv 16

def theaplo (tno : Fin 16) : BitVec 32 := heaplo + .ofNat 32 tno * theapsize
def theaphi (tno : Fin 16) : BitVec 32 := heaplo + .ofNat 32 tno * theapsize + theapsize

def pageSize : ℕ := 4096

/-- `ROUNDUP`. -/
def roundup (a n : ℕ) : ℕ :=
  let a := (a + n - 1) % 2 ^ 64
  a - a % n

/-! ## `malloc` and `calloc` -/

/-- The breaks of the threads, zero for a thread that has not allocated yet. -/
abbrev Brk := Fin 16 → ℕ

variable (sx : Bool) (end_ : BitVec 64)

/-- Where the heap of a thread begins: thread 0 gets an extra large one. -/
def first (tno : Fin 16) : ℕ := if 0 < tno then ptrOf sx (theaplo tno) else end_.toNat

/-- Where the next block of a thread begins. -/
def start (brk : Brk) (tno : Fin 16) : ℕ := if brk tno = 0 then first sx end_ tno else brk tno

/-- `malloc`, called by a thread; nothing where an assertion fails or it panics. -/
def malloc (brk : Brk) (tno : Fin 16) (size : BitVec 64) : Option (ℕ × Brk) :=
  let ptr := start sx end_ brk tno
  if brk tno = 0 ∧ ¬ roundup ptr pageSize < ptrOf sx (theaphi tno) then none
  else if ¬ end_.toNat ≤ ptr then none
  else if ¬ (ptr + size.toNat) % 2 ^ 64 ≤ ptrOf sx vmSharehi then none
  else
    let nbrk := roundup (ptr + 8 + size.toNat) 8
    -- "malloc: thread %d can't alloc chunk of size %d"
    if ptrOf sx (theaphi tno) < nbrk then none
    else some ((ptr + 8) % 2 ^ 64, Function.update brk tno nbrk)

/-- `calloc`. -/
def calloc (brk : Brk) (tno : Fin 16) (nelt eltsize : BitVec 64) : Option (ℕ × Brk) :=
  malloc sx end_ brk tno (nelt * eltsize)

/-! ## Runs -/

/-- A call, with the thread that makes it. -/
inductive Call
  | malloc (tno : Fin 16) (size : BitVec 64)
  | calloc (tno : Fin 16) (nelt eltsize : BitVec 64)

namespace Call

def tno : Call → Fin 16
  | malloc tno _ => tno
  | calloc tno _ _ => tno

/-- The bytes the caller asks for. -/
def req : Call → ℕ
  | malloc _ size => size.toNat
  | calloc _ nelt eltsize => nelt.toNat * eltsize.toNat

def exec (brk : Brk) : Call → Option (ℕ × Brk)
  | malloc tno size => Heap.malloc sx end_ brk tno size
  | calloc tno nelt eltsize => Heap.calloc sx end_ brk tno nelt eltsize

/-- What is asked for ends below `2 ^ 64`: the block, and for `calloc` the product with it. -/
def Fits (brk : Brk) (c : Call) : Prop := start sx end_ brk c.tno + c.req < 2 ^ 64

end Call

/-- A block that was returned: the thread, the pointer it was given, where the next block of the
thread was to begin, and what it had asked for. -/
structure Block where
  tno : Fin 16
  ptr : ℕ
  stop : ℕ
  req : ℕ
  deriving DecidableEq

/-- The breaks, and the blocks returned so far. -/
structure State where
  brk : Brk
  blocks : List Block

/-- Before any call. -/
def State.init : State := ⟨fun _ => 0, []⟩

/-- A call: one that panics leaves everything as it is. -/
def State.step (s : State) (c : Call) : State :=
  match c.exec sx end_ s.brk with
  | none => s
  | some (ptr, brk) => ⟨brk, ⟨c.tno, ptr, brk c.tno, c.req⟩ :: s.blocks⟩

def State.run (s : State) : List Call → State
  | [] => s
  | c :: cs => State.run (s.step sx end_ c) cs

/-- Every call of a run that returns asks for something that fits. -/
def State.AllFit (s : State) : List Call → Prop
  | [] => True
  | c :: cs => (c.exec sx end_ s.brk ≠ none → c.Fits sx end_ s.brk) ∧
    State.AllFit (s.step sx end_ c) cs

/-- A block with its header lies in the heap of its thread and has room for what was asked for. -/
structure Block.Good (b : Block) : Prop where
  lo : first sx end_ b.tno + 8 ≤ b.ptr
  room : b.ptr + b.req ≤ b.stop
  hi : b.stop ≤ ptrOf sx (theaphi b.tno)

/-- Two blocks have no byte in common, their headers included. -/
def Block.Apart (b c : Block) : Prop := b.stop + 8 ≤ c.ptr ∨ c.stop + 8 ≤ b.ptr

instance (b c : Block) : Decidable (b.Apart c) := inferInstanceAs (Decidable (_ ∨ _))

/-- What a heap promises. -/
structure State.Good (s : State) : Prop where
  good : ∀ b ∈ s.blocks, b.Good sx end_
  apart : s.blocks.Pairwise Block.Apart

/-! ## The parts of the heap -/

variable {sx end_}

theorem theaplo_eq (tno : Fin 16) :
    ptrOf sx (theaplo tno) = 0x60000000 + tno * 0x2000000 := by
  revert sx tno
  decide

/-- The heap of a thread ends where that of the next one begins. -/
theorem theaphi_eq {tno : Fin 16} (h : tno.val < 15) :
    ptrOf sx (theaphi tno) = 0x60000000 + (tno + 1) * 0x2000000 := by
  revert sx tno
  decide

theorem theaphi_le (tno : Fin 16) : ptrOf sx (theaphi tno) ≤ ptrOf sx vmSharehi := by
  revert sx tno
  decide

theorem vmSharehi_le : ptrOf sx vmSharehi ≤ 0xffffffff80000000 := by
  revert sx
  decide

/-- Below the heap of a thread are those of the threads before it. -/
theorem theaphi_le_first {t u : Fin 16} (h : t < u) :
    ptrOf sx (theaphi t) ≤ first sx end_ u := by
  have hu : 0 < u := lt_of_le_of_lt (Fin.zero_le t) h
  rw [first, if_pos hu, theaplo_eq, theaphi_eq (by omega)]
  have : (t : ℕ) + 1 ≤ u := h
  omega

theorem le_roundup {a : ℕ} (h : a + 7 < 2 ^ 64) : a ≤ roundup a 8 := by
  rw [roundup, Nat.mod_eq_of_lt (by omega)]
  omega

/-! ## One call -/

/-- What `malloc` has found when it returns, and what it returns. -/
theorem malloc_some {brk brk' : Brk} {tno : Fin 16} {size : BitVec 64} {ptr : ℕ}
    (h : malloc sx end_ brk tno size = some (ptr, brk')) :
    (start sx end_ brk tno + size.toNat) % 2 ^ 64 ≤ ptrOf sx vmSharehi ∧
      roundup (start sx end_ brk tno + 8 + size.toNat) 8 ≤ ptrOf sx (theaphi tno) ∧
      ptr = (start sx end_ brk tno + 8) % 2 ^ 64 ∧
      brk' = Function.update brk tno (roundup (start sx end_ brk tno + 8 + size.toNat) 8) := by
  simp only [malloc] at h
  split_ifs at h with h1 h2 h3 h4
  obtain ⟨rfl, rfl⟩ : _ ∧ _ := by simpa only [Option.some.injEq, Prod.mk.injEq] using h
  exact ⟨h3, Nat.not_lt.1 h4, rfl, rfl⟩

namespace Call

/-- What `malloc` is called with. -/
def size : Call → BitVec 64
  | malloc _ size => size
  | calloc _ nelt eltsize => nelt * eltsize

theorem exec_eq (c : Call) (brk : Brk) : c.exec sx end_ brk = Heap.malloc sx end_ brk c.tno c.size := by
  cases c <;> rfl

/-- The product of `calloc` wraps. -/
theorem size_toNat (c : Call) : c.size.toNat = c.req % 2 ^ 64 := by
  cases c with
  | malloc tno size => exact (Nat.mod_eq_of_lt size.isLt).symm
  | calloc tno nelt eltsize => exact BitVec.toNat_mul ..

end Call

/-- The block a call gives when it returns. -/
def Call.block (c : Call) (ptr : ℕ) (brk : Brk) : Block := ⟨c.tno, ptr, brk c.tno, c.req⟩

theorem State.step_none {s : State} {c : Call} (h : c.exec sx end_ s.brk = none) :
    s.step sx end_ c = s := by
  rw [State.step, h]

theorem State.step_some {s : State} {c : Call} {ptr : ℕ} {brk : Brk}
    (h : c.exec sx end_ s.brk = some (ptr, brk)) :
    s.step sx end_ c = ⟨brk, c.block ptr brk :: s.blocks⟩ := by
  rw [State.step, h]
  rfl

variable (sx end_) in
/-- The breaks lie in the heaps of their threads, above all blocks. -/
structure State.Inv (s : State) : Prop extends s.Good sx end_ where
  brk : ∀ tno, s.brk tno ≠ 0 →
    first sx end_ tno ≤ s.brk tno ∧ s.brk tno ≤ ptrOf sx (theaphi tno)
  below : ∀ b ∈ s.blocks, b.stop ≤ s.brk b.tno

/-- A call whose request fits gives a block at the break of its thread, with room for it. -/
theorem exec_fits {brk brk' : Brk} {c : Call} {ptr : ℕ}
    (h : c.exec sx end_ brk = some (ptr, brk')) (hf : c.Fits sx end_ brk) :
    ptr = start sx end_ brk c.tno + 8 ∧ ptr + c.req ≤ brk' c.tno ∧
      brk' c.tno ≤ ptrOf sx (theaphi c.tno) ∧ ∀ t ≠ c.tno, brk' t = brk t := by
  rw [Call.exec_eq] at h
  obtain ⟨hs, hn, rfl, rfl⟩ := malloc_some h
  rw [Call.Fits] at hf
  have hz : c.size.toNat = c.req := by rw [Call.size_toNat, Nat.mod_eq_of_lt (by omega)]
  rw [hz] at hs hn ⊢
  rw [Nat.mod_eq_of_lt hf] at hs
  have hhi : ptrOf sx vmSharehi ≤ 0xffffffff80000000 := vmSharehi_le
  have hr := le_roundup (a := start sx end_ brk c.tno + 8 + c.req) (by omega)
  rw [Function.update_self]
  refine ⟨Nat.mod_eq_of_lt (by omega), ?_, hn, fun t ht => Function.update_of_ne ht _ _⟩
  rw [Nat.mod_eq_of_lt (by omega)]
  exact hr

/-- A call whose request does not fit gives a block that is too short or in a wrong place. -/
theorem exec_not_fits {brk brk' : Brk} {c : Call} {ptr : ℕ}
    (h : c.exec sx end_ brk = some (ptr, brk')) (hf : ¬ c.Fits sx end_ brk)
    (hb : start sx end_ brk c.tno < 2 ^ 64) : ¬ (c.block ptr brk').Good sx end_ := by
  rintro ⟨hlo, hroom, hhi⟩
  rw [Call.exec_eq] at h
  obtain ⟨-, -, rfl, rfl⟩ := malloc_some h
  have hle : ptrOf sx (theaphi c.tno) ≤ 0xffffffff80000000 := (theaphi_le c.tno).trans vmSharehi_le
  simp only [Call.block] at hlo hroom hhi
  rw [Call.Fits] at hf
  -- a pointer that has not wrapped is so high that what is asked for ends beyond `2 ^ 64`
  rcases Nat.lt_or_ge (start sx end_ brk c.tno + 8) (2 ^ 64) with h8 | h8
  · rw [Nat.mod_eq_of_lt h8] at hroom
    omega
  · omega

/-! ## The invariant -/

theorem State.Inv.start_le {s : State} (h : s.Inv sx end_) (tno : Fin 16) :
    first sx end_ tno ≤ start sx end_ s.brk tno := by
  rw [start]
  split_ifs with h0
  · exact le_refl _
  · exact (h.brk tno h0).1

theorem State.Inv.start_lt {s : State} (h : s.Inv sx end_) (tno : Fin 16) :
    start sx end_ s.brk tno < 2 ^ 64 := by
  rw [start]
  split_ifs with h0
  · rw [first]
    split_ifs
    · rw [theaplo_eq]
      omega
    · exact end_.isLt
  · have := (h.brk tno h0).2
    have : ptrOf sx (theaphi tno) ≤ 0xffffffff80000000 := (theaphi_le tno).trans vmSharehi_le
    omega

/-- A block is apart from those that were returned before it. -/
theorem State.Inv.apart_new {s : State} (h : s.Inv sx end_) {c : Call} {ptr : ℕ}
    {brk : Brk} (he : c.exec sx end_ s.brk = some (ptr, brk)) (hf : c.Fits sx end_ s.brk)
    {b : Block} (hb : b ∈ s.blocks) : (c.block ptr brk).Apart b := by
  obtain ⟨hp, hroom, hhi, -⟩ := exec_fits he hf
  have hg := h.good b hb
  have hlo := hg.lo
  have hsl := h.start_le c.tno
  rcases lt_trichotomy c.tno b.tno with hlt | heq | hgt
  · left
    have : ptrOf sx (theaphi c.tno) ≤ first sx end_ b.tno := theaphi_le_first hlt
    simp only [Call.block]
    omega
  · right
    have hbe := h.below b hb
    have hr := hg.room
    rw [← heq] at hbe
    rw [start, if_neg (by omega)] at hp
    simp only [Call.block]
    omega
  · right
    have : ptrOf sx (theaphi b.tno) ≤ first sx end_ c.tno := theaphi_le_first hgt
    have hbh := hg.hi
    simp only [Call.block]
    omega

theorem State.Inv.init : State.init.Inv sx end_ where
  good _ hb := nomatch hb
  apart := .nil
  brk _ h := absurd rfl h
  below _ hb := nomatch hb

/-- A call whose request fits keeps the invariant. -/
theorem State.Inv.step {s : State} (h : s.Inv sx end_) {c : Call} {ptr : ℕ} {brk : Brk}
    (he : c.exec sx end_ s.brk = some (ptr, brk)) (hf : c.Fits sx end_ s.brk) :
    (s.step sx end_ c).Inv sx end_ := by
  obtain ⟨hp, hroom, hhi, hother⟩ := exec_fits he hf
  have hsl := h.start_le c.tno
  rw [State.step_some he]
  have hnew : (c.block ptr brk).Good sx end_ := by
    refine ⟨?_, hroom, hhi⟩
    simp only [Call.block]
    omega
  constructor
  · constructor
    · intro b hb
      rcases List.mem_cons.1 hb with rfl | hb
      · exact hnew
      · exact h.good b hb
    · exact List.pairwise_cons.2 ⟨fun b hb => h.apart_new he hf hb, h.apart⟩
  · intro tno h0
    change first sx end_ tno ≤ brk tno ∧ brk tno ≤ ptrOf sx (theaphi tno)
    rcases eq_or_ne tno c.tno with rfl | hne
    · exact ⟨by omega, hhi⟩
    · rw [hother tno hne]
      exact h.brk tno (hother tno hne ▸ h0)
  · intro b hb
    rcases List.mem_cons.1 hb with rfl | hb
    · exact le_refl _
    · have hbe := h.below b hb
      rcases eq_or_ne b.tno c.tno with heq | hne
      · have hg := h.good b hb
        have := hg.lo
        have := hg.room
        rw [heq] at hbe ⊢
        rw [Heap.start, if_neg (by omega)] at hp
        simp only
        omega
      · simp only [hother _ hne, hbe]

/-! ## Whole runs -/

/-- Blocks stay. -/
theorem mem_run {s : State} {cs : List Call} {b : Block} (hb : b ∈ s.blocks) :
    b ∈ (s.run sx end_ cs).blocks := by
  induction cs generalizing s with
  | nil => exact hb
  | cons c cs ih =>
    apply ih
    cases he : c.exec sx end_ s.brk with
    | none => rwa [State.step_none he]
    | some r =>
      rw [State.step_some he]
      exact List.mem_cons_of_mem _ hb

/-- From a state with the invariant on, a run gives good blocks if and only if all of its requests
fit. -/
theorem State.Inv.run_iff {s : State} (h : s.Inv sx end_) (cs : List Call) :
    (s.run sx end_ cs).Good sx end_ ↔ s.AllFit sx end_ cs := by
  induction cs generalizing s with
  | nil => exact ⟨fun _ => trivial, fun _ => h.toGood⟩
  | cons c cs ih =>
    rw [State.run, State.AllFit]
    cases he : c.exec sx end_ s.brk with
    | none =>
      rw [State.step_none he, ih h]
      exact ⟨fun hr => ⟨fun hn => absurd rfl hn, hr⟩, fun hr => hr.2⟩
    | some r =>
      by_cases hf : c.Fits sx end_ s.brk
      · rw [ih (h.step he hf)]
        exact ⟨fun hr => ⟨fun _ => hf, hr⟩, fun hr => hr.2⟩
      · constructor
        · intro hg
          refine absurd (hg.good (c.block r.1 r.2) ?_) (exec_not_fits he hf (h.start_lt _))
          apply mem_run
          rw [State.step_some he]
          exact List.mem_cons_self
        · intro hr
          exact absurd (hr.1 (Option.some_ne_none r)) hf

/-- Whatever the threads call in whatever order, the blocks they are given lie in the heaps of their
threads, have room for what was asked for and share no byte, if and only if every call that returns
asks for something that ends below `2 ^ 64`. -/
theorem heap_good_iff (sx : Bool) (end_ : BitVec 64) (cs : List Call) :
    (State.init.run sx end_ cs).Good sx end_ ↔ State.init.AllFit sx end_ cs :=
  State.Inv.init.run_iff cs

/-- Three threads allocate, and all they ask for fits. -/
example : (State.init.run true 0x40010000
    [.malloc 0 100, .malloc 1 5, .calloc 0 3 7, .malloc 15 0x1000000]).blocks =
    [⟨15, 0x7e000008, 0x7f000008, 0x1000000⟩, ⟨0, 0x40010078, 0x40010090, 21⟩,
      ⟨1, 0x62000008, 0x62000010, 5⟩, ⟨0, 0x40010008, 0x40010070, 100⟩] := by
  decide

/-- After a block of 16 bytes, one of `2 ^ 64 - 32`: the break goes down, and the next block lies on
the first. -/
theorem heap_overlap :
    (State.init.run true 0x40010000
      [.malloc 1 16, .malloc 1 0xffffffffffffffe0, .malloc 1 8]).blocks =
      [⟨1, 0x62000008, 0x62000010, 8⟩, ⟨1, 0x62000020, 0x62000000, 0xffffffffffffffe0⟩,
        ⟨1, 0x62000008, 0x62000018, 16⟩] ∧
    ¬ Block.Apart ⟨1, 0x62000008, 0x62000010, 8⟩ ⟨1, 0x62000008, 0x62000018, 16⟩ := by
  decide

end Determinator.Dsthread.Heap
