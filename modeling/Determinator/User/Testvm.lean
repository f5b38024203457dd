import Determinator.Lib.Words
import Determinator.Pmap.Spaces

/-!
# Programs with threads

`pqsort`, `matmult` and the swaps of `mergecheck` in `user/testvm.c`. A process is its memory; the local variables are
on its stack, which a join leaves alone. A child starts with the memory of its parent, which is the snapshot too, and
nobody else changes its memory until it is joined.
-/

namespace Determinator

namespace Testvm

/-- `VM_STACKHI`. -/
def vmStackhi : ℕ := 0x7f0000000000

/-- `ALLSIZE - PTSIZE`: the highest `PTSIZE` bytes have the stack. -/
def joinSize : ℕ := vmStackhi - vmUserLo - pdSize 1

/-- `join(SYS_MERGE, ..)`, of a child that was forked with memory `m` and ended with `kid`, by a parent with memory `d`. -/
def join (m kid d : Space) : Space := Space.join vmUserLo joinSize m kid d

/-! ## Sorting -/

/-- The loop of `pqsort`. -/
def partition (pivot : BitVec 32) : ℕ → Space → ℕ → ℕ → Option (Space × ℕ × ℕ)
  | 0, _, _, _ => none
  | fuel + 1, m, l, h =>
    if l ≤ h then
      if (int32 m l).slt pivot then partition pivot fuel m (l + 4) h
      else if pivot.slt (int32 m h) then partition pivot fuel m l (h - 4)
      else partition pivot fuel (swap32 m h l) (l + 4) (h - 4)
    else some (m, l, h)

/-- `pqsort`. -/
def pqsort : ℕ → Space → ℕ → ℕ → Option Space
  | 0, _, _, _ => none
  | fuel + 1, m, lo, hi =>
    if hi ≤ lo then some m
    else do
      let (m, l, h) ← partition (int32 m lo) fuel m (lo + 4) hi
      let m := swap32 m lo (l - 4)
      let kid₀ ← pqsort fuel m lo (l - 8)
      let kid₁ ← pqsort fuel m (h + 4) hi
      some (join m kid₁ (join m kid₀ m))

/-! ## Multiplying matrices -/

/-- The address of an element of a matrix of 8 rows and columns. -/
def cell (a i j : ℕ) : ℕ := a + 4 * (8 * i + j)

/-- The sum that a child of `matmult` computes. -/
def dot (m : Space) (a b i j : ℕ) : BitVec 32 :=
  (List.range 8).foldl (fun sum k => sum + int32 m (cell a i k) * int32 m (cell b k j)) 0

/-- The memory of the child for an element. -/
def matmultKid (m : Space) (a b r i j : ℕ) : Space := setInt32 m (cell r i j) (dot m a b i j)

/-- `matmult`: all children are forked, and then all are joined. -/
def matmult (m : Space) (a b r : ℕ) : Space :=
  let kids := (List.range 8).flatMap fun i => (List.range 8).map fun j => matmultKid m a b r i j
  kids.foldl (fun d kid => join m kid d) m

/-! ## Swapping -/

/-- In `mergecheck`: one child assigns `y` to `x`, and the other one `x` to `y`. -/
def crossover (m : Space) (x y : ℕ) : Space :=
  join m (setInt32 m y (int32 m x)) (join m (setInt32 m x (int32 m y)) m)

end Testvm

end Determinator
