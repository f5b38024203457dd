import Mathlib.Tactic.Ring

/-!
# String instructions

A machine with a memory of bytes at 64-bit addresses and the direction flag, and its instructions
`rep movs` and `rep stos` for elements of `w` bytes. An element is read as a whole before it is written;
then the addresses move on by `w`, downwards if the direction flag is set.

`moved` and `filled` say what a block move and a fill do at once. Upwards, a move is exact if the destination
does not begin within the source (`repMovs_up`), and downwards, if the source does not begin within the
destination (`repMovs_down`).
-/

namespace Determinator

/-- Addresses, and the registers that hold them. -/
abbrev Addr := BitVec 64

/-- The part of a machine that string instructions work on. -/
structure StringMachine where
  mem : Addr → BitVec 8
  /-- The direction flag. -/
  df : Bool

namespace StringMachine

/-- `cld`. -/
def cld (m : StringMachine) : StringMachine := { m with df := false }

/-- `std`. -/
def std (m : StringMachine) : StringMachine := { m with df := true }

/-- The address of the next element. -/
def next (m : StringMachine) (w : ℕ) (a : Addr) : Addr := if m.df then a - .ofNat 64 w else a + .ofNat 64 w

/-- `movs`, for elements of `w` bytes. -/
def movs (w : ℕ) (rdi rsi : Addr) (m : StringMachine) : StringMachine :=
  { m with mem := fun x => if (x - rdi).toNat < w then m.mem (rsi + (x - rdi)) else m.mem x }

/-- `rep movs`, with the count in `rcx`. -/
def repMovs (w : ℕ) : ℕ → Addr → Addr → StringMachine → StringMachine
  | 0, _, _, m => m
  | rcx + 1, rdi, rsi, m => repMovs w rcx (m.next w rdi) (m.next w rsi) (m.movs w rdi rsi)

/-- `stos`: the `w` lowest bytes of `eax`. -/
def stos (w : ℕ) (rdi : Addr) (eax : BitVec 32) (m : StringMachine) : StringMachine :=
  { m with mem := fun x => if (x - rdi).toNat < w then (eax >>> (8 * (x - rdi).toNat)).setWidth 8 else m.mem x }

/-- `rep stos`. -/
def repStos (w : ℕ) : ℕ → Addr → BitVec 32 → StringMachine → StringMachine
  | 0, _, _, m => m
  | rcx + 1, rdi, eax, m => repStos w rcx (m.next w rdi) eax (m.stos w rdi eax)

/-- The memory with the `n` bytes from `s` on also at `d`. -/
def moved (d s : Addr) (n : ℕ) (mem : Addr → BitVec 8) (x : Addr) : BitVec 8 :=
  if (x - d).toNat < n then mem (s + (x - d)) else mem x

/-- The memory with `n` bytes `c` from `d` on. -/
def filled (d : Addr) (n : ℕ) (c : BitVec 8) (mem : Addr → BitVec 8) (x : Addr) : BitVec 8 :=
  if (x - d).toNat < n then c else mem x

variable {m : StringMachine} {mem : Addr → BitVec 8} {c : BitVec 8} {d s x : Addr} {k n w : ℕ}

/-! ## Blocks -/

/-- The addresses of a block that does not wrap around. -/
theorem mem_block (h : d.toNat + n ≤ 2 ^ 64) :
    (x - d).toNat < n ↔ d.toNat ≤ x.toNat ∧ x.toNat < d.toNat + n := by
  rw [BitVec.toNat_sub]
  omega

/-- What is left of a block behind its first `w` bytes. -/
theorem sub_toNat_lt {o : Addr} (h : w + n ≤ 2 ^ 64) :
    (o - .ofNat 64 w).toNat < n ↔ w ≤ o.toNat ∧ o.toNat < w + n := by
  rw [BitVec.toNat_sub, BitVec.toNat_ofNat]
  have := o.isLt
  omega

theorem moved_zero : moved d s 0 mem = mem := by
  funext x
  exact if_neg (Nat.not_lt_zero _)

theorem filled_zero : filled d 0 c mem = mem := by
  funext x
  exact if_neg (Nat.not_lt_zero _)

/-- A block in two parts, the first part first: it does not overwrite what is left of the source. -/
theorem moved_moved (hn : w + n ≤ 2 ^ 64) (h : d = s ∨ w + n ≤ (d - s).toNat) :
    moved (d + .ofNat 64 w) (s + .ofNat 64 w) n (moved d s w mem) = moved d s (w + n) mem := by
  funext x
  have hd : x - (d + .ofNat 64 w) = x - d - .ofNat 64 w := by grind
  have hs : s + .ofNat 64 w + (x - d - .ofNat 64 w) = s + (x - d) := by grind
  simp only [moved, hd, hs, sub_toNat_lt hn]
  by_cases hw : (x - d).toNat < w
  · rw [if_neg (by omega), if_pos hw, if_pos (by omega)]
  by_cases hx : (x - d).toNat < w + n
  · -- the byte comes from the rest of the source
    rw [if_pos ⟨by omega, hx⟩, if_neg, if_pos hx]
    rw [show s + (x - d) - d = x - d - (d - s) by grind, BitVec.toNat_sub (x - d)]
    obtain rfl | h := h
    · simp only [BitVec.sub_self, BitVec.toNat_zero]
      have := (x - d).isLt
      omega
    · have := (d - s).isLt
      omega
  · rw [if_neg (by omega), if_neg hw, if_neg hx]

/-- A block in two parts, the last part first: it does not overwrite what is left of the source. -/
theorem moved_moved_rev (hn : n + w ≤ 2 ^ 64) (h : d = s ∨ n + w ≤ (s - d).toNat) :
    moved d s n (moved (d + .ofNat 64 n) (s + .ofNat 64 n) w mem) = moved d s (n + w) mem := by
  funext x
  have hd : x - (d + .ofNat 64 n) = x - d - .ofNat 64 n := by grind
  have hs : s + .ofNat 64 n + (x - d - .ofNat 64 n) = s + (x - d) := by grind
  simp only [moved, hd, hs, sub_toNat_lt hn]
  by_cases hx : (x - d).toNat < n
  · -- the byte comes from the rest of the source
    rw [if_pos hx, if_neg, if_pos (by omega)]
    rw [show s + (x - d) - (d + .ofNat 64 n) = (x - d) + (s - d) - .ofNat 64 n by grind, sub_toNat_lt hn,
      BitVec.toNat_add (x - d)]
    obtain rfl | h := h
    · simp only [BitVec.sub_self, BitVec.toNat_zero]
      omega
    · have := (s - d).isLt
      omega
  · by_cases hw : (x - d).toNat < n + w
    · rw [if_neg hx, if_pos ⟨by omega, hw⟩, if_pos hw]
    · rw [if_neg hx, if_neg (by omega), if_neg hw]

/-- A fill in two parts. -/
theorem filled_filled (hn : w + n ≤ 2 ^ 64) :
    filled (d + .ofNat 64 w) n c (filled d w c mem) = filled d (w + n) c mem := by
  funext x
  have hd : x - (d + .ofNat 64 w) = x - d - .ofNat 64 w := by grind
  simp only [filled, hd, sub_toNat_lt hn]
  grind

/-! ## The instructions -/

theorem next_up (h : m.df = false) (a : Addr) : m.next w a = a + .ofNat 64 w := by
  rw [next, h]
  rfl

theorem next_down (h : m.df = true) (a : Addr) : m.next w a = a - .ofNat 64 w := by
  rw [next, h]
  rfl

@[simp] theorem movs_mem (rdi rsi : Addr) : (m.movs w rdi rsi).mem = moved rdi rsi w m.mem := rfl

@[simp] theorem movs_df (rdi rsi : Addr) : (m.movs w rdi rsi).df = m.df := rfl

@[simp] theorem stos_df (rdi : Addr) (eax : BitVec 32) : (m.stos w rdi eax).df = m.df := rfl

/-- Upwards, a move is exact if the destination does not begin within the source. -/
theorem repMovs_up (hw : w * k = n) (hdf : m.df = false) (hn : n ≤ 2 ^ 64) (h : d = s ∨ n ≤ (d - s).toNat) :
    repMovs w k d s m = { m with mem := moved d s n m.mem } := by
  induction k generalizing d s m n with
  | zero => rw [repMovs, ← hw, Nat.mul_zero, moved_zero]
  | succ k ih =>
    rw [Nat.mul_succ, Nat.add_comm] at hw
    subst hw
    rw [repMovs, next_up hdf, next_up hdf, ih rfl, movs_mem, moved_moved hn h]
    · rfl
    · exact hdf
    · omega
    · obtain rfl | h := h
      · exact .inl rfl
      · rw [show d + .ofNat 64 w - (s + .ofNat 64 w) = d - s by grind]
        exact .inr (by omega)

/-- Downwards, a move is exact if the source does not begin within the destination. -/
theorem repMovs_down (hw : w * k = n) (hdf : m.df = true) (hn : n ≤ 2 ^ 64) (h : d = s ∨ n ≤ (s - d).toNat) :
    repMovs w k (d + .ofNat 64 n - .ofNat 64 w) (s + .ofNat 64 n - .ofNat 64 w) m =
      { m with mem := moved d s n m.mem } := by
  induction k generalizing m n with
  | zero => rw [repMovs, ← hw, Nat.mul_zero, moved_zero]
  | succ k ih =>
    rw [Nat.mul_succ] at hw
    subst hw
    have hl (a : Addr) : a + .ofNat 64 (w * k + w) - .ofNat 64 w = a + .ofNat 64 (w * k) := by
      rw [BitVec.ofNat_add]
      grind
    rw [hl, hl, repMovs, next_down hdf, next_down hdf, ih rfl, movs_mem, moved_moved_rev hn h]
    · rfl
    · exact hdf
    · omega
    · exact h.imp id fun h => by omega

/-- A fill with an element whose bytes are all the same. -/
theorem repStos_eq {eax : BitVec 32} (hw : w * k = n) (hdf : m.df = false) (hn : n ≤ 2 ^ 64)
    (hc : ∀ i < w, (eax >>> (8 * i)).setWidth 8 = c) :
    repStos w k d eax m = { m with mem := filled d n c m.mem } := by
  have hs (d : Addr) (m : StringMachine) : (m.stos w d eax).mem = filled d w c m.mem := by
    funext x
    simp only [stos, filled]
    split
    · exact hc _ ‹_›
    · rfl
  induction k generalizing d m n with
  | zero => rw [repStos, ← hw, Nat.mul_zero, filled_zero]
  | succ k ih =>
    rw [Nat.mul_succ, Nat.add_comm] at hw
    subst hw
    rw [repStos, next_up hdf, ih rfl, hs, filled_filled hn]
    · rfl
    · exact hdf
    · omega

end StringMachine

end Determinator
