import Mathlib.Algebra.Group.Nat.Defs
import Mathlib.Data.Nat.Init
import Mathlib.Tactic.Common

/-!
# Memory as bytes

A memory is a function from addresses to bytes. A word of `n` bytes is stored with its least
significant byte first (`store`, `load`), a block of bytes is copied (`copy`), and the members of a C
structure lie one behind the other, each at the next multiple of its alignment (`Layout`).
-/

namespace Determinator

/-- A memory. -/
abbrev Bytes := ℕ → UInt8

/-- Byte `i` of a number, the least significant one first. -/
def leByte (v i : ℕ) : UInt8 := UInt8.ofNat (v / 256 ^ i)

namespace Bytes

variable {m m' src : Bytes} {a b d i k n o v x : ℕ}

/-- Store the lowest `n` bytes of `v` at `a`. -/
def store (n : ℕ) (m : Bytes) (a v : ℕ) : Bytes :=
  fun x => if a ≤ x ∧ x < a + n then leByte v (x - a) else m x

/-- The word of `n` bytes at `a`. -/
def load : ℕ → Bytes → ℕ → ℕ
  | 0, _, _ => 0
  | n + 1, m, a => (m a).toNat + 256 * load n m (a + 1)

/-- Copy `n` bytes from `src + o` to `d`. -/
def copy (m : Bytes) (d : ℕ) (src : Bytes) (o n : ℕ) : Bytes :=
  fun x => if d ≤ x ∧ x < d + n then src (o + (x - d)) else m x

theorem store_in (h : i < n) : store n m a v (a + i) = leByte v i := by
  rw [store, if_pos ⟨by omega, by omega⟩, Nat.add_sub_cancel_left]

theorem store_out (h : x < a ∨ a + n ≤ x) : store n m a v x = m x :=
  if_neg (by omega)

theorem copy_in (h : i < n) : copy m d src o n (d + i) = src (o + i) := by
  rw [copy, if_pos ⟨by omega, by omega⟩, Nat.add_sub_cancel_left]

theorem copy_out (h : x < d ∨ d + n ≤ x) : copy m d src o n x = m x :=
  if_neg (by omega)

theorem load_congr (h : ∀ i < n, m (a + i) = m' (b + i)) : load n m a = load n m' b := by
  induction n generalizing a b with
  | zero => rfl
  | succ n ih =>
    have h0 : m a = m' b := h 0 n.succ_pos
    have ht : load n m (a + 1) = load n m' (b + 1) := by
      apply ih
      intro i hi
      rw [Nat.add_right_comm, Nat.add_assoc a, Nat.add_right_comm, Nat.add_assoc b]
      exact h (i + 1) (by omega)
    rw [load, load, h0, ht]

/-- A word of zeros. -/
theorem load_zero (h : ∀ i < n, m (a + i) = 0) : load n m a = 0 := by
  induction n generalizing a with
  | zero => rfl
  | succ n ih =>
    have h0 : m a = 0 := h 0 n.succ_pos
    have ht : load n m (a + 1) = 0 := by
      apply ih
      intro i hi
      rw [Nat.add_right_comm, Nat.add_assoc]
      exact h (i + 1) (by omega)
    rw [load, h0, ht]
    rfl

theorem load_lt (n : ℕ) (m : Bytes) (a : ℕ) : load n m a < 256 ^ n := by
  induction n generalizing a with
  | zero => exact Nat.one_pos
  | succ n ih =>
    have h := ih (a + 1)
    have hb := (m a).toNat_lt
    rw [load, Nat.pow_succ]
    omega

/-- What is stored is loaded. -/
theorem load_store (n : ℕ) (m : Bytes) (a v : ℕ) : load n (store n m a v) a = v % 256 ^ n := by
  induction n generalizing m a v with
  | zero => exact (Nat.mod_one v).symm
  | succ n ih =>
    have h0 : store (n + 1) m a v a = leByte v 0 := by
      have h := store_in (m := m) (a := a) (v := v) n.succ_pos
      rwa [Nat.add_zero] at h
    have ht : load n (store (n + 1) m a v) (a + 1) = v / 256 % 256 ^ n := by
      rw [← ih m (a + 1) (v / 256)]
      apply load_congr
      intro i hi
      rw [store_in hi, Nat.add_assoc, Nat.add_comm 1, store_in (by omega), leByte, leByte,
        Nat.div_div_eq_div_mul, ← Nat.pow_succ']
    have hb : (leByte v 0).toNat = v % 256 := by
      rw [leByte, Nat.pow_zero, Nat.div_one]
      exact UInt8.toNat_ofNat'
    rw [load, h0, ht, hb, Nat.pow_succ', Nat.mod_mul]

theorem load_store_of_lt (h : v < 256 ^ n) : load n (store n m a v) a = v := by
  rw [load_store, Nat.mod_eq_of_lt h]

/-- A store elsewhere is not seen. -/
theorem load_store_ne (h : b + k ≤ a ∨ a + n ≤ b) : load k (store n m a v) b = load k m b := by
  apply load_congr
  intro i hi
  exact store_out (by omega)

end Bytes

/-! ## Structures -/

/-- A member of a structure. -/
structure Member where
  size : ℕ
  align : ℕ

/-- The next multiple of `a` from `n` on. -/
def alignUp (n a : ℕ) : ℕ := (n + a - 1) / a * a

namespace Layout

/-- Where the members lie, from `ofs` on, and where the last one ends. -/
def offsets : ℕ → List Member → List ℕ
  | ofs, [] => [ofs]
  | ofs, f :: fs => alignUp ofs f.align :: offsets (alignUp ofs f.align + f.size) fs

/-- The alignment of a structure. -/
def align (fs : List Member) : ℕ := fs.foldr (fun f a => max f.align a) 1

/-- `sizeof`. -/
def size (fs : List Member) : ℕ := alignUp ((offsets 0 fs).getLastD 0) (align fs)

/-- A member that is itself a structure. -/
def member (fs : List Member) : Member := ⟨size fs, align fs⟩

/-- `offsetof`, of the member at index `i`. -/
def offset (fs : List Member) (i : ℕ) : ℕ := (offsets 0 fs).getD i 0

end Layout

end Determinator
