import Mathlib.Data.List.Perm.Basic
import Mathlib.Data.List.Nodup
import Mathlib.Data.List.Range
import Mathlib.Logic.Equiv.Basic

/-!
# Words in a memory

A memory of bytes as an array of words of 32 bits, the least significant byte first: loads and stores, and the numbers
that the words from an address on stand for. An exchange of two of them is a permutation of the array.
-/

namespace Determinator

variable {m m' : ℕ → BitVec 8} {a b c i j k n p q va : ℕ} {v : BitVec 32}

/-- The word at an address. -/
def int32 (m : ℕ → BitVec 8) (a : ℕ) : BitVec 32 := m (a + 3) ++ m (a + 2) ++ m (a + 1) ++ m a

/-- Store a word. -/
def setInt32 (m : ℕ → BitVec 8) (a : ℕ) (v : BitVec 32) : ℕ → BitVec 8 := fun x =>
  if a ≤ x ∧ x < a + 4 then v.extractLsb' (8 * (x - a)) 8 else m x

/-- Exchange two words. -/
def swap32 (m : ℕ → BitVec 8) (a b : ℕ) : ℕ → BitVec 8 := setInt32 (setInt32 m a (int32 m b)) b (int32 m a)

theorem int32_congr (h : ∀ x, a ≤ x → x < a + 4 → m x = m' x) : int32 m a = int32 m' a := by
  unfold int32
  rw [h (a + 3) (by omega) (by omega), h (a + 2) (by omega) (by omega), h (a + 1) (by omega) (by omega),
    h a (by omega) (by omega)]

theorem setInt32_out (h : c < a ∨ a + 4 ≤ c) : setInt32 m a v c = m c := if_neg (by omega)

theorem setInt32_in (h : k < 4) : setInt32 m a v (a + k) = v.extractLsb' (8 * k) 8 := by
  rw [setInt32, if_pos ⟨by omega, by omega⟩, Nat.add_sub_cancel_left]

/-- What is stored is loaded. -/
@[simp] theorem int32_setInt32 : int32 (setInt32 m a v) a = v := by
  have hk : ∀ k < 4, setInt32 m a v (a + k) = v.extractLsb' (8 * k) 8 := fun k => setInt32_in
  have h₀ : setInt32 m a v a = v.extractLsb' 0 8 := hk 0 (by decide)
  unfold int32
  rw [hk 3 (by decide), hk 2 (by decide), hk 1 (by decide), h₀]
  have h₁ : v.extractLsb' 24 8 ++ v.extractLsb' 16 8 = v.extractLsb' 16 16 :=
    BitVec.extractLsb'_append_extractLsb'_eq_extractLsb' rfl
  have h₂ : v.extractLsb' 16 16 ++ v.extractLsb' 8 8 = v.extractLsb' 8 24 :=
    BitVec.extractLsb'_append_extractLsb'_eq_extractLsb' rfl
  have h₃ : v.extractLsb' 8 24 ++ v.extractLsb' 0 8 = v.extractLsb' 0 32 :=
    BitVec.extractLsb'_append_extractLsb'_eq_extractLsb' rfl
  rw [h₁, h₂, h₃, BitVec.extractLsb'_eq_self]

/-- A store elsewhere is not seen. -/
theorem int32_setInt32_ne (h : b + 4 ≤ a ∨ a + 4 ≤ b) : int32 (setInt32 m a v) b = int32 m b :=
  int32_congr fun _ _ _ => setInt32_out (by omega)

theorem swap32_out (h : c < a ∨ a + 4 ≤ c) (h' : c < b ∨ b + 4 ≤ c) : swap32 m a b c = m c := by
  unfold swap32
  rw [setInt32_out h', setInt32_out h]

/-! ## Arrays -/

/-- The word at an index. -/
def at32 (m : ℕ → BitVec 8) (va k : ℕ) : ℤ := (int32 m (va + 4 * k)).toInt

/-- The numbers in an array. -/
def ints (m : ℕ → BitVec 8) (va n : ℕ) : List ℤ := (List.range n).map (at32 m va)

theorem at32_congr (h : ∀ x, va + 4 * k ≤ x → x < va + 4 * k + 4 → m x = m' x) : at32 m va k = at32 m' va k := by
  unfold at32
  rw [int32_congr h]

theorem at32_add : at32 m (va + 4 * p) k = at32 m va (p + k) := by
  unfold at32
  rw [Nat.mul_add, Nat.add_assoc]

theorem mem_ints {x : ℤ} : x ∈ ints m va n ↔ ∃ k < n, at32 m va k = x := by
  simp [ints]

theorem ints_add : ints m va (p + q) = ints m va p ++ ints m (va + 4 * p) q := by
  unfold ints
  rw [List.range_add, List.map_append, List.map_map]
  congr 1
  exact List.map_congr_left fun k _ => at32_add.symm

theorem ints_congr (h : ∀ x, va ≤ x → x < va + 4 * n → m x = m' x) : ints m va n = ints m' va n := by
  refine List.map_congr_left fun k hk => at32_congr fun x h₁ h₂ => h x (by omega) ?_
  have := List.mem_range.1 hk
  omega

/-- An exchange of two words of an array. -/
theorem at32_swap32 (i j k : ℕ) : at32 (swap32 m (va + 4 * i) (va + 4 * j)) va k = at32 m va (Equiv.swap i j k) := by
  unfold at32 swap32
  congr 1
  by_cases hj : k = j
  · rw [hj, int32_setInt32, Equiv.swap_apply_right]
  · rw [int32_setInt32_ne (by omega)]
    by_cases hi : k = i
    · rw [hi, int32_setInt32, Equiv.swap_apply_left]
    · rw [int32_setInt32_ne (by omega), Equiv.swap_apply_of_ne_of_ne hi hj]

theorem ints_swap32 (hi : i < n) (hj : j < n) : (ints (swap32 m (va + 4 * i) (va + 4 * j)) va n).Perm (ints m va n) := by
  have hmap : ints (swap32 m (va + 4 * i) (va + 4 * j)) va n = ((List.range n).map (Equiv.swap i j)).map (at32 m va) := by
    unfold ints
    rw [List.map_map]
    exact List.map_congr_left fun k _ => at32_swap32 i j k
  rw [hmap]
  have hnodup : ((List.range n).map (Equiv.swap i j)).Nodup := List.Nodup.map (Equiv.injective _) List.nodup_range
  refine ((List.perm_ext_iff_of_nodup hnodup List.nodup_range).2 fun k => ?_).map _
  have hlt : ∀ k, Equiv.swap i j k < n ↔ k < n := by
    intro k
    by_cases hki : k = i
    · rw [hki, Equiv.swap_apply_left]
      exact iff_of_true hj hi
    · by_cases hkj : k = j
      · rw [hkj, Equiv.swap_apply_right]
        exact iff_of_true hi hj
      · rw [Equiv.swap_apply_of_ne_of_ne hki hkj]
  rw [List.mem_map, List.mem_range, ← hlt k]
  refine ⟨?_, fun h => ⟨Equiv.swap i j k, List.mem_range.2 h, Equiv.swap_apply_self i j k⟩⟩
  rintro ⟨x, hx, rfl⟩
  rwa [Equiv.swap_apply_self, ← List.mem_range]

end Determinator
