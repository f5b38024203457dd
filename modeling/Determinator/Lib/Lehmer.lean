import Mathlib.GroupTheory.OrderOfElement
import Mathlib.Tactic.Linarith
import Mathlib.Tactic.Ring

/-!
# Lehmer generators

A Lehmer generator multiplies its state by `a`, modulo `m`. The product is got without a number above the modulus from
the quotient `q` and the remainder `r` of `m` by `a`, if `r` is not above `q` (`schrage`). The powers of a multiplier
make up blocks without a common number (`pow_blocks`).
-/

namespace Determinator

namespace Lehmer

variable {m a q r x : ℤ}

/-- What is computed is the product less a multiple of the modulus. -/
theorem schrage_eq (hm : m = a * q + r) (x : ℤ) : a * (x % q) - r * (x / q) = a * x - m * (x / q) := by
  have hx := Int.emod_add_mul_ediv x q
  calc a * (x % q) - r * (x / q) = a * (x % q + q * (x / q)) - (a * q + r) * (x / q) := by ring
    _ = a * x - m * (x / q) := by rw [hx, ← hm]

/-- It lies between the modulus and its negative. -/
theorem schrage_bounds (ha : 0 < a) (hq : 0 < q) (hr : 0 ≤ r) (hrq : r ≤ q) (hm : m = a * q + r) (hx : 0 ≤ x)
    (hxm : x < m) : -m < a * (x % q) - r * (x / q) ∧ a * (x % q) - r * (x / q) < m := by
  have hmod₀ := Int.emod_nonneg x hq.ne'
  have hmod := Int.emod_lt_of_pos x hq
  have hdiv := Int.ediv_nonneg hx hq.le
  have hle : q * (x / q) ≤ x := Int.mul_ediv_self_le hq.ne'
  have hright : r * (x / q) ≤ q * (x / q) := mul_le_mul_of_nonneg_right hrq hdiv
  have hleft : a * (x % q) < a * q := mul_lt_mul_of_pos_left hmod ha
  have hleft₀ : 0 ≤ a * (x % q) := mul_nonneg ha.le hmod₀
  have hright₀ : 0 ≤ r * (x / q) := mul_nonneg hr hdiv
  constructor
  · linarith
  · linarith

/-- **The product** modulo `m`, if it is not a multiple of `m`. -/
theorem schrage (ha : 0 < a) (hq : 0 < q) (hr : 0 ≤ r) (hrq : r ≤ q) (hm : m = a * q + r) (hx : 0 ≤ x) (hxm : x < m)
    (hne : ¬m ∣ a * x) :
    (if 0 < a * (x % q) - r * (x / q) then a * (x % q) - r * (x / q) else a * (x % q) - r * (x / q) + m) = a * x % m := by
  obtain ⟨hlo, hhi⟩ := schrage_bounds ha hq hr hrq hm hx hxm
  have heq := schrage_eq hm x
  generalize a * (x % q) - r * (x / q) = t at *
  have hmod : t % m = a * x % m := by
    rw [heq, Int.sub_mul_emod_self_left]
  have hne₀ : t ≠ 0 := by
    rintro rfl
    exact hne ⟨x / q, by linarith⟩
  split_ifs with hpos
  · rw [← hmod, Int.emod_eq_of_lt hpos.le hhi]
  · rw [← hmod, ← Int.add_emod_right, Int.emod_eq_of_lt (by omega) (by omega)]

/-- Powers in blocks of length `l`, each with as many as it may have, differ. -/
theorem pow_blocks {G : Type*} [Monoid G] {g : G} {l n i i' k k' : ℕ} (hn : l * n < orderOf g) (hi : i < n) (hi' : i' < n)
    (hk : 1 ≤ k) (hkl : k ≤ l) (hk' : 1 ≤ k') (hkl' : k' ≤ l) (h : g ^ (l * i + k) = g ^ (l * i' + k')) :
    i = i' ∧ k = k' := by
  have hle : l * (i + 1) ≤ l * n := Nat.mul_le_mul_left l hi
  have hle' : l * (i' + 1) ≤ l * n := Nat.mul_le_mul_left l hi'
  rw [Nat.mul_succ] at hle hle'
  have hpow : l * i + k = l * i' + k' :=
    pow_injOn_Iio_orderOf (Set.mem_Iio.2 (by omega)) (Set.mem_Iio.2 (by omega)) h
  have hii : i = i' := by
    rcases lt_trichotomy i i' with hlt | heq | hlt
    · have := Nat.mul_le_mul_left l hlt
      rw [Nat.mul_succ] at this
      omega
    · exact heq
    · have := Nat.mul_le_mul_left l hlt
      rw [Nat.mul_succ] at this
      omega
  subst hii
  exact ⟨rfl, by omega⟩

end Lehmer

end Determinator
