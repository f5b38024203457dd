import Mathlib.Data.Nat.Digits.Defs
import Mathlib.Tactic.IntervalCases
import Mathlib.Tactic.Ring

/-!
# Numerals

Numerals in a base up to 16, as strings of characters, the most significant digit first.
`Nat.toDigits` writes the shortest numeral of a number; `value` reads one.
-/

namespace Determinator.Numeral

/-- What a character counts as a digit of a base up to 16. -/
def digitVal (c : Char) : ℕ :=
  if c.isDigit then c.toNat - '0'.toNat
  else if 'a' ≤ c ∧ c ≤ 'f' then c.toNat - 'a'.toNat + 10
  else if 'A' ≤ c ∧ c ≤ 'F' then c.toNat - 'A'.toNat + 10
  else 16

/-- The number that a string of digits stands for. -/
def value (b : ℕ) (s : List Char) : ℕ := s.foldl (fun n c => n * b + digitVal c) 0

@[simp] theorem value_nil (b : ℕ) : value b [] = 0 := rfl

@[simp] theorem value_concat (b : ℕ) (s : List Char) (c : Char) :
    value b (s ++ [c]) = value b s * b + digitVal c := by
  simp only [value, List.foldl_append, List.foldl_cons, List.foldl_nil]

theorem digitVal_digitChar {d : ℕ} (hd : d < 16) : digitVal d.digitChar = d := by
  interval_cases d <;> decide

/-- Leading zeros do not count. -/
theorem value_zeros_append (b k : ℕ) (s : List Char) :
    value b (List.replicate k '0' ++ s) = value b s := by
  have h0 : (List.replicate k '0').foldl (fun n c => n * b + digitVal c) 0 = 0 := by
    induction k with
    | zero => rfl
    | succ k ih => rwa [List.replicate_succ, List.foldl_cons, show digitVal '0' = 0 by decide,
        Nat.zero_mul]
  rw [value, List.foldl_append, h0, value]

variable {b : ℕ}

/-- The numeral of a number stands for it. -/
theorem value_toDigits (hb : 1 < b) (hb' : b ≤ 16) (n : ℕ) : value b (Nat.toDigits b n) = n := by
  induction n using Nat.strong_induction_on with
  | _ n ih =>
    rw [Nat.toDigits_eq_if hb]
    split
    · rename_i h
      simp only [value, List.foldl_cons, List.foldl_nil, Nat.zero_mul, Nat.zero_add]
      exact digitVal_digitChar (by omega)
    · rename_i h
      have hm := Nat.mod_lt n (show 0 < b by omega)
      rw [value_concat, ih _ (Nat.div_lt_self (by omega) hb), digitVal_digitChar (by omega)]
      exact Nat.div_add_mod' n b

/-- Every character of a numeral is a digit of its base. -/
theorem exists_of_mem_toDigits (hb : 1 < b) {n : ℕ} {c : Char} (hc : c ∈ Nat.toDigits b n) :
    ∃ d < b, c = d.digitChar := by
  induction n using Nat.strong_induction_on with
  | _ n ih =>
    rw [Nat.toDigits_eq_if hb] at hc
    split at hc
    · rename_i h
      exact ⟨n, h, List.mem_singleton.1 hc⟩
    · rename_i h
      rcases List.mem_append.1 hc with hc | hc
      · exact ih _ (Nat.div_lt_self (by omega) hb) hc
      · exact ⟨n % b, Nat.mod_lt n (by omega), List.mem_singleton.1 hc⟩

/-- The numeral of a number other than zero does not begin with a zero. -/
theorem head_toDigits (hb : 1 < b) (hb' : b ≤ 16) {n : ℕ} (hn : n ≠ 0) :
    (Nat.toDigits b n).head? ≠ some '0' := by
  induction n using Nat.strong_induction_on with
  | _ n ih =>
    rw [Nat.toDigits_eq_if hb]
    split
    · rename_i h
      intro h0
      have hd := digitVal_digitChar (show n < 16 by omega)
      rw [List.head?_cons, Option.some.injEq] at h0
      rw [h0] at hd
      exact hn (hd.symm.trans (by decide))
    · rename_i h
      have hq : n / b ≠ 0 := Nat.div_ne_zero_iff.2 ⟨by omega, by omega⟩
      have hi := ih _ (Nat.div_lt_self (by omega) hb) hq
      cases hs : Nat.toDigits b (n / b) with
      | nil => exact absurd hs Nat.toDigits_ne_nil
      | cons c s =>
        rw [hs] at hi
        exact hi

end Determinator.Numeral
