import Mathlib.Algebra.BigOperators.Group.Finset.Basic
import Mathlib.Algebra.Order.BigOperators.Group.Finset
import Mathlib.Algebra.BigOperators.Ring.Finset
import Mathlib.Data.Fintype.BigOperators
import Mathlib.Data.Set.Card

/-!
# Counting references

Tables of a finite type `α` have slots `0, ..., n - 1`, and a slot may point to something of a type
`β`. `refCount n g f` is the number of slots that point to `f`, where `g t i` is what slot `i` of
table `t` points to. The lemmas say how the count changes when one slot or one table changes, and
what a positive count and a count of one mean.
-/

set_option linter.unusedSectionVars false

namespace Determinator

open Finset

variable {α β : Type} [Fintype α] [DecidableEq α] [DecidableEq β] {n i j : ℕ} {t u : α} {f : β}
  {g g' : α → ℕ → Option β}

/-- Whether a slot points to `f`, as a number. -/
def pointsTo (o : Option β) (f : β) : ℤ := if o = some f then 1 else 0

/-- The slots of one table that point to `f`. -/
def tableCount (n : ℕ) (g : α → ℕ → Option β) (t : α) (f : β) : ℤ :=
  ∑ i ∈ range n, pointsTo (g t i) f

/-- The slots of all tables that point to `f`. -/
def refCount (n : ℕ) (g : α → ℕ → Option β) (f : β) : ℤ := ∑ t, tableCount n g t f

theorem pointsTo_nonneg (o : Option β) (f : β) : 0 ≤ pointsTo o f := by
  unfold pointsTo
  split <;> omega

@[simp] theorem pointsTo_none (f : β) : pointsTo none f = 0 := rfl

@[simp] theorem pointsTo_self (f : β) : pointsTo (some f) f = 1 := by simp [pointsTo]

theorem tableCount_nonneg : 0 ≤ tableCount n g t f :=
  sum_nonneg fun _ _ => pointsTo_nonneg _ _

theorem refCount_nonneg : 0 ≤ refCount n g f := sum_nonneg fun _ _ => tableCount_nonneg

theorem tableCount_congr (h : ∀ i < n, g' t i = g t i) :
    tableCount n g' t f = tableCount n g t f := by
  refine sum_congr rfl fun i hi => ?_
  rw [h i (mem_range.1 hi)]

theorem tableCount_list : tableCount n g t f = ((List.range n).map fun i => pointsTo (g t i) f).sum :=
  rfl

theorem list_pointsTo_nonneg (l : List ℕ) (o : ℕ → Option β) :
    0 ≤ (l.map fun i => pointsTo (o i) f).sum := by
  induction l with
  | nil => exact le_rfl
  | cons i l ih =>
    rw [List.map_cons, List.sum_cons]
    exact add_nonneg (pointsTo_nonneg _ _) ih

/-- One table changes. -/
theorem refCount_table (h : ∀ u, u ≠ t → ∀ i < n, g' u i = g u i) :
    refCount n g' f = refCount n g f - tableCount n g t f + tableCount n g' t f := by
  unfold refCount
  have hrest : ∑ u ∈ univ.erase t, tableCount n g' u f = ∑ u ∈ univ.erase t, tableCount n g u f :=
    sum_congr rfl fun u hu => tableCount_congr (h u (ne_of_mem_erase hu))
  have h₁ := add_sum_erase univ (fun u => tableCount n g u f) (mem_univ t)
  have h₂ := add_sum_erase univ (fun u => tableCount n g' u f) (mem_univ t)
  omega

/-- One slot of a table changes. -/
theorem tableCount_slot (hi : i < n) (h : ∀ j < n, j ≠ i → g' t j = g t j) :
    tableCount n g' t f = tableCount n g t f - pointsTo (g t i) f + pointsTo (g' t i) f := by
  unfold tableCount
  have hrest : ∑ j ∈ (range n).erase i, pointsTo (g' t j) f
      = ∑ j ∈ (range n).erase i, pointsTo (g t j) f := by
    refine sum_congr rfl fun j hj => ?_
    rw [h j (mem_range.1 (mem_of_mem_erase hj)) (ne_of_mem_erase hj)]
  have h₁ := add_sum_erase (range n) (fun j => pointsTo (g t j) f) (mem_range.2 hi)
  have h₂ := add_sum_erase (range n) (fun j => pointsTo (g' t j) f) (mem_range.2 hi)
  omega

/-- One slot changes. -/
theorem refCount_slot (hi : i < n)
    (h : ∀ u, ∀ j < n, (u ≠ t ∨ j ≠ i) → g' u j = g u j) :
    refCount n g' f = refCount n g f - pointsTo (g t i) f + pointsTo (g' t i) f := by
  rw [refCount_table (t := t) fun u hu j hj => h u j hj (.inl hu),
    tableCount_slot hi fun j hj hji => h t j hj (.inr hji)]
  omega

/-- Slots that are emptied are not counted any more. -/
theorem refCount_mono (h : ∀ t, ∀ i < n, g' t i = none ∨ g' t i = g t i) :
    refCount n g' f ≤ refCount n g f := by
  refine sum_le_sum fun t _ => sum_le_sum fun i hi => ?_
  obtain hnone | hsame := h t i (mem_range.1 hi)
  · rw [hnone]
    exact pointsTo_nonneg _ _
  · rw [hsame]

theorem pointsTo_le_tableCount (hi : i < n) : pointsTo (g t i) f ≤ tableCount n g t f :=
  single_le_sum (fun j _ => pointsTo_nonneg (g t j) f) (mem_range.2 hi)

theorem tableCount_le_refCount : tableCount n g t f ≤ refCount n g f :=
  single_le_sum (fun u _ => tableCount_nonneg (t := u)) (mem_univ t)

theorem refCount_pos (hi : i < n) (h : g t i = some f) : 0 < refCount n g f := by
  have h₁ : pointsTo (g t i) f ≤ tableCount n g t f := pointsTo_le_tableCount hi
  have h₂ : tableCount n g t f ≤ refCount n g f := tableCount_le_refCount
  rw [h, pointsTo_self] at h₁
  omega

theorem exists_of_refCount_pos (h : 0 < refCount n g f) : ∃ t i, i < n ∧ g t i = some f := by
  by_contra hne
  push Not at hne
  have : refCount n g f = 0 := by
    refine sum_eq_zero fun t _ => sum_eq_zero fun i hi => ?_
    rw [pointsTo, if_neg (hne t i (mem_range.1 hi))]
  omega

theorem refCount_eq_zero (h : ∀ t, ∀ i < n, g t i ≠ some f) : refCount n g f = 0 := by
  by_contra hne
  have hpos : 0 < refCount n g f := lt_of_le_of_ne refCount_nonneg (Ne.symm hne)
  obtain ⟨t, i, hi, hg⟩ := exists_of_refCount_pos hpos
  exact h t i hi hg

/-- The count as the size of a set. -/
theorem refCount_eq_ncard : refCount n g f = ({x : α × ℕ | x.2 < n ∧ g x.1 x.2 = some f}.ncard : ℤ) := by
  have hset : {x : α × ℕ | x.2 < n ∧ g x.1 x.2 = some f}
      = ↑((univ ×ˢ range n).filter fun x : α × ℕ => g x.1 x.2 = some f) := by
    ext x
    simp
  rw [hset, Set.ncard_coe_finset, natCast_card_filter, sum_product]
  rfl

/-- Two slots that point to something with one reference are the same slot. -/
theorem slot_unique (h : refCount n g f ≤ 1) (hi : i < n) (hj : j < n) (ht : g t i = some f)
    (hu : g u j = some f) : t = u ∧ i = j := by
  by_contra hne
  -- take the first slot out: the second one is still counted
  let g' : α → ℕ → Option β := fun v k => if v = t ∧ k = i then none else g v k
  have hslot : refCount n g' f = refCount n g f - pointsTo (g t i) f + pointsTo (g' t i) f :=
    refCount_slot hi fun v k _ hvk => by
      have : ¬(v = t ∧ k = i) := fun e => hvk.elim (fun h => h e.1) fun h => h e.2
      simp [g', this]
  have hself : g' t i = none := by simp [g']
  have hother : g' u j = some f := by
    have : ¬(u = t ∧ j = i) := fun e => hne ⟨e.1.symm, e.2.symm⟩
    simp [g', this, hu]
  rw [ht, hself, pointsTo_self, pointsTo_none] at hslot
  have hpos : 0 < refCount n g' f := refCount_pos hj hother
  omega

end Determinator
