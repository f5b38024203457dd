import Mathlib.Data.List.Basic
import Mathlib.Tactic.Common

/-!
# Fields of a list

A list with separators in it is taken apart into its fields, the non-empty parts between them: by
cutting it all at once, or from the left, one field and the separators behind it at a time.
-/

namespace Determinator

variable {α : Type} [DecidableEq α] {sep : α} {x l : List α}

/-- The non-empty parts of `l` between separators. -/
def fields (sep : α) (l : List α) : List (List α) := (l.splitOn sep).filter (· ≠ [])

@[simp] theorem fields_nil : fields sep [] = [] := by
  simp [fields]

@[simp] theorem fields_cons_sep : fields sep (sep :: l) = fields sep l := by
  simp [fields, List.splitOn_cons_eq_if_modifyHead]

/-- Leading separators do not count. -/
theorem fields_dropWhile : fields sep (l.dropWhile (· == sep)) = fields sep l := by
  induction l with
  | nil => rfl
  | cons a l ih =>
    rw [List.dropWhile_cons]
    split
    case isTrue h =>
      rw [ih, beq_iff_eq.1 h, fields_cons_sep]
    case isFalse => rfl

/-- The part before the first separator is a field. -/
theorem fields_append_sep (hx : x ≠ []) (hs : sep ∉ x) :
    fields sep (x ++ sep :: l) = x :: fields sep l := by
  have h : (x ++ sep :: l).splitOn sep = x :: l.splitOn sep :=
    List.splitOnP_append_cons_of_forall_mem
      (fun a ha => beq_eq_false_iff_ne.2 (ne_of_mem_of_not_mem ha hs)) sep (beq_self_eq_true sep) l
  simp [fields, h, hx]

/-- A list without separators is its only field. -/
theorem fields_eq_singleton (hx : x ≠ []) (hs : sep ∉ x) : fields sep x = [x] := by
  simp [fields, List.splitOn_eq_singleton hs, hx]

/-- A list starts with a part without separators, and ends there or has a separator next. -/
theorem exists_field (sep : α) (l : List α) :
    ∃ x, sep ∉ x ∧ (l = x ∨ ∃ r, l = x ++ sep :: r) := by
  induction l with
  | nil => exact ⟨[], by simp, .inl rfl⟩
  | cons a l ih =>
    by_cases ha : a = sep
    · exact ⟨[], by simp, .inr ⟨l, by rw [ha, List.nil_append]⟩⟩
    · obtain ⟨x, hx, he⟩ := ih
      have hax : sep ∉ a :: x := by simp [hx, Ne.symm ha]
      obtain rfl | ⟨r, rfl⟩ := he
      · exact ⟨a :: l, hax, .inl rfl⟩
      · exact ⟨a :: x, hax, .inr ⟨r, rfl⟩⟩

/-- A list of separators has no fields. -/
theorem dropWhile_eq_nil_iff_fields : l.dropWhile (· == sep) = [] ↔ fields sep l = [] := by
  constructor
  · intro h
    rw [← fields_dropWhile, h, fields_nil]
  · intro h
    rw [← fields_dropWhile] at h
    by_contra hne
    obtain ⟨x, hx, he⟩ := exists_field sep (l.dropWhile (· == sep))
    have hx0 : x ≠ [] := by
      rintro rfl
      obtain he | ⟨r, he⟩ := he
      · exact hne he
      · have := List.head_dropWhile_not (· == sep) hne
        simp [he] at this
    obtain he | ⟨r, he⟩ := he
    · rw [he, fields_eq_singleton hx0 hx] at h
      exact List.cons_ne_nil _ _ h
    · rw [he, fields_append_sep hx0 hx] at h
      exact List.cons_ne_nil _ _ h

/-- What follows the leading separators ends as the list does. -/
theorem getLast?_dropWhile (h : l.dropWhile (· == sep) ≠ []) :
    (l.dropWhile (· == sep)).getLast? = l.getLast? := by
  conv_rhs => rw [← List.takeWhile_append_dropWhile (p := (· == sep)) (l := l)]
  rw [List.getLast?_append_of_ne_nil _ h]

/-- A list that ends in its leading separators ends in a separator. -/
theorem getLast?_of_dropWhile_eq_nil (h : l.dropWhile (· == sep) = []) :
    (sep :: l).getLast? = some sep := by
  induction l with
  | nil => rfl
  | cons a l ih =>
    rw [List.dropWhile_cons] at h
    split at h
    case isTrue ha =>
      rw [List.getLast?_cons_cons, beq_iff_eq.1 ha]
      exact ih h
    case isFalse => exact absurd h (List.cons_ne_nil _ _)

end Determinator
