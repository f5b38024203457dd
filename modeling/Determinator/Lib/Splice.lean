import Mathlib.Data.List.GetD
import Mathlib.Tactic.Common

/-!
# Strings that grow by filling

A string as a file has it: it is cut or filled up to a given length, and written over from a given
place on, with filling in between where it is too short.
-/

namespace Determinator

variable {α : Type} {z : α} {l d : List α} {n o i : ℕ}

/-- The string cut to length `n`, or filled up to it. -/
def resize (z : α) (n : ℕ) (l : List α) : List α := l.take n ++ .replicate (n - l.length) z

/-- The string with `d` in place of what it has from `o` on, after filling up to there. -/
def overwrite (z : α) (l : List α) (o : ℕ) (d : List α) : List α :=
  resize z o l ++ d ++ l.drop (o + d.length)

@[simp] theorem length_resize : (resize z n l).length = n := by
  simp [resize]
  omega

@[simp] theorem length_overwrite : (overwrite z l o d).length = max l.length (o + d.length) := by
  simp [overwrite]
  omega

/-- Up to its new length a resized string is the old one, and filling after that. -/
theorem getElem?_resize : (resize z n l)[i]? = if i < n then some (l.getD i z) else none := by
  by_cases hin : i < n
  swap
  · rw [if_neg hin, List.getElem?_eq_none (by simpa using hin)]
  rw [if_pos hin]
  unfold resize
  by_cases hil : i < l.length
  · rw [List.getElem?_append_left (by simp; omega), List.getElem?_take_of_lt hin,
      List.getElem?_eq_getElem hil, List.getD_eq_getElem _ _ hil]
  · rw [List.getElem?_append_right (by simp; omega), List.getElem?_replicate, if_pos (by simp; omega),
      List.getD_eq_default _ _ (Nat.not_lt.1 hil)]

/-- What is in an overwritten string: in front the old one, filled up; then what was written; then
the old one again. -/
theorem getElem?_overwrite : (overwrite z l o d)[i]? =
    if i < o then some (l.getD i z) else if i < o + d.length then d[i - o]? else l[i]? := by
  unfold overwrite
  by_cases hio : i < o
  · rw [if_pos hio, List.append_assoc, List.getElem?_append_left (by simpa using hio),
      getElem?_resize, if_pos hio]
  rw [if_neg hio]
  by_cases hid : i < o + d.length
  · rw [if_pos hid, List.append_assoc, List.getElem?_append_right (by simpa using hio),
      List.getElem?_append_left (by simp; omega), length_resize]
  · rw [if_neg hid, List.getElem?_append_right (by simp; omega), List.getElem?_drop]
    congr 1
    simp
    omega

end Determinator
