import Mathlib.Data.List.Basic

/-!
# Interleavings of two lists
-/

namespace Determinator

variable {α : Type*} {as bs cs as' bs' cs' : List α}

/-- `cs` consists of the elements of `as` and of those of `bs`, both in their order. -/
inductive Interleaving : List α → List α → List α → Prop
  | nil : Interleaving [] [] []
  | left (a : α) {as bs cs : List α} : Interleaving as bs cs → Interleaving (a :: as) bs (a :: cs)
  | right (b : α) {as bs cs : List α} : Interleaving as bs cs → Interleaving as (b :: bs) (b :: cs)

namespace Interleaving

theorem of_left (as : List α) : Interleaving as [] as := by
  induction as with
  | nil => exact .nil
  | cons a as ih => exact .left a ih

theorem of_right (bs : List α) : Interleaving [] bs bs := by
  induction bs with
  | nil => exact .nil
  | cons b bs ih => exact .right b ih

theorem append (h : Interleaving as bs cs) (h' : Interleaving as' bs' cs') :
    Interleaving (as ++ as') (bs ++ bs') (cs ++ cs') := by
  induction h with
  | nil => exact h'
  | left a _ ih => exact .left a ih
  | right b _ ih => exact .right b ih

theorem map {β : Type*} (f : α → β) (h : Interleaving as bs cs) : Interleaving (as.map f) (bs.map f) (cs.map f) := by
  induction h with
  | nil => exact .nil
  | left a _ ih => exact .left (f a) ih
  | right b _ ih => exact .right (f b) ih

theorem perm (h : Interleaving as bs cs) : cs.Perm (as ++ bs) := by
  induction h with
  | nil => exact .nil
  | left a _ ih => exact ih.cons a
  | right b _ ih => exact (ih.cons b).trans List.perm_middle.symm

end Interleaving

end Determinator
