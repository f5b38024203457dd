import Mathlib.Data.List.Pairwise
import Mathlib.Logic.Function.Basic
import Mathlib.Tactic.Common

/-!
# Three-way merges

A copy of a state has been changed, and the changes are to go into the state again, which may have changed
too. They are found by comparing the copy with what it was at first, the reference. `Joins r s d d'` says that
`d'` is `d` with what `s` has that `r` has not, and that no place is changed in both `s` and `d`.

The copies of one state are merged one after the other (`JoinsAll`). If no two of them have changed the same
place, their order does not matter (`JoinsAll.perm`); their references need not be the same.
-/

namespace Determinator

variable {ι β : Type} {r s r₁ s₁ r₂ s₂ d d₁ d₂ e : ι → β} {i : ι}

/-- `d'` is `d` with the changes from `r` to `s`. -/
structure Joins (r s d d' : ι → β) : Prop where
  kept : ∀ i, s i = r i → d' i = d i
  taken : ∀ i, s i ≠ r i → d i = r i ∧ d' i = s i

/-- No place has been changed in both. -/
def Unopposed (r s d : ι → β) : Prop := ∀ i, s i = r i ∨ d i = r i

/-- The places changed from `r₁` to `s₁` are others than those changed from `r₂` to `s₂`. -/
def Separate (r₁ s₁ r₂ s₂ : ι → β) : Prop := ∀ i, s₁ i = r₁ i ∨ s₂ i = r₂ i

theorem Separate.symm (h : Separate r₁ s₁ r₂ s₂) : Separate r₂ s₂ r₁ s₁ := fun i => (h i).symm

namespace Joins

theorem unopposed (h : Joins r s d e) : Unopposed r s d := by
  intro i
  by_cases hi : s i = r i
  · exact .inl hi
  · exact .inr (h.taken i hi).1

/-- There is one result at most. -/
theorem unique (h : Joins r s d d₁) (h' : Joins r s d d₂) : d₁ = d₂ := by
  funext i
  by_cases hi : s i = r i
  · rw [h.kept i hi, h'.kept i hi]
  · rw [(h.taken i hi).2, (h'.taken i hi).2]

end Joins

open Classical in
/-- There is one if nothing is opposed. -/
theorem Unopposed.joins (h : Unopposed r s d) : Joins r s d fun i => if s i = r i then d i else s i where
  kept _ hi := if_pos hi
  taken i hi := ⟨(h i).resolve_left hi, if_neg hi⟩

/-- **Two merges** of different places can be exchanged. -/
theorem Joins.comm (ha : Separate r₁ s₁ r₂ s₂) (h₁ : Joins r₁ s₁ d d₁) (h₂ : Joins r₂ s₂ d₁ e) :
    ∃ d₂, Joins r₂ s₂ d d₂ ∧ Joins r₁ s₁ d₂ e := by
  have hd : Unopposed r₂ s₂ d := by
    intro i
    rcases ha i with hi | hi
    · rw [← h₁.kept i hi]
      exact h₂.unopposed i
    · exact .inl hi
  refine ⟨_, hd.joins, fun i hi => ?_, fun i hi => ?_⟩
  · by_cases hi' : s₂ i = r₂ i
    · rw [h₂.kept i hi', h₁.kept i hi, if_pos hi']
    · rw [(h₂.taken i hi').2, if_neg hi']
  · have hi' := (ha i).resolve_left hi
    rw [if_pos hi', h₂.kept i hi']
    exact h₁.taken i hi

/-- Merges one after the other, each with its reference and its source. -/
inductive JoinsAll : List ((ι → β) × (ι → β)) → (ι → β) → (ι → β) → Prop
  | nil (d : ι → β) : JoinsAll [] d d
  | cons {c : (ι → β) × (ι → β)} {l : List ((ι → β) × (ι → β))} {d d₁ e : ι → β} :
      Joins c.1 c.2 d d₁ → JoinsAll l d₁ e → JoinsAll (c :: l) d e

namespace JoinsAll

variable {c : (ι → β) × (ι → β)} {l l' : List ((ι → β) × (ι → β))}

theorem unique (h : JoinsAll l d d₁) (h' : JoinsAll l d d₂) : d₁ = d₂ := by
  induction h with
  | nil d =>
    cases h'
    rfl
  | cons hj _ ih =>
    cases h' with
    | cons hj' h' =>
      obtain rfl := hj.unique hj'
      exact ih h'

/-- **The order does not matter** if no two sources have changed the same place. -/
theorem perm (hp : l.Perm l') (ha : l.Pairwise fun c c' => Separate c.1 c.2 c'.1 c'.2) (h : JoinsAll l d e) :
    JoinsAll l' d e := by
  induction hp generalizing d with
  | nil => exact h
  | cons c _ ih =>
    cases h with
    | cons hj h => exact .cons hj (ih (List.pairwise_cons.1 ha).2 h)
  | swap c c' l =>
    cases h with
    | cons hj h =>
      cases h with
      | cons hj' h =>
        have hcc := (List.pairwise_cons.1 ha).1 c List.mem_cons_self
        obtain ⟨d₂, h₁, h₂⟩ := hj.comm hcc hj'
        exact .cons h₁ (.cons h₂ h)
  | trans hp _ ih ih' =>
    exact ih' ((hp.pairwise_iff Separate.symm).1 ha) (ih ha h)

/-- A place that no source has changed is left alone. -/
theorem kept (h : JoinsAll l d e) (hi : ∀ c ∈ l, c.2 i = c.1 i) : e i = d i := by
  induction h with
  | nil => rfl
  | cons hj _ ih =>
    rw [ih fun c hc => hi c (List.mem_cons_of_mem _ hc), hj.kept i (hi _ List.mem_cons_self)]

/-- What one of the sources has changed is there in the end. -/
theorem taken (ha : l.Pairwise fun c c' => Separate c.1 c.2 c'.1 c'.2) (h : JoinsAll l d e) (hc : c ∈ l)
    (hi : c.2 i ≠ c.1 i) : e i = c.2 i := by
  induction h with
  | nil => cases hc
  | @cons c' l d d₁ e hj h ih =>
    obtain ⟨ha₁, ha₂⟩ := List.pairwise_cons.1 ha
    rcases List.mem_cons.1 hc with rfl | hc
    · rw [h.kept fun c' hc' => (ha₁ c' hc' i).resolve_left hi]
      exact (hj.taken i hi).2
    · exact ih ha₂ hc

/-- Where no other source has changed anything, there is what the source has. -/
theorem at_place (ha : l.Pairwise fun c c' => Separate c.1 c.2 c'.1 c'.2) (h : JoinsAll l d e) (hc : c ∈ l)
    (hr : c.1 i = d i) (ho : ∀ c' ∈ l, c' ≠ c → c'.2 i = c'.1 i) : e i = c.2 i := by
  by_cases hi : c.2 i = c.1 i
  · have hall : ∀ c' ∈ l, c'.2 i = c'.1 i := by
      intro c' hc'
      by_cases he : c' = c
      · rw [he, hi]
      · exact ho c' hc' he
    rw [h.kept hall, hi, hr]
  · exact h.taken ha hc hi

end JoinsAll

end Determinator
