import Determinator.Lib.Interleave
import Mathlib.Data.Set.Basic

/-!
# Actions on separate states

There is a state for each of some names. An action changes the state of one name, and what it makes of it depends on
that state and on those of the names it reads (`LocalAct`). Actions of which neither changes what the other reads or
changes can be exchanged; so an interleaving of two lists of such actions does what the one does followed by the
other (`run_interleaving`).
-/

namespace Determinator

variable {ι X : Type}

/-- A change of the state of `target`, depending on the states of `reads`. -/
structure LocalAct (ι X : Type) where
  target : ι
  reads : Set ι
  result : (ι → X) → X
  /-- Nothing else is looked at. -/
  agree : ∀ S S' : ι → X, S target = S' target → (∀ i ∈ reads, S i = S' i) → result S = result S'

namespace LocalAct

variable {p q : LocalAct ι X} {as bs cs : List (LocalAct ι X)} {S : ι → X} {i : ι}

/-- Neither changes what the other looks at. -/
structure Independent (p q : LocalAct ι X) : Prop where
  target : p.target ≠ q.target
  left : p.target ∉ q.reads
  right : q.target ∉ p.reads

theorem Independent.symm (h : Independent p q) : Independent q p := ⟨h.target.symm, h.right, h.left⟩

variable [DecidableEq ι]

def apply (p : LocalAct ι X) (S : ι → X) : ι → X := Function.update S p.target (p.result S)

/-- Actions one after the other. -/
def run : List (LocalAct ι X) → (ι → X) → ι → X
  | [], S => S
  | p :: ps, S => run ps (p.apply S)

@[simp] theorem apply_target : p.apply S p.target = p.result S := Function.update_self ..

theorem apply_ne (h : i ≠ p.target) : p.apply S i = S i := Function.update_of_ne h ..

theorem run_append (as bs : List (LocalAct ι X)) (S : ι → X) : run (as ++ bs) S = run bs (run as S) := by
  induction as generalizing S with
  | nil => rfl
  | cons p as ih => exact ih _

/-- A state that no action is for stays. -/
theorem run_ne (h : ∀ p ∈ as, i ≠ p.target) : run as S i = S i := by
  induction as generalizing S with
  | nil => rfl
  | cons p as ih =>
    rw [run, ih fun q hq => h q (List.mem_cons_of_mem p hq), apply_ne (h p List.mem_cons_self)]

/-- An action does the same after one that is independent of it. -/
theorem Independent.result (h : Independent p q) : q.result (p.apply S) = q.result S :=
  q.agree _ _ (apply_ne h.target.symm) fun _ hi => apply_ne fun e => h.left (e ▸ hi)

/-- **Independent actions** can be exchanged. -/
theorem Independent.comm (h : Independent p q) : q.apply (p.apply S) = p.apply (q.apply S) := by
  have h₁ : q.result (p.apply S) = q.result S := h.result
  have h₂ : p.result (q.apply S) = p.result S := h.symm.result
  unfold apply at *
  rw [h₁, h₂]
  exact Function.update_comm h.target ..

/-- An action can be put behind others that are independent of it. -/
theorem run_cons_comm (h : ∀ p ∈ as, Independent p q) : run as (q.apply S) = q.apply (run as S) := by
  induction as generalizing S with
  | nil => rfl
  | cons p as ih =>
    rw [run, run, ← ih fun p' hp' => h p' (List.mem_cons_of_mem p hp'), (h p List.mem_cons_self).comm]

/-- **The interleavings** of two lists of independent actions do the same. -/
theorem run_interleaving (hi : Interleaving as bs cs) (h : ∀ p ∈ as, ∀ q ∈ bs, Independent p q) :
    run cs S = run (as ++ bs) S := by
  induction hi generalizing S with
  | nil => rfl
  | left a _ ih => exact ih fun p hp => h p (List.mem_cons_of_mem a hp)
  | @right q as bs cs _ ih =>
    rw [run, ih fun p hp q' hq => h p hp q' (List.mem_cons_of_mem q hq), run_append, run_append, run,
      run_cons_comm fun p hp => h p hp q List.mem_cons_self]

end LocalAct

end Determinator
