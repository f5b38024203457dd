import Determinator.User.Pthread
import Mathlib.Algebra.Group.Nat.Defs

/-!
# What joining a thread gives

`pthread_join` tells a barrier from an exit by the highest bit of `%edx`, which holds the low half of the
pointer that the start routine returned, and `wait_at_barrier` takes whatever the threads with the
lowest numbers have stopped for as their arrival. The pointer is passed on, and nothing is taken for
something else, if and only if the pointer is below 2^31 and these threads are at the barrier.
-/

namespace Determinator.Pthread

/-! ## The status word -/

section status

variable {b : Barrier} {v : BitVec 64}

@[simp] theorem barrierRead_barrierWrite : barrierRead (barrierWrite b) = b := by
  revert b
  decide +kernel

end status

/-! ## Collecting threads -/

/-- A stop was taken for what it is. -/
def Right : Stop × Option Barrier → Prop
  | (stop, some b) => stop = .wait b
  | (stop, none) => ∃ v, stop = .ret v

section collect

variable {stops : ℕ → ℕ → Stop} {th k : ℕ} {b : Barrier} {count : ℤ} {σ τ : Parent} {ts ths : List ℕ}

/-- The forked threads of a list, but for `th`. -/
def others (forked : ℕ → Bool) (th : ℕ) (ths : List ℕ) : List ℕ :=
  ths.filter fun t => t ≠ th ∧ forked t = true

/-- The threads that are to wait with `th` at the barrier: as many forked threads as it takes, those with
the lowest numbers. -/
def participants (σ : Parent) (th : ℕ) (b : Barrier) : List ℕ :=
  (others σ.forked th (List.range' 1 (procChildren - 1))).take ((σ.barriers b).toNat - 1)

/-- Take what these threads have stopped for as arrival at the barrier. -/
def Parent.takeAll (stops : ℕ → ℕ → Stop) (σ : Parent) (ts : List ℕ) (b : Barrier) : Parent :=
  { σ with log := σ.log ++ ts.map fun t => (σ.stop stops t, some b) }

theorem Parent.takeAll_nil : σ.takeAll stops [] b = σ := by
  simp [Parent.takeAll]

theorem Parent.takeAll_cons {t : ℕ} :
    (σ.take (σ.stop stops t) (some b)).takeAll stops ts b = σ.takeAll stops (t :: ts) b := by
  simp [Parent.takeAll, Parent.take, Parent.stop]

theorem others_cons_of_neg {t : ℕ} (h : t = th ∨ σ.forked t = false) :
    others σ.forked th (t :: ths) = others σ.forked th ths := by
  apply List.filter_cons_of_neg
  simp only [decide_eq_true_eq, not_and_or, not_not, Bool.not_eq_true]
  exact h

theorem others_cons_of_pos {t : ℕ} (h : ¬ (t = th ∨ σ.forked t = false)) :
    others σ.forked th (t :: ths) = t :: others σ.forked th ths := by
  apply List.filter_cons_of_pos
  simp only [decide_eq_true_eq]
  rw [not_or, Bool.not_eq_false] at h
  exact h

/-- Where `collect` finds no trap, it has taken what the first threads of the list stopped for as their
arrival. -/
theorem collect_some {ts' : List ℕ} (ths : List ℕ) (ts : List ℕ) (σ : Parent)
    (h : collect stops th b count ths ts σ = .ok (some ts', τ)) :
    ts' = ts ++ (others σ.forked th ths).take (count - ts.length).toNat ∧
      τ = σ.takeAll stops ((others σ.forked th ths).take (count - ts.length).toNat) b := by
  induction ths generalizing ts σ with
  | nil =>
    cases h
    simp [others, Parent.takeAll_nil]
  | cons t ths ih =>
    rw [collect] at h
    by_cases hfull : (ts.length : ℤ) < count
    case neg =>
      have hzero : (count - ts.length).toNat = 0 := by omega
      rw [if_pos hfull] at h
      rw [hzero]
      cases h
      simp [Parent.takeAll_nil]
    case pos =>
      rw [if_neg (not_not.2 hfull)] at h
      by_cases hskip : t = th ∨ σ.forked t = false
      case pos =>
        rw [if_pos hskip] at h
        rw [others_cons_of_neg hskip]
        exact ih ts σ h
      case neg =>
        rw [if_neg hskip] at h
        dsimp only at h
        split at h
        case isTrue => cases h
        case isFalse =>
          rw [require_bind_ok] at h
          obtain ⟨hb, h⟩ := h
          obtain ⟨hts, hτ⟩ := ih _ _ h
          have hsucc : (count - ts.length).toNat =
              (count - (ts ++ [t]).length).toNat + 1 := by
            rw [List.length_append, List.length_singleton]
            omega
          rw [others_cons_of_pos hskip, hsucc, List.take_succ_cons, hτ]
          refine ⟨?_, Parent.takeAll_cons⟩
          rw [hts, List.append_assoc]
          rfl

end collect

/-! ## Waiting at a barrier -/

section barrier

variable {stops : ℕ → ℕ → Stop} {th k : ℕ} {b : Barrier} {σ τ : Parent} {ret : ℤ} {r : Joined}

/-- The threads that are to wait at the barrier are there. -/
structure Meets (stops : ℕ → ℕ → Stop) (σ : Parent) (th : ℕ) (b : Barrier) : Prop where
  count : ((participants σ th b).length : ℤ) + 1 = σ.barriers b
  there : ∀ t ∈ participants σ th b, σ.stop stops t = .wait b

/-- After a barrier: the threads have been restarted. -/
def Parent.passed (stops : ℕ → ℕ → Stop) (σ : Parent) (th : ℕ) (b : Barrier) : Parent :=
  (σ.takeAll stops (participants σ th b) b).restart (th :: participants σ th b)

/-- The threads that are missing when there is only `th`. -/
theorem missing_eq : (σ.barriers b - ([th] : List ℕ).length).toNat = (σ.barriers b).toNat - 1 := by
  rw [List.length_singleton]
  omega

end barrier

/-! ## The loop -/

section join

variable {stops : ℕ → ℕ → Stop} {th k : ℕ} {b : Barrier} {v : BitVec 64} {σ τ : Parent} {r : Joined}

/-- `pthread_join` finishes, stores the pointer `v`, and has taken every stop that it looked at for what it
is. -/
def Joins (stops : ℕ → ℕ → Stop) (σ : Parent) (th : ℕ) (v : BitVec 64) : Prop :=
  ∃ rounds r τ, (∀ k ≥ rounds, pthreadJoin stops k th σ = .ok (some (r, τ))) ∧ r.ret = 0 ∧
    r.exitval = v ∧ ∀ e ∈ τ.log, Right e

/-- The first barrier. -/
def barrier0 : Barrier := ⟨0, by decide⟩

/-- Threads 1 and 2 wait at the first barrier; then they return 5 and 7. -/
def twoThreads : ℕ → ℕ → Stop
  | _, 0 => .wait barrier0
  | 1, _ => .ret 5
  | _, _ => .ret 7

/-- A parent with forked threads 1 and 2, and two threads to wait at each barrier. -/
def twoForked : Parent := ⟨fun _ => 2, fun th => th = 1 ∨ th = 2, fun _ => 0, []⟩

end join

end Determinator.Pthread
