import Mathlib.Data.List.Basic
import Mathlib.Tactic.Common

/-!
# Code that may fail

Lemmas on `Except` as the monad of a program that stops with a reason `ε`: when a sequence returns
and when it stops, an assertion `require`, and the invariant rules for a loop over a list.
-/

namespace Determinator

variable {ε α β σ : Type}

theorem bind_ok {x : Except ε α} {f : α → Except ε β} {b : β} :
    x >>= f = .ok b ↔ ∃ a, x = .ok a ∧ f a = .ok b := by
  cases x with
  | error w => simp [bind, Except.bind]
  | ok a => simp [bind, Except.bind]

theorem bind_error {x : Except ε α} {f : α → Except ε β} {w : ε} :
    x >>= f = .error w ↔ x = .error w ∨ ∃ a, x = .ok a ∧ f a = .error w := by
  cases x with
  | error w' => simp [bind, Except.bind]
  | ok a => simp [bind, Except.bind]

theorem pure_ok {a b : α} : (pure a : Except ε α) = .ok b ↔ a = b := by
  simp [pure, Except.pure]

theorem pure_error {a : α} {w : ε} : (pure a : Except ε α) = .error w ↔ False := by
  simp [pure, Except.pure]

@[simp] theorem ok_bind (a : α) (f : α → Except ε β) : (Except.ok a >>= f) = f a := rfl

@[simp] theorem error_bind (w : ε) (f : α → Except ε β) :
    ((Except.error w : Except ε α) >>= f) = .error w := rfl

/-- An assertion: stop for the reason `w` unless `p` holds. -/
def require (p : Prop) [Decidable p] (w : ε) : Except ε Unit :=
  if p then .ok () else .error w

theorem require_ok {p : Prop} [Decidable p] {w : ε} {u : Unit} : require p w = .ok u ↔ p := by
  unfold require
  split <;> simp_all

/-- An assertion that holds is passed. -/
theorem require_bind {p : Prop} [Decidable p] (h : p) (w : ε) (f : Unit → Except ε α) :
    require p w >>= f = f () := by
  unfold require
  rw [if_pos h]
  rfl

/-- Code behind an assertion returns what it returns, provided the assertion holds. -/
theorem require_bind_ok {p : Prop} [Decidable p] {w : ε} {f : Unit → Except ε α} {a : α} :
    require p w >>= f = .ok a ↔ p ∧ f () = .ok a := by
  rw [bind_ok]
  constructor
  · rintro ⟨⟨⟩, hp, h⟩
    exact ⟨require_ok.1 hp, h⟩
  · rintro ⟨hp, h⟩
    exact ⟨(), require_ok.2 hp, h⟩

/-! ## Loops over a list -/

/-- A loop that has returned has returned in every round. -/
theorem mapM_ok_mem {f : α → Except ε β} {l : List α} {r : List β} (h : l.mapM f = .ok r) :
    ∀ a ∈ l, ∃ b, f a = .ok b := by
  induction l generalizing r with
  | nil => simp
  | cons x l ih =>
    rw [List.mapM_cons, bind_ok] at h
    obtain ⟨y, hy, h⟩ := h
    rw [bind_ok] at h
    obtain ⟨ys, hys, -⟩ := h
    intro a ha
    obtain rfl | ha := List.mem_cons.1 ha
    · exact ⟨y, hy⟩
    · exact ih hys a ha

/-- A loop returns where every round does. -/
theorem mapM_ok_iff {f : α → Except ε β} {l : List α} :
    (∃ r, l.mapM f = .ok r) ↔ ∀ a ∈ l, ∃ b, f a = .ok b := by
  constructor
  · rintro ⟨r, h⟩
    exact mapM_ok_mem h
  · intro h
    induction l with
    | nil => exact ⟨[], rfl⟩
    | cons x l ih =>
      obtain ⟨y, hy⟩ := h x (by simp)
      obtain ⟨ys, hys⟩ := ih fun a ha => h a (by simp [ha])
      refine ⟨y :: ys, ?_⟩
      rw [List.mapM_cons, hy, ok_bind, hys]
      rfl

/-- A loop whose rounds all return and keep an invariant returns and ends with it. The invariant
speaks of the elements still to come. -/
theorem foldlM_meets {f : σ → α → Except ε σ} {I : List α → σ → Prop}
    (step : ∀ a as s, I (a :: as) s → ∃ t, f s a = .ok t ∧ I as t) :
    ∀ (as : List α) (s : σ), I as s → ∃ t, as.foldlM f s = .ok t ∧ I [] t
  | [], s, h => ⟨s, rfl, h⟩
  | a :: as, s, h => by
    obtain ⟨t, ht, hI⟩ := step a as s h
    obtain ⟨u, hu, hI'⟩ := foldlM_meets step as t hI
    refine ⟨u, ?_, hI'⟩
    rw [List.foldlM_cons, ht]
    exact hu

/-- A loop that has returned has kept what every round that returned has kept. -/
theorem foldlM_keeps {f : σ → α → Except ε σ} {I : List α → σ → Prop}
    (step : ∀ a as s t, I (a :: as) s → f s a = .ok t → I as t) :
    ∀ (as : List α) (s t : σ), I as s → as.foldlM f s = .ok t → I [] t
  | [], s, t, h, ht => by
    rw [List.foldlM_nil, pure_ok] at ht
    exact ht ▸ h
  | a :: as, s, t, h, ht => by
    rw [List.foldlM_cons, bind_ok] at ht
    obtain ⟨u, hu, ht⟩ := ht
    exact foldlM_keeps step as u t (step a as s u h hu) ht

end Determinator
