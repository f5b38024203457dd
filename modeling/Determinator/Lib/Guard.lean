import Determinator.Lib.Panic

/-!
# Computations that are watched

A computation may do what another one does, and stop where something is not as it should be: `Guards stop m' m`,
where the reasons it stops with are those of `stop`. When the watched computation has not stopped so, the two runs
are the same (`Guards.same`), and what is known of the one is known of the other.
-/

namespace Determinator

namespace PanicM

variable {ε ν σ α β : Type}

/-- `m'` does what `m` does, or has stopped with a reason of `stop` before. -/
def Guards (stop : ε → Prop) (m' m : PanicM ε ν σ α) : Prop :=
  ∀ s, m' s = m s ∨ (∃ e, stop e ∧ (m' s).val = .error e) ∧ ∀ n ∈ (m' s).notes, n ∈ (m s).notes

variable {stop : ε → Prop} {N : Set ν} {m m' : PanicM ε ν σ α} {k k' : α → PanicM ε ν σ β} {s : σ} {e : ε}

namespace Guards

theorem refl (m : PanicM ε ν σ α) : Guards stop m m := fun _ => .inl rfl

theorem bind (h : Guards stop m' m) (hk : ∀ a, Guards stop (k' a) (k a)) : Guards stop (m' >>= k') (m >>= k) := by
  intro s
  change PanicM.bind m' k' s = PanicM.bind m k s ∨ (∃ e, stop e ∧ (PanicM.bind m' k' s).val = .error e) ∧
    ∀ n ∈ (PanicM.bind m' k' s).notes, n ∈ (PanicM.bind m k s).notes
  unfold PanicM.bind
  rcases h s with h | ⟨⟨e, he, hv⟩, hn⟩
  · rw [h]
    rcases m s with ⟨_ | a, t, w⟩
    · exact .inl rfl
    · rcases hk a t with h' | ⟨⟨e, he, hv⟩, hn⟩
      · simp only [h']
        exact .inl trivial
      · refine .inr ⟨⟨e, he, hv⟩, fun n hn' => ?_⟩
        rcases List.mem_append.1 hn' with hn' | hn'
        · exact List.mem_append_left _ hn'
        · exact List.mem_append_right _ (hn n hn')
  · refine .inr ?_
    rcases hm' : m' s with ⟨v, t', w'⟩
    rw [hm'] at hv hn
    cases hv
    refine ⟨⟨e, he, rfl⟩, fun n hn' => ?_⟩
    have hn := hn n hn'
    rcases hm : m s with ⟨_ | a, t, w⟩
    · rw [hm] at hn
      exact hn
    · rw [hm] at hn
      exact List.mem_append_left _ hn

/-- A look at the state. -/
theorem look {p : σ → Prop} [DecidablePred p] (he : stop e) :
    Guards stop (do let s ← get; check (p s) e : PanicM ε ν σ Unit) (pure ()) := by
  intro s
  change PanicM.bind get (fun s => check (p s) e) s = _ ∨ (∃ e', stop e' ∧
    (PanicM.bind get (fun s => check (p s) e) s).val = .error e') ∧
      ∀ n ∈ (PanicM.bind get (fun s => check (p s) e) s).notes, _
  simp only [PanicM.bind, get, check]
  split
  · exact .inl rfl
  · refine .inr ⟨⟨e, he, rfl⟩, fun n hn => ?_⟩
    cases hn

theorem ite {c : Prop} [Decidable c] {m₁ m₂ m₁' m₂' : PanicM ε ν σ α} (h₁ : Guards stop m₁' m₁)
    (h₂ : Guards stop m₂' m₂) : Guards stop (if c then m₁' else m₂') (if c then m₁ else m₂) := by
  split
  · exact h₁
  · exact h₂

theorem whileM {stuck : ε} {c : α → Bool} {body body' : α → PanicM ε ν σ α}
    (h : ∀ a, Guards stop (body' a) (body a)) (n : ℕ) (a : α) :
    Guards stop (PanicM.whileM stuck c body' n a) (PanicM.whileM stuck c body n a) := by
  induction n generalizing a with
  | zero => exact refl _
  | succ n ih =>
    unfold PanicM.whileM
    exact ite (bind (h a) ih) (refl _)

/-- The runs are the same if the watched one does not stop with such a reason. -/
theorem same_of_ne (h : Guards stop m' m) (hv : ∀ e, stop e → (m' s).val ≠ .error e) : m' s = m s := by
  rcases h s with h | ⟨⟨e, he, hv'⟩, -⟩
  · exact h
  · exact absurd hv' (hv e he)

/-- The runs are the same if the watched one is known to end otherwise. -/
theorem same {Q : α → σ → Prop} {E : ε → σ → Prop} (h : Guards stop m' m) (hm : Ends N m' s Q E)
    (hE : ∀ e t, E e t → ¬stop e) (hn : ∀ n ∈ (m s).notes, n ∉ N) : m' s = m s := by
  rcases h s with h | ⟨⟨e, he, hv⟩, hsub⟩
  · exact h
  · have hout := hm.out fun n hn' => hn n (hsub n hn')
    rw [hv] at hout
    exact absurd he (hE e _ hout)

end Guards

end PanicM

end Determinator
