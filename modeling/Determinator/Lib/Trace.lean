import Determinator.Lib.Panic

/-!
# Computations that record

A computation over a state with a list beside it may do what a computation over the state alone does,
and append to the list on the way: `Erases m' m`. What is known of the runs of `m` is then known of those
of `m'`, whose list tells what the state was at the places where something was recorded.

* `lift m` is `m` and records nothing; `record f` appends what `f` makes of the state.
* `Erases` goes through the constructs of a program; `erases_whileM` is the rule for loops.
-/

namespace Determinator

namespace PanicM

variable {ε ν σ ρ α β : Type}

/-- Run `m` on the state, and leave the list alone. -/
def lift (m : PanicM ε ν σ α) : PanicM ε ν (σ × List ρ) α := fun s =>
  ⟨(m s.1).val, ((m s.1).state, s.2), (m s.1).notes⟩

/-- Append what `f` makes of the state. -/
def record (f : σ → ρ) : PanicM ε ν (σ × List ρ) Unit := modify fun s => (s.1, s.2 ++ [f s.1])

/-- `m'` does what `m` does, and appends to the list. -/
def Erases (m' : PanicM ε ν (σ × List ρ) α) (m : PanicM ε ν σ α) : Prop :=
  ∀ s w, ∃ w', m' (s, w) = ⟨(m s).val, ((m s).state, w ++ w'), (m s).notes⟩

variable {N : Set ν} {m : PanicM ε ν σ α} {m' : PanicM ε ν (σ × List ρ) α} {k : α → PanicM ε ν σ β}
  {k' : α → PanicM ε ν (σ × List ρ) β} {s : σ} {x : σ × List ρ} {w : List ρ} {f : σ → ρ} {n : ν} {e : ε}

/-! ## Erasing the records -/

theorem erases_lift (m : PanicM ε ν σ α) : Erases (lift m : PanicM ε ν (σ × List ρ) α) m := fun s w =>
  ⟨[], by simp [lift]⟩

theorem erases_pure (a : α) : Erases (pure a : PanicM ε ν (σ × List ρ) α) (pure a) := fun s w =>
  ⟨[], by simp [pure]⟩

theorem erases_panic (e : ε) : Erases (panic e : PanicM ε ν (σ × List ρ) α) (panic e) := fun s w =>
  ⟨[], by simp [panic]⟩

theorem erases_bind (h : Erases m' m) (hk : ∀ a, Erases (k' a) (k a)) : Erases (m' >>= k') (m >>= k) := by
  intro s w
  obtain ⟨w₁, h₁⟩ := h s w
  change ∃ w', bind m' k' (s, w) = ⟨(bind m k s).val, ((bind m k s).state, w ++ w'), (bind m k s).notes⟩
  unfold bind
  rw [h₁]
  rcases hm : m s with ⟨v, t, ns⟩
  cases v with
  | error e => exact ⟨w₁, rfl⟩
  | ok a =>
    obtain ⟨w₂, h₂⟩ := hk a t (w ++ w₁)
    refine ⟨w₁ ++ w₂, ?_⟩
    simp only [h₂, List.append_assoc]

/-- A record is nothing to the other computation. -/
theorem erases_record {j : Unit → PanicM ε ν (σ × List ρ) α} (f : σ → ρ) (h : Erases (j ()) m) :
    Erases (record f >>= j) m := by
  intro s w
  obtain ⟨w', h'⟩ := h s (w ++ [f s])
  refine ⟨f s :: w', ?_⟩
  change bind (record f) j (s, w) = _
  simp only [bind, record, modify, h', List.append_assoc, List.singleton_append, List.nil_append]

/-- Looking at the state for the sake of the records. -/
theorem erases_get {j : σ → PanicM ε ν (σ × List ρ) α} (h : ∀ t, Erases (j t) m) : Erases (lift get >>= j) m := by
  intro s w
  obtain ⟨w', h'⟩ := h s s w
  refine ⟨w', ?_⟩
  change bind (lift get) j (s, w) = _
  simp only [bind, lift, PanicM.get, h', List.nil_append]

theorem erases_ite {c : Prop} [Decidable c] {m₁ m₂ : PanicM ε ν σ α} {m₁' m₂' : PanicM ε ν (σ × List ρ) α}
    (h₁ : Erases m₁' m₁) (h₂ : Erases m₂' m₂) : Erases (if c then m₁' else m₂') (if c then m₁ else m₂) := by
  split
  · exact h₁
  · exact h₂

theorem erases_whileM {stuck : ε} {c : α → Bool} {body : α → PanicM ε ν σ α}
    {body' : α → PanicM ε ν (σ × List ρ) α} (h : ∀ a, Erases (body' a) (body a)) (n : ℕ) (a : α) :
    Erases (whileM stuck c body' n a) (whileM stuck c body n a) := by
  induction n generalizing a with
  | zero =>
    unfold whileM
    exact erases_ite (erases_panic _) (erases_pure _)
  | succ n ih =>
    unfold whileM
    exact erases_ite (erases_bind (h a) ih) (erases_pure _)

/-! ## Correctness -/

/-- Two things that hold of the same run. -/
theorem Ends.and {m : PanicM ε ν σ α} {Q R : α → σ → Prop} {E F : ε → σ → Prop} (h : Ends N m s Q E)
    (h' : Ends N m s R F) : Ends N m s (fun a t => Q a t ∧ R a t) fun e t => E e t ∧ F e t := by
  refine ⟨fun hs => ?_⟩
  have h₁ := h.out hs
  have h₂ := h'.out hs
  cases hv : (m s).val with
  | ok a =>
    rw [hv] at h₁ h₂
    exact ⟨h₁, h₂⟩
  | error e =>
    rw [hv] at h₁ h₂
    exact ⟨h₁, h₂⟩

/-- Only the run matters. -/
theorem Ends.congr {m m' : PanicM ε ν σ α} {Q : α → σ → Prop} {E : ε → σ → Prop} (h : Ends N m' s Q E)
    (he : m' s = m s) : Ends N m s Q E := by
  refine ⟨fun hs => ?_⟩
  rw [← he] at hs ⊢
  exact h.out hs

/-- What holds of the state wherever the run ends. -/
theorem Ends.state {m : PanicM ε ν σ α} {P : σ → Prop} (h : Ends N m s (fun _ t => P t) fun _ t => P t)
    (hs : ∀ n ∈ (m s).notes, n ∉ N) : P (m s).state := by
  have h' := h.out hs
  cases hv : (m s).val with
  | ok a =>
    rw [hv] at h'
    exact h'
  | error e =>
    rw [hv] at h'
    exact h'

theorem ends_lift {Q : α → σ × List ρ → Prop} {E : ε → σ × List ρ → Prop}
    (h : Ends N m x.1 (fun a t => Q a (t, x.2)) fun e t => E e (t, x.2)) : Ends N (lift m) x Q E :=
  ⟨h.out⟩

theorem ends_bind_lift {P : β → σ × List ρ → Prop} {E : ε → σ × List ρ → Prop}
    (h : Ends N m x.1 (fun a t => Ends N (k' a) (t, x.2) P E) fun e t => E e (t, x.2)) :
    Ends N (lift m >>= k') x P E :=
  ends_bind (ends_lift h)

theorem ends_bind_lift_check {p : Prop} [Decidable p] {j : Unit → PanicM ε ν (σ × List ρ) α}
    {P : α → σ × List ρ → Prop} {E : ε → σ × List ρ → Prop} (hp : p) (h : Ends N (j ()) x P E) :
    Ends N (lift (check p e) >>= j) x P E :=
  ends_bind_lift (ends_check (fun _ => h) fun hn => absurd hp hn)

theorem ends_bind_record {j : Unit → PanicM ε ν (σ × List ρ) α} {P : α → σ × List ρ → Prop}
    {E : ε → σ × List ρ → Prop} (h : Ends N (j ()) (x.1, x.2 ++ [f x.1]) P E) :
    Ends N (record f >>= j) x P E :=
  ends_bind (ends_modify h)

/-- The two runs are the same, but for the records. -/
theorem Erases.same (he : Erases m' m) (s : σ) (w : List ρ) : (m' (s, w)).val = (m s).val ∧
    (m' (s, w)).state.1 = (m s).state ∧ (m' (s, w)).notes = (m s).notes := by
  obtain ⟨w', h'⟩ := he s w
  rw [h']
  exact ⟨rfl, rfl, rfl⟩

/-- What holds of a run holds of the run with records. -/
theorem Erases.ends {Q : α → σ → Prop} {E : ε → σ → Prop} (he : Erases m' m) (h : Ends N m s Q E) :
    Ends N m' (s, w) (fun a y => Q a y.1) fun e y => E e y.1 := by
  obtain ⟨w', h'⟩ := he s w
  refine ⟨fun hs => ?_⟩
  rw [h'] at hs ⊢
  exact h.out hs

/-- What is known of the run with records, when the run itself has returned. -/
theorem Erases.of_ok {Q : α → σ × List ρ → Prop} {E : ε → σ × List ρ → Prop} {a : α} (he : Erases m' m)
    (h : Ends N m' (s, w) Q E) (hn : ∀ n ∈ (m s).notes, n ∉ N) (hv : (m s).val = .ok a) :
    Q a (m' (s, w)).state := by
  obtain ⟨hval, -, hnotes⟩ := he.same s w
  exact h.of_returns ⟨hval.trans hv, rfl, by rw [hnotes]; exact hn⟩

/-- What is known of the run with records, when the run itself has stopped. -/
theorem Erases.of_error {Q : α → σ × List ρ → Prop} {E : ε → σ × List ρ → Prop} (he : Erases m' m)
    (h : Ends N m' (s, w) Q E) (hn : ∀ n ∈ (m s).notes, n ∉ N) (hv : (m s).val = .error e) :
    E e (m' (s, w)).state := by
  obtain ⟨hval, -, hnotes⟩ := he.same s w
  have h' := h.out (by rw [hnotes]; exact hn)
  rw [hval, hv] at h'
  exact h'

/-! ## Runs that leave the state as it was -/

/-- A computation that has left the state as it was. -/
theorem bind_still {m : PanicM ε ν σ α} {k : α → PanicM ε ν σ β} {s : σ} {a : α} (h : m s = ⟨.ok a, s, []⟩) :
    (m >>= k) s = k a s := by
  change bind m k s = k a s
  unfold bind
  rw [h]
  rfl

theorem check_still {e : ε} {p : Prop} [Decidable p] {s : σ} (h : p) :
    (check p e : PanicM ε ν σ Unit) s = ⟨.ok (), s, []⟩ := by
  rw [check, if_pos h]
  rfl

theorem noteIf_still {n : ν} {p : Prop} [Decidable p] {s : σ} (h : ¬p) :
    (noteIf p n : PanicM ε ν σ Unit) s = ⟨.ok (), s, []⟩ := by
  rw [noteIf, if_neg h]
  rfl

theorem get_still {s : σ} : (get : PanicM ε ν σ σ) s = ⟨.ok s, s, []⟩ := rfl

end PanicM

end Determinator
