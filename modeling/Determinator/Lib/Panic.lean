import Mathlib.Tactic.Common

/-!
# A state monad with panics

Computations over a state `σ` that return a value or stop with a reason of type `ε`. A
computation that stops keeps the state it had reached, so that what it did before can be
spoken of. Next to the state a computation leaves a list of notes of a type `ν` (`note`), which
mark the places it has come by; the notes belong to the record of the run and no computation reads
them.

* `Ends N m s Q E`: unless a note of the set `N` is made, `m` from `s` returns and `Q` holds of its
  value and final state, or it stops and `E` holds of the reason and of the state it had reached.
* `Meets N m s Q`: it returns. `Meets` is a total-correctness statement: a panic does not meet
  anything.
* `Returns N m s a t`: `m` from `s` returned `a` in `t`, without a note of the set `N`.
* `whileM` is the loop of an imperative program, with fuel; `ends_whileM` is its invariant rule,
  which also asks for a variant, so that a loop that returns has ended by itself.
-/

namespace Determinator

/-- What a run leaves: its value or the reason it stopped, the state it reached, and the notes it
has made on the way. -/
structure Out (ε ν σ α : Type) where
  val : Except ε α
  state : σ
  notes : List ν

/-- Computations over a state `σ` that may stop with a reason `ε` and make notes `ν`. -/
def PanicM (ε ν σ α : Type) : Type := σ → Out ε ν σ α

namespace PanicM

variable {ε ν σ α β : Type}

/-- Run `f` on the value of `m`, if there is one. -/
def bind (m : PanicM ε ν σ α) (f : α → PanicM ε ν σ β) : PanicM ε ν σ β := fun s =>
  match m s with
  | ⟨.ok a, t, w⟩ =>
    match f a t with
    | ⟨v, u, w'⟩ => ⟨v, u, w ++ w'⟩
  | ⟨.error e, t, w⟩ => ⟨.error e, t, w⟩

instance : Monad (PanicM ε ν σ) where
  pure a := fun s => ⟨.ok a, s, []⟩
  bind := bind

/-- The current state. -/
def get : PanicM ε ν σ σ := fun s => ⟨.ok s, s, []⟩

/-- Change the state. -/
def modify (f : σ → σ) : PanicM ε ν σ Unit := fun s => ⟨.ok (), f s, []⟩

/-- Stop. -/
def panic (e : ε) : PanicM ε ν σ α := fun s => ⟨.error e, s, []⟩

/-- Make a note. -/
def note (n : ν) : PanicM ε ν σ Unit := fun s => ⟨.ok (), s, [n]⟩

/-- Make a note if `p` holds. -/
def noteIf (p : Prop) [Decidable p] (n : ν) : PanicM ε ν σ Unit :=
  if p then note n else pure ()

/-- Stop unless `p` holds. -/
def check (p : Prop) [Decidable p] (e : ε) : PanicM ε ν σ Unit :=
  if p then pure () else panic e

/-- A loop: while `c` holds of the loop variables `b`, run `body` on them. The fuel bounds the
number of rounds; running out of it is a panic. -/
def whileM (stuck : ε) (c : β → Bool) (body : β → PanicM ε ν σ β) : ℕ → β → PanicM ε ν σ β
  | 0, b => if c b then panic stuck else pure b
  | n + 1, b => if c b then body b >>= whileM stuck c body n else pure b

/-- Run `f` on the elements of a list in turn. -/
def each (f : α → PanicM ε ν σ Unit) : List α → PanicM ε ν σ Unit
  | [] => pure ()
  | a :: as => do f a; each f as

/-! ## Correctness -/

/-- Unless a note of `N` is made, `m` returns from `s` and `Q` holds of its value and final state,
or it stops and `E` holds of the reason and the state. -/
structure Ends (N : Set ν) (m : PanicM ε ν σ α) (s : σ) (Q : α → σ → Prop) (E : ε → σ → Prop) :
    Prop where
  out : (∀ n ∈ (m s).notes, n ∉ N) →
    match (m s).val with
    | .ok a => Q a (m s).state
    | .error e => E e (m s).state

/-- Unless a note of `N` is made, `m` returns from `s` and `Q` holds of its value and final
state. -/
def Meets (N : Set ν) (m : PanicM ε ν σ α) (s : σ) (Q : α → σ → Prop) : Prop :=
  Ends N m s Q fun _ _ => False

/-- `m` returned `a` from `s`, in the state `t`, without a note of `N`. -/
structure Returns (N : Set ν) (m : PanicM ε ν σ α) (s : σ) (a : α) (t : σ) : Prop where
  val : (m s).val = .ok a
  state : (m s).state = t
  notes : ∀ n ∈ (m s).notes, n ∉ N

variable {N M : Set ν} {m : PanicM ε ν σ α} {f : α → PanicM ε ν σ β} {s t : σ} {a : α} {n : ν}
  {e : ε} {Q R : α → σ → Prop} {P : β → σ → Prop} {E F : ε → σ → Prop}

theorem Ends.of_returns (h : Ends N m s Q E) (hr : Returns N m s a t) : Q a t := by
  have h' := h.out hr.notes
  rw [hr.val, hr.state] at h'
  exact h'

theorem Ends.mono (h : Ends N m s Q E) (hQ : ∀ a t, Q a t → R a t)
    (hE : ∀ e t, E e t → F e t) : Ends N m s R F := by
  refine ⟨fun hs => ?_⟩
  have h' := h.out hs
  cases hv : (m s).val with
  | ok a =>
    rw [hv] at h'
    exact hQ a _ h'
  | error e =>
    rw [hv] at h'
    exact hE e _ h'

/-- The value and the state are those of the run. -/
theorem Ends.run (h : Ends N m s Q E) : Ends N m s (fun a t => Q a t ∧ Returns N m s a t) E := by
  refine ⟨fun hs => ?_⟩
  have h' := h.out hs
  cases hv : (m s).val with
  | ok a =>
    rw [hv] at h'
    exact ⟨h', hv, rfl, hs⟩
  | error e =>
    rw [hv] at h'
    exact h'

theorem Ends.imp (h : Ends N m s Q E) (hQ : ∀ a t, Q a t → R a t) : Ends N m s R E :=
  h.mono hQ fun _ _ he => he

/-- What never stops ends any way. -/
theorem Meets.ends (h : Meets N m s Q) : Ends N m s Q E := h.mono (fun _ _ hq => hq) fun _ _ => nofun

/-- The more notes are excluded, the less there is to show. -/
theorem Ends.notes_mono (h : Ends N m s Q E) (hN : N ⊆ M) : Ends M m s Q E :=
  ⟨fun hs => h.out fun n hn hnN => hs n hn (hN hnN)⟩

theorem Meets.returns (h : Meets N m s Q) (hs : ∀ n ∈ (m s).notes, n ∉ N) :
    ∃ a t, Returns N m s a t ∧ Q a t := by
  have h' := h.out hs
  cases hv : (m s).val with
  | ok a =>
    rw [hv] at h'
    exact ⟨a, _, ⟨hv, rfl, hs⟩, h'⟩
  | error e =>
    rw [hv] at h'
    exact h'.elim

@[simp] theorem ends_pure : Ends N (pure a : PanicM ε ν σ α) s Q E ↔ Q a s :=
  ⟨fun h => h.out (by simp [pure]), fun h => ⟨fun _ => h⟩⟩

theorem ends_panic (h : E e s) : Ends N (panic e : PanicM ε ν σ α) s Q E := ⟨fun _ => h⟩

/-- A sequence ends as the rest does from wherever the first part returns. -/
theorem ends_bind (h : Ends N m s (fun a t => Ends N (f a) t P E) E) : Ends N (m >>= f) s P E := by
  refine ⟨fun hs => ?_⟩
  change ∀ n ∈ (bind m f s).notes, n ∉ N at hs
  change match (bind m f s).val with
    | .ok a => P a (bind m f s).state
    | .error e => E e (bind m f s).state
  unfold bind at hs ⊢
  replace h := h.out
  rcases hm : m s with ⟨v, t, w⟩
  rw [hm] at h hs
  cases v with
  | error e => exact h hs
  | ok a =>
    simp only at hs ⊢
    rcases hf : f a t with ⟨v', u, w'⟩
    rw [hf] at hs
    simp only [List.mem_append] at hs
    have h' := (h fun n hn => hs n (.inl hn)).out
    simp only [hf] at h'
    exact h' fun n hn => hs n (.inr hn)

theorem ends_get {Q : σ → σ → Prop} (h : Q s s) : Ends N (get : PanicM ε ν σ σ) s Q E :=
  ⟨fun _ => h⟩

theorem ends_modify {g : σ → σ} {Q : Unit → σ → Prop} (h : Q () (g s)) :
    Ends N (modify g : PanicM ε ν σ Unit) s Q E :=
  ⟨fun _ => h⟩

theorem ends_check {p : Prop} [Decidable p] {Q : Unit → σ → Prop} (h : p → Q () s)
    (he : ¬p → E e s) : Ends N (check p e : PanicM ε ν σ Unit) s Q E := by
  unfold check
  split
  next hp => exact ends_pure.2 (h hp)
  next hp => exact ends_panic (he hp)

/-- After a note of `N` there is nothing left to show. -/
theorem ends_noteIf {p : Prop} [Decidable p] {Q : Unit → σ → Prop}
    (h : (n ∈ N → ¬p) → Q () s) : Ends N (noteIf p n : PanicM ε ν σ Unit) s Q E := by
  unfold noteIf
  split
  next hp =>
    refine ⟨fun hs => ?_⟩
    have hn : n ∉ N := hs n (by simp [note])
    exact h fun hn' => absurd hn' hn
  next hp => exact ends_pure.2 (h fun _ => hp)

theorem ends_bind_get {k : σ → PanicM ε ν σ β} (h : Ends N (k s) s P E) :
    Ends N (get >>= k) s P E :=
  ends_bind (ends_get h)

theorem ends_bind_check {p : Prop} [Decidable p] {k : Unit → PanicM ε ν σ β} (hp : p)
    (h : Ends N (k ()) s P E) : Ends N (check p e >>= k) s P E :=
  ends_bind (ends_check (fun _ => h) fun hn => absurd hp hn)

theorem ends_bind_noteIf {p : Prop} [Decidable p] {k : Unit → PanicM ε ν σ β}
    (h : (n ∈ N → ¬p) → Ends N (k ()) s P E) : Ends N (noteIf p n >>= k) s P E :=
  ends_bind (ends_noteIf h)

theorem ends_ite {c : Prop} [Decidable c] {m₁ m₂ : PanicM ε ν σ α} (h₁ : c → Ends N m₁ s Q E)
    (h₂ : ¬c → Ends N m₂ s Q E) : Ends N (if c then m₁ else m₂) s Q E := by
  split
  next hc => exact h₁ hc
  next hc => exact h₂ hc

/-- **The rule for loops**: an invariant, and a variant within the fuel that is positive as long
as the loop goes on and that every round lowers. -/
theorem ends_whileM {stuck : ε} {c : β → Bool} {body : β → PanicM ε ν σ β} {I : β → σ → Prop}
    (V : β → ℕ) (pos : ∀ b s, I b s → c b = true → 0 < V b)
    (step : ∀ b s, I b s → c b = true → Ends N (body b) s (fun b' t => I b' t ∧ V b' < V b) E)
    (done : ∀ b s, I b s → c b = false → P b s) (n : ℕ) (b : β) (s : σ) (hV : V b ≤ n)
    (hI : I b s) : Ends N (whileM stuck c body n b) s P E := by
  induction n generalizing b s with
  | zero =>
    have hc : c b = false := by
      by_contra hc
      have := pos b s hI (by simpa using hc)
      omega
    unfold whileM
    rw [if_neg (by simp [hc])]
    exact ends_pure.2 (done b s hI hc)
  | succ n ih =>
    unfold whileM
    refine ends_ite (fun hc => ?_) fun hc => ?_
    · refine ends_bind ((step b s hI hc).imp ?_)
      rintro b' t ⟨hI', hlt⟩
      exact ih b' t (by omega) hI'
    · exact ends_pure.2 (done b s hI (by simpa using hc))

/-- The rule for a run over a list: an invariant that speaks of the elements still to come. -/
theorem ends_each {f : α → PanicM ε ν σ Unit} {I : List α → σ → Prop} {P : Unit → σ → Prop}
    (step : ∀ a as s, I (a :: as) s → Ends N (f a) s (fun _ t => I as t) E)
    (done : ∀ s, I [] s → P () s) (as : List α) (s : σ) (hI : I as s) :
    Ends N (each f as) s P E := by
  induction as generalizing s with
  | nil => exact ends_pure.2 (done s hI)
  | cons a as ih => exact ends_bind ((step a as s hI).imp fun _ t ht => ih t ht)

end PanicM

end Determinator
