import Mathlib.Data.List.Basic
import Mathlib.Data.List.Flatten

/-!
# Mutual exclusion

An agent may change the data that a mutex protects while it has the mutex. So in every run the changes of an agent
between the time it takes the mutex and the time it gives it back are not mixed with those of other agents, and the data
is what whole sections have made of it, one after the other (`Run.serial`).
-/

namespace Determinator

variable {ι σ : Type}

/-- What agents do with a mutex and the data it protects. An agent that asks is told whether it has the mutex. -/
inductive MutexEvent (ι σ : Type)
  | take (i : ι)
  | drop (i : ι)
  | act (i : ι) (f : σ → σ)
  | ask (i : ι) (b : Bool)

/-- The event is more than a question. -/
def MutexEvent.changes : MutexEvent ι σ → Bool
  | .ask _ _ => false
  | _ => true

/-- A mutex, with its owner and the data it protects. -/
structure Mutex (ι σ : Type) where
  owner : Option ι
  data : σ

namespace Mutex

variable {m m' m'' : Mutex ι σ} {e : MutexEvent ι σ} {es es' : List (MutexEvent ι σ)} {d : σ} {i : ι}

inductive Step : Mutex ι σ → MutexEvent ι σ → Mutex ι σ → Prop
  | take (i : ι) (d : σ) : Step ⟨none, d⟩ (.take i) ⟨some i, d⟩
  | drop (i : ι) (d : σ) : Step ⟨some i, d⟩ (.drop i) ⟨none, d⟩
  | act (i : ι) (d : σ) (f : σ → σ) : Step ⟨some i, d⟩ (.act i f) ⟨some i, f d⟩
  | ask (i : ι) (b : Bool) (m : Mutex ι σ) : (b = true ↔ m.owner = some i) → Step m (.ask i b) m

/-- Runs, with their events. -/
inductive Run (m : Mutex ι σ) : List (MutexEvent ι σ) → Mutex ι σ → Prop
  | nil : Run m [] m
  | snoc {m' m'' : Mutex ι σ} {e : MutexEvent ι σ} {es : List (MutexEvent ι σ)} :
      Run m es m' → Step m' e m'' → Run m (es ++ [e]) m''

theorem Run.single (h : Step m e m') : Run m [e] m' := Run.nil.snoc h

theorem Run.trans (h : Run m es m') (h' : Run m' es' m'') : Run m (es ++ es') m'' := by
  induction h' with
  | nil =>
    rw [List.append_nil]
    exact h
  | snoc _ hs ih =>
    rw [← List.append_assoc]
    exact ih.snoc hs

/-! ## Sections -/

/-- The events of a section that has not ended: the agent has made these changes. -/
def opened (i : ι) (fs : List (σ → σ)) : List (MutexEvent ι σ) := .take i :: fs.map (.act i)

/-- The events of a section that has ended. -/
def closed (i : ι) (fs : List (σ → σ)) : List (MutexEvent ι σ) := opened i fs ++ [.drop i]

/-- Make the changes. -/
def apply (fs : List (σ → σ)) (d : σ) : σ := fs.foldl (fun d f => f d) d

/-- The events of sections one after the other. -/
def closedAll (ss : List (ι × List (σ → σ))) : List (MutexEvent ι σ) := ss.flatMap fun s => closed s.1 s.2

/-- What sections one after the other make of the data. -/
def applyAll (ss : List (ι × List (σ → σ))) (d : σ) : σ := ss.foldl (fun d s => apply s.2 d) d

theorem opened_snoc (i : ι) (fs : List (σ → σ)) (f : σ → σ) : opened i (fs ++ [f]) = opened i fs ++ [.act i f] := by
  simp [opened]

theorem apply_snoc (fs : List (σ → σ)) (f : σ → σ) (d : σ) : apply (fs ++ [f]) d = f (apply fs d) := by
  simp [apply]

theorem closedAll_snoc (ss : List (ι × List (σ → σ))) (i : ι) (fs : List (σ → σ)) :
    closedAll (ss ++ [(i, fs)]) = closedAll ss ++ closed i fs := by
  simp [closedAll]

theorem applyAll_snoc (ss : List (ι × List (σ → σ))) (i : ι) (fs : List (σ → σ)) (d : σ) :
    applyAll (ss ++ [(i, fs)]) d = apply fs (applyAll ss d) := by
  simp [applyAll]

/-- The events are those of whole sections, one after the other, and of the section that the owner is in, if there is
an owner; and the data is what the sections make of it. -/
def Serial (d : σ) (es : List (MutexEvent ι σ)) (m : Mutex ι σ) : Prop :=
  ∃ ss : List (ι × List (σ → σ)),
    (m.owner = none ∧ es.filter MutexEvent.changes = closedAll ss ∧ m.data = applyAll ss d) ∨
    ∃ i fs, m.owner = some i ∧ es.filter MutexEvent.changes = closedAll ss ++ opened i fs ∧
      m.data = apply fs (applyAll ss d)

theorem Serial.step (h : Serial d es m) (hs : Step m e m') : Serial d (es ++ [e]) m' := by
  obtain ⟨ss, h⟩ := h
  cases hs with
  | take i d' =>
    obtain ⟨-, hes, hd⟩ | ⟨j, fs, ho, -, -⟩ := h
    · refine ⟨ss, .inr ⟨i, [], rfl, ?_, hd⟩⟩
      rw [List.filter_append, hes]
      rfl
    · simp at ho
  | drop i d' =>
    obtain ⟨ho, -, -⟩ | ⟨j, fs, ho, hes, hd⟩ := h
    · simp at ho
    · refine ⟨ss ++ [(j, fs)], .inl ⟨rfl, ?_, ?_⟩⟩
      · obtain rfl : i = j := by simpa using ho
        rw [List.filter_append, hes, closedAll_snoc, closed, List.append_assoc]
        rfl
      · rw [applyAll_snoc]
        exact hd
  | act i d' f =>
    obtain ⟨ho, -, -⟩ | ⟨j, fs, ho, hes, hd⟩ := h
    · simp at ho
    · refine ⟨ss, .inr ⟨j, fs ++ [f], ho, ?_, ?_⟩⟩
      · obtain rfl : i = j := by simpa using ho
        rw [List.filter_append, hes, opened_snoc, List.append_assoc]
        rfl
      · rw [apply_snoc, ← hd]
  | ask i b _ _ =>
    have hes : (es ++ [MutexEvent.ask i b]).filter MutexEvent.changes = es.filter MutexEvent.changes := by
      rw [List.filter_append]
      exact List.append_nil _
    rw [Serial, hes]
    exact ⟨ss, h⟩

theorem Run.serial (h : Run ⟨none, d⟩ es m) : Serial d es m := by
  induction h with
  | nil => exact ⟨[], .inl ⟨rfl, rfl, rfl⟩⟩
  | snoc _ hs ih => exact ih.step hs

end Mutex

end Determinator
