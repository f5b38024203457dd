import Mathlib.Logic.Relation
import Mathlib.Data.List.Infix

/-!
# Independent agents

Agents of a type `ι` take steps on a common state, in any order. An agent has at most one step in
a state, and a step may put something on a common record. If the steps of different agents commute
and only one agent writes to the record, then the order of the steps does not matter for the
record: the records of any two runs from one state agree as far as the shorter one goes.
-/

namespace Determinator

variable {ι σ β : Type}

/-- Agents, with the step each of them can take and what they record of it. -/
structure Agents (ι σ β : Type) where
  fire : ι → σ → Option σ
  out : ι → σ → List β

namespace Agents

variable {g : Agents ι σ β}

/-- Runs, with their record. -/
inductive Run (g : Agents ι σ β) (s : σ) : List β → σ → Prop
  | nil : Run g s [] s
  | snoc {l : List β} {t u : σ} {p : ι} :
      Run g s l t → g.fire p t = some u → Run g s (l ++ g.out p t) u

theorem Run.trans {s t u : σ} {l m : List β} (h : g.Run s l t) (h' : g.Run t m u) :
    g.Run s (l ++ m) u := by
  induction h' with
  | nil =>
    rw [List.append_nil]
    exact h
  | snoc _ hf ih =>
    rw [← List.append_assoc]
    exact ih.snoc hf

/-- Different agents do not get in each other's way, and only `w` writes to the record. -/
structure Independent (g : Agents ι σ β) (w : ι) : Prop where
  comm : ∀ {p q : ι} {s t u : σ}, p ≠ q → g.fire p s = some t → g.fire q s = some u →
    ∃ v, g.fire q t = some v ∧ g.fire p u = some v
  stable : ∀ {p q : ι} {s t u : σ}, p ≠ q → g.fire p s = some t → g.fire q s = some u →
    g.out q t = g.out q s
  silent : ∀ {p : ι} {s : σ}, p ≠ w → g.out p s = []

/-- One step, on a state together with the record so far. -/
def Step (g : Agents ι σ β) (x y : σ × List β) : Prop :=
  ∃ p, g.fire p x.1 = some y.1 ∧ y.2 = x.2 ++ g.out p x.1

theorem Run.steps {s t : σ} {l : List β} (h : g.Run s l t) :
    Relation.ReflTransGen g.Step (s, []) (t, l) := by
  induction h with
  | nil => exact .refl
  | snoc _ hf ih => exact ih.tail ⟨_, hf, rfl⟩

/-- The record only grows. -/
theorem prefix_of_steps {x y : σ × List β} (h : Relation.ReflTransGen g.Step x y) :
    x.2 <+: y.2 := by
  induction h with
  | refl => exact List.prefix_refl _
  | tail _ hs ih =>
    obtain ⟨p, -, he⟩ := hs
    rw [he]
    exact ih.trans (List.prefix_append _ _)

theorem Independent.diamond [DecidableEq ι] {w : ι} (h : g.Independent w) {x y z : σ × List β}
    (hy : g.Step x y) (hz : g.Step x z) :
    ∃ d, Relation.ReflGen g.Step y d ∧ Relation.ReflTransGen g.Step z d := by
  obtain ⟨s, l⟩ := x
  obtain ⟨t, _⟩ := y
  obtain ⟨u, _⟩ := z
  obtain ⟨p, hp, rfl⟩ := hy
  obtain ⟨q, hq, rfl⟩ := hz
  by_cases hpq : p = q
  · subst hpq
    obtain rfl : t = u := Option.some.inj (hp.symm.trans hq)
    exact ⟨_, .refl, .refl⟩
  · obtain ⟨v, hv, hv'⟩ := h.comm hpq hp hq
    have ht : g.out q t = g.out q s := h.stable hpq hp hq
    have hu : g.out p u = g.out p s := h.stable (Ne.symm hpq) hq hp
    -- one of the two agents is silent, so the two records are the same
    have hcomm : l ++ g.out p s ++ g.out q s = l ++ g.out q s ++ g.out p s := by
      by_cases hw : p = w
      · have hqw : q ≠ w := fun e => hpq (hw.trans e.symm)
        simp [h.silent hqw]
      · simp [h.silent hw]
    refine ⟨(v, l ++ g.out p s ++ g.out q s), .single ⟨q, hv, by rw [ht]⟩,
      .single ⟨p, hv', ?_⟩⟩
    change l ++ g.out p s ++ g.out q s = l ++ g.out q s ++ g.out p u
    rw [hu, hcomm]

/-- **The records of two runs agree**, one being a prefix of the other. -/
theorem Independent.records_agree [DecidableEq ι] {w : ι} (h : g.Independent w) {s t u : σ}
    {l m : List β} (ht : g.Run s l t) (hu : g.Run s m u) : l <+: m ∨ m <+: l := by
  obtain ⟨d, htd, hud⟩ := Relation.church_rosser
    (fun _ _ _ hy hz => h.diamond hy hz) ht.steps hu.steps
  exact List.prefix_or_prefix_of_prefix (prefix_of_steps htd) (prefix_of_steps hud)

end Agents

end Determinator
