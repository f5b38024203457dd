import Mathlib.Data.Set.Insert
import Determinator.Lib.Queue
import Determinator.Kern.Mem

/-!
# The free list

Runs of `mem_alloc` and `mem_free` from an arbitrary free list. A page is taken to be on the list
when its `free_next` is not `NULL`, and this is right for all pages of the list but the last one.

* `State.Run P`: the states that calls which meet `P` lead to. The set `out` belongs to the record
  of the run: the pages that `mem_alloc` has returned and that have not been freed since.
* `State.Right s c`: the call `c` does from `s` what it should.
* `State.run_right`: in a run in which the last page of the list is never freed the list stays a
  list without duplicates, and a call is right exactly when it does not free the last page.
-/

namespace Determinator.FreeList

/-- The calls of a run. -/
inductive Call
  | alloc
  | free (pi : Frame)

/-- The memory and the pages that are out. -/
structure State where
  mem : Mem
  out : Set Frame

/-- The page is found by following the links from `h`. -/
inductive OnList (next : Frame → Option Frame) : Option Frame → Frame → Prop
  | head (a : Frame) : OnList next (some a) a
  | tail {a c : Frame} : OnList next (next a) c → OnList next (some a) c

namespace State

/-- Carry out a call; `none` when it panics. -/
def step (s : State) : Call → Option State
  | .alloc =>
    match memAlloc s.mem with
    | ⟨.ok (some pi), m, _⟩ => some ⟨m, insert pi s.out⟩
    | ⟨.ok none, m, _⟩ => some ⟨m, s.out⟩
    | ⟨.error _, _, _⟩ => none
  | .free pi =>
    match memFree pi s.mem with
    | ⟨.ok (), m, _⟩ => some ⟨m, s.out \ {pi}⟩
    | ⟨.error _, _, _⟩ => none

/-- A page of the free list. -/
def Listed (s : State) (pi : Frame) : Prop := OnList s.mem.freeNext s.mem.freelist pi

/-- The links lead through a list without duplicates to its end. -/
def Acyclic (s : State) : Prop := ∃ l, Chain s.mem.freeNext s.mem.freelist l ∧ l.Nodup

/-- The page is the last one of the free list. -/
def Last (s : State) (pi : Frame) : Prop := s.Listed pi ∧ s.mem.freeNext pi = none

/-- The call does what it should: a page that is out is not returned again, freeing a page of the
list panics, and freeing another one does not. -/
def Right (s : State) : Call → Prop
  | .alloc => ∀ pi, (memAlloc s.mem).val = .ok (some pi) → pi ∉ s.out
  | .free pi => (s.Listed pi → ∃ e, (memFree pi s.mem).val = .error e) ∧
      (¬ s.Listed pi → (memFree pi s.mem).val = .ok ())

/-- Pages are freed without references. -/
def NoRefs (s : State) : Call → Prop
  | .alloc => True
  | .free pi => s.mem.refcount pi = 0

/-- The call does not free the last page. -/
def NotLast (s : State) : Call → Prop
  | .alloc => True
  | .free pi => ¬ s.Last pi

/-- A free list; the pages that are not on it have no link, and none is out. -/
structure Start (s : State) : Prop where
  acyclic : s.Acyclic
  unlinked : ∀ pi, ¬ s.Listed pi → s.mem.freeNext pi = none
  out : s.out = ∅

/-- The states that are reached by calls that meet `P`. -/
inductive Run (P : State → Call → Prop) : State → Prop
  | start {s : State} : s.Start → Run P s
  | step {s t : State} {c : Call} : Run P s → P s c → s.step c = some t → Run P t

/-! ## The invariant -/

/-- The links make up a list, the pages off the list have none, and no page of the list is out. -/
structure Inv (s : State) (l : List Frame) : Prop where
  chain : Chain s.mem.freeNext s.mem.freelist l
  nodup : l.Nodup
  unlinked : ∀ pi, pi ∉ l → s.mem.freeNext pi = none
  out : ∀ pi ∈ l, pi ∉ s.out

theorem onList_iff {next : Frame → Option Frame} {h : Option Frame} {l : List Frame} {a : Frame}
    (hc : Chain next h l) : OnList next h a ↔ a ∈ l := by
  induction l generalizing h with
  | nil =>
    rw [show h = none from hc]
    constructor
    · intro ho
      cases ho
    · intro ha
      cases ha
  | cons c l ih =>
    obtain ⟨rfl, hc⟩ := hc
    rw [List.mem_cons]
    constructor
    · intro ho
      cases ho with
      | head => exact .inl rfl
      | tail ho => exact .inr ((ih hc).1 ho)
    · rintro (rfl | ha)
      · exact .head a
      · exact .tail ((ih hc).2 ha)

variable {s t : State} {l : List Frame} {pi : Frame} {c : Call}

namespace Inv

theorem listed_iff (h : Inv s l) : s.Listed pi ↔ pi ∈ l := onList_iff h.chain

theorem acyclic (h : Inv s l) : s.Acyclic := ⟨l, h.chain, h.nodup⟩

/-- Without a link a page is the last one of the list or not on it. -/
theorem last_iff (h : Inv s l) : s.Last pi ↔ pi ∈ l ∧ s.mem.freeNext pi = none := by
  rw [Last, h.listed_iff]

end Inv

/-! ## The calls -/

/-- A call from a state with the invariant is right exactly when it does not free the last page. -/
theorem Inv.right_iff (h : Inv s l) (hr : s.NoRefs c) : s.Right c ↔ s.NotLast c := by
  cases c with
  | alloc =>
    refine iff_of_true ?_ trivial
    intro pi hv
    cases hf : s.mem.freelist with
    | none =>
      rw [memAlloc_none hf] at hv
      cases hv
    | some a =>
      rw [memAlloc_some hf] at hv
      obtain rfl : a = pi := by simpa using hv
      cases l with
      | nil =>
        have hc : s.mem.freelist = none := h.chain
        rw [hf] at hc
        cases hc
      | cons c l =>
        obtain rfl : a = c := Option.some.inj (hf.symm.trans h.chain.1)
        exact h.out a List.mem_cons_self
  | free pi =>
    replace hr : s.mem.refcount pi = 0 := hr
    change _ ↔ ¬ s.Last pi
    rw [h.last_iff]
    constructor
    · rintro ⟨hon, -⟩ ⟨hl, hn⟩
      obtain ⟨e, he⟩ := hon (h.listed_iff.2 hl)
      rw [memFree_unlinked hr hn] at he
      cases he
    · intro hlast
      refine ⟨fun hon => ?_, fun hoff => ?_⟩
      · have hn : s.mem.freeNext pi ≠ none := fun hn => hlast ⟨h.listed_iff.1 hon, hn⟩
        exact ⟨.freeFree, by rw [memFree_linked hr hn]⟩
      · have hn : s.mem.freeNext pi = none := h.unlinked pi fun hl => hoff (h.listed_iff.2 hl)
        rw [memFree_unlinked hr hn]

/-! ## Runs -/

theorem Inv.start (h : s.Start) : ∃ l, Inv s l := by
  obtain ⟨l, hc, hn⟩ := h.acyclic
  refine ⟨l, hc, hn, ?_, ?_⟩
  · intro pi hpi
    exact h.unlinked pi fun ho => hpi ((onList_iff hc).1 ho)
  · intro pi _
    rw [h.out]
    exact Set.notMem_empty pi

theorem Inv.alloc (h : Inv s l) (ht : s.step .alloc = some t) : ∃ l', Inv t l' := by
  cases l with
  | nil =>
    have hf : s.mem.freelist = none := h.chain
    simp only [State.step, memAlloc_none hf, Option.some.injEq] at ht
    subst ht
    exact ⟨[], h.chain, h.nodup, h.unlinked, h.out⟩
  | cons a l =>
    obtain ⟨hf, hc⟩ := h.chain
    obtain ⟨hal, hn⟩ := List.nodup_cons.1 h.nodup
    simp only [State.step, memAlloc_some hf, Option.some.injEq] at ht
    subst ht
    refine ⟨l, hc.update hal none, hn, ?_, ?_⟩
    · intro pi hpi
      by_cases hpa : pi = a
      · subst hpa
        exact Function.update_self ..
      · refine (Function.update_of_ne hpa _ _).trans (h.unlinked pi fun hm => ?_)
        rcases List.mem_cons.1 hm with e | hm
        · exact hpa e
        · exact hpi hm
    · intro pi hpi hout
      rcases Set.mem_insert_iff.1 hout with rfl | hout
      · exact hal hpi
      · exact h.out pi (List.mem_cons_of_mem a hpi) hout

theorem Inv.free (h : Inv s l) (hr : s.mem.refcount pi = 0) (hlast : ¬ s.Last pi)
    (ht : s.step (.free pi) = some t) : ∃ l', Inv t l' := by
  by_cases hn : s.mem.freeNext pi = none
  · have hpl : pi ∉ l := fun hl => hlast (h.last_iff.2 ⟨hl, hn⟩)
    simp only [State.step, memFree_unlinked hr hn, Option.some.injEq] at ht
    subst ht
    refine ⟨pi :: l, ⟨rfl, ?_⟩, List.nodup_cons.2 ⟨hpl, h.nodup⟩, ?_, ?_⟩
    · simp only [Mem.given, Function.update_self]
      exact h.chain.update hpl _
    · intro a ha
      rw [List.mem_cons, not_or] at ha
      exact (Function.update_of_ne ha.1 _ _).trans (h.unlinked a ha.2)
    · rintro a ha ⟨hout, hne⟩
      rcases List.mem_cons.1 ha with rfl | ha
      · exact hne rfl
      · exact h.out a ha hout
  · simp only [State.step, memFree_linked hr hn] at ht
    cases ht

theorem Run.inv (h : Run (fun s c => s.NoRefs c ∧ s.NotLast c) s) : ∃ l, Inv s l := by
  induction h with
  | start h => exact Inv.start h
  | @step s t c _ hP ht ih =>
    obtain ⟨l, hl⟩ := ih
    cases c with
    | alloc => exact hl.alloc ht
    | free pi => exact hl.free hP.1 hP.2 ht

/-- In every run that frees pages without references only, and never the last page of the list, the
free list has no cycle and no duplicate, and every call is right unless it frees the last page. -/
theorem run_right (h : Run (fun s c => s.NoRefs c ∧ s.NotLast c) s) :
    s.Acyclic ∧ ∀ c, s.NoRefs c → (s.Right c ↔ s.NotLast c) := by
  obtain ⟨l, hl⟩ := h.inv
  exact ⟨hl.acyclic, fun c hc => hl.right_iff hc⟩

/-- Two free pages, the first linked to the second. -/
def twoPages : State where
  mem :=
    { page := fun _ => Page.zeros
      refcount := fun _ => 0
      freeNext := fun f => if f = 2 then some 3 else none
      freelist := some 2
      dry := false }
  out := ∅

theorem start_twoPages : twoPages.Start := by
  have hc : Chain twoPages.mem.freeNext twoPages.mem.freelist [2, 3] := ⟨rfl, rfl, rfl⟩
  refine ⟨⟨[2, 3], hc, by decide⟩, ?_, rfl⟩
  intro pi hpi
  have hne : pi ≠ 2 := by
    rintro rfl
    exact hpi ((onList_iff hc).2 (by decide))
  exact if_neg hne

theorem run_right_twoPages : twoPages.Acyclic ∧
    (twoPages.Right (.free 2) ↔ twoPages.NotLast (.free 2)) := by
  obtain ⟨ha, hr⟩ := run_right (.start start_twoPages)
  exact ⟨ha, hr (.free 2) rfl⟩

/-- Links that go round in a circle do not come to an end. -/
theorem not_chain_circle {next : Frame → Option Frame} {a c : Frame} (ha : next a = some c)
    (hc : next c = some a) (l : List Frame) :
    ¬ Chain next (some a) l ∧ ¬ Chain next (some c) l := by
  induction l with
  | nil => exact ⟨by simp [Chain], by simp [Chain]⟩
  | cons d l ih =>
    constructor
    · rintro ⟨hd, h⟩
      obtain rfl := Option.some.inj hd
      rw [ha] at h
      exact ih.2 h
    · rintro ⟨hd, h⟩
      obtain rfl := Option.some.inj hd
      rw [hc] at h
      exact ih.1 h

/-- Freeing the last page once more does not panic. The list then has a cycle, and the page is
returned a second time while it is out. -/
theorem run_free_last : ∃ t u v : State, twoPages.Start ∧ twoPages.NoRefs (.free 3) ∧
    twoPages.Listed 3 ∧ twoPages.step (.free 3) = some t ∧ ¬ twoPages.Right (.free 3) ∧
    ¬ t.Acyclic ∧ t.step .alloc = some u ∧ u.step .alloc = some v ∧ ¬ v.Right .alloc := by
  have hon : twoPages.Listed 3 := .tail (.head 3)
  refine ⟨_, _, _, start_twoPages, rfl, hon, rfl, ?_, ?_, rfl, rfl, ?_⟩
  · intro h
    obtain ⟨e, he⟩ := h.1 hon
    cases he
  · rintro ⟨l, hl, -⟩
    exact (not_chain_circle (a := 3) (c := 2) rfl rfl l).1 hl
  · intro h
    exact h 3 rfl (.inr (.inl rfl))

end State

end Determinator.FreeList
