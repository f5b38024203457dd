import Determinator.Pthread.Join

/-!
# What a barrier releases

`wait_at_barrier` with the shared memory: each thread has a copy of it that is merged into the
parent's when the parent looks at the thread, and a new copy when it is restarted. What the merge
does with two changes in one place is left open.

When `wait_at_barrier` returns 0 it has restarted as many threads as the barrier has, and all of
them with the memory of the parent after the merges. They are threads that wait at the barrier if
and only if none of the threads that it looked for has exited with a value that ends in the number
of the barrier.
-/

namespace Determinator.Pthread

/-! ## Shared memory -/

/-- What a thread has of the shared memory, and what it was given at its last start. -/
structure View (Mem : Type) where
  mem : Mem
  snap : Mem

/-- The shared memory of the parent and of its threads. -/
structure Shared (Mem : Type) where
  parent : Mem
  thread : ℕ → View Mem

namespace Shared

variable {Mem : Type} (merge : Mem → View Mem → Mem) (m : Shared Mem)

/-- `sys_get` with `SYS_MERGE`. -/
def get (th : ℕ) : Shared Mem := { m with parent := merge m.parent (m.thread th) }

/-- `sys_put` with `SYS_COPY` and `SYS_SNAP`. -/
def put (th : ℕ) : Shared Mem :=
  { m with thread := Function.update m.thread th ⟨m.parent, m.parent⟩ }

end Shared

section model

variable {Mem : Type} (merge : Mem → View Mem → Mem) (stops : ℕ → ℕ → Stop)

/-- The loop of `wait_at_barrier`, as `collect`, with the merges. -/
def collectShared (first : ℕ) (barrier : Barrier) (count : ℤ) :
    List ℕ → List ℕ → Parent → Shared Mem → Except Site (Option (List ℕ) × Parent × Shared Mem)
  | [], threads, σ, m => return (some threads, σ, m)
  | th :: ths, threads, σ, m =>
    if ¬ threads.length < count then return (some threads, σ, m)
    else if th = first ∨ σ.forked th = false then
      collectShared first barrier count ths threads σ m
    else do
      let m := m.get merge th
      let stop := σ.stop stops th
      if stop = .trap then return (none, σ, m)
      require (barrier = barrierRead stop.edx) .waitAtBarrier
      collectShared first barrier count ths (threads ++ [th]) (σ.take stop (some barrier)) m

/-- `wait_at_barrier`, as `waitAtBarrier`, with the shared memory. -/
def waitAtBarrierShared (first : ℕ) (barrier : Barrier) (σ : Parent) (m : Shared Mem) :
    Except Site (ℤ × Parent × Shared Mem) := do
  let count := σ.barriers barrier
  let (threads, σ, m) ←
    collectShared merge stops first barrier count (List.range' 1 (procChildren - 1)) [first] σ m
  match threads with
  | none => return (-1, σ, m)
  | some threads =>
    if threads.length < count then return (threads.length, σ, m)
    else
      let threads := threads.take count.toNat
      return (0, σ.restart threads, threads.foldl Shared.put m)

end model

/-! ## Merging -/

section merging

variable {Mem : Type} {merge : Mem → View Mem → Mem} {stops : ℕ → ℕ → Stop} {th : ℕ} {b : Barrier}
  {count : ℤ} {σ τ : Parent} {m m' : Shared Mem}

/-- The memory of the parent after these threads have been merged. -/
def Shared.merged (merge : Mem → View Mem → Mem) (m : Shared Mem) (ts : List ℕ) : Mem :=
  ts.foldl (fun p t => merge p (m.thread t)) m.parent

/-- Merging leaves the threads alone. -/
theorem Shared.foldl_get (m : Shared Mem) (ts : List ℕ) :
    ts.foldl (fun m t => m.get merge t) m = ⟨m.merged merge ts, m.thread⟩ := by
  induction ts generalizing m with
  | nil => rfl
  | cons t ts ih => exact ih (m.get merge t)

/-- Restarted threads have the memory of the parent, the others what they had. -/
theorem Shared.foldl_put (m : Shared Mem) (ts : List ℕ) :
    (ts.foldl Shared.put m).parent = m.parent ∧ ∀ t, (ts.foldl Shared.put m).thread t =
      if t ∈ ts then ⟨m.parent, m.parent⟩ else m.thread t := by
  induction ts generalizing m with
  | nil => simp
  | cons t ts ih =>
    obtain ⟨hp, ht⟩ := ih (m.put t)
    refine ⟨hp, fun u => ?_⟩
    rw [List.foldl_cons, ht u]
    by_cases hu : u ∈ ts
    · rw [if_pos hu, if_pos (List.mem_cons_of_mem t hu)]
      rfl
    · rw [if_neg hu]
      by_cases hut : u = t
      · rw [hut, if_pos List.mem_cons_self]
        exact Function.update_self ..
      · rw [if_neg (by simp [hut, hu])]
        exact Function.update_of_ne hut _ _

/-- The loop finds the threads as without the memory, merges them, and has found each of them at
something that reads as the barrier. -/
theorem collectShared_some {ts' : List ℕ} (ths ts : List ℕ) (σ : Parent) (m : Shared Mem)
    (h : collectShared merge stops th b count ths ts σ m = .ok (some ts', τ, m')) :
    collect stops th b count ths ts σ = .ok (some ts', τ) ∧
      ∃ new, ts' = ts ++ new ∧ m' = ⟨m.merged merge new, m.thread⟩ ∧
        ∀ t ∈ new, σ.stop stops t ≠ .trap ∧ b = barrierRead (σ.stop stops t).edx := by
  induction ths generalizing ts σ m with
  | nil =>
    cases h
    exact ⟨rfl, [], by simp, rfl, fun _ ht => nomatch ht⟩
  | cons t ths ih =>
    rw [collectShared] at h
    rw [collect]
    by_cases hfull : ¬ (ts.length : ℤ) < count
    · rw [if_pos hfull] at h ⊢
      cases h
      exact ⟨rfl, [], by simp, rfl, fun _ ht => nomatch ht⟩
    · rw [if_neg hfull] at h ⊢
      by_cases hskip : t = th ∨ σ.forked t = false
      · rw [if_pos hskip] at h ⊢
        exact ih ts σ m h
      · rw [if_neg hskip] at h ⊢
        dsimp only at h ⊢
        by_cases htrap : σ.stop stops t = .trap
        · rw [if_pos htrap] at h
          cases h
        · rw [if_neg htrap, require_bind_ok] at h
          obtain ⟨hb, h⟩ := h
          obtain ⟨hc, new, hts, hm, hnew⟩ := ih _ _ _ h
          rw [if_neg htrap, require_bind hb]
          refine ⟨hc, t :: new, ?_, hm, ?_⟩
          · rw [hts, List.append_assoc]
            rfl
          · intro u hu
            rcases List.mem_cons.1 hu with rfl | hu
            · exact ⟨htrap, hb⟩
            · exact hnew u hu

/-- The participants of a barrier are other threads, each once. -/
theorem participants_nodup : (th :: participants σ th b).Nodup := by
  rw [List.nodup_cons]
  constructor
  · intro h
    have h' := List.of_mem_filter (List.mem_of_mem_take h)
    simp at h'
  · exact List.Nodup.sublist ((List.take_sublist _ _).trans List.filter_sublist) List.nodup_range'

/-- The threads that `wait_at_barrier` restarts when it returns 0. -/
def released (σ : Parent) (th : ℕ) (b : Barrier) : List ℕ :=
  (th :: participants σ th b).take (σ.barriers b).toNat

/-- What `wait_at_barrier` has done when it returns 0. -/
theorem waitAtBarrierShared_zero (h : waitAtBarrierShared merge stops th b σ m = .ok (0, τ, m')) :
    (released σ th b).length = (σ.barriers b).toNat ∧
      (∀ t, τ.pos t = if t ∈ released σ th b then σ.pos t + 1 else σ.pos t) ∧
      m'.parent = m.merged merge (participants σ th b) ∧
      (∀ t, m'.thread t = if t ∈ released σ th b then ⟨m'.parent, m'.parent⟩ else m.thread t) ∧
      ∀ t ∈ participants σ th b, σ.stop stops t ≠ .trap ∧
        b = barrierRead (σ.stop stops t).edx := by
  rw [waitAtBarrierShared] at h
  dsimp only at h
  rw [bind_ok] at h
  obtain ⟨⟨r, σ', m₁⟩, hrun, h⟩ := h
  cases r with
  | none => cases h
  | some ts =>
    obtain ⟨hc, new, hts, rfl, hnew⟩ := collectShared_some _ _ _ _ hrun
    obtain ⟨hts', rfl⟩ := collect_some _ _ _ hc
    rw [missing_eq] at hts'
    obtain rfl : new = participants σ th b := List.append_cancel_left (hts.symm.trans hts')
    subst hts
    dsimp only at h
    split at h
    case isTrue =>
      cases h
    case isFalse henough =>
      have hlen : (released σ th b).length = (σ.barriers b).toNat := by
        rw [released, List.length_take]
        rw [List.singleton_append] at henough
        omega
      cases h
      obtain ⟨hp, ht⟩ := Shared.foldl_put (⟨m.merged merge (participants σ th b), m.thread⟩ : Shared Mem)
        (released σ th b)
      refine ⟨hlen, fun t => rfl, hp, ?_, hnew⟩
      intro t
      rw [← hp] at ht
      exact ht t

end merging

/-! ## The release -/

section release

variable {Mem : Type} {merge : Mem → View Mem → Mem} {stops : ℕ → ℕ → Stop} {th : ℕ} {b : Barrier}
  {σ τ : Parent} {m m' : Shared Mem}

/-- A barrier has released its participants: as many threads have been restarted as it is for, all of
them waited there, and all see the memory of the parent, into which all have been merged. -/
structure Releases (merge : Mem → View Mem → Mem) (stops : ℕ → ℕ → Stop) (th : ℕ) (b : Barrier)
    (σ τ : Parent) (m m' : Shared Mem) : Prop where
  count : ∃ ts : List ℕ, ts.Nodup ∧ ts.length = (σ.barriers b).toNat ∧
    ∀ t, t ∈ ts ↔ τ.pos t ≠ σ.pos t
  waits : ∀ t, τ.pos t ≠ σ.pos t → σ.stop stops t = .wait b
  view : ∀ t, τ.pos t ≠ σ.pos t → m'.thread t = ⟨m'.parent, m'.parent⟩
  parent : m'.parent = m.merged merge (th :: participants σ th b)

/-- Where there are participants besides the thread, all of them are restarted. -/
theorem released_eq {t : ℕ} (h : t ∈ participants σ th b) :
    released σ th b = th :: participants σ th b := by
  have hlen : (participants σ th b).length ≤ (σ.barriers b).toNat - 1 := List.length_take_le _ _
  have hpos := List.length_pos_of_mem h
  apply List.take_of_length_le
  rw [List.length_cons]
  omega

/-- When `wait_at_barrier` returns 0 for a thread that waits at a barrier and has been merged, the
barrier has released its participants if and only if none of the threads that it looked for has
exited with a value that ends in the number of the barrier. -/
theorem waitAtBarrier_releases_iff (merge : Mem → View Mem → Mem) (stops : ℕ → ℕ → Stop) (th : ℕ)
    (b : Barrier) (σ τ : Parent) (m m' : Shared Mem) (hth : σ.stop stops th = .wait b)
    (h : waitAtBarrierShared merge stops th b σ (m.get merge th) = .ok (0, τ, m')) :
    Releases merge stops th b σ τ m m' ↔
      ∀ t ∈ participants σ th b, ∀ v, σ.stop stops t = .ret v → barrierRead (v.setWidth 32) ≠ b := by
  obtain ⟨hlen, hpos, hparent, hthread, hnew⟩ := waitAtBarrierShared_zero h
  have hmem (t : ℕ) : t ∈ released σ th b ↔ τ.pos t ≠ σ.pos t := by
    rw [hpos t]
    split <;> simp_all
  constructor
  · intro hr t ht v hv
    have hin : t ∈ released σ th b := by
      rw [released_eq ht]
      exact List.mem_cons_of_mem _ ht
    have hw := hr.waits t ((hmem t).1 hin)
    rw [hv] at hw
    cases hw
  · intro hexit
    refine ⟨⟨released σ th b, ?_, hlen, hmem⟩, ?_, ?_, hparent⟩
    · exact participants_nodup.sublist (List.take_sublist _ _)
    · intro t ht
      rcases List.mem_cons.1 (List.mem_of_mem_take ((hmem t).2 ht)) with rfl | ht
      · exact hth
      · obtain ⟨htrap, hb⟩ := hnew t ht
        cases hs : σ.stop stops t with
        | wait b' =>
          rw [hs] at hb
          rw [hb, Stop.edx, barrierRead_barrierWrite]
        | ret v =>
          rw [hs] at hb
          exact absurd hb.symm (hexit t ht v hs)
        | trap => exact absurd hs htrap
    · intro t ht
      rw [hthread t, if_pos ((hmem t).2 ht)]

/-- The shared memory is a sum to which each thread has added its number; it was 4 at the fork. -/
def addUp : ℕ → View ℕ → ℕ := fun p v => p + v.mem - v.snap

@[inherit_doc addUp]
def added : Shared ℕ := ⟨4, fun t => ⟨4 + t, 4⟩⟩

/-- Two threads wait, and are released with a sum of 7. -/
theorem waitAtBarrier_releases_two :
    Releases addUp twoThreads 1 barrier0 twoForked
      ((twoForked.take (.wait barrier0) (some barrier0)).restart [1, 2]) added
      ⟨7, fun t => if t = 1 ∨ t = 2 then ⟨7, 7⟩ else ⟨4 + t, 4⟩⟩ := by
  have h : waitAtBarrierShared addUp twoThreads 1 barrier0 twoForked (added.get addUp 1) =
      .ok (0, (twoForked.take (.wait barrier0) (some barrier0)).restart [1, 2],
        [1, 2].foldl Shared.put ⟨7, added.thread⟩) := rfl
  have hm : [1, 2].foldl Shared.put (⟨7, added.thread⟩ : Shared ℕ) =
      ⟨7, fun t => if t = 1 ∨ t = 2 then ⟨7, 7⟩ else ⟨4 + t, 4⟩⟩ := by
    simp only [List.foldl_cons, List.foldl_nil, Shared.put, added, Shared.mk.injEq, true_and]
    ext t : 1
    by_cases h1 : t = 1
    · simp [h1]
    · by_cases h2 : t = 2 <;> simp [h1, h2]
  rw [← hm]
  exact (waitAtBarrier_releases_iff addUp twoThreads 1 barrier0 twoForked _ added _ rfl h).2
    fun t ht v hv => by
      obtain rfl : t = 2 := by simpa using (show t ∈ [2] from ht)
      cases hv

/-- A thread that has returned `NULL` is restarted with one that waits at the first barrier. -/
theorem waitAtBarrier_exited :
    let stops : ℕ → ℕ → Stop := fun t _ => if t = 1 then .wait barrier0 else .ret 0
    stops 1 0 = .wait barrier0 ∧ stops 2 0 = .ret 0 ∧
      (waitAtBarrierShared addUp stops 1 barrier0 twoForked (added.get addUp 1)).map
        (fun r => (r.1, r.2.1.pos 2)) = .ok (0, twoForked.pos 2 + 1) :=
  ⟨rfl, rfl, rfl⟩

end release

end Determinator.Pthread
