import Determinator.Pmap.Handlers
import Determinator.User.Testvm
import Mathlib.Algebra.BigOperators.Fin
import Mathlib.Data.BitVec
import Mathlib.Data.Matrix.Mul

/-!
# What the programs with threads compute

Children that write to different places do not get into each other's way: in the end each place is as the child has left
it that has written to it (`joined_at`, `joined_kept`). So `pqsort` sorts every array, whose halves are sorted by children
with copies of the whole memory (`pqsort_sorts`), and `matmult` multiplies (`matmult_multiplies`). The joins are what the
kernel does to page maps (`join_pmap`).
-/

namespace Determinator

variable {m m' d e p kid : Space} {kids : List Space} {a lo size : ℕ}

/-! ## Joins -/

/-- A join is a three-way merge where no byte has been changed in both. -/
theorem Space.joins (hu : Unopposed p e d) (hin : ∀ a, e a ≠ p a → lo ≤ a ∧ a < lo + size) :
    Joins p e d (Space.join lo size p e d) := by
  have hopp : ∀ a, ¬Space.Opposed p e d a := by
    rintro a ⟨k, -, he, hd⟩
    exact (hu _).elim he hd
  constructor
  · intro a ha
    unfold Space.join
    rw [if_neg (hopp a), if_pos ha, ite_self]
  · intro a ha
    refine ⟨(hu a).resolve_left ha, ?_⟩
    unfold Space.join
    rw [if_pos (hin a ha), if_neg (hopp a), if_neg ha]

namespace Testvm

/-- The arguments of `fork`: `ALLVA` and `ALLSIZE`. -/
def IsFork (tf : Trapframe) : Prop := Determinator.IsFork tf vmUserLo (vmStackhi - vmUserLo)

@[inherit_doc IsFork]
def IsJoin (tf : Trapframe) : Prop := Determinator.IsJoin tf vmUserLo joinSize

/-- What a join does to the page map of the parent, whatever has been done since the fork to page maps other than the
snapshot. -/
theorem join_pmap {b : Boot} {s₀ : Mem} {σ σ₁ σ₂ τ : Maps} {F : Map → Frame} {tf tf' : Trapframe} {cs : List PmapCall}
    {os os₁ os₂ : List SpaceOp} (hb : Booted b s₀) (h : Reach b (fun _ => True) defects s₀ σ)
    (hF : Function.Injective F) (htf : IsFork tf) (htf' : IsJoin tf')
    (hfork : plainRun b ((putCalls tf tf.cmd).1.map (Call.onMaps F)) σ = some (os, σ₁))
    (hrun : plainRun b cs σ₁ = some (os₁, σ₂)) (hcs : ∀ c ∈ cs, c.target ≠ some (F .ref))
    (hjoin : plainRun b ((getCalls tf' tf'.cmd).1.map (Call.onMaps F)) σ₂ = some (os₂, τ)) :
    τ.spaces b (F .own) = join (σ.spaces b (F .own)) (σ₂.spaces b (F .kid)) (σ₂.spaces b (F .own)) := by
  rw [join_forked hb h hF htf htf' le_rfl (by decide) hfork hrun hcs hjoin, Function.update_self]
  rfl

/-- The place is merged by a join. -/
def Merged (a : ℕ) : Prop := vmUserLo ≤ a ∧ a < vmUserLo + joinSize

/-- Children that were forked with memory `m` and have written to different places, all of which are merged. -/
structure Kids (m : Space) (kids : List Space) : Prop where
  merged : ∀ kid ∈ kids, ∀ a, kid a ≠ m a → Merged a
  apart : kids.Pairwise fun kid kid' => Separate m kid m kid'

/-- The memory of the parent when they have been joined. -/
def joined (m : Space) (kids : List Space) (d : Space) : Space := kids.foldl (fun d kid => join m kid d) d

theorem Kids.joinsAll (h : Kids m kids) (hu : ∀ kid ∈ kids, Unopposed m kid d) :
    JoinsAll (kids.map fun kid => (m, kid)) d (joined m kids d) := by
  induction kids generalizing d with
  | nil => exact .nil d
  | cons kid kids ih =>
    obtain ⟨hs₁, hs₂⟩ := List.pairwise_cons.1 h.apart
    have hj : Joins m kid d (join m kid d) := Space.joins (hu kid List.mem_cons_self) (h.merged kid List.mem_cons_self)
    have hrest : Kids m kids := ⟨fun kid' hk => h.merged kid' (List.mem_cons_of_mem kid hk), hs₂⟩
    refine .cons hj (ih hrest fun kid' hk i => ?_)
    rcases hs₁ kid' hk i with hi | hi
    · rw [hj.kept i hi]
      exact hu kid' (List.mem_cons_of_mem kid hk) i
    · exact .inl hi

theorem Kids.joined (h : Kids m kids) : JoinsAll (kids.map fun kid => (m, kid)) m (joined m kids m) :=
  h.joinsAll fun _ _ _ => .inr rfl

/-- Where one child has written, there is what it has left. -/
theorem joined_at (h : Kids m kids) (hk : kid ∈ kids) (ho : ∀ kid' ∈ kids, kid' ≠ kid → kid' a = m a) :
    joined m kids m a = kid a := by
  have hs : (kids.map fun kid => (m, kid)).Pairwise fun c c' => Separate c.1 c.2 c'.1 c'.2 := List.pairwise_map.2 h.apart
  refine h.joined.at_place hs (List.mem_map_of_mem hk) rfl fun c hc hne => ?_
  obtain ⟨kid', hk', rfl⟩ := List.mem_map.1 hc
  refine ho kid' hk' ?_
  rintro rfl
  exact hne rfl

/-- Where no child has written, nothing has changed. -/
theorem joined_kept (h : Kids m kids) (ho : ∀ kid ∈ kids, kid a = m a) : joined m kids m a = m a := by
  refine h.joined.kept fun c hc => ?_
  obtain ⟨kid, hk, rfl⟩ := List.mem_map.1 hc
  exact ho kid hk

/-! ## Partition -/

variable {pivot : BitVec 32} {fuel i j k n va : ℕ} {m₀ : Space}

/-- The loop of `pqsort` on the array of `n` numbers at `va`, which had memory `m₀` at first: those before index `i` are
not above the pivot, which comes first, and those from `j` on are not below it. -/
structure Part (pivot : BitVec 32) (va n : ℕ) (m₀ m : Space) (i j : ℕ) : Prop where
  perm : (ints m va n).Perm (ints m₀ va n)
  out : ∀ a, a < va ∨ va + 4 * n ≤ a → m a = m₀ a
  first : at32 m va 0 = pivot.toInt
  below : ∀ k, 0 < k → k < i → at32 m va k ≤ pivot.toInt
  above : ∀ k, j ≤ k → k < n → pivot.toInt ≤ at32 m va k
  pos : 1 ≤ i
  le : i ≤ n
  pos' : 1 ≤ j
  le' : j ≤ n
  near : i ≤ j + 1

theorem Part.init (hn : 1 ≤ n) (hp : int32 m va = pivot) : Part pivot va n m m 1 n where
  perm := .refl _
  out _ _ := rfl
  first := by rw [at32, Nat.mul_zero, Nat.add_zero, hp]
  below _ _ _ := by omega
  above _ _ _ := by omega
  pos := le_rfl
  le := hn
  pos' := hn
  le' := le_rfl
  near := by omega

/-- `l++`. -/
theorem Part.left (h : Part pivot va n m₀ m i j) (hij : i < j) (hlt : (int32 m (va + 4 * i)).slt pivot = true) :
    Part pivot va n m₀ m (i + 1) j where
  perm := h.perm
  out := h.out
  first := h.first
  below k h₁ h₂ := by
    by_cases hk : k = i
    · rw [hk]
      exact (BitVec.slt_iff_toInt_lt.1 hlt).le
    · exact h.below k h₁ (by omega)
  above := h.above
  pos := by omega
  le := by
    have := h.le'
    omega
  pos' := h.pos'
  le' := h.le'
  near := by omega

/-- `h--`. -/
theorem Part.right (h : Part pivot va n m₀ m i j) (hij : i < j)
    (hlt : pivot.slt (int32 m (va + 4 * (j - 1))) = true) : Part pivot va n m₀ m i (j - 1) where
  perm := h.perm
  out := h.out
  first := h.first
  below := h.below
  above k h₁ h₂ := by
    by_cases hk : k = j - 1
    · rw [hk]
      exact (BitVec.slt_iff_toInt_lt.1 hlt).le
    · exact h.above k (by omega) h₂
  pos := h.pos
  le := h.le
  pos' := by
    have := h.pos
    omega
  le' := by
    have := h.le'
    omega
  near := by omega

/-- `swapints(*h, *l), l++, h--`. -/
theorem Part.swap (h : Part pivot va n m₀ m i j) (hij : i < j) (hl : (int32 m (va + 4 * i)).slt pivot = false)
    (hr : pivot.slt (int32 m (va + 4 * (j - 1))) = false) :
    Part pivot va n m₀ (swap32 m (va + 4 * (j - 1)) (va + 4 * i)) (i + 1) (j - 1) := by
  have h₁ := h.pos
  have h₂ := h.le'
  have hi : pivot.toInt ≤ at32 m va i := by
    rw [← Bool.not_eq_true, BitVec.slt_iff_toInt_lt, not_lt] at hl
    exact hl
  have hj : at32 m va (j - 1) ≤ pivot.toInt := by
    rw [← Bool.not_eq_true, BitVec.slt_iff_toInt_lt, not_lt] at hr
    exact hr
  constructor
  · exact (ints_swap32 (by omega) (by omega)).trans h.perm
  · intro a ha
    rw [swap32_out (by omega) (by omega)]
    exact h.out a ha
  · rw [at32_swap32, Equiv.swap_apply_of_ne_of_ne (by omega) (by omega)]
    exact h.first
  · intro k hk₁ hk₂
    rw [at32_swap32]
    by_cases hk : k = i
    · rw [hk, Equiv.swap_apply_right]
      exact hj
    · rw [Equiv.swap_apply_of_ne_of_ne (by omega) hk]
      exact h.below k hk₁ (by omega)
  · intro k hk₁ hk₂
    rw [at32_swap32]
    by_cases hk : k = j - 1
    · rw [hk, Equiv.swap_apply_left]
      exact hi
    · rw [Equiv.swap_apply_of_ne_of_ne hk (by omega)]
      exact h.above k (by omega) hk₂
  all_goals omega

/-- **The loop** ends, with the indices side by side or one apart. -/
theorem partition_ends (h : Part pivot va n m₀ m i j) (hva : 4 ≤ va) (hfuel : j - i < fuel) :
    ∃ m' i' j', partition pivot fuel m (va + 4 * i) (va + 4 * j - 4) = some (m', va + 4 * i', va + 4 * j' - 4) ∧
      Part pivot va n m₀ m' i' j' ∧ j' ≤ i' := by
  induction fuel generalizing m i j with
  | zero => omega
  | succ fuel ih =>
    have h₁ := h.pos
    by_cases hij : i < j
    · have hh : va + 4 * j - 4 = va + 4 * (j - 1) := by omega
      have hl' : va + 4 * i + 4 = va + 4 * (i + 1) := by omega
      have hle : va + 4 * i ≤ va + 4 * (j - 1) := by omega
      rw [partition, hh, hl', if_pos hle]
      cases hl : (int32 m (va + 4 * i)).slt pivot with
      | true =>
        rw [if_pos rfl, ← hh]
        exact ih (h.left hij hl) (by omega)
      | false =>
        rw [if_neg (by simp)]
        cases hr : pivot.slt (int32 m (va + 4 * (j - 1))) with
        | true =>
          rw [if_pos rfl]
          exact ih (h.right hij hr) (by omega)
        | false =>
          rw [if_neg (by simp)]
          exact ih (h.swap hij hl hr) (by omega)
    · rw [partition, if_neg (by omega)]
      exact ⟨m, i, j, rfl, h, by omega⟩

/-! ## Sorting -/

/-- The array when the pivot has been put behind the numbers that are not above it: `p` of them, and `q` that are not
below it. -/
structure Halves (pivot : BitVec 32) (va n : ℕ) (m₀ m : Space) (p q : ℕ) : Prop where
  perm : (ints m va n).Perm (ints m₀ va n)
  out : ∀ a, a < va ∨ va + 4 * n ≤ a → m a = m₀ a
  below : ∀ k < p, at32 m va k ≤ pivot.toInt
  middle : ∀ k, p ≤ k → k < n - q → at32 m va k = pivot.toInt
  above : ∀ k, n - q ≤ k → k < n → pivot.toInt ≤ at32 m va k
  lt : p < n
  lt' : q < n
  le : p + q ≤ n

/-- `swapints(*lo, l[-1])`. -/
theorem Part.halves (h : Part pivot va n m₀ m i j) (hij : j ≤ i) :
    Halves pivot va n m₀ (swap32 m va (va + 4 * (i - 1))) (i - 1) (n - j) := by
  have h₁ := h.pos
  have h₂ := h.le
  have h₃ := h.pos'
  have h₄ := h.near
  have h₅ := h.le'
  have hswap : ∀ k, at32 (swap32 m va (va + 4 * (i - 1))) va k = at32 m va (Equiv.swap 0 (i - 1) k) := at32_swap32 0 (i - 1)
  have hpivot : at32 (swap32 m va (va + 4 * (i - 1))) va (i - 1) = pivot.toInt := by
    rw [hswap, Equiv.swap_apply_right]
    exact h.first
  constructor
  · exact (ints_swap32 (i := 0) (by omega) (by omega)).trans h.perm
  · intro a ha
    rw [swap32_out (by omega) (by omega)]
    exact h.out a ha
  · intro k hk
    rw [hswap]
    by_cases hk0 : k = 0
    · rw [hk0, Equiv.swap_apply_left]
      exact h.below (i - 1) (by omega) (by omega)
    · rw [Equiv.swap_apply_of_ne_of_ne hk0 (by omega)]
      exact h.below k (by omega) (by omega)
  · intro k hk₁ hk₂
    obtain rfl : k = i - 1 := by omega
    exact hpivot
  · intro k hk₁ hk₂
    by_cases hk : k = i - 1
    · rw [hk, hpivot]
    · rw [hswap, Equiv.swap_apply_of_ne_of_ne (by omega) hk]
      exact h.above k (by omega) hk₂
  all_goals omega

/-- The array is sorted, and nothing else is changed. -/
structure Sorted (va n : ℕ) (m m' : Space) : Prop where
  sorted : (ints m' va n).Pairwise (· ≤ ·)
  perm : (ints m' va n).Perm (ints m va n)
  out : ∀ a, a < va ∨ va + 4 * n ≤ a → m' a = m a

/-- What holds of all numbers in an array holds of them when it is sorted. -/
theorem Sorted.all {P : ℤ → Prop} (h : Sorted va n m m') (hP : ∀ k < n, P (at32 m va k)) : ∀ x ∈ ints m' va n, P x := by
  intro x hx
  obtain ⟨k, hk, rfl⟩ := mem_ints.1 (h.perm.mem_iff.1 hx)
  exact hP k hk

/-- The children that sort the halves of an array. -/
theorem Halves.children {kid₀ kid₁ : Space} {p q : ℕ} (h : Halves pivot va n m₀ m p q) (hlo : vmUserLo ≤ va)
    (hhi : va + 4 * n ≤ vmUserLo + joinSize) (h₀ : Sorted va p m kid₀) (h₁ : Sorted (va + 4 * (n - q)) q m kid₁) :
    Kids m [kid₀, kid₁] := by
  have hle := h.le
  constructor
  · intro kid hk a ha
    simp only [List.mem_cons, List.not_mem_nil, or_false] at hk
    by_contra hout
    unfold Merged at hout
    rcases hk with rfl | rfl
    · exact ha (h₀.out a (by omega))
    · exact ha (h₁.out a (by omega))
  · rw [List.pairwise_pair]
    intro a
    by_cases ha : va + 4 * p ≤ a
    · exact .inl (h₀.out a (.inr ha))
    · exact .inr (h₁.out a (.inl (by omega)))

/-- **The join** of the children that have sorted the halves. -/
theorem Halves.sorted {kid₀ kid₁ : Space} {p q : ℕ} (h : Halves pivot va n m₀ m p q) (hlo : vmUserLo ≤ va)
    (hhi : va + 4 * n ≤ vmUserLo + joinSize) (h₀ : Sorted va p m kid₀) (h₁ : Sorted (va + 4 * (n - q)) q m kid₁) :
    Sorted va n m₀ (joined m [kid₀, kid₁] m) := by
  have hkids := h.children hlo hhi h₀ h₁
  have hle := h.le
  -- the left half is as one child has left it, the right half as the other one has, and the rest as it was
  have hleft : ints (joined m [kid₀, kid₁] m) va p = ints kid₀ va p := by
    refine ints_congr fun x hx₁ hx₂ => joined_at hkids (by simp) fun kid hk hne => ?_
    simp only [List.mem_cons, List.not_mem_nil, or_false] at hk
    obtain rfl := hk.resolve_left hne
    exact h₁.out x (.inl (by omega))
  have hright : ints (joined m [kid₀, kid₁] m) (va + 4 * (n - q)) q = ints kid₁ (va + 4 * (n - q)) q := by
    refine ints_congr fun x hx₁ hx₂ => joined_at hkids (by simp) fun kid hk hne => ?_
    simp only [List.mem_cons, List.not_mem_nil, or_false] at hk
    obtain rfl := hk.resolve_right hne
    exact h₀.out x (.inr (by omega))
  have hrest : ∀ x, (x < va ∨ va + 4 * p ≤ x) → (x < va + 4 * (n - q) ∨ va + 4 * n ≤ x) →
      joined m [kid₀, kid₁] m x = m x := by
    intro x hx₁ hx₂
    refine joined_kept hkids fun kid hk => ?_
    simp only [List.mem_cons, List.not_mem_nil, or_false] at hk
    rcases hk with rfl | rfl
    · exact h₀.out x hx₁
    · exact h₁.out x (by omega)
  have hmiddle : ints (joined m [kid₀, kid₁] m) (va + 4 * p) (n - q - p) = ints m (va + 4 * p) (n - q - p) :=
    ints_congr fun x hx₁ hx₂ => hrest x (by omega) (by omega)
  have hsplit : ∀ m : Space, ints m va n =
      ints m va p ++ (ints m (va + 4 * p) (n - q - p) ++ ints m (va + 4 * (n - q)) q) := by
    intro m
    have hn : n = p + (n - q - p + q) := by omega
    have hq : va + 4 * p + 4 * (n - q - p) = va + 4 * (n - q) := by omega
    conv_lhs => rw [hn, ints_add, ints_add, hq]
  have hbelow : ∀ x ∈ ints kid₀ va p, x ≤ pivot.toInt := h₀.all (P := (· ≤ pivot.toInt)) h.below
  have habove : ∀ x ∈ ints kid₁ (va + 4 * (n - q)) q, pivot.toInt ≤ x := by
    refine h₁.all (P := (pivot.toInt ≤ ·)) fun k hk => ?_
    rw [at32_add]
    exact h.above _ (by omega) (by omega)
  have hequal : ∀ x ∈ ints m (va + 4 * p) (n - q - p), x = pivot.toInt := by
    intro x hx
    obtain ⟨k, hk, rfl⟩ := mem_ints.1 hx
    rw [at32_add]
    exact h.middle _ (by omega) (by omega)
  refine ⟨?_, ?_, fun a ha => ?_⟩
  · rw [hsplit, hleft, hmiddle, hright]
    have heq : (ints m (va + 4 * p) (n - q - p)).Pairwise (· ≤ ·) :=
      List.pairwise_of_forall_mem_list fun x hx y hy => by rw [hequal x hx, hequal y hy]
    refine List.pairwise_append.2 ⟨h₀.sorted, List.pairwise_append.2 ⟨heq, h₁.sorted, fun x hx y hy => ?_⟩,
      fun x hx y hy => ?_⟩
    · rw [hequal x hx]
      exact habove y hy
    · refine (hbelow x hx).trans ?_
      rcases List.mem_append.1 hy with hy | hy
      · rw [hequal y hy]
      · exact habove y hy
  · refine List.Perm.trans ?_ h.perm
    rw [hsplit, hsplit m, hleft, hmiddle, hright]
    exact h₀.perm.append ((List.Perm.refl _).append h₁.perm)
  · rw [hrest a (by omega) (by omega)]
    exact h.out a ha

/-- The children of `pqsort` are joined. -/
theorem pqsort_joined {hi l h : ℕ} {kid₀ kid₁ : Space} (hlt : lo < hi)
    (hp : partition (int32 m lo) fuel m (lo + 4) hi = some (m', l, h))
    (h₀ : pqsort fuel (swap32 m' lo (l - 4)) lo (l - 8) = some kid₀)
    (h₁ : pqsort fuel (swap32 m' lo (l - 4)) (h + 4) hi = some kid₁) :
    pqsort (fuel + 1) m lo hi = some (joined (swap32 m' lo (l - 4)) [kid₀, kid₁] (swap32 m' lo (l - 4))) := by
  rw [pqsort, if_neg (not_le.2 hlt), hp]
  simp only [Option.bind_eq_bind, Option.bind_some, h₀, h₁]
  rfl

/-- **`pqsort`** sorts every array that lies where joins merge, and changes nothing else. -/
theorem pqsort_sorts (m : Space) (hlo : vmUserLo ≤ va) (hhi : va + 4 * n ≤ vmUserLo + joinSize) (hfuel : n < fuel) :
    ∃ m', pqsort fuel m va (va + 4 * n - 4) = some m' ∧ Sorted va n m m' := by
  induction fuel generalizing m va n with
  | zero => omega
  | succ fuel ih =>
    have hpos : 4 ≤ va := le_trans (by decide) hlo
    by_cases hn : n ≤ 1
    · rw [pqsort, if_pos (by omega)]
      refine ⟨m, rfl, ?_, .refl _, fun _ _ => rfl⟩
      obtain rfl | rfl : n = 0 ∨ n = 1 := by omega
      · exact .nil
      · exact List.pairwise_singleton _ _
    · have hinit : Part (int32 m va) va n m m 1 n := .init (by omega) rfl
      have hlt : n - 1 < fuel := by omega
      obtain ⟨m₁, i, j, hpart, hp, hij⟩ := partition_ends hinit hpos hlt
      have h₁ := hp.pos
      have h₂ := hp.le
      have h₃ := hp.pos'
      have h₄ := hp.le'
      obtain ⟨kid₀, hk₀, hs₀⟩ : ∃ m', pqsort fuel (swap32 m₁ va (va + 4 * (i - 1))) va (va + 4 * (i - 1) - 4) = some m' ∧
          Sorted va (i - 1) (swap32 m₁ va (va + 4 * (i - 1))) m' := ih _ hlo (by omega) (by omega)
      obtain ⟨kid₁, hk₁, hs₁⟩ : ∃ m', pqsort fuel (swap32 m₁ va (va + 4 * (i - 1))) (va + 4 * j)
            (va + 4 * j + 4 * (n - j) - 4) = some m' ∧
          Sorted (va + 4 * j) (n - j) (swap32 m₁ va (va + 4 * (i - 1))) m' := ih _ (by omega) (by omega) (by omega)
      have hnj : n - (n - j) = j := by omega
      have hsorted := (hp.halves hij).sorted hlo hhi hs₀ (by rw [hnj]; exact hs₁)
      have hl : va + 4 * i - 4 = va + 4 * (i - 1) := by omega
      have hlast : va + 4 * j + 4 * (n - j) - 4 = va + 4 * n - 4 := by omega
      have hnext : va + 4 * j = va + 4 * j - 4 + 4 := by omega
      rw [← hl] at hk₀ hk₁ hsorted
      rw [Nat.sub_sub] at hk₀
      rw [hlast, hnext] at hk₁
      exact ⟨_, pqsort_joined (by omega) hpart hk₀ hk₁, hsorted⟩

/-- An array of three numbers. -/
theorem pqsort_sorts_sample : ∃ m', pqsort 4 (fun a => BitVec.ofNat 8 (0x41000000 - a)) 0x40000000 (0x40000000 + 4 * 3 - 4) =
    some m' ∧ Sorted 0x40000000 3 (fun a => BitVec.ofNat 8 (0x41000000 - a)) m' :=
  pqsort_sorts _ (by decide) (by decide) (by decide)

/-! ## Multiplying matrices -/

/-- The matrix at an address. -/
def matrix (m : Space) (a : ℕ) : Matrix (Fin 8) (Fin 8) (BitVec 32) := fun i j => int32 m (cell a i j)

theorem dot_eq (m : Space) (a b : ℕ) (i j : Fin 8) : dot m a b i j = (matrix m a * matrix m b) i j := by
  rw [Matrix.mul_apply, Fin.sum_univ_eight]
  simp [dot, matrix, List.range, List.range.loop]

/-- The children of `matmult`, by the places of their elements. -/
def matmultKids (m : Space) (a b r : ℕ) : List Space :=
  (List.range 64).map fun c => matmultKid m a b r (c / 8) (c % 8)

theorem matmult_joined (m : Space) (a b r : ℕ) : matmult m a b r = joined m (matmultKids m a b r) m := rfl

theorem matmultKid_out {b r x : ℕ} (h : x < cell r i j ∨ cell r i j + 4 ≤ x) : matmultKid m a b r i j x = m x :=
  setInt32_out h

theorem cell_div (r c : ℕ) : cell r (c / 8) (c % 8) = r + 4 * c := by
  unfold cell
  omega

theorem matmult_kids {b r : ℕ} (hlo : vmUserLo ≤ r) (hhi : r + 256 ≤ vmUserLo + joinSize) :
    Kids m (matmultKids m a b r) := by
  constructor
  · intro kid hk x hx
    obtain ⟨c, hc, rfl⟩ := List.mem_map.1 hk
    rw [List.mem_range] at hc
    by_contra hout
    unfold Merged at hout
    refine hx (matmultKid_out ?_)
    rw [cell_div]
    omega
  · refine List.pairwise_map.2 (List.pairwise_lt_range.imp fun {c c'} hlt x => ?_)
    by_cases hx : r + 4 * c' ≤ x
    · refine .inl (matmultKid_out ?_)
      rw [cell_div]
      omega
    · refine .inr (matmultKid_out ?_)
      rw [cell_div]
      omega

/-- **`matmult`** multiplies, whatever the matrices are, and changes nothing but the matrix of the result. -/
theorem matmult_multiplies (m : Space) {a b r : ℕ} (hlo : vmUserLo ≤ r) (hhi : r + 256 ≤ vmUserLo + joinSize) :
    matrix (matmult m a b r) r = matrix m a * matrix m b ∧
      ∀ x, x < r ∨ r + 256 ≤ x → matmult m a b r x = m x := by
  have hkids : Kids m (matmultKids m a b r) := matmult_kids hlo hhi
  constructor
  · apply Matrix.ext
    intro i j
    rw [← dot_eq]
    have hi := i.isLt
    have hj := j.isLt
    have hmem : matmultKid m a b r i j ∈ matmultKids m a b r := by
      refine List.mem_map.2 ⟨8 * i + j, List.mem_range.2 (by omega), ?_⟩
      rw [show (8 * i.val + j.val) / 8 = i by omega, show (8 * i.val + j.val) % 8 = j by omega]
    have hcell : int32 (matmult m a b r) (cell r i j) = int32 (matmultKid m a b r i j) (cell r i j) := by
      refine int32_congr fun x hx₁ hx₂ => ?_
      rw [matmult_joined]
      refine joined_at hkids hmem fun kid hk hne => ?_
      obtain ⟨c, hc, rfl⟩ := List.mem_map.1 hk
      have hc' : c ≠ 8 * i + j := by
        rintro rfl
        rw [show (8 * i.val + j.val) / 8 = i by omega, show (8 * i.val + j.val) % 8 = j by omega] at hne
        exact hne rfl
      refine matmultKid_out ?_
      rw [cell_div]
      unfold cell at hx₁ hx₂
      omega
    exact hcell.trans int32_setInt32
  · intro x hx
    rw [matmult_joined]
    refine joined_kept hkids fun kid hk => ?_
    obtain ⟨c, hc, rfl⟩ := List.mem_map.1 hk
    rw [List.mem_range] at hc
    refine matmultKid_out ?_
    rw [cell_div]
    omega

/-- The result is put in the place of the first matrix. -/
theorem matmult_multiplies_sample : matrix (matmult (fun a => BitVec.ofNat 8 a) 0x40000000 0x40000100 0x40000000) 0x40000000 =
    matrix (fun a => BitVec.ofNat 8 a) 0x40000000 * matrix (fun a => BitVec.ofNat 8 a) 0x40000100 :=
  (matmult_multiplies _ (by decide) (by decide)).1

/-! ## Swapping -/

/-- **Two children** that each assign one of two variables to the other one swap them. -/
theorem crossover_swaps {x y : ℕ} (m : Space) (hx : vmUserLo ≤ x) (hx' : x + 4 ≤ vmUserLo + joinSize) (hy : vmUserLo ≤ y)
    (hy' : y + 4 ≤ vmUserLo + joinSize) (hxy : x + 4 ≤ y ∨ y + 4 ≤ x) : crossover m x y = swap32 m x y := by
  have hkids : Kids m [setInt32 m x (int32 m y), setInt32 m y (int32 m x)] := by
    constructor
    · intro kid hk a ha
      simp only [List.mem_cons, List.not_mem_nil, or_false] at hk
      by_contra hout
      unfold Merged at hout
      rcases hk with rfl | rfl <;> exact ha (setInt32_out (by omega))
    · rw [List.pairwise_pair]
      intro a
      by_cases ha : a < x ∨ x + 4 ≤ a
      · exact .inl (setInt32_out ha)
      · exact .inr (setInt32_out (by omega))
  funext a
  change joined m [setInt32 m x (int32 m y), setInt32 m y (int32 m x)] m a = _
  unfold swap32
  by_cases ha : a < y ∨ y + 4 ≤ a
  · rw [setInt32_out ha]
    by_cases ha' : a < x ∨ x + 4 ≤ a
    · rw [setInt32_out ha']
      refine joined_kept hkids fun kid hk => ?_
      simp only [List.mem_cons, List.not_mem_nil, or_false] at hk
      rcases hk with rfl | rfl
      · exact setInt32_out ha'
      · exact setInt32_out ha
    · refine joined_at hkids (by simp) fun kid hk hne => ?_
      simp only [List.mem_cons, List.not_mem_nil, or_false] at hk
      obtain rfl := hk.resolve_left hne
      exact setInt32_out ha
  · have hkid : setInt32 m y (int32 m x) ∈ [setInt32 m x (int32 m y), setInt32 m y (int32 m x)] := by simp
    rw [joined_at hkids hkid fun kid hk hne => ?_]
    · unfold setInt32
      rw [if_pos (by omega), if_pos (by omega)]
    · simp only [List.mem_cons, List.not_mem_nil, or_false] at hk
      obtain rfl := hk.resolve_right hne
      exact setInt32_out (by omega)

end Testvm

end Determinator
