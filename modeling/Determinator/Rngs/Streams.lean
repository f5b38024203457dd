import Determinator.Lib.Lehmer
import Determinator.User.Rngs
import Mathlib.NumberTheory.LucasPrimality
import Mathlib.Tactic.NormNum.Prime
import Mathlib.Tactic.ReduceModChar

/-!
# The streams of random numbers

The multiplier of `lib/rngs.c` is a primitive root, and the jump multiplier is its power that takes a stream as many
calls ahead as the comment says. So the streams that `PlantSeeds` plants have no number in common as long as no stream
goes on further than to where the next one began (`streams_apart`).
-/

namespace Determinator.Rngs

open Lehmer

/-- The modulus. -/
abbrev prime : ℕ := 2147483647

/-- The number of calls that streams are apart. -/
def apart : ℕ := 8367782

/-- The multiplier. -/
def root : ZMod prime := 48271

/-! ## The multiplier -/

theorem dvd_pred {q : ℕ} (hq : q.Prime) (h : q ∣ prime - 1) :
    q = 2 ∨ q = 3 ∨ q = 7 ∨ q = 11 ∨ q = 31 ∨ q = 151 ∨ q = 331 := by
  have hfactors : prime - 1 = 2 * 3 * 3 * 7 * 11 * 31 * 151 * 331 := by norm_num
  have heq : ∀ {k : ℕ}, k.Prime → q ∣ k → q = k := fun hk hd => (Nat.prime_dvd_prime_iff_eq hq hk).1 hd
  rw [hfactors] at h
  simp only [hq.dvd_mul] at h
  rcases h with ((((((h | h) | h) | h) | h) | h) | h) | h
  · exact .inl (heq (by norm_num) h)
  · exact .inr (.inl (heq (by norm_num) h))
  · exact .inr (.inl (heq (by norm_num) h))
  · exact .inr (.inr (.inl (heq (by norm_num) h)))
  · exact .inr (.inr (.inr (.inl (heq (by norm_num) h))))
  · exact .inr (.inr (.inr (.inr (.inl (heq (by norm_num) h)))))
  · exact .inr (.inr (.inr (.inr (.inr (.inl (heq (by norm_num) h))))))
  · exact .inr (.inr (.inr (.inr (.inr (.inr (heq (by norm_num) h))))))

theorem root_pow_pred : root ^ (prime - 1) = 1 := by
  change (48271 : ZMod 2147483647) ^ 2147483646 = 1
  reduce_mod_char

theorem root_pow_ne {q : ℕ} (hq : q.Prime) (h : q ∣ prime - 1) : root ^ ((prime - 1) / q) ≠ 1 := by
  unfold root prime
  rcases dvd_pred hq h with rfl | rfl | rfl | rfl | rfl | rfl | rfl <;> norm_num only <;> reduce_mod_char <;> decide

theorem prime_prime : prime.Prime := lucas_primality prime root root_pow_pred fun _ => root_pow_ne

/-- **The multiplier** is a primitive root. -/
theorem orderOf_root : orderOf root = prime - 1 :=
  orderOf_eq_of_pow_and_pow_div_prime (by norm_num) root_pow_pred fun _ => root_pow_ne

/-- The jump multiplier. -/
theorem root_pow_apart : root ^ apart = 22925 := by
  change (48271 : ZMod 2147483647) ^ 8367782 = 22925
  reduce_mod_char

instance : Fact prime.Prime := ⟨prime_prime⟩

theorem root_ne_zero : root ≠ 0 := by
  intro h
  have h₁ := root_pow_pred
  rw [h] at h₁
  simp at h₁

/-! ## One call -/

variable {a x : ℤ} {j n time : ℕ} {s s' : State} {x₀ : ZMod prime} {out : Record} {op : Op} {ops : List Op}

/-- A state that is a number modulo the prime, not zero. -/
structure Seed (x : ℤ) (v : ZMod prime) : Prop where
  pos : 0 < x
  lt : x < modulus
  cast : (x : ZMod prime) = v

theorem Seed.of_emod {y : ℤ} (h : (y : ZMod prime) ≠ 0) : Seed (y % modulus) y where
  pos := by
    have hne : y % modulus ≠ 0 := by
      intro h₀
      exact h ((ZMod.intCast_zmod_eq_zero_iff_dvd y prime).2 (Int.dvd_of_emod_eq_zero h₀))
    have hnonneg : 0 ≤ y % modulus := Int.emod_nonneg y (by decide)
    omega
  lt := Int.emod_lt_of_pos y (by decide)
  cast := ZMod.intCast_mod y prime

/-- A multiplier for which the product is got without large numbers. -/
structure Multiplier (a : ℤ) : Prop where
  pos : 0 < a
  quotient : 0 < modulus / a
  small : modulus % a ≤ modulus / a
  unit : (a : ZMod prime) ≠ 0

theorem multiplier_ok : Multiplier multiplier where
  pos := by decide
  quotient := by decide
  small := by decide
  unit := by
    rw [Ne, ZMod.intCast_zmod_eq_zero_iff_dvd]
    decide

theorem a256_ok : Multiplier a256 where
  pos := by decide
  quotient := by decide
  small := by decide
  unit := by
    rw [Ne, ZMod.intCast_zmod_eq_zero_iff_dvd]
    decide

/-- **The next state** is the product. -/
theorem times_seed (ha : Multiplier a) {v : ZMod prime} (hx : Seed x v) : Seed (times a x) (a * v) := by
  have hprod : ((a * x : ℤ) : ZMod prime) ≠ 0 := by
    rw [Int.cast_mul]
    refine mul_ne_zero ha.unit ?_
    rw [Ne, ZMod.intCast_zmod_eq_zero_iff_dvd]
    intro hdvd
    exact absurd (Int.le_of_dvd hx.pos hdvd) (not_le.2 hx.lt)
  have hdvd : ¬modulus ∣ a * x := fun hd => hprod ((ZMod.intCast_zmod_eq_zero_iff_dvd _ prime).2 hd)
  have hm : modulus = a * (modulus / a) + modulus % a := (Int.mul_ediv_add_emod modulus a).symm
  have htimes : times a x = a * x % modulus := by
    have hq : modulus.tdiv a = modulus / a := Int.tdiv_eq_ediv_of_nonneg (by decide)
    have hr : modulus.tmod a = modulus % a := Int.tmod_eq_emod_of_nonneg (by decide)
    rw [times, hq, hr, Int.tmod_eq_emod_of_nonneg hx.pos.le, Int.tdiv_eq_ediv_of_nonneg hx.pos.le]
    exact schrage ha.pos ha.quotient (Int.emod_nonneg _ ha.pos.ne') ha.small hm hx.pos.le hx.lt hdvd
  have hseed := Seed.of_emod hprod
  rw [← htimes, Int.cast_mul, hx.cast] at hseed
  exact hseed

/-! ## Planting -/

/-- The streams are planted as far as stream `n`. -/
def Planted (x₀ : ZMod prime) (n : ℕ) (s : State) : Prop := ∀ j ≤ n, Seed (s.seed j) (root ^ (apart * j) * x₀)

theorem Planted.next (h : Planted x₀ n s) : Planted x₀ (n + 1) (s.setSeed (n + 1) (times a256 (s.seed n))) := by
  intro j hj
  unfold State.setSeed
  by_cases hn : j = n + 1
  · subst hn
    have hjump : root ^ (apart * (n + 1)) * x₀ = a256 * (root ^ (apart * n) * x₀) := by
      rw [Nat.mul_succ, pow_add, root_pow_apart, a256]
      push_cast
      ring
    simp only [Function.update_self]
    rw [hjump]
    exact times_seed a256_ok (h n le_rfl)
  · simp only [Function.update_of_ne hn]
    exact h j (by omega)

/-- The loop of `PlantSeeds`. -/
def plantLoop (n : ℕ) (s : State) : State :=
  (List.range' 1 n).foldl (fun s j => s.setSeed j (times a256 (s.seed (j - 1)))) s

theorem plantLoop_succ (n : ℕ) (s : State) : plantLoop (n + 1) s =
    (plantLoop n s).setSeed (n + 1) (times a256 ((plantLoop n s).seed n)) := by
  unfold plantLoop
  rw [List.range'_1_concat, List.foldl_append, List.foldl_cons, List.foldl_nil, Nat.add_comm 1 n]
  rfl

theorem plantLoop_planted (h : Seed (s.seed 0) x₀) (n : ℕ) : Planted x₀ n (plantLoop n s) := by
  induction n with
  | zero =>
    intro j hj
    obtain rfl : j = 0 := by omega
    rw [Nat.mul_zero, pow_zero, one_mul]
    exact h
  | succ n ih =>
    rw [plantLoop_succ]
    exact ih.next

theorem plantLoop_kept (n : ℕ) (s : State) :
    (plantLoop n s).stream = s.stream ∧ (plantLoop n s).initialized = s.initialized := by
  induction n with
  | zero => exact ⟨rfl, rfl⟩
  | succ n ih =>
    rw [plantLoop_succ]
    exact ih

/-! ## Runs -/

/-- The numbers that have been drawn, from a planted generator. -/
structure Drawn (x₀ : ZMod prime) (out : Record) (s : State) : Prop where
  initialized : s.initialized = true
  stream : s.stream < streams
  seed : ∀ j < streams, Seed (s.seed j) (root ^ (apart * j + (out.map Prod.fst).count j) * x₀)
  drawn : ∀ p ∈ out, p.1 < streams ∧ ∃ k, 1 ≤ k ∧ k ≤ (out.map Prod.fst).count p.1 ∧
    (p.2 : ZMod prime) = root ^ (apart * p.1 + k) * x₀
  nodup : (∀ j, (out.map Prod.fst).count j ≤ apart) → (out.map Prod.snd).Nodup

theorem Drawn.start (hx : 0 < x) (hm : ¬modulus ∣ x) (hs : s.stream < streams) :
    Drawn x [] (s.plantSeeds time x) := by
  have hne : (x : ZMod prime) ≠ 0 := fun h => hm ((ZMod.intCast_zmod_eq_zero_iff_dvd x prime).1 h)
  have hseed : Seed (x % modulus) x := .of_emod hne
  have hput : s.plantSeeds time x = plantLoop (streams - 1)
      { (({ s with initialized := true } : State).setStream 0).setSeed 0 (x % modulus) with stream := s.stream } := by
    have hmod : x.tmod modulus = x % modulus := Int.tmod_eq_emod_of_nonneg hx.le
    unfold State.plantSeeds State.putSeed
    simp only [if_pos hx, hmod, if_neg (not_le.2 hseed.pos)]
    rfl
  have hplanted : Planted x (streams - 1) (s.plantSeeds time x) := by
    rw [hput]
    refine plantLoop_planted ?_ _
    simp only [State.setSeed, Function.update_self]
    exact hseed
  obtain ⟨hstream, hinit⟩ := plantLoop_kept (streams - 1)
    { (({ s with initialized := true } : State).setStream 0).setSeed 0 (x % modulus) with stream := s.stream }
  constructor
  · rw [hput, hinit]
    rfl
  · rw [hput, hstream]
    exact hs
  · intro j hj
    exact hplanted j (by omega)
  · intro p hp
    cases hp
  · exact fun _ => .nil

/-- **A draw** gives a number that has not been drawn, if the stream has not gone on too far. -/
theorem Drawn.random (h : Drawn x₀ out s) (hx : x₀ ≠ 0) : Drawn x₀ (out ++ [(s.stream, s.random.1)]) s.random.2 := by
  have hseed := times_seed multiplier_ok (h.seed s.stream h.stream)
  have hnext : (multiplier : ZMod prime) * (root ^ (apart * s.stream + (out.map Prod.fst).count s.stream) * x₀) =
      root ^ (apart * s.stream + ((out.map Prod.fst).count s.stream + 1)) * x₀ := by
    have hroot : (multiplier : ZMod prime) = root := by
      unfold multiplier root
      push_cast
      rfl
    rw [hroot, ← Nat.add_assoc, pow_succ]
    ring
  rw [hnext] at hseed
  have hcount : ∀ j, ((out ++ [(s.stream, s.random.1)]).map Prod.fst).count j =
      (out.map Prod.fst).count j + if s.stream = j then 1 else 0 := by
    intro j
    rw [List.map_append, List.count_append, List.map_cons, List.map_nil, List.count_singleton]
    simp only [beq_iff_eq]
  constructor
  · exact h.initialized
  · exact h.stream
  · intro j hj
    change Seed (Function.update s.seed s.stream _ j) _
    rw [hcount]
    by_cases hjs : j = s.stream
    · subst hjs
      rw [Function.update_self, if_pos rfl]
      exact hseed
    · rw [Function.update_of_ne hjs, if_neg (Ne.symm hjs)]
      exact h.seed j hj
  · intro p hp
    rw [hcount]
    rcases List.mem_append.1 hp with hp | hp
    · obtain ⟨hlt, k, hk₁, hk₂, hk⟩ := h.drawn p hp
      exact ⟨hlt, k, hk₁, by omega, hk⟩
    · obtain rfl : p = (s.stream, s.random.1) := by simpa using hp
      refine ⟨h.stream, _, ?_, ?_, hseed.cast⟩
      · omega
      · rw [if_pos rfl]
  · intro hle
    have hold : ∀ j, (out.map Prod.fst).count j ≤ apart := fun j => le_trans (by rw [hcount]; omega) (hle j)
    rw [List.map_append, List.nodup_append]
    refine ⟨h.nodup hold, List.nodup_singleton _, ?_⟩
    intro y hy z hz
    obtain ⟨p, hp, rfl⟩ := List.mem_map.1 hy
    obtain rfl : z = s.random.1 := by simpa using hz
    intro heq
    obtain ⟨hlt, k, hk₁, hk₂, hk⟩ := h.drawn p hp
    have hpow : root ^ (apart * p.1 + k) = root ^ (apart * s.stream + ((out.map Prod.fst).count s.stream + 1)) := by
      refine mul_right_cancel₀ hx ?_
      rw [← hk, heq]
      exact hseed.cast
    have hlast := hle s.stream
    rw [hcount, if_pos rfl] at hlast
    have horder : apart * streams < orderOf root := by
      rw [orderOf_root]
      decide
    obtain ⟨hstream, hcalls⟩ := pow_blocks horder hlt h.stream hk₁ (hk₂.trans (hold _)) (by omega) hlast hpow
    rw [hstream] at hk₂
    omega

theorem Drawn.select (h : Drawn x₀ out s) (index : ℤ) : Drawn x₀ out (s.selectStream time index) := by
  have hselect : s.selectStream time index = s.setStream index := by
    unfold State.selectStream
    simp only
    rw [if_neg]
    rintro ⟨hinit, -⟩
    have : s.initialized = false := hinit
    rw [h.initialized] at this
    cases this
  rw [hselect]
  exact ⟨h.initialized, Nat.mod_lt _ (by decide), h.seed, h.drawn, h.nodup⟩

theorem Drawn.run (hx : x₀ ≠ 0) (h : Drawn x₀ out s) (ops : List Op) :
    Drawn x₀ (ops.foldl (Op.run time) (out, s)).1 (ops.foldl (Op.run time) (out, s)).2 := by
  induction ops generalizing out s with
  | nil => exact h
  | cons op ops ih =>
    rw [List.foldl_cons]
    cases op with
    | select index => exact ih (h.select index)
    | random => exact ih (h.random hx)

/-- **The streams** that `PlantSeeds` plants have no number in common, however a program goes from one to the other: as
long as it draws no more than 8,367,782 numbers from any of them, it draws none twice. -/
theorem streams_apart {x : ℤ} (hx : 0 < x) (hm : ¬modulus ∣ x) (hs : s.stream < streams)
    (hops : ∀ j, ((ops.foldl (Op.run time) ([], s.plantSeeds time x)).1.map Prod.fst).count j ≤ apart) :
    ((ops.foldl (Op.run time) ([], s.plantSeeds time x)).1.map Prod.snd).Nodup := by
  have hne : (x : ZMod prime) ≠ 0 := fun h => hm ((ZMod.intCast_zmod_eq_zero_iff_dvd x prime).1 h)
  have hstart : Drawn (x : ZMod prime) [] (s.plantSeeds time x) := .start hx hm hs
  exact (hstart.run hne ops).nodup hops

/-- Three numbers from two streams. -/
theorem streams_apart_sample : (([.random, .select 7, .random, .random].foldl (Op.run 0)
    ([], State.init.plantSeeds 0 1)).1.map Prod.snd).Nodup := by
  refine streams_apart (by decide) (by decide) (by decide) fun j => List.count_le_length.trans ?_
  simp [Op.run, apart]

end Determinator.Rngs
