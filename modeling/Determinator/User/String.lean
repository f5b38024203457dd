import Determinator.Lib.RepString

/-!
# `memset` and `memmove`

The two routines of `lib/string.c` in assembly language, and the plain `memmove` that is there without
`ASM`. A block of words is moved or filled by words; whether it is one is tested on the addresses as `int`s.

A move upwards only has to avoid that the destination begins within the source, and downwards the other way
round, whatever the size of the elements: `memmove` tests the first and goes downwards if it is so, and then
the second is excluded. Where neither block wraps around, both comparisons are exact (`memmove_eq`).
-/

namespace Determinator.StringMachine

/-- `(int)p%4 == 0`. -/
def aligned (p : Addr) : Bool := (p.setWidth 32).srem 4 = 0

/-- `memset`, with the pointer it returns. -/
def memset (v : Addr) (c : BitVec 32) (n : BitVec 64) (m : StringMachine) : Addr × StringMachine :=
  if n = 0 then (v, m)
  else if aligned v ∧ n % 4 = 0 then
    let c := c &&& 0xFF
    let c := c <<< 24 ||| c <<< 16 ||| c <<< 8 ||| c
    (v, repStos 4 (n / 4).toNat v c m.cld)
  else (v, repStos 1 n.toNat v c m.cld)

/-- `memmove`, with the pointer it returns. -/
def memmove (dst src : Addr) (n : BitVec 64) (m : StringMachine) : Addr × StringMachine :=
  let s := src
  let d := dst
  if s < d ∧ d < s + n then
    let s := s + n
    let d := d + n
    let m :=
      if aligned s ∧ aligned d ∧ n % 4 = 0 then repMovs 4 (n / 4).toNat (d - 4) (s - 4) m.std
      else repMovs 1 n.toNat (d - 1) (s - 1) m.std
    -- Some versions of GCC rely on DF being clear
    (dst, m.cld)
  else
    let m :=
      if aligned s ∧ aligned d ∧ n % 4 = 0 then repMovs 4 (n / 4).toNat d s m.cld
      else repMovs 1 n.toNat d s m.cld
    (dst, m)

/-- `memcpy`. -/
def memcpy (dst src : Addr) (n : BitVec 64) (m : StringMachine) : Addr × StringMachine := memmove dst src n m

/-! ## The plain version -/

/-- `*--d = *--s`, `n` times. -/
def copyDown : ℕ → Addr → Addr → (Addr → BitVec 8) → Addr → BitVec 8
  | 0, _, _, mem => mem
  | n + 1, d, s, mem => copyDown n (d - 1) (s - 1) (Function.update mem (d - 1) (mem (s - 1)))

/-- `*d++ = *s++`, `n` times. -/
def copyUp : ℕ → Addr → Addr → (Addr → BitVec 8) → Addr → BitVec 8
  | 0, _, _, mem => mem
  | n + 1, d, s, mem => copyUp n (d + 1) (s + 1) (Function.update mem d (mem s))

/-- `memmove` without `ASM`. -/
def memmovePlain (dst src : Addr) (n : BitVec 64) (mem : Addr → BitVec 8) : Addr × (Addr → BitVec 8) :=
  if src < dst ∧ dst < src + n then (dst, copyDown n.toNat (dst + n) (src + n) mem)
  else (dst, copyUp n.toNat dst src mem)

/-! ## What is left -/

/-- The `n` bytes from `src` on are also at `dst`, nothing else has changed, and the direction flag is
clear. -/
structure Moved (dst src : Addr) (n : ℕ) (m m' : StringMachine) : Prop where
  bytes : ∀ i < n, m'.mem (dst + .ofNat 64 i) = m.mem (src + .ofNat 64 i)
  frame : ∀ x, x.toNat < dst.toNat ∨ dst.toNat + n ≤ x.toNat → m'.mem x = m.mem x
  df : m'.df = false

/-- The `n` bytes from `v` on are `c`, nothing else has changed, and the direction flag is clear if it was
clear before or anything has been stored. -/
structure Filled (v : Addr) (c : BitVec 8) (n : ℕ) (m m' : StringMachine) : Prop where
  bytes : ∀ i < n, m'.mem (v + .ofNat 64 i) = c
  frame : ∀ x, x.toNat < v.toNat ∨ v.toNat + n ≤ x.toNat → m'.mem x = m.mem x
  df : m.df = false ∨ n ≠ 0 → m'.df = false

variable {m : StringMachine} {mem : Addr → BitVec 8} {d s dst src v : Addr} {c : BitVec 32} {b : BitVec 8}
  {n : BitVec 64} {k : ℕ}

theorem add_eq_ofNat (d : Addr) : d + n = d + .ofNat 64 n.toNat := by rw [BitVec.ofNat_toNat, BitVec.setWidth_eq]

theorem ofNat_sub_lt {i : ℕ} (hn : d.toNat + k ≤ 2 ^ 64) (hi : i < k) : (d + .ofNat 64 i - d).toNat < k := by
  rw [show d + .ofNat 64 i - d = .ofNat 64 i by grind, BitVec.toNat_ofNat, Nat.mod_eq_of_lt]
  · exact hi
  · omega

theorem moved_exact (hn : dst.toNat + k ≤ 2 ^ 64) : Moved dst src k m ⟨moved dst src k m.mem, false⟩ where
  bytes i hi := by
    change StringMachine.moved dst src k m.mem _ = _
    rw [StringMachine.moved, if_pos (ofNat_sub_lt hn hi), show dst + .ofNat 64 i - dst = .ofNat 64 i by grind]
  frame x hx := by
    apply if_neg
    rw [mem_block hn]
    omega
  df := rfl

theorem filled_exact (hn : v.toNat + n.toNat ≤ 2 ^ 64) :
    Filled v b n.toNat m ⟨filled v n.toNat b m.mem, if n = 0 then m.df else false⟩ where
  bytes i hi := if_pos (ofNat_sub_lt hn hi)
  frame x hx := by
    apply if_neg
    rw [mem_block hn]
    omega
  df h := by
    obtain h | h := h
    · simp only [h, ite_self]
    · exact if_neg fun hn => h (by rw [hn]; rfl)

/-! ## `memset` -/

/-- The number of words in a block of `n` bytes. -/
theorem words (h : n % 4 = 0) : 4 * (n / 4).toNat = n.toNat := by
  have h : n.toNat % 4 = 0 := congrArg BitVec.toNat h
  have hd : (n / 4).toNat = n.toNat / 4 := BitVec.toNat_udiv
  omega

/-- The bytes of the word that is stored. -/
theorem word_byte (c : BitVec 32) (i : ℕ) (hi : i < 4) :
    (((c &&& 0xFF) <<< 24 ||| (c &&& 0xFF) <<< 16 ||| (c &&& 0xFF) <<< 8 ||| (c &&& 0xFF)) >>> (8 * i)).setWidth 8 =
      c.setWidth 8 := by
  have hm (j : ℕ) : (255#32).getLsbD j = decide (j < 8) := Nat.testBit_two_pow_sub_one 8 j
  ext j hj
  have : i = 0 ∨ i = 1 ∨ i = 2 ∨ i = 3 := by omega
  simp [hm]
  grind

theorem memset_eq (hn : n.toNat ≤ 2 ^ 64) :
    memset v c n m =
      (v, ⟨filled v n.toNat (c.setWidth 8) m.mem, if n = 0 then m.df else false⟩) := by
  unfold memset
  by_cases h : n = 0
  · rw [if_pos h, if_pos h, h]
    rw [show (0 : BitVec 64).toNat = 0 from rfl, filled_zero]
  rw [if_neg h, if_neg h]
  split
  next ha =>
    exact congrArg (v, ·) (repStos_eq (words ha.2) rfl hn (word_byte c))
  next =>
    have hc (i : ℕ) (hi : i < 1) : (c >>> (8 * i)).setWidth 8 = c.setWidth 8 := by
      obtain rfl : i = 0 := by omega
      rfl
    exact congrArg (v, ·) (repStos_eq (Nat.one_mul _) rfl hn hc)

/-! ## `memmove` -/

/-- Where `memmove` goes downwards. -/
theorem overlap (hd : dst.toNat + n.toNat ≤ 2 ^ 64) :
    src < dst ∧ dst < src + n ↔ src.toNat < dst.toNat ∧ dst.toNat < src.toNat + n.toNat := by
  rw [BitVec.lt_def, BitVec.lt_def, BitVec.toNat_add]
  omega

theorem down_exact (hd : dst.toNat + n.toNat ≤ 2 ^ 64) (h : src.toNat < dst.toNat) :
    n.toNat ≤ (src - dst).toNat := by
  rw [BitVec.toNat_sub]
  omega

theorem up_exact (hs : src.toNat + n.toNat ≤ 2 ^ 64)
    (h : ¬ (src.toNat < dst.toNat ∧ dst.toNat < src.toNat + n.toNat)) :
    dst = src ∨ n.toNat ≤ (dst - src).toNat := by
  rw [← BitVec.toNat_inj, BitVec.toNat_sub]
  have := dst.isLt
  omega

theorem memmove_eq (hs : src.toNat + n.toNat ≤ 2 ^ 64) (hd : dst.toNat + n.toNat ≤ 2 ^ 64) :
    memmove dst src n m = (dst, ⟨moved dst src n.toNat m.mem, false⟩) := by
  have hk : n.toNat ≤ 2 ^ 64 := by omega
  simp only [memmove, overlap hd]
  split
  next h =>
    have hx := down_exact hd h.1
    split
    next ha =>
      rw [add_eq_ofNat src, add_eq_ofNat dst]
      exact congrArg (fun m => (dst, m.cld)) (repMovs_down (m := m.std) (words ha.2.2) rfl hk (.inr hx))
    next =>
      rw [add_eq_ofNat src, add_eq_ofNat dst]
      exact congrArg (fun m => (dst, m.cld)) (repMovs_down (m := m.std) (Nat.one_mul _) rfl hk (.inr hx))
  next h =>
    have hx := up_exact hs h
    split
    next ha =>
      exact congrArg (dst, ·) (repMovs_up (words ha.2.2) rfl hk hx)
    next =>
      exact congrArg (dst, ·) (repMovs_up (Nat.one_mul _) rfl hk hx)

theorem moved_one : StringMachine.moved d s 1 mem = Function.update mem d (mem s) := by
  funext x
  have hx : (x - d).toNat < 1 ↔ x = d := by
    rw [Nat.lt_one_iff, ← BitVec.toNat_zero, BitVec.toNat_inj, BitVec.sub_eq_iff_eq_add, BitVec.zero_add]
  simp only [StringMachine.moved, hx, Function.update_apply]
  grind

theorem copyUp_eq : copyUp k d s mem = (repMovs 1 k d s ⟨mem, false⟩).mem := by
  induction k generalizing d s mem with
  | zero => rfl
  | succ k ih =>
    rw [copyUp, ← moved_one, repMovs, next_up rfl, next_up rfl, ih]
    rfl

theorem copyDown_eq : copyDown k d s mem = (repMovs 1 k (d - 1) (s - 1) ⟨mem, true⟩).mem := by
  induction k generalizing d s mem with
  | zero => rfl
  | succ k ih =>
    rw [copyDown, ← moved_one, repMovs, next_down rfl, next_down rfl, ih]
    rfl

/-- The plain version moves what the other one moves. -/
theorem memmovePlain_eq (hs : src.toNat + n.toNat ≤ 2 ^ 64) (hd : dst.toNat + n.toNat ≤ 2 ^ 64) :
    memmovePlain dst src n mem = (dst, StringMachine.moved dst src n.toNat mem) := by
  have hk : n.toNat ≤ 2 ^ 64 := by omega
  simp only [memmovePlain, overlap hd]
  split
  next h =>
    have hx := down_exact hd h.1
    rw [copyDown_eq, add_eq_ofNat src, add_eq_ofNat dst]
    exact congrArg (fun m => (dst, m.mem)) (repMovs_down (m := ⟨mem, true⟩) (Nat.one_mul _) rfl hk (.inr hx))
  next h =>
    have hx := up_exact hs h
    rw [copyUp_eq]
    exact congrArg (fun m => (dst, m.mem)) (repMovs_up (m := ⟨mem, false⟩) (Nat.one_mul _) rfl hk hx)

/-! ## Exactness -/

/-- Whatever the overlap, `memmove` and `memcpy` move the block, and so does the plain `memmove`; `memset`
fills it. -/
theorem blocks_exact (hs : src.toNat + n.toNat ≤ 2 ^ 64) (hd : dst.toNat + n.toNat ≤ 2 ^ 64) :
    Moved dst src n.toNat m (memmove dst src n m).2 ∧ Moved dst src n.toNat m (memcpy dst src n m).2 ∧
      (memmovePlain dst src n m.mem).2 = (memmove dst src n m).2.mem ∧
      Filled dst (c.setWidth 8) n.toNat m (memset dst c n m).2 := by
  have hm := memmove_eq (m := m) hs hd
  refine ⟨?_, ?_, ?_, ?_⟩
  · rw [hm]
    exact moved_exact hd
  · rw [memcpy, hm]
    exact moved_exact hd
  · rw [hm, memmovePlain_eq hs hd]
  · rw [memset_eq (by omega)]
    exact filled_exact hd

/-- Sixteen bytes before the end of the address space, a block is moved up by two bytes. -/
theorem blocks_exact_sample :
    (memmove 0xFFFFFFFFFFFFFFF2 0xFFFFFFFFFFFFFFF0 8 ⟨fun x => x.setWidth 8, true⟩).2.mem 0xFFFFFFFFFFFFFFF9 =
      0xF7 :=
  (blocks_exact (c := 0) (by decide) (by decide)).1.bytes 7 (by decide)

end Determinator.StringMachine
