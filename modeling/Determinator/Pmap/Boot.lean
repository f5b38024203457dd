import Mathlib.Tactic.IntervalCases
import Mathlib.Data.Int.ModEq
import Determinator.Lib.Queue
import Determinator.Kern.Bootpmap

/-!
# The bootstrap page map maps what it should

A call of `pmap_init_bootpmap` fills in some entries of one table, with new tables below them.
`Built` says which addresses these entries are for and what is found for them. The calls that erase
are right at every level. A call that maps a range from the beginning of an entry on is right if the
range ends at the end of an entry of the level below; otherwise the call that erases the rest of the
table begins in the middle of an entry, and puts a new, empty table in the place of the one that
has just been made.
-/

namespace Determinator.Bootpmap

open PanicM

variable {maxLevel level : ℕ} {zero t pi : Frame} {s s' s₁ s₂ : Mem} {k k' l l' : List Frame}
  {e : Pte} {va vaddr paddr size vhi : ℤ} {perm : BitVec 16}

/-! ## Words -/

theorem pageWord_fields {n : ℕ} (hn : n < 2 ^ 40) (hp : perm.toNat < 2 ^ 12) :
    pageWord (n * pageSize) perm = .mk' (BitVec.ofNat 40 n) (perm.setWidth 12) := by
  have hw : (BitVec.ofInt 64 ((n : ℤ) * pageSize) ||| perm.setWidth 64).toNat
      = 2 ^ 12 * n + perm.toNat := by
    rw [BitVec.toNat_or, Nat.two_pow_add_eq_or_of_lt hp, BitVec.toNat_setWidth,
      Nat.mod_eq_of_lt (by omega)]
    congr 1
    have : (n : ℤ) * pageSize = ((2 ^ 12 * n : ℕ) : ℤ) := by
      push_cast
      ring
    rw [this, BitVec.ofInt_natCast, BitVec.toNat_ofNat, Nat.mod_eq_of_lt (by omega)]
  unfold pageWord Pte.ofWord Pte.mk'
  rw [Pte.mk.injEq]
  refine ⟨?_, ?_, ?_⟩
  · apply BitVec.eq_of_toNat_eq
    rw [BitVec.extractLsb'_toNat, hw, BitVec.toNat_ofNat, Nat.shiftRight_eq_div_pow]
    congr 1
    omega
  · apply BitVec.eq_of_toNat_eq
    rw [BitVec.extractLsb'_toNat, hw, BitVec.toNat_setWidth, Nat.shiftRight_zero]
    omega
  · apply BitVec.eq_of_toNat_eq
    rw [BitVec.extractLsb'_toNat, hw, Nat.shiftRight_eq_div_pow]
    simp
    omega

/-! ## Tables below an entry -/

/-- The tables that are found from an entry on are among `k`. -/
def Within (s : Mem) (zero : Frame) (k : List Frame) : ℕ → Pte → Prop
  | 0, _ => True
  | level + 1, e => e = zeroEntry zero ∨ isPS e = true ∨
      e.frame ∈ k ∧ ∀ i < 512, Within s zero k level (s.entry e.frame i)

theorem pdx_lt (n : ℕ) (la : ℤ) : pdx n la < 512 := by
  unfold pdx
  have := Int.emod_lt_of_pos (la / pdSize n) (show (0 : ℤ) < 512 by decide)
  have := Int.emod_nonneg (la / pdSize n) (show (512 : ℤ) ≠ 0 by decide)
  omega

theorem Within.mono (h : Within s zero k level e) (hk : ∀ f ∈ k, f ∈ k') :
    Within s zero k' level e := by
  induction level generalizing e with
  | zero => trivial
  | succ level ih =>
    rcases h with h | h | ⟨hf, h⟩
    · exact .inl h
    · exact .inr (.inl h)
    · exact .inr (.inr ⟨hk _ hf, fun i hi => ih (h i hi)⟩)

theorem Within.congr (h : Within s zero k level e) (hp : ∀ f ∈ k, s'.page f = s.page f) :
    Within s' zero k level e := by
  induction level generalizing e with
  | zero => trivial
  | succ level ih =>
    rcases h with h | h | ⟨hf, h⟩
    · exact .inl h
    · exact .inr (.inl h)
    · refine .inr (.inr ⟨hf, fun i hi => ?_⟩)
      rw [entry_congr hi (hp _ hf)]
      exact ih (h i hi)

/-- What is found depends on the tables below the entry only. -/
theorem Within.walkFrom_eq (h : Within s zero k level e) (hp : ∀ f ∈ k, s'.page f = s.page f)
    (user : Bool) : walkFrom s' zero va level e user = walkFrom s zero va level e user := by
  induction level generalizing e user with
  | zero => rfl
  | succ level ih =>
    unfold walkFrom
    split
    · rfl
    · next hz =>
      split
      · rfl
      · next hps =>
        obtain ⟨hf, h⟩ := (h.resolve_left hz).resolve_left hps
        rw [entry_congr (pdx_lt _ _) (hp _ hf)]
        exact ih (h _ (pdx_lt _ _)) _

/-! ## What a call builds -/

/-- From `s` to `s'` the entries of the level-`level` table `t` for the addresses in `T` are set, with
tables from `k` below them, and `g` is what is found for these addresses. The table is for the
addresses from `base` on. -/
structure Built (zero : Frame) (level : ℕ) (t : Frame) (base : ℤ) (T : ℤ → Prop) (g : ℤ → Found)
    (s s' : Mem) (k : List Frame) : Prop where
  page : ∀ f, f ∉ k → f ≠ t → s'.page f = s.page f
  within : ∀ va, base ≤ va → va < base + pdSize (level + 1) → T va →
    Within s' zero k level (s'.entry t (pdx level va))
  found : ∀ va, base ≤ va → va < base + pdSize (level + 1) → T va → ∀ user,
    walkFrom s' zero va level (s'.entry t (pdx level va)) user = g va
  other : ∀ va, base ≤ va → va < base + pdSize (level + 1) → ¬ T va →
    s'.entry t (pdx level va) = s.entry t (pdx level va)

/-- The same, with at most `c` tables taken from the front of the free list `l`. -/
def Fills (zero : Frame) (level : ℕ) (t : Frame) (base : ℤ) (T : ℤ → Prop) (g : ℤ → Found) (c : ℕ)
    (l : List Frame) (s s' : Mem) : Prop :=
  ∃ k l', l = k ++ l' ∧ k.length ≤ c ∧ Chain s'.freeNext s'.freelist l' ∧
    Built zero level t base T g s s' k

section

variable {base : ℤ} {T T' U : ℤ → Prop} {g g' w : ℤ → Found} {c c' d : ℕ}

theorem Fills.refl (h : Chain s.freeNext s.freelist l) :
    Fills zero level t base (fun _ => False) g 0 l s s :=
  ⟨[], l, rfl, le_rfl, h, fun _ _ _ => rfl, fun _ _ _ h => h.elim, fun _ _ _ h => h.elim,
    fun _ _ _ _ => rfl⟩

/-- Only the addresses of the table matter. -/
theorem Fills.congr (h : Fills zero level t base T g c l s s')
    (hT : ∀ va, base ≤ va → va < base + pdSize (level + 1) → (T' va ↔ T va))
    (hg : ∀ va, base ≤ va → va < base + pdSize (level + 1) → T va → g' va = g va) (hc : c ≤ c') :
    Fills zero level t base T' g' c' l s s' := by
  obtain ⟨k, l', hl, hk, hch, hb⟩ := h
  refine ⟨k, l', hl, hk.trans hc, hch, hb.page, ?_, ?_, ?_⟩
  · intro va h₁ h₂ h
    exact hb.within va h₁ h₂ ((hT va h₁ h₂).1 h)
  · intro va h₁ h₂ h user
    have h := (hT va h₁ h₂).1 h
    rw [hb.found va h₁ h₂ h user, hg va h₁ h₂ h]
  · intro va h₁ h₂ h
    exact hb.other va h₁ h₂ fun h' => h ((hT va h₁ h₂).2 h')

/-- Two calls for one table; where both set an entry the second one counts. -/
theorem Built.trans (h : Built zero level t base T g s s₁ k) (h' : Built zero level t base T' g' s₁ s₂ k')
    (hd : ∀ f ∈ k, f ∉ k') (ht : t ∉ k) (hg : ∀ va, T va → ¬ T' va → g' va = g va) :
    Built zero level t base (fun va => T va ∨ T' va) g' s s₂ (k ++ k') := by
  have hpage : ∀ f ∈ k, s₂.page f = s₁.page f :=
    fun f hf => h'.page f (hd f hf) fun e => ht (e ▸ hf)
  refine ⟨?_, ?_, ?_, ?_⟩
  · intro f hf hft
    rw [List.mem_append, not_or] at hf
    rw [h'.page f hf.2 hft, h.page f hf.1 hft]
  · intro va h₁ h₂ hT
    by_cases hT' : T' va
    · exact (h'.within va h₁ h₂ hT').mono fun f hf => List.mem_append_right k hf
    · rw [h'.other va h₁ h₂ hT']
      have hw := (h.within va h₁ h₂ (hT.resolve_right hT')).congr hpage
      exact hw.mono fun f hf => List.mem_append_left k' hf
  · intro va h₁ h₂ hT user
    by_cases hT' : T' va
    · exact h'.found va h₁ h₂ hT' user
    · have hT := hT.resolve_right hT'
      rw [h'.other va h₁ h₂ hT', (h.within va h₁ h₂ hT).walkFrom_eq hpage, h.found va h₁ h₂ hT,
        hg va hT hT']
  · intro va h₁ h₂ hT
    rw [not_or] at hT
    rw [h'.other va h₁ h₂ hT.2, h.other va h₁ h₂ hT.1]

/-- The next call, which finds the rest of the free list. -/
theorem Fills.bind {α : Type} {m : Kern α} {Q : α → Mem → Prop}
    (h : Fills zero level t base T g c l s s₁) (hn : l.Nodup) (ht : t ∉ l) (hc : c + d ≤ l.length)
    (hm : ∀ l₁, Chain s₁.freeNext s₁.freelist l₁ → l₁.Nodup → t ∉ l₁ → d ≤ l₁.length →
      Meets ∅ m s₁ fun a s₂ => Q a s₂ ∧ Fills zero level t base U w d l₁ s₁ s₂)
    (hg : ∀ va, T va → ¬ U va → w va = g va) :
    Meets ∅ m s₁ fun a s₂ => Q a s₂ ∧
      Fills zero level t base (fun va => T va ∨ U va) w (c + d) l s s₂ := by
  obtain ⟨k, l₁, rfl, hk, hch, hb⟩ := h
  rw [List.nodup_append] at hn
  rw [List.mem_append, not_or] at ht
  rw [List.length_append] at hc
  refine (hm l₁ hch hn.2.1 ht.2 (by omega)).imp ?_
  rintro a s₂ ⟨hQ, k', l₂, rfl, hk', hch', hb'⟩
  refine ⟨hQ, k ++ k', l₂, by simp, ?_, hch', ?_⟩
  · rw [List.length_append]
    omega
  · refine hb.trans hb' (fun f hf hf' => ?_) ht.1 hg
    exact hn.2.2 f hf f (List.mem_append_left l₂ hf') rfl

end

/-! ## Rounds and loops -/

/-- The addresses of one entry. -/
def Ent (level : ℕ) (v va : ℤ) : Prop := va / pdSize level = v / pdSize level

/-- The addresses of the entries that `[v, hi)` meets. -/
def Hull (level : ℕ) (v hi va : ℤ) : Prop :=
  v < hi ∧ v / pdSize level ≤ va / pdSize level ∧ va / pdSize level ≤ (hi - 1) / pdSize level

/-- The number of these entries. -/
def hullCount (level : ℕ) (v hi : ℤ) : ℕ :=
  if v < hi then ((hi - 1) / pdSize level - v / pdSize level + 1).toNat else 0

/-- The levels of the tables that `pmap_init` builds. -/
def BootLevel (level : ℕ) : Prop := level = 1 ∨ level = 2 ∨ level = 3

theorem pdx_eq_iff {v base : ℤ} (hl : BootLevel level) (hb : base % pdSize (level + 1) = 0)
    (hv : base ≤ v) (hv' : v < base + pdSize (level + 1)) (ha : base ≤ va)
    (ha' : va < base + pdSize (level + 1)) : pdx level va = pdx level v ↔ Ent level v va := by
  unfold pdx Ent
  rcases hl with rfl | rfl | rfl <;> simp only [pdSize] at * <;> omega

/-- An entry is written for the addresses in it. -/
theorem built_write {v base : ℤ} {g : ℤ → Found} (hl : BootLevel level)
    (hb : base % pdSize (level + 1) = 0) (hv : base ≤ v) (hv' : v < base + pdSize (level + 1))
    (hk : t ∉ k) (hw : Within s zero k level e)
    (hg : ∀ va, Ent level v va → ∀ user, walkFrom s zero va level e user = g va) :
    Built zero level t base (Ent level v) g s (s.setEntry t (pdx level v) e) k := by
  have hi := pdx_lt level v
  have hpage : ∀ f ∈ k, (s.setEntry t (pdx level v) e).page f = s.page f :=
    fun f hf => setEntry_page_ne hi fun h => hk (h ▸ hf)
  refine ⟨fun f _ hf => setEntry_page_ne hi hf, ?_, ?_, ?_⟩
  · intro va h₁ h₂ hT
    rw [(pdx_eq_iff hl hb hv hv' h₁ h₂).2 hT, setEntry_entry_self hi]
    exact hw.congr hpage
  · intro va h₁ h₂ hT user
    rw [(pdx_eq_iff hl hb hv hv' h₁ h₂).2 hT, setEntry_entry_self hi, hw.walkFrom_eq hpage]
    exact hg va hT user
  · intro va h₁ h₂ hT
    refine setEntry_entry_ne hi (pdx_lt level va) (.inr fun h => hT ?_)
    exact (pdx_eq_iff hl hb hv hv' h₁ h₂).1 h

/-- What one round of the loop should do from `vaddr`: set the entry and go on to the next one, or
to the end of the range. -/
def RoundSpec (maxLevel : ℕ) (zero : Frame) (lower : Frame → ℤ → ℤ → ℤ → BitVec 16 → Kern Unit)
    (level : ℕ) (t : Frame) (perm : BitVec 16) (base vhi : ℤ) (J : ℤ → ℤ → Prop) (g : ℤ → Found)
    (c : ℕ) : Prop :=
  ∀ (s : Mem) (l : List Frame) (vaddr paddr : ℤ), Chain s.freeNext s.freelist l → l.Nodup →
    t ∉ l → c ≤ l.length → J vaddr paddr → base ≤ vaddr → vaddr < vhi →
    Meets ∅ (bootEntry maxLevel zero lower level t perm vhi (vaddr, paddr)) s fun x s' =>
      (x.1 = min (pdAddr level vaddr + pdSize level) vhi ∧ J x.1 x.2) ∧
      Fills zero level t base (Ent level vaddr) g c l s s'

theorem hull_step {v x hi y : ℤ} (hl : BootLevel level) (hvx : v ≤ x) (hx : x < hi)
    (hx' : x = v ∨ x % pdSize level = 0) (hy : y = min (pdAddr level x + pdSize level) hi) :
    (∀ va, Hull level v y va ↔ Hull level v x va ∨ Ent level x va) ∧
    hullCount level v y = hullCount level v x + 1 ∧ x < y ∧ y ≤ hi ∧
    (y % pdSize level = 0 ∨ y = hi) := by
  unfold Hull hullCount Ent
  unfold pdAddr at hy
  rcases hl with rfl | rfl | rfl <;> simp only [pdSize] at * <;>
    refine ⟨fun va => ?_, ?_, ?_, ?_, ?_⟩ <;> (try split) <;> (try split) <;> omega

theorem hullCount_mono {v y hi : ℤ} (hl : BootLevel level) (hy : y ≤ hi) :
    hullCount level v y ≤ hullCount level v hi := by
  unfold hullCount
  rcases hl with rfl | rfl | rfl <;> simp only [pdSize] at * <;> split <;> split <;> omega

/-- The loop sets the entries that the range meets. -/
theorem fills_loop {lower : Frame → ℤ → ℤ → ℤ → BitVec 16 → Kern Unit} {base v : ℤ} {p : ℤ}
    {J : ℤ → ℤ → Prop} {g : ℤ → Found} {c : ℕ} {s : Mem} {l : List Frame} (hl : BootLevel level)
    (hround : RoundSpec maxLevel zero lower level t perm base (v + size) J g c)
    (hv : v % pageSize = 0) (hp : p % pageSize = 0) (hsize : size % pageSize = 0) (hpos : 0 ≤ size)
    (hbv : base ≤ v) (hJ : J v p)
    (hch : Chain s.freeNext s.freelist l) (hn : l.Nodup) (ht : t ∉ l)
    (hc : c * hullCount level v (v + size) ≤ l.length) :
    Meets ∅ (bootLoop maxLevel zero lower level t v p size perm) s fun _ s' =>
      Fills zero level t base (Hull level v (v + size)) g (c * hullCount level v (v + size)) l
        s s' := by
  unfold bootLoop
  simp only [hv, hp, hsize, sub_zero]
  refine ends_bind ?_
  refine ends_whileM (I := fun x s' => (v ≤ x.1 ∧ x.1 ≤ v + size ∧ J x.1 x.2 ∧
      (x.1 = v ∨ x.1 % (pdSize level : ℤ) = 0 ∨ x.1 = v + size)) ∧
    Fills zero level t base (Hull level v x.1) g (c * hullCount level v x.1) l s s')
    (fun x => (v + size - x.1).toNat) ?_ ?_ ?_ _ _ _ (by simp) ?_
  · rintro ⟨x, q⟩ u ⟨⟨h₁, h₂, -⟩, -⟩ hx
    simp only [decide_eq_true_eq] at hx
    simp only
    omega
  · rintro ⟨x, q⟩ u ⟨⟨h₁, h₂, hJ', hx'⟩, hf⟩ hx
    simp only [decide_eq_true_eq] at hx h₁ h₂ hJ' hx' hf ⊢
    have hx'' : x = v ∨ x % (pdSize level : ℤ) = 0 := by
      rcases hx' with h | h | h
      · exact .inl h
      · exact .inr h
      · omega
    obtain ⟨hT, hcnt, hlt, hle, hal⟩ := hull_step hl h₁ hx hx'' rfl
    have hcost : c * hullCount level v x + c ≤ l.length := by
      refine le_trans ?_ hc
      rw [← Nat.mul_succ]
      refine Nat.mul_le_mul_left c ?_
      rw [Nat.succ_eq_add_one, ← hcnt]
      exact hullCount_mono hl hle
    refine (hf.bind (U := Ent level x) (w := g) hn ht hcost (fun l₁ hch₁ hn₁ ht₁ hc₁ =>
      hround u l₁ x q hch₁ hn₁ ht₁ hc₁ hJ' (by omega) hx) fun _ _ _ => rfl).imp ?_
    rintro ⟨y, q'⟩ u' ⟨⟨hy, hJ''⟩, hf'⟩
    simp only at hy hJ'' ⊢
    subst hy
    refine ⟨⟨⟨by omega, hle, hJ'', .inr hal⟩, ?_⟩, by omega⟩
    refine hf'.congr (fun va _ _ => hT va) (fun _ _ _ _ => rfl) ?_
    rw [hcnt, Nat.mul_succ]
  · rintro ⟨x, q⟩ u ⟨⟨h₁, h₂, -⟩, hf⟩ hx
    simp only [decide_eq_false_iff_not] at hx
    obtain rfl : x = v + size := by
      simp only at h₂
      omega
    exact ends_pure.2 hf
  · refine ⟨⟨le_rfl, by omega, hJ, .inl rfl⟩, ?_⟩
    refine (Fills.refl (g := g) hch).congr (fun va _ _ => ?_) (fun _ _ _ h => h.elim) (Nat.zero_le _)
    exact ⟨fun h => absurd h.1 (lt_irrefl v), fun h => h.elim⟩

/-! ## Whole entries -/

theorem walkFrom_zeroEntry (user : Bool) :
    walkFrom s zero va level (zeroEntry zero) user = .zero := by
  cases level <;> simp [walkFrom]

theorem pagePerm_kernelRW (hl : BootLevel level) : pagePerm level kernelRW = 0x183 := by
  rcases hl with rfl | rfl | rfl <;> decide

/-- What is found through an entry that maps a large page. -/
theorem walkFrom_pageWord (hl : BootLevel level) (hp : 0 ≤ paddr) (hp' : paddr < 2 ^ 52)
    (ha : paddr % pageSize = 0) (user : Bool) :
    isPS (pageWord paddr (pagePerm level kernelRW)) = true ∧
    walkFrom s zero va level (pageWord paddr (pagePerm level kernelRW)) user
      = .page (paddr + pdOff level va) false := by
  obtain ⟨n, hn, rfl⟩ : ∃ n : ℕ, n < 2 ^ 40 ∧ paddr = n * pageSize :=
    ⟨(paddr / pageSize).toNat, by simp only [pageSize] at *; omega, by
      simp only [pageSize] at *; omega⟩
  rw [pagePerm_kernelRW hl, pageWord_fields hn (by decide)]
  have hne : Pte.mk' (BitVec.ofNat 40 n) (BitVec.setWidth 12 (0x183 : BitVec 16)) ≠ zeroEntry zero := by
    intro h
    have : BitVec.setWidth 12 (0x183 : BitVec 16) = 0 := congrArg Pte.flags h
    exact absurd this (by decide)
  have hps : isPS (Pte.mk' (BitVec.ofNat 40 n) (BitVec.setWidth 12 (0x183 : BitVec 16))) = true := by
    change (BitVec.setWidth 12 (0x183 : BitVec 16)).getLsbD 7 = true
    decide
  have hu : (Pte.mk' (BitVec.ofNat 40 n) (BitVec.setWidth 12 (0x183 : BitVec 16))).isU = false := by
    change (BitVec.setWidth 12 (0x183 : BitVec 16)).getLsbD 2 = false
    decide
  refine ⟨hps, ?_⟩
  obtain ⟨m, rfl⟩ : ∃ m, level = m + 1 := by
    rcases hl with rfl | rfl | rfl <;> exact ⟨_, rfl⟩
  unfold walkFrom
  rw [if_neg hne, if_pos hps, hu, Bool.and_false, Pte.mk'_frame, BitVec.toNat_ofNat,
    Nat.mod_eq_of_lt hn]

/-- The addresses are those of whole entries, at the distance `d` of each other. -/
def Whole (level : ℕ) (d v p : ℤ) : Prop := v % pdSize level = 0 ∧ p % pdSize level = 0 ∧ p = v + d

/-- A round that erases a whole entry. -/
theorem round_erase {lower : Frame → ℤ → ℤ → ℤ → BitVec 16 → Kern Unit} {base d : ℤ}
    (hl : BootLevel level) (hb : base % pdSize (level + 1) = 0)
    (hend : vhi ≤ base + pdSize (level + 1)) (hhi : vhi % pdSize level = 0) :
    RoundSpec maxLevel zero lower level t erase base vhi (Whole level d) (fun _ => .zero) 0 := by
  rintro s l v p hch hn ht - ⟨hv, hp, hd⟩ hbv hvhi
  have hle : (pdSize level : ℤ) ≤ vhi - v := by
    rcases hl with rfl | rfl | rfl <;> simp only [pdSize] at * <;> omega
  unfold bootEntry
  simp only
  rw [if_pos ⟨hv, hp, hle, by simp⟩]
  refine ends_bind (ends_modify (ends_pure.2 ⟨⟨?_, ?_⟩, [], l, rfl, le_rfl, hch, ?_⟩))
  · simp only [pdAddr]
    omega
  · refine ⟨?_, ?_, ?_⟩
    · simp [hv]
    · simp [hp]
    · simp only
      omega
  · refine built_write hl hb hbv (by omega) (by simp) ?_ ?_
    · cases level <;> simp [Within, wholeEntry]
    · intro va _ user
      exact walkFrom_zeroEntry user

/-- A round that maps a whole entry. -/
theorem round_map {lower : Frame → ℤ → ℤ → ℤ → BitVec 16 → Kern Unit} {base d : ℤ}
    (hl : BootLevel level) (hb : base % pdSize (level + 1) = 0)
    (hend : vhi ≤ base + pdSize (level + 1)) (hhi : vhi % pdSize level = 0) (hmax : level ≤ maxLevel)
    (hlo : 0 ≤ base + d) (hup : vhi + d < 2 ^ 52) :
    RoundSpec maxLevel zero lower level t kernelRW base vhi (Whole level d)
      (fun va => .page (va + d) false) 0 := by
  rintro s l v p hch hn ht - ⟨hv, hp, rfl⟩ hbv hvhi
  have hle : (pdSize level : ℤ) ≤ vhi - v := by
    rcases hl with rfl | rfl | rfl <;> simp only [pdSize] at * <;> omega
  have hpage : (v + d) % (pageSize : ℤ) = 0 := by
    rcases hl with rfl | rfl | rfl <;> simp only [pdSize, pageSize] at * <;> omega
  have hw := fun (s : Mem) (va : ℤ) (user : Bool) => @walkFrom_pageWord _ zero s va _ hl
    (show 0 ≤ v + d by omega) (by omega) hpage user
  unfold bootEntry
  simp only
  rw [if_pos ⟨hv, hp, hle, .inl hmax⟩]
  refine ends_bind (ends_modify (ends_pure.2 ⟨⟨?_, ?_⟩, [], l, rfl, le_rfl, hch, ?_⟩))
  · simp only [pdAddr]
    omega
  · refine ⟨?_, ?_, ?_⟩
    · simp [hv]
    · simp [hp]
    · simp only
      omega
  · have he : wholeEntry zero level (v + d) kernelRW = pageWord (v + d) (pagePerm level kernelRW) :=
      if_pos (by decide)
    rw [he]
    refine built_write hl hb hbv (by omega) (by simp) ?_ ?_
    · cases level with
      | zero => trivial
      | succ n => exact .inr (.inl (hw s 0 true).1)
    · intro va hva user
      rw [(hw s va user).2]
      unfold Ent at hva
      unfold pdOff
      rcases hl with rfl | rfl | rfl <;> simp only [pdSize] at * <;> congr 1 <;> omega

/-! ## New tables -/

/-- What a call for a table of level `m` does from any state with enough free pages. -/
def CallSpec (zero : Frame) (m : ℕ) (base : ℤ) (call : Frame → Kern Unit) (T : ℤ → Prop)
    (g : ℤ → Found) (c : ℕ) : Prop :=
  ∀ (s : Mem) (l : List Frame) (pi : Frame), Chain s.freeNext s.freelist l → l.Nodup → pi ∉ l →
    c ≤ l.length → Meets ∅ (call pi) s fun _ s' => Fills zero m pi base T g c l s s'

/-- Three calls that set all entries of a table. -/
theorem CallSpec.three {m : ℕ} {base : ℤ} {f₁ f₂ f₃ : Frame → Kern Unit} {T₁ T₂ T₃ : ℤ → Prop}
    {g₁ g₂ g : ℤ → Found} {a d c₃ : ℕ} (h₁ : CallSpec zero m base f₁ T₁ g₁ a)
    (h₂ : CallSpec zero m base f₂ T₂ g₂ d) (h₃ : CallSpec zero m base f₃ T₃ g c₃)
    (hg₁ : ∀ va, T₁ va → ¬ T₂ va → g₂ va = g₁ va)
    (hg₂ : ∀ va, T₁ va ∨ T₂ va → ¬ T₃ va → g va = g₂ va)
    (hall : ∀ va, base ≤ va → va < base + pdSize (m + 1) → (T₁ va ∨ T₂ va) ∨ T₃ va) :
    CallSpec zero m base (fun pi => do f₁ pi; f₂ pi; f₃ pi) (fun _ => True) g (a + d + c₃) := by
  intro s l pi hch hn hpi hc
  refine ends_bind ((h₁ s l pi hch hn hpi (by omega)).imp fun _ s₁ hf₁ => ?_)
  refine ends_bind (Ends.imp (hf₁.bind (Q := fun _ _ => True) (d := d) hn hpi (by omega)
    (fun l₁ hch₁ hn₁ hpi₁ hc₁ => ?_) hg₁) ?_)
  · exact (h₂ s₁ l₁ pi hch₁ hn₁ hpi₁ hc₁).imp fun _ _ h => ⟨trivial, h⟩
  rintro _ s₂ ⟨-, hf₂⟩
  refine (hf₂.bind (Q := fun _ _ => True) (d := c₃) hn hpi hc
    (fun l₂ hch₂ hn₂ hpi₂ hc₂ => ?_) hg₂).imp ?_
  · exact (h₃ s₂ l₂ pi hch₂ hn₂ hpi₂ hc₂).imp fun _ _ h => ⟨trivial, h⟩
  rintro _ s₃ ⟨-, hf₃⟩
  refine hf₃.congr (fun va h h' => ?_) (fun _ _ _ _ => rfl) le_rfl
  exact ⟨fun _ => hall va h h', fun _ => trivial⟩

theorem chain_taken (hch : Chain s.freeNext s.freelist (pi :: l)) (hn : (pi :: l).Nodup) :
    s.freelist = some pi ∧ Chain (s.taken pi).freeNext (s.taken pi).freelist l := by
  obtain ⟨hf, hch⟩ := hch
  exact ⟨hf, hch.update (List.nodup_cons.1 hn).1 none⟩

theorem dirPerm_fields (hperm : perm = kernelRW ∨ perm = erase) :
    (dirPerm perm).toNat < 2 ^ 12 ∧ ((dirPerm perm).setWidth 12 : BitVec 12) ≠ 0 ∧
      ((dirPerm perm).setWidth 12 : BitVec 12).getLsbD 7 = false := by
  rcases hperm with rfl | rfl <;> decide

/-- An entry for a new table: what is found for an address is what is found in the table. -/
theorem table_entry {m : ℕ} {base : ℤ} {g : ℤ → Found} (hperm : perm = kernelRW ∨ perm = erase)
    (hl : BootLevel m) (hb : base % pdSize (m + 1) = 0)
    (h : Built zero m pi base (fun _ => True) g s s' k) :
    Within s' zero (pi :: k) (m + 1) (pageWord (pi.toNat * pageSize) (dirPerm perm)) ∧
    ∀ va, base ≤ va → va < base + pdSize (m + 1) → ∀ user, walkFrom s' zero va (m + 1)
      (pageWord (pi.toNat * pageSize) (dirPerm perm)) user = g va := by
  obtain ⟨hlt, hne, hps⟩ := dirPerm_fields hperm
  rw [pageWord_fields pi.isLt hlt]
  set e := Pte.mk' (BitVec.ofNat 40 pi.toNat) ((dirPerm perm).setWidth 12) with he
  have hf : e.frame = pi := by simp [he]
  have hz : e ≠ zeroEntry zero := fun h => hne (congrArg Pte.flags h)
  have hps : ¬ isPS e = true := by
    rw [show isPS e = false from hps]
    decide
  constructor
  · refine .inr (.inr ⟨by rw [hf]; simp, fun i hi => ?_⟩)
    rw [hf]
    -- the address of the entry
    have hidx : pdx m (base + i * pdSize m) = i := by
      unfold pdx
      rcases hl with rfl | rfl | rfl <;> simp only [pdSize] at * <;> omega
    have hin : base + i * pdSize m < base + pdSize (m + 1) := by
      rcases hl with rfl | rfl | rfl <;> simp only [pdSize] at * <;> omega
    have hpos : (0 : ℤ) ≤ i * pdSize m := by positivity
    have hw := h.within (base + i * pdSize m) (by omega) hin trivial
    rw [hidx] at hw
    exact hw.mono fun f hf => List.mem_cons_of_mem pi hf
  · intro va h₁ h₂ user
    rw [walkFrom, if_neg hz, if_neg hps, hf]
    exact h.found va h₁ h₂ trivial _

/-- A round that makes a table for its entry. -/
theorem round_table {m : ℕ} {lower : Frame → ℤ → ℤ → ℤ → BitVec 16 → Kern Unit} {base v p : ℤ}
    {g : ℤ → Found} {c : ℕ} (hperm : perm = kernelRW ∨ perm = erase) (hl : BootLevel (m + 1))
    (hm : BootLevel m) (hb : base % pdSize (m + 1 + 1) = 0)
    (hend : vhi ≤ base + pdSize (m + 1 + 1)) (hbv : base ≤ v) (hvhi : v < vhi)
    (hnot : ¬(pdOff (m + 1) v = 0 ∧ pdOff (m + 1) p = 0 ∧ (pdSize (m + 1) : ℤ) ≤ vhi - v ∧
      (m + 1 ≤ maxLevel ∨ perm = erase)))
    (hsize : size = min (pdSize (m + 1) - pdOff (m + 1) v) (vhi - v))
    (hcall : CallSpec zero m (pdAddr (m + 1) v) (fillTable lower (m + 1) v p size perm)
      (fun _ => True) g c)
    (hch : Chain s.freeNext s.freelist l) (hn : l.Nodup) (ht : t ∉ l) (hc : c + 1 ≤ l.length) :
    Meets ∅ (bootEntry maxLevel zero lower (m + 1) t perm vhi (v, p)) s fun x s' =>
      (x = (v + size, p + size)) ∧
      Fills zero (m + 1) t base (Ent (m + 1) v) g (c + 1) l s s' := by
  cases l with
  | nil => simp at hc
  | cons pi l =>
    obtain ⟨hf, hch'⟩ := chain_taken hch hn
    obtain ⟨hpi, hn'⟩ := List.nodup_cons.1 hn
    rw [List.mem_cons, not_or] at ht
    rw [List.length_cons] at hc
    unfold bootEntry
    simp only
    rw [if_neg hnot, ← hsize]
    unfold partTable
    refine ends_bind (ends_bind (ends_memAlloc (fun h => ?_) fun pi' h => ?_))
    · rw [hf] at h
      cases h
    obtain rfl := Option.some.inj (hf.symm.trans h)
    refine ends_bind ((hcall (s.taken pi) l pi hch' hn' hpi (by omega)).imp ?_)
    rintro _ s' ⟨k, l', rfl, hk, hch'', hbuilt⟩
    refine ends_pure.2 (ends_bind (ends_modify (ends_pure.2 ⟨rfl, pi :: k, l', rfl, ?_, hch'', ?_⟩)))
    · simp only [List.length_cons]
      omega
    have hbase : pdAddr (m + 1) v % pdSize (m + 1) = 0 := by
      unfold pdAddr
      rcases hl with h | h | h <;> simp only [h, pdSize] at * <;> omega
    obtain ⟨hwithin, hfound⟩ := table_entry hperm hm hbase hbuilt
    have htk : t ∉ pi :: k := by
      rw [List.mem_cons, not_or]
      exact ⟨ht.1, fun h => ht.2 (List.mem_append_left l' h)⟩
    have hw := built_write hl hb hbv (by omega) htk hwithin (g := g) fun va hva user => ?_
    · refine ⟨?_, hw.within, hw.found, ?_⟩
      · intro f hf hft
        rw [hw.page f hf hft]
        rw [List.mem_cons, not_or] at hf
        exact hbuilt.page f hf.2 hf.1
      · intro va h₁ h₂ hT
        rw [hw.other va h₁ h₂ hT]
        refine entry_congr (pdx_lt _ _) ?_
        rw [List.mem_cons, not_or] at htk
        exact hbuilt.page t htk.2 htk.1
    · refine hfound va ?_ ?_ user
      · unfold Ent at hva
        unfold pdAddr
        rcases hl with h | h | h <;> simp only [h, pdSize] at * <;> omega
      · unfold Ent at hva
        unfold pdAddr
        rcases hl with h | h | h <;> simp only [h, pdSize] at * <;> omega

/-! ## The calls for one table -/

/-- The loop, for a table of any frame. -/
theorem callSpec_loop {m : ℕ} {lower : Frame → ℤ → ℤ → ℤ → BitVec 16 → Kern Unit} {base v p n : ℤ}
    {J : ℤ → ℤ → Prop} {g : ℤ → Found} {c : ℕ} (hl : BootLevel m)
    (hround : ∀ t, RoundSpec maxLevel zero lower m t perm base (v + n) J g c)
    (hv : v % pageSize = 0) (hp : p % pageSize = 0) (hn : n % pageSize = 0) (hpos : 0 ≤ n)
    (hbv : base ≤ v) (hJ : J v p) :
    CallSpec zero m base (fun pi => bootLoop maxLevel zero lower m pi v p n perm)
      (Hull m v (v + n)) g (c * hullCount m v (v + n)) :=
  fun _ _ pi hch hnd hpi hc => fills_loop hl (hround pi) hv hp hn hpos hbv hJ hch hnd hpi hc

theorem CallSpec.congr {m : ℕ} {base : ℤ} {f : Frame → Kern Unit} {T : ℤ → Prop} {g g' : ℤ → Found}
    {c d : ℕ} (h : CallSpec zero m base f T g c) (hg : ∀ va, T va → g' va = g va) (hc : c ≤ d) :
    CallSpec zero m base f T g' d :=
  fun s l pi hch hn hpi hl => (h s l pi hch hn hpi (hc.trans hl)).imp fun _ _ hf =>
    hf.congr (fun _ _ _ => Iff.rfl) (fun va _ _ hT => hg va hT) hc

/-- Erasing entries of a page directory. -/
theorem callSpec_erase_one {base v p n : ℤ} (hb : base % pdSize 2 = 0) (hv : v % pdSize 1 = 0)
    (hp : p % pdSize 1 = 0) (hn : n % pdSize 1 = 0) (hpos : 0 ≤ n) (hbv : base ≤ v)
    (hend : v + n ≤ base + pdSize 2) :
    CallSpec zero 1 base (fun pi => pmapInitBootpmap maxLevel zero 1 pi v p n erase)
      (Hull 1 v (v + n)) (fun _ => .zero) 0 := by
  have hl : BootLevel 1 := .inl rfl
  simp only [pdSize] at *
  refine (callSpec_loop hl (J := Whole 1 (p - v)) (fun t => round_erase hl ?_ ?_ ?_) ?_ ?_ ?_ hpos
    hbv ?_).congr (fun _ _ => rfl) (by simp)
  all_goals simp only [Whole, pdSize, pageSize]; omega

/-- Mapping entries of a page directory. -/
theorem callSpec_map_one {base p n : ℤ} (hmax : 1 ≤ maxLevel) (hb : base % pdSize 2 = 0)
    (hp : p % pdSize 1 = 0) (hn : n % pdSize 1 = 0) (hpos : 0 ≤ n) (hend : n ≤ pdSize 2)
    (hp' : 0 ≤ p) (hup : p + n < 2 ^ 52) :
    CallSpec zero 1 base (fun pi => pmapInitBootpmap maxLevel zero 1 pi base p n kernelRW)
      (Hull 1 base (base + n)) (fun va => .page (va + (p - base)) false) 0 := by
  have hl : BootLevel 1 := .inl rfl
  simp only [pdSize] at *
  refine (callSpec_loop hl (J := Whole 1 (p - base)) (fun t => round_map hl ?_ ?_ ?_ hmax ?_ ?_) ?_
    ?_ ?_ hpos le_rfl ?_).congr (fun _ _ => rfl) (by simp)
  all_goals (try simp only [Whole, pdSize, pageSize]); omega

theorem hullCount_two {base v hi : ℤ} (hb : base % pdSize 3 = 0) (hv : base ≤ v)
    (hend : hi ≤ base + pdSize 3) : hullCount 2 v hi ≤ 512 := by
  unfold hullCount
  simp only [pdSize] at *
  split <;> omega

/-- Erasing a range of a page directory pointer table. Once the range begins in the middle of an
entry no round finds both addresses aligned, and each makes an empty table. -/
theorem callSpec_erase_two {base v p n : ℤ} (hb : base % pdSize 3 = 0) (hv : v % pdSize 1 = 0)
    (hp : p % pdSize 1 = 0) (hn : (v + n) % pdSize 2 = 0) (hpos : 0 ≤ n) (hbv : base ≤ v)
    (hend : v + n ≤ base + pdSize 3) :
    CallSpec zero 2 base (fun pi => pmapInitBootpmap maxLevel zero 2 pi v p n erase)
      (Hull 2 v (v + n)) (fun _ => .zero) 512 := by
  have hl : BootLevel 2 := .inr (.inl rfl)
  have hround : ∀ t, RoundSpec maxLevel zero (pmapInitBootpmap maxLevel zero 1) 2 t erase base (v + n)
      (fun x q => x % pdSize 1 = 0 ∧ q % pdSize 1 = 0) (fun _ => .zero) 1 := by
    intro t s l x q hch hnd ht hc hJ hbx hx
    by_cases hw : x % (pdSize 2 : ℤ) = 0 ∧ q % (pdSize 2 : ℤ) = 0
    · refine (round_erase (d := q - x) hl hb hend hn s l x q hch hnd ht (Nat.zero_le _)
        ⟨hw.1, hw.2, by ring⟩ hbx hx).imp ?_
      rintro ⟨y, r⟩ s' ⟨⟨hy, hy', hr, -⟩, hf⟩
      refine ⟨⟨hy, ?_, ?_⟩, hf.congr (fun _ _ _ => Iff.rfl) (fun _ _ _ _ => rfl) (Nat.zero_le _)⟩
      all_goals simp only [pdSize] at *; omega
    · -- the table is erased in three calls, the last one for nothing
      have hsize : min ((pdSize 2 : ℤ) - pdOff 2 x) (v + n - x) = pdSize 2 - pdOff 2 x := by
        simp only [pdSize, pdOff] at *
        omega
      refine (round_table (m := 1) (c := 0) (g := fun _ => .zero)
        (.inr rfl) hl (.inl rfl) hb hend hbx hx (fun h => hw ⟨h.1, h.2.1⟩) hsize.symm ?_ hch hnd ht
        hc).imp ?_
      · refine CallSpec.three (callSpec_erase_one ?_ ?_ ?_ ?_ ?_ ?_ ?_)
          (callSpec_erase_one ?_ ?_ ?_ ?_ ?_ ?_ ?_) (callSpec_erase_one ?_ ?_ ?_ ?_ ?_ ?_ ?_)
          (fun _ _ _ => rfl) (fun _ _ _ => rfl) ?_
        all_goals simp only [pdAddr, pdOff, pdSize, Hull] at *; omega
      · rintro _ s' ⟨rfl, hf⟩
        refine ⟨⟨?_, ?_, ?_⟩, hf⟩
        all_goals simp only [pdAddr, pdOff, pdSize] at *; omega
  refine (callSpec_loop hl hround ?_ ?_ ?_ hpos hbv ⟨hv, hp⟩).congr (fun _ _ => rfl) ?_
  · simp only [pdSize, pageSize] at *
    omega
  · simp only [pdSize, pageSize] at *
    omega
  · simp only [pdSize, pageSize] at *
    omega
  · have := hullCount_two hb hbv hend
    omega

/-- A page directory whose first entries map the range. -/
theorem callSpec_fill_one {x p n : ℤ} (hmax : 1 ≤ maxLevel) (hx : x % pdSize 2 = 0)
    (hp : p % pdSize 1 = 0) (hn : n % pdSize 1 = 0) (hpos : 0 ≤ n) (hend : n ≤ pdSize 2)
    (hp' : 0 ≤ p) (hup : p + n < 2 ^ 52) :
    CallSpec zero 1 x (fillTable (pmapInitBootpmap maxLevel zero 1) 2 x p n kernelRW)
      (fun _ => True) (fun va => if va < x + n then .page (va + (p - x)) false else .zero) 0 := by
  have hbase : pdAddr 2 x = x := by
    rw [pdAddr, hx, sub_zero]
  have hoff : pdOff 2 x = 0 := hx
  unfold fillTable
  rw [hbase, hoff, sub_self, sub_zero]
  refine CallSpec.three (callSpec_erase_one hx ?_ ?_ ?_ ?_ ?_ ?_)
    (callSpec_map_one hmax hx hp hn hpos hend hp' hup)
    ((callSpec_erase_one hx ?_ ?_ ?_ ?_ ?_ ?_).congr (d := 0) ?_ le_rfl) ?_ ?_ ?_
  case refine_13 =>
    intro va hva
    refine if_neg ?_
    simp only [Hull, pdSize] at *
    omega
  case refine_14 =>
    intro va hva
    simp [Hull] at hva
  case refine_15 =>
    intro va hva hva'
    refine if_pos ?_
    simp only [Hull, pdSize] at *
    omega
  all_goals simp only [pdSize, Hull] at *; omega

/-- Mapping a range of a page directory pointer table. -/
theorem callSpec_map_two {base n : ℤ} (hmax : maxLevel = 1 ∨ maxLevel = 2) (hb : base % pdSize 3 = 0)
    (hn : n % pdSize maxLevel = 0) (hpos : 0 ≤ n) (hend : n ≤ pdSize 3) :
    CallSpec zero 2 base (fun pi => pmapInitBootpmap maxLevel zero 2 pi base 0 n kernelRW)
      (Hull 2 base (base + n))
      (fun va => if va < base + n then .page (va - base) false else .zero) 512 := by
  have hl : BootLevel 2 := .inr (.inl rfl)
  rcases hmax with rfl | rfl
  · have hround : ∀ t, RoundSpec 1 zero (pmapInitBootpmap 1 zero 1) 2 t kernelRW base (base + n)
        (fun x q => (x < base + n → x % pdSize 2 = 0) ∧ q = x - base)
        (fun va => if va < base + n then .page (va - base) false else .zero) 1 := by
      rintro t s l x q hch hnd ht hc ⟨hx', rfl⟩ hbx hx
      have hx' := hx' hx
      set size := min ((pdSize 2 : ℤ) - pdOff 2 x) (base + n - x) with hsize
      refine (round_table (m := 1) (c := 0) (.inl rfl) hl (.inl rfl) hb ?_ hbx hx ?_
        hsize (g := fun va => if va < x + size then .page (va - base) false else .zero) ?_
        hch hnd ht hc).imp ?_
      · simp only [pdSize] at *
        omega
      · rintro ⟨-, -, -, h | h⟩
        · omega
        · exact absurd h (by decide)
      · have hbase : pdAddr 2 x = x := by
          rw [pdAddr, hx', sub_zero]
        rw [hbase]
        refine (callSpec_fill_one le_rfl hx' ?_ ?_ ?_ ?_ ?_ ?_).congr (fun va _ => ?_) le_rfl
        case refine_7 => congr 2; ring
        all_goals simp only [pdOff, pdSize] at *; omega
      · rintro _ s' ⟨rfl, hf⟩
        refine ⟨⟨?_, ?_, ?_⟩, hf.congr (fun _ _ _ => Iff.rfl) (fun va _ _ hva => ?_) le_rfl⟩
        case refine_4 =>
          refine if_congr ?_ rfl rfl
          simp only [Ent, pdOff, pdSize] at *
          omega
        all_goals simp only [pdAddr, pdOff, pdSize] at *; omega
    refine (callSpec_loop hl hround ?_ ?_ ?_ hpos le_rfl ?_).congr (fun _ _ => rfl) ?_
    case refine_5 =>
      have : hullCount 2 base (base + n) ≤ 512 := hullCount_two hb le_rfl (by omega)
      omega
    all_goals simp only [pdSize, pageSize] at *; omega
  · refine (callSpec_loop hl (J := Whole 2 (-base)) (fun t => round_map hl ?_ ?_ ?_ le_rfl ?_ ?_) ?_
      ?_ ?_ hpos le_rfl ?_).congr (fun va hva => ?_) (by simp)
    case refine_10 =>
      rw [if_pos, sub_eq_add_neg]
      simp only [Hull, pdSize] at *
      omega
    all_goals (try simp only [Whole, pdSize, pageSize] at *); omega

/-- A page directory pointer table for a range from its beginning on. The last call takes back what
the one before it did for an entry that the range covers in part. -/
theorem callSpec_fill_two {base n : ℤ} (hmax : maxLevel = 1 ∨ maxLevel = 2)
    (hb : base % pdSize 3 = 0) (hn : n % pdSize maxLevel = 0) (hpos : 0 ≤ n) (hend : n ≤ pdSize 3) :
    CallSpec zero 2 base (fillTable (pmapInitBootpmap maxLevel zero 2) 3 base 0 n kernelRW)
      (fun _ => True)
      (fun va => if va < base + pdAddr 2 n then .page (va - base) false else .zero) 1536 := by
  have hbase : pdAddr 3 base = base := by
    rw [pdAddr, hb, sub_zero]
  have hoff : pdOff 3 base = 0 := hb
  have hn1 : n % (pdSize 1 : ℤ) = 0 := by
    rcases hmax with rfl | rfl <;> simp only [pdSize] at * <;> omega
  unfold fillTable
  rw [hbase, hoff, sub_self, sub_zero]
  refine CallSpec.three (a := 512) (d := 512) (callSpec_erase_two hb ?_ ?_ ?_ ?_ ?_ ?_)
    (callSpec_map_two hmax hb hn hpos hend)
    ((callSpec_erase_two hb ?_ ?_ ?_ ?_ ?_ ?_).congr (d := 512) ?_ le_rfl) ?_ ?_ ?_
  case refine_13 =>
    intro va hva
    refine if_neg ?_
    simp only [Hull, pdAddr, pdSize] at *
    omega
  case refine_14 =>
    intro va hva
    simp [Hull] at hva
  case refine_15 =>
    intro va hva hva'
    refine if_congr ?_ rfl rfl
    simp only [Hull, pdAddr, pdSize] at *
    omega
  all_goals simp only [pdSize, Hull] at *; omega

/-- Mapping a range from the beginning of an entry of the level-4 table on, and within it. -/
theorem fills_map_three {base v n : ℤ} (hmax : maxLevel = 1 ∨ maxLevel = 2)
    (hb : base % pdSize 4 = 0) (hv : v % pdSize 3 = 0) (hbv : base ≤ v)
    (hvb : v + pdSize 3 ≤ base + pdSize 4) (hn : n % pdSize maxLevel = 0) (hpos : 0 ≤ n)
    (hend : n ≤ pdSize 3) (hch : Chain s.freeNext s.freelist l) (hnd : l.Nodup) (ht : t ∉ l)
    (hc : 1537 ≤ l.length) :
    Meets ∅ (pmapInitBootpmap maxLevel zero 3 t v 0 n kernelRW) s fun _ s' =>
      Fills zero 3 t base (Hull 3 v (v + n))
        (fun va => if v ≤ va ∧ va < v + pdAddr 2 n then .page (va - v) false else .zero) 1537 l
        s s' := by
  have hl : BootLevel 3 := .inr (.inr rfl)
  have hbase : pdAddr 3 v = v := by
    rw [pdAddr, hv, sub_zero]
  have hround : ∀ t, RoundSpec maxLevel zero (pmapInitBootpmap maxLevel zero 2) 3 t kernelRW base
      (v + n) (fun x q => x < v + n → x = v ∧ q = 0)
      (fun va => if v ≤ va ∧ va < v + pdAddr 2 n then .page (va - v) false else .zero) 1537 := by
    intro t s l x q hch hnd ht hc hJ hbx hx
    obtain ⟨rfl, rfl⟩ := hJ hx
    have hsize : n = min (pdSize (2 + 1) - pdOff (2 + 1) x) (x + n - x) := by
      simp only [pdSize, pdOff] at *
      omega
    refine (round_table (m := 2) (c := 1536) (.inl rfl) hl (.inr (.inl rfl)) hb ?_ hbx hx
      ?_ hsize (g := fun va => if va < x + pdAddr 2 n then .page (va - x) false else .zero) ?_
      hch hnd ht hc).imp ?_
    · simp only [pdSize] at *
      omega
    · rintro ⟨-, -, -, h | h⟩
      · omega
      · exact absurd h (by decide)
    · rw [hbase]
      exact callSpec_fill_two hmax hv hn hpos hend
    · rintro _ s' ⟨rfl, hf⟩
      refine ⟨⟨?_, fun h => absurd h (lt_irrefl _)⟩,
        hf.congr (fun _ _ _ => Iff.rfl) (fun va _ _ hva => ?_) le_rfl⟩
      · simp only [hbase]
        omega
      · refine if_congr ?_ rfl rfl
        simp only [Ent, pdSize] at *
        omega
  have hcount : hullCount 3 v (v + n) ≤ 1 := by
    unfold hullCount
    simp only [pdSize] at *
    split <;> omega
  have hn1 : n % (pageSize : ℤ) = 0 := by
    rcases hmax with rfl | rfl <;> simp only [pdSize, pageSize] at * <;> omega
  refine Ends.imp (@fills_loop _ 3 _ _ _ _ _ _ _ _ _ _ _ _ _ hl (hround t) ?_ (by simp) hn1 hpos hbv
    (fun _ => ⟨rfl, rfl⟩) hch hnd ht (by omega)) fun _ s' hf => hf.congr (fun _ _ _ => Iff.rfl) (fun _ _ _ _ => rfl) (by omega)
  simp only [pdSize, pageSize] at *
  omega

/-- Erasing the whole level-4 table. -/
theorem fills_erase_three (hch : Chain s.freeNext s.freelist l) (hnd : l.Nodup) (ht : t ∉ l) :
    Meets ∅ (pmapInitBootpmap maxLevel zero 3 t 0 0 (2 ^ 48) erase) s fun _ s' =>
      Fills zero 3 t 0 (fun _ => True) (fun _ => .zero) 0 l s s' := by
  have hl : BootLevel 3 := .inr (.inr rfl)
  refine Ends.imp (fills_loop (c := 0) hl
    (round_erase (d := 0) hl (by simp) (by simp [pdSize]) (by decide)) (by simp) (by simp)
    (by decide) (by decide) le_rfl (by simp [Whole]) hch hnd ht (by simp)) fun _ s' hf => ?_
  refine hf.congr (fun va h h' => ?_) (fun _ _ _ _ => rfl) (by simp)
  refine ⟨fun _ => ⟨by decide, ?_, ?_⟩, fun _ => trivial⟩
  all_goals simp only [pdSize] at *; omega

/-! ## The page map of `pmap_init` -/

/-- An address and the one that differs from it by the size of the address space. -/
theorem walkFrom_shift (hl : level ≤ 3) (user : Bool) :
    walkFrom s zero (va + 2 ^ 48) level e user = walkFrom s zero va level e user := by
  have hoff : ∀ n ≤ 3, pdOff n (va + 2 ^ 48) = pdOff n va := by
    intro n hn
    unfold pdOff
    interval_cases n <;> simp only [pdSize] <;> omega
  have hpdx : ∀ n ≤ 3, pdx n (va + 2 ^ 48) = pdx n va := by
    intro n hn
    unfold pdx
    interval_cases n <;> simp only [pdSize] <;> omega
  induction level generalizing e user with
  | zero =>
    unfold walkFrom
    rw [hoff 0 hl]
  | succ n ih =>
    unfold walkFrom
    rw [hoff (n + 1) hl, hpdx n (by omega), ih (by omega)]

/-- What is found in the page map that `pmap_init` makes. -/
def found (r : ℕ) (va : ℤ) : Found :=
  if 0 ≤ va ∧ va < vmUserLo then .page va false
  else if vmKernLo ≤ va ∧ va < vmKernLo + r then .page (va - vmKernLo) false
  else .zero

/-- The page map is right: the low addresses and, from `VM_KERNLO` on, the physical memory are
mapped, for the kernel only, and nothing else is. -/
def BootOk (maxLevel memMax : ℕ) (zero t : Frame) (s : Mem) : Prop :=
  ∀ va : ℤ, -2 ^ 47 ≤ va → va < 2 ^ 47 → pdx 3 va ≠ selfOffset →
    bootWalk s zero t va = found (roundedMax maxLevel memMax) va

theorem roundedMax_spec {memMax : ℕ} (hmax : maxLevel = 1 ∨ maxLevel = 2) (h : memMax < 2 ^ 39) :
    (roundedMax maxLevel memMax : ℤ) % pdSize maxLevel = 0 ∧
      (roundedMax maxLevel memMax : ℤ) ≤ pdSize 3 := by
  unfold roundedMax roundUp
  rcases hmax with rfl | rfl <;> simp only [pdSize] <;> omega

/-- The third call leaves out the end of the memory that does not fill an entry of 1GB. -/
theorem initBootpmap_found {memMax : ℕ} (hmax : maxLevel = 1 ∨ maxLevel = 2)
    (hmem : memMax < 2 ^ 39) (hch : Chain s.freeNext s.freelist l) (hn : l.Nodup) (ht : t ∉ l)
    (hc : 3074 ≤ l.length) :
    Meets ∅ (initBootpmap maxLevel zero t memMax) s fun _ s' =>
      ∀ va : ℤ, -2 ^ 47 ≤ va → va < 2 ^ 47 → pdx 3 va ≠ selfOffset →
        bootWalk s' zero t va = found (roundedMax maxLevel memMax / 2 ^ 30 * 2 ^ 30) va := by
  obtain ⟨hr, hr'⟩ := roundedMax_spec hmax hmem
  set r := roundedMax maxLevel memMax
  have hlo : (vmUserLo : ℤ) % pdSize maxLevel = 0 := by
    rcases hmax with rfl | rfl <;> decide
  unfold initBootpmap
  refine ends_bind ((fills_erase_three hch hn ht).imp fun _ s₁ hf₁ => ?_)
  refine ends_bind (Ends.imp (hf₁.bind (Q := fun _ _ => True) (d := 1537)
    (U := Hull 3 0 (0 + vmUserLo))
    (w := fun va => if 0 ≤ va ∧ va < 0 + pdAddr 2 vmUserLo then .page (va - 0) false else .zero)
    hn ht (by omega) (fun l₁ hch₁ hn₁ ht₁ hc₁ => ?_) ?_) ?_)
  · refine (fills_map_three hmax ?_ ?_ ?_ ?_ hlo ?_ ?_ hch₁ hn₁ ht₁ hc₁).imp
      fun _ _ h => ⟨trivial, h⟩
    all_goals decide
  · intro va _ hva
    refine if_neg fun h => hva ?_
    simp only [Hull, pdAddr, pdSize, vmUserLo] at *
    omega
  rintro _ s₂ ⟨-, k, l₂, rfl, hk, hch₂, hb₂⟩
  rw [List.nodup_append] at hn
  rw [List.length_append] at hc
  rw [List.mem_append, not_or] at ht
  refine ends_bind (Ends.imp (fills_map_three (v := vmKernLo) hmax (show (-2 ^ 48 : ℤ) % pdSize 4 = 0 by decide)
    (by decide) (by decide) (by decide) hr (by omega) hr' hch₂ hn.2.1 ht.2 (by omega)) ?_)
  rintro _ s₃ ⟨k', l₃, rfl, -, -, hb₃⟩
  refine ends_modify fun va h₁ h₂ hself => ?_
  have htk : t ∉ k' := fun h => ht.2 (List.mem_append_left l₃ h)
  have hself' : ∀ f, f ≠ t → (s₃.setEntry t selfOffset
      (pageWord (t.toNat * pageSize) kernelRW)).page f = s₃.page f :=
    fun f hf => setEntry_page_ne (by decide) hf
  unfold bootWalk
  rw [setEntry_entry_ne (by decide) (pdx_lt 3 va) (.inr hself)]
  -- the address as the third call has it
  obtain ⟨va', hva', hlo', hhi'⟩ : ∃ va' : ℤ, (va' = va ∧ va < 0 ∨ va' + 2 ^ 48 = va ∧ 0 ≤ va) ∧
      -2 ^ 48 ≤ va' ∧ va' < 0 := by
    rcases lt_or_ge va 0 with h | h
    · exact ⟨va, .inl ⟨rfl, h⟩, by omega, h⟩
    · exact ⟨va - 2 ^ 48, .inr ⟨by ring, h⟩, by omega, by omega⟩
  have hpdx : pdx 3 va = pdx 3 va' := by
    unfold pdx
    simp only [pdSize]
    omega
  have hwalk : ∀ (s : Mem) (e : Pte) user,
      walkFrom s zero va 3 e user = walkFrom s zero va' 3 e user := by
    intro s e user
    rcases hva' with ⟨rfl, -⟩ | ⟨rfl, -⟩
    · rfl
    · exact walkFrom_shift le_rfl user
  rw [hpdx]
  have hhi'' : va' < -2 ^ 48 + pdSize (3 + 1) := by
    simp only [pdSize]
    omega
  by_cases hT : Hull 3 vmKernLo (vmKernLo + r) va'
  · rw [(hb₃.within va' hlo' hhi'' hT).walkFrom_eq fun f hf => hself' f fun h => htk (h ▸ hf), hwalk,
      hb₃.found va' hlo' hhi'' hT]
    obtain ⟨rfl, hneg⟩ : va' = va ∧ va < 0 := by
      simp only [Hull, pdSize, vmKernLo] at *
      omega
    unfold found
    rw [if_neg (c := 0 ≤ va' ∧ _) (by omega)]
    refine if_congr ?_ rfl rfl
    simp only [pdAddr, pdSize] at *
    omega
  · rw [hb₃.other va' hlo' hhi'' hT]
    have hlow : (0 : ℤ) ≤ va' + 2 ^ 48 := by omega
    have hhigh : va' + 2 ^ 48 < 0 + pdSize (3 + 1) := by
      simp only [pdSize]
      omega
    have hpdx' : pdx 3 va' = pdx 3 (va' + 2 ^ 48) := by
      unfold pdx
      simp only [pdSize]
      omega
    have hwithin := hb₂.within (va' + 2 ^ 48) hlow hhigh (.inl trivial)
    have hkeep : ∀ f ∈ k, (s₃.setEntry t selfOffset
        (pageWord (t.toNat * pageSize) kernelRW)).page f = s₂.page f := by
      intro f hf
      have hft : f ≠ t := fun h => ht.1 (h ▸ hf)
      rw [hself' f hft, hb₃.page f (fun h => hn.2.2 f hf f (List.mem_append_left l₃ h) rfl) hft]
    rw [hwalk, ← walkFrom_shift le_rfl, hpdx', hwithin.walkFrom_eq hkeep,
      hb₂.found (va' + 2 ^ 48) hlow hhigh (.inl trivial)]
    unfold found
    rcases hva' with ⟨rfl, h⟩ | ⟨hva, h⟩
    · rw [if_neg, if_neg, if_neg]
      all_goals simp only [Hull, pdAddr, pdSize, vmUserLo, vmKernLo] at *; omega
    · rw [hva, if_neg (c := vmKernLo ≤ va ∧ _), sub_zero]
      · refine if_congr ?_ rfl rfl
        simp only [pdAddr, pdSize, vmUserLo]
        omega
      · simp only [vmKernLo, pdSize] at *
        omega

/-- How much of the memory is mapped can be seen. -/
theorem found_eq_iff {r r' : ℕ} (h : r' ≤ r) (hr : r ≤ 2 ^ 39) :
    (∀ va : ℤ, -2 ^ 47 ≤ va → va < 2 ^ 47 → pdx 3 va ≠ selfOffset → found r' va = found r va) ↔
      r' = r := by
  constructor
  · intro hf
    by_contra hne
    have := hf (vmKernLo + r') (by simp only [vmKernLo]; omega) (by simp only [vmKernLo]; omega) ?_
    · unfold found at this
      rw [if_neg, if_neg, if_neg, if_pos] at this
      · cases this
      all_goals simp only [vmKernLo]; omega
    · unfold pdx selfOffset
      simp only [vmKernLo, pdSize]
      omega
  · rintro rfl va - - -
    rfl

theorem bootOk_iff {memMax : ℕ} (hmax : maxLevel = 1 ∨ maxLevel = 2) (hmem : memMax < 2 ^ 39)
    (hfound : ∀ va : ℤ, -2 ^ 47 ≤ va → va < 2 ^ 47 → pdx 3 va ≠ selfOffset →
      bootWalk s zero t va = found (roundedMax maxLevel memMax / 2 ^ 30 * 2 ^ 30) va) :
    BootOk maxLevel memMax zero t s ↔ maxLevel = 2 ∨ 2 ^ 30 ∣ roundedMax 1 memMax := by
  obtain ⟨hr, hr'⟩ := roundedMax_spec hmax hmem
  have hiff : BootOk maxLevel memMax zero t s ↔
      roundedMax maxLevel memMax / 2 ^ 30 * 2 ^ 30 = roundedMax maxLevel memMax := by
    rw [← found_eq_iff (by omega) (by simp only [pdSize] at hr'; omega)]
    refine forall_congr' fun va => forall_congr' fun h₁ => forall_congr' fun h₂ =>
      forall_congr' fun h₃ => ?_
    rw [hfound va h₁ h₂ h₃]
  rw [hiff]
  rcases hmax with rfl | rfl
  · omega
  · simp only [pdSize] at hr
    simp only [true_or, iff_true]
    omega

/-- The calls return: `mem_check` has seen that there are more than 16000 free pages. -/
theorem initBootpmap_returns {memMax : ℕ} (hmax : maxLevel = 1 ∨ maxLevel = 2)
    (hmem : memMax < 2 ^ 39) (hch : Chain s.freeNext s.freelist l) (hn : l.Nodup) (ht : t ∉ l)
    (hc : 16000 < l.length) :
    ∃ s', Returns ∅ (initBootpmap maxLevel zero t memMax) s () s' ∧
      ∀ va : ℤ, -2 ^ 47 ≤ va → va < 2 ^ 47 → pdx 3 va ≠ selfOffset →
        bootWalk s' zero t va = found (roundedMax maxLevel memMax / 2 ^ 30 * 2 ^ 30) va := by
  obtain ⟨_, s', hret, hfound⟩ := (initBootpmap_found hmax hmem hch hn ht
    (by omega)).returns fun n _ => Set.notMem_empty n
  exact ⟨s', hret, hfound⟩

/-- **The bootstrap page map is right if the processor has pages of 1GB, or if the memory, rounded up
to 2MB, fills such pages.** Otherwise the end of the memory is not mapped. The calls always return, so
the recursion does not go below level 0. -/
theorem initBootpmap_ok_iff {memMax : ℕ} (hmax : maxLevel = 1 ∨ maxLevel = 2)
    (hmem : memMax < 2 ^ 39) (hch : Chain s.freeNext s.freelist l) (hn : l.Nodup) (ht : t ∉ l)
    (hc : 16000 < l.length) :
    ∃ s', Returns ∅ (initBootpmap maxLevel zero t memMax) s () s' ∧
      (BootOk maxLevel memMax zero t s' ↔ maxLevel = 2 ∨ 2 ^ 30 ∣ roundedMax 1 memMax) := by
  obtain ⟨s', hret, hfound⟩ := @initBootpmap_returns _ zero _ _ _ _ hmax hmem hch hn ht hc
  exact ⟨s', hret, bootOk_iff hmax hmem hfound⟩

/-- The memory of a machine with 128 MB, where the pages from 4 MB on are free. -/
def smallMem : Mem where
  page := fun _ => Page.zeros
  refcount := fun _ => 0
  freeNext := fun f => if f.toNat + 1 < 0x8000 then some (BitVec.ofNat 40 (f.toNat + 1)) else none
  freelist := some 0x400
  dry := false

/-- A page of the kernel image for `pmap_bootpmap`. -/
def bootRoot : Frame := 0x180

/-- The pages from `lo` on are linked in order. -/
theorem smallMem_chain (n lo : ℕ) (h : lo + n + 1 = 0x8000) :
    Chain smallMem.freeNext (some (BitVec.ofNat 40 lo))
      ((List.range' lo (n + 1)).map (BitVec.ofNat 40)) := by
  have hlo : (BitVec.ofNat 40 lo).toNat = lo := by
    rw [BitVec.toNat_ofNat, Nat.mod_eq_of_lt (by omega)]
  induction n generalizing lo with
  | zero =>
    refine ⟨rfl, ?_⟩
    change (if (BitVec.ofNat 40 lo).toNat + 1 < 0x8000 then _ else none) = none
    rw [hlo, if_neg (by omega)]
  | succ n ih =>
    refine ⟨rfl, ?_⟩
    have hnext : smallMem.freeNext (BitVec.ofNat 40 lo) = some (BitVec.ofNat 40 (lo + 1)) := by
      change (if (BitVec.ofNat 40 lo).toNat + 1 < 0x8000 then _ else none) = _
      rw [hlo, if_pos (by omega)]
    rw [hnext]
    refine ih (lo + 1) (by omega) ?_
    rw [BitVec.toNat_ofNat, Nat.mod_eq_of_lt (by omega)]

theorem smallMem_free : ∃ l, Chain smallMem.freeNext smallMem.freelist l ∧ l.Nodup ∧
    bootRoot ∉ l ∧ 16000 < l.length := by
  refine ⟨_, smallMem_chain 0x7bff 0x400 rfl, ?_, ?_, ?_⟩
  · refine List.Nodup.map_on ?_ List.nodup_range'
    intro i hi j hj h
    have hi := List.mem_range'_1.1 hi
    have hj := List.mem_range'_1.1 hj
    have := congrArg BitVec.toNat h
    rw [BitVec.toNat_ofNat, BitVec.toNat_ofNat] at this
    omega
  · intro h
    obtain ⟨i, hi, h⟩ := List.mem_map.1 h
    have hi := List.mem_range'_1.1 hi
    have := congrArg BitVec.toNat h
    rw [BitVec.toNat_ofNat] at this
    change i % 2 ^ 40 = 0x180 at this
    omega
  · rw [List.length_map, List.length_range']
    decide

/-- With pages of 1GB the page map for the 128 MB of the small machine is right. -/
theorem initBootpmap_ok_small :
    ∃ s', Returns ∅ (initBootpmap 2 0x181 bootRoot 0x8000000) smallMem () s' ∧
      BootOk 2 0x8000000 0x181 bootRoot s' := by
  obtain ⟨l, hch, hn, ht, hc⟩ := smallMem_free
  obtain ⟨s', hret, hiff⟩ := @initBootpmap_ok_iff 2 0x181 _ _ _ 0x8000000 (.inr rfl)
    (by decide) hch hn ht hc
  exact ⟨s', hret, hiff.2 (.inl rfl)⟩

/-- With pages of 2MB none of the memory is mapped from `VM_KERNLO` on. -/
theorem initBootpmap_unmapped :
    ∃ s', Returns ∅ (initBootpmap 1 0x181 bootRoot 0x8000000) smallMem () s' ∧
      bootWalk s' 0x181 bootRoot vmKernLo = .zero ∧ ¬ BootOk 1 0x8000000 0x181 bootRoot s' := by
  obtain ⟨l, hch, hn, ht, hc⟩ := smallMem_free
  obtain ⟨s', hret, hfound⟩ := @initBootpmap_returns 1 0x181 _ _ _ 0x8000000 (.inl rfl)
    (by decide) hch hn ht hc
  refine ⟨s', hret, ?_, fun h => ?_⟩
  · rw [hfound _ (by decide) (by decide) (by decide)]
    decide
  · exact absurd ((bootOk_iff (.inl rfl) (by decide) hfound).1 h) (by decide)

end Determinator.Bootpmap
