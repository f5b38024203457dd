import Determinator.Exec.Args

/-!
# Starting a program

The start code takes the arguments from the stack that `exec_copyargs` built, calls the functions of
`__init_array` and then `main`. Each call pushes words below the arguments, so there must be room for
them.
-/

namespace Determinator.Exec

open File (Site ptsize ptsize_eq)

/-! ## Pushing and popping -/

/-- A processor after a push. -/
def Cpu.pushed (c : Cpu) (v : ℕ) : Cpu :=
  { c with rsp := c.rsp - 8, mem := .store 8 c.mem (c.rsp - 8) v }

section cpu

variable {c c' : Cpu} {v x : ℕ} {f : Cpu → Cpu}

@[simp] theorem Cpu.pushed_rsp : (c.pushed v).rsp = c.rsp - 8 := rfl

@[simp] theorem Cpu.pushed_rdi : (c.pushed v).rdi = c.rdi := rfl

@[simp] theorem Cpu.pushed_rsi : (c.pushed v).rsi = c.rsi := rfl

/-- A push leaves the stack alone that is there. -/
theorem Cpu.pushed_mem (h : 8 ≤ c.rsp) (hx : c.rsp ≤ x) : (c.pushed v).mem x = c.mem x :=
  Bytes.store_out (Or.inr (by omega))

/-- The word on top is the one that was pushed. -/
theorem Cpu.load_pushed (hv : v < 2 ^ 64) : (c.pushed v).mem.load 8 (c.pushed v).rsp = v :=
  Bytes.load_store_of_lt hv

theorem Cpu.push_ok (h : stacklo + 8 ≤ c.rsp) (h' : c.rsp ≤ vmStackhi) :
    c.push v = .ok (c.pushed v) := by
  rw [stacklo_eq] at h
  rw [vmStackhi_eq] at h'
  rw [Cpu.push, sub64_eq (by omega) (by omega)]
  apply require_bind
  rw [OnStack, ptsize_eq, vmStackhi_eq]
  omega

/-- There is no room for a push on a full stack. -/
theorem Cpu.push_full (h : c.rsp = stacklo) : c.push v = .error .pageFault := by
  have hout : ¬ OnStack (sub64 stacklo 8) := by
    rw [stacklo_eq]
    decide
  rw [Cpu.push, h, require, if_neg hout]
  rfl

theorem Cpu.word_ok (h : stacklo ≤ x) (h' : x + 8 ≤ vmStackhi) :
    c.word x = .ok (c.mem.load 8 x) := by
  apply require_bind
  rw [OnStack, ptsize_eq, vmStackhi_eq]
  rw [stacklo_eq] at h
  rw [vmStackhi_eq] at h'
  omega

theorem Cpu.pop_ok {e : ℕ} (he : c.rsp = e) (h : stacklo ≤ e) (h' : e + 8 ≤ vmStackhi) :
    c.pop = .ok (c.mem.load 8 e, { c with rsp := e + 8 }) := by
  rw [Cpu.pop, he, Cpu.word_ok h h', ok_bind, add64_eq]
  · rfl
  · rw [vmStackhi_eq] at h'
    omega

/-! ## The functions of `__init_array` -/

/-- A function that returns: it takes the return address from the stack, and leaves what its caller
has there alone. -/
def Returns (f : Cpu → Cpu) : Prop :=
  ∀ c, c.rsp + 8 ≤ vmStackhi → (f c).rsp = c.rsp + 8 ∧
    ∀ x, c.rsp + 8 ≤ x → x < vmStackhi → (f c).mem x = c.mem x

/-- What the start code keeps while it calls functions: the stack, and the arguments in their
registers. -/
structure Kept (c c' : Cpu) : Prop where
  rsp : c'.rsp = c.rsp
  rdi : c'.rdi = c.rdi
  rsi : c'.rsi = c.rsi
  mem : ∀ x, c.rsp ≤ x → x < vmStackhi → c'.mem x = c.mem x

theorem Kept.refl (c : Cpu) : Kept c c := ⟨rfl, rfl, rfl, fun _ _ _ => rfl⟩

theorem Kept.trans {c c' c'' : Cpu} (h : Kept c c') (h' : Kept c' c'') : Kept c c'' := by
  constructor
  · rw [h'.rsp, h.rsp]
  · rw [h'.rdi, h.rdi]
  · rw [h'.rsi, h.rsi]
  · intro x hx hx'
    rw [h'.mem x (by rw [h.rsp]; exact hx) hx', h.mem x hx hx']

/-- A word of the stack that was kept. -/
theorem Kept.load (h : Kept c c') (hx : c.rsp ≤ x) (hx' : x + 8 ≤ vmStackhi) :
    c'.mem.load 8 x = c.mem.load 8 x := by
  apply Bytes.load_congr
  intro i hi
  exact h.mem _ (by omega) (by omega)

theorem callInit_ok (ret : ℕ) (hf : Returns f) (h : stacklo + 32 ≤ c.rsp) (h' : c.rsp ≤ vmStackhi)
    (hdi : c.rdi < 2 ^ 64) (hsi : c.rsi < 2 ^ 64) :
    ∃ c', callInit ret c f = .ok c' ∧ Kept c c' := by
  generalize hc₀ : ({ c with rdx := add64 c.rdx 8 } : Cpu) = c₀
  generalize hc₁ : c₀.pushed c₀.rdx = c₁
  generalize hc₂ : c₁.pushed c.rdi = c₂
  generalize hc₃ : c₂.pushed c.rsi = c₃
  generalize hc₄ : c₃.pushed ret = c₄
  have h₀ : c₀.rsp = c.rsp ∧ c₀.rdi = c.rdi ∧ c₀.rsi = c.rsi ∧ c₀.mem = c.mem := by
    rw [← hc₀]
    exact ⟨rfl, rfl, rfl, rfl⟩
  have h₁ : c₁.rsp = c.rsp - 8 ∧ c₁.rdi = c.rdi ∧ c₁.rsi = c.rsi := by
    rw [← hc₁, Cpu.pushed_rsp, Cpu.pushed_rdi, Cpu.pushed_rsi]
    omega
  have h₂ : c₂.rsp = c.rsp - 16 ∧ c₂.rsi = c.rsi := by
    rw [← hc₂, Cpu.pushed_rsp, Cpu.pushed_rsi]
    omega
  have h₃ : c₃.rsp = c.rsp - 24 := by
    rw [← hc₃, Cpu.pushed_rsp]
    omega
  have h₄ : c₄.rsp = c.rsp - 32 := by
    rw [← hc₄, Cpu.pushed_rsp]
    omega
  obtain ⟨hrsp, hmem⟩ := hf c₄ (by omega)
  -- what is on the stack when the function returns
  have hkept : ∀ x, c₃.rsp ≤ x → x < vmStackhi → (f c₄).mem x = c₃.mem x := by
    intro x hx hx'
    rw [hmem x (by omega) hx', ← hc₄, Cpu.pushed_mem (by omega) hx]
  have hsi' : (f c₄).mem.load 8 (c.rsp - 24) = c.rsi := by
    have hload : (f c₄).mem.load 8 (c.rsp - 24) = c₃.mem.load 8 c₃.rsp := by
      rw [h₃]
      apply Bytes.load_congr
      intro i hi
      exact hkept _ (by omega) (by omega)
    rw [hload, ← hc₃, Cpu.load_pushed hsi]
  have hdi' : (f c₄).mem.load 8 (c.rsp - 16) = c.rdi := by
    have hload : (f c₄).mem.load 8 (c.rsp - 16) = c₂.mem.load 8 c₂.rsp := by
      rw [h₂.1]
      apply Bytes.load_congr
      intro i hi
      rw [hkept _ (by omega) (by omega), ← hc₃, Cpu.pushed_mem (by omega) (by omega)]
    rw [hload, ← hc₂, Cpu.load_pushed hdi]
  refine ⟨{ f c₄ with
    rsp := c.rsp, rsi := c.rsi, rdi := c.rdi, rdx := (f c₄).mem.load 8 (c.rsp - 8) }, ?run, ?kept⟩
  case run =>
    have hpush₁ : c₀.push c₀.rdx = .ok c₁ := by
      rw [Cpu.push_ok (by omega) (by omega), hc₁]
    have hpush₂ : c₁.push c₁.rdi = .ok c₂ := by
      rw [Cpu.push_ok (by omega) (by omega), h₁.2.1, hc₂]
    have hpush₃ : c₂.push c₂.rsi = .ok c₃ := by
      rw [Cpu.push_ok (by omega) (by omega), h₂.2, hc₃]
    have hpush₄ : c₃.push ret = .ok c₄ := by
      rw [Cpu.push_ok (by omega) (by omega), hc₄]
    have hpop₁ := Cpu.pop_ok (c := f c₄) (e := c.rsp - 24) (by omega) (by omega) (by omega)
    have hpop₂ := Cpu.pop_ok (c := { f c₄ with rsp := c.rsp - 24 + 8 }) (e := c.rsp - 16)
      (by dsimp only; omega) (by omega) (by omega)
    have hpop₃ := Cpu.pop_ok (c := { f c₄ with rsp := c.rsp - 16 + 8 }) (e := c.rsp - 8)
      (by dsimp only; omega) (by omega) (by omega)
    dsimp only at hpop₂ hpop₃
    rw [hsi'] at hpop₁
    rw [hdi'] at hpop₂
    have hend : c.rsp - 8 + 8 = c.rsp := by omega
    rw [hend] at hpop₃
    have hrdx : add64 c.rdx 8 = c₀.rdx := by rw [← hc₀]
    rw [callInit]
    dsimp only
    rw [hc₀, hrdx, hpush₁, ok_bind, hpush₂, ok_bind, hpush₃, ok_bind, hpush₄, ok_bind, hpop₁, ok_bind, hpop₂,
      ok_bind, hpop₃, ok_bind]
    rfl
  case kept =>
    constructor
    · rfl
    · rfl
    · rfl
    · intro x hx hx'
      dsimp only
      rw [hkept x (by omega) hx', ← hc₃, Cpu.pushed_mem (by omega) (by omega), ← hc₂,
        Cpu.pushed_mem (by omega) (by omega), ← hc₁, Cpu.pushed_mem (by omega) (by omega), h₀.2.2.2]

/-- All functions of `__init_array`. -/
theorem inits_ok (ret : ℕ) (inits : List (Cpu → Cpu)) (hinits : ∀ f ∈ inits, Returns f) (c : Cpu)
    (h : inits ≠ [] → stacklo + 32 ≤ c.rsp) (h' : c.rsp ≤ vmStackhi) (hdi : c.rdi < 2 ^ 64)
    (hsi : c.rsi < 2 ^ 64) :
    ∃ c', inits.foldlM (callInit ret) c = .ok c' ∧ Kept c c' := by
  induction inits generalizing c with
  | nil => exact ⟨c, rfl, Kept.refl c⟩
  | cons f inits ih =>
    have hroom := h (List.cons_ne_nil f inits)
    obtain ⟨c₁, hrun₁, hk₁⟩ := callInit_ok ret (hinits f List.mem_cons_self) hroom h' hdi hsi
    obtain ⟨c₂, hrun₂, hk₂⟩ := ih (fun g hg => hinits g (List.mem_cons_of_mem f hg)) c₁
      (fun _ => by rw [hk₁.rsp]; exact hroom) (by rw [hk₁.rsp]; exact h') (by rw [hk₁.rdi]; exact hdi)
      (by rw [hk₁.rsi]; exact hsi)
    refine ⟨c₂, ?_, hk₁.trans hk₂⟩
    rw [List.foldlM_cons, hrun₁]
    exact hrun₂

end cpu

/-! ## The arguments of `main` -/

/-- The string at `a`: reading up to the first zero gives `str`. -/
def IsString (m : Bytes) (a : ℕ) (str : List UInt8) : Prop :=
  ∀ k ≤ str.length, m (a + k) = str.getD k 0 ∧ (m (a + k) = 0 ↔ k = str.length)

/-- What `main` is given: the number of arguments, and a table of the strings in their order that
ends with a zero. -/
structure Passed (argv : List (List UInt8)) (c : Cpu) : Prop where
  argc : c.rdi = argv.length
  entry : ∀ j (h : j < argv.length), IsString c.mem (c.mem.load 8 (c.rsi + 8 * j)) argv[j]
  null : c.mem.load 8 (c.rsi + 8 * argv.length) = 0

/-- The room that the start code needs below the arguments, for the calls that it makes. -/
def callRoom (inits : List (Cpu → Cpu)) : ℕ := if inits = [] then 8 else 32

section start

variable {argv : List (List UInt8)} {esp ret initArray : ℕ} {inits : List (Cpu → Cpu)} {c : Cpu}

/-- The start code with arguments on the stack. -/
theorem start_ok (ret initArray : ℕ) (hinits : ∀ f ∈ inits, Returns f) (hargs : c.rsp % 2 ^ 32 ≠ 0)
    (hlo : stacklo + callRoom inits ≤ c.rsp) (hhi : c.rsp + 16 ≤ vmStackhi)
    (hdi : c.mem.load 8 c.rsp < 2 ^ 64) (hsi : c.mem.load 8 (c.rsp + 8) < 2 ^ 64) :
    ∃ c', start ret initArray inits c = .ok c' ∧ c'.rdi = c.mem.load 8 c.rsp ∧
      c'.rsi = c.mem.load 8 (c.rsp + 8) ∧
      ∀ x, c.rsp ≤ x → x < vmStackhi → c'.mem x = c.mem x := by
  unfold callRoom at hlo
  have hroom : stacklo + 8 ≤ c.rsp := by
    split at hlo <;> omega
  generalize hc₁ : ({ c with
    rdi := c.mem.load 8 c.rsp, rsi := c.mem.load 8 (c.rsp + 8), rdx := initArray } : Cpu) = c₁
  have h₁ : c₁.rsp = c.rsp ∧ c₁.rdi = c.mem.load 8 c.rsp ∧ c₁.rsi = c.mem.load 8 (c.rsp + 8) ∧
      c₁.mem = c.mem := by
    rw [← hc₁]
    exact ⟨rfl, rfl, rfl, rfl⟩
  obtain ⟨c₂, hrun, hk⟩ := inits_ok ret inits hinits c₁
    (fun hne => by rw [if_neg hne] at hlo; omega) (by omega) (by omega) (by omega)
  refine ⟨c₂.pushed ret, ?run, ?rdi, ?rsi, ?mem⟩
  case run =>
    have hnext : add64 c.rsp 8 = c.rsp + 8 := by
      rw [vmStackhi_eq] at hhi
      exact add64_eq (by omega)
    have hpush : c₂.push ret = .ok (c₂.pushed ret) :=
      Cpu.push_ok (by rw [hk.rsp]; omega) (by rw [hk.rsp]; omega)
    rw [start, if_neg hargs]
    dsimp only
    rw [pure_bind, Cpu.word_ok (by omega) (by omega), ok_bind, hnext,
      Cpu.word_ok (by omega) (by omega), ok_bind, hc₁, hrun, ok_bind, hpush]
  case rdi => rw [Cpu.pushed_rdi, hk.rdi, h₁.2.1]
  case rsi => rw [Cpu.pushed_rsi, hk.rsi, h₁.2.2.1]
  case mem =>
    intro x hx hx'
    rw [Cpu.pushed_mem (by rw [hk.rsp]; omega) (by rw [hk.rsp]; omega),
      hk.mem x (by omega) hx', h₁.2.2.2]

/-- There is no room for the call of `main` on a full stack. -/
theorem start_full (h : c.rsp = stacklo) : start ret initArray [] c = .error .pageFault := by
  have hlo := stacklo_eq
  have hhi := vmStackhi_eq
  have hargs : ¬ c.rsp % 2 ^ 32 = 0 := by omega
  have hnext : add64 c.rsp 8 = c.rsp + 8 := add64_eq (by omega)
  rw [start, if_neg hargs]
  dsimp only
  rw [pure_bind, Cpu.word_ok (by omega) (by omega), ok_bind, hnext,
    Cpu.word_ok (by omega) (by omega), ok_bind, List.foldlM_nil, pure_bind, Cpu.push_full]
  exact h

/-- `main` finds the arguments on the stack that `exec_copyargs` built. -/
theorem passed_of_stacked (hstr : ∀ str ∈ argv, 0 ∉ str) {esp : ℕ} {m : Bytes}
    (h : Stacked argv esp m) (hesp : esp + 16 + total argv ≤ table argv)
    (hargc : c.rdi = m.load 8 esp) (htable : c.rsi = m.load 8 (esp + 8))
    (hmem : ∀ x, esp ≤ x → x < vmStackhi → c.mem x = m x) : Passed argv c := by
  have hhi : table argv + (argv.length + 1) * 8 ≤ vmStackhi := by
    unfold table at *
    omega
  have hload : ∀ x, esp ≤ x → x + 8 ≤ vmStackhi → c.mem.load 8 x = m.load 8 x := by
    intro x hx hx'
    apply Bytes.load_congr
    intro i hi
    exact hmem _ (by omega) (by omega)
  rw [h.tableAt] at htable
  constructor
  · rw [hargc, h.argc]
  · intro j hj k hk
    have htake := total_take_le argv (j + 1)
    have hlen := length_lt_total_take argv hj
    rw [htable, hload _ (by omega) (by omega), h.entry j hj,
      hmem _ (by unfold argAt; omega) (by unfold argAt; omega), h.string j hj k hk]
    refine ⟨rfl, ?_⟩
    constructor
    · intro hzero
      by_contra hne
      have hlt : k < argv[j].length := by omega
      rw [List.getD_eq_getElem?_getD, List.getElem?_eq_getElem hlt, Option.getD_some] at hzero
      apply hstr argv[j] (List.getElem_mem hj)
      rw [← hzero]
      exact List.getElem_mem hlt
    · rintro rfl
      rw [List.getD_eq_getElem?_getD, List.getElem?_eq_none le_rfl, Option.getD_none]
  · rw [htable, hload _ (by omega) (by omega), h.null]

/-- `exec_copyargs` stores the objects of the new stack in the scratch area, none of them overlapping
another one, and the start code calls `main` with the arguments when there is room on the stack for
the calls. -/
theorem execCopyargs_start (argv : List (List UInt8)) (hstr : ∀ str ∈ argv, 0 ∉ str)
    (hfit : argsSize argv ≤ ptsize) :
    ∃ esp s, execCopyargs argv = .ok (esp, s) ∧ Stored s ∧ esp % 8 = 0 ∧ esp % 2 ^ 32 ≠ 0 ∧
      ∀ ret initArray inits, (∀ f ∈ inits, Returns f) →
        argsSize argv + callRoom inits ≤ ptsize →
        ∃ c, start ret initArray inits (execStart esp s) = .ok c ∧ Passed argv c := by
  obtain ⟨s, hrun, hstored, hstacked⟩ := execCopyargs_ok hfit
  have hlo := stacklo_eq
  have hhi := vmStackhi_eq
  have hsize : 24 + total argv ≤ argsSize argv := by
    unfold argsSize
    omega
  rw [ptsize_eq] at hfit
  generalize hesp : vmStackhi - alignUp (argsSize argv) 8 = esp at hrun hstacked
  have hargs : esp % 8 = 0 ∧ esp % 2 ^ 32 ≠ 0 ∧ esp + 24 ≤ vmStackhi := by
    unfold alignUp at hesp
    omega
  refine ⟨esp, s, hrun, hstored, hargs.1, hargs.2.1, ?_⟩
  intro ret initArray inits hinits hroom
  have hlow : stacklo + callRoom inits ≤ esp := by
    have hcall : callRoom inits = 8 ∨ callRoom inits = 32 := by
      unfold callRoom
      split <;> simp
    rw [ptsize_eq] at hroom
    unfold alignUp at hesp
    omega
  have hbelow : esp + 16 + total argv ≤ table argv := by
    unfold alignUp argsSize at hesp
    unfold table
    omega
  have hmem : (execStart esp s).mem = s.stack := rfl
  obtain ⟨c, hstart, hdi, hsi, hkept⟩ := start_ok ret initArray
    (c := execStart esp s) hinits hargs.2.1 hlow (by show esp + 16 ≤ _; omega)
    (Bytes.load_lt 8 _ _) (Bytes.load_lt 8 _ _)
  refine ⟨c, hstart, ?_⟩
  exact passed_of_stacked hstr hstacked hbelow hdi hsi hkept

/-- The arguments `a` and `bc`. -/
theorem execCopyargs_start_two :
    ∃ esp s, execCopyargs [[97], [98, 99]] = .ok (esp, s) ∧ Stored s ∧ esp % 8 = 0 ∧
      esp % 2 ^ 32 ≠ 0 ∧ ∀ ret initArray inits, (∀ f ∈ inits, Returns f) →
        argsSize [[97], [98, 99]] + callRoom inits ≤ ptsize →
        ∃ c, start ret initArray inits (execStart esp s) = .ok c ∧ Passed [[97], [98, 99]] c :=
  execCopyargs_start [[97], [98, 99]] (by decide) (by decide)

/-- An argument that fills the stack is not passed, since the call of `main` has no room. -/
theorem execCopyargs_full :
    ¬ ∀ argv : List (List UInt8), (∀ str ∈ argv, 0 ∉ str) → argsSize argv ≤ ptsize →
      ∀ ret initArray inits, (∀ f ∈ inits, Returns f) →
        ∃ esp s c, execCopyargs argv = .ok (esp, s) ∧
          start ret initArray inits (execStart esp s) = .ok c ∧ Passed argv c := by
  intro h
  have hsize : argsSize [List.replicate 2097119 1] = ptsize := by
    rw [argsSize, total_cons, List.length_replicate, ptsize_eq]
    rfl
  have hstr : ∀ str ∈ [List.replicate 2097119 (1 : UInt8)], 0 ∉ str := by
    intro str hmem hzero
    rw [List.mem_singleton.1 hmem] at hzero
    exact absurd (List.eq_of_mem_replicate hzero) (by decide)
  obtain ⟨s', hrun', -, -⟩ := execCopyargs_ok hsize.le
  obtain ⟨esp, s, c, hrun, hstart, -⟩ := h _ hstr hsize.le 0 0 []
    (fun f hf => absurd hf List.not_mem_nil)
  rw [hrun', Except.ok.injEq, Prod.mk.injEq] at hrun
  have hesp : esp = stacklo := by
    rw [← hrun.1, hsize, ptsize_eq]
    rfl
  rw [start_full (c := execStart esp s) hesp] at hstart
  cases hstart

end start

end Determinator.Exec
