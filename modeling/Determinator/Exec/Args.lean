import Determinator.User.Exec
import Determinator.File.Outcome

/-!
# Passing arguments to a program

`exec_copyargs` stores every object in the scratch area, no two of them overlapping, and leaves there
the stack from which the start code calls `main` with the arguments.
-/

namespace Determinator.Exec

open File (Site ptsize ptsize_eq)

/-! ## Addresses of the new stack -/

section addresses

variable {a b e x : ℕ}

theorem sub64_eq (h : b ≤ a) (ha : a < 2 ^ 64) : sub64 a b = a - b := by
  unfold sub64
  omega

theorem add64_eq (h : a + b < 2 ^ 64) : add64 a b = a + b := Nat.mod_eq_of_lt h

/-- Where the new stack starts. -/
def stacklo : ℕ := vmStackhi - ptsize

theorem stacklo_eq : stacklo = 139637974630400 := rfl

theorem vmStackhi_eq : vmStackhi = 139637976727552 := rfl

theorem vmScratchlo_eq : vmScratchlo = 137438953472000 := rfl

/-- The place in the scratch area of an address of the new stack. -/
def place (e : ℕ) : ℕ := e - stacklo + vmScratchlo

/-- The source computes the place of an address by adding a negative offset. -/
theorem add64_scratchofs (h : stacklo ≤ e) (h' : e ≤ vmStackhi) :
    add64 e scratchofs = place e := by
  have hofs : scratchofs = 18446741874688393216 := rfl
  unfold add64 place
  rw [hofs, stacklo_eq, vmScratchlo_eq]
  rw [stacklo_eq] at h
  rw [vmStackhi_eq] at h'
  omega

end addresses

/-! ## What is stored -/

section scratch

variable {s s' : Scratch} {a e n v x : ℕ} {str : List UInt8}

/-- The new stack as it is in the scratch area. -/
def Scratch.stack (s : Scratch) : Bytes := fun x => s.mem (place x)

/-- Two objects in memory do not overlap. -/
def Apart (r r' : ℕ × ℕ) : Prop := r.1 + r.2 ≤ r'.1 ∨ r'.1 + r'.2 ≤ r.1

/-- An object on the new stack can be stored. -/
theorem Scratch.put_ok {m : Bytes} (h : stacklo ≤ e) (h' : e + n ≤ vmStackhi) :
    s.put (place e) n m = .ok ⟨m, s.stores ++ [(place e, n)]⟩ := by
  apply require_bind
  unfold place
  rw [stacklo_eq, vmScratchlo_eq, ptsize_eq] at *
  rw [vmStackhi_eq] at h'
  omega

/-- Places are as far apart as the addresses. -/
theorem place_sub (h : stacklo ≤ e) (hx : stacklo ≤ x) : place x - place e = x - e := by
  unfold place
  omega

theorem place_in (h : stacklo ≤ e) (hx : stacklo ≤ x) :
    place e ≤ place x ∧ place x < place e + n ↔ e ≤ x ∧ x < e + n := by
  unfold place
  omega

/-- What was copied to the scratch area is on the stack. -/
theorem copy_place {src m : Bytes} (h : stacklo ≤ e) (hx : stacklo ≤ x) :
    m.copy (place e) src 0 n (place x) =
      if e ≤ x ∧ x < e + n then src (x - e) else m (place x) := by
  simp only [Bytes.copy, Nat.zero_add, place_sub h hx, place_in h hx]

theorem store_place {m : Bytes} (h : stacklo ≤ e) (hx : stacklo ≤ x) :
    Bytes.store n m (place e) v (place x) =
      if e ≤ x ∧ x < e + n then leByte v (x - e) else m (place x) := by
  simp only [Bytes.store, place_sub h hx, place_in h hx]

/-- A word that was stored is loaded from the stack. -/
theorem load_stack_store {m : Bytes} {l : List (ℕ × ℕ)} (h : stacklo ≤ e) (hv : v < 2 ^ 64) :
    (Scratch.stack ⟨.store 8 m (place e) v, l⟩).load 8 e = v := by
  have hload : (Scratch.stack ⟨.store 8 m (place e) v, l⟩).load 8 e =
      (Bytes.store 8 m (place e) v).load 8 (place e) := by
    apply Bytes.load_congr
    intro i _
    have hplace : place (e + i) = place e + i := by
      unfold place
      omega
    rw [Scratch.stack, hplace]
  rw [hload, Bytes.load_store_of_lt]
  calc v < 2 ^ 64 := hv
    _ = 256 ^ 8 := by norm_num

end scratch

/-! ## The strings -/

/-- The bytes that strings take with the zeros at their ends. -/
def total (args : List (List UInt8)) : ℕ := (args.map fun arg => arg.length + 1).sum

@[simp] theorem total_nil : total [] = 0 := rfl

@[simp] theorem total_cons {arg : List UInt8} {args : List (List UInt8)} :
    total (arg :: args) = arg.length + 1 + total args := by
  simp [total]

theorem total_take_le (args : List (List UInt8)) (j : ℕ) : total (args.take j) ≤ total args := by
  induction args generalizing j with
  | nil => simp
  | cons arg args ih =>
    cases j with
    | zero => simp
    | succ j =>
      have := ih j
      rw [List.take_succ_cons, total_cons, total_cons]
      omega

theorem length_lt_total_take (args : List (List UInt8)) {j : ℕ} (h : j < args.length) :
    args[j].length < total (args.take (j + 1)) := by
  induction args generalizing j with
  | nil => exact absurd h (Nat.not_lt_zero j)
  | cons arg args ih =>
    cases j with
    | zero => simp
    | succ j =>
      have := ih (Nat.lt_of_succ_lt_succ h)
      rw [List.take_succ_cons, total_cons, List.getElem_cons_succ]
      omega

/-- The address of argument `j` when the strings are stored below `esp`. -/
def argAt (esp : ℕ) (args : List (List UInt8)) (j : ℕ) : ℕ := esp - total (args.take (j + 1))

/-- What storing arguments below `esp`, and their addresses from index `i` of the table at `dargv`
on, has done. -/
structure Laid (dargv i esp : ℕ) (args : List (List UInt8)) (s s' : Scratch) : Prop where
  frame : ∀ x, stacklo ≤ x → x < esp - total args ∨ esp ≤ x →
    x < dargv + 8 * i ∨ dargv + 8 * (i + args.length) ≤ x → s'.stack x = s.stack x
  entry : ∀ j < args.length, s'.stack.load 8 (dargv + 8 * (i + j)) = argAt esp args j
  string : ∀ j (h : j < args.length), ∀ k ≤ args[j].length,
    s'.stack (argAt esp args j + k) = args[j].getD k 0
  stores : ∃ l, s'.stores = s.stores ++ l ∧ l.Pairwise Apart ∧
    ∀ r ∈ l, place (esp - total args) ≤ r.1 ∧ r.1 + r.2 ≤ place esp ∨
      place (dargv + 8 * i) ≤ r.1 ∧ r.1 + r.2 ≤ place (dargv + 8 * (i + args.length))

section strings

variable {dargv i esp : ℕ} {arg : List UInt8} {args : List (List UInt8)} {s s' : Scratch}

theorem argAt_zero : argAt esp (arg :: args) 0 = esp - (arg.length + 1) := by
  simp [argAt]

theorem argAt_succ {j : ℕ} :
    argAt esp (arg :: args) (j + 1) = argAt (esp - (arg.length + 1)) args j := by
  simp [argAt, Nat.sub_sub]

/-- The scratch area after one round. -/
def Scratch.round (s : Scratch) (dargv i esp : ℕ) (arg : List UInt8) : Scratch :=
  ⟨.store 8 (s.mem.copy (place esp) (fun k => arg.getD k 0) 0 (arg.length + 1))
    (place (dargv + 8 * i)) esp,
    s.stores ++ [(place esp, arg.length + 1)] ++ [(place (dargv + 8 * i), 8)]⟩

theorem copyStrings_cons (h : stacklo + total (arg :: args) ≤ esp) (hd : esp ≤ dargv)
    (hi : dargv + 8 * (i + (arg :: args).length) ≤ vmStackhi) :
    copyStrings dargv (arg :: args) i esp s =
      copyStrings dargv args (i + 1) (esp - (arg.length + 1))
        (s.round dargv i (esp - (arg.length + 1)) arg) := by
  rw [total_cons] at h
  rw [List.length_cons, vmStackhi_eq] at hi
  rw [stacklo_eq] at h
  rw [copyStrings, sub64_eq (by omega) (by omega)]
  rw [add64_scratchofs (by rw [stacklo_eq]; omega) (by rw [vmStackhi_eq]; omega),
    add64_scratchofs (by rw [stacklo_eq]; omega) (by rw [vmStackhi_eq]; omega)]
  have hplace : add64 (place dargv) (8 * i) = place (dargv + 8 * i) := by
    unfold place
    rw [stacklo_eq, vmScratchlo_eq, add64_eq (by omega)]
    omega
  rw [hplace, Scratch.strcpy, Scratch.put_ok (by rw [stacklo_eq]; omega) (by rw [vmStackhi_eq]; omega),
    ok_bind, Scratch.putWord,
    Scratch.put_ok (by rw [stacklo_eq]; omega) (by rw [vmStackhi_eq]; omega), ok_bind]
  rfl

/-- What is on the stack after one round. -/
theorem stack_round {x : ℕ} (h : stacklo ≤ esp) (hd : stacklo ≤ dargv + 8 * i) (hx : stacklo ≤ x) :
    (s.round dargv i esp arg).stack x =
      if dargv + 8 * i ≤ x ∧ x < dargv + 8 * i + 8 then leByte esp (x - (dargv + 8 * i))
      else if esp ≤ x ∧ x < esp + (arg.length + 1) then arg.getD (x - esp) 0
      else s.stack x := by
  have hmem : (s.round dargv i esp arg).mem = Bytes.store 8 (s.mem.copy (place esp)
    (fun k => arg.getD k 0) 0 (arg.length + 1)) (place (dargv + 8 * i)) esp := rfl
  unfold Scratch.stack
  rw [hmem, store_place hd hx, copy_place h hx]

theorem copyStrings_ok (args : List (List UInt8)) (i esp : ℕ) (s : Scratch)
    (h : stacklo + total args ≤ esp) (hd : esp ≤ dargv)
    (hi : dargv + 8 * (i + args.length) ≤ vmStackhi) :
    ∃ s', copyStrings dargv args i esp s = .ok (esp - total args, s') ∧
      Laid dargv i esp args s s' := by
  induction args generalizing i esp s with
  | nil =>
    refine ⟨s, rfl, ⟨fun _ _ _ _ => rfl, ?_, ?_, [], ?_⟩⟩
    · exact fun j hj => absurd hj (Nat.not_lt_zero j)
    · exact fun j hj => absurd hj (Nat.not_lt_zero j)
    · simp
  | cons arg args ih =>
    have hcons := copyStrings_cons (s := s) h hd hi
    rw [total_cons] at h
    rw [List.length_cons] at hi
    generalize hesp : esp - (arg.length + 1) = e at hcons
    obtain ⟨s', hrun, hl⟩ := ih (i + 1) e (s.round dargv i e arg) (by omega) (by omega) (by omega)
    have hlo : stacklo ≤ e := by omega
    have hround : ∀ x, stacklo ≤ x → (s.round dargv i e arg).stack x = _ := fun x hx =>
      stack_round hlo (by omega) hx
    have hleft : esp - total (arg :: args) = e - total args := by
      rw [total_cons]
      omega
    refine ⟨s', ?_, ?frame, ?entry, ?string, ?stores⟩
    · rw [hcons, hrun, hleft]
    case frame =>
      intro x hx hout htab
      rw [hleft] at hout
      rw [List.length_cons] at htab
      rw [hl.frame x hx (by omega) (by omega), hround x hx, if_neg (by omega), if_neg (by omega)]
    case entry =>
      intro j hj
      cases j with
      | succ j =>
        have hj' : i + (j + 1) = i + 1 + j := by omega
        rw [argAt_succ, hesp, hj']
        exact hl.entry j (by simpa using hj)
      | zero =>
        have hload : s'.stack.load 8 (dargv + 8 * (i + 0)) =
            (s.round dargv i e arg).stack.load 8 (dargv + 8 * i) := by
          rw [Nat.add_zero]
          apply Bytes.load_congr
          intro k hk
          exact hl.frame _ (by omega) (by omega) (by omega)
        rw [vmStackhi_eq] at hi
        rw [argAt_zero, hesp, hload]
        exact load_stack_store (by omega) (by omega)
    case string =>
      intro j hj k hk
      cases j with
      | succ j =>
        rw [argAt_succ, hesp]
        exact hl.string j (by simpa using hj) k hk
      | zero =>
        rw [argAt_zero, hesp]
        simp only [List.getElem_cons_zero] at hk ⊢
        rw [hl.frame (e + k) (by omega) (by omega) (by omega), hround _ (by omega),
          if_neg (by omega), if_pos (by omega), Nat.add_sub_cancel_left]
    case stores =>
      obtain ⟨l, hstores, hapart, hin⟩ := hl.stores
      refine ⟨(place e, arg.length + 1) :: (place (dargv + 8 * i), 8) :: l, ?_, ?_, ?_⟩
      · rw [hstores]
        simp [Scratch.round]
      · -- the string lies above those that follow, and below the table
        rw [List.pairwise_cons, List.pairwise_cons]
        refine ⟨?_, ?_, hapart⟩
        · intro r hr
          obtain rfl | hr := List.mem_cons.1 hr
          · left
            unfold place
            simp only
            omega
          · have := hin r hr
            unfold Apart
            unfold place at *
            simp only
            omega
        · intro r hr
          have := hin r hr
          unfold Apart
          unfold place at *
          simp only
          omega
      · intro r hr
        rw [hleft, List.length_cons]
        rw [List.mem_cons, List.mem_cons] at hr
        obtain rfl | rfl | hr := hr
        · left
          unfold place
          simp only
          omega
        · right
          unfold place
          simp only
          omega
        · have := hin r hr
          unfold place at *
          omega

end strings

/-! ## The stack -/

/-- What arguments take on the stack: the table with its last entry, the strings, and two words. -/
def argsSize (argv : List (List UInt8)) : ℕ := (argv.length + 1) * 8 + total argv + 16

/-- Where the table is. -/
def table (argv : List (List UInt8)) : ℕ := vmStackhi - (argv.length + 1) * 8

/-- The stack on which `main` finds its arguments: their number and the address of the table at the
stack pointer; in the table the addresses of the strings, and zero behind them; and nothing below
the stack pointer. -/
structure Stacked (argv : List (List UInt8)) (esp : ℕ) (m : Bytes) : Prop where
  argc : m.load 8 esp = argv.length
  tableAt : m.load 8 (esp + 8) = table argv
  entry : ∀ j < argv.length, m.load 8 (table argv + 8 * j) = argAt (table argv) argv j
  null : m.load 8 (table argv + 8 * argv.length) = 0
  string : ∀ j (h : j < argv.length), ∀ k ≤ argv[j].length,
    m (argAt (table argv) argv j + k) = argv[j].getD k 0

/-- The objects in the scratch area lie in it, and none overlaps another one. -/
def Stored (s : Scratch) : Prop :=
  (∀ r ∈ s.stores, vmScratchlo ≤ r.1 ∧ r.1 + r.2 ≤ vmScratchlo + ptsize) ∧
    s.stores.Pairwise Apart

section stack

variable {argv : List (List UInt8)} {s : Scratch} {e v x : ℕ}

/-- Pushing a word on the new stack. -/
theorem Scratch.putWord_ok (h : stacklo ≤ e) (h' : e + 8 ≤ vmStackhi) :
    s.putWord (place e) v =
      .ok ⟨.store 8 s.mem (place e) v, s.stores ++ [(place e, 8)]⟩ :=
  Scratch.put_ok h h'

/-- The stack above a word that was pushed. -/
theorem stack_above (h : stacklo ≤ e) (hx : e + 8 ≤ x) {l : List (ℕ × ℕ)} :
    Scratch.stack ⟨.store 8 s.mem (place e) v, l⟩ x = s.stack x := by
  unfold Scratch.stack
  dsimp only
  rw [store_place h (by omega), if_neg (by omega)]

theorem load_above (h : stacklo ≤ e) (hx : e + 8 ≤ x) {l : List (ℕ × ℕ)} :
    (Scratch.stack ⟨.store 8 s.mem (place e) v, l⟩).load 8 x = s.stack.load 8 x := by
  apply Bytes.load_congr
  intro i _
  exact stack_above h (by omega)

/-- What `exec_copyargs` does, step by step. -/
theorem execCopyargs_eq {dargv esp : ℕ} {s₁ s₂ : Scratch}
    (hstart : sub64 vmStackhi ((argv.length + 1) * 8) = dargv)
    (hrun : copyStrings dargv argv 0 dargv ⟨fun _ => 0, []⟩ = .ok (esp, s))
    (hput : s.putWord (add64 (sub64 (esp - esp % 8) 8) scratchofs) dargv = .ok s₁)
    (hput' : s₁.putWord (add64 (sub64 (sub64 (esp - esp % 8) 8) 8) scratchofs) argv.length =
      .ok s₂) :
    execCopyargs argv = .ok (sub64 (sub64 (esp - esp % 8) 8) 8, s₂) := by
  subst hstart
  rw [execCopyargs]
  simp only
  rw [hrun, ok_bind, hput, ok_bind, hput', ok_bind]
  rfl

/-- `exec_copyargs` stores its objects where it may, and leaves the stack for `main`. -/
theorem execCopyargs_ok (hfit : argsSize argv ≤ ptsize) :
    ∃ s, execCopyargs argv = .ok (vmStackhi - alignUp (argsSize argv) 8, s) ∧ Stored s ∧
      Stacked argv (vmStackhi - alignUp (argsSize argv) 8) s.stack := by
  have hlo := stacklo_eq
  have hhi := vmStackhi_eq
  unfold argsSize at hfit
  rw [ptsize_eq] at hfit
  have htable : table argv + (argv.length + 1) * 8 = vmStackhi := by
    unfold table
    omega
  obtain ⟨s, hrun, hl⟩ := copyStrings_ok argv 0 (table argv) ⟨fun _ => 0, []⟩ (by omega) le_rfl
    (by omega)
  -- the strings end where the two words start, after alignment
  generalize hesp : vmStackhi - alignUp (argsSize argv) 8 = esp
  have hdown : table argv - total argv - (table argv - total argv) % 8 = esp + 16 := by
    unfold alignUp argsSize at hesp
    omega
  have hstart : sub64 vmStackhi ((argv.length + 1) * 8) = table argv :=
    sub64_eq (by omega) (by omega)
  have hpush : sub64 (esp + 16) 8 = esp + 8 := sub64_eq (by omega) (by omega)
  have hpush' : sub64 (esp + 8) 8 = esp := sub64_eq (by omega) (by omega)
  have hplace : add64 (esp + 8) scratchofs = place (esp + 8) := add64_scratchofs (by omega) (by omega)
  have hplace' : add64 esp scratchofs = place esp := add64_scratchofs (by omega) (by omega)
  generalize hm : (⟨.store 8 s.mem (place (esp + 8)) (table argv),
    s.stores ++ [(place (esp + 8), 8)]⟩ : Scratch) = s₁
  generalize hm' : (⟨.store 8 s₁.mem (place esp) argv.length,
    s₁.stores ++ [(place esp, 8)]⟩ : Scratch) = s₂
  have hput : s.putWord (place (esp + 8)) (table argv) = .ok s₁ := by
    rw [Scratch.putWord_ok (by omega) (by omega), hm]
  have hput' : s₁.putWord (place esp) argv.length = .ok s₂ := by
    rw [Scratch.putWord_ok (by omega) (by omega), hm']
  refine ⟨s₂, ?run, ?stored, ?stacked⟩
  case run =>
    rw [execCopyargs_eq hstart hrun (by rw [hdown, hpush, hplace, hput])
      (by rw [hdown, hpush, hpush', hplace', hput']), hdown, hpush, hpush']
  case stored =>
    obtain ⟨l, hstores, hapart, hin⟩ := hl.stores
    have hstores' : s₂.stores = l ++ [(place (esp + 8), 8)] ++ [(place esp, 8)] := by
      rw [← hm', ← hm]
      simp [hstores]
    have hbounds : ∀ r ∈ l, place (esp + 16) ≤ r.1 ∧ r.1 + r.2 ≤ place vmStackhi := by
      intro r hr
      have := hin r hr
      unfold place at *
      omega
    rw [Stored, hstores']
    constructor
    · intro r hr
      simp only [List.mem_append, List.mem_singleton] at hr
      obtain (hr | rfl) | rfl := hr
      · have := hbounds r hr
        unfold place at this
        rw [ptsize_eq]
        omega
      · unfold place
        rw [ptsize_eq]
        dsimp only
        omega
      · unfold place
        rw [ptsize_eq]
        dsimp only
        omega
    · -- the two words lie below the rest, one below the other
      rw [List.pairwise_append, List.pairwise_append]
      refine ⟨⟨hapart, List.pairwise_singleton _ _, ?_⟩, List.pairwise_singleton _ _, ?_⟩
      · intro r hr r' hr'
        have := hbounds r hr
        rw [List.mem_singleton.1 hr']
        right
        unfold place at *
        dsimp only
        omega
      · intro r hr r' hr'
        rw [List.mem_singleton.1 hr']
        right
        simp only [List.mem_append, List.mem_singleton] at hr
        obtain hr | rfl := hr
        · have := hbounds r hr
          unfold place at *
          dsimp only
          omega
        · unfold place
          dsimp only
          omega
  case stacked =>
    have habove : ∀ x, esp + 16 ≤ x → s₂.stack x = s.stack x := by
      intro x hx
      rw [← hm', stack_above (by omega) (by omega), ← hm, stack_above (by omega) (by omega)]
    have hload : ∀ x, esp + 16 ≤ x → s₂.stack.load 8 x = s.stack.load 8 x := by
      intro x hx
      apply Bytes.load_congr
      intro i _
      exact habove _ (by omega)
    have htake : ∀ j, total (argv.take j) ≤ total argv := total_take_le argv
    constructor
    · rw [← hm']
      exact load_stack_store (by omega) (by omega)
    · rw [← hm', load_above (by omega) le_rfl, ← hm]
      exact load_stack_store (by omega) (by omega)
    · intro j hj
      rw [hload _ (by omega)]
      have := hl.entry j hj
      rwa [Nat.zero_add] at this
    · -- nothing was stored in the last entry
      rw [hload _ (by omega)]
      apply Bytes.load_zero
      intro i hi
      rw [hl.frame _ (by omega) (by omega) (by omega)]
      rfl
    · intro j hj k hk
      rw [habove _ (by unfold argAt; have := htake (j + 1); omega)]
      exact hl.string j hj k hk

end stack

end Determinator.Exec
