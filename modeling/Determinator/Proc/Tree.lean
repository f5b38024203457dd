import Determinator.Lib.Confluence
import Determinator.Kern.Machine

/-!
# The process tree without a scheduler

What the kernel is for: a tree of processes, each of which runs on its own until it meets a child.
There are no CPUs, no queue and no waiting here; a process that needs a child finds it stopped, or
cannot go on. User code is a function of the registers and the memory of its process. Nothing
leaves the tree and nothing comes in: there is no I/O, no migration and no instruction limit.

The steps of different processes concern disjoint parts of the tree, so their order does not
matter; this is `tree_independent`.
-/

namespace Determinator

/-! ## User code -/

/-- What user code does next. -/
inductive UserOp (μ : Type)
  /-- It runs for a while; its registers and its memory after that. -/
  | run (tf : Trapframe) (fx : Fin 64 → BitVec 64) (m : μ)
  /-- It uses the FPU for the first time. -/
  | device
  /-- `INT T_SYSCALL`. -/
  | syscall
  /-- Another trap. -/
  | trap (trapno : ℕ) (err : BitVec 32)
  /-- The trap after an instruction, with `FL_TF` set. -/
  | debug

/-- User code that depends on the registers and the memory of its process only. -/
structure User (μ : Type) where
  /-- The registers, those of the FPU, whether the FPU is enabled, and the memory. -/
  op : Trapframe → (Fin 64 → BitVec 64) → Bool → μ → UserOp μ
  /-- The error code of the fault that a user copy of a system call runs into. -/
  err : Trapframe → μ → BitVec 32

/-- What can be seen of a process at a kernel entry. -/
structure Seen (μ : Type) where
  tf : Trapframe
  fx : Fin 64 → BitVec 64
  mem : μ

/-- What is seen of a process with registers `tf`, if user code enters the kernel next. -/
def UserOp.seen {μ : Type} (tf : Trapframe) (fx : Fin 64 → BitVec 64) (m : μ) :
    UserOp μ → List (Seen μ)
  | .run _ _ _ => []
  | .device => [⟨tf.trapped tDevice 0, fx, m⟩]
  | .syscall => [⟨tf.intSyscall, fx, m⟩]
  | .trap n err => [⟨tf.trapped n err, fx, m⟩]
  | .debug => [⟨tf.trapped tDebug 0, fx, m⟩]

/-! ## Processes -/

/-- What a process is doing. -/
inductive Phase
  | stopped
  /-- Running user code with these registers. -/
  | user (tf : Trapframe)
  /-- At the entry of a system call. -/
  | entry (tf : Trapframe)
  | put (tf : Trapframe) (cn : Fin 256)
  | get (tf : Trapframe) (cn : Fin 256)
  | start (tf : Trapframe) (cn : Fin 256)
  | ret (tf : Trapframe) (entry : Entry)

/-- A process of the tree. The saved registers count only while it is stopped. -/
structure Node (μ : Type) where
  home : BitVec 8
  phase : Phase
  sv : Procstate
  pml4 : μ
  rpml4 : μ

/-- The tree. -/
abbrev Tree (μ : Type) := Pid → Option (Node μ)

/-- The saved state without its trap frame. -/
def Procstate.noTf (sv : Procstate) : Procstate := { sv with tf := fun _ => 0 }

/-- The type of a system call. -/
def Trapframe.callType (tf : Trapframe) : ℕ := (tf.cmd &&& sysType).toNat

section

variable {μ : Type} (net : BitVec 8) (sp : Spaces μ) (usr : User μ) (low : Trapframe)

namespace Node

variable (n : Node μ)

/-- What user code does next, with registers `tf`. -/
def op (tf : Trapframe) : UserOp μ :=
  usr.op tf n.sv.fx (n.sv.pff &&& pffUseFpu ≠ 0) n.pml4

/-- A new child. -/
def fresh : Node μ := ⟨net, .stopped, freshSv, sp.fresh, sp.fresh⟩

/-- A child under the control of its parent: stopped, or not there yet. -/
def Idle : Option (Node μ) → Prop
  | none => True
  | some q => q.phase = .stopped

/-- The child the next step is about. -/
def kid : Option (Fin 256) :=
  match n.phase with
  | .entry tf => if tf.callType = 1 ∨ tf.callType = 2 then some tf.childNo else none
  | .put _ cn | .get _ cn | .start _ cn => some cn
  | _ => none

/-- User code with registers `tf` does something. -/
def perform (tf : Trapframe) : UserOp μ → Option (Node μ)
  | .run tf' fx m =>
    some { n with phase := .user tf'.regs, sv := { n.sv with fx := fx }, pml4 := m }
  | .device => some { n with sv := { n.sv with pff := n.sv.pff ||| pffUseFpu } }
  | .syscall => some { n with phase := .entry tf.intSyscall }
  | .trap k err =>
    if reflected k then some { n with phase := .ret (tf.trapped k err) (trapEntry k) } else none
  | .debug => some { n with phase := .ret (tf.trapped tDebug 0) .trap }

/-- A step that is about no child. -/
def alone (top : Bool) : Option (Node μ) :=
  match n.phase with
  | .user tf => n.perform tf (n.op usr tf)
  | .entry tf =>
    if tf.callType = 3 then some { n with phase := .ret tf .complete }
    else if 5 < tf.callType then some { n with phase := .ret tf .trap }
    else none
  | .ret tf entry =>
    if top then none
    else (procSave n.sv tf entry).map fun sv => { n with phase := .stopped, sv := sv }
  | _ => none

/-- Where a handler goes from the part without locks. -/
def after (tf : Trapframe) (err : BitVec 32) (next : Phase) : End → Option Phase
  | .done => some next
  | .systrap k => some (.ret ((tf.setTrapno (.ofNat 64 k)).setErr 0) .abort)
  | .fault => some (.ret ((low.setTrapno (.ofNat 64 tPgflt)).setErr err) .abort)
  | .wild => none
  | .panic => none

/-- The address spaces a PUT or GET sees. -/
def maps (q : Option (Node μ)) : Map → μ
  | .own => n.pml4
  | .kid => q.elim sp.null Node.pml4
  | .ref => q.elim sp.null Node.rpml4

/-- The child after a PUT or GET. -/
def taken (b : Body μ) (q : Node μ) : Node μ :=
  { q with sv := b.sv, pml4 := b.maps .kid, rpml4 := b.maps .ref }

/-- A step together with the child `q`, which is idle. -/
def meet (q : Option (Node μ)) : Option (Node μ × Option (Node μ)) :=
  match n.phase with
  | .entry tf =>
    if tf.callType = 1 then
      some ({ n with phase := .put tf tf.childNo }, some (q.getD (fresh net sp)))
    else some ({ n with phase := .get tf tf.childNo }, q)
  | .put tf cn =>
    q.bind fun q =>
      let b := doPutBody sp (fun _ => none) tf n.sv.pff q.sv (n.maps sp (some q))
      if b.sv.pff &&& pffIcnt = 0 then
        (after low tf (usr.err tf n.pml4)
          (if tf.cmd &&& sysStart = 0 then .user tf.regs else .start tf cn) b.fin).map fun ph =>
            ({ n with phase := ph, pml4 := b.maps .own }, some (taken b q))
      else none
  | .get tf _ =>
    let b := doGetBody sp tf (q.elim .zero Node.sv) (n.maps sp q)
    (after low tf (usr.err tf n.pml4) (.user tf.regs) b.fin).map fun ph =>
      ({ n with phase := ph, pml4 := b.maps .own }, q.map (taken b))
  | .start tf _ =>
    q.map fun q =>
      ({ n with phase := .user tf.regs },
        some { q with phase := .user q.sv.tf.regs, sv := q.sv.noTf })
  | _ => none

/-- What is seen of a process that enters the kernel with its next step. -/
def seen : List (Seen μ) :=
  match n.phase with
  | .user tf => (n.op usr tf).seen tf n.sv.fx n.pml4
  | _ => []

end Node

open Classical in
/-- The step of process `p`. -/
noncomputable def treeFire (p : Pid) (A : Tree μ) : Option (Tree μ) :=
  (A p).bind fun n =>
    match n.kid with
    | none => (n.alone usr p.parent.isNone).map fun n' => Function.update A p (some n')
    | some cn =>
      if Node.Idle (A (p.child cn)) then
        (n.meet net sp usr low (A (p.child cn))).map fun r =>
          Function.update (Function.update A p (some r.1)) (p.child cn) r.2
      else none

/-- The processes of the tree as agents; the root process is watched. -/
noncomputable def treeAgents : Agents Pid (Tree μ) (Seen μ) where
  fire := treeFire net sp usr low
  out p A := if p = .root then (A p).elim [] (Node.seen usr) else []

variable {net sp usr low}

/-! ## Independence -/

section

variable {p q : Pid} {A B C : Tree μ}

/-- A step changes its process alone, or its process and a child that is idle. -/
theorem treeFire_cases (h : treeFire net sp usr low p A = some B) :
    (∃ n n', A p = some n ∧ n.kid = none ∧ n.alone usr p.parent.isNone = some n' ∧
      B = Function.update A p (some n')) ∨
    (∃ n cn r, A p = some n ∧ n.kid = some cn ∧ Node.Idle (A (p.child cn)) ∧
      n.meet net sp usr low (A (p.child cn)) = some r ∧
      B = Function.update (Function.update A p (some r.1)) (p.child cn) r.2) := by
  obtain ⟨n, hn, h⟩ := Option.bind_eq_some_iff.1 h
  cases hk : n.kid with
  | none =>
    simp only [hk] at h
    obtain ⟨n', hn', rfl⟩ := Option.map_eq_some_iff.1 h
    exact .inl ⟨n, n', hn, hk, hn', rfl⟩
  | some cn =>
    simp only [hk] at h
    split at h
    · rename_i hi
      obtain ⟨r, hr, rfl⟩ := Option.map_eq_some_iff.1 h
      exact .inr ⟨n, cn, r, hn, hk, hi, hr, rfl⟩
    · cases h

theorem treeFire_alone {n n' : Node μ} (hn : A p = some n) (hk : n.kid = none)
    (hs : n.alone usr p.parent.isNone = some n') :
    treeFire net sp usr low p A = some (Function.update A p (some n')) := by
  simp [treeFire, hn, hk, hs]

theorem treeFire_meet {n : Node μ} {cn : Fin 256} {r : Node μ × Option (Node μ)}
    (hn : A p = some n) (hk : n.kid = some cn) (hi : Node.Idle (A (p.child cn)))
    (hs : n.meet net sp usr low (A (p.child cn)) = some r) :
    treeFire net sp usr low p A
      = some (Function.update (Function.update A p (some r.1)) (p.child cn) r.2) := by
  simp [treeFire, hn, hk, hi, hs]

/-- A process that takes a step is not idle. -/
theorem not_idle_of_fire (h : treeFire net sp usr low p A = some B) : ¬ Node.Idle (A p) := by
  obtain ⟨n, n', hn, hk, hs, -⟩ | ⟨n, cn, r, hn, hk, -, -, -⟩ := treeFire_cases h
  · intro hi
    simp only [hn, Node.Idle] at hi
    simp [Node.alone, hi] at hs
  · intro hi
    simp only [hn, Node.Idle] at hi
    simp [Node.kid, hi] at hk

/-- A step leaves alone all processes that take steps themselves. -/
theorem treeFire_frame (hpq : p ≠ q) (hp : treeFire net sp usr low p A = some B)
    (hq : ¬ Node.Idle (A q)) : B q = A q := by
  obtain ⟨n, n', -, -, -, rfl⟩ | ⟨n, cn, r, -, -, hi, -, rfl⟩ := treeFire_cases hp
  · exact Function.update_of_ne hpq.symm _ _
  · have hne : q ≠ p.child cn := by
      rintro rfl
      exact hq hi
    rw [Function.update_of_ne hne, Function.update_of_ne hpq.symm]

/-- A step leaves alone the idle children of others. -/
theorem treeFire_frame_child {cn : Fin 256} (hpq : p ≠ q)
    (hp : treeFire net sp usr low p A = some B) (hi : Node.Idle (A (q.child cn))) :
    B (q.child cn) = A (q.child cn) := by
  have hne : q.child cn ≠ p := by
    rintro rfl
    exact not_idle_of_fire hp hi
  obtain ⟨n, n', -, -, -, rfl⟩ | ⟨n, dn, r, -, -, -, -, rfl⟩ := treeFire_cases hp
  · exact Function.update_of_ne hne _ _
  · have hne' : q.child cn ≠ p.child dn := fun e => hpq (Pid.child_inj e).1.symm
    rw [Function.update_of_ne hne', Function.update_of_ne hne]

/-- The step of `q` is still there after that of `p`, and has the same effect. -/
theorem treeFire_comm (hpq : p ≠ q) (hp : treeFire net sp usr low p A = some B)
    (hq : treeFire net sp usr low q A = some C) :
    ∃ D, treeFire net sp usr low q B = some D ∧
      ∀ x, (C x ≠ A x → D x = C x) ∧ (C x = A x → D x = B x) ∧ (C x ≠ A x → B x = A x) := by
  have hself : B q = A q := treeFire_frame hpq hp (not_idle_of_fire hq)
  obtain ⟨n, n', hn, hk, hs, rfl⟩ | ⟨n, cn, r, hn, hk, hi, hs, rfl⟩ := treeFire_cases hq
  · refine ⟨_, treeFire_alone (hself.trans hn) hk hs, ?_⟩
    intro x
    by_cases hx : x = q
    · subst hx
      simp only [Function.update_self]
      refine ⟨fun _ => trivial, fun e => ?_, fun _ => hself⟩
      rw [e, hself]
    · simp [Function.update_of_ne hx]
  · have hchild : B (q.child cn) = A (q.child cn) := treeFire_frame_child hpq hp hi
    refine ⟨_, treeFire_meet (hself.trans hn) hk (hchild ▸ hi) (hchild ▸ hs), ?_⟩
    intro x
    by_cases hx : x = q.child cn
    · subst hx
      simp only [Function.update_self]
      refine ⟨fun _ => trivial, fun e => ?_, fun _ => hchild⟩
      rw [e, hchild]
    · by_cases hx' : x = q
      · subst hx'
        simp only [Function.update_of_ne hx, Function.update_self]
        refine ⟨fun _ => trivial, fun e => ?_, fun _ => hself⟩
        rw [e, hself]
      · simp [Function.update_of_ne hx, Function.update_of_ne hx']

end

/-- The processes are independent of each other, and only the root process is watched. -/
theorem tree_independent : (treeAgents net sp usr low).Independent Pid.root where
  comm := by
    intro p q A B C hpq hp hq
    obtain ⟨D, hD, hx⟩ := treeFire_comm hpq hp hq
    obtain ⟨E, hE, hy⟩ := treeFire_comm hpq.symm hq hp
    refine ⟨D, hD, ?_⟩
    suffices hDE : D = E by
      rw [hDE]
      exact hE
    funext x
    by_cases hC : C x = A x
    · rw [(hx x).2.1 hC]
      by_cases hB : B x = A x
      · rw [(hy x).2.1 hB, hB, hC]
      · rw [(hy x).1 hB]
    · rw [(hx x).1 hC, (hy x).2.1 ((hx x).2.2 hC)]
  stable := by
    intro p q A B C hpq hp hq
    have hself : B q = A q := treeFire_frame hpq hp (not_idle_of_fire hq)
    simp only [treeAgents, hself]
  silent := by
    intro p A hp
    simp [treeAgents, hp]

/-! ## Processes at home, without limits -/

/-- The process is at home and does not count its instructions. -/
structure Node.Plain (net : BitVec 8) (n : Node μ) : Prop where
  home : n.home = net
  pff : n.sv.pff &&& pffIcnt = 0

/-- All processes are at home and none counts its instructions. -/
def Tree.Plain (net : BitVec 8) (A : Tree μ) : Prop := ∀ p n, A p = some n → n.Plain net

theorem procSave_plain {sv sv' : Procstate} {tf : Trapframe} {entry : Entry}
    (hsv : sv.pff &&& pffIcnt = 0) (h : procSave sv tf entry = some sv') :
    sv' = { sv with tf := if entry = .abort then tf.setRip (tf.rip - 2) else tf } := by
  unfold procSave at h
  obtain ⟨h, -⟩ := Option.filter_eq_some_iff.1 h
  rw [saveIcnt, if_pos hsv] at h
  exact (Option.some.inj h).symm

theorem or_useFpu_plain {pff : BitVec 32} (h : pff &&& pffIcnt = 0) :
    (pff ||| pffUseFpu) &&& pffIcnt = 0 := by
  have hm : pffUseFpu &&& pffIcnt = 0 := by decide
  rw [BitVec.and_or_distrib_right, h, hm]
  rfl

theorem Node.perform_plain {n n' : Node μ} {tf : Trapframe} {op : UserOp μ}
    (h : n.perform tf op = some n') (hn : n.Plain net) : n'.Plain net := by
  obtain ⟨hh, hp⟩ := hn
  cases op with
  | run tf' fx m => exact Option.some.inj h ▸ ⟨hh, hp⟩
  | device => exact Option.some.inj h ▸ ⟨hh, or_useFpu_plain hp⟩
  | syscall => exact Option.some.inj h ▸ ⟨hh, hp⟩
  | trap k err =>
    obtain ⟨-, h⟩ := Option.ite_none_right_eq_some.1 h
    exact Option.some.inj h ▸ ⟨hh, hp⟩
  | debug => exact Option.some.inj h ▸ ⟨hh, hp⟩

theorem Node.alone_plain {n n' : Node μ} {top : Bool} (h : n.alone usr top = some n')
    (hn : n.Plain net) : n'.Plain net := by
  unfold alone at h
  split at h
  · exact perform_plain h hn
  · obtain ⟨hh, hp⟩ := hn
    split at h
    · exact Option.some.inj h ▸ ⟨hh, hp⟩
    · split at h
      · exact Option.some.inj h ▸ ⟨hh, hp⟩
      · cases h
  · split at h
    · cases h
    · obtain ⟨sv, hsv, rfl⟩ := Option.map_eq_some_iff.1 h
      refine ⟨hn.home, ?_⟩
      rw [procSave_plain hn.pff hsv]
      exact hn.pff
  · cases h

theorem doGetBody_sv {tf : Trapframe} {csv : Procstate} {m : Map → μ} :
    (doGetBody sp tf csv m).sv = csv := by
  unfold doGetBody
  dsimp only
  split
  · rfl
  · split
    · rfl
    · split <;> rfl

theorem Node.meet_plain {n : Node μ} {q : Option (Node μ)} {r : Node μ × Option (Node μ)}
    (h : n.meet net sp usr low q = some r) (hn : n.Plain net)
    (hq : ∀ q', q = some q' → q'.Plain net) :
    r.1.Plain net ∧ ∀ q', r.2 = some q' → q'.Plain net := by
  obtain ⟨hh, hp⟩ := hn
  unfold meet at h
  split at h
  · split at h
    · obtain rfl := Option.some.inj h
      refine ⟨⟨hh, hp⟩, fun q' e => ?_⟩
      obtain rfl := Option.some.inj e
      cases q with
      | none =>
        have hf : freshSv.pff &&& pffIcnt = 0 := by decide
        exact ⟨rfl, hf⟩
      | some q => exact hq q rfl
    · obtain rfl := Option.some.inj h
      exact ⟨⟨hh, hp⟩, hq⟩
  · obtain ⟨q₀, rfl, h⟩ := Option.bind_eq_some_iff.1 h
    obtain ⟨hb, h⟩ := Option.ite_none_right_eq_some.1 h
    obtain ⟨ph, -, rfl⟩ := Option.map_eq_some_iff.1 h
    refine ⟨⟨hh, hp⟩, fun q' e => ?_⟩
    obtain rfl := Option.some.inj e
    exact ⟨(hq q₀ rfl).home, hb⟩
  · obtain ⟨ph, -, rfl⟩ := Option.map_eq_some_iff.1 h
    refine ⟨⟨hh, hp⟩, fun q' e => ?_⟩
    obtain ⟨q₀, rfl, rfl⟩ := Option.map_eq_some_iff.1 e
    refine ⟨(hq q₀ rfl).home, ?_⟩
    simp only [taken, doGetBody_sv]
    exact (hq q₀ rfl).pff
  · obtain ⟨q₀, rfl, rfl⟩ := Option.map_eq_some_iff.1 h
    refine ⟨⟨hh, hp⟩, fun q' e => ?_⟩
    obtain rfl := Option.some.inj e
    exact ⟨(hq q₀ rfl).home, (hq q₀ rfl).pff⟩
  · cases h

theorem treeFire_plain {p : Pid} {A B : Tree μ} (hA : A.Plain net)
    (h : treeFire net sp usr low p A = some B) : B.Plain net := by
  intro x n hx
  obtain ⟨m, m', hm, -, hs, rfl⟩ | ⟨m, cn, r, hm, -, -, hs, rfl⟩ := treeFire_cases h
  · by_cases hxp : x = p
    · subst hxp
      rw [Function.update_self] at hx
      exact Option.some.inj hx ▸ Node.alone_plain hs (hA x m hm)
    · rw [Function.update_of_ne hxp] at hx
      exact hA x n hx
  · have hr := Node.meet_plain hs (hA p m hm) fun q' e => hA _ q' e
    by_cases hxc : x = p.child cn
    · subst hxc
      rw [Function.update_self] at hx
      exact hr.2 n hx
    · rw [Function.update_of_ne hxc] at hx
      by_cases hxp : x = p
      · subst hxp
        rw [Function.update_self] at hx
        exact Option.some.inj hx ▸ hr.1
      · rw [Function.update_of_ne hxp] at hx
        exact hA x n hx

theorem tree_run_plain {A B : Tree μ} {l : List (Seen μ)} (hA : A.Plain net)
    (h : (treeAgents net sp usr low).Run A l B) : B.Plain net := by
  induction h with
  | nil => exact hA
  | snoc _ hf ih => exact treeFire_plain ih hf

end

end Determinator
