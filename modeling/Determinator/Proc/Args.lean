import Determinator.Kern.Space

/-!
# The arguments of the page-map calls

Which system calls hand the page-map code arguments that satisfy the assertions at the head of its
functions. The checks in `do_put` and `do_get` let a region pass that begins at `VM_USERHI` and is
empty, and the functions do not; and `do_get` works on the null page maps of `proc_null` where the
child is missing.
-/

namespace Determinator

/-! ## What the page-map code asserts -/

/-- The assertions on a region: aligned, in the user area, and not past its end. -/
def RegionAsserts (va size : ℕ) : Prop :=
  size % pageSize = 0 ∧ vmUserLo ≤ va ∧ va < vmUserHi ∧ size ≤ vmUserHi - va

/-- The assertions at the heads of `pmap_remove`, `pmap_copy`, `pmap_merge` and `pmap_setperm`. -/
def Call.ArgsOk : Call → Prop
  | .remove _ va size => RegionAsserts va size
  | .copy _ sva _ dva size | .merge _ _ sva _ dva size =>
    sva % pageSize = 0 ∧ dva % pageSize = 0 ∧ RegionAsserts sva size ∧ RegionAsserts dva size
  | .setperm _ va size perm =>
    va % pageSize = 0 ∧ RegionAsserts va size ∧ perm &&& ~~~sysRWCmd = 0

/-- The page map belongs to a process: the caller's, or those of a child that exists. -/
def Map.Allocated (child : Bool) : Map → Prop
  | .own => True
  | .kid | .ref => child = true

/-- The page maps a call works on belong to processes. -/
def Call.MapsOk (child : Bool) : Call → Prop
  | .remove m _ _ | .setperm m _ _ _ => m.Allocated child
  | .copy s _ d _ _ => s.Allocated child ∧ d.Allocated child
  | .merge r s _ d _ _ => r.Allocated child ∧ s.Allocated child ∧ d.Allocated child

/-- A call the page-map code can be given. -/
def Call.Ok (child : Bool) (k : Call) : Prop := k.ArgsOk ∧ k.MapsOk child

/-- An empty region at the very end of the user area. -/
def atEnd (va size : ℕ) : Prop := va = vmUserHi ∧ size = 0

theorem regionOk_iff {va size : ℕ} :
    regionOk va size = true ↔ va % pageSize = 0 ∧ (RegionAsserts va size ∨ atEnd va size) := by
  unfold regionOk RegionAsserts atEnd
  simp only [Bool.and_eq_true, decide_eq_true_eq]
  have h : vmUserHi % pageSize = 0 ∧ vmUserLo ≤ vmUserHi := by decide
  constructor
  · rintro ⟨⟨⟨⟨h₁, h₂⟩, h₃⟩, h₄⟩, h₅⟩
    refine ⟨h₁, ?_⟩
    rcases Nat.lt_or_ge va vmUserHi with hlt | hge
    · exact .inl ⟨h₂, h₃, hlt, h₅⟩
    · right
      omega
  · rintro ⟨h₁, ⟨h₂, h₃, h₄, h₅⟩ | ⟨rfl, rfl⟩⟩
    · exact ⟨⟨⟨⟨h₁, h₂⟩, h₃⟩, by omega⟩, h₅⟩
    · exact ⟨⟨⟨⟨h.1, by simp⟩, h.2⟩, le_refl _⟩, by simp⟩

/-- The check and the assertions agree but for the empty region at the end. -/
theorem regionAsserts_iff {va size : ℕ} (h : regionOk va size = true) :
    RegionAsserts va size ↔ ¬atEnd va size := by
  obtain ⟨-, ha | ha⟩ := regionOk_iff.1 h
  · refine ⟨fun _ he => ?_, fun _ => ha⟩
    have : va < vmUserHi := ha.2.2.1
    rw [he.1] at this
    omega
  · refine ⟨fun hr => ?_, fun hn => absurd ha hn⟩
    have : va < vmUserHi := hr.2.2.1
    rw [ha.1] at this
    omega

/-! ## The calls of a handler -/

/-- The two handlers. -/
inductive Handler
  | put
  | get

section

variable {Cpu μ : Type} (net : BitVec 8) (sp : Spaces μ) (km : KernMem)

/-- The child whose page maps the handler works on exists: PUT creates it. -/
def Handler.child (h : Handler) (q : Option (Proc Cpu μ)) : Bool :=
  match h with
  | .put => true
  | .get => q.isSome

/-- The handler gets past the registers: it is not asked for them, or they can be copied. -/
def PassesRegs (h : Handler) (tf : Trapframe) (r : Proc Cpu μ) (q : Option (Proc Cpu μ)) : Prop :=
  tf.cmd &&& sysRegs = 0 ∨
    match h with
    | .put => ∃ vs, copyin sp km r.pml4 tf.rbx (regsLen tf.cmd) = .done vs
    | .get =>
      let sv := q.elim .zero Proc.sv
      sv.tf.rflags &&& flTF = 0 ∧
        match copyout sp r.pml4 tf.rbx ((List.range (regsLen tf.cmd)).map sv.byte) with
        | .done _ | .wild => True
        | _ => False

/-- The handler gets to its memory operations. -/
def Reaches (h : Handler) (tf : Trapframe) (r : Proc Cpu μ) (q : Option (Proc Cpu μ)) : Prop :=
  targetNode r.home tf = net ∧ (∀ q', q = some q' → q'.state = .stop) ∧
    PassesRegs sp km h tf r q

/-- The memory operation moves pages: `SYS_COPY`, and for GET also `SYS_MERGE`. -/
def Handler.moves (h : Handler) (cmd : BitVec 32) : Prop :=
  match h with
  | .put => cmd &&& sysMemop = sysCopy
  | .get => cmd &&& sysMemop = sysCopy ∨ cmd &&& sysMemop = sysMerge

end

/-! ## Exactly when the arguments are good -/

section

variable {child : Bool} {cmd : BitVec 32} {tf : Trapframe}

/-- A transfer between two regions, checked one after the other. -/
theorem transfer_spec {k : Call} {sva dva size : ℕ} (P : Prop)
    (hk : k.Ok child ↔ (sva % pageSize = 0 ∧ dva % pageSize = 0 ∧ RegionAsserts sva size ∧
      RegionAsserts dva size) ∧ child = true) {cs : Calls}
    (hcs : cs = if !regionOk sva size then ([], false)
      else if !regionOk dva size then ([], false) else ([k], true)) :
    ((∀ k ∈ cs.1, k.Ok child) ∧ (cs.2 = true → P → ¬atEnd dva size)) ↔
      ¬(regionOk sva size ∧ regionOk dva size ∧
        (atEnd sva size ∨ atEnd dva size ∨ child = false)) := by
  subst hcs
  by_cases hs : regionOk sva size = true
  · by_cases hd : regionOk dva size = true
    · rw [regionAsserts_iff hs, regionAsserts_iff hd] at hk
      simp only [hs, hd, Bool.not_true, Bool.false_eq_true, if_false, List.mem_singleton,
        forall_eq, hk, (regionOk_iff.1 hs).1, (regionOk_iff.1 hd).1, true_and, not_or,
        Bool.not_eq_false, forall_const]
      exact ⟨fun h => ⟨h.1.1.1, h.1.1.2, h.1.2⟩, fun h => ⟨⟨⟨h.1, h.2.1⟩, h.2.2⟩, fun _ => h.2.1⟩⟩
    · simp [hs, hd]
  · simp [hs]

end

section

variable {Cpu μ : Type}

end

end Determinator
