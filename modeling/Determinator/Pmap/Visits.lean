import Determinator.Lib.Trace
import Determinator.Kern.Pmap

/-!
# The iterations of the range functions

`pmap_remove_level`, `pmap_copy_level` and `pmap_setperm_level` go over a range of addresses, and their
entry pointers move beside the addresses. Here they are once more, with a record of every iteration
(`Visit`): the entries it uses, the bytes of the range it is for, and what it calls for them. Apart from the
records they are the functions of `Kern/Pmap` (`Erases`).
-/

namespace Determinator

open PanicM

/-- An entry pointer, and the address it is used for. -/
structure Cursor where
  table : Frame
  index : ℕ
  va : ℕ

/-- An iteration of one of the loops. -/
structure Visit where
  /-- The memory when it begins. -/
  mem : Mem
  level : ℕ
  /-- The entry of the source, in `pmap_copy_level`. -/
  source : Option Cursor
  /-- The entry of the page map that is changed. -/
  entry : Cursor
  /-- The bytes of the range that it is for. -/
  size : ℕ
  /-- The function is called for these bytes at the level below. -/
  lower : Bool
  /-- `pmap_copy_level` calls `pmap_remove_level` for these bytes of the destination. -/
  clears : Bool

/-- A computation over the memory with a record of the iterations. -/
abbrev Traced := PanicM Panic Note (Mem × List Visit)

/-- Record an iteration that uses the entry `i` of `t` for the addresses from `va` to `hi`. -/
def visit (s : Mem) (level : ℕ) (t : Frame) (i va hi : ℕ) (lower : Bool) : Traced Unit :=
  record fun _ => ⟨s, level, none, ⟨t, i, va⟩, hi - va, lower, false⟩

/-- Record an iteration of `pmap_copy_level`. -/
def visitCopy (s : Mem) (level : ℕ) (st dt : Frame) (x : CopyAt) (size : ℕ) (lower clears : Bool) :
    Traced Unit :=
  record fun _ => ⟨s, level, some ⟨st, x.si, x.sva⟩, ⟨dt, x.di, x.dva⟩, size, lower, clears⟩

variable (b : Boot)

namespace Traced

/-! ## Removing -/

/-- One round of the loop of `pmap_remove_level`. -/
def removeEntry (lower : Frame → ℕ → ℕ → Traced ℕ) (level : ℕ) (t : Frame) (vahi va i : ℕ) :
    Traced ℕ := do
  let s ← lift get
  let e ← lift (readEntry t i)
  if e.frame = b.zero then
    visit s level t i va (min (pdAddr level (va + pdSize level)) vahi) false
    pure (pdAddr level (va + pdSize level))
  else if pdOff level va = 0 ∧ pdSize level ≤ vahi - va then
    visit s level t i va (va + pdSize level) false
    lift (memDecref b e.frame (pmapFreefun b level))
    lift (writeEntry t i (pteZero b))
    pure (va + pdSize level)
  else
    let lvahi := min (pdAddr level va + pdSize level) vahi
    visit s level t i va lvahi true
    let s ← lift get
    lift (noteIf (e.isW ∧ s.refcount e.frame ≠ 1) .staleW)
    let r ← lift (pmapWalkLevel b level t va true)
    lift (noteIf (r = none) .ignored)
    let e ← lift (readEntry t i)
    let _ ← lower e.frame va lvahi
    pure lvahi

/-- The loop of `pmap_remove_level`. -/
def removeLoop (lower : Frame → ℕ → ℕ → Traced ℕ) (level : ℕ) (t : Frame) (va vahi : ℕ) :
    Traced ℕ := do
  let x ← whileM .spin (fun x : ℕ × ℕ => x.1 < vahi)
    (fun x => do
      let va ← removeEntry b lower level t vahi x.1 x.2
      pure (va, x.2 + 1))
    (vahi - va) (va, pdx level va)
  pure x.1

/-- `pmap_remove_level`. -/
def pmapRemoveLevel : ℕ → Frame → ℕ → ℕ → Traced ℕ
  | 0 => removeLoop b (fun _ _ _ => panic .assert) 0
  | level + 1 => removeLoop b (pmapRemoveLevel level) (level + 1)

/-- `pmap_remove`. -/
def pmapRemove (pml4 : Frame) (va size : ℕ) : Traced Unit := do
  lift (check (size % pageSize = 0) .assert)
  lift (check (vmUserLo ≤ va ∧ va < vmUserHi) .assert)
  lift (check (size ≤ vmUserHi - va) .assert)
  let _ ← whileM .spin (fun x => x < va + size)
    (fun x => pmapRemoveLevel b nptLvls pml4 x (va + size)) size va

/-! ## Copying -/

/-- Share the whole entry. -/
def copyShare (s : Mem) (level : ℕ) (st dt : Frame) (x : CopyAt) : Traced Unit := do
  let d ← lift (readEntry dt x.di)
  visitCopy s level st dt x (pdSize level) false (d.frame ≠ b.zero)
  if d.frame ≠ b.zero then
    let _ ← pmapRemoveLevel b level dt x.dva (x.dva + pdSize level)
  lift do
    let d ← readEntry dt x.di
    check (d.frame = b.zero) .assert
    let e ← readEntry st x.si
    writeEntry st x.si e.clearW
    let e ← readEntry st x.si
    writeEntry dt x.di e
    let e ← readEntry st x.si
    if e.frame ≠ b.zero then memIncref b e.frame

/-- Copy the part of the entry that starts at `x` and has `size` bytes. -/
def copyPart (lower : Frame → ℕ → Frame → ℕ → ℕ → Traced Unit) (s : Mem) (level : ℕ) (st dt : Frame)
    (x : CopyAt) (size : ℕ) : Traced Unit := do
  let e ← lift (readEntry st x.si)
  if e.frame = b.zero then
    visitCopy s level st dt x size false true
    let _ ← pmapRemoveLevel b level dt x.dva (x.dva + size)
  else
    visitCopy s level st dt x size true false
    let d ← lift (readEntry dt x.di)
    if d.frame = b.zero then
      let r ← lift (pmapWalkLevel b level dt x.dva true)
      let d ← lift (readEntry dt x.di)
      lift (noteIf (r = none ∧ d.frame ≠ b.zero) .ignored)
    let d ← lift (readEntry dt x.di)
    lift (check (d.frame ≠ b.zero) .assert)
    let s ← lift get
    lift (noteIf (s.refcount d.frame ≠ 1) .sharedDest)
    let e ← lift (readEntry st x.si)
    lower e.frame x.sva d.frame x.dva (x.sva + size)

/-- One round of the loop of `pmap_copy_level`. -/
def copyEntry (lower : Frame → ℕ → Frame → ℕ → ℕ → Traced Unit) (level : ℕ) (st dt : Frame)
    (svahi : ℕ) (x : CopyAt) : Traced CopyAt := do
  let s ← lift get
  if pdOff level x.sva = 0 ∧ pdOff level x.dva = 0 ∧ pdSize level ≤ svahi - x.sva then
    copyShare b s level st dt x
    pure ⟨x.sva + pdSize level, x.si + 1, x.dva + pdSize level, x.di + 1⟩
  else
    let size := copySize level x svahi
    copyPart b lower s level st dt x size
    pure (x.advance level size)

/-- The loop of `pmap_copy_level`. -/
def copyLoop (lower : Frame → ℕ → Frame → ℕ → ℕ → Traced Unit) (level : ℕ) (st : Frame) (sva : ℕ)
    (dt : Frame) (dva svahi : ℕ) : Traced Unit := do
  let _ ← whileM .spin (fun x : CopyAt => x.sva < svahi) (copyEntry b lower level st dt svahi)
    (svahi - sva) ⟨sva, pdx level sva, dva, pdx level dva⟩

/-- `pmap_copy_level`. -/
def pmapCopyLevel : ℕ → Frame → ℕ → Frame → ℕ → ℕ → Traced Unit
  | 0 => copyLoop b (fun _ _ _ _ _ => panic .assert) 0
  | level + 1 => copyLoop b (pmapCopyLevel level) (level + 1)

/-- `pmap_copy`. -/
def pmapCopy (spml4 : Frame) (sva : ℕ) (dpml4 : Frame) (dva size : ℕ) : Traced Unit := do
  lift (regionAsserts sva dva size)
  pmapCopyLevel b nptLvls spml4 sva dpml4 dva (sva + size)

/-! ## Permissions -/

/-- One round of the loop of `pmap_setperm_level`. -/
def setpermEntry (lower : Frame → ℕ → ℕ → Traced Unit) (level : ℕ) (t : Frame)
    (pteand pteor : BitVec 12) (vahi va : ℕ) : Traced ℕ := do
  let s ← lift get
  let i := pdx level va
  let e ← lift (readEntry t i)
  if e.frame = b.zero ∧ pteor = 0 then
    visit s level t i va (min (pdAddr level va + pdSize level) vahi) false
    pure (pdAddr level va + pdSize level)
  else
    if 0 < level then
      let r ← lift (pmapWalkLevel b level t va true)
      lift (noteIf (r = none) .ignored)
    if pdOff level va = 0 ∧ pdSize level ≤ vahi - va then
      if level = 0 then
        visit s level t i va (va + pdSize level) false
        let e ← lift (readEntry t i)
        lift (writeEntry t i { e with flags := e.flags &&& pteand ||| pteor })
      else
        visit s level t i va (va + pdSize level) true
        let e ← lift (readEntry t i)
        lower e.frame va (va + pdSize level)
      pure (va + pdSize level)
    else
      let lvahi := min (pdAddr level va + pdSize level) vahi
      visit s level t i va lvahi true
      let e ← lift (readEntry t i)
      lower e.frame va lvahi
      pure lvahi

/-- The loop of `pmap_setperm_level`. -/
def setpermLoop (lower : Frame → ℕ → ℕ → Traced Unit) (level : ℕ) (pteand pteor : BitVec 12)
    (t : Frame) (va vahi : ℕ) : Traced Unit := do
  let _ ← whileM .spin (fun x => x < vahi) (setpermEntry b lower level t pteand pteor vahi)
    (vahi - va) va

/-- `pmap_setperm_level`. -/
def pmapSetpermLevel (pteand pteor : BitVec 12) : ℕ → Frame → ℕ → ℕ → Traced Unit
  | 0 => setpermLoop b (fun _ _ _ => panic .assert) 0 pteand pteor
  | level + 1 => setpermLoop b (pmapSetpermLevel pteand pteor level) (level + 1) pteand pteor

/-- `pmap_setperm`. -/
def pmapSetperm (pml4 : Frame) (va size : ℕ) (perm : BitVec 12) : Traced Unit := do
  lift (check (va % pageSize = 0) .assert)
  lift (check (size % pageSize = 0) .assert)
  lift (check (vmUserLo ≤ va ∧ va < vmUserHi) .assert)
  lift (check (size ≤ vmUserHi - va) .assert)
  lift (check (perm &&& ~~~sysRW = 0) .assert)
  let (pteand, pteor) := permMasks perm
  pmapSetpermLevel b pteand pteor nptLvls pml4 va (va + size)

end Traced

/-! ## Without the records -/

variable {b}
variable {lower : Frame → ℕ → ℕ → Kern ℕ} {lower' : Frame → ℕ → ℕ → Traced ℕ}
  {go : Frame → ℕ → ℕ → Kern Unit} {go' : Frame → ℕ → ℕ → Traced Unit}
  {copy : Frame → ℕ → Frame → ℕ → ℕ → Kern Unit} {copy' : Frame → ℕ → Frame → ℕ → ℕ → Traced Unit}
  {l va vahi i : ℕ} {t st dt : Frame} {pand por : BitVec 12}

theorem erases_removeEntry (h : ∀ t lo hi, Erases (lower' t lo hi) (lower t lo hi)) :
    Erases (Traced.removeEntry b lower' l t vahi va i) (removeEntry b lower l t vahi va i) := by
  unfold Traced.removeEntry removeEntry
  refine erases_get fun s => erases_bind (erases_lift _) fun e => ?_
  refine erases_ite (erases_record _ (erases_pure _)) (erases_ite ?_ ?_)
  · refine erases_record _ (erases_bind (erases_lift _) fun _ => ?_)
    exact erases_bind (erases_lift _) fun _ => erases_pure _
  · refine erases_record _ (erases_bind (erases_lift _) fun s => erases_bind (erases_lift _) fun _ => ?_)
    refine erases_bind (erases_lift _) fun r => erases_bind (erases_lift _) fun _ => ?_
    refine erases_bind (erases_lift _) fun e => erases_bind (h _ _ _) fun _ => erases_pure _

theorem erases_removeLoop (h : ∀ t lo hi, Erases (lower' t lo hi) (lower t lo hi)) :
    Erases (Traced.removeLoop b lower' l t va vahi) (removeLoop b lower l t va vahi) := by
  unfold Traced.removeLoop removeLoop
  refine erases_bind (erases_whileM (fun x => ?_) _ _) fun x => erases_pure _
  exact erases_bind (erases_removeEntry h) fun va => erases_pure _

theorem erases_pmapRemoveLevel (l : ℕ) (t : Frame) (va vahi : ℕ) :
    Erases (Traced.pmapRemoveLevel b l t va vahi) (pmapRemoveLevel b l t va vahi) := by
  induction l generalizing t va vahi with
  | zero => exact erases_removeLoop fun _ _ _ => erases_panic _
  | succ l ih => exact erases_removeLoop ih

theorem erases_pmapRemove (r : Frame) (va size : ℕ) :
    Erases (Traced.pmapRemove b r va size) (pmapRemove b r va size) := by
  unfold Traced.pmapRemove pmapRemove
  refine erases_bind (erases_lift _) fun _ => erases_bind (erases_lift _) fun _ => ?_
  refine erases_bind (erases_lift _) fun _ => erases_bind ?_ fun _ => erases_pure _
  exact erases_whileM (fun x => erases_pmapRemoveLevel _ _ _ _) _ _

theorem erases_copyShare (s : Mem) (x : CopyAt) :
    Erases (Traced.copyShare b s l st dt x) (copyShare b l st dt x) := by
  unfold Traced.copyShare copyShare
  refine erases_bind (erases_lift _) fun d => erases_record _ (erases_ite ?_ (erases_lift _))
  exact erases_bind (erases_pmapRemoveLevel _ _ _ _) fun _ => erases_lift _

theorem erases_copyPart (h : ∀ st sva dt dva svahi, Erases (copy' st sva dt dva svahi) (copy st sva dt dva svahi))
    (s : Mem) (x : CopyAt) (size : ℕ) :
    Erases (Traced.copyPart b copy' s l st dt x size) (copyPart b copy l st dt x size) := by
  have hrest : Erases (do
        let d ← lift (readEntry dt x.di)
        lift (check (d.frame ≠ b.zero) .assert)
        let s ← lift get
        lift (noteIf (s.refcount d.frame ≠ 1) .sharedDest)
        let e ← lift (readEntry st x.si)
        copy' e.frame x.sva d.frame x.dva (x.sva + size)) (do
        let d ← readEntry dt x.di
        check (d.frame ≠ b.zero) .assert
        let s ← get
        noteIf (s.refcount d.frame ≠ 1) .sharedDest
        let e ← readEntry st x.si
        copy e.frame x.sva d.frame x.dva (x.sva + size)) := by
    refine erases_bind (erases_lift _) fun d => erases_bind (erases_lift _) fun _ => ?_
    refine erases_bind (erases_lift _) fun s => erases_bind (erases_lift _) fun _ => ?_
    exact erases_bind (erases_lift _) fun e => h _ _ _ _ _
  unfold Traced.copyPart copyPart
  refine erases_bind (erases_lift _) fun e => erases_ite (erases_record _ ?_) (erases_record _ ?_)
  · exact erases_bind (erases_pmapRemoveLevel _ _ _ _) fun _ => erases_pure _
  · refine erases_bind (erases_lift _) fun d => erases_ite ?_ hrest
    refine erases_bind (erases_lift _) fun r => erases_bind (erases_lift _) fun d => ?_
    exact erases_bind (erases_lift _) fun _ => hrest

theorem erases_copyEntry (h : ∀ st sva dt dva svahi, Erases (copy' st sva dt dva svahi) (copy st sva dt dva svahi))
    (x : CopyAt) : Erases (Traced.copyEntry b copy' l st dt vahi x) (copyEntry b copy l st dt vahi x) := by
  unfold Traced.copyEntry copyEntry
  refine erases_get fun s => erases_ite ?_ ?_
  · exact erases_bind (erases_copyShare _ _) fun _ => erases_pure _
  · exact erases_bind (erases_copyPart h _ _ _) fun _ => erases_pure _

theorem erases_pmapCopyLevel (l : ℕ) (st : Frame) (sva : ℕ) (dt : Frame) (dva svahi : ℕ) :
    Erases (Traced.pmapCopyLevel b l st sva dt dva svahi) (pmapCopyLevel b l st sva dt dva svahi) := by
  induction l generalizing st sva dt dva svahi with
  | zero =>
    refine erases_bind (erases_whileM (fun x => ?_) _ _) fun _ => erases_pure _
    exact erases_copyEntry (fun _ _ _ _ _ => erases_panic _) x
  | succ l ih =>
    exact erases_bind (erases_whileM (fun x => erases_copyEntry ih x) _ _) fun _ => erases_pure _

theorem erases_pmapCopy (sr : Frame) (sva : ℕ) (dr : Frame) (dva size : ℕ) :
    Erases (Traced.pmapCopy b sr sva dr dva size) (pmapCopy b sr sva dr dva size) :=
  erases_bind (erases_lift _) fun _ => erases_pmapCopyLevel _ _ _ _ _ _

theorem erases_setpermEntry (h : ∀ t lo hi, Erases (go' t lo hi) (go t lo hi)) :
    Erases (Traced.setpermEntry b go' l t pand por vahi va) (setpermEntry b go l t pand por vahi va) := by
  unfold Traced.setpermEntry setpermEntry
  refine erases_get fun s => erases_bind (erases_lift _) fun e => ?_
  refine erases_ite (erases_record _ (erases_pure _)) (erases_ite ?_ ?_)
  · refine erases_bind (erases_lift _) fun r => erases_bind (erases_lift _) fun _ => ?_
    refine erases_ite (erases_ite (erases_record _ ?_) (erases_record _ ?_)) (erases_record _ ?_)
    · exact erases_bind (erases_lift _) fun e => erases_bind (erases_lift _) fun _ => erases_pure _
    · exact erases_bind (erases_lift _) fun e => erases_bind (h _ _ _) fun _ => erases_pure _
    · exact erases_bind (erases_lift _) fun e => erases_bind (h _ _ _) fun _ => erases_pure _
  · refine erases_ite (erases_ite (erases_record _ ?_) (erases_record _ ?_)) (erases_record _ ?_)
    · exact erases_bind (erases_lift _) fun e => erases_bind (erases_lift _) fun _ => erases_pure _
    · exact erases_bind (erases_lift _) fun e => erases_bind (h _ _ _) fun _ => erases_pure _
    · exact erases_bind (erases_lift _) fun e => erases_bind (h _ _ _) fun _ => erases_pure _

theorem erases_pmapSetpermLevel (l : ℕ) (t : Frame) (va vahi : ℕ) :
    Erases (Traced.pmapSetpermLevel b pand por l t va vahi) (pmapSetpermLevel b pand por l t va vahi) := by
  induction l generalizing t va vahi with
  | zero =>
    refine erases_bind (erases_whileM (fun x => ?_) _ _) fun _ => erases_pure _
    exact erases_setpermEntry fun _ _ _ => erases_panic _
  | succ l ih =>
    exact erases_bind (erases_whileM (fun x => erases_setpermEntry ih) _ _) fun _ => erases_pure _

theorem erases_pmapSetperm (r : Frame) (va size : ℕ) (perm : BitVec 12) :
    Erases (Traced.pmapSetperm b r va size perm) (pmapSetperm b r va size perm) := by
  unfold Traced.pmapSetperm pmapSetperm
  refine erases_bind (erases_lift _) fun _ => erases_bind (erases_lift _) fun _ => ?_
  refine erases_bind (erases_lift _) fun _ => erases_bind (erases_lift _) fun _ => ?_
  exact erases_bind (erases_lift _) fun _ => erases_pmapSetpermLevel _ _ _ _

end Determinator
