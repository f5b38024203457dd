import Determinator.Kern.Syscall

/-!
# Flat address spaces

What the page-map code is for, without page tables: an address space gives each page of the user
area its contents and its nominal permissions, and copying, merging and removing work on whole
pages at a time. `flat` is the functional effect the calls of `kern/pmap.c` are meant to have.
-/

namespace Determinator

/-- A page of an address space. -/
structure FlatPage where
  perm : BitVec 32
  data : ℕ → BitVec 8

/-- An address space, by page number. -/
abbrev Flat := ℕ → FlatPage

namespace Flat

/-- A page that is not mapped. -/
def unmapped : FlatPage := ⟨0, fun _ => 0⟩

/-- The page lies in the region of `size` bytes from `va` on. -/
def inRegion (va size n : ℕ) : Prop := va ≤ n * pageSize ∧ n * pageSize < va + size

instance (va size n : ℕ) : Decidable (inRegion va size n) :=
  inferInstanceAs (Decidable (_ ∧ _))

/-- The page of the source region that corresponds to page `n` of the destination region. -/
def srcPage (sva dva n : ℕ) : ℕ := (n * pageSize - dva + sva) / pageSize

/-- Some byte differs from the reference. -/
def differs (a b : FlatPage) : Bool := (List.range pageSize).any fun i => a.data i ≠ b.data i

/-- Source and destination have both changed a byte of the reference. -/
def conflict (r s d : FlatPage) : Bool :=
  (List.range pageSize).any fun i => s.data i ≠ r.data i && d.data i ≠ r.data i

/-- The three-way merge of a page. -/
def mergePage (r s d : FlatPage) : FlatPage :=
  if !differs s r then d
  else if conflict r s d then unmapped
  else ⟨d.perm, fun i => if s.data i = r.data i then d.data i else s.data i⟩

/-- The nominal permissions `pmap_setperm` gives a page. -/
def permOf (perm : BitVec 32) : BitVec 32 :=
  if perm &&& 0x200 = 0 then 0 else if perm &&& 0x400 = 0 then 0x200 else 0x600

end Flat

open Flat in
/-- The address spaces without page tables. -/
def flat : Spaces Flat where
  fresh := fun _ => unmapped
  null := fun _ => unmapped
  load m a :=
    let pg := m (a / pageSize)
    if pg.perm &&& 0x200 = 0 then none else some (pg.data (a % pageSize))
  store m a v :=
    let pg := m (a / pageSize)
    if pg.perm &&& 0x600 ≠ 0x600 then none
    else some (Function.update m (a / pageSize)
      { pg with data := Function.update pg.data (a % pageSize) v })
  remove m va size := fun n => if inRegion va size n then unmapped else m n
  copy s sva d dva size := fun n => if inRegion dva size n then s (srcPage sva dva n) else d n
  merge r s sva d dva size := fun n =>
    if inRegion dva size n then
      mergePage (r (srcPage sva dva n)) (s (srcPage sva dva n)) (d n)
    else d n
  setperm m va size perm := fun n =>
    if inRegion va size n then { m n with perm := permOf perm } else m n

end Determinator
