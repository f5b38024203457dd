import Determinator.User.File

/-!
# Reconciliation of file states

The part of `lib/fork.c` that brings the file state of a process together with that of a child it
has forked. The parent has the child's metadata `cfiles` in its scratch area and reaches the bytes
of the child's files by `sys_get` and `sys_put`; these copy `PTSIZE` bytes, from the start of one
file's area to the start of another's.

`reconcile` is one call. It makes a table of corresponding inodes in two passes (`mapChild`,
`mapParent`) and reconciles the pairs in a third. Next to its value a call tells whether it has
read an entry outside the tables (`outside`): the warning about a bad mapping prints the parent's
inode `pino` also where `pino` is no inode number.
-/

namespace Determinator.File

/-! ## fork -/

/-- What the child makes of the file state it has got from its parent: it has no children yet, and
each inode corresponds to the same inode of the parent. -/
def forkChild (f : FileState) : FileState :=
  { f with
    child := fun pid => if pid = 0 then .reserved else .free
    fi := fun i => if f.alloced i then
        { f.fi i with rino := i, rver := (f.fi i).ver, rlen := (f.fi i).size }
      else f.fi i }

/-- The first free child slot. -/
def forkPid (f : FileState) : Option ℕ :=
  (List.range' 1 255).find? fun pid => f.child pid == .free

/-! ## Reconciliation -/

/-- The state that a reconciliation works on: the parent's files, the child's, and the bytes at
`VM_SCRATCHLO + PTSIZE` in the parent. -/
structure Sync where
  parent : Fs
  child : Fs
  cp : ℕ → UInt8

namespace Sync

/-- The inode `pfi` of the parent. -/
def pfi (s : Sync) (pino : ℤ) : FileInode := s.parent.files.fi pino

/-- The inode `cfi` of the child. -/
def cfi (s : Sync) (cino : ℤ) : FileInode := s.child.files.fi cino

/-- The bytes of the parent's file. -/
def pdata (s : Sync) (pino : ℤ) : ℕ → UInt8 := s.parent.data pino

/-- The bytes of the child's file. -/
def cdata (s : Sync) (cino : ℤ) : ℕ → UInt8 := s.child.data cino

/-- Change the parent's inode `pino` and the child's inode `cino`. -/
def setFi (s : Sync) (pino cino : ℤ) (g h : FileInode → FileInode) : Sync :=
  { s with parent := s.parent.setFi pino g, child := s.child.setFi cino h }

end Sync

/-- Merge what parent and child have appended to a file. -/
def reconcileMerge (s : Sync) (pino cino : ℤ) : Except Site (Bool × Sync) := do
  let pfi := s.pfi pino
  let cfi := s.cfi cino
  require (fileinoIsvalid pino) .reconcileMerge
  require (fileinoIsvalid cino) .reconcileMerge
  require (pfi.ver = cfi.ver) .reconcileMerge
  require (pfi.mode = cfi.mode) .reconcileMerge
  if sIsreg pfi.mode = false then
    return (false, s)
  let rlen := toInt cfi.rlen
  let plen := toInt pfi.size
  let clen := toInt cfi.size
  let pgrow := toInt (plen - rlen)
  let cgrow := toInt (clen - rlen)
  require (0 ≤ pgrow ∧ pgrow ≤ fileMaxsize) .reconcileMerge
  require (0 ≤ cgrow ∧ cgrow ≤ fileMaxsize) .reconcileMerge
  if pgrow = 0 ∧ cgrow = 0 then
    return (false, s)
  require (pfi.size ≤ fileMaxsize) .reconcileMerge
  require (cfi.size ≤ fileMaxsize) .reconcileMerge
  -- the child's bytes, as far as one page table maps them; what lies behind is left as it was
  let cp := copy ptsize (s.cdata cino) s.cp
  let newlen := toInt (rlen + pgrow + cgrow)
  require (newlen = toInt (plen + cgrow)) .reconcileMerge
  require (newlen = toInt (clen + pgrow)) .reconcileMerge
  if fileMaxsize < newlen then
    let conf := fun x : FileInode => { x with mode := x.mode ||| sIfconf }
    return (true, { s.setFi pino cino conf conf with cp := cp })
  let pp := memcpy (s.pdata pino) plen.toNat cp rlen.toNat cgrow.toNat
  let cp := memcpy cp clen.toNat pp rlen.toNat pgrow.toNat
  let s := s.setFi pino cino (fun x => { x with size := newlen.toNat })
    (fun x => { x with size := newlen.toNat, rlen := newlen.toNat })
  return (true,
    { parent := s.parent.setData pino fun _ => pp
      child := s.child.setData cino fun d => copy ptsize cp d
      cp := cp })

/-- Reconcile a pair of corresponding inodes. -/
def reconcileInode (s : Sync) (pino cino : ℤ) : Except Site (Bool × Sync) := do
  require (fileinoIsvalid pino) .reconcileInode
  require (fileinoIsvalid cino) .reconcileInode
  let pfi := s.pfi pino
  let cfi := s.cfi cino
  let rver := cfi.rver
  let rlen := toInt cfi.rlen
  require (rver ≤ cfi.ver) .reconcileInode
  require (rver ≤ pfi.ver) .reconcileInode
  require (cfi.ver = rver → toSize rlen ≤ cfi.size) .reconcileInode
  require (pfi.ver = rver → toSize rlen ≤ pfi.size) .reconcileInode
  if pfi.ver = rver ∧ cfi.ver = rver then
    reconcileMerge s pino cino
  else
    require (pfi.size ≤ fileMaxsize) .reconcileInode
    require (cfi.size ≤ fileMaxsize) .reconcileInode
    if (rver < pfi.ver ∨ toSize rlen < pfi.size) ∧ (rver < cfi.ver ∨ toSize rlen < cfi.size) then
      -- both have changed, and not only by appending: a conflict
      let ver := max pfi.ver cfi.ver
      return (true, s.setFi pino cino
        (fun x => { x with mode := x.mode ||| sIfconf, ver := ver })
        (fun x => { x with mode := x.mode ||| sIfconf, ver := ver, rver := ver }))
    else if rver < pfi.ver ∨ toSize rlen < pfi.size then
      let s := s.setFi pino cino id fun x =>
        { x with ver := pfi.ver, mode := pfi.mode, size := pfi.size,
                 rver := pfi.ver, rlen := pfi.size }
      return (true,
        { s with child := s.child.setData cino fun d => copy ptsize (s.pdata pino) d })
    else
      let s := s.setFi pino cino
        (fun x => { x with ver := cfi.ver, mode := cfi.mode, size := cfi.size })
        (fun x => { x with rver := cfi.ver, rlen := cfi.size })
      return (true,
        { s with parent := s.parent.setData pino fun d => copy ptsize (s.cdata cino) d })

/-- The local state of `reconcile`: the tables of corresponding inodes, and whether an entry
outside the tables was read. -/
structure Scan where
  sync : Sync
  p2c : ℤ → ℤ
  c2p : ℤ → ℤ
  outside : Bool

namespace Scan

/-- The tables at the start: the special inodes correspond. -/
def init (s : Sync) : Scan :=
  let tab : ℤ → ℤ := fun i => if 1 ≤ i ∧ i ≤ 3 then i else 0
  ⟨s, tab, tab, false⟩

/-- Record that two inodes correspond. -/
def map (t : Scan) (pino cino : ℤ) : Scan :=
  { t with p2c := Function.update t.p2c pino cino, c2p := Function.update t.c2p cino pino }

/-- An entry `i` of a table is read. -/
def look (t : Scan) (i : ℤ) : Scan :=
  { t with outside := t.outside || decide (i < 0 ∨ fileInodes ≤ i) }

/-- Check the child's mapping of an inode and record it. Where something is wrong the inode is left
alone, with a warning that prints the parent's inode. -/
def link (t : Scan) (cino : ℤ) : Scan :=
  let cfi := t.sync.cfi cino
  let pino := cfi.rino
  let pfi := t.sync.pfi pino
  if pino ≤ 0 ∨ fileInodes ≤ pino then t.look pino
  else
    let t := t.look pfi.dino
    if t.p2c pfi.dino ≠ cfi.dino ∨ pfi.name ≠ cfi.name ∨ pfi.ver < cfi.rver ∨ cfi.ver < cfi.rver
    then t
    else t.map pino cino

end Scan

/-- The inode number that `fileino_create` returns, `-1` for an error. -/
def inoOf : Except Errno ℤ → ℤ
  | .ok i => i
  | .error _ => -1

/-- The first pass: find or create the parent's inode for an inode of the child. -/
def mapChild (t : Scan) (cino : ℤ) : Except Site Scan := do
  let cfi := t.sync.cfi cino
  if cfi.name = [] ∨ cfi.mode = 0 ∧ cfi.rino = 0 then
    return t
  else if cfi.rino = 0 then
    if cfi.dino ≤ 0 ∨ fileInodes ≤ cfi.dino ∨ t.c2p cfi.dino = 0 then
      return t
    else
      let (r, files) ← fileinoCreate t.sync.parent.files (t.c2p cfi.dino) cfi.name
      let t := { t with sync := { t.sync with
        parent := { t.sync.parent with files := files }
        child := t.sync.child.setFi cino fun x => { x with rino := inoOf r } } }
      if inoOf r ≤ 0 then
        return t
      else
        return t.link cino
  else
    return t.link cino

/-- The second pass: find or create the child's inode for an inode of the parent. -/
def mapParent (t : Scan) (pino : ℤ) : Except Site Scan := do
  let pfi := t.sync.pfi pino
  if pfi.name = [] ∨ pfi.mode = 0 ∨ t.p2c pino ≠ 0 then
    return t
  else
    let t := t.look pfi.dino
    let (r, cfiles) ← fileinoCreate t.sync.child.files (t.p2c pfi.dino) pfi.name
    let cino := inoOf r
    let t := { t with sync := { t.sync with child := { t.sync.child with files := cfiles } } }
    if cino ≤ 0 then
      return t
    else
      let t := { t with sync := { t.sync with
        child := t.sync.child.setFi cino fun x => { x with rino := pino } } }
      return t.map pino cino

/-- The third pass: reconcile an inode of the parent with the corresponding one, if there is
one. -/
def mapPair (p2c c2p : ℤ → ℤ) (r : Bool × Sync) (pino : ℤ) : Except Site (Bool × Sync) := do
  if p2c pino = 0 then
    return r
  else
    let cino := p2c pino
    require (c2p cino = pino) .reconcile
    let (d, s) ← reconcileInode r.2 pino cino
    return (r.1 || d, s)

/-- The first two passes. -/
def scan (s : Sync) : Except Site Scan := do
  let t ← (inos 1).foldlM mapChild (Scan.init s)
  (inos 1).foldlM mapParent t

/-- What a call of `reconcile` leaves: whether changes were propagated, the files of the two
processes, and whether an entry outside the tables was read. -/
structure Reconciled where
  didio : Bool
  sync : Sync
  outside : Bool

/-- Reconcile the parent's file state with the child's. -/
def reconcile (s : Sync) : Except Site Reconciled := do
  let t ← scan s
  let (d, s) ← (inos 1).foldlM (mapPair t.p2c t.c2p) (false, t.sync)
  return ⟨d, s, t.outside⟩

end Determinator.File
