import Determinator.User.File
import Determinator.File.Outcome

/-!
# Reading and writing file pages

The functions of `lib/file.c` that touch the bytes of a file, on the pages these bytes are in. A
process has permissions for every page of its file areas. Growing a file asks the kernel for
pages that can be read and written; shrinking a file takes permissions away and leaves the bytes;
emptying it clears both. A copy that touches a page without the permission for it stops with a
page fault.

`sys_ret` gives control to the parent, which may bring the file up to date before the process
goes on (`Arrival`). Where nothing more comes, the process waits.
-/

namespace Determinator.File

/-! ## Pages -/

/-- What a process may do with a page. -/
structure Perm where
  read : Bool
  write : Bool
  deriving DecidableEq

/-- `SYS_READ | SYS_WRITE`. -/
def Perm.rw : Perm := ⟨true, true⟩

/-- No permissions. -/
def Perm.no : Perm := ⟨false, false⟩

/-- The number of pages that `n` bytes take: `ROUNDUP(n, PAGESIZE) / PAGESIZE`. -/
def pages (n : ℕ) : ℕ := (n + (pageSize - 1)) / pageSize

/-- The files of a process, and its permissions for the pages of each inode's area. -/
structure Area extends Fs where
  perm : ℤ → ℕ → Perm

namespace Area

variable (a : Area)

/-- Change an inode. -/
def setFi (ino : ℤ) (g : FileInode → FileInode) : Area := { a with toFs := a.toFs.setFi ino g }

/-- Change a descriptor. -/
def setFd (fd : ℕ) (g : FileDesc → FileDesc) : Area := { a with toFs := a.toFs.setFd fd g }

/-- Change the bytes of a file. -/
def setData (ino : ℤ) (g : (ℕ → UInt8) → ℕ → UInt8) : Area :=
  { a with toFs := a.toFs.setData ino g }

/-- `sys_get` with `SYS_PERM` on the pages from `lo` up to `hi` of a file. -/
def setPerm (ino : ℤ) (p : Perm) (lo hi : ℕ) : Area :=
  { a with perm := Function.update a.perm ino fun k =>
      if lo ≤ k ∧ k < hi then p else a.perm ino k }

/-- `sys_get` with `SYS_ZERO` on the whole area of a file. -/
def zero (ino : ℤ) : Area :=
  (a.setData ino fun d => copy fileMaxsize (fun _ => 0) d).setPerm ino .no 0 (pages fileMaxsize)

/-- The pages that hold the `n` bytes from `o` on have the permission `p`. -/
def Granted (p : Perm → Bool) (ino : ℤ) (o n : ℕ) : Prop :=
  ∀ k < pages (o + n), 0 < n → o < (k + 1) * pageSize → p (a.perm ino k) = true

instance (p : Perm → Bool) (ino : ℤ) (o n : ℕ) : Decidable (a.Granted p ino o n) :=
  inferInstanceAs (Decidable (∀ k < pages (o + n), _ → _ → _))

end Area

/-! ## Reading -/

/-- What a `sys_ret` brings for a file: more bytes, and perhaps the end of the file. -/
structure Arrival where
  bytes : List UInt8
  closed : Bool

/-- The parent has extended a file, in pages that can be read and written, and may have cleared
`S_IFPART`. -/
def Area.arrive (a : Area) (ino : ℤ) (e : Arrival) : Area :=
  let size := (a.files.fi ino).size
  let newsize := size + e.bytes.length
  let a := a.setPerm ino .rw 0 (pages newsize)
  let a := a.setData ino fun d => memcpy d size (fun i => e.bytes.getD i 0) 0 e.bytes.length
  a.setFi ino fun x =>
    { x with size := newsize, mode := if e.closed then x.mode &&& ~~~ sIfpart else x.mode }

/-- What a read has delivered: the elements, their bytes, and what it leaves. -/
structure Delivery where
  actual : ℕ
  buf : List UInt8
  area : Area

/-- What was delivered before the rest. -/
def Delivery.after (avail : ℕ) (buf : List UInt8) (r : Delivery) : Delivery :=
  { r with actual := avail + r.actual, buf := buf ++ r.buf }

section loop

variable (ino : ℤ) (ofs eltsize : ℕ)

/-- The elements that a file of a given size has from the offset on, up to `count`. -/
def avail (size count : ℕ) : ℕ := if size ≤ ofs then 0 else min count ((size - ofs) / eltsize)

/-- One round of the loop of `fileino_read`: the elements that are there, and their bytes. -/
def readRound (a : Area) (count : ℕ) : Except Site (ℕ × List UInt8) := do
  let n := avail ofs eltsize (a.files.fi ino).size count
  require (a.Granted Perm.read ino ofs (n * eltsize)) .pageFault
  return (n, bytes (a.data ino) ofs (n * eltsize))

/-- The loop of `fileino_read`, with what every `sys_ret` will bring. There is no result while the
process waits. -/
def readLoop : List Arrival → Area → ℕ → Except Site (Option Delivery)
  | _, a, 0 => return some ⟨0, [], a⟩
  | [], a, count + 1 => do
    let (n, buf) ← readRound ino ofs eltsize a (count + 1)
    if count + 1 - n = 0 ∨ (a.files.fi ino).mode &&& sIfpart = 0 then
      return some ⟨n, buf, a⟩
    return none
  | e :: es, a, count + 1 => do
    let (n, buf) ← readRound ino ofs eltsize a (count + 1)
    if count + 1 - n = 0 ∨ (a.files.fi ino).mode &&& sIfpart = 0 then
      return some ⟨n, buf, a⟩
    let r ← readLoop es (a.arrive ino e) (count + 1 - n)
    return r.map (·.after n buf)

end loop

namespace Area

variable (a : Area)

/-- Read up to `count` elements of `eltsize` bytes at offset `ofs`. -/
def fileinoRead (es : List Arrival) (ino ofs : ℤ) (eltsize count : ℕ) :
    Except Site (Option Delivery) := do
  require (a.files.isreg ino) .fileinoRead
  require (0 ≤ ofs) .fileinoRead
  require (0 < eltsize) .fileinoRead
  readLoop ino ofs.toNat eltsize es a count

/-- Read through a descriptor, and advance it. -/
def filedescRead (es : List Arrival) (fd : ℕ) (eltsize count : ℕ) :
    Except Site (Option Delivery) := do
  require (a.files.isreadable fd) .filedescRead
  let ino := (a.files.fd fd).ino
  let r ← a.fileinoRead es ino (a.files.fd fd).ofs eltsize count
  match r with
  | none => return none
  | some r =>
    let a := r.area.setFd fd fun x => { x with ofs := toInt (x.ofs + eltsize * r.actual) }
    require (r.actual = 0 ∨ toSize (a.files.fd fd).ofs ≤ (a.files.fi ino).size) .filedescRead
    return some { r with area := a }

/-! ## Writing -/

/-- Write `count` elements of `eltsize` bytes at offset `ofs`. -/
def fileinoWrite (ino ofs : ℤ) (buf : ℕ → UInt8) (eltsize count : ℕ) :
    Except Site (Except Errno ℕ × Area) := do
  require (a.files.isreg ino) .fileinoWrite
  require (0 ≤ ofs) .fileinoWrite
  require (0 < eltsize) .fileinoWrite
  let size := (a.files.fi ino).size
  require (size ≤ fileMaxsize) .fileinoWrite
  let len := eltsize * count % 2 ^ 64
  let lim := (ofs.toNat + len) % 2 ^ 64
  if lim < ofs.toNat ∨ fileMaxsize < lim then
    return (.error .efbig, a)
  let a := if size < lim then
      (a.setPerm ino .rw (pages size) (pages lim)).setFi ino fun x => { x with size := lim }
    else a
  require (a.Granted Perm.write ino ofs.toNat len) .pageFault
  return (.ok count, a.setData ino fun d => memcpy d ofs.toNat buf 0 len)

/-- Write through a descriptor, and advance it. A count from 2^63 on is negative as `actual`; the
call would then report whatever error is in `errno`, which is left out here. -/
def filedescWrite (fd : ℕ) (buf : ℕ → UInt8) (eltsize count : ℕ) :
    Except Site (Except Errno ℕ × Area) := do
  require (a.files.iswritable fd) .filedescWrite
  let ino := (a.files.fd fd).ino
  let flags := (a.files.fd fd).flags
  let a := if flags &&& oAppend ≠ 0 then
      a.setFd fd fun x => { x with ofs := toInt (a.files.fi ino).size }
    else a
  let (actual, a) ← a.fileinoWrite ino (a.files.fd fd).ofs buf eltsize count
  match actual with
  | .error e => return (.error e, a.setFd fd fun x => { x with err := e })
  | .ok n =>
    require (n < 2 ^ 63) .overflow
    let ver ← if flags &&& oAppend ≠ 0 then pure (a.files.fi ino).ver
      else bump (a.files.fi ino).ver
    let a := a.setFi ino fun x => { x with ver := ver }
    let a := a.setFd fd fun x => { x with ofs := toInt (x.ofs + eltsize * count) }
    require (toSize (a.files.fd fd).ofs ≤ (a.files.fi ino).size) .filedescWrite
    return (.ok count, a)

/-- Grow or shrink a file to exactly `newsize`. -/
def fileinoTruncate (ino newsize : ℤ) : Except Site Area := do
  require (fileinoIsvalid ino) .fileinoTruncate
  require (0 ≤ newsize ∧ newsize ≤ fileMaxsize) .fileinoTruncate
  let oldsize := (a.files.fi ino).size
  let newlen := newsize.toNat
  let a ← if oldsize < newlen then do
      let a := a.setPerm ino .rw (pages oldsize) (pages newlen)
      require (a.Granted Perm.write ino oldsize (newlen - oldsize)) .pageFault
      pure (a.setData ino fun d => memcpy d oldsize (fun _ => 0) 0 (newlen - oldsize))
    else if 0 < newlen then pure (a.setPerm ino .no (pages newlen) (pages fileMaxsize))
    else pure (a.zero ino)
  let ver ← bump (a.files.fi ino).ver
  return a.setFi ino fun x => { x with size := newlen, ver := ver }

/-- Move the position of a descriptor. -/
def filedescSeek (fd : ℕ) (offset : ℤ) (whence : Whence) : Except Site (ℤ × Area) := do
  let (ofs, s) ← File.filedescSeek a.toFs fd offset whence
  return (ofs, { a with toFs := s })

end Area

/-! ## Without the pages -/

section forget

variable {a a' : Area} {ino ofs newsize : ℤ} {fd eltsize count : ℕ} {buf : ℕ → UInt8}
  {r : Except Errno ℕ}

/-- A write that meets no page fault is the write of the model without pages. -/
theorem Area.fileinoWrite_toFs (h : a.fileinoWrite ino ofs buf eltsize count = .ok (r, a')) :
    File.fileinoWrite a.toFs ino ofs buf eltsize count = .ok (r, a'.toFs) := by
  unfold Area.fileinoWrite at h
  unfold File.fileinoWrite
  simp only [require_bind_ok] at h ⊢
  obtain ⟨hreg, hofs, helt, hsize, h⟩ := h
  refine ⟨hreg, hofs, helt, hsize, ?_⟩
  split
  case isTrue hlim =>
    rw [if_pos hlim] at h
    cases h
    rfl
  case isFalse hlim =>
    rw [if_neg hlim, require_bind_ok] at h
    obtain ⟨-, h⟩ := h
    cases h
    split <;> rfl

theorem Area.filedescWrite_toFs (h : a.filedescWrite fd buf eltsize count = .ok (r, a')) :
    File.filedescWrite a.toFs fd buf eltsize count = .ok (r, a'.toFs) := by
  unfold Area.filedescWrite at h
  unfold File.filedescWrite
  simp only [require_bind_ok] at h ⊢
  obtain ⟨hw, h⟩ := h
  refine ⟨hw, ?_⟩
  rw [bind_ok] at h
  obtain ⟨⟨r', b⟩, hwrite, h⟩ := h
  have hwrite := Area.fileinoWrite_toFs hwrite
  have hfs : (if (a.files.fd fd).flags &&& oAppend ≠ 0 then
      a.setFd fd fun x => { x with ofs := toInt (a.files.fi (a.files.fd fd).ino).size }
      else a).toFs = if (a.files.fd fd).flags &&& oAppend ≠ 0 then
      a.toFs.setFd fd fun x => { x with ofs := toInt (a.files.fi (a.files.fd fd).ino).size }
      else a.toFs := by
    split <;> rfl
  rw [hfs] at hwrite
  rw [hwrite, ok_bind]
  cases r' with
  | error e =>
    cases h
    rfl
  | ok n =>
    simp only [require_bind_ok] at h
    obtain ⟨-, h⟩ := h
    split at h
    case isTrue happ =>
      rw [if_pos happ]
      rw [pure_bind, require_bind_ok] at h ⊢
      obtain ⟨hr, h⟩ := h
      cases h
      exact ⟨hr, rfl⟩
    case isFalse happ =>
      rw [if_neg happ]
      rw [bind_ok] at h ⊢
      obtain ⟨ver, hver, h⟩ := h
      refine ⟨ver, hver, ?_⟩
      rw [require_bind_ok] at h ⊢
      obtain ⟨hr, h⟩ := h
      cases h
      exact ⟨hr, rfl⟩

theorem Area.fileinoTruncate_toFs (h : a.fileinoTruncate ino newsize = .ok a') :
    File.fileinoTruncate a.toFs ino newsize = .ok a'.toFs := by
  unfold Area.fileinoTruncate at h
  unfold File.fileinoTruncate
  simp only [require_bind_ok] at h ⊢
  obtain ⟨hv, hn, h⟩ := h
  refine ⟨hv, hn, ?_⟩
  split at h
  case isTrue hlt =>
    rw [if_pos hlt]
    simp only [require_bind_ok] at h
    obtain ⟨-, h⟩ := h
    rw [pure_bind, bind_ok] at h
    obtain ⟨ver, hver, h⟩ := h
    rw [bind_ok]
    cases h
    exact ⟨ver, hver, rfl⟩
  case isFalse hlt =>
    rw [if_neg hlt]
    split at h
    case isTrue hpos =>
      rw [if_pos hpos]
      rw [pure_bind, bind_ok] at h
      obtain ⟨ver, hver, h⟩ := h
      rw [bind_ok]
      cases h
      exact ⟨ver, hver, rfl⟩
    case isFalse hpos =>
      rw [if_neg hpos]
      rw [pure_bind, bind_ok] at h
      obtain ⟨ver, hver, h⟩ := h
      rw [bind_ok]
      cases h
      exact ⟨ver, hver, rfl⟩

end forget

end Determinator.File
