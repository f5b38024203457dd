import Determinator.Lib.Except
import Determinator.Inc.Mmu
import Mathlib.Data.List.Range
import Mathlib.Logic.Function.Basic

/-!
# The user-space file system

The files of one process, as `inc/file.h`, `inc/stat.h`, `lib/file.c` and `lib/dir.c` have them:
a table of inodes, a table of descriptors, and an area of 4 MB for the bytes of each inode.

A function of the source is a Lean function of the same name on the process's file state `Fs`. It
stops at the assertion it fails (`Site`); where the source returns `-1` or `NULL` with an error
number in `errno`, it returns that number. Inode numbers, offsets and version numbers are C `int`s,
sizes are `size_t`. A version number that `int` cannot hold has no meaning in C, and the
model stops there (`Site.overflow`).

A name `d_name` is the list of its characters before the terminating zero; a name of more than
`NAME_MAX` characters is one with no zero in the array. Page permissions are left out: the calls
that change them make room, and leave the bytes as they are.
-/

namespace Determinator.File

/-! ## Constants -/

/-- `FILE_INODES`. -/
def fileInodes : ℤ := 256

/-- `OPEN_MAX`. -/
def openMax : ℕ := 256

/-- `NAME_MAX`. -/
def nameMax : ℕ := 63

/-- `FILE_MAXSIZE`: 4 MB. -/
def fileMaxsize : ℕ := 2 ^ 22

/-- `PTSIZE`: what one page directory entry maps, 2 MB. -/
def ptsize : ℕ := pdSize 1

/-- The largest `int`. -/
def intMax : ℤ := 2 ^ 31 - 1

/-- Conversion to `int`. -/
def toInt (x : ℤ) : ℤ := x.bmod (2 ^ 32)

/-- Conversion to `size_t`. -/
def toSize (x : ℤ) : ℕ := (x % 2 ^ 64).toNat

/-- Special inodes: console input, console output, the root directory, and the first general one. -/
def fileinoConsin : ℤ := 1

@[inherit_doc fileinoConsin]
def fileinoConsout : ℤ := 2

@[inherit_doc fileinoConsin]
def fileinoRootdir : ℤ := 3

@[inherit_doc fileinoConsin]
def fileinoGeneral : ℕ := 4

/-- File modes, `inc/stat.h`: the file type mask, regular file, directory, partial file, and a
file with a conflict. -/
def sIfmt : BitVec 32 := 0x7000

@[inherit_doc sIfmt]
def sIfreg : BitVec 32 := 0x1000

@[inherit_doc sIfmt]
def sIfdir : BitVec 32 := 0x2000

@[inherit_doc sIfmt]
def sIfpart : BitVec 32 := 0x8000

@[inherit_doc sIfmt]
def sIfconf : BitVec 32 := 0x10000

/-- `S_ISREG`. -/
def sIsreg (m : BitVec 32) : Bool := m &&& sIfmt == sIfreg

/-- `S_ISDIR`. -/
def sIsdir (m : BitVec 32) : Bool := m &&& sIfmt == sIfdir

/-- Open flags. -/
def oRdonly : BitVec 32 := 0x0001

@[inherit_doc oRdonly]
def oWronly : BitVec 32 := 0x0002

@[inherit_doc oRdonly]
def oAppend : BitVec 32 := 0x0010

@[inherit_doc oRdonly]
def oCreat : BitVec 32 := 0x0020

@[inherit_doc oRdonly]
def oTrunc : BitVec 32 := 0x0040

/-- Error numbers. -/
inductive Errno
  | none
  | einval
  | enoent
  | efbig
  | emfile
  | enotdir
  | enametoolong
  | enospc
  | econflict
  deriving DecidableEq

/-- The functions that have assertions, and the places without a meaning in C. -/
inductive Site
  | fileinoCreate
  | fileinoRead
  | fileinoWrite
  | fileinoTruncate
  | filedescOpen
  | filedescRead
  | filedescWrite
  | filedescSeek
  | filedescClose
  | dirWalk
  | reconcile
  | reconcileInode
  | reconcileMerge
  | overflow
  | pageFault
  deriving DecidableEq

/-! ## Tables -/

/-- `filedesc`. -/
structure FileDesc where
  ino : ℤ
  flags : BitVec 32
  ofs : ℤ
  err : Errno
  deriving DecidableEq

/-- `fileinode`. -/
structure FileInode where
  dino : ℤ
  name : List UInt8
  ver : ℤ
  mode : BitVec 32
  size : ℕ
  rino : ℤ
  rver : ℤ
  rlen : ℕ
  deriving DecidableEq

/-- An inode that was never used. -/
def FileInode.zero : FileInode := ⟨0, [], 0, 0, 0, 0, 0, 0⟩

/-- Values of `procinfo.state`. -/
inductive ProcInfo
  | free
  | reserved
  | forked
  deriving DecidableEq

/-- `filestate`: the process's metadata. -/
structure FileState where
  cwd : ℤ
  exited : Bool
  status : ℤ
  fd : ℕ → FileDesc
  fi : ℤ → FileInode
  child : ℕ → ProcInfo

/-- What a process has of the file system: its metadata, and for each inode the bytes at
`FILEDATA(ino)`. -/
structure Fs where
  files : FileState
  data : ℤ → ℕ → UInt8

/-- The inode numbers from `lo` up, in order. -/
def inos (lo : ℕ) : List ℤ := (List.range' lo (256 - lo)).map Int.ofNat

/-- Change an inode. -/
def FileState.setFi (f : FileState) (ino : ℤ) (g : FileInode → FileInode) : FileState :=
  { f with fi := Function.update f.fi ino (g (f.fi ino)) }

/-- Change a descriptor. -/
def FileState.setFd (f : FileState) (fd : ℕ) (g : FileDesc → FileDesc) : FileState :=
  { f with fd := Function.update f.fd fd (g (f.fd fd)) }

/-- Change an inode. -/
def Fs.setFi (s : Fs) (ino : ℤ) (g : FileInode → FileInode) : Fs :=
  { s with files := s.files.setFi ino g }

/-- Change a descriptor. -/
def Fs.setFd (s : Fs) (fd : ℕ) (g : FileDesc → FileDesc) : Fs :=
  { s with files := s.files.setFd fd g }

/-- Change the bytes of a file. -/
def Fs.setData (s : Fs) (ino : ℤ) (g : (ℕ → UInt8) → ℕ → UInt8) : Fs :=
  { s with data := Function.update s.data ino (g (s.data ino)) }

/-- Copy `n` bytes from the start of `src` to the start of `dst`. -/
def copy (n : ℕ) (src dst : ℕ → UInt8) : ℕ → UInt8 :=
  fun i => if i < n then src i else dst i

/-- Copy `n` bytes from `src + o` to `dst + d`. -/
def memcpy (dst : ℕ → UInt8) (d : ℕ) (src : ℕ → UInt8) (o n : ℕ) : ℕ → UInt8 :=
  fun i => if d ≤ i ∧ i < d + n then src (o + (i - d)) else dst i

/-- `fileino_isvalid`. -/
def fileinoIsvalid (ino : ℤ) : Prop := 0 < ino ∧ ino < fileInodes

instance (ino : ℤ) : Decidable (fileinoIsvalid ino) := inferInstanceAs (Decidable (_ ∧ _))

namespace FileState

variable (f : FileState)

/-- `fileino_alloced`. -/
def alloced (ino : ℤ) : Prop := fileinoIsvalid ino ∧ (f.fi ino).name ≠ []

instance (ino : ℤ) : Decidable (f.alloced ino) := inferInstanceAs (Decidable (_ ∧ _))

/-- `fileino_exists`. -/
def exist (ino : ℤ) : Prop := f.alloced ino ∧ (f.fi ino).mode ≠ 0

instance (ino : ℤ) : Decidable (f.exist ino) := inferInstanceAs (Decidable (_ ∧ _))

/-- `fileino_isreg`. -/
def isreg (ino : ℤ) : Prop := f.alloced ino ∧ sIsreg (f.fi ino).mode = true

instance (ino : ℤ) : Decidable (f.isreg ino) := inferInstanceAs (Decidable (_ ∧ _))

/-- `fileino_isdir`. -/
def isdir (ino : ℤ) : Prop := f.alloced ino ∧ sIsdir (f.fi ino).mode = true

instance (ino : ℤ) : Decidable (f.isdir ino) := inferInstanceAs (Decidable (_ ∧ _))

/-- `filedesc_isopen`. -/
def isopen (fd : ℕ) : Prop := fd < openMax ∧ (f.fd fd).ino ≠ 0

instance (fd : ℕ) : Decidable (f.isopen fd) := inferInstanceAs (Decidable (_ ∧ _))

/-- `filedesc_isreadable`. -/
def isreadable (fd : ℕ) : Prop := f.isopen fd ∧ (f.fd fd).flags &&& oRdonly ≠ 0

instance (fd : ℕ) : Decidable (f.isreadable fd) := inferInstanceAs (Decidable (_ ∧ _))

/-- `filedesc_iswritable`. -/
def iswritable (fd : ℕ) : Prop := f.isopen fd ∧ (f.fd fd).flags &&& oWronly ≠ 0

instance (fd : ℕ) : Decidable (f.iswritable fd) := inferInstanceAs (Decidable (_ ∧ _))

end FileState

/-! ## Inodes -/

/-- `ver++`. -/
def bump (ver : ℤ) : Except Site ℤ := do
  require (ver < intMax) .overflow
  return ver + 1

/-- Find an inode that is not in use. -/
def fileinoAlloc (f : FileState) : Except Errno ℤ :=
  match (inos fileinoGeneral).find? fun i => (f.fi i).name == [] with
  | some i => .ok i
  | none => .error .enospc

/-- Find or create an inode with a given directory and name. A new one is left with mode 0. -/
def fileinoCreate (fs : FileState) (dino : ℤ) (name : List UInt8) :
    Except Site (Except Errno ℤ × FileState) := do
  require (dino ≠ 0) .fileinoCreate
  require (name ≠ []) .fileinoCreate
  require (name.length ≤ nameMax) .fileinoCreate
  match (inos fileinoGeneral).find? fun i => (fs.fi i).dino == dino && (fs.fi i).name == name with
  | some i => return (.ok i, fs)
  | none =>
    match (inos fileinoGeneral).find? fun i => (fs.fi i).name == [] with
    | some i => return (.ok i, fs.setFi i fun x => { x with dino := dino, name := name })
    | none => return (.error .enospc, fs)

/-- Write `count` elements of `eltsize` bytes at offset `ofs`. -/
def fileinoWrite (s : Fs) (ino ofs : ℤ) (buf : ℕ → UInt8) (eltsize count : ℕ) :
    Except Site (Except Errno ℕ × Fs) := do
  require (s.files.isreg ino) .fileinoWrite
  require (0 ≤ ofs) .fileinoWrite
  require (0 < eltsize) .fileinoWrite
  let fi := s.files.fi ino
  require (fi.size ≤ fileMaxsize) .fileinoWrite
  let len := eltsize * count % 2 ^ 64
  let lim := (ofs.toNat + len) % 2 ^ 64
  if lim < ofs.toNat ∨ fileMaxsize < lim then
    return (.error .efbig, s)
  let s := if fi.size < lim then s.setFi ino fun x => { x with size := lim } else s
  return (.ok count, s.setData ino fun d => memcpy d ofs.toNat buf 0 len)

/-- Grow or shrink a file to exactly `newsize`. A larger file is filled up with zeros, an empty
one gives its pages back. -/
def fileinoTruncate (s : Fs) (ino newsize : ℤ) : Except Site Fs := do
  require (fileinoIsvalid ino) .fileinoTruncate
  require (0 ≤ newsize ∧ newsize ≤ fileMaxsize) .fileinoTruncate
  let oldsize := (s.files.fi ino).size
  let newlen := newsize.toNat
  let s := if oldsize < newlen then
      s.setData ino fun d => memcpy d oldsize (fun _ => 0) 0 (newlen - oldsize)
    else if 0 < newlen then s
    else s.setData ino fun d => copy fileMaxsize (fun _ => 0) d
  let ver ← bump (s.files.fi ino).ver
  return s.setFi ino fun x => { x with size := newlen, ver := ver }

/-! ## Directories -/

/-- The character `/`. -/
def slash : UInt8 := 47

/-- The character `.`. -/
def dot : UInt8 := 46

/-- The name is the next component of the path. -/
def isComponent (name path : List UInt8) : Bool :=
  name.isPrefixOf path &&
    match path.drop name.length with
    | [] => true
    | c :: _ => c == slash

/-- The entry that the next component of the path names in a directory, and what is left of the
path behind it. -/
def lookup (f : FileState) (dino : ℤ) (path : List UInt8) : Option (ℤ × List UInt8) :=
  match (inos 1).find? fun ino =>
      decide (f.alloced ino ∧ (f.fi ino).dino = dino) && isComponent (f.fi ino).name path with
  | some ino => some (ino, path.drop (f.fi ino).name.length)
  | none =>
    if isComponent [dot] path then some (dino, path.drop 1)
    else if isComponent [dot, dot] path then some ((f.fi dino).dino, path.drop 2)
    else none

/-- Create the entry `path` of a directory. -/
def dirCreate (s : Fs) (dino : ℤ) (path : List UInt8) (createmode : BitVec 32) :
    Except Site (Except Errno ℤ × Fs) := do
  if createmode = 0 ∨ slash ∈ path then
    return (.error .enoent, s)
  if nameMax < path.length then
    return (.error .enametoolong, s)
  match fileinoAlloc s.files with
  | .error e => return (.error e, s)
  | .ok ino =>
    require (fileinoIsvalid ino ∧ ¬ s.files.alloced ino) .dirWalk
    return (.ok ino, s.setFi ino fun x =>
      { x with name := path, dino := dino, ver := 0, mode := createmode, size := 0 })

/-- The entry at the end of the path: one that was deleted is created again. -/
def dirFound (s : Fs) (ino : ℤ) (createmode : BitVec 32) :
    Except Site (Except Errno ℤ × Fs) := do
  if s.files.exist ino then
    return (.ok ino, s)
  if createmode = 0 then
    return (.error .enoent, s)
  let ver ← bump (s.files.fi ino).ver
  return (.ok ino, s.setFi ino fun x => { x with ver := ver, mode := createmode, size := 0 })

/-- The loop `searchdir`. Every round takes a component off the path, so its length bounds the
number of rounds. -/
def searchdir (createmode : BitVec 32) :
    ℕ → Fs → ℤ → List UInt8 → Except Site (Except Errno ℤ × Fs)
  | 0, _, _, _ => .error .dirWalk
  | n + 1, s, dino, path => do
    require (s.files.isdir dino) .dirWalk
    require (s.files.isdir (s.files.fi dino).dino) .dirWalk
    match lookup s.files dino path with
    | none => dirCreate s dino path createmode
    | some (ino, []) => dirFound s ino createmode
    | some (ino, rest) =>
      if ¬ s.files.isdir ino then
        return (.error .enotdir, s)
      match rest.dropWhile (· == slash) with
      | [] => return (.ok ino, s)
      | path' => searchdir createmode n s ino path'

/-- Walk to a directory entry, and create it if it does not exist and `createmode` is not 0. -/
def dirWalk (s : Fs) (path : List UInt8) (createmode : BitVec 32) :
    Except Site (Except Errno ℤ × Fs) := do
  require (path ≠ []) .dirWalk
  if path.head? = some slash then
    match path.dropWhile (· == slash) with
    | [] => return (.ok fileinoRootdir, s)
    | path' => searchdir createmode path.length s fileinoRootdir path'
  else
    searchdir createmode path.length s s.files.cwd path

/-! ## Descriptors -/

/-- Find a descriptor that is not in use. -/
def filedescAlloc (f : FileState) : Except Errno ℕ :=
  match (List.range openMax).find? fun i => (f.fd i).ino == 0 with
  | some i => .ok i
  | none => .error .emfile

/-- Open the file at `path` on the descriptor `fd`. -/
def filedescOpenAt (s : Fs) (fd : ℕ) (path : List UInt8) (openflags mode : BitVec 32) :
    Except Site (Except Errno ℕ × Fs) := do
  require ((s.files.fd fd).ino = 0) .filedescOpen
  let createmode := if openflags &&& oCreat ≠ 0 then sIfreg ||| (mode &&& 0x1ff) else 0
  let (r, s) ← dirWalk s path createmode
  match r with
  | .error e => return (.error e, s)
  | .ok ino =>
    require (s.files.exist ino) .filedescOpen
    if (s.files.fi ino).mode &&& sIfconf ≠ 0 then
      return (.error .econflict, s)
    if openflags &&& oTrunc ≠ 0 ∧ openflags &&& oWronly = 0 then
      return (.error .einval, s)
    let s ← if openflags &&& oTrunc ≠ 0 then fileinoTruncate s ino 0 else pure s
    let ofs := if openflags &&& oAppend ≠ 0 then toInt (s.files.fi ino).size else 0
    let s := s.setFd fd fun _ => ⟨ino, openflags, ofs, .none⟩
    require (s.files.isopen fd) .filedescOpen
    return (.ok fd, s)

/-- Open a file, on a given descriptor or on one that is not in use. -/
def filedescOpen (s : Fs) (fd : Option ℕ) (path : List UInt8) (openflags mode : BitVec 32) :
    Except Site (Except Errno ℕ × Fs) :=
  match fd with
  | some fd => filedescOpenAt s fd path openflags mode
  | none =>
    match filedescAlloc s.files with
    | .error e => .ok (.error e, s)
    | .ok fd => filedescOpenAt s fd path openflags mode

/-- Write through a descriptor. A write that does not append is an exclusive change, which takes a
new version number. -/
def filedescWrite (s : Fs) (fd : ℕ) (buf : ℕ → UInt8) (eltsize count : ℕ) :
    Except Site (Except Errno ℕ × Fs) := do
  require (s.files.iswritable fd) .filedescWrite
  let ino := (s.files.fd fd).ino
  let flags := (s.files.fd fd).flags
  let s := if flags &&& oAppend ≠ 0 then
      s.setFd fd fun x => { x with ofs := toInt (s.files.fi ino).size }
    else s
  let (actual, s) ← fileinoWrite s ino (s.files.fd fd).ofs buf eltsize count
  match actual with
  | .error e => return (.error e, s.setFd fd fun x => { x with err := e })
  | .ok _ =>
    let ver ← if flags &&& oAppend ≠ 0 then pure (s.files.fi ino).ver
      else bump (s.files.fi ino).ver
    let s := s.setFi ino fun x => { x with ver := ver }
    let s := s.setFd fd fun x => { x with ofs := toInt (x.ofs + eltsize * count) }
    require (toSize (s.files.fd fd).ofs ≤ (s.files.fi ino).size) .filedescWrite
    return (.ok count, s)

/-- What a seek counts from. -/
inductive Whence
  | set
  | cur
  | end
  deriving DecidableEq

/-- Move the position of a descriptor. -/
def filedescSeek (s : Fs) (fd : ℕ) (offset : ℤ) (whence : Whence) : Except Site (ℤ × Fs) := do
  require (s.files.isopen fd) .filedescSeek
  let newofs := match whence with
    | .set => offset
    | .cur => toInt (offset + (s.files.fd fd).ofs)
    | .end => toInt (offset + (s.files.fi (s.files.fd fd).ino).size)
  require (0 ≤ newofs) .filedescSeek
  return (newofs, s.setFd fd fun x => { x with ofs := newofs })

/-- Close a descriptor. -/
def filedescClose (s : Fs) (fd : ℕ) : Except Site Fs := do
  require (s.files.isopen fd) .filedescClose
  require (fileinoIsvalid (s.files.fd fd).ino) .filedescClose
  return s.setFd fd fun x => { x with ino := 0 }

/-! ## File operations -/

/-- What a process does to its files. -/
inductive Op
  | walk (path : List UInt8) (createmode : BitVec 32)
  | open (fd : Option ℕ) (path : List UInt8) (openflags mode : BitVec 32)
  | write (fd : ℕ) (buf : ℕ → UInt8) (eltsize count : ℕ)
  | truncate (ino newsize : ℤ)
  | seek (fd : ℕ) (offset : ℤ) (whence : Whence)
  | close (fd : ℕ)

/-- The file state after an operation. -/
def Op.run (s : Fs) : Op → Except Site Fs
  | .walk path createmode => return (← dirWalk s path createmode).2
  | .open fd path openflags mode => return (← filedescOpen s fd path openflags mode).2
  | .write fd buf eltsize count => return (← filedescWrite s fd buf eltsize count).2
  | .truncate ino newsize => fileinoTruncate s ino newsize
  | .seek fd offset whence => return (← filedescSeek s fd offset whence).2
  | .close fd => filedescClose s fd

end Determinator.File
