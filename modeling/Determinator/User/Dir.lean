import Determinator.User.File

/-!
# Scanning directories

`opendir`, `readdir` and their like in `lib/dir.c`. A `DIR` is a file descriptor, whose offset is the number of the inode
to look at next. `readdir` returns a pointer to the name of an inode; here it is the number of the inode.
-/

namespace Determinator.File

/-- Where a function stops: at an assertion of its own, where an `int` overflows, or in a function it calls. -/
inductive DirSite
  | opendir
  | readdir
  | overflow
  | file (w : Site)
  deriving DecidableEq

/-- A function of `lib/file.c` is called. -/
def call {α : Type} : Except Site α → Except DirSite α
  | .ok a => .ok a
  | .error w => .error (.file w)

/-- Open a directory for scanning. -/
def opendir (s : Fs) (path : List UInt8) : Except DirSite (Except Errno ℕ × Fs) := do
  let (r, s) ← call (filedescOpen s none path oRdonly 0)
  match r with
  | .error e => return (.error e, s)
  | .ok fd =>
    require (s.files.exist (s.files.fd fd).ino) .opendir
    if sIsdir (s.files.fi (s.files.fd fd).ino).mode = false then
      let s ← call (filedescClose s fd)
      return (.error .enotdir, s)
    return (.ok fd, s)

def closedir (s : Fs) (dir : ℕ) : Except DirSite Fs := call (filedescClose s dir)

/-- The loop of `readdir`, which ends at the last inode. -/
def readdirLoop (dir : ℕ) : ℕ → Fs → Except DirSite (Option ℤ × Fs)
  | 0, _ => .error .readdir
  | n + 1, s => do
    let ino := (s.files.fd dir).ofs
    require (ino < intMax) .overflow
    let s := s.setFd dir fun x => { x with ofs := ino + 1 }
    if ino < fileInodes then
      if ¬s.files.exist ino ∨ (s.files.fi ino).dino ≠ (s.files.fd dir).ino then readdirLoop dir n s
      else return (some ino, s)
    else return (none, s)

/-- The next entry of a directory, if there is one. -/
def readdir (s : Fs) (dir : ℕ) : Except DirSite (Option ℤ × Fs) := do
  require (s.files.isopen dir) .readdir
  readdirLoop dir ((fileInodes - (s.files.fd dir).ofs).toNat + 1) s

def seekdir (s : Fs) (dir : ℕ) (ofs : ℤ) : Fs := s.setFd dir fun x => { x with ofs := toInt ofs }

def rewinddir (s : Fs) (dir : ℕ) : Fs := seekdir s dir 0

def telldir (s : Fs) (dir : ℕ) : ℤ := (s.files.fd dir).ofs

end Determinator.File
