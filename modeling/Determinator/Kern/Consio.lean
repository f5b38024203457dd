import Determinator.Cons.Input
import Determinator.File.Outcome

/-!
# The console and the process tree

`cons_io` works on the file state of the root process: it prints what the file `consout` has beyond
what is printed already, and appends what waits in the console buffer to the file `consin`. In
between, the processes of the tree operate on their files, fork, and reconcile their files with
those of their children; what a process below the root prints comes to the root process by
reconciliation, from parent to parent.

A process is the list of the child numbers on the way to it, its own first; the root process is the
empty list. A process that fails an assertion in an operation makes no further one, and its parent
finds its files half changed. Such files, and those of a process that has written to its file area
on its own, are left open (`Event.stray`); only the root process is trusted.
-/

namespace Determinator.Console

open File

/-- The console, and the files of all processes. -/
structure Tree where
  cons : Buffer
  consOutsize : ℕ
  printed : List UInt8
  fs : List ℕ → Fs
  /-- What was in the file `consout` at each `cons_io`. -/
  views : List (List UInt8)

/-- What happens. -/
inductive Event
  /-- A process operates on its files. -/
  | file (p : List ℕ) (op : File.Op)
  /-- `fork`. -/
  | fork (p : List ℕ)
  /-- A call of `reconcile` in `waitpid`; the bytes that are in the scratch area. -/
  | reconcile (p : List ℕ) (pid : ℕ) (cp : ℕ → UInt8)
  /-- The end of `waitpid` for a child that has exited or trapped. -/
  | reap (p : List ℕ) (pid : ℕ)
  /-- The files of a process other than the root become these. -/
  | stray (p : List ℕ) (files : Fs)
  /-- `cons_intr`, with the characters that the device has. -/
  | intr (cs : List (BitVec 8))
  /-- `cons_io`. -/
  | io

/-- The files of the root process as `file_initroot` leaves them, without initial files. -/
def fileInitroot : Fs where
  files :=
    { cwd := fileinoRootdir
      exited := false
      status := 0
      fd := fun i =>
        if i = 0 then ⟨fileinoConsin, oRdonly, 0, .none⟩
        else if i = 1 ∨ i = 2 then ⟨fileinoConsout, oWronly ||| oAppend, 0, .none⟩
        else ⟨0, 0, 0, .none⟩
      fi := fun i =>
        if i = fileinoConsin then
          ⟨fileinoRootdir, [99, 111, 110, 115, 105, 110], 0, sIfreg ||| sIfpart, 0, 0, 0, 0⟩
        else if i = fileinoConsout then
          ⟨fileinoRootdir, [99, 111, 110, 115, 111, 117, 116], 0, sIfreg, 0, 0, 0, 0⟩
        else if i = fileinoRootdir then ⟨fileinoRootdir, [slash], 0, sIfdir, 0, 0, 0, 0⟩
        else .zero
      child := fun pid => if pid = 0 then .reserved else .free }
  data := fun _ _ => 0

namespace Tree

/-- The system at boot, with the files that the root process starts with. -/
def init (cons : Buffer) (files : Fs) : Tree := ⟨cons, 0, [], fun _ => files, []⟩

/-- The bytes of the root process's console output file. -/
def consout (s : Tree) : List UInt8 :=
  bytes ((s.fs []).data fileinoConsout) 0 ((s.fs []).files.fi fileinoConsout).size

/-- The bytes of the root process's console input file. -/
def consin (s : Tree) : List UInt8 :=
  bytes ((s.fs []).data fileinoConsin) 0 ((s.fs []).files.fi fileinoConsin).size

/-- Set the files of a process. -/
def setFs (s : Tree) (p : List ℕ) (files : Fs) : Tree :=
  { s with fs := Function.update s.fs p files }

/-- Set the state of a child. -/
def setChild (s : Tree) (p : List ℕ) (pid : ℕ) (c : ProcInfo) : Tree :=
  s.setFs p { s.fs p with files :=
    { (s.fs p).files with child := Function.update (s.fs p).files.child pid c } }

/-- The first half of `cons_io`. -/
def output (s : Tree) : Tree :=
  { s with
    printed := s.printed ++ s.consout.drop s.consOutsize
    consOutsize := s.consout.length
    views := s.views ++ [s.consout] }

/-- Append characters to the console input file. -/
def input (s : Tree) (cs : List (BitVec 8)) : Tree :=
  let size := ((s.fs []).files.fi fileinoConsin).size
  let files := (s.fs []).setData fileinoConsin fun d =>
    memcpy d size (fun i => .ofBitVec (cs.getD i 0)) 0 cs.length
  s.setFs [] (files.setFi fileinoConsin fun x => { x with size := x.size + cs.length })

/-- The assertion of `cons_io` about the output. -/
def Outsized (s : Tree) : Prop := s.consOutsize ≤ ((s.fs []).files.fi fileinoConsout).size

instance (s : Tree) : Decidable s.Outsized := inferInstanceAs (Decidable (_ ≤ _))

/-- `cons_io`: print new output and take the input over; `none` where the kernel stops. -/
def consIo (s : Tree) : Option Tree :=
  if s.Outsized then
    match s.cons.io (s.consin.map UInt8.toBitVec) with
    | .ok (new, cons) => some ({ s.output with cons := cons }.input new)
    | .error _ => none
  else none

/-- Carry out an event; `none` where the kernel stops. -/
def step (s : Tree) : Event → Option Tree
  | .file p op =>
    match op.run (s.fs p) with
    | .ok files => some (s.setFs p files)
    | .error _ => some s
  | .fork p =>
    match forkPid (s.fs p).files with
    | some pid =>
      let child := { s.fs p with files := forkChild (s.fs p).files }
      some ((s.setFs (pid :: p) child).setChild p pid .forked)
    | none => some s
  | .reconcile p pid cp =>
    if (s.fs p).files.child pid = .forked then
      match File.reconcile ⟨s.fs p, s.fs (pid :: p), cp⟩ with
      | .ok r => some ((s.setFs p r.sync.parent).setFs (pid :: p) r.sync.child)
      | .error _ => some s
    else some s
  | .reap p pid => some (s.setChild p pid .free)
  | .stray p files => some (if p = [] then s else s.setFs p files)
  | .intr cs => some { s with cons := s.cons.puts cs }
  | .io => s.consIo

end Tree

end Determinator.Console
