import Determinator.Lib.Bytes
import Determinator.User.File

/-!
# Executing a program

Part of `lib/exec.c` and the start code of `lib/crt0.S`. `exec_readelf` loads an executable into a
scratch area, `exec_copyargs` builds the stack of the new program in the same area, and the start
code takes the arguments from that stack and passes them to `main`.

Addresses are numbers, and arithmetic on them is modulo 2^64 (`add64`, `sub64`); where the source
compares them as `intptr_t` they are taken as signed (`signed`). What touches memory is written down:
the objects that `exec_copyargs` stores, and what `exec_readelf` reads and writes and the pages that
it asks to write. That the scratch area is zeroed before and copied to the child afterwards is left
out.
-/

namespace Determinator.Exec

open File (Site Fs ptsize)

/-! ## Addresses -/

/-- The areas of `inc/vm.h`: program text and data, files, the scratch area, and the end of the
stack. -/
def vmUserlo : ℕ := 0x40000000

@[inherit_doc vmUserlo]
def vmFilelo : ℕ := 0x200000000000

@[inherit_doc vmUserlo]
def vmScratchlo : ℕ := 0x7d0000000000

@[inherit_doc vmUserlo]
def vmStackhi : ℕ := 0x7f0000000000

/-- `EXEMAX`, the most that a program takes: the smaller one of the areas `VM_SHARE` and
`VM_SCRATCH`. -/
def exemax : ℕ := min (0x80000000 - vmUserlo) (0x7e0000000000 - vmScratchlo)

/-- Addition and subtraction of 64-bit words. -/
def add64 (a b : ℕ) : ℕ := (a + b) % 2 ^ 64

@[inherit_doc add64]
def sub64 (a b : ℕ) : ℕ := (a + (2 ^ 64 - b % 2 ^ 64)) % 2 ^ 64

/-- A word as `intptr_t`. -/
def signed (a : ℕ) : ℤ := (a : ℤ).bmod (2 ^ 64)

/-! ## Arguments -/

/-- The scratch area: its memory, and the objects stored in it so far with their lengths. -/
structure Scratch where
  mem : Bytes
  stores : List (ℕ × ℕ)

/-- Store an object of `n` bytes, which gives the memory `m`. `PTSIZE` bytes can be written. -/
def Scratch.put (s : Scratch) (a n : ℕ) (m : Bytes) : Except Site Scratch := do
  require (vmScratchlo ≤ a ∧ a + n ≤ vmScratchlo + ptsize) .pageFault
  return ⟨m, s.stores ++ [(a, n)]⟩

/-- Store a word. -/
def Scratch.putWord (s : Scratch) (a v : ℕ) : Except Site Scratch := s.put a 8 (.store 8 s.mem a v)

/-- `strcpy`. The string is given without the zero at its end. -/
def Scratch.strcpy (s : Scratch) (a : ℕ) (str : List UInt8) : Except Site Scratch :=
  s.put a (str.length + 1) (s.mem.copy a (fun i => str.getD i 0) 0 (str.length + 1))

/-- What is added to an address on the new stack to get its place in the scratch area. -/
def scratchofs : ℕ := sub64 vmScratchlo (sub64 vmStackhi ptsize)

/-- Copy the arguments from index `i` on. -/
def copyStrings (dargv : ℕ) : List (List UInt8) → ℕ → ℕ → Scratch → Except Site (ℕ × Scratch)
  | [], _, esp, s => return (esp, s)
  | arg :: args, i, esp, s => do
    let esp := sub64 esp (arg.length + 1)
    let s ← s.strcpy (add64 esp scratchofs) arg
    let s ← s.putWord (add64 (add64 dargv scratchofs) (8 * i)) esp
    copyStrings dargv args (i + 1) esp s

/-- `exec_copyargs`: the stack pointer of the new program, and the scratch area with its stack.
`argc` and the lengths are `int`s in the source, which what fits in memory stays below. -/
def execCopyargs (argv : List (List UInt8)) : Except Site (ℕ × Scratch) := do
  let argc := argv.length
  let s : Scratch := ⟨fun _ => 0, []⟩
  let esp := sub64 vmStackhi ((argc + 1) * 8)
  let dargv := esp
  let (esp, s) ← copyStrings dargv argv 0 esp s
  let esp := esp - esp % 8
  let esp := sub64 esp 8
  let s ← s.putWord (add64 esp scratchofs) dargv
  let esp := sub64 esp 8
  let s ← s.putWord (add64 esp scratchofs) argc
  return (esp, s)

/-! ## The start code -/

/-- The registers that the start code uses, and memory, of which the stack is mapped. -/
structure Cpu where
  rsp : ℕ
  rdi : ℕ
  rsi : ℕ
  rdx : ℕ
  mem : Bytes

/-- The new program: the scratch area has been copied to its stack. -/
def execStart (esp : ℕ) (s : Scratch) : Cpu :=
  ⟨esp, 0, 0, 0, fun x => s.mem (x - (vmStackhi - ptsize) + vmScratchlo)⟩

/-- The word at `a` is on the stack. -/
def OnStack (a : ℕ) : Prop := vmStackhi - ptsize ≤ a ∧ a + 8 ≤ vmStackhi

instance (a : ℕ) : Decidable (OnStack a) := inferInstanceAs (Decidable (_ ∧ _))

/-- Load a word. -/
def Cpu.word (c : Cpu) (a : ℕ) : Except Site ℕ := do
  require (OnStack a) .pageFault
  return c.mem.load 8 a

/-- `pushq`. -/
def Cpu.push (c : Cpu) (v : ℕ) : Except Site Cpu := do
  let rsp := sub64 c.rsp 8
  require (OnStack rsp) .pageFault
  return { c with rsp := rsp, mem := .store 8 c.mem rsp v }

/-- `popq`. -/
def Cpu.pop (c : Cpu) : Except Site (ℕ × Cpu) := do
  let v ← c.word c.rsp
  return (v, { c with rsp := add64 c.rsp 8 })

/-- A round of the loop over `__init_array`: call a function that saves the registers of its caller
for itself, with the return address `ret`. -/
def callInit (ret : ℕ) (c : Cpu) (f : Cpu → Cpu) : Except Site Cpu := do
  let c := { c with rdx := add64 c.rdx 8 }
  let c ← c.push c.rdx
  let c ← c.push c.rdi
  let c ← c.push c.rsi
  let c ← c.push ret
  let c := f c
  let (rsi, c) ← c.pop
  let (rdi, c) ← c.pop
  let (rdx, c) ← c.pop
  return { c with rsi := rsi, rdi := rdi, rdx := rdx }

/-- `start`, up to the first instruction of `main`: the functions of `__init_array`, which lies at
`initArray`, are called first. -/
def start (ret initArray : ℕ) (inits : List (Cpu → Cpu)) (c : Cpu) : Except Site Cpu := do
  let c ← if c.rsp % 2 ^ 32 = 0 then do
      let c ← c.push 0
      c.push 0
    else pure c
  let rdi ← c.word c.rsp
  let rsi ← c.word (add64 c.rsp 8)
  let c := { c with rdi := rdi, rsi := rsi, rdx := initArray }
  let c ← inits.foldlM (callInit ret) c
  c.push ret

/-! ## The executable -/

/-- What the loader does to memory: it reads `n` bytes at `a`, it writes `n` bytes at `a`, or it asks
for permission to read the pages from `lo` to `hi`, and to write them if `w`. -/
inductive Access
  | read (a n : ℕ)
  | write (a n : ℕ)
  | perm (lo hi : ℕ) (w : Bool)
  deriving DecidableEq

/-- The memory, and the accesses so far, the latest one first. -/
structure Loader where
  mem : Bytes
  log : List Access

/-- `elfhdr`: `e_magic`, `e_elf`, `e_type`, `e_machine`, `e_version`, `e_entry`, `e_phoff`, `e_shoff`,
`e_flags`, `e_ehsize`, `e_phentsize`, `e_phnum`, `e_shentsize`, `e_shnum`, `e_shstrndx`. -/
def elfhdr : List Member :=
  [⟨4, 4⟩, ⟨12, 1⟩, ⟨2, 2⟩, ⟨2, 2⟩, ⟨4, 4⟩, ⟨8, 8⟩, ⟨8, 8⟩, ⟨8, 8⟩, ⟨4, 4⟩, ⟨2, 2⟩, ⟨2, 2⟩, ⟨2, 2⟩,
    ⟨2, 2⟩, ⟨2, 2⟩, ⟨2, 2⟩]

/-- `proghdr`: `p_type`, `p_flags`, `p_offset`, `p_va`, `p_pa`, `p_filesz`, `p_memsz`, `p_align`. -/
def proghdr : List Member :=
  [⟨4, 4⟩, ⟨4, 4⟩, ⟨8, 8⟩, ⟨8, 8⟩, ⟨8, 8⟩, ⟨8, 8⟩, ⟨8, 8⟩, ⟨8, 8⟩]

/-- Load the member with index `i` of the structure at `a`. -/
def Loader.member (l : Loader) (fs : List Member) (i a : ℕ) : ℕ × Loader :=
  let n := (fs.getD i ⟨0, 1⟩).size
  let a := add64 a (Layout.offset fs i)
  (l.mem.load n a, { l with log := .read a n :: l.log })

/-- `sys_get` with `SYS_PERM` on the pages from `lo` to `hi`. -/
def Loader.perm (l : Loader) (lo hi : ℕ) (w : Bool) : Loader :=
  { l with log := .perm lo hi w :: l.log }

/-- `memcpy`. -/
def Loader.memcpy (l : Loader) (dst src n : ℕ) : Loader :=
  ⟨l.mem.copy dst l.mem src n, .write dst n :: .read src n :: l.log⟩

/-- `ELF_MAGIC`. -/
def elfMagic : ℕ := 0x464c457f

/-- Addresses of the program that the loader takes. -/
def VaOk (valo vahi : ℤ) : Prop :=
  ¬ (valo < vmUserlo ∨ valo > vmUserlo + exemax ∨ vahi < valo ∨ vahi > vmUserlo + exemax)

instance (valo vahi : ℤ) : Decidable (VaOk valo vahi) := inferInstanceAs (Decidable (¬ _))

/-- Offsets in the file that the loader takes. They are compared with the size as unsigned words. -/
def FileOk (imgsize : ℕ) (filelo filehi : ℤ) : Prop :=
  ¬ (filelo < 0 ∨ (filelo % 2 ^ 64).toNat > imgsize ∨ filehi < filelo ∨
    (filehi % 2 ^ 64).toNat > imgsize)

instance (imgsize : ℕ) (filelo filehi : ℤ) : Decidable (FileOk imgsize filelo filehi) :=
  inferInstanceAs (Decidable (¬ _))

/-- `ROUNDDOWN` and `ROUNDUP` to pages. -/
def pageDown (a : ℕ) : ℕ := a - a % pageSize

@[inherit_doc pageDown]
def pageUp (a : ℕ) : ℕ := pageDown (a + (pageSize - 1))

/-- In the body of the loop over the program headers: map the pages from `valo` to `vahi` in the
scratch area, and copy the bytes of the segment there. The result is whether the loop goes on. -/
def fillSegment (imgdata imgsize ph : ℕ) (valo vahi : ℤ) (l : Loader) : Bool × Loader :=
  let ofs := vmScratchlo - vmUserlo
  let pagelo := pageDown valo.toNat
  let pagehi := pageUp vahi.toNat
  let l := l.perm (pagelo + ofs) (pagehi + ofs) true
  let (offset, l) := l.member proghdr 2 ph
  let (filesz, l) := l.member proghdr 5 ph
  let filelo := signed offset
  let filehi := signed (add64 offset filesz)
  if ¬ FileOk imgsize filelo filehi then (false, l)
  else
    let l := l.memcpy (valo.toNat + ofs) (imgdata + filelo.toNat) (filehi - filelo).toNat
    let (flags, l) := l.member proghdr 1 ph
    (true, if flags.testBit 1 then l else l.perm (pagelo + ofs) (pagehi + ofs) false)

/-- The body of the loop over the program headers: load the segment of the header at `ph`. -/
def loadSegment (imgdata imgsize ph : ℕ) (l : Loader) : Bool × Loader :=
  let (type, l) := l.member proghdr 0 ph
  if type ≠ 1 then (true, l)
  else
    let (va, l) := l.member proghdr 3 ph
    let (memsz, l) := l.member proghdr 6 ph
    let valo := signed va
    let vahi := signed (add64 va memsz)
    if ¬ VaOk valo vahi then (false, l)
    else fillSegment imgdata imgsize ph valo vahi l

/-- The loop over the program headers, for so many rounds at most. -/
def loadSegments (imgdata imgsize eph : ℕ) : ℕ → ℕ → Loader → Bool × Loader
  | 0, _, l => (true, l)
  | n + 1, ph, l =>
    if ph < eph then
      match loadSegment imgdata imgsize ph l with
      | (false, l) => (false, l)
      | (true, l) => loadSegments imgdata imgsize eph n (add64 ph (Layout.size proghdr)) l
    else (true, l)

/-- `exec_readelf` between opening and closing the file, which has `imgsize` bytes at `imgdata`. The
loop takes at most `rounds` rounds, or as many as there are headers. -/
def readImage (rounds : Option ℕ) (entry imgdata imgsize : ℕ) (l : Loader) : Bool × Loader :=
  if imgsize < Layout.size elfhdr then (false, l)
  else
    let (magic, l) := l.member elfhdr 0 imgdata
    if magic ≠ elfMagic then (false, l)
    else
      let (phoff, l) := l.member elfhdr 6 imgdata
      let (phnum, l) := l.member elfhdr 11 imgdata
      let ph := add64 imgdata phoff
      let eph := add64 ph (Layout.size proghdr * phnum)
      if imgsize < sub64 eph imgdata then (false, l)
      else
        match loadSegments imgdata imgsize eph (rounds.getD phnum) ph l with
        | (false, l) => (false, l)
        | (true, l) =>
          let (e, l) := l.member elfhdr 5 imgdata
          (e = entry, l)

/-- `FILEDATA`. -/
def filedata (ino : ℤ) : ℕ := vmFilelo + ino.toNat * 2 ^ 22

/-- The memory of a process: the bytes of its files, and what else there is. -/
def memory (s : Fs) (rest : Bytes) : Bytes := fun x =>
  if filedata 1 ≤ x ∧ x < filedata 256 then
    s.data ((x - vmFilelo) / 2 ^ 22 : ℕ) ((x - vmFilelo) % 2 ^ 22)
  else rest x

/-- `exec_readelf`: whether it returns 0, the file state then, and the accesses, the latest one
first. -/
def execReadelf (rounds : Option ℕ) (entry : ℕ) (rest : Bytes) (s : Fs) (path : List UInt8) :
    Except Site (Bool × Fs × List Access) := do
  let (r, s) ← File.filedescOpen s none path File.oRdonly 0
  match r with
  | .error _ => return (false, s, [])
  | .ok fd =>
    let ino := (s.files.fd fd).ino
    let (ok, l) := readImage rounds entry (filedata ino) (s.files.fi ino).size ⟨memory s rest, []⟩
    let s ← File.filedescClose s fd
    return (ok, s, l.log)

end Determinator.Exec
