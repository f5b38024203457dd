import Determinator.Lib.Splice
import Determinator.User.Area

/-!
# Files are strings

A regular file that is not partial behaves as a string of bytes that every descriptor has a position
in, in every run in which no write says that it has more bytes than `size_t` can count, no version
number runs out, and a write behind the end of the file finds zeros between them. Shrinking a file
does not clear what was there, and only growing by `fileino_truncate` does.
-/

namespace Determinator.File

/-! ## Strings -/

/-- The files as strings, and the descriptors: the file and the flag `O_APPEND` they were opened
with, and a position. -/
structure Strings where
  file : ℤ → List UInt8
  ino : ℕ → ℤ
  append : ℕ → Bool
  ofs : ℕ → ℕ

/-- What a process does with open files. -/
inductive FileOp
  | read (fd eltsize count : ℕ)
  | write (fd : ℕ) (buf : ℕ → UInt8) (eltsize count : ℕ)
  | seek (fd : ℕ) (offset : ℤ) (whence : Whence)
  | truncate (ino newsize : ℤ)

/-- What it gets. -/
inductive Out
  | read (actual : ℕ) (buf : List UInt8)
  | waiting
  | write (actual : Except Errno ℕ)
  | seek (ofs : ℤ)
  | truncate

namespace Strings

variable (x : Strings)

/-- The string that a descriptor is for. -/
def on (fd : ℕ) : List UInt8 := x.file (x.ino fd)

/-- Where a write goes: a descriptor that appends writes at the end. -/
def writeOfs (fd : ℕ) : ℕ := if x.append fd then (x.on fd).length else x.ofs fd

/-- Where a seek goes. -/
def seekOfs (fd : ℕ) (offset : ℤ) : Whence → ℤ
  | .set => offset
  | .cur => offset + x.ofs fd
  | .end => offset + (x.on fd).length

/-- Put a string in place of a file. -/
def setFile (ino : ℤ) (l : List UInt8) : Strings := { x with file := Function.update x.file ino l }

/-- Move a descriptor. -/
def setOfs (fd o : ℕ) : Strings := { x with ofs := Function.update x.ofs fd o }

/-- An operation on strings. A read takes whole elements; a write that would end behind
`FILE_MAXSIZE` is refused. -/
def act : FileOp → Out × Strings
  | .read fd eltsize count =>
    let n := min count (((x.on fd).length - x.ofs fd) / eltsize)
    (.read n (((x.on fd).drop (x.ofs fd)).take (n * eltsize)),
      x.setOfs fd (x.ofs fd + eltsize * n))
  | .write fd buf eltsize count =>
    let o := x.writeOfs fd
    let d := bytes buf 0 (eltsize * count)
    if fileMaxsize < o + d.length then (.write (.error .efbig), x.setOfs fd o)
    else
      (.write (.ok count),
        (x.setFile (x.ino fd) (overwrite 0 (x.on fd) o d)).setOfs fd (o + d.length))
  | .seek fd offset whence =>
    (.seek (x.seekOfs fd offset whence), x.setOfs fd (x.seekOfs fd offset whence).toNat)
  | .truncate ino newsize => (.truncate, x.setFile ino (resize 0 newsize.toNat (x.file ino)))

end Strings

/-! ## The process and its strings -/

/-- The operation on the process's pages. Nothing comes for the files from outside. -/
def FileOp.run (a : Area) : FileOp → Except Site (Out × Area)
  | .read fd eltsize count => do
    match ← a.filedescRead [] fd eltsize count with
    | some r => return (.read r.actual r.buf, r.area)
    | none => return (.waiting, a)
  | .write fd buf eltsize count => do
    let (actual, a) ← a.filedescWrite fd buf eltsize count
    return (.write actual, a)
  | .seek fd offset whence => do
    let (ofs, a) ← a.filedescSeek fd offset whence
    return (.seek ofs, a)
  | .truncate ino newsize => return (.truncate, ← a.fileinoTruncate ino newsize)

/-- A regular file that is not partial. -/
def Plain (f : FileState) (ino : ℤ) : Prop := f.isreg ino ∧ (f.fi ino).mode &&& sIfpart = 0

instance (f : FileState) (ino : ℤ) : Decidable (Plain f ino) := inferInstanceAs (Decidable (_ ∧ _))

/-- A descriptor for such a file. -/
def PlainFd (f : FileState) (fd : ℕ) : Prop := f.isopen fd ∧ Plain f (f.fd fd).ino

instance (f : FileState) (fd : ℕ) : Decidable (PlainFd f fd) := inferInstanceAs (Decidable (_ ∧ _))

/-- The strings are those of the process: every plain file has the bytes of its string and pages to
read and write them, every descriptor for one is at its position. -/
structure Represents (a : Area) (x : Strings) : Prop where
  size : ∀ ino, Plain a.files ino → (a.files.fi ino).size ≤ fileMaxsize
  file : ∀ ino, Plain a.files ino → x.file ino = bytes (a.data ino) 0 (a.files.fi ino).size
  perm : ∀ ino, Plain a.files ino → ∀ k < pages (a.files.fi ino).size, a.perm ino k = .rw
  ino : ∀ fd, PlainFd a.files fd → x.ino fd = (a.files.fd fd).ino
  append : ∀ fd, PlainFd a.files fd →
    (x.append fd = true ↔ (a.files.fd fd).flags &&& oAppend ≠ 0)
  ofs : ∀ fd, PlainFd a.files fd → (a.files.fd fd).ofs = x.ofs fd
  bound : ∀ fd, PlainFd a.files fd → x.ofs fd < 2 ^ 31

/-- An operation on plain files, with positions that `off_t` can hold. -/
def FileOp.Legal (a : Area) : FileOp → Prop
  | .read fd _ _ => a.files.isreadable fd ∧ PlainFd a.files fd
  | .write fd _ _ _ => a.files.iswritable fd ∧ PlainFd a.files fd
  | .seek fd offset whence =>
    PlainFd a.files fd ∧
      match whence with
      | .set => 0 ≤ offset ∧ offset < 2 ^ 31
      | .cur => 0 ≤ offset + (a.files.fd fd).ofs ∧ offset + (a.files.fd fd).ofs < 2 ^ 31
      | .end =>
        0 ≤ offset + (a.files.fi (a.files.fd fd).ino).size ∧
          offset + (a.files.fi (a.files.fd fd).ino).size < 2 ^ 31
  | .truncate ino newsize => Plain a.files ino ∧ 0 ≤ newsize ∧ newsize ≤ fileMaxsize

instance (a : Area) : (op : FileOp) → Decidable (op.Legal a)
  | .read _ _ _ | .write _ _ _ _ | .truncate _ _ => inferInstanceAs (Decidable (_ ∧ _))
  | .seek _ _ .set | .seek _ _ .cur | .seek _ _ .end => inferInstanceAs (Decidable (_ ∧ _ ∧ _))

/-- A write through a descriptor that is counted right and comes upon nothing stale: elements have
bytes, `size_t` can count them, and if the write is one for a place behind the end, the area has
zeros up to there; a version number is left where the write takes one. -/
structure CleanWrite (f : FileState) (d : ℤ → ℕ → UInt8) (fd eltsize count : ℕ) : Prop where
  pos : 0 < eltsize
  counted : eltsize * count < 2 ^ 64
  gap : (f.fd fd).flags &&& oAppend = 0 →
    (f.fd fd).ofs.toNat + eltsize * count ≤ fileMaxsize →
      ∀ i, (f.fi (f.fd fd).ino).size ≤ i → i < (f.fd fd).ofs.toNat → d (f.fd fd).ino i = 0
  ver : (f.fd fd).flags &&& oAppend = 0 →
    (f.fd fd).ofs.toNat + eltsize * count ≤ fileMaxsize → (f.fi (f.fd fd).ino).ver < intMax

/-- An operation that the code carries out on strings. -/
def FileOp.Clean (a : Area) : FileOp → Prop
  | .read _ eltsize _ => 0 < eltsize
  | .write fd _ eltsize count => CleanWrite a.files a.data fd eltsize count
  | .seek _ _ _ => True
  | .truncate ino _ => (a.files.fi ino).ver < intMax

/-! ## Bytes as strings -/

section bytes

variable {d buf : ℕ → UInt8} {o n m i size : ℕ}

theorem getElem?_bytes : (bytes d o n)[i]? = if i < n then some (d (o + i)) else none := by
  unfold bytes
  rw [List.getElem?_map]
  split
  case isTrue h => rw [List.getElem?_range h, Option.map_some]
  case isFalse h => rw [List.getElem?_eq_none (by simpa using h), Option.map_none]

theorem getD_bytes : (bytes d 0 n).getD i 0 = if i < n then d i else 0 := by
  rw [List.getD_eq_getElem?_getD, getElem?_bytes, Nat.zero_add]
  split <;> rfl

/-- A piece of the bytes from a later place. -/
theorem take_drop_bytes (h : o + m ≤ n) : ((bytes d 0 n).drop o).take m = bytes d o m := by
  apply List.ext_getElem?
  intro i
  rw [List.getElem?_take, List.getElem?_drop, getElem?_bytes, getElem?_bytes, Nat.zero_add]
  split
  · rw [if_pos (by omega)]
  · rfl

/-- Copying into the bytes of a file overwrites its string, provided that there are zeros between
its end and the place of the copy. -/
theorem bytes_memcpy (hz : ∀ i, size ≤ i → i < o → d i = 0) :
    bytes (memcpy d o buf 0 n) 0 (max size (o + n)) =
      overwrite 0 (bytes d 0 size) o (bytes buf 0 n) := by
  apply List.ext_getElem?
  intro i
  rw [getElem?_overwrite, getElem?_bytes, getElem?_bytes, getElem?_bytes, getD_bytes, length_bytes]
  simp only [Nat.zero_add, memcpy]
  by_cases hio : i < o
  · rw [if_pos (by omega), if_pos hio, if_neg (by omega)]
    split
    case isTrue => rfl
    case isFalse hs => rw [hz i (by omega) hio]
  rw [if_neg hio]
  by_cases hin : i < o + n
  · rw [if_pos (by omega), if_pos ⟨by omega, hin⟩, if_pos hin, if_pos (by omega)]
  · rw [if_neg hin, if_neg (by omega : ¬ (o ≤ i ∧ i < o + n))]
    by_cases his : i < size
    · rw [if_pos (by omega), if_pos his]
    · rw [if_neg (by omega), if_neg his]

/-- Clearing what a file grows by fills up its string. -/
theorem bytes_grow (h : size ≤ n) :
    bytes (memcpy d size (fun _ => 0) 0 (n - size)) 0 n = resize 0 n (bytes d 0 size) := by
  apply List.ext_getElem?
  intro i
  rw [getElem?_resize, getElem?_bytes, getD_bytes]
  simp only [Nat.zero_add, memcpy]
  by_cases hi : i < n
  · rw [if_pos hi, if_pos hi]
    by_cases his : i < size
    · rw [if_neg (by omega), if_pos his]
    · rw [if_pos (by omega), if_neg his]
  · rw [if_neg hi, if_neg hi]

/-- What is left of a file that shrinks. -/
theorem bytes_shrink (h : n ≤ size) : bytes d 0 n = resize 0 n (bytes d 0 size) := by
  apply List.ext_getElem?
  intro i
  rw [getElem?_resize, getElem?_bytes, getD_bytes, Nat.zero_add]
  by_cases hi : i < n
  · rw [if_pos hi, if_pos hi, if_pos (by omega)]
  · rw [if_neg hi, if_neg hi]

theorem pages_mono (h : m ≤ n) : pages m ≤ pages n := by
  unfold pages
  apply Nat.div_le_div_right
  omega

end bytes

/-! ## The relation is kept -/

section kept

variable {a b : Area} {x : Strings} {ino : ℤ} {fd o : ℕ} {l : List UInt8}

/-- Pages of a file that it has in full are granted. -/
theorem Area.granted_of_rw {p : Perm → Bool} {o n m : ℕ} (hp : p .rw = true)
    (h : ∀ k < pages m, a.perm ino k = .rw) (hm : o + n ≤ m) : a.Granted p ino o n := by
  intro k hk _ _
  rw [h k (lt_of_lt_of_le hk (pages_mono hm))]
  exact hp

/-- Moving a descriptor keeps the relation, whatever becomes of its error. -/
theorem Represents.setFd (h : Represents a x) {g : FileDesc → FileDesc}
    (hino : (g (a.files.fd fd)).ino = (a.files.fd fd).ino)
    (hflags : (g (a.files.fd fd)).flags = (a.files.fd fd).flags)
    (hofs : PlainFd a.files fd → (g (a.files.fd fd)).ofs = (o : ℤ)) (ho : o < 2 ^ 31) :
    Represents (a.setFd fd g) (x.setOfs fd o) := by
  have hfd : ∀ fd', ((a.setFd fd g).files.fd fd').ino = (a.files.fd fd').ino ∧
      ((a.setFd fd g).files.fd fd').flags = (a.files.fd fd').flags := by
    intro fd'
    by_cases heq : fd' = fd
    · subst heq
      simp [Area.setFd, Fs.setFd, FileState.setFd, hino, hflags]
    · simp [Area.setFd, Fs.setFd, FileState.setFd, heq]
  have hplain : ∀ fd', PlainFd (a.setFd fd g).files fd' → PlainFd a.files fd' := by
    intro fd' hp
    unfold PlainFd FileState.isopen at hp
    rw [(hfd fd').1] at hp
    exact hp
  constructor
  case size => exact h.size
  case file => exact h.file
  case perm => exact h.perm
  case ino =>
    intro fd' hp
    rw [(hfd fd').1]
    exact h.ino fd' (hplain fd' hp)
  case append =>
    intro fd' hp
    rw [(hfd fd').2]
    exact h.append fd' (hplain fd' hp)
  case ofs =>
    intro fd' hp
    by_cases heq : fd' = fd
    · subst heq
      simpa [Area.setFd, Fs.setFd, FileState.setFd, Strings.setOfs] using hofs (hplain fd' hp)
    · simpa [Area.setFd, Fs.setFd, FileState.setFd, Strings.setOfs, heq] using
        h.ofs fd' (hplain fd' hp)
  case bound =>
    intro fd' hp
    by_cases heq : fd' = fd
    · subst heq
      simpa [Strings.setOfs] using ho
    · simpa [Strings.setOfs, heq] using h.bound fd' (hplain fd' hp)

/-- Changing one file, but not its kind, keeps the relation when the string is changed the same
way. -/
theorem Represents.change (h : Represents a x) (hfd : b.files.fd = a.files.fd)
    (hother : ∀ i, i ≠ ino →
      b.files.fi i = a.files.fi i ∧ b.data i = a.data i ∧ b.perm i = a.perm i)
    (hname : (b.files.fi ino).name = (a.files.fi ino).name)
    (hmode : (b.files.fi ino).mode = (a.files.fi ino).mode)
    (hsize : (b.files.fi ino).size ≤ fileMaxsize)
    (hl : l = bytes (b.data ino) 0 (b.files.fi ino).size)
    (hrw : ∀ k < pages (b.files.fi ino).size, b.perm ino k = .rw) :
    Represents b (x.setFile ino l) := by
  have hplain : ∀ i, Plain b.files i → Plain a.files i := by
    intro i hp
    unfold Plain FileState.isreg FileState.alloced at hp ⊢
    by_cases hi : i = ino
    · subst hi
      rwa [hname, hmode] at hp
    · rwa [(hother i hi).1] at hp
  have hplainFd : ∀ fd, PlainFd b.files fd → PlainFd a.files fd := by
    intro fd hp
    unfold PlainFd FileState.isopen at hp ⊢
    rw [hfd] at hp
    exact ⟨hp.1, hplain _ hp.2⟩
  constructor
  case size =>
    intro i hp
    by_cases hi : i = ino
    · rwa [hi]
    · rw [(hother i hi).1]
      exact h.size i (hplain i hp)
  case file =>
    intro i hp
    by_cases hi : i = ino
    · subst hi
      simpa [Strings.setFile] using hl
    · rw [(hother i hi).1, (hother i hi).2.1]
      simpa [Strings.setFile, hi] using h.file i (hplain i hp)
  case perm =>
    intro i hp
    by_cases hi : i = ino
    · rwa [hi]
    · rw [(hother i hi).1, (hother i hi).2.2]
      exact h.perm i (hplain i hp)
  case ino =>
    intro fd hp
    rw [hfd]
    exact h.ino fd (hplainFd fd hp)
  case append =>
    intro fd hp
    rw [hfd]
    exact h.append fd (hplainFd fd hp)
  case ofs =>
    intro fd hp
    rw [hfd]
    exact h.ofs fd (hplainFd fd hp)
  case bound => exact fun fd hp => h.bound fd (hplainFd fd hp)

end kept

/-! ## One operation -/

section operations

variable {a : Area} {x : Strings} {ino : ℤ} {fd eltsize count o : ℕ} {buf : ℕ → UInt8}

@[simp] theorem Area.setFd_fd_same {g : FileDesc → FileDesc} :
    (a.setFd fd g).files.fd fd = g (a.files.fd fd) := by
  simp [Area.setFd, Fs.setFd, FileState.setFd]

@[simp] theorem Area.setFd_fi {g : FileDesc → FileDesc} :
    (a.setFd fd g).files.fi = a.files.fi := rfl

@[simp] theorem Area.setFd_perm {g : FileDesc → FileDesc} : (a.setFd fd g).perm = a.perm := rfl

@[simp] theorem Area.setFd_data {g : FileDesc → FileDesc} : (a.setFd fd g).data = a.data := rfl

@[simp] theorem Area.setFi_files {g : FileInode → FileInode} :
    (a.setFi ino g).files = a.files.setFi ino g := rfl

@[simp] theorem Strings.setOfs_setOfs {o' : ℕ} : (x.setOfs fd o').setOfs fd o = x.setOfs fd o := by
  simp [Strings.setOfs]

theorem Strings.setOfs_self : x.setOfs fd (x.ofs fd) = x := by
  simp [Strings.setOfs]

theorem Represents.on_eq (h : Represents a x) (hp : PlainFd a.files fd) :
    x.on fd = bytes (a.data (a.files.fd fd).ino) 0 (a.files.fi (a.files.fd fd).ino).size := by
  unfold Strings.on
  rw [h.ino fd hp, h.file _ hp.2]

/-- A file with nothing behind the offset has no elements there. -/
theorem avail_eq (size : ℕ) : avail o eltsize size count = min count ((size - o) / eltsize) := by
  unfold avail
  split
  case isTrue h => rw [Nat.sub_eq_zero_of_le h, Nat.zero_div, Nat.min_zero]
  case isFalse => rfl

theorem avail_mul_le (size : ℕ) : avail o eltsize size count * eltsize ≤ size - o := by
  rw [avail_eq]
  calc min count ((size - o) / eltsize) * eltsize
      ≤ (size - o) / eltsize * eltsize := Nat.mul_le_mul_right _ (Nat.min_le_right _ _)
    _ ≤ size - o := Nat.div_mul_le_self _ _

/-- A file that is not partial is read in one round. -/
theorem readLoop_plain (hm : (a.files.fi ino).mode &&& sIfpart = 0)
    (hg : a.Granted Perm.read ino o (avail o eltsize (a.files.fi ino).size count * eltsize)) :
    readLoop ino o eltsize [] a count =
      .ok (some ⟨avail o eltsize (a.files.fi ino).size count,
        bytes (a.data ino) o (avail o eltsize (a.files.fi ino).size count * eltsize), a⟩) := by
  cases count with
  | zero => simp [readLoop, avail_eq, bytes, pure, Except.pure]
  | succ count =>
    unfold readLoop readRound
    rw [bind_assoc, require_bind hg, pure_bind]
    simp only
    rw [if_pos (.inr hm)]
    rfl

theorem Represents.read (h : Represents a x) (hr : a.files.isreadable fd)
    (hp : PlainFd a.files fd) (he : 0 < eltsize) :
    ∃ a', (FileOp.read fd eltsize count).run a = .ok ((x.act (.read fd eltsize count)).1, a') ∧
      Represents a' (x.act (.read fd eltsize count)).2 := by
  have hofs := h.ofs fd hp
  have hbound := h.bound fd hp
  have hmax := h.size _ hp.2
  have hon := h.on_eq hp
  generalize hsize : (a.files.fi (a.files.fd fd).ino).size = size at hmax hon
  generalize ho : x.ofs fd = o at hofs hbound
  -- what is there is either nothing or all of it before the end
  have hle : avail o eltsize size count * eltsize ≤ size - o := avail_mul_le size
  have hn : min count (((x.on fd).length - o) / eltsize) = avail o eltsize size count := by
    rw [hon, length_bytes, avail_eq]
  obtain ⟨n, hav⟩ : ∃ n, avail o eltsize size count = n := ⟨_, rfl⟩
  rw [hav] at hle hn
  have hcase : n * eltsize = 0 ∨ o + n * eltsize ≤ size := by omega
  have hdata : ((x.on fd).drop o).take (n * eltsize) =
      bytes (a.data (a.files.fd fd).ino) o (n * eltsize) := by
    obtain h0 | hlt := hcase
    · rw [h0]
      rfl
    · rw [hon, take_drop_bytes hlt]
  have hg : a.Granted Perm.read (a.files.fd fd).ino o (n * eltsize) := by
    obtain h0 | hlt := hcase
    · intro k _ hpos _
      omega
    · exact Area.granted_of_rw rfl (h.perm _ hp.2) (hsize ▸ hlt)
  have hnew : o + eltsize * n < 2 ^ 31 := by
    rw [fileMaxsize_eq] at hmax
    rw [Nat.mul_comm]
    omega
  have hint : toInt ((o : ℤ) + eltsize * n) = (o + eltsize * n : ℕ) := by
    rw [toInt_eq] <;> push_cast <;> omega
  have hact : x.act (.read fd eltsize count) =
      (.read n (bytes (a.data (a.files.fd fd).ino) o (n * eltsize)),
        x.setOfs fd (o + eltsize * n)) := by
    simp only [Strings.act, ho, hn, hdata]
  rw [hact]
  refine ⟨a.setFd fd fun y => { y with ofs := toInt (y.ofs + eltsize * n) }, ?run, ?rep⟩
  case rep =>
    apply h.setFd rfl rfl _ hnew
    intro _
    rw [hofs, hint]
  case run =>
    have hloop := readLoop_plain hp.2.2 (by rwa [hsize, hav])
    rw [hsize, hav] at hloop
    have hread : a.fileinoRead [] (a.files.fd fd).ino (a.files.fd fd).ofs eltsize count =
        .ok (some ⟨n, bytes (a.data (a.files.fd fd).ino) o (n * eltsize), a⟩) := by
      rw [Area.fileinoRead, require_bind hp.2.1, hofs, require_bind (Int.natCast_nonneg o),
        require_bind he, Int.toNat_natCast]
      exact hloop
    have hassert : n = 0 ∨ toSize (toInt (o + eltsize * n)) ≤ size := by
      rw [hint, toSize_natCast (hnew.trans (by decide)), Nat.mul_comm]
      obtain h0 | hlt := hcase
      · exact .inl ((Nat.mul_eq_zero.1 h0).resolve_right he.ne')
      · exact .inr hlt
    rw [FileOp.run, Area.filedescRead, require_bind hr]
    simp only
    rw [hread, ok_bind]
    simp only
    rw [Area.setFd_fd_same, Area.setFd_fi, hsize, hofs, require_bind hassert]
    rfl

theorem Represents.seek (h : Represents a x) {offset : ℤ} {whence : Whence}
    (hl : (FileOp.seek fd offset whence).Legal a) :
    ∃ a', (FileOp.seek fd offset whence).run a =
        .ok ((x.act (.seek fd offset whence)).1, a') ∧
      Represents a' (x.act (.seek fd offset whence)).2 := by
  obtain ⟨hp, hr⟩ := hl
  have hofs := h.ofs fd hp
  have hlen : (x.on fd).length = (a.files.fi (a.files.fd fd).ino).size := by
    rw [h.on_eq hp, length_bytes]
  have hbound : 0 ≤ x.seekOfs fd offset whence ∧ x.seekOfs fd offset whence < 2 ^ 31 := by
    unfold Strings.seekOfs
    rw [hlen, ← hofs]
    cases whence <;> exact hr
  have hrun : File.filedescSeek a.toFs fd offset whence =
      .ok (x.seekOfs fd offset whence,
        a.toFs.setFd fd fun y => { y with ofs := x.seekOfs fd offset whence }) := by
    unfold File.filedescSeek
    rw [require_bind hp.1]
    cases whence with
    | set => exact require_bind hbound.1 _ _
    | cur =>
      have hnew : toInt (offset + (a.files.fd fd).ofs) = x.seekOfs fd offset .cur := by
        unfold Strings.seekOfs at hbound ⊢
        rw [hofs, toInt_eq (by omega) (by omega)]
      simp only
      rw [hnew, require_bind hbound.1]
      rfl
    | «end» =>
      have hnew : toInt (offset + (a.files.fi (a.files.fd fd).ino).size) =
          x.seekOfs fd offset .end := by
        unfold Strings.seekOfs at hbound ⊢
        rw [hlen] at hbound ⊢
        rw [toInt_eq (by omega) (by omega)]
      simp only
      rw [hnew, require_bind hbound.1]
      rfl
  refine ⟨a.setFd fd fun y => { y with ofs := x.seekOfs fd offset whence }, ?run, ?rep⟩
  case rep =>
    apply h.setFd rfl rfl
    · intro _
      simp only
      omega
    · omega
  case run =>
    rw [FileOp.run, Area.filedescSeek, hrun]
    rfl

/-- The state in which a write goes to the file: a descriptor that appends is at the end. -/
def Area.appended (a : Area) (fd : ℕ) : Area :=
  if (a.files.fd fd).flags &&& oAppend ≠ 0 then
    a.setFd fd fun y => { y with ofs := toInt (a.files.fi (a.files.fd fd).ino).size }
  else a

theorem Represents.appended (h : Represents a x) (hp : PlainFd a.files fd) :
    Represents (a.appended fd) (x.setOfs fd (x.writeOfs fd)) ∧
      ((a.appended fd).files.fd fd).ofs = x.writeOfs fd ∧ x.writeOfs fd < 2 ^ 31 := by
  have hmax := h.size _ hp.2
  rw [fileMaxsize_eq] at hmax
  unfold Area.appended Strings.writeOfs
  by_cases happ : (a.files.fd fd).flags &&& oAppend ≠ 0
  · rw [if_pos happ, if_pos ((h.append fd hp).2 happ), h.on_eq hp, length_bytes]
    have hint := toInt_natCast (h.size _ hp.2)
    have hlt : (a.files.fi (a.files.fd fd).ino).size < 2 ^ 31 := by omega
    refine ⟨h.setFd rfl rfl ?_ hlt, ?_, hlt⟩
    · intro _
      simp only
      rw [hint]
    · rw [Area.setFd_fd_same]
      simp only
      rw [hint]
  · rw [if_neg happ, if_neg fun h' => happ ((h.append fd hp).1 h'), Strings.setOfs_self]
    exact ⟨h, h.ofs fd hp, h.bound fd hp⟩

/-- The state in which a file has been made long enough. -/
def Area.grown (a : Area) (ino : ℤ) (lim : ℕ) : Area :=
  let size := (a.files.fi ino).size
  if size < lim then
    (a.setPerm ino .rw (pages size) (pages lim)).setFi ino fun y => { y with size := lim }
  else a

/-- The state after a write of `n` bytes at `o`. -/
def Area.written (a : Area) (ino : ℤ) (o n : ℕ) (buf : ℕ → UInt8) : Area :=
  (a.grown ino (o + n)).setData ino fun d => memcpy d o buf 0 n

theorem Area.written_fi_same {n : ℕ} : (a.written ino o n buf).files.fi ino =
    { a.files.fi ino with size := max (a.files.fi ino).size (o + n) } := by
  unfold Area.written Area.grown
  simp only
  split
  case isTrue h => simp [Area.setData, Area.setFi, Area.setPerm, max_eq_right h.le]
  case isFalse h => simp [Area.setData, max_eq_left (not_lt.1 h)]

theorem Area.written_data_same {n : ℕ} :
    (a.written ino o n buf).data ino = memcpy (a.data ino) o buf 0 n := by
  unfold Area.written Area.grown
  simp only
  split <;> simp [Area.setData, Area.setFi, Area.setPerm]

/-- A write leaves the other files alone. -/
theorem Area.written_ne {n : ℕ} {i : ℤ} (hi : i ≠ ino) :
    (a.written ino o n buf).files.fi i = a.files.fi i ∧
      (a.written ino o n buf).data i = a.data i ∧ (a.written ino o n buf).perm i = a.perm i := by
  unfold Area.written Area.grown
  simp only
  split <;> simp [Area.setData, Area.setFi, Area.setPerm, Fs.setFi, Fs.setData, FileState.setFi, hi]

theorem Area.written_fd {n : ℕ} : (a.written ino o n buf).files.fd = a.files.fd := by
  unfold Area.written Area.grown
  simp only
  split <;> rfl

/-- A file that grows has all its pages before and after. -/
theorem Area.grown_perm {lim k : ℕ} (h : ∀ k < pages (a.files.fi ino).size, a.perm ino k = .rw)
    (hk : k < pages (max (a.files.fi ino).size lim)) : (a.grown ino lim).perm ino k = .rw := by
  unfold Area.grown
  simp only
  split
  case isTrue hlt =>
    rw [max_eq_right hlt.le] at hk
    by_cases hold : k < pages (a.files.fi ino).size
    · simp [Area.setFi, Area.setPerm, not_le.2 hold, h k hold]
    · simp [Area.setFi, Area.setPerm, not_lt.1 hold, hk]
  case isFalse hlt =>
    rw [max_eq_left (not_lt.1 hlt)] at hk
    exact h k hk

/-- A write that ends behind `FILE_MAXSIZE` is refused. -/
theorem Area.fileinoWrite_refused (hreg : a.files.isreg ino)
    (hsize : (a.files.fi ino).size ≤ fileMaxsize) (he : 0 < eltsize) (ho : o < 2 ^ 31)
    (hlen : eltsize * count < 2 ^ 64) (hlim : fileMaxsize < o + eltsize * count) :
    a.fileinoWrite ino o buf eltsize count = .ok (.error .efbig, a) := by
  unfold Area.fileinoWrite
  rw [require_bind hreg, require_bind (Int.natCast_nonneg o), require_bind he, require_bind hsize,
    Int.toNat_natCast, Nat.mod_eq_of_lt hlen]
  have hwrap : (o + eltsize * count) % 2 ^ 64 < o ∨
      fileMaxsize < (o + eltsize * count) % 2 ^ 64 := by
    generalize eltsize * count = len at hlen hlim
    by_cases h : o + len < 2 ^ 64
    · rw [Nat.mod_eq_of_lt h]
      exact .inr hlim
    · omega
  rw [if_pos hwrap]
  rfl

/-- A write that ends before `FILE_MAXSIZE` is carried out. -/
theorem Area.fileinoWrite_ok (hreg : a.files.isreg ino)
    (hsize : (a.files.fi ino).size ≤ fileMaxsize) (he : 0 < eltsize)
    (hlim : o + eltsize * count ≤ fileMaxsize)
    (hrw : ∀ k < pages (a.files.fi ino).size, a.perm ino k = .rw) :
    a.fileinoWrite ino o buf eltsize count =
      .ok (.ok count, a.written ino o (eltsize * count) buf) := by
  unfold Area.fileinoWrite
  have hmax : fileMaxsize < 2 ^ 64 := by decide
  rw [require_bind hreg, require_bind (Int.natCast_nonneg o), require_bind he, require_bind hsize,
    Int.toNat_natCast, Nat.mod_eq_of_lt (by omega : eltsize * count < 2 ^ 64)]
  simp only
  rw [Nat.mod_eq_of_lt (by omega : o + eltsize * count < 2 ^ 64), if_neg (by omega)]
  have hg : (a.grown ino (o + eltsize * count)).Granted Perm.write ino o (eltsize * count) :=
    Area.granted_of_rw rfl (fun k hk => Area.grown_perm hrw hk) (Nat.le_max_right _ _)
  exact require_bind hg _ _

theorem bump_ok {ver : ℤ} (h : ver < intMax) : bump ver = .ok (ver + 1) := by
  unfold bump
  rw [require_bind h]
  rfl

theorem Area.appended_fi : (a.appended fd).files.fi = a.files.fi := by
  unfold Area.appended
  split <;> rfl

theorem Area.appended_data : (a.appended fd).data = a.data := by
  unfold Area.appended
  split <;> rfl

theorem Area.appended_perm : (a.appended fd).perm = a.perm := by
  unfold Area.appended
  split <;> rfl

theorem Area.appended_isreg : (a.appended fd).files.isreg ino ↔ a.files.isreg ino := by
  unfold FileState.isreg FileState.alloced
  rw [Area.appended_fi]

/-- `filedesc_write` in the state in which the write goes to the file. -/
theorem Area.filedescWrite_eq (hw : a.files.iswritable fd) :
    a.filedescWrite fd buf eltsize count = do
      let (actual, b) ← (a.appended fd).fileinoWrite (a.files.fd fd).ino
        ((a.appended fd).files.fd fd).ofs buf eltsize count
      match actual with
      | .error e => return (.error e, b.setFd fd fun y => { y with err := e })
      | .ok n =>
        require (n < 2 ^ 63) .overflow
        let ver ← if (a.files.fd fd).flags &&& oAppend ≠ 0 then
            pure (b.files.fi (a.files.fd fd).ino).ver
          else bump (b.files.fi (a.files.fd fd).ino).ver
        let b := b.setFi (a.files.fd fd).ino fun y => { y with ver := ver }
        let b := b.setFd fd fun y => { y with ofs := toInt (y.ofs + eltsize * count) }
        require (toSize (b.files.fd fd).ofs ≤ (b.files.fi (a.files.fd fd).ino).size) .filedescWrite
        return (.ok count, b) := by
  rw [Area.filedescWrite, require_bind hw]
  rfl

/-- A write that would end behind `FILE_MAXSIZE` changes the error of the descriptor, and its position
if it appends. -/
theorem Represents.write_refused (h : Represents a x) (hw : a.files.iswritable fd)
    (hp : PlainFd a.files fd) (he : 0 < eltsize) (hlen : eltsize * count < 2 ^ 64)
    (hlim : fileMaxsize < x.writeOfs fd + eltsize * count) :
    a.filedescWrite fd buf eltsize count =
      .ok (.error .efbig, (a.appended fd).setFd fd fun y => { y with err := .efbig }) := by
  obtain ⟨-, hofs, hbound⟩ := h.appended hp
  have hsize : ((a.appended fd).files.fi (a.files.fd fd).ino).size ≤ fileMaxsize := by
    rw [Area.appended_fi]
    exact h.size _ hp.2
  rw [Area.filedescWrite_eq hw, hofs, Area.fileinoWrite_refused (Area.appended_isreg.2 hp.2.1) hsize
    he hbound hlen hlim]
  rfl

/-- The state after `filedesc_write`, with the version number that the file has then. -/
def Area.wrote (a : Area) (fd o n : ℕ) (buf : ℕ → UInt8) (ver : ℤ) : Area :=
  (((a.appended fd).written (a.files.fd fd).ino o n buf).setFi (a.files.fd fd).ino
    fun y => { y with ver := ver }).setFd fd fun y => { y with ofs := toInt (y.ofs + n) }

/-- A write that ends before `FILE_MAXSIZE` is carried out, if a version number is left. -/
theorem Represents.write_ok (h : Represents a x) (hw : a.files.iswritable fd)
    (hp : PlainFd a.files fd) (he : 0 < eltsize)
    (hlim : x.writeOfs fd + eltsize * count ≤ fileMaxsize)
    (hver : (a.files.fd fd).flags &&& oAppend = 0 →
      (a.files.fi (a.files.fd fd).ino).ver < intMax) :
    ∃ ver, a.filedescWrite fd buf eltsize count =
      .ok (.ok count, a.wrote fd (x.writeOfs fd) (eltsize * count) buf ver) := by
  obtain ⟨-, hofs, hbound⟩ := h.appended hp
  have hsize : ((a.appended fd).files.fi (a.files.fd fd).ino).size ≤ fileMaxsize := by
    rw [Area.appended_fi]
    exact h.size _ hp.2
  have hrw : ∀ k < pages ((a.appended fd).files.fi (a.files.fd fd).ino).size,
      (a.appended fd).perm (a.files.fd fd).ino k = .rw := by
    rw [Area.appended_fi, Area.appended_perm]
    exact h.perm _ hp.2
  have hok : (a.appended fd).fileinoWrite _ _ buf eltsize count = _ :=
    Area.fileinoWrite_ok (Area.appended_isreg.2 hp.2.1) hsize he hlim hrw
  have hcount : count < 2 ^ 63 := by
    rw [fileMaxsize_eq] at hlim
    have := Nat.le_mul_of_pos_left count he
    omega
  have hassert : ∀ ver,
      toSize ((a.wrote fd (x.writeOfs fd) (eltsize * count) buf ver).files.fd fd).ofs ≤
        ((a.wrote fd (x.writeOfs fd) (eltsize * count) buf ver).files.fi (a.files.fd fd).ino).size := by
    intro ver
    unfold Area.wrote
    rw [Area.setFd_fd_same, Area.setFd_fi]
    rw [Area.setFi_files, FileState.setFi_fi_same, Area.written_fi_same]
    change toSize (toInt ((((a.appended fd).written _ _ _ buf).files.fd fd).ofs + _)) ≤ _
    rw [Area.written_fd, hofs, ← Nat.cast_add, toSize_toInt hlim]
    exact Nat.le_max_right _ _
  rw [Area.filedescWrite_eq hw, hofs, hok, ok_bind]
  simp only
  rw [require_bind hcount]
  by_cases happ : (a.files.fd fd).flags &&& oAppend ≠ 0
  · rw [if_pos happ, pure_bind]
    exact ⟨_, require_bind (hassert _) _ _⟩
  · rw [if_neg happ, bump, bind_assoc, require_bind]
    · exact ⟨_, require_bind (hassert _) _ _⟩
    · rw [Area.written_fi_same, Area.appended_fi]
      exact hver (not_not.1 happ)

/-- After a write the string is overwritten, provided that the write finds zeros behind the end. -/
theorem Represents.wrote (h : Represents a x) (hp : PlainFd a.files fd) {n : ℕ} {ver : ℤ}
    (hlim : x.writeOfs fd + n ≤ fileMaxsize)
    (hgap : ∀ i, (a.files.fi (a.files.fd fd).ino).size ≤ i → i < x.writeOfs fd →
      a.data (a.files.fd fd).ino i = 0) :
    Represents (a.wrote fd (x.writeOfs fd) n buf ver)
      ((x.setFile (x.ino fd) (overwrite 0 (x.on fd) (x.writeOfs fd) (bytes buf 0 n))).setOfs fd
        (x.writeOfs fd + n)) := by
  obtain ⟨hb, hofs, hbound⟩ := h.appended hp
  have hsize := h.size _ hp.2
  generalize hino : (a.files.fd fd).ino = ino at hgap hsize
  generalize hw : x.writeOfs fd = o at hb hofs hbound hgap hlim
  have hchange : Represents
      (((a.appended fd).written ino o n buf).setFi ino fun y => { y with ver := ver })
      ((x.setOfs fd o).setFile ino (overwrite 0 (x.on fd) o (bytes buf 0 n))) := by
    apply hb.change
    case hfd => exact Area.written_fd
    case hother =>
      intro i hi
      obtain ⟨hfi, hdata, hperm⟩ : ((a.appended fd).written ino o n buf).files.fi i = _ ∧
        ((a.appended fd).written ino o n buf).data i = _ ∧ _ := Area.written_ne hi
      refine ⟨?_, hdata, hperm⟩
      rw [Area.setFi_files, FileState.setFi_fi_ne hi, hfi]
    case hname => rw [Area.setFi_files, FileState.setFi_fi_same, Area.written_fi_same]
    case hmode => rw [Area.setFi_files, FileState.setFi_fi_same, Area.written_fi_same]
    case hsize =>
      rw [Area.setFi_files, FileState.setFi_fi_same, Area.written_fi_same, Area.appended_fi]
      exact max_le hsize hlim
    case hl =>
      rw [Area.setFi_files, FileState.setFi_fi_same, Area.written_fi_same, Area.appended_fi]
      change _ = bytes (((a.appended fd).written ino o n buf).data ino) 0 _
      rw [Area.written_data_same, Area.appended_data, bytes_memcpy hgap, h.on_eq hp, hino]
    case hrw =>
      rw [Area.setFi_files, FileState.setFi_fi_same, Area.written_fi_same]
      intro k hk
      apply Area.grown_perm _ hk
      rw [Area.appended_fi, Area.appended_perm, ← hino]
      exact h.perm _ hp.2
  suffices hset : Represents ((((a.appended fd).written ino o n buf).setFi ino fun y =>
      { y with ver := ver }).setFd fd fun y => { y with ofs := toInt (y.ofs + n) })
      (((x.setOfs fd o).setFile ino (overwrite 0 (x.on fd) o (bytes buf 0 n))).setOfs fd (o + n)) by
    rw [h.ino fd hp, hino]
    unfold Area.wrote
    rw [hino]
    have : ((x.setOfs fd o).setFile ino (overwrite 0 (x.on fd) o (bytes buf 0 n))).setOfs fd (o + n) =
        (x.setFile ino (overwrite 0 (x.on fd) o (bytes buf 0 n))).setOfs fd (o + n) := by
      simp [Strings.setOfs, Strings.setFile]
    rw [← this]
    exact hset
  apply hchange.setFd rfl rfl
  · intro _
    change toInt ((((a.appended fd).written ino o n buf).files.fd fd).ofs + n) = _
    rw [Area.written_fd, hofs, ← Nat.cast_add, toInt_natCast hlim]
  · rw [fileMaxsize_eq] at hlim
    omega

theorem Represents.write (h : Represents a x) (hl : (FileOp.write fd buf eltsize count).Legal a)
    (hc : CleanWrite a.files a.data fd eltsize count) :
    ∃ a', (FileOp.write fd buf eltsize count).run a =
        .ok ((x.act (.write fd buf eltsize count)).1, a') ∧
      Represents a' (x.act (.write fd buf eltsize count)).2 := by
  obtain ⟨hw, hp⟩ := hl
  obtain ⟨hb, hofs, hbound⟩ := h.appended hp
  rw [Strings.act, length_bytes]
  by_cases hlim : fileMaxsize < x.writeOfs fd + eltsize * count
  · rw [if_pos hlim]
    refine ⟨(a.appended fd).setFd fd fun y => { y with err := .efbig }, ?_, ?_⟩
    · rw [FileOp.run, h.write_refused hw hp hc.pos hc.counted hlim]
      rfl
    · have := hb.setFd (g := fun y => { y with err := .efbig }) rfl rfl (fun _ => hofs) hbound
      rwa [Strings.setOfs_setOfs] at this
  rw [if_neg hlim]
  have hle := not_lt.1 hlim
  -- without `O_APPEND` the write goes where the descriptor is
  have hplace : (a.files.fd fd).flags &&& oAppend = 0 →
      x.writeOfs fd = (a.files.fd fd).ofs.toNat := by
    intro hf
    unfold Strings.writeOfs
    rw [if_neg fun h' => (h.append fd hp).1 h' hf, h.ofs fd hp, Int.toNat_natCast]
  have hgap : ∀ i, (a.files.fi (a.files.fd fd).ino).size ≤ i → i < x.writeOfs fd →
      a.data (a.files.fd fd).ino i = 0 := by
    intro i hi hlt
    by_cases hf : (a.files.fd fd).flags &&& oAppend = 0
    · rw [hplace hf] at hle hlt
      exact hc.gap hf hle i hi hlt
    · unfold Strings.writeOfs at hlt
      rw [if_pos ((h.append fd hp).2 hf), h.on_eq hp, length_bytes] at hlt
      omega
  have hver : (a.files.fd fd).flags &&& oAppend = 0 →
      (a.files.fi (a.files.fd fd).ino).ver < intMax := by
    intro hf
    rw [hplace hf] at hle
    exact hc.ver hf hle
  obtain ⟨ver, hok⟩ : ∃ ver, a.filedescWrite fd buf eltsize count = _ :=
    h.write_ok hw hp hc.pos hle hver
  refine ⟨a.wrote fd (x.writeOfs fd) (eltsize * count) buf ver, ?_, h.wrote hp hle hgap⟩
  rw [FileOp.run, hok]
  rfl

/-- A file that is set to a size that its bytes and pages are there for. -/
theorem Represents.resized (h : Represents a x) {b : Area} {n : ℕ} {ver : ℤ} {l : List UInt8}
    (hfiles : b.files = a.files) (hdata : ∀ i, i ≠ ino → b.data i = a.data i)
    (hperm : ∀ i, i ≠ ino → b.perm i = a.perm i) (hn : n ≤ fileMaxsize)
    (hl : l = bytes (b.data ino) 0 n) (hrw : ∀ k < pages n, b.perm ino k = .rw) :
    Represents (b.setFi ino fun y => { y with size := n, ver := ver }) (x.setFile ino l) := by
  apply h.change
  case hfd =>
    rw [Area.setFi_files, hfiles]
    rfl
  case hother =>
    intro i hi
    refine ⟨?_, hdata i hi, hperm i hi⟩
    rw [Area.setFi_files, FileState.setFi_fi_ne hi, hfiles]
  case hname => rw [Area.setFi_files, FileState.setFi_fi_same, hfiles]
  case hmode => rw [Area.setFi_files, FileState.setFi_fi_same, hfiles]
  case hsize =>
    rw [Area.setFi_files, FileState.setFi_fi_same]
    exact hn
  case hl =>
    rw [Area.setFi_files, FileState.setFi_fi_same]
    exact hl
  case hrw =>
    rw [Area.setFi_files, FileState.setFi_fi_same]
    exact hrw

theorem Represents.truncate (h : Represents a x) {newsize : ℤ}
    (hl : (FileOp.truncate ino newsize).Legal a) (hver : (a.files.fi ino).ver < intMax) :
    ∃ a', (FileOp.truncate ino newsize).run a = .ok ((x.act (.truncate ino newsize)).1, a') ∧
      Represents a' (x.act (.truncate ino newsize)).2 := by
  obtain ⟨hp, h0, hmax⟩ := hl
  have hsize := h.size ino hp
  have hrw := h.perm ino hp
  suffices hrun : ∃ a', a.fileinoTruncate ino newsize = .ok a' ∧
      Represents a' (x.setFile ino (resize 0 newsize.toNat (x.file ino))) by
    obtain ⟨a', hok, hrep⟩ := hrun
    refine ⟨a', ?_, hrep⟩
    rw [FileOp.run, hok]
    rfl
  have hlen : newsize.toNat ≤ fileMaxsize := by omega
  rw [h.file ino hp]
  unfold Area.fileinoTruncate
  rw [require_bind hp.1.1.1, require_bind ⟨h0, hmax⟩]
  simp only
  generalize newsize.toNat = n at hlen
  by_cases hgrow : (a.files.fi ino).size < n
  · -- growing
    have hperm : ∀ k < pages n, (a.setPerm ino .rw (pages (a.files.fi ino).size) (pages n)).perm
        ino k = .rw := by
      intro k hk
      by_cases hold : k < pages (a.files.fi ino).size
      · simp [Area.setPerm, not_le.2 hold, hrw k hold]
      · simp [Area.setPerm, not_lt.1 hold, hk]
    have hg : (a.setPerm ino .rw (pages (a.files.fi ino).size) (pages n)).Granted Perm.write ino
        (a.files.fi ino).size (n - (a.files.fi ino).size) :=
      Area.granted_of_rw rfl hperm (by omega)
    rw [if_pos hgrow, require_bind hg, pure_bind]
    refine ⟨_, bind_ok.2 ⟨_, bump_ok hver, rfl⟩, ?_⟩
    apply h.resized
    case hfiles => rfl
    case hdata =>
      intro i hi
      simp [Area.setData, Area.setPerm, Fs.setData, hi]
    case hperm =>
      intro i hi
      simp [Area.setData, Area.setPerm, hi]
    case hn => exact hlen
    case hl => simp [Area.setData, Area.setPerm, bytes_grow hgrow.le]
    case hrw => exact hperm
  rw [if_neg hgrow]
  by_cases hpos : 0 < n
  · -- shrinking, but not to nothing
    rw [if_pos hpos, pure_bind]
    refine ⟨_, bind_ok.2 ⟨_, bump_ok hver, rfl⟩, ?_⟩
    apply h.resized
    case hfiles => rfl
    case hdata => exact fun i hi => rfl
    case hperm =>
      intro i hi
      simp [Area.setPerm, hi]
    case hn => exact hlen
    case hl => exact (bytes_shrink (not_lt.1 hgrow)).symm
    case hrw =>
      intro k hk
      have := pages_mono (not_lt.1 hgrow)
      simp [Area.setPerm, not_le.2 hk, hrw k (lt_of_lt_of_le hk this)]
  · -- emptying
    obtain rfl : n = 0 := by omega
    rw [if_neg hpos, pure_bind]
    refine ⟨_, bind_ok.2 ⟨_, bump_ok hver, rfl⟩, ?_⟩
    apply h.resized
    case hfiles => rfl
    case hdata =>
      intro i hi
      simp [Area.zero, Area.setData, Area.setPerm, Fs.setData, hi]
    case hperm =>
      intro i hi
      simp [Area.zero, Area.setData, Area.setPerm, hi]
    case hn => exact hlen
    case hl => simp [resize, bytes]
    case hrw => exact fun k hk => absurd hk (Nat.not_lt_zero k)

/-- An operation on plain files does to the files what it does to their strings, and gets the same
from both. -/
theorem Represents.step (h : Represents a x) {op : FileOp} (hl : op.Legal a) (hc : op.Clean a) :
    ∃ a', op.run a = .ok ((x.act op).1, a') ∧ Represents a' (x.act op).2 := by
  cases op with
  | read fd eltsize count => exact h.read hl.1 hl.2 hc
  | write fd buf eltsize count => exact h.write hl hc
  | seek fd offset whence => exact h.seek hl
  | truncate ino newsize => exact h.truncate hl hc

end operations

/-! ## Runs -/

/-- The operations of a process, one after the other. -/
def runs (a : Area) : List FileOp → Except Site (List Out × Area)
  | [] => return ([], a)
  | op :: ops => do
    let (out, a) ← op.run a
    let (outs, a) ← runs a ops
    return (out :: outs, a)

/-- The same operations on strings. -/
def Strings.acts (x : Strings) : List FileOp → List Out × Strings
  | [] => ([], x)
  | op :: ops => ((x.act op).1 :: ((x.act op).2.acts ops).1, ((x.act op).2.acts ops).2)

/-- Every operation of a run meets a condition in the state before it. -/
def Every (P : Area → FileOp → Prop) (a : Area) : List FileOp → Prop
  | [] => True
  | op :: ops =>
    P a op ∧
      match op.run a with
      | .ok (_, a') => Every P a' ops
      | .error _ => True

instance decidableEvery {P : Area → FileOp → Prop} [∀ a op, Decidable (P a op)] :
    (a : Area) → (ops : List FileOp) → Decidable (Every P a ops)
  | _, [] => isTrue trivial
  | a, op :: ops =>
    @instDecidableAnd _ _ _ <|
      match op.run a with
      | .ok (_, a') => decidableEvery a' ops
      | .error _ => isTrue trivial

theorem Represents.runs {a : Area} {x : Strings} {ops : List FileOp} (h : Represents a x)
    (hl : Every (fun a op => op.Legal a) a ops) (hc : Every (fun a op => op.Clean a) a ops) :
    ∃ a', File.runs a ops = .ok ((x.acts ops).1, a') ∧ Represents a' (x.acts ops).2 := by
  induction ops generalizing a x with
  | nil => exact ⟨a, rfl, h⟩
  | cons op ops ih =>
    obtain ⟨b, hrun, hb⟩ := h.step hl.1 hc.1
    have hl := hl.2
    have hc := hc.2
    rw [hrun] at hl hc
    obtain ⟨a', hruns, ha'⟩ := ih hb hl hc
    refine ⟨a', ?_, ha'⟩
    rw [File.runs, hrun, ok_bind]
    simp only
    rw [hruns]
    rfl

/-- In a run in which every write is counted right and comes upon nothing stale, and no version number
runs out, the files are strings: every operation gets what it gets from the strings. In every
state reached, a write that would end behind `FILE_MAXSIZE` returns `-1` with `EFBIG` and
changes nothing but the error of its descriptor and, if it appends, the position. -/
theorem files_strings (a : Area) (x : Strings) (ops : List FileOp) (h : Represents a x)
    (hl : Every (fun a op => op.Legal a) a ops) (hc : Every (fun a op => op.Clean a) a ops) :
    ∃ a', runs a ops = .ok ((x.acts ops).1, a') ∧ Represents a' (x.acts ops).2 ∧
      ∀ fd buf eltsize count, (FileOp.write fd buf eltsize count).Legal a' → 0 < eltsize →
        eltsize * count < 2 ^ 64 →
        fileMaxsize < (x.acts ops).2.writeOfs fd + eltsize * count →
        a'.filedescWrite fd buf eltsize count =
          .ok (.error .efbig, (a'.appended fd).setFd fd fun y => { y with err := .efbig }) := by
  obtain ⟨a', hruns, ha'⟩ := h.runs hl hc
  refine ⟨a', hruns, ha', ?_⟩
  intro fd buf eltsize count hleg he hlen hlim
  exact ha'.write_refused hleg.1 hleg.2 he hlen hlim

/-- A process whose only file is inode 4, regular and empty, open for reading and writing. -/
def emptyFile : Area where
  files :=
    { cwd := 3, exited := false, status := 0
      fd := fun i => if i = 0 then ⟨4, oRdonly ||| oWronly, 0, .none⟩ else ⟨0, 0, 0, .none⟩
      fi := fun i => if i = 4 then ⟨3, [97], 0, sIfreg, 0, 4, 0, 0⟩ else .zero
      child := fun _ => .free }
  data := fun _ _ => 0
  perm := fun _ _ => .no

/-- Its string. -/
def emptyString : Strings := ⟨fun _ => [], fun _ => 4, fun _ => false, fun _ => 0⟩

theorem represents_empty : Represents emptyFile emptyString := by
  have hino : ∀ ino, Plain emptyFile.files ino → ino = 4 := by
    rintro ino ⟨⟨⟨-, hname⟩, -⟩, -⟩
    simp only [emptyFile] at hname
    split at hname
    · assumption
    · exact absurd rfl hname
  have hfd : ∀ fd, PlainFd emptyFile.files fd → fd = 0 := by
    rintro fd ⟨⟨-, hne⟩, -⟩
    simp only [emptyFile] at hne
    split at hne
    · assumption
    · exact absurd rfl hne
  constructor
  case size =>
    intro ino hp
    rw [hino ino hp]
    decide
  case file =>
    intro ino hp
    rw [hino ino hp]
    rfl
  case perm =>
    intro ino hp k hk
    rw [hino ino hp] at hk
    exact absurd hk (Nat.not_lt_zero k)
  case ino =>
    intro fd hp
    rw [hfd fd hp]
    rfl
  case append =>
    intro fd hp
    rw [hfd fd hp]
    decide
  case ofs =>
    intro fd hp
    rw [hfd fd hp]
    rfl
  case bound => exact fun _ _ => (by decide : 0 < 2 ^ 31)

/-- Write three bytes, keep one, write behind the end, and read it all. -/
def staleOps : List FileOp :=
  [.write 0 (fun _ => 1) 1 3, .truncate 4 1, .write 0 (fun _ => 1) 1 1, .seek 0 0 .set,
    .read 0 1 4]

theorem files_strings_small : ∃ a',
    runs emptyFile [.write 0 (fun _ => 1) 1 3, .seek 0 1 .set, .read 0 1 4] =
      .ok ([.write (.ok 3), .seek 1, .read 2 [1, 1]], a') := by
  obtain ⟨a', h, -⟩ := files_strings emptyFile emptyString
    [.write 0 (fun _ => 1) 1 3, .seek 0 1 .set, .read 0 1 4] represents_empty (by decide)
    ⟨⟨by decide, by decide, fun _ _ i _ hi => absurd hi (Nat.not_lt_zero i), by decide⟩, trivial,
      Nat.one_pos, trivial⟩
  exact ⟨a', h⟩

set_option maxRecDepth 3000 in
/-- A write behind the end of a file that was longer before shows bytes that were cut off, and a
write of 2^31 elements of 2^33 bytes returns 2^31 and stores nothing. -/
theorem files_not_strings :
    Represents emptyFile emptyString ∧ Every (fun a op => op.Legal a) emptyFile staleOps ∧
      (∃ a', runs emptyFile staleOps = .ok ([.write (.ok 3), .truncate, .write (.ok 1), .seek 0,
        .read 4 [1, 1, 1, 1]], a')) ∧
      (emptyString.acts staleOps).1 = [.write (.ok 3), .truncate, .write (.ok 1), .seek 0,
        .read 4 [1, 0, 0, 1]] ∧
      ∃ a', (FileOp.write 0 (fun _ => 1) (2 ^ 33) (2 ^ 31)).run emptyFile =
        .ok (.write (.ok (2 ^ 31)), a') ∧ (a'.files.fi 4).size = 0 :=
  ⟨represents_empty, by decide +kernel, ⟨_, rfl⟩, rfl, ⟨_, rfl, rfl⟩⟩

end Determinator.File
