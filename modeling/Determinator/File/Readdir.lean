import Determinator.File.Open
import Determinator.User.Dir

/-!
# What a scan of a directory lists

While a process reads a directory it may create, delete and write files, so that the inodes change between the calls of
`readdir`. Whatever it does, no entry is listed twice, and one that is there all the time is listed before `readdir`
returns `NULL` (`readdir_lists`).
-/

namespace Determinator.File

variable {s s' t : Fs} {dir n : ℕ} {d ino : ℤ} {r : Option ℤ} {log : List (Fs × Option ℤ)}

/-- The inode is an entry of the directory. -/
def Entry (s : Fs) (d ino : ℤ) : Prop := s.files.exist ino ∧ (s.files.fi ino).dino = d

instance (s : Fs) (d ino : ℤ) : Decidable (Entry s d ino) := inferInstanceAs (Decidable (_ ∧ _))

theorem Entry.valid (h : Entry s d ino) : 0 < ino ∧ ino < fileInodes := h.1.1.1

/-- A call of `readdir` that began at offset `o` and went on to `o'`: it has found the first entry from there on, or has
gone over all inodes. -/
structure Found (s : Fs) (d o : ℤ) (r : Option ℤ) (o' : ℤ) : Prop where
  lt : o < o'
  some : ∀ ino, r = some ino → Entry s d ino ∧ o ≤ ino ∧ o' = ino + 1
  none : r = none → fileInodes < o'
  skipped : ∀ ino, o ≤ ino → ino < o' → r ≠ Option.some ino → ¬Entry s d ino

theorem Found.next {o' : ℤ} (h : ¬Entry s d ino) (hf : Found s d (ino + 1) r o') : Found s d ino r o' where
  lt := by
    have := hf.lt
    omega
  some i hi := by
    obtain ⟨he, hle, ho⟩ := hf.some i hi
    exact ⟨he, by omega, ho⟩
  none := hf.none
  skipped i hi₁ hi₂ hr := by
    rcases hi₁.lt_or_eq with hlt | rfl
    · exact hf.skipped i (by omega) hi₂ hr
    · exact h

/-- Nothing but the offset of the descriptor is changed. -/
def Fs.seek (s : Fs) (dir : ℕ) (o : ℤ) : Fs := s.setFd dir fun x => { x with ofs := o }

@[simp] theorem seek_fi (s : Fs) (dir : ℕ) (o : ℤ) : (s.seek dir o).files.fi = s.files.fi := rfl

@[simp] theorem seek_exist (s : Fs) (dir : ℕ) (o : ℤ) (ino : ℤ) :
    (s.seek dir o).files.exist ino ↔ s.files.exist ino := Iff.rfl

@[simp] theorem seek_fd (s : Fs) (dir : ℕ) (o : ℤ) :
    (s.seek dir o).files.fd dir = { s.files.fd dir with ofs := o } := by
  simp [Fs.seek, Fs.setFd, FileState.setFd]

@[simp] theorem seek_seek (s : Fs) (dir : ℕ) (o o' : ℤ) : (s.seek dir o).seek dir o' = s.seek dir o' := by
  simp [Fs.seek, Fs.setFd, FileState.setFd]

theorem seek_entry (s : Fs) (dir : ℕ) (o : ℤ) : Entry (s.seek dir o) d ino ↔ Entry s d ino := Iff.rfl

/-- One round of the loop. -/
theorem readdirLoop_succ (ho : (s.files.fd dir).ofs = ino) (hlt : ino < intMax) :
    readdirLoop dir (n + 1) s = if ino < fileInodes then
      if Entry s (s.files.fd dir).ino ino then .ok (some ino, s.seek dir (ino + 1))
      else readdirLoop dir n (s.seek dir (ino + 1)) else .ok (none, s.seek dir (ino + 1)) := by
  subst ho
  have hseek : (s.setFd dir fun x => { x with ofs := (s.files.fd dir).ofs + 1 }) =
      s.seek dir ((s.files.fd dir).ofs + 1) := rfl
  rw [readdirLoop]
  simp only [hseek, seek_fi, seek_exist, seek_fd]
  rw [require_bind hlt]
  by_cases he : Entry s (s.files.fd dir).ino (s.files.fd dir).ofs
  · rw [if_pos he, if_neg (not_or.2 ⟨not_not.2 he.1, not_not.2 he.2⟩)]
    rfl
  · rw [if_neg he, if_pos (not_and_or.1 he)]
    rfl

theorem readdirLoop_found (ho : (s.files.fd dir).ofs < intMax) (hn : (fileInodes - (s.files.fd dir).ofs).toNat < n) :
    ∃ r o', readdirLoop dir n s = .ok (r, s.seek dir o') ∧ Found s (s.files.fd dir).ino (s.files.fd dir).ofs r o' := by
  induction n generalizing s with
  | zero => omega
  | succ n ih =>
    have hmax : fileInodes < intMax := by decide
    obtain ⟨ino, hi⟩ : ∃ ino, (s.files.fd dir).ofs = ino := ⟨_, rfl⟩
    rw [readdirLoop_succ hi (by omega), hi]
    by_cases hlt : ino < fileInodes
    · rw [if_pos hlt]
      by_cases he : Entry s (s.files.fd dir).ino ino
      · rw [if_pos he]
        refine ⟨some ino, ino + 1, rfl, by omega, fun i h => ?_, by simp, fun i h₁ h₂ hr => ?_⟩
        · obtain rfl := Option.some.inj h
          exact ⟨he, le_rfl, rfl⟩
        · obtain rfl : i = ino := by omega
          exact absurd rfl hr
      · rw [if_neg he]
        have hofs : ((s.seek dir (ino + 1)).files.fd dir).ofs = ino + 1 := by rw [seek_fd]
        obtain ⟨r, o', hr, hf⟩ := ih (s := s.seek dir (ino + 1)) (by rw [hofs]; omega) (by rw [hofs]; omega)
        rw [seek_seek] at hr
        rw [hofs, seek_fd] at hf
        exact ⟨r, o', hr, .next he ⟨hf.lt, hf.some, hf.none, hf.skipped⟩⟩
    · rw [if_neg hlt]
      refine ⟨none, ino + 1, rfl, by omega, by simp, fun _ => by omega, fun i h₁ h₂ _ h => ?_⟩
      have := h.valid
      omega

theorem readdir_found (hopen : s.files.isopen dir) (ho : (s.files.fd dir).ofs < intMax) :
    ∃ r o', readdir s dir = .ok (r, s.seek dir o') ∧ Found s (s.files.fd dir).ino (s.files.fd dir).ofs r o' := by
  rw [readdir, require_bind hopen]
  exact readdirLoop_found ho (Nat.lt_succ_self _)

/-- A call that returns has not overflowed. -/
theorem readdirLoop_ofs (h : readdirLoop dir n s = .ok (r, s')) : (s.files.fd dir).ofs < intMax := by
  cases n with
  | zero => simp [readdirLoop] at h
  | succ n =>
    rw [readdirLoop] at h
    simp only [require_bind_ok] at h
    exact h.1

/-- A directory is read, and in between the process does whatever it likes but use the descriptor. The log has the calls
that have been made: the files before the call, and what it has returned. -/
inductive Scans (dir : ℕ) (d : ℤ) : List (Fs × Option ℤ) → Fs → Prop
  | opened {s s' : Fs} {path : List UInt8} :
      opendir s path = .ok (.ok dir, s') → (s'.files.fd dir).ino = d → Scans dir d [] s'
  | rewound {s : Fs} : s.files.isopen dir → (s.files.fd dir).ino = d → Scans dir d [] (rewinddir s dir)
  | read {log : List (Fs × Option ℤ)} {s s' : Fs} {r : Option ℤ} :
      Scans dir d log s → readdir s dir = .ok (r, s') → Scans dir d (log ++ [(s, r)]) s'
  | other {log : List (Fs × Option ℤ)} {s s' : Fs} :
      Scans dir d log s → s'.files.fd dir = s.files.fd dir → Scans dir d log s'

/-- A file that is opened, and not for appending, is read from the start. -/
theorem filedescOpenAt_start {fd fd' : ℕ} {path : List UInt8} {openflags mode : BitVec 32}
    (hflags : openflags &&& oAppend = 0) (h : filedescOpenAt s fd path openflags mode = .ok (.ok fd', s')) :
    (s'.files.fd fd').ofs = 0 := by
  unfold filedescOpenAt at h
  rw [require_bind_ok, bind_ok] at h
  obtain ⟨-, ⟨r, t⟩, -, h⟩ := h
  cases r with
  | error e => cases h
  | ok ino =>
    simp only at h
    rw [require_bind_ok] at h
    replace h := h.2
    split at h
    case isTrue => cases h
    split at h
    case isTrue => cases h
    split at h
    · rw [bind_ok] at h
      obtain ⟨u, -, h⟩ := h
      rw [require_bind_ok] at h
      cases h.2
      simp [Fs.setFd, FileState.setFd, hflags]
    · rw [pure_bind, require_bind_ok] at h
      cases h.2
      simp [Fs.setFd, FileState.setFd, hflags]

/-- A directory that is opened is read from the start. -/
theorem opendir_start {path : List UInt8} (h : opendir s path = .ok (.ok dir, s')) :
    s'.files.isopen dir ∧ (s'.files.fd dir).ofs = 0 := by
  have hopen : filedescOpen s none path oRdonly 0 = .ok (.ok dir, s') := by
    unfold opendir at h
    rw [bind_ok] at h
    obtain ⟨⟨r, t⟩, hopen, h⟩ := h
    have hr : r = .ok dir ∧ t = s' := by
      cases r with
      | error e => simp [pure_ok] at h
      | ok fd =>
        simp only [require_bind_ok] at h
        replace h := h.2
        split at h
        · rw [bind_ok] at h
          obtain ⟨u, -, h⟩ := h
          simp [pure_ok] at h
        · simpa [pure_ok] using h
    obtain ⟨rfl, rfl⟩ := hr
    cases hf : filedescOpen s none path oRdonly 0 with
    | error w =>
      rw [hf] at hopen
      cases hopen
    | ok a =>
      rw [hf] at hopen
      cases hopen
      rfl
  refine ⟨(filedescOpen_ok hopen).1, ?_⟩
  unfold filedescOpen at hopen
  simp only at hopen
  split at hopen
  · cases hopen
  · exact filedescOpenAt_start (by decide) hopen

/-- A scan so far: where it is, and what it has listed. -/
structure Scanned (dir : ℕ) (d : ℤ) (log : List (Fs × Option ℤ)) (s : Fs) : Prop where
  isopen : s.files.isopen dir
  ino : (s.files.fd dir).ino = d
  nonneg : 0 ≤ (s.files.fd dir).ofs
  sorted : (log.filterMap (·.2)).Pairwise (· < ·)
  entry : ∀ t ino, (t, some ino) ∈ log → Entry t d ino ∧ ino < (s.files.fd dir).ofs
  passed : ∀ ino, 0 ≤ ino → ino < (s.files.fd dir).ofs →
    (∃ t, (t, some ino) ∈ log) ∨ ∃ t r, (t, r) ∈ log ∧ ¬Entry t d ino
  ended : ∀ t, (t, none) ∈ log → fileInodes < (s.files.fd dir).ofs

theorem Scanned.start (hopen : s.files.isopen dir) (hino : (s.files.fd dir).ino = d) (hofs : (s.files.fd dir).ofs = 0) :
    Scanned dir d [] s where
  isopen := hopen
  ino := hino
  nonneg := hofs.ge
  sorted := .nil
  entry t ino h := absurd h List.not_mem_nil
  passed ino h h' := by omega
  ended t h := absurd h List.not_mem_nil

/-- One call. -/
theorem Scanned.read {o' : ℤ} (h : Scanned dir d log s) (hf : Found s d (s.files.fd dir).ofs r o') :
    Scanned dir d (log ++ [(s, r)]) (s.seek dir o') := by
  have hlt := hf.lt
  have hofs : ((s.seek dir o').files.fd dir).ofs = o' := by rw [seek_fd]
  constructor
  · have hopen := h.isopen
    unfold FileState.isopen at hopen ⊢
    rw [seek_fd]
    exact hopen
  · rw [seek_fd]
    exact h.ino
  · rw [hofs]
    have := h.nonneg
    omega
  · rw [List.filterMap_append, List.pairwise_append]
    refine ⟨h.sorted, ?_, fun i hi j hj => ?_⟩
    · cases r with
      | none => exact .nil
      | some j => exact List.pairwise_singleton _ _
    · obtain ⟨⟨t, r'⟩, ht, rfl⟩ := List.mem_filterMap.1 hi
      cases r with
      | none => cases hj
      | some k =>
        obtain rfl : j = k := by simpa using hj
        have hle := (hf.some j rfl).2.1
        have := (h.entry t i ht).2
        omega
  · intro t ino ht
    rw [hofs]
    rcases List.mem_append.1 ht with ht | ht
    · obtain ⟨he, hi⟩ := h.entry t ino ht
      exact ⟨he, by omega⟩
    · obtain ⟨rfl, rfl⟩ : t = s ∧ some ino = r := by simpa using ht
      obtain ⟨he, -, ho⟩ := hf.some ino rfl
      exact ⟨he, by omega⟩
  · intro ino h₀ hi
    rw [hofs] at hi
    by_cases hnew : ino < (s.files.fd dir).ofs
    · rcases h.passed ino h₀ hnew with ⟨t, ht⟩ | ⟨t, r', ht, he⟩
      · exact .inl ⟨t, List.mem_append_left _ ht⟩
      · exact .inr ⟨t, r', List.mem_append_left _ ht, he⟩
    · by_cases hr : r = some ino
      · exact .inl ⟨s, by rw [hr]; exact List.mem_append_right _ List.mem_cons_self⟩
      · exact .inr ⟨s, r, List.mem_append_right _ List.mem_cons_self, hf.skipped ino (by omega) hi hr⟩
  · intro t ht
    rw [hofs]
    rcases List.mem_append.1 ht with ht | ht
    · have := h.ended t ht
      omega
    · obtain ⟨rfl, rfl⟩ : t = s ∧ none = r := by simpa using ht
      exact hf.none rfl

theorem Scans.scanned (h : Scans dir d log s) : Scanned dir d log s := by
  induction h with
  | opened hopen hino =>
    obtain ⟨hisopen, hofs⟩ := opendir_start hopen
    exact .start hisopen hino hofs
  | @rewound s hopen hino =>
    have hseek : rewinddir s dir = s.seek dir 0 := rfl
    rw [hseek]
    refine .start ?_ ?_ ?_
    · unfold FileState.isopen at hopen ⊢
      rw [seek_fd]
      exact hopen
    · rw [seek_fd]
      exact hino
    · rw [seek_fd]
  | @read log s s' r _ hread ih =>
    have hlt : (s.files.fd dir).ofs < intMax := by
      rw [readdir, require_bind ih.isopen] at hread
      exact readdirLoop_ofs hread
    obtain ⟨r', o', hr, hf⟩ := readdir_found ih.isopen hlt
    rw [hr, Except.ok.injEq, Prod.mk.injEq] at hread
    obtain ⟨rfl, rfl⟩ := hread
    rw [ih.ino] at hf
    exact ih.read hf
  | @other log s s' _ hfd ih =>
    have hopen := ih.isopen
    unfold FileState.isopen at hopen
    constructor
    · unfold FileState.isopen
      rw [hfd]
      exact hopen
    · rw [hfd]
      exact ih.ino
    · rw [hfd]
      exact ih.nonneg
    · exact ih.sorted
    · rw [hfd]
      exact ih.entry
    · rw [hfd]
      exact ih.passed
    · rw [hfd]
      exact ih.ended

/-- **A scan of a directory** lists entries, and none twice. When `readdir` has returned `NULL`, everything has been listed
that was an entry at every call. And the next call returns, unless the offset is at the end of its type. -/
theorem readdir_lists (h : Scans dir d log s) :
    (log.filterMap (·.2)).Pairwise (· < ·) ∧
    (∀ t ino, (t, some ino) ∈ log → Entry t d ino) ∧
    (∀ t, (t, none) ∈ log → ∀ ino, (∀ t r, (t, r) ∈ log → Entry t d ino) → ∃ t, (t, some ino) ∈ log) ∧
    ((s.files.fd dir).ofs < intMax → ∃ r s', readdir s dir = .ok (r, s')) := by
  have hs := h.scanned
  refine ⟨hs.sorted, fun t ino ht => (hs.entry t ino ht).1, fun t ht ino hall => ?_, fun hlt => ?_⟩
  · have hend := hs.ended t ht
    have hvalid := (hall t none ht).valid
    rcases hs.passed ino (by omega) (by omega) with hlisted | ⟨t', r, ht', he⟩
    · exact hlisted
    · exact absurd (hall t' r ht') he
  · obtain ⟨r, o', hr, -⟩ := readdir_found hs.isopen hlt
    exact ⟨r, _, hr⟩

/-- The files of a process whose root directory has one file. -/
def sampleFs : Fs where
  files :=
    { cwd := 3, exited := false, status := 0, fd := fun _ => ⟨0, 0, 0, .none⟩,
      fi := fun i => if i = 3 then ⟨3, [slash], 0, sIfdir, 0, 0, 0, 0⟩ else if i = 5 then ⟨3, [97], 0, sIfreg, 0, 0, 0, 0⟩
        else .zero,
      child := fun _ => .free }
  data := fun _ _ => 0

/-- The root directory has been opened. -/
def sampleDir : Fs := sampleFs.setFd 0 fun _ => ⟨3, oRdonly, 0, .none⟩

/-- Another file is created. -/
def sampleCreate (s : Fs) : Fs := s.setFi 4 fun _ => ⟨3, [98], 0, sIfreg, 0, 0, 0, 0⟩

theorem sampleDir_scans : Scans 0 3 [(sampleDir, some 3), (sampleCreate (sampleDir.seek 0 4), some 4)]
    ((sampleCreate (sampleDir.seek 0 4)).seek 0 5) := by
  have hopen : opendir sampleFs [slash] = .ok (.ok 0, sampleDir) := rfl
  have hfirst : readdir sampleDir 0 = .ok (some 3, (((sampleDir.seek 0 1).seek 0 2).seek 0 3).seek 0 4) := rfl
  rw [seek_seek, seek_seek, seek_seek] at hfirst
  have hsecond : readdir (sampleCreate (sampleDir.seek 0 4)) 0 =
    .ok (some 4, (sampleCreate (sampleDir.seek 0 4)).seek 0 5) := rfl
  have hcreate : Scans 0 3 [(sampleDir, some 3)] (sampleCreate (sampleDir.seek 0 4)) :=
    .other (.read (.opened hopen rfl) hfirst) rfl
  exact hcreate.read hsecond

/-- A file is created between two calls. -/
theorem readdir_lists_sample : ∃ log s, Scans 0 3 log s ∧ log.filterMap (·.2) = [3, 4] ∧
    (log.filterMap (·.2)).Pairwise (· < ·) ∧
    (∀ t ino, (t, some ino) ∈ log → Entry t 3 ino) ∧
    (∀ t, (t, none) ∈ log → ∀ ino, (∀ t r, (t, r) ∈ log → Entry t 3 ino) → ∃ t, (t, some ino) ∈ log) ∧
    ((s.files.fd 0).ofs < intMax → ∃ r s', readdir s 0 = .ok (r, s')) :=
  ⟨_, _, sampleDir_scans, rfl, readdir_lists sampleDir_scans⟩

end Determinator.File
