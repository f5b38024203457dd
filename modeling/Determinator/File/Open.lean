import Determinator.File.Paths

/-!
# Opening a file

A call of `filedesc_open` that returns `NULL` leaves the files as they were, unless it finds out
only after the walk that it cannot truncate: then the walk may have made the file.
-/

namespace Determinator.File

/-- There is a descriptor to open the file on: the given one, or one that is not in use. -/
def Ready (f : FileState) : Option ℕ → Prop
  | some fd => (f.fd fd).ino = 0
  | none => ∃ fd < openMax, (f.fd fd).ino = 0

/-- A walk with a `createmode` makes a file at this target: it revives it, or the name is not too
long and there is a free inode. -/
def Target.Makes (f : FileState) : Target → Prop
  | .deleted ino => (f.fi ino).ver < intMax
  | .missing _ name =>
    name.length ≤ nameMax ∧ ∃ i : ℤ, fileinoGeneral ≤ i ∧ i < fileInodes ∧ (f.fi i).name = []
  | _ => False

/-- The file is to be created and to be truncated but not to be written, and it does not exist and
can be made. -/
structure Leaves (f : FileState) (fd : Option ℕ) (path : List UInt8) (openflags : BitVec 32) :
    Prop where
  ready : Ready f fd
  creat : openflags &&& oCreat ≠ 0
  trunc : openflags &&& oTrunc ≠ 0
  rdonly : openflags &&& oWronly = 0
  makes : ∃ t, target f path = .ok t ∧ t.Makes f

/-- The inodes, the descriptors and the bytes of all files are what they were. -/
structure Unchanged (s s' : Fs) : Prop where
  fi : s'.files.fi = s.files.fi
  fd : s'.files.fd = s.files.fd
  data : s'.data = s.data

/-- The mode of a file that `filedesc_open` creates. -/
def createmode (openflags mode : BitVec 32) : BitVec 32 :=
  if openflags &&& oCreat ≠ 0 then sIfreg ||| (mode &&& 0x1ff) else 0

section openAt

variable {s s' : Fs} {fd : ℕ} {path : List UInt8} {openflags mode : BitVec 32} {e : Errno}
  {ino : ℤ} {t : Target} {r : Except Errno ℤ}

theorem createmode_ne_zero (h : openflags &&& oCreat ≠ 0) : createmode openflags mode ≠ 0 := by
  unfold createmode
  rw [if_pos h]
  intro h0
  have : (sIfreg ||| (mode &&& 0x1ff)) &&& sIfreg = sIfreg := by
    ext i hi
    simp only [BitVec.getElem_and, BitVec.getElem_or]
    cases sIfreg[i] <;> simp
  rw [h0] at this
  exact absurd this (by decide)

/-- A file that was just created has no conflict. -/
theorem createmode_and_conf : createmode openflags mode &&& sIfconf = 0 := by
  unfold createmode
  split
  · have hreg : sIfreg &&& sIfconf = 0 := by decide
    have hperm : 0x1ff &&& sIfconf = 0 := by decide
    rw [BitVec.and_or_distrib_right, BitVec.and_assoc, hreg, hperm]
    simp
  · rfl

/-- Where `filedesc_open` fails on a descriptor, the walk has failed or the file is refused. -/
theorem filedescOpenAt_error (h : filedescOpenAt s fd path openflags mode = .ok (.error e, s')) :
    (s.files.fd fd).ino = 0 ∧
      ∃ r, dirWalk s path (createmode openflags mode) = .ok (r, s') ∧
        ∀ ino, r = .ok ino → (s'.files.fi ino).mode &&& sIfconf ≠ 0 ∨
          openflags &&& oTrunc ≠ 0 ∧ openflags &&& oWronly = 0 := by
  unfold filedescOpenAt at h
  rw [require_bind_ok] at h
  obtain ⟨hfd, h⟩ := h
  refine ⟨hfd, ?_⟩
  rw [bind_ok] at h
  obtain ⟨⟨r, t⟩, hw, h⟩ := h
  cases r with
  | error e' =>
    cases h
    exact ⟨_, hw, fun _ h => by cases h⟩
  | ok ino =>
    simp only at h
    rw [require_bind_ok] at h
    obtain ⟨hex, h⟩ := h
    split at h
    case isTrue hconf =>
      cases h
      exact ⟨_, hw, fun _ h => .inl (by cases h; exact hconf)⟩
    case isFalse =>
      split at h
      case isTrue htrunc =>
        cases h
        exact ⟨_, hw, fun _ h => .inr htrunc⟩
      case isFalse =>
        split at h
        · rw [bind_ok] at h
          obtain ⟨u, -, h⟩ := h
          rw [require_bind_ok] at h
          cases h.2
        · rw [pure_bind, require_bind_ok] at h
          cases h.2

/-- A descriptor that `filedesc_open` returns is open, on an inode of the table. -/
theorem filedescOpenAt_ok {fd' : ℕ} (h : filedescOpenAt s fd path openflags mode = .ok (.ok fd', s')) :
    s'.files.isopen fd' ∧ fileinoIsvalid (s'.files.fd fd').ino := by
  unfold filedescOpenAt at h
  rw [require_bind_ok] at h
  obtain ⟨-, h⟩ := h
  rw [bind_ok] at h
  obtain ⟨⟨r, t⟩, -, h⟩ := h
  cases r with
  | error e => cases h
  | ok ino =>
    simp only at h
    rw [require_bind_ok] at h
    obtain ⟨hex, h⟩ := h
    split at h
    case isTrue => cases h
    split at h
    case isTrue => cases h
    -- the descriptor is set and checked, whether the file is truncated or not
    have hset : ∀ (u : Fs) (ofs : ℤ), (u.setFd fd fun _ => ⟨ino, openflags, ofs, .none⟩) = s' →
        s'.files.isopen fd → s'.files.isopen fd ∧ fileinoIsvalid (s'.files.fd fd).ino := by
      intro u ofs hu hopen
      have hino : (s'.files.fd fd).ino = ino := by
        rw [← hu]
        simp [Fs.setFd, FileState.setFd]
      rw [hino]
      exact ⟨hopen, hex.1.1⟩
    split at h
    · rw [bind_ok] at h
      obtain ⟨u, -, h⟩ := h
      rw [require_bind_ok] at h
      obtain ⟨hopen, h⟩ := h
      cases h
      exact hset u _ rfl hopen
    · rw [pure_bind, require_bind_ok] at h
      obtain ⟨hopen, h⟩ := h
      cases h
      exact hset t _ rfl hopen

theorem filedescOpen_ok {fd : Option ℕ} {fd' : ℕ}
    (h : filedescOpen s fd path openflags mode = .ok (.ok fd', s')) :
    s'.files.isopen fd' ∧ fileinoIsvalid (s'.files.fd fd').ino := by
  unfold filedescOpen at h
  split at h
  · exact filedescOpenAt_ok h
  · split at h
    · cases h
    · exact filedescOpenAt_ok h

/-- Where the walk returns an inode, `filedesc_open` refuses it if the flags say so. -/
theorem filedescOpenAt_refused (hfd : (s.files.fd fd).ino = 0)
    (hw : dirWalk s path (createmode openflags mode) = .ok (.ok ino, s'))
    (hex : s'.files.exist ino) (ht : openflags &&& oTrunc ≠ 0) (hr : openflags &&& oWronly = 0) :
    ∃ e, filedescOpenAt s fd path openflags mode = .ok (.error e, s') := by
  unfold filedescOpenAt
  rw [require_bind hfd]
  unfold createmode at hw
  simp only
  rw [hw, ok_bind]
  simp only
  rw [require_bind hex]
  by_cases hc : (s'.files.fi ino).mode &&& sIfconf ≠ 0
  · rw [if_pos hc]
    exact ⟨_, rfl⟩
  · rw [if_neg hc, if_pos ⟨ht, hr⟩]
    exact ⟨_, rfl⟩

/-- Only a walk that makes a file changes anything, and then the flags said so, the file did not
exist and it has the mode it was given. -/
theorem Reached.unchanged_or (h : Reached s (createmode openflags mode) t r s')
    (hs : t.Sound s.files) :
    s' = s ∧ ¬ (t.Makes s.files ∧ openflags &&& oCreat ≠ 0) ∨
      t.Makes s.files ∧ openflags &&& oCreat ≠ 0 ∧ ∃ ino, r = .ok ino ∧ s'.files.exist ino ∧ (s'.files.fi ino).mode = createmode openflags mode ∧
      s'.files.fi ino ≠ s.files.fi ino := by
  have hcreat : createmode openflags mode ≠ 0 → openflags &&& oCreat ≠ 0 := by
    unfold createmode
    split <;> simp_all
  cases h with
  | found | lost | notdir => exact .inl ⟨rfl, fun h => h.1⟩
  | gone _ h0 | absent _ _ h0 => exact .inl ⟨rfl, fun h => createmode_ne_zero h.2 h0⟩
  | tooLong _ _ _ hl => exact .inl ⟨rfl, fun h => absurd hl (not_lt.2 h.1.1)⟩
  | full _ _ _ _ hf =>
    refine .inl ⟨rfl, ?_⟩
    rintro ⟨⟨-, i, hlo, hhi, hname⟩, -⟩
    exact (hf i hlo hhi).2 hname
  | revived ino hc hv =>
    obtain ⟨ha, he⟩ := hs
    have h0 : (s.files.fi ino).mode = 0 := by
      by_contra h0
      exact he ⟨ha, h0⟩
    refine .inr ⟨hv, hcreat hc, ino, rfl, ?_⟩
    unfold FileState.exist FileState.alloced
    rw [Fs.setFi_files, FileState.setFi_fi_same]
    refine ⟨⟨ha, hc⟩, rfl, ?_⟩
    intro h
    rw [← h] at h0
    exact hc h0
  | created dino name ino hc hl hlo hhi hf =>
    obtain ⟨-, hne, -, -⟩ := hs
    have hvalid : fileinoIsvalid ino := by
      refine ⟨?_, hhi⟩
      have : (0 : ℤ) < fileinoGeneral := by decide
      omega
    have hname : (s.files.fi ino).name = [] := by
      by_contra h
      exact hf ⟨hvalid, h⟩
    refine .inr ⟨⟨hl, ino, hlo, hhi, hname⟩, hcreat hc, ino, rfl, ?_⟩
    unfold FileState.exist FileState.alloced
    rw [Fs.setFi_files, FileState.setFi_fi_same]
    refine ⟨⟨⟨hvalid, hne⟩, hc⟩, rfl, ?_⟩
    intro h
    rw [← h] at hname
    exact hne hname

/-- A walk that can make a file with a `createmode` does. -/
theorem Target.Makes.reach_ok (mode : BitVec 32) (h : t.Makes s.files) (hs : t.Sound s.files)
    (hc : openflags &&& oCreat ≠ 0) :
    ∃ ino s', t.reach s (createmode openflags mode) = .ok (.ok ino, s') ∧ s'.files.exist ino ∧
      s'.files.fi ino ≠ s.files.fi ino := by
  have hv : ∀ ino, t = .deleted ino → createmode openflags mode ≠ 0 →
      (s.files.fi ino).ver < intMax := by
    rintro ino rfl _
    exact h
  obtain ⟨r, s', hr, hreached⟩ := hs.reach_ok hv
  obtain ⟨-, hn⟩ | ⟨-, -, ino, rfl, hex, -, hne⟩ := hreached.unchanged_or hs
  · exact absurd ⟨h, hc⟩ hn
  · exact ⟨ino, s', hr, hex, hne⟩

end openAt

section openFile

variable {s s' : Fs} {fd : Option ℕ} {path : List UInt8} {openflags mode : BitVec 32} {e : Errno}

theorem filedescAlloc_ok_iff {f : FileState} : (∃ fd, filedescAlloc f = .ok fd) ↔ Ready f none := by
  unfold filedescAlloc Ready
  constructor
  · rintro ⟨fd, h⟩
    split at h
    case h_2 => cases h
    case h_1 i hi =>
      have hm := List.mem_range.1 (List.mem_of_find?_eq_some hi)
      exact ⟨i, hm, by simpa using List.find?_some hi⟩
  · rintro ⟨fd, hlt, h0⟩
    cases hf : (List.range openMax).find? fun i => (f.fd i).ino == 0 with
    | some i => exact ⟨i, rfl⟩
    | none =>
      have := List.find?_eq_none.1 hf fd (List.mem_range.2 hlt)
      simp [h0] at this

theorem filedescAlloc_ok {f : FileState} {fd : ℕ} (h : filedescAlloc f = .ok fd) :
    (f.fd fd).ino = 0 := by
  unfold filedescAlloc at h
  split at h
  case h_2 => cases h
  case h_1 i hi =>
    cases h
    simpa using List.find?_some hi

/-- A failed open changes nothing, unless the walk made a file. -/
theorem filedescOpen_error (hl : ¬ Leaves s.files fd path openflags)
    (h : filedescOpen s fd path openflags mode = .ok (.error e, s')) : s' = s := by
  have hat : ∀ fd', Ready s.files fd →
      filedescOpenAt s fd' path openflags mode = .ok (.error e, s') → s' = s := by
    intro fd' hready h
    obtain ⟨-, r, hw, hr⟩ := filedescOpenAt_error h
    rw [dirWalk_eq, bind_ok] at hw
    obtain ⟨t, ht, hw⟩ := hw
    have hs := target_sound ht
    obtain ⟨heq, -⟩ | ⟨hm, hc, ino, rfl, hex, hmode, hne⟩ := (hs.reached hw).unchanged_or hs
    · exact heq
    · obtain hconf | ⟨htr, hrd⟩ := hr ino rfl
      · rw [hmode, createmode_and_conf] at hconf
        exact absurd rfl hconf
      · exact absurd ⟨hready, hc, htr, hrd, t, ht, hm⟩ hl
  unfold filedescOpen at h
  cases fd with
  | some fd => exact hat fd (filedescOpenAt_error h).1 h
  | none =>
    simp only at h
    split at h
    case h_1 =>
      cases h
      rfl
    case h_2 fd' hfd => exact hat fd' (filedescAlloc_ok_iff.1 ⟨fd', hfd⟩) h

/-- An open that fails after the walk has made a file leaves the file there. -/
theorem Leaves.filedescOpen (mode : BitVec 32) (h : Leaves s.files fd path openflags) :
    ∃ e s', filedescOpen s fd path openflags mode = .ok (.error e, s') ∧
      s'.files.fi ≠ s.files.fi := by
  obtain ⟨t, ht, hm⟩ := h.makes
  obtain ⟨ino, s', hw, hex, hne⟩ := hm.reach_ok mode (target_sound ht) h.creat
  have hat : ∀ fd', (s.files.fd fd').ino = 0 →
      ∃ e, filedescOpenAt s fd' path openflags mode = .ok (.error e, s') := by
    intro fd' hfd
    apply filedescOpenAt_refused hfd _ hex h.trunc h.rdonly
    rw [dirWalk_eq, ht]
    exact hw
  have hfi : s'.files.fi ≠ s.files.fi := fun heq => hne (congrFun heq ino)
  unfold File.filedescOpen
  cases fd with
  | some fd =>
    obtain ⟨e, he⟩ := hat fd h.ready
    exact ⟨e, s', he, hfi⟩
  | none =>
    obtain ⟨fd', hfd⟩ := filedescAlloc_ok_iff.2 h.ready
    obtain ⟨e, he⟩ := hat fd' (filedescAlloc_ok hfd)
    simp only [hfd]
    exact ⟨e, s', he, hfi⟩

/-- A failed open changes nothing exactly when it is not one that was to create and truncate a file
without writing to it, of a file that does not exist and can be made. -/
theorem filedescOpen_unchanged_iff (s : Fs) (fd : Option ℕ) (path : List UInt8)
    (openflags mode : BitVec 32) :
    (∀ e s', filedescOpen s fd path openflags mode = .ok (.error e, s') → Unchanged s s') ↔
      ¬ Leaves s.files fd path openflags := by
  constructor
  · intro h hl
    obtain ⟨e, s', ho, hne⟩ := hl.filedescOpen mode
    exact hne (h e s' ho).fi
  · intro hl e s' h
    rw [filedescOpen_error hl h]
    exact ⟨rfl, rfl, rfl⟩

/-- Opening `/a` with `O_CREAT | O_TRUNC` fails for want of `O_WRONLY`, and creates `/a`. -/
theorem filedescOpen_creates :
    ∃ s', filedescOpen (rootAnd [slash] 3 .zero) none [slash, 97] (oRdonly ||| oCreat ||| oTrunc) 0 =
        .ok (.error .einval, s') ∧
      (rootAnd [slash] 3 .zero).files.fi 4 = .zero ∧
      s'.files.fi 4 = ⟨3, [97], 0, sIfreg, 0, 0, 0, 0⟩ :=
  ⟨_, rfl, rfl, rfl⟩

end openFile

end Determinator.File
