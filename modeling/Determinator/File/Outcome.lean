import Determinator.User.Fork

/-!
# What becomes of a pair of files

The outcome of `reconcile_inode` for two corresponding regular files, and when it is the right one.
The bytes of a file move in copies of `PTSIZE`, half of what a file may hold, so a file comes out
right exactly when every byte that has to move lies in the first half of the file's area or
is already where it should go.
-/

namespace Determinator.File

/-! ## Conversions -/

theorem fileMaxsize_eq : fileMaxsize = 4194304 := rfl

theorem ptsize_eq : ptsize = 2097152 := rfl

theorem toInt_eq {x : ℤ} (h : -(2 ^ 31) ≤ x) (h' : x < 2 ^ 31) : toInt x = x := by
  unfold toInt
  apply Int.bmod_eq_of_le <;> omega

theorem toSize_natCast {n : ℕ} (h : n < 2 ^ 64) : toSize n = n := by
  unfold toSize
  omega

/-! ## Changes of inodes -/

section setters

variable {f : FileState} {s : Sync} {t : Fs} {ino i pino cino : ℤ} {g h : FileInode → FileInode}
  {w : (ℕ → UInt8) → ℕ → UInt8}

@[simp] theorem FileState.setFi_fi_same : (f.setFi ino g).fi ino = g (f.fi ino) := by
  simp [FileState.setFi]

theorem FileState.setFi_fi_ne (hi : i ≠ ino) : (f.setFi ino g).fi i = f.fi i := by
  simp [FileState.setFi, hi]

@[simp] theorem Fs.setFi_files : (t.setFi ino g).files = t.files.setFi ino g := rfl

@[simp] theorem Fs.setFi_data : (t.setFi ino g).data = t.data := rfl

@[simp] theorem Fs.setData_files : (t.setData ino w).files = t.files := rfl

@[simp] theorem Fs.setData_data_same : (t.setData ino w).data ino = w (t.data ino) := by
  simp [Fs.setData]

theorem Fs.setData_data_ne (hi : i ≠ ino) : (t.setData ino w).data i = t.data i := by
  simp [Fs.setData, hi]

@[simp] theorem Sync.setFi_parent : (s.setFi pino cino g h).parent = s.parent.setFi pino g := rfl

@[simp] theorem Sync.setFi_child : (s.setFi pino cino g h).child = s.child.setFi cino h := rfl

@[simp] theorem FileState.setFi_id : f.setFi ino id = f := by
  simp [FileState.setFi]

@[simp] theorem Fs.setFi_id : t.setFi ino id = t := by
  simp [Fs.setFi]

end setters

/-! ## Strings of bytes -/

/-- The `n` bytes from `o` on. -/
def bytes (d : ℕ → UInt8) (o n : ℕ) : List UInt8 := (List.range n).map fun k => d (o + k)

theorem bytes_eq_iff {d e : ℕ → UInt8} {o o' n : ℕ} :
    bytes d o n = bytes e o' n ↔ ∀ k < n, d (o + k) = e (o' + k) := by
  unfold bytes
  rw [List.map_inj_left]
  simp only [List.mem_range]

theorem bytes_add (d : ℕ → UInt8) (o m n : ℕ) :
    bytes d o (m + n) = bytes d o m ++ bytes d (o + m) n := by
  unfold bytes
  rw [List.range_add, List.map_append, List.map_map]
  simp only [Function.comp_def, Nat.add_assoc]

@[simp] theorem length_bytes (d : ℕ → UInt8) (o n : ℕ) : (bytes d o n).length = n := by
  simp [bytes]

/-! ## The pair -/

section pair

variable (s : Sync) (pino cino : ℤ)

/-- An inode has changed since the child's reference point `r`. -/
def Changed (r x : FileInode) : Prop := r.rver < x.ver ∨ r.rlen < x.size

/-- Neither inode has a new version since the last reconciliation. -/
def Level (p c : FileInode) : Prop := p.ver = c.rver ∧ c.ver = c.rver

/-- The length of a file with what both sides have appended. -/
def mergedLen (p c : FileInode) : ℕ := p.size + c.size - c.rlen

/-- A pair of corresponding regular files: neither version is below the reference version, and
while both are at that version the modes and the first `rlen` bytes agree. -/
structure Corresponding : Prop where
  pvalid : fileinoIsvalid pino
  cvalid : fileinoIsvalid cino
  preg : sIsreg (s.pfi pino).mode = true
  creg : sIsreg (s.cfi cino).mode = true
  prver : (s.cfi cino).rver ≤ (s.pfi pino).ver
  crver : (s.cfi cino).rver ≤ (s.cfi cino).ver
  mode : Level (s.pfi pino) (s.cfi cino) → (s.pfi pino).mode = (s.cfi cino).mode
  bytes : Level (s.pfi pino) (s.cfi cino) →
    bytes (s.pdata pino) 0 (s.cfi cino).rlen = bytes (s.cdata cino) 0 (s.cfi cino).rlen
  psize : (s.pfi pino).size ≤ fileMaxsize
  csize : (s.cfi cino).size ≤ fileMaxsize
  rlen : (s.cfi cino).rlen ≤ fileMaxsize

variable (s' : Sync)

/-- Both sides have the version, the mode, the size and the bytes of the file `x`, `d`. -/
structure Carried (x : FileInode) (d : ℕ → UInt8) : Prop where
  pver : (s'.pfi pino).ver = x.ver
  pmode : (s'.pfi pino).mode = x.mode
  psize : (s'.pfi pino).size = x.size
  pbytes : bytes (s'.pdata pino) 0 x.size = bytes d 0 x.size
  cver : (s'.cfi cino).ver = x.ver
  cmode : (s'.cfi cino).mode = x.mode
  csize : (s'.cfi cino).size = x.size
  cbytes : bytes (s'.cdata cino) 0 x.size = bytes d 0 x.size

/-- The parent had `R ++ P` and the child `R ++ C`; now the parent has `R ++ P ++ C`, the child
`R ++ C ++ P`, and this is the reference length. -/
structure Merged (R P C : List UInt8) : Prop where
  psize : (s'.pfi pino).size = (R ++ P ++ C).length
  csize : (s'.cfi cino).size = (R ++ P ++ C).length
  rlen : (s'.cfi cino).rlen = (R ++ P ++ C).length
  pbytes : bytes (s'.pdata pino) 0 (s'.pfi pino).size = R ++ P ++ C
  cbytes : bytes (s'.cdata cino) 0 (s'.cfi cino).size = R ++ C ++ P

/-- Both sides are marked, and have the sizes and the bytes they had. -/
structure Conflicted : Prop where
  pmode : (s'.pfi pino).mode = (s.pfi pino).mode ||| sIfconf
  cmode : (s'.cfi cino).mode = (s.cfi cino).mode ||| sIfconf
  psize : (s'.pfi pino).size = (s.pfi pino).size
  csize : (s'.cfi cino).size = (s.cfi cino).size
  pdata : s'.pdata pino = s.pdata pino
  cdata : s'.cdata cino = s.cdata cino

/-- What should become of a pair of files. -/
structure Outcome : Prop where
  same : ¬ Changed (s.cfi cino) (s.pfi pino) → ¬ Changed (s.cfi cino) (s.cfi cino) → s' = s
  push : Changed (s.cfi cino) (s.pfi pino) → ¬ Changed (s.cfi cino) (s.cfi cino) →
    Carried pino cino s' (s.pfi pino) (s.pdata pino)
  pull : ¬ Changed (s.cfi cino) (s.pfi pino) → Changed (s.cfi cino) (s.cfi cino) →
    Carried pino cino s' (s.cfi cino) (s.cdata cino)
  merge : Changed (s.cfi cino) (s.pfi pino) → Changed (s.cfi cino) (s.cfi cino) →
    Level (s.pfi pino) (s.cfi cino) → mergedLen (s.pfi pino) (s.cfi cino) ≤ fileMaxsize →
    Merged pino cino s' (bytes (s.pdata pino) 0 (s.cfi cino).rlen)
      (bytes (s.pdata pino) (s.cfi cino).rlen ((s.pfi pino).size - (s.cfi cino).rlen))
      (bytes (s.cdata cino) (s.cfi cino).rlen ((s.cfi cino).size - (s.cfi cino).rlen))
  conflict : Changed (s.cfi cino) (s.pfi pino) → Changed (s.cfi cino) (s.cfi cino) →
    ¬ (Level (s.pfi pino) (s.cfi cino) ∧ mergedLen (s.pfi pino) (s.cfi cino) ≤ fileMaxsize) →
    Conflicted s pino cino s'

/-- A file at the reference version is no shorter than the reference length, and every byte that
has to move to the other side lies in the first `PTSIZE` bytes of its file's area, on the way there
and in the end, or is there already. -/
structure InReach : Prop where
  pgrown : (s.pfi pino).ver = (s.cfi cino).rver → (s.cfi cino).rlen ≤ (s.pfi pino).size
  cgrown : (s.cfi cino).ver = (s.cfi cino).rver → (s.cfi cino).rlen ≤ (s.cfi cino).size
  push : ¬ Level (s.pfi pino) (s.cfi cino) → ¬ Changed (s.cfi cino) (s.cfi cino) →
    ∀ i, ptsize ≤ i → i < (s.pfi pino).size → s.cdata cino i = s.pdata pino i
  pull : ¬ Level (s.pfi pino) (s.cfi cino) → ¬ Changed (s.cfi cino) (s.pfi pino) →
    ∀ i, ptsize ≤ i → i < (s.cfi cino).size → s.pdata pino i = s.cdata cino i
  fetch : Level (s.pfi pino) (s.cfi cino) →
    mergedLen (s.pfi pino) (s.cfi cino) ≤ fileMaxsize →
    ∀ i, ptsize ≤ i → (s.cfi cino).rlen ≤ i → i < (s.cfi cino).size → s.cp i = s.cdata cino i
  store : Level (s.pfi pino) (s.cfi cino) →
    mergedLen (s.pfi pino) (s.cfi cino) ≤ fileMaxsize →
    ∀ k, k < (s.pfi pino).size - (s.cfi cino).rlen → ptsize ≤ (s.cfi cino).size + k →
      s.cdata cino ((s.cfi cino).size + k) = s.pdata pino ((s.cfi cino).rlen + k)

end pair

/-! ## The calls -/

section calls

variable {s : Sync} {pino cino : ℤ}

theorem toInt_natCast {n : ℕ} (h : n ≤ fileMaxsize) : toInt n = n := by
  rw [fileMaxsize_eq] at h
  exact toInt_eq (by omega) (by omega)

theorem toSize_toInt {n : ℕ} (h : n ≤ fileMaxsize) : toSize (toInt n) = n := by
  rw [toInt_natCast h]
  rw [fileMaxsize_eq] at h
  exact toSize_natCast (by omega)

/-- The state after a merge that goes through. -/
def Sync.merged (s : Sync) (pino cino : ℤ) : Sync :=
  let p := s.pfi pino
  let c := s.cfi cino
  let cp := copy ptsize (s.cdata cino) s.cp
  let pp := memcpy (s.pdata pino) p.size cp c.rlen (c.size - c.rlen)
  let cp := memcpy cp c.size pp c.rlen (p.size - c.rlen)
  let n := mergedLen p c
  { parent := (s.parent.setFi pino fun x => { x with size := n }).setData pino fun _ => pp
    child := (s.child.setFi cino fun x => { x with size := n, rlen := n }).setData cino
      fun d => copy ptsize cp d
    cp := cp }

/-- The state after a merge that would make the file too large. -/
def Sync.overfull (s : Sync) (pino cino : ℤ) : Sync :=
  let conf := fun x : FileInode => { x with mode := x.mode ||| sIfconf }
  { s.setFi pino cino conf conf with cp := copy ptsize (s.cdata cino) s.cp }

/-- Only regular files are merged, and only when they have grown. -/
theorem reconcileMerge_same (hp : fileinoIsvalid pino) (hc : fileinoIsvalid cino)
    (hver : (s.pfi pino).ver = (s.cfi cino).ver) (hmode : (s.pfi pino).mode = (s.cfi cino).mode)
    (h : sIsreg (s.pfi pino).mode = true →
      (s.pfi pino).size = (s.cfi cino).rlen ∧ (s.cfi cino).size = (s.cfi cino).rlen) :
    reconcileMerge s pino cino = .ok (false, s) := by
  unfold reconcileMerge
  rw [require_bind hp, require_bind hc, require_bind hver, require_bind hmode]
  cases hreg : sIsreg (s.pfi pino).mode with
  | false => rfl
  | true =>
    obtain ⟨hps, hcs⟩ := h hreg
    have hpg : toInt (toInt (s.pfi pino).size - toInt (s.cfi cino).rlen) = 0 := by
      rw [hps, Int.sub_self]
      exact toInt_eq (by norm_num) (by norm_num)
    have hcg : toInt (toInt (s.cfi cino).size - toInt (s.cfi cino).rlen) = 0 := by
      rw [hcs, Int.sub_self]
      exact toInt_eq (by norm_num) (by norm_num)
    rw [if_neg (by simp)]
    simp only [hpg, hcg]
    rw [require_bind (by simp), require_bind (by simp), if_pos (by simp)]
    rfl

/-- The merge of a file that has grown. -/
theorem reconcileMerge_grown (hp : fileinoIsvalid pino) (hc : fileinoIsvalid cino)
    (hver : (s.pfi pino).ver = (s.cfi cino).ver) (hmode : (s.pfi pino).mode = (s.cfi cino).mode)
    (hreg : sIsreg (s.pfi pino).mode = true)
    (hpl : (s.cfi cino).rlen ≤ (s.pfi pino).size) (hcl : (s.cfi cino).rlen ≤ (s.cfi cino).size)
    (hps : (s.pfi pino).size ≤ fileMaxsize) (hcs : (s.cfi cino).size ≤ fileMaxsize)
    (hne : ¬ ((s.pfi pino).size = (s.cfi cino).rlen ∧ (s.cfi cino).size = (s.cfi cino).rlen)) :
    reconcileMerge s pino cino = .ok (true,
      if fileMaxsize < mergedLen (s.pfi pino) (s.cfi cino) then s.overfull pino cino
      else s.merged pino cino) := by
  have hrl : (s.cfi cino).rlen ≤ fileMaxsize := le_trans hpl hps
  have hM := fileMaxsize_eq
  have hpg : toInt ((s.pfi pino).size - (s.cfi cino).rlen) =
      (s.pfi pino).size - (s.cfi cino).rlen := toInt_eq (by omega) (by omega)
  have hcg : toInt ((s.cfi cino).size - (s.cfi cino).rlen) =
      (s.cfi cino).size - (s.cfi cino).rlen := toInt_eq (by omega) (by omega)
  have hlen : toInt ((s.cfi cino).rlen + ((s.pfi pino).size - (s.cfi cino).rlen) +
      ((s.cfi cino).size - (s.cfi cino).rlen)) = mergedLen (s.pfi pino) (s.cfi cino) := by
    unfold mergedLen
    rw [toInt_eq (by omega) (by omega)]
    omega
  have hplen : toInt ((s.pfi pino).size + ((s.cfi cino).size - (s.cfi cino).rlen)) =
      mergedLen (s.pfi pino) (s.cfi cino) := by
    rw [← hlen]
    congr 1
    omega
  have hclen : toInt ((s.cfi cino).size + ((s.pfi pino).size - (s.cfi cino).rlen)) =
      mergedLen (s.pfi pino) (s.cfi cino) := by
    rw [← hlen]
    congr 1
    omega
  have hp' : ((s.pfi pino).size - (s.cfi cino).rlen : ℤ).toNat =
      (s.pfi pino).size - (s.cfi cino).rlen := by omega
  have hc' : ((s.cfi cino).size - (s.cfi cino).rlen : ℤ).toNat =
      (s.cfi cino).size - (s.cfi cino).rlen := by omega
  unfold reconcileMerge
  rw [require_bind hp, require_bind hc, require_bind hver, require_bind hmode,
    if_neg (by simp [hreg])]
  simp only [toInt_natCast hrl, toInt_natCast hps, toInt_natCast hcs, hpg, hcg, hlen, hplen, hclen]
  rw [require_bind (by omega), require_bind (by omega), if_neg (by omega), require_bind hps,
    require_bind hcs, require_bind trivial, require_bind trivial]
  simp only [hp', hc', Int.toNat_natCast, Nat.cast_lt]
  split
  · rfl
  · rfl

/-- The state after a conflict. -/
def Sync.conflicted (s : Sync) (pino cino : ℤ) : Sync :=
  let ver := max (s.pfi pino).ver (s.cfi cino).ver
  s.setFi pino cino
    (fun x => { x with mode := x.mode ||| sIfconf, ver := ver })
    (fun x => { x with mode := x.mode ||| sIfconf, ver := ver, rver := ver })

/-- The state after the parent's file has been copied to the child. -/
def Sync.pushed (s : Sync) (pino cino : ℤ) : Sync :=
  let p := s.pfi pino
  let child := s.child.setFi cino fun x =>
    { x with ver := p.ver, mode := p.mode, size := p.size, rver := p.ver, rlen := p.size }
  { s with child := child.setData cino fun d => copy ptsize (s.pdata pino) d }

/-- The state after the child's file has been copied to the parent. -/
def Sync.pulled (s : Sync) (pino cino : ℤ) : Sync :=
  let c := s.cfi cino
  let parent := s.parent.setFi pino fun x =>
    { x with ver := c.ver, mode := c.mode, size := c.size }
  { s with
    parent := parent.setData pino fun d => copy ptsize (s.cdata cino) d
    child := s.child.setFi cino fun x => { x with rver := c.ver, rlen := c.size } }

instance (p c : FileInode) : Decidable (Level p c) := inferInstanceAs (Decidable (_ ∧ _))

instance (r x : FileInode) : Decidable (Changed r x) := inferInstanceAs (Decidable (_ ∨ _))

/-- What the assertions ask of a pair of inodes, apart from the bounds of the sizes. -/
structure Accord (p c : FileInode) : Prop where
  prver : c.rver ≤ p.ver
  crver : c.rver ≤ c.ver
  pgrown : p.ver = c.rver → c.rlen ≤ p.size
  cgrown : c.ver = c.rver → c.rlen ≤ c.size
  mode : Level p c → p.mode = c.mode

/-- The bounds of the sizes of a pair. -/
structure Bounded (p c : FileInode) : Prop where
  psize : p.size ≤ fileMaxsize
  csize : c.size ≤ fileMaxsize
  rlen : c.rlen ≤ fileMaxsize

/-- What `reconcile_inode` does when no assertion fails. -/
def Sync.reconciled (s : Sync) (pino cino : ℤ) : Bool × Sync :=
  let p := s.pfi pino
  let c := s.cfi cino
  if Level p c then
    if sIsreg p.mode = true ∧ ¬ (p.size = c.rlen ∧ c.size = c.rlen) then
      (true, if fileMaxsize < mergedLen p c then s.overfull pino cino else s.merged pino cino)
    else (false, s)
  else if Changed c p ∧ Changed c c then (true, s.conflicted pino cino)
  else if Changed c p then (true, s.pushed pino cino)
  else (true, s.pulled pino cino)

theorem reconcileInode_eq (hp : fileinoIsvalid pino) (hc : fileinoIsvalid cino)
    (h : Accord (s.pfi pino) (s.cfi cino)) (hb : Bounded (s.pfi pino) (s.cfi cino)) :
    reconcileInode s pino cino = .ok (s.reconciled pino cino) := by
  have hlen : toSize (toInt (s.cfi cino).rlen) = (s.cfi cino).rlen := toSize_toInt hb.rlen
  unfold reconcileInode Sync.reconciled
  simp only [hlen]
  rw [require_bind hp, require_bind hc, require_bind h.crver, require_bind h.prver,
    require_bind h.cgrown, require_bind h.pgrown]
  by_cases hl : Level (s.pfi pino) (s.cfi cino)
  · rw [if_pos (show _ ∧ _ from hl), if_pos hl]
    have hver : (s.pfi pino).ver = (s.cfi cino).ver := by rw [hl.1, hl.2]
    split
    next hg =>
      exact reconcileMerge_grown hp hc hver (h.mode hl) hg.1 (h.pgrown hl.1) (h.cgrown hl.2)
        hb.psize hb.csize hg.2
    next hg =>
      refine reconcileMerge_same hp hc hver (h.mode hl) fun hreg => ?_
      by_contra hne
      exact hg ⟨hreg, hne⟩
  · rw [if_neg (show ¬ (_ ∧ _) from hl), if_neg hl, require_bind hb.psize, require_bind hb.csize]
    change (if Changed (s.cfi cino) (s.pfi pino) ∧ Changed (s.cfi cino) (s.cfi cino) then _
      else if Changed (s.cfi cino) (s.pfi pino) then _ else _) = _
    split
    · rfl
    · split
      · simp only [Sync.setFi_parent, Fs.setFi_id]
        rfl
      · rfl

/-- A pair that `reconcile_inode` returns from meets its assertions. -/
theorem Accord.of_ok {r : Bool × Sync} (hb : (s.cfi cino).rlen ≤ fileMaxsize)
    (h : reconcileInode s pino cino = .ok r) : Accord (s.pfi pino) (s.cfi cino) := by
  have hlen : toSize (toInt (s.cfi cino).rlen) = (s.cfi cino).rlen := toSize_toInt hb
  unfold reconcileInode at h
  simp only [hlen, require_bind_ok] at h
  obtain ⟨-, -, hcr, hpr, hcg, hpg, h⟩ := h
  refine ⟨hpr, hcr, hpg, hcg, fun hl => ?_⟩
  rw [if_pos (show _ ∧ _ from hl)] at h
  unfold reconcileMerge at h
  simp only [require_bind_ok] at h
  exact h.2.2.2.1

end calls

/-! ## The bytes -/

section bytes

variable {s : Sync} {pino cino : ℤ}

theorem merged_pdata_lt {i : ℕ} (hi : i < (s.pfi pino).size) :
    (s.merged pino cino).pdata pino i = s.pdata pino i := by
  change (Fs.data _) pino i = _
  rw [Sync.merged, Fs.setData_data_same]
  exact if_neg (by omega)

theorem merged_pdata_add {k : ℕ} (hk : k < (s.cfi cino).size - (s.cfi cino).rlen) :
    (s.merged pino cino).pdata pino ((s.pfi pino).size + k) =
      if (s.cfi cino).rlen + k < ptsize then s.cdata cino ((s.cfi cino).rlen + k)
      else s.cp ((s.cfi cino).rlen + k) := by
  change (Fs.data _) pino _ = _
  rw [Sync.merged, Fs.setData_data_same, memcpy, if_pos (by omega), Nat.add_sub_cancel_left]
  rfl

theorem merged_cdata_lt {i : ℕ} (hi : i < (s.cfi cino).size) :
    (s.merged pino cino).cdata cino i = s.cdata cino i := by
  change (Fs.data _) cino i = _
  rw [Sync.merged, Fs.setData_data_same, copy]
  split
  next hlt =>
    rw [memcpy, if_neg (by omega)]
    exact if_pos hlt
  next => rfl

theorem merged_cdata_add (hp : (s.cfi cino).rlen ≤ (s.pfi pino).size) {k : ℕ}
    (hk : k < (s.pfi pino).size - (s.cfi cino).rlen) :
    (s.merged pino cino).cdata cino ((s.cfi cino).size + k) =
      if (s.cfi cino).size + k < ptsize then s.pdata pino ((s.cfi cino).rlen + k)
      else s.cdata cino ((s.cfi cino).size + k) := by
  change (Fs.data _) cino _ = _
  rw [Sync.merged, Fs.setData_data_same, copy]
  split
  next =>
    rw [memcpy, if_pos (by omega), Nat.add_sub_cancel_left]
    exact if_neg (by omega)
  next => rfl

/-- What the parent gets from a merge is right when the scratch area has the child's bytes. -/
theorem merged_pdata_iff (pino : ℤ) :
    (∀ k < (s.cfi cino).size - (s.cfi cino).rlen,
      (s.merged pino cino).pdata pino ((s.pfi pino).size + k) =
        s.cdata cino ((s.cfi cino).rlen + k)) ↔
    ∀ i, ptsize ≤ i → (s.cfi cino).rlen ≤ i → i < (s.cfi cino).size →
      s.cp i = s.cdata cino i := by
  constructor
  · intro h i hi hri hic
    have hk := h (i - (s.cfi cino).rlen) (by omega)
    rw [merged_pdata_add (by omega), Nat.add_sub_cancel' hri, if_neg (by omega)] at hk
    exact hk
  · intro h k hk
    rw [merged_pdata_add hk]
    split
    · rfl
    · exact h _ (by omega) (by omega) (by omega)

/-- What the child gets from a merge is right when it goes to the first `PTSIZE` bytes or is
there already. -/
theorem merged_cdata_iff (hp : (s.cfi cino).rlen ≤ (s.pfi pino).size) :
    (∀ k < (s.pfi pino).size - (s.cfi cino).rlen,
      (s.merged pino cino).cdata cino ((s.cfi cino).size + k) =
        s.pdata pino ((s.cfi cino).rlen + k)) ↔
    ∀ k, k < (s.pfi pino).size - (s.cfi cino).rlen → ptsize ≤ (s.cfi cino).size + k →
      s.cdata cino ((s.cfi cino).size + k) = s.pdata pino ((s.cfi cino).rlen + k) := by
  constructor
  · intro h k hk hge
    have := h k hk
    rwa [merged_cdata_add hp hk, if_neg (by omega)] at this
  · intro h k hk
    rw [merged_cdata_add hp hk]
    split
    · rfl
    · exact h k hk (by omega)

/-- A copy of `PTSIZE` bytes gives a file of `n` bytes when the rest is there already. -/
theorem copy_eq_iff {src dst : ℕ → UInt8} {n : ℕ} :
    bytes (copy ptsize src dst) 0 n = bytes src 0 n ↔
      ∀ i, ptsize ≤ i → i < n → dst i = src i := by
  rw [bytes_eq_iff]
  unfold copy
  constructor
  · intro h i hi hin
    have := h i hin
    rwa [Nat.zero_add, if_neg (by omega)] at this
  · intro h k hk
    rw [Nat.zero_add]
    split
    · rfl
    · exact h k (by omega) hk

end bytes

/-! ## The outcome -/

section outcome

variable {s s' : Sync} {pino cino : ℤ}

/-- The bytes of a file, split at `rlen` and at its old end. -/
theorem bytes_split (d e : ℕ → UInt8) {r m n : ℕ} (hr : r ≤ m) (hd : ∀ i < m, d i = e i) :
    bytes d 0 (m + n) = bytes e 0 r ++ bytes e r (m - r) ++ bytes d m n := by
  rw [bytes_add, Nat.zero_add]
  congr 1
  have he : bytes d 0 m = bytes e 0 m := by
    rw [bytes_eq_iff]
    intro k hk
    exact hd _ (by omega)
  rw [he]
  have := bytes_add e 0 r (m - r)
  rwa [Nat.add_sub_cancel' hr, Nat.zero_add] at this

theorem Corresponding.bounded (h : Corresponding s pino cino) :
    Bounded (s.pfi pino) (s.cfi cino) :=
  ⟨h.psize, h.csize, h.rlen⟩

theorem InReach.accord (h : Corresponding s pino cino) (hr : InReach s pino cino) :
    Accord (s.pfi pino) (s.cfi cino) :=
  ⟨h.prver, h.crver, hr.pgrown, hr.cgrown, h.mode⟩

/-- At the reference version an inode has changed when it has grown. -/
theorem changed_iff {r x : FileInode} (hv : x.ver = r.rver) : Changed r x ↔ r.rlen < x.size := by
  unfold Changed
  omega

/-- Of two inodes that are not both at the reference version, one has changed. -/
theorem changed_of_not_level {p c : FileInode} (hp : c.rver ≤ p.ver) (hc : c.rver ≤ c.ver)
    (hl : ¬ Level p c) : Changed c p ∨ Changed c c := by
  unfold Level at hl
  unfold Changed
  omega

/-! ### Which case applies -/

theorem reconciled_same (hl : Level (s.pfi pino) (s.cfi cino))
    (hs : (s.pfi pino).size = (s.cfi cino).rlen ∧ (s.cfi cino).size = (s.cfi cino).rlen) :
    s.reconciled pino cino = (false, s) := by
  unfold Sync.reconciled
  rw [if_pos hl, if_neg fun h => h.2 hs]

theorem reconciled_level (hl : Level (s.pfi pino) (s.cfi cino))
    (hreg : sIsreg (s.pfi pino).mode = true)
    (hs : ¬ ((s.pfi pino).size = (s.cfi cino).rlen ∧ (s.cfi cino).size = (s.cfi cino).rlen)) :
    s.reconciled pino cino =
      (true, if fileMaxsize < mergedLen (s.pfi pino) (s.cfi cino) then s.overfull pino cino
        else s.merged pino cino) := by
  unfold Sync.reconciled
  rw [if_pos hl, if_pos ⟨hreg, hs⟩]

theorem reconciled_conflict (hl : ¬ Level (s.pfi pino) (s.cfi cino))
    (hp : Changed (s.cfi cino) (s.pfi pino)) (hc : Changed (s.cfi cino) (s.cfi cino)) :
    s.reconciled pino cino = (true, s.conflicted pino cino) := by
  unfold Sync.reconciled
  rw [if_neg hl, if_pos ⟨hp, hc⟩]

theorem reconciled_push (hl : ¬ Level (s.pfi pino) (s.cfi cino))
    (hp : Changed (s.cfi cino) (s.pfi pino)) (hc : ¬ Changed (s.cfi cino) (s.cfi cino)) :
    s.reconciled pino cino = (true, s.pushed pino cino) := by
  unfold Sync.reconciled
  rw [if_neg hl, if_neg fun h => hc h.2, if_pos hp]

theorem reconciled_pull (hl : ¬ Level (s.pfi pino) (s.cfi cino))
    (hp : ¬ Changed (s.cfi cino) (s.pfi pino)) :
    s.reconciled pino cino = (true, s.pulled pino cino) := by
  unfold Sync.reconciled
  rw [if_neg hl, if_neg fun h => hp h.1, if_neg hp]

/-! ### The inodes afterwards -/

@[simp] theorem merged_pfi : (s.merged pino cino).pfi pino =
    { s.pfi pino with size := mergedLen (s.pfi pino) (s.cfi cino) } := by
  simp [Sync.merged, Sync.pfi]

@[simp] theorem merged_cfi : (s.merged pino cino).cfi cino =
    { s.cfi cino with size := mergedLen (s.pfi pino) (s.cfi cino),
                      rlen := mergedLen (s.pfi pino) (s.cfi cino) } := by
  simp [Sync.merged, Sync.cfi]

@[simp] theorem overfull_pfi : (s.overfull pino cino).pfi pino =
    { s.pfi pino with mode := (s.pfi pino).mode ||| sIfconf } := by
  simp [Sync.overfull, Sync.pfi]

@[simp] theorem overfull_cfi : (s.overfull pino cino).cfi cino =
    { s.cfi cino with mode := (s.cfi cino).mode ||| sIfconf } := by
  simp [Sync.overfull, Sync.cfi]

@[simp] theorem conflicted_pfi : (s.conflicted pino cino).pfi pino =
    { s.pfi pino with mode := (s.pfi pino).mode ||| sIfconf,
                      ver := max (s.pfi pino).ver (s.cfi cino).ver } := by
  simp [Sync.conflicted, Sync.pfi]

@[simp] theorem conflicted_cfi : (s.conflicted pino cino).cfi cino =
    { s.cfi cino with mode := (s.cfi cino).mode ||| sIfconf,
                      ver := max (s.pfi pino).ver (s.cfi cino).ver,
                      rver := max (s.pfi pino).ver (s.cfi cino).ver } := by
  simp [Sync.conflicted, Sync.cfi]

@[simp] theorem pushed_pfi : (s.pushed pino cino).pfi pino = s.pfi pino := rfl

@[simp] theorem pushed_cfi : (s.pushed pino cino).cfi cino =
    { s.cfi cino with ver := (s.pfi pino).ver, mode := (s.pfi pino).mode,
                      size := (s.pfi pino).size, rver := (s.pfi pino).ver,
                      rlen := (s.pfi pino).size } := by
  simp [Sync.pushed, Sync.cfi]

@[simp] theorem pulled_pfi : (s.pulled pino cino).pfi pino =
    { s.pfi pino with ver := (s.cfi cino).ver, mode := (s.cfi cino).mode,
                      size := (s.cfi cino).size } := by
  simp [Sync.pulled, Sync.pfi]

@[simp] theorem pulled_cfi : (s.pulled pino cino).cfi cino =
    { s.cfi cino with rver := (s.cfi cino).ver, rlen := (s.cfi cino).size } := by
  simp [Sync.pulled, Sync.cfi]

theorem pushed_cdata : (s.pushed pino cino).cdata cino =
    copy ptsize (s.pdata pino) (s.cdata cino) := by
  simp [Sync.pushed, Sync.cdata]

theorem pulled_pdata : (s.pulled pino cino).pdata pino =
    copy ptsize (s.cdata cino) (s.pdata pino) := by
  simp [Sync.pulled, Sync.pdata]

/-! ### The condition is enough -/

theorem carried_push (h : Corresponding s pino cino) (hr : InReach s pino cino)
    (hp : Changed (s.cfi cino) (s.pfi pino)) (hc : ¬ Changed (s.cfi cino) (s.cfi cino)) :
    Carried pino cino (s.reconciled pino cino).2 (s.pfi pino) (s.pdata pino) := by
  by_cases hl : Level (s.pfi pino) (s.cfi cino)
  · have hpl := hr.pgrown hl.1
    have hcl := hr.cgrown hl.2
    rw [changed_iff hl.1] at hp
    rw [changed_iff hl.2] at hc
    have hlen : mergedLen (s.pfi pino) (s.cfi cino) = (s.pfi pino).size := by
      unfold mergedLen
      omega
    have hfit : mergedLen (s.pfi pino) (s.cfi cino) ≤ fileMaxsize := by
      rw [hlen]
      exact h.psize
    have hcsize : (s.cfi cino).size = (s.cfi cino).rlen := by omega
    rw [reconciled_level hl h.preg (by omega), if_neg (by omega)]
    refine ⟨by simp, by simp, by simp [hlen], ?_, ?_, ?_, by simp [hlen], ?_⟩
    · rw [bytes_eq_iff]
      intro k hk
      exact merged_pdata_lt (by omega)
    · simp [hl.1, hl.2]
    · simp [h.mode hl]
    · rw [bytes_eq_iff]
      intro k hk
      rw [Nat.zero_add]
      by_cases hk' : k < (s.cfi cino).size
      · rw [merged_cdata_lt hk']
        have := bytes_eq_iff.1 (h.bytes hl) k (by omega)
        rw [Nat.zero_add] at this
        exact this.symm
      · have := (merged_cdata_iff hpl).2 (hr.store hl hfit) (k - (s.cfi cino).size) (by omega)
        rwa [Nat.add_sub_cancel' (by omega), ← hcsize, Nat.add_sub_cancel' (by omega)] at this
  · rw [reconciled_push hl hp hc]
    refine ⟨rfl, rfl, rfl, rfl, by simp, by simp, by simp, ?_⟩
    rw [pushed_cdata, copy_eq_iff]
    exact hr.push hl hc

theorem carried_pull (h : Corresponding s pino cino) (hr : InReach s pino cino)
    (hp : ¬ Changed (s.cfi cino) (s.pfi pino)) (hc : Changed (s.cfi cino) (s.cfi cino)) :
    Carried pino cino (s.reconciled pino cino).2 (s.cfi cino) (s.cdata cino) := by
  by_cases hl : Level (s.pfi pino) (s.cfi cino)
  · have hpl := hr.pgrown hl.1
    have hcl := hr.cgrown hl.2
    rw [changed_iff hl.1] at hp
    rw [changed_iff hl.2] at hc
    have hlen : mergedLen (s.pfi pino) (s.cfi cino) = (s.cfi cino).size := by
      unfold mergedLen
      omega
    have hfit : mergedLen (s.pfi pino) (s.cfi cino) ≤ fileMaxsize := by
      rw [hlen]
      exact h.csize
    have hpsize : (s.pfi pino).size = (s.cfi cino).rlen := by omega
    rw [reconciled_level hl h.preg (by omega), if_neg (by omega)]
    refine ⟨?_, ?_, by simp [hlen], ?_, by simp, by simp, by simp [hlen], ?_⟩
    · simp [hl.1, hl.2]
    · simp [h.mode hl]
    · rw [bytes_eq_iff]
      intro k hk
      rw [Nat.zero_add]
      by_cases hk' : k < (s.pfi pino).size
      · rw [merged_pdata_lt hk']
        have := bytes_eq_iff.1 (h.bytes hl) k (by omega)
        rwa [Nat.zero_add] at this
      · have := (merged_pdata_iff pino).2 (hr.fetch hl hfit) (k - (s.pfi pino).size) (by omega)
        rwa [Nat.add_sub_cancel' (by omega), ← hpsize, Nat.add_sub_cancel' (by omega)] at this
    · rw [bytes_eq_iff]
      intro k hk
      exact merged_cdata_lt (by omega)
  · rw [reconciled_pull hl hp]
    refine ⟨by simp, by simp, by simp, ?_, by simp, by simp, by simp, rfl⟩
    rw [pulled_pdata, copy_eq_iff]
    exact hr.pull hl hp

theorem merged_ok (h : Corresponding s pino cino) (hr : InReach s pino cino)
    (hp : Changed (s.cfi cino) (s.pfi pino)) (hl : Level (s.pfi pino) (s.cfi cino))
    (hfit : mergedLen (s.pfi pino) (s.cfi cino) ≤ fileMaxsize) :
    Merged pino cino (s.reconciled pino cino).2 (bytes (s.pdata pino) 0 (s.cfi cino).rlen)
      (bytes (s.pdata pino) (s.cfi cino).rlen ((s.pfi pino).size - (s.cfi cino).rlen))
      (bytes (s.cdata cino) (s.cfi cino).rlen ((s.cfi cino).size - (s.cfi cino).rlen)) := by
  have hpl := hr.pgrown hl.1
  have hcl := hr.cgrown hl.2
  rw [changed_iff hl.1] at hp
  have hplen : mergedLen (s.pfi pino) (s.cfi cino) =
      (s.pfi pino).size + ((s.cfi cino).size - (s.cfi cino).rlen) := by
    unfold mergedLen
    omega
  have hclen : mergedLen (s.pfi pino) (s.cfi cino) =
      (s.cfi cino).size + ((s.pfi pino).size - (s.cfi cino).rlen) := by
    unfold mergedLen
    omega
  rw [reconciled_level hl h.preg (by omega), if_neg (by omega)]
  refine ⟨?_, ?_, ?_, ?_, ?_⟩
  · simp
    omega
  · simp
    omega
  · simp
    omega
  · rw [merged_pfi]
    simp only
    rw [hplen, bytes_split _ (s.pdata pino) hpl fun i hi => merged_pdata_lt hi]
    congr 1
    exact bytes_eq_iff.2 ((merged_pdata_iff pino).2 (hr.fetch hl hfit))
  · rw [merged_cfi]
    simp only
    rw [hclen, bytes_split _ (s.cdata cino) hcl fun i hi => merged_cdata_lt hi, h.bytes hl]
    congr 1
    exact bytes_eq_iff.2 ((merged_cdata_iff hpl).2 (hr.store hl hfit))

theorem conflicted_ok (h : Corresponding s pino cino) (hp : Changed (s.cfi cino) (s.pfi pino))
    (hc : Changed (s.cfi cino) (s.cfi cino))
    (hn : ¬ (Level (s.pfi pino) (s.cfi cino) ∧
      mergedLen (s.pfi pino) (s.cfi cino) ≤ fileMaxsize)) :
    Conflicted s pino cino (s.reconciled pino cino).2 := by
  by_cases hl : Level (s.pfi pino) (s.cfi cino)
  · have hp' := (changed_iff hl.1).1 hp
    have hfit : fileMaxsize < mergedLen (s.pfi pino) (s.cfi cino) := by
      by_contra hle
      exact hn ⟨hl, by omega⟩
    rw [reconciled_level hl h.preg (by omega), if_pos hfit]
    exact ⟨by simp, by simp, by simp, by simp, rfl, rfl⟩
  · rw [reconciled_conflict hl hp hc]
    exact ⟨by simp, by simp, by simp, by simp, rfl, rfl⟩

theorem InReach.outcome (h : Corresponding s pino cino) (hr : InReach s pino cino) :
    Outcome s pino cino (s.reconciled pino cino).2 where
  same hp hc := by
    have hl : Level (s.pfi pino) (s.cfi cino) := by
      by_contra hl
      exact (changed_of_not_level h.prver h.crver hl).elim hp hc
    have hpl := hr.pgrown hl.1
    have hcl := hr.cgrown hl.2
    rw [changed_iff hl.1] at hp
    rw [changed_iff hl.2] at hc
    rw [reconciled_same hl ⟨by omega, by omega⟩]
  push := carried_push h hr
  pull := carried_pull h hr
  merge hp _ := merged_ok h hr hp
  conflict := conflicted_ok h

/-! ### The condition is needed -/

theorem Outcome.inReach_push (h : Corresponding s pino cino)
    (ho : Outcome s pino cino (s.reconciled pino cino).2)
    (hl : ¬ Level (s.pfi pino) (s.cfi cino)) (hc : ¬ Changed (s.cfi cino) (s.cfi cino)) :
    ∀ i, ptsize ≤ i → i < (s.pfi pino).size → s.cdata cino i = s.pdata pino i := by
  have hp := (changed_of_not_level h.prver h.crver hl).resolve_right hc
  have hcb := (ho.push hp hc).cbytes
  rw [reconciled_push hl hp hc] at hcb
  simp only at hcb
  rwa [pushed_cdata, copy_eq_iff] at hcb

theorem Outcome.inReach_pull (h : Corresponding s pino cino)
    (ho : Outcome s pino cino (s.reconciled pino cino).2)
    (hl : ¬ Level (s.pfi pino) (s.cfi cino)) (hp : ¬ Changed (s.cfi cino) (s.pfi pino)) :
    ∀ i, ptsize ≤ i → i < (s.cfi cino).size → s.pdata pino i = s.cdata cino i := by
  have hc := (changed_of_not_level h.prver h.crver hl).resolve_left hp
  have hpb := (ho.pull hp hc).pbytes
  rw [reconciled_pull hl hp] at hpb
  simp only at hpb
  rwa [pulled_pdata, copy_eq_iff] at hpb

theorem Outcome.inReach_fetch (h : Corresponding s pino cino)
    (ha : Accord (s.pfi pino) (s.cfi cino))
    (ho : Outcome s pino cino (s.reconciled pino cino).2)
    (hl : Level (s.pfi pino) (s.cfi cino))
    (hfit : mergedLen (s.pfi pino) (s.cfi cino) ≤ fileMaxsize) :
    ∀ i, ptsize ≤ i → (s.cfi cino).rlen ≤ i → i < (s.cfi cino).size →
      s.cp i = s.cdata cino i := by
  have hpl := ha.pgrown hl.1
  by_cases hc : Changed (s.cfi cino) (s.cfi cino)
  · have hc' := (changed_iff hl.2).1 hc
    have hr := reconciled_level hl h.preg (by omega)
    rw [if_neg (by omega)] at hr
    rw [← merged_pdata_iff pino]
    by_cases hp : Changed (s.cfi cino) (s.pfi pino)
    · have hb := (ho.merge hp hc hl hfit).pbytes
      have hlen : mergedLen (s.pfi pino) (s.cfi cino) =
          (s.pfi pino).size + ((s.cfi cino).size - (s.cfi cino).rlen) := by
        unfold mergedLen
        omega
      simp only [hr, merged_pfi] at hb
      rw [hlen, bytes_split _ (s.pdata pino) hpl fun i hi => merged_pdata_lt hi] at hb
      exact bytes_eq_iff.1 (List.append_cancel_left hb)
    · have hb := (ho.pull hp hc).pbytes
      rw [changed_iff hl.1] at hp
      have hpsize : (s.pfi pino).size = (s.cfi cino).rlen := by omega
      simp only [hr] at hb
      intro k hk
      have := bytes_eq_iff.1 hb ((s.pfi pino).size + k) (by omega)
      rw [Nat.zero_add, hpsize] at this
      rwa [hpsize]
  · intro i _ hri hi
    exact absurd ((changed_iff hl.2).2 (by omega)) hc

theorem Outcome.inReach_store (h : Corresponding s pino cino)
    (ha : Accord (s.pfi pino) (s.cfi cino))
    (ho : Outcome s pino cino (s.reconciled pino cino).2)
    (hl : Level (s.pfi pino) (s.cfi cino))
    (hfit : mergedLen (s.pfi pino) (s.cfi cino) ≤ fileMaxsize) :
    ∀ k, k < (s.pfi pino).size - (s.cfi cino).rlen → ptsize ≤ (s.cfi cino).size + k →
      s.cdata cino ((s.cfi cino).size + k) = s.pdata pino ((s.cfi cino).rlen + k) := by
  have hpl := ha.pgrown hl.1
  have hcl := ha.cgrown hl.2
  by_cases hp : Changed (s.cfi cino) (s.pfi pino)
  · have hp' := (changed_iff hl.1).1 hp
    have hr := reconciled_level hl h.preg (by omega)
    rw [if_neg (by omega)] at hr
    rw [← merged_cdata_iff hpl]
    by_cases hc : Changed (s.cfi cino) (s.cfi cino)
    · have hb := (ho.merge hp hc hl hfit).cbytes
      have hlen : mergedLen (s.pfi pino) (s.cfi cino) =
          (s.cfi cino).size + ((s.pfi pino).size - (s.cfi cino).rlen) := by
        unfold mergedLen
        omega
      simp only [hr, merged_cfi] at hb
      rw [hlen, bytes_split _ (s.cdata cino) hcl fun i hi => merged_cdata_lt hi, h.bytes hl] at hb
      exact bytes_eq_iff.1 (List.append_cancel_left hb)
    · have hb := (ho.push hp hc).cbytes
      rw [changed_iff hl.2] at hc
      have hcsize : (s.cfi cino).size = (s.cfi cino).rlen := by omega
      simp only [hr] at hb
      intro k hk
      have := bytes_eq_iff.1 hb ((s.cfi cino).size + k) (by omega)
      rw [Nat.zero_add, hcsize] at this
      rwa [hcsize]
  · intro k hk
    exact absurd ((changed_iff hl.1).2 (by omega)) hp

theorem inReach_of_outcome (h : Corresponding s pino cino) {didio : Bool}
    (hok : reconcileInode s pino cino = .ok (didio, s')) (ho : Outcome s pino cino s') :
    InReach s pino cino := by
  have ha := Accord.of_ok h.rlen hok
  rw [reconcileInode_eq h.pvalid h.cvalid ha h.bounded] at hok
  have hs : (s.reconciled pino cino).2 = s' := by
    rw [Except.ok.inj hok]
  rw [← hs] at ho
  exact ⟨ha.pgrown, ha.cgrown, ho.inReach_push h, ho.inReach_pull h, ho.inReach_fetch h ha,
    ho.inReach_store h ha⟩

/-- For a pair of corresponding files `reconcile_inode` does what it should exactly when every
byte that has to move is in reach of the copies of `PTSIZE` bytes. -/
theorem reconcile_inode_outcome (s : Sync) (pino cino : ℤ) (h : Corresponding s pino cino) :
    (∃ didio s', reconcileInode s pino cino = .ok (didio, s') ∧ Outcome s pino cino s') ↔
      InReach s pino cino := by
  constructor
  · rintro ⟨d, s', hok, ho⟩
    exact inReach_of_outcome h hok ho
  · intro hr
    exact ⟨_, _, reconcileInode_eq h.pvalid h.cvalid (hr.accord h) h.bounded, hr.outcome h⟩

end outcome

/-- A file state whose only file is inode 4, a regular file of a given version and size. -/
def oneFile (ver : ℤ) (size : ℕ) (byte : UInt8) : Fs where
  files :=
    { cwd := 3, exited := false, status := 0, fd := fun _ => ⟨0, 0, 0, .none⟩,
      fi := fun i => if i = 4 then ⟨3, [97], ver, sIfreg, size, 4, 0, 0⟩ else .zero,
      child := fun _ => .free }
  data := fun _ _ => byte

/-- The parent has written a file of `size` bytes `1` since the fork, the child has not. -/
def wroteOnce (size : ℕ) : Sync := ⟨oneFile 1 size 1, oneFile 0 0 0, fun _ => 0⟩

theorem wroteOnce_pfi (size : ℕ) :
    (wroteOnce size).pfi 4 = ⟨3, [97], 1, sIfreg, size, 4, 0, 0⟩ := by
  simp [wroteOnce, oneFile, Sync.pfi]

theorem wroteOnce_cfi (size : ℕ) :
    (wroteOnce size).cfi 4 = ⟨3, [97], 0, sIfreg, 0, 4, 0, 0⟩ := by
  simp [wroteOnce, oneFile, Sync.cfi]

theorem wroteOnce_not_level (size : ℕ) :
    ¬ Level ((wroteOnce size).pfi 4) ((wroteOnce size).cfi 4) := by
  rw [wroteOnce_pfi, wroteOnce_cfi]
  simp [Level]

theorem wroteOnce_corresponding {size : ℕ} (h : size ≤ fileMaxsize) :
    Corresponding (wroteOnce size) 4 4 where
  pvalid := by decide
  cvalid := by decide
  preg := by
    rw [wroteOnce_pfi]
    exact (by decide : sIsreg sIfreg = true)
  creg := by
    rw [wroteOnce_cfi]
    decide
  prver := by
    rw [wroteOnce_pfi, wroteOnce_cfi]
    exact (by decide : (0 : ℤ) ≤ 1)
  crver := by rw [wroteOnce_cfi]
  mode hl := absurd hl (wroteOnce_not_level size)
  bytes hl := absurd hl (wroteOnce_not_level size)
  psize := by rwa [wroteOnce_pfi]
  csize := by
    rw [wroteOnce_cfi]
    decide
  rlen := by
    rw [wroteOnce_cfi]
    decide

theorem reconcile_inode_outcome_small : Corresponding (wroteOnce 3) 4 4 ∧
    ∃ didio s', reconcileInode (wroteOnce 3) 4 4 = .ok (didio, s') ∧
      Outcome (wroteOnce 3) 4 4 s' := by
  have h : Corresponding (wroteOnce 3) 4 4 := wroteOnce_corresponding (by decide)
  refine ⟨h, (reconcile_inode_outcome _ 4 4 h).2 ?_⟩
  constructor
  case pgrown =>
    rw [wroteOnce_pfi, wroteOnce_cfi]
    decide
  case cgrown =>
    rw [wroteOnce_cfi]
    decide
  case push =>
    intro _ _ i hi hlt
    rw [wroteOnce_pfi] at hlt
    rw [ptsize_eq] at hi
    simp only at hlt
    omega
  case pull =>
    intro _ _ i hi hlt
    rw [wroteOnce_cfi] at hlt
    exact absurd hlt (Nat.not_lt_zero i)
  case fetch => exact fun hl => absurd hl (wroteOnce_not_level 3)
  case store => exact fun hl => absurd hl (wroteOnce_not_level 3)

/-- A file of `PTSIZE + 1` bytes loses its last byte on the way to the child. -/
theorem reconcile_inode_outcome_large : Corresponding (wroteOnce (ptsize + 1)) 4 4 ∧
    ¬ ∃ didio s', reconcileInode (wroteOnce (ptsize + 1)) 4 4 = .ok (didio, s') ∧
      Outcome (wroteOnce (ptsize + 1)) 4 4 s' := by
  have h : Corresponding (wroteOnce (ptsize + 1)) 4 4 := wroteOnce_corresponding (by decide)
  refine ⟨h, ?_⟩
  rintro ⟨d, s', hok, ho⟩
  have hr := inReach_of_outcome h hok ho
  have hc : ¬ Changed ((wroteOnce (ptsize + 1)).cfi 4) ((wroteOnce (ptsize + 1)).cfi 4) := by
    rw [wroteOnce_cfi]
    decide
  have := hr.push (wroteOnce_not_level _) hc ptsize le_rfl (by rw [wroteOnce_pfi]; simp)
  exact absurd this (by decide)

end Determinator.File
