import Determinator.File.Open
import Determinator.File.Outcome

/-!
# Files that get shorter

What may leave a special file shorter than it was: a truncation, opening it with `O_TRUNC`, making
it anew where it was deleted, and a reconciliation that takes the version of the child over. Every
other operation leaves it at least as long (`Op.run_size`, `reconcile_size`).
-/

namespace Determinator.File

/-! ## Operations -/

/-- The operation does not leave a file shorter than `n` bytes. -/
def Op.Spares (s : Fs) (ino : ℤ) (n : ℕ) : Op → Prop
  | .walk path createmode => target s.files path = .ok (.deleted ino) → createmode ≠ 0 → n = 0
  | .open _ path openflags mode =>
    (target s.files path = .ok (.deleted ino) → createmode openflags mode ≠ 0 → n = 0) ∧
      (target s.files path = .ok (.found ino) → openflags &&& oTrunc ≠ 0 → n = 0)
  | .truncate i newsize => i = ino → n ≤ newsize.toNat
  | .write .. | .seek .. | .close _ => True

section operations

variable {s s' : Fs} {ino i : ℤ} {n fd : ℕ} {path : List UInt8} {cm openflags mode : BitVec 32}

/-- Walking to a special file leaves it as long as it was, unless it is made anew. -/
theorem dirWalk_size {r : Except Errno ℤ} (h : dirWalk s path cm = .ok (r, s'))
    (hi : ino < fileinoGeneral) (hd : target s.files path = .ok (.deleted ino) → cm ≠ 0 → n = 0)
    (hn : n ≤ (s.files.fi ino).size) : n ≤ (s'.files.fi ino).size := by
  rw [dirWalk_eq, bind_ok] at h
  obtain ⟨t, ht, h⟩ := h
  cases (target_sound ht).reached h with
  | found | lost | notdir | gone | absent | tooLong | full => exact hn
  | revived i hc hv =>
    by_cases he : ino = i
    · rw [hd (he ▸ ht) hc]
      exact Nat.zero_le _
    · rw [Fs.setFi_files, FileState.setFi_fi_ne he]
      exact hn
  | created dino name i hc hl hlo hhi hf =>
    rw [Fs.setFi_files, FileState.setFi_fi_ne (by omega)]
    exact hn

/-- A walk that returns a special file has found it, or made it anew. -/
theorem dirWalk_ok (h : dirWalk s path cm = .ok (.ok ino, s')) (hi : ino < fileinoGeneral) :
    target s.files path = .ok (.found ino) ∨
      target s.files path = .ok (.deleted ino) ∧ cm ≠ 0 := by
  rw [dirWalk_eq, bind_ok] at h
  obtain ⟨t, ht, h⟩ := h
  cases (target_sound ht).reached h with
  | found => exact .inl ht
  | revived _ hc => exact .inr ⟨ht, hc⟩
  | created dino name i hc hl hlo => exact absurd hi (not_lt.2 hlo)

theorem fileinoTruncate_size {newsize : ℤ} (h : fileinoTruncate s i newsize = .ok s')
    (hk : i = ino → n ≤ newsize.toNat) (hn : n ≤ (s.files.fi ino).size) :
    n ≤ (s'.files.fi ino).size := by
  rw [fileinoTruncate, require_bind_ok, require_bind_ok, bind_ok] at h
  obtain ⟨-, -, ver, -, h⟩ := h
  obtain rfl := pure_ok.1 h
  by_cases he : ino = i
  · rw [he, Fs.setFi_files, FileState.setFi_fi_same]
    exact hk he.symm
  · rw [Fs.setFi_files, FileState.setFi_fi_ne he]
    split_ifs <;> exact hn

theorem filedescOpenAt_size {r : Except Errno ℕ}
    (h : filedescOpenAt s fd path openflags mode = .ok (r, s')) (hi : ino < fileinoGeneral)
    (hk : (Op.open (some fd) path openflags mode).Spares s ino n)
    (hn : n ≤ (s.files.fi ino).size) : n ≤ (s'.files.fi ino).size := by
  obtain ⟨hdel, htrunc⟩ := hk
  rw [filedescOpenAt, require_bind_ok, bind_ok] at h
  obtain ⟨-, ⟨r', t⟩, hw, h⟩ := h
  have hw' := dirWalk_size hw hi hdel hn
  cases r' with
  | error e =>
    cases h
    exact hw'
  | ok i =>
    simp only [require_bind_ok] at h
    obtain ⟨-, h⟩ := h
    split at h
    · cases h
      exact hw'
    split at h
    · cases h
      exact hw'
    split at h
    case isTrue ht =>
      rw [bind_ok] at h
      obtain ⟨u, hu, h⟩ := h
      rw [require_bind_ok] at h
      obtain ⟨-, h⟩ := h
      cases h
      apply fileinoTruncate_size hu _ hw'
      rintro rfl
      rcases dirWalk_ok hw hi with hf | ⟨hf, hc⟩
      · exact (htrunc hf ht).le
      · exact (hdel hf hc).le
    case isFalse =>
      rw [pure_bind, require_bind_ok] at h
      obtain ⟨-, h⟩ := h
      cases h
      exact hw'

theorem filedescOpen_size {fd : Option ℕ} {r : Except Errno ℕ}
    (h : filedescOpen s fd path openflags mode = .ok (r, s')) (hi : ino < fileinoGeneral)
    (hk : (Op.open fd path openflags mode).Spares s ino n) (hn : n ≤ (s.files.fi ino).size) :
    n ≤ (s'.files.fi ino).size := by
  cases fd with
  | some fd => exact filedescOpenAt_size h hi hk hn
  | none =>
    unfold filedescOpen at h
    cases ha : filedescAlloc s.files with
    | error e =>
      rw [ha] at h
      cases h
      exact hn
    | ok fd =>
      rw [ha] at h
      exact filedescOpenAt_size h hi hk hn

/-- A write makes no file shorter. -/
theorem fileinoWrite_size {ofs : ℤ} {buf : ℕ → UInt8} {eltsize count : ℕ} {r : Except Errno ℕ}
    (h : fileinoWrite s i ofs buf eltsize count = .ok (r, s')) :
    (s.files.fi ino).size ≤ (s'.files.fi ino).size := by
  rw [fileinoWrite, require_bind_ok, require_bind_ok, require_bind_ok, require_bind_ok] at h
  obtain ⟨-, -, -, -, h⟩ := h
  simp only at h
  split at h
  · cases h
    exact le_refl _
  · cases h
    rw [Fs.setData_files]
    split_ifs with hgrow
    · by_cases he : ino = i
      · rw [he, Fs.setFi_files, FileState.setFi_fi_same]
        exact hgrow.le
      · rw [Fs.setFi_files, FileState.setFi_fi_ne he]
    · exact le_refl _

theorem filedescWrite_size {buf : ℕ → UInt8} {eltsize count : ℕ} {r : Except Errno ℕ}
    (h : filedescWrite s fd buf eltsize count = .ok (r, s')) :
    (s.files.fi ino).size ≤ (s'.files.fi ino).size := by
  rw [filedescWrite, require_bind_ok, bind_ok] at h
  obtain ⟨-, ⟨r', t⟩, hw, h⟩ := h
  have ht : (s.files.fi ino).size ≤ (t.files.fi ino).size := by
    refine le_trans (le_of_eq ?_) (fileinoWrite_size hw)
    split_ifs <;> rfl
  cases r' with
  | error e =>
    cases h
    exact ht
  | ok m =>
    have hfin (ver : ℤ) (g : FileDesc → FileDesc) : (t.files.fi ino).size ≤
        (((t.setFi (s.files.fd fd).ino fun x => { x with ver := ver }).setFd fd g).files.fi
          ino).size := by
      change _ ≤ ((t.files.setFi (s.files.fd fd).ino fun x => { x with ver := ver }).fi ino).size
      by_cases he : ino = (s.files.fd fd).ino
      · rw [he, FileState.setFi_fi_same]
      · rw [FileState.setFi_fi_ne he]
    apply ht.trans
    simp only at h
    split at h
    · rw [pure_bind, require_bind_ok] at h
      obtain ⟨-, h⟩ := h
      cases h
      exact hfin _ _
    · rw [bind_ok] at h
      obtain ⟨ver, -, h⟩ := h
      rw [require_bind_ok] at h
      obtain ⟨-, h⟩ := h
      cases h
      exact hfin _ _

/-- An operation that spares a special file leaves it as long as it was. -/
theorem Op.run_size {op : Op} (h : op.run s = .ok s') (hi : ino < fileinoGeneral)
    (hk : op.Spares s ino n) (hn : n ≤ (s.files.fi ino).size) : n ≤ (s'.files.fi ino).size := by
  cases op with
  | walk path createmode =>
    rw [run, bind_ok] at h
    obtain ⟨⟨r, t⟩, hw, h⟩ := h
    obtain rfl := pure_ok.1 h
    exact dirWalk_size hw hi hk hn
  | «open» fd path openflags mode =>
    rw [run, bind_ok] at h
    obtain ⟨⟨r, t⟩, hw, h⟩ := h
    obtain rfl := pure_ok.1 h
    exact filedescOpen_size hw hi hk hn
  | write fd buf eltsize count =>
    rw [run, bind_ok] at h
    obtain ⟨⟨r, t⟩, hw, h⟩ := h
    obtain rfl := pure_ok.1 h
    exact hn.trans (filedescWrite_size hw)
  | truncate i newsize => exact fileinoTruncate_size h hk hn
  | seek fd offset whence =>
    rw [run, bind_ok] at h
    obtain ⟨⟨r, t⟩, hw, h⟩ := h
    obtain rfl := pure_ok.1 h
    unfold filedescSeek at hw
    simp only [require_bind_ok, pure_ok] at hw
    obtain ⟨-, -, hw⟩ := hw
    cases hw
    exact hn
  | close fd =>
    rw [run, filedescClose, require_bind_ok, require_bind_ok, pure_ok] at h
    obtain ⟨-, -, rfl⟩ := h
    exact hn

end operations

/-! ## Reconciliation -/

/-- The child's version of a file takes the place of the parent's. -/
def Overrides (p c : FileInode) : Prop :=
  c.rver < c.ver ∧ p.ver ≤ c.rver ∧ p.size ≤ toSize (toInt c.rlen)

section reconciliation

variable {s s' : Sync} {pino cino : ℤ} {d : Bool}

/-- What becomes of the inodes of a pair: these changes, and the parent's file is not shorter than
it was or as long as the child's that takes its place. -/
def Paired (s : Sync) (pino cino : ℤ) (s' : Sync) : Prop :=
  ∃ g k, s'.parent.files = s.parent.files.setFi pino g ∧
    s'.child.files = s.child.files.setFi cino k ∧
    ((s.pfi pino).size ≤ (g (s.pfi pino)).size ∨
      Overrides (s.pfi pino) (s.cfi cino) ∧ (g (s.pfi pino)).size = (s.cfi cino).size)

theorem Paired.same (s : Sync) (pino cino : ℤ) : Paired s pino cino s :=
  ⟨id, id, (FileState.setFi_id).symm, (FileState.setFi_id).symm, .inl (le_refl _)⟩

theorem Paired.of_setFi {g k : FileInode → FileInode} {t : Sync}
    (hp : t.parent.files = (s.setFi pino cino g k).parent.files)
    (hc : t.child.files = (s.setFi pino cino g k).child.files)
    (hs : (s.pfi pino).size ≤ (g (s.pfi pino)).size) : Paired s pino cino t :=
  ⟨g, k, hp, hc, .inl hs⟩

theorem Paired.setData {t : Sync} {v w : (ℕ → UInt8) → ℕ → UInt8} {cp : ℕ → UInt8}
    (h : Paired s pino cino t) :
    Paired s pino cino ⟨t.parent.setData pino v, t.child.setData cino w, cp⟩ := h

theorem reconcileMerge_paired (h : reconcileMerge s pino cino = .ok (d, s')) :
    Paired s pino cino s' := by
  rw [reconcileMerge, require_bind_ok, require_bind_ok, require_bind_ok, require_bind_ok] at h
  obtain ⟨-, -, -, -, h⟩ := h
  split at h
  · cases h
    exact .same _ _ _
  rw [require_bind_ok, require_bind_ok] at h
  obtain ⟨hpg, hcg, h⟩ := h
  split at h
  · cases h
    exact .same _ _ _
  rw [require_bind_ok, require_bind_ok, require_bind_ok, require_bind_ok] at h
  obtain ⟨hp, hc, hnew, -, h⟩ := h
  split at h
  · cases h
    exact .of_setFi rfl rfl (le_refl _)
  · cases h
    apply Paired.setData
    apply Paired.of_setFi rfl rfl
    -- the parent's file grows by what the child has appended
    dsimp only
    rw [hnew, toInt_natCast hp, toInt_eq] <;> simp only [fileMaxsize] at * <;> omega

theorem reconcileInode_paired (h : reconcileInode s pino cino = .ok (d, s')) :
    Paired s pino cino s' := by
  unfold reconcileInode at h
  simp only [require_bind_ok] at h
  obtain ⟨-, -, hcv, hpv, -, -, h⟩ := h
  split at h
  case isTrue => exact reconcileMerge_paired h
  case isFalse hlevel =>
    rw [require_bind_ok, require_bind_ok] at h
    obtain ⟨-, -, h⟩ := h
    split at h
    · cases h
      exact .of_setFi rfl rfl (le_refl _)
    split at h
    · cases h
      let p := s.pfi pino
      exact ⟨id, fun x => { x with ver := p.ver, mode := p.mode, size := p.size,
                                   rver := p.ver, rlen := p.size }, rfl, rfl, .inl (le_refl _)⟩
    · cases h
      let c := s.cfi cino
      have hov : Overrides (s.pfi pino) (s.cfi cino) := by
        rw [Overrides]
        omega
      exact ⟨fun x => { x with ver := c.ver, mode := c.mode, size := c.size },
        fun x => { x with rver := c.ver, rlen := c.size }, rfl, rfl, .inr ⟨hov, rfl⟩⟩

/-- The version and the lengths of an inode are those of another. -/
def Alike (x y : FileInode) : Prop :=
  x.ver = y.ver ∧ x.size = y.size ∧ x.rver = y.rver ∧ x.rlen = y.rlen

theorem Overrides.congr {p x y : FileInode} (h : Overrides p x) (hx : Alike x y) :
    Overrides p y ∧ x.size = y.size := by
  obtain ⟨hv, hs, hrv, hrl⟩ := hx
  rw [Overrides, hv, hrv, hrl] at h
  exact ⟨h, hs⟩

/-- `fileino_create` names a general inode at most. -/
theorem fileinoCreate_ok {f f' : FileState} {dino : ℤ} {name : List UInt8} {r : Except Errno ℤ}
    (h : fileinoCreate f dino name = .ok (r, f')) :
    (∀ i < (fileinoGeneral : ℤ), f'.fi i = f.fi i) ∧ (∀ i, Alike (f'.fi i) (f.fi i)) ∧
      (∀ i, (f'.fi i).rino = (f.fi i).rino) ∧ (inoOf r < 0 ∨ fileinoGeneral ≤ inoOf r) := by
  unfold fileinoCreate at h
  simp only [require_bind_ok] at h
  obtain ⟨-, -, -, h⟩ := h
  split at h
  case h_1 i hi =>
    cases h
    exact ⟨fun _ _ => rfl, fun _ => ⟨rfl, rfl, rfl, rfl⟩, fun _ => rfl,
      .inr (mem_inos.1 (List.mem_of_find?_eq_some hi)).1⟩
  split at h
  case h_1 i hi =>
    cases h
    have hge := (mem_inos.1 (List.mem_of_find?_eq_some hi)).1
    refine ⟨fun j hj => FileState.setFi_fi_ne (by omega), fun j => ?_, fun j => ?_, .inr hge⟩
    · by_cases he : j = i
      · rw [he, FileState.setFi_fi_same]
        exact ⟨rfl, rfl, rfl, rfl⟩
      · rw [FileState.setFi_fi_ne he]
        exact ⟨rfl, rfl, rfl, rfl⟩
    · by_cases he : j = i
      · rw [he, FileState.setFi_fi_same]
      · rw [FileState.setFi_fi_ne he]
  case h_2 =>
    cases h
    exact ⟨fun _ _ => rfl, fun _ => ⟨rfl, rfl, rfl, rfl⟩, fun _ => rfl, .inl (by decide)⟩

/-- What the first two passes leave of a special inode: it is as it was, and corresponds to the same
inode of the child or to one that refers to it. -/
structure Linked (s : Sync) (ino : ℤ) (t : Scan) : Prop where
  parent : t.sync.pfi ino = s.pfi ino
  child : ∀ c, Alike (t.sync.cfi c) (s.cfi c)
  mapped : t.p2c ino ≠ 0
  mate : t.p2c ino = ino ∨ (s.cfi (t.p2c ino)).rino = ino

variable {ino : ℤ} {t t' : Scan}

/-- The inodes of the child that refer to the special one did so before. -/
def Referring (s : Sync) (ino : ℤ) (t : Scan) : Prop :=
  ∀ c, (t.sync.cfi c).rino = ino → (s.cfi c).rino = ino

theorem Linked.init (h0 : 0 < ino) (h3 : ino < fileinoGeneral) : Linked s ino (Scan.init s) := by
  have hs : (Scan.init s).p2c ino = ino := if_pos ⟨h0, Int.le_of_lt_add_one h3⟩
  exact ⟨rfl, fun _ => ⟨rfl, rfl, rfl, rfl⟩, by rw [hs]; exact h0.ne', .inl hs⟩

theorem Linked.look (h : Linked s ino t) (i : ℤ) : Linked s ino (t.look i) := ⟨h.1, h.2, h.3, h.4⟩

theorem Linked.link (h : Linked s ino t) (hr : Referring s ino t) (hc : cino ≠ 0) :
    Linked s ino (t.link cino) ∧ Referring s ino (t.link cino) := by
  unfold Scan.link
  simp only
  split_ifs with hbad hmis
  · exact ⟨h.look _, hr⟩
  · exact ⟨h.look _, hr⟩
  · refine ⟨⟨h.parent, h.child, ?_, ?_⟩, hr⟩
    · by_cases he : ino = (t.sync.cfi cino).rino
      · rw [← he, Scan.map]
        simpa using hc
      · simpa [Scan.map, Scan.look, he] using h.mapped
    · by_cases he : ino = (t.sync.cfi cino).rino
      · right
        simp only [Scan.map, ← he, Function.update_self]
        exact hr cino he.symm
      · simpa [Scan.map, Scan.look, he] using h.mate

theorem Linked.mapChild (h : Linked s ino t) (hr : Referring s ino t) (h0 : 0 < ino)
    (h3 : ino < fileinoGeneral) (hc : cino ≠ 0) (ht : mapChild t cino = .ok t') :
    Linked s ino t' ∧ Referring s ino t' := by
  unfold File.mapChild at ht
  simp only at ht
  split at ht
  · cases ht
    exact ⟨h, hr⟩
  split at ht
  · split at ht
    · cases ht
      exact ⟨h, hr⟩
    · rw [bind_ok] at ht
      obtain ⟨⟨r, files⟩, hf, ht⟩ := ht
      obtain ⟨hlow, -, -, hino⟩ := fileinoCreate_ok hf
      have hset : Linked s ino { t with sync := { t.sync with
          parent := { t.sync.parent with files := files }
          child := t.sync.child.setFi cino fun x => { x with rino := inoOf r } } } := by
        refine ⟨(hlow ino h3).trans h.parent, fun c => ?_, h.mapped, h.mate⟩
        rw [Sync.cfi, Fs.setFi_files]
        by_cases he : c = cino
        · rw [he, FileState.setFi_fi_same]
          exact h.child cino
        · rw [FileState.setFi_fi_ne he]
          exact h.child c
      have hrset : Referring s ino { t with sync := { t.sync with
          parent := { t.sync.parent with files := files }
          child := t.sync.child.setFi cino fun x => { x with rino := inoOf r } } } := by
        intro c hce
        rw [Sync.cfi, Fs.setFi_files] at hce
        by_cases he : c = cino
        · rw [he, FileState.setFi_fi_same] at hce
          simp only at hce
          omega
        · rw [FileState.setFi_fi_ne he] at hce
          exact hr c hce
      split at ht
      · cases ht
        exact ⟨hset, hrset⟩
      · cases ht
        exact hset.link hrset hc
  · cases ht
    exact h.link hr hc

theorem Linked.mapParent (h : Linked s ino t) (ht : mapParent t pino = .ok t') :
    Linked s ino t' := by
  unfold File.mapParent at ht
  simp only at ht
  split at ht
  · cases ht
    exact h
  case isFalse hn =>
    rw [bind_ok] at ht
    obtain ⟨⟨r, files⟩, hf, ht⟩ := ht
    obtain ⟨-, halike, -, -⟩ := fileinoCreate_ok hf
    have hne : ino ≠ pino := by
      rintro rfl
      exact hn (.inr (.inr h.mapped))
    have hchild (c : ℤ) : Alike (files.fi c) (s.cfi c) := by
      obtain ⟨h1, h2, h3, h4⟩ := halike c
      obtain ⟨k1, k2, k3, k4⟩ := h.child c
      exact ⟨h1.trans k1, h2.trans k2, h3.trans k3, h4.trans k4⟩
    split at ht
    · cases ht
      exact ⟨h.parent, hchild, h.mapped, h.mate⟩
    · cases ht
      refine ⟨h.parent, fun c => ?_, ?_, ?_⟩
      · simp only [Scan.map, Sync.cfi, Fs.setFi_files]
        by_cases he : c = inoOf r
        · rw [he, FileState.setFi_fi_same]
          exact hchild (inoOf r)
        · rw [FileState.setFi_fi_ne he]
          exact hchild c
      · simpa [Scan.map, Scan.look, hne] using h.mapped
      · simpa [Scan.map, Scan.look, hne] using h.mate

theorem scan_linked (h0 : 0 < ino) (h3 : ino < fileinoGeneral) (h : scan s = .ok t) :
    Linked s ino t := by
  rw [scan, bind_ok] at h
  obtain ⟨u, hu, h⟩ := h
  have hpos : ∀ c ∈ inos 1, c ≠ 0 := fun c hc => by have := (mem_inos.1 hc).1; omega
  have hfirst := foldlM_keeps
    (I := fun cs v => (∀ c ∈ cs, c ≠ 0) ∧ Linked s ino v ∧ Referring s ino v)
    (fun c cs v w hv hw => ⟨fun c hc => hv.1 c (.tail _ hc),
      hv.2.1.mapChild hv.2.2 h0 h3 (hv.1 c (.head _)) hw⟩)
    (inos 1) _ u ⟨hpos, .init h0 h3, fun _ hc => hc⟩ hu
  exact foldlM_keeps (I := fun _ v => Linked s ino v) (fun _ _ _ _ hv hw => hv.mapParent hw)
    (inos 1) u t hfirst.2.1 h

/-- Before its round in the third pass a special inode and its mate are as they were; after it, the
file has at least `n` bytes. -/
def Passing (s : Sync) (ino mate : ℤ) (c2p : ℤ → ℤ) (n : ℕ) (as : List ℤ) (r : Bool × Sync) : Prop :=
  as.Nodup ∧ if ino ∈ as then
      r.2.pfi ino = s.pfi ino ∧ (c2p mate = ino → Alike (r.2.cfi mate) (s.cfi mate))
    else n ≤ (r.2.pfi ino).size

/-- A round of the third pass for another inode. -/
theorem mapPair_other {p2c c2p : ℤ → ℤ} {r r' : Bool × Sync} {a : ℤ} (hne : ino ≠ a)
    (h : mapPair p2c c2p r a = .ok r') :
    r'.2.pfi ino = r.2.pfi ino ∧ (c2p (p2c ino) = ino → r'.2.cfi (p2c ino) = r.2.cfi (p2c ino)) := by
  unfold mapPair at h
  split at h
  · cases h
    exact ⟨rfl, fun _ => rfl⟩
  · rw [require_bind_ok, bind_ok] at h
    obtain ⟨hback, ⟨d, u⟩, hu, h⟩ := h
    cases h
    obtain ⟨g, k, hp, hc, -⟩ := reconcileInode_paired hu
    refine ⟨?_, fun hmate => ?_⟩
    · rw [Sync.pfi, hp, FileState.setFi_fi_ne hne]
      rfl
    · rw [Sync.cfi, hc, FileState.setFi_fi_ne fun he => hne (by rw [← hmate, he, hback])]
      rfl

theorem Passing.mapPair {p2c c2p : ℤ → ℤ} {r r' : Bool × Sync} {n : ℕ} {a : ℤ} {as : List ℤ}
    (h : Passing s ino (p2c ino) c2p n (a :: as) r) (hmapped : p2c ino ≠ 0)
    (hk : Overrides (s.pfi ino) (s.cfi (p2c ino)) → n ≤ (s.cfi (p2c ino)).size)
    (hn : n ≤ (s.pfi ino).size) (ht : mapPair p2c c2p r a = .ok r') :
    Passing s ino (p2c ino) c2p n as r' := by
  obtain ⟨hnd, h⟩ := h
  obtain ⟨hnot, hnd⟩ := List.nodup_cons.1 hnd
  refine ⟨hnd, ?_⟩
  by_cases he : ino = a
  · subst he
    rw [if_pos List.mem_cons_self] at h
    obtain ⟨hpfi, hmate⟩ := h
    rw [if_neg hnot]
    unfold File.mapPair at ht
    rw [if_neg hmapped, require_bind_ok, bind_ok] at ht
    obtain ⟨hback, ⟨d, u⟩, hu, ht⟩ := ht
    cases ht
    obtain ⟨g, k, hp, -, hsize⟩ := reconcileInode_paired hu
    have hend : (u.pfi ino).size = (g (r.2.pfi ino)).size := by
      rw [Sync.pfi, hp, FileState.setFi_fi_same]
      rfl
    rw [hend]
    rw [hpfi] at hsize ⊢
    rcases hsize with hle | ⟨hov, hsize⟩
    · exact hn.trans hle
    · obtain ⟨hov, heq⟩ := hov.congr (hmate hback)
      rw [hsize, heq]
      exact hk hov
  · obtain ⟨hpfi, hmate⟩ := mapPair_other he ht
    simp only [List.mem_cons, he, false_or] at h
    split_ifs with hin
    · rw [if_pos hin] at h
      exact ⟨hpfi.trans h.1, fun hback => by rw [hmate hback]; exact h.2 hback⟩
    · rw [if_neg hin] at h
      rw [hpfi]
      exact h

/-- Reconciliation leaves a special file of the parent as long as it was, unless the version of the
child takes its place. -/
theorem reconcile_size {r : Reconciled} {n : ℕ} (h : reconcile s = .ok r) (h0 : 0 < ino)
    (h3 : ino < fileinoGeneral) (hk : ∀ c, c = ino ∨ (s.cfi c).rino = ino →
      Overrides (s.pfi ino) (s.cfi c) → n ≤ (s.cfi c).size) (hn : n ≤ (s.pfi ino).size) :
    n ≤ (r.sync.pfi ino).size := by
  rw [reconcile, bind_ok] at h
  obtain ⟨t, ht, h⟩ := h
  rw [bind_ok] at h
  obtain ⟨⟨d, u⟩, hu, h⟩ := h
  cases h
  obtain ⟨hparent, hchild, hmapped, hmate⟩ := scan_linked h0 h3 ht
  have hov : Overrides (t.sync.pfi ino) (t.sync.cfi (t.p2c ino)) →
      n ≤ (t.sync.cfi (t.p2c ino)).size := by
    intro hov
    obtain ⟨hov, hsize⟩ := hov.congr (hchild _)
    rw [hparent] at hov
    rw [hsize]
    exact hk _ hmate hov
  have hnd : (inos 1).Nodup :=
    List.Nodup.map (fun _ _ he => Int.ofNat.inj he) List.nodup_range'
  have hstart : Passing t.sync ino (t.p2c ino) t.c2p n (inos 1) (false, t.sync) := by
    refine ⟨hnd, ?_⟩
    rw [if_pos (mem_inos.2 ⟨by omega, lt_trans h3 (by decide)⟩)]
    exact ⟨rfl, fun _ => ⟨rfl, rfl, rfl, rfl⟩⟩
  have hend := foldlM_keeps (fun a as v w hv hw => hv.mapPair hmapped hov (by rwa [hparent]) hw)
    (inos 1) _ _ hstart hu
  exact (if_neg List.not_mem_nil ▸ hend.2 :)

end reconciliation

end Determinator.File
