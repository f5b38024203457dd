import Determinator.File.Strings
import Mathlib.Algebra.BigOperators.Group.Finset.Basic
import Mathlib.Algebra.BigOperators.Ring.Finset

/-!
# Reading a file that grows

While a read waits for a partial file, every `sys_ret` may bring more of it. The loop of
`fileino_read` moves its buffer on by what it has delivered, but not its offset in the file, so
after every `sys_ret` it delivers the elements behind the same offset once more. The read is right
when all its elements come in one round, and otherwise only if the file happens to repeat itself.
-/

namespace Determinator.File

open Finset

section rounds

variable (a : Area) (ino : ℤ) (es : List Arrival) (ofs eltsize count : ℕ)

/-- The state after the first `i` arrivals. -/
def Area.after (i : ℕ) : Area := (es.take i).foldl (fun b e => b.arrive ino e) a

/-- The size of the file after `i` arrivals. -/
def sizeAt (i : ℕ) : ℕ := ((a.after ino es i).files.fi ino).size

/-- The file is still partial after `i` arrivals. -/
def PartAt (i : ℕ) : Prop := ((a.after ino es i).files.fi ino).mode &&& sIfpart ≠ 0

/-- The whole elements behind the offset after `i` arrivals. -/
def elements (i : ℕ) : ℕ := (sizeAt a ino es i - ofs) / eltsize

/-- What `i` rounds count: all elements behind the offset, in every round. -/
def counted (i : ℕ) : ℕ := ∑ j ∈ range i, elements a ino es ofs eltsize j

/-- What `i` rounds deliver. -/
def delivered (i : ℕ) : ℕ := min count (counted a ino es ofs eltsize i)

/-- The read returns after `r` arrivals. -/
def Ends (r : ℕ) : Prop :=
  (count ≤ counted a ino es ofs eltsize (r + 1) ∨ ¬ PartAt a ino es r) ∧
    ∀ j < r, counted a ino es ofs eltsize (j + 1) < count ∧ PartAt a ino es j

/-- The file has as much behind the offset as was delivered, and what each round delivered, the bytes
at the offset, is also what was due. -/
structure Repeats (r : ℕ) : Prop where
  size : ofs + delivered a ino es ofs eltsize count (r + 1) * eltsize ≤ sizeAt a ino es r
  bound : ofs + delivered a ino es ofs eltsize count (r + 1) * eltsize < 2 ^ 31
  bytes : ∀ j ≤ r, ∀ k < (delivered a ino es ofs eltsize count (j + 1) -
      delivered a ino es ofs eltsize count j) * eltsize,
    (a.after ino es r).data ino (ofs + k) =
      (a.after ino es r).data ino (ofs + delivered a ino es ofs eltsize count j * eltsize + k)

/-- What the loop delivers by the time it returns. -/
def loopBuf (r : ℕ) : List UInt8 :=
  (List.range (r + 1)).flatMap fun j =>
    bytes ((a.after ino es r).data ino) ofs ((delivered a ino es ofs eltsize count (j + 1) -
      delivered a ino es ofs eltsize count j) * eltsize)

end rounds

/-! ## Arrivals -/

section arrivals

variable {a : Area} {ino : ℤ} {e : Arrival} {es : List Arrival} {ofs eltsize count i k : ℕ}

@[simp] theorem Area.after_zero : a.after ino es 0 = a := rfl

@[simp] theorem Area.after_cons :
    a.after ino (e :: es) (i + 1) = (a.arrive ino e).after ino es i := rfl

theorem Area.arrive_size : ((a.arrive ino e).files.fi ino).size =
    (a.files.fi ino).size + e.bytes.length := by
  simp [Area.arrive, Area.setFi, Area.setData, Area.setPerm]

theorem Area.arrive_data (h : k < (a.files.fi ino).size) :
    (a.arrive ino e).data ino k = a.data ino k := by
  simp [Area.arrive, Area.setFi, Area.setData, Area.setPerm, memcpy, not_le.2 h]

theorem Area.arrive_perm (h : k < pages ((a.arrive ino e).files.fi ino).size) :
    (a.arrive ino e).perm ino k = .rw := by
  rw [Area.arrive_size] at h
  simp [Area.arrive, Area.setFi, Area.setData, Area.setPerm, h]

/-- What is in the file stays there. -/
theorem Area.after_data (h : k < (a.files.fi ino).size) :
    (a.after ino es i).data ino k = a.data ino k := by
  induction es generalizing a i with
  | nil => simp [Area.after]
  | cons e es ih =>
    cases i with
    | zero => rfl
    | succ i =>
      rw [Area.after_cons, ih (by rw [Area.arrive_size]; omega), Area.arrive_data h]

theorem counted_one : counted a ino es ofs eltsize 1 = elements a ino es ofs eltsize 0 := by
  simp [counted]

theorem counted_cons : counted a ino (e :: es) ofs eltsize (i + 1) =
    elements a ino (e :: es) ofs eltsize 0 + counted (a.arrive ino e) ino es ofs eltsize i := by
  unfold counted
  rw [sum_range_succ', Nat.add_comm]
  rfl

/-- The rounds after the first one deliver as a read of what the first one has left. -/
theorem delivered_cons (h : elements a ino (e :: es) ofs eltsize 0 ≤ count) :
    delivered a ino (e :: es) ofs eltsize count (i + 1) =
      elements a ino (e :: es) ofs eltsize 0 + delivered (a.arrive ino e) ino es ofs eltsize
        (count - elements a ino (e :: es) ofs eltsize 0) i := by
  unfold delivered
  rw [counted_cons]
  omega

end arrivals

/-! ## The loop -/

section loop

variable {a : Area} {ino : ℤ} {e : Arrival} {es : List Arrival} {ofs eltsize count r : ℕ}

/-- A round reads what is there of the file, which it may. -/
theorem readRound_ok (es : List Arrival)
    (hrw : ∀ k < pages (a.files.fi ino).size, a.perm ino k = .rw) :
    readRound ino ofs eltsize a count =
      .ok (min count (elements a ino es ofs eltsize 0),
        bytes (a.data ino) ofs (min count (elements a ino es ofs eltsize 0) * eltsize)) := by
  have hg : a.Granted Perm.read ino ofs
      (avail ofs eltsize (a.files.fi ino).size count * eltsize) := by
    have hle : avail ofs eltsize (a.files.fi ino).size count * eltsize ≤
        (a.files.fi ino).size - ofs := avail_mul_le _
    intro k hk hpos hlt
    exact Area.granted_of_rw rfl hrw (by omega) k hk hpos hlt
  unfold readRound
  simp only
  rw [require_bind hg, avail_eq]
  rfl

theorem delivered_one : delivered a ino es ofs eltsize count 1 =
    min count (elements a ino es ofs eltsize 0) := by
  rw [delivered, counted_one]

theorem delivered_zero : delivered a ino es ofs eltsize count 0 = 0 := by
  simp [delivered, counted]

/-- A read that ends in its first round. -/
theorem loopBuf_zero : loopBuf a ino es ofs eltsize count 0 =
    bytes (a.data ino) ofs (min count (elements a ino es ofs eltsize 0) * eltsize) := by
  simp [loopBuf, delivered_one, delivered_zero]

/-- What is delivered after the first round is what a read of the rest delivers. -/
theorem loopBuf_cons (h : elements a ino (e :: es) ofs eltsize 0 ≤ count) :
    loopBuf a ino (e :: es) ofs eltsize count (r + 1) =
      bytes (a.data ino) ofs (elements a ino (e :: es) ofs eltsize 0 * eltsize) ++
        loopBuf (a.arrive ino e) ino es ofs eltsize
          (count - elements a ino (e :: es) ofs eltsize 0) r := by
  unfold loopBuf
  rw [List.range_succ_eq_map, List.flatMap_cons, List.flatMap_map]
  congr 1
  · rw [delivered_one, delivered_zero, min_eq_right h, Nat.sub_zero, bytes_eq_iff]
    intro k hk
    apply Area.after_data
    have : elements a ino (e :: es) ofs eltsize 0 * eltsize ≤ (a.files.fi ino).size - ofs :=
      Nat.div_mul_le_self _ _
    omega
  · apply congrArg fun f => List.flatMap f (List.range (r + 1))
    funext j
    rw [Area.after_cons, delivered_cons h, delivered_cons h, Nat.add_sub_add_left]

theorem ends_zero : Ends a ino es ofs eltsize count 0 ↔
    count ≤ elements a ino es ofs eltsize 0 ∨ ¬ PartAt a ino es 0 := by
  unfold Ends
  rw [counted_one]
  simp

/-- A read goes on as a read of the rest. -/
theorem ends_succ (h : elements a ino (e :: es) ofs eltsize 0 < count)
    (hp : PartAt a ino (e :: es) 0) :
    Ends a ino (e :: es) ofs eltsize count (r + 1) ↔
      Ends (a.arrive ino e) ino es ofs eltsize
        (count - elements a ino (e :: es) ofs eltsize 0) r := by
  unfold Ends
  rw [counted_cons]
  constructor
  · rintro ⟨hend, hj⟩
    refine ⟨hend.imp_left fun h => by omega, ?_⟩
    intro j hlt
    have := hj (j + 1) (by omega)
    rw [counted_cons] at this
    exact ⟨by omega, this.2⟩
  · rintro ⟨hend, hj⟩
    refine ⟨hend.imp_left fun h => by omega, ?_⟩
    intro j hlt
    cases j with
    | zero =>
      rw [counted_one]
      exact ⟨h, hp⟩
    | succ j =>
      have := hj j (by omega)
      rw [counted_cons]
      exact ⟨by omega, this.2⟩

/-- The test after a round. -/
theorem ends_zero_iff : Ends a ino es ofs eltsize count 0 ↔
    count - min count (elements a ino es ofs eltsize 0) = 0 ∨
      (a.files.fi ino).mode &&& sIfpart = 0 := by
  rw [ends_zero]
  unfold PartAt
  rw [Area.after_zero, not_not]
  refine or_congr ?_ Iff.rfl
  omega

/-- A loop that can end after its first round does. -/
theorem readLoop_ends (hrw : ∀ k < pages (a.files.fi ino).size, a.perm ino k = .rw)
    (h : Ends a ino es ofs eltsize count 0) :
    readLoop ino ofs eltsize es a count =
      .ok (some ⟨delivered a ino es ofs eltsize count 1,
        loopBuf a ino es ofs eltsize count 0, a⟩) := by
  rw [loopBuf_zero, delivered_one]
  rw [ends_zero_iff] at h
  cases count with
  | zero => simp [readLoop, bytes, pure, Except.pure]
  | succ count =>
    cases es with
    | nil =>
      rw [readLoop, readRound_ok [] hrw, ok_bind]
      simp only
      rw [if_pos h]
      rfl
    | cons e es =>
      rw [readLoop, readRound_ok (e :: es) hrw, ok_bind]
      simp only
      rw [if_pos h]
      rfl

/-- The loop returns after the first arrivals that end it with what its rounds deliver, and waits
where there are none. -/
theorem readLoop_spec (a : Area) (es : List Arrival) (count : ℕ)
    (hrw : ∀ k < pages (a.files.fi ino).size, a.perm ino k = .rw) :
    (∃ r ≤ es.length, Ends a ino es ofs eltsize count r ∧
      readLoop ino ofs eltsize es a count =
        .ok (some ⟨delivered a ino es ofs eltsize count (r + 1),
          loopBuf a ino es ofs eltsize count r, a.after ino es r⟩)) ∨
    (∀ r ≤ es.length, ¬ Ends a ino es ofs eltsize count r) ∧
      readLoop ino ofs eltsize es a count = .ok none := by
  induction es generalizing a count with
  | nil =>
    by_cases h0 : Ends a ino [] ofs eltsize count 0
    · exact .inl ⟨0, le_rfl, h0, readLoop_ends hrw h0⟩
    refine .inr ⟨fun r hr => by rwa [Nat.le_zero.1 hr], ?_⟩
    rw [ends_zero_iff] at h0
    cases count with
    | zero => exact absurd (.inl (Nat.zero_sub _)) h0
    | succ count =>
      rw [readLoop, readRound_ok [] hrw, ok_bind]
      simp only
      rw [if_neg h0]
      rfl
  | cons e es ih =>
    by_cases h0 : Ends a ino (e :: es) ofs eltsize count 0
    · exact .inl ⟨0, Nat.zero_le _, h0, readLoop_ends hrw h0⟩
    have hstop := h0
    rw [ends_zero_iff] at hstop
    rw [ends_zero, not_or, not_le, not_not] at h0
    obtain ⟨hlt, hpart⟩ := h0
    have hloop : readLoop ino ofs eltsize (e :: es) a count = (do
        let r ← readLoop ino ofs eltsize es (a.arrive ino e)
          (count - elements a ino (e :: es) ofs eltsize 0)
        return r.map (·.after (elements a ino (e :: es) ofs eltsize 0)
          (bytes (a.data ino) ofs (elements a ino (e :: es) ofs eltsize 0 * eltsize)))) := by
      cases count with
      | zero => exact absurd hlt (Nat.not_lt_zero _)
      | succ count =>
        rw [readLoop, readRound_ok (e :: es) hrw, ok_bind]
        simp only
        rw [if_neg hstop, min_eq_right hlt.le]
    rw [hloop]
    obtain ⟨r, hr, hends, hread⟩ | ⟨hnone, hread⟩ :=
      ih (a.arrive ino e) (count - elements a ino (e :: es) ofs eltsize 0)
        fun k hk => Area.arrive_perm hk
    · refine .inl ⟨r + 1, Nat.succ_le_succ hr, (ends_succ hlt hpart).2 hends, ?_⟩
      rw [hread, delivered_cons hlt.le, loopBuf_cons hlt.le, Area.after_cons]
      rfl
    · refine .inr ⟨?_, by rw [hread]; rfl⟩
      intro r hr
      cases r with
      | zero =>
        rw [ends_zero, not_or, not_le, not_not]
        exact ⟨hlt, hpart⟩
      | succ r =>
        rw [ends_succ hlt hpart]
        exact hnone r (Nat.le_of_succ_le_succ hr)

end loop

/-! ## What was due -/

/-- Lists that are put together from pieces of the same lengths are equal when all pieces are. -/
theorem flatMap_range_inj {α : Type} {f g : ℕ → List α} {m : ℕ}
    (hlen : ∀ j, (f j).length = (g j).length) :
    (List.range m).flatMap f = (List.range m).flatMap g ↔ ∀ j < m, f j = g j := by
  induction m with
  | zero => simp
  | succ m ih =>
    rw [List.range_succ, List.flatMap_append, List.flatMap_append, List.flatMap_singleton,
      List.flatMap_singleton]
    constructor
    · intro h
      obtain ⟨hinit, hlast⟩ := List.append_inj' h (hlen m)
      intro j hj
      obtain hj | rfl := Nat.lt_succ_iff_lt_or_eq.1 hj
      · exact ih.1 hinit j hj
      · exact hlast
    · intro h
      rw [ih.2 fun j hj => h j (by omega), h m (Nat.lt_succ_self m)]

/-- A string of bytes, piece by piece. -/
theorem bytes_sum (d : ℕ → UInt8) (o m : ℕ) (c : ℕ → ℕ) :
    bytes d o (∑ j ∈ range m, c j) =
      (List.range m).flatMap fun j => bytes d (o + ∑ i ∈ range j, c i) (c j) := by
  induction m with
  | zero => rfl
  | succ m ih =>
    rw [sum_range_succ, bytes_add, ih, List.range_succ, List.flatMap_append,
      List.flatMap_singleton]

section due

variable {a : Area} {ino : ℤ} {es : List Arrival} {ofs eltsize count r r' fd : ℕ}

theorem delivered_mono : Monotone (delivered a ino es ofs eltsize count) := by
  apply monotone_nat_of_le_succ
  intro i
  unfold delivered counted
  rw [sum_range_succ]
  omega

theorem sum_delivered (m : ℕ) :
    ∑ j ∈ range m, (delivered a ino es ofs eltsize count (j + 1) -
      delivered a ino es ofs eltsize count j) * eltsize =
      delivered a ino es ofs eltsize count m * eltsize := by
  rw [← sum_mul, sum_range_tsub delivered_mono, delivered_zero, Nat.sub_zero]

/-- The loop delivers what was due when what each round delivers is also what follows in the file. -/
theorem loopBuf_eq_iff : loopBuf a ino es ofs eltsize count r =
      bytes ((a.after ino es r).data ino) ofs
        (delivered a ino es ofs eltsize count (r + 1) * eltsize) ↔
    ∀ j ≤ r, ∀ k < (delivered a ino es ofs eltsize count (j + 1) -
        delivered a ino es ofs eltsize count j) * eltsize,
      (a.after ino es r).data ino (ofs + k) =
        (a.after ino es r).data ino (ofs + delivered a ino es ofs eltsize count j * eltsize + k) := by
  unfold loopBuf
  rw [← sum_delivered, bytes_sum, flatMap_range_inj fun j => by simp]
  simp only [bytes_eq_iff, sum_delivered, Nat.lt_succ_iff]

/-- A read ends only once. -/
theorem Ends.unique (h : Ends a ino es ofs eltsize count r)
    (h' : Ends a ino es ofs eltsize count r') : r = r' := by
  obtain hlt | heq | hlt := lt_trichotomy r r'
  · obtain ⟨hc, hp⟩ := h'.2 r hlt
    exact absurd h.1 (not_or.2 ⟨not_le.2 hc, not_not.2 hp⟩)
  · exact heq
  · obtain ⟨hc, hp⟩ := h.2 r' hlt
    exact absurd h'.1 (not_or.2 ⟨not_le.2 hc, not_not.2 hp⟩)

/-- A descriptor for reading a regular file, which is at a place in the file or at its end. -/
structure Reads (a : Area) (fd : ℕ) : Prop where
  readable : a.files.isreadable fd
  reg : a.files.isreg (a.files.fd fd).ino
  perm : ∀ k < pages (a.files.fi (a.files.fd fd).ino).size, a.perm (a.files.fd fd).ino k = .rw
  pos : 0 ≤ (a.files.fd fd).ofs
  bound : (a.files.fd fd).ofs < 2 ^ 31
  inside : (a.files.fd fd).ofs.toNat ≤ (a.files.fi (a.files.fd fd).ino).size

/-- A read delivers up to `count` elements, and fewer only of a file that is not partial any more,
and these are the bytes of the file from the offset on, past which the offset moves. It waits
only while fewer than `count` are there. -/
def InOrder (a : Area) (es : List Arrival) (fd eltsize count : ℕ) : Prop :=
  let ino := (a.files.fd fd).ino
  let ofs := (a.files.fd fd).ofs.toNat
  match a.filedescRead es fd eltsize count with
  | .error _ => False
  | .ok none =>
    elements a ino es ofs eltsize es.length < count ∧ PartAt a ino es es.length
  | .ok (some r) =>
    r.actual ≤ count ∧ (r.actual < count → (r.area.files.fi ino).mode &&& sIfpart = 0) ∧
      ofs + r.actual * eltsize ≤ (r.area.files.fi ino).size ∧
      r.buf = bytes (r.area.data ino) ofs (r.actual * eltsize) ∧
      (r.area.files.fd fd).ofs = (ofs + r.actual * eltsize : ℕ)

theorem Area.after_fd {i : ℕ} : (a.after ino es i).files.fd = a.files.fd := by
  unfold Area.after
  induction es.take i generalizing a with
  | nil => rfl
  | cons e es ih => exact ih

/-- Where all elements come in the last round nothing is delivered twice. -/
theorem repeats_of_last (h : delivered a ino es ofs eltsize count r = 0)
    (hs : sizeAt a ino es r < 2 ^ 31) (ho : ofs ≤ sizeAt a ino es r) :
    Repeats a ino es ofs eltsize count r := by
  have hle : delivered a ino es ofs eltsize count (r + 1) * eltsize ≤ sizeAt a ino es r - ofs := by
    have hd : delivered a ino es ofs eltsize count (r + 1) ≤ elements a ino es ofs eltsize r := by
      unfold delivered counted at h ⊢
      rw [sum_range_succ]
      omega
    exact (Nat.mul_le_mul_right _ hd).trans (Nat.div_mul_le_self _ _)
  have hzero : ∀ j ≤ r, delivered a ino es ofs eltsize count j = 0 := by
    intro j hj
    have : delivered a ino es ofs eltsize count j ≤ delivered a ino es ofs eltsize count r :=
      delivered_mono hj
    omega
  refine ⟨by omega, by omega, ?_⟩
  intro j hj k _
  rw [hzero j hj, Nat.zero_mul, Nat.add_zero]

/-- A read that never ends waits for a file that stays partial and never has all of the rest. -/
theorem waits_of_not_ends {m : ℕ} (h : ∀ r ≤ m, ¬ Ends a ino es ofs eltsize count r) :
    ∀ r ≤ m, counted a ino es ofs eltsize (r + 1) < count ∧ PartAt a ino es r := by
  intro r
  induction r using Nat.strong_induction_on with
  | h r ih =>
    intro hr
    have hn := h r hr
    unfold Ends at hn
    rw [not_and_or, not_or, not_le, not_not] at hn
    obtain hn | hn := hn
    · exact hn
    · exact absurd (fun j hj => ih j hj (by omega)) hn

theorem toInt_lt (x : ℤ) : toInt x < 2 ^ 31 := by
  unfold toInt
  have := Int.bmod_lt (x := x) (m := 2 ^ 32) (by decide)
  omega

/-- The descriptor after a read of `n` elements. -/
theorem filedescRead_eq (h : Reads a fd) (he : 0 < eltsize) :
    a.filedescRead es fd eltsize count =
      readLoop (a.files.fd fd).ino (a.files.fd fd).ofs.toNat eltsize es a count >>= fun r =>
        match r with
        | none => .ok none
        | some r => do
          let b := r.area.setFd fd fun x => { x with ofs := toInt (x.ofs + eltsize * r.actual) }
          require (r.actual = 0 ∨
            toSize (b.files.fd fd).ofs ≤ (b.files.fi (a.files.fd fd).ino).size) .filedescRead
          return some { r with area := b } := by
  rw [Area.filedescRead, require_bind h.readable]
  simp only
  rw [Area.fileinoRead, require_bind h.reg, require_bind h.pos, require_bind he]
  congr 1

/-- A read whose loop has returned is in order when the file has what was delivered, at a place that
`off_t` can hold, and it is what was due. -/
theorem inOrder_of_loop (h : Reads a fd) (he : 0 < eltsize) {n o : ℕ} {buf : List UInt8} {b : Area}
    (ho : (a.files.fd fd).ofs.toNat + n * eltsize = o)
    (hloop : readLoop (a.files.fd fd).ino (a.files.fd fd).ofs.toNat eltsize es a count =
      .ok (some ⟨n, buf, b⟩))
    (hfd : b.files.fd = a.files.fd) (hn : n ≤ count)
    (hpart : n < count → (b.files.fi (a.files.fd fd).ino).mode &&& sIfpart = 0) :
    InOrder a es fd eltsize count ↔
      o ≤ (b.files.fi (a.files.fd fd).ino).size ∧ o < 2 ^ 31 ∧
        buf = bytes (b.data (a.files.fd fd).ino) (a.files.fd fd).ofs.toNat (n * eltsize) := by
  have hsum : (a.files.fd fd).ofs + eltsize * n = o := by
    rw [← ho, Nat.cast_add, Int.toNat_of_nonneg h.pos, Nat.mul_comm, Nat.cast_mul]
  unfold InOrder
  rw [filedescRead_eq h he, hloop, ok_bind]
  simp only
  rw [Area.setFd_fd_same, Area.setFd_fi, hfd]
  simp only
  rw [hsum]
  by_cases hassert : n = 0 ∨ toSize (toInt o) ≤ (b.files.fi (a.files.fd fd).ino).size
  · rw [require_bind hassert]
    change _ ∧ _ ∧ _ ∧ _ ∧ ((b.setFd fd _).files.fd fd).ofs = _ ↔ _
    rw [Area.setFd_fd_same, hfd, Area.setFd_fi, Area.setFd_data]
    simp only
    rw [hsum, ho]
    constructor
    · rintro ⟨-, -, hsize, hbuf, hint⟩
      refine ⟨hsize, ?_, hbuf⟩
      have := toInt_lt o
      omega
    · rintro ⟨hsize, hlt, hbuf⟩
      exact ⟨hn, hpart, hsize, hbuf, toInt_eq (by omega) (by omega)⟩
  · have herr : (require (n = 0 ∨ toSize (toInt o) ≤ (b.files.fi (a.files.fd fd).ino).size)
        Site.filedescRead : Except Site Unit) = .error .filedescRead := if_neg hassert
    rw [herr, error_bind]
    refine ⟨False.elim, ?_⟩
    rintro ⟨hsize, hlt, -⟩
    apply hassert
    rw [toInt_eq (by omega) (by omega), toSize_natCast (by omega)]
    exact .inr hsize

/-- A read of a file that grows delivers it in order exactly when elements have bytes and, when
the read ends, what each round has delivered from the offset is what was due. -/
theorem filedescRead_inOrder_iff (a : Area) (es : List Arrival) (fd eltsize count : ℕ)
    (h : Reads a fd) :
    InOrder a es fd eltsize count ↔
      0 < eltsize ∧ ∀ r ≤ es.length,
        Ends a (a.files.fd fd).ino es (a.files.fd fd).ofs.toNat eltsize count r →
          Repeats a (a.files.fd fd).ino es (a.files.fd fd).ofs.toNat eltsize count r := by
  by_cases he : 0 < eltsize
  swap
  · have herr : a.filedescRead es fd eltsize count = .error .fileinoRead := by
      rw [Area.filedescRead, require_bind h.readable]
      simp only
      rw [Area.fileinoRead, require_bind h.reg, require_bind h.pos]
      unfold require
      rw [if_neg he]
      rfl
    unfold InOrder
    rw [herr]
    exact ⟨False.elim, fun h => absurd h.1 he⟩
  obtain ⟨r, hr, hends, hloop⟩ | ⟨hnone, hloop⟩ : (∃ r ≤ es.length,
      Ends a _ es (a.files.fd fd).ofs.toNat eltsize count r ∧ _) ∨ _ :=
    readLoop_spec a es count h.perm
  · rw [inOrder_of_loop h he rfl hloop Area.after_fd (Nat.min_le_left _ _), loopBuf_eq_iff]
    · constructor
      · rintro ⟨hsize, hlt, hbuf⟩
        refine ⟨he, ?_⟩
        intro r' hr' hends'
        rw [hends'.unique hends]
        exact ⟨hsize, hlt, hbuf⟩
      · rintro ⟨-, hrep⟩
        obtain ⟨hsize, hlt, hbuf⟩ := hrep r hr hends
        exact ⟨hsize, hlt, hbuf⟩
    · intro hlt
      by_contra hpart
      refine absurd hends.1 (not_or.2 ⟨?_, not_not.2 hpart⟩)
      unfold delivered at hlt
      omega
  · constructor
    · intro _
      exact ⟨he, fun r hr hends => absurd hends (hnone r hr)⟩
    · intro _
      unfold InOrder
      rw [filedescRead_eq h he, hloop, ok_bind]
      simp only
      obtain ⟨hc, hp⟩ := waits_of_not_ends hnone es.length le_rfl
      refine ⟨?_, hp⟩
      unfold counted at hc
      rw [sum_range_succ] at hc
      omega

end due

/-- A process whose only file is inode 4, regular, partial and still empty, open for reading. -/
def partialFile : Area where
  files :=
    { cwd := 3, exited := false, status := 0
      fd := fun i => if i = 0 then ⟨4, oRdonly, 0, .none⟩ else ⟨0, 0, 0, .none⟩
      fi := fun i => if i = 4 then ⟨3, [97], 0, sIfreg ||| sIfpart, 0, 4, 0, 0⟩ else .zero
      child := fun _ => .free }
  data := fun _ _ => 0
  perm := fun _ _ => .no

theorem reads_partialFile : Reads partialFile 0 where
  readable := by decide
  reg := by decide
  perm := fun k hk => absurd hk (Nat.not_lt_zero k)
  pos := by decide
  bound := by decide
  inside := by decide

theorem filedescRead_inOrder_once : InOrder partialFile [⟨[1, 2], false⟩] 0 1 2 := by
  have hends : Ends partialFile 4 [⟨[1, 2], false⟩] 0 1 2 1 := by
    refine ⟨.inl (by decide), ?_⟩
    intro j hj
    obtain rfl : j = 0 := by omega
    exact ⟨by decide, fun h => absurd h (by decide)⟩
  apply (filedescRead_inOrder_iff partialFile [⟨[1, 2], false⟩] 0 1 2 reads_partialFile).2
  refine ⟨Nat.one_pos, ?_⟩
  intro r _ hr
  rw [hr.unique hends]
  exact repeats_of_last (by decide) (by decide) (by decide)

/-- A read of two bytes that come one after the other delivers the first one twice. -/
theorem filedescRead_not_inOrder :
    (∃ r, partialFile.filedescRead [⟨[1], false⟩, ⟨[2], false⟩] 0 1 2 = .ok (some r) ∧
      r.buf = [1, 1] ∧ bytes (r.area.data 4) 0 2 = [1, 2]) ∧
    ¬ InOrder partialFile [⟨[1], false⟩, ⟨[2], false⟩] 0 1 2 := by
  refine ⟨⟨_, rfl, rfl, rfl⟩, ?_⟩
  intro h
  obtain ⟨-, -, -, hbuf, -⟩ := h
  exact absurd (hbuf : ([1, 1] : List UInt8) = [1, 2]) (by decide)

end Determinator.File
