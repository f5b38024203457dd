import Determinator.Exec.Args
import Determinator.File.Open

/-!
# Loading an executable

`exec_readelf` compares what the file says with the size of the file before it uses it. Two
comparisons miss something: the sum of `e_phoff` and the size of the program headers wraps around, and
`p_filesz` is not compared with `p_memsz`, by which the pages of a segment are mapped.
-/

namespace Determinator.Exec

open File (Site Fs fileMaxsize filedescOpen filedescClose fileinoIsvalid oRdonly)

/-! ## Words -/

section words

variable {va memsz offset filesz imgsize : ℕ}

theorem bmod_upper {a n m : ℕ} {k : ℤ} (hm : m = 2 * n) (hk : k = m) (h : n ≤ a) (h' : a < m) :
    (a : ℤ).bmod m = a - k := by
  subst hm hk
  rw [← Int.sub_bmod_right]
  exact Int.bmod_eq_of_le (by omega) (by omega)

theorem signed_eq {a : ℕ} (h : a < 2 ^ 64) :
    signed a = if a < 2 ^ 63 then (a : ℤ) else a - 2 ^ 64 := by
  split
  case isTrue hlt => exact Int.bmod_eq_of_le (by omega) (by omega)
  case isFalse hge => exact bmod_upper (n := 2 ^ 63) (by norm_num) (by norm_num) (by omega) h

theorem add64_lt (a b : ℕ) : add64 a b < 2 ^ 64 := Nat.mod_lt _ (by decide)

theorem exemax_eq : exemax = 1073741824 := by decide

theorem vmUserlo_eq : vmUserlo = 1073741824 := rfl

/-- The addresses that the loader takes, as numbers. -/
theorem vaOk_iff (hva : va < 2 ^ 64) (hmem : memsz < 2 ^ 64) :
    VaOk (signed va) (signed (add64 va memsz)) ↔
      vmUserlo ≤ va ∧ va + memsz ≤ vmUserlo + exemax := by
  have hlt := add64_lt va memsz
  rw [VaOk, signed_eq hva, signed_eq hlt, exemax_eq, vmUserlo_eq]
  unfold add64 at *
  split <;> split <;> omega

/-- The offsets that the loader takes, as numbers. -/
theorem fileOk_iff (hoff : offset < 2 ^ 64) (hfile : filesz < 2 ^ 64) (hsize : imgsize ≤ 2 ^ 22) :
    FileOk imgsize (signed offset) (signed (add64 offset filesz)) ↔ offset + filesz ≤ imgsize := by
  have hlt := add64_lt offset filesz
  rw [FileOk, signed_eq hoff, signed_eq hlt]
  unfold add64 at *
  split <;> split <;> omega

end words

/-! ## What the file says -/

/-- The member with index `i` of the structure at offset `o` of a file. -/
def field (f : Bytes) (fs : List Member) (i o : ℕ) : ℕ :=
  f.load (fs.getD i ⟨0, 1⟩).size (o + Layout.offset fs i)

section file

variable (f : Bytes) (size o : ℕ)

/-- The program header at offset `o` is of a segment to load. -/
def IsLoad : Prop := field f proghdr 0 o = 1

/-- The loader takes the segment of this header: the addresses are in the area for a program, and the
bytes are in the file. -/
structure Taken : Prop where
  lo : vmUserlo ≤ field f proghdr 3 o
  hi : field f proghdr 3 o + field f proghdr 6 o ≤ vmUserlo + exemax
  file : field f proghdr 2 o + field f proghdr 5 o ≤ size

/-- The bytes of this header's segment that are in the file end within the pages of the segment. -/
def Fits : Prop :=
  field f proghdr 3 o + field f proghdr 5 o ≤ pageUp (field f proghdr 3 o + field f proghdr 6 o)

/-- Each of `n` headers from offset `o` on that the loader comes to has bytes that fit. -/
def AllFit (n : ℕ) : Prop :=
  ∀ i < n, (∀ j ≤ i, IsLoad f (o + 56 * j) → Taken f size (o + 56 * j)) → IsLoad f (o + 56 * i) →
    Fits f (o + 56 * i)

/-- The loader rejects the file before it comes to the program headers, or the headers lie in the file
and the bytes of all segments that it comes to fit. -/
def Contained : Prop :=
  size < 64 ∨ field f elfhdr 0 0 ≠ elfMagic ∨
    size < (field f elfhdr 6 0 + 56 * field f elfhdr 11 0) % 2 ^ 64 ∨
    field f elfhdr 6 0 + 56 * field f elfhdr 11 0 ≤ size ∧
      AllFit f size (field f elfhdr 6 0) (field f elfhdr 11 0)

end file

/-! ## Accesses -/

/-- An access to nothing, or within `n` bytes from `a` on. -/
def Within (a n : ℕ) (b m : ℕ) : Prop := m = 0 ∨ a ≤ b ∧ b + m ≤ a + n

/-- The pages that the last request for a permission made writable. -/
def mapped : List Access → Option (ℕ × ℕ)
  | [] => none
  | .perm lo hi w :: _ => if w then some (lo, hi) else none
  | _ :: log => mapped log

/-- Everything that is read is in the image, and what is written is on the pages that were made
writable last. -/
def Safe (imgdata imgsize : ℕ) : List Access → Prop
  | [] => True
  | .read a n :: log => Within imgdata imgsize a n ∧ Safe imgdata imgsize log
  | .write a n :: log =>
    (n = 0 ∨ ∃ lo hi, mapped log = some (lo, hi) ∧ lo ≤ a ∧ a + n ≤ hi) ∧ Safe imgdata imgsize log
  | .perm _ _ _ :: log => Safe imgdata imgsize log

section safe

variable {imgdata imgsize : ℕ} {log log' : List Access}

/-- What was safe with later accesses was safe without them. -/
theorem Safe.suffix (h : Safe imgdata imgsize log') (hs : log <:+ log') : Safe imgdata imgsize log := by
  induction log' with
  | nil => rwa [List.suffix_nil.1 hs]
  | cons a log' ih =>
    obtain rfl | hs := List.suffix_cons_iff.1 hs
    · exact h
    · apply ih ?_ hs
      cases a with
      | read => exact h.2
      | write => exact h.2
      | perm => exact h

end safe

/-! ## One program header -/

/-- The file `f` is in memory at `imgdata`. -/
def Holds (f : Bytes) (imgdata imgsize : ℕ) (m : Bytes) : Prop := ∀ o < imgsize, m (imgdata + o) = f o

section segment

variable {f : Bytes} {imgdata imgsize o i : ℕ} {m : List Member} {l : Loader}

/-- Loading a member of a structure in the image is safe. -/
theorem Loader.member_safe (hno : imgdata + imgsize < 2 ^ 64)
    (hin : o + Layout.offset m i + (m.getD i ⟨0, 1⟩).size ≤ imgsize) :
    Safe imgdata imgsize (l.member m i (imgdata + o)).2.log ↔ Safe imgdata imgsize l.log := by
  have hwithin : Within imgdata imgsize (imgdata + o + Layout.offset m i)
      (m.getD i ⟨0, 1⟩).size := by
    right
    omega
  rw [Loader.member, add64_eq (by omega)]
  exact and_iff_right hwithin

/-- It gives what the file says. -/
theorem Loader.member_ok (hf : Holds f imgdata imgsize l.mem) (hno : imgdata + imgsize < 2 ^ 64)
    (hin : o + Layout.offset m i + (m.getD i ⟨0, 1⟩).size ≤ imgsize) :
    ∃ l', l.member m i (imgdata + o) = (field f m i o, l') ∧ l'.mem = l.mem ∧
      mapped l'.log = mapped l.log ∧
      (Safe imgdata imgsize l'.log ↔ Safe imgdata imgsize l.log) := by
  have hload : l.mem.load (m.getD i ⟨0, 1⟩).size (imgdata + o + Layout.offset m i) =
      field f m i o := by
    apply Bytes.load_congr
    intro k hk
    have hmem := hf (o + Layout.offset m i + k) (by omega)
    rwa [← Nat.add_assoc, ← Nat.add_assoc] at hmem
  refine ⟨(l.member m i (imgdata + o)).2, ?_, rfl, rfl, Loader.member_safe hno hin⟩
  rw [Loader.member, add64_eq (by omega), hload]

/-- The members of a program header lie in it. -/
theorem proghdr_in (hi : i < 8) :
    Layout.offset proghdr i + (proghdr.getD i ⟨0, 1⟩).size ≤ 56 := by
  revert i
  decide

theorem field_lt (hi : 2 ≤ i) (hi' : i < 8) : field f proghdr i o < 2 ^ 64 := by
  have hsize : ∀ i < 8, 2 ≤ i → (proghdr.getD i ⟨0, 1⟩).size = 8 := by decide
  calc field f proghdr i o < 256 ^ (proghdr.getD i ⟨0, 1⟩).size := Bytes.load_lt _ _ _
    _ = 2 ^ 64 := by rw [hsize i hi' hi]; norm_num

/-- Copying to the scratch area leaves the image alone. -/
theorem Holds.memcpy (hf : Holds f imgdata imgsize l.mem) {dst src n : ℕ}
    (h : imgdata + imgsize ≤ dst) : Holds f imgdata imgsize (l.memcpy dst src n).mem := by
  intro o ho
  have hout : (l.memcpy dst src n).mem (imgdata + o) = l.mem (imgdata + o) :=
    Bytes.copy_out (Or.inl (by omega))
  rw [hout, hf o ho]

theorem pageUp_ge (a : ℕ) : a ≤ pageUp a := by
  have hpage : pageSize = 4096 := rfl
  rw [pageUp, pageDown, hpage]
  omega

theorem pageDown_le (a : ℕ) : pageDown a ≤ a := Nat.sub_le _ _

theorem loadSegment_eq {ph type va memsz : ℕ} {l₀ l₁ l₂ l₃ : Loader}
    (h₀ : l₀.member proghdr 0 ph = (type, l₁)) (h₃ : l₁.member proghdr 3 ph = (va, l₂))
    (h₆ : l₂.member proghdr 6 ph = (memsz, l₃)) :
    loadSegment imgdata imgsize ph l₀ =
      if type ≠ 1 then (true, l₁)
      else if ¬ VaOk (signed va) (signed (add64 va memsz)) then (false, l₃)
      else fillSegment imgdata imgsize ph (signed va) (signed (add64 va memsz)) l₃ := by
  simp only [loadSegment, h₀, h₃, h₆]

theorem fillSegment_eq {ph lo hi va vahi offset filesz flags : ℕ} {l₀ l₁ l₂ l₃ : Loader}
    (hlo : pageDown va + (vmScratchlo - vmUserlo) = lo)
    (hhi : pageUp vahi + (vmScratchlo - vmUserlo) = hi)
    (h₂ : (l₀.perm lo hi true).member proghdr 2 ph = (offset, l₁))
    (h₅ : l₁.member proghdr 5 ph = (filesz, l₂))
    (h₁ : (l₂.memcpy (va + (vmScratchlo - vmUserlo)) (imgdata + (signed offset).toNat)
      (signed (add64 offset filesz) - signed offset).toNat).member proghdr 1 ph = (flags, l₃)) :
    fillSegment imgdata imgsize ph va vahi l₀ =
      if ¬ FileOk imgsize (signed offset) (signed (add64 offset filesz)) then (false, l₂)
      else (true, if flags.testBit 1 then l₃ else l₃.perm lo hi false) := by
  simp only [fillSegment, Int.toNat_natCast, hlo, hhi, h₂, h₅, h₁]

/-- A member of the program header at offset `o`. -/
theorem Loader.proghdr_ok (hf : Holds f imgdata imgsize l.mem) (ho : o + 56 ≤ imgsize)
    (hbelow : imgdata + imgsize ≤ vmScratchlo) (hi : i < 8) :
    ∃ l', l.member proghdr i (imgdata + o) = (field f proghdr i o, l') ∧ l'.mem = l.mem ∧
      mapped l'.log = mapped l.log ∧
      (Safe imgdata imgsize l'.log ↔ Safe imgdata imgsize l.log) := by
  have hin := proghdr_in hi
  have hscratch := vmScratchlo_eq
  exact Loader.member_ok hf (by omega) (by omega)

/-- What filling the pages of a segment does: the loop goes on if the bytes are in the file, and what is
written is on the pages if the bytes fit. -/
theorem fillSegment_spec (hf : Holds f imgdata imgsize l.mem) (ho : o + 56 ≤ imgsize)
    (hsize : imgsize ≤ 2 ^ 22) (hbelow : imgdata + imgsize ≤ vmScratchlo) {va vahi : ℕ}
    (hva : vmUserlo ≤ va) (hle : va ≤ vahi) {r : Bool × Loader}
    (hr : fillSegment imgdata imgsize (imgdata + o) va vahi l = r) :
    Holds f imgdata imgsize r.2.mem ∧
      (r.1 = true ↔ field f proghdr 2 o + field f proghdr 5 o ≤ imgsize) ∧
      (Safe imgdata imgsize r.2.log ↔ Safe imgdata imgsize l.log ∧
        (field f proghdr 2 o + field f proghdr 5 o ≤ imgsize →
          va + field f proghdr 5 o ≤ pageUp vahi)) := by
  have hoff : field f proghdr 2 o < 2 ^ 64 := field_lt (by decide) (by decide)
  have hfile : field f proghdr 5 o < 2 ^ 64 := field_lt (by decide) (by decide)
  have hdst : imgdata + imgsize ≤ va + (vmScratchlo - vmUserlo) := by
    rw [vmUserlo_eq] at *
    omega
  generalize hlo : pageDown va + (vmScratchlo - vmUserlo) = lo
  generalize hhi : pageUp vahi + (vmScratchlo - vmUserlo) = hi
  obtain ⟨l₁, h₂, hm₁, hp₁, hs₁⟩ := Loader.proghdr_ok (l := l.perm lo hi true) (i := 2) hf ho hbelow
    (by decide)
  obtain ⟨l₂, h₅, hm₂, hp₂, hs₂⟩ := Loader.proghdr_ok (l := l₁) (i := 5) (by rw [hm₁]; exact hf) ho
    hbelow (by decide)
  have hf₂ : Holds f imgdata imgsize l₂.mem := by
    rw [hm₂, hm₁]
    exact hf
  generalize hoffset : field f proghdr 2 o = offset at *
  generalize hfilesz : field f proghdr 5 o = filesz at *
  have hf₃ : Holds f imgdata imgsize (l₂.memcpy (va + (vmScratchlo - vmUserlo))
      (imgdata + (signed offset).toNat) (signed (add64 offset filesz) - signed offset).toNat).mem :=
    hf₂.memcpy hdst
  obtain ⟨l₃, h₁, hm₃, -, hs₃⟩ := Loader.proghdr_ok (i := 1) hf₃ ho hbelow (by decide)
  rw [fillSegment_eq hlo hhi h₂ h₅ h₁] at hr
  by_cases hin : offset + filesz ≤ imgsize
  case neg =>
    rw [if_pos (mt (fileOk_iff hoff hfile hsize).1 hin)] at hr
    subst hr
    refine ⟨hf₂, by simp [hin], ?_⟩
    rw [hs₂, hs₁]
    simp [hin, Loader.perm, Safe]
  case pos =>
    rw [if_neg (not_not.2 ((fileOk_iff hoff hfile hsize).2 hin))] at hr
    have hn : (signed (add64 offset filesz) - signed offset).toNat = filesz := by
      rw [add64_eq (by omega), signed_eq (by omega), signed_eq hoff, if_pos (by omega),
        if_pos (by omega)]
      omega
    have hoff' : (signed offset).toNat = offset := by
      have hlt : offset < 2 ^ 63 := by clear hn; omega
      rw [signed_eq hoff, if_pos hlt, Int.toNat_natCast]
    rw [hoff', hn] at hm₃ hs₃
    clear hoff' hn
    have hmem : r.2.mem = l₃.mem := by
      subst hr
      dsimp only
      split <;> rfl
    have hlog : Safe imgdata imgsize r.2.log ↔ Safe imgdata imgsize l₃.log := by
      subst hr
      dsimp only
      split <;> rfl
    have hmapped : mapped l₂.log = some (lo, hi) := by
      rw [hp₂, hp₁]
      rfl
    have hread : Within imgdata imgsize (imgdata + offset) filesz := by
      right
      omega
    refine ⟨?holds, ?goes, ?safe⟩
    case holds =>
      rw [hmem, hm₃]
      exact hf₂.memcpy hdst
    case goes =>
      subst hr
      simp [hin]
    case safe =>
      have hwrite : Safe imgdata imgsize
          (l₂.memcpy (va + (vmScratchlo - vmUserlo)) (imgdata + offset) filesz).log ↔
          (filesz = 0 ∨ va + filesz ≤ pageUp vahi) ∧ Safe imgdata imgsize l₂.log := by
        have hdown := pageDown_le va
        constructor
        · rintro ⟨hpages, -, hsafe⟩
          refine ⟨hpages.imp_right ?_, hsafe⟩
          rintro ⟨lo', hi', heq, -, hle'⟩
          have hmap : some (lo, hi) = some (lo', hi') := hmapped.symm.trans heq
          cases hmap
          omega
        · rintro ⟨hfits, hsafe⟩
          refine ⟨hfits.imp_right fun hfits => ⟨lo, hi, hmapped, ?_, ?_⟩, hread, hsafe⟩
          · omega
          · omega
      have hzero : filesz = 0 → va + filesz ≤ pageUp vahi := by
        have := pageUp_ge vahi
        omega
      rw [hlog, hs₃, hwrite, hs₂, hs₁, or_iff_right_of_imp hzero]
      simp only [hin, true_implies]
      exact and_comm

/-- What loading a segment does: the loop goes on if the loader takes the segment, and everything was
safe if its bytes fit. -/
theorem loadSegment_spec (hf : Holds f imgdata imgsize l.mem) (ho : o + 56 ≤ imgsize)
    (hsize : imgsize ≤ 2 ^ 22) (hbelow : imgdata + imgsize ≤ vmScratchlo) {r : Bool × Loader}
    (hr : loadSegment imgdata imgsize (imgdata + o) l = r) :
    Holds f imgdata imgsize r.2.mem ∧
      (r.1 = true ↔ (IsLoad f o → Taken f imgsize o)) ∧
      (Safe imgdata imgsize r.2.log ↔ Safe imgdata imgsize l.log ∧
        (IsLoad f o → Taken f imgsize o → Fits f o)) := by
  obtain ⟨l₁, h₀, hm₁, -, hs₁⟩ := Loader.proghdr_ok (i := 0) hf ho hbelow (by decide)
  have hf₁ : Holds f imgdata imgsize l₁.mem := by
    rw [hm₁]
    exact hf
  obtain ⟨l₂, h₃, hm₂, -, hs₂⟩ := Loader.proghdr_ok (i := 3) hf₁ ho hbelow (by decide)
  have hf₂ : Holds f imgdata imgsize l₂.mem := by
    rw [hm₂]
    exact hf₁
  obtain ⟨l₃, h₆, hm₃, -, hs₃⟩ := Loader.proghdr_ok (i := 6) hf₂ ho hbelow (by decide)
  have hf₃ : Holds f imgdata imgsize l₃.mem := by
    rw [hm₃]
    exact hf₂
  rw [loadSegment_eq h₀ h₃ h₆] at hr
  by_cases htype : IsLoad f o
  case neg =>
    have hother : field f proghdr 0 o ≠ 1 := htype
    rw [if_pos hother] at hr
    subst hr
    exact ⟨hf₁, by simp [htype], by rw [hs₁]; simp [htype]⟩
  case pos =>
    have hload : field f proghdr 0 o = 1 := htype
    rw [if_neg (not_not.2 hload)] at hr
    have hva : field f proghdr 3 o < 2 ^ 64 := field_lt (by decide) (by decide)
    have hmemsz : field f proghdr 6 o < 2 ^ 64 := field_lt (by decide) (by decide)
    have hsafe : Safe imgdata imgsize l₃.log ↔ Safe imgdata imgsize l.log := by
      rw [hs₃, hs₂, hs₁]
    by_cases hok : vmUserlo ≤ field f proghdr 3 o ∧
      field f proghdr 3 o + field f proghdr 6 o ≤ vmUserlo + exemax
    case neg =>
      rw [if_pos (mt (vaOk_iff hva hmemsz).1 hok)] at hr
      subst hr
      have hnot : ¬ Taken f imgsize o := fun h => hok ⟨h.lo, h.hi⟩
      exact ⟨hf₃, by simp [htype, hnot], by rw [hsafe]; simp [hnot]⟩
    case pos =>
      have hsum : field f proghdr 3 o + field f proghdr 6 o < 2 ^ 63 := by
        have := exemax_eq
        have := vmUserlo_eq
        omega
      rw [if_neg (not_not.2 ((vaOk_iff hva hmemsz).2 hok)), add64_eq (by omega),
        signed_eq hva, signed_eq (by omega), if_pos (by omega), if_pos hsum] at hr
      obtain ⟨hholds, hgoes, hfill⟩ := fillSegment_spec hf₃ ho hsize hbelow hok.1
        (Nat.le_add_right _ _) hr
      have htaken : Taken f imgsize o ↔ field f proghdr 2 o + field f proghdr 5 o ≤ imgsize :=
        ⟨Taken.file, fun h => ⟨hok.1, hok.2, h⟩⟩
      refine ⟨hholds, ?_, ?_⟩
      · rw [hgoes, htaken]
        simp [htype]
      · rw [hfill, hsafe, htaken]
        simp [htype, Fits]

end segment

/-! ## All program headers -/

section segments

variable {f : Bytes} {imgdata imgsize o n ph eph : ℕ} {l : Loader}

theorem size_proghdr : Layout.size proghdr = 56 := rfl

theorem allFit_zero : AllFit f imgsize o 0 := fun i hi => absurd hi (Nat.not_lt_zero i)

/-- Nothing is asked of the headers behind one that the loader does not take. -/
theorem allFit_of_not (h : ¬ (IsLoad f o → Taken f imgsize o)) : AllFit f imgsize o n :=
  fun i _ htaken _ => absurd (htaken 0 i.zero_le) h

theorem allFit_succ (h : IsLoad f o → Taken f imgsize o) :
    AllFit f imgsize o (n + 1) ↔ (IsLoad f o → Fits f o) ∧ AllFit f imgsize (o + 56) n := by
  have hnext : ∀ i, o + 56 * (i + 1) = o + 56 + 56 * i := fun i => by omega
  constructor
  · intro hall
    refine ⟨hall 0 n.succ_pos fun j hj => ?_, fun i hi htaken hload => ?_⟩
    · rw [Nat.le_zero.1 hj]
      exact h
    · rw [← hnext] at hload ⊢
      apply hall (i + 1) (by omega) ?_ hload
      intro j hj
      cases j with
      | zero => exact h
      | succ j =>
        rw [hnext]
        exact htaken j (by omega)
  · rintro ⟨hfits, hall⟩ i hi htaken hload
    cases i with
    | zero => exact hfits hload
    | succ i =>
      rw [hnext] at hload ⊢
      apply hall i (by omega) ?_ hload
      intro j hj
      rw [← hnext]
      exact htaken (j + 1) (by omega)

theorem loadSegments_done (h : ¬ ph < eph) : loadSegments imgdata imgsize eph n ph l = (true, l) := by
  cases n with
  | zero => rfl
  | succ n => rw [loadSegments, if_neg h]

theorem loadSegments_succ (h : ph < eph) :
    loadSegments imgdata imgsize eph (n + 1) ph l =
      if (loadSegment imgdata imgsize ph l).1 = true then
        loadSegments imgdata imgsize eph n (add64 ph (Layout.size proghdr))
          (loadSegment imgdata imgsize ph l).2
      else (false, (loadSegment imgdata imgsize ph l).2) := by
  rw [loadSegments, if_pos h]
  generalize loadSegment imgdata imgsize ph l = r
  obtain ⟨goes, l'⟩ := r
  cases goes with
  | false => rfl
  | true => rfl

/-- The loop over the program headers: everything was safe if the bytes of all segments that it came to
fit. -/
theorem loadSegments_safe_iff (n o : ℕ) (l : Loader) (hf : Holds f imgdata imgsize l.mem)
    (ho : o + 56 * n ≤ imgsize) (hsize : imgsize ≤ 2 ^ 22)
    (hbelow : imgdata + imgsize ≤ vmScratchlo) (heph : imgdata + o + 56 * n = eph) :
    Safe imgdata imgsize (loadSegments imgdata imgsize eph n (imgdata + o) l).2.log ↔
      Safe imgdata imgsize l.log ∧ AllFit f imgsize o n := by
  induction n generalizing o l with
  | zero =>
    have hall : AllFit f imgsize o 0 := allFit_zero
    simp [loadSegments, hall]
  | succ n ih =>
    have hscratch := vmScratchlo_eq
    have hlt : imgdata + o < eph := by omega
    generalize hr : loadSegment imgdata imgsize (imgdata + o) l = r
    obtain ⟨hholds, hgoes, hsafe⟩ := loadSegment_spec hf (by omega) hsize hbelow hr
    rw [loadSegments_succ hlt, hr]
    by_cases hgo : r.1 = true
    case neg =>
      have hnot : ¬ (IsLoad f o → Taken f imgsize o) := fun h => hgo (hgoes.2 h)
      have hall : AllFit f imgsize o (n + 1) := allFit_of_not hnot
      rw [if_neg hgo, hsafe]
      simp only [hall, and_true]
      exact and_iff_left fun hload htaken => absurd (fun _ => htaken) hnot
    case pos =>
      have htaken := hgoes.1 hgo
      have hnext : add64 (imgdata + o) (Layout.size proghdr) = imgdata + (o + 56) := by
        rw [size_proghdr, add64_eq (by omega), Nat.add_assoc]
      rw [if_pos hgo, hnext, ih (o + 56) r.2 hholds (by omega) (by omega), hsafe,
        allFit_succ htaken, and_assoc]
      constructor
      · rintro ⟨hs, hfits, hall⟩
        exact ⟨hs, fun hload => hfits hload (htaken hload), hall⟩
      · rintro ⟨hs, hfits, hall⟩
        exact ⟨hs, fun hload _ => hfits hload, hall⟩

/-- The loop ends when it has come to every header. -/
theorem loadSegments_rounds (n k ph : ℕ) (l : Loader) (hk : n ≤ k) (heph : ph + 56 * n = eph)
    (hno : eph < 2 ^ 64) :
    loadSegments imgdata imgsize eph k ph l = loadSegments imgdata imgsize eph n ph l := by
  induction n generalizing k ph l with
  | zero =>
    have hge : ¬ ph < eph := by omega
    rw [loadSegments_done hge, loadSegments_done hge]
  | succ n ih =>
    cases k with
    | zero => omega
    | succ k =>
      have hlt : ph < eph := by omega
      rw [loadSegments_succ hlt, loadSegments_succ hlt]
      have hnext : add64 ph (Layout.size proghdr) = ph + 56 := by
        rw [size_proghdr, add64_eq (by omega)]
      rw [hnext, ih k (ph + 56) _ (by omega) (by omega)]

/-- Accesses are only added. -/
theorem fillSegment_suffix (valo vahi : ℤ) :
    l.log <:+ (fillSegment imgdata imgsize ph valo vahi l).2.log := by
  rw [fillSegment]
  dsimp only
  split
  · exact ⟨[_, _, _], rfl⟩
  · dsimp only
    split
    · exact ⟨[_, _, _, _, _, _], rfl⟩
    · exact ⟨[_, _, _, _, _, _, _], rfl⟩

/-- The first access for a segment is to the type in its header. -/
theorem loadSegment_suffix :
    .read (add64 ph 0) 4 :: l.log <:+ (loadSegment imgdata imgsize ph l).2.log := by
  rw [loadSegment]
  dsimp only
  split
  · exact List.suffix_refl _
  · split
    · exact ⟨[_, _], rfl⟩
    · apply List.IsSuffix.trans ?_ (fillSegment_suffix _ _)
      exact ⟨[_, _], rfl⟩

theorem loadSegments_suffix (n ph : ℕ) (l : Loader) :
    l.log <:+ (loadSegments imgdata imgsize eph n ph l).2.log := by
  induction n generalizing ph l with
  | zero => exact List.suffix_refl _
  | succ n ih =>
    by_cases h : ph < eph
    case neg =>
      rw [loadSegments_done h]
    case pos =>
      rw [loadSegments_succ h]
      have hfirst : .read (add64 ph 0) 4 :: l.log <:+ (loadSegment imgdata imgsize ph l).2.log :=
        loadSegment_suffix
      have hsuffix := (List.suffix_cons _ _).trans hfirst
      split
      · exact hsuffix.trans (ih _ _)
      · exact hsuffix

end segments

/-! ## The image -/

section image

variable {f : Bytes} {imgdata imgsize entry : ℕ} {rounds : Option ℕ} {l : Loader}

theorem size_elfhdr : Layout.size elfhdr = 64 := rfl

/-- Behind the loop the entry point is compared. -/
def afterLoop (entry imgdata : ℕ) (r : Bool × Loader) : Bool × Loader :=
  if r.1 = true then (decide ((r.2.member elfhdr 5 imgdata).1 = entry), (r.2.member elfhdr 5 imgdata).2)
  else (false, r.2)

theorem readImage_eq {magic phoff phnum : ℕ} {l₁ l₂ l₃ : Loader}
    (h₀ : l.member elfhdr 0 imgdata = (magic, l₁)) (h₆ : l₁.member elfhdr 6 imgdata = (phoff, l₂))
    (h₁₁ : l₂.member elfhdr 11 imgdata = (phnum, l₃)) :
    readImage rounds entry imgdata imgsize l =
      if imgsize < 64 then (false, l)
      else if magic ≠ elfMagic then (false, l₁)
      else if imgsize < sub64 (add64 (add64 imgdata phoff) (56 * phnum)) imgdata then (false, l₃)
      else afterLoop entry imgdata (loadSegments imgdata imgsize
        (add64 (add64 imgdata phoff) (56 * phnum)) (rounds.getD phnum) (add64 imgdata phoff) l₃) := by
  simp only [readImage, size_elfhdr, size_proghdr, h₀, h₆, h₁₁]
  generalize loadSegments imgdata imgsize (add64 (add64 imgdata phoff) (56 * phnum))
    (rounds.getD phnum) (add64 imgdata phoff) l₃ = r
  obtain ⟨goes, l'⟩ := r
  cases goes with
  | false => rfl
  | true => rfl

/-- What the loader takes for the size of the headers and what is in front of them. -/
theorem sub64_headers (a b c : ℕ) : sub64 (add64 (add64 a b) c) a = (b + c) % 2 ^ 64 := by
  unfold sub64 add64
  omega

/-- A member of the ELF header. -/
theorem Loader.elfhdr_ok {i : ℕ} (hf : Holds f imgdata imgsize l.mem) (hhdr : 64 ≤ imgsize)
    (hbelow : imgdata + imgsize ≤ vmScratchlo) (hi : i < 15) :
    ∃ l', l.member elfhdr i imgdata = (field f elfhdr i 0, l') ∧ l'.mem = l.mem ∧
      (Safe imgdata imgsize l'.log ↔ Safe imgdata imgsize l.log) := by
  have hin : ∀ i < 15, Layout.offset elfhdr i + (elfhdr.getD i ⟨0, 1⟩).size ≤ 64 := by decide
  have hscratch := vmScratchlo_eq
  have hi' := hin i hi
  obtain ⟨l', hrun, hmem, -, hsafe⟩ := Loader.member_ok (o := 0) (i := i) (m := elfhdr) hf (by omega)
    (by omega)
  exact ⟨l', hrun, hmem, hsafe⟩

/-- That is safe. -/
theorem safe_afterLoop (hhdr : 64 ≤ imgsize) (hbelow : imgdata + imgsize ≤ vmScratchlo)
    (r : Bool × Loader) :
    Safe imgdata imgsize (afterLoop entry imgdata r).2.log ↔ Safe imgdata imgsize r.2.log := by
  have hscratch := vmScratchlo_eq
  have hin : Layout.offset elfhdr 5 + (elfhdr.getD 5 ⟨0, 1⟩).size ≤ 64 := by decide
  unfold afterLoop
  split
  · have hsafe : Safe imgdata imgsize (r.2.member elfhdr 5 (imgdata + 0)).2.log ↔
        Safe imgdata imgsize r.2.log := Loader.member_safe (by omega) (by omega)
    rw [Nat.add_zero] at hsafe
    exact hsafe
  · exact Iff.rfl

/-- When the sum of `e_phoff` and the size of the headers wraps around, the first header lies in front of
the image. -/
theorem not_safe_of_wraps {phoff phnum : ℕ} (hlow : 2 ^ 22 ≤ imgdata)
    (hbelow : imgdata + imgsize ≤ vmScratchlo) (hoff : phoff < 2 ^ 64) (hnum : phnum < 2 ^ 16)
    (hin : (phoff + 56 * phnum) % 2 ^ 64 ≤ imgsize) (hwraps : imgsize < phoff + 56 * phnum) :
    ¬ Safe imgdata imgsize (loadSegments imgdata imgsize
      (add64 (add64 imgdata phoff) (56 * phnum)) phnum (add64 imgdata phoff) l).2.log := by
  intro hsafe
  have hscratch := vmScratchlo_eq
  have hover : 2 ^ 64 ≤ phoff + 56 * phnum := by
    by_contra hlt
    rw [Nat.mod_eq_of_lt (by omega)] at hin
    omega
  have hph : add64 imgdata phoff + 2 ^ 64 = imgdata + phoff := by
    unfold add64
    omega
  have heph : add64 (add64 imgdata phoff) (56 * phnum) = add64 imgdata phoff + 56 * phnum :=
    add64_eq (by omega)
  rw [heph] at hsafe
  generalize add64 imgdata phoff = ph at hsafe hph
  cases phnum with
  | zero => omega
  | succ n =>
    rw [loadSegments_succ (by omega)] at hsafe
    have hfirst : .read (add64 ph 0) 4 :: l.log <:+ (loadSegment imgdata imgsize ph l).2.log :=
      loadSegment_suffix
    have hread : Safe imgdata imgsize (.read (add64 ph 0) 4 :: l.log) := by
      split at hsafe
      · exact hsafe.suffix (hfirst.trans (loadSegments_suffix _ _ _))
      · exact hsafe.suffix hfirst
    obtain hzero | ⟨hlo, -⟩ := hread.1
    · cases hzero
    · rw [add64_eq (by omega)] at hlo
      omega

/-- The image is loaded safely if and only if it is contained. -/
theorem readImage_safe_iff (hf : Holds f imgdata imgsize l.mem) (hlow : 2 ^ 22 ≤ imgdata)
    (hsize : imgsize ≤ 2 ^ 22) (hbelow : imgdata + imgsize ≤ vmScratchlo) :
    Safe imgdata imgsize (readImage none entry imgdata imgsize l).2.log ↔
      Safe imgdata imgsize l.log ∧ Contained f imgsize := by
  by_cases hhdr : imgsize < 64
  case pos =>
    have hcontained : Contained f imgsize := Or.inl hhdr
    rw [readImage, size_elfhdr, if_pos hhdr]
    simp only [hcontained, and_true]
  have hhdr' : 64 ≤ imgsize := by omega
  obtain ⟨l₁, h₀, hm₁, hs₁⟩ := Loader.elfhdr_ok (i := 0) hf hhdr' hbelow (by decide)
  have hf₁ : Holds f imgdata imgsize l₁.mem := by
    rw [hm₁]
    exact hf
  obtain ⟨l₂, h₆, hm₂, hs₂⟩ := Loader.elfhdr_ok (i := 6) hf₁ hhdr' hbelow (by decide)
  have hf₂ : Holds f imgdata imgsize l₂.mem := by
    rw [hm₂]
    exact hf₁
  obtain ⟨l₃, h₁₁, hm₃, hs₃⟩ := Loader.elfhdr_ok (i := 11) hf₂ hhdr' hbelow (by decide)
  have hf₃ : Holds f imgdata imgsize l₃.mem := by
    rw [hm₃]
    exact hf₂
  have hsafe₃ : Safe imgdata imgsize l₃.log ↔ Safe imgdata imgsize l.log := by
    rw [hs₃, hs₂, hs₁]
  have hoff : field f elfhdr 6 0 < 2 ^ 64 := Bytes.load_lt 8 _ _
  have hnum : field f elfhdr 11 0 < 2 ^ 16 := Bytes.load_lt 2 _ _
  rw [readImage_eq h₀ h₆ h₁₁, if_neg hhdr, sub64_headers]
  by_cases hmagic : field f elfhdr 0 0 ≠ elfMagic
  case pos =>
    have hcontained : Contained f imgsize := Or.inr (Or.inl hmagic)
    rw [if_pos hmagic, hs₁]
    simp only [hcontained, and_true]
  rw [if_neg hmagic]
  by_cases hout : imgsize < (field f elfhdr 6 0 + 56 * field f elfhdr 11 0) % 2 ^ 64
  case pos =>
    have hcontained : Contained f imgsize := Or.inr (Or.inr (Or.inl hout))
    rw [if_pos hout, hsafe₃]
    simp only [hcontained, and_true]
  have hcontained : Contained f imgsize ↔
      field f elfhdr 6 0 + 56 * field f elfhdr 11 0 ≤ imgsize ∧
        AllFit f imgsize (field f elfhdr 6 0) (field f elfhdr 11 0) := by
    unfold Contained
    simp only [hhdr, hmagic, hout, false_or]
  rw [if_neg hout, safe_afterLoop hhdr' hbelow, Option.getD_none, hcontained]
  by_cases hwraps : field f elfhdr 6 0 + 56 * field f elfhdr 11 0 ≤ imgsize
  case pos =>
    have hscratch := vmScratchlo_eq
    have hph : add64 imgdata (field f elfhdr 6 0) = imgdata + field f elfhdr 6 0 :=
      add64_eq (by omega)
    rw [hph, add64_eq (by omega), loadSegments_safe_iff _ _ _ hf₃ hwraps hsize hbelow rfl, hsafe₃]
    simp only [hwraps, true_and]
  case neg =>
    have hnot := not_safe_of_wraps (l := l₃) hlow hbelow hoff hnum (by omega) (by omega)
    exact iff_of_false hnot fun h => hwraps h.2.1

/-- The headers that the loader comes to end below 2^64. -/
theorem headers_lt {phoff phnum : ℕ} (hlow : 2 ^ 22 ≤ imgdata)
    (hbelow : imgdata + imgsize ≤ vmScratchlo) (hnum : phnum < 2 ^ 16)
    (hin : (phoff + 56 * phnum) % 2 ^ 64 ≤ imgsize) :
    add64 imgdata phoff + 56 * phnum < 2 ^ 64 := by
  have hscratch := vmScratchlo_eq
  unfold add64
  omega

/-- More rounds than there are headers change nothing. -/
theorem readImage_rounds (hf : Holds f imgdata imgsize l.mem) (hlow : 2 ^ 22 ≤ imgdata)
    (hbelow : imgdata + imgsize ≤ vmScratchlo) {k : ℕ} (hk : field f elfhdr 11 0 ≤ k) :
    readImage (some k) entry imgdata imgsize l = readImage none entry imgdata imgsize l := by
  by_cases hhdr : imgsize < 64
  case pos => rw [readImage, readImage, size_elfhdr, if_pos hhdr, if_pos hhdr]
  have hhdr' : 64 ≤ imgsize := by omega
  obtain ⟨l₁, h₀, hm₁, -⟩ := Loader.elfhdr_ok (i := 0) hf hhdr' hbelow (by decide)
  obtain ⟨l₂, h₆, hm₂, -⟩ := Loader.elfhdr_ok (i := 6) (by rw [hm₁]; exact hf) hhdr' hbelow
    (by decide)
  obtain ⟨l₃, h₁₁, -, -⟩ := Loader.elfhdr_ok (i := 11) (by rw [hm₂, hm₁]; exact hf) hhdr' hbelow
    (by decide)
  rw [readImage_eq h₀ h₆ h₁₁, readImage_eq h₀ h₆ h₁₁, sub64_headers]
  by_cases hout : imgsize < (field f elfhdr 6 0 + 56 * field f elfhdr 11 0) % 2 ^ 64
  case pos => rw [if_pos hout, if_pos hout]
  have hnum : field f elfhdr 11 0 < 2 ^ 16 := Bytes.load_lt 2 _ _
  have hlt := headers_lt hlow hbelow hnum (Nat.le_of_not_lt hout)
  rw [Option.getD_some, Option.getD_none,
    loadSegments_rounds (field f elfhdr 11 0) k _ _ hk (add64_eq hlt).symm (add64_lt _ _)]

end image

/-! ## The file -/

section file

variable {s t : Fs} {rest : Bytes} {entry fd : ℕ} {path : List UInt8}

/-- The bytes of a file are where its area is in memory. -/
theorem holds_memory {ino : ℤ} {n : ℕ} (hino : fileinoIsvalid ino) (hn : n ≤ 2 ^ 22) :
    Holds (t.data ino) (filedata ino) n (memory t rest) := by
  intro o ho
  obtain ⟨i, rfl⟩ : ∃ i : ℕ, ino = i := ⟨ino.toNat, (Int.toNat_of_nonneg hino.1.le).symm⟩
  have hlo : (0 : ℤ) < i := hino.1
  have hhi : (i : ℤ) < 256 := hino.2
  have haddr : ∀ j : ℕ, filedata j = vmFilelo + j * 2 ^ 22 := fun _ => rfl
  have hin : filedata 1 ≤ filedata i + o ∧ filedata i + o < filedata 256 := by
    have h1 := haddr 1
    have h256 := haddr 256
    rw [haddr i]
    rw [Nat.cast_one] at h1
    rw [Nat.cast_ofNat] at h256
    rw [h1, h256]
    omega
  have hdiv : (filedata i + o - vmFilelo) / 2 ^ 22 = i := by
    rw [haddr i]
    omega
  have hmod : (filedata i + o - vmFilelo) % 2 ^ 22 = o := by
    rw [haddr i]
    omega
  rw [memory, if_pos hin, hdiv, hmod]

/-- The areas of the files lie below the scratch area, and far from zero. -/
theorem filedata_below {ino : ℤ} {n : ℕ} (hino : fileinoIsvalid ino) (hn : n ≤ 2 ^ 22) :
    filedata ino + n ≤ vmScratchlo := by
  have hhi : ino < 256 := hino.2
  have hlt : ino.toNat < 256 := by omega
  rw [vmScratchlo_eq]
  unfold filedata vmFilelo
  omega

theorem filedata_above (ino : ℤ) : 2 ^ 22 ≤ filedata ino := by
  unfold filedata vmFilelo
  omega

/-- What `exec_readelf` does with the file that it opened. -/
theorem execReadelf_eq {rounds : Option ℕ}
    (h : filedescOpen s none path oRdonly 0 = .ok (.ok fd, t)) :
    execReadelf rounds entry rest s path =
      .ok ((readImage rounds entry (filedata (t.files.fd fd).ino)
          (t.files.fi (t.files.fd fd).ino).size ⟨memory t rest, []⟩).1,
        t.setFd fd fun x => { x with ino := 0 },
        (readImage rounds entry (filedata (t.files.fd fd).ino)
          (t.files.fi (t.files.fd fd).ino).size ⟨memory t rest, []⟩).2.log) := by
  obtain ⟨hopen, hino⟩ := File.filedescOpen_ok h
  have hclose : filedescClose t fd = .ok (t.setFd fd fun x => { x with ino := 0 }) := by
    rw [filedescClose, require_bind hopen, require_bind hino]
    rfl
  rw [execReadelf, h, ok_bind]
  dsimp only
  rw [hclose, ok_bind]
  rfl

/-- `exec_readelf` ends, all its accesses are safe, and if it fails the descriptor `fd` is closed. -/
def LoadsSafely (entry : ℕ) (rest : Bytes) (s : Fs) (path : List UInt8) (fd imgdata imgsize : ℕ) :
    Prop :=
  ∃ rounds ok u log, execReadelf none entry rest s path = .ok (ok, u, log) ∧
    (∀ k ≥ rounds, execReadelf (some k) entry rest s path = .ok (ok, u, log)) ∧
    Safe imgdata imgsize log ∧ (ok = false → ¬ u.files.isopen fd)

/-- A file that is loaded safely is contained. -/
theorem LoadsSafely.contained (h : filedescOpen s none path oRdonly 0 = .ok (.ok fd, t))
    (hsize : (t.files.fi (t.files.fd fd).ino).size ≤ fileMaxsize)
    (hl : LoadsSafely entry rest s path fd (filedata (t.files.fd fd).ino)
      (t.files.fi (t.files.fd fd).ino).size) :
    Contained (t.data (t.files.fd fd).ino) (t.files.fi (t.files.fd fd).ino).size := by
  obtain ⟨hopen, hino⟩ := File.filedescOpen_ok h
  obtain ⟨_, _, _, log, hnone, -, hlog, -⟩ := hl
  rw [execReadelf_eq h] at hnone
  cases hnone
  exact ((readImage_safe_iff (holds_memory hino hsize) (filedata_above _) hsize
    (filedata_below hino hsize)).1 hlog).2

/-- `exec_readelf` loads the file that it opens safely if and only if the file is contained. -/
theorem execReadelf_loadsSafely_iff (entry : ℕ) (rest : Bytes) (s t : Fs) (path : List UInt8) (fd : ℕ)
    (h : filedescOpen s none path oRdonly 0 = .ok (.ok fd, t))
    (hsize : (t.files.fi (t.files.fd fd).ino).size ≤ fileMaxsize) :
    LoadsSafely entry rest s path fd (filedata (t.files.fd fd).ino)
        (t.files.fi (t.files.fd fd).ino).size ↔
      Contained (t.data (t.files.fd fd).ino) (t.files.fi (t.files.fd fd).ino).size := by
  constructor
  · exact LoadsSafely.contained h hsize
  · intro hcontained
    obtain ⟨hopen, hino⟩ := File.filedescOpen_ok h
    have hrun : ∀ rounds, execReadelf rounds entry rest s path = _ := fun _ => execReadelf_eq h
    have hlow := filedata_above (t.files.fd fd).ino
    have hbelow := filedata_below hino hsize
    have hf : Holds _ _ _ (memory t rest) := holds_memory hino hsize
    refine ⟨field (t.data (t.files.fd fd).ino) elfhdr 11 0, _, _, _, hrun none, ?_,
      (readImage_safe_iff hf hlow hsize hbelow).2 ⟨trivial, hcontained⟩, ?_⟩
    · intro k hk
      rw [hrun (some k), readImage_rounds hf hlow hbelow hk]
    · intro _ hopen'
      apply hopen'.2
      simp [Fs.setFd, File.FileState.setFd]

/-- A file state with the file `/a`, and its bytes. -/
def withFile (bs : List UInt8) : Fs :=
  { File.rootAnd [File.slash] 3 ⟨3, [97], 0, File.sIfreg, bs.length, 0, 0, 0⟩ with
    data := fun _ i => bs.getD i 0 }

/-- The bytes of an ELF header with one program header, which starts 56 bytes in front of the file. -/
def wrappingHeader : List UInt8 :=
  [0x7f, 0x45, 0x4c, 0x46] ++ List.replicate 28 0 ++ 0xc8 :: List.replicate 7 0xff ++
    List.replicate 16 0 ++ 1 :: List.replicate 7 0

theorem execReadelf_loadsSafely_header : ∃ t,
    filedescOpen (withFile wrappingHeader) none [File.slash, 97] oRdonly 0 = .ok (.ok 0, t) ∧
    (LoadsSafely 0 (fun _ => 0) (withFile wrappingHeader) [File.slash, 97] 0
        (filedata (t.files.fd 0).ino) (t.files.fi (t.files.fd 0).ino).size ↔
      Contained (t.data (t.files.fd 0).ino) (t.files.fi (t.files.fd 0).ino).size) :=
  ⟨_, rfl, execReadelf_loadsSafely_iff 0 (fun _ => 0) (withFile wrappingHeader) _ [File.slash, 97] 0 rfl
    (by decide)⟩

/-- The loader reads the program header in front of the file. -/
theorem execReadelf_not_loadsSafely :
    ¬ ∀ (entry : ℕ) (rest : Bytes) (s t : Fs) (path : List UInt8) (fd : ℕ),
      filedescOpen s none path oRdonly 0 = .ok (.ok fd, t) →
      (t.files.fi (t.files.fd fd).ino).size ≤ fileMaxsize →
      LoadsSafely entry rest s path fd (filedata (t.files.fd fd).ino)
        (t.files.fi (t.files.fd fd).ino).size := by
  intro h
  have hopen : ∃ t, filedescOpen (withFile wrappingHeader) none [File.slash, 97] oRdonly 0 =
      .ok (.ok 0, t) ∧ (t.files.fd 0).ino = 4 ∧ (t.files.fi 4).size = 64 ∧
      t.data 4 = fun i => wrappingHeader.getD i 0 := ⟨_, rfl, rfl, rfl, rfl⟩
  obtain ⟨t, hopen, hino, hsize, hdata⟩ := hopen
  have hmax : (t.files.fi (t.files.fd 0).ino).size ≤ fileMaxsize := by
    rw [hino, hsize]
    decide
  have hcontained := LoadsSafely.contained hopen hmax (h 0 (fun _ => 0) _ t _ 0 hopen hmax)
  rw [hino, hsize, hdata] at hcontained
  have hmagic : field (fun i => wrappingHeader.getD i 0) elfhdr 0 0 = elfMagic := by decide
  have hoff : field (fun i => wrappingHeader.getD i 0) elfhdr 6 0 = 2 ^ 64 - 56 := by decide
  have hnum : field (fun i => wrappingHeader.getD i 0) elfhdr 11 0 = 1 := by decide
  obtain hlt | hne | hout | ⟨hle, -⟩ := hcontained
  · exact absurd hlt (by decide)
  · exact hne hmagic
  · rw [hoff, hnum] at hout
    exact absurd hout (by decide)
  · rw [hoff, hnum] at hle
    exact absurd hle (by decide)

end file

end Determinator.Exec
