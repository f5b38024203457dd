import Determinator.Lib.Count
import Determinator.Lib.Queue
import Determinator.Kern.Pmap

/-!
# The invariant of the page maps

Next to the memory there is a ghost state that says what each page is used for (`Ghost.kind`) and
which references to it are held by something other than a page map (`Ghost.extra`): by the kernel,
or by the code in the middle of an operation. `Good` says that the memory agrees with it: entries
point to pages of the right kind, the reference counts are right, and the free list holds the free
pages. `Cow` says that what can be reached through writeable entries has one reference.

The rest of the module is what single assignments do to the two.
-/

set_option linter.unusedSectionVars false

namespace Determinator

noncomputable instance : Fintype Frame :=
  Fintype.ofEquiv (Fin (2 ^ 40)) ⟨BitVec.ofFin, BitVec.toFin, fun _ => rfl, fun _ => rfl⟩

/-! ## What pages are used for -/

/-- What a page is used for. -/
inductive Kind
  | free
  /-- Held by the kernel. -/
  | held
  /-- A page of user memory. -/
  | data
  /-- A table of one of the levels below that of the root. -/
  | table (level : ℕ)
  /-- The table of the first 512GB; its first entry is for the kernel. -/
  | low
  | root
  deriving DecidableEq

namespace Kind

/-- The level of a table. -/
def level : Kind → Option ℕ
  | table l => some l
  | low => some 2
  | root => some 3
  | _ => none

/-- The entries of a table that map user memory. -/
def user : Kind → ℕ → Bool
  | table _, i => i < 512
  | low, i => 0 < i && i < 512
  | root, i => i < 256
  | _, _ => false

/-- What the entries of a table point to. -/
def kid : Kind → ℕ → Kind
  | table 0, _ => data
  | table (l + 1), _ => table l
  | low, _ => table 1
  | root, i => if i = 0 then low else table 2
  | _, _ => held

/-- The page belongs to a page map. -/
def Used : Kind → Prop
  | free | held => False
  | _ => True

theorem user_lt {k : Kind} {i : ℕ} (h : k.user i = true) : i < 512 := by
  cases k <;> simp only [user, Bool.and_eq_true, decide_eq_true_eq, Bool.false_eq_true] at h <;>
    omega

theorem kid_used {k : Kind} {i : ℕ} (h : k.user i = true) : (k.kid i).Used := by
  cases k with
  | table l => cases l <;> trivial
  | root =>
    simp only [kid]
    split <;> trivial
  | low => trivial
  | _ => simp [user] at h

theorem kid_ne_root (k : Kind) (i : ℕ) : k.kid i ≠ .root := by
  cases k with
  | table l => cases l <;> simp [kid]
  | root =>
    simp only [kid]
    split <;> simp
  | _ => simp [kid]

theorem not_user_of_level {k : Kind} (h : k.level = none) (i : ℕ) : k.user i = false := by
  cases k <;> simp [level, user] at h ⊢

theorem level_of_user {k : Kind} {i : ℕ} (h : k.user i = true) : ∃ l, k.level = some l := by
  cases k with
  | table l => exact ⟨l, rfl⟩
  | low => exact ⟨2, rfl⟩
  | root => exact ⟨3, rfl⟩
  | _ => simp [user] at h

theorem kid_level {k : Kind} {l : ℕ} (h : k.level = some (l + 1)) (i : ℕ) :
    (k.kid i).level = some l := by
  cases k with
  | table m =>
    obtain rfl : m = l + 1 := Option.some.inj h
    rfl
  | low =>
    obtain rfl : l = 1 := by simpa [level] using h
    rfl
  | root =>
    obtain rfl : l = 2 := by simpa [level] using h
    simp only [kid]
    split <;> rfl
  | _ => simp [level] at h

theorem kid_data {k : Kind} (h : k.level = some 0) (i : ℕ) : k.kid i = .data := by
  cases k with
  | table m =>
    obtain rfl : m = 0 := Option.some.inj h
    rfl
  | _ => simp [level] at h

end Kind

/-- The ghost state. -/
@[ext]
structure Ghost where
  kind : Frame → Kind
  /-- References that are not entries of page maps. -/
  extra : Frame → ℤ
  /-- An entry that does not count, as its reference is being given up. -/
  off : Option (Frame × ℕ)

namespace Ghost

def setKind (G : Ghost) (f : Frame) (k : Kind) : Ghost :=
  { G with kind := Function.update G.kind f k }

def addExtra (G : Ghost) (x : Frame → ℤ) : Ghost := { G with extra := fun f => G.extra f + x f }

end Ghost

/-- A reference to `f`. -/
def one (f : Frame) : Frame → ℤ := fun g => pointsTo (some f) g

theorem one_self (f : Frame) : one f f = 1 := pointsTo_self f

theorem one_ne {f g : Frame} (h : g ≠ f) : one f g = 0 := by
  simp [one, pointsTo, Ne.symm h]

variable (b : Boot)

/-- What an entry counts for. -/
def slot (G : Ghost) (s : Mem) (t : Frame) (i : ℕ) : Option Frame :=
  if (G.kind t).user i = true ∧ G.off ≠ some (t, i) ∧ (s.entry t i).frame ≠ b.zero then
    some (s.entry t i).frame
  else none

/-- A root counts as a reference to itself. -/
def rootRef (k : Kind) : ℤ := if k = .root then 1 else 0

/-- Entries point to pages of the right kind, and the counts are right. -/
structure Counted (G : Ghost) (s : Mem) : Prop where
  typed : ∀ {t i f}, slot b G s t i = some f → G.kind f = (G.kind t).kid i
  count : ∀ f, s.refcount f = refCount 512 (slot b G s) f + rootRef (G.kind f) + G.extra f
  alive : ∀ f, (G.kind f).Used → G.kind f ≠ .root → 0 < s.refcount f
  extra_nonneg : ∀ f, G.kind f ≠ .root → 0 ≤ G.extra f
  avail : ∀ f, G.kind f ≠ .held → f ∈ b.avail
  levels : ∀ f l, G.kind f = .table l → l ≤ 2
  zero : G.kind b.zero = .held
  /-- The table of the first 512GB stays where it is. -/
  pinned : ∀ r, G.kind r = .root → (s.entry r 0).frame ≠ b.zero ∧ (s.entry r 0).isW = true ∧
    G.off ≠ some (r, 0)

/-- The free list holds the free pages. -/
structure Listed (G : Ghost) (s : Mem) : Prop where
  freeList : ∃ l, Chain s.freeNext s.freelist l ∧ l.Nodup ∧ ∀ f, f ∈ l ↔ G.kind f = .free
  unlinked : ∀ f, G.kind f ≠ .free → s.freeNext f = none
  extra_free : ∀ f, G.kind f = .free → G.extra f = 0

/-- The memory agrees with the ghost state. -/
structure Good (G : Ghost) (s : Mem) : Prop extends Counted b G s, Listed G s

/-- What can be reached from a root through writeable entries. -/
inductive WReach (G : Ghost) (s : Mem) : Frame → Prop
  | root {r : Frame} : G.kind r = .root → WReach G s r
  | step {t f : Frame} {i : ℕ} :
      WReach G s t → slot b G s t i = some f → (s.entry t i).isW = true → WReach G s f

/-- User programs get through an entry for a table. -/
structure Pte.Open (e : Pte) : Prop where
  isP : e.isP = true
  isU : e.isU = true

theorem tableFlags_open (f : Frame) : (Pte.mk' f tableFlags).Open := by
  refine ⟨tableFlags_isP f, ?_⟩
  change tableFlags.getLsbD 2 = true
  decide

/-- What can be reached through writeable entries has one reference, zero mappings are not writeable,
and user programs get through writeable entries for tables. -/
structure Cow (G : Ghost) (s : Mem) : Prop where
  single : ∀ f, WReach b G s f → G.kind f ≠ .root → s.refcount f = 1
  zeroRO : ∀ t i, (G.kind t).user i = true → (s.entry t i).isW = true →
    (s.entry t i).frame ≠ b.zero
  opened : ∀ t i, (G.kind t).user i = true → (s.entry t i).isW = true →
    ∀ l, (G.kind t).level = some (l + 1) → (s.entry t i).Open

variable {b}

/-! ## Entries -/

section

variable {G : Ghost} {s : Mem} {t u f : Frame} {i j : ℕ} {e : Pte}

theorem slot_eq_some : slot b G s t i = some f ↔ (G.kind t).user i = true ∧ G.off ≠ some (t, i) ∧
    (s.entry t i).frame ≠ b.zero ∧ (s.entry t i).frame = f := by
  unfold slot
  split
  · rename_i h
    simp only [Option.some.injEq]
    exact ⟨fun e => ⟨h.1, h.2.1, h.2.2, e⟩, fun e => e.2.2.2⟩
  · rename_i h
    simp only [reduceCtorEq, false_iff]
    exact fun e => h ⟨e.1, e.2.1, e.2.2.1⟩

theorem slot_lt (h : slot b G s t i = some f) : i < 512 :=
  Kind.user_lt (slot_eq_some.1 h).1

theorem slot_of_user (hu : (G.kind t).user i = true) (ho : G.off ≠ some (t, i))
    (hz : (s.entry t i).frame ≠ b.zero) : slot b G s t i = some (s.entry t i).frame :=
  slot_eq_some.2 ⟨hu, ho, hz, rfl⟩

end

/-! ## Consequences -/

namespace Counted

variable {G : Ghost} {s : Mem} {t u f g : Frame} {i j : ℕ}

theorem slot_used (h : Counted b G s) (hs : slot b G s t i = some f) : (G.kind f).Used := by
  rw [h.typed hs]
  exact Kind.kid_used (slot_eq_some.1 hs).1

/-- Pages that are not used have no entry pointing to them. -/
theorem refCount_unused (h : Counted b G s) (hf : ¬(G.kind f).Used) :
    refCount 512 (slot b G s) f = 0 :=
  refCount_eq_zero fun _ _ _ hs => hf (h.slot_used hs)

theorem refcount_unused (h : Counted b G s) (hf : ¬(G.kind f).Used) :
    s.refcount f = G.extra f := by
  have hr : G.kind f ≠ .root := by
    intro e
    rw [e] at hf
    exact hf trivial
  rw [h.count f, h.refCount_unused hf, rootRef, if_neg hr]
  omega

theorem used_avail (h : Counted b G s) (hf : (G.kind f).Used) : f ∈ b.avail :=
  h.avail f fun e => by
    rw [e] at hf
    exact hf

/-- A page with one reference has one entry pointing to it. -/
theorem single_slot (h : Counted b G s) (hf : s.refcount f = 1) (ht : slot b G s t i = some f)
    (hu : slot b G s u j = some f) : t = u ∧ i = j := by
  have hc := h.count f
  have hr : G.kind f ≠ .root := by
    rw [h.typed ht]
    exact Kind.kid_ne_root _ _
  have hx := h.extra_nonneg f hr
  have hle : refCount 512 (slot b G s) f ≤ 1 := by
    unfold rootRef at hc
    split at hc <;> omega
  exact slot_unique hle (slot_lt ht) (slot_lt hu) ht hu

/-- Only roots have no entry pointing to them. -/
theorem exists_slot (h : Counted b G s) (hf : (G.kind f).Used) (hr : G.kind f ≠ .root)
    (hx : G.extra f = 0) : ∃ t i, slot b G s t i = some f := by
  have hc := h.count f
  rw [rootRef, if_neg hr, hx] at hc
  have hpos := h.alive f hf hr
  obtain ⟨t, i, -, hs⟩ := exists_of_refCount_pos (show 0 < refCount 512 (slot b G s) f by omega)
  exact ⟨t, i, hs⟩

end Counted

theorem WReach.used {G : Ghost} {s : Mem} {f : Frame} (h : Counted b G s) (hw : WReach b G s f) :
    (G.kind f).Used := by
  cases hw with
  | root hr =>
    rw [hr]
    trivial
  | step _ hs _ => exact h.slot_used hs

end Determinator
