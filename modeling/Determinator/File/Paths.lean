import Determinator.Lib.Fields
import Determinator.File.Outcome

/-!
# Paths

What `dir_walk` does, in two parts: where a path leads in a table of inodes, which is a matter of the
table alone, and what is then done there. In a table whose entries are told apart by directory
and name, the first part takes the components of the path one at a time, although the source
searches one flat table and compares prefixes.
-/

namespace Determinator.File

/-! ## Where a path leads -/

/-- What `dir_walk` finds at the end of a path. -/
inductive Target
  /-- The path leads to this file. -/
  | found (ino : ℤ)
  /-- The last component names an entry that was deleted. -/
  | deleted (ino : ℤ)
  /-- The directory has no entry with the name of the last component. -/
  | missing (dino : ℤ) (name : List UInt8)
  /-- A component that a slash follows is missing. -/
  | lost
  /-- A component that a slash follows is not a directory. -/
  | notdir
  deriving DecidableEq

/-- The loop `searchdir`, up to the point where it returns or changes the table. -/
def search (f : FileState) : ℕ → ℤ → List UInt8 → Except Site Target
  | 0, _, _ => .error .dirWalk
  | n + 1, dino, path => do
    require (f.isdir dino) .dirWalk
    require (f.isdir (f.fi dino).dino) .dirWalk
    match lookup f dino path with
    | none => return if slash ∈ path then .lost else .missing dino path
    | some (ino, []) => return if f.exist ino then .found ino else .deleted ino
    | some (ino, rest) =>
      if ¬ f.isdir ino then
        return .notdir
      match rest.dropWhile (· == slash) with
      | [] => return .found ino
      | path' => search f n ino path'

/-- Where a path leads. -/
def target (f : FileState) (path : List UInt8) : Except Site Target := do
  require (path ≠ []) .dirWalk
  if path.head? = some slash then
    match path.dropWhile (· == slash) with
    | [] => return .found fileinoRootdir
    | path' => search f path.length fileinoRootdir path'
  else
    search f path.length f.cwd path

/-- What `dir_walk` does with the target of a path. -/
def Target.reach (s : Fs) (createmode : BitVec 32) :
    Target → Except Site (Except Errno ℤ × Fs)
  | .found ino => .ok (.ok ino, s)
  | .deleted ino => dirFound s ino createmode
  | .missing dino name => dirCreate s dino name createmode
  | .lost => .ok (.error .enoent, s)
  | .notdir => .ok (.error .enotdir, s)

theorem dirCreate_of_slash {s : Fs} {dino : ℤ} {path : List UInt8} {createmode : BitVec 32}
    (h : slash ∈ path) : dirCreate s dino path createmode = .ok (.error .enoent, s) := by
  unfold dirCreate
  rw [if_pos (.inr h)]
  rfl

theorem dirFound_of_exist {s : Fs} {ino : ℤ} {createmode : BitVec 32} (h : s.files.exist ino) :
    dirFound s ino createmode = .ok (.ok ino, s) := by
  unfold dirFound
  rw [if_pos h]
  rfl

theorem searchdir_eq (s : Fs) (createmode : BitVec 32) (n : ℕ) (dino : ℤ) (path : List UInt8) :
    searchdir createmode n s dino path =
      search s.files n dino path >>= Target.reach s createmode := by
  induction n generalizing dino path with
  | zero => rfl
  | succ n ih =>
    unfold searchdir search
    simp only [bind_assoc]
    congr 1
    funext _
    congr 1
    funext _
    rcases lookup s.files dino path with _ | ⟨ino, _ | ⟨c, rest⟩⟩
    · simp only [pure_bind]
      split
      case isTrue h => exact dirCreate_of_slash h
      case isFalse => rfl
    · simp only [pure_bind]
      split
      case isTrue h => exact dirFound_of_exist h
      case isFalse => rfl
    · simp only
      split
      case isTrue => rfl
      case isFalse =>
        generalize (c :: rest).dropWhile (· == slash) = path'
        cases path' with
        | nil => rfl
        | cons d path' => exact ih ino (d :: path')

/-- `dir_walk` follows the path, and then acts on what is there. -/
theorem dirWalk_eq (s : Fs) (path : List UInt8) (createmode : BitVec 32) :
    dirWalk s path createmode = target s.files path >>= Target.reach s createmode := by
  unfold dirWalk target
  rw [bind_assoc]
  congr 1
  funext _
  split
  · generalize path.dropWhile (· == slash) = path'
    cases path' with
    | nil => rfl
    | cons d path' => exact searchdir_eq ..
  · exact searchdir_eq ..

/-! ## Component by component -/

/-- The entry of a directory with a given name. -/
def entry (f : FileState) (dino : ℤ) (name : List UInt8) : Option ℤ :=
  (inos 1).find? fun ino =>
    decide (f.alloced ino ∧ (f.fi ino).dino = dino ∧ (f.fi ino).name = name)

/-- Where a component leads from a directory: to the entry with that name, and where there is none,
`.` to the directory itself and `..` to the directory it is in. -/
def step (f : FileState) (dino : ℤ) (name : List UInt8) : Option ℤ :=
  match entry f dino name with
  | some ino => some ino
  | none =>
    if name = [dot] then some dino
    else if name = [dot, dot] then some (f.fi dino).dino
    else none

/-- Resolve components one at a time. A component that a slash follows is a directory; a slash
follows all but the last one, and that one if `behind` holds. -/
def resolve (f : FileState) (behind : Bool) : ℤ → List (List UInt8) → Target
  | dino, [] => .found dino
  | dino, name :: names =>
    if names = [] ∧ behind = false then
      match step f dino name with
      | none => .missing dino name
      | some ino => if f.exist ino then .found ino else .deleted ino
    else
      match step f dino name with
      | none => .lost
      | some ino => if f.isdir ino then resolve f behind ino names else .notdir

/-- The directory where a path starts. -/
def start (f : FileState) (path : List UInt8) : ℤ :=
  if path.head? = some slash then fileinoRootdir else f.cwd

/-- The target of a path, by its components. -/
def resolved (f : FileState) (path : List UInt8) : Target :=
  resolve f (path.getLast? == some slash) (start f path) (fields slash path)

/-- Directory and name tell entries apart, only the root may have a slash in its name, and what an
entry or the process is in is a directory. -/
structure Listed (f : FileState) : Prop where
  unique : ∀ i j, f.alloced i → f.alloced j → (f.fi i).dino = (f.fi j).dino →
    (f.fi i).name = (f.fi j).name → i = j
  plain : ∀ i, f.alloced i → i ≠ fileinoRootdir → slash ∉ (f.fi i).name
  cwd : f.isdir f.cwd
  parent : ∀ i, f.alloced i → f.isdir (f.fi i).dino

/-- The root is a directory and has the name that every process starts with. -/
structure Tidy (f : FileState) : Prop extends Listed f where
  root : f.isdir fileinoRootdir
  rootName : (f.fi fileinoRootdir).name = [slash]

section table

variable {f : FileState} {i ino dino : ℤ} {name path rest : List UInt8}

theorem mem_inos {lo : ℕ} : ino ∈ inos lo ↔ (lo : ℤ) ≤ ino ∧ ino < fileInodes := by
  unfold inos fileInodes
  rw [List.mem_map]
  constructor
  · rintro ⟨k, hk, rfl⟩
    rw [List.mem_range'_1] at hk
    simp only [Int.ofNat_eq_natCast]
    omega
  · rintro ⟨hlo, hhi⟩
    exact ⟨ino.toNat, List.mem_range'_1.2 (by omega), by simp; omega⟩

theorem FileState.alloced.mem_inos (h : f.alloced ino) : ino ∈ inos 1 :=
  File.mem_inos.2 ⟨by have := h.1.1; omega, h.1.2⟩

theorem FileState.isdir.exist (h : f.isdir ino) : f.exist ino := by
  obtain ⟨ha, hd⟩ := h
  refine ⟨ha, ?_⟩
  intro h0
  rw [h0] at hd
  exact absurd hd (by decide)

/-- In a tidy table an entry is found by its directory and its name. -/
theorem Tidy.entry_eq_some (ht : Tidy f) :
    entry f dino name = some ino ↔
      f.alloced ino ∧ (f.fi ino).dino = dino ∧ (f.fi ino).name = name := by
  constructor
  · intro h
    simpa using List.find?_some h
  · intro h
    cases he : entry f dino name with
    | none =>
      have := List.find?_eq_none.1 he ino h.1.mem_inos
      simp [h] at this
    | some j =>
      have hj : f.alloced j ∧ (f.fi j).dino = dino ∧ (f.fi j).name = name := by
        simpa using List.find?_some he
      rw [ht.unique j ino hj.1 h.1 (by rw [hj.2.1, h.2.1]) (by rw [hj.2.2, h.2.2])]

theorem entry_eq_none :
    entry f dino name = none ↔
      ∀ i, f.alloced i → (f.fi i).dino = dino → (f.fi i).name ≠ name := by
  unfold entry
  rw [List.find?_eq_none]
  constructor
  · intro h i ha hd hn
    simpa [ha, hd, hn] using h i ha.mem_inos
  · intro h i _ hi
    obtain ⟨ha, hd, hn⟩ := of_decide_eq_true hi
    exact h i ha hd hn

end table

/-! ## The loop takes components -/

section components

variable {f : FileState} {i ino dino : ℤ} {name x path rest : List UInt8}

/-- What comes behind a component: nothing, or a slash and more. -/
def Behind (rest : List UInt8) : Prop := rest = [] ∨ ∃ r, rest = slash :: r

/-- A name without slashes is the next component where it is all of it. -/
theorem isComponent_iff (hn : slash ∉ name) (hx : slash ∉ x) (hr : Behind rest) :
    isComponent name (x ++ rest) = true ↔ name = x := by
  unfold isComponent
  constructor
  · intro h
    rw [Bool.and_eq_true, List.isPrefixOf_iff_prefix] at h
    obtain ⟨⟨t, ht⟩, h⟩ := h
    rw [← ht, List.drop_left] at h
    obtain ⟨a, rfl, ha⟩ | ⟨a, rfl, ha⟩ := List.append_eq_append_iff.1 ht
    · cases a with
      | nil => simp
      | cons c a =>
        -- the component would go on behind the name
        rw [ha] at h
        have : c = slash := by simpa using h
        rw [this] at hx
        simp at hx
    · cases a with
      | nil => simp
      | cons c a =>
        -- the name would go on behind the component
        obtain hr | ⟨r, hr⟩ := hr
        · rw [hr] at ha
          simp at ha
        · rw [hr] at ha
          rw [← (List.cons.inj ha).1] at hn
          simp at hn
  · rintro rfl
    obtain rfl | ⟨r, rfl⟩ := hr
    · simp
    · simp

theorem isComponent_slash (hx : slash ∉ x) (h : x ≠ []) : isComponent [slash] (x ++ rest) = false := by
  cases x with
  | nil => exact absurd rfl h
  | cons c x =>
    have : slash ≠ c := by
      rintro rfl
      simp at hx
    simp [isComponent, this]

/-- In a tidy table the search with prefixes finds the entry that the next component names. -/
theorem Tidy.lookup_eq (ht : Tidy f) (hx : slash ∉ x) (h : x ≠ []) (hr : Behind rest) :
    lookup f dino (x ++ rest) = (step f dino x).map fun ino => (ino, rest) := by
  have hfind : ((inos 1).find? fun ino => decide (f.alloced ino ∧ (f.fi ino).dino = dino) &&
      isComponent (f.fi ino).name (x ++ rest)) = entry f dino x := by
    unfold entry
    congr 1
    funext i
    rw [Bool.eq_iff_iff, Bool.and_eq_true, decide_eq_true_iff, decide_eq_true_iff, and_assoc]
    refine and_congr_right fun ha => and_congr_right fun _ => ?_
    by_cases hi : i = fileinoRootdir
    · rw [hi, ht.rootName, isComponent_slash hx h]
      constructor
      · intro h
        cases h
      · rintro rfl
        simp at hx
    · exact isComponent_iff (ht.plain i ha hi) hx hr
  have hdot : slash ∉ [dot] := by decide
  have hdots : slash ∉ [dot, dot] := by decide
  unfold lookup step
  rw [hfind]
  cases he : entry f dino x with
  | some ino =>
    have hname : (f.fi ino).name = x := ((ht.entry_eq_some).1 he).2.2
    simp only [Option.map_some, hname, List.drop_left]
  | none =>
    simp only [isComponent_iff hdot hx hr, isComponent_iff hdots hx hr, eq_comm (a := x)]
    split
    case isTrue h => simp [← h]
    case isFalse =>
      split
      case isTrue h => simp [← h]
      case isFalse => rfl

end components

/-! ## The walk is the resolution -/

section resolution

variable {f : FileState} {s s' : Fs} {ino dino : ℤ} {name path : List UInt8}
  {createmode : BitVec 32}

theorem resolve_singleton : resolve f false dino [name] =
    match step f dino name with
    | none => .missing dino name
    | some ino => if f.exist ino then .found ino else .deleted ino := by
  rw [resolve, if_pos ⟨rfl, rfl⟩]

theorem resolve_cons {behind : Bool} {names : List (List UInt8)}
    (h : ¬ (names = [] ∧ behind = false)) :
    resolve f behind dino (name :: names) =
      match step f dino name with
      | none => .lost
      | some ino => if f.isdir ino then resolve f behind ino names else .notdir := by
  rw [resolve, if_neg h]

/-- The rounds of `searchdir` resolve the components of the path. -/
theorem Tidy.search_eq (ht : Tidy f) (n : ℕ) (hd : f.isdir dino) (hp : path ≠ [])
    (hs : path.head? ≠ some slash) (hn : path.length ≤ n) :
    search f n dino path =
      .ok (resolve f (path.getLast? == some slash) dino (fields slash path)) := by
  induction n generalizing dino path with
  | zero => exact absurd (List.length_eq_zero_iff.1 (Nat.le_zero.1 hn)) hp
  | succ n ih =>
    obtain ⟨x, hx, hxp⟩ := exists_field slash path
    have hx0 : x ≠ [] := by
      rintro rfl
      obtain rfl | ⟨r, rfl⟩ := hxp
      · exact hp rfl
      · exact hs rfl
    unfold search
    rw [require_bind hd, require_bind (ht.parent dino hd.1)]
    obtain rfl | ⟨r, rfl⟩ := hxp
    · -- the last component
      have hlast : (path.getLast? == some slash) = false := by
        rw [beq_eq_false_iff_ne]
        intro h
        exact hx (List.mem_of_getLast? h)
      have hl : lookup f dino (path ++ []) = _ := ht.lookup_eq hx hx0 (.inl rfl)
      rw [List.append_nil] at hl
      rw [hl, hlast, fields_eq_singleton hx0 hx]
      rw [resolve_singleton]
      cases step f dino path with
      | none =>
        rw [Option.map_none, if_neg hx]
        rfl
      | some ino => rfl
    · -- a component that a slash follows
      have hbehind : Behind (slash :: r) := .inr ⟨r, rfl⟩
      rw [ht.lookup_eq hx hx0 hbehind, fields_append_sep hx0 hx,
        List.getLast?_append_of_ne_nil _ (List.cons_ne_nil _ _)]
      have hnot : ¬ (fields slash r = [] ∧ ((slash :: r).getLast? == some slash) = false) := by
        rintro ⟨hr, hl⟩
        rw [← dropWhile_eq_nil_iff_fields] at hr
        rw [getLast?_of_dropWhile_eq_nil hr] at hl
        simp at hl
      rw [resolve_cons hnot]
      cases step f dino x with
      | none =>
        rw [Option.map_none, if_pos (by simp)]
        rfl
      | some ino =>
        simp only [Option.map_some]
        by_cases hi : f.isdir ino
        swap
        · rw [if_pos hi, if_neg hi]
          rfl
        rw [if_neg (not_not.2 hi), if_pos hi, List.dropWhile_cons, if_pos (by simp)]
        generalize hq : r.dropWhile (· == slash) = q
        cases q with
        | nil =>
          rw [dropWhile_eq_nil_iff_fields.1 hq]
          rfl
        | cons c q =>
          have hne : r.dropWhile (· == slash) ≠ [] := by simp [hq]
          have hlen : (r.dropWhile (· == slash)).length ≤ n := by
            have := (List.dropWhile_suffix (· == slash) (l := r)).length_le
            simp only [List.length_append, List.length_cons] at hn
            omega
          have hhead : (r.dropWhile (· == slash)).head? ≠ some slash := by
            have := List.head_dropWhile_not (· == slash) hne
            rw [List.head?_eq_some_head hne]
            simpa using this
          have hr : r ≠ [] := by
            rintro rfl
            exact hne rfl
          have := ih hi hne hhead hlen
          rw [fields_dropWhile, getLast?_dropWhile hne] at this
          rw [hq] at this
          simp only
          rw [this, List.getLast?_cons_of_ne_nil hr]

/-- In a tidy table a path leads where its components do, one after the other. -/
theorem Tidy.target_eq (ht : Tidy f) (hp : path ≠ []) : target f path = .ok (resolved f path) := by
  unfold target resolved start
  rw [require_bind hp]
  split
  case isFalse hs => exact ht.search_eq _ ht.cwd hp hs le_rfl
  case isTrue hs =>
    generalize hq : path.dropWhile (· == slash) = q
    cases q with
    | nil =>
      rw [dropWhile_eq_nil_iff_fields.1 hq]
      rfl
    | cons c q =>
      have hne : path.dropWhile (· == slash) ≠ [] := by simp [hq]
      have hlen := (List.dropWhile_suffix (· == slash) (l := path)).length_le
      have hhead : (path.dropWhile (· == slash)).head? ≠ some slash := by
        have := List.head_dropWhile_not (· == slash) hne
        rw [List.head?_eq_some_head hne]
        simpa using this
      have := ht.search_eq path.length ht.root hne hhead hlen
      rw [fields_dropWhile, getLast?_dropWhile hne, hq] at this
      exact this

end resolution

/-! ## What is done at the target -/

/-- What is known of a target that the walk has come to. -/
def Target.Sound (f : FileState) : Target → Prop
  | .deleted ino => f.alloced ino ∧ ¬ f.exist ino
  | .missing dino name => f.isdir dino ∧ name ≠ [] ∧ slash ∉ name ∧ lookup f dino name = none
  | _ => True

/-- What `dir_walk` may return for a target, and the file state it may leave. -/
inductive Reached (s : Fs) (createmode : BitVec 32) : Target → Except Errno ℤ → Fs → Prop
  | found (ino : ℤ) : Reached s createmode (.found ino) (.ok ino) s
  | lost : Reached s createmode .lost (.error .enoent) s
  | notdir : Reached s createmode .notdir (.error .enotdir) s
  | gone (ino : ℤ) (h : createmode = 0) :
      Reached s createmode (.deleted ino) (.error .enoent) s
  | revived (ino : ℤ) (h : createmode ≠ 0) (hv : (s.files.fi ino).ver < intMax) :
      Reached s createmode (.deleted ino) (.ok ino)
        (s.setFi ino fun x => { x with ver := x.ver + 1, mode := createmode, size := 0 })
  | absent (dino : ℤ) (name : List UInt8) (h : createmode = 0) :
      Reached s createmode (.missing dino name) (.error .enoent) s
  | tooLong (dino : ℤ) (name : List UInt8) (h : createmode ≠ 0) (hl : nameMax < name.length) :
      Reached s createmode (.missing dino name) (.error .enametoolong) s
  | full (dino : ℤ) (name : List UInt8) (h : createmode ≠ 0) (hl : name.length ≤ nameMax)
      (hf : ∀ i : ℤ, fileinoGeneral ≤ i → i < fileInodes → s.files.alloced i) :
      Reached s createmode (.missing dino name) (.error .enospc) s
  | created (dino : ℤ) (name : List UInt8) (ino : ℤ) (h : createmode ≠ 0)
      (hl : name.length ≤ nameMax) (hlo : fileinoGeneral ≤ ino) (hhi : ino < fileInodes)
      (hf : ¬ s.files.alloced ino) :
      Reached s createmode (.missing dino name) (.ok ino)
        (s.setFi ino fun x =>
          { x with name := name, dino := dino, ver := 0, mode := createmode, size := 0 })

section reach

variable {f : FileState} {s s' : Fs} {ino dino : ℤ} {name path : List UInt8}
  {createmode : BitVec 32} {t : Target} {r : Except Errno ℤ}

/-- The walk comes to a target only with what it has seen of it. -/
theorem search_sound (n : ℕ) (hp : path ≠ []) (h : search f n dino path = .ok t) : t.Sound f := by
  induction n generalizing dino path with
  | zero => cases h
  | succ n ih =>
    unfold search at h
    rw [require_bind_ok] at h
    obtain ⟨hd, h⟩ := h
    rw [require_bind_ok] at h
    obtain ⟨hdd, h⟩ := h
    rcases hl : lookup f dino path with _ | ⟨ino, _ | ⟨c, rest⟩⟩
    · rw [hl] at h
      rw [← Except.ok.inj h]
      split
      · trivial
      · exact ⟨hd, hp, ‹_›, hl⟩
    · rw [hl] at h
      rw [← Except.ok.inj h]
      split
      · trivial
      · refine ⟨?_, ‹_›⟩
        unfold lookup at hl
        split at hl
        case h_1 j hj =>
          have hj := List.find?_some hj
          rw [Bool.and_eq_true] at hj
          rw [← (Prod.mk.inj (Option.some.inj hl)).1]
          exact (of_decide_eq_true hj.1).1
        case h_2 =>
          split at hl
          · rw [← (Prod.mk.inj (Option.some.inj hl)).1]
            exact hd.1
          · split at hl
            · rw [← (Prod.mk.inj (Option.some.inj hl)).1]
              exact hdd.1
            · cases hl
    · rw [hl] at h
      simp only at h
      split at h
      case isTrue =>
        rw [← Except.ok.inj h]
        trivial
      case isFalse =>
        generalize (c :: rest).dropWhile (· == slash) = q at h
        cases q with
        | nil =>
          rw [← Except.ok.inj h]
          trivial
        | cons d q => exact ih (List.cons_ne_nil d q) h

theorem target_sound (h : target f path = .ok t) : t.Sound f := by
  unfold target at h
  rw [require_bind_ok] at h
  obtain ⟨hp, h⟩ := h
  split at h
  case isFalse => exact search_sound _ hp h
  case isTrue =>
    generalize path.dropWhile (· == slash) = q at h
    cases q with
    | nil =>
      rw [← Except.ok.inj h]
      trivial
    | cons c q => exact search_sound _ (List.cons_ne_nil c q) h

theorem fileinoAlloc_ok (h : fileinoAlloc f = .ok ino) :
    fileinoGeneral ≤ ino ∧ ino < fileInodes ∧ (f.fi ino).name = [] := by
  unfold fileinoAlloc at h
  split at h
  case h_2 => cases h
  case h_1 i hi =>
    cases h
    have hm := mem_inos.1 (List.mem_of_find?_eq_some hi)
    exact ⟨hm.1, hm.2, by simpa using List.find?_some hi⟩

theorem fileinoAlloc_error {e : Errno} (h : fileinoAlloc f = .error e) :
    e = .enospc ∧ ∀ i : ℤ, fileinoGeneral ≤ i → i < fileInodes → f.alloced i := by
  unfold fileinoAlloc at h
  split at h
  case h_1 => cases h
  case h_2 hi =>
    cases h
    refine ⟨rfl, fun i hlo hhi => ⟨⟨?_, hhi⟩, ?_⟩⟩
    · have : (0 : ℤ) < fileinoGeneral := by decide
      omega
    · simpa using List.find?_eq_none.1 hi i (mem_inos.2 ⟨hlo, hhi⟩)

/-- At a target it has come to `dir_walk` returns; only a version number that has run out can
stop it. -/
theorem Target.Sound.reach_ok (h : t.Sound s.files)
    (hv : ∀ ino, t = .deleted ino → createmode ≠ 0 → (s.files.fi ino).ver < intMax) :
    ∃ r s', t.reach s createmode = .ok (r, s') ∧ Reached s createmode t r s' := by
  cases t with
  | found ino => exact ⟨_, _, rfl, .found ino⟩
  | lost => exact ⟨_, _, rfl, .lost⟩
  | notdir => exact ⟨_, _, rfl, .notdir⟩
  | deleted ino =>
    simp only [Target.reach, dirFound]
    rw [if_neg h.2]
    by_cases hc : createmode = 0
    · rw [if_pos hc]
      exact ⟨_, _, rfl, .gone ino hc⟩
    · rw [if_neg hc, bump, bind_assoc, require_bind (hv ino rfl hc)]
      exact ⟨_, _, rfl, .revived ino hc (hv ino rfl hc)⟩
  | missing dino name =>
    obtain ⟨hd, hne, hs, hl⟩ := h
    simp only [Target.reach, dirCreate]
    by_cases hc : createmode = 0
    · rw [if_pos (.inl hc)]
      exact ⟨_, _, rfl, .absent dino name hc⟩
    rw [if_neg (not_or.2 ⟨hc, hs⟩)]
    by_cases hlen : nameMax < name.length
    · rw [if_pos hlen]
      exact ⟨_, _, rfl, .tooLong dino name hc hlen⟩
    rw [if_neg hlen]
    cases ha : fileinoAlloc s.files with
    | error e =>
      obtain ⟨rfl, hf⟩ := fileinoAlloc_error ha
      exact ⟨_, _, rfl, .full dino name hc (not_lt.1 hlen) hf⟩
    | ok ino =>
      obtain ⟨hlo, hhi, hname⟩ := fileinoAlloc_ok ha
      have hfree : ¬ s.files.alloced ino := fun h => h.2 hname
      have hvalid : fileinoIsvalid ino := by
        refine ⟨?_, hhi⟩
        have : (0 : ℤ) < fileinoGeneral := by decide
        omega
      simp only
      rw [require_bind ⟨hvalid, hfree⟩]
      exact ⟨_, _, rfl, .created dino name ino hc (not_lt.1 hlen) hlo hhi hfree⟩

/-- What `dir_walk` does at a target where it returns. -/
theorem Target.Sound.reached (h : t.Sound s.files) (hr : t.reach s createmode = .ok (r, s')) :
    Reached s createmode t r s' := by
  have hv : ∀ ino, t = .deleted ino → createmode ≠ 0 → (s.files.fi ino).ver < intMax := by
    rintro ino rfl hc
    simp only [Target.reach, dirFound] at hr
    rw [if_neg h.2, if_neg hc, bump, bind_assoc, require_bind_ok] at hr
    exact hr.1
  obtain ⟨r', t', hr', hreached⟩ := h.reach_ok hv
  rw [hr'] at hr
  cases hr
  exact hreached

/-- Giving an inode that is no directory a name that its directory does not have keeps a table
tidy. -/
theorem Tidy.setFi (ht : Tidy f) {g : FileInode → FileInode} (hv : fileinoIsvalid ino)
    (hr : ¬ f.isdir ino) (hn : (g (f.fi ino)).name ≠ []) (hs : slash ∉ (g (f.fi ino)).name)
    (hd : f.isdir (g (f.fi ino)).dino)
    (hu : ∀ i, f.alloced i → (f.fi i).dino = (g (f.fi ino)).dino →
      (f.fi i).name = (g (f.fi ino)).name → i = ino) : Tidy (f.setFi ino g) := by
  have hdir : ∀ i, f.isdir i → (f.setFi ino g).isdir i := by
    intro i hi
    have hne : i ≠ ino := by
      rintro rfl
      exact hr hi
    unfold FileState.isdir FileState.alloced
    rw [FileState.setFi_fi_ne hne]
    exact hi
  have hall : ∀ i, i ≠ ino → (f.setFi ino g).alloced i → f.alloced i := by
    intro i hne hi
    unfold FileState.alloced at hi
    rwa [FileState.setFi_fi_ne hne] at hi
  have hroot : fileinoRootdir ≠ ino := by
    rintro rfl
    exact hr ht.root
  refine ⟨⟨?unique, ?plain, ?cwd, ?parent⟩, ?root, ?rootName⟩
  case unique =>
    intro i j hi hj
    by_cases hii : i = ino
    · by_cases hjj : j = ino
      · intros
        rw [hii, hjj]
      · rw [hii, FileState.setFi_fi_same, FileState.setFi_fi_ne hjj]
        intro h h'
        exact (hu j (hall j hjj hj) h.symm h'.symm).symm
    · by_cases hjj : j = ino
      · rw [hjj, FileState.setFi_fi_same, FileState.setFi_fi_ne hii]
        exact hu i (hall i hii hi)
      · rw [FileState.setFi_fi_ne hii, FileState.setFi_fi_ne hjj]
        exact ht.unique i j (hall i hii hi) (hall j hjj hj)
  case plain =>
    intro i hi hne
    by_cases hii : i = ino
    · rwa [hii, FileState.setFi_fi_same]
    · rw [FileState.setFi_fi_ne hii]
      exact ht.plain i (hall i hii hi) hne
  case rootName =>
    rw [FileState.setFi_fi_ne hroot]
    exact ht.rootName
  case root => exact hdir _ ht.root
  case cwd => exact hdir _ ht.cwd
  case parent =>
    intro i hi
    by_cases hii : i = ino
    · rw [hii, FileState.setFi_fi_same]
      exact hdir _ hd
    · rw [FileState.setFi_fi_ne hii]
      exact hdir _ (ht.parent i (hall i hii hi))

/-- Whatever `dir_walk` does at its target keeps the table tidy. -/
theorem Reached.tidy (h : Reached s createmode t r s') (ht : Tidy s.files)
    (hs : t.Sound s.files) : Tidy s'.files := by
  cases h with
  | found | lost | notdir | gone | absent | tooLong | full => exact ht
  | revived ino hc hv =>
    obtain ⟨ha, he⟩ := hs
    have hroot : ino ≠ fileinoRootdir := by
      rintro rfl
      exact he ht.root.exist
    rw [Fs.setFi_files]
    apply ht.setFi ha.1 fun hd => he hd.exist
    case hn => exact ha.2
    case hs => exact ht.plain ino ha hroot
    case hd => exact ht.parent ino ha
    case hu => exact fun i hi hd hn => ht.unique i ino hi ha hd hn
  | created dino name ino hc hl hlo hhi hf =>
    obtain ⟨hd, hne, hslash, hlook⟩ := hs
    have hvalid : fileinoIsvalid ino := by
      refine ⟨?_, hhi⟩
      have : (0 : ℤ) < fileinoGeneral := by decide
      omega
    rw [Fs.setFi_files]
    apply ht.setFi hvalid fun hd => hf hd.1
    case hn => exact hne
    case hs => exact hslash
    case hd => exact hd
    intro i hi hdi hn
    have hnone : lookup s.files dino (name ++ []) = _ := ht.lookup_eq hslash hne (.inl rfl)
    rw [List.append_nil, hlook] at hnone
    unfold step at hnone
    cases he : entry s.files dino name with
    | some j =>
      rw [he] at hnone
      cases hnone
    | none => exact absurd hn (entry_eq_none.1 he i hi hdi)

/-- `dir_walk` resolves the components of a path one after the other; at the end it returns what
it has found, creates the one entry that is missing there or revives the one that was deleted. -/
theorem dirWalk_resolved (s : Fs) (path : List UInt8) (createmode : BitVec 32) (hp : path ≠ [])
    (ht : Tidy s.files)
    (hv : ∀ ino, resolved s.files path = .deleted ino → createmode ≠ 0 →
      (s.files.fi ino).ver < intMax) :
    ∃ r s', dirWalk s path createmode = .ok (r, s') ∧
      Reached s createmode (resolved s.files path) r s' ∧ Tidy s'.files := by
  have htarget := ht.target_eq hp
  have hs := target_sound htarget
  obtain ⟨r, s', hr, h⟩ := hs.reach_ok hv
  refine ⟨r, s', ?_, h, h.tidy ht hs⟩
  rw [dirWalk_eq, htarget]
  exact hr

end reach

/-! ## Small tables -/

/-- A file state with a root of a given name, and perhaps an entry with inode 4. -/
def rootAnd (name : List UInt8) (cwd : ℤ) (x : FileInode) : Fs where
  files :=
    { cwd := cwd, exited := false, status := 0, fd := fun _ => ⟨0, 0, 0, .none⟩,
      fi := fun i =>
        if i = 3 then ⟨3, name, 0, sIfdir, 0, 0, 0, 0⟩ else if i = 4 then x else .zero
      child := fun _ => .free }
  data := fun _ _ => 0

/-- A file state with a root in which every inode is a file, the inode `i` with a name of two
letters for `i / 16` and `i % 16`. -/
def fullTable : Fs where
  files :=
    { cwd := 3, exited := false, status := 0, fd := fun _ => ⟨0, 0, 0, .none⟩,
      fi := fun i =>
        if i = 3 then ⟨3, [slash], 0, sIfdir, 0, 0, 0, 0⟩
        else ⟨3, [.ofNat (i.toNat / 16 + 97), .ofNat (i.toNat % 16 + 97)], 0, sIfreg, 0, 0, 0, 0⟩
      child := fun _ => .free }
  data := fun _ _ => 0

theorem listed_rootAnd {name : List UInt8} {cwd : ℤ} {x : FileInode}
    (hs : slash ∉ x.name) (hx : x.name ≠ name) (hc : (rootAnd name cwd x).files.isdir cwd)
    (hr : name ≠ [] → (rootAnd name cwd x).files.isdir 3)
    (hd : x.name ≠ [] → (rootAnd name cwd x).files.isdir x.dino) :
    Listed (rootAnd name cwd x).files := by
  have hall : ∀ i, (rootAnd name cwd x).files.alloced i → i = 3 ∧ name ≠ [] ∨ i = 4 := by
    rintro i ⟨-, h⟩
    simp only [rootAnd] at h
    split at h
    · exact .inl ⟨‹_›, h⟩
    · split at h
      · exact .inr ‹_›
      · exact absurd rfl h
  have h3 : (rootAnd name cwd x).files.fi 3 = ⟨3, name, 0, sIfdir, 0, 0, 0, 0⟩ := rfl
  have h4 : (rootAnd name cwd x).files.fi 4 = x := rfl
  constructor
  case unique =>
    intro i j hi hj _ hn
    obtain ⟨rfl, -⟩ | rfl := hall i hi
    · obtain ⟨rfl, -⟩ | rfl := hall j hj
      · rfl
      · exact absurd hn.symm hx
    · obtain ⟨rfl, -⟩ | rfl := hall j hj
      · exact absurd hn hx
      · rfl
  case plain =>
    intro i hi hne
    obtain ⟨rfl, -⟩ | rfl := hall i hi
    · exact absurd rfl hne
    · rwa [h4]
  case cwd => exact hc
  case parent =>
    intro i hi
    obtain ⟨rfl, hne⟩ | rfl := hall i hi
    · exact hr hne
    · rw [h4]
      exact hd hi.2

theorem tidy_fullTable : Tidy fullTable.files := by
  have hroot : fullTable.files.isdir 3 := by decide
  have hfi : ∀ i : ℤ, i ≠ 3 → fullTable.files.fi i =
      ⟨3, [.ofNat (i.toNat / 16 + 97), .ofNat (i.toNat % 16 + 97)], 0, sIfreg, 0, 0, 0, 0⟩ :=
    fun i hi => if_neg hi
  refine ⟨⟨?unique, ?plain, hroot, ?parent⟩, hroot, rfl⟩
  case parent =>
    intro i _
    have : (fullTable.files.fi i).dino = 3 := by
      by_cases hi : i = 3
      · rw [hi]
        rfl
      · rw [hfi i hi]
    rwa [this]
  case plain =>
    intro i hi hne hs
    have hlt := hi.1.2
    rw [hfi i hne] at hs
    unfold fileInodes at hlt
    simp only [List.mem_cons, List.not_mem_nil, or_false, ← UInt8.toNat_inj, UInt8.toNat_ofNat',
      slash] at hs
    have h47 : UInt8.toNat 47 = 47 := rfl
    omega
  case unique =>
    intro i j hi hj _ hn
    have hlti := hi.1
    have hltj := hj.1
    unfold fileinoIsvalid fileInodes at hlti hltj
    by_cases hi3 : i = 3
    · by_cases hj3 : j = 3
      · rw [hi3, hj3]
      · rw [hi3, hfi j hj3] at hn
        exact absurd (congrArg List.length hn) (by simp [fullTable])
    · by_cases hj3 : j = 3
      · rw [hj3, hfi i hi3] at hn
        exact absurd (congrArg List.length hn) (by simp [fullTable])
      · rw [hfi i hi3, hfi j hj3] at hn
        simp only [List.cons.injEq, and_true, ← UInt8.toNat_inj, UInt8.toNat_ofNat'] at hn
        omega

theorem dirWalk_resolved_dots : ∃ r s',
    dirWalk (rootAnd [slash] 3 ⟨3, [97], 0, sIfreg, 0, 0, 0, 0⟩)
      [slash, slash, dot, slash, dot, dot, slash, slash, 97] 0 = .ok (r, s') ∧
    Reached (rootAnd [slash] 3 ⟨3, [97], 0, sIfreg, 0, 0, 0, 0⟩) 0 (.found 4) r s' ∧
    Tidy s'.files := by
  have ht : Tidy (rootAnd [slash] 3 ⟨3, [97], 0, sIfreg, 0, 0, 0, 0⟩).files :=
    ⟨listed_rootAnd (by decide) (by decide) (by decide) (by decide) (by decide), by decide, rfl⟩
  exact dirWalk_resolved _ [slash, slash, dot, slash, dot, dot, slash, slash, 97] 0 (by decide) ht
    fun _ _ h => absurd rfl h

/-- The ways in which a walk with a `createmode` that finds all but the last component creates
nothing: a slash behind the component, a name that is too long, a table that is full, a version
number that has run out; and what becomes of `/a` where the root is no directory, and of
`a/b` where that is the name of the root. -/
theorem dirWalk_unresolved :
    (Tidy (rootAnd [slash] 3 .zero).files ∧ step (rootAnd [slash] 3 .zero).files 3 [97] = none ∧
      dirWalk (rootAnd [slash] 3 .zero) [97, slash] sIfreg =
        .ok (.error .enoent, rootAnd [slash] 3 .zero)) ∧
    (resolved (rootAnd [slash] 3 .zero).files (List.replicate 64 97) =
        .missing 3 (List.replicate 64 97) ∧
      dirWalk (rootAnd [slash] 3 .zero) (List.replicate 64 97) sIfreg =
        .ok (.error .enametoolong, rootAnd [slash] 3 .zero)) ∧
    (Tidy fullTable.files ∧ resolved fullTable.files [97] = .missing 3 [97] ∧
      dirWalk fullTable [97] sIfreg = .ok (.error .enospc, fullTable)) ∧
    (Tidy (rootAnd [slash] 3 ⟨3, [97], intMax, 0, 0, 0, 0, 0⟩).files ∧
      resolved (rootAnd [slash] 3 ⟨3, [97], intMax, 0, 0, 0, 0, 0⟩).files [97] = .deleted 4 ∧
      dirWalk (rootAnd [slash] 3 ⟨3, [97], intMax, 0, 0, 0, 0, 0⟩) [97] sIfreg =
        .error .overflow) ∧
    (Listed (rootAnd [] 4 ⟨4, [97], 0, sIfdir, 0, 0, 0, 0⟩).files ∧
      dirWalk (rootAnd [] 4 ⟨4, [97], 0, sIfdir, 0, 0, 0, 0⟩) [slash, 97] 0 =
        .error .dirWalk) ∧
    (Listed (rootAnd [97, slash, 98] 3 .zero).files ∧
      step (rootAnd [97, slash, 98] 3 .zero).files 3 [97] = none ∧
      dirWalk (rootAnd [97, slash, 98] 3 .zero) [97, slash, 98] 0 =
        .ok (.ok 3, rootAnd [97, slash, 98] 3 .zero)) := by
  have hbare : Tidy (rootAnd [slash] 3 .zero).files := by
    refine ⟨listed_rootAnd (by decide) (by decide) (by decide) (by decide) ?_, by decide, rfl⟩
    exact fun h => absurd rfl h
  have hdel : Tidy (rootAnd [slash] 3 ⟨3, [97], intMax, 0, 0, 0, 0, 0⟩).files :=
    ⟨listed_rootAnd (by decide) (by decide) (by decide) (by decide) (by decide), by decide, rfl⟩
  refine ⟨⟨hbare, rfl, rfl⟩, ⟨rfl, rfl⟩, ⟨tidy_fullTable, rfl, rfl⟩, ⟨hdel, rfl, rfl⟩,
    ⟨?_, rfl⟩, ⟨?_, rfl, rfl⟩⟩
  · exact listed_rootAnd (by decide) (by decide) (by decide) (by decide) (by decide)
  · exact listed_rootAnd (by decide) (by decide) (by decide) (by decide) fun h => absurd rfl h

end Determinator.File
