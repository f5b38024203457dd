import Determinator.Kern.Pmap

/-!
# Running out of pages

That `mem_alloc` has found no page stays on record. When a computation over the page maps ends with no such
record, then it began with none, no caller of `pmap_walk_level` has gone on without a table, and what
returns something like `NULL` for lack of memory has not done so (`Recorded`).
-/

namespace Determinator

open PanicM

variable {b : Boot} {α β : Type} {s t : Mem} {m : Kern α} {f : α → Kern β} {F : α → Prop} {F' : β → Prop}

/-- If `m` ends with pages left, there were pages before, no failure was ignored, and the value is not
one of `F`. -/
def Recorded (m : Kern α) (s : Mem) (F : α → Prop) : Prop :=
  (m s).state.dry = false → s.dry = false ∧ Note.ignored ∉ (m s).notes ∧ ∀ a, (m s).val = .ok a → ¬F a

/-- Nothing is said of the value. -/
abbrev Records (m : Kern α) : Prop := ∀ s, Recorded m s fun _ => False

/-! ## Rules -/

theorem recorded_pure {a : α} (h : F a → s.dry = true) : Recorded (pure a) s F := by
  intro hs
  refine ⟨hs, List.not_mem_nil, fun a' ha hF => ?_⟩
  cases ha
  exact absurd (h hF) (Bool.eq_false_iff.1 hs)

theorem recorded_panic {e : Panic} : Recorded (panic e : Kern α) s F :=
  fun hs => ⟨hs, List.not_mem_nil, nofun⟩

theorem recorded_modify {g : Mem → Mem} (h : (g s).dry = s.dry) :
    Recorded (modify g) s fun _ => False :=
  fun hs => ⟨h ▸ hs, List.not_mem_nil, fun _ _ => id⟩

/-- After a value of `F` there are no pages left. -/
theorem recorded_bind (h : Recorded m s F) (hf : ∀ a t, (F a → t.dry = true) → Recorded (f a) t F') :
    Recorded (m >>= f) s F' := by
  intro hs
  change (PanicM.bind m f s).state.dry = false at hs
  change s.dry = false ∧ Note.ignored ∉ (PanicM.bind m f s).notes ∧ ∀ a, (PanicM.bind m f s).val = .ok a → ¬F' a
  unfold Recorded at h
  unfold PanicM.bind at hs ⊢
  rcases hm : m s with ⟨_ | a, t, w⟩
  · rw [hm] at h hs
    obtain ⟨h₁, h₂, -⟩ := h hs
    exact ⟨h₁, h₂, nofun⟩
  · rw [hm] at h hs
    simp only at h hs ⊢
    have hF : F a → t.dry = true := by
      intro ha
      by_contra ht
      exact (h (by simpa using ht)).2.2 a rfl ha
    obtain ⟨h₁, h₂, h₃⟩ := hf a t hF hs
    obtain ⟨h₄, h₅, -⟩ := h h₁
    exact ⟨h₄, by simp [h₂, h₅], h₃⟩

/-- What is known of the value is left out. -/
theorem Recorded.any (h : Recorded m s F) : Recorded m s fun _ => False := by
  intro hs
  obtain ⟨h₁, h₂, -⟩ := h hs
  exact ⟨h₁, h₂, fun _ _ => id⟩

theorem Records.bind (h : Records m) (hf : ∀ a, Records (f a)) : Records (m >>= f) :=
  fun s => recorded_bind (h s) fun a t _ => hf a t

theorem recorded_get {k : Mem → Kern β} (h : Recorded (k s) s F') : Recorded (get >>= k) s F' := by
  intro hs
  exact h hs

theorem recorded_ite {c : Prop} [Decidable c] {m₁ m₂ : Kern α} (h₁ : c → Recorded m₁ s F)
    (h₂ : ¬c → Recorded m₂ s F) : Recorded (if c then m₁ else m₂) s F := by
  split
  next hc => exact h₁ hc
  next hc => exact h₂ hc

theorem recorded_check {p : Prop} [Decidable p] {e : Panic} : Recorded (check p e) s fun _ => False :=
  recorded_ite (fun _ => recorded_pure False.elim) fun _ => recorded_panic

/-- A failure is ignored only when there are no pages left. -/
theorem recorded_noteIf {p : Prop} [Decidable p] {n : Note} (h : n = .ignored → p → s.dry = true) :
    Recorded (noteIf p n) s fun _ => False := by
  refine recorded_ite (fun hp => ?_) fun _ => recorded_pure False.elim
  intro hs
  refine ⟨hs, ?_, fun _ _ => id⟩
  intro hn
  have hn : Note.ignored = n := by simpa [note] using hn
  have := h hn.symm hp
  rw [show (note n s : Out Panic Note Mem Unit).state = s from rfl, this] at hs
  cases hs

theorem records_whileM {stuck : Panic} {c : β → Bool} {body : β → Kern β} (h : ∀ x, Records (body x)) (n : ℕ)
    (x : β) : Records (whileM stuck c body n x) := by
  induction n generalizing x with
  | zero =>
    unfold whileM
    exact fun s => recorded_ite (fun _ => recorded_panic) fun _ => recorded_pure False.elim
  | succ n ih =>
    unfold whileM
    exact fun s => recorded_ite (fun _ => (h x).bind ih s) fun _ => recorded_pure False.elim

theorem records_each {f : α → Kern Unit} (h : ∀ a, Records (f a)) (l : List α) : Records (each f l) := by
  induction l with
  | nil => exact fun s => recorded_pure False.elim
  | cons a l ih => exact (h a).bind fun _ => ih

/-! ## The functions -/

theorem records_pure (a : α) : Records (pure a : Kern α) := fun _ => recorded_pure False.elim

theorem records_panic (e : Panic) : Records (panic e : Kern α) := fun _ => recorded_panic

theorem records_check (p : Prop) [Decidable p] (e : Panic) : Records (check p e : Kern Unit) :=
  fun _ => recorded_check

theorem records_ite {c : Prop} [Decidable c] {m₁ m₂ : Kern α} (h₁ : Records m₁) (h₂ : Records m₂) :
    Records (if c then m₁ else m₂) :=
  fun s => recorded_ite (fun _ => h₁ s) fun _ => h₂ s

theorem records_get {k : Mem → Kern β} (h : ∀ s, Records (k s)) : Records (get >>= k) :=
  fun s => recorded_get (h s s)

theorem recorded_readEntry {k : Pte → Kern β} {u : Frame} {i : ℕ} (h : ∀ e, Recorded (k e) s F') :
    Recorded (readEntry u i >>= k) s F' :=
  fun hs => h (s.entry u i) hs

theorem records_readEntry {k : Pte → Kern β} {u : Frame} {i : ℕ} (h : ∀ e, Records (k e)) :
    Records (readEntry u i >>= k) :=
  fun s => recorded_readEntry fun e => h e s

theorem records_writeEntry (u : Frame) (i : ℕ) (e : Pte) : Records (writeEntry u i e) :=
  fun _ => recorded_modify rfl

theorem records_writePage (u : Frame) (pg : Page) : Records (writePage u pg) := fun _ => recorded_modify rfl

theorem records_noteIf {p : Prop} [Decidable p] {n : Note} (h : n ≠ .ignored) : Records (noteIf p n) :=
  fun _ => recorded_noteIf fun hn => absurd hn h

/-- A caller that goes on without a table makes a note. -/
theorem records_walk {γ : Type} {m : Kern (Option γ)} {k : Option γ → Kern β}
    (h : ∀ s, Recorded m s fun r => true = true ∧ r = none) (hk : ∀ r, Records (k r)) :
    Records (do let r ← m; noteIf (r = none) .ignored; k r) :=
  fun s => recorded_bind (h s) fun r _ hr =>
    recorded_bind (recorded_noteIf fun _ hn => hr ⟨rfl, hn⟩) fun _ t _ => hk r t

theorem recorded_memAlloc : Recorded memAlloc s fun r => r = none := by
  intro hs
  cases h : s.freelist with
  | none =>
    rw [memAlloc_none h] at hs
    cases hs
  | some pi =>
    rw [memAlloc_some h] at hs ⊢
    exact ⟨hs, by simp, by rintro _ ⟨⟩; nofun⟩

theorem records_memFree (u : Frame) : Records (memFree u) :=
  records_get fun _ => (records_check _ _).bind fun _ => (records_check _ _).bind fun _ _ => recorded_modify rfl

theorem records_memAsserts (u : Frame) : Records (memAsserts b u) :=
  (records_check _ _).bind fun _ => (records_check _ _).bind fun _ => records_check _ _

theorem records_memIncref (u : Frame) : Records (memIncref b u) :=
  (records_memAsserts u).bind fun _ _ => recorded_modify rfl

theorem records_memDecref {u : Frame} {freefun : Frame → Kern Unit} (h : Records (freefun u)) :
    Records (memDecref b u freefun) := by
  have hend : Records (do
      let s ← get
      check (0 ≤ s.refcount u) .assert) := records_get fun _ => records_check _ _
  refine (records_memAsserts u).bind fun _ => Records.bind (fun _ => recorded_modify rfl) fun _ => records_get fun _ => ?_
  exact records_ite (h.bind fun _ => hend) hend

/-- What is allocated without a check for failure is there. -/
theorem records_memAllocOk {k : Frame → Kern β} (h : ∀ u, Records (k u)) : Records (memAllocOk >>= k) := by
  refine Records.bind (fun s => ?_) h
  refine recorded_bind recorded_memAlloc fun r t _ => ?_
  cases r with
  | none => exact recorded_panic
  | some pi => exact recorded_pure False.elim

theorem records_freeTable {freefun : Frame → Kern Unit} (h : ∀ u, Records (freefun u)) (u : Frame) :
    Records (freeTable b freefun u) := by
  unfold freeTable
  refine Records.bind (records_each (fun i => ?_) _) fun _ => records_memFree u
  exact records_readEntry fun e => records_ite (records_memDecref (h _)) (records_pure _)

theorem records_pmapFreefun (l : ℕ) (u : Frame) : Records (pmapFreefun b l u) := by
  have hpt : ∀ u, Records (pmapFreept b u) := records_freeTable records_memFree
  have hpd : ∀ u, Records (pmapFreepd b u) := records_freeTable hpt
  match l with
  | 0 => exact records_memFree u
  | 1 => exact hpt u
  | 2 => exact hpd u
  | _ + 3 => exact records_freeTable hpd u

theorem records_pmapNewpmap : Records (pmapNewpmap b) := by
  unfold pmapNewpmap
  refine records_memAllocOk fun _ => (records_memIncref _).bind fun _ => records_memAllocOk fun _ =>
    (records_memIncref _).bind fun _ => (records_writePage _ _).bind fun _ => (records_writePage _ _).bind fun _ => ?_
  exact records_pure _

/-! ### Walking -/

theorem recorded_walkLower {u : Frame} {i : ℕ} {w : Bool} :
    Recorded (walkLower b u i w) s fun r => w = true ∧ r = false := by
  unfold walkLower
  refine recorded_readEntry fun e => recorded_ite (fun _ => ?_) fun _ => recorded_ite (fun hw => ?_) fun _ => ?_
  · exact recorded_bind (records_writeEntry _ _ _ _) fun _ _ _ => recorded_pure nofun
  · rw [Bool.not_eq_true'] at hw
    exact recorded_pure fun h => absurd h.1 (by simp [hw])
  · refine recorded_bind recorded_memAlloc fun r t hr => ?_
    cases r with
    | none => exact recorded_pure fun _ => hr rfl
    | some pi =>
      exact recorded_bind (records_memIncref _ _) fun _ _ _ => recorded_bind (records_writePage _ _ _) fun _ _ _ =>
        recorded_bind (records_writeEntry _ _ _ _) fun _ _ _ => recorded_pure nofun

theorem records_copyTable {u v : Frame} : Records (copyTable b u v) := by
  refine records_each (fun j => records_readEntry fun e => ?_) _
  refine (records_writeEntry _ _ _).bind fun _ => (records_check _ _).bind fun _ => ?_
  exact records_ite (records_memIncref _) (records_pure _)

theorem recorded_walkUnshare {l i : ℕ} {u : Frame} : Recorded (walkUnshare b l u i) s fun r => r = false := by
  unfold walkUnshare
  refine recorded_readEntry fun e => recorded_ite (fun _ => recorded_pure nofun) fun _ =>
    recorded_get (recorded_ite (fun _ => ?_) fun _ => ?_)
  · exact recorded_bind (records_writePage _ _ _) fun _ _ _ =>
      recorded_bind (records_writeEntry _ _ _ _) fun _ _ _ => recorded_pure nofun
  · refine recorded_bind recorded_memAlloc fun r t hr => ?_
    cases r with
    | none => exact recorded_pure fun _ => hr rfl
    | some pi =>
      exact recorded_bind (records_memIncref _ _) fun _ _ _ => recorded_bind (records_copyTable _) fun _ _ _ =>
        recorded_bind (records_memDecref (records_pmapFreefun _ _) _) fun _ _ _ =>
        recorded_bind (records_writeEntry _ _ _ _) fun _ _ _ => recorded_pure nofun

/-- Where a table may be made, there is none only for lack of pages. -/
theorem recorded_pmapWalkLevel (l : ℕ) (u : Frame) (la : ℕ) (w : Bool) (s : Mem) :
    Recorded (pmapWalkLevel b l u la w) s fun r => w = true ∧ r = none := by
  induction l generalizing u s with
  | zero => exact recorded_panic
  | succ l ih =>
    have hend : ∀ s, Recorded (do
        let e ← readEntry u (pdx (l + 1) la)
        if l = 0 then pure (some (e.frame, pdx 0 la)) else pmapWalkLevel b l e.frame la w) s
        fun r => w = true ∧ r = none :=
      fun s => recorded_readEntry fun e => recorded_ite (fun _ => recorded_pure nofun) fun _ => ih _ _
    unfold pmapWalkLevel
    refine recorded_bind recorded_walkLower fun x t hx => recorded_ite (fun hn => ?_) fun _ =>
      recorded_ite (fun hw => ?_) fun _ => ?_
    · exact recorded_pure fun h => hx ⟨h.1, by simpa using hn⟩
    · refine recorded_bind recorded_walkUnshare fun y t hy => recorded_ite (fun hn => ?_) fun _ => hend t
      exact recorded_pure fun _ => hy (by simpa using hn)
    · exact recorded_bind (records_pure _ _) fun y t _ => recorded_ite (fun hn => recorded_pure fun h => absurd h.1 (by simp_all)) fun _ => hend t

theorem recorded_pmapWalk (r : Frame) (va : ℕ) (w : Bool) (s : Mem) :
    Recorded (pmapWalk b r va w) s fun x => w = true ∧ x = none :=
  recorded_bind (records_check _ _ _) fun _ _ _ => recorded_pmapWalkLevel _ _ _ _ _

theorem records_pmapInsert (r pi : Frame) (va : ℕ) (perm : BitVec 12) : Records (pmapInsert b r pi va perm) := by
  unfold pmapInsert
  refine Records.bind (fun s => (recorded_pmapWalk _ _ _ s).any) fun x => ?_
  match x with
  | none => exact records_pure _
  | some (t, i) =>
    refine (records_memIncref _).bind fun _ => records_readEntry fun e => records_ite ?_ ?_
    · exact (records_memDecref (records_memFree _)).bind fun _ => (records_writeEntry _ _ _).bind fun _ => records_pure _
    · exact (records_writeEntry _ _ _).bind fun _ => records_pure _

/-! ### Removing -/

theorem records_removeLoop {lower : Frame → ℕ → ℕ → Kern ℕ} (h : ∀ u x y, Records (lower u x y)) (l : ℕ)
    (u : Frame) (va vahi : ℕ) : Records (removeLoop b lower l u va vahi) := by
  unfold removeLoop removeEntry
  refine Records.bind (records_whileM (fun x => Records.bind ?_ fun _ => records_pure _) _ _) fun _ => records_pure _
  refine records_readEntry fun e => records_ite (records_pure _) (records_ite ?_ ?_)
  · exact (records_memDecref (records_pmapFreefun _ _)).bind fun _ => (records_writeEntry _ _ _).bind fun _ =>
      records_pure _
  · refine records_get fun s => (records_noteIf (by nofun)).bind fun _ =>
      records_walk (recorded_pmapWalkLevel _ _ _ _) fun r => ?_
    exact records_readEntry fun e => (h _ _ _).bind fun _ => records_pure _

theorem records_pmapRemoveLevel (l : ℕ) (u : Frame) (va vahi : ℕ) : Records (pmapRemoveLevel b l u va vahi) := by
  induction l generalizing u va vahi with
  | zero =>
    unfold pmapRemoveLevel
    exact records_removeLoop (fun _ _ _ => records_panic _) _ _ _ _
  | succ l ih =>
    unfold pmapRemoveLevel
    exact records_removeLoop ih _ _ _ _

theorem records_pmapRemove (r : Frame) (va size : ℕ) : Records (pmapRemove b r va size) := by
  unfold pmapRemove
  refine (records_check _ _).bind fun _ => (records_check _ _).bind fun _ => (records_check _ _).bind fun _ => ?_
  exact (records_whileM (fun x => records_pmapRemoveLevel _ _ _ _) _ _).bind fun _ => records_pure _

/-! ### Copying -/

theorem records_copyShare (l : ℕ) (u v : Frame) (x : CopyAt) : Records (copyShare b l u v x) := by
  unfold copyShare
  have hrest : Records (do
      let d ← readEntry v x.di
      check (d.frame = b.zero) .assert
      let e ← readEntry u x.si
      writeEntry u x.si e.clearW
      let e ← readEntry u x.si
      writeEntry v x.di e
      let e ← readEntry u x.si
      if e.frame ≠ b.zero then memIncref b e.frame) := by
    refine records_readEntry fun d => (records_check _ _).bind fun _ => records_readEntry fun e =>
      (records_writeEntry _ _ _).bind fun _ => records_readEntry fun e => (records_writeEntry _ _ _).bind fun _ =>
      records_readEntry fun e => ?_
    exact records_ite (records_memIncref _) (records_pure _)
  exact records_readEntry fun d => records_ite ((records_pmapRemoveLevel _ _ _ _).bind fun _ => hrest) hrest

theorem records_copyPart {lower : Frame → ℕ → Frame → ℕ → ℕ → Kern Unit}
    (h : ∀ u x v y z, Records (lower u x v y z)) (l : ℕ) (u v : Frame) (x : CopyAt) (size : ℕ) :
    Records (copyPart b lower l u v x size) := by
  unfold copyPart
  have hrest : Records (do
      let d ← readEntry v x.di
      check (d.frame ≠ b.zero) .assert
      let s ← get
      noteIf (s.refcount d.frame ≠ 1) .sharedDest
      let e ← readEntry u x.si
      lower e.frame x.sva d.frame x.dva (x.sva + size)) := by
    refine records_readEntry fun d => (records_check _ _).bind fun _ => records_get fun s =>
      (records_noteIf (by nofun)).bind fun _ => records_readEntry fun e => h _ _ _ _ _
  refine records_readEntry fun e => records_ite ((records_pmapRemoveLevel _ _ _ _).bind fun _ => records_pure _)
    (records_readEntry fun d => records_ite ?_ hrest)
  refine fun s => recorded_bind (recorded_pmapWalkLevel _ _ _ _ s) fun r t hr => recorded_readEntry fun d => ?_
  exact recorded_bind (recorded_noteIf fun _ hn => hr ⟨rfl, hn.1⟩) fun _ t _ => hrest t

theorem records_copyLoop {lower : Frame → ℕ → Frame → ℕ → ℕ → Kern Unit}
    (h : ∀ u x v y z, Records (lower u x v y z)) (l : ℕ) (u : Frame) (sva : ℕ) (v : Frame) (dva svahi : ℕ) :
    Records (copyLoop b lower l u sva v dva svahi) := by
  unfold copyLoop copyEntry
  refine (records_whileM (fun x => records_ite ?_ ?_) _ _).bind fun _ => records_pure _
  · exact (records_copyShare _ _ _ _).bind fun _ => records_pure _
  · exact (records_copyPart h _ _ _ _ _).bind fun _ => records_pure _

theorem records_pmapCopyLevel (l : ℕ) (u : Frame) (sva : ℕ) (v : Frame) (dva svahi : ℕ) :
    Records (pmapCopyLevel b l u sva v dva svahi) := by
  induction l generalizing u sva v dva svahi with
  | zero =>
    unfold pmapCopyLevel
    exact records_copyLoop (fun _ _ _ _ _ => records_panic _) _ _ _ _ _ _
  | succ l ih =>
    unfold pmapCopyLevel
    exact records_copyLoop ih _ _ _ _ _ _

theorem records_regionAsserts (sva dva size : ℕ) : Records (regionAsserts sva dva size) := by
  unfold regionAsserts
  exact (records_check _ _).bind fun _ => (records_check _ _).bind fun _ => (records_check _ _).bind fun _ =>
    (records_check _ _).bind fun _ => (records_check _ _).bind fun _ => (records_check _ _).bind fun _ =>
    records_check _ _

theorem records_pmapCopy (u : Frame) (sva : ℕ) (v : Frame) (dva size : ℕ) :
    Records (pmapCopy b u sva v dva size) :=
  (records_regionAsserts _ _ _).bind fun _ => records_pmapCopyLevel _ _ _ _ _ _

/-! ### Faults -/

theorem records_readThrough (r u : Frame) : Records (readThrough r u) := by
  unfold readThrough
  refine records_ite (records_pure _) (records_get fun s => ?_)
  split
  · exact records_pure _
  · exact records_panic _

theorem records_writeThrough {fault : ℕ → Kern Bool} (h : ∀ va, Records (fault va)) (r u : Frame) :
    Records (writeThrough fault r u) := by
  unfold writeThrough
  refine records_ite (records_pure _) (records_get fun s => ?_)
  split
  · exact records_pure _
  · refine (h _).bind fun x => records_ite (records_get fun s => ?_) (records_panic _)
    split
    · exact records_pure _
    · exact records_panic _

theorem records_copyPhys {fault : ℕ → Kern Bool} (h : ∀ va, Records (fault va)) (r u v : Frame) :
    Records (copyPhys fault r u v) := by
  unfold copyPhys
  exact (records_noteIf (by nofun)).bind fun _ => (records_readThrough _ _).bind fun _ =>
    (records_writeThrough h _ _).bind fun _ => records_get fun _ => records_writePage _ _

theorem records_faultPage {fault : ℕ → Kern Bool} (h : ∀ va, Records (fault va)) (r t : Frame) (i : ℕ)
    (u : Frame) : Records (faultPage b fault r t i u) := by
  unfold faultPage
  refine records_get fun s => records_ite ?_ (records_writeEntry _ _ _)
  refine records_memAllocOk fun pi => (records_memIncref _).bind fun _ => (records_copyPhys h _ _ _).bind fun _ =>
    records_ite ?_ (records_writeEntry _ _ _)
  exact (records_memDecref (records_memFree _)).bind fun _ => records_writeEntry _ _ _

theorem records_pmapPagefault (n : ℕ) (r : Frame) (va : ℕ) (w : Bool) : Records (pmapPagefault b n r va w) := by
  induction n generalizing va w with
  | zero => exact records_panic _
  | succ n ih =>
    unfold pmapPagefault
    refine records_ite (records_pure _) (records_get fun s => records_ite (records_pure _) ?_)
    refine records_walk (recorded_pmapWalk _ _ _) fun x => ?_
    refine records_readEntry fun e => records_ite (records_pure _) ((records_check _ _).bind fun _ => ?_)
    exact (records_faultPage (fun va => ih va true) _ _ _ _).bind fun _ => records_pure _

/-! ### Merging -/

theorem records_mergeOwn (t : Frame) (i : ℕ) : Records (mergeOwn b t i) := by
  unfold mergeOwn
  refine records_readEntry fun d => records_get fun s => (records_noteIf (by nofun)).bind fun _ =>
    records_ite ?_ (records_pure _)
  exact records_memAllocOk fun pi => (records_memIncref _).bind fun _ => (records_writePage _ _).bind fun _ =>
    (records_memDecref (records_memFree _)).bind fun _ => (records_writeEntry _ _ _).bind fun _ => records_pure _

theorem records_pmapMergepage (r e : Pte) (t : Frame) (i : ℕ) : Records (pmapMergepage b r e t i) := by
  unfold pmapMergepage
  refine (records_mergeOwn _ _).bind fun f => records_get fun s => (records_writePage _ _).bind fun _ =>
    records_ite (records_readEntry fun d => ?_) (records_pure _)
  exact (records_memDecref (records_memFree _)).bind fun _ => records_writeEntry _ _ _

theorem records_mergeLoop {look : Look} (hlook : ∀ l u v w x, Records (look l u v w x))
    {lower : Frame → Frame → ℕ → Frame → ℕ → ℕ → Kern Unit} (h : ∀ u v x w y z, Records (lower u v x w y z))
    (l : ℕ) (u v : Frame) (sva : ℕ) (w : Frame) (dva svahi : ℕ) :
    Records (mergeLoop b look lower l u v sva w dva svahi) := by
  unfold mergeLoop mergeEntry
  refine (records_whileM (fun x => (hlook _ _ _ _ _).bind fun _ => (records_noteIf (by nofun)).bind fun _ =>
    records_readEntry fun r => records_readEntry fun e => records_readEntry fun d => ?_) _ _).bind fun _ =>
    records_pure _
  refine records_ite (records_pure _) (records_ite ?_ (records_ite ?_ ?_))
  · exact (records_noteIf (by nofun)).bind fun _ => (records_noteIf (by nofun)).bind fun _ =>
      (records_noteIf (by nofun)).bind fun _ => (records_pmapCopyLevel _ _ _ _ _ _).bind fun _ => records_pure _
  · exact (records_noteIf (by nofun)).bind fun _ => (records_noteIf (by nofun)).bind fun _ => records_get fun s =>
      (records_noteIf (by nofun)).bind fun _ => (h _ _ _ _ _ _).bind fun _ => records_pure _
  · exact (records_pmapMergepage _ _ _ _).bind fun _ => records_pure _

theorem records_pmapMergeLevel {look : Look} (hlook : ∀ l u v w x, Records (look l u v w x)) (l : ℕ)
    (u v : Frame) (sva : ℕ) (w : Frame) (dva svahi : ℕ) :
    Records (pmapMergeLevel b look l u v sva w dva svahi) := by
  induction l generalizing u v sva w dva svahi with
  | zero =>
    unfold pmapMergeLevel
    exact records_mergeLoop hlook (fun _ _ _ _ _ _ => records_panic _) _ _ _ _ _ _ _
  | succ l ih =>
    unfold pmapMergeLevel
    exact records_mergeLoop hlook ih _ _ _ _ _ _ _

theorem records_pmapMerge (u v : Frame) (sva : ℕ) (w : Frame) (dva size : ℕ) :
    Records (pmapMerge b u v sva w dva size) :=
  (records_regionAsserts _ _ _).bind fun _ =>
    records_pmapMergeLevel (fun _ _ _ _ _ => records_pure _) _ _ _ _ _ _ _

/-! ### Permissions -/

theorem records_setpermLoop {lower : Frame → ℕ → ℕ → Kern Unit} (h : ∀ u x y, Records (lower u x y)) (l : ℕ)
    (pand por : BitVec 12) (u : Frame) (va vahi : ℕ) : Records (setpermLoop b lower l pand por u va vahi) := by
  unfold setpermLoop setpermEntry
  refine (records_whileM (fun x => ?_) _ _).bind fun _ => records_pure _
  refine records_readEntry fun e => records_ite (records_pure _) ?_
  have hrest : Records (if pdOff l x = 0 ∧ pdSize l ≤ vahi - x then do
        if l = 0 then
          let e ← readEntry u (pdx l x)
          writeEntry u (pdx l x) { e with flags := e.flags &&& pand ||| por }
        else
          let e ← readEntry u (pdx l x)
          lower e.frame x (x + pdSize l)
        pure (x + pdSize l)
      else do
        let lvahi := min (pdAddr l x + pdSize l) vahi
        let e ← readEntry u (pdx l x)
        lower e.frame x lvahi
        pure lvahi : Kern ℕ) := by
    refine records_ite (records_ite ?_ ?_) ?_
    · exact records_readEntry fun e => (records_writeEntry _ _ _).bind fun _ => records_pure _
    · exact records_readEntry fun e => (h _ _ _).bind fun _ => records_pure _
    · exact records_readEntry fun e => (h _ _ _).bind fun _ => records_pure _
  refine records_ite ?_ hrest
  exact records_walk (recorded_pmapWalkLevel _ _ _ _) fun r => hrest

theorem records_pmapSetpermLevel (pand por : BitVec 12) (l : ℕ) (u : Frame) (va vahi : ℕ) :
    Records (pmapSetpermLevel b pand por l u va vahi) := by
  induction l generalizing u va vahi with
  | zero =>
    unfold pmapSetpermLevel
    exact records_setpermLoop (fun _ _ _ => records_panic _) _ _ _ _ _ _
  | succ l ih =>
    unfold pmapSetpermLevel
    exact records_setpermLoop ih _ _ _ _ _ _

theorem records_pmapSetperm (r : Frame) (va size : ℕ) (perm : BitVec 12) :
    Records (pmapSetperm b r va size perm) := by
  unfold pmapSetperm
  refine (records_check _ _).bind fun _ => (records_check _ _).bind fun _ => (records_check _ _).bind fun _ =>
    (records_check _ _).bind fun _ => (records_check _ _).bind fun _ => ?_
  exact records_pmapSetpermLevel _ _ _ _ _ _

end Determinator
