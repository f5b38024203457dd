import Mathlib.Algebra.Group.Nat.Defs
import Mathlib.Data.List.Basic
import Mathlib.Order.MinMax
import Mathlib.Tactic.Common

/-!
# The screen with its scrollback

`dev/video.c`: `video_putc` and `video_scroll`. The lines that scroll off go to a ring of 1024 lines, which
keeps 999 of them; while the user looks at earlier lines, the 25 lines of the screen are behind these in the
ring. An access outside of the screen's memory or of the ring has no result.

`Term` is the terminal itself, with all lines that have ever scrolled off and no way back. The video memory
shows a window of its lines (`Shows`): the last 25 ones, or earlier ones if the user has scrolled back.
-/

namespace Determinator.Video

abbrev crtRows : ℕ := 25
abbrev crtCols : ℕ := 80
abbrev crtSize : ℕ := crtRows * crtCols
abbrev crtSaverows : ℕ := 1024

/-- The cells of `crtsave_buf`. -/
abbrev saveSize : ℕ := crtSaverows * crtCols

/-- A character with its attribute. -/
abbrev Cell := BitVec 16

/-! ## `video.c` -/

/-- The static variables of `video.c`, and the cursor that the 6845 shows. -/
structure State where
  crtBuf : ℕ → Cell
  crtPos : ℕ
  crtsaveBuf : ℕ → Cell
  crtsavePos : ℕ
  crtsaveBackscroll : ℤ
  crtsaveSize : ℕ
  blink : ℕ

/-- `memmove` of `n` cells, from the cell `s` of one buffer to the cell `d` of another one, with the sizes of
both. -/
def move (dst : ℕ → Cell) (dsize : ℕ) (d : ℤ) (src : ℕ → Cell) (ssize : ℕ) (s n : ℤ) : Option (ℕ → Cell) :=
  if 0 ≤ n ∧ 0 ≤ d ∧ d + n ≤ dsize ∧ 0 ≤ s ∧ s + n ≤ ssize then
    some fun i => if d ≤ i ∧ i < d + n then src (s + (i - d)).toNat else dst i
  else none

/-- `crt_buf[i] = c`. -/
def store (buf : ℕ → Cell) (i : ℕ) (c : Cell) : Option (ℕ → Cell) :=
  if i < crtSize then some (Function.update buf i c) else none

/-- `video_savebuf_copy`. -/
def savebufCopy (v : State) (firstLine : ℤ) (toScreen : Bool) : Option State := do
  let pos := firstLine.tmod crtSaverows * crtCols
  let stop := pos + crtRows * crtCols
  let trueend := min stop saveSize
  if toScreen then
    let buf ← move v.crtBuf crtSize 0 v.crtsaveBuf saveSize pos (trueend - pos)
    let buf ← if stop = trueend then some buf
      else move buf crtSize (trueend - pos) v.crtsaveBuf saveSize 0 (stop - trueend)
    return { v with crtBuf := buf }
  else
    let save ← move v.crtsaveBuf saveSize pos v.crtBuf crtSize 0 (trueend - pos)
    let save ← if stop = trueend then some save
      else move save saveSize 0 v.crtBuf crtSize (trueend - pos) (stop - trueend)
    return { v with crtsaveBuf := save }

/-- The beginning of `video_putc`: unscroll if necessary. -/
def unscroll (v : State) : Option State :=
  if 0 < v.crtsaveBackscroll then do
    let v ← savebufCopy v (v.crtsavePos + v.crtsaveSize) true
    return { v with crtsaveBackscroll := 0 }
  else some v

/-- The character with its attribute: if none is given, then black on white. -/
def attr (c : BitVec 32) : BitVec 32 := if c &&& ~~~0xFF#32 = 0 then c ||| 0x0700 else c

/-- A blank with the attribute of a character. -/
def erased (c : BitVec 32) : Cell := (c &&& ~~~0xFF#32 ||| 0x20).setWidth 16

/-- The `switch` of `video_putc`; `blank` puts a blank. -/
def char (blank : State → Option State) (v : State) (c : BitVec 32) : Option State :=
  if c &&& 0xFF = 0x08 then
    if 0 < v.crtPos then do
      let buf ← store v.crtBuf (v.crtPos - 1) (erased c)
      return { v with crtPos := v.crtPos - 1, crtBuf := buf }
    else some v
  else if c &&& 0xFF = 0x0A then
    let pos := (v.crtPos + crtCols) % 2 ^ 16
    some { v with crtPos := pos - pos % crtCols }
  else if c &&& 0xFF = 0x0D then some { v with crtPos := v.crtPos - v.crtPos % crtCols }
  else if c &&& 0xFF = 0x09 then do
    let v ← blank v
    let v ← blank v
    let v ← blank v
    let v ← blank v
    blank v
  else do
    let buf ← store v.crtBuf v.crtPos (c.setWidth 16)
    return { v with crtPos := (v.crtPos + 1) % 2 ^ 16, crtBuf := buf }

/-- A row more in the ring, or the next one in place of the first one. -/
def grow (v : State) : State :=
  if v.crtsaveSize = crtSaverows - crtRows then { v with crtsavePos := (v.crtsavePos + 1) % crtSaverows }
  else { v with crtsaveSize := v.crtsaveSize + 1 }

/-- Save the scrolled-off row, and move the others up. -/
def scrollOff (v : State) : Option State := do
  let v := grow v
  let row := ((v.crtsavePos : ℤ) + v.crtsaveSize - 1).tmod crtSaverows * crtCols
  let save ← move v.crtsaveBuf saveSize row v.crtBuf crtSize 0 crtCols
  let buf ← move v.crtBuf crtSize 0 v.crtBuf crtSize crtCols (crtSize - crtCols)
  let buf ← (List.range' (crtSize - crtCols) crtCols).foldlM (fun buf i => store buf i 0x0720) buf
  return { v with crtsaveBuf := save, crtBuf := buf, crtPos := v.crtPos - crtCols }

/-- The end of `video_putc`: scroll if necessary. -/
def scroll (v : State) : Option State := if crtSize ≤ v.crtPos then scrollOff v else some v

/-- `video_putc`, with its recursive call. -/
def putcWith (blank : State → Option State) (v : State) (c : BitVec 32) : Option State := do
  let v ← unscroll v
  let v ← char blank v (attr c)
  let v ← scroll v
  -- move that little blinky thing
  return { v with blink := v.crtPos }

/-- `video_putc`. Only a tab calls it again, with a blank. -/
def videoPutc : State → BitVec 32 → Option State := putcWith fun v => putcWith (fun _ => none) v 0x20

/-- In `video_scroll`: save the current screen if it is there. -/
def saveScreen (v : State) : Option State :=
  if v.crtsaveBackscroll = 0 then savebufCopy v (v.crtsavePos + v.crtsaveSize) false else some v

/-- `video_scroll`. -/
def videoScroll (v : State) (delta : BitVec 32) : Option State :=
  let new := max (min ((v.crtsaveBackscroll - delta.toInt).bmod (2 ^ 32)) v.crtsaveSize) 0
  if new = v.crtsaveBackscroll then some v
  else do
    let v ← saveScreen v
    let v := { v with crtsaveBackscroll := new }
    savebufCopy v (v.crtsavePos + v.crtsaveSize - v.crtsaveBackscroll) true

/-! ## The terminal -/

/-- A terminal: the lines that have scrolled off, the oldest one first, the screen and the cursor. -/
structure Term where
  off : List (ℕ → Cell)
  buf : ℕ → Cell
  pos : ℕ

namespace Term

/-- The first line goes if the cursor is behind the last one. -/
def scrolled (T : Term) : Term :=
  if crtSize ≤ T.pos then
    { off := T.off ++ [T.buf]
      buf i := if i < crtSize - crtCols then T.buf (i + crtCols) else if i < crtSize then 0x0720 else T.buf i
      pos := T.pos - crtCols }
  else T

/-- A character that is not a tab. -/
def char (T : Term) (c : BitVec 32) : Term :=
  if c &&& 0xFF = 0x08 then
    if 0 < T.pos then { T with buf := Function.update T.buf (T.pos - 1) (erased c), pos := T.pos - 1 } else T
  else if c &&& 0xFF = 0x0A then { T with pos := (T.pos / crtCols + 1) * crtCols }
  else if c &&& 0xFF = 0x0D then { T with pos := T.pos / crtCols * crtCols }
  else { T with buf := Function.update T.buf T.pos (c.setWidth 16), pos := T.pos + 1 }

/-- A blank. -/
def blank (T : Term) : Term := (T.char 0x0720).scrolled

/-- Any character; a tab is five blanks. -/
def putc (T : Term) (c : BitVec 32) : Term :=
  if attr c &&& 0xFF = 0x09 then T.blank.blank.blank.blank.blank else (T.char (attr c)).scrolled

/-- The line `k` of the last `n` lines that have scrolled off, and the screen behind them. -/
def line (T : Term) (n k j : ℕ) : Cell :=
  if k < n then T.off.getD (T.off.length - n + k) (fun _ => 0) j else T.buf (crtCols * (k - n) + j)

end Term

/-! ## Copies between the screen and the ring -/

variable {v w : State} {T : Term} {f i j k n : ℕ} {dst src : ℕ → Cell} {dsize ssize : ℕ} {d s m : ℤ}

theorem move_eq (h : 0 ≤ m ∧ 0 ≤ d ∧ d + m ≤ dsize ∧ 0 ≤ s ∧ s + m ≤ ssize) :
    move dst dsize d src ssize s m =
      some fun i : ℕ => if d ≤ (i : ℤ) ∧ (i : ℤ) < d + m then src (s + (i - d)).toNat else dst i := if_pos h

/-- A line of the ring. -/
def State.row (v : State) (k j : ℕ) : Cell := v.crtsaveBuf (k % crtSaverows * crtCols + j)

/-- 25 lines of the ring go to the screen. -/
theorem savebufCopy_toScreen (v : State) (f : ℕ) :
    ∃ buf, savebufCopy v f true = some { v with crtBuf := buf } ∧
      ∀ k < crtRows, ∀ j < crtCols, buf (crtCols * k + j) = v.row (f + k) j := by
  obtain ⟨p, hp, hlt⟩ : ∃ p : ℤ, (f : ℤ).tmod crtSaverows * crtCols = p ∧ p = f % 1024 * 80 := ⟨_, rfl, rfl⟩
  unfold savebufCopy
  simp only [if_true, hp]
  simp only [crtRows, crtCols, crtSize, crtSaverows, saveSize, State.row]
  by_cases hw : p + 2000 ≤ 81920
  · rw [min_eq_left (by omega), move_eq (by omega), Option.bind_eq_bind, Option.bind_some, if_pos rfl]
    refine ⟨_, rfl, fun k hk j hj => ?_⟩
    rw [if_pos (by omega)]
    congr 1
    omega
  · rw [min_eq_right (by omega), move_eq (by omega), Option.bind_eq_bind, Option.bind_some, if_neg (by omega),
      move_eq (by omega)]
    refine ⟨_, rfl, fun k hk j hj => ?_⟩
    by_cases hb : p + 80 * k + j < 81920
    · rw [if_neg (by omega), if_pos (by omega)]
      congr 1
      omega
    · rw [if_pos (by omega)]
      congr 1
      omega

/-- The screen goes to 25 lines of the ring. -/
theorem savebufCopy_toRing (v : State) (f : ℕ) :
    ∃ save, savebufCopy v f false = some { v with crtsaveBuf := save } ∧
      (∀ k < crtRows, ∀ j < crtCols, State.row { v with crtsaveBuf := save } (f + k) j = v.crtBuf (crtCols * k + j)) ∧
      ∀ k, crtRows ≤ k → k < crtSaverows → ∀ j < crtCols,
        State.row { v with crtsaveBuf := save } (f + k) j = v.row (f + k) j := by
  obtain ⟨p, hp, hlt⟩ : ∃ p : ℤ, (f : ℤ).tmod crtSaverows * crtCols = p ∧ p = f % 1024 * 80 := ⟨_, rfl, rfl⟩
  unfold savebufCopy
  simp only [Bool.false_eq_true, if_false, hp]
  simp only [crtRows, crtCols, crtSize, crtSaverows, saveSize, State.row]
  by_cases hw : p + 2000 ≤ 81920
  · rw [min_eq_left (by omega), move_eq (by omega), Option.bind_eq_bind, Option.bind_some, if_pos rfl]
    refine ⟨_, rfl, fun k hk j hj => ?_, fun k hk hk' j hj => ?_⟩
    · rw [if_pos (by omega)]
      congr 1
      omega
    · rw [if_neg (by omega)]
  · rw [min_eq_right (by omega), move_eq (by omega), Option.bind_eq_bind, Option.bind_some, if_neg (by omega),
      move_eq (by omega)]
    refine ⟨_, rfl, fun k hk j hj => ?_, fun k hk hk' j hj => ?_⟩
    · by_cases hb : p + 80 * k + j < 81920
      · rw [if_neg (by omega), if_pos (by omega)]
        congr 1
        omega
      · rw [if_pos (by omega)]
        congr 1
        omega
    · rw [if_neg (by omega), if_neg (by omega)]

/-! ## What the video memory shows -/

/-- The ring keeps the last lines that have scrolled off. -/
structure Kept (off : List (ℕ → Cell)) (v : State) : Prop where
  ring : v.crtsavePos < crtSaverows
  size : v.crtsaveSize = min off.length (crtSaverows - crtRows)
  saved : ∀ k < v.crtsaveSize, ∀ j < crtCols,
    v.row (v.crtsavePos + k) j = off.getD (off.length - v.crtsaveSize + k) (fun _ => 0) j

/-- The screen is the terminal's. -/
structure Live (T : Term) (v : State) : Prop extends Kept T.off v where
  pos : v.crtPos = T.pos
  buf : ∀ i < crtSize, v.crtBuf i = T.buf i
  back : v.crtsaveBackscroll = 0

/-- **The invariant.** The screen is a window of the lines of the terminal. If it is not the last one, these are
behind the lines in the ring. -/
structure Shows (T : Term) (v : State) : Prop extends Kept T.off v where
  pos : v.crtPos = T.pos
  pos_lt : T.pos < crtSize
  back : 0 ≤ v.crtsaveBackscroll ∧ v.crtsaveBackscroll ≤ v.crtsaveSize
  copied : 0 < v.crtsaveBackscroll → ∀ k < crtRows, ∀ j < crtCols,
    v.row (v.crtsavePos + v.crtsaveSize + k) j = T.buf (crtCols * k + j)
  shown : ∀ k < crtRows, ∀ j < crtCols,
    v.crtBuf (crtCols * k + j) = T.line v.crtsaveSize (v.crtsaveSize - v.crtsaveBackscroll.toNat + k) j

theorem Term.line_screen (T : Term) (n k j : ℕ) : T.line n (n + k) j = T.buf (crtCols * k + j) := by
  rw [line, if_neg (by omega), Nat.add_sub_cancel_left]

theorem Live.shows (h : Live T v) (hp : T.pos < crtSize) : Shows T v where
  toKept := h.toKept
  pos := h.pos
  pos_lt := hp
  back := by
    rw [h.back]
    omega
  copied hb := by
    rw [h.back] at hb
    omega
  shown k hk j hj := by
    rw [h.back, Int.toNat_zero, Nat.sub_zero, T.line_screen]
    apply h.buf
    simp only [crtRows, crtCols, crtSize] at *
    omega

/-- What has been shown row by row. -/
theorem buf_of_rows {b c : ℕ → Cell} (h : ∀ k < crtRows, ∀ j < crtCols, b (crtCols * k + j) = c (crtCols * k + j)) :
    ∀ i < crtSize, b i = c i := by
  intro i hi
  have hi' := h (i / 80) (by simp only [crtRows, crtSize, crtCols] at *; omega) (i % 80) (Nat.mod_lt _ (by decide))
  rwa [Nat.div_add_mod] at hi'

theorem Shows.unscroll (h : Shows T v) : ∃ w, unscroll v = some w ∧ Live T w := by
  rw [Video.unscroll]
  split
  next hb =>
    obtain ⟨buf, hc, hrow⟩ := savebufCopy_toScreen v (v.crtsavePos + v.crtsaveSize)
    rw [Int.natCast_add] at hc
    rw [hc]
    refine ⟨_, rfl, ⟨h.ring, h.size, h.saved⟩, h.pos, buf_of_rows fun k hk j hj => ?_, rfl⟩
    exact (hrow k hk j hj).trans (h.copied hb k hk j hj)
  next hb =>
    have hb : v.crtsaveBackscroll = 0 := by
      have := h.back
      omega
    refine ⟨v, rfl, h.toKept, h.pos, buf_of_rows fun k hk j hj => ?_, hb⟩
    rw [h.shown k hk j hj, hb, Int.toNat_zero, Nat.sub_zero, T.line_screen]

theorem store_eq {buf : ℕ → Cell} {x : Cell} (hi : i < crtSize) : store buf i x = some (Function.update buf i x) :=
  if_pos hi

theorem update_eq {b c : ℕ → Cell} {x : Cell} (h : ∀ i < crtSize, b i = c i) :
    ∀ i < crtSize, Function.update b k x i = Function.update c k x i := by
  intro i hi
  rw [Function.update_apply, Function.update_apply, h i hi]

/-- A character that is not a tab. -/
theorem Live.char {c : BitVec 32} {blank : State → Option State} (h : Live T v) (hp : T.pos < crtSize)
    (hc : c &&& 0xFF ≠ 0x09) :
    ∃ w, Video.char blank v c = some w ∧ Live (T.char c) w ∧ (T.char c).pos ≤ crtSize := by
  have hp' : T.pos < 2000 := hp
  rw [Video.char, Term.char, h.pos]
  split_ifs with h8 h0 hA hD
  · rw [store_eq (by simp only [crtSize, crtRows, crtCols]; omega)]
    refine ⟨_, rfl, ⟨⟨h.ring, h.size, h.saved⟩, rfl, update_eq h.buf, h.back⟩, ?_⟩
    exact Nat.le_trans (Nat.sub_le ..) (Nat.le_of_lt hp)
  · exact ⟨v, rfl, h, Nat.le_of_lt hp⟩
  · refine ⟨_, rfl, ⟨⟨h.ring, h.size, h.saved⟩, ?_, h.buf, h.back⟩, ?_⟩
    · simp only [crtCols]
      omega
    · simp only [crtSize, crtRows, crtCols]
      omega
  · refine ⟨_, rfl, ⟨⟨h.ring, h.size, h.saved⟩, ?_, h.buf, h.back⟩, ?_⟩
    · simp only [crtCols]
      omega
    · simp only [crtSize, crtRows, crtCols]
      omega
  · rw [store_eq hp]
    refine ⟨_, rfl, ⟨⟨h.ring, h.size, h.saved⟩, ?_, update_eq h.buf, h.back⟩, hp⟩
    change (T.pos + 1) % 2 ^ 16 = T.pos + 1
    omega

theorem foldlM_store {x : Cell} {buf : ℕ → Cell} (h : i + n ≤ crtSize) :
    (List.range' i n).foldlM (fun buf i => store buf i x) buf =
      some fun j => if i ≤ j ∧ j < i + n then x else buf j := by
  induction n generalizing i buf with
  | zero =>
    rw [List.range'_zero, List.foldlM_nil]
    congr 1
    funext j
    rw [if_neg (by omega)]
  | succ n ih =>
    rw [List.range'_succ, List.foldlM_cons, store_eq (by omega), Option.bind_eq_bind, Option.bind_some, ih (by omega)]
    congr 1
    funext j
    rw [Function.update_apply]
    split_ifs <;> first | rfl | omega

theorem grow_same (v : State) : (grow v).crtBuf = v.crtBuf ∧ (grow v).crtsaveBuf = v.crtsaveBuf ∧
    (grow v).crtPos = v.crtPos ∧ (grow v).crtsaveBackscroll = v.crtsaveBackscroll := by
  rw [grow]
  split <;> exact ⟨rfl, rfl, rfl, rfl⟩

/-- There is room for a row behind the others. -/
theorem Kept.grow {off : List (ℕ → Cell)} (h : Kept off v) :
    (grow v).crtsavePos < crtSaverows ∧ (grow v).crtsaveSize = min (off.length + 1) (crtSaverows - crtRows) ∧
      ∀ k, k + 1 < (grow v).crtsaveSize → ∀ j < crtCols,
        v.row ((grow v).crtsavePos + k) j = off.getD (off.length + 1 - (grow v).crtsaveSize + k) (fun _ => 0) j := by
  have hs := h.size
  have hr := h.ring
  rw [Video.grow]
  simp only [crtRows, crtSaverows] at *
  split
  next hf =>
    refine ⟨Nat.mod_lt _ (by decide), ?_, fun k hk j hj => ?_⟩
    · change v.crtsaveSize = _
      omega
    · have hk' : k + 1 < v.crtsaveSize := hk
      have hsaved := h.saved (k + 1) hk' j hj
      have hrow : v.row ((v.crtsavePos + 1) % 1024 + k) j = v.row (v.crtsavePos + (k + 1)) j := by
        simp only [State.row, crtSaverows]
        congr 3
        omega
      change v.row ((v.crtsavePos + 1) % 1024 + k) j = off.getD (off.length + 1 - v.crtsaveSize + k) _ j
      have hidx : off.length - v.crtsaveSize + (k + 1) = off.length + 1 - v.crtsaveSize + k := by omega
      rw [hrow, hsaved, hidx]
  next hf =>
    refine ⟨hr, ?_, fun k hk j hj => ?_⟩
    · change v.crtsaveSize + 1 = _
      omega
    · have hk' : k < v.crtsaveSize := Nat.lt_of_succ_lt_succ hk
      change v.row (v.crtsavePos + k) j = off.getD (off.length + 1 - (v.crtsaveSize + 1) + k) _ j
      rw [h.saved k hk' j hj, Nat.add_sub_add_right]

/-- The end of `video_putc`. -/
theorem Live.scrolled (h : Live T v) (hp : T.pos ≤ crtSize) :
    ∃ w, scroll v = some w ∧ Live T.scrolled w ∧ T.scrolled.pos < crtSize := by
  rw [scroll, h.pos, Term.scrolled]
  split_ifs with hs
  · have hpos : T.pos = 2000 := Nat.le_antisymm hp hs
    obtain ⟨hring, hsize, hsaved⟩ := h.toKept.grow
    obtain ⟨hbuf, hsave, hcp, hback⟩ := grow_same v
    obtain ⟨f, hf⟩ : ∃ f : ℕ, ((grow v).crtsavePos : ℤ) + (grow v).crtsaveSize - 1 = f :=
      ⟨(grow v).crtsavePos + (grow v).crtsaveSize - 1, by simp only [crtRows, crtSaverows] at hsize; omega⟩
    have hmod : (f : ℤ).tmod crtSaverows = (f % crtSaverows : ℕ) := rfl
    have hlt : f % 1024 < 1024 := Nat.mod_lt _ (by decide)
    rw [scrollOff]
    simp only [hf, hmod, hbuf, hsave, hcp]
    simp only [crtRows, crtCols, crtSize, crtSaverows, saveSize] at *
    rw [move_eq (by omega), Option.bind_eq_bind, Option.bind_some, move_eq (by omega), Option.bind_some,
      foldlM_store (by simp only [crtSize, crtRows, crtCols]; omega), Option.bind_some]
    refine ⟨_, rfl, ⟨⟨hring, ?_, fun k hk j hj => ?_⟩, ?_, fun i hi => ?_, ?_⟩, ?_⟩
    · rw [List.length_append, List.length_singleton]
      exact hsize
    · have hk : k < (grow v).crtsaveSize := hk
      have hj : j < 80 := hj
      change (if _ then _ else _ : Cell) = (T.off ++ [T.buf]).getD ((T.off ++ [T.buf]).length - (grow v).crtsaveSize + k) _ j
      rw [List.length_append, List.length_singleton]
      simp only [crtSaverows, crtCols]
      by_cases hl : k + 1 = (grow v).crtsaveSize
      · -- the row that has scrolled off
        have hidx : T.off.length + 1 - (grow v).crtsaveSize + k = T.off.length := by omega
        rw [if_pos (by omega), hidx, List.getD_eq_getElem?_getD, List.getElem?_concat_length, Option.getD_some, h.buf]
        · congr 1
          omega
        · simp only [crtSize, crtRows, crtCols]
          omega
      · rw [if_neg (by omega), List.getD_eq_getElem?_getD, List.getElem?_append_left (by omega),
          ← List.getD_eq_getElem?_getD]
        exact hsaved k (by omega) j hj
    · exact congrArg (· - 80) h.pos
    · change (if _ then _ else if _ then _ else _ : Cell) = if i < 1920 then T.buf (i + 80) else if i < 2000 then 0x0720 else T.buf i
      have hi : i < 2000 := hi
      by_cases hlast : i < 1920
      · rw [if_neg (by omega), if_pos (by omega), if_pos hlast, h.buf]
        · congr 1
          omega
        · simp only [crtSize, crtRows, crtCols]
          omega
      · rw [if_pos (by omega), if_neg hlast, if_pos hi]
    · exact hback.trans h.back
    · rw [hpos]
      decide
  · exact ⟨v, rfl, h, Nat.lt_of_not_le hs⟩

/-- The cursor of the 6845 does not matter. -/
theorem Live.blinked (h : Live T v) : Live T { v with blink := n } :=
  ⟨⟨h.ring, h.size, h.saved⟩, h.pos, h.buf, h.back⟩

/-- `video_putc` of a character that is not a tab. -/
theorem Shows.putcWith {c : BitVec 32} {blank : State → Option State} (h : Shows T v) (hc : attr c &&& 0xFF ≠ 0x09) :
    ∃ w, putcWith blank v c = some w ∧ Live (T.char (attr c)).scrolled w ∧
      (T.char (attr c)).scrolled.pos < crtSize ∧ w.blink = w.crtPos := by
  obtain ⟨w₁, hw₁, h₁⟩ := h.unscroll
  obtain ⟨w₂, hw₂, h₂, hp₂⟩ := h₁.char h.pos_lt hc
  obtain ⟨w₃, hw₃, h₃, hp₃⟩ := h₂.scrolled hp₂
  rw [Video.putcWith, hw₁, Option.bind_eq_bind, Option.bind_some, hw₂, Option.bind_some, hw₃, Option.bind_some]
  exact ⟨_, rfl, h₃.blinked, hp₃, rfl⟩

/-- A blank, as a tab puts it. -/
theorem Live.blank (h : Live T v) (hp : T.pos < crtSize) :
    ∃ w, Video.putcWith (fun _ => none) v 0x20 = some w ∧ Live T.blank w ∧ T.blank.pos < crtSize := by
  obtain ⟨w, hw, hl, hp, -⟩ := (h.shows hp).putcWith (c := 0x20) (by decide)
  exact ⟨w, hw, hl, hp⟩

/-- `video_putc`. -/
theorem Shows.videoPutc (h : Shows T v) (c : BitVec 32) :
    ∃ w, videoPutc v c = some w ∧ Live (T.putc c) w ∧ (T.putc c).pos < crtSize ∧ w.blink = w.crtPos := by
  rw [Video.videoPutc, Term.putc]
  split
  next hc =>
    obtain ⟨w₀, hw₀, h₀⟩ := h.unscroll
    obtain ⟨w₁, hw₁, h₁, hp₁⟩ := h₀.blank h.pos_lt
    obtain ⟨w₂, hw₂, h₂, hp₂⟩ := h₁.blank hp₁
    obtain ⟨w₃, hw₃, h₃, hp₃⟩ := h₂.blank hp₂
    obtain ⟨w₄, hw₄, h₄, hp₄⟩ := h₃.blank hp₃
    obtain ⟨w₅, hw₅, h₅, hp₅⟩ := h₄.blank hp₄
    have hs : scroll w₅ = some w₅ := by
      rw [scroll, h₅.pos, if_neg (Nat.not_le_of_lt hp₅)]
    have hchar : Video.char (fun v => Video.putcWith (fun _ => none) v 0x20) w₀ (attr c) = some w₅ := by
      rw [Video.char, hc, if_neg (by decide), if_neg (by decide), if_neg (by decide), if_pos rfl, Option.bind_eq_bind,
        hw₁, Option.bind_some, hw₂, Option.bind_some, hw₃, Option.bind_some, hw₄, Option.bind_some, hw₅]
    rw [Video.putcWith, hw₀, Option.bind_eq_bind, Option.bind_some, hchar, Option.bind_some, hs, Option.bind_some]
    exact ⟨_, rfl, h₅.blinked, hp₅, rfl⟩
  next hc => exact h.putcWith hc

/-- All lines that the user can get to are in the ring. -/
structure Copied (T : Term) (v : State) : Prop extends Kept T.off v where
  pos : v.crtPos = T.pos
  copied : ∀ k < crtRows, ∀ j < crtCols, v.row (v.crtsavePos + v.crtsaveSize + k) j = T.buf (crtCols * k + j)

theorem Shows.saveScreen (h : Shows T v) :
    ∃ w, saveScreen v = some w ∧ Copied T w ∧ w.crtsavePos = v.crtsavePos ∧ w.crtsaveSize = v.crtsaveSize := by
  rw [Video.saveScreen]
  split
  next hb =>
    obtain ⟨save, hc, hrow, hrest⟩ := savebufCopy_toRing v (v.crtsavePos + v.crtsaveSize)
    rw [Int.natCast_add] at hc
    have hsize := h.size
    refine ⟨_, hc, ⟨⟨h.ring, h.size, fun k hk j hj => ?_⟩, h.pos, fun k hk j hj => ?_⟩, rfl, rfl⟩
    · have hk : k < v.crtsaveSize := hk
      rw [← h.saved k hk j hj]
      have hr := hrest (1024 - v.crtsaveSize + k)
      simp only [crtRows, crtSaverows, State.row] at *
      have hidx : (v.crtsavePos + v.crtsaveSize + (1024 - v.crtsaveSize + k)) % 1024 = (v.crtsavePos + k) % 1024 := by
        omega
      rw [hidx] at hr
      exact hr (by omega) (by omega) j hj
    · refine (hrow k hk j hj).trans ?_
      rw [h.shown k hk j hj, hb, Int.toNat_zero, Nat.sub_zero, T.line_screen]
  next hb =>
    have hb : 0 < v.crtsaveBackscroll := by
      have := h.back
      omega
    exact ⟨v, rfl, ⟨h.toKept, h.pos, h.copied hb⟩, rfl, rfl⟩

theorem Copied.line (h : Copied T v) {m j : ℕ} (hm : m < v.crtsaveSize + crtRows) (hj : j < crtCols) :
    v.row (v.crtsavePos + m) j = T.line v.crtsaveSize m j := by
  by_cases hs : m < v.crtsaveSize
  · rw [h.saved m hs j hj, Term.line, if_pos hs]
  · obtain ⟨k, rfl⟩ : ∃ k, m = v.crtsaveSize + k := ⟨m - v.crtsaveSize, by omega⟩
    rw [T.line_screen, ← h.copied k (by omega) j hj, Nat.add_assoc]

/-- `video_scroll`. -/
theorem Shows.videoScroll (h : Shows T v) (delta : BitVec 32) :
    ∃ w, videoScroll v delta = some w ∧ Shows T w ∧ w.crtsaveSize = v.crtsaveSize ∧
      w.crtsaveBackscroll = max (min ((v.crtsaveBackscroll - delta.toInt).bmod (2 ^ 32)) v.crtsaveSize) 0 := by
  rw [Video.videoScroll]
  set new := max (min ((v.crtsaveBackscroll - delta.toInt).bmod (2 ^ 32)) (v.crtsaveSize : ℤ)) 0 with hnew
  have hle : 0 ≤ new ∧ new ≤ v.crtsaveSize := by omega
  dsimp only
  split
  next hb => exact ⟨v, rfl, h, rfl, hb.symm⟩
  next hb =>
    obtain ⟨w, hw, hc, hp, hs⟩ := h.saveScreen
    obtain ⟨buf, hcp, hrow⟩ := savebufCopy_toScreen { w with crtsaveBackscroll := new }
      (w.crtsavePos + (w.crtsaveSize - new.toNat))
    have hf : ((w.crtsavePos + (w.crtsaveSize - new.toNat) : ℕ) : ℤ) = w.crtsavePos + w.crtsaveSize - new := by omega
    rw [hf] at hcp
    rw [hw, Option.bind_eq_bind, Option.bind_some, hcp]
    refine ⟨_, rfl, ⟨⟨hc.ring, hc.size, hc.saved⟩, hc.pos, h.pos_lt, ⟨hle.1, by rw [hs]; exact hle.2⟩,
      fun _ => hc.copied, fun k hk j hj => ?_⟩, hs, rfl⟩
    refine (hrow k hk j hj).trans ?_
    rw [Nat.add_assoc]
    exact hc.line (by omega) hj

/-! ## Runs -/

/-- A call. -/
inductive Call
  | putc (c : BitVec 32)
  | scroll (delta : BitVec 32)

namespace Call

def exec (v : State) : Call → Option State
  | putc c => videoPutc v c
  | scroll delta => videoScroll v delta

def isPutc : Call → Bool
  | putc _ => true
  | scroll _ => false

/-- What a call does to the terminal. -/
def apply (T : Term) : Call → Term
  | putc c => T.putc c
  | scroll _ => T

end Call

/-- The variables at the beginning: nothing has scrolled off. -/
def State.start (buf save : ℕ → Cell) (pos : Fin crtSize) : State where
  crtBuf := buf
  crtPos := pos
  crtsaveBuf := save
  crtsavePos := 0
  crtsaveBackscroll := 0
  crtsaveSize := 0
  blink := pos

/-- The terminal at the beginning. -/
def Term.start (buf : ℕ → Cell) (pos : Fin crtSize) : Term := ⟨[], buf, pos⟩

theorem shows_start (buf save : ℕ → Cell) (pos : Fin crtSize) : Shows (.start buf pos) (.start buf save pos) := by
  apply Live.shows _ pos.isLt
  constructor
  case toKept => exact ⟨Nat.succ_pos 1023, rfl, fun k hk => absurd hk (Nat.not_lt_zero k)⟩
  case pos => rfl
  case buf => exact fun _ _ => rfl
  case back => rfl

theorem Shows.run (h : Shows T v) (cs : List Call) :
    ∃ w, cs.foldlM Call.exec v = some w ∧ Shows (cs.foldl Call.apply T) w := by
  induction cs generalizing T v with
  | nil => exact ⟨v, rfl, h⟩
  | cons c cs ih =>
    rw [List.foldlM_cons, List.foldl_cons]
    cases c with
    | putc c =>
      obtain ⟨w, hw, hl, hp, -⟩ := h.videoPutc c
      rw [Call.exec, hw]
      exact ih (hl.shows hp)
    | scroll delta =>
      obtain ⟨w, hw, hs, -⟩ := h.videoScroll delta
      rw [Call.exec, hw]
      exact ih hs

/-- The calls of `video_scroll` do not matter to the terminal. -/
theorem foldl_filter (T : Term) (cs : List Call) :
    (cs.filter Call.isPutc).foldl Call.apply T = cs.foldl Call.apply T := by
  induction cs generalizing T with
  | nil => rfl
  | cons c cs ih =>
    cases c with
    | putc c => exact ih (T.putc c)
    | scroll delta => exact ih T

/-- What is to be seen after some calls: `v` is the state after all of them, `w` the one after those of `video_putc`
only, and `T` the terminal. -/
structure Seen (T : Term) (v w : State) : Prop where
  screen : v.crtsaveBackscroll = 0 → ∀ i < crtSize, v.crtBuf i = w.crtBuf i
  cursor : v.crtPos = w.crtPos
  current : ∀ i < crtSize, T.buf i = w.crtBuf i
  size : v.crtsaveSize = min T.off.length (crtSaverows - crtRows)
  back : 0 ≤ v.crtsaveBackscroll ∧ v.crtsaveBackscroll ≤ v.crtsaveSize
  window : ∀ k < crtRows, ∀ j < crtCols,
    v.crtBuf (crtCols * k + j) = T.line v.crtsaveSize (v.crtsaveSize - v.crtsaveBackscroll.toNat + k) j
  available : ∀ n ≤ v.crtsaveSize, ∃ delta u, videoScroll v delta = some u ∧ u.crtsaveBackscroll = n

/-- Every line that is kept can be got to. -/
theorem Shows.available (h : Shows T v) (hn : n ≤ v.crtsaveSize) :
    ∃ delta u, Video.videoScroll v delta = some u ∧ u.crtsaveBackscroll = n := by
  obtain ⟨u, hu, -, -, hb⟩ := h.videoScroll (.ofInt 32 (v.crtsaveBackscroll - n))
  refine ⟨_, u, hu, hb.trans ?_⟩
  have hs := h.size
  have hv := h.back
  simp only [crtSaverows, crtRows] at hs
  have hd : (BitVec.ofInt 32 (v.crtsaveBackscroll - n)).toInt = v.crtsaveBackscroll - n := by
    rw [BitVec.toInt_ofInt]
    exact Int.bmod_eq_of_le (by omega) (by omega)
  rw [hd, Int.sub_sub_self, Int.bmod_eq_of_le (by omega) (by omega)]
  omega

theorem Shows.screen (h : Shows T v) (hb : v.crtsaveBackscroll = 0) : ∀ i < crtSize, v.crtBuf i = T.buf i := by
  apply buf_of_rows
  intro k hk j hj
  rw [h.shown k hk j hj, hb, Int.toNat_zero, Nat.sub_zero, T.line_screen]

/-- After calls of `video_putc` only, the screen is not scrolled back. -/
theorem Shows.run_putc (h : Shows T v) (hb : v.crtsaveBackscroll = 0) {cs : List Call} (hc : ∀ c ∈ cs, c.isPutc) {w : State}
    (hw : cs.foldlM Call.exec v = some w) : w.crtsaveBackscroll = 0 := by
  induction cs generalizing T v with
  | nil =>
    obtain rfl := Option.some.inj hw
    exact hb
  | cons c cs ih =>
    rw [List.foldlM_cons] at hw
    cases c with
    | putc c =>
      obtain ⟨u, hu, hl, hp, -⟩ := h.videoPutc c
      rw [Call.exec, hu] at hw
      exact ih (hl.shows hp) hl.back (fun c hm => hc c (List.mem_cons_of_mem _ hm)) hw
    | scroll delta => cases hc _ List.mem_cons_self

/-- **Scrolling back does not disturb the screen.** -/
theorem scrollback (buf save : ℕ → Cell) (pos : Fin crtSize) (cs : List Call) :
    ∃ v w, cs.foldlM Call.exec (.start buf save pos) = some v ∧
      (cs.filter Call.isPutc).foldlM Call.exec (.start buf save pos) = some w ∧
      Seen (cs.foldl Call.apply (.start buf pos)) v w := by
  obtain ⟨v, hv, h⟩ := (shows_start buf save pos).run cs
  obtain ⟨w, hw, h'⟩ := (shows_start buf save pos).run (cs.filter Call.isPutc)
  rw [foldl_filter] at h'
  have hb := (shows_start buf save pos).run_putc rfl (fun c hc => (List.mem_filter.mp hc).2) hw
  refine ⟨v, w, hv, hw, ?_⟩
  constructor
  case screen => exact fun hv i hi => (h.screen hv i hi).trans (h'.screen hb i hi).symm
  case cursor => exact h.pos.trans h'.pos.symm
  case current => exact fun i hi => (h'.screen hb i hi).symm
  case size => exact h.size
  case back => exact h.back
  case window => exact h.shown
  case available => exact fun n hn => h.available hn

end Determinator.Video
