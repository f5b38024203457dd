import Determinator.User.Printfmt
import Mathlib.Data.List.TakeWhile

/-!
# Printing an integer

What `vprintfmt` prints for `%lld`, `%llu`, `%llo` and `%llx` with the flags `-`, `+`, a space and
`0` in any order and with a field width (`format`). The digits are those of the shortest numeral,
the buffer of `putint` is long enough, and with the padding the output is as long as the field.

The padding is put around a string that has the sign in it already. So it is in its place
(`Canonical`) unless the `0` flag is given, the field is longer than the numeral, and there is a sign
or, with the `-` flag as well, a number other than zero (`vprintfmt_canonical_iff`).
-/

namespace Determinator.Printfmt

open Numeral

/-! ## Formats -/

/-- The flags of an integer conversion. -/
inductive Flag
  | minus
  | plus
  | space
  | zero
  deriving DecidableEq

def Flag.char : Flag → Char
  | minus => '-'
  | plus => '+'
  | space => ' '
  | zero => '0'

/-- The integer conversions. -/
inductive Conv
  | d
  | u
  | o
  | x

namespace Conv

def char : Conv → Char
  | d => 'd'
  | u => 'u'
  | o => 'o'
  | x => 'x'

def base : Conv → Base
  | d => dec
  | u => dec
  | o => oct
  | x => hex

/-- The number that an argument stands for. -/
def val : Conv → BitVec 64 → ℤ
  | d, v => v.toInt
  | _, v => v.toNat

/-- The sign that is printed, if any. -/
def sign (c : Conv) (flags : List Flag) (v : BitVec 64) : Option Char :=
  if c.val v < 0 then some '-'
  else if .plus ∈ flags then some '+'
  else if .space ∈ flags then some ' '
  else none

/-- The shortest numeral of the number without its sign. -/
def digits (c : Conv) (v : BitVec 64) : List Char := Nat.toDigits c.base (c.val v).natAbs

/-- The sign and the digits. -/
def numeral (c : Conv) (flags : List Flag) (v : BitVec 64) : List Char :=
  (c.sign flags v).toList ++ c.digits v

end Conv

/-- A field width as it is written; that of zero is none. -/
def widthDigits (w : ℕ) : List Char := if w = 0 then [] else Nat.toDigits 10 w

/-- A format that is one conversion of a `long long`. -/
def format (flags : List Flag) (w : ℕ) (c : Conv) : List Char :=
  '%' :: (flags.map Flag.char ++ (widthDigits w ++ ['l', 'l', c.char]))

/-! ## The digits -/

variable (st : Printstate)

theorem hexDigit_eq {d : ℕ} (hd : d < 16) :
    "0123456789abcdef".toList.getD d default = d.digitChar := by
  interval_cases d <;> decide

theorem store_eq {p : List Char} {c : Char} (h : (p ++ [c]).length ≤ 30) :
    Printstate.store p c = some (p ++ [c]) := by
  rw [List.length_append, List.length_singleton] at h
  rw [Printstate.store, if_pos (by omega)]

/-- `genint` writes the sign and the numeral, if there is room. -/
theorem genint_eq (p : List Char) (num : ℕ)
    (h : (p ++ st.signc.toList ++ Nat.toDigits st.base num).length ≤ 30) :
    st.genint p num = some (p ++ st.signc.toList ++ Nat.toDigits st.base num) := by
  have hb : 1 < (st.base : ℕ) := st.base.2.1
  have hb' : (st.base : ℕ) ≤ 16 := st.base.2.2
  induction num using Nat.strong_induction_on with
  | _ num ih =>
    have hm := Nat.mod_lt num (show 0 < (st.base : ℕ) by omega)
    rw [Printstate.genint, hexDigit_eq (by omega)]
    rw [Nat.toDigits_eq_if hb] at h ⊢
    split
    · rename_i hle
      rw [if_neg (by omega), ← List.append_assoc] at h ⊢
      have hp : (p ++ st.signc.toList ++ Nat.toDigits st.base (num / st.base)).length ≤ 30 := by
        rw [List.length_append] at h
        omega
      rw [ih _ (Nat.div_lt_self (by omega) hb) hp]
      exact store_eq h
    · rename_i hlt
      rw [if_pos (by omega)] at h ⊢
      rw [Nat.mod_eq_of_lt (by omega)]
      generalize st.signc = o at h ⊢
      cases o with
      | none =>
        rw [Option.toList_none, List.append_nil] at h ⊢
        exact store_eq h
      | some c =>
        rw [Option.toList_some] at h ⊢
        have hp : (p ++ [c]).length ≤ 30 := by
          rw [List.length_append] at h
          omega
        simp only [store_eq hp]
        exact store_eq h

/-- A 64-bit number has at most 22 digits. -/
theorem length_toDigits_le (b : Base) (hb : 8 ≤ (b : ℕ)) (num : BitVec 64) :
    (Nat.toDigits b num.toNat).length ≤ 22 := by
  rw [Nat.length_toDigits_le_iff (by omega) (by omega)]
  calc num.toNat < 2 ^ 64 := num.isLt
    _ ≤ 8 ^ 22 := by decide
    _ ≤ (b : ℕ) ^ 22 := Nat.pow_le_pow_left hb 22

/-! ## The padding -/

/-- A string with its field: the padding is on one side. -/
def Printstate.pad (s : List Char) : List Char :=
  let fill := List.replicate (st.width - s.length).toNat st.padc
  if st.rpad then s ++ fill else fill ++ s

theorem putstr_eq {s : List Char} (ha : st.alt = false) (hs : '\x00' ∉ s) :
    st.putstr s s.length = st.pad s := by
  have ht : s.takeWhile (· ≠ '\x00') = s := by
    rw [List.takeWhile_eq_self_iff]
    intro c hc
    simpa using ne_of_mem_of_not_mem hc hs
  have hl : ¬ (s.length : ℤ) < 0 := by omega
  rw [Printstate.putstr, if_neg hl, Int.toNat_natCast, List.take_length, ht]
  cases hr : st.rpad with
  | true => simp [Printstate.putpad, Printstate.pad, ha, hr]
  | false =>
    have hm : (min (st.width - (s.length : ℤ) - 1) (-1)).toNat = 0 := by omega
    simp [Printstate.putpad, Printstate.pad, ha, hr, hm]

theorem nul_not_mem_toDigits (b : Base) (n : ℕ) : '\x00' ∉ Nat.toDigits b n := by
  intro h
  obtain ⟨d, hd, h0⟩ := exists_of_mem_toDigits b.2.1 h
  have hd' : d < 16 := lt_of_lt_of_le hd b.2.2
  interval_cases d <;> exact absurd h0 (by decide)

/-- `putint` prints the sign and the numeral in a field; the buffer has room for them. -/
theorem putint_eq (ha : st.alt = false) (hs : '\x00' ∉ st.signc.toList) (num : BitVec 64) (b : Base)
    (hb : 8 ≤ (b : ℕ)) :
    st.putint num b = some (st.pad (st.signc.toList ++ Nat.toDigits b num.toNat)) := by
  have hl := length_toDigits_le b hb num
  have hc : st.signc.toList.length ≤ 1 := by cases st.signc <;> simp
  have hg := genint_eq { st with base := b } [] num.toNat (by
    simp only [List.nil_append, List.length_append]
    omega)
  simp only [List.nil_append] at hg
  have hn : '\x00' ∉ st.signc.toList ++ Nat.toDigits b num.toNat := by
    rw [List.mem_append, not_or]
    exact ⟨hs, nul_not_mem_toDigits b _⟩
  simp only [Printstate.putint, hg, Option.bind_eq_bind, Option.bind_some]
  exact congrArg some (putstr_eq { st with base := b } ha hn)

/-! ## The escape sequence -/

/-- What a flag does. -/
def Printstate.flag : Flag → Printstate
  | .minus => { st with rpad := true }
  | .plus => { st with signc := some '+' }
  | .space => st.space
  | .zero => { st with padc := '0' }

/-- The field width is set. -/
def Printstate.sized (w : ℤ) : Printstate := { st with width := w }

theorem flag_sized (f : Flag) (w : ℤ) : (st.sized w).flag f = (st.flag f).sized w := by
  cases f <;> rfl

theorem foldl_flag_sized (fs : List Flag) (w : ℤ) :
    fs.foldl Printstate.flag (st.sized w) = (fs.foldl Printstate.flag st).sized w := by
  induction fs generalizing st with
  | nil => rfl
  | cons f fs ih => rw [List.foldl_cons, List.foldl_cons, flag_sized, ih]

/-- At the beginning of the number, and as long as there is none. -/
structure Plain (st : Printstate) : Prop where
  dot : st.dot = false
  prec : st.prec = -1
  alt : st.alt = false

theorem Plain.flag {st : Printstate} (h : Plain st) (f : Flag) : Plain (st.flag f) := by
  cases f <;> exact ⟨h.dot, h.prec, h.alt⟩

theorem Plain.gotprec {st : Printstate} (h : Plain st) (w : ℤ) : st.gotprec w = st.sized w := by
  rw [Printstate.gotprec, if_neg (by rw [h.dot]; decide), Printstate.sized, ← h.prec]

theorem Plain.zero {st : Printstate} (h : Plain st) : st.zero = st.flag .zero := by
  rw [Printstate.zero, if_neg (by rw [h.dot]; decide), Printstate.flag]

variable {st} {start : List Char}

theorem escape_digit {c : Char} (hc : c.isDigit) (fmt : List Char) (args : List Arg) :
    escape start st (c :: fmt) args =
      escape start ((if c = '0' then st.zero else st).gotprec (number (c.toNat - '0'.toNat) fmt).1)
        (number (c.toNat - '0'.toNat) fmt).2 args := by
  have hne {d : Char} {fmt' : List Char} (hd : ¬ d.isDigit) : c :: fmt ≠ d :: fmt' :=
    fun he => hd ((List.cons.inj he).1 ▸ hc)
  rw [escape.eq_def]
  split
  case h_16 =>
    obtain ⟨rfl, rfl⟩ := List.cons.inj ‹c :: fmt = _ :: _›
    rw [if_pos hc]
  case h_17 heq => exact absurd heq (List.cons_ne_nil _ _)
  all_goals exact absurd ‹_ :: _ = _ :: _› (hne (by decide))

/-- What has been read of a numeral, followed by more digits. -/
def valueFrom (p : ℕ) (s : List Char) : ℕ := s.foldl (fun n c => n * 10 + digitVal c) p

theorem le_valueFrom (p : ℕ) (s : List Char) : p ≤ valueFrom p s := by
  induction s generalizing p with
  | nil => exact le_refl _
  | cons c s ih => exact le_trans (by omega) (ih (p * 10 + digitVal c))

theorem digit_toNat {c : Char} (hc : c.isDigit) : c.toNat = '0'.toNat + digitVal c := by
  rw [digitVal, if_pos hc]
  have h : '0'.toNat ≤ c.toNat := (Char.isDigit_iff_toNat.1 hc).1
  omega

/-- The digits of a number that `int` can hold. -/
theorem number_append {p : ℕ} {s fmt : List Char} (hs : ∀ c ∈ s, c.isDigit)
    (hv : valueFrom p s < 2 ^ 31) :
    number p (s ++ 'l' :: fmt) = (((valueFrom p s : ℕ) : ℤ), 'l' :: fmt) := by
  induction s generalizing p with
  | nil => rfl
  | cons c s ih =>
    have hc := hs c List.mem_cons_self
    have hle := le_valueFrom (p * 10 + digitVal c) s
    have hw : wrap ((p : ℤ) * 10 + c.toNat - '0'.toNat) = ((p * 10 + digitVal c : ℕ) : ℤ) := by
      have he := digit_toNat hc
      have hv' : p * 10 + digitVal c < 2 ^ 31 := lt_of_le_of_lt hle hv
      rw [wrap, Int.bmod_eq_of_le] <;> push_cast [he] <;> omega
    rw [List.cons_append, number, if_pos hc, hw]
    exact ih (fun d hd => hs d (List.mem_cons_of_mem _ hd)) hv

/-- A width other than zero is read. -/
theorem escape_width (hst : Plain st) {w : ℕ} (h0 : w ≠ 0) (hw : w < 2 ^ 31) (fmt : List Char)
    (args : List Arg) :
    escape start st (Nat.toDigits 10 w ++ 'l' :: fmt) args =
      escape start (st.sized w) ('l' :: fmt) args := by
  have hd : ∀ c ∈ Nat.toDigits 10 w, c.isDigit :=
    fun c hc => Nat.isDigit_of_mem_toDigits (by omega) (by omega) hc
  have hh := head_toDigits (b := 10) (by omega) (by omega) h0
  have hv := value_toDigits (b := 10) (by omega) (by omega) w
  cases hs : Nat.toDigits 10 w with
  | nil => exact absurd hs Nat.toDigits_ne_nil
  | cons c s =>
    rw [hs] at hd hh hv
    have hc := hd c List.mem_cons_self
    have hc0 : c ≠ '0' := fun he => hh (by rw [he, List.head?_cons])
    have hf : valueFrom (digitVal c) s = w := by
      rw [← hv, value, List.foldl_cons, Nat.zero_mul, Nat.zero_add, valueFrom]
    have he : (c.toNat : ℤ) - '0'.toNat = (digitVal c : ℕ) := by
      rw [digit_toNat hc]
      push_cast
      omega
    rw [List.cons_append, escape_digit hc, if_neg hc0, he,
      number_append (fun d hd' => hd d (List.mem_cons_of_mem _ hd')) (hf ▸ hw), hf, hst.gotprec]

/-- A `0` before another digit is a flag. -/
theorem escape_zero_digit (hst : Plain st) {c : Char} (hc : c.isDigit) (fmt : List Char)
    (args : List Arg) :
    escape start st ('0' :: c :: fmt) args = escape start (st.flag .zero) (c :: fmt) args := by
  have hw : wrap (('0'.toNat - '0'.toNat : ℤ) * 10 + c.toNat - '0'.toNat) =
      (c.toNat : ℤ) - '0'.toNat := by
    have h := Char.isDigit_iff_toNat.1 hc
    simp only [show '0'.toNat = 48 from rfl, show '9'.toNat = 57 from rfl] at h ⊢
    rw [wrap, Int.bmod_eq_of_le] <;> omega
  have hz : (if c = '0' then (st.flag .zero).zero else st.flag .zero) = st.flag .zero := by
    split
    · exact (hst.flag .zero).zero
    · rfl
  rw [escape_digit (by decide), if_pos rfl, escape_digit hc, hz, hst.zero, number, if_pos hc, hw]

/-- Another `0` is a width of zero as well. -/
theorem escape_zero (hst : Plain st) {c : Char} (hc : ¬ c.isDigit) (fmt : List Char)
    (args : List Arg) :
    escape start st ('0' :: c :: fmt) args =
      escape start ((st.flag .zero).sized 0) (c :: fmt) args := by
  rw [escape_digit (by decide), if_pos rfl, number, if_neg hc, hst.zero, (hst.flag .zero).gotprec]
  rfl

/-- The flags and the width are read. -/
theorem escape_flags (hst : Plain st) (hw0 : st.width ≤ 0) (fs : List Flag) {w : ℕ}
    (hw : w < 2 ^ 31) (fmt : List Char) (args : List Arg) :
    ∃ X : ℤ, X.toNat = w ∧
      escape start st (fs.map Flag.char ++ (widthDigits w ++ 'l' :: fmt)) args =
        escape start ((fs.foldl Printstate.flag st).sized X) ('l' :: fmt) args := by
  induction fs generalizing st with
  | nil =>
    rw [widthDigits]
    split
    · rename_i h0
      exact ⟨st.width, by omega, rfl⟩
    · rename_i h0
      exact ⟨w, rfl, escape_width hst h0 hw fmt args⟩
  | cons f fs ih =>
    cases f with
    | minus =>
      rw [List.map_cons, List.cons_append, Flag.char, escape]
      exact ih (hst.flag .minus) hw0
    | plus =>
      rw [List.map_cons, List.cons_append, Flag.char, escape]
      exact ih (hst.flag .plus) hw0
    | space =>
      rw [List.map_cons, List.cons_append, Flag.char, escape]
      exact ih (hst.flag .space) hw0
    | zero =>
      rw [List.map_cons, List.cons_append, Flag.char]
      cases hr : fs.map Flag.char ++ (widthDigits w ++ 'l' :: fmt) with
      | nil => simp at hr
      | cons c rest =>
        rw [List.foldl_cons]
        by_cases hc : c.isDigit
        · rw [escape_zero_digit hst hc, ← hr]
          exact ih (hst.flag .zero) hw0
        · rw [escape_zero hst hc, ← hr]
          have hst' : Plain ((st.flag .zero).sized 0) :=
            ⟨(hst.flag .zero).dot, (hst.flag .zero).prec, (hst.flag .zero).alt⟩
          obtain ⟨X, hX, he⟩ := ih hst' (le_refl _)
          rw [foldl_flag_sized] at he
          exact ⟨X, hX, he⟩

/-! ## The conversion -/

theorem foldl_flag_plain (hst : Plain st) (fs : List Flag) : Plain (fs.foldl Printstate.flag st) := by
  induction fs generalizing st with
  | nil => exact hst
  | cons f fs ih => exact ih (hst.flag f)

theorem foldl_flag_rpad (fs : List Flag) :
    (fs.foldl Printstate.flag st).rpad = (st.rpad || decide (.minus ∈ fs)) := by
  induction fs generalizing st with
  | nil => simp
  | cons f fs ih => cases f <;> simp [ih, Printstate.flag, Printstate.space]

theorem foldl_flag_padc (fs : List Flag) :
    (fs.foldl Printstate.flag st).padc = if .zero ∈ fs then '0' else st.padc := by
  induction fs generalizing st with
  | nil => simp
  | cons f fs ih => cases f <;> simp [ih, Printstate.flag, Printstate.space]

/-- A `+` counts more than a space. -/
theorem foldl_flag_signc (fs : List Flag) :
    (fs.foldl Printstate.flag st).signc =
      if .plus ∈ fs then some '+'
      else st.signc.or (if .space ∈ fs then some ' ' else none) := by
  induction fs generalizing st with
  | nil => simp
  | cons f fs ih =>
    cases f <;> cases hs : st.signc <;> simp [ih, Printstate.flag, Printstate.space, hs]

/-- What is printed for a conversion: the numeral, with the padding on one side. -/
def printed (fs : List Flag) (w : ℕ) (c : Conv) (v : BitVec 64) : List Char :=
  let s := c.numeral fs v
  let fill := List.replicate (w - s.length) (if .zero ∈ fs then '0' else ' ')
  if .minus ∈ fs then s ++ fill else fill ++ s

theorem toDigits_neg {v : BitVec 64} (h : v.toInt < 0) (b : ℕ) :
    Nat.toDigits b (-v).toNat = Nat.toDigits b v.toInt.natAbs := by
  congr 1
  have := BitVec.toInt_eq_toNat_cond v
  rw [BitVec.toNat_neg]
  split at this <;> omega

theorem toDigits_nonneg {v : BitVec 64} (h : ¬ v.toInt < 0) (b : ℕ) :
    Nat.toDigits b v.toNat = Nat.toDigits b v.toInt.natAbs := by
  congr 1
  have := BitVec.toInt_eq_toNat_cond v
  split at this <;> omega

/-- The state in which the conversion character is found. -/
structure Parsed (st : Printstate) (fs : List Flag) (w : ℕ) : Prop where
  alt : st.alt = false
  ll : st.ll = true
  width : st.width.toNat = w
  padc : st.padc = if .zero ∈ fs then '0' else ' '
  rpad : st.rpad = decide (.minus ∈ fs)
  signc : st.signc = if .plus ∈ fs then some '+' else if .space ∈ fs then some ' ' else none

/-- The padding of a numeral. -/
theorem Parsed.pad {fs : List Flag} {w : ℕ} (h : Parsed st fs w) {c : Conv} {v : BitVec 64}
    {s : List Char} (hs : s = c.numeral fs v) : st.pad s = printed fs w c v := by
  have hw := h.width
  have hf : (st.width - (s.length : ℤ)).toNat = w - s.length := by omega
  simp only [Printstate.pad, printed, ← hs, hf, h.padc, h.rpad, decide_eq_true_eq]

theorem Parsed.nul {fs : List Flag} {w : ℕ} (h : Parsed st fs w) : '\x00' ∉ st.signc.toList := by
  rw [h.signc]
  split_ifs <;> decide

/-- An unsigned conversion. -/
theorem Parsed.putint {fs : List Flag} {w : ℕ} (h : Parsed st fs w) {c : Conv} {v : BitVec 64}
    (hv : ¬ c.val v < 0) (hd : c.digits v = Nat.toDigits c.base v.toNat) :
    st.putint v c.base = some (printed fs w c v) := by
  have hb : 8 ≤ (c.base : ℕ) := by cases c <;> decide
  rw [putint_eq st h.alt h.nul v c.base hb, h.pad]
  rw [Conv.numeral, Conv.sign, if_neg hv, hd, h.signc]

/-- A negative number. -/
theorem Parsed.putint_neg {fs : List Flag} {w : ℕ} (h : Parsed st fs w) {v : BitVec 64}
    (hv : v.toInt < 0) :
    Printstate.putint { st with signc := some '-' } (-v) dec = some (printed fs w .d v) := by
  rw [putint_eq { st with signc := some '-' } h.alt (by simp) (-v) dec (by decide)]
  have hp : Printstate.pad { st with signc := some '-' } = st.pad := rfl
  rw [hp, h.pad]
  rw [Conv.numeral, Conv.sign, if_pos (show Conv.val .d v < 0 from hv), toDigits_neg hv]
  rfl

theorem Parsed.conv {fs : List Flag} {w : ℕ} (h : Parsed st fs w) (c : Conv) (v : BitVec 64)
    (fmt : List Char) (args : List Arg) :
    escape start st (c.char :: fmt) (.num v :: args) = some (printed fs w c v, fmt, args) := by
  have hi : st.getint v = v := if_pos (.inl h.ll)
  have hu : st.getuint v = v := if_pos (.inl h.ll)
  cases c with
  | d =>
    rw [Conv.char, escape]
    simp only [hi]
    split
    · rename_i hn
      rw [h.putint_neg hn, Option.map_some]
    · rename_i hn
      have hp := h.putint (c := .d) hn (toDigits_nonneg hn 10).symm
      rw [Conv.base] at hp
      rw [hp, Option.map_some]
  | u =>
    have hp := h.putint (c := .u) (v := v) (by simp [Conv.val]) rfl
    rw [Conv.base] at hp
    rw [Conv.char, escape, hu, hp, Option.map_some]
  | o =>
    have hp := h.putint (c := .o) (v := v) (by simp [Conv.val]) rfl
    rw [Conv.base] at hp
    rw [Conv.char, escape, hu, hp, Option.map_some]
  | x =>
    have hp := h.putint (c := .x) (v := v) (by simp [Conv.val]) rfl
    rw [Conv.base] at hp
    rw [Conv.char, escape, hu, hp, Option.map_some]

/-- What `vprintfmt` prints. -/
theorem vprintfmt_format (fs : List Flag) {w : ℕ} (hw : w < 2 ^ 31) (c : Conv) (v : BitVec 64) :
    vprintfmt (format fs w c) [.num v] = some (printed fs w c v) := by
  have hi : Plain .init := ⟨rfl, rfl, rfl⟩
  rw [format, vprintfmt, if_pos rfl]
  generalize hs : fs.map Flag.char ++ (widthDigits w ++ ['l', 'l', c.char]) = start
  obtain ⟨X, hX, he⟩ := @escape_flags .init start hi (by decide) fs w hw ['l', c.char] [.num v]
  have hp : Parsed ((fs.foldl Printstate.flag .init).sized X).long.long fs w := by
    refine ⟨(foldl_flag_plain hi fs).alt, ?_, hX, foldl_flag_padc fs, ?_, ?_⟩
    · simp [Printstate.long]
    · exact (foldl_flag_rpad fs).trans (Bool.false_or _)
    · exact (foldl_flag_signc fs).trans (by simp [Printstate.init])
  have h : escape start .init start [.num v] = some (printed fs w c v, [], []) := by
    rw [hs] at he
    rw [he, escape, escape, hp.conv c v [] []]
  split
  · rename_i hn
    rw [h] at hn
    cases hn
  · rename_i r hr
    obtain rfl := Option.some.inj (h.symm.trans hr)
    simp [vprintfmt]

theorem length_printed (fs : List Flag) (w : ℕ) (c : Conv) (v : BitVec 64) :
    (printed fs w c v).length = max w (c.numeral fs v).length := by
  simp only [printed]
  split <;> simp only [List.length_append, List.length_replicate] <;> omega

/-! ## Reading it back -/

/-- An optionally signed numeral, between spaces. -/
def readBack (b : ℕ) (s : List Char) : ℤ :=
  match s.dropWhile (· = ' ') with
  | '-' :: s => -value b (s.takeWhile (· ≠ ' '))
  | '+' :: s => value b (s.takeWhile (· ≠ ' '))
  | s => value b (s.takeWhile (· ≠ ' '))

/-- The output is spaces, the sign, with the `0` flag zeros, the digits, and with `-` spaces. -/
def Canonical (fs : List Flag) (c : Conv) (v : BitVec 64) (out : List Char) : Prop :=
  ∃ i j k, out = List.replicate i ' ' ++ (c.sign fs v).toList ++
      (List.replicate j '0' ++ c.digits v) ++ List.replicate k ' ' ∧
    (j ≠ 0 → .zero ∈ fs) ∧ (k ≠ 0 → .minus ∈ fs)

/-- A string of digits that is not empty. -/
structure Digits (s : List Char) : Prop where
  ne : s ≠ []
  digit : ∀ x ∈ s, ∃ d < 16, x = Nat.digitChar d

theorem digitChar_ne {d : ℕ} (hd : d < 16) :
    d.digitChar ≠ ' ' ∧ d.digitChar ≠ '-' ∧ d.digitChar ≠ '+' := by
  interval_cases d <;> decide

theorem Conv.digits_digits (c : Conv) (v : BitVec 64) : Digits (c.digits v) where
  ne := Nat.toDigits_ne_nil
  digit x hx := by
    obtain ⟨d, hd, rfl⟩ := exists_of_mem_toDigits c.base.2.1 hx
    exact ⟨d, lt_of_lt_of_le hd c.base.2.2, rfl⟩

theorem digit_zeros (j : ℕ) : ∀ x ∈ List.replicate j '0', ∃ d < 16, x = Nat.digitChar d :=
  fun _ hx => ⟨0, by omega, (List.eq_of_mem_replicate hx).trans (by decide)⟩

theorem Digits.zeros_append {s : List Char} (h : Digits s) (j : ℕ) :
    Digits (List.replicate j '0' ++ s) where
  ne := List.append_ne_nil_of_right_ne_nil _ h.ne
  digit x hx := (List.mem_append.1 hx).elim (digit_zeros j x) (h.digit x)

theorem Digits.append_zeros {s : List Char} (h : Digits s) (j : ℕ) :
    Digits (s ++ List.replicate j '0') where
  ne := List.append_ne_nil_of_left_ne_nil h.ne _
  digit x hx := (List.mem_append.1 hx).elim (h.digit x) (digit_zeros j x)

/-- Digits are read up to the spaces behind them. -/
theorem Digits.takeWhile {s : List Char} (h : Digits s) (k : ℕ) :
    (s ++ List.replicate k ' ').takeWhile (· ≠ ' ') = s := by
  rw [List.takeWhile_append_of_pos]
  · cases k <;> simp
  · intro x hx
    obtain ⟨d, hd, rfl⟩ := h.digit x hx
    simp

theorem dropWhile_spaces (i : ℕ) (s : List Char) :
    (List.replicate i ' ' ++ s).dropWhile (· = ' ') = s.dropWhile (· = ' ') :=
  List.dropWhile_append_of_pos fun _ hx => by simp [List.eq_of_mem_replicate hx]

/-- A numeral with its sign, between spaces, is read. -/
theorem readBack_eq (b : ℕ) (fs : List Flag) (c : Conv) (v : BitVec 64) {s : List Char}
    (hs : Digits s) (i k : ℕ) :
    readBack b (List.replicate i ' ' ++ (c.sign fs v).toList ++ s ++ List.replicate k ' ') =
      if c.val v < 0 then -(value b s : ℤ) else value b s := by
  have ht := hs.takeWhile k
  have hd : readBack b (s ++ List.replicate k ' ') = value b s := by
    cases s with
    | nil => exact absurd rfl hs.ne
    | cons x s =>
      obtain ⟨d, hd, rfl⟩ := hs.digit x List.mem_cons_self
      obtain ⟨-, h2, h3⟩ := digitChar_ne hd
      rw [readBack, List.cons_append, List.dropWhile_cons_of_neg (by simp)]
      split
      · rename_i he
        exact absurd (List.cons.inj he).1 h2
      · rename_i he
        exact absurd (List.cons.inj he).1 h3
      · rw [← List.cons_append, ht]
  rw [List.append_assoc, List.append_assoc, readBack, dropWhile_spaces, ← readBack]
  rw [Conv.sign]
  split_ifs
  · rw [Option.toList_some, List.singleton_append, readBack,
      List.dropWhile_cons_of_neg (by decide)]
    simp only [ht]
  · rw [Option.toList_some, List.singleton_append, readBack,
      List.dropWhile_cons_of_neg (by decide)]
    simp only [ht]
  · rw [Option.toList_some, List.singleton_append, readBack,
      List.dropWhile_cons_of_pos (by decide), ← readBack, hd]
  · rw [Option.toList_none, List.nil_append, hd]

theorem value_digits (c : Conv) (v : BitVec 64) : value c.base (c.digits v) = (c.val v).natAbs :=
  value_toDigits c.base.2.1 c.base.2.2 _

/-- What is in its place is read back. -/
theorem Canonical.readBack {fs : List Flag} {c : Conv} {v : BitVec 64} {out : List Char}
    (h : Canonical fs c v out) : readBack c.base out = c.val v := by
  obtain ⟨i, j, k, rfl, -, -⟩ := h
  rw [readBack_eq _ _ _ _ ((c.digits_digits v).zeros_append j), value_zeros_append, value_digits]
  split <;> omega

/-! ## The place of the padding -/

/-- The zeros do not get in the way: with `-`, of a number other than zero, and otherwise of a
sign. -/
def InPlace (fs : List Flag) (w : ℕ) (c : Conv) (v : BitVec 64) : Prop :=
  .zero ∈ fs → (c.numeral fs v).length < w →
    if .minus ∈ fs then c.val v = 0 else c.sign fs v = none

/-- Zeros before a sign. -/
theorem not_canonical_zeros {fs : List Flag} {c : Conv} {v : BitVec 64} {x : Char}
    (hx : c.sign fs v = some x) {n : ℕ} (hn : n ≠ 0) (s : List Char) :
    ¬ Canonical fs c v (List.replicate n '0' ++ s) := by
  rintro ⟨i, j, k, he, -, -⟩
  have hx0 : x ≠ '0' := by
    rw [Conv.sign] at hx
    split_ifs at hx <;> obtain rfl := Option.some.inj hx <;> decide
  have hh := congrArg List.head? he
  rw [hx] at hh
  cases n with
  | zero => exact hn rfl
  | succ n =>
    cases i with
    | zero => exact hx0 (Option.some.inj hh).symm
    | succ i => exact absurd (Option.some.inj hh) (by decide)

/-- Zeros behind the digits count. -/
theorem value_append_zeros (b : ℕ) (s : List Char) (k : ℕ) :
    value b (s ++ List.replicate k '0') = value b s * b ^ k := by
  induction k with
  | zero => rw [List.replicate_zero, List.append_nil, pow_zero, Nat.mul_one]
  | succ k ih =>
    rw [List.replicate_succ', ← List.append_assoc, value_concat, ih,
      show digitVal '0' = 0 by decide, pow_succ, Nat.add_zero, Nat.mul_assoc]

/-- Zeros behind the digits of a number other than zero. -/
theorem not_canonical_append {fs : List Flag} {c : Conv} {v : BitVec 64} (hv : c.val v ≠ 0) {n : ℕ}
    (hn : n ≠ 0) : ¬ Canonical fs c v (c.numeral fs v ++ List.replicate n '0') := by
  intro h
  have hr := h.readBack
  have he := readBack_eq c.base fs c v ((c.digits_digits v).append_zeros n) 0 0
  simp only [List.replicate_zero, List.nil_append, List.append_nil, value_append_zeros,
    value_digits] at he
  rw [Conv.numeral, List.append_assoc, he] at hr
  have hp : 1 < (c.base : ℕ) ^ n := Nat.one_lt_pow hn c.base.2.1
  have ha : (c.val v).natAbs * 1 < (c.val v).natAbs * (c.base : ℕ) ^ n :=
    Nat.mul_lt_mul_of_pos_left hp (Int.natAbs_pos.2 hv)
  split at hr <;> omega

/-- The zeros behind a zero are as good as before it. -/
theorem zeros_comm {c : Conv} {v : BitVec 64} (hv : c.val v = 0) (n : ℕ) :
    c.digits v ++ List.replicate n '0' = List.replicate n '0' ++ c.digits v := by
  rw [Conv.digits, hv, Int.natAbs_zero, Nat.toDigits_zero, List.singleton_append,
    ← List.replicate_succ, List.replicate_succ']

/-- The padding of `printf` is in its place exactly where the zeros do not get in the way. -/
theorem canonical_iff (fs : List Flag) (w : ℕ) (c : Conv) (v : BitVec 64) :
    Canonical fs c v (printed fs w c v) ↔ InPlace fs w c v := by
  generalize hn : w - (c.numeral fs v).length = n
  simp only [printed, hn]
  constructor
  · intro h hz hlt
    rw [if_pos hz] at h
    have hn0 : n ≠ 0 := by omega
    split at h
    · rename_i hm
      rw [if_pos hm]
      by_contra hv
      exact not_canonical_append hv hn0 h
    · rename_i hm
      rw [if_neg hm]
      cases hx : c.sign fs v with
      | none => rfl
      | some x => exact absurd h (not_canonical_zeros hx hn0 _)
  · intro h
    by_cases hz : .zero ∈ fs
    · rw [if_pos hz]
      rcases Nat.eq_zero_or_pos n with h0 | hpos
      · refine ⟨0, 0, 0, ?_, fun h => absurd rfl h, fun h => absurd rfl h⟩
        subst h0
        simp [Conv.numeral]
      · have hp := h hz (by omega)
        split at hp
        · rename_i hm
          refine ⟨0, n, 0, ?_, fun _ => hz, fun h => absurd rfl h⟩
          rw [if_pos hm, Conv.numeral, List.append_assoc, zeros_comm hp]
          simp
        · rename_i hm
          refine ⟨0, n, 0, ?_, fun _ => hz, fun h => absurd rfl h⟩
          rw [if_neg hm, Conv.numeral, hp]
          simp
    · rw [if_neg hz]
      by_cases hm : .minus ∈ fs
      · refine ⟨0, 0, n, ?_, fun h => absurd rfl h, fun _ => hm⟩
        rw [if_pos hm, Conv.numeral]
        simp
      · refine ⟨n, 0, 0, ?_, fun h => absurd rfl h, fun h => absurd rfl h⟩
        rw [if_neg hm, Conv.numeral]
        simp

/-- For every number, all flags and every field width, the buffer of `putint` is long enough and the
output as long as the field or the numeral, whichever is longer; what is printed is spaces, the
sign, zeros, the digits and spaces, and is read back as the number, if and only if the zeros of the
`0` flag do not get in the way. -/
theorem vprintfmt_canonical_iff (fs : List Flag) (w : ℕ) (hw : w < 2 ^ 31) (c : Conv)
    (v : BitVec 64) :
    ∃ out, vprintfmt (format fs w c) [.num v] = some out ∧
      out.length = max w (c.numeral fs v).length ∧
      (Canonical fs c v out ∧ readBack c.base out = c.val v ↔ InPlace fs w c v) := by
  refine ⟨_, vprintfmt_format fs hw c v, length_printed fs w c v, ?_⟩
  rw [← canonical_iff]
  exact ⟨fun h => h.1, fun h => ⟨h, h.readBack⟩⟩

/-- `"%-6llx"` of 255. -/
theorem vprintfmt_canonical_left :
    ∃ out, vprintfmt "%-6llx".toList [.num 255] = some out ∧ out.length = max 6 2 :=
  (vprintfmt_canonical_iff [.minus] 6 (by decide) .x 255).imp fun _ h => ⟨h.1, h.2.1⟩

/-- `"%05lld"` of -5 is `000-5`. -/
theorem vprintfmt_zeros_sign :
    vprintfmt "%05lld".toList [.num (-5)] = some "000-5".toList ∧
      ¬ Canonical [.zero] .d (-5) "000-5".toList :=
  ⟨vprintfmt_format [.zero] (w := 5) (by decide) .d (-5),
    not_canonical_zeros (x := '-') (by decide) (n := 3) (by decide) ['-', '5']⟩

end Determinator.Printfmt
