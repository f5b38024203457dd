import Determinator.Inc.Mmu
import Mathlib.Data.Int.Init

/-!
# Formatted scanning

`vscanfmt` of `lib/scanfmt.c` on a string, as `sscanf` calls it. The string is the list of its bytes
from the current one on; it ends at a zero, which need not be written. The source keeps the current
character in `sc`, as a signed `char` that is converted to `int`; here it is looked at anew (`peek`),
which gives the same.

What a call writes through its pointer arguments is the list of its stores, one for each conversion
that writes. The loops over white space and digits go on only behind a character other than zero, so
that the assertion of `sscanlook` holds in them; the other loops call `next`. The number of digits is
not wrapped: no string has `2 ^ 32` characters. The floating-point conversions are left out.
-/

namespace Determinator.Scanfmt

/-! ## The string -/

/-- Where a scan stops for good. -/
inductive Halt
  /-- The assertion of `sscanlook`. -/
  | assertion
  /-- "vscanfmt: unknown conversion character". -/
  | unknown
  /-- A floating-point conversion, which is not modelled. -/
  | floating
  deriving DecidableEq

/-- The character `sc`. -/
def peek : List (BitVec 8) → ℤ
  | [] => 0
  | c :: _ => c.toInt

/-- `sscanlook` with `NEXT`: go on to the next character. -/
def next : List (BitVec 8) → Except Halt (List (BitVec 8))
  | [] => .error .assertion
  | c :: s => if c = 0 then .error .assertion else .ok s

/-- `isspace`. -/
def isspace (c : ℤ) : Bool := c = ' '.toNat ∨ ('\t'.toNat ≤ c ∧ c ≤ '\r'.toNat)

/-- Consume white space. -/
def skipSpace (s : List (BitVec 8)) : List (BitVec 8) := s.dropWhile fun c => isspace c.toInt

/-! ## Numbers -/

/-- What `SCANDIGITS` takes a character for, if it takes it for a digit. -/
def digit (base sc : ℤ) : Option ℤ :=
  if '0'.toNat ≤ sc ∧ sc ≤ '9'.toNat then some (sc - '0'.toNat)
  else if 'A'.toNat ≤ sc ∧ sc ≤ 'A'.toNat + base - 10 then some (10 + sc - 'A'.toNat)
  else if 'a'.toNat ≤ sc ∧ sc ≤ 'a'.toNat + base - 10 then some (10 + sc - 'a'.toNat)
  else none

/-- `SCANDIGITS`: the value, the number of digits and the rest of the string. -/
def scandigits (base : ℕ) (val : BitVec 64) (ndig : ℕ) :
    List (BitVec 8) → BitVec 64 × ℕ × List (BitVec 8)
  | [] => (val, ndig, [])
  | c :: s =>
    match digit base c.toInt with
    | some d => scandigits base (val * .ofNat 64 base + .ofInt 64 d) (ndig + 1) s
    | none => (val, ndig, c :: s)

/-- What is written through a pointer argument. -/
inductive Store
  | int (v : BitVec 32)
  | long (v : BitVec 64)
  | longLong (v : BitVec 64)
  /-- The characters of `%c`, or of a `%s` that is cut off. -/
  | chars (cs : List (BitVec 8))
  /-- The characters of `%s`, with a zero behind them. -/
  | str (cs : List (BitVec 8))
  deriving DecidableEq

/-- The store of an integer. -/
def Store.integer (lflag : ℕ) (val : BitVec 64) : Store :=
  if lflag = 0 then .int (val.setWidth 32)
  else if lflag = 1 then .long val
  else .longLong val

/-- How a conversion ends. -/
inductive End
  /-- It fails, `goto err`. -/
  | err
  /-- It is not counted. -/
  | skipped
  | counted
  deriving DecidableEq

/-- What a conversion does. -/
structure Converted where
  stores : List Store
  result : End
  rest : List (BitVec 8)
  deriving DecidableEq

/-- The modifiers of a conversion. -/
structure Mods where
  width : ℤ
  lflag : ℕ
  skipflag : Bool

/-- Consume a leading sign; whether it is a minus. -/
def scanSign (s : List (BitVec 8)) : Except Halt (Bool × List (BitVec 8)) := do
  let neg := decide (peek s = '-'.toNat)
  if neg ∨ peek s = '+'.toNat then return (neg, ← next s)
  return (neg, s)

/-- Choose a base by the prefix, if it is 0. -/
def chooseBase (base : ℕ) (s : List (BitVec 8)) : Except Halt (ℕ × List (BitVec 8)) := do
  if base ≠ 0 then return (base, s)
  if peek s ≠ '0'.toNat then return (10, s)
  let s ← next s
  if peek s = 'x'.toNat ∨ peek s = 'X'.toNat then return (16, ← next s)
  return (8, s)

/-- `number`. -/
def number (m : Mods) (base : ℕ) (s : List (BitVec 8)) : Except Halt Converted := do
  let (neg, s) ← scanSign (skipSpace s)
  let (base, s) ← chooseBase base s
  let (val, ndig, s) := scandigits base 0 0 s
  if ndig = 0 then return ⟨[], .err, s⟩
  let val := if neg then -val else val
  if m.skipflag then return ⟨[], .skipped, s⟩
  return ⟨[.integer m.lflag val], .counted, s⟩

/-! ## Characters -/

/-- The loop of `%c`: the characters it stores, whether the field is complete, and the rest. -/
def scanChars : ℕ → List (BitVec 8) → Except Halt (List (BitVec 8) × Bool × List (BitVec 8))
  | 0, s => .ok ([], true, s)
  | width + 1, s =>
    if peek s < 0 then .ok ([], false, s)
    else do
      let t ← next s
      let (cs, complete, t) ← scanChars width t
      return (.ofInt 8 (peek s) :: cs, complete, t)

/-- The loop of `%s`, which ends at white space. -/
def scanWord : ℕ → List (BitVec 8) → Except Halt (List (BitVec 8) × Bool × List (BitVec 8))
  | 0, s => .ok ([], true, s)
  | width + 1, s =>
    if peek s < 0 then .ok ([], false, s)
    else if isspace (peek s) then .ok ([], true, s)
    else do
      let t ← next s
      let (cs, complete, t) ← scanWord width t
      return (.ofInt 8 (peek s) :: cs, complete, t)

/-- `INT_MAX`. -/
def intMax : ℕ := 2 ^ 31 - 1

/-- `%c`. -/
def chars (m : Mods) (s : List (BitVec 8)) : Except Halt Converted := do
  let width := if m.width < 0 then 1 else m.width.toNat
  let (cs, complete, s) ← scanChars width s
  return ⟨[.chars cs], if complete then .counted else .err, s⟩

/-- `%s`. -/
def word (m : Mods) (s : List (BitVec 8)) : Except Halt Converted := do
  let width := if m.width < 0 then intMax else m.width.toNat
  let (cs, complete, s) ← scanWord width (skipSpace s)
  return if complete then ⟨[.str cs], .counted, s⟩ else ⟨[.chars cs], .err, s⟩

/-! ## Formats -/

/-- `int` arithmetic. -/
def wrap (x : ℤ) : ℤ := x.bmod (2 ^ 32)

/-- The modifiers, up to the conversion character. -/
def modifiers (m : Mods) : List Char → Mods × List Char
  | [] => (m, [])
  | fc :: f =>
    if fc.isDigit then
      let width := if m.width < 0 then 0 else m.width
      modifiers { m with width := wrap (width * 10 + fc.toNat - '0'.toNat) } f
    else if fc = 'l' then modifiers { m with lflag := m.lflag + 1 } f
    else if fc = '*' then modifiers { m with skipflag := true } f
    else (m, fc :: f)

/-- The conversion of a conversion character. -/
def convert (m : Mods) (fc : Char) (s : List (BitVec 8)) : Except Halt Converted :=
  if fc = 'c' then chars m s
  else if fc = 's' then word m s
  else if fc = 'i' then number m 0 s
  else if fc = 'd' ∨ fc = 'u' then number m 10 s
  else if fc = 'x' ∨ fc = 'X' then number m 16 s
  else if fc = 'o' then number m 8 s
  else if fc ∈ "aAeEfFgG".toList then .error .floating
  else .error .unknown

/-- What a scan comes to: the value it returns, what it has stored, and the rest of the string. -/
structure Out where
  ret : ℤ
  stores : List Store
  rest : List (BitVec 8)
  deriving DecidableEq

/-- `err`: the number of conversions, or `EOF` where there was none. -/
def err (nelt : ℕ) : ℤ := if 0 < nelt then nelt else -1

theorem modifiers_length (m : Mods) (f : List Char) : (modifiers m f).2.length ≤ f.length := by
  induction f generalizing m with
  | nil => exact le_refl _
  | cons fc f ih =>
    rw [modifiers]
    split
    · exact (ih _).trans (Nat.le_succ _)
    · split
      · exact (ih _).trans (Nat.le_succ _)
      · split
        · exact (ih _).trans (Nat.le_succ _)
        · exact le_refl _

/-- The loop of `vscanfmt`, with the conversions counted and the stores made so far. -/
def scanLoop (nelt : ℕ) (stores : List Store) (f : List Char) (s : List (BitVec 8)) :
    Except Halt Out :=
  match f with
  | [] => .ok ⟨nelt, stores, s⟩
  | fc :: f =>
    if peek s < 0 then .ok ⟨err nelt, stores, s⟩
    else if isspace fc.toNat then
      -- all white space in the format, and all in the input
      scanLoop nelt stores (f.dropWhile fun c => isspace c.toNat) (skipSpace s)
    else if fc ≠ '%' then
      if peek s ≠ fc.toNat then .ok ⟨err nelt, stores, s⟩
      else do
        let s ← next s
        scanLoop nelt stores f s
    else
      match _h : modifiers ⟨-1, 0, false⟩ f with
      | (_, []) => .error .unknown
      | (m, fc :: f') => do
        let r ← convert m fc s
        let stores := stores ++ r.stores
        match r.result with
        | .err => return ⟨err nelt, stores, r.rest⟩
        | .skipped => scanLoop nelt stores f' r.rest
        | .counted => scanLoop (nelt + 1) stores f' r.rest
termination_by f.length
decreasing_by
  · exact Nat.lt_succ_of_le (List.dropWhile_sublist _).length_le
  · exact Nat.lt_succ_self _
  all_goals
    have := modifiers_length ⟨-1, 0, false⟩ f
    rw [_h] at this
    simp only [List.length_cons] at this ⊢
    omega

/-- `vscanfmt` on a string. -/
def vscanfmt (f : List Char) (s : List (BitVec 8)) : Except Halt Out := scanLoop 0 [] f s

end Determinator.Scanfmt
