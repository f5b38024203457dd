import Determinator.User.Scanfmt

/-!
# Numbers in strings

`strtol`, `atoi` and `atol` of `lib/string.c`. The string is the list of its bytes from the current one on; it ends at a
zero, which need not be written. A `long` that overflows has no meaning in C, and there is no result.
-/

namespace Determinator.Strtol

open Scanfmt (peek)

/-- What a character counts as a digit. -/
def digit (c : ℤ) : Option ℤ :=
  if '0'.toNat ≤ c ∧ c ≤ '9'.toNat then some (c - '0'.toNat)
  else if 'a'.toNat ≤ c ∧ c ≤ 'z'.toNat then some (c - 'a'.toNat + 10)
  else if 'A'.toNat ≤ c ∧ c ≤ 'Z'.toNat then some (c - 'A'.toNat + 10)
  else none

/-- The largest `long`. -/
def longMax : ℤ := 2 ^ 63 - 1

/-- The loop over the digits. -/
def digits (base val : ℤ) : List (BitVec 8) → Option (ℤ × List (BitVec 8))
  | [] => some (val, [])
  | c :: s =>
    match digit c.toInt with
    | none => some (val, c :: s)
    | some dig =>
      if base ≤ dig then some (val, c :: s)
      else if val * base + dig ≤ longMax then digits base (val * base + dig) s
      else none

/-- Initial white space. -/
def isBlank (c : BitVec 8) : Bool := c.toInt = ' '.toNat ∨ c.toInt = '\t'.toNat

/-- Plus or minus sign. -/
def sign (s : List (BitVec 8)) : Bool × List (BitVec 8) :=
  if peek s = '+'.toNat then (false, s.tail)
  else if peek s = '-'.toNat then (true, s.tail)
  else (false, s)

/-- Hex or octal base prefix. -/
def basePrefix (base : ℤ) (s : List (BitVec 8)) : ℤ × List (BitVec 8) :=
  if (base = 0 ∨ base = 16) ∧ peek s = '0'.toNat ∧ peek s.tail = 'x'.toNat then (16, s.drop 2)
  else if base = 0 ∧ peek s = '0'.toNat then (8, s.tail)
  else if base = 0 then (10, s)
  else (base, s)

/-- The number, and the rest of the string, where `endptr` points. -/
def strtol (s : List (BitVec 8)) (base : ℤ) : Option (ℤ × List (BitVec 8)) := do
  let (neg, s) := sign (s.dropWhile isBlank)
  let (base, s) := basePrefix base s
  let (val, s) ← digits base 0 s
  return (if neg then -val else val, s)

def atol (s : List (BitVec 8)) : Option ℤ := (strtol s 10).map (·.1)

def atoi (s : List (BitVec 8)) : Option ℤ := (atol s).map fun x => x.bmod (2 ^ 32)

end Determinator.Strtol
