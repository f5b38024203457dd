import Determinator.Lib.Numeral
import Mathlib.Data.Int.Init

/-!
# Formatted output

`vprintfmt` of `lib/printfmt.c` with what it prints integers, strings and characters with. The output
function is called once for each character; the model gives the characters in this order. The
floating-point conversions are left out.

A string is the list of its characters before the terminating zero. What the source leaves open has
no result: a store past the end of the buffer of `putint`, and an argument of the wrong kind.
-/

namespace Determinator.Printfmt

/-- The bases of `genint`. -/
abbrev Base := {b : ℕ // 2 ≤ b ∧ b ≤ 16}

def oct : Base := ⟨8, by decide⟩
def dec : Base := ⟨10, by decide⟩
def hex : Base := ⟨16, by decide⟩

/-- An argument: a number in a 64-bit slot, or a string or `NULL`. -/
inductive Arg
  | num (v : BitVec 64)
  | str (s : Option (List Char))

/-- `printstate`, with its flags apart. -/
structure Printstate where
  /-- Left pad character, `' '` or `'0'`. -/
  padc : Char
  /-- Field width, -1 for none. -/
  width : ℤ
  /-- Numeric precision or string length, -1 for none. -/
  prec : ℤ
  /-- Sign character, if any. -/
  signc : Option Char
  l : Bool
  ll : Bool
  alt : Bool
  dot : Bool
  rpad : Bool
  base : Base

namespace Printstate

/-- At the beginning of an escape sequence. -/
def init : Printstate where
  padc := ' '
  width := -1
  prec := -1
  signc := none
  l := false
  ll := false
  alt := false
  dot := false
  rpad := false
  base := dec

variable (st : Printstate)

/-- `getuint`. -/
def getuint (v : BitVec 64) : BitVec 64 := if st.ll ∨ st.l then v else (v.setWidth 32).setWidth 64

/-- `getint`. -/
def getint (v : BitVec 64) : BitVec 64 := if st.ll ∨ st.l then v else (v.setWidth 32).signExtend 64

/-- `putpad`: the padding, and the width it leaves. -/
def putpad : List Char × Printstate :=
  (List.replicate st.width.toNat st.padc, { st with width := min (st.width - 1) (-1) })

/-- `putstr`: at most `maxlen` characters, unless this is negative. -/
def putstr (str : List Char) (maxlen : ℤ) : List Char :=
  let str := if maxlen < 0 then str else str.take maxlen.toNat
  let str := str.takeWhile (· ≠ '\x00')
  let st := { st with width := st.width - str.length }
  let (left, st) := if st.rpad then ([], st) else st.putpad
  let chars := str.map fun ch => if st.alt ∧ ¬(' ' ≤ ch ∧ ch ≤ '~') then '?' else ch
  left ++ chars ++ st.putpad.1

/-- A store at `*p++` into the buffer of `putint`, which holds 30 characters. -/
def store (p : List Char) (c : Char) : Option (List Char) :=
  if p.length < 30 then some (p ++ [c]) else none

/-- `genint`, with what the buffer holds already: the digits before the last one, or the sign. -/
def genint (p : List Char) (num : ℕ) : Option (List Char) := do
  let p ←
    if _h : st.base ≤ num then genint p (num / st.base)
    else match st.signc with
      | some c => store p c
      | none => some p
  store p ("0123456789abcdef".toList.getD (num % st.base) default)
termination_by num
decreasing_by exact Nat.div_lt_self (by have := st.base.2; omega) (by have := st.base.2; omega)

/-- `putint`. -/
def putint (num : BitVec 64) (base : Base) : Option (List Char) := do
  let st := { st with base := base }
  let buf ← st.genint [] num.toNat
  return st.putstr buf buf.length

/-- The flag `' '`: prefix signless numeric values with a space, but only if no `+` is specified. -/
def space : Printstate := { st with signc := st.signc.or (some ' ') }

/-- The flag `'0'`: pad with zeros instead of spaces. -/
def zero : Printstate := { st with padc := if st.dot then st.padc else '0' }

/-- `l`, doubled for `long long`. -/
def long : Printstate := { st with l := true, ll := st.ll || st.l }

/-- What follows a number in an escape sequence, `gotprec`. -/
def gotprec (prec : ℤ) : Printstate :=
  if st.dot then { st with prec := prec } else { st with width := prec, prec := -1 }

end Printstate

/-- `int` arithmetic. -/
def wrap (x : ℤ) : ℤ := x.bmod (2 ^ 32)

/-- The digits of a width or a precision, after the first. -/
def number (prec : ℤ) : List Char → ℤ × List Char
  | [] => (prec, [])
  | ch :: fmt =>
    if ch.isDigit then number (wrap (prec * 10 + ch.toNat - '0'.toNat)) fmt else (prec, ch :: fmt)

theorem number_length (prec : ℤ) (fmt : List Char) : (number prec fmt).2.length ≤ fmt.length := by
  induction fmt generalizing prec with
  | nil => exact le_refl _
  | cons ch fmt ih =>
    rw [number]
    split
    · exact (ih _).trans (Nat.le_succ _)
    · exact le_refl _

/-- An escape sequence from some point after the `%` on: what it prints, and the format and the
arguments that are left. `start` is the format after the `%`, which is printed literally where the
sequence turns out not to be one. -/
def escape (start : List Char) (st : Printstate) :
    List Char → List Arg → Option (List Char × List Char × List Arg)
  | '-' :: fmt, args => escape start { st with rpad := true } fmt args
  | '+' :: fmt, args => escape start { st with signc := some '+' } fmt args
  | ' ' :: fmt, args => escape start st.space fmt args
  | '*' :: fmt, .num v :: args => escape start (st.gotprec (v.setWidth 32).toInt) fmt args
  | '.' :: fmt, args => escape start { st with dot := true } fmt args
  | '#' :: fmt, args => escape start { st with alt := true } fmt args
  | 'l' :: fmt, args => escape start st.long fmt args
  | 'c' :: fmt, .num v :: args => some ([Char.ofNat (v.toNat % 256)], fmt, args)
  | 's' :: fmt, .str s :: args => some (st.putstr (s.getD "(null)".toList) st.prec, fmt, args)
  | 'd' :: fmt, .num v :: args =>
    let num := st.getint v
    let out := if num.toInt < 0 then Printstate.putint { st with signc := some '-' } (-num) dec
      else st.putint num dec
    out.map (·, fmt, args)
  | 'u' :: fmt, .num v :: args => (st.putint (st.getuint v) dec).map (·, fmt, args)
  | 'o' :: fmt, .num v :: args => (st.putint (st.getuint v) oct).map (·, fmt, args)
  | 'x' :: fmt, .num v :: args => (st.putint (st.getuint v) hex).map (·, fmt, args)
  | 'p' :: fmt, .num v :: args => (st.putint v hex).map ("0x".toList ++ ·, fmt, args)
  | '%' :: fmt, args => some (['%'], fmt, args)
  | ch :: fmt, args =>
    if ch.isDigit then
      -- A `0` is a flag as well as a digit of the number.
      let st := if ch = '0' then st.zero else st
      let r := number (ch.toNat - '0'.toNat) fmt
      escape start (st.gotprec r.1) r.2 args
    else if ch ∈ "cdsuoxp*fFeEgG".toList then none
    else some (['%'], start, args)
  | [], args => some (['%'], start, args)
termination_by fmt => fmt.length
decreasing_by
  all_goals try simp only [List.length_cons]; omega
  have := number_length (ch.toNat - '0'.toNat) fmt
  simp only [List.length_cons]
  omega

theorem escape_length {start : List Char} {st : Printstate} {fmt : List Char} {args : List Arg}
    {r : List Char × List Char × List Arg} (h : escape start st fmt args = some r)
    (hs : fmt.length ≤ start.length) : r.2.1.length ≤ start.length := by
  fun_induction escape start st fmt args <;> grind [number_length, Option.map_eq_some_iff]

/-- `vprintfmt`: the characters it gives to the output function. -/
def vprintfmt : List Char → List Arg → Option (List Char)
  | [], _ => some []
  | ch :: fmt, args =>
    if ch = '%' then
      match _h : escape fmt .init fmt args with
      | none => none
      | some r => do return r.1 ++ (← vprintfmt r.2.1 r.2.2)
    else do return ch :: (← vprintfmt fmt args)
termination_by fmt => fmt.length
decreasing_by
  · exact Nat.lt_succ_of_le (escape_length _h (le_refl _))
  · exact Nat.lt_succ_self _

end Determinator.Printfmt
