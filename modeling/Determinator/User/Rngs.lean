import Mathlib.Algebra.Group.Int.Defs
import Mathlib.Data.List.Range
import Mathlib.Logic.Function.Basic

/-!
# Random numbers

The generator of `lib/rngs.c`, with its 256 streams. `Random` returns the state divided by the modulus, as a
floating-point number; here it returns the state. The time that is taken for a seed where none is given is a parameter.
-/

namespace Determinator.Rngs

def modulus : ℤ := 2147483647

def multiplier : ℤ := 48271

/-- Jump multiplier. -/
def a256 : ℤ := 22925

/-- Initial seed. -/
def defaultSeed : ℤ := 123456789

/-- Number of streams. -/
def streams : ℕ := 256

/-- The state of the generator: the current state of each stream, and the stream index. -/
structure State where
  seed : ℕ → ℤ
  stream : ℕ
  initialized : Bool

/-- At the beginning. -/
def State.init : State where
  seed j := if j = 0 then defaultSeed else 0
  stream := 0
  initialized := false

/-- The state times a multiplier, as `Random` and `PlantSeeds` have it. -/
def times (a x : ℤ) : ℤ :=
  let q := modulus.tdiv a
  let r := modulus.tmod a
  let t := a * x.tmod q - r * x.tdiv q
  if 0 < t then t else t + modulus

namespace State

variable (time : ℕ) (s : State)

/-- The state `x` is given to a stream. -/
def setSeed (j : ℕ) (x : ℤ) : State := { s with seed := Function.update s.seed j x }

def random : ℤ × State :=
  let x := times multiplier (s.seed s.stream)
  (x, s.setSeed s.stream x)

def putSeed (x : ℤ) : State :=
  let x := if 0 < x then x.tmod modulus else x
  let x := if x ≤ 0 then (time : ℤ) % modulus else x
  s.setSeed s.stream x

def getSeed : ℤ := s.seed s.stream

/-- The stream index is set, as in `SelectStream`. -/
def setStream (index : ℤ) : State := { s with stream := (index % 2 ^ 32).toNat % streams }

/-- Here `SelectStream` does not plant seeds, as they are taken for planted. -/
def plantSeeds (x : ℤ) : State :=
  let stream := s.stream
  let s := { s with initialized := true }
  let s := (s.setStream 0).putSeed time x
  let s := { s with stream := stream }
  (List.range' 1 (streams - 1)).foldl (fun s j => s.setSeed j (times a256 (s.seed (j - 1)))) s

def selectStream (index : ℤ) : State :=
  let s := s.setStream index
  if s.initialized = false ∧ s.stream ≠ 0 then s.plantSeeds time defaultSeed else s

end State

/-- What a program calls. -/
inductive Op
  | select (index : ℤ)
  | random

/-- The numbers that have been returned, each with its stream. -/
abbrev Record := List (ℕ × ℤ)

def Op.run (time : ℕ) (p : Record × State) : Op → Record × State
  | .select index => (p.1, p.2.selectStream time index)
  | .random => (p.1 ++ [(p.2.stream, p.2.random.1)], p.2.random.2)

end Determinator.Rngs
