import Mathlib.Data.Int.Init

/-!
# Option parsing

`getopt` of `lib/getopt.c`, with the variables it keeps between calls. `argv` is the list of its
words, so that `argc` is its length; a word is a pointer with the characters it points to. Reading
behind the end of `argv` or of a word gives `none`, as does writing behind the end of `argv_tmp` or
copying it back before it is filled. The characters are signed.
-/

namespace Determinator.Getopt

/-- A string. The zero that ends it is not written. -/
structure Word where
  addr : ℕ
  chars : List (BitVec 8)
  deriving DecidableEq

/-- A character in the source. -/
def char (c : Char) : BitVec 8 := .ofNat 8 c.toNat

/-- The character at an index. -/
def charAt (s : List (BitVec 8)) (i : ℕ) : Option (BitVec 8) :=
  if i = s.length then some 0 else s[i]?

/-- `strchr`: the string from the first such character on. -/
def strchr : List (BitVec 8) → BitVec 8 → Option (List (BitVec 8))
  | [], c => if c = 0 then some [] else none
  | a :: s, c => if a = c then some (a :: s) else if a = 0 then none else strchr s c

/-- `status_codes`. -/
inductive Status
  | good
  | invalid
  | missing
  deriving DecidableEq

/-- The variables of `getopt.c`, and what it prints: a format with the value of its `%c`. -/
structure State where
  argv : List Word
  optarg : Option Word
  optind : ℕ
  opterr : ℤ
  optopt : ℤ
  nextIndex : ℕ
  stderr : List (String × ℤ)
  deriving DecidableEq

/-- The variables before the first call. -/
def initial (argv : List Word) : State := ⟨argv, none, 1, 1, 0, 1, []⟩

/-- `argv[cur][0] == '-'`. -/
def isOption (w : Word) : Bool := charAt w.chars 0 = some (char '-')

/-- The loops that look for an option, on the words from `cur` on. -/
def findOption : List Word → ℕ → ℕ
  | [], cur => cur
  | w :: ws, cur => if isOption w then cur else findOption ws (cur + 1)

/-- What is found out about an option. -/
structure Found where
  status : Status
  optarg : Option Word
  twoStrings : Bool
  deriving DecidableEq

/-- The option `opt` at the index `cur`. -/
def classify (optstring : List (BitVec 8)) (argv : List Word) (cur : ℕ) (opt : Word) :
    Option Found := do
  let letter ← charAt opt.chars 1
  -- Empty option?
  if letter = 0 then return ⟨.invalid, none, false⟩
  match strchr optstring letter with
  | none => return ⟨.invalid, none, false⟩
  | some m =>
    if (← charAt m 1) ≠ char ':' then return ⟨.good, none, false⟩
    if (← charAt opt.chars 2) ≠ 0 then
      return ⟨.good, some ⟨opt.addr + 2, opt.chars.drop 2⟩, false⟩
    if (← charAt m 2) ≠ char ':' ∧ cur + 1 < argv.length then
      return ⟨.good, some (← argv[cur + 1]?), true⟩
    return ⟨.missing, none, false⟩

/-- `*d_cur++ = w`, where `tmp` is what is in `argv_tmp` already. -/
def store (argc : ℕ) (tmp : List Word) (w : Word) : Option (List Word) :=
  if tmp.length < argc then some (tmp ++ [w]) else none

/-- `*d_cur++ = *s_cur++`, `n` times from the index `s` on. -/
def copy (argv : List Word) : ℕ → ℕ → List Word → Option (List Word)
  | _, 0, tmp => some tmp
  | s, n + 1, tmp => do copy argv (s + 1) n (← store argv.length tmp (← argv[s]?))

/-- `*d_cur++ = argv[cur]`, and the same with `argv[cur + 1]` if there are two strings. -/
def storeOption (argv : List Word) (cur : ℕ) (twoStrings : Bool) (tmp : List Word) :
    Option (List Word) := do
  let tmp ← store argv.length tmp (← argv[cur]?)
  if twoStrings then store argv.length tmp (← argv[cur + 1]?) else return tmp

/-- The words of the option at `cur` come next behind the `nextIndex` words in front. -/
def permute (argv : List Word) (nextIndex cur : ℕ) (twoStrings : Bool) : Option (List Word) := do
  let argc := argv.length
  let tmp ← copy argv 0 nextIndex []
  let tmp ← storeOption argv cur twoStrings tmp
  let tmp ← copy argv nextIndex (cur - nextIndex) tmp
  let s := nextIndex + (cur - nextIndex) + if twoStrings then 2 else 1
  let tmp ← copy argv s (argc - s) tmp
  if tmp.length = argc then some tmp else none

/-- What is left behind in `optopt` and printed for an option that is not good. -/
def State.complain (st : State) (text : String) (letter : BitVec 8) : State :=
  { st with
    optopt := letter.toInt
    stderr := if st.opterr ≠ 0 then st.stderr ++ [(text, letter.toInt)] else st.stderr }

/-- The switch at the end. -/
def finish (st : State) (letter : BitVec 8) : Status → ℤ × State
  | .invalid => ('?'.toNat, st.complain "Invalid option: %c\n" letter)
  | .missing => (':'.toNat, st.complain "Missing required argument to option %c\n" letter)
  | .good => (letter.toInt, { st with optopt := 0 })

/-- `argv_tmp` is copied back and `optind` updated. -/
def State.update (st : State) (argv : List Word) (nextIndex : ℕ) (optarg : Option Word) : State :=
  let optind := findOption (argv.drop nextIndex) nextIndex
  { st with
    argv, nextIndex, optarg
    optind := if optind = st.argv.length then nextIndex else optind }

/-- `getopt`. -/
def getopt (optstring : List (BitVec 8)) (st : State) : Option (ℤ × State) := do
  let argc := st.argv.length
  let cur := findOption (st.argv.drop st.optind) st.optind
  if cur = argc then return (-1, { st with optarg := none })
  let opt ← st.argv[cur]?
  let found ← classify optstring st.argv cur opt
  let argv ← permute st.argv st.nextIndex cur found.twoStrings
  let nextIndex := st.nextIndex + if found.twoStrings ∧ st.nextIndex < argc then 2 else 1
  return finish (st.update argv nextIndex found.optarg) (← charAt opt.chars 1) found.status

end Determinator.Getopt
