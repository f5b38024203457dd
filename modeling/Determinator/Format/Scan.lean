import Determinator.User.Scanfmt
import Determinator.Lib.Except
import Determinator.Format.Print

/-!
# Scanning an integer

What `vscanfmt` takes from a string for `%d`, `%u`, `%i`, `%x` and `%o`. The numeral of a conversion
(`reading`) is white space, a sign, for `%i` a prefix that tells the base, and all the digits that
follow; the zero that tells base 8 is one of them.

`SCANDIGITS` takes a few characters more for digits (`Mistaken`), and `number` forgets the zero of the
prefix. So the scan gives the numeral if and only if it is not followed by such a character, and is
not the single zero for `%i` (`vscanfmt_number_iff`).
-/

namespace Determinator.Scanfmt

open Numeral

/-! ## The conversion in the source -/

variable {b : ℕ} {s t : List (BitVec 8)} {m : Mods}

theorem next_eq (h : peek s ≠ 0) : next s = .ok s.tail := by
  cases s with
  | nil => exact absurd rfl h
  | cons c s =>
    rw [next, if_neg]
    · rfl
    · rintro rfl
      exact h rfl

/-- The string behind the sign. -/
def afterSign (s : List (BitVec 8)) : List (BitVec 8) :=
  if peek s = '-'.toNat ∨ peek s = '+'.toNat then s.tail else s

/-- The base and the string behind the prefix. -/
def afterPrefix (base : ℕ) (s : List (BitVec 8)) : ℕ × List (BitVec 8) :=
  if base ≠ 0 then (base, s)
  else if peek s ≠ '0'.toNat then (10, s)
  else if peek s.tail = 'x'.toNat ∨ peek s.tail = 'X'.toNat then (16, s.tail.tail)
  else (8, s.tail)

/-- `SCANDIGITS` takes the character for a digit. -/
def accepted (base : ℕ) (c : BitVec 8) : Bool := (digit base c.toInt).isSome

/-- `SCANDIGITS` adds a digit. -/
def addDigit (base : ℕ) (val : BitVec 64) (c : BitVec 8) : BitVec 64 :=
  val * .ofNat 64 base + .ofInt 64 ((digit base c.toInt).getD 0)

theorem scandigits_eq (val : BitVec 64) (ndig : ℕ) (s : List (BitVec 8)) :
    scandigits base val ndig s =
      ((s.takeWhile (accepted base)).foldl (addDigit base) val,
        ndig + (s.takeWhile (accepted base)).length, s.dropWhile (accepted base)) := by
  induction s generalizing val ndig with
  | nil => rfl
  | cons c s ih =>
    rw [scandigits]
    cases hd : digit base c.toInt with
    | none =>
      have ha : accepted base c = false := by rw [accepted, hd, Option.isSome_none]
      simp [ha]
    | some d =>
      have ha : accepted base c = true := by rw [accepted, hd, Option.isSome_some]
      have hv : addDigit base val c = val * .ofNat 64 base + .ofInt 64 d := by
        rw [addDigit, hd, Option.getD_some]
      simp only [ih, List.takeWhile_cons, List.dropWhile_cons, ha, if_true, List.foldl_cons, hv,
        List.length_cons, Nat.add_assoc, Nat.add_comm 1]

/-- The value of the characters that `SCANDIGITS` takes for digits. -/
def scanned (neg : Bool) (base : ℕ) (cs : List (BitVec 8)) : BitVec 64 :=
  let val := cs.foldl (addDigit base) 0
  if neg then -val else val

/-- The sign is a minus. -/
def isNeg (s : List (BitVec 8)) : Bool := peek (skipSpace s) = '-'.toNat

theorem scanSign_eq (s : List (BitVec 8)) :
    scanSign (skipSpace s) = .ok (isNeg s, afterSign (skipSpace s)) := by
  rw [scanSign, afterSign, isNeg]
  simp only [decide_eq_true_eq]
  split_ifs with h
  · rw [next_eq]
    · rfl
    · rcases h with h | h <;> rw [h] <;> decide
  · rfl

theorem chooseBase_eq (base : ℕ) (s : List (BitVec 8)) :
    chooseBase base s = .ok (afterPrefix base s) := by
  rw [chooseBase, afterPrefix]
  split_ifs with hbase h0 hx
  · rfl
  · rfl
  all_goals
    have hn : next s = .ok s.tail := next_eq (by rw [not_not.1 h0]; decide)
    simp only [hn, ok_bind]
  · have hn' : next s.tail = .ok s.tail.tail :=
      next_eq (by rcases hx with hx | hx <;> rw [hx] <;> decide)
    rw [if_pos hx, hn']
    rfl
  · rw [if_neg hx]
    rfl

/-- What the conversion of a number does. -/
def numbered (m : Mods) (base : ℕ) (s : List (BitVec 8)) : Converted :=
  let t := afterPrefix base (afterSign (skipSpace s))
  let cs := t.2.takeWhile (accepted t.1)
  let rest := t.2.dropWhile (accepted t.1)
  if cs = [] then ⟨[], .err, rest⟩
  else if m.skipflag then ⟨[], .skipped, rest⟩
  else ⟨[.integer m.lflag (scanned (isNeg s) t.1 cs)], .counted, rest⟩

/-- The conversion of a number comes to its end on every string. -/
theorem number_eq (m : Mods) (base : ℕ) (s : List (BitVec 8)) :
    number m base s = .ok (numbered m base s) := by
  rw [number, scanSign_eq, numbered]
  simp only [ok_bind, chooseBase_eq, scandigits_eq, Nat.zero_add, List.length_eq_zero_iff, scanned]
  split_ifs <;> rfl

/-! ## One conversion as the format -/

variable {nelt : ℕ} {stores : List Store} {f f' : List Char} {fc : Char}

theorem scanLoop_nil : scanLoop nelt stores [] s = .ok ⟨nelt, stores, s⟩ := by
  rw [scanLoop]

theorem scanLoop_neg (h : peek s < 0) :
    scanLoop nelt stores (fc :: f) s = .ok ⟨err nelt, stores, s⟩ := by
  rw [scanLoop, if_pos h]

/-- A conversion. -/
theorem scanLoop_conv (hs : ¬ peek s < 0) (hm : modifiers ⟨-1, 0, false⟩ f = (m, fc :: f')) :
    scanLoop nelt stores ('%' :: f) s = convert m fc s >>= fun r =>
      match r.result with
      | .err => .ok ⟨err nelt, stores ++ r.stores, r.rest⟩
      | .skipped => scanLoop nelt (stores ++ r.stores) f' r.rest
      | .counted => scanLoop (nelt + 1) (stores ++ r.stores) f' r.rest := by
  rw [scanLoop, if_neg hs, if_neg (by decide), if_neg (by decide)]
  split
  · rename_i h
    rw [hm] at h
    cases h
  · rename_i h
    rw [hm] at h
    cases h
    rfl

/-- The conversions of integers. -/
inductive Conv
  | d
  | u
  | i
  | x
  | o
  deriving DecidableEq

namespace Conv

def char : Conv → Char
  | d => 'd'
  | u => 'u'
  | i => 'i'
  | x => 'x'
  | o => 'o'

/-- The base, 0 where the numeral tells it. -/
def base : Conv → ℕ
  | d => 10
  | u => 10
  | i => 0
  | x => 16
  | o => 8

end Conv

theorem convert_char (m : Mods) (c : Conv) (s : List (BitVec 8)) :
    convert m c.char s = .ok (numbered m c.base s) := by
  rw [← number_eq]
  cases c <;> rfl

/-- A format that is one conversion, with a number of `l`s. -/
def numberFormat (l : ℕ) (c : Conv) : List Char := '%' :: (List.replicate l 'l' ++ [c.char])

theorem modifiers_char (m : Mods) (c : Conv) (f : List Char) :
    modifiers m (c.char :: f) = (m, c.char :: f) := by
  cases c <;> rfl

theorem modifiers_long (m : Mods) (l : ℕ) (c : Conv) :
    modifiers m (List.replicate l 'l' ++ [c.char]) = ({ m with lflag := m.lflag + l }, [c.char]) := by
  induction l generalizing m with
  | zero => exact modifiers_char m c []
  | succ l ih =>
    rw [List.replicate_succ, List.cons_append, modifiers, if_neg (by decide), if_pos rfl, ih,
      Nat.add_assoc, Nat.add_comm 1]

/-- What a conversion of an integer comes to in the source. -/
def scannedOut (l : ℕ) (c : Conv) (s : List (BitVec 8)) : Out :=
  let t := afterPrefix c.base (afterSign (skipSpace s))
  let cs := t.2.takeWhile (accepted t.1)
  let rest := t.2.dropWhile (accepted t.1)
  if cs = [] then ⟨-1, [], rest⟩
  else ⟨1, [.integer l (scanned (isNeg s) t.1 cs)], rest⟩

/-- A character below zero is neither white space nor a part of a numeral. -/
theorem scannedOut_neg (l : ℕ) (c : Conv) (h : peek s < 0) : scannedOut l c s = ⟨-1, [], s⟩ := by
  have hd (b : ℕ) : digit b (peek s) = none := by
    rw [digit, if_neg, if_neg, if_neg] <;>
      simp only [show ('0'.toNat : ℤ) = 48 from rfl, show ('A'.toNat : ℤ) = 65 from rfl,
        show ('a'.toNat : ℤ) = 97 from rfl] <;> omega
  have hne {k : ℕ} : peek s ≠ k := by omega
  have hsign : afterSign s = s := if_neg (not_or.2 ⟨hne, hne⟩)
  have hpre : (afterPrefix c.base s).2 = s := by
    rw [afterPrefix, if_pos hne]
    split_ifs <;> rfl
  cases s with
  | nil => exact absurd h (by decide)
  | cons x s =>
    have hspace : skipSpace (x :: s) = x :: s := by
      rw [skipSpace, List.dropWhile_cons, if_neg]
      simp only [isspace, decide_eq_true_eq, not_or]
      rw [peek] at h hne
      refine ⟨hne, ?_⟩
      omega
    have ha (b : ℕ) : accepted b x = false := by
      rw [accepted, show x.toInt = peek (x :: s) from rfl, hd, Option.isSome_none]
    simp only [scannedOut, hspace, hsign, hpre, List.takeWhile_cons, List.dropWhile_cons, ha,
      Bool.false_eq_true, if_false, if_true]

theorem vscanfmt_number (l : ℕ) (c : Conv) (s : List (BitVec 8)) :
    vscanfmt (numberFormat l c) s = .ok (scannedOut l c s) := by
  rw [vscanfmt, numberFormat]
  by_cases h : peek s < 0
  · rw [scanLoop_neg h, scannedOut_neg l c h]
    rfl
  · rw [scanLoop_conv h (modifiers_long _ l c), convert_char, numbered, scannedOut, ok_bind]
    simp only [Bool.false_eq_true, if_false, Nat.zero_add]
    split_ifs
    · rfl
    · exact scanLoop_nil

/-! ## The numeral -/

/-- A byte as a character. -/
def chr (c : BitVec 8) : Char := .ofNat c.toNat

/-- A digit of a base. -/
def isDigit (b : ℕ) (c : BitVec 8) : Bool := digitVal (chr c) < b

/-- The base and the string from the digits on. A zero that tells base 8 is a digit itself. -/
def Conv.split (c : Conv) (s : List (BitVec 8)) : ℕ × List (BitVec 8) :=
  if c.base ≠ 0 then (c.base, s)
  else if peek s ≠ '0'.toNat then (10, s)
  else if peek s.tail = 'x'.toNat ∨ peek s.tail = 'X'.toNat then (16, s.tail.tail)
  else (8, s)

/-- The numeral at the beginning of a string. -/
structure Reading where
  neg : Bool
  base : ℕ
  digits : List (BitVec 8)
  rest : List (BitVec 8)

/-- White space, a sign, a prefix, and as many digits as there are. -/
def reading (c : Conv) (s : List (BitVec 8)) : Reading :=
  let t := c.split (afterSign (skipSpace s))
  ⟨isNeg s, t.1, t.2.takeWhile (isDigit t.1), t.2.dropWhile (isDigit t.1)⟩

namespace Reading

/-- The value of the numeral, modulo `2 ^ 64`. -/
def val (r : Reading) : BitVec 64 :=
  let n := .ofNat 64 (value r.base (r.digits.map chr))
  if r.neg then -n else n

/-- The numeral is stored, unless it has no digit. -/
def out (l : ℕ) (r : Reading) : Out :=
  if r.digits = [] then ⟨-1, [], r.rest⟩ else ⟨1, [.integer l r.val], r.rest⟩

end Reading

/-- No digit of the base, but `SCANDIGITS` takes it for one. -/
def Mistaken (b : ℕ) (c : Char) : Prop :=
  b = 8 ∧ (c = '8' ∨ c = '9') ∨ b = 10 ∧ (c = 'A' ∨ c = 'a') ∨ b = 16 ∧ (c = 'G' ∨ c = 'g')

instance (b : ℕ) (c : Char) : Decidable (Mistaken b c) := inferInstanceAs (Decidable (_ ∨ _))

/-- Nothing behind the numeral is taken for a digit, and it is not the single zero for `%i`. -/
structure Reading.Clear (c : Conv) (r : Reading) : Prop where
  behind : ∀ x ∈ r.rest.head?, ¬ Mistaken r.base (chr x)
  zero : c = .i → r.base = 8 → r.digits ≠ [0x30]

/-- A base of one of the conversions. -/
def Usual (b : ℕ) : Prop := b = 8 ∨ b = 10 ∨ b = 16

theorem split_usual (c : Conv) (s : List (BitVec 8)) : Usual (c.split s).1 := by
  rw [Conv.split]
  split_ifs with h
  · cases c with
    | d | u => exact .inr (.inl rfl)
    | i => exact absurd rfl h
    | x => exact .inr (.inr rfl)
    | o => exact .inl rfl
  · exact .inr (.inl rfl)
  · exact .inr (.inr rfl)
  · exact .inl rfl

theorem accepted_iff (hb : Usual b) (x : BitVec 8) :
    accepted b x = true ↔ isDigit b x = true ∨ Mistaken b (chr x) := by
  rcases hb with rfl | rfl | rfl <;> revert x <;> decide +kernel

theorem accepted_of_isDigit (hb : Usual b) {x : BitVec 8} (h : isDigit b x = true) :
    accepted b x = true := (accepted_iff hb x).2 (.inl h)

theorem digit_eq (hb : Usual b) (x : BitVec 8) (h : isDigit b x = true) :
    digit b x.toInt = some (digitVal (chr x) : ℤ) := by
  rcases hb with rfl | rfl | rfl <;> revert x <;> decide +kernel

/-! ## Runs of digits -/

section runs

variable {α : Type} {p q : α → Bool} {l : List α}

/-- A larger set of characters has the same run where the character behind the run is not in it. -/
theorem run_eq (hpq : ∀ x, p x = true → q x = true)
    (h : ∀ x ∈ (l.dropWhile p).head?, q x ≠ true) :
    l.takeWhile q = l.takeWhile p ∧ l.dropWhile q = l.dropWhile p := by
  induction l with
  | nil => exact ⟨rfl, rfl⟩
  | cons x l ih =>
    by_cases hp : p x = true
    · rw [List.dropWhile_cons_of_pos hp] at h
      obtain ⟨ht, hd⟩ := ih h
      simp only [List.takeWhile_cons, List.dropWhile_cons, hp, hpq x hp, if_true, ht, hd, and_self]
    · rw [List.dropWhile_cons_of_neg hp] at h
      have hq : ¬ q x = true := h x rfl
      simp only [List.takeWhile_cons, List.dropWhile_cons, hp, hq, Bool.false_eq_true, if_false, and_self]

/-- Where it is, the run is longer. -/
theorem run_lt (hpq : ∀ x, p x = true → q x = true) {x : α} (hx : (l.dropWhile p).head? = some x)
    (hq : q x = true) : (l.dropWhile q).length < (l.dropWhile p).length := by
  induction l with
  | nil => cases hx
  | cons y l ih =>
    by_cases hp : p y = true
    · rw [List.dropWhile_cons_of_pos hp] at hx ⊢
      rw [List.dropWhile_cons_of_pos (hpq y hp)]
      exact ih hx
    · rw [List.dropWhile_cons_of_neg hp] at hx ⊢
      obtain rfl : y = x := Option.some.inj hx
      rw [List.dropWhile_cons_of_pos hq, List.length_cons]
      exact Nat.lt_succ_of_le (List.dropWhile_sublist _).length_le

end runs

/-- The value of digits, added to what has been read. -/
theorem foldl_addDigit (hb : Usual b) {ds : List (BitVec 8)} (hd : ∀ x ∈ ds, isDigit b x = true)
    (n : ℕ) : ds.foldl (addDigit b) (.ofNat 64 n) =
      .ofNat 64 ((ds.map chr).foldl (fun n c => n * b + digitVal c) n) := by
  induction ds generalizing n with
  | nil => rfl
  | cons x ds ih =>
    have hadd : addDigit b (.ofNat 64 n) x = .ofNat 64 (n * b + digitVal (chr x)) := by
      rw [addDigit, digit_eq hb x (hd x List.mem_cons_self), Option.getD_some, BitVec.ofInt_natCast,
        BitVec.ofNat_add, BitVec.ofNat_mul]
    rw [List.foldl_cons, hadd, ih fun y hy => hd y (List.mem_cons_of_mem _ hy)]
    rfl

theorem scanned_eq (hb : Usual b) {ds : List (BitVec 8)} (hd : ∀ x ∈ ds, isDigit b x = true)
    (neg : Bool) (rest : List (BitVec 8)) :
    scanned neg b ds = Reading.val ⟨neg, b, ds, rest⟩ := by
  have h := foldl_addDigit hb hd 0
  rw [scanned, Reading.val, value]
  exact congrArg (fun v => if neg then -v else v) h

/-- What the source makes of a string behind sign and prefix. -/
def digitsOut (l : ℕ) (neg : Bool) (b : ℕ) (s : List (BitVec 8)) : Out :=
  if s.takeWhile (accepted b) = [] then ⟨-1, [], s.dropWhile (accepted b)⟩
  else ⟨1, [.integer l (scanned neg b (s.takeWhile (accepted b)))], s.dropWhile (accepted b)⟩

theorem digitsOut_rest (l : ℕ) (neg : Bool) (b : ℕ) (s : List (BitVec 8)) :
    (digitsOut l neg b s).rest = s.dropWhile (accepted b) := by
  rw [digitsOut]
  split_ifs <;> rfl

theorem out_rest (l : ℕ) (r : Reading) : (r.out l).rest = r.rest := by
  rw [Reading.out]
  split_ifs <;> rfl

/-- A character behind the digits that is taken for one makes a difference. -/
theorem not_mistaken (hb : Usual b) {l : ℕ} {neg : Bool} {ds : List (BitVec 8)}
    (h : digitsOut l neg b s = Reading.out l ⟨neg, b, ds, s.dropWhile (isDigit b)⟩) :
    ∀ x ∈ (s.dropWhile (isDigit b)).head?, ¬ Mistaken b (chr x) := by
  intro x hx hm
  have hlt := run_lt (fun x => accepted_of_isDigit hb) hx ((accepted_iff hb x).2 (.inr hm))
  have hr := congrArg Out.rest h
  rw [digitsOut_rest, out_rest] at hr
  exact absurd (congrArg List.length hr) hlt.ne

/-- Where no such character is behind them, `SCANDIGITS` takes the digits. -/
theorem digitsOut_eq (hb : Usual b) (l : ℕ) (neg : Bool)
    (h : ∀ x ∈ (s.dropWhile (isDigit b)).head?, ¬ Mistaken b (chr x)) :
    digitsOut l neg b s =
      Reading.out l ⟨neg, b, s.takeWhile (isDigit b), s.dropWhile (isDigit b)⟩ := by
  have hhead : ∀ x ∈ (s.dropWhile (isDigit b)).head?, accepted b x ≠ true := by
    intro x hx ha
    rcases (accepted_iff hb x).1 ha with hd | hm
    · have hn := List.head?_dropWhile_not (isDigit b) s
      rw [hx] at hn
      exact absurd hd (Bool.eq_false_iff.1 hn)
    · exact h x hx hm
  obtain ⟨ht, hd⟩ := run_eq (fun x => accepted_of_isDigit hb) hhead
  have hall : ∀ x ∈ s.takeWhile (isDigit b), isDigit b x = true := fun x hx => List.mem_takeWhile_imp hx
  rw [digitsOut, Reading.out, ht, hd, scanned_eq hb hall neg (s.dropWhile (isDigit b))]

/-- The zero that tells base 8 makes no difference to the value. -/
theorem digitsOut_octal (l : ℕ) (neg : Bool)
    (h : ∀ x ∈ (s.dropWhile (isDigit 8)).head?, ¬ Mistaken 8 (chr x)) :
    digitsOut l neg 8 s = Reading.out l
        ⟨neg, 8, 0x30 :: s.takeWhile (isDigit 8), s.dropWhile (isDigit 8)⟩ ↔
      s.takeWhile (isDigit 8) ≠ [] := by
  have hval : Reading.val ⟨neg, 8, 0x30 :: s.takeWhile (isDigit 8), s.dropWhile (isDigit 8)⟩ =
      Reading.val ⟨neg, 8, s.takeWhile (isDigit 8), s.dropWhile (isDigit 8)⟩ := by
    have hz : chr 0x30 = '0' := by decide
    have h0 := value_zeros_append 8 1 ((s.takeWhile (isDigit 8)).map chr)
    rw [Reading.val, Reading.val, List.map_cons, hz]
    exact congrArg (fun n => if neg then -BitVec.ofNat 64 n else BitVec.ofNat 64 n) h0
  rw [digitsOut_eq (.inl rfl) l neg h, Reading.out, Reading.out, hval]
  by_cases hd : s.takeWhile (isDigit 8) = []
  · rw [if_pos hd, if_neg (List.cons_ne_nil _ _)]
    exact ⟨fun he => absurd (congrArg Out.ret he) (show (-1 : ℤ) ≠ 1 by decide), fun hn => absurd hd hn⟩
  · rw [if_neg hd, if_neg (List.cons_ne_nil _ _)]
    exact ⟨fun _ => hd, fun _ => rfl⟩

/-- The prefix that the source consumes is that of the numeral, but for the zero that tells base 8. -/
theorem split_eq (c : Conv) (s : List (BitVec 8)) :
    c.split s = afterPrefix c.base s ∧ (c = .i → (c.split s).1 ≠ 8) ∨
      c = .i ∧ c.split s = (8, 0x30 :: s.tail) ∧ afterPrefix c.base s = (8, s.tail) := by
  rw [Conv.split, afterPrefix]
  split_ifs with hbase h0 hx
  · left
    refine ⟨rfl, ?_⟩
    rintro rfl
    exact absurd rfl hbase
  · exact .inl ⟨rfl, fun _ => show 10 ≠ 8 by decide⟩
  · exact .inl ⟨rfl, fun _ => show 16 ≠ 8 by decide⟩
  · right
    have hc : c = .i := by cases c <;> first | rfl | exact absurd (by decide) hbase
    refine ⟨hc, ?_, rfl⟩
    rw [not_not] at h0
    cases s with
    | nil => exact absurd h0 (by decide)
    | cons x s =>
      have hx : x = 0x30 := BitVec.eq_of_toInt_eq h0
      rw [hx, List.tail_cons]

theorem scannedOut_iff (l : ℕ) (c : Conv) (s : List (BitVec 8)) :
    scannedOut l c s = (reading c s).out l ↔ (reading c s).Clear c := by
  generalize ht : afterSign (skipSpace s) = t
  have hread : reading c s = ⟨isNeg s, (c.split t).1, (c.split t).2.takeWhile (isDigit (c.split t).1),
      (c.split t).2.dropWhile (isDigit (c.split t).1)⟩ := by rw [reading, ht]
  have hout : scannedOut l c s =
      digitsOut l (isNeg s) (afterPrefix c.base t).1 (afterPrefix c.base t).2 := by
    rw [scannedOut, ht, digitsOut]
  rw [hread, hout]
  have hb := split_usual c t
  rcases split_eq c t with ⟨he, hne⟩ | ⟨rfl, he, he'⟩
  · rw [← he]
    constructor
    · intro h
      exact ⟨not_mistaken hb h, fun hc h8 => absurd h8 (hne hc)⟩
    · intro h
      exact digitsOut_eq hb l (isNeg s) h.behind
  · have h0 : isDigit 8 0x30 = true := by decide
    rw [he, he', List.takeWhile_cons_of_pos h0, List.dropWhile_cons_of_pos h0]
    constructor
    · intro h
      have hm := not_mistaken (.inl rfl) h
      refine ⟨hm, fun _ _ hd => ?_⟩
      exact (digitsOut_octal l (isNeg s) hm).1 h (List.cons.inj hd).2
    · intro h
      refine (digitsOut_octal l (isNeg s) h.behind).2 fun hd => ?_
      exact h.zero rfl rfl (by rw [hd])

/-! ## What has been printed -/

/-- The bytes of a text. -/
def bytes (s : List Char) : List (BitVec 8) := s.map fun c => .ofNat 8 c.toNat

/-- The conversion of the same name. -/
def Conv.ofPrint : Printfmt.Conv → Conv
  | .d => d
  | .u => u
  | .o => o
  | .x => x

theorem Conv.ofPrint_base (c : Printfmt.Conv) :
    (ofPrint c).base = c.base ∧ Usual c.base ∧ ofPrint c ≠ .i := by
  cases c with
  | d | u => exact ⟨rfl, .inr (.inl rfl), by decide⟩
  | o => exact ⟨rfl, .inl rfl, by decide⟩
  | x => exact ⟨rfl, .inr (.inr rfl), by decide⟩

theorem isDigit_not (hb : Usual b) {x : BitVec 8} (h : isDigit b x = true) :
    isspace x.toInt = false ∧ x.toInt ≠ '-'.toNat ∧ x.toInt ≠ '+'.toNat := by
  rcases hb with rfl | rfl | rfl <;> revert x <;> decide +kernel

theorem isDigit_digitChar (hb : Usual b) {d : ℕ} (hd : d < b) :
    isDigit b (.ofNat 8 d.digitChar.toNat) = true ∧ chr (.ofNat 8 d.digitChar.toNat) = d.digitChar := by
  rcases hb with rfl | rfl | rfl <;> interval_cases d <;> decide

theorem bytes_append (s t : List Char) : bytes (s ++ t) = bytes s ++ bytes t := List.map_append

theorem mem_bytes_spaces {k : ℕ} {x : BitVec 8} (h : x ∈ bytes (List.replicate k ' ')) :
    x = 0x20 := by
  rw [bytes, List.map_replicate] at h
  exact List.eq_of_mem_replicate h

theorem skipSpace_spaces (i : ℕ) (s : List (BitVec 8)) :
    skipSpace (bytes (List.replicate i ' ') ++ s) = skipSpace s := by
  apply List.dropWhile_append_of_pos
  intro x hx
  rw [mem_bytes_spaces hx]
  decide

/-- The head of digits, if there are any. -/
theorem skipSpace_digits (hb : Usual b) {ds : List (BitVec 8)} (hd : ∀ x ∈ ds, isDigit b x = true)
    (hne : ds ≠ []) (t : List (BitVec 8)) :
    skipSpace (ds ++ t) = ds ++ t ∧ afterSign (ds ++ t) = ds ++ t ∧ peek (ds ++ t) ≠ '-'.toNat := by
  cases ds with
  | nil => exact absurd rfl hne
  | cons x ds =>
    obtain ⟨hspace, hminus, hplus⟩ := isDigit_not hb (hd x List.mem_cons_self)
    refine ⟨?_, ?_, hminus⟩
    · rw [skipSpace, List.cons_append, List.dropWhile_cons_of_neg (by rw [hspace]; decide)]
    · exact if_neg (not_or.2 ⟨hminus, hplus⟩)

/-- A run of digits with spaces behind it. -/
theorem run_digits (hb : Usual b) {ds : List (BitVec 8)} (hd : ∀ x ∈ ds, isDigit b x = true) (k : ℕ) :
    (ds ++ bytes (List.replicate k ' ')).takeWhile (isDigit b) = ds ∧
      (ds ++ bytes (List.replicate k ' ')).dropWhile (isDigit b) = bytes (List.replicate k ' ') := by
  have hspace : isDigit b 0x20 = false := by rcases hb with rfl | rfl | rfl <;> decide
  rw [List.takeWhile_append_of_pos hd, List.dropWhile_append_of_pos hd]
  cases k with
  | zero => exact ⟨List.append_nil _, rfl⟩
  | succ k =>
    have hk : bytes (List.replicate (k + 1) ' ') = 0x20 :: bytes (List.replicate k ' ') := rfl
    rw [hk, List.takeWhile_cons_of_neg (by rw [hspace]; decide),
      List.dropWhile_cons_of_neg (by rw [hspace]; decide)]
    exact ⟨List.append_nil _, rfl⟩

/-- Spaces, a sign that may be a space or missing, digits, and spaces. -/
theorem reading_text {c : Conv} (hc : c.base = b) (hb : Usual b) (i k : ℕ) {sg : Option Char}
    (hsg : sg = none ∨ sg = some ' ' ∨ sg = some '+' ∨ sg = some '-') {ds : List (BitVec 8)}
    (hd : ∀ x ∈ ds, isDigit b x = true) (hne : ds ≠ []) :
    reading c (bytes (List.replicate i ' ' ++ sg.toList) ++ (ds ++ bytes (List.replicate k ' '))) =
      ⟨sg = some '-', b, ds, bytes (List.replicate k ' ')⟩ := by
  obtain ⟨htake, hdrop⟩ := run_digits hb hd k
  obtain ⟨hskip, hafter, hminus⟩ := skipSpace_digits hb hd hne (bytes (List.replicate k ' '))
  generalize ht : ds ++ bytes (List.replicate k ' ') = t at *
  have hb0 : c.base ≠ 0 := by
    rw [hc]
    rcases hb with rfl | rfl | rfl <;> decide
  have hsplit : c.split t = (b, t) := by rw [Conv.split, if_pos hb0, hc]
  -- what is left of the sign behind the white space
  have hsign : ∃ u, skipSpace (bytes (List.replicate i ' ' ++ sg.toList) ++ t) = u ∧
      afterSign u = t ∧ decide (peek u = '-'.toNat) = decide (sg = some '-') := by
    refine ⟨_, rfl, ?_⟩
    rw [bytes_append, List.append_assoc, skipSpace_spaces]
    rcases hsg with rfl | rfl | rfl | rfl
    · rw [Option.toList_none, bytes, List.map_nil, List.nil_append, hskip]
      exact ⟨hafter, (decide_eq_false hminus).trans rfl⟩
    · have hsp : skipSpace (bytes (some ' ').toList ++ t) = skipSpace t := skipSpace_spaces 1 t
      rw [hsp, hskip]
      exact ⟨hafter, (decide_eq_false hminus).trans rfl⟩
    · exact ⟨rfl, rfl⟩
    · exact ⟨rfl, rfl⟩
  obtain ⟨u, hu, hau, hneg⟩ := hsign
  rw [reading, isNeg, hu, hau, hsplit, htake, hdrop, hneg]

/-- The sign and the magnitude of a number make it up. -/
theorem signed_eq (fs : List Printfmt.Flag) (c : Printfmt.Conv) (v : BitVec 64) :
    (if decide (c.sign fs v = some '-') = true then -BitVec.ofNat 64 (c.val v).natAbs
      else BitVec.ofNat 64 (c.val v).natAbs) = v := by
  have hsign : c.sign fs v = some '-' ↔ c.val v < 0 := by
    rw [Printfmt.Conv.sign]
    split_ifs with h <;> simp [h]
  have hval : BitVec.ofInt 64 (c.val v) = v := by
    cases c with
    | d => exact BitVec.ofInt_toInt
    | u | o | x =>
      change BitVec.ofInt 64 (v.toNat : ℤ) = v
      rw [BitVec.ofInt_natCast, BitVec.ofNat_toNat, BitVec.setWidth_eq]
  rw [← BitVec.ofInt_natCast]
  rcases lt_or_ge (c.val v) 0 with h | h
  · rw [if_pos (decide_eq_true (hsign.2 h)), ← BitVec.ofInt_neg, Int.ofNat_natAbs_of_nonpos h.le,
      Int.neg_neg, hval]
  · rw [if_neg (by rw [decide_eq_true_eq, hsign]; omega), Int.natAbs_of_nonneg h, hval]

theorem not_mistaken_space (hb : Usual b) : ¬ Mistaken b (chr 0x20) := by
  rcases hb with rfl | rfl | rfl <;> decide

/-- What is printed for a conversion with the padding in its place is scanned as the number. -/
theorem vscanfmt_printed {fs : List Printfmt.Flag} {w : ℕ} {c : Printfmt.Conv} {v : BitVec 64}
    (h : Printfmt.InPlace fs w c v) : ∃ rest,
      vscanfmt (numberFormat 2 (.ofPrint c)) (bytes (Printfmt.printed fs w c v)) =
        .ok ⟨1, [.longLong v], rest⟩ := by
  obtain ⟨i, j, k, hout, -, -⟩ := (Printfmt.canonical_iff fs w c v).2 h
  obtain ⟨hc, hb, hi⟩ := Conv.ofPrint_base c
  have hdigits : ∀ x ∈ List.replicate j '0' ++ c.digits v, ∃ d < (c.base : ℕ), x = d.digitChar := by
    intro x hx
    rcases List.mem_append.1 hx with hx | hx
    · exact ⟨0, by rcases hb with hb | hb | hb <;> omega, List.eq_of_mem_replicate hx⟩
    · exact exists_of_mem_toDigits c.base.2.1 hx
  have hsg : c.sign fs v = none ∨ c.sign fs v = some ' ' ∨ c.sign fs v = some '+' ∨
      c.sign fs v = some '-' := by
    rw [Printfmt.Conv.sign]
    split_ifs <;> simp
  have hd : ∀ x ∈ bytes (List.replicate j '0' ++ c.digits v), isDigit c.base x = true := by
    intro x hx
    obtain ⟨y, hy, rfl⟩ := List.mem_map.1 hx
    obtain ⟨d, hlt, rfl⟩ := hdigits y hy
    exact (isDigit_digitChar hb hlt).1
  have hne : bytes (List.replicate j '0' ++ c.digits v) ≠ [] := by
    rw [bytes, Ne, List.map_eq_nil_iff]
    exact List.append_ne_nil_of_right_ne_nil _ Nat.toDigits_ne_nil
  have hread := reading_text hc hb i k hsg hd hne
  rw [← bytes_append, ← bytes_append, ← List.append_assoc, ← hout] at hread
  have hclear : (reading (.ofPrint c) (bytes (Printfmt.printed fs w c v))).Clear (.ofPrint c) := by
    rw [hread]
    refine ⟨?_, fun hci => absurd hci hi⟩
    intro x hx
    rw [mem_bytes_spaces (List.mem_of_mem_head? hx)]
    exact not_mistaken_space hb
  refine ⟨bytes (List.replicate k ' '), ?_⟩
  rw [vscanfmt_number, (scannedOut_iff 2 _ _).2 hclear, hread, Reading.out, if_neg hne]
  have hchr : (bytes (List.replicate j '0' ++ c.digits v)).map chr =
      List.replicate j '0' ++ c.digits v := by
    rw [bytes, List.map_map]
    refine (List.map_congr_left (g := id) fun x hx => ?_).trans (List.map_id _)
    obtain ⟨d, hlt, rfl⟩ := hdigits x hx
    exact (isDigit_digitChar hb hlt).2
  have hval : Reading.val ⟨c.sign fs v = some '-', c.base, bytes (List.replicate j '0' ++ c.digits v),
      bytes (List.replicate k ' ')⟩ = v := by
    rw [Reading.val, hchr, value_zeros_append, Printfmt.value_digits]
    exact signed_eq fs c v
  rw [hval]
  rfl

/-- For every string and every conversion of an integer, the scan takes the numeral at the beginning
of the string and nothing more, stores its value, and fails where it has no digit, if and only if
the numeral is clear of what `SCANDIGITS` mistakes; and it takes what `vprintfmt` prints for the same
conversion as the number that was printed, unless the zeros of the `0` flag have got in the way. -/
theorem vscanfmt_number_iff (l : ℕ) (c : Conv) (s : List (BitVec 8)) :
    (vscanfmt (numberFormat l c) s = .ok ((reading c s).out l) ↔ (reading c s).Clear c) ∧
      ∀ (fs : List Printfmt.Flag) (w : ℕ) (c : Printfmt.Conv) (v : BitVec 64), w < 2 ^ 31 →
        Printfmt.InPlace fs w c v → ∃ out rest,
          Printfmt.vprintfmt (Printfmt.format fs w c) [.num v] = some out ∧
            vscanfmt (numberFormat 2 (.ofPrint c)) (bytes out) = .ok ⟨1, [.longLong v], rest⟩ := by
  constructor
  · rw [vscanfmt_number, Except.ok.injEq]
    exact scannedOut_iff l c s
  · intro fs w c v hw h
    obtain ⟨rest, hr⟩ := vscanfmt_printed h
    exact ⟨_, rest, Printfmt.vprintfmt_format fs hw c v, hr⟩

/-- `%d` takes `12A` for 130. -/
theorem vscanfmt_mistaken :
    vscanfmt "%d".toList (bytes "12A".toList) = .ok ⟨1, [.int 130], []⟩ ∧
      (reading .d (bytes "12A".toList)).out 0 = ⟨1, [.int 12], bytes "A".toList⟩ ∧
      vscanfmt "%i".toList (bytes "0".toList) = .ok ⟨-1, [], []⟩ ∧
      (reading .i (bytes "0".toList)).out 0 = ⟨1, [.int 0], []⟩ := by
  have hd : "%d".toList = numberFormat 0 .d := by decide
  have hi : "%i".toList = numberFormat 0 .i := by decide
  rw [hd, hi, vscanfmt_number, vscanfmt_number]
  decide +kernel

end Determinator.Scanfmt
