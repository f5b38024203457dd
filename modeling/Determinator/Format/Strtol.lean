import Determinator.Format.Scan
import Determinator.User.Strtol

/-!
# Reading back with `strtol`

`strtol` takes what `vprintfmt` has printed for an integer as that number, if the padding is in its place and a `long` can
hold the number without its sign: it reads the digits before it makes the number negative (`strtol_printed`).
-/

namespace Determinator.Strtol

open Numeral Scanfmt Printfmt

variable {b i j k w : ℕ} {ds : List Char} {x : BitVec 8} {c : Printfmt.Conv} {fs : List Flag} {v : BitVec 64}

/-! ## Digits -/

/-- What digits make of the number before them. -/
def valueAfter (b p : ℕ) (ds : List Char) : ℕ := ds.foldl (fun n c => n * b + digitVal c) p

theorem le_valueAfter (hb : 0 < b) (p : ℕ) (ds : List Char) : p ≤ valueAfter b p ds := by
  induction ds generalizing p with
  | nil => exact le_rfl
  | cons d ds ih =>
    have hle : p * 1 ≤ p * b := Nat.mul_le_mul_left p hb
    calc p ≤ p * b + digitVal d := by omega
      _ ≤ valueAfter b (p * b + digitVal d) ds := ih _

/-- The characters of a numeral in base `b`. -/
def DigitsOf (b : ℕ) (ds : List Char) : Prop := ∀ x ∈ ds, ∃ d < b, x = Nat.digitChar d

theorem digit_digitChar {d : ℕ} (hd : d < 16) :
    digit (BitVec.ofNat 8 d.digitChar.toNat).toInt = some (d : ℤ) := by
  interval_cases d <;> decide

theorem digit_blank : digit (0x20 : BitVec 8).toInt = none := by decide

theorem bytes_cons (y : Char) (ds : List Char) : bytes (y :: ds) = BitVec.ofNat 8 y.toNat :: bytes ds := rfl

/-- The loop stops at the spaces. -/
theorem digits_spaces (base val : ℤ) (k : ℕ) :
    digits base val (bytes (List.replicate k ' ')) = some (val, bytes (List.replicate k ' ')) := by
  cases k with
  | zero => rfl
  | succ k =>
    have hk : bytes (List.replicate (k + 1) ' ') = 0x20 :: bytes (List.replicate k ' ') := rfl
    rw [hk, digits, digit_blank]

/-- **The loop** adds digit after digit, until the number is too large. -/
theorem digits_eq (hb : 0 < b) (hb' : b ≤ 16) (hds : DigitsOf b ds) (p k : ℕ) (hp : (p : ℤ) ≤ longMax) :
    digits b p (bytes ds ++ bytes (List.replicate k ' ')) =
      if (valueAfter b p ds : ℤ) ≤ longMax then some (↑(valueAfter b p ds), bytes (List.replicate k ' ')) else none := by
  induction ds generalizing p with
  | nil =>
    have hnil : valueAfter b p [] = p := rfl
    rw [hnil, if_pos hp]
    exact digits_spaces _ _ k
  | cons y ds ih =>
    obtain ⟨d, hd, rfl⟩ := hds y List.mem_cons_self
    have hval : valueAfter b p (d.digitChar :: ds) = valueAfter b (p * b + d) ds := by
      rw [valueAfter, List.foldl_cons, digitVal_digitChar (by omega)]
      rfl
    rw [bytes_cons, List.cons_append, digits, digit_digitChar (by omega), hval]
    simp only
    have hcast : (p : ℤ) * b + d = ↑(p * b + d) := by push_cast; rfl
    rw [if_neg (by omega), hcast]
    by_cases hle : ((p * b + d : ℕ) : ℤ) ≤ longMax
    · rw [if_pos hle]
      exact ih (fun x hx => hds x (List.mem_cons_of_mem _ hx)) _ hle
    · have hmono := le_valueAfter hb (p * b + d) ds
      rw [if_neg hle, if_neg (by omega)]

/-! ## What is in front of them -/

theorem dropWhile_blank_spaces (i : ℕ) (s : List (BitVec 8)) :
    (bytes (List.replicate i ' ') ++ s).dropWhile isBlank = s.dropWhile isBlank := by
  apply List.dropWhile_append_of_pos
  intro x hx
  rw [mem_bytes_spaces hx]
  decide

theorem digitChar_plain {d : ℕ} (hd : d < 16) :
    isBlank (BitVec.ofNat 8 d.digitChar.toNat) = false ∧ (BitVec.ofNat 8 d.digitChar.toNat).toInt ≠ '+'.toNat ∧
      (BitVec.ofNat 8 d.digitChar.toNat).toInt ≠ '-'.toNat ∧ (BitVec.ofNat 8 d.digitChar.toNat).toInt ≠ 'x'.toNat := by
  interval_cases d <;> decide

/-- Spaces, a sign that may be a space or missing, and digits. -/
theorem sign_text (hb : b ≤ 16) (hds : DigitsOf b ds) (hne : ds ≠ []) {sg : Option Char}
    (hsg : sg = none ∨ sg = some ' ' ∨ sg = some '+' ∨ sg = some '-') (i : ℕ) (t : List (BitVec 8)) :
    sign ((bytes (List.replicate i ' ') ++ (bytes sg.toList ++ (bytes ds ++ t))).dropWhile isBlank) =
      (decide (sg = some '-'), bytes ds ++ t) := by
  cases ds with
  | nil => exact absurd rfl hne
  | cons y ds =>
    obtain ⟨d, hd, rfl⟩ := hds y List.mem_cons_self
    obtain ⟨hblank, hplus, hminus, -⟩ := digitChar_plain (lt_of_lt_of_le hd hb)
    have hdigits : (bytes (d.digitChar :: ds) ++ t).dropWhile isBlank = bytes (d.digitChar :: ds) ++ t := by
      rw [bytes_cons, List.cons_append, List.dropWhile_cons_of_neg (by rw [hblank]; decide)]
    have hnone : sign (bytes (d.digitChar :: ds) ++ t) = (false, bytes (d.digitChar :: ds) ++ t) := by
      have hpeek : peek (bytes (d.digitChar :: ds) ++ t) = (BitVec.ofNat 8 d.digitChar.toNat).toInt := rfl
      unfold sign
      rw [hpeek, if_neg hplus, if_neg hminus]
    rw [dropWhile_blank_spaces]
    rcases hsg with rfl | rfl | rfl | rfl
    · have hnil : bytes (none : Option Char).toList = [] := rfl
      rw [hnil, List.nil_append, hdigits, hnone]
      rfl
    · have hspace : bytes (some ' ').toList = bytes (List.replicate 1 ' ') := rfl
      rw [hspace, dropWhile_blank_spaces, hdigits, hnone]
      rfl
    · rfl
    · rfl

/-- A base that is given is not changed by digits in it. -/
theorem basePrefix_digits (hb : 0 < b) (hb' : b ≤ 16) (hds : DigitsOf b ds) (k : ℕ) :
    basePrefix b (bytes ds ++ bytes (List.replicate k ' ')) = (↑b, bytes ds ++ bytes (List.replicate k ' ')) := by
  have hx : ∀ x ∈ bytes ds ++ bytes (List.replicate k ' '), x.toInt ≠ 'x'.toNat := by
    intro x hx
    rcases List.mem_append.1 hx with hx | hx
    · obtain ⟨y, hy, rfl⟩ := List.mem_map.1 hx
      obtain ⟨d, hd, rfl⟩ := hds y hy
      exact (digitChar_plain (lt_of_lt_of_le hd hb')).2.2.2
    · rw [mem_bytes_spaces hx]
      decide
  have hsecond : peek (bytes ds ++ bytes (List.replicate k ' ')).tail ≠ 'x'.toNat := by
    cases h : (bytes ds ++ bytes (List.replicate k ' ')).tail with
    | nil => decide
    | cons x s =>
      refine hx x (List.mem_of_mem_tail ?_)
      rw [h]
      exact List.mem_cons_self
  unfold basePrefix
  rw [if_neg fun h => hsecond h.2.2, if_neg fun h => by omega, if_neg (by omega)]

/-! ## What has been printed -/

/-- A numeral between spaces. -/
theorem strtol_text (hb : 0 < b) (hb' : b ≤ 16) (hds : DigitsOf b ds) (hne : ds ≠ []) {sg : Option Char}
    (hsg : sg = none ∨ sg = some ' ' ∨ sg = some '+' ∨ sg = some '-') (i k : ℕ) :
    strtol (bytes (List.replicate i ' ' ++ sg.toList ++ ds ++ List.replicate k ' ')) b =
      if (value b ds : ℤ) ≤ longMax then
        some (if sg = some '-' then -↑(value b ds) else ↑(value b ds), bytes (List.replicate k ' '))
      else none := by
  have hsplit : bytes (List.replicate i ' ' ++ sg.toList ++ ds ++ List.replicate k ' ') =
      bytes (List.replicate i ' ') ++ (bytes sg.toList ++ (bytes ds ++ bytes (List.replicate k ' '))) := by
    simp only [bytes_append, List.append_assoc]
  have hvalue : valueAfter b 0 ds = value b ds := rfl
  have hloop := digits_eq hb hb' hds 0 k (by decide)
  rw [hvalue, Nat.cast_zero] at hloop
  unfold strtol
  rw [hsplit, sign_text hb' hds hne hsg]
  simp only
  rw [basePrefix_digits hb hb' hds]
  simp only
  rw [hloop]
  by_cases hle : (value b ds : ℤ) ≤ longMax
  · rw [if_pos hle, if_pos hle]
    simp
  · rw [if_neg hle, if_neg hle]
    rfl

/-- **What is printed** for an integer with the padding in its place, `strtol` reads back, unless the number without its
sign is too large for a `long`. -/
theorem strtol_printed (hw : w < 2 ^ 31) (h : InPlace fs w c v) : ∃ out k,
    vprintfmt (format fs w c) [.num v] = some out ∧
    strtol (bytes out) c.base =
      if ((c.val v).natAbs : ℤ) ≤ longMax then some (c.val v, bytes (List.replicate k ' ')) else none := by
  obtain ⟨i, j, k, hout, -, -⟩ := (canonical_iff fs w c v).2 h
  refine ⟨_, k, vprintfmt_format fs hw c v, ?_⟩
  have hb := c.base.2
  have hds : DigitsOf c.base (List.replicate j '0' ++ c.digits v) := by
    intro x hx
    rcases List.mem_append.1 hx with hx | hx
    · exact ⟨0, by omega, List.eq_of_mem_replicate hx⟩
    · exact exists_of_mem_toDigits hb.1 hx
  have hne : List.replicate j '0' ++ c.digits v ≠ [] := List.append_ne_nil_of_right_ne_nil _ Nat.toDigits_ne_nil
  have hsg : c.sign fs v = none ∨ c.sign fs v = some ' ' ∨ c.sign fs v = some '+' ∨ c.sign fs v = some '-' := by
    rw [Printfmt.Conv.sign]
    split_ifs <;> simp
  have hneg : c.sign fs v = some '-' ↔ c.val v < 0 := by
    rw [Printfmt.Conv.sign]
    split_ifs with h₁ <;> simp [h₁]
  rw [hout, strtol_text (by omega) hb.2 hds hne hsg, value_zeros_append, value_digits]
  have hval : (if c.sign fs v = some '-' then -((c.val v).natAbs : ℤ) else ((c.val v).natAbs : ℤ)) = c.val v := by
    by_cases hlt : c.val v < 0
    · rw [if_pos (hneg.2 hlt)]
      omega
    · rw [if_neg fun hs => hlt (hneg.1 hs)]
      omega
  rw [hval]

/-- A negative number in a field of ten characters. -/
theorem strtol_printed_sample : ∃ out k, vprintfmt (format [] 10 .d) [.num (-123)] = some out ∧
    strtol (bytes out) Printfmt.Conv.d.base =
      if ((Printfmt.Conv.d.val (-123)).natAbs : ℤ) ≤ longMax then
        some (Printfmt.Conv.d.val (-123), bytes (List.replicate k ' ')) else none :=
  strtol_printed (by decide) fun h => absurd h List.not_mem_nil

end Determinator.Strtol
