import Determinator.Format.Scan
import Mathlib.Data.List.DropRight

/-!
# Scanning up to the end of a string

`sscanf` with formats of white space, literals, `%c`, `%s` and the conversions of integers, with any
field widths (`Elem`). All loops stop at the zero that ends the string but those of `%c` and `%s`,
which take it for a character: they look for a negative one. So the assertion of `sscanlook` fails
where such a conversion comes to the end of the string within its field width, and nowhere else
(`sscanf_safe_iff`).
-/

namespace Determinator.Scanfmt

/-! ## The elements of a format -/

/-- A field width as it is written. -/
abbrev Width := { w : List Char // ∀ d ∈ w, d.isDigit = true }

/-- The field width that is read; -1 if none is written. -/
def Width.val (w : Width) : ℤ := (modifiers ⟨-1, 0, false⟩ w.1).1.width

/-- The elements of a format. -/
inductive Elem
  | space (c : Char) (h : isspace c.toNat = true)
  | lit (c : Char) (h : isspace c.toNat = false ∧ c ≠ '%' ∧ c ≠ '\x00')
  | chars (w : Width)
  | word (w : Width)
  | number (w : Width) (c : Conv)

namespace Elem

def text : Elem → List Char
  | space c _ => [c]
  | lit c _ => [c]
  | chars w => '%' :: (w.1 ++ ['c'])
  | word w => '%' :: (w.1 ++ ['s'])
  | number w c => '%' :: (w.1 ++ [c.char])

end Elem

/-- The format of some elements. -/
def formatOf (es : List Elem) : List Char := es.flatMap Elem.text

/-! ## Fields of characters -/

/-- A character that `%c` stores and that does not end the string. -/
def isChar (c : BitVec 8) : Bool := 0 < c.toInt

/-- A character that `%s` stores and that does not end the string. -/
def isWordChar (c : BitVec 8) : Bool := 0 < c.toInt ∧ isspace c.toInt = false

/-- The field of `n` characters is filled, or ends otherwise before the string does. -/
def Fits (p : BitVec 8 → Bool) (n : ℕ) (s : List (BitVec 8)) : Prop :=
  n ≤ (s.takeWhile p).length ∨ peek (s.dropWhile p) ≠ 0

instance (p : BitVec 8 → Bool) (n : ℕ) (s : List (BitVec 8)) : Decidable (Fits p n s) :=
  inferInstanceAs (Decidable (_ ∨ _))

/-- The width of a `%c` field. -/
def Width.chars (w : Width) : ℕ := if w.val < 0 then 1 else w.val.toNat

/-- The width of a `%s` field. -/
def Width.word (w : Width) : ℕ := if w.val < 0 then intMax else w.val.toNat

/-- The element does not come to the end of the string within its field width. -/
def Elem.Within (s : List (BitVec 8)) : Elem → Prop
  | .chars w => Fits isChar w.chars s
  | .word w => Fits isWordChar w.word (skipSpace s)
  | _ => True

/-- Where the scan goes on behind an element, if it does. -/
def Elem.after (s : List (BitVec 8)) : Elem → Option (List (BitVec 8))
  | .space _ _ => some (skipSpace s)
  | .lit c _ => if peek s = c.toNat then some s.tail else none
  | .chars w => if w.chars ≤ (s.takeWhile isChar).length then some (s.drop w.chars) else none
  | .word w =>
    let t := skipSpace s
    if w.word ≤ (t.takeWhile isWordChar).length then some (t.drop w.word)
    else if isspace (peek (t.dropWhile isWordChar)) then some (t.dropWhile isWordChar)
    else none
  | .number _ c =>
    let t := afterPrefix c.base (afterSign (skipSpace s))
    if t.2.takeWhile (accepted t.1) = [] then none else some (t.2.dropWhile (accepted t.1))

/-- No conversion that the scan reaches comes to the end of the string within its field width. -/
def Within (s : List (BitVec 8)) : List Elem → Prop
  | [] => True
  | e :: es =>
    0 ≤ peek s → e.Within s ∧
      match e.after s with
      | some t => Within t es
      | none => True

instance (s : List (BitVec 8)) (e : Elem) : Decidable (e.Within s) :=
  match e with
  | .chars _ => inferInstanceAs (Decidable (Fits _ _ _))
  | .word _ => inferInstanceAs (Decidable (Fits _ _ _))
  | .space .. | .lit .. | .number .. => inferInstanceAs (Decidable True)

instance decWithin (s : List (BitVec 8)) : (es : List Elem) → Decidable (Within s es)
  | [] => .isTrue trivial
  | e :: es =>
    have : Decidable (match e.after s with | some t => Within t es | none => True) :=
      match e.after s with
      | some t => decWithin t es
      | none => .isTrue trivial
    inferInstanceAs (Decidable (_ → _ ∧ _))

/-! ## Positions in a string -/

/-- The characters of a string. -/
def text (str : List (BitVec 8)) : List (BitVec 8) := str.takeWhile (· ≠ 0)

/-- A position in a string, at its end at most. -/
def Reaches (str s : List (BitVec 8)) : Prop := ∃ p, str = p ++ s ∧ (0 : BitVec 8) ∉ p

variable {str s t : List (BitVec 8)}

theorem Reaches.refl (str : List (BitVec 8)) : Reaches str str := ⟨[], rfl, List.not_mem_nil⟩

theorem Reaches.append {a : List (BitVec 8)} (h : Reaches str (a ++ t)) (ha : (0 : BitVec 8) ∉ a) :
    Reaches str t ∧ ∀ x ∈ a, x ∈ text str := by
  obtain ⟨p, rfl, hp⟩ := h
  have hpa : (0 : BitVec 8) ∉ p ++ a := fun h0 => (List.mem_append.1 h0).elim hp ha
  refine ⟨⟨p ++ a, (List.append_assoc _ _ _).symm, hpa⟩, fun x hx => ?_⟩
  have hall : ∀ y ∈ p ++ a, decide (y ≠ 0) = true := by
    intro y hy
    exact decide_eq_true (ne_of_mem_of_not_mem hy hpa)
  rw [text, ← List.append_assoc, List.takeWhile_append_of_pos hall]
  exact List.mem_append_left _ (List.mem_append_right _ hx)

/-- Behind characters that are not zero. -/
theorem Reaches.dropWhile {p : BitVec 8 → Bool} (h : Reaches str s) (hp : p 0 = false) :
    Reaches str (s.dropWhile p) ∧ ∀ x ∈ s.takeWhile p, x ∈ text str := by
  rw [← List.takeWhile_append_dropWhile (p := p) (l := s)] at h
  apply h.append
  intro h0
  rw [List.mem_takeWhile_imp h0] at hp
  cases hp

theorem Reaches.take {p : BitVec 8 → Bool} {n : ℕ} (h : Reaches str s) (hp : p 0 = false)
    (hn : n ≤ (s.takeWhile p).length) :
    Reaches str (s.drop n) ∧ ∀ x ∈ s.take n, x ∈ text str := by
  have htake : s.take n = (s.takeWhile p).take n := by
    conv_lhs => rw [← List.takeWhile_append_dropWhile (p := p) (l := s)]
    exact List.take_append_of_le_length hn
  rw [← List.take_append_drop n s] at h
  apply h.append
  intro h0
  rw [htake] at h0
  rw [List.mem_takeWhile_imp (List.mem_of_mem_take h0)] at hp
  cases hp

theorem Reaches.tail (h : Reaches str s) (hs : peek s ≠ 0) : Reaches str s.tail := by
  cases s with
  | nil => exact absurd rfl hs
  | cons c s =>
    have hc : (0 : BitVec 8) ∉ [c] := by
      rw [List.mem_singleton]
      rintro rfl
      exact hs rfl
    exact (h.append hc (t := s)).1

/-! ## The loops -/

theorem next_cons {c : BitVec 8} (h : c.toInt ≠ 0) : next (c :: s) = .ok s := by
  rw [next, if_neg]
  rintro rfl
  exact h rfl

theorem next_zero {c : BitVec 8} (h : c.toInt = 0) : next (c :: s) = .error .assertion :=
  if_pos (BitVec.eq_of_toInt_eq h)

/-- The loop of `%c` stores the characters up to the end of the field or a negative one. -/
theorem scanChars_eq (n : ℕ) (s : List (BitVec 8)) :
    scanChars n s =
      if n ≤ (s.takeWhile isChar).length then .ok (s.take n, true, s.drop n)
      else if peek (s.dropWhile isChar) = 0 then .error .assertion
      else .ok (s.takeWhile isChar, false, s.dropWhile isChar) := by
  induction n generalizing s with
  | zero => rfl
  | succ n ih =>
    rw [scanChars]
    cases s with
    | nil => rfl
    | cons c s =>
      rw [peek]
      rcases lt_trichotomy c.toInt 0 with hc | hc | hc
      · have hn : isChar c = false := decide_eq_false (by omega)
        have hne : c.toInt ≠ 0 := hc.ne
        simp [hc, hn, peek, hne]
      · have hn : isChar c = false := decide_eq_false (by omega)
        have hnext : next (c :: s) = .error .assertion := next_zero hc
        simp [hc, hn, peek, hnext]
      · have hp : isChar c = true := decide_eq_true hc
        rw [if_neg (by omega), next_cons (by omega), ok_bind, ih, List.takeWhile_cons_of_pos hp,
          List.dropWhile_cons_of_pos hp, BitVec.ofInt_toInt]
        simp only [List.length_cons, Nat.add_le_add_iff_right]
        split_ifs <;> rfl

/-- The loop of `%s` stores the characters up to the end of the field, white space or a negative
one. -/
theorem scanWord_eq (n : ℕ) (s : List (BitVec 8)) :
    scanWord n s =
      if n ≤ (s.takeWhile isWordChar).length then .ok (s.take n, true, s.drop n)
      else if peek (s.dropWhile isWordChar) = 0 then .error .assertion
      else .ok (s.takeWhile isWordChar, isspace (peek (s.dropWhile isWordChar)),
        s.dropWhile isWordChar) := by
  induction n generalizing s with
  | zero => rfl
  | succ n ih =>
    rw [scanWord]
    cases s with
    | nil => rfl
    | cons c s =>
      rw [peek]
      rcases lt_trichotomy c.toInt 0 with hc | hc | hc
      · have hn : isWordChar c = false := decide_eq_false fun h => absurd h.1 (by omega)
        have hne : c.toInt ≠ 0 := hc.ne
        have hsp : isspace c.toInt = false := by
          simp only [isspace, decide_eq_false_iff_not]
          have h1 : (' '.toNat : ℤ) = 32 := rfl
          have h2 : ('\t'.toNat : ℤ) = 9 := rfl
          omega
        simp [hc, hn, peek, hne, hsp]
      · have hn : isWordChar c = false := decide_eq_false fun h => absurd h.1 (by omega)
        have hnext : next (c :: s) = .error .assertion := next_zero hc
        have hsp : isspace 0 = false := rfl
        simp [hc, hn, peek, hnext, hsp]
      · rw [if_neg (by omega)]
        cases hsp : isspace c.toInt with
        | true =>
          have hn : isWordChar c = false := by simp [isWordChar, hsp]
          have hne : c.toInt ≠ 0 := hc.ne'
          simp [hn, peek, hne, hsp]
        | false =>
          have hp : isWordChar c = true := decide_eq_true ⟨hc, hsp⟩
          rw [if_neg Bool.false_ne_true, next_cons (by omega), ok_bind, ih,
            List.takeWhile_cons_of_pos hp, List.dropWhile_cons_of_pos hp, BitVec.ofInt_toInt]
          simp only [List.length_cons, Nat.add_le_add_iff_right]
          split_ifs <;> rfl

/-! ## The conversions -/

/-- A store of characters of the string only. -/
def Store.Of (str : List (BitVec 8)) : Store → Prop
  | .chars cs | .str cs => ∀ x ∈ cs, x ∈ text str
  | _ => True

/-- What a conversion does: it comes to its end without leaving the string, or the assertion fails. -/
def Behaves (str s : List (BitVec 8)) (e : Elem) (x : Except Halt Converted) : Prop :=
  (e.Within s → ∃ r, x = .ok r ∧ (∀ st ∈ r.stores, st.Of str) ∧ Reaches str r.rest ∧
    match e.after s with
    | some t => r.result = .counted ∧ r.rest = t
    | none => r.result = .err) ∧
  (¬ e.Within s → x = .error .assertion)

theorem Reaches.skipSpace (h : Reaches str s) : Reaches str (skipSpace s) :=
  (h.dropWhile (by decide)).1

theorem Reaches.afterSign (h : Reaches str s) : Reaches str (afterSign s) := by
  rw [Scanfmt.afterSign]
  split_ifs with hs
  · apply h.tail
    rcases hs with hs | hs <;> rw [hs] <;> decide
  · exact h

theorem Reaches.afterPrefix (h : Reaches str s) (b : ℕ) : Reaches str (afterPrefix b s).2 := by
  rw [Scanfmt.afterPrefix]
  split_ifs with hb h0 hx
  · exact h
  · exact h
  all_goals
    have ht : Reaches str s.tail := h.tail (by rw [not_not.1 h0]; decide)
  · apply ht.tail
    rcases hx with hx | hx <;> rw [hx] <;> decide
  · exact ht

theorem chars_behaves (w : Width) (h : Reaches str s) :
    Behaves str s (.chars w) (chars ⟨w.val, 0, false⟩ s) := by
  have hrun : chars ⟨w.val, 0, false⟩ s = scanChars w.chars s >>= fun r =>
      .ok ⟨[.chars r.1], if r.2.1 then .counted else .err, r.2.2⟩ := rfl
  rw [hrun, scanChars_eq]
  simp only [Behaves, Elem.Within, Elem.after, Fits]
  split_ifs with hfull hend
  · obtain ⟨hr, hcs⟩ := h.take (by decide) hfull
    have hof : ∀ st ∈ [Store.chars (s.take w.chars)], st.Of str := List.forall_mem_singleton.2 hcs
    exact ⟨fun _ => ⟨_, rfl, hof, hr, rfl, rfl⟩, fun hn => absurd (.inl hfull) hn⟩
  · exact ⟨fun hw => absurd hend (hw.resolve_left hfull), fun _ => rfl⟩
  · obtain ⟨hr, hcs⟩ := h.dropWhile (p := isChar) (by decide)
    have hof : ∀ st ∈ [Store.chars (s.takeWhile isChar)], st.Of str :=
      List.forall_mem_singleton.2 hcs
    exact ⟨fun _ => ⟨_, rfl, hof, hr, rfl⟩, fun hn => absurd (.inr hend) hn⟩

theorem word_behaves (w : Width) (h : Reaches str s) :
    Behaves str s (.word w) (word ⟨w.val, 0, false⟩ s) := by
  have hrun : word ⟨w.val, 0, false⟩ s = scanWord w.word (skipSpace s) >>= fun r =>
      .ok (if r.2.1 then ⟨[.str r.1], .counted, r.2.2⟩ else ⟨[.chars r.1], .err, r.2.2⟩) := rfl
  have h := h.skipSpace
  rw [hrun, scanWord_eq]
  simp only [Behaves, Elem.Within, Elem.after, Fits]
  generalize skipSpace s = t at *
  by_cases hfull : w.word ≤ (t.takeWhile isWordChar).length
  · rw [if_pos hfull, if_pos hfull]
    obtain ⟨hr, hcs⟩ := h.take (by decide) hfull
    have hof : ∀ st ∈ [Store.str (t.take w.word)], st.Of str := List.forall_mem_singleton.2 hcs
    exact ⟨fun _ => ⟨_, rfl, hof, hr, rfl, rfl⟩, fun hn => absurd (.inl hfull) hn⟩
  rw [if_neg hfull, if_neg hfull]
  by_cases hend : peek (t.dropWhile isWordChar) = 0
  · rw [if_pos hend]
    exact ⟨fun hw => absurd hend (hw.resolve_left hfull), fun _ => rfl⟩
  · rw [if_neg hend, ok_bind]
    obtain ⟨hr, hcs⟩ := h.dropWhile (p := isWordChar) (by decide)
    refine ⟨fun _ => ⟨_, rfl, ?_⟩, fun hn => absurd (.inr hend) hn⟩
    split_ifs with hsp
    · exact ⟨List.forall_mem_singleton.2 hcs, hr, rfl, rfl⟩
    · exact ⟨List.forall_mem_singleton.2 hcs, hr, rfl⟩

theorem accepted_zero (b : ℕ) : accepted b 0 = false := by simp [accepted, digit]

theorem number_behaves (w : Width) (c : Conv) (h : Reaches str s) :
    Behaves str s (.number w c) (convert ⟨w.val, 0, false⟩ c.char s) := by
  have hr := ((h.skipSpace.afterSign.afterPrefix c.base).dropWhile
    (p := accepted (afterPrefix c.base (afterSign (skipSpace s))).1) (accepted_zero _)).1
  rw [convert_char, numbered]
  simp only [Behaves, Elem.Within, Elem.after, Bool.false_eq_true, if_false]
  refine ⟨fun _ => ⟨_, rfl, ?_⟩, fun hn => absurd trivial hn⟩
  split_ifs
  · exact ⟨fun st hst => absurd hst List.not_mem_nil, hr, rfl⟩
  · refine ⟨List.forall_mem_singleton.2 ?_, hr, rfl, rfl⟩
    rw [Store.integer]
    split_ifs <;> trivial

/-! ## The scan -/

/-- The scan comes to its end, has stored only characters of the string, and has not left it. -/
def Safe (str : List (BitVec 8)) (x : Except Halt Out) : Prop :=
  ∃ out, x = .ok out ∧ (∀ st ∈ out.stores, st.Of str) ∧ Reaches str out.rest

/-- The scan is safe under a condition, and fails the assertion otherwise. -/
def SafeIf (str : List (BitVec 8)) (P : Prop) (x : Except Halt Out) : Prop :=
  (P → Safe str x) ∧ (¬ P → x = .error .assertion)

theorem SafeIf.of_safe {P : Prop} {x : Except Halt Out} (h : Safe str x) (hp : P) :
    SafeIf str P x := ⟨fun _ => h, fun hn => absurd hp hn⟩

/-- The modifiers of a conversion with a field width. -/
theorem modifiers_width (w : Width) {ch : Char} (hch : ch.isDigit = false ∧ ch ≠ 'l' ∧ ch ≠ '*')
    (f : List Char) :
    modifiers ⟨-1, 0, false⟩ (w.1 ++ ch :: f) = (⟨w.val, 0, false⟩, ch :: f) := by
  have h (ds : List Char) (hd : ∀ d ∈ ds, d.isDigit = true) (n : ℤ) :
      modifiers ⟨n, 0, false⟩ (ds ++ ch :: f) =
        (⟨(modifiers ⟨n, 0, false⟩ ds).1.width, 0, false⟩, ch :: f) := by
    induction ds generalizing n with
    | nil => simp [modifiers, hch.1, hch.2.1, hch.2.2]
    | cons d ds ih =>
      have hdd := hd d List.mem_cons_self
      rw [List.cons_append, modifiers, if_pos hdd, modifiers, if_pos hdd]
      exact ih (fun x hx => hd x (List.mem_cons_of_mem _ hx)) _
  exact h w.1 w.2 (-1)

variable {nelt : ℕ} {stores : List Store} {e : Elem} {es : List Elem}

theorem safe_neg (h : Reaches str s) (hst : ∀ st ∈ stores, st.Of str) (hn : peek s < 0)
    (f : List Char) : Safe str (scanLoop nelt stores f s) := by
  cases f with
  | nil => exact ⟨_, scanLoop_nil, hst, h⟩
  | cons fc f => exact ⟨_, scanLoop_neg hn, hst, h⟩

theorem within_cons (hs : 0 ≤ peek s) :
    Within s (e :: es) ↔ e.Within s ∧ ∀ t, e.after s = some t → Within t es := by
  rw [Within]
  cases he : e.after s with
  | none => simp [hs]
  | some t => simp [hs]

theorem within_neg (hs : peek s < 0) (es : List Elem) : Within s es := by
  cases es with
  | nil => trivial
  | cons e es => exact fun h => absurd hs (not_lt.2 h)

/-- A scan from every position in the string with these elements to come. -/
def Scans (str : List (BitVec 8)) (es : List Elem) : Prop :=
  ∀ nelt stores s, Reaches str s → (∀ st ∈ stores, st.Of str) →
    SafeIf str (Within s es) (scanLoop nelt stores (formatOf es) s)

/-- The step over a conversion. -/
theorem Scans.conv (ih : Scans str es) {m : Mods} {ch : Char} {f : List Char}
    (hm : modifiers ⟨-1, 0, false⟩ f = (m, ch :: formatOf es))
    (hst : ∀ st ∈ stores, st.Of str) (hs : 0 ≤ peek s) (hb : Behaves str s e (convert m ch s)) :
    SafeIf str (Within s (e :: es)) (scanLoop nelt stores ('%' :: f) s) := by
  rw [scanLoop_conv (not_lt.2 hs) hm, within_cons hs]
  obtain ⟨hok, herr⟩ := hb
  by_cases hw : e.Within s
  · obtain ⟨r, hr, hstr, hreach, hafter⟩ := hok hw
    have hall : ∀ st ∈ stores ++ r.stores, st.Of str :=
      fun st h => (List.mem_append.1 h).elim (hst st) (hstr st)
    rw [hr, ok_bind]
    cases ha : e.after s with
    | none =>
      rw [ha] at hafter
      simp only at hafter
      rw [hafter]
      exact .of_safe ⟨_, rfl, hall, hreach⟩ ⟨hw, fun t ht => nomatch ht⟩
    | some t =>
      rw [ha] at hafter
      obtain ⟨hres, rfl⟩ := hafter
      rw [hres]
      have hi := ih (nelt + 1) _ _ hreach hall
      constructor
      · intro hp
        exact hi.1 (hp.2 _ rfl)
      · intro hn
        exact hi.2 fun hp => hn ⟨hw, fun t ht => Option.some.inj ht ▸ hp⟩
  · rw [herr hw]
    exact ⟨fun hp => absurd hp.1 hw, fun _ => rfl⟩

/-- The step over a conversion with a field width. -/
theorem Scans.field (ih : Scans str es) {w : Width} {ch : Char} (ht : e.text = '%' :: (w.1 ++ [ch]))
    (hch : ch.isDigit = false ∧ ch ≠ 'l' ∧ ch ≠ '*') (hst : ∀ st ∈ stores, st.Of str)
    (hs : 0 ≤ peek s) (hb : Behaves str s e (convert ⟨w.val, 0, false⟩ ch s)) :
    SafeIf str (Within s (e :: es)) (scanLoop nelt stores (formatOf (e :: es)) s) := by
  have hf : formatOf (e :: es) = '%' :: (w.1 ++ ch :: formatOf es) := by simp [formatOf, ht]
  rw [hf]
  exact ih.conv (modifiers_width w hch _) hst hs hb

/-- The step over white space, in the format and in the string. -/
theorem Scans.space (hspaces : ∀ nelt stores s, Reaches str s → (∀ st ∈ stores, st.Of str) →
      skipSpace s = s → SafeIf str (Within s es)
        (scanLoop nelt stores ((formatOf es).dropWhile fun c => isspace c.toNat) s))
    {c : Char} {hc : isspace c.toNat = true} (h : Reaches str s) (hst : ∀ st ∈ stores, st.Of str)
    (hs : 0 ≤ peek s) : SafeIf str (Within s (.space c hc :: es))
      (scanLoop nelt stores (formatOf (.space c hc :: es)) s) := by
  have hidem : skipSpace (skipSpace s) = skipSpace s := List.dropWhile_idempotent _ _
  have hi := hspaces nelt stores _ h.skipSpace hst hidem
  have hloop : scanLoop nelt stores (formatOf (.space c hc :: es)) s =
      scanLoop nelt stores ((formatOf es).dropWhile fun c => isspace c.toNat) (skipSpace s) := by
    change scanLoop nelt stores (c :: formatOf es) s = _
    rw [scanLoop, if_neg (not_lt.2 hs), if_pos hc]
  have hw : Within s (.space c hc :: es) ↔ Within (skipSpace s) es := by
    rw [within_cons hs]
    exact ⟨fun hp => hp.2 _ rfl, fun hp => ⟨trivial, fun t ht => Option.some.inj ht ▸ hp⟩⟩
  rw [hloop, SafeIf, hw]
  exact hi

/-- The step over a literal. -/
theorem Scans.lit (ih : Scans str es) {c : Char}
    {hc : isspace c.toNat = false ∧ c ≠ '%' ∧ c ≠ '\x00'} (h : Reaches str s)
    (hst : ∀ st ∈ stores, st.Of str) (hs : 0 ≤ peek s) :
    SafeIf str (Within s (.lit c hc :: es)) (scanLoop nelt stores (formatOf (.lit c hc :: es)) s) := by
  have hloop : scanLoop nelt stores (formatOf (.lit c hc :: es)) s =
      if peek s ≠ c.toNat then .ok ⟨err nelt, stores, s⟩
      else next s >>= fun s => scanLoop nelt stores (formatOf es) s := by
    change scanLoop nelt stores (c :: formatOf es) s = _
    rw [scanLoop, if_neg (not_lt.2 hs), if_neg (by rw [hc.1]; decide), if_pos hc.2.1]
  rw [hloop, SafeIf, within_cons hs, Elem.after]
  by_cases hcs : peek s = c.toNat
  · have h0 : peek s ≠ 0 := by
      rw [hcs]
      intro he
      exact hc.2.2 (Char.toNat_inj.1 (Int.ofNat.inj he))
    have hi := ih nelt stores _ (h.tail h0) hst
    rw [if_neg (not_not.2 hcs), next_eq h0, ok_bind, if_pos hcs]
    constructor
    · intro hp
      exact hi.1 (hp.2 _ rfl)
    · intro hn
      exact hi.2 fun hp => hn ⟨trivial, fun t ht => Option.some.inj ht ▸ hp⟩
  · rw [if_pos hcs, if_neg hcs]
    exact SafeIf.of_safe ⟨_, rfl, hst, h⟩ ⟨trivial, by simp⟩

/-- The step over an element other than white space. -/
theorem Scans.cons (ih : Scans str es) (he : ∀ c hc, e ≠ .space c hc) (h : Reaches str s)
    (hst : ∀ st ∈ stores, st.Of str) (hs : 0 ≤ peek s) :
    SafeIf str (Within s (e :: es)) (scanLoop nelt stores (formatOf (e :: es)) s) := by
  cases e with
  | space c hc => exact absurd rfl (he c hc)
  | lit c hc => exact ih.lit h hst hs
  | chars w => exact ih.field rfl (by decide) hst hs (chars_behaves w h)
  | word w => exact ih.field rfl (by decide) hst hs (word_behaves w h)
  | number w c => exact ih.field rfl (by cases c <;> decide) hst hs (number_behaves w c h)

/-- From every position in the string, and from one that is not at white space also with the white
space at the beginning of the format passed over. -/
theorem scans (str : List (BitVec 8)) (es : List Elem) :
    Scans str es ∧ ∀ nelt stores s, Reaches str s → (∀ st ∈ stores, st.Of str) →
      skipSpace s = s → SafeIf str (Within s es)
        (scanLoop nelt stores ((formatOf es).dropWhile fun c => isspace c.toNat) s) := by
  induction es with
  | nil =>
    have hnil : Scans str [] := fun nelt stores s h hst =>
      .of_safe ⟨_, scanLoop_nil, hst, h⟩ trivial
    exact ⟨hnil, fun nelt stores s h hst _ => hnil nelt stores s h hst⟩
  | cons e es ih =>
    obtain ⟨ih, ihs⟩ := ih
    have hneg {nelt stores s f} (h : Reaches str s) (hst : ∀ st ∈ stores, Store.Of str st)
        (hs : peek s < 0) : SafeIf str (Within s (e :: es)) (scanLoop nelt stores f s) :=
      .of_safe (safe_neg h hst hs f) (within_neg hs _)
    by_cases he : ∃ c hc, e = .space c hc
    · obtain ⟨c, hc, rfl⟩ := he
      constructor
      · intro nelt stores s h hst
        rcases lt_or_ge (peek s) 0 with hs | hs
        · exact hneg h hst hs
        · exact Scans.space ihs h hst hs
      · intro nelt stores s h hst hsp
        rcases lt_or_ge (peek s) 0 with hs | hs
        · exact hneg h hst hs
        · have hdrop : (formatOf (.space c hc :: es)).dropWhile (fun c => isspace c.toNat) =
              (formatOf es).dropWhile fun c => isspace c.toNat := List.dropWhile_cons_of_pos hc
          have hw : Within s (.space c hc :: es) ↔ Within s es := by
            rw [within_cons hs, Elem.after, hsp]
            exact ⟨fun hp => hp.2 _ rfl, fun hp => ⟨trivial, fun t ht => Option.some.inj ht ▸ hp⟩⟩
          rw [hdrop, SafeIf, hw]
          exact ihs nelt stores s h hst hsp
    · have hne : ∀ c hc, e ≠ .space c hc := fun c hc heq => he ⟨c, hc, heq⟩
      have hscan : Scans str (e :: es) := by
        intro nelt stores s h hst
        rcases lt_or_ge (peek s) 0 with hs | hs
        · exact hneg h hst hs
        · exact ih.cons hne h hst hs
      have hdrop : (formatOf (e :: es)).dropWhile (fun c => isspace c.toNat) = formatOf (e :: es) := by
        cases e with
        | space c hc => exact absurd rfl (hne c hc)
        | lit c hc => exact List.dropWhile_cons_of_neg (by rw [hc.1]; decide)
        | chars w | word w | number w c => rfl
      refine ⟨hscan, fun nelt stores s h hst _ => ?_⟩
      rw [hdrop]
      exact hscan nelt stores s h hst

/-- On every string and with every format of these elements the scan comes to its end without leaving
the string, the assertion of `sscanlook` does not fail, and only characters of the string are stored,
if and only if no `%c` and no `%s` that it reaches comes to the end of the string within its field
width. -/
theorem sscanf_safe_iff (es : List Elem) (str : List (BitVec 8)) :
    Safe str (vscanfmt (formatOf es) str) ↔ Within str es := by
  obtain ⟨hsafe, herr⟩ := (scans str es).1 0 [] str (.refl str) fun st hst =>
    absurd hst List.not_mem_nil
  constructor
  · rintro ⟨out, hout, -⟩
    by_contra hn
    have he := herr hn
    rw [vscanfmt, he] at hout
    cases hout
  · exact hsafe

/-- `sscanf("abc", "%s", buf)`. -/
theorem sscanf_word_end : vscanfmt "%s".toList (bytes "abc".toList) = .error .assertion := by
  have hf : "%s".toList = formatOf [.word ⟨[], fun d hd => absurd hd List.not_mem_nil⟩] := by decide
  rw [hf]
  exact ((scans _ _).1 0 [] _ (.refl _) fun st hst => absurd hst List.not_mem_nil).2
    (by decide)

end Determinator.Scanfmt
