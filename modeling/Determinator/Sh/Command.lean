import Determinator.User.Sh
import Mathlib.Data.List.Forall2
import Mathlib.Data.List.TakeWhile

/-!
# The tokens of a line, and the command they make up

What the lexer of the shell delivers and what `runcmd` does with it, for every line: the tokens are
those of the line (`tokens`), the loop ends, and the words are what they were in the line whenever
they are used (`At`, `Held`). A command is what its tokens say (`parse`), and where it runs a
program, all stores are in bounds if and only if it has at most 255 words, and its first word has at
most 1022 characters or begins with a slash (`Command.Fits`).
-/

namespace Determinator.Sh

/-! ## Tokens -/

/-- A token of a line. -/
inductive Token
  | word (w : List Char)
  | sym (c : Char)
  deriving DecidableEq

/-- The characters of words. -/
def isWord (c : Char) : Bool := c ∉ whitespace ++ symbols

theorem length_dropWhile_le (p : Char → Bool) (s : List Char) : (s.dropWhile p).length ≤ s.length :=
  (List.dropWhile_sublist p).length_le

/-- The words of a line, the longest possible ones, and its symbols. -/
def tokens : List Char → List Token
  | [] => []
  | c :: line =>
    if c ∈ whitespace then tokens line
    else if c ∈ symbols then .sym c :: tokens line
    else .word (c :: line.takeWhile isWord) :: tokens (line.dropWhile isWord)
termination_by line => line.length
decreasing_by
  · exact Nat.lt_succ_self _
  · exact Nat.lt_succ_self _
  · exact Nat.lt_succ_of_le (length_dropWhile_le _ _)

theorem tokens_length (line : List Char) : (tokens line).length ≤ line.length := by
  fun_induction tokens line with
  | case1 => exact Nat.le_refl _
  | case2 c line _ ih => exact Nat.le_trans ih (Nat.le_succ _)
  | case3 c line _ _ ih => exact Nat.succ_le_succ ih
  | case4 c line _ _ ih => exact Nat.succ_le_succ (Nat.le_trans ih (length_dropWhile_le _ _))

/-! ## The line while it is read -/

/-- What the lexer leaves of a character. -/
def blank (c : Char) : Char := if isWord c then c else '\x00'

/-- The memory of a line of which a part has been read. -/
def blanked (pre rest : List Char) : Mem := pre.map blank ++ (rest ++ ['\x00'])

variable {pre rest : List Char}

theorem at_blanked (pre : List Char) (c : Char) (rest : List Char) :
    (blanked pre (c :: rest)).at pre.length = c := by
  rw [Mem.at, blanked, List.getD_eq_getElem?_getD, List.getElem?_append_right (by simp)]
  simp

theorem at_blanked_nil (pre : List Char) : (blanked pre []).at pre.length = '\x00' := by
  rw [Mem.at, blanked, List.getD_eq_getElem?_getD, List.getElem?_append_right (by simp)]
  simp

/-- Reading over a character that is blanked. -/
theorem set_blanked (pre : List Char) {c : Char} (rest : List Char) (hc : isWord c = false) :
    (blanked pre (c :: rest)).set pre.length '\x00' = blanked (pre ++ [c]) rest := by
  rw [blanked, List.set_append_right _ _ (by simp)]
  simp [blanked, blank, hc]

/-- Reading over characters that stay. -/
theorem blanked_word (pre : List Char) {w : List Char} (rest : List Char)
    (hw : ∀ c ∈ w, isWord c) : blanked pre (w ++ rest) = blanked (pre ++ w) rest := by
  have h : w.map blank = w.map id := List.map_congr_left fun c hc => if_pos (hw c hc)
  rw [List.map_id] at h
  simp [blanked, h]

theorem isWord_of_whitespace {c : Char} (h : c ∈ whitespace) : isWord c = false := by
  simp [isWord, h]

theorem isWord_of_symbol {c : Char} (h : c ∈ symbols) : isWord c = false := by
  simp [isWord, h]

/-- White space is blanked. -/
theorem skip_blanked (pre : List Char) (hz : '\x00' ∉ rest) :
    ∃ sp rest', rest = sp ++ rest' ∧ tokens rest = tokens rest' ∧
      skip (blanked pre rest) pre.length = (blanked (pre ++ sp) rest', (pre ++ sp).length) ∧
      ∀ c ∈ rest'.head?, c ∉ whitespace := by
  induction rest generalizing pre with
  | nil =>
    refine ⟨[], [], rfl, rfl, ?_, fun _ hc => nomatch hc⟩
    rw [skip, dif_neg (by simp [at_blanked_nil]), List.append_nil]
  | cons c rest ih =>
    obtain ⟨hc0, hz⟩ := not_or.1 (List.mem_cons.not.1 hz)
    rw [skip, at_blanked]
    by_cases hc : c ∈ whitespace
    · rw [dif_pos ⟨Ne.symm hc0, hc⟩, set_blanked pre rest (isWord_of_whitespace hc)]
      obtain ⟨sp, rest', rfl, ht, hs, hh⟩ := ih (pre ++ [c]) hz
      refine ⟨c :: sp, rest', rfl, ?_, ?_, hh⟩
      · rw [tokens, if_pos hc, ht]
      · rw [List.length_append, List.length_singleton] at hs
        rw [hs]
        simp
    · refine ⟨[], c :: rest, rfl, rfl, ?_, ?_⟩
      · rw [dif_neg fun h => hc h.2, List.append_nil]
      · intro d hd
        rwa [← Option.some.inj hd]

/-- A word is read over. -/
theorem scan_blanked (pre : List Char) (hz : '\x00' ∉ rest) :
    scan (blanked pre rest) pre.length = (pre ++ rest.takeWhile isWord).length := by
  induction rest generalizing pre with
  | nil => rw [scan, dif_neg (by simp [at_blanked_nil]), List.takeWhile_nil, List.append_nil]
  | cons c rest ih =>
    obtain ⟨hc0, hz⟩ := not_or.1 (List.mem_cons.not.1 hz)
    rw [scan, at_blanked]
    by_cases hc : isWord c
    · have hw : c ∉ whitespace ++ symbols := by simpa [isWord] using hc
      have hb := blanked_word pre (w := [c]) rest (by simpa using hc)
      rw [List.singleton_append] at hb
      have hi := ih (pre ++ [c]) hz
      rw [List.length_append, List.length_singleton] at hi
      rw [dif_pos ⟨Ne.symm hc0, hw⟩, hb, hi, List.takeWhile_cons_of_pos hc]
      simp
    · have hw : ¬ c ∉ whitespace ++ symbols := by simpa [isWord] using hc
      rw [dif_neg fun h => hw h.2, List.takeWhile_cons_of_neg hc, List.append_nil]

/-! ## Words that are held -/

/-- A word of the line before the point up to which it is read, and the point is not its end unless
the line ends there. -/
structure Held (pre rest : List Char) (i : ℕ) (w : List Char) : Prop where
  word : ∀ c ∈ w, isWord c
  nul : '\x00' ∉ w
  place : ∃ a mid, pre = a ++ (w ++ mid) ∧ i = a.length ∧
    (mid = [] → rest = []) ∧ ∀ c ∈ mid.head?, isWord c = false

/-- The word stays where it is while more of the line is read. -/
theorem Held.append {chunk : List Char} {i : ℕ} {w : List Char} (h : Held pre (chunk ++ rest) i w) :
    Held (pre ++ chunk) rest i w := by
  obtain ⟨a, mid, rfl, hi, hnil, hhead⟩ := h.place
  refine ⟨h.word, h.nul, a, mid ++ chunk, by simp, hi, ?_, ?_⟩
  · intro hm
    obtain ⟨rfl, rfl⟩ := List.append_eq_nil_iff.1 hm
    exact hnil rfl
  · cases mid with
    | nil =>
      obtain ⟨rfl, -⟩ := List.append_eq_nil_iff.1 (hnil rfl)
      exact fun _ hc => nomatch hc
    | cons d mid => exact hhead

/-- A word that is held is the string at its position. -/
theorem Held.str {i : ℕ} {w : List Char} (h : Held pre rest i w) :
    (blanked pre rest).str i = w := by
  obtain ⟨a, mid, rfl, rfl, hnil, hhead⟩ := h.place
  have hw : w.map blank = w.map id := List.map_congr_left fun c hc => if_pos (h.word c hc)
  rw [List.map_id] at hw
  have hd : (blanked (a ++ (w ++ mid)) rest).drop a.length =
      w ++ (mid.map blank ++ (rest ++ ['\x00'])) := by
    rw [blanked, List.map_append, List.map_append, hw, List.append_assoc, List.append_assoc,
      List.drop_append_of_le_length (by simp)]
    simp
  have ht : (mid.map blank ++ (rest ++ ['\x00'])).takeWhile (· ≠ '\x00') = [] := by
    cases mid with
    | nil => simp [hnil rfl]
    | cons c mid =>
      have hc : blank c = '\x00' := if_neg (by simp [hhead c rfl])
      simp [hc]
  rw [Mem.str, hd, List.takeWhile_append_of_pos, ht, List.append_nil]
  intro c hc
  simpa using ne_of_mem_of_not_mem hc h.nul

/-! ## The lexer -/

/-- The lexer is one token ahead: what it has read, and what is left, with the tokens it is still to
deliver. -/
inductive At : Lexed → List Char → List Char → List Token → Prop
  | done {pre : List Char} {p1 : Option ℕ} : At ⟨'\x00', p1, none, blanked pre []⟩ pre [] []
  | sym {pre rest : List Char} {c : Char} {p1 : Option ℕ} : c ∈ symbols → '\x00' ∉ rest →
      At ⟨c, p1, some pre.length, blanked pre rest⟩ pre rest (.sym c :: tokens rest)
  | word {a w rest : List Char} : (∀ c ∈ w, isWord c) → '\x00' ∉ w → '\x00' ∉ rest →
      (∀ c ∈ rest.head?, isWord c = false) →
      At ⟨'w', some a.length, some (a ++ w).length, blanked (a ++ w) rest⟩ (a ++ w) rest
        (.word w :: tokens rest)

/-- `_gettoken` finds the next token. -/
theorem _gettoken_at (pre : List Char) (p1 p2 : Option ℕ) (hz : '\x00' ∉ rest) :
    ∃ chunk rest', rest = chunk ++ rest' ∧ (rest ≠ [] → chunk ≠ []) ∧
      At (_gettoken (blanked pre rest) (some pre.length) p1 p2) (pre ++ chunk) rest'
        (tokens rest) := by
  obtain ⟨sp, rest, rfl, ht, hs, hh⟩ := skip_blanked pre hz
  have hz' : '\x00' ∉ rest := fun h => hz (List.mem_append_right _ h)
  rw [ht, _gettoken, hs]
  cases rest with
  | nil =>
    refine ⟨sp, [], rfl, by simp, ?_⟩
    simp only [at_blanked_nil, ↓reduceIte, tokens]
    exact .done
  | cons c rest =>
    obtain ⟨hc0, hz''⟩ := not_or.1 (List.mem_cons.not.1 hz')
    have hcw : c ∉ whitespace := hh c rfl
    simp only [at_blanked, Ne.symm hc0, ↓reduceIte]
    by_cases hc : c ∈ symbols
    · refine ⟨sp ++ [c], rest, by simp, by simp, ?_⟩
      rw [tokens, if_neg hcw, if_pos hc, if_pos hc, set_blanked _ rest (isWord_of_symbol hc),
        ← List.append_assoc]
      have hl : (pre ++ sp).length + 1 = (pre ++ sp ++ [c]).length := by
        simp only [List.length_append, List.length_singleton]
      rw [hl]
      exact .sym hc hz''
    · have hword : isWord c := by simp [isWord, hcw, hc]
      refine ⟨sp ++ (c :: rest.takeWhile isWord), rest.dropWhile isWord, by simp, by simp, ?_⟩
      rw [tokens, if_neg hcw, if_neg hc, if_neg hc, scan_blanked _ hz',
        List.takeWhile_cons_of_pos hword, ← List.append_assoc]
      have hw : ∀ d ∈ c :: rest.takeWhile isWord, isWord d := by
        intro d hd
        rcases List.mem_cons.1 hd with rfl | hd
        · exact hword
        · exact List.mem_takeWhile_imp hd
      have hb := blanked_word (pre ++ sp) (rest.dropWhile isWord) hw
      rw [List.cons_append, List.takeWhile_append_dropWhile] at hb
      rw [hb]
      apply At.word hw
      · exact fun hm => hz' (List.cons_subset_cons c (List.takeWhile_sublist _).subset hm)
      · exact fun hm => hz'' ((List.dropWhile_sublist _).subset hm)
      · intro d hd
        have hn := List.head?_dropWhile_not isWord rest
        rw [hd] at hn
        simpa using hn

theorem At.mem {n : Lexed} {toks : List Token} (h : At n pre rest toks) :
    n.mem = blanked pre rest := by
  cases h <;> rfl

/-- A token that was found is delivered, and a word is held from then on. -/
theorem At.gettoken {n : Lexed} {tok : Token} {toks : List Token} (h : At n pre rest (tok :: toks)) :
    ∃ p n' chunk rest', rest = chunk ++ rest' ∧ At n' (pre ++ chunk) rest' toks ∧
      match tok with
      | .word w => Sh.gettoken n = ('w', p, n') ∧ ∃ i, p = some i ∧ Held (pre ++ chunk) rest' i w
      | .sym c => Sh.gettoken n = (c, p, n') ∧ c ∈ symbols := by
  cases h with
  | @sym _ _ c p1 hc hz =>
    obtain ⟨chunk, rest', rfl, -, h'⟩ := _gettoken_at pre p1 (some pre.length) hz
    exact ⟨_, _, chunk, rest', rfl, h', rfl, hc⟩
  | @word a w _ hw hw0 hz hh =>
    obtain ⟨chunk, rest', rfl, hne, h'⟩ :=
      _gettoken_at (a ++ w) (some a.length) (some (a ++ w).length) hz
    refine ⟨_, _, chunk, rest', rfl, h', rfl, _, rfl, hw, hw0, a, chunk, by simp, rfl, ?_, ?_⟩
    · rintro rfl
      by_contra hr
      exact hne (by simpa using hr) rfl
    · cases chunk with
      | nil => exact fun _ hc => nomatch hc
      | cons d chunk => exact hh

/-- At the end of the line. -/
theorem At.gettoken_nil {n : Lexed} (h : At n pre rest []) :
    (Sh.gettoken n).1 = '\x00' ∧ (Sh.gettoken n).2.2.mem = blanked pre rest := by
  cases h
  exact ⟨rfl, rfl⟩

/-- The first token of a line. -/
theorem gettokenStart_at {line : List Char} (hz : '\x00' ∉ line) :
    ∃ pre rest, At (gettokenStart line) pre rest (tokens line) := by
  obtain ⟨chunk, rest, -, -, h⟩ := _gettoken_at [] none none hz
  exact ⟨_, _, h⟩

/-- The tokens that `gettoken` delivers until the end of the line, for some number of calls; a word
is read when it is delivered. -/
def deliver : ℕ → Lexed → List Token
  | 0, _ => []
  | calls + 1, n =>
    let (c, p, n) := gettoken n
    if c = '\x00' then []
    else (if c = 'w' then .word ((p.map n.mem.str).getD []) else .sym c) :: deliver calls n

/-- Symbols are neither zeros nor taken for words. -/
theorem symbol_ne {c : Char} (h : c ∈ symbols) : c ≠ '\x00' ∧ c ≠ 'w' := by
  constructor <;> rintro rfl <;> exact absurd h (by decide)

theorem At.deliver {n : Lexed} {toks : List Token} (h : At n pre rest toks) {calls : ℕ}
    (hc : toks.length < calls) : Sh.deliver calls n = toks := by
  induction toks generalizing n pre rest calls with
  | nil =>
    cases calls with
    | zero => rfl
    | succ calls =>
      rw [Sh.deliver]
      exact if_pos h.gettoken_nil.1
  | cons tok toks ih =>
    cases calls with
    | zero => exact absurd hc (Nat.not_lt_zero _)
    | succ calls =>
      obtain ⟨p, n', chunk, rest', rfl, h', hm⟩ := h.gettoken
      have hd := ih h' (Nat.lt_of_succ_lt_succ hc)
      cases tok with
      | word w =>
        obtain ⟨hg, i, rfl, hheld⟩ := hm
        simp only [Sh.deliver, hg, hd, h'.mem, Option.map_some, Option.getD_some, hheld.str]
        rfl
      | sym c =>
        obtain ⟨hg, hs⟩ := hm
        obtain ⟨h0, hw⟩ := symbol_ne hs
        simp only [Sh.deliver, hg, hd, if_neg h0, if_neg hw]

/-! ## Commands -/

/-- What the tokens of a line say: an error, or a program with its arguments after the
redirections. -/
inductive Command
  | exit
  | panic
  | run (reds : List Redirect) (args : List (List Char))

variable (opens : List Redirect → Bool)

/-- The command that tokens make up, after these redirections and arguments. -/
def parse (reds : List Redirect) (args : List (List Char)) : List Token → Command
  | [] => .run reds args
  | .word w :: toks => if args.length = maxargs then .exit else parse reds (args ++ [w]) toks
  | [.sym c] => if c = '<' ∨ c = '>' then .exit else .panic
  | .sym c :: .sym _ :: _ => if c = '<' ∨ c = '>' then .exit else .panic
  | .sym c :: .word w :: toks =>
    if c = '<' ∨ c = '>' then
      if opens (reds ++ [⟨c = '>', w⟩]) then parse (reds ++ [⟨c = '>', w⟩]) args toks else .exit
    else .panic

/-- An initial slash is added to the name of the program. -/
def slash (w : List Char) : List Char := if w.head? = some '/' then w else '/' :: w

/-- How a command ends. -/
def Command.outcome : Command → Outcome
  | exit => .exit false
  | panic => .panic
  | run _ [] => .exit true
  | run reds (w :: ws) => .execv reds (slash w :: ws)

/-- A command that is run has at most 255 words, and its first word begins with a slash or has at
most 1022 characters. -/
def Command.Fits : Command → Prop
  | run _ (w :: ws) => (w :: ws).length ≤ 255 ∧ (w.head? = some '/' ∨ w.length ≤ 1022)
  | _ => True

/-- The outcome of a command, with what goes out of bounds. -/
def Command.Ends (c : Command) (o : Outcome) : Prop :=
  (o ≠ .fault ↔ c.Fits) ∧ (c.Fits → o = c.outcome)

/-- The arguments are held where the pointers point. -/
def Args (pre rest : List Char) (argv : List (Option ℕ)) (args : List (List Char)) : Prop :=
  List.Forall₂ (fun p w => ∃ i, p = some i ∧ Held pre rest i w) argv args

variable {opens} {argv : List (Option ℕ)} {args : List (List Char)} {reds : List Redirect}

theorem Args.append {chunk : List Char} (h : Args pre (chunk ++ rest) argv args) :
    Args (pre ++ chunk) rest argv args :=
  h.imp fun _ _ ⟨i, hp, hw⟩ => ⟨i, hp, hw.append⟩

theorem Args.concat (h : Args pre rest argv args) {i : ℕ} {w : List Char} (hw : Held pre rest i w) :
    Args pre rest (argv ++ [some i]) (args ++ [w]) :=
  List.rel_append h (.cons ⟨i, rfl, hw⟩ .nil)

/-- What is read through the pointers. -/
theorem Args.map_str (h : Args pre rest argv args) :
    argv.map (fun p => (p.map (blanked pre rest).str).getD []) = args := by
  induction h with
  | nil => rfl
  | cons hp _ ih =>
    obtain ⟨i, rfl, hw⟩ := hp
    rw [List.map_cons, ih, Option.map_some, Option.getD_some, hw.str]

/-- The end of a command. -/
theorem Args.runit (h : Args pre rest argv args) :
    (Command.run reds args).Ends (Sh.runit (blanked pre rest) reds argv) := by
  cases h with
  | nil => exact ⟨⟨fun _ => trivial, fun _ => by simp [Sh.runit]⟩, fun _ => rfl⟩
  | @cons p w ps ws hp hps =>
    obtain ⟨i, rfl, hw⟩ := hp
    have hm : ps.map (fun p => (p.map (blanked pre rest).str).getD []) = ws := Args.map_str hps
    have hl : ps.length = ws.length := hps.length_eq
    simp only [Command.Ends, Sh.runit, Command.Fits, Command.outcome, Option.map_some,
      Option.getD_some, hw.str, hm, hl, slash, List.length_cons, maxargs, bufsiz]
    by_cases hs : w.head? = some '/'
    · by_cases ha : ws.length + 1 < 256
      · simp [hs, ha, Nat.le_of_lt_succ ha]
      · have ha' : ¬ ws.length + 1 ≤ 255 := by omega
        simp [hs, ha, ha']
    · by_cases hb : w.length + 2 ≤ 1024
      · have hb' : w.length ≤ 1022 := by omega
        by_cases ha : ws.length + 1 < 256
        · simp [hs, ha, hb, hb', Nat.le_of_lt_succ ha]
        · have ha' : ¬ ws.length + 1 ≤ 255 := by omega
          simp [hs, ha, ha', hb]
      · have hb' : ¬ w.length ≤ 1022 := by omega
        simp [hs, hb, hb']

/-- An outcome is determined by the command. -/
theorem Command.Ends.unique {c : Command} {o o' : Outcome} (h : c.Ends o) (h' : c.Ends o') :
    o = o' := by
  by_cases hf : c.Fits
  · rw [h.2 hf, h'.2 hf]
  · have h1 : o = .fault := not_ne_iff.1 fun hn => hf (h.1.1 hn)
    have h2 : o' = .fault := not_ne_iff.1 fun hn => hf (h'.1.1 hn)
    rw [h1, h2]

theorem Command.ends_exit : exit.Ends (.exit false) :=
  ⟨⟨fun _ => trivial, fun _ => by decide⟩, fun _ => rfl⟩

theorem Command.ends_panic : panic.Ends .panic :=
  ⟨⟨fun _ => trivial, fun _ => by decide⟩, fun _ => rfl⟩

/-- The loop ends, and with the outcome of the command that the tokens make up. -/
theorem At.loop {turns : ℕ} {n : Lexed} {toks : List Token} (h : At n pre rest toks)
    (ha : Args pre rest argv args) (hl : args.length ≤ maxargs) (ht : toks.length < turns) :
    ∃ o, Sh.loop opens turns n reds argv = some o ∧ (parse opens reds args toks).Ends o := by
  have hlen : argv.length = args.length := ha.length_eq
  induction turns generalizing n pre rest toks argv args reds with
  | zero => exact absurd ht (Nat.not_lt_zero _)
  | succ turns ih =>
    cases toks with
    | nil =>
      obtain ⟨h0, hm⟩ := h.gettoken_nil
      refine ⟨Sh.runit (blanked pre rest) reds argv, ?_, ha.runit⟩
      simp [Sh.loop, h0, hm]
    | cons tok toks =>
      obtain ⟨p, n', chunk, rest', rfl, h', hm⟩ := h.gettoken
      have ha' := ha.append
      cases tok with
      | word w =>
        obtain ⟨hg, i, rfl, hw⟩ := hm
        simp only [Sh.loop, hg, ↓reduceIte, hlen, parse]
        by_cases hmax : args.length = maxargs
        · rw [if_pos hmax, if_pos hmax]
          exact ⟨_, rfl, Command.ends_exit⟩
        · rw [if_neg hmax, if_neg hmax, if_pos (by omega)]
          refine ih h' (ha'.concat hw) ?_ (Nat.lt_of_succ_lt_succ ht) ?_
          · rw [List.length_append, List.length_singleton]
            omega
          · rw [List.length_append, List.length_append, hlen]
            rfl
      | sym c =>
        obtain ⟨hg, hs⟩ := hm
        obtain ⟨h0, hw⟩ := symbol_ne hs
        simp only [Sh.loop, hg, if_neg hw, if_neg h0]
        by_cases hc : c = '<' ∨ c = '>'
        · rw [if_pos hc]
          -- the token after the symbol
          cases toks with
          | nil =>
            obtain ⟨h1, -⟩ := h'.gettoken_nil
            rw [if_pos (by rw [h1]; decide), parse, if_pos hc]
            exact ⟨_, rfl, Command.ends_exit⟩
          | cons tok toks =>
            obtain ⟨p₂, n₂, chunk₂, rest₂, rfl, h₂, hm₂⟩ := h'.gettoken
            cases tok with
            | sym c₂ =>
              obtain ⟨hg₂, hs₂⟩ := hm₂
              rw [hg₂, if_pos (symbol_ne hs₂).2, parse, if_pos hc]
              exact ⟨_, rfl, Command.ends_exit⟩
            | word w =>
              obtain ⟨hg₂, i, rfl, hw₂⟩ := hm₂
              have hstr := hw₂.str
              rw [← h₂.mem] at hstr
              simp only [hg₂, ne_eq, not_true_eq_false, ↓reduceIte, Option.map_some,
                Option.getD_some, hstr, parse, if_pos hc]
              by_cases ho : opens (reds ++ [⟨c = '>', w⟩])
              · rw [if_pos ho, if_pos ho]
                refine ih h₂ ha'.append hl ?_ hlen
                simp only [List.length_cons] at ht
                omega
              · rw [if_neg ho, if_neg ho]
                exact ⟨_, rfl, Command.ends_exit⟩
        · rw [if_neg hc]
          have hp : parse opens reds args (.sym c :: toks) = .panic := by
            cases toks with
            | nil => rw [parse, if_neg hc]
            | cons tok toks => cases tok <;> rw [parse, if_neg hc]
          rw [hp]
          exact ⟨_, rfl, Command.ends_panic⟩

/-! ## Lines -/

/-- What `readline` returns: at most 1023 characters, none of them below a space. -/
theorem readline_some {buf input line : List Char} (h : readline buf input = some line)
    (hl : buf.length ≤ 1023) (hb : ∀ c ∈ buf, ' ' ≤ c) :
    line.length ≤ 1023 ∧ ∀ c ∈ line, ' ' ≤ c := by
  induction input generalizing buf with
  | nil => exact nomatch h
  | cons c input ih =>
    rw [readline] at h
    split_ifs at h with h1 h2 h3
    · refine ih h ?_ fun d hd => hb d ((List.dropLast_sublist _).subset hd)
      rw [List.length_dropLast]
      omega
    · refine ih h ?_ ?_
      · have := h2.2
        rw [List.length_append, List.length_singleton]
        simp only [buflen] at this
        omega
      · intro d hd
        rcases List.mem_append.1 hd with hd | hd
        · exact hb d hd
        · rw [List.mem_singleton.1 hd]
          exact h2.1
    · obtain rfl := Option.some.inj h
      exact ⟨hl, hb⟩
    · exact ih h hl hb

/-- For every line that `readline` returns, the lexer delivers the tokens of the line, the loop of
`runcmd` ends, and all stores are in bounds if and only if the command fits; then the outcome is that
of the command, with its words as they are in the line. -/
theorem runcmd_fits_iff (opens : List Redirect → Bool) (input line : List Char)
    (h : readline [] input = some line) :
    (∀ calls, 1024 ≤ calls → deliver calls (gettokenStart line) = tokens line) ∧
      ∃ o, (∀ turns, 1024 ≤ turns → runcmd opens turns line = some o) ∧
        (o ≠ .fault ↔ (parse opens [] [] (tokens line)).Fits) ∧
        ((parse opens [] [] (tokens line)).Fits →
          o = (parse opens [] [] (tokens line)).outcome) := by
  obtain ⟨hl, hc⟩ := readline_some h (by decide) fun _ hc => nomatch hc
  have hz : '\x00' ∉ line := fun hm => absurd (hc _ hm) (by decide)
  obtain ⟨pre, rest, hat⟩ := gettokenStart_at hz
  have ht := tokens_length line
  refine ⟨fun calls hcalls => hat.deliver (by omega), ?_⟩
  have hrun {turns : ℕ} (hturns : 1024 ≤ turns) :
      ∃ o, runcmd opens turns line = some o ∧ (parse opens [] [] (tokens line)).Ends o :=
    hat.loop (.nil : Args pre rest [] []) (by decide) (by omega)
  obtain ⟨o, ho, hends⟩ := hrun (le_refl 1024)
  refine ⟨o, fun turns hturns => ?_, hends⟩
  obtain ⟨o', ho', hends'⟩ := hrun hturns
  rw [hends.unique hends']
  exact ho'

/-- A command with a redirection. -/
theorem runcmd_redirect :
    ∃ o, ∀ turns, 1024 ≤ turns → runcmd (fun _ => true) turns "cat <a b".toList = some o :=
  (runcmd_fits_iff (fun _ => true) "cat <a b\n".toList _ (by decide)).2.imp fun _ h => h.1

/-! ## Lines at the limits -/

/-- A line is stored as it is typed. -/
theorem readline_line {buf line : List Char} (hl : ∀ c ∈ line, ' ' ≤ c ∧ c ≠ '\x7f')
    (hn : buf.length + line.length ≤ 1023) : readline buf (line ++ ['\n']) = some (buf ++ line) := by
  induction line generalizing buf with
  | nil => simp [readline]
  | cons c line ih =>
    have hc := hl c List.mem_cons_self
    have h8 : c ≠ '\x08' := fun he => absurd (he ▸ hc.1) (by decide)
    rw [List.length_cons] at hn
    rw [List.cons_append, readline, if_neg (by simp [h8, hc.2]), if_pos ⟨hc.1, by
      rw [buflen]
      omega⟩, ih (fun d hd => hl d (List.mem_cons_of_mem _ hd)) (by simp; omega)]
    simp

/-- From an empty buffer. -/
theorem readline_whole {line : List Char} (hl : ∀ c ∈ line, ' ' ≤ c ∧ c ≠ '\x7f')
    (hn : line.length ≤ 1023) : readline [] (line ++ ['\n']) = some line :=
  readline_line hl (by rwa [List.length_nil, Nat.zero_add])

/-- One word. -/
theorem tokens_word {c : Char} {w : List Char} (hw : ∀ d ∈ c :: w, isWord d) :
    tokens (c :: w) = [.word (c :: w)] := by
  have hc : c ∉ whitespace ++ symbols := by simpa [isWord] using hw c List.mem_cons_self
  have hw' : ∀ d ∈ w, isWord d := fun d hd => hw d (List.mem_cons_of_mem _ hd)
  rw [List.mem_append, not_or] at hc
  rw [tokens, if_neg hc.1, if_neg hc.2, List.takeWhile_eq_self_iff.2 hw',
    List.dropWhile_eq_nil_iff.2 hw', tokens]

/-- A number of words of one character. -/
theorem tokens_words (k : ℕ) :
    tokens (List.replicate k ['a', ' ']).flatten = List.replicate k (.word ['a']) := by
  induction k with
  | zero => rw [List.replicate_zero, List.replicate_zero, List.flatten_nil, tokens]
  | succ k ih =>
    rw [List.replicate_succ, List.replicate_succ, List.flatten_cons, List.cons_append, tokens,
      if_neg (by decide), if_neg (by decide)]
    have h1 : isWord ' ' = false := by decide
    simp only [List.singleton_append, List.takeWhile_cons, List.dropWhile_cons, h1,
      Bool.false_eq_true, ↓reduceIte]
    rw [tokens, if_pos (by decide), ih]

theorem length_words (k : ℕ) : (List.replicate k ['a', ' ']).flatten.length = 2 * k := by
  induction k with
  | zero => rfl
  | succ k ih =>
    rw [List.replicate_succ, List.flatten_cons, List.length_append, ih, Nat.mul_succ, Nat.add_comm]
    rfl

theorem parse_words (opens : List Redirect → Bool) (reds : List Redirect) (args : List (List Char))
    (w : List Char) {k : ℕ} (hk : args.length + k ≤ maxargs) :
    parse opens reds args (List.replicate k (.word w)) = .run reds (args ++ List.replicate k w) := by
  induction k generalizing args with
  | zero => rw [List.replicate_zero, parse, List.replicate_zero, List.append_nil]
  | succ k ih =>
    rw [List.replicate_succ, parse, if_neg (by omega), ih _ (by simp; omega)]
    simp [List.replicate_succ]

/-- A line whose command does not fit. -/
theorem runcmd_fault {opens : List Redirect → Bool} {line : List Char} (hz : '\x00' ∉ line)
    (hf : ¬ (parse opens [] [] (tokens line)).Fits) {turns : ℕ} (ht : line.length < turns) :
    runcmd opens turns line = some .fault := by
  obtain ⟨pre, rest, hat⟩ := gettokenStart_at hz
  have hrun : ∃ o, runcmd opens turns line = some o ∧ (parse opens [] [] (tokens line)).Ends o :=
    hat.loop (.nil : Args pre rest [] []) (by decide) (lt_of_le_of_lt (tokens_length line) ht)
  obtain ⟨o, ho, hends⟩ := hrun
  rw [← not_ne_iff.1 fun hn => hf (hends.1.1 hn)]
  exact ho

/-- A word of 1023 characters, and 256 words of one. -/
theorem runcmd_overflow :
    (readline [] (List.replicate 1023 'a' ++ ['\n']) = some (List.replicate 1023 'a') ∧
      runcmd (fun _ => true) 1024 (List.replicate 1023 'a') = some .fault) ∧
    readline [] ((List.replicate 256 ['a', ' ']).flatten ++ ['\n']) =
        some (List.replicate 256 ['a', ' ']).flatten ∧
      runcmd (fun _ => true) 1024 (List.replicate 256 ['a', ' ']).flatten = some .fault := by
  have ha : ∀ c ∈ List.replicate 1023 'a', c = 'a' := fun c hc => List.eq_of_mem_replicate hc
  have hla : (List.replicate 1023 'a').length = 1023 := List.length_replicate
  have hb : ∀ c ∈ (List.replicate 256 ['a', ' ']).flatten, c = 'a' ∨ c = ' ' := by
    intro c hc
    obtain ⟨l, hl, hc⟩ := List.mem_flatten.1 hc
    rw [List.eq_of_mem_replicate hl] at hc
    simpa using hc
  have hlb : (List.replicate 256 ['a', ' ']).flatten.length = 512 := length_words 256
  refine ⟨⟨readline_whole ?_ hla.le, runcmd_fault ?_ ?_ ?_⟩,
    readline_whole ?_ ?_, runcmd_fault ?_ ?_ ?_⟩
  · intro c hc
    rw [ha c hc]
    decide
  · exact fun hm => absurd (ha _ hm) (by decide)
  · rw [List.replicate_succ, tokens_word, parse, if_neg (by decide), parse]
    · rintro ⟨-, hs | hs⟩
      · exact absurd hs (by decide)
      · rw [List.length_cons, List.length_replicate] at hs
        omega
    · exact fun c hc => (ha c hc).symm ▸ (by decide)
  · rw [hla]
    decide
  · intro c hc
    rcases hb c hc with rfl | rfl <;> decide
  · rw [hlb]
    decide
  · intro hm
    rcases hb _ hm with h | h <;> exact absurd h (by decide)
  · rw [tokens_words, parse_words _ _ _ _ (by decide), List.nil_append]
    intro hf
    rw [List.replicate_succ] at hf
    have hn := hf.1
    rw [List.length_cons, List.length_replicate] at hn
    omega
  · rw [hlb]
    decide

end Determinator.Sh
