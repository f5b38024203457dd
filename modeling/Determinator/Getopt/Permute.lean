import Determinator.User.Getopt
import Determinator.Lib.Interleave
import Determinator.Lib.Except
import Mathlib.Data.List.Lemmas

/-!
# The order in which `getopt` leaves the words

The words behind the first are options, separate arguments of options and other words (`parse`).
Each call moves the first option that is left, with its separate argument, behind those that are in
front already (`Inv.getopt_cons`), so that the other words come last when no option is left. The
letter of an option that is found good is the result, as a signed character; 0xff is -1, the result
that says that no option is left. So the calls do what they should if no such option has another one
behind it, and only then (`getopt_permutes_iff`).
-/

namespace Determinator.Getopt

/-! ## Options -/

/-- The letter of an option; zero if it has none. -/
def letter (w : Word) : BitVec 8 := w.chars[1]?.getD 0

/-- The option string from the letter of an option on. -/
def declaration (optstring : List (BitVec 8)) (w : Word) : Option (List (BitVec 8)) :=
  if letter w = 0 then none else strchr optstring (letter w)

/-- An option that takes an argument has a colon behind its letter. -/
def takesArgument (optstring : List (BitVec 8)) (w : Word) : Bool :=
  match declaration optstring w with
  | some (_ :: c :: _) => c = char ':'
  | _ => false

/-- Two colons, if it must be in the same word. -/
def takesAttached (optstring : List (BitVec 8)) (w : Word) : Bool :=
  match declaration optstring w with
  | some (_ :: _ :: c :: _) => c = char ':'
  | _ => false

/-- There is an argument in the word of the option. -/
def attached (w : Word) : Bool := w.chars[2]?.getD 0 ≠ 0

/-- The next word, if there is one, is the argument of the option. -/
def takesNext (optstring : List (BitVec 8)) (w : Word) : Bool :=
  takesArgument optstring w ∧ ¬ attached w ∧ ¬ takesAttached optstring w

/-- An option and its separate argument. -/
structure Entry where
  option : Word
  argument : Option Word
  deriving DecidableEq

def Entry.words (e : Entry) : List Word := e.option :: e.argument.toList

/-- An option of `optstring`, with an argument if it takes one. -/
def Entry.Good (optstring : List (BitVec 8)) (e : Entry) : Prop :=
  (declaration optstring e.option).isSome ∧
    (takesArgument optstring e.option → attached e.option ∨ e.argument.isSome)

instance (optstring : List (BitVec 8)) (e : Entry) : Decidable (e.Good optstring) :=
  inferInstanceAs (Decidable (_ ∧ (_ → _)))

/-- The options among some words, and the words that are not part of one. -/
def parse (optstring : List (BitVec 8)) : List Word → List Entry × List Word
  | [] => ([], [])
  | w :: ws =>
    if isOption w then
      if takesNext optstring w then
        match ws with
        | [] => ([⟨w, none⟩], [])
        | a :: ws => (⟨w, some a⟩ :: (parse optstring ws).1, (parse optstring ws).2)
      else (⟨w, none⟩ :: (parse optstring ws).1, (parse optstring ws).2)
    else ((parse optstring ws).1, w :: (parse optstring ws).2)

/-- The words of some options. -/
def optionWords (es : List Entry) : List Word := es.flatMap Entry.words

variable {optstring : List (BitVec 8)} {w : Word} {ws pre post : List Word} {e : Entry}
  {es : List Entry}

@[simp] theorem optionWords_nil : optionWords [] = [] := rfl

@[simp] theorem optionWords_cons : optionWords (e :: es) = e.words ++ optionWords es := rfl

theorem parse_cons_word (h : isOption w = false) :
    parse optstring (w :: ws) = ((parse optstring ws).1, w :: (parse optstring ws).2) := by
  cases ws <;> simp [parse, h]

/-- An option has the next word as its argument if it takes it and there is one. -/
theorem parse_cons_option (h : isOption w = true) :
    parse optstring (w :: ws) =
      if takesNext optstring w then
        (⟨w, ws.head?⟩ :: (parse optstring ws.tail).1, (parse optstring ws.tail).2)
      else (⟨w, none⟩ :: (parse optstring ws).1, (parse optstring ws).2) := by
  cases ws <;> simp [parse, h]

theorem parse_append (h : ∀ w ∈ pre, isOption w = false) :
    parse optstring (pre ++ ws) = ((parse optstring ws).1, pre ++ (parse optstring ws).2) := by
  induction pre with
  | nil => rfl
  | cons w pre ih =>
    have hw : isOption w = false := h w List.mem_cons_self
    rw [List.cons_append, parse_cons_word hw, ih fun v hv => h v (List.mem_cons_of_mem w hv)]
    rfl

/-- Where the first option is. -/
theorem exists_option (h : (parse optstring ws).1 = e :: es) :
    ∃ pre post, ws = pre ++ (e.words ++ post) ∧ (∀ w ∈ pre, isOption w = false) ∧
      isOption e.option = true ∧
      e.argument =
        (if takesNext optstring e.option then (e.argument.toList ++ post).head? else none) ∧
      (parse optstring post).1 = es ∧
      (parse optstring ws).2 = pre ++ (parse optstring post).2 := by
  induction ws with
  | nil => cases h
  | cons w ws ih =>
    cases hw : isOption w with
    | false =>
      rw [parse_cons_word hw] at h
      obtain ⟨pre, post, hws, hpre, ho, ha, hes, hothers⟩ := ih h
      refine ⟨w :: pre, post, ?_, ?_, ho, ha, hes, ?_⟩
      · rw [hws, List.cons_append]
      · exact List.forall_mem_cons.2 ⟨hw, hpre⟩
      · rw [parse_cons_word hw, hothers, List.cons_append]
    | true =>
      rw [parse_cons_option hw] at h ⊢
      cases ht : takesNext optstring w with
      | false =>
        rw [ht, if_neg Bool.false_ne_true] at h
        rw [if_neg Bool.false_ne_true]
        obtain ⟨rfl, rfl⟩ := List.cons.inj h
        exact ⟨[], ws, rfl, by simp, hw, by rw [ht]; rfl, rfl, rfl⟩
      | true =>
        rw [ht, if_pos rfl] at h
        rw [if_pos rfl]
        obtain ⟨rfl, rfl⟩ := List.cons.inj h
        refine ⟨[], ws.tail, ?_, by simp, hw, ?_, rfl, rfl⟩
        · cases ws <;> rfl
        · rw [if_pos ht]
          cases ws <;> rfl

theorem parse_nil (h : (parse optstring ws).1 = []) :
    (∀ w ∈ ws, isOption w = false) ∧ (parse optstring ws).2 = ws := by
  induction ws with
  | nil => exact ⟨by simp, rfl⟩
  | cons w ws ih =>
    cases hw : isOption w with
    | false =>
      rw [parse_cons_word hw] at h ⊢
      obtain ⟨hws, hothers⟩ := ih h
      exact ⟨List.forall_mem_cons.2 ⟨hw, hws⟩, congrArg (w :: ·) hothers⟩
    | true =>
      rw [parse_cons_option hw] at h
      split_ifs at h

/-- The options and the other words, put together again. -/
theorem interleaving_parse (optstring : List (BitVec 8)) (ws : List Word) :
    Interleaving (optionWords (parse optstring ws).1) (parse optstring ws).2 ws := by
  generalize hes : (parse optstring ws).1 = es
  induction es generalizing ws with
  | nil =>
    rw [(parse_nil hes).2]
    exact .of_right ws
  | cons e es ih =>
    obtain ⟨pre, post, rfl, -, -, -, hpost, hothers⟩ := exists_option hes
    rw [hothers]
    exact (Interleaving.of_right pre).append ((Interleaving.of_left e.words).append (ih post hpost))

theorem not_isOption_of_mem (h : w ∈ (parse optstring ws).2) : isOption w = false := by
  generalize hes : (parse optstring ws).1 = es
  induction es generalizing ws with
  | nil =>
    obtain ⟨hws, hothers⟩ := parse_nil hes
    rw [hothers] at h
    exact hws w h
  | cons e es ih =>
    obtain ⟨pre, post, -, hpre, -, -, hpost, hothers⟩ := exists_option hes
    rw [hothers] at h
    rcases List.mem_append.1 h with hw | hw
    · exact hpre w hw
    · exact ih hw hpost

/-! ## Looking at an option -/

theorem charAt_eq {s : List (BitVec 8)} {i : ℕ} (h : i ≤ s.length) :
    charAt s i = some (s[i]?.getD 0) := by
  unfold charAt
  split_ifs with hi
  · rw [hi, List.getElem?_eq_none le_rfl]
    rfl
  · rw [List.getElem?_eq_getElem (by omega)]
    rfl

theorem length_of_isOption (h : isOption w = true) : 0 < w.chars.length := by
  cases hw : w.chars with
  | nil =>
    rw [isOption, hw] at h
    cases h
  | cons => exact Nat.succ_pos _

theorem length_of_letter (h : letter w ≠ 0) : 1 < w.chars.length := by
  by_contra hlen
  rw [letter, List.getElem?_eq_none (by omega)] at h
  exact h rfl

theorem strchr_eq_some {s m : List (BitVec 8)} {c : BitVec 8} (hc : c ≠ 0)
    (h : strchr s c = some m) : ∃ t, m = c :: t := by
  induction s with
  | nil => rw [strchr, if_neg hc] at h; cases h
  | cons a s ih =>
    rw [strchr] at h
    split_ifs at h with hac
    · exact ⟨s, by rw [← hac]; exact (Option.some.inj h).symm⟩
    · exact ih h

/-- An option is looked at within bounds, and what is found out is how it reads. -/
theorem classify_eq {argv rest : List Word} {cur : ℕ} (hw : isOption w = true)
    (hrest : argv.drop (cur + 1) = rest)
    (he : e = ⟨w, if takesNext optstring w then rest.head? else none⟩) :
    ∃ found, classify optstring argv cur w = some found ∧
      found.twoStrings = e.argument.isSome ∧ (found.status = .good ↔ e.Good optstring) := by
  have h1 : charAt w.chars 1 = some (letter w) := charAt_eq (length_of_isOption hw)
  rw [he, classify, h1, Option.bind_eq_bind, Option.bind_some]
  by_cases hl : letter w = 0
  · have hd : declaration optstring w = none := if_pos hl
    rw [if_pos hl]
    exact ⟨_, rfl, by simp [takesNext, takesArgument, hd], by simp [Entry.Good, hd]⟩
  rw [if_neg hl]
  have hd : declaration optstring w = strchr optstring (letter w) := if_neg hl
  cases hm : strchr optstring (letter w) with
  | none =>
    rw [hm] at hd
    exact ⟨_, rfl, by simp [takesNext, takesArgument, hd], by simp [Entry.Good, hd]⟩
  | some m =>
    obtain ⟨t, rfl⟩ := strchr_eq_some hl hm
    rw [hm] at hd
    cases t with
    | nil =>
      have harg : takesArgument optstring w = false := by rw [takesArgument, hd]
      exact ⟨_, rfl, by simp [takesNext, harg], by simp [Entry.Good, harg, hd]⟩
    | cons b t =>
      have hb1 : charAt (letter w :: b :: t) 1 = some b := charAt_eq (by simp)
      have harg : takesArgument optstring w = decide (b = char ':') := by rw [takesArgument, hd]
      simp only [hb1, Option.bind_some]
      by_cases hb : b = char ':'
      swap
      · rw [if_pos hb]
        have harg : takesArgument optstring w = false := by rw [harg, decide_eq_false hb]
        exact ⟨_, rfl, by simp [takesNext, harg], by simp [Entry.Good, harg, hd]⟩
      rw [decide_eq_true hb] at harg
      have h2 : charAt w.chars 2 = some (w.chars[2]?.getD 0) := charAt_eq (length_of_letter hl)
      rw [if_neg (not_not.2 hb), h2, Option.bind_some]
      by_cases ha : w.chars[2]?.getD 0 = 0
      swap
      · have hatt : attached w = true := decide_eq_true ha
        rw [if_pos ha]
        exact ⟨_, rfl, by simp [takesNext, hatt], by simp [Entry.Good, hatt, hd]⟩
      have hatt : attached w = false := decide_eq_false (not_not.2 ha)
      have ht2 : charAt (letter w :: b :: t) 2 = some (t[0]?.getD 0) := charAt_eq (by simp)
      have hcolons : takesAttached optstring w = decide (t[0]?.getD 0 = char ':') := by
        rw [takesAttached, hd]
        cases t <;> rfl
      have hnext : takesNext optstring w = true ↔ t[0]?.getD 0 ≠ char ':' := by
        simp [takesNext, harg, hatt, hcolons]
      have hlt : cur + 1 < argv.length ↔ rest ≠ [] := by
        rw [← hrest, ← List.length_pos_iff, List.length_drop]
        omega
      rw [if_neg (not_not.2 ha), ht2, Option.bind_some]
      by_cases hn : takesNext optstring w = true ∧ rest ≠ []
      · rw [if_pos ⟨hnext.1 hn.1, hlt.2 hn.2⟩, if_pos hn.1]
        obtain ⟨a, rest', rfl⟩ := List.exists_cons_of_ne_nil hn.2
        have hget : argv[cur + 1]? = some a := by
          rw [← List.head?_drop, hrest]
          rfl
        rw [hget]
        exact ⟨_, rfl, rfl, by simp [Entry.Good, hd]⟩
      · rw [if_neg fun h => hn ⟨hnext.2 h.1, hlt.1 h.2⟩]
        have hnone : (if takesNext optstring w then rest.head? else none) = none := by
          split_ifs with hn'
          · rw [not_not.1 fun hr => hn ⟨hn', hr⟩]
            rfl
          · rfl
        rw [hnone]
        exact ⟨_, rfl, rfl, by simp [Entry.Good, harg, hatt]⟩

/-! ## Moving an option to the front -/

theorem findOption_eq (ws : List Word) (cur : ℕ) : findOption ws cur = cur + ws.findIdx isOption := by
  induction ws generalizing cur with
  | nil => rfl
  | cons w ws ih =>
    rw [findOption, List.findIdx_cons]
    cases isOption w with
    | false =>
      rw [if_neg Bool.false_ne_true, ih]
      simp
      omega
    | true => rfl

theorem findIdx_eq_length (h : ∀ w ∈ ws, isOption w = false) : ws.findIdx isOption = ws.length :=
  List.findIdx_eq_length.2 h

/-- The first option stands behind the words that are none. -/
theorem findIdx_append (hpre : ∀ w ∈ pre, isOption w = false) (hw : isOption w = true) :
    (pre ++ w :: ws).findIdx isOption = pre.length := by
  rw [List.findIdx_append, findIdx_eq_length hpre, if_neg (lt_irrefl _), List.findIdx_cons, hw]
  exact Nat.zero_add _

theorem store_eq {argc : ℕ} {tmp : List Word} (h : tmp.length < argc) :
    store argc tmp w = some (tmp ++ [w]) := if_pos h

theorem copy_eq {argv x z tmp : List Word} (y : List Word) (hargv : argv = x ++ (y ++ z))
    (h : tmp.length + y.length ≤ argv.length) :
    copy argv x.length y.length tmp = some (tmp ++ y) := by
  induction y generalizing x tmp with
  | nil => simp [copy]
  | cons w y ih =>
    have hget : argv[x.length]? = some w := by simp [hargv]
    have hx : argv = (x ++ [w]) ++ (y ++ z) := by simp [hargv]
    rw [List.length_cons] at h
    have hlen : x.length + 1 = (x ++ [w]).length := by simp
    simp only [List.length_cons, copy, hget, store_eq (show tmp.length < argv.length by omega),
      Option.bind_eq_bind, Option.bind_some, hlen]
    rw [ih hx (by simp; omega)]
    simp

theorem storeOption_eq {argv tmp : List Word} {cur : ℕ} (ws : List Word)
    (hcur : argv.drop cur = e.words ++ ws)
    (h : tmp.length + e.words.length ≤ argv.length) :
    storeOption argv cur e.argument.isSome tmp = some (tmp ++ e.words) := by
  have hget : argv[cur]? = some e.option := by
    rw [← List.head?_drop, hcur]
    rfl
  rw [Entry.words, List.length_cons] at h
  simp only [storeOption, hget, Option.bind_eq_bind, Option.bind_some,
    store_eq (show tmp.length < argv.length by omega)]
  cases ha : e.argument with
  | none => simp [Entry.words, ha]
  | some a =>
    have hget : argv[cur + 1]? = some a := by
      rw [← List.head?_drop, ← List.tail_drop, hcur]
      simp [Entry.words, ha]
    rw [ha] at h
    have hlt : (tmp ++ [e.option]).length < argv.length := by
      simp at h ⊢
      omega
    simp [hget, store_eq hlt, Entry.words, ha]

/-- The loops stay within bounds and put the words of the option behind the words in front. -/
theorem permute_eq (front pre post : List Word) (e : Entry) :
    permute (front ++ (pre ++ (e.words ++ post))) front.length (front.length + pre.length)
      e.argument.isSome = some (front ++ (e.words ++ (pre ++ post))) := by
  generalize hargv : front ++ (pre ++ (e.words ++ post)) = argv
  have hlen : argv.length = front.length + (pre.length + (e.words.length + post.length)) := by
    simp [← hargv]
  have hfront : copy argv 0 front.length [] = some front :=
    copy_eq front (x := []) hargv.symm (by simp; omega)
  have hwords : storeOption argv (front.length + pre.length) e.argument.isSome front =
      some (front ++ e.words) :=
    storeOption_eq post (by simp [← hargv]) (by omega)
  have hpre : copy argv front.length pre.length (front ++ e.words) = some (front ++ e.words ++ pre) :=
    copy_eq pre hargv.symm (by simp; omega)
  have hpost : copy argv (front ++ pre ++ e.words).length post.length (front ++ e.words ++ pre) =
      some (front ++ e.words ++ pre ++ post) :=
    copy_eq post (z := []) (by simp [← hargv]) (by simp; omega)
  have hstep : (if e.argument.isSome then 2 else 1) = e.words.length := by
    rw [Entry.words]
    cases e.argument <;> rfl
  have hs : (front ++ pre ++ e.words).length = front.length + pre.length + e.words.length := by
    simp [Nat.add_assoc]
  have hn : argv.length - (front.length + pre.length + e.words.length) = post.length := by omega
  rw [hs] at hpost
  simp only [permute, hfront, hwords, hpre, hstep, hn, hpost, Nat.add_sub_cancel_left,
    Option.bind_eq_bind, Option.bind_some]
  rw [if_pos (by simp; omega)]
  simp

/-! ## Calls -/

/-- The options `done` stand in front, and the words `todo` are left. -/
structure Inv (optstring : List (BitVec 8)) (prog : Word) (words : List Word) (done : List Entry)
    (todo : List Word) (st : State) : Prop where
  argv : st.argv = prog :: (optionWords done ++ todo)
  nextIndex : st.nextIndex = (prog :: optionWords done).length
  optind : st.optind = st.nextIndex ∨
    st.optind = findOption todo st.nextIndex ∧ st.optind < st.argv.length
  options : done ++ (parse optstring todo).1 = (parse optstring words).1
  others : (parse optstring todo).2 = (parse optstring words).2

/-- The words are those of the beginning: `argv[0]` is, and behind it are the options with their
separate arguments, in their order, and the other words in theirs. -/
structure Arranged (optstring : List (BitVec 8)) (prog : Word) (words : List Word) (st : State) :
    Prop where
  head : st.argv.head? = some prog
  perm : st.argv.Perm (prog :: words)
  order : Interleaving (optionWords (parse optstring words).1) (parse optstring words).2 st.argv.tail

variable {prog : Word} {words todo : List Word} {done : List Entry} {st : State}

theorem inv_initial (optstring : List (BitVec 8)) (prog : Word) (words : List Word) :
    Inv optstring prog words [] words (initial (prog :: words)) :=
  ⟨rfl, rfl, .inl rfl, rfl, rfl⟩

theorem optionWords_append (es es' : List Entry) :
    optionWords (es ++ es') = optionWords es ++ optionWords es' := List.flatMap_append

/-- The result of a call that finds an option is -1 only if it is its letter. -/
theorem finish_fst {st : State} {c : BitVec 8} {s : Status} :
    (finish st c s).1 = -1 ↔ s = .good ∧ c = 255 := by
  cases s with
  | good =>
    have h255 : (255 : BitVec 8).toInt = -1 := rfl
    rw [finish, ← h255, BitVec.toInt_inj]
    simp
  | invalid => simp [finish]
  | missing => simp [finish]

theorem length_le_optionWords (es : List Entry) : es.length ≤ (optionWords es).length := by
  induction es with
  | nil => exact le_rfl
  | cons e es ih =>
    rw [optionWords_cons, List.length_append, Entry.words, List.length_cons, List.length_cons]
    omega

namespace Inv

theorem arranged (h : Inv optstring prog words done todo st) :
    Arranged optstring prog words st := by
  have horder : Interleaving (optionWords (parse optstring words).1) (parse optstring words).2
      (optionWords done ++ todo) := by
    rw [← h.options, ← h.others, optionWords_append]
    exact (Interleaving.of_left _).append (interleaving_parse optstring todo)
  refine ⟨by rw [h.argv]; rfl, ?_, by rw [h.argv]; exact horder⟩
  rw [h.argv]
  exact (horder.perm.trans (interleaving_parse optstring words).perm.symm).cons prog

theorem drop_nextIndex (h : Inv optstring prog words done todo st) :
    st.argv.drop st.nextIndex = todo := by
  rw [h.argv, h.nextIndex, ← List.cons_append]
  exact List.drop_left

theorem length_eq (h : Inv optstring prog words done todo st) :
    st.argv.length = st.nextIndex + todo.length := by
  rw [h.argv, h.nextIndex, ← List.cons_append, List.length_append]

/-- The search from `optind` on finds what the one from `nextIndex` on does. -/
theorem findOption_optind (h : Inv optstring prog words done todo st) :
    findOption (st.argv.drop st.optind) st.optind = st.nextIndex + todo.findIdx isOption := by
  rw [findOption_eq]
  rcases h.optind with hi | ⟨hi, hlt⟩
  · rw [hi, h.drop_nextIndex]
  · rw [findOption_eq] at hi
    rw [hi, h.length_eq, Nat.add_lt_add_iff_left] at hlt
    have hfirst : isOption todo[todo.findIdx isOption] = true := List.findIdx_getElem
    have hfound : (todo.drop (todo.findIdx isOption)).findIdx isOption = 0 := by
      rw [List.drop_eq_getElem_cons hlt, List.findIdx_cons, hfirst]
      rfl
    rw [hi, ← List.drop_drop, h.drop_nextIndex, hfound, Nat.add_zero]

/-- What is left from `optind` on is the other words if no option is left, and only then. -/
theorem drop_optind_iff (h : Inv optstring prog words done todo st) :
    st.argv.drop st.optind = (parse optstring words).2 ↔ (parse optstring todo).1 = [] := by
  constructor
  · intro hdrop
    cases hes : (parse optstring todo).1 with
    | nil => rfl
    | cons e es =>
      obtain ⟨pre, post, htodo, hpre, ho, -, -, -⟩ := exists_option hes
      have hidx : todo.findIdx isOption = pre.length := by
        rw [htodo]
        exact findIdx_append hpre ho
      -- the option is not among the words before `optind`
      have hmem : e.option ∈ st.argv.drop st.optind := by
        rcases h.optind with hi | ⟨hi, -⟩
        · rw [hi, h.drop_nextIndex, htodo]
          simp [Entry.words]
        · rw [hi, findOption_eq, hidx, ← List.drop_drop, h.drop_nextIndex, htodo, List.drop_left]
          simp [Entry.words]
      rw [hdrop] at hmem
      rw [not_isOption_of_mem hmem] at ho
      cases ho
  · intro hnil
    obtain ⟨hall, hothers⟩ := parse_nil hnil
    have hi : st.optind = st.nextIndex := by
      rcases h.optind with hi | ⟨hi, hlt⟩
      · exact hi
      · rw [hi, findOption_eq, findIdx_eq_length hall, h.length_eq] at hlt
        exact absurd hlt (lt_irrefl _)
    rw [hi, h.drop_nextIndex, ← h.others, hothers]

/-- Without an option left, the call changes nothing but `optarg`. -/
theorem getopt_nil (h : Inv optstring prog words done todo st)
    (hnil : (parse optstring todo).1 = []) :
    ∃ st', getopt optstring st = some (-1, st') ∧ Inv optstring prog words done todo st' := by
  have hcur : findOption (st.argv.drop st.optind) st.optind = st.argv.length := by
    rw [h.findOption_optind, findIdx_eq_length (parse_nil hnil).1, h.length_eq]
  refine ⟨{ st with optarg := none }, ?_, h.argv, h.nextIndex, h.optind, h.options, h.others⟩
  simp only [getopt, hcur]
  rfl

theorem finished (h : Inv optstring prog words done todo st) (c : BitVec 8) (s : Status) :
    Inv optstring prog words done todo (finish st c s).2 := by
  cases s <;> exact ⟨h.argv, h.nextIndex, h.optind, h.options, h.others⟩

theorem update (h : Inv optstring prog words done todo st) (htodo : todo = pre ++ (e.words ++ post))
    (hpre : ∀ w ∈ pre, isOption w = false) (hes : (parse optstring todo).1 = e :: es)
    (hpost : (parse optstring post).1 = es)
    (hothers : (parse optstring todo).2 = pre ++ (parse optstring post).2) (optarg : Option Word) :
    Inv optstring prog words (done ++ [e]) (pre ++ post)
      (st.update (prog :: (optionWords (done ++ [e]) ++ (pre ++ post)))
        (st.nextIndex + e.words.length) optarg) := by
  have hnext : st.nextIndex + e.words.length = (prog :: optionWords (done ++ [e])).length := by
    rw [h.nextIndex, optionWords_append]
    simp
    omega
  rw [hnext, State.update, ← List.cons_append, List.drop_left, findOption_eq]
  have hlen : st.argv.length = (prog :: optionWords (done ++ [e]) ++ (pre ++ post)).length := by
    rw [h.length_eq, htodo]
    simp only [List.length_append] at hnext ⊢
    omega
  have hle : (pre ++ post).findIdx isOption ≤ (pre ++ post).length := List.findIdx_le_length
  refine ⟨rfl, rfl, ?_, ?_, ?_⟩
  · rw [findOption_eq]
    dsimp only
    split_ifs with hall
    · exact .inl rfl
    · refine .inr ⟨rfl, lt_of_le_of_ne ?_ (hlen ▸ hall)⟩
      rw [List.length_append]
      exact Nat.add_le_add_left hle _
  · rw [parse_append hpre, hpost, ← h.options, hes, List.append_assoc]
    rfl
  · rw [parse_append hpre, ← h.others, hothers]

/-- A call moves the first option that is left to the front. -/
theorem getopt_cons (h : Inv optstring prog words done todo st)
    (hes : (parse optstring todo).1 = e :: es) :
    ∃ r st' todo', getopt optstring st = some (r, st') ∧
      Inv optstring prog words (done ++ [e]) todo' st' ∧ (parse optstring todo').1 = es ∧
      (r = -1 ↔ e.Good optstring ∧ letter e.option = 255) := by
  obtain ⟨pre, post, htodo, hpre, ho, ha, hpost, hothers⟩ := exists_option hes
  have hcur : findOption (st.argv.drop st.optind) st.optind = st.nextIndex + pre.length := by
    rw [h.findOption_optind, htodo, Entry.words, List.cons_append, findIdx_append hpre ho]
  have hlen : st.argv.length = st.nextIndex + (pre.length + (e.words.length + post.length)) := by
    rw [h.length_eq, htodo, List.length_append, List.length_append]
  have hwords : e.words.length = e.argument.toList.length + 1 := rfl
  have hdrop : st.argv.drop (st.nextIndex + pre.length) = e.words ++ post := by
    rw [← List.drop_drop, h.drop_nextIndex, htodo, List.drop_left]
  have hopt : st.argv[st.nextIndex + pre.length]? = some e.option := by
    rw [← List.head?_drop, hdrop]
    rfl
  have hrest : st.argv.drop (st.nextIndex + pre.length + 1) = e.argument.toList ++ post := by
    rw [← List.tail_drop, hdrop]
    rfl
  obtain ⟨found, hfound, htwo, hgood⟩ := classify_eq (e := e) ho hrest (by rw [← ha])
  have hargv : permute st.argv st.nextIndex (st.nextIndex + pre.length) found.twoStrings =
      some (prog :: (optionWords (done ++ [e]) ++ (pre ++ post))) := by
    rw [htwo, h.nextIndex, h.argv, htodo, ← List.cons_append, permute_eq]
    simp [optionWords_append]
  have hletter : charAt e.option.chars 1 = some (letter e.option) :=
    charAt_eq (length_of_isOption ho)
  have hstep : (if found.twoStrings = true ∧ st.nextIndex < st.argv.length then 2 else 1) =
      e.words.length := by
    have hlt : st.nextIndex < st.argv.length := by omega
    rw [htwo, hwords]
    cases e.argument <;> simp [hlt]
  have hne : st.nextIndex + pre.length ≠ st.argv.length := by omega
  have hinv := h.update htodo hpre hes hpost hothers found.optarg
  set argv := prog :: (optionWords (done ++ [e]) ++ (pre ++ post))
  have hrun : getopt optstring st =
      some (finish (st.update argv (st.nextIndex + e.words.length) found.optarg) (letter e.option)
        found.status) := by
    simp only [getopt, hcur, if_neg hne, hopt, hfound, hargv, hletter, hstep, Option.bind_eq_bind,
      Option.bind_some]
    rfl
  have hes' : (parse optstring (pre ++ post)).1 = es := by
    rw [parse_append hpre]
    exact hpost
  exact ⟨_, _, pre ++ post, hrun, hinv.finished _ _, hes', finish_fst.trans (by rw [hgood])⟩

end Inv

/-- Calling `getopt` until it returns -1, which it does at the `n`-th call at the latest. All its
accesses are within bounds, `P` holds all along, and `Q` holds in the end. -/
def Calls (optstring : List (BitVec 8)) (P Q : State → Prop) : ℕ → State → Prop
  | 0, _ => False
  | n + 1, st => P st ∧ ∃ r st', getopt optstring st = some (r, st') ∧
      if r = -1 then P st' ∧ Q st' else Calls optstring P Q n st'

/-- The calls from a state on. -/
theorem Inv.calls_iff (h : Inv optstring prog words done todo st)
    (hes : (parse optstring todo).1 = es) {n : ℕ} (hn : es.length < n) :
    Calls optstring (Arranged optstring prog words)
        (fun st => st.argv.drop st.optind = (parse optstring words).2) n st ↔
      ∀ e ∈ es.dropLast, ¬ (e.Good optstring ∧ letter e.option = 255) := by
  induction es generalizing n done todo st with
  | nil =>
    obtain ⟨st', hrun, h'⟩ := h.getopt_nil hes
    cases n with
    | zero => cases hn
    | succ n =>
      rw [Calls]
      constructor
      · simp
      · intro _
        exact ⟨h.arranged, -1, st', hrun, by simp [h'.arranged, h'.drop_optind_iff, hes]⟩
  | cons e es ih =>
    obtain ⟨r, st', todo', hrun, h', hes', hr⟩ := h.getopt_cons hes
    cases n with
    | zero => cases hn
    | succ n =>
      rw [List.length_cons, Nat.add_lt_add_iff_right] at hn
      have hstep : Calls optstring (Arranged optstring prog words)
          (fun st => st.argv.drop st.optind = (parse optstring words).2) (n + 1) st ↔
          if r = -1 then es = [] else
            Calls optstring (Arranged optstring prog words)
              (fun st => st.argv.drop st.optind = (parse optstring words).2) n st' := by
        rw [Calls]
        simp [h.arranged, hrun, h'.arranged, h'.drop_optind_iff, hes']
      rw [hstep, ih h' hes' hn]
      cases es with
      | nil => simp
      | cons e' es =>
        rw [List.dropLast_cons_cons, List.forall_mem_cons, ← hr]
        split_ifs with hr1 <;> simp [hr1]

/-- From the first call on, `getopt` returns -1 after `argc` calls at most, keeps within bounds and
keeps the words arranged, and leaves exactly the other words from `optind` on, if no option but the
last is a good one with the letter 0xff, and only then. -/
theorem getopt_permutes_iff (optstring : List (BitVec 8)) (prog : Word) (words : List Word) :
    Calls optstring (Arranged optstring prog words)
        (fun st => st.argv.drop st.optind = (parse optstring words).2) (prog :: words).length
        (initial (prog :: words)) ↔
      ∀ e ∈ (parse optstring words).1.dropLast, ¬ (e.Good optstring ∧ letter e.option = 255) := by
  apply (inv_initial optstring prog words).calls_iff rfl
  have hlen := (interleaving_parse optstring words).perm.length_eq
  rw [List.length_append] at hlen
  have hle := length_le_optionWords (parse optstring words).1
  rw [List.length_cons]
  omega

/-- `p -\xff -a` with the options `\xff` and `a`: the first call returns -1. -/
theorem getopt_ends_early :
    ¬ Calls [255, char 'a'] (Arranged [255, char 'a'] ⟨1, [char 'p']⟩
        [⟨2, [char '-', 255]⟩, ⟨3, [char '-', char 'a']⟩])
      (fun st => st.argv.drop st.optind =
        (parse [255, char 'a'] [⟨2, [char '-', 255]⟩, ⟨3, [char '-', char 'a']⟩]).2) 3
      (initial [⟨1, [char 'p']⟩, ⟨2, [char '-', 255]⟩, ⟨3, [char '-', char 'a']⟩]) := by
  rintro ⟨-, r, st', hrun, h⟩
  have hfirst : getopt [255, char 'a']
      (initial [⟨1, [char 'p']⟩, ⟨2, [char '-', 255]⟩, ⟨3, [char '-', char 'a']⟩]) =
      some (-1, ⟨[⟨1, [char 'p']⟩, ⟨2, [char '-', 255]⟩, ⟨3, [char '-', char 'a']⟩], none, 2, 1, 0, 2,
        []⟩) := by decide
  obtain ⟨rfl, rfl⟩ := Prod.mk.inj (Option.some.inj (hrun.symm.trans hfirst))
  rw [if_pos rfl] at h
  exact absurd h.2 (by decide)

end Determinator.Getopt
