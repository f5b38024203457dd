import Determinator.Kern.Consio
import Determinator.File.Lengths

/-!
# Console output

The kernel counts the characters of `consout` that it has printed, and asserts that the file has at
least as many. As long as the assertion holds, each character that is printed is the one that stood
at its place when `cons_io` first came upon that place (`Tree.Exact`), whatever the processes do to
the file later.

The assertion holds at every `cons_io` that finds the file at least as long as the one before it did
(`Tree.Uncut`). Of all that happens in the process tree, only what the root process does can change
that: a truncation of the file to less than what is printed, and a reconciliation that takes over a
child's version with less than that (`Tree.Spares`).
-/

namespace Determinator.Console.Tree

open File

/-! ## What is promised, and when -/

/-- The printed characters are those that stood at their places in the first view that has the
place. -/
def Exact (s : Tree) : Prop := ∀ i : ℕ, s.printed[i]? = s.views.findSome? fun v => v[i]?

/-- If this is a `cons_io`, its assertion about the output holds. -/
def Asserts (s : Tree) : Event → Prop
  | .io => s.Outsized
  | _ => True

/-- In every state that is reached the output is exact, and the assertion of `cons_io` does not
fail. -/
def Promise (s : Tree) : List Event → Prop
  | [] => s.Exact
  | e :: es =>
    s.Exact ∧ s.Asserts e ∧
      match s.step e with
      | some t => Promise t es
      | none => True

/-- The length of the output file at the last `cons_io`. -/
def seen (s : Tree) : ℕ := (s.views.getLast?.getD []).length

/-- If this is a `cons_io`, the output file is at least as long as at the one before. -/
def Grown (s : Tree) : Event → Prop
  | .io => s.seen ≤ s.consout.length
  | _ => True

/-- At every `cons_io` the output file is at least as long as at the one before. -/
def Uncut (s : Tree) : List Event → Prop
  | [] => True
  | e :: es =>
    s.Grown e ∧
      match s.step e with
      | some t => Uncut t es
      | none => True

/-- The event does not leave the output file of the root process shorter than at the last
`cons_io`. -/
def Spares (s : Tree) : Event → Prop
  | .file p op => p = [] → op.Spares (s.fs []) fileinoConsout s.seen
  | .reconcile p pid _ =>
    p = [] → ∀ c, c = fileinoConsout ∨ ((s.fs [pid]).files.fi c).rino = fileinoConsout →
      Overrides ((s.fs []).files.fi fileinoConsout) ((s.fs [pid]).files.fi c) →
        s.seen ≤ ((s.fs [pid]).files.fi c).size
  | _ => True

/-- No event leaves the output file of the root process shorter than at the last `cons_io`. -/
def Spared (s : Tree) : List Event → Prop
  | [] => True
  | e :: es =>
    s.Spares e ∧
      match s.step e with
      | some t => Spared t es
      | none => True

instance (s : Tree) (e : Event) : Decidable (s.Grown e) :=
  match e with
  | .io => inferInstanceAs (Decidable (_ ≤ _))
  | .file .. | .fork _ | .reconcile .. | .reap .. | .stray .. | .intr _ =>
    inferInstanceAs (Decidable True)

instance decUncut (s : Tree) : (es : List Event) → Decidable (s.Uncut es)
  | [] => .isTrue trivial
  | e :: es =>
    have : Decidable (match s.step e with | some t => Uncut t es | none => True) :=
      match s.step e with
      | some t => decUncut t es
      | none => .isTrue trivial
    inferInstanceAs (Decidable (_ ∧ _))

/-! ## Output -/

variable {s t : Tree} {e : Event}

theorem length_consout (s : Tree) :
    s.consout.length = ((s.fs []).files.fi fileinoConsout).size := length_bytes _ _ _

/-- The invariant: the kernel's count is that of the printed characters, and the length of the file
at the last `cons_io`. -/
structure Good (s : Tree) : Prop where
  exact : s.Exact
  count : s.consOutsize = s.printed.length
  seen : s.consOutsize = s.seen

theorem Good.init (cons : Buffer) (files : Fs) : (init cons files).Good :=
  ⟨fun _ => rfl, rfl, rfl⟩

/-- What an event other than `cons_io` leaves as it was. -/
theorem step_frame (h : s.step e = some t) (he : e ≠ .io) :
    t.printed = s.printed ∧ t.consOutsize = s.consOutsize ∧ t.views = s.views := by
  cases e with
  | io => exact absurd rfl he
  | file p op =>
    rw [step] at h
    split at h <;> obtain rfl := Option.some.inj h <;> exact ⟨rfl, rfl, rfl⟩
  | fork p =>
    rw [step] at h
    split at h <;> obtain rfl := Option.some.inj h <;> exact ⟨rfl, rfl, rfl⟩
  | reconcile p pid cp =>
    rw [step] at h
    split at h
    · split at h <;> obtain rfl := Option.some.inj h <;> exact ⟨rfl, rfl, rfl⟩
    · obtain rfl := Option.some.inj h
      exact ⟨rfl, rfl, rfl⟩
  | reap p pid =>
    obtain rfl := Option.some.inj h
    exact ⟨rfl, rfl, rfl⟩
  | stray p files =>
    obtain rfl := Option.some.inj h
    split_ifs <;> exact ⟨rfl, rfl, rfl⟩
  | intr cs =>
    obtain rfl := Option.some.inj h
    exact ⟨rfl, rfl, rfl⟩

/-- What `cons_io` leaves. -/
theorem consIo_frame (h : s.consIo = some t) :
    t.printed = s.printed ++ s.consout.drop s.consOutsize ∧ t.consOutsize = s.consout.length ∧
      t.views = s.views ++ [s.consout] ∧
      (t.fs []).files.fi fileinoConsout = (s.fs []).files.fi fileinoConsout := by
  rw [consIo] at h
  split at h
  · split at h
    · obtain rfl := Option.some.inj h
      refine ⟨rfl, rfl, rfl, ?_⟩
      simp only [input, setFs, Function.update_self, Fs.setFi_files, Fs.setData_files]
      exact FileState.setFi_fi_ne (by decide)
    · cases h
  · cases h

/-- The characters that are printed next stand behind those that are printed. -/
theorem Good.output (h : s.Good) (hp : t.printed = s.printed ++ s.consout.drop s.consOutsize)
    (hv : t.views = s.views ++ [s.consout]) : t.Exact := by
  intro i
  rw [hp, hv, List.findSome?_append, ← h.exact i, h.count, List.findSome?_singleton]
  rcases Nat.lt_or_ge i s.printed.length with hlt | hge
  · rw [List.getElem?_append_left hlt, List.getElem?_eq_getElem hlt]
    rfl
  · rw [List.getElem?_append_right hge, List.getElem?_eq_none hge, List.getElem?_drop,
      Nat.add_sub_cancel' hge]
    rfl

theorem Good.step (h : s.Good) (ha : s.Asserts e) (ht : s.step e = some t) : t.Good := by
  by_cases he : e = .io
  · subst he
    obtain ⟨hp, hc, hv, -⟩ := consIo_frame ht
    have hle : s.consOutsize ≤ s.consout.length := by
      rw [length_consout]
      exact ha
    refine ⟨h.output hp hv, ?_, ?_⟩
    · rw [hc, hp, List.length_append, List.length_drop, ← h.count]
      omega
    · rw [hc, Tree.seen, hv, List.getLast?_concat]
      rfl
  · obtain ⟨hp, hc, hv⟩ := step_frame ht he
    refine ⟨?_, ?_, ?_⟩
    · intro i
      rw [hp, hv]
      exact h.exact i
    · rw [hc, hp]
      exact h.count
    · rw [hc, Tree.seen, hv]
      exact h.seen

theorem Good.asserts_iff (h : s.Good) : s.Asserts e ↔ s.Grown e := by
  cases e with
  | io => rw [Asserts, Grown, Outsized, h.seen, length_consout]
  | file | fork | reconcile | reap | stray | intr => exact Iff.rfl

/-- From a good state on, the output is exact and the assertion does not fail, if and only if the
file is never shorter at a `cons_io` than at the one before. -/
theorem Good.promise_uncut (h : s.Good) (es : List Event) : s.Promise es ↔ s.Uncut es := by
  induction es generalizing s with
  | nil => exact ⟨fun _ => trivial, fun _ => h.exact⟩
  | cons e es ih =>
    rw [Promise, Uncut, h.asserts_iff]
    cases ht : s.step e with
    | none => exact ⟨fun hp => hp.2, fun hu => ⟨h.exact, hu⟩⟩
    | some t =>
      constructor
      · rintro ⟨-, hg, hp⟩
        exact ⟨hg, (ih (h.step (h.asserts_iff.2 hg) ht)).1 hp⟩
      · rintro ⟨hg, hu⟩
        exact ⟨h.exact, hg, (ih (h.step (h.asserts_iff.2 hg) ht)).2 hu⟩

/-! ## The console files as lists -/

/-- A byte list as the console has it. -/
def chars (l : List UInt8) : List (BitVec 8) := l.map UInt8.toBitVec

/-- The state of the console without the process tree. -/
structure Shows {Cpu : Type} (s : Tree) (k : State Cpu) : Prop where
  cons : k.cons = s.cons
  count : k.consOutsize = s.consOutsize
  printed : k.printed = chars s.printed
  consin : k.files.consin = chars s.consin
  consout : k.files.consout = chars s.consout

theorem consin_input (s : Tree) (cs : List (BitVec 8)) :
    chars (s.input cs).consin = chars s.consin ++ cs := by
  generalize hd : (s.fs []).data fileinoConsin = d
  generalize hn : ((s.fs []).files.fi fileinoConsin).size = n
  have hin : (s.input cs).consin =
      bytes (memcpy d n (fun i => .ofBitVec (cs.getD i 0)) 0 cs.length) 0 (n + cs.length) := by
    simp [Tree.consin, input, setFs, hd, hn]
  rw [hin, bytes_add, chars, List.map_append, Tree.consin, hd, hn]
  congr 1
  · congr 1
    rw [bytes_eq_iff]
    intro k hk
    rw [memcpy, if_neg (by omega)]
  · apply List.ext_getElem
    · rw [List.length_map, length_bytes]
    · intro i hi hi'
      have hmem : n ≤ 0 + n + i ∧ 0 + n + i < n + cs.length := by omega
      have hsub : 0 + (0 + n + i - n) = i := by omega
      simp only [bytes, List.getElem_map, List.getElem_range, memcpy, if_pos hmem, hsub,
        List.getD_eq_getElem?_getD, List.getElem?_eq_getElem hi', Option.getD_some]

theorem consout_input (s : Tree) (cs : List (BitVec 8)) : (s.input cs).consout = s.consout := by
  have hne : fileinoConsout ≠ fileinoConsin := by decide
  simp [Tree.consout, input, setFs, FileState.setFi_fi_ne hne, Fs.setData_data_ne hne]

/-- What `cons_io` does to the output if it does not halt. -/
theorem consIo_output {Cpu : Type} [DecidableEq Cpu] {k : State Cpu} (h : k.consIo.2.halted = false) :
    k.consIo.2.printed = k.printed ++ k.files.consout.drop k.consOutsize ∧
      k.consIo.2.consOutsize = k.files.consout.length ∧
      k.consIo.2.files.consout = k.files.consout := by
  unfold State.consIo at h ⊢
  split at h
  · cases h
  · rename_i hout
    rw [if_neg hout]
    simp only at h ⊢
    split at h
    · cases h
    · rename_i hroom
      rw [if_neg hroom]
      split_ifs <;> exact ⟨rfl, rfl, rfl⟩

/-- `cons_io` does to the files of the root process what it does to their contents. -/
theorem Shows.consIo {Cpu : Type} [DecidableEq Cpu] {k : State Cpu} (h : s.Shows k)
    (hk : k.halted = false) (hb : s.cons.wpos ≤ consBufsize) (hl : s.consin.length < 2 ^ 63) :
    match s.consIo with
    | some t => k.consIo.2.halted = false ∧ t.Shows k.consIo.2
    | none => k.consIo.2.halted = true := by
  have hlen : k.files.consout.length = s.consout.length := by rw [h.consout, chars, List.length_map]
  rw [Tree.consIo]
  split_ifs with ho
  · rw [Outsized, ← length_consout, ← hlen, ← h.count] at ho
    have hin := consIo_input hk (by rwa [h.cons]) (by rwa [h.consin, chars, List.length_map]) ho
    rw [h.cons, h.consin, chars] at hin
    cases hio : s.cons.io (s.consin.map UInt8.toBitVec) with
    | error e =>
      rw [hio] at hin
      exact hin
    | ok r =>
      rw [hio] at hin
      obtain ⟨hh, hin, hcons⟩ := hin
      obtain ⟨hprint, hcount, hout⟩ := consIo_output hh
      refine ⟨hh, hcons, ?_, ?_, ?_, ?_⟩
      · rw [hcount, hlen]
        rfl
      · rw [hprint, h.printed, h.consout, h.count, chars, chars, ← List.map_drop, ← List.map_append]
        rfl
      · rw [hin, consin_input]
        rfl
      · rw [hout, consout_input, h.consout]
        rfl
  · rw [Outsized, ← length_consout, ← hlen, ← h.count, Nat.not_le] at ho
    rw [State.consIo, if_pos (.inl ho)]

/-! ## The process tree -/

/-- The output file of the root process is at least as long as at the last `cons_io`. -/
def Long (s : Tree) : Prop := s.seen ≤ ((s.fs []).files.fi fileinoConsout).size

theorem setFs_same (s : Tree) (p : List ℕ) (f : Fs) : (s.setFs p f).fs p = f := by
  simp only [setFs, Function.update_self]

theorem setFs_ne (s : Tree) {p q : List ℕ} (f : Fs) (h : p ≠ q) : (s.setFs q f).fs p = s.fs p := by
  simp only [setFs, Function.update_of_ne h]

/-- The state of a child is no part of an inode. -/
theorem setChild_fi (s : Tree) (p q : List ℕ) (pid : ℕ) (c : ProcInfo) :
    ((s.setChild q pid c).fs p).files.fi = (s.fs p).files.fi := by
  rw [setChild]
  by_cases h : p = q
  · rw [h, setFs_same]
  · rw [setFs_ne s _ h]

/-- An event that spares the output file of the root process leaves it as long as it was at the last
`cons_io`. -/
theorem Long.step (h : s.Long) (hk : s.Spares e) (ht : s.step e = some t) : t.Long := by
  cases e with
  | io =>
    obtain ⟨-, -, hv, hfi⟩ := consIo_frame ht
    rw [Long, seen, hv, List.getLast?_concat, hfi]
    exact (length_consout s).le
  | file p op =>
    rw [Tree.step] at ht
    split at ht
    case h_2 => exact Option.some.inj ht ▸ h
    case h_1 files hf =>
      obtain rfl := Option.some.inj ht
      by_cases hp : p = []
      · subst hp
        rw [Long, setFs_same]
        exact op.run_size hf (by decide) (hk rfl) h
      · rw [Long, setFs_ne s _ (Ne.symm hp)]
        exact h
  | fork p =>
    rw [Tree.step] at ht
    split at ht <;> obtain rfl := Option.some.inj ht
    · rw [Long, setChild_fi, setFs_ne s _ (List.cons_ne_nil _ _).symm]
      exact h
    · exact h
  | reconcile p pid cp =>
    rw [Tree.step] at ht
    split at ht
    case isFalse => exact Option.some.inj ht ▸ h
    split at ht
    case h_2 => exact Option.some.inj ht ▸ h
    case h_1 r hr =>
      obtain rfl := Option.some.inj ht
      rw [Long, setFs_ne _ _ (List.cons_ne_nil _ _).symm]
      by_cases hp : p = []
      · subst hp
        rw [setFs_same]
        exact reconcile_size hr (by decide) (by decide) (hk rfl) h
      · rw [setFs_ne s _ (Ne.symm hp)]
        exact h
  | reap p pid =>
    obtain rfl := Option.some.inj ht
    rw [Long, setChild_fi]
    exact h
  | stray p files =>
    obtain rfl := Option.some.inj ht
    split_ifs with hp
    · exact h
    · rw [Long, setFs_ne s _ (Ne.symm hp)]
      exact h
  | intr cs =>
    obtain rfl := Option.some.inj ht
    exact h

theorem Long.uncut (h : s.Long) {es : List Event} (hk : s.Spared es) : s.Uncut es := by
  induction es generalizing s with
  | nil => trivial
  | cons e es ih =>
    obtain ⟨hk, hs⟩ := hk
    rw [Uncut]
    constructor
    · cases e with
      | io => exact h.trans (length_consout s).ge
      | file | fork | reconcile | reap | stray | intr => trivial
    · cases ht : s.step e with
      | none => trivial
      | some t =>
        rw [ht] at hs
        exact ih (h.step hk ht) hs

/-- In every run of the process tree and the kernel the printed characters are those of the output
file as `cons_io` first came upon them and the assertion of `cons_io` does not fail, if and only if
the file is never shorter at a `cons_io` than at the one before; and no event but a truncation by the
root process or a reconciliation with a shorter version of a child makes it so. -/
theorem console_output_iff (cons : Buffer) (files : Fs) (es : List Event) :
    ((init cons files).Promise es ↔ (init cons files).Uncut es) ∧
      ((init cons files).Spared es → (init cons files).Uncut es) := by
  constructor
  · exact (Good.init cons files).promise_uncut es
  · intro hk
    exact Long.uncut (Nat.zero_le _) hk

/-- Five characters are written and printed, and the file is truncated. -/
theorem console_output_truncated :
    let es := [.file [] (.write 1 (fun _ => 97) 1 5), .io, .file [] (.truncate fileinoConsout 0), .io]
    ¬ (init ⟨fun _ => 0, 0, 0⟩ fileInitroot).Promise es := by
  intro es
  rw [(Good.init _ _).promise_uncut]
  decide +kernel

end Determinator.Console.Tree
