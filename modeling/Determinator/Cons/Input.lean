import Determinator.Kern.Cons
import Mathlib.Algebra.Group.Int.Defs
import Mathlib.Data.Int.Init

/-!
# Console input

The circular buffer between the console devices and those who take characters from it: `cons_getc`
takes one, and `cons_io` moves all of them to the console input file of the root process. The
characters that are taken, in their order in time, and those that still wait are the characters that
were delivered (`Stream.Exact`).

The two routines that store and take single characters wrap at the end of the buffer; `cons_io`
takes a stretch from `rpos` to `wpos`. It fails its assertion where the characters that wait go over
the end of the buffer, and nothing else goes wrong (`promise_iff`).
-/

namespace Determinator.Console

/-! ## `cons_getc` and `cons_io` -/

/-- `cons_getc`, after it has polled the devices for these characters: the next character, 0 if there
is none. -/
def Buffer.getc (b : Buffer) (polled : List (BitVec 8)) : BitVec 8 × Buffer :=
  let b := b.puts polled
  if b.rpos ≠ b.wpos then
    (b.buf b.rpos, { b with rpos := if b.rpos + 1 = consBufsize then 0 else b.rpos + 1 })
  else (0, b)

/-- Where `cons_io` stops. -/
inductive Halt
  /-- "cons_io: root process's console input file full!" -/
  | full
  /-- The assertion about the amount. -/
  | assertion
  deriving DecidableEq

/-- The number of characters that `cons_io` is to move. -/
def Buffer.amount (b : Buffer) : ℤ := b.wpos - b.rpos

/-- The check of `cons_io` for a full input file, in `size_t`. -/
def Buffer.Full (b : Buffer) (consin : List (BitVec 8)) : Prop :=
  fileMaxsize < ((consin.length + b.amount) % 2 ^ 64).toNat

instance (b : Buffer) (consin : List (BitVec 8)) : Decidable (b.Full consin) :=
  inferInstanceAs (Decidable (_ < _))

/-- The second half of `cons_io`: the characters it appends to the input file, and the buffer. -/
def Buffer.io (b : Buffer) (consin : List (BitVec 8)) : Except Halt (List (BitVec 8) × Buffer) :=
  if b.Full consin then .error .full
  else if ¬ (0 ≤ b.amount ∧ b.amount ≤ consBufsize) then .error .assertion
  else if 0 < b.amount then
    .ok ((List.range b.amount.toNat).map fun i => b.buf (b.rpos + i), { b with rpos := 0, wpos := 0 })
  else .ok ([], b)

/-- Whether `cons_io` halts is decided by its halves, and what it does with the input by the second
one. -/
theorem consIo_input {Cpu : Type} {s : State Cpu} (hs : s.halted = false)
    (hb : s.cons.wpos ≤ consBufsize) (hl : s.files.consin.length < 2 ^ 63)
    (hout : s.consOutsize ≤ s.files.consout.length) :
    match s.cons.io s.files.consin with
    | .ok (new, b) => s.consIo.2.halted = false ∧
        s.consIo.2.files.consin = s.files.consin ++ new ∧ s.consIo.2.cons = b
    | .error _ => s.consIo.2.halted = true := by
  rcases Nat.lt_or_ge s.cons.wpos s.cons.rpos with hlt | hle
  · have hneg : ¬ (0 ≤ s.cons.amount ∧ s.cons.amount ≤ consBufsize) := by
      rw [Buffer.amount]
      omega
    rw [State.consIo, if_pos (.inr hlt), Buffer.io]
    by_cases hf : s.cons.Full s.files.consin
    · rw [if_pos hf]
    · rw [if_neg hf, if_pos hneg]
  · have ha : s.cons.amount = ((s.cons.wpos - s.cons.rpos : ℕ) : ℤ) := by
      rw [Buffer.amount]
      omega
    have hbuf : s.cons.wpos - s.cons.rpos ≤ consBufsize := by omega
    have hok : ¬ ¬ (0 ≤ s.cons.amount ∧ s.cons.amount ≤ consBufsize) := by
      rw [ha, not_not]
      omega
    have hfull : s.cons.Full s.files.consin ↔
        fileMaxsize < s.files.consin.length + (s.cons.wpos - s.cons.rpos) := by
      rw [Buffer.Full, ha]
      simp only [consBufsize] at hbuf
      omega
    have hfirst : ¬ (s.files.consout.length < s.consOutsize ∨ s.cons.wpos < s.cons.rpos) := by
      omega
    rw [State.consIo, if_neg hfirst, Buffer.io]
    by_cases hf : s.cons.Full s.files.consin
    · simp only [if_pos hf, if_pos (Or.inl (hfull.1 hf))]
    · have hsecond : ¬ (fileMaxsize < s.files.consin.length + (s.cons.wpos - s.cons.rpos) ∨
          consBufsize < s.cons.wpos - s.cons.rpos) := by
        rw [← hfull, not_or]
        exact ⟨hf, Nat.not_lt.2 hbuf⟩
      simp only [if_neg hf, if_neg hok, if_neg hsecond]
      by_cases hz : s.cons.wpos - s.cons.rpos = 0
      · have hpos : ¬ 0 < s.cons.amount := by omega
        simp [if_neg hpos, if_pos hz, hs]
      · have hpos : 0 < s.cons.amount := by omega
        have hnat : s.cons.amount.toNat = s.cons.wpos - s.cons.rpos := by omega
        simp [if_pos hpos, if_neg hz, hnat, hs]

/-! ## Runs -/

/-- What happens. -/
inductive Op
  /-- `cons_intr`, with the characters that the device has. -/
  | intr (cs : List (BitVec 8))
  /-- `cons_getc`, with the characters that it polls. -/
  | getc (polled : List (BitVec 8))
  /-- `cons_io`, with what the root process has in its input file. -/
  | io (consin : List (BitVec 8))

/-- The characters that the devices deliver. -/
def Op.chars : Op → List (BitVec 8)
  | intr cs => cs.filter (· ≠ 0)
  | getc polled => polled.filter (· ≠ 0)
  | io _ => []

/-- The buffer, with the characters delivered so far and those that have been returned or appended,
both in the order of time. -/
structure Stream where
  cons : Buffer
  delivered : List (BitVec 8)
  taken : List (BitVec 8)

namespace Stream

/-- At boot. -/
def init (buf : ℕ → BitVec 8) : Stream := ⟨⟨buf, 0, 0⟩, [], []⟩

def step (s : Stream) (op : Op) : Except Halt Stream :=
  let delivered := s.delivered ++ op.chars
  match op with
  | .intr cs => .ok ⟨s.cons.puts cs, delivered, s.taken⟩
  | .getc polled =>
    let (c, b) := s.cons.getc polled
    .ok ⟨b, delivered, if c = 0 then s.taken else s.taken ++ [c]⟩
  | .io consin => (s.cons.io consin).map fun (new, b) => ⟨b, delivered, s.taken ++ new⟩

end Stream

/-- The characters that wait in the buffer. -/
def Buffer.waiting (b : Buffer) : List (BitVec 8) :=
  (List.range ((b.wpos + consBufsize - b.rpos) % consBufsize)).map fun i =>
    b.buf ((b.rpos + i) % consBufsize)

namespace Stream

/-- Nothing is lost, duplicated or reordered. -/
def Exact (s : Stream) : Prop := s.delivered = s.taken ++ s.cons.waiting

/-- Never more than `CONSBUFSIZE - 1` characters wait. -/
def Roomy (s : Stream) : List Op → Prop
  | [] => True
  | op :: ops =>
    (s.delivered ++ op.chars).length - s.taken.length ≤ consBufsize - 1 ∧
      match s.step op with
      | .ok t => Roomy t ops
      | .error _ => True

/-- What the buffer promises: in every state that is reached the stream is exact, and the assertion of
`cons_io` does not fail. -/
def Promise (s : Stream) : List Op → Prop
  | [] => s.Exact
  | op :: ops =>
    s.Exact ∧
      match s.step op with
      | .ok t => Promise t ops
      | .error .full => True
      | .error .assertion => False

/-- If this is a `cons_io` that does not find the input file full, the characters that wait do not go
over the end of the buffer. -/
def InStretch (s : Stream) : Op → Prop
  | .io consin => ¬ s.cons.Full consin → s.cons.rpos ≤ s.cons.wpos
  | .intr _ | .getc _ => True

/-- The characters that wait never go over the end of the buffer at a `cons_io`. -/
def Unwrapped (s : Stream) : List Op → Prop
  | [] => True
  | op :: ops =>
    s.InStretch op ∧
      match s.step op with
      | .ok t => Unwrapped t ops
      | .error _ => True

instance (s : Stream) : Decidable s.Exact := inferInstanceAs (Decidable (_ = _))

instance (s : Stream) (op : Op) : Decidable (s.InStretch op) :=
  match op with
  | .io _ => inferInstanceAs (Decidable (_ → _))
  | .intr _ | .getc _ => inferInstanceAs (Decidable True)

instance decRoomy (s : Stream) : (ops : List Op) → Decidable (s.Roomy ops)
  | [] => .isTrue trivial
  | op :: ops =>
    have : Decidable (match s.step op with | .ok t => Roomy t ops | .error _ => True) :=
      match s.step op with
      | .ok t => decRoomy t ops
      | .error _ => .isTrue trivial
    inferInstanceAs (Decidable (_ ∧ _))

instance decUnwrapped (s : Stream) : (ops : List Op) → Decidable (s.Unwrapped ops)
  | [] => .isTrue trivial
  | op :: ops =>
    have : Decidable (match s.step op with | .ok t => Unwrapped t ops | .error _ => True) :=
      match s.step op with
      | .ok t => decUnwrapped t ops
      | .error _ => .isTrue trivial
    inferInstanceAs (Decidable (_ ∧ _))

instance decPromise (s : Stream) : (ops : List Op) → Decidable (s.Promise ops)
  | [] => inferInstanceAs (Decidable s.Exact)
  | op :: ops =>
    have : Decidable (match s.step op with
        | .ok t => Promise t ops | .error .full => True | .error .assertion => False) :=
      match s.step op with
      | .ok t => decPromise t ops
      | .error .full => .isTrue trivial
      | .error .assertion => .isFalse id
    inferInstanceAs (Decidable (_ ∧ _))

end Stream

/-! ## The circular buffer -/

/-- The positions are in the buffer, and no character in it is a zero. -/
structure Buffer.Valid (b : Buffer) : Prop where
  rpos : b.rpos < consBufsize
  wpos : b.wpos < consBufsize
  nonzero : ∀ c ∈ b.waiting, c ≠ 0

variable {b : Buffer}

theorem Buffer.length_waiting (b : Buffer) :
    b.waiting.length = (b.wpos + consBufsize - b.rpos) % consBufsize := by
  rw [Buffer.waiting, List.length_map, List.length_range]

/-- A character is stored behind those that wait. -/
theorem Buffer.Valid.put (h : b.Valid) {c : BitVec 8} (hc : c ≠ 0)
    (hroom : b.waiting.length < consBufsize - 1) :
    (b.put c).waiting = b.waiting ++ [c] ∧ (b.put c).Valid := by
  have hr := h.rpos
  have hw := h.wpos
  rw [Buffer.length_waiting] at hroom
  simp only [consBufsize] at hr hw hroom
  have hput : (b.put c).rpos = b.rpos ∧
      (b.put c).wpos = (if b.wpos + 1 = 512 then 0 else b.wpos + 1) := by
    rw [Buffer.put, if_neg hc]
    exact ⟨rfl, rfl⟩
  have hwlt : (b.put c).wpos < 512 ∧ (b.put c).wpos = (b.wpos + 1) % 512 := by
    rw [hput.2]
    by_cases hend : b.wpos + 1 = 512
    · rw [if_pos hend]
      omega
    · rw [if_neg hend]
      omega
  have hwait : (b.put c).waiting = b.waiting ++ [c] := by
    have hn : ((b.put c).wpos + consBufsize - (b.put c).rpos) % consBufsize =
        (b.wpos + consBufsize - b.rpos) % consBufsize + 1 := by
      rw [hput.1, hwlt.2]
      simp only [consBufsize]
      omega
    rw [Buffer.waiting, hn, List.range_succ, List.map_append, List.map_singleton, Buffer.waiting]
    simp only [Buffer.put, if_neg hc]
    congr 1
    · apply List.map_congr_left
      intro i hi
      rw [List.mem_range] at hi
      simp only [consBufsize] at hi ⊢
      exact Function.update_of_ne (by omega) _ _
    · have he : (b.rpos + (b.wpos + consBufsize - b.rpos) % consBufsize) % consBufsize = b.wpos := by
        simp only [consBufsize]
        omega
      rw [he, Function.update_self]
  refine ⟨hwait, ?_, ?_, ?_⟩
  · rw [hput.1]
    exact hr
  · exact hwlt.1
  · rw [hwait]
    intro d hd
    rcases List.mem_append.1 hd with hd | hd
    · exact h.nonzero d hd
    · rw [List.mem_singleton.1 hd]
      exact hc

/-- So are several, without the zeros among them. -/
theorem Buffer.Valid.puts (h : b.Valid) {cs : List (BitVec 8)}
    (hroom : b.waiting.length + (cs.filter (· ≠ 0)).length ≤ consBufsize - 1) :
    (b.puts cs).waiting = b.waiting ++ cs.filter (· ≠ 0) ∧ (b.puts cs).Valid := by
  induction cs generalizing b with
  | nil => exact ⟨(List.append_nil _).symm, h⟩
  | cons c cs ih =>
    rw [Buffer.puts, List.foldl_cons, ← Buffer.puts]
    by_cases hc : c = 0
    · have hp : b.put c = b := if_pos hc
      have hf : (c :: cs).filter (· ≠ 0) = cs.filter (· ≠ 0) :=
        List.filter_cons_of_neg (by simp [hc])
      rw [hf] at hroom
      rw [hp, hf]
      exact ih h hroom
    · have hf : (c :: cs).filter (· ≠ 0) = c :: cs.filter (· ≠ 0) :=
        List.filter_cons_of_pos (by simpa using hc)
      rw [hf, List.length_cons] at hroom
      obtain ⟨hw, hv⟩ := h.put hc (by omega)
      obtain ⟨hw', hv'⟩ := ih hv (by rw [hw, List.length_append, List.length_singleton]; omega)
      rw [hf]
      refine ⟨?_, hv'⟩
      rw [hw', hw, List.append_assoc]
      rfl

/-- The first character that waits is taken. -/
theorem Buffer.Valid.get (h : b.Valid) (hne : b.rpos ≠ b.wpos) :
    let b' := { b with rpos := if b.rpos + 1 = consBufsize then 0 else b.rpos + 1 }
    b.waiting = b.buf b.rpos :: b'.waiting ∧ b'.Valid := by
  intro b'
  have hr := h.rpos
  have hw := h.wpos
  simp only [consBufsize] at hr hw
  have hr' : b'.rpos < 512 ∧ b'.rpos = (b.rpos + 1) % 512 := by
    by_cases hend : b.rpos + 1 = consBufsize
    · have he : b'.rpos = 0 := if_pos hend
      simp only [consBufsize] at hend
      omega
    · have he : b'.rpos = b.rpos + 1 := if_neg hend
      simp only [consBufsize] at hend
      omega
  have hn : (b.wpos + consBufsize - b.rpos) % consBufsize =
      (b'.wpos + consBufsize - b'.rpos) % consBufsize + 1 := by
    have hw' : b'.wpos = b.wpos := rfl
    rw [hr'.2, hw']
    simp only [consBufsize]
    omega
  have hwait : b.waiting = b.buf b.rpos :: b'.waiting := by
    rw [Buffer.waiting, hn, List.range_succ_eq_map, List.map_cons, List.map_map, Buffer.waiting]
    congr 1
    · rw [Nat.add_zero, Nat.mod_eq_of_lt h.rpos]
    · apply List.map_congr_left
      intro i _
      have he : (b.rpos + (i + 1)) % consBufsize = (b'.rpos + i) % consBufsize := by
        rw [hr'.2]
        simp only [consBufsize]
        omega
      rw [Function.comp_apply, Nat.succ_eq_add_one, he]
  exact ⟨hwait, hr'.1, hw, fun c hc => h.nonzero c (hwait ▸ List.mem_cons_of_mem _ hc)⟩

theorem Buffer.waiting_eq_nil (h : b.rpos = b.wpos) : b.waiting = [] := by
  rw [Buffer.waiting, h, Nat.add_sub_cancel_left, Nat.mod_self]
  rfl

/-- `cons_getc` returns the first character that waits, or none. -/
theorem Buffer.Valid.getc (h : b.Valid) {polled : List (BitVec 8)}
    (hroom : b.waiting.length + (polled.filter (· ≠ 0)).length ≤ consBufsize - 1) :
    b.waiting ++ polled.filter (· ≠ 0) =
        (if (b.getc polled).1 = 0 then [] else [(b.getc polled).1]) ++ (b.getc polled).2.waiting ∧
      (b.getc polled).2.Valid := by
  obtain ⟨hw, hv⟩ := h.puts hroom
  rw [← hw, Buffer.getc]
  by_cases hne : (b.puts polled).rpos = (b.puts polled).wpos
  · rw [if_neg (not_not.2 hne), if_pos rfl]
    exact ⟨rfl, hv⟩
  · obtain ⟨hg, hv'⟩ := hv.get hne
    have h0 := hv.nonzero _ (hg ▸ List.mem_cons_self)
    rw [if_pos hne, if_neg h0]
    exact ⟨hg, hv'⟩

/-- `cons_io` takes all characters that wait, where they do not go over the end. -/
theorem Buffer.Valid.io (h : b.Valid) (hle : b.rpos ≤ b.wpos) {consin : List (BitVec 8)}
    (hf : ¬ b.Full consin) :
    ∃ b', b.io consin = .ok (b.waiting, b') ∧ b'.waiting = [] ∧ b'.Valid := by
  have hw := h.wpos
  have ha : b.amount = ((b.wpos - b.rpos : ℕ) : ℤ) := by
    rw [Buffer.amount]
    omega
  have hok : ¬ ¬ (0 ≤ b.amount ∧ b.amount ≤ consBufsize) := by
    rw [ha, not_not]
    omega
  rw [Buffer.io, if_neg hf, if_neg hok]
  by_cases hpos : 0 < b.amount
  · have hwait : b.waiting = (List.range b.amount.toNat).map fun i => b.buf (b.rpos + i) := by
      have hn : (b.wpos + consBufsize - b.rpos) % consBufsize = b.wpos - b.rpos := by
        simp only [consBufsize] at hw ⊢
        omega
      rw [Buffer.waiting, hn, ha, Int.toNat_natCast]
      apply List.map_congr_left
      intro i hi
      rw [List.mem_range] at hi
      rw [Nat.mod_eq_of_lt (by omega)]
    have hnil : (⟨b.buf, 0, 0⟩ : Buffer).waiting = [] := Buffer.waiting_eq_nil rfl
    refine ⟨⟨b.buf, 0, 0⟩, ?_, hnil, Nat.zero_lt_succ _, Nat.zero_lt_succ _, ?_⟩
    · rw [if_pos hpos, hwait]
    · rw [hnil]
      exact fun _ hc => nomatch hc
  · have hnil : b.waiting = [] := Buffer.waiting_eq_nil (by omega)
    refine ⟨b, ?_, hnil, h⟩
    rw [if_neg hpos, hnil]

/-- Where they do, it fails its assertion. -/
theorem Buffer.io_wrapped (hlt : b.wpos < b.rpos) {consin : List (BitVec 8)}
    (hf : ¬ b.Full consin) : b.io consin = .error .assertion := by
  have ha : ¬ (0 ≤ b.amount ∧ b.amount ≤ consBufsize) := by
    rw [Buffer.amount]
    omega
  rw [Buffer.io, if_neg hf, if_pos ha]

/-! ## The stream -/

namespace Stream

variable {s t : Stream}

/-- The stream is exact, and its buffer in order. -/
structure Good (s : Stream) : Prop where
  exact : s.Exact
  valid : s.cons.Valid

theorem Good.init (buf : ℕ → BitVec 8) : (Stream.init buf).Good := by
  have hnil : (Stream.init buf).cons.waiting = [] := Buffer.waiting_eq_nil rfl
  refine ⟨?_, Nat.zero_lt_succ _, Nat.zero_lt_succ _, ?_⟩
  · rw [Exact, hnil]
    rfl
  · rw [hnil]
    exact fun _ hc => nomatch hc

/-- The number of characters that wait. -/
theorem Good.length (h : s.Good) : s.delivered.length - s.taken.length = s.cons.waiting.length := by
  have he := h.exact
  rw [Exact] at he
  rw [he, List.length_append]
  omega

/-- A step that does not stop keeps the stream exact. -/
theorem Good.step (h : s.Good) {op : Op}
    (hroom : (s.delivered ++ op.chars).length - s.taken.length ≤ consBufsize - 1)
    (ht : s.step op = .ok t) : t.Good := by
  have he := h.exact
  rw [Exact] at he
  have hlen : s.cons.waiting.length + op.chars.length ≤ consBufsize - 1 := by
    rw [he, List.length_append, List.length_append] at hroom
    omega
  cases op with
  | intr cs =>
    obtain ⟨hw, hv⟩ := h.valid.puts hlen
    obtain rfl := Except.ok.inj ht
    refine ⟨?_, hv⟩
    change s.delivered ++ cs.filter (· ≠ 0) = s.taken ++ (s.cons.puts cs).waiting
    rw [hw, he, List.append_assoc]
  | getc polled =>
    obtain ⟨hw, hv⟩ := h.valid.getc hlen
    obtain rfl := Except.ok.inj ht
    refine ⟨?_, hv⟩
    change s.delivered ++ polled.filter (· ≠ 0) =
      (if (s.cons.getc polled).1 = 0 then s.taken else s.taken ++ [(s.cons.getc polled).1]) ++
        (s.cons.getc polled).2.waiting
    rw [he, List.append_assoc, hw]
    by_cases h0 : (s.cons.getc polled).1 = 0
    · rw [if_pos h0, if_pos h0, List.nil_append]
    · rw [if_neg h0, if_neg h0, List.append_assoc]
  | io consin =>
    rw [Stream.step] at ht
    by_cases hf : s.cons.Full consin
    · rw [Buffer.io, if_pos hf] at ht
      cases ht
    · rcases Nat.lt_or_ge s.cons.wpos s.cons.rpos with hlt | hle
      · rw [Buffer.io_wrapped hlt hf] at ht
        cases ht
      · obtain ⟨b', hio, hnil, hv⟩ := h.valid.io hle hf
        rw [hio] at ht
        obtain rfl := Except.ok.inj ht
        refine ⟨?_, hv⟩
        change s.delivered ++ [] = (s.taken ++ s.cons.waiting) ++ b'.waiting
        rw [hnil, he]

/-- A step fails the assertion unless it finds the characters that wait in one stretch. -/
theorem Good.step_iff (h : s.Good) (op : Op) : s.InStretch op ↔ s.step op ≠ .error .assertion := by
  cases op with
  | intr cs => exact ⟨(fun _ he => nomatch he), fun _ => trivial⟩
  | getc polled => exact ⟨(fun _ he => nomatch he), fun _ => trivial⟩
  | io consin =>
    rw [Stream.step, InStretch]
    constructor
    · intro hle
      by_cases hf : s.cons.Full consin
      · rw [Buffer.io, if_pos hf]
        exact fun he => nomatch he
      · obtain ⟨b', hio, -⟩ := h.valid.io (hle hf) hf
        rw [hio]
        exact fun he => nomatch he
    · intro hne hf
      by_contra hlt
      rw [Buffer.io_wrapped (Nat.not_le.1 hlt) hf] at hne
      exact hne rfl

/-- From an exact stream on, nothing is lost, duplicated or reordered and the assertion does not fail, if
and only if the characters that wait never go over the end of the buffer at a `cons_io`. -/
theorem Good.promise_unwrapped (h : s.Good) {ops : List Op} (hroom : s.Roomy ops) :
    s.Promise ops ↔ s.Unwrapped ops := by
  induction ops generalizing s with
  | nil => exact ⟨fun _ => trivial, fun _ => h.exact⟩
  | cons op ops ih =>
    rw [Promise, Unwrapped, h.step_iff]
    obtain ⟨hr, hroom⟩ := hroom
    cases ht : s.step op with
    | ok t =>
      rw [ht] at hroom
      have hi := ih (h.step hr ht) hroom
      exact ⟨fun hp => ⟨(fun he => nomatch he), hi.1 hp.2⟩, fun hu => ⟨h.exact, hi.2 hu.2⟩⟩
    | error e =>
      cases e with
      | full => exact ⟨fun _ => ⟨(fun he => nomatch he), trivial⟩, fun _ => ⟨h.exact, trivial⟩⟩
      | assertion => exact ⟨fun hp => hp.2.elim, fun hu => absurd rfl hu.1⟩

/-- Over every run in which never more than `CONSBUFSIZE - 1` characters wait, the characters that
`cons_getc` returns and `cons_io` appends are those delivered without those that wait, and the
assertion of `cons_io` does not fail, if and only if the characters that wait never go over the end
of the buffer at a `cons_io`. -/
theorem promise_iff (buf : ℕ → BitVec 8) (ops : List Op) (hroom : (init buf).Roomy ops) :
    (init buf).Promise ops ↔ (init buf).Unwrapped ops :=
  (Good.init buf).promise_unwrapped hroom

/-- Two characters, one of which is returned before the other is moved to the input file. -/
theorem promise_two : (init fun _ => 0).Promise [.intr [0x61, 0x62], .getc [], .io []] :=
  (promise_iff (fun _ => 0) [.intr [0x61, 0x62], .getc [], .io []] (by decide)).2 (by decide)

/-- Of 511 characters one is returned, and another one comes: the assertion fails. -/
theorem promise_wrapped :
    let ops := [.intr (List.replicate 511 0x61), .getc [], .intr [0x62], .io [0x61]]
    (init fun _ => 0).Roomy ops ∧ ¬ (init fun _ => 0).Promise ops := by
  intro ops
  have hroom : (init fun _ => 0).Roomy ops := by decide +kernel
  have hwrap : ¬ (init fun _ => 0).Unwrapped ops := by decide +kernel
  exact ⟨hroom, fun h => hwrap (((Good.init _).promise_unwrapped hroom).1 h)⟩

end Stream

end Determinator.Console
