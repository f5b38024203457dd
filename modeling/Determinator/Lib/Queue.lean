import Mathlib.Logic.Function.Basic
import Mathlib.Data.List.Basic

/-!
# Lists threaded through records

A singly linked list whose links are kept in a function `next` from records to records, as a
kernel keeps its lists: `Chain next h l` says that following the links from `h` visits the records
of `l` in this order and then ends.

`Thread` is such a list with a pointer to its last link, so that records can be put at its end;
`Thread.Holds t l` says that `t` represents `l`, each record of it once.
-/

namespace Determinator

variable {α : Type} [DecidableEq α]

/-! ## Chains -/

/-- The links lead from `h` through `l` to the end. -/
def Chain (next : α → Option α) : Option α → List α → Prop
  | h, [] => h = none
  | h, a :: l => h = some a ∧ Chain next (next a) l

namespace Chain

variable {next next' : α → Option α} {h : Option α} {l : List α} {a : α}

omit [DecidableEq α] in
theorem congr : ∀ {h : Option α} {l : List α}, Chain next h l → (∀ b ∈ l, next' b = next b) →
    Chain next' h l
  | _, [], hc, _ => hc
  | _, a :: _, ⟨hh, hc⟩, he => by
    refine ⟨hh, ?_⟩
    rw [he a List.mem_cons_self]
    exact congr hc fun b hb => he b (List.mem_cons_of_mem a hb)

theorem update (hc : Chain next h l) (ha : a ∉ l) (v : Option α) :
    Chain (Function.update next a v) h l :=
  hc.congr fun _ hb => Function.update_of_ne (ne_of_mem_of_not_mem hb ha) _ _

omit [DecidableEq α] in
/-- The list is determined by the links. -/
theorem unique : ∀ {h : Option α} {l l' : List α}, Chain next h l → Chain next h l' → l = l'
  | _, [], [], _, _ => rfl
  | _, [], a :: l', hc, ⟨hh, _⟩ => by
    have e : (none : Option α) = some a := (show _ = none from hc) ▸ hh
    cases e
  | _, a :: l, [], ⟨hh, _⟩, hc => by
    have e : (none : Option α) = some a := (show _ = none from hc) ▸ hh
    cases e
  | _, a :: l, b :: l', ⟨hh, hc⟩, ⟨hh', hc'⟩ => by
    have e : a = b := Option.some.inj (hh.symm.trans hh')
    subst e
    rw [unique hc hc']

omit [DecidableEq α] in
/-- The link of a record leads to the records behind it. -/
theorem next_mid : ∀ {h : Option α} {l l' : List α}, Chain next h (l ++ a :: l') →
    Chain next (next a) l'
  | _, [], _, ⟨_, hc⟩ => hc
  | _, _ :: l, _, ⟨_, hc⟩ => next_mid (l := l) hc

omit [DecidableEq α] in
theorem head_eq (hc : Chain next h l) : h = l.head? := by
  cases l with
  | nil => exact hc
  | cons a l => exact hc.1

/-- Writing to the last link puts a record at the end. -/
theorem concat : ∀ {h : Option α} {l : List α} {b : α}, Chain next h (l ++ [b]) →
    (l ++ [b]).Nodup → a ∉ l ++ [b] →
    Chain (Function.update (Function.update next a none) b (some a)) h (l ++ [b] ++ [a])
  | _, [], b, ⟨hh, _⟩, _, ha => by
    have hab : a ≠ b := by simpa using ha
    refine ⟨hh, by simp, ?_⟩
    simp [Chain, hab]
  | _, c :: l, b, ⟨hh, hc⟩, hn, ha => by
    have hcb : c ≠ b := by
      rintro rfl
      simp at hn
    have hca : c ≠ a := by
      rintro rfl
      simp at ha
    refine ⟨hh, ?_⟩
    rw [Function.update_of_ne hcb, Function.update_of_ne hca]
    exact concat hc (List.nodup_cons.1 hn).2 fun h => ha (List.mem_cons_of_mem c h)

end Chain

/-! ## Queues -/

/-- Where the end of a list is: at its head pointer, or at the link of a record. -/
inductive Link (α : Type)
  | head
  | next (a : α)
  deriving DecidableEq

/-- A threaded list with a pointer to its last link. -/
structure Thread (α : Type) where
  head : Option α
  next : α → Option α
  tail : Link α

namespace Thread

/-- The link at the end of a list. -/
def lastLink (l : List α) : Link α := l.getLast?.elim .head .next

/-- The queue represents `l`. -/
structure Holds (t : Thread α) (l : List α) : Prop where
  chain : Chain t.next t.head l
  nodup : l.Nodup
  tail : t.tail = lastLink l

/-- Put a record at the end. -/
def push (t : Thread α) (a : α) : Thread α :=
  let next := Function.update t.next a none
  match t.tail with
  | .head => ⟨some a, next, .next a⟩
  | .next b => ⟨t.head, Function.update next b (some a), .next a⟩

/-- Take the record `a` from the front. -/
def pop (t : Thread α) (a : α) : Thread α :=
  ⟨t.next a, Function.update t.next a none, if t.tail = .next a then .head else t.tail⟩

variable {t : Thread α} {l : List α} {a : α}

omit [DecidableEq α] in
theorem lastLink_concat (l : List α) (a : α) : lastLink (l ++ [a]) = .next a := by
  simp [lastLink]

omit [DecidableEq α] in
theorem lastLink_cons_cons (a b : α) (l : List α) : lastLink (a :: b :: l) = lastLink (b :: l) := by
  simp [lastLink, List.getLast?_cons_cons]

omit [DecidableEq α] in
theorem mem_of_lastLink (h : lastLink l = .next a) : a ∈ l := by
  unfold lastLink at h
  cases hl : l.getLast? with
  | none =>
    rw [hl] at h
    cases h
  | some b =>
    rw [hl] at h
    have : b = a := by simpa using h
    exact this ▸ List.mem_of_getLast? hl

/-- A record is taken out of a chain by pointing the link before it at its successor. -/
theorem chain_erase {next : α → Option α} : ∀ {h : Option α} {l l' : List α},
    Chain next h (l ++ a :: l') → (l ++ a :: l').Nodup →
    Chain (fun b => if lastLink l = .next b then next a else next b)
      (if lastLink l = .head then next a else h) (l ++ l')
  | _, [], _, ⟨_, hc⟩, _ => by
    simpa [lastLink] using hc
  | _, [b], l', ⟨hh, hc⟩, hn => by
    have hb : b ∉ l' := by
      intro hb
      simp [hb] at hn
    refine ⟨by simpa [lastLink] using hh, ?_⟩
    have hc' : Chain next (next a) l' := hc.2
    simp only [lastLink, List.getLast?_singleton, Option.elim_some, if_true]
    refine hc'.congr fun c hcl => if_neg ?_
    intro e
    injection e with e
    exact hb (e ▸ hcl)
  | _, b :: c :: l, l', ⟨hh, hc⟩, hn => by
    have ih := chain_erase (l := c :: l) hc (List.nodup_cons.1 hn).2
    have hlast : lastLink (b :: c :: l) = lastLink (c :: l) := lastLink_cons_cons b c l
    have hne : lastLink (c :: l) ≠ .head := by
      simp [lastLink, List.getLast?_cons]
    have hb : lastLink (c :: l) ≠ .next b := by
      intro e
      have : b ∈ c :: l := mem_of_lastLink e
      exact (List.nodup_cons.1 hn).1 (List.mem_append_left _ this)
    rw [hlast]
    refine ⟨by rw [if_neg hne]; exact hh, ?_⟩
    rw [if_neg hne] at ih
    simp only [if_neg hb]
    exact ih

theorem Holds.push (ht : t.Holds l) (ha : a ∉ l) : (t.push a).Holds (l ++ [a]) := by
  have hnd : (l ++ [a]).Nodup := by
    rw [List.nodup_append]
    refine ⟨ht.nodup, by simp, ?_⟩
    rintro b hb c hc rfl
    exact ha (List.mem_singleton.1 hc ▸ hb)
  rcases List.eq_nil_or_concat' l with rfl | ⟨l', b, rfl⟩
  · have htail : t.tail = .head := ht.tail
    refine ⟨?_, hnd, ?_⟩
    · simp [Thread.push, htail, Chain]
    · simp [Thread.push, htail, lastLink]
  · have htail : t.tail = .next b := ht.tail.trans (lastLink_concat l' b)
    refine ⟨?_, hnd, ?_⟩
    · simp only [Thread.push, htail]
      exact ht.chain.concat ht.nodup ha
    · simp only [Thread.push, htail]
      exact (lastLink_concat _ _).symm

theorem Holds.pop (ht : t.Holds (a :: l)) : (t.pop a).Holds l := by
  obtain ⟨hal, hnd⟩ := List.nodup_cons.1 ht.nodup
  refine ⟨ht.chain.2.update hal none, hnd, ?_⟩
  cases l with
  | nil =>
    have : t.tail = .next a := ht.tail
    simp [Thread.pop, this, lastLink]
  | cons b l =>
    have htail : t.tail = lastLink (b :: l) := ht.tail.trans (lastLink_cons_cons a b l)
    have hne : t.tail ≠ .next a := fun e => hal (mem_of_lastLink (htail ▸ e))
    simp only [Thread.pop, if_neg hne]
    exact htail

omit [DecidableEq α] in
/-- Only the links of the listed records matter. -/
theorem Holds.congr (ht : t.Holds l) (next : α → Option α) (h : ∀ b ∈ l, next b = t.next b) :
    Holds ⟨t.head, next, t.tail⟩ l :=
  ⟨ht.chain.congr h, ht.nodup, ht.tail⟩

omit [DecidableEq α] in
/-- The first record of a queue. -/
theorem Holds.head_eq (ht : t.Holds l) : t.head = l.head? := ht.chain.head_eq

end Thread

end Determinator
