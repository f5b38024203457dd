import Determinator.Pmap.Spaces

/-!
# The order in which processes run

Processes have page maps of their own; so it does not matter how what is done to one is interleaved with what is
done to the others (`runs_interleaved`). When page maps are merged into one, the order does not matter if no two have
changed the same byte, and there is everything then that they have changed (`merges_any_order`).
-/

namespace Determinator

open PanicM

variable {b : Boot} {s₀ : Mem} {σ τ τ' : Maps} {dr : Frame} {a : ℕ} {S : Frame → Space}

/-! ## Interleavings -/

/-- Where an operation puts a page. -/
def SpaceOp.place : SpaceOp → Option (Frame × ℕ)
  | put r va _ => some (r, va)
  | _ => none

theorem SpaceOp.places {os : List SpaceOp} {r r' : Frame} {va va' : ℕ}
    (h : os.map place = [some (r, va), some (r', va')]) : ∃ pg pg', os = [.put r va pg, .put r' va' pg'] := by
  have hput : ∀ {o : SpaceOp} {r va}, o.place = some (r, va) → ∃ pg, o = .put r va pg := by
    intro o r va ho
    cases o with
    | put r₁ va₁ pg =>
      obtain ⟨rfl, rfl⟩ := Prod.mk.inj (Option.some.inj ho)
      exact ⟨pg, rfl⟩
    | clear => cases ho
    | copy => cases ho
    | merge => cases ho
  obtain ⟨o, os, rfl, ho, hos⟩ := List.map_eq_cons_iff.1 h
  obtain ⟨o', os, rfl, ho', hos⟩ := List.map_eq_cons_iff.1 hos
  obtain rfl := List.map_eq_nil_iff.1 hos
  obtain ⟨pg, rfl⟩ := hput ho
  obtain ⟨pg', rfl⟩ := hput ho'
  exact ⟨pg, pg', rfl⟩

theorem SpaceOp.run_pair (o o' : SpaceOp) (S : Frame → Space) : run [o, o'] S = o'.act.apply (o.act.apply S) := rfl

/-- Neither operation is on a memory that the other one changes. -/
def SpaceOp.Independent (p q : SpaceOp) : Prop := LocalAct.Independent p.act q.act

/-- **Runs** that interleave the same operations on different page maps in different ways end with the same bytes. -/
theorem runs_interleaved {cs cs' : List PmapCall} {os os' ps qs : List SpaceOp} (hb : Booted b s₀)
    (h : Reach b (fun _ => True) defects s₀ σ) (hrun : plainRun b cs σ = some (os, τ))
    (hrun' : plainRun b cs' σ = some (os', τ')) (hi : Interleaving ps qs os) (hi' : Interleaving ps qs os')
    (hind : ∀ p ∈ ps, ∀ q ∈ qs, p.Independent q) : τ.spaces b = τ'.spaces b := by
  have hind' : ∀ p ∈ ps.map SpaceOp.act, ∀ q ∈ qs.map SpaceOp.act, LocalAct.Independent p q := by
    intro p hp q hq
    obtain ⟨p', hp', rfl⟩ := List.mem_map.1 hp
    obtain ⟨q', hq', rfl⟩ := List.mem_map.1 hq
    exact hind p' hp' q' hq'
  rw [plainRun_spaces hb h hrun, plainRun_spaces hb h hrun']
  unfold SpaceOp.run
  rw [LocalAct.run_interleaving (hi.map _) hind', LocalAct.run_interleaving (hi'.map _) hind']

/-- In two page maps there is a page, and both are removed. -/
theorem runs_interleaved_sample : ∃ σ os os' τ τ', Reach sampleBoot (fun _ => True) defects (freshMem samplePages) σ ∧
    plainRun sampleBoot [.remove 0x1000 0x40001000 4096, .remove 0x1002 0x40001000 4096] σ = some (os, τ) ∧
    plainRun sampleBoot [.remove 0x1002 0x40001000 4096, .remove 0x1000 0x40001000 4096] σ = some (os', τ') ∧
    τ.spaces sampleBoot = τ'.spaces sampleBoot := by
  obtain ⟨σ, hσ, hP⟩ := exists_reach sampleBoot (fun _ => True) defects (freshMem samplePages)
    [.newpmap, .newpmap, .alloc, .insert 0x1000 0x1004 0x40001000 sysRW, .copy 0x1000 0x40001000 0x1002 0x40001000 4096]
    (fun σ => (plainRun sampleBoot [.remove 0x1000 0x40001000 4096, .remove 0x1002 0x40001000 4096] σ).isSome &&
      (plainRun sampleBoot [.remove 0x1002 0x40001000 4096, .remove 0x1000 0x40001000 4096] σ).isSome)
    (fun _ _ => trivial) (by decide +kernel)
  rw [Bool.and_eq_true, Option.isSome_iff_exists, Option.isSome_iff_exists] at hP
  obtain ⟨⟨⟨os, τ⟩, hrun⟩, ⟨os', τ'⟩, hrun'⟩ := hP
  refine ⟨σ, os, os', τ, τ', hσ, hrun, hrun', ?_⟩
  let p : SpaceOp := .clear 0x1000 0x40001000 4096
  let q : SpaceOp := .clear 0x1002 0x40001000 4096
  have hi : Interleaving [p] [q] os := by
    obtain ⟨_, _, -, -, -, h₁, rfl⟩ := plainRun_cons hrun
    obtain ⟨_, _, -, -, -, h₂, rfl⟩ := plainRun_cons h₁
    obtain ⟨rfl, rfl⟩ := Prod.mk.inj (Option.some.inj h₂)
    exact .left _ (.right _ .nil)
  have hi' : Interleaving [p] [q] os' := by
    obtain ⟨_, _, -, -, -, h₁, rfl⟩ := plainRun_cons hrun'
    obtain ⟨_, _, -, -, -, h₂, rfl⟩ := plainRun_cons h₁
    obtain ⟨rfl, rfl⟩ := Prod.mk.inj (Option.some.inj h₂)
    exact .right _ (.left _ .nil)
  refine runs_interleaved sample_booted hσ hrun hrun' hi hi' ?_
  simp only [List.mem_singleton]
  rintro _ rfl _ rfl
  exact ⟨by decide, Set.notMem_empty _, Set.notMem_empty _⟩

/-! ## Merges -/

/-- What is merged: a page map and what it was at first, and the addresses. -/
structure Fork where
  rr : Frame
  sr : Frame
  sva : ℕ
  dva : ℕ
  size : ℕ

namespace Fork

def call (dr : Frame) (m : Fork) : PmapCall := .merge m.rr m.sr m.sva dr m.dva m.size

def op (dr : Frame) (m : Fork) : SpaceOp := .merge m.rr m.sr m.sva dr m.dva m.size

/-- The bytes at first, at the addresses to which they are merged. -/
def before (S : Frame → Space) (m : Fork) : Space := (S m.rr).moved m.sva m.dva m.size

/-- The bytes that are merged. -/
def after (S : Frame → Space) (m : Fork) : Space := (S m.sr).moved m.sva m.dva m.size

/-- A merge in which no byte has been changed in both is a three-way merge of all the bytes. -/
theorem joins {m : Fork} (h : Unopposed (m.before S) (m.after S) (S dr)) :
    Joins (m.before S) (m.after S) (S dr) ((m.op dr).result S) := by
  have hopp : ∀ a, ¬Space.Opposed ((S m.rr).moved m.sva m.dva m.size) ((S m.sr).moved m.sva m.dva m.size) (S dr) a := by
    rintro a ⟨k, -, he, hd⟩
    exact (h _).elim he hd
  constructor
  · intro a ha
    unfold before after at ha
    simp only [op, SpaceOp.result]
    rw [if_neg (hopp a), if_pos ha, ite_self]
  · intro a ha
    refine ⟨(h a).resolve_left ha, ?_⟩
    have hin : m.dva ≤ a ∧ a < m.dva + m.size := by
      by_contra hin
      unfold before after Space.moved at ha
      rw [if_neg hin, if_neg hin] at ha
      exact ha rfl
    unfold before after at ha
    simp only [op, SpaceOp.result]
    rw [if_pos hin, if_neg (hopp a), if_neg ha]
    rfl

/-- Neither the reference nor the source is the page map to merge into. -/
structure Outside (dr : Frame) (m : Fork) : Prop where
  ref : m.rr ≠ dr
  src : m.sr ≠ dr

theorem before_apply {m m' : Fork} (hm : m.Outside dr) : m.before ((m'.op dr).act.apply S) = m.before S := by
  unfold before
  rw [LocalAct.apply_ne hm.ref]

theorem after_apply {m m' : Fork} (hm : m.Outside dr) : m.after ((m'.op dr).act.apply S) = m.after S := by
  unfold after
  rw [LocalAct.apply_ne hm.src]

/-- Merges one after the other. -/
theorem joinsAll {l : List Fork} (hm : ∀ m ∈ l, m.Outside dr) (hu : ∀ m ∈ l, Unopposed (m.before S) (m.after S) (S dr))
    (hs : l.Pairwise fun m m' => Separate (m.before S) (m.after S) (m'.before S) (m'.after S)) :
    JoinsAll (l.map fun m => (m.before S, m.after S)) (S dr) (SpaceOp.run (l.map (op dr)) S dr) := by
  induction l generalizing S with
  | nil => exact .nil _
  | cons m l ih =>
    obtain ⟨hs₁, hs₂⟩ := List.pairwise_cons.1 hs
    have hj := joins (hu m List.mem_cons_self)
    have hdr : (m.op dr).act.apply S dr = (m.op dr).result S := (m.op dr).act.apply_target
    have hstay : ∀ m' ∈ l, m'.before ((m.op dr).act.apply S) = m'.before S ∧ m'.after ((m.op dr).act.apply S) = m'.after S :=
      fun m' hm' => ⟨before_apply (hm m' (List.mem_cons_of_mem m hm')), after_apply (hm m' (List.mem_cons_of_mem m hm'))⟩
    have h := ih (S := (m.op dr).act.apply S) (fun m' hm' => hm m' (List.mem_cons_of_mem m hm')) (fun m' hm' => ?_) ?_
    · refine .cons hj ?_
      rw [List.map_congr_left fun m' hm' => by rw [(hstay m' hm').1, (hstay m' hm').2], hdr] at h
      exact h
    · rw [(hstay m' hm').1, (hstay m' hm').2, hdr]
      intro i
      rcases hs₁ m' hm' i with hi | hi
      · rw [hj.kept i hi]
        exact hu m' (List.mem_cons_of_mem m hm') i
      · exact .inl hi
    · refine hs₂.imp_of_mem fun {m' m''} h' h'' hsep => ?_
      rw [(hstay m' h').1, (hstay m' h').2, (hstay m'' h'').1, (hstay m'' h'').2]
      exact hsep

/-- A run of merges. -/
theorem plainRun_ops {l : List Fork} {os : List SpaceOp} (h : plainRun b (l.map (call dr)) σ = some (os, τ)) :
    os = l.map (op dr) ∧ ∀ m ∈ l, m.Outside dr := by
  induction l generalizing σ os with
  | nil =>
    obtain ⟨rfl, rfl⟩ := Prod.mk.inj (Option.some.inj h)
    exact ⟨rfl, by simp⟩
  | cons m l ih =>
    obtain ⟨σ', os', -, ⟨h₁, h₂, -⟩, -, hrest, rfl⟩ := plainRun_cons h
    obtain ⟨rfl, hl⟩ := ih hrest
    refine ⟨rfl, fun m' hm' => ?_⟩
    rcases List.mem_cons.1 hm' with rfl | hm'
    · exact ⟨h₁, h₂⟩
    · exact hl m' hm'

end Fork

/-- **Merges** into one page map come to the same in any order, if no two have changes of the same byte and none has a
change where the page map has. What one has changed is there in the end, and nothing else has changed. -/
theorem merges_any_order {l l' : List Fork} {os os' : List SpaceOp} (hb : Booted b s₀)
    (h : Reach b (fun _ => True) defects s₀ σ) (hperm : l.Perm l')
    (hrun : plainRun b (l.map (Fork.call dr)) σ = some (os, τ)) (hrun' : plainRun b (l'.map (Fork.call dr)) σ = some (os', τ'))
    (hu : ∀ m ∈ l, Unopposed (m.before (σ.spaces b)) (m.after (σ.spaces b)) (σ.spaces b dr))
    (hs : l.Pairwise fun m m' =>
      Separate (m.before (σ.spaces b)) (m.after (σ.spaces b)) (m'.before (σ.spaces b)) (m'.after (σ.spaces b))) :
    τ.spaces b = τ'.spaces b ∧ (∀ r, r ≠ dr → τ.spaces b r = σ.spaces b r) ∧
    (∀ m ∈ l, ∀ a, m.after (σ.spaces b) a ≠ m.before (σ.spaces b) a → τ.spaces b dr a = m.after (σ.spaces b) a) ∧
    ∀ a, (∀ m ∈ l, m.after (σ.spaces b) a = m.before (σ.spaces b) a) → τ.spaces b dr a = σ.spaces b dr a := by
  obtain ⟨rfl, hm⟩ := Fork.plainRun_ops hrun
  obtain ⟨rfl, hm'⟩ := Fork.plainRun_ops hrun'
  have hτ := plainRun_spaces hb h hrun
  have hτ' := plainRun_spaces hb h hrun'
  have hother : ∀ (l : List Fork) r, r ≠ dr → SpaceOp.run (l.map (Fork.op dr)) (σ.spaces b) r = σ.spaces b r := by
    intro l r hr
    refine LocalAct.run_ne fun p hp => ?_
    obtain ⟨o, ho, rfl⟩ := List.mem_map.1 hp
    obtain ⟨m, -, rfl⟩ := List.mem_map.1 ho
    exact hr
  have hj := Fork.joinsAll hm hu hs
  have hsep : (l.map fun m => (m.before (σ.spaces b), m.after (σ.spaces b))).Pairwise
      fun c c' => Separate c.1 c.2 c'.1 c'.2 := List.pairwise_map.2 hs
  have hj' := Fork.joinsAll hm' (fun m hml => hu m (hperm.mem_iff.2 hml))
    ((hperm.pairwise_iff Separate.symm).1 hs)
  have hdr : τ.spaces b dr = τ'.spaces b dr := by
    rw [hτ, hτ']
    exact (hj.perm (hperm.map _) hsep).unique hj'
  rw [← hτ] at hj
  refine ⟨?_, fun r hr => by rw [hτ, hother l r hr], fun m hml a ha => ?_, fun a ha => ?_⟩
  · funext r
    by_cases hr : r = dr
    · rw [hr, hdr]
    · rw [hτ, hτ', hother l r hr, hother l' r hr]
  · exact hj.taken hsep (List.mem_map_of_mem hml) ha
  · refine hj.kept fun c hc => ?_
    obtain ⟨m, hml, rfl⟩ := List.mem_map.1 hc
    exact ha m hml

theorem Space.moved_zero (sva dva size : ℕ) : Space.moved (fun _ => 0) sva dva size = fun _ => 0 := by
  funext a
  unfold Space.moved
  exact ite_self 0

/-- The page map of the parent, that of its children at first, and those of the children; they have written a page
each. -/
def sampleChildren : List PmapCall := [.newpmap, .newpmap, .newpmap, .newpmap, .alloc, .fill 0x1008 (fun _ => .mk' 1 0),
  .insert 0x1004 0x1008 0x40001000 sysRW, .alloc, .fill 0x100a (fun _ => .mk' 2 0), .insert 0x1006 0x100a 0x80001000 sysRW]

def sampleFork (child : Frame) : Fork := ⟨0x1002, child, 0x40000000, 0x40000000, 0x80000000⟩

theorem sampleFork_after {child : Frame} {a : ℕ} (h : S child a = 0) : (sampleFork child).after S a = 0 := by
  unfold Fork.after sampleFork Space.moved
  simp only
  split
  · rename_i hin
    rw [show 0x40000000 + (a - 0x40000000) = a by omega, h]
  · rfl

/-- Two children are merged. -/
theorem merges_any_order_sample : ∃ σ os os' τ τ', Reach sampleBoot (fun _ => True) defects (freshMem samplePages) σ ∧
    plainRun sampleBoot ([sampleFork 0x1004, sampleFork 0x1006].map (Fork.call 0x1000)) σ = some (os, τ) ∧
    plainRun sampleBoot ([sampleFork 0x1006, sampleFork 0x1004].map (Fork.call 0x1000)) σ = some (os', τ') ∧
    τ.spaces sampleBoot = τ'.spaces sampleBoot := by
  have hP : (plainRun sampleBoot sampleChildren ⟨freshMem samplePages, [], []⟩).any (fun x =>
      decide (x.1.map SpaceOp.place = [some (0x1004, 0x40001000), some (0x1006, 0x80001000)]) &&
      (plainRun sampleBoot ([sampleFork 0x1004, sampleFork 0x1006].map (Fork.call 0x1000)) x.2).isSome &&
      (plainRun sampleBoot ([sampleFork 0x1006, sampleFork 0x1004].map (Fork.call 0x1000)) x.2).isSome) = true := by
    decide +kernel
  rw [Option.any_eq_true] at hP
  obtain ⟨⟨ops, σ⟩, hsetup, hP⟩ := hP
  rw [Bool.and_eq_true, Bool.and_eq_true, Option.isSome_iff_exists, Option.isSome_iff_exists] at hP
  obtain ⟨⟨hops, ⟨os, τ⟩, hrun⟩, ⟨os', τ'⟩, hrun'⟩ := hP
  obtain ⟨pg, pg', rfl⟩ := SpaceOp.places (of_decide_eq_true hops)
  have hσ := plainRun_spaces sample_booted .boot hsetup
  rw [spaces_boot, SpaceOp.run_pair] at hσ
  have hR : ∀ r, r ≠ 0x1004 → r ≠ 0x1006 → σ.spaces sampleBoot r = fun _ => 0 := by
    intro r h₁ h₂
    rw [hσ, LocalAct.apply_ne h₂, LocalAct.apply_ne h₁]
  have hA : ∀ a, a / pageSize ≠ 0x40001 → σ.spaces sampleBoot 0x1004 a = 0 := by
    intro a ha
    have hne : (0x1004 : Frame) ≠ (SpaceOp.put 0x1006 0x80001000 pg').act.target := by
      change (0x1004 : Frame) ≠ 0x1006
      decide
    rw [hσ, LocalAct.apply_ne hne]
    exact if_neg ha
  have hB : ∀ a, a / pageSize ≠ 0x80001 → σ.spaces sampleBoot 0x1006 a = 0 := by
    intro a ha
    rw [hσ]
    exact if_neg ha
  have hbefore : ∀ child, (sampleFork child).before (σ.spaces sampleBoot) = fun _ => 0 := by
    intro child
    unfold Fork.before
    rw [show (sampleFork child).rr = 0x1002 from rfl, hR 0x1002 (by decide) (by decide), Space.moved_zero]
  refine ⟨σ, os, os', τ, τ', Reach.plainRun sample_booted .boot hsetup, hrun, hrun', ?_⟩
  refine (merges_any_order sample_booted (Reach.plainRun sample_booted .boot hsetup) (List.Perm.swap ..) hrun hrun'
    (fun m hm a => .inr ?_) ?_).1
  · rw [hR 0x1000 (by decide) (by decide)]
    simp only [List.mem_cons, List.not_mem_nil, or_false] at hm
    rcases hm with rfl | rfl <;> rw [hbefore]
  · rw [List.pairwise_pair]
    intro a
    rw [hbefore, hbefore]
    by_cases ha : a / pageSize = 0x40001
    · have hb : (sampleFork 0x1006).after (σ.spaces sampleBoot) a = 0 :=
        sampleFork_after (hB a (by rw [ha]; decide))
      exact .inr hb
    · exact .inl (sampleFork_after (hA a ha))

end Determinator
