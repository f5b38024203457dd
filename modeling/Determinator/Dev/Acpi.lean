import Mathlib.Algebra.Group.Nat.Defs
import Mathlib.Data.List.FinRange
import Mathlib.Logic.Function.Basic
import Mathlib.Tactic.Common

/-!
# Discovery of the processors

`madt_scan` of `dev/acpi.c` and `cpu_alloc` of `kern/cpu.c`. A table is given by its bytes, from the header
on; its entries are found one behind the other, each with its type and its length. The state is what the
scan sets: the addresses of the interrupt controllers and the list of processors, which starts with
`cpu_boot` and goes on through the slots of `cpus`.

The scan ends after every table whose entries fill it (`madtLoop_eq`). What it registers is right if every
local-APIC entry has its enable flag set and the length of the table fits an `int32_t` less the header: an
entry without flags is taken for an I/O APIC, since its case falls through, one with other flags than the
enable flag for a processor, and a longer table is not looked at (`madtScan_iff`).
-/

namespace Determinator.Acpi

/-! ## Processors -/

/-- `struct cpu`, with the global descriptor table of type `G`. -/
structure Cpu (G : Type) where
  inUse : Bool
  gdt : G
  next : Option (Fin 64)
  id : BitVec 8
  num : BitVec 8
  magic : BitVec 32

/-- `CPU_MAGIC`. -/
def cpuMagic : BitVec 32 := 0x98765432

/-- A line on the console. -/
inductive Line
  /-- "lapic addr %p" -/
  | lapic (addr : BitVec 32)
  /-- "ioapic %u addr %p" -/
  | ioapic (id : BitVec 8) (addr : BitVec 32)
  deriving DecidableEq

/-- What the scan works on. `cpuTail` is the processor whose `next` comes next, nothing for `cpu_boot`.
Addresses are physical ones. `registered` keeps what the scan has written to processors: the `id` and the `num`. -/
structure State (G : Type) where
  lapic : BitVec 32
  ioapic : BitVec 32
  ioapicid : BitVec 8
  cpuBoot : Cpu G
  cpus : Fin 64 → Cpu G
  cpuTail : Option (Fin 64)
  console : List Line
  registered : List (BitVec 8 × BitVec 8)

namespace State

variable {G : Type}

/-- The state at boot, with the table of the boot processor; `g` is a table of zeros. -/
def boot (gdt g : G) : State G where
  lapic := 0
  ioapic := 0
  ioapicid := 0
  cpuBoot := ⟨false, gdt, none, 0, 0, cpuMagic⟩
  cpus _ := ⟨false, g, none, 0, 0, 0⟩
  cpuTail := none
  console := []
  registered := []

/-- The state with another structure in a slot. -/
def setCpu (s : State G) (i : Fin 64) (c : Cpu G) : State G := { s with cpus := Function.update s.cpus i c }

/-- `*cpu_tail = c; cpu_tail = &c->next`. -/
def chain (s : State G) (c : Fin 64) : State G :=
  match s.cpuTail with
  | none => { s with cpuBoot := { s.cpuBoot with next := some c }, cpuTail := some c }
  | some t => { s.setCpu t { s.cpus t with next := some c } with cpuTail := some c }

/-- `cpu_alloc`; nothing where all slots are in use and a null pointer is cleared. -/
def cpuAlloc (s : State G) : Option (Fin 64 × State G) := do
  let c ← (List.finRange 64).find? fun i => !(s.cpus i).inUse
  return (c, (s.setCpu c ⟨true, s.cpuBoot.gdt, none, 0, 0, cpuMagic⟩).chain c)

/-- `c->id = id; c->num = num`. -/
def register (s : State G) (c : Option (Fin 64)) (id num : BitVec 8) : State G :=
  let s := { s with registered := s.registered ++ [(id, num)] }
  match c with
  | none => { s with cpuBoot := { s.cpuBoot with id, num } }
  | some c => s.setCpu c { s.cpus c with id, num }

/-- The processors from one on, `n` at most. -/
def cpusFrom (s : State G) : ℕ → Option (Fin 64) → List (Cpu G)
  | n + 1, some c => s.cpus c :: cpusFrom s n (s.cpus c).next
  | _, _ => []

/-- The list of all processors. -/
def cpuList (s : State G) : List (Cpu G) := s.cpuBoot :: s.cpusFrom 64 s.cpuBoot.next

end State

/-! ## `madt_scan` -/

/-- A table, by its bytes. -/
abbrev Table := ℕ → BitVec 8

/-- Four bytes as a number. -/
def Table.u32 (t : Table) (p : ℕ) : BitVec 32 := t (p + 3) ++ t (p + 2) ++ t (p + 1) ++ t p

/-- `sum`; the carries of the `int` do not matter. -/
def Table.sum (t : Table) (len : BitVec 32) : BitVec 8 :=
  (List.range len.toInt.toNat).foldl (fun sum i => sum + t i) 0

/-- The variables of the loop: `pc_count`, `ret` and what is shared. -/
structure Scan (G : Type) where
  pcCount : BitVec 32
  ret : Bool
  state : State G

/-- How a scan ends without a result. -/
inductive Stop
  /-- A null pointer. -/
  | null
  /-- It is not through after so many entries. -/
  | fuel
  deriving DecidableEq

variable {G : Type}

/-- `case MADT_IOAPIC`. -/
def madtIoapic (t : Table) (p : ℕ) (x : Scan G) : Scan G :=
  { x with
    ret := true
    state :=
      { x.state with
        ioapicid := t (p + 2)
        ioapic := t.u32 (p + 4)
        console := x.state.console ++ [.ioapic (t (p + 2)) (t.u32 (p + 4))] } }

/-- The processor of a local-APIC entry: the first one is always `cpu_boot`. -/
def madtLapic (t : Table) (p : ℕ) (x : Scan G) : Option (Scan G) :=
  let num : BitVec 8 := x.pcCount.setWidth 8
  if x.pcCount = 0 then
    some { x with pcCount := x.pcCount + 1, state := x.state.register none (t (p + 3)) num }
  else do
    let (i, s) ← x.state.cpuAlloc
    return { x with pcCount := x.pcCount + 1, state := s.register (some i) (t (p + 3)) num }

/-- The `switch` on an entry. -/
def madtEnt (t : Table) (p : ℕ) (x : Scan G) : Option (Scan G) :=
  if t p = 0 then
    if t (p + 4) ≠ 0 then madtLapic t p x
    -- there is no break here
    else some (madtIoapic t p x)
  else if t p = 1 then some (madtIoapic t p x)
  else some x

/-- The loop, for so many entries at most. -/
def madtLoop (t : Table) : ℕ → ℕ → BitVec 32 → Scan G → Except Stop (Scan G)
  | 0, _, length, x => if (0#32).slt length then .error .fuel else .ok x
  | fuel + 1, p, length, x =>
    if (0#32).slt length then
      match madtEnt t p x with
      | none => .error .null
      | some x => madtLoop t fuel (p + (t (p + 1)).toNat) (length - (t (p + 1)).setWidth 32) x
    else .ok x

/-- `madt_scan`. -/
def madtScan (t : Table) (fuel : ℕ) (s : State G) : Except Stop (Bool × State G) :=
  let length := t.u32 4
  if (t 0, t 1, t 2, t 3) ≠ (0x41, 0x50, 0x49, 0x43) ∨ t.sum length ≠ 0 then .ok (false, s)
  else
    let s := { s with lapic := t.u32 36, console := s.console ++ [.lapic (t.u32 36)] }
    (madtLoop t fuel 44 (length - 44) ⟨0, false, s⟩).map fun x => (x.ret, x.state)

/-! ## Tables -/

/-- The local-APIC entry has `MADT_LAPIC_ENABLE`. -/
def Table.enabled (t : Table) (p : ℕ) : Bool := t p = 0 ∧ t.u32 (p + 4) &&& 1 ≠ 0

def Table.isLapic (t : Table) (p : ℕ) : Bool := t p = 0
def Table.isIoapic (t : Table) (p : ℕ) : Bool := t p = 1

/-- Entries of two bytes or more, one behind the other, that fill the next `n` bytes. -/
inductive Fills (t : Table) : ℕ → ℕ → List ℕ → Prop
  | nil {p : ℕ} : Fills t p 0 []
  | cons {p n : ℕ} {ps : List ℕ} (two : 2 ≤ (t (p + 1)).toNat) :
      Fills t (p + (t (p + 1)).toNat) n ps → Fills t p ((t (p + 1)).toNat + n) (p :: ps)

/-- A table with the right signature and checksum, and its entries. -/
structure Madt where
  table : Table
  ents : List ℕ
  signature : (table 0, table 1, table 2, table 3) = (0x41, 0x50, 0x49, 0x43)
  checksum : (List.range (table.u32 4).toNat).foldl (fun sum i => sum + table i) 0 = 0
  header : 44 ≤ (table.u32 4).toNat
  fills : Fills table 44 ((table.u32 4).toNat - 44) ents
  few : (ents.filter table.enabled).length ≤ 64

variable {t : Table} {p n : ℕ} {ps qs : List ℕ} {x x' : Scan G}

theorem slt_ofNat (hn : n < 2 ^ 31) : (0#32).slt (.ofNat 32 n) = decide (0 < n) := by
  rw [BitVec.slt_eq_decide, BitVec.toInt_zero, BitVec.toInt_ofNat', Int.bmod_eq_of_le (by omega) (by omega)]
  exact decide_eq_decide.mpr Int.natCast_pos

/-- The loop goes through the entries. -/
theorem madtLoop_eq (h : Fills t p n ps) (hn : n < 2 ^ 31) {fuel : ℕ} (hf : ps.length ≤ fuel) :
    madtLoop t fuel p (.ofNat 32 n) x =
      match ps.foldlM (fun x p => madtEnt t p x) x with
      | none => .error .null
      | some x => .ok x := by
  induction h generalizing fuel x with
  | nil => cases fuel <;> rfl
  | @cons p n ps two h ih =>
    obtain ⟨fuel, rfl⟩ : ∃ k, fuel = k + 1 := ⟨fuel - 1, by simp at hf; omega⟩
    have hp : (0#32).slt (.ofNat 32 ((t (p + 1)).toNat + n)) = true := by
      rw [slt_ofNat hn]
      exact decide_eq_true (by omega)
    have hl : BitVec.ofNat 32 ((t (p + 1)).toNat + n) - (t (p + 1)).setWidth 32 = .ofNat 32 n := by
      have hw : (t (p + 1)).setWidth 32 = .ofNat 32 (t (p + 1)).toNat := BitVec.eq_of_toNat_eq (by simp)
      rw [BitVec.ofNat_add, hw]
      grind
    rw [madtLoop, if_pos hp, List.foldlM_cons]
    cases hx : madtEnt t p x with
    | none => rfl
    | some x =>
      rw [hl]
      exact ih (by omega) (by simpa using hf)

/-! ## The list of processors -/

/-- The slot of the processor with a number. -/
def slot : ℕ → Option (Fin 64)
  | 0 => none
  | n + 1 => if h : n < 64 then some ⟨n, h⟩ else none

/-- The processor with a number, if there is one. -/
def State.cpu (s : State G) (n : ℕ) : Cpu G :=
  match slot n with
  | none => s.cpuBoot
  | some i => s.cpus i

section

variable {s : State G} {c : Fin 64} {k n : ℕ}

theorem slot_succ (i : Fin 64) : slot (i + 1) = some i := dif_pos i.isLt

theorem slot_eq_some (hn : n ≤ 64) : slot n = some c ↔ n = c + 1 := by
  cases n with
  | zero => simp [slot]
  | succ n => simp [slot, Nat.lt_of_succ_le hn, Fin.ext_iff]

theorem State.cpu_succ (i : Fin 64) : s.cpu (i + 1) = s.cpus i := by rw [cpu, slot_succ]

theorem State.cpu_setCpu {x : Cpu G} (hn : n ≤ 64) :
    (s.setCpu c x).cpu n = if n = c + 1 then x else s.cpu n := by
  rw [cpu, cpu]
  cases h : slot n with
  | none => rw [if_neg fun hc => by rw [hc, slot_succ] at h; cases h]; rfl
  | some i =>
    obtain rfl := (slot_eq_some hn).mp h
    simp only [setCpu, Function.update_apply, Fin.ext_iff, Nat.add_right_cancel_iff]

theorem State.cpu_chain (hs : s.cpuTail = slot k) (hk : k ≤ 64) (hn : n ≤ 64) :
    (s.chain c).cpu n = if n = k then { s.cpu n with next := some c } else s.cpu n := by
  rw [State.chain, hs]
  cases h : slot k with
  | none =>
    obtain rfl : k = 0 := by
      cases k with
      | zero => rfl
      | succ k => rw [slot, dif_pos (by omega)] at h; cases h
    cases n with
    | zero => rfl
    | succ n =>
      rw [if_neg (Nat.succ_ne_zero n), cpu, cpu, slot, dif_pos (by omega)]
  | some i =>
    obtain rfl := (slot_eq_some hk).mp h
    change (s.setCpu i { s.cpus i with next := some c }).cpu n = _
    rw [cpu_setCpu hn, ← cpu_succ]
    split
    next hn => rw [hn]
    next => rfl

theorem State.cpu_register {id num : BitVec 8} (hn : n ≤ 64) :
    (s.register (some c) id num).cpu n = if n = c + 1 then { s.cpu n with id, num } else s.cpu n := by
  change (s.setCpu c { s.cpus c with id, num }).cpu n = _
  rw [cpu_setCpu hn, ← cpu_succ]
  split
  next hn => rw [hn]
  next => rfl

end

/-- These are the processors, in the order of their numbers. -/
structure Listed (ids : List (BitVec 8)) (s : State G) : Prop where
  le : ids.length ≤ 65
  inUse : ∀ i : Fin 64, (s.cpu (i + 1)).inUse = decide (i.val + 1 < ids.length)
  tail : s.cpuTail = slot (ids.length - 1)
  next : ∀ n ≤ ids.length - 1, (s.cpu n).next = if n + 1 < ids.length then slot (n + 1) else none
  id : ∀ n ≤ ids.length - 1, (s.cpu n).id = ids.getD n 0
  num : ∀ n ≤ ids.length - 1, (s.cpu n).num = .ofNat 8 n

variable {s s' : State G} {ids : List (BitVec 8)} {c : Fin 64} {a : BitVec 8}

theorem Listed.first (h : Listed [] s) : Listed [a] (s.register none a 0) where
  le := by simp
  inUse i := by
    have hi := h.inUse i
    rw [State.cpu_succ] at hi ⊢
    exact hi.trans (by simp)
  tail := h.tail
  next n hn := by
    obtain rfl : n = 0 := by simpa using hn
    exact h.next 0 (Nat.le_refl _)
  id n hn := by
    obtain rfl : n = 0 := by simpa using hn
    rfl
  num n hn := by
    obtain rfl : n = 0 := by simpa using hn
    rfl

theorem Listed.inUse_cpus (h : Listed ids s) (i : Fin 64) :
    (s.cpus i).inUse = decide (i.val + 1 < ids.length) := by
  rw [← State.cpu_succ, h.inUse]

theorem State.chain_cpuTail : (s.chain c).cpuTail = some c := by
  rw [State.chain]
  split <;> rfl

/-- The next free slot is the one behind the last processor. -/
theorem Listed.cpuAlloc (h : Listed ids s) (ha : s.cpuAlloc = some (c, s')) :
    c.val + 1 = max 1 ids.length ∧ s' = (s.setCpu c ⟨true, s.cpuBoot.gdt, none, 0, 0, cpuMagic⟩).chain c := by
  simp only [State.cpuAlloc, Option.bind_eq_bind, Option.pure_def, Option.bind_eq_some_iff, Option.some.injEq,
    Prod.mk.injEq] at ha
  obtain ⟨c', hc, rfl, rfl⟩ := ha
  refine ⟨?_, rfl⟩
  obtain ⟨hc, i, hi, rfl, hj⟩ := List.find?_eq_some_iff_getElem.mp hc
  simp only [List.getElem_finRange, h.inUse_cpus, Bool.not_eq_true', decide_eq_false_iff_not,
    Bool.not_not, decide_eq_true_eq, not_lt, Fin.val_cast] at hc hj ⊢
  cases i with
  | zero => omega
  | succ i =>
    have := hj i (Nat.lt_succ_self i)
    omega

theorem Listed.cpuAlloc_some (h : Listed ids s) (hl : ids.length ≤ 64) : ∃ r, s.cpuAlloc = some r := by
  have hf : ((List.finRange 64).find? fun i => !(s.cpus i).inUse).isSome := by
    rw [List.find?_isSome]
    refine ⟨⟨ids.length - 1, by omega⟩, List.mem_finRange _, ?_⟩
    rw [h.inUse_cpus, decide_eq_false]
    · rfl
    · change ¬ ids.length - 1 + 1 < ids.length
      omega
  obtain ⟨c, hc⟩ := Option.isSome_iff_exists.mp hf
  exact ⟨_, by rw [State.cpuAlloc, hc]; rfl⟩

/-- A processor more. -/
theorem Listed.alloc (h : Listed ids s) (hi : ids ≠ []) (ha : s.cpuAlloc = some (c, s')) :
    Listed (ids ++ [a]) (s'.register (some c) a (.ofNat 8 ids.length)) := by
  obtain ⟨hc, rfl⟩ := h.cpuAlloc ha
  have hl : 0 < ids.length := List.length_pos_iff.mpr hi
  have hk : c.val + 1 = ids.length := by omega
  have ht : (s.setCpu c ⟨true, s.cpuBoot.gdt, none, 0, 0, cpuMagic⟩).cpuTail = slot (ids.length - 1) := h.tail
  have hcpu (n : ℕ) (hn : n ≤ 64) :
      (((s.setCpu c ⟨true, s.cpuBoot.gdt, none, 0, 0, cpuMagic⟩).chain c).register (some c) a
          (.ofNat 8 ids.length)).cpu n =
        if n = ids.length then ⟨true, s.cpuBoot.gdt, none, a, .ofNat 8 ids.length, cpuMagic⟩
        else if n + 1 = ids.length then { s.cpu n with next := some c } else s.cpu n := by
    rw [State.cpu_register hn, State.cpu_chain ht (by omega) hn, State.cpu_setCpu hn, hk]
    split
    next hn => rw [if_neg (by omega)]
    next hn =>
      by_cases hn' : n + 1 = ids.length
      · rw [if_pos (by omega), if_pos hn']
      · rw [if_neg (by omega), if_neg hn']
  have hs : slot ids.length = some c := by rw [← hk, slot_succ]
  constructor
  case le =>
    rw [List.length_append, List.length_singleton]
    omega
  case inUse =>
    intro i
    rw [hcpu _ (by omega), List.length_append, List.length_singleton]
    split
    next hn => exact (decide_eq_true (by omega)).symm
    next hn =>
      have hu : (s.cpu (i + 1)).inUse = decide (i.val + 1 < ids.length + 1) := by
        rw [h.inUse, decide_eq_decide]
        omega
      split <;> exact hu
  case tail =>
    rw [List.length_append, List.length_singleton, Nat.add_sub_cancel, hs]
    exact State.chain_cpuTail
  case next =>
    intro n hn
    rw [List.length_append, List.length_singleton, Nat.add_sub_cancel] at hn
    rw [hcpu n (by omega), List.length_append, List.length_singleton]
    split
    next hn => rw [if_neg (by omega)]
    next hn' =>
      split
      next hn => rw [if_pos (by omega), hn, hs]
      next => rw [h.next n (by omega), if_pos (by omega), if_pos (by omega)]
  case id =>
    intro n hn
    rw [List.length_append, List.length_singleton, Nat.add_sub_cancel] at hn
    rw [hcpu n (by omega)]
    split
    next hn => simp [hn]
    next hn' =>
      have hd : (s.cpu n).id = (ids ++ [a]).getD n 0 := by
        rw [h.id n (by omega), List.getD_eq_getElem?_getD, List.getD_eq_getElem?_getD,
          List.getElem?_append_left (by omega)]
      split <;> exact hd
  case num =>
    intro n hn
    rw [List.length_append, List.length_singleton, Nat.add_sub_cancel] at hn
    rw [hcpu n (by omega)]
    split
    next hn => rw [hn]
    next hn' =>
      have hd := h.num n (by omega)
      split <;> exact hd

/-- The processors with these numbers. -/
def numbered (ids : List (BitVec 8)) : List (BitVec 8 × BitVec 8) := ids.mapIdx fun n id => (id, .ofNat 8 n)

theorem numbered_length : (numbered ids).length = ids.length := List.length_mapIdx

theorem Listed.drop (h : Listed ids s) (hn : n < ids.length) :
    (numbered ids).drop n = ((s.cpu n).id, (s.cpu n).num) :: (numbered ids).drop (n + 1) := by
  rw [List.drop_eq_getElem_cons (by rw [numbered_length]; exact hn), h.id n (by omega), h.num n (by omega)]
  simp [numbered, hn]

theorem Listed.cpusFrom (h : Listed ids s) {f : ℕ} (hf : ids.length ≤ n + 1 + f) (hn : n ≤ ids.length - 1) :
    (s.cpusFrom f (s.cpu n).next).map (fun c => (c.id, c.num)) = (numbered ids).drop (n + 1) := by
  induction f generalizing n with
  | zero =>
    rw [List.drop_eq_nil_of_le (by rw [numbered_length]; exact hf)]
    rfl
  | succ f ih =>
    rw [h.next n hn]
    split
    next hl =>
      have := h.le
      obtain ⟨i, rfl⟩ : ∃ i : Fin 64, n = i := ⟨⟨n, by omega⟩, rfl⟩
      rw [slot_succ, State.cpusFrom, List.map_cons, ← State.cpu_succ, ih (by omega) (by omega), h.drop hl]
    next hl =>
      rw [List.drop_eq_nil_of_le (by rw [numbered_length]; omega)]
      rfl

/-- The list of processors; `cpu_boot` is there even if none has been registered. -/
theorem Listed.cpuList (h : Listed ids s) :
    s.cpuList.map (fun c => (c.id, c.num)) = if ids = [] then [(0, 0)] else numbered ids := by
  have := h.le
  have hb : s.cpuBoot = s.cpu 0 := rfl
  rw [State.cpuList, List.map_cons, hb, h.cpusFrom (by omega) (Nat.zero_le _)]
  split
  next hi =>
    subst hi
    rw [h.id 0 (Nat.le_refl _), h.num 0 (Nat.le_refl _)]
    rfl
  next hi => exact (h.drop (List.length_pos_iff.mpr hi)).symm

/-! ## What a scan does -/

/-- The entry is taken for a processor. -/
def Table.registers (t : Table) (p : ℕ) : Bool := t p = 0 ∧ t (p + 4) ≠ 0

/-- The entry is taken for an I/O APIC. -/
def Table.sets (t : Table) (p : ℕ) : Bool := t p = 1 ∨ t p = 0 ∧ t (p + 4) = 0

/-- The `lapicid`s of entries. -/
def Table.lapicids (t : Table) (ps : List ℕ) : List (BitVec 8) := ps.map fun p => t (p + 3)

/-- The `ioapicid`s and `ioapicaddr`s of entries. -/
def Table.ioapics (t : Table) (ps : List ℕ) : List (BitVec 8 × BitVec 32) := ps.map fun p => (t (p + 2), t.u32 (p + 4))

/-- What the state is after these entries have registered processors, and those have set the I/O APIC. -/
structure Done (ids : List (BitVec 8)) (ios : List (BitVec 8 × BitVec 32)) (s : State G) (x : Scan G) : Prop where
  listed : Listed ids x.state
  count : x.pcCount = .ofNat 32 ids.length
  registered : x.state.registered = s.registered ++ numbered ids
  console : x.state.console = s.console ++ ios.map fun a => .ioapic a.1 a.2
  last : (x.state.ioapicid, x.state.ioapic) = ios.getLastD (s.ioapicid, s.ioapic)
  ret : x.ret = !ios.isEmpty
  lapic : x.state.lapic = s.lapic

variable {ios : List (BitVec 8 × BitVec 32)}

theorem Done.ioapic (h : Done ids ios s x) :
    Done ids (ios ++ [(t (p + 2), t.u32 (p + 4))]) s (madtIoapic t p x) where
  listed := ⟨h.listed.le, h.listed.inUse, h.listed.tail, h.listed.next, h.listed.id, h.listed.num⟩
  count := h.count
  registered := h.registered
  console := by simp [madtIoapic, h.console]
  last := by simp [madtIoapic]
  ret := by simp [madtIoapic]
  lapic := h.lapic

theorem numbered_concat : numbered (ids ++ [a]) = numbered ids ++ [(a, .ofNat 8 ids.length)] := by
  simp [numbered, List.mapIdx_append]

theorem Done.count_eq_zero (h : Done ids ios s x) : x.pcCount = 0 ↔ ids = [] := by
  have := h.listed.le
  rw [h.count, ← List.length_eq_zero_iff, ← BitVec.toNat_inj, BitVec.toNat_ofNat]
  change ids.length % 2 ^ 32 = 0 ↔ _
  omega

theorem Done.num (h : Done ids ios s x) : x.pcCount.setWidth 8 = .ofNat 8 ids.length := by
  rw [h.count]
  apply BitVec.eq_of_toNat_eq
  simp only [BitVec.toNat_setWidth, BitVec.toNat_ofNat]
  omega

theorem State.chain_same : (s.chain c).registered = s.registered ∧ (s.chain c).console = s.console ∧
    (s.chain c).ioapicid = s.ioapicid ∧ (s.chain c).ioapic = s.ioapic ∧ (s.chain c).lapic = s.lapic := by
  rw [State.chain]
  split <;> exact ⟨rfl, rfl, rfl, rfl, rfl⟩

/-- A processor is registered. -/
theorem Done.lapic_step (h : Done ids ios s x) (hx : madtLapic t p x = some x') :
    Done (ids ++ [t (p + 3)]) ios s x' := by
  rw [madtLapic, h.num] at hx
  split at hx
  next hc =>
    obtain rfl := h.count_eq_zero.mp hc
    obtain rfl := Option.some.inj hx
    constructor
    case listed => exact h.listed.first
    case count => rw [hc]; rfl
    case registered =>
      change x.state.registered ++ _ = _
      rw [h.registered, numbered_concat, List.append_assoc]
    case console => exact h.console
    case last => exact h.last
    case ret => exact h.ret
    case lapic => exact h.lapic
  next hc =>
    simp only [Option.bind_eq_bind, Option.pure_def, Option.bind_eq_some_iff, Option.some.injEq] at hx
    obtain ⟨⟨c, s'⟩, hs, rfl⟩ := hx
    have hi : ids ≠ [] := mt h.count_eq_zero.mpr hc
    obtain ⟨-, rfl⟩ := h.listed.cpuAlloc hs
    obtain ⟨hr, hco, hid, hio, hla⟩ := State.chain_same (s := x.state.setCpu c _) (c := c)
    constructor
    case listed => exact h.listed.alloc hi hs
    case count =>
      change x.pcCount + 1 = _
      rw [h.count, List.length_append, BitVec.ofNat_add]
      rfl
    case registered =>
      change State.registered (State.chain _ c) ++ _ = _
      rw [hr, numbered_concat, ← List.append_assoc, ← h.registered]
      rfl
    case console => exact hco.trans h.console
    case last => exact (Prod.ext hid hio).trans h.last
    case ret => exact h.ret
    case lapic => exact hla.trans h.lapic

theorem Done.lapic_some (h : Done ids ios s x) (hl : ids.length ≤ 64) : ∃ x', madtLapic t p x = some x' := by
  rw [madtLapic]
  split
  next => exact ⟨_, rfl⟩
  next =>
    obtain ⟨r, hr⟩ := h.listed.cpuAlloc_some hl
    rw [hr]
    exact ⟨_, rfl⟩

theorem registers_iff : t.registers p ↔ t p = 0 ∧ t (p + 4) ≠ 0 := decide_eq_true_iff

theorem sets_iff : t.sets p ↔ t p = 1 ∨ t p = 0 ∧ t (p + 4) = 0 := decide_eq_true_iff

/-- What the scan has done with these entries. -/
abbrev Seen (t : Table) (ps : List ℕ) (s : State G) (x : Scan G) : Prop :=
  Done (t.lapicids (ps.filter t.registers)) (t.ioapics (ps.filter t.sets)) s x

theorem filter_concat (f : ℕ → Bool) : (qs ++ [p]).filter f = qs.filter f ++ if f p then [p] else [] := by
  rw [List.filter_append, List.filter_singleton, Bool.cond_eq_ite]

/-- An entry more. -/
theorem Seen.step (h : Seen t qs s x) (hx : madtEnt t p x = some x') : Seen t (qs ++ [p]) s x' := by
  rw [Seen, filter_concat, filter_concat, Table.lapicids, Table.ioapics, List.map_append, List.map_append]
  rw [madtEnt] at hx
  split_ifs at hx with hp h4 hp'
  · have hs : ¬ t.sets p := mt sets_iff.mp fun h => by
      obtain h | h := h
      · rw [h] at hp; cases hp
      · exact h4 h.2
    rw [if_pos (registers_iff.mpr ⟨hp, h4⟩), if_neg hs, List.map_nil, List.append_nil]
    exact h.lapic_step hx
  · obtain rfl := Option.some.inj hx
    rw [if_neg (mt registers_iff.mp fun h => h4 h.2), if_pos (sets_iff.mpr (.inr ⟨hp, not_not.mp h4⟩)), List.map_nil,
      List.append_nil]
    exact h.ioapic
  · obtain rfl := Option.some.inj hx
    rw [if_neg (mt registers_iff.mp fun h => hp h.1), if_pos (sets_iff.mpr (.inl hp')), List.map_nil, List.append_nil]
    exact h.ioapic
  · obtain rfl := Option.some.inj hx
    have hs : ¬ t.sets p := mt sets_iff.mp fun h => h.elim hp' fun h => hp h.1
    rw [if_neg (mt registers_iff.mp fun h => hp h.1), if_neg hs, List.map_nil, List.append_nil, List.map_nil,
      List.append_nil]
    exact h

theorem Seen.step_some (h : Seen t qs s x) (hl : ((qs ++ [p]).filter t.registers).length ≤ 65) :
    ∃ x', madtEnt t p x = some x' := by
  rw [filter_concat] at hl
  rw [madtEnt]
  split_ifs with hp h4 hp'
  · rw [if_pos (registers_iff.mpr ⟨hp, h4⟩), List.length_append, List.length_singleton] at hl
    apply h.lapic_some
    rw [Table.lapicids, List.length_map]
    omega
  · exact ⟨_, rfl⟩
  · exact ⟨_, rfl⟩
  · exact ⟨_, rfl⟩

/-- All entries. -/
theorem Seen.run (h : Seen t qs s x) (hx : ps.foldlM (fun x p => madtEnt t p x) x = some x') :
    Seen t (qs ++ ps) s x' := by
  induction ps generalizing qs x with
  | nil =>
    obtain rfl := Option.some.inj hx
    rw [List.append_nil]
    exact h
  | cons p ps ih =>
    rw [List.foldlM_cons, Option.bind_eq_bind, Option.bind_eq_some_iff] at hx
    obtain ⟨x₁, hx₁, hx⟩ := hx
    have hr := ih (h.step hx₁) hx
    rwa [List.append_assoc] at hr

theorem Seen.run_some (h : Seen t qs s x) (hl : ((qs ++ ps).filter t.registers).length ≤ 65) :
    ∃ x', ps.foldlM (fun x p => madtEnt t p x) x = some x' := by
  induction ps generalizing qs x with
  | nil => exact ⟨x, rfl⟩
  | cons p ps ih =>
    have hps : qs ++ p :: ps = qs ++ [p] ++ ps := by rw [List.append_assoc]; rfl
    rw [hps] at hl
    obtain ⟨x₁, hx₁⟩ := h.step_some (p := p) (by rw [List.filter_append, List.length_append] at hl; omega)
    rw [List.foldlM_cons, hx₁]
    exact ih (h.step hx₁) hl

/-! ## Discovery -/

/-- What a scan of a table is to give, from the state at boot: the processors are those of the enabled
local-APIC entries, and the I/O APIC is the last one. -/
structure Follows (m : Madt) (s : State G) (ret : Bool) (s' : State G) : Prop where
  registered : s'.registered = numbered (m.table.lapicids (m.ents.filter m.table.enabled))
  cpuList : s'.cpuList.map (fun c => (c.id, c.num)) =
    if m.ents.filter m.table.enabled = [] then [(0, 0)]
    else numbered (m.table.lapicids (m.ents.filter m.table.enabled))
  console : s'.console = .lapic (m.table.u32 36) ::
    (m.table.ioapics (m.ents.filter m.table.isIoapic)).map fun a => .ioapic a.1 a.2
  last : (s'.ioapicid, s'.ioapic) = (m.table.ioapics (m.ents.filter m.table.isIoapic)).getLastD (s.ioapicid, s.ioapic)
  ret : ret = true ↔ ∃ p ∈ m.ents, m.table.isIoapic p

/-- A scan ends, and gives that. -/
def Scanned (m : Madt) (s : State G) : Prop :=
  ∃ n r, ∀ fuel ≥ n, madtScan m.table fuel s = .ok r ∧ Follows m s r.1 r.2

/-- Where it does. -/
def Madt.Plain (m : Madt) : Prop :=
  if (m.table.u32 4).toNat < 2 ^ 31 + 44 then ∀ p ∈ m.ents, m.table.isLapic p → m.table.enabled p
  else ∀ p ∈ m.ents, ¬ m.table.enabled p ∧ ¬ m.table.isIoapic p

variable {m : Madt} {gdt g : G}

theorem Madt.sum_eq (m : Madt) : m.table.sum (m.table.u32 4) = 0 := by
  rw [Table.sum]
  by_cases h : 2 * (m.table.u32 4).toNat < 2 ^ 32
  · rw [BitVec.toInt_eq_toNat_of_lt h, Int.toNat_natCast]
    exact m.checksum
  · have hn : (m.table.u32 4).toInt.toNat = 0 := by
      rw [BitVec.toInt_eq_toNat_cond, if_neg h]
      omega
    rw [hn]
    rfl

/-- A scan is the loop. -/
theorem Madt.madtScan_eq (m : Madt) (fuel : ℕ) (s : State G) :
    madtScan m.table fuel s =
      (madtLoop m.table fuel 44 (.ofNat 32 ((m.table.u32 4).toNat - 44))
        ⟨0, false, { s with lapic := m.table.u32 36, console := s.console ++ [.lapic (m.table.u32 36)] }⟩).map
        fun x => (x.ret, x.state) := by
  have hl : BitVec.ofNat 32 ((m.table.u32 4).toNat - 44) = m.table.u32 4 - 44 := by
    have := m.header
    apply BitVec.eq_of_toNat_eq
    rw [BitVec.toNat_ofNat, BitVec.toNat_sub]
    change _ = (2 ^ 32 - 44 + (m.table.u32 4).toNat) % 2 ^ 32
    omega
  rw [madtScan, if_neg (by rw [m.signature, m.sum_eq]; simp), hl]

/-- The state when the loop begins. -/
def State.start (gdt g : G) (m : Madt) : State G :=
  { State.boot gdt g with lapic := m.table.u32 36, console := [.lapic (m.table.u32 36)] }

theorem listed_start : Listed [] (State.start gdt g m) where
  le := by simp
  inUse i := by
    rw [State.cpu_succ]
    rfl
  tail := rfl
  next n hn := by
    obtain rfl : n = 0 := by simpa using hn
    rfl
  id n hn := by
    obtain rfl : n = 0 := by simpa using hn
    rfl
  num n hn := by
    obtain rfl : n = 0 := by simpa using hn
    rfl

theorem seen_start : Seen m.table [] (State.start gdt g m) ⟨0, false, State.start gdt g m⟩ where
  listed := listed_start
  count := rfl
  registered := rfl
  console := (List.append_nil _).symm
  last := rfl
  ret := rfl
  lapic := rfl

theorem isIoapic_iff : t.isIoapic p ↔ t p = 1 := decide_eq_true_iff

theorem registers_of_enabled (h : t.enabled p) : t.registers p := by
  obtain ⟨hp, h⟩ := of_decide_eq_true h
  refine registers_iff.mpr ⟨hp, fun h4 => h ?_⟩
  have hb : (t.u32 (p + 4)).getLsbD 0 = false := by
    rw [Table.u32, h4, BitVec.getLsbD_append]
    rfl
  change t.u32 (p + 4) &&& 1#32 = 0
  rw [BitVec.and_one_eq_setWidth_ofBool_getLsbD, hb]
  rfl

theorem sets_of_isIoapic (h : t.isIoapic p) : t.sets p := sets_iff.mpr (.inl (isIoapic_iff.mp h))

/-- Two filters that leave equally many are the same, if one implies the other. -/
theorem filter_eq {f f' : ℕ → Bool} (h : ∀ p, f p → f' p) (hl : (ps.filter f').length = (ps.filter f).length) :
    ps.filter f = ps.filter f' :=
  (List.monotone_filter_right ps h).eq_of_length hl.symm

theorem filter_registers (hp : ∀ p ∈ ps, t.isLapic p → t.enabled p) :
    ps.filter t.registers = ps.filter t.enabled := by
  apply List.filter_congr
  intro p hm
  exact Bool.eq_iff_iff.mpr ⟨fun h => hp p hm (decide_eq_true (registers_iff.mp h).1), registers_of_enabled⟩

/-- What a scan gives after all entries. -/
theorem Seen.follows_iff (h : Seen m.table m.ents (State.start gdt g m) x) :
    Follows m (State.boot gdt g) x.ret x.state ↔ ∀ p ∈ m.ents, m.table.isLapic p → m.table.enabled p := by
  have hr : x.state.registered = numbered (m.table.lapicids (m.ents.filter m.table.registers)) := h.registered
  have hc : x.state.console = .lapic (m.table.u32 36) ::
      (m.table.ioapics (m.ents.filter m.table.sets)).map fun a => .ioapic a.1 a.2 := h.console
  constructor
  · intro hf p hp hl
    have hE : m.ents.filter m.table.enabled = m.ents.filter m.table.registers := by
      apply filter_eq fun p => registers_of_enabled
      have := congrArg List.length (hr.symm.trans hf.registered)
      rwa [numbered_length, numbered_length, Table.lapicids, Table.lapicids, List.length_map, List.length_map] at this
    have hI : m.ents.filter m.table.isIoapic = m.ents.filter m.table.sets := by
      apply filter_eq fun p => sets_of_isIoapic
      have := congrArg List.length (hc.symm.trans hf.console)
      simpa [Table.ioapics] using this
    have h0 : m.table p = 0 := of_decide_eq_true hl
    by_cases h4 : m.table (p + 4) = 0
    · have hs : p ∈ m.ents.filter m.table.sets := List.mem_filter.mpr ⟨hp, sets_iff.mpr (.inr ⟨h0, h4⟩)⟩
      rw [← hI] at hs
      have h1 := isIoapic_iff.mp (List.mem_filter.mp hs).2
      rw [h0] at h1
      cases h1
    · have hs : p ∈ m.ents.filter m.table.registers := List.mem_filter.mpr ⟨hp, registers_iff.mpr ⟨h0, h4⟩⟩
      rw [← hE] at hs
      exact (List.mem_filter.mp hs).2
  · intro hp
    have hE := filter_registers hp
    have hI : m.ents.filter m.table.sets = m.ents.filter m.table.isIoapic := by
      apply List.filter_congr
      intro p hm
      refine Bool.eq_iff_iff.mpr ⟨fun h => ?_, sets_of_isIoapic⟩
      obtain h | ⟨h0, h4⟩ := sets_iff.mp h
      · exact isIoapic_iff.mpr h
      · exact absurd h4 (registers_iff.mp (registers_of_enabled (hp p hm (decide_eq_true h0)))).2
    constructor
    case registered => rw [hr, hE]
    case cpuList =>
      rw [h.listed.cpuList, hE]
      simp only [Table.lapicids, List.map_eq_nil_iff]
    case console => rw [hc, hI]
    case last => rw [← hI]; exact h.last
    case ret =>
      rw [h.ret, hI]
      simp [Table.ioapics]

theorem madtLoop_stop {length : BitVec 32} (h : (0#32).slt length = false) (fuel : ℕ) :
    madtLoop t fuel p length x = .ok x := by
  cases fuel with
  | zero => rw [madtLoop, h]; rfl
  | succ fuel => rw [madtLoop, h]; rfl

/-- What a scan that does not look at the entries gives. -/
theorem follows_start_iff :
    Follows m (State.boot gdt g) false (State.start gdt g m) ↔
      ∀ p ∈ m.ents, ¬ m.table.enabled p ∧ ¬ m.table.isIoapic p := by
  constructor
  · intro h p hp
    have hE : m.ents.filter m.table.enabled = [] := by
      have := congrArg List.length h.registered
      rw [numbered_length, Table.lapicids, List.length_map] at this
      exact List.eq_nil_of_length_eq_zero this.symm
    have hI : ¬ ∃ p ∈ m.ents, m.table.isIoapic p := mt h.ret.mpr Bool.false_ne_true
    exact ⟨List.filter_eq_nil_iff.mp hE p hp, fun hi => hI ⟨p, hp, hi⟩⟩
  · intro h
    have hE : m.ents.filter m.table.enabled = [] := List.filter_eq_nil_iff.mpr fun p hp => (h p hp).1
    have hI : m.ents.filter m.table.isIoapic = [] := List.filter_eq_nil_iff.mpr fun p hp => (h p hp).2
    constructor
    case registered => rw [hE]; rfl
    case cpuList => rw [hE]; rfl
    case console => rw [hI]; rfl
    case last => rw [hI]; rfl
    case ret => exact ⟨fun h => (Bool.false_ne_true h).elim, fun ⟨p, hp, hi⟩ => ((h p hp).2 hi).elim⟩

/-- A scan gives the processors and the I/O APIC for the plain tables, and for no others. -/
theorem madtScan_iff : Scanned m (State.boot gdt g) ↔ m.Plain := by
  have hm := m.header
  have hL := (m.table.u32 4).isLt
  have hscan (fuel : ℕ) : madtScan m.table fuel (State.boot gdt g) =
      (madtLoop m.table fuel 44 (.ofNat 32 ((m.table.u32 4).toNat - 44)) ⟨0, false, State.start gdt g m⟩).map
        fun x => (x.ret, x.state) := m.madtScan_eq fuel _
  rw [Madt.Plain]
  split
  next hl =>
    have hloop {fuel : ℕ} (hf : m.ents.length ≤ fuel) :=
      madtLoop_eq (x := ⟨0, false, State.start gdt g m⟩) m.fills (by omega) hf
    constructor
    · intro ⟨n, r, h⟩
      obtain ⟨hr, hfo⟩ := h (max n m.ents.length) (Nat.le_max_left ..)
      rw [hscan, hloop (Nat.le_max_right ..)] at hr
      cases hx : m.ents.foldlM (fun x p => madtEnt m.table p x) ⟨0, false, State.start gdt g m⟩ with
      | none => rw [hx] at hr; cases hr
      | some x =>
        rw [hx] at hr
        obtain rfl := Except.ok.inj hr
        exact (seen_start.run hx).follows_iff.mp hfo
    · intro hp
      have hR := m.few
      rw [← filter_registers hp] at hR
      have hstart : Seen m.table [] (State.start gdt g m) ⟨0, false, State.start gdt g m⟩ := seen_start
      obtain ⟨x, hx⟩ := hstart.run_some (Nat.le_succ_of_le hR)
      refine ⟨m.ents.length, (x.ret, x.state), fun fuel hf => ⟨?_, (seen_start.run hx).follows_iff.mpr hp⟩⟩
      rw [hscan, hloop hf, hx]
      rfl
  next hl =>
    have hs : (0#32).slt (.ofNat 32 ((m.table.u32 4).toNat - 44)) = false := by
      rw [BitVec.slt_eq_decide, BitVec.toInt_zero, BitVec.toInt_eq_toNat_cond, BitVec.toNat_ofNat, if_neg (by omega)]
      exact decide_eq_false (by omega)
    have hscan (fuel : ℕ) : madtScan m.table fuel (State.boot gdt g) = .ok (false, State.start gdt g m) := by
      rw [hscan, madtLoop_stop hs]
      rfl
    constructor
    · intro ⟨n, r, h⟩
      obtain ⟨hr, hfo⟩ := h n (Nat.le_refl n)
      rw [hscan] at hr
      obtain rfl := Except.ok.inj hr
      exact follows_start_iff.mp hfo
    · intro hp
      exact ⟨0, _, fun fuel _ => ⟨hscan fuel, follows_start_iff.mpr hp⟩⟩

/-- A table with one local-APIC entry, which is not enabled. -/
def disabled : Madt where
  table p := [0x41, 0x50, 0x49, 0x43, 52, 0, 0, 0, 0, 166].getD p (if p = 45 then 8 else if p = 47 then 1 else 0)
  ents := [44]
  signature := rfl
  checksum := by decide
  header := by decide
  fills := .cons (n := 0) (by decide) .nil
  few := by decide

/-- It is taken for an I/O APIC. -/
theorem madtScan_wrong : ¬ Scanned disabled (State.boot () ()) := by
  intro ⟨n, r, h⟩
  obtain ⟨hr, hf⟩ := h (n + 2) (by omega)
  have hs : (madtScan disabled.table (n + 2) (State.boot () ())).map Prod.fst = .ok true := rfl
  rw [hr] at hs
  obtain ⟨p, hp, hi⟩ := hf.ret.mp (Except.ok.inj hs)
  obtain rfl := List.mem_singleton.mp hp
  revert hi
  decide

end Determinator.Acpi
