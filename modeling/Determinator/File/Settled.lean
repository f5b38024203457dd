import Determinator.File.Outcome

/-!
# Reconciling a pair of files again

When `reconcile_inode` is called for a pair of files once more and nothing has changed in between, it may not find them
as it has left them: after a conflict the reference length is what it was before, so that the files seem to have grown.
`reconcile_twice` says when it does.
-/

namespace Determinator.File

variable {s : Sync} {pino cino : ℤ} {r : Bool × Sync} {p c : FileInode}

/-- The call leaves the pair so that nothing is left to do: what both sides have appended fits, or one side has not
changed, or the sizes of files in conflict are the reference length. -/
structure Settles (p c : FileInode) : Prop where
  fits : Level p c → mergedLen p c ≤ fileMaxsize
  still : ¬Level p c → Changed c p → Changed c c →
    p.mode ||| sIfconf = c.mode ||| sIfconf ∧ p.size = c.rlen ∧ c.size = c.rlen

theorem sIsreg_or_conf (m : BitVec 32) : sIsreg (m ||| sIfconf) = sIsreg m := by
  have hconf : sIfconf &&& sIfmt = 0#32 := by decide
  unfold sIsreg
  rw [BitVec.and_comm, BitVec.and_or_distrib_left, BitVec.and_comm sIfmt sIfconf, hconf, BitVec.or_zero,
    BitVec.and_comm]

/-- A call for files at the reference version has nothing to do when both have the reference length. -/
theorem reconcileInode_idle (hp : fileinoIsvalid pino) (hc : fileinoIsvalid cino)
    (hb : Bounded (s.pfi pino) (s.cfi cino)) (hl : Level (s.pfi pino) (s.cfi cino))
    (hreg : sIsreg (s.pfi pino).mode = true) :
    reconcileInode s pino cino = .ok (false, s) ↔ (s.pfi pino).mode = (s.cfi cino).mode ∧
      (s.pfi pino).size = (s.cfi cino).rlen ∧ (s.cfi cino).size = (s.cfi cino).rlen := by
  constructor
  · intro h
    have ha : Accord (s.pfi pino) (s.cfi cino) := .of_ok hb.rlen h
    refine ⟨ha.mode hl, ?_⟩
    by_contra hs
    rw [reconcileInode_eq hp hc ha hb, reconciled_level hl hreg hs] at h
    simp at h
  · intro h
    obtain ⟨hm, hps, hcs⟩ := h
    have ha : Accord (s.pfi pino) (s.cfi cino) := by
      constructor
      · exact hl.1.ge
      · exact hl.2.ge
      · exact fun _ => hps.ge
      · exact fun _ => hcs.ge
      · exact fun _ => hm
    rw [reconcileInode_eq hp hc ha hb, reconciled_same hl ⟨hps, hcs⟩]

/-- What a call leaves is at the reference version. -/
structure Levelled (s : Sync) (pino cino : ℤ) : Prop where
  level : Level (s.pfi pino) (s.cfi cino)
  reg : sIsreg (s.pfi pino).mode = true
  bounded : Bounded (s.pfi pino) (s.cfi cino)

theorem levelled_merged (h : Corresponding s pino cino) (hl : Level (s.pfi pino) (s.cfi cino))
    (hfits : mergedLen (s.pfi pino) (s.cfi cino) ≤ fileMaxsize) : Levelled (s.merged pino cino) pino cino := by
  constructor
  · rw [merged_pfi, merged_cfi]
    exact hl
  · rw [merged_pfi]
    exact h.preg
  · rw [merged_pfi, merged_cfi]
    exact ⟨hfits, hfits, hfits⟩

theorem levelled_overfull (h : Corresponding s pino cino) (hl : Level (s.pfi pino) (s.cfi cino)) :
    Levelled (s.overfull pino cino) pino cino := by
  constructor
  · rw [overfull_pfi, overfull_cfi]
    exact hl
  · rw [overfull_pfi]
    exact (sIsreg_or_conf _).trans h.preg
  · rw [overfull_pfi, overfull_cfi]
    exact ⟨h.psize, h.csize, h.rlen⟩

theorem levelled_conflicted (h : Corresponding s pino cino) : Levelled (s.conflicted pino cino) pino cino := by
  constructor
  · rw [conflicted_pfi, conflicted_cfi]
    exact ⟨rfl, rfl⟩
  · rw [conflicted_pfi]
    exact (sIsreg_or_conf _).trans h.preg
  · rw [conflicted_pfi, conflicted_cfi]
    exact ⟨h.psize, h.csize, h.rlen⟩

theorem levelled_pushed (h : Corresponding s pino cino) : Levelled (s.pushed pino cino) pino cino := by
  constructor
  · rw [pushed_pfi, pushed_cfi]
    exact ⟨rfl, rfl⟩
  · rw [pushed_pfi]
    exact h.preg
  · rw [pushed_pfi, pushed_cfi]
    exact ⟨h.psize, h.psize, h.psize⟩

theorem levelled_pulled (h : Corresponding s pino cino) : Levelled (s.pulled pino cino) pino cino := by
  constructor
  · rw [pulled_pfi, pulled_cfi]
    exact ⟨rfl, rfl⟩
  · rw [pulled_pfi]
    exact h.creg
  · rw [pulled_pfi, pulled_cfi]
    exact ⟨h.csize, h.csize, h.csize⟩

/-- **A second call** does nothing exactly if the first one has settled the pair. -/
theorem reconcile_twice (h : Corresponding s pino cino) (hok : reconcileInode s pino cino = .ok r) :
    reconcileInode r.2 pino cino = .ok (false, r.2) ↔ Settles (s.pfi pino) (s.cfi cino) := by
  have ha : Accord (s.pfi pino) (s.cfi cino) := .of_ok h.rlen hok
  have hidle : Levelled r.2 pino cino → (reconcileInode r.2 pino cino = .ok (false, r.2) ↔ _) :=
    fun hl => reconcileInode_idle h.pvalid h.cvalid hl.bounded hl.level hl.reg
  rw [reconcileInode_eq h.pvalid h.cvalid ha h.bounded, Except.ok.injEq] at hok
  by_cases hl : Level (s.pfi pino) (s.cfi cino)
  · have hsettles : Settles (s.pfi pino) (s.cfi cino) ↔ mergedLen (s.pfi pino) (s.cfi cino) ≤ fileMaxsize :=
      ⟨fun h => h.fits hl, fun h => ⟨fun _ => h, fun hn => absurd hl hn⟩⟩
    rw [hsettles]
    by_cases hs : (s.pfi pino).size = (s.cfi cino).rlen ∧ (s.cfi cino).size = (s.cfi cino).rlen
    · rw [reconciled_same hl hs] at hok
      subst hok
      rw [hidle ⟨hl, h.preg, h.bounded⟩]
      refine ⟨fun _ => ?_, fun _ => ⟨ha.mode hl, hs⟩⟩
      rw [mergedLen, hs.1, hs.2, Nat.add_sub_cancel]
      exact h.rlen
    · rw [reconciled_level hl h.preg hs] at hok
      subst hok
      by_cases hbig : fileMaxsize < mergedLen (s.pfi pino) (s.cfi cino)
      · rw [if_pos hbig] at hidle ⊢
        rw [hidle (levelled_overfull h hl), overfull_pfi, overfull_cfi]
        exact ⟨fun hi => absurd hi.2 hs, fun hle => absurd hbig (not_lt.2 hle)⟩
      · rw [if_neg hbig] at hidle ⊢
        rw [hidle (levelled_merged h hl (not_lt.1 hbig)), merged_pfi, merged_cfi]
        exact ⟨fun _ => not_lt.1 hbig, fun _ => ⟨ha.mode hl, rfl, rfl⟩⟩
  · by_cases hp : Changed (s.cfi cino) (s.pfi pino)
    · by_cases hc : Changed (s.cfi cino) (s.cfi cino)
      · rw [reconciled_conflict hl hp hc] at hok
        subst hok
        rw [hidle (levelled_conflicted h), conflicted_pfi, conflicted_cfi]
        exact ⟨fun hi => ⟨fun hl' => absurd hl' hl, fun _ _ _ => hi⟩, fun hs => hs.still hl hp hc⟩
      · rw [reconciled_push hl hp hc] at hok
        subst hok
        rw [hidle (levelled_pushed h), pushed_pfi, pushed_cfi]
        exact ⟨fun _ => ⟨fun hl' => absurd hl' hl, fun _ _ hc' => absurd hc' hc⟩, fun _ => ⟨rfl, rfl, rfl⟩⟩
    · rw [reconciled_pull hl hp] at hok
      subst hok
      rw [hidle (levelled_pulled h), pulled_pfi, pulled_cfi]
      exact ⟨fun _ => ⟨fun hl' => absurd hl' hl, fun _ hp' => absurd hp' hp⟩, fun _ => ⟨rfl, rfl, rfl⟩⟩

/-- A file that the parent has written. -/
theorem reconcile_twice_sample : ∃ r, reconcileInode (wroteOnce 3) 4 4 = .ok r ∧
    (reconcileInode r.2 4 4 = .ok (false, r.2) ↔ Settles ((wroteOnce 3).pfi 4) ((wroteOnce 3).cfi 4)) := by
  have h : Corresponding (wroteOnce 3) 4 4 := wroteOnce_corresponding (by decide)
  have hok : reconcileInode (wroteOnce 3) 4 4 = .ok ((wroteOnce 3).reconciled 4 4) := by
    refine reconcileInode_eq (by decide) (by decide) ⟨h.prver, h.crver, ?_, ?_, h.mode⟩ h.bounded
    · rw [wroteOnce_pfi, wroteOnce_cfi]
      simp
    · rw [wroteOnce_cfi]
      simp
  exact ⟨_, hok, reconcile_twice h hok⟩

end Determinator.File
