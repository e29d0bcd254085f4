import Coherent.Icheck
import Coherent.Lib.Orbit

/-!
The walk of `icheck` along the free chain. It goes on from block to block for as long as each has
a count of free blocks in range, whether it has met the block before or not; so it ends exactly if
the chain does not come back to one of its blocks.
-/

namespace Coherent.Icheck

open Coherent.Can Coherent.Super Coherent.FreeList Coherent.Lib Coherent.Lib.Orbit

variable (disk : ℤ → Block) (fsize : ℤ)

/-- The walk goes on at a count of free blocks. -/
def GoesOn (df_nfree : ℕ) : Prop := df_nfree ≠ 0 ∧ df_nfree ≤ NICFREE

instance (n : ℕ) : Decidable (GoesOn n) := by unfold GoesOn; infer_instance

/-- The count and the entries of a block of the chain. -/
def df_nfree (bn : ℤ) : ℕ := canw (getw (fsbread disk fsize bn) 0)
def df_free (bn : ℤ) (i : ℕ) : ℤ := long (canl (getl (fsbread disk fsize bn) (2 + 4 * i)))

/-- The block behind a block of the chain. -/
def df_next (bn : ℤ) : ℤ := df_free disk fsize bn 0

/-- The blocks that `freecount` reads, in order. -/
def chainReads : ℕ → ℕ → (ℕ → ℤ) → Option (List ℤ)
  | 0, _, _ => none
  | n + 1, df_nfree, df_free =>
    if df_nfree = 0 ∨ df_nfree > NICFREE then some []
    else
      let fbuf := fsbread disk fsize (df_free 0)
      (chainReads n (canw (getw fbuf 0)) fun i => long (canl (getl fbuf (2 + 4 * i)))).map
        (df_free 0 :: ·)

variable {disk fsize} {n k nfree : ℕ} {free : ℕ → ℤ} {l : List ℤ}

lemma not_goesOn_iff : (n = 0 ∨ n > NICFREE) ↔ ¬ GoesOn n := by
  unfold GoesOn
  omega

/-- `freecount` ends within the same turns. -/
lemma freecount_isSome : (freecount disk fsize n nfree free).isSome =
    (chainReads disk fsize n nfree free).isSome := by
  induction n generalizing nfree free with
  | zero => rfl
  | succ n ih =>
    rw [freecount, chainReads]
    split_ifs with h
    · rfl
    · rw [Option.isSome_map, Option.isSome_map]
      exact ih

lemma chainReads_stop (h : ¬ GoesOn nfree) :
    chainReads disk fsize (n + 1) nfree free = some [] := by
  rw [chainReads]
  exact if_pos (not_goesOn_iff.mpr h)

lemma chainReads_step (h : GoesOn nfree) : chainReads disk fsize (n + 1) nfree free =
    (chainReads disk fsize n (df_nfree disk fsize (free 0)) (df_free disk fsize (free 0))).map
      (free 0 :: ·) := by
  rw [chainReads]
  exact if_neg fun h' => not_goesOn_iff.mp h' h

/-- The walk of a chain that goes on up to its block number `k` and no further. -/
lemma chainReads_of_end (h0 : GoesOn nfree)
    (hgo : ∀ m < k, GoesOn (df_nfree disk fsize ((df_next disk fsize)^[m] (free 0))))
    (hk : ¬ GoesOn (df_nfree disk fsize ((df_next disk fsize)^[k] (free 0)))) :
    chainReads disk fsize (k + 2) nfree free =
      some ((List.range (k + 1)).map fun m => (df_next disk fsize)^[m] (free 0)) := by
  induction k generalizing nfree free with
  | zero =>
    have hk' : ¬ GoesOn (df_nfree disk fsize (free 0)) := hk
    rw [chainReads_step h0, chainReads_stop hk']
    rfl
  | succ k ih =>
    have hgo' : ∀ m < k, GoesOn (df_nfree disk fsize
        ((df_next disk fsize)^[m] (df_free disk fsize (free 0) 0))) := fun m hm => by
      have h := hgo (m + 1) (by omega)
      rwa [Function.iterate_succ_apply] at h
    have h1 : GoesOn (df_nfree disk fsize (free 0)) := hgo 0 (by omega)
    rw [Function.iterate_succ_apply] at hk
    rw [chainReads_step h0, ih h1 hgo' hk, Option.map_some, @List.range_succ_eq_map (k + 1),
      List.map_cons, List.map_map]
    have hmap : ∀ m ∈ List.range (k + 1), (df_next disk fsize)^[m] (df_next disk fsize (free 0)) =
        ((fun m => (df_next disk fsize)^[m] (free 0)) ∘ Nat.succ) m := fun m _ =>
      (Function.iterate_succ_apply _ _ _).symm
    exact congrArg (fun t => some (free 0 :: t)) (List.map_congr_left hmap)

lemma chainReads_some (h0 : GoesOn nfree) (h : chainReads disk fsize n nfree free = some l) :
    ∃ k, ¬ GoesOn (df_nfree disk fsize ((df_next disk fsize)^[k] (free 0))) := by
  induction n generalizing nfree free l with
  | zero => cases h
  | succ n ih =>
    rw [chainReads_step h0] at h
    obtain ⟨l', h', _⟩ := Option.map_eq_some_iff.mp h
    by_cases h1 : GoesOn (df_nfree disk fsize (free 0))
    · obtain ⟨k, hk⟩ := ih h1 h'
      refine ⟨k + 1, ?_⟩
      rw [Function.iterate_succ_apply]
      exact hk
    · exact ⟨0, h1⟩

/-- No block beyond the volume lets the walk go on. -/
lemma goesOn_range {bn : ℤ} (h : GoesOn (df_nfree disk fsize bn)) : bn ∈ Finset.Ico 0 fsize := by
  rw [Finset.mem_Ico]
  by_contra hbn
  have hz : fsbread disk fsize bn = fun _ => 0 := if_pos (by omega)
  rw [df_nfree, hz] at h
  exact h.1 (by decide)

section image

variable (disk : ℤ → Block)

/-- The chain that starts in the super block comes back to a block it has gone on from. -/
def CircularChain : Prop :=
  GoesOn (getSuper (disk SUPERI)).s_nfree ∧
    Circular (df_next disk (s_fsize disk)) (fun bn => GoesOn (df_nfree disk (s_fsize disk) bn))
      ((getSuper (disk SUPERI)).s_free 0)

/-- The walk along the free chain ends, no block is read twice, and no more blocks of the volume
are read than there are. -/
def WalkEnds : Prop :=
  ∃ turns count reads,
    freecount disk (s_fsize disk) turns (getSuper (disk SUPERI)).s_nfree
      (getSuper (disk SUPERI)).s_free = some count ∧
    chainReads disk (s_fsize disk) turns (getSuper (disk SUPERI)).s_nfree
      (getSuper (disk SUPERI)).s_free = some reads ∧
    reads.Nodup ∧
    ((reads.filter fun bn => 0 ≤ bn ∧ bn < s_fsize disk).length : ℤ) ≤ max 0 (s_fsize disk)

variable {disk} in
lemma CircularChain.not_walkEnds (h : CircularChain disk) : ¬ WalkEnds disk := by
  rintro ⟨turns, _, reads, _, hreads, _⟩
  obtain ⟨k, hk⟩ := chainReads_some h.1 hreads
  exact hk (h.2.go_on k)

/-- **The walk along the free chain.** It ends, with no block read twice and no more than the
volume has, exactly if the chain is not circular. -/
theorem walkEnds_iff : WalkEnds disk ↔ ¬ CircularChain disk := by
  constructor
  · exact fun h hcirc => hcirc.not_walkEnds h
  · intro hnot
    obtain ⟨turns, reads, hreads, hnodup⟩ : ∃ turns reads,
        chainReads disk (s_fsize disk) turns (getSuper (disk SUPERI)).s_nfree
          (getSuper (disk SUPERI)).s_free = some reads ∧ reads.Nodup := by
      by_cases h0 : GoesOn (getSuper (disk SUPERI)).s_nfree
      · obtain ⟨k, hgo, hk⟩ := ends (fun bn => goesOn_range) fun hcirc => hnot ⟨h0, hcirc⟩
        exact ⟨k + 2, _, chainReads_of_end h0 hgo hk,
          @nodup_of_end _ _ (fun bn => GoesOn (df_nfree disk (s_fsize disk) bn)) _ _ hgo hk⟩
      · refine ⟨1, [], ?_, List.nodup_nil⟩
        exact chainReads_stop h0
    obtain ⟨count, hcount⟩ : ∃ count, freecount disk (s_fsize disk) turns
        (getSuper (disk SUPERI)).s_nfree (getSuper (disk SUPERI)).s_free = some count := by
      rw [← Option.isSome_iff_exists, freecount_isSome, hreads]
      rfl
    refine ⟨turns, count, reads, hcount, hreads, hnodup, ?_⟩
    -- different blocks of the volume
    have hsub : (reads.filter fun bn => 0 ≤ bn ∧ bn < s_fsize disk).toFinset ⊆
        Finset.Ico 0 (s_fsize disk) := fun bn hbn => by
      rw [List.mem_toFinset, List.mem_filter, decide_eq_true_eq] at hbn
      exact Finset.mem_Ico.mpr hbn.2
    have hcard := Finset.card_le_card hsub
    rw [List.toFinset_card_of_nodup (hnodup.filter _), Int.card_Ico] at hcard
    omega

/-- A volume of 8 blocks whose free chain is block 5, and then block 5 again. -/
def loopDisk : ℤ → Block := fun b i =>
  if b = 1 then (if i = 0 then 3 else if i = 4 then 8 else if i = 6 then 1 else if i = 10 then 5
    else 0)
  else if b = 5 then (if i = 0 then 1 else if i = 4 then 5 else 0)
  else 0

end image

theorem loopDisk_never_ends : ¬ WalkEnds loopDisk := by
  refine CircularChain.not_walkEnds ⟨by decide +kernel, 0, 1, Nat.zero_lt_one, fun m hm => ?_, ?_⟩
  · obtain rfl : m = 0 := by omega
    decide +kernel
  · decide +kernel

end Coherent.Icheck
