import Coherent.Lib.Run
import Coherent.FreeChain

/-!
Sequences of allocations and frees.

A block is on the free list or handed out. Whoever holds a block may write anything into
it, so the free blocks that `bfree` makes are made of blocks with arbitrary contents.
-/

namespace Coherent.FreeList

open Coherent.Can Coherent.Super Coherent.Lib

/-- The file system and the blocks that are handed out. -/
structure St where
  fs : Fs
  out : List ℤ

inductive Op
  | balloc
  | bfree (b : ℤ)
  | write (b : ℤ) (p : Block)

inductive Step : St → Op → St → Prop
  | balloc (s : St) : Step s .balloc
      ⟨(balloc s.fs).2, if (balloc s.fs).1 = 0 then s.out else (balloc s.fs).1 :: s.out⟩
  | bfree (s : St) (b : ℤ) : b ∈ s.out → Step s (.bfree b) ⟨bfree s.fs b, s.out.erase b⟩
  | write (s : St) (b : ℤ) (p : Block) : b ∈ s.out → Step s (.write b p) ⟨bput s.fs b p, s.out⟩

/-- What no operation on blocks changes: the bounds of the volume, how it is mounted, the
device and the list of free inodes. -/
structure SameVolume (fs gs : Fs) : Prop where
  isize : gs.m_super.s_isize = fs.m_super.s_isize
  fsize : gs.m_super.s_fsize = fs.m_super.s_fsize
  ron : gs.m_ron = fs.m_ron
  rdok : gs.rdok = fs.rdok
  ninode : gs.m_super.s_ninode = fs.m_super.s_ninode
  inode : gs.m_super.s_inode = fs.m_super.s_inode

lemma SameVolume.refl (fs : Fs) : SameVolume fs fs := ⟨rfl, rfl, rfl, rfl, rfl, rfl⟩

lemma SameVolume.trans {fs gs hs : Fs} (h : SameVolume fs gs) (h' : SameVolume gs hs) :
    SameVolume fs hs :=
  ⟨h'.isize.trans h.isize, h'.fsize.trans h.fsize, h'.ron.trans h.ron, h'.rdok.trans h.rdok,
    h'.ninode.trans h.ninode, h'.inode.trans h.inode⟩

lemma smod_sameVolume (fs : Fs) : SameVolume fs (smod fs) :=
  ⟨smod_isize fs, smod_fsize fs, smod_ron fs, smod_rdok fs, smod_ninode fs, smod_inode fs⟩

lemma ballocEnd_sameVolume (fs : Fs) (b : ℤ) : SameVolume fs (ballocEnd fs b).2 := by
  unfold ballocEnd
  dsimp only
  split
  · exact ⟨rfl, rfl, rfl, rfl, rfl, rfl⟩
  · refine SameVolume.trans ?_ (smod_sameVolume _)
    exact ⟨rfl, rfl, rfl, rfl, rfl, rfl⟩

lemma balloc_sameVolume (fs : Fs) : SameVolume fs (balloc fs).2 := by
  have hs := smod_sameVolume fs
  unfold balloc
  dsimp only
  split_ifs
  · exact ⟨rfl, rfl, rfl, rfl, rfl, rfl⟩
  · exact ⟨rfl, rfl, rfl, rfl, rfl, rfl⟩
  · exact hs.trans ⟨rfl, rfl, rfl, rfl, rfl, rfl⟩
  · exact hs.trans ⟨rfl, rfl, rfl, rfl, rfl, rfl⟩
  · split
    · exact hs.trans ⟨rfl, rfl, rfl, rfl, rfl, rfl⟩
    · split_ifs
      · exact hs.trans ⟨rfl, rfl, rfl, rfl, rfl, rfl⟩
      · refine hs.trans (SameVolume.trans ?_ (ballocEnd_sameVolume _ _))
        exact ⟨rfl, rfl, rfl, rfl, rfl, rfl⟩
  · refine hs.trans (SameVolume.trans ?_ (ballocEnd_sameVolume _ _))
    exact ⟨rfl, rfl, rfl, rfl, rfl, rfl⟩

lemma bfree_sameVolume (fs : Fs) (b : ℤ) : SameVolume fs (bfree fs b) := by
  unfold bfree
  dsimp only
  split_ifs
  · exact ⟨rfl, rfl, rfl, rfl, rfl, rfl⟩
  · exact ⟨rfl, rfl, rfl, rfl, rfl, rfl⟩
  · refine SameVolume.trans ?_ (smod_sameVolume _)
    exact ⟨rfl, rfl, rfl, rfl, rfl, rfl⟩
  · refine SameVolume.trans ?_ (smod_sameVolume _)
    exact ⟨rfl, rfl, rfl, rfl, rfl, rfl⟩

/-- The free list and the blocks handed out share the blocks `all` of the volume `fs₀`. -/
structure Shared (fs₀ : Fs) (all : List ℤ) (s : St) (l : List ℤ) : Prop where
  wf : WellFormed s.fs l
  perm : (l ++ s.out).Perm all
  vol : SameVolume fs₀ s.fs

variable {fs₀ : Fs} {all : List ℤ}

/-- A block handed out is a block of the volume, and not free. -/
lemma Shared.out {s : St} {l : List ℤ} (h : Shared fs₀ all s l) (hnd : all.Nodup)
    (hall : ∀ b ∈ all, (fs₀.m_super.s_isize : ℤ) ≤ b ∧ b < fs₀.m_super.s_fsize) {b : ℤ}
    (hb : b ∈ s.out) :
    (s.fs.m_super.s_isize : ℤ) ≤ b ∧ b < s.fs.m_super.s_fsize ∧ b ∉ l := by
  have hmem : b ∈ all := h.perm.subset (List.mem_append_right _ hb)
  have hr := hall b hmem
  have hdj := List.disjoint_of_nodup_append (h.perm.nodup_iff.mpr hnd)
  rw [h.vol.isize, h.vol.fsize]
  exact ⟨hr.1, hr.2, fun hl => hdj hl hb⟩

/-- **One step** keeps the blocks shared between the list and the holders. -/
lemma step_shared (hw : fs₀.m_ron = false) (hr : ∀ b, fs₀.rdok b = true) (hnd : all.Nodup)
    (hall : ∀ b ∈ all, (fs₀.m_super.s_isize : ℤ) ≤ b ∧ b < fs₀.m_super.s_fsize)
    (s : St) (o : Op) (t : St) (h : ∃ l, Shared fs₀ all s l) (hst : Step s o t) :
    ∃ l, Shared fs₀ all t l := by
  obtain ⟨l, h⟩ := h
  have hron : s.fs.m_ron = false := by rw [h.vol.ron, hw]
  cases hst with
  | balloc =>
    have hvol := h.vol.trans (balloc_sameVolume s.fs)
    cases l with
    | nil =>
      obtain ⟨h0, -, hwf⟩ := balloc_nil h.wf hron
      exact ⟨[], hwf, by simpa [h0] using h.perm, hvol⟩
    | cons b l =>
      obtain ⟨hb, -, hwf⟩ := balloc_cons h.wf hron (by rw [h.vol.rdok]; exact hr)
      have hb0 : b ≠ 0 := by
        have h1 := h.wf.range b (by simp)
        have h2 := h.wf.isize
        omega
      refine ⟨l, hwf, ?_, hvol⟩
      simp only [hb, if_neg hb0]
      exact (List.perm_middle).trans h.perm
  | bfree b hb =>
    obtain ⟨h0, h1, hl⟩ := h.out hnd hall hb
    refine ⟨b :: l, (bfree_cons h.wf hron h0 h1 hl).2, ?_, h.vol.trans (bfree_sameVolume _ _)⟩
    have hp : (l ++ b :: s.out.erase b).Perm (l ++ s.out) :=
      List.Perm.append_left l (List.perm_cons_erase hb).symm
    exact List.perm_middle.symm.trans (hp.trans h.perm)
  | write b p hb =>
    obtain ⟨-, -, hl⟩ := h.out hnd hall hb
    refine ⟨l, ?_, h.perm, h.vol.trans ⟨rfl, rfl, rfl, rfl, rfl, rfl⟩⟩
    refine ⟨h.wf.chain.congr_disk fun c hc => ?_, h.wf.nfree, h.wf.range, h.wf.nodup, h.wf.tfree,
      h.wf.isize, h.wf.fsize⟩
    exact Function.update_of_ne (by rintro rfl; exact hl hc) _ _

/-- **The free list over every sequence of allocations and frees.** From a well-formed list
and any blocks handed out, after any sequence of operations that frees and writes only
blocks handed out: the list is well formed; list and holders together have the blocks they
started with, each once; `balloc` fails with `ENOSPC` exactly when the list is empty and
otherwise hands out a block of the list and removes that block alone; and `bfree` of a block
handed out adds that block alone. -/
theorem free_list_runs {out₀ l₀ : List ℤ} {ops : List Op} {s : St}
    (hwf : WellFormed fs₀ l₀) (hw : fs₀.m_ron = false) (hr : ∀ b, fs₀.rdok b = true)
    (hnd : (l₀ ++ out₀).Nodup)
    (hout : ∀ b ∈ out₀, (fs₀.m_super.s_isize : ℤ) ≤ b ∧ b < fs₀.m_super.s_fsize)
    (hrun : Run Step ⟨fs₀, out₀⟩ ops s) :
    ∃ l, WellFormed s.fs l ∧ (l ++ s.out).Perm (l₀ ++ out₀) ∧ l.Disjoint s.out ∧
      ((balloc s.fs).1 = 0 ∧ (balloc s.fs).2.u_error = some .ENOSPC ↔ l = []) ∧
      (∀ b l', l = b :: l' → (balloc s.fs).1 = b ∧ WellFormed (balloc s.fs).2 l' ∧
        (balloc s.fs).2.u_error = s.fs.u_error) ∧
      (∀ b ∈ s.out, WellFormed (bfree s.fs b) (b :: l) ∧
        (bfree s.fs b).u_error = s.fs.u_error) := by
  have hall : ∀ b ∈ l₀ ++ out₀, (fs₀.m_super.s_isize : ℤ) ≤ b ∧ b < fs₀.m_super.s_fsize := by
    intro b hb
    rcases List.mem_append.mp hb with hb | hb
    · exact hwf.range b hb
    · exact hout b hb
  obtain ⟨l, h⟩ := hrun.invariant (I := fun s => ∃ l, Shared fs₀ (l₀ ++ out₀) s l)
    (step_shared hw hr hnd hall) ⟨l₀, hwf, List.Perm.refl _, .refl fs₀⟩
  have hron : s.fs.m_ron = false := by rw [h.vol.ron, hw]
  have hrd : ∀ b, s.fs.rdok b = true := by rw [h.vol.rdok]; exact hr
  refine ⟨l, h.wf, h.perm, List.disjoint_of_nodup_append (h.perm.nodup_iff.mpr hnd), ⟨?_, ?_⟩,
    ?_, ?_⟩
  · rintro ⟨h0, -⟩
    by_contra hne
    obtain ⟨b, l', rfl⟩ := List.exists_cons_of_ne_nil hne
    have hb := (balloc_cons h.wf hron hrd).1
    have h1 := h.wf.range b (by simp)
    have h2 := h.wf.isize
    omega
  · rintro rfl
    exact ⟨(balloc_nil h.wf hron).1, (balloc_nil h.wf hron).2.1⟩
  · rintro b l' rfl
    obtain ⟨hb, he, hwf'⟩ := balloc_cons h.wf hron hrd
    exact ⟨hb, hwf', he⟩
  · intro b hb
    obtain ⟨h0, h1, hl⟩ := h.out hnd hall hb
    obtain ⟨he, hwf'⟩ := bfree_cons h.wf hron h0 h1 hl
    exact ⟨hwf', he⟩

/-- A volume of eight blocks with an i-list of one: blocks 6 and 5 are free. -/
def smallFs : Fs where
  m_super := ⟨3, 8, 2, fun i => if i = 0 then 5 else 6, 0, fun _ => 0, 0, 0, 0, 2, 0, 0⟩
  m_ron := false
  disk _ _ := 0
  rdok _ := true
  u_error := none
  msg := []

lemma smallFs_wf : WellFormed smallFs [6, 5] where
  chain := .entry (n := 0) (by decide) (.link (by decide) (by decide) (.empty _))
  nfree := by decide
  range := by decide
  nodup := by decide
  tfree := rfl
  isize := by decide
  fsize := by decide

/-- Freeing block 7, which was handed out, leaves all three blocks on the list. -/
theorem smallFs_runs : ∃ l, WellFormed (bfree smallFs 7) l ∧ (l ++ []).Perm ([6, 5] ++ [7]) := by
  have hrun : Run Step ⟨smallFs, [7]⟩ ([] ++ [.bfree 7]) ⟨bfree smallFs 7, []⟩ :=
    .snoc (.nil _) (.bfree ⟨smallFs, [7]⟩ 7 (by simp))
  obtain ⟨l, hwf, hp, -⟩ := free_list_runs smallFs_wf rfl (fun _ => rfl) (by decide) (by decide)
    hrun
  exact ⟨l, hwf, hp⟩

end Coherent.FreeList
