import Coherent.Lib.Radix
import Coherent.FreeRun
import Coherent.FileMap

/-!
What `aread` and `indfree` do to the tree of blocks of a file and to the free list.

Every block that `aread` allocates goes from the free list into the tree, also when it runs
out of space half way down; `indfree` takes every block of a tree back to the free list.
-/

namespace Coherent.FileMap

open Coherent.Can Coherent.Super Coherent.FreeList Coherent.Lib

/-- The entries of the blocks of a disk. -/
def ents (disk : ℤ → Block) (c : ℤ) (i : ℕ) : ℤ := dentry (disk c) i

/-- The blocks of the tree of level `n` at block `b`. -/
abbrev tree (disk : ℤ → Block) (n : ℕ) (b : ℤ) : Multiset ℤ := Radix.tree NBN (ents disk) n b

/-- The block a path leads to from block `b`. -/
abbrev follow (disk : ℤ → Block) (p : List ℕ) (b : ℤ) : ℤ := Radix.follow (ents disk) p b

/-- A writable volume whose reads succeed, with `l` on its free list. -/
structure Live (fs : Fs) (l : List ℤ) : Prop where
  wf : WellFormed fs l
  ron : fs.m_ron = false
  rdok : ∀ b, fs.rdok b = true

variable {fs : Fs} {l : List ℤ} {b c : ℤ}

/-! ### The free list, with what it leaves alone -/

lemma ballocEnd_disk (h : c ≠ SUPERI) : (ballocEnd fs b).2.disk c = fs.disk c := by
  unfold ballocEnd
  dsimp only
  split
  · rfl
  · rw [smod_disk h]

lemma balloc_disk (h : c ≠ SUPERI) : (balloc fs).2.disk c = fs.disk c := by
  have hs : (smod fs).disk c = fs.disk c := smod_disk h
  unfold balloc
  dsimp only
  split_ifs
  · rfl
  · rfl
  · exact hs
  · exact hs
  · split
    · exact hs
    · split_ifs
      · exact hs
      · rw [ballocEnd_disk h]; exact hs
  · rw [ballocEnd_disk h]; exact hs

lemma bfree_disk (h : c ≠ SUPERI) (hb : c ≠ b) : (bfree fs b).disk c = fs.disk c := by
  unfold bfree
  dsimp only
  split_ifs
  · rfl
  · rfl
  · rw [smod_disk h]
    exact Function.update_of_ne hb _ _
  · rw [smod_disk h]

lemma Live.mono {gs : Fs} {l' : List ℤ} (h : Live fs l) (hv : SameVolume fs gs)
    (hw : WellFormed gs l') : Live gs l' :=
  ⟨hw, by rw [hv.ron, h.ron], by rw [hv.rdok]; exact h.rdok⟩

/-- `balloc` on a live volume. -/
lemma Live.balloc (h : Live fs l) :
    (l = [] ∧ (balloc fs).1 = 0 ∧ Live (balloc fs).2 [] ∧
      (balloc fs).2.u_error = some .ENOSPC) ∨
    ∃ b l', l = b :: l' ∧ (balloc fs).1 = b ∧ b ≠ 0 ∧ Live (balloc fs).2 l' ∧
      (balloc fs).2.u_error = fs.u_error := by
  cases l with
  | nil =>
    obtain ⟨h1, h2, h3⟩ := balloc_nil h.wf h.ron
    exact Or.inl ⟨rfl, h1, h.mono (balloc_sameVolume fs) h3, h2⟩
  | cons b l' =>
    obtain ⟨h1, h2, h3⟩ := balloc_cons h.wf h.ron h.rdok
    have hb := h.wf.range b (by simp)
    have hi := h.wf.isize
    exact Or.inr ⟨b, l', rfl, h1, by omega, h.mono (balloc_sameVolume fs) h3, h2⟩

/-- Writing a block that is not free. -/
lemma Live.bput (h : Live fs l) (hc : c ∉ l) (p : Block) : Live (bput fs c p) l := by
  refine ⟨⟨h.wf.chain.congr_disk fun d hd => ?_, h.wf.nfree, h.wf.range, h.wf.nodup, h.wf.tfree,
    h.wf.isize, h.wf.fsize⟩, h.ron, h.rdok⟩
  exact Function.update_of_ne (by rintro rfl; exact hc hd) _ _

lemma Live.bfree (h : Live fs l) (h0 : (fs.m_super.s_isize : ℤ) ≤ b) (h1 : b < fs.m_super.s_fsize)
    (hb : b ∉ l) : Live (bfree fs b) (b :: l) :=
  h.mono (bfree_sameVolume fs b) (bfree_cons h.wf h.ron h0 h1 hb).2

lemma bput_disk_self (p : Block) : (bput fs b p).disk b = p := Function.update_self ..

lemma bput_disk_of_ne (p : Block) (h : c ≠ b) : (bput fs b p).disk c = fs.disk c :=
  Function.update_of_ne h _ _

lemma bput_sameVolume (fs : Fs) (b : ℤ) (p : Block) : SameVolume fs (bput fs b p) :=
  ⟨rfl, rfl, rfl, rfl, rfl, rfl⟩

/-! ### `aread` -/

/-- The volume `gs` has the tree at `pb` of `fs`, grown by the blocks `N` along the path `p`;
`l'` is left of the free list `l`. -/
structure Grown (fs : Fs) (l : List ℤ) (p : List ℕ) (pb : ℤ) (gs : Fs) (l' : List ℤ)
    (N : Multiset ℤ) : Prop where
  free : (l : Multiset ℤ) = N + l'
  live : Live gs l'
  vol : SameVolume fs gs
  tree : tree gs.disk p.length pb = tree fs.disk p.length pb + N
  frame : ∀ c, c ∉ FileMap.tree fs.disk p.length pb → c ∉ N → c ≠ SUPERI →
    gs.disk c = fs.disk c
  other : ∀ q, q.length = p.length → (∀ i ∈ q, i < NBN) → q ≠ p →
    follow gs.disk q pb = follow fs.disk q pb ∧
      (follow fs.disk q pb ≠ 0 → gs.disk (follow fs.disk q pb) = fs.disk (follow fs.disk q pb))

/-- What `aread` returns: nothing if there is no space left, else the block at the end of the
path, cleared unless it was there and is to be read. -/
def Reached (fflag : Bool) (fs : Fs) (p : List ℕ) (pb : ℤ) (gs : Fs) (l' : List ℤ) :
    Option ℤ → Prop
  | none => l' = [] ∧ gs.u_error = some .ENOSPC
  | some c => follow gs.disk p pb = c ∧ c ≠ 0 ∧ gs.u_error = fs.u_error ∧
      gs.disk c = if fflag = false ∧ follow fs.disk p pb ≠ 0 then fs.disk c else zeroBlock

/-- All blocks are in the volume, so none is the super block. -/
def InVolume (fs : Fs) (T : Multiset ℤ) : Prop :=
  ∀ b ∈ T, (fs.m_super.s_isize : ℤ) ≤ b ∧ b < fs.m_super.s_fsize

lemma InVolume.ne_super {T : Multiset ℤ} (h : InVolume fs T) (hi : 2 ≤ fs.m_super.s_isize)
    (hb : b ∈ T) : b ≠ SUPERI := by
  have := h b hb
  unfold SUPERI; omega

lemma ents_congr {disk disk' : ℤ → Block} (h : disk' c = disk c) : ents disk' c = ents disk c := by
  unfold ents; rw [h]

/-- A cleared block is a tree of its own. -/
lemma tree_cleared {disk : ℤ → Block} {n : ℕ} (hb : b ≠ 0) (h : disk b = zeroBlock) :
    tree disk n b = {b} := by
  cases n with
  | zero => exact Radix.tree_leaf hb
  | succ n =>
    have he : ∀ i, ents disk b i = 0 := fun i => by rw [ents, h, dentry_zeroBlock]
    rw [FileMap.tree, Radix.tree_succ hb]
    simp [he]

/-- From the growth of a child to that of its parent. `hs` is the volume when the child is
entered: it differs from `fs` in the entry for the child and in the blocks `M` taken for it. -/
lemma Grown.node (fs : Fs) (i₀ : ℕ) {hs gs : Fs} {l l₂ l' : List ℤ} {p : List ℕ} {pb e : ℤ}
    {M N : Multiset ℤ} (hg : Grown hs l₂ p e gs l' N) (hpb : pb ≠ 0) (hi₀ : i₀ < NBN)
    (hnd : (FileMap.tree fs.disk (p.length + 1) pb + l).Nodup)
    (hin : InVolume fs (FileMap.tree fs.disk (p.length + 1) pb)) (hi2 : 2 ≤ fs.m_super.s_isize)
    (hl : (l : Multiset ℤ) = M + l₂) (hvol : SameVolume fs hs)
    (htree : FileMap.tree hs.disk p.length e =
      FileMap.tree fs.disk p.length (ents fs.disk pb i₀) + M)
    (hdisk : ∀ c, c ≠ pb → c ∉ M → c ≠ SUPERI → hs.disk c = fs.disk c)
    (hent : ∀ i < NBN, i ≠ i₀ → ents hs.disk pb i = ents fs.disk pb i)
    (he : ents hs.disk pb i₀ = e)
    (hfol : ∀ q, q.length = p.length → q ≠ p →
      follow hs.disk q e = follow fs.disk q (ents fs.disk pb i₀)) :
    Grown fs l (i₀ :: p) pb gs l' (M + N) := by
  rw [hl] at hnd
  obtain ⟨hndT, hndl, hdj⟩ := Multiset.nodup_add.mp hnd
  obtain ⟨hch, hsib⟩ := Radix.nodup_children hpb hndT
  have hdj' : ∀ c ∈ FileMap.tree fs.disk (p.length + 1) pb, c ∉ M ∧ c ∉ N := by
    intro c hc
    have hcl := Multiset.disjoint_left.mp hdj hc
    refine ⟨fun hm => hcl (by simp [hm]), fun hN => hcl ?_⟩
    rw [hg.free]; simp [hN]
  have hchild : ∀ i < NBN, ∀ c ∈ FileMap.tree fs.disk p.length (ents fs.disk pb i),
      c ∈ FileMap.tree fs.disk (p.length + 1) pb := fun i hi c hc =>
    Multiset.mem_of_le (Radix.child_le hpb hi) hc
  have hpbT : pb ∈ FileMap.tree fs.disk (p.length + 1) pb := Radix.self_mem hpb
  -- the parent is not touched below the child
  have hpbg : gs.disk pb = hs.disk pb := by
    refine hg.frame pb ?_ (hdj' pb hpbT).2 (hin.ne_super hi2 hpbT)
    rw [htree, Multiset.mem_add, not_or]
    exact ⟨(hch i₀ hi₀).1, (hdj' pb hpbT).1⟩
  -- nor is what is below the other entries
  have hsub : ∀ i < NBN, i ≠ i₀ → ∀ c ∈ FileMap.tree fs.disk p.length (ents fs.disk pb i),
      gs.disk c = fs.disk c := by
    intro i hi hne c hc
    have hcT := hchild i hi c hc
    have hcs := hin.ne_super hi2 hcT
    have hcpb : c ≠ pb := fun e => (hch i hi).1 (by rwa [e] at hc)
    rw [hg.frame c ?_ (hdj' c hcT).2 hcs, hdisk c hcpb (hdj' c hcT).1 hcs]
    rw [htree, Multiset.mem_add, not_or]
    exact ⟨hsib i hi i₀ hi₀ hne c hc, (hdj' c hcT).1⟩
  have hentg : ents gs.disk pb = ents hs.disk pb := ents_congr hpbg
  refine ⟨?_, hg.live, hvol.trans hg.vol, ?_, ?_, ?_⟩
  · rw [hl, hg.free, add_assoc]
  · refine Radix.tree_step hpb hi₀ (fun i hi hne => ?_) (fun i hi hne c hc => ?_) ?_
    · rw [hentg]; exact hent i hi hne
    · exact ents_congr (hsub i hi hne c hc)
    · rw [hentg, he]
      exact hg.tree.trans (by rw [htree, add_assoc])
  · intro c hcT hcMN hcs
    rw [Multiset.mem_add, not_or] at hcMN
    have hcpb : c ≠ pb := fun e => hcT (by rw [e]; exact hpbT)
    rw [hg.frame c ?_ hcMN.2 hcs, hdisk c hcpb hcMN.1 hcs]
    rw [htree, Multiset.mem_add, not_or]
    exact ⟨fun h => hcT (hchild i₀ hi₀ c h), hcMN.1⟩
  · intro q hq hqK hne
    cases q with
    | nil => simp at hq
    | cons i q =>
      have hlen : q.length = p.length := by simpa using hq
      have hi : i < NBN := hqK i (by simp)
      have hqK' : ∀ j ∈ q, j < NBN := fun j hj => hqK j (by simp [hj])
      rw [FileMap.follow, FileMap.follow, Radix.follow_cons hpb, Radix.follow_cons hpb, hentg]
      by_cases hii : i = i₀
      · subst hii
        have hqp : q ≠ p := fun e => hne (by rw [e])
        obtain ⟨h1, h2⟩ := hg.other q hlen hqK' hqp
        have hf := hfol q hlen hqp
        rw [FileMap.follow, FileMap.follow] at hf
        rw [he]
        refine ⟨h1.trans hf, fun h0 => ?_⟩
        have hc := Radix.follow_mem hqK' h0
        rw [hlen] at hc
        have hcT := hchild i hi _ hc
        rw [← hf] at h0
        have h3 := h2 h0
        rw [FileMap.follow, hf] at h3
        rw [h3]
        refine hdisk _ (fun e => (hch i hi).1 ?_) (hdj' _ hcT).1 (hin.ne_super hi2 hcT)
        rwa [e] at hc
      · rw [hent i hi hii]
        have hcong : ∀ c ∈ Radix.tree NBN (ents fs.disk) q.length (ents fs.disk pb i),
            ents gs.disk c = ents fs.disk c := by
          rw [hlen]
          exact fun c hc => ents_congr (hsub i hi hii c hc)
        refine ⟨Radix.follow_congr hqK' hcong, fun h0 => ?_⟩
        have hc := Radix.follow_mem hqK' h0
        rw [hlen] at hc
        exact hsub i hi hii _ hc

/-- Nothing grows. -/
lemma Grown.refl {p : List ℕ} {pb : ℤ} (h : Live fs l) : Grown fs l p pb fs l 0 where
  free := by simp
  live := h
  vol := .refl fs
  tree := by simp
  frame _ _ _ _ := rfl
  other _ _ _ _ := ⟨rfl, fun _ => rfl⟩

/-- A change off the tree and off the free list. -/
lemma Grown.of_disk {gs : Fs} {l' : List ℤ} {p : List ℕ} {pb : ℤ} (hl : (l : Multiset ℤ) = l')
    (h : Live gs l') (hvol : SameVolume fs gs)
    (hd : ∀ c ∈ FileMap.tree fs.disk p.length pb, gs.disk c = fs.disk c)
    (hf : ∀ c, c ≠ SUPERI → gs.disk c = fs.disk c) : Grown fs l p pb gs l' 0 where
  free := by rw [hl, zero_add]
  live := h
  vol := hvol
  tree := by
    rw [add_zero]
    exact Radix.tree_congr fun c hc => ents_congr (hd c hc)
  frame c _ _ hc := hf c hc
  other q hq hqK _ := by
    have hcong : ∀ c ∈ Radix.tree NBN (ents fs.disk) q.length pb, ents gs.disk c = ents fs.disk c := by
      rw [hq]
      exact fun c hc => ents_congr (hd c hc)
    refine ⟨Radix.follow_congr hqK hcong, fun h0 => hd _ ?_⟩
    have hm := Radix.follow_mem hqK h0
    rwa [hq] at hm

/-- The volume when the loop of `aread` looks at `pb`: a new block is cleared first. -/
def entered (fs : Fs) (pb : ℤ) (aflag : Bool) : Fs :=
  if aflag then bput fs pb zeroBlock else fs

lemma areadLoop_nil {fflag aflag : Bool} {pb : ℤ} (hr : ∀ b, fs.rdok b = true) :
    areadLoop fflag [] fs pb aflag = (some pb,
      if fflag = false then entered fs pb aflag else bput fs pb zeroBlock) := by
  cases aflag <;> cases fflag <;> simp [areadLoop, entered, bread, hr]

lemma areadLoop_cons {fflag aflag : Bool} {pb : ℤ} {i : ℕ} {p : List ℕ}
    (hr : ∀ b, fs.rdok b = true) :
    areadLoop fflag (i :: p) fs pb aflag =
      if ents (entered fs pb aflag).disk pb i = 0 then
        if (balloc (entered fs pb aflag)).1 = 0 then (none, (balloc (entered fs pb aflag)).2)
        else areadLoop fflag p (bput (balloc (entered fs pb aflag)).2 pb
          (setEntry ((balloc (entered fs pb aflag)).2.disk pb) i (balloc (entered fs pb aflag)).1))
          (balloc (entered fs pb aflag)).1 true
      else areadLoop fflag p (entered fs pb aflag) (ents (entered fs pb aflag).disk pb i) false := by
  cases aflag <;> simp [areadLoop, entered, bread, hr, ents]

/-- **The loop of `aread`** moves blocks from the free list into the tree along its path. -/
lemma areadLoop_spec (fflag : Bool) {p : List ℕ} (hp : ∀ i ∈ p, i < NBN) {fs : Fs} {pb : ℤ}
    {aflag : Bool} {l : List ℤ} (hL : Live (entered fs pb aflag) l) (hpb : pb ≠ 0)
    (hnd : (tree (entered fs pb aflag).disk p.length pb + l).Nodup)
    (hin : InVolume (entered fs pb aflag) (tree (entered fs pb aflag).disk p.length pb)) :
    ∃ l' N, Grown (entered fs pb aflag) l p pb (areadLoop fflag p fs pb aflag).2 l' N ∧
      Reached fflag (entered fs pb aflag) p pb (areadLoop fflag p fs pb aflag).2 l'
        (areadLoop fflag p fs pb aflag).1 := by
  have hr : ∀ b, fs.rdok b = true := by
    have := hL.rdok
    cases aflag <;> exact this
  induction p generalizing fs pb aflag l with
  | nil =>
    rw [areadLoop_nil hr]
    have hpbl : pb ∉ l := fun h => by
      obtain ⟨-, -, hdj⟩ := Multiset.nodup_add.mp hnd
      exact Multiset.disjoint_left.mp hdj (Radix.self_mem hpb) (Multiset.mem_coe.mpr h)
    cases fflag with
    | false =>
      refine ⟨l, 0, .refl hL, rfl, hpb, rfl, ?_⟩
      have h0 : follow (entered fs pb aflag).disk [] pb ≠ 0 := hpb
      exact (if_pos ⟨rfl, h0⟩).symm
    | true =>
      refine ⟨l, 0, ?_, rfl, hpb, ?_, ?_⟩
      · have hb : bput fs pb zeroBlock = bput (entered fs pb aflag) pb zeroBlock := by
          cases aflag <;> simp [entered, bput]
        simp only [Bool.true_eq_false, if_false, hb]
        refine ⟨by simp, hL.bput hpbl _, bput_sameVolume _ _ _, ?_, ?_, ?_⟩
        · rw [add_zero, List.length_nil, FileMap.tree, FileMap.tree, Radix.tree_leaf hpb,
            Radix.tree_leaf hpb]
        · intro c hc _ _
          exact bput_disk_of_ne _ fun e => hc (by rw [e]; exact Radix.self_mem hpb)
        · intro q hq _ hne
          exact absurd (List.length_eq_zero_iff.mp hq) hne
      · cases aflag <;> rfl
      · simp [bput_disk_self]
  | cons i p ih =>
    rw [areadLoop_cons hr]
    have hi : i < NBN := hp i (by simp)
    have hp' : ∀ j ∈ p, j < NBN := fun j hj => hp j (by simp [hj])
    generalize entered fs pb aflag = fs₁ at *
    rw [List.length_cons] at hnd hin
    have hi2 := hL.wf.isize
    have hr₁ := hL.rdok
    obtain ⟨hndT, hndl, hdj⟩ := Multiset.nodup_add.mp hnd
    have hpbT : pb ∈ tree fs₁.disk (p.length + 1) pb := Radix.self_mem hpb
    have hTl : ∀ c ∈ tree fs₁.disk (p.length + 1) pb, c ∉ l := fun c hc hcl =>
      Multiset.disjoint_left.mp hdj hc (Multiset.mem_coe.mpr hcl)
    by_cases h0 : ents fs₁.disk pb i = 0
    · rw [if_pos h0]
      rcases hL.balloc with ⟨rfl, hb0, hL', herr⟩ | ⟨b, l₂, rfl, hb, hbne, hL', herr⟩
      · -- there is no block to be had
        rw [if_pos hb0]
        refine ⟨[], 0, .of_disk rfl hL' (balloc_sameVolume _) (fun c hc => ?_)
          (fun c hc => balloc_disk hc), rfl, herr⟩
        exact balloc_disk (hin.ne_super hi2 hc)
      · -- the new block becomes the child
        rw [hb, if_neg hbne]
        have hbr := hL.wf.range b (by simp)
        have hfs := hL.wf.fsize
        have hbpb : b ≠ pb := by rintro rfl; exact hTl b hpbT (by simp)
        have hbs : b ≠ SUPERI := hL.wf.ne_super (by simp)
        have hpbs : pb ≠ SUPERI := hin.ne_super hi2 hpbT
        set fs₂ := bput (balloc fs₁).2 pb (setEntry ((balloc fs₁).2.disk pb) i b) with hfs₂
        have hvol : SameVolume fs₁ (entered fs₂ b true) := balloc_sameVolume fs₁ |>.trans
          ((bput_sameVolume _ _ _).trans (bput_sameVolume _ _ _))
        have hpbe : (entered fs₂ b true).disk pb = setEntry (fs₁.disk pb) i b := by
          rw [entered, if_pos rfl, bput_disk_of_ne _ hbpb.symm, hfs₂, bput_disk_self,
            balloc_disk hpbs]
        have hbz : (entered fs₂ b true).disk b = zeroBlock := by
          rw [entered, if_pos rfl, bput_disk_self]
        have hdisk : ∀ c, c ≠ pb → c ∉ ({b} : Multiset ℤ) → c ≠ SUPERI →
            (entered fs₂ b true).disk c = fs₁.disk c := by
          intro c hcpb hcb hcs
          rw [Multiset.mem_singleton] at hcb
          rw [entered, if_pos rfl, bput_disk_of_ne _ hcb, hfs₂, bput_disk_of_ne _ hcpb,
            balloc_disk hcs]
        have hbl₂ : b ∉ l₂ := (List.nodup_cons.mp hL.wf.nodup).1
        have hL₂ : Live (entered fs₂ b true) l₂ := by
          rw [entered, if_pos rfl]
          exact (hL'.bput (fun h => hTl pb hpbT (by simp [h])) _).bput hbl₂ _
        have htree : tree (entered fs₂ b true).disk p.length b = {b} := tree_cleared hbne hbz
        have hent : ∀ j, j ≠ i → ents (entered fs₂ b true).disk pb j = ents fs₁.disk pb j := by
          intro j hj
          rw [ents, hpbe, dentry_setEntry_of_ne hj]; rfl
        have he : ents (entered fs₂ b true).disk pb i = b := by
          rw [ents, hpbe, dentry_setEntry (by omega) (by omega)]
        obtain ⟨l', N, hg, hre⟩ := ih hp' hL₂ hbne
          (by
            rw [htree, Multiset.singleton_add]
            exact Multiset.coe_nodup.mpr hL.wf.nodup)
          (by
            intro c hc
            rw [htree, Multiset.mem_singleton] at hc
            rw [hc, hvol.isize, hvol.fsize]
            exact hbr)
          hL'.rdok
        have hg' := hg.node fs₁ i (l := b :: l₂) (M := {b}) hpb hi hnd hin hi2
          (by rw [Multiset.singleton_add]; rfl) hvol
          (by rw [htree, h0, FileMap.tree, Radix.tree_zero, zero_add])
          hdisk (fun j _ hj => hent j hj) he
          (by
            intro q hq hqp
            rw [h0, FileMap.follow, FileMap.follow, Radix.follow_zero]
            cases q with
            | nil => exact absurd (List.length_eq_zero_iff.mp hq.symm).symm hqp
            | cons j q =>
              rw [Radix.follow_cons hbne, ents, hbz, dentry_zeroBlock, Radix.follow_zero])
        refine ⟨l', _, hg', ?_⟩
        -- where the path leads, seen from the parent
        have hpbg : ents (areadLoop fflag p fs₂ b true).2.disk pb = ents (entered fs₂ b true).disk pb := by
          refine ents_congr (hg.frame pb ?_ (fun hN => ?_) hpbs)
          · rw [htree, Multiset.mem_singleton]; exact hbpb.symm
          · refine hTl pb hpbT (List.mem_cons_of_mem _ (Multiset.mem_coe.mp ?_))
            rw [hg.free]; simp [hN]
        cases hres : (areadLoop fflag p fs₂ b true).1 with
        | none => rw [hres] at hre; exact ⟨hre.1, hre.2⟩
        | some c =>
          rw [hres] at hre
          obtain ⟨r1, r2, r3, r4⟩ := hre
          refine ⟨?_, r2, r3.trans herr, ?_⟩
          · rw [FileMap.follow, Radix.follow_cons hpb, hpbg, he]; exact r1
          · have hold : follow fs₁.disk (i :: p) pb = 0 := by
              rw [FileMap.follow, Radix.follow_cons hpb, h0, Radix.follow_zero]
            rw [if_neg (by simp [hold]), r4]
            split_ifs with hf
            · -- only the new block itself can have been reached already
              cases p with
              | nil =>
                have hcb : b = c := by simpa [follow, Radix.follow] using r1
                rw [← hcb]; exact hbz
              | cons j p =>
                exfalso
                refine hf.2 ?_
                rw [FileMap.follow, Radix.follow_cons hbne, ents, hbz, dentry_zeroBlock,
                  Radix.follow_zero]
            · rfl
    · -- the child is there
      rw [if_neg h0]
      have hchild : tree fs₁.disk p.length (ents fs₁.disk pb i) ≤ tree fs₁.disk (p.length + 1) pb :=
        Radix.child_le hpb hi
      obtain ⟨l', N, hg, hre⟩ := ih hp' (show Live (entered fs₁ (ents fs₁.disk pb i) false) l from hL) h0
        (Multiset.nodup_of_le (Multiset.add_le_add_right hchild) hnd)
        (fun c hc => hin c (Multiset.mem_of_le hchild hc)) hr₁
      have hg' := hg.node fs₁ i (l := l) (M := 0) hpb hi hnd hin hi2
        (by rw [zero_add]) (.refl fs₁) (by rw [add_zero]; rfl) (fun _ _ _ _ => rfl)
        (fun _ _ _ => rfl) rfl (fun _ _ _ => rfl)
      rw [zero_add] at hg'
      refine ⟨l', N, hg', ?_⟩
      have hpbg : ents (areadLoop fflag p fs₁ (ents fs₁.disk pb i) false).2.disk pb = ents fs₁.disk pb := by
        refine ents_congr (hg.frame pb ?_ (fun hN => ?_) (hin.ne_super hi2 hpbT))
        · exact ((Radix.nodup_children hpb hndT).1 i hi).1
        · refine hTl pb hpbT (Multiset.mem_coe.mp ?_)
          rw [hg.free]; simp [hN]
      cases hres : (areadLoop fflag p fs₁ (ents fs₁.disk pb i) false).1 with
      | none => rw [hres] at hre; exact ⟨hre.1, hre.2⟩
      | some c =>
        rw [hres] at hre
        obtain ⟨r1, r2, r3, r4⟩ := hre
        refine ⟨?_, r2, r3, ?_⟩
        · rw [FileMap.follow, Radix.follow_cons hpb, hpbg]; exact r1
        · rw [FileMap.follow, Radix.follow_cons hpb]; exact r4

/-! ### The addresses of an inode -/

/-- The blocks that the first `k` addresses of an inode own. -/
def roots (disk : ℤ → Block) (k : ℕ) (a : ℕ → ℤ) : Multiset ℤ :=
  ∑ i ∈ Finset.range k, tree disk (level i) (a i)

/-- The block that block `lb` of a file is in, zero for a hole. -/
def vblock (disk : ℤ → Block) (a : ℕ → ℤ) (lb : ℕ) : ℤ :=
  match lmap lb with
  | some (i :: p) => follow disk p (a i)
  | _ => 0

lemma vblock_eq {disk : ℤ → Block} {a : ℕ → ℤ} {lb i : ℕ} {p : List ℕ}
    (h : lmap lb = some (i :: p)) : vblock disk a lb = follow disk p (a i) := by
  rw [vblock, h]

lemma root_le {disk : ℤ → Block} {k i : ℕ} {a : ℕ → ℤ} (hi : i < k) :
    tree disk (level i) (a i) ≤ roots disk k a :=
  Finset.single_le_sum (f := fun i => tree disk (level i) (a i)) (fun _ _ => Multiset.zero_le _)
    (Finset.mem_range.mpr hi)

/-- Trees of different addresses are disjoint. -/
lemma roots_disjoint {disk : ℤ → Block} {k i j : ℕ} {a : ℕ → ℤ} (h : (roots disk k a).Nodup)
    (hi : i < k) (hj : j < k) (hij : i ≠ j) :
    ∀ c ∈ tree disk (level i) (a i), c ∉ tree disk (level j) (a j) := by
  have h2 : tree disk (level i) (a i) + tree disk (level j) (a j) ≤ roots disk k a := by
    rw [← Finset.sum_pair (f := fun i => tree disk (level i) (a i)) hij]
    refine Finset.sum_le_sum_of_subset ?_
    intro m hm
    rcases Finset.mem_insert.mp hm with rfl | hm
    · exact Finset.mem_range.mpr hi
    · rw [Finset.mem_singleton.mp hm]; exact Finset.mem_range.mpr hj
  intro c hc hc'
  have hnd := (Multiset.nodup_add.mp (Multiset.nodup_of_le h2 h)).2.2
  exact Multiset.disjoint_left.mp hnd hc hc'

lemma roots_congr {disk disk' : ℤ → Block} {k : ℕ} {a : ℕ → ℤ}
    (h : ∀ c ∈ roots disk k a, disk' c = disk c) : roots disk' k a = roots disk k a :=
  Finset.sum_congr rfl fun _ hi => Radix.tree_congr fun c hc =>
    ents_congr (h c (Multiset.mem_of_le (root_le (Finset.mem_range.mp hi)) hc))

/-- The inode with addresses `a` has become one with addresses `a'`, which own the blocks `N`
besides; block `lb` of the file is the only one that may have moved or changed. -/
structure Extended (fs : Fs) (l : List ℤ) (k : ℕ) (a : ℕ → ℤ) (lb : ℕ) (gs : Fs) (l' : List ℤ)
    (a' : ℕ → ℤ) (N : Multiset ℤ) : Prop where
  free : (l : Multiset ℤ) = N + l'
  live : Live gs l'
  vol : SameVolume fs gs
  roots : roots gs.disk k a' = roots fs.disk k a + N
  frame : ∀ c, c ∉ FileMap.roots fs.disk k a → c ∉ N → c ≠ SUPERI → gs.disk c = fs.disk c
  other : ∀ lb' i p, lmap lb' = some (i :: p) → i < k → lb' ≠ lb →
    vblock gs.disk a' lb' = vblock fs.disk a lb' ∧
      (vblock fs.disk a lb' ≠ 0 → gs.disk (vblock fs.disk a lb') = fs.disk (vblock fs.disk a lb'))
  addr : ∀ i, ND + NI ≤ i ∨ k ≤ i → a' i = a i

/-- What `aread` returns for block `lb`. -/
def Obtained (fflag : Bool) (fs : Fs) (a : ℕ → ℤ) (lb : ℕ) (gs : Fs) (a' : ℕ → ℤ)
    (l' : List ℤ) : Option ℤ → Prop
  | none => l' = [] ∧ gs.u_error = some .ENOSPC
  | some c => vblock gs.disk a' lb = c ∧ c ≠ 0 ∧ gs.u_error = fs.u_error ∧
      gs.disk c = if fflag = false ∧ vblock fs.disk a lb ≠ 0 then fs.disk c else zeroBlock

/-- From the growth of the tree at address `i₀` to that of the inode. -/
lemma Grown.inode (fs : Fs) (a : ℕ → ℤ) (i₀ : ℕ) {hs gs : Fs} {l l₂ l' : List ℤ} {p : List ℕ}
    {e : ℤ} {k lb : ℕ} {M N : Multiset ℤ} (hg : Grown hs l₂ p e gs l' N)
    (hlb : lmap lb = some (i₀ :: p)) (hi₀ : i₀ < k)
    (hnd : (FileMap.roots fs.disk k a + l).Nodup) (hin : InVolume fs (FileMap.roots fs.disk k a))
    (hi2 : 2 ≤ fs.m_super.s_isize) (hl : (l : Multiset ℤ) = M + l₂) (hvol : SameVolume fs hs)
    (htree : FileMap.tree hs.disk p.length e = FileMap.tree fs.disk p.length (a i₀) + M)
    (hdisk : ∀ c, c ∉ M → c ≠ SUPERI → hs.disk c = fs.disk c)
    (hfol : ∀ q, q.length = p.length → q ≠ p → follow hs.disk q e = follow fs.disk q (a i₀)) :
    Extended fs l k a lb gs l' (Function.update a i₀ e) (M + N) := by
  obtain ⟨hj, hlen, -, -⟩ := lmap_cons hlb
  rw [hl] at hnd
  obtain ⟨hndT, -, hdj⟩ := Multiset.nodup_add.mp hnd
  have hdj' : ∀ c ∈ FileMap.roots fs.disk k a, c ∉ M ∧ c ∉ N := by
    intro c hc
    have hcl := Multiset.disjoint_left.mp hdj hc
    refine ⟨fun hm => hcl (by simp [hm]), fun hN => hcl ?_⟩
    rw [hg.free]; simp [hN]
  -- the trees of the other addresses are not touched
  have hsub : ∀ i < k, i ≠ i₀ → ∀ c ∈ FileMap.tree fs.disk (level i) (a i),
      gs.disk c = fs.disk c := by
    intro i hi hne c hc
    have hcT := Multiset.mem_of_le (root_le hi) hc
    have hcs := hin.ne_super hi2 hcT
    rw [hg.frame c ?_ (hdj' c hcT).2 hcs, hdisk c (hdj' c hcT).1 hcs]
    rw [htree, hlen, Multiset.mem_add, not_or]
    exact ⟨roots_disjoint hndT hi hi₀ hne c hc, (hdj' c hcT).1⟩
  refine ⟨by rw [hl, hg.free, add_assoc], hg.live, hvol.trans hg.vol, ?_, ?_, ?_, ?_⟩
  · have hm : i₀ ∈ Finset.range k := Finset.mem_range.mpr hi₀
    have hrest : ∑ i ∈ (Finset.range k).erase i₀,
        FileMap.tree gs.disk (level i) (Function.update a i₀ e i) =
        ∑ i ∈ (Finset.range k).erase i₀, FileMap.tree fs.disk (level i) (a i) := by
      refine Finset.sum_congr rfl fun i hi => ?_
      obtain ⟨hne, hi⟩ := Finset.mem_erase.mp hi
      rw [Function.update_of_ne hne]
      exact Radix.tree_congr fun c hc => ents_congr (hsub i (Finset.mem_range.mp hi) hne c hc)
    have hg' := hg.tree
    rw [htree, hlen] at hg'
    rw [FileMap.roots, FileMap.roots,
      ← Finset.add_sum_erase _ (fun i => FileMap.tree gs.disk (level i) (Function.update a i₀ e i)) hm,
      ← Finset.add_sum_erase _ (fun i => FileMap.tree fs.disk (level i) (a i)) hm, hrest,
      Function.update_self, hg']
    abel
  · intro c hcT hcMN hcs
    rw [Multiset.mem_add, not_or] at hcMN
    rw [hg.frame c ?_ hcMN.2 hcs, hdisk c hcMN.1 hcs]
    rw [htree, hlen, Multiset.mem_add, not_or]
    exact ⟨fun h => hcT (Multiset.mem_of_le (root_le hi₀) h), hcMN.1⟩
  · intro lb' i q hlb' hi hne
    obtain ⟨-, hqlen, hqK, -⟩ := lmap_cons hlb'
    rw [vblock_eq hlb', vblock_eq hlb']
    by_cases hii : i = i₀
    · subst hii
      have hqp : q ≠ p := by rintro rfl; exact hne (lmap_inj hlb' hlb)
      have hql : q.length = p.length := by rw [hqlen, hlen]
      obtain ⟨h1, h2⟩ := hg.other q hql hqK hqp
      have hf := hfol q hql hqp
      rw [Function.update_self]
      refine ⟨h1.trans hf, fun h0 => ?_⟩
      have hc := Radix.follow_mem hqK h0
      rw [hqlen] at hc
      have hcT := Multiset.mem_of_le (root_le hi) hc
      rw [← hf] at h0
      have h3 := h2 h0
      rw [hf] at h3
      rw [h3]
      exact hdisk _ (hdj' _ hcT).1 (hin.ne_super hi2 hcT)
    · rw [Function.update_of_ne hii]
      have hcong : ∀ c ∈ Radix.tree NBN (ents fs.disk) q.length (a i),
          ents gs.disk c = ents fs.disk c := by
        rw [hqlen]
        exact fun c hc => ents_congr (hsub i hi hii c hc)
      refine ⟨Radix.follow_congr hqK hcong, fun h0 => ?_⟩
      have hc := Radix.follow_mem hqK h0
      rw [hqlen] at hc
      exact hsub i hi hii _ hc
  · intro i hi
    refine Function.update_of_ne ?_ _ _
    rintro rfl
    unfold NADDR at hj
    unfold ND NI at hi
    omega

/-- **`aread`** gives the file a block for `lb`, moving the blocks it needs from the free list
to the file, and keeps to that also when it runs out of them. -/
lemma aread_spec (fflag : Bool) {a : ℕ → ℤ} {k lb i₀ : ℕ} {p : List ℕ} (hL : Live fs l)
    (hlb : lmap lb = some (i₀ :: p)) (hi₀ : i₀ < k) (hnd : (roots fs.disk k a + l).Nodup)
    (hin : InVolume fs (roots fs.disk k a)) :
    ∃ l' N, Extended fs l k a lb (aread fs a lb fflag).2.1 l' (aread fs a lb fflag).2.2 N ∧
      Obtained fflag fs a lb (aread fs a lb fflag).2.1 (aread fs a lb fflag).2.2 l'
        (aread fs a lb fflag).1 := by
  obtain ⟨-, hlen, hp, -⟩ := lmap_cons hlb
  have hi2 := hL.wf.isize
  obtain ⟨hndT, hndl, hdj⟩ := Multiset.nodup_add.mp hnd
  unfold aread
  rw [hlb]
  dsimp only
  by_cases h0 : a i₀ = 0
  · rw [if_pos h0]
    rcases hL.balloc with ⟨rfl, hb0, hL', herr⟩ | ⟨b, l₂, rfl, hb, hbne, hL', herr⟩
    · -- no block for the address itself
      rw [if_pos hb0]
      have hg : Grown fs [] p 0 (balloc fs).2 [] 0 := .of_disk rfl hL' (balloc_sameVolume fs)
        (by simp [tree]) fun c hc => balloc_disk hc
      have hx := hg.inode fs a i₀ (l := []) (M := 0) hlb hi₀ hnd hin hi2 (by simp) (.refl fs)
        (by rw [h0, add_zero]) (fun _ _ _ => rfl) (fun q _ _ => by rw [h0])
      rw [← h0, Function.update_eq_self] at hx
      exact ⟨[], _, hx, rfl, herr⟩
    · -- a new root
      rw [hb, if_neg hbne]
      have hbr := hL.wf.range b (by simp)
      have hvol : SameVolume fs (entered (balloc fs).2 b true) :=
        (balloc_sameVolume fs).trans (bput_sameVolume _ _ _)
      have hbz : (entered (balloc fs).2 b true).disk b = zeroBlock := by
        rw [entered, if_pos rfl, bput_disk_self]
      have hdisk : ∀ c, c ∉ ({b} : Multiset ℤ) → c ≠ SUPERI →
          (entered (balloc fs).2 b true).disk c = fs.disk c := by
        intro c hcb hcs
        rw [Multiset.mem_singleton] at hcb
        rw [entered, if_pos rfl, bput_disk_of_ne _ hcb, balloc_disk hcs]
      have hL₂ : Live (entered (balloc fs).2 b true) l₂ := by
        rw [entered, if_pos rfl]
        exact hL'.bput (List.nodup_cons.mp hL.wf.nodup).1 _
      have htree : tree (entered (balloc fs).2 b true).disk p.length b = {b} :=
        tree_cleared hbne hbz
      have hnew : ∀ q : List ℕ, q ≠ [] → follow (entered (balloc fs).2 b true).disk q b = 0 := by
        intro q hq
        obtain ⟨j, q, rfl⟩ := List.exists_cons_of_ne_nil hq
        rw [follow, Radix.follow_cons hbne, ents, hbz, dentry_zeroBlock, Radix.follow_zero]
      obtain ⟨l', N, hg, hre⟩ := areadLoop_spec fflag hp hL₂ hbne
        (by
          rw [htree, Multiset.singleton_add]
          exact Multiset.coe_nodup.mpr hL.wf.nodup)
        (by
          intro c hc
          rw [htree, Multiset.mem_singleton] at hc
          rw [hc, hvol.isize, hvol.fsize]
          exact hbr)
      have hx := hg.inode fs a i₀ (l := b :: l₂) (M := {b}) hlb hi₀ hnd hin hi2
        (by rw [Multiset.singleton_add]; rfl) hvol
        (by rw [htree, h0, tree, Radix.tree_zero, zero_add]) hdisk
        (by
          intro q hq hqp
          rw [h0, hnew q ?_, follow, Radix.follow_zero]
          rintro rfl
          exact hqp (List.length_eq_zero_iff.mp hq.symm).symm)
      refine ⟨l', _, hx, ?_⟩
      cases hres : (areadLoop fflag p (balloc fs).2 b true).1 with
      | none => rw [hres] at hre; exact hre
      | some c =>
        rw [hres] at hre
        obtain ⟨r1, r2, r3, r4⟩ := hre
        refine ⟨?_, r2, r3.trans herr, ?_⟩
        · rw [vblock_eq hlb]
          dsimp only
          rw [Function.update_self]; exact r1
        · have hold : vblock fs.disk a lb = 0 := by rw [vblock_eq hlb, h0, follow, Radix.follow_zero]
          rw [if_neg (by simp [hold]), r4]
          split_ifs with hf
          · by_cases hpn : p = []
            · subst hpn
              have hcb : b = c := by simpa [follow, Radix.follow] using r1
              rw [← hcb]; exact hbz
            · exact absurd (hnew p hpn) hf.2
          · rfl
  · -- the root is there
    rw [if_neg h0]
    have hle : tree fs.disk p.length (a i₀) ≤ roots fs.disk k a := by
      rw [hlen]; exact root_le hi₀
    obtain ⟨l', N, hg, hre⟩ := areadLoop_spec fflag hp
      (show Live (entered fs (a i₀) false) l from hL) h0
      (Multiset.nodup_of_le (Multiset.add_le_add_right hle) hnd)
      (fun c hc => hin c (Multiset.mem_of_le hle hc))
    have hx := hg.inode fs a i₀ (l := l) (M := 0) hlb hi₀ hnd hin hi2 (by rw [zero_add]) (.refl fs)
      (by rw [add_zero]; rfl) (fun _ _ _ => rfl) (fun _ _ _ => rfl)
    rw [zero_add, Function.update_eq_self] at hx
    refine ⟨l', N, hx, ?_⟩
    cases hres : (areadLoop fflag p fs (a i₀) false).1 with
    | none => rw [hres] at hre; exact hre
    | some c =>
      rw [hres] at hre
      obtain ⟨r1, r2, r3, r4⟩ := hre
      refine ⟨?_, r2, r3, ?_⟩
      · rw [vblock_eq hlb]; exact r1
      · rw [vblock_eq hlb]; exact r4

/-! ### Writing a block of a file -/

/-- Different blocks of a file are in different blocks of the disk. -/
lemma vblock_inj {disk : ℤ → Block} {a : ℕ → ℤ} {k lb lb' i j : ℕ} {p q : List ℕ}
    (hnd : (roots disk k a).Nodup) (h : lmap lb = some (i :: p)) (hi : i < k)
    (h' : lmap lb' = some (j :: q)) (hj : j < k) (h0 : vblock disk a lb ≠ 0)
    (he : vblock disk a lb = vblock disk a lb') : lb = lb' := by
  obtain ⟨-, hpl, hp, -⟩ := lmap_cons h
  obtain ⟨-, hql, hq, -⟩ := lmap_cons h'
  rw [vblock_eq h] at h0 he
  rw [vblock_eq h'] at he
  have hm := Radix.follow_mem hp h0
  have h0' : follow disk q (a j) ≠ 0 := by rw [← he]; exact h0
  have hm' := Radix.follow_mem hq h0'
  rw [hpl] at hm
  rw [hql] at hm'
  by_cases hij : i = j
  · subst hij
    have hnd' : (Radix.tree NBN (ents disk) p.length (a i)).Nodup := by
      rw [hpl]; exact Multiset.nodup_of_le (root_le hi) hnd
    have hpq := Radix.follow_inj hnd' (by rw [hpl, hql]) hp hq h0 he
    subst hpq
    exact lmap_inj h h'
  · have hmj : follow disk p (a i) ∈ tree disk (level j) (a j) := by rw [he]; exact hm'
    exact absurd hmj (roots_disjoint hnd hi hj hij _ hm)

/-- What is written to a block of a file changes neither what the inode owns nor where any
block of the file is. -/
lemma write_vblock {disk disk' : ℤ → Block} {a : ℕ → ℤ} {k lb i : ℕ} {p : List ℕ}
    (hnd : (roots disk k a).Nodup) (h : lmap lb = some (i :: p)) (hi : i < k)
    (h0 : vblock disk a lb ≠ 0) (hd : ∀ c, c ≠ vblock disk a lb → disk' c = disk c) :
    roots disk' k a = roots disk k a ∧ ∀ lb' j q, lmap lb' = some (j :: q) → j < k →
      vblock disk' a lb' = vblock disk a lb' := by
  obtain ⟨-, hpl, hp, -⟩ := lmap_cons h
  rw [vblock_eq h] at h0 hd
  have hm := Radix.follow_mem hp h0
  rw [hpl] at hm
  have hnd' : (Radix.tree NBN (ents disk) p.length (a i)).Nodup := by
    rw [hpl]; exact Multiset.nodup_of_le (root_le hi) hnd
  obtain ⟨ht, hf⟩ := Radix.write_leaf hnd' hp h0 fun c hc => (ents_congr (hd c hc) : ents disk' c = ents disk c)
  have hother : ∀ j < k, j ≠ i → ∀ c ∈ tree disk (level j) (a j), ents disk' c = ents disk c := by
    intro j hj hji c hc
    refine ents_congr (hd c ?_)
    rintro rfl
    exact roots_disjoint hnd hj hi hji _ hc hm
  refine ⟨Finset.sum_congr rfl fun j hj => ?_, fun lb' j q h' hj => ?_⟩
  · by_cases hji : j = i
    · subst hji
      rw [hpl] at ht
      exact ht
    · exact Radix.tree_congr (hother j (Finset.mem_range.mp hj) hji)
  · obtain ⟨-, hql, hq, -⟩ := lmap_cons h'
    rw [vblock_eq h', vblock_eq h']
    by_cases hji : j = i
    · subst hji
      exact hf q (by rw [hpl, hql]) hq
    · exact Radix.follow_congr hq (by rw [hql]; exact hother j hj hji)

/-! ### Freeing -/

/-- The volume `gs` has the blocks `T` of `fs` on its free list besides `l`. -/
structure Freed (fs : Fs) (l : List ℤ) (T : Multiset ℤ) (gs : Fs) (l' : List ℤ) : Prop where
  live : Live gs l'
  free : (l' : Multiset ℤ) = T + l
  vol : SameVolume fs gs
  frame : ∀ c, c ∉ T → c ≠ SUPERI → gs.disk c = fs.disk c

lemma indfree_zero (n : ℕ) (fs : Fs) : indfree n fs 0 = fs := by cases n <;> simp [indfree]

/-- Freeing one tree after another, when freeing each of them alone works. -/
lemma foldl_freed {n : ℕ → ℕ} {e : ℕ → ℤ} {is : List ℕ}
    (ih : ∀ i ∈ is, ∀ fs l, Live fs l → (tree fs.disk (n i) (e i) + l).Nodup →
      InVolume fs (tree fs.disk (n i) (e i)) →
      ∃ l', Freed fs l (tree fs.disk (n i) (e i)) (indfree (n i) fs (e i)) l')
    {fs : Fs} {l : List ℤ} (hL : Live fs l)
    (hnd : ((is.map fun i => tree fs.disk (n i) (e i)).sum + l).Nodup)
    (hin : InVolume fs (is.map fun i => tree fs.disk (n i) (e i)).sum) :
    ∃ l', Freed fs l (is.map fun i => tree fs.disk (n i) (e i)).sum
      (is.foldl (fun fs i => indfree (n i) fs (e i)) fs) l' := by
  induction is generalizing fs l with
  | nil => exact ⟨l, hL, by simp, .refl fs, fun _ _ _ => rfl⟩
  | cons i is ih' =>
    rw [List.map_cons, List.sum_cons] at hnd hin ⊢
    have hi2 := hL.wf.isize
    obtain ⟨l₁, h1⟩ := ih i (by simp) fs l hL
      (Multiset.nodup_of_le (Multiset.add_le_add_right (Multiset.le_add_right _ _)) hnd)
      (fun c hc => hin c (Multiset.mem_add.mpr (Or.inl hc)))
    have hdj : ∀ c ∈ (is.map fun i => tree fs.disk (n i) (e i)).sum, c ∉ tree fs.disk (n i) (e i) := by
      intro c hc hc'
      exact Multiset.disjoint_left.mp
        (Multiset.nodup_add.mp (Multiset.nodup_add.mp hnd).1).2.2 hc' hc
    have hkeep : (is.map fun j => tree (indfree (n i) fs (e i)).disk (n j) (e j)) =
        is.map fun j => tree fs.disk (n j) (e j) := by
      refine List.map_congr_left fun j hj => Radix.tree_congr fun c hc => ents_congr ?_
      have hcs : c ∈ (is.map fun i => tree fs.disk (n i) (e i)).sum :=
        Multiset.mem_of_le (List.single_le_sum (by simp) _ (List.mem_map_of_mem hj)) hc
      exact h1.frame c (hdj c hcs) (hin.ne_super hi2 (Multiset.mem_add.mpr (Or.inr hcs)))
    obtain ⟨l', h2⟩ := ih' (fun j hj => ih j (by simp [hj])) h1.live
      (by
        rw [hkeep, h1.free, ← add_assoc, add_comm (List.sum _)]
        exact hnd)
      (by
        rw [hkeep]
        intro c hc
        rw [h1.vol.isize, h1.vol.fsize]
        exact hin c (Multiset.mem_add.mpr (Or.inr hc)))
    rw [hkeep] at h2
    refine ⟨l', h2.live, ?_, h1.vol.trans h2.vol, fun c hc hcs => ?_⟩
    · rw [h2.free, h1.free, ← add_assoc, add_comm (List.sum _)]
    · rw [Multiset.mem_add, not_or] at hc
      rw [List.foldl_cons, h2.frame c hc.2 hcs, h1.frame c hc.1 hcs]

lemma sum_reverse_range (K : ℕ) (f : ℕ → Multiset ℤ) :
    ((List.range K).reverse.map f).sum = ∑ i ∈ Finset.range K, f i := by
  rw [List.map_reverse, List.sum_reverse]
  rfl

/-- **`indfree`** takes every block of a tree to the free list, once. -/
lemma indfree_spec (n : ℕ) (hL : Live fs l) (hnd : (tree fs.disk n b + l).Nodup)
    (hin : InVolume fs (tree fs.disk n b)) :
    ∃ l', Freed fs l (tree fs.disk n b) (indfree n fs b) l' := by
  induction n generalizing fs l b with
  | zero =>
    by_cases hb : b = 0
    · subst hb
      rw [indfree_zero, tree, Radix.tree_zero]
      exact ⟨l, hL, by simp, .refl fs, fun _ _ _ => rfl⟩
    · rw [tree, Radix.tree_leaf hb] at hnd hin ⊢
      have hbr := hin b (by simp)
      have hbl : b ∉ l := fun h => by
        rw [Multiset.singleton_add, Multiset.nodup_cons] at hnd
        exact hnd.1 (Multiset.mem_coe.mpr h)
      rw [indfree, if_neg hb]
      refine ⟨b :: l, hL.bfree hbr.1 hbr.2 hbl, by rw [Multiset.singleton_add]; rfl,
        bfree_sameVolume fs b, fun c hc hcs => bfree_disk hcs fun e => hc (by simp [e])⟩
  | succ n ih =>
    by_cases hb : b = 0
    · subst hb
      rw [indfree_zero, tree, Radix.tree_zero]
      exact ⟨l, hL, by simp, .refl fs, fun _ _ _ => rfl⟩
    · rw [tree, Radix.tree_succ hb] at hnd hin ⊢
      have hfold : indfree (n + 1) fs b = bfree ((List.range NBN).reverse.foldl
          (fun gs i => indfree n gs (ents fs.disk b i)) fs) b := by
        rw [indfree, if_neg hb, bread, if_pos (hL.rdok b)]
        dsimp only
        congr 2
        funext gs i
        by_cases h0 : dentry (fs.disk b) i = 0
        · rw [if_pos h0, ents, h0, indfree_zero]
        · rw [if_neg h0]
          cases n with
          | zero => rw [if_pos rfl, ents, indfree, if_neg h0]
          | succ n => rw [if_neg (Nat.succ_ne_zero n), ents]
      rw [Multiset.cons_add] at hnd
      obtain ⟨hbn, hnd'⟩ := Multiset.nodup_cons.mp hnd
      have hb' := hin b (by simp)
      have hsum := sum_reverse_range NBN fun i => tree fs.disk n (ents fs.disk b i)
      obtain ⟨l₁, h1⟩ := foldl_freed (n := fun _ => n) (e := ents fs.disk b)
        (fun i _ fs l hL hnd hin => ih hL hnd hin) hL
        (by rw [hsum]; exact hnd') (by rw [hsum]; exact fun c hc => hin c (by simp [hc]))
      rw [hsum] at h1
      have hbl : b ∉ l₁ := fun h => hbn (by rw [← h1.free]; exact Multiset.mem_coe.mpr h)
      rw [hfold]
      refine ⟨b :: l₁, h1.live.bfree (by rw [h1.vol.isize]; exact hb'.1)
        (by rw [h1.vol.fsize]; exact hb'.2) hbl, ?_, h1.vol.trans (bfree_sameVolume _ _), ?_⟩
      · rw [← Multiset.cons_coe, h1.free, Multiset.cons_add]
      · intro c hc hcs
        rw [Multiset.mem_cons, not_or] at hc
        rw [bfree_disk hcs hc.1, h1.frame c hc.2 hcs]

end Coherent.FileMap
