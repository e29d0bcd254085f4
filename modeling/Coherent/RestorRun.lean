import Coherent.Restor
import Coherent.FreeRun

/-!
What `restor` leaves to the kernel.

`restore` holds the super block from its start to its end. Which blocks are in use is told along.
-/

namespace Coherent.Restor

open Coherent.Can Coherent.Super Coherent.FreeList Coherent.Lib
open Coherent.FileMap (zeroBlock)
open Coherent.Lib.WriteBack (Cache read free flush view refs total Coh)

/-! ### Runs -/

/-- What `restore` does with the disk. -/
inductive Op
  | clri (ino : ℕ)
  | bfree (bn : ℤ) (nil : ℕ)
  | balloc
  | dbimap (dip : Block) (lb : ℕ) (data : Block) (size : ℕ)
  | rewrite (b : ℤ) (f : Block → Block)

/-- The cache, and the blocks in use. -/
structure State where
  c : Disc
  out : List ℤ

/-- The blocks that are freed. -/
def opFrees (D : ℤ → Block) : Op → List ℤ
  | .clri ino => ifrees D ino
  | .bfree bn nil => frees D nil bn
  | _ => []

/-- What is freed, extended or written is in use, and nothing is freed twice. -/
def Sound (s : State) : Op → Prop
  | .clri ino => 1 ≤ ino ∧ iblock ino < (mount (view s.c)).m_super.s_isize ∧
      (ifrees (view s.c) ino).Nodup ∧ ∀ b ∈ ifrees (view s.c) ino, b ∈ s.out
  | .bfree bn nil => nil ≤ 3 ∧ (frees (view s.c) nil bn).Nodup ∧
      ∀ b ∈ frees (view s.c) nil bn, b ∈ s.out
  | .balloc => True
  | .dbimap dip lb _ _ => ∀ b ∈ ipath (view s.c) dip lb, b ∈ s.out
  | .rewrite b _ => b ∈ s.out ∨ INODEI ≤ b ∧ b < (mount (view s.c)).m_super.s_isize

instance (s : State) : ∀ o, Decidable (Sound s o)
  | .clri _ => inferInstanceAs (Decidable (_ ∧ _ ∧ _ ∧ _))
  | .bfree _ _ => inferInstanceAs (Decidable (_ ∧ _ ∧ _))
  | .balloc => inferInstanceAs (Decidable True)
  | .dbimap _ _ _ _ => inferInstanceAs (Decidable (∀ b ∈ _, _))
  | .rewrite _ _ => inferInstanceAs (Decidable (_ ∨ _ ∧ _))

def exec (s : State) : Op → Option State
  | .clri ino => (clri s.c ino).map fun c => ⟨c, s.out.diff (ifrees (view s.c) ino)⟩
  | .bfree bn nil => (bfree nil s.c bn).map fun c => ⟨c, s.out.diff (frees (view s.c) nil bn)⟩
  | .balloc => (balloc s.c).map fun (b, c) => ⟨c, b :: s.out⟩
  | .dbimap dip lb data size =>
    (dbimapWrite s.c dip lb data size).map fun (_, c, bs) => ⟨c, bs ++ s.out⟩
  | .rewrite b f => (rewrite s.c b f).map fun c => ⟨c, s.out⟩

/-- The program goes on. -/
def Step (s : State) (o : Op) (s' : State) : Prop := Sound s o ∧ exec s o = some s'

/-- Where the list in the super block is empty, what the first block to be freed holds reads as the
end of a list. -/
def Ended (s : State) (o : Op) : Prop :=
  (mount (view s.c)).m_super.s_nfree = 0 → ∀ b ∈ (opFrees (view s.c) o).head?, Ends (view s.c b)

instance (s : State) (o : Op) : Decidable (Ended s o) := inferInstanceAs (Decidable (_ → _))

/-- The blocks `u` are on the list or in use. -/
structure Inv (u : List ℤ) (s : State) (l : List ℤ) : Prop where
  coh : Coh ∅ s.c
  room : total s.c + 5 < s.c.bufs.length
  wf : WellFormed (mount (view s.c)) l
  perm : (l ++ s.out).Perm u
  range : ∀ b ∈ s.out, ((mount (view s.c)).m_super.s_isize : ℤ) ≤ b ∧
    b < (mount (view s.c)).m_super.s_fsize

variable {u l out : List ℤ} {s s' t : State} {o : Op} {os : List Op} {D : ℤ → Block} {b : ℤ}
  {c c₀ : Disc} {p : Block}

lemma Inv.nodup (h : Inv u s l) (hu : u.Nodup) : (l ++ s.out).Nodup := h.perm.nodup_iff.mpr hu

/-- A block in use is not on the list. -/
lemma Inv.used (h : Inv u s l) (hu : u.Nodup) (hb : b ∈ s.out) : b ≠ SUPERI ∧ b ∉ l := by
  have h1 := h.range b hb
  have h2 := h.wf.isize
  refine ⟨?_, fun hl => (List.nodup_append.mp (h.nodup hu)).2.2 b hl b hb rfl⟩
  unfold SUPERI
  omega

/-- Blocks in use may be freed. -/
lemma Inv.freeable {bs : List ℤ} (h : Inv u s l) (hu : u.Nodup) (hn : bs.Nodup)
    (hb : ∀ b ∈ bs, b ∈ s.out)
    (he : (mount (view s.c)).m_super.s_nfree = 0 → ∀ b ∈ bs.head?, Ends (view s.c b)) :
    Freeable (view s.c) l bs :=
  ⟨hn, fun b hbs => (h.used hu (hb b hbs)).2, fun b hbs => h.range b (hb b hbs), he⟩

/-- Blocks go from use to the list. -/
lemma Inv.freed {bs : List ℤ} (h : Inv u s l) (hn : bs.Nodup)
    (hb : ∀ b ∈ bs, b ∈ s.out) (ha : After ∅ s.c c)
    (hv : Volume (view s.c) (view c) (bs.reverse ++ l)) :
    Inv u ⟨c, s.out.diff bs⟩ (bs.reverse ++ l) := by
  refine ⟨ha.coh, by rw [ha.total, ha.length]; exact h.room, hv.wf, ?_, fun k hk => ?_⟩
  · have hsub : bs.Subperm s.out := hn.subperm hb
    have hout : (bs ++ s.out.diff bs).Perm s.out :=
      List.subperm_append_diff_self_of_count_le fun x _ => hsub.count_le x
    calc ((bs.reverse ++ l) ++ s.out.diff bs).Perm ((bs ++ l) ++ s.out.diff bs) :=
          ((List.reverse_perm bs).append_right l).append_right _
      _ |>.Perm ((l ++ bs) ++ s.out.diff bs) := List.perm_append_comm.append_right _
      _ |>.Perm (l ++ s.out) := by
          rw [List.append_assoc]
          exact hout.append_left l
      _ |>.Perm u := h.perm
  · change (((mount (view c)).m_super.s_isize : ℕ) : ℤ) ≤ k ∧ k < (mount (view c)).m_super.s_fsize
    rw [hv.isize, hv.fsize]
    exact h.range k (List.diff_subset _ _ hk)

/-- Blocks go from the list to use. -/
lemma Inv.allocated {l' : List ℤ} (bs : List ℤ) (h : Inv u s (bs ++ l')) (ha : After ∅ s.c c)
    (hv : Volume (view s.c) (view c) l') : Inv u ⟨c, bs ++ s.out⟩ l' := by
  refine ⟨ha.coh, by rw [ha.total, ha.length]; exact h.room, hv.wf, ?_, fun k hk => ?_⟩
  · refine List.Perm.trans ?_ h.perm
    rw [← List.append_assoc]
    exact List.perm_append_comm.append_right _
  · change (((mount (view c)).m_super.s_isize : ℕ) : ℤ) ≤ k ∧ k < (mount (view c)).m_super.s_fsize
    rw [hv.isize, hv.fsize]
    obtain hk | hk := List.mem_append.mp hk
    · exact h.wf.range k (List.mem_append_left _ hk)
    · exact h.range k hk

/-- **The step**: every block stays on the list or in use. -/
lemma Inv.step (h : Inv u s l) (hu : u.Nodup) (he : Ended s o) (hs : Step s o t) :
    ∃ l', Inv u t l' := by
  obtain ⟨hsound, hx⟩ := hs
  have hroom := h.room
  cases o with
  | clri ino =>
    obtain ⟨h1, h2, h3, h4⟩ := hsound
    have hi : iblock ino ≠ SUPERI := by
      unfold iblock SUPERI InodeCodec.INOPB INODEI
      omega
    obtain ⟨c, g1, g2, g3⟩ := clri_spec h.coh h.room (Set.notMem_empty _) h.wf hi h2
      (Set.notMem_empty _) (h.freeable hu h3 h4 he) fun _ _ => Set.notMem_empty _
    rw [exec, g1] at hx
    cases hx
    exact ⟨_, h.freed h3 h4 g2 g3⟩
  | bfree bn nil =>
    obtain ⟨h1, h2, h3⟩ := hsound
    obtain ⟨c, g1, g2, g3⟩ := bfree_spec nil h.coh (by omega) (Set.notMem_empty _) h.wf
      (h.freeable hu h2 h3 he) fun _ _ => Set.notMem_empty _
    rw [exec, g1] at hx
    cases hx
    exact ⟨_, h.freed h2 h3 g2 g3.volume⟩
  | balloc =>
    cases hb : balloc s.c with
    | none =>
      rw [exec, hb] at hx
      cases hx
    | some r =>
      obtain ⟨b, c⟩ := r
      obtain ⟨l', rfl, g2, g3, -⟩ := balloc_some h.coh (by omega) (Set.notMem_empty _) h.wf
        (fun _ _ => Set.notMem_empty _) hb
      rw [exec, hb] at hx
      cases hx
      exact ⟨l', Inv.allocated [b] h g2 g3⟩
  | dbimap dip lb data size =>
    cases hb : dbimapWrite s.c dip lb data size with
    | none =>
      rw [exec, hb] at hx
      cases hx
    | some r =>
      obtain ⟨dip', c, bs⟩ := r
      obtain ⟨l', rfl, g2, g3⟩ := dbimapWrite_spec h.coh (by omega) h.wf
        (fun b hb => h.used hu (hsound b hb)) hb
      rw [exec, hb] at hx
      cases hx
      exact ⟨l', Inv.allocated bs h g2 g3⟩
  | rewrite b f =>
    have hb : b ≠ SUPERI ∧ b ∉ l := by
      obtain hb | ⟨h1, h2⟩ := hsound
      · exact h.used hu hb
      · unfold INODEI at h1
        refine ⟨by unfold SUPERI; omega, fun hl => ?_⟩
        have := (h.wf.range b hl).1
        omega
    obtain ⟨c, g1, g2, g3⟩ := rewrite_spec h.coh (by omega) h.wf hb.1 hb.2 f
    rw [exec, g1] at hx
    cases hx
    exact ⟨l, Inv.allocated [] h g2 g3⟩

/-! ### What the kernel hands out -/

/-- The blocks of successive calls of the kernel's `balloc`. -/
def ballocs : ℕ → Fs → List ℤ × Fs
  | 0, fs => ([], fs)
  | n + 1, fs =>
    let r := FreeList.balloc fs
    let t := ballocs n r.2
    (r.1 :: t.1, t.2)

/-- The kernel hands out these blocks, then says that there is no space, and `s_tfree` is their
number. -/
structure Hands (fs : Fs) (l : List ℤ) : Prop where
  blocks : (ballocs l.length fs).1 = l
  error : (ballocs l.length fs).2.u_error = none
  last : (FreeList.balloc (ballocs l.length fs).2).1 = 0
  enospc : (FreeList.balloc (ballocs l.length fs).2).2.u_error = some .ENOSPC
  tfree : fs.m_super.s_tfree = l.length

lemma ballocs_wf {fs : Fs} (h : WellFormed fs l) (hw : fs.m_ron = false)
    (hr : ∀ b, fs.rdok b = true) :
    (ballocs l.length fs).1 = l ∧ (ballocs l.length fs).2.u_error = fs.u_error ∧
      WellFormed (ballocs l.length fs).2 [] ∧ (ballocs l.length fs).2.m_ron = false := by
  induction l generalizing fs with
  | nil => exact ⟨rfl, rfl, h, hw⟩
  | cons b l ih =>
    obtain ⟨h1, h2, h3⟩ := balloc_cons h hw hr
    have hv := balloc_sameVolume fs
    obtain ⟨g1, g2, g3, g4⟩ := ih h3 (hv.ron.trans hw) fun b => by rw [hv.rdok]; exact hr b
    refine ⟨?_, g2.trans h2, g3, g4⟩
    change (FreeList.balloc fs).1 :: (ballocs l.length (FreeList.balloc fs).2).1 = _
    rw [h1, g1]

/-- A well-formed list is handed out. -/
lemma hands (h : WellFormed (mount D) l) : Hands (mount D) l := by
  obtain ⟨h1, h2, h3, h4⟩ := ballocs_wf h rfl fun _ => rfl
  obtain ⟨g1, g2, -⟩ := balloc_nil h3 h4
  exact ⟨h1, h2, g1, g2, h.tfree⟩

/-- **What `restor` leaves**: where no list in the super block is empty at a free, or what the
first block holds reads as the end of a list, the kernel hands out exactly the blocks that are not
in use. -/
theorem restor_run (hw : WellFormed (mount D) l) (hu : (l ++ out).Nodup)
    (hr : ∀ b ∈ out, ((mount D).m_super.s_isize : ℤ) ≤ b ∧ b < (mount D).m_super.s_fsize)
    (hlen : c₀.bufs.length = NRBUF)
    (hnew : ∀ x ∈ c₀.bufs, x.ok = false ∧ x.dirt = false ∧ x.refc = 0)
    (hdisk : c₀.disk = D) (hread : read c₀ SUPERI = some (p, c))
    (hrun : Run (fun s o t => Ended s o ∧ Step s o t) ⟨c, out⟩ os s) :
    ∃ l', (l' ++ s.out).Perm (l ++ out) ∧ Hands (mount (flush s.c)) l' := by
  obtain ⟨f1, f2, f3, -⟩ := WriteBack.coh_fresh hnew
  obtain ⟨c1, g1, g2, g3, g4⟩ := WriteBack.read_spec f1 (by rw [f3, hlen]; decide) SUPERI
  rw [g1, Option.some.injEq, Prod.mk.injEq] at hread
  obtain ⟨-, rfl⟩ := hread
  have hview : view c1 = D := by rw [g3, f2, hdisk]
  have hstart : ∃ l', Inv (l ++ out) ⟨c1, out⟩ l' := by
    refine ⟨l, g2, ?_, ?_, List.Perm.refl _, ?_⟩
    · rw [g4.total, g4.length, f3, hlen]
      decide
    · rw [hview]
      exact hw
    · rw [hview]
      exact hr
  obtain ⟨l', h'⟩ := hrun.invariant (I := fun s => ∃ l', Inv (l ++ out) s l')
    (fun s o t ⟨_, hi⟩ hst => hi.step hu hst.1 hst.2) hstart
  refine ⟨l', h'.perm, ?_⟩
  rw [WriteBack.flush_spec h'.coh]
  exact hands h'.wf

/-! ### A volume of eight blocks -/

/-- The list has `n` blocks in the super block, the one at the bottom being block 4. In block 5 is
`q`. -/
def aDisk (n : ℕ) (q : Block) (b : ℤ) : Block :=
  if b = SUPERI then
    putl (putl (putw (putl (putw zeroBlock 0 (canw 3)) 2 (canl 8)) 6 (canw n)) 8 (canl 4)) 474
      (canl n)
  else if b = 5 then q
  else zeroBlock

/-- Ten buffers that have not been used. -/
def unused (D : ℤ → Block) : Disc := ⟨List.replicate NRBUF ⟨0, false, false, 0, zeroBlock⟩, D⟩

lemma unused_new : ∀ x ∈ (unused D).bufs, x.ok = false ∧ x.dirt = false ∧ x.refc = 0 := by
  intro x hx
  rw [List.eq_of_mem_replicate hx]
  exact ⟨rfl, rfl, rfl⟩

def opened (D : ℤ → Block) : Disc := ((read (unused D) SUPERI).getD (zeroBlock, unused D)).2

lemma read_unused (D : ℤ → Block) : ∃ p, read (unused D) SUPERI = some (p, opened D) := by
  obtain ⟨f1, -, f3, -⟩ := WriteBack.coh_fresh (unused_new (D := D))
  obtain ⟨c, h, -⟩ := WriteBack.read_spec f1 (by
    rw [f3]
    change 0 < (List.replicate NRBUF _).length
    rw [List.length_replicate]
    decide) SUPERI
  have hc : opened D = c := by
    rw [opened, h]
    rfl
  exact ⟨_, by rw [hc]; exact h⟩

def next (s : State) (o : Op) : State := (exec s o).getD s

lemma exec_next (h : (exec s o).isSome = true) : exec s o = some (next s o) := by
  obtain ⟨t, ht⟩ := Option.isSome_iff_exists.mp h
  rw [next, ht]
  rfl

def start (n : ℕ) (q : Block) : State := ⟨opened (aDisk n q), [5]⟩

lemma aDisk_wf (q : Block) (hn : (mount (aDisk 1 q)).m_super = (mount (aDisk 1 zeroBlock)).m_super)
    (hd : aDisk 1 q 4 = zeroBlock) : WellFormed (mount (aDisk 1 q)) [4] := by
  have h0 : (mount (aDisk 1 q)).m_super.s_free 0 = 4 := by
    rw [hn]
    decide +kernel
  have hz : df_nfree zeroBlock = 0 := by decide +kernel
  refine ⟨?_, ?_, ?_, by decide, ?_, ?_, ?_⟩
  · have hlink := @Chain.link (aDisk 1 q) (mount (aDisk 1 q)).m_super.s_free [] (by rw [h0]; decide)
      (by rw [h0, hd, hz]; decide) (by rw [h0, hd, hz]; exact .empty _)
    rw [h0] at hlink
    have h1 : (mount (aDisk 1 q)).m_super.s_nfree = 1 := by
      rw [hn]
      decide +kernel
    rw [h1]
    exact hlink
  all_goals
    rw [hn]
    decide +kernel

/-- Block 4 is taken, block 5 is freed onto the empty list and taken for a file. -/
theorem restor_run_small : ∃ l', (l' ++ (next (next (next (start 1 zeroBlock) .balloc) (.bfree 5 0))
      (.dbimap zeroBlock 0 zeroBlock 512)).out).Perm ([4] ++ [5]) ∧
    Hands (mount (flush (next (next (next (start 1 zeroBlock) .balloc) (.bfree 5 0))
      (.dbimap zeroBlock 0 zeroBlock 512)).c)) l' := by
  obtain ⟨p, hp⟩ := read_unused (aDisk 1 zeroBlock)
  have hrun : Run (fun s o t => Ended s o ∧ Step s o t) (start 1 zeroBlock)
      ([] ++ [.balloc] ++ [.bfree 5 0] ++ [.dbimap zeroBlock 0 zeroBlock 512]) _ :=
    .snoc (.snoc (.snoc (.nil _)
      ⟨by decide +kernel, trivial, exec_next (by decide +kernel)⟩)
      ⟨by decide +kernel, by decide +kernel,
        exec_next (by decide +kernel)⟩)
      ⟨by decide +kernel, by decide +kernel,
        exec_next (by decide +kernel)⟩
  exact restor_run (aDisk_wf zeroBlock rfl rfl) (by decide) (by decide +kernel) rfl unused_new rfl
    hp hrun

/-- **The last block is not ended**: a block of ones freed onto an empty list is not handed out. -/
theorem last_block : ¬ ∀ (D : ℤ → Block) (l out : List ℤ) (c₀ c : Disc) (p : Block) (os : List Op)
    (s : State), WellFormed (mount D) l → (l ++ out).Nodup →
    (∀ b ∈ out, ((mount D).m_super.s_isize : ℤ) ≤ b ∧ b < (mount D).m_super.s_fsize) →
    c₀.bufs.length = NRBUF → (∀ x ∈ c₀.bufs, x.ok = false ∧ x.dirt = false ∧ x.refc = 0) →
    c₀.disk = D → read c₀ SUPERI = some (p, c) → Run Step ⟨c, out⟩ os s →
    ∃ l', (l' ++ s.out).Perm (l ++ out) ∧ Hands (mount (flush s.c)) l' := by
  intro h
  obtain ⟨p, hp⟩ := read_unused (aDisk 0 fun _ => 1)
  have hwf : WellFormed (mount (aDisk 0 fun _ => 1)) [] := by
    have h0 : (mount (aDisk 0 fun _ => 1)).m_super.s_nfree = 0 := by decide +kernel
    refine ⟨?_, ?_, by simp, by simp, ?_, ?_, ?_⟩
    · rw [h0]
      exact .empty _
    all_goals decide +kernel
  have hrun : Run Step (start 0 fun _ => 1) ([] ++ [.bfree 5 0]) _ :=
    .snoc (.nil _) ⟨by decide +kernel, exec_next (by decide +kernel)⟩
  obtain ⟨l', hperm, hh⟩ := h _ [] [5] _ _ p _ _ hwf (by decide) (by decide +kernel) rfl unused_new
    rfl hp hrun
  have hout : (next (start 0 fun _ => 1) (.bfree 5 0)).out = [] := by decide +kernel
  rw [hout, List.append_nil, List.nil_append, List.perm_singleton] at hperm
  have hb := hh.blocks
  rw [hperm] at hb
  exact absurd hb (by decide +kernel)

end Coherent.Restor
