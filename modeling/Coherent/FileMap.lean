import Coherent.FreeList

/-!
The block map of a file: `lmap`, `vmap`, `aread` and `indfree`.

An inode has `ND` direct addresses and `NI` roots of trees of indirect blocks, each of which
holds `NBN` addresses. An address zero is a hole. The addresses of an inode are a function
here, of which only the first `NADDR` are used.
-/

namespace Coherent.FileMap

open Coherent.Can Coherent.Super Coherent.FreeList

def ND : ℕ := 10
def NI : ℕ := 3
def NBN : ℕ := 128
def NADDR : ℕ := 13

/-- A block after `kclear`. -/
def zeroBlock : Block := fun _ => 0

/-- Entry `i` of an indirect block, after `candaddr`. -/
def dentry (p : Block) (i : ℕ) : ℤ := long (canl (getl p (4 * i)))

/-- The indirect block with `b` stored in its entry `i`. -/
def setEntry (p : Block) (i : ℕ) (b : ℤ) : Block := putl p (4 * i) (canl (ulong b))

/-- The loop of `lmap`, with the offsets found so far, outermost first. -/
def lmapLoop : ℕ → ℕ → List ℕ → Option (List ℕ)
  | 0, _, _ => none
  | n + 1, b, lp =>
    if b / NBN = 0 then some ((ND + NI - 1 - n) :: b % NBN :: lp)
    else lmapLoop n (b / NBN - 1) (b % NBN :: lp)

/-- The offsets that lead to block `b` of a file: which address of the inode, then which
entry of each indirect block. -/
def lmap (b : ℕ) : Option (List ℕ) := if b < ND then some [b] else lmapLoop NI (b - ND) []

/-- The loop of `vmap`. -/
def vmapLoop (fs : Fs) : List ℕ → ℤ → ℤ
  | [], pb => pb
  | l :: lp, pb =>
    if pb = 0 then 0
    else match bread fs pb with
      | none => -1
      | some bp => vmapLoop fs lp (dentry bp l)

/-- The physical block of block `lb` of a file: 0 for a hole, -1 for an error. -/
def vmap (fs : Fs) (a : ℕ → ℤ) (lb : ℕ) : ℤ × Fs :=
  match lmap lb with
  | some (l :: lp) => (vmapLoop fs lp (a l), fs)
  | _ => (-1, { fs with u_error := some .EFBIG })

/-- The loop of `aread`: the block whose buffer it returns. `aflag` says that `pb` has just
been allocated. -/
def areadLoop (fflag : Bool) : List ℕ → Fs → ℤ → Bool → Option ℤ × Fs
  | [], fs, pb, aflag =>
    if aflag = false ∧ fflag = false then
      match bread fs pb with
      | none => (none, fs)
      | some _ => (some pb, fs)
    else (some pb, bput fs pb zeroBlock)
  | l :: lp, fs, pb, aflag =>
    match (if aflag = false then (bread fs pb).map fun _ => fs else some (bput fs pb zeroBlock)) with
    | none => (none, fs)
    | some fs =>
      if dentry (fs.disk pb) l = 0 then
        if (balloc fs).1 = 0 then (none, (balloc fs).2)
        else
          areadLoop fflag lp (bput (balloc fs).2 pb (setEntry ((balloc fs).2.disk pb) l (balloc fs).1))
            (balloc fs).1 true
      else areadLoop fflag lp fs (dentry (fs.disk pb) l) false

/-- The block whose buffer `aread` returns for block `lb` of a file, the file system and the
addresses of the inode afterwards. -/
def aread (fs : Fs) (a : ℕ → ℤ) (lb : ℕ) (fflag : Bool) : Option ℤ × Fs × (ℕ → ℤ) :=
  match lmap lb with
  | some (l :: lp) =>
    if a l = 0 then
      if (balloc fs).1 = 0 then (none, (balloc fs).2, a)
      else
        ((areadLoop fflag lp (balloc fs).2 (balloc fs).1 true).1,
          (areadLoop fflag lp (balloc fs).2 (balloc fs).1 true).2,
          Function.update a l (balloc fs).1)
    else ((areadLoop fflag lp fs (a l) false).1, (areadLoop fflag lp fs (a l) false).2, a)
  | _ => (none, { fs with u_error := some .EFBIG }, a)

/-- Free all blocks in the indirect block `b`, and `b`. `n` is the level of indirection, and
the entries are freed from the last to the first. -/
def indfree : ℕ → Fs → ℤ → Fs
  | 0, fs, b => if b = 0 then fs else bfree fs b
  | n + 1, fs, b =>
    if b = 0 then fs
    else match bread fs b with
      | none => bfree fs b
      | some bp =>
        bfree ((List.range NBN).reverse.foldl (fun fs i =>
          if dentry bp i = 0 then fs
          else if n = 0 then bfree fs (dentry bp i)
          else indfree n fs (dentry bp i)) fs) b

/-! ### Entries of indirect blocks -/

lemma dentry_zeroBlock (i : ℕ) : dentry zeroBlock i = 0 := by
  have h : getl zeroBlock (4 * i) = 0 := by simp [getl, getw, zeroBlock]
  rw [dentry, h]
  rfl

lemma dentry_setEntry {p : Block} {i : ℕ} {b : ℤ} (h0 : 0 ≤ b) (h1 : b < 2147483648) :
    dentry (setEntry p i b) i = b := by
  have hg := getl_putls (p := p) (o := 4 * i) (n := 1) (k := 0) (f := fun _ => canl (ulong b))
    (by omega)
  rw [Nat.mul_zero, Nat.add_zero, Nat.mod_eq_of_lt (canl_lt _)] at hg
  rw [dentry, setEntry, putl, hg, canl_canl, Nat.mod_eq_of_lt (ulong_lt b),
    long_ulong (by omega) h1]

lemma dentry_setEntry_of_ne {p : Block} {i j : ℕ} {b : ℤ} (h : j ≠ i) :
    dentry (setEntry p i b) j = dentry p j := by
  rw [dentry, dentry, setEntry, putl, getl, getw_putls (by omega), getw_putls (by omega), getl]

/-! ### The offsets of a block -/

/-- The level of the tree that address `i` of an inode is the root of. -/
def level (i : ℕ) : ℕ := if i < ND then 0 else i - ND + 1

lemma lmapLoop_some {n b : ℕ} {lp r : List ℕ} (h : lmapLoop n b lp = some r) (hn : n ≤ NI)
    (hlp : ∀ i ∈ lp, i < NBN) (hlen : lp.length = NI - n) :
    ∃ l t, r = l :: t ∧ ND ≤ l ∧ l < NADDR ∧ t.length = level l ∧ ∀ i ∈ t, i < NBN := by
  induction n generalizing b lp with
  | zero => simp [lmapLoop] at h
  | succ n ih =>
    have hb : b % NBN < NBN := Nat.mod_lt _ (by decide)
    have hcons : ∀ i ∈ b % NBN :: lp, i < NBN := by
      intro i hi
      rcases List.mem_cons.mp hi with rfl | hi
      · exact hb
      · exact hlp i hi
    rw [lmapLoop] at h
    split_ifs at h with h0
    · obtain rfl := Option.some.inj h
      have hl : ND ≤ ND + NI - 1 - n := by unfold NI at hn; unfold ND NI; omega
      refine ⟨_, _, rfl, hl, ?_, ?_, hcons⟩
      · unfold ND NI NADDR; omega
      · rw [level, if_neg (by omega), List.length_cons, hlen]
        unfold NI at hn
        unfold ND NI; omega
    · refine ih h (by omega) hcons ?_
      simp only [List.length_cons, hlen, NI] at hn ⊢
      omega

/-- A path starts at an address of the inode and is as long as the tree there is deep. -/
lemma lmap_some {b : ℕ} {r : List ℕ} (h : lmap b = some r) :
    ∃ l t, r = l :: t ∧ l < NADDR ∧ t.length = level l ∧ (∀ i ∈ t, i < NBN) ∧
      (l < ND ↔ b < ND) := by
  unfold lmap at h
  split_ifs at h with hb
  · obtain rfl := Option.some.inj h
    refine ⟨b, [], rfl, lt_trans hb (by decide), ?_, by simp, by simp⟩
    rw [level, if_pos hb]; rfl
  · obtain ⟨l, t, rfl, h1, h2, h3, h4⟩ := lmapLoop_some h le_rfl (by simp) rfl
    exact ⟨l, t, rfl, h2, h3, h4, by omega⟩

lemma lmap_cons {b l : ℕ} {t : List ℕ} (h : lmap b = some (l :: t)) :
    l < NADDR ∧ t.length = level l ∧ (∀ i ∈ t, i < NBN) ∧ (l < ND ↔ b < ND) := by
  obtain ⟨l', t', he, h1⟩ := lmap_some h
  obtain ⟨rfl, rfl⟩ := List.cons.inj he
  exact h1

/-- The more turns the loop takes, the higher the address it starts at. -/
lemma lmapLoop_root {n b l : ℕ} {lp t : List ℕ} (h : lmapLoop n b lp = some (l :: t)) (hn : n ≤ NI) :
    ND + NI ≤ l + n := by
  induction n generalizing b lp with
  | zero => simp [lmapLoop] at h
  | succ n ih =>
    rw [lmapLoop] at h
    split_ifs at h
    · obtain ⟨rfl, -⟩ := List.cons.inj (Option.some.inj h)
      omega
    · have := ih h (by omega)
      omega

lemma lmapLoop_inj {n b b' : ℕ} {lp lp' r : List ℕ} (hn : n ≤ NI) (h : lmapLoop n b lp = some r)
    (h' : lmapLoop n b' lp' = some r) : b = b' ∧ lp = lp' := by
  induction n generalizing b b' lp lp' with
  | zero => simp [lmapLoop] at h
  | succ n ih =>
    have hdiv := Nat.div_add_mod b NBN
    have hdiv' := Nat.div_add_mod b' NBN
    rw [lmapLoop] at h h'
    split_ifs at h h' with h0 h0' h0'
    · -- both end here
      rw [← h'] at h
      obtain ⟨-, h1⟩ := List.cons.inj (Option.some.inj h)
      obtain ⟨h2, h3⟩ := List.cons.inj h1
      rw [h0] at hdiv
      rw [h0'] at hdiv'
      exact ⟨by omega, h3⟩
    · -- only one ends here: the addresses differ
      rw [← h] at h'
      have := lmapLoop_root h' (by omega)
      omega
    · rw [← h'] at h
      have := lmapLoop_root h (by omega)
      omega
    · obtain ⟨h1, h2⟩ := ih (by omega) h h'
      obtain ⟨h3, h4⟩ := List.cons.inj h2
      have hq : b / NBN = b' / NBN :=
        Nat.pred_inj (Nat.pos_of_ne_zero h0) (Nat.pos_of_ne_zero h0') h1
      rw [hq] at hdiv
      exact ⟨by omega, h4⟩

/-- Different blocks of a file have different paths. -/
lemma lmap_inj {b b' : ℕ} {r : List ℕ} (h : lmap b = some r) (h' : lmap b' = some r) : b = b' := by
  obtain ⟨l, t, rfl, -, -, -, hl⟩ := lmap_some h
  obtain ⟨l', t', he, -, -, -, hl'⟩ := lmap_some h'
  obtain ⟨rfl, rfl⟩ := List.cons.inj he
  unfold lmap at h h'
  by_cases hb : b < ND
  · rw [if_pos hb] at h
    rw [if_pos (hl'.mp (hl.mpr hb))] at h'
    rw [← h'] at h
    exact (List.cons.inj (Option.some.inj h)).1
  · have hb' : ¬ b' < ND := fun hlt => hb (hl.mp (hl'.mpr hlt))
    rw [if_neg hb] at h
    rw [if_neg hb'] at h'
    have := (lmapLoop_inj le_rfl h h').1
    omega

end Coherent.FileMap
