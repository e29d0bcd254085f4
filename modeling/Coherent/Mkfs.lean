import Coherent.FileMap
import Coherent.InodeCodec

/-!
How `mkfs` lays out a file: `xblkuse`, `xymerge` and `xindir`.

`xblkuse` peels off the zones of the block map from the outside in, and counts. The blocks are
one array, indirect ones first. The indirect blocks of a level follow each other, and the first
of them is the one that the inode points to.
-/

namespace Coherent.Mkfs

open Coherent.Can Coherent.Super Coherent.FileMap Coherent.InodeCodec

/-- The counters of a `ynode` and the variable `nb` of `xblkuse`. -/
structure Use where
  nb : ℕ
  y_ndb : ℕ
  y_nib : ℕ
  y_niib : ℕ
  y_niiib : ℕ
  /-- all assertions so far were true -/
  asserted : Bool
  deriving DecidableEq, Repr

def Use.assert (s : Use) (p : Prop) [Decidable p] : Use :=
  { s with asserted := s.asserted && decide p }

/-- The blocks behind the double indirect ones. -/
def triple (s : Use) : Use :=
  let nb := s.nb - (ND + NBN + NBN * NBN)
  let s := s.assert (nb > 0 ∧ nb < NBN * NBN * NBN)
  let nib := (nb + (NBN - 1)) / NBN
  let niib := (nib + (NBN - 1)) / NBN
  let s := s.assert ((niib + NBN - 1) / NBN = 1)
  { s with
    y_ndb := s.y_ndb + nb
    y_nib := s.y_nib + nib
    y_niib := s.y_niib + niib
    y_niiib := s.y_niiib + 1
    nb := ND + NBN + NBN * NBN }

/-- The blocks behind the single indirect ones. -/
def double (s : Use) : Use :=
  let nb := s.nb - (ND + NBN)
  let s := s.assert (nb > 0 ∧ nb < NBN * NBN)
  let nib := (nb + (NBN - 1)) / NBN
  let s := s.assert ((nib + NBN - 1) / NBN = 1)
  { s with
    y_ndb := s.y_ndb + nb
    y_nib := s.y_nib + nib
    y_niib := s.y_niib + 1
    nb := ND + NBN }

/-- The blocks behind the direct ones. -/
def single (s : Use) : Use :=
  let nb := s.nb - ND
  let s := s.assert (nb > 0 ∧ nb < NBN)
  let s := s.assert ((nb + NBN - 1) / NBN = 1)
  { s with
    y_ndb := s.y_ndb + nb
    y_nib := s.y_nib + 1
    nb := ND }

/-- How many blocks of each kind a file of `x_size` bytes takes. -/
def xblkuse (x_size : ℕ) : Use :=
  let s : Use := ⟨(x_size + BSIZE - 1) / BSIZE, 0, 0, 0, 0, true⟩
  let s :=
    if s.nb > ND then
      let s :=
        if s.nb > ND + NBN then
          let s := if s.nb > ND + NBN + NBN * NBN then triple s else s
          double s
        else s
      single s
    else s
  let s := s.assert (s.nb ≤ ND)
  { s with y_ndb := s.y_ndb + s.nb }

def Use.y_ni (s : Use) : ℕ := s.y_nib + s.y_niib + s.y_niiib
def Use.y_nb (s : Use) : ℕ := s.y_ndb + s.y_ni

/-- The blocks of a file: the array behind a `ynode`, indirect blocks first. -/
structure Ynode where
  use : Use
  y_b : ℕ → ℤ

def Ynode.y_iiib (yp : Ynode) : ℕ → ℤ := yp.y_b
def Ynode.y_iib (yp : Ynode) : ℕ → ℤ := fun k => yp.y_iiib (yp.use.y_niiib + k)
def Ynode.y_ib (yp : Ynode) : ℕ → ℤ := fun k => yp.y_iib (yp.use.y_niib + k)
def Ynode.y_db (yp : Ynode) : ℕ → ℤ := fun k => yp.y_ib (yp.use.y_nib + k)

/-- The bytes of an array of longs. -/
def longs (f : ℕ → ℤ) : Block := fun i => lbyte (ulong (f (i / 4))) (i % 4)

/-- `di_addr` in a disk inode. -/
def DI_ADDR : ℕ := 12

/-- Put the addresses into the disk inode. -/
def xymerge (yp : Ynode) (dip : Block) : Block :=
  let l3p := DI_ADDR
  let dip := ltol3 dip l3p (longs yp.y_db) 0 ND
  let l3p := l3p + 3 * ND
  let dip := if yp.use.y_nib ≠ 0 then ltol3 dip l3p (longs yp.y_ib) 0 1 else dip
  let l3p := l3p + 3
  let dip := if yp.use.y_niib ≠ 0 then ltol3 dip l3p (longs yp.y_iib) 0 1 else dip
  let l3p := l3p + 3
  if yp.use.y_niiib ≠ 0 then ltol3 dip l3p (longs yp.y_iiib) 0 1 else dip

/-- The file system that is being made, and the one buffer of `bcache`. -/
structure Image where
  disk : ℤ → Block
  bcacheb : ℤ
  buffer : Block

def bcache (m : Image) (b : ℤ) : Image :=
  if m.bcacheb ≠ b then
    { disk := if m.bcacheb ≥ 0 then Function.update m.disk m.bcacheb m.buffer else m.disk
      bcacheb := b
      buffer := zeroBlock }
  else m

/-- Write `nd` addresses into block `b`. -/
def xindblk (m : Image) (b : ℤ) (bp : ℕ → ℤ) (nd : ℕ) : Image :=
  let m := bcache m b
  let buffer := putls m.buffer 0 nd fun k => ulong (bp k)
  { m with
    buffer := (List.range nd).foldl (fun p k => putl p (4 * k) (canl (getl p (4 * k)))) buffer }

/-- Spread `nb` addresses over blocks. -/
def xindblks (m : Image) (dp sp : ℕ → ℤ) (nb : ℕ) : Image :=
  if _h : nb > 0 then
    let n := if nb ≥ NBN then NBN else nb
    xindblks (xindblk m (dp 0) sp n) (fun k => dp (k + 1)) (fun k => sp (n + k)) (nb - n)
  else m
termination_by nb
decreasing_by
  have hn : 0 < if nb ≥ NBN then NBN else nb := by
    split_ifs
    · exact Nat.zero_lt_succ 127
    · exact _h
  exact Nat.sub_lt _h hn

/-- Write all indirect blocks. -/
def xindir (m : Image) (yp : Ynode) : Image :=
  let m := if yp.use.y_niiib ≠ 0 then
    xindblks m yp.y_iiib (fun k => yp.y_iib (1 + k)) (yp.use.y_niib - 1) else m
  let m := if yp.use.y_niib ≠ 0 then
    xindblks m yp.y_iib (fun k => yp.y_ib (1 + k)) (yp.use.y_nib - 1) else m
  if yp.use.y_nib ≠ 0 then
    xindblks m yp.y_ib (fun k => yp.y_db (ND + k)) (yp.use.y_ndb - ND) else m

/-! ### The counts -/

/-- How many blocks a file can have. -/
def MAXB : ℕ := ND + NBN + NBN * NBN + NBN * NBN * NBN

/-- The blocks of a file of so many bytes. -/
def blocks (x_size : ℕ) : ℕ := (x_size + BSIZE - 1) / BSIZE

/-- **The counts** in closed form, and what the assertions come to. -/
lemma xblkuse_spec {x_size : ℕ} (h : blocks x_size ≤ MAXB) :
    (xblkuse x_size).y_ndb = blocks x_size ∧
      (xblkuse x_size).y_nib = (blocks x_size - ND + (NBN - 1)) / NBN ∧
      (xblkuse x_size).y_niib = (blocks x_size - (ND + NBN) + (NBN * NBN - 1)) / (NBN * NBN) ∧
      (xblkuse x_size).y_niiib =
        (blocks x_size - (ND + NBN + NBN * NBN) + (NBN * NBN * NBN - 1)) / (NBN * NBN * NBN) ∧
      ((xblkuse x_size).asserted = true ↔ blocks x_size ≤ ND + NBN - 1) := by
  have hb : (x_size + BSIZE - 1) / BSIZE = blocks x_size := rfl
  unfold xblkuse
  rw [hb]
  generalize blocks x_size = n at h
  unfold MAXB at h
  simp only [ND, NBN] at h
  by_cases h3 : n > ND + NBN + NBN * NBN
  · have h2 : n > ND + NBN := by
      simp only [ND, NBN] at h3 ⊢
      omega
    have h1 : n > ND := by omega
    simp only [if_pos h1, if_pos h2, if_pos h3, triple, double, single, Use.assert,
      Bool.and_eq_true, decide_eq_true_eq, true_and]
    simp only [ND, NBN] at h3 ⊢
    refine ⟨by omega, by omega, by omega, by omega, by omega⟩
  by_cases h2 : n > ND + NBN
  · have h1 : n > ND := by omega
    simp only [if_pos h1, if_pos h2, if_neg h3, double, single, Use.assert, Bool.and_eq_true,
      decide_eq_true_eq, true_and]
    simp only [ND, NBN] at h2 h3 ⊢
    refine ⟨by omega, by omega, by omega, by omega, by omega⟩
  by_cases h1 : n > ND
  · simp only [if_pos h1, if_neg h2, single, Use.assert, Bool.and_eq_true, decide_eq_true_eq,
      true_and]
    simp only [ND, NBN] at h1 h2 h3 ⊢
    refine ⟨by omega, by omega, by omega, by omega, by omega⟩
  · simp only [if_neg h1, Use.assert, Bool.and_eq_true, decide_eq_true_eq, true_and]
    simp only [ND, NBN] at h1 h2 h3 ⊢
    refine ⟨by omega, by omega, by omega, by omega, by omega⟩

/-! ### What the block map needs -/

lemma lmap_direct {b : ℕ} (h : b < ND) : lmap b = some [b] := if_pos h

lemma lmap_single {q : ℕ} (h : q < NBN) : lmap (ND + q) = some [ND, q] := by
  have hq : (ND + q - ND) = q := by omega
  rw [lmap, if_neg (by omega), hq, NI, lmapLoop, if_pos (Nat.div_eq_of_lt h), Nat.mod_eq_of_lt h]
  rfl

lemma lmap_double {q : ℕ} (h : q < NBN * NBN) :
    lmap (ND + NBN + q) = some [ND + 1, q / NBN, q % NBN] := by
  have hq : (ND + NBN + q - ND) = q + NBN := by omega
  have hd : (q + NBN) / NBN = q / NBN + 1 := Nat.add_div_right q (by decide)
  have hm : (q + NBN) % NBN = q % NBN := Nat.add_mod_right q NBN
  have hlt : q / NBN < NBN := Nat.div_lt_of_lt_mul h
  rw [lmap, if_neg (by omega), hq, NI, lmapLoop, hd, hm, if_neg (Nat.succ_ne_zero _),
    lmapLoop,
    Nat.add_sub_cancel, if_pos (Nat.div_eq_of_lt hlt), Nat.mod_eq_of_lt hlt]
  rfl

lemma lmap_triple {q : ℕ} (h : q < NBN * NBN * NBN) :
    lmap (ND + NBN + NBN * NBN + q) =
      some [ND + 2, q / NBN / NBN, q / NBN % NBN, q % NBN] := by
  have hq : (ND + NBN + NBN * NBN + q - ND) = q + NBN * NBN + NBN := by omega
  have hd : (q + NBN * NBN + NBN) / NBN = q / NBN + NBN + 1 := by
    rw [Nat.add_div_right _ (by decide), Nat.add_mul_div_right _ _ (by decide)]
  have hm : (q + NBN * NBN + NBN) % NBN = q % NBN := by
    rw [Nat.add_mod_right, Nat.add_mul_mod_self_right]
  have hd2 : (q / NBN + NBN) / NBN = q / NBN / NBN + 1 := Nat.add_div_right _ (by decide)
  have hm2 : (q / NBN + NBN) % NBN = q / NBN % NBN := Nat.add_mod_right ..
  have hlt : q / NBN / NBN < NBN := by
    rw [Nat.div_div_eq_div_mul]
    exact Nat.div_lt_of_lt_mul h
  rw [lmap, if_neg (by omega), hq, NI, lmapLoop, hd, hm, if_neg (Nat.succ_ne_zero _),
    lmapLoop,
    Nat.add_sub_cancel, hd2, hm2, if_neg (Nat.succ_ne_zero _), lmapLoop, Nat.add_sub_cancel,
    if_pos (Nat.div_eq_of_lt hlt), Nat.mod_eq_of_lt hlt]
  rfl

/-- The way to a block of a file: an address of the inode and entries of indirect blocks. -/
def path (b : ℕ) : List ℕ := (lmap b).getD []

/-- The zone of a block, with its number there. -/
lemma path_cases {b : ℕ} (h : b < MAXB) :
    b < ND ∧ path b = [b] ∨
      (∃ q < NBN, b = ND + q ∧ path b = [ND, q]) ∨
      (∃ q < NBN * NBN, b = ND + NBN + q ∧ path b = [ND + 1, q / NBN, q % NBN]) ∨
      ∃ q < NBN * NBN * NBN, b = ND + NBN + NBN * NBN + q ∧
        path b = [ND + 2, q / NBN / NBN, q / NBN % NBN, q % NBN] := by
  unfold MAXB at h
  by_cases h0 : b < ND
  · exact Or.inl ⟨h0, by rw [path, lmap_direct h0]; rfl⟩
  by_cases h1 : b < ND + NBN
  · obtain ⟨q, rfl⟩ := Nat.exists_eq_add_of_le (show ND ≤ b by omega)
    have hq : q < NBN := by omega
    exact Or.inr (Or.inl ⟨q, hq, rfl, by rw [path, lmap_single hq]; rfl⟩)
  by_cases h2 : b < ND + NBN + NBN * NBN
  · obtain ⟨q, rfl⟩ := Nat.exists_eq_add_of_le (show ND + NBN ≤ b by omega)
    have hq : q < NBN * NBN := by omega
    exact Or.inr (Or.inr (Or.inl ⟨q, hq, rfl, by rw [path, lmap_double hq]; rfl⟩))
  · obtain ⟨q, rfl⟩ := Nat.exists_eq_add_of_le (show ND + NBN + NBN * NBN ≤ b by omega)
    have hq : q < NBN * NBN * NBN := by omega
    exact Or.inr (Or.inr (Or.inr ⟨q, hq, rfl, by rw [path, lmap_triple hq]; rfl⟩))

/-- The indirect blocks of level `k` that the first `n` blocks of a file need, by the ways that
lead to them. -/
def needs (n k : ℕ) : Finset (List ℕ) :=
  ((Finset.range n).filter fun b => k < (path b).length).image
    fun b => (path b).take ((path b).length - k)

/-- How many values a function has that is constant on stretches of `w` numbers. -/
lemma card_stretches {β : Type*} [DecidableEq β] {f : ℕ → β} {z w n : ℕ} (hw : 0 < w)
    (hf : ∀ a b, z ≤ a → a < n → z ≤ b → b < n → (f a = f b ↔ (a - z) / w = (b - z) / w)) :
    (((Finset.range n).filter fun b => z ≤ b).image f).card = (n - z + (w - 1)) / w := by
  have hlt : ∀ j, j < (n - z + (w - 1)) / w ↔ z + j * w < n := by
    intro j
    rw [Nat.lt_iff_add_one_le, Nat.le_div_iff_mul_le hw, Nat.succ_mul]
    omega
  have himage : ((Finset.range n).filter fun b => z ≤ b).image f =
      (Finset.range ((n - z + (w - 1)) / w)).image fun j => f (z + j * w) := by
    ext x
    simp only [Finset.mem_image, Finset.mem_filter, Finset.mem_range]
    constructor
    · rintro ⟨b, ⟨hb, hz⟩, rfl⟩
      have hle : (b - z) / w * w ≤ b - z := Nat.div_mul_le_self _ _
      have hlt' : z + (b - z) / w * w < n := by omega
      refine ⟨(b - z) / w, (hlt _).mpr hlt', (hf _ _ (by omega) hlt' hz hb).mpr ?_⟩
      rw [Nat.add_sub_cancel_left, Nat.mul_div_cancel _ hw]
    · rintro ⟨j, hj, rfl⟩
      exact ⟨_, ⟨(hlt j).mp hj, by omega⟩, rfl⟩
  rw [himage, Finset.card_image_of_injOn, Finset.card_range]
  intro i hi j hj he
  rw [Finset.coe_range, Set.mem_Iio, hlt] at hi hj
  have := (hf _ _ (by omega) hi (by omega) hj).mp he
  rwa [Nat.add_sub_cancel_left, Nat.add_sub_cancel_left, Nat.mul_div_cancel _ hw,
    Nat.mul_div_cancel _ hw] at this

/-- The indirect blocks of one level, if a stretch of `w` blocks of the file hangs on each and the
first of these is `z`. -/
lemma needs_card {n k z w : ℕ} (hn : n ≤ MAXB) (hw : 0 < w)
    (hz : ∀ b < MAXB, k < (path b).length ↔ z ≤ b)
    (hf : ∀ a < MAXB, ∀ b < MAXB, z ≤ a → z ≤ b →
      ((path a).take ((path a).length - k) = (path b).take ((path b).length - k) ↔
        (a - z) / w = (b - z) / w)) :
    (needs n k).card = (n - z + (w - 1)) / w := by
  have hfilter : ((Finset.range n).filter fun b => k < (path b).length) =
      (Finset.range n).filter fun b => z ≤ b := by
    refine Finset.filter_congr fun b hb => hz b ?_
    exact (Finset.mem_range.mp hb).trans_le hn
  rw [needs, hfilter]
  exact card_stretches hw fun a b ha han hb hbn => hf a (by omega) b (by omega) ha hb

lemma needs_one {n : ℕ} (hn : n ≤ MAXB) :
    (needs n 1).card = (n - ND + (NBN - 1)) / NBN := by
  refine needs_card hn (by decide) (fun b hb => ?_) fun a ha b hb hza hzb => ?_
  · rcases path_cases hb with ⟨hq, hp⟩ | ⟨q, hq, rfl, hp⟩ | ⟨q, hq, rfl, hp⟩ | ⟨q, hq, rfl, hp⟩
    all_goals
      simp only [hp, List.length_cons, List.length_nil]
      omega
  · rcases path_cases ha with ⟨hq, hp⟩ | ⟨q, hq, rfl, hp⟩ | ⟨q, hq, rfl, hp⟩ | ⟨q, hq, rfl, hp⟩ <;>
    rcases path_cases hb with ⟨hr, hp'⟩ | ⟨r, hr, rfl, hp'⟩ | ⟨r, hr, rfl, hp'⟩ | ⟨r, hr, rfl, hp'⟩
    all_goals
      simp only [ND, NBN] at *
      simp [hp, hp']
      omega

lemma needs_two {n : ℕ} (hn : n ≤ MAXB) :
    (needs n 2).card = (n - (ND + NBN) + (NBN * NBN - 1)) / (NBN * NBN) := by
  refine needs_card hn (by decide) (fun b hb => ?_) fun a ha b hb hza hzb => ?_
  · rcases path_cases hb with ⟨hq, hp⟩ | ⟨q, hq, rfl, hp⟩ | ⟨q, hq, rfl, hp⟩ | ⟨q, hq, rfl, hp⟩
    all_goals
      simp only [hp, List.length_cons, List.length_nil]
      omega
  · rcases path_cases ha with ⟨hq, hp⟩ | ⟨q, hq, rfl, hp⟩ | ⟨q, hq, rfl, hp⟩ | ⟨q, hq, rfl, hp⟩ <;>
    rcases path_cases hb with ⟨hr, hp'⟩ | ⟨r, hr, rfl, hp'⟩ | ⟨r, hr, rfl, hp'⟩ | ⟨r, hr, rfl, hp'⟩
    all_goals
      simp only [ND, NBN] at *
      simp [hp, hp']
      omega

lemma needs_three {n : ℕ} (hn : n ≤ MAXB) :
    (needs n 3).card =
      (n - (ND + NBN + NBN * NBN) + (NBN * NBN * NBN - 1)) / (NBN * NBN * NBN) := by
  refine needs_card hn (by decide) (fun b hb => ?_) fun a ha b hb hza hzb => ?_
  · rcases path_cases hb with ⟨hq, hp⟩ | ⟨q, hq, rfl, hp⟩ | ⟨q, hq, rfl, hp⟩ | ⟨q, hq, rfl, hp⟩
    all_goals
      simp only [hp, List.length_cons, List.length_nil]
      omega
  · rcases path_cases ha with ⟨hq, hp⟩ | ⟨q, hq, rfl, hp⟩ | ⟨q, hq, rfl, hp⟩ | ⟨q, hq, rfl, hp⟩ <;>
    rcases path_cases hb with ⟨hr, hp'⟩ | ⟨r, hr, rfl, hp'⟩ | ⟨r, hr, rfl, hp'⟩ | ⟨r, hr, rfl, hp'⟩
    all_goals
      simp only [ND, NBN] at *
      simp [hp, hp']
      omega

/-! ### Indirect blocks -/

/-- What a block holds, on the disk or still in the buffer. -/
def Image.content (m : Image) (a : ℤ) : Block := if a = m.bcacheb then m.buffer else m.disk a

variable {m : Image} {a b : ℤ} {dp sp : ℕ → ℤ} {nb nd k e : ℕ} {p : Block}

lemma bcacheb_bcache (m : Image) (b : ℤ) : (bcache m b).bcacheb = b := by
  by_cases h : m.bcacheb ≠ b
  · rw [bcache, if_pos h]
  · rw [bcache, if_neg h]
    exact not_not.mp h

lemma content_bcache (ha : 0 ≤ a) (hab : a ≠ b) : (bcache m b).content a = m.content a := by
  unfold bcache Image.content
  by_cases hb : m.bcacheb ≠ b
  · rw [if_pos hb]
    dsimp only
    rw [if_neg hab]
    by_cases h : a = m.bcacheb
    · subst h
      rw [if_pos ha, if_pos rfl, Function.update_self]
    · rw [if_neg h]
      split_ifs
      · exact Function.update_of_ne h _ _
      · rfl
  · rw [if_neg hb]

/-- After the last block nothing is left in the buffer. -/
lemma disk_bcache (ha : 0 ≤ a) (hb : b < 0) : (bcache m b).disk a = m.content a := by
  have hc := content_bcache (m := m) ha (show a ≠ b by omega)
  rw [← hc, Image.content, bcacheb_bcache, if_neg (by omega)]

/-- Making the first addresses canonical. -/
lemma getl_canonical (n k : ℕ) :
    getl ((List.range n).foldl (fun p k => putl p (4 * k) (canl (getl p (4 * k)))) p) (4 * k) =
      if k < n then canl (getl p (4 * k)) else getl p (4 * k) := by
  induction n with
  | zero => rfl
  | succ n ih =>
    rw [List.range_succ, List.foldl_append, List.foldl_cons, List.foldl_nil]
    by_cases hk : k = n
    · subst hk
      rw [getl_putl_self, ih, if_neg (lt_irrefl k), if_pos (Nat.lt_succ_self k),
        Nat.mod_eq_of_lt (canl_lt _)]
    · rw [putl, getl, getw_putls (by omega), getw_putls (by omega), ← getl, ih]
      by_cases hkn : k < n
      · rw [if_pos hkn, if_pos (by omega)]
      · rw [if_neg hkn, if_neg (by omega)]

/-- A number that fits into a long. -/
def Fits (v : ℤ) : Prop := -2147483648 ≤ v ∧ v < 2147483648

lemma dentry_xindblk (hb : m.bcacheb ≠ b) (hsp : ∀ k < nd, Fits (sp k)) :
    dentry ((xindblk m b sp nd).content b) e = if e < nd then sp e else 0 := by
  have hbuf : (bcache m b).buffer = zeroBlock := by rw [bcache, if_pos hb]
  have hbc : (bcache m b).bcacheb = b := bcacheb_bcache m b
  have hcon : (xindblk m b sp nd).content b = (xindblk m b sp nd).buffer := if_pos hbc.symm
  rw [hcon, dentry, xindblk]
  dsimp only
  rw [getl_canonical, hbuf]
  by_cases he : e < nd
  · have hg := getl_putls (p := zeroBlock) (o := 0) (f := fun k => ulong (sp k)) he
    rw [Nat.zero_add] at hg
    rw [if_pos he, if_pos he, hg, canl_canl, Nat.mod_mod, Nat.mod_eq_of_lt (ulong_lt _),
      long_ulong (hsp e he).1 (hsp e he).2]
  · rw [if_neg he, if_neg he, getl, getw_putls (by omega), getw_putls (by omega)]
    exact dentry_zeroBlock e

lemma content_xindblk (ha : 0 ≤ a) (hab : a ≠ b) :
    (xindblk m b sp nd).content a = m.content a := by
  have h1 : a ≠ (bcache m b).bcacheb := by rwa [bcacheb_bcache]
  have h2 : a ≠ (xindblk m b sp nd).bcacheb := h1
  have hdisk : (xindblk m b sp nd).disk a = (bcache m b).disk a := rfl
  rw [Image.content, if_neg h2, hdisk, ← content_bcache ha hab, Image.content, if_neg h1]

/-- **Spreading addresses over blocks**: each block gets the next `NBN` of them, and zeros behind
the last. -/
lemma xindblks_spec (hinj : ∀ i j, i * NBN < nb → j * NBN < nb → dp i = dp j → i = j)
    (hdp : ∀ j, j * NBN < nb → 0 ≤ dp j ∧ dp j ≠ m.bcacheb) (hsp : ∀ k < nb, Fits (sp k)) :
    (∀ j e, j * NBN < nb → e < NBN → dentry ((xindblks m dp sp nb).content (dp j)) e =
        if j * NBN + e < nb then sp (j * NBN + e) else 0) ∧
      (∀ a, 0 ≤ a → (∀ j, j * NBN < nb → a ≠ dp j) →
        (xindblks m dp sp nb).content a = m.content a) ∧
      ((xindblks m dp sp nb).bcacheb = m.bcacheb ∨
        ∃ j, j * NBN < nb ∧ (xindblks m dp sp nb).bcacheb = dp j) := by
  induction nb using Nat.strong_induction_on generalizing m dp sp with
  | _ nb ih =>
  by_cases h : nb > 0
  · -- the first block, and then the others
    set n := if nb ≥ NBN then NBN else nb with hn
    have hn0 : 0 < n ∧ n ≤ nb ∧ n ≤ NBN ∧ (n < nb → n = NBN) := by
      have h0 : 0 < NBN := by decide
      rw [hn]
      split_ifs <;> omega
    obtain ⟨hpos, hle, hlen, hfull⟩ := hn0
    have hx : xindblks m dp sp nb = xindblks (xindblk m (dp 0) sp n) (fun k => dp (k + 1))
        (fun k => sp (n + k)) (nb - n) := by
      rw [xindblks, dif_pos h]
    have hbc : (xindblk m (dp 0) sp n).bcacheb = dp 0 := bcacheb_bcache m (dp 0)
    have hup : ∀ j, j * NBN < nb - n → (j + 1) * NBN < nb := by
      intro j hj
      have := hfull (by omega)
      rw [Nat.succ_mul]
      omega
    have hdp0 := hdp 0 (by omega)
    have hinj' : ∀ i j, i * NBN < nb - n → j * NBN < nb - n → dp (i + 1) = dp (j + 1) → i = j := by
      intro i j hi hj he
      have := hinj _ _ (hup i hi) (hup j hj) he
      omega
    have hdp' : ∀ j, j * NBN < nb - n →
        0 ≤ dp (j + 1) ∧ dp (j + 1) ≠ (xindblk m (dp 0) sp n).bcacheb := by
      intro j hj
      refine ⟨(hdp _ (hup j hj)).1, fun he => ?_⟩
      rw [hbc] at he
      have := hinj _ _ (hup j hj) (by omega) he
      omega
    obtain ⟨hE, hC, hB⟩ := @ih (nb - n) (by omega) (xindblk m (dp 0) sp n) (fun k => dp (k + 1))
      (fun k => sp (n + k)) hinj' hdp' fun k hk => hsp (n + k) (by omega)
    rw [hx]
    refine ⟨fun j e hj he => ?_, fun a ha hne => ?_, ?_⟩
    · cases j with
      | zero =>
        rw [hC (dp 0) hdp0.1 fun j hj he => by
          have := hinj _ _ (by omega) (hup j hj) he
          omega]
        rw [dentry_xindblk hdp0.2.symm fun k hk => hsp k (by omega), Nat.zero_mul, Nat.zero_add]
        by_cases hen : e < n
        · rw [if_pos hen, if_pos (by omega)]
        · rw [if_neg hen, if_neg (by omega)]
      | succ j =>
        rw [Nat.succ_mul] at hj
        have hn128 : n = NBN := hfull (by omega)
        rw [hE j e (by omega) he, hn128]
        have hidx : NBN + (j * NBN + e) = (j + 1) * NBN + e := by
          rw [Nat.succ_mul]
          omega
        rw [hidx]
        by_cases hen : (j + 1) * NBN + e < nb
        · rw [if_pos hen, if_pos (by omega)]
        · rw [if_neg hen, if_neg (by omega)]
    · rw [hC a ha fun j hj => hne (j + 1) (hup j hj)]
      exact content_xindblk ha (hne 0 (by omega))
    · rcases hB with hB | ⟨j, hj, hB⟩
      · exact Or.inr ⟨0, by omega, hB.trans hbc⟩
      · exact Or.inr ⟨j + 1, hup j hj, hB⟩
  · have hx : xindblks m dp sp nb = m := by rw [xindblks, dif_neg h]
    rw [hx]
    exact ⟨fun j e hj => absurd hj (by omega), fun a _ _ => rfl, Or.inl rfl⟩

/-! ### The levels -/

/-- The first `n` addresses of an array, and zeros behind them. -/
def look (n : ℕ) (f : ℕ → ℤ) (i : ℕ) : ℤ := if i < n then f i else 0

/-- The `n` blocks `f` hold the `n'` addresses `f'` from number `off` on. -/
structure Level (disk : ℤ → Block) (n : ℕ) (f : ℕ → ℤ) (n' : ℕ) (f' : ℕ → ℤ) (off : ℕ) :
    Prop where
  entry : ∀ j < n, ∀ e < NBN, dentry (disk (f j)) e = look n' f' (off + j * NBN + e)
  all : n' ≤ off + n * NBN

variable {n n' off : ℕ} {f f' : ℕ → ℤ} {yp : Ynode}

lemma Level.congr {disk disk' : ℤ → Block} (h : Level disk n f n' f' off)
    (hd : ∀ j < n, disk' (f j) = disk (f j)) : Level disk' n f n' f' off :=
  ⟨fun j hj e he => by rw [hd j hj, h.entry j hj e he], h.all⟩

lemma xindblks_level (hn : ∀ j, j < n ↔ j * NBN < n' - off)
    (hinj : ∀ i < n, ∀ j < n, f i = f j → i = j) (hf : ∀ j < n, 0 ≤ f j ∧ f j ≠ m.bcacheb)
    (hf' : ∀ k < n', Fits (f' k)) :
    Level (xindblks m f (fun k => f' (off + k)) (n' - off)).content n f n' f' off ∧
      (∀ a, 0 ≤ a → (∀ j < n, a ≠ f j) →
        (xindblks m f (fun k => f' (off + k)) (n' - off)).content a = m.content a) ∧
      ((xindblks m f (fun k => f' (off + k)) (n' - off)).bcacheb = m.bcacheb ∨
        ∃ j < n, (xindblks m f (fun k => f' (off + k)) (n' - off)).bcacheb = f j) := by
  have hfit : ∀ k < n' - off, Fits (f' (off + k)) := fun k hk => hf' _ (by omega)
  have hinj' : ∀ i j, i * NBN < n' - off → j * NBN < n' - off → f i = f j → i = j :=
    fun i j hi hj => hinj i ((hn i).mpr hi) j ((hn j).mpr hj)
  obtain ⟨hE, hC, hB⟩ := xindblks_spec hinj' (fun j hj => hf j ((hn j).mpr hj)) hfit
  refine ⟨⟨fun j hj e he => ?_, ?_⟩, fun a ha hne => ?_, ?_⟩
  · rw [hE j e ((hn j).mp hj) he, look]
    by_cases hlt : j * NBN + e < n' - off
    · rw [if_pos hlt, if_pos (by omega), Nat.add_assoc]
    · rw [if_neg hlt, if_neg (by omega)]
  · have := mt (hn n).mpr (lt_irrefl n)
    omega
  · exact hC a ha fun j hj => hne j ((hn j).mpr hj)
  · rcases hB with hB | ⟨j, hj, hB⟩
    · exact Or.inl hB
    · exact Or.inr ⟨j, (hn j).mpr hj, hB⟩

/-- Each level has just the blocks that hold the addresses of the next one. -/
structure Counted (u : Use) : Prop where
  ib : ∀ j, j < u.y_nib ↔ j * NBN < u.y_ndb - ND
  iib : ∀ j, j < u.y_niib ↔ j * NBN < u.y_nib - 1
  iiib : ∀ j, j < u.y_niiib ↔ j * NBN < u.y_niib - 1

lemma xblkuse_counted {x_size : ℕ} (h : blocks x_size ≤ MAXB) : Counted (xblkuse x_size) := by
  obtain ⟨h0, h1, h2, h3, -⟩ := xblkuse_spec h
  simp only [MAXB, ND, NBN] at h h1 h2 h3
  refine ⟨fun j => ?_, fun j => ?_, fun j => ?_⟩
  · rw [h0, h1]
    simp only [ND, NBN]
    omega
  · rw [h1, h2]
    simp only [NBN]
    omega
  · rw [h2, h3]
    simp only [NBN]
    omega

/-- What `xexpand` leaves behind: different blocks, none of them in the buffer, with addresses of
three bytes, and zeros behind them where the array is longer. -/
structure Allocated (yp : Ynode) (m : Image) : Prop where
  inj : ∀ i < yp.use.y_nb, ∀ j < yp.use.y_nb, yp.y_b i = yp.y_b j → i = j
  pos : ∀ i < yp.use.y_nb, 0 < yp.y_b i
  lt : ∀ i < yp.use.y_nb, yp.y_b i < 2 ^ 24
  clear : ∀ i < NADDR, yp.use.y_nb ≤ i → yp.y_b i = 0
  fresh : ∀ i < yp.use.y_nb, yp.y_b i ≠ m.bcacheb

lemma xindblks_zero : xindblks m dp sp 0 = m := by
  rw [xindblks, dif_neg (lt_irrefl 0)]

lemma xindir_eq (hc : Counted yp.use) :
    xindir m yp = xindblks (xindblks
        (xindblks m yp.y_iiib (fun k => yp.y_iib (1 + k)) (yp.use.y_niib - 1))
        yp.y_iib (fun k => yp.y_ib (1 + k)) (yp.use.y_nib - 1))
      yp.y_ib (fun k => yp.y_db (ND + k)) (yp.use.y_ndb - ND) := by
  have hib := hc.ib 0
  have hiib := hc.iib 0
  have hiiib := hc.iiib 0
  rw [Nat.zero_mul] at hib hiib hiiib
  have hskip : ∀ {c nb : ℕ} {m : Image} {dp sp : ℕ → ℤ}, (0 < c ↔ 0 < nb) →
      (if c ≠ 0 then xindblks m dp sp nb else m) = xindblks m dp sp nb := by
    intro c nb m dp sp h
    by_cases h0 : c ≠ 0
    · exact if_pos h0
    · have hnb : nb = 0 := by omega
      rw [if_neg h0, hnb, xindblks_zero]
  unfold xindir
  dsimp only
  rw [hskip hiiib, hskip hiib, hskip hib]

/-- **`xindir`** puts the addresses of each level into the blocks of the one above. -/
lemma xindir_levels (hc : Counted yp.use) (ha : Allocated yp m) :
    Level (xindir m yp).content yp.use.y_niiib yp.y_iiib yp.use.y_niib yp.y_iib 1 ∧
      Level (xindir m yp).content yp.use.y_niib yp.y_iib yp.use.y_nib yp.y_ib 1 ∧
      Level (xindir m yp).content yp.use.y_nib yp.y_ib yp.use.y_ndb yp.y_db ND := by
  have hnb : yp.use.y_nb = yp.use.y_ndb + (yp.use.y_nib + yp.use.y_niib + yp.use.y_niiib) := rfl
  have hfit : ∀ i < yp.use.y_nb, Fits (yp.y_b i) := by
    intro i hi
    have h0 := ha.pos i hi
    have h1 := ha.lt i hi
    exact ⟨by omega, by omega⟩
  have hpos : ∀ i < yp.use.y_nb, 0 ≤ yp.y_b i := fun i hi => (ha.pos i hi).le
  have hne : ∀ i < yp.use.y_nb, ∀ j < yp.use.y_nb, i ≠ j → yp.y_b i ≠ yp.y_b j :=
    fun i hi j hj hij he => hij (ha.inj i hi j hj he)
  have hfit3 : ∀ k < yp.use.y_niib, Fits (yp.y_iib k) := fun k hk =>
    hfit (yp.use.y_niiib + k) (by omega)
  have hfit2 : ∀ k < yp.use.y_nib, Fits (yp.y_ib k) := fun k hk =>
    hfit (yp.use.y_niiib + (yp.use.y_niib + k)) (by omega)
  have hfit1 : ∀ k < yp.use.y_ndb, Fits (yp.y_db k) := fun k hk =>
    hfit (yp.use.y_niiib + (yp.use.y_niib + (yp.use.y_nib + k))) (by omega)
  rw [xindir_eq hc]
  -- triple indirect blocks
  obtain ⟨hL3, -, hB3⟩ := xindblks_level (m := m) (f := yp.y_iiib) hc.iiib
    (fun i hi j hj he => ha.inj i (by omega) j (by omega) he)
    (fun j hj => ⟨hpos j (by omega), ha.fresh j (by omega)⟩) hfit3
  generalize xindblks m yp.y_iiib _ _ = m₁ at hL3 hB3 ⊢
  -- double indirect blocks
  have hfresh2 : ∀ j < yp.use.y_niib, yp.y_iib j ≠ m₁.bcacheb := by
    intro j hj
    rcases hB3 with hB | ⟨i, hi, hB⟩
    · rw [hB]
      exact ha.fresh (yp.use.y_niiib + j) (by omega)
    · rw [hB]
      exact hne (yp.use.y_niiib + j) (by omega) i (by omega) (by omega)
  obtain ⟨hL2, hC2, hB2⟩ := xindblks_level (m := m₁) (f := yp.y_iib) hc.iib
    (fun i hi j hj he => by
      have := ha.inj (yp.use.y_niiib + i) (by omega) (yp.use.y_niiib + j) (by omega) he
      omega)
    (fun j hj => ⟨hpos (yp.use.y_niiib + j) (by omega), hfresh2 j hj⟩) hfit2
  generalize xindblks m₁ yp.y_iib _ _ = m₂ at hL2 hC2 hB2 ⊢
  -- single indirect blocks
  have hfresh1 : ∀ j < yp.use.y_nib, yp.y_ib j ≠ m₂.bcacheb := by
    intro j hj
    rcases hB2 with hB | ⟨i, hi, hB⟩
    · rw [hB]
      rcases hB3 with hB | ⟨i, hi, hB⟩
      · rw [hB]
        exact ha.fresh (yp.use.y_niiib + (yp.use.y_niib + j)) (by omega)
      · rw [hB]
        exact hne (yp.use.y_niiib + (yp.use.y_niib + j)) (by omega) i (by omega) (by omega)
    · rw [hB]
      exact hne (yp.use.y_niiib + (yp.use.y_niib + j)) (by omega) (yp.use.y_niiib + i) (by omega)
        (by omega)
  obtain ⟨hL1, hC1, -⟩ := xindblks_level (m := m₂) (f := yp.y_ib) hc.ib
    (fun i hi j hj he => by
      have := ha.inj (yp.use.y_niiib + (yp.use.y_niib + i)) (by omega)
        (yp.use.y_niiib + (yp.use.y_niib + j)) (by omega) he
      omega)
    (fun j hj => ⟨hpos (yp.use.y_niiib + (yp.use.y_niib + j)) (by omega), hfresh1 j hj⟩) hfit1
  generalize xindblks m₂ yp.y_ib _ _ = m₃ at hL1 hC1 ⊢
  -- the later levels leave the earlier ones alone
  have hkeep2 : ∀ j < yp.use.y_niib, m₃.content (yp.y_iib j) = m₂.content (yp.y_iib j) :=
    fun j hj => hC1 _ (hpos (yp.use.y_niiib + j) (by omega)) fun i hi =>
      hne (yp.use.y_niiib + j) (by omega) (yp.use.y_niiib + (yp.use.y_niib + i)) (by omega)
        (by omega)
  have hkeep3 : ∀ j < yp.use.y_niiib, m₃.content (yp.y_iiib j) = m₁.content (yp.y_iiib j) := by
    intro j hj
    rw [hC1 (yp.y_iiib j) (hpos j (by omega)) fun i hi =>
      hne j (by omega) (yp.use.y_niiib + (yp.use.y_niib + i)) (by omega) (by omega)]
    exact hC2 (yp.y_iiib j) (hpos j (by omega)) fun i hi =>
      hne j (by omega) (yp.use.y_niiib + i) (by omega) (by omega)
  exact ⟨hL3.congr hkeep3, hL2.congr hkeep2, hL1⟩

/-! ### The addresses in the inode -/

/-- The addresses that the kernel finds in a disk inode. -/
def i_addr (dip : Block) (k : ℕ) : ℤ := long (getl (l3tol zeroBlock 0 dip DI_ADDR NADDR) (4 * k))

lemma getl_longs (g : ℕ → ℤ) (k : ℕ) : getl (longs g) (4 * k) = ulong (g k) := by
  have hput := getl_putls (p := zeroBlock) (o := 0) (f := fun k => ulong (g k)) (Nat.lt_succ_self k)
  rw [Nat.zero_add, Nat.mod_eq_of_lt (ulong_lt _)] at hput
  rw [← hput]
  refine getl_congr fun j hj => ?_
  rw [longs, putls, if_pos (by omega), Nat.sub_zero]

/-- An address of three bytes is read back. -/
lemma long_mod {v : ℤ} (h0 : 0 ≤ v) (h1 : v < 2 ^ 24) : long (ulong v % 2 ^ 24) = v := by
  have hu : ulong v < 2 ^ 24 := by
    rw [ulong, Int.emod_eq_of_lt h0 (by omega)]
    omega
  rw [Nat.mod_eq_of_lt hu, long_ulong (by omega) (by omega)]

lemma i_addr_eq {dip : Block} (hk : k < NADDR) :
    i_addr dip k = long (l3 dip (DI_ADDR + 3 * k)) := by
  have h := getl_l3tol (p := zeroBlock) (o := 0) (q := dip) (a := DI_ADDR) hk
  rw [Nat.zero_add] at h
  rw [i_addr, h]

variable {dip : Block} {g : ℕ → ℤ} {c o : ℕ}

lemma l3_root_of_ne (h : k + 3 ≤ o ∨ o + 3 ≤ k) :
    l3 (if c ≠ 0 then ltol3 p o (longs g) 0 1 else p) k = l3 p k := by
  split_ifs
  · exact l3_congr fun j hj => ltol3_of_ne (by omega)
  · rfl

lemma l3_root :
    l3 (if c ≠ 0 then ltol3 p o (longs g) 0 1 else p) o =
      if c ≠ 0 then ulong (g 0) % 2 ^ 24 else l3 p o := by
  split_ifs
  · have h := l3_ltol3 (p := p) (o := o) (q := longs g) (a := 0) (n := 1) Nat.zero_lt_one
    have hg : getl (longs g) (0 + 4 * 0) = ulong (g 0) := getl_longs g 0
    rw [hg] at h
    exact h
  · rfl

lemma i_addr_xymerge_direct (hk : k < ND) :
    i_addr (xymerge yp dip) k = long (ulong (yp.y_db k) % 2 ^ 24) := by
  have hk13 : k < NADDR := by
    simp only [ND, NADDR] at hk ⊢
    omega
  simp only [ND] at hk
  rw [i_addr_eq hk13, xymerge]
  simp only [DI_ADDR, ND]
  rw [l3_root_of_ne (by omega), l3_root_of_ne (by omega), l3_root_of_ne (by omega), l3_ltol3 hk,
    Nat.zero_add, getl_longs]

/-- The three addresses behind the direct ones; the disk inode had zeros there. -/
lemma i_addr_xymerge_root (yp : Ynode)
    (hdip : ∀ i, DI_ADDR ≤ i → i < DI_ADDR + 3 * NADDR → dip i = 0) :
    i_addr (xymerge yp dip) ND =
        long (if yp.use.y_nib ≠ 0 then ulong (yp.y_ib 0) % 2 ^ 24 else 0) ∧
      i_addr (xymerge yp dip) (ND + 1) =
        long (if yp.use.y_niib ≠ 0 then ulong (yp.y_iib 0) % 2 ^ 24 else 0) ∧
      i_addr (xymerge yp dip) (ND + 2) =
        long (if yp.use.y_niiib ≠ 0 then ulong (yp.y_iiib 0) % 2 ^ 24 else 0) := by
  have hzero : ∀ k, DI_ADDR + 3 * ND ≤ k → k + 3 ≤ DI_ADDR + 3 * NADDR →
      l3 (ltol3 dip DI_ADDR (longs yp.y_db) 0 ND) k = 0 := by
    intro k h1 h2
    have hb : ∀ j < 3, ltol3 dip DI_ADDR (longs yp.y_db) 0 ND (k + j) = 0 := by
      intro j hj
      rw [ltol3_of_ne (by omega), hdip _ (by omega) (by omega)]
    have h0 := hb 0 (by omega)
    rw [Nat.add_zero] at h0
    rw [l3, h0, hb 1 (by omega), hb 2 (by omega)]
    rfl
  simp only [DI_ADDR, ND, NADDR] at hzero
  refine ⟨?_, ?_, ?_⟩ <;> rw [i_addr_eq (by decide), xymerge] <;> simp only [DI_ADDR, ND]
  · rw [l3_root_of_ne (by omega), l3_root_of_ne (by omega), l3_root, hzero _ (by omega) (by omega)]
  · rw [l3_root_of_ne (by omega), l3_root, l3_root_of_ne (by omega), hzero _ (by omega) (by omega)]
  · rw [l3_root, l3_root_of_ne (by omega), l3_root_of_ne (by omega), hzero _ (by omega) (by omega)]

/-- **`xymerge`**: the inode has the first addresses of all levels. -/
lemma i_addr_xymerge (hc : Counted yp.use) (ha : Allocated yp m)
    (hdip : ∀ i, DI_ADDR ≤ i → i < DI_ADDR + 3 * NADDR → dip i = 0) :
    (∀ k < ND, i_addr (xymerge yp dip) k = look yp.use.y_ndb yp.y_db k) ∧
      i_addr (xymerge yp dip) ND = look yp.use.y_nib yp.y_ib 0 ∧
      i_addr (xymerge yp dip) (ND + 1) = look yp.use.y_niib yp.y_iib 0 ∧
      i_addr (xymerge yp dip) (ND + 2) = look yp.use.y_niiib yp.y_iiib 0 := by
  have hnb : yp.use.y_nb = yp.use.y_ndb + (yp.use.y_nib + yp.use.y_niib + yp.use.y_niiib) := rfl
  have hval : ∀ i < yp.use.y_nb, long (ulong (yp.y_b i) % 2 ^ 24) = yp.y_b i :=
    fun i hi => long_mod (ha.pos i hi).le (ha.lt i hi)
  have hroot : ∀ n i, (n ≠ 0 → i < yp.use.y_nb) →
      long (if n ≠ 0 then ulong (yp.y_b i) % 2 ^ 24 else 0) = if 0 < n then yp.y_b i else 0 := by
    intro n i hi
    by_cases hn : n ≠ 0
    · rw [if_pos hn, if_pos (by omega), hval i (hi hn)]
    · rw [if_neg hn, if_neg (by omega)]
      rfl
  obtain ⟨h1, h2, h3⟩ := i_addr_xymerge_root yp hdip
  refine ⟨fun k hk => ?_, ?_, ?_, ?_⟩
  · rw [i_addr_xymerge_direct hk, look]
    by_cases hlt : k < yp.use.y_ndb
    · rw [if_pos hlt]
      exact hval (yp.use.y_niiib + (yp.use.y_niib + (yp.use.y_nib + k))) (by omega)
    · -- no indirect blocks: the array has its zeros here
      have hib := hc.ib 0
      have hiib := hc.iib 0
      have hiiib := hc.iiib 0
      rw [Nat.zero_mul] at hib hiib hiiib
      have hdb : yp.y_db k = 0 := by
        have hidx : yp.use.y_niiib + (yp.use.y_niib + (yp.use.y_nib + k)) = k := by omega
        have hk13 : k < NADDR := by
          simp only [ND, NADDR] at hk ⊢
          omega
        show yp.y_b (yp.use.y_niiib + (yp.use.y_niib + (yp.use.y_nib + k))) = 0
        rw [hidx]
        exact ha.clear k hk13 (by omega)
      rw [if_neg hlt, hdb]
      rfl
  · rw [h1]
    exact hroot yp.use.y_nib (yp.use.y_niiib + (yp.use.y_niib + 0)) fun hn => by omega
  · rw [h2]
    exact hroot yp.use.y_niib (yp.use.y_niiib + 0) fun hn => by omega
  · rw [h3]
    exact hroot yp.use.y_niiib 0 fun hn => by omega

/-! ### The kernel's way down -/

lemma vmapLoop_zero (fs : Fs) (lp : List ℕ) : vmapLoop fs lp 0 = 0 := by
  cases lp with
  | nil => rfl
  | cons l lp => exact if_pos rfl

/-- One level down. -/
lemma vmapLoop_level {fs : Fs} {disk : ℤ → Block} {lp : List ℕ} {j : ℕ}
    (h : Level disk n f n' f' off) (hne : ∀ j < n, f j ≠ 0)
    (hfs : ∀ j < n, fs.disk (f j) = disk (f j) ∧ fs.rdok (f j) = true) (he : e < NBN) :
    vmapLoop fs (e :: lp) (look n f j) = vmapLoop fs lp (look n' f' (off + j * NBN + e)) := by
  by_cases hj : j < n
  · obtain ⟨hd, hr⟩ := hfs j hj
    have hread : bread fs (f j) = some (disk (f j)) := by rw [bread, if_pos hr, hd]
    have hlook : look n f j = f j := if_pos hj
    rw [hlook, vmapLoop, if_neg (hne j hj), hread]
    dsimp only
    rw [h.entry j hj e he]
  · have hall := h.all
    have hmul : n * NBN ≤ j * NBN := Nat.mul_le_mul_right NBN (not_lt.mp hj)
    have h0 : look n f j = 0 := if_neg hj
    have h0' : look n' f' (off + j * NBN + e) = 0 := if_neg (by omega)
    rw [h0, h0', vmapLoop_zero, vmapLoop_zero]

/-- The kernel sees the blocks that `mkfs` has written, once the last buffer has gone out. -/
def Written (fs : Fs) (m : Image) (yp : Ynode) : Prop :=
  ∀ i < yp.use.y_ni, fs.disk (yp.y_b i) = (bcache (xindir m yp) (-1)).disk (yp.y_b i) ∧
    fs.rdok (yp.y_b i) = true

/-- **The kernel's map of the file** is the array of its data blocks. -/
lemma vmap_layout {fs : Fs} {lb : ℕ} (hc : Counted yp.use) (ha : Allocated yp m)
    (hdip : ∀ i, DI_ADDR ≤ i → i < DI_ADDR + 3 * NADDR → dip i = 0) (hw : Written fs m yp)
    (hlb : lb < MAXB) :
    (vmap fs (i_addr (xymerge yp dip)) lb).1 = look yp.use.y_ndb yp.y_db lb := by
  obtain ⟨hd, hs, hdd, ht⟩ := i_addr_xymerge hc ha hdip
  obtain ⟨hL3, hL2, hL1⟩ := xindir_levels hc ha
  have hni : yp.use.y_ni = yp.use.y_nib + yp.use.y_niib + yp.use.y_niiib := rfl
  have hnb : yp.use.y_nb = yp.use.y_ndb + yp.use.y_ni := rfl
  have hfs : ∀ i < yp.use.y_ni, yp.y_b i ≠ 0 ∧
      fs.disk (yp.y_b i) = (xindir m yp).content (yp.y_b i) ∧ fs.rdok (yp.y_b i) = true := by
    intro i hi
    have hpos := ha.pos i (by omega)
    obtain ⟨h1, h2⟩ := hw i hi
    rw [disk_bcache hpos.le (by omega)] at h1
    exact ⟨hpos.ne', h1, h2⟩
  have h3 : ∀ j < yp.use.y_niiib, _ := fun j hj => hfs j (by omega)
  have h2 : ∀ j < yp.use.y_niib, _ := fun j hj => hfs (yp.use.y_niiib + j) (by omega)
  have h1 : ∀ j < yp.use.y_nib, _ := fun j hj =>
    hfs (yp.use.y_niiib + (yp.use.y_niib + j)) (by omega)
  have hstep1 : ∀ {j e lp}, e < NBN → vmapLoop fs (e :: lp) (look yp.use.y_nib yp.y_ib j) =
      vmapLoop fs lp (look yp.use.y_ndb yp.y_db (ND + j * NBN + e)) :=
    fun he => vmapLoop_level hL1 (fun j hj => (h1 j hj).1) (fun j hj => (h1 j hj).2) he
  have hstep2 : ∀ {j e lp}, e < NBN → vmapLoop fs (e :: lp) (look yp.use.y_niib yp.y_iib j) =
      vmapLoop fs lp (look yp.use.y_nib yp.y_ib (1 + j * NBN + e)) :=
    fun he => vmapLoop_level hL2 (fun j hj => (h2 j hj).1) (fun j hj => (h2 j hj).2) he
  have hstep3 : ∀ {j e lp}, e < NBN → vmapLoop fs (e :: lp) (look yp.use.y_niiib yp.y_iiib j) =
      vmapLoop fs lp (look yp.use.y_niib yp.y_iib (1 + j * NBN + e)) :=
    fun he => vmapLoop_level hL3 (fun j hj => (h3 j hj).1) (fun j hj => (h3 j hj).2) he
  have hmod : ∀ q, q % NBN < NBN := fun q => Nat.mod_lt q (by decide)
  unfold MAXB at hlb
  unfold vmap
  by_cases hz0 : lb < ND
  · rw [lmap_direct hz0]
    exact hd lb hz0
  by_cases hz1 : lb < ND + NBN
  · obtain ⟨q, rfl⟩ := Nat.exists_eq_add_of_le (show ND ≤ lb by omega)
    have hq : q < NBN := by omega
    rw [lmap_single hq]
    dsimp only
    rw [hs, hstep1 hq, Nat.zero_mul]
    rfl
  by_cases hz2 : lb < ND + NBN + NBN * NBN
  · obtain ⟨q, rfl⟩ := Nat.exists_eq_add_of_le (show ND + NBN ≤ lb by omega)
    have hq : q < NBN * NBN := by omega
    have hidx : ND + (1 + 0 * NBN + q / NBN) * NBN + q % NBN = ND + NBN + q := by
      simp only [NBN]
      omega
    rw [lmap_double hq]
    dsimp only
    rw [hdd, hstep2 (Nat.div_lt_of_lt_mul hq), hstep1 (hmod q), hidx]
    rfl
  · obtain ⟨q, rfl⟩ := Nat.exists_eq_add_of_le (show ND + NBN + NBN * NBN ≤ lb by omega)
    have hq : q < NBN * NBN * NBN := by omega
    have hlt : q / NBN / NBN < NBN := by
      rw [Nat.div_div_eq_div_mul]
      exact Nat.div_lt_of_lt_mul hq
    have hidx : ND + (1 + (1 + 0 * NBN + q / NBN / NBN) * NBN + q / NBN % NBN) * NBN + q % NBN =
        ND + NBN + NBN * NBN + q := by
      simp only [NBN]
      omega
    rw [lmap_triple hq]
    dsimp only
    rw [ht, hstep3 hlt, hstep2 (hmod _), hstep1 (hmod q), hidx]
    rfl

/-- **The layout of a file.** For every size that the block map can take, and whatever blocks
`xexpand` has found for it: `mkfs` needs as many blocks of each kind as the kernel's block map,
and the kernel finds in the inode and the indirect blocks each block of the file, and a hole
behind the last. But all assertions of `xblkuse` are true just for files of fewer than `ND + NBN`
blocks: they take the last block of a zone for one too many. -/
theorem xblkuse_iff {x_size : ℕ} {y_b : ℕ → ℤ} {fs : Fs} (hsize : blocks x_size ≤ MAXB)
    (ha : Allocated ⟨xblkuse x_size, y_b⟩ m)
    (hdip : ∀ i, DI_ADDR ≤ i → i < DI_ADDR + 3 * NADDR → dip i = 0)
    (hw : Written fs m ⟨xblkuse x_size, y_b⟩) :
    ((xblkuse x_size).asserted = true ∧
      (xblkuse x_size).y_ndb = blocks x_size ∧
      (xblkuse x_size).y_nib = (needs (blocks x_size) 1).card ∧
      (xblkuse x_size).y_niib = (needs (blocks x_size) 2).card ∧
      (xblkuse x_size).y_niiib = (needs (blocks x_size) 3).card ∧
      ∀ lb < MAXB, (vmap fs (i_addr (xymerge ⟨xblkuse x_size, y_b⟩ dip)) lb).1 =
        if lb < (xblkuse x_size).y_ndb then Ynode.y_db ⟨xblkuse x_size, y_b⟩ lb else 0) ↔
    blocks x_size < ND + NBN := by
  obtain ⟨h0, h1, h2, h3, hok⟩ := xblkuse_spec hsize
  have hlt : blocks x_size ≤ ND + NBN - 1 ↔ blocks x_size < ND + NBN := by
    simp only [ND, NBN]
    omega
  rw [hok, hlt]
  refine ⟨fun h => h.1, fun h => ⟨h, h0, ?_, ?_, ?_, fun lb hlb => ?_⟩⟩
  · rw [h1, needs_one hsize]
  · rw [h2, needs_two hsize]
  · rw [h3, needs_three hsize]
  · exact vmap_layout (xblkuse_counted hsize) ha hdip hw hlb

/-- A new file system, as the kernel mounts it. -/
def made (m : Image) : Fs :=
  ⟨getSuper ((bcache m (-1)).disk SUPERI), false, (bcache m (-1)).disk, fun _ => true, none, []⟩

theorem xblkuse_20 : (xblkuse (20 * 512)).asserted = true := by
  have hs : (xblkuse (20 * 512)).y_nb = 21 := by decide
  have ha : Allocated ⟨xblkuse (20 * 512), fun i => if i < 21 then i + 100 else 0⟩
      ⟨fun _ => zeroBlock, -1, zeroBlock⟩ := by
    refine ⟨fun i hi j hj he => ?_, fun i hi => ?_, fun i hi => ?_, fun i _ hi => ?_,
      fun i hi => ?_⟩
    · dsimp only at hi hj he
      rw [hs] at hi hj
      rw [if_pos hi, if_pos hj] at he
      omega
    all_goals
      dsimp only at hi ⊢
      rw [hs] at hi
      split_ifs <;> omega
  have hw : Written (made (xindir ⟨fun _ => zeroBlock, -1, zeroBlock⟩ ⟨xblkuse (20 * 512),
      fun i => if i < 21 then i + 100 else 0⟩)) ⟨fun _ => zeroBlock, -1, zeroBlock⟩
      ⟨xblkuse (20 * 512), fun i => if i < 21 then i + 100 else 0⟩ := fun i _ => ⟨rfl, rfl⟩
  exact ((@xblkuse_iff _ zeroBlock _ _ _ (by decide) ha (fun _ _ _ => rfl) hw).mpr
    (by decide)).1

/-- A file that fills its indirect block is refused by an assertion. -/
theorem xblkuse_138 : blocks (138 * 512) = ND + NBN ∧ (xblkuse (138 * 512)).asserted = false := by
  decide

end Coherent.Mkfs
