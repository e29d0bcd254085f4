import Coherent.DiskPy
import Coherent.FileMap

/-!
The three block maps: `lmap` of the kernel, `fsimap` of the file system library and
`_classify_index` of `tools/disk.py`.

A path is an address of the inode and then an entry of each indirect block.
-/

namespace Coherent.BlockMap

open Coherent.Can Coherent.FileMap

/-- The blocks that a file can have. -/
def LIMIT : ℕ := ND + NBN + NBN ^ 2 + NBN ^ 3

/-! ### `fsimap` -/

def ranges : ℕ → ℕ
  | 0 => ND
  | 1 => ND + NBN
  | 2 => ND + NBN + NBN ^ 2
  | _ => LIMIT

/-- The roots of the trees; each level has one. -/
def offsets : ℕ → ℕ
  | 0 => 0
  | il + 1 => ND + il

def coeff (il : ℕ) : ℕ := NBN ^ il

/-- The level that `fsimap` finds for a block. -/
def fslevel (lb : ℕ) : Option ℕ := [0, 1, 2, 3].find? fun il => decide (lb < ranges il)

/-- The block inside its level. -/
def fsrest (il lb : ℕ) : ℕ := if il ≠ 0 then lb - ranges (il - 1) else lb

/-- The walk through the indirect blocks; `fsbread` reads a block. -/
def fswalk (fsbread : ℤ → Block) : ℕ → ℕ → ℤ → ℤ
  | 0, _, pb => pb
  | il + 1, lb, pb =>
    let bp := getl (fsbread pb) (4 * (lb / coeff il))
    if bp = 0 then 0 else fswalk fsbread il (lb % coeff il) (long (canl bp))

/-- `fsimap`, for an inode with the addresses `addrs`. -/
def fsimap (fsbread : ℤ → Block) (addrs : ℕ → ℤ) (lb : ℕ) : ℤ :=
  match fslevel lb with
  | none => 0
  | some il =>
    let pb := addrs (fsrest il lb / coeff il + offsets il)
    if pb = 0 then pb else fswalk fsbread il (fsrest il lb % coeff il) pb

/-- The entries that `fswalk` takes. -/
def fsentries : ℕ → ℕ → List ℕ
  | 0, _ => []
  | il + 1, lb => lb / coeff il :: fsentries il (lb % coeff il)

/-- The path `fsimap` follows as long as it meets no hole. -/
def fspath (lb : ℕ) : Option (List ℕ) :=
  (fslevel lb).map fun il =>
    (fsrest il lb / coeff il + offsets il) :: fsentries il (fsrest il lb % coeff il)

/-- The block at the end of a path, 0 for a hole. -/
def follow (fsbread : ℤ → Block) : List ℕ → ℤ → ℤ
  | [], pb => pb
  | l :: lp, pb => if pb = 0 then 0 else follow fsbread lp (dentry (fsbread pb) l)

variable {fsbread : ℤ → Block} {addrs : ℕ → ℤ} {b lb il : ℕ} {pb : ℤ}

lemma follow_zero (t : List ℕ) : follow fsbread t 0 = 0 := by cases t <;> simp [follow]

lemma dentry_eq_zero {p : Block} {i : ℕ} : dentry p i = 0 ↔ getl p (4 * i) = 0 := by
  have hlt := getl_lt p (4 * i)
  refine ⟨fun h => ?_, fun h => by rw [dentry, h]; rfl⟩
  have hc : canl (getl p (4 * i)) = 0 := by
    have := canl_lt (getl p (4 * i))
    unfold dentry long at h
    split_ifs at h <;> omega
  have hcc := canl_canl (getl p (4 * i))
  rw [hc, Nat.mod_eq_of_lt hlt] at hcc
  rw [← hcc]
  rfl

lemma fswalk_eq (hpb : pb ≠ 0) :
    fswalk fsbread il lb pb = follow fsbread (fsentries il lb) pb := by
  induction il generalizing lb pb with
  | zero => rfl
  | succ il ih =>
    rw [fswalk, fsentries, follow, if_neg hpb]
    split_ifs with h0
    · rw [dentry_eq_zero.mpr h0, follow_zero]
    · exact ih (dentry_eq_zero.not.mpr h0)

/-- **What `fsimap` returns** is at the end of its path. -/
theorem fsimap_eq (lb : ℕ) : fsimap fsbread addrs lb =
    match fspath lb with
    | some (l :: t) => follow fsbread t (addrs l)
    | _ => 0 := by
  unfold fsimap fspath
  cases fslevel lb with
  | none => rfl
  | some il =>
    simp only [Option.map_some]
    split_ifs with h0
    · rw [h0, follow_zero]
    · exact fswalk_eq h0

/-! ### `_classify_index` -/

open Coherent.DiskPy (NDIRECT INDIRECT_COUNT)

/-- `_classify_index` -/
def classify_index (n idx : ℕ) : Except String (ℕ × Option ℕ × List ℕ) :=
  if idx < NDIRECT then .ok (0, some idx, [])
  else
    let r := idx - NDIRECT
    if r < n then .ok (1, none, [r])
    else
      let r := r - n
      if r < n * n then .ok (2, none, [r / n, r % n])
      else
        let r := r - n * n
        if r < n ^ 3 then .ok (3, none, [r / (n * n), r % (n * n) / n, r % n])
        else .error "file too large for triple indirect"

/-- The path that its callers make of a classification: `slot`, or the root of the depth. -/
def pypath (idx : ℕ) : Except String (List ℕ) :=
  (classify_index INDIRECT_COUNT idx).map fun c => c.2.1.getD (NDIRECT + c.1 - 1) :: c.2.2

/-! ### The paths -/

/-- The path of a block, by the level it is on. -/
def path (b : ℕ) : Option (List ℕ) :=
  if b < 10 then some [b]
  else if b < 138 then some [10, b - 10]
  else if b < 16522 then some [11, (b - 138) / 128, (b - 138) % 128]
  else if b < 2113674 then
    some [12, (b - 16522) / 16384, (b - 16522) / 128 % 128, (b - 16522) % 128]
  else none

section Levels

/-- The levels end at these blocks. -/
lemma level_cases (b : ℕ) : b < 10 ∨ (10 ≤ b ∧ b < 138) ∨ (138 ≤ b ∧ b < 16522) ∨
    (16522 ≤ b ∧ b < 2113674) ∨ 2113674 ≤ b := by omega

lemma path_direct (h : b < 10) : path b = some [b] := if_pos h

lemma path_single (h : 10 ≤ b ∧ b < 138) : path b = some [10, b - 10] := by
  rw [path, if_neg (by omega), if_pos (by omega)]

lemma path_double (h : 138 ≤ b ∧ b < 16522) :
    path b = some [11, (b - 138) / 128, (b - 138) % 128] := by
  rw [path, if_neg (by omega), if_neg (by omega), if_pos (by omega)]

lemma path_triple (h : 16522 ≤ b ∧ b < 2113674) :
    path b = some [12, (b - 16522) / 16384, (b - 16522) / 128 % 128, (b - 16522) % 128] := by
  rw [path, if_neg (by omega), if_neg (by omega), if_neg (by omega), if_pos (by omega)]

lemma path_none (h : 2113674 ≤ b) : path b = none := by
  rw [path, if_neg (by omega), if_neg (by omega), if_neg (by omega), if_neg (by omega)]

end Levels

theorem lmap_eq_path (b : ℕ) : lmap b = path b := by
  unfold lmap ND NI
  rw [lmapLoop, lmapLoop, lmapLoop, lmapLoop]
  unfold ND NI NBN
  rcases level_cases b with h | h | h | h | h
  · rw [path_direct h, if_pos h]
  · rw [path_single h, if_neg (by omega), if_pos (by omega), Nat.mod_eq_of_lt (by omega)]
  · rw [path_double h, if_neg (by omega), if_neg (by omega), if_pos (by omega)]
    simp only [Nat.reduceAdd, Nat.reduceSub, Option.some.injEq, List.cons.injEq, true_and, and_true]
    omega
  · rw [path_triple h, if_neg (by omega), if_neg (by omega), if_neg (by omega), if_pos (by omega)]
    simp only [Nat.reduceAdd, Nat.reduceSub, Option.some.injEq, List.cons.injEq, true_and, and_true]
    omega
  · rw [path_none h, if_neg (by omega), if_neg (by omega), if_neg (by omega), if_neg (by omega)]

lemma fslevel_eq (b : ℕ) : fslevel b = if b < 10 then some 0 else if b < 138 then some 1
    else if b < 16522 then some 2 else if b < 2113674 then some 3 else none := by
  simp only [fslevel, ranges, LIMIT, ND, NBN, List.find?]
  split_ifs <;> grind

theorem fspath_eq_path (b : ℕ) : fspath b = path b := by
  have hpath : ∀ il, (fsrest il b / coeff il + offsets il) :: fsentries il (fsrest il b % coeff il) =
      (fsrest il b / 128 ^ il + offsets il) :: fsentries il (fsrest il b % 128 ^ il) := fun _ => rfl
  rw [fspath, fslevel_eq]
  rcases level_cases b with h | h | h | h | h
  · rw [path_direct h, if_pos h]
    simp [fsrest, coeff, offsets, fsentries]
  · have hr : fsrest 1 b = b - 10 := by simp [fsrest, ranges, ND]
    rw [path_single h, if_neg (by omega), if_pos (by omega), Option.map_some, hpath, hr]
    simp only [fsentries, coeff, offsets, ND, pow_zero, pow_one, Nat.div_one, Option.some.injEq,
      List.cons.injEq, and_true]
    omega
  · have hr : fsrest 2 b = b - 138 := by simp [fsrest, ranges, ND, NBN]
    rw [path_double h, if_neg (by omega), if_neg (by omega), if_pos (by omega), Option.map_some,
      hpath, hr]
    simp only [fsentries, coeff, offsets, ND, NBN, Nat.reducePow, Nat.div_one, Option.some.injEq,
      List.cons.injEq, and_true]
    omega
  · have hr : fsrest 3 b = b - 16522 := by simp [fsrest, ranges, ND, NBN]
    rw [path_triple h, if_neg (by omega), if_neg (by omega), if_neg (by omega), if_pos (by omega),
      Option.map_some, hpath, hr]
    simp only [fsentries, coeff, offsets, ND, NBN, Nat.reducePow, Nat.div_one, Option.some.injEq,
      List.cons.injEq, and_true]
    omega
  · rw [path_none h, if_neg (by omega), if_neg (by omega), if_neg (by omega), if_neg (by omega),
      Option.map_none]

theorem pypath_eq_path (b : ℕ) : pypath b =
    (path b).elim (.error "file too large for triple indirect") .ok := by
  have hn : INDIRECT_COUNT = 128 := rfl
  rw [pypath, classify_index, hn]
  unfold NDIRECT
  rcases level_cases b with h | h | h | h | h
  · rw [path_direct h, if_pos h]
    rfl
  · rw [path_single h, if_neg (by omega), if_pos (by omega)]
    rfl
  · rw [path_double h, if_neg (by omega), if_neg (by omega), if_pos (by omega), Nat.sub_sub]
    rfl
  · have hr : b - 10 - 128 - 128 * 128 = b - 16522 := by omega
    have hm : (b - 16522) % (128 * 128) / 128 = (b - 16522) / 128 % 128 := by omega
    rw [path_triple h, if_neg (by omega), if_neg (by omega), if_neg (by omega), if_pos (by omega),
      hr, hm]
    rfl
  · rw [path_none h, if_neg (by omega), if_neg (by omega), if_neg (by omega), if_neg (by omega)]
    rfl

/-! ### Blocks and paths -/

/-- A path of the tree of an inode. -/
structure IsPath (l : ℕ) (t : List ℕ) : Prop where
  root : l < NADDR
  length : t.length = level l
  entries : ∀ i ∈ t, i < NBN

lemma LIMIT_eq : LIMIT = 2113674 := by simp [LIMIT, ND, NBN]

lemma lmap_eq_none_iff : lmap b = none ↔ LIMIT ≤ b := by
  rw [lmap_eq_path, LIMIT_eq]
  rcases level_cases b with h | h | h | h | h
  · simp [path_direct h]
    omega
  · simp [path_single h]
    omega
  · simp [path_double h]
    omega
  · simp [path_triple h]
    omega
  · simp [path_none h, h]

lemma isPath_of_lmap {l : ℕ} {t : List ℕ} (h : lmap b = some (l :: t)) : IsPath l t := by
  obtain ⟨h1, h2, h3, -⟩ := lmap_cons h
  exact ⟨h1, h2, h3⟩

lemma lt_of_lmap {r : List ℕ} (h : lmap b = some r) : b < LIMIT := by
  by_contra hb
  rw [lmap_eq_none_iff.mpr (not_lt.mp hb)] at h
  cases h

/-- Every path is the path of a block. -/
lemma exists_lmap {l : ℕ} {t : List ℕ} (h : IsPath l t) : ∃ b, lmap b = some (l :: t) := by
  obtain ⟨hl, hlen, ht⟩ := h
  unfold NADDR at hl
  unfold level ND at hlen
  unfold NBN at ht
  simp only [lmap_eq_path]
  by_cases hl0 : l < 10
  · rw [if_pos hl0, List.length_eq_zero_iff] at hlen
    exact ⟨l, hlen ▸ path_direct hl0⟩
  rw [if_neg hl0] at hlen
  -- one list of entries for each of the three roots
  obtain rfl | rfl | rfl : l = 10 ∨ l = 11 ∨ l = 12 := by omega
  · obtain ⟨i, rfl⟩ := List.length_eq_one_iff.mp hlen
    have hi := ht i (by simp)
    refine ⟨10 + i, ?_⟩
    rw [path_single (by omega), Nat.add_sub_cancel_left]
  · obtain ⟨i, j, rfl⟩ := List.length_eq_two.mp hlen
    have hi := ht i (by simp)
    have hj := ht j (by simp)
    refine ⟨138 + (i * 128 + j), ?_⟩
    rw [path_double (by omega)]
    simp only [Option.some.injEq, List.cons.injEq, true_and, and_true]
    omega
  · obtain ⟨i, j, k, rfl⟩ := List.length_eq_three.mp hlen
    have hi := ht i (by simp)
    have hj := ht j (by simp)
    have hk := ht k (by simp)
    refine ⟨16522 + ((i * 128 + j) * 128 + k), ?_⟩
    rw [path_triple (by omega)]
    simp only [Option.some.injEq, List.cons.injEq, true_and, and_true]
    omega

/-- Past the end of the triple level `fsimap` returns 0. -/
lemma fsimap_of_le (hb : LIMIT ≤ b) : fsimap fsbread addrs b = 0 := by
  rw [fsimap_eq, fspath_eq_path, ← lmap_eq_path, lmap_eq_none_iff.mpr hb]

/-- **The block maps agree**: all three give one path to each block, the paths of the tree are the
paths of the blocks below the limit, and from there on `lmap` and `_classify_index` report an error
while `fsimap` returns 0. -/
theorem block_map :
    (∀ b, fspath b = lmap b ∧
      pypath b = (lmap b).elim (.error "file too large for triple indirect") .ok) ∧
    (∀ b b' r, lmap b = some r → lmap b' = some r → b = b') ∧
    (∀ b l t, lmap b = some (l :: t) → IsPath l t ∧
      ∀ fsbread addrs, fsimap fsbread addrs b = follow fsbread t (addrs l)) ∧
    (∀ l t, IsPath l t → ∃! b, b < LIMIT ∧ lmap b = some (l :: t)) ∧
    (∀ b < LIMIT, lmap b ≠ none) ∧
    ∀ b, LIMIT ≤ b → lmap b = none ∧ (∀ fs a, (vmap fs a b).2.u_error = some .EFBIG) ∧
      pypath b = .error "file too large for triple indirect" ∧
      ∀ fsbread addrs, fsimap fsbread addrs b = 0 := by
  have hfs : ∀ b, fspath b = lmap b := fun b => by rw [fspath_eq_path, lmap_eq_path]
  have hpy : ∀ b, pypath b = (lmap b).elim (.error "file too large for triple indirect") .ok :=
    fun b => by rw [pypath_eq_path, lmap_eq_path]
  refine ⟨fun b => ⟨hfs b, hpy b⟩, fun b b' r => lmap_inj, fun b l t h => ⟨isPath_of_lmap h, ?_⟩,
    fun l t h => ?_, fun b hb h => ?_, fun b hb => ?_⟩
  · intro fsbread addrs
    rw [fsimap_eq, hfs, h]
  · obtain ⟨b, hb⟩ := exists_lmap h
    exact ⟨b, ⟨lt_of_lmap hb, hb⟩, fun b' hb' => lmap_inj hb'.2 hb⟩
  · exact absurd (lmap_eq_none_iff.mp h) (not_le.mpr hb)
  · have hn : lmap b = none := lmap_eq_none_iff.mpr hb
    refine ⟨hn, fun fs a => ?_, ?_, fun fsbread addrs => fsimap_of_le hb⟩
    · simp [vmap, hn]
    · rw [hpy, hn]
      rfl

/-- The last path of the single level is the path of block 137 alone. -/
theorem block_map_single : ∃! b, b < LIMIT ∧ lmap b = some [10, 127] :=
  block_map.2.2.2.1 10 [127] ⟨by decide, by decide, by decide⟩

/-- What `fsimap` returns past the end of the triple level is what it returns for a hole. -/
theorem fsimap_past_end : ¬∀ b, LIMIT ≤ b → ∀ fsbread addrs, ∀ b' < LIMIT,
    fsimap fsbread addrs b ≠ fsimap fsbread addrs b' := by
  intro h
  refine h LIMIT le_rfl (fun _ => zeroBlock) (fun _ => 0) 0 (by simp [LIMIT_eq]) ?_
  have hz : lmap 0 = some [0] := by rw [lmap_eq_path, path_direct (by omega)]
  rw [fsimap_of_le le_rfl, fsimap_eq, fspath_eq_path, ← lmap_eq_path, hz]
  rfl

end Coherent.BlockMap
