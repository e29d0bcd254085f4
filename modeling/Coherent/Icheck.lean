import Coherent.FreeRun
import Coherent.Rebuild
import Coherent.InodeCodec
import Coherent.Lib.Radix

/-!
`icheck -s`: the scan of the i-list that marks the blocks in use, and the free list that is made of
the rest.

The i-list is read in chunks that are cut at the runs of defective blocks. A run that starts before
the place where the scan stands gives a chunk of negative length.
-/

namespace Coherent.Icheck

open Coherent.Can Coherent.Super Coherent.FreeList Coherent.FileMap Coherent.Lib
open Coherent.Itable (IFMT IFDIR IFREG BADFIN)
open Coherent.InodeCodec (l3 getw_putw_self getl_putl_self getw_putw_of_ne getl_putw_of_ne
  getl_putl_of_ne getw_putl_of_ne)

def INOORG : ℤ := 2
def IBLK : ℤ := 12

/-- `struct defect`, a run of defective blocks. -/
structure Defect where
  d_start : ℤ
  d_length : ℤ
  deriving DecidableEq

/-- Does the walk of `fssavedefective` end before the rest `l` of the list? -/
def Ends (bn : ℤ) (l : List Defect) : Prop := ∀ d ∈ l.head?, ¬ bn > d.d_start

instance (bn : ℤ) (l : List Defect) : Decidable (Ends bn l) := by unfold Ends; infer_instance

/-- Insert a block into the list of runs; `malloc` finds room. -/
def fssavedefective (bn : ℤ) : List Defect → List Defect
  | [] => [⟨bn, 1⟩]
  | d :: l =>
    if bn > d.d_start then
      -- `d` is `cdsp1` if the walk ends here
      if Ends bn l ∧ bn = d.d_start + d.d_length then ⟨d.d_start, d.d_length + 1⟩ :: l
      else d :: fssavedefective bn l
    else if bn = d.d_start - 1 then ⟨d.d_start - 1, d.d_length + 1⟩ :: l
    else ⟨bn, 1⟩ :: d :: l

/-- What the passes over the image leave behind. -/
structure St where
  /-- the bits of `bitmap` -/
  bitmap : ℕ → Bool
  deflist : List Defect
  freei : List ℕ
  nifree : ℕ

/-- The number of the bit of a block: the macros cast to `unsigned`. -/
def bit (bn : ℤ) : ℕ := (bn % 65536).toNat

inductive Flag
  | PLAIN
  | DIR
  | BAD
  deriving DecidableEq

section crawl

variable (disk : ℤ → Block) (fsize : ℤ)

/-- What is 1 if something is wrong comes first. With `-s` only the blocks of files are marked. -/
def bmark (bn : ℤ) (inum : ℕ) (s : St) : Bool × St :=
  if bn < 0 ∨ bn ≥ fsize then (true, s)
  else if s.bitmap (bit bn) = true then (false, s)
  else if inum ≠ 0 then (false, { s with bitmap := Function.update s.bitmap (bit bn) true })
  else (false, s)

def fsbread (bn : ℤ) : Block := if bn < 0 ∨ bn ≥ fsize then fun _ => 0 else disk bn

def crawldown (flag : Flag) (ino : ℕ) : ℕ → ℤ → St → St
  | 0, bn, s =>
    if bn = 0 then s
    else if (bmark fsize bn ino s).1 then s
    else
      let s := (bmark fsize bn ino s).2
      if flag = .BAD then { s with deflist := fssavedefective bn s.deflist } else s
  | lev + 1, bn, s =>
    if bn = 0 then s
    else if (bmark fsize bn ino s).1 then s
    else (List.range NBN).foldl
      (fun s i => crawldown flag ino lev (dentry (fsbread disk fsize bn) i) s)
      (bmark fsize bn ino s).2

/-- The level of an address of an inode, by `offsets`. -/
def level (i : ℕ) : ℕ := if i < ND then 0 else i - ND + 1

/-- The loop over the addresses, from the last one on. -/
def crawlAll (flag : Flag) (ino : ℕ) (addrs : ℕ → ℤ) (s : St) : St :=
  (List.range NADDR).reverse.foldl
    (fun s i => crawldown disk fsize flag ino (level i) (addrs i) s) s

/-- The disk inode number `k` of a block. -/
def di_mode (p : Block) (k : ℕ) : ℕ := canw (getw p (64 * k))
def di_addr (p : Block) (k j : ℕ) : ℤ := l3 p (64 * k + 12 + 3 * j)

def ilook (p : Block) (k inum : ℕ) (s : St) : St :=
  if di_mode p k = 0 then
    { s with
      freei := if s.freei.length < NICFREE then s.freei ++ [inum] else s.freei
      nifree := (s.nifree + 1) % 65536 }
  else if di_mode p k &&& IFMT = IFREG then crawlAll disk fsize .PLAIN inum (di_addr p k) s
  else if di_mode p k &&& IFMT = IFDIR then crawlAll disk fsize .DIR inum (di_addr p k) s
  else s

def iblockn (i : ℕ) : ℤ := ((i - 1) / INOPB + INODEI : ℕ)
def iblocko (i : ℕ) : ℕ := (i - 1) % INOPB

def finddefective (s : St) : St :=
  let p := disk (iblockn BADFIN)
  if di_mode p (iblocko BADFIN) &&& IFMT = IFREG then
    crawlAll disk fsize .BAD BADFIN (di_addr p (iblocko BADFIN)) s
  else s

/-- The inodes of a block; `inum` is that of the first. -/
def lookBlock (p : Block) (inum : ℕ) (s : St) : St :=
  (List.range INOPB).foldl (fun s k =>
    if (inum + k) % 65536 ≠ BADFIN then ilook disk fsize p k ((inum + k) % 65536) s else s) s

/-- `limit`, the end of the next chunk. -/
def limit (isize seek : ℤ) (cdsp : List Defect) : ℤ :=
  min (match cdsp with
    | [] => seek + IBLK
    | d :: _ => min (seek + IBLK) d.d_start) isize

/-- The blocks that `read` is asked for: its count has 16 bits. -/
def chunk (thischunk : ℤ) : ℕ := (thischunk * BSIZE % 65536).toNat / BSIZE

/-- The loop of `icheck` over the i-list, for a number of turns at most. It is over when a `read`
fails, as one of more bytes than `ibuf` has does. -/
def scan (isize : ℤ) : ℕ → ℤ → ℕ → List Defect → St → Option St
  | 0, _, _, _, _ => none
  | n + 1, seek, inum, cdsp, s =>
    if seek < isize then
      let run := cdsp.head?.filter fun d => d.d_start = seek
      match run with
      | some d =>
        scan isize n (seek + d.d_length) ((inum + d.d_length.toNat * INOPB) % 65536) cdsp.tail s
      | none =>
        let thischunk := limit isize seek cdsp - seek
        if chunk thischunk > IBLK then some s
        else scan isize n (seek + max thischunk 0) ((inum + chunk thischunk * INOPB) % 65536) cdsp
          ((List.range (chunk thischunk)).foldl (fun s (j : ℕ) =>
            lookBlock disk fsize (disk (seek + j)) (inum + j * INOPB) s) s)
    else some s

/-- The walk of `freecount` along the old free list: the number of blocks on it. -/
def freecount : ℕ → ℕ → (ℕ → ℤ) → Option ℕ
  | 0, _, _ => none
  | n + 1, df_nfree, df_free =>
    if df_nfree = 0 ∨ df_nfree > NICFREE then some 0
    else
      let fbuf := fsbread disk fsize (df_free 0)
      (freecount n (canw (getw fbuf 0)) fun i => long (canl (getl fbuf (2 + 4 * i)))).map
        (df_nfree + ·)

end crawl

/-- The super block in `superb`, and the image. -/
def bfree (v : Filsys × (ℤ → Block)) (bn : ℤ) : Filsys × (ℤ → Block) :=
  let (sb, disk) := v
  let disk := if sb.s_tfree = 0 then Function.update disk bn fun _ => 0 else disk
  let disk :=
    if sb.s_nfree = NICFREE then Function.update disk bn (fblk NICFREE sb.s_free) else disk
  let n := if sb.s_nfree = NICFREE then 0 else sb.s_nfree
  ({ sb with
      s_nfree := n + 1
      s_free := Function.update sb.s_free n bn
      s_tfree := sb.s_tfree + 1 }, disk)

/-- The blocks that are not marked, from the last one of the volume down to the i-list. -/
def unmarked (isize fsize : ℤ) (bitmap : ℕ → Bool) : List ℤ :=
  ((List.range (fsize - isize).toNat).map fun k : ℕ => fsize - 1 - k).filter
    fun bn => !bitmap (bit bn)

def makesuper (disk : ℤ → Block) (s : St) : ℤ → Block :=
  let sb := getSuper (disk SUPERI)
  let n := s.freei.length
  let sb := { sb with
    s_ninode := n
    s_inode := fun k =>
      if k < n then s.freei.getD (n - 1 - k) 0 else if k < NICFREE then 0 else sb.s_inode k
    s_tinode := s.nifree
    s_nfree := 0
    s_tfree := 0 }
  let v := (unmarked sb.s_isize sb.s_fsize s.bitmap).foldl bfree (sb, disk)
  Function.update v.2 SUPERI (putSuper v.1 (disk SUPERI))

/-- `icheck -s`: the image it leaves, if it comes to `makesuper` within that many turns of its
loops. It does not if the super block is ridiculous; nor where C leaves open what the program does,
as when the `int` for the size of the bitmap is too short for it, or that for the length of a
run. -/
def icheck (turns : ℕ) (disk : ℤ → Block) : Option (ℤ → Block) :=
  let sb := getSuper (disk SUPERI)
  let fsize := sb.s_fsize
  let isize : ℤ := sb.s_isize
  if isize < INOORG + 1 ∨ isize ≥ fsize ∨ fsize < INOORG + 1 then none
  else if (fsize + 7) / 8 % 65536 * 8 < min fsize 65536 then none
  else
    let s := finddefective disk fsize ⟨fun _ => false, [], [], 0⟩
    if ∃ d ∈ s.deflist, d.d_length > 32767 then none
    else match scan disk fsize isize turns INOORG 1 s.deflist s with
      | none => none
      | some s => match freecount disk fsize turns sb.s_nfree sb.s_free with
        | none => none
        | some _ => some (makesuper disk s)

/-! ### The runs -/

def Defect.Has (d : Defect) (x : ℤ) : Prop := d.d_start ≤ x ∧ x < d.d_start + d.d_length

instance (d : Defect) (x : ℤ) : Decidable (d.Has x) := by unfold Defect.Has; infer_instance

def Covered (l : List Defect) (x : ℤ) : Prop := ∃ d ∈ l, d.Has x

/-- The list is in the order of the starts, and no run is empty. -/
structure Runs (l : List Defect) : Prop where
  sorted : l.Pairwise fun d e => d.d_start ≤ e.d_start
  length : ∀ d ∈ l, 1 ≤ d.d_length

lemma covered_cons {d : Defect} {l : List Defect} {x : ℤ} :
    Covered (d :: l) x ↔ d.Has x ∨ Covered l x := by simp [Covered]

lemma Runs.nil : Runs [] := ⟨.nil, by simp⟩

lemma Runs.cons {d : Defect} {l : List Defect} (h : Runs l) (hd : 1 ≤ d.d_length)
    (hl : ∀ e ∈ l, d.d_start ≤ e.d_start) : Runs (d :: l) :=
  ⟨List.pairwise_cons.mpr ⟨hl, h.sorted⟩, List.forall_mem_cons.mpr ⟨hd, h.length⟩⟩

lemma Runs.tail {d : Defect} {l : List Defect} (h : Runs (d :: l)) : Runs l :=
  ⟨h.sorted.of_cons, fun e he => h.length e (List.mem_cons_of_mem _ he)⟩

lemma Runs.head {d : Defect} {l : List Defect} (h : Runs (d :: l)) :
    1 ≤ d.d_length ∧ ∀ e ∈ l, d.d_start ≤ e.d_start :=
  ⟨h.length d List.mem_cons_self, (List.pairwise_cons.mp h.sorted).1⟩

/-- A run starts at the new block, or where one started before. -/
lemma start_fssavedefective {bn : ℤ} {l : List Defect} {e : Defect}
    (h : e ∈ fssavedefective bn l) : e.d_start = bn ∨ ∃ d ∈ l, d.d_start = e.d_start := by
  induction l with
  | nil =>
    rw [fssavedefective, List.mem_singleton] at h
    exact .inl (by rw [h])
  | cons d l ih =>
    rw [fssavedefective] at h
    split_ifs at h with h1 h2 h3
    · -- onto the end of `d`
      rcases List.mem_cons.mp h with rfl | h
      · exact .inr ⟨d, List.mem_cons_self, rfl⟩
      · exact .inr ⟨e, List.mem_cons_of_mem _ h, rfl⟩
    · rcases List.mem_cons.mp h with rfl | h
      · exact .inr ⟨e, List.mem_cons_self, rfl⟩
      · rcases ih h with he | ⟨d', hd', he⟩
        · exact .inl he
        · exact .inr ⟨d', List.mem_cons_of_mem _ hd', he⟩
    · -- in front of `d`
      rcases List.mem_cons.mp h with rfl | h
      · exact .inl h3.symm
      · exact .inr ⟨e, List.mem_cons_of_mem _ h, rfl⟩
    · rcases List.mem_cons.mp h with rfl | h
      · exact .inl rfl
      · exact .inr ⟨e, h, rfl⟩

lemma Runs.fssavedefective {bn : ℤ} {l : List Defect} (h : Runs l) :
    Runs (fssavedefective bn l) := by
  induction l with
  | nil => exact Runs.nil.cons (le_refl 1) (by simp)
  | cons d l ih =>
    obtain ⟨hd, hl⟩ := h.head
    rw [Icheck.fssavedefective]
    split_ifs with h1 h2 h3
    · exact h.tail.cons (by simp only; omega) hl
    · refine (ih h.tail).cons hd fun e he => ?_
      rcases start_fssavedefective he with he | ⟨d', hd', he⟩
      · omega
      · rw [← he]
        exact hl d' hd'
    · refine h.tail.cons (by simp only; omega) fun e he => ?_
      have := hl e he
      simp only
      omega
    · refine h.cons (le_refl 1) fun e he => ?_
      simp only
      rcases List.mem_cons.mp he with rfl | he
      · omega
      · have := hl e he
        omega

/-- **The insertion** adds its block to what the runs cover, and no other. -/
lemma covered_fssavedefective {bn : ℤ} {l : List Defect} (h : Runs l) (x : ℤ) :
    Covered (fssavedefective bn l) x ↔ x = bn ∨ Covered l x := by
  induction l with
  | nil =>
    simp only [fssavedefective, Covered, List.mem_singleton, exists_eq_left, Defect.Has,
      List.not_mem_nil, false_and, exists_false, or_false]
    omega
  | cons d l ih =>
    have hd := h.head.1
    rw [fssavedefective]
    split_ifs with h1 h2 h3
    · rw [covered_cons, covered_cons]
      have : (⟨d.d_start, d.d_length + 1⟩ : Defect).Has x ↔ x = bn ∨ d.Has x := by
        simp only [Defect.Has]
        omega
      tauto
    · rw [covered_cons, covered_cons, ih h.tail]
      tauto
    · rw [covered_cons, covered_cons]
      have : (⟨d.d_start - 1, d.d_length + 1⟩ : Defect).Has x ↔ x = bn ∨ d.Has x := by
        simp only [Defect.Has]
        omega
      tauto
    · rw [covered_cons]
      have : (⟨bn, 1⟩ : Defect).Has x ↔ x = bn := by
        simp only [Defect.Has]
        omega
      tauto

/-! ### What the passes mark -/

/-- A pass marks the bits of `A`, and adds the blocks of `D` to the runs. -/
structure Pass (f : St → St) (A : ℕ → Prop) (D : ℤ → Prop) : Prop where
  bitmap : ∀ s m, (f s).bitmap m = true ↔ s.bitmap m = true ∨ A m
  runs : ∀ s, Runs s.deflist → Runs (f s).deflist
  covered : ∀ s, Runs s.deflist → ∀ x, Covered (f s).deflist x ↔ Covered s.deflist x ∨ D x

namespace Pass

variable {f g : St → St} {A A' : ℕ → Prop} {D D' : ℤ → Prop}

lemma congr (h : Pass f A D) (hA : ∀ m, A' m ↔ A m) (hD : ∀ x, D' x ↔ D x) : Pass f A' D' where
  bitmap s m := by rw [hA]; exact h.bitmap s m
  runs := h.runs
  covered s hs x := by rw [hD]; exact h.covered s hs x

lemma id : Pass (fun s => s) (fun _ => False) (fun _ => False) where
  bitmap s m := by simp
  runs s hs := hs
  covered s hs x := by simp

lemma comp (hf : Pass f A D) (hg : Pass g A' D') :
    Pass (fun s => g (f s)) (fun m => A m ∨ A' m) (fun x => D x ∨ D' x) where
  bitmap s m := by rw [hg.bitmap, hf.bitmap, or_assoc]
  runs s hs := hg.runs _ (hf.runs s hs)
  covered s hs x := by rw [hg.covered _ (hf.runs s hs), hf.covered s hs, or_assoc]

lemma foldl {ι : Type*} {f : St → ι → St} {A : ι → ℕ → Prop} {D : ι → ℤ → Prop} {l : List ι}
    (h : ∀ i ∈ l, Pass (fun s => f s i) (A i) (D i)) :
    Pass (fun s => l.foldl f s) (fun m => ∃ i ∈ l, A i m) (fun x => ∃ i ∈ l, D i x) := by
  induction l with
  | nil => exact id.congr (by simp) (by simp)
  | cons i l ih =>
    have hi := h i List.mem_cons_self
    have hl := ih fun j hj => h j (List.mem_cons_of_mem _ hj)
    exact (hi.comp hl).congr (by simp) (by simp)

end Pass

section marks

variable {disk : ℤ → Block} {fsize : ℤ}

def InRange (fsize c : ℤ) : Prop := 0 ≤ c ∧ c < fsize

/-- The entries of the indirect blocks of the volume. -/
def entries (disk : ℤ → Block) (fsize c : ℤ) (i : ℕ) : ℤ :=
  if c < 0 ∨ c ≥ fsize then 0 else dentry (disk c) i

/-- The blocks of the address tree at an address. -/
abbrev blocks (disk : ℤ → Block) (fsize : ℤ) (lev : ℕ) (bn : ℤ) : Multiset ℤ :=
  Radix.tree NBN (entries disk fsize) lev bn

/-- A data block of that tree. -/
def Leaf (disk : ℤ → Block) (fsize : ℤ) : ℕ → ℤ → ℤ → Prop
  | 0, bn, x => bn ≠ 0 ∧ x = bn
  | lev + 1, bn, x => bn ≠ 0 ∧ ∃ i ∈ List.range NBN, Leaf disk fsize lev (entries disk fsize bn i) x

lemma bmark_pass {bn : ℤ} (hbn : InRange fsize bn) (inum : ℕ) :
    (∀ s, (bmark fsize bn inum s).1 = false) ∧
      Pass (fun s => (bmark fsize bn inum s).2) (fun m => inum ≠ 0 ∧ bit bn = m)
        fun _ => False := by
  unfold InRange at hbn
  refine ⟨fun s => ?_, fun s m => ?_, fun s hs => ?_, fun s hs x => ?_⟩ <;> simp only [bmark]
  · rw [if_neg (by omega)]
    split_ifs <;> rfl
  · rw [if_neg (by omega)]
    split_ifs with hb h0
    · constructor
      · exact .inl
      · rintro (h | ⟨-, rfl⟩)
        · exact h
        · exact hb
    · by_cases hm : m = bit bn
      · subst hm
        simp [h0]
      · simp [Function.update_of_ne hm, Ne.symm hm]
    · simp [h0]
  · rw [if_neg (by omega)]
    split_ifs <;> exact hs
  · rw [if_neg (by omega), or_false]
    split_ifs <;> rfl

lemma bmark_out {bn : ℤ} (hbn : ¬ InRange fsize bn) (inum : ℕ) (s : St) :
    (bmark fsize bn inum s).1 = true := by
  unfold InRange at hbn
  unfold bmark
  rw [if_pos (by omega)]

/-- Out of range there is nothing in a tree but its root. -/
lemma blocks_out {lev : ℕ} {bn c : ℤ} (hbn : ¬ InRange fsize bn)
    (hc : c ∈ blocks disk fsize lev bn) : ¬ InRange fsize c := by
  unfold InRange at hbn
  have h0 : bn ≠ 0 := by
    rintro rfl
    simp at hc
  cases lev with
  | zero =>
    rw [blocks, Radix.tree_leaf h0, Multiset.mem_singleton] at hc
    rwa [hc]
  | succ lev =>
    rw [blocks, Radix.tree_succ h0, Multiset.mem_cons] at hc
    rcases hc with rfl | hc
    · exact hbn
    · obtain ⟨i, -, hi⟩ := Multiset.mem_sum.mp hc
      rw [entries, if_pos (by omega), Radix.tree_zero] at hi
      exact absurd hi (Multiset.notMem_zero c)

lemma save_pass (bn : ℤ) :
    Pass (fun s => { s with deflist := fssavedefective bn s.deflist }) (fun _ => False)
      fun x => x = bn where
  bitmap s m := by simp
  runs s hs := hs.fssavedefective
  covered s hs x := by rw [covered_fssavedefective hs, or_comm]

lemma not_leaf_out {lev : ℕ} {bn x : ℤ} (hbn : ¬ InRange fsize bn)
    (h : Leaf disk fsize lev bn x) : ¬ InRange fsize x := by
  cases lev with
  | zero =>
    obtain ⟨-, rfl⟩ := h
    exact hbn
  | succ lev =>
    obtain ⟨-, i, -, hi⟩ := h
    unfold InRange at hbn
    rw [entries, if_pos (by omega)] at hi
    cases lev with
    | zero => exact absurd rfl hi.1
    | succ lev => exact absurd rfl hi.1

lemma crawldown_zero (flag : Flag) (ino lev : ℕ) :
    crawldown disk fsize flag ino lev 0 = fun s => s := by
  cases lev <;> funext s <;> rw [crawldown, if_pos rfl]

/-- Nothing comes of a block number out of range. -/
lemma crawldown_out {bn : ℤ} (hbn : ¬ InRange fsize bn) (flag : Flag) (ino lev : ℕ) :
    crawldown disk fsize flag ino lev bn = fun s => s := by
  by_cases h0 : bn = 0
  · rw [h0]
    exact crawldown_zero flag ino lev
  · cases lev <;> funext s <;> rw [crawldown, if_neg h0, if_pos (bmark_out hbn ino s)]

lemma not_leaf_zero {lev : ℕ} {x : ℤ} : ¬ Leaf disk fsize lev 0 x := by
  cases lev <;> exact fun h => h.1 rfl

/-- **The crawl** marks the blocks of the tree that are in range. -/
lemma crawldown_pass (flag : Flag) (ino lev : ℕ) (bn : ℤ) :
    Pass (crawldown disk fsize flag ino lev bn)
      (fun m => ∃ c ∈ blocks disk fsize lev bn, InRange fsize c ∧ ino ≠ 0 ∧ bit c = m)
      (fun x => flag = .BAD ∧ Leaf disk fsize lev bn x ∧ InRange fsize x) := by
  induction lev generalizing bn with
  | zero =>
    by_cases h0 : bn = 0
    · subst h0
      rw [crawldown_zero]
      exact Pass.id.congr (by simp [blocks]) (by simp [not_leaf_zero])
    by_cases hbn : InRange fsize bn
    · obtain ⟨hok, hb⟩ := bmark_pass hbn ino
      by_cases hf : flag = .BAD
      · have he : crawldown disk fsize flag ino 0 bn = fun s =>
            { (bmark fsize bn ino s).2 with
              deflist := fssavedefective bn (bmark fsize bn ino s).2.deflist } := by
          funext s
          rw [crawldown, if_neg h0, if_neg (by simp [hok]), if_pos hf]
        rw [he]
        refine (hb.comp (save_pass bn)).congr (fun m => ?_) fun x => ?_
        · rw [blocks, Radix.tree_leaf h0]
          simp [hbn]
        · simp only [hf, Leaf, true_and, false_or]
          exact ⟨fun h => h.1.2, fun h => ⟨⟨h0, h⟩, h ▸ hbn⟩⟩
      · have he : crawldown disk fsize flag ino 0 bn = fun s => (bmark fsize bn ino s).2 := by
          funext s
          rw [crawldown, if_neg h0, if_neg (by simp [hok]), if_neg hf]
        rw [he]
        refine hb.congr (fun m => ?_) fun x => by simp [hf]
        rw [blocks, Radix.tree_leaf h0]
        simp [hbn]
    · rw [crawldown_out hbn]
      refine Pass.id.congr (fun m => ?_) fun x => ?_
      · simp only [iff_false]
        rintro ⟨c, hc, hr, -⟩
        exact blocks_out hbn hc hr
      · simp only [iff_false]
        rintro ⟨-, hl, hr⟩
        exact not_leaf_out hbn hl hr
  | succ lev ih =>
    by_cases h0 : bn = 0
    · subst h0
      rw [crawldown_zero]
      exact Pass.id.congr (by simp [blocks]) (by simp [not_leaf_zero])
    by_cases hbn : InRange fsize bn
    · obtain ⟨hok, hb⟩ := bmark_pass hbn ino
      have hent (i : ℕ) : dentry (fsbread disk fsize bn) i = entries disk fsize bn i := by
        unfold InRange at hbn
        rw [entries, fsbread, if_neg (by omega), if_neg (by omega)]
      have he : crawldown disk fsize flag ino (lev + 1) bn = fun s =>
          (List.range NBN).foldl
            (fun s i => crawldown disk fsize flag ino lev (entries disk fsize bn i) s)
            (bmark fsize bn ino s).2 := by
        funext s
        rw [crawldown, if_neg h0, if_neg (by simp [hok])]
        simp only [hent]
      rw [he]
      have hloop := Pass.foldl (l := List.range NBN)
        (f := fun s i => crawldown disk fsize flag ino lev (entries disk fsize bn i) s)
        fun i _ => ih (entries disk fsize bn i)
      refine (hb.comp hloop).congr (fun m => ?_) fun x => ?_
      · rw [blocks, Radix.tree_succ h0]
        simp only [Multiset.mem_cons, Multiset.mem_sum, Finset.mem_range, List.mem_range]
        constructor
        · rintro ⟨c, rfl | ⟨i, hi, hc⟩, hr, hn, hm⟩
          · exact .inl ⟨hn, hm⟩
          · exact .inr ⟨i, hi, c, hc, hr, hn, hm⟩
        · rintro (⟨hn, hm⟩ | ⟨i, hi, c, hc, hr, hn, hm⟩)
          · exact ⟨bn, .inl rfl, hbn, hn, hm⟩
          · exact ⟨c, .inr ⟨i, hi, hc⟩, hr, hn, hm⟩
      · simp only [Leaf, false_or]
        constructor
        · rintro ⟨hf, ⟨-, i, hi, hl⟩, hr⟩
          exact ⟨i, hi, hf, hl, hr⟩
        · rintro ⟨i, hi, hf, hl, hr⟩
          exact ⟨hf, ⟨h0, i, hi, hl⟩, hr⟩
    · rw [crawldown_out hbn]
      refine Pass.id.congr (fun m => ?_) fun x => ?_
      · simp only [iff_false]
        rintro ⟨c, hc, hr, -⟩
        exact blocks_out hbn hc hr
      · simp only [iff_false]
        rintro ⟨-, hl, hr⟩
        exact not_leaf_out hbn hl hr

/-- In range in the address tree of an inode. -/
def InTree (disk : ℤ → Block) (fsize : ℤ) (addrs : ℕ → ℤ) (c : ℤ) : Prop :=
  InRange fsize c ∧ ∃ j < NADDR, c ∈ blocks disk fsize (level j) (addrs j)

/-- A data block of the inode that is in range. -/
def IsData (disk : ℤ → Block) (fsize : ℤ) (addrs : ℕ → ℤ) (c : ℤ) : Prop :=
  InRange fsize c ∧ ∃ j < NADDR, Leaf disk fsize (level j) (addrs j) c

lemma crawlAll_pass (flag : Flag) (ino : ℕ) (addrs : ℕ → ℤ) :
    Pass (crawlAll disk fsize flag ino addrs)
      (fun m => ino ≠ 0 ∧ ∃ c, InTree disk fsize addrs c ∧ bit c = m)
      (fun x => flag = .BAD ∧ IsData disk fsize addrs x) := by
  have h := Pass.foldl (l := (List.range NADDR).reverse)
    (f := fun s i => crawldown disk fsize flag ino (level i) (addrs i) s)
    fun i _ => crawldown_pass flag ino (level i) (addrs i)
  refine h.congr (fun m => ?_) fun x => ?_
  · simp only [InTree, List.mem_reverse, List.mem_range]
    constructor
    · rintro ⟨hn, c, ⟨hr, j, hj, hc⟩, hm⟩
      exact ⟨j, hj, c, hc, hr, hn, hm⟩
    · rintro ⟨j, hj, c, hc, hr, hn, hm⟩
      exact ⟨hn, c, ⟨hr, j, hj, hc⟩, hm⟩
  · simp only [IsData, List.mem_reverse, List.mem_range]
    constructor
    · rintro ⟨hf, hr, j, hj, hl⟩
      exact ⟨j, hj, hf, hl, hr⟩
    · rintro ⟨j, hj, hf, hl, hr⟩
      exact ⟨hf, hr, j, hj, hl⟩

/-- A regular file or a directory. -/
def IsFile (mode : ℕ) : Prop := mode &&& IFMT = IFREG ∨ mode &&& IFMT = IFDIR

instance (mode : ℕ) : Decidable (IsFile mode) := by unfold IsFile; infer_instance

lemma ilook_pass (p : Block) (k inum : ℕ) :
    Pass (ilook disk fsize p k inum)
      (fun m => inum ≠ 0 ∧ IsFile (di_mode p k) ∧
        ∃ c, InTree disk fsize (di_addr p k) c ∧ bit c = m)
      fun _ => False := by
  by_cases h0 : di_mode p k = 0
  · have hno : ¬ IsFile (di_mode p k) := by
      rw [h0]
      decide
    refine ⟨fun s m => ?_, fun s hs => ?_, fun s hs x => ?_⟩ <;> unfold ilook <;> rw [if_pos h0]
    · simp [hno]
    · exact hs
    · simp
  by_cases hr : di_mode p k &&& IFMT = IFREG
  · have he : ilook disk fsize p k inum = crawlAll disk fsize .PLAIN inum (di_addr p k) := by
      funext s
      rw [ilook, if_neg h0, if_pos hr]
    rw [he]
    exact (crawlAll_pass .PLAIN inum (di_addr p k)).congr (by simp [IsFile, hr]) (by simp)
  by_cases hd : di_mode p k &&& IFMT = IFDIR
  · have he : ilook disk fsize p k inum = crawlAll disk fsize .DIR inum (di_addr p k) := by
      funext s
      rw [ilook, if_neg h0, if_neg hr, if_pos hd]
    rw [he]
    exact (crawlAll_pass .DIR inum (di_addr p k)).congr (by simp [IsFile, hd]) (by simp)
  · have he : ilook disk fsize p k inum = fun s => s := by
      funext s
      rw [ilook, if_neg h0, if_neg hr, if_neg hd]
    rw [he]
    exact Pass.id.congr (by simp [IsFile, hr, hd]) (by simp)

/-- The bits that a block of inodes marks, whose first one has the number `inum`. -/
def BlockMarks (disk : ℤ → Block) (fsize : ℤ) (p : Block) (inum m : ℕ) : Prop :=
  ∃ k < INOPB, (inum + k) % 65536 ≠ BADFIN ∧ (inum + k) % 65536 ≠ 0 ∧ IsFile (di_mode p k) ∧
    ∃ c, InTree disk fsize (di_addr p k) c ∧ bit c = m

lemma lookBlock_pass (p : Block) (inum : ℕ) :
    Pass (lookBlock disk fsize p inum) (BlockMarks disk fsize p inum) fun _ => False := by
  have h := Pass.foldl (l := List.range INOPB)
    (f := fun s k => if (inum + k) % 65536 ≠ BADFIN then
      ilook disk fsize p k ((inum + k) % 65536) s else s)
    (A := fun k m => (inum + k) % 65536 ≠ BADFIN ∧ (inum + k) % 65536 ≠ 0 ∧
      IsFile (di_mode p k) ∧ ∃ c, InTree disk fsize (di_addr p k) c ∧ bit c = m)
    (D := fun _ _ => False) fun k _ => by
      by_cases hk : (inum + k) % 65536 = BADFIN
      · simp only [hk, ne_eq, not_true_eq_false, if_false]
        exact Pass.id.congr (by simp) (by simp)
      · simp only [hk, ne_eq, not_false_eq_true, if_true]
        exact (ilook_pass p k _).congr (by simp) (by simp)
  exact h.congr (by simp [BlockMarks]) (by simp)

/-! ### How far the scan comes -/

/-- Where the scan ends, if it is at `seek` before the runs `l`: at the end of the i-list, or at a
run that starts behind it. -/
def stop (isize : ℤ) : ℤ → List Defect → ℤ
  | _, [] => isize
  | seek, d :: l =>
    if isize ≤ seek ∨ isize ≤ d.d_start then isize
    else if d.d_start < seek then seek
    else stop isize (d.d_start + d.d_length) l

/-- The blocks of the i-list that are looked at from there on. -/
def Scanned (isize seek : ℤ) (l : List Defect) (b : ℤ) : Prop :=
  seek ≤ b ∧ b < stop isize seek l ∧ ¬ Covered l b

variable {isize seek : ℤ} {d : Defect} {l : List Defect} {b : ℤ}

lemma min_le_stop (h : Runs l) : min seek isize ≤ stop isize seek l := by
  induction l generalizing seek with
  | nil => exact min_le_right _ _
  | cons d l ih =>
    have hd := h.head.1
    rw [stop]
    split_ifs
    · exact min_le_right _ _
    · exact min_le_left _ _
    · have : min (d.d_start + d.d_length) isize ≤ stop isize (d.d_start + d.d_length) l :=
        ih h.tail
      omega

lemma not_scanned_end (h : isize ≤ seek) : ¬ Scanned isize seek l b := by
  rintro ⟨h0, h1, -⟩
  have : stop isize seek l = isize := by
    cases l with
    | nil => rfl
    | cons d l => rw [stop, if_pos (.inl h)]
  omega

lemma not_scanned_stale (h : seek < isize) (hd : d.d_start < seek) :
    ¬ Scanned isize seek (d :: l) b := by
  rintro ⟨h0, h1, -⟩
  rw [stop, if_neg (by omega), if_pos hd] at h1
  omega

/-- A run that starts where the scan stands is passed over. -/
lemma scanned_run (h : seek < isize) (hr : Runs (d :: l)) (hd : d.d_start = seek) :
    Scanned isize seek (d :: l) b ↔ Scanned isize (seek + d.d_length) l b := by
  have h1 := hr.head.1
  unfold Scanned
  rw [stop, if_neg (by omega), if_neg (by omega), covered_cons, hd]
  simp only [Defect.Has, hd]
  constructor
  · rintro ⟨h2, h3, h4⟩
    exact ⟨by by_contra; exact h4 (.inl ⟨h2, by omega⟩), h3, fun hc => h4 (.inr hc)⟩
  · rintro ⟨h2, h3, h4⟩
    refine ⟨by omega, h3, ?_⟩
    rintro (hc | hc)
    · omega
    · exact h4 hc

/-- A chunk in front of all runs is looked at. -/
lemma scanned_chunk {lim : ℤ} (h : seek < lim) (hi : lim ≤ isize) (hr : Runs l)
    (hl : ∀ d ∈ l, lim ≤ d.d_start) :
    Scanned isize seek l b ↔ (seek ≤ b ∧ b < lim) ∨ Scanned isize lim l b := by
  have hstop : stop isize seek l = stop isize lim l := by
    cases l with
    | nil => rfl
    | cons d l =>
      have := hl d List.mem_cons_self
      rw [stop, stop]
      by_cases hd : isize ≤ d.d_start
      · rw [if_pos (.inr hd), if_pos (.inr hd)]
      · rw [if_neg (by omega), if_neg (by omega), if_neg (by omega), if_neg (by omega)]
  have hmin : min lim isize ≤ stop isize lim l := min_le_stop hr
  unfold Scanned
  rw [hstop]
  constructor
  · rintro ⟨h1, h2, h3⟩
    rcases lt_or_ge b lim with hb | hb
    · exact .inl ⟨h1, hb⟩
    · exact .inr ⟨hb, h2, h3⟩
  · rintro (⟨h1, h2⟩ | ⟨h1, h2, h3⟩)
    · refine ⟨h1, by omega, ?_⟩
      rintro ⟨d, hd, hs, -⟩
      have := hl d hd
      omega
    · exact ⟨by omega, h2, h3⟩

/-- The number of the first inode of a block of the i-list. -/
def firstIno (b : ℤ) : ℕ := (b - INOORG).toNat * INOPB + 1

lemma blockMarks_congr {p : Block} {i j m : ℕ} (h : i % 65536 = j % 65536) :
    BlockMarks disk fsize p i m ↔ BlockMarks disk fsize p j m := by
  have hk (k : ℕ) : (i + k) % 65536 = (j + k) % 65536 := by omega
  simp only [BlockMarks, hk]

/-- The turn of a chunk. -/
def chunkTurn (disk : ℤ → Block) (fsize isize : ℤ) (n : ℕ) (seek : ℤ) (inum : ℕ) (l : List Defect)
    (s : St) : Option St :=
  if chunk (limit isize seek l - seek) > IBLK then some s
  else scan disk fsize isize n (seek + max (limit isize seek l - seek) 0)
    ((inum + chunk (limit isize seek l - seek) * INOPB) % 65536) l
    ((List.range (chunk (limit isize seek l - seek))).foldl (fun s (j : ℕ) =>
      lookBlock disk fsize (disk (seek + j)) (inum + j * INOPB) s) s)

lemma scan_nil (h : seek < isize) (n inum : ℕ) (s : St) :
    scan disk fsize isize (n + 1) seek inum [] s = chunkTurn disk fsize isize n seek inum [] s := by
  rw [scan, if_pos h]
  rfl

lemma scan_run (h : seek < isize) (hd : d.d_start = seek) (n inum : ℕ) (s : St) :
    scan disk fsize isize (n + 1) seek inum (d :: l) s =
      scan disk fsize isize n (seek + d.d_length) ((inum + d.d_length.toNat * INOPB) % 65536) l
        s := by
  rw [scan, if_pos h]
  simp only [List.head?_cons, Option.filter, hd, decide_true, if_true, List.tail_cons]

lemma scan_cons (h : seek < isize) (hd : d.d_start ≠ seek) (n inum : ℕ) (s : St) :
    scan disk fsize isize (n + 1) seek inum (d :: l) s =
      chunkTurn disk fsize isize n seek inum (d :: l) s := by
  rw [scan, if_pos h]
  simp only [List.head?_cons, Option.filter, hd, decide_false, Bool.false_eq_true, if_false]
  rfl

/-- At a run that starts behind it the scan reads one place again and again, unless it fails. -/
lemma scan_stale (h : seek < isize) (hd : d.d_start < seek)
    (hc : ¬ chunk (limit isize seek (d :: l) - seek) > IBLK) (n inum : ℕ) (s : St) :
    scan disk fsize isize n seek inum (d :: l) s = none := by
  induction n generalizing inum s with
  | zero => rfl
  | succ n ih =>
    have hlim : limit isize seek (d :: l) - seek < 0 := by
      simp only [limit]
      omega
    rw [scan_cons h hd.ne, chunkTurn, if_neg hc, max_eq_right hlim.le, add_zero]
    exact ih _ _

/-- A chunk that is not negative has its own length. -/
lemma chunk_eq {c : ℤ} (h0 : 0 ≤ c) (h1 : c ≤ IBLK) : (chunk c : ℤ) = c := by
  unfold chunk BSIZE
  unfold IBLK at h1
  omega

lemma firstIno_add {j : ℕ} (h2 : INOORG ≤ seek) :
    firstIno (seek + j) = firstIno seek + j * INOPB := by
  unfold firstIno INOORG at *
  have : (seek + j - 2).toNat = (seek - 2).toNat + j := by omega
  rw [this]
  ring

/-- A chunk ends before the runs that are ahead, and in the i-list. -/
lemma limit_spec (hlt : seek < isize) (hr : Runs l) (hl : ∀ d ∈ l, seek < d.d_start) :
    seek < limit isize seek l ∧ limit isize seek l ≤ isize ∧ limit isize seek l ≤ seek + IBLK ∧
      ∀ d ∈ l, limit isize seek l ≤ d.d_start := by
  have hI : (0 : ℤ) < IBLK := by decide
  cases l with
  | nil =>
    simp only [limit]
    exact ⟨by omega, by omega, by omega, by simp⟩
  | cons d l =>
    have hd := hl d List.mem_cons_self
    have hle : limit isize seek (d :: l) ≤ d.d_start := by
      simp only [limit]
      omega
    simp only [limit] at hle ⊢
    refine ⟨by omega, by omega, by omega, fun e he => ?_⟩
    rcases List.mem_cons.mp he with rfl | he
    · exact hle
    · exact hle.trans (hr.head.2 e he)

lemma chunk_pass (n : ℕ) {inum : ℕ} (h2 : INOORG ≤ seek)
    (hi : inum % 65536 = firstIno seek % 65536) :
    Pass (fun s => (List.range n).foldl (fun s (j : ℕ) =>
        lookBlock disk fsize (disk (seek + j)) (inum + j * INOPB) s) s)
      (fun m => ∃ b, seek ≤ b ∧ b < seek + n ∧ BlockMarks disk fsize (disk b) (firstIno b) m)
      fun _ => False := by
  have h := Pass.foldl (l := List.range n)
    (f := fun s (j : ℕ) => lookBlock disk fsize (disk (seek + j)) (inum + j * INOPB) s)
    fun j _ => (lookBlock_pass (disk (seek + j)) (inum + j * INOPB) :
      Pass (lookBlock disk fsize _ _) _ _)
  have hnum (j : ℕ) : (inum + j * INOPB) % 65536 = firstIno (seek + j) % 65536 := by
    rw [firstIno_add h2]
    omega
  refine h.congr (fun m => ?_) (by simp)
  simp only [List.mem_range, blockMarks_congr (hnum _)]
  constructor
  · rintro ⟨b, h0, h1, hb⟩
    have he : seek + ((b - seek).toNat : ℤ) = b := by omega
    exact ⟨(b - seek).toNat, by omega, by rwa [he]⟩
  · rintro ⟨j, hj, hb⟩
    exact ⟨seek + j, by omega, by omega, hb⟩

/-- **The scan** marks what the inodes of the blocks that it comes to hold. -/
lemma scan_spec {n inum : ℕ} {s s' : St} (hr : Runs l) (h2 : INOORG ≤ seek)
    (hi : inum % 65536 = firstIno seek % 65536)
    (hs : scan disk fsize isize n seek inum l s = some s') (m : ℕ) :
    s'.bitmap m = true ↔ s.bitmap m = true ∨
      ∃ b, Scanned isize seek l b ∧ BlockMarks disk fsize (disk b) (firstIno b) m := by
  induction n generalizing seek inum l s with
  | zero => cases hs
  | succ n ih =>
    rcases le_or_gt isize seek with hend | hlt
    · -- the end of the i-list
      rw [scan, if_neg (by omega)] at hs
      cases hs
      simp only [not_scanned_end hend, false_and, exists_false, or_false]
    -- a chunk in front of the runs
    have hturn (hl : ∀ d ∈ l, seek < d.d_start)
        (hs : chunkTurn disk fsize isize n seek inum l s = some s') :
        s'.bitmap m = true ↔ s.bitmap m = true ∨
          ∃ b, Scanned isize seek l b ∧ BlockMarks disk fsize (disk b) (firstIno b) m := by
      obtain ⟨h3, h4, h5, h6⟩ := limit_spec hlt hr hl
      have hc := chunk_eq (c := limit isize seek l - seek) (by omega) (by omega)
      rw [chunkTurn, if_neg (by omega), max_eq_left (by omega), add_sub_cancel] at hs
      have hnum : (inum + chunk (limit isize seek l - seek) * INOPB) % 65536 % 65536 =
          firstIno (limit isize seek l) % 65536 := by
        have := firstIno_add (j := chunk (limit isize seek l - seek)) h2
        rw [hc, add_sub_cancel] at this
        rw [this]
        omega
      rw [ih hr (by omega) hnum hs, (chunk_pass _ h2 hi).bitmap, hc, add_sub_cancel, or_assoc]
      simp only [scanned_chunk h3 h4 hr h6, or_and_right, exists_or, and_assoc]
    cases l with
    | nil => exact hturn (by simp) (by rwa [scan_nil hlt] at hs)
    | cons d l =>
      rcases lt_trichotomy d.d_start seek with hd | hd | hd
      · -- a run that starts behind
        rw [scan_cons hlt hd.ne] at hs
        by_cases hc : chunk (limit isize seek (d :: l) - seek) > IBLK
        · rw [chunkTurn, if_pos hc] at hs
          cases hs
          simp only [not_scanned_stale hlt hd, false_and, exists_false, or_false]
        · have : scan disk fsize isize (n + 1) seek inum (d :: l) s = none :=
            scan_stale hlt hd hc (n + 1) inum s
          rw [scan_cons hlt hd.ne, hs] at this
          cases this
      · rw [scan_run hlt hd] at hs
        have hpos := hr.head.1
        have hnum : (inum + d.d_length.toNat * INOPB) % 65536 % 65536 =
            firstIno (seek + d.d_length) % 65536 := by
          have := firstIno_add (j := d.d_length.toNat) h2
          rw [Int.toNat_of_nonneg (by omega)] at this
          rw [this]
          omega
        rw [ih hr.tail (by omega) hnum hs]
        simp only [scanned_run hlt hr hd]
      · refine hturn (fun e he => ?_) (by rwa [scan_cons hlt hd.ne'] at hs)
        rcases List.mem_cons.mp he with rfl | he
        · exact hd
        · exact hd.trans_le (hr.head.2 e he)

end marks

/-! ### The new free list -/

/-- A super block and the blocks behind it, as a mounted volume. -/
def vol (v : Filsys × (ℤ → Block)) : Fs :=
  { m_super := v.1
    m_ron := false
    disk := v.2
    rdok := fun _ => true
    u_error := none
    msg := [] }

section build

variable {v : Filsys × (ℤ → Block)} {l : List ℤ} {bn : ℤ}

/-- A free list that was built: it is only empty with nothing in the cache. -/
structure Built (v : Filsys × (ℤ → Block)) (l : List ℤ) : Prop where
  wf : WellFormed (vol v) l
  empty : l = [] → v.1.s_nfree = 0

/-- **The block goes** to the head of the list. -/
lemma Built.bfree (h : Built v l) (h0 : (v.1.s_isize : ℤ) ≤ bn) (h1 : bn < v.1.s_fsize)
    (hb : bn ∉ l) : Built (bfree v bn) (bn :: l) := by
  obtain ⟨sb, disk⟩ := v
  obtain ⟨hwf, hempty⟩ := h
  simp only at h0 h1 hempty
  have hi : 2 ≤ sb.s_isize := hwf.isize
  have hb0 : bn ≠ 0 := by omega
  have ht : sb.s_tfree = l.length := hwf.tfree
  have hchain : Chain disk sb.s_nfree sb.s_free l := hwf.chain
  have hle : sb.s_nfree ≤ NICFREE := hwf.nfree
  refine ⟨⟨?_, ?_, ?_, ?_, ?_, hwf.isize, hwf.fsize⟩, by simp⟩
  · simp only [vol, Icheck.bfree]
    by_cases hnil : l = []
    · -- the last block of the list is cleared
      subst hnil
      have hn := hempty rfl
      have hne : ¬ (0 : ℕ) = NICFREE := by decide
      have hz : df_nfree (fun _ => 0 : Block) = 0 := by decide
      rw [hn, if_neg hne, if_neg hne, if_pos (by simpa using ht)]
      have hl : Chain (Function.update disk bn fun _ => 0) 1 (Function.update sb.s_free 0 bn) _ :=
        .link (l := []) (by simpa using hb0) (by simp [hz]) (by
          rw [Function.update_self, Function.update_self, hz]
          exact .empty _)
      simpa using hl
    · have hpos : sb.s_tfree ≠ 0 := by
        rw [ht]
        simpa using hnil
      rw [if_neg hpos]
      by_cases hfull : sb.s_nfree = NICFREE
      · -- the block takes over the cache
        rw [if_pos hfull, if_pos hfull, ← hfull]
        set d := Function.update disk bn (fblk sb.s_nfree sb.s_free) with hd
        have hk : Chain d _ _ l := hwf.chain_fblk.congr_disk fun c hc =>
          Function.update_of_ne (by rintro rfl; exact hb hc) _ _
        have hl : Chain d 1 (Function.update sb.s_free 0 bn) _ :=
          .link (by simpa using hb0) (by simpa [hd, df_nfree_fblk _ _ hle] using hle)
            (by simpa [hd, vol] using hk)
        simpa using hl
      · rw [if_neg hfull, if_neg hfull]
        obtain ⟨m, hm⟩ : ∃ m, sb.s_nfree = m + 1 := by
          refine Nat.exists_eq_succ_of_ne_zero fun e => hnil ?_
          rw [e] at hchain
          cases hchain
          rfl
        have hc : Chain disk (m + 1) (Function.update sb.s_free (m + 1) bn) l :=
          (hm ▸ hchain).congr_free fun i hi => Function.update_of_ne (by omega) _ _
        have := Chain.entry (by simpa using hb0) hc
        simpa [hm] using this
  · simp only [vol, Icheck.bfree]
    split_ifs
    · decide
    · omega
  · intro c hc
    rcases List.mem_cons.mp hc with rfl | hc
    · exact ⟨h0, h1⟩
    · exact hwf.range c hc
  · exact List.nodup_cons.mpr ⟨hb, hwf.nodup⟩
  · simp only [vol, Icheck.bfree, ht, List.length_cons]
    push_cast
    ring

lemma Built.foldl (h : Built v l) {bs : List ℤ}
    (hr : ∀ b ∈ bs, (v.1.s_isize : ℤ) ≤ b ∧ b < v.1.s_fsize) (hnd : (bs.reverse ++ l).Nodup) :
    Built (bs.foldl Icheck.bfree v) (bs.reverse ++ l) := by
  induction bs generalizing v l with
  | nil => simpa using h
  | cons b bs ih =>
    obtain ⟨h0, h1⟩ := hr b List.mem_cons_self
    rw [List.reverse_cons, List.append_assoc, List.singleton_append] at hnd ⊢
    have hb : b ∉ l := (List.nodup_cons.mp (List.nodup_append.mp hnd).2.1).1
    exact ih (h.bfree h0 h1 hb) (fun c hc => hr c (List.mem_cons_of_mem _ hc)) hnd

end build

/-- The image as the kernel mounts it. -/
def mounted (disk : ℤ → Block) : Fs := vol (getSuper (disk SUPERI), disk)

section super

variable {sb : Filsys} {p : Block}

lemma getw_update {a i : ℕ} {x : UInt8} (h : a ≠ i ∧ a + 1 ≠ i) :
    getw (Function.update p i x) a = getw p a := by
  rw [getw, Function.update_of_ne h.1, Function.update_of_ne h.2, getw]

lemma getl_update {a i : ℕ} {x : UInt8} (h : a + 4 ≤ i ∨ i < a) :
    getl (Function.update p i x) a = getl p a := by
  rw [getl, getw_update (by omega), getw_update (by omega), getl]

lemma getl_putws_of_ne {o n a : ℕ} {f : ℕ → ℕ} (h : a + 4 ≤ o ∨ o + 2 * n ≤ a) :
    getl (putws p o n f) a = getl p a := by
  rw [getl, getw_putws_of_disjoint (by omega), getw_putws_of_disjoint (by omega), getl]

lemma getl_putls_of_ne {o n a : ℕ} {f : ℕ → ℕ} (h : a + 4 ≤ o ∨ o + 4 * n ≤ a) :
    getl (putls p o n f) a = getl p a := by
  rw [getl, getw_putls (by omega), getw_putls (by omega), getl]

lemma putSuper_isize (h : sb.s_isize < 65536) :
    (getSuper (putSuper sb p)).s_isize = sb.s_isize := by
  have hg : getw (putSuper sb p) 0 = canw sb.s_isize % 65536 := by
    simp (disch := omega) only [putSuper, NICFREE, NICINOD, getw_putl_of_ne, getw_putw_of_ne,
      getw_update, getw_putws_of_disjoint, getw_putls, getw_putw_self]
  simp only [getSuper, hg]
  rw [Nat.mod_eq_of_lt (canw_lt _), canw_canw, Nat.mod_eq_of_lt h]

lemma putSuper_nfree (h : sb.s_nfree < 65536) :
    (getSuper (putSuper sb p)).s_nfree = sb.s_nfree := by
  have hg : getw (putSuper sb p) 6 = canw sb.s_nfree % 65536 := by
    simp (disch := omega) only [putSuper, NICFREE, NICINOD, getw_putl_of_ne, getw_putw_of_ne,
      getw_update, getw_putws_of_disjoint, getw_putls, getw_putw_self]
  simp only [getSuper, hg]
  rw [Nat.mod_eq_of_lt (canw_lt _), canw_canw, Nat.mod_eq_of_lt h]

lemma long_canl_ulong {x : ℤ} (h0 : -2147483648 ≤ x) (h1 : x < 2147483648) :
    long (canl (canl (ulong x) % 4294967296)) = x := by
  rw [Nat.mod_eq_of_lt (canl_lt _), canl_canl, Nat.mod_eq_of_lt (ulong_lt _), long_ulong h0 h1]

lemma putSuper_fsize (h0 : -2147483648 ≤ sb.s_fsize) (h1 : sb.s_fsize < 2147483648) :
    (getSuper (putSuper sb p)).s_fsize = sb.s_fsize := by
  have hg : getl (putSuper sb p) 2 = canl (ulong sb.s_fsize) % 4294967296 := by
    simp (disch := omega) only [putSuper, NICFREE, NICINOD, getl_putl_of_ne, getl_putw_of_ne,
      getl_update, getl_putws_of_ne, getl_putls_of_ne, getl_putl_self]
  simp only [getSuper, hg]
  exact long_canl_ulong h0 h1

lemma putSuper_tfree (h0 : -2147483648 ≤ sb.s_tfree) (h1 : sb.s_tfree < 2147483648) :
    (getSuper (putSuper sb p)).s_tfree = sb.s_tfree := by
  have hg : getl (putSuper sb p) 474 = canl (ulong sb.s_tfree) % 4294967296 := by
    simp (disch := omega) only [putSuper, NICFREE, NICINOD, getl_putl_of_ne, getl_putw_of_ne,
      getl_putl_self]
  simp only [getSuper, hg]
  exact long_canl_ulong h0 h1

lemma putSuper_free {i : ℕ} (hi : i < NICFREE) (h0 : -2147483648 ≤ sb.s_free i)
    (h1 : sb.s_free i < 2147483648) : (getSuper (putSuper sb p)).s_free i = sb.s_free i := by
  have hg : getl (putSuper sb p) (8 + 4 * i) = canl (ulong (sb.s_free i)) % 4294967296 := by
    unfold NICFREE at hi
    simp (disch := omega) only [putSuper, NICFREE, NICINOD, getl_putl_of_ne, getl_putw_of_ne,
      getl_update, getl_putws_of_ne]
    rw [getl_putls hi]
  simp only [getSuper, hg]
  exact long_canl_ulong h0 h1

end super

lemma WellFormed.length_le {fs : Fs} {l : List ℤ} (h : WellFormed fs l)
    (hf : (fs.m_super.s_isize : ℤ) ≤ fs.m_super.s_fsize) :
    (l.length : ℤ) ≤ fs.m_super.s_fsize - fs.m_super.s_isize := by
  have hsub : l.toFinset ⊆ Finset.Ico (fs.m_super.s_isize : ℤ) fs.m_super.s_fsize := by
    intro b hb
    exact Finset.mem_Ico.mpr (h.range b (List.mem_toFinset.mp hb))
  have := Finset.card_le_card hsub
  rw [List.toFinset_card_of_nodup h.nodup, Int.card_Ico] at this
  omega

/-- A list in a super block is there when the kernel has read that block again. -/
lemma WellFormed.written {v : Filsys × (ℤ → Block)} {l : List ℤ} (h : WellFormed (vol v) l)
    (hi : v.1.s_isize < 65536) (hif : (v.1.s_isize : ℤ) ≤ v.1.s_fsize) (p : Block) :
    WellFormed (mounted (Function.update v.2 SUPERI (putSuper v.1 p))) l := by
  have hle : v.1.s_nfree ≤ NICFREE := h.nfree
  have hf : v.1.s_fsize < 2147483648 := h.fsize
  have ht : v.1.s_tfree = l.length := h.tfree
  have hlen : (l.length : ℤ) ≤ v.1.s_fsize - v.1.s_isize := WellFormed.length_le h hif
  have hgi : (getSuper (putSuper v.1 p)).s_isize = v.1.s_isize := putSuper_isize hi
  have hgn : (getSuper (putSuper v.1 p)).s_nfree = v.1.s_nfree :=
    putSuper_nfree (lt_of_le_of_lt hle (by decide))
  have hgf : (getSuper (putSuper v.1 p)).s_fsize = v.1.s_fsize := putSuper_fsize (by omega) hf
  have hgt : (getSuper (putSuper v.1 p)).s_tfree = v.1.s_tfree :=
    putSuper_tfree (by omega) (by omega)
  unfold mounted
  rw [Function.update_self]
  refine ⟨?_, ?_, ?_, h.nodup, ?_, ?_, ?_⟩ <;> simp only [vol]
  · rw [hgn]
    refine (h.chain.congr_free fun i hi => ?_).congr_disk fun b hb => ?_
    · have hlong := h.entry_long hi
      exact putSuper_free (lt_of_lt_of_le hi hle) hlong.1 hlong.2
    · exact Function.update_of_ne (h.ne_super hb) _ _
  · rw [hgn]
    exact hle
  · rw [hgi, hgf]
    exact h.range
  · rw [hgt, ht]
  · rw [hgi]
    exact h.isize
  · rw [hgf]
    exact hf

/-- Repeated allocation takes a well-formed list off, and then finds no space. -/
lemma WellFormed.exhausts {fs : Fs} {l : List ℤ} (h : WellFormed fs l) (hw : fs.m_ron = false)
    (hr : ∀ b, fs.rdok b = true) : DiskPy.HandsOut fs l := by
  have hall : (DiskPy.ballocs l.length fs).1 = l ∧
      WellFormed (DiskPy.ballocs l.length fs).2 [] ∧
      (DiskPy.ballocs l.length fs).2.m_ron = false := by
    induction l generalizing fs with
    | nil => exact ⟨rfl, h, hw⟩
    | cons b l ih =>
      obtain ⟨hb, -, hwf⟩ := balloc_cons h hw hr
      have hv := balloc_sameVolume fs
      obtain ⟨h1, h2, h3⟩ := ih hwf (by rw [hv.ron, hw]) (by rw [hv.rdok]; exact hr)
      exact ⟨by simp [DiskPy.ballocs, hb, h1], h2, h3⟩
  obtain ⟨h1, h2, h3⟩ := hall
  obtain ⟨h4, h5, -⟩ := balloc_nil h2 h3
  exact ⟨by rw [h1], h4, h5⟩

/-! ### What is freed -/

section image

variable (disk : ℤ → Block)

def s_isize : ℤ := (getSuper (disk SUPERI)).s_isize
def s_fsize : ℤ := (getSuper (disk SUPERI)).s_fsize

/-- The mode and the addresses of a disk inode. -/
def modeOf (i : ℕ) : ℕ := di_mode (disk (iblockn i)) (iblocko i)
def addrsOf (i : ℕ) : ℕ → ℤ := di_addr (disk (iblockn i)) (iblocko i)

/-- In range in the tree of the bad-block file. -/
def InBadFile (c : ℤ) : Prop :=
  modeOf disk BADFIN &&& IFMT = IFREG ∧ InTree disk (s_fsize disk) (addrsOf disk BADFIN) c

/-- A block that the bad-block file names as defective. -/
def Named (b : ℤ) : Prop :=
  modeOf disk BADFIN &&& IFMT = IFREG ∧ IsData disk (s_fsize disk) (addrsOf disk BADFIN) b

/-- A regular file or a directory, in a block of the i-list that is not defective. -/
structure Allocated (i : ℕ) : Prop where
  pos : 1 ≤ i
  lt : i < 65536
  ilist : iblockn i < s_isize disk
  file : IsFile (modeOf disk i)
  good : ¬ Named disk (iblockn i)

/-- A block in use. -/
def InUse (c : ℤ) : Prop :=
  InBadFile disk c ∨ ∃ i, Allocated disk i ∧ InTree disk (s_fsize disk) (addrsOf disk i) c

/-- The free list of an image is one that the kernel can exhaust, block by block, and holds no block
that was in use before. -/
def Safe (gs : ℤ → Block) : Prop :=
  ∃ l, WellFormed (mounted gs) l ∧ DiskPy.HandsOut (mounted gs) l ∧ ∀ b ∈ l, ¬ InUse disk b

/-- The runs of defective blocks. -/
def defects : List Defect :=
  (finddefective disk (s_fsize disk) ⟨fun _ => false, [], [], 0⟩).deflist

/-- Where the scan of the i-list ends. -/
def scanEnd : ℤ := stop (s_isize disk) INOORG (defects disk)

/-- The inode `k` of a block of the i-list is looked at, as one that has an address tree. -/
structure Looked (b : ℤ) (k : ℕ) : Prop where
  first : INOORG ≤ b
  last : b < scanEnd disk
  good : ¬ Named disk b
  slot : k < INOPB
  inum : (firstIno b + k) % 65536 ≠ BADFIN ∧ (firstIno b + k) % 65536 ≠ 0
  file : IsFile (di_mode (disk b) k)

/-- Found in use. -/
def Seen (c : ℤ) : Prop :=
  InBadFile disk c ∨ ∃ b k, Looked disk b k ∧ InTree disk (s_fsize disk) (di_addr (disk b) k) c

/-- Of the inodes that the scan does not come to, and of the bad-block file if it is a directory,
each block is found in use otherwise, or its bit is that of such a block. -/
def Unmissed : Prop :=
  ∀ i, Allocated disk i → i = BADFIN ∨ scanEnd disk ≤ iblockn i →
    ∀ c, InTree disk (s_fsize disk) (addrsOf disk i) c → s_isize disk ≤ c →
      ∃ c', Seen disk c' ∧ bit c' = bit c

end image

section check

variable {disk : ℤ → Block}

lemma finddefective_eq (s : St) : finddefective disk (s_fsize disk) s =
    if modeOf disk BADFIN &&& IFMT = IFREG then
      crawlAll disk (s_fsize disk) .BAD BADFIN (addrsOf disk BADFIN) s
    else s := rfl

/-- **The bad-block file** is marked, and its data blocks make the runs. -/
lemma finddefective_spec :
    (∀ m, (finddefective disk (s_fsize disk) ⟨fun _ => false, [], [], 0⟩).bitmap m = true ↔
      ∃ c, InBadFile disk c ∧ bit c = m) ∧
    Runs (defects disk) ∧ ∀ x, Covered (defects disk) x ↔ Named disk x := by
  have hn : BADFIN ≠ 0 := by decide
  unfold defects
  rw [finddefective_eq]
  by_cases hr : modeOf disk BADFIN &&& IFMT = IFREG
  · rw [if_pos hr]
    have h : Pass (crawlAll disk (s_fsize disk) .BAD BADFIN (addrsOf disk BADFIN)) _ _ :=
      crawlAll_pass .BAD BADFIN (addrsOf disk BADFIN)
    refine ⟨fun m => (h.bitmap _ m).trans ?_, h.runs _ Runs.nil,
      fun x => (h.covered _ Runs.nil x).trans ?_⟩
    · simp [InBadFile, hr, hn]
    · simp [Named, hr, Covered]
  · rw [if_neg hr]
    refine ⟨fun m => ?_, Runs.nil, fun x => ?_⟩
    · simp [InBadFile, hr]
    · simp [Named, hr, Covered]

/-- What is marked in the end is what was found in use. -/
lemma bitmap_iff {turns : ℕ} {s : St}
    (hs : scan disk (s_fsize disk) (s_isize disk) turns INOORG 1 (defects disk)
      (finddefective disk (s_fsize disk) ⟨fun _ => false, [], [], 0⟩) = some s) (m : ℕ) :
    s.bitmap m = true ↔ ∃ c, Seen disk c ∧ bit c = m := by
  obtain ⟨hb, hruns, hcov⟩ := @finddefective_spec disk
  rw [scan_spec hruns le_rfl (by rfl) hs, hb]
  simp only [Scanned, hcov]
  constructor
  · rintro (⟨c, hc, hm⟩ | ⟨b, ⟨h0, h1, h2⟩, k, hk, hn1, hn0, hf, c, hc, hm⟩)
    · exact ⟨c, .inl hc, hm⟩
    · exact ⟨c, .inr ⟨b, k, ⟨h0, h1, h2, hk, ⟨hn1, hn0⟩, hf⟩, hc⟩, hm⟩
  · rintro ⟨c, hc | ⟨b, k, ⟨h0, h1, h2, hk, ⟨hn1, hn0⟩, hf⟩, hc⟩, hm⟩
    · exact .inl ⟨c, hc, hm⟩
    · exact .inr ⟨b, ⟨h0, h1, h2⟩, k, hk, hn1, hn0, hf, c, hc, hm⟩

lemma mem_unmarked {isize fsize : ℤ} {bitmap : ℕ → Bool} {b : ℤ} :
    b ∈ unmarked isize fsize bitmap ↔ isize ≤ b ∧ b < fsize ∧ ¬ bitmap (bit b) = true := by
  unfold unmarked
  rw [List.mem_filter, List.mem_map]
  simp only [List.mem_range, Bool.not_eq_true', Bool.not_eq_true]
  constructor
  · rintro ⟨⟨k, hk, rfl⟩, hb⟩
    exact ⟨by omega, by omega, hb⟩
  · rintro ⟨h0, h1, hb⟩
    exact ⟨⟨(fsize - 1 - b).toNat, by omega, by omega⟩, hb⟩

lemma nodup_unmarked (isize fsize : ℤ) (bitmap : ℕ → Bool) :
    (unmarked isize fsize bitmap).Nodup := by
  refine List.Nodup.filter _ (List.Nodup.map ?_ List.nodup_range)
  intro i j hij
  simp only at hij
  omega

/-- **The new free list** is that of all blocks that are not marked. -/
lemma makesuper_wf (h3 : INOORG + 1 ≤ s_isize disk) (hif : s_isize disk < s_fsize disk) (s : St) :
    WellFormed (mounted (makesuper disk s))
      (unmarked (s_isize disk) (s_fsize disk) s.bitmap).reverse := by
  have hlt : s_fsize disk < 2147483648 := by
    have := canl_lt (getl (disk SUPERI) 2)
    simp only [s_fsize, getSuper, long]
    split_ifs <;> omega
  have hi16 : (getSuper (disk SUPERI)).s_isize < 65536 := canw_lt _
  unfold INOORG at h3
  unfold makesuper
  simp only
  set sb : Filsys := { getSuper (disk SUPERI) with
    s_ninode := s.freei.length
    s_inode := fun k =>
      if k < s.freei.length then s.freei.getD (s.freei.length - 1 - k) 0
      else if k < NICFREE then 0 else (getSuper (disk SUPERI)).s_inode k
    s_tinode := s.nifree
    s_nfree := 0
    s_tfree := 0 } with hsb
  have hstart : Built (sb, disk) [] := by
    refine ⟨⟨.empty _, Nat.zero_le _, by simp, List.nodup_nil, rfl, ?_, hlt⟩, fun _ => rfl⟩
    change 2 ≤ (getSuper (disk SUPERI)).s_isize
    unfold s_isize at h3
    omega
  have hnd := nodup_unmarked (s_isize disk) (s_fsize disk) s.bitmap
  have hb : Built ((unmarked (s_isize disk) (s_fsize disk) s.bitmap).foldl bfree (sb, disk)) _ :=
    hstart.foldl (fun b hb => ⟨(mem_unmarked.mp hb).1, (mem_unmarked.mp hb).2.1⟩)
      (by rw [List.append_nil]; exact List.nodup_reverse.mpr hnd)
  rw [List.append_nil] at hb
  -- the sizes are those of before
  have hsize : ∀ (bs : List ℤ) (v : Filsys × (ℤ → Block)),
      (bs.foldl bfree v).1.s_isize = v.1.s_isize ∧ (bs.foldl bfree v).1.s_fsize = v.1.s_fsize := by
    intro bs
    induction bs with
    | nil => exact fun v => ⟨rfl, rfl⟩
    | cons b bs ih => exact fun v => ih (bfree v b)
  obtain ⟨he1, he2⟩ := hsize (unmarked (s_isize disk) (s_fsize disk) s.bitmap) (sb, disk)
  exact WellFormed.written hb.wf (by rw [he1]; exact hi16) (by rw [he1, he2]; exact hif.le) _

lemma firstIno_iblockn {i : ℕ} (h : 1 ≤ i) : firstIno (iblockn i) + iblocko i = i := by
  unfold firstIno iblockn iblocko INOORG INODEI INOPB
  omega

/-- What there is when `makesuper` is reached. -/
lemma icheck_some {turns : ℕ} {gs : ℤ → Block} (h : icheck turns disk = some gs) :
    INOORG + 1 ≤ s_isize disk ∧ s_isize disk < s_fsize disk ∧ ∃ s,
      scan disk (s_fsize disk) (s_isize disk) turns INOORG 1 (defects disk)
        (finddefective disk (s_fsize disk) ⟨fun _ => false, [], [], 0⟩) = some s ∧
      gs = makesuper disk s := by
  unfold icheck at h
  simp only at h
  split_ifs at h with hsz hbits hlen
  unfold s_isize s_fsize
  refine ⟨by omega, by omega, ?_⟩
  split at h
  · cases h
  · rename_i s hs
    split at h
    · cases h
    · exact ⟨s, hs, (Option.some.inj h).symm⟩

/-- An allocated inode is looked at, unless it is that of the bad-block file or the scan ends
before. -/
lemma Allocated.looked {i : ℕ} (h : Allocated disk i) (h1 : i ≠ BADFIN)
    (hend : iblockn i < scanEnd disk) : Looked disk (iblockn i) (iblocko i) where
  first := by
    unfold INOORG iblockn INODEI INOPB
    omega
  last := hend
  good := h.good
  slot := Nat.mod_lt _ (by decide)
  inum := by
    have hpos := h.pos
    rw [firstIno_iblockn hpos, Nat.mod_eq_of_lt h.lt]
    exact ⟨h1, by omega⟩
  file := h.file

/-- The new list is safe if each block in use is marked. -/
lemma safe_iff_marked (h3 : INOORG + 1 ≤ s_isize disk) (hif : s_isize disk < s_fsize disk)
    (s : St) :
    Safe disk (makesuper disk s) ↔ ∀ b, s_isize disk ≤ b → b < s_fsize disk → InUse disk b →
      s.bitmap (bit b) = true := by
  have hwf := makesuper_wf h3 hif s
  constructor
  · rintro ⟨l, hl, -, hsafe⟩ b h0 h1 huse
    rw [hl.chain.unique hwf.chain] at hsafe
    by_contra hb
    exact hsafe b (List.mem_reverse.mpr (mem_unmarked.mpr ⟨h0, h1, hb⟩)) huse
  · intro hall
    refine ⟨_, hwf, WellFormed.exhausts hwf rfl fun _ => rfl, fun b hb huse => ?_⟩
    obtain ⟨h0, h1, hb⟩ := mem_unmarked.mp (List.mem_reverse.mp hb)
    exact hb (hall b h0 h1 huse)

/-- Past runs that do not overlap, and are all ahead, the scan comes to the end of the i-list. -/
lemma stop_eq {isize seek : ℤ} {l : List Defect}
    (hl : l.Pairwise fun d e => d.d_start + d.d_length ≤ e.d_start)
    (hseek : ∀ d ∈ l, seek ≤ d.d_start) : stop isize seek l = isize := by
  induction l generalizing seek with
  | nil => rfl
  | cons d l ih =>
    obtain ⟨hd, hl⟩ := List.pairwise_cons.mp hl
    have := hseek d List.mem_cons_self
    rw [stop]
    split_ifs with h1 h2
    · rfl
    · omega
    · exact ih hl hd

/-- Nothing is missed if the bad-block file makes such runs and is no directory. -/
lemma Unmissed.of_runs (hdir : modeOf disk BADFIN &&& IFMT ≠ IFDIR)
    (hl : (defects disk).Pairwise fun d e => d.d_start + d.d_length ≤ e.d_start)
    (hseek : ∀ d ∈ defects disk, INOORG ≤ d.d_start) : Unmissed disk := by
  rintro i hi (rfl | hend) c hc _
  · exact ⟨c, .inl ⟨hi.file.resolve_right hdir, hc⟩, rfl⟩
  · rw [scanEnd, stop_eq hl hseek] at hend
    exact absurd hend (not_le.mpr hi.ilist)

/-- **`icheck -s`** leaves a safe free list if and only if no block is missed for the scan's early
end. -/
theorem icheck_safe_iff (turns : ℕ) (disk gs : ℤ → Block) (h : icheck turns disk = some gs) :
    Safe disk gs ↔ Unmissed disk := by
  obtain ⟨h3, hif, s, hs, rfl⟩ := icheck_some h
  rw [safe_iff_marked h3 hif]
  simp only [bitmap_iff hs]
  constructor
  · intro hall i hi _ c hc hge
    exact hall c hge hc.1.2 (.inr ⟨i, hi, hc⟩)
  · rintro hun b hge _ (hbad | ⟨i, hi, hc⟩)
    · exact ⟨b, .inl hbad, rfl⟩
    · by_cases hmiss : i = BADFIN ∨ scanEnd disk ≤ iblockn i
      · exact hun i hi hmiss b hc hge
      · -- the inode is looked at
        rw [not_or, not_le] at hmiss
        exact ⟨b, .inr ⟨_, _, hi.looked hmiss.1 hmiss.2, hc⟩, rfl⟩

end check

/-- A volume of 8 blocks, with the i-list in 2, 3 and 4. The bad-block file names block 3 and the
block `n`; inode 17, in block 4, is a file with block 6. -/
def smallDisk (n : UInt8) : ℤ → Block := fun b i =>
  if b = 1 then (if i = 0 then 5 else if i = 4 then 8 else 0)
  else if b = 2 then (if i = 1 then 0x80 else if i = 13 then 3 else if i = 16 then n else 0)
  else if b = 4 then (if i = 1 then 0x80 else if i = 13 then 6 else 0)
  else 0

theorem smallDisk_safe : ∃ gs, icheck 8 (smallDisk 7) = some gs ∧ Safe (smallDisk 7) gs := by
  obtain ⟨gs, hgs⟩ : ∃ gs, icheck 8 (smallDisk 7) = some gs :=
    Option.isSome_iff_exists.mp (by decide +kernel)
  refine ⟨gs, hgs, (icheck_safe_iff 8 (smallDisk 7) gs hgs).mpr ?_⟩
  exact .of_runs (by decide +kernel) (by decide +kernel) (by decide +kernel)

/-- With block 3 named twice the scan ends before block 4, and block 6 goes to the free list. -/
theorem smallDisk_frees_used : ∃ gs, icheck 8 (smallDisk 3) = some gs ∧
    ¬ Safe (smallDisk 3) gs := by
  obtain ⟨gs, hgs⟩ : ∃ gs, icheck 8 (smallDisk 3) = some gs :=
    Option.isSome_iff_exists.mp (by decide +kernel)
  obtain ⟨h3, hif, s, hs, rfl⟩ := icheck_some hgs
  refine ⟨_, hgs, fun hsafe => ?_⟩
  have huse : InUse (smallDisk 3) 6 := by
    refine .inr ⟨17, ⟨by decide, by decide, by decide +kernel, by decide +kernel, ?_⟩, ?_⟩
    · rw [← finddefective_spec.2.2]
      unfold Covered
      decide +kernel
    · refine ⟨by unfold InRange; decide +kernel, 0, by decide, ?_⟩
      have h6 : addrsOf (smallDisk 3) 17 0 = 6 := by decide +kernel
      rw [h6]
      exact Radix.self_mem (by decide)
  have hb := (safe_iff_marked h3 hif s).mp hsafe 6 (by decide +kernel) (by decide +kernel) huse
  have hmap : (scan (smallDisk 3) (s_fsize (smallDisk 3)) (s_isize (smallDisk 3)) 8 INOORG 1
      (defects (smallDisk 3)) (finddefective (smallDisk 3) (s_fsize (smallDisk 3))
        ⟨fun _ => false, [], [], 0⟩)).map (fun s => s.bitmap 6) = some false := by decide +kernel
  rw [hs] at hmap
  have h6 : bit 6 = 6 := by decide
  rw [h6] at hb
  exact absurd (Option.some.inj hmap) (by simp [hb])

end Coherent.Icheck
