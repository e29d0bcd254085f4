import Coherent.Lib.Run
import Coherent.Lib.WriteBack
import Coherent.FreeChain
import Coherent.InodeCodec

/-!
The allocator of `restor`, which works on the unmounted disk behind a small cache of its own.

A function has no result where the program stops with a message. What is written into a buffer while
it is held is written when it is let go.
-/

namespace Coherent.Restor

open Coherent.Can Coherent.Super Coherent.FreeList Coherent.InodeCodec Coherent.Lib
open Coherent.FileMap (NBN ND NADDR dentry)
open Coherent.Itable (IFMT IFDIR IFREG)
open Coherent.Lib.WriteBack (Cache read zero free flush view refs total Coh)

def NRBUF : ℕ := 10
def L2NBN : ℕ := 7

abbrev Disc := Cache ℤ Block

/-! ### The super block, in the order of the disk -/

def canshort (p : Block) (o : ℕ) : Block := putw p o (canw (getw p o))

def candaddr (p : Block) (o : ℕ) : Block := putl p o (canl (getl p o))

/-- What `bfree` makes of the super block. -/
def bfreeSuper (p : Block) (bn : ℤ) : Block :=
  let p := canshort p 6
  let p := if getw p 6 = NICFREE then putw p 6 0 else p
  let p := putl p (8 + 4 * getw p 6) (canl (ulong bn))
  let p := canshort (putw p 6 (getw p 6 + 1)) 6
  let p := candaddr p 474
  candaddr (putl p 474 (getl p 474 + 1)) 474

/-- What it makes of the block, when the list in the super block is full. -/
def bfreeFblk (p q : Block) : Block :=
  putls (canshort (putw q 0 (getw (canshort p 6) 6)) 0) 2 NICFREE fun i => getl p (8 + 4 * i)

/-- What `balloc` makes of the super block, when the list there is `nfree` blocks long. -/
def ballocSuper (p : Block) (nfree : ℕ) (tfree : ℕ) : Block :=
  putl (putw p 6 (canw nfree)) 474 (canl tfree)

/-! ### Blocks -/

/-- The block goes on the list; its buffer may be held. -/
def onlist (c : Disc) (bn : ℤ) (dbp1 : Option Block) : Option Disc := do
  let (p, c) ← read c SUPERI
  if canw (getw p 6) = NICFREE then
    let (q, c) ← match dbp1 with
      | some q => some (q, c)
      | none => read c bn
    some (free (free c bn (bfreeFblk p q) true) SUPERI (bfreeSuper p bn) true)
  else
    let c := match dbp1 with
      | some q => free c bn q false
      | none => c
    some (free c SUPERI (bfreeSuper p bn) true)

/-- Free a block, and with `nil` levels of indirect blocks those it leads to. -/
def bfree : ℕ → Disc → ℤ → Option Disc
  | 0, c, bn => if bn = 0 then some c else onlist c bn none
  | nil + 1, c, bn =>
    if bn = 0 then some c
    else do
      let (q, c) ← read c bn
      let c ← (List.range NBN).foldlM
        (fun c i => if getl q (4 * i) ≠ 0 then bfree nil c (dentry q i) else some c) c
      onlist c bn (some q)

/-- Allocate a block. -/
def balloc (c : Disc) : Option (ℤ × Disc) := do
  let (p, c) ← read c SUPERI
  if getl p 474 = 0 then none
  else
    let tfree := canl (getl p 474)
    let nfree := canw (getw p 6) - 1
    let bn := getl p (8 + 4 * nfree)
    if bn = 0 then none
    else
      let bn := long (canl bn)
      if nfree = 0 then do
        let (q, c) ← read c bn
        let p := putls p 8 NICFREE fun i => getl q (2 + 4 * i)
        some (bn, free (free c bn q false) SUPERI
          (ballocSuper p (canw (getw q 0)) (tfree - 1)) true)
      else some (bn, free c SUPERI (ballocSuper p nfree (tfree - 1)) true)

/-! ### Inodes -/

/-- The block of an inode. -/
def iblock (ino : ℕ) : ℤ := (ino - 1) / InodeCodec.INOPB + INODEI

/-- The blocks of an inode: each address and how many levels of indirect blocks it has. -/
def naddrs (dip : Block) : List (ℤ × ℕ) :=
  (List.range NADDR).map fun i => (l3 dip (12 + 3 * i), i - (NADDR - 4))

/-- An inode in its block. -/
def dinode (p : Block) (ino : ℕ) : Block := fun i => p (iblocko ino + i)

/-- Clear an inode. -/
def clri (c : Disc) (ino : ℕ) : Option Disc := do
  let (p, c) ← read c (iblock ino)
  let dip := dinode p ino
  let dimode := canw (getw dip 0)
  let c ←
    if dimode &&& IFMT = IFDIR ∨ dimode &&& IFMT = IFREG then
      (naddrs dip).foldlM (fun c a => bfree a.2 c a.1) c
    else some c
  some (free c (iblock ino)
    (fun i => if iblocko ino ≤ i ∧ i < iblocko ino + 64 then 0 else p i) true)

def shifts (il : ℕ) : ℕ := 2 ^ (il * L2NBN)

/-- The buffer of a block, empty if the block is new. -/
def dbget (newblock : Bool) (c : Disc) (pb : ℤ) : Option (Block × Disc) :=
  if newblock then (zero (fun _ => 0) c pb).map ((fun _ => 0), ·) else read c pb

/-- Through `il` levels of indirect blocks from the block `pb`. Blocks that are not there are
allocated; the last component is those. -/
def descend : ℕ → Disc → ℤ → ℕ → Bool → Option (ℤ × Bool × Disc × List ℤ)
  | 0, c, pb, _, newblock => some (pb, newblock, c, [])
  | il + 1, c, pb, lb, newblock => do
    let (q, c) ← dbget newblock c pb
    let bpos := lb / shifts il
    if dentry q bpos = 0 then
      let (b, c) ← balloc c
      let c := free c pb (putl q (4 * bpos) (canl (ulong b))) true
      let (pb, newblock, c, bs) ← descend il c b (lb % shifts il) true
      some (pb, newblock, c, b :: bs)
    else descend il (free c pb q false) (dentry q bpos) (lb % shifts il) false

/-- Where the blocks of `il` levels of indirect blocks end. -/
def ranges : ℕ → ℕ
  | 0 => ND
  | il + 1 => ranges il + shifts (il + 1)

/-- The address of block `lb` of a file: its number in the inode, the levels of indirect blocks,
and the block within. -/
def level (lb : ℕ) : Option (ℕ × ℕ × ℕ) :=
  if lb < ranges 0 then some (lb, 0, 0)
  else if lb < ranges 1 then some (ND, 1, lb - ranges 0)
  else if lb < ranges 2 then some (ND + 1, 2, lb - ranges 1)
  else if lb < ranges 3 then some (ND + 2, 3, lb - ranges 2)
  else none

/-- The block that the inode names in its place `k`; it is allocated if there is none. The last
component is the blocks that have been. -/
def iaddr (c : Disc) (dip : Block) (k : ℕ) : Option (Block × ℤ × Bool × Disc × List ℤ) :=
  let addr := l3tol (fun _ => 0) 0 dip 12 NADDR
  let pb := long (getl addr (4 * k))
  if pb = 0 then
    (balloc c).map fun (b, c) =>
      (ltol3 dip 12 (putl addr (4 * k) (ulong b)) 0 NADDR, b, true, c, [b])
  else some (dip, pb, false, c, [])

/-- The buffer of block `lb` of a file: the inode, the block, its contents, and the blocks that
have been allocated. There is none behind the largest file. -/
def dbimap (c : Disc) (dip : Block) (lb : ℕ) : Option (Block × ℤ × Block × Disc × List ℤ) := do
  let (k, il, lb) ← level lb
  let (dip, pb, newblock, c, bs) ← iaddr c dip k
  let (pb, newblock, c, bs') ← descend il c pb lb newblock
  let (q, c) ← dbget newblock c pb
  some (dip, pb, q, c, bs ++ bs')

/-- What `restore` does with the buffer: the first bytes of the block are those on the tape. -/
def dbimapWrite (c : Disc) (dip : Block) (lb : ℕ) (data : Block) (size : ℕ) :
    Option (Block × Disc × List ℤ) :=
  (dbimap c dip lb).map fun (dip, pb, q, c, bs) =>
    (dip, free c pb (fun i => if i < size then data i else q i) true, bs)

/-- Another block is read, changed, and written. -/
def rewrite (c : Disc) (b : ℤ) (f : Block → Block) : Option Disc :=
  (read c b).map fun (p, c) => free c b (f p) true

variable {p q : Block} {b bn : ℤ} {n i t : ℕ} {D : ℤ → Block} {l : List ℤ}

/-! ### What the kernel sees -/

/-- The disk, mounted. -/
def mount (D : ℤ → Block) : Fs := ⟨getSuper (D SUPERI), false, D, fun _ => true, none, []⟩

/-- A block whose contents read as the end of a list. -/
def Ends (q : Block) : Prop := df_nfree q = 0 ∨ df_nfree q = 1 ∧ df_free q 0 = 0

instance (q : Block) : Decidable (Ends q) := inferInstanceAs (Decidable (_ ∨ _ ∧ _))

/-- Where the block goes in the list of the super block. -/
def slot (p : Block) : ℕ := if canw (getw p 6) = NICFREE then 0 else canw (getw p 6)

lemma slot_lt (h : canw (getw p 6) ≤ NICFREE) : slot p < NICFREE := by
  unfold slot NICFREE at *
  split_ifs <;> omega

lemma getw_canshort : getw (canshort p n) n = canw (getw p n) := by
  rw [canshort, getw_putw_self, Nat.mod_eq_of_lt (canw_lt _)]

lemma getl_candaddr : getl (candaddr p n) n = canl (getl p n) := by
  rw [candaddr, getl_putl_self, Nat.mod_eq_of_lt (canl_lt _)]

/-- The fields that `bfree` changes, and those that it does not. -/
lemma bfreeSuper_fields (h : canw (getw p 6) ≤ NICFREE) (bn : ℤ) :
    getw (bfreeSuper p bn) 0 = getw p 0 ∧ getl (bfreeSuper p bn) 2 = getl p 2 ∧
      canw (getw (bfreeSuper p bn) 6) = slot p + 1 ∧
      (∀ i < NICFREE, getl (bfreeSuper p bn) (8 + 4 * i) =
        if i = slot p then canl (ulong bn) else getl p (8 + 4 * i)) ∧
      canl (getl (bfreeSuper p bn) 474) = (canl (getl p 474) + 1) % 4294967296 := by
  have hs := slot_lt h
  unfold NICFREE at hs
  -- the number of blocks
  generalize hp1 : (if getw (canshort p 6) 6 = NICFREE then putw (canshort p 6) 6 0
    else canshort p 6) = p1
  have h1w : ∀ a, a + 2 ≤ 6 ∨ 8 ≤ a → getw p1 a = getw p a := by
    intro a ha
    rw [← hp1]
    split_ifs
    · rw [getw_putw_of_ne (by omega), canshort, getw_putw_of_ne (by omega)]
    · rw [canshort, getw_putw_of_ne (by omega)]
  have h1l : ∀ a, a + 4 ≤ 6 ∨ 8 ≤ a → getl p1 a = getl p a := by
    intro a ha
    rw [getl, getl, h1w a (by omega), h1w (a + 2) (by omega)]
  have h1n : getw p1 6 = slot p := by
    rw [← hp1, getw_canshort]
    unfold slot
    split_ifs with hc
    · exact getw_putw_self
    · exact getw_canshort
  -- the block, and the number
  generalize hp3 :
    canshort (putw (putl p1 (8 + 4 * slot p) (canl (ulong bn))) 6 (slot p + 1)) 6 = p3
  have h3n : canw (getw p3 6) = slot p + 1 := by
    rw [← hp3, getw_canshort, getw_putw_self, canw_canw, Nat.mod_mod, Nat.mod_eq_of_lt (by omega)]
  have h3l : ∀ a, a + 4 ≤ 6 ∨ 8 ≤ a →
      getl p3 a = getl (putl p1 (8 + 4 * slot p) (canl (ulong bn))) a := by
    intro a ha
    rw [← hp3, canshort, getl_putw_of_ne (by omega), getl_putw_of_ne (by omega)]
  have h3w : getw p3 0 = getw p 0 := by
    rw [← hp3, canshort, getw_putw_of_ne (by omega), getw_putw_of_ne (by omega),
      getw_putl_of_ne (by omega), h1w 0 (by omega)]
  have hdef : bfreeSuper p bn =
      candaddr (putl (candaddr p3 474) 474 (getl (candaddr p3 474) 474 + 1)) 474 := by
    unfold bfreeSuper
    simp only [hp1, h1n,
      getw_putl_of_ne (show 6 + 2 ≤ 8 + 4 * slot p ∨ 8 + 4 * slot p + 4 ≤ 6 by omega),
      hp3]
  rw [hdef]
  refine ⟨?_, ?_, ?_, fun i hi => ?_, ?_⟩
  · rw [candaddr, getw_putl_of_ne (by omega), getw_putl_of_ne (by omega), candaddr,
      getw_putl_of_ne (by omega), h3w]
  · rw [candaddr, getl_putl_of_ne (by omega), getl_putl_of_ne (by omega), candaddr,
      getl_putl_of_ne (by omega), h3l 2 (by omega), getl_putl_of_ne (by omega), h1l 2 (by omega)]
  · rw [candaddr, getw_putl_of_ne (by omega), getw_putl_of_ne (by omega), candaddr,
      getw_putl_of_ne (by omega), h3n]
  · unfold NICFREE at hi
    rw [candaddr, getl_putl_of_ne (by omega), getl_putl_of_ne (by omega), candaddr,
      getl_putl_of_ne (by omega), h3l _ (by omega)]
    split_ifs with hc
    · rw [hc, getl_putl_self, Nat.mod_eq_of_lt (canl_lt _)]
    · rw [getl_putl_of_ne (by omega), h1l _ (by omega)]
  · have ht : getl p3 474 = getl p 474 := by
      rw [h3l _ (by omega), getl_putl_of_ne (by omega), h1l _ (by omega)]
    rw [getl_candaddr, getl_putl_self, getl_candaddr, ht, canl_mod, canl_canl]

lemma df_nfree_bfreeFblk (h : canw (getw p 6) = NICFREE) : df_nfree (bfreeFblk p q) = NICFREE := by
  unfold df_nfree bfreeFblk
  rw [getw_putls (by omega), getw_canshort, getw_putw_self, getw_canshort, h]
  decide

lemma df_free_bfreeFblk (h : canw (getw p 6) = NICFREE) (hi : i < NICFREE) :
    df_free (bfreeFblk p q) i = long (canl (getl p (8 + 4 * i))) := by
  have hn := df_nfree_bfreeFblk (q := q) h
  rw [df_free, if_pos (by rw [hn]; exact hi)]
  unfold bfreeFblk
  rw [getl_putls hi, Nat.mod_eq_of_lt (getl_lt _ _)]

/-- The disk after a block has gone on the list. -/
def pushed (D : ℤ → Block) (b : ℤ) : ℤ → Block :=
  Function.update
    (if canw (getw (D SUPERI) 6) = NICFREE then
      Function.update D b (bfreeFblk (D SUPERI) (D b))
    else D) SUPERI (bfreeSuper (D SUPERI) b)

lemma long_succ (h : long t = n) (hn : n < 2147483647) : long ((t + 1) % 4294967296) = n + 1 := by
  unfold long at h ⊢
  split_ifs at h with ht
  · rw [Nat.mod_eq_of_lt (by omega), if_pos (by omega), Nat.cast_add, h]
    rfl
  · omega

lemma long_canl_ulong (h0 : -2147483648 ≤ b) (h1 : b < 2147483648) :
    long (canl (canl (ulong b))) = b := by
  rw [canl_canl, Nat.mod_eq_of_lt (ulong_lt b), long_ulong h0 h1]

/-- A list has fewer blocks than the volume. -/
lemma length_lt {fs : Fs} (h : WellFormed fs l) :
    l.length < 2147483647 := by
  have hsub : l.toFinset ⊆ Finset.Ico (fs.m_super.s_isize : ℤ) fs.m_super.s_fsize := by
    intro c hc
    rw [Finset.mem_Ico]
    exact h.range c (List.mem_toFinset.mp hc)
  have hcard := Finset.card_le_card hsub
  rw [List.toFinset_card_of_nodup h.nodup, Int.card_Ico] at hcard
  have h1 := h.isize
  have h2 := h.fsize
  omega

/-- **A block freed** is the first of the list, if the list had a block or the contents of the
block read as its end. -/
lemma pushed_wf (h : WellFormed (mount D) l) (h0 : ((mount D).m_super.s_isize : ℤ) ≤ b)
    (h1 : b < (mount D).m_super.s_fsize) (hb : b ∉ l)
    (he : (mount D).m_super.s_nfree = 0 → Ends (D b)) :
    WellFormed (mount (pushed D b)) (b :: l) := by
  have hi := h.isize
  have hf := h.fsize
  have hn : canw (getw (D SUPERI) 6) ≤ NICFREE := h.nfree
  have hb0 : b ≠ 0 := by omega
  have hbs : b ≠ SUPERI := by unfold SUPERI; omega
  have hs := slot_lt hn
  obtain ⟨f1, f2, f3, f4, f5⟩ := bfreeSuper_fields hn b
  have hsup : pushed D b SUPERI = bfreeSuper (D SUPERI) b := Function.update_self _ _ _
  have e1 : (mount (pushed D b)).m_super.s_isize = (mount D).m_super.s_isize := by
    change canw (getw (pushed D b SUPERI) 0) = canw (getw (D SUPERI) 0)
    rw [hsup, f1]
  have e2 : (mount (pushed D b)).m_super.s_fsize = (mount D).m_super.s_fsize := by
    change long (canl (getl (pushed D b SUPERI) 2)) = long (canl (getl (D SUPERI) 2))
    rw [hsup, f2]
  have e3 : (mount (pushed D b)).m_super.s_nfree = slot (D SUPERI) + 1 := by
    change canw (getw (pushed D b SUPERI) 6) = _
    rw [hsup, f3]
  have e4 : ∀ i < NICFREE, (mount (pushed D b)).m_super.s_free i =
      if i = slot (D SUPERI) then b else (mount D).m_super.s_free i := by
    intro i hi
    change long (canl (getl (pushed D b SUPERI) (8 + 4 * i))) = _
    rw [hsup, f4 i hi]
    split_ifs
    · exact long_canl_ulong (by omega) (h1.trans hf)
    · rfl
  have hrange : ∀ c ∈ b :: l, ((mount (pushed D b)).m_super.s_isize : ℤ) ≤ c ∧
      c < (mount (pushed D b)).m_super.s_fsize := by
    intro c hc
    rw [e1, e2]
    obtain rfl | hc := List.mem_cons.mp hc
    · exact ⟨h0, h1⟩
    · exact h.range c hc
  have hnd : (b :: l).Nodup := List.nodup_cons.mpr ⟨hb, h.nodup⟩
  have hdisk : ∀ c ∈ l, pushed D b c = D c := by
    intro c hc
    have hcs : c ≠ SUPERI := h.ne_super hc
    have hcb : c ≠ b := by
      rintro rfl
      exact hb hc
    rw [pushed, Function.update_of_ne hcs]
    split_ifs
    · exact Function.update_of_ne hcb _ _
    · rfl
  refine ⟨?_, by rw [e3]; omega, hrange, hnd, ?_, by rw [e1]; exact hi, by rw [e2]; exact hf⟩
  · have hchain : Chain (pushed D b) (slot (D SUPERI) + 1)
        (Function.update (mount D).m_super.s_free (slot (D SUPERI)) b) (b :: l) := by
      have hc : Chain D (canw (getw (D SUPERI) 6)) (mount D).m_super.s_free l := h.chain
      have hfree :
          Function.update (mount D).m_super.s_free (slot (D SUPERI)) b (slot (D SUPERI)) = b :=
        Function.update_self _ _ _
      unfold slot at hfree ⊢
      by_cases hfull : canw (getw (D SUPERI) 6) = NICFREE
      · -- the block takes over the list
        rw [if_pos hfull] at hfree ⊢
        have hblk : pushed D b b = bfreeFblk (D SUPERI) (D b) := by
          rw [pushed, Function.update_of_ne hbs, if_pos hfull, Function.update_self]
        have hlink := @Chain.link (pushed D b) (Function.update (mount D).m_super.s_free 0 b) l
          (by rw [hfree]; exact hb0) (by rw [hfree, hblk, df_nfree_bfreeFblk hfull])
          (by
            rw [hfree, hblk, df_nfree_bfreeFblk hfull]
            rw [hfull] at hc
            exact (hc.congr_disk hdisk).congr_free fun i hi => df_free_bfreeFblk hfull hi)
        rwa [hfree] at hlink
      · rw [if_neg hfull] at hfree ⊢
        obtain h0n | ⟨m, hm⟩ :
            canw (getw (D SUPERI) 6) = 0 ∨ ∃ m, canw (getw (D SUPERI) 6) = m + 1 := by
          cases canw (getw (D SUPERI) 6) with
          | zero => exact Or.inl rfl
          | succ m => exact Or.inr ⟨m, rfl⟩
        · -- what is in the block is taken for the rest of the list
          rw [h0n] at hc hfree ⊢
          cases hc
          have hblk : pushed D b b = D b := by
            rw [pushed, Function.update_of_ne hbs, if_neg hfull]
          have hends : df_nfree (D b) ≤ NICFREE ∧
              Chain (pushed D b) (df_nfree (D b)) (df_free (D b)) [] := by
            obtain hz | ⟨hz, hz'⟩ := he h0n
            · rw [hz]
              exact ⟨Nat.zero_le _, .empty _⟩
            · rw [hz]
              exact ⟨by decide, .zero hz'⟩
          have hlink := @Chain.link (pushed D b) (Function.update (mount D).m_super.s_free 0 b) []
            (by rw [hfree]; exact hb0) (by rw [hfree, hblk]; exact hends.1)
            (by rw [hfree, hblk]; exact hends.2)
          rwa [hfree] at hlink
        · rw [hm] at hc hfree ⊢
          have hentry := @Chain.entry (pushed D b) m
            (Function.update (mount D).m_super.s_free (m + 1) b) l
            (by rw [hfree]; exact hb0)
            ((hc.congr_disk hdisk).congr_free fun i hi => Function.update_of_ne (by omega) _ _)
          rwa [hfree] at hentry
    have hle : slot (D SUPERI) + 1 ≤ NICFREE := hs
    change Chain (pushed D b) (mount (pushed D b)).m_super.s_nfree _ _
    rw [e3]
    refine hchain.congr_free fun i hi => ?_
    rw [e4 i (by omega), Function.update_apply]
  · have hlen := length_lt h
    have ht : long (canl (getl (D SUPERI) 474)) = l.length := h.tfree
    change long (canl (getl (pushed D b SUPERI) 474)) = _
    rw [hsup, f5, List.length_cons]
    push_cast
    exact long_succ ht hlen

/-! ### What holding and letting go leave alone -/

/-- The cache is held as before. -/
structure After (P : Set ℤ) (c c' : Disc) : Prop where
  coh : Coh P c'
  refs : refs c' = refs c
  total : total c' = total c
  length : c'.bufs.length = c.bufs.length

variable {P : Set ℤ} {c c' c'' : Disc}

lemma After.refl (h : Coh P c) : After P c c := ⟨h, rfl, rfl, rfl⟩

lemma After.trans (h : After P c c') (h' : After P c' c'') : After P c c'' :=
  ⟨h'.coh, h'.refs.trans h.refs, h'.total.trans h.total, h'.length.trans h.length⟩

/-- A block is held, whatever else is done is done, and the block is let go. -/
lemma hold (h : Coh P c) (ht : total c < c.bufs.length) (hb : b ∉ P) :
    ∃ c1, read c b = some (view c b, c1) ∧ Coh P c1 ∧ view c1 = view c ∧ total c1 = total c + 1 ∧
      c1.bufs.length = c.bufs.length ∧ refs c1 = Function.update (refs c) b (refs c b + 1) ∧
      ∀ c2 q dirt, After P c1 c2 → (dirt = true ∨ q = view c2 b) →
        After P c (free c2 b q dirt) ∧ view (free c2 b q dirt) = Function.update (view c2) b q := by
  obtain ⟨c1, h1, h2, h3, h4⟩ := WriteBack.read_spec h ht b
  refine ⟨c1, h1, h2, h3, h4.total, h4.length, h4.refs, fun c2 q dirt ha hd => ?_⟩
  have hr : 0 < refs c2 b := by
    rw [ha.refs, h4.refs, Function.update_self]
    exact Nat.succ_pos _
  obtain ⟨g1, g2, g3, g4, g5⟩ := WriteBack.free_spec ha.coh hr (hd.imp_right fun hd => ⟨hd, hb⟩)
  rw [Set.sdiff_singleton_eq_self hb] at g1
  refine ⟨⟨g1, ?_, ?_, g5.trans (ha.length.trans h4.length)⟩, g2⟩
  · rw [g3, ha.refs, h4.refs, Function.update_self, Function.update_idem, Nat.add_sub_cancel,
      Function.update_eq_self]
  · have := h4.total
    have := ha.total
    omega

/-- A block whose buffer is held goes on the list, and the buffer is let go. -/
lemma onlist_held (h : Coh P c) (ht : total c < c.bufs.length) (hs : SUPERI ∉ P) (hb : b ∉ P)
    (hne : b ≠ SUPERI) (hr : 0 < refs c b) :
    ∃ c', onlist c b (some (view c b)) = some c' ∧ Coh P c' ∧ view c' = pushed (view c) b ∧
      refs c' = Function.update (refs c) b (refs c b - 1) ∧ total c' + 1 = total c ∧
      c'.bufs.length = c.bufs.length := by
  obtain ⟨c1, h1, h2, h3, h4⟩ := WriteBack.read_spec h ht SUPERI
  have hr1 : refs c1 b = refs c b := by rw [h4.refs, Function.update_of_ne hne]
  have hlet : ∀ q dirt, (dirt = true ∨ q = view c b) → ∀ p, ∃ c',
      free (free c1 b q dirt) SUPERI p true = c' ∧ Coh P c' ∧
      view c' = Function.update (Function.update (view c) b q) SUPERI p ∧
      refs c' = Function.update (refs c) b (refs c b - 1) ∧ total c' + 1 = total c ∧
      c'.bufs.length = c.bufs.length := by
    intro q dirt hd p
    obtain ⟨f1, f2, f3, f4, f5⟩ := WriteBack.free_spec h2 (by rw [hr1]; exact hr)
      (hd.imp_right fun hd => ⟨show q = view c1 b by rw [h3]; exact hd, hb⟩)
    rw [Set.sdiff_singleton_eq_self hb] at f1
    have hsr : refs (free c1 b q dirt) SUPERI = refs c SUPERI + 1 := by
      rw [f3, Function.update_of_ne hne.symm, h4.refs, Function.update_self]
    obtain ⟨g1, g2, g3, g4, g5⟩ := WriteBack.free_spec f1 (by rw [hsr]; exact Nat.succ_pos _)
      (show true = true ∨ p = view (free c1 b q dirt) SUPERI ∧ SUPERI ∉ P from Or.inl rfl)
    rw [Set.sdiff_singleton_eq_self hs] at g1
    refine ⟨_, rfl, g1, by rw [g2, f2, h3], ?_, ?_, g5.trans (f5.trans h4.length)⟩
    · rw [g3, hsr, f3, hr1, h4.refs, Nat.add_sub_cancel]
      funext k
      by_cases hk : k = SUPERI
      · rw [hk, Function.update_self, Function.update_of_ne hne.symm]
      · rw [Function.update_of_ne hk]
        by_cases hkb : k = b
        · rw [hkb, Function.update_self, Function.update_self]
        · rw [Function.update_of_ne hkb, Function.update_of_ne hkb, Function.update_of_ne hk]
    · have := h4.total
      omega
  unfold onlist
  simp only [h1, Option.bind_eq_bind, Option.bind_some]
  by_cases hfull : canw (getw (view c SUPERI) 6) = NICFREE
  · obtain ⟨c', e1, e2, e3, e4⟩ := hlet (bfreeFblk (view c SUPERI) (view c b)) true (Or.inl rfl)
      (bfreeSuper (view c SUPERI) b)
    rw [if_pos hfull, e1]
    exact ⟨c', rfl, e2, by rw [e3, pushed, if_pos hfull], e4⟩
  · obtain ⟨c', e1, e2, e3, e4⟩ := hlet (view c b) false (Or.inr rfl) (bfreeSuper (view c SUPERI) b)
    rw [if_neg hfull, e1]
    exact ⟨c', rfl, e2, by rw [e3, pushed, if_neg hfull, Function.update_eq_self], e4⟩

/-- A block goes on the list. -/
lemma onlist_spec (h : Coh P c) (ht : total c + 1 < c.bufs.length) (hs : SUPERI ∉ P) (hb : b ∉ P) :
    ∃ c', onlist c b none = some c' ∧ After P c c' ∧ view c' = pushed (view c) b := by
  obtain ⟨c1, h1, h2, h3, h4, h5, h6, h7⟩ := hold h (by omega) hs
  unfold onlist
  simp only [h1, Option.bind_eq_bind, Option.bind_some]
  by_cases hfull : canw (getw (view c SUPERI) 6) = NICFREE
  · obtain ⟨c2, g1, g2, g3, -, -, -, g7⟩ := hold h2 (b := b) (by omega) hb
    obtain ⟨e1, e2⟩ := g7 c2 (bfreeFblk (view c SUPERI) (view c b)) true (After.refl g2)
      (Or.inl rfl)
    obtain ⟨e3, e4⟩ := h7 _ (bfreeSuper (view c SUPERI) b) true e1 (Or.inl rfl)
    rw [h3] at g1
    rw [if_pos hfull, g1]
    refine ⟨_, rfl, e3, ?_⟩
    rw [e4, e2, g3, h3, pushed, if_pos hfull]
  · obtain ⟨e3, e4⟩ := h7 c1 (bfreeSuper (view c SUPERI) b) true (After.refl h2) (Or.inl rfl)
    rw [if_neg hfull]
    refine ⟨_, rfl, e3, ?_⟩
    rw [e4, h3, pushed, if_neg hfull]

/-! ### Freeing what a block leads to -/

/-- The blocks that `bfree` puts on the list, in their order. -/
def frees (D : ℤ → Block) : ℕ → ℤ → List ℤ
  | 0, bn => if bn = 0 then [] else [bn]
  | nil + 1, bn =>
    if bn = 0 then []
    else ((List.range NBN).flatMap fun i => frees D nil (dentry (D bn) i)) ++ [bn]

lemma frees_zero (D : ℤ → Block) (nil : ℕ) : frees D nil 0 = [] := by cases nil <;> rfl

/-- The blocks depend on the contents of no others. -/
lemma frees_congr {D' : ℤ → Block} (nil : ℕ) (bn : ℤ) (h : ∀ b ∈ frees D nil bn, D' b = D b) :
    frees D' nil bn = frees D nil bn := by
  induction nil generalizing bn with
  | zero => rfl
  | succ nil ih =>
    by_cases h0 : bn = 0
    · rw [h0, frees_zero, frees_zero]
    · have hbn : D' bn = D bn := h bn (by simp [frees, h0])
      rw [frees, frees, if_neg h0, if_neg h0, hbn]
      congr 1
      refine List.flatMap_congr fun i hi => ih _ fun b hb => h b ?_
      rw [frees, if_neg h0]
      exact List.mem_append_left _ (List.mem_flatMap.mpr ⟨i, hi, hb⟩)

/-- Blocks of the volume that are not on its list, each once, the first of which ends an empty
list. -/
structure Freeable (D : ℤ → Block) (l bs : List ℤ) : Prop where
  nodup : bs.Nodup
  disjoint : ∀ b ∈ bs, b ∉ l
  range : ∀ b ∈ bs, ((mount D).m_super.s_isize : ℤ) ≤ b ∧ b < (mount D).m_super.s_fsize
  ends : (mount D).m_super.s_nfree = 0 → ∀ b ∈ bs.head?, Ends (D b)

/-- Blocks have gone on the list, in their order. -/
structure Freed (D D' : ℤ → Block) (l bs : List ℤ) : Prop where
  wf : WellFormed (mount D') (bs.reverse ++ l)
  isize : (mount D').m_super.s_isize = (mount D).m_super.s_isize
  fsize : (mount D').m_super.s_fsize = (mount D).m_super.s_fsize
  other : ∀ b, b ≠ SUPERI → b ∉ bs → D' b = D b
  nfree : bs ≠ [] → (mount D').m_super.s_nfree ≠ 0
  keep : bs = [] → (mount D').m_super.s_nfree = (mount D).m_super.s_nfree

lemma Freed.nil (h : WellFormed (mount D) l) : Freed D D l [] :=
  ⟨h, rfl, rfl, fun _ _ _ => rfl, fun h => absurd rfl h, fun _ => rfl⟩

lemma Freed.one (h : WellFormed (mount D) l) (hf : Freeable D l [b]) :
    Freed D (pushed D b) l [b] := by
  obtain ⟨h0, h1⟩ := hf.range b (by simp)
  have hn : canw (getw (D SUPERI) 6) ≤ NICFREE := h.nfree
  have hsup : pushed D b SUPERI = bfreeSuper (D SUPERI) b := Function.update_self _ _ _
  obtain ⟨f1, f2, f3, -, -⟩ := bfreeSuper_fields hn b
  refine ⟨pushed_wf h h0 h1 (hf.disjoint b (by simp)) fun hn => hf.ends hn b (by simp), ?_, ?_,
    fun k hk hkb => ?_, fun _ => ?_, fun h => by cases h⟩
  · change canw (getw (pushed D b SUPERI) 0) = canw (getw (D SUPERI) 0)
    rw [hsup, f1]
  · change long (canl (getl (pushed D b SUPERI) 2)) = long (canl (getl (D SUPERI) 2))
    rw [hsup, f2]
  · rw [pushed, Function.update_of_ne hk]
    split_ifs
    · exact Function.update_of_ne (by simpa using hkb) _ _
    · rfl
  · change canw (getw (pushed D b SUPERI) 6) ≠ 0
    rw [hsup, f3]
    exact Nat.succ_ne_zero _

/-- The rest of blocks, after the first of them have gone on the list. -/
lemma Freeable.rest {D' : ℤ → Block} {as bs : List ℤ} (h : Freeable D l (as ++ bs))
    (hd : Freed D D' l as) (hs : SUPERI ∉ bs) : Freeable D' (as.reverse ++ l) bs := by
  have hnd := List.nodup_append.mp h.nodup
  have hdis : ∀ b ∈ bs, b ∉ as := fun b hb ha => hnd.2.2 b ha b hb rfl
  refine ⟨hnd.2.1, fun b hb => ?_, fun b hb => ?_, fun hn b hb => ?_⟩
  · rw [List.mem_append, List.mem_reverse, not_or]
    exact ⟨hdis b hb, h.disjoint b (by simp [hb])⟩
  · rw [hd.isize, hd.fsize]
    exact h.range b (by simp [hb])
  · cases as with
    | nil =>
      have hmem : b ∈ bs := List.mem_of_mem_head? hb
      rw [hd.other b (fun hbs => hs (hbs ▸ hmem)) (by simp)]
      exact h.ends ((hd.keep rfl).symm.trans hn) b (by simpa using hb)
    | cons a as => exact absurd hn (hd.nfree (by simp))

lemma Freed.trans {D' D'' : ℤ → Block} {as bs : List ℤ} (h : Freed D D' l as)
    (h' : Freed D' D'' (as.reverse ++ l) bs) : Freed D D'' l (as ++ bs) where
  wf := by
    have := h'.wf
    rwa [← List.append_assoc, ← List.reverse_append] at this
  isize := h'.isize.trans h.isize
  fsize := h'.fsize.trans h.fsize
  other b hb hab := by
    rw [List.mem_append, not_or] at hab
    rw [h'.other b hb hab.2, h.other b hb hab.1]
  nfree hne := by
    by_cases hbs : bs = []
    · rw [h'.keep hbs]
      refine h.nfree fun has => hne ?_
      rw [has, hbs, List.append_nil]
    · exact h'.nfree hbs
  keep hnil := by
    obtain ⟨has, hbs⟩ := List.append_eq_nil_iff.mp hnil
    rw [h'.keep hbs, h.keep has]

lemma long_canl_eq_zero (h1 : n < 4294967296) : long (canl n) = 0 ↔ n = 0 := by
  have h2 := canl_lt n
  have h3 : canl n = 0 ↔ n = 0 := by
    constructor
    · intro h
      have := canl_canl n
      rw [h, Nat.mod_eq_of_lt h1] at this
      rw [← this]
      decide
    · intro h
      rw [h]
      decide
  unfold long
  rw [← h3]
  split_ifs <;> omega

lemma dentry_eq_zero : dentry q i = 0 ↔ getl q (4 * i) = 0 := long_canl_eq_zero (getl_lt _ _)

lemma Freeable.ne_super {bs : List ℤ} (hw : WellFormed (mount D) l) (h : Freeable D l bs) :
    SUPERI ∉ bs := by
  intro hs
  have h1 := (h.range _ hs).1
  have h2 := hw.isize
  unfold SUPERI at h1
  omega

lemma Freeable.left {as bs : List ℤ} (h : Freeable D l (as ++ bs)) : Freeable D l as := by
  refine ⟨(List.nodup_append.mp h.nodup).1, fun b hb => h.disjoint b (by simp [hb]),
    fun b hb => h.range b (by simp [hb]), fun hn b hb => h.ends hn b ?_⟩
  rw [Option.mem_def] at hb ⊢
  rw [List.head?_append, hb]
  rfl

/-- A loop, each pass of which frees blocks. -/
lemma loop_spec {α : Type*} {f : Disc → α → Option Disc} {g : (ℤ → Block) → α → List ℤ} {k : ℕ}
    (hg : ∀ D D' a, (∀ b ∈ g D a, D' b = D b) → g D' a = g D a) {as : List α}
    (hstep : ∀ a ∈ as, ∀ {c : Disc} {l : List ℤ}, Coh P c → total c + k < c.bufs.length →
      WellFormed (mount (view c)) l → Freeable (view c) l (g (view c) a) →
      (∀ b ∈ g (view c) a, b ∉ P) →
      ∃ c', f c a = some c' ∧ After P c c' ∧ Freed (view c) (view c') l (g (view c) a))
    (h : Coh P c) (ht : total c + k < c.bufs.length) (hw : WellFormed (mount (view c)) l)
    (hf : Freeable (view c) l (as.flatMap (g (view c))))
    (hP : ∀ b ∈ as.flatMap (g (view c)), b ∉ P) :
    ∃ c', as.foldlM f c = some c' ∧ After P c c' ∧
      Freed (view c) (view c') l (as.flatMap (g (view c))) := by
  induction as generalizing c l with
  | nil => exact ⟨c, rfl, After.refl h, Freed.nil hw⟩
  | cons a as ih =>
    rw [List.flatMap_cons] at hf hP
    obtain ⟨c1, h1, h2, h3⟩ := hstep a (by simp) h ht hw hf.left fun b hb => hP b (by simp [hb])
    have hs := hf.ne_super hw
    rw [List.mem_append, not_or] at hs
    have hrest := hf.rest h3 hs.2
    -- what is freed next is what would have been freed
    have hdis := (List.nodup_append.mp hf.nodup).2.2
    have hsame : as.flatMap (g (view c1)) = as.flatMap (g (view c)) := by
      refine List.flatMap_congr fun j hj => hg _ _ _ fun b hb => ?_
      have hmem : b ∈ as.flatMap (g (view c)) := List.mem_flatMap.mpr ⟨j, hj, hb⟩
      exact h3.other b (fun hbs => hs.2 (hbs ▸ hmem)) fun ha => hdis b ha b hmem rfl
    rw [← hsame] at hrest hP
    obtain ⟨c2, g1, g2, g3⟩ := ih (fun a ha => hstep a (by simp [ha])) h2.coh
      (by rw [h2.total, h2.length]; exact ht) h3.wf hrest fun b hb => hP b (by simp [hb])
    refine ⟨c2, ?_, h2.trans g2, ?_⟩
    · rw [List.foldlM_cons, h1]
      exact g1
    · rw [List.flatMap_cons, ← hsame]
      exact h3.trans g3

/-- **`bfree`** puts on the list the blocks that a block leads to. -/
theorem bfree_spec (nil : ℕ) (h : Coh P c) (ht : total c + (nil + 1) < c.bufs.length)
    (hs : SUPERI ∉ P) (hw : WellFormed (mount (view c)) l)
    (hf : Freeable (view c) l (frees (view c) nil bn))
    (hP : ∀ b ∈ frees (view c) nil bn, b ∉ P) :
    ∃ c', bfree nil c bn = some c' ∧ After P c c' ∧
      Freed (view c) (view c') l (frees (view c) nil bn) := by
  induction nil generalizing c l bn with
  | zero =>
    rw [bfree]
    by_cases h0 : bn = 0
    · rw [if_pos h0, h0, frees_zero]
      exact ⟨c, rfl, After.refl h, Freed.nil hw⟩
    · have hfr : frees (view c) 0 bn = [bn] := if_neg h0
      rw [hfr] at hf hP ⊢
      rw [if_neg h0]
      obtain ⟨c', h1, h2, h3⟩ := onlist_spec h (by omega) hs (hP bn (by simp))
      refine ⟨c', h1, h2, ?_⟩
      rw [h3]
      exact Freed.one hw hf
  | succ nil ih =>
    rw [bfree]
    by_cases h0 : bn = 0
    · rw [if_pos h0, h0, frees_zero]
      exact ⟨c, rfl, After.refl h, Freed.nil hw⟩
    · have hfr : frees (view c) (nil + 1) bn =
          ((List.range NBN).flatMap fun i => frees (view c) nil (dentry (view c bn) i)) ++ [bn] :=
        if_neg h0
      rw [hfr] at hf hP ⊢
      rw [if_neg h0]
      have hne := hf.ne_super hw
      rw [List.mem_append, List.mem_singleton, not_or] at hne
      obtain ⟨c1, h1, h2, h3, h4, h5, h6, -⟩ := hold h (b := bn) (by omega) (hP bn (by simp))
      generalize hq : view c bn = q at *
      have hw1 : WellFormed (mount (view c1)) l := by
        rw [h3]
        exact hw
      have hf1 : Freeable (view c1) l
          ((List.range NBN).flatMap fun i => frees (view c1) nil (dentry q i)) := by
        rw [h3]
        exact hf.left
      have hP1 : ∀ b ∈ (List.range NBN).flatMap fun i => frees (view c1) nil (dentry q i),
          b ∉ P := by
        rw [h3]
        exact fun b hb => hP b (List.mem_append_left _ hb)
      have hpass : ∀ i ∈ List.range NBN, ∀ {c : Disc} {l : List ℤ}, Coh P c →
          total c + (nil + 1) < c.bufs.length → WellFormed (mount (view c)) l →
          Freeable (view c) l (frees (view c) nil (dentry q i)) →
          (∀ b ∈ frees (view c) nil (dentry q i), b ∉ P) →
          ∃ c', (if getl q (4 * i) ≠ 0 then bfree nil c (dentry q i) else some c) = some c' ∧
            After P c c' ∧ Freed (view c) (view c') l (frees (view c) nil (dentry q i)) := by
        intro i _ c l h ht hw hf hP
        by_cases h0 : getl q (4 * i) = 0
        · rw [if_neg (not_not.mpr h0), dentry_eq_zero.mpr h0, frees_zero]
          exact ⟨c, rfl, After.refl h, Freed.nil hw⟩
        · rw [if_pos h0]
          exact ih h ht hw hf hP
      obtain ⟨c2, g1, g2, g3⟩ := loop_spec (fun D D' i => frees_congr nil (dentry q i)) hpass h2
        (by omega) hw1 hf1 hP1
      rw [h3] at g3
      have hdis := (List.nodup_append.mp hf.nodup).2.2
      have hbn : view c2 bn = q :=
        (g3.other bn (Ne.symm hne.2) fun hb => hdis bn hb bn (by simp) rfl).trans hq
      obtain ⟨c3, e1, e2, e3, e4, e5, e6⟩ := onlist_held g2.coh
        (by rw [g2.total, g2.length]; omega) hs (hP bn (by simp)) (Ne.symm hne.2)
        (by rw [g2.refs, h6, Function.update_self]; exact Nat.succ_pos _)
      rw [hbn] at e1
      refine ⟨c3, ?_, ⟨e2, ?_, ?_, e6.trans (g2.length.trans h5)⟩, ?_⟩
      · simp only [Option.bind_eq_bind]
        rw [h1, Option.bind_some]
        dsimp only
        rw [g1, Option.bind_some, e1]
      · rw [e4, g2.refs, h6, Function.update_self, Function.update_idem, Nat.add_sub_cancel,
          Function.update_eq_self]
      · have := g2.total
        omega
      · rw [e3]
        exact g3.trans (Freed.one g3.wf (hf.rest g3 (by simpa using hne.2)))

/-! ### Writing blocks that are not on the list -/

/-- The list stays as long as the super block and the blocks on it do. -/
lemma wf_congr {D' : ℤ → Block} (h : WellFormed (mount D) l) (hs : D' SUPERI = D SUPERI)
    (hl : ∀ k ∈ l, D' k = D k) : WellFormed (mount D') l := by
  have e : (mount D').m_super = (mount D).m_super := congrArg getSuper hs
  refine ⟨?_, ?_, ?_, h.nodup, ?_, ?_, ?_⟩
  · rw [e]
    exact h.chain.congr_disk hl
  · rw [e]
    exact h.nfree
  · rw [e]
    exact h.range
  · rw [e]
    exact h.tfree
  · rw [e]
    exact h.isize
  · rw [e]
    exact h.fsize

lemma wf_update (h : WellFormed (mount D) l) (hs : b ≠ SUPERI) (hl : b ∉ l) (q : Block) :
    WellFormed (mount (Function.update D b q)) l :=
  wf_congr h (Function.update_of_ne hs.symm _ _) fun _ hk =>
    by
    refine Function.update_of_ne ?_ _ _
    rintro rfl
    exact hl hk

/-- The list is what it is, and the volume is the same. -/
structure Volume (D D' : ℤ → Block) (l : List ℤ) : Prop where
  wf : WellFormed (mount D') l
  isize : (mount D').m_super.s_isize = (mount D).m_super.s_isize
  fsize : (mount D').m_super.s_fsize = (mount D).m_super.s_fsize

lemma Volume.refl (h : WellFormed (mount D) l) : Volume D D l := ⟨h, rfl, rfl⟩

lemma Volume.trans {D' D'' : ℤ → Block} {l' : List ℤ} (h : Volume D D' l) (h' : Volume D' D'' l') :
    Volume D D'' l' := ⟨h'.wf, h'.isize.trans h.isize, h'.fsize.trans h.fsize⟩

lemma Freed.volume {D' : ℤ → Block} {bs : List ℤ} (h : Freed D D' l bs) :
    Volume D D' (bs.reverse ++ l) := ⟨h.wf, h.isize, h.fsize⟩

lemma Volume.update {D' : ℤ → Block} (h : Volume D D' l) (hs : b ≠ SUPERI) (hl : b ∉ l)
    (q : Block) : Volume D (Function.update D' b q) l := by
  have e : (mount (Function.update D' b q)).m_super = (mount D').m_super :=
    congrArg getSuper (Function.update_of_ne hs.symm _ _)
  refine ⟨wf_update h.wf hs hl q, ?_, ?_⟩
  · rw [e]
    exact h.isize
  · rw [e]
    exact h.fsize

/-! ### Clearing an inode -/

/-- The blocks that `clri` frees. -/
def ifrees (D : ℤ → Block) (ino : ℕ) : List ℤ :=
  let dip := dinode (D (iblock ino)) ino
  let dimode := canw (getw dip 0)
  if dimode &&& IFMT = IFDIR ∨ dimode &&& IFMT = IFREG then
    (naddrs dip).flatMap fun a => frees D a.2 a.1
  else []

lemma levels_le {a : ℤ × ℕ} (ha : a ∈ naddrs q) : a.2 ≤ 3 := by
  obtain ⟨i, hi, rfl⟩ := List.mem_map.mp ha
  rw [List.mem_range] at hi
  unfold NADDR at *
  change i - (13 - 4) ≤ 3
  omega

/-- **`clri`** frees the blocks of a file. -/
theorem clri_spec {ino : ℕ} (h : Coh P c) (ht : total c + 5 < c.bufs.length) (hs : SUPERI ∉ P)
    (hw : WellFormed (mount (view c)) l) (hi : iblock ino ≠ SUPERI)
    (hil : iblock ino < (mount (view c)).m_super.s_isize) (hiP : iblock ino ∉ P)
    (hf : Freeable (view c) l (ifrees (view c) ino)) (hP : ∀ b ∈ ifrees (view c) ino, b ∉ P) :
    ∃ c', clri c ino = some c' ∧ After P c c' ∧
      Volume (view c) (view c') ((ifrees (view c) ino).reverse ++ l) := by
  obtain ⟨c1, h1, h2, h3, h4, h5, h6, h7⟩ := hold h (b := iblock ino) (by omega) hiP
  have hnot : ∀ k ∈ (ifrees (view c) ino).reverse ++ l, k ≠ iblock ino := by
    rintro k hk rfl
    rw [List.mem_append, List.mem_reverse] at hk
    have := hk.elim (fun hk => (hf.range _ hk).1) fun hk => (hw.range _ hk).1
    omega
  -- the blocks of the file
  have hloop : ∃ c2, (if canw (getw (dinode (view c (iblock ino)) ino) 0) &&& IFMT = IFDIR ∨
        canw (getw (dinode (view c (iblock ino)) ino) 0) &&& IFMT = IFREG then
        (naddrs (dinode (view c (iblock ino)) ino)).foldlM (fun c a => bfree a.2 c a.1) c1
      else some c1) = some c2 ∧ After P c1 c2 ∧
      Freed (view c) (view c2) l (ifrees (view c) ino) := by
    unfold ifrees at hf hP ⊢
    simp only at hf hP ⊢
    by_cases hm : canw (getw (dinode (view c (iblock ino)) ino) 0) &&& IFMT = IFDIR ∨
        canw (getw (dinode (view c (iblock ino)) ino) 0) &&& IFMT = IFREG
    · rw [if_pos hm] at hf hP ⊢
      rw [if_pos hm]
      have hpass : ∀ a ∈ naddrs (dinode (view c (iblock ino)) ino), ∀ {c : Disc} {l : List ℤ},
          Coh P c → total c + 4 < c.bufs.length → WellFormed (mount (view c)) l →
          Freeable (view c) l (frees (view c) a.2 a.1) → (∀ b ∈ frees (view c) a.2 a.1, b ∉ P) →
          ∃ c', bfree a.2 c a.1 = some c' ∧ After P c c' ∧
            Freed (view c) (view c') l (frees (view c) a.2 a.1) := by
        intro a ha c l h ht hw hf hP
        have := levels_le ha
        exact bfree_spec a.2 h (by omega) hs hw hf hP
      obtain ⟨c2, g1, g2, g3⟩ := loop_spec (fun D D' (a : ℤ × ℕ) => frees_congr a.2 a.1) hpass h2
        (by omega) (by rw [h3]; exact hw) (by rw [h3]; exact hf) (by rw [h3]; exact hP)
      rw [h3] at g3
      exact ⟨c2, g1, g2, g3⟩
    · rw [if_neg hm]
      rw [if_neg hm]
      refine ⟨c1, rfl, After.refl h2, ?_⟩
      rw [h3]
      exact Freed.nil hw
  obtain ⟨c2, g1, g2, g3⟩ := hloop
  obtain ⟨e1, e2⟩ := h7 c2 (fun i => if iblocko ino ≤ i ∧ i < iblocko ino + 64 then 0
    else view c (iblock ino) i) true g2 (Or.inl rfl)
  refine ⟨_, ?_, e1, ?_⟩
  · unfold clri
    simp only [h1, Option.bind_eq_bind, Option.bind_some]
    split_ifs at g1 ⊢ with hm
    · rw [g1, Option.bind_some]
    · cases g1
      rfl
  · rw [e2]
    exact g3.volume.update hi (fun hk => hnot _ hk rfl) _

/-! ### Allocating -/

/-- The fields of the super block after a block has been taken. -/
lemma ballocSuper_fields (n t : ℕ) : getw (ballocSuper p n t) 0 = getw p 0 ∧
    getl (ballocSuper p n t) 2 = getl p 2 ∧ canw (getw (ballocSuper p n t) 6) = n % 65536 ∧
    (∀ i < NICFREE, getl (ballocSuper p n t) (8 + 4 * i) = getl p (8 + 4 * i)) ∧
    canl (getl (ballocSuper p n t) 474) = t % 4294967296 := by
  unfold ballocSuper
  refine ⟨?_, ?_, ?_, fun i hi => ?_, ?_⟩
  · rw [getw_putl_of_ne (by omega), getw_putw_of_ne (by omega)]
  · rw [getl_putl_of_ne (by omega), getl_putw_of_ne (by omega)]
  · rw [getw_putl_of_ne (by omega), getw_putw_self, Nat.mod_eq_of_lt (canw_lt _), canw_canw]
  · unfold NICFREE at hi
    rw [getl_putl_of_ne (by omega), getl_putw_of_ne (by omega)]
  · rw [getl_putl_self, Nat.mod_eq_of_lt (canl_lt _), canl_canl]

/-- The disk after the first block of the list has been taken. -/
lemma taken_wf {p' : Block} (h : WellFormed (mount D) (b :: l)) (hn : n ≤ NICFREE) {free : ℕ → ℤ}
    (hc : Chain D n free l) (h0 : getw p' 0 = getw (D SUPERI) 0)
    (h2 : getl p' 2 = getl (D SUPERI) 2)
    (hfree : ∀ i < n, long (canl (getl p' (8 + 4 * i))) = free i) :
    Volume D (Function.update D SUPERI
      (ballocSuper p' n (canl (getl (D SUPERI) 474) - 1))) l := by
  have hlen := length_lt h
  have ht : long (canl (getl (D SUPERI) 474)) = (b :: l).length := h.tfree
  obtain ⟨f1, f2, f3, f4, f5⟩ := ballocSuper_fields (p := p') n (canl (getl (D SUPERI) 474) - 1)
  generalize hp : ballocSuper p' n (canl (getl (D SUPERI) 474) - 1) = p at f1 f2 f3 f4 f5
  have hsup : Function.update D SUPERI p SUPERI = p := Function.update_self _ _ _
  have e1 : (mount (Function.update D SUPERI p)).m_super.s_isize = (mount D).m_super.s_isize := by
    change canw (getw (Function.update D SUPERI p SUPERI) 0) = canw (getw (D SUPERI) 0)
    rw [hsup, f1, h0]
  have e2 : (mount (Function.update D SUPERI p)).m_super.s_fsize = (mount D).m_super.s_fsize := by
    change long (canl (getl (Function.update D SUPERI p SUPERI) 2)) =
      long (canl (getl (D SUPERI) 2))
    rw [hsup, f2, h2]
  have e3 : (mount (Function.update D SUPERI p)).m_super.s_nfree = n := by
    change canw (getw (Function.update D SUPERI p SUPERI) 6) = n
    rw [hsup, f3]
    exact Nat.mod_eq_of_lt (lt_of_le_of_lt hn (by decide))
  refine ⟨⟨?_, ?_, ?_, h.nodup.of_cons, ?_, ?_, ?_⟩, e1, e2⟩
  · rw [e3]
    refine (hc.congr_disk fun k hk => ?_).congr_free fun i hi => ?_
    · exact Function.update_of_ne (h.ne_super (List.mem_cons_of_mem _ hk)) _ _
    · change long (canl (getl (Function.update D SUPERI p SUPERI) (8 + 4 * i))) = free i
      rw [hsup, f4 i (by omega), hfree i hi]
  · rw [e3]
    exact hn
  · rw [e1, e2]
    exact fun k hk => h.range k (List.mem_cons_of_mem _ hk)
  · change long (canl (getl (Function.update D SUPERI p SUPERI) 474)) = _
    rw [hsup, f5]
    have hlt := canl_lt (getl (D SUPERI) 474)
    rw [List.length_cons] at ht hlen
    unfold long at ht ⊢
    split_ifs at ht ⊢ <;> push_cast at ht <;> omega
  · rw [e1]
    exact h.isize
  · rw [e2]
    exact h.fsize

/-- **`balloc`** takes the first block of the list. -/
theorem balloc_spec (h : Coh P c) (ht : total c + 1 < c.bufs.length) (hs : SUPERI ∉ P)
    (hw : WellFormed (mount (view c)) (b :: l)) (hb : b ∉ P) :
    ∃ c', balloc c = some (b, c') ∧ After P c c' ∧ Volume (view c) (view c') l ∧
      ∀ k, k ≠ SUPERI → view c' k = view c k := by
  obtain ⟨c1, h1, h2, h3, h4, h5, h6, h7⟩ := hold h (b := SUPERI) (by omega) hs
  generalize hp : view c SUPERI = p at h1
  have hlen := length_lt hw
  have htf : long (canl (getl p 474)) = (b :: l).length := by
    rw [← hp]
    exact hw.tfree
  have ht0 : getl p 474 ≠ 0 := by
    intro h0
    rw [h0, List.length_cons] at htf
    have hz : long (canl 0) = 0 := by decide
    rw [hz] at htf
    push_cast at htf
    omega
  have hn : canw (getw p 6) ≤ NICFREE := by
    rw [← hp]
    exact hw.nfree
  have hc : Chain (view c) (canw (getw p 6)) (fun i => long (canl (getl p (8 + 4 * i))))
      (b :: l) := by
    rw [← hp]
    exact hw.chain
  have hbn : ∀ i, long (canl (getl p (8 + 4 * i))) ≠ 0 → getl p (8 + 4 * i) ≠ 0 := by
    intro i hi h0
    rw [h0] at hi
    exact hi (by decide)
  unfold balloc
  simp only [Option.bind_eq_bind]
  rw [h1, Option.bind_some]
  dsimp only
  rw [if_neg ht0]
  generalize hm : canw (getw p 6) = m at hn hc
  generalize hfr : (fun i => long (canl (getl p (8 + 4 * i)))) = fr at hc
  cases hc with
  | @link _ _ h0 hnf hc =>
    -- the rest of the list is in the block
    have hb0 : fr 0 = long (canl (getl p (8 + 4 * 0))) := by rw [← hfr]
    simp only [Nat.sub_self, if_true, if_neg (hbn 0 (hb0 ▸ h0))]
    rw [← hb0]
    obtain ⟨c2, g1, g2, g3, -, -, -, g7⟩ := hold h2 (b := fr 0) (by omega) hb
    rw [h3] at g1 g3
    obtain ⟨e1, e2⟩ := g7 c2 (view c (fr 0)) false (After.refl g2) (Or.inr (by rw [g3]))
    rw [g3, Function.update_eq_self] at e2
    obtain ⟨e3, e4⟩ := h7 _
      (ballocSuper (putls p 8 NICFREE fun i => getl (view c (fr 0)) (2 + 4 * i))
      (canw (getw (view c (fr 0)) 0)) (canl (getl p 474) - 1)) true e1 (Or.inl rfl)
    rw [g1]
    refine ⟨_, rfl, e3, ?_, fun k hk => ?_⟩
    · rw [e4, e2, ← hp]
      refine taken_wf (b := fr 0) hw hnf hc ?_ ?_ fun i hi => ?_
      · rw [getw_putls (by omega)]
      · rw [getl, getl, getw_putls (by omega), getw_putls (by omega)]
      · rw [getl_putls (lt_of_lt_of_le hi hnf), Nat.mod_eq_of_lt (getl_lt _ _), df_free]
        exact (if_pos hi).symm
    · rw [e4, e2, Function.update_of_ne hk]
  | @entry k _ _ h0 hc =>
    have hb0 : fr (k + 1) = long (canl (getl p (8 + 4 * (k + 1)))) := by rw [← hfr]
    have hsub : k + 2 - 1 = k + 1 := rfl
    simp only [hsub, if_neg (hbn (k + 1) (hb0 ▸ h0)), if_neg (Nat.succ_ne_zero k)]
    obtain ⟨e3, e4⟩ := h7 c1 (ballocSuper p (k + 1) (canl (getl p 474) - 1)) true (After.refl h2)
      (Or.inl rfl)
    rw [← hb0]
    refine ⟨_, rfl, e3, ?_, fun k hk => ?_⟩
    · rw [e4, h3, ← hp]
      exact taken_wf (b := fr (k + 1)) hw (by omega) hc rfl rfl fun i hi => by rw [← hfr, ← hp]
    · rw [e4, h3, Function.update_of_ne hk]

/-- A block that has been allocated was the first of the list. -/
lemma balloc_some (h : Coh P c) (ht : total c + 1 < c.bufs.length) (hs : SUPERI ∉ P)
    (hw : WellFormed (mount (view c)) l) (hl : ∀ k ∈ l, k ∉ P) (hb : balloc c = some (b, c')) :
    ∃ l', l = b :: l' ∧ After P c c' ∧ Volume (view c) (view c') l' ∧
      ∀ k, k ≠ SUPERI → view c' k = view c k := by
  cases l with
  | nil =>
    obtain ⟨c1, h1, -⟩ := hold h (b := SUPERI) (by omega) hs
    have h0 : getl (view c SUPERI) 474 = 0 := (long_canl_eq_zero (getl_lt _ _)).mp hw.tfree
    unfold balloc at hb
    simp only [Option.bind_eq_bind] at hb
    rw [h1, Option.bind_some] at hb
    dsimp only at hb
    rw [if_pos h0] at hb
    cases hb
  | cons k l =>
    obtain ⟨c2, h1, h2⟩ := balloc_spec h ht hs hw (hl k (by simp))
    rw [h1, Option.some.injEq, Prod.mk.injEq] at hb
    obtain ⟨rfl, rfl⟩ := hb
    exact ⟨l, rfl, h2⟩

/-! ### The blocks of a file -/

/-- The blocks that are there on the way to a block of a file. -/
def path (D : ℤ → Block) : ℕ → ℤ → ℕ → List ℤ
  | 0, pb, _ => [pb]
  | il + 1, pb, lb =>
    pb :: if dentry (D pb) (lb / shifts il) = 0 then []
      else path D il (dentry (D pb) (lb / shifts il)) (lb % shifts il)

lemma mem_path (D : ℤ → Block) (il : ℕ) (pb : ℤ) (lb : ℕ) : pb ∈ path D il pb lb := by
  cases il <;> simp [path]

/-- A block that is new, or that is held as it is. -/
lemma dbget_spec (newblock : Bool) (h : Coh ∅ c) (ht : total c < c.bufs.length) (b : ℤ) :
    ∃ q c1, dbget newblock c b = some (q, c1) ∧ Coh {k | newblock = true ∧ k = b} c1 ∧
      view c1 = Function.update (view c) b q ∧ (newblock = true → q = fun _ => 0) ∧
      (newblock = false → q = view c b) ∧
      total c1 = total c + 1 ∧ c1.bufs.length = c.bufs.length ∧
      ∀ c2 q' dirt, After {k | newblock = true ∧ k = b} c1 c2 →
        (dirt = true ∨ newblock = false ∧ q' = view c2 b) →
        After ∅ c (free c2 b q' dirt) ∧
          view (free c2 b q' dirt) = Function.update (view c2) b q' := by
  cases newblock with
  | false =>
    have he : {k : ℤ | false = true ∧ k = b} = ∅ := by
      ext k
      simp
    rw [he]
    obtain ⟨c1, h1, h2, h3, h4, h5, h6, h7⟩ := hold h (b := b) ht (Set.notMem_empty b)
    refine ⟨view c b, c1, h1, h2, ?_, by simp, fun _ => rfl, h4, h5, fun c2 q' dirt ha hd => ?_⟩
    · rw [h3, Function.update_eq_self]
    · exact h7 c2 q' dirt ha (hd.imp_right And.right)
  | true =>
    have he : {k : ℤ | true = true ∧ k = b} = insert b ∅ := by
      ext k
      simp
    rw [he]
    obtain ⟨c1, h1, h2, h3, h4⟩ := WriteBack.zero_spec h ht (fun _ => 0 : Block) b
    refine ⟨fun _ => 0, c1, by rw [dbget, if_pos rfl, h1]; rfl, h2, h3, fun _ => rfl, by simp,
      h4.total, h4.length, fun c2 q' dirt ha hd => ?_⟩
    have hr : 0 < refs c2 b := by
      rw [ha.refs, h4.refs, Function.update_self]
      exact Nat.succ_pos _
    obtain ⟨g1, g2, g3, g4, g5⟩ := WriteBack.free_spec ha.coh hr
      (show dirt = true ∨ q' = view c2 b ∧ b ∉ insert b ∅ from Or.inl (by simpa using hd))
    have hset : insert b (∅ : Set ℤ) \ {b} = ∅ := by simp
    rw [hset] at g1
    refine ⟨⟨g1, ?_, ?_, g5.trans (ha.length.trans h4.length)⟩, g2⟩
    · rw [g3, ha.refs, h4.refs, Function.update_self, Function.update_idem, Nat.add_sub_cancel,
        Function.update_eq_self]
    · have := h4.total
      have := ha.total
      omega

/-- **The way to a block** takes the blocks that it allocates off the list, and leads to a block
that is not on it. -/
lemma descend_spec {il : ℕ} {pb pb' : ℤ} {lb : ℕ} {newblock newblock' : Bool} {bs : List ℤ}
    (h : Coh ∅ c) (ht : total c + 2 < c.bufs.length) (hw : WellFormed (mount (view c)) l)
    (hs : pb ≠ SUPERI) (hl : pb ∉ l)
    (hp : newblock = false → ∀ b ∈ path (view c) il pb lb, b ≠ SUPERI ∧ b ∉ l)
    (hd : descend il c pb lb newblock = some (pb', newblock', c', bs)) :
    ∃ l', l = bs ++ l' ∧ After ∅ c c' ∧ Volume (view c) (view c') l' ∧ pb' ≠ SUPERI ∧ pb' ∉ l' := by
  induction il generalizing c l pb lb newblock bs with
  | zero =>
    rw [descend, Option.some.injEq] at hd
    cases hd
    exact ⟨l, rfl, After.refl h, Volume.refl hw, hs, hl⟩
  | succ il ih =>
    obtain ⟨q, c1, h1, h2, h3, h4, h5, h6, h7, h8⟩ := dbget_spec newblock h (by omega) pb
    rw [descend] at hd
    simp only [Option.bind_eq_bind] at hd
    rw [h1, Option.bind_some] at hd
    simp only at hd
    have hw1 : WellFormed (mount (view c1)) l := by
      rw [h3]
      exact wf_update hw hs hl q
    have hP : ∀ k, k ≠ pb → k ∉ {k : ℤ | newblock = true ∧ k = pb} := fun k hk hm => hk hm.2
    by_cases h0 : dentry q (lb / shifts il) = 0
    · -- the block is new
      rw [if_pos h0] at hd
      cases hbal : balloc c1 with
      | none =>
        rw [hbal] at hd
        cases hd
      | some r =>
        obtain ⟨b, c2⟩ := r
        rw [hbal, Option.bind_some] at hd
        obtain ⟨l1, rfl, g1, g2, g3⟩ := balloc_some h2 (by omega) (hP _ hs.symm) hw1
          (fun k hk => hP k fun e => hl (e ▸ hk)) hbal
        obtain ⟨e1, e2⟩ := h8 c2 (putl q (4 * (lb / shifts il)) (canl (ulong b))) true g1
          (Or.inl rfl)
        generalize hc3 : free c2 pb (putl q (4 * (lb / shifts il)) (canl (ulong b))) true = c3 at *
        have hl1 : pb ∉ l1 := fun hm => hl (List.mem_cons_of_mem _ hm)
        have hv : Volume (view c) (view c3) l1 := by
          rw [e2]
          refine Volume.update ?_ hs hl1 _
          rw [h3] at g2
          have hup : Volume (view c) (Function.update (view c) pb q) (b :: l1) :=
            (Volume.refl hw).update hs hl q
          exact hup.trans g2
        cases hrec : descend il c3 b (lb % shifts il) true with
        | none =>
          simp only [hrec] at hd
          cases hd
        | some r =>
          obtain ⟨pb2, nb2, c4, bs2⟩ := r
          simp only [hrec, Option.bind_some, Option.some.injEq, Prod.mk.injEq] at hd
          obtain ⟨rfl, rfl, rfl, rfl⟩ := hd
          have hnd := List.nodup_cons.mp hw.nodup
          obtain ⟨l', rfl, i1, i2, i3⟩ := ih e1.coh (by rw [e1.total, e1.length]; exact ht) hv.wf
            (hw.ne_super (by simp)) hnd.1 (by simp) hrec
          exact ⟨l', rfl, e1.trans i1, hv.trans i2, i3⟩
    · rw [if_neg h0] at hd
      have hnb : newblock = false := by
        cases newblock with
        | false => rfl
        | true =>
          rw [h4 rfl] at h0
          exact absurd (dentry_eq_zero.mpr (by simp [getl, getw])) h0
      have hq := h5 hnb
      obtain ⟨e1, e2⟩ := h8 c1 q false (After.refl h2) (Or.inr ⟨hnb, by
        rw [h3, Function.update_self]⟩)
      have hv : view (free c1 pb q false) = view c := by
        rw [e2, h3, Function.update_idem, hq, Function.update_eq_self]
      have hpath := hp hnb
      rw [path] at hpath
      rw [hq] at h0
      rw [if_neg h0] at hpath
      have hnext := hpath _ (List.mem_cons_of_mem _ (mem_path _ _ _ _))
      rw [← hq] at hnext
      obtain ⟨l', rfl, i1, i2, i3⟩ := ih e1.coh (by rw [e1.total, e1.length]; exact ht)
        (by rw [hv]; exact hw) hnext.1 hnext.2
        (fun _ b hb => hpath b (List.mem_cons_of_mem _ (by rwa [hv, hq] at hb))) hd
      rw [hv] at i2
      exact ⟨l', rfl, e1.trans i1, i2, i3⟩

/-- The blocks of a file that are there on the way to its block `lb`. -/
def ipath (D : ℤ → Block) (dip : Block) (lb : ℕ) : List ℤ :=
  match level lb with
  | none => []
  | some (k, il, lb) =>
    let pb := long (getl (l3tol (fun _ => 0) 0 dip 12 NADDR) (4 * k))
    if pb = 0 then [] else path D il pb lb

/-- **`dbimap`** takes the blocks that it allocates off the list, and what is written into the
buffer is not written into a block of the list. -/
theorem dbimapWrite_spec {dip dip' data : Block} {lb size : ℕ} {bs : List ℤ} (h : Coh ∅ c)
    (ht : total c + 2 < c.bufs.length) (hw : WellFormed (mount (view c)) l)
    (hp : ∀ b ∈ ipath (view c) dip lb, b ≠ SUPERI ∧ b ∉ l)
    (hd : dbimapWrite c dip lb data size = some (dip', c', bs)) :
    ∃ l', l = bs ++ l' ∧ After ∅ c c' ∧ Volume (view c) (view c') l' := by
  unfold dbimapWrite dbimap at hd
  unfold ipath at hp
  simp only [Option.bind_eq_bind] at hd
  cases hlev : level lb with
  | none =>
    rw [hlev] at hd
    cases hd
  | some r =>
    obtain ⟨k, il, lb⟩ := r
    rw [hlev] at hp hd
    rw [Option.bind_some] at hd
    dsimp only at hp hd
    -- the block in the inode
    have hfirst : ∀ dip1 pb newblock c1 bs1,
        iaddr c dip k = some (dip1, pb, newblock, c1, bs1) →
        ∃ l1, l = bs1 ++ l1 ∧ After ∅ c c1 ∧ Volume (view c) (view c1) l1 ∧ pb ≠ SUPERI ∧ pb ∉ l1 ∧
          (newblock = false → ∀ b ∈ path (view c1) il pb lb, b ≠ SUPERI ∧ b ∉ l1) := by
      intro dip1 pb newblock c1 bs1 hi
      unfold iaddr at hi
      simp only at hi
      by_cases h0 : long (getl (l3tol (fun _ => 0) 0 dip 12 NADDR) (4 * k)) = 0
      · rw [if_pos h0] at hi
        cases hbal : balloc c with
        | none =>
          rw [hbal] at hi
          cases hi
        | some r =>
          obtain ⟨b, c2⟩ := r
          rw [hbal] at hi
          cases hi
          obtain ⟨l1, rfl, g1, g2, -⟩ := balloc_some h (by omega) (Set.notMem_empty _) hw
            (fun _ _ => Set.notMem_empty _) hbal
          exact ⟨l1, rfl, g1, g2, hw.ne_super (by simp), (List.nodup_cons.mp hw.nodup).1, by simp⟩
      · rw [if_neg h0] at hi hp
        cases hi
        obtain ⟨hs, hl⟩ := hp _ (mem_path _ _ _ _)
        exact ⟨l, rfl, After.refl h, Volume.refl hw, hs, hl, fun _ => hp⟩
    cases hi : iaddr c dip k with
    | none =>
      rw [hi] at hd
      cases hd
    | some r =>
      obtain ⟨dip1, pb, newblock, c1, bs1⟩ := r
      obtain ⟨l1, rfl, a1, v1, s1, n1, p1⟩ := hfirst _ _ _ _ _ hi
      rw [hi] at hd
      rw [Option.bind_some] at hd
      dsimp only at hd
      cases hdesc : descend il c1 pb lb newblock with
      | none =>
        rw [hdesc] at hd
        cases hd
      | some r =>
        obtain ⟨pb2, nb2, c2, bs2⟩ := r
        obtain ⟨l2, rfl, a2, v2, s2, n2⟩ := descend_spec a1.coh
          (by rw [a1.total, a1.length]; exact ht) v1.wf s1 n1 p1 hdesc
        rw [hdesc] at hd
        rw [Option.bind_some] at hd
        dsimp only at hd
        obtain ⟨q, c3, e1, e2, e3, -, -, -, -, e8⟩ := dbget_spec nb2 a2.coh
          (by rw [a2.total, a2.length, a1.total, a1.length]; omega) pb2
        rw [e1] at hd
        rw [Option.bind_some, Option.map_some] at hd
        cases hd
        obtain ⟨f1, f2⟩ := e8 c3 (fun i => if i < size then data i else q i) true (After.refl e2)
          (Or.inl rfl)
        refine ⟨l2, (List.append_assoc _ _ _).symm, a1.trans (a2.trans f1), ?_⟩
        rw [f2, e3, Function.update_idem]
        exact (v1.trans v2).update s2 n2 _

/-- A block that is not on the list is written. -/
lemma rewrite_spec (h : Coh ∅ c) (ht : total c < c.bufs.length) (hw : WellFormed (mount (view c)) l)
    (hs : b ≠ SUPERI) (hl : b ∉ l) (f : Block → Block) :
    ∃ c', rewrite c b f = some c' ∧ After ∅ c c' ∧ Volume (view c) (view c') l := by
  obtain ⟨c1, h1, h2, h3, -, -, -, h7⟩ := hold h (b := b) ht (Set.notMem_empty b)
  obtain ⟨e1, e2⟩ := h7 c1 (f (view c b)) true (After.refl h2) (Or.inl rfl)
  refine ⟨_, by rw [rewrite, h1]; rfl, e1, ?_⟩
  rw [e2, h3]
  exact (Volume.refl hw).update hs hl _

end Coherent.Restor
