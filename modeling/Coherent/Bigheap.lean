import Coherent.Lib.Bytes
import Coherent.Lib.Circular

/-!
The heap of the compiler passes, in arenas of their own.

Each arena has a free list in address order that closes over an anchor outside the arena. Blocks
are counted in units of a header, and the count is computed in 16 bits: the largest requests come
out as the smallest block, and `calloc` multiplies in 16 bits as well. As long as a program asks
for no more than the units can count, every block is as large as asked for and apart from the
others, and the blocks of an arena are those that are live and those on its list.
-/

namespace Coherent.Bigheap

open Coherent.Lib Coherent.Lib.Bytes

/-! ### The code -/

abbrev NARENA : ℕ := 4
def ARENA : ℕ := 60000
def BIG : ℕ := 4096

/-- `sizeof(Header)`. -/
def hsize : ℕ := 6

/-- The size of an arena in units. -/
def UNITS : ℕ := (ARENA - 2 * hsize) / hsize

def ptr (m : Mem) (p : ℕ) : ℕ := get m p 4
def size (m : Mem) (p : ℕ) : ℕ := get m (p + 4) 2
def setPtr (m : Mem) (p v : ℕ) : Mem := put m p 4 v
def setSize (m : Mem) (p v : ℕ) : Mem := put m (p + 4) 2 v

/-- Where the arenas and the anchors are. They do not overlap, and no address has more than 32
bits. -/
structure Layout where
  bigarena : Fin NARENA → ℕ
  base : Fin NARENA → ℕ
  arenas : ∀ i j, i ≠ j → bigarena i + ARENA ≤ bigarena j ∨ bigarena j + ARENA ≤ bigarena i
  bases : ∀ i j, i ≠ j → base i + hsize ≤ base j ∨ base j + hsize ≤ base i
  anchors : ∀ i j, base j + hsize ≤ bigarena i ∨ bigarena i + ARENA ≤ base j
  arena_lt : ∀ i, bigarena i + ARENA ≤ 2 ^ 32
  base_lt : ∀ i, base i + hsize ≤ 2 ^ 32

structure Heap where
  mem : Mem
  freep : Fin NARENA → ℕ
  alo : Fin NARENA → ℕ
  ahi : Fin NARENA → ℕ
  seeded : Bool

/-- More steps than a search takes. -/
def limit : ℕ := 20000

/-- First fit inside one arena, or `NULL`: the search stops in front of a block that is large
enough, or where it began. -/
def amalloc (h : Heap) (i : Fin NARENA) (nunits : ℕ) : Option (Heap × ℕ) := do
  let m := h.mem
  let prevp ← search (fun prevp => nunits ≤ size m (ptr m prevp) || ptr m prevp = h.freep i)
    (ptr m) limit (h.freep i)
  let p := ptr m prevp
  if size m p < nunits then some (h, 0)
  else if size m p = nunits then
    some ({ h with
      mem := setPtr m prevp (ptr m p)
      freep := Function.update h.freep i prevp }, p + hsize)
  else
    let rest := size m p - nunits
    let q := p + hsize * rest
    some ({ h with
      mem := setSize (setSize m p rest) q nunits
      freep := Function.update h.freep i prevp }, q + hsize)

/-- The block `p` takes over the block `q` behind it. -/
def absorb (m : Mem) (p q : ℕ) : Mem :=
  let m := setSize m p (size m p + size m q)
  setPtr m p (ptr m q)

/-- Returns a block to its arena's list, coalescing with its neighbours. -/
def afree (h : Heap) (i : Fin NARENA) (ap : ℕ) : Option Heap := do
  let m := h.mem
  let bp := ap - hsize
  let p ← search (fun p => (p < bp ∧ bp < ptr m p) ∨ (ptr m p ≤ p ∧ (p < bp ∨ bp < ptr m p)))
    (ptr m) limit (h.freep i)
  let m := if bp + hsize * size m bp = ptr m p then absorb m bp (ptr m p)
    else setPtr m bp (ptr m p)
  let m := if p + hsize * size m p = bp then absorb m p bp else setPtr m p bp
  some { h with
    mem := m
    freep := Function.update h.freep i p }

/-- The first header boundary inside an arena. -/
def Layout.org (L : Layout) (i : Fin NARENA) : ℕ :=
  L.bigarena i + (hsize - L.bigarena i % 65536 % hsize)

def seed1 (L : Layout) (h : Heap) (i : Fin NARENA) : Option Heap :=
  let a := L.bigarena i
  let m := setSize (setPtr h.mem (L.base i) (L.base i)) (L.base i) 0
  afree { h with
    mem := setSize m (L.org i) UNITS
    freep := Function.update h.freep i (L.base i)
    alo := Function.update h.alo i a
    ahi := Function.update h.ahi i (a + ARENA) } i (L.org i + hsize)

def seed (L : Layout) (h : Heap) : Option Heap := do
  let h ← seed1 L { h with seeded := true } 0
  let h ← seed1 L h 1
  let h ← seed1 L h 2
  seed1 L h 3

/-- The first of the arenas that can. -/
def first (h : Heap) (nunits : ℕ) : List (Fin NARENA) → Option (Heap × ℕ)
  | [] => some (h, 0)
  | i :: is => do
    let (h, p) ← amalloc h i nunits
    if p ≠ 0 then some (h, p) else first h nunits is

/-- The units for so many bytes, in 16 bits. -/
def nunits (nbytes : ℕ) : ℕ := (nbytes + hsize - 1) % 65536 / hsize + 1

def malloc (L : Layout) (h : Heap) (nbytes : ℕ) : Option (Heap × ℕ) := do
  let h ← if h.seeded then some h else seed L h
  first h (nunits nbytes) (if BIG ≤ nbytes then [3, 2, 1, 0] else [0, 1, 2, 3])

/-- The arena that an address is in. -/
def whose (h : Heap) (ap : ℕ) : Option (Fin NARENA) :=
  [0, 1, 2, 3].find? fun i => h.alo i ≤ ap ∧ ap < h.ahi i

def free (h : Heap) (ap : ℕ) : Option Heap :=
  if ap = 0 then some h
  else
    match whose h ap with
    | none => some h
    | some i => afree h i ap

def calloc (L : Layout) (h : Heap) (n m : ℕ) : Option (Heap × ℕ) := do
  let i := n * m % 65536
  let (h, p) ← malloc L h i
  if p ≠ 0 then some ({ h with mem := fill h.mem p 0 i }, p) else some (h, p)

def realloc (L : Layout) (h : Heap) (ap nbytes : ℕ) : Option (Heap × ℕ) :=
  if ap = 0 then malloc L h nbytes
  else do
    let old := (size h.mem (ap - hsize) + 65535) % 65536 * hsize % 65536
    let (h, p) ← malloc L h nbytes
    if p = 0 then some (h, p)
    else
      let h ← free { h with mem := copy h.mem p ap (min old nbytes) } ap
      some (h, p)

/-! ### Headers in memory -/

section
variable {m m' : Mem} {p q v x : ℕ}

@[simp] lemma hsize_eq : hsize = 6 := rfl
@[simp] lemma units_eq : UNITS = 9998 := rfl
@[simp] lemma arena_eq : ARENA = 60000 := rfl

lemma ptr_setPtr (h : v < 2 ^ 32) : ptr (setPtr m p v) p = v :=
  get_put.trans (Nat.mod_eq_of_lt h)

lemma size_setSize (h : v < 65536) : size (setSize m p v) p = v :=
  get_put.trans (Nat.mod_eq_of_lt h)

/-- Two headers at different places do not overlap. -/
def Apart (p q : ℕ) : Prop := p + 6 ≤ q ∨ q + 6 ≤ p

lemma ptr_setPtr_of (h : Apart p q) : ptr (setPtr m q v) p = ptr m p :=
  get_put_of_apart (by unfold Apart at h; omega)

lemma ptr_setSize (h : p = q ∨ Apart p q) : ptr (setSize m q v) p = ptr m p :=
  get_put_of_apart (by unfold Apart at h; omega)

lemma size_setSize_of (h : Apart p q) : size (setSize m q v) p = size m p :=
  get_put_of_apart (by unfold Apart at h; omega)

lemma size_setPtr (h : p = q ∨ Apart p q) : size (setPtr m q v) p = size m p :=
  get_put_of_apart (by unfold Apart at h; omega)

lemma byte_setPtr (h : x < p ∨ p + 6 ≤ x) : (setPtr m p v).byte x = m.byte x :=
  put_of_apart (by omega)

lemma byte_setSize (h : x < p ∨ p + 6 ≤ x) : (setSize m p v).byte x = m.byte x :=
  put_of_apart (by omega)

lemma ptr_lt (m : Mem) (p : ℕ) : ptr m p < 2 ^ 32 := by
  have h : ∀ n p, get m p n < 256 ^ n := by
    intro n
    induction n with
    | zero => exact fun p => Nat.one_pos
    | succ n ih =>
      intro p
      have h1 := ih (p + 1)
      have h2 := (m.byte p).isLt
      have h3 : (m.byte p).toNat * 256 ^ n + 256 ^ n ≤ 256 * 256 ^ n := by
        rw [← Nat.succ_mul]
        exact Nat.mul_le_mul_right _ (by omega)
      change (m.byte p).toNat * 256 ^ n + get m (p + 1) n < 256 ^ (n + 1)
      rw [Nat.pow_succ']
      omega
  exact h 4 p

/-- A header depends on its six bytes. -/
lemma ptr_congr (h : ∀ x, p ≤ x → x < p + 6 → m'.byte x = m.byte x) : ptr m' p = ptr m p :=
  get_congr fun x h1 h2 => h x h1 (by omega)

lemma size_congr (h : ∀ x, p ≤ x → x < p + 6 → m'.byte x = m.byte x) : size m' p = size m p :=
  get_congr fun x h1 h2 => h x (by omega) (by omega)

end

/-! ### The blocks of an arena -/

structure Blk where
  addr : ℕ
  units : ℕ
  free : Bool
  deriving DecidableEq

def Blk.Has (b : Blk) (x : ℕ) : Prop := b.addr ≤ x ∧ x < b.addr + 6 * b.units

/-- The blocks cover the range from `a` to `e` one behind the other, and their headers have their
sizes. -/
def Tiling (m : Mem) : ℕ → List Blk → ℕ → Prop
  | a, [], e => a = e
  | a, b :: T, e => b.addr = a ∧ 0 < b.units ∧ size m a = b.units ∧ Tiling m (a + 6 * b.units) T e

/-- The addresses of the free blocks. -/
def frees (T : List Blk) : List ℕ := (T.filter Blk.free).map Blk.addr

/-- The live blocks. -/
def lives (T : List Blk) : List Blk := T.filter fun b => !b.free

section
variable {m m' : Mem} {a e : ℕ} {A B T : List Blk} {b c : Blk}

lemma tiling_append : Tiling m a (A ++ B) e ↔ ∃ c, Tiling m a A c ∧ Tiling m c B e := by
  induction A generalizing a with
  | nil =>
    constructor
    · exact fun h => ⟨a, rfl, h⟩
    · rintro ⟨c, rfl, h⟩
      exact h
  | cons b A ih =>
    change b.addr = a ∧ 0 < b.units ∧ size m a = b.units ∧ Tiling m _ (A ++ B) e ↔
      ∃ c, (b.addr = a ∧ 0 < b.units ∧ size m a = b.units ∧ Tiling m _ A c) ∧ Tiling m c B e
    rw [ih]
    constructor
    · rintro ⟨h1, h2, h3, c, h4, h5⟩
      exact ⟨c, ⟨h1, h2, h3, h4⟩, h5⟩
    · rintro ⟨c, ⟨h1, h2, h3, h4⟩, h5⟩
      exact ⟨h1, h2, h3, c, h4, h5⟩

lemma Tiling.le (h : Tiling m a T e) : a ≤ e := by
  induction T generalizing a with
  | nil => exact le_of_eq h
  | cons b T ih =>
    have := ih h.2.2.2
    omega

lemma Tiling.mem (h : Tiling m a T e) (hb : b ∈ T) :
    a ≤ b.addr ∧ b.addr + 6 * b.units ≤ e ∧ 0 < b.units ∧ size m b.addr = b.units := by
  induction T generalizing a with
  | nil => cases hb
  | cons c T ih =>
    obtain ⟨h1, h2, h3, h4⟩ := h
    rcases List.mem_cons.mp hb with rfl | hb
    · exact ⟨h1.ge, h1 ▸ h4.le, h2, h1 ▸ h3⟩
    · obtain ⟨h5, h6⟩ := ih h4 hb
      exact ⟨by omega, h6⟩

lemma Tiling.congr (h : Tiling m a T e) (he : ∀ b ∈ T, size m' b.addr = size m b.addr) :
    Tiling m' a T e := by
  induction T generalizing a with
  | nil => exact h
  | cons c T ih =>
    obtain ⟨h1, h2, h3, h4⟩ := h
    refine ⟨h1, h2, ?_, ih h4 fun b hb => he b (List.mem_cons_of_mem c hb)⟩
    rw [← h3, ← h1]
    exact he c List.mem_cons_self

lemma Tiling.sorted (h : Tiling m a T e) :
    T.Pairwise fun b c => b.addr + 6 * b.units ≤ c.addr := by
  induction T generalizing a with
  | nil => exact List.Pairwise.nil
  | cons c T ih =>
    obtain ⟨h1, h2, h3, h4⟩ := h
    exact List.pairwise_cons.mpr ⟨fun b hb => h1 ▸ (h4.mem hb).1, ih h4⟩

/-- Two blocks are the same or do not overlap. -/
lemma Tiling.disjoint (h : Tiling m a T e) (hb : b ∈ T) (hc : c ∈ T) :
    b = c ∨ b.addr + 6 * b.units ≤ c.addr ∨ c.addr + 6 * c.units ≤ b.addr := by
  obtain ⟨A, B, rfl⟩ := List.append_of_mem hb
  obtain ⟨-, h1, h2⟩ := List.pairwise_append.mp h.sorted
  rcases List.mem_append.mp hc with hc | hc
  · exact Or.inr (Or.inr (h2 c hc b List.mem_cons_self))
  · rcases List.mem_cons.mp hc with rfl | hc
    · exact Or.inl rfl
    · exact Or.inr (Or.inl ((List.pairwise_cons.mp h1).1 c hc))

@[simp] lemma frees_append : frees (A ++ B) = frees A ++ frees B := by
  simp [frees]

@[simp] lemma lives_append : lives (A ++ B) = lives A ++ lives B := by
  simp [lives]

lemma frees_cons_free (hb : b.free = true) : frees (b :: B) = b.addr :: frees B := by
  simp [frees, hb]

lemma frees_cons_live (hb : b.free = false) : frees (b :: B) = frees B := by
  simp [frees, hb]

lemma lives_cons_free (hb : b.free = true) : lives (b :: B) = lives B := by
  simp [lives, hb]

lemma mem_frees {x : ℕ} : x ∈ frees T ↔ ∃ b ∈ T, b.free = true ∧ b.addr = x := by
  simp [frees, and_assoc]

lemma Tiling.frees_sorted (h : Tiling m a T e) : (frees T).Pairwise (· < ·) := by
  have h1 : (T.filter Blk.free).Pairwise fun b c => b.addr + 6 * b.units ≤ c.addr :=
    h.sorted.filter _
  refine List.pairwise_map.mpr (h1.imp_of_mem fun {b c} hb _ hbc => ?_)
  have := (h.mem (List.mem_of_mem_filter hb)).2.2.1
  omega

lemma Tiling.length_le (h : Tiling m a T e) : a + 6 * T.length ≤ e := by
  induction T generalizing a with
  | nil => exact le_of_eq h
  | cons c T ih =>
    obtain ⟨h1, h2, h3, h4⟩ := h
    have := ih h4
    rw [List.length_cons]
    omega

lemma frees_length : (frees T).length ≤ T.length := by
  unfold frees
  rw [List.length_map]
  exact List.length_filter_le ..

end

/-! ### One arena -/

/-- The free list of an arena closes over the anchor, it has the free blocks of the arena in the
order of their addresses, and no two of them are neighbours. -/
structure Listed (L : Layout) (i : Fin NARENA) (m : Mem) (T : List Blk) : Prop where
  tiling : Tiling m (L.org i) T (L.org i + 59988)
  circle : Circular (ptr m) (L.base i) (frees T)
  anchor : size m (L.base i) = 0
  maximal : T.IsChain fun b c => ¬(b.free = true ∧ c.free = true)

/-- Only free blocks and the anchor are written. -/
def Kept (L : Layout) (i : Fin NARENA) (T : List Blk) (m m' : Mem) : Prop :=
  ∀ x, (∀ c ∈ T, c.free = true → ¬c.Has x) → ¬(L.base i ≤ x ∧ x < L.base i + 6) →
    m'.byte x = m.byte x

section
variable {L : Layout} {i j : Fin NARENA} {m m' : Mem} {T A B : List Blk} {b c : Blk} {x y z n : ℕ}

lemma Layout.org_bounds (L : Layout) (i : Fin NARENA) :
    L.bigarena i < L.org i ∧ L.org i ≤ L.bigarena i + 6 := by
  unfold Layout.org
  simp only [hsize_eq]
  omega

/-- An anchor is in front of an arena or behind it. -/
lemma Layout.base_out (L : Layout) (i j : Fin NARENA) :
    L.base j + 6 ≤ L.org i ∨ L.org i + 59988 < L.base j := by
  have h1 := L.org_bounds i
  have h2 := L.anchors i j
  simp only [hsize_eq, arena_eq] at h2
  omega

lemma Layout.org_lt (L : Layout) (i : Fin NARENA) : L.org i + 59988 < 2 ^ 32 := by
  have h1 := L.org_bounds i
  have h2 := L.arena_lt i
  simp only [arena_eq] at h2
  omega

lemma Listed.ring_lt (h : Listed L i m T) (hx : x ∈ L.base i :: frees T) : x < 2 ^ 32 := by
  rcases List.mem_cons.mp hx with rfl | hx
  · have := L.base_lt i
    simp only [hsize_eq] at this
    omega
  · obtain ⟨b, hb, -, rfl⟩ := mem_frees.mp hx
    have h1 := h.tiling.mem hb
    have h2 := L.org_lt i
    omega

/-- A cell of the list and a block have the same header, or do not overlap. -/
lemma Listed.ring_apart (h : Listed L i m T) (hx : x ∈ L.base i :: frees T) (hb : b ∈ T) :
    x = b.addr ∨ Apart x b.addr ∧ ∀ y, b.Has y → y < x ∨ x + 6 ≤ y := by
  have h1 := h.tiling.mem hb
  unfold Apart Blk.Has
  rcases List.mem_cons.mp hx with rfl | hx
  · have h2 := L.base_out i i
    refine Or.inr ⟨by omega, fun y hy => by omega⟩
  · obtain ⟨c, hc, -, rfl⟩ := mem_frees.mp hx
    have h3 := h.tiling.mem hc
    rcases h.tiling.disjoint hc hb with rfl | h4
    · exact Or.inl rfl
    · exact Or.inr ⟨by omega, fun y hy => by omega⟩

lemma Listed.base_apart (h : Listed L i m T) (hb : b ∈ T) : Apart (L.base i) b.addr := by
  have h1 := h.tiling.mem hb
  have h2 := L.base_out i i
  unfold Apart
  omega

lemma Listed.apart (h : Listed L i m T) (hx : x ∈ L.base i :: frees T)
    (hy : y ∈ L.base i :: frees T) : x = y ∨ Apart x y := by
  rcases List.mem_cons.mp hy with rfl | hy
  · rcases List.mem_cons.mp hx with rfl | hx
    · exact Or.inl rfl
    · obtain ⟨c, hc, -, rfl⟩ := mem_frees.mp hx
      exact Or.inr (Or.symm (h.base_apart hc))
  · obtain ⟨c, hc, -, rfl⟩ := mem_frees.mp hy
    exact (h.ring_apart hx hc).imp_right And.left

lemma Listed.nodup (h : Listed L i m T) : (L.base i :: frees T).Nodup := by
  refine List.nodup_cons.mpr ⟨fun hm => ?_, h.tiling.frees_sorted.imp ne_of_lt⟩
  obtain ⟨b, hb, -, he⟩ := mem_frees.mp hm
  have := h.base_apart hb
  unfold Apart at this
  omega

lemma Listed.length (h : Listed L i m T) : 2 * (frees T).length + 1 < limit := by
  have h1 := h.tiling.length_le
  have h2 := frees_length (T := T)
  unfold limit
  omega

/-- The header of a cell of the list is that of a free block or the anchor. -/
lemma Listed.kept (h : Listed L i m T) (hz : z ∈ L.base i :: frees T)
    (h1 : ∀ c ∈ T, c.free = true → ¬c.Has x) (h2 : ¬(L.base i ≤ x ∧ x < L.base i + 6)) :
    x < z ∨ z + 6 ≤ x := by
  rcases List.mem_cons.mp hz with rfl | hz
  · omega
  · obtain ⟨c, hc, hf, rfl⟩ := mem_frees.mp hz
    have h3 := h1 c hc hf
    have h4 := h.tiling.mem hc
    unfold Blk.Has at h3
    omega

/-- What is left of a free block and the block carved from its end. -/
def carve (b : Blk) (n : ℕ) : List Blk :=
  if b.units = n then [⟨b.addr, n, false⟩]
  else [⟨b.addr, b.units - n, true⟩, ⟨b.addr + 6 * (b.units - n), n, false⟩]

/-- Taking a block from the middle of a row. -/
lemma maximal_carve (h : (A ++ b :: B).IsChain fun b c => ¬(b.free = true ∧ c.free = true))
    (hb : b.free = true) : (A ++ carve b n ++ B).IsChain
      fun b c => ¬(b.free = true ∧ c.free = true) := by
  obtain ⟨h1, h2, h3⟩ := List.isChain_append.mp h
  have h4 := (List.isChain_cons.mp h2).2
  unfold carve
  rw [List.append_assoc]
  refine List.isChain_append.mpr ⟨h1, ?_, fun x hx y hy => ?_⟩
  · split_ifs
    · exact List.isChain_cons.mpr ⟨fun y _ h => Bool.noConfusion h.1, h4⟩
    · refine List.isChain_cons_cons.mpr ⟨fun h => Bool.noConfusion h.2, ?_⟩
      exact List.isChain_cons.mpr ⟨fun y _ h => Bool.noConfusion h.1, h4⟩
  · have h5 := h3 x hx b rfl
    rintro ⟨h6, -⟩
    exact h5 ⟨h6, hb⟩

lemma mem_ring_of_mem (hb : b ∈ T) (hf : b.free = true) : b.addr ∈ L.base i :: frees T :=
  List.mem_cons_of_mem _ (mem_frees.mpr ⟨b, hb, hf, rfl⟩)

/-- A whole block is taken off the list. -/
lemma Listed.unlink (h : Listed L i m (A ++ b :: B)) (hb : b.free = true)
    (hz : z ∈ L.base i :: frees (A ++ b :: B)) (hp : ptr m z = b.addr) :
    Listed L i (setPtr m z (ptr m b.addr)) (A ++ ⟨b.addr, b.units, false⟩ :: B) ∧
      z ∈ L.base i :: frees A := by
  have hfrees : frees (A ++ b :: B) = frees A ++ b.addr :: frees B := by
    rw [frees_append, frees_cons_free hb]
  have hnew : frees (A ++ ⟨b.addr, b.units, false⟩ :: B) = frees A ++ frees B := by
    rw [frees_append, frees_cons_live rfl]
  have hring := h.circle
  have hnd := h.nodup
  have hz' := hz
  rw [hfrees] at hring hnd hz'
  have hsub : ∀ y, y ∈ L.base i :: (frees A ++ frees B) →
      y ∈ L.base i :: frees (A ++ b :: B) := by
    intro y hy
    rw [hfrees]
    rcases List.mem_cons.mp hy with rfl | hy
    · exact List.mem_cons_self
    · rcases List.mem_append.mp hy with hy | hy <;> simp [hy]
  obtain ⟨hc, hzA⟩ := hring.remove (ptr (setPtr m z (ptr m b.addr))) hnd hz' hp
    (ptr_setPtr (ptr_lt m _))
    fun y hy hne => ptr_setPtr_of ((h.apart (hsub y hy) hz).resolve_left hne)
  have hsz : ∀ c ∈ A ++ b :: B, size (setPtr m z (ptr m b.addr)) c.addr = size m c.addr := by
    intro c hc
    refine size_setPtr ?_
    rcases h.ring_apart hz hc with h1 | ⟨h1, -⟩
    · exact Or.inl h1.symm
    · exact Or.inr (Or.symm h1)
  refine ⟨⟨?_, hnew ▸ hc, ?_, ?_⟩, hzA⟩
  · obtain ⟨d, h1, h2, h3, h4, h5⟩ := tiling_append.mp (h.tiling.congr hsz)
    exact tiling_append.mpr ⟨d, h1, h2, h3, h4, h5⟩
  · rw [size_setPtr ((h.apart List.mem_cons_self hz))]
    exact h.anchor
  · have h1 := maximal_carve (n := b.units) h.maximal hb
    rw [carve, if_pos rfl, List.append_assoc] at h1
    exact h1

/-- A block is carved from the end of a larger one. -/
lemma Listed.split (h : Listed L i m (A ++ b :: B)) (hb : b.free = true) (hn : 0 < n)
    (hlt : n < b.units) :
    Listed L i (setSize (setSize m b.addr (b.units - n)) (b.addr + 6 * (b.units - n)) n)
      (A ++ carve b n ++ B) := by
  have hbm : b ∈ A ++ b :: B := by simp
  obtain ⟨hb1, hb2, hb3, hb4⟩ := h.tiling.mem hbm
  have horg := L.base_out i i
  set q := b.addr + 6 * (b.units - n) with hq
  have hcarve : carve b n = [⟨b.addr, b.units - n, true⟩, ⟨q, n, false⟩] := if_neg (by omega)
  have hf : frees (A ++ carve b n ++ B) = frees (A ++ b :: B) := by
    rw [hcarve, frees_append, frees_append, frees_append, frees_cons_free rfl,
      frees_cons_live rfl, frees_cons_free hb, List.append_assoc]
    rfl
  -- the other blocks are apart from both headers
  have hother : ∀ c ∈ A ++ b :: B, c ≠ b → Apart c.addr b.addr ∧ Apart c.addr q := by
    intro c hc hne
    have h1 := h.tiling.mem hc
    unfold Apart
    rcases h.tiling.disjoint hc hbm with rfl | h2
    · exact absurd rfl hne
    · omega
  have hbase : Apart (L.base i) b.addr ∧ Apart (L.base i) q := by
    unfold Apart
    omega
  have hptr : ∀ x ∈ L.base i :: frees (A ++ b :: B),
      ptr (setSize (setSize m b.addr (b.units - n)) q n) x = ptr m x := by
    intro x hx
    have h1 : (x = b.addr ∨ Apart x b.addr) ∧ Apart x q := by
      rcases List.mem_cons.mp hx with rfl | hx
      · exact ⟨Or.inr hbase.1, hbase.2⟩
      · obtain ⟨c, hc, -, rfl⟩ := mem_frees.mp hx
        by_cases he : c = b
        · subst he
          refine ⟨Or.inl rfl, ?_⟩
          unfold Apart
          omega
        · exact ⟨Or.inr (hother c hc he).1, (hother c hc he).2⟩
    rw [ptr_setSize (Or.inr h1.2), ptr_setSize h1.1]
  have hsz : ∀ c ∈ A ++ b :: B, c ≠ b →
      size (setSize (setSize m b.addr (b.units - n)) q n) c.addr = size m c.addr := by
    intro c hc hne
    rw [size_setSize_of (hother c hc hne).2, size_setSize_of (hother c hc hne).1]
  have hlim : b.units < 65536 := by omega
  refine ⟨?_, ?_, ?_, maximal_carve h.maximal hb⟩
  · obtain ⟨d, h1, rfl, h3, h4, h5⟩ := tiling_append.mp h.tiling
    have hnotA : ∀ c ∈ A, c ≠ b := by
      rintro c hc rfl
      have := h1.mem hc
      omega
    have hnotB : ∀ c ∈ B, c ≠ b := by
      rintro c hc rfl
      have := h5.mem hc
      omega
    rw [hcarve, List.append_assoc]
    refine tiling_append.mpr ⟨b.addr, ?_, rfl, ?_, ?_, rfl, hn, ?_, ?_⟩
    · exact h1.congr fun c hc => hsz c (by simp [hc]) (hnotA c hc)
    · change 0 < b.units - n
      omega
    · have h6 : Apart b.addr q := by
        unfold Apart
        omega
      rw [size_setSize_of h6, size_setSize (by omega)]
    · exact size_setSize (by omega)
    · have h7 : b.addr + 6 * (b.units - n) + 6 * n = b.addr + 6 * b.units := by omega
      change Tiling _ (b.addr + 6 * (b.units - n) + 6 * n) B _
      rw [h7]
      exact h5.congr fun c hc => hsz c (by simp [hc]) (hnotB c hc)
  · rw [hf]
    refine Chain.congr h.circle fun x hx => hptr x ?_
    rwa [List.dropLast_concat] at hx
  · rw [size_setSize_of hbase.2, size_setSize_of hbase.1]
    exact h.anchor

end

/-! ### Taking a block -/

section
variable {L : Layout} {h : Heap} {i : Fin NARENA} {T : List Blk} {n : ℕ}

/-- **First fit.** Either no block is taken and the heap stays as it is, or one is carved from a
free block that is large enough. -/
lemma amalloc_spec (hL : Listed L i h.mem T) (hfp : h.freep i ∈ L.base i :: frees T)
    (hn : 0 < n) :
    amalloc h i n = some (h, 0) ∨
    ∃ A b B m z, T = A ++ b :: B ∧ b.free = true ∧ n ≤ b.units ∧
      amalloc h i n = some ({ h with
        mem := m
        freep := Function.update h.freep i z }, b.addr + 6 * (b.units - n) + 6) ∧
      Listed L i m (A ++ carve b n ++ B) ∧ z ∈ L.base i :: frees (A ++ carve b n ++ B) ∧
      Kept L i T h.mem m := by
  obtain ⟨y, hy, hyp⟩ := hL.circle.exists_prev hfp
  obtain ⟨z, hz, hs, hstop⟩ := hL.circle.search_eq
    (fun prevp => n ≤ size h.mem (ptr h.mem prevp) || ptr h.mem prevp = h.freep i)
    hfp hy (by simp [hyp]) hL.length
  have hpm := hL.circle.next_mem hz
  have hunf : amalloc h i n = if size h.mem (ptr h.mem z) < n then some (h, 0)
      else if size h.mem (ptr h.mem z) = n then
        some ({ h with
          mem := setPtr h.mem z (ptr h.mem (ptr h.mem z))
          freep := Function.update h.freep i z }, ptr h.mem z + hsize)
      else some ({ h with
          mem := setSize (setSize h.mem (ptr h.mem z) (size h.mem (ptr h.mem z) - n))
            (ptr h.mem z + hsize * (size h.mem (ptr h.mem z) - n)) n
          freep := Function.update h.freep i z },
          ptr h.mem z + hsize * (size h.mem (ptr h.mem z) - n) + hsize) := by
    unfold amalloc
    dsimp only
    rw [hs]
    rfl
  by_cases hlt : size h.mem (ptr h.mem z) < n
  · exact Or.inl (hunf.trans (if_pos hlt))
  rw [if_neg hlt] at hunf
  refine Or.inr ?_
  -- the block found is not the anchor
  have hpf : ptr h.mem z ∈ frees T := by
    rcases List.mem_cons.mp hpm with he | hpf
    · rw [he, hL.anchor] at hlt
      omega
    · exact hpf
  obtain ⟨b, hb, hbf, hbp⟩ := mem_frees.mp hpf
  obtain ⟨A, B, rfl⟩ := List.append_of_mem hb
  obtain ⟨hb1, hb2, hb3, hb4⟩ := hL.tiling.mem hb
  rw [← hbp, hb4] at hunf hlt
  have hzb : b.addr ∈ L.base i :: frees (A ++ b :: B) := mem_ring_of_mem hb hbf
  by_cases heq : b.units = n
  · -- all of it
    rw [if_pos heq] at hunf
    obtain ⟨h1, h2⟩ := hL.unlink hbf hz hbp.symm
    have hc : A ++ carve b n ++ B = A ++ ⟨b.addr, b.units, false⟩ :: B := by
      rw [carve, if_pos heq, List.append_assoc, heq]
      rfl
    have hr : b.addr + 6 * (b.units - n) + 6 = b.addr + hsize := by
      rw [hsize_eq]
      omega
    refine ⟨A, b, B, _, z, rfl, hbf, heq.ge, hr ▸ hunf, hc ▸ h1, ?_, ?_⟩
    · rw [hc, frees_append, ← List.cons_append]
      exact List.mem_append_left _ h2
    · exact fun x hx1 hx2 => byte_setPtr (hL.kept hz hx1 hx2)
  · -- its end
    rw [if_neg heq] at hunf
    have hlt' : n < b.units := by omega
    have hc : carve b n =
        [⟨b.addr, b.units - n, true⟩, ⟨b.addr + 6 * (b.units - n), n, false⟩] := if_neg heq
    have hf : frees (A ++ carve b n ++ B) = frees (A ++ b :: B) := by
      rw [hc, frees_append, frees_append, frees_append, frees_cons_free rfl,
        frees_cons_live rfl, frees_cons_free hbf, List.append_assoc]
      rfl
    refine ⟨A, b, B, _, z, rfl, hbf, hlt'.le, hunf, hL.split hbf hn hlt', hf ▸ hz, ?_⟩
    intro x hx1 hx2
    have h3 := hx1 b hb hbf
    unfold Blk.Has at h3
    rw [byte_setSize (by rw [hsize_eq]; omega), byte_setSize (by omega)]

end

end Coherent.Bigheap
