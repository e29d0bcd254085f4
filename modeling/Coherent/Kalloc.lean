import Coherent.Lib.Bytes
import Coherent.Lib.Run

/-!
The storage allocator of the kernel: `setarena`, `alloc` and `free`.

Each block begins with the address of the next one, whose low bit says that the block is used;
the last link goes back to the first block. Free blocks are joined only when `alloc` comes by.
Pointers are whole addresses, and no sum of them wraps.
-/

namespace Coherent.Kalloc

open Coherent.Lib Coherent.Lib.Bytes

/-- `sizeof(ALL)` -/
def sizeofALL : ℕ := 4

def a_link (m : Mem) (p : ℕ) : ℕ := get m p 4
def setLink (m : Mem) (p v : ℕ) : Mem := put m p 4 v

def align (p : ℕ) : ℕ := p / 2 * 2
def link (m : Mem) (p : ℕ) : ℕ := align (a_link m p)
def tstfree (m : Mem) (p : ℕ) : Prop := a_link m p % 2 = 0
def setfree (m : Mem) (p : ℕ) : Mem := setLink m p (align (a_link m p))
def setused (m : Mem) (p : ℕ) : Mem := setLink m p (align (a_link m p) + 1)

instance (m : Mem) (p : ℕ) : Decidable (tstfree m p) := inferInstanceAs (Decidable (_ = _))

/-- Create an arena in `n` bytes; `none` is the panic. -/
def setarena (m : Mem) (cp n : ℕ) : Option (Mem × ℕ) :=
  let ap1 := if align cp < cp then align cp + sizeofALL else align cp
  let ap2 := align (cp + n) - sizeofALL
  if ap2 < ap1 then none
  else
    let m := setLink m ap1 ap2
    let m := setLink m ap2 ap1
    some (setused m ap2, ap1)

/-- The inner loop of `alloc`: the end of the free blocks from `ap2` on. -/
def runEnd (m : Mem) (apq : ℕ) : ℕ → ℕ → Option ℕ
  | 0, _ => none
  | f + 1, ap2 =>
    if tstfree m ap2 then
      if ap2 = apq then some ap2 else runEnd m apq f (link m ap2)
    else some ap2

/-- The block at `ap1` becomes the caller's. -/
def grant (m : Mem) (ap1 l : ℕ) : Mem × ℕ :=
  let m := setused m ap1
  (fill m (ap1 + sizeofALL) 0 l, ap1 + sizeofALL)

/-- What `alloc` gives of the free bytes from `ap1` to `ap2`; `none` if it goes on. -/
def carve (m : Mem) (ap1 ap2 l n i : ℕ) : Option (Mem × ℕ) :=
  let s := (ap2 - ap1) / sizeofALL
  if s ≥ n then
    if s > n then
      if i = 0 then none
      else
        let ap := ap1 + sizeofALL * n
        let m := setLink m ap ap2
        let m := setLink m ap1 ap
        some (grant m ap1 l)
    else some (grant m ap1 l)
  else none

/-- One walk of `alloc` along the arena, from `ap1` on and for so many blocks at most; the first
one, `i = 0`, takes only what fits exactly. -/
def pass (limit apq l n i : ℕ) : ℕ → Mem → ℕ → Option (Mem × Option ℕ)
  | 0, _, _ => none
  | f + 1, m, ap1 =>
    if link m ap1 = apq then some (m, none)
    else if ap1 = 0 then none
    else if tstfree m ap1 then
      match runEnd m apq limit (link m ap1) with
      | none => none
      | some ap2 =>
        let m := setLink m ap1 ap2
        match carve m ap1 ap2 l n i with
        | some r => some (r.1, some r.2)
        | none => pass limit apq l n i f m (link m ap1)
    else pass limit apq l n i f m (link m ap1)

/-- The size of a request, in units of an `ALL`. -/
def units (l : ℕ) : ℕ := 1 + (l + sizeofALL - 1) % 65536 / sizeofALL

/-- Allocate `l` bytes; `some (_, none)` is the result `NULL`. -/
def alloc (limit : ℕ) (m : Mem) (apq l : ℕ) : Option (Mem × Option ℕ) :=
  match pass limit apq l (units l) 0 limit m apq with
  | some (m, none) => pass limit apq l (units l) 1 limit m apq
  | r => r

/-- Free a block; `bound` is the address of `end`, and `none` the panic. -/
def free (bound : ℕ) (m : Mem) (cp : ℕ) : Option Mem :=
  let ap := cp - sizeofALL
  if ap < bound ∨ tstfree m ap then none else some (setfree m ap)

/-! ### Links -/

variable {m m' : Mem} {p q v x a c e apq l n i f k limit : ℕ}

@[simp] lemma sizeofALL_eq : sizeofALL = 4 := rfl

lemma a_link_setLink (h : v < 2 ^ 32) : a_link (setLink m p v) p = v :=
  get_put.trans (Nat.mod_eq_of_lt h)

lemma a_link_setLink_of (h : p + 4 ≤ q ∨ q + 4 ≤ p) : a_link (setLink m q v) p = a_link m p :=
  get_put_of_apart h

lemma byte_setLink (h : x < p ∨ p + 4 ≤ x) : (setLink m p v).byte x = m.byte x :=
  put_of_apart h

lemma a_link_congr (h : ∀ x, p ≤ x → x < p + 4 → m'.byte x = m.byte x) :
    a_link m' p = a_link m p :=
  get_congr h

/-! ### The blocks of an arena -/

/-- A block, and the request that it was given for if it is used. -/
structure Blk where
  addr : ℕ
  size : ℕ
  req : Option ℕ
  deriving DecidableEq

/-- A block has room for its link and for what was requested. -/
structure Blk.Sized (b : Blk) : Prop where
  even : 2 ∣ b.size
  pos : 4 ≤ b.size
  room : ∀ l, b.req = some l → 4 + l ≤ b.size

/-- The link of a block. -/
def Blk.word (b : Blk) : ℕ := b.addr + b.size + if b.req.isSome then 1 else 0

/-- The blocks cover the range from `a` to `e`, one behind the other. -/
def Tiling (m : Mem) : ℕ → List Blk → ℕ → Prop
  | a, [], e => a = e
  | a, b :: T, e => b.addr = a ∧ b.Sized ∧ a_link m a = b.word ∧ Tiling m (a + b.size) T e

variable {b : Blk} {T R S F : List Blk}

lemma tiling_append : Tiling m a (R ++ S) e ↔ ∃ c, Tiling m a R c ∧ Tiling m c S e := by
  induction R generalizing a with
  | nil =>
    constructor
    · exact fun h => ⟨a, rfl, h⟩
    · rintro ⟨c, rfl, h⟩
      exact h
  | cons b R ih =>
    change b.addr = a ∧ b.Sized ∧ a_link m a = b.word ∧ Tiling m _ (R ++ S) e ↔
      ∃ c, (b.addr = a ∧ b.Sized ∧ a_link m a = b.word ∧ Tiling m _ R c) ∧ Tiling m c S e
    rw [ih]
    constructor
    · rintro ⟨h1, h2, h3, c, h4, h5⟩
      exact ⟨c, ⟨h1, h2, h3, h4⟩, h5⟩
    · rintro ⟨c, ⟨h1, h2, h3, h4⟩, h5⟩
      exact ⟨h1, h2, h3, c, h4, h5⟩

/-- The bytes of some blocks. -/
def total (T : List Blk) : ℕ := (T.map Blk.size).sum

@[simp] lemma total_nil : total [] = 0 := rfl
@[simp] lemma total_cons : total (b :: T) = b.size + total T := by simp [total]
@[simp] lemma total_append : total (R ++ S) = total R + total S := by simp [total]

lemma Tiling.end_eq (h : Tiling m a T e) : e = a + total T := by
  induction T generalizing a with
  | nil => exact h.symm
  | cons b T ih =>
    rw [ih h.2.2.2, total_cons, Nat.add_assoc]

lemma Tiling.length_le (h : Tiling m a T e) : a + 4 * T.length ≤ e := by
  induction T generalizing a with
  | nil => exact le_of_eq h
  | cons b T ih =>
    have h1 := ih h.2.2.2
    have h2 := h.2.1.pos
    rw [List.length_cons]
    omega

lemma Tiling.even (h : Tiling m a T e) (ha : 2 ∣ a) : 2 ∣ e := by
  induction T generalizing a with
  | nil => exact h ▸ ha
  | cons b T ih => exact ih h.2.2.2 (Nat.dvd_add ha h.2.1.even)

/-- Blocks stay as they are where no link changes. -/
lemma Tiling.congr (h : Tiling m a T e) (he : ∀ x, a ≤ x → x < e → m'.byte x = m.byte x) :
    Tiling m' a T e := by
  induction T generalizing a with
  | nil => exact h
  | cons b T ih =>
    obtain ⟨h1, h2, h3, h4⟩ := h
    have hle := h4.length_le
    have hpos := h2.pos
    refine ⟨h1, h2, ?_, ih h4 fun x hx => he x (by omega)⟩
    rw [a_link_congr fun x hx hx' => he x hx (by omega), h3]

lemma Tiling.mem (h : Tiling m a T e) (hb : b ∈ T) :
    a ≤ b.addr ∧ b.addr + b.size ≤ e ∧ b.Sized ∧ a_link m b.addr = b.word := by
  obtain ⟨R, S, rfl⟩ := List.append_of_mem hb
  obtain ⟨c, hR, rfl, hs, hw, hS⟩ := tiling_append.mp h
  have h1 := hR.length_le
  have h2 := hS.length_le
  exact ⟨by omega, by omega, hs, hw⟩

/-- The blocks are in the order of their addresses and do not overlap. -/
lemma Tiling.sorted (h : Tiling m a T e) : T.Pairwise fun b c => b.addr + b.size ≤ c.addr := by
  induction T generalizing a with
  | nil => exact List.Pairwise.nil
  | cons b T ih =>
    obtain ⟨h1, -, -, h4⟩ := h
    exact List.pairwise_cons.mpr ⟨fun c hc => h1 ▸ (h4.mem hc).1, ih h4⟩

/-! ### Runs of free blocks -/

/-- Some free blocks in a row have room for `k` units. -/
def Fits (k : ℕ) (T : List Blk) : Prop :=
  ∃ F, F <:+: T ∧ (∀ b ∈ F, b.req = none) ∧ 4 * k ≤ total F

/-- The first block, if there is any, is used. -/
def Shut (T : List Blk) : Prop := ∀ b ∈ T.head?, b.req ≠ none

lemma fits_used (hb : b.req ≠ none) : Fits k (b :: T) ↔ Fits k T := by
  constructor
  · rintro ⟨F, hF, hfree, hk⟩
    rcases List.infix_cons_iff.mp hF with hF | hF
    · cases F with
      | nil => exact ⟨[], List.nil_infix, hfree, hk⟩
      | cons c F =>
        obtain ⟨rfl, -⟩ := List.cons_prefix_cons.mp hF
        exact absurd (hfree c List.mem_cons_self) hb
    · exact ⟨F, hF, hfree, hk⟩
  · rintro ⟨F, hF, h⟩
    exact ⟨F, hF.trans (List.suffix_cons b T).isInfix, h⟩

/-- Free blocks at the front end where the first used one is. -/
lemma free_prefix_run (hS : Shut S) (hF : F <+: R ++ S) (hfree : ∀ b ∈ F, b.req = none) :
    F <+: R := by
  induction R generalizing F with
  | nil =>
    cases F with
    | nil => exact List.nil_prefix
    | cons c F =>
      obtain ⟨t, ht⟩ := hF
      have hc : c ∈ S.head? := by
        rw [List.nil_append] at ht
        rw [← ht]
        rfl
      exact absurd (hfree c List.mem_cons_self) (hS c hc)
  | cons b R ih =>
    cases F with
    | nil => exact List.nil_prefix
    | cons c F =>
      obtain ⟨hcb, hF'⟩ := List.cons_prefix_cons.mp hF
      exact List.cons_prefix_cons.mpr
        ⟨hcb, ih hF' fun b hb => hfree b (List.mem_cons_of_mem c hb)⟩

lemma total_initial (h : F <+: R) : total F ≤ total R := by
  obtain ⟨t, rfl⟩ := h
  rw [total_append]
  omega

/-- A run of free blocks in front of a used one fits as a whole, or something behind it does. -/
lemma fits_run (hR : ∀ b ∈ R, b.req = none) (hS : Shut S) :
    Fits k (R ++ S) ↔ 4 * k ≤ total R ∨ Fits k S := by
  constructor
  · induction R with
    | nil => exact Or.inr
    | cons b R ih =>
      rintro ⟨F, hF, hfree, hk⟩
      rcases List.infix_cons_iff.mp hF with hF | hF
      · exact Or.inl (hk.trans (total_initial (free_prefix_run (R := b :: R) hS hF hfree)))
      · rcases ih (fun c hc => hR c (List.mem_cons_of_mem b hc)) ⟨F, hF, hfree, hk⟩ with h | h
        · refine Or.inl (h.trans ?_)
          rw [total_cons]
          omega
        · exact Or.inr h
  · rintro (h | ⟨F, hF, h⟩)
    · exact ⟨R, (List.prefix_append R S).isInfix, hR, h⟩
    · exact ⟨F, hF.trans (List.suffix_append R S).isInfix, h⟩

/-- The blocks in use. -/
def live (T : List Blk) : List Blk := T.filter fun b => b.req.isSome

@[simp] lemma live_append : live (R ++ S) = live R ++ live S := by simp [live]

lemma live_free (hR : ∀ b ∈ R, b.req = none) : live R = [] := by
  refine List.filter_eq_nil_iff.mpr fun b hb => ?_
  rw [hR b hb]
  simp

lemma mem_live : b ∈ live T ↔ b ∈ T ∧ b.req ≠ none := by
  rw [live, List.mem_filter, Option.isSome_iff_ne_none]

/-- What callers have: the addresses they were given, with their requests. -/
def owned (T : List Blk) : List (ℕ × ℕ) :=
  (live T).filterMap fun b => b.req.map fun l => (b.addr + sizeofALL, l)

/-! ### The walks of `alloc` -/

lemma link_eq (hw : a_link m a = b.word) (hb : b.addr = a) (ha : 2 ∣ a) (hs : b.Sized) :
    link m a = a + b.size ∧ (tstfree m a ↔ b.req = none) := by
  have he := hs.even
  rw [link, tstfree, hw, Blk.word, hb, align]
  cases hr : b.req with
  | none =>
    simp only [Option.isSome_none, Bool.false_eq_true, if_false, iff_true]
    omega
  | some l =>
    simp only [Option.isSome_some, if_true, reduceCtorEq, iff_false]
    omega

/-- The used block at the end, which points to the first one. -/
structure Marker (m : Mem) (apq e : ℕ) : Prop where
  word : a_link m e = apq + 1
  even : 2 ∣ apq
  pos : 0 < apq
  lt : e + 4 ≤ 2 ^ 32

lemma Marker.link (h : Marker m apq e) : link m e = apq ∧ ¬ tstfree m e := by
  have he := h.even
  rw [Kalloc.link, tstfree, h.word, align]
  omega

/-- The inner loop finds the first used block. -/
lemma runEnd_spec (h : Tiling m a T e) (hm : Marker m apq e) (ha : 2 ∣ a) (hlt : apq < a)
    (hf : T.length < f) :
    ∃ R S c, T = R ++ S ∧ (∀ b ∈ R, b.req = none) ∧ Shut S ∧ runEnd m apq f a = some c ∧
      Tiling m a R c ∧ Tiling m c S e := by
  induction T generalizing a f with
  | nil =>
    obtain ⟨f, rfl⟩ := Nat.exists_eq_succ_of_ne_zero hf.ne_bot
    obtain rfl : a = e := h
    refine ⟨[], [], a, rfl, by simp, by simp [Shut], ?_, rfl, rfl⟩
    rw [runEnd, if_neg hm.link.2]
  | cons b T ih =>
    obtain ⟨f, rfl⟩ := Nat.exists_eq_succ_of_ne_zero hf.ne_bot
    obtain ⟨h1, h2, h3, h4⟩ := id h
    obtain ⟨hl, hfree⟩ := link_eq h3 h1 ha h2
    by_cases hr : b.req = none
    · rw [List.length_cons] at hf
      obtain ⟨R, S, c, rfl, hR, hS, hrun, hT1, hT2⟩ := ih (f := f) h4 (Nat.dvd_add ha h2.even)
        (by omega) (by omega)
      refine ⟨b :: R, S, c, rfl, ?_, hS, ?_, ⟨h1, h2, h3, hT1⟩, hT2⟩
      · intro b' hb'
        rcases List.mem_cons.mp hb' with rfl | hb'
        · exact hr
        · exact hR b' hb'
      · rw [runEnd, if_pos (hfree.mpr hr), if_neg (by omega), hl, hrun]
    · refine ⟨[], b :: T, a, rfl, by simp, ?_, ?_, rfl, h⟩
      · intro b' hb'
        obtain rfl : b = b' := Option.some.inj hb'
        exact hr
      · rw [runEnd, if_neg fun ht => hr (hfree.mp ht)]

/-- What a walk from `a` on leaves: the bytes of the blocks in use have not changed. -/
def Untouched (m m' : Mem) (T : List Blk) (a e : ℕ) : Prop :=
  ∀ x, (a ≤ x → x < e → ∃ b ∈ T, b.req ≠ none ∧ b.addr ≤ x ∧ x < b.addr + b.size) →
    m'.byte x = m.byte x

/-- The outcome of a walk. -/
inductive Outcome (T : List Blk) (l n i : ℕ) : List Blk → Option ℕ → Prop
  | null {T' : List Blk} (hlive : live T' = live T) (hfits : ∀ k, Fits k T' ↔ Fits k T)
      (hno : i ≠ 0 → ¬ Fits n T) : Outcome T l n i T' none
  | given {A B : List Blk} {b : Blk} (hfits : Fits n T) (hreq : b.req = some l)
      (hlive : live T = live (A ++ B)) : Outcome T l n i (A ++ b :: B) (some (b.addr + sizeofALL))

lemma grant_spec (hw : a_link m a = v) (hv : 2 ∣ v) (hlt : v + 1 < 2 ^ 32) :
    a_link (grant m a l).1 a = v + 1 ∧
      ∀ x, x < a ∨ a + 4 + l ≤ x → (grant m a l).1.byte x = m.byte x := by
  have hv' : align v = v := by
    rw [align]
    omega
  have hg : (grant m a l).1 = fill (setLink m a (v + 1)) (a + 4) 0 l := by
    rw [grant, setused, hw, hv']
    rfl
  rw [hg]
  constructor
  · rw [a_link_congr (m := setLink m a (v + 1)) fun x h1 h2 => fill_of_apart (by omega),
      a_link_setLink hlt]
  · intro x hx
    rw [fill_of_apart (by omega), byte_setLink (by omega)]

/-- Where a run of free blocks lies in the arena. -/
structure At (m : Mem) (apq a : ℕ) (R S : List Blk) (c e : ℕ) : Prop where
  run : Tiling m a R c
  rest : Tiling m c S e
  free : ∀ b ∈ R, b.req = none
  shut : Shut S
  four : a + 4 ≤ c
  even : 2 ∣ a
  marker : Marker m apq e

lemma At.joined (h : At m apq a R S c e) :
    a_link (setLink m a c) a = c ∧ link (setLink m a c) a = c ∧ Tiling (setLink m a c) c S e ∧
      Marker (setLink m a c) apq e := by
  have hle := h.rest.length_le
  have hlt := h.marker.lt
  have hfour := h.four
  have hc := h.run.even h.even
  have hself : a_link (setLink m a c) a = c := a_link_setLink (by omega)
  refine ⟨hself, ?_, h.rest.congr fun x hx _ => byte_setLink (by omega), ?_, h.marker.even,
    h.marker.pos, hlt⟩
  · rw [link, hself, align]
    omega
  · rw [a_link_setLink_of (by omega), h.marker.word]

/-- **On with the next block**: the run is one block now. -/
lemma At.skip (h : At m apq a R S c e) {m' : Mem} {S' : List Blk} {r : Option ℕ}
    (hS' : Tiling m' c S' e) (hu : Untouched (setLink m a c) m' S c e) (hshut : Shut S')
    (ho : Outcome S l n i S' r) (hn : i ≠ 0 → ¬ 4 * n ≤ c - a) :
    Tiling m' a (⟨a, c - a, none⟩ :: S') e ∧ Untouched m m' (R ++ S) a e ∧
      Outcome (R ++ S) l n i (⟨a, c - a, none⟩ :: S') r := by
  have hfour := h.four
  have hend := h.run.end_eq
  have hc := h.run.even h.even
  have hliveR : live (R ++ S) = live S := by rw [live_append, live_free h.free, List.nil_append]
  have hfits : ∀ k, Fits k (⟨a, c - a, none⟩ :: S') ↔ 4 * k ≤ c - a ∨ Fits k S' := by
    intro k
    have := fits_run (k := k) (R := [⟨a, c - a, none⟩]) (by simp) hshut
    rwa [total_cons, total_nil, Nat.add_zero, List.singleton_append] at this
  have hfits' : ∀ k, Fits k (R ++ S) ↔ 4 * k ≤ c - a ∨ Fits k S := by
    intro k
    have htot : total R = c - a := by omega
    rw [fits_run h.free h.shut, htot]
  refine ⟨⟨rfl, ⟨?_, ?_, by simp⟩, ?_, ?_⟩, fun x hx => ?_, ?_⟩
  · show 2 ∣ c - a
    have := h.even
    omega
  · show 4 ≤ c - a
    omega
  · have hsame : a_link m' a = a_link (setLink m a c) a := by
      refine a_link_congr fun x h1 h2 => hu x fun h3 => ?_
      omega
    rw [hsame, h.joined.1, Blk.word]
    simp only [Option.isSome_none, Bool.false_eq_true, if_false]
    omega
  · show Tiling m' (a + (c - a)) S' e
    rwa [Nat.add_sub_cancel' (by omega)]
  · have hx' : (c ≤ x → x < e → ∃ b ∈ S, b.req ≠ none ∧ b.addr ≤ x ∧ x < b.addr + b.size) ∧
        (x < a ∨ a + 4 ≤ x) := by
      by_cases hin : a ≤ x ∧ x < e
      · obtain ⟨b, hb, hreq, h1, h2⟩ := hx hin.1 hin.2
        rcases List.mem_append.mp hb with hb | hb
        · exact absurd (h.free b hb) hreq
        · have := (h.rest.mem hb).1
          exact ⟨fun _ _ => ⟨b, hb, hreq, h1, h2⟩, by omega⟩
      · have := h.rest.length_le
        exact ⟨fun h1 h2 => absurd ⟨by omega, h2⟩ hin, by omega⟩
    rw [hu x hx'.1, byte_setLink hx'.2]
  · cases ho with
    | null hlive hf hno =>
      refine .null ?_ (fun k => ?_) fun hi => ?_
      · rw [hliveR, ← hlive]
        rfl
      · rw [hfits, hfits', hf]
      · rw [hfits']
        exact not_or.mpr ⟨hn hi, hno hi⟩
    | @given A B b hf hreq hlive =>
      refine @Outcome.given (R ++ S) l n i (⟨a, c - a, none⟩ :: A) B b ((hfits' n).mpr (Or.inr hf))
        hreq ?_
      rw [hliveR, hlive]
      rfl

/-- Bytes that change only in a run of free blocks are in no used block. -/
lemma At.untouched (h : At m apq a R S c e) {m' : Mem}
    (hb : ∀ x, x < a ∨ c ≤ x → m'.byte x = m.byte x) : Untouched m m' (R ++ S) a e := by
  intro x hx
  refine hb x ?_
  by_cases hin : a ≤ x ∧ x < e
  · obtain ⟨b, hbm, hreq, h1, -⟩ := hx hin.1 hin.2
    rcases List.mem_append.mp hbm with hbm | hbm
    · exact absurd (h.free b hbm) hreq
    · have := (h.rest.mem hbm).1
      omega
  · have := h.rest.length_le
    omega

/-- The run is big enough, so it is what the request gets a part of. -/
lemma At.given (h : At m apq a R S c e) (hn : 4 * n ≤ c - a) (hb : b.req = some l) :
    Outcome (R ++ S) l n i (b :: S) (some (b.addr + sizeofALL)) := by
  have htot : total R = c - a := by
    have := h.run.end_eq
    omega
  refine @Outcome.given (R ++ S) l n i [] S b ?_ hb ?_
  · exact (fits_run h.free h.shut).mpr (Or.inl (htot ▸ hn))
  · rw [live_append, live_free h.free]
    rfl

/-- **The run is just big enough.** -/
lemma At.exact (h : At m apq a R S c e) (hl : 4 + l ≤ 4 * n) (hn : (c - a) / 4 = n) :
    Tiling (grant (setLink m a c) a l).1 a (⟨a, c - a, some l⟩ :: S) e ∧
      Untouched m (grant (setLink m a c) a l).1 (R ++ S) a e ∧
      Outcome (R ++ S) l n i (⟨a, c - a, some l⟩ :: S) (some (a + sizeofALL)) := by
  have hfour := h.four
  have hlt := h.marker.lt
  have hle := h.rest.length_le
  have hc := h.run.even h.even
  have ha := h.even
  obtain ⟨hself, -, hrest, -⟩ := h.joined
  obtain ⟨hw, hbytes⟩ := grant_spec (l := l) hself hc (by omega)
  refine ⟨⟨rfl, ⟨?_, ?_, ?_⟩, ?_, ?_⟩, h.untouched fun x hx => ?_, h.given (by omega) rfl⟩
  · show 2 ∣ c - a
    omega
  · show 4 ≤ c - a
    omega
  · intro l' hl'
    obtain rfl := Option.some.inj hl'
    show 4 + l ≤ c - a
    omega
  · rw [hw, Blk.word]
    simp only [Option.isSome_some, if_true]
    omega
  · show Tiling _ (a + (c - a)) S e
    rw [Nat.add_sub_cancel' (by omega)]
    exact hrest.congr fun x h1 _ => hbytes x (by omega)
  · rw [hbytes x (by omega), byte_setLink (by omega)]

/-- The memory after a block of `n` units has been cut off a run. -/
def cut (m : Mem) (a c n : ℕ) : Mem :=
  setLink (setLink (setLink m a c) (a + sizeofALL * n) c) a (a + sizeofALL * n)

/-- **The run is cut in two.** -/
lemma At.split (h : At m apq a R S c e) (hl : 4 + l ≤ 4 * n) (hn : n < (c - a) / 4) :
    Tiling (grant (cut m a c n) a l).1 a
        (⟨a, 4 * n, some l⟩ :: ⟨a + 4 * n, c - (a + 4 * n), none⟩ :: S) e ∧
      Untouched m (grant (cut m a c n) a l).1 (R ++ S) a e ∧
      Outcome (R ++ S) l n i (⟨a, 4 * n, some l⟩ :: ⟨a + 4 * n, c - (a + 4 * n), none⟩ :: S)
        (some (a + sizeofALL)) := by
  have hfour := h.four
  have hlt := h.marker.lt
  have hle := h.rest.length_le
  have hc := h.run.even h.even
  have ha := h.even
  have hself : a_link (cut m a c n) a = a + 4 * n := by
    unfold cut
    rw [sizeofALL_eq]
    exact a_link_setLink (by omega)
  have hnext : a_link (cut m a c n) (a + 4 * n) = c := by
    unfold cut
    rw [sizeofALL_eq, a_link_setLink_of (by omega)]
    exact a_link_setLink (by omega)
  have hcut : ∀ x, x < a ∨ c ≤ x → (cut m a c n).byte x = m.byte x := by
    intro x hx
    unfold cut
    rw [sizeofALL_eq, byte_setLink (by omega), byte_setLink (by omega), byte_setLink (by omega)]
  obtain ⟨hw, hbytes⟩ := grant_spec (l := l) hself (by omega) (by omega)
  refine ⟨⟨rfl, ⟨?_, ?_, ?_⟩, ?_, rfl, ⟨?_, ?_, by simp⟩, ?_, ?_⟩, h.untouched fun x hx => ?_, ?_⟩
  · show 2 ∣ 4 * n
    omega
  · show 4 ≤ 4 * n
    omega
  · intro l' hl'
    obtain rfl := Option.some.inj hl'
    exact hl
  · rw [hw, Blk.word]
    simp only [Option.isSome_some, if_true]
  · show 2 ∣ c - (a + 4 * n)
    omega
  · show 4 ≤ c - (a + 4 * n)
    omega
  · show a_link _ (a + 4 * n) = _
    rw [a_link_congr fun x h1 _ => hbytes x (by omega), hnext, Blk.word]
    simp only [Option.isSome_none, Bool.false_eq_true, if_false]
    omega
  · have hadd : a + 4 * n + (c - (a + 4 * n)) = c := by omega
    show Tiling _ (a + 4 * n + (c - (a + 4 * n))) S e
    rw [hadd]
    exact h.rest.congr fun x h1 _ => by rw [hbytes x (by omega), hcut x (Or.inr h1)]
  · rw [hbytes x (by omega), hcut x hx]
  · have := fits_run (k := n) h.free h.shut
    have htot : total R = c - a := by
      have := h.run.end_eq
      omega
    refine @Outcome.given (R ++ S) l n i [] (⟨a + 4 * n, c - (a + 4 * n), none⟩ :: S)
      ⟨a, 4 * n, some l⟩ (this.mpr (Or.inl (by omega))) rfl ?_
    rw [live_append, live_free h.free]
    rfl

/-- **One walk** along the arena. -/
lemma pass_spec (h : Tiling m a T e) (hm : Marker m apq e) (ha : 2 ∣ a) (hge : apq ≤ a)
    (hl : 4 + l ≤ 4 * n) (hf : T.length < f) (hlim : f ≤ limit) :
    ∃ m' T' r, pass limit apq l n i f m a = some (m', r) ∧ Tiling m' a T' e ∧ Untouched m m' T a e ∧
      (Shut T → Shut T') ∧ Outcome T l n i T' r := by
  induction f generalizing T m a with
  | zero => omega
  | succ f ih =>
  cases T with
  | nil =>
    obtain rfl : a = e := h
    refine ⟨m, [], none, ?_, rfl, fun x _ => rfl, id, .null rfl (fun _ => Iff.rfl) fun _ => ?_⟩
    · rw [pass, if_pos hm.link.1]
    · rintro ⟨F, hF, -, hk⟩
      rw [List.infix_nil.mp hF, total_nil] at hk
      omega
  | cons b T =>
    obtain ⟨h1, h2, h3, h4⟩ := id h
    obtain ⟨hlink, hfree⟩ := link_eq h3 h1 ha h2
    have hpos := hm.pos
    have hsize := h2.pos
    rw [List.length_cons] at hf
    rw [pass, if_neg (by omega), if_neg (by omega)]
    by_cases hr : b.req = none
    · -- a free block, with those behind it
      obtain ⟨R, S, c, hRS, hR, hS, hrun, hT1, hT2⟩ := runEnd_spec (f := limit) h4 hm
        (Nat.dvd_add ha h2.even) (by omega) (by omega)
      have hat : At m apq a (b :: R) S c e := by
        refine ⟨⟨h1, h2, h3, hT1⟩, hT2, fun b' hb' => ?_, hS, ?_, ha, hm⟩
        · rcases List.mem_cons.mp hb' with rfl | hb'
          · exact hr
          · exact hR b' hb'
        · have := hT1.length_le
          omega
      obtain ⟨-, hlink', hT3, hm3⟩ := hat.joined
      have hlen : S.length < f := by
        rw [hRS, List.length_append] at hf
        omega
      have hfour := hat.four
      obtain ⟨m', S', r, hp, hS', hu, hshut, ho⟩ :=
        ih hT3 hm3 (hat.run.even ha) (by omega) hlen (by omega)
      have hskip := fun hn => hat.skip hS' hu (hshut hS) ho hn
      have hopen : Shut (b :: (R ++ S)) → False := fun hsh => hsh b rfl hr
      rw [if_pos (hfree.mpr hr), hlink, hrun, hRS]
      dsimp only
      rw [hlink', carve, sizeofALL_eq]
      by_cases hge' : (c - a) / 4 ≥ n
      · rw [if_pos hge']
        by_cases hgt : (c - a) / 4 > n
        · rw [if_pos hgt]
          by_cases hi : i = 0
          · obtain ⟨k1, k2, k3⟩ := hskip fun hne => absurd hi hne
            rw [if_pos hi]
            exact ⟨m', _, r, hp, k1, k2, fun hsh => (hopen hsh).elim, k3⟩
          · obtain ⟨k1, k2, k3⟩ := hat.split (i := i) hl hgt
            rw [if_neg hi]
            exact ⟨_, _, _, rfl, k1, k2, fun hsh => (hopen hsh).elim, k3⟩
        · obtain ⟨k1, k2, k3⟩ := hat.exact (i := i) hl (by omega)
          rw [if_neg hgt]
          exact ⟨_, _, _, rfl, k1, k2, fun hsh => (hopen hsh).elim, k3⟩
      · obtain ⟨k1, k2, k3⟩ := hskip fun _ => by omega
        rw [if_neg hge']
        exact ⟨m', _, r, hp, k1, k2, fun hsh => (hopen hsh).elim, k3⟩
    · -- a block in use
      obtain ⟨m', T', r, hp, hT', hu, -, ho⟩ :=
        ih h4 hm (Nat.dvd_add ha h2.even) (by omega) (by omega) (by omega)
      rw [if_neg fun ht => hr (hfree.mp ht), hlink]
      refine ⟨m', b :: T', r, hp, ⟨h1, h2, ?_, hT'⟩, fun x hx => ?_, fun _ => ?_, ?_⟩
      · rw [a_link_congr fun x _ _ => hu x fun _ _ => ?_, h3]
        omega
      · refine hu x fun g1 g2 => ?_
        obtain ⟨b', hb', hreq, g3, g4⟩ := hx (by omega) g2
        rcases List.mem_cons.mp hb' with rfl | hb'
        · omega
        · exact ⟨b', hb', hreq, g3, g4⟩
      · intro b' hb'
        obtain rfl : b = b' := Option.some.inj hb'
        exact hr
      · cases ho with
        | null hlive hfits hno =>
          refine .null ?_ (fun k => ?_) fun hi => ?_
          · show live ([b] ++ T') = live ([b] ++ T)
            rw [live_append, live_append, hlive]
          · rw [fits_used hr, fits_used hr, hfits]
          · rw [fits_used hr]
            exact hno hi
        | @given A B b' hfits hreq hlive =>
          refine @Outcome.given (b :: T) l n i (b :: A) B b' ((fits_used hr).mpr hfits) hreq ?_
          show live ([b] ++ T) = live ([b] ++ (A ++ B))
          simp only [live_append, hlive]

lemma Marker.kept (h : Marker m apq e) (hu : Untouched m m' T a e) : Marker m' apq e :=
  ⟨by rw [a_link_congr fun x h1 _ => hu x fun _ _ => by omega, h.word], h.even, h.pos, h.lt⟩

lemma Untouched.trans {m₁ m₂ : Mem} {T₁ : List Blk} (h : Untouched m m₁ T a e)
    (h' : Untouched m₁ m₂ T₁ a e) (hlive : live T₁ = live T) : Untouched m m₂ T a e := by
  intro x hx
  rw [h' x fun h1 h2 => ?_, h x hx]
  obtain ⟨b, hb, hreq, h3⟩ := hx h1 h2
  have hb' : b ∈ live T₁ := by
    rw [hlive]
    exact mem_live.mpr ⟨hb, hreq⟩
  exact ⟨b, (mem_live.mp hb').1, hreq, h3⟩

/-- **`alloc`**: it gives a block just when some free blocks in a row have room for it. -/
lemma alloc_spec (h : Tiling m apq T e) (hm : Marker m apq e) (hl : l + 3 < 65536)
    (hlim : e < apq + 4 * limit) :
    ∃ m' T' r, alloc limit m apq l = some (m', r) ∧ Tiling m' apq T' e ∧ Marker m' apq e ∧
      Untouched m m' T apq e ∧ Outcome T l (units l) 1 T' r := by
  have hl' : 4 + l ≤ 4 * units l := by
    rw [units, sizeofALL_eq]
    omega
  have hlen : ∀ {m T}, Tiling m apq T e → T.length < limit := by
    intro m T h
    have := h.length_le
    omega
  obtain ⟨m₁, T₁, r₁, hp, hT₁, hu₁, -, ho₁⟩ :=
    pass_spec (i := 0) h hm hm.even (le_refl apq) hl' (hlen h) (le_refl limit)
  cases ho₁ with
  | null hlive hfits _ =>
    obtain ⟨m₂, T₂, r₂, hp₂, hT₂, hu₂, -, ho₂⟩ :=
      pass_spec (i := 1) hT₁ (hm.kept hu₁) hm.even (le_refl apq) hl' (hlen hT₁) (le_refl limit)
    refine ⟨m₂, T₂, r₂, by rw [alloc, hp]; exact hp₂, hT₂, (hm.kept hu₁).kept hu₂,
      hu₁.trans hu₂ hlive, ?_⟩
    cases ho₂ with
    | null hlive₂ hfits₂ hno =>
      refine .null (hlive₂.trans hlive) (fun k => (hfits₂ k).trans (hfits k)) fun hi => ?_
      rw [← hfits]
      exact hno hi
    | given hf hreq hlive₂ => exact .given ((hfits _).mp hf) hreq (hlive.symm.trans hlive₂)
  | given hf hreq hlive =>
    exact ⟨m₁, _, _, by rw [alloc, hp], hT₁, hm.kept hu₁, hu₁, .given hf hreq hlive⟩

/-- **`free`**: the block is free, and nothing else changes. -/
lemma free_spec {A B : List Blk} {bound : ℕ} (h : Tiling m apq (A ++ b :: B) e)
    (hm : Marker m apq e) (hb : b.req ≠ none) (hbound : bound ≤ apq) :
    ∃ m', free bound m (b.addr + sizeofALL) = some m' ∧
      Tiling m' apq (A ++ { b with req := none } :: B) e ∧ Marker m' apq e := by
  obtain ⟨c, hA, h1, h2, h3, hB⟩ := tiling_append.mp h
  have hc := hA.even hm.even
  obtain ⟨hlink, hfree⟩ := link_eq h3 h1 hc h2
  have hle := hA.length_le
  have hle' := hB.length_le
  have hpos := h2.pos
  have hlt := hm.lt
  have hset : setfree m c = setLink m c (c + b.size) := by
    rw [setfree]
    exact congrArg _ hlink
  have hap : b.addr + sizeofALL - sizeofALL = c := by omega
  refine ⟨setfree m c, ?_, tiling_append.mpr ⟨c, ?_, h1, ⟨h2.even, h2.pos, by simp⟩, ?_, ?_⟩, ?_⟩
  · rw [free, hap, if_neg]
    rintro (hlo | ht)
    · omega
    · exact hb (hfree.mp ht)
  · rw [hset]
    exact hA.congr fun x h4 h5 => byte_setLink (by omega)
  · rw [hset, a_link_setLink (by omega), Blk.word]
    simp only [Option.isSome_none, Bool.false_eq_true, if_false]
    omega
  · rw [hset]
    exact hB.congr fun x h4 h5 => byte_setLink (by omega)
  · refine ⟨?_, hm.even, hm.pos, hm.lt⟩
    rw [hset, a_link_setLink_of (by omega), hm.word]

/-- A caller may write what it likes into its block. -/
lemma Tiling.set {A B : List Blk} {d : BitVec 8} (h : Tiling m a (A ++ b :: B) e)
    (hx : b.addr + 4 ≤ x) (hx' : x < b.addr + b.size) : Tiling (m.set x d) a (A ++ b :: B) e := by
  obtain ⟨c, hA, h1, h2, h3, hB⟩ := tiling_append.mp h
  refine tiling_append.mpr ⟨c, ?_, h1, h2, ?_, ?_⟩
  · exact hA.congr fun y h4 h5 => set_of_ne (by omega)
  · rw [a_link_congr fun y h4 h5 => set_of_ne (by omega), h3]
  · exact hB.congr fun y h4 h5 => set_of_ne (by omega)

/-! ### All blocks -/

/-- An arena and what its callers have. -/
structure Holds (m : Mem) (apq e : ℕ) (L : List (ℕ × ℕ)) (T : List Blk) : Prop where
  tiling : Tiling m apq T e
  marker : Marker m apq e
  perm : (owned T).Perm L

variable {L : List (ℕ × ℕ)}

lemma owned_append : owned (R ++ S) = owned R ++ owned S := by simp [owned]

lemma owned_used {A B : List Blk} (hb : b.req = some l) :
    owned (A ++ b :: B) = owned A ++ (b.addr + sizeofALL, l) :: owned B := by
  have hcons : owned (b :: B) = (b.addr + sizeofALL, l) :: owned B := by
    rw [owned, live, List.filter_cons_of_pos (by rw [hb]; rfl), List.filterMap_cons, hb]
    rfl
  rw [owned_append, hcons]

lemma mem_owned : (p, l) ∈ owned T ↔ ∃ b ∈ T, b.req = some l ∧ b.addr + sizeofALL = p := by
  rw [owned, List.mem_filterMap]
  constructor
  · rintro ⟨b, hb, he⟩
    obtain ⟨l', hl', he⟩ := Option.map_eq_some_iff.mp he
    obtain ⟨h1, h2⟩ := Prod.mk.inj he
    exact ⟨b, (mem_live.mp hb).1, by rw [hl', h2], h1⟩
  · rintro ⟨b, hb, hr, rfl⟩
    exact ⟨b, mem_live.mpr ⟨hb, by simp [hr]⟩, by rw [hr]; rfl⟩

/-- What callers have lies in the arena. -/
lemma Holds.bounds (h : Holds m apq e L T) (hp : (p, l) ∈ L) : apq + 4 ≤ p ∧ p + l ≤ e := by
  obtain ⟨b, hb, hr, rfl⟩ := mem_owned.mp (h.perm.mem_iff.mpr hp)
  obtain ⟨h1, h2, h3, -⟩ := h.tiling.mem hb
  have := h3.room l hr
  rw [sizeofALL_eq]
  omega

/-- One lies before the other, with the link of the other between them. -/
def Apart (x y : ℕ × ℕ) : Prop := x.1 + x.2 + 4 ≤ y.1 ∨ y.1 + y.2 + 4 ≤ x.1

lemma owned_apart (h : Tiling m a T e) : (owned T).Pairwise Apart := by
  have hT : T.Pairwise fun b c => b.Sized ∧ b.addr + b.size ≤ c.addr :=
    h.sorted.imp_of_mem fun {b c} hb _ hbc => ⟨(h.mem hb).2.2.1, hbc⟩
  refine List.Pairwise.filterMap _ (fun b c hbc x hx y hy => ?_) (hT.filter _)
  obtain ⟨l, hl, rfl⟩ := Option.map_eq_some_iff.mp hx
  obtain ⟨l', -, rfl⟩ := Option.map_eq_some_iff.mp hy
  have := hbc.1.room l hl
  have := hbc.2
  refine Or.inl ?_
  dsimp only [sizeofALL_eq]
  omega

lemma Holds.apart (h : Holds m apq e L T) : L.Pairwise Apart :=
  (h.perm.pairwise_iff fun h => h.symm).mp (owned_apart h.tiling)

inductive Op
  | alloc (l : ℕ)
  | free (p : ℕ)
  | write (x : ℕ) (d : BitVec 8)

/-- One call, or a caller's store into what it has. Only what is live is freed. -/
inductive Step (limit bound apq : ℕ) :
    Mem × List (ℕ × ℕ) → Op → Mem × List (ℕ × ℕ) → Prop
  | give {m m' : Mem} {L : List (ℕ × ℕ)} {l p : ℕ} (h : alloc limit m apq l = some (m', some p)) :
      Step limit bound apq (m, L) (.alloc l) (m', (p, l) :: L)
  | null {m m' : Mem} {L : List (ℕ × ℕ)} {l : ℕ} (h : alloc limit m apq l = some (m', none)) :
      Step limit bound apq (m, L) (.alloc l) (m', L)
  | free {m m' : Mem} {L : List (ℕ × ℕ)} {l p : ℕ} (hp : (p, l) ∈ L)
      (h : free bound m p = some m') : Step limit bound apq (m, L) (.free p) (m', L.erase (p, l))
  | write {m : Mem} {L : List (ℕ × ℕ)} {l p x : ℕ} (d : BitVec 8) (hp : (p, l) ∈ L) (h1 : p ≤ x)
      (h2 : x < p + l) : Step limit bound apq (m, L) (.write x d) (m.set x d, L)

/-- The request is one that `alloc` can round up. -/
def Op.Fine : Op → Prop
  | .alloc l => l + 3 < 65536
  | _ => True

lemma step_holds {bound : ℕ} {s t : Mem × List (ℕ × ℕ)} {op : Op} (hlim : e < apq + 4 * limit)
    (hbound : bound ≤ apq) (h : Step limit bound apq s op t) (hop : op.Fine)
    (hs : ∃ T, Holds s.1 apq e s.2 T) : ∃ T, Holds t.1 apq e t.2 T := by
  obtain ⟨T, hT⟩ := hs
  cases h with
  | @give m m' L l p h =>
    obtain ⟨m₁, T₁, r, ha, hT₁, hm₁, -, ho⟩ := alloc_spec hT.tiling hT.marker hop hlim
    obtain ⟨rfl, rfl⟩ := Prod.mk.inj (Option.some.inj (ha.symm.trans h))
    refine ⟨T₁, hT₁, hm₁, ?_⟩
    generalize hr : some p = r at ho
    cases ho with
    | null => cases hr
    | given _ hreq hlive =>
      obtain rfl := Option.some.inj hr
      rw [owned_used hreq]
      refine List.perm_middle.trans (List.Perm.cons _ ?_)
      rw [← owned_append, owned, ← hlive]
      exact hT.perm
  | @null m m' L l h =>
    obtain ⟨m₁, T₁, r, ha, hT₁, hm₁, -, ho⟩ := alloc_spec hT.tiling hT.marker hop hlim
    obtain ⟨rfl, rfl⟩ := Prod.mk.inj (Option.some.inj (ha.symm.trans h))
    refine ⟨T₁, hT₁, hm₁, ?_⟩
    generalize hr : none = r at ho
    cases ho with
    | null hlive =>
      rw [owned, hlive]
      exact hT.perm
    | given => cases hr
  | @free m m' L l p hp h =>
    obtain ⟨b, hb, hr, rfl⟩ := mem_owned.mp (hT.perm.mem_iff.mpr hp)
    obtain ⟨A, B, rfl⟩ := List.append_of_mem hb
    obtain ⟨m₁, hf, hT₁, hm₁⟩ := free_spec hT.tiling hT.marker (by simp [hr]) hbound
    obtain rfl := Option.some.inj (hf.symm.trans h)
    refine ⟨_, hT₁, hm₁, ?_⟩
    have hfree : owned (A ++ { b with req := none } :: B) = owned A ++ owned B := by
      rw [owned_append]
      rfl
    have hperm := hT.perm
    rw [owned_used hr] at hperm
    rw [hfree]
    exact List.Perm.cons_inv
      (List.perm_middle.symm.trans (hperm.trans (List.perm_cons_erase hp)))
  | @write m L l p x d hp h1 h2 =>
    obtain ⟨b, hb, hr, rfl⟩ := mem_owned.mp (hT.perm.mem_iff.mpr hp)
    obtain ⟨A, B, rfl⟩ := List.append_of_mem hb
    obtain ⟨-, hle, hs, -⟩ := hT.tiling.mem hb
    have hroom := hs.room l hr
    rw [sizeofALL_eq] at h1 h2
    refine ⟨_, hT.tiling.set (by omega) (by omega), ⟨?_, hT.marker.even, hT.marker.pos,
      hT.marker.lt⟩, hT.perm⟩
    rw [a_link_congr fun y h3 h4 => set_of_ne (by omega), hT.marker.word]

/-- The first block of an arena in the bytes from `cp` on. -/
def first (cp : ℕ) : ℕ := if cp % 2 = 0 then cp else cp + 3

/-- **`setarena`** makes one free block, unless there is room for half a link only. -/
lemma setarena_spec {cp n : ℕ} {m₁ : Mem} (hcp : 0 < cp) (hlt : cp + n ≤ 2 ^ 32)
    (hgap : align (cp + n) ≠ first cp + 6) (h : setarena m cp n = some (m₁, apq)) :
    apq = first cp ∧ ∃ e T, e + 4 ≤ cp + n ∧ Holds m₁ apq e [] T := by
  have hfirst : (if align cp < cp then align cp + sizeofALL else align cp) = first cp := by
    rw [align, first, sizeofALL_eq]
    split_ifs <;> omega
  unfold setarena at h
  rw [hfirst, sizeofALL_eq] at h
  dsimp only at h
  split_ifs at h with hsmall
  obtain ⟨rfl, rfl⟩ := Prod.mk.inj (Option.some.inj h)
  have heven : 2 ∣ first cp ∧ 0 < first cp := by
    rw [first]
    split_ifs <;> omega
  have heven2 : 2 ∣ align (cp + n) ∧ align (cp + n) ≤ cp + n := by
    rw [align]
    omega
  refine ⟨rfl, ?_⟩
  generalize first cp = a at *
  generalize hap2 : align (cp + n) - 4 = ap2 at *
  have hw : a_link (setLink (setLink m a ap2) ap2 a) ap2 = a := a_link_setLink (by omega)
  have hused : setused (setLink (setLink m a ap2) ap2 a) ap2 =
      setLink (setLink (setLink m a ap2) ap2 a) ap2 (a + 1) := by
    rw [setused, hw, align]
    congr 1
    omega
  have hend : a_link (setLink (setLink (setLink m a ap2) ap2 a) ap2 (a + 1)) ap2 = a + 1 :=
    a_link_setLink (by omega)
  rw [hused]
  have hmark : Marker (setLink (setLink (setLink m a ap2) ap2 a) ap2 (a + 1)) a ap2 :=
    ⟨hend, heven.1, heven.2, by omega⟩
  rcases Nat.eq_or_lt_of_le (not_lt.mp hsmall) with heq | hlt'
  · exact ⟨ap2, [], by omega, heq, hmark, .nil⟩
  · refine ⟨ap2, [⟨a, ap2 - a, none⟩], by omega, ⟨rfl, ⟨?_, ?_, by simp⟩, ?_, ?_⟩, hmark, .nil⟩
    · show 2 ∣ ap2 - a
      omega
    · show 4 ≤ ap2 - a
      omega
    · rw [a_link_setLink_of (by omega), a_link_setLink_of (by omega), a_link_setLink (by omega),
        Blk.word]
      simp only [Option.isSome_none, Bool.false_eq_true, if_false]
      omega
    · show a + (ap2 - a) = ap2
      omega

lemma run_holds {bound : ℕ} {s t : Mem × List (ℕ × ℕ)} {ops : List Op}
    (hlim : e < apq + 4 * limit) (hbound : bound ≤ apq) (h : Run (Step limit bound apq) s ops t)
    (hops : ∀ op ∈ ops, op.Fine) (hs : ∃ T, Holds s.1 apq e s.2 T) :
    ∃ T, Holds t.1 apq e t.2 T := by
  induction h with
  | nil => exact hs
  | snoc _ hst ih =>
    have hlast := ih fun op hop => hops op (List.mem_append_left _ hop)
    exact step_holds hlim hbound hst (hops _ (by simp)) hlast

end Coherent.Kalloc
