import Coherent.Bigheap

/-!
Giving a block back to an arena.

The list is searched for the last free block in front, which is the anchor where there is none. The
block then takes over its right neighbour, or points to the next free block, and its left neighbour
takes it over, or points to it. In between the arena is in two halves.
-/

namespace Coherent.Bigheap

open Coherent.Lib Coherent.Lib.Bytes

/-! ### Giving a block back -/

section
variable {L : Layout} {i : Fin NARENA} {m m' : Mem} {A B : List Blk} {b c : Blk} {p q : ℕ}

/-- The arena while a block is linked in: the list ends in front of the block, and starts again
from it. -/
structure Half (L : Layout) (i : Fin NARENA) (m : Mem) (A : List Blk) (b : Blk) (B : List Blk) :
    Prop where
  left : Tiling m (L.org i) A b.addr
  right : Tiling m b.addr (b :: B) (L.org i + 59988)
  front : Chain (ptr m) (L.base i :: frees A)
  back : Chain (ptr m) (b.addr :: (frees B ++ [L.base i]))
  anchor : size m (L.base i) = 0
  maxA : A.IsChain fun b c => ¬(b.free = true ∧ c.free = true)
  maxB : B.IsChain fun b c => ¬(b.free = true ∧ c.free = true)
  next : ∀ c ∈ B.head?, c.free = false

/-- The block behind is on the list where it follows at once. -/
lemma head_free (hB : Tiling m p B q) (hq : ∀ x, p ≤ x → x ≤ q → x ≠ L.base i) {r : ℕ}
    {qs : List ℕ} (hr : frees B ++ [L.base i] = r :: qs) :
    p = r ↔ ∃ c B', B = c :: B' ∧ c.free = true := by
  cases B with
  | nil =>
    obtain rfl : p = q := hB
    obtain ⟨rfl, -⟩ := List.cons.inj hr
    exact ⟨fun h => absurd h (hq p (le_refl p) (le_refl p)), fun ⟨_, _, h, _⟩ => by cases h⟩
  | cons c B =>
    obtain ⟨h1, h2, h3, h4⟩ := hB
    cases hc : c.free with
    | true =>
      rw [frees_cons_free hc] at hr
      obtain ⟨rfl, -⟩ := List.cons.inj hr
      exact ⟨fun _ => ⟨c, B, rfl, hc⟩, fun _ => h1.symm⟩
    | false =>
      rw [frees_cons_live hc] at hr
      refine ⟨fun he => ?_, fun ⟨d, B', he, hd⟩ => ?_⟩
      · have hm : r ∈ frees B ++ [L.base i] := by simp [hr]
        rcases List.mem_append.mp hm with hm | hm
        · obtain ⟨d, hd, -, hda⟩ := mem_frees.mp hm
          have := h4.mem hd
          omega
        · exact absurd (List.mem_singleton.mp hm) (he ▸ hq p (le_refl p) (by have := h4.le; omega))
      · obtain ⟨rfl, -⟩ := List.cons.inj he
        rw [hc] at hd
        exact Bool.noConfusion hd

/-- The headers of an arena and its anchor. -/
def heads (L : Layout) (i : Fin NARENA) (T : List Blk) : List ℕ := L.base i :: T.map Blk.addr

lemma heads_apart {T : List Blk} {x y : ℕ} (hT : Tiling m (L.org i) T (L.org i + 59988))
    (hx : x ∈ heads L i T) (hy : y ∈ heads L i T) : x = y ∨ Apart x y := by
  have hbase : ∀ c ∈ T, Apart (L.base i) c.addr := by
    intro c hc
    have h1 := hT.mem hc
    have h2 := L.base_out i i
    unfold Apart
    omega
  rcases List.mem_cons.mp hx with rfl | hx <;> rcases List.mem_cons.mp hy with rfl | hy
  · exact Or.inl rfl
  · obtain ⟨c, hc, rfl⟩ := List.mem_map.mp hy
    exact Or.inr (hbase c hc)
  · obtain ⟨c, hc, rfl⟩ := List.mem_map.mp hx
    exact Or.inr (Or.symm (hbase c hc))
  · obtain ⟨c, hc, rfl⟩ := List.mem_map.mp hx
    obtain ⟨d, hd, rfl⟩ := List.mem_map.mp hy
    have h1 := hT.mem hc
    have h2 := hT.mem hd
    unfold Apart
    rcases hT.disjoint hc hd with rfl | h3
    · exact Or.inl rfl
    · right
      omega

lemma ring_heads {T : List Blk} {x : ℕ} (hx : x ∈ L.base i :: frees T) : x ∈ heads L i T := by
  rcases List.mem_cons.mp hx with rfl | hx
  · exact List.mem_cons_self
  · obtain ⟨c, hc, -, rfl⟩ := mem_frees.mp hx
    exact List.mem_cons_of_mem _ (List.mem_map_of_mem hc)

lemma blk_heads {T : List Blk} (hb : b ∈ T) : b.addr ∈ heads L i T :=
  List.mem_cons_of_mem _ (List.mem_map_of_mem hb)

/-- What a write into one header does. -/
structure Touched (p : ℕ) (m m' : Mem) : Prop where
  ptr : ∀ x, Apart x p → ptr m' x = ptr m x
  size : ∀ x, Apart x p → size m' x = size m x
  byte : ∀ x, x < p ∨ p + 6 ≤ x → m'.byte x = m.byte x

lemma touched_setPtr {v : ℕ} : Touched p m (setPtr m p v) :=
  ⟨fun _ h => ptr_setPtr_of h, fun _ h => size_setPtr (Or.inr h), fun _ h => byte_setPtr h⟩

lemma touched_absorb : Touched p m (absorb m p q) := by
  refine ⟨fun x h => ?_, fun x h => ?_, fun x h => ?_⟩ <;> unfold absorb
  · rw [ptr_setPtr_of h, ptr_setSize (Or.inr h)]
  · rw [size_setPtr (Or.inr h), size_setSize_of h]
  · rw [byte_setPtr h, byte_setSize h]

lemma ptr_absorb (h : Apart q p) : ptr (absorb m p q) p = ptr m q := by
  unfold absorb
  rw [ptr_setPtr (ptr_lt _ _), ptr_setSize (Or.inr h)]

lemma size_absorb (h : size m p + size m q < 65536) :
    size (absorb m p q) p = size m p + size m q := by
  unfold absorb
  rw [size_setPtr (Or.inl rfl), size_setSize h]

/-- **The right neighbour**: the block takes it over, or points to the free block behind. -/
lemma Listed.right (h : Listed L i m (A ++ b :: B)) (hb : b.free = false) {ps : List ℕ}
    (hp : L.base i :: frees A = ps ++ [p])
    (hm : m' = if b.addr + 6 * size m b.addr = ptr m p then absorb m b.addr (ptr m p)
      else setPtr m b.addr (ptr m p)) :
    ∃ n B', Half L i m' A ⟨b.addr, n, true⟩ B' ∧ lives B' = lives B ∧ Touched b.addr m m' := by
  have hbm : b ∈ A ++ b :: B := by simp
  obtain ⟨hb1, hb2, hb3, hb4⟩ := h.tiling.mem hbm
  have hfr : frees (A ++ b :: B) = frees A ++ frees B := by
    rw [frees_append, frees_cons_live hb]
  obtain ⟨q, qs, hq⟩ := exists_head (frees B) (L.base i)
  have hcirc := h.circle
  rw [hfr] at hcirc
  obtain ⟨hf, hpq, hbk⟩ := (circular_append hp hq).mp hcirc
  obtain ⟨d, hA, hbd, -, hbs, hB⟩ := tiling_append.mp h.tiling
  obtain rfl : b.addr = d := hbd
  obtain ⟨hmA, hmB, hmid⟩ := List.isChain_append.mp h.maximal
  obtain ⟨hmB1, hmB2⟩ := List.isChain_cons.mp hmB
  -- the other headers are apart from the block
  have hsep : ∀ x ∈ heads L i (A ++ b :: B), x ≠ b.addr → Apart x b.addr := fun x hx hne =>
    (heads_apart h.tiling hx (blk_heads hbm)).resolve_left hne
  have hring : ∀ x ∈ L.base i :: frees (A ++ b :: B), Apart x b.addr := by
    intro x hx
    refine hsep x (ring_heads hx) ?_
    rintro rfl
    rcases List.mem_cons.mp hx with he | hx
    · have := L.base_out i i
      omega
    · obtain ⟨c, hc, hcf, hca⟩ := mem_frees.mp hx
      have h1 := h.tiling.mem hc
      rcases h.tiling.disjoint hc hbm with rfl | h2
      · rw [hb] at hcf
        exact Bool.noConfusion hcf
      · omega
  have htouch : Touched b.addr m m' := by
    rw [hm]
    split_ifs
    · exact touched_absorb
    · exact touched_setPtr
  have hA' : Tiling m' (L.org i) A b.addr := by
    refine hA.congr fun c hc => htouch.size _ (hsep _ (blk_heads (by simp [hc])) ?_)
    have h1 := hA.mem hc
    omega
  have hf' : Chain (ptr m') (L.base i :: frees A) := by
    refine hf.congr fun x hx => htouch.ptr x (hring x ?_)
    rw [hfr, ← List.cons_append]
    exact List.mem_append_left _ (List.mem_of_mem_dropLast hx)
  have hanchor : size m' (L.base i) = 0 :=
    (htouch.size _ (hring _ List.mem_cons_self)).trans h.anchor
  have hcond := head_free (L := L) (i := i) hB (fun x h1 h2 he => by
    have := L.base_out i i
    omega) hq
  rw [hpq, hb4] at hm
  by_cases hc : b.addr + 6 * b.units = q
  · -- the right neighbour is free
    obtain ⟨c, B', rfl, hcf⟩ := hcond.mp hc
    obtain ⟨hc1, hc2, hc3, hc4⟩ := hB
    have hqc : q = c.addr := by omega
    have hqs : qs = frees B' ++ [L.base i] := by
      rw [frees_cons_free hcf] at hq
      exact (List.cons.inj hq).2.symm
    rw [if_pos hc, hqc] at hm
    have hcap : Apart c.addr b.addr := by
      unfold Apart
      omega
    have hcs : size m c.addr = c.units := by
      rw [hc1]
      exact hc3
    have hle := hc4.le
    have hsum : size m b.addr + size m c.addr < 65536 := by omega
    have hnew : size m' b.addr = b.units + c.units := by
      rw [hm, size_absorb hsum, hb4, hcs]
    refine ⟨b.units + c.units, B', ⟨hA', ⟨rfl, Nat.add_pos_left hb3 _, hnew, ?_⟩, hf',
      ?_, hanchor, hmA,
      (List.isChain_cons.mp hmB2).2, ?_⟩, (lives_cons_free hcf).symm, htouch⟩
    · change Tiling m' (b.addr + 6 * (b.units + c.units)) B' _
      rw [Nat.mul_add, ← Nat.add_assoc]
      refine hc4.congr fun e he => htouch.size _ (hsep _ (blk_heads (by simp [he])) ?_)
      have h1 := hc4.mem he
      omega
    · rw [hq, hqs, hqc] at hbk
      obtain ⟨r, rs, hr⟩ := exists_head (frees B') (L.base i)
      rw [hr] at hbk ⊢
      obtain ⟨h1, h2⟩ := List.isChain_cons_cons.mp hbk
      refine List.isChain_cons_cons.mpr ⟨?_, ?_⟩
      · rw [hm, ptr_absorb hcap, h1]
      · refine Chain.congr h2 fun x hx => htouch.ptr x (hring x ?_)
        rw [← hr, List.dropLast_concat] at hx
        rw [hfr, frees_cons_free hcf]
        simp [hx]
    · intro e he
      have h1 := (List.isChain_cons.mp hmB2).1 e he
      cases hef : e.free with
      | true => exact absurd ⟨hcf, hef⟩ h1
      | false => rfl
  · -- it is not
    rw [if_neg hc] at hm
    refine ⟨b.units, B, ⟨hA', ⟨rfl, hb3, ?_, ?_⟩, hf', ?_, hanchor, hmA, hmB2, ?_⟩, rfl, htouch⟩
    · rw [hm, size_setPtr (Or.inl rfl), hb4]
    · refine hB.congr fun e he => htouch.size _ (hsep _ (blk_heads (by simp [he])) ?_)
      have h1 := hB.mem he
      omega
    · rw [hq] at hbk ⊢
      refine List.isChain_cons_cons.mpr ⟨?_, ?_⟩
      · have hlt : q < 2 ^ 32 := by
          refine h.ring_lt ?_
          have : q ∈ frees B ++ [L.base i] := by simp [hq]
          rw [hfr]
          rcases List.mem_append.mp this with h1 | h1
          · simp [h1]
          · simp [List.mem_singleton.mp h1]
        rw [hm]
        exact ptr_setPtr hlt
      · refine Chain.congr hbk fun x hx => htouch.ptr x (hring x ?_)
        rw [← hq, List.dropLast_concat] at hx
        rw [hfr]
        simp [hx]
    · intro e he
      cases hef : e.free with
      | false => rfl
      | true =>
        cases B with
        | nil => cases he
        | cons c B' =>
          obtain rfl : c = e := Option.some.inj he
          exact absurd (hcond.mpr ⟨c, B', rfl, hef⟩) hc

/-- **The left neighbour**: it takes the block over, or points to it. -/
lemma Half.left_merge (h : Half L i m A b B) (hb : b.free = true) {ps : List ℕ}
    (hp : L.base i :: frees A = ps ++ [p])
    (hm : m' = if p + 6 * size m p = b.addr then absorb m p b.addr else setPtr m p b.addr) :
    ∃ T, Listed L i m' T ∧ lives T = lives A ++ lives B ∧ p ∈ L.base i :: frees T ∧
      Touched p m m' := by
  have hT : Tiling m (L.org i) (A ++ b :: B) (L.org i + 59988) :=
    tiling_append.mpr ⟨b.addr, h.left, h.right⟩
  have hbm : b ∈ A ++ b :: B := by simp
  have hpA : p ∈ L.base i :: frees A := by simp [hp]
  have hphead : p ∈ heads L i (A ++ b :: B) := by
    refine ring_heads ?_
    rw [frees_append, ← List.cons_append]
    exact List.mem_append_left _ hpA
  have htouch : Touched p m m' := by
    rw [hm]
    split_ifs
    · exact touched_absorb
    · exact touched_setPtr
  have hsep : ∀ x ∈ heads L i (A ++ b :: B), x ≠ p → Apart x p := fun x hx hne =>
    (heads_apart hT hx hphead).resolve_left hne
  obtain ⟨hb1, hb2, hb3, hb4⟩ := hT.mem hbm
  obtain ⟨-, -, -, hB⟩ := h.right
  have hout := L.base_out i i
  have hAlt : ∀ c ∈ A, c.addr + 6 * c.units ≤ b.addr ∧ 0 < c.units := fun c hc =>
    ⟨(h.left.mem hc).2.1, (h.left.mem hc).2.2.1⟩
  have hpb : p ≠ b.addr := by
    rintro rfl
    rcases List.mem_cons.mp hpA with he | hx
    · omega
    · obtain ⟨c, hc, -, hca⟩ := mem_frees.mp hx
      have := hAlt c hc
      omega
  -- the cells before the last are not the last
  have hring : (L.base i :: frees A).Nodup := by
    refine List.nodup_cons.mpr ⟨fun hx => ?_, h.left.frees_sorted.imp ne_of_lt⟩
    obtain ⟨c, hc, -, hca⟩ := mem_frees.mp hx
    have := h.left.mem hc
    omega
  have hps : ∀ x ∈ (L.base i :: frees A).dropLast, x ≠ p := by
    rintro x hx rfl
    rw [hp, List.dropLast_concat] at hx
    rw [hp] at hring
    exact (List.nodup_append.mp hring).2.2 x hx x (by simp) rfl
  have hfront : Chain (ptr m') (L.base i :: frees A) := by
    refine h.front.congr fun x hx => htouch.ptr x (hsep x (ring_heads ?_) (hps x hx))
    rw [frees_append, ← List.cons_append]
    exact List.mem_append_left _ (List.mem_of_mem_dropLast hx)
  have hBne : ∀ c ∈ B, c.addr ≠ p := by
    rintro c hc rfl
    have h1 := hB.mem hc
    rcases List.mem_cons.mp hpA with he | hx
    · have := (hT.mem (show c ∈ A ++ b :: B by simp [hc]))
      omega
    · obtain ⟨d, hd, -, hda⟩ := mem_frees.mp hx
      have := hAlt d hd
      omega
  have hBB : Tiling m' (b.addr + 6 * b.units) B (L.org i + 59988) :=
    hB.congr fun c hc => htouch.size _ (hsep _ (blk_heads (by simp [hc])) (hBne c hc))
  have hback : ∀ x ∈ (b.addr :: (frees B ++ [L.base i])).dropLast, ptr m' x = ptr m x := by
    intro x hx
    rw [← List.cons_append, List.dropLast_concat] at hx
    rcases List.mem_cons.mp hx with rfl | hx
    · exact htouch.ptr _ (hsep _ (blk_heads hbm) hpb.symm)
    · obtain ⟨c, hc, -, rfl⟩ := mem_frees.mp hx
      exact htouch.ptr _ (hsep _ (blk_heads (by simp [hc])) (hBne c hc))
  obtain ⟨q, qs, hq⟩ := exists_head (frees B) (L.base i)
  have hbk := h.back.congr hback
  have hbk0 := h.back
  rw [hq] at hbk hbk0
  obtain ⟨hbq, hbk2⟩ := List.isChain_cons_cons.mp hbk0
  obtain ⟨-, hbk'⟩ := List.isChain_cons_cons.mp hbk
  by_cases hc : p + 6 * size m p = b.addr
  · -- the left neighbour is free
    rw [if_pos hc] at hm
    have hpf : p ∈ frees A := by
      rcases List.mem_cons.mp hpA with rfl | hx
      · rw [h.anchor] at hc
        omega
      · exact hx
    obtain ⟨a, ha, haf, rfl⟩ := mem_frees.mp hpf
    have ha4 := (h.left.mem ha).2.2.2
    rw [ha4] at hc
    obtain ⟨A', A₂, rfl⟩ := List.append_of_mem ha
    obtain ⟨d, hA1, hd, -, hA3, hA4⟩ := tiling_append.mp h.left
    obtain rfl : a.addr = d := hd
    have hA₂ : A₂ = [] := by
      cases A₂ with
      | nil => rfl
      | cons c A₂ =>
        have h1 := hA4.mem List.mem_cons_self
        omega
    subst hA₂
    have hap : Apart b.addr a.addr := by
      unfold Apart
      omega
    have hsum : size m a.addr + size m b.addr < 65536 := by
      have := (h.left.mem ha).1
      omega
    have hfr : frees (A' ++ ⟨a.addr, a.units + b.units, true⟩ :: B) =
        frees (A' ++ [a]) ++ frees B := by
      rw [frees_append, frees_append, frees_cons_free rfl, frees_cons_free haf, List.append_assoc]
      rfl
    refine ⟨A' ++ ⟨a.addr, a.units + b.units, true⟩ :: B, ⟨?_, ?_, ?_, ?_⟩, ?_, ?_, htouch⟩
    · refine tiling_append.mpr ⟨a.addr, ?_, rfl, by simp only; omega, ?_, ?_⟩
      · refine hA1.congr fun c hc => htouch.size _ (hsep _ (blk_heads (by simp [hc])) ?_)
        have := hA1.mem hc
        omega
      · rw [hm, size_absorb hsum, ha4, hb4]
      · change Tiling m' (a.addr + 6 * (a.units + b.units)) B _
        rw [Nat.mul_add, ← Nat.add_assoc, hc]
        exact hBB
    · rw [hfr]
      refine (circular_append hp hq).mpr ⟨hfront, ?_, ?_⟩
      · rw [hm, ptr_absorb hap, hbq]
      · rw [hq]
        exact hbk'
    · exact (htouch.size _ (hsep _ List.mem_cons_self (by
        have := hT.mem (show a ∈ A' ++ [a] ++ b :: B by simp)
        omega))).trans h.anchor
    · obtain ⟨h1, h2, h3⟩ := List.isChain_append.mp h.maxA
      refine List.isChain_append.mpr ⟨h1, List.isChain_cons.mpr ⟨fun c hc h4 => ?_, h.maxB⟩, ?_⟩
      · rw [h.next c hc] at h4
        exact Bool.noConfusion h4.2
      · intro x hx y hy
        obtain rfl := Option.some.inj hy
        exact fun h4 => h3 x hx a rfl ⟨h4.1, haf⟩
    · rw [lives_append, lives_append, lives_cons_free rfl, lives_cons_free haf, List.append_assoc]
      rfl
    · rw [hfr, ← List.cons_append]
      exact List.mem_append_left _ hpA
  · -- it is not
    rw [if_neg hc] at hm
    have hfr : frees (A ++ b :: B) = frees A ++ b.addr :: frees B := by
      rw [frees_append, frees_cons_free hb]
    refine ⟨A ++ b :: B, ⟨?_, ?_, ?_, ?_⟩, ?_, ?_, htouch⟩
    · refine tiling_append.mpr ⟨b.addr, ?_, rfl, hb3, ?_, hBB⟩
      · refine h.left.congr fun c hc => ?_
        rw [hm]
        exact size_setPtr ((heads_apart hT (blk_heads (by simp [hc])) hphead))
      · exact (htouch.size _ (hsep _ (blk_heads hbm) hpb.symm)).trans hb4
    · rw [hfr]
      refine (circular_append hp rfl).mpr ⟨hfront, ?_, ?_⟩
      · rw [hm]
        refine ptr_setPtr ?_
        have := L.org_lt i
        omega
      · exact h.back.congr hback
    · rw [hm, size_setPtr (heads_apart hT List.mem_cons_self hphead)]
      exact h.anchor
    · refine List.isChain_append.mpr ⟨h.maxA, List.isChain_cons.mpr ⟨fun c hc h4 => ?_, h.maxB⟩, ?_⟩
      · rw [h.next c hc] at h4
        exact Bool.noConfusion h4.2
      · rintro x hx y hy ⟨h4, -⟩
        -- the last block would be the last cell of the list
        obtain ⟨A', rfl⟩ : ∃ A', A = A' ++ [x] :=
          ⟨_, (List.dropLast_append_getLast? x hx).symm⟩
        rw [frees_append, frees_cons_free h4, ← List.cons_append] at hp
        have hpx : x.addr = p := (List.cons.inj (List.append_inj' hp rfl).2).1
        have h6 := h.left.mem (show x ∈ A' ++ [x] by simp)
        obtain ⟨d, -, hd, -, -, h7⟩ := tiling_append.mp h.left
        have h8 : d + 6 * x.units = b.addr := h7
        rw [← hpx, h6.2.2.2] at hc
        have h9 : x.addr = d := hd
        omega
    · rw [lives_append, lives_cons_free hb]
    · rw [hfr, ← List.cons_append]
      exact List.mem_append_left _ hpA

end

section
variable {L : Layout} {h : Heap} {i : Fin NARENA} {A B : List Blk} {b : Blk}

/-- **Giving a block back.** It joins the free list at its place, together with free neighbours. -/
lemma afree_spec (hL : Listed L i h.mem (A ++ b :: B))
    (hfp : h.freep i ∈ L.base i :: frees (A ++ b :: B)) (hb : b.free = false) :
    ∃ T m z, afree h i (b.addr + 6) = some { h with
        mem := m
        freep := Function.update h.freep i z } ∧
      Listed L i m T ∧ z ∈ L.base i :: frees T ∧ lives T = lives A ++ lives B ∧
      ∀ x, ¬b.Has x → (∀ c ∈ A ++ b :: B, c.free = true → ¬c.Has x) →
        ¬(L.base i ≤ x ∧ x < L.base i + 6) → m.byte x = h.mem.byte x := by
  have hbm : b ∈ A ++ b :: B := by simp
  obtain ⟨hb1, hb2, hb3, hb4⟩ := hL.tiling.mem hbm
  have hout := L.base_out i i
  have hfr : frees (A ++ b :: B) = frees A ++ frees B := by
    rw [frees_append, frees_cons_live hb]
  obtain ⟨ps, p, hp⟩ := exists_last (L.base i) (frees A)
  obtain ⟨q, qs, hq⟩ := exists_head (frees B) (L.base i)
  have hlow : ∀ x ∈ frees A, x < b.addr := by
    intro x hx
    obtain ⟨c, hc, -, rfl⟩ := mem_frees.mp hx
    obtain ⟨d, h1, h2, -⟩ := tiling_append.mp hL.tiling
    obtain rfl : b.addr = d := h2
    have := h1.mem hc
    omega
  have hhigh : ∀ x ∈ frees B, b.addr < x := by
    intro x hx
    obtain ⟨c, hc, -, rfl⟩ := mem_frees.mp hx
    obtain ⟨d, -, h2, -, -, h1⟩ := tiling_append.mp hL.tiling
    obtain rfl : b.addr = d := h2
    have := h1.mem hc
    omega
  have hends : (∀ x ∈ frees A ++ b.addr :: frees B, L.base i < x) ∨
      ∀ x ∈ frees A ++ b.addr :: frees B, x < L.base i := by
    have hmem : ∀ x ∈ frees A ++ b.addr :: frees B, ∃ c ∈ A ++ b :: B, c.addr = x := by
      intro x hx
      rcases List.mem_append.mp hx with hx | hx
      · obtain ⟨c, hc, -, he⟩ := mem_frees.mp hx
        exact ⟨c, by simp [hc], he⟩
      · rcases List.mem_cons.mp hx with rfl | hx
        · exact ⟨b, hbm, rfl⟩
        · obtain ⟨c, hc, -, he⟩ := mem_frees.mp hx
          exact ⟨c, by simp [hc], he⟩
    rcases hout with hout | hout
    · refine Or.inl fun x hx => ?_
      obtain ⟨c, hc, rfl⟩ := hmem x hx
      have := hL.tiling.mem hc
      omega
    · refine Or.inr fun x hx => ?_
      obtain ⟨c, hc, rfl⟩ := hmem x hx
      have := hL.tiling.mem hc
      omega
  -- the search ends at the last free block in front
  have hcirc := hL.circle
  have hsorted := hL.tiling.frees_sorted
  rw [hfr] at hcirc hsorted hfp
  obtain ⟨hpq, hbefore⟩ := hcirc.before_iff hsorted hlow hhigh hends hp hq
  have hpm : p ∈ L.base i :: (frees A ++ frees B) := by
    rw [← List.cons_append, hp]
    simp
  have hlen := hL.length
  rw [hfr] at hlen
  obtain ⟨z, hz, hs, hstop⟩ := hcirc.search_eq
    (fun p => (p < b.addr ∧ b.addr < ptr h.mem p) ∨
      (ptr h.mem p ≤ p ∧ (p < b.addr ∨ b.addr < ptr h.mem p))) hfp hpm
    (decide_eq_true ((hbefore p hpm).mpr rfl)) hlen
  have hbz := of_decide_eq_true hstop
  obtain rfl : z = p := (hbefore z hz).mp hbz
  obtain ⟨n, B', hhalf, hlB, ht1⟩ := hL.right hb hp rfl
  obtain ⟨T, hT, hlT, hzT, ht2⟩ := hhalf.left_merge rfl hp rfl
  refine ⟨T, _, z, ?_, hT, hzT, by rw [hlT, hlB], fun x hx1 hx2 hx3 => ?_⟩
  · unfold afree
    dsimp only
    rw [show b.addr + 6 - hsize = b.addr by rw [hsize_eq]; omega, hs]
    rfl
  · rw [ht2.byte x (hL.kept (hfr ▸ hz) hx2 hx3), ht1.byte x ?_]
    unfold Blk.Has at hx1
    omega

end

end Coherent.Bigheap
