import Coherent.Lib.Run
import Coherent.BigheapFree

/-!
All arenas of the heap, and the runs of a program that uses it.

The invariant names the blocks of every arena; those that are not free are those that the program
holds. The theorem at the end is about every run whose requests fit the 16 bits in which the units
are counted.
-/

namespace Coherent.Bigheap

open Coherent.Lib Coherent.Lib.Bytes

/-! ### All arenas -/

/-- What the blocks of the arenas and the blocks that a program holds have to do with each other:
a program holds a live block by the address behind its header, and has asked for some bytes. -/
structure Inv (L : Layout) (h : Heap) (T : Fin NARENA → List Blk) (live : List (ℕ × ℕ)) : Prop where
  listed : ∀ i, Listed L i h.mem (T i)
  freep : ∀ i, h.freep i ∈ L.base i :: frees (T i)
  alo : ∀ i, h.alo i = L.bigarena i
  ahi : ∀ i, h.ahi i = L.bigarena i + ARENA
  seeded : h.seeded = true
  owned : ∀ e ∈ live, ∃ i, ∃ b ∈ T i, b.free = false ∧ e.1 = b.addr + 6 ∧ e.2 + 6 ≤ 6 * b.units
  held : ∀ i, ∀ b ∈ T i, b.free = false → ∃ e ∈ live, e.1 = b.addr + 6
  nodup : (live.map Prod.fst).Nodup

section
variable {L : Layout} {h h' : Heap} {i j : Fin NARENA} {T : Fin NARENA → List Blk}
  {live : List (ℕ × ℕ)} {b c : Blk} {m m' : Mem} {x : ℕ}

/-- The list of an arena depends on the headers only. -/
lemma Listed.congr {T : List Blk} (hL : Listed L i m T)
    (he : ∀ p ∈ heads L i T, ∀ x, p ≤ x → x < p + 6 → m'.byte x = m.byte x) :
    Listed L i m' T := by
  refine ⟨hL.tiling.congr fun b hb => size_congr (he _ (blk_heads hb)), ?_, ?_, hL.maximal⟩
  · refine Chain.congr hL.circle fun x hx => ptr_congr (he x (ring_heads ?_))
    rwa [List.dropLast_concat] at hx
  · rw [size_congr (he _ List.mem_cons_self), hL.anchor]

/-- Blocks of different arenas do not overlap. -/
lemma arena_disjoint (hL : ∀ i, Listed L i m (T i)) (hij : i ≠ j) (hb : b ∈ T i) (hc : c ∈ T j) :
    b.addr + 6 * b.units ≤ c.addr ∨ c.addr + 6 * c.units ≤ b.addr := by
  have h1 := (hL i).tiling.mem hb
  have h2 := (hL j).tiling.mem hc
  have h3 := L.org_bounds i
  have h4 := L.org_bounds j
  have h5 := L.arenas i j hij
  simp only [arena_eq] at h5
  omega

/-- The headers of another arena are apart from the blocks and the anchor of this one. -/
lemma heads_other {T : List Blk} (hj : Tiling m (L.org j) T (L.org j + 59988))
    (hij : j ≠ i) {p : ℕ} (hp : p ∈ heads L j T) (h1 : p ≤ x) (h2 : x < p + 6) :
    ¬(L.org i ≤ x ∧ x < L.org i + 59988) ∧ ¬(L.base i ≤ x ∧ x < L.base i + 6) := by
  have h3 := L.base_out i j
  have h4 := L.base_out j i
  have h5 := L.arenas i j hij.symm
  have h6 := L.bases j i hij
  have h7 := L.org_bounds i
  have h8 := L.org_bounds j
  simp only [arena_eq, hsize_eq] at h5 h6
  rcases List.mem_cons.mp hp with rfl | hp
  · omega
  · obtain ⟨b, hb, rfl⟩ := List.mem_map.mp hp
    have h9 := hj.mem hb
    omega

/-- Writing into the blocks and the anchor of one arena keeps the lists of the others. -/
lemma Listed.other {T : List Blk} (hL : Listed L j m T) (hij : j ≠ i)
    (hk : ∀ x, ¬(L.org i ≤ x ∧ x < L.org i + 59988) → ¬(L.base i ≤ x ∧ x < L.base i + 6) →
      m'.byte x = m.byte x) : Listed L j m' T :=
  hL.congr fun _ hp x h1 h2 =>
    hk x (heads_other hL.tiling hij hp h1 h2).1 (heads_other hL.tiling hij hp h1 h2).2

/-- An arena without live blocks is one free block. -/
lemma all_free {T : List Blk} (hL : Listed L i m T) (hT : ∀ b ∈ T, b.free = true) :
    T = [⟨L.org i, 9998, true⟩] := by
  match T, hL, hT with
  | [], hL, _ =>
    have h1 : L.org i = L.org i + 59988 := hL.tiling
    omega
  | [b], hL, hT =>
    obtain ⟨h1, -, -, h2⟩ := hL.tiling
    have h3 : L.org i + 6 * b.units = L.org i + 59988 := h2
    have h4 := hT b List.mem_cons_self
    obtain ⟨addr, units, f⟩ := b
    simp only at h1 h3 h4
    rw [h1, h4, show units = 9998 by omega]
  | b :: c :: T, hL, hT =>
    have h1 := (List.isChain_cons_cons.mp hL.maximal).1
    exact absurd ⟨hT b (by simp), hT c (by simp)⟩ h1

end

section
variable {L : Layout} {h h' : Heap} {i j : Fin NARENA} {T : Fin NARENA → List Blk}
  {live : List (ℕ × ℕ)} {b c : Blk} {m m' : Mem} {x n k r ap : ℕ}

lemma mem_carve (_hn : n ≤ b.units) : c ∈ carve b n ∧ c.free = false ↔
    c = ⟨b.addr + 6 * (b.units - n), n, false⟩ := by
  unfold carve
  split_ifs with heq
  · rw [show b.addr + 6 * (b.units - n) = b.addr by omega, List.mem_singleton]
    refine ⟨And.left, ?_⟩
    rintro rfl
    exact ⟨rfl, rfl⟩
  · constructor
    · rintro ⟨h1, h2⟩
      rcases List.mem_cons.mp h1 with rfl | h1
      · exact Bool.noConfusion h2
      · exact List.mem_singleton.mp h1
    · rintro rfl
      exact ⟨List.mem_cons_of_mem _ (List.mem_singleton_self _), rfl⟩

/-- The heap after one arena has changed. -/
lemma Inv.change (hI : Inv L h T live) {T' : List Blk} {live' : List (ℕ × ℕ)} {z : ℕ}
    (hL : Listed L i m T') (hz : z ∈ L.base i :: frees T')
    (hk : ∀ x, ¬(L.org i ≤ x ∧ x < L.org i + 59988) → ¬(L.base i ≤ x ∧ x < L.base i + 6) →
      m.byte x = h.mem.byte x)
    (howned : ∀ e ∈ live', ∃ j, ∃ b ∈ Function.update T i T' j, b.free = false ∧
      e.1 = b.addr + 6 ∧ e.2 + 6 ≤ 6 * b.units)
    (hheld : ∀ j, ∀ b ∈ Function.update T i T' j, b.free = false → ∃ e ∈ live', e.1 = b.addr + 6)
    (hnd : (live'.map Prod.fst).Nodup) :
    Inv L { h with
      mem := m
      freep := Function.update h.freep i z } (Function.update T i T') live' := by
  refine ⟨fun j => ?_, fun j => ?_, hI.alo, hI.ahi, hI.seeded, howned, hheld, hnd⟩
  · by_cases hij : j = i
    · subst hij
      rw [Function.update_self]
      exact hL
    · rw [Function.update_of_ne hij]
      exact (hI.listed j).other hij hk
  · by_cases hij : j = i
    · subst hij
      rw [Function.update_self]
      change Function.update h.freep j z j ∈ _
      rw [Function.update_self]
      exact hz
    · rw [Function.update_of_ne hij]
      change Function.update h.freep i z j ∈ _
      rw [Function.update_of_ne hij]
      exact hI.freep j

/-- Outside the arena are no blocks of it. -/
lemma Listed.out {T : List Blk} (hL : Listed L i m T) (hx : ¬(L.org i ≤ x ∧ x < L.org i + 59988))
    (hc : c ∈ T) : ¬c.Has x := by
  have := hL.tiling.mem hc
  unfold Blk.Has
  omega

/-- **A block is taken** from one arena. -/
lemma Inv.amalloc (hI : Inv L h T live) (i : Fin NARENA) (hn : 0 < n) :
    amalloc h i n = some (h, 0) ∨ ∃ h' r T', amalloc h i n = some (h', r) ∧ 0 < r ∧
      Inv L h' T' ((r, 6 * (n - 1)) :: live) ∧ ∃ b ∈ T i, b.free = true ∧ n ≤ b.units := by
  have hL := hI.listed i
  rcases amalloc_spec hL (hI.freep i) hn with h1 | ⟨A, b, B, m, z, hT, hb, hnb, h1, hL', hz, hk⟩
  · exact Or.inl h1
  have hbT : b ∈ T i := by simp [hT]
  have hbm := hL.tiling.mem hbT
  refine Or.inr ⟨_, _, Function.update T i (A ++ carve b n ++ B), h1, by omega, ?_, b, hbT, hb, hnb⟩
  have hcr := fun c => mem_carve (c := c) hnb
  refine hI.change hL' hz (fun x hx1 hx2 => hk x (fun c hc _ => hL.out hx1 hc) hx2) ?_ ?_ ?_
  · -- what the program holds is a block
    intro e he
    rcases List.mem_cons.mp he with rfl | he
    · refine ⟨i, ⟨b.addr + 6 * (b.units - n), n, false⟩, ?_, rfl, rfl, by simp only; omega⟩
      rw [Function.update_self]
      have h2 := ((hcr _).mpr rfl).1
      simp [h2]
    · obtain ⟨j, c, hc, hcf, h2, h3⟩ := hI.owned e he
      refine ⟨j, c, ?_, hcf, h2, h3⟩
      by_cases hij : j = i
      · subst hij
        rw [Function.update_self]
        rw [hT] at hc
        rcases List.mem_append.mp hc with hc | hc
        · simp [hc]
        · rcases List.mem_cons.mp hc with rfl | hc
          · rw [hb] at hcf
            exact Bool.noConfusion hcf
          · simp [hc]
      · rw [Function.update_of_ne hij]
        exact hc
  · -- the blocks are held by the program
    intro j c hc hcf
    by_cases hij : j = i
    · subst hij
      rw [Function.update_self] at hc
      rcases List.mem_append.mp hc with hc | hc
      · rcases List.mem_append.mp hc with hc | hc
        · obtain ⟨e, he, h2⟩ := hI.held j c (by simp [hT, hc]) hcf
          exact ⟨e, List.mem_cons_of_mem _ he, h2⟩
        · obtain rfl := (hcr c).mp ⟨hc, hcf⟩
          exact ⟨_, List.mem_cons_self, rfl⟩
      · obtain ⟨e, he, h2⟩ := hI.held j c (by simp [hT, hc]) hcf
        exact ⟨e, List.mem_cons_of_mem _ he, h2⟩
    · rw [Function.update_of_ne hij] at hc
      obtain ⟨e, he, h2⟩ := hI.held j c hc hcf
      exact ⟨e, List.mem_cons_of_mem _ he, h2⟩
  · -- the new block is none of the old
    refine List.nodup_cons.mpr ⟨fun hm => ?_, hI.nodup⟩
    obtain ⟨e, he, h2⟩ := List.mem_map.mp hm
    obtain ⟨j, c, hc, hcf, h3, h4⟩ := hI.owned e he
    have hcm := (hI.listed j).tiling.mem hc
    simp only at h2
    by_cases hij : j = i
    · subst hij
      rcases hL.tiling.disjoint hc hbT with rfl | h5
      · rw [hb] at hcf
        exact Bool.noConfusion hcf
      · omega
    · have h5 := arena_disjoint hI.listed hij hc hbT
      omega

/-- **A block is given back** to its arena. -/
lemma Inv.afree (hI : Inv L h T live) (hb : b ∈ T i) (hbf : b.free = false) :
    ∃ h' T', afree h i (b.addr + 6) = some h' ∧
      Inv L h' T' (live.filter fun e => e.1 ≠ b.addr + 6) := by
  have hL := hI.listed i
  have hfp := hI.freep i
  obtain ⟨A, B, hT⟩ := List.append_of_mem hb
  rw [hT] at hL hfp
  obtain ⟨T', m, z, h1, hL', hz, hlv, hk⟩ := afree_spec hL hfp hbf
  refine ⟨_, Function.update T i T', h1, ?_⟩
  have hbm := hL.tiling.mem (show b ∈ A ++ b :: B by simp)
  have hlive : ∀ c, c ∈ T' ∧ c.free = false ↔ (c ∈ A ∨ c ∈ B) ∧ c.free = false := by
    intro c
    have h2 : c ∈ lives T' ↔ c ∈ lives A ++ lives B := by rw [hlv]
    simpa [lives, ← or_and_right] using h2
  have hne : ∀ c, c ∈ A ∨ c ∈ B → c.addr ≠ b.addr := by
    obtain ⟨d, h2, h3, -, -, h4⟩ := tiling_append.mp hL.tiling
    obtain rfl : b.addr = d := h3
    rintro c (hc | hc)
    · have := h2.mem hc
      omega
    · have := h4.mem hc
      omega
  refine hI.change hL' hz (fun x hx1 hx2 => hk x (hL.out hx1 (by simp))
    (fun c hc _ => hL.out hx1 hc) hx2) ?_ ?_ ?_
  · intro e he
    obtain ⟨he1, he2⟩ := List.mem_filter.mp he
    have he2 : e.1 ≠ b.addr + 6 := of_decide_eq_true he2
    obtain ⟨j, c, hc, hcf, h2, h3⟩ := hI.owned e he1
    refine ⟨j, c, ?_, hcf, h2, h3⟩
    by_cases hij : j = i
    · subst hij
      rw [Function.update_self]
      rw [hT] at hc
      refine ((hlive c).mpr ⟨?_, hcf⟩).1
      rcases List.mem_append.mp hc with hc | hc
      · exact Or.inl hc
      · rcases List.mem_cons.mp hc with rfl | hc
        · exact absurd h2 he2
        · exact Or.inr hc
    · rw [Function.update_of_ne hij]
      exact hc
  · intro j c hc hcf
    by_cases hij : j = i
    · subst hij
      rw [Function.update_self] at hc
      obtain ⟨h2, -⟩ := (hlive c).mp ⟨hc, hcf⟩
      obtain ⟨e, he, h3⟩ := hI.held j c (by rcases h2 with h2 | h2 <;> simp [hT, h2]) hcf
      refine ⟨e, List.mem_filter.mpr ⟨he, decide_eq_true ?_⟩, h3⟩
      have := hne c h2
      omega
    · rw [Function.update_of_ne hij] at hc
      obtain ⟨e, he, h3⟩ := hI.held j c hc hcf
      refine ⟨e, List.mem_filter.mpr ⟨he, decide_eq_true ?_⟩, h3⟩
      have h4 := (hI.listed j).tiling.mem hc
      have h5 := arena_disjoint hI.listed hij hc hb
      omega
  · exact (List.filter_sublist.map Prod.fst).nodup hI.nodup

end

section
variable {L : Layout} {h h' : Heap} {i j : Fin NARENA} {T : Fin NARENA → List Blk}
  {live : List (ℕ × ℕ)} {b c : Blk} {m m' : Mem} {x n k r ap : ℕ}

/-- An arena that has just been given to the heap. -/
structure Ready (L : Layout) (h : Heap) (i : Fin NARENA) : Prop where
  listed : Listed L i h.mem [⟨L.org i, 9998, true⟩]
  freep : h.freep i ∈ L.base i :: frees [⟨L.org i, 9998, true⟩]
  alo : h.alo i = L.bigarena i
  ahi : h.ahi i = L.bigarena i + ARENA

/-- **Seeding** one arena; the others are not touched. -/
lemma seed1_spec (L : Layout) (h : Heap) (i : Fin NARENA) :
    ∃ h', seed1 L h i = some h' ∧ Ready L h' i ∧ h'.seeded = h.seeded ∧
      ∀ j, j ≠ i → Ready L h j → Ready L h' j := by
  set m1 := setSize (setPtr h.mem (L.base i) (L.base i)) (L.base i) 0 with hm1
  set m2 := setSize m1 (L.org i) UNITS with hm2
  have hout := L.base_out i i
  have hap : Apart (L.base i) (L.org i) := by
    unfold Apart
    omega
  have hlt : L.base i < 2 ^ 32 := by
    have := L.base_lt i
    simp only [hsize_eq] at this
    omega
  -- all of the arena as a block that is live
  have hL : Listed L i m2 ([] ++ ⟨L.org i, 9998, false⟩ :: []) := by
    refine ⟨⟨rfl, Nat.succ_pos _, ?_, rfl⟩, ?_, ?_, List.isChain_singleton _⟩
    · rw [hm2, units_eq]
      exact size_setSize (by decide)
    · refine List.isChain_cons_cons.mpr ⟨?_, List.isChain_singleton _⟩
      rw [hm2, ptr_setSize (Or.inr hap), hm1, ptr_setSize (Or.inl rfl), ptr_setPtr hlt]
    · rw [hm2, size_setSize_of hap, hm1, size_setSize (by decide)]
  set h1 : Heap := { h with
    mem := m2
    freep := Function.update h.freep i (L.base i)
    alo := Function.update h.alo i (L.bigarena i)
    ahi := Function.update h.ahi i (L.bigarena i + ARENA) } with hh1
  have hfp : h1.freep i ∈ L.base i :: frees ([] ++ ⟨L.org i, 9998, false⟩ :: []) := by
    rw [hh1]
    simp
  obtain ⟨T, m, z, h2, hL2, hz, hlv, hk⟩ := afree_spec (h := h1) hL hfp rfl
  have hT : T = [⟨L.org i, 9998, true⟩] := by
    refine all_free hL2 fun b hb => ?_
    cases hbf : b.free with
    | true => rfl
    | false =>
      have h3 : b ∈ lives T := List.mem_filter.mpr ⟨hb, by simp [hbf]⟩
      rw [hlv] at h3
      cases h3
  subst hT
  refine ⟨_, h2, ⟨hL2, ?_, ?_, ?_⟩, rfl, fun j hij hj => ⟨hj.listed.other hij ?_, ?_, ?_, ?_⟩⟩
  · change Function.update h1.freep i z i ∈ _
    rw [Function.update_self]
    exact hz
  · exact Function.update_self ..
  · exact Function.update_self ..
  · intro x hx1 hx2
    have h3 : m.byte x = m2.byte x := by
      refine hk x (hL.out hx1 (by simp)) (fun c hc _ => hL.out hx1 hc) hx2
    change m.byte x = h.mem.byte x
    rw [h3, hm2, byte_setSize (by omega), hm1, byte_setSize (by omega), byte_setPtr (by omega)]
  · change Function.update h1.freep i z j ∈ _
    rw [Function.update_of_ne hij]
    change Function.update h.freep i _ j ∈ _
    rw [Function.update_of_ne hij]
    exact hj.freep
  · exact (Function.update_of_ne hij ..).trans hj.alo
  · exact (Function.update_of_ne hij ..).trans hj.ahi

/-- The heap before the program has taken any block. -/
def fresh (L : Layout) (i : Fin NARENA) : List Blk := [⟨L.org i, 9998, true⟩]

lemma seed_spec (L : Layout) (h : Heap) : ∃ h', seed L h = some h' ∧ Inv L h' (fresh L) [] := by
  obtain ⟨h0, e0, r0, s0, -⟩ := seed1_spec L { h with seeded := true } 0
  obtain ⟨h1, e1, r1, s1, k1⟩ := seed1_spec L h0 1
  obtain ⟨h2, e2, r2, s2, k2⟩ := seed1_spec L h1 2
  obtain ⟨h3, e3, r3, s3, k3⟩ := seed1_spec L h2 3
  have hr : ∀ i, Ready L h3 i := by
    intro i
    fin_cases i
    · exact k3 0 (by decide) (k2 0 (by decide) (k1 0 (by decide) r0))
    · exact k3 1 (by decide) (k2 1 (by decide) r1)
    · exact k3 2 (by decide) r2
    · exact r3
  refine ⟨h3, ?_, fun i => (hr i).listed, fun i => (hr i).freep, fun i => (hr i).alo,
    fun i => (hr i).ahi, ?_, fun e he => absurd he (by simp), fun i b hb hbf => ?_, List.nodup_nil⟩
  · unfold seed
    rw [e0, Option.bind_eq_bind, Option.bind_some, e1, Option.bind_some, e2, Option.bind_some, e3]
  · rw [s3, s2, s1, s0]
  · rw [List.mem_singleton.mp hb] at hbf
    exact Bool.noConfusion hbf

/-- **The first arena that can.** -/
lemma first_spec (hI : Inv L h T live) (hn : 0 < n) (is : List (Fin NARENA)) :
    first h n is = some (h, 0) ∨ ∃ h' r T', first h n is = some (h', r) ∧ 0 < r ∧
      Inv L h' T' ((r, 6 * (n - 1)) :: live) ∧ ∃ i, ∃ b ∈ T i, b.free = true ∧ n ≤ b.units := by
  induction is with
  | nil => exact Or.inl rfl
  | cons i is ih =>
    rcases hI.amalloc i hn with h1 | ⟨h', r, T', h1, hr, h2, hb⟩
    · have h3 : first h n (i :: is) = first h n is := by
        change (amalloc h i n).bind _ = _
        rw [h1]
        rfl
      rw [h3]
      exact ih
    · refine Or.inr ⟨h', r, T', ?_, hr, h2, i, hb⟩
      change (amalloc h i n).bind _ = _
      rw [h1, Option.bind_some]
      exact if_pos hr.ne'

/-- No block on the lists has so many units. -/
def Full (L : Layout) (h : Heap) (n : ℕ) : Prop :=
  if h.seeded then ∀ i k, size h.mem ((ptr h.mem)^[k] (L.base i)) < n else UNITS < n

lemma Inv.not_full (hI : Inv L h T live) (hb : b ∈ T i) (hf : b.free = true) (hn : n ≤ b.units) :
    ¬Full L h n := by
  intro hfull
  unfold Full at hfull
  rw [if_pos hI.seeded] at hfull
  obtain ⟨k, -, hk⟩ := (hI.listed i).circle.reach List.mem_cons_self (mem_ring_of_mem hb hf)
  have h1 := hfull i k
  rw [hk, ((hI.listed i).tiling.mem hb).2.2.2] at h1
  omega

/-- The heap of a run: seeded, or as the program was loaded. -/
def Ok (L : Layout) (h : Heap) (live : List (ℕ × ℕ)) : Prop :=
  (h.seeded = false ∧ (∀ i, h.alo i = 0 ∧ h.ahi i = 0) ∧ live = []) ∨ ∃ T, Inv L h T live

/-- **`malloc`** returns `NULL`, or a block of the units it has counted. -/
lemma malloc_spec (hI : Ok L h live) (nbytes : ℕ) :
    ∃ h' r T', malloc L h nbytes = some (h', r) ∧ (r = 0 ∧ Inv L h' T' live ∨
      0 < r ∧ Inv L h' T' ((r, 6 * (nunits nbytes - 1)) :: live) ∧ ¬Full L h (nunits nbytes)) := by
  have hn : 0 < nunits nbytes := Nat.succ_pos _
  rcases hI with ⟨hs, -, rfl⟩ | ⟨T, hI⟩
  · obtain ⟨h1, e1, hI⟩ := seed_spec L h
    have hun : malloc L h nbytes = first h1 (nunits nbytes)
        (if BIG ≤ nbytes then [3, 2, 1, 0] else [0, 1, 2, 3]) := by
      unfold malloc
      rw [hs, e1]
      rfl
    rw [hun]
    rcases first_spec hI hn (if BIG ≤ nbytes then [3, 2, 1, 0] else [0, 1, 2, 3]) with
      h2 | ⟨h', r, T', h2, hr, hI', i, b, hb, hf, hle⟩
    · exact ⟨h1, 0, _, h2, Or.inl ⟨rfl, hI⟩⟩
    · refine ⟨h', r, T', h2, Or.inr ⟨hr, hI', ?_⟩⟩
      unfold Full
      rw [hs, if_neg (by decide)]
      rw [List.mem_singleton.mp hb] at hle
      exact not_lt.mpr hle
  · have hun : malloc L h nbytes = first h (nunits nbytes)
        (if BIG ≤ nbytes then [3, 2, 1, 0] else [0, 1, 2, 3]) := by
      unfold malloc
      rw [hI.seeded]
      rfl
    rw [hun]
    rcases first_spec hI hn (if BIG ≤ nbytes then [3, 2, 1, 0] else [0, 1, 2, 3]) with
      h2 | ⟨h', r, T', h2, hr, hI', i, b, hb, hf, hle⟩
    · exact ⟨h, 0, T, h2, Or.inl ⟨rfl, hI⟩⟩
    · exact ⟨h', r, T', h2, Or.inr ⟨hr, hI', hI.not_full hb hf hle⟩⟩

/-- The count is large enough as long as it does not wrap around. -/
lemma nunits_room (h : n ≤ 65530) : n ≤ 6 * (nunits n - 1) := by
  unfold nunits
  simp only [hsize_eq]
  omega

/-- A program may have asked for less. -/
lemma Inv.less (hI : Inv L h T ((r, k) :: live)) (hn : n ≤ k) : Inv L h T ((r, n) :: live) := by
  refine { hI with owned := fun e he => ?_, held := fun i b hb hf => ?_, nodup := hI.nodup }
  · rcases List.mem_cons.mp he with rfl | he
    · obtain ⟨i, b, hb, hf, h1, h2⟩ := hI.owned (r, k) List.mem_cons_self
      exact ⟨i, b, hb, hf, h1, le_trans (Nat.add_le_add_right hn 6) h2⟩
    · exact hI.owned e (List.mem_cons_of_mem _ he)
  · obtain ⟨e, he, h1⟩ := hI.held i b hb hf
    rcases List.mem_cons.mp he with rfl | he
    · exact ⟨(r, n), List.mem_cons_self, h1⟩
    · exact ⟨e, List.mem_cons_of_mem _ he, h1⟩

/-- **Writing into a block** that the program holds, or outside the heap. -/
lemma Inv.write (hI : Inv L h T live)
    (hm : ∀ x, m.byte x ≠ h.mem.byte x → (∃ e ∈ live, e.1 ≤ x ∧ x < e.1 + e.2) ∨
      (∀ i, x < L.bigarena i ∨ L.bigarena i + ARENA ≤ x) ∧
        ∀ i, x < L.base i ∨ L.base i + hsize ≤ x) :
    Inv L { h with mem := m } T live := by
  refine { hI with listed := fun i => (hI.listed i).congr fun p hp x h1 h2 => ?_ }
  by_contra hne
  have hout := L.base_out i i
  rcases hm x hne with ⟨e, he, h3, h4⟩ | ⟨h3, h4⟩
  · obtain ⟨j, b, hb, hf, h5, h6⟩ := hI.owned e he
    have h7 := (hI.listed j).tiling.mem hb
    rcases List.mem_cons.mp hp with rfl | hp
    · have := L.base_out j i
      omega
    · obtain ⟨c, hc, rfl⟩ := List.mem_map.mp hp
      have h8 := (hI.listed i).tiling.mem hc
      by_cases hij : i = j
      · subst hij
        rcases (hI.listed i).tiling.disjoint hb hc with rfl | h9 <;> omega
      · have h9 := arena_disjoint hI.listed hij hc hb
        omega
  · have h5 := h3 i
    have h6 := h4 i
    have h7 := L.org_bounds i
    simp only [arena_eq, hsize_eq] at h5 h6
    rcases List.mem_cons.mp hp with rfl | hp
    · omega
    · obtain ⟨c, hc, rfl⟩ := List.mem_map.mp hp
      have h8 := (hI.listed i).tiling.mem hc
      omega

end

/-! ### Runs -/

section
variable {L : Layout} {h h' : Heap} {i j : Fin NARENA} {T : Fin NARENA → List Blk}
  {live : List (ℕ × ℕ)} {b c : Blk} {m m' : Mem} {x n k r ap : ℕ}

/-- An address behind a header of an arena is in this arena. -/
lemma whose_eq (hI : Inv L h T live) (hb : b ∈ T i) : whose h (b.addr + 6) = some i := by
  have hiff : ∀ j, (h.alo j ≤ b.addr + 6 ∧ b.addr + 6 < h.ahi j) ↔ j = i := by
    intro j
    have h1 := (hI.listed i).tiling.mem hb
    have h2 := L.org_bounds i
    rw [hI.alo, hI.ahi, arena_eq]
    constructor
    · intro h3
      by_contra hij
      have h4 := L.arenas j i hij
      simp only [arena_eq] at h4
      omega
    · rintro rfl
      omega
  have hp : (fun j => decide (h.alo j ≤ b.addr + 6 ∧ b.addr + 6 < h.ahi j)) =
      fun j => decide (j = i) := funext fun j => decide_eq_decide.mpr (hiff j)
  unfold whose
  rw [hp]
  fin_cases i <;> rfl

/-- An address outside the arenas is in none. -/
lemma whose_out (hh : ∀ i, (h.alo i = 0 ∧ h.ahi i = 0) ∨
    h.alo i = L.bigarena i ∧ h.ahi i = L.bigarena i + ARENA)
    (hx : ∀ i, ap < L.bigarena i ∨ L.bigarena i + ARENA ≤ ap) : whose h ap = none := by
  refine List.find?_eq_none.mpr fun i _ => ?_
  have h1 := hh i
  have h2 := hx i
  simp only [decide_eq_true_eq]
  omega

/-- **`free`** of what the program holds. -/
lemma free_spec (hI : Inv L h T live) {e : ℕ × ℕ} (he : e ∈ live) :
    ∃ h' T', free h e.1 = some h' ∧ Inv L h' T' (live.filter fun e' => e'.1 ≠ e.1) := by
  obtain ⟨i, b, hb, hf, h1, -⟩ := hI.owned e he
  obtain ⟨h', T', h2, h3⟩ := hI.afree hb hf
  rw [h1]
  refine ⟨h', T', ?_, h3⟩
  unfold free
  rw [if_neg (Nat.succ_ne_zero _), whose_eq hI hb]
  exact h2

/-- What a program calls, and its writes to memory. -/
inductive Call
  | malloc (nbytes : ℕ)
  | calloc (n m : ℕ)
  | realloc (ap nbytes : ℕ)
  | free (ap : ℕ)
  | store (x : ℕ) (v : BitVec 8)

/-- The heap after a call, and what the call returns. -/
def call (L : Layout) (h : Heap) : Call → Option (Heap × ℕ)
  | .malloc nbytes => malloc L h nbytes
  | .calloc n m => calloc L h n m
  | .realloc ap nbytes => realloc L h ap nbytes
  | .free ap => (free h ap).map fun h => (h, 0)
  | .store x v => some ({ h with mem := h.mem.set x v }, 0)

structure State where
  heap : Heap
  live : List (ℕ × ℕ)

/-- The blocks that the program holds after a call has returned `r`, with the bytes it has asked
for: for `calloc` the product itself. -/
def grant (live : List (ℕ × ℕ)) (c : Call) (r : ℕ) : List (ℕ × ℕ) :=
  match c with
  | .malloc nbytes => if r = 0 then live else (r, nbytes) :: live
  | .calloc n m => if r = 0 then live else (r, n * m) :: live
  | .realloc ap nbytes => if r = 0 then live else (r, nbytes) :: live.filter fun e => e.1 ≠ ap
  | .free ap => live.filter fun e => e.1 ≠ ap
  | .store _ _ => live

/-- The calls that a program may make: with arguments of 16 bits, freeing and reallocating what it
holds, and writing into what it holds or outside the heap. -/
def Allowed (L : Layout) (s : State) : Call → Prop
  | .malloc nbytes => nbytes < 65536
  | .calloc n m => n < 65536 ∧ m < 65536
  | .realloc ap nbytes => nbytes < 65536 ∧ (ap = 0 ∨ ap ∈ s.live.map Prod.fst)
  | .free ap => ap = 0 ∨ ap ∈ s.live.map Prod.fst ∨
      ∀ i, ap < L.bigarena i ∨ L.bigarena i + ARENA ≤ ap
  | .store x _ => (∃ e ∈ s.live, e.1 ≤ x ∧ x < e.1 + e.2) ∨
      (∀ i, x < L.bigarena i ∨ L.bigarena i + ARENA ≤ x) ∧
        ∀ i, x < L.base i ∨ L.base i + hsize ≤ x

/-- The sizes that the count of units holds; or there is no room for what the count comes to. -/
def Fits (L : Layout) (s : State) : Call → Prop
  | .malloc nbytes => nbytes ≤ 65530 ∨ Full L s.heap (nunits nbytes)
  | .calloc n m => n * m ≤ 65530 ∨ Full L s.heap (nunits (n * m % 65536))
  | .realloc _ nbytes => nbytes ≤ 65530 ∨ Full L s.heap (nunits nbytes)
  | _ => True

/-- `malloc` of a size that fits. -/
lemma malloc_fits (hI : Ok L h live) (hf : n ≤ 65530 ∨ Full L h (nunits n)) :
    ∃ h' r T', malloc L h n = some (h', r) ∧ (r = 0 ∧ Inv L h' T' live ∨
      0 < r ∧ n ≤ 65530 ∧ Inv L h' T' ((r, n) :: live)) := by
  obtain ⟨h', r, T', h1, h2 | ⟨h2, h3, h4⟩⟩ := malloc_spec hI n
  · exact ⟨h', r, T', h1, Or.inl h2⟩
  · have hn := hf.resolve_right h4
    exact ⟨h', r, T', h1, Or.inr ⟨h2, hn, h3.less (nunits_room hn)⟩⟩

lemma calloc_fits {a b : ℕ} (hI : Ok L h live)
    (hf : a * b ≤ 65530 ∨ Full L h (nunits (a * b % 65536))) :
    ∃ h' r T', calloc L h a b = some (h', r) ∧ (r = 0 ∧ Inv L h' T' live ∨
      0 < r ∧ Inv L h' T' ((r, a * b) :: live) ∧
        ∀ x, r ≤ x → x < r + a * b → h'.mem.byte x = 0) := by
  have hf' : a * b % 65536 ≤ 65530 ∨ Full L h (nunits (a * b % 65536)) :=
    hf.imp_left fun h => (Nat.mod_le _ _).trans h
  obtain ⟨h', r, T', h1, h2⟩ := malloc_spec hI (a * b % 65536)
  have hun : calloc L h a b = if r ≠ 0 then
      some ({ h' with mem := fill h'.mem r 0 (a * b % 65536) }, r) else some (h', r) := by
    unfold calloc
    dsimp only
    rw [h1]
    rfl
  rcases h2 with ⟨h2, h3⟩ | ⟨h2, h3, h4⟩
  · exact ⟨h', r, T', hun.trans (if_neg (not_not.mpr h2)), Or.inl ⟨h2, h3⟩⟩
  · have hp := hf.resolve_right h4
    have hmod : a * b % 65536 = a * b := Nat.mod_eq_of_lt (by omega)
    rw [hmod] at hun h3
    have h5 := h3.less (nunits_room hp)
    refine ⟨_, r, T', hun.trans (if_pos h2.ne'), Or.inr ⟨h2, h5.write fun x hx => ?_, ?_⟩⟩
    · refine Or.inl ⟨(r, a * b), List.mem_cons_self, ?_⟩
      by_contra hc
      refine hx (fill_of_apart ?_)
      simp only at hc
      omega
    · exact fun x hx1 hx2 => fill_in hx1 hx2

lemma realloc_fits (hI : Ok L h live) (hf : n ≤ 65530 ∨ Full L h (nunits n))
    (hap : ap = 0 ∨ ap ∈ live.map Prod.fst) :
    ∃ h' r T', realloc L h ap n = some (h', r) ∧ (r = 0 ∧ Inv L h' T' live ∨
      0 < r ∧ Inv L h' T' ((r, n) :: live.filter fun e => e.1 ≠ ap)) := by
  obtain ⟨h', r, T', h1, h2⟩ := malloc_fits hI hf
  by_cases h0 : ap = 0
  · -- no old block
    refine ⟨h', r, T', (if_pos h0).trans h1, h2.imp_right fun ⟨h3, _, h4⟩ => ⟨h3, ?_⟩⟩
    have h5 : (live.filter fun e => e.1 ≠ ap) = live := by
      refine List.filter_eq_self.mpr fun e he => decide_eq_true ?_
      rw [h0]
      obtain ⟨i, b, -, -, h6, -⟩ := h4.owned e (List.mem_cons_of_mem _ he)
      omega
    rw [h5]
    exact h4
  · obtain ⟨e, he, rfl⟩ := List.mem_map.mp (hap.resolve_left h0)
    set old := (size h.mem (e.1 - hsize) + 65535) % 65536 * hsize % 65536 with hold
    have hun : realloc L h e.1 n = if r = 0 then some (h', r) else
        (free { h' with mem := copy h'.mem r e.1 (min old n) } e.1).bind
          fun h => some (h, r) := by
      unfold realloc
      rw [if_neg h0]
      dsimp only
      rw [h1]
      rfl
    rcases h2 with ⟨h2, h3⟩ | ⟨h2, hn, h3⟩
    · exact ⟨h', r, T', hun.trans (if_pos h2), Or.inl ⟨h2, h3⟩⟩
    · -- the bytes are copied into the new block, and the old one is freed
      have hne : ∀ e' ∈ live, e'.1 ≠ r := by
        rintro e' he' rfl
        exact (List.nodup_cons.mp h3.nodup).1 (List.mem_map.mpr ⟨e', he', rfl⟩)
      have h4 : Inv L { h' with mem := copy h'.mem r e.1 (min old n) } T' ((r, n) :: live) := by
        refine h3.write fun x hx => Or.inl ⟨(r, n), List.mem_cons_self, ?_⟩
        by_contra hc
        refine hx (copy_of_apart ?_)
        simp only at hc
        omega
      obtain ⟨h'', T'', h5, h6⟩ := free_spec h4 (List.mem_cons_of_mem _ he)
      have h7 : (((r, n) :: live).filter fun e' => e'.1 ≠ e.1) =
          (r, n) :: live.filter fun e' => e'.1 ≠ e.1 :=
        List.filter_cons_of_pos (decide_eq_true (hne e he).symm)
      rw [h7] at h6
      refine ⟨h'', r, T'', ?_, Or.inr ⟨h2, h6⟩⟩
      rw [hun, if_neg h2.ne', h5]
      rfl

end

/-- One call. -/
def Step (L : Layout) (s : State) (c : Call) (s' : State) : Prop :=
  Allowed L s c ∧ Fits L s c ∧ ∃ h' r, call L s.heap c = some (h', r) ∧
    s' = ⟨h', grant s.live c r⟩

/-- The heap as a program is loaded, whatever its memory is. -/
def start (m : Mem) : State := ⟨⟨m, fun _ => 0, fun _ => 0, fun _ => 0, false⟩, []⟩

/-- The bytes of a block behind its header. -/
def usable (m : Mem) (ap : ℕ) : ℕ := hsize * (size m (ap - hsize) - 1)

/-- **A heap in order.** Every block that the program holds has the bytes asked for, lies inside
one arena and does not overlap another one with its header. The blocks of each arena cover it; those
that are not held are on the list of the arena, in the order of their addresses around the anchor,
and no two of them are neighbours. -/
structure Sound (L : Layout) (s : State) : Prop where
  room : ∀ e ∈ s.live, e.2 ≤ usable s.heap.mem e.1
  inside : ∀ e ∈ s.live, ∃ i, L.bigarena i ≤ e.1 - hsize ∧
    e.1 + usable s.heap.mem e.1 ≤ L.bigarena i + ARENA
  disjoint : s.live.Pairwise fun e e' =>
    e.1 + usable s.heap.mem e.1 ≤ e'.1 - hsize ∨ e'.1 + usable s.heap.mem e'.1 ≤ e.1 - hsize
  lists : s.heap.seeded = true → ∀ i, ∃ T, Listed L i s.heap.mem T ∧
    s.heap.freep i ∈ L.base i :: frees T ∧
    (∀ b ∈ T, b.free = false ↔ b.addr + hsize ∈ s.live.map Prod.fst) ∧
    (s.live = [] → T = [⟨L.org i, UNITS, true⟩])

section
variable {L : Layout} {h h' : Heap} {i j : Fin NARENA} {T : Fin NARENA → List Blk}
  {live : List (ℕ × ℕ)} {s s' : State} {c : Call}

lemma Inv.sound (hI : Inv L h T live) : Sound L ⟨h, live⟩ := by
  have huse : ∀ e ∈ live, ∃ i, ∃ b ∈ T i, b.free = false ∧ e.1 = b.addr + 6 ∧
      e.2 + 6 ≤ 6 * b.units ∧ usable h.mem e.1 = 6 * (b.units - 1) ∧
      L.org i ≤ b.addr ∧ b.addr + 6 * b.units ≤ L.org i + 59988 ∧ 0 < b.units := by
    intro e he
    obtain ⟨i, b, hb, hf, h1, h2⟩ := hI.owned e he
    obtain ⟨h3, h4, h5, h6⟩ := (hI.listed i).tiling.mem hb
    refine ⟨i, b, hb, hf, h1, h2, ?_, h3, h4, h5⟩
    unfold usable
    rw [hsize_eq, h1, Nat.add_sub_cancel, h6]
  refine ⟨fun e he => ?_, fun e he => ?_, ?_, fun _ i => ⟨T i, hI.listed i, hI.freep i, ?_, ?_⟩⟩
  · obtain ⟨i, b, -, -, -, h2, h3, -⟩ := huse e he
    simp only [h3]
    omega
  · obtain ⟨i, b, -, -, h1, -, h3, h4, h5, h6⟩ := huse e he
    have h7 := L.org_bounds i
    refine ⟨i, ?_, ?_⟩
    · rw [hsize_eq]
      omega
    · simp only [h3, arena_eq]
      omega
  · -- two blocks that the program holds are at different addresses
    refine (List.pairwise_map.mp hI.nodup).imp_of_mem fun {e e'} he he' hne => ?_
    obtain ⟨i, b, hb, -, h1, -, h3, -, -, h6⟩ := huse e he
    obtain ⟨j, b', hb', -, h1', -, h3', -, -, h6'⟩ := huse e' he'
    simp only [h3, h3', hsize_eq]
    by_cases hij : i = j
    · subst hij
      rcases (hI.listed i).tiling.disjoint hb hb' with rfl | h7
      · exact absurd (h1.trans h1'.symm) hne
      · omega
    · have := arena_disjoint hI.listed hij hb hb'
      omega
  · intro b hb
    rw [hsize_eq]
    constructor
    · intro hf
      obtain ⟨e, he, h1⟩ := hI.held i b hb hf
      exact List.mem_map.mpr ⟨e, he, h1⟩
    · intro hm
      obtain ⟨e, he, h1⟩ := List.mem_map.mp hm
      obtain ⟨j, b', hb', hf', h2, -⟩ := hI.owned e he
      have hpos := (hI.listed i).tiling.mem hb
      have hpos' := (hI.listed j).tiling.mem hb'
      by_cases hij : i = j
      · subst hij
        rcases (hI.listed i).tiling.disjoint hb hb' with rfl | h7
        · exact hf'
        · omega
      · have := arena_disjoint hI.listed hij hb hb'
        omega
  · intro hnil
    refine all_free (hI.listed i) fun b hb => ?_
    cases hf : b.free with
    | true => rfl
    | false =>
      obtain ⟨e, he, -⟩ := hI.held i b hb hf
      change live = [] at hnil
      rw [hnil] at he
      cases he

lemma Ok.sound (hI : Ok L s.heap s.live) : Sound L s := by
  rcases hI with ⟨h1, -, h2⟩ | ⟨T, hI⟩
  · refine ⟨?_, ?_, ?_, fun h3 => ?_⟩
    · rw [h2]
      exact fun e he => absurd he (by simp)
    · rw [h2]
      exact fun e he => absurd he (by simp)
    · rw [h2]
      exact List.Pairwise.nil
    · rw [h1] at h3
      exact Bool.noConfusion h3
  · exact hI.sound

/-- **One call** comes to an end and keeps the heap in order; `calloc` has cleared its block. -/
lemma Ok.call (hI : Ok L s.heap s.live) (ha : Allowed L s c) (hf : Fits L s c) :
    ∃ h' r, call L s.heap c = some (h', r) ∧ Ok L h' (grant s.live c r) ∧
      ∀ n m, c = .calloc n m → r ≠ 0 → ∀ x, r ≤ x → x < r + n * m → h'.mem.byte x = 0 := by
  cases c with
  | malloc nbytes =>
    obtain ⟨h', r, T', h1, h2⟩ := malloc_fits hI hf
    refine ⟨h', r, h1, Or.inr ⟨T', ?_⟩, fun _ _ h => Call.noConfusion h⟩
    change Inv L h' T' (if r = 0 then s.live else _)
    rcases h2 with ⟨h2, h3⟩ | ⟨h2, -, h3⟩
    · rw [if_pos h2]
      exact h3
    · rw [if_neg h2.ne']
      exact h3
  | calloc n m =>
    obtain ⟨h', r, T', h1, h2⟩ := calloc_fits hI hf
    refine ⟨h', r, h1, Or.inr ⟨T', ?_⟩, ?_⟩
    · change Inv L h' T' (if r = 0 then s.live else _)
      rcases h2 with ⟨h2, h3⟩ | ⟨h2, h3, -⟩
      · rw [if_pos h2]
        exact h3
      · rw [if_neg h2.ne']
        exact h3
    · rintro _ _ ⟨⟩ hr
      rcases h2 with ⟨h2, -⟩ | ⟨-, -, h3⟩
      · exact absurd h2 hr
      · exact h3
  | realloc ap nbytes =>
    obtain ⟨h', r, T', h1, h2⟩ := realloc_fits hI hf ha.2
    refine ⟨h', r, h1, Or.inr ⟨T', ?_⟩, fun _ _ h => Call.noConfusion h⟩
    change Inv L h' T' (if r = 0 then s.live else _)
    rcases h2 with ⟨h2, h3⟩ | ⟨h2, h3⟩
    · rw [if_pos h2]
      exact h3
    · rw [if_neg h2.ne']
      exact h3
  | free ap =>
    have hsame : ap ∉ s.live.map Prod.fst → (s.live.filter fun e => e.1 ≠ ap) = s.live := by
      refine fun hm => List.filter_eq_self.mpr fun e he => decide_eq_true ?_
      rintro rfl
      exact hm (List.mem_map_of_mem he)
    by_cases hm : ap ∈ s.live.map Prod.fst
    · -- a block of the program
      obtain ⟨e, he, rfl⟩ := List.mem_map.mp hm
      rcases hI with ⟨-, -, h2⟩ | ⟨T, hI⟩
      · rw [h2] at he
        cases he
      · obtain ⟨h', T', h1, h2⟩ := free_spec hI he
        refine ⟨h', 0, ?_, Or.inr ⟨T', h2⟩, fun _ _ h => Call.noConfusion h⟩
        change (free s.heap e.1).map _ = _
        rw [h1]
        rfl
    · -- nothing to do
      refine ⟨s.heap, 0, ?_, ?_, fun _ _ h => Call.noConfusion h⟩
      · change (free s.heap ap).map _ = _
        unfold free
        by_cases h0 : ap = 0
        · rw [if_pos h0]
          rfl
        · have hout := (ha.resolve_left h0).resolve_left hm
          have hh : ∀ i, (s.heap.alo i = 0 ∧ s.heap.ahi i = 0) ∨
              s.heap.alo i = L.bigarena i ∧ s.heap.ahi i = L.bigarena i + ARENA := by
            intro i
            rcases hI with ⟨-, h2, -⟩ | ⟨T, hI⟩
            · exact Or.inl (h2 i)
            · exact Or.inr ⟨hI.alo i, hI.ahi i⟩
          rw [if_neg h0, whose_out hh hout]
          rfl
      · change Ok L s.heap (s.live.filter fun e => e.1 ≠ ap)
        rw [hsame hm]
        exact hI
  | store x v =>
    refine ⟨_, 0, rfl, ?_, fun _ _ h => Call.noConfusion h⟩
    rcases hI with ⟨h1, h2, h3⟩ | ⟨T, hI⟩
    · exact Or.inl ⟨h1, h2, h3⟩
    · refine Or.inr ⟨T, hI.write fun y hy => ?_⟩
      have hxy : y = x := by
        by_contra hne
        exact hy (set_of_ne hne)
      subst hxy
      exact ha

end

/-- **The heap of the compiler.** As long as a program asks for sizes that the 16 bits of the count
hold, the heap is in order after every run, and the next call comes to an end; `calloc` clears all
the bytes of the product. -/
theorem heap_sound {L : Layout} {m : Mem} {cs : List Call} {s : State}
    (h : Run (Step L) (start m) cs s) :
    Sound L s ∧ ∀ c, Allowed L s c → Fits L s c → ∃ h' r, call L s.heap c = some (h', r) ∧
      Sound L ⟨h', grant s.live c r⟩ ∧
      ∀ n k, c = .calloc n k → r ≠ 0 → ∀ x, r ≤ x → x < r + n * k → h'.mem.byte x = 0 := by
  have hok : Ok L s.heap s.live := by
    have h0 : Ok L (start m).heap (start m).live := Or.inl ⟨rfl, fun _ => ⟨rfl, rfl⟩, rfl⟩
    refine h.invariant (I := fun s => Ok L s.heap s.live) ?_ h0
    rintro s c s' hI ⟨ha, hf, h', r, h1, rfl⟩
    obtain ⟨h'', r', h2, h3, -⟩ := hI.call ha hf
    obtain ⟨rfl, rfl⟩ := Prod.mk.inj (Option.some.inj (h1.symm.trans h2))
    exact h3
  refine ⟨hok.sound, fun c ha hf => ?_⟩
  obtain ⟨h', r, h1, h2, h3⟩ := hok.call ha hf
  exact ⟨h', r, h1, h2.sound, h3⟩

/-- Arenas in four segments, and the anchors in a fifth. -/
def layout : Layout where
  bigarena i := 65536 * (i + 2)
  base i := 65536 + 6 * i
  arenas := by decide
  bases := by decide
  anchors := by decide
  arena_lt := by decide
  base_lt := by decide

/-- A run of `calloc(10, 4)`. -/
theorem heap_calloc : ∃ s, Run (Step layout) (start ⟨fun _ => 0⟩) [.calloc 10 4] s ∧
    Sound layout s ∧ s.live ≠ [] := by
  have h0 := (heap_sound (.nil (start ⟨fun _ => 0⟩)) (L := layout)).2 (.calloc 10 4)
    ⟨by decide, by decide⟩ (Or.inl (by decide))
  obtain ⟨h', r, h1, h2, -⟩ := h0
  have hr : (call layout (start ⟨fun _ => 0⟩).heap (.calloc 10 4)).map (·.2) = some 191024 := by
    decide +kernel
  rw [h1] at hr
  obtain rfl : r = 191024 := Option.some.inj hr
  exact ⟨_, .snoc (.nil _) ⟨⟨by decide, by decide⟩, Or.inl (by decide), h', _, h1, rfl⟩, h2,
    List.cons_ne_nil _ _⟩

/-- `malloc(65535)` returns a block without a single byte, and so does `calloc(1, 65535)`; for
`calloc(256, 257)` there are 256 bytes. -/
theorem malloc_wraps :
    ((malloc layout (start ⟨fun _ => 0⟩).heap 65535).map fun x => (x.2, usable x.1.mem x.2)) =
      some (387674, 0) ∧
    ((calloc layout (start ⟨fun _ => 0⟩).heap 256 257).map fun x => (x.2, usable x.1.mem x.2)) =
      some (190808, 258) ∧
    ¬Fits layout (start ⟨fun _ => 0⟩) (.malloc 65535) := by
  refine ⟨by decide +kernel, by decide +kernel, ?_⟩
  rintro (h | h)
  · exact absurd h (by decide)
  · unfold Full at h
    rw [if_neg (by decide)] at h
    exact absurd h (by decide)

end Coherent.Bigheap
