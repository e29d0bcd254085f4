import Mathlib.Tactic

/-!
Circular lists of cells, and the search that walks around one until a cell meets a condition.
-/

namespace Coherent.Lib

variable {α : Type*} {next next' : α → α} {l l₁ l₂ : List α} {a b p q x y : α}

/-- Each cell but the last points to the one behind it. -/
def Chain (next : α → α) (l : List α) : Prop := l.IsChain fun x y => next x = y

theorem chain_append : Chain next (l₁ ++ p :: q :: l₂) ↔
    Chain next (l₁ ++ [p]) ∧ next p = q ∧ Chain next (q :: l₂) := by
  unfold Chain
  rw [List.isChain_split, List.isChain_cons_cons]

theorem Chain.congr (h : Chain next l) (he : ∀ x ∈ l.dropLast, next' x = next x) :
    Chain next' l := by
  induction l with
  | nil => exact List.isChain_nil
  | cons a l ih =>
    cases l with
    | nil => exact List.isChain_singleton a
    | cons b l =>
      obtain ⟨h1, h2⟩ := List.isChain_cons_cons.mp h
      refine List.isChain_cons_cons.mpr ⟨?_, ih h2 fun x hx => he x (List.mem_cons_of_mem a hx)⟩
      rw [he a List.mem_cons_self, h1]

/-- What holds of any two cells in their order holds of a cell and the next one. -/
theorem Chain.next_rel {R : α → α → Prop} (h : Chain next l) (hR : l.Pairwise R)
    (hx : x ∈ l.dropLast) : R x (next x) := by
  induction l with
  | nil => cases hx
  | cons a l ih =>
    cases l with
    | nil => cases hx
    | cons b l =>
      obtain ⟨h1, h2⟩ := List.isChain_cons_cons.mp h
      obtain ⟨h3, h4⟩ := List.pairwise_cons.mp hR
      rcases List.mem_cons.mp hx with rfl | hx
      · rw [h1]
        exact h3 b List.mem_cons_self
      · exact ih h2 h4 hx

theorem Chain.map_next (h : Chain next l) : l.dropLast.map next = l.tail := by
  induction l with
  | nil => rfl
  | cons a l ih =>
    cases l with
    | nil => rfl
    | cons b l =>
      obtain ⟨h1, h2⟩ := List.isChain_cons_cons.mp h
      change next a :: ((b :: l).dropLast.map next) = b :: l
      rw [ih h2, h1]
      rfl

theorem Chain.next_mem (h : Chain next l) (hx : x ∈ l.dropLast) : next x ∈ l.tail := by
  rw [← h.map_next]
  exact List.mem_map_of_mem hx

theorem Chain.reach (h : Chain next (x :: l)) (hy : y ∈ x :: l) :
    ∃ k ≤ l.length, next^[k] x = y := by
  induction l generalizing x with
  | nil => exact ⟨0, le_refl 0, (List.mem_singleton.mp hy).symm⟩
  | cons z l ih =>
    obtain ⟨h1, h2⟩ := List.isChain_cons_cons.mp h
    rcases List.mem_cons.mp hy with rfl | hy
    · exact ⟨0, Nat.zero_le _, rfl⟩
    · obtain ⟨k, hk, he⟩ := ih h2 hy
      refine ⟨k + 1, Nat.succ_le_succ hk, ?_⟩
      rw [Function.iterate_succ_apply, h1, he]

/-- The circle from `a` through the cells of `l` back to `a`. -/
def Circular (next : α → α) (a : α) (l : List α) : Prop := Chain next (a :: l ++ [a])

theorem Circular.map_next (h : Circular next a l) : (a :: l).map next = l ++ [a] := by
  have h1 := Chain.map_next (l := a :: l ++ [a]) h
  rwa [List.dropLast_concat] at h1

theorem Circular.next_mem (h : Circular next a l) (hx : x ∈ a :: l) : next x ∈ a :: l := by
  have h1 : next x ∈ l ++ [a] := h.map_next ▸ List.mem_map_of_mem hx
  rcases List.mem_append.mp h1 with h1 | h1
  · exact List.mem_cons_of_mem a h1
  · rw [List.mem_singleton.mp h1]
    exact List.mem_cons_self

theorem Circular.exists_prev (h : Circular next a l) (hx : x ∈ a :: l) :
    ∃ y ∈ a :: l, next y = x := by
  have h1 : x ∈ (a :: l).map next := by
    rw [h.map_next]
    rcases List.mem_cons.mp hx with rfl | hx <;> simp [*]
  obtain ⟨y, hy, he⟩ := List.mem_map.mp h1
  exact ⟨y, hy, he⟩

/-- Two cells do not point to the same one. -/
theorem Circular.next_inj (h : Circular next a l) (hn : (a :: l).Nodup) (hx : x ∈ a :: l)
    (hy : y ∈ a :: l) (he : next x = next y) : x = y := by
  have h1 : ((a :: l).map next).Nodup := by
    rw [h.map_next]
    exact (@List.nodup_append_comm _ [a] _).mp hn
  exact List.inj_on_of_nodup_map h1 hx hy he

theorem exists_last (a : α) (l : List α) : ∃ ps p, a :: l = ps ++ [p] :=
  ⟨_, _, (List.dropLast_append_getLast (List.cons_ne_nil a l)).symm⟩

theorem exists_head (l : List α) (a : α) : ∃ q qs, l ++ [a] = q :: qs := by
  cases l with
  | nil => exact ⟨a, [], rfl⟩
  | cons q qs => exact ⟨q, qs ++ [a], rfl⟩

/-- A circle is cut in two chains, behind the cell `p` and in front of the cell `q`. -/
theorem circular_append {ps qs : List α} (hp : a :: l₁ = ps ++ [p]) (hq : l₂ ++ [a] = q :: qs) :
    Circular next a (l₁ ++ l₂) ↔
      Chain next (a :: l₁) ∧ next p = q ∧ Chain next (l₂ ++ [a]) := by
  have hw : a :: (l₁ ++ l₂) ++ [a] = ps ++ p :: q :: qs := by
    rw [← List.cons_append, List.append_assoc, hp, hq, List.append_assoc]
    rfl
  unfold Circular
  rw [hw, hp, hq]
  exact chain_append

variable (next') in
/-- **Taking a cell out**: the one before it points to the one behind it. -/
theorem Circular.remove (h : Circular next a (l₁ ++ p :: l₂)) (hn : (a :: (l₁ ++ p :: l₂)).Nodup)
    (hx : x ∈ a :: (l₁ ++ p :: l₂)) (hp : next x = p) (h1 : next' x = next p)
    (h2 : ∀ y ∈ a :: (l₁ ++ l₂), y ≠ x → next' y = next y) :
    Circular next' a (l₁ ++ l₂) ∧ x ∈ a :: l₁ := by
  obtain ⟨ps, z, hz⟩ := exists_last a l₁
  obtain ⟨q, qs, hq⟩ := exists_head l₂ a
  obtain ⟨hc1, hzp, hc2⟩ := (circular_append hz (@List.cons_append _ p l₂ [a])).mp h
  rw [List.cons_append, hq] at hc2
  obtain ⟨hpq, hc3⟩ := List.isChain_cons_cons.mp hc2
  have hz1 : z ∈ a :: l₁ := by simp [hz]
  have hz2 : z ∈ a :: (l₁ ++ p :: l₂) := by
    rw [← List.cons_append]
    exact List.mem_append_left _ hz1
  obtain rfl : x = z := h.next_inj hn hx hz2 (hp.trans hzp.symm)
  rw [← List.cons_append] at hn
  obtain ⟨hn1, -, hn2⟩ := List.nodup_append.mp hn
  refine ⟨(circular_append hz hq).mpr ⟨?_, h1.trans hpq, ?_⟩, hz1⟩
  · refine hc1.congr fun y hy => h2 y ?_ ?_
    · rw [← List.cons_append]
      exact List.mem_append_left _ (List.mem_of_mem_dropLast hy)
    · rintro rfl
      rw [hz, List.dropLast_concat] at hy
      rw [hz] at hn1
      exact (List.nodup_append.mp hn1).2.2 y hy y (by simp) rfl
  · rw [hq]
    refine Chain.congr hc3 fun y hy => ?_
    rw [← hq, List.dropLast_concat] at hy
    refine h2 y (by simp [hy]) ?_
    rintro rfl
    exact hn2 y hz1 y (by simp [hy]) rfl

/-- Every cell is reached from every other in two rounds at most. -/
theorem Circular.reach (h : Circular next a l) (hx : x ∈ a :: l) (hy : y ∈ a :: l) :
    ∃ k ≤ 2 * l.length + 1, next^[k] x = y := by
  obtain ⟨s, t, hst⟩ := List.append_of_mem hx
  have hlen : t.length ≤ l.length := by
    have := congrArg List.length hst
    simp only [List.length_cons, List.length_append] at this
    omega
  have hc : Chain next (x :: (t ++ [a])) := by
    unfold Circular at h
    rw [hst, List.append_assoc, List.cons_append] at h
    exact h.suffix ⟨s, rfl⟩
  obtain ⟨k₁, hk₁, h₁⟩ := hc.reach (y := a) (by simp)
  have h' : Chain next (a :: l ++ [a]) := h
  obtain ⟨k₂, hk₂, h₂⟩ := Chain.reach (List.isChain_append.mp h').1 hy
  refine ⟨k₂ + k₁, ?_, by rw [Function.iterate_add_apply, h₁, h₂]⟩
  rw [List.length_append, List.length_singleton] at hk₁
  omega

/-- Walks along the cells until one meets the condition, in fewer than `n` steps. -/
def search (stop : α → Bool) (next : α → α) : ℕ → α → Option α
  | 0, _ => none
  | n + 1, x => if stop x then some x else search stop next n (next x)

/-- **The search ends** when a cell that is reached meets the condition. -/
theorem search_eq {stop : α → Bool} {k n : ℕ} (hk : stop (next^[k] x) = true) (hn : k < n) :
    ∃ j, search stop next n x = some (next^[j] x) ∧ stop (next^[j] x) = true := by
  induction n generalizing x k with
  | zero => omega
  | succ n ih =>
    by_cases hx : stop x = true
    · exact ⟨0, if_pos hx, hx⟩
    · cases k with
      | zero => exact absurd hk hx
      | succ k =>
        obtain ⟨j, h1, h2⟩ := ih (x := next x) hk (by omega)
        exact ⟨j + 1, (if_neg hx).trans h1, h2⟩

/-- The search in a circle. -/
theorem Circular.search_eq (h : Circular next a l) (stop : α → Bool) {n : ℕ} (hx : x ∈ a :: l)
    (hy : y ∈ a :: l) (hs : stop y = true) (hn : 2 * l.length + 1 < n) :
    ∃ z ∈ a :: l, search stop next n x = some z ∧ stop z = true := by
  obtain ⟨k, hk, hky⟩ := h.reach hx hy
  have hst : stop (next^[k] x) = true := hky ▸ hs
  obtain ⟨j, h1, h2⟩ := Lib.search_eq hst (show k < n by omega)
  refine ⟨next^[j] x, ?_, h1, h2⟩
  clear h1 h2
  induction j with
  | zero => exact hx
  | succ j ih =>
    rw [Function.iterate_succ_apply']
    exact h.next_mem ih

section Order
variable [LinearOrder α]

/-- The cell behind which `b` belongs, in a circle in order. -/
def Before (next : α → α) (b p : α) : Prop :=
  (p < b ∧ b < next p) ∨ (next p ≤ p ∧ (p < b ∨ b < next p))

/-- **The place of a cell** in a circle whose cells are in order but for the first, which stands
below or above all: it is behind the last cell that is smaller, and nowhere else. -/
theorem Circular.before_iff (h : Circular next a (l₁ ++ l₂)) (hs : (l₁ ++ l₂).Pairwise (· < ·))
    (h₁ : ∀ x ∈ l₁, x < b) (h₂ : ∀ x ∈ l₂, b < x)
    (ha : (∀ x ∈ l₁ ++ b :: l₂, a < x) ∨ ∀ x ∈ l₁ ++ b :: l₂, x < a) {ps qs : List α}
    (hp : a :: l₁ = ps ++ [p]) (hq : l₂ ++ [a] = q :: qs) :
    next p = q ∧ ∀ x ∈ a :: (l₁ ++ l₂), Before next b x ↔ x = p := by
  obtain ⟨hc1, hpq, hc2⟩ := (circular_append hp hq).mp h
  refine ⟨hpq, ?_⟩
  obtain ⟨hs1, hs2, -⟩ := List.pairwise_append.mp hs
  have hab : a < b ∨ b < a := by
    rcases ha with ha | ha
    · exact Or.inl (ha b (by simp))
    · exact Or.inr (ha b (by simp))
  have hmem1 : p = a ∨ p ∈ l₁ := by
    have : p ∈ a :: l₁ := by simp [hp]
    exact List.mem_cons.mp this
  have hmem2 : q = a ∨ q ∈ l₂ := by
    have : q ∈ l₂ ++ [a] := by simp [hq]
    rcases List.mem_append.mp this with h | h
    · exact Or.inr h
    · exact Or.inl (List.mem_singleton.mp h)
  have ha1 : ∀ x ∈ l₁, (a < x ∧ a < b) ∨ (x < a ∧ b < a) := by
    intro x hx
    rcases ha with ha | ha
    · exact Or.inl ⟨ha x (by simp [hx]), ha b (by simp)⟩
    · exact Or.inr ⟨ha x (by simp [hx]), ha b (by simp)⟩
  have ha2 : ∀ x ∈ l₂, (a < x ∧ a < b) ∨ (x < a ∧ b < a) := by
    intro x hx
    rcases ha with ha | ha
    · exact Or.inl ⟨ha x (by simp [hx]), ha b (by simp)⟩
    · exact Or.inr ⟨ha x (by simp [hx]), ha b (by simp)⟩
  -- the place found
  have hfit : Before next b p := by
    unfold Before
    rw [hpq]
    rcases hmem1 with rfl | hp1 <;> rcases hmem2 with rfl | hq2
    · exact Or.inr ⟨le_refl _, hab⟩
    · have h3 := h₂ q hq2
      rcases ha2 q hq2 with ⟨h4, h5⟩ | ⟨h4, h5⟩
      · exact Or.inl ⟨h5, h3⟩
      · exact Or.inr ⟨h4.le, Or.inr h3⟩
    · have h3 := h₁ p hp1
      rcases ha1 p hp1 with ⟨h4, h5⟩ | ⟨h4, h5⟩
      · exact Or.inr ⟨h4.le, Or.inl h3⟩
      · exact Or.inl ⟨h3, h5⟩
    · exact Or.inl ⟨h₁ p hp1, h₂ q hq2⟩
  intro x hx
  refine ⟨fun hb => ?_, fun he => he ▸ hfit⟩
  by_contra hne
  rw [← List.cons_append, hp, List.append_assoc] at hx
  rcases List.mem_append.mp hx with hx | hx
  · -- before the place
    have hxd : x ∈ (a :: l₁).dropLast := by
      rw [hp, List.dropLast_concat]
      exact hx
    have hnx : next x ∈ l₁ := hc1.next_mem hxd
    have hnb := h₁ _ hnx
    have hrel : x = a ∨ x < next x := by
      refine hc1.next_rel (R := fun x y => x = a ∨ x < y) ?_ hxd
      exact List.pairwise_cons.mpr ⟨fun y _ => Or.inl rfl, hs1.imp Or.inr⟩
    rcases hb with ⟨-, h4⟩ | ⟨h4, h5⟩
    · exact absurd h4 hnb.asymm
    · rcases hrel with rfl | h6
      · rcases ha1 _ hnx with ⟨h7, h8⟩ | ⟨h7, h8⟩
        · exact absurd h4 (not_le.mpr h7)
        · rcases h5 with h5 | h5
          · exact absurd h5 h8.asymm
          · exact absurd h5 hnb.asymm
      · exact absurd h4 (not_le.mpr h6)
  · -- behind it
    rcases List.mem_cons.mp hx with rfl | hx
    · exact hne rfl
    have hxd : x ∈ (l₂ ++ [a]).dropLast := by
      rw [List.dropLast_concat]
      exact hx
    have hbx := h₂ x hx
    have hnx : next x = a ∨ x < next x := by
      refine hc2.next_rel (R := fun x y => y = a ∨ x < y) ?_ hxd
      refine List.pairwise_append.mpr ⟨hs2.imp Or.inr, List.pairwise_singleton _ _, ?_⟩
      exact fun y _ z hz => Or.inl (List.mem_singleton.mp hz)
    rcases hb with ⟨h4, -⟩ | ⟨h4, h5⟩
    · exact absurd h4 hbx.asymm
    · rcases hnx with h6 | h6
      · rw [h6] at h4 h5
        rcases ha2 x hx with ⟨h7, h8⟩ | ⟨h7, h8⟩
        · rcases h5 with h5 | h5
          · exact absurd h5 hbx.asymm
          · exact absurd h5 h8.asymm
        · exact absurd h4 (not_le.mpr h7)
      · exact absurd h4 (not_le.mpr h6)

end Order

end Coherent.Lib
