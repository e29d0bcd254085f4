import Mathlib.Data.Fintype.Card
import Mathlib.Logic.Relation
import Mathlib.Tactic

/-!
Union-find over a parent function: `find` with path halving, and `union`, which hangs one root
under another. The classes are those of the relation that a cell and its parent generate.
-/

namespace Coherent.Lib.UnionFind

open Relation

variable {ι : Type*} {p q : ι → ι} {i j r : ι}

/-- The parents lead up, so that no walk comes back. -/
def Forest (p : ι → ι) : Prop := ∃ rk : ι → ℕ, ∀ i, p i ≠ i → rk i < rk (p i)

/-- Two cells of one class. -/
def Same (p : ι → ι) : ι → ι → Prop := EqvGen fun i j => p i = j

/-- The root of a class. -/
def Root (p : ι → ι) (i r : ι) : Prop := p r = r ∧ Same p i r

/-- The classes and their roots are those of `p`. -/
structure Keeps (p q : ι → ι) : Prop where
  forest : Forest q
  same : Same q = Same p
  root : ∀ i, q i = i ↔ p i = i

/-! ### Classes -/

lemma forest_id : Forest (id : ι → ι) := ⟨fun _ => 0, fun _ h => absurd rfl h⟩

lemma Same.parent (p : ι → ι) (i : ι) : Same p i (p i) := .rel _ _ rfl

/-- An equivalence holds in the classes of a relation that it contains. -/
lemma eqvGen_le {R S : ι → ι → Prop} (hS : Equivalence S) (h : ∀ a b, R a b → S a b)
    (hij : EqvGen R i j) : S i j :=
  hS.eqvGen_iff.mp (EqvGen.mono h i j hij)

/-- So does one that holds between a cell and its parent. -/
lemma Same.le {R : ι → ι → Prop} (hR : Equivalence R) (h : ∀ i, R i (p i)) (hij : Same p i j) :
    R i j :=
  eqvGen_le hR (fun a b (hab : p a = b) => hab ▸ h a) hij

lemma same_equivalence (p : ι → ι) : Equivalence (Same p) := EqvGen.is_equivalence _

lemma same_id : Same (id : ι → ι) i j ↔ i = j :=
  ⟨Same.le ⟨fun _ => rfl, Eq.symm, Eq.trans⟩ fun _ => rfl, fun h => h ▸ .refl i⟩

/-- Two cells of one class meet above. -/
lemma Same.iterate (h : Same p i j) : ∃ m n, p^[m] i = p^[n] j := by
  induction h with
  | rel a b h => exact ⟨1, 0, h⟩
  | refl a => exact ⟨0, 0, rfl⟩
  | symm a b _ ih =>
    obtain ⟨m, n, h⟩ := ih
    exact ⟨n, m, h.symm⟩
  | trans a b c _ _ ih1 ih2 =>
    obtain ⟨m, n, h1⟩ := ih1
    obtain ⟨k, l, h2⟩ := ih2
    refine ⟨k + m, n + l, ?_⟩
    rw [Function.iterate_add_apply, h1, ← Function.iterate_add_apply, Nat.add_comm k n,
      Function.iterate_add_apply, h2, ← Function.iterate_add_apply]

/-- A class has one root. -/
theorem Same.root_eq (h : Same p i j) (hi : p i = i) (hj : p j = j) : i = j := by
  obtain ⟨m, n, h⟩ := h.iterate
  rwa [Function.iterate_fixed hi, Function.iterate_fixed hj] at h

theorem Root.same_iff {s : ι} (hr : Root p i r) (hs : Root p j s) : Same p i j ↔ r = s := by
  constructor
  · intro h
    exact Same.root_eq (((same_equivalence p).symm hr.2).trans _ _ _ (h.trans _ _ _ hs.2)) hr.1 hs.1
  · rintro rfl
    exact hr.2.trans _ _ _ ((same_equivalence p).symm hs.2)

lemma Keeps.refl (h : Forest p) : Keeps p p := ⟨h, rfl, fun _ => Iff.rfl⟩

lemma Keeps.trans {s : ι → ι} (h : Keeps p q) (h' : Keeps q s) : Keeps p s :=
  ⟨h'.forest, h'.same.trans h.same, fun i => (h'.root i).trans (h.root i)⟩

lemma Keeps.root_iff (h : Keeps p q) : Root q i r ↔ Root p i r := by
  unfold Root
  rw [h.same, h.root]

/-- A pair that is joined by its roots. -/
lemma eqvGen_roots {R : ι → ι → Prop} (hR : Equivalence R) {a b : ι} (ha : R i a) (hb : R j b) :
    (EqvGen fun x y => R x y ∨ (x = a ∧ y = b)) = EqvGen fun x y => R x y ∨ (x = i ∧ y = j) := by
  have swap : ∀ {i j a b : ι}, R i a → R j b → ∀ x y,
      EqvGen (fun x y => R x y ∨ (x = a ∧ y = b)) x y →
        EqvGen (fun x y => R x y ∨ (x = i ∧ y = j)) x y := by
    intro i j a b ha hb x y h
    refine eqvGen_le (EqvGen.is_equivalence _) (fun x y hxy => ?_) h
    rcases hxy with hxy | ⟨rfl, rfl⟩
    · exact .rel _ _ (.inl hxy)
    · have h1 : EqvGen (fun x y => R x y ∨ (x = i ∧ y = j)) x i := .rel _ _ (.inl (hR.symm ha))
      have h2 : EqvGen (fun x y => R x y ∨ (x = i ∧ y = j)) j y := .rel _ _ (.inl hb)
      exact h1.trans _ _ _ (.trans _ _ _ (.rel _ _ (.inr ⟨rfl, rfl⟩)) h2)
  funext x y
  exact propext ⟨swap ha hb x y, swap (hR.symm ha) (hR.symm hb) x y⟩

/-! ### Finding a root -/

variable [DecidableEq ι]

/-- The root above `i`, `none` if it has not been reached in so many steps: every cell on the way is
hung under the parent of its parent. -/
def find : ℕ → (ι → ι) → ι → Option ((ι → ι) × ι)
  | 0, _, _ => none
  | n + 1, p, i =>
    if p i = i then some (p, i) else find n (Function.update p i (p (p i))) (p (p i))

section Halve

variable {rk : ι → ℕ} (hrk : ∀ i, p i ≠ i → rk i < rk (p i)) (h : p i ≠ i)
include hrk h

lemma rise_twice : rk i < rk (p (p i)) := by
  by_cases h' : p (p i) = p i
  · exact h'.symm ▸ hrk i h
  · exact (hrk i h).trans (hrk _ h')

lemma rise_halve (k : ι) (hk : Function.update p i (p (p i)) k ≠ k) :
    rk k < rk (Function.update p i (p (p i)) k) := by
  by_cases hki : k = i
  · subst hki
    rw [Function.update_self]
    exact rise_twice hrk h
  · rw [Function.update_of_ne hki] at hk ⊢
    exact hrk k hk

end Halve

lemma same_halve (h : p i ≠ i) : Same (Function.update p i (p (p i))) = Same p := by
  have hp : Function.update p i (p (p i)) (p i) = p (p i) := Function.update_of_ne h _ _
  have hi : Function.update p i (p (p i)) i = p (p i) := Function.update_self i _ p
  have hne : ∀ k, k ≠ i → Function.update p i (p (p i)) k = p k := fun k hk =>
    Function.update_of_ne hk _ _
  generalize Function.update p i (p (p i)) = q at hp hi hne
  funext a b
  refine propext
    ⟨Same.le (same_equivalence p) fun k => ?_, Same.le (same_equivalence q) fun k => ?_⟩
  · by_cases hk : k = i
    · rw [hk, hi]
      exact (Same.parent p i).trans _ _ _ (Same.parent p (p i))
    · rw [hne k hk]
      exact Same.parent p k
  · by_cases hk : k = i
    · rw [hk]
      have h1 := Same.parent q i
      rw [hi, ← hp] at h1
      exact h1.trans _ _ _ ((same_equivalence q).symm (Same.parent q (p i)))
    · rw [← hne k hk]
      exact Same.parent q k

lemma keeps_halve {rk : ι → ℕ} (hrk : ∀ i, p i ≠ i → rk i < rk (p i)) (h : p i ≠ i) :
    Keeps p (Function.update p i (p (p i))) := by
  refine ⟨⟨rk, rise_halve hrk h⟩, same_halve h, fun k => ?_⟩
  by_cases hk : k = i
  · subst hk
    rw [Function.update_self]
    refine ⟨fun h2 => ?_, fun h2 => absurd h2 h⟩
    exact absurd (rise_twice hrk h) (by rw [h2]; exact lt_irrefl _)
  · rw [Function.update_of_ne hk]

lemma find_spec_of_rank [Fintype ι] {rk : ι → ℕ} (hrk : ∀ i, p i ≠ i → rk i < rk (p i)) {n : ℕ}
    (hn : (Finset.univ.filter fun j => rk i < rk j).card < n) :
    ∃ q r, find n p i = some (q, r) ∧ Keeps p q ∧ Root p i r := by
  induction n generalizing p i with
  | zero => omega
  | succ n ih =>
    by_cases h : p i = i
    · exact ⟨p, i, if_pos h, Keeps.refl ⟨rk, hrk⟩, h, .refl i⟩
    · have hlt : (Finset.univ.filter fun j => rk (p (p i)) < rk j).card <
          (Finset.univ.filter fun j => rk i < rk j).card := by
        have h2 := rise_twice hrk h
        refine Finset.card_lt_card (Finset.ssubset_iff_of_subset ?_ |>.mpr ⟨p (p i), ?_, ?_⟩)
        · intro j hj
          simp only [Finset.mem_filter, Finset.mem_univ, true_and] at hj ⊢
          exact h2.trans hj
        · simpa using h2
        · simp
      have hk := keeps_halve hrk h
      obtain ⟨q, r, hf, hq, hr⟩ := ih (rise_halve hrk h) (i := p (p i)) (by omega)
      refine ⟨q, r, (if_neg h).trans hf, hk.trans hq, ?_⟩
      obtain ⟨hr1, hr2⟩ := hk.root_iff.mp hr
      exact ⟨hr1, (Same.parent p i).trans _ _ _ ((Same.parent p (p i)).trans _ _ _ hr2)⟩

/-- **The walk ends at the root of its class**, and leaves the classes and the roots alone. -/
theorem find_spec [Fintype ι] (hp : Forest p) {n : ℕ} (hn : Fintype.card ι < n) (i : ι) :
    ∃ q r, find n p i = some (q, r) ∧ Keeps p q ∧ Root p i r := by
  obtain ⟨rk, hrk⟩ := hp
  exact find_spec_of_rank hrk ((Finset.card_le_univ _).trans_lt hn)

/-! ### Joining two classes -/

/-- The root of `i` is hung under that of `j`. -/
def union (n : ℕ) (p : ι → ι) (i j : ι) : Option (ι → ι) :=
  (find n p i).bind fun (p, a) =>
    (find n p j).map fun (p, b) => if a = b then p else Function.update p a b

lemma forest_hang (hp : Forest p) (hi : p i = i) (hj : p j = j) (hij : i ≠ j) :
    Forest (Function.update p i j) := by
  obtain ⟨rk, hrk⟩ := hp
  refine ⟨Function.update rk j (rk i + rk j + 1), fun k hk => ?_⟩
  have hjk : ∀ k, rk k ≤ rk j → k ≠ j → Function.update rk j (rk i + rk j + 1) k <
      Function.update rk j (rk i + rk j + 1) j := by
    intro k h1 h2
    rw [Function.update_of_ne h2, Function.update_self]
    omega
  by_cases hki : k = i
  · subst hki
    rw [Function.update_self, Function.update_of_ne hij, Function.update_self]
    omega
  · rw [Function.update_of_ne hki] at hk ⊢
    have hkj : k ≠ j := by
      rintro rfl
      exact hk hj
    by_cases hpk : p k = j
    · rw [hpk]
      exact hjk k (hpk ▸ (hrk k hk).le) hkj
    · rw [Function.update_of_ne hkj, Function.update_of_ne hpk]
      exact hrk k hk

lemma same_hang (hi : p i = i) :
    Same (Function.update p i j) = EqvGen fun a b => Same p a b ∨ (a = i ∧ b = j) := by
  have hq : Function.update p i j i = j := Function.update_self i _ p
  have hne : ∀ k, k ≠ i → Function.update p i j k = p k := fun k hk => Function.update_of_ne hk _ _
  generalize Function.update p i j = q at hq hne
  funext a b
  refine propext ⟨Same.le (EqvGen.is_equivalence _) fun k => ?_, fun h => ?_⟩
  · by_cases hk : k = i
    · rw [hk, hq]
      exact .rel _ _ (.inr ⟨rfl, rfl⟩)
    · rw [hne k hk]
      exact .rel _ _ (.inl (Same.parent p k))
  · refine eqvGen_le (same_equivalence q) (fun a b hab => ?_) h
    rcases hab with hab | ⟨rfl, rfl⟩
    · refine Same.le (same_equivalence q) (fun k => ?_) hab
      by_cases hk : k = i
      · rw [hk, hi]
        exact .refl i
      · rw [← hne k hk]
        exact Same.parent q k
    · exact hq ▸ Same.parent q a

variable [Fintype ι]

/-- **Two classes become one**, and the others stay. -/
theorem union_spec (hp : Forest p) {n : ℕ} (hn : Fintype.card ι < n) (i j : ι) :
    ∃ q, union n p i j = some q ∧ Forest q ∧
      Same q = EqvGen fun a b => Same p a b ∨ (a = i ∧ b = j) := by
  obtain ⟨p1, a, h1, hk1, ha⟩ := find_spec hp hn i
  obtain ⟨p2, b, h2, hk2, hb⟩ := find_spec hk1.forest hn j
  have hk := hk1.trans hk2
  have ha2 : Root p2 i a := hk.root_iff.mpr ha
  have hb2 : Root p2 j b := hk2.root_iff.mpr hb
  rw [← eqvGen_roots (same_equivalence p) ha.2 (hk1.root_iff.mp hb).2, ← hk.same]
  have hu : union n p i j = some (if a = b then p2 else Function.update p2 a b) := by
    simp [union, h1, h2]
  refine ⟨_, hu, ?_⟩
  by_cases hab : a = b
  · rw [if_pos hab]
    refine ⟨hk2.forest, ?_⟩
    funext x y
    refine propext ⟨fun h => .rel _ _ (.inl h), fun h => ?_⟩
    refine eqvGen_le (same_equivalence p2) (fun x y hxy => ?_) h
    rcases hxy with hxy | ⟨rfl, rfl⟩
    · exact hxy
    · exact hab ▸ .refl _
  · rw [if_neg hab]
    exact ⟨forest_hang hk2.forest ha2.1 hb2.1 hab, same_hang ha2.1⟩

/-- The classes after a list of joins. -/
theorem unions_spec {n : ℕ} (hn : Fintype.card ι < n) (l : List (ι × ι)) {R : ι → ι → Prop}
    (hp : Forest p) (hR : Same p = EqvGen R) :
    ∃ q, l.foldlM (fun p e => union n p e.1 e.2) p = some q ∧ Forest q ∧
      Same q = EqvGen fun a b => R a b ∨ (a, b) ∈ l := by
  induction l generalizing p R with
  | nil => exact ⟨p, rfl, hp, by simpa using hR⟩
  | cons e l ih =>
    obtain ⟨q, h1, hq, hs⟩ := union_spec hp hn e.1 e.2
    have hs' : Same q = EqvGen fun a b => R a b ∨ (a, b) = e := by
      rw [hs, hR]
      funext x y
      refine propext ⟨fun h => ?_, fun h => ?_⟩
      · refine eqvGen_le (EqvGen.is_equivalence _) (fun x y hxy => ?_) h
        rcases hxy with hxy | ⟨rfl, rfl⟩
        · exact EqvGen.mono (fun a b => Or.inl) x y hxy
        · exact .rel _ _ (.inr rfl)
      · refine EqvGen.mono (fun x y hxy => ?_) x y h
        rcases hxy with hxy | rfl
        · exact .inl (.rel _ _ hxy)
        · exact .inr ⟨rfl, rfl⟩
    obtain ⟨q', h2, hq', hs2⟩ := ih hq hs'
    refine ⟨q', ?_, hq', ?_⟩
    · rw [List.foldlM_cons, h1]
      exact h2
    · rw [hs2]
      simp only [List.mem_cons, or_assoc]

/-- The classes after a list of joins of single cells. -/
theorem unions_id {n : ℕ} (hn : Fintype.card ι < n) (l : List (ι × ι)) :
    ∃ q, l.foldlM (fun p e => union n p e.1 e.2) id = some q ∧ Forest q ∧
      Same q = EqvGen fun a b => (a, b) ∈ l := by
  have hid : Same (id : ι → ι) = EqvGen fun _ _ => False := by
    funext a b
    refine propext ⟨fun h => same_id.mp h ▸ .refl a, fun h => ?_⟩
    exact eqvGen_le (same_equivalence id) (fun _ _ h => h.elim) h
  simpa using unions_spec hn l forest_id hid

end Coherent.Lib.UnionFind
