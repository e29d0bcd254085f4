import Mathlib.Tactic
import Mathlib.Algebra.BigOperators.Group.Finset.Basic
import Mathlib.Algebra.Order.BigOperators.Group.Finset
import Mathlib.Data.Multiset.AddSub

/-!
Trees threaded through a store.

A node of the store has `K` entries that name other nodes, and zero names none. All leaves
of a tree are at one depth `n`. The nodes of a tree are a multiset, so that a tree whose
multiset has no duplicates is really a tree. A path is the list of the entries that lead to
a leaf.
-/

namespace Coherent.Lib.Radix

variable {B : Type*} [DecidableEq B] [Zero B] {K n : ℕ} {ent ent' : B → ℕ → B} {b c : B}

/-- The nodes of the tree of depth `n` at `b`. -/
def tree (K : ℕ) (ent : B → ℕ → B) : ℕ → B → Multiset B
  | 0, b => if b = 0 then 0 else {b}
  | n + 1, b => if b = 0 then 0 else b ::ₘ ∑ i ∈ Finset.range K, tree K ent n (ent b i)

/-- The node a path leads to, zero if it meets none. -/
def follow (ent : B → ℕ → B) : List ℕ → B → B
  | [], b => b
  | i :: p, b => if b = 0 then 0 else follow ent p (ent b i)

@[simp] lemma tree_zero : tree K ent n 0 = 0 := by cases n <;> simp [tree]

lemma tree_leaf (hb : b ≠ 0) : tree K ent 0 b = {b} := by rw [tree, if_neg hb]

lemma tree_succ (hb : b ≠ 0) :
    tree K ent (n + 1) b = b ::ₘ ∑ i ∈ Finset.range K, tree K ent n (ent b i) := by
  rw [tree, if_neg hb]

lemma self_mem (hb : b ≠ 0) : b ∈ tree K ent n b := by
  cases n with
  | zero => simp [tree_leaf hb]
  | succ n => simp [tree_succ hb]

lemma child_le (hb : b ≠ 0) {i : ℕ} (hi : i < K) :
    tree K ent n (ent b i) ≤ tree K ent (n + 1) b := by
  rw [tree_succ hb]
  refine le_trans ?_ (Multiset.le_cons_self _ b)
  exact Finset.single_le_sum (f := fun i => tree K ent n (ent b i)) (fun _ _ => Multiset.zero_le _)
    (Finset.mem_range.mpr hi)

/-- A tree depends on its own nodes only. -/
lemma tree_congr (h : ∀ c ∈ tree K ent n b, ent' c = ent c) : tree K ent' n b = tree K ent n b := by
  induction n generalizing b with
  | zero => rfl
  | succ n ih =>
    by_cases hb : b = 0
    · rw [hb, tree_zero, tree_zero]
    · rw [tree_succ hb, tree_succ hb, h b (self_mem hb)]
      congr 1
      refine Finset.sum_congr rfl fun i hi => ih fun c hc => h c ?_
      exact Multiset.mem_of_le (child_le hb (Finset.mem_range.mp hi)) hc

lemma follow_zero (p : List ℕ) : follow ent p 0 = 0 := by cases p <;> simp [follow]

lemma follow_cons (hb : b ≠ 0) (i : ℕ) (p : List ℕ) :
    follow ent (i :: p) b = follow ent p (ent b i) := by rw [follow, if_neg hb]

lemma follow_mem {p : List ℕ} (hp : ∀ i ∈ p, i < K) (h : follow ent p b ≠ 0) :
    follow ent p b ∈ tree K ent p.length b := by
  induction p generalizing b with
  | nil => exact self_mem h
  | cons i p ih =>
    have hb : b ≠ 0 := by rintro rfl; exact h (follow_zero _)
    rw [follow_cons hb] at h ⊢
    refine Multiset.mem_of_le (child_le hb (hp i (by simp))) (ih (fun j hj => hp j (by simp [hj])) h)

/-- A path depends on the nodes of the tree only. -/
lemma follow_congr {p : List ℕ} (hp : ∀ i ∈ p, i < K)
    (h : ∀ c ∈ tree K ent p.length b, ent' c = ent c) : follow ent' p b = follow ent p b := by
  induction p generalizing b with
  | nil => rfl
  | cons i p ih =>
    by_cases hb : b = 0
    · rw [hb, follow_zero, follow_zero]
    · rw [follow_cons hb, follow_cons hb, h b (self_mem hb)]
      refine ih (fun j hj => hp j (by simp [hj])) fun c hc => h c ?_
      exact Multiset.mem_of_le (child_le hb (hp i (by simp))) hc

/-! ### Trees without duplicates -/

/-- The children of a node are disjoint from each other and from the node. -/
lemma nodup_children (hb : b ≠ 0) (h : (tree K ent (n + 1) b).Nodup) :
    (∀ i < K, b ∉ tree K ent n (ent b i) ∧ (tree K ent n (ent b i)).Nodup) ∧
      ∀ i < K, ∀ j < K, i ≠ j → ∀ c ∈ tree K ent n (ent b i), c ∉ tree K ent n (ent b j) := by
  have hle : ∀ i < K, tree K ent n (ent b i) ≤ tree K ent (n + 1) b := fun i hi => child_le hb hi
  rw [tree_succ hb] at h
  obtain ⟨hbn, hs⟩ := Multiset.nodup_cons.mp h
  refine ⟨fun i hi => ⟨fun hm => hbn ?_, ?_⟩, fun i hi j hj hij c hc hc' => ?_⟩
  · exact Multiset.mem_sum.mpr ⟨i, Finset.mem_range.mpr hi, hm⟩
  · refine Multiset.nodup_of_le (hle i hi) ?_
    rw [tree_succ hb]; exact h
  · have h2 : tree K ent n (ent b i) + tree K ent n (ent b j) ≤
        ∑ k ∈ Finset.range K, tree K ent n (ent b k) := by
      rw [← Finset.sum_pair (f := fun k => tree K ent n (ent b k)) hij]
      refine Finset.sum_le_sum_of_subset ?_
      intro k hk
      rcases Finset.mem_insert.mp hk with rfl | hk
      · exact Finset.mem_range.mpr hi
      · rw [Finset.mem_singleton.mp hk]; exact Finset.mem_range.mpr hj
    have hnd := Multiset.nodup_of_le h2 hs
    exact (Multiset.disjoint_left.mp (Multiset.nodup_add.mp hnd).2.2) hc hc'

/-- Two paths to one leaf are the same path. -/
lemma follow_inj {p q : List ℕ} (h : (tree K ent p.length b).Nodup) (hpq : p.length = q.length)
    (hp : ∀ i ∈ p, i < K) (hq : ∀ i ∈ q, i < K) (h0 : follow ent p b ≠ 0)
    (he : follow ent p b = follow ent q b) : p = q := by
  induction p generalizing b q with
  | nil => rw [List.length_nil] at hpq; exact (List.length_eq_zero_iff.mp hpq.symm).symm
  | cons i p ih =>
    cases q with
    | nil => simp at hpq
    | cons j q =>
      have hb : b ≠ 0 := by rintro rfl; exact h0 (follow_zero _)
      rw [follow_cons hb] at h0 he
      rw [follow_cons hb] at he
      rw [List.length_cons] at h
      obtain ⟨h1, h2⟩ := nodup_children hb h
      have hlen : p.length = q.length := by simpa using hpq
      have hmi := follow_mem (fun k hk => hp k (by simp [hk])) h0
      by_cases hij : i = j
      · subst hij
        rw [ih (h1 i (hp i (by simp))).2 hlen (fun k hk => hp k (by simp [hk]))
          (fun k hk => hq k (by simp [hk])) h0 he]
      · have hmj : follow ent q (ent b j) ∈ tree K ent q.length (ent b j) :=
          follow_mem (fun k hk => hq k (by simp [hk])) (by rw [← he]; exact h0)
        rw [← he, ← hlen] at hmj
        exact absurd hmj (h2 i (hp i (by simp)) j (hq j (by simp)) hij _ hmi)

/-- A node changes in one entry, and nothing else changes but below that entry. -/
lemma tree_step {l : ℕ} {N : Multiset B} (hb : b ≠ 0) (hl : l < K)
    (hent : ∀ i < K, i ≠ l → ent' b i = ent b i)
    (hsub : ∀ i < K, i ≠ l → ∀ c ∈ tree K ent n (ent b i), ent' c = ent c)
    (hN : tree K ent' n (ent' b l) = tree K ent n (ent b l) + N) :
    tree K ent' (n + 1) b = tree K ent (n + 1) b + N := by
  have hm : l ∈ Finset.range K := Finset.mem_range.mpr hl
  rw [tree_succ hb, tree_succ hb, Multiset.cons_add]
  congr 1
  have hrest : ∑ i ∈ (Finset.range K).erase l, tree K ent' n (ent' b i) =
      ∑ i ∈ (Finset.range K).erase l, tree K ent n (ent b i) := by
    refine Finset.sum_congr rfl fun i hi => ?_
    obtain ⟨hne, hi⟩ := Finset.mem_erase.mp hi
    rw [hent i (Finset.mem_range.mp hi) hne]
    exact tree_congr (hsub i (Finset.mem_range.mp hi) hne)
  rw [← Finset.add_sum_erase _ (fun i => tree K ent' n (ent' b i)) hm,
    ← Finset.add_sum_erase _ (fun i => tree K ent n (ent b i)) hm, hN, hrest, add_right_comm]

/-- What is written to a leaf matters neither to the tree nor to any path. -/
lemma write_leaf {p : List ℕ} (h : (tree K ent p.length b).Nodup) (hp : ∀ i ∈ p, i < K)
    (h0 : follow ent p b ≠ 0) (hent : ∀ c, c ≠ follow ent p b → ent' c = ent c) :
    tree K ent' p.length b = tree K ent p.length b ∧
      ∀ q : List ℕ, q.length = p.length → (∀ i ∈ q, i < K) → follow ent' q b = follow ent q b := by
  induction p generalizing b with
  | nil =>
    refine ⟨rfl, fun q hq _ => ?_⟩
    rw [List.length_eq_zero_iff.mp hq]; rfl
  | cons i p ih =>
    have hb : b ≠ 0 := by rintro rfl; exact h0 (follow_zero _)
    rw [follow_cons hb] at h0 hent
    rw [List.length_cons] at h ⊢
    obtain ⟨h1, h2⟩ := nodup_children hb h
    have hi : i < K := hp i (by simp)
    have hp' : ∀ j ∈ p, j < K := fun j hj => hp j (by simp [hj])
    have hmem := follow_mem hp' h0
    have hbent : ent' b = ent b := hent b fun e => (h1 i hi).1 (by rwa [← e] at hmem)
    obtain ⟨ht, hf⟩ := ih (h1 i hi).2 hp' h0 hent
    have hsub : ∀ j < K, j ≠ i → ∀ c ∈ tree K ent p.length (ent b j), ent' c = ent c := by
      intro j hj hji c hc
      exact hent c fun e => h2 j hj i hi hji c hc (e ▸ hmem)
    refine ⟨?_, ?_⟩
    · have := tree_step (N := 0) hb hi (fun j _ _ => by rw [hbent]) hsub
        (by rw [hbent, ht, add_zero])
      rw [this, add_zero]
    · intro q hq hqK
      cases q with
      | nil => simp at hq
      | cons j q =>
        have hlen : q.length = p.length := by simpa using hq
        have hj : j < K := hqK j (by simp)
        have hq' : ∀ k ∈ q, k < K := fun k hk => hqK k (by simp [hk])
        rw [follow_cons hb, follow_cons hb, hbent]
        by_cases hji : j = i
        · subst hji
          exact hf q hlen hq'
        · exact follow_congr hq' (by rw [hlen]; exact hsub j hj hji)

/-! ### The leaves before some leaf -/

/-- The part of the tree at `b` in which the leaves before leaf `k` are: with an entry, what the
leaves below it come after. -/
def front (K : ℕ) (ent : B → ℕ → B) : ℕ → B → ℕ → Multiset B
  | 0, b, k => if b = 0 ∨ k = 0 then 0 else {b}
  | n + 1, b, k =>
    if b = 0 ∨ k = 0 then 0
    else b ::ₘ ∑ i ∈ Finset.range K, front K ent n (ent b i) (k - i * K ^ n)

@[simp] lemma front_zero (k : ℕ) : front K ent n 0 k = 0 := by cases n <;> simp [front]

@[simp] lemma front_none : front K ent n b 0 = 0 := by cases n <;> simp [front]

lemma front_succ {k : ℕ} (hb : b ≠ 0) (hk : k ≠ 0) : front K ent (n + 1) b k =
    b ::ₘ ∑ i ∈ Finset.range K, front K ent n (ent b i) (k - i * K ^ n) := by
  rw [front, if_neg (by simp [hb, hk])]

end Coherent.Lib.Radix
