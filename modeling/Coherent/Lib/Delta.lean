import Mathlib.Tactic

/-!
Delta lists: queues that store priorities as differences.

Every element carries a value of a commutative group, and so does the list's own header,
which stands behind the last element. The priority of an element is the sum of the values
behind it. Inserting an element and removing one each need a single other value changed,
that of whatever stands right behind the place.
-/

namespace Coherent.Lib.Delta

variable {α V : Type*} [AddCommGroup V] {c c' : α → V} {v : V} {a b l : List α}

/-- The sum of the header and of a list of elements. -/
def total (c : α → V) (v : V) (l : List α) : V := v + (l.map c).sum

/-- The elements with their priorities. -/
def prios (c : α → V) (v : V) : List α → List (α × V)
  | [] => []
  | p :: l => (p, total c v l) :: prios c v l

@[simp] lemma total_nil : total c v [] = v := by simp [total]

@[simp] lemma total_cons (p : α) : total c v (p :: l) = c p + total c v l := by
  simp [total, add_left_comm]

lemma total_append : total c v (a ++ b) = total c (total c v b) a := by
  simp only [total, List.map_append, List.sum_append]
  abel

lemma total_congr (h : ∀ p ∈ l, c' p = c p) : total c' v l = total c v l := by
  rw [total, total, List.map_congr_left h]

lemma prios_append : prios c v (a ++ b) = prios c (total c v b) a ++ prios c v b := by
  induction a with
  | nil => rfl
  | cons p a ih => rw [List.cons_append, prios, ih, total_append]; rfl

lemma prios_congr (h : ∀ p ∈ l, c' p = c p) : prios c' v l = prios c v l := by
  induction l with
  | nil => rfl
  | cons p l ih =>
    rw [prios, prios, ih fun q hq => h q (by simp [hq]), total_congr fun q hq => h q (by simp [hq])]

/-- Adding to the header raises every priority. -/
lemma prios_add (d : V) : prios c (v + d) l = (prios c v l).map fun e => (e.1, e.2 + d) := by
  induction l with
  | nil => rfl
  | cons p l ih =>
    rw [prios, prios, List.map_cons, ih]
    congr 2
    simp only [total]
    abel

/-! ### Changing the value at a place -/

variable [DecidableEq α]

/-- The values after `d` has been added to what stands first in `b`, the header if nothing does. -/
def bump (c : α → V) (v : V) (b : List α) (d : V) : (α → V) × V :=
  match b with
  | [] => (c, v + d)
  | p :: _ => (Function.update c p (c p + d), v)

lemma bump_of_notMem {d : V} {p : α} (h : p ∉ b) : (bump c v b d).1 p = c p := by
  cases b with
  | nil => rfl
  | cons q b => exact Function.update_of_ne (fun e => h (by simp [e])) _ _

lemma total_bump (hb : b.Nodup) (d : V) :
    total (bump c v b d).1 (bump c v b d).2 b = total c v b + d := by
  cases b with
  | nil => simp [bump]
  | cons q b =>
    have hq : ∀ p ∈ b, Function.update c q (c q + d) p = c p := fun p hp =>
      Function.update_of_ne (by rintro rfl; exact (List.nodup_cons.mp hb).1 hp) _ _
    simp only [bump, total_cons, Function.update_self, total_congr hq]
    abel

/-- A change at the first place of `b` is behind no element of `b`. -/
lemma prios_bump (hb : b.Nodup) (d : V) :
    prios (bump c v b d).1 (bump c v b d).2 b = prios c v b := by
  cases b with
  | nil => rfl
  | cons q b =>
    have hq : ∀ p ∈ b, Function.update c q (c q + d) p = c p := fun p hp =>
      Function.update_of_ne (by rintro rfl; exact (List.nodup_cons.mp hb).1 hp) _ _
    simp only [bump, prios, total_congr hq, prios_congr hq]

/-- A new value for one element moves the total by the difference. -/
lemma total_update {p : α} (hl : l.Nodup) (hp : p ∈ l) (w : V) :
    total (Function.update c p w) v l = total c v l + (w - c p) := by
  induction l with
  | nil => simp at hp
  | cons q l ih =>
    obtain ⟨hq, hl'⟩ := List.nodup_cons.mp hl
    by_cases he : p = q
    · subst he
      have hc : ∀ r ∈ l, Function.update c p w r = c r := fun r hr =>
        Function.update_of_ne (by rintro rfl; exact hq hr) _ _
      rw [total_cons, total_cons, total_congr hc, Function.update_self]
      abel
    · rw [total_cons, total_cons, ih hl' ((List.mem_cons.mp hp).resolve_left he),
        Function.update_of_ne (Ne.symm he)]
      abel

/-- The values after `p` has been put in front of `b` with priority `w`. -/
def insert (c : α → V) (v : V) (b : List α) (p : α) (w : V) : (α → V) × V :=
  bump (Function.update c p (total c v b - w)) v b (w - total c v b)

/-- **Inserting** gives the element its priority and changes no other, nor the total. -/
theorem insert_spec {p : α} {w : V} (hnd : (a ++ b).Nodup) (hp : p ∉ a ++ b) :
    prios (insert c v b p w).1 (insert c v b p w).2 (a ++ p :: b) =
        prios c (total c v b) a ++ (p, w) :: prios c v b ∧
      total (insert c v b p w).1 (insert c v b p w).2 (a ++ p :: b) = total c v (a ++ b) := by
  have hpa : p ∉ a := fun h => hp (by simp [h])
  have hpb : p ∉ b := fun h => hp (by simp [h])
  obtain ⟨-, hb, hdj⟩ := List.nodup_append.mp hnd
  set c₁ := Function.update c p (total c v b - w) with hc₁
  have e1 : ∀ q ∈ b, c₁ q = c q := fun q hq => Function.update_of_ne (by rintro rfl; exact hpb hq) _ _
  have e2 : ∀ q ∈ a, (bump c₁ v b (w - total c v b)).1 q = c q := by
    intro q hq
    rw [bump_of_notMem fun hqb => hdj q hq q hqb rfl]
    exact Function.update_of_ne (by rintro rfl; exact hpa hq) _ _
  have ht : total (bump c₁ v b (w - total c v b)).1 (bump c₁ v b (w - total c v b)).2 b = w := by
    rw [total_bump hb, total_congr e1]; abel
  have hpv : (bump c₁ v b (w - total c v b)).1 p = total c v b - w := by
    rw [bump_of_notMem hpb, hc₁, Function.update_self]
  have htp : total (bump c₁ v b (w - total c v b)).1 (bump c₁ v b (w - total c v b)).2 (p :: b) =
      total c v b := by
    rw [total_cons, ht, hpv]; abel
  refine ⟨?_, ?_⟩
  · rw [insert, prios_append, htp, prios_congr e2, prios, ht, prios_bump hb, prios_congr e1]
  · rw [insert, total_append, htp, total_congr e2, ← total_append]

/-- **Removing** an element by adding its value to what is behind it changes no priority of
another element, nor the total. -/
theorem remove_spec {p : α} (hnd : (a ++ p :: b).Nodup) :
    prios (bump c v b (c p)).1 (bump c v b (c p)).2 (a ++ b) =
        prios c (total c v (p :: b)) a ++ prios c v b ∧
      total (bump c v b (c p)).1 (bump c v b (c p)).2 (a ++ b) = total c v (a ++ p :: b) := by
  obtain ⟨-, hpb, hdj⟩ := List.nodup_append.mp hnd
  obtain ⟨hp, hb⟩ := List.nodup_cons.mp hpb
  have e2 : ∀ q ∈ a, (bump c v b (c p)).1 q = c q := fun q hq =>
    bump_of_notMem fun hqb => hdj q hq q (by simp [hqb]) rfl
  have ht : total (bump c v b (c p)).1 (bump c v b (c p)).2 b = total c v (p :: b) := by
    rw [total_bump hb, total_cons, add_comm]
  refine ⟨?_, ?_⟩
  · rw [prios_append, ht, prios_congr e2, prios_bump hb]
  · rw [total_append, ht, total_congr e2, ← total_append]

end Coherent.Lib.Delta
