import Mathlib.Data.List.Forall2
import Mathlib.Tactic

/-!
Patterns with wildcards: items that stand for one character, for any string, and for the two ends.

A pattern matches a whole string, or spans a part of one. The kinds of items that stand for one
character are left open, with the relation of a kind to its characters.
-/

namespace Coherent.Lib.Wildcard

/-- The items of a pattern. -/
inductive Item (κ : Type*)
  | caret
  | dollar
  | star
  | one (k : κ)
  deriving DecidableEq

variable {κ α : Type*} {f g : κ → α → Prop} {l m : List (Item κ)} {s t x y : List α} {p q : Prop}
  {k : κ} {ks : List κ}

/-- The kinds of the items that stand for one character. -/
def ones (l : List (Item κ)) : List κ := l.filterMap fun
  | .one k => some k
  | _ => none

/-- The pattern matches the string as a whole; there are no ends to ask for inside. -/
def Whole (f : κ → α → Prop) : List (Item κ) → List α → Prop
  | [], s => s = []
  | .star :: l, s => ∃ x y, s = x ++ y ∧ Whole f l y
  | .one k :: l, s => ∃ c y, s = c :: y ∧ f k c ∧ Whole f l y
  | _ :: _, _ => False

/-- The pattern matches a part of the string, from the front of `s` on, where `p` says that this is
the front of the whole. -/
def Spans (f : κ → α → Prop) : List (Item κ) → Prop → List α → Prop
  | [], _, _ => True
  | .caret :: l, p, s => p ∧ Spans f l p s
  | .dollar :: l, p, s => s = [] ∧ Spans f l p s
  | .star :: l, p, s => ∃ x y, s = x ++ y ∧ Spans f l (p ∧ x = []) y
  | .one k :: l, _, s => ∃ c y, s = c :: y ∧ f k c ∧ Spans f l False y

/-- Some part of the string matches. -/
def Finds (f : κ → α → Prop) (l : List (Item κ)) (s : List α) : Prop :=
  ∃ x y, s = x ++ y ∧ Spans f l (x = []) y

/-- Items that are not ends. -/
def Plain (l : List (Item κ)) : Prop := ∀ i ∈ l, i ≠ .caret ∧ i ≠ .dollar

@[simp] lemma ones_nil : ones ([] : List (Item κ)) = [] := rfl

@[simp] lemma ones_caret : ones (.caret :: l) = ones l := rfl

@[simp] lemma ones_dollar : ones (.dollar :: l) = ones l := rfl

@[simp] lemma ones_star : ones (.star :: l) = ones l := rfl

@[simp] lemma ones_one : ones (.one k :: l) = k :: ones l := rfl

@[simp] lemma ones_append : ones (l ++ m) = ones l ++ ones m := List.filterMap_append

@[simp] lemma mem_ones : k ∈ ones l ↔ .one k ∈ l := by
  induction l with
  | nil => simp
  | cons i l ih => cases i <;> simp [ih]

@[simp] lemma ones_map_one : ones (ks.map .one) = ks := by
  induction ks with
  | nil => rfl
  | cons k ks ih => simp [ih]

@[simp] lemma ones_replicate_caret (n : ℕ) : ones (List.replicate n (.caret : Item κ)) = [] := by
  induction n with
  | zero => rfl
  | succ n ih => rw [List.replicate_succ, ones_caret, ih]

lemma Plain.tail {i : Item κ} (h : Plain (i :: l)) : Plain l := fun j hj =>
  h j (List.mem_cons_of_mem _ hj)

/-! ### Whole strings -/

lemma Whole.imp (h : ∀ k ∈ ones l, ∀ c, f k c → g k c) (hw : Whole f l s) : Whole g l s := by
  induction l generalizing s with
  | nil => exact hw
  | cons i l ih =>
    cases i with
    | caret => exact hw
    | dollar => exact hw
    | star =>
      obtain ⟨x, y, rfl, hy⟩ := hw
      exact ⟨x, y, rfl, ih h hy⟩
    | one k =>
      obtain ⟨c, y, rfl, hc, hy⟩ := hw
      exact ⟨c, y, rfl, h k (by simp) c hc, ih (fun k' hk' => h k' (by simp_all)) hy⟩

lemma Whole.length (h : Whole f l s) : (ones l).length ≤ s.length := by
  induction l generalizing s with
  | nil => simp
  | cons i l ih =>
    cases i with
    | caret => exact h.elim
    | dollar => exact h.elim
    | star =>
      obtain ⟨x, y, rfl, hy⟩ := h
      have := ih hy
      rw [ones_star, List.length_append]
      omega
    | one k =>
      obtain ⟨c, y, rfl, hc, hy⟩ := h
      simpa using ih hy

/-- A string that is as short as it can be is matched item by item. -/
lemma Whole.aligned (h : Whole f l s) (hs : s.length = (ones l).length) :
    List.Forall₂ f (ones l) s := by
  induction l generalizing s with
  | nil =>
    obtain rfl : s = [] := h
    exact .nil
  | cons i l ih =>
    cases i with
    | caret => exact h.elim
    | dollar => exact h.elim
    | star =>
      obtain ⟨x, y, rfl, hy⟩ := h
      have hlen := hy.length
      rw [ones_star, List.length_append] at hs
      obtain rfl : x = [] := List.eq_nil_of_length_eq_zero (by omega)
      exact ih hy (by simpa using hs)
    | one k =>
      obtain ⟨c, y, rfl, hc, hy⟩ := h
      exact .cons hc (ih hy (by simpa using hs))

lemma Plain.whole (hl : Plain l) (h : List.Forall₂ f (ones l) s) : Whole f l s := by
  induction l generalizing s with
  | nil => exact List.forall₂_nil_left_iff.mp h
  | cons i l ih =>
    cases i with
    | caret => exact absurd rfl (hl _ List.mem_cons_self).1
    | dollar => exact absurd rfl (hl _ List.mem_cons_self).2
    | star => exact ⟨[], s, rfl, ih hl.tail h⟩
    | one k =>
      obtain ⟨c, y, hc, hy, rfl⟩ := List.forall₂_cons_left_iff.mp h
      exact ⟨c, y, rfl, hc, ih hl.tail hy⟩

lemma Whole.mem (h : Whole f l s) (hk : k ∈ ones l) : ∃ c ∈ s, f k c := by
  induction l generalizing s with
  | nil => simp at hk
  | cons i l ih =>
    cases i with
    | caret => exact h.elim
    | dollar => exact h.elim
    | star =>
      obtain ⟨x, y, rfl, hy⟩ := h
      obtain ⟨c, hc, hf⟩ := ih hy hk
      exact ⟨c, List.mem_append_right x hc, hf⟩
    | one k' =>
      obtain ⟨c, y, rfl, hc, hy⟩ := h
      rcases List.mem_cons.mp hk with rfl | hk
      · exact ⟨c, List.mem_cons_self, hc⟩
      · obtain ⟨c', hc', hf⟩ := ih hy hk
        exact ⟨c', List.mem_cons_of_mem _ hc', hf⟩

lemma Whole.append_left (h : Whole f (l ++ m) s) : ∃ x y, s = x ++ y ∧ Whole f m y := by
  induction l generalizing s with
  | nil => exact ⟨[], s, rfl, h⟩
  | cons i l ih =>
    cases i with
    | caret => exact h.elim
    | dollar => exact h.elim
    | star =>
      obtain ⟨x, y, rfl, hy⟩ := h
      obtain ⟨u, v, rfl, hv⟩ := ih hy
      exact ⟨x ++ u, v, by simp, hv⟩
    | one k =>
      obtain ⟨c, y, rfl, hc, hy⟩ := h
      obtain ⟨u, v, rfl, hv⟩ := ih hy
      exact ⟨c :: u, v, rfl, hv⟩

lemma whole_ones : Whole f (ks.map .one) s ↔ List.Forall₂ f ks s := by
  induction ks generalizing s with
  | nil => simp [Whole]
  | cons k ks ih =>
    simp only [List.map_cons, Whole, ih, List.forall₂_cons_left_iff]
    exact exists_congr fun c => exists_congr fun y => by tauto

/-! ### Parts of a string -/

lemma Spans.imp (h : ∀ k ∈ ones l, ∀ c, f k c → g k c) (hp : p → q) (hs : Spans f l p s) :
    Spans g l q s := by
  induction l generalizing s p q with
  | nil => trivial
  | cons i l ih =>
    cases i with
    | caret => exact ⟨hp hs.1, ih h hp hs.2⟩
    | dollar => exact ⟨hs.1, ih h hp hs.2⟩
    | star =>
      obtain ⟨x, y, rfl, hy⟩ := hs
      exact ⟨x, y, rfl, ih h (And.imp_left hp) hy⟩
    | one k =>
      obtain ⟨c, y, rfl, hc, hy⟩ := hs
      exact ⟨c, y, rfl, h k (by simp) c hc, ih (fun k' hk' => h k' (by simp_all)) id hy⟩

lemma Spans.length (h : Spans f l p s) : (ones l).length ≤ s.length := by
  induction l generalizing s p with
  | nil => simp
  | cons i l ih =>
    cases i with
    | caret => exact ih h.2
    | dollar => exact ih h.2
    | star =>
      obtain ⟨x, y, rfl, hy⟩ := h
      have := ih hy
      rw [ones_star, List.length_append]
      omega
    | one k =>
      obtain ⟨c, y, rfl, hc, hy⟩ := h
      simpa using ih hy

lemma Spans.mem (h : Spans f l p s) (hk : k ∈ ones l) : ∃ c ∈ s, f k c := by
  induction l generalizing s p with
  | nil => simp at hk
  | cons i l ih =>
    cases i with
    | caret => exact ih h.2 hk
    | dollar => exact ih h.2 hk
    | star =>
      obtain ⟨x, y, rfl, hy⟩ := h
      obtain ⟨c, hc, hf⟩ := ih hy hk
      exact ⟨c, List.mem_append_right x hc, hf⟩
    | one k' =>
      obtain ⟨c, y, rfl, hc, hy⟩ := h
      rcases List.mem_cons.mp hk with rfl | hk
      · exact ⟨c, List.mem_cons_self, hc⟩
      · obtain ⟨c', hc', hf⟩ := ih hy hk
        exact ⟨c', List.mem_cons_of_mem _ hc', hf⟩

/-- What matches a part of some string matches the shortest that its characters allow. -/
lemma Spans.least (h : Spans f l p s) (ht : List.Forall₂ f (ones l) t) : Spans f l p t := by
  induction l generalizing s t p with
  | nil => trivial
  | cons i l ih =>
    cases i with
    | caret => exact ⟨h.1, ih h.2 ht⟩
    | dollar =>
      obtain ⟨rfl, h⟩ := h
      have hlen := h.length
      have hone : ones l = [] := List.eq_nil_of_length_eq_zero (by simpa using hlen)
      rw [ones_dollar, hone] at ht
      obtain rfl := List.forall₂_nil_left_iff.mp ht
      exact ⟨rfl, h⟩
    | star =>
      obtain ⟨x, y, rfl, hy⟩ := h
      exact ⟨[], t, rfl, (ih hy ht).imp (fun _ _ _ => id) fun h => ⟨h.1, rfl⟩⟩
    | one k =>
      obtain ⟨c, y, rfl, hc, hy⟩ := h
      obtain ⟨c', t', hc', ht', rfl⟩ := List.forall₂_cons_left_iff.mp ht
      exact ⟨c', t', rfl, hc', ih hy ht'⟩

/-- Without items for one character only the length matters. -/
lemma Spans.recolor (h : Spans f l p s) (hl : ones l = []) (hs : s.length = t.length) :
    Spans f l p t := by
  induction l generalizing s t p with
  | nil => trivial
  | cons i l ih =>
    cases i with
    | caret => exact ⟨h.1, ih h.2 hl hs⟩
    | dollar =>
      obtain ⟨rfl, h⟩ := h
      obtain rfl : t = [] := List.eq_nil_of_length_eq_zero (by simpa using hs.symm)
      exact ⟨rfl, h⟩
    | star =>
      obtain ⟨x, y, rfl, hy⟩ := h
      rw [List.length_append] at hs
      refine ⟨t.take x.length, t.drop x.length, (List.take_append_drop _ _).symm, ?_⟩
      refine (ih (t := t.drop x.length) hy hl (by rw [List.length_drop]; omega)).imp
        (fun _ _ _ => id) ?_
      rintro ⟨hp, rfl⟩
      exact ⟨hp, rfl⟩
    | one k => simp at hl

/-- More may follow, where the end is not asked for. -/
lemma Spans.extend (h : Spans f l p s) (hl : .dollar ∉ l) (t : List α) :
    Spans f l p (s ++ t) := by
  induction l generalizing s p with
  | nil => trivial
  | cons i l ih =>
    have hl' : .dollar ∉ l := fun hm => hl (List.mem_cons_of_mem _ hm)
    cases i with
    | caret => exact ⟨h.1, ih h.2 hl'⟩
    | dollar => exact absurd List.mem_cons_self hl
    | star =>
      obtain ⟨x, y, rfl, hy⟩ := h
      exact ⟨x, y ++ t, List.append_assoc _ _ _, ih hy hl'⟩
    | one k =>
      obtain ⟨c, y, rfl, hc, hy⟩ := h
      exact ⟨c, y ++ t, rfl, hc, ih hy hl'⟩

/-- Behind a character there is no front. -/
lemma not_spans_caret (hl : p → ones l ≠ []) : ¬ Spans f (l ++ .caret :: m) p s := by
  induction l generalizing s p with
  | nil => exact fun h => hl h.1 rfl
  | cons i l ih =>
    cases i with
    | caret => exact fun h => ih hl h.2
    | dollar => exact fun h => ih hl h.2
    | star =>
      rintro ⟨x, y, rfl, hy⟩
      exact ih (fun h => hl h.1) hy
    | one k =>
      rintro ⟨c, y, rfl, hc, hy⟩
      exact ih (fun h => h.elim) hy

lemma spans_carets (n : ℕ) : Spans f (List.replicate n .caret ++ l) p s ↔
    (n ≠ 0 → p) ∧ Spans f l p s := by
  induction n with
  | zero => simp
  | succ n ih =>
    rw [List.replicate_succ, List.cons_append, Spans, ih]
    tauto

lemma spans_ones : Spans f (ks.map .one ++ l) p s ↔
    ∃ x y, s = x ++ y ∧ List.Forall₂ f ks x ∧ Spans f l (p ∧ x = []) y := by
  induction ks generalizing s p with
  | nil =>
    constructor
    · exact fun h => ⟨[], s, rfl, .nil, h.imp (fun _ _ _ => id) fun hp => ⟨hp, rfl⟩⟩
    · rintro ⟨x, y, rfl, hx, h⟩
      obtain rfl := List.forall₂_nil_left_iff.mp hx
      exact h.imp (fun _ _ _ => id) And.left
  | cons k ks ih =>
    rw [List.map_cons, List.cons_append]
    constructor
    · rintro ⟨c, y, rfl, hc, hy⟩
      obtain ⟨u, v, rfl, hu, hv⟩ := ih.mp hy
      exact ⟨c :: u, v, rfl, .cons hc hu, hv.imp (fun _ _ _ => id) fun h => h.1.elim⟩
    · rintro ⟨x, y, rfl, hx, h⟩
      obtain ⟨c, u, hc, hu, rfl⟩ := List.forall₂_cons_left_iff.mp hx
      refine ⟨c, u ++ y, rfl, hc, ih.mpr ⟨u, y, rfl, hu, h.imp (fun _ _ _ => id) ?_⟩⟩
      rintro ⟨-, h⟩
      exact absurd h (List.cons_ne_nil _ _)

/-- A whole is a part. -/
lemma Whole.spans (h : Whole f l s) : Spans f l p s := by
  induction l generalizing s p with
  | nil => trivial
  | cons i l ih =>
    cases i with
    | caret => exact h.elim
    | dollar => exact h.elim
    | star =>
      obtain ⟨x, y, rfl, hy⟩ := h
      exact ⟨x, y, rfl, ih hy⟩
    | one k =>
      obtain ⟨c, y, rfl, hc, hy⟩ := h
      exact ⟨c, y, rfl, hc, ih hy⟩

/-- A part is a whole up to some place, and the pattern goes on from there. -/
lemma Spans.split (hl : Plain l) (h : Spans f (l ++ m) p s) :
    ∃ x y q, s = x ++ y ∧ Whole f l x ∧ Spans f m q y := by
  induction l generalizing s p with
  | nil => exact ⟨[], s, p, rfl, rfl, h⟩
  | cons i l ih =>
    cases i with
    | caret => exact absurd rfl (hl _ List.mem_cons_self).1
    | dollar => exact absurd rfl (hl _ List.mem_cons_self).2
    | star =>
      obtain ⟨x, y, rfl, hy⟩ := h
      obtain ⟨u, v, q, rfl, hu, hv⟩ := ih hl.tail hy
      exact ⟨x ++ u, v, q, by simp, ⟨x, u, rfl, hu⟩, hv⟩
    | one k =>
      obtain ⟨c, y, rfl, hc, hy⟩ := h
      obtain ⟨u, v, q, rfl, hu, hv⟩ := ih hl.tail hy
      exact ⟨c :: u, v, q, rfl, ⟨c, u, rfl, hc, hu⟩, hv⟩

lemma Whole.append (h : Whole f l x) (h' : Whole f m y) : Whole f (l ++ m) (x ++ y) := by
  induction l generalizing x with
  | nil =>
    obtain rfl : x = [] := h
    exact h'
  | cons i l ih =>
    cases i with
    | caret => exact h.elim
    | dollar => exact h.elim
    | star =>
      obtain ⟨u, v, rfl, hv⟩ := h
      exact ⟨u, v ++ y, List.append_assoc _ _ _, ih hv⟩
    | one k =>
      obtain ⟨c, v, rfl, hc, hv⟩ := h
      exact ⟨c, v ++ y, rfl, hc, ih hv⟩

end Coherent.Lib.Wildcard
