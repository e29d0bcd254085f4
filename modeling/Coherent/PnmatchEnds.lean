import Coherent.Pnmatch

/-!
When `pnmatch` finds what the patterns say.

Behind a star the unanchored mode goes on anchored, so that the rest has to reach the end of the
string and the signs of the ends are characters. It takes the front for everything in the first
attempt, does not read on behind the sign of the end, and never starts at the end of the string. In
a class the range of a last hyphen goes up to the closing bracket.
-/

namespace Coherent.Pnmatch

open Lib.Wildcard

/-- For every string, the anchored mode matches the whole and the unanchored mode finds a part. -/
def Right (p : List Char) : Prop := ∀ s : List Char,
  (pnmatch s p 0 = true ↔ Whole Hits ((parse p).map literal) s) ∧
    (s ≠ [] → (pnmatch s p 1 = true ↔ Finds Hits (parse p) s))

/-- An item that no character matches: an empty class, or a backslash at the end. -/
def Fails (l : List (Item Kind)) : Prop := ∃ k ∈ ones l, ∀ c, ¬ Hits k c

/-- No class gains a character. -/
def Faithful (l : List (Item Kind)) : Prop := ∀ k ∈ ones l, ∀ c, Takes k c → Hits k c

def isFront : Item Kind → Bool
  | .caret => true
  | .one _ => true
  | _ => false

/-- The items in front of the first star or sign of the end. -/
def front (l : List (Item Kind)) : List (Item Kind) := l.takeWhile isFront

def back (l : List (Item Kind)) : List (Item Kind) := l.dropWhile isFront

/-- The signs of the front come first. -/
def Led (l : List (Item Kind)) : Prop :=
  ∃ (n : ℕ) (ks : List Kind), l = List.replicate n .caret ++ ks.map .one

/-- Nothing but stars and signs of the end. -/
def Blank (l : List (Item Kind)) : Prop := ∀ i ∈ l, i = .dollar ∨ i = .star

/-- Behind some star every item takes every character. -/
def Loose (l : List (Item Kind)) : Prop :=
  ∃ a b, l = a ++ .star :: b ∧ ∀ k ∈ ones b, ∀ c, Takes k c

/-- The patterns that the unanchored mode reads as they are meant. -/
def Sound (l : List (Item Kind)) : Prop :=
  match back l with
  | .star :: r => Fails l ∨ (Led (front l) ∧ Plain r ∧ Loose (.star :: r))
  | .dollar :: r => Fails (front l) ∨
      if ones (front l) = [] then front l ≠ [] ∨ ¬ Blank r else Led (front l) ∧ Blank r
  | _ => Fails l ∨ Led l

variable {f g : Kind → Char → Prop} {k : Kind} {ks : List Kind} {l m r : List (Item Kind)}
  {p s t x y : List Char} {c : Char} {q : Prop}

/-! ### What the kinds stand for -/

lemma ranges_none_sub (stop : Option Char) (t : List Char) :
    ∀ r ∈ ranges none t, r ∈ ranges stop t := by
  fun_induction ranges none t with
  | case1 => simp
  | case2 c2 p x hx ih =>
    intro r hr
    rw [ranges, if_pos hx]
    simp only [List.cons_append, List.mem_cons, List.mem_append] at hr ⊢
    refine hr.imp_right (Or.imp (fun h => ?_) (ih r))
    cases hy : x.2.tail.head? with
    | none => simp [hy] at h
    | some y => simpa [hy, x] using h
  | case3 c2 p x hx ih =>
    intro r hr
    rw [ranges, if_neg hx]
    exact List.mem_cons.mpr ((List.mem_cons.mp hr).imp_right (ih r))

lemma takes_of_hits (h : Hits k c) : Takes k c := by
  cases k with
  | any => trivial
  | lit c' => exact h
  | cls t closed =>
    obtain ⟨r, hr, h⟩ := h
    exact ⟨r, ranges_none_sub _ t r hr, h⟩
  | bad => exact h

/-- A class that takes a character has one. -/
lemma exists_hits (h : Takes k c) : ∃ c, Hits k c := by
  cases k with
  | any => exact ⟨c, trivial⟩
  | lit c' => exact ⟨c', rfl⟩
  | cls t closed =>
    cases t with
    | nil =>
      obtain ⟨r, hr, -⟩ := h
      simp [ranges] at hr
    | cons c2 t =>
      refine ⟨(element c2 t).1, ((element c2 t).1, (element c2 t).1), ?_, Char.le_refl _,
        Char.le_refl _⟩
      rw [ranges]
      split <;> simp
  | bad => exact h.elim

lemma not_fails (h : ¬ Fails l) (hk : k ∈ ones l) : ∃ c, Hits k c := by
  by_contra hno
  exact h ⟨k, hk, fun c hc => hno ⟨c, hc⟩⟩

lemma fails_append : Fails (l ++ m) ↔ Fails l ∨ Fails m := by
  simp only [Fails, ones_append, List.mem_append, or_and_right, exists_or]

/-- A string of one character for each item. -/
lemma exists_shortest (h : ∀ k ∈ ks, ∃ c, f k c) : ∃ t, List.Forall₂ f ks t := by
  induction ks with
  | nil => exact ⟨[], .nil⟩
  | cons k ks ih =>
    obtain ⟨c, hc⟩ := h k List.mem_cons_self
    obtain ⟨t, ht⟩ := ih fun k' hk' => h k' (List.mem_cons_of_mem _ hk')
    exact ⟨c :: t, .cons hc ht⟩

lemma exists_both (hf : List.Forall₂ f ks t) (hg : List.Forall₂ g ks t) (hk : k ∈ ks) :
    ∃ c, f k c ∧ g k c := by
  induction hf with
  | nil => simp at hk
  | cons h _ ih =>
    obtain ⟨h1, h2⟩ := List.forall₂_cons.mp hg
    rcases List.mem_cons.mp hk with rfl | hk
    · exact ⟨_, h, h1⟩
    · exact ih h2 hk

/-! ### Anchored patterns as literals -/

lemma ones_literal : ones l ⊆ ones (l.map literal) := by
  intro k hk
  rw [mem_ones] at hk ⊢
  exact List.mem_map.mpr ⟨.one k, hk, rfl⟩

lemma plain_literal (l : List (Item Kind)) : Plain (l.map literal) := by
  intro i hi
  obtain ⟨j, -, rfl⟩ := List.mem_map.mp hi
  cases j <;> simp [literal]

lemma Plain.literal_eq (h : Plain l) : l.map literal = l := by
  induction l with
  | nil => rfl
  | cons i l ih =>
    have hi := h i List.mem_cons_self
    rw [List.map_cons, ih h.tail]
    cases i <;> simp_all [literal]

lemma mem_ones_literal (hk : k ∈ ones (l.map literal)) :
    k ∈ ones l ∨ k = .lit '^' ∨ k = .lit '$' := by
  rw [mem_ones] at hk
  obtain ⟨i, hi, h⟩ := List.mem_map.mp hk
  cases i with
  | caret => exact .inr (.inl (Item.one.inj h).symm)
  | dollar => exact .inr (.inr (Item.one.inj h).symm)
  | star => exact absurd h (by simp [literal])
  | one k' =>
    obtain rfl := Item.one.inj h
    exact .inl (mem_ones.mpr hi)

lemma ones_literal_length (l : List (Item Kind)) :
    (ones l).length ≤ (ones (l.map literal)).length := by
  induction l with
  | nil => simp
  | cons i l ih => cases i <;> simp [literal] <;> omega

/-- A sign of an end takes a character more. -/
lemma ones_literal_lt (h : ¬ Plain l) : (ones l).length < (ones (l.map literal)).length := by
  induction l with
  | nil => exact absurd (fun i hi => absurd hi (by simp)) h
  | cons i l ih =>
    have hle := ones_literal_length l
    have hp : i ≠ .caret → i ≠ .dollar → ¬ Plain l := fun h1 h2 hp => h fun j hj => by
      rcases List.mem_cons.mp hj with rfl | hj
      · exact ⟨h1, h2⟩
      · exact hp j hj
    cases i with
    | caret => simp [literal]; omega
    | dollar => simp [literal]; omega
    | star => simpa [literal] using ih (hp (by simp) (by simp))
    | one k => simpa [literal] using ih (hp (by simp) (by simp))

/-! ### The items in front -/

lemma front_append_back (l : List (Item Kind)) : front l ++ back l = l :=
  List.takeWhile_append_dropWhile

lemma mem_front {i : Item Kind} (h : i ∈ front l) : i = .caret ∨ ∃ k, i = .one k := by
  have hi : isFront i = true := List.all_eq_true.mp List.all_takeWhile i h
  cases i with
  | caret => exact .inl rfl
  | one k => exact .inr ⟨k, rfl⟩
  | dollar => exact absurd hi (by simp [isFront])
  | star => exact absurd hi (by simp [isFront])

lemma led_iff (hl : ∀ i ∈ l, i = .caret ∨ ∃ k, i = .one k) :
    Led l ∨ ∃ a b, l = a ++ .caret :: b ∧ ones a ≠ [] := by
  induction l with
  | nil => exact .inl ⟨0, [], rfl⟩
  | cons i l ih =>
    have ih := ih fun j hj => hl j (List.mem_cons_of_mem _ hj)
    rcases hl i List.mem_cons_self with rfl | ⟨k, rfl⟩
    · rcases ih with ⟨n, ks, rfl⟩ | ⟨a, b, rfl, ha⟩
      · exact .inl ⟨n + 1, ks, rfl⟩
      · exact .inr ⟨.caret :: a, b, rfl, ha⟩
    · by_cases hc : .caret ∈ l
      · obtain ⟨a, b, rfl⟩ := List.append_of_mem hc
        exact .inr ⟨.one k :: a, b, rfl, by simp⟩
      · rcases ih with ⟨n, ks, rfl⟩ | ⟨a, b, rfl, -⟩
        · cases n with
          | zero => exact .inl ⟨0, k :: ks, rfl⟩
          | succ n => exact absurd (by simp [List.replicate_succ]) hc
        · exact absurd (by simp) hc

lemma back_eq_nil (hs : ∀ r, back l ≠ .star :: r) (hd : ∀ r, back l ≠ .dollar :: r) :
    back l = [] := by
  cases hb : back l with
  | nil => rfl
  | cons i r =>
    have hi := List.head?_dropWhile_not isFront l
    have hb' : l.dropWhile isFront = i :: r := hb
    rw [hb'] at hi
    cases i with
    | star => exact absurd hb (hs r)
    | dollar => exact absurd hb (hd r)
    | caret => exact absurd hi (by simp [isFront])
    | one k => exact absurd hi (by simp [isFront])

/-- What is not led has no part that matches. -/
lemma led_of_finds {m : List (Item Kind)} (h : Finds f (front l ++ m) s) : Led (front l) := by
  refine (led_iff fun i => mem_front).resolve_right ?_
  rintro ⟨a, b, hab, ha⟩
  obtain ⟨x, y, -, hy⟩ := h
  rw [hab, List.append_assoc, List.cons_append] at hy
  exact not_spans_caret (fun _ => ha) hy

/-! ### The unanchored mode -/

lemma sweeps_carets (n : ℕ) : Sweeps f (List.replicate n .caret ++ l) q s ↔
    (n ≠ 0 → q) ∧ Sweeps f l q s := by
  induction n with
  | zero => simp
  | succ n ih =>
    rw [List.replicate_succ, List.cons_append, Sweeps, ih]
    tauto

lemma sweeps_ones : Sweeps f (ks.map .one ++ l) q s ↔
    ∃ x y, s = x ++ y ∧ List.Forall₂ f ks x ∧ Sweeps f l q y := by
  induction ks generalizing s with
  | nil =>
    constructor
    · exact fun h => ⟨[], s, rfl, .nil, h⟩
    · rintro ⟨x, y, rfl, hx, h⟩
      obtain rfl := List.forall₂_nil_left_iff.mp hx
      exact h
  | cons k ks ih =>
    rw [List.map_cons, List.cons_append]
    constructor
    · rintro ⟨c, y, rfl, hc, hy⟩
      obtain ⟨u, v, rfl, hu, hv⟩ := ih.mp hy
      exact ⟨c :: u, v, rfl, .cons hc hu, hv⟩
    · rintro ⟨x, y, rfl, hx, h⟩
      obtain ⟨c, u, hc, hu, rfl⟩ := List.forall₂_cons_left_iff.mp hx
      exact ⟨c, u ++ y, rfl, hc, ih.mpr ⟨u, y, rfl, hu, h⟩⟩

/-- In the first attempt the signs of the front are always passed. -/
lemma sweeps_first (hl : ∀ i ∈ l, i = .caret ∨ ∃ k, i = .one k) (hx : List.Forall₂ f (ones l) x)
    (h : Sweeps f m True y) : Sweeps f (l ++ m) True (x ++ y) := by
  induction l generalizing x with
  | nil =>
    obtain rfl := List.forall₂_nil_left_iff.mp hx
    exact h
  | cons i l ih =>
    have ih := fun {x} => @ih x fun j hj => hl j (List.mem_cons_of_mem _ hj)
    rcases hl i List.mem_cons_self with rfl | ⟨k, rfl⟩
    · exact ⟨trivial, ih hx⟩
    · obtain ⟨c, u, hc, hu, rfl⟩ := List.forall₂_cons_left_iff.mp hx
      exact ⟨c, u ++ y, rfl, hc, ih hu⟩

lemma sweeps_mem (hl : ∀ i ∈ l, i = .caret ∨ ∃ k, i = .one k) (h : Sweeps f (l ++ m) q s)
    (hk : k ∈ ones l) : ∃ c, f k c := by
  induction l generalizing s with
  | nil => simp at hk
  | cons i l ih =>
    have ih := fun {s} => @ih s fun j hj => hl j (List.mem_cons_of_mem _ hj)
    rcases hl i List.mem_cons_self with rfl | ⟨k', rfl⟩
    · exact ih h.2 hk
    · obtain ⟨c, y, rfl, hc, hy⟩ := h
      rcases List.mem_cons.mp hk with rfl | hk
      · exact ⟨c, hc⟩
      · exact ih hy hk

/-- The first attempt succeeds on a string that fits the front and what is behind. -/
lemma unanchored_first (hx : List.Forall₂ Takes (ones (front (parse p))) x)
    (h : Sweeps Takes (back (parse p)) True y) (hne : x ++ y ≠ []) :
    pnmatch (x ++ y) p 1 = true := by
  refine (pnmatch_unanchored _ _).mpr ⟨[], x ++ y, rfl, hne, ?_⟩
  have hs := sweeps_first (fun i => mem_front) hx h
  rw [front_append_back] at hs
  simpa using hs

/-- Behind a star the rest is a whole. -/
lemma sweeps_star (hl : ∀ i ∈ l, i = .caret ∨ ∃ k, i = .one k)
    (h : Sweeps f (l ++ .star :: r) q s) :
    ∃ x y, s = x ++ y ∧ x.length = (ones l).length ∧ Whole f (.star :: r.map literal) y := by
  induction l generalizing s with
  | nil => exact ⟨[], s, rfl, rfl, h⟩
  | cons i l ih =>
    have ih := fun {s} => @ih s fun j hj => hl j (List.mem_cons_of_mem _ hj)
    rcases hl i List.mem_cons_self with rfl | ⟨k, rfl⟩
    · exact ih h.2
    · obtain ⟨c, y, rfl, hc, hy⟩ := h
      obtain ⟨u, v, rfl, hu, hv⟩ := ih hy
      exact ⟨c :: u, v, rfl, by simpa using hu, hv⟩

/-! ### What is read as it is meant is sound -/

lemma exists_takes (h : ¬ Fails l) : ∃ t, List.Forall₂ Takes (ones l) t :=
  exists_shortest fun _ hk => (not_fails h hk).imp fun _ => takes_of_hits

lemma not_fails_literal (h : ¬ Fails l) : ¬ Fails (l.map literal) := by
  rintro ⟨k, hk, hno⟩
  rcases mem_ones_literal hk with hk | rfl | rfl
  · exact h ⟨k, hk, hno⟩
  · exact hno '^' rfl
  · exact hno '$' rfl

lemma led_of_ones (h : ones (front l) = []) : Led (front l) := by
  refine (led_iff fun i => mem_front).resolve_right ?_
  rintro ⟨a, b, hab, ha⟩
  rw [hab, ones_append] at h
  exact ha (List.append_eq_nil_iff.mp h).1

lemma blank_of_spans (h : Spans f r q []) (hq : ¬ q) : Blank r := by
  induction r generalizing q with
  | nil => exact fun i hi => absurd hi (by simp)
  | cons i r ih =>
    have hcons : (i = .dollar ∨ i = .star) → Blank r → Blank (i :: r) := fun hi hr j hj => by
      rcases List.mem_cons.mp hj with rfl | hj
      · exact hi
      · exact hr j hj
    cases i with
    | caret => exact absurd h.1 hq
    | dollar => exact hcons (.inl rfl) (ih h.2 hq)
    | star =>
      obtain ⟨x, y, hxy, hy⟩ := h
      obtain ⟨rfl, rfl⟩ := List.append_eq_nil_iff.mp hxy.symm
      exact hcons (.inr rfl) (ih hy fun h => hq h.1)
    | one k =>
      obtain ⟨c, y, hcy, -⟩ := h
      exact absurd hcy (by simp)

lemma Blank.spans (h : Blank r) : Spans f r q [] := by
  induction r generalizing q with
  | nil => trivial
  | cons i r ih =>
    have ih := fun {q} => @ih q fun j hj => h j (List.mem_cons_of_mem _ hj)
    rcases h i List.mem_cons_self with rfl | rfl
    · exact ⟨rfl, ih⟩
    · exact ⟨[], [], rfl, ih⟩

lemma Blank.ones (h : Blank r) : ones r = [] := by
  refine List.eq_nil_iff_forall_not_mem.mpr fun k hk => ?_
  rcases h _ (mem_ones.mp hk) with h | h <;> simp at h

section Right

variable (h : Right p)
include h

/-- A class that gained a character would show it on the shortest string. -/
lemma Right.faithful : Fails (parse p) ∨ Faithful (parse p) := by
  by_contra hno
  obtain ⟨hf, hno⟩ := not_or.mp hno
  refine hno fun k hk c hc => ?_
  have hex : ∀ k' ∈ ones ((parse p).map literal), ∃ c', Takes k' c' ∧ (k' = k → c' = c) := by
    intro k' hk'
    by_cases hkk : k' = k
    · exact ⟨c, hkk ▸ hc, fun _ => rfl⟩
    · obtain ⟨c', hc'⟩ := not_fails (not_fails_literal hf) hk'
      exact ⟨c', takes_of_hits hc', fun h => absurd h hkk⟩
  obtain ⟨t, ht⟩ := exists_shortest hex
  have hcode := (pnmatch_anchored t p).mpr
    ((plain_literal _).whole (ht.imp fun _ _ h => h.1))
  have hal := (((h t).1.mp hcode).aligned ht.length_eq.symm)
  obtain ⟨c', ⟨-, hcc⟩, hh⟩ := exists_both ht hal (ones_literal hk)
  exact hcc rfl ▸ hh

lemma Right.led (hf : ¬ Fails (front (parse p))) (hs : Sweeps Takes (back (parse p)) True y) :
    Led (front (parse p)) := by
  by_cases hone : ones (front (parse p)) = []
  · exact led_of_ones hone
  · obtain ⟨x, hx⟩ := exists_takes hf
    have hne : x ++ y ≠ [] := fun hxy => by
      rw [(List.append_eq_nil_iff.mp hxy).1] at hx
      exact hone (List.forall₂_nil_right_iff.mp hx)
    have hfind := ((h _).2 hne).mp (unanchored_first hx hs hne)
    rw [← front_append_back (parse p)] at hfind
    exact led_of_finds hfind

lemma Right.dollar (hb : back (parse p) = .dollar :: r) (hf : ¬ Fails (front (parse p))) :
    if ones (front (parse p)) = [] then front (parse p) ≠ [] ∨ ¬ Blank r
      else Led (front (parse p)) ∧ Blank r := by
  have hl : front (parse p) ++ .dollar :: r = parse p := hb ▸ front_append_back _
  split
  · rename_i hone
    by_contra hno
    obtain ⟨h1, h2⟩ := not_or.mp hno
    have hfront := not_not.mp h1
    have hblank := not_not.mp h2
    rw [hfront, List.nil_append] at hl
    have hfind : Finds Hits (parse p) ['a'] := ⟨['a'], [], rfl, hl ▸ ⟨rfl, hblank.spans⟩⟩
    obtain ⟨x, y, -, hy, hs⟩ := (pnmatch_unanchored _ _).mp (((h ['a']).2 (by simp)).mpr hfind)
    rw [← hl] at hs
    exact hy hs
  · rename_i hone
    have hs : Sweeps Takes (back (parse p)) True [] := hb ▸ rfl
    have hled := h.led hf hs
    refine ⟨hled, ?_⟩
    obtain ⟨x, hx⟩ := exists_takes hf
    have hne : x ≠ [] := by
      rintro rfl
      exact hone (List.forall₂_nil_right_iff.mp hx)
    have hcode := unanchored_first hx hs (by simpa using hne)
    obtain ⟨u, v, -, hv⟩ := ((h _).2 (by simpa using hne)).mp hcode
    obtain ⟨n, ks, hA⟩ := hled
    rw [← hl, hA, List.append_assoc, spans_carets, spans_ones] at hv
    obtain ⟨-, x', y', -, hx', rfl, hy'⟩ := hv
    refine blank_of_spans hy' ?_
    rintro ⟨-, rfl⟩
    have hks := List.forall₂_nil_right_iff.mp hx'
    refine hone ?_
    rw [hA, hks]
    simp

/-- What the code asks for in a string that has a part. -/
lemma Right.asks (hb : back (parse p) = .star :: r) (hs : s ≠ []) (hf : Finds Hits (parse p) s) :
    ∃ a b, s = a ++ b ∧ (ones (front (parse p))).length ≤ a.length ∧
      Whole Takes (.star :: r.map literal) b := by
  obtain ⟨a, b, rfl, -, hsw⟩ := (pnmatch_unanchored _ _).mp (((h s).2 hs).mpr hf)
  rw [← front_append_back (parse p), hb] at hsw
  obtain ⟨c, d, rfl, hc, hd⟩ := sweeps_star (fun i => mem_front) hsw
  refine ⟨a ++ c, d, (List.append_assoc _ _ _).symm, ?_, hd⟩
  rw [List.length_append, hc]
  exact Nat.le_add_left _ _

omit h in
lemma not_plain (hr : ¬ Plain r) : ∃ c, (c = '^' ∨ c = '$') ∧ .lit c ∈ ones (r.map literal) := by
  have hex : ∃ i ∈ r, i = .caret ∨ i = .dollar := by
    by_contra hno
    refine hr fun i hi => ⟨fun hc => hno ⟨i, hi, .inl hc⟩, fun hd => hno ⟨i, hi, .inr hd⟩⟩
  obtain ⟨i, hi, rfl | rfl⟩ := hex
  · exact ⟨'^', .inl rfl, mem_ones.mpr (List.mem_map.mpr ⟨_, hi, rfl⟩)⟩
  · exact ⟨'$', .inr rfl, mem_ones.mpr (List.mem_map.mpr ⟨_, hi, rfl⟩)⟩

/-- A string that the code takes behind a star. -/
lemma Right.finds (hb : back (parse p) = .star :: r) (hf : ¬ Fails (parse p)) :
    ∃ x y, List.Forall₂ Takes (ones (front (parse p))) x ∧
      List.Forall₂ Takes (ones (r.map literal)) y ∧
      (x ++ y ≠ [] → Finds Hits (parse p) (x ++ y)) := by
  rw [← front_append_back (parse p), hb, fails_append] at hf
  obtain ⟨hf1, hf2⟩ := not_or.mp hf
  obtain ⟨x, hx⟩ := exists_takes hf1
  obtain ⟨y, hy⟩ := exists_takes (not_fails_literal (l := r) hf2)
  have hs : Sweeps Takes (back (parse p)) True y :=
    hb ▸ ⟨[], y, rfl, (plain_literal r).whole hy⟩
  exact ⟨x, y, hx, hy, fun hne => ((h _).2 hne).mp (unanchored_first hx hs hne)⟩

lemma Right.star_plain (hb : back (parse p) = .star :: r) (hf : ¬ Fails (parse p)) :
    Plain r := by
  by_contra hno
  have hlt := ones_literal_lt hno
  obtain ⟨x, y, hx, hy, hfind⟩ := h.finds hb hf
  have hne : x ++ y ≠ [] := fun hxy => by
    have hlen := hy.length_eq
    rw [(List.append_eq_nil_iff.mp hxy).2, List.length_nil] at hlen
    omega
  obtain ⟨u, v, huv, hv⟩ := hfind hne
  by_cases hone : ones (parse p) = []
  · -- only the length matters: a string without the signs
    have hrep : Finds Hits (parse p)
        (List.replicate u.length 'a' ++ List.replicate v.length 'a') := by
      refine ⟨_, _, rfl, (hv.recolor hone List.length_replicate.symm).imp (fun _ _ _ => id) ?_⟩
      rintro rfl
      rfl
    have hne' : List.replicate u.length 'a' ++ List.replicate v.length 'a' ≠ [] := fun h0 => by
      obtain ⟨h1, h2⟩ := List.append_eq_nil_iff.mp h0
      rw [List.replicate_eq_nil_iff] at h1 h2
      refine hne ?_
      rw [huv, List.eq_nil_of_length_eq_zero h1, List.eq_nil_of_length_eq_zero h2]
      rfl
    obtain ⟨a, b, hab, -, hw⟩ := h.asks hb hne' hrep
    obtain ⟨c, hc, hk⟩ := not_plain hno
    obtain ⟨c', hc', rfl⟩ := hw.mem hk
    have hmem : c' ∈ List.replicate u.length 'a' ++ List.replicate v.length 'a' :=
      hab ▸ List.mem_append_right a hc'
    rw [List.replicate_append_replicate] at hmem
    rw [List.eq_of_mem_replicate hmem] at hc
    exact absurd hc (by decide)
  · -- the shortest string has no room for the signs
    obtain ⟨t, ht⟩ := exists_shortest fun _ hk => not_fails hf hk
    have htne : t ≠ [] := by
      rintro rfl
      exact hone (List.forall₂_nil_right_iff.mp ht)
    have hft : Finds Hits (parse p) t :=
      ⟨[], t, rfl, (hv.least ht).imp (fun _ _ _ => id) fun _ => rfl⟩
    obtain ⟨a, b, rfl, ha, hw⟩ := h.asks hb htne hft
    have hlen := ht.length_eq
    have hb' := hw.length
    rw [← front_append_back (parse p), hb, ones_append, List.length_append, List.length_append]
      at hlen
    rw [ones_star] at hlen hb'
    omega

omit h in
lemma exists_last_star (hs : .star ∈ l) : ∃ a b, l = a ++ .star :: b ∧ .star ∉ b := by
  obtain ⟨a, b, hab, ha⟩ := List.eq_append_cons_of_mem (List.mem_reverse.mpr hs)
  refine ⟨b.reverse, a.reverse, ?_, mt List.mem_reverse.mp ha⟩
  have hl := congrArg List.reverse hab
  rw [List.reverse_reverse, List.reverse_append, List.reverse_cons, List.append_assoc] at hl
  exact hl

omit h in
/-- Items that are neither ends nor stars. -/
lemma Plain.eq_ones (hl : Plain l) (hs : .star ∉ l) : l = (ones l).map .one := by
  induction l with
  | nil => rfl
  | cons i l ih =>
    have ih := ih hl.tail fun hm => hs (List.mem_cons_of_mem _ hm)
    have hi := hl i List.mem_cons_self
    cases i with
    | caret => exact absurd rfl hi.1
    | dollar => exact absurd rfl hi.2
    | star => exact absurd List.mem_cons_self hs
    | one k => rw [ones_one, List.map_cons, ← ih]

lemma Right.loose (hb : back (parse p) = .star :: r) (hf : ¬ Fails (parse p)) :
    Loose (.star :: r) := by
  have hr := h.star_plain hb hf
  have hl : front (parse p) ++ .star :: r = parse p := hb ▸ front_append_back _
  obtain ⟨x, y, hx, hy, hfind⟩ := h.finds hb hf
  obtain ⟨a, b, hab, hstar⟩ := exists_last_star (List.mem_cons_self : Item.star ∈ Item.star :: r)
  have hbr : ∀ i ∈ b, i ∈ r := fun i hi => by
    have hm : i ∈ Item.star :: r := hab ▸ List.mem_append_right a (List.mem_cons_of_mem _ hi)
    rcases List.mem_cons.mp hm with rfl | hm
    · exact absurd hi hstar
    · exact hm
  refine ⟨a, b, hab, fun k hk c => ?_⟩
  rw [Plain.literal_eq hr] at hy
  have hne : x ++ y ≠ [] := fun hxy => by
    rw [(List.append_eq_nil_iff.mp hxy).2, List.forall₂_nil_right_iff] at hy
    exact absurd (hy ▸ mem_ones.mpr (hbr _ (mem_ones.mp hk)) : k ∈ []) (by simp)
  obtain ⟨u, v, huv, hv⟩ := hfind hne
  have hdollar : .dollar ∉ parse p := fun hd => by
    rw [← hl] at hd
    rcases List.mem_append.mp hd with hd | hd
    · rcases mem_front hd with hd | ⟨k, hd⟩ <;> exact absurd hd (by simp)
    · rcases List.mem_cons.mp hd with hd | hd
      · exact absurd hd (by simp)
      · exact (hr _ hd).2 rfl
  -- a character that one of the items does not take, as often as there are items
  have hext : Finds Hits (parse p) (x ++ y ++ List.replicate (ones b).length c) :=
    ⟨u, v ++ List.replicate (ones b).length c, by rw [huv, List.append_assoc],
      hv.extend hdollar _⟩
  obtain ⟨a', b', hs, -, hw⟩ := h.asks hb (fun h0 => hne (List.append_eq_nil_iff.mp h0).1) hext
  rw [Plain.literal_eq hr, hab, ← List.singleton_append, ← List.append_assoc] at hw
  obtain ⟨m, z, rfl, hz⟩ := hw.append_left
  rw [Plain.eq_ones (fun i hi => hr i (hbr i hi)) hstar, whole_ones] at hz
  have hzl : z = List.replicate (ones b).length c := by
    rw [← List.append_assoc] at hs
    refine (List.append_inj_right' hs ?_).symm
    rw [List.length_replicate, hz.length_eq]
  have hall : List.Forall₂ (fun _ c' => c' = c) (ones b) z := by
    rw [hzl]
    exact List.forall₂_iff_zip.mpr ⟨by simp, fun hm =>
      List.eq_of_mem_replicate (List.of_mem_zip hm).2⟩
  obtain ⟨c', ht, rfl⟩ := exists_both hz hall hk
  exact ht

lemma Right.sound : Sound (parse p) := by
  have hl := front_append_back (parse p)
  unfold Sound
  split
  · rename_i r hb
    by_cases hf : Fails (parse p)
    · exact .inl hf
    · obtain ⟨x, y, -, hy, -⟩ := h.finds hb hf
      have hff : ¬ Fails (front (parse p)) := fun hc => hf (hl ▸ fails_append.mpr (.inl hc))
      have hs : Sweeps Takes (back (parse p)) True y :=
        hb ▸ ⟨[], y, rfl, (plain_literal r).whole hy⟩
      exact .inr ⟨h.led hff hs, h.star_plain hb hf, h.loose hb hf⟩
  · rename_i r hb
    by_cases hf : Fails (front (parse p))
    · exact .inl hf
    · exact .inr (h.dollar hb hf)
  · rename_i hs hd
    have hb := back_eq_nil hs hd
    rw [hb, List.append_nil] at hl
    by_cases hf : Fails (parse p)
    · exact .inl hf
    · have hs : Sweeps Takes (back (parse p)) True [] := hb ▸ trivial
      exact .inr (hl ▸ h.led (hl.symm ▸ hf) hs)

end Right

/-! ### What is sound is read as it is meant -/

lemma not_whole_takes (h : Fails l) : ¬ Whole Takes (l.map literal) s := by
  obtain ⟨k, hk, hno⟩ := h
  intro hw
  obtain ⟨c, -, hc⟩ := hw.mem (ones_literal hk)
  obtain ⟨c', hc'⟩ := exists_hits hc
  exact hno c' hc'

lemma not_finds (h : Fails l) : ¬ Finds Hits l s := by
  obtain ⟨k, hk, hno⟩ := h
  rintro ⟨x, y, -, hy⟩
  obtain ⟨c, -, hc⟩ := hy.mem hk
  exact hno c hc

lemma not_sweeps (h : Fails (front l)) : ¬ Sweeps Takes l q s := by
  obtain ⟨k, hk, hno⟩ := h
  intro hs
  rw [← front_append_back l] at hs
  obtain ⟨c, hc⟩ := sweeps_mem (fun i => mem_front) hs hk
  obtain ⟨c', hc'⟩ := exists_hits hc
  exact hno c' hc'

theorem anchored_right (h : Fails (parse p) ∨ Faithful (parse p)) (s : List Char) :
    pnmatch s p 0 = true ↔ Whole Hits ((parse p).map literal) s := by
  rw [pnmatch_anchored]
  rcases h with h | h
  · refine iff_of_false (not_whole_takes h) fun hw => ?_
    exact not_whole_takes h (hw.imp fun _ _ _ => takes_of_hits)
  · refine ⟨fun hw => hw.imp fun k hk c hc => ?_, fun hw => hw.imp fun _ _ _ => takes_of_hits⟩
    rcases mem_ones_literal hk with hk | rfl | rfl
    · exact h k hk c hc
    · exact hc
    · exact hc

/-- A part behind a star is a whole, where the last items take everything. -/
lemma Loose.whole (hr : Plain r) (h : Loose (.star :: r)) (hs : Spans Hits (.star :: r) q s) :
    Whole Takes (.star :: r) s := by
  obtain ⟨a, b, hab, hall⟩ := h
  have hp : Plain (.star :: r) := fun i hi => by
    rcases List.mem_cons.mp hi with rfl | hi
    · simp
    · exact hr i hi
  rw [hab] at hs hp ⊢
  obtain ⟨x, y, q', rfl, hx, hy⟩ := hs.split fun i hi => hp i (List.mem_append_left _ hi)
  refine (hx.imp fun _ _ _ => takes_of_hits).append ?_
  have hlen := hy.length
  rw [ones_star] at hlen
  refine ⟨y.take (y.length - (ones b).length), y.drop (y.length - (ones b).length),
    (List.take_append_drop _ _).symm, ?_⟩
  refine Plain.whole (fun i hi => hp i (List.mem_append_right _ (List.mem_cons_of_mem _ hi))) ?_
  refine List.forall₂_iff_zip.mpr ⟨by rw [List.length_drop]; omega, fun {k c} hm => ?_⟩
  exact hall k (List.of_mem_zip hm).1 c

/-- The front of a pattern: the signs of the front, and characters. -/
structure Front (l : List (Item Kind)) (n : ℕ) : Prop where
  nil : front l = [] ↔ n = 0 ∧ ones (front l) = []
  sweeps : ∀ q s, Sweeps Takes l q s ↔ (n ≠ 0 → q) ∧ ∃ u v, s = u ++ v ∧
    List.Forall₂ Takes (ones (front l)) u ∧ Sweeps Takes (back l) q v
  spans : ∀ q s, Spans Hits l q s ↔ (n ≠ 0 → q) ∧ ∃ u v, s = u ++ v ∧
    List.Forall₂ Hits (ones (front l)) u ∧ Spans Hits (back l) (q ∧ u = []) v

lemma Led.front (h : Led (front l)) : ∃ n, Front l n := by
  obtain ⟨n, ks, hk⟩ := h
  have hks : ones (Pnmatch.front l) = ks := by rw [hk]; simp
  refine ⟨n, ?_, fun q s => ?_, fun q s => ?_⟩
  · rw [hks, hk]
    simp
  · conv_lhs => rw [← front_append_back l, hk, List.append_assoc, sweeps_carets, sweeps_ones]
    rw [hks]
  · conv_lhs => rw [← front_append_back l, hk, List.append_assoc, spans_carets, spans_ones]
    rw [hks]

lemma hits_of_takes (h : List.Forall₂ Takes ks t)
    (hf : ∀ k ∈ ks, ∀ c, Takes k c → Hits k c) : List.Forall₂ Hits ks t := by
  induction h with
  | nil => exact .nil
  | cons hc _ ih =>
    exact .cons (hf _ List.mem_cons_self _ hc) (ih fun k hk => hf k (List.mem_cons_of_mem _ hk))

/-- The attempts of the code find the parts, where it goes on behind the front as the pattern
says. -/
lemma found_iff (hA : Led (front l)) (hf : ∀ k ∈ ones (front l), ∀ c, Takes k c → Hits k c)
    (hs : s ≠ []) (h1 : ∀ q q' v, Sweeps Takes (back l) q v → Spans Hits (back l) q' v)
    (h2 : ∀ q q' v, Spans Hits (back l) q v → Sweeps Takes (back l) q' v)
    (h3 : front l = [] → Spans Hits (back l) False [] → Sweeps Takes (back l) True s) :
    (∃ x y, s = x ++ y ∧ y ≠ [] ∧ Sweeps Takes l (x = []) y) ↔ Finds Hits l s := by
  obtain ⟨n, hn⟩ := hA.front
  constructor
  · rintro ⟨x, y, rfl, -, hy⟩
    obtain ⟨hq, u, v, rfl, hu, hv⟩ := (hn.sweeps _ _).mp hy
    exact ⟨x, u ++ v, rfl, (hn.spans _ _).mpr ⟨hq, u, v, rfl, hits_of_takes hu hf, h1 _ _ v hv⟩⟩
  · rintro ⟨x, y, rfl, hy⟩
    obtain ⟨hq, u, v, rfl, hu, hv⟩ := (hn.spans _ _).mp hy
    by_cases huv : u ++ v = []
    · -- nothing but the end is left: the first attempt succeeds as well
      obtain ⟨rfl, rfl⟩ := List.append_eq_nil_iff.mp huv
      have hx : x ≠ [] := by simpa using hs
      have hn0 : n = 0 := by
        by_contra hc
        exact hx (hq hc)
      have hone := List.forall₂_nil_right_iff.mp hu
      have h0 := h3 (hn.nil.mpr ⟨hn0, hone⟩) (hv.imp (fun _ _ _ => id) fun h => hx h.1)
      refine ⟨[], x ++ ([] ++ []), rfl, hs, (hn.sweeps _ _).mpr ⟨fun _ => rfl, [], _, rfl, ?_, ?_⟩⟩
      · rw [hone]
        exact .nil
      · simpa using h0
    · refine ⟨x, u ++ v, rfl, huv, (hn.sweeps _ _).mpr ⟨hq, u, v, rfl, ?_, h2 _ _ v hv⟩⟩
      exact hu.imp fun _ _ => takes_of_hits

lemma found_dollar_nil (hb : back l = .dollar :: r) (hone : ones (front l) = [])
    (hS : front l ≠ [] ∨ ¬ Blank r) (hs : s ≠ []) :
    (∃ x y, s = x ++ y ∧ y ≠ [] ∧ Sweeps Takes l (x = []) y) ↔ Finds Hits l s := by
  obtain ⟨n, hn⟩ := (led_of_ones hone).front
  refine iff_of_false ?_ ?_
  · rintro ⟨x, y, -, hy, hsw⟩
    obtain ⟨-, u, v, rfl, hu, hv⟩ := (hn.sweeps _ _).mp hsw
    rw [hone] at hu
    rw [hb] at hv
    obtain rfl := List.forall₂_nil_left_iff.mp hu
    exact hy hv
  · rintro ⟨x, y, rfl, hsp⟩
    obtain ⟨hq, u, v, rfl, hu, hv⟩ := (hn.spans _ _).mp hsp
    rw [hone] at hu
    rw [hb] at hv
    obtain rfl := List.forall₂_nil_left_iff.mp hu
    obtain ⟨rfl, hv⟩ := hv
    have hx : x ≠ [] := by simpa using hs
    rcases hS with hS | hS
    · refine hS (hn.nil.mpr ⟨?_, hone⟩)
      by_contra hc
      exact hx (hq hc)
    · exact hS (blank_of_spans hv fun h => hx h.1)

lemma found_dollar (hb : back l = .dollar :: r) (hA : Led (front l)) (hone : ones (front l) ≠ [])
    (hr : Blank r) (hf : ∀ k ∈ ones (front l), ∀ c, Takes k c → Hits k c) (hs : s ≠ []) :
    (∃ x y, s = x ++ y ∧ y ≠ [] ∧ Sweeps Takes l (x = []) y) ↔ Finds Hits l s := by
  refine found_iff hA hf hs (fun q q' v hv => ?_) (fun q q' v hv => ?_) fun h => ?_
  · rw [hb] at hv ⊢
    obtain rfl : v = [] := hv
    exact ⟨rfl, hr.spans⟩
  · rw [hb] at hv ⊢
    exact hv.1
  · exact absurd (by rw [h]; rfl) hone

lemma found_star (hb : back l = .star :: r) (hA : Led (front l)) (hr : Plain r)
    (hL : Loose (.star :: r)) (hf : Faithful l) (hs : s ≠ []) :
    (∃ x y, s = x ++ y ∧ y ≠ [] ∧ Sweeps Takes l (x = []) y) ↔ Finds Hits l s := by
  have hl : front l ++ .star :: r = l := hb ▸ front_append_back l
  have hones : ones l = ones (front l) ++ ones r := by
    conv_lhs => rw [← hl, ones_append, ones_star]
  have hwhole : ∀ q v, Sweeps Takes (back l) q v ↔ Whole Takes (.star :: r) v := fun q v => by
    rw [hb, Sweeps, Plain.literal_eq hr]
    rfl
  refine found_iff hA (fun k hk => hf k (by simp [hones, hk])) hs (fun q q' v hv => ?_)
    (fun q q' v hv => ?_) fun _ hv => ?_
  · rw [hb]
    refine Whole.spans (((hwhole q v).mp hv).imp fun k hk => hf k ?_)
    rw [hones]
    exact List.mem_append_right _ hk
  · rw [hb] at hv
    exact (hwhole q' v).mpr (hL.whole hr hv)
  · rw [hb] at hv
    obtain ⟨a, b, hab, hw⟩ := hL.whole hr hv
    obtain ⟨rfl, rfl⟩ := List.append_eq_nil_iff.mp hab.symm
    exact (hwhole _ _).mpr ⟨s, [], (List.append_nil s).symm, hw⟩

theorem unanchored_right (h : Fails (parse p) ∨ Faithful (parse p)) (hS : Sound (parse p))
    (hs : s ≠ []) : pnmatch s p 1 = true ↔ Finds Hits (parse p) s := by
  rw [pnmatch_unanchored]
  have hl := front_append_back (parse p)
  by_cases hF : Fails (front (parse p))
  · refine iff_of_false ?_ (not_finds (hl ▸ fails_append.mpr (.inl hF)))
    rintro ⟨x, y, -, -, hy⟩
    exact not_sweeps hF hy
  unfold Sound at hS
  split at hS
  · rename_i r hb
    rw [hb] at hl
    by_cases hf : Fails (parse p)
    · refine iff_of_false ?_ (not_finds hf)
      rintro ⟨x, y, -, -, hy⟩
      rw [← hl] at hf hy
      obtain ⟨u, v, -, -, hv⟩ := sweeps_star (fun i => mem_front) hy
      exact not_whole_takes (l := .star :: r) ((fails_append.mp hf).resolve_left hF) hv
    · obtain ⟨hA, hr, hL⟩ := hS.resolve_left hf
      exact found_star hb hA hr hL (h.resolve_left hf) hs
  · rename_i r hb
    rw [hb] at hl
    have hS := hS.resolve_left hF
    split at hS
    · rename_i hone
      exact found_dollar_nil hb hone hS hs
    · rename_i hone
      refine found_dollar hb hS.1 hone hS.2 (fun k hk => ?_) hs
      have hf : ¬ Fails (parse p) := by
        rw [← hl, fails_append]
        rintro (hc | ⟨k, hk, -⟩)
        · exact hF hc
        · rw [ones_dollar, hS.2.ones] at hk
          exact absurd hk (by simp)
      refine h.resolve_left hf k ?_
      rw [← hl, ones_append]
      exact List.mem_append_left _ hk
  · rename_i h1 h2
    have hb := back_eq_nil h1 h2
    rw [hb, List.append_nil] at hl
    rw [hl] at hF
    have hA : Led (front (parse p)) := hl.symm ▸ hS.resolve_left hF
    refine found_iff hA (fun k hk => h.resolve_left hF k (hl ▸ hk)) hs ?_ ?_ ?_
    all_goals simp [hb, Sweeps, Spans]

end Coherent.Pnmatch
