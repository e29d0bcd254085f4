import Coherent.Lib.Wildcard

/-!
The pattern matcher `pnmatch` of the C library, and its patterns.

A character string is the list of its characters before the NUL. The argument `unanch` is not cut
to 16 bits. A pattern is read as a list of items; of a class, its text up to the closing bracket,
or to the end of the pattern.
-/

namespace Coherent.Pnmatch

open Lib.Wildcard

/-! ### The code -/

/-- `while (*p && *p++ != ']');` -/
def skip (p : List Char) : List Char := (p.dropWhile (· ≠ ']')).tail

/-- A character of a class, where `\-` is a hyphen, and the pattern behind it. -/
def element (c2 : Char) (p : List Char) : Char × List Char :=
  if c2 = '\\' ∧ p.head? = some '-' then ('-', p.tail) else (c2, p)

lemma element_length (c2 : Char) (p : List Char) : (element c2 p).2.length ≤ p.length := by
  unfold element
  split <;> simp

/-- The loop of a class: the pattern behind the class, if `c1` is in it. -/
def scan (c1 : Char) : List Char → Option (List Char)
  | [] => none
  | c2 :: p =>
    if c2 = ']' then none
    else
      let x := element c2 p
      if x.1 = c1 then some (skip x.2)
      else if x.2.head? = some '-' then
        if x.2.tail.head?.any (c1 ≤ ·) ∧ x.1 ≤ c1 then some (skip x.2.tail)
        else scan c1 x.2.tail
      else scan c1 x.2
termination_by p => p.length
decreasing_by
  · have := element_length c2 p
    simp only [List.length_cons, List.length_tail]
    omega
  · have := element_length c2 p
    simp only [List.length_cons]
    omega

lemma skip_length (p : List Char) : (skip p).length ≤ p.length := by
  unfold skip
  rw [List.length_tail]
  have := (List.dropWhile_suffix (l := p) (· ≠ ']')).length_le
  omega

lemma scan_length {c1 : Char} {p r : List Char} (h : scan c1 p = some r) :
    r.length ≤ p.length := by
  fun_induction scan c1 p with
  | case1 => simp at h
  | case2 => simp at h
  | case3 c2 p hc x hx =>
    obtain rfl := Option.some.inj h
    have h1 := skip_length x.2
    have h2 := element_length c2 p
    simp only [x, List.length_cons] at *
    omega
  | case4 c2 p hc x hx hd hr =>
    obtain rfl := Option.some.inj h
    have h1 := skip_length x.2.tail
    have h2 := element_length c2 p
    simp only [x, List.length_cons, List.length_tail] at *
    omega
  | case5 c2 p hc x hx hd hr ih =>
    have h1 := ih h
    have h2 := element_length c2 p
    simp only [x, List.length_cons, List.length_tail] at *
    omega
  | case6 c2 p hc x hx hd ih =>
    have h1 := ih h
    have h2 := element_length c2 p
    simp only [x, List.length_cons] at *
    omega

/-- The loop of a star, over all ends of the string. -/
def tryAll (f : List Char → Bool) : List Char → Bool
  | [] => f []
  | c :: s => if f (c :: s) then true else tryAll f s

/-- The loop over the pattern. At the end of the string `c1` is NUL, which is neither in a class nor
equal to a character of the pattern. -/
def run (unanch : ℕ) : List Char → List Char → Bool
  | [], s => if unanch ≠ 0 then true else s.isEmpty
  | c2 :: p, s =>
    if c2 = '^' ∧ unanch = 2 then run unanch p s
    else if c2 = '^' ∧ unanch ≠ 0 then false
    else if c2 = '$' ∧ unanch ≠ 0 then s.isEmpty
    else if c2 = '*' then tryAll (fun s => run 0 p s) s
    else
      match s with
      | [] => false
      | c1 :: s =>
        if c2 = '[' then
          match _h : scan c1 p with
          | none => false
          | some r => run unanch r s
        else if c2 = '?' then run unanch p s
        else if c2 = '\\' then
          match p with
          | [] => false
          | c2 :: p => if c1 ≠ c2 then false else run unanch p s
        else if c1 ≠ c2 then false
        else run unanch p s
termination_by p => p.length
decreasing_by
  all_goals simp only [List.length_cons]
  all_goals first | omega | (have h := scan_length ‹_›; omega)

/-- The loop over the places of the string. -/
def tryFrom (p : List Char) : ℕ → List Char → Bool
  | _, [] => false
  | unanch, c :: s => if run (unanch + 1) p (c :: s) then true else tryFrom p (unanch + 1) s

def pnmatch (s p : List Char) (unanch : ℕ) : Bool :=
  if unanch = 1 then tryFrom p 1 s else run unanch p s

/-! ### Patterns -/

/-- What stands for one character. -/
inductive Kind
  | any
  | lit (c : Char)
  /-- The text of a class, and whether a bracket closes it. -/
  | cls (t : List Char) (closed : Bool)
  /-- A backslash at the end of the pattern. -/
  | bad
  deriving DecidableEq

/-- The items of a pattern. -/
def parse : List Char → List (Item Kind)
  | [] => []
  | c2 :: p =>
    if c2 = '^' then .caret :: parse p
    else if c2 = '$' then .dollar :: parse p
    else if c2 = '*' then .star :: parse p
    else if c2 = '?' then .one .any :: parse p
    else if c2 = '[' then .one (.cls (p.takeWhile (· ≠ ']')) (p.contains ']')) :: parse (skip p)
    else if c2 = '\\' then
      match p with
      | [] => [.one .bad]
      | c2 :: p => .one (.lit c2) :: parse p
    else .one (.lit c2) :: parse p
termination_by p => p.length
decreasing_by
  all_goals simp only [List.length_cons]
  all_goals first | omega | (have h := skip_length p; omega)

/-- Anchored, the signs of the ends stand for themselves. -/
def literal : Item Kind → Item Kind
  | .caret => .one (.lit '^')
  | .dollar => .one (.lit '$')
  | i => i

/-- The ranges of a class: each of its characters, and for a hyphen behind one all from there to the
character behind the hyphen, which for the last is `stop`. -/
def ranges (stop : Option Char) : List Char → List (Char × Char)
  | [] => []
  | c2 :: p =>
    let x := element c2 p
    if x.2.head? = some '-' then
      (x.1, x.1) :: ((x.2.tail.head?.or stop).map fun y => (x.1, y)).toList ++ ranges stop x.2.tail
    else (x.1, x.1) :: ranges stop x.2
termination_by p => p.length
decreasing_by
  · have := element_length c2 p
    simp only [List.length_cons, List.length_tail]
    omega
  · have := element_length c2 p
    simp only [List.length_cons]
    omega

def InRanges (l : List (Char × Char)) (c : Char) : Prop := ∃ r ∈ l, r.1 ≤ c ∧ c ≤ r.2

/-- The characters that a kind stands for: a hyphen at the end of a class adds nothing. -/
def Hits : Kind → Char → Prop
  | .any, _ => True
  | .lit c', c => c = c'
  | .cls t _, c => InRanges (ranges none t) c
  | .bad, _ => False

/-- Those that the code takes: a range may end with the closing bracket. -/
def Takes : Kind → Char → Prop
  | .any, _ => True
  | .lit c', c => c = c'
  | .cls t closed, c => InRanges (ranges (if closed then some ']' else none) t) c
  | .bad, _ => False

instance (l : List (Char × Char)) (c : Char) : Decidable (InRanges l c) :=
  inferInstanceAs (Decidable (∃ r ∈ l, _))

/-! ### The reading of a class -/

/-- The text of a class. -/
def text (p : List Char) : List Char := p.takeWhile (· ≠ ']')

def stop (p : List Char) : Option Char := if p.contains ']' then some ']' else none

variable {c c1 c2 : Char} {p r s t : List Char} {u : ℕ}

lemma text_cons (h : c ≠ ']') : text (c :: p) = c :: text p := by simp [text, h]

lemma stop_cons (h : c ≠ ']') : stop (c :: p) = stop p := by
  simp [stop, Ne.symm h]

lemma skip_cons (h : c ≠ ']') : skip (c :: p) = skip p := by simp [skip, h]

lemma head_text (p : List Char) : (text p).head?.or (stop p) = p.head? := by
  cases p with
  | nil => rfl
  | cons c p =>
    by_cases h : c = ']'
    · simp [text, stop, h]
    · rw [text_cons h]
      rfl

lemma hyphen_text : (text p).head? = some '-' ↔ p.head? = some '-' := by
  cases p with
  | nil => rfl
  | cons c p =>
    by_cases h : c = ']'
    · simp [text, h]
    · rw [text_cons h]
      rfl

/-- Behind a hyphen nothing of this changes. -/
lemma tail_hyphen (h : p.head? = some '-') :
    (text p).tail = text p.tail ∧ stop p.tail = stop p ∧ skip p.tail = skip p := by
  obtain ⟨q, rfl⟩ := List.head?_eq_some_iff.mp h
  have hne : '-' ≠ ']' := by decide
  rw [text_cons hne, stop_cons hne, skip_cons hne]
  exact ⟨rfl, rfl, rfl⟩

lemma element_text (c2 : Char) (p : List Char) :
    element c2 (text p) = ((element c2 p).1, text (element c2 p).2) ∧
      stop (element c2 p).2 = stop p ∧ skip (element c2 p).2 = skip p := by
  have hiff : c2 = '\\' ∧ (text p).head? = some '-' ↔ c2 = '\\' ∧ p.head? = some '-' :=
    and_congr_right fun _ => hyphen_text
  unfold element
  by_cases h : c2 = '\\' ∧ p.head? = some '-'
  · obtain ⟨h1, h2, h3⟩ := tail_hyphen h.2
    rw [if_pos (hiff.mpr h), if_pos h]
    exact ⟨by rw [h1], h2, h3⟩
  · rw [if_neg (mt hiff.mp h), if_neg h]
    exact ⟨rfl, rfl, rfl⟩

/-- The ranges of the text, read off the pattern. -/
lemma ranges_text (h : c2 ≠ ']') {e : Char} {q : List Char} (he : element c2 p = (e, q)) :
    ranges (stop (c2 :: p)) (text (c2 :: p)) =
      if q.head? = some '-' then
        (e, e) :: (q.tail.head?.map fun y => (e, y)).toList ++ ranges (stop q.tail) (text q.tail)
      else (e, e) :: ranges (stop q) (text q) := by
  obtain ⟨h1, h2, -⟩ := element_text c2 p
  rw [he] at h1 h2
  rw [text_cons h, stop_cons h, ranges, h1, ← h2]
  by_cases hq : q.head? = some '-'
  · obtain ⟨h3, h4, -⟩ := tail_hyphen hq
    rw [if_pos (hyphen_text.mpr hq), if_pos hq, h3, ← h4, head_text]
  · rw [if_neg (mt hyphen_text.mp hq), if_neg hq]

lemma inRanges_self {e : Char} {l : List (Char × Char)} :
    InRanges ((e, e) :: l) c ↔ e = c ∨ InRanges l c := by
  simp only [InRanges, List.exists_mem_cons_iff]
  refine or_congr_left ⟨fun h => Char.le_antisymm h.1 h.2, ?_⟩
  rintro rfl
  exact ⟨Char.le_refl e, Char.le_refl e⟩

lemma inRanges_append {l m : List (Char × Char)} :
    InRanges (l ++ m) c ↔ InRanges l c ∨ InRanges m c := by
  simp only [InRanges, List.mem_append, or_and_right, exists_or]

lemma inRanges_option {e : Char} {o : Option Char} :
    InRanges (o.map fun y => (e, y)).toList c ↔ o.any (c ≤ ·) ∧ e ≤ c := by
  cases o <;> simp [InRanges, and_comm]

/-- **The loop of a class** finds out whether the character is in one of its ranges. -/
theorem scan_eq (c1 : Char) (p : List Char) :
    scan c1 p = if InRanges (ranges (stop p) (text p)) c1 then some (skip p) else none := by
  fun_induction scan c1 p with
  | case1 => simp [text, ranges, InRanges]
  | case2 p => simp [text, ranges, InRanges]
  | case3 c2 p hc x hx =>
    have hs : skip x.2 = skip p := (element_text c2 p).2.2
    have he := @ranges_text c2 p hc x.1 x.2 rfl
    rw [he, if_pos, skip_cons hc, hs]
    split
    · rw [List.cons_append, inRanges_self]
      exact .inl hx
    · exact inRanges_self.mpr (.inl hx)
  | case4 c2 p hc x hx hd hr =>
    have hs : skip x.2 = skip p := (element_text c2 p).2.2
    have he := @ranges_text c2 p hc x.1 x.2 rfl
    rw [he, if_pos hd, if_pos, skip_cons hc, (tail_hyphen hd).2.2, hs]
    rw [List.cons_append, inRanges_self, inRanges_append, inRanges_option]
    exact .inr (.inl hr)
  | case5 c2 p hc x hx hd hr ih =>
    have hs : skip x.2 = skip p := (element_text c2 p).2.2
    have he := @ranges_text c2 p hc x.1 x.2 rfl
    rw [ih, he, if_pos hd, skip_cons hc, (tail_hyphen hd).2.2, hs]
    refine if_congr ?_ rfl rfl
    rw [List.cons_append, inRanges_self, inRanges_append, inRanges_option]
    tauto
  | case6 c2 p hc x hx hd ih =>
    have hs : skip x.2 = skip p := (element_text c2 p).2.2
    have he := @ranges_text c2 p hc x.1 x.2 rfl
    rw [ih, he, if_neg hd, skip_cons hc, hs]
    refine if_congr ?_ rfl rfl
    rw [inRanges_self]
    tauto

/-! ### The reading of a pattern -/

lemma tryAll_iff {f : List Char → Bool} : tryAll f s = true ↔ ∃ x y, s = x ++ y ∧ f y = true := by
  induction s with
  | nil =>
    constructor
    · exact fun h => ⟨[], [], rfl, h⟩
    · rintro ⟨x, y, hs, h⟩
      rw [(List.append_eq_nil_iff.mp hs.symm).2] at h
      exact h
  | cons c s ih =>
    rw [tryAll]
    constructor
    · intro h
      by_cases hf : f (c :: s) = true
      · exact ⟨[], c :: s, rfl, hf⟩
      · rw [if_neg hf] at h
        obtain ⟨x, y, rfl, hy⟩ := ih.mp h
        exact ⟨c :: x, y, rfl, hy⟩
    · rintro ⟨x, y, hs, h⟩
      cases x with
      | nil =>
        rw [List.nil_append] at hs
        rw [hs, if_pos h]
      | cons d x =>
        obtain ⟨rfl, rfl⟩ := List.cons_eq_cons.mp hs
        split
        · rfl
        · exact ih.mpr ⟨x, y, rfl, h⟩

lemma takes_cls (c : Char) (p : List Char) :
    Takes (.cls (text p) (p.contains ']')) c ↔ InRanges (ranges (stop p) (text p)) c := Iff.rfl

section One

variable (h1 : c2 ≠ '^') (h2 : c2 ≠ '$') (h3 : c2 ≠ '*')
include h1 h2 h3

lemma run_eq (u : ℕ) (s : List Char) : run u (c2 :: p) s =
    match s with
    | [] => false
    | c1 :: s =>
      if c2 = '[' then
        match scan c1 p with
        | none => false
        | some r => run u r s
      else if c2 = '?' then run u p s
      else if c2 = '\\' then
        match p with
        | [] => false
        | c2 :: p => if c1 ≠ c2 then false else run u p s
      else if c1 ≠ c2 then false
      else run u p s := by
  rw [run.eq_def]
  dsimp only
  rw [if_neg (fun h => h1 h.1), if_neg (fun h => h1 h.1), if_neg (fun h => h2 h.1), if_neg h3]
  cases s with
  | nil => rfl
  | cons c1 s =>
    dsimp only
    refine if_congr Iff.rfl ?_ rfl
    split <;> rename_i h <;> rw [h]

lemma parse_eq : parse (c2 :: p) =
    if c2 = '?' then .one .any :: parse p
    else if c2 = '[' then .one (.cls (text p) (p.contains ']')) :: parse (skip p)
    else if c2 = '\\' then
      match p with
      | [] => [.one .bad]
      | c2 :: p => .one (.lit c2) :: parse p
    else .one (.lit c2) :: parse p := by
  rw [parse.eq_def]
  dsimp only
  rw [if_neg h1, if_neg h2, if_neg h3]
  rfl

/-- A pattern that starts with an item for one character. -/
lemma run_one : ∃ k q, q.length ≤ p.length ∧ parse (c2 :: p) = .one k :: parse q ∧
    ∀ u s, run u (c2 :: p) s = true ↔ ∃ c y, s = c :: y ∧ Takes k c ∧ run u q y = true := by
  have hrun := run_eq (p := p) h1 h2 h3
  have hparse := parse_eq (p := p) h1 h2 h3
  by_cases h4 : c2 = '?'
  · refine ⟨.any, p, le_rfl, by rw [hparse, if_pos h4], fun u s => ?_⟩
    rw [hrun]
    cases s with
    | nil => simp
    | cons c1 s => simp [h4, Takes]
  by_cases h5 : c2 = '['
  · refine ⟨.cls (text p) (p.contains ']'), skip p, skip_length p,
      by rw [hparse, if_neg h4, if_pos h5], fun u s => ?_⟩
    rw [hrun]
    cases s with
    | nil => simp
    | cons c1 s =>
      simp only [if_pos h5, scan_eq, takes_cls]
      by_cases hr : InRanges (ranges (stop p) (text p)) c1 <;> simp [hr]
  by_cases h6 : c2 = '\\'
  · cases p with
    | nil =>
      refine ⟨.bad, [], le_rfl, by rw [hparse, if_neg h4, if_neg h5, if_pos h6, parse],
        fun u s => ?_⟩
      rw [hrun]
      cases s <;> simp [h6, Takes]
    | cons c2 p =>
      refine ⟨.lit c2, p, Nat.le_succ _, by rw [hparse, if_neg h4, if_neg h5, if_pos h6],
        fun u s => ?_⟩
      rw [hrun]
      cases s <;> simp [h6, Takes]
  · refine ⟨.lit c2, p, le_rfl, by rw [hparse, if_neg h4, if_neg h5, if_neg h6], fun u s => ?_⟩
    rw [hrun]
    cases s <;> simp [h5, h4, h6, Takes]

end One

@[simp] lemma parse_nil : parse [] = [] := by rw [parse]

lemma parse_caret (p : List Char) : parse ('^' :: p) = .caret :: parse p := by
  rw [parse.eq_def]
  rfl

lemma parse_dollar (p : List Char) : parse ('$' :: p) = .dollar :: parse p := by
  rw [parse.eq_def]
  rfl

lemma parse_star (p : List Char) : parse ('*' :: p) = .star :: parse p := by
  rw [parse.eq_def]
  rfl

lemma run_star : run u ('*' :: p) s = true ↔ ∃ x y, s = x ++ y ∧ run 0 p y = true := by
  rw [run.eq_def]
  dsimp only
  rw [if_neg (by simp), if_neg (by simp), if_neg (by simp), if_pos rfl]
  exact tryAll_iff

/-- In the anchored mode the signs of the ends are characters. -/
lemma run_literal (h : c2 = '^' ∨ c2 = '$') :
    run 0 (c2 :: p) s = true ↔ ∃ c y, s = c :: y ∧ c = c2 ∧ run 0 p y = true := by
  rw [run.eq_def]
  dsimp only
  rcases h with rfl | rfl <;> cases s <;> simp

/-- **The anchored mode** matches the string as a whole. -/
theorem run_whole (p s : List Char) :
    run 0 p s = true ↔ Whole Takes ((parse p).map literal) s := by
  induction hn : p.length using Nat.strong_induction_on generalizing p s with
  | _ n ih =>
    cases p with
    | nil => simp [run, Whole]
    | cons c2 p =>
      rw [List.length_cons] at hn
      by_cases h1 : c2 = '^'
      · rw [run_literal (.inl h1), h1, parse_caret]
        exact exists_congr fun c => exists_congr fun y => and_congr_right fun _ =>
          and_congr_right fun _ => ih _ (by omega) p y rfl
      by_cases h2 : c2 = '$'
      · rw [run_literal (.inr h2), h2, parse_dollar]
        exact exists_congr fun c => exists_congr fun y => and_congr_right fun _ =>
          and_congr_right fun _ => ih _ (by omega) p y rfl
      by_cases h3 : c2 = '*'
      · subst h3
        rw [run_star, parse_star]
        exact exists_congr fun x => exists_congr fun y => and_congr_right fun _ =>
          ih _ (by omega) p y rfl
      · obtain ⟨k, q, hq, hp, hr⟩ := run_one (p := p) h1 h2 h3
        rw [hr, hp]
        exact exists_congr fun c => exists_congr fun y => and_congr_right fun _ =>
          and_congr_right fun _ => ih _ (by omega) q y rfl

/-- What the unanchored mode asks for, from one place on: the pattern ends at the sign of the end,
and goes on anchored behind a star. -/
def Sweeps (f : Kind → Char → Prop) : List (Item Kind) → Prop → List Char → Prop
  | [], _, _ => True
  | .caret :: l, first, s => first ∧ Sweeps f l first s
  | .dollar :: _, _, s => s = []
  | .star :: l, _, s => ∃ x y, s = x ++ y ∧ Whole f (l.map literal) y
  | .one k :: l, first, s => ∃ c y, s = c :: y ∧ f k c ∧ Sweeps f l first y

theorem run_sweeps (hu : 2 ≤ u) (p s : List Char) :
    run u p s = true ↔ Sweeps Takes (parse p) (u = 2) s := by
  induction hn : p.length using Nat.strong_induction_on generalizing p s with
  | _ n ih =>
    cases p with
    | nil =>
      rw [run, if_pos (by omega), parse_nil]
      exact iff_of_true rfl trivial
    | cons c2 p =>
      rw [List.length_cons] at hn
      by_cases h1 : c2 = '^'
      · subst h1
        rw [parse_caret, Sweeps, ← ih _ (by omega) p s rfl, run.eq_def]
        dsimp only
        by_cases h2 : u = 2
        · rw [if_pos ⟨rfl, h2⟩]
          exact (and_iff_right h2).symm
        · rw [if_neg (fun h => h2 h.2), if_pos ⟨rfl, by omega⟩]
          exact iff_of_false (by simp) fun h => h2 h.1
      by_cases h2 : c2 = '$'
      · subst h2
        rw [parse_dollar, Sweeps, run.eq_def]
        dsimp only
        rw [if_neg (by simp), if_neg (by simp), if_pos ⟨rfl, by omega⟩, List.isEmpty_iff]
      by_cases h3 : c2 = '*'
      · subst h3
        rw [run_star, parse_star]
        exact exists_congr fun x => exists_congr fun y => and_congr_right fun _ => run_whole p y
      · obtain ⟨k, q, hq, hp, hr⟩ := run_one (p := p) h1 h2 h3
        rw [hr, hp]
        exact exists_congr fun c => exists_congr fun y => and_congr_right fun _ =>
          and_congr_right fun _ => ih _ (by omega) q y rfl

lemma tryFrom_iff : tryFrom p u s = true ↔
    ∃ x y, s = x ++ y ∧ y ≠ [] ∧ run (u + 1 + x.length) p y = true := by
  induction s generalizing u with
  | nil =>
    refine iff_of_false (by simp [tryFrom]) ?_
    rintro ⟨x, y, hs, hy, -⟩
    exact hy (List.append_eq_nil_iff.mp hs.symm).2
  | cons c s ih =>
    rw [tryFrom]
    constructor
    · intro h
      by_cases hr : run (u + 1) p (c :: s) = true
      · exact ⟨[], c :: s, rfl, by simp, hr⟩
      · rw [if_neg hr] at h
        obtain ⟨x, y, rfl, hy, h⟩ := ih.mp h
        refine ⟨c :: x, y, rfl, hy, ?_⟩
        rw [List.length_cons]
        convert h using 2
        omega
    · rintro ⟨x, y, hs, hy, h⟩
      cases x with
      | nil =>
        rw [List.nil_append] at hs
        rw [hs]
        exact if_pos h
      | cons d x =>
        obtain ⟨rfl, rfl⟩ := List.cons_eq_cons.mp hs
        split
        · rfl
        · refine ih.mpr ⟨x, y, rfl, hy, ?_⟩
          convert h using 2
          rw [List.length_cons]
          omega

/-- **Both modes**, by the items of the pattern. -/
theorem pnmatch_anchored (s p : List Char) :
    pnmatch s p 0 = true ↔ Whole Takes ((parse p).map literal) s := run_whole p s

theorem pnmatch_unanchored (s p : List Char) : pnmatch s p 1 = true ↔
    ∃ x y, s = x ++ y ∧ y ≠ [] ∧ Sweeps Takes (parse p) (x = []) y := by
  rw [pnmatch, if_pos rfl, tryFrom_iff]
  refine exists_congr fun x => exists_congr fun y => and_congr_right fun _ =>
    and_congr_right fun _ => ?_
  rw [run_sweeps (by omega)]
  have hx : (1 + 1 + x.length = 2) = (x = []) := by
    rw [← List.length_eq_zero_iff]
    exact propext ⟨fun h => by omega, fun h => by omega⟩
  rw [hx]

end Coherent.Pnmatch
