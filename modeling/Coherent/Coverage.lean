import Coherent.Clgfx

/-!
Has a window been uncovered since its last full repaint?

`cl_rcovered` cuts a rectangle into what each of the others leaves of it. The pieces of a rectangle
are what it has outside the other one, so they run out just when all of it is covered.
-/

namespace Coherent.Clgfx

def FRAGMAX : ℕ := 32

def HRRECT.Empty (c : HRRECT) : Prop := c.x1 ≤ c.x0 ∨ c.y1 ≤ c.y0

instance (c : HRRECT) : Decidable c.Empty := by unfold HRRECT.Empty; infer_instance

/-- What the inner loop stores for the fragment `f` against `c`, in order. -/
def pieces (c f : HRRECT) : List HRRECT :=
  if f.x0 ≥ c.x1 ∨ f.x1 ≤ c.x0 ∨ f.y0 ≥ c.y1 ∨ f.y1 ≤ c.y0 then [f]
  else
    let top := if f.y0 < c.y0 then [{ f with y1 := c.y0 }] else []
    let f := if f.y0 < c.y0 then { f with y0 := c.y0 } else f
    let bottom := if f.y1 > c.y1 then [{ f with y0 := c.y1 }] else []
    let f := if f.y1 > c.y1 then { f with y1 := c.y1 } else f
    let left := if f.x0 < c.x0 then [{ f with x1 := c.x0 }] else []
    let right := if f.x1 > c.x1 then [{ f with x0 := c.x1 }] else []
    top ++ bottom ++ left ++ right

/-- `nw[t2++] = f`; the function returns 0 where there is no room. -/
def store (nw : List HRRECT) (f : HRRECT) : Option (List HRRECT) :=
  if nw.length ≥ FRAGMAX then none else some (nw ++ [f])

/-- The outer loop of `cl_rcovered`, with the fragments `wk`. -/
def rcoveredLoop : List HRRECT → List HRRECT → Bool
  | [], wk => wk.isEmpty
  | c :: o, wk =>
    if wk = [] then true
    else if c.Empty then rcoveredLoop o wk
    else match (wk.flatMap (pieces c)).foldlM store [] with
      | none => false
      | some nw => rcoveredLoop o nw

def cl_rcovered (r : HRRECT) (o : List HRRECT) : Bool := rcoveredLoop o [r]

/-- The surface of the window that `cl_sync` copies. -/
structure Surf where
  mapped : Bool
  vis : List HRRECT

/-- What `cl_snapclip` records. -/
structure Snap where
  snapvis : List HRRECT
  snapvalid : Bool

def Snap.init : Snap := ⟨[], false⟩

def cl_snapclip (S : Surf) (_ : Snap) : Snap := ⟨if S.mapped then S.vis else [], true⟩

def cl_uncovered (S : Surf) (s : Snap) : Bool :=
  if !s.snapvalid then true
  else if !S.mapped then false
  else S.vis.any fun r => !(decide r.Empty) && !cl_rcovered r s.snapvis

/-! ### The fragments -/

variable {c f r : HRRECT} {o wk nw : List HRRECT} {q : Pixel}

lemma not_empty_of_has (h : r.has q) : ¬ r.Empty := by
  unfold HRRECT.Empty
  obtain ⟨h1, h2, h3, h4⟩ := h
  omega

lemma exists_has (h : ¬ r.Empty) : ∃ q, r.has q := by
  unfold HRRECT.Empty at h
  exact ⟨(r.x0, r.y0), by dsimp only; omega, by dsimp only; omega, by dsimp only; omega,
    by dsimp only; omega⟩

lemma exists_piece {P : Prop} [Decidable P] {A : HRRECT → Prop} :
    (∃ g ∈ (if P then [f] else []), A g) ↔ P ∧ A f := by
  by_cases h : P
  · simp [h]
  · simp [h]

lemma exists_append {A : HRRECT → Prop} :
    (∃ g ∈ wk ++ nw, A g) ↔ (∃ g ∈ wk, A g) ∨ ∃ g ∈ nw, A g := by
  simp [List.mem_append, or_and_right, exists_or]

/-- Some piece has a property just when one of the four cuts does. -/
lemma exists_pieces (A : HRRECT → Prop)
    (hd : ¬ (f.x0 ≥ c.x1 ∨ f.x1 ≤ c.x0 ∨ f.y0 ≥ c.y1 ∨ f.y1 ≤ c.y0)) :
    (∃ g ∈ pieces c f, A g) ↔
      (f.y0 < c.y0 ∧ A { f with y1 := c.y0 }) ∨
      (f.y1 > c.y1 ∧ A { f with y0 := c.y1 }) ∨
      (f.x0 < c.x0 ∧ A ⟨f.x0, max f.y0 c.y0, c.x0, min f.y1 c.y1⟩) ∨
      (f.x1 > c.x1 ∧ A ⟨c.x1, max f.y0 c.y0, f.x1, min f.y1 c.y1⟩) := by
  rw [pieces, if_neg hd]
  dsimp only
  rw [exists_append, exists_append, exists_append, exists_piece, exists_piece, exists_piece,
    exists_piece, or_assoc, or_assoc]
  by_cases h1 : f.y0 < c.y0
  · rw [if_pos h1, max_eq_right h1.le]
    by_cases h2 : f.y1 > c.y1
    · rw [if_pos h2, min_eq_right h2.le]
    · rw [if_neg h2, min_eq_left (not_lt.mp h2)]
  · rw [if_neg h1, max_eq_left (not_lt.mp h1)]
    by_cases h2 : f.y1 > c.y1
    · rw [if_pos h2, min_eq_right h2.le]
    · rw [if_neg h2, min_eq_left (not_lt.mp h2)]

/-- The pieces have the pixels of the fragment that are not covered. -/
lemma pieces_has (hc : ¬ c.Empty) : (∃ g ∈ pieces c f, g.has q) ↔ f.has q ∧ ¬ c.has q := by
  by_cases hd : f.x0 ≥ c.x1 ∨ f.x1 ≤ c.x0 ∨ f.y0 ≥ c.y1 ∨ f.y1 ≤ c.y0
  · rw [pieces, if_pos hd]
    simp only [List.mem_singleton, exists_eq_left, iff_self_and]
    unfold HRRECT.has
    omega
  · rw [exists_pieces _ hd]
    unfold HRRECT.has
    unfold HRRECT.Empty at hc
    dsimp only
    omega

/-- A fragment is cut into fragments. -/
lemma pieces_not_empty (hc : ¬ c.Empty) (hf : ¬ f.Empty) : ∀ g ∈ pieces c f, ¬ g.Empty := by
  by_cases hd : f.x0 ≥ c.x1 ∨ f.x1 ≤ c.x0 ∨ f.y0 ≥ c.y1 ∨ f.y1 ≤ c.y0
  · rw [pieces, if_pos hd]
    intro g hg
    rw [List.mem_singleton.mp hg]
    exact hf
  · intro g hg hge
    have h := (exists_pieces HRRECT.Empty hd).mp ⟨g, hg, hge⟩
    unfold HRRECT.Empty at h hf hc
    dsimp only at h
    omega

/-! ### The worklist -/

/-- Storing fails only where the fragments are too many. -/
lemma foldlM_store (l nw : List HRRECT) :
    l.foldlM store nw = if l.length = 0 ∨ nw.length + l.length ≤ FRAGMAX then some (nw ++ l)
      else none := by
  induction l generalizing nw with
  | nil => rw [if_pos (.inl rfl), List.append_nil]; rfl
  | cons f l ih =>
    rw [List.foldlM_cons, store]
    by_cases h : nw.length ≥ FRAGMAX
    · rw [if_pos h, if_neg (by rw [List.length_cons]; omega)]
      rfl
    · rw [if_neg h]
      change l.foldlM store (nw ++ [f]) = _
      rw [ih, List.append_assoc, List.length_append, List.length_singleton, List.length_cons]
      have hiff : (l.length = 0 ∨ nw.length + 1 + l.length ≤ FRAGMAX) ↔
          (l.length + 1 = 0 ∨ nw.length + (l.length + 1) ≤ FRAGMAX) := by omega
      by_cases h' : l.length = 0 ∨ nw.length + 1 + l.length ≤ FRAGMAX
      · rw [if_pos h', if_pos (hiff.mp h')]
        rfl
      · rw [if_neg h', if_neg fun h'' => h' (hiff.mpr h'')]

/-- The fragments that are left behind the rectangles of `o`, were there room for any number. -/
def fragments (wk : List HRRECT) : List HRRECT → List HRRECT
  | [] => wk
  | c :: o => fragments (if c.Empty then wk else wk.flatMap (pieces c)) o

/-- The fragments have the pixels that no rectangle covers. -/
lemma fragments_has : (∃ g ∈ fragments wk o, g.has q) ↔
    (∃ g ∈ wk, g.has q) ∧ ∀ c ∈ o, ¬ c.has q := by
  induction o generalizing wk with
  | nil => simp [fragments]
  | cons c o ih =>
    rw [fragments, ih, List.forall_mem_cons, ← and_assoc]
    refine and_congr_left fun _ => ?_
    by_cases hc : c.Empty
    · rw [if_pos hc]
      exact (and_iff_left fun h => not_empty_of_has h hc).symm
    · rw [if_neg hc]
      constructor
      · rintro ⟨g, hg, hq⟩
        obtain ⟨f, hf, hgf⟩ := List.mem_flatMap.mp hg
        obtain ⟨h1, h2⟩ := (pieces_has hc).mp ⟨g, hgf, hq⟩
        exact ⟨⟨f, hf, h1⟩, h2⟩
      · rintro ⟨⟨f, hf, h1⟩, h2⟩
        obtain ⟨g, hg, hq⟩ := (pieces_has hc).mpr ⟨h1, h2⟩
        exact ⟨g, List.mem_flatMap.mpr ⟨f, hf, hg⟩, hq⟩

lemma fragments_not_empty (h : ∀ g ∈ wk, ¬ g.Empty) : ∀ g ∈ fragments wk o, ¬ g.Empty := by
  induction o generalizing wk with
  | nil => exact h
  | cons c o ih =>
    rw [fragments]
    refine ih ?_
    by_cases hc : c.Empty
    · rw [if_pos hc]
      exact h
    · rw [if_neg hc]
      intro g hg
      obtain ⟨f, hf, hgf⟩ := List.mem_flatMap.mp hg
      exact pieces_not_empty hc (h f hf) g hgf

/-- The loop is left with 1 only without fragments. -/
lemma rcoveredLoop_sound (h : rcoveredLoop o wk = true) : fragments wk o = [] := by
  induction o generalizing wk with
  | nil => exact List.isEmpty_iff.mp h
  | cons c o ih =>
    rw [rcoveredLoop] at h
    rw [fragments]
    by_cases hwk : wk = []
    · rw [hwk, List.flatMap_nil, ite_self]
      clear ih h
      induction o with
      | nil => rfl
      | cons d o ih =>
        rw [fragments, List.flatMap_nil, ite_self]
        exact ih
    · rw [if_neg hwk] at h
      by_cases hc : c.Empty
      · rw [if_pos hc] at h ⊢
        exact ih h
      · rw [if_neg hc] at h ⊢
        rw [foldlM_store] at h
        split_ifs at h with hroom
        · exact ih h

/-- Without overflow, it is left with 1 where there are no fragments. -/
lemma rcoveredLoop_complete (h : fragments wk o = [])
    (hroom : ∀ k, (fragments wk (o.take k)).length ≤ FRAGMAX) : rcoveredLoop o wk = true := by
  induction o generalizing wk with
  | nil => exact List.isEmpty_iff.mpr h
  | cons c o ih =>
    rw [rcoveredLoop]
    by_cases hwk : wk = []
    · rw [if_pos hwk]
    rw [if_neg hwk]
    have hroom' : ∀ k, (fragments (if c.Empty then wk else wk.flatMap (pieces c))
        (o.take k)).length ≤ FRAGMAX := fun k => hroom (k + 1)
    rw [fragments] at h
    by_cases hc : c.Empty
    · rw [if_pos hc] at h hroom' ⊢
      exact ih h hroom'
    · rw [if_neg hc] at h hroom' ⊢
      rw [foldlM_store, List.nil_append, List.length_nil, Nat.zero_add,
        if_pos (.inr (hroom' 0))]
      exact ih h hroom'

lemma rcovered_sound (h : cl_rcovered r o = true) (hq : r.has q) : ∃ c ∈ o, c.has q := by
  by_contra hnone
  push Not at hnone
  have hleft := (@fragments_has o [r] q).mpr ⟨⟨r, List.mem_cons_self, hq⟩, hnone⟩
  rw [rcoveredLoop_sound h] at hleft
  obtain ⟨g, hg, _⟩ := hleft
  cases hg

lemma rcovered_complete (hr : ¬ r.Empty) (hcov : ∀ q, r.has q → ∃ c ∈ o, c.has q)
    (hroom : ∀ k, (fragments [r] (o.take k)).length ≤ FRAGMAX) : cl_rcovered r o = true := by
  refine rcoveredLoop_complete ?_ hroom
  by_contra hne
  obtain ⟨g, hg⟩ := List.exists_mem_of_ne_nil _ hne
  obtain ⟨q, hq⟩ := exists_has (fragments_not_empty (by simpa using hr) g hg)
  obtain ⟨⟨_, hr', hq'⟩, hnone⟩ := fragments_has.mp ⟨g, hg, hq⟩
  rw [List.mem_singleton.mp hr'] at hq'
  obtain ⟨c, hc, hcq⟩ := hcov q hq'
  exact hnone c hc hcq

/-! ### The snapshot -/

/-- The pixels of a window that are visible. -/
def Surf.shows (S : Surf) (q : Pixel) : Prop := S.mapped = true ∧ ∃ r ∈ S.vis, r.has q

/-- The calls of a client that look at the clip, with the surface that `cl_sync` copies. -/
inductive Call where
  | snapclip (S : Surf)
  | uncovered (S : Surf)

def Call.run (s : Snap) : Call → Snap
  | .snapclip S => cl_snapclip S s
  | .uncovered _ => s

/-- The surface of the last `cl_snapclip`. -/
def lastSnap (calls : List Call) : Option Surf :=
  calls.foldl (fun last c => match c with
    | .snapclip S => some S
    | .uncovered _ => last) none

/-- What was recorded is what was visible then. -/
lemma snap_run (calls : List Call) :
    let s := calls.foldl Call.run Snap.init
    (s.snapvalid = true → (lastSnap calls).isSome) ∧
      ∀ S ∈ lastSnap calls, ∀ q, (∃ r ∈ s.snapvis, r.has q) → S.shows q := by
  induction calls using List.reverseRecOn with
  | nil => exact ⟨fun h => absurd h (by decide), fun S hS => by cases hS⟩
  | append_singleton calls c ih =>
    dsimp only at ih ⊢
    unfold lastSnap at ih ⊢
    rw [List.foldl_append, List.foldl_append]
    cases c with
    | snapclip S =>
      refine ⟨fun _ => rfl, fun S' hS' q hq => ?_⟩
      obtain rfl : S = S' := Option.some.inj hS'
      change ∃ r ∈ (if S.mapped = true then S.vis else []), r.has q at hq
      by_cases hm : S.mapped = true
      · rw [if_pos hm] at hq
        exact ⟨hm, hq⟩
      · rw [if_neg hm] at hq
        obtain ⟨r, hr, _⟩ := hq
        cases hr
    | uncovered S => exact ih

/-- **The coverage test.** It answers 1 only for what is covered, and for a rectangle that has
pixels it does so whenever the fragments have room. A client for which `cl_uncovered` answers 0 in
any run of its calls sees no pixel now that it did not see at its last `cl_snapclip`. -/
theorem coverage :
    (∀ r o, cl_rcovered r o = true → ∀ q, r.has q → ∃ c ∈ o, c.has q) ∧
    (∀ r o, ¬ r.Empty → (∀ q, r.has q → ∃ c ∈ o, c.has q) →
      (∀ k, (fragments [r] (o.take k)).length ≤ FRAGMAX) → cl_rcovered r o = true) ∧
    ∀ calls S, cl_uncovered S (calls.foldl Call.run Snap.init) = false →
      ∀ q, S.shows q → ∃ S₀ ∈ lastSnap calls, S₀.shows q := by
  refine ⟨fun r o h q => rcovered_sound h, fun r o => rcovered_complete, fun calls S h q hq => ?_⟩
  obtain ⟨hvalid, hsnap⟩ := snap_run calls
  generalize calls.foldl Call.run Snap.init = s at h hvalid hsnap
  obtain ⟨hm, r, hr, hrq⟩ := hq
  rw [cl_uncovered, hm] at h
  cases hv : s.snapvalid with
  | false =>
    rw [hv] at h
    cases h
  | true =>
    obtain ⟨S₀, hS₀⟩ := Option.isSome_iff_exists.mp (hvalid hv)
    rw [hv, if_neg (by decide), if_neg (by decide), List.any_eq_false] at h
    have hcov := h r hr
    rw [decide_eq_false (not_empty_of_has hrq)] at hcov
    refine ⟨S₀, hS₀, hsnap S₀ hS₀ q (rcovered_sound (r := r) (by simpa using hcov) hrq)⟩

/-- A rectangle without pixels is not found covered by none. -/
theorem not_covered_empty : ¬ ∀ r o, (∀ q, r.has q → ∃ c ∈ o, c.has q) →
    (∀ k, (fragments [r] (o.take k)).length ≤ FRAGMAX) → cl_rcovered r o = true := by
  intro h
  refine absurd (h ⟨0, 0, 0, 0⟩ [] (fun q hq => ?_) fun k => ?_) (by decide)
  · exact absurd hq.2.1 (not_lt.mpr hq.1)
  · rw [List.take_nil]
    decide

end Coherent.Clgfx
