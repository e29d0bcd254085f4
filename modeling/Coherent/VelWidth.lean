import Coherent.VelBack

/-!
How long the lines of a drawing file are.

Every object but a polyline has a line that fits into the line buffers with room to spare. The
line of a polyline is as long as its numbers are.
-/

namespace Coherent.Vellum

open Lib

variable {lib : List SYMDEF} {ws : List (List Char)} {h : Head} {a : Seen} {l v : List Char}

/-- The number of characters `%d` prints. -/
def declen (x : ℤ) : ℕ := (if x < 0 then 1 else 0) + (Nat.log 10 x.natAbs + 1)

lemma length_dec {x : ℤ} (hx : x.natAbs < 10 ^ 10) : (dec x).length = declen x := by
  rw [dec, declen, List.length_append, List.length_map,
    Words.length_numeral (k := 9) (by decide) hx]
  split <;> rfl

lemma Short.length_dec {x : ℤ} (hx : Short x) : (dec x).length = declen x := by
  unfold Short at hx
  exact Vellum.length_dec (by omega)

lemma length_dec_le (x : ℤ) : (dec x).length ≤ 11 := by
  have key : ∀ k m, (Words.numeral 10 k m).length ≤ k := by
    intro k
    induction k with
    | zero => intro m; simp [Words.numeral]
    | succ k ih =>
      intro m
      rw [Words.numeral]
      split
      · simp
      · rw [List.length_append, List.length_singleton]
        have := ih (m / 10)
        omega
  have := key 10 x.natAbs
  unfold dec
  split <;> simp <;> omega

lemma length_sp (ws : List (List Char)) : (sp ws).length = (ws.map fun w => 1 + w.length).sum := by
  induction ws with
  | nil => rfl
  | cons w ws ih =>
    rw [sp, Words.spaced_cons, List.length_cons, List.length_append, List.map_cons, List.sum_cons,
      ← ih, sp]
    omega

/-- The length of `" /flags.layer"`. -/
def attrwidth (o : Head) : ℕ :=
  if o.o_flags ≠ 0 ∨ o.o_layer ≠ 0 then 3 + declen o.o_flags + declen o.o_layer else 0

/-- The length of the line of a polyline. -/
def polywidth (a : Seen) : ℕ :=
  2 + declen a.o_sym + (a.pts.map fun x => 1 + declen x).sum + attrwidth a.toHead

lemma length_attrcat (hf : h.o_flags < 256) (hl : h.o_layer < 4) :
    (attrcat h).length = attrwidth h := by
  unfold attrcat attrwidth
  split_ifs
  · rw [length_sp, Nat.mod_eq_of_lt hf]
    simp only [List.map_cons, List.map_nil, List.sum_cons, List.sum_nil, List.length_append,
      List.length_cons]
    rw [length_dec (by omega), length_dec (by omega)]
    omega
  · rfl

lemma length_attrcat_le (h : Head) : (attrcat h).length ≤ 25 := by
  unfold attrcat
  split_ifs
  · rw [length_sp]
    simp only [List.map_cons, List.map_nil, List.sum_cons, List.sum_nil, List.length_append,
      List.length_cons]
    have h1 := length_dec_le (h.o_flags % 256 : ℕ)
    have h2 := length_dec_le h.o_layer
    omega
  · simp

lemma length_dash {k : ℕ} (hv : Field k v) (hk : 0 < k) : (dash v).length ≤ k := by
  unfold dash
  split_ifs with h0
  · exact hk
  · exact (hv.resolve_left h0).2.2.1

lemma length_endtext_le (h : Head) (e : Bool) : (endtext h e).length ≤ 24 := by
  unfold endtext
  by_cases h0 : 0 ≤ ACOBJ h e
  · have h1 := length_dec_le (if e then h.o_x2 else h.o_x)
    have h2 := length_dec_le (if e then h.o_y2 else h.o_y)
    rw [if_pos h0]
    simp only [List.length_cons, List.length_append]
    omega
  · rw [if_neg h0]
    decide

/-- What stands in the place of the first end of a connector. -/
lemma length_firstend (v w : List Char) :
    (if v.length < 14 then v else v ++ w).length ≤ v.length + w.length := by
  split_ifs
  · omega
  · rw [List.length_append]

lemma length_csname (i : ℕ) : (csname[i]?.getD []).length ≤ 6 := by
  rcases Nat.lt_or_ge i 4 with hi | hi
  · have key : ∀ j < 4, (csname[j]?.getD []).length ≤ 6 := by decide
    exact key i hi
  · rw [List.getElem?_eq_none hi]
    simp

lemma length_shname (i : ℕ) : (shname[i]?.getD []).length ≤ 7 := by
  rcases Nat.lt_or_ge i 9 with hi | hi
  · have key : ∀ j < 9, (shname[j]?.getD []).length ≤ 7 := by decide
    exact key i hi
  · rw [List.getElem?_eq_none hi]
    simp

/-- Words and attributes, and what stands behind them. -/
lemma length_words (c : Char) (ws : List (List Char)) (h : Head) :
    ((c :: sp ws) ++ attrcat h).length
      = 1 + (ws.map fun w => 1 + w.length).sum + (attrcat h).length := by
  rw [List.length_append, List.length_cons, length_sp]
  omega

lemma length_rest_le (hv : v.length < 40) : (if v = [] then [] else ' ' :: v).length ≤ 40 := by
  split_ifs
  · simp
  · exact hv

/-- A line of words with a text of at most 40 characters behind it. -/
lemma words_lt (c : Char) (h : Head) (hw : (ws.map fun w => 1 + w.length).sum ≤ 150)
    (hv : v.length ≤ 40) : (((c :: sp ws) ++ attrcat h) ++ v).length < LBUF := by
  have := length_attrcat_le h
  rw [List.length_append, length_words]
  unfold LBUF
  omega

/-- A line of words. -/
lemma words_lt' (c : Char) (h : Head) (hw : (ws.map fun w => 1 + w.length).sum ≤ 150) :
    ((c :: sp ws) ++ attrcat h).length < LBUF := by
  have := words_lt c h hw (v := []) (by simp)
  rwa [List.append_nil] at this

/-- **The polyline's line** has the length of its numbers. -/
theorem poly_length (ha : Canon lib a) (hk : a.o_type = .POLY) (hl : fmtobj lib a = some l) :
    l.length = polywidth a := by
  cases ha with
  | @poly np b fl la g ps h2 h20 hlen hs hf hla =>
    have h20' : np ≤ 20 := h20
    have hpts : ps.map (fun x => 1 + (dec x).length) = ps.map fun x => 1 + declen x :=
      List.map_congr_left fun x hx => by rw [(hs x hx).length_dec]
    have hnp : (dec np).length = declen np := length_dec (by omega)
    simp only [fmtobj, Option.some.injEq] at hl
    rw [← hl, length_words, length_attrcat hf hla, List.map_cons, List.sum_cons, List.map_map]
    change 1 + (1 + (dec np).length + (ps.map fun x => 1 + (dec x).length).sum) + _
      = 2 + declen np + (ps.map fun x => 1 + declen x).sum + _
    rw [hpts, hnp]
    dsimp only
    omega
  | two ht => exact absurd hk (twoPoints_ne ht).2.1
  | sym | text | shape | conn | arc | nname | dim => cases hk

/-- **Every other line fits into the buffers.** -/
theorem other_length (ha : Canon lib a) (hk : a.o_type ≠ .POLY) (hl : fmtobj lib a = some l) :
    l.length < LBUF := by
  have hd := length_dec_le
  cases ha with
  | poly => exact absurd rfl hk
  | @two t c fl la g x y x2 y2 ht hx hy hx2 hy2 hf hla =>
    obtain ⟨-, -, -, -, hfmt⟩ := twoPoints_facts lib ht
    rw [hfmt _ rfl, Option.some.injEq] at hl
    rw [← hl, line4]
    refine words_lt' _ _ ?_
    simp only [List.map_cons, List.map_nil, List.sum_cons, List.sum_nil]
    linarith only [hd x, hd y, hd x2, hd y2]
  | @sym s i rot mir fl la g x y name val hs hi hx hy hr hm hn hv hf hla =>
    simp only [fmtobj, Option.some.injEq, hs, Option.map_some, Option.getD_some] at hl
    rw [← hl]
    refine words_lt' _ _ ?_
    simp only [List.map_cons, List.map_nil, List.sum_cons, List.sum_nil]
    have hname := length_dash hn (by decide)
    have hval := length_dash hv (by decide)
    linarith only [hd x, hd y, hd rot, hd mir, hname, hval, s.short]
  | @text rot fl la g x y v hx hy hr hv hne hf hla =>
    simp only [fmtobj, Option.some.injEq] at hl
    rw [← hl]
    refine words_lt _ _ ?_ hv.len
    simp only [List.map_cons, List.map_nil, List.sum_cons, List.sum_nil, List.length_cons]
    linarith only [hd x, hd y, hd rot]
  | @shape i fl la g x y x2 y2 v hi hx hy hx2 hy2 hv hf hla =>
    simp only [fmtobj, Option.some.injEq] at hl
    rw [← hl]
    refine words_lt _ _ ?_ (length_rest_le hv.len)
    simp only [List.map_cons, List.map_nil, List.sum_cons, List.sum_nil]
    linarith only [hd x, hd y, hd x2, hd y2, length_shname i]
  | @conn i fl la g x y x2 y2 a0 k0 a1 k1 hi hx hy hx2 hy2 hf hla =>
    simp only [fmtobj] at hl
    split at hl
    · cases hl
    · next hlt =>
      rw [Option.some.injEq] at hl
      rw [← hl]
      refine words_lt' _ _ ?_
      generalize Head.mk .CONN i _ _ x y x2 y2 fl la g _ a0 k0 a1 k1 = h at hlt ⊢
      simp only [List.map_cons, List.map_nil, List.sum_cons, List.sum_nil]
      have hab := length_firstend (endtext h false) (endtext h true)
      have he := length_endtext_le h false
      linarith only [hd x, hd y, hd x2, hd y2, length_csname i, hab, he, hlt]
  | @arc fl la g x y r a0 a1 hx hy hr h0 h1 hf hla =>
    simp only [fmtobj, Option.some.injEq] at hl
    rw [← hl]
    refine words_lt' _ _ ?_
    simp only [List.map_cons, List.map_nil, List.sum_cons, List.sum_nil]
    linarith only [hd x, hd y, hd r, hd a0, hd a1]
  | @nname g x y name hx hy hw hlen hn =>
    simp only [fmtobj, Option.some.injEq] at hl
    rw [← hl, List.length_cons, length_sp]
    simp only [List.map_cons, List.map_nil, List.sum_cons, List.sum_nil, LBUF]
    linarith only [hd x, hd y, hlen]
  | @dim fl la g x y x2 y2 v hx hy hx2 hy2 hv hf hla =>
    simp only [fmtobj, Option.some.injEq] at hl
    rw [← hl, line4]
    refine words_lt _ _ ?_ (length_rest_le hv.len)
    simp only [List.map_cons, List.map_nil, List.sum_cons, List.sum_nil]
    linarith only [hd x, hd y, hd x2, hd y2]

/-! ### Which objects fit -/

/-- The line of a polyline fits into the buffers, and the second end of a connector into its half
of `ab`. -/
structure Fitting (a : Seen) : Prop where
  poly : a.o_type = .POLY → polywidth a < LBUF
  conn : a.o_type = .CONN → 0 ≤ a.on2 → declen a.o_x2 + declen a.o_y2 ≤ 11

/-- The two ends of a connector are shorts. -/
lemma Canon.conn_short (ha : Canon lib a) (hk : a.o_type = .CONN) :
    Short a.o_x2 ∧ Short a.o_y2 := by
  cases ha with
  | conn hi hx hy hx2 hy2 => exact ⟨hx2, hy2⟩
  | two ht => exact absurd hk (twoPoints_ne ht).2.2
  | sym | text | shape | poly | arc | nname | dim => cases hk

lemma endtext_fits (ha : Canon lib a) (hk : a.o_type = .CONN) :
    (endtext a.toHead true).length < 14 ↔ (0 ≤ a.on2 → declen a.o_x2 + declen a.o_y2 ≤ 11) := by
  obtain ⟨hx, hy⟩ := ha.conn_short hk
  have hac : ACOBJ a.toHead true = a.on2 := rfl
  unfold endtext
  rw [hac]
  by_cases h0 : 0 ≤ a.on2
  · rw [if_pos h0]
    simp only [if_true, List.length_cons, List.length_append, hx.length_dec, hy.length_dec]
    constructor
    · intro h _
      omega
    · intro h
      have := h h0
      omega
  · rw [if_neg h0]
    exact ⟨fun _ h => absurd h h0, fun _ => by decide⟩

lemma endFits_iff (ha : Canon lib a) : EndFits a.toHead ↔
    (a.o_type = .CONN → 0 ≤ a.on2 → declen a.o_x2 + declen a.o_y2 ≤ 11) :=
  forall_congr' fun hk => endtext_fits ha hk

lemma endFits_of_some (h : fmtobj lib a = some l) : EndFits a.toHead := by
  intro hk
  unfold fmtobj at h
  rw [hk] at h
  simp only at h
  split at h
  · cases h
  · omega

/-- **An object is written to a line that fits** if and only if its numbers are short enough. -/
theorem fitting_iff (ha : Canon lib a) :
    Fitting a ↔ ∃ l, fmtobj lib a = some l ∧ l.length < LBUF := by
  constructor
  · intro hf
    obtain ⟨l, hl, -⟩ := canon_reads ha ((endFits_iff ha).mpr hf.conn)
    refine ⟨l, hl, ?_⟩
    by_cases hk : a.o_type = .POLY
    · rw [poly_length ha hk hl]
      exact hf.poly hk
    · exact other_length ha hk hl
  · rintro ⟨l, hl, hlen⟩
    exact ⟨fun hk => by rwa [← poly_length ha hk hl], (endFits_iff ha).mp (endFits_of_some hl)⟩

end Coherent.Vellum
