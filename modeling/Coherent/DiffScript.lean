import Coherent.DiffEd

/-!
The round trip of `diff -e`: each pass of its loop keeps that the script so far has made of the
first file the beginning of the second and the rest of its own.
-/

namespace Coherent.Diff

open Coherent.Lib Coherent.Ed

variable {J : ℕ → ℕ} {A B ls L x y z : List (List Char)} {l p q : List Char} {e : Buf}
  {a b n m t d i j k : ℕ} {o : Out} {s : St} {c : Char}

/-! ### The commands of the script -/

/-- A range in decimal. -/
def ranged (a b : ℕ) : List Char := if a = b then dec a else dec a ++ ',' :: dec b

lemma executes_change (hz : z ≠ []) (hls : ∀ l ∈ ls, Line l)
    (ht : t + uses ls ≤ ULARGE / 2 * CLSIZE)
    (hr : x.length + ls.length + y.length + 2 < 16 * LNSIZE) (hx : x.length + z.length ≤ 32767) :
    ∃ d', ∀ p, Executes ⟨x ++ z ++ y, d, t⟩
      (ranged (x.length + 1) (x.length + z.length) ++ 'c' :: '\n' :: (texts ls ++ '.' :: '\n' :: p))
      ⟨x ++ ls ++ y, d', t + uses ls⟩ p := by
  refine ⟨(x ++ ls).length, fun p => ?_⟩
  have hpos := List.length_pos_iff.mpr hz
  obtain ⟨e', p', h1, h2⟩ := readtty_texts (p := p) hls ht hr
  have hcmd := command_change (d := d) hz (range_prange (e := ⟨x ++ z ++ y, d, t⟩) (c := 'c')
    (p := '\n' :: (texts ls ++ '.' :: '\n' :: p)) (by omega) hx (by decide) (by decide) (by decide))
  rw [h1] at hcmd
  have hle := readtty_length h1
  refine (executes_command hcmd ?_).trans h2
  rw [List.length_append, List.length_cons, List.length_cons]
  omega

lemma executes_append (hls : ∀ l ∈ ls, Line l) (ht : t + uses ls ≤ ULARGE / 2 * CLSIZE)
    (hr : x.length + ls.length + y.length + 2 < 16 * LNSIZE) (hx : x.length ≤ 32767) :
    ∃ d', ∀ p, Executes ⟨x ++ y, d, t⟩
      (ranged x.length x.length ++ 'a' :: '\n' :: (texts ls ++ '.' :: '\n' :: p))
      ⟨x ++ ls ++ y, d', t + uses ls⟩ p := by
  refine ⟨(x ++ ls).length, fun p => ?_⟩
  obtain ⟨e', p', h1, h2⟩ := readtty_texts (p := p) hls ht hr
  have hcmd := command_append (y := y) (t := t) (d := d) (p := texts ls ++ '.' :: '\n' :: p)
    (number_dec hx)
  rw [h1] at hcmd
  have hle := readtty_length h1
  rw [ranged, if_pos rfl]
  refine (executes_command hcmd ?_).trans h2
  rw [List.length_append, List.length_cons, List.length_cons]
  omega

lemma executes_delete (hz : z ≠ []) (hx : x.length + z.length ≤ 32767) :
    ∃ d', ∀ p, Executes ⟨x ++ z ++ y, d, t⟩
      (ranged (x.length + 1) (x.length + z.length) ++ 'd' :: '\n' :: p) ⟨x ++ y, d', t⟩ p := by
  have hpos := List.length_pos_iff.mpr hz
  obtain ⟨d', hd⟩ := delete_eq (x := x) (y := y) (t := t) (d := d) hz
  refine ⟨d', fun p => executes_command (command_delete hd (range_prange (by omega) hx (by decide)
    (by decide) (by decide))) ?_⟩
  rw [List.length_append, List.length_cons, List.length_cons]
  omega

/-! ### One pass keeps the invariant -/

variable {s' : St} {T : List Char}

/-- The invariant after lines of the first file have been replaced by lines of the second. -/
lemma Inv.step (h : Inv J A B e s) (hi : s.i ≤ s'.i) (hi2 : s'.i ≤ A.length + 1) (hj : s.j ≤ s'.j)
    (hj2 : s'.j ≤ B.length + 1) (past : ∀ i, 1 ≤ i → i < s'.i → J i < s'.j)
    (ahead : ∀ i, s'.i ≤ i → i ≤ A.length + 1 → fenced J A.length B.length i ≠ 0 →
      s'.j ≤ fenced J A.length B.length i)
    (file1 : File A s'.i s'.line1 s'.fp1) (file2 : File B s'.j s'.line2 s'.fp2)
    (lines : s'.j - 1 + (A.length + 1 - s'.i) + 2 < 16 * LNSIZE)
    (incr : s'.out.incr = U (s'.j - s'.i)) (caflag : s'.out.caflag = false)
    (hkept : ∀ m, s.j - 1 ≤ m → m < s'.j - 1 → ¬ Kept J A B m)
    (hout : s'.out.stdout = s.out.stdout ++ T)
    (hexec : ∀ d, ∃ d', ∀ p, Executes
      ⟨B.take (s.j - 1) ++ (A.drop (s.i - 1)).take (s'.i - s.i) ++ A.drop (s'.i - 1), d,
        e.tmpseek + cost J A B (s.j - 1)⟩ (T ++ p)
      ⟨B.take (s.j - 1) ++ (B.drop (s.j - 1)).take (s'.j - s.j) ++ A.drop (s'.i - 1), d',
        e.tmpseek + cost J A B (s.j - 1) + uses ((B.drop (s.j - 1)).take (s'.j - s.j))⟩ p) :
    Inv J A B e s' := by
  have hi1 := h.i1
  have hj1 := h.j1
  refine ⟨by omega, hi2, by omega, hj2, past, ahead, file1, file2, lines, incr, caflag,
    ?_⟩
  obtain ⟨d, hd⟩ := h.script
  obtain ⟨d', hd'⟩ := hexec d
  have hcost := cost_lines (J := J) (A := A) (B := B) (j := s.j - 1) (n := s'.j - s.j)
    (fun m h1 h2 => hkept m h1 (by omega)) (by omega)
  rw [show s.j - 1 + (s'.j - s.j) = s'.j - 1 by omega] at hcost
  have hA : (A.drop (s.i - 1)).take (s'.i - s.i) ++ A.drop (s'.i - 1) = A.drop (s.i - 1) := by
    rw [show s'.i - 1 = (s.i - 1) + (s'.i - s.i) by omega, ← List.drop_drop]
    exact List.take_append_drop _ _
  have hB : B.take (s.j - 1) ++ (B.drop (s.j - 1)).take (s'.j - s.j) = B.take (s'.j - 1) := by
    rw [show s'.j - 1 = (s.j - 1) + (s'.j - s.j) by omega, List.take_add]
  refine ⟨d', fun p => ?_⟩
  have h1 := hd (T ++ p)
  have h2 := hd' p
  rw [List.append_assoc, hA, hB, Nat.add_assoc, ← hcost] at h2
  rw [hout, List.append_assoc]
  exact h1.trans h2

lemma U_congr {a b : ℤ} (h : a ≡ b [ZMOD 65536]) : U a = U b := congrArg Int.toNat h

lemma U_modEq (a : ℤ) : (U a : ℤ) ≡ a [ZMOD 65536] := by
  rw [U, Int.toNat_of_nonneg (Int.emod_nonneg a (by decide))]
  exact Int.mod_modEq a 65536

/-- The correction is what the second file is ahead. -/
lemma incr_append (i j l : ℤ) : U (U (j - i) + (U (l - 1) - U j + 1)) = U (l - i) := by
  refine U_congr ((((U_modEq _).add (((U_modEq _).sub (U_modEq _)).add_right 1))).trans ?_)
  rw [show j - i + (l - 1 - j + 1) = l - i by ring]

lemma incr_delete (i j k : ℤ) : U (U (j - i) - (U (k - 1) - U i + 1)) = U (j - k) := by
  refine U_congr ((((U_modEq _).sub (((U_modEq _).sub (U_modEq _)).add_right 1))).trans ?_)
  rw [show j - i - (k - 1 - i + 1) = j - k by ring]

lemma incr_turn (i j : ℤ) : U (U (j - i) + (U j - U j + U i - U i)) = U (j + 1 - (i + 1)) := by
  rw [sub_self, zero_add, sub_self, add_zero, U_congr (U_modEq _), add_sub_add_right_eq_sub]

lemma incr_change (i j k l : ℤ) :
    U (U (j - i) + (U (l - 1) - U j + U i - U (k - 1))) = U (l - k) := by
  refine U_congr (((U_modEq _).add ((((U_modEq _).sub (U_modEq _)).add (U_modEq _)).sub
    (U_modEq _))).trans ?_)
  rw [show j - i + (l - 1 - j + i - (k - 1)) = l - k by ring]

/-- The numbers of a range, corrected. -/
lemma corrected (hi : i ≤ 32767) (hj : 1 ≤ j) (hjk : j - 1 + (k - i) ≤ 32767) (hik : i ≤ k) :
    U (U i + U (j - i)) = j ∧ U (U (k - 1) + U (j - i)) = j - 1 + (k - i) := by
  unfold U
  constructor <;> omega

lemma corrected_append (hj : 1 ≤ j) (hjk : j - 1 ≤ 32767) : U (U (U i - 1) + U (j - i)) = j - 1 := by
  unfold U
  omega

lemma mem_drop_take (hB : ∀ l ∈ B, Line l) : ∀ l ∈ (B.drop n).take m, Line l := fun l hl =>
  hB l (List.mem_of_mem_drop (List.mem_of_mem_take hl))

/-- A hunk: a command, the lines it takes from the second file, and their end. -/
lemma Inv.hunk {l : ℕ} (hA : ∀ l ∈ A, Line l) (hB : ∀ l ∈ B, Line l) (h : Inv J A B e s)
    (hk : s.i ≤ k) (hk2 : k ≤ A.length + 1) (hl : s.j ≤ l) (hl2 : l ≤ B.length + 1)
    (past : ∀ i, 1 ≤ i → i < k → J i < l)
    (ahead : ∀ i, k ≤ i → i ≤ A.length + 1 → fenced J A.length B.length i ≠ 0 →
      l ≤ fenced J A.length B.length i)
    (lines : l - 1 + (A.length + 1 - k) + 2 < 16 * LNSIZE)
    (hkept : ∀ m, s.j - 1 ≤ m → m < l - 1 → ¬ Kept J A B m)
    (out : Out) (T : List Char) (hgt : s.i + s.j < k + l) (hc : out.caflag = false)
    (incr : out.incr = U (l - k))
    (hout : out.stdout = s.out.stdout ++ T)
    (hexec : ∀ d, ∃ d', ∀ p, Executes
      ⟨B.take (s.j - 1) ++ (A.drop (s.i - 1)).take (k - s.i) ++ A.drop (k - 1), d,
        e.tmpseek + cost J A B (s.j - 1)⟩
      (T ++ (texts ((B.drop (s.j - 1)).take (l - s.j)) ++
        (if l = s.j then [] else ['.', '\n'])) ++ p)
      ⟨B.take (s.j - 1) ++ (B.drop (s.j - 1)).take (l - s.j) ++ A.drop (k - 1), d',
        e.tmpseek + cost J A B (s.j - 1) + uses ((B.drop (s.j - 1)).take (l - s.j))⟩ p) :
    let s' := St.print2 (l - s.j) (St.skip1 (k - s.i) { s with out := out })
    Inv J A B e { s' with out := prend s'.out } ∧ s.i + s.j < s'.i + s'.j := by
  intro s'
  have hi1 := h.i1
  have hj1 := h.j1
  obtain ⟨h1, h2, h3, h4, h5, h6⟩ := skip1_spec (s := { s with out := out }) (n := k - s.i) hA
    h.file1 hi1 (by simp only; omega)
  generalize hs1 : St.skip1 (k - s.i) { s with out := out } = s1 at h1 h2 h3 h4 h5 h6
  simp only at h2 h3 h4 h5 h6
  obtain ⟨k1, k2, k3, k4, k5, k6⟩ := print2_spec (s := s1) (n := l - s.j) hB
    (by rw [h3, h4, h5]; exact h.file2) (by omega) (by omega)
  generalize hs2 : St.print2 (l - s.j) s1 = s2 at k1 k2 k3 k4 k5 k6
  have hi' : s2.i = k := by omega
  have hj' : s2.j = l := by omega
  have hincr : (prend s2.out).incr = out.incr := by
    rw [k6, h6]
    unfold prend
    split_ifs <;> rfl
  have htext : (prend s2.out).stdout = s.out.stdout ++
      (T ++ (texts ((B.drop (s.j - 1)).take (l - s.j)) ++
        if l = s.j then [] else ['.', '\n'])) := by
    rw [k6, h6, h3]
    unfold prend
    by_cases hlj : l = s.j
    · simp [Out.put, hc, hout, hlj]
    · have : l - s.j ≠ 0 := by omega
      simp [Out.put, hc, hout, hlj, this]
  have hs' : s' = s2 := by rw [← hs2, ← hs1]
  rw [hs']
  refine ⟨h.step ?_ ?_ ?_ ?_ ?_ ?_ ?_ ?_ ?_ ?_ ?_
    ?_ htext ?_, by omega⟩
  all_goals simp only [hi', hj']
  · exact hk
  · exact hk2
  · exact hl
  · exact hl2
  · exact past
  · exact ahead
  · rw [← hi', k3, k4, k5]
    exact h1
  · rw [← hj']
    exact k1
  · exact lines
  · rw [hincr, incr]
  · rfl
  · exact hkept
  · exact hexec

section
variable (hT : Table J A.length B.length) (hA : ∀ l ∈ A, Line l) (hB : ∀ l ∈ B, Line l)
  (hf : Fits J A B e.tmpseek) (h : Inv J A B e s)
include hT hA hB hf h

/-- Lines that match by the table. -/
lemma turn_match (hg : s.i ≤ A.length ∨ s.j ≤ B.length)
    (hm : s.j = fenced J A.length B.length s.i) :
    Inv J A B e (turn (fenced J A.length B.length) A.length s) ∧
      (turn (fenced J A.length B.length) A.length s).i = s.i + 1 ∧
      (turn (fenced J A.length B.length) A.length s).j = s.j + 1 := by
  have hi1 := h.i1
  have hj1 := h.j1
  have hi2 : s.i ≤ A.length := by
    by_contra hc
    rw [fenced, if_pos (by have := h.i2; omega)] at hm
    have := h.i2
    omega
  have hJ : J s.i = s.j := by rw [hm, fenced, if_neg (by omega)]
  have hj2 : s.j ≤ B.length := by
    have := hT.le s.i hi1 hi2
    omega
  have past : ∀ i, 1 ≤ i → i < s.i + 1 → J i < s.j + 1 := by
    intro i h1 h2
    obtain rfl | h3 := Nat.eq_or_lt_of_le (Nat.lt_succ_iff.mp h2)
    · omega
    · exact Nat.lt_succ_of_lt (h.past i h1 h3)
  have ahead : ∀ i, s.i + 1 ≤ i → i ≤ A.length + 1 → fenced J A.length B.length i ≠ 0 →
      s.j + 1 ≤ fenced J A.length B.length i := by
    intro i h1 h2 h3
    have := hT.fence hi1 (show s.i < i by omega) h2 (by rw [← hm]; omega) h3
    omega
  obtain ⟨hl1, -⟩ := h.file1.line hA hi1 hi2
  obtain ⟨hl2, -⟩ := h.file2.line hB hj1 hj2
  have hlt1 : s.i - 1 < A.length := by omega
  have hlt2 : s.j - 1 < B.length := by omega
  have hmemA : A.getD (s.i - 1) [] ∈ A := by
    rw [List.getD_eq_getElem _ _ hlt1]
    exact List.getElem_mem hlt1
  have hmemB : B.getD (s.j - 1) [] ∈ B := by
    rw [List.getD_eq_getElem _ _ hlt2]
    exact List.getElem_mem hlt2
  have hcstr : ∀ l, Line l → cstr (l ++ ['\n']) = l ++ ['\n'] := fun l hl =>
    cstr_eq (by simp only [List.mem_append, List.mem_singleton, not_or]; exact ⟨hl.nul, by decide⟩)
  have hequal : cstr s.line1 = cstr s.line2 ↔ A.getD (s.i - 1) [] = B.getD (s.j - 1) [] := by
    rw [hl1, hl2, hcstr _ (hA _ hmemA), hcstr _ (hB _ hmemB)]
    exact ⟨fun h => List.append_cancel_right h, fun h => by rw [h]⟩
  have hdropA : A.drop (s.i - 1) = A.getD (s.i - 1) [] :: A.drop s.i := by
    rw [List.drop_eq_getElem_cons hlt1, List.getD_eq_getElem _ _ hlt1, Nat.sub_add_cancel hi1]
  have hdropB : B.drop (s.j - 1) = B.getD (s.j - 1) [] :: B.drop s.j := by
    rw [List.drop_eq_getElem_cons hlt2, List.getD_eq_getElem _ _ hlt2, Nat.sub_add_cancel hj1]
  unfold turn
  rw [if_pos hm]
  by_cases heq : A.getD (s.i - 1) [] = B.getD (s.j - 1) []
  · -- equal lines stay
    rw [if_pos (hequal.mpr heq)]
    simp only
    obtain ⟨h1, h2, h3, h4, h5, h6⟩ := next1_spec hA h.file1 hi1 hi2
    obtain ⟨k1, k2, k3, k4, k5, k6⟩ := next2_spec (s := s.next1) hB
      (by rw [h3, h4, h5]; exact h.file2) (by omega) (by omega)
    have hkept : Kept J A B (s.j - 1) := ⟨s.i - 1, hlt1, by rw [Nat.sub_add_cancel hi1]; omega, heq⟩
    have hcost : cost J A B s.j = cost J A B (s.j - 1) := by
      obtain ⟨m, hm⟩ : ∃ m, s.j = m + 1 := ⟨s.j - 1, by omega⟩
      rw [hm] at hkept ⊢
      rw [Nat.add_sub_cancel] at hkept ⊢
      rw [cost, Finset.sum_range_succ, if_pos hkept]
      rfl
    have hi' : s.next1.next2.i = s.i + 1 := k3.trans h2
    have hj' : s.next1.next2.j = s.j + 1 := k2.trans (by rw [h3])
    have hout : s.next1.next2.out = s.out := k6.trans h6
    refine ⟨⟨by omega, by omega, by omega, by omega, by rw [hi', hj']; exact past,
      by rw [hi', hj']; exact ahead, by rw [k3, k4, k5]; exact h1, k1,
      by have := h.lines; rw [hi', hj']; omega, ?_, by rw [hout, h.caflag], ?_⟩, hi', hj'⟩
    · rw [hout, h.incr, hi', hj']
      push_cast
      rw [add_sub_add_right_eq_sub]
    · obtain ⟨d, hd⟩ := h.script
      refine ⟨d, fun p => ?_⟩
      have hbuf : B.take s.j ++ A.drop s.i = B.take (s.j - 1) ++ A.drop (s.i - 1) := by
        have htake : B.take s.j = B.take (s.j - 1) ++ [B.getD (s.j - 1) []] := by
          conv_lhs => rw [show s.j = s.j - 1 + 1 by omega]
          rw [List.take_add_one, List.getElem?_eq_getElem hlt2, List.getD_eq_getElem _ _ hlt2]
          rfl
        rw [hdropA, htake, heq]
        simp
      rw [hout, hi', hj', Nat.add_sub_cancel, Nat.add_sub_cancel, hcost, hbuf]
      exact hd p
  · -- one line is changed
    rw [if_neg (mt hequal.mp heq)]
    simp only
    have hlines := hf.lines s.i hi1 (by omega) (by rw [← hm]; omega)
    rw [← hm] at hlines
    have hfirst := hf.first
    simp only [LNSIZE] at hlines hfirst
    generalize hs1 : ({ s with out := prend (text2 s.line2 (change (U s.i) (U s.i) (U s.j) (U s.j)
      s.out)) } : St) = s1
    have e1 : s1.i = s.i := by rw [← hs1]
    have e2 : s1.j = s.j := by rw [← hs1]
    have e3 : s1.line1 = s.line1 := by rw [← hs1]
    have e4 : s1.line2 = s.line2 := by rw [← hs1]
    have e5 : s1.fp1 = s.fp1 := by rw [← hs1]
    have e6 : s1.fp2 = s.fp2 := by rw [← hs1]
    have e7 : s1.out = prend (text2 s.line2 (change (U s.i) (U s.i) (U s.j) (U s.j) s.out)) := by
      rw [← hs1]
    obtain ⟨h1, h2, h3, h4, h5, h6⟩ := next1_spec (s := s1) hA (by rw [e1, e3, e5]; exact h.file1)
      (by omega) (by omega)
    obtain ⟨k1, k2, k3, k4, k5, k6⟩ := next2_spec (s := s1.next1) hB
      (by rw [h3, h4, h5, e2, e4, e6]; exact h.file2) (by omega) (by omega)
    have hi' : s1.next1.next2.i = s.i + 1 := by rw [k3, h2, e1]
    have hj' : s1.next1.next2.j = s.j + 1 := by rw [k2, h3, e2]
    have hout : s1.next1.next2.out = _ := k6.trans (h6.trans e7)
    have hkept : ∀ m, m + 1 = s.j → ¬ Kept J A B m := by
      rintro m hme ⟨i, h9, h10, h11⟩
      obtain hlt | he | hgt := lt_trichotomy (i + 1) s.i
      · have := h.past (i + 1) (by omega) hlt
        omega
      · rw [show i = s.i - 1 by omega, show m = s.j - 1 by omega] at h11
        exact heq h11
      · have := hT.lt s.i (i + 1) hi1 hgt (by omega) (by omega) (by omega)
        omega
    refine ⟨h.step
      (T := ranged s.j s.j ++ 'c' :: '\n' :: (texts [B.getD (s.j - 1) []] ++ ['.', '\n']))
      (by omega) (by omega) (by omega) (by omega) (by rw [hi', hj']; exact past)
      (by rw [hi', hj']; exact ahead) (by rw [k3, k4, k5]; exact h1) k1
      (by have := h.lines; rw [hi', hj']; omega) ?_ ?_ ?_ ?_ ?_, hi', hj'⟩
    · rw [hout, hi', hj']
      simp only [prend, text2, change, prange, Out.put, h.incr]
      exact incr_turn _ _
    · rw [hout]
      rfl
    · intro m h7 h8
      rw [hj', Nat.add_sub_cancel] at h8
      exact hkept m (by omega)
    · rw [hout, hl2, text2_eq (hB _ hmemB)]
      have hnum : U (U s.i + s.out.incr) = s.j := by
        rw [h.incr]
        exact (corrected (k := s.i) (by omega) hj1 (by omega) (le_refl _)).1
      simp [prend, change, prange, Out.put, hnum, ranged]
    · intro d
      rw [hi', hj', Nat.add_sub_cancel_left, Nat.add_sub_cancel_left, Nat.add_sub_cancel, hdropA,
        hdropB]
      have hxl : (B.take (s.j - 1)).length = s.j - 1 := by rw [List.length_take]; omega
      have hcost : cost J A B (s.j - 1) + uses [B.getD (s.j - 1) []] ≤ cost J A B B.length := by
        have hk := cost_lines (J := J) (A := A) (B := B) (j := s.j - 1) (n := 1)
          (fun m h7 h8 => hkept m (by omega)) (by omega)
        rw [hdropB] at hk
        have := cost_mono (J := J) (A := A) (B := B) (show s.j - 1 + 1 ≤ B.length by omega)
        simpa [hk] using this
      have htemp := hf.temp
      have hls : ∀ l ∈ [B.getD (s.j - 1) []], Line l := by simpa using hB _ hmemB
      obtain ⟨d', hd'⟩ := executes_change (x := B.take (s.j - 1)) (z := [A.getD (s.i - 1) []])
        (y := A.drop s.i) (d := d) (t := e.tmpseek + cost J A B (s.j - 1)) (by simp) hls (by omega)
        (by simp only [hxl, List.length_singleton, List.length_drop, LNSIZE]; omega)
        (by rw [hxl]; simp; omega)
      refine ⟨d', fun p => ?_⟩
      have := hd' p
      rw [hxl, List.length_singleton, Nat.sub_add_cancel hj1] at this
      simpa using this

/-- Lines that do not match by the table, up to the next that do. -/
lemma turn_hunk (hm : s.j ≠ fenced J A.length B.length s.i) :
    Inv J A B e (turn (fenced J A.length B.length) A.length s) ∧
      s.i + s.j < (turn (fenced J A.length B.length) A.length s).i +
        (turn (fenced J A.length B.length) A.length s).j := by
  have hi1 := h.i1
  have hi2 := h.i2
  have hj1 := h.j1
  have hj2 := h.j2
  have hroom := h.lines
  have hfence : fenced J A.length B.length (A.length + 1) = B.length + 1 := if_pos rfl
  have hsum : s.i + (A.length + 1 - s.i) = A.length + 1 := by omega
  obtain ⟨hk1, hk2, hk3, hk4⟩ := scan_spec (J := fenced J A.length B.length) (A.length + 1 - s.i)
    s.i (by rw [hsum, hfence]; omega)
  unfold turn
  rw [if_neg hm]
  generalize hk : scan (fenced J A.length B.length) (A.length + 1 - s.i) s.i = k at hk1 hk2 hk3 hk4
  rw [hsum] at hk2
  simp only
  have hl := h.ahead k hk1 hk2 hk3
  have hlines := hf.lines k (by omega) hk2 hk3
  have hl2 : fenced J A.length B.length k ≤ B.length + 1 := by
    unfold fenced
    split_ifs with hc
    · exact le_refl _
    · exact (hT.le k (by omega) (by omega)).trans (by omega)
  have past : ∀ i, 1 ≤ i → i < k → J i < fenced J A.length B.length k := by
    intro i h1 h2
    obtain h3 | h3 := Nat.lt_or_ge i s.i
    · exact (h.past i h1 h3).trans_le hl
    · have h4 := hk4 i h3 h2
      rw [fenced, if_neg (by omega)] at h4
      omega
  have ahead : ∀ i, k ≤ i → i ≤ A.length + 1 → fenced J A.length B.length i ≠ 0 →
      fenced J A.length B.length k ≤ fenced J A.length B.length i := by
    intro i h1 h2 h3
    obtain rfl | h4 := Nat.eq_or_lt_of_le h1
    · exact le_refl _
    · exact (hT.fence (by omega) h4 h2 hk3 h3).le
  have hkept : ∀ m, s.j - 1 ≤ m → m < fenced J A.length B.length k - 1 → ¬ Kept J A B m := by
    intro m h1 h2 ⟨i, h3, h4, _⟩
    obtain h5 | h5 := Nat.lt_or_ge (i + 1) k
    · obtain h6 | h6 := Nat.lt_or_ge (i + 1) s.i
      · have := h.past (i + 1) (by omega) h6
        omega
      · have := hk4 (i + 1) h6 h5
        rw [fenced, if_neg (by omega)] at this
        omega
    · have := ahead (i + 1) h5 (by omega) (by rw [fenced, if_neg (by omega)]; omega)
      rw [show fenced J A.length B.length (i + 1) = J (i + 1) from if_neg (by omega)] at this
      omega
  have finish := h.hunk hA hB hk1 hk2 hl hl2 past ahead hlines hkept
  generalize hl0 : fenced J A.length B.length k = l at *
  have hfirst := hf.first
  simp only [LNSIZE] at hfirst hroom hlines
  have hx : (B.take (s.j - 1)).length = s.j - 1 := by rw [List.length_take]; omega
  have hz : ((A.drop (s.i - 1)).take (k - s.i)).length = k - s.i := by
    rw [List.length_take, List.length_drop]
    omega
  have hls : ((B.drop (s.j - 1)).take (l - s.j)).length = l - s.j := by
    rw [List.length_take, List.length_drop]
    omega
  have hy : (A.drop (k - 1)).length = A.length + 1 - k := by
    rw [List.length_drop]
    omega
  have htemp : e.tmpseek + cost J A B (s.j - 1) + uses ((B.drop (s.j - 1)).take (l - s.j)) ≤
      ULARGE / 2 * CLSIZE := by
    have h1 := cost_lines (J := J) (A := A) (B := B) (j := s.j - 1) (n := l - s.j)
      (fun m h1 h2 => hkept m h1 (by omega)) (by omega)
    have h2 := cost_mono (J := J) (A := A) (B := B) (show s.j - 1 + (l - s.j) ≤ B.length by omega)
    have h3 := hf.temp
    omega
  have hroom' : (B.take (s.j - 1)).length + ((B.drop (s.j - 1)).take (l - s.j)).length +
      (A.drop (k - 1)).length + 2 < 16 * LNSIZE := by
    rw [hx, hls, hy]
    simp only [LNSIZE]
    omega
  by_cases hik : s.i = k
  · -- lines are appended
    have hlj : l ≠ s.j := by
      rintro rfl
      exact hm (by rw [hik, hl0])
    rw [if_pos hik]
    refine finish (append (U s.i) (U s.j) (U (l - 1)) s.out)
      (ranged (s.j - 1) (s.j - 1) ++ ['a', '\n']) (by omega) h.caflag ?_ ?_ ?_
    · simp only [append, prange, Out.put, h.incr]
      rw [incr_append, hik]
    · have hnum : U (U (U s.i - 1) + s.out.incr) = s.j - 1 := by
        rw [h.incr]
        exact corrected_append hj1 (by omega)
      simp [append, prange, Out.put, hnum, ranged]
    · intro d
      obtain ⟨d', hd'⟩ := executes_append (x := B.take (s.j - 1)) (d := d) (mem_drop_take hB) htemp
        hroom' (by rw [hx]; omega)
      refine ⟨d', fun p => ?_⟩
      have := hd' p
      rw [hx] at this
      have hnil : (A.drop (s.i - 1)).take (k - s.i) = [] := by simp [hik]
      rw [if_neg hlj, hnil, List.append_nil]
      simpa using this
  · rw [if_neg hik]
    have hne : (A.drop (s.i - 1)).take (k - s.i) ≠ [] := by
      rw [← List.length_pos_iff, hz]
      omega
    obtain ⟨hnum, hnum'⟩ := corrected (show s.i ≤ 32767 by omega) hj1
      (show s.j - 1 + (k - s.i) ≤ 32767 by omega) hk1
    rw [← h.incr] at hnum hnum'
    by_cases hjl : s.j = l
    · -- lines are deleted
      rw [if_pos hjl]
      refine finish (delete (U s.i) (U (k - 1)) s.out)
        (ranged s.j (s.j - 1 + (k - s.i)) ++ ['d', '\n']) (by omega) h.caflag ?_ ?_ ?_
      · simp only [delete, prange, Out.put, h.incr]
        rw [incr_delete, hjl]
      · simp [delete, prange, Out.put, hnum, hnum', ranged]
      · intro d
        obtain ⟨d', hd'⟩ := executes_delete (x := B.take (s.j - 1)) (y := A.drop (k - 1)) (d := d)
          (t := e.tmpseek + cost J A B (s.j - 1)) hne (by rw [hx, hz]; omega)
        refine ⟨d', fun p => ?_⟩
        have := hd' p
        rw [hx, hz, Nat.sub_add_cancel hj1] at this
        have hnil : (B.drop (s.j - 1)).take (l - s.j) = [] := by simp [hjl]
        rw [if_pos hjl.symm, hnil]
        simpa [texts, uses] using this
    · -- lines are changed
      rw [if_neg hjl]
      refine finish (change (U s.i) (U (k - 1)) (U s.j) (U (l - 1)) s.out)
        (ranged s.j (s.j - 1 + (k - s.i)) ++ ['c', '\n']) (by omega) h.caflag ?_ ?_ ?_
      · simp only [change, prange, Out.put, h.incr]
        exact incr_change _ _ _ _
      · simp [change, prange, Out.put, hnum, hnum', ranged]
      · intro d
        obtain ⟨d', hd'⟩ := executes_change (d := d) hne (mem_drop_take hB) htemp hroom'
          (by rw [hx, hz]; omega)
        refine ⟨d', fun p => ?_⟩
        have := hd' p
        rw [hx, hz, Nat.sub_add_cancel hj1] at this
        rw [if_neg (Ne.symm hjl)]
        simpa using this

/-- One pass of the loop keeps the invariant and comes nearer to the ends of the files. -/
lemma turn_inv (hg : s.i ≤ A.length ∨ s.j ≤ B.length) :
    Inv J A B e (turn (fenced J A.length B.length) A.length s) ∧
      s.i + s.j < (turn (fenced J A.length B.length) A.length s).i +
        (turn (fenced J A.length B.length) A.length s).j := by
  by_cases hm : s.j = fenced J A.length B.length s.i
  · obtain ⟨h1, h2, h3⟩ := turn_match hT hA hB hf h hg hm
    exact ⟨h1, by omega⟩
  · exact turn_hunk hT hA hB hf h hm

/-- The loop ends, behind the last lines. -/
lemma loop_inv (hn : A.length + B.length + 2 ≤ s.i + s.j + n) :
    ∃ s', loop (fenced J A.length B.length) A.length B.length n s = s' ∧ Inv J A B e s' ∧
      s'.i = A.length + 1 ∧ s'.j = B.length + 1 := by
  induction n generalizing s with
  | zero =>
    have h1 := h.i2
    have h2 := h.j2
    exact ⟨s, rfl, h, by omega, by omega⟩
  | succ n ih =>
    rw [loop]
    by_cases hg : s.i ≤ A.length ∨ s.j ≤ B.length
    · rw [if_pos hg]
      obtain ⟨h1, h2⟩ := turn_inv hT hA hB hf h hg
      exact ih h1 (by omega)
    · rw [if_neg hg]
      have h1 := h.i2
      have h2 := h.j2
      exact ⟨s, rfl, h, by omega, by omega⟩

end

/-- The invariant when the loop begins. -/
lemma Inv.first {line1 fp1 line2 fp2 : List Char} (hf : Fits J A B e.tmpseek) (he : e.line = A)
    (h1 : (line1, fp1) = fgets (LSIZE - 1) (text A))
    (h2 : (line2, fp2) = fgets (LSIZE - 1) (text B)) :
    Inv J A B e ⟨1, 1, line1, line2, fp1, fp2, ⟨[], 0, false⟩⟩ := by
  have hfirst := hf.first
  refine ⟨le_refl _, by simp, le_refl _, by simp,
    fun i hi hlt => absurd hi (by simp only at hlt; omega),
    fun i _ _ h => Nat.one_le_iff_ne_zero.mpr h, h1, h2, by simp only; omega, rfl, rfl, e.dotadd,
    fun p => ?_⟩
  subst he
  exact Executes.refl _ _

/-- **Round trip**: the script that is printed for two files, executed by the editor on the first,
leaves the second, whatever lines the table matches. -/
theorem ed_script (hT : Table J A.length B.length) (hA : ∀ l ∈ A, Line l) (hB : ∀ l ∈ B, Line l)
    (hf : Fits J A B e.tmpseek) (he : e.line = A) :
    ∃ e', ed e (diff J A.length B.length (text A) (text B)) = some e' ∧ e'.line = B := by
  have h := Inv.first (B := B) hf he (Prod.mk.eta) (Prod.mk.eta)
  obtain ⟨s, h1, h2, h3, h4⟩ := loop_inv (n := A.length + B.length) hT hA hB hf h
    (by simp only; omega)
  obtain ⟨d, hd⟩ := h2.script
  have hend := hd []
  rw [h3, h4, List.append_nil] at hend
  have hdiff : diff J A.length B.length (text A) (text B) = s.out.stdout :=
    congrArg (fun s : St => s.out.stdout) h1
  rw [hdiff]
  exact ⟨_, hend.ed, by simp⟩

/-- A dot in place of a line, and lines at both ends. -/
theorem ed_script_small : ∃ e', ed ⟨[['a'], ['b'], ['c']], 3, 64⟩
    (diff (fun i => if i = 2 then 3 else 0) 3 4 (text [['a'], ['b'], ['c']])
      (text [['x'], ['.'], ['b'], ['.']])) = some e' ∧ e'.line = [['x'], ['.'], ['b'], ['.']] := by
  refine ed_script (A := [['a'], ['b'], ['c']]) (B := [['x'], ['.'], ['b'], ['.']])
    ⟨?_, ?_⟩ ?_ ?_ ⟨?_, ?_, ?_⟩ rfl
  · intro i _ _
    split_ifs <;> decide
  · intro i k _ h1 _ h2 h3
    split_ifs at h2 h3 <;> omega
  · intro l hl
    fin_cases hl <;> exact ⟨by decide, by decide, by decide⟩
  · intro l hl
    fin_cases hl <;> exact ⟨by decide, by decide, by decide⟩
  · decide +kernel
  · decide
  · decide +kernel

/-- A line with a NUL is printed up to it, and the next command is taken for its end. Nor is there
room in the editor for too many lines, nor for too many characters. -/
theorem nul_and_limits :
    (∀ e', ed ⟨[], 0, CLSIZE⟩ (diff (fun _ => 0) 0 1 (text []) (text [['a', NUL, 'b']])) = some e' →
      e'.line ≠ [['a', NUL, 'b']]) ∧
    (∀ e', ed ⟨[], 0, CLSIZE⟩
        (diff (fun _ => 0) 0 32000 (text []) (text (List.replicate 32000 []))) =
      some e' → e'.line ≠ List.replicate 32000 []) ∧
    (∀ e', ed ⟨[], 0, CLSIZE⟩ (diff (fun _ => 0) 0 2000 (text [])
        (text (List.replicate 2000 (List.replicate 500 'x')))) =
      some e' → e'.line ≠ List.replicate 2000 (List.replicate 500 'x')) := by
  have held : Held ⟨[], 0, CLSIZE⟩ := ⟨by decide, by decide, by decide⟩
  refine ⟨fun e' h => ?_, fun e' h hl => ?_, fun e' h hl => ?_⟩
  · have he : ed ⟨[], 0, CLSIZE⟩ (diff (fun _ => 0) 0 1 (text []) (text [['a', NUL, 'b']])) =
        some ⟨[['a', '.']], 1, 32⟩ := by decide +kernel
    obtain rfl := Option.some.inj (he.symm.trans h)
    decide
  · have := (ed_held held h).table
    rw [hl, List.length_replicate] at this
    exact absurd this (by decide)
  · have h1 := (ed_held held h).temp
    have h2 := (ed_held held h).room
    rw [hl, List.map_replicate, List.sum_replicate, space, List.length_replicate] at h1
    exact absurd (h1.trans h2) (by decide)

end Coherent.Diff
