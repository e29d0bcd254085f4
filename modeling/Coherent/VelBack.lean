import Coherent.VelObj
import Mathlib.Data.Bool.AllAny

/-!
A canonical object is written as a line, and the line gives the object back.
-/

namespace Coherent.Vellum

open Lib

variable {lib : List SYMDEF} {p q r t v w e tail s : List Char} {ws : List (List Char)} {x y : ℤ}
  {c : Char} {P P' : Pools} {o o' : DOBJ} {h h' : Head} {a : Seen} {l : List Char}

/-- The object as its line gives it: in no group, and its attachments not yet resolved. -/
def unres (h : Head) : Head :=
  if h.o_type = .CONN then { h with
    on0 := if 0 ≤ h.on0 then -2 else -1
    on1 := 0
    on2 := if 0 ≤ h.on2 then -2 else -1
    on3 := 0 }
  else h

def again (q : Seen) : Seen := ⟨{ unres q.toHead with o_grp := 0 }, q.val, q.pts⟩

/-- The letters that begin the line of an object. -/
def letters : List Char := ['Y', 'W', 'L', 'B', 'C', 'T', 'S', 'K', 'P', 'A', 'N', 'D']

/-- There is room for an object, and its points are to be the next in the pool. -/
structure Fits (P : Pools) (q : Seen) : Prop where
  pts : P.ppuse + q.pts.length ≤ PPOOL
  txt : P.tpuse + tcost q.val ≤ TPOOL
  base : q.o_type = .POLY → q.o_x2 = P.ppuse

lemma Fits.room (hf : Fits P a) : Room P := ⟨by have := hf.pts; omega, by have := hf.txt; omega⟩

/-- The line `l` gives the object `a` back, whatever the free place held. -/
structure Reads (lib : List SYMDEF) (a : Seen) (l : List Char) : Prop where
  nul : NUL ∉ l
  nl : '\n' ∉ l
  ne : l ≠ []
  back : ∀ P o e, LineEnd e → Fits P a → ∃ c p, tok (l ++ e) = some ([c], p) ∧ c ∈ letters ∧
    ∃ P' o', pdisp lib c P (initobj o) p = (P', some o') ∧ Adds P P' o' (again a)

/-- Words a line can be made of. -/
def Clean (ws : List (List Char)) : Prop := ∀ w ∈ ws, Word w ∧ NUL ∉ w

lemma nl_word (hw : Word w) : '\n' ∉ w := fun h => absurd (hw.2 _ h) (by decide)

lemma mem_sp {c : Char} (hc : c ∈ sp ws) : c = ' ' ∨ ∃ w ∈ ws, c ∈ w := by
  obtain ⟨w, hw, hc⟩ := List.mem_flatMap.mp hc
  rcases List.mem_cons.mp hc with h | h
  · exact .inl h
  · exact .inr ⟨w, hw, h⟩

lemma mem_line (hc : c ∈ letters) (hws : Clean ws) (hv : NUL ∉ v ∧ '\n' ∉ v) :
    NUL ∉ (c :: sp ws) ++ tailtext v ∧ '\n' ∉ (c :: sp ws) ++ tailtext v := by
  have hl : ∀ d ∈ letters, d ≠ NUL ∧ d ≠ '\n' := List.all_iff_forall_prop.mp (by decide)
  have key : ∀ k, k ≠ c → k ≠ ' ' → (∀ w ∈ ws, k ∉ w) → k ∉ v →
      k ∉ (c :: sp ws) ++ tailtext v := by
    intro k hk hs hw hkv hmem
    rcases List.mem_append.mp hmem with h | h
    · rcases List.mem_cons.mp h with h | h
      · exact hk h
      · rcases mem_sp h with h | ⟨w, hw', h⟩
        · exact hs h
        · exact hw w hw' h
    · unfold tailtext at h
      split at h
      · simp at h
      · rcases List.mem_cons.mp h with h | h
        · exact hs h
        · exact hkv h
  exact ⟨key _ (hl c hc).1.symm (by decide) (fun w hw => (hws w hw).2) hv.1,
    key _ (hl c hc).2.symm (by decide) (fun w hw => nl_word (hws w hw).1) hv.2⟩

lemma ended_tailtext (v : List Char) (he : LineEnd e) : Ended (tailtext v ++ e) := by
  unfold tailtext
  split
  · exact he.ended
  · exact ended_text _

/-- A line is a letter, words and a text. -/
lemma reads_intro (hc : c ∈ letters) (hws : Clean ws) (hv : NUL ∉ v ∧ '\n' ∉ v)
    (hback : ∀ P o e, LineEnd e → Fits P a → ∃ P' o', pdisp lib c P (initobj o)
      ((sp ws ++ (tailtext v ++ e)).drop 1) = (P', some o') ∧ Adds P P' o' (again a)) :
    Reads lib a ((c :: sp ws) ++ tailtext v) := by
  obtain ⟨h1, h2⟩ := mem_line hc hws hv
  refine ⟨h1, h2, by simp, fun P o e he hf => ⟨c, _, ?_, hc, hback P o e he hf⟩⟩
  have hcw : Word [c] := by
    have : ∀ d ∈ letters, Words.inner isblank isnl d = true := List.all_eq_true.mp (by decide)
    exact ⟨by simp, fun d hd => by rw [List.mem_singleton.mp hd]; exact this c hc⟩
  have hsplit : (c :: sp ws) ++ tailtext v ++ e = [c] ++ (sp ws ++ (tailtext v ++ e)) := by
    simp
  rw [hsplit]
  exact Words.next_word hcw (Words.ended_spaced inner_space (ended_tailtext v he))

/-! ### The words of the lines -/

lemma nul_digits {w : List Char} (hw : ∀ c ∈ w, ∃ d < 10, c = digit d) : NUL ∉ w := fun h => by
  obtain ⟨d, hd, he⟩ := hw _ h
  exact (digit_facts d hd).2.2.2.2.2.2.1 he.symm

lemma nul_dec (x : ℤ) : NUL ∉ dec x := by
  intro h
  rcases List.mem_append.mp h with h | h
  · split at h
    · exact absurd (List.mem_singleton.mp h) (by decide)
    · simp at h
  · exact nul_digits digits_facts h

lemma clean_dec (x : ℤ) : Word (dec x) ∧ NUL ∉ dec x := ⟨isWord_dec x, nul_dec x⟩

lemma clean_nil : Clean [] := fun _ h => by cases h

lemma clean_cons (hw : Word w ∧ NUL ∉ w) (hws : Clean ws) : Clean (w :: ws) :=
  List.forall_mem_cons.mpr ⟨hw, hws⟩

lemma clean_decs (xs : List ℤ) (hws : Clean ws) : Clean (xs.map dec ++ ws) := by
  intro w hw
  rcases List.mem_append.mp hw with hw | hw
  · obtain ⟨x, -, rfl⟩ := List.mem_map.mp hw
    exact clean_dec x
  · exact hws w hw

lemma clean_attrs (fl la : ℕ) : Clean (attrs fl la) := by
  intro w hw
  refine ⟨words_attrs fl la w hw, ?_⟩
  unfold attrs at hw
  split at hw
  · rw [List.mem_singleton.mp hw]
    intro h
    simp only [List.cons_append, List.mem_cons, List.mem_append] at h
    rcases h with h | h | h | h
    · exact absurd h (by decide)
    · exact nul_dec _ h
    · exact absurd h (by decide)
    · exact nul_dec _ h
  · simp at hw

lemma clean_dash {k : ℕ} (hw : Field k w) : Word (dash w) ∧ NUL ∉ dash w := by
  unfold dash
  split
  · exact ⟨⟨by decide, List.all_eq_true.mp (by decide)⟩, by decide⟩
  · next hne =>
    rcases hw with h | h
    · exact absurd h hne
    · exact ⟨h.1, h.2.2.2⟩

lemma fieldtok_sp {k : ℕ} (hw : Field k w) (ht : Ended tail) :
    fieldtok ((sp (dash w :: ws) ++ tail).drop 1) = (w, (sp ws ++ tail).drop 1) := by
  rw [fieldtok, tok_sp (clean_dash hw).1 ht]
  rcases hw with rfl | ⟨hw, hne, -⟩
  · rfl
  · have hd : dash w = w := if_neg hw.1
    simp only [hd, if_neg hne]

lemma csname_facts : ∀ i < 4, csname[i]?.getD [] ≠ [] ∧
    (∀ c ∈ csname[i]?.getD [], Words.inner isblank isnl c = true) ∧
    NUL ∉ csname[i]?.getD [] ∧ csname.findIdx? (· = csname[i]?.getD []) = some i := by
  have key : ∀ i < 4, csname[i]?.getD [] ≠ [] ∧
      (csname[i]?.getD []).all (Words.inner isblank isnl) = true ∧
      NUL ∉ csname[i]?.getD [] ∧ csname.findIdx? (· = csname[i]?.getD []) = some i := by decide
  intro i hi
  exact ⟨(key i hi).1, List.all_eq_true.mp (key i hi).2.1, (key i hi).2.2⟩

lemma shname_facts : ∀ i < 9, shname[i]?.getD [] ≠ [] ∧
    (∀ c ∈ shname[i]?.getD [], Words.inner isblank isnl c = true) ∧
    NUL ∉ shname[i]?.getD [] ∧ shname.findIdx? (· = shname[i]?.getD []) = some i := by
  have key : ∀ i < 9, shname[i]?.getD [] ≠ [] ∧
      (shname[i]?.getD []).all (Words.inner isblank isnl) = true ∧
      NUL ∉ shname[i]?.getD [] ∧ shname.findIdx? (· = shname[i]?.getD []) = some i := by decide
  intro i hi
  exact ⟨(key i hi).1, List.all_eq_true.mp (key i hi).2.1, (key i hi).2.2⟩

lemma tailtext_nil : tailtext [] = [] := rfl

/-! ### Kind by kind -/

section Kinds

variable {fl la : ℕ} {x2 y2 : ℤ} (hx : Short x) (hy : Short y) (hx2 : Short x2)
  (hy2 : Short y2) (hf : fl < 256) (hl : la < 4) (he : LineEnd e)
include hx hy hf hl he

lemma p_fix_back (o : DOBJ) (hN : c ≠ 'N') (hx2 : Short x2) (hy2 : Short y2) :
    p_fix c (initobj o).toHead
      ((sp ([dec x, dec y, dec x2, dec y2] ++ attrs fl la) ++ e).drop 1) = some { zero with
        o_type := fixtype c
        o_x := x
        o_y := y
        o_x2 := x2
        o_y2 := y2
        o_flags := fl
        o_layer := la } := by
  rw [p_fix, if_neg hN, p4_sp hx hy hx2 hy2 he.ended]
  simp only [Option.bind_eq_bind, Option.bind_some, Option.pure_def]
  rw [lastattr_attrs hf hl rfl rfl he]
  rfl

lemma p_arc_back (o : DOBJ) {r a0 a1 : ℤ} (hr : Short r) (h0 : Short a0) (h1 : Short a1) :
    p_arc (initobj o).toHead
      ((sp ([dec x, dec y, dec r, dec a0, dec a1] ++ attrs fl la) ++ e).drop 1) = some { zero with
        o_type := .ARC
        o_x := x
        o_y := y
        o_x2 := r
        o_flags := fl
        o_layer := la
        on0 := a0
        on1 := a1 } := by
  simp only [p_arc, List.cons_append, List.nil_append, pnum_sp hx he.ended, pnum_sp hy he.ended,
    pnum_sp hr he.ended, pnum_sp h0 he.ended, pnum_sp h1 he.ended, Option.bind_eq_bind,
    Option.bind_some, Option.pure_def]
  rw [lastattr_attrs hf hl rfl rfl he]
  rfl

lemma p_sym_back (o : DOBJ) {s : SYMDEF} {i rot mir : ℕ} {name val : List Char}
    (hi : symbycode lib s.sy_code = some i) (hr : rot < 4) (hm : mir < 2) (hn : Field 7 name)
    (hv : Field 15 val) :
    p_sym lib (initobj o) ((sp ([s.sy_code, dec x, dec y, dec rot, dec mir, dash name, dash val]
        ++ attrs fl la) ++ e).drop 1)
      = some ⟨{ zero with
          o_type := .SYM
          o_sym := i
          o_rot := rot
          o_mir := mir
          o_x := x
          o_y := y
          o_flags := fl
          o_layer := la
          o_name := name }, if val = [] then (initobj o).o_val
            else strcpy (initobj o).o_val 0 (val.take (VALL - 1))⟩ := by
  have hrot : Short rot := by unfold Short; omega
  have hmir : Short mir := by unfold Short; omega
  have hname : name.take (NAMEL - 1) = name := by
    rcases hn with rfl | h
    · rfl
    · exact List.take_of_length_le h.2.2.1
  have hrot' : ((rot : ℤ) % 4).toNat = rot := by omega
  have hmir' : ((mir : ℤ) % 2).toNat = mir := by omega
  simp only [p_sym, List.cons_append, List.nil_append, tok_sp s.word he.ended, hi,
    pnum_sp hx he.ended, pnum_sp hy he.ended, pnum_sp hrot he.ended, pnum_sp hmir he.ended,
    fieldtok_sp hn he.ended, fieldtok_sp hv he.ended, Option.bind_eq_bind, Option.bind_some,
    Option.pure_def, hname, hrot', hmir']
  rw [lastattr_attrs hf hl rfl rfl he]
  rfl

lemma p_text_back (o : DOBJ) {rot : ℕ} (hr : rot < 3) (hv : IsText true v) (hne : v ≠ []) :
    p_text (initobj o).toHead
      ((sp ([dec x, dec y, 's' :: dec rot] ++ attrs fl la) ++ (tailtext v ++ e)).drop 1)
      = some ({ zero with
          o_type := .TEXT
          o_rot := rot
          o_x := x
          o_y := y
          o_flags := fl
          o_layer := la }, v) := by
  obtain ⟨hend, hopt, hrest⟩ := hv.behind he
  simp only [p_text, List.cons_append, List.nil_append, pnum_sp hx hend, pnum_sp hy hend,
    Option.bind_eq_bind, Option.bind_some, opts_size hr hend]
  rw [opts_attrs hf hl rfl rfl hend hopt]
  simp only [hrest, if_neg hne]
  rfl

omit hx hy in
lemma opttext_back (hh : h.o_flags = 0) (hh' : h.o_layer = 0) (hv : IsText false v) :
    opttext h ((sp (attrs fl la) ++ (tailtext v ++ e)).drop 1) = ({ h with
      o_flags := fl
      o_layer := la }, v) := by
  obtain ⟨hend, hopt, hrest⟩ := hv.behind he
  simp only [opttext, opts_attrs hf hl hh hh' hend hopt, hrest]

lemma p_shape_back (o : DOBJ) {i : ℕ} (hi : i < 9) (hx2 : Short x2) (hy2 : Short y2)
    (hv : IsText false v) :
    p_shape (initobj o).toHead ((sp ([shname[i]?.getD [], dec x, dec y, dec x2, dec y2]
        ++ attrs fl la) ++ (tailtext v ++ e)).drop 1) = some ({ zero with
          o_type := .SHAPE
          o_sym := i
          o_x := x
          o_y := y
          o_x2 := x2
          o_y2 := y2
          o_flags := fl
          o_layer := la }, v) := by
  have hend := (hv.behind he).1
  obtain ⟨h1, h2, -, h4⟩ := shname_facts i hi
  rw [p_shape, List.cons_append, tok_sp ⟨h1, h2⟩ hend]
  simp only [Option.bind_eq_bind, Option.bind_some, h4, p4_sp hx hy hx2 hy2 hend, Option.pure_def]
  rw [opttext_back hf hl he rfl rfl hv]
  rfl

lemma p_dim_back (o : DOBJ) (hx2 : Short x2) (hy2 : Short y2) (hv : IsText false v) :
    p_dim (initobj o).toHead ((sp ([dec x, dec y, dec x2, dec y2] ++ attrs fl la)
        ++ (tailtext v ++ e)).drop 1) = some ({ zero with
          o_type := .DIM
          o_x := x
          o_y := y
          o_x2 := x2
          o_y2 := y2
          o_flags := fl
          o_layer := la }, v) := by
  rw [p_dim, p4_sp hx hy hx2 hy2 (hv.behind he).1]
  simp only [Option.bind_eq_bind, Option.bind_some, Option.pure_def]
  rw [opttext_back hf hl he rfl rfl hv]
  rfl

lemma p_conn_back (o : DOBJ) {i : ℕ} {t0 t1 : List Char} (hi : i < 4) (hx2 : Short x2)
    (hy2 : Short y2) (h0 : Word t0) (h1 : Word t1) :
    p_conn (initobj o).toHead ((sp ([csname[i]?.getD [], dec x, dec y, dec x2, dec y2, t0, t1]
        ++ attrs fl la) ++ e).drop 1) = some { zero with
          o_type := .CONN
          o_sym := i
          o_x := x
          o_y := y
          o_x2 := x2
          o_y2 := y2
          o_flags := fl
          o_layer := la
          on0 := attached t0
          on2 := attached t1 } := by
  obtain ⟨hc1, hc2, -, hc4⟩ := csname_facts i hi
  have h4 := p4_sp (h := { (initobj o).toHead with
    o_type := .CONN
    o_sym := i }) (w := t0 :: t1 :: attrs fl la) hx hy hx2 hy2 he.ended
  simp only [List.cons_append, List.nil_append] at h4
  simp only [p_conn, List.cons_append, List.nil_append, tok_sp ⟨hc1, hc2⟩ he.ended,
    Option.bind_eq_bind, Option.bind_some, hc4, h4, tok_sp h0 he.ended, tok_sp h1 he.ended,
    Option.pure_def]
  rw [lastattr_attrs hf hl rfl rfl he]
  rfl

omit hf hl in
lemma p_nname_back (o : DOBJ) {name : List Char} (hw : Word name) (hn : name.length ≤ 7) :
    p_fix 'N' (initobj o).toHead ((sp [dec x, dec y, name] ++ e).drop 1) = some { zero with
      o_type := .NNAME
      o_x := x
      o_y := y
      o_name := name } := by
  have hname : name.take (NAMEL - 1) = name := List.take_of_length_le hn
  simp only [p_fix, if_true, p_nname, pnum_sp hx he.ended, pnum_sp hy he.ended,
    tok_sp hw he.ended, Option.bind_eq_bind, Option.bind_some, Option.pure_def, hname]
  rfl

end Kinds

lemma points_succ (g : ℕ → ℤ) (i k : ℕ) : points g i (k + 1) = g i :: points g (i + 1) k := by
  simp only [points, List.range_succ_eq_map, List.map_cons, List.map_map, Nat.add_zero,
    List.cons.injEq, true_and]
  refine List.map_congr_left fun j _ => ?_
  simp only [Function.comp_apply]
  congr 1
  omega

lemma readpts_back {w : List (List Char)} {xs : List ℤ} {i : ℕ} {g : ℕ → ℤ} (hxs : ∀ x ∈ xs, Short x)
    (ht : Ended tail) :
    (readpts i xs.length g ((sp (xs.map dec ++ w) ++ tail).drop 1)).2
        = some ((sp w ++ tail).drop 1) ∧
      points (readpts i xs.length g ((sp (xs.map dec ++ w) ++ tail).drop 1)).1 i xs.length
        = xs := by
  induction xs generalizing i g with
  | nil => exact ⟨rfl, rfl⟩
  | cons x xs ih =>
    have hrd : readpts i (x :: xs).length g ((sp ((x :: xs).map dec ++ w) ++ tail).drop 1)
        = readpts (i + 1) xs.length (Function.update g i x)
          ((sp (xs.map dec ++ w) ++ tail).drop 1) := by
      rw [List.length_cons, readpts, List.map_cons, List.cons_append,
        pnum_sp (hxs x (by simp)) ht]
    rw [hrd]
    obtain ⟨h1, h2⟩ := ih (i := i + 1) (g := Function.update g i x)
      fun y hy => hxs y (by simp [hy])
    refine ⟨h1, ?_⟩
    rw [List.length_cons, points_succ, h2, readpts_before (by omega), Function.update_self]

/-! ### The line of an object -/

lemma cat_attrs (hf : h.o_flags < 256) :
    (c :: sp ws) ++ attrcat h = c :: sp (ws ++ attrs h.o_flags h.o_layer) := by
  rw [attrcat_eq hf, sp, sp, sp, Words.spaced_append]
  rfl

lemma again_ne (hk : a.o_type ≠ .CONN) :
    again a = ⟨{ a.toHead with o_grp := 0 }, a.val, a.pts⟩ := by
  rw [again, unres, if_neg hk]

lemma twoPoints_facts (lib : List SYMDEF) {t : OT} (ht : twoPoints t = some c) : fixtype c = t ∧ c ≠ 'N' ∧
    c ∈ letters ∧ (∀ P o p, pdisp lib c P o p = plain P o (p_fix c o.toHead p)) ∧
    ∀ b : Seen, b.o_type = t → fmtobj lib b = some (line4 c b.toHead) := by
  cases t <;> simp only [twoPoints, Option.some.injEq, reduceCtorEq] at ht <;> subst ht <;>
    exact ⟨rfl, by decide, by decide, fun _ _ _ => rfl, fun b hb => by rw [fmtobj, hb]⟩

/-- An object with neither a value nor points. -/
lemma plain_back (hf : Fits P ⟨h, [], []⟩) (hs : h'.o_type ≠ .SYM) (hp : h'.o_type ≠ .POLY)
    (ha : again ⟨h, [], []⟩ = ⟨h', [], []⟩) : ∃ P' o', plain P (initobj o) (some h') = (P', some o')
      ∧ Adds P P' o' (again ⟨h, [], []⟩) := by
  rw [ha]
  exact ⟨_, _, rfl, adds_plain hf.room hs hp⟩

/-- An object with a text. -/
lemma pooled_back {wantsz : Bool} (hf : Fits P ⟨h, v, []⟩) (hv : IsText wantsz v)
    (hs : h'.o_type ≠ .SYM) (hp : h'.o_type ≠ .POLY) (ha : again ⟨h, v, []⟩ = ⟨h', v, []⟩) :
    ∃ P' o', pooled P (initobj o) (some (h', v)) = (P', some o') ∧
      Adds P P' o' (again ⟨h, v, []⟩) := by
  have hadds := adds_text (m := (initobj o).o_val) hf.room hv hs hp
  rw [kept_eq hf.txt] at hadds
  rw [ha]
  exact ⟨_, _, rfl, hadds⟩

/-- One end of a connector, as a word. -/
lemma endtext_facts (h : Head) (e : Bool) : Word (endtext h e) ∧ NUL ∉ endtext h e ∧
    ∀ r, attached (endtext h e ++ r) = if 0 ≤ ACOBJ h e then -2 else -1 := by
  unfold endtext
  by_cases ha : 0 ≤ ACOBJ h e
  · rw [if_pos ha, if_pos ha]
    refine ⟨⟨by simp, fun c hc => ?_⟩, fun hc => ?_, fun r => rfl⟩
    · simp only [List.mem_cons, List.mem_append] at hc
      rcases hc with rfl | hc | rfl | hc
      · decide
      · exact (isWord_dec _).2 c hc
      · decide
      · exact (isWord_dec _).2 c hc
    · simp only [List.mem_cons, List.mem_append] at hc
      rcases hc with hc | hc | hc | hc
      · exact absurd hc (by decide)
      · exact nul_dec _ hc
      · exact absurd hc (by decide)
      · exact nul_dec _ hc
  · rw [if_neg ha, if_neg ha]
    exact ⟨⟨by decide, List.all_eq_true.mp (by decide)⟩, by decide, fun r => rfl⟩

/-- What the reader finds in the place of the first end. -/
lemma firstend_facts (h : Head) (n : Prop) [Decidable n] {w : List Char}
    (hw : w = if n then endtext h false else endtext h false ++ endtext h true) :
    Word w ∧ NUL ∉ w ∧ attached w = if 0 ≤ ACOBJ h false then -2 else -1 := by
  obtain ⟨h1, h2, h3⟩ := endtext_facts h false
  obtain ⟨h4, h5, -⟩ := endtext_facts h true
  rw [hw]
  by_cases hc : n
  · have := h3 []
    rw [List.append_nil] at this
    rw [if_pos hc]
    exact ⟨h1, h2, this⟩
  · rw [if_neg hc]
    refine ⟨⟨by simp [h1.1], fun c hc => ?_⟩, fun hc => ?_, h3 _⟩
    · rcases List.mem_append.mp hc with hc | hc
      · exact h1.2 c hc
      · exact h4.2 c hc
    · rcases List.mem_append.mp hc with hc | hc
      · exact h2 hc
      · exact h5 hc

/-- The second end of a connector fits into its half of `ab`. -/
def EndFits (h : Head) : Prop := h.o_type = .CONN → (endtext h true).length < 14

lemma conn_reads {i fl la g : ℕ} {x y x2 y2 a0 k0 a1 k1 : ℤ} (hi : i < 4) (hx : Short x)
    (hy : Short y) (hx2 : Short x2) (hy2 : Short y2) (hf : fl < 256) (hl : la < 4)
    (hh : h = { zero with
      o_type := .CONN
      o_sym := i
      o_x := x
      o_y := y
      o_x2 := x2
      o_y2 := y2
      o_flags := fl
      o_layer := la
      o_grp := g
      on0 := a0
      on1 := k0
      on2 := a1
      on3 := k1 }) (hlt : (endtext h true).length < 14) :
    ∃ l, fmtobj lib ⟨h, [], []⟩ = some l ∧ Reads lib ⟨h, [], []⟩ l := by
  obtain ⟨h1, h2, h3, -⟩ := csname_facts i hi
  obtain ⟨ab0, hab⟩ : ∃ ab0, ab0 = if (endtext h false).length < 14 then endtext h false
    else endtext h false ++ endtext h true := ⟨_, rfl⟩
  obtain ⟨hw0, hn0, hat0⟩ := firstend_facts h _ hab
  obtain ⟨hw1, hn1, hat1⟩ := endtext_facts h true
  have hat1' := hat1 []
  rw [List.append_nil] at hat1'
  refine ⟨('K' :: sp ([csname[i]?.getD [], dec x, dec y, dec x2, dec y2, ab0, endtext h true]
    ++ attrs fl la)) ++ tailtext [], ?_,
    reads_intro (by decide) (clean_cons ⟨⟨h1, h2⟩, h3⟩ (clean_decs [x, y, x2, y2]
      (clean_cons ⟨hw0, hn0⟩ (clean_cons ⟨hw1, hn1⟩ (clean_attrs fl la)))))
      ⟨by simp, by simp⟩ fun P o e he hroom => ?_⟩
  · have ht : h.o_type = .CONN := by rw [hh]
    have hfl : h.o_flags < 256 := by rw [hh]; exact hf
    rw [tailtext_nil, List.append_nil, fmtobj]
    simp only [ht]
    rw [if_neg (by omega), ← hab, cat_attrs hfl]
    rw [hh]
  · have hagain : again ⟨h, [], []⟩ = ⟨{ zero with
        o_type := .CONN
        o_sym := i
        o_x := x
        o_y := y
        o_x2 := x2
        o_y2 := y2
        o_flags := fl
        o_layer := la
        on0 := attached ab0
        on2 := attached (endtext h true) }, [], []⟩ := by
      rw [hat0, hat1', hh]
      rfl
    change ∃ P' o', plain P (initobj o) (p_conn (initobj o).toHead
      ((sp ([csname[i]?.getD [], dec x, dec y, dec x2, dec y2, ab0, endtext h true]
        ++ attrs fl la) ++ e).drop 1)) = _ ∧ _
    rw [p_conn_back hx hy hf hl he o hi hx2 hy2 hw0 hw1]
    exact plain_back hroom (by simp) (by simp) hagain

lemma p_poly_back {np fl la : ℕ} {ps : List ℤ} (h2 : 2 ≤ np) (h20 : np ≤ PMAXPT)
    (hlen : ps.length = 2 * np) (hs : ∀ x ∈ ps, Short x) (hf : fl < 256) (hl : la < 4)
    (he : LineEnd e) (hfit : P.ppuse + 2 * np ≤ PPOOL) :
    ∃ g, Keeps P { P with ppool := g } ∧ points g P.ppuse (2 * np) = ps ∧
      p_poly P (initobj o).toHead ((sp (dec np :: (ps.map dec ++ attrs fl la)) ++ e).drop 1)
        = ({ P with
            ppool := g
            ppuse := P.ppuse + 2 * np }, some { zero with
          o_type := .POLY
          o_sym := np
          o_x := ps.getD 0 0
          o_y := ps.getD 1 0
          o_x2 := P.ppuse
          o_flags := fl
          o_layer := la }) := by
  have h20' : np ≤ 20 := h20
  have hnp : atoi (dec np) = np :=
    atoi_dec_self (by unfold Short; omega)
  have hk := readpts_keeps (P := P) (p := (sp (ps.map dec ++ attrs fl la) ++ e).drop 1) (2 * np)
  have hback := readpts_back (i := P.ppuse) (g := P.ppool) (w := attrs fl la) hs he.ended
  rw [hlen] at hback
  rcases hread : readpts P.ppuse (2 * np) P.ppool ((sp (ps.map dec ++ attrs fl la) ++ e).drop 1)
    with ⟨g, r⟩
  rw [hread] at hk hback
  obtain ⟨hr, hpts⟩ := hback
  have hx : g P.ppuse = ps.getD 0 0 := by rw [← hpts, points_getD (by omega)]; rfl
  have hy : g (P.ppuse + 1) = ps.getD 1 0 := by rw [← hpts, points_getD (by omega)]
  refine ⟨g, hk, hpts, ?_⟩
  rw [p_poly, tok_sp (isWord_dec np) he.ended]
  simp only [hnp, Int.toNat_natCast, hread]
  simp only at hr
  rw [if_neg (by push Not; omega), hr]
  simp only [hx, hy]
  rw [lastattr_attrs hf hl rfl rfl he]
  rfl

/-- **An object that was read from a line is written as a line that reads as the object.** -/
theorem canon_reads (ha : Canon lib a) (hend : EndFits a.toHead) :
    ∃ l, fmtobj lib a = some l ∧ Reads lib a l := by
  cases ha with
  | @two t c fl la g x y x2 y2 ht hx hy hx2 hy2 hf hl =>
    obtain ⟨hfix, hN, hlet, hdisp, hfmt⟩ := twoPoints_facts lib ht
    obtain ⟨hs, hp, hk⟩ := twoPoints_ne ht
    refine ⟨(c :: sp ([dec x, dec y, dec x2, dec y2] ++ attrs fl la)) ++ tailtext [], ?_,
      reads_intro hlet (clean_decs [x, y, x2, y2] (clean_attrs fl la))
        ⟨by simp, by simp⟩ fun P o e he hroom => ?_⟩
    · rw [hfmt _ rfl, line4, cat_attrs hf, tailtext_nil, List.append_nil]
    · have hback := p_fix_back hx hy hf hl he o hN hx2 hy2
      rw [hfix] at hback
      rw [hdisp]
      change ∃ P' o', plain P (initobj o) (p_fix c (initobj o).toHead
        ((sp ([dec x, dec y, dec x2, dec y2] ++ attrs fl la) ++ e).drop 1)) = _ ∧ _
      rw [hback]
      exact plain_back hroom hs hp (again_ne hk)
  | @arc fl la g x y r a0 a1 hx hy hr h0 h1 hf hl =>
    refine ⟨('A' :: sp ([dec x, dec y, dec r, dec a0, dec a1] ++ attrs fl la)) ++ tailtext [], ?_,
      reads_intro (by decide) (clean_decs [x, y, r, a0, a1] (clean_attrs fl la))
        ⟨by simp, by simp⟩ fun P o e he hroom => ?_⟩
    · rw [tailtext_nil, List.append_nil, fmtobj]
      simp only
      rw [cat_attrs hf]
    · change ∃ P' o', plain P (initobj o) (p_arc (initobj o).toHead
        ((sp ([dec x, dec y, dec r, dec a0, dec a1] ++ attrs fl la) ++ e).drop 1)) = _ ∧ _
      rw [p_arc_back hx hy hf hl he o hr h0 h1]
      exact plain_back hroom (by simp) (by simp) (again_ne (by simp))
  | @nname g x y name hx hy hw hl hn =>
    refine ⟨('N' :: sp [dec x, dec y, name]) ++ tailtext [], ?_,
      reads_intro (by decide) (clean_decs [x, y] (clean_cons ⟨hw, hn⟩ clean_nil))
        ⟨by simp, by simp⟩ fun P o e he hroom => ?_⟩
    · rw [tailtext_nil, List.append_nil, fmtobj]
    · change ∃ P' o', plain P (initobj o) (p_fix 'N' (initobj o).toHead
        ((sp [dec x, dec y, name] ++ e).drop 1)) = _ ∧ _
      rw [p_nname_back hx hy he o hw hl]
      exact plain_back hroom (by simp) (by simp) (again_ne (by simp))
  | @sym s i rot mir fl la g x y name val hs hi hx hy hr hm hn hv hf hl =>
    refine ⟨('Y' :: sp ([s.sy_code, dec x, dec y, dec rot, dec mir, dash name, dash val]
      ++ attrs fl la)) ++ tailtext [], ?_,
      reads_intro (by decide) (clean_cons ⟨s.word, s.noNul⟩ (clean_decs [x, y, rot, mir]
        (clean_cons (clean_dash hn) (clean_cons (clean_dash hv) (clean_attrs fl la)))))
        ⟨by simp, by simp⟩ fun P o e he hroom => ?_⟩
    · rw [tailtext_nil, List.append_nil, fmtobj]
      simp only [hs, Option.map_some, Option.getD_some]
      rw [cat_attrs hf]
    · change ∃ P' o', (P, p_sym lib (initobj o) ((sp ([s.sy_code, dec x, dec y, dec rot, dec mir,
        dash name, dash val] ++ attrs fl la) ++ e).drop 1)) = (P', some o') ∧ _
      have hnul : NUL ∉ val := by
        rcases hv with rfl | h
        · simp
        · exact h.2.2.2
      have hval : val.take 15 = val := by
        rcases hv with rfl | h
        · rfl
        · exact List.take_of_length_le h.2.2.1
      have hadds := adds_sym (m := o.o_val) (h := { zero with
        o_type := .SYM
        o_sym := i
        o_rot := rot
        o_mir := mir
        o_x := x
        o_y := y
        o_flags := fl
        o_layer := la
        o_name := name }) hroom.room rfl hnul
      rw [hval] at hadds
      rw [p_sym_back hx hy hf hl he o hi hr hm hn hv, again_ne (by simp)]
      exact ⟨_, _, rfl, hadds⟩
  | @text rot fl la g x y v hx hy hr hv hne hf hl =>
    have hw : Word ('s' :: dec rot) ∧ NUL ∉ 's' :: dec rot := by
      refine ⟨⟨by simp, fun c hc => ?_⟩, fun hc => ?_⟩
      · rcases List.mem_cons.mp hc with rfl | hc
        · decide
        · exact (isWord_dec rot).2 c hc
      · rcases List.mem_cons.mp hc with hc | hc
        · exact absurd hc (by decide)
        · exact nul_dec _ hc
    refine ⟨('T' :: sp ([dec x, dec y, 's' :: dec rot] ++ attrs fl la)) ++ tailtext v, ?_,
      reads_intro (by decide) (clean_decs [x, y] (clean_cons hw (clean_attrs fl la)))
        ⟨hv.noNul, hv.noNl⟩ fun P o e he hroom => ?_⟩
    · rw [tailtext, if_neg hne, fmtobj]
      simp only
      rw [cat_attrs hf]
    · change ∃ P' o', pooled P (initobj o) (p_text (initobj o).toHead
        ((sp ([dec x, dec y, 's' :: dec rot] ++ attrs fl la) ++ (tailtext v ++ e)).drop 1)) = _ ∧ _
      rw [p_text_back hx hy hf hl he o hr hv hne]
      exact pooled_back hroom hv (by simp) (by simp) (again_ne (by simp))
  | @shape i fl la g x y x2 y2 v hi hx hy hx2 hy2 hv hf hl =>
    obtain ⟨h1, h2, h3, -⟩ := shname_facts i hi
    refine ⟨('S' :: sp ([shname[i]?.getD [], dec x, dec y, dec x2, dec y2] ++ attrs fl la))
      ++ tailtext v, ?_,
      reads_intro (by decide) (clean_cons ⟨⟨h1, h2⟩, h3⟩ (clean_decs [x, y, x2, y2]
        (clean_attrs fl la))) ⟨hv.noNul, hv.noNl⟩ fun P o e he hroom => ?_⟩
    · rw [fmtobj]
      simp only
      rw [cat_attrs hf, tailtext]
    · change ∃ P' o', pooled P (initobj o) (p_shape (initobj o).toHead
        ((sp ([shname[i]?.getD [], dec x, dec y, dec x2, dec y2] ++ attrs fl la)
          ++ (tailtext v ++ e)).drop 1)) = _ ∧ _
      rw [p_shape_back hx hy hf hl he o hi hx2 hy2 hv]
      exact pooled_back hroom hv (by simp) (by simp) (again_ne (by simp))
  | @dim fl la g x y x2 y2 v hx hy hx2 hy2 hv hf hl =>
    refine ⟨('D' :: sp ([dec x, dec y, dec x2, dec y2] ++ attrs fl la)) ++ tailtext v, ?_,
      reads_intro (by decide) (clean_decs [x, y, x2, y2] (clean_attrs fl la))
        ⟨hv.noNul, hv.noNl⟩ fun P o e he hroom => ?_⟩
    · rw [fmtobj]
      simp only
      rw [line4, cat_attrs hf, tailtext]
    · change ∃ P' o', pooled P (initobj o) (p_dim (initobj o).toHead
        ((sp ([dec x, dec y, dec x2, dec y2] ++ attrs fl la) ++ (tailtext v ++ e)).drop 1)) = _ ∧ _
      rw [p_dim_back hx hy hf hl he o hx2 hy2 hv]
      exact pooled_back hroom hv (by simp) (by simp) (again_ne (by simp))
  | @conn i fl la g x y x2 y2 a0 k0 a1 k1 hi hx hy hx2 hy2 hf hl =>
    exact conn_reads hi hx hy hx2 hy2 hf hl rfl (hend rfl)
  | @poly np b fl la g ps h2 h20 hlen hs hf hl =>
    refine ⟨('P' :: sp (dec np :: (ps.map dec ++ attrs fl la))) ++ tailtext [], ?_,
      reads_intro (by decide) (clean_cons (clean_dec np) (clean_decs _ (clean_attrs fl la)))
        ⟨by simp, by simp⟩ fun P o e he hroom => ?_⟩
    · rw [tailtext_nil, List.append_nil, fmtobj]
      simp only
      rw [cat_attrs hf]
      rfl
    · have hfit : P.ppuse + 2 * np ≤ PPOOL := by
        have := hroom.pts
        simp only [hlen] at this
        exact this
      have hbase : (b : ℤ) = P.ppuse := hroom.base rfl
      obtain ⟨g, hk, hpts, hback⟩ := p_poly_back (o := o) h2 h20 hlen hs hf hl he hfit
      have hadds := adds_poly (m := o.o_val) (h := { zero with
        o_type := .POLY
        o_sym := np
        o_x := ps.getD 0 0
        o_y := ps.getD 1 0
        o_x2 := P.ppuse
        o_flags := fl
        o_layer := la }) hroom.room hk hfit rfl rfl rfl
      rw [hpts] at hadds
      rw [again_ne (by simp)]
      refine ⟨_, _, congrArg (fun r : Pools × Option Head => plain r.1 (initobj o) r.2) hback, ?_⟩
      simp only [hbase]
      exact hadds

end Coherent.Vellum
