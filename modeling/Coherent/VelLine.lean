import Coherent.Vellum

/-!
What `fmtobj` writes, the line parsers read.
-/

namespace Coherent.Vellum

open Lib

variable {lib : List SYMDEF} {p q r t w e tail s : List Char} {ws : List (List Char)} {x y : ℤ}
  {c : Char} {h h' : Head} {wantsz : Bool} {n : ℕ}

/-! ### Numbers -/

def Short (x : ℤ) : Prop := -32768 ≤ x ∧ x < 32768

lemma short_range (x : ℤ) : Short (short x) := by unfold Short short; omega

lemma short_eq (h : Short x) : short x = x := by unfold Short at h; unfold short; omega

lemma atoival_range (t : List Char) : Short (atoival t) := by
  unfold atoival
  induction t.takeWhile isdigit using List.reverseRecOn with
  | nil => simp [Short]
  | append_singleton ds d _ =>
    rw [List.foldl_append]
    exact short_range _

lemma atoi_range (t : List Char) : Short (atoi t) := by
  unfold atoi
  split
  · simp [Short]
  · split_ifs
    · exact atoival_range _
    · exact short_range _
    · exact short_range _

lemma digit_facts : ∀ d < 10, isdigit (digit d) = true ∧ ((digit d).toNat : ℤ) - 48 = d ∧
    Words.inner isblank isnl (digit d) = true ∧ isblank (digit d) = false ∧ digit d ≠ '-' ∧
    digit d ≠ '+' ∧ digit d ≠ NUL ∧ digit d ≠ '\n' ∧ digit d ≠ ',' ∧ digit d ≠ '.' ∧
    digit d ≠ 's' ∧ digit d ≠ '/' := by
  decide

abbrev Word (w : List Char) : Prop := Words.IsWord isblank isnl w

abbrev Ended (r : List Char) : Prop := Words.Ended isblank isnl r

lemma digits_facts {n : ℕ} : ∀ c ∈ (Words.numeral 10 10 n).map digit, ∃ d < 10, c = digit d := by
  intro c hc
  obtain ⟨d, hd, rfl⟩ := List.mem_map.mp hc
  exact ⟨d, Words.numeral_lt (by norm_num) d hd, rfl⟩

lemma numeral_ne_nil (n : ℕ) : Words.numeral 10 10 n ≠ [] := by
  rw [Words.numeral]
  split <;> simp

lemma isWord_dec (x : ℤ) : Word (dec x) := by
  refine ⟨by simp [dec, numeral_ne_nil], fun c hc => ?_⟩
  rcases List.mem_append.mp hc with hc | hc
  · split at hc
    · rw [List.mem_singleton.mp hc]
      decide
    · simp at hc
  · obtain ⟨d, hd, rfl⟩ := digits_facts c hc
    exact (digit_facts d hd).2.2.1

/-- The digits of a number, read on from zero. -/
lemma foldl_digits {n : ℕ} (hn : n ≤ 32768) (ds : List ℕ) (hd : ∀ d ∈ ds, d < 10)
    (hv : ds.foldl (fun v d => v * 10 + d) 0 = n) :
    (ds.map digit).foldl (fun val c => short (val * 10 - ((c.toNat : ℤ) - 48))) 0 = -(n : ℤ) := by
  induction ds using List.reverseRecOn generalizing n with
  | nil => simp at hv; simp [← hv]
  | append_singleton ds d ih =>
    rw [List.foldl_append, List.foldl_cons, List.foldl_nil] at hv
    have hd' := (digit_facts d (hd d (by simp))).2.1
    rw [List.map_append, List.foldl_append, ih (n := ds.foldl (fun v d => v * 10 + d) 0)
      (by omega) (fun d h => hd d (by simp [h])) rfl]
    simp only [List.map_cons, List.map_nil, List.foldl_cons, List.foldl_nil, hd']
    rw [short_eq (by unfold Short; omega)]
    omega

lemma atoival_digits {n : ℕ} (hn : n ≤ 32768) (hr : tail.takeWhile isdigit = []) :
    atoival ((Words.numeral 10 10 n).map digit ++ tail) = -(n : ℤ) := by
  have hlt : ∀ d ∈ Words.numeral 10 10 n, d < 10 := Words.numeral_lt (by norm_num)
  have ht : ((Words.numeral 10 10 n).map digit ++ tail).takeWhile isdigit
      = (Words.numeral 10 10 n).map digit := by
    rw [List.takeWhile_append_of_pos, hr, List.append_nil]
    intro c hc
    obtain ⟨d, hd, rfl⟩ := digits_facts c hc
    exact (digit_facts d hd).1
  rw [atoival, ht]
  exact foldl_digits hn _ hlt (Words.value_numeral (k := 9) (by omega))

/-- **Reading a number back.** -/
theorem atoi_dec (hx : Short x) (hr : tail.takeWhile isdigit = []) : atoi (dec x ++ tail) = x := by
  unfold Short at hx
  unfold dec
  split
  · next hneg =>
    rw [List.append_assoc, List.singleton_append, atoi,
      List.dropWhile_cons_of_neg (by decide)]
    simp only [↓reduceIte]
    rw [atoival_digits (by omega) hr]
    omega
  · next hpos =>
    rw [List.nil_append]
    obtain ⟨c, ds, hcs⟩ := List.exists_cons_of_ne_nil (numeral_ne_nil x.natAbs)
    have hc : c < 10 := Words.numeral_lt (by norm_num) c (by rw [hcs]; simp)
    obtain ⟨-, -, -, hb, hm, hp, -⟩ := digit_facts c hc
    have hv := atoival_digits (n := x.natAbs) (by omega) hr
    rw [hcs, List.map_cons, List.cons_append] at hv ⊢
    rw [atoi, List.dropWhile_cons_of_neg (by simp [hb])]
    simp only [hm, hp, if_false, hv]
    rw [short_eq (by unfold Short; omega)]
    omega

/-- A number that has no sign. -/
lemma dec_nat (n : ℕ) : ∀ c ∈ dec n, ∃ d < 10, c = digit d := by
  intro c hc
  rw [dec, if_neg (by omega), List.nil_append] at hc
  exact digits_facts c hc

/-! ### Tokens -/

lemma inner_space : Words.inner isblank isnl ' ' = false := by decide

/-- What ends a line in the buffer: a newline, or nothing. -/
def LineEnd (e : List Char) : Prop := e = [] ∨ e = ['\n']

lemma LineEnd.ended (he : LineEnd e) : Ended e := by
  rcases he with rfl | rfl
  · exact Words.ended_nil
  · exact Words.ended_cons (by decide)

lemma ended_text (t : List Char) : Ended (' ' :: t) := Words.ended_cons inner_space

lemma tok_nil : tok [] = none := rfl

lemma LineEnd.drop (he : LineEnd e) : e.drop 1 = [] := by rcases he with rfl | rfl <;> rfl

lemma tok_sp (hw : Word w) (ht : Ended tail) :
    tok ((sp (w :: ws) ++ tail).drop 1) = some (w, (sp ws ++ tail).drop 1) :=
  Words.next_spaced inner_space hw ht

/-- A number at the end of a line. -/
lemma atoi_dec_self (hx : Short x) : atoi (dec x) = x := by
  have := atoi_dec hx (rfl : ([] : List Char).takeWhile isdigit = [])
  rwa [List.append_nil] at this

lemma pnum_sp (hx : Short x) (ht : Ended tail) :
    pnum ((sp (dec x :: ws) ++ tail).drop 1) = some (x, (sp ws ++ tail).drop 1) := by
  rw [pnum, tok_sp (isWord_dec x) ht, Option.map_some, atoi_dec_self hx]

lemma p4_sp {w : List (List Char)} {x2 y2 : ℤ} (hx : Short x) (hy : Short y) (hx2 : Short x2)
    (hy2 : Short y2) (ht : Ended tail) :
    p4 h ((sp ([dec x, dec y, dec x2, dec y2] ++ w) ++ tail).drop 1)
      = some ({ h with
          o_x := x
          o_y := y
          o_x2 := x2
          o_y2 := y2 }, (sp w ++ tail).drop 1) := by
  simp only [p4, List.cons_append, List.nil_append, pnum_sp hx ht, pnum_sp hy ht, pnum_sp hx2 ht,
    pnum_sp hy2 ht, Option.bind_eq_bind, Option.bind_some, Option.pure_def]

/-! ### Attributes -/

/-- The attribute of an object, if it has one. -/
def attrs (fl la : ℕ) : List (List Char) :=
  if fl ≠ 0 ∨ la ≠ 0 then [('/' :: dec fl) ++ '.' :: dec la] else []

lemma attrcat_eq (hf : h.o_flags < 256) : attrcat h = sp (attrs h.o_flags h.o_layer) := by
  unfold attrcat attrs
  rw [Nat.mod_eq_of_lt hf]
  split <;> rfl

lemma word_attr (fl la : ℕ) : Word (('/' :: dec fl) ++ '.' :: dec la) := by
  refine ⟨by simp, fun c hc => ?_⟩
  simp only [List.cons_append, List.mem_cons, List.mem_append] at hc
  rcases hc with rfl | hc | rfl | hc
  · decide
  · exact (isWord_dec fl).2 c hc
  · decide
  · exact (isWord_dec la).2 c hc

lemma words_attrs (fl la : ℕ) : ∀ w ∈ attrs fl la, Word w := by
  intro w hw
  unfold attrs at hw
  split at hw
  · rw [List.mem_singleton.mp hw]
    exact word_attr fl la
  · simp at hw

lemma parseattr_attr {fl la : ℕ} (hf : fl < 256) (hl : la < 4) (h : Head) :
    parseattr (('/' :: dec fl) ++ '.' :: dec la) h = { h with
      o_flags := fl
      o_layer := la } := by
  have hq : (dec fl ++ '.' :: dec la).dropWhile (· ≠ '.') = '.' :: dec la := by
    rw [List.dropWhile_append_of_pos]
    · rw [List.dropWhile_cons_of_neg (by simp)]
    · intro c hc
      obtain ⟨d, hd, rfl⟩ := dec_nat fl c hc
      simpa using (digit_facts d hd).2.2.2.2.2.2.2.2.2.1
  have h1 : atoi (dec fl ++ '.' :: dec la) = fl :=
    atoi_dec (by unfold Short; omega) (List.takeWhile_cons_of_neg (by decide))
  have h2 : atoi (dec la) = la := atoi_dec_self (by unfold Short; omega)
  rw [List.cons_append, parseattr, if_pos rfl, hq]
  simp only [h1, h2, NLAYER]
  congr 1 <;> omega

lemma lastattr_attrs {fl la : ℕ} (hf : fl < 256) (hl : la < 4) (hh : h.o_flags = 0)
    (hh' : h.o_layer = 0) (he : LineEnd e) :
    lastattr h ((sp (attrs fl la) ++ e).drop 1) = { h with
      o_flags := fl
      o_layer := la } := by
  unfold lastattr attrs
  split_ifs with hc
  · rw [tok_sp (word_attr fl la) he.ended]
    exact parseattr_attr hf hl h
  · push Not at hc
    obtain ⟨rfl, rfl⟩ := hc
    rw [sp, Words.spaced_nil, List.nil_append, he.drop, tok_nil]
    cases h
    simp only at hh hh'
    rw [hh, hh']

/-! ### Options and texts -/

lemma opts_none (hp : opttok wantsz p = none) : opts wantsz h p = (h, p) := by
  rw [opts]
  split
  · rfl
  · next hs => rw [hp] at hs; cases hs

lemma opts_some (hp : opttok wantsz p = some (t, r)) :
    opts wantsz h p = opts wantsz (setopt t h) r := by
  rw [opts]
  split
  · next hs => rw [hp] at hs; cases hs
  · next hs => rw [hp] at hs; cases hs; rfl

/-- The end of the line makes no option of a text. -/
lemma isopt_append (he : LineEnd e) : isopt wantsz (t ++ e) = isopt wantsz t := by
  rcases he with rfl | rfl
  · rw [List.append_nil]
  · rcases t with _ | ⟨a, _ | ⟨b, _ | ⟨c, t⟩⟩⟩
    · cases wantsz <;> decide
    · have h1 : isdigit '\n' = false := by decide
      have h2 : isdigit NUL = false := by decide
      have h3 : decide ('0' ≤ NUL) = false := by decide
      simp [isopt, h1, h2, h3]
    · simp [isopt, isnl]
    · simp [isopt]

/-- A text as the line parsers leave it. -/
structure IsText (wantsz : Bool) (v : List Char) : Prop where
  len : v.length < TVMAX
  noNl : '\n' ∉ v
  noNul : NUL ∉ v
  head : ∀ c q, v = c :: q → isblank c = false
  noOpt : isopt wantsz v = false
  noMark : v.head? ≠ some MARK

lemma IsText.dropWhile (ht : IsText wantsz t) (he : LineEnd e) :
    (t ++ e).dropWhile isblank = t ++ e := by
  cases t with
  | nil => rcases he with rfl | rfl <;> rfl
  | cons c q =>
    rw [List.cons_append, List.dropWhile_cons_of_neg]
    simp [ht.head c q rfl]

lemma IsText.opttok_eq (ht : IsText wantsz t) (he : LineEnd e) :
    opttok wantsz (t ++ e) = none := by
  rw [opttok, ht.dropWhile he, isopt_append he, ht.noOpt]
  rfl

lemma IsText.resttext_eq (ht : IsText wantsz t) (he : LineEnd e) :
    resttext (t ++ e) TVMAX = t := by
  have htake : (t ++ e).takeWhile (· ≠ '\n') = t := by
    rw [List.takeWhile_append_of_pos fun c hc => by
      simpa using fun h : c = '\n' => ht.noNl (h ▸ hc)]
    rcases he with rfl | rfl <;> simp
  rw [resttext, ht.dropWhile he, htake, List.take_of_length_le]
  have := ht.len
  omega

/-- The text that ends a line, with the blank before it. -/
def tailtext (t : List Char) : List Char := if t = [] then [] else ' ' :: t

lemma tailtext_drop (t : List Char) (he : LineEnd e) :
    (tailtext t ++ e).drop 1 = t ++ e ∨ t = [] ∧ (tailtext t ++ e).drop 1 = [] := by
  unfold tailtext
  split
  · next h => exact .inr ⟨h, he.drop⟩
  · exact .inl rfl

/-- Behind the options stands the text. -/
lemma IsText.behind (ht : IsText wantsz t) (he : LineEnd e) :
    Ended (tailtext t ++ e) ∧ opttok wantsz ((tailtext t ++ e).drop 1) = none ∧
      resttext ((tailtext t ++ e).drop 1) TVMAX = t := by
  refine ⟨?_, ?_⟩
  · unfold tailtext
    split
    · exact he.ended
    · exact ended_text _
  · rcases tailtext_drop t he with h | ⟨rfl, h⟩
    · rw [h]
      exact ⟨ht.opttok_eq he, ht.resttext_eq he⟩
    · rw [h]
      exact ⟨by cases wantsz <;> rfl, rfl⟩

lemma opttok_sp (hw : Word w) (ho : ∀ r, isopt wantsz (w ++ r) = true) (ht : Ended tail) :
    opttok wantsz ((sp (w :: ws) ++ tail).drop 1) = some (w, (sp ws ++ tail).drop 1) := by
  have hd : ((sp (w :: ws) ++ tail).drop 1).dropWhile isblank = (sp (w :: ws) ++ tail).drop 1 := by
    obtain ⟨c, v, rfl⟩ := List.exists_cons_of_ne_nil hw.1
    have hc := hw.2 c List.mem_cons_self
    simp only [Words.inner, Bool.and_eq_true, Bool.not_eq_true'] at hc
    rw [sp, Words.spaced_cons, List.cons_append, List.drop_one, List.tail_cons, List.cons_append,
      List.cons_append, List.dropWhile_cons_of_neg (by simp [hc.1])]
  have ho' : isopt wantsz ((sp (w :: ws) ++ tail).drop 1) = true := by
    rw [sp, Words.spaced_cons, List.cons_append, List.drop_one, List.tail_cons, List.append_assoc]
    exact ho _
  rw [opttok, hd, ho', if_pos rfl]
  exact tok_sp hw ht

lemma isopt_attr (fl la : ℕ) (r : List Char) :
    isopt wantsz ((('/' :: dec fl) ++ '.' :: dec la) ++ r) = true := by
  obtain ⟨c, v, hv⟩ := List.exists_cons_of_ne_nil (isWord_dec fl).1
  obtain ⟨d, hd, rfl⟩ := dec_nat fl c (by rw [hv]; simp)
  simp [hv, isopt, (digit_facts d hd).1]

/-- **Reading the attribute back**, before a text. -/
lemma opts_attrs {fl la : ℕ} (hf : fl < 256) (hl : la < 4) (hh : h.o_flags = 0)
    (hh' : h.o_layer = 0) (ht : Ended tail) (hn : opttok wantsz (tail.drop 1) = none) :
    opts wantsz h ((sp (attrs fl la) ++ tail).drop 1) = ({ h with
      o_flags := fl
      o_layer := la }, tail.drop 1) := by
  unfold attrs
  split_ifs with hc
  · have hset : setopt (('/' :: dec fl) ++ '.' :: dec la) h = { h with
        o_flags := fl
        o_layer := la } := parseattr_attr hf hl h
    rw [opts_some (opttok_sp (word_attr fl la) (isopt_attr fl la) ht), hset]
    exact opts_none hn
  · push Not at hc
    obtain ⟨rfl, rfl⟩ := hc
    rw [sp, Words.spaced_nil, List.nil_append, opts_none hn]
    cases h
    simp only at hh hh'
    rw [hh, hh']

/-- A size token is read as the size. -/
lemma opts_size {n : ℕ} (hn : n < 3) (ht : Ended tail) :
    opts true h ((sp (('s' :: dec n) :: ws) ++ tail).drop 1)
      = opts true { h with o_rot := n } ((sp ws ++ tail).drop 1) := by
  have hw : Word ('s' :: dec n) := by
    refine ⟨by simp, fun c hc => ?_⟩
    rcases List.mem_cons.mp hc with rfl | hc
    · decide
    · exact (isWord_dec n).2 c hc
  have hdec : dec n = [digit n] ∧ '0' ≤ digit n ∧ digit n ≤ '2' ∧ (digit n).toNat - 48 = n := by
    interval_cases n <;> decide
  have hset : setopt ('s' :: dec n) h = { h with o_rot := n } := by
    simp [setopt, hdec]
  have hsep : isblank ((sp ws ++ tail).getD 0 NUL) ∨ isnl ((sp ws ++ tail).getD 0 NUL) ∨
      (sp ws ++ tail).getD 0 NUL = NUL := by
    rcases hr : sp ws ++ tail with _ | ⟨c, q⟩
    · exact .inr (.inr rfl)
    · have hc := (Words.ended_spaced inner_space ht : Ended (sp ws ++ tail)) c q hr
      simp only [Words.inner, Bool.and_eq_false_iff, Bool.not_eq_false'] at hc
      rcases hc with hc | hc
      · exact .inl hc
      · exact .inr (.inl hc)
  have hopt : opttok true ((sp (('s' :: dec n) :: ws) ++ tail).drop 1)
      = some ('s' :: dec n, (sp ws ++ tail).drop 1) := by
    have hline : (sp (('s' :: dec n) :: ws) ++ tail).drop 1 = 's' :: digit n :: (sp ws ++ tail) := by
      simp [sp, hdec.1]
    have ho : isopt true ((sp (('s' :: dec n) :: ws) ++ tail).drop 1) = true := by
      rw [hline]
      simp only [isopt, List.getD_cons_zero, List.getD_cons_succ, hdec.2.1, hdec.2.2.1]
      simpa [or_assoc] using hsep
    rw [opttok, hline, List.dropWhile_cons_of_neg (by decide), ← hline, ho, if_pos rfl]
    exact tok_sp hw ht
  rw [opts_some hopt, hset]

/-! ### What the parsers can read -/

lemma tok_suffix (hp : tok p = some (t, r)) : r <:+ p := Words.next_suffix hp

lemma pnum_some (hp : pnum p = some (x, r)) : Short x ∧ r <:+ p := by
  obtain ⟨⟨t, q⟩, ht, he⟩ := Option.map_eq_some_iff.mp hp
  cases he
  exact ⟨atoi_range t, tok_suffix ht⟩

lemma p4_some (hp : p4 h p = some (h', r)) : ∃ x y x2 y2, Short x ∧ Short y ∧ Short x2 ∧
    Short y2 ∧ r <:+ p ∧ h' = { h with
      o_x := x
      o_y := y
      o_x2 := x2
      o_y2 := y2 } := by
  simp only [p4, Option.bind_eq_bind, Option.bind_eq_some_iff, Option.pure_def, Option.some.injEq,
    Prod.mk.injEq, Prod.exists] at hp
  obtain ⟨x, p1, h1, y, p2, h2, x2, p3, h3, y2, p4, h4, rfl, rfl⟩ := hp
  obtain ⟨hx, s1⟩ := pnum_some h1
  obtain ⟨hy, s2⟩ := pnum_some h2
  obtain ⟨hx2, s3⟩ := pnum_some h3
  obtain ⟨hy2, s4⟩ := pnum_some h4
  exact ⟨x, y, x2, y2, hx, hy, hx2, hy2, s4.trans (s3.trans (s2.trans s1)), rfl⟩

/-- Attributes in their range. -/
def Attr (h : Head) : Prop := h.o_flags < 256 ∧ h.o_layer < 4

lemma attr_zero (hf : h.o_flags = 0) (hl : h.o_layer = 0) : Attr h :=
  ⟨by omega, by omega⟩

/-- Two objects that differ in their attributes, and perhaps in the size of their text. -/
def SameButAttr (h h' : Head) : Prop := h' = { h with
  o_rot := h'.o_rot
  o_flags := h'.o_flags
  o_layer := h'.o_layer }

lemma parseattr_spec (t : List Char) (h : Head) : SameButAttr h (parseattr t h) ∧
    (parseattr t h).o_rot = h.o_rot ∧ (Attr h → Attr (parseattr t h)) := by
  unfold parseattr
  split
  · exact ⟨rfl, rfl, id⟩
  · next c q =>
    have hf : (atoi q % 256).toNat < 256 := by omega
    split_ifs
    · split
      · exact ⟨rfl, rfl, fun hh => ⟨hf, hh.2⟩⟩
      · next d r hr =>
        have hl : (atoi r % NLAYER).toNat < 4 := by simp only [NLAYER]; omega
        exact ⟨rfl, rfl, fun _ => ⟨hf, hl⟩⟩
    · exact ⟨rfl, rfl, id⟩

lemma lastattr_spec (h : Head) (p : List Char) : SameButAttr h (lastattr h p) ∧
    (lastattr h p).o_rot = h.o_rot ∧ (Attr h → Attr (lastattr h p)) := by
  unfold lastattr
  split
  · exact ⟨rfl, rfl, id⟩
  · exact parseattr_spec _ h

lemma lastattr_eq (h : Head) (p : List Char) : lastattr h p = { h with
    o_flags := (lastattr h p).o_flags
    o_layer := (lastattr h p).o_layer } := by
  obtain ⟨he, hr, -⟩ := lastattr_spec h p
  rw [SameButAttr, hr] at he
  exact he

/-- An option is an attribute, or a size if sizes are wanted. -/
lemma opttok_cases (hp : opttok wantsz p = some (t, r)) : r <:+ p ∧ (t.getD 0 NUL ≠ 's' ∨
    wantsz = true ∧ t.getD 0 NUL = 's' ∧ (t.getD 1 NUL).toNat - 48 < 3) := by
  unfold opttok at hp
  split_ifs at hp with ho
  refine ⟨(tok_suffix hp).trans (List.dropWhile_suffix _), ?_⟩
  rcases hd : p.dropWhile isblank with _ | ⟨a, _ | ⟨b, d⟩⟩
  · rw [hd] at hp
    cases hp
  · rw [hd] at ho
    have h1 : isdigit NUL = false := by decide
    have h3 : decide ('0' ≤ NUL) = false := by decide
    simp [isopt, h1, h3] at ho
  · rw [hd] at ho hp
    simp only [isopt, List.getD_cons_zero, List.getD_cons_succ, Bool.or_eq_true, Bool.and_eq_true,
      decide_eq_true_eq] at ho
    rcases ho with ⟨rfl, -⟩ | ⟨⟨⟨⟨hw, rfl⟩, hb⟩, hb'⟩, -⟩
    · rw [tok, Words.next_cons (by decide)] at hp
      cases hp
      exact .inl (by simp)
    · have hlt : 48 ≤ b.toNat ∧ b.toNat ≤ 50 := ⟨hb, hb'⟩
      have hin : Words.inner isblank isnl b = true := by
        have hne : ∀ k : Char, k.toNat < 48 → b ≠ k := fun k hk he => by rw [he] at hlt; omega
        simp [Words.inner, isblank, isnl, hne ' ' (by decide), hne '\t' (by decide),
          hne '\n' (by decide)]
      rw [tok, Words.next_cons (by decide), List.takeWhile_cons_of_pos hin] at hp
      cases hp
      refine .inr ⟨hw, by simp, ?_⟩
      simp only [List.getD_cons_succ, List.getD_cons_zero]
      omega

lemma opts_spec (wantsz : Bool) (h : Head) (p : List Char) : SameButAttr h (opts wantsz h p).1 ∧
    (opts wantsz h p).2 <:+ p ∧ opttok wantsz (opts wantsz h p).2 = none ∧
    (Attr h → Attr (opts wantsz h p).1) ∧ (wantsz = false → (opts wantsz h p).1.o_rot = h.o_rot) ∧
    (h.o_rot < 3 → (opts wantsz h p).1.o_rot < 3) := by
  fun_induction opts wantsz h p with
  | case1 h p hn => exact ⟨rfl, List.suffix_refl p, hn, id, fun _ => rfl, id⟩
  | case2 h p t r hs ih =>
    obtain ⟨hsuf, hcase⟩ := opttok_cases hs
    obtain ⟨he, hr, hn, ha, hrot, hsize⟩ := ih
    have hset : SameButAttr h (setopt t h) ∧ (Attr h → Attr (setopt t h)) ∧
        (wantsz = false → (setopt t h).o_rot = h.o_rot) ∧
        (h.o_rot < 3 → (setopt t h).o_rot < 3) := by
      rcases hcase with hne | ⟨hw, hs', hlt⟩
      · obtain ⟨he', hr', ha'⟩ := parseattr_spec t h
        rw [setopt, if_neg hne]
        exact ⟨he', ha', fun _ => hr', fun h3 => hr'.trans_lt h3⟩
      · rw [setopt, if_pos hs']
        exact ⟨rfl, id, fun h0 => absurd (hw.symm.trans h0) (by decide), fun _ => hlt⟩
    obtain ⟨he', ha', hrot', hsize'⟩ := hset
    refine ⟨?_, hr.trans hsuf, hn, fun h0 => ha (ha' h0), fun h0 => (hrot h0).trans (hrot' h0),
      fun h0 => hsize (hsize' h0)⟩
    rw [SameButAttr] at he he' ⊢
    rw [he, he']

/-- Whether a text looks like an option, its first three characters say. -/
lemma isopt_take (t : List Char) (hn : 3 ≤ n) : isopt wantsz (t.take n) = isopt wantsz t := by
  obtain ⟨k, rfl⟩ : ∃ k, n = k + 3 := ⟨n - 3, by omega⟩
  rcases t with _ | ⟨a, _ | ⟨b, _ | ⟨c, t⟩⟩⟩ <;> simp [isopt]

lemma isopt_line (d : List Char) : isopt wantsz (d.takeWhile (· ≠ '\n')) = isopt wantsz d := by
  have h1 : isdigit '\n' = false := by decide
  have h2 : isdigit NUL = false := by decide
  have h3 : decide ('0' ≤ NUL) = false := by decide
  have h4 : NUL ≠ '/' := by decide
  have h5 : NUL ≠ 's' := by decide
  rcases d with _ | ⟨a, _ | ⟨b, _ | ⟨c, d⟩⟩⟩
  · rfl
  · by_cases ha : a = '\n' <;> simp [isopt, ha, h2, h3]
  · by_cases ha : a = '\n'
    · simp [isopt, ha, h4, h5]
    · by_cases hb : b = '\n' <;> simp [isopt, ha, hb, h1, h2, h3]
  · by_cases ha : a = '\n'
    · simp [isopt, ha, h4, h5]
    · by_cases hb : b = '\n'
      · simp [isopt, ha, hb, h1, h2, h3]
      · by_cases hc : c = '\n' <;> simp [isopt, ha, hb, hc, isnl]

/-- **What is left of a line behind its options is a text.** -/
theorem isText_resttext (hp : NUL ∉ p) (ho : opttok wantsz p = none)
    (hm : (resttext p TVMAX).head? ≠ some MARK) : IsText wantsz (resttext p TVMAX) := by
  have hsub : resttext p TVMAX ⊆ p := fun c hc =>
    (List.dropWhile_suffix _).subset ((List.takeWhile_prefix _).subset (List.take_subset _ _ hc))
  refine ⟨?_, ?_, fun h => hp (hsub h), ?_, ?_, hm⟩
  · rw [resttext, List.length_take]
    simp only [TVMAX]
    omega
  · intro h
    have := List.mem_takeWhile_imp (List.take_subset _ _ h)
    simp at this
  · rintro c q hq
    have hpre : resttext p TVMAX <+: p.dropWhile isblank :=
      (List.take_prefix _ _).trans (List.takeWhile_prefix _)
    rw [hq] at hpre
    obtain ⟨l, hl⟩ := hpre
    have := List.head_dropWhile_not isblank (l := p) (by rw [← hl]; simp)
    simpa [← hl] using this
  · rw [resttext, isopt_take _ (by decide), isopt_line]
    by_contra hopt
    rw [Bool.not_eq_false] at hopt
    rw [opttok, if_pos hopt] at ho
    rcases hd : p.dropWhile isblank with _ | ⟨a, d⟩
    · rw [hd] at hopt
      have : isopt wantsz [] = false := by cases wantsz <;> decide
      rw [this] at hopt
      cases hopt
    · rw [hd] at hopt ho
      have hin : Words.inner isblank isnl a = true := by
        simp only [isopt, List.getD_cons_zero, Bool.or_eq_true, Bool.and_eq_true,
          decide_eq_true_eq] at hopt
        rcases hopt with ⟨rfl, -⟩ | ⟨⟨⟨⟨-, rfl⟩, -⟩, -⟩, -⟩ <;> decide
      rw [tok, Words.next_cons hin] at ho
      cases ho

end Coherent.Vellum
