import Coherent.VelLine

/-!
The objects a drawing can hold.

`Canon` lists what an object can say when the line parsers have put it into the table. Such an
object is written as a line that gives the same object again, and takes the same room in the
pools.
-/

namespace Coherent.Vellum

open Lib

variable {lib : List SYMDEF} {p q r t w e tail s : List Char} {ws : List (List Char)} {x y : ℤ}
  {c : Char} {P P' P'' : Pools} {o o' : DOBJ} {h h' : Head} {wantsz : Bool} {m m' : ℕ → Char}
  {a n : ℕ}

/-! ### Strings in memory -/

lemma poke_at {i : ℕ} (hi : i < s.length) : poke m a s (a + i) = s[i] := by
  simp [poke, hi]

lemma poke_before {i : ℕ} (hi : i < a) : poke m a s i = m i := if_neg (by omega)

/-- A string that ends before the memory does. -/
lemma cstr_eq (hs : NUL ∉ s) (hn : s.length < n)
    (hm : ∀ i (hi : i < (s ++ [NUL]).length), m (a + i) = (s ++ [NUL])[i]) : cstr m a n = s := by
  obtain ⟨k, rfl⟩ : ∃ k, n = (s ++ [NUL]).length + k :=
    ⟨n - (s.length + 1), by simp only [List.length_append, List.length_singleton]; omega⟩
  have hmap : (List.range (s ++ [NUL]).length).map (fun i => m (a + i)) = s ++ [NUL] := by
    refine List.ext_getElem (by simp) fun i h1 h2 => ?_
    rw [List.getElem_map, List.getElem_range, hm i h2]
  rw [cstr, List.range_add, List.map_append, hmap, List.append_assoc,
    List.takeWhile_append_of_pos fun c hc => by simpa using fun h : c = NUL => hs (h ▸ hc)]
  simp

lemma cstr_strcpy (hs : NUL ∉ s) (hn : s.length < n) : cstr (strcpy m a s) a n = s :=
  cstr_eq hs hn fun _ hi => poke_at hi

/-! ### The pools -/

/-- What is stored in the pools stays. -/
structure Keeps (P P' : Pools) : Prop where
  ppuse : P.ppuse ≤ P'.ppuse
  ppool : ∀ i < P.ppuse, P'.ppool i = P.ppool i
  tpuse : P.tpuse ≤ P'.tpuse
  tpool : ∀ i < P.tpuse, P'.tpool i = P.tpool i

lemma Keeps.refl (P : Pools) : Keeps P P := ⟨le_rfl, fun _ _ => rfl, le_rfl, fun _ _ => rfl⟩

lemma Keeps.trans (h : Keeps P P') (h' : Keeps P' P'') : Keeps P P'' :=
  ⟨h.1.trans h'.1, fun i hi => (h'.2 i (hi.trans_le h.1)).trans (h.2 i hi),
    h.3.trans h'.3, fun i hi => (h'.4 i (hi.trans_le h.3)).trans (h.4 i hi)⟩

/-- The object says the same whatever is stored behind what the pools hold now. -/
def Stored (P : Pools) (o : DOBJ) (q : Seen) : Prop := ∀ P', Keeps P P' → seen P' o = q

lemma Stored.mono {q : Seen} (hq : Stored P o q) (hk : Keeps P P') : Stored P' o q :=
  fun _ h => hq _ (hk.trans h)

lemma Stored.seen_eq {q : Seen} (hq : Stored P o q) : seen P o = q := hq P (Keeps.refl P)

/-- The room of a text in the pool. -/
def tcost (v : List Char) : ℕ := if v.length < VALL then 0 else v.length + 1

/-- The text `setoval` stores. -/
def kept (P : Pools) (s : List Char) : List Char :=
  if VALL ≤ s.length ∧ TPOOL < P.tpuse + s.length + 1 then s.take (VALL - 1) else s

lemma kept_eq (h : P.tpuse + tcost s ≤ TPOOL) : kept P s = s := by
  unfold tcost at h
  rw [kept, if_neg]
  split at h <;> omega

/-- Characters of a two-byte offset. -/
lemma offset_eq (hn : n ≤ TPOOL) :
    (Char.ofNat (n / 256)).toNat * 256 + (Char.ofNat (n % 256)).toNat = n := by
  have hv : ∀ k < 256, (Char.ofNat k).toNat = k := fun k hk => by
    have hv : k.isValidChar := .inl (by omega)
    rw [Char.ofNat, dif_pos hv]
    rfl
  unfold TPOOL at hn
  rw [hv _ (by omega), hv _ (by omega)]
  omega

/-- **What `setoval` does** to an object whose value is empty. -/
theorem setoval_spec (hs : IsText wantsz s) (hP : P.tpuse ≤ TPOOL) :
    Keeps P (setoval P o s).1 ∧ (setoval P o s).2.toHead = o.toHead ∧
      (setoval P o s).1.ppuse = P.ppuse ∧
      (setoval P o s).1.tpuse = P.tpuse + tcost (kept P s) ∧ (setoval P o s).1.tpuse ≤ TPOOL ∧
      ∀ P', Keeps (setoval P o s).1 P' → oval P' (setoval P o s).2 = kept P s := by
  have hlen := hs.len
  have hmark : ∀ k < VALL, strcpy o.o_val 0 (s.take k) 0 ≠ MARK := by
    intro k _
    have hne : MARK ≠ NUL := by decide
    rcases s with _ | ⟨c, q⟩
    · simpa [strcpy, poke] using hne.symm
    · rcases k with _ | k
      · simpa [strcpy, poke] using hne.symm
      · have := hs.noMark
        simpa [strcpy, poke] using this
  have hinline : ∀ P' k, k < VALL →
      oval P' { o with o_val := strcpy o.o_val 0 (s.take k) } = s.take k := by
    intro P' k hk
    rw [oval, if_neg (hmark k hk)]
    have hl : (s.take k).length < VALL := by
      rw [List.length_take]
      omega
    change cstr (strcpy o.o_val 0 (s.take k)) 0 VALL = s.take k
    exact cstr_strcpy (fun h => hs.noNul (List.take_subset _ _ h)) hl
  unfold setoval
  dsimp only
  split_ifs with h1 h2
  · -- short enough for the object itself
    have hk : kept P s = s := if_neg (by omega)
    have ht : s.take s.length = s := List.take_length
    rw [hk, tcost, if_pos h1]
    exact ⟨Keeps.refl P, rfl, rfl, rfl, hP, fun P' _ => by simpa only [ht] using hinline P' _ h1⟩
  · -- the pool is full
    have hmin : min s.length (TVMAX - 1) = s.length := by omega
    rw [hmin] at h2
    have hk : kept P s = s.take (VALL - 1) := if_pos ⟨by omega, h2⟩
    have hl : (s.take (VALL - 1)).length < VALL := by
      rw [List.length_take]
      unfold VALL
      omega
    rw [hk, tcost, if_pos hl]
    exact ⟨Keeps.refl P, rfl, rfl, rfl, hP, fun P' _ => hinline P' _ (by decide)⟩
  · -- into the pool
    have hmin : min s.length (TVMAX - 1) = s.length := by omega
    rw [hmin] at h2
    have hk : kept P s = s := if_neg (by omega)
    rw [hk, tcost, if_neg h1, hmin, List.take_length]
    refine ⟨⟨le_rfl, fun _ _ => rfl, by simp only; omega, fun i hi => poke_before hi⟩, rfl, rfl,
      rfl, by simp only; omega, fun P' hP' => ?_⟩
    have hoff := offset_eq hP
    have hm : poke (poke o.o_val 0 [MARK]) 2
        [Char.ofNat (P.tpuse / 256), Char.ofNat (P.tpuse % 256)] 0 = MARK := by simp [poke]
    rw [oval, if_pos hm]
    simp only [poke, le_refl, if_true, Nat.sub_self, List.getElem?_cons_zero, Option.getD_some,
      show 2 ≤ 3 by omega, show 3 - 2 = 1 from rfl, List.getElem?_cons_succ, hoff]
    refine cstr_eq hs.noNul (by omega) fun i hi => ?_
    have hin : P.tpuse + i < P.tpuse + s.length + 1 := by
      simpa [Nat.add_assoc] using hi
    rw [hP'.tpool _ hin]
    exact poke_at hi

/-- An object that has just been stored, and the room it takes. -/
structure Adds (P P' : Pools) (o : DOBJ) (q : Seen) : Prop where
  keeps : Keeps P P'
  stored : Stored P' o q
  ppuse : P'.ppuse = P.ppuse + q.pts.length
  tpuse : P'.tpuse = P.tpuse + tcost q.val
  pmax : P'.ppuse ≤ PPOOL
  tmax : P'.tpuse ≤ TPOOL

/-- The pools are not overfull. -/
def Room (P : Pools) : Prop := P.ppuse ≤ PPOOL ∧ P.tpuse ≤ TPOOL

/-- A cleared value. -/
lemma oval_cleared (P : Pools) (h : Head) (m : ℕ → Char) : oval P ⟨h, poke m 0 [NUL]⟩ = [] := by
  have h0 : poke m 0 [NUL] 0 ≠ MARK := by
    have hne : NUL ≠ MARK := by decide
    simpa [poke] using hne
  rw [oval, if_neg h0]
  exact cstr_strcpy (m := m) (a := 0) (s := []) (n := VALL) (by simp) (by decide)

lemma tcost_short (hv : w.length < VALL) : tcost w = 0 := if_pos hv

/-- An object with neither a value nor points. -/
lemma adds_plain (hP : Room P) (hs : h.o_type ≠ .SYM) (hp : h.o_type ≠ .POLY) :
    Adds P P ⟨h, poke m 0 [NUL]⟩ ⟨h, [], []⟩ := by
  refine ⟨Keeps.refl P, fun P' _ => ?_, rfl, rfl, hP.1, hP.2⟩
  simp only [seen, hs, hp, if_false, oval_cleared]

/-- An object with a text. -/
lemma adds_text (hP : Room P) (ht : IsText wantsz t) (hs : h.o_type ≠ .SYM)
    (hp : h.o_type ≠ .POLY) :
    Adds P (setoval P ⟨h, m⟩ t).1 (setoval P ⟨h, m⟩ t).2 ⟨h, kept P t, []⟩ := by
  obtain ⟨hk, hh, hpp, htp, hmax, hval⟩ := setoval_spec (o := ⟨h, m⟩) ht hP.2
  refine ⟨hk, fun P' hP' => ?_, hpp, htp, hpp.trans_le hP.1, hmax⟩
  rw [seen, hh, hval P' hP', if_neg hs, if_neg hp]

/-- A symbol. -/
lemma adds_sym (hP : Room P) (hs : h.o_type = .SYM) (hn : NUL ∉ w) :
    Adds P P ⟨h, if w = [] then poke m 0 [NUL] else strcpy (poke m 0 [NUL]) 0 (w.take (VALL - 1))⟩
      ⟨h, w.take 15, []⟩ := by
  have hlen : (w.take 15).length < VALL := by
    rw [List.length_take]
    unfold VALL
    omega
  have hv : cstr (if w = [] then poke m 0 [NUL]
      else strcpy (poke m 0 [NUL]) 0 (w.take (VALL - 1))) 0 VALL = w.take 15 := by
    split_ifs with h0
    · rw [h0]
      exact cstr_strcpy (m := m) (a := 0) (s := []) (n := VALL) (by simp) (by decide)
    · exact cstr_strcpy (fun h => hn (List.take_subset _ _ h)) hlen
  refine ⟨Keeps.refl P, fun P' _ => ?_, rfl, by rw [tcost_short hlen]; rfl, hP.1, hP.2⟩
  have hp : h.o_type ≠ .POLY := by rw [hs]; decide
  simp only [seen, if_pos hs, if_neg hp, hv]

/-! ### Canonical objects -/

def zero : Head := ⟨.SYM, 0, 0, 0, 0, 0, 0, 0, 0, 0, 0, [], 0, 0, 0, 0⟩

/-- A name of at most `k` characters, or none. -/
def Field (k : ℕ) (w : List Char) : Prop :=
  w = [] ∨ Word w ∧ w ≠ ['-'] ∧ w.length ≤ k ∧ NUL ∉ w

/-- The kinds that are two points and nothing else. -/
def twoPoints : OT → Option Char
  | .WIRE => some 'W'
  | .LINE => some 'L'
  | .BOX => some 'B'
  | .CIRC => some 'C'
  | .SYM | .TEXT | .SHAPE | .CONN | .POLY | .ARC | .NNAME | .DIM => none

/-- What an object of a drawing can say. -/
inductive Canon (lib : List SYMDEF) : Seen → Prop
  | sym {s : SYMDEF} {i rot mir fl la g : ℕ} {x y : ℤ} {name val : List Char}
      (hs : lib[i]? = some s) (hi : symbycode lib s.sy_code = some i) (hx : Short x)
      (hy : Short y) (hr : rot < 4) (hm : mir < 2) (hn : Field 7 name) (hv : Field 15 val)
      (hf : fl < 256) (hl : la < 4) :
      Canon lib ⟨{ zero with
        o_type := .SYM
        o_sym := i
        o_rot := rot
        o_mir := mir
        o_x := x
        o_y := y
        o_flags := fl
        o_layer := la
        o_grp := g
        o_name := name }, val, []⟩
  | two {t : OT} {c : Char} {fl la g : ℕ} {x y x2 y2 : ℤ} (ht : twoPoints t = some c)
      (hx : Short x) (hy : Short y) (hx2 : Short x2) (hy2 : Short y2) (hf : fl < 256)
      (hl : la < 4) :
      Canon lib ⟨{ zero with
        o_type := t
        o_x := x
        o_y := y
        o_x2 := x2
        o_y2 := y2
        o_flags := fl
        o_layer := la
        o_grp := g }, [], []⟩
  | text {rot fl la g : ℕ} {x y : ℤ} {v : List Char} (hx : Short x) (hy : Short y)
      (hr : rot < 3) (hv : IsText true v) (hne : v ≠ []) (hf : fl < 256) (hl : la < 4) :
      Canon lib ⟨{ zero with
        o_type := .TEXT
        o_rot := rot
        o_x := x
        o_y := y
        o_flags := fl
        o_layer := la
        o_grp := g }, v, []⟩
  | shape {i fl la g : ℕ} {x y x2 y2 : ℤ} {v : List Char} (hi : i < 9) (hx : Short x)
      (hy : Short y) (hx2 : Short x2) (hy2 : Short y2) (hv : IsText false v) (hf : fl < 256)
      (hl : la < 4) :
      Canon lib ⟨{ zero with
        o_type := .SHAPE
        o_sym := i
        o_x := x
        o_y := y
        o_x2 := x2
        o_y2 := y2
        o_flags := fl
        o_layer := la
        o_grp := g }, v, []⟩
  | conn {i fl la g : ℕ} {x y x2 y2 a0 k0 a1 k1 : ℤ} (hi : i < 4) (hx : Short x)
      (hy : Short y) (hx2 : Short x2) (hy2 : Short y2) (hf : fl < 256) (hl : la < 4) :
      Canon lib ⟨{ zero with
        o_type := .CONN
        o_sym := i
        o_x := x
        o_y := y
        o_x2 := x2
        o_y2 := y2
        o_flags := fl
        o_layer := la
        o_grp := g
        on0 := a0
        on1 := k0
        on2 := a1
        on3 := k1 }, [], []⟩
  | poly {np b fl la g : ℕ} {ps : List ℤ} (h2 : 2 ≤ np) (h20 : np ≤ PMAXPT)
      (hl : ps.length = 2 * np) (hs : ∀ x ∈ ps, Short x) (hf : fl < 256) (hla : la < 4) :
      Canon lib ⟨{ zero with
        o_type := .POLY
        o_sym := np
        o_x := ps.getD 0 0
        o_y := ps.getD 1 0
        o_x2 := b
        o_flags := fl
        o_layer := la
        o_grp := g }, [], ps⟩
  | arc {fl la g : ℕ} {x y r a0 a1 : ℤ} (hx : Short x) (hy : Short y) (hr : Short r)
      (h0 : Short a0) (h1 : Short a1) (hf : fl < 256) (hl : la < 4) :
      Canon lib ⟨{ zero with
        o_type := .ARC
        o_x := x
        o_y := y
        o_x2 := r
        o_flags := fl
        o_layer := la
        o_grp := g
        on0 := a0
        on1 := a1 }, [], []⟩
  | nname {g : ℕ} {x y : ℤ} {name : List Char} (hx : Short x) (hy : Short y) (hw : Word name)
      (hl : name.length ≤ 7) (hn : NUL ∉ name) :
      Canon lib ⟨{ zero with
        o_type := .NNAME
        o_x := x
        o_y := y
        o_grp := g
        o_name := name }, [], []⟩
  | dim {fl la g : ℕ} {x y x2 y2 : ℤ} {v : List Char} (hx : Short x) (hy : Short y)
      (hx2 : Short x2) (hy2 : Short y2) (hv : IsText false v) (hf : fl < 256) (hl : la < 4) :
      Canon lib ⟨{ zero with
        o_type := .DIM
        o_x := x
        o_y := y
        o_x2 := x2
        o_y2 := y2
        o_flags := fl
        o_layer := la
        o_grp := g }, v, []⟩

/-! ### What a line can put into the table -/

lemma take_field {k : ℕ} (hw : Word w) (hne : w ≠ ['-']) (hn : NUL ∉ w) :
    Field (k + 2) (w.take (k + 2)) := by
  obtain ⟨c, v, rfl⟩ := List.exists_cons_of_ne_nil hw.1
  refine .inr ⟨⟨by simp, fun d hd => hw.2 d (List.take_subset _ _ hd)⟩, fun h => ?_,
    List.length_take_le _ _, fun h => hn (List.take_subset _ _ h)⟩
  rcases v with _ | ⟨d, v⟩
  · exact hne (by simpa using h)
  · simp at h

lemma fieldtok_spec (hp : NUL ∉ p) : (fieldtok p).2 <:+ p ∧ ((fieldtok p).1 = [] ∨
    Word (fieldtok p).1 ∧ (fieldtok p).1 ≠ ['-'] ∧ NUL ∉ (fieldtok p).1) := by
  unfold fieldtok
  split
  · exact ⟨List.suffix_refl p, .inl rfl⟩
  · next t r ht =>
    refine ⟨tok_suffix ht, ?_⟩
    by_cases hd : t = ['-']
    · exact .inl (if_pos hd)
    · simp only [if_neg hd]
      exact .inr ⟨Words.isWord_of_next ht, hd, fun h => hp (Words.next_subset ht h)⟩

lemma field_take {k : ℕ} (h : w = [] ∨ Word w ∧ w ≠ ['-'] ∧ NUL ∉ w) :
    Field (k + 2) (w.take (k + 2)) := by
  rcases h with rfl | ⟨hw, hne, hn⟩
  · exact .inl rfl
  · exact take_field hw hne hn

lemma symbycode_spec {i : ℕ} (h : symbycode lib t = some i) :
    ∃ s, lib[i]? = some s ∧ s.sy_code = t := by
  obtain ⟨hi, hp, -⟩ := List.findIdx?_eq_some_iff_getElem.mp h
  exact ⟨lib[i], List.getElem?_eq_getElem hi, by simpa using hp⟩

/-- The ends of a connector before they are resolved. -/
def Ends (h : Head) : Prop := h.o_type = .CONN →
  (h.on0 = -1 ∨ h.on0 = -2) ∧ h.on1 = 0 ∧ (h.on2 = -1 ∨ h.on2 = -2) ∧ h.on3 = 0

/-- What has just been read into the table. -/
structure Fresh (lib : List SYMDEF) (P : Pools) (q : Seen) : Prop where
  canon : Canon lib q
  ends : Ends q.toHead
  grp : q.o_grp = 0
  base : q.o_type = .POLY → q.o_x2 = P.ppuse

/-- The text a line hands to `setoval`. -/
def handed (c : Char) (o : Head) (p : List Char) : Option (List Char) :=
  if c = 'T' then (p_text o p).map Prod.snd
  else if c = 'S' then (p_shape o p).map Prod.snd
  else if c = 'D' then (p_dim o p).map Prod.snd
  else none

lemma p_sym_spec (o : DOBJ) (hP : Room P) (hn : NUL ∉ p)
    (hr : p_sym lib (initobj o) p = some o') : ∃ q, Fresh lib P q ∧ Adds P P o' q := by
  simp only [p_sym, Option.bind_eq_bind, Option.bind_eq_some_iff, Option.pure_def,
    Option.some.injEq, Prod.exists] at hr
  obtain ⟨t, p1, h1, si, h2, x, p3, h3, y, p4, h4, rot, p5, h5, mir, p6, h6, rfl⟩ := hr
  obtain ⟨s, hs, rfl⟩ := symbycode_spec h2
  obtain ⟨hx, s3⟩ := pnum_some h3
  obtain ⟨hy, s4⟩ := pnum_some h4
  obtain ⟨-, s5⟩ := pnum_some h5
  obtain ⟨-, s6⟩ := pnum_some h6
  have hsub : p6 <:+ p := s6.trans (s5.trans (s4.trans (s3.trans (tok_suffix h1))))
  obtain ⟨s7, hname⟩ := fieldtok_spec (p := p6) fun h => hn (hsub.subset h)
  obtain ⟨s8, hval⟩ := fieldtok_spec (p := (fieldtok p6).2) fun h =>
    hn (hsub.subset (s7.subset h))
  have hnul : NUL ∉ (fieldtok (fieldtok p6).2).1 := by
    rcases hval with h | h
    · simp [h]
    · exact h.2.2
  have hattr := (lastattr_spec { (initobj o).toHead with
    o_type := .SYM
    o_sym := si
    o_x := x
    o_y := y
    o_rot := (rot % 4).toNat
    o_mir := (mir % 2).toNat
    o_name := (fieldtok p6).1.take (NAMEL - 1) } (fieldtok (fieldtok p6).2).2).2.2
    (attr_zero rfl rfl)
  have hrot : (rot % 4).toNat < 4 := by omega
  have hmir : (mir % 2).toNat < 2 := by omega
  refine ⟨⟨_, _, []⟩, ⟨?_, ?_, ?_, ?_⟩, adds_sym hP ?_ hnul⟩ <;> rw [lastattr_eq]
  · exact Canon.sym hs h2 hx hy hrot hmir (field_take (k := 5) hname) (field_take (k := 13) hval)
      hattr.1 hattr.2
  · exact fun h => by cases h
  · rfl
  · exact fun h => by cases h

/-- A fresh object with neither a value nor points. -/
def FreshPlain (lib : List SYMDEF) (P : Pools) (h : Head) : Prop :=
  Fresh lib P ⟨h, [], []⟩ ∧ h.o_type ≠ .SYM ∧ h.o_type ≠ .POLY

lemma FreshPlain.adds (hf : FreshPlain lib P h) (hP : Room P) :
    ∃ q, Fresh lib P q ∧ Adds P P ⟨h, poke m 0 [NUL]⟩ q :=
  ⟨_, hf.1, adds_plain hP hf.2.1 hf.2.2⟩

lemma p_nname_spec (o : DOBJ) (hn : NUL ∉ p) (hr : p_nname (initobj o).toHead p = some h') :
    FreshPlain lib P h' := by
  simp only [p_nname, Option.bind_eq_bind, Option.bind_eq_some_iff, Option.pure_def,
    Option.some.injEq, Prod.exists] at hr
  obtain ⟨x, p1, h1, y, p2, h2, t, p3, h3, rfl⟩ := hr
  obtain ⟨hx, s1⟩ := pnum_some h1
  obtain ⟨hy, s2⟩ := pnum_some h2
  have hw := Words.isWord_of_next h3
  have hw7 : Word (t.take 7) := by
    obtain ⟨c, v, rfl⟩ := List.exists_cons_of_ne_nil hw.1
    exact ⟨by simp, fun d hd => hw.2 d (List.take_subset _ _ hd)⟩
  have hn7 : NUL ∉ t.take 7 := fun h => hn
    ((s2.trans s1).subset (Words.next_subset h3 (List.take_subset _ _ h)))
  exact ⟨⟨Canon.nname hx hy hw7 (List.length_take_le _ _) hn7, (fun h => by cases h), rfl,
    (fun h => by cases h)⟩, by simp, by simp⟩

lemma twoPoints_fixtype (c : Char) : ∃ d, twoPoints (fixtype c) = some d := by
  unfold fixtype
  split_ifs
  exacts [⟨_, rfl⟩, ⟨_, rfl⟩, ⟨_, rfl⟩, ⟨_, rfl⟩]

lemma twoPoints_ne {t : OT} (h : twoPoints t = some c) : t ≠ .SYM ∧ t ≠ .POLY ∧ t ≠ .CONN := by
  cases t <;> simp [twoPoints] at h ⊢

lemma p_fix_spec (o : DOBJ) (hn : NUL ∉ p) (hr : p_fix c (initobj o).toHead p = some h') :
    FreshPlain lib P h' := by
  unfold p_fix at hr
  by_cases hN : c = 'N'
  · rw [if_pos hN] at hr
    exact p_nname_spec o hn hr
  · rw [if_neg hN] at hr
    simp only [Option.bind_eq_bind, Option.bind_eq_some_iff, Option.pure_def,
      Option.some.injEq, Prod.exists] at hr
    obtain ⟨h1, r, h4, rfl⟩ := hr
    obtain ⟨x, y, x2, y2, hx, hy, hx2, hy2, -, rfl⟩ := p4_some h4
    have hattr := (lastattr_spec { (initobj o).toHead with
      o_type := fixtype c
      o_x := x
      o_y := y
      o_x2 := x2
      o_y2 := y2 } r).2.2 (attr_zero rfl rfl)
    obtain ⟨d, hd⟩ := twoPoints_fixtype c
    obtain ⟨hs, hp, hk⟩ := twoPoints_ne hd
    refine ⟨⟨?_, ?_, ?_, ?_⟩, ?_, ?_⟩ <;> rw [lastattr_eq]
    · exact Canon.two hd hx hy hx2 hy2 hattr.1 hattr.2
    · exact fun h => absurd h hk
    · rfl
    · exact fun h => absurd h hp
    · exact hs
    · exact hp

lemma p_arc_spec (o : DOBJ) (hr : p_arc (initobj o).toHead p = some h') : FreshPlain lib P h' := by
  simp only [p_arc, Option.bind_eq_bind, Option.bind_eq_some_iff, Option.pure_def,
    Option.some.injEq, Prod.exists] at hr
  obtain ⟨x, p1, h1, y, p2, h2, r, p3, h3, a0, p4, h4, a1, p5, h5, rfl⟩ := hr
  have hattr := (lastattr_spec { (initobj o).toHead with
    o_type := .ARC
    o_x := x
    o_y := y
    o_x2 := r
    on0 := a0
    on1 := a1 } p5).2.2 (attr_zero rfl rfl)
  refine ⟨⟨?_, ?_, ?_, ?_⟩, ?_, ?_⟩ <;> rw [lastattr_eq]
  · exact Canon.arc (pnum_some h1).1 (pnum_some h2).1 (pnum_some h3).1 (pnum_some h4).1
      (pnum_some h5).1 hattr.1 hattr.2
  · exact fun h => by cases h
  · rfl
  · exact fun h => by cases h
  · simp
  · simp

lemma attached_cases (t : List Char) : attached t = -1 ∨ attached t = -2 := by
  unfold attached
  split
  · exact .inr rfl
  · exact .inl rfl

lemma csname_spec {i : ℕ} (h : csname.findIdx? (· = t) = some i) : i < 4 :=
  (List.findIdx?_eq_some_iff_getElem.mp h).1

lemma shname_spec {i : ℕ} (h : shname.findIdx? (· = t) = some i) : i < 9 :=
  (List.findIdx?_eq_some_iff_getElem.mp h).1

lemma p_conn_spec (o : DOBJ) (hr : p_conn (initobj o).toHead p = some h') :
    FreshPlain lib P h' := by
  simp only [p_conn, Option.bind_eq_bind, Option.bind_eq_some_iff, Option.pure_def,
    Prod.exists] at hr
  obtain ⟨t, p1, h1, si, h2, hd, p2, h3, hr⟩ := hr
  obtain ⟨x, y, x2, y2, hx, hy, hx2, hy2, -, rfl⟩ := p4_some h3
  have hsi := csname_spec h2
  have hf0 : 0 < 256 := by omega
  have hl0 : 0 < 4 := by omega
  split at hr
  · -- no attachments
    cases hr
    exact ⟨⟨Canon.conn hsi hx hy hx2 hy2 hf0 hl0, fun _ => ⟨.inl rfl, rfl, .inl rfl,
      rfl⟩, rfl, (fun h => by cases h)⟩, by simp, by simp⟩
  · next t0 p3 _ =>
    split at hr
    · -- the first one only
      cases hr
      exact ⟨⟨Canon.conn hsi hx hy hx2 hy2 hf0 hl0, fun _ => ⟨attached_cases t0,
        rfl, .inl rfl, rfl⟩, rfl, (fun h => by cases h)⟩, by simp, by simp⟩
    · next t1 p4 _ =>
      cases hr
      have hattr := (lastattr_spec { (initobj o).toHead with
        o_type := .CONN
        o_sym := si
        o_x := x
        o_y := y
        o_x2 := x2
        o_y2 := y2
        on0 := attached t0
        on2 := attached t1 } p4).2.2 (attr_zero rfl rfl)
      refine ⟨⟨?_, ?_, ?_, ?_⟩, ?_, ?_⟩ <;> rw [lastattr_eq]
      · exact Canon.conn hsi hx hy hx2 hy2 hattr.1 hattr.2
      · exact fun _ => ⟨attached_cases t0, rfl, attached_cases t1, rfl⟩
      · rfl
      · exact fun h => by cases h
      · simp
      · simp

lemma isText_kept (ht : IsText wantsz t) : IsText wantsz (kept P t) := by
  unfold kept
  split_ifs with h
  · have hpos : 0 < VALL - 1 := by decide
    refine ⟨?_, fun hc => ht.noNl (List.take_subset _ _ hc),
      fun hc => ht.noNul (List.take_subset _ _ hc), fun c q hq => ?_, ?_, ?_⟩
    · have := ht.len
      rw [List.length_take]
      omega
    · rcases t with _ | ⟨d, t⟩
      · simp at hq
      · have := ht.head d t rfl
        simp only [VALL, List.take_succ_cons, List.cons.injEq] at hq
        rwa [← hq.1]
    · rw [isopt_take _ (by decide), ht.noOpt]
    · rw [List.head?_take, if_neg (by omega)]
      exact ht.noMark
  · exact ht

lemma kept_ne_nil (hne : t ≠ []) : kept P t ≠ [] := by
  unfold kept
  split_ifs
  · obtain ⟨c, v, rfl⟩ := List.exists_cons_of_ne_nil hne
    simp [VALL]
  · exact hne

/-- A fresh object with a text, as it is handed to `setoval`. -/
def FreshText (lib : List SYMDEF) (P : Pools) (h : Head) (t : List Char) : Prop :=
  Fresh lib P ⟨h, kept P t, []⟩ ∧ (∃ wantsz, IsText wantsz t) ∧ h.o_type ≠ .SYM ∧
    h.o_type ≠ .POLY

lemma FreshText.adds (hf : FreshText lib P h t) (hP : Room P) :
    ∃ q, Fresh lib P q ∧ Adds P (setoval P ⟨h, m⟩ t).1 (setoval P ⟨h, m⟩ t).2 q := by
  obtain ⟨hfr, ⟨w, hw⟩, hs, hp⟩ := hf
  exact ⟨_, hfr, adds_text hP hw hs hp⟩

lemma p_text_spec (o : DOBJ) (hn : NUL ∉ p) (hr : p_text (initobj o).toHead p = some (h', t))
    (hm : t.head? ≠ some MARK) : FreshText lib P h' t := by
  simp only [p_text, Option.bind_eq_bind, Option.bind_eq_some_iff, Prod.exists] at hr
  obtain ⟨x, p1, h1, y, p2, h2, hr⟩ := hr
  obtain ⟨hx, s1⟩ := pnum_some h1
  obtain ⟨hy, s2⟩ := pnum_some h2
  split_ifs at hr with hne
  cases hr
  obtain ⟨he, hsuf, hopt, hattr, -, hrot⟩ := opts_spec true { (initobj o).toHead with
    o_type := .TEXT
    o_rot := 2
    o_x := x
    o_y := y } p2
  have ht := isText_resttext (fun h => hn ((hsuf.trans (s2.trans s1)).subset h)) hopt hm
  have hattr' := hattr (attr_zero rfl rfl)
  have hrot' := hrot (show 2 < 3 by omega)
  rw [SameButAttr] at he
  refine ⟨⟨?_, ?_, ?_, ?_⟩, ⟨true, ht⟩, ?_, ?_⟩ <;> rw [he]
  · exact Canon.text hx hy hrot' (isText_kept ht) (kept_ne_nil hne) hattr'.1 hattr'.2
  · exact fun h => by cases h
  · rfl
  · exact fun h => by cases h
  · simp
  · simp

/-- The end of a line of a shape or a dimension. -/
lemma opttext_spec (hr : opttext h p = (h', t)) (hh : Attr h) (hn : NUL ∉ p)
    (hm : t.head? ≠ some MARK) : IsText false t ∧ Attr h' ∧ h' = { h with
      o_flags := h'.o_flags
      o_layer := h'.o_layer } := by
  obtain ⟨he, hsuf, hopt, hattr, hrot, -⟩ := opts_spec false h p
  obtain ⟨rfl, rfl⟩ := Prod.mk.inj hr
  rw [SameButAttr, hrot rfl] at he
  exact ⟨isText_resttext (fun h => hn (hsuf.subset h)) hopt hm, hattr hh, he⟩

lemma p_shape_spec (o : DOBJ) (hn : NUL ∉ p) (hr : p_shape (initobj o).toHead p = some (h', t))
    (hm : t.head? ≠ some MARK) : FreshText lib P h' t := by
  simp only [p_shape, Option.bind_eq_bind, Option.bind_eq_some_iff, Option.pure_def,
    Option.some.injEq, Prod.exists] at hr
  obtain ⟨w, p1, h1, si, h2, hd, p2, h3, hr⟩ := hr
  obtain ⟨x, y, x2, y2, hx, hy, hx2, hy2, hsuf, hd⟩ := p4_some h3
  obtain ⟨ht, hattr, he⟩ := opttext_spec hr (by rw [hd]; exact attr_zero rfl rfl)
    (fun h => hn ((hsuf.trans (tok_suffix h1)).subset h)) hm
  refine ⟨⟨?_, ?_, ?_, ?_⟩, ⟨false, ht⟩, ?_, ?_⟩ <;> rw [he, hd]
  · exact Canon.shape (shname_spec h2) hx hy hx2 hy2 (isText_kept ht) hattr.1 hattr.2
  · exact fun h => by cases h
  · rfl
  · exact fun h => by cases h
  · simp
  · simp

lemma p_dim_spec (o : DOBJ) (hn : NUL ∉ p) (hr : p_dim (initobj o).toHead p = some (h', t))
    (hm : t.head? ≠ some MARK) : FreshText lib P h' t := by
  simp only [p_dim, Option.bind_eq_bind, Option.bind_eq_some_iff, Option.pure_def,
    Option.some.injEq, Prod.exists] at hr
  obtain ⟨hd, p2, h3, hr⟩ := hr
  obtain ⟨x, y, x2, y2, hx, hy, hx2, hy2, hsuf, hd⟩ := p4_some h3
  obtain ⟨ht, hattr, he⟩ := opttext_spec hr (by rw [hd]; exact attr_zero rfl rfl)
    (fun h => hn (hsuf.subset h)) hm
  refine ⟨⟨?_, ?_, ?_, ?_⟩, ⟨false, ht⟩, ?_, ?_⟩ <;> rw [he, hd]
  · exact Canon.dim hx hy hx2 hy2 (isText_kept ht) hattr.1 hattr.2
  · exact fun h => by cases h
  · rfl
  · exact fun h => by cases h
  · simp
  · simp

/-! ### Points -/

lemma readpts_before {i k : ℕ} {g : ℕ → ℤ} {j : ℕ} (hj : j < i) :
    (readpts i k g p).1 j = g j := by
  induction k generalizing i g p with
  | zero => rfl
  | succ k ih =>
    rw [readpts]
    split
    · rfl
    · rw [ih (by omega), Function.update_of_ne (by omega)]

lemma readpts_short {i k : ℕ} {g : ℕ → ℤ} (hr : (readpts i k g p).2 = some r) :
    ∀ j, i ≤ j → j < i + k → Short ((readpts i k g p).1 j) := by
  induction k generalizing i g p with
  | zero => intro j h1 h2; omega
  | succ k ih =>
    rw [readpts] at hr ⊢
    split
    · next h => rw [h] at hr; cases hr
    · next x p' h =>
      rw [h] at hr
      intro j h1 h2
      rcases h1.eq_or_lt with rfl | h1
      · rw [readpts_before (by omega), Function.update_self]
        exact (pnum_some h).1
      · exact ih hr j (by omega) (by omega)

/-- The points of a polyline, read from the place on where the pool is free. -/
lemma readpts_keeps (k : ℕ) : Keeps P { P with ppool := (readpts P.ppuse k P.ppool p).1 } :=
  ⟨le_rfl, fun _ hi => readpts_before hi, le_rfl, fun _ _ => rfl⟩

/-- The points in the pool, from place `i` on. -/
def points (g : ℕ → ℤ) (i k : ℕ) : List ℤ := (List.range k).map fun j => g (i + j)

lemma points_getD {g : ℕ → ℤ} {i k j : ℕ} (hj : j < k) : (points g i k).getD j 0 = g (i + j) := by
  simp [points, hj]

/-- A polyline. -/
lemma adds_poly {g : ℕ → ℤ} {np : ℕ} (hP : Room P) (hk : Keeps P { P with ppool := g })
    (hfit : P.ppuse + 2 * np ≤ PPOOL) (ht : h.o_type = .POLY) (hs : h.o_sym = np)
    (hb : h.o_x2 = P.ppuse) :
    Adds P { P with
        ppool := g
        ppuse := P.ppuse + 2 * np } ⟨h, poke m 0 [NUL]⟩ ⟨h, [], points g P.ppuse (2 * np)⟩ := by
  refine ⟨⟨Nat.le_add_right _ _, hk.ppool, le_rfl, fun _ _ => rfl⟩, fun P' hP' => ?_,
    by simp [points], rfl, hfit, hP.2⟩
  have hsym : h.o_type ≠ .SYM := by rw [ht]; decide
  have hpts : (List.range (2 * np)).map (fun i => P'.ppool (P.ppuse + i))
      = points g P.ppuse (2 * np) := by
    refine List.map_congr_left fun i hi => hP'.ppool _ ?_
    have := List.mem_range.mp hi
    change P.ppuse + i < P.ppuse + 2 * np
    omega
  simp only [seen, if_neg hsym, if_pos ht, oval_cleared, hs, hb, Int.toNat_natCast, hpts]

/-- **What a `P` line does**, accepted or not. -/
lemma p_poly_spec (lib : List SYMDEF) (o : DOBJ) (hP : Room P) :
    (p_poly P (initobj o).toHead p).2 = none ∧ Keeps P (p_poly P (initobj o).toHead p).1 ∧
        (p_poly P (initobj o).toHead p).1.ppuse = P.ppuse ∧
        (p_poly P (initobj o).toHead p).1.tpuse = P.tpuse ∨
      ∃ h' q, (p_poly P (initobj o).toHead p).2 = some h' ∧ Fresh lib P q ∧
        Adds P (p_poly P (initobj o).toHead p).1 ⟨h', poke o.o_val 0 [NUL]⟩ q := by
  unfold p_poly
  split
  · exact .inl ⟨rfl, Keeps.refl P, rfl, rfl⟩
  · next t r ht =>
    dsimp only
    split_ifs with hc
    · exact .inl ⟨rfl, Keeps.refl P, rfl, rfl⟩
    · push Not at hc
      obtain ⟨h2, h20, hfit⟩ := hc
      obtain ⟨np, hnp⟩ : ∃ np : ℕ, atoi t = np := ⟨(atoi t).toNat, by omega⟩
      rw [hnp, Int.toNat_natCast]
      rw [hnp] at h2 h20 hfit
      have hk := readpts_keeps (P := P) (p := r) (2 * np)
      have hshort := fun r' hr' => readpts_short (i := P.ppuse) (k := 2 * np) (g := P.ppool) (p := r)
        (r := r') hr'
      rcases hread : readpts P.ppuse (2 * np) P.ppool r with ⟨g, _ | r'⟩
      · rw [hread] at hk
        exact .inl ⟨rfl, hk, rfl, rfl⟩
      · rw [hread] at hk hshort
        refine .inr ⟨_, ⟨_, [], points g P.ppuse (2 * np)⟩, rfl, ⟨?_, ?_, ?_, ?_⟩,
          adds_poly hP hk (by omega) ?_ ?_ ?_⟩ <;> rw [lastattr_eq]
        · have hpts : ∀ x ∈ points g P.ppuse (2 * np), Short x := by
            intro x hx
            obtain ⟨j, hj, rfl⟩ := List.mem_map.mp hx
            have := List.mem_range.mp hj
            exact hshort r' rfl _ (by omega) (by omega)
          have hattr := (lastattr_spec { (initobj o).toHead with
            o_type := .POLY
            o_sym := np
            o_x2 := P.ppuse
            o_x := g P.ppuse
            o_y := g (P.ppuse + 1) } r').2.2 (attr_zero rfl rfl)
          have hcanon := @Canon.poly lib np P.ppuse _ _ 0 _ (by omega) (by omega) (by simp [points])
            hpts hattr.1 hattr.2
          rw [points_getD (by omega), points_getD (by omega)] at hcanon
          exact hcanon
        · exact fun h => by cases h
        · rfl
        · exact fun _ => rfl

/-! ### A line -/

/-- What a line does to the pools and the free place, accepted or not. -/
def Outcome (lib : List SYMDEF) (P : Pools) (r : Pools × Option DOBJ) : Prop :=
  r.2 = none ∧ Keeps P r.1 ∧ r.1.ppuse = P.ppuse ∧ r.1.tpuse = P.tpuse ∨
    ∃ o q, r.2 = some o ∧ Fresh lib P q ∧ Adds P r.1 o q

lemma outcome_none : Outcome lib P (P, none) := .inl ⟨rfl, Keeps.refl P, rfl, rfl⟩

lemma outcome_plain (hP : Room P) (o : DOBJ) {r : Option Head}
    (hr : ∀ h, r = some h → FreshPlain lib P h) : Outcome lib P (plain P (initobj o) r) := by
  rcases r with _ | h
  · exact outcome_none
  · obtain ⟨q, hq, ha⟩ := (hr h rfl).adds (m := o.o_val) hP
    exact .inr ⟨_, q, rfl, hq, ha⟩

lemma outcome_pooled (hP : Room P) (o : DOBJ) {r : Option (Head × List Char)}
    (hr : ∀ h t, r = some (h, t) → FreshText lib P h t) :
    Outcome lib P (pooled P (initobj o) r) := by
  rcases r with _ | ⟨h, t⟩
  · exact outcome_none
  · obtain ⟨q, hq, ha⟩ := (hr h t rfl).adds (m := (initobj o).o_val) hP
    exact .inr ⟨_, q, rfl, hq, ha⟩

/-- **What any line does**, if its text does not begin with the marker byte. -/
theorem pdisp_spec (lib : List SYMDEF) (o : DOBJ) (hP : Room P) (hn : NUL ∉ p)
    (hm : ∀ t, handed c (initobj o).toHead p = some t → t.head? ≠ some MARK) :
    Outcome lib P (pdisp lib c P (initobj o) p) := by
  have hmark : ∀ {r : Option (Head × List Char)} {h t}, handed c (initobj o).toHead p
      = r.map Prod.snd → r = some (h, t) → t.head? ≠ some MARK := fun he hr =>
    hm _ (by rw [he, hr]; rfl)
  unfold handed at hmark
  unfold pdisp
  split_ifs with h1 h2 h3 h4 h5 h6 h7 h8
  · rcases hr : p_sym lib (initobj o) p with _ | o'
    · exact outcome_none
    · obtain ⟨q, hq, ha⟩ := p_sym_spec o hP hn hr
      exact .inr ⟨_, q, rfl, hq, ha⟩
  · exact outcome_pooled hP o fun h t hr =>
      p_text_spec o hn hr (hmark (by rw [if_pos h2]) hr)
  · exact outcome_pooled hP o fun h t hr =>
      p_shape_spec o hn hr (hmark (by rw [if_neg h2, if_pos h3]) hr)
  · exact outcome_plain hP o fun h hr => p_conn_spec o hr
  · rcases p_poly_spec (p := p) lib o hP with ⟨hr, hk, hp, ht⟩ | ⟨h, q, hr, hq, ha⟩
    · exact .inl ⟨by simp [plain, hr], hk, hp, ht⟩
    · exact .inr ⟨_, q, by simp only [plain, hr, Option.map_some]; rfl, hq, ha⟩
  · exact outcome_plain hP o fun h hr => p_arc_spec o hr
  · exact outcome_pooled hP o fun h t hr =>
      p_dim_spec o hn hr (hmark (by rw [if_neg h2, if_neg h3, if_pos h7]) hr)
  · exact outcome_plain hP o fun h hr => p_fix_spec o hn hr
  · exact outcome_none

end Coherent.Vellum
