import Coherent.Kermit

/-!
The packets of `kermit`: `rpack` reads what `spack` writes, and `bufemp` writes what `bufill` reads.
-/

namespace Coherent.Kermit

open Coherent.Lib

variable {image : Bool} {buf data : Mem} {l : List ℕ}

/-! ### Buffers -/

lemma store_apply (buf : Mem) (i : ℕ) (l : List ℕ) (j : ℤ) :
    store buf i l j = if (i : ℤ) ≤ j ∧ j < i + l.length then l.getD (j - i).toNat 0 else buf j := by
  induction l generalizing buf i with
  | nil =>
    rw [store, if_neg]
    simp only [List.length_nil]
    omega
  | cons c l ih =>
    rw [store, ih]
    simp only [List.length_cons]
    rcases lt_trichotomy j i with hj | rfl | hj
    · rw [if_neg (by omega), if_neg (by omega), Function.update_of_ne (by omega)]
    · rw [if_neg (by omega), if_pos (by omega), Function.update_self]
      simp
    · by_cases hlt : j < (i : ℤ) + (l.length + 1 : ℕ)
      · rw [if_pos (by omega), if_pos (by omega)]
        obtain ⟨k, hk⟩ : ∃ k : ℕ, j = i + (k + 1 : ℕ) := ⟨(j - i - 1).toNat, by omega⟩
        subst hk
        rw [show ((i : ℤ) + (k + 1 : ℕ) - i).toNat = k + 1 by omega,
          show ((i : ℤ) + (k + 1 : ℕ) - (i + 1 : ℕ)).toNat = k by omega, List.getD_cons_succ]
      · rw [if_neg (by omega), if_neg (by omega), Function.update_of_ne (by omega)]

@[simp] lemma slice_length (data : Mem) (i : ℤ) (n : ℕ) : (slice data i n).length = n := by
  simp [slice]

lemma slice_congr {data data' : Mem} {i : ℤ} {n : ℕ}
    (h : ∀ j, i ≤ j → j < i + n → data j = data' j) : slice data i n = slice data' i n := by
  refine List.map_congr_left fun k hk => h _ (by omega) ?_
  have := List.mem_range.mp hk
  omega

lemma slice_succ (data : Mem) (i : ℤ) (n : ℕ) :
    slice data i (n + 1) = data i :: slice data (i + 1) n := by
  rw [slice, List.range_succ_eq_map, List.map_cons, List.map_map]
  simp only [Nat.cast_zero, add_zero, slice]
  congr 1
  refine List.map_congr_left fun k _ => ?_
  simp only [Function.comp, Nat.succ_eq_add_one, Nat.cast_add, Nat.cast_one]
  congr 1
  ring

/-- What has been stored is there. -/
lemma slice_store (buf : Mem) (l : List ℕ) : slice (store buf 0 l) 0 l.length = l := by
  refine List.ext_getElem (by simp) fun k hk hk' => ?_
  simp only [slice, List.getElem_map, List.getElem_range]
  rw [store_apply, if_pos (by simp; omega)]
  simp [hk']

/-- The terminator behind them does not change that. -/
lemma slice_terminated (buf : Mem) (l : List ℕ) (c : ℕ) :
    slice (Function.update (store buf 0 l) (l.length : ℤ) c) 0 l.length = l := by
  refine (slice_congr fun j _ hj => ?_).trans (slice_store buf l)
  rw [zero_add] at hj
  exact Function.update_of_ne hj.ne _ _

lemma slice_mem (l : List ℕ) : slice (mem l) 0 l.length = l := by
  refine List.ext_getElem (by simp) fun k hk hk' => ?_
  simp [slice, mem, hk']

/-! ### Packets -/

/-- A character that comes through as it is. -/
structure Good (image : Bool) (c : ℕ) : Prop where
  lt : c < 256
  strip : strip image c = c
  ne : c ≠ SOH

lemma Good.of_lt {c : ℕ} (h : c < 128) (h1 : c ≠ SOH) : Good image c := by
  refine ⟨by omega, ?_, h1⟩
  unfold Kermit.strip
  split_ifs
  · rfl
  · exact Nat.mod_eq_of_lt h

lemma getdata_spec (image : Bool) (i : ℕ) (sum : ℕ) (data : Mem) (rest : List ℕ)
    (hl : ∀ c ∈ l, Good image c) :
    getdata image l.length i sum data (l ++ rest) =
      (some (l.foldl (fun chksum c => (chksum + c) % 256) sum, rest), store data i l) := by
  induction l generalizing i sum data with
  | nil => rfl
  | cons c l ih =>
    have hc := hl c List.mem_cons_self
    rw [List.length_cons, List.cons_append, getdata, hc.strip, if_neg hc.ne, List.foldl_cons,
      store]
    exact_mod_cast ih (i + 1) _ _ fun d hd => hl d (List.mem_cons_of_mem _ hd)

lemma byte_of (c : ℕ) (h : c < 256) : byte c = c := by
  unfold byte
  omega

lemma unchar_char {c : ℕ} (h : c < 128) : unchar (char c) = (c : ℤ) - 32 := by
  rw [char, if_pos h, unchar]

/-- A packet on the line that is read as this. -/
def Reads (image : Bool) (line : List ℕ) (h : Head) (l : List ℕ) : Prop :=
  l.length = h.len.toNat ∧
    ∀ buf, rpack image line buf = (some h, Function.update (store buf 0 l) h.len 0)

lemma packloop_spec {t u v w x n : ℕ} {rest : List ℕ} (buf : Mem) (ht : Good image t)
    (hu : Good image u) (hv : Good image v) (hv0 : v ≠ 0) (hx : Good image x)
    (hl : ∀ c ∈ l, Good image c) (hlen : l.length = (unchar (char t) - 3).toNat)
    (hw : (fold (total (t :: u :: v :: l)) : ℤ) = char (byte (unchar (char w)))) :
    packloop image (n + 1) (t :: u :: v :: (l ++ w :: x :: rest)) buf =
      (some ⟨Char.ofNat v, unchar (char u), unchar (char t) - 3⟩,
        Function.update (store buf 0 l) (unchar (char t) - 3) 0) := by
  have hdata := getdata_spec image 0 (((t + u) % 256 + v) % 256) buf (w :: x :: rest) hl
  have htotal : total (t :: u :: v :: l) =
      l.foldl (fun chksum c => (chksum + c) % 256) (((t + u) % 256 + v) % 256) := by
    simp [total, Nat.add_mod]
  rw [packloop, ht.strip, if_neg ht.ne]
  simp only [hu.strip, if_neg hu.ne, hv.strip, if_neg hv.ne, ← hlen]
  rw [Nat.cast_zero] at hdata
  rw [hdata]
  simp only [hx.strip, if_neg hx.ne, ← htotal]
  rw [if_pos ⟨hw, hv0⟩]

/-- What is needed to bring a packet over the line. -/
structure Fits (image : Bool) (p : Params) (type : Char) (num len : ℤ) (l : List ℕ) : Prop where
  pad : p.pad = 0
  eol : Good image p.eol
  type_gt : 1 < type.toNat
  type_lt : type.toNat < 128
  num_nonneg : 0 ≤ num
  num_lt : num < 64
  len_ge : -1 ≤ len
  len_le : len ≤ 91
  data : ∀ c ∈ l, Good image c

/-- A small number survives as a character. -/
lemma field_spec (image : Bool) {x : ℤ} (h0 : 0 ≤ x) (h1 : x < 96) :
    Good image (byte (tochar x)) ∧ unchar (char (byte (tochar x))) = x := by
  have hb : ((byte (tochar x) : ℕ) : ℤ) = x + 32 := by
    unfold byte tochar
    omega
  refine ⟨.of_lt (by omega) ?_, ?_⟩
  · unfold SOH
    omega
  · rw [unchar_char (by omega), hb]
    ring

lemma fold_lt (c : ℕ) : fold c < 64 := Nat.mod_lt _ (by decide)

/-- **`rpack` reads what `spack` writes.** -/
theorem reads_spack {p : Params} {type : Char} {num len : ℤ} (mflg : Bool)
    (h : Fits image p type num len (slice data 0 len.toNat)) :
    Reads image (spack mflg p type num len data) ⟨type, num, len⟩ (slice data 0 len.toNat) := by
  refine ⟨slice_length .., fun buf => ?_⟩
  set l := slice data 0 len.toNat with hl
  have hlen : l.length = len.toNat := slice_length ..
  obtain ⟨ht, htlen⟩ := field_spec image (x := len + 3) (by linarith [h.len_ge])
    (by linarith [h.len_le])
  obtain ⟨hu, hunum⟩ := field_spec image h.num_nonneg (by linarith [h.num_lt])
  have hv : Good image type.toNat := .of_lt h.type_lt (by have := h.type_gt; unfold SOH; omega)
  have hck := fold_lt (total (byte (tochar (len + 3)) :: byte (tochar num) :: type.toNat :: l))
  set ck := fold (total (byte (tochar (len + 3)) :: byte (tochar num) :: type.toNat :: l)) with hckd
  obtain ⟨_, hw⟩ := field_spec image (x := (ck : ℤ)) (by omega) (by omega)
  have hline : ∃ rest, spack mflg p type num len data =
      SOH :: byte (tochar (len + 3)) :: byte (tochar num) :: type.toNat ::
        (l ++ byte (tochar ck) :: p.eol :: rest) := by
    unfold spack
    rw [h.pad]
    cases mflg
    · exact ⟨[], by simp [← hl, ← hckd]⟩
    · exact ⟨[p.eol], by simp [← hl, ← hckd]⟩
  obtain ⟨rest, hline⟩ := hline
  have hchar : (ck : ℤ) = char (byte (unchar (char (byte (tochar ck))))) := by
    rw [hw, byte_of _ (by omega), char, if_pos (by omega)]
  rw [rpack, hline, List.dropWhile_cons_of_neg (by decide)]
  dsimp only
  rw [packloop_spec buf ht hu hv (by have := h.type_gt; omega) h.eol h.data
    (by rw [hlen, htlen]; congr 1; ring) (hckd ▸ hchar)]
  rw [htlen, hunum, Char.ofNat_toNat, show len + 3 - 3 = len by ring]

/-! ### What is left in a buffer -/

/-- A buffer that holds no character that could be taken for another one on the line. -/
def Clean (image : Bool) (data : Mem) : Prop := ∀ i, Good image (data i)

lemma Clean.update (h : Clean image data) {i : ℤ} {c : ℕ} (hc : Good image c) :
    Clean image (Function.update data i c) := by
  intro j
  rcases eq_or_ne j i with rfl | hj
  · rwa [Function.update_self]
  · rw [Function.update_of_ne hj]
    exact h j

lemma good_zero : Good image 0 := .of_lt (by decide) (by decide)

lemma Clean.store (h : Clean image data) {i : ℕ} (hl : ∀ c ∈ l, Good image c) :
    Clean image (store data i l) := by
  induction l generalizing data i with
  | nil => exact h
  | cons c l ih =>
    rw [Kermit.store]
    exact ih (h.update (hl c List.mem_cons_self)) fun d hd => hl d (List.mem_cons_of_mem _ hd)

lemma Clean.slice (h : Clean image data) (i : ℤ) (n : ℕ) : ∀ c ∈ slice data i n, Good image c := by
  intro c hc
  obtain ⟨k, _, rfl⟩ := List.mem_map.mp hc
  exact h _

lemma strip_good {t : ℕ} (ht : t < 256) (h1 : strip image t ≠ SOH) :
    Good image (strip image t) := by
  unfold strip at h1 ⊢
  split_ifs at h1 ⊢ with hi
  · exact ⟨ht, by simp [Kermit.strip, hi], h1⟩
  · exact .of_lt (Nat.mod_lt _ (by decide)) h1

lemma Clean.getdata {len : ℕ} {i : ℤ} {sum : ℕ} {line : List ℕ} (h : Clean image data)
    (hline : ∀ c ∈ line, c < 256) :
    Clean image (Kermit.getdata image len i sum data line).2 ∧
      ∀ r, (Kermit.getdata image len i sum data line).1 = some r → ∀ c ∈ r.2, c ∈ line := by
  induction len generalizing i sum data line with
  | zero =>
    refine ⟨h, fun r hr c hc => ?_⟩
    obtain rfl := Option.some.inj hr
    exact hc
  | succ len ih =>
    cases line with
    | nil => exact ⟨h, fun r hr => by simp [Kermit.getdata] at hr⟩
    | cons t line =>
      have htail : ∀ c ∈ line, c < 256 := fun c hc => hline c (List.mem_cons_of_mem _ hc)
      rw [Kermit.getdata]
      split_ifs with hs
      · exact ⟨(ih h htail).1,
          fun r hr c hc => List.mem_cons_of_mem _ ((ih h htail).2 r hr c hc)⟩
      · have h' := h.update (i := i) (strip_good (hline t List.mem_cons_self) hs)
        exact ⟨(ih h' htail).1,
          fun r hr c hc => List.mem_cons_of_mem _ ((ih h' htail).2 r hr c hc)⟩

lemma Clean.packloop {n : ℕ} {line : List ℕ} (h : Clean image data)
    (hline : ∀ c ∈ line, c < 256) : Clean image (Kermit.packloop image n line data).2 := by
  induction n generalizing line data with
  | zero => exact h
  | succ n ih =>
    cases line with
    | nil => exact h
    | cons t line =>
      have h1 : ∀ c ∈ line, c < 256 := fun c hc => hline c (List.mem_cons_of_mem _ hc)
      rw [Kermit.packloop]
      split_ifs
      · exact ih h h1
      cases line with
      | nil => exact h
      | cons u line =>
        have h2 : ∀ c ∈ line, c < 256 := fun c hc => h1 c (List.mem_cons_of_mem _ hc)
        dsimp only
        split_ifs
        · exact ih h h2
        cases line with
        | nil => exact h
        | cons v line =>
          have h3 : ∀ c ∈ line, c < 256 := fun c hc => h2 c (List.mem_cons_of_mem _ hc)
          dsimp only
          split_ifs
          · exact ih h h3
          set len := unchar (char (Kermit.strip image t)) - 3
          set sum := ((Kermit.strip image t + Kermit.strip image u) % 256 +
            Kermit.strip image v) % 256
          obtain ⟨hd, hmem⟩ := @Clean.getdata _ _ len.toNat 0 sum _ h h3
          rcases hg : Kermit.getdata image len.toNat 0 sum data line with ⟨_ | ⟨ck, rest⟩, data'⟩
          · rw [hg] at hd
            exact hd
          · rw [hg] at hd hmem
            have hd' := @Clean.update _ _ hd len 0 good_zero
            rcases rest with _ | ⟨w, _ | ⟨x, rest⟩⟩
            · exact hd'
            · exact hd'
            · dsimp only
              split_ifs
              · exact ih hd' fun c hc => h3 c (hmem _ rfl c (by simp [hc]))
              · exact hd'
              · exact hd'

lemma Clean.rpack {line : List ℕ} (h : Clean image data) (hline : ∀ c ∈ line, c < 256) :
    Clean image (rpack image line data).2 := by
  unfold Kermit.rpack
  split
  · exact h
  · rename_i he
    refine h.packloop fun c hc => hline c ?_
    exact (List.dropWhile_sublist _).subset (he ▸ List.mem_cons_of_mem _ hc)

/-- Whether a packet has been read does not depend on what was in the buffer. -/
lemma getdata_fst {len : ℕ} {i : ℤ} {sum : ℕ} {line : List ℕ} (data data' : Mem) :
    (getdata image len i sum data line).1 = (getdata image len i sum data' line).1 := by
  induction len generalizing i sum data data' line with
  | zero => rfl
  | succ len ih =>
    cases line with
    | nil => rfl
    | cons t line =>
      simp only [getdata]
      split_ifs
      · exact ih _ _
      · exact ih _ _

lemma packloop_fst {n : ℕ} {line : List ℕ} (data data' : Mem) :
    (packloop image n line data).1 = (packloop image n line data').1 := by
  induction n generalizing line data data' with
  | zero => rfl
  | succ n ih =>
    rcases line with _ | ⟨t, line⟩
    · rfl
    simp only [packloop]
    split_ifs
    · exact ih _ _
    rcases line with _ | ⟨u, line⟩
    · rfl
    dsimp only
    split_ifs
    · exact ih _ _
    rcases line with _ | ⟨v, line⟩
    · rfl
    dsimp only
    split_ifs
    · exact ih _ _
    set len := unchar (char (strip image t)) - 3
    set sum := ((strip image t + strip image u) % 256 + strip image v) % 256
    have hfst : (getdata image len.toNat 0 sum data line).1 =
        (getdata image len.toNat 0 sum data' line).1 := getdata_fst data data'
    rcases hg : getdata image len.toNat 0 sum data line with ⟨_ | ⟨ck, rest⟩, d⟩ <;>
      rcases hg' : getdata image len.toNat 0 sum data' line with ⟨_ | ⟨ck', rest'⟩, d'⟩ <;>
      simp only [hg, hg'] at hfst
    · rfl
    · cases hfst
    · cases hfst
    · obtain ⟨rfl, rfl⟩ := Prod.mk.inj (Option.some.inj hfst)
      rcases rest with _ | ⟨w, _ | ⟨x, rest⟩⟩
      · rfl
      · rfl
      · dsimp only
        split_ifs
        · exact ih _ _
        · rfl
        · rfl

lemma rpack_fst {line : List ℕ} (data data' : Mem) :
    (rpack image line data).1 = (rpack image line data').1 := by
  unfold rpack
  split
  · rfl
  · exact packloop_fst _ _

/-! ### The data of a file -/

/-- What comes of a character on the other side. -/
def arrives (image : Bool) (t : ℕ) : List ℕ :=
  if image then [t] else if t % 128 = CR then [] else [t % 128]

lemma quoted_good : ∀ image : Bool, ∀ t < 256, ∀ c ∈ quoted image MYQUOTE t,
    c < 256 ∧ strip image c = c ∧ c ≠ SOH := by
  decide +kernel

lemma quoted_length : ∀ image : Bool, ∀ t < 256,
    0 < (quoted image MYQUOTE t).length ∧ (quoted image MYQUOTE t).length ≤ 4 := by
  decide +kernel

/-- What `bufemp` writes for a character behind the quote. -/
def unquoted (image : Bool) (c : ℕ) : List ℕ :=
  let t := if c % 128 ≠ MYQUOTE then ctl c else c
  if t = CR ∧ !image then [] else [t]

/-- The ways in which a character is written. -/
lemma quoted_cases (image : Bool) {t : ℕ} (ht : t < 256) :
    (∃ c, quoted image MYQUOTE t = [c] ∧ c ≠ MYQUOTE ∧
      (if c = CR ∧ !image then [] else [c]) = arrives image t) ∨
    (∃ c, quoted image MYQUOTE t = [MYQUOTE, c] ∧ unquoted image c = arrives image t) ∨
    (∃ c, quoted image MYQUOTE t = [MYQUOTE, ctl CR, MYQUOTE, c] ∧
      unquoted image (ctl CR) = [] ∧ unquoted image c = arrives image t) := by
  have key : ∀ image : Bool, ∀ t < 256,
      let q := quoted image MYQUOTE t
      (q = [q.getD 0 0] ∧ q.getD 0 0 ≠ MYQUOTE ∧
        (if q.getD 0 0 = CR ∧ !image then [] else [q.getD 0 0]) = arrives image t) ∨
      (q = [MYQUOTE, q.getD 1 0] ∧ unquoted image (q.getD 1 0) = arrives image t) ∨
      (q = [MYQUOTE, ctl CR, MYQUOTE, q.getD 3 0] ∧
        unquoted image (ctl CR) = [] ∧ unquoted image (q.getD 3 0) = arrives image t) := by
    decide +kernel
  rcases key image t ht with h | h | h
  · exact Or.inl ⟨_, h⟩
  · exact Or.inr (Or.inl ⟨_, h⟩)
  · exact Or.inr (Or.inr ⟨_, h⟩)

/-- **`bufemp` writes what `bufill` has read.** -/
theorem empty_quoted {len : ℤ} {ts : List ℕ} {n : ℕ} {i : ℤ} (hts : ∀ t ∈ ts, t < 256)
    (hbuf : slice buf i (len - i).toNat = ts.flatMap (quoted image MYQUOTE))
    (hn : (len - i).toNat ≤ n) :
    empty image buf len n i = ts.flatMap (arrives image) := by
  induction ts generalizing n i with
  | nil =>
    have h0 : (len - i).toNat = 0 := by simpa using congrArg List.length hbuf
    cases n with
    | zero => rfl
    | succ n =>
      rw [empty, if_neg (by omega)]
      rfl
  | cons t ts ih =>
    have htail : ∀ u ∈ ts, u < 256 := fun u hu => hts u (List.mem_cons_of_mem _ hu)
    rw [List.flatMap_cons] at hbuf
    -- what one turn does with one character of the buffer
    have hone : ∀ {n : ℕ} {i : ℤ} {c : ℕ} {l : List ℕ}, slice buf i (len - i).toNat = c :: l →
        (len - i).toNat ≤ n → ∃ m, n = m + 1 ∧ i < len ∧ buf i = c ∧
          slice buf (i + 1) (len - (i + 1)).toNat = l ∧ (len - (i + 1)).toNat ≤ m := by
      intro n i c l hb hn
      have hlen := congrArg List.length hb
      rw [slice_length, List.length_cons] at hlen
      obtain ⟨m, rfl⟩ : ∃ m, n = m + 1 := ⟨n - 1, by omega⟩
      have h1 : (len - i).toNat = (len - (i + 1)).toNat + 1 := by omega
      rw [h1, slice_succ] at hb
      obtain ⟨hc, hl⟩ := List.cons.inj hb
      exact ⟨m, rfl, by omega, hc, hl, by omega⟩
    -- and with a quoted one
    have htwo : ∀ {n : ℕ} {i : ℤ} {c : ℕ} {l : List ℕ},
        slice buf i (len - i).toNat = MYQUOTE :: c :: l → (len - i).toNat ≤ n →
        ∃ m, empty image buf len n i = unquoted image c ++ empty image buf len m (i + 2) ∧
          slice buf (i + 2) (len - (i + 2)).toNat = l ∧ (len - (i + 2)).toNat ≤ m := by
      intro n i c l hb hn
      obtain ⟨m, rfl, hlt, hq, hb, hm⟩ := hone hb hn
      obtain ⟨m', rfl, _, hc, hb', hm'⟩ := hone hb hm
      refine ⟨m' + 1, ?_, ?_, by omega⟩
      · rw [empty, if_pos hlt, hq]
        simp only [if_true, hc, unquoted]
      · rwa [show i + 1 + 1 = i + 2 by ring] at hb'
    rcases quoted_cases image (hts t List.mem_cons_self) with
      ⟨c, hq, hne, ha⟩ | ⟨c, hq, ha⟩ | ⟨c, hq, hcr, ha⟩
    · rw [hq] at hbuf
      obtain ⟨m, rfl, hlt, hc, hb, hm⟩ := hone hbuf hn
      rw [empty, if_pos hlt, hc, if_neg hne, ih htail hb hm, List.flatMap_cons, ← ha]
    · rw [hq] at hbuf
      obtain ⟨m, he, hb, hm⟩ := htwo hbuf hn
      rw [he, ih htail hb hm, List.flatMap_cons, ← ha]
    · rw [hq] at hbuf
      obtain ⟨m, he, hb, hm⟩ := htwo hbuf hn
      obtain ⟨m', he', hb', hm'⟩ := htwo hb hm
      rw [he, he', ih htail hb' hm', List.flatMap_cons, ← ha, hcr, List.nil_append]

/-- `bufill` fills the buffer with what it has read of the file, and there is room in a packet for
it. -/
lemma fill_spec {p : Params} {i : ℕ} {fp : List ℕ} (hp : p.quote = MYQUOTE) (hs : p.spsiz = 94)
    (hfp : ∀ t ∈ fp, t < 256) (hi : i < 86) :
    ∃ ts rest, fp = ts ++ rest ∧ (fp ≠ [] → ts ≠ []) ∧
      let l := ts.flatMap (quoted image MYQUOTE)
      (i + l.length < 90 ∧ ∀ buf, fill image p i buf fp =
        (if i = 0 ∧ fp = [] then -1 else ((i + l.length : ℕ) : ℤ), store buf i l, rest)) := by
  induction fp generalizing i with
  | nil =>
    refine ⟨[], [], rfl, fun h => absurd rfl h, by simpa using by omega, fun buf => ?_⟩
    simp [fill, store]
  | cons t fp ih =>
    obtain ⟨hpos, hle⟩ := quoted_length image t (hfp t List.mem_cons_self)
    by_cases hfull : ((i + (quoted image MYQUOTE t).length : ℕ) : ℤ) ≥ p.spsiz - 8
    · refine ⟨[t], fp, rfl, fun _ => by simp, ?_, fun buf => ?_⟩
      · simp only [List.flatMap_cons, List.flatMap_nil, List.append_nil]
        omega
      · simp only [fill, hp, if_pos hfull]
        simp
    · obtain ⟨ts, rest, he, _, hlt, hfill⟩ := ih (i := i + (quoted image MYQUOTE t).length)
        (fun u hu => hfp u (List.mem_cons_of_mem _ hu)) (by omega)
      refine ⟨t :: ts, rest, by simp [he], fun _ => by simp, ?_, fun buf => ?_⟩
      · simp only [List.flatMap_cons, List.length_append]
        omega
      · simp only [fill, hp, if_neg hfull, hfill]
        have hstore : ∀ (l l' : List ℕ) (buf : Mem) (i : ℕ),
            store (store buf i l) (i + l.length) l' = store buf i (l ++ l') := by
          intro l
          induction l with
          | nil => exact fun _ _ _ => rfl
          | cons c l ihl =>
            intro l' buf i
            rw [store, List.cons_append, store, ← ihl, List.length_cons]
            congr 1
            omega
        rw [hstore, if_neg (by omega), if_neg (by simp)]
        simp [Nat.add_assoc]

end Coherent.Kermit
