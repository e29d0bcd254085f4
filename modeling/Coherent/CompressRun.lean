import Coherent.CompressBits
import Coherent.Lib.Probe

/-!
`uncompress` gives back what `compress` was given.

Each code stands for a string of characters. The writer has the strings in its hash table, found
from a shorter one and a character; the reader has them in its own, and comes to know a string one
code after the writer has entered it.
-/

namespace Coherent.Compress

open Lib.Probe

/-- The first code that is given to a string of more than one character. -/
def Params.base (p : Params) : ℕ := if p.block_compress then FIRST else 256

/-- A code that stands for something, with the entries up to `free_ent`. -/
def Known (p : Params) (free_ent x : ℕ) : Prop := x < 256 ∨ p.base ≤ x ∧ x < free_ent

/-- Sizes of the hash table with which `compress` works: each string that is looked up has a place,
and there are more places than codes. -/
structure Params.Fit (p : Params) : Prop where
  low : 9 ≤ p.maxbits
  high : p.maxbits ≤ 15
  prime : p.hsize.Prime
  index : p.maxbits ≤ 8 + p.hshift
  room : 2 ^ (8 + p.hshift) ≤ p.hsize

section

variable {p : Params}

lemma Params.base_cases : 256 ≤ p.base ∧ p.base ≤ 257 := by
  unfold Params.base FIRST
  split <;> omega

/-! ### The width of the codes -/

/-- The widths that there are, and that the codes fit. -/
structure Width (p : Params) (n_bits maxcode free_ent : ℕ) : Prop where
  low : 9 ≤ n_bits
  high : n_bits ≤ 15
  fit : free_ent ≤ 2 ^ n_bits
  code : maxcode = 2 ^ n_bits ∧ n_bits = p.maxbits ∨
    maxcode = 2 ^ n_bits - 1 ∧ (n_bits < p.maxbits ∨ p.maxbits = 9 ∧ n_bits ≤ 10)

/-- The codes fit the width that they have when one more of them is there. -/
lemma Width.adjust {n_bits maxcode free_ent k : ℕ} (hp : p.Fit)
    (h : Width p n_bits maxcode free_ent)
    (hfree : free_ent + k ≤ 2 ^ p.maxbits) (hk : k ≤ 1) :
    Width p (adjust p n_bits maxcode free_ent false).1 (adjust p n_bits maxcode free_ent false).2
      (free_ent + k) := by
  have hpos : 0 < 2 ^ n_bits := by positivity
  have h15 := hp.high
  have hfit := h.fit
  have hlow := h.low
  by_cases hgt : free_ent > maxcode
  · simp only [Compress.adjust, if_pos hgt, widen, Bool.false_eq_true, if_false]
    have hstep : 2 ^ (n_bits + 1) = 2 ^ n_bits * 2 := pow_succ ..
    rcases h.code with ⟨hm, -⟩ | ⟨hm, hlt | ⟨h9, h10⟩⟩
    · omega
    · refine ⟨by omega, by omega, by omega, ?_⟩
      by_cases he : n_bits + 1 = p.maxbits
      · exact Or.inl ⟨by simp [he, Params.maxmaxcode], he⟩
      · exact Or.inr ⟨by simp [he, MAXCODE], Or.inl (by omega)⟩
    · -- codes of nine bits: the width is ten when all are given
      have hn : n_bits = 9 := by
        by_contra hne
        have hn10 : n_bits = 10 := by omega
        rw [h9] at hfree
        rw [hn10] at hm
        norm_num at hm hfree
        omega
      subst hn
      exact ⟨by omega, by omega, by omega, Or.inr ⟨by simp [h9, MAXCODE], Or.inr ⟨h9, by omega⟩⟩⟩
  · simp only [Compress.adjust, if_neg hgt, Bool.false_eq_true, if_false]
    refine ⟨h.low, h.high, ?_, h.code⟩
    rcases h.code with ⟨hm, hn⟩ | ⟨hm, -⟩
    · rwa [hn]
    · omega

lemma Width.clear (hp : p.Fit) : Width p INIT_BITS (MAXCODE INIT_BITS) FIRST := by
  refine ⟨by decide, by decide, by decide, Or.inr ⟨rfl, ?_⟩⟩
  have := hp.low
  simp only [INIT_BITS]
  omega

/-- Codes that are written one after the other have the widths that they are read with. -/
lemma steady_item {s : Enc} {code : ℕ} {l : List Item} (hw : Width p s.n_bits s.maxcode s.free_ent)
    (hc : code < 2 ^ s.n_bits)
    (hs : Steady (adjust p s.n_bits s.maxcode s.free_ent s.clear_flg).1 l) :
    Steady s.n_bits (s.item code :: l) := by
  refine ⟨rfl, hc, hw.low, by have := hw.high; omega, _, fun hfl => ?_, hs⟩
  simp only [Enc.item, stale, Bool.or_eq_false_iff, decide_eq_false_iff_not] at hfl
  simp [adjust, hfl.1, if_neg hfl.2]

/-! ### The hash table -/

lemma probe_spec {hsize disp n i : ℕ} {htab : ℕ → ℤ} {fcode : ℤ} (hd : 0 < disp)
    (hdh : disp ≤ hsize) (hi : i < hsize)
    (hfree : ∃ k < n, ¬ 0 < htab ((back hsize disp)^[k + 1] i)) :
    ∃ j b, probe hsize htab fcode disp n i = some (j, b) ∧ j < hsize ∧
      (b = true → htab j = fcode) := by
  induction n generalizing i with
  | zero =>
    obtain ⟨k, hk, -⟩ := hfree
    omega
  | succ n ih =>
    have hback := back_lt hd hdh hi
    change ∃ j b, (if htab (back hsize disp i) = fcode then some (back hsize disp i, true)
      else if htab (back hsize disp i) > 0 then probe hsize htab fcode disp n (back hsize disp i)
      else some (back hsize disp i, false)) = some (j, b) ∧ j < hsize ∧ (b = true → htab j = fcode)
    split_ifs with h1 h2
    · exact ⟨_, _, rfl, hback, fun _ => h1⟩
    · refine ih hback ?_
      obtain ⟨k, hk, hz⟩ := hfree
      cases k with
      | zero => exact absurd h2 hz
      | succ k => exact ⟨k, by omega, by rwa [Function.iterate_succ_apply] at hz⟩
    · exact ⟨_, _, rfl, hback, fun h => by simp at h⟩

/-- A place is found as long as there are free ones. -/
lemma lookup_spec (hp : p.Fit) {htab : ℕ → ℤ} {fcode : ℤ} {i : ℕ} (hi : i < p.hsize)
    (hfull : ((Finset.range p.hsize).filter (fun j => 0 < htab j)).card < p.hsize) :
    ∃ j b, lookup p htab fcode i = some (j, b) ∧ j < p.hsize ∧ (b = true → htab j = fcode) := by
  simp only [lookup]
  split_ifs with h1 h2
  · exact ⟨_, _, rfl, hi, fun _ => h1⟩
  · exact ⟨_, _, rfl, hi, fun h => by simp at h⟩
  all_goals
    have hlt : p.hsize - i < p.hsize ∨ i = 0 := by omega
    have h2p := hp.prime.two_le
    refine probe_spec (by omega) (by omega) hi (exists_free _ hfull (by omega) (by omega) ?_ hi)
  · exact Nat.coprime_one_right _
  · exact Nat.coprime_of_lt_prime (by omega) (by omega) hp.prime

end

/-! ### The strings of the writer -/

/-- What the writer's table says of the strings of the codes, at the character `start` of the
text where the string of `ent` begins. -/
structure Table (p : Params) (S : ℕ → List ℕ) (start : ℕ) (s : Enc) : Prop where
  char : ∀ x < 256, S x = [x]
  nonempty : ∀ x, Known p s.free_ent x → S x ≠ []
  /-- A string is no longer than the text has let it grow. -/
  long : ∀ x, Known p s.free_ent x → (S x).length * (S x).length ≤ 2 * start + (S x).length
  ent : Known p s.free_ent s.ent
  hash : ∀ i < p.hsize, 0 ≤ s.htab i →
    p.base ≤ s.codetab i ∧ s.codetab i < s.free_ent ∧
      ∃ x c, Known p s.free_ent x ∧ s.htab i = ((c <<< p.maxbits + x : ℕ) : ℤ) ∧
        S (s.codetab i) = S x ++ [c]
  full : ((Finset.range p.hsize).filter (fun i => 0 ≤ s.htab i)).card + p.base ≤ s.free_ent
  free : s.free_ent ≤ 2 ^ p.maxbits
  width : Width p s.n_bits s.maxcode s.free_ent
  clear : s.clear_flg = false

section

variable {p : Params} {S : ℕ → List ℕ} {start : ℕ} {s : Enc} {c : ℕ}

lemma Table.base_le (h : Table p S start s) : p.base ≤ s.free_ent :=
  (Nat.le_add_left _ _).trans h.full

lemma Known.lt {free x : ℕ} (hk : Known p free x) (hb : p.base ≤ free) : x < free := by
  have := (Params.base_cases (p := p)).1
  rcases hk with h | h <;> omega

lemma Table.ent_lt (h : Table p S start s) : s.ent < 2 ^ p.maxbits :=
  (h.ent.lt h.base_le).trans_le h.free

lemma Table.ent_lt_width (h : Table p S start s) : s.ent < 2 ^ s.n_bits :=
  (h.ent.lt h.base_le).trans_le h.width.fit

/-- Where the string with the next character is looked up. -/
lemma Table.index_lt (hp : p.Fit) (h : Table p S start s) (hc : c < 256) :
    (c <<< p.hshift) ^^^ s.ent < p.hsize := by
  refine (Nat.xor_lt_two_pow (n := 8 + p.hshift) ?_ ?_).trans_le hp.room
  · rw [Nat.shiftLeft_eq, pow_add]
    exact Nat.mul_lt_mul_of_pos_right hc (by positivity)
  · exact h.ent_lt.trans_le (Nat.pow_le_pow_right (by norm_num) hp.index)

lemma Table.card_lt (hp : p.Fit) (h : Table p S start s) :
    ((Finset.range p.hsize).filter (fun i => 0 < s.htab i)).card < p.hsize := by
  have hsub : (Finset.range p.hsize).filter (fun i => 0 < s.htab i) ⊆
      (Finset.range p.hsize).filter (fun i => 0 ≤ s.htab i) :=
    Finset.monotone_filter_right _ fun i _ hi => le_of_lt hi
  have hcard := Finset.card_le_card hsub
  have hfull := h.full
  have hfree := h.free
  have hbase := (Params.base_cases (p := p)).1
  have hroom := hp.room
  have hpow : 2 ^ p.maxbits ≤ 2 ^ (8 + p.hshift) := Nat.pow_le_pow_right (by norm_num) hp.index
  omega

/-- The string with the next character is in the table, or there is a place for it. -/
lemma Table.lookup (hp : p.Fit) (h : Table p S start s) (hc : c < 256) :
    ∃ j < p.hsize, Compress.lookup p s.htab ((c <<< p.maxbits + s.ent : ℕ) : ℤ)
        ((c <<< p.hshift) ^^^ s.ent) = some (j, false) ∨
      Compress.lookup p s.htab ((c <<< p.maxbits + s.ent : ℕ) : ℤ)
        ((c <<< p.hshift) ^^^ s.ent) = some (j, true) ∧
      p.base ≤ s.codetab j ∧ s.codetab j < s.free_ent ∧ S (s.codetab j) = S s.ent ++ [c] := by
  obtain ⟨j, b, hl, hj, hb⟩ := @lookup_spec p hp _ ((c <<< p.maxbits + s.ent : ℕ) : ℤ) _
    (h.index_lt hp hc) (h.card_lt hp)
  refine ⟨j, hj, ?_⟩
  cases b with
  | false => exact Or.inl hl
  | true =>
    obtain ⟨h1, h2, x, c', hx, hfc, hS⟩ := h.hash j hj (by rw [hb rfl]; exact Int.natCast_nonneg _)
    replace hx : x < 2 ^ p.maxbits := (hx.lt h.base_le).trans_le h.free
    -- the number under which it is found says which string and which character
    have he : c' <<< p.maxbits + x = c <<< p.maxbits + s.ent := by
      have := hfc.symm.trans (hb rfl)
      exact_mod_cast this
    rw [Nat.shiftLeft_eq, Nat.shiftLeft_eq] at he
    have hmod := congrArg (· % 2 ^ p.maxbits) he
    have hdiv := congrArg (· / 2 ^ p.maxbits) he
    have hpos : 0 < 2 ^ p.maxbits := by positivity
    simp only [Nat.mul_add_mod', Nat.mod_eq_of_lt hx, Nat.mod_eq_of_lt h.ent_lt] at hmod
    simp only [Nat.add_comm (_ * _), Nat.add_mul_div_right _ _ hpos, Nat.div_eq_of_lt hx,
      Nat.div_eq_of_lt h.ent_lt, Nat.zero_add] at hdiv
    rw [hmod, hdiv] at hS
    exact Or.inr ⟨hl, h1, h2, hS⟩

lemma Known.mono {free free' x : ℕ} (hk : Known p free x) (hle : free ≤ free') :
    Known p free' x := hk.imp_right fun h => ⟨h.1, h.2.trans_le hle⟩

/-- The string with the next character is entered. -/
lemma Table.add (hp : p.Fit) (h : Table p S start s) (hc : c < 256) {j : ℕ}
    (hlt : s.free_ent < 2 ^ p.maxbits) {t : Enc}
    (hw : (t.n_bits, t.maxcode) = adjust p s.n_bits s.maxcode s.free_ent s.clear_flg)
    (hcl : t.clear_flg = false) (hent : t.ent = c) (hfree : t.free_ent = s.free_ent + 1)
    (hcode : t.codetab = Function.update s.codetab j s.free_ent)
    (hhtab : t.htab = Function.update s.htab j ((c <<< p.maxbits + s.ent : ℕ) : ℤ)) :
    Table p (Function.update S s.free_ent (S s.ent ++ [c])) (start + (S s.ent).length) t := by
  have hb := (Params.base_cases (p := p)).1
  have hbase := h.base_le
  have hold : ∀ x, Known p s.free_ent x →
      Function.update S s.free_ent (S s.ent ++ [c]) x = S x :=
    fun x hx => Function.update_of_ne (hx.lt hbase).ne _ _
  have hnew : ∀ x, Known p (s.free_ent + 1) x → x = s.free_ent ∨ Known p s.free_ent x := by
    rintro x (hx | ⟨hx, hx'⟩)
    · exact Or.inr (Or.inl hx)
    · rcases Nat.lt_succ_iff_lt_or_eq.mp hx' with hx' | rfl
      · exact Or.inr (Or.inr ⟨hx, hx'⟩)
      · exact Or.inl rfl
  constructor
  case char =>
    intro x hx
    rw [hold x (Or.inl hx)]
    exact h.char x hx
  case nonempty =>
    intro x hx
    rw [hfree] at hx
    rcases hnew x hx with rfl | hx
    · simp
    · rw [hold x hx]
      exact h.nonempty x hx
  case long =>
    intro x hx
    rw [hfree] at hx
    have hlong := h.long s.ent h.ent
    rcases hnew x hx with rfl | hx
    · rw [Function.update_self, List.length_append, List.length_singleton]
      linarith
    · rw [hold x hx]
      have := h.long x hx
      omega
  case ent =>
    rw [hent]
    exact Or.inl hc
  case hash =>
    intro i hi h0
    rw [hhtab] at h0 ⊢
    rw [hcode, hfree]
    by_cases hij : i = j
    · subst hij
      rw [Function.update_self, Function.update_self, Function.update_self]
      exact ⟨hbase, by omega, s.ent, c, h.ent.mono (by omega), rfl, by rw [hold _ h.ent]⟩
    · rw [Function.update_of_ne hij] at h0
      obtain ⟨h1, h2, x, c', hx, hfc, hS⟩ := h.hash i hi h0
      rw [Function.update_of_ne hij, Function.update_of_ne hij, hold _ (Or.inr ⟨h1, h2⟩)]
      exact ⟨h1, by omega, x, c', hx.mono (by omega), hfc, by rw [hold x hx]; exact hS⟩
  case full =>
    have hsub : (Finset.range p.hsize).filter (fun i => 0 ≤ t.htab i) ⊆
        insert j ((Finset.range p.hsize).filter (fun i => 0 ≤ s.htab i)) := by
      intro i hi
      rw [Finset.mem_filter, hhtab] at hi
      by_cases hij : i = j
      · exact Finset.mem_insert.mpr (Or.inl hij)
      · rw [Function.update_of_ne hij] at hi
        exact Finset.mem_insert_of_mem (Finset.mem_filter.mpr hi)
    have hcard := (Finset.card_le_card hsub).trans (Finset.card_insert_le _ _)
    have hfull := h.full
    rw [hfree]
    omega
  case free =>
    rw [hfree]
    exact hlt
  case width =>
    rw [h.clear] at hw
    have hwid := h.width.adjust (k := 1) hp (by omega) le_rfl
    rw [← hw] at hwid
    rw [hfree]
    exact hwid
  case clear => exact hcl

/-- All codes are given: the table stays as it is. -/
lemma Table.keep (hp : p.Fit) (h : Table p S start s) (hc : c < 256) {t : Enc}
    (hw : (t.n_bits, t.maxcode) = adjust p s.n_bits s.maxcode s.free_ent s.clear_flg)
    (hcl : t.clear_flg = false) (hent : t.ent = c) (hfree : t.free_ent = s.free_ent)
    (hcode : t.codetab = s.codetab) (hhtab : t.htab = s.htab) :
    Table p S (start + (S s.ent).length) t := by
  rw [h.clear] at hw
  have hwid := h.width.adjust (k := 0) hp h.free (by omega)
  rw [← hw] at hwid
  constructor
  case char => exact h.char
  case nonempty => rw [hfree]; exact h.nonempty
  case long =>
    rw [hfree]
    intro x hx
    have := h.long x hx
    omega
  case ent => rw [hent]; exact Or.inl hc
  case hash => rw [hhtab, hcode, hfree]; exact h.hash
  case full => rw [hhtab, hfree]; exact h.full
  case free => rw [hfree]; exact h.free
  case width => rw [hfree]; exact hwid
  case clear => exact hcl

/-- The table is emptied. -/
lemma Table.reset (hp : p.Fit) (hchar : ∀ x < 256, S x = [x]) (hc : c < 256) {t : Enc}
    (hw : (t.n_bits, t.maxcode) = (INIT_BITS, MAXCODE INIT_BITS)) (hcl : t.clear_flg = false)
    (hent : t.ent = c) (hfree : t.free_ent = p.base)
    (hhtab : ∀ i < p.hsize, t.htab i = -1) (start : ℕ) : Table p S start t := by
  have hb := Params.base_cases (p := p)
  have hknown : ∀ x, Known p t.free_ent x → x < 256 := by
    rintro x (hx | ⟨hx, hx'⟩)
    · exact hx
    · omega
  constructor
  case char => exact hchar
  case nonempty => intro x hx; rw [hchar x (hknown x hx)]; simp
  case long => intro x hx; rw [hchar x (hknown x hx)]; simp
  case ent => rw [hent]; exact Or.inl hc
  case hash =>
    intro i hi h0
    rw [hhtab i hi] at h0
    omega
  case full =>
    have hempty : (Finset.range p.hsize).filter (fun i => 0 ≤ t.htab i) = ∅ := by
      refine Finset.filter_eq_empty_iff.mpr fun i hi => ?_
      rw [hhtab i (Finset.mem_range.mp hi)]
      omega
    rw [hempty, hfree]
    simp
  case free =>
    have h9 : 2 ^ 9 ≤ 2 ^ p.maxbits := Nat.pow_le_pow_right (by norm_num) hp.low
    omega
  case width =>
    obtain ⟨h1, h2⟩ := Prod.mk.inj hw
    have hwid := Width.clear hp
    rw [h1, h2, hfree]
    exact ⟨hwid.low, hwid.high, by have := hwid.fit; simp only [FIRST] at this; omega, hwid.code⟩
  case clear => exact hcl

end

/-! ### The strings of the reader -/

/-- The reader's entries are the strings of their codes. -/
structure Knows (p : Params) (S : ℕ → List ℕ) (d : Dec) : Prop where
  char : ∀ x < 256, d.tab_suffix x = x
  entry : ∀ x, p.base ≤ x → x < d.free_ent →
    Known p x ( d.tab_prefix x) ∧ S x = S ( d.tab_prefix x) ++ [d.tab_suffix x]

/-- Before the code for `ent` is read: the last entry of the writer is not there yet. -/
structure Lag (p : Params) (S : ℕ → List ℕ) (s : Enc) (d : Dec) : Prop where
  knows : Knows p S d
  low : 256 ≤ d.free_ent
  free : d.free_ent + 1 = s.free_ent ∨ d.free_ent = s.free_ent ∧ s.free_ent = 2 ^ p.maxbits
  old : p.base ≤ d.free_ent → Known p d.free_ent d.oldcode ∧
    d.finchar = (S d.oldcode).headD 0 ∧
    (d.free_ent < s.free_ent → S d.free_ent = S d.oldcode ++ [(S s.ent).headD 0])

/-- When it has been read. -/
structure Level (p : Params) (S : ℕ → List ℕ) (s : Enc) (d : Dec) : Prop where
  knows : Knows p S d
  free : d.free_ent = s.free_ent
  old : d.oldcode = s.ent
  finchar : d.finchar = (S s.ent).headD 0
  n_bits : d.n_bits = s.n_bits
  maxcode : d.maxcode = s.maxcode
  clear : d.clear_flg = false

section

variable {p : Params} {S : ℕ → List ℕ} {start : ℕ} {s : Enc} {d : Dec}

/-- The characters of a code come off the stack in the order of the string. -/
lemma expand_spec (hchar : ∀ x < 256, S x = [x])
    (hne : ∀ x, Known p d.free_ent x → S x ≠ []) (h : Knows p S d) {room x : ℕ}
    (hx : Known p d.free_ent x) (hroom : (S x).length ≤ room) (stack : List ℕ) :
    expand d.tab_prefix d.tab_suffix room x stack = some ((S x).headD 0, S x ++ stack) := by
  have hbase := (Params.base_cases (p := p)).1
  induction room generalizing x stack with
  | zero =>
    have := List.eq_nil_of_length_eq_zero (Nat.le_zero.mp hroom)
    exact absurd this (hne x hx)
  | succ room ih =>
    simp only [expand]
    split
    · rename_i hge
      have hx' : p.base ≤ x ∧ x < d.free_ent := hx.resolve_left (by omega)
      obtain ⟨hk, hS⟩ := h.entry x hx'.1 hx'.2
      have hk' := hk.mono hx'.2.le
      have hlen : (S ( d.tab_prefix x)).length ≤ room := by
        rw [hS, List.length_append, List.length_singleton] at hroom
        omega
      rw [ih hk' hlen, hS, List.append_assoc]
      congr 2
      obtain ⟨a, l, ha⟩ := List.exists_cons_of_ne_nil (hne _ hk')
      rw [ha]
      rfl
    · rename_i hlt
      rw [hchar x (by omega), h.char x (by omega)]
      rfl

/-- **A code is turned into its string**, also where the reader does not have it yet, and the entry
that was missing is made. -/
lemma decode_spec (ht : Table p S start s) (hlag : Lag p S s d) (hlen : (S s.ent).length ≤ STACK) :
    ∃ tab_prefix tab_suffix, decode p d s.ent = some { d with
      finchar := (S s.ent).headD 0, out := d.out ++ S s.ent
      tab_prefix := tab_prefix, tab_suffix := tab_suffix
      free_ent := s.free_ent, oldcode := s.ent } ∧
    Knows p S { d with
      tab_prefix := tab_prefix, tab_suffix := tab_suffix, free_ent := s.free_ent } := by
  have hbase := (Params.base_cases (p := p)).1
  have hsb := ht.base_le
  have hsfree := ht.free
  have hle : d.free_ent ≤ s.free_ent := by
    rcases hlag.free with h | h <;> omega
  have hne : ∀ x, Known p d.free_ent x → S x ≠ [] := fun x hx => ht.nonempty x (hx.mono hle)
  obtain ⟨a, l, ha⟩ := List.exists_cons_of_ne_nil (ht.nonempty _ ht.ent)
  -- the stack, whether the reader has the code or not
  have hexpand : expand d.tab_prefix d.tab_suffix
      (STACK - (if s.ent ≥ d.free_ent then ([d.finchar], d.oldcode) else ([], s.ent)).1.length)
      (if s.ent ≥ d.free_ent then ([d.finchar], d.oldcode) else ([], s.ent)).2
      (if s.ent ≥ d.free_ent then ([d.finchar], d.oldcode) else ([], s.ent)).1 =
      some ((S s.ent).headD 0, S s.ent) := by
    split
    · -- the string that begins and ends with the same character
      rename_i hge
      have hlt : s.ent < s.free_ent := ht.ent.lt hsb
      have hd : d.free_ent + 1 = s.free_ent := by
        rcases hlag.free with h | h <;> omega
      have hent : s.ent = d.free_ent := by omega
      have hlow := hlag.low
      have hb : p.base ≤ d.free_ent := by
        rcases ht.ent with h | h <;> omega
      obtain ⟨hk, hfin, hS⟩ := hlag.old hb
      replace hS := hS (by omega)
      rw [← hent] at hS
      obtain ⟨b, m, hb'⟩ := List.exists_cons_of_ne_nil (hne _ hk)
      have hhead : (S s.ent).headD 0 = (S d.oldcode).headD 0 := by
        rw [hS, hb']
        rfl
      have hlen' : (S d.oldcode).length ≤ STACK - [d.finchar].length := by
        rw [hS, List.length_append] at hlen
        simp only [List.length_singleton] at hlen ⊢
        omega
      rw [expand_spec ht.char hne hlag.knows hk hlen', ← hhead, hfin, ← hhead, ← hS]
    · rename_i hlt
      have hk : Known p d.free_ent s.ent := ht.ent.imp_right fun h => ⟨h.1, by omega⟩
      rw [expand_spec ht.char hne hlag.knows hk (by simpa using hlen), List.append_nil]
  simp only [decode, hexpand]
  by_cases hfull : d.free_ent < p.maxmaxcode
  · have hd : d.free_ent + 1 = s.free_ent := by
      rcases hlag.free with h | ⟨h1, h2⟩
      · exact h
      · simp only [Params.maxmaxcode] at hfull
        omega
    rw [if_pos hfull, ← hd]
    refine ⟨_, _, rfl, fun x hx => ?_, fun x hx hx' => ?_⟩
    · simp only
      rw [Function.update_of_ne (by have := hlag.low; omega)]
      exact hlag.knows.char x hx
    · simp only at hx' ⊢
      rcases Nat.lt_succ_iff_lt_or_eq.mp hx' with hx' | rfl
      · rw [Function.update_of_ne hx'.ne, Function.update_of_ne hx'.ne]
        exact hlag.knows.entry x hx hx'
      · obtain ⟨hk, -, hS⟩ := hlag.old hx
        rw [Function.update_self, Function.update_self]
        exact ⟨hk, hS (by omega)⟩
  · have hd : d.free_ent = s.free_ent := by
      rcases hlag.free with h | h
      · simp only [Params.maxmaxcode] at hfull
        omega
      · exact h.1
    rw [if_neg hfull]
    exact ⟨_, _, by rw [← hd], by rw [← hd]; exact ⟨hlag.knows.char, hlag.knows.entry⟩⟩

/-! ### A code that is written and read -/

lemma Level.known (ht : Table p S start s) (h : Level p S s d) : Known p d.free_ent d.oldcode := by
  rw [h.free, h.old]
  exact ht.ent

/-- The writer has entered a string that the reader has not. -/
lemma Level.lag_add {c : ℕ} (ht : Table p S start s) (h : Level p S s d) (hc : c < 256) {t : Enc}
    (hent : t.ent = c) (hfree : t.free_ent = s.free_ent + 1) :
    Lag p (Function.update S s.free_ent (S s.ent ++ [c])) t d := by
  have hb := (Params.base_cases (p := p)).1
  have hbase := ht.base_le
  have hold : ∀ x, Known p s.free_ent x →
      Function.update S s.free_ent (S s.ent ++ [c]) x = S x :=
    fun x hx => Function.update_of_ne (hx.lt hbase).ne _ _
  refine ⟨⟨h.knows.char, fun x hx hx' => ?_⟩, by rw [h.free]; omega, Or.inl (by rw [h.free, hfree]),
    fun _ => ⟨h.known ht, ?_, fun _ => ?_⟩⟩
  · obtain ⟨hk, hS⟩ := h.knows.entry x hx hx'
    rw [h.free] at hx'
    rw [hold x (Or.inr ⟨hx, hx'⟩), hold _ (hk.mono hx'.le)]
    exact ⟨hk, hS⟩
  · rw [h.old, hold _ ht.ent]
    exact h.finchar
  · rw [h.free, h.old, hold _ ht.ent, hent, hold c (Or.inl hc), ht.char c hc,
      Function.update_self]
    rfl

lemma Level.lag_keep (ht : Table p S start s) (h : Level p S s d) {t : Enc}
    (hfree : t.free_ent = s.free_ent) (hfull : s.free_ent = 2 ^ p.maxbits) : Lag p S t d := by
  have hb := (Params.base_cases (p := p)).1
  have hbase := ht.base_le
  refine ⟨h.knows, by rw [h.free]; omega, Or.inr ⟨by rw [h.free, hfree], by rw [hfree, hfull]⟩,
    fun _ => ⟨h.known ht, ?_, fun hlt => ?_⟩⟩
  · rw [h.old]
    exact h.finchar
  · rw [h.free, hfree] at hlt
    omega

/-- The reader from a code on that is not `CLEAR`, with so many turns of its loop behind it. -/
def turn (p : Params) (n : ℕ) (d : Dec) : Option (List ℕ) :=
  match getcode p d with
  | (none, d) => some d.out
  | (some code, d) => (decode p d code).bind (decloop p n)

/-- No `CLEAR`. -/
def Item.Plain (p : Params) (a : Item) : Prop := ¬ (a.code = CLEAR ∧ p.block_compress = true)

lemma decloop_plain {a : Item} {d' : Dec} (h : getcode p d = (some a.code, d')) (ha : a.Plain p)
    (n : ℕ) : decloop p (n + 1) d = turn p n d := by
  simp only [decloop, turn, h]
  exact if_neg ha

lemma decloop_clear {d' : Dec} (h : getcode p d = (some CLEAR, d')) (hp : p.block_compress = true)
    (n : ℕ) : decloop p (n + 1) d = turn p n { d' with
      tab_prefix := fun code => if code < 256 then 0 else d'.tab_prefix code
      clear_flg := true
      free_ent := FIRST - 1 } := by
  simp only [decloop, turn, h]
  exact if_pos (by simp [hp])

/-- The widths of the reader are those of the writer. -/
lemma Level.adjust (h : Level p S s d) :
    Compress.adjust p d.n_bits d.maxcode d.free_ent d.clear_flg =
      Compress.adjust p s.n_bits s.maxcode s.free_ent false := by
  rw [h.n_bits, h.maxcode, h.free, h.clear]

lemma Level.stale (ht : Table p S start s) (h : Level p S s d) (code : ℕ) :
    (s.item code).flush = Compress.stale d.maxcode d.free_ent d.clear_flg := by
  rw [h.maxcode, h.free, h.clear, ← ht.clear]
  rfl

/-- What has been done when a string ended: the codes `mid` are written behind that for the string,
and the reader is ready for the code of the next one. -/
structure Turned (p : Params) (S S' : ℕ → List ℕ) (start c : ℕ) (s t : Enc) (mid : List Item) :
    Prop where
  table : Table p S' (start + (S s.ent).length) t
  ent : t.ent = c
  packs : ∀ l, t.out ++ pack t.buf t.offset l =
    s.out ++ pack s.buf s.offset (s.item s.ent :: (mid ++ l))
  steady : ∀ l, Steady t.n_bits l → Steady s.n_bits (s.item s.ent :: (mid ++ l))
  reads : ∀ d n a l, Level p S s d → Feeds (s.item s.ent).flush d (mid ++ a :: l) →
    a.Plain p → Steady t.n_bits (a :: l) → ∃ d', decloop p (n + 1) d = turn p n d' ∧
      d'.out = d.out ∧ Lag p S' t d' ∧
      Compress.adjust p d'.n_bits d'.maxcode d'.free_ent d'.clear_flg = (t.n_bits, t.maxcode) ∧
      Feeds (Compress.stale d'.maxcode d'.free_ent d'.clear_flg) d' (a :: l)

/-- No `CLEAR` is written. -/
lemma Turned.of_lag {S' : ℕ → List ℕ} {c : ℕ} (ht : Table p S start s) {t : Enc}
    (htable : Table p S' (start + (S s.ent).length) t) (hent : t.ent = c)
    (hw : (t.n_bits, t.maxcode) = Compress.adjust p s.n_bits s.maxcode s.free_ent s.clear_flg)
    (hpack : ∀ l, t.out ++ pack t.buf t.offset l =
      s.out ++ pack s.buf s.offset (s.item s.ent :: l))
    (hlag : ∀ d, Level p S s d → Lag p S' t d) : Turned p S S' start c s t [] := by
  refine ⟨htable, hent, hpack, fun l hl => ?_, fun d n a l hlev hf ha hs => ?_⟩
  · refine steady_item ht.width ht.ent_lt_width ?_
    rw [← hw]
    exact hl
  · rw [List.nil_append, hlev.stale ht] at hf
    rw [ht.clear, ← hlev.adjust] at hw
    obtain ⟨_, _, _, _, hget, -⟩ := getcode_cons (p := p) hf (by rw [← hw]; exact hs)
    exact ⟨d, decloop_plain hget ha n, rfl, hlag d hlev, hw.symm, hf⟩

/-- The table is emptied behind the code for `ent`, and `CLEAR` says so. -/
lemma Turned.of_clear {c : ℕ} (hp : p.Fit) (ht : Table p S start s) (hc : c < 256)
    (hblock : p.block_compress = true) {u t : Enc}
    (hw : (u.n_bits, u.maxcode) = Compress.adjust p s.n_bits s.maxcode s.free_ent s.clear_flg)
    (hupack : ∀ l, u.out ++ pack u.buf u.offset l =
      s.out ++ pack s.buf s.offset (s.item s.ent :: l))
    (hufree : u.free_ent = FIRST) (huclear : u.clear_flg = true)
    (huhtab : ∀ i < p.hsize, u.htab i = -1) (huent : u.ent = c) (hfull : FIRST ≤ s.free_ent)
    (he : t = output p u CLEAR) : Turned p S S start c s t [u.item CLEAR] := by
  have hwid := ht.width.adjust (k := 0) hp ht.free (by omega)
  rw [← ht.clear, ← hw] at hwid
  have huwid : Width p u.n_bits u.maxcode u.free_ent :=
    ⟨hwid.low, hwid.high, by rw [hufree]; exact hfull.trans hwid.fit, hwid.code⟩
  obtain ⟨buf, offset, bytes_out, out, hout, hpack⟩ :=
    output_spec (p := p) (s := u) (by have := huwid.low; omega) CLEAR
  have hinit : Compress.adjust p u.n_bits u.maxcode u.free_ent u.clear_flg =
      (INIT_BITS, MAXCODE INIT_BITS) := by
    rw [huclear]
    rfl
  have hflush : (u.item CLEAR).flush = true := by
    simp [Enc.item, Compress.stale, huclear]
  rw [hinit] at hout
  rw [hout] at he
  subst he
  have hsteady : ∀ l, Steady INIT_BITS l →
      Steady (Compress.adjust p s.n_bits s.maxcode s.free_ent s.clear_flg).1
        (u.item CLEAR :: l) := by
    intro l hl
    rw [← hw]
    have h9 : 2 ^ 9 ≤ 2 ^ u.n_bits := Nat.pow_le_pow_right (by norm_num) huwid.low
    refine steady_item huwid ?_ (by rw [hinit]; exact hl)
    simp only [CLEAR]
    omega
  have hfree : u.free_ent = p.base := by simp [hufree, Params.base, hblock]
  refine ⟨Table.reset hp ht.char hc rfl rfl (by exact huent) (by exact hfree) (by exact huhtab) _,
    huent, fun l => ?_, fun l hl => ?_, fun d n a l hlev hf ha hs => ?_⟩
  · rw [hpack, hupack]
    rfl
  · exact steady_item ht.width ht.ent_lt_width (hsteady l hl)
  · -- `CLEAR` is read, and the next code with the width that follows it
    rw [hlev.stale ht] at hf
    have hs' := hsteady _ hs
    rw [ht.clear, ← hlev.adjust] at hs'
    obtain ⟨offset, size, buf, stdin, hget, hf'⟩ := getcode_cons (p := p) hf hs'
    rw [hflush] at hf'
    refine ⟨_, decloop_clear hget hblock n, rfl,
      ⟨⟨hlev.knows.char, fun x hx hx' => ?_⟩, ?_, ?_, ?_⟩,
      rfl, hf'.congr rfl rfl rfl rfl rfl⟩
    · have hb : p.base = 257 := by simp [Params.base, hblock, FIRST]
      simp only [FIRST] at hx'
      omega
    · simp [FIRST]
    · exact Or.inl (by simp [FIRST, hufree])
    · intro hb
      simp [Params.base, hblock, FIRST] at hb

/-- **A turn of the writer** that ends a string is undone by the reader. -/
lemma noMatch_spec (hp : p.Fit) (ht : Table p S start s) {c j : ℕ} (hc : c < 256) :
    ∃ S' mid, Turned p S S' start c s
      (noMatch p s ((c <<< p.maxbits + s.ent : ℕ) : ℤ) j c) mid := by
  obtain ⟨buf, offset, bytes_out, out, hout, hpack⟩ :=
    output_spec (p := p) (s := s) (by have := ht.width.low; omega) s.ent
  have hfree := ht.free
  simp only [noMatch, hout, Params.maxmaxcode]
  split_ifs with hlt hcheck
  · -- there is a code for the string with the character
    exact ⟨_, [], Turned.of_lag ht (ht.add hp hc hlt rfl rfl rfl rfl rfl rfl) rfl rfl hpack
      fun d hlev => hlev.lag_add ht hc rfl rfl⟩
  · have hfull : s.free_ent = 2 ^ p.maxbits := by omega
    simp only [cl_block]
    split_ifs with hrat
    · exact ⟨_, [], Turned.of_lag ht (ht.keep hp hc rfl rfl rfl rfl rfl rfl) rfl rfl hpack
        fun d hlev => hlev.lag_keep ht rfl hfull⟩
    · have h9 : 2 ^ 9 ≤ 2 ^ p.maxbits := Nat.pow_le_pow_right (by norm_num) hp.low
      exact ⟨_, _, Turned.of_clear hp ht hc hcheck.2 rfl hpack rfl rfl
        (fun i hi => if_pos hi) rfl (by simp only [FIRST]; omega) rfl⟩
  · have hfull : s.free_ent = 2 ^ p.maxbits := by omega
    exact ⟨_, [], Turned.of_lag ht (ht.keep hp hc rfl rfl rfl rfl rfl rfl) rfl rfl hpack
      fun d hlev => hlev.lag_keep ht rfl hfull⟩

/-! ### The whole text -/

/-- So much text cannot make a string that the reader's stack has no room for. -/
def LIMIT : ℕ := 33558528

lemma Table.fits (ht : Table p S start s) (h : start + (S s.ent).length ≤ LIMIT) :
    (S s.ent).length ≤ STACK := by
  have hlong := ht.long s.ent ht.ent
  simp only [LIMIT, STACK] at h ⊢
  by_contra hgt
  have hge : 8193 ≤ (S s.ent).length := by omega
  nlinarith

lemma Table.plain (ht : Table p S start s) : (s.item s.ent).Plain p := by
  rintro ⟨h1, h2⟩
  have hb : p.base = 257 := by simp [Params.base, h2, FIRST]
  simp only [Enc.item, CLEAR] at h1
  rcases ht.ent with h | h <;> omega

lemma Table.count (ht : Table p S start s) (k : ℤ) : Table p S start { s with in_count := k } :=
  ⟨ht.char, ht.nonempty, ht.long, ht.ent, ht.hash, ht.full, ht.free, ht.width, ht.clear⟩

lemma outputEof_out (s : Enc) : (outputEof s).out = s.out ++ pack s.buf s.offset [] := by
  simp only [outputEof, pack, block, behind, List.append_nil]
  split
  · rfl
  · have h0 : s.offset = 0 := by omega
    simp [h0, bytes]

/-- The code for `ent` is read. -/
lemma read_spec (ht : Table p S start s) (hlag : Lag p S s d)
    (hw : Compress.adjust p d.n_bits d.maxcode d.free_ent d.clear_flg = (s.n_bits, s.maxcode))
    (hlen : (S s.ent).length ≤ STACK) {l : List Item}
    (hf : Feeds (Compress.stale d.maxcode d.free_ent d.clear_flg) d (s.item s.ent :: l))
    (hs : Steady s.n_bits (s.item s.ent :: l)) :
    ∃ d', (∀ n, turn p n d = decloop p n d') ∧ d'.out = d.out ++ S s.ent ∧ Level p S s d' ∧
      Feeds (s.item s.ent).flush d' l := by
  obtain ⟨offset, size, buf, stdin, hget, hf'⟩ := getcode_cons (p := p) hf (by rw [hw]; exact hs)
  rw [hw] at hget hf'
  obtain ⟨ tab_prefix, tab_suffix, hdec, hknows⟩ := decode_spec (d := { d with
    n_bits := s.n_bits, maxcode := s.maxcode, clear_flg := false
    offset := offset, size := size, buf := buf, stdin := stdin }) ht
    ⟨⟨hlag.knows.char, hlag.knows.entry⟩, hlag.low, hlag.free, hlag.old⟩ hlen
  refine ⟨{ d with
    n_bits := s.n_bits, maxcode := s.maxcode, clear_flg := false
    offset := offset, size := size, buf := buf, stdin := stdin
    finchar := (S s.ent).headD 0, out := d.out ++ S s.ent
    tab_prefix := tab_prefix, tab_suffix := tab_suffix
    free_ent := s.free_ent, oldcode := s.ent }, fun n => ?_, rfl,
    ⟨⟨hknows.char, hknows.entry⟩, rfl, rfl, rfl, rfl, rfl, rfl⟩, hf'.congr rfl rfl rfl rfl rfl⟩
  simp only [turn, hget]
  change (decode p _ s.ent).bind _ = _
  rw [hdec]
  rfl

lemma decloop_end (ht : Table p S start s) (h : Level p S s d)
    (hf : Feeds (s.item s.ent).flush d []) (n : ℕ) : decloop p (n + 1) d = some d.out := by
  rw [h.stale ht] at hf
  obtain ⟨h1, h2⟩ := getcode_nil (p := p) (by rw [h.n_bits]; exact ht.width.low) hf
  obtain ⟨d', hd'⟩ : ∃ d', getcode p d = (none, d') := ⟨(getcode p d).2, Prod.ext h1 rfl⟩
  rw [hd'] at h2
  replace h2 : d'.out = d.out := h2
  simp only [decloop, hd', h2]

/-- The rest of a text is written in codes, and got from them again. -/
structure Writes (p : Params) (S : ℕ → List ℕ) (s : Enc) (text : List ℕ) (s' : Enc)
    (l : List Item) : Prop where
  run : encloop p s text = some s'
  out : (outputEof (output p s' s'.ent)).out = s.out ++ pack s.buf s.offset l
  steady : Steady s.n_bits l
  plain : ∃ a l', l = a :: l' ∧ a.Plain p
  reads : ∀ d, Lag p S s d →
    Compress.adjust p d.n_bits d.maxcode d.free_ent d.clear_flg = (s.n_bits, s.maxcode) →
    Feeds (Compress.stale d.maxcode d.free_ent d.clear_flg) d l →
    ∀ n, text.length < n → turn p n d = some (d.out ++ S s.ent ++ text)
  /-- Where there is no string in the table, the code for `ent` comes next. -/
  first : s.free_ent = p.base → ∃ l', l = s.item s.ent :: l' ∧
    ∀ d, Level p S s d → Feeds (s.item s.ent).flush d l' →
      ∀ n, text.length < n → decloop p n d = some (d.out ++ text)

/-- The code for `ent` comes next. -/
lemma Writes.of_level {text : List ℕ} {s' : Enc} {l : List Item} (ht : Table p S start s)
    (hlen : (S s.ent).length ≤ STACK) (hrun : encloop p s text = some s')
    (hout : (outputEof (output p s' s'.ent)).out =
      s.out ++ pack s.buf s.offset (s.item s.ent :: l))
    (hs : Steady s.n_bits (s.item s.ent :: l))
    (hlev : ∀ d, Level p S s d → Feeds (s.item s.ent).flush d l →
      ∀ n, text.length < n → decloop p n d = some (d.out ++ text)) :
    Writes p S s text s' (s.item s.ent :: l) := by
  refine ⟨hrun, hout, hs, ⟨_, _, rfl, ht.plain⟩, fun d hlag hw hf n hn => ?_,
    fun _ => ⟨_, rfl, hlev⟩⟩
  obtain ⟨d', hturn, hd', hl, hf'⟩ := read_spec ht hlag hw hlen hf hs
  rw [hturn, hlev d' hl hf' n hn, hd']

/-- **The rest of a text**, from any place in it. -/
theorem writes (hp : p.Fit) (text : List ℕ) (hbytes : ∀ c ∈ text, c < 256)
    (ht : Table p S start s) (hlim : start + (S s.ent).length + text.length ≤ LIMIT) :
    ∃ s' l, Writes p S s text s' l := by
  induction text generalizing S start s with
  | nil =>
    obtain ⟨buf, offset, bytes_out, out, hout, hpack⟩ :=
      output_spec (p := p) (s := s) (by have := ht.width.low; omega) s.ent
    refine ⟨s, [s.item s.ent], Writes.of_level ht (ht.fits (by simpa using hlim)) rfl ?_
      (steady_item ht.width ht.ent_lt_width trivial) fun d hlev hf n hn => ?_⟩
    · rw [outputEof_out, hout]
      exact hpack []
    · obtain ⟨m, rfl⟩ := Nat.exists_eq_succ_of_ne_zero (Nat.ne_of_gt hn)
      rw [decloop_end ht hlev hf, List.append_nil]
  | cons c text ih =>
    have hc : c < 256 := hbytes c (by simp)
    have hbytes' : ∀ c ∈ text, c < 256 := fun c h => hbytes c (by simp [h])
    rw [List.length_cons] at hlim
    have ht0 := ht.count (long (s.in_count + 1))
    obtain ⟨j, hj, hl | ⟨hl, h1, h2, hS⟩⟩ := ht.lookup hp hc
    · -- the string ends
      obtain ⟨S', mid, hturned⟩ := noMatch_spec hp ht0 (j := j) hc
      have hSc : (S' c) = [c] := hturned.table.char c hc
      obtain ⟨s', l, hw⟩ := ih hbytes' hturned.table (by
        rw [hturned.ent, hSc, List.length_singleton]
        exact le_trans (by simp only; omega) hlim)
      obtain ⟨a, l', rfl, ha⟩ := hw.plain
      refine ⟨s', _, Writes.of_level ht (ht.fits (by omega)) ?_ ?_ (hturned.steady _ hw.steady)
        fun d hlev hf n hn => ?_⟩
      · simp only [encloop, encode, hl]
        exact hw.run
      · rw [hw.out]
        exact hturned.packs _
      · rw [List.length_cons] at hn
        obtain ⟨m, rfl⟩ := Nat.exists_eq_succ_of_ne_zero (Nat.ne_of_gt (Nat.zero_lt_of_lt hn))
        obtain ⟨d', hdec, hd', hlag, hadj, hf'⟩ := hturned.reads d m a l'
          ⟨hlev.knows, hlev.free, hlev.old, hlev.finchar, hlev.n_bits, hlev.maxcode, hlev.clear⟩
          hf ha hw.steady
        rw [hdec, hw.reads d' hlag hadj hf' m (by omega), hd', hturned.ent, hSc, List.append_assoc]
        rfl
    · -- the string goes on
      have hk : Known p s.free_ent (s.codetab j) := Or.inr ⟨h1, h2⟩
      have ht1 : Table p S start
          { s with in_count := long (s.in_count + 1), ent := s.codetab j } :=
        ⟨ht0.char, ht0.nonempty, ht0.long, hk, ht0.hash, ht0.full, ht0.free, ht0.width, ht0.clear⟩
      obtain ⟨s', l, hw⟩ := ih hbytes' ht1 (by
        simp only [hS, List.length_append, List.length_singleton]
        omega)
      refine ⟨s', l, ?_, hw.out, hw.steady, hw.plain, fun d hlag hadj hf n hn => ?_,
        fun hbase => absurd h2 (by omega)⟩
      · simp only [encloop, encode, hl]
        exact hw.run
      · have hlag' : Lag p S
            { s with in_count := long (s.in_count + 1), ent := s.codetab j } d := by
          refine ⟨hlag.knows, hlag.low, hlag.free, fun hb => ?_⟩
          obtain ⟨h3, h4, h5⟩ := hlag.old hb
          refine ⟨h3, h4, fun hlt => ?_⟩
          obtain ⟨b, m, hb'⟩ := List.exists_cons_of_ne_nil (ht.nonempty _ ht.ent)
          rw [h5 hlt]
          simp only [hS, hb']
          rfl
        rw [List.length_cons] at hn
        rw [hw.reads d hlag' hadj hf n (by omega)]
        simp only [hS, List.append_assoc, List.singleton_append]

end

/-! ### Files -/

section

variable {p q : Params}

/-- The reader needs of the sizes only what is in the header. -/
lemma decloop_congr (hm : q.maxbits = p.maxbits) (hb : q.block_compress = p.block_compress)
    (n : ℕ) : decloop q n = decloop p n := by
  obtain ⟨m, b, h⟩ := p
  obtain ⟨m', b', h'⟩ := q
  obtain rfl : m' = m := hm
  obtain rfl : b' = b := hb
  induction n with
  | zero => rfl
  | succ n ih =>
    funext d
    have hget : ∀ d, getcode ⟨m', b', h'⟩ d = getcode ⟨m', b', h⟩ d := fun d => rfl
    have hdec : ∀ d x, decode ⟨m', b', h'⟩ d x = decode ⟨m', b', h⟩ d x := fun d x => rfl
    simp only [decloop, hget, hdec, ih]

lemma params_header (hm : p.maxbits ≤ 15) (stdin : List ℕ) :
    params (header p ++ stdin) = some (⟨p.maxbits, p.block_compress, 0⟩, stdin) := by
  obtain ⟨m, b, h⟩ := p
  simp only at hm
  have hbits : ∀ m ≤ 15, ∀ b : Bool,
      (m ||| if b then BLOCK_MASK else 0) &&& BIT_MASK = m ∧
      (decide ((m ||| if b then BLOCK_MASK else 0) &&& BLOCK_MASK ≠ 0)) = b := by decide
  obtain ⟨h1, h2⟩ := hbits m hm b
  simp only [header, magic_header, List.cons_append, List.nil_append, params, h1]
  rw [if_pos ⟨trivial, by simp only [BITS]; omega⟩]
  simp only [Option.some.injEq, Prod.mk.injEq, Params.mk.injEq, and_true, true_and]
  exact h2

lemma fit_of {m hsize k : ℕ} (b : Bool) (h9 : 9 ≤ m) (h15 : m ≤ 15) (hprime : hsize.Prime)
    (hk : 8 - doublings 16 hsize = k) (hm : m ≤ 8 + k) (hroom : 2 ^ (8 + k) ≤ hsize) :
    (⟨m, b, hsize⟩ : Params).Fit :=
  ⟨h9, h15, hprime, by simpa only [Params.hshift, hk] using hm,
    by simpa only [Params.hshift, hk] using hroom⟩

lemma tune_fit {m fsize : ℕ} (h9 : 9 ≤ m) (h15 : m ≤ 15) (b : Bool)
    (hbig : m ≤ 12 ∨ 2 ^ m ≤ fsize) : (⟨m, b, tune m fsize⟩ : Params).Fit := by
  rcases Nat.lt_or_ge 12 m with h12 | h12
  · replace hbig : 2 ^ m ≤ fsize := hbig.resolve_left (by omega)
    obtain rfl | rfl | rfl : m = 13 ∨ m = 14 ∨ m = 15 := by omega
    · have hsize : tune 13 fsize = 9001 := by
        simp only [tune]
        rw [if_neg (by omega), if_pos (by simp)]
        rfl
      rw [hsize]
      exact fit_of b (k := 5) h9 h15 (by norm_num) (by decide) (by norm_num) (by norm_num)
    · have hsize : tune 14 fsize = 18013 := by
        simp only [tune]
        rw [if_neg (by omega), if_neg (by omega), if_pos (by simp)]
        rfl
      rw [hsize]
      exact fit_of b (k := 6) h9 h15 (by norm_num) (by decide) (by norm_num) (by norm_num)
    · have hsize : tune 15 fsize = 35023 := by
        simp only [tune]
        rw [if_neg (by omega), if_neg (by omega), if_neg (by omega), if_pos (by simp)]
        rfl
      rw [hsize]
      exact fit_of b (k := 7) h9 h15 (by norm_num) (by decide) (by norm_num) (by norm_num)
  · have hsize : tune m fsize = 5003 := by
      simp only [tune]
      rw [if_pos (Or.inl h12)]
      rfl
    rw [hsize]
    exact fit_of b (k := 4) h9 h15 (by norm_num) (by decide) (by omega) (by norm_num)

lemma hsizeStdin_fit {m : ℕ} (h9 : 9 ≤ m) (h15 : m ≤ 15) (b : Bool) :
    (⟨m, b, hsizeStdin m⟩ : Params).Fit := by
  simp only [hsizeStdin]
  split
  · exact fit_of b (k := 4) h9 h15 (by norm_num [HSIZE12]) (by decide) (by omega)
      (by norm_num [HSIZE12])
  · exact fit_of b (k := 8) h9 h15 (by norm_num [HSIZE]) (by decide) (by omega)
      (by norm_num [HSIZE])

end

section

variable {p : Params} {text : List ℕ}

/-- The first string of a text, before anything is written. -/
lemma begin_table (hp : p.Fit) (buf codetab : ℕ → ℕ) (htab : ℕ → ℤ) {ent : ℕ} (hent : ent < 256) :
    Table p (fun x => [x]) 0 { begin p buf codetab htab with ent := ent } :=
  Table.reset hp (fun _ _ => rfl) hent rfl rfl rfl rfl (fun _ hi => if_pos hi) 0

/-- The reader behind its first code. -/
lemma decompress_spec {s : Enc} (hoff : s.offset = 0) (hn : s.n_bits = INIT_BITS)
    (hm : s.maxcode = MAXCODE INIT_BITS) (hfree : s.free_ent = p.base)
    (hent : s.ent < 256) {l : List Item} (hs : Steady s.n_bits (s.item s.ent :: l))
    (buf tab_prefix tab_suffix : ℕ → ℕ) :
    ∃ d, (∀ n, decompress p n buf tab_prefix tab_suffix
        (pack s.buf s.offset (s.item s.ent :: l)) = decloop p n d) ∧ d.out = [s.ent] ∧
      Level p (fun x => [x]) s d ∧ Feeds (s.item s.ent).flush d l := by
  obtain ⟨d, hd⟩ : ∃ d, d = dbegin p buf tab_prefix tab_suffix
    (pack s.buf s.offset (s.item s.ent :: l)) := ⟨_, rfl⟩
  have hdfree : d.free_ent = p.base := by rw [hd]; rfl
  have hadj : adjust p d.n_bits d.maxcode d.free_ent d.clear_flg =
      (INIT_BITS, MAXCODE INIT_BITS) := by
    have hb := Params.base_cases (p := p)
    have hle : ¬ p.base > MAXCODE INIT_BITS := by
      simp only [MAXCODE, INIT_BITS]
      omega
    rw [hdfree, hd]
    simp [dbegin, adjust, if_neg hle]
  have hf : Feeds (stale d.maxcode d.free_ent d.clear_flg) d (s.item s.ent :: l) := by
    refine Or.inl ⟨Or.inr ?_, s.buf, ?_⟩
    · rw [hd]
      exact le_rfl
    · rw [hd, hoff]
      rfl
  obtain ⟨offset, size, dbuf, stdin, hget, hf'⟩ := getcode_cons (p := p) hf
    (by rw [hadj, ← hn]; exact hs)
  rw [hadj] at hget hf'
  refine ⟨{ d with
    n_bits := INIT_BITS, maxcode := MAXCODE INIT_BITS, clear_flg := false
    offset := offset, size := size, buf := dbuf, stdin := stdin
    finchar := s.ent, oldcode := s.ent, out := [s.ent] }, fun n => ?_, rfl,
    ⟨⟨fun x hx => ?_, fun x hx hx' => ?_⟩, ?_, rfl, rfl, hn.symm, hm.symm, rfl⟩,
    hf'.congr rfl rfl rfl rfl rfl⟩
  · have hitem : (s.item s.ent).code = s.ent := rfl
    have hout : d.out = [] := by rw [hd]; rfl
    simp only [decompress, ← hd, hget, hitem, hout, Nat.mod_eq_of_lt hent, List.nil_append]
  · rw [hd]
    exact if_pos hx
  · exact absurd hx' (by simp only [hdfree]; omega)
  · rw [hfree]
    exact hdfree

/-- What was compressed is got back, with any table that fits the codes. -/
theorem round_trip (hp : p.Fit) (hbytes : ∀ c ∈ text, c < 256)
    (hlim : text.length ≤ LIMIT) (buf codetab : ℕ → ℕ) (htab : ℕ → ℤ)
    (buf' tab_prefix tab_suffix : ℕ → ℕ) :
    ∃ file, compress p buf codetab htab text = some file ∧ ∀ n, text.length < n →
      uncompress n buf' tab_prefix tab_suffix file = some text := by
  have hparams : ∀ l n, uncompress n buf' tab_prefix tab_suffix (header p ++ l) =
      decompress p n buf' tab_prefix tab_suffix l := by
    intro l n
    have hloop := decloop_congr (p := p) (q := ⟨p.maxbits, p.block_compress, 0⟩) rfl rfl n
    simp only [uncompress, params_header hp.high, Option.bind_some, decompress, hloop]
    rfl
  cases text with
  | nil =>
    refine ⟨header p, ?_, fun n _ => ?_⟩
    · simp only [compress, outputEof_out]
      change some (header p ++ pack buf 0 []) = _
      rw [pack_nil, List.append_nil]
    · rw [← List.append_nil (header p), hparams]
      obtain ⟨h1, h2⟩ := getcode_nil (p := p) (d := dbegin p buf' tab_prefix tab_suffix [])
        le_rfl (Or.inl ⟨Or.inr le_rfl, buf, rfl⟩)
      obtain ⟨d, hd⟩ : ∃ d, getcode p (dbegin p buf' tab_prefix tab_suffix []) = (none, d) :=
        ⟨_, Prod.ext h1 rfl⟩
      rw [hd] at h2
      replace h2 : d.out = [] := h2
      simp only [decompress, hd, h2]
  | cons ent text =>
    have hent : ent < 256 := hbytes ent (by simp)
    rw [List.length_cons] at hlim
    obtain ⟨s, hs⟩ : ∃ s : Enc, s = { begin p buf codetab htab with ent := ent } := ⟨_, rfl⟩
    have htable := begin_table hp buf codetab htab hent
    rw [← hs] at htable
    have hse : s.ent = ent := by rw [hs]
    have hsout : s.out = header p := by rw [hs]; rfl
    have hbase : s.free_ent = p.base := by rw [hs]; rfl
    obtain ⟨s', l, hw⟩ := writes hp text (fun c h => hbytes c (by simp [h])) htable
      (by simp only [List.length_singleton]; omega)
    obtain ⟨l', rfl, hfirst⟩ := hw.first hbase
    obtain ⟨d, hdec, hout, hlev, hf⟩ := decompress_spec (by rw [hs]; rfl) (by rw [hs]; rfl)
      (by rw [hs]; rfl) hbase (by rw [hse]; exact hent) hw.steady buf' tab_prefix tab_suffix
    refine ⟨header p ++ pack s.buf s.offset (s.item s.ent :: l'), ?_, fun n hn => ?_⟩
    · simp only [compress, ← hs, hw.run, Option.map_some, hw.out, hsout]
    · rw [List.length_cons] at hn
      rw [hparams, hdec, hfirst d hlev hf n (by omega), hout, hse]
      rfl

end

end Coherent.Compress
