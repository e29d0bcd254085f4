import Coherent.MintGcd

/-!
The multi-precision integers of `libmp` as text.

`mtos` writes the digits of a mint from the last on, down from the end of a space whose size it
takes from a table: so many characters for each byte of the mint. `min` reads the digits back. The
table has one entry that is too small, that of base 5, where three characters do not always hold a
byte, and the product of length and entry is taken in 16 bits; in all other cases the text fits and
`min` comes back to the mint it was made of.
-/

namespace Coherent.Mint.Text

open Coherent.Lib Coherent.Lib.Complement

variable {V : Type} [DecidableEq V]
variable {b n m d : ℕ} {v : ℤ}

/-! ### Writing -/

/-- The characters for each byte of a mint, in the bases from 2 on. -/
def sizfac : List ℕ := [7, 5, 4, 3, 3, 3, 3, 3, 3, 3, 2, 2, 2, 2, 2]

def dtc : List Char :=
  ['0', '1', '2', '3', '4', '5', '6', '7', '8', '9', 'A', 'B', 'C', 'D', 'E', 'F']

/-- `*--rp = c`: the place of the last character written, with what is written from there on. In
front of the space there is none. -/
def put (c : Char) (p : ℕ × List Char) : Option (ℕ × List Char) :=
  if p.1 = 0 then none else some (p.1 - 1, c :: p.2)

/-- The digits, with the number of turns bounded. -/
def mtosLoop (obase : ℕ) : ℕ → (Unit → List ℕ) → ℕ × List Char → Option (ℕ × List Char)
  | 0, _, _ => none
  | fuel + 1, ac, p => do
    let (ac, dig) ← sdiv ac () obase ()
    let p ← put (dtc.getD dig.toNat '0') p
    if zerop (ac ()) then some p else mtosLoop obase fuel ac p

/-- The size of the space, for `ac` and the sign. -/
def size (obase : ℕ) (ac : List ℕ) (mifl : Prop) [Decidable mifl] : ℕ :=
  let size := unsigned (1 + ac.length * sizfac.getD (obase - 2) 0)
  if mifl then size else unsigned (size + 1)

/-- The string, its NUL left out. -/
def mtos (obase fuel : ℕ) (a : List ℕ) : Option (List Char) := do
  let ac ← (if ispos a then some a else neg a)
  let p ← put (Char.ofNat 0) (size obase ac (ispos a), [])
  let p ← mtosLoop obase fuel (fun _ => ac) p
  let p ← (if ispos a then some p else put '-' p)
  some (p.2.takeWhile (· ≠ Char.ofNat 0))

/-! ### Reading -/

def isspace (ch : Char) : Bool := (9 ≤ ch.toNat && ch.toNat ≤ 13) || ch == ' '

def okdigit (ch : Char) : Bool := ch.isDigit || ('A' ≤ ch && ch ≤ 'F')

def valdigit (ch : Char) : ℕ :=
  if ch.isDigit then ch.toNat - '0'.toNat else ch.toNat + 10 - 'A'.toNat

/-- The number read and the mint of one digit. -/
inductive Mname
  | a | c
  deriving DecidableEq

/-- The loop of `min`, with what is left of the input. -/
def minLoop (ibase : ℕ) : List Char → (Mname → List ℕ) → Option ((Mname → List ℕ) × List Char)
  | [], s => some (s, [])
  | ch :: rest, s =>
    if okdigit ch then do
      let s ← smult (Function.update s .c [valdigit ch]) .a ibase .a
      let s ← madd s .a .c .a
      minLoop ibase rest s
    else some (s, ch :: rest)

def min (ibase : ℕ) (s : V → List ℕ) (a : V) (inp : List Char) :
    Option ((V → List ℕ) × List Char) := do
  let inp := inp.dropWhile isspace
  let mifl := inp.head? = some '-'
  let inp := if mifl then inp.tail.dropWhile isspace else inp
  let (m, rest) ← minLoop ibase inp fun _ => [0]
  let m ← (if mifl then mneg m .a .a else some m)
  some (Function.update s a (m .a), rest)

/-! ### The digits -/

/-- The text of a number: its last digit and those of the rest. -/
def text (b n : ℕ) : List Char :=
  ((n % b :: Nat.digits b (n / b)).map fun d => dtc.getD d '0').reverse

lemma text_last (h : n / b = 0) : text b n = [dtc.getD (n % b) '0'] := by
  rw [text, h, Nat.digits_zero]
  rfl

lemma text_step (hb : 2 ≤ b) (h : n / b ≠ 0) :
    text b n = text b (n / b) ++ [dtc.getD (n % b) '0'] := by
  rw [text, Nat.digits_def' hb (Nat.pos_of_ne_zero h), List.map_cons, List.reverse_cons]
  rfl

lemma text_length (b n : ℕ) : (text b n).length = (Nat.digits b (n / b)).length + 1 := by
  rw [text, List.length_reverse, List.length_map, List.length_cons]

/-- So many characters hold the number. -/
lemma text_length_le (hb : 2 ≤ b) (hm : m ≠ 0) : (text b n).length ≤ m ↔ n < b ^ m := by
  obtain ⟨k, rfl⟩ := Nat.exists_eq_succ_of_ne_zero hm
  rw [text_length, Nat.succ_le_succ_iff, Nat.digits_length_le_iff hb,
    Nat.div_lt_iff_lt_mul (by omega), pow_succ]

/-- A digit and its character. -/
lemma dtc_spec : ∀ d < 16, okdigit (dtc.getD d '0') = true ∧ valdigit (dtc.getD d '0') = d ∧
    isspace (dtc.getD d '0') = false ∧ dtc.getD d '0' ≠ '-' ∧ dtc.getD d '0' ≠ Char.ofNat 0 := by
  decide

lemma digits_lt (hb : 2 ≤ b) (hb' : b ≤ 16) : ∀ d ∈ n % b :: Nat.digits b (n / b), d < 16 := by
  intro d hd
  rcases List.mem_cons.mp hd with rfl | hd
  · exact lt_of_lt_of_le (Nat.mod_lt _ (by omega)) hb'
  · exact lt_of_lt_of_le (Nat.digits_lt_base hb hd) hb'

lemma sdiv_digit {s : V → List ℕ} {k : V} (hb : 2 ≤ b) (hb' : b ≤ 16) (hs : s k = ofInt BASE n)
    (hf : fits (len n)) :
    sdiv s k b k = some (Function.update s k (ofInt BASE (n / b : ℕ)), ((n % b : ℕ) : ℤ)) := by
  have habs : |(b : ℤ)| = b := abs_of_nonneg (by omega)
  have hd : SdivFits (n : ℤ) b := fun h => by
    rw [differ_iff] at h
    omega
  rw [sdiv_eq s k k (hs ▸ isMint_int hf) (by omega) (by omega), hs, value_int, if_pos hd, rest,
    if_neg (by omega), Int.tmod_eq_emod_of_nonneg (by omega),
    Int.tdiv_eq_ediv_of_nonneg (by omega)]
  rfl

/-- **The digits are written** if there is room for them. -/
lemma mtosLoop_eq {fuel : ℕ} {ac : Unit → List ℕ} (hb : 2 ≤ b) (hb' : b ≤ 16)
    (hac : ac () = ofInt BASE n) (hf : fits (len n)) (hn : n < fuel) (p : ℕ × List Char) :
    mtosLoop b fuel ac p = if (text b n).length ≤ p.1 then
      some (p.1 - (text b n).length, text b n ++ p.2) else none := by
  induction fuel generalizing n ac p with
  | zero => omega
  | succ fuel ih =>
    rw [mtosLoop, sdiv_digit hb hb' hac hf]
    dsimp only [Option.bind_eq_bind, Option.bind_some]
    rw [Int.toNat_natCast]
    have hle : 1 ≤ (text b n).length := by
      rw [text_length]
      omega
    unfold put
    by_cases hp : p.1 = 0
    · rw [if_pos hp, if_neg (by omega)]
      rfl
    rw [if_neg hp, Option.bind_some]
    have hz : zerop (Function.update ac () (ofInt BASE (n / b : ℕ)) ()) ↔ n / b = 0 := by
      rw [Function.update_self, zerop_iff (normal_int _), value_int]
      exact Int.natCast_eq_zero
    by_cases h0 : n / b = 0
    · rw [if_pos (hz.mpr h0), text_last h0, if_pos (by simp; omega)]
      rfl
    · have hlt : n / b < n := Nat.div_lt_self (Nat.pos_of_ne_zero (by rintro rfl; simp at h0)) hb
      rw [if_neg (mt hz.mp h0), ih (Function.update_self ..)
        (fits_le (len_mono (Int.natCast_nonneg _) (Int.ofNat_le.mpr hlt.le)) hf) (by omega),
        text_step hb h0,
        List.length_append]
      simp only [List.length_singleton, List.append_assoc, List.singleton_append]
      by_cases h1 : (text b (n / b)).length ≤ p.1 - 1
      · rw [if_pos h1, if_pos (by omega)]
        congr 2
        omega
      · rw [if_neg h1, if_neg (by omega)]

/-! ### Reading them back -/

/-- The number that digits come to, the first being the highest. -/
def reads (b : ℕ) (v : ℕ) (ds : List ℕ) : ℕ := ds.foldl (fun v d => v * b + d) v

lemma le_reads (hb : 1 ≤ b) (ds : List ℕ) (v : ℕ) : v ≤ reads b v ds := by
  induction ds generalizing v with
  | nil => exact le_refl v
  | cons d ds ih =>
    calc v ≤ v * b := Nat.le_mul_of_pos_right v hb
      _ ≤ v * b + d := Nat.le_add_right ..
      _ ≤ reads b v (d :: ds) := ih _

lemma reads_text (b n : ℕ) : reads b 0 (n % b :: Nat.digits b (n / b)).reverse = n := by
  have h : ∀ l : List ℕ, reads b 0 l.reverse = Nat.ofDigits b l := by
    intro l
    induction l with
    | nil => rfl
    | cons d l ih =>
      rw [List.reverse_cons, reads, List.foldl_append, Nat.ofDigits_cons, ← ih]
      change reads b 0 l.reverse * b + d = _
      rw [Nat.mul_comm, Nat.add_comm]
  rw [h, Nat.ofDigits_cons, Nat.ofDigits_digits]
  exact Nat.mod_add_div n b

/-- The digits of `n` are the digits read. -/
lemma minLoop_reads (ds : List ℕ) {x : ℕ} {s : Mname → List ℕ} (inp : List Char) (hb : 2 ≤ b)
    (hb' : b ≤ 16) (hd : ∀ d ∈ ds, d < 16) (hs : s .a = ofInt BASE x)
    (hf : fits (len (reads b x ds) + 1)) (hin : ∀ ch ∈ inp.head?, okdigit ch = false) :
    ∃ s', minLoop b (ds.map (fun d => dtc.getD d '0') ++ inp) s = some (s', inp) ∧
      s' .a = ofInt BASE (reads b x ds) := by
  induction ds generalizing x s with
  | nil =>
    refine ⟨s, ?_, hs⟩
    cases inp with
    | nil => rfl
    | cons ch inp =>
      have h := hin ch rfl
      rw [List.map_nil, List.nil_append, minLoop, h]
      rfl
  | cons d ds ih =>
    have hd16 : d < 16 := hd d (List.mem_cons_self ..)
    obtain ⟨h1, h2, -⟩ := dtc_spec d hd16
    -- the numbers on the way are no longer than the last
    have hle : x * b + d ≤ reads b x (d :: ds) := le_reads (by omega) ds (x * b + d)
    have hx : x ≤ x * b := Nat.le_mul_of_pos_right x (by omega)
    have hlen : ∀ y : ℕ, y ≤ reads b x (d :: ds) → fits (len (y : ℤ) + 1) := fun y hy =>
      fits_le (Nat.succ_le_succ (len_mono (by omega) (by exact_mod_cast hy))) hf
    set s1 := Function.update s .c [d] with hs1
    have h3 : smult s1 .a b .a = some (Function.update s1 .a (ofInt BASE (x * b : ℕ))) := by
      have e1 : s1 .a = ofInt BASE x := hs
      rw [smult_eq s1 .a .a (by rw [e1]; exact normal_int _) (by simp only [NEFL, BASE]; omega),
        e1, value_int, if_pos (show SmultFits (x : ℤ) b from Or.inr (hlen x (by omega))),
        Nat.cast_mul]
    set s2 := Function.update s1 .a (ofInt BASE (x * b : ℕ)) with hs2
    have h4 : madd s2 .a .c .a = some (Function.update s2 .a (ofInt BASE (x * b + d : ℕ))) := by
      have e1 : s2 .a = ofInt BASE (x * b : ℕ) := rfl
      have e2 : s2 .c = [d] := rfl
      have e3 : Normal BASE [d] := show d < 128 by omega
      have e4 : value BASE [d] = d := by
        rw [value_singleton two_le_base, if_neg (by simp only [BASE]; omega)]
      have hl1 : len (d : ℤ) = 1 := by rw [← e4, len_value e3]; rfl
      rw [madd, sum_eq (by rw [e1]; exact normal_int _) (by rw [e2]; exact e3), e1, e2, value_int,
        e4, if_pos]
      · rw [Option.map_some, Nat.cast_add]
      · rw [SumFits, hl1]
        have := hlen (x * b) (by omega)
        exact fits_le (Nat.succ_le_succ (max_le le_rfl (one_le_len _))) this
    obtain ⟨s', h5, h6⟩ := ih (s := Function.update s2 .a (ofInt BASE (x * b + d : ℕ)))
      (x := x * b + d) (fun e he => hd e (List.mem_cons_of_mem _ he)) rfl hf
    refine ⟨s', ?_, h6⟩
    rw [List.map_cons, List.cons_append, minLoop, if_pos h1, h2, Option.bind_eq_bind, h3,
      Option.bind_some, h4, Option.bind_some, h5]

/-! ### The space -/

/-- Where the text and its NUL fit the space: its size is below `2 ^ 16`, and in base 5 the number
is one that three characters for each byte hold. -/
def Enough (b : ℕ) (v : ℤ) : Prop :=
  1 + len |v| * sizfac.getD (b - 2) 0 + (if v < 0 then 1 else 0) < 65536 ∧
    (b = 5 → v.natAbs < 125 ^ len |v|)

instance (b : ℕ) (v : ℤ) : Decidable (Enough b v) := inferInstanceAs (Decidable (_ ∧ _))

/-- The entries of the table. -/
lemma sizfac_spec (hb : 2 ≤ b) (hb' : b ≤ 16) : let f := sizfac.getD (b - 2) 0
    2 ≤ f ∧ f ≤ 7 ∧ (if b = 5 then b ^ f = 125 else BASE ≤ b ^ f) ∧ b ^ (2 * f) ≤ BASE ^ 3 := by
  interval_cases b <;> decide

lemma natAbs_lt (v : ℤ) : v.natAbs < BASE ^ len |v| := by
  have h := ofDigits_lt (rest_abs v).lt
  rwa [(rest_abs v).val] at h

/-- A number of so many bytes is so large. -/
lemma le_natAbs (h : len |v| = n + 2) : BASE ^ n ≤ v.natAbs := by
  have h1 := (normal_int |v|).large two_le_base h
  rw [value_int] at h1
  have hp := base_pow_pos n
  have h2 : (BASE : ℤ) ^ n ≤ |v| := by
    rcases h1 with h1 | h1
    · simp only [show ((BASE : ℕ) : ℤ) = 128 from rfl] at *
      omega
    · have := abs_nonneg v
      omega
  rw [Int.abs_eq_natAbs] at h2
  exact_mod_cast h2

/-- A text of a number of many bytes is long: two thirds of what the table says. -/
lemma length_lower (hb : 2 ≤ b) (hb' : b ≤ 16) (h : 2 ≤ len |v|) :
    2 * sizfac.getD (b - 2) 0 * (len |v| - 2) < 3 * (text b v.natAbs).length := by
  obtain ⟨-, -, -, hpow⟩ := sizfac_spec hb hb'
  set f := sizfac.getD (b - 2) 0 with hf
  set T := (text b v.natAbs).length with hT
  have hT0 : T ≠ 0 := by
    rw [hT, text_length]
    omega
  have h1 : BASE ^ (len |v| - 2) ≤ v.natAbs := le_natAbs (by omega)
  have h2 : v.natAbs < b ^ T := (text_length_le hb hT0).mp le_rfl
  have h3 : BASE ^ (2 * f * (len |v| - 2)) < BASE ^ (3 * T) := by
    calc BASE ^ (2 * f * (len |v| - 2)) = (BASE ^ (len |v| - 2)) ^ (2 * f) := by
          rw [← pow_mul, Nat.mul_comm]
      _ < (b ^ T) ^ (2 * f) := Nat.pow_lt_pow_left (lt_of_le_of_lt h1 h2) (by
          have := (sizfac_spec hb hb').1
          omega)
      _ = (b ^ (2 * f)) ^ T := by rw [← pow_mul, ← pow_mul, Nat.mul_comm]
      _ ≤ (BASE ^ 3) ^ T := Nat.pow_le_pow_left hpow T
      _ = BASE ^ (3 * T) := by rw [← pow_mul]
  exact (Nat.pow_lt_pow_iff_right (by decide)).mp h3

/-- The text is as long as the table says. -/
lemma length_upper (hb : 2 ≤ b) (hb' : b ≤ 16) :
    (text b v.natAbs).length ≤ len |v| * sizfac.getD (b - 2) 0 ↔
      (b = 5 → v.natAbs < 125 ^ len |v|) := by
  obtain ⟨hf2, -, hpow, -⟩ := sizfac_spec hb hb'
  have hl := one_le_len |v|
  rw [text_length_le hb (Nat.mul_ne_zero (by omega) (by omega)), Nat.mul_comm, pow_mul]
  by_cases h5 : b = 5
  · rw [if_pos h5] at hpow
    rw [hpow]
    exact ⟨fun h _ => h, fun h => h h5⟩
  · rw [if_neg h5] at hpow
    refine ⟨fun _ h => absurd h h5, fun _ => ?_⟩
    exact lt_of_lt_of_le (natAbs_lt v) (Nat.pow_le_pow_left hpow _)

/-- **The size** is enough. A size from `2 ^ 16` on has lost so much that it is not. -/
lemma enough_iff (hb : 2 ≤ b) (hb' : b ≤ 16) :
    (text b v.natAbs).length + 1 + (if v < 0 then 1 else 0) ≤
      (1 + len |v| * sizfac.getD (b - 2) 0 + (if v < 0 then 1 else 0)) % 65536 ↔ Enough b v := by
  obtain ⟨-, hf, -, -⟩ := sizfac_spec hb hb'
  have hup := length_upper (v := v) hb hb'
  have hlow := length_lower (v := v) hb hb'
  unfold Enough
  rw [← hup]
  set f := sizfac.getD (b - 2) 0 with hfdef
  set T := (text b v.natAbs).length with hT
  have hneg : (if v < 0 then 1 else 0) ≤ 1 := by split_ifs <;> omega
  set e := (if v < 0 then 1 else 0) with he
  constructor
  · intro h
    by_cases hsmall : 1 + len |v| * f + e < 65536
    · rw [Nat.mod_eq_of_lt hsmall] at h
      exact ⟨hsmall, by omega⟩
    · -- the size has wrapped
      exfalso
      have h2 : 2 ≤ len |v| := by
        by_contra hc
        have : len |v| * f ≤ 1 * 7 := Nat.mul_le_mul (by omega) hf
        omega
      have h3 := hlow h2
      rw [show 2 * f * (len |v| - 2) = 2 * (len |v| * f) - 4 * f by
        rw [Nat.mul_sub, Nat.mul_comm (len |v|) f]
        ring_nf] at h3
      generalize len |v| * f = P at *
      omega
  · rintro ⟨h1, h2⟩
    rw [Nat.mod_eq_of_lt h1]
    omega

/-! ### The text of a mint -/

/-- The string of a number. -/
def string (b : ℕ) (v : ℤ) : List Char := (if v < 0 then ['-'] else []) ++ text b v.natAbs

lemma text_chars (hb : 2 ≤ b) (hb' : b ≤ 16) {ch : Char} (h : ch ∈ text b n) :
    okdigit ch = true ∧ isspace ch = false ∧ ch ≠ '-' ∧ ch ≠ Char.ofNat 0 := by
  obtain ⟨d, hd, rfl⟩ := List.mem_map.mp (List.mem_reverse.mp h)
  obtain ⟨h1, -, h2, h3, h4⟩ := dtc_spec d (digits_lt hb hb' d hd)
  exact ⟨h1, h2, h3, h4⟩

lemma string_nul (hb : 2 ≤ b) (hb' : b ≤ 16) :
    (string b v ++ [Char.ofNat 0]).takeWhile (· ≠ Char.ofNat 0) = string b v := by
  rw [List.takeWhile_append_of_pos]
  · simp
  · intro ch hch
    rw [decide_eq_true_eq]
    rcases List.mem_append.mp hch with h | h
    · split_ifs at h
      · rw [List.mem_singleton.mp h]
        decide
      · cases h
    · exact (text_chars hb hb' h).2.2.2

/-- **What `mtos` writes**, if there is room. -/
lemma mtos_eq {a : List ℕ} {fuel : ℕ} (ha : IsMint a) (hb : 2 ≤ b) (hb' : b ≤ 16)
    (hn : (value BASE a).natAbs < fuel) :
    mtos b fuel a = if Enough b (value BASE a) then some (string b (value BASE a)) else none := by
  have hv := ispos_iff ha.normal
  set v := value BASE a with hvdef
  have habs : (if ispos a then some a else neg a) = some (ofInt BASE |v|) := abs_mint ha
  have hfit : fits (len |v|) := by
    have h1 := len_abs_le v
    rw [len_value ha.normal] at h1
    exact fits_le h1 ha.short
  have hroom := enough_iff (v := v) hb hb'
  have hac : ((fun _ => ofInt BASE |v|) : Unit → List ℕ) () = ofInt BASE (v.natAbs : ℕ) := by
    rw [Int.natCast_natAbs]
  have hloop : ∀ p, mtosLoop b fuel (fun _ => ofInt BASE |v|) p =
      if (text b v.natAbs).length ≤ p.1 then
        some (p.1 - (text b v.natAbs).length, text b v.natAbs ++ p.2) else none :=
    mtosLoop_eq hb hb' hac (by rwa [Int.natCast_natAbs]) hn
  -- the size, with the sign counted once
  set room := (1 + len |v| * sizfac.getD (b - 2) 0 + (if v < 0 then 1 else 0)) % 65536 with hroomdef
  have hsize : size b (ofInt BASE |v|) (ispos a) = room := by
    rw [hroomdef]
    unfold size unsigned len
    by_cases hp : ispos a
    · rw [if_pos hp, if_neg (by have := hv.mp hp; omega)]
      rfl
    · rw [if_neg hp, if_pos (by have := mt hv.mpr hp; omega)]
      omega
  have hnul := string_nul (v := v) hb hb'
  unfold mtos
  rw [habs]
  dsimp only [Option.bind_eq_bind, Option.bind_some]
  rw [hsize, if_congr hroom.symm rfl rfl]
  generalize room = r at *
  unfold put
  by_cases h0 : r = 0
  · rw [if_pos h0, if_neg (by omega)]
    rfl
  rw [if_neg h0, Option.bind_some, hloop]
  dsimp only
  by_cases h1 : (text b v.natAbs).length ≤ r - 1
  swap
  · rw [if_neg h1, if_neg (by omega)]
    rfl
  rw [if_pos h1, Option.bind_some]
  unfold string at hnul ⊢
  by_cases hp : ispos a
  · have hneg : ¬v < 0 := by
      have := hv.mp hp
      omega
    simp only [if_neg hneg, List.nil_append] at hnul ⊢
    rw [if_pos hp, if_pos (by omega), Option.bind_some, hnul]
  · have hneg : v < 0 := by
      have := mt hv.mpr hp
      omega
    simp only [if_pos hneg] at hnul ⊢
    rw [if_neg hp]
    by_cases h2 : r - 1 - (text b v.natAbs).length = 0
    · rw [if_pos h2, if_neg (by omega)]
      rfl
    · rw [if_neg h2, if_pos (by omega), Option.bind_some, ← List.cons_append,
        ← List.singleton_append, hnul]

/-- **The mint comes back.** -/
lemma min_string (s : V → List ℕ) (x : V) {a : List ℕ} {rest : List Char} (ha : IsMint a)
    (hb : 2 ≤ b) (hb' : b ≤ 16) (hf : fits (len |value BASE a| + 1))
    (hrest : ∀ ch ∈ rest.head?, okdigit ch = false) :
    min b s x (string b (value BASE a) ++ rest) = some (Function.update s x a, rest) := by
  set v := value BASE a with hv
  obtain ⟨m, h1, h2⟩ := minLoop_reads (v.natAbs % b :: Nat.digits b (v.natAbs / b)).reverse
    (x := 0) (s := fun _ => [0]) rest hb hb'
    (fun d hd => digits_lt hb hb' d (List.mem_reverse.mp hd)) ofInt_zero.symm
    (by rwa [reads_text, Int.natCast_natAbs]) hrest
  rw [List.map_reverse] at h1
  change minLoop b (text b v.natAbs ++ rest) _ = _ at h1
  rw [reads_text, Int.natCast_natAbs] at h2
  -- the text starts with a digit
  obtain ⟨ch, t, ht⟩ : ∃ ch t, text b v.natAbs = ch :: t := by
    refine List.exists_cons_of_length_pos ?_
    rw [text_length]
    omega
  obtain ⟨-, hsp, hminus, -⟩ := text_chars (n := v.natAbs) hb hb' (ht ▸ List.mem_cons_self ..)
  have hdrop : (text b v.natAbs ++ rest).dropWhile isspace = text b v.natAbs ++ rest := by
    rw [ht, List.cons_append, List.dropWhile_cons_of_neg (by rw [hsp]; decide)]
  have hofint : ofInt BASE v = a := ha.normal.ofInt_value two_le_base
  unfold min string
  dsimp only [Option.bind_eq_bind]
  by_cases hneg : v < 0
  · have hd : (['-'] ++ text b v.natAbs ++ rest).dropWhile isspace =
        '-' :: (text b v.natAbs ++ rest) := rfl
    have hhead : ('-' :: (text b v.natAbs ++ rest)).head? = some '-' := rfl
    rw [if_pos hneg, hd, if_pos hhead, List.tail_cons, hdrop, h1, Option.bind_some, if_pos hhead,
      mneg_eq m .a .a (by rw [h2]; exact normal_int _), h2, value_int,
      if_pos (by rw [NegFits, if_pos (abs_nonneg v)]; exact hf), abs_of_neg hneg, neg_neg, hofint]
    rfl
  · have hhead : (text b v.natAbs ++ rest).head? ≠ some '-' := by
      rw [ht, List.cons_append, List.head?_cons]
      exact fun h => hminus (Option.some.inj h)
    rw [if_neg hneg, List.nil_append, hdrop, if_neg hhead, h1, Option.bind_some, if_neg hhead,
      Option.bind_some]
    dsimp only
    rw [h2, abs_of_nonneg (by omega), hofint]

/-- **Mints as text.** -/
theorem mtos_min_iff (s : V → List ℕ) (x : V) (obase fuel : ℕ) (a : List ℕ) (rest : List Char)
    (ha : IsMint a) (hb : 2 ≤ obase) (hb' : obase ≤ 16)
    (hrest : ∀ ch ∈ rest.head?, okdigit ch = false) (hn : (value BASE a).natAbs < fuel) :
    (∃ str, mtos obase fuel a = some str ∧
      min obase s x (str ++ rest) = some (Function.update s x a, rest)) ↔
    Enough obase (value BASE a) := by
  rw [mtos_eq ha hb hb' hn]
  by_cases h : Enough obase (value BASE a)
  · refine ⟨fun _ => h, fun _ => ⟨_, if_pos h, min_string s x ha hb hb' ?_ hrest⟩⟩
    have h1 := (sizfac_spec hb hb').1
    have h2 := Nat.mul_le_mul_left (len |value BASE a|) h1
    have h3 := h.1
    unfold fits
    omega
  · rw [if_neg h]
    exact ⟨fun ⟨_, h1, _⟩ => absurd h1 (by simp), fun h1 => absurd h1 h⟩

/-- `-255` in base 16, and what follows it. -/
theorem mtos_min_ff : ∃ str, mtos 16 256 [1, 126, 127] = some str ∧
    min 16 (fun _ : Unit => []) () (str ++ ['\n']) =
      some (Function.update (fun _ : Unit => []) () [1, 126, 127], ['\n']) :=
  (mtos_min_iff (fun _ : Unit => []) () 16 256 [1, 126, 127] ['\n'] ⟨by decide, by decide⟩
    (by decide) (by decide) (fun ch h => by cases h; rfl) (by decide +kernel)).mpr
    (by decide +kernel)

/-- **In base 5** the number `126` has four digits, and space for three. -/
theorem mtos_base_five :
    ¬∀ (a : List ℕ) (obase fuel : ℕ), IsMint a → 2 ≤ obase → obase ≤ 16 →
      (value BASE a).natAbs < fuel → ∃ str, mtos obase fuel a = some str ∧
        min obase (fun _ : Unit => []) () str = some (Function.update (fun _ => []) () a, []) := by
  intro h
  obtain ⟨str, h1, -⟩ := h [126] 5 127 ⟨by decide, by decide⟩ (by decide) (by decide) (by decide)
  rw [show mtos 5 127 [126] = none by decide +kernel] at h1
  exact absurd h1 (by simp)

end Coherent.Mint.Text
