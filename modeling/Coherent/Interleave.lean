import Mathlib.Data.Set.Function
import Mathlib.Data.Set.Finite.Basic
import Mathlib.Order.Interval.Finset.Nat
import Mathlib.Tactic
import Coherent.Super

/-!
The interleaving of `mkfs`: `bmap`, and the block allocator that goes by it.

`bmap` reduces the block number to sixteen bits before it looks for its place in the group of `n`
blocks, so that the groups are counted afresh from every multiple of 65536. The block numbers are
naturals without a bound; only what the code keeps in an `unsigned` is cut to sixteen bits.
-/

namespace Coherent.Interleave

open Coherent.Super

def MAXINTN : ℕ := 500

/-- What `bmap` reads of the super block. -/
structure Filsys where
  s_isize : ℕ
  s_fsize : ℕ
  s_m : ℕ
  s_n : ℕ
  isize_lt : s_isize < 65536

def unsigned (b : ℕ) : ℕ := b % 65536

namespace Filsys

variable (S : Filsys)

/-- The test of `bmap` in front of `efatal`. -/
def bad_interleave : Bool := S.s_n > MAXINTN || S.s_m > S.s_n || S.s_n % S.s_m != 0

def maptab (i : ℕ) : ℕ := i / (S.s_n / S.s_m) + i % (S.s_n / S.s_m) * S.s_m

-- `s_isize` is an `unsigned short`, so that this is computed in sixteen bits
def mapbot : ℕ := unsigned (unsigned (S.s_isize + S.s_n - 1) / S.s_n * S.s_n)

def maptop : ℕ := S.s_fsize / S.s_n * S.s_n

/-- The block that is numbered `b`. -/
def bmap (b : ℕ) : ℕ :=
  if S.mapbot ≤ b ∧ b < S.maptop then b - unsigned b % S.s_n + S.maptab (unsigned b % S.s_n) else b

/-- A factor that `bmap` accepts, and that it can compute with. -/
structure Accepted : Prop where
  m_pos : 0 < S.s_m
  n_pos : 0 < S.s_n
  good : S.bad_interleave = false

end Filsys

/-- The free list in core, with the block that is handed out next in front, and the seed. -/
structure Alloc where
  bseed : ℕ
  s_free : List ℕ
  deriving DecidableEq, Repr

variable (S : Filsys) (bads : List ℕ)

/-- `while (bad(S.s_free[0] = bmap(bseed))) ++bseed;`, for so many turns at most. -/
def seed : ℕ → ℕ → ℕ
  | 0, b => b
  | fuel + 1, b => if S.bmap b ∈ bads then seed fuel (b + 1) else b

/-- The bad blocks end, and behind the volume `bmap` changes nothing. -/
def bbegin : Alloc :=
  let b := seed S bads (S.s_fsize + bads.sum + 1) S.s_isize
  ⟨b, [S.bmap b]⟩

/-- The loop of `balloc` that fills the free list: the blocks it puts there, first one first, and
the seed behind it. The first argument is the room that is left. -/
def refill : ℕ → ℕ → ℕ → List ℕ × ℕ
  | 0, _, b => ([], b)
  | _, 0, b => ([], b + 1)
  | room + 1, fuel + 1, b =>
    if b + 1 < S.s_fsize then
      if S.bmap (b + 1) ∈ bads then refill (room + 1) fuel (b + 1)
      else
        let r := refill room fuel (b + 1)
        (S.bmap (b + 1) :: r.1, r.2)
    else ([], b + 1)

def balloc (s : Alloc) : ℕ × Alloc :=
  match s.s_free with
  | [] => (0, s)
  | [b] =>
    let r := refill S bads NICFREE (S.s_fsize - s.bseed) s.bseed
    (b, ⟨r.2, r.1⟩)
  | b :: free => (b, ⟨s.bseed, free⟩)

/-- What so many calls of `balloc` hand out, as long as there is a block. -/
def ballocs : ℕ → Alloc → List ℕ
  | 0, _ => []
  | k + 1, s => if s.s_free = [] then [] else (balloc S bads s).1 :: ballocs k (balloc S bads s).2

/-- What the code goes by in place of the group of `b`: the multiple of `s_n` below it, counted
from the multiple of 65536 below it. -/
def base (n b : ℕ) : ℕ := b - unsigned b % n

section Base

variable {n b c : ℕ}

lemma base_eq : base n b = 65536 * (b / 65536) + b % 65536 / n * n := by
  have h := Nat.div_add_mod' (b % 65536) n
  rw [base, unsigned]
  omega

lemma base_le : base n b ≤ b := Nat.sub_le _ _

lemma lt_base (hn : 0 < n) : b < base n b + n := by
  have := Nat.mod_lt (b % 65536) hn
  have := Nat.mod_le (b % 65536) n
  rw [base, unsigned]
  omega

/-- A block of the same group. -/
lemma base_congr (h1 : base n b ≤ c) (h2 : c < base n b + n)
    (h3 : c / 65536 = b / 65536) : base n c = base n b := by
  have hb := base_eq (n := n) (b := b)
  have hc : c % 65536 / n = b % 65536 / n := by
    refine Nat.div_eq_of_lt_le ?_ ?_
    · omega
    · rw [Nat.succ_mul]
      omega
  rw [base_eq, hc, h3, hb]

end Base

section Table

variable {S} (h : S.Accepted)

include h in
/-- The table goes through the group row by row, and puts it down column by column. -/
lemma Filsys.Accepted.rows : ∃ p, S.s_n / S.s_m = p ∧ 0 < p ∧ S.s_n = p * S.s_m := by
  have hg := h.good
  simp only [Filsys.bad_interleave, Bool.or_eq_false_iff, decide_eq_false_iff_not, not_lt,
    bne_eq_false_iff_eq] at hg
  have hd := Nat.dvd_of_mod_eq_zero hg.2
  exact ⟨_, rfl, Nat.div_pos hg.1.2 h.m_pos, (Nat.div_mul_cancel hd).symm⟩

include h in
lemma maptab_lt {i : ℕ} (hi : i < S.s_n) : S.maptab i < S.s_n := by
  obtain ⟨p, hp, hpos, hn⟩ := h.rows
  have hq : i / p < S.s_m := Nat.div_lt_of_lt_mul (by rw [← hn]; exact hi)
  have hr : i % p + 1 ≤ p := Nat.mod_lt i hpos
  have := Nat.mul_le_mul_right S.s_m hr
  rw [Nat.succ_mul] at this
  rw [Filsys.maptab, hp]
  omega

include h in
lemma maptab_inj {i j : ℕ} (hi : i < S.s_n) (hj : j < S.s_n) (he : S.maptab i = S.maptab j) :
    i = j := by
  obtain ⟨p, hp, hpos, hn⟩ := h.rows
  rw [Filsys.maptab, Filsys.maptab, hp] at he
  have hqi : i / p < S.s_m := Nat.div_lt_of_lt_mul (by rw [← hn]; exact hi)
  have hqj : j / p < S.s_m := Nat.div_lt_of_lt_mul (by rw [← hn]; exact hj)
  have hq : i / p = j / p := by
    have := congrArg (· % S.s_m) he
    simpa only [Nat.add_mul_mod_self_right, Nat.mod_eq_of_lt hqi, Nat.mod_eq_of_lt hqj] using this
  have hr : i % p = j % p := by
    have := congrArg (· / S.s_m) he
    simpa only [Nat.add_mul_div_right _ _ h.m_pos, Nat.div_eq_of_lt hqi, Nat.div_eq_of_lt hqj,
      zero_add] using this
  rw [← Nat.div_add_mod i p, hq, hr, Nat.div_add_mod]

end Table

section Cuts

variable {n lo hi b c : ℕ}

/-- Where the blocks of the group of `b` that lie in `[lo, hi)` begin. -/
def lower (n lo b : ℕ) : ℕ := max lo (base n b)

/-- Where they end: with the group, before a multiple of 65536, or at `hi`. -/
def upper (n hi b : ℕ) : ℕ := min hi (min (base n b + n) (65536 * (b / 65536 + 1)))

lemma lower_le (h : lo ≤ b) : lower n lo b ≤ b := max_le h base_le

lemma lt_upper (hn : 0 < n) (h : b < hi) : b < upper n hi b := by
  have := lt_base (b := b) hn
  simp only [upper, lt_min_iff]
  omega

/-- The blocks of a cut group are in one group, and in the interval. -/
lemma base_of_mem (h1 : lower n lo b ≤ c) (h2 : c < upper n hi b) :
    base n c = base n b ∧ lo ≤ c ∧ c < hi := by
  rw [lower, max_le_iff] at h1
  rw [upper, lt_min_iff, lt_min_iff] at h2
  have hk : 65536 * (b / 65536) ≤ base n b := by
    rw [base_eq]
    exact Nat.le_add_right _ _
  exact ⟨base_congr h1.2 h2.2.1 (by omega), h1.1, h2.1⟩

/-- Behind the end of a cut group another one begins. -/
lemma upper_le_base (hn : 0 < n) (h : upper n hi b ≤ c) (hc : c < hi) :
    upper n hi b ≤ base n c := by
  have hbc : b / 65536 ≤ c / 65536 := by
    have := base_le (n := n) (b := b)
    have hb : 65536 * (b / 65536) ≤ base n b := by
      rw [base_eq]
      exact Nat.le_add_right _ _
    have : 65536 * (b / 65536) ≤ upper n hi b ∨ hi = upper n hi b := by
      rw [upper]
      omega
    omega
  rcases Nat.lt_or_ge (b / 65536) (c / 65536) with hlt | hge
  · have hk : 65536 * (c / 65536) ≤ base n c := by
      rw [base_eq]
      exact Nat.le_add_right _ _
    have : upper n hi b ≤ 65536 * (b / 65536 + 1) := (min_le_right _ _).trans (min_le_right _ _)
    omega
  · have he : c / 65536 = b / 65536 := le_antisymm hge hbc
    have hcb : base n b + n ≤ c := by
      have : c < 65536 * (b / 65536 + 1) := by omega
      rw [upper] at h
      omega
    have hu : upper n hi b ≤ base n b + n := (min_le_right _ _).trans (min_le_left _ _)
    refine hu.trans ?_
    have hb := base_eq (n := n) (b := b)
    have hq : b % 65536 / n + 1 ≤ c % 65536 / n := (Nat.le_div_iff_mul_le hn).mpr (by
      rw [Nat.succ_mul]
      omega)
    have hm := Nat.mul_le_mul_right n hq
    rw [Nat.succ_mul] at hm
    rw [base_eq (b := c), he]
    omega

end Cuts

/-- A map of an interval onto itself that takes nothing from behind `c` to before `c` takes nothing
from before `c` to behind it. -/
lemma lt_of_bijOn {g : ℕ → ℕ} {lo hi c b : ℕ}
    (hg : Set.BijOn g (Set.Ico lo hi) (Set.Ico lo hi)) (hc : ∀ x, c ≤ x → x < hi → c ≤ g x)
    (h1 : lo ≤ b) (h2 : b < c) (h3 : c ≤ hi) : g b < c := by
  by_contra hcb
  have hlo : ∀ x ∈ Finset.Ico c hi, x ∈ Set.Ico lo hi := fun x hx => by
    rw [Finset.mem_Ico] at hx
    exact ⟨by omega, hx.2⟩
  have hmaps : Set.MapsTo g (Finset.Ico c hi) (Finset.Ico c hi) := fun x hx => by
    have := hg.mapsTo (hlo x hx)
    rw [Finset.coe_Ico] at hx ⊢
    exact ⟨hc x hx.1 hx.2, this.2⟩
  have hinj : Set.InjOn g (Finset.Ico c hi) := hg.injOn.mono hlo
  have hb : b ∈ Set.Ico lo hi := ⟨h1, by omega⟩
  obtain ⟨x, hx, he⟩ := Finset.surjOn_of_injOn_of_card_le g hmaps hinj le_rfl
    (show g b ∈ ((Finset.Ico c hi : Finset ℕ) : Set ℕ) by
      rw [Finset.coe_Ico]
      exact ⟨not_lt.mp hcb, (hg.mapsTo hb).2⟩)
  have := hg.injOn (hlo x hx) hb he
  rw [Finset.coe_Ico, Set.mem_Ico] at hx
  omega

/-- A map that leaves everything outside `A` alone is onto if it is on `A`. -/
lemma bijOn_of_patch {α : Type*} {f : α → α} {A B : Set α} (hAB : A ⊆ B)
    (hid : ∀ b ∈ B, b ∉ A → f b = b) : Set.BijOn f B B ↔ Set.BijOn f A A := by
  constructor
  · intro h
    have hA : Set.MapsTo f A A := by
      intro b hb
      by_contra hn
      have hfb := h.mapsTo (hAB hb)
      exact hn ((h.injOn hfb (hAB hb) (hid _ hfb hn)).symm ▸ hb)
    refine ⟨hA, h.injOn.mono hAB, fun a ha => ?_⟩
    obtain ⟨b, hb, rfl⟩ := h.surjOn (hAB ha)
    by_cases hbA : b ∈ A
    · exact ⟨b, hbA, rfl⟩
    · rw [hid b hb hbA] at ha
      exact absurd ha hbA
  · intro h
    refine ⟨fun b hb => ?_, fun b hb c hc he => ?_, fun a ha => ?_⟩
    · by_cases hbA : b ∈ A
      · exact hAB (h.mapsTo hbA)
      · rwa [hid b hb hbA]
    · by_cases hbA : b ∈ A <;> by_cases hcA : c ∈ A
      · exact h.injOn hbA hcA he
      · rw [hid c hc hcA] at he
        exact absurd (he ▸ h.mapsTo hbA) hcA
      · rw [hid b hb hbA] at he
        exact absurd (he ▸ h.mapsTo hcA) hbA
      · rwa [hid b hb hbA, hid c hc hcA] at he
    · by_cases haA : a ∈ A
      · obtain ⟨b, hb, rfl⟩ := h.surjOn haA
        exact ⟨b, hAB hb, rfl⟩
      · exact ⟨a, ha, hid a ha haA⟩

/-- `bmap` inside the range that it maps. -/
def Filsys.inner (b : ℕ) : ℕ := base S.s_n b + S.maptab (b - base S.s_n b)

/-- The first block of the volume that `bmap` may move. -/
def Filsys.first : ℕ := max S.mapbot S.s_isize

variable {S} {b : ℕ}

lemma bmap_eq_inner (h1 : S.mapbot ≤ b) (h2 : b < S.maptop) : S.bmap b = S.inner b := by
  have hb : unsigned b % S.s_n = b - base S.s_n b := by
    have := Nat.mod_le (b % 65536) S.s_n
    rw [base, unsigned]
    omega
  rw [Filsys.bmap, if_pos ⟨h1, h2⟩, Filsys.inner, hb, Nat.sub_sub_self base_le]

lemma maptop_le : S.maptop ≤ S.s_fsize := Nat.div_mul_le_self _ _

/-- `bmap` permutes the volume if it permutes what lies between `first` and `maptop`. -/
lemma bmap_bijOn_iff :
    Set.BijOn S.bmap (Set.Ico S.s_isize S.s_fsize) (Set.Ico S.s_isize S.s_fsize) ↔
      Set.BijOn S.inner (Set.Ico S.first S.maptop) (Set.Ico S.first S.maptop) := by
  have hsub : Set.Ico S.first S.maptop ⊆ Set.Ico S.s_isize S.s_fsize :=
    Set.Ico_subset_Ico (le_max_right _ _) maptop_le
  have hid : ∀ b ∈ Set.Ico S.s_isize S.s_fsize, b ∉ Set.Ico S.first S.maptop → S.bmap b = b := by
    intro b hb hn
    rw [Filsys.bmap, if_neg]
    rintro ⟨h1, h2⟩
    exact hn ⟨max_le h1 hb.1, h2⟩
  rw [bijOn_of_patch hsub hid]
  refine Set.EqOn.bijOn_iff fun b hb => bmap_eq_inner ?_ hb.2
  exact (le_max_left _ _).trans hb.1

lemma inner_inj (h : S.Accepted) {c : ℕ} (hb : base S.s_n b = base S.s_n c)
    (he : S.inner b = S.inner c) : b = c := by
  have hn := h.n_pos
  rw [Filsys.inner, Filsys.inner, hb, Nat.add_left_cancel_iff] at he
  have h1 := lt_base (b := b) hn
  have h2 := lt_base (b := c) hn
  have h3 := base_le (n := S.s_n) (b := b)
  have h4 := base_le (n := S.s_n) (b := c)
  have := maptab_inj h (by omega) (by omega) he
  omega

/-- **The groups**: between `lo` and `hi` the map is a permutation if and only if no block leaves
what is left of its group. -/
theorem inner_bijOn_iff (h : S.Accepted) {lo hi : ℕ} :
    Set.BijOn S.inner (Set.Ico lo hi) (Set.Ico lo hi) ↔
      ∀ b, lo ≤ b → b < hi → lower S.s_n lo b ≤ S.inner b ∧ S.inner b < upper S.s_n hi b := by
  have hn := h.n_pos
  have hbase : ∀ x, base S.s_n x ≤ S.inner x := fun x => Nat.le_add_right _ _
  constructor
  · intro hg b h1 h2
    refine ⟨max_le (hg.mapsTo ⟨h1, h2⟩).1 (hbase b), ?_⟩
    exact lt_of_bijOn hg (fun x hx hxh => (upper_le_base hn hx hxh).trans (hbase x)) h1
      (lt_upper hn h2) (min_le_left _ _)
  · intro hk
    have hmaps : Set.MapsTo S.inner (Finset.Ico lo hi) (Finset.Ico lo hi) := by
      intro b hb
      rw [Finset.coe_Ico] at hb ⊢
      obtain ⟨h1, h2⟩ := hk b hb.1 hb.2
      exact ⟨(le_max_left _ _).trans h1, h2.trans_le (min_le_left _ _)⟩
    have hinj : Set.InjOn S.inner (Finset.Ico lo hi) := by
      intro b hb c hc he
      rw [Finset.coe_Ico] at hb hc
      obtain ⟨hb1, hb2⟩ := hk b hb.1 hb.2
      obtain ⟨hc1, hc2⟩ := hk c hc.1 hc.2
      refine inner_inj h ?_ he
      rw [← (base_of_mem hb1 hb2).1, he, (base_of_mem hc1 hc2).1]
    have hsurj := Finset.surjOn_of_injOn_of_card_le S.inner hmaps hinj le_rfl
    rw [Finset.coe_Ico] at hmaps hinj hsurj
    exact ⟨hmaps, hinj, hsurj⟩

section Turned

variable {p m s e i : ℕ}

/-- The map that sends the rows of `p` to the columns of `m`. -/
def turned (p m i : ℕ) : ℕ := i / p + i % p * m

lemma turned_row {q r : ℕ} (hr : r < p) : turned p m (p * q + r) = q + r * m := by
  rw [turned, Nat.mul_add_div (by omega), Nat.div_eq_of_lt hr, Nat.mul_add_mod,
    Nat.mod_eq_of_lt hr, add_zero]

lemma turned_turned (hm : 0 < m) (hi : i < p * m) : turned m p (turned p m i) = i := by
  have hq : i / p < m := Nat.div_lt_of_lt_mul hi
  rw [turned, turned, Nat.add_mul_div_right _ _ hm, Nat.div_eq_of_lt hq, zero_add,
    Nat.add_mul_mod_self_right, Nat.mod_eq_of_lt hq, Nat.mul_comm, Nat.mod_add_div]

/-- The map takes the part `[s, e)` to itself. -/
def Kept (f : ℕ → ℕ) (s e : ℕ) : Prop := ∀ i, s ≤ i → i < e → s ≤ f i ∧ f i < e

lemma Kept.inverse (hk : Kept (turned p m) s e) (hm : 0 < m) (he : e ≤ p * m) :
    Kept (turned m p) s e := by
  intro j h1 h2
  have hmaps : Set.MapsTo (turned p m) (Finset.Ico s e) (Finset.Ico s e) := by
    intro i hi
    rw [Finset.coe_Ico] at hi ⊢
    exact hk i hi.1 hi.2
  have hinj : Set.InjOn (turned p m) (Finset.Ico s e) := by
    intro i hi k hk' hik
    rw [Finset.coe_Ico] at hi hk'
    rw [← turned_turned hm (hi.2.trans_le he), hik, turned_turned hm (hk'.2.trans_le he)]
  obtain ⟨i, hi, rfl⟩ := Finset.surjOn_of_injOn_of_card_le _ hmaps hinj le_rfl
    (show j ∈ ((Finset.Ico s e : Finset ℕ) : Set ℕ) by rw [Finset.coe_Ico]; exact ⟨h1, h2⟩)
  rw [Finset.coe_Ico] at hi
  rw [turned_turned hm (hi.2.trans_le he)]
  exact hi

/-- Two neighbours of one row come `m` apart. -/
lemma Kept.gap (hk : Kept (turned p m) s e) (hp : 2 ≤ p)
    (h : s + 3 ≤ e ∨ s + 2 ≤ e ∧ s % p + 1 < p) : s + m < e := by
  have hrow : ∃ q r, r + 1 < p ∧ s ≤ p * q + r ∧ p * q + r + 1 < e := by
    have hs := Nat.div_add_mod s p
    have hlt := Nat.mod_lt s (show 0 < p by omega)
    by_cases hr : s % p + 1 < p
    · exact ⟨s / p, s % p, hr, by omega, by omega⟩
    · refine ⟨s / p + 1, 0, by omega, ?_, ?_⟩ <;> rw [Nat.mul_succ] <;> omega
  obtain ⟨q, r, hr, h1, h2⟩ := hrow
  have ha := hk (p * q + r) h1 (by omega)
  have hb := hk (p * q + (r + 1)) (by omega) (by omega)
  rw [turned_row (by omega)] at ha hb
  rw [Nat.succ_mul] at hb
  omega

/-- A part with more than a row in it begins with the first or second block. -/
lemma Kept.start (hk : Kept (turned p m) s e) (hp : 2 ≤ p) (h : s + p ≤ e) : s ≤ 1 := by
  have h1 := Nat.div_add_mod (s + p - 1) p
  have h2 := Nat.mod_lt (s + p - 1) (show 0 < p by omega)
  have hq := (hk (p * ((s + p - 1) / p) + 0) (by omega) (by omega)).1
  rw [turned_row (by omega), Nat.zero_mul, Nat.add_zero] at hq
  by_contra hs
  have h3 := Nat.mul_le_mul_left p hq
  have h4 := Nat.mul_le_mul_right s hp
  have h5 := Nat.mul_le_mul_left p (show 2 ≤ s by omega)
  rcases Nat.lt_or_ge s p with hlt | hge
  · omega
  · omega

/-- It ends with the last block or the last but one. -/
lemma Kept.stop (hk : Kept (turned p m) s e) (hp : 2 ≤ p) (h : s + p < e) (he : e ≤ p * m) :
    p * m ≤ e + 1 := by
  have hd : ∃ d, p * m = e + d := ⟨p * m - e, by omega⟩
  obtain ⟨d, hd⟩ := hd
  have h1 := Nat.div_add_mod (d + p - 1) p
  have h2 := Nat.mod_lt (d + p - 1) (show 0 < p by omega)
  set q := (d + p - 1) / p with hq
  have hqm : q + 1 ≤ m := by
    by_contra hc
    have := Nat.mul_le_mul_left p (show m ≤ q by omega)
    omega
  obtain ⟨k, rfl⟩ : ∃ k, m = q + 1 + k := ⟨m - (q + 1), by omega⟩
  have hpm : p * (q + 1 + k) = p * q + p + p * k := by ring
  have hlast := (hk (p * k + (p - 1)) (by omega) (by omega)).2
  rw [turned_row (by omega), Nat.sub_one_mul] at hlast
  have hge : q + 1 + k ≤ p * (q + 1 + k) := Nat.le_mul_of_pos_left _ (by omega)
  have hdq : d ≤ q := by omega
  by_contra hc
  have h3 := Nat.mul_le_mul_left p hdq
  have h4 := Nat.mul_le_mul_right d hp
  have h5 := Nat.mul_le_mul_left p (show 2 ≤ d by omega)
  omega

end Turned

section Fitting

variable {S : Filsys} {b s e : ℕ}

/-- What may be left of a group: nothing, a block that stays where it is, or all the blocks but
the first one or the last one or both. -/
def Filsys.Fits (S : Filsys) (s e : ℕ) : Prop :=
  e ≤ s ∨ e = s + 1 ∧ s / (S.s_n / S.s_m) + s % (S.s_n / S.s_m) * S.s_m = s ∨
    s ≤ 1 ∧ S.s_n ≤ e + 1

instance : Decidable (S.Fits s e) := by
  unfold Filsys.Fits
  infer_instance

/-- The two ends of a group stay where they are. -/
lemma maptab_ends (h : S.Accepted) : S.maptab 0 = 0 ∧ S.maptab (S.s_n - 1) = S.s_n - 1 := by
  obtain ⟨p, hp, hpos, hn⟩ := h.rows
  obtain ⟨k, hk⟩ : ∃ k, S.s_m = k + 1 := ⟨S.s_m - 1, by have := h.m_pos; omega⟩
  have hlast : S.s_n - 1 = p * k + (p - 1) := by
    rw [hn, hk, Nat.mul_succ]
    omega
  have hT : ∀ i, S.maptab i = turned p S.s_m i := fun i => by rw [Filsys.maptab, hp, turned]
  constructor
  · rw [hT, turned, Nat.zero_div, Nat.zero_mod, Nat.zero_mul]
  · rw [hT, hlast, turned_row (by omega), hk, Nat.sub_one_mul, Nat.mul_succ]
    have : k + 1 ≤ p * k + p := by
      have := Nat.le_mul_of_pos_left k hpos
      omega
    omega

lemma fits_of_kept (h : S.Accepted) (hm1 : S.s_m ≠ 1) (hmn : S.s_m ≠ S.s_n)
    (hk : Kept S.maptab s e) (he : e ≤ S.s_n) : S.Fits s e := by
  obtain ⟨p, hp, hpos, hn⟩ := h.rows
  have hm := h.m_pos
  have hp2 : 2 ≤ p := by
    by_contra hc
    obtain rfl : p = 1 := by omega
    omega
  have hT : S.maptab = turned p S.s_m := funext fun i => by rw [Filsys.maptab, hp, turned]
  rw [hT] at hk
  rw [hn] at he
  rcases Nat.lt_or_ge e (s + 2) with hlt | hge
  · rcases Nat.lt_or_ge s e with hse | hes
    · obtain rfl : e = s + 1 := by omega
      have := hk s le_rfl (by omega)
      refine .inr (.inl ⟨rfl, ?_⟩)
      rw [hp]
      rw [turned] at this
      omega
    · exact .inl hes
  · refine .inr (.inr ?_)
    rw [hn]
    have hs := Nat.div_add_mod s p
    have hlt := Nat.mod_lt s hpos
    by_cases hr : e = s + 2 ∧ s % p + 1 = p
    · -- the last block of a row and the first of the next
      have h1 := (hk (p * (s / p + 1) + 0) (by rw [Nat.mul_succ]; omega)
        (by rw [Nat.mul_succ]; omega)).1
      rw [turned_row hpos, Nat.zero_mul, Nat.add_zero] at h1
      have h2 := Nat.mul_le_mul_right (s / p) hp2
      have hq : s / p = 0 := by omega
      have h3 := (hk (p * 0 + 1) (by omega) (by omega)).2
      rw [turned_row (by omega)] at h3
      have hs1 : s = 1 := by
        rw [hq] at hs
        omega
      obtain rfl : p = 2 := by omega
      omega
    · have hgap := hk.gap hp2 (by omega)
      have hm2 : 2 ≤ S.s_m := by omega
      have hgap' := (hk.inverse hm he).gap hm2 (.inl (by omega))
      exact ⟨hk.start hp2 (by omega), hk.stop hp2 hgap' he⟩

lemma kept_of_fits (h : S.Accepted) (hf : S.Fits s e) (he : e ≤ S.s_n) : Kept S.maptab s e := by
  intro i h1 h2
  have hi : i < S.s_n := by omega
  have hlt := maptab_lt h hi
  obtain ⟨hz, hl⟩ := maptab_ends h
  rcases hf with hf | ⟨rfl, hf⟩ | ⟨hs, hn⟩
  · omega
  · obtain rfl : i = s := by omega
    rw [← Filsys.maptab] at hf
    omega
  · constructor
    · by_contra hc
      have := maptab_inj h hi (show 0 < S.s_n by omega) (by omega)
      omega
    · by_contra hc
      have := maptab_inj h hi (show S.s_n - 1 < S.s_n by omega) (by omega)
      omega

end Fitting

section Groups

variable {S : Filsys} {b c : ℕ}

/-- The block `b` is in a group of which the right part is there. -/
def Filsys.Whole (S : Filsys) (b : ℕ) : Prop :=
  S.first ≤ b → b < S.maptop → S.Fits (lower S.s_n S.first b - base S.s_n b)
    (upper S.s_n S.maptop b - base S.s_n b)

instance : Decidable (S.Whole b) := by
  unfold Filsys.Whole
  infer_instance

/-- The condition: the rows or the columns are single blocks, or the group of the first block, that
of the last one, and the ones before the first two multiples of 65536 are whole. -/
def Filsys.Even (S : Filsys) : Prop :=
  S.s_m = 1 ∨ S.s_m = S.s_n ∨
    S.Whole S.first ∧ S.Whole 65535 ∧ S.Whole 131071 ∧ S.Whole (S.maptop - 1)

instance : Decidable S.Even := by
  unfold Filsys.Even
  infer_instance

lemma Filsys.Whole.congr (hw : S.Whole b) (hb : base S.s_n c = base S.s_n b)
    (hq : c / 65536 = b / 65536) (h1 : S.first ≤ b) (h2 : b < S.maptop) : S.Whole c := by
  intro _ _
  have := hw h1 h2
  rwa [lower, upper, hb, hq]

lemma first_lt : S.first < 65536 := max_lt (Nat.mod_lt _ (by decide)) S.isize_lt

/-- The groups that the condition looks at are as good as all. -/
lemma whole_of_four (hn : 0 < S.s_n) (h1 : S.Whole S.first) (h2 : S.Whole 65535)
    (h3 : S.Whole 131071) (h4 : S.Whole (S.maptop - 1)) (b : ℕ) : S.Whole b := by
  intro hb1 hb2
  have hlt := first_lt (S := S)
  have hle := base_le (n := S.s_n) (b := b)
  have hnb := lt_base (b := b) hn
  have hq : 65536 * (b / 65536) ≤ base S.s_n b := by
    rw [base_eq]
    exact Nat.le_add_right _ _
  rcases Nat.lt_or_ge (base S.s_n b) S.first with hb | hb
  · -- the first group
    have hk : S.first / 65536 = b / 65536 := by omega
    have hbase := base_congr (n := S.s_n) (b := b) (c := S.first) hb.le (by omega) hk
    exact h1.congr hbase.symm hk.symm le_rfl (by omega) hb1 hb2
  have hlow : lower S.s_n S.first b = base S.s_n b := max_eq_right hb
  by_cases hend : base S.s_n b + S.s_n ≤ S.maptop ∧ base S.s_n b + S.s_n ≤ 65536 * (b / 65536 + 1)
  · -- nothing is cut off
    rw [hlow, upper, min_eq_left hend.2, min_eq_right hend.1]
    exact .inr (.inr ⟨by omega, by omega⟩)
  rcases Nat.lt_or_ge S.maptop (65536 * (b / 65536 + 1)) with htop | htop
  · -- the last group
    have hk : (S.maptop - 1) / 65536 = b / 65536 := by omega
    have hbase := base_congr (n := S.s_n) (b := b) (c := S.maptop - 1) (by omega) (by omega) hk
    exact h4.congr hbase.symm hk.symm (by omega) (by omega) hb1 hb2
  rcases Nat.eq_zero_or_pos (b / 65536) with hk | hk
  · have hbase := base_congr (n := S.s_n) (b := b) (c := 65535) (by omega) (by omega) (by omega)
    exact h2.congr hbase.symm (by omega) (by omega) (by omega) hb1 hb2
  · -- in front of every later multiple of 65536 the cut is the same
    have hw := h3 (by omega) (by omega)
    have hr : 65535 / S.s_n = b % 65536 / S.s_n := by
      refine le_antisymm ?_ (Nat.div_le_div_right (by omega))
      rw [← Nat.lt_succ_iff, Nat.div_lt_iff_lt_mul hn, Nat.succ_mul]
      have := base_eq (n := S.s_n) (b := b)
      omega
    have hb3 : base S.s_n 131071 = 65536 + b % 65536 / S.s_n * S.s_n := by
      rw [base_eq, ← hr]
    have hbb := base_eq (n := S.s_n) (b := b)
    rw [lower, upper] at hw
    rw [hlow, upper]
    convert hw using 1 <;> omega

end Groups

section Bijection

variable {S : Filsys} {b : ℕ}

/-- No block leaves its part of a group if and only if the table keeps those parts. -/
lemma kept_iff (h : S.Accepted) :
    (∀ b, S.first ≤ b → b < S.maptop →
      lower S.s_n S.first b ≤ S.inner b ∧ S.inner b < upper S.s_n S.maptop b) ↔
    ∀ b, S.first ≤ b → b < S.maptop → Kept S.maptab (lower S.s_n S.first b - base S.s_n b)
      (upper S.s_n S.maptop b - base S.s_n b) := by
  have hn := h.n_pos
  constructor
  · intro hin b h1 h2 i hi1 hi2
    have hlow : base S.s_n b ≤ lower S.s_n S.first b := le_max_right _ _
    have hc1 : lower S.s_n S.first b ≤ base S.s_n b + i := by omega
    have hc2 : base S.s_n b + i < upper S.s_n S.maptop b := by omega
    obtain ⟨hc, hc1, hc2⟩ := base_of_mem hc1 hc2
    have hk : (base S.s_n b + i) / 65536 = b / 65536 := by
      have hq : 65536 * (b / 65536) ≤ base S.s_n b := by
        rw [base_eq]
        exact Nat.le_add_right _ _
      have : upper S.s_n S.maptop b ≤ 65536 * (b / 65536 + 1) :=
        (min_le_right _ _).trans (min_le_right _ _)
      omega
    have := hin _ hc1 hc2
    rw [lower, upper, Filsys.inner, hc, hk, ← lower, ← upper, Nat.add_sub_cancel_left] at this
    omega
  · intro hk b h1 h2
    have hlow : base S.s_n b ≤ lower S.s_n S.first b := le_max_right _ _
    have := hk b h1 h2 (b - base S.s_n b) (Nat.sub_le_sub_right (lower_le h1) _)
      (by have := lt_upper (n := S.s_n) hn h2; have := base_le (n := S.s_n) (b := b); omega)
    rw [Filsys.inner]
    omega

lemma upper_sub_le : upper S.s_n S.maptop b - base S.s_n b ≤ S.s_n := by
  have : upper S.s_n S.maptop b ≤ base S.s_n b + S.s_n :=
    (min_le_right _ _).trans (min_le_left _ _)
  omega

/-- A table of one row or of one column moves nothing. -/
lemma maptab_flat (h : S.Accepted) (hm : S.s_m = 1 ∨ S.s_m = S.s_n) {i : ℕ} (hi : i < S.s_n) :
    S.maptab i = i := by
  obtain ⟨p, hp, hpos, hn⟩ := h.rows
  rw [Filsys.maptab, hp]
  rcases hm with hm | hm
  · rw [hm, mul_one] at hn
    rw [hm, Nat.div_eq_of_lt (by omega), Nat.mod_eq_of_lt (by omega)]
    omega
  · have : p = 1 := by
      rw [hm] at hn
      exact Nat.eq_of_mul_eq_mul_right h.n_pos (by rw [one_mul]; exact hn.symm)
    rw [this, Nat.div_one, Nat.mod_one]
    omega

/-- **`bmap`** permutes the blocks of the volume if and only if the groups at the cuts are whole. -/
theorem bmap_bijOn_iff_even (h : S.Accepted) :
    Set.BijOn S.bmap (Set.Ico S.s_isize S.s_fsize) (Set.Ico S.s_isize S.s_fsize) ↔ S.Even := by
  have hn := h.n_pos
  rw [bmap_bijOn_iff, inner_bijOn_iff h, kept_iff h]
  by_cases hm : S.s_m = 1 ∨ S.s_m = S.s_n
  · refine iff_of_true (fun b _ _ i h1 h2 => ?_) (by rw [Filsys.Even]; tauto)
    rw [maptab_flat h hm (h2.trans_le upper_sub_le)]
    exact ⟨h1, h2⟩
  · push Not at hm
    rw [Filsys.Even]
    simp only [hm.1, hm.2, false_or]
    constructor
    · intro hk
      have hall : ∀ b, S.Whole b := fun b h1 h2 =>
        fits_of_kept h hm.1 hm.2 (hk b h1 h2) upper_sub_le
      exact ⟨hall _, hall _, hall _, hall _⟩
    · rintro ⟨h1, h2, h3, h4⟩ b hb1 hb2
      exact kept_of_fits h (whole_of_four hn h1 h2 h3 h4 b hb1 hb2) upper_sub_le

end Bijection

section Allocator

variable {S : Filsys} {bads : List ℕ} {b : ℕ}

/-- The good blocks from the seed on, in the order in which they are found. -/
def good (S : Filsys) (bads : List ℕ) (b : ℕ) : List ℕ :=
  ((List.range' b (S.s_fsize - b)).map S.bmap).filter (· ∉ bads)

lemma good_nil (h : S.s_fsize ≤ b) : good S bads b = [] := by
  rw [good, Nat.sub_eq_zero_of_le h]
  rfl

lemma good_step (h : b < S.s_fsize) : good S bads b =
    if S.bmap b ∈ bads then good S bads (b + 1) else S.bmap b :: good S bads (b + 1) := by
  obtain ⟨k, hk⟩ : ∃ k, S.s_fsize - b = k + 1 := ⟨S.s_fsize - b - 1, by omega⟩
  rw [good, good, hk, List.range'_succ, List.map_cons, List.filter_cons,
    show S.s_fsize - (b + 1) = k by omega]
  by_cases hb : S.bmap b ∈ bads <;> simp [hb]

/-- The blocks that are still to be handed out. -/
def Alloc.rest (S : Filsys) (bads : List ℕ) (s : Alloc) : List ℕ :=
  s.s_free ++ good S bads (s.bseed + 1)

lemma refill_spec (room fuel b : ℕ) (hf : fuel = S.s_fsize - b) :
    (refill S bads room fuel b).1 ++ good S bads ((refill S bads room fuel b).2 + 1) =
        good S bads (b + 1) ∧
      (0 < room → (refill S bads room fuel b).1 = [] → good S bads (b + 1) = []) := by
  induction room, fuel, b using refill.induct S bads with
  | case1 => simp [refill]
  | case2 room b hr =>
    obtain ⟨k, rfl⟩ := Nat.exists_eq_succ_of_ne_zero hr
    rw [refill.eq_def]
    have h1 : good S bads (b + 1) = [] := good_nil (by omega)
    have h2 : good S bads (b + 1 + 1) = [] := good_nil (by omega)
    simp only [List.nil_append, h1, h2, implies_true, and_self]
  | case3 room fuel b hlt hbad ih =>
    rw [refill, if_pos hlt, if_pos hbad, good_step hlt, if_pos hbad]
    exact ih (by omega)
  | case4 room fuel b hlt hbad ih =>
    rw [refill, if_pos hlt, if_neg hbad, good_step hlt, if_neg hbad]
    exact ⟨by rw [List.cons_append, (ih (by omega)).1], fun _ h => absurd h (List.cons_ne_nil _ _)⟩
  | case5 room fuel b hlt =>
    rw [refill, if_neg hlt]
    have h1 : good S bads (b + 1) = [] := good_nil (by omega)
    have h2 : good S bads (b + 1 + 1) = [] := good_nil (by omega)
    simp only [List.nil_append, h1, h2, implies_true, and_self]

/-- Between calls, the list is empty only when nothing is left. -/
def Alloc.Full (S : Filsys) (bads : List ℕ) (s : Alloc) : Prop :=
  s.s_free = [] → s.rest S bads = []

lemma balloc_spec {s : Alloc} (h : s.s_free ≠ []) :
    s.rest S bads = (balloc S bads s).1 :: (balloc S bads s).2.rest S bads ∧
      (balloc S bads s).2.Full S bads := by
  obtain ⟨bseed, _ | ⟨b, _ | ⟨c, free⟩⟩⟩ := s
  · exact absurd rfl h
  · have hr : (refill S bads NICFREE (S.s_fsize - bseed) bseed).1 ++ _ = _ ∧ _ :=
      refill_spec NICFREE (S.s_fsize - bseed) bseed rfl
    obtain ⟨h1, h2⟩ := hr
    refine ⟨?_, fun hf => ?_⟩
    · simp only [Alloc.rest, balloc, List.cons_append, List.nil_append, h1]
    · simp only [Alloc.rest, balloc] at hf ⊢
      rw [h1, h2 (by decide) hf]
  · exact ⟨rfl, fun hf => absurd hf (List.cons_ne_nil _ _)⟩

/-- So many calls hand out so many of the blocks that are left. -/
lemma ballocs_eq (k : ℕ) {s : Alloc} (h : s.Full S bads) :
    ballocs S bads k s = (s.rest S bads).take k := by
  induction k generalizing s with
  | zero => rfl
  | succ k ih =>
    rw [ballocs]
    by_cases hf : s.s_free = []
    · rw [if_pos hf, h hf]
      rfl
    · obtain ⟨h1, h2⟩ : s.rest S bads = _ ∧ _ := balloc_spec hf
      rw [if_neg hf, h1, List.take_succ_cons, ih h2]

/-- The seed is where the first good block is found. -/
lemma seed_spec (fuel : ℕ) (hf : S.s_fsize ≤ b + fuel) (hg : good S bads b ≠ []) :
    good S bads b = S.bmap (seed S bads fuel b) :: good S bads (seed S bads fuel b + 1) := by
  induction fuel generalizing b with
  | zero => exact absurd (good_nil (by omega)) hg
  | succ fuel ih =>
    have hlt : b < S.s_fsize := by
      by_contra hc
      exact hg (good_nil (by omega))
    rw [seed]
    rw [good_step hlt] at hg ⊢
    by_cases hb : S.bmap b ∈ bads
    · rw [if_pos hb] at hg ⊢
      rw [if_pos hb]
      exact ih (by omega) hg
    · rw [if_neg hb, if_neg hb]

/-- **The allocator** hands out the good blocks in the order of `bmap`. -/
theorem ballocs_bbegin (k : ℕ) (hg : good S bads S.s_isize ≠ []) :
    ballocs S bads k (bbegin S bads) = (good S bads S.s_isize).take k := by
  have hfuel : S.s_fsize ≤
      S.s_isize + (S.s_fsize + bads.sum + 1) := by omega
  rw [ballocs_eq k fun h => absurd h (List.cons_ne_nil _ _), Alloc.rest, bbegin,
    seed_spec _ hfuel hg]
  rfl

end Allocator

/-- What is promised of the interleaving: `bmap` permutes the blocks behind the i-list, and the
calls of `balloc` hand out every good one of them once. -/
structure Filsys.Interleaves (S : Filsys) (bads : List ℕ) : Prop where
  permutes : Set.BijOn S.bmap (Set.Ico S.s_isize S.s_fsize) (Set.Ico S.s_isize S.s_fsize)
  once : ∀ b, S.s_isize ≤ b → b < S.s_fsize → b ∉ bads → ∀ k, S.s_fsize - S.s_isize ≤ k →
    (ballocs S bads k (bbegin S bads)).count b = 1

/-- **The interleave map**: it is a permutation, and every good block is handed out once, if and
only if the groups that the end of the i-list, the multiples of 65536 and the end of the volume cut
are whole. -/
theorem interleaves_iff (S : Filsys) (bads : List ℕ) (hm : 0 < S.s_m) (hn : 0 < S.s_n)
    (hg : S.bad_interleave = false) : S.Interleaves bads ↔ S.Even := by
  have h : S.Accepted := ⟨hm, hn, hg⟩
  rw [← bmap_bijOn_iff_even h]
  refine ⟨fun hI => hI.permutes, fun hB => ⟨hB, fun b h1 h2 hb k hk => ?_⟩⟩
  obtain ⟨x, hx, rfl⟩ := hB.surjOn ⟨h1, h2⟩
  have hmem : ∀ y, y ∈ List.range' S.s_isize (S.s_fsize - S.s_isize) ↔
      y ∈ Set.Ico S.s_isize S.s_fsize := fun y => by
    rw [List.mem_range'_1, Set.mem_Ico]
    have := hx.1.trans_lt hx.2
    omega
  have hin : S.bmap x ∈ good S bads S.s_isize :=
    List.mem_filter.mpr ⟨List.mem_map.mpr ⟨x, (hmem x).mpr hx, rfl⟩, by simpa using hb⟩
  have hlen : (good S bads S.s_isize).length ≤ k := by
    refine (List.length_filter_le _ _).trans ?_
    rw [List.length_map, List.length_range']
    exact hk
  rw [ballocs_bbegin k (List.ne_nil_of_mem hin), List.take_of_length_le hlen]
  refine List.count_eq_one_of_mem ?_ hin
  refine List.Nodup.filter _ ((List.nodup_map_iff_inj_on (List.nodup_range' ..)).mpr ?_)
  intro y hy z hz he
  exact hB.injOn ((hmem y).mp hy) ((hmem z).mp hz) he

/-- A volume of 81920 blocks in groups of eight, of which every second follows the other. -/
def eighths : Filsys := ⟨130, 81920, 2, 8, by decide⟩

theorem interleaves_eighths : eighths.Interleaves [200, 300] :=
  (interleaves_iff eighths [200, 300] (by decide) (by decide) (by decide)).mpr (by decide +kernel)

/-- The same volume in groups of twelve: the first of them that a multiple of 65536 cuts takes
block 65534 to 65538, and block 65544 comes there too. -/
def twelfths : Filsys := ⟨130, 81920, 3, 12, by decide⟩

theorem interleaves_twelfths : twelfths.bad_interleave = false ∧
    twelfths.bmap 65534 = twelfths.bmap 65544 ∧ ¬ twelfths.Interleaves [] := by
  have he : twelfths.bmap 65534 = twelfths.bmap 65544 := by decide +kernel
  refine ⟨by decide, he, fun h => ?_⟩
  exact absurd (h.permutes.injOn (by decide) (by decide) he) (by decide)

end Coherent.Interleave
