import Mathlib.Tactic
import Coherent.Qsort

/-!
`shellsort` of `libc`, and what it and `qsort` do on every array.

`qexch` takes the size of an element as a `char`, and `shellsort` takes the number of elements
as an `int`: of an element of 256 bytes or more only a part is exchanged, and of 32768 elements
or more none.
-/

namespace Coherent.Sorting

variable {w : ℕ} (compar : (Fin w → UInt8) → (Fin w → UInt8) → ℤ)

/-- Exchange two elements, with their size in a `char`. -/
def qexch (m : Mem) (p1 p2 n : ℕ) : Mem := qexchange (n % 256) m p1 p2

/-- The innermost loop, from `j` downwards. -/
def sink (gap : ℕ) : ℕ → St → ℕ → Option St
  | 0, _, _ => none
  | fuel + 1, s, j =>
    let s1 := ask s (j * w) ((j + gap) * w)
    if comp compar s (j * w) ((j + gap) * w) ≤ 0 then some s1
    else
      let s2 := { s1 with mem := qexch s1.mem (j * w) ((j + gap) * w) w }
      -- `j -= gap` makes `j` negative
      if j < gap then some s2 else sink gap fuel s2 (j - gap)

/-- The loop over `i`, from `i` on for `count` turns. -/
def pass (gap fuel : ℕ) (s : St) (i count : ℕ) : Option St :=
  (List.range' i count).foldlM (fun s i => sink compar gap fuel s (i - gap)) s

/-- The loop over the gaps. -/
def passes (n : ℕ) : ℕ → St → ℕ → Option St
  | 0, _, _ => none
  | fuel + 1, s, gap =>
    if gap = 0 then some s
    else (pass compar gap fuel s gap (n - gap)).bind fun s => passes n fuel s (gap / 2)

/-- `shellsort`, whose number of elements is an `int`. -/
def shellsort (fuel : ℕ) (s : St) (n : ℕ) : Option St :=
  passes compar n fuel s ((Int.bmod n 65536).tdiv 2).toNat

variable {compar} {s : St} {gap n i j f hi count m : ℕ}

lemma qexch_eq (hw : w < 256) (m : Mem) (p q : ℕ) : qexch m p q w = qexchange w m p q := by
  rw [qexch, Nat.mod_eq_of_lt hw]

/-! ### Insertion -/

/-- The first elements up to `m` are in order but for the one at `j`, which may belong further
down. -/
def Sinking {E : Type*} (c : E → E → ℤ) (j m : ℕ) (a : ℕ → E) : Prop :=
  ∀ i k, i < k → k ≤ m → k ≠ j → c (a i) (a k) ≤ 0

section
variable {E : Type*} {c : E → E → ℤ} {a : ℕ → E}

/-- An element that is not below the one before it is in its place. -/
lemma Sinking.stop (h : Sinking c (j + 1) m a) (hc : IsOrder c) (hle : c (a j) (a (j + 1)) ≤ 0) :
    InOrder c 0 (m + 1) a := by
  intro i k _ hik hk
  by_cases hkj : k = j + 1
  · rw [hkj]
    rcases Nat.eq_or_lt_of_le (show i ≤ j by omega) with rfl | hij
    · exact hle
    · exact hc.trans _ _ _ (h i j hij (by omega) (by omega)) hle
  · exact h i k hik (by omega) hkj

lemma Sinking.step (h : Sinking c (j + 1) m a) (hj : j + 1 ≤ m) (hlt : c (a (j + 1)) (a j) ≤ 0) :
    Sinking c j m (a ∘ Equiv.swap j (j + 1)) := by
  have helse : ∀ i, i ≠ j → i ≠ j + 1 → (a ∘ Equiv.swap j (j + 1)) i = a i := by
    intro i h1 h2
    rw [Function.comp_apply, Equiv.swap_apply_of_ne_of_ne h1 h2]
  have hatj : (a ∘ Equiv.swap j (j + 1)) j = a (j + 1) := by
    rw [Function.comp_apply, Equiv.swap_apply_left]
  have hats : (a ∘ Equiv.swap j (j + 1)) (j + 1) = a j := by
    rw [Function.comp_apply, Equiv.swap_apply_right]
  intro i k hik hkm hkj
  by_cases hks : k = j + 1
  · rw [hks, hats]
    by_cases hij : i = j
    · rw [hij, hatj]
      exact hlt
    · rw [helse i hij (by omega)]
      exact h i j (by omega) (by omega) (by omega)
  · rw [helse k hkj hks]
    by_cases hij : i = j
    · rw [hij, hatj]
      exact h (j + 1) k (by omega) hkm hks
    · by_cases his : i = j + 1
      · rw [his, hats]
        exact h j k (by omega) hkm hks
      · rw [helse i hij his]
        exact h i k hik hkm hks

/-- An element at the front is in its place. -/
lemma Sinking.front (h : Sinking c 0 m a) : InOrder c 0 (m + 1) a :=
  fun i k _ hik hk => h i k hik (by omega) (by omega)

end

/-! ### The loops -/

lemma sink_spec (hc : IsOrder compar) (hw : w < 256) (hgap : 0 < gap) (hj : j + gap < hi)
    (hf : j < f) :
    ∃ s', sink compar gap f s j = some s' ∧
      Rearranged 0 hi (item w s.mem) (item w s'.mem) ∧ (Good w hi s' ↔ Good w hi s) ∧
      (gap = 1 → ∀ m, j + 1 ≤ m → Sinking compar (j + 1) m (item w s.mem) →
        InOrder compar 0 (m + 1) (item w s'.mem)) := by
  induction f generalizing s j with
  | zero => omega
  | succ f ih =>
    have hgood : Good w hi (ask s (j * w) ((j + gap) * w)) ↔ Good w hi s :=
      good_ask_item (by omega) hj
    rw [sink]
    dsimp only
    rw [comp_item]
    by_cases hle : compar (item w s.mem j) (item w s.mem (j + gap)) ≤ 0
    · rw [if_pos hle]
      refine ⟨_, rfl, Rearranged.refl _ _ _, hgood, ?_⟩
      rintro rfl m hm hs
      exact hs.stop hc hle
    · rw [if_neg hle]
      set s2 : St := { ask s (j * w) ((j + gap) * w) with
        mem := qexch (ask s (j * w) ((j + gap) * w)).mem (j * w) ((j + gap) * w) w } with hs2
      have hmem2 : item w s2.mem = item w s.mem ∘ Equiv.swap j (j + gap) := by
        rw [hs2]
        dsimp only
        rw [qexch_eq hw]
        exact item_qexchange j (j + gap)
      have hgood2 : Good w hi s2 ↔ Good w hi s := hgood
      have hre : Rearranged 0 hi (item w s.mem) (item w s2.mem) := by
        rw [hmem2]
        exact rearranged_swap _ (by omega) (by omega)
      have hlt : compar (item w s.mem (j + gap)) (item w s.mem j) ≤ 0 :=
        hc.flip.mp (not_le.mp hle).le
      by_cases hjg : j < gap
      · rw [if_pos hjg]
        refine ⟨s2, rfl, hre, hgood2, ?_⟩
        rintro rfl m hm hs
        obtain rfl : j = 0 := by omega
        rw [hmem2]
        exact (hs.step hm hlt).front
      · rw [if_neg hjg]
        obtain ⟨s', h1, h2, h3, h4⟩ := ih (s := s2) (j := j - gap) (by omega) (by omega)
        refine ⟨s', h1, hre.trans h2, h3.trans hgood2, ?_⟩
        rintro rfl m hm hs
        refine h4 rfl m (by omega) ?_
        rw [hmem2, Nat.sub_add_cancel (by omega)]
        exact hs.step hm hlt

lemma pass_spec (hc : IsOrder compar) (hw : w < 256) (hgap : 0 < gap) (hi1 : gap ≤ i)
    (hcount : i + count ≤ hi) (hf : hi ≤ f) :
    ∃ s', pass compar gap f s i count = some s' ∧
      Rearranged 0 hi (item w s.mem) (item w s'.mem) ∧ (Good w hi s' ↔ Good w hi s) ∧
      (gap = 1 → InOrder compar 0 i (item w s.mem) →
        InOrder compar 0 (i + count) (item w s'.mem)) := by
  induction count generalizing s i with
  | zero => exact ⟨s, rfl, Rearranged.refl _ _ _, Iff.rfl, fun _ h => h⟩
  | succ count ih =>
    obtain ⟨s1, h1, hre1, hgood1, hord1⟩ :=
      sink_spec (s := s) (j := i - gap) (f := f) hc hw hgap (show i - gap + gap < hi by omega)
        (by omega)
    obtain ⟨s2, h2, hre2, hgood2, hord2⟩ :=
      ih (s := s1) (i := i + 1) (by omega) (by omega)
    refine ⟨s2, ?_, hre1.trans hre2, hgood2.trans hgood1, ?_⟩
    · rw [pass, List.range'_succ, List.foldlM_cons, h1]
      exact h2
    · rintro rfl hord
      rw [show i + (count + 1) = i + 1 + count by omega]
      refine hord2 rfl (hord1 rfl i (by omega) fun k l hkl hli hne => ?_)
      exact hord k l (by omega) hkl (by omega)

lemma passes_spec (hc : IsOrder compar) (hw : w < 256) (hgap : gap < n ∨ gap = 0)
    (hf : n + gap + 1 ≤ f) :
    ∃ s', passes compar n f s gap = some s' ∧
      Rearranged 0 n (item w s.mem) (item w s'.mem) ∧ (Good w n s' ↔ Good w n s) ∧
      (0 < gap → InOrder compar 0 n (item w s'.mem)) := by
  induction f generalizing s gap with
  | zero => omega
  | succ f ih =>
    rw [passes]
    by_cases h0 : gap = 0
    · rw [if_pos h0]
      exact ⟨s, rfl, Rearranged.refl _ _ _, Iff.rfl, fun h => absurd h (by omega)⟩
    · rw [if_neg h0]
      obtain ⟨s1, h1, hre1, hgood1, hord1⟩ :=
        pass_spec (s := s) (f := f) hc hw (show 0 < gap by omega) le_rfl
          (show gap + (n - gap) ≤ n by omega) (by omega)
      obtain ⟨s2, h2, hre2, hgood2, hord2⟩ :=
        ih (s := s1) (show gap / 2 < n ∨ gap / 2 = 0 by omega) (by omega)
      refine ⟨s2, ?_, hre1.trans hre2, hgood2.trans hgood1, fun _ => ?_⟩
      · rw [h1, Option.bind_some, h2]
      · by_cases hgap1 : gap = 1
        · -- the last pass is a plain insertion sort, and the loop ends after it
          subst hgap1
          obtain rfl : s1 = s2 := by
            cases f with
            | zero => omega
            | succ f => exact Option.some.inj h2
          have := hord1 rfl fun k l _ hkl hl => by omega
          rwa [show 1 + (n - 1) = n by omega] at this
        · exact hord2 (by omega)

/-! ### An array that is in order -/

lemma pass_still (hord : InOrder compar 0 hi (item w s.mem)) (hgap : 0 < gap) (hi1 : gap ≤ i)
    (hcount : i + count ≤ hi) (hf : 0 < f) :
    ∃ s', pass compar gap f s i count = some s' ∧ s'.mem = s.mem ∧
      (Good w hi s' ↔ Good w hi s) := by
  induction count generalizing s i with
  | zero => exact ⟨s, rfl, rfl, Iff.rfl⟩
  | succ count ih =>
    obtain ⟨f, rfl⟩ := Nat.exists_eq_succ_of_ne_zero hf.ne'
    set s1 := ask s ((i - gap) * w) ((i - gap + gap) * w) with hs1
    have h1 : sink compar gap (f + 1) s (i - gap) = some s1 := by
      rw [sink]
      dsimp only
      rw [comp_item, if_pos (hord _ _ (by omega) (by omega) (by omega))]
    obtain ⟨s2, h2, hmem, hgood⟩ := ih (s := s1) (i := i + 1) hord (by omega) (by omega)
    refine ⟨s2, ?_, hmem, hgood.trans (good_ask_item (by omega) (by omega))⟩
    rw [pass, List.range'_succ, List.foldlM_cons, h1]
    exact h2

lemma passes_still (hord : InOrder compar 0 n (item w s.mem)) (hgap : gap < n ∨ gap = 0)
    (hf : gap + 2 ≤ f) :
    ∃ s', passes compar n f s gap = some s' ∧ s'.mem = s.mem ∧ (Good w n s' ↔ Good w n s) := by
  induction f generalizing s gap with
  | zero => omega
  | succ f ih =>
    rw [passes]
    by_cases h0 : gap = 0
    · rw [if_pos h0]
      exact ⟨s, rfl, rfl, Iff.rfl⟩
    · rw [if_neg h0]
      obtain ⟨s1, h1, hmem1, hgood1⟩ :=
        pass_still (f := f) hord (show 0 < gap by omega) le_rfl
          (show gap + (n - gap) ≤ n by omega) (by omega)
      obtain ⟨s2, h2, hmem2, hgood2⟩ :=
        ih (s := s1) (by rw [hmem1]; exact hord) (show gap / 2 < n ∨ gap / 2 = 0 by omega)
          (by omega)
      exact ⟨s2, by rw [h1, Option.bind_some, h2], hmem2.trans hmem1, hgood2.trans hgood1⟩

/-! ### What the two do -/

variable (compar) in
/-- A sort that has ended with the elements rearranged and in order, and that has called the
comparison function on elements only. -/
def Sorts (n : ℕ) (s : St) (r : Option St) : Prop :=
  ∃ s', r = some s' ∧ Rearranged 0 n (item w s.mem) (item w s'.mem) ∧
    InOrder compar 0 n (item w s'.mem) ∧ Good w n s'

/-- Memory before a sort. -/
def start (m : Mem) : St := ⟨m, []⟩

lemma good_start (m : Mem) : Good w n (start m) := fun _ h => absurd h List.not_mem_nil

/-- A size of zero ends in the division by it. -/
lemma qsort_no_size {compar : (Fin 0 → UInt8) → (Fin 0 → UInt8) → ℤ} (h10 : 10 ≤ n)
    (s : St) (f p : ℕ) : qsort compar f s p n = none := by
  cases f with
  | zero => rfl
  | succ f =>
    rw [qsort, if_neg (by omega)]
    cases divide compar f s p n with
    | none => rfl
    | some r => rfl

lemma qsort_few (hc : IsOrder compar) (h10 : n < 10) (hf : 0 < f) (m : Mem) :
    Sorts compar n (start m) (qsort compar f (start m) 0 n) := by
  obtain ⟨f, rfl⟩ := Nat.exists_eq_succ_of_ne_zero hf.ne'
  rw [qsort, if_pos h10]
  by_cases h1 : 1 < n
  · rw [if_pos h1]
    have := qlinsert_spec (s := start m) hc (show 0 + (n - 1) + 1 ≤ n by omega)
    rw [show 0 + (n - 1) + 1 = n by omega, Nat.zero_mul] at this
    exact ⟨_, rfl, this.1, this.2.1, this.2.2.mpr (good_start m)⟩
  · rw [if_neg h1]
    exact ⟨_, rfl, Rearranged.refl _ _ _, fun i j _ hij hj => by omega, good_start m⟩

lemma qsort_sorts (hc : IsOrder compar) (hf : n + 2 ≤ f) (m : Mem) :
    Sorts compar n (start m) (qsort compar f (start m) 0 n) ↔
      Calm compar f (start m) 0 n := by
  by_cases hw : 0 < w
  · obtain ⟨s', h1, hre, hord, hgood⟩ :=
      qsort_spec (s := start m) hc hw (show 0 + n ≤ n by omega) hf
    simp only [Nat.zero_mul, Nat.zero_add] at h1 hre hord hgood
    rw [h1]
    constructor
    · rintro ⟨s'', h2, -, -, hg⟩
      cases h2
      exact (hgood.mp hg).2 trivial
    · intro hcalm
      exact ⟨s', rfl, hre, hord, hgood.mpr ⟨good_start m, fun _ => hcalm⟩⟩
  · obtain ⟨f, rfl⟩ : ∃ g, f = g + 1 := ⟨f - 1, by omega⟩
    by_cases h10 : n < 10
    · exact ⟨fun _ h => absurd h (by omega), fun _ => qsort_few hc h10 (by omega) m⟩
    · constructor
      · rintro ⟨s', h1, -⟩
        obtain rfl : w = 0 := by omega
        rw [qsort_no_size (by omega)] at h1
        cases h1
      · intro hcalm
        exact absurd (hcalm (by omega)).1 hw

lemma shellsort_gap (hn : n < 32768) : ((Int.bmod n 65536).tdiv 2).toNat = n / 2 := by
  have : Int.bmod n 65536 = n := Int.bmod_eq_of_le (by omega) (by omega)
  rw [this, Int.tdiv_eq_ediv_of_nonneg (by omega)]
  omega

lemma shellsort_many (h1 : 32768 ≤ n) (h2 : n < 65536) (hf : 0 < f) (s : St) :
    shellsort compar f s n = some s := by
  have h3 : Int.bmod n 65536 = n - 65536 := by
    rw [Int.bmod_def]
    omega
  have h4 : ((Int.bmod n 65536).tdiv 2).toNat = 0 := by
    rw [h3, show (n : ℤ) - 65536 = -(65536 - n) by omega, Int.neg_tdiv,
      Int.tdiv_eq_ediv_of_nonneg (by omega)]
    omega
  obtain ⟨f, rfl⟩ := Nat.exists_eq_succ_of_ne_zero hf.ne'
  rw [shellsort, h4]
  rfl

lemma shellsort_sorts (hc : IsOrder compar) (hf : 2 * n + 2 ≤ f) (m : Mem)
    (h : w < 256 ∧ n < 32768) :
    Sorts compar n (start m) (shellsort compar f (start m) n) := by
  rw [shellsort, shellsort_gap h.2]
  obtain ⟨s', h1, hre, hgood, hord⟩ :=
    passes_spec (s := start m) (f := f) hc h.1 (show n / 2 < n ∨ n / 2 = 0 by omega) (by omega)
  refine ⟨s', h1, hre, ?_, hgood.mpr (good_start m)⟩
  by_cases hn : n < 2
  · exact fun i j _ hij hj => by omega
  · exact hord (by omega)

lemma shellsort_still (hn : n < 65536) (hf : 2 * n + 2 ≤ f) (m : Mem)
    (hord : InOrder compar 0 n (item w m)) :
    Sorts compar n (start m) (shellsort compar f (start m) n) := by
  by_cases h : n < 32768
  · rw [shellsort, shellsort_gap h]
    obtain ⟨s', h1, hmem, hgood⟩ :=
      passes_still (s := start m) (f := f) hord (show n / 2 < n ∨ n / 2 = 0 by omega) (by omega)
    refine ⟨s', h1, ?_, ?_, hgood.mpr (good_start m)⟩
    · rw [hmem]
      exact Rearranged.refl _ _ _
    · rw [hmem]
      exact hord
  · rw [shellsort_many (by omega) hn (by omega)]
    exact ⟨_, rfl, Rearranged.refl _ _ _, hord, good_start m⟩

/-- **Sorting.** `qsort` always ends with the elements rearranged and in order, and it looks at
elements only exactly when every part that reaches to the end of the array has an element above
its pivot; `shellsort` does where a `char` holds the size and an `int` the number, and of arrays
with more elements for those that are in order already. -/
theorem sorting {w : ℕ} (compar : (Fin w → UInt8) → (Fin w → UInt8) → ℤ) (m : Mem) (n f : ℕ)
    (hc : IsOrder compar) (hn : n < 65536) (hf : 2 * n + 2 ≤ f) :
    (Sorts compar n (start m) (qsort compar f (start m) 0 n) ↔
      Calm compar f (start m) 0 n) ∧
    (w < 256 ∧ n < 32768 ∨ InOrder compar 0 n (item w m) →
      Sorts compar n (start m) (shellsort compar f (start m) n)) ∧
    (32768 ≤ n → (Sorts compar n (start m) (shellsort compar f (start m) n) ↔
      InOrder compar 0 n (item w m))) := by
  refine ⟨qsort_sorts hc (by omega) m, ?_, fun hmany => ⟨?_, shellsort_still hn hf m⟩⟩
  · rintro (h | h)
    · exact shellsort_sorts hc hf m h
    · exact shellsort_still hn hf m h
  · rw [shellsort_many hmany hn (by omega)]
    rintro ⟨s', h1, -, hord, -⟩
    cases h1
    exact hord

/-- Elements compared by their first byte. -/
def firstByte (x y : Fin (k + 1) → UInt8) : ℤ := ((x 0).toNat : ℤ) - (y 0).toNat

lemma firstByte_isOrder : IsOrder (firstByte (k := k)) :=
  ⟨fun x y => by unfold firstByte; omega, fun x y z => by unfold firstByte; omega⟩

theorem sorting_three :
    Sorts (w := 1) firstByte 3 (start fun i => UInt8.ofNat (5 - i))
        (qsort (w := 1) firstByte 8 (start fun i => UInt8.ofNat (5 - i)) 0 3) ∧
      Sorts (w := 1) firstByte 3 (start fun i => UInt8.ofNat (5 - i))
        (shellsort (w := 1) firstByte 8 (start fun i => UInt8.ofNat (5 - i)) 3) :=
  have h := sorting firstByte (fun i => UInt8.ofNat (5 - i)) 3 8 firstByte_isOrder (by decide)
    (by decide)
  ⟨h.1.mpr fun h10 => absurd h10 (by decide), h.2.1 (Or.inl ⟨by decide, by decide⟩)⟩

/-- Ten equal elements: the comparison function is called on the address behind them. And two
elements of 256 bytes, of which `shellsort` exchanges none. -/
theorem equal_elements_not_sorted :
    IsOrder (firstByte (k := 0)) ∧ IsOrder (firstByte (k := 255)) ∧
    (∃ s', qsort (w := 1) firstByte 22 (start fun _ => 7) 0 10 = some s' ∧ 10 ∈ s'.calls) ∧
    ¬Sorts (w := 1) firstByte 10 (start fun _ => 7)
      (qsort (w := 1) firstByte 22 (start fun _ => 7) 0 10) ∧
    ¬Sorts (w := 256) firstByte 2 (start fun i => if i = 0 then 1 else 0)
      (shellsort (w := 256) firstByte 6 (start fun i => if i = 0 then 1 else 0) 2) := by
  refine ⟨firstByte_isOrder, firstByte_isOrder, ?_, ?_, ?_⟩
  · have h : (qsort (w := 1) firstByte 22 (start fun _ => 7) 0 10).map
        (fun s => decide (10 ∈ s.calls)) = some true := by decide +kernel
    obtain ⟨s', h1, h2⟩ := Option.map_eq_some_iff.mp h
    exact ⟨s', h1, of_decide_eq_true h2⟩
  · rw [qsort_sorts firstByte_isOrder (by decide)]
    intro hcalm
    obtain ⟨-, ⟨i, -, hlt⟩, -⟩ := hcalm (le_refl 10)
    exact absurd hlt (by simp [comp, elem, start, firstByte])
  · have h : (shellsort (w := 256) firstByte 6 (start fun i => if i = 0 then 1 else 0) 2).map
        (fun s => (s.mem 0, s.mem 256)) = some (1, 0) := by decide +kernel
    rintro ⟨s', h1, -, hord, -⟩
    rw [h1] at h
    have hle := hord 0 1 le_rfl (by decide) (by decide)
    obtain ⟨h0, h256⟩ := Prod.mk.inj (Option.some.inj h)
    have h0' : item 256 s'.mem 0 0 = 1 := h0
    have h256' : item 256 s'.mem 1 0 = 0 := h256
    unfold firstByte at hle
    rw [h0', h256'] at hle
    exact absurd hle (by decide)

end Coherent.Sorting
