import Coherent.CryptDes

/-!
The command `crypt`: a rotor and a sequence of offsets, both made from a password.

The rotor exchanges characters in pairs, so that a text that is encrypted twice is the text again.
-/

namespace Coherent.Rotor

open Crypt

def padkey : List ℕ := [3, 18, 6, 7, 28, 19, 25, 1, 23, 30]

/-- `getkey`: the characters of a password that are kept. -/
def getkey (ps : List ℕ) : List ℕ := (ps.takeWhile (· ≠ 0)).take 10

/-- The value of a `char`. -/
def char (c : ℕ) : ℤ := if c < 128 then c else c - 256

/-- `legal`: a character that a salt may have, kept in a `char`. -/
def legal (c : ℕ) : ℕ :=
  let c := char c
  let r : ℤ :=
    if c < 12 then c + 46
    else if c < 38 then c - 12 + 65
    else if c < 46 then c - 38 + 97
    else if 57 < c ∧ c < 65 then 111 + 1 - (65 - c)
    else if 90 < c ∧ c < 97 then 117 + 1 - (97 - c)
    else if c > 122 then 122 + 1 - (128 - c)
    else c
  (r % 256).toNat

/-- `pervertkey`: what `crypt` makes of the padded key. -/
def pervertkey (key mem above : List ℕ) : List ℕ :=
  let key := key ++ padkey.take (10 - key.length)
  (crypt (key.take 8) (legal (key.getD 8 0), legal (key.getD 9 0)) mem above).drop 2

/-- The seeds that `makerotor` computes. -/
def seeds (key : List ℕ) : ℕ × ℕ :=
  (List.range 6).foldl (fun s i =>
    ((s.1 + 1) * key.getD i 0 % 65536, (s.2 + 1) * key.getD (i + 5) 0 % 65536)) (0, 0)

/-- The deck when it is shuffled from card `i` on, so many cards. -/
def shuffle : ℕ → ℕ → ℕ → List ℕ → List ℕ
  | 0, _, _, deck => deck
  | n + 1, i, seed, deck =>
    let j := i + rand (nextSeed seed) % (256 - i)
    let uc := deck.getD i 0
    shuffle n (i + 1) (nextSeed seed) ((deck.set i (deck.getD j 0)).set j uc)

/-- The rotor when so many pairs of cards have been put into it. -/
def wire (deck : List ℕ) : ℕ → List ℕ → List ℕ
  | 0, rotor => rotor
  | n + 1, rotor =>
    let rotor := wire deck n rotor
    (rotor.set (deck.getD (2 * n) 0) (deck.getD (2 * n + 1) 0)).set
      (deck.getD (2 * n + 1) 0) (deck.getD (2 * n) 0)

/-- `makerotor`: the rotor for a seed. -/
def makerotor (seed1 : ℕ) : List ℕ :=
  wire (shuffle 256 0 seed1 (List.range 256)) 128 (List.replicate 256 0)

/-- `cryptext`, with the seed as it is before a character. -/
def cryptext (rotor : List ℕ) : ℕ → List ℕ → List ℕ
  | _, [] => []
  | seed, c :: text =>
    let j := rand (nextSeed seed) % 256
    (rotor.getD ((c + j) % 256) 0 + 256 - j) % 256 :: cryptext rotor (nextSeed seed) text

/-- The command: what it writes for a password and a text, with what is on the stack. -/
def main (ps text mem above : List ℕ) : List ℕ :=
  let key := pervertkey (getkey ps) mem above
  let s := seeds key
  cryptext (makerotor s.1) s.2 text

/-! ### The rotor -/

/-- Whatever the random numbers are, the deck has its cards. -/
lemma shuffle_perm (n i seed : ℕ) {deck : List ℕ} (hi : i + n ≤ 256) (hd : deck.length = 256) :
    (shuffle n i seed deck).Perm deck := by
  induction n generalizing i seed deck with
  | zero => exact List.Perm.refl _
  | succ n ih =>
    simp only [shuffle]
    obtain ⟨j, hj⟩ : ∃ j, j = i + rand (nextSeed seed) % (256 - i) := ⟨_, rfl⟩
    have hmod : rand (nextSeed seed) % (256 - i) < 256 - i := Nat.mod_lt _ (by omega)
    have hi' : i < deck.length := by omega
    have hj' : j < deck.length := by omega
    rw [← hj]
    refine (ih (i + 1) (nextSeed seed) (by omega) (by simp [hd])).trans ?_
    rw [List.getD_eq_getElem?_getD, List.getD_eq_getElem?_getD, List.getElem?_eq_getElem hi',
      List.getElem?_eq_getElem hj']
    exact List.set_set_perm hi' hj'

section Wire

variable {deck : List ℕ} (hnodup : deck.Nodup) (hlen : deck.length = 256)
  (hlt : ∀ x ∈ deck, x < 256)

include hlen in
lemma getD_deck {i : ℕ} (hi : i < 256) : deck.getD i 0 = deck[i] := by
  rw [List.getD_eq_getElem?_getD, List.getElem?_eq_getElem (by omega)]
  rfl

include hnodup hlen in
lemma deck_ne {i j : ℕ} (hi : i < 256) (hj : j < 256) (hij : i ≠ j) :
    deck.getD i 0 ≠ deck.getD j 0 := by
  rw [getD_deck hlen hi, getD_deck hlen hj]
  intro he
  exact hij ((List.Nodup.getElem_inj_iff hnodup).mp he)

include hnodup hlen hlt in
/-- Each pair of cards that is in the rotor is exchanged by it. -/
lemma wire_spec {n : ℕ} (hn : n ≤ 128) {rotor : List ℕ} (hr : rotor.length = 256) :
    (wire deck n rotor).length = 256 ∧ ∀ k < n,
      (wire deck n rotor).getD (deck.getD (2 * k) 0) 0 = deck.getD (2 * k + 1) 0 ∧
      (wire deck n rotor).getD (deck.getD (2 * k + 1) 0) 0 = deck.getD (2 * k) 0 := by
  have hcard : ∀ i < 256, deck.getD i 0 < 256 := by
    intro i hi
    rw [getD_deck hlen hi]
    exact hlt _ (List.getElem_mem _)
  induction n with
  | zero => exact ⟨hr, fun k hk => absurd hk (Nat.not_lt_zero k)⟩
  | succ n ih =>
    obtain ⟨h1, h2⟩ := ih (by omega)
    have ha := hcard (2 * n) (by omega)
    have hb := hcard (2 * n + 1) (by omega)
    have hab := deck_ne hnodup hlen (i := 2 * n) (j := 2 * n + 1) (by omega) (by omega) (by omega)
    refine ⟨by simp [wire, h1], fun k hk => ?_⟩
    simp only [wire]
    rcases Nat.lt_succ_iff_lt_or_eq.mp hk with hk | rfl
    · -- the new pair is not this one
      have hne : ∀ i ∈ [2 * k, 2 * k + 1], ∀ j ∈ [2 * n, 2 * n + 1],
          deck.getD j 0 ≠ deck.getD i 0 := by
        intro i hi j hj
        simp only [List.mem_cons, List.not_mem_nil, or_false] at hi hj
        exact deck_ne hnodup hlen (by omega) (by omega) (by omega)
      simp only [List.getD_eq_getElem?_getD] at hne h2 ⊢
      rw [List.getElem?_set_ne (hne _ (by simp) _ (by simp)),
        List.getElem?_set_ne (hne _ (by simp) _ (by simp)),
        List.getElem?_set_ne (hne _ (by simp) _ (by simp)),
        List.getElem?_set_ne (hne _ (by simp) _ (by simp))]
      exact h2 k hk
    · simp only [List.getD_eq_getElem?_getD] at ha hb hab ⊢
      rw [List.getElem?_set_ne hab.symm, List.getElem?_set_self (by rw [h1]; exact ha),
        List.getElem?_set_self (by rw [List.length_set, h1]; exact hb)]
      exact ⟨rfl, rfl⟩

end Wire

/-- **The rotor** is its own inverse. -/
theorem makerotor_spec (seed : ℕ) {x : ℕ} (hx : x < 256) :
    (makerotor seed).getD x 0 < 256 ∧
      (makerotor seed).getD ((makerotor seed).getD x 0) 0 = x := by
  obtain ⟨deck, hd⟩ : ∃ deck, deck = shuffle 256 0 seed (List.range 256) := ⟨_, rfl⟩
  have hperm : deck.Perm (List.range 256) := hd ▸ shuffle_perm 256 0 seed le_rfl (by simp)
  have hlen : deck.length = 256 := by rw [hperm.length_eq, List.length_range]
  have hlt : ∀ x ∈ deck, x < 256 := fun x hx => List.mem_range.mp (hperm.mem_iff.mp hx)
  have hnodup : deck.Nodup := hperm.nodup_iff.mpr List.nodup_range
  obtain ⟨-, hw⟩ := @wire_spec _ hnodup hlen hlt 128 le_rfl
    (List.replicate 256 0) List.length_replicate
  obtain ⟨i, hi, he⟩ := List.getElem_of_mem (hperm.mem_iff.mpr (List.mem_range.mpr hx))
  rw [hlen] at hi
  rw [← getD_deck hlen hi] at he
  have hcard : ∀ i < 256, deck.getD i 0 < 256 := by
    intro i hi
    rw [getD_deck hlen hi]
    exact hlt _ (List.getElem_mem _)
  rw [makerotor, ← hd, ← he]
  obtain ⟨h1, h2⟩ := hw (i / 2) (by omega)
  rcases Nat.mod_two_eq_zero_or_one i with h | h
  · have hi2 : 2 * (i / 2) = i := by omega
    rw [hi2] at h1 h2
    rw [h1, h2]
    exact ⟨hcard _ (by omega), rfl⟩
  · have hi2 : 2 * (i / 2) + 1 = i := by omega
    rw [hi2] at h1 h2
    rw [h2, h1]
    exact ⟨hcard _ (by omega), rfl⟩

/-! ### The text -/

lemma cryptext_cryptext {rotor text : List ℕ} (seed : ℕ)
    (hrotor : ∀ x < 256, rotor.getD x 0 < 256 ∧ rotor.getD (rotor.getD x 0) 0 = x)
    (htext : ∀ c ∈ text, c < 256) :
    cryptext rotor seed (cryptext rotor seed text) = text := by
  induction text generalizing seed with
  | nil => rfl
  | cons c text ih =>
    have hc : c < 256 := htext c (by simp)
    simp only [cryptext]
    rw [ih _ fun c h => htext c (by simp [h])]
    obtain ⟨j, hj⟩ : ∃ j, j = rand (nextSeed seed) % 256 := ⟨_, rfl⟩
    have hj256 : j < 256 := hj ▸ Nat.mod_lt _ (by norm_num)
    obtain ⟨h1, h2⟩ := hrotor ((c + j) % 256) (Nat.mod_lt _ (by norm_num))
    rw [← hj]
    have hback : ((rotor.getD ((c + j) % 256) 0 + 256 - j) % 256 + j) % 256 =
        rotor.getD ((c + j) % 256) 0 := by omega
    rw [hback, h2]
    congr 1
    omega

end Coherent.Rotor
