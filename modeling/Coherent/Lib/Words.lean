import Mathlib.Tactic
import Mathlib.Data.Nat.Log
import Mathlib.Data.List.TakeWhile

/-!
Lines of words.

A line is a list of characters. Blanks separate its words, and a stop ends it. A number is
written as a word: its digits in a base, the most significant first.
-/

namespace Coherent.Lib.Words

variable {α : Type*} {blank stop : α → Bool} {w p q r : List α} {c : α}

/-- A character that is part of a word. -/
def inner (blank stop : α → Bool) (c : α) : Bool := !blank c && !stop c

/-- The next word of a line and what is left behind the character that ends it. -/
def next (blank stop : α → Bool) (p : List α) : Option (List α × List α) :=
  match (p.dropWhile blank).takeWhile (inner blank stop) with
  | [] => none
  | c :: w => some (c :: w, ((p.dropWhile blank).dropWhile (inner blank stop)).drop 1)

/-- A word: not empty, no blank and no stop in it. -/
def IsWord (blank stop : α → Bool) (w : List α) : Prop :=
  w ≠ [] ∧ ∀ c ∈ w, inner blank stop c = true

/-- What follows a word: nothing, or a character that is not part of one. -/
def Ended (blank stop : α → Bool) (r : List α) : Prop :=
  ∀ c q, r = c :: q → inner blank stop c = false

lemma ended_nil : Ended blank stop ([] : List α) := fun _ _ h => by cases h

lemma ended_cons (h : inner blank stop c = false) : Ended blank stop (c :: r) := by
  rintro d q ⟨⟩
  exact h

lemma takeWhile_ended (hw : ∀ c ∈ w, inner blank stop c = true) (hr : Ended blank stop r) :
    (w ++ r).takeWhile (inner blank stop) = w := by
  rw [List.takeWhile_append_of_pos hw]
  cases r with
  | nil => simp
  | cons c q => simp [hr c q rfl]

lemma dropWhile_ended (hw : ∀ c ∈ w, inner blank stop c = true) (hr : Ended blank stop r) :
    (w ++ r).dropWhile (inner blank stop) = r := by
  rw [List.dropWhile_append_of_pos hw]
  cases r with
  | nil => simp
  | cons c q => simp [hr c q rfl]

/-- **Reading a word back.** -/
theorem next_word (hw : IsWord blank stop w) (hr : Ended blank stop r) :
    next blank stop (w ++ r) = some (w, r.drop 1) := by
  obtain ⟨hne, hin⟩ := hw
  obtain ⟨c, v, rfl⟩ := List.exists_cons_of_ne_nil hne
  have hc : blank c = false := by
    have := hin c List.mem_cons_self
    simp only [inner, Bool.and_eq_true, Bool.not_eq_true'] at this
    exact this.1
  have hd : ((c :: v) ++ r).dropWhile blank = (c :: v) ++ r := by simp [hc]
  rw [next, hd, takeWhile_ended hin hr, dropWhile_ended hin hr]

/-- A line that begins with a word. -/
lemma next_cons (hc : inner blank stop c = true) :
    next blank stop (c :: p) = some (c :: p.takeWhile (inner blank stop),
      (p.dropWhile (inner blank stop)).drop 1) := by
  have hb : blank c = false := by
    simp only [inner, Bool.and_eq_true, Bool.not_eq_true'] at hc
    exact hc.1
  simp [next, hb, hc]

@[simp] lemma next_nil : next blank stop ([] : List α) = none := rfl

/-- What is read is a word. -/
theorem isWord_of_next (h : next blank stop p = some (w, r)) : IsWord blank stop w := by
  unfold next at h
  split at h
  · cases h
  · next c v hv =>
    cases h
    refine ⟨by simp, fun d hd => ?_⟩
    rw [← hv] at hd
    exact List.mem_takeWhile_imp hd

/-- The rest of the line is an end of it. -/
theorem next_suffix (h : next blank stop p = some (w, r)) : r <:+ p := by
  unfold next at h
  split at h
  · cases h
  · cases h
    exact (List.drop_suffix 1 _).trans ((List.dropWhile_suffix _).trans (List.dropWhile_suffix _))

/-- The word is a part of the line. -/
theorem next_subset (h : next blank stop p = some (w, r)) : w ⊆ p := by
  unfold next at h
  split at h
  · cases h
  · next c v hv =>
    cases h
    rw [← hv]
    exact fun d hd => (List.dropWhile_suffix _).subset ((List.takeWhile_prefix _).subset hd)

theorem next_length (h : next blank stop p = some (w, r)) : r.length < p.length := by
  have hw := (isWord_of_next h).1
  unfold next at h
  split at h
  · cases h
  · next c v hv =>
    cases h
    have h1 := congrArg List.length
      (List.takeWhile_append_dropWhile (p := inner blank stop) (l := p.dropWhile blank))
    have h2 := (List.dropWhile_suffix (l := p) blank).length_le
    rw [hv] at h1
    simp only [List.length_append, List.length_cons, List.length_drop] at h1 ⊢
    omega

/-! ### Lines written as words, each behind a separator -/

/-- The words, each behind a separator. -/
def spaced (sep : α) (ws : List (List α)) : List α := ws.flatMap fun w => sep :: w

@[simp] lemma spaced_nil (sep : α) : spaced sep [] = [] := rfl

@[simp] lemma spaced_cons (sep : α) (w : List α) (ws : List (List α)) :
    spaced sep (w :: ws) = sep :: (w ++ spaced sep ws) := by simp [spaced]

lemma spaced_append (sep : α) (vs ws : List (List α)) :
    spaced sep (vs ++ ws) = spaced sep vs ++ spaced sep ws := by simp [spaced]

variable {sep : α} {ws : List (List α)}

lemma ended_spaced (hs : inner blank stop sep = false) (hr : Ended blank stop r) :
    Ended blank stop (spaced sep ws ++ r) := by
  cases ws with
  | nil => exact hr
  | cons w ws =>
    rw [spaced_cons, List.cons_append]
    exact ended_cons hs

/-- **Reading a line of words**: the first word, and the rest of the line behind it. -/
theorem next_spaced (hs : inner blank stop sep = false) (hw : IsWord blank stop w)
    (hr : Ended blank stop r) :
    next blank stop ((spaced sep (w :: ws) ++ r).drop 1)
      = some (w, (spaced sep ws ++ r).drop 1) := by
  rw [spaced_cons, List.cons_append, List.drop_one, List.tail_cons, List.append_assoc]
  exact next_word hw (ended_spaced hs hr)

/-! ### Numerals -/

/-- The digits of a number in base `b`, at most `k` of them. -/
def numeral (b : ℕ) : ℕ → ℕ → List ℕ
  | 0, _ => []
  | k + 1, n => if n / b = 0 then [n] else numeral b k (n / b) ++ [n % b]

variable {b k n : ℕ}

lemma numeral_lt (hb : 1 < b) : ∀ d ∈ numeral b k n, d < b := by
  induction k generalizing n with
  | zero => simp [numeral]
  | succ k ih =>
    intro d hd
    rw [numeral] at hd
    split at hd
    · next h =>
      rw [List.mem_singleton.mp hd]
      exact (Nat.div_eq_zero_iff_lt (by omega)).mp h
    · rcases List.mem_append.mp hd with hd | hd
      · exact ih d hd
      · rw [List.mem_singleton.mp hd]
        exact Nat.mod_lt _ (by omega)

/-- The number of digits. -/
lemma length_numeral (hb : 1 < b) (hn : n < b ^ (k + 1)) :
    (numeral b (k + 1) n).length = Nat.log b n + 1 := by
  induction k generalizing n with
  | zero =>
    have hlt : n < b := by simpa using hn
    rw [numeral, if_pos ((Nat.div_eq_zero_iff_lt (by omega)).mpr hlt), Nat.log_of_lt hlt]
    rfl
  | succ k ih =>
    rw [numeral]
    split
    · next h =>
      rw [Nat.log_of_lt ((Nat.div_eq_zero_iff_lt (by omega)).mp h)]
      rfl
    · next h =>
      have hge : b ≤ n := by
        by_contra hlt
        exact h (Nat.div_eq_of_lt (by omega))
      have hd : n / b < b ^ (k + 1) := by
        rw [Nat.div_lt_iff_lt_mul (by omega), ← pow_succ]
        exact hn
      rw [List.length_append, ih hd, Nat.log_of_one_lt_of_le hb hge]
      rfl

/-- **The value of a numeral.** -/
theorem value_numeral (hn : n < b ^ (k + 1)) :
    (numeral b (k + 1) n).foldl (fun v d => v * b + d) 0 = n := by
  induction k generalizing n with
  | zero =>
    rw [numeral, if_pos (Nat.div_eq_of_lt (by simpa using hn))]
    simp
  | succ k ih =>
    rw [numeral]
    split
    · simp
    · have hb : 0 < b := by
        rcases Nat.eq_zero_or_pos b with rfl | hb
        · simp at hn
        · exact hb
      have hd : n / b < b ^ (k + 1) := by
        rw [Nat.div_lt_iff_lt_mul hb, ← pow_succ]
        exact hn
      rw [List.foldl_append, ih hd]
      simpa [Nat.mul_comm] using Nat.div_add_mod n b

end Coherent.Lib.Words
