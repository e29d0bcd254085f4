import Mathlib.Tactic

/-!
Singly linked lists: which cells are reached from a pointer, and what linking in a new cell
does to them.
-/

namespace Coherent.Lib

variable {α : Type*} {next next' : α → Option α} {h : Option α} {a x : α} {l l' l₁ l₂ : List α}

/-- The cells reached from `h` by following `next` to its end are those of the list. -/
def Linked (next : α → Option α) : Option α → List α → Prop
  | h, [] => h = none
  | h, a :: l => h = some a ∧ Linked next (next a) l

theorem Linked.congr (hl : Linked next h l) (he : ∀ a ∈ l, next' a = next a) : Linked next' h l := by
  induction l generalizing h with
  | nil => exact hl
  | cons a l ih =>
    refine ⟨hl.1, ?_⟩
    rw [he a (by simp)]
    exact ih hl.2 fun b hb => he b (by simp [hb])

theorem Linked.unique (hl : Linked next h l) (hl' : Linked next h l') : l = l' := by
  induction l generalizing h l' with
  | nil =>
    cases l' with
    | nil => rfl
    | cons b l' => exact absurd (hl.symm.trans hl'.1) (by simp)
  | cons a l ih =>
    cases l' with
    | nil => exact absurd (hl'.symm.trans hl.1) (by simp)
    | cons b l' =>
      obtain rfl : a = b := Option.some.inj (hl.1.symm.trans hl'.1)
      rw [ih hl.2 hl'.2]

/-- After a cell comes the rest. -/
theorem Linked.after (hl : Linked next h (l₁ ++ a :: l₂)) : Linked next (next a) l₂ := by
  induction l₁ generalizing h with
  | nil => exact hl.2
  | cons b l₁ ih => exact ih hl.2

/-- No cell is reached twice, as the list ends. -/
theorem Linked.nodup (hl : Linked next h l) : l.Nodup := by
  induction l generalizing h with
  | nil => exact List.nodup_nil
  | cons a l ih =>
    refine List.nodup_cons.mpr ⟨fun ha => ?_, ih hl.2⟩
    obtain ⟨l₁, l₂, rfl⟩ := List.append_of_mem ha
    have hlen := congrArg List.length (hl.2.unique hl.2.after)
    simp only [List.length_append, List.length_cons] at hlen
    omega

theorem Linked.eq_none_iff (hl : Linked next h l) : h = none ↔ l = [] := by
  cases l with
  | nil => exact iff_of_true hl rfl
  | cons a l => exact iff_of_false (by rw [hl.1]; simp) (by simp)

instance [DecidableEq α] (h : Option α) (l : List α) : Decidable (Linked next h l) := by
  induction l generalizing h with
  | nil => exact inferInstanceAs (Decidable (h = none))
  | cons a l ih =>
    haveI := ih (next a)
    exact inferInstanceAs (Decidable (h = some a ∧ Linked next (next a) l))

/-- The cells reached from a pointer, `n` at most. -/
def reached (next : α → Option α) : ℕ → Option α → List α
  | 0, _ => []
  | _ + 1, none => []
  | n + 1, some a => a :: reached next n (next a)

theorem Linked.reached_eq {n : ℕ} (hl : Linked next h l) (hn : l.length ≤ n) :
    reached next n h = l := by
  induction l generalizing h n with
  | nil =>
    obtain rfl : h = none := hl
    cases n <;> rfl
  | cons a l ih =>
    obtain ⟨rfl, hl⟩ := hl
    cases n with
    | zero => simp at hn
    | succ n => exact congrArg _ (ih hl (Nat.le_of_succ_le_succ hn))

variable [DecidableEq α]

/-- A new cell `x` after the cell `a`. -/
theorem Linked.insert (hl : Linked next h (l₁ ++ a :: l₂)) (hx : x ∉ l₁ ++ a :: l₂) :
    Linked (Function.update (Function.update next x (next a)) a (some x)) h (l₁ ++ a :: x :: l₂) := by
  have hnd := hl.nodup
  induction l₁ generalizing h with
  | nil =>
    have hxa : x ≠ a := by
      rintro rfl
      exact hx (by simp)
    refine ⟨hl.1, by simp, ?_⟩
    rw [Function.update_of_ne hxa, Function.update_self]
    refine hl.2.congr fun b hb => ?_
    have hba : b ≠ a := by
      rintro rfl
      exact (List.nodup_cons.mp hnd).1 hb
    have hbx : b ≠ x := by
      rintro rfl
      exact hx (by simp [hb])
    rw [Function.update_of_ne hba, Function.update_of_ne hbx]
  | cons b l₁ ih =>
    have hba : b ≠ a := by
      rintro rfl
      exact (List.nodup_cons.mp hnd).1 (by simp)
    have hbx : b ≠ x := by
      rintro rfl
      exact hx (by simp)
    refine ⟨hl.1, ?_⟩
    rw [Function.update_of_ne hba, Function.update_of_ne hbx]
    exact ih hl.2 (fun hm => hx (by simp [hm])) (List.nodup_cons.mp hnd).2

/-- A new cell in front. -/
theorem Linked.push (hl : Linked next h l) (ha : a ∉ l) :
    Linked (Function.update next a h) (some a) (a :: l) := by
  refine ⟨rfl, ?_⟩
  rw [Function.update_self]
  refine hl.congr fun b hb => Function.update_of_ne ?_ ..
  rintro rfl
  exact ha hb

/-- What follows the cell `a` is replaced by another list. -/
theorem Linked.relink {k : Option α} (hl : Linked next h (l₁ ++ a :: l₂)) (hk : Linked next k l)
    (ha : a ∉ l) : Linked (Function.update next a k) h (l₁ ++ a :: l) := by
  have hnd := hl.nodup
  induction l₁ generalizing h with
  | nil =>
    obtain rfl : h = some a := hl.1
    exact hk.push ha
  | cons b l₁ ih =>
    have hba : b ≠ a := by
      rintro rfl
      exact (List.nodup_cons.mp hnd).1 (by simp)
    refine ⟨hl.1, ?_⟩
    rw [Function.update_of_ne hba]
    exact ih hl.2 (List.nodup_cons.mp hnd).2

/-- A new cell behind the last. -/
theorem Linked.snoc (hl : Linked next h (l ++ [a])) (hx : x ∉ l ++ [a]) :
    Linked (Function.update (Function.update next a (some x)) x none) h (l ++ [a] ++ [x]) := by
  have hxa : x ≠ a := by
    rintro rfl
    exact hx (by simp)
  have hends : Linked (Function.update next x none) h (l ++ [a]) := by
    refine hl.congr fun b hb => Function.update_of_ne ?_ ..
    rintro rfl
    exact hx hb
  have hnew : Linked (Function.update next x none) (some x) [x] := ⟨rfl, Function.update_self ..⟩
  rw [Function.update_comm hxa.symm, List.append_assoc]
  exact hends.relink hnew (by simpa using hxa.symm)

/-- The list `l₂` behind the last cell of another one. -/
theorem Linked.splice {k : Option α} (hl : Linked next h (l₁ ++ [a])) (hk : Linked next k l₂)
    (ha : a ∉ l₂) : Linked (Function.update next a k) h (l₁ ++ [a] ++ l₂) := by
  rw [List.append_assoc]
  exact hl.relink hk ha

end Coherent.Lib
