import Mathlib.Tactic

/-!
Feistel networks: a block of two halves, one of which is mixed with a function of the other before
they change places.

The functions need not have inverses: the rounds are undone by the same rounds in the other order.
-/

namespace Coherent.Lib.Feistel

variable {α : Type*} (add : α → α → α)

/-- The right half goes to the left, what was there is mixed with a function of it. -/
def round (f : α → α) (b : α × α) : α × α := (b.2, add b.1 (f b.2))

def rounds (fs : List (α → α)) (b : α × α) : α × α := fs.foldl (fun b f => round add f b) b

lemma rounds_concat (fs : List (α → α)) (f : α → α) (b : α × α) :
    rounds add (fs ++ [f]) b = round add f (rounds add fs b) := by
  simp [rounds]

/-- What a mixing function has to do with halves of a kind: it keeps the kind and undoes itself. -/
structure Mixes (good : α → Prop) (f : α → α) : Prop where
  keep : ∀ a b, good a → good b → good (add a (f b))
  cancel : ∀ a b, good a → good b → add (add a (f b)) (f b) = a

variable {add} {good : α → Prop}

lemma rounds_good {fs : List (α → α)} (h : ∀ f ∈ fs, Mixes add good f) {b : α × α}
    (hb : good b.1 ∧ good b.2) : good (rounds add fs b).1 ∧ good (rounds add fs b).2 := by
  induction fs using List.reverseRecOn with
  | nil => exact hb
  | append_singleton fs f ih =>
    obtain ⟨h1, h2⟩ := ih fun g hg => h g (List.mem_append_left _ hg)
    rw [rounds_concat]
    exact ⟨h2, (h f (by simp)).keep _ _ h1 h2⟩

/-- A round undoes itself when the halves have changed places. -/
lemma round_swap {f : α → α} (h : Mixes add good f) {b : α × α} (hb : good b.1 ∧ good b.2) :
    round add f (round add f b).swap = b.swap := by
  simp only [round, Prod.swap, h.cancel _ _ hb.1 hb.2]

/-- **The rounds in the other order undo the rounds.** -/
theorem rounds_reverse_swap {fs : List (α → α)} (h : ∀ f ∈ fs, Mixes add good f) {b : α × α}
    (hb : good b.1 ∧ good b.2) : rounds add fs.reverse (rounds add fs b).swap = b.swap := by
  induction fs using List.reverseRecOn with
  | nil => rfl
  | append_singleton fs f ih =>
    have hfs : ∀ g ∈ fs, Mixes add good g := fun g hg => h g (List.mem_append_left _ hg)
    have hstep : rounds add (f :: fs.reverse) (rounds add (fs ++ [f]) b).swap =
        rounds add fs.reverse (round add f (rounds add (fs ++ [f]) b).swap) := rfl
    rw [List.reverse_append, List.reverse_singleton, List.singleton_append, hstep, rounds_concat,
      round_swap (h f (by simp)) (rounds_good hfs hb), ih hfs]

end Coherent.Lib.Feistel
