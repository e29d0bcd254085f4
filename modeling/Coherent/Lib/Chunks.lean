import Mathlib.Tactic

/-!
A sequence stored in blocks of `N` places each, from some place of the first block on.
-/

namespace Coherent.Lib

variable {β α : Type*} {mem mem' : β → ℕ → α} {N o : ℕ} {bs bs' : List β} {b : β} {l : List α}
  {c : α}

/-- From place `o` of the blocks `bs` on, the memory has the elements of `l`. -/
def Stored (mem : β → ℕ → α) (N : ℕ) (bs : List β) (o : ℕ) (l : List α) : Prop :=
  ∀ i c, l[i]? = some c → ∃ b, bs[(o + i) / N]? = some b ∧ mem b ((o + i) % N) = c

namespace Stored

theorem nil : Stored mem N bs o [] := by
  intro i c h
  simp at h

/-- The first element is in the first block. -/
theorem head (h : Stored mem N (b :: bs) o (c :: l)) (ho : o < N) : mem b o = c := by
  obtain ⟨b', hb, hc⟩ := h 0 c rfl
  rw [Nat.add_zero, Nat.div_eq_of_lt ho] at hb
  obtain rfl : b = b' := Option.some.inj hb
  rwa [Nat.add_zero, Nat.mod_eq_of_lt ho] at hc

/-- The sequence without its first element. -/
theorem tail (h : Stored mem N bs o (c :: l)) : Stored mem N bs (o + 1) l := by
  intro i d hd
  obtain ⟨b, hb, hm⟩ := h (i + 1) d (by simpa using hd)
  refine ⟨b, ?_, ?_⟩
  · rwa [Nat.add_assoc, Nat.add_comm 1 i]
  · rwa [Nat.add_assoc, Nat.add_comm 1 i]

/-- A block that has been passed is let go. -/
theorem drop (h : Stored mem N (b :: bs) N l) (hN : 0 < N) : Stored mem N bs 0 l := by
  intro i c hc
  obtain ⟨d, hd, hm⟩ := h i c hc
  rw [Nat.add_div_left _ hN, List.getElem?_cons_succ] at hd
  rw [Nat.add_mod_left] at hm
  exact ⟨d, by rwa [Nat.zero_add], by rwa [Nat.zero_add]⟩

/-- Only the memory in the blocks counts. -/
theorem congr (h : Stored mem N bs o l) (he : ∀ b ∈ bs, mem' b = mem b) :
    Stored mem' N bs o l := by
  intro i c hc
  obtain ⟨b, hb, hm⟩ := h i c hc
  exact ⟨b, hb, by rw [he b (List.mem_of_getElem? hb), hm]⟩

theorem append (h : Stored mem N bs o l) (bs' : List β) : Stored mem N (bs ++ bs') o l := by
  intro i c hc
  obtain ⟨b, hb, hm⟩ := h i c hc
  refine ⟨b, ?_, hm⟩
  rw [List.getElem?_append_left]
  · exact hb
  · exact (List.getElem?_eq_some_iff.mp hb).1

variable [DecidableEq β]

/-- One more element, behind the others. -/
theorem snoc (h : Stored mem N bs o l) (hnd : bs.Nodup)
    (hb : bs[(o + l.length) / N]? = some b) :
    Stored (Function.update mem b (Function.update (mem b) ((o + l.length) % N) c)) N bs o
      (l ++ [c]) := by
  intro i d hd
  by_cases hi : i < l.length
  · -- an old element: in another block, or at another place
    rw [List.getElem?_append_left hi] at hd
    obtain ⟨b', hb', hm⟩ := h i d hd
    refine ⟨b', hb', ?_⟩
    by_cases he : b' = b
    · subst he
      rw [Function.update_self, Function.update_of_ne, hm]
      intro hmod
      have hdiv : (o + i) / N = (o + l.length) / N := by
        obtain ⟨h1, h2⟩ := List.getElem?_eq_some_iff.mp hb'
        obtain ⟨h3, h4⟩ := List.getElem?_eq_some_iff.mp hb
        exact (hnd.getElem_inj_iff).mp (h2.trans h4.symm)
      have h1 := Nat.div_add_mod (o + i) N
      rw [hdiv, hmod, Nat.div_add_mod] at h1
      omega
    · rw [Function.update_of_ne he, hm]
  · -- the new one
    obtain ⟨hlt, hget⟩ := List.getElem?_eq_some_iff.mp hd
    rw [List.length_append, List.length_singleton] at hlt
    obtain rfl : i = l.length := by omega
    refine ⟨b, hb, ?_⟩
    rw [Function.update_self, Function.update_self, ← hget]
    simp

end Stored

end Coherent.Lib
