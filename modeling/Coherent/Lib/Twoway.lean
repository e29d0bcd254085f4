import Coherent.Lib.Circular

/-!
Circular lists that are linked in both directions, and what linking a cell in or out does to them.
-/

namespace Coherent.Lib

variable {α : Type*} {next prev next' prev' : α → α} {a p q x z : α} {l l₁ l₂ : List α}

/-- **Putting a cell in** between two neighbours of a circle. -/
theorem Circular.insert (h : Circular next a (l₁ ++ l₂)) (hn : (a :: (l₁ ++ l₂)).Nodup)
    {ps qs : List α} (hz : a :: l₁ = ps ++ [z]) (hq : l₂ ++ [a] = q :: qs) (h1 : next' z = p)
    (h2 : next' p = q) (h3 : ∀ y ∈ a :: (l₁ ++ l₂), y ≠ z → next' y = next y) :
    Circular next' a (l₁ ++ p :: l₂) := by
  obtain ⟨hc1, -, hc2⟩ := (circular_append hz hq).mp h
  rw [← List.cons_append] at hn
  obtain ⟨hn1, -, hn2⟩ := List.nodup_append.mp hn
  have hz1 : z ∈ a :: l₁ := by simp [hz]
  refine (circular_append hz (@List.cons_append _ p l₂ [a])).mpr ⟨?_, h1, ?_⟩
  · refine hc1.congr fun y hy => h3 y ?_ ?_
    · rw [← List.cons_append]
      exact List.mem_append_left _ (List.mem_of_mem_dropLast hy)
    · rintro rfl
      rw [hz, List.dropLast_concat] at hy
      rw [hz] at hn1
      exact (List.nodup_append.mp hn1).2.2 y hy y (by simp) rfl
  · have hrest : Chain next' (l₂ ++ [a]) := by
      refine hc2.congr fun y hy => ?_
      rw [List.dropLast_concat] at hy
      refine h3 y (by simp [hy]) ?_
      rintro rfl
      exact hn2 y hz1 y hy rfl
    rw [List.cons_append, hq]
    rw [hq] at hrest
    exact List.isChain_cons_cons.mpr ⟨h2, hrest⟩

/-- The circle from `a` through `l`, with `prev` going back. -/
structure Twoway (next prev : α → α) (a : α) (l : List α) : Prop where
  fwd : Circular next a l
  bwd : Circular prev a l.reverse
  nodup : (a :: l).Nodup

namespace Twoway

lemma ends (a : α) (l₁ l₂ : List α) : ∃ ps z q qs, a :: l₁ = ps ++ [z] ∧ l₂ ++ [a] = q :: qs ∧
    a :: l₂.reverse = qs.reverse ++ [q] ∧ l₁.reverse ++ [a] = z :: ps.reverse := by
  obtain ⟨ps, z, hz⟩ := exists_last a l₁
  obtain ⟨q, qs, hq⟩ := exists_head l₂ a
  refine ⟨ps, z, q, qs, hz, hq, ?_, ?_⟩
  · simpa using congrArg List.reverse hq
  · simpa using congrArg List.reverse hz

lemma nodup_reverse (h : (a :: (l₁ ++ l₂)).Nodup) : (a :: (l₂.reverse ++ l₁.reverse)).Nodup := by
  rw [← List.reverse_append]
  obtain ⟨h1, h2⟩ := List.nodup_cons.mp h
  exact List.nodup_cons.mpr ⟨by rwa [List.mem_reverse], List.nodup_reverse.mpr h2⟩

variable [DecidableEq α]

/-- **Linking in** the cell `p` in front of the cell that follows `l₁`. -/
theorem link (h : Twoway next prev a (l₁ ++ l₂)) (hp : p ∉ a :: (l₁ ++ l₂))
    (hq : ∃ qs, l₂ ++ [a] = q :: qs) :
    Twoway (Function.update (Function.update next p q) (prev q) p)
      (Function.update (Function.update prev p (prev q)) q p) a (l₁ ++ p :: l₂) := by
  obtain ⟨ps, z, q', qs, hz, hq', hqr, hzr⟩ := ends a l₁ l₂
  obtain ⟨qs', hq⟩ := hq
  obtain ⟨rfl, -⟩ := List.cons.inj (hq.symm.trans hq')
  have hb := h.bwd
  rw [List.reverse_append] at hb
  obtain ⟨-, hqz, -⟩ := (circular_append hqr hzr).mp hb
  have hzm : z ∈ a :: (l₁ ++ l₂) := by
    rw [← List.cons_append, hz]
    simp
  have hqm : q ∈ a :: (l₁ ++ l₂) := by
    have : q ∈ l₂ ++ [a] := by simp [hq]
    rcases List.mem_append.mp this with h1 | h1
    · simp [h1]
    · simp [List.mem_singleton.mp h1]
  have hpz : p ≠ z := by
    rintro rfl
    exact hp hzm
  have hpq : p ≠ q := by
    rintro rfl
    exact hp hqm
  rw [hqz]
  refine ⟨?_, ?_, ?_⟩
  · refine h.fwd.insert h.nodup hz hq (Function.update_self ..) ?_ fun y hy hyz => ?_
    · rw [Function.update_of_ne hpz, Function.update_self]
    · rw [Function.update_of_ne hyz, Function.update_of_ne]
      rintro rfl
      exact hp hy
  · rw [List.reverse_append, List.reverse_cons, List.append_assoc]
    refine hb.insert (nodup_reverse h.nodup) hqr hzr (Function.update_self ..) ?_ fun y hy hyq => ?_
    · rw [Function.update_of_ne hpq, Function.update_self]
    · rw [Function.update_of_ne hyq, Function.update_of_ne]
      rintro rfl
      refine hp ?_
      simp only [List.mem_cons, List.mem_append, List.mem_reverse] at hy ⊢
      tauto
  · have := h.nodup
    rw [List.nodup_cons] at this ⊢
    simp only [List.mem_cons, List.mem_append, not_or] at hp this ⊢
    refine ⟨⟨this.1.1, Ne.symm hp.1, this.1.2⟩, ?_⟩
    rw [List.nodup_middle, List.nodup_cons]
    exact ⟨by simp only [List.mem_append, not_or]; exact hp.2, this.2⟩

omit [DecidableEq α] in
/-- No cell of the circle is its own neighbour. -/
theorem prev_ne (h : Twoway next prev a (l₁ ++ p :: l₂)) : prev p ≠ p := by
  obtain ⟨ps, z, -, -, hz, -, -, hzr⟩ := ends a l₁ ([] : List α)
  have hb := h.bwd
  rw [List.reverse_append, List.reverse_cons, List.append_assoc] at hb
  obtain ⟨qs, q, hq⟩ := exists_last a l₂.reverse
  obtain ⟨-, -, hc⟩ := (circular_append hq (@List.cons_append _ p l₁.reverse [a])).mp hb
  rw [List.cons_append, hzr] at hc
  rw [(List.isChain_cons_cons.mp hc).1]
  rintro rfl
  have hzm : z ∈ a :: l₁ := by simp [hz]
  have hnd := h.nodup
  rw [← List.cons_append] at hnd
  exact (List.nodup_append.mp hnd).2.2 z hzm z (by simp) rfl

/-- **Linking out** a cell: its neighbours point to each other. -/
theorem unlink (h : Twoway next prev a (l₁ ++ p :: l₂)) :
    Twoway (Function.update next (prev p) (next p)) (Function.update prev (next p) (prev p)) a
      (l₁ ++ l₂) := by
  obtain ⟨ps, z, q, qs, hz, hq, hqr, hzr⟩ := ends a l₁ l₂
  have hf := h.fwd
  have hb := h.bwd
  have hnd := h.nodup
  rw [List.reverse_append, List.reverse_cons, List.append_assoc] at hb
  obtain ⟨-, hzp, hc⟩ := (circular_append hz (@List.cons_append _ p l₂ [a])).mp hf
  rw [List.cons_append, hq] at hc
  obtain ⟨hpq, -⟩ := List.isChain_cons_cons.mp hc
  obtain ⟨-, hqp, hc⟩ := (circular_append hqr
    (@List.cons_append _ p l₁.reverse [a])).mp hb
  rw [List.cons_append, hzr] at hc
  obtain ⟨hpz, -⟩ := List.isChain_cons_cons.mp hc
  rw [hpq, hpz]
  have hzm : z ∈ a :: (l₁ ++ p :: l₂) := by
    rw [← List.cons_append, hz]
    simp
  have hqm : q ∈ a :: (l₂.reverse ++ p :: l₁.reverse) := by
    rw [← List.cons_append, hqr]
    simp
  refine ⟨(hf.remove _ hnd hzm hzp ?_ fun y _ hy => Function.update_of_ne hy _ _).1, ?_, ?_⟩
  · rw [Function.update_self, hpq]
  · rw [List.reverse_append]
    have hnr : (a :: (l₂.reverse ++ p :: l₁.reverse)).Nodup := by
      have := nodup_reverse hnd
      rwa [List.reverse_cons, List.append_assoc] at this
    refine (hb.remove _ hnr hqm hqp ?_ fun y _ hy => Function.update_of_ne hy _ _).1
    rw [Function.update_self, hpz]
  · exact hnd.sublist (by simp)

end Twoway

end Coherent.Lib
