import Mathlib.Tactic

/-!
A window of one over two queues that lose but do not reorder: the sender repeats what it sends until
it hears that the receiver has it, and the receiver answers everything that comes, with what it
expects next.

Everything is counted from zero here; that the numbers on the line are taken modulo something does
not matter, since only two can be under way.
-/

namespace Coherent.Lib

/-- The sender sends `k`, the receiver waits for `m`; what is under way there, and the answers. -/
structure StopWait (k m : ℕ) (there back : List ℕ) : Prop where
  le : k ≤ m
  near : m ≤ k + 1
  there_mono : there.Pairwise (· ≤ ·)
  there_mem : ∀ j ∈ there, m ≤ j + 1 ∧ j ≤ k
  back_mono : back.Pairwise (· ≤ ·)
  back_mem : ∀ e ∈ back, k ≤ e ∧ e ≤ m

namespace StopWait

variable {k m j e M : ℕ} {there back there' back' : List ℕ}

lemma start : StopWait 0 0 [] [] := by
  constructor <;> simp

/-- The sender sends, the first time or again. -/
lemma send (h : StopWait k m there back) : StopWait k m (there ++ [k]) back := by
  refine { h with there_mono := ?_, there_mem := ?_ }
  · rw [List.pairwise_append]
    refine ⟨h.there_mono, List.pairwise_singleton _ _, fun i hi j hj => ?_⟩
    rw [List.mem_singleton.mp hj]
    exact (h.there_mem i hi).2
  · intro j hj
    rcases List.mem_append.mp hj with hj | hj
    · exact h.there_mem j hj
    · rw [List.mem_singleton.mp hj]
      exact ⟨h.near, le_rfl⟩

/-- Whatever is lost on the way there. -/
lemma lose_there (h : StopWait k m there back) (hs : List.Sublist there' there) :
    StopWait k m there' back :=
  { h with
    there_mono := h.there_mono.sublist hs
    there_mem := fun j hj => h.there_mem j (hs.subset hj) }

/-- Whatever is lost on the way back. -/
lemma lose_back (h : StopWait k m there back) (hs : List.Sublist back' back) :
    StopWait k m there back' :=
  { h with
    back_mono := h.back_mono.sublist hs
    back_mem := fun e he => h.back_mem e (hs.subset he) }

/-- The receiver says what it waits for. -/
lemma answer (h : StopWait k m there back) : StopWait k m there (back ++ [m]) := by
  refine { h with back_mono := ?_, back_mem := ?_ }
  · rw [List.pairwise_append]
    refine ⟨h.back_mono, List.pairwise_singleton _ _, fun e he i hi => ?_⟩
    rw [List.mem_singleton.mp hi]
    exact (h.back_mem e he).2
  · intro e he
    rcases List.mem_append.mp he with he | he
    · exact h.back_mem e he
    · rw [List.mem_singleton.mp he]
      exact ⟨h.le, le_rfl⟩

/-- What comes is what the receiver waits for, or what it has had last. -/
lemma comes (h : StopWait k m (j :: there) back) : j = m ∨ j + 1 = m := by
  have := h.there_mem j List.mem_cons_self
  have := h.le
  omega

/-- Both sides are at one place when something new comes. -/
lemma comes_new (h : StopWait k m (m :: there) back) : m = k := by
  have := h.there_mem m List.mem_cons_self
  have := h.le
  omega

/-- The receiver takes what it waits for. -/
lemma accept (h : StopWait k m (m :: there) back) : StopWait k (m + 1) there back := by
  have hk := h.comes_new
  refine { h with le := ?_, near := ?_, there_mono := ?_, there_mem := ?_, back_mem := ?_ }
  · omega
  · omega
  · exact (List.pairwise_cons.mp h.there_mono).2
  · intro j hj
    have := (List.pairwise_cons.mp h.there_mono).1 j hj
    have := (h.there_mem j (List.mem_cons_of_mem _ hj)).2
    omega
  · intro e he
    have := h.back_mem e he
    omega

/-- An answer is one to what the sender sends, or one to what it has sent before. -/
lemma heard (h : StopWait k m there (e :: back)) : e = k + 1 ∨ e = k := by
  have := h.back_mem e List.mem_cons_self
  have := h.near
  omega

/-- The receiver is ahead when the sender hears of it. -/
lemma heard_new (h : StopWait k m there ((k + 1) :: back)) : m = k + 1 := by
  have := h.back_mem (k + 1) List.mem_cons_self
  have := h.near
  omega

/-- The sender goes on. -/
lemma next (h : StopWait k m there ((k + 1) :: back)) : StopWait (k + 1) m there back := by
  have hm := h.heard_new
  refine { h with le := ?_, near := ?_, there_mem := ?_, back_mono := ?_, back_mem := ?_ }
  · omega
  · omega
  · intro j hj
    have := h.there_mem j hj
    omega
  · exact (List.pairwise_cons.mp h.back_mono).2
  · intro e he
    have := (List.pairwise_cons.mp h.back_mono).1 e he
    have := (h.back_mem e (List.mem_cons_of_mem _ he)).2
    omega

end StopWait

/-! ### What is on the line -/

/-- A queue carries the numbered things in this order, with noise between them. -/
inductive Carries {α : Type*} (P : ℕ → α → Prop) (N : α → Prop) : List ℕ → List α → Prop
  | nil : Carries P N [] []
  | good {j : ℕ} {c : α} {js : List ℕ} {cs : List α} :
      P j c → Carries P N js cs → Carries P N (j :: js) (c :: cs)
  | noise {c : α} {js : List ℕ} {cs : List α} :
      N c → Carries P N js cs → Carries P N js (c :: cs)

namespace Carries

variable {α : Type*} {P : ℕ → α → Prop} {N : α → Prop} {js : List ℕ} {cs : List α} {c : α}

lemma snoc {j : ℕ} (h : Carries P N js cs) (hc : P j c) : Carries P N (js ++ [j]) (cs ++ [c]) := by
  induction h with
  | nil => exact .good hc .nil
  | good h1 _ ih => exact .good h1 ih
  | noise h1 _ ih => exact .noise h1 ih

lemma append_noise {ds : List α} (h : Carries P N js cs) (hds : ∀ c ∈ ds, N c) :
    Carries P N js (cs ++ ds) := by
  induction h with
  | nil =>
    rw [List.nil_append]
    induction ds with
    | nil => exact .nil
    | cons c ds ih =>
      exact .noise (hds c List.mem_cons_self) (ih fun d hd => hds d (List.mem_cons_of_mem _ hd))
  | good h1 _ ih => exact .good h1 ih
  | noise h1 _ ih => exact .noise h1 ih

lemma erase (h : Carries P N js cs) (i : ℕ) :
    ∃ js', List.Sublist js' js ∧ Carries P N js' (cs.eraseIdx i) := by
  induction h generalizing i with
  | nil => exact ⟨[], .refl _, .nil⟩
  | @good j c js cs h1 h2 ih =>
    cases i with
    | zero => exact ⟨js, .cons _ (.refl _), h2⟩
    | succ i =>
      obtain ⟨js', hs, hc⟩ := ih i
      exact ⟨j :: js', hs.cons_cons j, .good h1 hc⟩
  | noise h1 h2 ih =>
    cases i with
    | zero => exact ⟨_, .refl _, h2⟩
    | succ i =>
      obtain ⟨js', hs, hc⟩ := ih i
      exact ⟨js', hs, .noise h1 hc⟩

lemma damage (h : Carries P N js cs) (hc : N c) (i : ℕ) :
    ∃ js', List.Sublist js' js ∧ Carries P N js' (cs.set i c) := by
  induction h generalizing i with
  | nil => exact ⟨[], .refl _, .nil⟩
  | @good j c js cs h1 h2 ih =>
    cases i with
    | zero => exact ⟨js, .cons _ (.refl _), .noise hc h2⟩
    | succ i =>
      obtain ⟨js', hs, hc'⟩ := ih i
      exact ⟨j :: js', hs.cons_cons j, .good h1 hc'⟩
  | noise h1 h2 ih =>
    cases i with
    | zero => exact ⟨_, .refl _, .noise hc h2⟩
    | succ i =>
      obtain ⟨js', hs, hc'⟩ := ih i
      exact ⟨js', hs, .noise h1 hc'⟩

/-- What comes first is noise, or the first of the numbered things. -/
lemma uncons (h : Carries P N js (c :: cs)) :
    N c ∧ Carries P N js cs ∨ ∃ j js', js = j :: js' ∧ P j c ∧ Carries P N js' cs := by
  cases h with
  | good h1 h2 => exact Or.inr ⟨_, _, rfl, h1, h2⟩
  | noise h1 h2 => exact Or.inl ⟨h1, h2⟩

end Carries

end Coherent.Lib
