import Coherent.Lib.Arena
import Coherent.Lib.Cells

/-!
The memory queue of segments: where they lie in core, and the walks that look for room.

Bases and sizes are numbers of clicks in 16 bits. The queue is in the order of the bases; its head
is a descriptor whose base and size are 0. The allocators take the top of core for the base of the
head. The swapper's test whether a process may fit takes the 0, so that for it the room above the
last segment reaches to the end of the 16 bits.
-/

namespace Coherent.CoreQueue

open Lib Lib.Arena Lib.Cells

/-! ### The code -/

/-- A segment descriptor; the flags are `SFCORE`, `SFDOWN` and `SFHIGH`. -/
structure SEG where
  s_core : Bool
  s_down : Bool
  s_high : Bool
  s_urefc : ℤ
  s_lrefc : ℤ
  s_size : ℕ
  s_mbase : ℕ
  s_dbase : ℕ

instance neZero_nine : NeZero 9 := ⟨by decide⟩

/-- A process: the flags `PFCORE`, `PFLOCK`, `PFSWIO`, `PFSWAP`, `PFKERN`, `PFAUXM`, `PFSPROTO` and
`PFSLIB`, the `NUSEG+1` slots of its segments, and those that its user area holds for `exec`. -/
structure PROC where
  p_core : Bool
  p_lock : Bool
  p_swio : Bool
  p_swap : Bool
  p_kern : Bool
  p_auxm : Bool
  p_sproto : Bool
  p_slib : Bool
  p_segp : Fin 9 → Option ℕ
  u_sege : List ℕ

/-- Core and the swap disk with their limits, the descriptors, the queues in the order of `s_forw`,
the process table, and what is in the clicks. A click is two disk blocks. -/
structure Core (β : Type*) where
  corebot : ℕ
  coretop : ℕ
  swapbot : ℕ
  swaptop : ℕ
  seg : ℕ → SEG
  segmq : List ℕ
  segdq : List ℕ
  procq : List ℕ
  proc : ℕ → PROC
  self : ℕ
  mem : Cells.Mem (β × β)
  disk : Cells.Mem β

/-- Differences are in 16 bits without a sign. -/
def sub16 (a b : ℕ) : ℕ := (a + 65536 - b) % 65536

variable {β : Type*}

/-- Where the segment ends. -/
def Core.past (c : Core β) (sp : ℕ) : ℕ := ((c.seg sp).s_mbase + (c.seg sp).s_size) % 65536

/-- The walk of `xmalloc` and `smalloc`: the queue with `sp2` in the first gap of `s` clicks, and
where the gap begins. -/
def Core.firstfit (c : Core β) (sp2 s : ℕ) : ℕ → List ℕ → Option (List ℕ × ℕ)
  | s1, [] => if s ≤ sub16 c.coretop s1 then some ([sp2], s1) else none
  | s1, sp1 :: q =>
    if s ≤ sub16 (c.seg sp1).s_mbase s1 then some (sp2 :: sp1 :: q, s1)
    else (c.firstfit sp2 s (c.past sp1) q).map fun r => (sp1 :: r.1, r.2)

/-- The swapper's own descriptor, cleared and placed at the low end. -/
def Core.xmalloc (c : Core β) (segswap s : ℕ) : Option (Core β) :=
  (c.firstfit segswap s c.corebot c.segmq).map fun r =>
    { c with
      seg := Function.update c.seg segswap ⟨false, false, false, 1, 1, s, r.2, 0⟩
      segmq := r.1 }

/-- The size of the largest segment of a process that is not in core. -/
def Core.largest (c : Core β) (pp : ℕ) : ℕ :=
  (List.finRange 9).foldl (fun s i =>
    match (c.proc pp).p_segp i with
    | none => s
    | some sp => if (c.seg sp).s_core then s
      else if s < (c.seg sp).s_size then (c.seg sp).s_size else s) 0

/-- The walk of `testcore`; it ends at the head, whose base is 0. -/
def Core.testgap (c : Core β) (s : ℕ) : ℕ → List ℕ → Bool
  | s1, [] => s ≤ sub16 0 s1
  | s1, sp :: q => s ≤ sub16 (c.seg sp).s_mbase s1 || c.testgap s (c.past sp) q

/-- Whether the process may fit in core. -/
def Core.testcore (c : Core β) (pp : ℕ) : Bool := c.testgap (c.largest pp) c.corebot c.segmq

/-! ### Queues in order -/

/-- The segments lie one above the other from `b` on, up to the top of core. -/
def Core.Placed (c : Core β) (b : ℕ) (q : List ℕ) : Prop :=
  Arena.Placed (fun x => (c.seg x).s_mbase) (fun x => (c.seg x).s_size) c.coretop b q

/-- Where the last segment ends, or the bottom of core. -/
def Core.last (c : Core β) (b : ℕ) (q : List ℕ) : ℕ :=
  Arena.last (fun x => (c.seg x).s_mbase) (fun x => (c.seg x).s_size) b q

/-- Where the first segment begins, or the top of core. -/
def Core.next (c : Core β) (q : List ℕ) : ℕ := Arena.next (fun x => (c.seg x).s_mbase) c.coretop q

/-- The gaps below the segments. -/
def Core.below (c : Core β) (b : ℕ) (q : List ℕ) : List ℕ :=
  Arena.below (fun x => (c.seg x).s_mbase) (fun x => (c.seg x).s_size) b q

/-- All gaps, the one below the top of core too. -/
def Core.gaps (c : Core β) : List ℕ :=
  c.below c.corebot c.segmq ++ [c.coretop - c.last c.corebot c.segmq]

/-- A queue in order. -/
structure Core.WF (c : Core β) : Prop where
  placed : c.Placed c.corebot c.segmq
  top : c.coretop < 65536

section
variable {c : Core β} {b s sp2 sp m : ℕ} {q q' : List ℕ}

lemma sub16_eq {a b : ℕ} (h : b ≤ a) (ha : a < 65536) : sub16 a b = a - b := by
  unfold sub16
  omega

lemma Core.past_eq (h : c.Placed b (sp :: q)) (ht : c.coretop < 65536) :
    c.past sp = (c.seg sp).s_mbase + (c.seg sp).s_size := by
  have h2 : (c.seg sp).s_mbase + (c.seg sp).s_size ≤ c.coretop := h.2.le
  exact Nat.mod_eq_of_lt (by omega)

lemma Core.gap_eq (h : c.Placed b (sp :: q)) (ht : c.coretop < 65536) :
    sub16 (c.seg sp).s_mbase b = (c.seg sp).s_mbase - b := by
  have h2 : (c.seg sp).s_mbase + (c.seg sp).s_size ≤ c.coretop := h.2.le
  exact sub16_eq h.1 (by omega)

lemma exists_mem_gaps {a : ℕ} {l : List ℕ} : (∃ g ∈ a :: l, s ≤ g) ↔ s ≤ a ∨ ∃ g ∈ l, s ≤ g := by
  simp only [List.mem_cons, or_and_right, exists_or, exists_eq_left]

/-- The allocators look for a gap. -/
lemma Core.firstfit_isSome (h : c.Placed b q) (ht : c.coretop < 65536) :
    (c.firstfit sp2 s b q).isSome ↔ ∃ g ∈ c.below b q ++ [c.coretop - c.last b q], s ≤ g := by
  induction q generalizing b with
  | nil =>
    have hb : b ≤ c.coretop := h
    unfold firstfit
    rw [sub16_eq hb ht]
    simp [below, last, Arena.below, Arena.last]
  | cons sp q ih =>
    unfold firstfit
    rw [Core.gap_eq h ht, Core.past_eq h ht]
    change _ ↔ ∃ g ∈ ((c.seg sp).s_mbase - b) :: (c.below _ q ++ [c.coretop - c.last _ q]), s ≤ g
    rw [exists_mem_gaps, ← ih h.2]
    by_cases hs : s ≤ (c.seg sp).s_mbase - b
    · rw [if_pos hs]
      exact iff_of_true rfl (Or.inl hs)
    · rw [if_neg hs, Option.isSome_map]
      exact (or_iff_right hs).symm

/-- Where they put the segment. -/
lemma Core.firstfit_some (h : c.Placed b q) (ht : c.coretop < 65536)
    (hf : c.firstfit sp2 s b q = some (q', m)) :
    ∃ l₁ l₂, q = l₁ ++ l₂ ∧ q' = l₁ ++ sp2 :: l₂ ∧ m = c.last b l₁ ∧ m + s ≤ c.next l₂ := by
  induction q generalizing b q' with
  | nil =>
    have hb : b ≤ c.coretop := h
    unfold firstfit at hf
    rw [sub16_eq hb ht] at hf
    split at hf
    · obtain ⟨rfl, rfl⟩ := Prod.mk.inj (Option.some.inj hf)
      exact ⟨[], [], rfl, rfl, rfl, by change b + s ≤ c.coretop; omega⟩
    · exact absurd hf (by simp)
  | cons sp q ih =>
    have h1 : b ≤ (c.seg sp).s_mbase := h.1
    unfold firstfit at hf
    rw [Core.gap_eq h ht, Core.past_eq h ht] at hf
    split at hf
    · obtain ⟨rfl, rfl⟩ := Prod.mk.inj (Option.some.inj hf)
      exact ⟨[], sp :: q, rfl, rfl, rfl, by change b + s ≤ (c.seg sp).s_mbase; omega⟩
    · obtain ⟨⟨r, m'⟩, hr, he⟩ := Option.map_eq_some_iff.mp hf
      obtain ⟨rfl, rfl⟩ := Prod.mk.inj he
      obtain ⟨l₁, l₂, rfl, rfl, hm, hn⟩ := ih h.2 hr
      exact ⟨sp :: l₁, l₂, rfl, rfl, hm, hn⟩

/-- The swapper's test sees the same gaps but the last, which has no end for it. -/
lemma Core.testgap_iff (h : c.Placed b q) (ht : c.coretop < 65536) :
    c.testgap s b q = true ↔ (∃ g ∈ c.below b q, s ≤ g) ∨ s ≤ sub16 0 (c.last b q) := by
  induction q generalizing b with
  | nil => simp [testgap, below, last, Arena.below, Arena.last]
  | cons sp q ih =>
    unfold testgap
    rw [Core.gap_eq h ht, Core.past_eq h ht, Bool.or_eq_true, ih h.2, decide_eq_true_iff,
      ← or_assoc, ← exists_mem_gaps]
    rfl

lemma Core.xmalloc_isSome (hc : c.WF) :
    (c.xmalloc sp2 s).isSome ↔ ∃ g ∈ c.gaps, s ≤ g := by
  unfold xmalloc
  rw [Option.isSome_map]
  exact firstfit_isSome hc.placed hc.top

end

/-- **The test and the allocator.** `xmalloc` finds a place just where there is a gap. `testcore`
says the same if a gap below a segment is large enough; if none is, it compares with the clicks up
to the end of the 16 bits, and says the same where the top of core makes no difference. -/
theorem testcore_iff {c : Core β} (hc : c.WF) (pp segswap : ℕ) :
    ((c.xmalloc segswap (c.largest pp)).isSome ↔ ∃ g ∈ c.gaps, c.largest pp ≤ g) ∧
    ((c.testcore pp = true ↔ (c.xmalloc segswap (c.largest pp)).isSome) ↔
      (∃ g ∈ c.below c.corebot c.segmq, c.largest pp ≤ g) ∨
      (c.largest pp ≤ (65536 - c.last c.corebot c.segmq) % 65536 ↔
        c.largest pp ≤ c.coretop - c.last c.corebot c.segmq)) := by
  refine ⟨Core.xmalloc_isSome hc, ?_⟩
  unfold Core.testcore
  rw [Core.xmalloc_isSome hc, Core.testgap_iff hc.placed hc.top]
  unfold Core.gaps
  have h0 : sub16 0 (c.last c.corebot c.segmq) =
      (65536 - c.last c.corebot c.segmq) % 65536 := by
    unfold sub16
    rw [Nat.zero_add]
  rw [h0]
  simp only [List.mem_append, List.mem_singleton, or_and_right, exists_or, exists_eq_left]
  by_cases h : ∃ g ∈ c.below c.corebot c.segmq, c.largest pp ≤ g
  · simp [h]
  · simp only [h, false_or]

/-- A megabyte of core with one segment of 100 clicks at the bottom, and two swapped processes with
a segment of 300 clicks and one of 2000. -/
def sample : Core ℕ where
  corebot := 100
  coretop := 1024
  swapbot := 0
  swaptop := 8000
  seg sp := if sp = 1 then ⟨true, false, false, 1, 1, 100, 100, 0⟩
    else ⟨false, false, false, 1, 1, if sp = 2 then 300 else 2000, 0, if sp = 2 then 0 else 600⟩
  segmq := [1]
  segdq := [2, 3]
  procq := [0, 1]
  proc pp := ⟨false, false, false, true, false, false, false, false, fun i =>
    if i = 7 then some (pp + 2) else none, []⟩
  self := 0
  mem := ⟨fun _ => 0⟩
  disk := ⟨fun _ => 0⟩

lemma sample_wf : sample.WF := ⟨by simp [Core.Placed, Arena.Placed, sample], by decide⟩

/-- The process with 300 clicks fits. -/
theorem testcore_fits : sample.testcore 0 = true ∧
    (sample.xmalloc 9 (sample.largest 0)).isSome := by
  have h := testcore_iff sample_wf 0 9
  have h1 : sample.testcore 0 = true := by decide
  exact ⟨h1, (h.2.mpr (Or.inr (by decide))).mp h1⟩

/-- A segment of 2000 clicks does not fit in core, and the test says that it does. -/
theorem testcore_fails : sample.WF ∧ sample.testcore 1 = true ∧
    (sample.xmalloc 9 (sample.largest 1)).isSome = false :=
  ⟨sample_wf, by decide, by decide⟩

end Coherent.CoreQueue
