import Coherent.Proc

/-!
The run queue under every interleaving of processes, interrupts and clock ticks.

A tick halves the `p_cval` of `SELF`. That is the priority of `SELF` as long as `SELF` is not
on the run queue, and it never is while it runs. But between the `spl` of `sleep` and the
`SELF = pp1` of `dispatch` an interrupt may wake `SELF` and put it on the queue, and then the
tick halves a difference instead.
-/

namespace Coherent.Proc

open Coherent.Lib Coherent.Lib.Delta

/-- The queued processes with their priorities, front first. -/
def Sys.prios (s : Sys) : List (Pid × Word) := Delta.prios s.p_cval s.procq s.runq

/-- The sum of the `p_cval` fields of the queue and of `procq`. -/
def Sys.total (s : Sys) : Word := Delta.total s.p_cval s.procq s.runq

/-- Non-increasing priorities. -/
def Sorted (l : List (Pid × Word)) : Prop := l.Pairwise fun e f => f.2 ≤ e.2

/-- **The run queue invariant.** -/
structure Queue (s : Sys) : Prop where
  total : s.total = 0
  sorted : Sorted s.prios
  nodup : s.runq.Nodup

variable {s : Sys} {p : Pid}

/-! ### `setrun` -/

lemma place_spec (P : Word) (r b : List Pid) (v : Word)
    (hv : v + nextCval s b = Delta.total s.p_cval s.procq b)
    (hb : ∀ e ∈ Delta.prios s.p_cval s.procq b, e.2 < P) :
    (place s P r b v).1.reverse ++ (place s P r b v).2.1 = r.reverse ++ b ∧
      (place s P r b v).2.2 = Delta.total s.p_cval s.procq (place s P r b v).2.1 ∧
      (∀ e ∈ Delta.prios s.p_cval s.procq (place s P r b v).2.1, e.2 < P) ∧
      ((place s P r b v).1 = [] ∨ P ≤ (place s P r b v).2.2) := by
  induction r generalizing b v with
  | nil =>
    unfold place
    split <;> exact ⟨rfl, hv, hb, Or.inl rfl⟩
  | cons q r ih =>
    unfold place
    by_cases h : v + nextCval s b ≥ P
    · rw [if_pos h]
      exact ⟨rfl, hv, hb, Or.inr h⟩
    · rw [if_neg h]
      have hlt : Delta.total s.p_cval s.procq b < P := by
        rw [← hv]; exact BitVec.not_le.mp h
      have hb' : ∀ e ∈ Delta.prios s.p_cval s.procq (q :: b), e.2 < P := by
        intro e he
        rcases List.mem_cons.mp he with rfl | he
        · exact hlt
        · exact hb e he
      have hv' : v + nextCval s b + nextCval s (q :: b) = Delta.total s.p_cval s.procq (q :: b) := by
        rw [hv, total_cons, add_comm]; rfl
      obtain ⟨h1, h2, h3, h4⟩ := ih (q :: b) _ hv' hb'
      exact ⟨by rw [h1]; simp, h2, h3, h4⟩

/-- **What `setrun` does**: the process enters the queue with the priority it has, behind
everything of at least that priority and in front of the rest; nothing else changes. -/
lemma setrun_spec (hnd : s.runq.Nodup) (hp : p ∉ s.runq) :
    ∃ a b, s.runq = a ++ b ∧ (setrun s p).runq = a ++ p :: b ∧
      s.prios = Delta.prios s.p_cval (Delta.total s.p_cval s.procq b) a
        ++ Delta.prios s.p_cval s.procq b ∧
      (setrun s p).prios = Delta.prios s.p_cval (Delta.total s.p_cval s.procq b) a
        ++ (p, s.p_cval p) :: Delta.prios s.p_cval s.procq b ∧
      (setrun s p).total = s.total ∧
      (∀ e ∈ Delta.prios s.p_cval s.procq b, e.2 < s.p_cval p) ∧
      (a = [] ∨ s.p_cval p ≤ Delta.total s.p_cval s.procq b) := by
  obtain ⟨h1, h2, h3, h4⟩ := place_spec (s := s) (s.p_cval p) s.runq.reverse [] 0
    (by simp [nextCval]) (by simp [Delta.prios])
  generalize hpl : place s (s.p_cval p) s.runq.reverse [] 0 = pl at *
  obtain ⟨r, b, v⟩ := pl
  simp only [List.reverse_reverse, List.append_nil] at h1 h2 h3 h4
  rw [← h1] at hnd hp
  have hins := insert_spec (c := s.p_cval) (v := s.procq) (w := s.p_cval p) hnd hp
  have hr : (setrun s p).runq = r.reverse ++ p :: b := by simp only [setrun, hpl]; rfl
  have hc : (setrun s p).p_cval = (Delta.insert s.p_cval s.procq b p (s.p_cval p)).1 ∧
      (setrun s p).procq = (Delta.insert s.p_cval s.procq b p (s.p_cval p)).2 := by
    simp only [setrun, hpl, addNext, Delta.insert, h2, neg_sub, and_self]
  refine ⟨r.reverse, b, h1.symm, hr, ?_, ?_, ?_, h3, ?_⟩
  · rw [Sys.prios, ← h1, prios_append]
  · rw [Sys.prios, hr, hc.1, hc.2, hins.1]
  · rw [Sys.total, hr, hc.1, hc.2, hins.2, h1]; rfl
  · rcases h4 with h4 | h4
    · exact Or.inl (by rw [h4]; rfl)
    · exact Or.inr (by rw [← h2]; exact h4)

/-- The priorities in a sorted list are at least the sum of what is behind the list. -/
lemma base_le_prios {c : Pid → Word} {w : Word} {a : List Pid}
    (h : Sorted (Delta.prios c w a)) : ∀ e ∈ Delta.prios c w a, w ≤ e.2 := by
  rcases List.eq_nil_or_concat a with rfl | ⟨a, q, rfl⟩
  · simp [Delta.prios]
  · rw [List.concat_eq_append, prios_append] at h ⊢
    simp only [Delta.prios, total_nil] at h ⊢
    intro e he
    rcases List.mem_append.mp he with he | he
    · exact (List.pairwise_append.mp h).2.2 e he (q, w) (by simp)
    · rw [List.mem_singleton.mp he]; exact BitVec.le_refl w

lemma Sorted.insert {x y : List (Pid × Word)} {P : Word} (h : Sorted (x ++ y))
    (hx : ∀ e ∈ x, P ≤ e.2) (hy : ∀ e ∈ y, e.2 < P) : Sorted (x ++ (p, P) :: y) := by
  obtain ⟨h1, h2, h3⟩ := List.pairwise_append.mp h
  refine List.pairwise_append.mpr ⟨h1, List.pairwise_cons.mpr ⟨?_, h2⟩, ?_⟩
  · exact fun e he => BitVec.le_of_lt (hy e he)
  · intro e he f hf
    rcases List.mem_cons.mp hf with rfl | hf
    · exact hx e he
    · exact h3 e he f hf

lemma Queue.setrun (h : Queue s) (hp : p ∉ s.runq) : Queue (setrun s p) := by
  obtain ⟨a, b, hr, hr', hpr, hpr', ht, hb, ha⟩ := setrun_spec h.nodup hp
  have hs := h.sorted
  rw [hpr] at hs
  refine ⟨by rw [ht, h.total], ?_, ?_⟩
  · rw [hpr']
    refine hs.insert (fun e he => ?_) hb
    rcases ha with rfl | ha
    · simp [Delta.prios] at he
    · exact BitVec.le_trans ha (base_le_prios (List.pairwise_append.mp hs).1 e he)
  · rw [hr', List.nodup_middle, List.nodup_cons, ← hr]
    exact ⟨hp, h.nodup⟩

/-! ### `dispatch` -/

lemma pick_none {l : List Pid} {v : Word} (h : pick s l v = none) : ∀ q ∈ l, s.core q = false := by
  induction l generalizing v with
  | nil => simp
  | cons q l ih =>
    rw [pick] at h
    split at h
    · simp at h
    · rw [Option.map_eq_none_iff] at h
      rename_i hc
      intro q' hq'
      rcases List.mem_cons.mp hq' with rfl | hq'
      · simpa using hc
      · exact ih h q' hq'

lemma pick_some {l a b : List Pid} {v w : Word} {q : Pid} (h : pick s l v = some (a, q, b, w)) :
    l = a ++ q :: b ∧ s.core q = true ∧ (∀ q' ∈ a, s.core q' = false) ∧
      w + Delta.total s.p_cval 0 (a ++ [q]) = v := by
  induction l generalizing v a with
  | nil => simp [pick] at h
  | cons q₀ l ih =>
    rw [pick] at h
    split at h
    · rename_i hc
      simp only [Option.some.injEq, Prod.mk.injEq] at h
      obtain ⟨rfl, rfl, rfl, rfl⟩ := h
      refine ⟨rfl, hc, by simp, ?_⟩
      simp
    · rename_i hc
      obtain ⟨⟨a', q', b', w'⟩, he, hm⟩ := Option.map_eq_some_iff.mp h
      simp only [Prod.mk.injEq] at hm
      obtain ⟨rfl, rfl, rfl, rfl⟩ := hm
      obtain ⟨h1, h2, h3, h4⟩ := ih he
      refine ⟨by rw [h1]; rfl, h2, ?_, ?_⟩
      · intro q'' hq''
        rcases List.mem_cons.mp hq'' with rfl | hq''
        · simpa using hc
        · exact h3 q'' hq''
      · rw [List.cons_append, total_cons, add_left_comm, h4]; abel

/-- **What `dispatch` does**: the first process in core leaves the queue with its priority in
`p_cval`, and no other priority changes. -/
lemma dispatch_spec (h : Queue s) :
    (∀ q ∈ s.runq, s.core q = false) ∧ dispatch s = (s.iprocp, s) ∨
    ∃ a q b, s.runq = a ++ q :: b ∧ (∀ q' ∈ a, s.core q' = false) ∧ s.core q = true ∧
      (dispatch s).1 = q ∧ (dispatch s).2.runq = a ++ b ∧
      s.prios = Delta.prios s.p_cval (Delta.total s.p_cval s.procq (q :: b)) a
        ++ (q, (dispatch s).2.p_cval q) :: Delta.prios s.p_cval s.procq b ∧
      (dispatch s).2.prios = Delta.prios s.p_cval (Delta.total s.p_cval s.procq (q :: b)) a
        ++ Delta.prios s.p_cval s.procq b ∧
      (dispatch s).2.total = s.total := by
  cases hpk : pick s s.runq 0 with
  | none => exact Or.inl ⟨pick_none hpk, by simp only [dispatch, hpk]⟩
  | some x =>
    obtain ⟨a, q, b, w⟩ := x
    obtain ⟨hr, hc, hca, hw⟩ := pick_some hpk
    have hnd := h.nodup
    rw [hr] at hnd
    have hrem := remove_spec (c := s.p_cval) (v := s.procq) hnd
    have hqb : ∀ q' ∈ a ++ b, q' ≠ q := by
      rintro q' hq' rfl
      exact (List.nodup_cons.mp (List.nodup_middle.mp hnd)).1 hq'
    -- the sum of the whole queue is zero, so what `v` lost in front is what is behind
    have hwb : w = Delta.total s.p_cval s.procq b := by
      have ht := h.total
      rw [Sys.total, hr, show a ++ q :: b = (a ++ [q]) ++ b by simp, total_append] at ht
      have e : Delta.total s.p_cval (Delta.total s.p_cval s.procq b) (a ++ [q]) =
          Delta.total s.p_cval s.procq b + Delta.total s.p_cval 0 (a ++ [q]) := by
        simp only [Delta.total, zero_add]
      rw [e] at ht
      exact add_right_cancel (hw.trans ht.symm)
    have hd1 : (dispatch s).1 = q := by simp only [dispatch, hpk]
    have hd2 : (dispatch s).2.runq = a ++ b := by simp only [dispatch, hpk]
    have hdq : (dispatch s).2.p_cval q = w := by
      simp only [dispatch, hpk, addNext, Function.update_self]
    have hdc : ∀ q' ∈ a ++ b, (dispatch s).2.p_cval q' =
        (Delta.bump s.p_cval s.procq b (s.p_cval q)).1 q' := by
      intro q' hq'
      simp only [dispatch, hpk, addNext, Function.update_of_ne (hqb q' hq')]
    have hdp : (dispatch s).2.procq = (Delta.bump s.p_cval s.procq b (s.p_cval q)).2 := by
      simp only [dispatch, hpk, addNext]
    refine Or.inr ⟨a, q, b, hr, hca, hc, hd1, hd2, ?_, ?_, ?_⟩
    · rw [Sys.prios, hr, prios_append, Delta.prios, hdq, hwb]
    · rw [Sys.prios, hd2, hdp, prios_congr hdc, hrem.1]
    · rw [Sys.total, hd2, hdp, total_congr hdc, hrem.2, Sys.total, hr]

lemma Queue.dispatch (h : Queue s) : Queue (dispatch s).2 := by
  rcases dispatch_spec h with ⟨-, he⟩ | ⟨a, q, b, hr, -, -, -, hr', hp, hp', ht⟩
  · rw [he]; exact h
  · have hs := h.sorted
    have hnd := h.nodup
    rw [hp] at hs
    rw [hr] at hnd
    refine ⟨by rw [ht, h.total], ?_, ?_⟩
    · rw [hp']
      exact hs.sublist ((List.sublist_cons_self _ _).append_left _)
    · rw [hr']
      exact (List.nodup_cons.mp (List.nodup_middle.mp hnd)).2

/-! ### The clock -/

/-- The part of `clock` that raises the priorities of the queue. -/
def aged (s : Sys) : Sys :=
  let s := { s with utimer := s.utimer + 1 }
  if nextCval s s.runq > CVCLOCK then
    let s := addNext s s.runq (-CVCLOCK)
    { s with procq := s.procq + CVCLOCK }
  else s

lemma clock_eq (s : Sys) : clock s = { aged s with
    p_cval := Function.update (aged s).p_cval (aged s).SELF ((aged s).p_cval (aged s).SELF >>> 1) } :=
  rfl

@[simp] lemma aged_runq (s : Sys) : (aged s).runq = s.runq := by unfold aged; dsimp only; split <;> rfl
@[simp] lemma aged_SELF (s : Sys) : (aged s).SELF = s.SELF := by unfold aged; dsimp only; split <;> rfl

/-- What a tick leaves alone. -/
lemma clock_frame (s : Sys) : (clock s).linkq = s.linkq ∧ (clock s).p_event = s.p_event ∧
    (clock s).p_state = s.p_state ∧ (clock s).iprocp = s.iprocp ∧ (clock s).SELF = s.SELF ∧
    (clock s).pc = s.pc := by
  rw [clock_eq]
  unfold aged
  dsimp only
  split <;> exact ⟨rfl, rfl, rfl, rfl, rfl, rfl⟩

/-- Aging keeps the order: the highest priority is not near the top of the range. -/
lemma Queue.aged (h : Queue s) : Queue (aged s) := by
  have ht := h.total
  have hs := h.sorted
  refine ⟨?_, ?_, by rw [aged_runq]; exact h.nodup⟩
  · rw [Sys.total, aged_runq]
    unfold Proc.aged
    dsimp only
    split
    · simp only [addNext]
      have e : ∀ (c : Pid → Word) (v : Word), Delta.total c (v + CVCLOCK) s.runq =
          Delta.total c v s.runq + CVCLOCK := by
        intro c v
        simp only [Delta.total]; abel
      rw [e, total_bump h.nodup, neg_add_cancel_right]
      exact ht
    · exact ht
  · rw [Sys.prios, aged_runq]
    unfold Proc.aged
    dsimp only
    split
    · rename_i hgt
      simp only [addNext]
      rw [prios_add, prios_bump h.nodup]
      cases hr : s.runq with
      | nil => exact List.Pairwise.nil
      | cons q l =>
        rw [Sys.prios, hr, Delta.prios] at hs
        rw [Sys.total, hr, total_cons] at ht
        have hq : Delta.total s.p_cval s.procq l < MAXU := by
          rw [hr] at hgt
          simp only [nextCval, CVCLOCK, MAXU] at hgt ⊢
          generalize Delta.total s.p_cval s.procq l = t at ht ⊢
          generalize s.p_cval q = c at ht hgt
          bv_omega
        have hle : ∀ e ∈ (q, Delta.total s.p_cval s.procq l) :: Delta.prios s.p_cval s.procq l,
            e.2 < MAXU := by
          intro e he
          rcases List.mem_cons.mp he with rfl | he
          · exact hq
          · have hle := (List.pairwise_cons.mp hs).1 e he
            bv_omega
        refine List.pairwise_map.mpr (List.Pairwise.imp_of_mem ?_ hs)
        intro e f he hf hef
        have h1 := hle e he
        have h2 := hle f hf
        simp only [MAXU, CVCLOCK] at h1 h2 ⊢
        generalize e.2 = x at hef h1 ⊢
        generalize f.2 = y at hef h2 ⊢
        bv_omega
    · exact hs

lemma aged_cval_zero (h : s.p_cval p = 0) (hd : s.runq.Nodup) (hp : p ∈ s.runq) :
    (aged s).p_cval p = 0 := by
  unfold aged
  dsimp only
  split
  · rename_i hgt
    cases hr : s.runq with
    | nil => rw [hr] at hp; simp at hp
    | cons q l =>
      rw [hr] at hgt hp hd
      have hne : p ≠ q := by
        rintro rfl
        simp [nextCval, h, CVCLOCK] at hgt
      simp only [addNext, Delta.bump, Function.update_of_ne hne]
      exact h
  · exact h

/-- A tick keeps the queue if it does not find `SELF` on it with a difference to halve. -/
lemma Queue.clock (h : Queue s) (hself : s.SELF ∈ s.runq → s.p_cval s.SELF = 0) :
    Queue (clock s) := by
  have ha := h.aged
  rw [clock_eq, aged_SELF]
  have hc : ∀ q ∈ (Proc.aged s).runq, Function.update (Proc.aged s).p_cval s.SELF
      ((Proc.aged s).p_cval s.SELF >>> 1) q = (Proc.aged s).p_cval q := by
    intro q hq
    by_cases he : q = s.SELF
    · subst he
      rw [aged_runq] at hq
      rw [Function.update_self, aged_cval_zero (hself hq) h.nodup hq]
      rfl
    · exact Function.update_of_ne he _ _
  refine ⟨?_, ?_, ha.nodup⟩
  · rw [Sys.total, total_congr hc]; exact ha.total
  · rw [Sys.prios, prios_congr hc]; exact ha.sorted

/-- A tick that finds `SELF` on the queue with a difference to halve breaks the sum. -/
lemma clock_total_ne (h : Queue s) (hself : s.SELF ∈ s.runq) (h0 : s.p_cval s.SELF ≠ 0) :
    (clock s).total ≠ 0 := by
  have ha := h.aged
  have hx : (aged s).p_cval s.SELF ≠ 0 := by
    unfold aged
    dsimp only
    split
    · rename_i hgt
      cases hr : s.runq with
      | nil => rw [hr] at hself; simp at hself
      | cons q l =>
        by_cases he : s.SELF = q
        · rw [hr] at hgt
          subst he
          simp only [addNext, Delta.bump, Function.update_self, nextCval, CVCLOCK] at hgt ⊢
          generalize s.p_cval s.SELF = c at hgt ⊢
          bv_omega
        · simp only [addNext, Delta.bump, Function.update_of_ne he]
          exact h0
    · exact h0
  rw [clock_eq, aged_SELF, Sys.total]
  dsimp only
  rw [total_update ha.nodup (by rw [aged_runq]; exact hself)]
  have ht := ha.total
  rw [Sys.total] at ht
  rw [ht, zero_add]
  generalize (aged s).p_cval s.SELF = x at hx ⊢
  intro he
  have hdiv : (x >>> 1).toNat = x.toNat / 2 := by simp [BitVec.toNat_ushiftRight, Nat.shiftRight_eq_div_pow]
  have heq : x >>> 1 = x := sub_eq_zero.mp he
  rw [heq] at hdiv
  exact hx (by bv_omega)

/-! ### Runs -/

/-- The queues: a process is on the run queue, on the sleep queue of its event, or on none. -/
structure Queues (s : Sys) : Prop extends Queue s where
  linked : ∀ h, (s.linkq h).Nodup
  asleep : ∀ p h, p ∈ s.linkq h ↔ s.p_state p = .PSSLEEP ∧ hash (s.p_event p) = h
  queued : ∀ p ∈ s.runq, s.p_state p = .PSRUN
  idle : s.iprocp ∉ s.runq ∧ s.p_state s.iprocp = .PSRUN

/-- **The invariant of the processor**: whoever runs, or has been chosen to, is off the queues. -/
structure Inv (s : Sys) : Prop extends Queues s where
  self : s.pc = .run → s.SELF ∉ s.runq ∧ s.p_state s.SELF = .PSRUN
  chosen : ∀ p, s.pc = .chosen p → p ∉ s.runq ∧ s.p_state p = .PSRUN

variable {t : Sys}

lemma Queue.congr (h : Queue s) (hr : t.runq = s.runq) (hq : t.procq = s.procq)
    (hc : ∀ q ∈ s.runq, t.p_cval q = s.p_cval q) : Queue t := by
  refine ⟨?_, ?_, by rw [hr]; exact h.nodup⟩
  · rw [Sys.total, hr, hq, total_congr hc]; exact h.total
  · rw [Sys.prios, hr, hq, prios_congr hc]; exact h.sorted

@[simp] lemma setrun_linkq : (setrun s p).linkq = s.linkq := rfl
@[simp] lemma setrun_event : (setrun s p).p_event = s.p_event := rfl
@[simp] lemma setrun_state : (setrun s p).p_state = Function.update s.p_state p .PSRUN := rfl
@[simp] lemma setrun_SELF : (setrun s p).SELF = s.SELF := rfl
@[simp] lemma setrun_iprocp : (setrun s p).iprocp = s.iprocp := rfl
@[simp] lemma setrun_pc : (setrun s p).pc = s.pc := rfl

lemma mem_setrun {q : Pid} (hnd : s.runq.Nodup) (hp : p ∉ s.runq) :
    q ∈ (setrun s p).runq ↔ q = p ∨ q ∈ s.runq := by
  obtain ⟨a, b, hr, hr', -⟩ := setrun_spec hnd hp
  rw [hr, hr']
  simp only [List.mem_append, List.mem_cons]
  tauto

/-- `setrun` of a process that is on no queue; its state may still say that it sleeps. -/
lemma Queues.setrun (hq : Queue s) (hp : p ∉ s.runq) (hi : p ≠ s.iprocp)
    (hl : ∀ h, (s.linkq h).Nodup)
    (ha : ∀ q h, q ∈ s.linkq h ↔ q ≠ p ∧ s.p_state q = .PSSLEEP ∧ hash (s.p_event q) = h)
    (hr : ∀ q ∈ s.runq, s.p_state q = .PSRUN)
    (hidle : s.iprocp ∉ s.runq ∧ s.p_state s.iprocp = .PSRUN) : Queues (setrun s p) where
  toQueue := hq.setrun hp
  linked := hl
  asleep q h := by
    rw [setrun_linkq, ha, setrun_state, setrun_event]
    by_cases he : q = p
    · subst he; simp
    · simp [he]
  queued q hq' := by
    rw [setrun_state]
    rcases (mem_setrun hq.nodup hp).mp hq' with rfl | hm
    · simp
    · have hne : q ≠ p := by rintro rfl; exact hp hm
      rw [Function.update_of_ne hne]
      exact hr q hm
  idle := by
    rw [setrun_iprocp, setrun_state, Function.update_of_ne hi.symm, mem_setrun hq.nodup hp]
    exact ⟨fun h => h.elim (fun e => hi e.symm) hidle.1, hidle.2⟩

/-- `setrun` of a process that runs. -/
lemma Queues.setrun_of_run (h : Queues s) (hp : p ∉ s.runq) (hst : s.p_state p ≠ .PSSLEEP)
    (hi : p ≠ s.iprocp) : Queues (Proc.setrun s p) := by
  refine Queues.setrun h.toQueue hp hi h.linked (fun q k => ?_) h.queued h.idle
  rw [h.asleep]
  refine ⟨fun hs => ⟨?_, hs⟩, fun hs => hs.2⟩
  rintro rfl
  exact hst hs.1

/-- Waking a process that sleeps. -/
lemma Queues.wake (h : Queues s) (hst : s.p_state p = .PSSLEEP) : Queues (wake s p) := by
  have hp : p ∉ s.runq := fun hm => by simpa [hst] using h.queued p hm
  have hi : p ≠ s.iprocp := by rintro rfl; simpa [hst] using h.idle.2
  refine Queues.setrun (h.toQueue.congr rfl rfl fun q hq => ?_) hp hi ?_ ?_ h.queued h.idle
  · exact Function.update_of_ne (by rintro rfl; exact hp hq) _ _
  · intro k
    by_cases hk : k = hash (s.p_event p)
    · subst hk
      simp only [Function.update_self]
      exact (h.linked _).erase p
    · simp only [Function.update_of_ne hk]
      exact h.linked k
  · intro q k
    by_cases hk : k = hash (s.p_event p)
    · subst hk
      simp only [Function.update_self]
      rw [(h.linked _).mem_erase_iff, h.asleep]
    · simp only [Function.update_of_ne hk]
      rw [h.asleep]
      refine ⟨fun hs => ⟨?_, hs⟩, fun hs => hs.2⟩
      rintro rfl
      exact hk hs.2.symm

/-- What `dispatch` leaves alone. -/
lemma dispatch_frame (s : Sys) : (dispatch s).2.linkq = s.linkq ∧
    (dispatch s).2.p_event = s.p_event ∧ (dispatch s).2.p_state = s.p_state ∧
    (dispatch s).2.iprocp = s.iprocp ∧ (dispatch s).2.SELF = s.SELF ∧ (dispatch s).2.pc = s.pc := by
  unfold dispatch
  split <;> exact ⟨rfl, rfl, rfl, rfl, rfl, rfl⟩

/-- `dispatch` chooses a process that is on no queue afterwards. -/
lemma Queues.dispatch (h : Queues s) : Queues (dispatch s).2 ∧
    (dispatch s).1 ∉ (dispatch s).2.runq ∧ (dispatch s).2.p_state (dispatch s).1 = .PSRUN := by
  obtain ⟨hl, he, hst, hi, -, -⟩ := dispatch_frame s
  have hsub : ∀ q ∈ (Proc.dispatch s).2.runq, q ∈ s.runq := by
    rcases dispatch_spec h.toQueue with ⟨-, e⟩ | ⟨a, q, b, hr, -, -, -, hr', -⟩
    · rw [e]; exact fun q hq => hq
    · rw [hr, hr']
      intro q' hq'
      rcases List.mem_append.mp hq' with hq' | hq' <;> simp [hq']
  refine ⟨⟨h.toQueue.dispatch, ?_, ?_, ?_, ?_⟩, ?_⟩
  · rw [hl]; exact h.linked
  · rw [hl, he, hst]; exact h.asleep
  · rw [hst]; exact fun q hq => h.queued q (hsub q hq)
  · rw [hi, hst]; exact ⟨fun hm => h.idle.1 (hsub _ hm), h.idle.2⟩
  · rw [hst]
    rcases dispatch_spec h.toQueue with ⟨-, e⟩ | ⟨a, q, b, hr, -, -, hq, hr', -⟩
    · rw [e]; exact h.idle
    · have hnd := h.nodup
      rw [hr] at hnd
      rw [hq, hr']
      exact ⟨(List.nodup_cons.mp (List.nodup_middle.mp hnd)).1, h.queued q (by simp [hr])⟩

lemma Queues.switch (h : Queues s) (hp : p ∉ s.runq) (hst : s.p_state p = .PSRUN) :
    Inv (switch s p) where
  toQueue := h.toQueue.congr rfl rfl fun _ _ => rfl
  linked := h.linked
  asleep := h.asleep
  queued := h.queued
  idle := h.idle
  self _ := ⟨hp, hst⟩
  chosen _ he := by simp [Proc.switch] at he

/-- `SELF` gives up the processor at high priority. -/
lemma Inv.yield (h : Inv s) (hpc : s.pc = .run) (hi : s.SELF ≠ s.iprocp) : Inv (yield s) := by
  obtain ⟨hself, hst⟩ := h.self hpc
  obtain ⟨hq, h1, h2⟩ := (h.toQueues.setrun_of_run hself (by simp [hst]) hi).dispatch
  exact hq.switch h1 h2

/-- Waking keeps the processor where it is. -/
lemma Inv.wake (h : Inv s) (hst : s.p_state p = .PSSLEEP) : Inv (wake s p) := by
  have hp : p ∉ s.runq := fun hm => by simpa [hst] using h.queued p hm
  have hrun : ∀ q, q ∉ s.runq ∧ s.p_state q = .PSRUN →
      q ∉ (Proc.wake s p).runq ∧ (Proc.wake s p).p_state q = .PSRUN := by
    rintro q ⟨hq, hqs⟩
    have hne : q ≠ p := by rintro rfl; simp [hst] at hqs
    have hcongr : Queue { s with
        linkq := Function.update s.linkq (hash (s.p_event p)) ((s.linkq (hash (s.p_event p))).erase p)
        p_cval := Function.update s.p_cval p
          (addu (s.p_cval p) ((s.utimer - s.p_lctim p) * CVCLOCK)) } :=
      h.toQueue.congr rfl rfl fun r hr => Function.update_of_ne (by rintro rfl; exact hp hr) _ _
    refine ⟨?_, ?_⟩
    · rw [Proc.wake, mem_setrun hcongr.nodup hp]
      exact fun hm => hm.elim hne hq
    · rw [Proc.wake, setrun_state, Function.update_of_ne hne]
      exact hqs
  exact ⟨h.toQueues.wake hst, fun hpc => hrun _ (h.self hpc), fun q hpc => hrun _ (h.chosen q hpc)⟩

/-- A step is safe if it is not a tick that finds `SELF` on the queue with a difference to halve. -/
def Safe (s : Sys) (o : Op) : Prop :=
  match o with
  | .clock => s.SELF ∈ s.runq → s.p_cval s.SELF = 0
  | _ => True

/-- A change of `p_cval` off the queue. -/
lemma Inv.cval (h : Inv s) (hp : p ∉ s.runq) (w : Word) :
    Inv { s with p_cval := Function.update s.p_cval p w } where
  toQueue := h.toQueue.congr rfl rfl fun _ hr =>
    Function.update_of_ne (by rintro rfl; exact hp hr) _ _
  linked := h.linked
  asleep := h.asleep
  queued := h.queued
  idle := h.idle
  self := h.self
  chosen := h.chosen

/-- **One step** keeps the invariant if it is safe. -/
lemma step_inv (s : Sys) (o : Op) (t : Sys) (h : Inv s) (hst : Step s o t) (hsafe : Safe s o) :
    Inv t := by
  cases hst with
  | sleep e cl hpc hi =>
    obtain ⟨hself, hrun⟩ := h.self hpc
    have hnl : ∀ k, s.SELF ∉ s.linkq k := fun k hm => by simpa [hrun] using ((h.asleep _ _).mp hm).1
    have hne : ∀ q ∈ s.runq, q ≠ s.SELF := by rintro q hq rfl; exact hself hq
    refine ⟨⟨h.toQueue.congr rfl rfl fun q hq => Function.update_of_ne (hne q hq) _ _, ?_, ?_, ?_,
      h.idle.1, ?_⟩, fun hpc' => by simp [Proc.sleep] at hpc', fun q hpc' => by simp [Proc.sleep] at hpc'⟩
    · intro k
      by_cases hk : k = hash e
      · subst hk
        simp only [Proc.sleep, Function.update_self]
        exact (List.nodup_append.mpr ⟨h.linked _, by simp, by
          rintro a ha b hb rfl
          exact hnl _ (List.mem_singleton.mp hb ▸ ha)⟩)
      · simp only [Proc.sleep, Function.update_of_ne hk]
        exact h.linked k
    · intro q k
      simp only [Proc.sleep]
      by_cases hq : q = s.SELF
      · subst hq
        simp only [Function.update_self, true_and]
        by_cases hk : k = hash e
        · subst hk; simp
        · simp only [Function.update_of_ne hk, hnl k, false_iff]
          exact fun e' => hk e'.symm
      · simp only [Function.update_of_ne hq]
        by_cases hk : k = hash e
        · subst hk
          simp only [Function.update_self, List.mem_append, List.mem_singleton, hq, or_false]
          exact h.asleep q _
        · simp only [Function.update_of_ne hk]
          exact h.asleep q k
    · intro q hq
      simp only [Proc.sleep, Function.update_of_ne (hne q hq)]
      exact h.queued q hq
    · simp only [Proc.sleep, Function.update_of_ne hi.symm]
      exact h.idle.2
  | pexit hpc hi =>
    obtain ⟨hself, hrun⟩ := h.self hpc
    have hne : ∀ q ∈ s.runq, q ≠ s.SELF := by rintro q hq rfl; exact hself hq
    refine ⟨⟨h.toQueue.congr rfl rfl fun _ _ => rfl, h.linked, ?_, ?_, h.idle.1, ?_⟩,
      fun hpc' => by simp at hpc', fun q hpc' => by simp at hpc'⟩
    · intro q k
      dsimp only
      rw [h.asleep]
      by_cases hq : q = s.SELF
      · subst hq; simp [hrun]
      · simp [hq]
    · intro q hq
      simp only [Function.update_of_ne (hne q hq)]
      exact h.queued q hq
    · simp only [Function.update_of_ne hi.symm]
      exact h.idle.2
  | dispatch hpc =>
    obtain ⟨hq, h1, h2⟩ := h.toQueues.dispatch
    refine ⟨⟨hq.toQueue.congr rfl rfl fun _ _ => rfl, hq.linked, hq.asleep, hq.queued, hq.idle⟩,
      fun hpc' => by simp at hpc', fun q hpc' => ?_⟩
    obtain rfl : (Proc.dispatch s).1 = q := by simpa using hpc'
    exact ⟨h1, h2⟩
  | switch hpc =>
    obtain ⟨h1, h2⟩ := h.chosen _ hpc
    exact h.toQueues.switch h1 h2
  | awake cl hpc => exact h.cval (h.self hpc).1 _
  | stand hpc =>
    unfold Proc.stand
    split
    · rename_i hi
      exact h.yield hpc hi
    · obtain ⟨hq, h1, h2⟩ := h.toQueues.dispatch
      exact hq.switch h1 h2
  | segfinm hpc hi =>
    have hcore : Inv { s with core := Function.update s.core s.SELF false } :=
      ⟨⟨h.toQueue.congr rfl rfl fun _ _ => rfl, h.linked, h.asleep, h.queued, h.idle⟩, h.self, h.chosen⟩
    exact hcore.yield hpc hi
  | @pfork cpp hpc hr hs hself hi =>
    have hc := h.cval hr CVCHILD
    refine ⟨hc.toQueues.setrun_of_run hr hs hi, fun _ => ?_, fun q hpc' => ?_⟩
    · obtain ⟨h1, h2⟩ := h.self hpc
      refine ⟨?_, ?_⟩
      · rw [Proc.pfork, mem_setrun hc.nodup hr]
        exact fun hm => hm.elim (fun e => hself e.symm) h1
      · rw [Proc.pfork, setrun_state, setrun_SELF, Function.update_of_ne hself.symm]
        exact h2
    · rw [Proc.pfork, setrun_pc] at hpc'
      simp [hpc] at hpc'
  | setcore pp b hpc =>
    exact ⟨⟨h.toQueue.congr rfl rfl fun _ _ => rfl, h.linked, h.asleep, h.queued, h.idle⟩, h.self,
      h.chosen⟩
  | wakeup e =>
    unfold Proc.wakeup
    split
    · exact h
    · rename_i pp hf
      exact h.wake ((h.asleep _ _).mp (List.mem_of_find?_eq_some hf)).1
  | sendsig pp =>
    unfold Proc.sendsig
    split
    · rename_i hs
      exact h.wake hs
    · exact h
  | clock =>
    have hr : (Proc.clock s).runq = s.runq := by rw [clock_eq]; exact aged_runq s
    obtain ⟨hl, he, hs, hi, hS, hp⟩ := clock_frame s
    refine ⟨⟨h.toQueue.clock hsafe, ?_, ?_, ?_, ?_⟩, ?_, ?_⟩
    · rw [hl]; exact h.linked
    · rw [hl, he, hs]; exact h.asleep
    · rw [hr, hs]; exact h.queued
    · rw [hr, hs, hi]; exact h.idle
    · rw [hr, hs, hS, hp]; exact h.self
    · rw [hr, hs, hp]; exact h.chosen

/-- The system when the first process starts: `pcsinit` has made every queue empty. -/
structure Booted (s : Sys) : Prop where
  runq : s.runq = []
  linkq : ∀ h, s.linkq h = []
  procq : s.procq = 0
  awake : ∀ p, s.p_state p ≠ .PSSLEEP
  idle : s.p_state s.iprocp = .PSRUN
  self : s.p_state s.SELF = .PSRUN
  pc : s.pc = .run

lemma Booted.inv (h : Booted s) : Inv s where
  total := by rw [Sys.total, h.runq, h.procq]; rfl
  sorted := by rw [Sys.prios, h.runq]; exact List.Pairwise.nil
  nodup := by rw [h.runq]; exact List.nodup_nil
  linked k := by rw [h.linkq]; exact List.nodup_nil
  asleep p k := by simp [h.linkq, h.awake]
  queued p hp := by simp [h.runq] at hp
  idle := ⟨by simp [h.runq], h.idle⟩
  self _ := ⟨by simp [h.runq], h.self⟩
  chosen p hp := by simp [h.pc] at hp

/-- A safe step of the system. -/
def SafeStep (s : Sys) (o : Op) (t : Sys) : Prop := Step s o t ∧ Safe s o

/-- **The run queue over every interleaving without an unsafe tick.** In every state reached
the values sum to zero and the priorities do not increase along the queue; `setrun` inserts a
process with the priority it has and changes no other; `dispatch` gives the process it takes
off the queue its priority, and changes no other; and an unsafe tick would break the sum. -/
theorem run_queue_runs {s₀ : Sys} {ops : List Op} (h₀ : Booted s₀)
    (hrun : Run SafeStep s₀ ops s) :
    s.total = 0 ∧ Sorted s.prios ∧
    (∀ p ∉ s.runq, ∃ x y, s.prios = x ++ y ∧ (setrun s p).prios = x ++ (p, s.p_cval p) :: y) ∧
    (∀ q ∈ s.runq, (dispatch s).1 = q → ∃ x y,
      s.prios = x ++ (q, (dispatch s).2.p_cval q) :: y ∧ (dispatch s).2.prios = x ++ y) ∧
    ((clock s).total = 0 ↔ Safe s .clock) := by
  have h : Inv s := hrun.invariant (fun s o t h hst => step_inv s o t h hst.1 hst.2) h₀.inv
  refine ⟨h.total, h.sorted, ?_, ?_, ?_, fun hs => (h.toQueue.clock hs).total⟩
  · intro p hp
    obtain ⟨a, b, -, -, hpr, hpr', -⟩ := setrun_spec h.nodup hp
    exact ⟨_, _, hpr, hpr'⟩
  · intro q hq hd
    rcases dispatch_spec h.toQueue with ⟨-, e⟩ | ⟨a, q', b, -, -, -, hq', -, hpr, hpr', -⟩
    · rw [e] at hd
      subst hd
      exact absurd hq h.idle.1
    · obtain rfl : q' = q := hq'.symm.trans hd
      exact ⟨_, _, hpr, hpr'⟩
  · intro ht hq
    by_contra h0
    exact clock_total_ne h.toQueue hq h0 ht

/-- Process 1 runs, process 0 is the idle one, and everything is zero. -/
def booted : Sys where
  p_cval _ := 0
  p_state _ := .PSRUN
  p_event _ := 0
  p_lctim _ := 0
  core _ := true
  procq := 0
  runq := []
  linkq _ := []
  SELF := 1
  iprocp := 0
  utimer := 0
  pc := .run

lemma booted_booted : Booted booted := ⟨rfl, fun _ => rfl, rfl, fun _ => by simp [booted], rfl, rfl, rfl⟩

def CVBLKIO : Word := 32767

/-- Process 1 has gone to sleep for a block and has been woken before it calls `dispatch`. -/
def wokenEarly : Sys := wakeup (sleep booted 2 CVBLKIO) 2

/-- Up to there the queue is in order. -/
theorem wokenEarly_in_order : wokenEarly.total = 0 ∧ Sorted wokenEarly.prios := by
  have h1 : SafeStep booted (.sleep 2 CVBLKIO) (sleep booted 2 CVBLKIO) :=
    ⟨.sleep 2 CVBLKIO rfl (by decide), trivial⟩
  have h2 : SafeStep (sleep booted 2 CVBLKIO) (.wakeup 2) wokenEarly := ⟨.wakeup 2, trivial⟩
  have hrun := Run.snoc (Run.snoc (Run.nil booted) h1) h2
  obtain ⟨ht, hs, -⟩ := run_queue_runs booted_booted hrun
  exact ⟨ht, hs⟩

/-- A tick there halves the difference of process 1, and the sum is no longer zero. -/
theorem wokenEarly_tick : ∃ ops s, Booted booted ∧ Run Step booted ops s ∧ s.total ≠ 0 := by
  have hrun : Run Step booted (([] ++ [.sleep 2 CVBLKIO]) ++ [.wakeup 2]) wokenEarly :=
    .snoc (.snoc (.nil booted) (.sleep 2 CVBLKIO rfl (by decide))) (.wakeup 2)
  exact ⟨_, clock wokenEarly, booted_booted, .snoc hrun .clock, by decide +kernel⟩

end Coherent.Proc
