import Coherent.CorePack

/-!
Segments on their way between core and the swap disk. Wherever the swapper puts a segment, and
whatever the order in which it moves them, each keeps its size and its contents.
-/

namespace Coherent.CoreQueue

open Lib Lib.Arena Lib.Cells

variable {β : Type*}

/-! ### The code -/

/-- The swapper's own descriptor. -/
def segswap : ℕ := 0

/-- A queue from which `sp₁` is taken and in which it takes the place of `sp₂`. -/
def splice (sp₁ sp₂ : ℕ) (l : List ℕ) : List ℕ :=
  (l.filter (· ≠ sp₁)).map fun x => if x = sp₂ then sp₁ else x

/-- The links of `satcopy`, `segcore` and `segdisk`. -/
def Core.relink (c : Core β) (sp₁ sp₂ : ℕ) : Core β :=
  { c with segmq := splice sp₁ sp₂ c.segmq, segdq := splice sp₁ sp₂ c.segdq }

/-- The swapper's own descriptor, cleared and placed at the high end of the disk. -/
def Core.xdalloc (c : Core β) (s : ℕ) : Option (Core β) :=
  (fitHigh (fun x => (c.seg x).s_dbase) (fun x => 2 * (c.seg x).s_size) c.swapbot (2 * s) segswap
    c.swaptop c.segdq.reverse).map fun r =>
    { c with
      seg := Function.update c.seg segswap ⟨false, false, false, 1, 1, s, 0, r.2⟩
      segdq := r.1.reverse }

/-- `swapio` into core, click by click. -/
def swapin (disk : Mem β) : ℕ → ℕ → ℕ → Mem (β × β) → Mem (β × β)
  | _, _, 0, m => m
  | c, d, n + 1, m => swapin disk (c + 1) (d + 2) n (m.set c (disk.cell d, disk.cell (d + 1)))

/-- `swapio` to the disk. -/
def swapout (m : Mem (β × β)) : ℕ → ℕ → ℕ → Mem β → Mem β
  | _, _, 0, disk => disk
  | c, d, n + 1, disk =>
    swapout m (c + 1) (d + 2) n ((disk.set d (m.cell c).1).set (d + 1) (m.cell c).2)

/-- Swaps the segment into core. -/
def Core.segcore (c : Core β) (sp₁ : ℕ) : Core β × Bool :=
  match c.xmalloc segswap (c.seg sp₁).s_size with
  | none => (c, false)
  | some c₁ =>
    let sp₂ := c₁.seg segswap
    let c₂ := c₁.relink sp₁ segswap
    ({ c₂ with
      mem := swapin c.disk sp₂.s_mbase (c.seg sp₁).s_dbase sp₂.s_size c.mem
      seg := Function.update c₁.seg sp₁
        { c.seg sp₁ with s_core := true, s_mbase := sp₂.s_mbase } }, true)

/-- Swaps the segment out onto disk. -/
def Core.segdisk (c : Core β) (sp₁ : ℕ) : Core β × Bool :=
  match c.xdalloc (c.seg sp₁).s_size with
  | none => (c, false)
  | some c₁ =>
    let sp₂ := c₁.seg segswap
    let c₂ := c₁.relink sp₁ segswap
    ({ c₂ with
      disk := swapout c.mem (c.seg sp₁).s_mbase sp₂.s_dbase (c.seg sp₁).s_size c.disk
      seg := Function.update c₁.seg sp₁
        { c.seg sp₁ with s_core := false, s_dbase := sp₂.s_dbase } }, true)

/-- Adds to `s_lrefc`. -/
def Core.lref (c : Core β) (sp : ℕ) (d : ℤ) : Core β :=
  { c with seg := Function.update c.seg sp { c.seg sp with s_lrefc := (c.seg sp).s_lrefc + d } }

/-- One slot of `proccore`; `f` is `PFSWAP`. -/
def Core.slotcore (f : Bool) (r : Core β × ℕ) (slot : Option ℕ) : Core β × ℕ :=
  match slot with
  | none => r
  | some sp =>
    let c := if f then r.1.lref sp 1 else r.1
    if (c.seg sp).s_core then (c, r.2)
    else
      match c.segcore sp with
      | (c₁, true) => (c₁, r.2)
      | (c₁, false) => (c₁, r.2 + 1)

/-- One slot of `procdisk`; `f` says that the segment has still a lock of this process. -/
def Core.slotdisk (f : Bool) (r : Core β × ℕ) (slot : Option ℕ) : Core β × ℕ :=
  match slot with
  | none => r
  | some sp =>
    let c := if f then r.1.lref sp (-1) else r.1
    if (c.seg sp).s_core = false then (c, r.2)
    else if (c.seg sp).s_lrefc = 0 then
      match c.segdisk sp with
      | (c₁, true) => (c₁, r.2 + 1)
      | (c₁, false) => (c₁, r.2)
    else (c, r.2)

/-- Swaps the segments of a process into core; the number of those still out is returned. -/
def Core.proccore (c : Core β) (pp : ℕ) : Core β × ℕ :=
  let p := c.proc pp
  let (c₁, n) := ((List.finRange 9).map p.p_segp).foldl (Core.slotcore p.p_swap) (c, 0)
  ({ c₁ with
    proc := Function.update c₁.proc pp { p with
      p_core := n = 0 || p.p_core
      p_sproto := n = 0 || p.p_sproto
      p_swap := false } }, n)

/-- Swaps out the segments of a process. -/
def Core.procdisk (c : Core β) (pp : ℕ) : Core β × ℕ :=
  let p := c.proc pp
  let (c₁, n) := ((List.finRange 9).map p.p_segp).foldl (Core.slotdisk (!p.p_swap)) (c, 0)
  ({ c₁ with proc := Function.update c₁.proc pp { p with p_core := false, p_swap := true } }, n)

/-- Swaps out the segments that the user area of a process holds for `exec`. -/
def Core.auxmdisk (c : Core β) (pp : ℕ) : Core β :=
  let p := c.proc pp
  let (c₁, _) := (p.u_sege.map some).foldl (Core.slotdisk p.p_auxm) (c, 0)
  { c₁ with proc := Function.update c₁.proc pp { p with p_auxm := false } }

/-- What the swapper does with a process. -/
inductive Swap
  | proccore (pp : ℕ)
  | procdisk (pp : ℕ)
  | auxmdisk (pp : ℕ)

def Core.swap (c : Core β) : Swap → Core β
  | .proccore pp => (c.proccore pp).1
  | .procdisk pp => (c.procdisk pp).1
  | .auxmdisk pp => c.auxmdisk pp

/-! ### Contents -/

/-- The segment is in one of the queues. -/
def Core.Live (c : Core β) (x : ℕ) : Prop := x ∈ c.segmq ∨ x ∈ c.segdq

/-- What is in a click of a segment, wherever it is. -/
def Core.click (c : Core β) (x i : ℕ) : β × β :=
  if (c.seg x).s_core then c.mem.cell ((c.seg x).s_mbase + i)
  else (c.disk.cell ((c.seg x).s_dbase + 2 * i), c.disk.cell ((c.seg x).s_dbase + 2 * i + 1))

/-- The segments of the disk queue lie one above the other. -/
def Core.Stored (c : Core β) (b : ℕ) (q : List ℕ) : Prop :=
  Arena.Placed (fun x => (c.seg x).s_dbase) (fun x => 2 * (c.seg x).s_size) c.swaptop b q

/-- Both queues are in order and hold what their flags say; processes have segments of them. -/
structure Core.Sound (c : Core β) : Prop where
  wf : c.WF
  nodup : c.segmq.Nodup
  stored : c.Stored c.swapbot c.segdq
  dnodup : c.segdq.Nodup
  core : ∀ x ∈ c.segmq, (c.seg x).s_core = true
  disk : ∀ x ∈ c.segdq, (c.seg x).s_core = false
  own : ¬c.Live segswap
  slots : ∀ pp i x, (c.proc pp).p_segp i = some x → c.Live x
  sege : ∀ pp, ∀ x ∈ (c.proc pp).u_sege, c.Live x

/-- Every segment has kept its size and contents. -/
structure Core.Kept (c c' : Core β) : Prop where
  limits : c'.corebot = c.corebot ∧ c'.coretop = c.coretop ∧ c'.swapbot = c.swapbot ∧
    c'.swaptop = c.swaptop
  self : c'.self = c.self
  live : ∀ x, c'.Live x ↔ c.Live x
  attr : ∀ x, c.Live x → (c'.seg x).s_size = (c.seg x).s_size ∧
    (c'.seg x).s_down = (c.seg x).s_down
  click : ∀ x, c.Live x → ∀ i < (c.seg x).s_size, c'.click x i = c.click x i

namespace Core.Kept
variable {c c' c'' : Core β}

lemma refl : c.Kept c :=
  ⟨⟨rfl, rfl, rfl, rfl⟩, rfl, fun _ => Iff.rfl, fun _ _ => ⟨rfl, rfl⟩, fun _ _ _ _ => rfl⟩

lemma trans (h : c.Kept c') (h' : c'.Kept c'') : c.Kept c'' where
  limits := ⟨h'.limits.1.trans h.limits.1, h'.limits.2.1.trans h.limits.2.1,
    h'.limits.2.2.1.trans h.limits.2.2.1, h'.limits.2.2.2.trans h.limits.2.2.2⟩
  self := h'.self.trans h.self
  live x := (h'.live x).trans (h.live x)
  attr x hx := by
    have h1 := h.attr x hx
    have h2 := h'.attr x ((h.live x).mpr hx)
    exact ⟨h2.1.trans h1.1, h2.2.trans h1.2⟩
  click x hx i hi := by
    rw [h'.click x ((h.live x).mpr hx) i (by rw [(h.attr x hx).1]; exact hi), h.click x hx i hi]

end Core.Kept

section
variable {c c' : Core β} {sp sp₁ sp₂ x a d d₂ m n i p s : ℕ} {l₁ l₂ q q' : List ℕ}
  {disk : Mem β} {mem : Mem (β × β)}

lemma splice_filter (h : sp₂ ∉ q) : splice sp₁ sp₂ q = q.filter (· ≠ sp₁) := by
  unfold splice
  refine (List.map_congr_left fun x hx => ?_).trans (List.map_id _)
  refine if_neg fun he => h ?_
  rw [← he]
  exact (List.mem_filter.mp hx).1

lemma splice_append (h : sp₂ ∉ l₁ ++ l₂) (hne : sp₂ ≠ sp₁) :
    splice sp₁ sp₂ (l₁ ++ sp₂ :: l₂) =
      l₁.filter (· ≠ sp₁) ++ sp₁ :: l₂.filter (· ≠ sp₁) := by
  rw [List.mem_append, not_or] at h
  have h1 : splice sp₁ sp₂ (l₁ ++ sp₂ :: l₂) =
      splice sp₁ sp₂ l₁ ++ (if sp₂ = sp₂ then sp₁ else sp₂) :: splice sp₁ sp₂ l₂ := by
    unfold splice
    rw [List.filter_append, List.filter_cons_of_pos (by simpa using hne), List.map_append,
      List.map_cons]
  rw [h1, if_pos rfl, splice_filter h.1, splice_filter h.2]

lemma filter_of_notMem (h : x ∉ q) : q.filter (· ≠ x) = q :=
  List.filter_eq_self.mpr fun y hy => by
    rw [decide_eq_true_iff]
    exact fun he => h (he ▸ hy)

lemma swapin_of_apart (h : x < a ∨ a + n ≤ x) : (swapin disk a d n mem).cell x = mem.cell x := by
  induction n generalizing a d mem with
  | zero => rfl
  | succ n ih =>
    unfold swapin
    rw [ih (by omega), set_of_ne (by omega)]

lemma swapin_in (hi : i < n) : (swapin disk a d n mem).cell (a + i) =
    (disk.cell (d + 2 * i), disk.cell (d + 2 * i + 1)) := by
  induction n generalizing a d i mem with
  | zero => omega
  | succ n ih =>
    unfold swapin
    cases i with
    | zero =>
      rw [swapin_of_apart (by omega)]
      exact set_self
    | succ i =>
      have h1 : a + (i + 1) = a + 1 + i := by omega
      have h2 : d + 2 * (i + 1) = d + 2 + 2 * i := by omega
      rw [h1, h2, ih (by omega)]

lemma swapout_of_apart (h : x < d ∨ d + 2 * n ≤ x) :
    (swapout mem a d n disk).cell x = disk.cell x := by
  induction n generalizing a d disk with
  | zero => rfl
  | succ n ih =>
    unfold swapout
    rw [ih (by omega), set_of_ne (by omega), set_of_ne (by omega)]

lemma swapout_in (hi : i < n) : (swapout mem a d n disk).cell (d + 2 * i) = (mem.cell (a + i)).1 ∧
    (swapout mem a d n disk).cell (d + 2 * i + 1) = (mem.cell (a + i)).2 := by
  induction n generalizing a d i disk with
  | zero => omega
  | succ n ih =>
    unfold swapout
    cases i with
    | zero =>
      rw [swapout_of_apart (by omega), swapout_of_apart (by omega)]
      exact ⟨(set_of_ne (by omega)).trans set_self, set_self⟩
    | succ i =>
      have h1 : a + (i + 1) = a + 1 + i := by omega
      have h2 : d + 2 * (i + 1) = d + 2 + 2 * i := by omega
      rw [h1, h2]
      exact ih (by omega)

lemma mem_put : x ∈ l₁.filter (· ≠ sp) ++ sp :: l₂.filter (· ≠ sp) ↔ x = sp ∨ x ∈ l₁ ++ l₂ := by
  rcases eq_or_ne x sp with rfl | hx
  · simp
  · simp [hx]

lemma nodup_put (h : (l₁ ++ l₂).Nodup) :
    (l₁.filter (· ≠ sp) ++ sp :: l₂.filter (· ≠ sp)).Nodup := by
  rw [List.nodup_middle, ← List.filter_append, List.nodup_cons]
  exact ⟨fun hm => by simp at hm, h.filter _⟩

lemma mem_filter_ne : x ∈ q.filter (· ≠ sp) ↔ x ∈ q ∧ x ≠ sp := by
  rw [List.mem_filter, decide_eq_true_iff]

end

/-- What does not concern the place of a segment. -/
structure Core.Rest (c c' : Core β) (sp : ℕ) : Prop where
  limits : c'.corebot = c.corebot ∧ c'.coretop = c.coretop ∧ c'.swapbot = c.swapbot ∧
    c'.swaptop = c.swaptop
  self : c'.self = c.self
  slots : ∀ pp, (c'.proc pp).p_segp = (c.proc pp).p_segp ∧
    (c'.proc pp).u_sege = (c.proc pp).u_sege
  seg : ∀ x, c.Live x → x ≠ sp → c'.seg x = c.seg x

/-- The segment comes to lie in core between `l₁` and `l₂`, the others stay; core changes only in
that gap. -/
structure Core.Settles (c c' : Core β) (sp : ℕ) (l₁ l₂ : List ℕ) : Prop extends c.Rest c' sp where
  placed : c.Placed c.corebot (l₁ ++ l₂)
  nodup : (l₁ ++ l₂).Nodup
  others : ∀ x ≠ sp, x ∈ l₁ ++ l₂ ↔ x ∈ c.segmq
  live : c.Live sp
  segmq : c'.segmq = l₁.filter (· ≠ sp) ++ sp :: l₂.filter (· ≠ sp)
  segdq : c'.segdq = c.segdq.filter (· ≠ sp)
  core : (c'.seg sp).s_core = true
  low : c.last c.corebot l₁ ≤ (c'.seg sp).s_mbase
  high : (c'.seg sp).s_mbase + (c'.seg sp).s_size ≤ c.next l₂
  mem : ∀ p, p < c.last c.corebot l₁ ∨ c.next l₂ ≤ p → c'.mem.cell p = c.mem.cell p
  disk : c'.disk = c.disk

/-- The segment comes to lie on the disk between `l₁` and `l₂`. -/
structure Core.Leaves (c c' : Core β) (sp : ℕ) (l₁ l₂ : List ℕ) : Prop extends c.Rest c' sp where
  segdq_eq : c.segdq = l₁ ++ l₂
  live : sp ∈ c.segmq
  segdq : c'.segdq = l₁.filter (· ≠ sp) ++ sp :: l₂.filter (· ≠ sp)
  segmq : c'.segmq = c.segmq.filter (· ≠ sp)
  core : (c'.seg sp).s_core = false
  low : Arena.last (fun x => (c.seg x).s_dbase) (fun x => 2 * (c.seg x).s_size) c.swapbot l₁ ≤
    (c'.seg sp).s_dbase
  high : (c'.seg sp).s_dbase + 2 * (c'.seg sp).s_size ≤
    Arena.next (fun x => (c.seg x).s_dbase) c.swaptop l₂
  disk : ∀ p, p < Arena.last (fun x => (c.seg x).s_dbase) (fun x => 2 * (c.seg x).s_size)
      c.swapbot l₁ ∨ Arena.next (fun x => (c.seg x).s_dbase) c.swaptop l₂ ≤ p →
    c'.disk.cell p = c.disk.cell p
  mem : c'.mem = c.mem

section
variable {c c' : Core β} {sp x : ℕ} {l₁ l₂ : List ℕ}

lemma Core.Sound.apart (h : c.Sound) {y : ℕ} (hx : x ∈ c.segmq) (hy : y ∈ c.segdq) : x ≠ y :=
  fun he => by
    have h1 := h.core x hx
    rw [he, h.disk y hy] at h1
    exact absurd h1 (by simp)

/-- Processes hold segments of the queues. -/
lemma Core.Rest.owned (hr : c.Rest c' sp) (h : c.Sound) (hl : ∀ x, c'.Live x ↔ c.Live x) :
    (¬c'.Live segswap) ∧ (∀ pp i x, (c'.proc pp).p_segp i = some x → c'.Live x) ∧
    ∀ pp, ∀ x ∈ (c'.proc pp).u_sege, c'.Live x := by
  refine ⟨fun hx => h.own ((hl _).mp hx), fun pp i x hx => (hl x).mpr ?_,
    fun pp x hx => (hl x).mpr ?_⟩
  · rw [(hr.slots pp).1] at hx
    exact h.slots pp i x hx
  · rw [(hr.slots pp).2] at hx
    exact h.sege pp x hx

namespace Core.Settles

lemma live_iff (hs : c.Settles c' sp l₁ l₂) (x : ℕ) : c'.Live x ↔ c.Live x := by
  unfold Core.Live
  rw [hs.segmq, hs.segdq, mem_put, mem_filter_ne]
  rcases eq_or_ne x sp with rfl | hx
  · exact iff_of_true (Or.inl (Or.inl rfl)) hs.live
  · rw [hs.others x hx]
    simp [hx]

lemma sound (hs : c.Settles c' sp l₁ l₂) (h : c.Sound) : c'.Sound := by
  obtain ⟨h1, h2, h3⟩ := hs.owned h hs.live_iff
  have hseg : ∀ y ∈ l₁ ++ l₂, y ≠ sp → c'.seg y = c.seg y := fun y hy hne =>
    hs.seg y (Or.inl ((hs.others y hne).mp hy)) hne
  have hdisk : ∀ y ∈ c'.segdq, y ∈ c.segdq ∧ c'.seg y = c.seg y := fun y hy => by
    rw [hs.segdq, mem_filter_ne] at hy
    exact ⟨hy.1, hs.seg y (Or.inr hy.1) hy.2⟩
  refine ⟨⟨?_, ?_⟩, ?_, ?_, ?_, ?_, fun y hy => ?_, h1, h2, h3⟩
  · unfold Core.Placed
    rw [hs.segmq, hs.limits.1, hs.limits.2.1]
    exact Arena.Placed.put hs.placed hs.low hs.high fun y hy hne => by
      rw [hseg y hy hne]
      exact ⟨rfl, rfl⟩
  · rw [hs.limits.2.1]
    exact h.wf.top
  · rw [hs.segmq]
    exact nodup_put hs.nodup
  · unfold Core.Stored
    rw [hs.limits.2.2.1, hs.limits.2.2.2]
    refine Arena.Placed.congr (Arena.Placed.sublist h.stored ?_) fun y hy => ?_
    · rw [hs.segdq]
      exact List.filter_sublist
    · rw [(hdisk y hy).2]
      exact ⟨rfl, rfl⟩
  · rw [hs.segdq]
    exact h.dnodup.filter _
  · intro y hy
    rw [hs.segmq, mem_put] at hy
    rcases eq_or_ne y sp with rfl | hne
    · exact hs.core
    · have hy := hy.resolve_left hne
      rw [hseg y hy hne]
      exact h.core y ((hs.others y hne).mp hy)
  · rw [(hdisk y hy).2]
    exact h.disk y (hdisk y hy).1

/-- The other segments keep what they hold. -/
lemma click (hs : c.Settles c' sp l₁ l₂) (h : c.Sound) (hx : c.Live x) (hne : x ≠ sp) {i : ℕ}
    (hi : i < (c.seg x).s_size) : c'.click x i = c.click x i := by
  unfold Core.click
  rw [hs.seg x hx hne, hs.disk]
  rcases hx with hx | hx
  · have hout := Arena.Placed.outside hs.placed ((hs.others x hne).mpr hx)
    rw [if_pos (h.core x hx), if_pos (h.core x hx)]
    refine hs.mem _ ?_
    rcases hout with ho | ho
    · exact Or.inl (lt_of_lt_of_le (Nat.add_lt_add_left hi _) ho)
    · exact Or.inr (le_trans ho (Nat.le_add_right _ _))
  · have hf := h.disk x hx
    rw [if_neg (by simp [hf]), if_neg (by simp [hf])]

end Core.Settles

namespace Core.Leaves

lemma live_iff (hs : c.Leaves c' sp l₁ l₂) (x : ℕ) : c'.Live x ↔ c.Live x := by
  unfold Core.Live
  rw [hs.segmq, hs.segdq, mem_put, mem_filter_ne, ← hs.segdq_eq]
  rcases eq_or_ne x sp with rfl | hx
  · exact iff_of_true (Or.inr (Or.inl rfl)) (Or.inl hs.live)
  · simp [hx]

lemma sound (hs : c.Leaves c' sp l₁ l₂) (h : c.Sound) : c'.Sound := by
  obtain ⟨h1, h2, h3⟩ := hs.owned h hs.live_iff
  have hseg : ∀ y ∈ l₁ ++ l₂, y ≠ sp → c'.seg y = c.seg y := fun y hy hne =>
    hs.seg y (Or.inr (hs.segdq_eq ▸ hy)) hne
  have hcore : ∀ y ∈ c'.segmq, y ∈ c.segmq ∧ c'.seg y = c.seg y := fun y hy => by
    rw [hs.segmq, mem_filter_ne] at hy
    exact ⟨hy.1, hs.seg y (Or.inl hy.1) hy.2⟩
  have hst : c.Stored c.swapbot (l₁ ++ l₂) := hs.segdq_eq ▸ h.stored
  refine ⟨⟨?_, ?_⟩, ?_, ?_, ?_, fun y hy => ?_, ?_, h1, h2, h3⟩
  · unfold Core.Placed
    rw [hs.limits.1, hs.limits.2.1]
    refine Arena.Placed.congr (Arena.Placed.sublist h.wf.placed ?_) fun y hy => ?_
    · rw [hs.segmq]
      exact List.filter_sublist
    · rw [(hcore y hy).2]
      exact ⟨rfl, rfl⟩
  · rw [hs.limits.2.1]
    exact h.wf.top
  · rw [hs.segmq]
    exact h.nodup.filter _
  · unfold Core.Stored
    rw [hs.segdq, hs.limits.2.2.1, hs.limits.2.2.2]
    exact Arena.Placed.put hst hs.low hs.high fun y hy hne => by
      rw [hseg y hy hne]
      exact ⟨rfl, rfl⟩
  · rw [hs.segdq]
    exact nodup_put (hs.segdq_eq ▸ h.dnodup)
  · rw [(hcore y hy).2]
    exact h.core y (hcore y hy).1
  · intro y hy
    rw [hs.segdq, mem_put] at hy
    rcases eq_or_ne y sp with rfl | hne
    · exact hs.core
    · have hy := hy.resolve_left hne
      rw [hseg y hy hne]
      exact h.disk y (hs.segdq_eq ▸ hy)

lemma click (hs : c.Leaves c' sp l₁ l₂) (h : c.Sound) (hx : c.Live x) (hne : x ≠ sp) {i : ℕ}
    (hi : i < (c.seg x).s_size) : c'.click x i = c.click x i := by
  unfold Core.click
  rw [hs.seg x hx hne, hs.mem]
  rcases hx with hx | hx
  · rw [if_pos (h.core x hx), if_pos (h.core x hx)]
  · have hf := h.disk x hx
    have hst : c.Stored c.swapbot (l₁ ++ l₂) := hs.segdq_eq ▸ h.stored
    have hout : (c.seg x).s_dbase + 2 * (c.seg x).s_size ≤ _ ∨ _ ≤ (c.seg x).s_dbase :=
      Arena.Placed.outside hst (hs.segdq_eq ▸ hx)
    rw [if_neg (by simp [hf]), if_neg (by simp [hf]), hs.disk _ (by omega), hs.disk _ (by omega)]

end Core.Leaves

/-- A segment that comes into core with its contents. -/
lemma Core.Sound.settle (l₁ l₂ : List ℕ) (h : c.Sound) (hs : c.Settles c' sp l₁ l₂)
    (ha : (c'.seg sp).s_size = (c.seg sp).s_size ∧ (c'.seg sp).s_down = (c.seg sp).s_down)
    (hc : ∀ i < (c.seg sp).s_size, c'.click sp i = c.click sp i) : c'.Sound ∧ c.Kept c' := by
  refine ⟨hs.sound h, hs.limits, hs.self, hs.live_iff, fun x hx => ?_, fun x hx i hi => ?_⟩
  · rcases eq_or_ne x sp with rfl | hne
    · exact ha
    · rw [hs.seg x hx hne]
      exact ⟨rfl, rfl⟩
  · rcases eq_or_ne x sp with rfl | hne
    · exact hc i hi
    · exact hs.click h hx hne hi

/-- A segment that goes to the disk with its contents. -/
lemma Core.Sound.leave (l₁ l₂ : List ℕ) (h : c.Sound) (hs : c.Leaves c' sp l₁ l₂)
    (ha : (c'.seg sp).s_size = (c.seg sp).s_size ∧ (c'.seg sp).s_down = (c.seg sp).s_down)
    (hc : ∀ i < (c.seg sp).s_size, c'.click sp i = c.click sp i) : c'.Sound ∧ c.Kept c' := by
  refine ⟨hs.sound h, hs.limits, hs.self, hs.live_iff, fun x hx => ?_, fun x hx i hi => ?_⟩
  · rcases eq_or_ne x sp with rfl | hne
    · exact ha
    · rw [hs.seg x hx hne]
      exact ⟨rfl, rfl⟩
  · rcases eq_or_ne x sp with rfl | hne
    · exact hc i hi
    · exact hs.click h hx hne hi

lemma Core.click_core (hc : (c.seg x).s_core = true) (i : ℕ) :
    c.click x i = c.mem.cell ((c.seg x).s_mbase + i) := if_pos hc

lemma Core.click_disk (hc : (c.seg x).s_core = false) (i : ℕ) :
    c.click x i = (c.disk.cell ((c.seg x).s_dbase + 2 * i),
      c.disk.cell ((c.seg x).s_dbase + 2 * i + 1)) := if_neg (by simp [hc])

/-- Swapping a segment in keeps all contents. -/
lemma Core.segcore_kept (h : c.Sound) (hsp : sp ∈ c.segdq) :
    (c.segcore sp).1.Sound ∧ c.Kept (c.segcore sp).1 := by
  unfold segcore
  rcases hx : c.xmalloc segswap (c.seg sp).s_size with _ | c₁
  · exact ⟨h, Core.Kept.refl⟩
  dsimp only
  obtain ⟨⟨q', m⟩, hf, rfl⟩ := Option.map_eq_some_iff.mp hx
  obtain ⟨l₁, l₂, hq, rfl, rfl, hn⟩ := Core.firstfit_some h.wf.placed h.wf.top hf
  have hsw := not_or.mp h.own
  have hne : segswap ≠ sp := fun he => hsw.2 (he ▸ hsp)
  dsimp only
  rw [Function.update_self]
  dsimp only
  refine Core.Sound.settle l₁ l₂ h ⟨⟨⟨rfl, rfl, rfl, rfl⟩, rfl, fun _ => ⟨rfl, rfl⟩,
    fun x hx hxs => ?_⟩, hq ▸ h.wf.placed, hq ▸ h.nodup, fun x _ => by rw [hq], Or.inr hsp,
    splice_append (hq ▸ hsw.1) hne, splice_filter hsw.2, ?_, ?_, ?_,
    fun p hp => swapin_of_apart (by omega), rfl⟩ ?_ fun i hi => ?_
  · refine (Function.update_of_ne hxs ..).trans (Function.update_of_ne (fun he => ?_) ..)
    rw [he] at hx
    exact h.own hx
  · dsimp only
    rw [Function.update_self]
  · dsimp only
    rw [Function.update_self]
  · dsimp only
    rw [Function.update_self]
    exact hn
  · dsimp only
    rw [Function.update_self]
    exact ⟨rfl, rfl⟩
  · rw [Core.click_core (by dsimp only; rw [Function.update_self]), Core.click_disk (h.disk sp hsp)]
    dsimp only
    rw [Function.update_self]
    exact swapin_in hi

/-- Swapping a segment out keeps all contents. -/
lemma Core.segdisk_kept (h : c.Sound) (hsp : sp ∈ c.segmq) :
    (c.segdisk sp).1.Sound ∧ c.Kept (c.segdisk sp).1 := by
  unfold segdisk
  rcases hx : c.xdalloc (c.seg sp).s_size with _ | c₁
  · exact ⟨h, Core.Kept.refl⟩
  dsimp only
  obtain ⟨⟨q', m⟩, hf, rfl⟩ := Option.map_eq_some_iff.mp hx
  have hst : Arena.Placed _ _ _ _ c.segdq.reverse.reverse :=
    (List.reverse_reverse c.segdq).symm ▸ h.stored
  obtain ⟨l₁, l₂, hq, hq', hm, hn⟩ := Arena.Placed.fitHigh_some hst hf
  rw [List.reverse_reverse] at hq
  have hsw := not_or.mp h.own
  have hne : segswap ≠ sp := fun he => hsw.1 (he ▸ hsp)
  dsimp only
  rw [hq', Function.update_self]
  dsimp only
  refine Core.Sound.leave l₁ l₂ h ⟨⟨⟨rfl, rfl, rfl, rfl⟩, rfl, fun _ => ⟨rfl, rfl⟩,
    fun x hx hxs => ?_⟩, hq, hsp, splice_append (hq ▸ hsw.2) hne, splice_filter hsw.1,
    ?_, ?_, ?_, fun p hp => swapout_of_apart (by omega), rfl⟩ ?_ fun i hi => ?_
  · refine (Function.update_of_ne hxs ..).trans (Function.update_of_ne (fun he => ?_) ..)
    rw [he] at hx
    exact h.own hx
  · dsimp only
    rw [Function.update_self]
  · dsimp only
    rw [Function.update_self]
    exact hm
  · dsimp only
    rw [Function.update_self]
    exact hn
  · dsimp only
    rw [Function.update_self]
    exact ⟨rfl, rfl⟩
  · rw [Core.click_disk (by dsimp only; rw [Function.update_self]), Core.click_core (h.core sp hsp)]
    dsimp only
    rw [Function.update_self]
    exact Prod.ext (swapout_in hi).1 (swapout_in hi).2

/-- Locks, flags of processes and slots do not matter for the contents. -/
lemma Core.Sound.recount (h : c.Sound) {g : ℕ → SEG} {p : ℕ → PROC}
    (hg : ∀ x, g x = { c.seg x with s_lrefc := (g x).s_lrefc })
    (hp : ∀ pp i x, (p pp).p_segp i = some x → c.Live x)
    (hu : ∀ pp, ∀ x ∈ (p pp).u_sege, c.Live x) :
    Core.Sound { c with seg := g, proc := p } ∧ c.Kept { c with seg := g, proc := p } := by
  refine ⟨⟨⟨?_, h.wf.top⟩, h.nodup, ?_, h.dnodup, fun x hx => ?_, fun x hx => ?_, h.own, hp, hu⟩,
    ⟨rfl, rfl, rfl, rfl⟩, rfl, fun _ => Iff.rfl, fun x _ => ?_, fun x _ i _ => ?_⟩
  · exact Arena.Placed.congr h.wf.placed fun x _ => by
      dsimp only
      rw [hg x]
      exact ⟨rfl, rfl⟩
  · exact Arena.Placed.congr h.stored fun x _ => by
      dsimp only
      rw [hg x]
      exact ⟨rfl, rfl⟩
  · dsimp only
    rw [hg x]
    exact h.core x hx
  · dsimp only
    rw [hg x]
    exact h.disk x hx
  · dsimp only
    rw [hg x]
    exact ⟨rfl, rfl⟩
  · cases hx : (c.seg x).s_core with
    | true =>
      rw [Core.click_core hx, Core.click_core (by dsimp only; rw [hg x]; exact hx)]
      dsimp only
      rw [hg x]
    | false =>
      rw [Core.click_disk hx, Core.click_disk (by dsimp only; rw [hg x]; exact hx)]
      dsimp only
      rw [hg x]

lemma Core.lref_kept (h : c.Sound) (sp : ℕ) (d : ℤ) :
    (c.lref sp d).Sound ∧ c.Kept (c.lref sp d) := by
  refine h.recount (fun x => ?_) h.slots h.sege
  rcases eq_or_ne x sp with rfl | hx
  · rw [Function.update_self]
  · rw [Function.update_of_ne hx]

lemma Core.lref_if_kept (h : c.Sound) (f : Bool) (sp : ℕ) (d : ℤ) :
    (if f then c.lref sp d else c).Sound ∧ c.Kept (if f then c.lref sp d else c) := by
  cases f with
  | true => exact Core.lref_kept h sp d
  | false => exact ⟨h, Core.Kept.refl⟩

lemma Core.slotcore_kept {r : Core β × ℕ} (f : Bool) {slot : Option ℕ} (h : r.1.Sound)
    (hs : ∀ x, slot = some x → r.1.Live x) :
    (slotcore f r slot).1.Sound ∧ r.1.Kept (slotcore f r slot).1 := by
  cases slot with
  | none => exact ⟨h, Core.Kept.refl⟩
  | some sp =>
    obtain ⟨h1, h2⟩ := Core.lref_if_kept h f sp 1
    unfold slotcore
    dsimp only
    generalize (if f = true then r.1.lref sp 1 else r.1) = c₂ at h1 h2 ⊢
    split
    · exact ⟨h1, h2⟩
    · have hd : sp ∈ c₂.segdq :=
        ((h2.live sp).mpr (hs sp rfl)).resolve_left fun hm => absurd (h1.core sp hm) ‹_›
      have h3 := Core.segcore_kept h1 hd
      rcases he : c₂.segcore sp with ⟨c₁, _ | _⟩ <;>
      · rw [he] at h3
        exact ⟨h3.1, h2.trans h3.2⟩

lemma Core.slotdisk_kept {r : Core β × ℕ} (f : Bool) {slot : Option ℕ} (h : r.1.Sound)
    (hs : ∀ x, slot = some x → r.1.Live x) :
    (slotdisk f r slot).1.Sound ∧ r.1.Kept (slotdisk f r slot).1 := by
  cases slot with
  | none => exact ⟨h, Core.Kept.refl⟩
  | some sp =>
    obtain ⟨h1, h2⟩ := Core.lref_if_kept h f sp (-1)
    unfold slotdisk
    dsimp only
    generalize (if f = true then r.1.lref sp (-1) else r.1) = c₂ at h1 h2 ⊢
    split
    · exact ⟨h1, h2⟩
    split
    · have hm : sp ∈ c₂.segmq :=
        ((h2.live sp).mpr (hs sp rfl)).resolve_right fun hd => absurd (h1.disk sp hd) ‹_›
      have h3 := Core.segdisk_kept h1 hm
      rcases he : c₂.segdisk sp with ⟨c₁, _ | _⟩ <;>
      · rw [he] at h3
        exact ⟨h3.1, h2.trans h3.2⟩
    · exact ⟨h1, h2⟩

/-- A walk over slots whose every step keeps the contents. -/
lemma Core.walk_kept {step : Core β × ℕ → Option ℕ → Core β × ℕ}
    (hstep : ∀ r slot, r.1.Sound → (∀ x, slot = some x → r.1.Live x) →
      (step r slot).1.Sound ∧ r.1.Kept (step r slot).1)
    {l : List (Option ℕ)} (h : c.Sound) (hl : ∀ x, some x ∈ l → c.Live x) :
    (l.foldl step (c, 0)).1.Sound ∧ c.Kept (l.foldl step (c, 0)).1 := by
  have h0 : (c, 0).1.Sound ∧ c.Kept (c, 0).1 := ⟨h, Core.Kept.refl⟩
  refine List.foldlRecOn l step (motive := fun r => r.1.Sound ∧ c.Kept r.1) h0
    fun r hr slot hm => ?_
  have h1 := hstep r slot hr.1 fun x he => (hr.2.live x).mpr (hl x (he ▸ hm))
  exact ⟨h1.1, hr.2.trans h1.2⟩

/-- Setting flags of a process. -/
lemma Core.setproc_kept (h : c.Sound) (h' : c'.Sound) (hk : c.Kept c') (pp : ℕ) (p : PROC)
    (hp : p.p_segp = (c.proc pp).p_segp) (hu : p.u_sege = (c.proc pp).u_sege) :
    Core.Sound { c' with proc := Function.update c'.proc pp p } ∧
    c.Kept { c' with proc := Function.update c'.proc pp p } := by
  have h1 := h'.recount (g := c'.seg) (p := Function.update c'.proc pp p) (fun _ => rfl)
    (fun qq i x hx => ?_) fun qq x hx => ?_
  · exact ⟨h1.1, hk.trans h1.2⟩
  · rcases eq_or_ne qq pp with rfl | hne
    · rw [Function.update_self, hp] at hx
      exact (hk.live x).mpr (h.slots qq i x hx)
    · rw [Function.update_of_ne hne] at hx
      exact h'.slots qq i x hx
  · rcases eq_or_ne qq pp with rfl | hne
    · rw [Function.update_self, hu] at hx
      exact (hk.live x).mpr (h.sege qq x hx)
    · rw [Function.update_of_ne hne] at hx
      exact h'.sege qq x hx

lemma Core.Sound.segps (h : c.Sound) (pp x : ℕ)
    (hx : some x ∈ (List.finRange 9).map (c.proc pp).p_segp) : c.Live x := by
  obtain ⟨i, -, hi⟩ := List.mem_map.mp hx
  exact h.slots pp i x hi

/-- **Swapping keeps contents.** Whatever the swapper does with a process, every segment keeps its
size and what is in it. -/
lemma Core.swap_kept (h : c.Sound) (a : Swap) : (c.swap a).Sound ∧ c.Kept (c.swap a) := by
  cases a with
  | proccore pp =>
    have hw := Core.walk_kept (fun r slot => Core.slotcore_kept (c.proc pp).p_swap) h (h.segps pp)
    exact Core.setproc_kept h hw.1 hw.2 pp _ rfl rfl
  | procdisk pp =>
    have hw := Core.walk_kept (fun r slot => Core.slotdisk_kept (!(c.proc pp).p_swap)) h
      (h.segps pp)
    exact Core.setproc_kept h hw.1 hw.2 pp _ rfl rfl
  | auxmdisk pp =>
    have hw := Core.walk_kept (fun r slot => Core.slotdisk_kept (c.proc pp).p_auxm) h
      (l := (c.proc pp).u_sege.map some) fun x hx => by
        obtain ⟨y, hy, he⟩ := List.mem_map.mp hx
        exact h.sege pp x (Option.some.inj he ▸ hy)
    exact Core.setproc_kept h hw.1 hw.2 pp _ rfl rfl

/-- And so does a whole run of it. -/
lemma Core.swaps_kept (h : c.Sound) (l : List Swap) :
    (l.foldl Core.swap c).Sound ∧ c.Kept (l.foldl Core.swap c) := by
  induction l generalizing c with
  | nil => exact ⟨h, Core.Kept.refl⟩
  | cons a l ih =>
    have h1 := Core.swap_kept h a
    have h2 := ih h1.1
    exact ⟨h2.1, h1.2.trans h2.2⟩

end

end Coherent.CoreQueue
