import Coherent.CoreQueue

/-!
Compaction of core: `segpack` slides the segments down against what lies below them, and `segmove`
refuses those that something may hold at their old place.
-/

namespace Coherent.CoreQueue

open Lib Lib.Arena Lib.Cells

variable {β : Type*}

/-! ### The code -/

/-- Sets `PFSPROTO`. -/
def Core.mark (c : Core β) (pp : ℕ) : Core β :=
  { c with proc := Function.update c.proc pp { c.proc pp with p_sproto := true } }

/-- The slots of the process table in the order of the walk. -/
def Core.slots (c : Core β) : List (ℕ × Fin 9) :=
  c.procq.flatMap fun pp => (List.finRange 9).map fun i => (pp, i)

/-- Whether the process is wired down. -/
def PROC.wired (p : PROC) : Bool := p.p_lock || p.p_kern || p.p_swio || p.p_slib

/-- The walk of `segmove` over the slots: it marks the processes that hold the segment, and counts
the slots that hold it and those of processes that are not swapped out. -/
def Core.owners (sp : ℕ) : List (ℕ × Fin 9) → ℕ → ℕ → Core β → Core β × Option (ℕ × ℕ)
  | [], n, k, c => (c, some (n, k))
  | (pp, i) :: l, n, k, c =>
    if (c.proc pp).p_segp i ≠ some sp then owners sp l n k c
    else if (c.proc pp).wired then (c, none)
    else if i = 0 ∧ pp = c.self then (c, none)
    else owners sp l (n + 1) (if (c.proc pp).p_swap then k else k + 1) (c.mark pp)

/-- Moves the segment down to `nb` unless it may not be moved. -/
def Core.segmove (c : Core β) (sp nb : ℕ) : Core β × Bool :=
  if (c.seg sp).s_core = false then (c, false)
  else if (c.seg sp).s_down ∧ (nb + (c.seg sp).s_size) % 65536 < 64 then (c, false)
  else
    match c.owners sp c.slots 0 0 with
    | (c₁, none) => (c₁, false)
    | (c₁, some (n, k)) =>
      if n = 0 ∨ (n : ℤ) ≠ (c.seg sp).s_urefc ∨ (k : ℤ) ≠ (c.seg sp).s_lrefc then (c₁, false)
      else ({ c₁ with
        mem := copyUp c.mem nb (c.seg sp).s_mbase (c.seg sp).s_size
        seg := Function.update c.seg sp { c.seg sp with s_mbase := nb } }, true)

/-- The first walk of `segpack`: the sum of the holes and the largest. -/
def Core.holes (c : Core β) : ℕ → List ℕ → ℕ × ℕ → ℕ × ℕ
  | b, [], (tot, big) =>
    ((tot + sub16 c.coretop b) % 65536, if big < sub16 c.coretop b then sub16 c.coretop b else big)
  | b, sp :: q, (tot, big) =>
    c.holes (c.past sp) q ((tot + sub16 (c.seg sp).s_mbase b) % 65536,
      if big < sub16 (c.seg sp).s_mbase b then sub16 (c.seg sp).s_mbase b else big)

/-- Its second walk, which slides the segments down and counts those that moved. -/
def Core.compact : List ℕ → ℕ → Core β → ℕ → Core β × ℕ
  | [], _, c, moved => (c, moved)
  | sp :: q, b, c, moved =>
    if b < (c.seg sp).s_mbase then
      match c.segmove sp b with
      | (c₁, true) => compact q (c₁.past sp) c₁ (moved + 1)
      | (c₁, false) => compact q (c₁.past sp) c₁ moved
    else compact q (c.past sp) c moved

/-- `segpack` up to where it lets the gates go. -/
def Core.packed (c : Core β) (s : ℕ) : Core β × ℕ :=
  let (tot, big) := c.holes c.corebot c.segmq (0, 0)
  if big < s ∧ s ≤ tot then Core.compact c.segmq c.corebot c 0 else (c, 0)

/-- The running process makes its prototype anew if it is marked. -/
def Core.segload (c : Core β) : Core β :=
  if (c.proc c.self).p_sproto ∧ (c.proc c.self).p_kern = false then
    { c with
      proc := Function.update c.proc c.self { c.proc c.self with p_sproto := false } }
  else c

/-- Memory compaction. -/
def Core.segpack (c : Core β) (s : ℕ) : Core β × ℕ :=
  let (c₁, moved) := c.packed s
  (if moved ≠ 0 then c₁.segload else c₁, moved)

/-- A new segment at the low end, in a descriptor from `kalloc` if there is one. -/
def Core.smalloc (c : Core β) (kalloc : Option ℕ) (s : ℕ) : Option (Core β × ℕ) :=
  kalloc.bind fun sp₂ =>
    (c.firstfit sp₂ s c.corebot c.segmq).map fun r =>
      ({ c with
        seg := Function.update c.seg sp₂
          { c.seg sp₂ with s_urefc := 1, s_lrefc := 1, s_size := s, s_mbase := r.2 }
        segmq := r.1 }, sp₂)

/-! ### When a segment may be moved -/

/-- Whether the slot holds the segment. -/
def Core.holds (c : Core β) (sp : ℕ) (e : ℕ × Fin 9) : Bool := (c.proc e.1).p_segp e.2 = some sp

/-- Whether the process of the slot leaves its segment free to move. -/
def Core.loose (c : Core β) (e : ℕ × Fin 9) : Prop :=
  (c.proc e.1).wired = false ∧ ¬(e.2 = 0 ∧ e.1 = c.self)

/-- The segment may be moved to `nb`: it is in core, the hardware can map it there, no process
that holds it is wired down, every reference is a slot, and every lock is that of a slot whose
process is not swapped out. -/
structure Core.Movable (c : Core β) (sp nb : ℕ) : Prop where
  core : (c.seg sp).s_core = true
  maps : (c.seg sp).s_down = true → 64 ≤ (nb + (c.seg sp).s_size) % 65536
  loose : ∀ e ∈ c.slots, c.holds sp e = true → c.loose e
  held : c.slots.countP (c.holds sp) ≠ 0
  refs : (c.slots.countP (c.holds sp) : ℤ) = (c.seg sp).s_urefc
  locks : (c.slots.countP (fun e => c.holds sp e && !(c.proc e.1).p_swap) : ℤ) =
    (c.seg sp).s_lrefc

/-- The core with the marks `f` set. -/
def Core.flag (c : Core β) (f : ℕ → Bool) : Core β :=
  { c with proc := fun pp => { c.proc pp with p_sproto := (c.proc pp).p_sproto || f pp } }

section
variable {c c₁ : Core β} {sp nb n k pp b : ℕ} {l : List (ℕ × Fin 9)} {f g : ℕ → Bool}

lemma Core.mark_eq : c.mark pp = c.flag (fun x => x = pp) := by
  unfold mark flag
  congr 1
  funext x
  rcases eq_or_ne x pp with rfl | h
  · rw [Function.update_self]
    simp
  · rw [Function.update_of_ne h]
    simp [h]

lemma Core.flag_flag : (c.flag f).flag g = c.flag (fun x => f x || g x) := by
  unfold flag
  simp only [Bool.or_assoc]

lemma Core.flag_none : c.flag (fun _ => false) = c := by
  unfold flag
  simp only [Bool.or_false]

/-- The walk changes nothing but marks. If no process that it meets is wired down it ends with the
two counts and has marked them all. -/
lemma Core.owners_spec (sp n k : ℕ) (l : List (ℕ × Fin 9)) (c : Core β) :
    (∃ f, (owners sp l n k c).1 = c.flag f ∧
      ((owners sp l n k c).2 ≠ none → ∀ e ∈ l, c.holds sp e = true → f e.1 = true)) ∧
    ((∀ e ∈ l, c.holds sp e = true → c.loose e) →
      (owners sp l n k c).2 = some (n + l.countP (c.holds sp),
        k + l.countP (fun e => c.holds sp e && !(c.proc e.1).p_swap))) ∧
    ((owners sp l n k c).2 ≠ none → ∀ e ∈ l, c.holds sp e = true → c.loose e) := by
  induction l generalizing n k c with
  | nil =>
    refine ⟨⟨fun _ => false, Core.flag_none.symm, ?_⟩, fun _ => rfl, ?_⟩ <;>
      exact fun _ e he => absurd he List.not_mem_nil
  | cons e l ih =>
    obtain ⟨pp, i⟩ := e
    by_cases hh : (c.proc pp).p_segp i = some sp
    swap
    · -- another slot
      have hf : c.holds sp (pp, i) = false := decide_eq_false hh
      have hs : owners sp ((pp, i) :: l) n k c = owners sp l n k c := if_pos hh
      rw [hs, List.countP_cons_of_neg (by simp [hf]), List.countP_cons_of_neg (by simp [hf])]
      obtain ⟨⟨f, h1, h2⟩, h3, h4⟩ := ih n k c
      refine ⟨⟨f, h1, fun hn => List.forall_mem_cons.mpr ⟨fun h => ?_, h2 hn⟩⟩,
        fun ha => h3 fun e he => ha e (List.mem_cons_of_mem _ he),
        fun hn => List.forall_mem_cons.mpr ⟨fun h => ?_, h4 hn⟩⟩ <;>
      · rw [hf] at h
        exact absurd h (by simp)
    have ht : c.holds sp (pp, i) = true := decide_eq_true hh
    by_cases hl : c.loose (pp, i)
    swap
    · -- a process that is wired down, or its own user area
      have hs : owners sp ((pp, i) :: l) n k c = (c, none) := by
        unfold owners
        rw [if_neg (not_not.mpr hh)]
        by_cases hw : (c.proc pp).wired = true
        · exact if_pos hw
        · rw [if_neg hw]
          exact if_pos (by_contra fun h => hl ⟨Bool.eq_false_iff.mpr hw, h⟩)
      rw [hs]
      exact ⟨⟨fun _ => false, Core.flag_none.symm, fun h => absurd rfl h⟩,
        fun ha => absurd (ha _ List.mem_cons_self ht) hl, fun h => absurd rfl h⟩
    · -- the process is marked
      have hs : owners sp ((pp, i) :: l) n k c =
          owners sp l (n + 1) (if (c.proc pp).p_swap then k else k + 1) (c.mark pp) := by
        conv_lhs => unfold owners
        rw [if_neg (not_not.mpr hh), if_neg (by rw [hl.1]; simp), if_neg hl.2]
      rw [hs, Core.mark_eq]
      obtain ⟨⟨f, h1, h2⟩, h3, h4⟩ := ih (n + 1)
        (if (c.proc pp).p_swap then k else k + 1) (c.flag (fun x => x = pp))
      rw [Core.flag_flag] at h1
      refine ⟨⟨_, h1, fun hn => List.forall_mem_cons.mpr ⟨fun _ => by simp, ?_⟩⟩, fun ha => ?_,
        fun hn => List.forall_mem_cons.mpr ⟨fun _ => hl, h4 hn⟩⟩
      · intro e he hs
        simp [h2 hn e he hs]
      · rw [h3 fun e he => ha e (List.mem_cons_of_mem _ he), List.countP_cons_of_pos ht]
        have h5 : n + 1 + l.countP (c.holds sp) = n + (l.countP (c.holds sp) + 1) := by omega
        cases hw : (c.proc pp).p_swap with
        | true =>
          rw [List.countP_cons_of_neg (by simp [hw])]
          exact congrArg some (Prod.ext h5 rfl)
        | false =>
          rw [List.countP_cons_of_pos (by simp [ht, hw])]
          refine congrArg some (Prod.ext h5 ?_)
          change k + 1 + _ = k + (_ + 1)
          rw [Nat.add_assoc, Nat.add_comm 1]
          rfl

/-- What a call of `segmove` does: it moves the segment where it may, and marks its processes; if
it refuses it leaves nothing but marks. -/
def Core.Moves (c : Core β) (sp nb : ℕ) (r : Core β × Bool) : Prop :=
  (r.2 = true ↔ c.Movable sp nb) ∧ ∃ f,
    (r.2 = false → r.1 = c.flag f) ∧
    (r.2 = true → (∀ e ∈ c.slots, c.holds sp e = true → f e.1 = true) ∧
      r.1 = { c.flag f with
        mem := copyUp c.mem nb (c.seg sp).s_mbase (c.seg sp).s_size
        seg := Function.update c.seg sp { c.seg sp with s_mbase := nb } })

lemma Core.Moves.stay (hm : ¬c.Movable sp nb) : c.Moves sp nb (c.flag f, false) :=
  ⟨iff_of_false (by simp) hm, f, fun _ => rfl, fun h => absurd h (by simp)⟩

lemma Core.Moves.same (hm : ¬c.Movable sp nb) : c.Moves sp nb (c, false) := by
  have h := Core.Moves.stay (f := fun _ => false) hm
  rwa [Core.flag_none] at h

lemma Core.segmove_spec (c : Core β) (sp nb : ℕ) : c.Moves sp nb (c.segmove sp nb) := by
  obtain ⟨⟨f, h1, h2⟩, h3, h4⟩ := Core.owners_spec sp 0 0 c.slots c
  unfold segmove
  by_cases hcore : (c.seg sp).s_core = false
  · rw [if_pos hcore]
    exact Core.Moves.same fun h => by simp [h.core] at hcore
  rw [if_neg hcore]
  by_cases hdown : (c.seg sp).s_down = true ∧ (nb + (c.seg sp).s_size) % 65536 < 64
  · rw [if_pos hdown]
    exact Core.Moves.same fun h => absurd (h.maps hdown.1) (by omega)
  rw [if_neg hdown]
  rcases ho : owners sp c.slots 0 0 c with ⟨c₁, _ | ⟨n, k⟩⟩
  · -- a process is wired down
    rw [ho] at h1 h3
    obtain rfl : c₁ = c.flag f := h1
    exact Core.Moves.stay fun h => absurd (h3 h.loose) (by simp)
  have hl := h4 (by simp [ho])
  have hcount := h3 hl
  have hmark := h2 (by simp [ho])
  rw [ho] at hcount h1
  obtain rfl : c₁ = c.flag f := h1
  obtain ⟨rfl, rfl⟩ := Prod.mk.inj (Option.some.inj hcount)
  dsimp only
  rw [Nat.zero_add, Nat.zero_add]
  split
  · -- a reference or a lock is not that of a slot
    refine Core.Moves.stay fun h => ?_
    rcases ‹_ ∨ _ ∨ _› with h0 | h0 | h0
    · exact h.held h0
    · exact h0 h.refs
    · exact h0 h.locks
  · have hrefs := ‹¬_›
    push Not at hrefs
    refine ⟨iff_of_true rfl ?_, f, fun h => absurd h (by simp), fun _ => ⟨hmark, rfl⟩⟩
    exact ⟨Bool.eq_true_of_not_eq_false hcore, fun h => by push Not at hdown; exact hdown h, hl,
      hrefs.1, hrefs.2.1, hrefs.2.2⟩

/-! ### Compaction -/

/-- The two cores differ in nothing but bases, the contents of core and marks that are set. -/
structure Core.Agree (c c' : Core β) : Prop where
  corebot : c'.corebot = c.corebot
  coretop : c'.coretop = c.coretop
  swap : c'.swapbot = c.swapbot ∧ c'.swaptop = c.swaptop ∧ c'.disk = c.disk
  segmq : c'.segmq = c.segmq
  segdq : c'.segdq = c.segdq
  procq : c'.procq = c.procq
  self : c'.self = c.self
  seg : ∀ x, c'.seg x = { c.seg x with s_mbase := (c'.seg x).s_mbase }
  proc : ∀ pp, c'.proc pp = { c.proc pp with p_sproto := (c'.proc pp).p_sproto }
  marks : ∀ pp, (c.proc pp).p_sproto = true → (c'.proc pp).p_sproto = true

namespace Core.Agree
variable {c c' c'' : Core β} {x nb : ℕ}

lemma refl : c.Agree c where
  corebot := rfl
  coretop := rfl
  swap := ⟨rfl, rfl, rfl⟩
  segmq := rfl
  segdq := rfl
  procq := rfl
  self := rfl
  seg _ := rfl
  proc _ := rfl
  marks _ h := h

lemma trans (h : c.Agree c') (h' : c'.Agree c'') : c.Agree c'' where
  corebot := h'.corebot.trans h.corebot
  coretop := h'.coretop.trans h.coretop
  swap := ⟨h'.swap.1.trans h.swap.1, h'.swap.2.1.trans h.swap.2.1, h'.swap.2.2.trans h.swap.2.2⟩
  segmq := h'.segmq.trans h.segmq
  segdq := h'.segdq.trans h.segdq
  procq := h'.procq.trans h.procq
  self := h'.self.trans h.self
  seg x := by rw [h'.seg x, h.seg x]
  proc pp := by rw [h'.proc pp, h.proc pp]
  marks pp hp := h'.marks pp (h.marks pp hp)

lemma slots (h : c.Agree c') : c'.slots = c.slots := by
  unfold Core.slots
  rw [h.procq]

lemma holds (h : c.Agree c') : c'.holds x = c.holds x := by
  funext e
  unfold Core.holds
  rw [h.proc]

lemma loose (h : c.Agree c') (e : ℕ × Fin 9) : c'.loose e ↔ c.loose e := by
  unfold Core.loose
  rw [h.proc, h.self]
  rfl

/-- Whether a segment may be moved does not depend on what differs. -/
lemma movable (h : c.Agree c') : c'.Movable x nb ↔ c.Movable x nb := by
  have hp : (fun e : ℕ × Fin 9 => c'.holds x e && !(c'.proc e.1).p_swap) =
      fun e => c.holds x e && !(c.proc e.1).p_swap := by
    funext e
    rw [h.holds, h.proc]
  constructor
  · rintro ⟨h1, h2, h3, h4, h5, h6⟩
    rw [h.seg] at h1 h2 h5 h6
    rw [h.slots] at h3 h4 h5 h6
    rw [h.holds] at h4 h5
    rw [hp] at h6
    exact ⟨h1, h2, fun e he hh => (h.loose e).mp (h3 e he (by rw [h.holds]; exact hh)), h4, h5, h6⟩
  · rintro ⟨h1, h2, h3, h4, h5, h6⟩
    refine ⟨?_, ?_, ?_, ?_, ?_, ?_⟩
    · rw [h.seg]; exact h1
    · rw [h.seg]; exact h2
    · rw [h.slots, h.holds]
      exact fun e he hh => (h.loose e).mpr (h3 e he hh)
    · rw [h.slots, h.holds]; exact h4
    · rw [h.slots, h.holds, h.seg]; exact h5
    · rw [h.slots, hp, h.seg]; exact h6

lemma size (h : c.Agree c') (x : ℕ) : (c'.seg x).s_size = (c.seg x).s_size := by rw [h.seg x]

end Core.Agree

/-- One turn of the second walk. -/
def Core.slide (c : Core β) (sp b : ℕ) : Core β :=
  if b < (c.seg sp).s_mbase then (c.segmove sp b).1 else c

lemma Core.compact_cons (c : Core β) (sp : ℕ) (q : List ℕ) (b moved : ℕ) :
    ∃ moved', compact (sp :: q) b c moved =
      compact q ((c.slide sp b).past sp) (c.slide sp b) moved' := by
  unfold slide
  conv in compact (sp :: q) b c moved => unfold compact
  split
  · rcases c.segmove sp b with ⟨c₁, _ | _⟩
    · exact ⟨moved, rfl⟩
    · exact ⟨moved + 1, rfl⟩
  · exact ⟨moved, rfl⟩

/-- What a turn does to the segment. -/
structure Core.Slides (c c' : Core β) (b sp : ℕ) : Prop where
  agree : c.Agree c'
  rest : ∀ x ≠ sp, c'.seg x = c.seg x
  base : b ≤ (c'.seg sp).s_mbase ∧ (c'.seg sp).s_mbase ≤ (c.seg sp).s_mbase
  mem : ∀ p, p < b ∨ (c.seg sp).s_mbase + (c.seg sp).s_size ≤ p → c'.mem.cell p = c.mem.cell p
  content : ∀ i < (c.seg sp).s_size,
    c'.mem.cell ((c'.seg sp).s_mbase + i) = c.mem.cell ((c.seg sp).s_mbase + i)
  moved : (c'.seg sp).s_mbase ≠ (c.seg sp).s_mbase → c.Movable sp b ∧
    ∀ e ∈ c.slots, c.holds sp e = true → (c'.proc e.1).p_sproto = true
  hole : b < (c'.seg sp).s_mbase → ¬c.Movable sp b

lemma Core.agree_flag : c.Agree (c.flag f) where
  corebot := rfl
  coretop := rfl
  swap := ⟨rfl, rfl, rfl⟩
  segmq := rfl
  segdq := rfl
  procq := rfl
  self := rfl
  seg _ := rfl
  proc _ := rfl
  marks pp hp := by simp [flag, hp]

/-- Nothing but marks. -/
lemma Core.Slides.still (hb : b ≤ (c.seg sp).s_mbase)
    (hh : b < (c.seg sp).s_mbase → ¬c.Movable sp b) : c.Slides (c.flag f) b sp where
  agree := Core.agree_flag
  rest _ _ := rfl
  base := ⟨hb, le_refl _⟩
  mem _ _ := rfl
  content _ _ := rfl
  moved h := absurd rfl h
  hole := hh

lemma Core.slide_spec (sp : ℕ) (hb : b ≤ (c.seg sp).s_mbase) : c.Slides (c.slide sp b) b sp := by
  unfold slide
  split
  swap
  · have h := Core.Slides.still (f := fun _ => false) hb fun h => absurd h ‹_›
    rwa [Core.flag_none] at h
  obtain ⟨hm, f, hno, hyes⟩ := c.segmove_spec sp b
  cases hr : (c.segmove sp b).2 with
  | false =>
    rw [hno hr]
    exact Core.Slides.still hb fun _ h => by simp [hm.mpr h] at hr
  | true =>
    obtain ⟨hmark, he⟩ := hyes hr
    have hseg : (c.segmove sp b).1.seg sp = { c.seg sp with s_mbase := b } := by
      rw [he]
      exact Function.update_self ..
    have hbase : ((c.segmove sp b).1.seg sp).s_mbase = b := by rw [hseg]
    have hrest : ∀ x ≠ sp, (c.segmove sp b).1.seg x = c.seg x := fun x hx => by
      rw [he]
      exact Function.update_of_ne hx ..
    have hmem : (c.segmove sp b).1.mem =
        copyUp c.mem b (c.seg sp).s_mbase (c.seg sp).s_size := by rw [he]
    have hproc : (c.segmove sp b).1.proc = (c.flag f).proc := by rw [he]
    refine ⟨⟨?_, ?_, ?_, ?_, ?_, ?_, ?_, fun x => ?_, ?_, ?_⟩, hrest, ?_, fun p hp => ?_,
      fun i hi => ?_, fun _ => ⟨hm.mp hr, fun e h1 h2 => ?_⟩, fun h => ?_⟩
    · rw [he]; rfl
    · rw [he]; rfl
    · rw [he]; exact ⟨rfl, rfl, rfl⟩
    · rw [he]; rfl
    · rw [he]; rfl
    · rw [he]; rfl
    · rw [he]; rfl
    · rcases eq_or_ne x sp with rfl | hx
      · rw [hseg]
      · rw [hrest x hx]
    · rw [hproc]
      exact Core.agree_flag.proc
    · rw [hproc]
      exact Core.agree_flag.marks
    · rw [hbase]
      exact ⟨le_refl b, hb⟩
    · rw [hmem]
      exact copyUp_of_apart (by omega)
    · rw [hmem, hbase]
      exact copyUp_in (Or.inl hb) hi
    · rw [hproc]
      simp [flag, hmark e h1 h2]
    · rw [hbase] at h
      exact absurd h (lt_irrefl b)

/-- What the walk does to the segments from `b` on. -/
structure Core.Slid (c c' : Core β) (b : ℕ) (q : List ℕ) : Prop where
  agree : c.Agree c'
  rest : ∀ x ∉ q, c'.seg x = c.seg x
  placed : c'.Placed b q
  low : ∀ p < b, c'.mem.cell p = c.mem.cell p
  down : ∀ x, (c'.seg x).s_mbase ≤ (c.seg x).s_mbase
  content : ∀ x ∈ q, ∀ i < (c.seg x).s_size,
    c'.mem.cell ((c'.seg x).s_mbase + i) = c.mem.cell ((c.seg x).s_mbase + i)
  moved : ∀ x ∈ q, (c'.seg x).s_mbase ≠ (c.seg x).s_mbase → (∃ nb, c.Movable x nb) ∧
    ∀ e ∈ c.slots, c.holds x e = true → (c'.proc e.1).p_sproto = true
  hole : ∀ l₁ x l₂, q = l₁ ++ x :: l₂ → c'.last b l₁ < (c'.seg x).s_mbase →
    ¬c.Movable x (c'.last b l₁)

lemma Core.Agree.placed {c' : Core β} {q : List ℕ} (ha : c.Agree c') (h : c.Placed b q)
    (hs : ∀ x ∈ q, c'.seg x = c.seg x) : c'.Placed b q := by
  unfold Core.Placed
  rw [ha.coretop]
  exact Arena.Placed.congr h fun x hx => by rw [hs x hx]; exact ⟨rfl, rfl⟩

/-- A turn and then the rest of the walk. -/
lemma Core.Slides.cons {c' c'' : Core β} {q : List ℕ} (h : c.Slides c' b sp)
    (hp : c.Placed b (sp :: q)) (hq : sp ∉ q)
    (h' : c'.Slid c'' ((c'.seg sp).s_mbase + (c.seg sp).s_size) q) :
    c.Slid c'' b (sp :: q) := by
  have hsp : c''.seg sp = c'.seg sp := h'.rest sp hq
  have hne : ∀ x ∈ q, x ≠ sp := fun x hx he => hq (he ▸ hx)
  have hend : (c''.seg sp).s_mbase + (c''.seg sp).s_size =
      (c'.seg sp).s_mbase + (c.seg sp).s_size := by rw [hsp, h.agree.size]
  have hb := h.base
  refine ⟨h.agree.trans h'.agree, ?_, ⟨?_, ?_⟩, ?_, fun x => ?_, ?_, ?_, ?_⟩
  · intro x hx
    rw [List.mem_cons, not_or] at hx
    rw [h'.rest x hx.2, h.rest x hx.1]
  · change b ≤ (c''.seg sp).s_mbase
    rw [hsp]
    exact hb.1
  · change Arena.Placed _ _ _ ((c''.seg sp).s_mbase + (c''.seg sp).s_size) q
    rw [hend]
    exact h'.placed
  · intro p hlt
    rw [h'.low p (by omega), h.mem p (Or.inl hlt)]
  · refine (h'.down x).trans ?_
    rcases eq_or_ne x sp with rfl | hx
    · exact hb.2
    · rw [h.rest x hx]
  · intro x hx i hi
    rcases List.mem_cons.mp hx with rfl | hxq
    · rw [hsp, h'.low _ (by omega)]
      exact h.content i hi
    · have hx1 := h.rest x (hne x hxq)
      have hx2 := Arena.Placed.bounds hp.2 hxq
      rw [h'.content x hxq i (by rw [hx1]; exact hi), hx1]
      exact h.mem _ (Or.inr (le_trans hx2.1 (Nat.le_add_right _ _)))
  · intro x hx hmv
    rcases List.mem_cons.mp hx with rfl | hxq
    · rw [hsp] at hmv
      obtain ⟨h1, h2⟩ := h.moved hmv
      exact ⟨⟨b, h1⟩, fun e he hh => h'.agree.marks _ (h2 e he hh)⟩
    · rw [← h.rest x (hne x hxq)] at hmv
      obtain ⟨⟨nb, h1⟩, h2⟩ := h'.moved x hxq hmv
      rw [h.agree.slots, h.agree.holds] at h2
      exact ⟨⟨nb, h.agree.movable.mp h1⟩, h2⟩
  · intro l₁ x l₂ he hlt
    cases l₁ with
    | nil =>
      obtain ⟨rfl, rfl⟩ := List.cons.inj he
      change b < _ at hlt
      rw [hsp] at hlt
      exact h.hole hlt
    | cons y l =>
      obtain ⟨rfl, rfl⟩ := List.cons.inj he
      have hl : c''.last b (sp :: l) =
          c''.last ((c'.seg sp).s_mbase + (c.seg sp).s_size) l := by
        rw [← hend]
        rfl
      rw [hl] at hlt ⊢
      exact fun hm => h'.hole l x l₂ rfl hlt (h.agree.movable.mpr hm)

/-- **The walk** slides the segments down as far as they may be moved. -/
lemma Core.compact_spec {q : List ℕ} (hp : c.Placed b q) (hq : q.Nodup)
    (ht : c.coretop < 65536) (moved : ℕ) : c.Slid (compact q b c moved).1 b q := by
  induction q generalizing c b moved with
  | nil =>
    exact ⟨Core.Agree.refl, fun _ _ => rfl, hp, fun _ _ => rfl, fun _ => le_refl _,
      fun _ h => absurd h (by simp),
      fun _ h => absurd h (by simp), fun _ _ _ h => absurd h (by simp)⟩
  | cons sp q ih =>
    obtain ⟨hsp, hq⟩ := List.nodup_cons.mp hq
    obtain ⟨moved', he⟩ := c.compact_cons sp q b moved
    rw [he]
    have h := Core.slide_spec sp hp.1
    have hle : (c.seg sp).s_mbase + (c.seg sp).s_size ≤ c.coretop := hp.2.le
    have hb := h.base
    have hpast : (c.slide sp b).past sp =
        ((c.slide sp b).seg sp).s_mbase + (c.seg sp).s_size := by
      unfold past
      rw [h.agree.size]
      exact Nat.mod_eq_of_lt (by omega)
    rw [hpast]
    refine h.cons hp hsp (ih ?_ hq (by rw [h.agree.coretop]; exact ht) moved')
    have hrest : (c.slide sp b).Placed ((c.seg sp).s_mbase + (c.seg sp).s_size) q :=
      h.agree.placed hp.2 fun x hx => h.rest x fun he => hsp (he ▸ hx)
    exact Arena.Placed.mono hrest (by omega) (le_refl _)

/-! ### When it compacts -/

/-- The largest hole is too small and all of them together are large enough. -/
def Core.Decides (c : Core β) (s : ℕ) : Prop := (∀ g ∈ c.gaps, g < s) ∧ s ≤ c.gaps.sum

lemma Core.holes_spec {q : List ℕ} (tot big : ℕ) (hp : c.Placed b q) (ht : c.coretop < 65536)
    (hs : tot + (c.below b q ++ [c.coretop - c.last b q]).sum < 65536) :
    (c.holes b q (tot, big)).1 = tot + (c.below b q ++ [c.coretop - c.last b q]).sum ∧
    ∀ s, (c.holes b q (tot, big)).2 < s ↔
      big < s ∧ ∀ g ∈ c.below b q ++ [c.coretop - c.last b q], g < s := by
  have hmax : ∀ a d s : ℕ, (if a < d then d else a) < s ↔ a < s ∧ d < s := by
    intro a d s
    split <;> omega
  induction q generalizing b tot big with
  | nil =>
    have hb : b ≤ c.coretop := hp
    change tot + (c.coretop - b) < 65536 at hs
    unfold holes
    dsimp only
    rw [sub16_eq hb ht, Nat.mod_eq_of_lt hs]
    refine ⟨rfl, fun s => (hmax _ _ s).trans ?_⟩
    change _ ↔ _ ∧ ∀ g ∈ [c.coretop - b], g < s
    rw [List.forall_mem_singleton]
  | cons sp q ih =>
    have hl : c.below b (sp :: q) ++ [c.coretop - c.last b (sp :: q)] =
        ((c.seg sp).s_mbase - b) :: (c.below ((c.seg sp).s_mbase + (c.seg sp).s_size) q ++
          [c.coretop - c.last ((c.seg sp).s_mbase + (c.seg sp).s_size) q]) := rfl
    rw [hl, List.sum_cons] at hs ⊢
    unfold holes
    rw [Core.gap_eq hp ht, Core.past_eq hp ht, Nat.mod_eq_of_lt (by omega)]
    rw [← Nat.add_assoc] at hs
    obtain ⟨h1, h2⟩ := ih (tot + ((c.seg sp).s_mbase - b))
      (if big < (c.seg sp).s_mbase - b then (c.seg sp).s_mbase - b else big) hp.2 hs
    refine ⟨h1.trans (Nat.add_assoc _ _ _), fun s => (h2 s).trans ?_⟩
    rw [hmax, List.forall_mem_cons, and_assoc]

lemma Core.gaps_sum (hc : c.WF) : c.gaps.sum + (c.segmq.map fun x => (c.seg x).s_size).sum =
    c.coretop - c.corebot := by
  unfold gaps
  rw [List.sum_append, List.sum_singleton]
  exact Arena.Placed.sum_eq hc.placed

lemma Core.packed_eq (hc : c.WF) {s : ℕ} [Decidable (c.Decides s)] :
    c.packed s = if c.Decides s then compact c.segmq c.corebot c 0 else (c, 0) := by
  have hsum := Core.gaps_sum hc
  have ht := hc.top
  obtain ⟨h1, h2⟩ := Core.holes_spec 0 0 hc.placed ht (by
    change 0 + c.gaps.sum < 65536
    omega)
  unfold packed
  rcases hh : c.holes c.corebot c.segmq (0, 0) with ⟨tot, big⟩
  rw [hh] at h1 h2
  refine if_congr ?_ rfl rfl
  change big < s ∧ s ≤ tot ↔ (∀ g ∈ c.gaps, g < s) ∧ s ≤ c.gaps.sum
  have h3 : tot = 0 + c.gaps.sum := h1
  have h4 : big < s ↔ 0 < s ∧ ∀ g ∈ c.gaps, g < s := h2 s
  rw [h4, h3, Nat.zero_add, and_assoc]
  refine and_iff_right_of_imp fun h => ?_
  have hmem : c.coretop - c.last c.corebot c.segmq ∈ c.gaps := by
    unfold gaps
    simp
  exact lt_of_le_of_lt (Nat.zero_le _) (h.1 _ hmem)

end

/-- What compaction keeps: the order of the queue and its bases, sizes and contents. What it moves
may be moved. -/
structure Core.Compacts (c c' : Core β) : Prop where
  queue : c'.segmq = c.segmq
  placed : c'.Placed c'.corebot c'.segmq
  size : ∀ x, (c'.seg x).s_size = (c.seg x).s_size
  content : ∀ x ∈ c.segmq, ∀ i < (c.seg x).s_size,
    c'.mem.cell ((c'.seg x).s_mbase + i) = c.mem.cell ((c.seg x).s_mbase + i)
  moved : ∀ x ∈ c.segmq, (c'.seg x).s_mbase ≠ (c.seg x).s_mbase → ∃ nb, c.Movable x nb

section
variable {c c' : Core β} {s : ℕ}

lemma Core.Slid.compacts (h : c.Slid c' c.corebot c.segmq) : c.Compacts c' where
  queue := h.agree.segmq
  placed := by
    rw [h.agree.corebot, h.agree.segmq]
    exact h.placed
  size := h.agree.size
  content := h.content
  moved x hx hm := (h.moved x hx hm).1

lemma Core.packed_slid (hc : c.WF) (hq : c.segmq.Nodup) (hd : c.Decides s) :
    c.Slid (c.packed s).1 c.corebot c.segmq := by
  classical
  rw [Core.packed_eq hc, if_pos hd]
  exact Core.compact_spec hc.placed hq hc.top 0

lemma Core.packed_same (hc : c.WF) (hd : ¬c.Decides s) : c.packed s = (c, 0) := by
  classical
  rw [Core.packed_eq hc, if_neg hd]

/-- Making the prototype anew changes nothing but the mark. -/
lemma Core.segpack_eq :
    ∃ p, (c.segpack s).1 = { (c.packed s).1 with proc := p } ∧
      ∀ pp, (p pp).p_segp = ((c.packed s).1.proc pp).p_segp ∧
        (p pp).u_sege = ((c.packed s).1.proc pp).u_sege := by
  unfold segpack segload
  rcases c.packed s with ⟨c₁, m⟩
  dsimp only
  split
  · split
    · refine ⟨_, rfl, fun pp => ?_⟩
      rcases eq_or_ne pp c₁.self with rfl | h
      · rw [Function.update_self]
        exact ⟨rfl, rfl⟩
      · rw [Function.update_of_ne h]
        exact ⟨rfl, rfl⟩
    · exact ⟨_, rfl, fun _ => ⟨rfl, rfl⟩⟩
  · exact ⟨_, rfl, fun _ => ⟨rfl, rfl⟩⟩

/-- Once no hole is left below a segment the room above them is enough. -/
lemma Core.Slid.fits (h : c.Slid c' c.corebot c.segmq) (hc : c.WF) (hd : c.Decides s)
    (hm : ∀ l₁ x l₂, c.segmq = l₁ ++ x :: l₂ → c'.last c.corebot l₁ < (c.seg x).s_mbase →
      c.Movable x (c'.last c.corebot l₁)) (sp₂ : ℕ) :
    (c'.firstfit sp₂ s c'.corebot c'.segmq).isSome := by
  have hk := h.compacts
  have ht : c'.coretop < 65536 := by
    rw [h.agree.coretop]
    exact hc.top
  have hzero : (c'.below c'.corebot c'.segmq).sum = 0 := by
    refine Arena.below_sum_eq fun l₁ x l₂ he => not_lt.mp fun hlt => ?_
    rw [h.agree.segmq] at he
    rw [h.agree.corebot] at hlt
    exact h.hole l₁ x l₂ he hlt (hm l₁ x l₂ he (lt_of_lt_of_le hlt (h.down x)))
  have hsum : c'.gaps.sum + (c'.segmq.map fun x => (c'.seg x).s_size).sum =
      c'.coretop - c'.corebot := Core.gaps_sum ⟨hk.placed, ht⟩
  have hsizes : (c'.segmq.map fun x => (c'.seg x).s_size) =
      c.segmq.map fun x => (c.seg x).s_size := by
    rw [h.agree.segmq]
    exact List.map_congr_left fun x _ => hk.size x
  have hold := Core.gaps_sum hc
  rw [hsizes, h.agree.coretop, h.agree.corebot] at hsum
  have hs := hd.2
  refine (Core.firstfit_isSome hk.placed ht).mpr ⟨c'.coretop - c'.last c'.corebot c'.segmq,
    by simp, ?_⟩
  have hg : c'.gaps.sum = c'.coretop - c'.last c'.corebot c'.segmq := by
    unfold gaps
    rw [List.sum_append, hzero, List.sum_singleton, Nat.zero_add]
  omega

end

/-- **Compaction** keeps the order, the sizes and the contents of the segments and moves none that
may not be moved. Every process that holds a segment which moved is marked when the gates are let
go. Where it decides to compact, each hole that is left lies below a segment that was refused there
or below the top of core; and if no call is refused, `smalloc` then finds room, so that it succeeds
just where `kalloc` does. -/
theorem segpack_spec {c : Core β} (hc : c.WF) (hq : c.segmq.Nodup) (s : ℕ) :
    c.Compacts (c.segpack s).1 ∧
    (∀ x ∈ c.segmq, ((c.segpack s).1.seg x).s_mbase ≠ (c.seg x).s_mbase →
      ∀ e ∈ c.slots, c.holds x e = true → ((c.packed s).1.proc e.1).p_sproto = true) ∧
    (c.Decides s →
      (∀ l₁ x l₂, c.segmq = l₁ ++ x :: l₂ →
        (c.segpack s).1.last c.corebot l₁ < ((c.segpack s).1.seg x).s_mbase →
        ¬c.Movable x ((c.segpack s).1.last c.corebot l₁)) ∧
      ((∀ l₁ x l₂, c.segmq = l₁ ++ x :: l₂ →
        (c.segpack s).1.last c.corebot l₁ < (c.seg x).s_mbase →
        c.Movable x ((c.segpack s).1.last c.corebot l₁)) →
        ∀ kalloc, ((c.segpack s).1.smalloc kalloc s).isSome ↔ kalloc.isSome)) := by
  obtain ⟨p, hp, -⟩ := Core.segpack_eq (c := c) (s := s)
  by_cases hd : c.Decides s
  swap
  · -- no compaction
    rw [hp, Core.packed_same hc hd]
    exact ⟨⟨rfl, hc.placed, fun _ => rfl, fun _ _ _ _ => rfl, fun _ _ h => absurd rfl h⟩,
      fun _ _ h => absurd rfl h, fun h => absurd h hd⟩
  have h := Core.packed_slid hc hq hd
  have hk := h.compacts
  rw [hp]
  refine ⟨⟨hk.queue, hk.placed, hk.size, hk.content, hk.moved⟩,
    fun x hx hm => (h.moved x hx hm).2, fun _ => ⟨h.hole, fun hm kalloc => ?_⟩⟩
  cases kalloc with
  | none => exact Iff.rfl
  | some sp₂ =>
    refine iff_of_true ?_ rfl
    have hf := h.fits hc hd hm sp₂
    unfold Core.smalloc
    rw [Option.bind_some, Option.isSome_map]
    have hfit : ∀ (q : List ℕ) (b : ℕ), Core.firstfit { (c.packed s).1 with proc := p } sp₂ s b q =
        (c.packed s).1.firstfit sp₂ s b q := by
      intro q
      induction q with
      | nil => exact fun _ => rfl
      | cons y q ih =>
        intro b
        unfold Core.firstfit
        rw [ih]
        rfl
    rw [hfit]
    exact hf

/-- A process with segments of 10 and 20 clicks, and holes of 10, 10 and 50 clicks. -/
def hollow : Core ℕ where
  corebot := 100
  coretop := 200
  swapbot := 0
  swaptop := 8000
  seg sp := if sp = 1 then ⟨true, false, false, 1, 1, 10, 110, 0⟩
    else ⟨true, false, false, 1, 1, 20, 130, 0⟩
  segmq := [1, 2]
  segdq := []
  procq := [0]
  proc _ := ⟨true, false, false, false, false, false, false, false, fun i =>
    if i = 6 then some 1 else if i = 7 then some 2 else none, []⟩
  self := 5
  mem := ⟨fun p => (p, p)⟩
  disk := ⟨fun _ => 0⟩

lemma hollow_wf : hollow.WF := ⟨by simp [Core.Placed, Arena.Placed, hollow], by decide⟩

lemma hollow_decides : hollow.Decides 60 := ⟨by decide, by decide⟩

lemma hollow_movable (l₁ : List ℕ) (x : ℕ) (l₂ : List ℕ) (he : hollow.segmq = l₁ ++ x :: l₂) :
    hollow.Movable x ((hollow.segpack 60).1.last hollow.corebot l₁) := by
  have h : [1, 2] = l₁ ++ x :: l₂ := he
  rcases l₁ with _ | ⟨a, _ | ⟨a', l⟩⟩
  · obtain ⟨rfl, rfl⟩ := List.cons.inj h
    exact (Core.segmove_spec ..).1.mp (by decide)
  · obtain ⟨h1, h2⟩ := List.cons.inj h
    obtain ⟨rfl, rfl⟩ := List.cons.inj h2
    subst h1
    exact (Core.segmove_spec ..).1.mp (by decide)
  · exact absurd (congrArg List.length h) (by simp)

/-- After compaction 60 clicks are found. -/
theorem segpack_makes_room : ((hollow.segpack 60).1.smalloc (some 3) 60).isSome :=
  (((segpack_spec hollow_wf (by decide) 60).2.2 hollow_decides).2
    (fun l₁ x l₂ he _ => hollow_movable l₁ x l₂ he) (some 3)).mpr rfl

/-- Nothing is refused and there is room, and `smalloc` fails for want of a descriptor. -/
theorem smalloc_without_descriptor : hollow.WF ∧ hollow.segmq.Nodup ∧ hollow.Decides 60 ∧
    (∀ l₁ x l₂, hollow.segmq = l₁ ++ x :: l₂ →
      hollow.Movable x ((hollow.segpack 60).1.last hollow.corebot l₁)) ∧
    ((hollow.segpack 60).1.smalloc none 60).isSome = false :=
  ⟨hollow_wf, by decide, hollow_decides, hollow_movable, rfl⟩

end Coherent.CoreQueue
