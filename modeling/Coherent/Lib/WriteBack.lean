import Mathlib.Tactic
import Mathlib.Data.Set.Insert

/-!
A write-back cache.

Buffers hold blocks of a disk, the one used last in front. A buffer is held while it is referred to,
and a buffer that is not is taken for another block, after what it holds has been written if it is
dirty. What a cache says about the disk is its view.
-/

namespace Coherent.Lib.WriteBack

/-- A buffer: its block, whether its data are valid, whether they are newer than the disk's, and
how often it is held. -/
structure Buf (K D : Type*) where
  block : K
  ok : Bool
  dirt : Bool
  refc : ℕ
  data : D

structure Cache (K D : Type*) where
  bufs : List (Buf K D)
  disk : K → D

variable {K D : Type*} [DecidableEq K]

/-- The buffer of a block comes to the front, or the oldest that is not held. -/
def grab (c : Cache K D) (b : K) : Option (Cache K D) :=
  match c.bufs.find? (·.block = b) with
  | some x => some { c with
      bufs := { x with refc := x.refc + 1 } :: c.bufs.eraseP (·.block = b) }
  | none =>
    match c.bufs.reverse.find? (·.refc = 0) with
    | none => none
    | some x => some
      { bufs := { x with
          block := b
          ok := false
          dirt := false
          refc := x.refc + 1 } :: (c.bufs.reverse.eraseP (·.refc = 0)).reverse
        disk := if x.dirt then Function.update c.disk x.block x.data else c.disk }

/-- A block is held, and what is in it. -/
def read (c : Cache K D) (b : K) : Option (D × Cache K D) :=
  (grab c b).bind fun c =>
    match c.bufs with
    | [] => none
    | x :: l =>
      if x.ok then some (x.data, c)
      else
        some (c.disk b, { c with
          bufs := { x with
            ok := true
            data := c.disk b } :: l })

/-- A block is held as one with other contents, which are not yet to be written. -/
def zero (z : D) (c : Cache K D) (b : K) : Option (Cache K D) :=
  (grab c b).map fun c => { c with
    bufs := match c.bufs with
      | [] => []
      | x :: l => { x with
          ok := true
          dirt := false
          data := z } :: l }

/-- The first buffer of a block changes. -/
def modify (b : K) (f : Buf K D → Buf K D) : List (Buf K D) → List (Buf K D)
  | [] => []
  | x :: l => if x.block = b then f x :: l else x :: modify b f l

/-- A buffer is let go. What its holder has written into it is written here. -/
def free (c : Cache K D) (b : K) (data : D) (dirt : Bool) : Cache K D := { c with
  bufs := modify b (fun x => { x with
    data := data
    dirt := x.dirt || dirt
    refc := x.refc - 1 }) c.bufs }

/-- The buffers are written. -/
def flush (c : Cache K D) : K → D :=
  c.bufs.foldl (fun d x => if x.ok && x.dirt then Function.update d x.block x.data else d) c.disk

/-! ### What a cache says -/

/-- What a block of the disk is, as the cache has it. -/
def view (c : Cache K D) (b : K) : D :=
  match c.bufs.find? (fun x => x.ok && decide (x.block = b)) with
  | some x => x.data
  | none => c.disk b

/-- How often a block is held. -/
def refs (c : Cache K D) (b : K) : ℕ := (c.bufs.map fun x => if x.block = b then x.refc else 0).sum

/-- How often buffers are held. -/
def total (c : Cache K D) : ℕ := (c.bufs.map Buf.refc).sum

/-- A buffer with valid data is in front of no other of its block. But for the blocks `P`, whose
new contents are not yet to be written, clean data are those of the disk. -/
structure Coh (P : Set K) (c : Cache K D) : Prop where
  first : c.bufs.Pairwise fun x y => y.ok = true → x.block ≠ y.block
  dirt : ∀ x ∈ c.bufs, x.dirt = true → x.ok = true
  clean : ∀ x ∈ c.bufs, x.ok = true → x.dirt = false → x.data = c.disk x.block ∨ x.block ∈ P
  held : ∀ x ∈ c.bufs, x.block ∈ P → x.ok = true → 0 < x.refc
  stale : ∀ x ∈ c.bufs, x.ok = false → x.refc = 0

variable {P : Set K} {c c' : Cache K D} {b k : K} {x y n : Buf K D} {as bs l : List (Buf K D)}
  {d d' : K → D} {z : D}

lemma view_none (h : ∀ x ∈ c.bufs, x.ok = true → x.block ≠ b) : view c b = c.disk b := by
  unfold view
  rw [List.find?_eq_none.mpr]
  intro x hx
  simp only [Bool.and_eq_true, decide_eq_true_eq, not_and]
  exact h x hx

/-- Valid data are what the cache says. -/
lemma Coh.view_mem (h : Coh P c) (hx : x ∈ c.bufs) (ho : x.ok = true) :
    view c x.block = x.data := by
  unfold view
  obtain ⟨as, bs, hl⟩ := List.append_of_mem hx
  have hfirst := h.first
  rw [hl, List.pairwise_append] at hfirst
  have hfind : c.bufs.find? (fun y => y.ok && decide (y.block = x.block)) = some x := by
    rw [List.find?_eq_some_iff_append]
    refine ⟨by simp [ho], as, bs, hl, fun y hy => ?_⟩
    have := hfirst.2.2 y hy x (by simp) ho
    simp [this]
  rw [hfind]

omit [DecidableEq K] in
/-- A new buffer in front of the others. -/
lemma Coh.front {P' : Set K} (h : Coh P ⟨as ++ x :: bs, d⟩) (ho : n.ok = true)
    (hn : ∀ y ∈ as ++ bs, y.ok = true → n.block ≠ y.block)
    (hd : ∀ y ∈ as ++ bs, y.ok = true → d' y.block = d y.block)
    (hc : n.dirt = false → n.data = d' n.block ∨ n.block ∈ P') (hr : 0 < n.refc)
    (hP : ∀ y ∈ as ++ bs, y.ok = true → (y.block ∈ P' ↔ y.block ∈ P)) :
    Coh P' ⟨n :: (as ++ bs), d'⟩ := by
  have hsub : ∀ y ∈ as ++ bs, y ∈ as ++ x :: bs := fun y hy => by
    rw [List.mem_append] at hy
    obtain hy | hy := hy <;> simp [hy]
  refine ⟨?_, fun y hy => ?_, fun y hy => ?_, fun y hy => ?_, fun y hy => ?_⟩
  · exact List.pairwise_cons.mpr
      ⟨hn, h.first.sublist ((List.sublist_cons_self x bs).append_left as)⟩
  · obtain rfl | hy := List.mem_cons.mp hy
    · exact fun _ => ho
    · exact h.dirt y (hsub y hy)
  · obtain rfl | hy := List.mem_cons.mp hy
    · exact fun _ => hc
    · intro h1 h2
      have := h.clean y (hsub y hy) h1 h2
      change y.data = d' y.block ∨ _
      rwa [hd y hy h1, hP y hy h1]
  · obtain rfl | hy := List.mem_cons.mp hy
    · exact fun _ _ => hr
    · intro h1 h2
      exact h.held y (hsub y hy) ((hP y hy h2).mp h1) h2
  · obtain rfl | hy := List.mem_cons.mp hy
    · intro h1
      rw [ho] at h1
      cases h1
    · exact h.stale y (hsub y hy)

/-- What the cache says then. -/
lemma Coh.view_front {P' : Set K} (h : Coh P ⟨as ++ x :: bs, d⟩) (h' : Coh P' ⟨n :: (as ++ bs), d'⟩)
    (ho : n.ok = true) (hd : ∀ k ≠ n.block, (∀ y ∈ as ++ bs, y.ok = true → y.block ≠ k) →
      d' k = view ⟨as ++ x :: bs, d⟩ k) :
    view ⟨n :: (as ++ bs), d'⟩ = Function.update (view ⟨as ++ x :: bs, d⟩) n.block n.data := by
  funext k
  by_cases hk : k = n.block
  · subst hk
    rw [Function.update_self]
    exact h'.view_mem (by simp) ho
  · rw [Function.update_of_ne hk]
    by_cases hy : ∃ y ∈ as ++ bs, y.ok = true ∧ y.block = k
    · obtain ⟨y, hy, h1, rfl⟩ := hy
      rw [h'.view_mem (by simp only [List.mem_cons]; exact Or.inr hy) h1]
      refine (h.view_mem (x := y) ?_ h1).symm
      rw [List.mem_append] at hy
      obtain hy | hy := hy <;> simp [hy]
    · have hno : ∀ y ∈ as ++ bs, y.ok = true → y.block ≠ k := fun y h1 h2 h3 => hy ⟨y, h1, h2, h3⟩
      rw [← hd k hk hno]
      refine view_none fun y hy h1 => ?_
      obtain rfl | hy := List.mem_cons.mp hy
      · exact fun h => hk h.symm
      · exact hno y hy h1

/-! ### Holding a block -/

/-- What buffers that differ in their contents have in common. -/
lemma refs_cons (d' : K → D) (n : Buf K D) (l : List (Buf K D)) (d : K → D) (k : K) :
    refs ⟨n :: l, d⟩ k = (if n.block = k then n.refc else 0) + refs ⟨l, d'⟩ k := by
  simp [refs]

lemma refs_middle (d' : K → D) (as bs : List (Buf K D)) (x : Buf K D) (k : K) :
    refs ⟨as ++ x :: bs, d⟩ k = (if x.block = k then x.refc else 0) + refs ⟨as ++ bs, d'⟩ k := by
  simp [refs]
  omega

omit [DecidableEq K] in
lemma total_middle (d' : K → D) (as bs : List (Buf K D)) (x : Buf K D) :
    total ⟨as ++ x :: bs, d⟩ = x.refc + total ⟨as ++ bs, d'⟩ := by
  simp [total]
  omega

/-- A buffer has been found for a block: it is in front of the others, and held once more. -/
structure Taken (P : Set K) (c : Cache K D) (b : K) (x n : Buf K D) (as bs : List (Buf K D))
    (d' : K → D) : Prop where
  bufs : c.bufs = as ++ x :: bs
  grab : grab c b = some ⟨n :: (as ++ bs), d'⟩
  block : n.block = b
  refc : 0 < n.refc
  other : ∀ y ∈ as ++ bs, y.ok = true → b ≠ y.block
  same : ∀ y ∈ as ++ bs, y.ok = true → d' y.block = c.disk y.block
  disk : ∀ k, (∀ y ∈ as ++ bs, y.ok = true → y.block ≠ k) → (k = b → n.ok = false) →
    d' k = view c k
  valid : n.ok = true → n.data = view c b ∧ (n.dirt = false → n.data = d' b ∨ b ∈ P)
  clean : n.ok = false → n.dirt = false
  refs : ∀ d k, refs ⟨n :: (as ++ bs), d⟩ k = Function.update (refs c) b (refs c b + 1) k
  total : ∀ d : K → D, total ⟨n :: (as ++ bs), d⟩ = total c + 1

/-- A buffer of the block is found. -/
lemma taken_hit (h : Coh P c) (hl : c.bufs = as ++ x :: bs) (hb : x.block = b)
    (has : ∀ y ∈ as, y.block ≠ b) :
    Taken P c b x { x with refc := x.refc + 1 } as bs c.disk := by
  obtain ⟨bufs, d⟩ := c
  simp only at hl
  subst hl
  have hfirst := List.pairwise_append.mp h.first
  have hother : ∀ y ∈ as ++ bs, y.ok = true → b ≠ y.block := by
    intro y hy ho
    obtain hy | hy := List.mem_append.mp hy
    · exact (has y hy).symm
    · rw [← hb]
      exact (List.pairwise_cons.mp hfirst.2.1).1 y hy ho
  refine ⟨rfl, ?_, hb, Nat.succ_pos _, hother, fun y _ _ => rfl, fun k hk hkb => ?_, fun ho => ?_,
    fun ho => ?_, fun d' k => ?_, fun d' => ?_⟩
  · have hfind : (as ++ x :: bs).find? (·.block = b) = some x := by
      rw [List.find?_eq_some_iff_append]
      exact ⟨by simpa using hb, as, bs, rfl, fun y hy => by simpa using has y hy⟩
    have herase : (as ++ x :: bs).eraseP (·.block = b) = as ++ bs := by
      rw [List.eraseP_append_right _ (by simpa using has),
        List.eraseP_cons_of_pos (by simpa using hb)]
    unfold WriteBack.grab
    simp only [hfind, herase]
  · refine (view_none fun y hy ho => ?_).symm
    obtain hy | hy := List.mem_append.mp hy
    · exact hk y (List.mem_append_left _ hy) ho
    · obtain rfl | hy := List.mem_cons.mp hy
      · intro hc
        have := hkb (hc.symm.trans hb)
        rw [ho] at this
        cases this
      · exact hk y (List.mem_append_right _ hy) ho
  · have := h.view_mem (x := x) (by simp) ho
    rw [hb] at this
    refine ⟨this.symm, fun hd => ?_⟩
    have := h.clean x (by simp) ho hd
    rwa [hb] at this
  · by_contra hd
    have := h.dirt x (by simp) (by simpa using hd)
    rw [ho] at this
    cases this
  · rw [refs_cons d', refs_middle d']
    by_cases hk : k = b
    · subst hk
      rw [Function.update_self]
      simp only [if_pos hb]
      omega
    · rw [Function.update_of_ne hk, refs_middle d']
      simp [hb, Ne.symm hk]
  · rw [total_middle d']
    simp [WriteBack.total]
    omega

/-- The oldest buffer that is not held is taken for another block. -/
lemma taken_miss (h : Coh P c) (hl : c.bufs = as ++ x :: bs) (hno : ∀ y ∈ c.bufs, y.block ≠ b)
    (hx : x.refc = 0) (hbs : ∀ y ∈ bs, y.refc ≠ 0) :
    Taken P c b x { x with
      block := b
      ok := false
      dirt := false
      refc := x.refc + 1 } as bs
      (if x.dirt then Function.update c.disk x.block x.data else c.disk) := by
  obtain ⟨bufs, d⟩ := c
  simp only at hl hno
  subst hl
  have hfirst := List.pairwise_append.mp h.first
  have hsub : ∀ y ∈ as ++ bs, y ∈ as ++ x :: bs := fun y hy => by
    rw [List.mem_append] at hy
    obtain hy | hy := hy <;> simp [hy]
  have hdisk : ∀ k, (x.dirt = true → k ≠ x.block) →
      (if x.dirt then Function.update d x.block x.data else d) k = d k := by
    intro k hk
    split_ifs with hd
    · exact Function.update_of_ne (hk hd) _ _
    · rfl
  refine ⟨rfl, ?_, rfl, Nat.succ_pos _, fun y hy _ => (hno y (hsub y hy)).symm, fun y hy ho => ?_,
    fun k hk _ => ?_, fun ho => ?_, fun _ => rfl, fun d' k => ?_, fun d' => ?_⟩
  · have hfind : (as ++ x :: bs).find? (·.block = b) = none := by
      rw [List.find?_eq_none]
      exact fun y hy => by simpa using hno y hy
    have hrev : (as ++ x :: bs).reverse = bs.reverse ++ x :: as.reverse := by simp
    have hfind' : (as ++ x :: bs).reverse.find? (·.refc = 0) = some x := by
      rw [hrev, List.find?_eq_some_iff_append]
      exact ⟨by simpa using hx, _, _, rfl, fun y hy => by
        simpa using hbs y (List.mem_reverse.mp hy)⟩
    have herase : ((as ++ x :: bs).reverse.eraseP (·.refc = 0)).reverse = as ++ bs := by
      rw [hrev, List.eraseP_append_right _ (by simpa using hbs),
        List.eraseP_cons_of_pos (by simpa using hx)]
      simp
    unfold WriteBack.grab
    simp only [hfind, hfind', herase]
  · -- the block that was in the buffer is in no other
    refine hdisk _ fun hd => ?_
    have hxo := h.dirt x (by simp) hd
    obtain hy | hy := List.mem_append.mp hy
    · exact hfirst.2.2 y hy x (by simp) hxo
    · exact ((List.pairwise_cons.mp hfirst.2.1).1 y hy ho).symm
  · by_cases hkx : k = x.block ∧ x.ok = true
    · obtain ⟨rfl, hxo⟩ := hkx
      rw [h.view_mem (by simp) hxo]
      split_ifs with hd
      · exact Function.update_self _ _ _
      · obtain hc | hc := h.clean x (by simp) hxo (by simpa using hd)
        · exact hc.symm
        · have := h.held x (by simp) hc hxo
          omega
    · have hv : view ⟨as ++ x :: bs, d⟩ k = d k := by
        refine view_none fun y hy ho hyk => ?_
        obtain hy | hy := List.mem_append.mp hy
        · exact hk y (List.mem_append_left _ hy) ho hyk
        · obtain rfl | hy := List.mem_cons.mp hy
          · exact hkx ⟨hyk.symm, ho⟩
          · exact hk y (List.mem_append_right _ hy) ho hyk
      rw [hv]
      exact hdisk k fun hd hc => hkx ⟨hc, h.dirt x (by simp) hd⟩
  · cases ho
  · rw [refs_cons d', refs_middle d']
    by_cases hk : k = b
    · subst hk
      rw [Function.update_self]
      simp [hx]
      omega
    · rw [Function.update_of_ne hk, refs_middle d']
      simp [hx, Ne.symm hk]
  · rw [total_middle d']
    simp [WriteBack.total]
    omega

/-- Whenever not all buffers are held, one is found. -/
lemma taken (h : Coh P c) (ht : total c < c.bufs.length) (b : K) :
    ∃ x n as bs d', Taken P c b x n as bs d' := by
  cases hf : c.bufs.find? (·.block = b) with
  | some x =>
    obtain ⟨hb, as, bs, hl, has⟩ := List.find?_eq_some_iff_append.mp hf
    exact ⟨_, _, _, _, _, taken_hit h hl (by simpa using hb) fun y hy => by simpa using has y hy⟩
  | none =>
    have hno : ∀ y ∈ c.bufs, y.block ≠ b := fun y hy => by
      simpa using List.find?_eq_none.mp hf y hy
    cases hg : c.bufs.reverse.find? (·.refc = 0) with
    | none =>
      -- all are held
      have hall : ∀ y ∈ c.bufs, 1 ≤ y.refc := fun y hy => by
        have := List.find?_eq_none.mp hg y (List.mem_reverse.mpr hy)
        simp only [decide_eq_true_eq] at this
        omega
      have := List.card_nsmul_le_sum (c.bufs.map Buf.refc) 1 (by simpa using hall)
      simp only [List.length_map, smul_eq_mul, mul_one] at this
      unfold total at ht
      omega
    | some x =>
      obtain ⟨hx, as, bs, hl, has⟩ := List.find?_eq_some_iff_append.mp hg
      have hl' : c.bufs = bs.reverse ++ x :: as.reverse := by
        rw [← List.reverse_reverse c.bufs, hl]
        simp
      exact ⟨_, _, _, _, _, taken_miss h hl' hno (by simpa using hx) fun y hy => by
        simpa using has y (List.mem_reverse.mp hy)⟩

/-- What holding a block changes: nothing of what the cache says but in the block itself. -/
structure Held (c c' : Cache K D) (b : K) : Prop where
  refs : refs c' = Function.update (refs c) b (refs c b + 1)
  total : total c' = total c + 1
  length : c'.bufs.length = c.bufs.length

/-- **Reading** a block gets what the cache says is in it. -/
theorem read_spec (h : Coh P c) (ht : total c < c.bufs.length) (b : K) :
    ∃ c', read c b = some (view c b, c') ∧ Coh P c' ∧ view c' = view c ∧ Held c c' b := by
  obtain ⟨x, n, as, bs, d', t⟩ := taken h ht b
  have hlen : c.bufs.length = (as ++ bs).length + 1 := by
    rw [t.bufs]
    simp
    omega
  obtain ⟨bufs, d⟩ := c
  obtain rfl : bufs = as ++ x :: bs := t.bufs
  unfold read
  rw [t.grab, Option.bind_some]
  by_cases ho : n.ok = true
  · obtain ⟨hd, hc⟩ := t.valid ho
    have hcoh : Coh P ⟨n :: (as ++ bs), d'⟩ := by
      refine h.front ho (fun y hy h1 => ?_) t.same ?_ t.refc fun y _ _ => Iff.rfl
      · rw [t.block]
        exact t.other y hy h1
      · rw [t.block]
        exact hc
    refine ⟨⟨n :: (as ++ bs), d'⟩, ?_, hcoh, ?_, funext (t.refs d'), t.total d', by simp [hlen]⟩
    · simp only [ho, if_true, hd]
    · have hdisk : ∀ k ≠ n.block, (∀ y ∈ as ++ bs, y.ok = true → y.block ≠ k) → _ := fun k hk h1 =>
        t.disk k h1 fun hkb => absurd (hkb.trans t.block.symm) hk
      rw [h.view_front hcoh ho hdisk, t.block, hd, Function.update_eq_self]
  · have hno : n.ok = false := by simpa using ho
    have hd : d' b = view ⟨as ++ x :: bs, d⟩ b :=
      t.disk b (fun y hy h1 h2 => t.other y hy h1 h2.symm) fun _ => hno
    have hcoh : Coh P ⟨{ n with
        ok := true
        data := d' b } :: (as ++ bs), d'⟩ := by
      refine h.front rfl (fun y hy h1 => ?_) t.same ?_ t.refc fun y _ _ => Iff.rfl
      · simp only [t.block]
        exact t.other y hy h1
      · simp only [t.block]
        exact fun _ => Or.inl trivial
    refine ⟨_, ?_, hcoh, ?_, funext (t.refs d'), t.total d', by simp [hlen]⟩
    · simp only [hno, Bool.false_eq_true, if_false, hd]
    · rw [h.view_front hcoh rfl fun k hk h1 => t.disk k h1 fun _ => hno]
      simp only [t.block, hd, Function.update_eq_self]

/-- **A block of new contents** is what the cache says from now on. -/
theorem zero_spec (h : Coh P c) (ht : total c < c.bufs.length) (z : D) (b : K) :
    ∃ c', zero z c b = some c' ∧ Coh (insert b P) c' ∧ view c' = Function.update (view c) b z ∧
      Held c c' b := by
  obtain ⟨x, n, as, bs, d', t⟩ := taken h ht b
  have hlen : c.bufs.length = (as ++ bs).length + 1 := by
    rw [t.bufs]
    simp
    omega
  obtain ⟨bufs, d⟩ := c
  obtain rfl : bufs = as ++ x :: bs := t.bufs
  have hcoh : Coh (insert b P) ⟨{ n with
      ok := true
      dirt := false
      data := z } :: (as ++ bs), d'⟩ := by
    refine h.front rfl (fun y hy h1 => ?_) t.same ?_ t.refc fun y hy h1 => ?_
    · simp only [t.block]
      exact t.other y hy h1
    · simp only [t.block]
      exact fun _ => Or.inr (Set.mem_insert b P)
    · rw [Set.mem_insert_iff]
      exact or_iff_right (t.other y hy h1).symm
  refine ⟨_, ?_, hcoh, ?_, funext (t.refs d'), t.total d', by simp [hlen]⟩
  · unfold zero
    rw [t.grab, Option.map_some]
  · rw [h.view_front hcoh rfl fun k hk h1 => t.disk k h1 fun hkb => ?_]
    · simp only [t.block]
    · exact absurd (hkb.trans t.block.symm) hk

/-! ### Letting go -/

lemma modify_middle {f : Buf K D → Buf K D} (hb : x.block = b)
    (has : ∀ y ∈ as, y.block ≠ b) : modify b f (as ++ x :: bs) = as ++ f x :: bs := by
  induction as with
  | nil => simp [modify, hb]
  | cons y as ih =>
    rw [List.cons_append, modify, if_neg (has y (by simp)), ih fun y hy => has y (by simp [hy])]
    rfl

/-- A block that is held is in a buffer with valid data, the first of the block. -/
lemma Coh.held_buf (h : Coh P c) (hr : 0 < refs c b) :
    ∃ as x bs, c.bufs = as ++ x :: bs ∧ x.block = b ∧ x.ok = true ∧ (∀ y ∈ as, y.block ≠ b) ∧
      ∀ y ∈ bs, y.ok = true → y.block ≠ b := by
  obtain ⟨x, hx, hb, hpos⟩ : ∃ x ∈ c.bufs, x.block = b ∧ 0 < x.refc := by
    by_contra hc
    push Not at hc
    have : refs c b = 0 := by
      refine List.sum_eq_zero fun v hv => ?_
      obtain ⟨x, hx, rfl⟩ := List.mem_map.mp hv
      split_ifs with hb
      · exact Nat.le_zero.mp (hc x hx hb)
      · rfl
    omega
  have ho : x.ok = true := by
    by_contra hc
    have := h.stale x hx (by simpa using hc)
    omega
  obtain ⟨as, bs, hl⟩ := List.append_of_mem hx
  have hfirst := h.first
  rw [hl, List.pairwise_append] at hfirst
  refine ⟨as, x, bs, hl, hb, ho, fun y hy => ?_, fun y hy h1 => ?_⟩
  · rw [← hb]
    exact hfirst.2.2 y hy x (by simp) ho
  · rw [← hb]
    exact ((List.pairwise_cons.mp hfirst.2.1).1 y hy h1).symm

/-- **Letting a block go**: what has been written into it is what the cache says, if the buffer is
made dirty, or nothing has been written. -/
theorem free_spec (h : Coh P c) (hr : 0 < refs c b) {data : D} {dirt : Bool}
    (hd : dirt = true ∨ data = view c b ∧ b ∉ P) :
    Coh (P \ {b}) (free c b data dirt) ∧
      view (free c b data dirt) = Function.update (view c) b data ∧
      refs (free c b data dirt) = Function.update (refs c) b (refs c b - 1) ∧
      total (free c b data dirt) + 1 = total c ∧
      (free c b data dirt).bufs.length = c.bufs.length := by
  obtain ⟨as, x, bs, hl, hb, ho, has, hbs⟩ := h.held_buf hr
  obtain ⟨bufs, d⟩ := c
  simp only at hl
  subst hl
  generalize hn : ({ x with
    data := data
    dirt := x.dirt || dirt
    refc := x.refc - 1 } : Buf K D) = n
  have e1 : n.block = b := by rw [← hn, ← hb]
  have e2 : n.ok = true := by rw [← hn, ← ho]
  have e3 : n.data = data := by rw [← hn]
  have e4 : n.dirt = (x.dirt || dirt) := by rw [← hn]
  have e5 : n.refc = x.refc - 1 := by rw [← hn]
  have hfree : free ⟨as ++ x :: bs, d⟩ b data dirt = ⟨as ++ n :: bs, d⟩ := by
    unfold free
    rw [modify_middle hb has, hn]
  rw [hfree]
  have hxr : 0 < x.refc := by
    by_contra hc
    have h0 : refs ⟨as ++ x :: bs, d⟩ b = 0 := by
      refine List.sum_eq_zero fun v hv => ?_
      obtain ⟨y, hy, rfl⟩ := List.mem_map.mp hv
      split_ifs with hyb
      · obtain hy | hy := List.mem_append.mp hy
        · exact absurd hyb (has y hy)
        · obtain rfl | hy := List.mem_cons.mp hy
          · omega
          · by_contra hpos
            exact hbs y hy (by
              by_contra hyo
              exact hpos (h.stale y (by simp [hy]) (by simpa using hyo))) hyb
      · rfl
    omega
  have hmem : ∀ y ∈ as ++ n :: bs, y = n ∨ y.block ≠ b ∧ y ∈ as ++ x :: bs ∨
      y ∈ as ++ x :: bs ∧ y.ok = false := by
    intro y hy
    obtain hy | hy := List.mem_append.mp hy
    · exact Or.inr (Or.inl ⟨has y hy, by simp [hy]⟩)
    · obtain rfl | hy := List.mem_cons.mp hy
      · exact Or.inl rfl
      · by_cases hyo : y.ok = true
        · exact Or.inr (Or.inl ⟨hbs y hy hyo, by simp [hy]⟩)
        · exact Or.inr (Or.inr ⟨by simp [hy], by simpa using hyo⟩)
  have hcoh : Coh (P \ {b}) ⟨as ++ n :: bs, d⟩ := by
    refine ⟨?_, fun y hy hyd => ?_, fun y hy hyo hyd => ?_, fun y hy hyP hyo => ?_,
      fun y hy hyo => ?_⟩
    · have hfirst := h.first
      simp only [List.pairwise_append, List.pairwise_cons, List.mem_cons] at hfirst ⊢
      obtain ⟨f1, ⟨f2, f3⟩, f4⟩ := hfirst
      refine ⟨f1, ⟨fun y hy => ?_, f3⟩, fun a ha y hy => ?_⟩
      · rw [e1, ← hb]
        exact f2 y hy
      · obtain rfl | hy := hy
        · rw [e1]
          exact fun _ => has a ha
        · exact f4 a ha y (Or.inr hy)
    · obtain rfl | ⟨-, hy⟩ | ⟨hy, -⟩ := hmem y hy
      · exact e2
      · exact h.dirt y hy hyd
      · exact h.dirt y hy hyd
    · obtain rfl | ⟨hne, hy⟩ | ⟨-, hy⟩ := hmem y hy
      · rw [e4, Bool.or_eq_false_iff] at hyd
        obtain hd | ⟨hd, hP⟩ := hd
        · rw [hd] at hyd
          exact absurd hyd.2 (by simp)
        · left
          have hv := h.view_mem (x := x) (by simp) ho
          obtain hc | hc := h.clean x (by simp) ho hyd.1
          · rw [e3, e1, hd, ← hb, hv, hc]
          · exact absurd (hb ▸ hc) hP
      · obtain hc | hc := h.clean y hy hyo hyd
        · exact Or.inl hc
        · exact Or.inr ⟨hc, hne⟩
      · rw [hyo] at hy
        cases hy
    · obtain rfl | ⟨-, hy⟩ | ⟨hy, -⟩ := hmem y hy
      · exact absurd e1 hyP.2
      · exact h.held y hy hyP.1 hyo
      · exact h.held y hy hyP.1 hyo
    · obtain rfl | ⟨-, hy⟩ | ⟨hy, -⟩ := hmem y hy
      · rw [e2] at hyo
        cases hyo
      · exact h.stale y hy hyo
      · exact h.stale y hy hyo
  refine ⟨hcoh, ?_, ?_, ?_, by simp⟩
  · funext k
    by_cases hk : k = b
    · subst hk
      have := hcoh.view_mem (x := n) (by simp) e2
      rw [e1] at this
      rw [this, Function.update_self, e3]
    · rw [Function.update_of_ne hk]
      have hfind : ∀ y : Buf K D, y.block = b → (y.ok && decide (y.block = k)) = false :=
        fun y hy => by simp [hy, Ne.symm hk]
      unfold view
      simp only [List.find?_append, List.find?_cons, hfind n e1, hfind x hb]
  · funext k
    by_cases hk : k = b
    · subst hk
      rw [Function.update_self, refs_middle d, refs_middle d, if_pos e1, if_pos hb]
      omega
    · rw [Function.update_of_ne hk, refs_middle d, refs_middle d, e1, hb]
      simp only [if_neg (Ne.symm hk)]
  · rw [total_middle d, total_middle d]
    omega

/-! ### The beginning and the end -/

/-- Buffers that have not been used. -/
lemma coh_fresh (h : ∀ x ∈ c.bufs, x.ok = false ∧ x.dirt = false ∧ x.refc = 0) :
    Coh ∅ c ∧ view c = c.disk ∧ total c = 0 ∧ ∀ b, refs c b = 0 := by
  refine ⟨⟨?_, fun x hx => ?_, fun x hx => ?_, fun x hx => ?_, fun x hx _ => (h x hx).2.2⟩, ?_, ?_,
    fun b => ?_⟩
  · refine List.Pairwise.imp_of_mem (R := fun _ _ => True) (fun _ hy _ ho => ?_)
      (List.pairwise_of_forall fun _ _ => trivial)
    rw [(h _ hy).1] at ho
    cases ho
  · rw [(h x hx).2.1]
    simp
  · rw [(h x hx).1]
    simp
  · simp
  · exact funext fun b => view_none fun x hx ho => by
      rw [(h x hx).1] at ho
      cases ho
  · exact List.sum_eq_zero fun v hv => by
      obtain ⟨x, hx, rfl⟩ := List.mem_map.mp hv
      exact (h x hx).2.2
  · exact List.sum_eq_zero fun v hv => by
      obtain ⟨x, hx, rfl⟩ := List.mem_map.mp hv
      rw [(h x hx).2.2]
      exact ite_self 0

lemma flush_other {l : List (Buf K D)} (h : ∀ x ∈ l, x.ok = true → x.dirt = true → x.block ≠ k) :
    l.foldl (fun d x => if x.ok && x.dirt then Function.update d x.block x.data else d) d k =
      d k := by
  induction l generalizing d with
  | nil => rfl
  | cons x l ih =>
    rw [List.foldl_cons, ih fun y hy => h y (by simp [hy])]
    split_ifs with hx
    · rw [Bool.and_eq_true] at hx
      exact Function.update_of_ne (h x (by simp) hx.1 hx.2).symm _ _
    · rfl

/-- **What is on the disk in the end** is what the cache says. -/
theorem flush_spec (h : Coh ∅ c) : flush c = view c := by
  funext k
  by_cases hx : ∃ x ∈ c.bufs, x.ok = true ∧ x.block = k
  · obtain ⟨x, hx, ho, rfl⟩ := hx
    rw [h.view_mem hx ho]
    by_cases hd : x.dirt = true
    · obtain ⟨as, bs, hl⟩ := List.append_of_mem hx
      have hfirst := h.first
      rw [hl, List.pairwise_append, List.pairwise_cons] at hfirst
      unfold flush
      rw [hl, List.foldl_append, List.foldl_cons, flush_other, ho, hd]
      · simp
      · exact fun y hy h1 _ => (hfirst.2.1.1 y hy h1).symm
    · obtain hc | hc := h.clean x hx ho (by simpa using hd)
      · rw [hc]
        refine flush_other fun y hy h1 h2 h3 => ?_
        have e1 := h.view_mem hy h1
        obtain ⟨as, bs, hl⟩ := List.append_of_mem hx
        have hfirst := h.first
        rw [hl, List.pairwise_append, List.pairwise_cons] at hfirst
        rw [hl] at hy
        obtain hy | hy := List.mem_append.mp hy
        · exact hfirst.2.2 y hy x (by simp) ho h3
        · obtain rfl | hy := List.mem_cons.mp hy
          · exact hd h2
          · exact hfirst.2.1.1 y hy h1 h3.symm
      · exact absurd hc (Set.notMem_empty _)
  · have hno : ∀ x ∈ c.bufs, x.ok = true → x.block ≠ k := fun x h1 h2 h3 => hx ⟨x, h1, h2, h3⟩
    rw [view_none hno]
    exact flush_other fun x h1 h2 _ => hno x h1 h2

end Coherent.Lib.WriteBack
