import Coherent.Lib.Chunks
import Coherent.Lib.Linked
import Coherent.Lib.Run

/-!
Character queues: `cltinit`, `getq`, `putq` and `clrq`.

All queues share the pool of character lists. A queue takes a list from the pool when it has
to store a character and the last list is full, and gives one back when its last character has
been read; so a queue without characters has no list.
-/

namespace Coherent.Clist

open Coherent.Lib

def NCLIST : ℕ := 32
def NCPCL : ℕ := 252

/-- The character lists of the pool, by their place in it. -/
abbrev CLIST := Fin NCLIST

structure CQUEUE where
  cq_cc : ℕ
  cq_ip : Option CLIST
  cq_ix : ℕ
  cq_op : Option CLIST
  cq_ox : ℕ

/-- The queue after its first list has been given back, with `np` behind it. -/
def CQUEUE.given (q : CQUEUE) (np : Option CLIST) : CQUEUE where
  cq_cc := q.cq_cc - 1
  cq_ip := if np = none then none else q.cq_ip
  cq_ix := if np = none then 0 else q.cq_ix
  cq_op := np
  cq_ox := 0

/-- The queue after a character has been read, and is to be read on in the same list. -/
def CQUEUE.got (q : CQUEUE) : CQUEUE := { q with cq_cc := q.cq_cc - 1, cq_ox := q.cq_ox + 1 }

/-- The queue after a character has been stored. -/
def CQUEUE.stored (q : CQUEUE) : CQUEUE :=
  { q with
    cq_ix := if q.cq_ix + 1 = NCPCL then 0 else q.cq_ix + 1
    cq_cc := q.cq_cc + 1 }

/-- The pool and the queues, of which there is one for each `ι`. -/
structure Clists (ι : Type*) where
  cl_fp : CLIST → Option CLIST
  cl_ch : CLIST → ℕ → UInt8
  cltfree : Option CLIST
  cltwant : Bool
  cq : ι → CQUEUE

variable {ι : Type*}

/-- Initialise character list queues. -/
def cltinit (s : Clists ι) : Clists ι :=
  let r := (List.finRange NCLIST).reverse.foldl
    (fun (r : (CLIST → Option CLIST) × Option CLIST) cm => (Function.update r.1 cm r.2, some cm))
    (s.cl_fp, none)
  { s with cl_fp := r.1, cltfree := r.2 }

variable [DecidableEq ι]

/-- Get a character from the given queue, `none` for -1. Without a result it follows a null
pointer. -/
def getq (s : Clists ι) (cqp : ι) : Option (Option UInt8 × Clists ι) :=
  let q := s.cq cqp
  if q.cq_cc = 0 then some (none, s)
  else
    match q.cq_op with
    | none => none
    | some op =>
      let c := s.cl_ch op q.cq_ox
      if q.cq_cc - 1 = 0 ∨ q.cq_ox + 1 = NCPCL then
        some (some c, { s with
          cl_fp := Function.update s.cl_fp op s.cltfree
          cltfree := some op
          cltwant := false
          cq := Function.update s.cq cqp (q.given (s.cl_fp op)) })
      else some (some c, { s with cq := Function.update s.cq cqp q.got })

/-- The end of `putq`: the character goes to the list `ip`. -/
def putch (s : Clists ι) (cqp : ι) (ip : CLIST) (c : UInt8) : Clists ι :=
  let q := s.cq cqp
  { s with
    cl_ch := Function.update s.cl_ch ip (Function.update (s.cl_ch ip) q.cq_ix c)
    cq := Function.update s.cq cqp q.stored }

/-- The start of `putq` where a list is needed: `ip` is taken off the pool and linked in behind
the last list of the queue. -/
def newlist (s : Clists ι) (cqp : ι) (ip : CLIST) : Clists ι :=
  let q := s.cq cqp
  let fp := Function.update s.cl_fp ip none
  { s with
    cltfree := s.cl_fp ip
    cl_fp := match q.cq_ip with
      | none => fp
      | some np => Function.update fp np (some ip)
    cq := Function.update s.cq cqp { q with
      cq_op := if q.cq_ip = none then some ip else q.cq_op
      cq_ip := some ip } }

/-- Put a character on the given queue, `false` for -1. -/
def putq (s : Clists ι) (cqp : ι) (c : UInt8) : Option (Bool × Clists ι) :=
  if (s.cq cqp).cq_ix = 0 then
    match s.cltfree with
    | none => some (false, s)
    | some ip => some (true, putch (newlist s cqp ip) cqp ip c)
  else
    match (s.cq cqp).cq_ip with
    | none => none
    | some ip => some (true, putch s cqp ip c)

lemma getq_cc {s s' : Clists ι} {cqp : ι} {c : UInt8} (h : getq s cqp = some (some c, s')) :
    (s'.cq cqp).cq_cc < (s.cq cqp).cq_cc := by
  unfold getq at h
  cases hop : (s.cq cqp).cq_op with
  | none =>
    simp only [hop] at h
    split_ifs at h
    simp at h
  | some op =>
    simp only [hop] at h
    split_ifs at h with h0 hend
    · simp at h
    · obtain ⟨-, rfl⟩ := Prod.mk.inj (Option.some.inj h)
      simp only [Function.update_self, CQUEUE.given]
      omega
    · obtain ⟨-, rfl⟩ := Prod.mk.inj (Option.some.inj h)
      simp only [Function.update_self, CQUEUE.got]
      omega

/-- Clear a character queue. -/
def clrq (s : Clists ι) (cqp : ι) : Option (Clists ι) :=
  match _h : getq s cqp with
  | none => none
  | some (none, s') => some s'
  | some (some _, s') => clrq s' cqp
  termination_by (s.cq cqp).cq_cc
  decreasing_by exact getq_cc _h

/-! ### One queue -/

/-- The queue `q` has the lists `chain` and the characters `text`. -/
structure Queue (fp : CLIST → Option CLIST) (ch : CLIST → ℕ → UInt8) (q : CQUEUE)
    (chain : List CLIST) (text : List UInt8) : Prop where
  linked : Linked fp q.cq_op chain
  ip : q.cq_ip = chain.getLast?
  cc : q.cq_cc = text.length
  stored : Stored ch NCPCL chain q.cq_ox text
  ox : q.cq_ox < NCPCL
  ix : q.cq_ix = (q.cq_ox + text.length) % NCPCL
  length : chain.length = (q.cq_ox + text.length + (NCPCL - 1)) / NCPCL
  empty : text = [] → q.cq_ox = 0

variable {fp fp' : CLIST → Option CLIST} {ch ch' : CLIST → ℕ → UInt8} {q : CQUEUE}
  {chain bs : List CLIST} {text : List UInt8} {c : UInt8} {b : CLIST}

/-- A queue depends on its own lists only. -/
lemma Queue.congr (h : Queue fp ch q chain text) (hfp : ∀ b ∈ chain, fp' b = fp b)
    (hch : ∀ b ∈ chain, ch' b = ch b) : Queue fp' ch' q chain text :=
  ⟨h.linked.congr hfp, h.ip, h.cc, h.stored.congr hch, h.ox, h.ix, h.length, h.empty⟩

/-- A queue without characters has no list. -/
lemma Queue.chain_nil (h : Queue fp ch q chain []) : chain = [] := by
  have hl := h.length
  rw [h.empty rfl] at hl
  exact List.length_eq_zero_iff.mp hl

/-- A queue with characters has a first list, and its first character is there. -/
lemma Queue.first (h : Queue fp ch q chain (c :: text)) :
    ∃ b rest, chain = b :: rest ∧ q.cq_op = some b ∧ ch b q.cq_ox = c := by
  have hl := h.length
  cases chain with
  | nil =>
    simp only [List.length_nil, List.length_cons, NCPCL] at hl
    omega
  | cons b rest => exact ⟨b, rest, rfl, h.linked.1, h.stored.head h.ox⟩

/-- The first list is given back. -/
lemma Queue.give (h : Queue fp ch q (b :: chain) (c :: text))
    (hend : q.cq_cc - 1 = 0 ∨ q.cq_ox + 1 = NCPCL) (hfp : ∀ d ∈ chain, fp' d = fp d) :
    Queue fp' ch (q.given (fp b)) chain text := by
  obtain ⟨-, hlink⟩ := h.linked
  have hnil := hlink.eq_none_iff
  have hl := h.length
  have hix := h.ix
  have hip := h.ip
  have hcc := h.cc
  have hox := h.ox
  simp only [List.length_cons, NCPCL] at hl hix hcc hox hend
  by_cases ht : text = []
  · -- that was the last character
    subst ht
    have hc : chain = [] := by
      refine List.length_eq_zero_iff.mp ?_
      simp only [List.length_nil] at hl
      omega
    subst hc
    have hb : fp b = none := hnil.mpr rfl
    rw [hb]
    have h0 : 0 < NCPCL := by decide
    refine ⟨rfl, rfl, ?_, .nil, h0, rfl, ?_, fun _ => rfl⟩
    · rw [CQUEUE.given, hcc]
      rfl
    · simp [CQUEUE.given, NCPCL]
  · -- the list has been read to its end
    have hpos := List.length_pos_of_ne_nil ht
    have hne : chain ≠ [] := by
      rintro rfl
      simp only [List.length_nil] at hl
      omega
    have hb : fp b ≠ none := fun e => hne (hnil.mp e)
    have hg : q.given (fp b) = { q with cq_cc := q.cq_cc - 1, cq_op := fp b, cq_ox := 0 } := by
      rw [CQUEUE.given, if_neg hb, if_neg hb]
    have h0 : 0 < NCPCL := by decide
    rw [hg]
    refine ⟨hlink.congr hfp, ?_, ?_, ?_, h0, ?_, ?_, fun e => absurd e ht⟩
    · exact hip.trans (List.getLast?_cons_of_ne_nil hne)
    · change q.cq_cc - 1 = _
      omega
    · have hs := h.stored.tail
      rw [show q.cq_ox + 1 = NCPCL by unfold NCPCL; omega] at hs
      exact hs.drop h0
    · change q.cq_ix = (0 + _) % 252
      omega
    · change chain.length = (0 + _ + 251) / 252
      omega

/-- The first list is kept. -/
lemma Queue.get (h : Queue fp ch q chain (c :: text))
    (hend : ¬ (q.cq_cc - 1 = 0 ∨ q.cq_ox + 1 = NCPCL)) : Queue fp ch q.got chain text := by
  have hl := h.length
  have hix := h.ix
  have hcc := h.cc
  have hox := h.ox
  simp only [List.length_cons, NCPCL] at hl hix hcc hox hend
  refine ⟨h.linked, h.ip, ?_, h.stored.tail, ?_, ?_, ?_, fun e => ?_⟩
  · change q.cq_cc - 1 = _
    omega
  · change q.cq_ox + 1 < 252
    omega
  · change q.cq_ix = (q.cq_ox + 1 + text.length) % 252
    omega
  · change chain.length = (q.cq_ox + 1 + text.length + 251) / 252
    omega
  · rw [e] at hcc
    exact absurd (Or.inl (by rw [hcc]; rfl)) hend

/-- The room of the last list. -/
lemma Queue.place (h : Queue fp ch q chain text) (hix : q.cq_ix ≠ 0) :
    ∃ b, q.cq_ip = some b ∧ chain[(q.cq_ox + text.length) / NCPCL]? = some b ∧
      chain.length = (q.cq_ox + text.length + 1 + (NCPCL - 1)) / NCPCL := by
  have hl := h.length
  have hi := h.ix
  have hox := h.ox
  simp only [NCPCL] at hl hi hox ⊢
  have hlt : (q.cq_ox + text.length) / 252 + 1 = chain.length := by omega
  have hget : chain[(q.cq_ox + text.length) / 252]? = chain.getLast? := by
    rw [List.getLast?_eq_getElem?, ← hlt, Nat.add_sub_cancel]
  have hsome : chain.getLast? ≠ none := by
    rw [Ne, List.getLast?_eq_none_iff]
    rintro rfl
    simp at hlt
  obtain ⟨b, hb⟩ := Option.ne_none_iff_exists'.mp hsome
  exact ⟨b, by rw [h.ip, hb], by rw [hget, hb], by omega⟩

/-- A character is stored in the last list. -/
lemma Queue.put (h : Queue fp ch q chain text) (c : UInt8) {op : Option CLIST}
    (hlink : Linked fp' op bs) (hstored : Stored ch NCPCL bs q.cq_ox text)
    (hb : bs[(q.cq_ox + text.length) / NCPCL]? = some b) (hlast : bs.getLast? = some b)
    (hlen : bs.length = (q.cq_ox + text.length + 1 + (NCPCL - 1)) / NCPCL) :
    Queue fp' (Function.update ch b (Function.update (ch b) q.cq_ix c))
      { q with cq_op := op, cq_ip := some b }.stored bs (text ++ [c]) := by
  have hix := h.ix
  have hox := h.ox
  simp only [NCPCL] at hix hox
  refine ⟨hlink, hlast.symm, ?_, ?_, h.ox, ?_, ?_, fun e => by simp at e⟩
  · simp [CQUEUE.stored, h.cc]
  · have hs := hstored.snoc (c := c) hlink.nodup hb
    rw [← h.ix] at hs
    exact hs
  · change (if q.cq_ix + 1 = 252 then 0 else q.cq_ix + 1) = (q.cq_ox + (text ++ [c]).length) % 252
    rw [List.length_append, List.length_singleton]
    split_ifs <;> omega
  · rw [hlen, List.length_append, List.length_singleton]
    rfl

/-! ### The pool -/

/-- Every list of the pool is either free or in one queue, and the queues hold the characters
`text`. -/
structure Holds (s : Clists ι) (free : List CLIST) (chain : ι → List CLIST)
    (text : ι → List UInt8) : Prop where
  pool : Linked s.cl_fp s.cltfree free
  queue : ∀ i, Queue s.cl_fp s.cl_ch (s.cq i) (chain i) (text i)
  apart : ∀ i, ∀ b ∈ chain i, b ∉ free
  other : ∀ i j, i ≠ j → ∀ b ∈ chain i, b ∉ chain j
  all : ∀ b, b ∈ free ∨ ∃ i, b ∈ chain i

variable {s s' : Clists ι} {free free' : List CLIST} {chain : ι → List CLIST}
  {text : ι → List UInt8} {i : ι} {q : CQUEUE} {bs : List CLIST} {l : List UInt8} {c : UInt8}

/-- One queue changes, and its lists and the free ones are shared out anew. -/
lemma Holds.change (h : Holds s free chain text) (hcq : s'.cq = Function.update s.cq i q)
    (hq : Queue s'.cl_fp s'.cl_ch q bs l) (hfree : Linked s'.cl_fp s'.cltfree free')
    (hfp : ∀ b, b ∉ free → b ∉ chain i → s'.cl_fp b = s.cl_fp b)
    (hch : ∀ b, b ∉ free → b ∉ chain i → s'.cl_ch b = s.cl_ch b)
    (hsame : ∀ b, b ∈ free' ∨ b ∈ bs ↔ b ∈ free ∨ b ∈ chain i) (hdis : ∀ b ∈ bs, b ∉ free') :
    Holds s' free' (Function.update chain i bs) (Function.update text i l) := by
  have hoff : ∀ j, j ≠ i → ∀ b ∈ chain j, b ∉ free ∧ b ∉ chain i := fun j hj b hb =>
    ⟨h.apart j b hb, h.other j i hj b hb⟩
  have hnew : ∀ j, j ≠ i → ∀ b ∈ chain j, b ∉ free' ∧ b ∉ bs := by
    intro j hj b hb
    have := mt (hsame b).mp (not_or.mpr (hoff j hj b hb))
    exact not_or.mp this
  refine ⟨hfree, fun j => ?_, fun j => ?_, fun j k hjk => ?_, fun b => ?_⟩
  · by_cases hj : j = i
    · subst hj
      rw [hcq, Function.update_self, Function.update_self, Function.update_self]
      exact hq
    · rw [hcq, Function.update_of_ne hj, Function.update_of_ne hj, Function.update_of_ne hj]
      exact (h.queue j).congr (fun b hb => hfp b (hoff j hj b hb).1 (hoff j hj b hb).2)
        fun b hb => hch b (hoff j hj b hb).1 (hoff j hj b hb).2
  · by_cases hj : j = i
    · subst hj
      rw [Function.update_self]
      exact hdis
    · rw [Function.update_of_ne hj]
      exact fun b hb => (hnew j hj b hb).1
  · by_cases hj : j = i
    · subst hj
      rw [Function.update_self, Function.update_of_ne (Ne.symm hjk)]
      exact fun b hb hk => (hnew k (Ne.symm hjk) b hk).2 hb
    · rw [Function.update_of_ne hj]
      by_cases hk : k = i
      · subst hk
        rw [Function.update_self]
        exact fun b hb => (hnew j hj b hb).2
      · rw [Function.update_of_ne hk]
        exact h.other j k hjk
  · rcases h.all b with hb | ⟨j, hb⟩
    · rcases (hsame b).mpr (Or.inl hb) with hb | hb
      · exact Or.inl hb
      · exact Or.inr ⟨i, by rw [Function.update_self]; exact hb⟩
    · by_cases hj : j = i
      · subst hj
        rcases (hsame b).mpr (Or.inr hb) with hb | hb
        · exact Or.inl hb
        · exact Or.inr ⟨j, by rw [Function.update_self]; exact hb⟩
      · exact Or.inr ⟨j, by rw [Function.update_of_ne hj]; exact hb⟩

lemma getq_empty (h : Holds s free chain text) (ht : text i = []) : getq s i = some (none, s) := by
  have hcc := (h.queue i).cc
  rw [ht, List.length_nil] at hcc
  rw [getq, if_pos hcc]

/-- **`getq`** takes the first character. -/
lemma getq_spec (h : Holds s free chain text) (ht : text i = c :: l) :
    ∃ s' free' bs, getq s i = some (some c, s') ∧
      Holds s' free' (Function.update chain i bs) (Function.update text i l) := by
  have hq := h.queue i
  rw [ht] at hq
  obtain ⟨b, rest, hc, hop, hch⟩ := hq.first
  rw [hc] at hq
  have hcc : ¬ (s.cq i).cq_cc = 0 := by rw [hq.cc]; simp
  have hb : b ∈ chain i := by rw [hc]; simp
  have hnd := hq.linked.nodup
  have hbrest : b ∉ rest := (List.nodup_cons.mp hnd).1
  unfold getq
  simp only [if_neg hcc, hop, hch]
  by_cases hend : (s.cq i).cq_cc - 1 = 0 ∨ (s.cq i).cq_ox + 1 = NCPCL
  · -- the list goes back to the pool
    rw [if_pos hend]
    have hne : ∀ d ∈ rest, d ≠ b := by
      rintro d hd rfl
      exact hbrest hd
    refine ⟨_, b :: free, rest, rfl, h.change rfl ?_ ?_ ?_ (fun _ _ _ => rfl) ?_ ?_⟩
    · exact hq.give hend fun d hd => Function.update_of_ne (hne d hd) _ _
    · exact h.pool.push (h.apart i b hb)
    · intro d _ hd
      refine Function.update_of_ne ?_ _ _
      rintro rfl
      exact hd hb
    · intro d
      rw [hc]
      simp only [List.mem_cons]
      tauto
    · intro d hd
      rw [List.mem_cons, not_or]
      exact ⟨hne d hd, h.apart i d (by rw [hc]; simp [hd])⟩
  · rw [if_neg hend]
    refine ⟨_, free, b :: rest, rfl, h.change rfl (hq.get hend) h.pool (fun _ _ _ => rfl)
      (fun _ _ _ => rfl) (fun d => by rw [hc]) fun d hd => ?_⟩
    exact h.apart i d (by rw [hc]; exact hd)

/-- All room is taken: the last list of the queue is full, and no list is free. -/
def Full (s : Clists ι) (free : List CLIST) (chain : ι → List CLIST) (text : ι → List UInt8)
    (i : ι) : Prop :=
  free = [] ∧ (s.cq i).cq_ox + (text i).length = NCPCL * (chain i).length

/-- A new list is needed just when the ones there are full. -/
lemma Queue.ix_zero_iff {fp : CLIST → Option CLIST} {ch : CLIST → ℕ → UInt8}
    (h : Queue fp ch q bs l) : q.cq_ix = 0 ↔ q.cq_ox + l.length = NCPCL * bs.length := by
  have hix := h.ix
  have hl := h.length
  have hox := h.ox
  simp only [NCPCL] at hix hl hox ⊢
  omega

/-- The new list is the last of the queue. -/
lemma Queue.newlist {b : CLIST} (h : Queue s.cl_fp s.cl_ch (s.cq i) bs l) (hb : b ∉ bs) :
    Linked (newlist s i b).cl_fp (if (s.cq i).cq_ip = none then some b else (s.cq i).cq_op)
        (bs ++ [b]) ∧
      ∀ d, d ≠ b → d ∉ bs → (Clist.newlist s i b).cl_fp d = s.cl_fp d := by
  have hip := h.ip
  unfold Clist.newlist
  dsimp only
  cases hq : (s.cq i).cq_ip with
  | none =>
    -- it is the first, too
    rw [hq] at hip
    obtain rfl : bs = [] := List.getLast?_eq_none_iff.mp hip.symm
    refine ⟨⟨rfl, ?_⟩, fun d hd _ => Function.update_of_ne hd _ _⟩
    exact Function.update_self ..
  | some a =>
    rw [hq] at hip
    obtain ⟨ds, rfl⟩ := List.getLast?_eq_some_iff.mp hip.symm
    have hab : a ≠ b := by
      rintro rfl
      exact hb (by simp)
    dsimp only
    rw [if_neg (by simp)]
    refine ⟨?_, fun d hd hds => ?_⟩
    · rw [Function.update_comm hab.symm]
      exact h.linked.snoc hb
    · have hda : d ≠ a := by
        rintro rfl
        exact hds (by simp)
      rw [Function.update_of_ne hda, Function.update_of_ne hd]

/-- **`putq`** stores a character behind the others, or leaves everything as it is. -/
lemma putq_spec (h : Holds s free chain text) (c : UInt8) :
    (Full s free chain text i ∧ putq s i c = some (false, s)) ∨
    ¬ Full s free chain text i ∧ ∃ s' free' bs, putq s i c = some (true, s') ∧
      Holds s' free' (Function.update chain i bs) (Function.update text i (text i ++ [c])) := by
  have hq := h.queue i
  unfold putq
  by_cases hix : (s.cq i).cq_ix = 0
  · rw [if_pos hix]
    have hfull := hq.ix_zero_iff.mp hix
    cases hfree : free with
    | nil =>
      -- there is no list to be had
      left
      have hf := h.pool
      rw [hfree] at hf
      have hnone : s.cltfree = none := hf
      rw [hnone]
      exact ⟨⟨rfl, hfull⟩, rfl⟩
    | cons b rest =>
      right
      refine ⟨fun hF => by simp [Full] at hF, ?_⟩
      have hf := h.pool
      rw [hfree] at hf
      obtain ⟨hhead, hrest⟩ := hf
      have hnd : (b :: rest).Nodup := by
        rw [← hfree]
        exact h.pool.nodup
      have hbrest := (List.nodup_cons.mp hnd).1
      have hbc : b ∉ chain i := fun hb => h.apart i b hb (by rw [hfree]; simp)
      obtain ⟨hlink, hoff⟩ := hq.newlist hbc
      have hget : (chain i ++ [b])[((s.cq i).cq_ox + (text i).length) / NCPCL]? = some b := by
        rw [hfull, Nat.mul_div_cancel_left _ (by decide)]
        simp
      have hlen : (chain i ++ [b]).length =
          ((s.cq i).cq_ox + (text i).length + 1 + (NCPCL - 1)) / NCPCL := by
        rw [hfull, List.length_append, List.length_singleton, Nat.add_assoc,
          Nat.mul_add_div (by decide)]
        rfl
      rw [hhead]
      have hcq : (putch (newlist s i b) i b c).cq = Function.update s.cq i { s.cq i with
          cq_op := if (s.cq i).cq_ip = none then some b else (s.cq i).cq_op
          cq_ip := some b }.stored := by
        simp only [putch, newlist, Function.update_idem, Function.update_self]
      refine ⟨_, rest, chain i ++ [b], rfl, h.change hcq ?_ ?_ (fun d hd hd' => ?_)
        (fun d hd _ => ?_) (fun d => ?_) fun d hd hdr => ?_⟩
      · have hp := hq.put c hlink (hq.stored.append [b]) hget (by simp) hlen
        simp only [putch, newlist, Function.update_self] at hp ⊢
        exact hp
      · refine hrest.congr fun d hd => hoff d ?_ fun hdc => ?_
        · rintro rfl
          exact hbrest hd
        · exact h.apart i d hdc (by rw [hfree]; simp [hd])
      · refine hoff d ?_ hd'
        rintro rfl
        exact hd (by rw [hfree]; simp)
      · refine Function.update_of_ne ?_ _ _
        rintro rfl
        exact hd (by rw [hfree]; simp)
      · rw [hfree]
        simp only [List.mem_append, List.mem_cons, List.not_mem_nil, or_false]
        tauto
      · rcases List.mem_append.mp hd with hd | hd
        · exact h.apart i d hd (by rw [hfree]; simp [hdr])
        · rw [List.mem_singleton.mp hd] at hdr
          exact hbrest hdr
  · rw [if_neg hix]
    right
    refine ⟨fun hF => hix (hq.ix_zero_iff.mpr hF.2), ?_⟩
    obtain ⟨b, hip, hget, hlen⟩ := hq.place hix
    have hlast : (chain i).getLast? = some b := hq.ip.symm.trans hip
    have hb : b ∈ chain i := List.mem_of_getLast? hlast
    rw [hip]
    refine ⟨_, free, chain i, rfl, h.change rfl ?_ h.pool (fun _ _ _ => rfl) (fun d _ hd => ?_)
      (fun d => Iff.rfl) (h.apart i)⟩
    · have hp := hq.put c hq.linked hq.stored hget hlast hlen
      rw [← hip] at hp
      exact hp
    · refine Function.update_of_ne ?_ _ _
      rintro rfl
      exact hd hb

/-- **`clrq`** takes all characters. -/
lemma clrq_spec (h : Holds s free chain text) :
    ∃ s' free' bs, clrq s i = some s' ∧
      Holds s' free' (Function.update chain i bs) (Function.update text i []) := by
  generalize hl : text i = l
  induction l generalizing s free chain text with
  | nil =>
    refine ⟨s, free, chain i, ?_, ?_⟩
    · rw [clrq, getq_empty h hl]
    · rw [← hl, Function.update_eq_self, Function.update_eq_self]
      exact h
  | cons c l ih =>
    obtain ⟨s₁, free₁, bs₁, hg, h₁⟩ := getq_spec h hl
    obtain ⟨s₂, free₂, bs₂, hc, h₂⟩ := ih h₁ (by rw [Function.update_self])
    rw [Function.update_idem, Function.update_idem] at h₂
    refine ⟨s₂, free₂, bs₂, ?_, h₂⟩
    rw [clrq, hg]
    exact hc

/-! ### All queues -/

/-- The free lists that `cltinit` links together. -/
lemma cltinit_linked (fp : CLIST → Option CLIST) {h : Option CLIST} (l acc : List CLIST)
    (hl : Linked fp h acc) (hnd : (l.reverse ++ acc).Nodup) :
    Linked (l.foldl (fun (r : (CLIST → Option CLIST) × Option CLIST) cm =>
        (Function.update r.1 cm r.2, some cm)) (fp, h)).1
      (l.foldl (fun (r : (CLIST → Option CLIST) × Option CLIST) cm =>
        (Function.update r.1 cm r.2, some cm)) (fp, h)).2 (l.reverse ++ acc) := by
  induction l generalizing fp h acc with
  | nil => exact hl
  | cons a l ih =>
    rw [List.reverse_cons, List.append_assoc] at hnd ⊢
    have ha : a ∉ acc := by
      have := (List.nodup_append.mp hnd).2.1
      exact (List.nodup_cons.mp this).1
    exact ih _ (a :: acc) (hl.push ha) hnd

/-- All queues are empty. -/
def reset (fp : CLIST → Option CLIST) (ch : CLIST → ℕ → UInt8) (h : Option CLIST) (w : Bool) :
    Clists ι :=
  ⟨fp, ch, h, w, fun _ => ⟨0, none, 0, none, 0⟩⟩

omit [DecidableEq ι] in
lemma cltinit_holds (fp : CLIST → Option CLIST) (ch : CLIST → ℕ → UInt8) (h : Option CLIST)
    (w : Bool) : Holds (cltinit (reset fp ch h w : Clists ι)) (List.finRange NCLIST) (fun _ => [])
      fun _ => [] := by
  have hl := cltinit_linked fp (List.finRange NCLIST).reverse [] rfl
    (by simpa using List.nodup_finRange NCLIST)
  rw [List.reverse_reverse, List.append_nil] at hl
  refine ⟨hl, fun i => ?_, by simp, by simp, fun b => Or.inl (List.mem_finRange b)⟩
  have h0 : 0 < NCPCL := by decide
  exact ⟨rfl, rfl, rfl, .nil, h0, rfl, by simp [cltinit, reset, NCPCL], fun _ => rfl⟩

inductive Op (ι : Type*)
  | getq (i : ι)
  | putq (i : ι) (c : UInt8)
  | clrq (i : ι)

/-- What an operation returns. -/
inductive Out
  | got (c : Option UInt8)
  | put (ok : Bool)
  | cleared

def exec (s : Clists ι) : Op ι → Option (Out × Clists ι)
  | .getq i => (getq s i).map fun r => (.got r.1, r.2)
  | .putq i c => (putq s i c).map fun r => (.put r.1, r.2)
  | .clrq i => (clrq s i).map fun s' => (.cleared, s')

/-- A run of operations, with what they return. -/
def execs (s : Clists ι) : List (Op ι) → Option (List Out × Clists ι)
  | [] => some ([], s)
  | op :: ops =>
    match exec s op with
    | none => none
    | some (o, s') => (execs s' ops).map fun r => (o :: r.1, r.2)

/-- The same operations on byte strings: a queue gives its first byte and takes one more at its
end, or refuses it. -/
inductive Fifo : (ι → List UInt8) → Op ι × Out → (ι → List UInt8) → Prop
  | empty {F : ι → List UInt8} {i : ι} (h : F i = []) : Fifo F (.getq i, .got none) F
  | get {F : ι → List UInt8} {i : ι} {c : UInt8} {l : List UInt8} (h : F i = c :: l) :
      Fifo F (.getq i, .got (some c)) (Function.update F i l)
  | put (F : ι → List UInt8) (i : ι) (c : UInt8) :
      Fifo F (.putq i c, .put true) (Function.update F i (F i ++ [c]))
  | refuse (F : ι → List UInt8) (i : ι) (c : UInt8) : Fifo F (.putq i c, .put false) F
  | clear (F : ι → List UInt8) (i : ι) : Fifo F (.clrq i, .cleared) (Function.update F i [])

/-- One operation. -/
lemma exec_spec (h : Holds s free chain text) (op : Op ι) :
    ∃ o s' free' chain' text', exec s op = some (o, s') ∧ Fifo text (op, o) text' ∧
      Holds s' free' chain' text' := by
  cases op with
  | getq i =>
    cases ht : text i with
    | nil => exact ⟨_, s, _, _, _, by rw [exec, getq_empty h ht]; rfl, .empty ht, h⟩
    | cons c l =>
      obtain ⟨s', free', bs, hg, h'⟩ := getq_spec h ht
      exact ⟨_, s', _, _, _, by rw [exec, hg]; rfl, .get ht, h'⟩
  | putq i c =>
    rcases putq_spec h c with ⟨-, hp⟩ | ⟨-, s', free', bs, hp, h'⟩
    · exact ⟨_, s, _, _, _, by rw [exec, hp]; rfl, .refuse _ _ _, h⟩
    · exact ⟨_, s', _, _, _, by rw [exec, hp]; rfl, .put _ _ _, h'⟩
  | clrq i =>
    obtain ⟨s', free', bs, hc, h'⟩ := clrq_spec (i := i) h
    exact ⟨_, s', _, _, _, by rw [exec, hc]; rfl, .clear _ _, h'⟩

lemma execs_spec (h : Holds s free chain text) (ops : List (Op ι)) :
    ∃ outs s' free' chain' text', execs s ops = some (outs, s') ∧
      Run Fifo text (ops.zip outs) text' ∧ outs.length = ops.length ∧
      Holds s' free' chain' text' := by
  induction ops generalizing s free chain text with
  | nil => exact ⟨[], s, _, _, text, rfl, .nil _, rfl, h⟩
  | cons op ops ih =>
    obtain ⟨o, s₁, free₁, chain₁, text₁, he, hf, h₁⟩ := exec_spec h op
    obtain ⟨outs, s₂, free₂, chain₂, text₂, hes, hr, hlen, h₂⟩ := ih h₁
    refine ⟨o :: outs, s₂, free₂, chain₂, text₂, ?_, .cons hf hr, ?_, h₂⟩
    · rw [execs, he]
      dsimp only
      rw [hes]
      rfl
    · rw [List.length_cons, List.length_cons, hlen]

/-- **Character queues are queues.** Whatever the operations on whatever queues, after `cltinit`
none follows a null pointer, and they return what they would on byte strings. Then every list of
the pool is free or in the chain of one queue, never both or in two; the count of a queue is its
length, and one without characters has no list; and a byte is refused, with nothing changed, just
when no list is free and the queue has filled the lists it has. -/
theorem clist_fifo (fp : CLIST → Option CLIST) (ch : CLIST → ℕ → UInt8) (h : Option CLIST)
    (w : Bool) (ops : List (Op ι)) :
    ∃ outs s free chain text, execs (cltinit (reset fp ch h w)) ops = some (outs, s) ∧
      outs.length = ops.length ∧ Run Fifo (fun _ => []) (ops.zip outs) text ∧
      Holds s free chain text ∧
      (∀ i, (s.cq i).cq_cc = (text i).length ∧ ((s.cq i).cq_cc = 0 → chain i = [])) ∧
      ∀ i c, putq s i c = some (false, s) ↔ Full s free chain text i := by
  obtain ⟨outs, s, free, chain, text, he, hr, hlen, hH⟩ :=
    execs_spec (cltinit_holds (ι := ι) fp ch h w) ops
  refine ⟨outs, s, free, chain, text, he, hlen, hr, hH, fun i => ⟨(hH.queue i).cc, fun h0 => ?_⟩,
    fun i c => ⟨fun hp => ?_, fun hf => ?_⟩⟩
  · have hq := hH.queue i
    rw [hq.cc, List.length_eq_zero_iff] at h0
    rw [h0] at hq
    exact hq.chain_nil
  · rcases putq_spec hH c with ⟨hf, -⟩ | ⟨-, s', free', bs, hp', -⟩
    · exact hf
    · rw [hp'] at hp
      simp at hp
  · rcases putq_spec hH c with ⟨-, hp⟩ | ⟨hn, -⟩
    · exact hp
    · exact absurd hf hn

end Coherent.Clist
