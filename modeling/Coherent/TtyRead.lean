import Coherent.Lib.Run
import Coherent.TtyEdit

/-!
Cooked reads: what `ttread` returns of the lines that `ttstash` has delivered.

A line is its text and the character that ended it. Reads are recorded with their counts. Readers
that sleep in `ttread` go on where they were when they are woken up, in any order.
-/

namespace Coherent.Tty

open Coherent.Lib

/-- A line that has been delivered. -/
structure Line where
  text : List ℕ
  term : ℕ

/-- The line in the queue. -/
def Line.all (l : Line) : List ℕ := l.text ++ [l.term]

/-- What is to be read of a line: an end of file is not. -/
def Line.body (h : Tchars) (l : Line) : List ℕ :=
  if h.t_eofc.toInt = l.term then l.text else l.all

/-- The part of a line that a read of count `n` returns, where `rest` is left of its text. -/
def Line.piece (h : Tchars) (l : Line) (rest : List ℕ) (n : ℕ) : List ℕ :=
  if rest.length < n then Line.body h ⟨rest, l.term⟩ else rest.take n

/-- The text does not end before its end. -/
def Line.Whole (h : Tchars) (l : Line) : Prop := (∀ c ∈ l.text, ¬ Ends h c) ∧ Ends h l.term

/-- What reads have returned. -/
def bytes (rs : List (ℕ × List ℕ)) : List ℕ := rs.flatMap Prod.snd

/-- A read whose count ran out. -/
def Full (r : ℕ × List ℕ) : Prop := r.2.length = r.1 ∧ 1 ≤ r.1

/-- Reads that have read one line, and nothing else: all but the last ran out of their counts, and
the last one returns nothing just where they have read the text and an end of file is left. -/
def Served (h : Tchars) (l : Line) (rs : List (ℕ × List ℕ)) : Prop :=
  ∃ init last, rs = init ++ [last] ∧ (∀ r ∈ init, Full r) ∧ bytes init ++ last.2 = l.body h ∧
    (last.2 = [] ↔ h.t_eofc.toInt = l.term ∧ bytes init = l.text)

/-- The queue `iq` holds lines, less what the reads `part` have read of the first. -/
def Waiting (h : Tchars) (iq : List ℕ) : List Line → List (ℕ × List ℕ) → Prop
  | [], part => part = [] ∧ iq = []
  | l :: ls, part =>
    (∀ k ∈ l :: ls, k.Whole h) ∧ (∀ r ∈ part, Full r) ∧
      ∃ rest, bytes part ++ rest = l.text ∧ iq = rest ++ l.term :: ls.flatMap Line.all

/-- A process in `ttread`. -/
structure Reader where
  sioc : ℕ
  io_ioc : ℕ
  buf : List ℕ

/-- A terminal with its readers, the lines delivered so far and the reads that have returned. -/
structure Reading (δ : Type*) where
  tp : TTY δ
  readers : List Reader
  lines : List Line
  reads : List (ℕ × List ℕ)

inductive Act
  | deliver
  | call
  | turn
  | leave
  | other

/-- A line is delivered, a process calls `ttread`, or runs until it returns, fails or sleeps; a
signal wakes it up; or anything else happens to the terminal. -/
inductive Serves {δ : Type*} (dr : Driver δ) : Reading δ → Act → Reading δ → Prop
  | deliver {s : Reading δ} {ib : List ℕ} {c : ℕ} (hib : ∀ k ∈ ib, ¬ Ends s.tp.t_tchars (k % 128))
      (hc : Ends s.tp.t_tchars c) (hlt : c < 128) :
      Serves dr s .deliver
        { s with
          tp := ttstash { s.tp with t_ib := ib } c
          lines := s.lines ++ [⟨ib.map (· % 128), c⟩] }
  | call {s : Reading δ} {n : ℕ} (hn : 1 ≤ n) :
      Serves dr s .call { s with readers := s.readers ++ [⟨n, n, []⟩] }
  | done {s : Reading δ} {r : Reader} {rs rs' : List Reader} {buf : List ℕ} {tp : TTY δ}
      (hr : s.readers = rs ++ r :: rs')
      (ht : ttread dr r.sioc r.io_ioc r.buf s.tp = (.done, buf, tp)) :
      Serves dr s .turn
        { s with tp := tp, readers := rs ++ rs', reads := s.reads ++ [(r.sioc, buf)] }
  | sleep {s : Reading δ} {r : Reader} {rs rs' : List Reader} {k : ℕ} {buf : List ℕ} {tp : TTY δ}
      (hr : s.readers = rs ++ r :: rs')
      (ht : ttread dr r.sioc r.io_ioc r.buf s.tp = (.sleep k, buf, tp)) :
      Serves dr s .turn { s with tp := tp, readers := rs ++ ⟨r.sioc, k, buf⟩ :: rs' }
  | fail {s : Reading δ} {r : Reader} {rs rs' : List Reader} {buf : List ℕ} {tp : TTY δ}
      (hr : s.readers = rs ++ r :: rs')
      (ht : ttread dr r.sioc r.io_ioc r.buf s.tp = (.error, buf, tp)) :
      Serves dr s .turn { s with tp := tp, readers := rs ++ rs' }
  | leave {s : Reading δ} {r : Reader} {rs rs' : List Reader} (hr : s.readers = rs ++ r :: rs') :
      Serves dr s .leave { s with readers := rs ++ rs' }
  | other {s : Reading δ} {tp : TTY δ} (hiq : tp.t_iq = s.tp.t_iq)
      (hm : tp.t_sgttyb = s.tp.t_sgttyb) (hh : tp.t_tchars = s.tp.t_tchars) :
      Serves dr s .other { s with tp := tp }

variable {δ : Type*} {tp tp' : TTY δ} {dr : Driver δ} {m : Sgttyb} {h : Tchars}
  {c n : ℕ} {buf rest iq : List ℕ} {l : Line} {ls lines : List Line}
  {part : List (ℕ × List ℕ)} {rs' : List Reader}

/-! ### `ttread` -/

lemma relieve_t_sgttyb : (relieve dr tp).t_sgttyb = tp.t_sgttyb := by
  unfold relieve
  dsimp only
  split_ifs
  · exact (sameInput_putoq.trans sameInput_ttstart).t_sgttyb
  · rfl
  · rfl

lemma relieve_t_tchars : (relieve dr tp).t_tchars = tp.t_tchars := by
  unfold relieve
  dsimp only
  split_ifs
  · exact (sameInput_putoq.trans sameInput_ttstart).t_tchars
  · rfl
  · rfl

/-- The modes of a cooked terminal. -/
structure Cooked (m : Sgttyb) (h : Tchars) (tp : TTY δ) : Prop where
  sgttyb : tp.t_sgttyb = m
  tchars : tp.t_tchars = h
  raw : m.RAWIN = false
  cbreak : m.CBREAK = false

lemma Cooked.isbbyb (ht : Cooked m h tp) : tp.ISBBYB = false := by
  rw [TTY.ISBBYB, ht.sgttyb, ht.raw, ht.cbreak]
  rfl

lemma Cooked.relieve (ht : Cooked m h tp) : Cooked m h (relieve dr { tp with t_iq := iq }) :=
  ⟨relieve_t_sgttyb.trans ht.sgttyb, relieve_t_tchars.trans ht.tchars, ht.raw, ht.cbreak⟩

/-- Reading in a line. -/
lemma ttread_line (dr : Driver δ) (sioc n : ℕ) (buf : List ℕ) (ht : Cooked m h tp)
    (hrest : ∀ c ∈ rest, ¬ Ends h c) (hterm : Ends h l.term)
    (hiq : tp.t_iq = rest ++ l.term :: iq) :
    ∃ tp', ttread dr sioc n buf tp = (.done, buf ++ l.piece h rest n, tp') ∧ Cooked m h tp' ∧
      tp'.t_iq = if rest.length < n then iq else rest.drop n ++ l.term :: iq := by
  induction n generalizing tp buf rest with
  | zero =>
    refine ⟨tp, ?_, ht, ?_⟩
    · rw [ttread, Line.piece, if_neg (Nat.not_lt_zero _), List.take_zero, List.append_nil]
    · rw [if_neg (Nat.not_lt_zero _), List.drop_zero, hiq]
  | succ n ih =>
    cases rest with
    | nil =>
      -- the end of the line
      rw [ttread, hiq]
      dsimp only [List.nil_append]
      have hrel : Cooked m h (relieve dr { tp with t_iq := iq }) := ht.relieve
      have htail : (relieve dr { tp with t_iq := iq }).t_iq = iq := relieve_t_iq
      generalize relieve dr { tp with t_iq := iq } = tp₁ at *
      have hpos : ([] : List ℕ).length < n + 1 := Nat.succ_pos n
      rw [Line.piece, if_pos hpos, if_pos hpos, Line.body]
      by_cases heof : h.t_eofc.toInt = l.term
      · have hif : tp₁.ISBBYB = false ∧ tp₁.ISEOF l.term :=
          ⟨hrel.isbbyb, by rw [TTY.ISEOF, hrel.tchars]; exact heof⟩
        rw [if_pos hif, if_pos heof, List.append_nil]
        exact ⟨tp₁, rfl, hrel, htail⟩
      · have hif : ¬ (tp₁.ISBBYB = false ∧ tp₁.ISEOF l.term) := by
          rw [TTY.ISEOF, hrel.tchars]
          exact fun hc => heof hc.2
        have hend : tp₁.ISBBYB = false ∧ (l.term = 0x0a ∨ tp₁.ISBRK l.term) := by
          rw [TTY.ISBRK, hrel.tchars]
          exact ⟨hrel.isbbyb, hterm.imp_right fun hc => hc.resolve_left heof⟩
        rw [if_neg hif, if_pos hend, if_neg heof]
        exact ⟨tp₁, rfl, hrel, htail⟩
    | cons c rest =>
      rw [ttread, hiq]
      dsimp only [List.cons_append]
      have hrel : Cooked m h (relieve dr { tp with t_iq := rest ++ l.term :: iq }) := ht.relieve
      have htail : (relieve dr { tp with t_iq := rest ++ l.term :: iq }).t_iq =
          rest ++ l.term :: iq := relieve_t_iq
      generalize relieve dr { tp with t_iq := rest ++ l.term :: iq } = tp₁ at *
      have hc : ¬ Ends h c := hrest c List.mem_cons_self
      have hif : ¬ (tp₁.ISBBYB = false ∧ tp₁.ISEOF c) := by
        rw [TTY.ISEOF, hrel.tchars]
        exact fun he => hc (.inr (.inl he.2))
      have hend : ¬ (tp₁.ISBBYB = false ∧ (c = 0x0a ∨ tp₁.ISBRK c)) := by
        rw [TTY.ISBRK, hrel.tchars]
        exact fun he => hc (he.2.imp_right .inr)
      rw [if_neg hif, if_neg hend]
      obtain ⟨tp', h1, h2, h3⟩ : ∃ tp', ttread dr sioc n (buf ++ [c]) tp₁ =
          (.done, buf ++ [c] ++ l.piece h rest n, tp') ∧ Cooked m h tp' ∧
          tp'.t_iq = if rest.length < n then iq else rest.drop n ++ l.term :: iq :=
        ih (buf ++ [c]) hrel (fun c hc => hrest c (List.mem_cons_of_mem _ hc)) htail
      have hlen : (c :: rest).length < n + 1 ↔ rest.length < n := by simp
      have hpart : l.piece h (c :: rest) (n + 1) = c :: l.piece h rest n := by
        rw [Line.piece, Line.piece, Line.body, Line.body]
        by_cases hlt : rest.length < n
        · rw [if_pos (hlen.mpr hlt), if_pos hlt]
          split_ifs <;> rfl
        · rw [if_neg (fun hc => hlt (hlen.mp hc)), if_neg hlt]
          rfl
      refine ⟨tp', ?_, h2, ?_⟩
      · rw [h1, hpart, List.append_assoc]
        rfl
      · rw [h3]
        simp only [hlen, List.drop_succ_cons]

/-- Reading where nothing is left. -/
lemma ttread_empty (dr : Driver δ) (sioc : ℕ) (buf : List ℕ) (ht : Cooked m h tp)
    (hiq : tp.t_iq = []) (hn : 1 ≤ n) :
    ∃ tp', (ttread dr sioc n buf tp = (.error, buf, tp') ∨
        ttread dr sioc n buf tp = (.sleep n, buf, tp')) ∧ Cooked m h tp' ∧ tp'.t_iq = [] := by
  obtain ⟨n, rfl⟩ := Nat.exists_eq_add_of_le' hn
  rw [ttread, hiq]
  dsimp only
  by_cases hcarr : tp.T_CARR = false
  · rw [if_pos hcarr]
    exact ⟨tp, .inl rfl, ht, hiq⟩
  · have hif : ¬ (tp.ISBBYB ∧ tp.T_BRD = false ∧ n + 1 < sioc) := by
      rw [ht.isbbyb]
      exact fun hc => Bool.false_ne_true hc.1
    rw [if_neg hcarr, if_neg hif]
    exact ⟨_, .inr rfl, ⟨ht.sgttyb, ht.tchars, ht.raw, ht.cbreak⟩, rfl⟩

/-! ### The invariant -/

@[simp] lemma bytes_append {rs rs' : List (ℕ × List ℕ)} :
    bytes (rs ++ rs') = bytes rs ++ bytes rs' := by
  rw [bytes, List.flatMap_append]
  rfl

lemma bytes_one {r : ℕ × List ℕ} : bytes [r] = r.2 := by
  rw [bytes, List.flatMap_singleton]

/-- What was read is whole lines and a part of the first one that is still waiting. -/
def Accounts (h : Tchars) (s : Reading δ) : Prop :=
  ∃ (done pending : List Line) (groups : List (List (ℕ × List ℕ))) (part : List (ℕ × List ℕ)),
    s.lines = done ++ pending ∧ s.reads = groups.flatten ++ part ∧
      List.Forall₂ (Served h) done groups ∧ Waiting h s.tp.t_iq pending part

structure Kept (m : Sgttyb) (h : Tchars) (s : Reading δ) : Prop where
  cooked : Cooked m h s.tp
  readers : ∀ r ∈ s.readers, r.io_ioc = r.sioc ∧ r.buf = [] ∧ 1 ≤ r.sioc
  accounts : Accounts h s

/-- Another line at the end of the queue. -/
lemma Waiting.snoc (hw : Waiting h iq lines part) (hl : l.Whole h) :
    Waiting h (iq ++ l.all) (lines ++ [l]) part := by
  cases lines with
  | nil =>
    obtain ⟨rfl, rfl⟩ := hw
    refine ⟨?_, fun r hr => absurd hr List.not_mem_nil, l.text, rfl, rfl⟩
    rintro k hk
    rw [List.mem_singleton.mp hk]
    exact hl
  | cons l' ls =>
    obtain ⟨hall, hfull, rest, h1, h2⟩ := hw
    rw [List.cons_append]
    refine ⟨?_, hfull, rest, h1, ?_⟩
    · intro k hk
      rw [← List.cons_append] at hk
      rcases List.mem_append.mp hk with hk | hk
      · exact hall k hk
      · rw [List.mem_singleton.mp hk]
        exact hl
    · rw [h2, List.flatMap_append, List.flatMap_singleton]
      simp

/-- A line that has been read leaves the others. -/
lemma waiting_next (hall : ∀ k ∈ ls, k.Whole h) : Waiting h (ls.flatMap Line.all) ls [] := by
  cases ls with
  | nil => exact ⟨rfl, rfl⟩
  | cons l ls =>
    refine ⟨hall, fun r hr => absurd hr List.not_mem_nil, l.text, rfl, ?_⟩
    rw [List.flatMap_cons, Line.all, List.append_assoc]
    rfl

/-- The last read of a line. -/
lemma served_last (hfull : ∀ r ∈ part, Full r) (hrest : bytes part ++ rest = l.text) :
    Served h l (part ++ [(n, Line.body h ⟨rest, l.term⟩)]) := by
  refine ⟨part, _, rfl, hfull, ?_, ?_⟩
  all_goals
    unfold Line.body
    dsimp only
  · split_ifs
    · exact hrest
    · rw [Line.all, Line.all, ← List.append_assoc, hrest]
  · split_ifs with heof
    · rw [← hrest]
      exact ⟨fun hnil => ⟨heof, by rw [hnil, List.append_nil]⟩,
        fun hc => List.append_cancel_left ((List.append_nil _).trans hc.2).symm⟩
    · exact ⟨fun hnil => absurd hnil (by simp [Line.all]), fun hc => absurd hc.1 heof⟩

/-- A read that returns. -/
lemma Accounts.done {s : Reading δ} (hs : Accounts h s) (ht : Cooked m h s.tp) (hn : 1 ≤ n)
    (hr : ttread dr n n [] s.tp = (.done, buf, tp')) :
    Cooked m h tp' ∧
      Accounts h { s with tp := tp', readers := rs', reads := s.reads ++ [(n, buf)] } := by
  obtain ⟨done, pending, groups, part, h1, h2, h3, hw⟩ := hs
  cases pending with
  | nil =>
    -- there is nothing that could be returned
    obtain ⟨tp₁, h4 | h4, -⟩ := ttread_empty dr n [] ht hw.2 hn
    all_goals
      rw [h4] at hr
      cases (Prod.mk.inj hr).1
  | cons l ls =>
    obtain ⟨hall, hfull, rest, h4, h5⟩ := hw
    have hl : l.Whole h := hall l List.mem_cons_self
    have hrest : ∀ c ∈ rest, ¬ Ends h c := by
      intro c hc
      exact hl.1 c (by rw [← h4]; exact List.mem_append_right _ hc)
    obtain ⟨tp₁, h6, hc, h7⟩ := ttread_line dr n n [] ht hrest hl.2 h5
    rw [List.nil_append] at h6
    obtain ⟨-, hbuf, rfl⟩ : Ending.done = .done ∧ l.piece h rest n = buf ∧ tp₁ = tp' := by
      have hpair := h6.symm.trans hr
      exact ⟨rfl, (Prod.mk.inj (Prod.mk.inj hpair).2).1, (Prod.mk.inj (Prod.mk.inj hpair).2).2⟩
    refine ⟨hc, ?_⟩
    by_cases hlt : rest.length < n
    · -- the line ends here
      rw [if_pos hlt] at h7
      rw [Line.piece, if_pos hlt] at hbuf
      refine ⟨done ++ [l], ls, groups ++ [part ++ [(n, buf)]], [], ?_, ?_, ?_, ?_⟩
      · rw [h1, List.append_assoc]
        rfl
      · rw [h2, List.flatten_append]
        simp
      · rw [← hbuf]
        exact List.rel_append h3 (.cons (served_last hfull h4) .nil)
      · rw [h7]
        exact waiting_next fun k hk => hall k (List.mem_cons_of_mem _ hk)
    · -- the count runs out
      rw [if_neg hlt] at h7
      rw [Line.piece, if_neg hlt] at hbuf
      refine ⟨done, l :: ls, groups, part ++ [(n, buf)], h1, ?_, h3, hall, ?_, rest.drop n, ?_, h7⟩
      · rw [h2, List.append_assoc]
      · intro r hr
        rcases List.mem_append.mp hr with hr | hr
        · exact hfull r hr
        · rw [List.mem_singleton.mp hr, ← hbuf]
          exact ⟨List.length_take_of_le (not_lt.mp hlt), hn⟩
      · rw [bytes_append, bytes_one, ← hbuf, List.append_assoc, List.take_append_drop, h4]

/-- A reader that does not return has taken nothing. -/
lemma Accounts.empty {s : Reading δ} (hs : Accounts h s) (ht : Cooked m h s.tp) (hn : 1 ≤ n)
    {e : Ending} (hr : ttread dr n n [] s.tp = (e, buf, tp')) (he : e ≠ .done) :
    (e = .error ∨ e = .sleep n) ∧ buf = [] ∧ Cooked m h tp' ∧
      Accounts h { s with tp := tp', readers := rs' } := by
  obtain ⟨done, pending, groups, part, h1, h2, h3, hw⟩ := hs
  cases pending with
  | nil =>
    obtain ⟨tp₁, h4, hc, hiq⟩ := ttread_empty dr n [] ht hw.2 hn
    have hacc : Accounts h { s with tp := tp₁, readers := rs' } :=
      ⟨done, [], groups, part, h1, h2, h3, hw.1, hiq⟩
    rcases h4 with h4 | h4
    · obtain ⟨rfl, h5⟩ := Prod.mk.inj (h4.symm.trans hr)
      obtain ⟨rfl, rfl⟩ := Prod.mk.inj h5
      exact ⟨.inl rfl, rfl, hc, hacc⟩
    · obtain ⟨rfl, h5⟩ := Prod.mk.inj (h4.symm.trans hr)
      obtain ⟨rfl, rfl⟩ := Prod.mk.inj h5
      exact ⟨.inr rfl, rfl, hc, hacc⟩
  | cons l ls =>
    obtain ⟨hall, -, rest, h4, h5⟩ := hw
    have hl : l.Whole h := hall l List.mem_cons_self
    have hrest : ∀ c ∈ rest, ¬ Ends h c := by
      intro c hc
      exact hl.1 c (by rw [← h4]; exact List.mem_append_right _ hc)
    obtain ⟨tp₁, h6, -⟩ := ttread_line dr n n [] ht hrest hl.2 h5
    rw [h6] at hr
    exact absurd (Prod.mk.inj hr).1.symm he

lemma ttstash_t_iq (hc : Ends tp.t_tchars c) :
    (ttstash tp c).t_iq = tp.t_iq ++ (tp.t_ib ++ [c]).map (· % 128) ∧
      (ttstash tp c).t_sgttyb = tp.t_sgttyb ∧ (ttstash tp c).t_tchars = tp.t_tchars := by
  have hif : c = 0x0a ∨ tp.ISEOF c ∨ tp.ISBRK c := hc
  unfold ttstash
  rw [if_pos hif]
  dsimp only
  split_ifs <;> exact ⟨rfl, rfl, rfl⟩

/-- **One step** keeps the accounts. -/
lemma Kept.step {s s' : Reading δ} {a : Act} (hs : Kept m h s) (hst : Serves dr s a s') :
    Kept m h s' := by
  have hcooked := hs.cooked
  -- a reader that is running has got nothing so far
  have hreader : ∀ {r : Reader} {rs₁ rs₂ : List Reader}, s.readers = rs₁ ++ r :: rs₂ →
      (r.io_ioc = r.sioc ∧ r.buf = [] ∧ 1 ≤ r.sioc) ∧
        ∀ q ∈ rs₁ ++ rs₂, q.io_ioc = q.sioc ∧ q.buf = [] ∧ 1 ≤ q.sioc := by
    intro r rs₁ rs₂ hr
    refine ⟨hs.readers r (by rw [hr]; simp), fun q hq => hs.readers q ?_⟩
    rw [hr]
    exact (List.sublist_append_right [r] rs₂ |>.append_left rs₁).subset hq
  cases hst with
  | @deliver ib c hib hc hlt =>
    rw [hcooked.tchars] at hib
    obtain ⟨h1, h2, h3⟩ := @ttstash_t_iq δ { s.tp with t_ib := ib } c hc
    obtain ⟨done, pending, groups, part, h4, h5, h6, hw⟩ := hs.accounts
    have hmap : (ib ++ [c]).map (· % 128) = Line.all ⟨ib.map (· % 128), c⟩ := by
      rw [List.map_append, Line.all, List.map_singleton, Nat.mod_eq_of_lt hlt]
    have hl : Line.Whole h ⟨ib.map (· % 128), c⟩ := by
      refine ⟨fun k hk => ?_, by rw [← hcooked.tchars]; exact hc⟩
      obtain ⟨j, hj, rfl⟩ := List.mem_map.mp hk
      exact hib j hj
    refine ⟨⟨h2.trans hcooked.sgttyb, h3.trans hcooked.tchars, hcooked.raw, hcooked.cbreak⟩,
      hs.readers, done, pending ++ [⟨ib.map (· % 128), c⟩], groups, part, ?_, h5, h6, ?_⟩
    · dsimp only
      rw [h4, List.append_assoc]
    · dsimp only
      rw [h1]
      dsimp only
      rw [hmap]
      exact hw.snoc hl
  | @call n hn =>
    refine ⟨hcooked, fun r hr => ?_, hs.accounts⟩
    rcases List.mem_append.mp hr with hr | hr
    · exact hs.readers r hr
    · rw [List.mem_singleton.mp hr]
      exact ⟨rfl, rfl, hn⟩
  | done hr ht =>
    obtain ⟨⟨h1, h2, h3⟩, h4⟩ := hreader hr
    rw [h1, h2] at ht
    obtain ⟨h5, h6⟩ := hs.accounts.done hcooked h3 ht
    exact ⟨h5, h4, h6⟩
  | sleep hr ht =>
    obtain ⟨⟨h1, h2, h3⟩, h4⟩ := hreader hr
    rw [h1, h2] at ht
    obtain ⟨h5, rfl, h6, h7⟩ := hs.accounts.empty hcooked h3 ht (fun hc => nomatch hc)
    obtain rfl : _ = _ := Ending.sleep.inj (h5.resolve_left (fun hc => nomatch hc))
    refine ⟨h6, fun q hq => ?_, h7⟩
    rcases List.mem_append.mp hq with hq | hq
    · exact h4 q (List.mem_append_left _ hq)
    · rcases List.mem_cons.mp hq with rfl | hq
      · exact ⟨rfl, rfl, h3⟩
      · exact h4 q (List.mem_append_right _ hq)
  | fail hr ht =>
    obtain ⟨⟨h1, h2, h3⟩, h4⟩ := hreader hr
    rw [h1, h2] at ht
    obtain ⟨-, -, h6, h7⟩ := hs.accounts.empty hcooked h3 ht (fun hc => nomatch hc)
    exact ⟨h6, h4, h7⟩
  | leave hr => exact ⟨hcooked, (hreader hr).2, hs.accounts⟩
  | other hiq hm hh =>
    obtain ⟨done, pending, groups, part, h1, h2, h3, hw⟩ := hs.accounts
    refine ⟨⟨hm.trans hcooked.sgttyb, hh.trans hcooked.tchars, hcooked.raw, hcooked.cbreak⟩,
      hs.readers, done, pending, groups, part, h1, h2, h3, ?_⟩
    dsimp only
    rwa [hiq]

lemma bytes_served {done : List Line} {groups : List (List (ℕ × List ℕ))}
    (hs : List.Forall₂ (Served h) done groups) :
    bytes groups.flatten = done.flatMap (Line.body h) := by
  induction hs with
  | nil => rfl
  | cons hl _ ih =>
    obtain ⟨init, last, rfl, -, h1, -⟩ := hl
    rw [List.flatten_cons, bytes_append, ih, List.flatMap_cons, bytes_append, bytes_one, h1]

/-- **Cooked reads.** In every order of deliveries, calls, wake-ups and signals: the reads fall into
groups, one for each line that has been read, and a part of the next line. Reads of a group return
that line and no other, and one of them returns nothing just where an end of file was typed on an
empty line or earlier reads ran out of their counts exactly in front of it. When the queue is empty,
what was returned is the lines without their ends of file. -/
theorem cooked_reads {s : Reading δ} {as : List Act}
    (hcooked : tp.t_sgttyb.RAWIN = false ∧ tp.t_sgttyb.CBREAK = false) (hiq : tp.t_iq = [])
    (hrun : Run (Serves dr) ⟨tp, [], [], []⟩ as s) :
    (∃ (done pending : List Line) (groups : List (List (ℕ × List ℕ)))
      (part : List (ℕ × List ℕ)),
      s.lines = done ++ pending ∧ s.reads = groups.flatten ++ part ∧
        List.Forall₂ (Served tp.t_tchars) done groups ∧
        Waiting tp.t_tchars s.tp.t_iq pending part) ∧
      (s.tp.t_iq = [] → bytes s.reads = s.lines.flatMap (Line.body tp.t_tchars)) := by
  have hinit : Kept tp.t_sgttyb tp.t_tchars (⟨tp, [], [], []⟩ : Reading δ) :=
    ⟨⟨rfl, rfl, hcooked.1, hcooked.2⟩, fun r hr => absurd hr List.not_mem_nil,
      [], [], [], [], rfl, rfl, .nil, rfl, hiq⟩
  have hend := hrun.invariant (fun s a t hs hst => hs.step hst) hinit
  refine ⟨hend.accounts, fun hnil => ?_⟩
  obtain ⟨done, pending, groups, part, h1, h2, h3, hw⟩ := hend.accounts
  cases pending with
  | nil =>
    rw [h1, h2, hw.1, List.append_nil, List.append_nil]
    exact bytes_served h3
  | cons l ls =>
    obtain ⟨-, -, rest, -, h4⟩ := hw
    rw [hnil] at h4
    exact absurd h4.symm (by simp)

/-- `ab` and an end of file, read with a count of two and a count of one. -/
def twice : Reading Unit :=
  ⟨opened, [], [⟨[0x61, 0x62], 0x04⟩], [(2, [0x61, 0x62]), (1, [])]⟩

lemma twice_run :
    Run (Serves stuck) ⟨opened, [], [], []⟩ [.deliver, .call, .turn, .call, .turn] twice := by
  have hline : Serves stuck ⟨opened, [], [], []⟩ .deliver
      ⟨ttstash { opened with t_ib := [0x61, 0x62] } 0x04, [], [⟨[0x61, 0x62], 0x04⟩], []⟩ :=
    .deliver (by decide) (by decide) (by decide)
  have h1 : Run (Serves stuck) ⟨opened, [], [], []⟩ [.deliver]
      ⟨{ opened with t_iq := [0x61, 0x62, 0x04] }, [], [⟨[0x61, 0x62], 0x04⟩], []⟩ :=
    .snoc (.nil _) hline
  have h2 : Run (Serves stuck) ⟨opened, [], [], []⟩ [.deliver, .call, .turn]
      ⟨{ opened with t_iq := [0x04] }, [], [⟨[0x61, 0x62], 0x04⟩], [(2, [0x61, 0x62])]⟩ :=
    .snoc (.snoc h1 (.call (n := 2) (by decide))) (@Serves.done _ _ _ ⟨2, 2, []⟩ [] [] _ _ rfl rfl)
  exact .snoc (.snoc h2 (.call (n := 1) (by decide)))
    (@Serves.done _ _ _ ⟨1, 1, []⟩ [] [] _ _ rfl rfl)

theorem cooked_reads_twice :
    (∃ (done pending : List Line) (groups : List (List (ℕ × List ℕ)))
      (part : List (ℕ × List ℕ)),
      twice.lines = done ++ pending ∧ twice.reads = groups.flatten ++ part ∧
        List.Forall₂ (Served opened.t_tchars) done groups ∧
        Waiting opened.t_tchars twice.tp.t_iq pending part) ∧
      (twice.tp.t_iq = [] → bytes twice.reads = twice.lines.flatMap (Line.body opened.t_tchars)) :=
  cooked_reads ⟨rfl, rfl⟩ rfl twice_run

/-- A read returns nothing, and no end of file was typed on an empty line. -/
theorem reads_nothing_between : ∃ (s : Reading Unit) (as : List Act),
    Run (Serves stuck) ⟨opened, [], [], []⟩ as s ∧ (1, []) ∈ s.reads ∧
      ∀ l ∈ s.lines, l.text ≠ [] :=
  ⟨twice, _, twice_run, by decide, by decide⟩

end Coherent.Tty
