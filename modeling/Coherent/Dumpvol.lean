import Mathlib.Tactic
import Coherent.Lib.Run

/-!
The volumes of `dump` and of `restor`: when the one asks for the next medium, and when the other.

A buffer is known by its volume and by its place there; what is in the records is left out. A
medium has room for what is written on it, and what was on it before can be read behind that. The
numbers of option `S` are read into an `int`.
-/

namespace Coherent.Dumpvol

/-- An `int` of sixteen bits. -/
def int (x : ℤ) : ℤ := (x + 32768) % 65536 - 32768

def sizeof_dumpheader : ℤ := 50

def sizeof_dumpdata : ℤ := 522

/-- The options `S` and `b`. -/
structure Options where
  S : ℕ
  block : ℕ
  block_pos : 1 ≤ block
  block_le : block ≤ 20

namespace Options

variable (o : Options)

def length : ℤ := 512 * int o.S

def ddnbuf : ℤ := o.block * sizeof_dumpdata

end Options

/-- What `dump` keeps: `place` buffers are on volume `reel`, and `nrec` records are in the buffer.
The places that were written are kept in order. -/
structure Dump where
  used : ℤ
  reel : ℕ
  place : ℕ
  nrec : ℕ
  wrote : List (ℕ × ℕ)
  deriving DecidableEq, Repr

namespace Dump

variable (o : Options)

def nextvol (s : Dump) : Dump :=
  { s with used := sizeof_dumpheader, reel := s.reel + 1, place := 0 }

def write (s : Dump) : Dump :=
  { s with place := s.place + 1, wrote := s.wrote ++ [(s.reel, s.place)] }

def ddflush (s : Dump) : Dump :=
  let s := { s with used := s.used + o.ddnbuf }
  if s.used ≥ o.length then
    let s := nextvol s
    write { s with used := s.used + o.ddnbuf }
  else write s

def ddnextbuf (s : Dump) : Dump :=
  let s := if s.nrec = o.block then { ddflush o s with nrec := 0 } else s
  { s with nrec := s.nrec + 1 }

def start : Dump := nextvol ⟨0, 0, 0, 0, []⟩

/-- A dump of `n` records and the one at its end, which `dumpfinish` writes. -/
def dump (n : ℕ) : Dump := ddflush o ((ddnextbuf o)^[n + 1] start)

end Dump

/-- What `restor` keeps: it is at record `ddptr` of the buffer. The places that were read are kept
in order. -/
structure Restor where
  nread : ℤ
  reel : ℕ
  place : ℕ
  ddptr : ℕ
  took : List (ℕ × ℕ)
  deriving DecidableEq, Repr

namespace Restor

variable (o : Options) (last : ℕ)

/-- Volume 1 is mounted, and its header is read. -/
def start : Restor := ⟨sizeof_dumpheader, 1, 0, o.block, []⟩

/-- Behind the last volume there is none to mount. -/
def nextvol (s : Restor) : Option Restor :=
  if s.reel < last then some { s with nread := sizeof_dumpheader, reel := s.reel + 1, place := 0 }
  else none

/-- The loop of `readdump`, for so many turns at most. -/
def refill : ℕ → Restor → Option Restor
  | 0, _ => none
  | turns + 1, s =>
    if o.length ≠ 0 ∧ s.nread + o.ddnbuf > o.length then (nextvol last s).bind (refill turns)
    else some { s with
      nread := s.nread + o.ddnbuf, place := s.place + 1, ddptr := 0
      took := s.took ++ [(s.reel, s.place)] }

/-- Each turn of the loop but the last one mounts a volume. -/
def readdump (s : Restor) : Option Restor :=
  (if s.ddptr = o.block then refill o last (last + 1) s else some s).map fun s =>
    { s with ddptr := s.ddptr + 1 }

def readdumps : ℕ → Restor → Option Restor
  | 0, s => some s
  | n + 1, s => (readdump o last s).bind (readdumps n)

end Restor

/-- `restor` gets through the dump up to its last record, and takes the buffers that were
written, in their order. -/
def Agrees (o : Options) (n : ℕ) : Prop :=
  ∃ s, Restor.readdumps o (Dump.dump o n).reel (n + 1) (Restor.start o) = some s ∧
    s.took = (Dump.dump o n).wrote

/-- How many buffers these records fill, with the one at the end. -/
def buffers (o : Options) (n : ℕ) : ℕ := n / o.block + 1

/-- A volume has room for a buffer, and no buffer of the dump ends where a volume does. -/
def Apart (o : Options) (n : ℕ) : Prop :=
  sizeof_dumpheader + o.ddnbuf ≤ o.length ∧
    ∀ k : ℕ, k ≤ buffers o n → sizeof_dumpheader + k * o.ddnbuf ≠ o.length

section Dumping

variable {o : Options} {M : ℕ}

open Dump

lemma ddnbuf_pos : 522 ≤ o.ddnbuf := by
  have : (1 : ℤ) ≤ o.block := by exact_mod_cast o.block_pos
  rw [Options.ddnbuf, sizeof_dumpdata]
  omega

/-- The place of the `i`-th buffer when every volume takes `M`. -/
def spot (M i : ℕ) : ℕ × ℕ := (i / M + 1, i % M)

/-- A volume of `dump` takes `M` buffers: one more would not end before the volume does. -/
structure Takes (o : Options) (M : ℕ) : Prop where
  pos : 0 < M
  last : sizeof_dumpheader + M * o.ddnbuf < o.length
  next : o.length ≤ sizeof_dumpheader + (M + 1 : ℕ) * o.ddnbuf

/-- The state behind `j` buffers. -/
structure Dump.At (o : Options) (M j : ℕ) (s : Dump) : Prop where
  used : s.used = sizeof_dumpheader + s.place * o.ddnbuf
  spots : s.wrote = (List.range j).map (spot M)
  count : j + M = s.reel * M + s.place
  le : s.place ≤ M
  pos : 0 < j → 0 < s.place

lemma spot_of_count {j r p : ℕ} (hM : 0 < M) (h : j + M = r * M + p) (hp : p < M) :
    spot M j = (r, p) := by
  obtain ⟨q, rfl⟩ : ∃ q, r = q + 1 := by
    rcases r with _ | q
    · omega
    · exact ⟨q, rfl⟩
  have hj : j = M * q + p := by
    rw [Nat.succ_mul, Nat.mul_comm] at h
    omega
  rw [spot, hj, Nat.mul_add_div hM, Nat.div_eq_of_lt hp, Nat.mul_add_mod, Nat.mod_eq_of_lt hp,
    Nat.add_zero]

lemma mul_buf_mono {j k : ℕ} (h : j ≤ k) : (j : ℤ) * o.ddnbuf ≤ k * o.ddnbuf := by
  have := ddnbuf_pos (o := o)
  exact mul_le_mul_of_nonneg_right (by exact_mod_cast h) (by omega)

lemma Dump.At.start : Dump.At o M 0 Dump.start :=
  ⟨by simp [Dump.start, Dump.nextvol], rfl, by simp [Dump.start, Dump.nextvol],
    Nat.zero_le _, fun h => absurd h (lt_irrefl 0)⟩

/-- Another buffer goes behind the ones before, or to the next volume. -/
lemma Dump.At.ddflush {j : ℕ} {s : Dump} (hM : Takes o M) (h : s.At o M j) :
    (s.ddflush o).At o M (j + 1) := by
  obtain ⟨used, reel, place, nrec, wrote⟩ := s
  obtain ⟨h1, h2, h3, h4, h5⟩ := h
  simp only at h1 h2 h3 h4 h5
  have hbuf : sizeof_dumpheader + (place + 1 : ℕ) * o.ddnbuf = used + o.ddnbuf := by
    rw [h1]
    push_cast
    ring
  rcases Nat.lt_or_ge place M with hlt | hge
  · have hle := mul_buf_mono (o := o) (show place + 1 ≤ M from hlt)
    have hlast := hM.last
    rw [Dump.ddflush, if_neg (by simp only; omega)]
    refine ⟨hbuf.symm, ?_, by simp only [write]; omega, hlt, fun _ => Nat.succ_pos _⟩
    rw [write, h2, List.range_succ, List.map_append, List.map_singleton,
      spot_of_count hM.pos h3 hlt]
  · obtain rfl : place = M := le_antisymm h4 hge
    have hnext := hM.next
    rw [Dump.ddflush, if_pos (by simp only; omega)]
    have hcount : j + place = (reel + 1) * place + 0 := by rw [Nat.succ_mul]; omega
    refine ⟨by simp [write, nextvol], ?_, by simp only [write, nextvol]; omega,
      hM.pos, fun _ => Nat.succ_pos _⟩
    rw [write, nextvol, h2, List.range_succ, List.map_append, List.map_singleton,
      spot_of_count hM.pos hcount hM.pos]

/-- The records so far, and the buffers that were written for them. -/
structure Dump.Sofar (o : Options) (M c : ℕ) (s : Dump) : Prop where
  records : ∃ j, s.At o M j ∧ c = j * o.block + s.nrec
  le : s.nrec ≤ o.block
  pos : 0 < c → 0 < s.nrec

lemma Dump.Sofar.ddnextbuf {c : ℕ} {s : Dump} (hM : Takes o M) (h : s.Sofar o M c) :
    (s.ddnextbuf o).Sofar o M (c + 1) := by
  obtain ⟨⟨j, hj, hc⟩, hle, -⟩ := h
  have hb := o.block_pos
  rw [Dump.ddnextbuf]
  by_cases hfull : s.nrec = o.block
  · rw [if_pos hfull]
    have hf := hj.ddflush hM
    refine ⟨⟨j + 1, ⟨hf.used, hf.spots, hf.count, hf.le, hf.pos⟩, ?_⟩, ?_, fun _ => ?_⟩
    · simp only
      rw [Nat.succ_mul]
      omega
    · simpa using hb
    · exact Nat.succ_pos _
  · rw [if_neg hfull]
    refine ⟨⟨j, ⟨hj.used, hj.spots, hj.count, hj.le, hj.pos⟩, ?_⟩, ?_, fun _ => Nat.succ_pos _⟩
    · simp only
      omega
    · simp only
      omega

/-- **What `dump` writes**: the buffers in their order, `M` to a volume. -/
theorem dump_spec (hM : Takes o M) (n : ℕ) : (dump o n).At o M (buffers o n) := by
  have h : ∀ c, ((ddnextbuf o)^[c] Dump.start).Sofar o M c := by
    intro c
    induction c with
    | zero => exact ⟨⟨0, .start, by simp [Dump.start, nextvol]⟩, Nat.zero_le _,
        fun h => absurd h (lt_irrefl 0)⟩
    | succ c ih =>
      rw [Function.iterate_succ_apply']
      exact ih.ddnextbuf hM
  obtain ⟨⟨j, hj, hc⟩, hle, hpos⟩ := h (n + 1)
  have hb := o.block_pos
  have hn : n / o.block = j := Nat.div_eq_of_lt_le (by have := hpos (Nat.succ_pos n); omega)
    (by rw [Nat.succ_mul]; omega)
  rw [dump, buffers, hn]
  exact hj.ddflush hM

end Dumping

section Reading

variable {o : Options} {M R last : ℕ}

open Restor

/-- `restor` takes `R` buffers from a volume: one more would end behind the volume. -/
structure Leaves (o : Options) (R : ℕ) : Prop where
  pos : 0 < R
  last : sizeof_dumpheader + R * o.ddnbuf ≤ o.length
  next : o.length < sizeof_dumpheader + (R + 1 : ℕ) * o.ddnbuf

/-- The state behind `f` buffers. -/
structure Restor.At (o : Options) (R f : ℕ) (s : Restor) : Prop where
  nread : s.nread = sizeof_dumpheader + s.place * o.ddnbuf
  spots : s.took = (List.range f).map (spot R)
  count : f + R = s.reel * R + s.place
  le : s.place ≤ R

lemma refill_take {turns f : ℕ} {s : Restor} (hR : Leaves o R) (h : s.At o R f)
    (hlt : s.place < R) : ∃ t, refill o last (turns + 1) s = some t ∧ t.At o R (f + 1) ∧
      t.ddptr = 0 := by
  obtain ⟨nread, reel, place, ddptr, took⟩ := s
  obtain ⟨h1, h2, h3, h4⟩ := h
  simp only at h1 h2 h3 h4 hlt
  have hbuf : sizeof_dumpheader + (place + 1 : ℕ) * o.ddnbuf = nread + o.ddnbuf := by
    rw [h1]
    push_cast
    ring
  have hle := mul_buf_mono (o := o) (show place + 1 ≤ R from hlt)
  have hlast := hR.last
  rw [refill, if_neg (by simp only [not_and, not_lt]; omega)]
  refine ⟨_, rfl, ⟨hbuf.symm, ?_, by simp only; omega, hlt⟩, rfl⟩
  rw [h2, List.range_succ, List.map_append, List.map_singleton, spot_of_count hR.pos h3 hlt]

/-- The next buffer is behind the one before, or on the next volume, if there is one. -/
lemma refill_spec {f : ℕ} {s : Restor} (hR : Leaves o R) (h : s.At o R f)
    (hv : f / R < last) :
    ∃ t, refill o last (last + 1) s = some t ∧ t.At o R (f + 1) ∧ t.ddptr = 0 := by
  rcases Nat.lt_or_ge s.place R with hlt | hge
  · exact refill_take hR h hlt
  · have hp : s.place = R := le_antisymm h.le hge
    have hf : f = s.reel * R := by
      have := h.count
      omega
    have hreel : s.reel < last := by
      rwa [hf, Nat.mul_div_cancel _ hR.pos] at hv
    obtain ⟨k, rfl⟩ : ∃ k, last = k + 1 := ⟨last - 1, by omega⟩
    have hnext := hR.next
    have hn := ddnbuf_pos (o := o)
    have hlast := hR.last
    have hmul := mul_buf_mono (o := o) (Nat.zero_le R)
    have hbuf : s.nread + o.ddnbuf = sizeof_dumpheader + (R + 1 : ℕ) * o.ddnbuf := by
      rw [h.nread, hp]
      push_cast
      ring
    have hbig : o.length ≠ 0 ∧ s.nread + o.ddnbuf > o.length := by
      rw [sizeof_dumpheader] at *
      constructor <;> push_cast at * <;> omega
    rw [refill, if_pos hbig, Restor.nextvol, if_pos hreel, Option.bind_some]
    refine refill_take hR ⟨?_, h.spots, ?_, Nat.zero_le _⟩ hR.pos
    · simp
    · have := h.count
      simp only
      rw [Nat.succ_mul]
      omega

/-- The records so far, and the buffers that were taken for them. -/
structure Restor.Sofar (o : Options) (R c : ℕ) (s : Restor) : Prop where
  records : ∃ f, s.At o R f ∧ c + o.block = f * o.block + s.ddptr
  le : s.ddptr ≤ o.block
  pos : 0 < s.ddptr

/-- **What `restor` takes**: the buffers in their order, `R` from a volume. -/
theorem readdumps_spec (hR : Leaves o R) (n : ℕ) (hv : n / o.block / R < last) :
    ∃ s, readdumps o last (n + 1) (Restor.start o) = some s ∧ s.At o R (buffers o n) := by
  have hb := o.block_pos
  have h : ∀ k c s, s.Sofar o R c → c + k ≤ n + 1 →
      ∃ t, readdumps o last k s = some t ∧ t.Sofar o R (c + k) := by
    intro k
    induction k with
    | zero => exact fun c s hs _ => ⟨s, rfl, hs⟩
    | succ k ih =>
      intro c s hs hk
      obtain ⟨⟨f, hf, hc⟩, hle, hpos⟩ := hs
      obtain ⟨t, ht, hts⟩ : ∃ t, readdump o last s = some t ∧ t.Sofar o R (c + 1) := by
        rw [readdump]
        by_cases hfull : s.ddptr = o.block
        · have hcf : c = f * o.block := by omega
          have hfn : f ≤ n / o.block := (Nat.le_div_iff_mul_le hb).mpr (by omega)
          have hvol : f / R < last := (Nat.div_le_div_right hfn).trans_lt hv
          obtain ⟨t, ht, hAt, hp⟩ := refill_spec hR hf hvol
          rw [if_pos hfull, ht]
          refine ⟨_, rfl, ⟨⟨f + 1, ⟨hAt.nread, hAt.spots, hAt.count, hAt.le⟩, ?_⟩, ?_, ?_⟩⟩
          · simp only [hp]
            rw [Nat.succ_mul]
            omega
          · simp only [hp]
            omega
          · exact Nat.succ_pos _
        · rw [if_neg hfull]
          refine ⟨_, rfl, ⟨⟨f, ⟨hf.nread, hf.spots, hf.count, hf.le⟩, ?_⟩, ?_, Nat.succ_pos _⟩⟩
          · simp only
            omega
          · simp only
            omega
      obtain ⟨u, hu, hus⟩ := ih (c + 1) t hts (by omega)
      refine ⟨u, ?_, by rwa [Nat.add_assoc, Nat.add_comm 1] at hus⟩
      rw [readdumps, ht, Option.bind_some, hu]
  obtain ⟨s, hs, ⟨⟨f, hf, hc⟩, hle, hpos⟩⟩ := h (n + 1) 0 (Restor.start o)
    ⟨⟨0, ⟨by simp [Restor.start], rfl, by simp [Restor.start], Nat.zero_le _⟩,
      by simp [Restor.start]⟩, le_rfl, hb⟩ (by omega)
  obtain ⟨j, rfl⟩ : ∃ j, f = j + 1 := by
    rcases f with _ | j
    · omega
    · exact ⟨j, rfl⟩
  rw [Nat.succ_mul] at hc
  have hn : n / o.block = j := Nat.div_eq_of_lt_le (by omega) (by rw [Nat.succ_mul]; omega)
  exact ⟨s, hs, by rwa [buffers, hn]⟩

end Reading

section Small

variable {o : Options} {last : ℕ}

/-- What cannot hold a buffer stays empty: the first one goes to volume 2. -/
lemma dump_small (h : o.length ≤ sizeof_dumpheader + o.ddnbuf) (n : ℕ) :
    ∃ l, (Dump.dump o n).wrote = (2, 0) :: l := by
  have hflush : ∀ s : Dump, (s.used = sizeof_dumpheader ∧ s.reel = 1 ∧ s.wrote = [] ∨
      ∃ l, s.wrote = (2, 0) :: l) → ∃ l, (s.ddflush o).wrote = (2, 0) :: l := by
    rintro s (⟨h1, h2, h3⟩ | ⟨l, hl⟩)
    · rw [Dump.ddflush, if_pos (by simp only [h1, ge_iff_le]; exact h)]
      exact ⟨[], by simp [Dump.write, Dump.nextvol, h2, h3]⟩
    · rw [Dump.ddflush]
      split <;> simp only [Dump.write, Dump.nextvol, hl, List.cons_append] <;> exact ⟨_, rfl⟩
  refine hflush _ ?_
  generalize n + 1 = c
  induction c with
  | zero => exact .inl ⟨rfl, rfl, rfl⟩
  | succ c ih =>
    rw [Function.iterate_succ_apply', Dump.ddnextbuf]
    by_cases hfull : ((Dump.ddnextbuf o)^[c] Dump.start).nrec = o.block
    · rw [if_pos hfull]
      exact .inr (hflush _ ih)
    · rw [if_neg hfull]
      exact ih

/-- A volume of no room is never read. -/
lemma refill_none (h0 : o.length ≠ 0) (h : o.length < sizeof_dumpheader + o.ddnbuf) (turns : ℕ)
    {s : Restor} (hs : s.nread = sizeof_dumpheader) : Restor.refill o last turns s = none := by
  induction turns generalizing s with
  | zero => rfl
  | succ turns ih =>
    rw [Restor.refill, if_pos ⟨h0, by rw [hs]; exact h⟩, Restor.nextvol]
    split
    · exact ih rfl
    · rfl

lemma refill_kept (turns : ℕ) {s t : Restor} (h : Restor.refill o last turns s = some t) :
    ∃ l, t.took = s.took ++ l := by
  induction turns generalizing s with
  | zero => cases h
  | succ turns ih =>
    rw [Restor.refill] at h
    split at h
    · obtain ⟨u, hu, ht⟩ := Option.bind_eq_some_iff.mp h
      rw [Restor.nextvol] at hu
      split at hu
      · cases hu
        obtain ⟨l, hl⟩ := ih ht
        exact ⟨l, hl⟩
      · cases hu
    · cases h
      exact ⟨_, rfl⟩

lemma readdump_kept {s t : Restor} (h : Restor.readdump o last s = some t) :
    ∃ l, t.took = s.took ++ l := by
  obtain ⟨u, hu, rfl⟩ := Option.map_eq_some_iff.mp h
  split at hu
  · obtain ⟨l, hl⟩ := refill_kept _ hu
    exact ⟨l, hl⟩
  · cases hu
    exact ⟨[], (List.append_nil _).symm⟩

lemma readdumps_kept (k : ℕ) {s t : Restor} (h : Restor.readdumps o last k s = some t) :
    ∃ l, t.took = s.took ++ l := by
  induction k generalizing s with
  | zero =>
    cases h
    exact ⟨[], (List.append_nil _).symm⟩
  | succ k ih =>
    obtain ⟨u, hu, ht⟩ := Option.bind_eq_some_iff.mp h
    obtain ⟨l, hl⟩ := readdump_kept hu
    obtain ⟨l', hl'⟩ := ih ht
    exact ⟨l ++ l', by rw [hl', hl, List.append_assoc]⟩

/-- `restor` begins with the first place of volume 1 or never. -/
lemma readdumps_small (n : ℕ) {s : Restor}
    (hs : Restor.readdumps o last (n + 1) (Restor.start o) = some s) :
    ∃ l, s.took = (1, 0) :: l := by
  obtain ⟨t, ht, hst⟩ := Option.bind_eq_some_iff.mp hs
  obtain ⟨l, hl⟩ := readdumps_kept n hst
  obtain ⟨u, hu, rfl⟩ := Option.map_eq_some_iff.mp ht
  have hptr : (Restor.start o).ddptr = o.block := rfl
  rw [if_pos hptr] at hu
  by_cases hnext : o.length ≠ 0 ∧ o.length < sizeof_dumpheader + o.ddnbuf
  · rw [refill_none hnext.1 hnext.2 _ rfl] at hu
    cases hu
  · have hc : ¬ (o.length ≠ 0 ∧ (Restor.start o).nread + o.ddnbuf > o.length) := fun hc =>
      hnext ⟨hc.1, hc.2⟩
    rw [Restor.refill, if_neg hc] at hu
    cases hu
    exact ⟨l, hl⟩

end Small

section Ends

variable {o : Options} {M n : ℕ}

lemma dump_reel (hM : Takes o M) : n / o.block / M < (Dump.dump o n).reel := by
  have hd := dump_spec hM n
  have hcount := hd.count
  have hpos := hd.pos (Nat.succ_pos _)
  have hle := hd.le
  rw [buffers] at hcount
  rw [Nat.div_lt_iff_lt_mul hM.pos]
  omega

/-- If `restor` fits one buffer more in a volume, it goes wrong with the first volume that
`dump` leaves. -/
lemma not_agrees (hM : Takes o M) (hR : Leaves o (M + 1)) (hN : M + 1 ≤ buffers o n) :
    ¬ Agrees o n := by
  obtain ⟨s, hs, hAt⟩ := readdumps_spec hR n
    ((Nat.div_le_div_left (Nat.le_succ M) hM.pos).trans_lt (dump_reel hM))
  rintro ⟨t, ht, he⟩
  rw [hs, Option.some_inj] at ht
  subst ht
  rw [hAt.spots, (dump_spec hM n).spots] at he
  have := List.map_inj_left.mp he M (List.mem_range.mpr hN)
  rw [spot, spot, Nat.div_eq_of_lt (Nat.lt_succ_self M), Nat.div_self hM.pos] at this
  simp at this

end Ends

/-- **The volume ends**: `restor` takes the buffers that `dump` wrote, volume by volume, if and only
if a volume has room for a buffer and no buffer ends where a volume does. -/
theorem volume_ends_agree_iff (o : Options) (n : ℕ) : Agrees o n ↔ Apart o n := by
  have hn := ddnbuf_pos (o := o)
  have hN : 1 ≤ buffers o n := Nat.succ_pos _
  rcases le_or_gt o.length (sizeof_dumpheader + o.ddnbuf) with hsmall | hbig
  · -- the volumes are too small for one buffer, or end with the first one
    refine iff_of_false ?_ ?_
    · rintro ⟨s, hs, he⟩
      obtain ⟨l, hl⟩ := dump_small hsmall n
      obtain ⟨l', hl'⟩ := readdumps_small n hs
      rw [hl, hl'] at he
      simp at he
    · rintro ⟨h1, h2⟩
      exact h2 1 hN (by rw [Nat.cast_one, one_mul]; omega)
  obtain ⟨M, hM⟩ : ∃ M, Takes o M := by
    have hq := Int.ediv_mul_le (o.length - sizeof_dumpheader - 1) (show o.ddnbuf ≠ 0 by omega)
    have hq' := Int.lt_ediv_add_one_mul_self (o.length - sizeof_dumpheader - 1)
      (show 0 < o.ddnbuf by omega)
    have hpos : 1 ≤ (o.length - sizeof_dumpheader - 1) / o.ddnbuf :=
      (Int.le_ediv_iff_mul_le (by omega)).mpr (by omega)
    obtain ⟨M, hM⟩ := Int.eq_ofNat_of_zero_le (show 0 ≤ (o.length - sizeof_dumpheader - 1) /
      o.ddnbuf by omega)
    rw [hM] at hq hq' hpos
    refine ⟨M, by omega, by omega, ?_⟩
    push_cast
    omega
  have hd := dump_spec hM n
  have hlast := dump_reel (n := n) hM
  have hapart : Apart o n ↔ ¬ (o.length = sizeof_dumpheader + (M + 1 : ℕ) * o.ddnbuf ∧
      M + 1 ≤ buffers o n) := by
    constructor
    · rintro h ⟨he, hle⟩
      exact h.2 _ hle he.symm
    · refine fun h => ⟨by omega, fun k hk he => h ?_⟩
      have h1 := hM.last
      have h2 := hM.next
      have hk1 : M + 1 ≤ k := by
        by_contra hc
        have := mul_buf_mono (o := o) (show k ≤ M by omega)
        omega
      have := mul_buf_mono (o := o) hk1
      exact ⟨by omega, by omega⟩
  rw [hapart]
  by_cases hend : o.length = sizeof_dumpheader + (M + 1 : ℕ) * o.ddnbuf
  · -- `restor` fits one buffer more in a volume
    have hR : Leaves o (M + 1) := ⟨Nat.succ_pos _, by omega, by
      have := mul_buf_mono (o := o) (show M + 1 ≤ M + 1 + 1 by omega)
      push_cast at *
      linarith⟩
    obtain ⟨s, hs, hAt⟩ := readdumps_spec hR n
      ((Nat.div_le_div_left (Nat.le_succ M) hM.pos).trans_lt hlast)
    refine ⟨fun h h' => not_agrees hM hR h'.2 h, fun h => ?_⟩
    refine ⟨s, hs, ?_⟩
    rw [hAt.spots, hd.spots]
    refine List.map_congr_left fun i hi => ?_
    have hi' : i < M := by
      have := List.mem_range.mp hi
      by_contra hc
      exact h ⟨hend, by omega⟩
    rw [spot, spot, Nat.div_eq_of_lt hi', Nat.div_eq_of_lt (by omega), Nat.mod_eq_of_lt hi',
      Nat.mod_eq_of_lt (by omega)]
  · refine iff_of_true ?_ fun h => hend h.1
    have hR : Leaves o M := ⟨hM.pos, hM.last.le, lt_of_le_of_ne hM.next hend⟩
    obtain ⟨s, hs, hAt⟩ := readdumps_spec hR n hlast
    exact ⟨s, hs, by rw [hAt.spots, hd.spots]⟩

/-- Volumes of 256 blocks, and buffers of one record. -/
def diskettes : Options := ⟨256, 1, by decide, by decide⟩

/-- The 251st buffer would end with the volume: `dump` writes it on the next one, and `restor` reads
it from the first. -/
theorem diskettes_disagree : ¬ Agrees diskettes 250 := by
  refine not_agrees (M := 250) ⟨by decide, by decide, by decide⟩
    ⟨by decide, by decide, by decide⟩ (by decide)

end Coherent.Dumpvol
