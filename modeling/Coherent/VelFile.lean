import Coherent.VelWidth

/-!
A drawing is written and read back.
-/

namespace Coherent.Vellum

open Lib

variable {lib : List SYMDEF} {p q r t v w e tail : List Char} {s s' : State} {c : Char}
  {P P' : Pools} {o o' : DOBJ} {h h' : Head} {a b : Seen} {l : List Char} {qs pre post : List Seen}
  {u : ℤ × List Char}

/-! ### What every loaded drawing satisfies -/

/-- The objects of a drawing, as they are read. -/
def faces (s : State) : List Seen := s.obj.map (seen s.pools)

def ptsum (qs : List Seen) : ℕ := (qs.map fun q => q.pts.length).sum

def txsum (qs : List Seen) : ℕ := (qs.map fun q => tcost q.val).sum

def gids (qs : List Seen) : List ℕ := qs.map fun q => q.o_grp

/-- The group of the last object. -/
def lastgrp (qs : List Seen) : Option ℕ := qs.getLast?.map fun q => q.o_grp

/-- Where an object stands among the others: the points of a polyline behind those of the
polylines before it, and the first object of a group has the first free id. -/
def Follows (pre : List Seen) (a : Seen) : Prop :=
  (a.o_type = .POLY → a.o_x2 = ptsum pre) ∧
    (a.o_grp ≠ 0 → lastgrp pre ≠ some a.o_grp → a.o_grp = newgid (gids pre))

def Placed (qs : List Seen) : Prop := ∀ pre a post, qs = pre ++ a :: post → Follows pre a

lemma placed_nil : Placed [] := fun pre a post h => by simp at h

lemma Placed.snoc (h : Placed qs) (ha : Follows qs a) : Placed (qs ++ [a]) := by
  intro pre b post he
  rcases List.eq_nil_or_concat post with rfl | ⟨post, c, rfl⟩
  · obtain ⟨rfl, h1⟩ := List.append_inj' he rfl
    rw [← (List.cons.inj h1).1]
    exact ha
  · rw [List.concat_eq_append, ← List.cons_append, ← List.append_assoc] at he
    exact h pre b post (List.append_inj' he rfl).1

/-- A list of objects as a load leaves it. -/
structure Loaded (lib : List SYMDEF) (qs : List Seen) : Prop where
  canon : ∀ a ∈ qs, Canon lib a
  placed : Placed qs
  len : qs.length ≤ MAXOBJ
  pts : ptsum qs ≤ PPOOL
  txt : txsum qs ≤ TPOOL

/-- The sheet units. -/
def Units (s : State) : Prop := 0 < s.unum ∧ s.unum < 32768 ∧ Field 7 s.uname

/-- **The invariant of the load.** -/
structure Reading (lib : List SYMDEF) (s : State) : Prop where
  loaded : Loaded lib (faces s)
  ends : ∀ a ∈ faces s, Ends a.toHead
  stored : ∀ o ∈ s.obj, Stored s.pools o (seen s.pools o)
  ppuse : s.pools.ppuse = ptsum (faces s)
  tpuse : s.pools.tpuse = txsum (faces s)
  units : Units s
  pend : 0 < s.pgrem → s.pgid = 0 ∨ s.pgid = newgid (gids (faces s)) ∨
    lastgrp (faces s) = some s.pgid

lemma Reading.room (hs : Reading lib s) : Room s.pools :=
  ⟨hs.ppuse.trans_le hs.loaded.pts, hs.tpuse.trans_le hs.loaded.txt⟩

/-- The same object in a group. -/
def Seen.setgrp (a : Seen) (g : ℕ) : Seen := ⟨{ a.toHead with o_grp := g }, a.val, a.pts⟩

def DOBJ.setgrp (o : DOBJ) (g : ℕ) : DOBJ := ⟨{ o.toHead with o_grp := g }, o.o_val⟩

lemma Canon.setgrp (ha : Canon lib a) (g : ℕ) : Canon lib (a.setgrp g) := by
  cases ha with
  | sym hs hi hx hy hr hm hn hv hf hl => exact .sym hs hi hx hy hr hm hn hv hf hl
  | two ht hx hy hx2 hy2 hf hl => exact .two ht hx hy hx2 hy2 hf hl
  | text hx hy hr hv hne hf hl => exact .text hx hy hr hv hne hf hl
  | shape hi hx hy hx2 hy2 hv hf hl => exact .shape hi hx hy hx2 hy2 hv hf hl
  | conn hi hx hy hx2 hy2 hf hl => exact .conn hi hx hy hx2 hy2 hf hl
  | poly h2 h20 hn hs hf hl => exact .poly h2 h20 hn hs hf hl
  | arc hx hy hr h0 h1 hf hl => exact .arc hx hy hr h0 h1 hf hl
  | nname hx hy hw hl hn => exact .nname hx hy hw hl hn
  | dim hx hy hx2 hy2 hv hf hl => exact .dim hx hy hx2 hy2 hv hf hl

lemma Stored.setgrp (h : Stored P o a) (g : ℕ) :
    Stored P (o.setgrp g) (a.setgrp g) := by
  intro P' hP'
  rw [← h P' hP']
  rfl

/-- Old objects say the same when the pools have grown. -/
lemma faces_keeps (hs : ∀ o ∈ s.obj, Stored s.pools o (seen s.pools o)) (hk : Keeps s.pools P) :
    s.obj.map (seen P) = faces s :=
  List.map_congr_left fun o ho => (hs o ho) P hk

@[simp] lemma ptsum_append (qs rs : List Seen) : ptsum (qs ++ rs) = ptsum qs + ptsum rs := by
  simp [ptsum]

@[simp] lemma txsum_append (qs rs : List Seen) : txsum (qs ++ rs) = txsum qs + txsum rs := by
  simp [txsum]

lemma lastgrp_snoc (qs : List Seen) (a : Seen) : lastgrp (qs ++ [a]) = some a.o_grp := by
  simp [lastgrp]

/-- **Adding an object** to a list of loaded ones. -/
lemma Loaded.snoc (hq : Loaded lib qs) (ha : Canon lib a) (hf : Follows qs a)
    (hlen : qs.length < MAXOBJ) (hp : ptsum qs + a.pts.length ≤ PPOOL)
    (ht : txsum qs + tcost a.val ≤ TPOOL) : Loaded lib (qs ++ [a]) := by
  refine ⟨fun b hb => ?_, hq.placed.snoc hf, ?_, ?_, ?_⟩
  · rcases List.mem_append.mp hb with hb | hb
    · exact hq.canon b hb
    · rw [List.mem_singleton.mp hb]
      exact ha
  · rw [List.length_append]
    exact hlen
  · rw [ptsum_append]
    simpa [ptsum] using hp
  · rw [txsum_append]
    simpa [txsum] using ht

/-- The object a line adds. -/
lemma addline_some (hr : pdisp lib c s.pools (initobj (s.spare s.obj.length)) p = (P, some o)) :
    addline lib s c p = { s with
      pools := P
      obj := s.obj ++ [o.setgrp (if 0 < s.pgrem then s.pgid else o.o_grp)]
      pgrem := if 0 < s.pgrem then s.pgrem - 1 else s.pgrem } := by
  rw [addline, hr]
  simp only
  split_ifs <;> rfl

lemma addline_none (hr : pdisp lib c s.pools (initobj (s.spare s.obj.length)) p = (P, none)) :
    addline lib s c p = { s with pools := P } := by
  rw [addline, hr]

/-- What a load does with an object that has been stored. -/
lemma faces_add (hs : ∀ o ∈ s.obj, Stored s.pools o (seen s.pools o)) (ha : Adds s.pools P o a)
    (g : ℕ) : (s.obj ++ [o.setgrp g]).map (seen P) = faces s ++ [a.setgrp g] := by
  rw [List.map_append, faces_keeps hs ha.keeps, List.map_singleton,
    (ha.stored.setgrp g).seen_eq]

lemma stored_add (hs : ∀ o ∈ s.obj, Stored s.pools o (seen s.pools o)) (ha : Adds s.pools P o a)
    (g : ℕ) : ∀ o' ∈ s.obj ++ [o.setgrp g], Stored P o' (seen P o') := by
  intro o' ho'
  rcases List.mem_append.mp ho' with h | h
  · have := (hs o' h).mono ha.keeps
    rwa [this.seen_eq]
  · rw [List.mem_singleton.mp h, (ha.stored.setgrp g).seen_eq]
    exact ha.stored.setgrp g

lemma Reading.addline (hs : Reading lib s) (hlen : s.obj.length < MAXOBJ) (hn : NUL ∉ p)
    (hm : ∀ t, handed c (initobj (s.spare s.obj.length)).toHead p = some t →
      t.head? ≠ some MARK) : Reading lib (addline lib s c p) := by
  have hout := pdisp_spec (c := c) lib (s.spare s.obj.length) hs.room hn hm
  rcases hr : pdisp lib c s.pools (initobj (s.spare s.obj.length)) p with ⟨P, _ | o⟩
  · -- a rejected line
    rw [hr] at hout
    rcases hout with ⟨-, hk, hp, ht⟩ | ⟨o, q, ho, -⟩
    · rw [addline_none hr]
      have hfaces : faces { s with pools := P } = faces s := faces_keeps hs.stored hk
      refine ⟨by rw [hfaces]; exact hs.loaded, by rw [hfaces]; exact hs.ends, fun o ho => ?_,
        by rw [hfaces]; exact hp.trans hs.ppuse, by rw [hfaces]; exact ht.trans hs.tpuse, hs.units,
        by rw [hfaces]; exact hs.pend⟩
      have := (hs.stored o ho).mono hk
      rwa [this.seen_eq]
    · cases ho
  · -- an accepted one
    rw [hr] at hout
    rcases hout with ⟨ho, -⟩ | ⟨o', q, ho, hq, ha⟩
    · cases ho
    · cases ho
      rw [addline_some hr]
      have hgrp : o.o_grp = 0 := by
        have := congrArg (fun a : Seen => a.o_grp) ha.stored.seen_eq
        exact this.trans hq.grp
      set g := if 0 < s.pgrem then s.pgid else o.o_grp with hg
      have hfaces := faces_add hs.stored ha g
      have hcost : P.ppuse = ptsum (faces s) + q.pts.length ∧
          P.tpuse = txsum (faces s) + tcost q.val := by
        rw [ha.ppuse, ha.tpuse, hs.ppuse, hs.tpuse]
        exact ⟨rfl, rfl⟩
      have hfollows : Follows (faces s) (q.setgrp g) := by
        refine ⟨fun hp => (hq.base hp).trans (by rw [hs.ppuse]), fun h0 hne => ?_⟩
        change g ≠ 0 at h0
        change lastgrp (faces s) ≠ some g at hne
        change g = newgid (gids (faces s))
        by_cases hpos : 0 < s.pgrem
        · rw [if_pos hpos] at hg
          rw [hg] at h0 hne ⊢
          rcases hs.pend hpos with h | h | h
          · exact absurd h h0
          · exact h
          · exact absurd h hne
        · rw [if_neg hpos, hgrp] at hg
          exact absurd hg h0
      refine ⟨?_, ?_, stored_add hs.stored ha g, ?_, ?_, hs.units, ?_⟩
      · rw [faces, hfaces]
        refine hs.loaded.snoc (hq.canon.setgrp g) hfollows (by simpa [faces] using hlen) ?_ ?_
        · exact hcost.1 ▸ ha.pmax
        · exact hcost.2 ▸ ha.tmax
      · rw [faces, hfaces]
        intro b hb
        rcases List.mem_append.mp hb with hb | hb
        · exact hs.ends b hb
        · rw [List.mem_singleton.mp hb]
          exact hq.ends
      · rw [faces, hfaces, ptsum_append, hcost.1]
        simp [ptsum, Seen.setgrp]
      · rw [faces, hfaces, txsum_append, hcost.2]
        simp [txsum, Seen.setgrp]
      · intro hpos
        rw [faces, hfaces, lastgrp_snoc]
        by_cases h0 : 0 < s.pgrem
        · rw [if_pos h0] at hg
          exact .inr (.inr (by rw [← hg]; rfl))
        · simp only [if_neg h0] at hpos
          exact absurd hpos h0

lemma gids_faces (s : State) : gids (faces s) = s.obj.map (·.o_grp) := by
  rw [gids, faces, List.map_map]
  rfl

lemma Reading.parsegroup (hs : Reading lib s) (p : List Char) :
    Reading lib (parsegroup s p) := by
  unfold Coherent.Vellum.parsegroup
  split
  · exact hs
  · split_ifs
    · exact ⟨hs.loaded, hs.ends, hs.stored, hs.ppuse, hs.tpuse, hs.units,
        fun _ => .inr (.inl (congrArg newgid (gids_faces s).symm))⟩
    · exact hs

lemma Reading.parseunits (hs : Reading lib s) (hn : NUL ∉ p) : Reading lib (parseunits s p) := by
  obtain ⟨h1, h2, h3⟩ := hs.units
  have hunum : ∀ x, 0 < x → Short x → Reading lib { s with unum := x } := fun x hx hx' =>
    ⟨hs.loaded, hs.ends, hs.stored, hs.ppuse, hs.tpuse, ⟨hx, hx'.2, h3⟩, hs.pend⟩
  have huname : ∀ s' : State, Reading lib s' → ∀ t, Field 7 t →
      Reading lib { s' with uname := t } := fun s' hs' t ht =>
    ⟨hs'.loaded, hs'.ends, hs'.stored, hs'.ppuse, hs'.tpuse,
      ⟨hs'.units.1, hs'.units.2.1, ht⟩, hs'.pend⟩
  unfold Coherent.Vellum.parseunits
  split
  · exact hs
  · next t r ht =>
    have hs' : Reading lib (if 0 < atoi t then { s with unum := atoi t } else s) := by
      split_ifs with h
      · exact hunum _ h (atoi_range t)
      · exact hs
    dsimp only
    generalize (if 0 < atoi t then { s with unum := atoi t } else s) = s1 at hs' ⊢
    split
    · exact hs'
    · next u r' hu =>
      split_ifs with h
      · exact hs'
      · refine huname _ hs' _ (take_field (k := 5) (Words.isWord_of_next hu) h fun hc => hn ?_)
        exact (tok_suffix ht).subset (Words.next_subset hu hc)

/-- The text that a line hands to `setoval`. -/
def linetext (s : State) (lb : List Char) : Option (List Char) :=
  match tok lb with
  | none => none
  | some (t, p) =>
    if t.length = 1 then handed (t.getD 0 NUL) (initobj (s.spare s.obj.length)).toHead p else none

lemma Reading.parseobj (hs : Reading lib s) (hlen : s.obj.length < MAXOBJ) (hn : NUL ∉ l)
    (hm : ∀ t, linetext s l = some t → t.head? ≠ some MARK) :
    Reading lib (parseobj lib s l) := by
  unfold Coherent.Vellum.parseobj
  split
  · exact hs
  · next t r ht =>
    have hr : NUL ∉ r := fun h => hn ((tok_suffix ht).subset h)
    simp only
    split_ifs with h1 h2 h3 h4
    · exact hs
    · exact hs.parsegroup r
    · exact hs.parseunits hr
    · exact hs
    · push Not at h4
      refine hs.addline hlen hr fun u hu => hm u ?_
      rw [linetext, ht]
      simp only
      rw [if_pos h4.2, hu]

/-! ### The load -/

/-- No line that is read has a text that begins with the byte 1. -/
def Unmarked (lib : List SYMDEF) (s : State) (file : List Char) : Prop :=
  ∀ ls l ls', lines file = ls ++ l :: ls' →
    (loadlines lib (loadstart s) ls).obj.length < MAXOBJ →
    ∀ t, linetext (loadlines lib (loadstart s) ls) l = some t → t.head? ≠ some MARK

lemma reading_start (s : State) : Reading lib (loadstart s) := by
  refine ⟨⟨?_, placed_nil, ?_, ?_, ?_⟩, ?_, ?_, rfl, rfl, ⟨?_, ?_, .inl rfl⟩, ?_⟩
  · simp [faces, loadstart]
  · simp [faces, loadstart]
  · simp [faces, loadstart, ptsum]
  · simp [faces, loadstart, txsum]
  · simp [faces, loadstart]
  · simp [loadstart]
  · simp [loadstart]
  · simp [loadstart]
  · simp [loadstart]

lemma nul_lines {file : List Char} (h : l ∈ lines file) : NUL ∉ l := by
  obtain ⟨k, -, rfl⟩ := List.mem_map.mp h
  intro hc
  have := List.mem_takeWhile_imp hc
  simp at this

/-- **The invariant holds of every load.** -/
theorem reading_load (lib : List SYMDEF) (s : State) (file : List Char)
    (hm : Unmarked lib s file) :
    Reading lib (loadlines lib (loadstart s) (lines file)) := by
  have key : ∀ ls ls', lines file = ls ++ ls' →
      Reading lib (loadlines lib (loadstart s) ls) := by
    intro ls
    induction ls using List.reverseRecOn with
    | nil => exact fun _ _ => reading_start s
    | append_singleton ls l ih =>
      intro ls' he
      rw [List.append_assoc, List.singleton_append] at he
      have hs := ih (l :: ls') he
      have hstep : loadlines lib (loadstart s) (ls ++ [l])
          = loadline lib (loadlines lib (loadstart s) ls) l := by
        simp [loadlines]
      rw [hstep, loadline]
      split_ifs with hlen
      · exact hs.parseobj hlen (nul_lines (by rw [he]; simp)) (hm ls l ls' he hlen)
      · exact hs
  exact key _ [] (by simp)

/-! ### Lines of a file -/

lemma chunks_line {room : ℕ} {cur : List Char} (hl : '\n' ∉ l) (hlen : l.length < room) :
    chunks room cur (l ++ '\n' :: r) = (cur ++ l ++ ['\n']) :: chunks (LBUF - 1) [] r := by
  induction l generalizing room cur with
  | nil => simp [chunks]
  | cons c l ih =>
    have hc : c ≠ '\n' := fun h => hl (by simp [h])
    have hlen' : l.length + 1 < room := hlen
    rw [List.cons_append, chunks, if_neg (by rintro (h | h); exacts [hc h, by omega]),
      ih (fun h => hl (by simp [h])) (by omega)]
    simp

lemma chunks_full {room : ℕ} {cur : List Char} (hl : '\n' ∉ l) (hlen : l.length = room)
    (hroom : 0 < room) :
    chunks room cur (l ++ '\n' :: r) = (cur ++ l) :: ['\n'] :: chunks (LBUF - 1) [] r := by
  induction l generalizing room cur with
  | nil => exact absurd hlen (by simp; omega)
  | cons c l ih =>
    have hc : c ≠ '\n' := fun h => hl (by simp [h])
    have hlen' : l.length + 1 = room := hlen
    rw [List.cons_append, chunks]
    by_cases h1 : room ≤ 1
    · have hnil : l = [] := List.length_eq_zero_iff.mp (by omega)
      rw [if_pos (.inr h1), hnil, List.nil_append, chunks]
      simp
    · rw [if_neg (by rintro (h | h); exacts [hc h, h1 h]),
        ih (fun h => hl (by simp [h])) (by omega) (by omega)]
      simp

lemma takeWhile_nul (hn : NUL ∉ l) : l.takeWhile (· ≠ NUL) = l := by
  rw [List.takeWhile_eq_self_iff]
  intro c hc
  simpa using fun h : c = NUL => hn (h ▸ hc)

lemma loadline_newline (s : State) : loadline lib s ['\n'] = s := by
  rw [loadline, parseobj, show tok ['\n'] = none from rfl]
  simp

/-- **A line that fits into the buffer is read as it was written.** A line of 219 characters
leaves its newline to the next read, which finds nothing. -/
lemma load_line (lib : List SYMDEF) (s : State) (r : List Char) (hl : '\n' ∉ l) (hn : NUL ∉ l)
    (hlen : l.length < LBUF) : ∃ e, LineEnd e ∧ loadlines lib s (lines (l ++ '\n' :: r))
      = loadlines lib (loadline lib s (l ++ e)) (lines r) := by
  have hlen' : l.length < 220 := hlen
  rcases Nat.lt_or_ge l.length 219 with h | h
  · refine ⟨['\n'], .inr rfl, ?_⟩
    have hnl : NUL ∉ l ++ ['\n'] := by
      intro hc
      rcases List.mem_append.mp hc with hc | hc
      · exact hn hc
      · exact absurd (List.mem_singleton.mp hc) (by decide)
    rw [lines, chunks_line hl (show l.length < LBUF - 1 from h), List.nil_append, List.map_cons,
      takeWhile_nul hnl]
    rfl
  · refine ⟨[], .inl rfl, ?_⟩
    have h219 : l.length = LBUF - 1 := by simp only [LBUF]; omega
    rw [lines, chunks_full hl h219 (by decide), List.nil_append, List.map_cons, List.map_cons,
      takeWhile_nul hn, List.append_nil]
    change loadlines lib (loadline lib (loadline lib s l) ['\n']) (lines r) = _
    rw [loadline_newline]

/-! ### Reading the objects back -/

/-- The object as it is read back before the attachments are resolved. -/
def Seen.back (a : Seen) : Seen := (again a).setgrp a.o_grp

/-- The length of the run of objects in a group that begins a list. -/
def runlen (g : ℕ) (qs : List Seen) : ℕ := (qs.takeWhile fun a => a.o_grp = g).length

/-- The pending group, behind an object of group `g` and before the objects `post`. -/
def Pending (g : ℕ) (post : List Seen) (s : State) : Prop :=
  if g = 0 then s.pgrem = 0 else s.pgrem = runlen g post ∧ s.pgid = g

/-- **The state in the middle of the second load**: the objects `pre` are back, and the units. -/
structure Back (u : ℤ × List Char) (pre : List Seen) (s : State) : Prop where
  units : (s.unum, s.uname) = u
  faces : faces s = pre.map Seen.back
  stored : ∀ o ∈ s.obj, Stored s.pools o (seen s.pools o)
  ppuse : s.pools.ppuse = ptsum pre
  tpuse : s.pools.tpuse = txsum pre

lemma Back.length (hb : Back u pre s) : s.obj.length = pre.length := by
  have := congrArg List.length hb.faces
  simpa [Coherent.Vellum.faces] using this

lemma Back.gids (hb : Back u pre s) : s.obj.map (·.o_grp) = gids pre := by
  rw [← gids_faces, hb.faces, Coherent.Vellum.gids, Coherent.Vellum.gids, List.map_map]
  rfl

lemma runlen_pos (a : Seen) (post : List Seen) :
    runlen a.o_grp (a :: post) = runlen a.o_grp post + 1 := by simp [runlen]

lemma runlen_zero {g : ℕ} (h : a.o_grp ≠ g) : runlen g (a :: post) = 0 := by simp [runlen, h]

/-- The pending group before an object: as behind an object of the same group. -/
lemma Pending.ready (hp : Pending ((lastgrp pre).getD 0) (a :: post) s)
    (hg : a.o_grp = 0 ∨ lastgrp pre = some a.o_grp) : Pending a.o_grp (a :: post) s := by
  rcases hg with h0 | hlast
  · rw [h0, Pending, if_pos rfl]
    unfold Pending at hp
    split_ifs at hp with h
    · exact hp
    · rw [hp.1, runlen_zero (by rw [h0]; exact Ne.symm h)]
      rfl
  · rwa [hlast, Option.getD_some] at hp

lemma parseobj_letter {p : List Char} (ht : tok l = some ([c], p)) (hc : c ∈ letters)
    (hlen : s.obj.length < MAXOBJ) : parseobj lib s l = addline lib s c p := by
  have h : ∀ d ∈ letters, ¬(d = '#' ∨ d = 'v' ∨ d = 'z') ∧ [d] ≠ ['G'] ∧ [d] ≠ ['U'] :=
    List.all_iff_forall_prop.mp (by decide)
  obtain ⟨h1, h2, h3⟩ := h c hc
  rw [parseobj, ht]
  simp only [List.getD_cons_zero]
  rw [if_neg h1, if_neg h2, if_neg h3, if_neg (by simp; omega)]

/-- **An object line is read back.** -/
lemma Back.object (hb : Back u pre s) (hpend : Pending a.o_grp (a :: post) s)
    (hq : Loaded lib (pre ++ a :: post)) (hl : Reads lib a l) (he : LineEnd e) :
    Back u (pre ++ [a]) (parseobj lib s (l ++ e)) ∧
      Pending ((lastgrp (pre ++ [a])).getD 0) post (parseobj lib s (l ++ e)) := by
  have hlen : s.obj.length < MAXOBJ := by
    have := hq.len
    simp only [List.length_append, List.length_cons] at this
    rw [hb.length]
    omega
  have hfits : Fits s.pools a := by
    have h1 := hq.pts
    have h2 := hq.txt
    rw [ptsum_append] at h1
    rw [txsum_append] at h2
    refine ⟨?_, ?_, fun h => ((hq.placed pre a post rfl).1 h).trans (by rw [hb.ppuse])⟩
    · rw [hb.ppuse]
      simp only [ptsum, List.map_cons, List.sum_cons] at h1 ⊢
      omega
    · rw [hb.tpuse]
      simp only [txsum, List.map_cons, List.sum_cons] at h2 ⊢
      omega
  obtain ⟨c, p, ht, hc, P', o', hdisp, hadds⟩ := hl.back s.pools (s.spare s.obj.length) e he hfits
  have hgrp : o'.o_grp = 0 := congrArg (fun b : Seen => b.o_grp) hadds.stored.seen_eq
  have hg : (if 0 < s.pgrem then s.pgid else o'.o_grp) = a.o_grp := by
    rw [hgrp]
    unfold Pending at hpend
    split_ifs at hpend with h0
    · rw [hpend, if_neg (by omega), h0]
    · rw [hpend.1, runlen_pos, if_pos (by omega), hpend.2]
  rw [parseobj_letter ht hc hlen, addline_some hdisp, hg]
  have hpts : (again a).pts = a.pts := rfl
  have hval : (again a).val = a.val := rfl
  refine ⟨⟨hb.units, ?_, stored_add hb.stored hadds _, ?_, ?_⟩, ?_⟩
  · rw [Coherent.Vellum.faces, faces_add hb.stored hadds, hb.faces, List.map_append,
      List.map_singleton]
    rfl
  · rw [hadds.ppuse, hb.ppuse, hpts, ptsum_append]
    simp [ptsum]
  · rw [hadds.tpuse, hb.tpuse, hval, txsum_append]
    simp [txsum]
  · rw [lastgrp_snoc, Option.getD_some]
    unfold Pending at hpend ⊢
    by_cases h0 : a.o_grp = 0
    · rw [if_pos h0] at hpend ⊢
      simp [hpend]
    · rw [if_neg h0] at hpend ⊢
      have hpos : 0 < s.pgrem := by
        rw [hpend.1, runlen_pos]
        omega
      refine ⟨?_, hpend.2⟩
      simp only [if_pos hpos]
      rw [hpend.1, runlen_pos]
      omega

/-- The line `"G n"`. -/
def grpline (n : ℕ) : List Char := 'G' :: sp [dec n]

lemma grpline_facts (n : ℕ) : '\n' ∉ grpline n ∧ NUL ∉ grpline n := by
  have key : ∀ k, k ≠ 'G' → k ≠ ' ' → k ∉ dec n → k ∉ grpline n := by
    intro k h1 h2 h3 h
    rcases List.mem_cons.mp h with h | h
    · exact h1 h
    · rcases mem_sp h with h | ⟨w, hw, h⟩
      · exact h2 h
      · rw [List.mem_singleton.mp hw] at h
        exact h3 h
  exact ⟨key _ (by decide) (by decide) (nl_word (isWord_dec n)),
    key _ (by decide) (by decide) (nul_dec n)⟩

lemma parseobj_group {n : ℕ} (hn : 0 < n) (hn' : n ≤ MAXOBJ) (he : LineEnd e) :
    parseobj lib s (grpline n ++ e) = { s with
      pgrem := n
      pgid := newgid (s.obj.map (·.o_grp)) } := by
  have hn4 : n ≤ 400 := hn'
  have ht : tok (grpline n ++ e) = some (['G'], (sp [dec n] ++ e).drop 1) := by
    have hw : Word ['G'] := ⟨by decide, List.all_eq_true.mp (by decide)⟩
    have : grpline n ++ e = ['G'] ++ (sp [dec n] ++ e) := rfl
    rw [this]
    exact Words.next_word hw (Words.ended_spaced inner_space he.ended)
  have hd : atoi (dec n) = n :=
    atoi_dec_self (by unfold Short; omega)
  rw [parseobj, ht]
  simp only [List.getD_cons_zero]
  rw [if_neg (by decide), if_pos trivial, parsegroup, tok_sp (isWord_dec n) he.ended]
  simp only [hd]
  rw [if_pos (by omega)]

/-- **A group header is read back**: the group has the first free id again. -/
lemma Back.header (hb : Back u pre s) (hg : a.o_grp ≠ 0) (hq : Loaded lib (pre ++ a :: post))
    (hne : lastgrp pre ≠ some a.o_grp) (he : LineEnd e) :
    Back u pre (parseobj lib s (grpline (runlen a.o_grp (a :: post)) ++ e)) ∧
      Pending a.o_grp (a :: post)
        (parseobj lib s (grpline (runlen a.o_grp (a :: post)) ++ e)) := by
  have hpos : 0 < runlen a.o_grp (a :: post) := by rw [runlen_pos]; omega
  have hle : runlen a.o_grp (a :: post) ≤ MAXOBJ := by
    have h1 := hq.len
    have h2 := (List.takeWhile_prefix (l := a :: post)
      (fun b : Seen => decide (b.o_grp = a.o_grp))).length_le
    rw [List.length_append] at h1
    rw [runlen]
    omega
  rw [parseobj_group hpos hle he]
  refine ⟨⟨hb.units, hb.faces, hb.stored, hb.ppuse, hb.tpuse⟩, ?_⟩
  rw [Pending, if_neg hg, hb.gids]
  exact ⟨rfl, ((hq.placed pre a post rfl).2 hg hne).symm⟩

/-- A line that the writer's buffer holds and the reader understands. -/
def Written (lib : List SYMDEF) (a : Seen) : Prop :=
  ∃ l, fmtobj lib a = some l ∧ Reads lib a l ∧ l.length < LBUF

lemma grphead_eq (prev : Option ℕ) (o : DOBJ) (os : List DOBJ) (P : Pools) :
    grphead prev (o :: os) = if o.o_grp ≠ 0 ∧ prev ≠ some o.o_grp then
      grpline (runlen o.o_grp ((o :: os).map (seen P))) ++ ['\n'] else [] := by
  have hlen : ((o :: os).takeWhile fun b => b.o_grp = o.o_grp).length
      = runlen o.o_grp ((o :: os).map (seen P)) := by
    rw [runlen, List.takeWhile_map, List.length_map]
    rfl
  rw [grphead, hlen]
  rfl

lemma loadline_eq (hlen : s.obj.length < MAXOBJ) : loadline lib s l = parseobj lib s l :=
  if_pos hlen

/-- **All objects are read back**, one after the other. -/
theorem back_objects {P : Pools} {os : List DOBJ} {body : List Char}
    (hq : Loaded lib (pre ++ os.map (seen P)))
    (hw : ∀ a ∈ os.map (seen P), Written lib a) (hb : Back u pre s)
    (hp : Pending ((lastgrp pre).getD 0) (os.map (seen P)) s)
    (hbody : writeobjs lib P (lastgrp pre) os = some body) :
    Back u (pre ++ os.map (seen P)) (loadlines lib s (lines body)) := by
  induction os generalizing pre s body with
  | nil =>
    rw [writeobjs, Option.some.injEq] at hbody
    rw [← hbody, List.map_nil, List.append_nil]
    exact hb
  | cons o os ih =>
    rw [List.map_cons] at hq hw hp ⊢
    obtain ⟨l, hfmt, hreads, hlen⟩ := hw _ List.mem_cons_self
    simp only [writeobjs, hfmt, Option.bind_eq_bind, Option.bind_some, Option.bind_eq_some_iff,
      Option.pure_def, Option.some.injEq] at hbody
    obtain ⟨rest, hrest, rfl⟩ := hbody
    have hobj : s.obj.length < MAXOBJ := by
      have := hq.len
      simp only [List.length_append, List.length_cons] at this
      rw [hb.length]
      omega
    -- the header, if there is one
    have hhead : ∃ s1, Back u pre s1 ∧ Pending o.o_grp (seen P o :: os.map (seen P)) s1 ∧
        loadlines lib s (lines (grphead (lastgrp pre) (o :: os)
          ++ ((if l = [] then [] else l ++ ['\n']) ++ rest)))
          = loadlines lib s1 (lines ((if l = [] then [] else l ++ ['\n']) ++ rest)) := by
      rw [grphead_eq _ _ _ P]
      split_ifs with hc h0 h0
      · exact absurd h0 hreads.ne
      · obtain ⟨hn1, hn2⟩ := grpline_facts (runlen o.o_grp ((o :: os).map (seen P)))
        have hshort : (grpline (runlen o.o_grp ((o :: os).map (seen P)))).length < LBUF := by
          have := length_dec_le (runlen o.o_grp ((o :: os).map (seen P)) : ℕ)
          simp only [grpline, sp, Words.spaced_cons, Words.spaced_nil, List.length_cons,
            List.length_append, List.length_nil, LBUF]
          omega
        rw [List.append_assoc, List.singleton_append]
        obtain ⟨e, he, hload⟩ := load_line lib s (l ++ ['\n'] ++ rest) hn1 hn2 hshort
        rw [hload, loadline_eq hobj]
        obtain ⟨h1, h2⟩ := hb.header (a := seen P o) hc.1 hq hc.2 he
        exact ⟨_, h1, h2, rfl⟩
      · exact absurd h0 hreads.ne
      · rw [not_and_or, not_not, not_not] at hc
        exact ⟨s, hb, Pending.ready (a := seen P o) hp hc, rfl⟩
    obtain ⟨s1, hb1, hp1, hload1⟩ := hhead
    have hobj1 : s1.obj.length < MAXOBJ := by rwa [hb1.length, ← hb.length]
    -- the object
    rw [hload1, if_neg hreads.ne, List.append_assoc, List.singleton_append]
    obtain ⟨e, he, hload2⟩ := load_line lib s1 rest hreads.nl hreads.nul hlen
    rw [hload2, loadline_eq hobj1]
    obtain ⟨hb2, hp2⟩ := hb1.object hp1 hq hreads he
    have hcons : pre ++ seen P o :: os.map (seen P) = (pre ++ [seen P o]) ++ os.map (seen P) := by
      simp
    rw [hcons] at hq ⊢
    exact ih hq (fun a ha => hw a (List.mem_cons_of_mem _ ha)) hb2 hp2
      (by rw [lastgrp_snoc]; exact hrest)

end Coherent.Vellum
