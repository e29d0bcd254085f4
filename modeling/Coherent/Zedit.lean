import Mathlib.Tactic
import Mathlib.Data.List.GetD
import Mathlib.Data.List.TakeWhile

/-!
The text of `zedit`: its lines, the commands that change them, and `loadfile` and `savefile`.

A line is what its storage holds in front of the NUL that `lndup` puts behind it; the editor only
ever uses it as a string, that is up to the first NUL. Whether `malloc` finds room is a parameter,
and so is where the cursor stands. `newbuf` finds its one byte: a text has just been freed.
-/

namespace Coherent.Zedit

abbrev Line := List UInt8

def MAXLN : ℕ := 1024

def MAXLL : ℕ := 240

def NL : UInt8 := 10

/-- The line as a string. -/
def str (s : Line) : Line := s.takeWhile (· ≠ 0)

def strlen (s : Line) : ℕ := (str s).length

/-! ### Line storage -/

def setline (room : Bool) (ln : List Line) (i : ℕ) (s : Line) : Option (List Line) :=
  if room then some (ln.set i s) else none

def insline (room : Bool) (ln : List Line) (i : ℕ) (s : Line) : Option (List Line) :=
  if MAXLN ≤ ln.length ∨ room = false then none else some (ln.take i ++ s :: ln.drop i)

def delline (ln : List Line) (i : ℕ) : List Line := ln.eraseIdx i

def newbuf : List Line := [[]]

def addline (room : Bool) (ln : List Line) (s : Line) : Option (List Line) :=
  if MAXLN ≤ ln.length ∨ room = false then none else some (ln ++ [s])

/-! ### Editing primitives -/

/-- Line `l` as a string. -/
def line (ln : List Line) (l : ℕ) : Line := str (ln.getD l [])

def inschar (room : Bool) (ln : List Line) (l dotc : ℕ) (c : UInt8) : List Line :=
  let p := line ln l
  if MAXLL ≤ p.length then ln
  else (setline room ln l (p.take dotc ++ c :: p.drop dotc)).getD ln

/-- `room'` is for the second copy. -/
def donl (room room' : Bool) (ln : List Line) (l dotc : ℕ) : List Line :=
  let p := line ln l
  match insline room ln (l + 1) (p.drop dotc) with
  | none => ln
  | some ln => (setline room' ln l (p.take dotc)).getD ln

def delrange (room : Bool) (ln : List Line) (l i0 i1 : ℕ) : List Line :=
  let p := line ln l
  if i1 ≤ i0 then ln else (setline room ln l (p.take i0 ++ p.drop i1)).getD ln

def joinln (room : Bool) (ln : List Line) (l : ℕ) : List Line :=
  if ln.length ≤ l + 1 then ln
  else if MAXLL < (line ln l).length + (line ln (l + 1)).length then ln
  else match setline room ln l (line ln l ++ line ln (l + 1)) with
    | none => ln
    | some ln => delline ln (l + 1)

def transpose (room : Bool) (ln : List Line) (l dotc : ℕ) : List Line :=
  let p := line ln l
  let i := min dotc (p.length - 1)
  match p.drop (i - 1) with
  | b :: c :: d =>
    if i = 0 then ln else (setline room ln l (p.take (i - 1) ++ c :: b :: d)).getD ln
  | _ => ln

def replhere (room : Bool) (ln : List Line) (l dotc : ℕ) (srchbuf replbuf : Line) : List Line :=
  let p := line ln l
  if srchbuf = [] ∨ (p.drop dotc).take srchbuf.length ≠ srchbuf then ln
  else if MAXLL < p.length - srchbuf.length + replbuf.length then ln
  else (setline room ln l (p.take dotc ++ replbuf ++ p.drop (dotc + srchbuf.length))).getD ln

def toupper (c : UInt8) : UInt8 := if 97 ≤ c ∧ c ≤ 122 then c - 32 else c

def tolower (c : UInt8) : UInt8 := if 65 ≤ c ∧ c ≤ 90 then c + 32 else c

/-- A range of one line in upper or lower case, as `selcase` and `wordcase` put it. -/
def recase (ln : List Line) (l i0 i1 : ℕ) (up : Bool) : List Line :=
  let p := line ln l
  let f := if up then toupper else tolower
  ln.set l (p.take i0 ++ ((p.take i1).drop i0).map f ++ p.drop (max i0 i1))

/-- What the commands do with the text; the others are made up of these. -/
inductive Edit
  | inschar (l dotc : ℕ) (c : UInt8)
  | donl (l dotc : ℕ)
  | delrange (l i0 i1 : ℕ)
  | joinln (l : ℕ)
  | transpose (l dotc : ℕ)
  | replhere (l dotc : ℕ) (srchbuf replbuf : Line)
  | recase (l i0 i1 : ℕ) (up : Bool)
  /-- `delline` in `delsel`, which leaves the lines around the one it takes out. -/
  | delmid (l : ℕ)

/-- No newline comes out of the keyboard, the kill buffer, a selection or a dialog as a
character of a line. -/
def Edit.Typed : Edit → Prop
  | .inschar _ _ c => c ≠ NL
  | .replhere _ _ _ replbuf => NL ∉ replbuf
  | _ => True

def Edit.run (room room' : Bool) (ln : List Line) : Edit → List Line
  | .inschar l dotc c => Zedit.inschar room ln l dotc c
  | .donl l dotc => Zedit.donl room room' ln l dotc
  | .delrange l i0 i1 => Zedit.delrange room ln l i0 i1
  | .joinln l => Zedit.joinln room ln l
  | .transpose l dotc => Zedit.transpose room ln l dotc
  | .replhere l dotc srchbuf replbuf => Zedit.replhere room ln l dotc srchbuf replbuf
  | .recase l i0 i1 up => Zedit.recase ln l i0 i1 up
  | .delmid l => if 0 < l ∧ l + 1 < ln.length then delline ln l else ln

/-! ### Load and save -/

/-- A file as `loadfile` reads it: what each `read` brings, and what lies behind the first one
that brings nothing, which is the end of the file or an error. -/
structure File where
  reads : List (List UInt8)
  rest : List UInt8
  sizes : ∀ b ∈ reads, b ≠ [] ∧ b.length ≤ 512

def File.contents (f : File) : List UInt8 := f.reads.flatten ++ f.rest

structure Load where
  ln : List Line
  wk : Line
  dirty : Bool

/-- A character; an error is the jump to `full`. There is room for line `k` when `room k`. -/
def Load.char (room : ℕ → Bool) (st : Load) (c : UInt8) : Except Load Load :=
  if c = NL then
    match addline (room st.ln.length) st.ln st.wk with
    | none => .error { st with dirty := true }
    | some ln => .ok { st with ln, wk := [] }
  else if st.wk.length < MAXLL then .ok { st with wk := st.wk ++ [c] }
  else
    match addline (room st.ln.length) st.ln st.wk with
    | none => .error { st with dirty := true }
    | some ln => .ok { ln, wk := [c], dirty := true }

/-- The lines after the loop, and the flag. -/
def Load.full (st : Load) : List Line × Bool :=
  (if st.ln = [] then newbuf else st.ln, st.dirty)

/-- The line that is left at the end. -/
def Load.last (room : ℕ → Bool) (st : Load) : Load :=
  if st.wk = [] then st
  else match addline (room st.ln.length) st.ln st.wk with
    | none => { st with dirty := true }
    | some ln => { st with ln }

/-- The lines and `modified`. -/
def loadfile (room : ℕ → Bool) (f : File) : List Line × Bool :=
  match f.reads.foldlM (fun st b => b.foldlM (Load.char room) st) ⟨[], [], false⟩ with
  | .error st => st.full
  | .ok st => (st.last room).full

/-- What `savefile` gives to `write`, one call after the other. -/
def writes (ln : List Line) : List Line :=
  ln.flatMap fun s => (if str s = [] then [] else [str s]) ++ [[NL]]

/-- The calls of `write`, up to the first that does not return its length; `none` is its error. -/
def send (write : ℕ → Option ℕ) : ℕ → List Line → List UInt8 × Bool
  | _, [] => ([], true)
  | k, s :: rest =>
    if write k = some s.length then
      let r := send write (k + 1) rest
      (s ++ r.1, r.2)
    else (s.take ((write k).getD 0), false)

/-- What is left of a save: the file if it could be created, `modified`, and whether `savefile`
returns 0. -/
structure Saved where
  file : Option (List UInt8)
  modified : Bool
  done : Bool

def savefile (creat : Bool) (write : ℕ → Option ℕ) (ln : List Line) (modified : Bool) : Saved :=
  if creat then
    let r := send write 0 (writes ln)
    if r.2 then ⟨some r.1, false, true⟩ else ⟨some r.1, modified, false⟩
  else ⟨none, modified, false⟩

/-- The texts that the editor can come to. -/
inductive Reach : List Line → Prop
  | newbuf : Reach newbuf
  | load (room : ℕ → Bool) (f : File) : Reach (loadfile room f).1
  | edit (room room' : Bool) {ln : List Line} {e : Edit} : Reach ln → e.Typed →
      Reach (e.run room room' ln)

/-! ### Lines of at most 240 bytes -/

/-- What a text keeps to. -/
structure Fine (ln : List Line) : Prop where
  pos : 0 < ln.length
  most : ln.length ≤ MAXLN
  fits : ∀ s ∈ ln, strlen s ≤ MAXLL ∧ NL ∉ str s

lemma str_initial (s : Line) : str s <+: s := List.takeWhile_prefix _

lemma str_le (s : Line) : strlen s ≤ s.length := (str_initial s).length_le

lemma str_of_no_nul {s : Line} (h : 0 ∉ s) : str s = s :=
  List.takeWhile_eq_self_iff.mpr fun c hc => by
    simpa using fun h0 : c = 0 => h (h0 ▸ hc)

lemma no_nul_str (s : Line) : 0 ∉ str s := fun h => by
  simpa using List.mem_takeWhile_imp h

@[simp] lemma str_str (s : Line) : str (str s) = str s := str_of_no_nul (no_nul_str s)

/-- A string that may stand in a line. -/
def Fits (s : Line) : Prop := s.length ≤ MAXLL ∧ NL ∉ s

lemma Fits.stored {s : Line} (h : Fits s) : strlen s ≤ MAXLL ∧ NL ∉ str s :=
  ⟨(str_le s).trans h.1, fun hn => h.2 ((str_initial s).subset hn)⟩

lemma Fits.nil : Fits [] := ⟨Nat.zero_le _, by simp⟩

lemma Fine.line {ln : List Line} (h : Fine ln) (l : ℕ) : Fits (line ln l) := by
  unfold Zedit.line
  by_cases hl : l < ln.length
  · rw [List.getD_eq_getElem _ _ hl]
    exact h.fits _ (List.getElem_mem hl)
  · rw [List.getD_eq_default _ _ (not_lt.mp hl)]
    exact Fits.nil

lemma Fine.set {ln : List Line} (h : Fine ln) {s : Line} (hs : Fits s) (l : ℕ) :
    Fine (ln.set l s) where
  pos := by simpa using h.pos
  most := by simpa using h.most
  fits := fun t ht => by
    rcases List.mem_or_eq_of_mem_set ht with ht | rfl
    · exact h.fits t ht
    · exact hs.stored

lemma Fine.setline {ln : List Line} (h : Fine ln) {s : Line} (hs : Fits s) (room : Bool) (l : ℕ) :
    Fine ((setline room ln l s).getD ln) := by
  cases room
  · exact h
  · exact h.set hs l

lemma Fine.insline {ln ln' : List Line} (h : Fine ln) {s : Line} (hs : Fits s) {room : Bool}
    {i : ℕ} (he : insline room ln i s = some ln') : Fine ln' := by
  unfold Zedit.insline at he
  split_ifs at he with hfull
  obtain rfl := Option.some.inj he
  push Not at hfull
  have hlen : (ln.take i ++ s :: ln.drop i).length = ln.length + 1 := by
    simp only [List.length_append, List.length_take, List.length_cons, List.length_drop]
    omega
  refine ⟨by omega, by rw [hlen]; exact hfull.1, fun t ht => ?_⟩
  rcases List.mem_append.mp ht with ht | ht
  · exact h.fits t (List.mem_of_mem_take ht)
  · rcases List.mem_cons.mp ht with rfl | ht
    · exact hs.stored
    · exact h.fits t (List.mem_of_mem_drop ht)

lemma Fine.delline {ln : List Line} (h : Fine ln) {i : ℕ} (hi : i < ln.length)
    (hlen : 1 < ln.length) : Fine (delline ln i) where
  pos := by rw [Zedit.delline, List.length_eraseIdx_of_lt hi]; omega
  most := by rw [Zedit.delline, List.length_eraseIdx_of_lt hi]; have := h.most; omega
  fits := fun t ht => h.fits t (List.mem_of_mem_eraseIdx ht)

lemma Fits.take_drop {p q : Line} (hp : Fits p) (hq : NL ∉ q) {a b : ℕ}
    (hlen : (p.take a ++ q ++ p.drop b).length ≤ MAXLL) : Fits (p.take a ++ q ++ p.drop b) := by
  refine ⟨hlen, fun hn => ?_⟩
  rcases List.mem_append.mp hn with hn | hn
  · rcases List.mem_append.mp hn with hn | hn
    · exact hp.2 (List.mem_of_mem_take hn)
    · exact hq hn
  · exact hp.2 (List.mem_of_mem_drop hn)

lemma Fine.inschar {ln : List Line} (h : Fine ln) (room : Bool) (l dotc : ℕ) {c : UInt8}
    (hc : c ≠ NL) : Fine (inschar room ln l dotc c) := by
  have hp := h.line l
  simp only [Zedit.inschar]
  split_ifs with hfull
  · exact h
  · refine h.setline ?_ room l
    have hlen := congrArg List.length (List.take_append_drop dotc (Zedit.line ln l))
    rw [List.length_append] at hlen
    have hins := hp.take_drop (q := [c]) (a := dotc) (b := dotc)
      (by simpa using Ne.symm hc) (by simp only [List.length_append, List.length_singleton]; omega)
    simpa using hins

lemma Fits.drop {p : Line} (h : Fits p) (n : ℕ) : Fits (p.drop n) :=
  ⟨(List.drop_suffix n p).length_le.trans h.1, fun hn => h.2 (List.mem_of_mem_drop hn)⟩

lemma Fits.take {p : Line} (h : Fits p) (n : ℕ) : Fits (p.take n) :=
  ⟨(List.take_prefix n p).length_le.trans h.1, fun hn => h.2 (List.mem_of_mem_take hn)⟩

lemma Fine.donl {ln : List Line} (h : Fine ln) (room room' : Bool) (l dotc : ℕ) :
    Fine (donl room room' ln l dotc) := by
  have hp := h.line l
  simp only [Zedit.donl]
  split
  · exact h
  · next ln' he => exact (h.insline (hp.drop dotc) he).setline (hp.take dotc) room' l

lemma Fine.delrange {ln : List Line} (h : Fine ln) (room : Bool) (l i0 i1 : ℕ) :
    Fine (delrange room ln l i0 i1) := by
  have hp := h.line l
  simp only [Zedit.delrange]
  split_ifs with hi
  · exact h
  · refine h.setline ?_ room l
    have hcut := hp.take_drop (q := []) (a := i0) (b := i1) (by simp) (by
      have hlen := hp.1
      simp only [List.append_nil, List.length_append, List.length_take, List.length_drop]
      omega)
    simpa using hcut

lemma Fine.joinln {ln : List Line} (h : Fine ln) (room : Bool) (l : ℕ) :
    Fine (joinln room ln l) := by
  have hp := h.line l
  have hq := h.line (l + 1)
  simp only [Zedit.joinln]
  split_ifs with hl hfull
  · exact h
  · exact h
  · have hjoin : Fits (Zedit.line ln l ++ Zedit.line ln (l + 1)) :=
      ⟨by rw [List.length_append]; omega, by simp [hp.2, hq.2]⟩
    split
    · exact h
    · next ln' he =>
      have hset : Fine ln' := by simpa [he] using h.setline hjoin room l
      have hlen : ln'.length = ln.length := by
        cases room
        · cases he
        · obtain rfl : ln.set l _ = ln' := Option.some.inj he
          simp
      exact hset.delline (by omega) (by omega)

lemma Fine.transpose {ln : List Line} (h : Fine ln) (room : Bool) (l dotc : ℕ) :
    Fine (transpose room ln l dotc) := by
  have hp := h.line l
  simp only [Zedit.transpose]
  split
  · next b c d hd =>
    split_ifs
    · exact h
    · refine h.setline ?_ room l
      have hline := List.take_append_drop (min dotc ((Zedit.line ln l).length - 1) - 1)
        (Zedit.line ln l)
      rw [hd] at hline
      rw [← hline] at hp
      have hlen := hp.1
      have hn := hp.2
      simp only [List.length_append, List.length_cons] at hlen
      simp only [List.mem_append, List.mem_cons, not_or] at hn
      refine ⟨by simp only [List.length_append, List.length_cons]; omega, ?_⟩
      simp only [List.mem_append, List.mem_cons, not_or]
      tauto
  · exact h

lemma Fine.replhere {ln : List Line} (h : Fine ln) (room : Bool) (l dotc : ℕ) (srchbuf : Line)
    {replbuf : Line} (hr : NL ∉ replbuf) : Fine (replhere room ln l dotc srchbuf replbuf) := by
  have hp := h.line l
  simp only [Zedit.replhere]
  split_ifs with hat hfull
  · exact h
  · exact h
  · push Not at hat
    refine h.setline (hp.take_drop hr ?_) room l
    -- the match lies in the line
    have hlen := congrArg List.length hat.2
    have hpos : 0 < srchbuf.length := List.length_pos_iff.mpr hat.1
    simp only [List.length_take, List.length_drop] at hlen
    simp only [List.length_append, List.length_take, List.length_drop]
    omega

lemma Fine.recase {ln : List Line} (h : Fine ln) (l i0 i1 : ℕ) (up : Bool) :
    Fine (recase ln l i0 i1 up) := by
  have hp := h.line l
  have hcase : ∀ c : UInt8, (if up then toupper else tolower) c = NL → c = NL := by
    intro c hc
    cases up <;> simp only [toupper, tolower, NL, Bool.false_eq_true, if_false, if_true] at hc ⊢ <;>
      split_ifs at hc with hr <;> first
        | exact hc
        | (exfalso
           obtain ⟨h1, h2⟩ := hr
           rw [UInt8.le_iff_toNat_le] at h1 h2
           have hc' := congrArg UInt8.toNat hc
           simp only [UInt8.toNat_add, UInt8.toNat_sub, UInt8.toNat_ofNat] at hc' h1 h2
           omega)
  simp only [Zedit.recase]
  refine h.set (hp.take_drop (fun hn => ?_) ?_) l
  · obtain ⟨c, hc, he⟩ := List.mem_map.mp hn
    exact hp.2 (hcase c he ▸ List.mem_of_mem_take (List.mem_of_mem_drop hc))
  · have hlen := hp.1
    simp only [List.length_append, List.length_map, List.length_take, List.length_drop]
    omega

lemma Fine.edit {ln : List Line} (h : Fine ln) {e : Edit} (he : e.Typed) (room room' : Bool) :
    Fine (e.run room room' ln) := by
  cases e with
  | inschar l dotc c => exact h.inschar room l dotc he
  | donl l dotc => exact h.donl room room' l dotc
  | delrange l i0 i1 => exact h.delrange room l i0 i1
  | joinln l => exact h.joinln room l
  | transpose l dotc => exact h.transpose room l dotc
  | replhere l dotc srchbuf replbuf => exact h.replhere room l dotc srchbuf he
  | recase l i0 i1 up => exact h.recase l i0 i1 up
  | delmid l =>
    simp only [Edit.run]
    split_ifs with hl
    · exact h.delline (by omega) (by omega)
    · exact h

/-! ### The lines of a file -/

/-- The lines of a file; the last one may go without a newline. -/
def lines : List UInt8 → List Line
  | [] => []
  | c :: rest =>
    if c = NL then [] :: lines rest
    else match lines rest with
      | [] => [[c]]
      | s :: ss => (c :: s) :: ss

lemma lines_newline {wk : Line} (h : NL ∉ wk) (rest : List UInt8) :
    lines (wk ++ NL :: rest) = wk :: lines rest := by
  induction wk with
  | nil => simp [lines]
  | cons c wk ih =>
    simp only [List.mem_cons, not_or] at h
    rw [List.cons_append, lines, if_neg (Ne.symm h.1), ih h.2]

lemma lines_last {wk : Line} (h : NL ∉ wk) (h0 : wk ≠ []) : lines wk = [wk] := by
  induction wk with
  | nil => exact absurd rfl h0
  | cons c wk ih =>
    simp only [List.mem_cons, not_or] at h
    rw [lines, if_neg (Ne.symm h.1)]
    rcases eq_or_ne wk [] with rfl | h1
    · rfl
    · rw [ih h.2 h1]

/-- What has no newline yet is the beginning of the first line. -/
lemma lines_long (wk : Line) (h : NL ∉ wk) (h0 : wk ≠ []) (rest : List UInt8) :
    ∃ s ss, lines (wk ++ rest) = (wk ++ s) :: ss := by
  induction wk with
  | nil => exact absurd rfl h0
  | cons c wk ih =>
    simp only [List.mem_cons, not_or] at h
    rw [List.cons_append, lines, if_neg (Ne.symm h.1)]
    rcases eq_or_ne wk [] with rfl | h1
    · rw [List.nil_append]
      cases lines rest with
      | nil => exact ⟨[], [], rfl⟩
      | cons s ss => exact ⟨s, ss, rfl⟩
    · obtain ⟨s, ss, he⟩ := ih h.2 h1
      exact ⟨s, ss, by rw [he]; rfl⟩

/-- The text that lines stand for. -/
def unlines (ss : List Line) : List UInt8 := ss.flatMap fun s => s ++ [NL]

@[simp] lemma unlines_nil : unlines [] = [] := rfl

@[simp] lemma unlines_cons (s : Line) (ss : List Line) :
    unlines (s :: ss) = s ++ NL :: unlines ss := by
  simp [unlines]

lemma lines_unlines {ss : List Line} (h : ∀ s ∈ ss, NL ∉ s) : lines (unlines ss) = ss := by
  induction ss with
  | nil => rfl
  | cons s ss ih =>
    rw [unlines_cons, lines_newline (h s (by simp)), ih fun t ht => h t (by simp [ht])]

/-- Only a missing last newline is made up for. -/
lemma unlines_lines (text : List UInt8) : unlines (lines text) =
    if text = [] ∨ text.getLast? = some NL then text else text ++ [NL] := by
  induction text with
  | nil => rfl
  | cons c rest ih =>
    have hlast : c ≠ NL ∨ rest ≠ [] →
        ((c :: rest).getLast? = some NL ↔ rest ≠ [] ∧ rest.getLast? = some NL) := by
      intro h
      cases rest with
      | nil => simpa using h
      | cons d rest => simp [List.getLast?_cons_cons]
    by_cases hc : c = NL
    · rw [lines, if_pos hc, unlines_cons, ih, List.nil_append]
      rcases eq_or_ne rest [] with rfl | hr
      · simp [hc]
      · have hl := (hlast (.inr hr)).trans (and_iff_right hr)
        rw [hc] at hl ⊢
        simp only [hr, false_or, hl, List.cons_ne_nil]
        split_ifs <;> rfl
    · rw [lines, if_neg hc]
      rcases eq_or_ne rest [] with rfl | hr
      · simp [lines, hc]
      · simp only [hr, false_or] at ih
        simp only [hlast (.inl hc), hr, ne_eq, not_false_eq_true, true_and, List.cons_ne_nil,
          false_or]
        obtain ⟨s, ss, hl⟩ : ∃ s ss, lines rest = s :: ss := by
          cases hl : lines rest with
          | nil =>
            rw [hl, unlines_nil] at ih
            split_ifs at ih
            · exact absurd ih.symm hr
            · simp at ih
          | cons s ss => exact ⟨s, ss, rfl⟩
        rw [hl] at ih ⊢
        simp only [unlines_cons, List.cons_append] at ih ⊢
        rw [ih]
        split_ifs <;> rfl

/-! ### The flag -/

/-- There is room for all lines, and all of them fit. -/
def Holds (room : ℕ → Bool) (k : ℕ) (ss : List Line) : Prop :=
  (∀ s ∈ ss, s.length ≤ MAXLL) ∧ k + ss.length ≤ MAXLN ∧
    ∀ i < ss.length, room (k + i) = true

lemma Holds.cons_iff {room : ℕ → Bool} {k : ℕ} {s : Line} {ss : List Line} :
    Holds room k (s :: ss) ↔
      s.length ≤ MAXLL ∧ k < MAXLN ∧ room k = true ∧ Holds room (k + 1) ss := by
  simp only [Holds, List.mem_cons, forall_eq_or_imp, List.length_cons]
  constructor
  · rintro ⟨⟨h1, h2⟩, h3, h4⟩
    refine ⟨h1, by omega, by simpa using h4 0 (by omega), h2, by omega, fun i hi => ?_⟩
    have := h4 (i + 1) (by omega)
    rwa [show k + (i + 1) = k + 1 + i by omega] at this
  · rintro ⟨h1, h2, h3, h4, h5, h6⟩
    refine ⟨⟨h1, h4⟩, by omega, fun i hi => ?_⟩
    rcases Nat.eq_zero_or_pos i with rfl | hpos
    · exact h3
    · have := h6 (i - 1) (by omega)
      rwa [show k + 1 + (i - 1) = k + i by omega] at this

/-- The loop over all bytes, with what comes after it. -/
def Load.run (room : ℕ → Bool) (st : Load) (text : List UInt8) : List Line × Bool :=
  match text.foldlM (Load.char room) st with
  | .error st => st.full
  | .ok st => (st.last room).full

lemma loadfile_eq (room : ℕ → Bool) (f : File) :
    loadfile room f = Load.run room ⟨[], [], false⟩ f.reads.flatten := by
  have hfold : ∀ (reads : List (List UInt8)) (st : Load),
      reads.foldlM (fun st b => b.foldlM (Load.char room) st) st =
        reads.flatten.foldlM (Load.char room) st := by
    intro reads
    induction reads with
    | nil => exact fun st => rfl
    | cons b reads ih =>
      intro st
      simp only [List.foldlM_cons, List.flatten_cons, List.foldlM_append, ih]
  rw [loadfile, hfold, Load.run]

lemma addline_eq (room : Bool) (ln : List Line) (s : Line) :
    addline room ln s = if ln.length < MAXLN ∧ room = true then some (ln ++ [s]) else none := by
  rw [addline]
  by_cases h : ln.length < MAXLN ∧ room = true
  · rw [if_pos h, if_neg (by simpa using h)]
  · rw [if_neg h, if_pos (by simpa [or_iff_not_imp_left] using h)]

/-- Once it is set the flag stays. -/
lemma Load.run_dirty {room : ℕ → Bool} {st : Load} (h : st.dirty = true) (text : List UInt8) :
    (Load.run room st text).2 = true := by
  induction text generalizing st with
  | nil =>
    show ((st.last room).full).2 = true
    simp only [Load.last]
    split_ifs
    · exact h
    · split
      · rfl
      · exact h
  | cons c text ih =>
    rw [Load.run, List.foldlM_cons]
    cases hc : st.char room c with
    | error st' =>
      have hd : st'.dirty = true := by
        simp only [Load.char] at hc
        split_ifs at hc <;> split at hc <;> cases hc <;> rfl
      exact hd
    | ok st' =>
      have hd : st'.dirty = true := by
        simp only [Load.char] at hc
        split_ifs at hc
        · split at hc <;> cases hc
          exact h
        · cases hc
          exact h
        · split at hc <;> cases hc
          rfl
      exact ih hd

lemma Load.run_char {room : ℕ → Bool} {st st' : Load} {c : UInt8} {text : List UInt8}
    (h : st.char room c = .ok st') : Load.run room st (c :: text) = Load.run room st' text := by
  rw [Load.run, List.foldlM_cons, h]
  rfl

lemma Load.run_full {room : ℕ → Bool} {st st' : Load} {c : UInt8} {text : List UInt8}
    (h : st.char room c = .error st') : Load.run room st (c :: text) = st'.full := by
  rw [Load.run, List.foldlM_cons, h]
  rfl

/-- With a clear flag in the middle of a file: the flag stays clear exactly when the lines to come
can all be held, and then they are all there. -/
lemma Load.run_clean (room : ℕ → Bool) (ln : List Line) (wk : Line) (hln : ln.length ≤ MAXLN)
    (hwk : NL ∉ wk) (hlen : wk.length ≤ MAXLL) (text : List UInt8) :
    (Holds room ln.length (lines (wk ++ text)) →
      Load.run room ⟨ln, wk, false⟩ text = (⟨ln ++ lines (wk ++ text), [], false⟩ : Load).full) ∧
    (¬ Holds room ln.length (lines (wk ++ text)) →
      (Load.run room ⟨ln, wk, false⟩ text).2 = true) := by
  induction text generalizing ln wk with
  | nil =>
    have hrun : Load.run room ⟨ln, wk, false⟩ [] = ((⟨ln, wk, false⟩ : Load).last room).full := rfl
    rw [hrun, List.append_nil, Load.last]
    rcases eq_or_ne wk [] with rfl | hne
    · exact ⟨fun _ => by simp [lines, Load.full], fun h => absurd (by simpa [lines, Holds]) h⟩
    · rw [if_neg hne, lines_last hwk hne, addline_eq, Holds.cons_iff]
      by_cases hadd : ln.length < MAXLN ∧ room ln.length = true
      · simp only [if_pos hadd]
        refine ⟨fun _ => by simp [Load.full], fun h => absurd ⟨hlen, hadd.1, hadd.2, ?_⟩ h⟩
        exact ⟨by simp, hadd.1, by simp⟩
      · simp only [if_neg hadd]
        exact ⟨fun h => absurd ⟨h.2.1, h.2.2.1⟩ hadd, fun _ => rfl⟩
  | cons c text ih =>
    by_cases hc : c = NL
    · subst hc
      rw [lines_newline hwk, Holds.cons_iff]
      by_cases hadd : ln.length < MAXLN ∧ room ln.length = true
      · have hstep : Load.char room ⟨ln, wk, false⟩ NL = .ok ⟨ln ++ [wk], [], false⟩ := by
          simp [Load.char, addline_eq, hadd]
        obtain ⟨h1, h2⟩ := ih (ln ++ [wk]) [] (by simpa using hadd.1) (by simp) (Nat.zero_le _)
        simp only [List.length_append, List.length_singleton, List.nil_append,
          List.append_assoc, List.singleton_append] at h1 h2
        rw [Load.run_char hstep]
        exact ⟨fun h => h1 h.2.2.2, fun h => h2 fun hh => h ⟨hlen, hadd.1, hadd.2, hh⟩⟩
      · have hstep : Load.char room ⟨ln, wk, false⟩ NL = .error ⟨ln, wk, true⟩ := by
          simp [Load.char, addline_eq, hadd]
        rw [Load.run_full hstep]
        exact ⟨fun h => absurd ⟨h.2.1, h.2.2.1⟩ hadd, fun _ => rfl⟩
    · rcases Nat.lt_or_ge wk.length MAXLL with hlt | hge
      · have hstep : Load.char room ⟨ln, wk, false⟩ c = .ok ⟨ln, wk ++ [c], false⟩ := by
          simp [Load.char, hc, hlt]
        rw [Load.run_char hstep]
        have hi := ih ln (wk ++ [c]) hln (by simp [hwk, Ne.symm hc]) (by simpa)
        simpa using hi
      · -- the line is too long, whatever comes behind it
        have hover : ¬ Holds room ln.length (lines (wk ++ c :: text)) := by
          obtain ⟨s, ss, he⟩ := lines_long (wk ++ [c]) (by simp [hwk, Ne.symm hc]) (by simp) text
          rw [List.append_assoc, List.singleton_append] at he
          rw [he, Holds.cons_iff]
          intro h
          have hlong := h.1
          simp only [List.length_append, List.length_singleton] at hlong
          omega
        refine ⟨fun h => absurd h hover, fun _ => ?_⟩
        cases hstep : Load.char room ⟨ln, wk, false⟩ c with
        | error st =>
          rw [Load.run_full hstep]
          simp only [Load.char, if_neg hc, if_neg (not_lt.mpr hge)] at hstep
          split at hstep <;> cases hstep
          rfl
        | ok st =>
          rw [Load.run_char hstep]
          simp only [Load.char, if_neg hc, if_neg (not_lt.mpr hge)] at hstep
          split at hstep <;> cases hstep
          exact Load.run_dirty rfl text

lemma loadfile_clean {room : ℕ → Bool} {f : File} (h : Holds room 0 (lines f.reads.flatten)) :
    loadfile room f =
      (if lines f.reads.flatten = [] then newbuf else lines f.reads.flatten, false) := by
  rw [loadfile_eq, (Load.run_clean room [] [] (Nat.zero_le _) (List.not_mem_nil)
    (Nat.zero_le _) f.reads.flatten).1 h]
  rfl

lemma loadfile_dirty {room : ℕ → Bool} {f : File}
    (h : ¬ Holds room 0 (lines f.reads.flatten)) : (loadfile room f).2 = true := by
  rw [loadfile_eq]
  exact (Load.run_clean room [] [] (Nat.zero_le _) (List.not_mem_nil) (Nat.zero_le _)
    f.reads.flatten).2 h

/-- What the loop keeps to. -/
structure Load.Fine (st : Load) : Prop where
  most : st.ln.length ≤ MAXLN
  fits : ∀ s ∈ st.ln, Fits s
  wk : Fits st.wk

lemma fine_newbuf : Fine newbuf :=
  ⟨by simp [newbuf], by simp [newbuf, MAXLN], by simp [newbuf, str, strlen]⟩

lemma Load.Fine.full {st : Load} (h : st.Fine) : Zedit.Fine st.full.1 := by
  simp only [Load.full]
  split_ifs with h0
  · exact fine_newbuf
  · exact ⟨List.length_pos_iff.mpr h0, h.most, fun s hs => (h.fits s hs).stored⟩

lemma Load.Fine.addline {st : Load} (h : st.Fine) {room : Bool} {ln : List Line} {wk : Line}
    (hwk : Fits wk) {dirty : Bool} (he : addline room st.ln st.wk = some ln) :
    (⟨ln, wk, dirty⟩ : Load).Fine := by
  rw [addline_eq] at he
  split_ifs at he with hadd
  obtain rfl := Option.some.inj he
  refine ⟨by simpa using hadd.1, fun s hs => ?_, hwk⟩
  rcases List.mem_append.mp hs with hs | hs
  · exact h.fits s hs
  · exact List.mem_singleton.mp hs ▸ h.wk

lemma Load.Fine.char {st : Load} (h : st.Fine) (room : ℕ → Bool) (c : UInt8) :
    (∀ st', st.char room c = .ok st' → st'.Fine) ∧
      ∀ st', st.char room c = .error st' → st'.Fine := by
  have hset : (⟨st.ln, st.wk, true⟩ : Load).Fine := ⟨h.most, h.fits, h.wk⟩
  simp only [Load.char]
  by_cases hc : c = NL
  · rw [if_pos hc]
    split
    · exact ⟨nofun, fun st' he => by cases he; exact hset⟩
    · next ln he => exact ⟨fun st' hok => by cases hok; exact h.addline Fits.nil he, nofun⟩
  · rw [if_neg hc]
    by_cases hlt : st.wk.length < MAXLL
    · rw [if_pos hlt]
      refine ⟨fun st' hok => ?_, nofun⟩
      cases hok
      exact ⟨h.most, h.fits, by simpa using hlt, by simp [h.wk.2, Ne.symm hc]⟩
    · rw [if_neg hlt]
      split
      · exact ⟨nofun, fun st' he => by cases he; exact hset⟩
      · next ln he =>
        refine ⟨fun st' hok => ?_, nofun⟩
        cases hok
        exact h.addline ⟨by simp [MAXLL], by simpa using Ne.symm hc⟩ he

lemma Load.Fine.run {st : Load} (h : st.Fine) (room : ℕ → Bool) (text : List UInt8) :
    Zedit.Fine (st.run room text).1 := by
  induction text generalizing st with
  | nil =>
    have hrun : Load.run room st [] = (st.last room).full := rfl
    rw [hrun]
    refine Load.Fine.full ?_
    simp only [Load.last]
    split_ifs
    · exact h
    · split
      · exact ⟨h.most, h.fits, h.wk⟩
      · next ln he => exact h.addline h.wk he
  | cons c text ih =>
    obtain ⟨hok, herr⟩ := h.char room c
    cases hstep : st.char room c with
    | error st' =>
      rw [Load.run_full hstep]
      exact (herr st' hstep).full
    | ok st' =>
      rw [Load.run_char hstep]
      exact ih (hok st' hstep)

/-- Every text the editor comes to keeps to the bounds. -/
lemma Reach.fine {ln : List Line} (h : Reach ln) : Fine ln := by
  induction h with
  | newbuf => exact fine_newbuf
  | load room f =>
    have hnil : (⟨[], [], false⟩ : Load).Fine := ⟨Nat.zero_le _, by simp, Fits.nil⟩
    rw [loadfile_eq]
    exact hnil.run room _
  | edit room room' _ he ih => exact ih.edit he room room'

/-! ### What a save leaves behind -/

lemma writes_flatten (ln : List Line) : (writes ln).flatten = unlines (ln.map str) := by
  induction ln with
  | nil => rfl
  | cons s ln ih =>
    rw [writes, List.flatMap_cons, List.flatten_append, ← writes, ih, List.map_cons, unlines_cons]
    split_ifs with h <;> simp [h]

lemma send_done : ∀ {write : ℕ → Option ℕ} {k : ℕ} {ws : List Line},
    (send write k ws).2 = true → (send write k ws).1 = ws.flatten
  | _, _, [], _ => rfl
  | write, k, s :: rest, h => by
    rw [send] at h ⊢
    split_ifs at h ⊢ with hw
    rw [List.flatten_cons, ← send_done h]

lemma send_all (ws : List Line) : ∀ {k : ℕ} {rest : List Line}, ws.drop k = rest →
    (send (fun i => some (ws.getD i []).length) k rest).2 = true
  | k, [], _ => rfl
  | k, s :: rest, h => by
    have hs : ws.getD k [] = s := by
      rw [List.getD_eq_getElem?_getD, ← List.head?_drop, h]
      rfl
    rw [send, if_pos (by rw [hs])]
    refine send_all ws (k := k + 1) ?_
    rw [← List.drop_drop, h, List.drop_one, List.tail_cons]

lemma savefile_done {creat : Bool} {write : ℕ → Option ℕ} {ln : List Line} {modified : Bool}
    (h : (savefile creat write ln modified).done = true) :
    (savefile creat write ln modified).file = some (unlines (ln.map str)) := by
  cases creat
  · cases h
  · simp only [savefile, if_true] at h ⊢
    split_ifs at h ⊢ with hs
    rw [send_done hs, writes_flatten]

/-- A save for which there is no error. -/
lemma savefile_all (ln : List Line) (modified : Bool) :
    ∃ write, (savefile true write ln modified).done = true := by
  refine ⟨fun i => some ((writes ln).getD i []).length, ?_⟩
  have hall : (send (fun i => some ((writes ln).getD i []).length) 0 (writes ln)).2 = true :=
    send_all (writes ln) rfl
  rw [savefile, if_pos rfl]
  simp only [hall, if_true]

/-! ### The round trip -/

/-- After the load `modified` is set, or a save writes the contents back. -/
def Preserves (room : ℕ → Bool) (f : File) : Prop :=
  (loadfile room f).2 = true ∨ ∀ write,
    (savefile true write (loadfile room f).1 false).done = true →
      (savefile true write (loadfile room f).1 false).file = some f.contents

/-- What a save has written is read back as the same lines, where there is room for them. -/
def Reloads : Prop :=
  ∀ ln, Reach ln → ∀ creat write modified,
    (savefile creat write ln modified).done = true → ∀ (f : File), f.rest = [] →
      (savefile creat write ln modified).file = some f.contents →
        (loadfile (fun _ => true) f).1.map str = ln.map str

/-- A save that fails does not change `modified`. -/
def Refuses : Prop :=
  ∀ ln creat write modified, (savefile creat write ln modified).done = false →
    (savefile creat write ln modified).modified = modified

/-- Some line is too long, there are too many, or there is no room for one of them. -/
def Beyond (room : ℕ → Bool) (text : List UInt8) : Prop :=
  (∃ s ∈ lines text, MAXLL < s.length) ∨ MAXLN < (lines text).length ∨
    ∃ k < (lines text).length, room k = false

/-- Lines without a NUL, each with its newline, and all of it is read; the last newline may be
missing where the line before it has been read. -/
def File.Whole (f : File) : Prop :=
  0 ∉ f.contents ∧ f.contents.getLast? = some NL ∧
    (f.rest = [] ∨ f.rest = [NL] ∧ f.reads.flatten.getLast? ≠ some NL)

lemma holds_iff_not_beyond {room : ℕ → Bool} {text : List UInt8} :
    Holds room 0 (lines text) ↔ ¬ Beyond room text := by
  simp only [Holds, Beyond, not_or, not_exists, not_and, not_lt, zero_add, Bool.not_eq_false]

lemma mem_lines {text : List UInt8} : ∀ s ∈ lines text, s ⊆ text := by
  induction text with
  | nil => simp [lines]
  | cons c rest ih =>
    intro s hs
    rw [lines] at hs
    split_ifs at hs
    · rcases List.mem_cons.mp hs with rfl | hs
      · simp
      · exact List.subset_cons_of_subset c (ih s hs)
    · split at hs
      · simp only [List.mem_singleton] at hs
        simp [hs]
      · next s' ss hl =>
        rcases List.mem_cons.mp hs with rfl | hs
        · exact List.cons_subset_cons c (ih s' (by simp [hl]))
        · exact List.subset_cons_of_subset c (ih s (by simp [hl, hs]))

lemma no_nul_unlines (ss : List Line) : 0 ∉ unlines (ss.map str) := by
  induction ss with
  | nil => simp
  | cons s ss ih =>
    rw [List.map_cons, unlines_cons]
    simp only [List.mem_append, List.mem_cons, not_or]
    exact ⟨no_nul_str s, by decide, ih⟩

/-- What a save writes after a load without the flag. -/
lemma written_eq {room : ℕ → Bool} {f : File} (h : Holds room 0 (lines f.reads.flatten))
    (h0 : 0 ∉ f.reads.flatten) : unlines ((loadfile room f).1.map str) =
      if f.reads.flatten.getLast? = some NL then f.reads.flatten else f.reads.flatten ++ [NL] := by
  rw [loadfile_clean h]
  rcases eq_or_ne f.reads.flatten [] with he | hne
  · simp [he, lines, newbuf, str]
  · have hlines := unlines_lines f.reads.flatten
    simp only [hne, false_or] at hlines
    have hstr : (lines f.reads.flatten).map str = lines f.reads.flatten :=
      (List.map_congr_left fun s hs => str_of_no_nul fun hs0 => h0 (mem_lines s hs hs0)).trans
        (List.map_id _)
    have hsome : lines f.reads.flatten ≠ [] := fun hnil => by
      rw [hnil, unlines_nil] at hlines
      split_ifs at hlines
      · exact hne hlines.symm
      · simp at hlines
    simp only [hsome, if_false, hstr, hlines]

lemma reloads : Reloads := by
  intro ln hln creat write modified hdone f hrest hfile
  rw [savefile_done hdone, Option.some.injEq, File.contents, hrest, List.append_nil] at hfile
  have hfine := hln.fine
  have hlines : lines f.reads.flatten = ln.map str := by
    rw [← hfile, lines_unlines]
    intro s hs
    obtain ⟨t, ht, rfl⟩ := List.mem_map.mp hs
    exact (hfine.fits t ht).2
  have hholds : Holds (fun _ => true) 0 (lines f.reads.flatten) := by
    rw [hlines]
    refine ⟨fun s hs => ?_, by simpa using hfine.most, fun _ _ => rfl⟩
    obtain ⟨t, ht, rfl⟩ := List.mem_map.mp hs
    exact (hfine.fits t ht).1
  have hpos : ln.map str ≠ [] := by simpa using List.length_pos_iff.mp hfine.pos
  rw [loadfile_clean hholds, hlines]
  simp [hpos]

lemma refuses : Refuses := by
  intro ln creat write modified h
  cases creat
  · rfl
  · simp only [savefile, if_true] at h ⊢
    split_ifs at h ⊢
    rfl

lemma preserves_of_whole {room : ℕ → Bool} {f : File} (h : f.Whole) : Preserves room f := by
  by_cases hb : Holds room 0 (lines f.reads.flatten)
  · refine .inr fun write hdone => ?_
    obtain ⟨h0, hlast, hrest⟩ := h
    have h0' : 0 ∉ f.reads.flatten := fun hm => h0 (List.mem_append_left _ hm)
    rw [savefile_done hdone, written_eq hb h0']
    rcases hrest with hrest | ⟨hrest, hne⟩
    · rw [File.contents, hrest, List.append_nil] at hlast ⊢
      rw [if_pos hlast]
    · rw [if_neg hne, File.contents, hrest]
  · exact .inl (loadfile_dirty hb)

lemma whole_of_preserves {room : ℕ → Bool} {f : File}
    (hb : Holds room 0 (lines f.reads.flatten)) (h : Preserves room f) : f.Whole := by
  have hclean : (loadfile room f).2 ≠ true := by simp [loadfile_clean hb]
  obtain ⟨write, hdone⟩ := savefile_all (loadfile room f).1 false
  have hsaved := (h.resolve_left hclean) write hdone
  rw [savefile_done hdone, Option.some.injEq] at hsaved
  have h0 : 0 ∉ f.contents := hsaved ▸ no_nul_unlines _
  rw [written_eq hb fun hm => h0 (List.mem_append_left _ hm)] at hsaved
  split_ifs at hsaved with hlast
  · have hrest : f.rest = [] := by simpa [File.contents] using hsaved
    refine ⟨h0, ?_, .inl hrest⟩
    rwa [← hsaved]
  · have hrest : f.rest = [NL] := by simpa [File.contents] using hsaved.symm
    exact ⟨h0, by simp [← hsaved], .inr ⟨hrest, hlast⟩⟩

/-- **Load and save.** For every file, in every state of the memory: what the load has taken is
written back or flagged, every save is read back as the same lines, and a failed one keeps
`modified`, exactly when the file does not fit or is a text of whole lines. -/
theorem load_save_iff (room : ℕ → Bool) (f : File) :
    (Preserves room f ∧ Reloads ∧ Refuses) ↔ (Beyond room f.reads.flatten ∨ f.Whole) := by
  by_cases hb : Holds room 0 (lines f.reads.flatten)
  · have hnot := holds_iff_not_beyond.mp hb
    exact ⟨fun h => .inr (whole_of_preserves hb h.1),
      fun h => ⟨preserves_of_whole (h.resolve_left hnot), reloads, refuses⟩⟩
  · have hbeyond := not_not.mp (mt holds_iff_not_beyond.mpr hb)
    exact ⟨fun _ => .inl hbeyond, fun _ => ⟨.inl (loadfile_dirty hb), reloads, refuses⟩⟩

/-- A NUL in a line: nothing is flagged, and the save loses what is behind it. -/
theorem nul_lost :
    ∃ f : File, f.contents = [97, 0, 98, NL] ∧ f.rest = [] ∧
      loadfile (fun _ => true) f = ([[97, 0, 98]], false) ∧ ¬ Preserves (fun _ => true) f := by
  refine ⟨⟨[[97, 0, 98, NL]], [], by simp⟩, rfl, rfl, by decide, fun h => ?_⟩
  rcases h with h | h
  · exact absurd h (by decide)
  · have hfile := h (fun _ => some 1) rfl
    exact absurd hfile (by decide)

end Coherent.Zedit
