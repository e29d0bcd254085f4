import Coherent.Lib.Words

/-!
The line editor: its commands `a`, `c`, `d` and `s`.

The editor reads characters and changes a buffer of lines. Of the addresses, numbers are taken,
and of the patterns those of plain characters. There is no result where the editor prints its
question mark, nor for what is not taken.
-/

namespace Coherent.Ed

open Coherent.Lib

def NUL : Char := Char.ofNat 0
def LNSIZE : ℕ := 2000
def LBSIZE : ℕ := 512
def CBSIZE : ℕ := 512
def SBSIZE : ℕ := 512
def CLSIZE : ℕ := 16
def ULARGE : ℕ := 65535

/-- What an `int` holds. -/
def int16 (x : ℤ) : ℤ := (x + 32768) % 65536 - 32768

/-- A string as it is read back. -/
def cstr (l : List Char) : List Char := l.takeWhile (· ≠ NUL)

/-- The lines, the number of the current one, and where the free space of the temp file is. -/
structure Buf where
  line : List (List Char)
  dotadd : ℕ
  tmpseek : ℕ
  deriving DecidableEq

/-! ### Lines -/

/-- The space that a line takes in the temp file. -/
def space (l : List Char) : ℕ := (l.length + 1 + (CLSIZE - 1)) / CLSIZE * CLSIZE

/-- The temp file holds another line. -/
def putline (e : Buf) (l : List Char) : Option Buf :=
  if e.tmpseek + space l ≤ ULARGE / 2 * CLSIZE then some { e with tmpseek := e.tmpseek + space l }
  else none

/-- The table of lines doubles as it fills, as long as its size is an `int`. -/
def expand (e : Buf) : Prop := e.line.length + 3 < 16 * LNSIZE

instance (e : Buf) : Decidable (expand e) := inferInstanceAs (Decidable (_ < _))

/-- A line behind the current one becomes the current one. -/
def insert (e : Buf) (l : List Char) : Option Buf :=
  (putline e l).bind fun e =>
    if expand e then
      some { e with
        line := e.line.take e.dotadd ++ cstr l :: e.line.drop e.dotadd
        dotadd := e.dotadd + 1 }
    else none

/-- Lines of the input are inserted, up to a dot or the end; the second argument is what the
buffer holds of a line. -/
def readtty (e : Buf) : List Char → List Char → Option (Buf × List Char)
  | lp, [] => if lp = [] then some (e, []) else (insert e lp).map (·, [])
  | lp, c :: p =>
    if c = '\n' then
      if lp = ['.'] then some (e, p)
      else
        match insert e lp with
        | some e => readtty e [] p
        | none => none
    else readtty e (if lp.length < LBSIZE - 1 then lp ++ [c] else lp) p

def append (e : Buf) (a : ℤ) (p : List Char) : Option (Buf × List Char) :=
  if a < 0 ∨ e.line.length < a then none else readtty { e with dotadd := a.toNat } [] p

def delete (e : Buf) (a1 a2 : ℤ) : Option Buf :=
  if a2 < a1 ∨ a1 < 1 ∨ e.line.length < a2 then none
  else
    let line := e.line.take (a1.toNat - 1) ++ e.line.drop a2.toNat
    some { e with
      line := line
      dotadd := if line.length < a1 then a1.toNat - 1 else a1.toNat }

/-! ### Substitution -/

/-- Plain characters, up to the one that ends them. -/
def plain (ec : Char) (bad : List Char) : List Char → Option (List Char × List Char)
  | [] => none
  | c :: p =>
    if c = ec then some ([], p)
    else if c = '\n' ∨ c ∈ bad then none
    else (plain ec bad p).map fun q => (c :: q.1, q.2)

/-- What is before the first match of a pattern, and what is behind it. -/
def search (pat : List Char) : List Char → Option (List Char × List Char)
  | [] => none
  | c :: l =>
    if pat.isPrefixOf (c :: l) then some ([], (c :: l).drop pat.length)
    else (search pat l).map fun q => (c :: q.1, q.2)

/-- The first match in the line at `a` is replaced, if the buffers hold the result. -/
def subs (e : Buf) (a : ℤ) (pat rep : List Char) : Option Buf :=
  if a < 1 ∨ e.line.length < a then none
  else
    (search pat (e.line.getD (a.toNat - 1) [])).bind fun (u, v) =>
      if u.length < LBSIZE - 1 ∧ (rep ≠ [] → u.length + rep.length ≤ LBSIZE - 4) ∧
          u.length + rep.length + v.length ≤ LBSIZE - 1 then
        (putline e (u ++ rep ++ v)).map fun e => { e with
          line := e.line.set (a.toNat - 1) (cstr (u ++ rep ++ v))
          dotadd := a.toNat }
      else none

/-- The rest of a command `s`, from the character that delimits the pattern. -/
def subst (e : Buf) (a : ℤ) : List Char → Option (Buf × List Char)
  | [] => none
  | ec :: p =>
    if ec = '\n' ∨ ec.isDigit then none
    else
      (plain ec ['*', '.', '$', '[', '\\'] p).bind fun (pat, p) =>
        (plain ec ['&', '\\'] p).bind fun (rep, p) =>
          if pat = [] ∨ pat.head? = some '^' ∨ CBSIZE < 2 * pat.length + 2 ∨
              SBSIZE < rep.length + 4 then none
          else
            match p with
            | '\n' :: p => (subs e a pat rep).map (·, p)
            | _ => none

/-! ### Commands -/

/-- The other characters that an address is made of. -/
def special (c : Char) : Bool := c ∈ ['.', '$', '&', Char.ofNat 39, '+', '^', '-', '?', '/']

/-- A number is an `int`. -/
def number (ds : List Char) : ℤ := ds.foldl (fun n c => int16 (n * 10 + (c.toNat - 48))) 0

/-- An address, or the current line, and whether there was an address. -/
def getaddr (e : Buf) (p : List Char) : Option (ℤ × Bool × List Char) :=
  let ds := p.takeWhile Char.isDigit
  let p := p.dropWhile Char.isDigit
  if p.head?.any special then none
  else some (if ds = [] then (e.dotadd : ℤ) else number ds, !ds.isEmpty, p)

/-- One or two addresses. -/
def range (e : Buf) (p : List Char) : Option (ℤ × ℤ × List Char) :=
  (getaddr e p).bind fun (a2, spec, p) =>
    if spec ∧ p.head? = some ',' then (getaddr e p.tail).map fun (a, _, p) => (a2, a, p)
    else some (a2, a2, p)

def command (e : Buf) (p : List Char) : Option (Buf × List Char) :=
  (range e p).bind fun (a1, a2, p) =>
    match p with
    | 'a' :: '\n' :: p => append e a2 p
    | 'c' :: '\n' :: p => (delete e a1 a2).bind fun e => append e (a1 - 1) p
    | 'd' :: '\n' :: p => (delete e a1 a2).map (·, p)
    | 's' :: p => if a1 = a2 then subst e a2 p else none
    | _ => none

/-- At most `n` commands of the input. -/
def run : ℕ → Buf → List Char → Option Buf
  | _, e, [] => some e
  | 0, _, _ :: _ => none
  | n + 1, e, c :: p => (command e (c :: p)).bind fun q => run n q.1 q.2

/-- All commands of the input. -/
def ed (e : Buf) (p : List Char) : Option Buf := run p.length e p

variable {e e' e'' : Buf} {p p' p'' l u v : List Char} {n m : ℕ} {c : Char}

/-! ### Executing -/

/-- Commands of the input take one buffer to another and leave the rest of the input. -/
def Executes (e : Buf) (p : List Char) (e' : Buf) (p' : List Char) : Prop :=
  ∃ n, n + p'.length ≤ p.length ∧ ∀ m, run (n + m) e p = run m e' p'

lemma Executes.refl (e : Buf) (p : List Char) : Executes e p e p :=
  ⟨0, by omega, fun m => by rw [Nat.zero_add]⟩

lemma Executes.trans (h : Executes e p e' p') (h' : Executes e' p' e'' p'') :
    Executes e p e'' p'' := by
  obtain ⟨n, h1, h2⟩ := h
  obtain ⟨m, h3, h4⟩ := h'
  refine ⟨n + m, by omega, fun k => ?_⟩
  rw [Nat.add_assoc, h2, h4]

lemma executes_command (h : command e p = some (e', p')) (hl : p'.length < p.length) :
    Executes e p e' p' := by
  refine ⟨1, by omega, fun m => ?_⟩
  cases p with
  | nil => simp at hl
  | cons c p => rw [Nat.add_comm, run, h, Option.bind_some]

lemma run_nil (n : ℕ) (e : Buf) : run n e [] = some e := by cases n <;> rfl

lemma Executes.ed (h : Executes e p e' []) : ed e p = some e' := by
  obtain ⟨n, h1, h2⟩ := h
  have := h2 (p.length - n)
  rw [run_nil, Nat.add_sub_cancel' (by simpa using h1)] at this
  exact this

/-! ### Reading lines -/

/-- A line that the editor can hold. -/
structure Line (l : List Char) : Prop where
  nul : NUL ∉ l
  newline : '\n' ∉ l
  short : l.length < LBSIZE - 1

lemma cstr_eq (h : NUL ∉ l) : cstr l = l := by
  refine List.takeWhile_eq_self_iff.mpr fun c hc => ?_
  simp only [ne_eq, decide_eq_true_eq]
  rintro rfl
  exact h hc

/-- The characters of a line are put into the buffer one by one. -/
lemma readtty_chars (hl : '\n' ∉ l) (hs : u.length + l.length ≤ LBSIZE - 1) :
    readtty e u (l ++ p) = readtty e (u ++ l) p := by
  induction l generalizing u with
  | nil => simp
  | cons c l ih =>
    have hc : c ≠ '\n' := fun h => hl (by simp [h])
    rw [List.length_cons] at hs
    rw [List.cons_append, readtty, if_neg hc, if_pos (by omega),
      ih (fun h => hl (by simp [h])) (by rw [List.length_append, List.length_singleton]; omega),
      List.append_assoc, List.singleton_append]

/-- The editor has room for a line. -/
def Room (e : Buf) (l : List Char) : Prop :=
  e.tmpseek + space l ≤ ULARGE / 2 * CLSIZE ∧ e.line.length + 3 < 16 * LNSIZE

/-- A buffer whose current line is the last of `x`, and `y` behind it. -/
def cursor (x y : List (List Char)) (t : ℕ) : Buf := ⟨x ++ y, x.length, t⟩

lemma insert_eq {x y : List (List Char)} {t : ℕ} (hl : NUL ∉ l) (hr : Room (cursor x y t) l) :
    insert (cursor x y t) l = some (cursor (x ++ [l]) y (t + space l)) := by
  obtain ⟨h1, h2⟩ := hr
  simp only [insert, putline, if_pos h1, Option.bind_some]
  refine (if_pos h2).trans ?_
  rw [cstr_eq hl]
  simp [cursor]

/-- A line that is no dot is inserted. -/
lemma readtty_line {x y : List (List Char)} {t : ℕ} (hl : Line l) (hd : l ≠ ['.'])
    (hr : Room (cursor x y t) l) :
    readtty (cursor x y t) [] (l ++ '\n' :: p) =
      readtty (cursor (x ++ [l]) y (t + space l)) [] p := by
  have hs := hl.short
  rw [readtty_chars hl.newline (by simp; omega), List.nil_append, readtty, if_pos rfl, if_neg hd,
    insert_eq hl.nul hr]

/-- A dot ends the lines. -/
lemma readtty_dot : readtty e [] ('.' :: '\n' :: p) = some (e, p) := by
  rw [readtty, if_neg (by decide), if_pos (by decide), readtty, if_pos rfl]
  rfl

/-! ### Addresses -/

/-- Digits that come to `n`, as an address. -/
structure Number (ds : List Char) (n : ℕ) : Prop where
  ne_nil : ds ≠ []
  digits : ∀ c ∈ ds, c.isDigit = true
  value : number ds = n

lemma getaddr_number {ds : List Char} (hd : Number ds n) (hc : c.isDigit = false)
    (hs : special c = false) : getaddr e (ds ++ c :: p) = some ((n : ℤ), true, c :: p) := by
  have h1 : (ds ++ c :: p).takeWhile Char.isDigit = ds := by
    rw [List.takeWhile_append_of_pos hd.digits, List.takeWhile_cons_of_neg (by simp [hc]),
      List.append_nil]
  have h2 : (ds ++ c :: p).dropWhile Char.isDigit = c :: p := by
    rw [List.dropWhile_append_of_pos hd.digits, List.dropWhile_cons_of_neg (by simp [hc])]
  unfold getaddr
  simp only [h1, h2]
  rw [if_neg (by simp [hs]), if_neg hd.ne_nil, hd.value]
  have := hd.ne_nil
  simp [this]

lemma getaddr_none (hc : c.isDigit = false) (hs : special c = false) :
    getaddr e (c :: p) = some ((e.dotadd : ℤ), false, c :: p) := by
  unfold getaddr
  rw [List.takeWhile_cons_of_neg (by simp [hc]), List.dropWhile_cons_of_neg (by simp [hc])]
  simp [hs]

lemma range_one {ds : List Char} (hd : Number ds n) (hc : c.isDigit = false)
    (hs : special c = false) (hcom : c ≠ ',') :
    range e (ds ++ c :: p) = some ((n : ℤ), (n : ℤ), c :: p) := by
  unfold range
  rw [getaddr_number hd hc hs, Option.bind_some]
  simp [hcom]

lemma range_two {ds ds' : List Char} (hd : Number ds n) (hd' : Number ds' m)
    (hc : c.isDigit = false) (hs : special c = false) :
    range e (ds ++ ',' :: (ds' ++ c :: p)) = some ((n : ℤ), (m : ℤ), c :: p) := by
  unfold range
  rw [getaddr_number hd (by decide) (by decide), Option.bind_some]
  simp [getaddr_number hd' hc hs]

lemma range_none (hc : c.isDigit = false) (hs : special c = false) :
    range e (c :: p) = some ((e.dotadd : ℤ), (e.dotadd : ℤ), c :: p) := by
  unfold range
  rw [getaddr_none hc hs, Option.bind_some]
  simp

/-! ### The commands -/

/-- Lines are appended behind those of `x`. -/
lemma command_append {x y : List (List Char)} {t d : ℕ} {ds : List Char} (hd : Number ds x.length) :
    command ⟨x ++ y, d, t⟩ (ds ++ 'a' :: '\n' :: p) = readtty (cursor x y t) [] p := by
  unfold command
  rw [range_one hd (by decide) (by decide) (by decide), Option.bind_some]
  simp only
  unfold append
  rw [if_neg (by simp)]
  rfl

/-- Lines are appended behind the current one. -/
lemma command_here {x y : List (List Char)} {t : ℕ} :
    command (cursor x y t) ('a' :: '\n' :: p) = readtty (cursor x y t) [] p := by
  unfold command
  rw [range_none (by decide) (by decide), Option.bind_some]
  simp only
  unfold append
  rw [if_neg (by simp [cursor])]
  rfl

lemma delete_eq {x z y : List (List Char)} {t d : ℕ} (hz : z ≠ []) :
    ∃ d', delete ⟨x ++ z ++ y, d, t⟩ (x.length + 1 : ℕ) (x.length + z.length : ℕ) =
      some ⟨x ++ y, d', t⟩ := by
  have hpos := List.length_pos_iff.mpr hz
  unfold delete
  rw [if_neg (by simp; omega)]
  simp only [Int.toNat_natCast, Nat.add_sub_cancel]
  have h1 : (x ++ z ++ y).take x.length = x := by simp
  have h2 : (x ++ z ++ y).drop (x.length + z.length) = y := by
    rw [← List.length_append, List.drop_left]
  rw [h1, h2]
  exact ⟨_, rfl⟩

/-- Lines in place of others. -/
lemma command_change {x z y : List (List Char)} {t d : ℕ} {q : List Char} (hz : z ≠ [])
    (hr : range ⟨x ++ z ++ y, d, t⟩ q =
      some (((x.length + 1 : ℕ) : ℤ), ((x.length + z.length : ℕ) : ℤ), 'c' :: '\n' :: p)) :
    command ⟨x ++ z ++ y, d, t⟩ q = readtty (cursor x y t) [] p := by
  obtain ⟨d', hd⟩ := delete_eq (x := x) (y := y) (t := t) (d := d) hz
  unfold command
  rw [hr, Option.bind_some]
  simp only [hd, Option.bind_some]
  unfold append
  rw [if_neg (by simp)]
  simp [cursor]

/-- Lines deleted. -/
lemma command_delete {a1 a2 : ℤ} {q : List Char} (hd : delete e a1 a2 = some e')
    (hr : range e q = some (a1, a2, 'd' :: '\n' :: p)) : command e q = some (e', p) := by
  unfold command
  rw [hr, Option.bind_some]
  simp only [hd, Option.map_some]

/-- The line that stands for a dot becomes one. -/
lemma command_tilde {x y : List (List Char)} {t : ℕ} (hr : t + space ['.'] ≤ ULARGE / 2 * CLSIZE) :
    command (cursor (x ++ [['~']]) y t) ('s' :: '/' :: '~' :: '/' :: '.' :: '/' :: '\n' :: p) =
      some (cursor (x ++ [['.']]) y (t + space ['.']), p) := by
  unfold command
  rw [range_none (by decide) (by decide), Option.bind_some]
  simp only [if_true]
  have hd : ((cursor (x ++ [['~']]) y t).dotadd : ℤ) = (x.length + 1 : ℕ) := by simp [cursor]
  have hs : subs (cursor (x ++ [['~']]) y t) (x.length + 1 : ℕ) ['~'] ['.'] =
      some (cursor (x ++ [['.']]) y (t + space ['.'])) := by
    unfold subs
    rw [if_neg (by simp [cursor])]
    have hl : (cursor (x ++ [['~']]) y t).line.getD (((x.length + 1 : ℕ) : ℤ).toNat - 1) [] =
        ['~'] := by
      rw [Int.toNat_natCast, Nat.add_sub_cancel]
      simp [cursor]
    rw [hl, show search ['~'] ['~'] = some ([], []) from rfl, Option.bind_some]
    simp only
    rw [if_pos (by decide)]
    simp only [putline, List.nil_append, List.append_nil]
    refine congrArg _ (if_pos hr) |>.trans ?_
    rw [Option.map_some, Int.toNat_natCast, Nat.add_sub_cancel, cstr_eq (by decide)]
    simp [cursor]
  rw [hd]
  have hp1 : plain '/' ['*', '.', '$', '[', '\\'] ('~' :: '/' :: '.' :: '/' :: '\n' :: p) =
    some (['~'], '.' :: '/' :: '\n' :: p) := rfl
  have hp2 : plain '/' ['&', '\\'] ('.' :: '/' :: '\n' :: p) = some (['.'], '\n' :: p) := rfl
  have hdelim : ¬ ('/' = '\n' ∨ Char.isDigit '/' = true) := by decide
  have hsize : ¬ (['~'] = [] ∨ ['~'].head? = some '^' ∨ CBSIZE < 2 * ['~'].length + 2 ∨
      SBSIZE < ['.'].length + 4) := by decide
  simp only [subst, if_neg hdelim, hp1, hp2, Option.bind_some, if_neg hsize, hs, Option.map_some]

/-! ### What the editor holds -/

/-- The limits of the editor: its table of lines, and the temp file that they are in. -/
structure Held (e : Buf) : Prop where
  table : e.line.length + 3 ≤ 16 * LNSIZE
  temp : (e.line.map space).sum ≤ e.tmpseek
  room : e.tmpseek ≤ ULARGE / 2 * CLSIZE

lemma space_cstr (l : List Char) : space (cstr l) ≤ space l := by
  have : (cstr l).length ≤ l.length := (List.takeWhile_prefix _).length_le
  unfold space
  gcongr

lemma sum_space (L : List (List Char)) (i : ℕ) :
    (L.map space).sum = ((L.take i).map space).sum + ((L.drop i).map space).sum := by
  rw [← List.sum_append, ← List.map_append, List.take_append_drop]

lemma putline_spec (hp : putline e l = some e') :
    e'.line = e.line ∧ e'.tmpseek = e.tmpseek + space l ∧ e'.tmpseek ≤ ULARGE / 2 * CLSIZE := by
  unfold putline at hp
  split_ifs at hp with hr
  obtain rfl := Option.some.inj hp
  exact ⟨rfl, rfl, hr⟩

lemma Held.insert (h : Held e) (hi : insert e l = some e') : Held e' := by
  unfold Ed.insert at hi
  obtain ⟨e1, h1, h2⟩ := Option.bind_eq_some_iff.mp hi
  obtain ⟨hl, ht, hr⟩ := putline_spec h1
  split_ifs at h2 with hx
  obtain rfl := Option.some.inj h2
  have htab : e1.line.length + 3 < 16 * LNSIZE := hx
  have hsum := sum_space e1.line e1.dotadd
  have hc := space_cstr l
  have htemp := h.temp
  refine ⟨?_, ?_, hr⟩
  · simp only [List.length_append, List.length_cons, List.length_take, List.length_drop]
    omega
  · rw [← hl] at htemp
    simp only [List.map_append, List.map_cons, List.sum_append, List.sum_cons]
    omega

lemma Held.readtty (h : Held e) (hr : readtty e u p = some (e', p')) : Held e' := by
  induction p generalizing e u with
  | nil =>
    rw [Ed.readtty] at hr
    split_ifs at hr
    · obtain ⟨rfl, -⟩ := Prod.mk.inj (Option.some.inj hr)
      exact h
    · obtain ⟨e1, h1, h2⟩ := Option.map_eq_some_iff.mp hr
      obtain ⟨rfl, -⟩ := Prod.mk.inj h2
      exact h.insert h1
  | cons c p ih =>
    rw [Ed.readtty] at hr
    split_ifs at hr
    · obtain ⟨rfl, -⟩ := Prod.mk.inj (Option.some.inj hr)
      exact h
    · cases hi : Ed.insert e u with
      | none => simp [hi] at hr
      | some e1 =>
        rw [hi] at hr
        exact ih (h.insert hi) hr
    · exact ih h hr
    · exact ih h hr

lemma Held.append {a : ℤ} (h : Held e) (ha : append e a p = some (e', p')) : Held e' := by
  unfold Ed.append at ha
  split_ifs at ha
  have h' : Held { e with dotadd := a.toNat } := ⟨h.table, h.temp, h.room⟩
  exact h'.readtty ha

lemma Held.delete {a1 a2 : ℤ} (h : Held e) (hd : delete e a1 a2 = some e') : Held e' := by
  unfold Ed.delete at hd
  split_ifs at hd with hr
  obtain rfl := Option.some.inj hd
  have h1 := h.table
  have h2 := h.temp
  have hsum := sum_space e.line (a1.toNat - 1)
  have hsum' := sum_space (e.line.drop (a1.toNat - 1)) (a2.toNat - (a1.toNat - 1))
  rw [List.drop_drop, show a1.toNat - 1 + (a2.toNat - (a1.toNat - 1)) = a2.toNat by omega] at hsum'
  refine ⟨?_, ?_, h.room⟩
  · simp only [List.length_append, List.length_take, List.length_drop]
    omega
  · simp only [List.map_append, List.sum_append]
    omega

lemma Held.subs {a : ℤ} {pat rep : List Char} (h : Held e) (hs : subs e a pat rep = some e') :
    Held e' := by
  unfold Ed.subs at hs
  split_ifs at hs with ha
  obtain ⟨⟨u, v⟩, -, h2⟩ := Option.bind_eq_some_iff.mp hs
  simp only at h2
  split_ifs at h2 with hr
  obtain ⟨e1, h3, rfl⟩ := Option.map_eq_some_iff.mp h2
  obtain ⟨hl, ht, hroom⟩ := putline_spec h3
  have h1 := h.table
  have h2 := h.temp
  have hc := space_cstr (u ++ rep ++ v)
  have hlt : a.toNat - 1 < e.line.length := by omega
  refine ⟨by simpa [hl] using h1, ?_, hroom⟩
  have hsum := sum_space e.line (a.toNat - 1)
  have hsum' := sum_space (e.line.drop (a.toNat - 1)) 1
  rw [List.drop_drop] at hsum'
  rw [hl, List.set_eq_take_append_cons_drop, if_pos hlt]
  simp only [List.map_append, List.map_cons, List.sum_append, List.sum_cons]
  omega

lemma Held.subst {a : ℤ} (h : Held e) (hs : subst e a p = some (e', p')) : Held e' := by
  unfold Ed.subst at hs
  split at hs
  · simp at hs
  · split_ifs at hs
    obtain ⟨⟨pat, q⟩, -, h1⟩ := Option.bind_eq_some_iff.mp hs
    obtain ⟨⟨rep, q'⟩, -, h2⟩ := Option.bind_eq_some_iff.mp h1
    simp only at h2
    split_ifs at h2
    split at h2
    · obtain ⟨e1, h3, h4⟩ := Option.map_eq_some_iff.mp h2
      obtain ⟨rfl, -⟩ := Prod.mk.inj h4
      exact h.subs h3
    · simp at h2

lemma Held.command (h : Held e) (hc : command e p = some (e', p')) : Held e' := by
  unfold Ed.command at hc
  obtain ⟨⟨a1, a2, q⟩, -, h1⟩ := Option.bind_eq_some_iff.mp hc
  simp only at h1
  split at h1
  · exact h.append h1
  · obtain ⟨e1, h2, h3⟩ := Option.bind_eq_some_iff.mp h1
    exact (h.delete h2).append h3
  · obtain ⟨e1, h2, h3⟩ := Option.map_eq_some_iff.mp h1
    obtain ⟨rfl, -⟩ := Prod.mk.inj h3
    exact h.delete h2
  · split_ifs at h1
    exact h.subst h1
  · simp at h1

lemma Held.run (h : Held e) (hr : run n e p = some e') : Held e' := by
  induction n generalizing e p with
  | zero =>
    cases p with
    | nil => exact Option.some.inj hr ▸ h
    | cons c p => simp [Ed.run] at hr
  | succ n ih =>
    cases p with
    | nil => exact Option.some.inj hr ▸ h
    | cons c p =>
      obtain ⟨q, h1, h2⟩ := Option.bind_eq_some_iff.mp hr
      exact ih (h.command h1) h2

/-- No script takes the editor beyond its limits. -/
theorem ed_held (h : Held e) (hr : ed e p = some e') : Held e' := h.run hr

end Coherent.Ed
