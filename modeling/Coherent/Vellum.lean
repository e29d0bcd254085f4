import Coherent.Lib.Words
import Mathlib.Tactic

/-!
The drawing files of Vellum: `velfile.c`, with the text pool of `velbase.c` and the tokenizer of
`vellib.c`.

A character string is the list of its characters before the NUL. The arrays are functions of
the index, and what they hold at the start is arbitrary. The numbers of a file are shorts. An
object that is being read sits in the first free place of the table and is counted when its
line is accepted.
-/

namespace Coherent.Vellum

open Lib

def MAXOBJ := 400
def NAMEL := 8
def VALL := 16
def NLAYER := 4
def PPOOL := 600
def PMAXPT := 20
def TPOOL := 2048
def TVMAX := 40
def UNAMEL := 8
/-- The size of the line buffers of `writefile` and `loadfile`. -/
def LBUF := 220

def NUL : Char := Char.ofNat 0
/-- The byte that marks a pooled value. -/
def MARK : Char := Char.ofNat 1

/-! ### The tokenizer -/

/-- A number in a 16-bit word. -/
def short (x : ℤ) : ℤ := (x + 32768) % 65536 - 32768

def isblank (c : Char) : Bool := c = ' ' || c = '\t'

def isnl (c : Char) : Bool := c = '\n'

def isdigit (c : Char) : Bool := '0' ≤ c && c ≤ '9'

/-- The next token, and the line behind it. -/
def tok (p : List Char) : Option (List Char × List Char) := Words.next isblank isnl p

/-- The loop of `atoi`, which counts down from zero. -/
def atoival (t : List Char) : ℤ :=
  (t.takeWhile isdigit).foldl (fun val c => short (val * 10 - ((c.toNat : ℤ) - 48))) 0

def atoi (t : List Char) : ℤ :=
  match t.dropWhile isblank with
  | [] => 0
  | c :: t =>
    if c = '-' then atoival t
    else if c = '+' then short (-atoival t)
    else short (-atoival (c :: t))

def pnum (p : List Char) : Option (ℤ × List Char) :=
  (tok p).map fun r => (atoi r.1, r.2)

def digit (d : ℕ) : Char := Char.ofNat (48 + d)

/-- `%d` of `printf`. -/
def dec (n : ℤ) : List Char :=
  (if n < 0 then ['-'] else []) ++ (Words.numeral 10 10 n.natAbs).map digit

/-- `" %s"` for each word. -/
def sp (ws : List (List Char)) : List Char := Words.spaced ' ' ws

/-! ### Symbols, objects and pools -/

/-- A symbol of the library: the code that files name it by, and its pins. -/
structure SYMDEF where
  sy_code : List Char
  sy_pins : List (ℤ × ℤ)
  word : Words.IsWord isblank isnl sy_code
  noNul : NUL ∉ sy_code
  short : sy_code.length < 8

def symbycode (lib : List SYMDEF) (c : List Char) : Option ℕ :=
  lib.findIdx? fun s => s.sy_code = c

inductive OT
  | SYM | WIRE | LINE | BOX | CIRC | TEXT | SHAPE | CONN | POLY | ARC | NNAME | DIM
  deriving DecidableEq

/-- The fields of an object other than its value. The shorts of `ON(o)` lie over the name in
the source, and no kind of object has both. -/
structure Head where
  o_type : OT
  o_sym : ℕ
  o_rot : ℕ
  o_mir : ℕ
  o_x : ℤ
  o_y : ℤ
  o_x2 : ℤ
  o_y2 : ℤ
  o_flags : ℕ
  o_layer : ℕ
  o_grp : ℕ
  o_name : List Char
  on0 : ℤ
  on1 : ℤ
  on2 : ℤ
  on3 : ℤ
  deriving DecidableEq

structure DOBJ extends Head where
  o_val : ℕ → Char

def ACOBJ (o : Head) (e : Bool) : ℤ := if e then o.on2 else o.on0

def ACPT (o : Head) (e : Bool) : ℤ := if e then o.on3 else o.on1

def setAC (o : Head) (e : Bool) (a k : ℤ) : Head :=
  if e then { o with on2 := a, on3 := k } else { o with on0 := a, on1 := k }

/-- The polyline points and the long texts. -/
structure Pools where
  ppool : ℕ → ℤ
  ppuse : ℕ
  tpool : ℕ → Char
  tpuse : ℕ

structure State where
  obj : List DOBJ
  /-- What the places of the table behind the objects hold. -/
  spare : ℕ → DOBJ
  pools : Pools
  unum : ℤ
  uname : List Char
  pgrem : ℤ
  pgid : ℕ

/-- Characters written to memory from place `a` on. -/
def poke (m : ℕ → Char) (a : ℕ) (s : List Char) : ℕ → Char := fun i =>
  if a ≤ i then (s[i - a]?).getD (m i) else m i

/-- The string at place `a`, no longer than `n`. -/
def cstr (m : ℕ → Char) (a n : ℕ) : List Char :=
  ((List.range n).map fun i => m (a + i)).takeWhile (· ≠ NUL)

def strcpy (m : ℕ → Char) (a : ℕ) (s : List Char) : ℕ → Char := poke m a (s ++ [NUL])

/-- The value of an object. What lies behind the pool is read as empty. -/
def oval (P : Pools) (o : DOBJ) : List Char :=
  if o.o_val 0 = MARK then
    let off := (o.o_val 2).toNat * 256 + (o.o_val 3).toNat
    cstr P.tpool off (TPOOL - off)
  else cstr o.o_val 0 VALL

/-- `tvfree` finds nothing to free: `initobj` has cleared the value. -/
def setoval (P : Pools) (o : DOBJ) (s : List Char) : Pools × DOBJ :=
  if s.length < VALL then (P, { o with o_val := strcpy o.o_val 0 s })
  else
    let n := min s.length (TVMAX - 1)
    if TPOOL < P.tpuse + n + 1 then
      (P, { o with o_val := strcpy o.o_val 0 (s.take (VALL - 1)) })
    else
      let off := [Char.ofNat (P.tpuse / 256), Char.ofNat (P.tpuse % 256)]
      ({ P with
          tpool := strcpy P.tpool P.tpuse (s.take n)
          tpuse := P.tpuse + n + 1 },
        { o with o_val := poke (poke o.o_val 0 [MARK]) 2 off })

/-! ### The writer -/

def shname : List (List Char) :=
  [['b', 'o', 'x'], ['r', 'b', 'o', 'x'], ['d', 'i', 'a', 'm', 'o', 'n', 'd'],
    ['o', 'v', 'a', 'l'], ['p', 'a', 'r'], ['d', 'r', 'u', 'm'], ['d', 'o', 'c'],
    ['c', 'i', 'r', 'c', 'l', 'e'], ['e', 'l', 'l', 'i', 'p', 's', 'e']]

def csname : List (List Char) :=
  [['h', 'v'], ['l', 'i', 'n', 'e'], ['a', 'r', 'r', 'o', 'w'],
    ['h', 'a', 'r', 'r', 'o', 'w']]

/-- What an object says when it is read: its fields, its value and its points. -/
structure Seen extends Head where
  val : List Char
  pts : List ℤ
  deriving DecidableEq

def seen (P : Pools) (o : DOBJ) : Seen where
  toHead := o.toHead
  val := if o.o_type = .SYM then cstr o.o_val 0 VALL else oval P o
  pts := if o.o_type = .POLY then
    (List.range (2 * o.o_sym)).map fun i => P.ppool (o.o_x2.toNat + i) else []

/-- `" /flags.layer"` -/
def attrcat (o : Head) : List Char :=
  if o.o_flags ≠ 0 ∨ o.o_layer ≠ 0 then
    sp [('/' :: dec (o.o_flags % 256 : ℕ)) ++ '.' :: dec o.o_layer]
  else []

/-- `s[0] ? s : "-"` -/
def dash (s : List Char) : List Char := if s = [] then ['-'] else s

/-- One end of a connector, in `ab[e]`. -/
def endtext (o : Head) (e : Bool) : List Char :=
  if 0 ≤ ACOBJ o e then
    '@' :: (dec (if e then o.o_x2 else o.o_x) ++ ',' :: dec (if e then o.o_y2 else o.o_y))
  else ['-']

def line4 (c : Char) (o : Head) : List Char :=
  (c :: sp [dec o.o_x, dec o.o_y, dec o.o_x2, dec o.o_y2]) ++ attrcat o

/-- The line of an object, `none` if the ends of a connector do not fit into `char ab[2][14]`.
A first end of 14 characters has no NUL of its own: that falls on `ab[1][0]`. -/
def fmtobj (lib : List SYMDEF) (o : Seen) : Option (List Char) :=
  match o.o_type with
  | .SYM => some (('Y' :: sp [((lib[o.o_sym]?).map SYMDEF.sy_code).getD [], dec o.o_x, dec o.o_y,
      dec o.o_rot, dec o.o_mir, dash o.o_name, dash o.val]) ++ attrcat o.toHead)
  | .WIRE => some (line4 'W' o.toHead)
  | .LINE => some (line4 'L' o.toHead)
  | .BOX => some (line4 'B' o.toHead)
  | .CIRC => some (line4 'C' o.toHead)
  | .TEXT => some (('T' :: sp [dec o.o_x, dec o.o_y, 's' :: dec o.o_rot]) ++ attrcat o.toHead
      ++ ' ' :: o.val)
  | .SHAPE => some (('S' :: sp [(shname[o.o_sym]?).getD [], dec o.o_x, dec o.o_y, dec o.o_x2,
      dec o.o_y2]) ++ attrcat o.toHead ++ if o.val = [] then [] else ' ' :: o.val)
  | .CONN =>
    let ab0 := endtext o.toHead false
    let ab1 := endtext o.toHead true
    if 14 < ab1.length + 1 then none
    else some (('K' :: sp [(csname[o.o_sym]?).getD [], dec o.o_x, dec o.o_y, dec o.o_x2,
      dec o.o_y2, if ab0.length < 14 then ab0 else ab0 ++ ab1, ab1]) ++ attrcat o.toHead)
  | .POLY => some (('P' :: sp (dec o.o_sym :: o.pts.map dec)) ++ attrcat o.toHead)
  | .ARC => some (('A' :: sp [dec o.o_x, dec o.o_y, dec o.o_x2, dec o.on0, dec o.on1])
      ++ attrcat o.toHead)
  | .NNAME => some ('N' :: sp [dec o.o_x, dec o.o_y, o.o_name])
  | .DIM => some (line4 'D' o.toHead ++ if o.val = [] then [] else ' ' :: o.val)

/-- `"G n"`, at the first object of a group. -/
def grphead (prev : Option ℕ) (os : List DOBJ) : List Char :=
  match os with
  | [] => []
  | o :: _ =>
    if o.o_grp ≠ 0 ∧ prev ≠ some o.o_grp then
      ('G' :: sp [dec (os.takeWhile (·.o_grp = o.o_grp)).length]) ++ ['\n']
    else []

/-- The objects from one on, `prev` the group of the object before. -/
def writeobjs (lib : List SYMDEF) (P : Pools) : Option ℕ → List DOBJ → Option (List Char)
  | _, [] => some []
  | prev, o :: os => do
    let lb ← fmtobj lib (seen P o)
    let rest ← writeobjs lib P (some o.o_grp) os
    return grphead prev (o :: os) ++ ((if lb = [] then [] else lb ++ ['\n']) ++ rest)

/-- The sheet units header. -/
def unithead (s : State) : List Char :=
  if s.unum ≠ 1 ∨ s.uname ≠ [] then ('U' :: sp [dec s.unum, dash s.uname]) ++ ['\n'] else []

def writefile (lib : List SYMDEF) (s : State) : Option (List Char) := do
  let body ← writeobjs lib s.pools none s.obj
  return ['v', 'e', 'l', 'l', 'u', 'm', '1', '\n'] ++ (unithead s ++ body)

/-! ### The line parsers -/

/-- First unused group id, zero if there is none. -/
def newgid (gs : List ℕ) : ℕ :=
  ((List.range' 1 127).find? fun g => decide (∀ i ∈ gs, i % 128 ≠ g)).getD 0

def parseattr (t : List Char) (o : Head) : Head :=
  match t with
  | [] => o
  | c :: q =>
    if c = '/' then
      match q.dropWhile (· ≠ '.') with
      | [] => { o with o_flags := (atoi q % 256).toNat }
      | _ :: r => { o with
          o_flags := (atoi q % 256).toNat
          o_layer := (atoi r % NLAYER).toNat }
    else o

/-- `if ( (t = tok(pp)) != 0 ) parseattr(t, o);` -/
def lastattr (o : Head) (p : List Char) : Head :=
  match tok p with
  | none => o
  | some (t, _) => parseattr t o

/-- Does a line begin with an option? -/
def isopt (wantsz : Bool) (p : List Char) : Bool :=
  (p.getD 0 NUL = '/' && isdigit (p.getD 1 NUL)) ||
    (wantsz && p.getD 0 NUL = 's' && '0' ≤ p.getD 1 NUL && p.getD 1 NUL ≤ '2' &&
      (isblank (p.getD 2 NUL) || isnl (p.getD 2 NUL) || p.getD 2 NUL = NUL))

def opttok (wantsz : Bool) (p : List Char) : Option (List Char × List Char) :=
  if isopt wantsz (p.dropWhile isblank) then tok (p.dropWhile isblank) else none

lemma opttok_length {wantsz : Bool} {p t r : List Char} (h : opttok wantsz p = some (t, r)) :
    r.length < p.length := by
  unfold opttok at h
  split at h
  · exact (Words.next_length h).trans_le (List.dropWhile_suffix _).length_le
  · cases h

def setopt (t : List Char) (o : Head) : Head :=
  if t.getD 0 NUL = 's' then { o with o_rot := (t.getD 1 NUL).toNat - 48 } else parseattr t o

/-- The options of an object, and the line behind them. -/
def opts (wantsz : Bool) (o : Head) (p : List Char) : Head × List Char :=
  match _h : opttok wantsz p with
  | none => (o, p)
  | some (t, r) => opts wantsz (setopt t o) r
termination_by p.length
decreasing_by exact opttok_length ‹_›

def resttext (p : List Char) (n : ℕ) : List Char :=
  ((p.dropWhile isblank).takeWhile (· ≠ '\n')).take (n - 1)

/-- The four coordinates of a line. -/
def p4 (o : Head) (p : List Char) : Option (Head × List Char) := do
  let (x, p) ← pnum p
  let (y, p) ← pnum p
  let (x2, p) ← pnum p
  let (y2, p) ← pnum p
  return ({ o with
      o_x := x
      o_y := y
      o_x2 := x2
      o_y2 := y2 }, p)

/-- A token that may be missing or `"-"`, and the line behind it. -/
def fieldtok (p : List Char) : List Char × List Char :=
  match tok p with
  | none => ([], p)
  | some (t, p) => (if t = ['-'] then [] else t, p)

def p_sym (lib : List SYMDEF) (o : DOBJ) (p : List Char) : Option DOBJ := do
  let (t, p) ← tok p
  let si ← symbycode lib t
  let (x, p) ← pnum p
  let (y, p) ← pnum p
  let (rot, p) ← pnum p
  let (mir, p) ← pnum p
  let (name, p) := fieldtok p
  let (val, p) := fieldtok p
  let h : Head := { o.toHead with
    o_type := .SYM
    o_sym := si
    o_x := x
    o_y := y
    o_rot := (rot % 4).toNat
    o_mir := (mir % 2).toNat
    o_name := name.take (NAMEL - 1) }
  return ⟨lastattr h p, if val = [] then o.o_val else strcpy o.o_val 0 (val.take (VALL - 1))⟩

/-- Up to the call of `setoval`: the fields and the text. -/
def p_text (o : Head) (p : List Char) : Option (Head × List Char) := do
  let (x, p) ← pnum p
  let (y, p) ← pnum p
  let (h, p) := opts true { o with
    o_type := .TEXT
    o_rot := 2
    o_x := x
    o_y := y } p
  let tb := resttext p TVMAX
  if tb = [] then none else some (h, tb)

/-- The options and the text that end a line of a shape or a dimension. -/
def opttext (h : Head) (p : List Char) : Head × List Char :=
  let (h, p) := opts false h p
  (h, resttext p TVMAX)

def p_shape (o : Head) (p : List Char) : Option (Head × List Char) := do
  let (t, p) ← tok p
  let si ← shname.findIdx? (· = t)
  let (h, p) ← p4 { o with
    o_type := .SHAPE
    o_sym := si } p
  return opttext h p

/-- The attachment of an end: `-2` is resolved after the load. -/
def attached (t : List Char) : ℤ := if t.getD 0 NUL = '@' then -2 else -1

def p_conn (o : Head) (p : List Char) : Option Head := do
  let (t, p) ← tok p
  let si ← csname.findIdx? (· = t)
  let (h, p) ← p4 { o with
    o_type := .CONN
    o_sym := si } p
  let h := { h with
    on0 := -1
    on2 := -1 }
  match tok p with
  | none => return h
  | some (t, p) =>
    let h := { h with on0 := attached t }
    match tok p with
    | none => return h
    | some (t, p) => return lastattr { h with on2 := attached t } p

/-- `n` numbers, into the pool from place `i` on. -/
def readpts : ℕ → ℕ → (ℕ → ℤ) → List Char → (ℕ → ℤ) × Option (List Char)
  | _, 0, m, p => (m, some p)
  | i, n + 1, m, p =>
    match pnum p with
    | none => (m, none)
    | some (x, p) => readpts (i + 1) n (Function.update m i x) p

def p_poly (P : Pools) (o : Head) (p : List Char) : Pools × Option Head :=
  match tok p with
  | none => (P, none)
  | some (t, p) =>
    let np := atoi t
    if np < 2 ∨ PMAXPT < np ∨ PPOOL < P.ppuse + 2 * np then (P, none)
    else
      match readpts P.ppuse (2 * np.toNat) P.ppool p with
      | (m, none) => ({ P with ppool := m }, none)
      | (m, some p) =>
        ({ P with
            ppool := m
            ppuse := P.ppuse + 2 * np.toNat },
          some (lastattr { o with
            o_type := .POLY
            o_sym := np.toNat
            o_x2 := P.ppuse
            o_x := m P.ppuse
            o_y := m (P.ppuse + 1) } p))

def p_arc (o : Head) (p : List Char) : Option Head := do
  let (x, p) ← pnum p
  let (y, p) ← pnum p
  let (r, p) ← pnum p
  let (a0, p) ← pnum p
  let (a1, p) ← pnum p
  return lastattr { o with
    o_type := .ARC
    o_x := x
    o_y := y
    o_x2 := r
    on0 := a0
    on1 := a1 } p

def p_dim (o : Head) (p : List Char) : Option (Head × List Char) := do
  let (h, p) ← p4 { o with o_type := .DIM } p
  return opttext h p

def p_nname (o : Head) (p : List Char) : Option Head := do
  let (x, p) ← pnum p
  let (y, p) ← pnum p
  let (t, _) ← tok p
  return { o with
    o_type := .NNAME
    o_x := x
    o_y := y
    o_name := t.take (NAMEL - 1) }

def fixtype (c : Char) : OT :=
  if c = 'W' then .WIRE else if c = 'L' then .LINE else if c = 'B' then .BOX else .CIRC

/-- `p_fix`: net names, and the objects that are two points. -/
def p_fix (c : Char) (o : Head) (p : List Char) : Option Head :=
  if c = 'N' then p_nname o p
  else do
    let (h, p) ← p4 { o with o_type := fixtype c } p
    return lastattr h p

/-- An object without its value, put into the place of the table. -/
def plain (P : Pools) (o : DOBJ) (h : Option Head) : Pools × Option DOBJ :=
  (P, h.map fun h => ⟨h, o.o_val⟩)

/-- `setoval(o, tb)` -/
def pooled (P : Pools) (o : DOBJ) (r : Option (Head × List Char)) : Pools × Option DOBJ :=
  match r with
  | none => (P, none)
  | some (h, tb) => ((setoval P ⟨h, o.o_val⟩ tb).1, some (setoval P ⟨h, o.o_val⟩ tb).2)

def pdisp (lib : List SYMDEF) (c : Char) (P : Pools) (o : DOBJ) (p : List Char) :
    Pools × Option DOBJ :=
  if c = 'Y' then (P, p_sym lib o p)
  else if c = 'T' then pooled P o (p_text o.toHead p)
  else if c = 'S' then pooled P o (p_shape o.toHead p)
  else if c = 'K' then plain P o (p_conn o.toHead p)
  else if c = 'P' then
    let (P, h) := p_poly P o.toHead p
    plain P o h
  else if c = 'A' then plain P o (p_arc o.toHead p)
  else if c = 'D' then pooled P o (p_dim o.toHead p)
  else if c = 'W' ∨ c = 'L' ∨ c = 'B' ∨ c = 'C' ∨ c = 'N' then plain P o (p_fix c o.toHead p)
  else (P, none)

def initobj (o : DOBJ) : DOBJ where
  toHead := { o.toHead with
    o_sym := 0
    o_rot := 0
    o_mir := 0
    o_x2 := 0
    o_y2 := 0
    o_flags := 0
    o_layer := 0
    o_grp := 0
    o_name := []
    on0 := 0
    on1 := 0
    on2 := 0
    on3 := 0 }
  o_val := poke o.o_val 0 [NUL]

/-- `"G n"`: the next `n` objects are a group. -/
def parsegroup (s : State) (p : List Char) : State :=
  match tok p with
  | none => s
  | some (t, _) =>
    if 0 < atoi t then { s with
      pgrem := atoi t
      pgid := newgid (s.obj.map (·.o_grp)) }
    else s

/-- The sheet units. -/
def parseunits (s : State) (p : List Char) : State :=
  match tok p with
  | none => s
  | some (t, p) =>
    let s := if 0 < atoi t then { s with unum := atoi t } else s
    match tok p with
    | none => s
    | some (t, _) => if t = ['-'] then s else { s with uname := t.take (UNAMEL - 1) }

/-- An object line. -/
def addline (lib : List SYMDEF) (s : State) (c : Char) (p : List Char) : State :=
  match pdisp lib c s.pools (initobj (s.spare s.obj.length)) p with
  | (P, none) => { s with pools := P }
  | (P, some o) =>
    if 0 < s.pgrem then { s with
      pools := P
      obj := s.obj ++ [{ o with o_grp := s.pgid }]
      pgrem := s.pgrem - 1 }
    else { s with
      pools := P
      obj := s.obj ++ [o] }

/-- One line, as the list of its characters. -/
def parseobj (lib : List SYMDEF) (s : State) (lb : List Char) : State :=
  match tok lb with
  | none => s
  | some (t, p) =>
    let c := t.getD 0 NUL
    if c = '#' ∨ c = 'v' ∨ c = 'z' then s
    else if t = ['G'] then parsegroup s p
    else if t = ['U'] then parseunits s p
    else if MAXOBJ ≤ s.obj.length ∨ t.length ≠ 1 then s
    else addline lib s c p

/-! ### The attachments -/

def natt (lib : List SYMDEF) (o : Head) : ℕ :=
  if o.o_type = .SHAPE then 8
  else if o.o_type = .SYM then ((lib[o.o_sym]?).map (·.sy_pins.length)).getD 0
  else 0

/-- `txq` at the origin. -/
def txq (x y : ℤ) (rot mir : ℕ) : ℤ × ℤ :=
  let x := if mir ≠ 0 then short (-x) else x
  match rot % 4 with
  | 1 => (short (-y), x)
  | 2 => (short (-x), short (-y))
  | 3 => (y, short (-x))
  | _ => (x, y)

def attpos (lib : List SYMDEF) (o : Head) (k : ℕ) : ℤ × ℤ :=
  if o.o_type = .SHAPE then
    let x0 := min o.o_x o.o_x2
    let x1 := max o.o_x o.o_x2
    let y0 := min o.o_y o.o_y2
    let y1 := max o.o_y o.o_y2
    let xm := (short (x0 + x1)).tdiv 2
    let ym := (short (y0 + y1)).tdiv 2
    match k with
    | 0 => (xm, y0)
    | 1 => (x1, ym)
    | 2 => (xm, y1)
    | 3 => (x0, ym)
    | 4 => (x0, y0)
    | 5 => (x1, y0)
    | 6 => (x1, y1)
    | _ => (x0, y1)
  else
    let pin := (((lib[o.o_sym]?).map (·.sy_pins)).getD [])[k]?.getD (0, 0)
    let q := txq pin.1 pin.2 o.o_rot o.o_mir
    (short (o.o_x + q.1.tdiv 4), short (o.o_y + q.2.tdiv 4))

/-- What the loops of `resolveatt` carry: the best distance and the attachment found. -/
structure Best where
  best : ℤ
  acobj : ℤ
  acpt : ℤ

/-- Point `k` of object `i`, against the end at `(tx, ty)`. -/
def tryatt (lib : List SYMDEF) (tx ty : ℤ) (i : ℕ) (o : Head) (b : Best) (k : ℕ) : Best :=
  let g := attpos lib o k
  let dx := if short (g.1 - tx) < 0 then short (-short (g.1 - tx)) else short (g.1 - tx)
  let dy := if short (g.2 - ty) < 0 then short (-short (g.2 - ty)) else short (g.2 - ty)
  if 1 < dx ∨ 1 < dy then b
  else if short (dx + dy) < b.best then ⟨short (dx + dy), i, k⟩
  else b

def resolveatt (lib : List SYMDEF) (hs : List Head) (ci : ℕ) (e : Bool) (o : Head) : Head :=
  let tx := if e then o.o_x2 else o.o_x
  let ty := if e then o.o_y2 else o.o_y
  let b := hs.zipIdx.foldl (fun b x =>
    if x.2 = ci then b
    else (List.range (natt lib x.1)).foldl (tryatt lib tx ty x.2 x.1) b) ⟨999, -1, ACPT o e⟩
  setAC o e b.acobj b.acpt

/-- One end of object `i`, if it is to be resolved. -/
def resolveend (lib : List SYMDEF) (i : ℕ) (obj : List DOBJ) (e : Bool) : List DOBJ :=
  match obj[i]? with
  | none => obj
  | some o =>
    if o.o_type = .CONN ∧ ACOBJ o.toHead e = -2 then
      obj.set i { o with toHead := resolveatt lib (obj.map (·.toHead)) i e o.toHead }
    else obj

/-- Re-resolve the attachments. -/
def resolveall (lib : List SYMDEF) (obj : List DOBJ) : List DOBJ :=
  (List.range obj.length).foldl
    (fun obj i => [false, true].foldl (resolveend lib i) obj) obj

/-! ### The reader -/

/-- What successive calls of `fgets` return: up to and with the newline, but no more than
`room` characters. -/
def chunks : ℕ → List Char → List Char → List (List Char)
  | _, cur, [] => if cur = [] then [] else [cur]
  | room, cur, c :: cs =>
    if c = '\n' ∨ room ≤ 1 then (cur ++ [c]) :: chunks (LBUF - 1) [] cs
    else chunks (room - 1) (cur ++ [c]) cs

/-- The strings the reads leave in the buffer. -/
def lines (file : List Char) : List (List Char) :=
  (chunks (LBUF - 1) [] file).map (·.takeWhile (· ≠ NUL))

/-- The state in which `loadfile` begins to read. -/
def loadstart (s : State) : State where
  obj := []
  spare := fun i => (s.obj[i]?).getD (s.spare i)
  pools := { s.pools with
    ppuse := 0
    tpuse := 0 }
  unum := 1
  uname := []
  pgrem := 0
  pgid := 0

def loadline (lib : List SYMDEF) (s : State) (lb : List Char) : State :=
  if s.obj.length < MAXOBJ then parseobj lib s lb else s

def loadlines (lib : List SYMDEF) (s : State) (ls : List (List Char)) : State :=
  ls.foldl (loadline lib) s

def loadfile (lib : List SYMDEF) (s : State) (file : List Char) : State :=
  let s := loadlines lib (loadstart s) (lines file)
  { s with obj := resolveall lib s.obj }

end Coherent.Vellum
