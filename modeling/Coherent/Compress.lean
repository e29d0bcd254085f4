import Mathlib.Tactic

/-!
`compress` and `uncompress`: adaptive Lempel-Ziv coding of a file.

A string that has been seen has a code, and codes are written with as many bits as they need at the
moment, eight of them to a group of bytes. The tables lie where they are written: that parts of them
may be in a scratch file (`virtual`) does not show. A `long` has 32 bits where it is counted up
without end; codes are as long as the program itself makes them, up to 15 bits.
-/

namespace Coherent.Compress

def BITS : ℕ := 16

def INIT_BITS : ℕ := 9

def BIT_MASK : ℕ := 31

def BLOCK_MASK : ℕ := 128

def CHECK_GAP : ℤ := 10000

/-- first free entry -/
def FIRST : ℕ := 257

/-- table clear output code -/
def CLEAR : ℕ := 256

def HSIZE : ℕ := 69001

def HSIZE12 : ℕ := 5003

def STACK : ℕ := 8192

def MAXCODE (n_bits : ℕ) : ℕ := 2 ^ n_bits - 1

def magic_header : List ℕ := [31, 157]

def lmask : List ℕ := [255, 254, 252, 248, 240, 224, 192, 128, 0]

def rmask : List ℕ := [0, 1, 3, 7, 15, 31, 63, 127, 255]

/-- What a `long` keeps of a number. -/
def long (x : ℤ) : ℤ := x.bmod (2 ^ 32)

/-- What a file is compressed with. -/
structure Params where
  maxbits : ℕ
  block_compress : Bool
  hsize : ℕ
  deriving DecidableEq

def Params.maxmaxcode (p : Params) : ℕ := 2 ^ p.maxbits

/-- The size of the hash table for a file of this size. -/
def tune (maxbits fsize : ℕ) : ℕ :=
  if 12 ≥ maxbits ∨ fsize < 2 ^ 12 then min 5003 HSIZE
  else if 13 = maxbits ∨ fsize < 2 ^ 13 then min 9001 HSIZE
  else if 14 = maxbits ∨ fsize < 2 ^ 14 then min 18013 HSIZE
  else if 15 = maxbits ∨ fsize < 2 ^ 15 then min 35023 HSIZE
  else if fsize < 47000 then min 50021 HSIZE
  else HSIZE

/-- The size of the hash table for the standard input. -/
def hsizeStdin (maxbits : ℕ) : ℕ := if 12 ≥ maxbits then HSIZE12 else HSIZE

/-- The doublings in the loop for `hshift`, at most so many. -/
def doublings : ℕ → ℕ → ℕ
  | 0, _ => 0
  | n + 1, fcode => if fcode < 65536 then doublings n (fcode * 2) + 1 else 0

/-- `hshift` -/
def Params.hshift (p : Params) : ℕ := 8 - doublings 16 p.hsize

/-! ### Codes in bytes -/

/-- The bytes that a code is put into, from bit `offset` on. -/
def put (buf : ℕ → ℕ) (offset n_bits code : ℕ) : ℕ → ℕ :=
  let bp := offset / 8
  let r_off := offset % 8
  let buf := Function.update buf bp
    ((buf bp &&& rmask.getD r_off 0) ||| ((code <<< r_off) &&& lmask.getD r_off 0))
  let bits := n_bits - (8 - r_off)
  let code := code >>> (8 - r_off)
  if bits ≥ 8 then
    let buf := Function.update buf (bp + 1) (code % 256)
    if bits - 8 ≠ 0 then Function.update buf (bp + 2) ((code >>> 8) % 256) else buf
  else if bits ≠ 0 then Function.update buf (bp + 1) (code % 256)
  else buf

/-- The code that lies from bit `offset` on. -/
def get (buf : ℕ → ℕ) (offset n_bits : ℕ) : ℕ :=
  let bp := offset / 8
  let r_off := offset % 8
  let code := buf bp >>> r_off
  let bits := n_bits - (8 - r_off)
  let r_off := 8 - r_off
  if bits ≥ 8 then
    code ||| (buf (bp + 1) <<< r_off) |||
      ((buf (bp + 2) &&& rmask.getD (bits - 8) 0) <<< (r_off + 8))
  else code ||| ((buf (bp + 1) &&& rmask.getD bits 0) <<< r_off)

/-- The first bytes of a buffer. -/
def bytes (buf : ℕ → ℕ) (n : ℕ) : List ℕ := (List.range n).map buf

/-! ### `compress` -/

structure Enc where
  n_bits : ℕ
  maxcode : ℕ
  /-- first unused entry -/
  free_ent : ℕ
  clear_flg : Bool
  offset : ℕ
  buf : ℕ → ℕ
  bytes_out : ℤ
  in_count : ℤ
  ratio : ℤ
  checkpoint : ℤ
  htab : ℕ → ℤ
  codetab : ℕ → ℕ
  ent : ℕ
  out : List ℕ

/-- `n_bits` and `maxcode` for the next longer codes. -/
def widen (p : Params) (n_bits : ℕ) : ℕ × ℕ :=
  (n_bits + 1, if n_bits + 1 = p.maxbits then p.maxmaxcode else MAXCODE (n_bits + 1))

/-- The whole buffer is written. -/
def Enc.write (s : Enc) : Enc :=
  { s with
    out := s.out ++ bytes s.buf s.n_bits
    bytes_out := long (s.bytes_out + s.n_bits)
    offset := 0 }

/-- `output`, where there is a code. -/
def output (p : Params) (s : Enc) (code : ℕ) : Enc :=
  let s := { s with
    buf := put s.buf s.offset s.n_bits code
    offset := s.offset + s.n_bits }
  let s := if s.offset = s.n_bits <<< 3 then s.write else s
  if s.free_ent > s.maxcode ∨ s.clear_flg then
    let s := if s.offset > 0 then s.write else s
    if s.clear_flg then
      { s with n_bits := INIT_BITS, maxcode := MAXCODE INIT_BITS, clear_flg := false }
    else { s with n_bits := (widen p s.n_bits).1, maxcode := (widen p s.n_bits).2 }
  else s

/-- `output` at the end of the file. -/
def outputEof (s : Enc) : Enc :=
  { s with
    out := if s.offset > 0 then s.out ++ bytes s.buf ((s.offset + 7) / 8) else s.out
    bytes_out := long (s.bytes_out + ((s.offset + 7) / 8 : ℕ))
    offset := 0 }

/-- `cl_hash`: the first entries are empty. -/
def cl_hash (hsize : ℕ) (htab : ℕ → ℤ) : ℕ → ℤ := fun i => if i < hsize then -1 else htab i

/-- The compression so far, with 8 fractional bits. -/
def rat (in_count bytes_out : ℤ) : ℤ :=
  if in_count > 0x007fffff then
    let rat := bytes_out >>> (8 : ℕ)
    if rat = 0 then 0x7fffffff else in_count.tdiv rat
  else (in_count * 256).tdiv bytes_out

/-- `cl_block`: the table is cleared when the compression gets worse. -/
def cl_block (p : Params) (s : Enc) : Enc :=
  let s := { s with checkpoint := long (s.in_count + CHECK_GAP) }
  let rat := rat s.in_count s.bytes_out
  if rat > s.ratio then { s with ratio := rat }
  else
    output p { s with
      ratio := 0
      htab := cl_hash p.hsize s.htab
      free_ent := FIRST
      clear_flg := true } CLEAR

/-- The secondary probes, so many at most: the entry that is found or is empty, and which. -/
def probe (hsize : ℕ) (htab : ℕ → ℤ) (fcode : ℤ) (disp : ℕ) : ℕ → ℕ → Option (ℕ × Bool)
  | 0, _ => none
  | n + 1, i =>
    let i := if i < disp then i + hsize - disp else i - disp
    if htab i = fcode then some (i, true)
    else if htab i > 0 then probe hsize htab fcode disp n i
    else some (i, false)

/-- The entry for a string and a character. -/
def lookup (p : Params) (htab : ℕ → ℤ) (fcode : ℤ) (i : ℕ) : Option (ℕ × Bool) :=
  if htab i = fcode then some (i, true)
  else if htab i < 0 then some (i, false)
  else probe p.hsize htab fcode (if i = 0 then 1 else p.hsize - i) p.hsize i

/-- A string that has no code ends before this character. -/
def noMatch (p : Params) (s : Enc) (fcode : ℤ) (i c : ℕ) : Enc :=
  let s := { output p s s.ent with ent := c }
  if s.free_ent < p.maxmaxcode then
    { s with
      codetab := Function.update s.codetab i s.free_ent
      free_ent := s.free_ent + 1
      htab := Function.update s.htab i fcode }
  else if s.in_count ≥ s.checkpoint ∧ p.block_compress then cl_block p s
  else s

/-- A turn of the loop of `compress`. -/
def encode (p : Params) (s : Enc) (c : ℕ) : Option Enc :=
  let s := { s with in_count := long (s.in_count + 1) }
  let fcode : ℤ := ((c <<< p.maxbits + s.ent : ℕ) : ℤ)
  match lookup p s.htab fcode ((c <<< p.hshift) ^^^ s.ent) with
  | none => none
  | some (i, true) => some { s with ent := s.codetab i }
  | some (i, false) => some (noMatch p s fcode i c)

def encloop (p : Params) : Enc → List ℕ → Option Enc
  | s, [] => some s
  | s, c :: text => (encode p s c).bind fun s => encloop p s text

def header (p : Params) : List ℕ :=
  magic_header ++ [p.maxbits ||| if p.block_compress then BLOCK_MASK else 0]

/-- What is set before the first character is read, over what is in the memory. -/
def begin (p : Params) (buf codetab : ℕ → ℕ) (htab : ℕ → ℤ) : Enc where
  n_bits := INIT_BITS
  maxcode := MAXCODE INIT_BITS
  free_ent := if p.block_compress then FIRST else 256
  clear_flg := false
  offset := 0
  buf := buf
  bytes_out := 3
  in_count := 1
  ratio := 0
  checkpoint := CHECK_GAP
  htab := cl_hash p.hsize htab
  codetab := codetab
  ent := 0
  out := header p

/-- `compress`: the file that is written. -/
def compress (p : Params) (buf codetab : ℕ → ℕ) (htab : ℕ → ℤ) (text : List ℕ) :
    Option (List ℕ) :=
  let s := begin p buf codetab htab
  match text with
  | [] => some (outputEof s).out
  | ent :: text =>
    (encloop p { s with ent := ent } text).map fun s => (outputEof (output p s s.ent)).out

/-! ### `decompress` -/

structure Dec where
  n_bits : ℕ
  maxcode : ℕ
  free_ent : ℕ
  clear_flg : Bool
  offset : ℕ
  size : ℤ
  buf : ℕ → ℕ
  stdin : List ℕ
  tab_prefix : ℕ → ℕ
  tab_suffix : ℕ → ℕ
  finchar : ℕ
  oldcode : ℕ
  out : List ℕ

/-- The bytes of a list over what is in the buffer. -/
def overlay (buf : ℕ → ℕ) (l : List ℕ) : ℕ → ℕ := fun i => l.getD i (buf i)

/-- `getcode`; there is none at the end of the file. -/
def getcode (p : Params) (d : Dec) : Option ℕ × Dec :=
  if d.clear_flg ∨ (d.offset : ℤ) ≥ d.size ∨ d.free_ent > d.maxcode then
    let d := if d.free_ent > d.maxcode then
      { d with n_bits := (widen p d.n_bits).1, maxcode := (widen p d.n_bits).2 } else d
    let d := if d.clear_flg then
      { d with n_bits := INIT_BITS, maxcode := MAXCODE INIT_BITS, clear_flg := false } else d
    let l := d.stdin.take d.n_bits
    let d := { d with buf := overlay d.buf l, stdin := d.stdin.drop d.n_bits }
    if l.length = 0 then (none, { d with size := 0 })
    else
      (some (get d.buf 0 d.n_bits),
        { d with
          size := ((l.length <<< 3 : ℕ) : ℤ) - ((d.n_bits : ℤ) - 1)
          offset := d.n_bits })
  else (some (get d.buf d.offset d.n_bits), { d with offset := d.offset + d.n_bits })

/-- The characters of a code on top of the stack, with room for so many: the first of them, and the
stack. -/
def expand ( tab_prefix tab_suffix : ℕ → ℕ) : ℕ → ℕ → List ℕ → Option (ℕ × List ℕ)
  | 0, _, _ => none
  | room + 1, code, stack =>
    if code ≥ 256 then
      expand tab_prefix tab_suffix room ( tab_prefix code) (tab_suffix code :: stack)
    else some (tab_suffix code, tab_suffix code :: stack)

/-- What a code does behind the first one; nothing can be said where the stack overflows. -/
def decode (p : Params) (d : Dec) (incode : ℕ) : Option Dec :=
  let r := if incode ≥ d.free_ent then ([d.finchar], d.oldcode) else ([], incode)
  match expand d.tab_prefix d.tab_suffix (STACK - r.1.length) r.2 r.1 with
  | none => none
  | some (finchar, stack) =>
    let d := { d with finchar := finchar, out := d.out ++ stack }
    let d := if d.free_ent < p.maxmaxcode then
      { d with
        tab_prefix := Function.update d.tab_prefix d.free_ent d.oldcode
        tab_suffix := Function.update d.tab_suffix d.free_ent finchar
        free_ent := d.free_ent + 1 } else d
    some { d with oldcode := incode }

/-- The loop of `decompress`, so many turns of it. -/
def decloop (p : Params) : ℕ → Dec → Option (List ℕ)
  | 0, _ => none
  | n + 1, d =>
    match getcode p d with
    | (none, d) => some d.out
    | (some code, d) =>
      if code = CLEAR ∧ p.block_compress then
        let d := { d with
          tab_prefix := fun code => if code < 256 then 0 else d.tab_prefix code
          clear_flg := true
          free_ent := FIRST - 1 }
        match getcode p d with
        | (none, d) => some d.out
        | (some code, d) => (decode p d code).bind (decloop p n)
      else (decode p d code).bind (decloop p n)

/-- What is set before the first code is read, over what is in the memory. -/
def dbegin (p : Params) (buf tab_prefix tab_suffix : ℕ → ℕ) (stdin : List ℕ) : Dec where
  n_bits := INIT_BITS
  maxcode := MAXCODE INIT_BITS
  free_ent := if p.block_compress then FIRST else 256
  clear_flg := false
  offset := 0
  size := 0
  buf := buf
  stdin := stdin
  tab_prefix := fun code => if code < 256 then 0 else tab_prefix code
  tab_suffix := fun code => if code < 256 then code else tab_suffix code
  finchar := 0
  oldcode := 0
  out := []

/-- `decompress`, with so many turns of the loop. -/
def decompress (p : Params) (n : ℕ) (buf tab_prefix tab_suffix : ℕ → ℕ) (stdin : List ℕ) :
    Option (List ℕ) :=
  match getcode p (dbegin p buf tab_prefix tab_suffix stdin) with
  | (none, d) => some d.out
  | (some code, d) =>
    decloop p n { d with finchar := code, oldcode := code, out := d.out ++ [code % 256] }

/-- What `main` makes of the header, if it is one. -/
def params : List ℕ → Option (Params × List ℕ)
  | m₀ :: m₁ :: b :: stdin =>
    if [m₀, m₁] = magic_header ∧ b &&& BIT_MASK ≤ BITS then
      some (⟨b &&& BIT_MASK, b &&& BLOCK_MASK ≠ 0, 0⟩, stdin)
    else none
  | _ => none

def uncompress (n : ℕ) (buf tab_prefix tab_suffix : ℕ → ℕ) (file : List ℕ) : Option (List ℕ) :=
  (params file).bind fun r => decompress r.1 n buf tab_prefix tab_suffix r.2

end Coherent.Compress
