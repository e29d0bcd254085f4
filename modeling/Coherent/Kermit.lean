import Mathlib.Tactic
import Coherent.Lib.Run

/-!
`kermit`: files sent over a line, one packet at a time.

The automata `sendsw` and `recsw` with everything they send and read, and the line between them,
which may lose a packet or damage it, so that its checksum is wrong, at any time. A packet on the
line is the list of the bytes that one `spack` has written. A buffer is what lies at each place
from its beginning on. Each turn of an automaton writes first and reads afterwards, or the other way
round; the other side may do anything in between. Neither side is in debugging mode, and both read
the line in the same way (`image`).
-/

namespace Coherent.Kermit

open Coherent.Lib

def MAXPACKSIZ : ℤ := 94

def SOH : ℕ := 1

def CR : ℕ := 13

def SP : ℕ := 32

def DEL : ℕ := 127

def MAXTRY : ℕ := 20

def MYQUOTE : ℕ := 35

def MYPAD : ℤ := 0

def MYPCHAR : ℕ := 0

def MYEOL : ℤ := 10

def MYTIME : ℤ := 10

/-- A byte as a `char`. -/
def char (c : ℕ) : ℤ := if c < 128 then c else c - 256

/-- What a `char` keeps of a number. -/
def byte (x : ℤ) : ℕ := (x % 256).toNat

def tochar (ch : ℤ) : ℤ := ch + 32

def unchar (ch : ℤ) : ℤ := ch - 32

def ctl (ch : ℕ) : ℕ := ch ^^^ 64

/-- A buffer. -/
abbrev Mem := ℤ → ℕ

/-- A string in memory. -/
def mem (str : List ℕ) : Mem := fun i => if 0 ≤ i then str.getD i.toNat 0 else 0

/-- The flags that a side was started with. -/
structure Flags where
  mflg : Bool
  xflg : Bool
  aflg : Bool
  filnamcnv : Bool
  remote : Bool

/-- What one side has learnt of the other. -/
structure Params where
  spsiz : ℤ
  pad : ℤ
  padchar : ℕ
  eol : ℕ
  quote : ℕ
  deriving DecidableEq

/-! ### Packets -/

/-- Bits 7 and 8 of the checksum folded in. -/
def fold (chksum : ℕ) : ℕ := (chksum / 64 % 4 + chksum) % 64

/-- `chksum += c` for all of the characters. -/
def total (l : List ℕ) : ℕ := l.foldl (fun chksum c => (chksum + c) % 256) 0

/-- The bytes of a buffer from place `i` on. -/
def slice (data : Mem) (i : ℤ) (len : ℕ) : List ℕ :=
  (List.range len).map fun k : ℕ => data (i + k)

/-- What `spack` writes. -/
def spack (mflg : Bool) (p : Params) (type : Char) (num len : ℤ) (data : Mem) : List ℕ :=
  let body := [byte (tochar (len + 3)), byte (tochar num), type.toNat] ++ slice data 0 len.toNat
  List.replicate p.pad.toNat p.padchar ++ SOH :: body ++
    [byte (tochar (fold (total body)))] ++ (if mflg then [p.eol] else []) ++ [p.eol]

/-- A character from the line: `t &= 0177` unless `image`. -/
def strip (image : Bool) (t : ℕ) : ℕ := if image then t else t % 128

structure Head where
  type : Char
  num : ℤ
  len : ℤ

/-- The data of a packet, into place `i` and the next ones: the checksum and what is left to read,
unless the characters run out first. -/
def getdata (image : Bool) : ℕ → ℤ → ℕ → Mem → List ℕ → Option (ℕ × List ℕ) × Mem
  | 0, _, cchksum, data, line => (some (cchksum, line), data)
  | _ + 1, _, _, data, [] => (none, data)
  | len + 1, i, cchksum, data, t :: line =>
    if strip image t = SOH then getdata image len (i + 1) cchksum data line
    else getdata image len (i + 1) ((cchksum + strip image t) % 256)
      (Function.update data i (strip image t)) line

/-- The loop of `rpack` behind the header mark, so many turns of it. -/
def packloop (image : Bool) : ℕ → List ℕ → Mem → Option Head × Mem
  | 0, _, data => (none, data)
  | _ + 1, [], data => (none, data)
  | n + 1, t :: line, data =>
    if strip image t = SOH then packloop image n line data
    else
      let len := unchar (char (strip image t)) - 3
      match line with
      | [] => (none, data)
      | u :: line =>
        if strip image u = SOH then packloop image n line data
        else
          match line with
          | [] => (none, data)
          | v :: line =>
            if strip image v = SOH then packloop image n line data
            else
              let cchksum := ((strip image t + strip image u) % 256 + strip image v) % 256
              match getdata image len.toNat 0 cchksum data line with
              | (none, data) => (none, data)
              | (some (cchksum, line), data) =>
                let data := Function.update data len 0
                match line with
                | w :: x :: line =>
                  if strip image x = SOH then packloop image n line data
                  else if (fold cchksum : ℤ) = char (byte (unchar (char w))) ∧ strip image v ≠ 0
                  then (some ⟨Char.ofNat (strip image v), unchar (char (strip image u)), len⟩, data)
                  else (none, data)
                | _ => (none, data)

/-- `rpack` on what the line brings before the time is out. -/
def rpack (image : Bool) (line : List ℕ) (data : Mem) : Option Head × Mem :=
  match line.dropWhile fun t => t % 128 ≠ SOH with
  | [] => (none, data)
  | _ :: line => packloop image (line.length + 1) line data

/-! ### The data of a file -/

/-- What `bufill` makes of a character. -/
def quoted (image : Bool) (quote t : ℕ) : List ℕ :=
  let t7 := t % 128
  if t7 < SP ∨ t7 = DEL ∨ t7 = quote then
    (if t = 10 ∧ !image then [quote, ctl CR] else []) ++ quote ::
      (if t7 ≠ quote then [if image then ctl t else ctl t7] else [if image then t else t7])
  else [if image then t else t7]

/-- `buffer[i++] = c` for all of the characters. -/
def store (buffer : Mem) (i : ℕ) : List ℕ → Mem
  | [] => buffer
  | c :: l => store (Function.update buffer (i : ℤ) c) (i + 1) l

/-- The loop of `bufill`: the size, the buffer and what is left of the file. -/
def fill (image : Bool) (p : Params) (i : ℕ) (buffer : Mem) : List ℕ → ℤ × Mem × List ℕ
  | [] => (if i = 0 then -1 else i, buffer, [])
  | t :: fp =>
    let l := quoted image p.quote t
    let buffer := store buffer i l
    let i := i + l.length
    if (i : ℤ) ≥ p.spsiz - 8 then (i, buffer, fp) else fill image p i buffer fp

def bufill (image : Bool) (p : Params) (buffer : Mem) (fp : List ℕ) : ℤ × Mem × List ℕ :=
  fill image p 0 buffer fp

/-- The loop of `bufemp` from place `i` on, so many turns of it: what it writes. -/
def empty (image : Bool) (buffer : Mem) (len : ℤ) : ℕ → ℤ → List ℕ
  | 0, _ => []
  | n + 1, i =>
    if i < len then
      let t := buffer i
      if t = MYQUOTE then
        let t := buffer (i + 1)
        let t := if t % 128 ≠ MYQUOTE then ctl t else t
        (if t = CR ∧ !image then [] else [t]) ++ empty image buffer len n (i + 2)
      else (if t = CR ∧ !image then [] else [t]) ++ empty image buffer len n (i + 1)
    else []

def bufemp (image : Bool) (buffer : Mem) (len : ℤ) : List ℕ := empty image buffer len len.toNat 0

/-! ### Parameters -/

def spar (data : Mem) : Mem :=
  store data 0 [byte (tochar MAXPACKSIZ), byte (tochar MYTIME), byte (tochar MYPAD), ctl MYPCHAR,
    byte (tochar MYEOL), MYQUOTE]

def rpar (data : Mem) : Params where
  spsiz := unchar (char (data 0))
  pad := unchar (char (data 2))
  padchar := ctl (data 3)
  eol := byte (unchar (char (data 4)))
  quote := data 5

/-! ### The sender -/

/-- A file to send, under its own name and the one for the other side; `none` where it cannot be
opened. -/
structure Outfile where
  filnam : List ℕ
  filnamo : List ℕ
  text : Option (List ℕ)

inductive SState | S | F | D | Z | B | C | A
  deriving DecidableEq

structure Sender where
  state : SState
  n : ℤ
  numtry : ℕ
  /-- the packet is on the line, and `rpack` begins -/
  waits : Bool
  fp : Option (List ℕ)
  size : ℤ
  packet : Mem
  recpkt : Mem
  file : Outfile
  filelist : List Outfile
  par : Params

/-- Behind the last slash. -/
def base : List ℕ → List ℕ → List ℕ
  | newfilnam, [] => newfilnam
  | newfilnam, c :: cp => if c = 47 then base cp cp else base newfilnam cp

/-- The name that is sent. -/
def newfilnam (f : Flags) (filnamo : List ℕ) : List ℕ :=
  let name := if !f.xflg && !f.aflg then base filnamo filnamo else filnamo
  if f.filnamcnv && !f.aflg then name.map fun c => if 97 ≤ c ∧ c ≤ 122 then c ^^^ 32 else c
  else name

/-- `error`: the other side hears of it if this side is the remote one. -/
def error (f : Flags) (p : Params) (n : ℤ) (fmt : String) (a : List ℕ) : List (List ℕ) :=
  let msg := fmt.toList.map Char.toNat ++ a
  if f.remote then [spack f.mflg p 'E' n msg.length (mem msg)] else []

/-- `sinit` up to the reply. -/
def sinitSend (f : Flags) (s : Sender) : Sender × List (List ℕ) :=
  let packet := spar s.packet
  ({ s with packet := packet, waits := true }, [spack f.mflg s.par 'S' s.n 6 packet])

/-- `sfile` up to the reply, with the file open. -/
def sfilePack (f : Flags) (s : Sender) : Sender × List (List ℕ) :=
  let name := newfilnam f s.file.filnamo
  ({ s with waits := true }, [spack f.mflg s.par 'F' s.n name.length (mem name)])

/-- `sfile` up to the reply. -/
def sfileSend (f : Flags) (s : Sender) : Sender × List (List ℕ) :=
  match s.fp with
  | some _ => sfilePack f s
  | none =>
    match s.file.text with
    | none => ({ s with state := .A }, error f s.par s.n "Cannot open " s.file.filnam)
    | some text => sfilePack f { s with fp := some text }

def sdataSend (f : Flags) (s : Sender) : Sender × List (List ℕ) :=
  ({ s with waits := true }, [spack f.mflg s.par 'D' s.n s.size s.packet])

def seofSend (f : Flags) (s : Sender) : Sender × List (List ℕ) :=
  ({ s with waits := true }, [spack f.mflg s.par 'Z' s.n 0 s.packet])

def sbreakSend (f : Flags) (s : Sender) : Sender × List (List ℕ) :=
  ({ s with waits := true }, [spack f.mflg s.par 'B' s.n 0 s.packet])

/-- `n = (n+1)%64`, with no tries yet. -/
def Sender.bump (s : Sender) : Sender := { s with numtry := 0, n := (s.n + 1) % 64 }

/-- `sinit` with the reply. -/
def sinit (s : Sender) (got : Option Head) : Sender :=
  match got with
  | none => s
  | some h =>
    match h.type with
    | 'N' => s
    | 'Y' =>
      if s.n ≠ h.num then s
      else
        let p := rpar s.recpkt
        { s.bump with
          state := .F
          par := { p with
            eol := if p.eol = 0 then 10 else p.eol
            quote := if p.quote = 0 then MYQUOTE else p.quote } }
    | _ => { s with state := .A }

/-- What the other four do with the reply; `acked` is what follows where it is an acknowledgement
of this packet, as one that the next packet is missing is too. -/
def reply (acked : Sender → Sender) (s : Sender) (got : Option Head) : Sender :=
  match got with
  | none => s
  | some h =>
    match h.type with
    | 'N' =>
      let num := if h.num - 1 < 0 then 63 else h.num - 1
      if s.n ≠ num then s else acked s
    | 'Y' => if s.n ≠ h.num then s else acked s
    | _ => { s with state := .A }

/-- `size = bufill(packet)` -/
def Sender.fill (image : Bool) (s : Sender) : Sender :=
  let r := bufill image s.par s.packet (s.fp.getD [])
  { s with size := r.1, packet := r.2.1, fp := some r.2.2 }

def sfile (image : Bool) : Sender → Option Head → Sender :=
  reply fun s => { s.bump.fill image with state := .D }

def sdata (image : Bool) : Sender → Option Head → Sender :=
  reply fun s =>
    let s := s.bump.fill image
    { s with state := if s.size = -1 then .Z else .D }

def seof : Sender → Option Head → Sender :=
  reply fun s =>
    match s.filelist with
    | [] => { s.bump with fp := none, state := .B }
    | f :: fs => { s.bump with fp := none, file := f, filelist := fs, state := .F }

def sbreak : Sender → Option Head → Sender :=
  reply fun s => { s.bump with state := .C }

/-- A turn of `sendsw` up to the reply. -/
def sendTurn (f : Flags) (s : Sender) : Sender × List (List ℕ) :=
  let s' := { s with numtry := s.numtry + 1 }
  if s.numtry > MAXTRY then ({ s' with state := .A }, [])
  else
    match s.state with
    | .S => sinitSend f s'
    | .F => sfileSend f s'
    | .D => sdataSend f s'
    | .Z => seofSend f s'
    | .B => sbreakSend f s'
    | _ => (s', [])

/-- The rest of a turn of `sendsw`, with what the line brings. -/
def hearTurn (image : Bool) (s : Sender) (line : List ℕ) : Sender :=
  let r := rpack image line s.recpkt
  let s := { s with waits := false, recpkt := r.2 }
  match s.state with
  | .S => sinit s r.1
  | .F => sfile image s r.1
  | .D => sdata image s r.1
  | .Z => seof s r.1
  | .B => sbreak s r.1
  | _ => s

/-! ### The receiver -/

inductive RState | R | F | D | C | A
  deriving DecidableEq

structure Receiver where
  state : RState
  n : ℤ
  numtry : ℕ
  oldtry : ℕ
  packet : Mem
  /-- the file that is open, with what has been written to it -/
  fp : Option (List ℕ × List ℕ)
  /-- the files that have been closed -/
  closed : List (List ℕ × List ℕ)
  par : Params

/-- What `strcpy` copies from a packet buffer. -/
def str (data : Mem) : List ℕ := (slice data 0 (2 * MAXPACKSIZ.toNat)).takeWhile (· ≠ 0)

/-- The name that a file is made under. -/
def filnam1 (f : Flags) (data : Mem) : List ℕ :=
  if f.filnamcnv then (str data).map fun c => if 65 ≤ c ∧ c ≤ 90 then c ||| 32 else c else str data

/-- `(n==0) ? 63:n-1` -/
def Receiver.prev (r : Receiver) : ℤ := if r.n = 0 then 63 else r.n - 1

/-- `oldtry = numtry`, and the next packet, with no tries yet. -/
def Receiver.bump (r : Receiver) : Receiver :=
  { r with oldtry := r.numtry, numtry := 0, n := (r.n + 1) % 64 }

def Receiver.ack (f : Flags) (r : Receiver) (num len : ℤ) : List (List ℕ) :=
  [spack f.mflg r.par 'Y' num len r.packet]

def Receiver.nak (f : Flags) (r : Receiver) : List (List ℕ) :=
  [spack f.mflg r.par 'N' r.n 0 r.packet]

/-- A packet that has been had already is acknowledged again, with so many characters. -/
def again (f : Flags) (r : Receiver) (num len : ℤ) : Receiver × List (List ℕ) :=
  let r' := { r with oldtry := r.oldtry + 1 }
  if r.oldtry > MAXTRY then ({ r' with state := .A }, [])
  else if num = r.prev then ({ r' with numtry := 0 }, r'.ack f num len)
  else ({ r' with state := .A }, [])

def rinit (f : Flags) (r : Receiver) (got : Option Head) : Receiver × List (List ℕ) :=
  match got with
  | none => (r, r.nak f)
  | some h =>
    match h.type with
    | 'S' =>
      let r := { r with par := rpar r.packet, packet := spar r.packet }
      ({ r.bump with state := .F }, r.ack f r.n 6)
    | _ => ({ r with state := .A }, [])

def rfile (creates : List ℕ → Bool) (f : Flags) (r : Receiver) (got : Option Head) :
    Receiver × List (List ℕ) :=
  match got with
  | none => (r, r.nak f)
  | some h =>
    match h.type with
    | 'S' =>
      -- the parameters are filled in only where the number is right
      if r.oldtry ≤ MAXTRY ∧ h.num = r.prev then
        again f { r with packet := spar r.packet } h.num 6
      else again f r h.num 6
    | 'Z' => again f r h.num 0
    | 'F' =>
      if h.num ≠ r.n then ({ r with state := .A }, [])
      else
        let name := filnam1 f r.packet
        if creates name then
          ({ r.bump with fp := some (name, []), state := .D }, r.ack f r.n 0)
        else ({ r with state := .A }, error f r.par r.n "Cannot create " name)
    | 'B' =>
      if h.num ≠ r.n then ({ r with state := .A }, [])
      else ({ r with state := .C }, r.ack f r.n 0)
    | _ => ({ r with state := .A }, [])

def rdata (image : Bool) (f : Flags) (r : Receiver) (got : Option Head) :
    Receiver × List (List ℕ) :=
  match got with
  | none => (r, r.nak f)
  | some h =>
    match h.type with
    | 'D' =>
      if h.num ≠ r.n then again f r h.num 6
      else
        ({ r.bump with
            fp := r.fp.map fun p => (p.1, p.2 ++ bufemp image r.packet h.len)
            state := .D }, r.ack f r.n 0)
    | 'F' => again f r h.num 0
    | 'Z' =>
      if h.num ≠ r.n then ({ r with state := .A }, [])
      else
        ({ r with
            fp := none
            closed := r.closed ++ r.fp.toList
            n := (r.n + 1) % 64
            state := .F }, r.ack f r.n 0)
    | _ => ({ r with state := .A }, [])

/-- A turn of `recsw`, with what the line brings. -/
def recTurn (image : Bool) (creates : List ℕ → Bool) (f : Flags) (r : Receiver) (line : List ℕ) :
    Receiver × List (List ℕ) :=
  let g := rpack image line r.packet
  let r := { r with numtry := r.numtry + 1, packet := g.2 }
  match r.state with
  | .R => rinit f r g.1
  | .F => rfile creates f r g.1
  | .D => rdata image f r g.1
  | _ => (r, [])

/-! ### Both sides and the line -/

structure Config where
  image : Bool
  snd : Flags
  rcv : Flags
  /-- the names under which the receiver can make a file -/
  creates : List ℕ → Bool

structure Link where
  snd : Sender
  rcv : Receiver
  there : List (List ℕ)
  back : List (List ℕ)

inductive Act
  | send
  /-- the sender hears the next packet, or nothing until the time is out -/
  | hear (timeout : Bool)
  /-- the receiver's turn, with the next packet or nothing until the time is out -/
  | recv (timeout : Bool)
  | loseThere (i : ℕ)
  | loseBack (i : ℕ)
  /-- what a packet has become -/
  | damageThere (i : ℕ) (line : List ℕ)
  | damageBack (i : ℕ) (line : List ℕ)

/-- What one side reads of what is under way. -/
def next (timeout : Bool) (q : List (List ℕ)) : Option (List ℕ × List (List ℕ)) :=
  if timeout then some ([], q)
  else
    match q with
    | [] => none
    | line :: q => some (line, q)

/-- The checksum, or something else, tells that this is no packet. -/
def damaged (image : Bool) (line : List ℕ) : Bool :=
  (rpack image line fun _ => 0).1.isNone && line.all (· < 256)

def step (cfg : Config) (l : Link) : Act → Option Link
  | .send =>
    if l.snd.waits ∨ l.snd.state = .C ∨ l.snd.state = .A then none
    else
      let r := sendTurn cfg.snd l.snd
      some { l with snd := r.1, there := l.there ++ r.2 }
  | .hear timeout =>
    if l.snd.waits then
      (next timeout l.back).map fun q =>
        { l with snd := hearTurn cfg.image l.snd q.1, back := q.2 }
    else none
  | .recv timeout =>
    if l.rcv.state = .C ∨ l.rcv.state = .A then none
    else if l.rcv.numtry > MAXTRY then
      some { l with rcv := { l.rcv with numtry := l.rcv.numtry + 1, state := .A } }
    else
      (next timeout l.there).map fun q =>
        let r := recTurn cfg.image cfg.creates cfg.rcv l.rcv q.1
        { l with rcv := r.1, there := q.2, back := l.back ++ r.2 }
  | .loseThere i => some { l with there := l.there.eraseIdx i }
  | .loseBack i => some { l with back := l.back.eraseIdx i }
  | .damageThere i line =>
    if damaged cfg.image line then some { l with there := l.there.set i line } else none
  | .damageBack i line =>
    if damaged cfg.image line then some { l with back := l.back.set i line } else none

/-- What `main` sets before `sendsw` and `recsw`. -/
def initial : Params := ⟨0, 0, 0, CR, MYQUOTE⟩

def start (f : Outfile) (fs : List Outfile) : Link where
  snd := ⟨.S, 0, 0, false, none, 0, fun _ => 0, fun _ => 0, f, fs, initial⟩
  rcv := ⟨.R, 0, 0, 0, fun _ => 0, none, [], initial⟩
  there := []
  back := []

end Coherent.Kermit
