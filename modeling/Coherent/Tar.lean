import Mathlib.Tactic
import Mathlib.Data.List.TakeWhile

/-!
Archives: a header and blocks of data for each file, written in records and read back from a
stream.

The reader asks for a record at a time, and what it gets is what one read of the system returned.
-/

namespace Coherent.Tar

def MAXBLK : ℕ := 20
def BUFSIZ : ℕ := 512
def S_PERM : ℕ := 0o7777

/-! ### Fields of a header -/

def strncpy (s : List UInt8) (n : ℕ) : List UInt8 := s.take n ++ List.replicate (n - s.length) 0

/-- The last octal digit. -/
def octal (val : ℕ) : UInt8 := UInt8.ofNat (val % 8 + 48)

/-- What is in front of the last digit: others, or blanks. -/
def octals : ℕ → ℕ → List UInt8
  | 0, _ => []
  | n + 1, val => octals n (val / 8) ++ [if val / 8 ≠ 0 then octal (val / 8) else 32]

def putoct (val : ℕ) : List UInt8 := octals 5 val ++ [octal val, 32, 0]

def putoctl (val : ℕ) : List UInt8 := octals 10 val ++ [octal val, 32]

/-- Digits, up to a character that is none. The number is kept modulo `m`. -/
def digits (m : ℕ) : ℕ → List UInt8 → ℕ
  | val, [] => val
  | val, c :: cp =>
    if 48 ≤ c.toNat ∧ c.toNat ≤ 55 then digits m ((val * 8 + (c.toNat - 48)) % m) cp else val

def getoct (cp : List UInt8) : ℕ := digits 65536 0 (cp.dropWhile (· = 32))

def getoctl (cp : List UInt8) : ℕ := digits 4294967296 0 (cp.dropWhile (· = 32))

/-- A `char` as an `int`. -/
def sext (c : UInt8) : ℕ := if c.toNat < 128 then c.toNat else c.toNat + 65280

def checksum (str : List UInt8) : ℕ := str.foldl (fun check c => (check + sext c) % 65536) 0

/-- A `long`. -/
def long (x : ℕ) : ℤ := if x < 2147483648 then x else x - 4294967296

/-- The blocks of a file: passes of a loop that takes one from the size while it is positive. -/
def passes (size : ℕ) : ℕ := ((long size + 511) / 512).toNat

/-- A file in the archive: what its header says, and its blocks. Only the directory that the walk
begins at has no name, and it has no header. -/
structure Entry where
  name : List UInt8
  t_mode : ℕ
  t_uid : ℕ
  t_gid : ℕ
  t_size : ℕ
  t_mtime : ℕ
  link : List UInt8
  data : List (List UInt8)
  name_ne : name ≠ []
  name_nul : 0 ∉ name
  name_le : name.length ≤ 100
  mode_lt : t_mode < 65536
  uid_lt : t_uid < 65536
  gid_lt : t_gid < 65536
  size_lt : t_size < 4294967296
  mtime_lt : t_mtime < 4294967296
  link_nul : 0 ∉ link
  link_le : link.length ≤ 100
  data_length : data.length = if link = [] then passes t_size else 0
  block_length : ∀ b ∈ data, b.length = BUFSIZ

/-- The header of a file, but for the field of the checksum. -/
def header (e : Entry) (th_check : List UInt8) : List UInt8 :=
  strncpy e.name 100 ++ putoct (e.t_mode &&& S_PERM) ++ putoct e.t_uid ++ putoct e.t_gid ++
    putoctl e.t_size ++ putoctl e.t_mtime ++ th_check ++ [if e.link = [] then 0 else 49] ++
    strncpy e.link 100 ++ strncpy [] 255

/-- The field of the checksum is blank while it is computed. -/
def blanks : List UInt8 := List.replicate 8 32

/-- The header of a file. -/
def hdr (e : Entry) : List UInt8 := header e (putoct (checksum (header e blanks)))

/-! ### Writing -/

/-- The blocks of a record, the next of them, and what has been written. -/
structure Wr where
  buffer : List (List UInt8)
  current : ℕ
  tarfile : List UInt8

/-- The next block of the record, which is written when it is full. -/
def writeblk (blocking : ℕ) (w : Wr) : ℕ × Wr :=
  let w :=
    if w.current = blocking then
      { w with
        current := 0
        tarfile := w.tarfile ++ (w.buffer.take blocking).flatten }
    else w
  (w.current, { w with current := w.current + 1 })

def Wr.fill (w : Wr) (i : ℕ) (b : List UInt8) : Wr := { w with buffer := w.buffer.set i b }

def put (blocking : ℕ) (w : Wr) (b : List UInt8) : Wr :=
  let (i, w) := writeblk blocking w
  w.fill i b

def writehdr (blocking : ℕ) (w : Wr) (e : Entry) : Wr := put blocking w (hdr e)

def writefil (blocking : ℕ) (w : Wr) (data : List (List UInt8)) : Wr := data.foldl (put blocking) w

def append (blocking : ℕ) (w : Wr) (e : Entry) : Wr :=
  writefil blocking (writehdr blocking w e) e.data

/-- The record is filled up, and written. -/
def flushtar (blocking : ℕ) : ℕ → Wr → Wr
  | 0, w => w
  | n + 1, w =>
    let (i, w) := writeblk blocking w
    if i = 0 then w else flushtar blocking n (w.fill i (strncpy [] BUFSIZ))

def start : Wr := ⟨List.replicate MAXBLK (List.replicate BUFSIZ 0), 0, []⟩

/-- The bytes of an archive. -/
def archive (blocking : ℕ) (es : List Entry) : List UInt8 :=
  (flushtar blocking (blocking + 1) (es.foldl (append blocking) start)).tarfile

/-! ### Reading -/

/-- A record, the next block of it, the number of its blocks, and what reads will return. -/
structure Rd where
  buffer : List UInt8
  current : ℕ
  blocks : ℕ
  eof : Bool
  input : List (List UInt8)

/-- One read, and the number of whole blocks in what it returned. -/
def fread (r : Rd) : ℕ × Rd :=
  match r.input with
  | [] => (0, { r with eof := true })
  | c :: cs =>
    if c = [] then (0, { r with eof := true })
    else
      (c.length / BUFSIZ, { r with
        buffer := c ++ r.buffer.drop c.length
        input := cs })

/-- The next block, with what is behind it in the buffer. There is no result behind the buffer. -/
def readblk (r : Rd) : Option (Option (List UInt8) × Rd) :=
  if r.eof then some (none, r)
  else
    let r :=
      if r.current = r.blocks then
        let (n, r) := fread { r with current := 0 }
        { r with blocks := n }
      else r
    if r.eof then some (none, r)
    else if r.current < MAXBLK then
      some (some (r.buffer.drop (r.current * BUFSIZ)), { r with current := r.current + 1 })
    else none

/-- A header with its checksum blank. -/
def blanked (h : List UInt8) : List UInt8 := h.take 148 ++ blanks ++ h.drop 156

/-- The next header: blocks that begin with a NUL are not, nor those whose checksum is wrong. -/
def readhdr : ℕ → Rd → Option (Option (List UInt8) × Rd)
  | 0, _ => none
  | n + 1, r =>
    match readblk r with
    | none => none
    | some (none, r) => some (none, r)
    | some (some h, r) =>
      if h.head? = some 0 then readhdr n r
      else if checksum ((blanked h).take BUFSIZ) ≠ getoct (h.drop 148) then readhdr n r
      else some (some h, r)

/-- Blocks, up to the end of the archive. -/
def skip : ℕ → Rd → Option (List (List UInt8) × Rd)
  | 0, r => some ([], r)
  | n + 1, r =>
    match readblk r with
    | none => none
    | some (none, r) => some ([], r)
    | some (some b, r) => (skip n r).map fun (bs, r) => (b.take BUFSIZ :: bs, r)

/-- The blocks behind a header. -/
def skipfile (h : List UInt8) (r : Rd) : Option (List (List UInt8) × Rd) :=
  if h.getD 156 0 ≠ 0 then some ([], r) else skip (passes (getoctl (h.drop 124))) r

/-- The headers of an archive, each with the blocks behind it. -/
def table : ℕ → Rd → Option (List (List UInt8 × List (List UInt8)))
  | 0, _ => none
  | n + 1, r =>
    match readhdr (n + 1) r with
    | none => none
    | some (none, _) => some []
    | some (some h, r) =>
      (skipfile h r).bind fun (bs, r) => (table n r).map fun l => (h.take BUFSIZ, bs) :: l

/-- The contents of an archive whose bytes are what reads return. A read is of at most as many
blocks as the buffer has. -/
def contents (input : List (List UInt8)) : Option (List (List UInt8 × List (List UInt8))) :=
  table (MAXBLK * input.length + 2)
    ⟨List.replicate (MAXBLK * BUFSIZ) 0, 0, 0, false, input⟩

/-- What a header says. -/
structure Fields where
  name : List UInt8
  mode : ℕ
  uid : ℕ
  gid : ℕ
  size : ℕ
  mtime : ℕ
  check : ℕ
  link : List UInt8
  deriving DecidableEq

/-- A string in a field. -/
def str (h : List UInt8) (i : ℕ) : List UInt8 := ((h.drop i).take 100).takeWhile (· ≠ 0)

def fields (h : List UInt8) : Fields where
  name := str h 0
  mode := getoct (h.drop 100)
  uid := getoct (h.drop 108)
  gid := getoct (h.drop 116)
  size := getoctl (h.drop 124)
  mtime := getoctl (h.drop 136)
  check := getoct (h.drop 148)
  link := if h.getD 156 0 = 0 then [] else str h 157

variable {m n v k : ℕ} {p q s : List UInt8} {b c h : List UInt8} {bs data : List (List UInt8)}
  {e : Entry} {es : List Entry} {blocking : ℕ} {w : Wr} {r : Rd}

/-! ### Numbers in fields -/

lemma octals_zero (n : ℕ) : octals n 0 = List.replicate n 32 := by
  induction n with
  | zero => rfl
  | succ n ih => simp [octals, ih, List.replicate_succ']

lemma octals_length (n v : ℕ) : (octals n v).length = n := by
  induction n generalizing v with
  | zero => rfl
  | succ n ih => simp [octals, ih]

lemma octal_toNat (v : ℕ) : (octal v).toNat = v % 8 + 48 := by
  have : v % 8 < 8 := Nat.mod_lt _ (by decide)
  unfold octal
  rw [UInt8.toNat_ofNat']
  omega

/-- A number as it is written: blanks, and digits that come to it. -/
lemma octals_spec (hv : v < 8 ^ (n + 1)) : ∃ k ds, octals n v ++ [octal v] =
    List.replicate k 32 ++ ds.map octal ∧ ds ≠ [] ∧ (∀ d ∈ ds, d < 8) ∧
      Nat.ofDigits 8 ds.reverse = v := by
  induction n generalizing v with
  | zero => exact ⟨0, [v], by simp [octals], by simp, by simpa using hv, by simp⟩
  | succ n ih =>
    by_cases h0 : v / 8 = 0
    · refine ⟨n + 1, [v], ?_, by simp, by simp; omega, by simp⟩
      simp [octals, h0, octals_zero, List.replicate_succ']
    · obtain ⟨k, ds, h1, h2, h3, h4⟩ := ih (v := v / 8) (by rw [pow_succ] at hv; omega)
      refine ⟨k, ds ++ [v % 8], ?_, by simp, ?_, ?_⟩
      · rw [octals, if_pos h0, h1, List.map_append, List.map_singleton, List.append_assoc]
        congr 3
        simp [octal]
      · intro d hd
        obtain hd | hd := List.mem_append.mp hd
        · exact h3 d hd
        · rw [List.mem_singleton.mp hd]
          exact Nat.mod_lt _ (by decide)
      · rw [List.reverse_append, List.reverse_singleton, List.singleton_append, Nat.ofDigits_cons,
          h4]
        omega

lemma digits_map {ds : List ℕ} (hds : ∀ d ∈ ds, d < 8) (v : ℕ) (hv : v < m)
    (hq : ∀ c ∈ q.head?, ¬ (48 ≤ c.toNat ∧ c.toNat ≤ 55)) :
    digits m v (ds.map octal ++ q) = (v * 8 ^ ds.length + Nat.ofDigits 8 ds.reverse) % m := by
  induction ds generalizing v with
  | nil =>
    cases q with
    | nil => simp [digits, Nat.mod_eq_of_lt hv]
    | cons c q =>
      rw [List.map_nil, List.nil_append, digits, if_neg (hq c rfl)]
      simp [Nat.mod_eq_of_lt hv]
  | cons d ds ih =>
    have hd := hds d (by simp)
    have ho := octal_toNat d
    rw [List.map_cons, List.cons_append, digits, if_pos (by omega), ho, Nat.mod_eq_of_lt hd,
      Nat.add_sub_cancel, ih (fun d h => hds d (by simp [h])) _ (Nat.mod_lt _ (by omega)),
      List.reverse_cons, Nat.ofDigits_append, Nat.ofDigits_singleton, List.length_reverse,
      List.length_cons, Nat.add_mod, Nat.mod_mul_mod, ← Nat.add_mod]
    congr 1
    ring

lemma read_octals (hv : v < 8 ^ (n + 1)) (hm : v < m)
    (hq : ∀ c ∈ q.head?, ¬ (48 ≤ c.toNat ∧ c.toNat ≤ 55)) :
    digits m 0 ((octals n v ++ octal v :: q).dropWhile (· = 32)) = v := by
  obtain ⟨k, ds, h1, h2, h3, h4⟩ := octals_spec hv
  have hsplit : octals n v ++ octal v :: q = List.replicate k 32 ++ (ds.map octal ++ q) := by
    rw [← List.append_assoc, ← h1, List.append_assoc, List.singleton_append]
  have hdrop : (octals n v ++ octal v :: q).dropWhile (· = 32) = ds.map octal ++ q := by
    rw [hsplit, List.dropWhile_append_of_pos (by simp)]
    obtain ⟨d, ds, rfl⟩ := List.exists_cons_of_ne_nil h2
    rw [List.map_cons, List.cons_append, List.dropWhile_cons_of_neg]
    have := octal_toNat d
    simp only [decide_eq_true_eq]
    intro h
    rw [h] at this
    have h32 : (32 : UInt8).toNat = 32 := rfl
    omega
  rw [hdrop, digits_map h3 0 (by omega) hq, h4, zero_mul, zero_add, Nat.mod_eq_of_lt hm]

lemma getoct_putoct (hv : v < 65536) : getoct (putoct v ++ q) = v := by
  unfold getoct putoct
  rw [List.append_assoc]
  exact read_octals (n := 5) (lt_trans hv (by decide)) hv (by simp)

lemma getoctl_putoctl (hv : v < 4294967296) : getoctl (putoctl v ++ q) = v := by
  unfold getoctl putoctl
  rw [List.append_assoc]
  exact read_octals (n := 10) (lt_trans hv (by decide)) hv (by simp)

lemma checksum_lt (s : List UInt8) : checksum s < 65536 := by
  unfold checksum
  induction s using List.reverseRecOn with
  | nil => simp
  | append_singleton s c _ =>
    rw [List.foldl_append]
    exact Nat.mod_lt _ (by decide)

/-! ### The fields of a header -/

lemma strncpy_length (s : List UInt8) (n : ℕ) : (strncpy s n).length = n := by
  simp [strncpy]
  omega

lemma putoct_length (v : ℕ) : (putoct v).length = 8 := by simp [putoct, octals_length]

lemma putoctl_length (v : ℕ) : (putoctl v).length = 12 := by simp [putoctl, octals_length]

lemma header_length (hc : c.length = 8) : (header e c).length = BUFSIZ := by
  simp [header, strncpy_length, putoct_length, putoctl_length, hc, BUFSIZ]

lemma strncpy_str (hs : 0 ∉ s) (hl : s.length ≤ 100) :
    ((strncpy s 100 ++ q).take 100).takeWhile (· ≠ 0) = s := by
  rw [List.take_left' (strncpy_length s 100), strncpy, List.take_of_length_le hl,
    List.takeWhile_append_of_pos]
  · cases 100 - s.length <;> simp [List.replicate_succ]
  · intro c hc
    simp only [ne_eq, decide_eq_true_eq]
    rintro rfl
    exact hs hc

/-- What the header of a file says. -/
def Entry.fields (e : Entry) : Fields where
  name := e.name
  mode := e.t_mode &&& S_PERM
  uid := e.t_uid
  gid := e.t_gid
  size := e.t_size
  mtime := e.t_mtime
  check := checksum (header e blanks)
  link := e.link

lemma drop_next {X F R : List UInt8} (h : X.drop n = F ++ R) (hF : F.length = k) :
    X.drop (n + k) = R := by rw [← List.drop_drop, h, List.drop_left' hF]

/-- The field of the checksum, and the next, which says whether the file is a link. -/
lemma header_split (e : Entry) : ∃ p q, p.length = 148 ∧
    ∀ c, header e c = p ++ (c ++ (if e.link = [] then 0 else 49) :: q) := by
  refine ⟨strncpy e.name 100 ++ putoct (e.t_mode &&& S_PERM) ++ putoct e.t_uid ++ putoct e.t_gid ++
    putoctl e.t_size ++ putoctl e.t_mtime, strncpy e.link 100 ++ strncpy [] 255, ?_, fun c => ?_⟩
  · simp only [List.length_append, strncpy_length, putoct_length, putoctl_length]
  · simp only [header, List.append_assoc, List.cons_append, List.nil_append]

lemma header_islink (hc : c.length = 8) :
    (header e c ++ q).getD 156 0 = if e.link = [] then 0 else 49 := by
  obtain ⟨p, t, hp, h⟩ := header_split e
  have h1 : (header e c ++ q).drop 148 = c ++ ((if e.link = [] then 0 else 49) :: (t ++ q)) := by
    rw [h, List.append_assoc, List.drop_left' hp, List.append_assoc, List.cons_append]
  have h2 := congrArg List.head? (drop_next h1 hc)
  rw [List.head?_drop, List.head?_cons] at h2
  rw [List.getD_eq_getElem?_getD, h2]
  rfl

/-- The checksum is of the header with blanks. -/
lemma blanked_header (hc : c.length = 8) (q : List UInt8) :
    (blanked (header e c ++ q)).take BUFSIZ = header e blanks := by
  obtain ⟨p, t, hp, h⟩ := header_split e
  have h1 : (header e c ++ q).drop 148 = c ++ ((if e.link = [] then 0 else 49) :: (t ++ q)) := by
    rw [h, List.append_assoc, List.drop_left' hp, List.append_assoc, List.cons_append]
  have h2 : (header e c ++ q).take 148 = p := by rw [h, List.append_assoc, List.take_left' hp]
  have h3 : blanked (header e c ++ q) = header e blanks ++ q := by
    rw [blanked, h2, drop_next h1 hc, h]
    simp only [List.append_assoc, List.cons_append]
  rw [h3, List.take_left' (header_length rfl)]

lemma fields_header (e : Entry) (hv : v < 65536) (q : List UInt8) :
    Tar.fields (header e (putoct v) ++ q) = { e.fields with check := v } := by
  have hmode : e.t_mode &&& S_PERM < 65536 := lt_of_le_of_lt Nat.and_le_left e.mode_lt
  have d0 : (header e (putoct v) ++ q).drop 0 =
      strncpy e.name 100 ++ (putoct (e.t_mode &&& S_PERM) ++ (putoct e.t_uid ++ (putoct e.t_gid ++
        (putoctl e.t_size ++ (putoctl e.t_mtime ++ (putoct v ++ ([if e.link = [] then 0 else 49] ++
          (strncpy e.link 100 ++ (strncpy [] 255 ++ q))))))))) := by
    simp only [header, List.append_assoc, List.drop_zero]
  have d1 := drop_next d0 (strncpy_length _ _)
  have d2 := drop_next d1 (putoct_length _)
  have d3 := drop_next d2 (putoct_length _)
  have d4 := drop_next d3 (putoct_length _)
  have d5 := drop_next d4 (putoctl_length _)
  have d6 := drop_next d5 (putoctl_length _)
  have d7 := drop_next d6 (putoct_length _)
  have d8 := drop_next d7 (show _ = 1 from rfl)
  have hlink := header_islink (e := e) (q := q) (putoct_length v)
  generalize header e (putoct v) ++ q = X at *
  simp only [Nat.zero_add, Nat.reduceAdd] at d1 d2 d3 d4 d5 d6 d7 d8
  unfold Tar.fields Entry.fields str
  rw [hlink, d0, d1, d2, d3, d4, d5, d6, d8, strncpy_str e.name_nul e.name_le, getoct_putoct hmode,
    getoct_putoct e.uid_lt, getoct_putoct e.gid_lt, getoctl_putoctl e.size_lt,
    getoctl_putoctl e.mtime_lt, getoct_putoct hv, strncpy_str e.link_nul e.link_le]
  congr 1
  by_cases hl : e.link = [] <;> simp [hl]

/-- **What is written in a header is read there.** -/
lemma fields_hdr (e : Entry) (q : List UInt8) : Tar.fields (hdr e ++ q) = e.fields :=
  fields_header e (checksum_lt _) q

/-! ### Writing -/

/-- What has been put is what has been written, and the blocks of the record. -/
structure Wr.Inv (blocking : ℕ) (w : Wr) (bs : List (List UInt8)) : Prop where
  length : w.buffer.length = MAXBLK
  le : w.current ≤ blocking
  all : w.tarfile ++ (w.buffer.take w.current).flatten = bs.flatten
  first : w.current = 0 → bs = []

lemma inv_put (h : w.Inv blocking bs) (h1 : 1 ≤ blocking) (h2 : blocking ≤ MAXBLK)
    (b : List UInt8) : (put blocking w b).Inv blocking (bs ++ [b]) := by
  have hlen := h.length
  have hle := h.le
  have hall := h.all
  unfold Tar.put writeblk Wr.fill
  by_cases hc : w.current = blocking
  · rw [if_pos hc]
    refine ⟨by simpa using hlen, by simpa using h1, ?_, by simp⟩
    rw [hc] at hall
    have hne : w.buffer ≠ [] := List.ne_nil_of_length_pos (by rw [hlen]; decide)
    obtain ⟨x, l, hx⟩ := List.exists_cons_of_ne_nil hne
    rw [List.flatten_append, ← hall]
    simp [hx]
  · rw [if_neg hc]
    refine ⟨by simpa using hlen, by simp only; omega, ?_, by simp⟩
    have hlt : w.current < w.buffer.length := by omega
    rw [List.flatten_append, ← hall]
    simp only [List.take_add_one, List.flatten_append]
    rw [List.take_set_of_le (le_refl _), List.getElem?_set_self hlt]
    simp

lemma inv_puts (h : w.Inv blocking bs) (h1 : 1 ≤ blocking) (h2 : blocking ≤ MAXBLK)
    (data : List (List UInt8)) : (data.foldl (put blocking) w).Inv blocking (bs ++ data) := by
  induction data generalizing w bs with
  | nil => simpa using h
  | cons b data ih =>
    have := ih (inv_put h h1 h2 b)
    rwa [List.append_assoc, List.singleton_append] at this

/-- The blocks of an archive. -/
def blocksOf (es : List Entry) : List (List UInt8) := es.flatMap fun e => hdr e :: e.data

lemma inv_appends (h : w.Inv blocking bs) (h1 : 1 ≤ blocking) (h2 : blocking ≤ MAXBLK)
    (es : List Entry) : (es.foldl (append blocking) w).Inv blocking (bs ++ blocksOf es) := by
  induction es generalizing w bs with
  | nil => simpa [blocksOf] using h
  | cons e es ih =>
    have := ih (inv_puts (inv_put h h1 h2 (hdr e)) h1 h2 e.data)
    rwa [List.append_assoc, List.append_assoc] at this

/-- The last record is filled up with blocks of zeros. -/
lemma inv_flush (h : w.Inv blocking bs) (h1 : 1 ≤ blocking) (h2 : blocking ≤ MAXBLK)
    (hn : blocking < w.current + n) : ∃ k, (flushtar blocking n w).tarfile =
      (bs ++ List.replicate k (strncpy [] BUFSIZ)).flatten := by
  have hall := h.all
  have hle := h.le
  induction n generalizing w bs with
  | zero => omega
  | succ n ih =>
    by_cases hc : w.current = blocking
    · refine ⟨0, ?_⟩
      rw [hc] at hall
      simp [flushtar, writeblk, hc, hall]
    · by_cases h0 : w.current = 0
      · refine ⟨0, ?_⟩
        rw [h0, List.take_zero, List.flatten_nil, List.append_nil] at hall
        simp [flushtar, writeblk, h0, hall, show 0 ≠ blocking by omega]
      · have hput := inv_put h h1 h2 (strncpy [] BUFSIZ)
        have hcur : (put blocking w (strncpy [] BUFSIZ)).current = w.current + 1 := by
          simp [put, writeblk, hc, Wr.fill]
        obtain ⟨k, hk⟩ := ih hput (by omega) hput.all hput.le
        refine ⟨k + 1, ?_⟩
        have hstep : flushtar blocking (n + 1) w =
            flushtar blocking n (put blocking w (strncpy [] BUFSIZ)) := by
          simp [flushtar, put, writeblk, hc, h0]
        rw [hstep, hk, List.append_assoc, List.replicate_succ, List.singleton_append]

/-- **An archive** is its blocks, and blocks of zeros. -/
lemma archive_eq (h1 : 1 ≤ blocking) (h2 : blocking ≤ MAXBLK) (es : List Entry) :
    ∃ k, archive blocking es = (blocksOf es ++ List.replicate k (strncpy [] BUFSIZ)).flatten := by
  have h : start.Inv blocking [] :=
    ⟨by simp [start], by simp [start], by simp [start], fun _ => rfl⟩
  exact inv_flush (inv_appends h h1 h2 es) h1 h2 (by omega)

/-! ### Reading -/

/-- What will be read: blocks, as long as each read returns whole ones. -/
structure Stream (r : Rd) (bs : List (List UInt8)) : Prop where
  length : r.buffer.length = MAXBLK * BUFSIZ
  le : r.current ≤ r.blocks
  le_max : r.blocks ≤ MAXBLK
  whole : ∀ c ∈ r.input, c ≠ [] ∧ c.length ≤ MAXBLK * BUFSIZ ∧ BUFSIZ ∣ c.length
  rest : (r.buffer.take (r.blocks * BUFSIZ)).drop (r.current * BUFSIZ) ++ r.input.flatten =
    bs.flatten
  block : ∀ b ∈ bs, b.length = BUFSIZ
  eof : r.eof = true → bs = []

/-- Each block is read in its turn. -/
lemma Stream.readblk_cons (h : Stream r (b :: bs)) :
    ∃ r' q, readblk r = some (some (b ++ q), r') ∧ Stream r' bs := by
  have hlen := h.length
  have hle := h.le
  have hmax := h.le_max
  have hrest := h.rest
  have hb := h.block b (by simp)
  have hbs : ∀ b ∈ bs, b.length = BUFSIZ := fun b hb => h.block b (by simp [hb])
  have heof : r.eof = false := by
    by_contra hc
    have := h.eof (by simpa using hc)
    simp at this
  unfold readblk
  rw [heof, if_neg (by simp)]
  by_cases hc : r.current = r.blocks
  · -- a read
    have hnil : (r.buffer.take (r.blocks * BUFSIZ)).drop (r.current * BUFSIZ) = [] := by
      rw [hc]
      exact List.drop_eq_nil_of_le (List.length_take_le _ _)
    rw [hnil, List.nil_append, List.flatten_cons] at hrest
    obtain ⟨c, cs, hi⟩ : ∃ c cs, r.input = c :: cs := by
      cases hi : r.input with
      | nil =>
        rw [hi] at hrest
        have := congrArg List.length hrest
        simp only [List.flatten_nil, List.length_nil, List.length_append, hb, BUFSIZ] at this
        omega
      | cons c cs => exact ⟨c, cs, rfl⟩
    obtain ⟨hne, hcmax, n, hn⟩ := h.whole c (by simp [hi])
    have hn1 : 1 ≤ n := by
      by_contra h0
      have : c.length = 0 := by rw [hn, show n = 0 by omega, Nat.mul_zero]
      exact hne (List.length_eq_zero_iff.mp this)
    have hn2 : n ≤ MAXBLK := by
      simp only [hn, MAXBLK, BUFSIZ] at hcmax ⊢
      omega
    have hdiv : c.length / BUFSIZ = n := by rw [hn, Nat.mul_div_cancel_left _ (by decide)]
    rw [hi, List.flatten_cons] at hrest
    obtain ⟨t, rfl⟩ : ∃ t, c = b ++ t := by
      have hp : b <+: c := by
        refine List.prefix_of_prefix_length_le (List.prefix_append b bs.flatten)
          ⟨cs.flatten, hrest⟩ ?_
        rw [hb, hn]
        exact Nat.le_mul_of_pos_right _ hn1
      obtain ⟨t, ht⟩ := hp
      exact ⟨t, ht.symm⟩
    rw [List.append_assoc, List.append_cancel_left_eq] at hrest
    simp only [if_pos hc, fread, hi, if_neg hne, hdiv]
    rw [if_neg (by simp), if_pos (by decide), Nat.zero_mul, List.drop_zero, List.append_assoc]
    refine ⟨_, _, rfl, ?_, hn1, hn2, fun c hc => h.whole c (by simp [hi, hc]), ?_, hbs, by simp⟩
    · simp only [List.length_append, List.length_drop] at hcmax ⊢
      omega
    · have htake : ((b ++ t) ++ r.buffer.drop (b ++ t).length).take (n * BUFSIZ) = b ++ t :=
        List.take_left' (by rw [hn, Nat.mul_comm])
      rw [List.append_assoc] at htake
      simp only
      rw [htake, Nat.zero_add, Nat.one_mul, List.drop_left' hb]
      exact hrest
  · -- a block of the record
    have hlt : r.current < r.blocks := by omega
    simp only [if_neg hc, heof]
    rw [if_neg (by simp), if_pos (by omega)]
    generalize hS : (r.buffer.take (r.blocks * BUFSIZ)).drop (r.current * BUFSIZ) = S at hrest
    have hmul : r.current * BUFSIZ + BUFSIZ ≤ r.blocks * BUFSIZ := by
      rw [← Nat.succ_mul]
      exact Nat.mul_le_mul_right _ hlt
    have hmul' : r.blocks * BUFSIZ ≤ MAXBLK * BUFSIZ := Nat.mul_le_mul_right _ hmax
    have htl : (r.buffer.take (r.blocks * BUFSIZ)).length = r.blocks * BUFSIZ := by
      rw [List.length_take]
      omega
    have hSl : BUFSIZ ≤ S.length := by
      rw [← hS, List.length_drop, htl]
      omega
    obtain ⟨t, rfl⟩ : ∃ t, S = b ++ t := by
      have hp : b <+: S := by
        refine List.prefix_of_prefix_length_le (List.prefix_append b bs.flatten)
          ⟨r.input.flatten, hrest⟩ (by rw [hb]; exact hSl)
      obtain ⟨t, ht⟩ := hp
      exact ⟨t, ht.symm⟩
    rw [List.flatten_cons, List.append_assoc, List.append_cancel_left_eq] at hrest
    have hdrop : r.buffer.drop (r.current * BUFSIZ) =
        b ++ (t ++ r.buffer.drop (r.blocks * BUFSIZ)) := by
      conv_lhs => rw [← List.take_append_drop (r.blocks * BUFSIZ) r.buffer]
      rw [List.drop_append_of_le_length (by omega), hS, List.append_assoc]
    rw [hdrop]
    refine ⟨_, _, rfl, hlen, hlt, hmax, h.whole, ?_, hbs, by simp⟩
    have hnext : (r.buffer.take (r.blocks * BUFSIZ)).drop ((r.current + 1) * BUFSIZ) = t := by
      rw [Nat.succ_mul, ← List.drop_drop, hS, List.drop_left' hb]
    simp only
    rw [hnext]
    exact hrest

lemma Stream.readblk_nil (h : Stream r []) : ∃ r', readblk r = some (none, r') := by
  have hle := h.le
  have hmax := h.le_max
  have hrest := h.rest
  rw [List.flatten_nil, List.append_eq_nil_iff] at hrest
  obtain ⟨h1, h2⟩ := hrest
  have hc : r.current = r.blocks := by
    by_contra hne
    have hlt : (r.current + 1) * BUFSIZ ≤ r.blocks * BUFSIZ := Nat.mul_le_mul_right _ (by omega)
    have hmul' : r.blocks * BUFSIZ ≤ MAXBLK * BUFSIZ := Nat.mul_le_mul_right _ hmax
    have := congrArg List.length h1
    rw [List.length_drop, List.length_take, h.length, List.length_nil] at this
    simp only [BUFSIZ, MAXBLK] at *
    omega
  have hi : r.input = [] := by
    cases hi : r.input with
    | nil => rfl
    | cons c cs =>
      rw [hi, List.flatten_cons, List.append_eq_nil_iff] at h2
      exact absurd h2.1 (h.whole c (by simp [hi])).1
  unfold readblk
  by_cases heof : r.eof = true
  · exact ⟨r, by rw [if_pos heof]⟩
  · simp [heof, hc, fread, hi]

/-- The blocks behind a header. -/
lemma Stream.skip (h : Stream r (data ++ bs)) :
    ∃ r', skip data.length r = some (data, r') ∧ Stream r' bs := by
  induction data generalizing r with
  | nil => exact ⟨r, rfl, h⟩
  | cons b data ih =>
    obtain ⟨r', q, h1, h2⟩ := h.readblk_cons
    obtain ⟨r'', h3, h4⟩ := ih h2
    refine ⟨r'', ?_, h4⟩
    rw [List.length_cons, Tar.skip, h1]
    simp only [h3, Option.map_some]
    rw [List.take_left' (h.block b (by simp))]

/-- Blocks of zeros are passed over. -/
lemma Stream.readhdr_zeros (h : Stream r (List.replicate k (strncpy [] BUFSIZ))) (hk : k < n) :
    ∃ r', readhdr n r = some (none, r') := by
  induction n generalizing r k with
  | zero => omega
  | succ n ih =>
    cases k with
    | zero =>
      obtain ⟨r', h1⟩ := h.readblk_nil
      exact ⟨r', by rw [readhdr, h1]⟩
    | succ k =>
      obtain ⟨r', q, h1, h2⟩ := h.readblk_cons
      obtain ⟨r'', h3⟩ := ih h2 (by omega)
      refine ⟨r'', ?_⟩
      rw [readhdr, h1]
      have h0 : (strncpy [] BUFSIZ ++ q).head? = some 0 := rfl
      simp only [if_pos h0, h3]

lemma Stream.readhdr_hdr (h : Stream r (hdr e :: bs)) :
    ∃ r' q, readhdr (n + 1) r = some (some (hdr e ++ q), r') ∧ Stream r' bs := by
  obtain ⟨r', q, h1, h2⟩ := h.readblk_cons
  refine ⟨r', q, ?_, h2⟩
  obtain ⟨c, l, hc⟩ := List.exists_cons_of_ne_nil e.name_ne
  have hc0 : c ≠ 0 := by
    rintro rfl
    exact e.name_nul (by simp [hc])
  have h0 : (hdr e ++ q).head? ≠ some 0 := by
    have hhead : (hdr e ++ q).head? = some c := by
      simp only [hdr, header, List.append_assoc, hc]
      rfl
    rw [hhead]
    exact fun h => hc0 (Option.some.inj h)
  have hsum : checksum ((blanked (hdr e ++ q)).take BUFSIZ) = getoct ((hdr e ++ q).drop 148) := by
    rw [hdr, blanked_header (putoct_length _)]
    have h := congrArg Fields.check (fields_hdr e q)
    dsimp only [Tar.fields, Entry.fields, hdr] at h
    exact h.symm
  rw [readhdr, h1]
  simp only [if_neg h0, hsum, ne_eq, not_true_eq_false, if_false]

/-- The headers of a stream, each with its blocks. -/
lemma Stream.table (h : Stream r (blocksOf es ++ List.replicate k (strncpy [] BUFSIZ)))
    (hn : es.length + k < n) :
    table n r = some (es.map fun e => (hdr e, e.data)) := by
  induction es generalizing r n with
  | nil =>
    cases n with
    | zero => simp at hn
    | succ n =>
      obtain ⟨r', h1⟩ := Stream.readhdr_zeros (r := r) (by simpa [blocksOf] using h)
        (show k < n + 1 by simpa using hn)
      rw [Tar.table, h1]
      rfl
  | cons e es ih =>
    cases n with
    | zero => simp at hn
    | succ n =>
      have hsplit : blocksOf (e :: es) ++ List.replicate k (strncpy [] BUFSIZ) =
          hdr e :: (e.data ++ (blocksOf es ++ List.replicate k (strncpy [] BUFSIZ))) := by
        simp [blocksOf]
      rw [hsplit] at h
      obtain ⟨r', q, h1, h2⟩ := h.readhdr_hdr (n := n)
      obtain ⟨r'', h3, h4⟩ := h2.skip
      have hskip : skipfile (hdr e ++ q) r' = some (e.data, r'') := by
        have hsize : getoctl ((hdr e ++ q).drop 124) = e.t_size := by
          have h := congrArg Fields.size (fields_hdr e q)
          dsimp only [Tar.fields, Entry.fields] at h
          exact h
        have hlink : (hdr e ++ q).getD 156 0 = _ := header_islink (putoct_length _)
        have hlen := e.data_length
        unfold skipfile
        rw [hlink, hsize]
        by_cases hl : e.link = []
        · rw [if_pos hl] at hlen ⊢
          rw [if_neg (by simp), ← hlen, h3]
        · rw [if_neg hl] at hlen ⊢
          rw [List.length_eq_zero_iff.mp hlen] at h3 ⊢
          rw [if_pos (by decide), ← h3]
          rfl
      have htake : (hdr e ++ q).take BUFSIZ = hdr e := List.take_left' (h.block _ (by simp))
      rw [List.length_cons] at hn
      rw [Tar.table, h1]
      simp only [hskip, Option.bind_some, htake]
      rw [ih h4 (by omega)]
      rfl

/-- The number of blocks is no larger than what the reads have room for. -/
lemma flatten_length_le {l : List (List UInt8)} (h : ∀ c ∈ l, c.length ≤ n) :
    l.flatten.length ≤ n * l.length := by
  rw [List.length_flatten]
  have := List.sum_le_card_nsmul (l.map List.length) n (by simpa using h)
  simpa [Nat.mul_comm] using this

/-- **Round trip**: however the bytes of an archive are divided among reads that return whole
blocks, its headers and its blocks are read as they were written. -/
theorem contents_archive {input : List (List UInt8)} (h1 : 1 ≤ blocking) (h2 : blocking ≤ MAXBLK)
    (hin : input.flatten = archive blocking es)
    (hread : ∀ c ∈ input, c ≠ [] ∧ c.length ≤ MAXBLK * BUFSIZ)
    (hwhole : ∀ c ∈ input, BUFSIZ ∣ c.length) :
    contents input = some (es.map fun e => (hdr e, e.data)) ∧
      ∀ e ∈ es, Tar.fields (hdr e) = e.fields := by
  refine ⟨?_, fun e _ => by simpa using fields_hdr e []⟩
  obtain ⟨k, hk⟩ := archive_eq h1 h2 es
  have hblock : ∀ b ∈ blocksOf es ++ List.replicate k (strncpy [] BUFSIZ), b.length = BUFSIZ := by
    intro b hb
    obtain hb | hb := List.mem_append.mp hb
    · obtain ⟨e, he, hb⟩ := List.mem_flatMap.mp hb
      obtain rfl | hb := List.mem_cons.mp hb
      · exact header_length (putoct_length _)
      · exact e.block_length b hb
    · rw [List.eq_of_mem_replicate hb]
      exact strncpy_length _ _
  have hs : Stream ⟨List.replicate (MAXBLK * BUFSIZ) 0, 0, 0, false, input⟩
      (blocksOf es ++ List.replicate k (strncpy [] BUFSIZ)) :=
    ⟨List.length_replicate, le_refl _, by simp,
      fun c hc => ⟨(hread c hc).1, (hread c hc).2, hwhole c hc⟩, by simpa using hin.trans hk,
      hblock, by simp⟩
  refine hs.table ?_
  have hle := flatten_length_le fun c hc => (hread c hc).2
  have hlen : (blocksOf es ++ List.replicate k (strncpy [] BUFSIZ)).flatten.length =
      BUFSIZ * (blocksOf es ++ List.replicate k (strncpy [] BUFSIZ)).length := by
    rw [List.length_flatten, List.map_congr_left hblock]
    simp [Nat.mul_comm]
  have hes' : es.length ≤ (blocksOf es).length := by
    rw [blocksOf, List.length_flatMap]
    simp
  rw [hin, hk, hlen, List.length_append, List.length_replicate] at hle
  simp only [MAXBLK, BUFSIZ] at hle ⊢
  omega

/-- A file of one byte. -/
def one : Entry where
  name := [97]
  t_mode := 0o100644
  t_uid := 3
  t_gid := 5
  t_size := 1
  t_mtime := 4294967295
  link := []
  data := [List.replicate BUFSIZ 120]
  name_ne := by decide
  name_nul := by decide
  name_le := by decide
  mode_lt := by decide
  uid_lt := by decide
  gid_lt := by decide
  size_lt := by decide
  mtime_lt := by decide
  link_nul := by decide
  link_le := by decide
  data_length := by decide
  block_length := by simp

/-- A record of three blocks, in two reads. -/
theorem contents_archive_one :
    contents [(archive 3 [one]).take 1024, (archive 3 [one]).drop 1024] =
        some ([one].map fun e => (hdr e, e.data)) ∧ ∀ e ∈ [one], Tar.fields (hdr e) = e.fields := by
  have hlen : (archive 3 [one]).length = 1536 := by decide +kernel
  have hb : 3 ≤ MAXBLK := by decide
  have hl : ((archive 3 [one]).take 1024).length = 1024 := by
    rw [List.length_take, hlen]
    rfl
  have hl' : ((archive 3 [one]).drop 1024).length = 512 := by rw [List.length_drop, hlen]
  refine contents_archive (by decide) hb ?_ (fun c hc => ⟨?_, ?_⟩) fun c hc => ?_
  · rw [List.flatten_cons, List.flatten_singleton, List.take_append_drop]
  · rintro rfl
    obtain h | h := List.mem_pair.mp hc
    · rw [← h] at hl
      exact absurd hl (by decide)
    · rw [← h] at hl'
      exact absurd hl' (by decide)
  · obtain h | h := List.mem_pair.mp hc
    · rw [h, hl]
      decide
    · rw [h, hl']
      decide
  · obtain h | h := List.mem_pair.mp hc
    · rw [h, hl]
      decide
    · rw [h, hl']
      decide

/-- The second read begins inside the block, and what the first returned of it is lost. -/
theorem short_read :
    contents [(archive 3 [one]).take 1000, (archive 3 [one]).drop 1000] ≠
      some ([one].map fun e => (hdr e, e.data)) := by
  decide +kernel

end Coherent.Tar
