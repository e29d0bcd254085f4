import Coherent.Lib.Views

/-!
The stack with the arguments and the environment of a new program (`exstack` of the kernel).

The first pass over the user's vectors counts pointers and bytes, the second one copies them into
a segment of that size through the overlay segment of the system. What the start-up code finds at
the top of the new stack is what the old program passed.
-/

namespace Coherent.Exstack

open Coherent.Lib.Bytes Coherent.Lib.Views

def E2BIG : ℕ := 7
def ENOEXEC : ℕ := 8
def EFAULT : ℕ := 14
def MADSIZE : ℕ := 32768
def ISTSIZE : ℕ := 256
def SOVSIZE : ℕ := 64
def MSSIZE : ℕ := 64
def USTACK : ℕ := 0
def OS : ℕ := 62
def NUSEG : ℕ := 6

def ADDR (s o : ℕ) : ℕ := s * 16777216 + o

def ISTVIRT : ℕ := ADDR (USTACK + 1) 0

def ctob (n : ℕ) : ℕ := n * 1024

def btocru (n : ℕ) : ℕ := (n + 1023) / 1024 % 65536

def roundu (n1 n2 : ℕ) : ℕ := (n1 + n2 - 1) / n2 * n2

/-- What a `long` keeps of a number. -/
def long (x : ℤ) : ℤ := (x + 2147483648) % 4294967296 - 2147483648

/-- A pointer so many bytes further on: the offset changes, the segment does not. -/
def bump (p n : ℕ) : ℕ := p / 65536 * 65536 + (p % 65536 + n) % 65536

structure SEG where
  s_size : ℕ
  s_mbase : ℕ
  deriving DecidableEq

/-- The memory, where the process's own addresses lead (`ufix` and the memory management unit),
and the fields of the user area. -/
structure U where
  mem : Mem
  map : ℕ → Option ℕ
  u_error : ℕ
  u_argc : ℕ
  u_argp : ℕ

/-- What the process sees. -/
def U.view (u : U) : View := ⟨fun a => (u.map a).map u.mem.byte, bump⟩

/-! ### The first pass -/

/-- The inner loop of `excount`: the bytes up to the end of a string. -/
def exchars (u : U) : ℕ → ℕ → ℕ → Option (Except ℕ ℕ)
  | 0, _, _ => none
  | k + 1, usrcp, nb =>
    match u.view.byte usrcp with
    | none => some (.error EFAULT)
    | some c =>
      if u.u_error ≠ 0 then some (.error u.u_error)
      else if nb + 1 > MADSIZE then some (.error E2BIG)
      else if c = 0 then some (.ok (nb + 1))
      else exchars u k (bump usrcp 1) (nb + 1)

/-- The outer loop of `excount`. -/
def exvector (u : U) : ℕ → ℕ → ℕ → ℕ → Option (Except ℕ (ℕ × ℕ))
  | 0, _, _, _ => none
  | k + 1, usrvp, na, nb =>
    match u.view.number 4 usrvp with
    | none => some (.error EFAULT)
    | some usrcp =>
      if u.u_error ≠ 0 then some (.error u.u_error)
      else if usrcp = 0 then some (.ok (na, nb))
      else match exchars u (MADSIZE + 1) usrcp nb with
        | none => none
        | some (.error e) => some (.error e)
        | some (.ok nb) => exvector u k (bump usrvp 4) (na + 1) nb

/-- The pointers, the null pointer included, and the bytes of a vector, or the error left in
`u_error`. The result is `none` if a loop takes more turns than the bound on the bytes allows. -/
def excount (u : U) (usrvp : ℕ) : Option (Except ℕ (ℕ × ℕ)) :=
  if usrvp = 0 then some (.ok (1, 0)) else exvector u (MADSIZE + 1) usrvp 1 0

/-! ### The second pass -/

/-- Where an address leads while `omap` is the base of the overlay segment. -/
def window (omap a : ℕ) : Option ℕ :=
  if a / 16777216 = OS then some ((omap * 256 + a % 65536) % 16777216) else none

def aputc (omap a : ℕ) (c : BitVec 8) (m : Mem) : Option Mem :=
  (window omap a).map fun x => m.set x c

def aputi (omap a i : ℕ) (m : Mem) : Option Mem := (window omap a).map fun x => put m x 2 i

def aputp (omap a p : ℕ) (m : Mem) : Option Mem := (window omap a).map fun x => put m x 4 p

structure Sdata where
  base : ℕ
  ap : ℕ
  vp : ℕ
  cp : ℕ

structure Build where
  aux : Sdata
  stk : Sdata
  mem : Mem

/-- Stores a pointer in the vector. -/
def Build.pointer (omap p : ℕ) (b : Build) : Option Build :=
  (aputp omap b.aux.vp p b.mem).map fun m =>
    ⟨{ b.aux with vp := b.aux.vp + 4 }, { b.stk with vp := b.stk.vp + 4 }, m⟩

/-- Stores a byte of a string. -/
def Build.char (omap : ℕ) (c : BitVec 8) (b : Build) : Option Build :=
  (aputc omap b.aux.cp c b.mem).map fun m =>
    ⟨{ b.aux with cp := b.aux.cp + 1 }, { b.stk with cp := b.stk.cp + 1 }, m⟩

/-- The loop that copies a string. A byte that cannot be read here gives `none`. -/
def putchars (u : U) (omap : ℕ) : ℕ → ℕ → Build → Option Build
  | 0, _, _ => none
  | k + 1, usrcp, b =>
    match { u with mem := b.mem }.view.byte usrcp with
    | none => none
    | some c =>
      match b.char omap c with
      | none => none
      | some b => if c = 0 then some b else putchars u omap k (bump usrcp 1) b

/-- The loop over the pointers of a vector. -/
def putvector (u : U) (omap : ℕ) : ℕ → ℕ → Build → Option Build
  | 0, _, _ => none
  | k + 1, usrvp, b =>
    match { u with mem := b.mem }.view.number 4 usrvp with
    | none => none
    | some usrcp =>
      if usrcp = 0 then some b
      else
        match b.pointer omap b.stk.cp with
        | none => none
        | some b =>
          match putchars u omap (MADSIZE + 1) usrcp b with
          | none => none
          | some b => putvector u omap k (bump usrvp 4) b

/-- One turn of the loop over the arguments and the environment. -/
def putargs (u : U) (omap up : ℕ) (b : Build) : Option Build :=
  match aputp omap b.aux.ap b.stk.vp b.mem with
  | none => none
  | some m =>
    match (if up = 0 then some { b with aux := { b.aux with ap := b.aux.ap + 4 }, mem := m }
      else putvector u omap (MADSIZE + 1) up
        { b with aux := { b.aux with ap := b.aux.ap + 4 }, mem := m }) with
    | none => none
    | some b => b.pointer omap 0

/-- The words at the very top: the mystery word, the stack limit and `errno`. -/
def puttop (omap base stkbase s_size : ℕ) (m : Mem) : Option Mem :=
  match aputi omap (base - 2) 0 m with
  | none => none
  | some m =>
    match aputp omap (base - 2 - 4)
        (bump (bump stkbase (65536 - ctob s_size % 65536)) SOVSIZE) m with
    | none => none
    | some m => aputi omap (base - 2 - 4 - 2) 0 m

/-- The bytes the vectors take. -/
def vecsize (np : ℕ) : ℤ := long (np * 4)

/-- The bytes of the argument region. -/
def stksize (np nc : ℕ) : ℤ :=
  long (2 + 4 + 4 + vecsize np + long (roundu nc 2) + 2 + 4 + 2)

/-- Fills the new segment; gives the memory, the stack pointer and the end of the vectors. -/
def exfill (u : U) (sp : SEG) (argp envp np : ℕ) (stksz vecsz : ℕ) : Option (Mem × ℕ × ℕ) :=
  let omap := sp.s_mbase * 4 % 65536
  let base := ADDR OS 0 + ctob sp.s_size
  let aux : Sdata := ⟨base, base - stksz, base - stksz + 2 + 8, base - stksz + 2 + 8 + vecsz⟩
  let stk : Sdata := ⟨ISTVIRT, ISTVIRT - stksz, ISTVIRT - stksz + 2 + 8,
    ISTVIRT - stksz + 2 + 8 + vecsz⟩
  match aputi omap aux.ap ((np - 1) % 65536) u.mem with
  | none => none
  | some m =>
    match putargs u omap argp ⟨{ aux with ap := aux.ap + 2 }, stk, m⟩ with
    | none => none
    | some b =>
      match putargs u omap envp b with
      | none => none
      | some b => (puttop omap base ISTVIRT sp.s_size b.mem).map fun m => (m, stk.ap, b.stk.vp)

variable (salloc : ℕ → U → Option SEG × U)

/-- The segment and the initial stack pointer, or NULL. -/
def exstack (u : U) (argp envp : ℕ) : Option (Option (SEG × ℕ) × U) :=
  match excount u argp with
  | none => none
  | some (.error e) => some (none, { u with u_error := e })
  | some (.ok arg) =>
    match excount u envp with
    | none => none
    | some (.error e) => some (none, { u with u_error := e })
    | some (.ok env) =>
      let stksz := stksize (arg.1 + env.1) (arg.2 + env.2)
      if stksz + ISTSIZE > MADSIZE then some (none, { u with u_error := E2BIG })
      else
        match salloc (stksz + ISTSIZE).toNat u with
        | (none, u) => some (none, u)
        | (some sp, u) =>
          (exfill u sp argp envp arg.1 stksz.toNat (vecsize (arg.1 + env.1)).toNat).map fun r =>
            (some (sp, r.2.1),
              { u with mem := r.1, u_argc := (arg.1 - 1) % 65536, u_argp := r.2.2 % 65536 })

/-! ### The first pass -/

variable {u u' : U} {argp envp k p n na nb np omap x pv pc : ℕ} {sp : SEG} {m m' : Mem}

/-- The vector at `p`; there is none where the pointer is null. -/
def Vecs (v : View) (p : ℕ) (l : List (ℕ × List (BitVec 8))) : Prop :=
  p = 0 ∧ l = [] ∨ p ≠ 0 ∧ v.Vec p l

lemma Vecs.unique {v : View} {l l' : List (ℕ × List (BitVec 8))} (h : Vecs v p l)
    (h' : Vecs v p l') : l = l' := by
  rcases h with ⟨h0, h⟩ | ⟨h0, h⟩
  · rcases h' with ⟨_, h'⟩ | ⟨h1, _⟩
    · rw [h, h']
    · exact absurd h0 h1
  · rcases h' with ⟨h1, _⟩ | ⟨_, h'⟩
    · exact absurd h1 h0
    · exact h.unique h'

/-- A string is counted whole, or there is an error. -/
lemma exchars_spec (hk : MADSIZE < k + nb) (hnb : nb ≤ MADSIZE) :
    (∃ e, e ≠ 0 ∧ exchars u k p nb = some (.error e)) ∨
    ∃ s, u.view.Str p s ∧ nb + (s.length + 1) ≤ MADSIZE ∧
      exchars u k p nb = some (.ok (nb + (s.length + 1))) := by
  induction k generalizing p nb with
  | zero => omega
  | succ k ih =>
    rw [exchars]
    rcases hb : u.view.byte p with _ | c
    · exact .inl ⟨EFAULT, by decide, rfl⟩
    dsimp only
    by_cases he : u.u_error ≠ 0
    · rw [if_pos he]
      exact .inl ⟨u.u_error, he, rfl⟩
    rw [if_neg he]
    by_cases hm : nb + 1 > MADSIZE
    · rw [if_pos hm]
      exact .inl ⟨E2BIG, by decide, rfl⟩
    rw [if_neg hm]
    by_cases hc : c = 0
    · -- the end of the string
      rw [if_pos hc]
      refine .inr ⟨[], ?_, by rw [List.length_nil]; omega, rfl⟩
      exact hb.trans (congrArg some hc)
    · rw [if_neg hc]
      rcases @ih (bump p 1) (nb + 1) (by omega) (by omega) with h | ⟨s, h1, h2, h3⟩
      · exact .inl h
      · refine .inr ⟨c :: s, ⟨hb, hc, h1⟩, by rw [List.length_cons]; omega, ?_⟩
        rw [h3, List.length_cons]
        congr 2
        omega

lemma exvector_spec (hk : MADSIZE < k + nb) (hnb : nb ≤ MADSIZE) :
    (∃ e, e ≠ 0 ∧ exvector u k p na nb = some (.error e)) ∨
    ∃ l, u.view.Vec p l ∧ nb + size (l.map Prod.snd) ≤ MADSIZE ∧
      exvector u k p na nb = some (.ok (na + l.length, nb + size (l.map Prod.snd))) := by
  induction k generalizing p na nb with
  | zero => omega
  | succ k ih =>
    rw [exvector]
    rcases hq : u.view.number 4 p with _ | q
    · exact .inl ⟨EFAULT, by decide, rfl⟩
    dsimp only
    by_cases he : u.u_error ≠ 0
    · rw [if_pos he]
      exact .inl ⟨u.u_error, he, rfl⟩
    rw [if_neg he]
    by_cases h0 : q = 0
    · -- the end of the vector
      rw [if_pos h0]
      exact .inr ⟨[], hq.trans (congrArg some h0), hnb, rfl⟩
    rw [if_neg h0]
    rcases @exchars_spec u (MADSIZE + 1) q nb (by omega) hnb with
      ⟨e, he, h⟩ | ⟨s, hs, hle, h⟩
    · rw [h]
      exact .inl ⟨e, he, rfl⟩
    · rw [h]
      dsimp only
      rcases @ih (bump p 4) (na + 1) (nb + (s.length + 1)) (by omega) hle with
        h | ⟨l, h1, h2, h3⟩
      · exact .inl h
      · have hsz : size ((q, s) :: l |>.map Prod.snd) =
            s.length + 1 + size (l.map Prod.snd) := rfl
        refine .inr ⟨(q, s) :: l, ⟨hq, h0, hs, h1⟩, by omega, ?_⟩
        rw [h3, hsz, List.length_cons]
        congr 3
        · omega
        · omega

/-- `excount` finds a whole vector, or there is an error. -/
lemma excount_spec : (∃ e, e ≠ 0 ∧ excount u p = some (.error e)) ∨
    ∃ l, Vecs u.view p l ∧ size (l.map Prod.snd) ≤ MADSIZE ∧
      excount u p = some (.ok (l.length + 1, size (l.map Prod.snd))) := by
  unfold excount
  by_cases hp : p = 0
  · rw [if_pos hp]
    exact .inr ⟨[], .inl ⟨hp, rfl⟩, Nat.zero_le _, rfl⟩
  · rw [if_neg hp]
    rcases @exvector_spec u (MADSIZE + 1) p 1 0 (by omega) (Nat.zero_le _) with
      h | ⟨l, h1, h2, h3⟩
    · exact .inl h
    · rw [Nat.zero_add] at h2 h3
      rw [Nat.add_comm 1 l.length] at h3
      exact .inr ⟨l, .inr ⟨hp, h1⟩, h2, h3⟩

/-! ### Where the new segment lies -/

/-- The first and the last place of a segment in memory. -/
def SEG.lo (sp : SEG) : ℕ := ctob sp.s_mbase
def SEG.hi (sp : SEG) : ℕ := ctob (sp.s_mbase + sp.s_size)

/-- The address of a place in the overlay segment of the system. -/
def SEG.axv (sp : SEG) (x : ℕ) : ℕ := ADDR OS 0 + (x - sp.lo)

/-- The address of a place in the stack segment of the new program. -/
def SEG.stv (sp : SEG) (x : ℕ) : ℕ := ISTVIRT - (sp.hi - x)

/-- The segment lies in the memory, and is no larger than a new stack gets. -/
structure SEG.Ok (sp : SEG) : Prop where
  size : sp.s_size ≤ 32
  top : sp.s_mbase + sp.s_size ≤ 16384

/-- Where the addresses of the new program's stack segment lead (`uproto`). -/
def uproto (sp : SEG) (a : ℕ) : Option ℕ :=
  let hl := MSSIZE - sp.s_size
  let b := (sp.s_mbase + 65536 - hl) % 65536 * 4 % 65536
  if a / 16777216 % 128 = USTACK ∧ ctob hl ≤ a % 65536 then
    some ((b * 256 + a % 65536) % 16777216)
  else none

/-- What the new program sees of its stack. -/
def stack (sp : SEG) (m : Mem) : View := ⟨fun a => (uproto sp a).map m.byte, bump⟩

lemma SEG.hi_eq : sp.hi = sp.lo + ctob sp.s_size := by
  rw [SEG.hi, SEG.lo, ctob, ctob, ctob]
  ring

lemma window_axv (h : sp.Ok) (h1 : sp.lo ≤ x) (h2 : x < sp.hi) :
    window (sp.s_mbase * 4 % 65536) (sp.axv x) = some x := by
  obtain ⟨hs, ht⟩ := h
  rw [SEG.lo, ctob] at h1
  rw [SEG.hi, ctob] at h2
  unfold window SEG.axv SEG.lo ADDR OS ctob
  rw [if_pos (by omega)]
  congr 1
  omega

lemma uproto_stv (h : sp.Ok) (h1 : sp.lo ≤ x) (h2 : x < sp.hi) :
    uproto sp (sp.stv x) = some x := by
  obtain ⟨hs, ht⟩ := h
  rw [SEG.lo, ctob] at h1
  rw [SEG.hi, ctob] at h2
  unfold uproto SEG.stv ISTVIRT SEG.hi ADDR USTACK MSSIZE ctob
  dsimp only
  rw [if_pos (by omega)]
  congr 1
  omega

/-- The start-up code finds the bytes of the segment below the top of its stack segment. -/
lemma stack_shows (h : sp.Ok) : Shows (stack sp m) m sp.lo sp.hi sp.stv := by
  refine ⟨fun x h1 h2 => ?_, fun x n h1 h2 => ?_⟩
  · change (uproto sp (sp.stv x)).map m.byte = _
    rw [uproto_stv h h1 h2]
    rfl
  · obtain ⟨hs, ht⟩ := h
    rw [SEG.lo, ctob] at h1
    rw [SEG.hi, ctob] at h2
    change bump _ _ = _
    unfold bump SEG.stv ISTVIRT SEG.hi ADDR USTACK ctob
    omega

/-! ### The second pass -/

/-- No address of the process leads into the new segment. -/
def Apart (u : U) (sp : SEG) : Prop := ∀ a x, u.map a = some x → x < sp.lo ∨ sp.hi ≤ x

/-- Memory outside the segment is as before. -/
def Keeps (sp : SEG) (m m' : Mem) : Prop := ∀ x, x < sp.lo ∨ sp.hi ≤ x → m'.byte x = m.byte x

/-- While only the new segment is written, the process's own memory stays the same. -/
lemma view_keeps (ha : Apart u sp) (hk : Keeps sp u.mem m) : { u with mem := m }.view = u.view := by
  have hb : ∀ a, (u.map a).map m.byte = (u.map a).map u.mem.byte := by
    intro a
    rcases hx : u.map a with _ | x
    · rfl
    · exact congrArg some (hk x (ha a x hx))
  exact congrArg (View.mk · bump) (funext hb)

/-- The cursors of both maps, at the same places of the segment. -/
def place (sp : SEG) (ap sap pv pc : ℕ) (m : Mem) : Build :=
  ⟨⟨ADDR OS 0 + ctob sp.s_size, ap, sp.axv pv, sp.axv pc⟩,
    ⟨ISTVIRT, sap, sp.stv pv, sp.stv pc⟩, m⟩

lemma axv_add (h : sp.lo ≤ x) : sp.axv x + n = sp.axv (x + n) := by
  unfold SEG.axv
  omega

lemma stv_add (hs : sp.Ok) (h1 : sp.lo ≤ x) (h2 : x + n ≤ sp.hi) :
    sp.stv x + n = sp.stv (x + n) := by
  have hsz := hs.size
  have hh := sp.hi_eq
  unfold SEG.stv
  unfold ctob at hh
  have hv : ISTVIRT = 16777216 := rfl
  omega

lemma stv_pos (hs : sp.Ok) (h1 : sp.lo ≤ x) : 0 < sp.stv x ∧ sp.stv x ≤ 16777216 := by
  have hsz := hs.size
  have hh := sp.hi_eq
  unfold SEG.stv
  unfold ctob at hh
  have hv : ISTVIRT = 16777216 := rfl
  omega

variable {ap sap : ℕ}

lemma pointer_spec (hs : sp.Ok) (h1 : sp.lo ≤ pv) (h2 : pv + 4 ≤ sp.hi) :
    (place sp ap sap pv pc m).pointer (sp.s_mbase * 4 % 65536) p =
      some (place sp ap sap (pv + 4) pc (put m pv 4 p)) := by
  unfold Build.pointer aputp place
  dsimp only
  rw [window_axv hs h1 (by omega), axv_add h1, stv_add hs h1 h2]
  rfl

lemma char_spec (hs : sp.Ok) (h1 : sp.lo ≤ pc) (h2 : pc < sp.hi) (c : BitVec 8) :
    (place sp ap sap pv pc m).char (sp.s_mbase * 4 % 65536) c =
      some (place sp ap sap pv (pc + 1) (m.set pc c)) := by
  unfold Build.char aputc place
  dsimp only
  rw [window_axv hs h1 h2, axv_add h1, stv_add hs h1 h2]
  rfl

variable (pv ap sap) in
/-- A string is copied to the cursor for strings. -/
lemma putchars_spec {s : List (BitVec 8)} (hs : sp.Ok) (ha : Apart u sp) (hm : Keeps sp u.mem m)
    (hp : u.view.Str p s) (hk : s.length < k) (h1 : sp.lo ≤ pc)
    (h2 : pc + (s.length + 1) ≤ sp.hi) :
    ∃ m', putchars u (sp.s_mbase * 4 % 65536) k p (place sp ap sap pv pc m) =
        some (place sp ap sap pv (pc + (s.length + 1)) m') ∧
      (∀ x, x < pc ∨ pc + (s.length + 1) ≤ x → m'.byte x = m.byte x) ∧ (flat m').Str pc s := by
  induction s generalizing p k pc m with
  | nil =>
    obtain ⟨k, rfl⟩ : ∃ j, k = j + 1 := ⟨k - 1, by omega⟩
    have hb : { u with mem := m }.view.byte p = some 0 := by
      rw [view_keeps ha hm]
      exact hp
    refine ⟨m.set pc 0, ?_, fun x hx => set_of_ne ?_, congrArg some set_self⟩
    · rw [putchars, show (place sp ap sap pv pc m).mem = m from rfl, hb]
      dsimp only
      rw [char_spec hs h1 (by rw [List.length_nil] at h2; omega)]
      exact if_pos rfl
    · rw [List.length_nil] at hx
      omega
  | cons c s ih =>
    rw [List.length_cons] at hk h2 ⊢
    obtain ⟨k, rfl⟩ : ∃ j, k = j + 1 := ⟨k - 1, by omega⟩
    obtain ⟨hc, hc0, hrest⟩ := hp
    have hb : { u with mem := m }.view.byte p = some c := by
      rw [view_keeps ha hm]
      exact hc
    have hm' : Keeps sp u.mem (m.set pc c) := fun x hx => by
      rw [set_of_ne (by omega)]
      exact hm x hx
    obtain ⟨m', h3, h4, h5⟩ := ih hm' hrest (by omega : s.length < k)
      (by omega : sp.lo ≤ pc + 1) (by omega)
    refine ⟨m', ?_, fun x hx => ?_, ?_, hc0, h5⟩
    · rw [putchars, show (place sp ap sap pv pc m).mem = m from rfl, hb]
      dsimp only
      rw [char_spec hs h1 (by omega)]
      dsimp only
      rw [if_neg hc0, show pc + (s.length + 1 + 1) = pc + 1 + (s.length + 1) by omega]
      exact h3
    · rw [h4 x (by omega), set_of_ne (by omega)]
    · change some (m'.byte pc) = some c
      rw [h4 pc (by omega), set_self]

/-- A vector and its strings are copied to the two cursors. -/
lemma putvector_spec {l : List (ℕ × List (BitVec 8))} (hs : sp.Ok) (ha : Apart u sp)
    (hm : Keeps sp u.mem m) (hp : u.view.Vec p l) (hk : l.length < k)
    (hsz : size (l.map Prod.snd) ≤ MADSIZE) (h1 : sp.lo ≤ pv) (h2 : pv + 4 * l.length ≤ pc)
    (h3 : pc + size (l.map Prod.snd) ≤ sp.hi) :
    ∃ m', putvector u (sp.s_mbase * 4 % 65536) k p (place sp ap sap pv pc m) =
        some (place sp ap sap (pv + 4 * l.length) (pc + size (l.map Prod.snd)) m') ∧
      (∀ x, (x < pv ∨ pv + 4 * l.length ≤ x) → (x < pc ∨ pc + size (l.map Prod.snd) ≤ x) →
        m'.byte x = m.byte x) ∧
      Laid m' sp.stv pv pc (l.map Prod.snd) := by
  induction l generalizing p k pv pc m with
  | nil =>
    obtain ⟨k, rfl⟩ : ∃ j, k = j + 1 := ⟨k - 1, by omega⟩
    have hb : { u with mem := m }.view.number 4 p = some 0 := by
      rw [view_keeps ha hm]
      exact hp
    refine ⟨m, ?_, fun _ _ _ => rfl, trivial⟩
    rw [putvector, show (place sp ap sap pv pc m).mem = m from rfl, hb]
    exact if_pos rfl
  | cons e l ih =>
    obtain ⟨q, s⟩ := e
    have hcons : size (((q, s) :: l).map Prod.snd) = s.length + 1 + size (l.map Prod.snd) := rfl
    rw [hcons] at hsz h3 ⊢
    rw [List.length_cons] at hk h2 ⊢
    obtain ⟨k, rfl⟩ : ∃ j, k = j + 1 := ⟨k - 1, by omega⟩
    obtain ⟨hq, hq0, hstr, hrest⟩ := hp
    have hb : { u with mem := m }.view.number 4 p = some q := by
      rw [view_keeps ha hm]
      exact hq
    -- the pointer, then its string, then the rest of the vector
    have hm1 : Keeps sp u.mem (put m pv 4 (sp.stv pc)) := fun x hx => by
      rw [put_of_apart (by omega)]
      exact hm x hx
    obtain ⟨m2, h4, h5, h6⟩ := putchars_spec (pv + 4) ap sap hs ha hm1 hstr
      (by omega : s.length < MADSIZE + 1) (by omega : sp.lo ≤ pc) (by omega)
    have hm2 : Keeps sp u.mem m2 := fun x hx => by
      rw [h5 x (by omega)]
      exact hm1 x hx
    obtain ⟨m3, h7, h8, h9⟩ := ih hm2 hrest (by omega : l.length < k) (by omega)
      (by omega : sp.lo ≤ pv + 4) (by omega : pv + 4 + 4 * l.length ≤ pc + (s.length + 1))
      (by omega)
    have hstv := stv_pos hs (show sp.lo ≤ pc by omega)
    refine ⟨m3, ?_, fun x hv hc => ?_, ?_, ?_, h9⟩
    · rw [putvector, show (place sp ap sap pv pc m).mem = m from rfl, hb]
      dsimp only
      rw [if_neg hq0, show (place sp ap sap pv pc m).stk.cp = sp.stv pc from rfl,
        pointer_spec hs h1 (by omega)]
      dsimp only
      rw [h4]
      dsimp only
      rw [show pv + 4 * (l.length + 1) = pv + 4 + 4 * l.length by omega,
        show pc + (s.length + 1 + size (l.map Prod.snd)) =
          pc + (s.length + 1) + size (l.map Prod.snd) by omega]
      exact h7
    · rw [h8 x (by omega) (by omega), h5 x (by omega), put_of_apart (by omega)]
    · have hget : get m3 pv 4 = get (put m pv 4 (sp.stv pc)) pv 4 :=
        get_congr fun x h10 h11 => by rw [h8 x (by omega) (by omega), h5 x (by omega)]
      rw [hget, get_put, Nat.mod_eq_of_lt (by omega)]
    · exact h6.congr fun x h10 h11 => h8 x (by omega) (by omega)

/-- A whole turn for one vector: the pointer to it, its pointers and strings, and its end. -/
lemma putargs_spec {l : List (ℕ × List (BitVec 8))} (sap x pv pc : ℕ) (hs : sp.Ok)
    (ha : Apart u sp) (hm : Keeps sp u.mem m) (hp : Vecs u.view p l)
    (hsz : size (l.map Prod.snd) ≤ MADSIZE)
    (h1 : sp.lo ≤ x) (h2 : x + 4 ≤ pv) (h3 : pv + 4 * (l.length + 1) ≤ pc)
    (h4 : pc + size (l.map Prod.snd) ≤ sp.hi) :
    ∃ m', putargs u (sp.s_mbase * 4 % 65536) p (place sp (sp.axv x) sap pv pc m) =
        some (place sp (sp.axv (x + 4)) sap (pv + 4 * (l.length + 1))
          (pc + size (l.map Prod.snd)) m') ∧
      (∀ y, (y < x ∨ x + 4 ≤ y) → (y < pv ∨ pv + 4 * (l.length + 1) ≤ y) →
        (y < pc ∨ pc + size (l.map Prod.snd) ≤ y) → m'.byte y = m.byte y) ∧
      get m' x 4 = sp.stv pv ∧ Laid m' sp.stv pv pc (l.map Prod.snd) ∧
      get m' (pv + 4 * l.length) 4 = 0 := by
  have hstv := stv_pos hs (show sp.lo ≤ pv by omega)
  have hlen := length_le_size (l.map Prod.snd)
  rw [List.length_map] at hlen
  have hm1 : Keeps sp u.mem (put m x 4 (sp.stv pv)) := fun y hy => by
    rw [put_of_apart (by omega)]
    exact hm y hy
  -- the loop over the vector, which is left out for a null pointer
  obtain ⟨m2, h5, h6, h7⟩ : ∃ m2, (if p = 0 then
        some (place sp (sp.axv (x + 4)) sap pv pc (put m x 4 (sp.stv pv)))
      else putvector u (sp.s_mbase * 4 % 65536) (MADSIZE + 1) p
        (place sp (sp.axv (x + 4)) sap pv pc (put m x 4 (sp.stv pv)))) =
        some (place sp (sp.axv (x + 4)) sap (pv + 4 * l.length)
          (pc + size (l.map Prod.snd)) m2) ∧
      (∀ y, (y < pv ∨ pv + 4 * l.length ≤ y) → (y < pc ∨ pc + size (l.map Prod.snd) ≤ y) →
        m2.byte y = (put m x 4 (sp.stv pv)).byte y) ∧
      Laid m2 sp.stv pv pc (l.map Prod.snd) := by
    rcases hp with ⟨hp, rfl⟩ | ⟨hp, hvec⟩
    · rw [if_pos hp]
      exact ⟨_, rfl, fun _ _ _ => rfl, trivial⟩
    · rw [if_neg hp]
      exact putvector_spec hs ha hm1 hvec (by omega) hsz (by omega) (by omega) h4
  refine ⟨put m2 (pv + 4 * l.length) 4 0, ?_, fun y hx hv hc => ?_, ?_, ?_, ?_⟩
  · have hw : aputp (sp.s_mbase * 4 % 65536) (sp.axv x) (sp.stv pv) m =
        some (put m x 4 (sp.stv pv)) := by
      rw [aputp, window_axv hs h1 (by omega)]
      rfl
    unfold putargs
    rw [show (place sp (sp.axv x) sap pv pc m).aux.ap = sp.axv x from rfl,
      show (place sp (sp.axv x) sap pv pc m).stk.vp = sp.stv pv from rfl,
      show (place sp (sp.axv x) sap pv pc m).mem = m from rfl, hw]
    dsimp only
    rw [axv_add h1]
    change (match (if p = 0 then
        some (place sp (sp.axv (x + 4)) sap pv pc (put m x 4 (sp.stv pv)))
      else putvector u (sp.s_mbase * 4 % 65536) (MADSIZE + 1) p
        (place sp (sp.axv (x + 4)) sap pv pc (put m x 4 (sp.stv pv)))) with
      | none => none
      | some b => b.pointer (sp.s_mbase * 4 % 65536) 0) = _
    rw [h5]
    exact pointer_spec hs (by omega) (by omega)
  · rw [put_of_apart (by omega), h6 y (by omega) hc, put_of_apart (by omega)]
  · have hget : get (put m2 (pv + 4 * l.length) 4 0) x 4 = get (put m x 4 (sp.stv pv)) x 4 :=
      get_congr fun y h8 h9 => by rw [put_of_apart (by omega), h6 y (by omega) (by omega)]
    rw [hget, get_put, Nat.mod_eq_of_lt (by omega)]
  · refine h7.congr (fun y h8 h9 => put_of_apart ?_) fun y h8 h9 => put_of_apart ?_
    · rw [List.length_map] at h9
      omega
    · omega
  · rw [get_put, Nat.zero_mod]

/-! ### The whole stack -/

/-- What the start-up code takes from the top of the stack: `argc`, `argv` and `envp`, the two
vectors being `la` and `le`. -/
def Startup (v : View) (usp : ℕ) (la le : List (ℕ × List (BitVec 8))) : Prop :=
  v.number 2 usp = some la.length ∧
  (∃ argv, v.number 4 (v.next usp 2) = some argv ∧ v.Vec argv la) ∧
  ∃ environ, v.number 4 (v.next usp 6) = some environ ∧ v.Vec environ le

/-- The bytes of the argument region for two vectors. -/
def need (la le : List (ℕ × List (BitVec 8))) : ℕ :=
  18 + 4 * (la.length + 1 + (le.length + 1)) +
    roundu (size (la.map Prod.snd) + size (le.map Prod.snd)) 2

lemma stksize_eq {np nc : ℕ} (hp : np ≤ 65538) (hc : nc ≤ 65536) :
    stksize np nc = (18 + 4 * np + roundu nc 2 : ℕ) ∧ vecsize np = (4 * np : ℕ) := by
  unfold stksize vecsize long roundu
  push_cast
  omega

/-- The words at the top are the last eight bytes of the segment. -/
lemma puttop_spec (m : Mem) (hs : sp.Ok) (h : sp.lo + 8 ≤ sp.hi) (stkbase : ℕ) :
    ∃ m', puttop (sp.s_mbase * 4 % 65536) (ADDR OS 0 + ctob sp.s_size) stkbase sp.s_size m =
        some m' ∧ ∀ x, x + 8 < sp.hi ∨ sp.hi ≤ x → m'.byte x = m.byte x := by
  have hw : ∀ d, 0 < d → d ≤ 8 →
      window (sp.s_mbase * 4 % 65536) (ADDR OS 0 + ctob sp.s_size - d) = some (sp.hi - d) := by
    intro d h0 h8
    have hh := sp.hi_eq
    have ha : ADDR OS 0 + ctob sp.s_size - d = sp.axv (sp.hi - d) := by
      unfold SEG.axv
      omega
    rw [ha]
    exact window_axv hs (by omega) (by omega)
  refine ⟨put (put (put m (sp.hi - 2) 2 0) (sp.hi - (2 + 4)) 4
    (bump (bump stkbase (65536 - ctob sp.s_size % 65536)) SOVSIZE)) (sp.hi - (2 + 4 + 2)) 2 0,
    ?_, fun x hx => ?_⟩
  · unfold puttop aputi aputp
    rw [hw 2 (by omega) (by omega)]
    dsimp only [Option.map_some]
    rw [Nat.sub_sub, hw (2 + 4) (by omega) (by omega)]
    dsimp only [Option.map_some]
    rw [Nat.sub_sub, hw (2 + 4 + 2) (by omega) (by omega)]
    rfl
  · rw [put_of_apart (by omega), put_of_apart (by omega), put_of_apart (by omega)]

lemma exfill_spec {la le : List (ℕ × List (BitVec 8))} (hs : sp.Ok) (ha : Apart u sp)
    (hla : Vecs u.view argp la) (hle : Vecs u.view envp le)
    (hca : size (la.map Prod.snd) ≤ MADSIZE) (hce : size (le.map Prod.snd) ≤ MADSIZE)
    (hz : need la le ≤ ctob sp.s_size) :
    ∃ m' vp, exfill u sp argp envp (la.length + 1) (need la le)
        (4 * (la.length + 1 + (le.length + 1))) =
        some (m', sp.stv (sp.hi - need la le), vp) ∧ Keeps sp u.mem m' ∧
      ∃ pc, sp.lo ≤ pc ∧ pc + size (la.map Prod.snd) + size (le.map Prod.snd) ≤ sp.hi ∧
        Startup (stack sp m') (sp.stv (sp.hi - need la le)) (places sp.stv pc (la.map Prod.snd))
          (places sp.stv (pc + size (la.map Prod.snd)) (le.map Prod.snd)) := by
  have hh := sp.hi_eq
  have hsz := hs.size
  have hneed : need la le = 18 + 4 * (la.length + 1 + (le.length + 1)) +
      roundu (size (la.map Prod.snd) + size (le.map Prod.snd)) 2 := rfl
  have hround : size (la.map Prod.snd) + size (le.map Prod.snd) ≤
      roundu (size (la.map Prod.snd) + size (le.map Prod.snd)) 2 := by
    unfold roundu
    omega
  have hctob : ctob sp.s_size = sp.s_size * 1024 := rfl
  obtain ⟨A, hA⟩ : ∃ A, A = sp.hi - need la le := ⟨_, rfl⟩
  obtain ⟨v, hv⟩ : ∃ v, v = 4 * (la.length + 1 + (le.length + 1)) := ⟨_, rfl⟩
  rw [← hA, ← hv]
  rw [← hv] at hneed
  -- `argc`
  have hargc : aputi (sp.s_mbase * 4 % 65536) (sp.axv A) ((la.length + 1 - 1) % 65536) u.mem =
      some (put u.mem A 2 ((la.length + 1 - 1) % 65536)) := by
    rw [aputi, window_axv hs (by omega) (by omega)]
    rfl
  have hm1 : Keeps sp u.mem (put u.mem A 2 ((la.length + 1 - 1) % 65536)) :=
    fun x hx => put_of_apart (by omega)
  -- the arguments and the environment
  obtain ⟨m2, h1, h2, h3, h4, h5⟩ := putargs_spec (sp.stv A) (A + 2) (A + 10) (A + 10 + v) hs ha hm1
    hla hca (by omega) (by omega) (by omega) (by omega)
  have hm2 : Keeps sp u.mem m2 := fun x hx => by
    rw [h2 x (by omega) (by omega) (by omega)]
    exact hm1 x hx
  obtain ⟨m3, h6, h7, h8, h9, h10⟩ := putargs_spec (sp.stv A) (A + 2 + 4)
    (A + 10 + 4 * (la.length + 1)) (A + 10 + v + size (la.map Prod.snd)) hs ha hm2 hle hce
    (by omega) (by omega) (by omega) (by omega)
  obtain ⟨m4, h11, h12⟩ := puttop_spec m3 hs (by omega) ISTVIRT
  have hshow := stack_shows (m := m4) hs
  have hnz : ∀ x, sp.lo ≤ x → x < sp.hi → sp.stv x ≠ 0 := fun x hx _ => (stv_pos hs hx).1.ne'
  -- what the environment and the top leave alone
  have hkept : ∀ x, x + 8 < sp.hi → (x < A + 6 ∨ A + 10 ≤ x) →
      (x < A + 10 + 4 * (la.length + 1) ∨ A + 10 + v ≤ x) →
      x < A + 10 + v + size (la.map Prod.snd) → m4.byte x = m2.byte x := fun x hx h13 h14 h15 => by
    rw [h12 x (.inl hx), h7 x (by omega) (by omega) (by omega)]
  refine ⟨m4, sp.stv (A + 10 + 4 * (la.length + 1) + 4 * (le.length + 1)), ?_, fun x hx => ?_,
    A + 10 + v, by omega, by omega, ?_, ⟨sp.stv (A + 10), ?_, ?_⟩,
    ⟨sp.stv (A + 10 + 4 * (la.length + 1)), ?_, ?_⟩⟩
  · have e1 : ADDR OS 0 + ctob sp.s_size - need la le = sp.axv A := by
      unfold SEG.axv
      omega
    have e2 : ISTVIRT - need la le = sp.stv A := by
      unfold SEG.stv
      omega
    have hplace : place sp (sp.axv (A + 2)) (sp.stv A) (A + 10) (A + 10 + v)
        (put u.mem A 2 ((la.length + 1 - 1) % 65536)) =
        ⟨⟨ADDR OS 0 + ctob sp.s_size, sp.axv A + 2, sp.axv A + 2 + 8, sp.axv A + 2 + 8 + v⟩,
          ⟨ISTVIRT, sp.stv A, sp.stv A + 2 + 8, sp.stv A + 2 + 8 + v⟩,
          put u.mem A 2 ((la.length + 1 - 1) % 65536)⟩ := by
      unfold place
      rw [axv_add (by omega), axv_add (by omega), axv_add (by omega), stv_add hs (by omega)
        (by omega), stv_add hs (by omega) (by omega), stv_add hs (by omega) (by omega)]
    unfold exfill
    dsimp only
    rw [e1, e2, hargc]
    dsimp only
    rw [← hplace, h1]
    dsimp only
    rw [h6]
    dsimp only
    rw [show (place sp (sp.axv (A + 2 + 4 + 4)) (sp.stv A)
      (A + 10 + 4 * (la.length + 1) + 4 * (le.length + 1))
      (A + 10 + v + size (la.map Prod.snd) + size (le.map Prod.snd)) m3).mem = m3 from rfl, h11]
    rfl
  · rw [h12 x (by omega), h7 x (by omega) (by omega) (by omega)]
    exact hm2 x hx
  · have hget : get m4 A 2 = get (put u.mem A 2 ((la.length + 1 - 1) % 65536)) A 2 :=
      get_congr fun x h13 h14 => by
        rw [hkept x (by omega) (by omega) (by omega) (by omega),
          h2 x (by omega) (by omega) (by omega)]
    rw [hshow.number (by omega) (by omega), hget, get_put, length_places, List.length_map]
    congr 1
    omega
  · have hget : get m4 (A + 2) 4 = get m2 (A + 2) 4 := get_congr fun x h13 h14 =>
      hkept x (by omega) (by omega) (by omega) (by omega)
    rw [hshow.next A 2 (by omega) (by omega), hshow.number (by omega) (by omega), hget, h3]
  · refine hshow.vec hnz (h4.congr (fun x h13 h14 => ?_) fun x h13 h14 => ?_) ?_ (by omega) ?_
      (by omega) (by omega)
    · rw [List.length_map] at h14
      exact hkept x (by omega) (by omega) (by omega) (by omega)
    · exact hkept x (by omega) (by omega) (by omega) (by omega)
    · rw [List.length_map, ← h5]
      exact get_congr fun x h13 h14 => hkept x (by omega) (by omega) (by omega) (by omega)
    · rw [List.length_map]
      omega
  · have hget : get m4 (A + 2 + 4) 4 = get m3 (A + 2 + 4) 4 := get_congr fun x h13 h14 =>
      h12 x (.inl (by omega))
    rw [hshow.next A 6 (by omega) (by omega), hshow.number (by omega) (by omega), hget, h8]
  · refine hshow.vec hnz (h9.congr (fun x h13 h14 => h12 x (.inl ?_))
      fun x h13 h14 => h12 x (.inl ?_)) ?_ (by omega) ?_ (by omega) (by omega)
    · rw [List.length_map] at h14
      omega
    · omega
    · rw [List.length_map, ← h10]
      exact get_congr fun x h13 h14 => h12 x (.inl (by omega))
    · rw [List.length_map]
      omega

/-! ### The exec -/

/-- What `salloc` promises: a segment of that many clicks within the memory, apart from all that the
process can reach; the process sees the same as before. -/
def Allocates (salloc : ℕ → U → Option SEG × U) (u : U) : Prop :=
  ∀ n sp u', salloc n u = (some sp, u') →
    sp.s_size = btocru n ∧ sp.s_mbase + sp.s_size ≤ 16384 ∧ u'.view = u.view ∧ Apart u' sp

/-- The kinds of load modules that `pexece` tells apart: a kernel process, a shared library, and
an ordinary program, of which some shared library may be missing. -/
inductive Load where
  | ker
  | slib
  | user (slibmiss : Bool)

structure Proc where
  u : U
  p_segp : ℕ → Option SEG

/-- `pexece` after `exlopen`; `rest` is what it does once the old segments are released. -/
def pexece (super : Bool) (rest : Option (SEG × ℕ) → Proc → Proc) (ip : Option Load) (p : Proc)
    (argp envp : ℕ) : Option Proc :=
  let commit (ssp : Option (SEG × ℕ)) (p : Proc) : Proc :=
    rest ssp { p with p_segp := fun i => if 1 ≤ i ∧ i < NUSEG then none else p.p_segp i }
  match ip with
  | none => some p
  | some .ker => if super then some (commit none p) else some p
  | some .slib => if super then some (commit none p) else some p
  | some (.user true) => some { p with u := { p.u with u_error := ENOEXEC } }
  | some (.user false) =>
    match exstack salloc p.u argp envp with
    | none => none
    | some (none, u) => some { p with u := u }
    | some (some ssp, u) => some (commit (some ssp) { p with u := u })

variable {salloc : ℕ → U → Option SEG × U} {la le : List (ℕ × List (BitVec 8))}

/-- What `exstack` does, by what the process passed. -/
lemma exstack_cases (h : Allocates salloc u) :
    (∃ u', exstack salloc u argp envp = some (none, u') ∧ u'.u_error ≠ 0) ∨
    ∃ la le, Vecs u.view argp la ∧ Vecs u.view envp le ∧ need la le + ISTSIZE ≤ MADSIZE ∧
      ((∃ u', salloc (need la le + ISTSIZE) u = (none, u') ∧
        exstack salloc u argp envp = some (none, u')) ∨
      ∃ sp u1 u', salloc (need la le + ISTSIZE) u = (some sp, u1) ∧ sp.Ok ∧
        exstack salloc u argp envp = some (some (sp, sp.stv (sp.hi - need la le)), u') ∧
        Keeps sp u1.mem u'.mem ∧
        ∃ pc, sp.lo ≤ pc ∧ pc + size (la.map Prod.snd) + size (le.map Prod.snd) ≤ sp.hi ∧
          Startup (stack sp u'.mem) (sp.stv (sp.hi - need la le))
            (places sp.stv pc (la.map Prod.snd))
            (places sp.stv (pc + size (la.map Prod.snd)) (le.map Prod.snd))) := by
  unfold exstack
  rcases @excount_spec u argp with ⟨e, he, ha⟩ | ⟨la, hla, hca, ha⟩
  · rw [ha]
    exact .inl ⟨_, rfl, he⟩
  rw [ha]
  dsimp only
  rcases @excount_spec u envp with ⟨e, he, hb⟩ | ⟨le, hle, hce, hb⟩
  · rw [hb]
    exact .inl ⟨_, rfl, he⟩
  rw [hb]
  dsimp only
  have h1 := length_le_size (la.map Prod.snd)
  have h2 := length_le_size (le.map Prod.snd)
  rw [List.length_map] at h1 h2
  have hmad : MADSIZE = 32768 := rfl
  have hist : ISTSIZE = 256 := rfl
  obtain ⟨h3, h4⟩ := @stksize_eq (la.length + 1 + (le.length + 1))
    (size (la.map Prod.snd) + size (le.map Prod.snd)) (by omega) (by omega)
  rw [h3, h4]
  have hneed : (18 + 4 * (la.length + 1 + (le.length + 1)) +
      roundu (size (la.map Prod.snd) + size (le.map Prod.snd)) 2) = need la le := rfl
  rw [hneed]
  by_cases hfit : ((need la le : ℕ) : ℤ) + (ISTSIZE : ℕ) > (MADSIZE : ℕ)
  · rw [if_pos hfit]
    exact .inl ⟨_, rfl, show E2BIG ≠ 0 by decide⟩
  rw [if_neg hfit]
  have hle' : need la le + ISTSIZE ≤ MADSIZE := by omega
  refine .inr ⟨la, le, hla, hle, hle', ?_⟩
  have hn : (((need la le : ℕ) : ℤ) + (ISTSIZE : ℕ)).toNat = need la le + ISTSIZE := by omega
  rw [hn, Int.toNat_natCast, Int.toNat_natCast]
  rcases hs : salloc (need la le + ISTSIZE) u with ⟨_ | sp, u1⟩
  · exact .inl ⟨u1, rfl, rfl⟩
  · obtain ⟨h5, h6, h7, h8⟩ := h _ _ _ hs
    have hok : sp.Ok := ⟨by rw [h5, btocru]; omega, h6⟩
    rw [← h7] at hla hle
    obtain ⟨m', vp, h9, h10, h11⟩ := exfill_spec hok h8 hla hle hca hce
      (by rw [h5, btocru, ctob]; omega)
    refine .inr ⟨sp, u1, { u1 with
      mem := m', u_argc := (la.length + 1 - 1) % 65536, u_argp := vp % 65536 }, rfl, hok, ?_, h10,
      h11⟩
    dsimp only
    rw [h9]
    rfl

/-- **The argument stack.** `exstack` comes to an end. When it accepts the vectors of the process,
the start-up code of the new program finds vectors of the same strings in the new stack segment,
and memory outside that segment is as `salloc` left it. When they do not fit, there is an error and
the process still has all of its segments. -/
theorem exec_arguments {super : Bool} {rest : Option (SEG × ℕ) → Proc → Proc} {p : Proc}
    (h : Allocates salloc p.u) (argp envp : ℕ) :
    (∃ r, exstack salloc p.u argp envp = some r) ∧
    (∀ sp usp u', exstack salloc p.u argp envp = some (some (sp, usp), u') →
      ∃ la le la' le' u1, Vecs p.u.view argp la ∧ Vecs p.u.view envp le ∧
        Startup (stack sp u'.mem) usp la' le' ∧
        la'.map Prod.snd = la.map Prod.snd ∧ le'.map Prod.snd = le.map Prod.snd ∧
        (∀ e ∈ la' ++ le', ∃ x, uproto sp e.1 = some x ∧ sp.lo ≤ x ∧
          x + e.2.length + 1 ≤ sp.hi) ∧
        salloc (need la le + ISTSIZE) p.u = (some sp, u1) ∧ Keeps sp u1.mem u'.mem) ∧
    (∀ la le, Vecs p.u.view argp la → Vecs p.u.view envp le → MADSIZE < need la le + ISTSIZE →
      ∃ u', u'.u_error ≠ 0 ∧ exstack salloc p.u argp envp = some (none, u')) ∧
    (∀ u', exstack salloc p.u argp envp = some (none, u') →
      pexece salloc super rest (some (.user false)) p argp envp = some { p with u := u' }) := by
  refine ⟨?_, fun sp usp u' hx => ?_, fun la le hla hle hbig => ?_, fun u' hx => ?_⟩
  · rcases exstack_cases h with ⟨u', h1, _⟩ |
      ⟨la, le, _, _, _, ⟨u', _, h1⟩ | ⟨sp, u1, u', _, _, h1, _⟩⟩
    · exact ⟨_, h1⟩
    · exact ⟨_, h1⟩
    · exact ⟨_, h1⟩
  · rcases exstack_cases h with ⟨u1, h1, _⟩ |
      ⟨la, le, hla, hle, _, ⟨u1, _, h1⟩ | ⟨sp', u1, u2, h1, hok, h2, h3, pc, h4, h5, h6⟩⟩
    · cases hx.symm.trans h1
    · cases hx.symm.trans h1
    · cases hx.symm.trans h2
      refine ⟨la, le, _, _, u1, hla, hle, h6, map_places _, map_places _, fun e he => ?_, h1, h3⟩
      rcases List.mem_append.mp he with he | he
      · obtain ⟨x, h7, h8, h9⟩ := mem_places he
        exact ⟨x, by rw [h7]; exact uproto_stv hok (by omega) (by omega), by omega, by omega⟩
      · obtain ⟨x, h7, h8, h9⟩ := mem_places he
        exact ⟨x, by rw [h7]; exact uproto_stv hok (by omega) (by omega), by omega, by omega⟩
  · rcases exstack_cases h with ⟨u1, h1, h2⟩ | ⟨la', le', hla', hle', hfit, _⟩
    · exact ⟨u1, h2, h1⟩
    · rw [hla.unique hla', hle.unique hle'] at hbig
      omega
  · unfold pexece
    dsimp only
    rw [hx]

/-- One argument of a process whose memory is segment 3, and no environment. -/
def oneArg : Proc :=
  ⟨{ mem := ⟨fun x => if x = 4096 then 3 else if x = 4099 then 16 else if x = 4112 then 97 else 0⟩
     map := fun a => if a / 65536 = 768 ∧ a % 65536 < 1024 then some (4096 + a % 65536) else none
     u_error := 0, u_argc := 0, u_argp := 0 }, fun _ => none⟩

/-- Hands out a cleared segment at click 100. -/
def clearSegment (n : ℕ) (u : U) : Option SEG × U :=
  if btocru n ≤ 32 then
    (some ⟨btocru n, 100⟩, { u with mem :=
      ⟨fun x => if 102400 ≤ x ∧ x < 102400 + btocru n * 1024 then 0 else u.mem.byte x⟩ })
  else (none, { u with u_error := 12 })

lemma clearSegment_allocates : Allocates clearSegment oneArg.u := by
  intro n sp u' hs
  unfold clearSegment at hs
  by_cases hn : btocru n ≤ 32
  · rw [if_pos hn] at hs
    cases hs
    have hmap : ∀ a x, oneArg.u.map a = some x → x < 102400 := fun a x hx => by
      simp only [oneArg] at hx
      split_ifs at hx
      have hx' := Option.some.inj hx
      omega
    have hlo : (⟨btocru n, 100⟩ : SEG).lo = 102400 := by
      unfold SEG.lo ctob
      norm_num
    refine ⟨rfl, by dsimp only; omega, ?_, fun a x hx => .inl (by rw [hlo]; exact hmap a x hx)⟩
    refine congrArg (View.mk · bump) (funext fun a => ?_)
    rcases hx : oneArg.u.map a with _ | x
    · simp only [Option.map_none]
    · have hlt := hmap a x hx
      simp only [Option.map_some]
      rw [if_neg (by omega)]
  · rw [if_neg hn] at hs
    cases hs

theorem exec_arguments_one :
    (∃ r, exstack clearSegment oneArg.u 50331648 0 = some r) ∧
    (∀ sp usp u', exstack clearSegment oneArg.u 50331648 0 = some (some (sp, usp), u') →
      ∃ la le la' le' u1, Vecs oneArg.u.view 50331648 la ∧ Vecs oneArg.u.view 0 le ∧
        Startup (stack sp u'.mem) usp la' le' ∧
        la'.map Prod.snd = la.map Prod.snd ∧ le'.map Prod.snd = le.map Prod.snd ∧
        (∀ e ∈ la' ++ le', ∃ x, uproto sp e.1 = some x ∧ sp.lo ≤ x ∧
          x + e.2.length + 1 ≤ sp.hi) ∧
        clearSegment (need la le + ISTSIZE) oneArg.u = (some sp, u1) ∧ Keeps sp u1.mem u'.mem) ∧
    (∀ la le, Vecs oneArg.u.view 50331648 la → Vecs oneArg.u.view 0 le →
      MADSIZE < need la le + ISTSIZE →
      ∃ u', u'.u_error ≠ 0 ∧ exstack clearSegment oneArg.u 50331648 0 = some (none, u')) ∧
    (∀ u', exstack clearSegment oneArg.u 50331648 0 = some (none, u') →
      pexece clearSegment true (fun _ p => p) (some (.user false)) oneArg 50331648 0 =
        some { oneArg with u := u' }) :=
  exec_arguments clearSegment_allocates 50331648 0

end Coherent.Exstack
