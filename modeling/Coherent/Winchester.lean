import Coherent.Lib.Linked
import Coherent.Lib.Run

/-!
The queue of the Winchester driver: `wdblock`, `wdstart` and `wdintr`.

Each drive has a queue of buffers, linked by `b_actf`, and the drives with work are in a chain,
linked by `wdu_forw`. The request at the head of the queue of the first drive of the chain is
the one that is transferred. The driver neither retries nor times out: the controller answers
each command with one interrupt, and a request it reports an error for is given up.

What is copied through the aligned buffer is left out. A loop that follows pointers has a bound
on its turns here, and no result beyond it.
-/

namespace Coherent.Wd

open Coherent.Lib

def NDRIVES : ℕ := 4
def NHDISKS : ℕ := 2
def NFBLK : ℕ := 2392
def MAXBLKCNT : ℕ := 255
def NPSEUDO : ℕ := 16
def NODEV : ℕ := 65535
def WDREAD : ℕ := 0x08
def WDWRITE : ℕ := 0x0A
def CFFMT : ℕ := 0x04
def WDBUFPADDR : ℕ := 0x80400

/-- The requests: `FMTCMD` is the driver's own, from `wdioctl`. -/
inductive Req
  | BREAD
  | BWRITE
  | FMTCMD
  deriving DecidableEq

/-- A buffer header. The flags are `BFNTP`, `BFERR`, `BFASY` and `BFRAW` of `b_flag`. -/
structure Buf where
  b_actf : Option ℕ
  b_ntp : Bool
  b_err : Bool
  b_asy : Bool
  b_raw : Bool
  b_dev : ℕ
  b_bno : ℤ
  b_req : Req
  b_count : ℕ
  b_resid : ℕ
  b_paddr : ℕ

/-- The command block, byte by byte. -/
structure Wdcmd where
  c_op : ℕ
  c_lunhiaddr : ℕ
  c_midaddr : ℕ
  c_lowaddr : ℕ
  c_blockcnt : ℕ
  c_highdma : ℕ
  c_middma : ℕ
  c_lowdma : ℕ
  c_errorbits : ℕ

/-- The header of a drive. -/
structure Wdu where
  wdu_active : Bool
  wdu_forw : Option ℕ
  wdu_actf : Option ℕ

/-- The header of the controller. -/
structure Wdtab where
  wdu_active : Bool
  wdu_dma_aligned : Bool
  wdu_forw : Option ℕ
  wdu_back : Option ℕ
  wdu_paddr : ℕ

/-- A command given to the controller, and the request it is for. -/
structure Sent where
  dev : ℕ
  req : Req
  cmd : Wdcmd

/-- A request given to `bdone`: how many bytes it had asked for, what `bdone` found in the
buffer, and how many blocks were transferred. -/
structure Done where
  bp : ℕ
  req : Req
  asked : ℕ
  err : Bool
  resid : ℕ
  moved : ℕ
  deriving DecidableEq

/-- The state of the driver, with the requests it was given and what came of them. -/
structure St where
  NBUFS : ℕ
  buf : ℕ → Buf
  wdtab : Wdtab
  wdutab : ℕ → Wdu
  /-- the command block of the hard disks -/
  wd : Wdcmd
  /-- the command block of the floppy disks -/
  cf : Wdcmd
  given : ℕ → ℕ
  asked : ℕ → ℕ
  sent : List Sent
  done : List Done

def minor (dev : ℕ) : ℕ := dev % 256
def drive (mdev : ℕ) : ℕ := mdev / 16
def pseudo (mdev : ℕ) : ℕ := mdev % 16

/-- Where the partitions of a hard disk start. -/
def bstart (pd : ℕ) : ℕ :=
  [0, 10336, 20672, 31008, 0, 0, 0, 0, 0, 0, 0, 0, 0, 0, 0, 0].getD pd 0

/-- The sizes of the partitions of a hard disk. -/
def bcount (pd : ℕ) : ℕ :=
  [10336, 10336, 10336, 10336, 0, 0, 0, 0, 0, 0, 0, 0, 0, 0, 0, 41344].getD pd 0

/-- The number of blocks of the medium. -/
def bsize (mdev : ℕ) : ℕ := if drive mdev < NHDISKS then bcount (pseudo mdev) else NFBLK

def setBuf (s : St) (bp : ℕ) (b : Buf) : St := { s with buf := Function.update s.buf bp b }
def setUnit (s : St) (d : ℕ) (w : Wdu) : St := { s with wdutab := Function.update s.wdutab d w }

/-- The I/O on the buffer has completed, with `moved` blocks transferred. An asynchronous one
is released. -/
def bdone (s : St) (bp moved : ℕ) : St :=
  let b := s.buf bp
  let dev := if b.b_req = .BREAD ∧ b.b_err then NODEV else b.b_dev
  { setBuf s bp { b with
      b_ntp := false
      b_asy := false
      b_err := b.b_err && !b.b_asy
      b_dev := if b.b_asy ∧ b.b_err then NODEV else dev } with
    done := s.done ++ [Done.mk bp b.b_req (s.asked bp) b.b_err b.b_resid moved] }

/-- The error of a request. -/
def failed (s : St) (bp : ℕ) : St := setBuf s bp { s.buf bp with b_err := true }

/-- The block of the device, given a buffer. -/
def wdbno (b : Buf) : ℤ :=
  if drive (minor b.b_dev) ≥ NHDISKS then b.b_bno else b.b_bno + bstart (pseudo (minor b.b_dev))

/-- The loop of `disksort`: the buffer behind which block `bno` goes. -/
def weave (s : St) (bno : ℤ) : ℕ → ℕ → Option ℕ
  | 0, _ => none
  | n + 1, last =>
    match (s.buf last).b_actf with
    | none => some last
    | some next =>
      if (wdbno (s.buf last) ≤ bno ∧ bno ≤ wdbno (s.buf next)) ∨
          (wdbno (s.buf last) ≥ bno ∧ bno ≥ wdbno (s.buf next)) then some last
      else weave s bno n next

/-- Sort the request into the queue of drive `d`. -/
def disksort (s : St) (d bp : ℕ) (bno : ℤ) : Option St :=
  match (s.wdutab d).wdu_actf with
  | none => some (setBuf (setUnit s d { s.wdutab d with wdu_actf := some bp }) bp
      { s.buf bp with b_actf := none })
  | some next => (weave s bno s.NBUFS next).map fun last =>
      let next := (s.buf last).b_actf
      let s := setBuf s last { s.buf last with b_actf := some bp }
      setBuf s bp { s.buf bp with b_actf := next }

/-- Put drive `d` at the end of the chain of the controller, unless it is there or has no work.
A chain that is not empty has a last drive. -/
def wdustart (s : St) (d : ℕ) : St :=
  if (s.wdutab d).wdu_active then s
  else match (s.wdutab d).wdu_actf with
    | none => s
    | some _ =>
      let s := setUnit s d { s.wdutab d with wdu_active := true }
      let s := match s.wdtab.wdu_forw, s.wdtab.wdu_back with
        | some _, some back => setUnit s back { s.wdutab back with wdu_forw := some d }
        | _, _ => { s with wdtab := { s.wdtab with wdu_forw := some d } }
      let s := { s with wdtab := { s.wdtab with wdu_back := some d } }
      setUnit s d { s.wdutab d with wdu_forw := none }

/-- The command of a transfer. -/
def command (b : Buf) (aligned : Bool) (paddr : ℕ) : Wdcmd :=
  let d := drive (minor b.b_dev)
  let a := (b.b_bno + bstart (pseudo (minor b.b_dev))).toNat
  let hi := a / 65536 % 256
  let dma := if aligned then paddr else WDBUFPADDR
  { c_op := if b.b_req = .BREAD then WDREAD else WDWRITE
    c_lunhiaddr := if d = 1 ∨ d = NHDISKS + 1 then hi ||| 32 else hi
    c_midaddr := a / 256 % 256
    c_lowaddr := a % 256
    c_blockcnt := b.b_count / 512 % 256
    c_highdma := dma / 65536 % 256
    c_middma := dma / 256 % 256
    c_lowdma := dma % 256
    c_errorbits := 0xFF }

/-- The command that formats a floppy disk. -/
def wdformat (b : Buf) : Wdcmd :=
  { c_op := CFFMT
    c_lunhiaddr := drive b.b_dev * 32 % 256
    c_midaddr := 0
    c_lowaddr := 0
    c_blockcnt := 0
    c_highdma := WDBUFPADDR / 65536 % 256
    c_middma := WDBUFPADDR / 256 % 256
    c_lowdma := 0
    c_errorbits := 0xFF }

/-- The buffer cannot be reached by the controller. -/
def dmaError (b : Buf) : Bool := b.b_paddr % 512 ≠ 0 ∧ (b.b_raw ∨ b.b_count > 512)

/-- Give the controller a command, if it has none and there is work. `false` says that a
request was given up instead. The first drive of the chain has a request. -/
def wdstart (s : St) : Bool × St :=
  if s.wdtab.wdu_active then (true, s)
  else match s.wdtab.wdu_forw with
    | none => (true, s)
    | some w =>
      match (s.wdutab w).wdu_actf with
      | none => (true, s)
      | some bp =>
        let b := s.buf bp
        let d := drive (minor b.b_dev)
        let aligned : Bool := b.b_paddr % 512 = 0
        let s := { s with wdtab := { s.wdtab with
          wdu_paddr := b.b_paddr
          wdu_dma_aligned := aligned } }
        if dmaError b then
          let s := setUnit s w { s.wdutab w with wdu_active := false }
          let s := setUnit s w { s.wdutab w with wdu_actf := b.b_actf }
          let s := { s with wdtab := { s.wdtab with wdu_forw := (s.wdutab w).wdu_forw } }
          (false, wdustart (bdone (failed s bp) bp 0) d)
        else
          let cmd := if b.b_req = .FMTCMD then wdformat b else command b aligned b.b_paddr
          let s := { s with
            wdtab := { s.wdtab with wdu_active := true }
            sent := s.sent ++ [Sent.mk b.b_dev b.b_req cmd] }
          (true, if d ≥ NHDISKS then { s with cf := cmd } else { s with wd := cmd })

/-- `while (!wdstart())` -/
def wdstarts : ℕ → St → Option St
  | 0, _ => none
  | n + 1, s => if (wdstart s).1 then some (wdstart s).2 else wdstarts n (wdstart s).2

/-- How many blocks `wdblock` lets the request have. -/
def clip (b : Buf) : ℕ :=
  let n := min (b.b_count / 512) MAXBLKCNT
  if b.b_bno < 0 ∨ b.b_bno ≥ bsize (minor b.b_dev) then 0
  else if b.b_bno + n > bsize (minor b.b_dev) then bsize (minor b.b_dev) - b.b_bno.toNat
  else n

/-- The request, clipped: what is not transferred goes to `b_resid`. -/
def clipped (b : Buf) : Buf :=
  { b with
    b_resid := b.b_count - clip b * 512
    b_count := clip b * 512 }

/-- There is no such drive or partition. -/
def noDevice (mdev : ℕ) : Prop :=
  drive mdev ≥ NDRIVES ∨ (drive mdev < NHDISKS ∧ pseudo mdev ≥ NPSEUDO) ∨
    (drive mdev ≥ NHDISKS ∧ pseudo mdev ≠ 0)

instance (mdev : ℕ) : Decidable (noDevice mdev) := by unfold noDevice; infer_instance

/-- The end of `wdblock`, with the request clipped. -/
def enqueue (s : St) (bp : ℕ) : Option St :=
  let b := s.buf bp
  let d := drive (minor b.b_dev)
  let bno := if d < NHDISKS then b.b_bno + bstart (pseudo (minor b.b_dev)) else b.b_bno
  (disksort s d bp bno).bind fun s => wdstarts (s.NBUFS + 1) (wdustart s d)

/-- Block I/O. -/
def wdblock (s : St) (bp : ℕ) : Option St :=
  let b := s.buf bp
  if noDevice (minor b.b_dev) then some (bdone (failed s bp) bp 0)
  else
    let nblk := clip b
    if b.b_raw = false then
      if nblk ≠ b.b_count / 512 then some (bdone (failed s bp) bp 0)
      else enqueue (setBuf s bp { b with b_resid := 0 }) bp
    else
      let s := setBuf s bp (clipped b)
      if nblk = 0 then some (bdone s bp 0) else enqueue s bp

/-- The command block of drive `d`. -/
def cmdblk (s : St) (d : ℕ) : Wdcmd := if d ≥ NHDISKS then s.cf else s.wd

/-- An error: the request is given up. -/
def wdharderr (s : St) (bp moved : ℕ) : St :=
  let d := drive (minor (s.buf bp).b_dev)
  let s := setUnit s d { s.wdutab d with wdu_actf := (s.buf bp).b_actf }
  bdone (failed s bp) bp moved

/-- An interrupt. The controller has left `e` in the command block that it was given last, and
has transferred `moved` blocks for it. -/
def wdintr (s : St) (e moved : ℕ) : Option St :=
  let s' :=
    if s.wdtab.wdu_active then
      match s.wdtab.wdu_forw with
      | none => s
      | some w =>
        match (s.wdutab w).wdu_actf with
        | none => s
        | some bp =>
          let d := drive (minor (s.buf bp).b_dev)
          let s :=
            if e &&& 0x7F = 0 then
              bdone (setUnit s w { s.wdutab w with wdu_actf := (s.buf bp).b_actf }) bp moved
            else wdharderr s bp moved
          let s := setUnit s w { s.wdutab w with wdu_active := false }
          let s := { s with wdtab := { s.wdtab with
            wdu_forw := (s.wdutab w).wdu_forw
            wdu_active := false } }
          wdustart s d
    else s
  wdstarts (s'.NBUFS + 1) s'

/-! ### What holds of the queues -/

/-- How often a buffer was given to `bdone`. -/
def completed (s : St) (b : ℕ) : ℕ := s.done.countP fun x => x.bp = b

/-- A request as it is in a queue. -/
structure Ready (b : Buf) (asked : ℕ) : Prop where
  dev : ¬ noDevice (minor b.b_dev)
  low : 0 ≤ b.b_bno
  high : b.b_bno + (b.b_count / 512 : ℕ) ≤ bsize (minor b.b_dev)
  cnt : b.b_count / 512 ≤ MAXBLKCNT
  whole : b.b_count % 512 = 0
  resid : b.b_resid + b.b_count = asked
  fmt : b.b_req = .FMTCMD → NHDISKS ≤ drive (minor b.b_dev)

/-- The first sector that a command is for. -/
def sector (c : Wdcmd) : ℕ := c.c_lunhiaddr % 32 * 65536 + c.c_midaddr * 256 + c.c_lowaddr

/-- Where the partition of a minor device starts on its drive. -/
def pstart (mdev : ℕ) : ℕ := if drive mdev < NHDISKS then bstart (pseudo mdev) else 0

/-- The command is for the drive of the request, and for sectors of its partition. Only the
command that formats a floppy disk has no sectors. -/
def Inside (x : Sent) : Prop :=
  if x.req = .FMTCMD then x.cmd.c_op = CFFMT ∧ NHDISKS ≤ drive (minor x.dev)
  else x.cmd.c_lunhiaddr / 32 = drive (minor x.dev) % 2 ∧ pstart (minor x.dev) ≤ sector x.cmd ∧
    sector x.cmd + x.cmd.c_blockcnt ≤ pstart (minor x.dev) + bsize (minor x.dev)

instance (x : Sent) : Decidable (Inside x) := by unfold Inside; infer_instance

/-- What was not transferred of the request is in `b_resid`. -/
def Told (x : Done) : Prop := x.req ≠ .FMTCMD → x.resid + 512 * x.moved = x.asked

instance (x : Done) : Decidable (Told x) := by unfold Told; infer_instance

/-- The queues `q` of the drives, the chain `c` of the drives with work, the buffers the driver
has in its hand, and a drive that may have work and not yet be in the chain. -/
structure Ok (s : St) (q : ℕ → List ℕ) (c hand : List ℕ) (late : Option ℕ) : Prop where
  queue : ∀ d < NDRIVES, Linked (fun b => (s.buf b).b_actf) (s.wdutab d).wdu_actf (q d)
  ready : ∀ d < NDRIVES, ∀ b ∈ q d,
    b < s.NBUFS ∧ drive (minor (s.buf b).b_dev) = d ∧ Ready (s.buf b) (s.asked b)
  ntp : ∀ b, (s.buf b).b_ntp = true ↔ (∃ d < NDRIVES, b ∈ q d) ∨ b ∈ hand
  out : ∀ b ∈ hand, ∀ d < NDRIVES, b ∉ q d
  chain : Linked (fun d => (s.wdutab d).wdu_forw) s.wdtab.wdu_forw c
  back : ∀ d, c.getLast? = some d → s.wdtab.wdu_back = some d
  drives : ∀ d ∈ c, d < NDRIVES ∧ q d ≠ []
  active : ∀ d < NDRIVES, ((s.wdutab d).wdu_active = true ↔ d ∈ c)
  work : ∀ d < NDRIVES, q d ≠ [] → d ∈ c ∨ late = some d
  given : ∀ b, s.given b = completed s b + if (s.buf b).b_ntp then 1 else 0
  sent : ∀ x ∈ s.sent, Inside x
  done : ∀ x ∈ s.done, x.err = false → Told x

variable {s : St} {q : ℕ → List ℕ} {c hand : List ℕ} {late : Option ℕ} {d b : ℕ}

/-- A buffer is in the queue of its own drive. -/
lemma Ok.only (h : Ok s q c hand late) {e : ℕ} (hd : d < NDRIVES) (he : e < NDRIVES) (hb : b ∈ q d)
    (hb' : b ∈ q e) : d = e :=
  (h.ready d hd b hb).2.1.symm.trans (h.ready e he b hb').2.1

/-- Changes to a buffer in hand. -/
lemma Ok.touch (x : Buf) (h : Ok s q c [b] late) (hx : x.b_ntp = true) : Ok (setBuf s b x) q c [b] late := by
  have hne : ∀ d < NDRIVES, ∀ a ∈ q d, a ≠ b := by
    rintro d hd a ha rfl
    exact h.out a (by simp) d hd ha
  have hb : (s.buf b).b_ntp = true := (h.ntp b).mpr (Or.inr (by simp))
  have hntp : ∀ a, ((setBuf s b x).buf a).b_ntp = (s.buf a).b_ntp := by
    intro a
    by_cases ha : a = b
    · rw [ha, hb]
      simp [setBuf, hx]
    · simp [setBuf, Function.update_of_ne ha]
  refine ⟨fun d hd => ?_, fun d hd a ha => ?_, fun a => ?_, h.out, h.chain, h.back, h.drives, h.active,
    h.work, fun a => ?_, h.sent, h.done⟩
  · refine (h.queue d hd).congr fun a ha => ?_
    simp [setBuf, Function.update_of_ne (hne d hd a ha)]
  · simpa [setBuf, Function.update_of_ne (hne d hd a ha)] using h.ready d hd a ha
  · rw [hntp]
    exact h.ntp a
  · rw [hntp]
    exact h.given a

/-- The buffer in hand is done. -/
lemma Ok.bdone (h : Ok s q c [b] late) (moved : ℕ)
    (hm : (s.buf b).b_err = false → (s.buf b).b_req ≠ .FMTCMD →
      (s.buf b).b_resid + 512 * moved = s.asked b) : Ok (bdone s b moved) q c [] late := by
  have hne : ∀ d < NDRIVES, ∀ a ∈ q d, a ≠ b := by
    rintro d hd a ha rfl
    exact h.out a (by simp) d hd ha
  have hb : (s.buf b).b_ntp = true := (h.ntp b).mpr (Or.inr (by simp))
  have hof : ∀ a, a ≠ b → (Wd.bdone s b moved).buf a = s.buf a := by
    intro a ha
    simp [Wd.bdone, setBuf, Function.update_of_ne ha]
  have hself : ((Wd.bdone s b moved).buf b).b_ntp = false := by simp [Wd.bdone, setBuf]
  refine ⟨fun d hd => ?_, fun d hd a ha => ?_, fun a => ?_, by simp, h.chain, h.back, h.drives, h.active,
    h.work, fun a => ?_, h.sent, ?_⟩
  · refine (h.queue d hd).congr fun a ha => ?_
    rw [hof a (hne d hd a ha)]
  · rw [hof a (hne d hd a ha)]
    exact h.ready d hd a ha
  · by_cases ha : a = b
    · rw [ha, hself]
      refine iff_of_false (by simp) ?_
      rintro (⟨d, hd, hbd⟩ | hbn)
      · exact hne d hd b hbd rfl
      · exact absurd hbn (List.not_mem_nil)
    · rw [hof a ha, h.ntp a]
      simp [ha]
  · have hg := h.given a
    have hcount : completed (Wd.bdone s b moved) a = completed s a + if b = a then 1 else 0 := by
      simp [completed, Wd.bdone, List.countP_append, List.countP_cons]
    by_cases ha : a = b
    · rw [ha] at hg hcount ⊢
      rw [hcount, hself]
      rw [hb] at hg
      change s.given b = _
      simpa using hg
    · rw [hcount, hof a ha, if_neg (Ne.symm ha)]
      exact hg
  · intro x hx
    rcases List.mem_append.mp hx with hx | hx
    · exact h.done x hx
    · obtain rfl := List.mem_singleton.mp hx
      exact hm

/-- The buffer in hand is done with an error. -/
lemma Ok.fail (h : Ok s q c [b] late) (moved : ℕ) : Ok (Wd.bdone (failed s b) b moved) q c [] late := by
  have hb : (s.buf b).b_ntp = true := (h.ntp b).mpr (Or.inr (by simp))
  refine Ok.bdone (h.touch { s.buf b with b_err := true } hb) moved fun he => ?_
  simp [setBuf] at he

/-! ### Sorting a request into a queue -/

/-- `disksort` goes behind some buffer of the queue. -/
lemma weave_mem (bno : ℤ) {n last : ℕ} {l : List ℕ}
    (hl : Linked (fun b => (s.buf b).b_actf) (s.buf last).b_actf l) (hn : l.length < n) :
    ∃ x l₁ l₂, weave s bno n last = some x ∧ last :: l = l₁ ++ x :: l₂ := by
  induction l generalizing n last with
  | nil =>
    obtain ⟨n, rfl⟩ := Nat.exists_eq_succ_of_ne_zero (by omega : n ≠ 0)
    have h0 : (s.buf last).b_actf = none := hl
    exact ⟨last, [], [], by simp [weave, h0], rfl⟩
  | cons a l ih =>
    obtain ⟨n, rfl⟩ := Nat.exists_eq_succ_of_ne_zero (by omega : n ≠ 0)
    rw [List.length_cons] at hn
    obtain ⟨x, l₁, l₂, hx, hl₁⟩ := ih (n := n) hl.2 (by omega)
    have ha : (s.buf last).b_actf = some a := hl.1
    rw [weave, ha]
    dsimp only
    split_ifs
    · exact ⟨last, [], a :: l, rfl, rfl⟩
    · exact ⟨x, last :: l₁, l₂, hx, by rw [hl₁]; rfl⟩

/-- What sorting leaves: all but the links of the buffers and the heads of the queues. -/
structure Sorted (s s' : St) : Prop where
  wdtab : s'.wdtab = s.wdtab
  wd : s'.wd = s.wd
  cf : s'.cf = s.cf
  size : s'.NBUFS = s.NBUFS
  buf : ∀ a, s'.buf a = { s.buf a with b_actf := (s'.buf a).b_actf }
  logs : s'.given = s.given ∧ s'.asked = s.asked ∧ s'.sent = s.sent ∧ s'.done = s.done
  wdutab : ∀ e, (s'.wdutab e).wdu_forw = (s.wdutab e).wdu_forw ∧
    (s'.wdutab e).wdu_active = (s.wdutab e).wdu_active

lemma Ok.length_le (h : Ok s q c hand late) (hd : d < NDRIVES) : (q d).length ≤ s.NBUFS := by
  have hsub : (q d).toFinset ⊆ Finset.range s.NBUFS := by
    intro a ha
    exact Finset.mem_range.mpr (h.ready d hd a (List.mem_toFinset.mp ha)).1
  have hcard := Finset.card_le_card hsub
  rwa [List.toFinset_card_of_nodup (h.queue d hd).nodup, Finset.card_range] at hcard

/-- The buffer in hand is linked into the queue of its drive. -/
lemma Ok.link {s' : St} {l : List ℕ} (h : Ok s q c [b] none) (hd : d < NDRIVES) (hb : b < s.NBUFS)
    (hbd : drive (minor (s.buf b).b_dev) = d) (hr : Ready (s.buf b) (s.asked b)) (hs : Sorted s s')
    (hmem : ∀ a, a ∈ l ↔ a ∈ q d ∨ a = b)
    (hl : Linked (fun b => (s'.buf b).b_actf) (s'.wdutab d).wdu_actf l)
    (hother : ∀ e < NDRIVES, e ≠ d → (s'.wdutab e).wdu_actf = (s.wdutab e).wdu_actf ∧
      ∀ a ∈ q e, (s'.buf a).b_actf = (s.buf a).b_actf) :
    Ok s' (Function.update q d l) c [] (some d) := by
  have hready : ∀ a e, (a < s.NBUFS ∧ drive (minor (s.buf a).b_dev) = e ∧ Ready (s.buf a) (s.asked a)) →
      a < s'.NBUFS ∧ drive (minor (s'.buf a).b_dev) = e ∧ Ready (s'.buf a) (s'.asked a) := by
    rintro a e ⟨h1, h2, h3⟩
    rw [hs.size, hs.logs.2.1, hs.buf a]
    exact ⟨h1, h2, h3.dev, h3.low, h3.high, h3.cnt, h3.whole, h3.resid, h3.fmt⟩
  have hntp : ∀ a, (s'.buf a).b_ntp = (s.buf a).b_ntp := by
    intro a
    rw [hs.buf a]
  have hforw : (fun e => (s'.wdutab e).wdu_forw) = fun e => (s.wdutab e).wdu_forw :=
    funext fun e => (hs.wdutab e).1
  refine ⟨fun e he => ?_, fun e he a ha => ?_, fun a => ?_, by simp, ?_, ?_, fun e he => ?_, fun e he => ?_,
    fun e he hne => ?_, fun a => ?_, ?_, ?_⟩
  · by_cases hed : e = d
    · rw [hed, Function.update_self]
      exact hl
    · rw [Function.update_of_ne hed, (hother e he hed).1]
      exact (h.queue e he).congr (hother e he hed).2
  · refine hready a e ?_
    by_cases hed : e = d
    · rw [hed, Function.update_self] at ha
      rw [hed]
      rcases (hmem a).mp ha with ha | rfl
      · exact h.ready d hd a ha
      · exact ⟨hb, hbd, hr⟩
    · rw [Function.update_of_ne hed] at ha
      exact h.ready e he a ha
  · rw [hntp, h.ntp a]
    constructor
    · rintro (⟨e, he, ha⟩ | ha)
      · refine Or.inl ⟨e, he, ?_⟩
        by_cases hed : e = d
        · rw [hed] at ha
          rw [hed, Function.update_self]
          exact (hmem a).mpr (Or.inl ha)
        · rwa [Function.update_of_ne hed]
      · refine Or.inl ⟨d, hd, ?_⟩
        rw [Function.update_self]
        exact (hmem a).mpr (Or.inr (List.mem_singleton.mp ha))
    · rintro (⟨e, he, ha⟩ | ha)
      · by_cases hed : e = d
        · rw [hed, Function.update_self] at ha
          rcases (hmem a).mp ha with ha | rfl
          · exact Or.inl ⟨d, hd, ha⟩
          · exact Or.inr (by simp)
        · rw [Function.update_of_ne hed] at ha
          exact Or.inl ⟨e, he, ha⟩
      · exact absurd ha (List.not_mem_nil)
  · rw [hforw, hs.wdtab]
    exact h.chain
  · rw [hs.wdtab]
    exact h.back
  · obtain ⟨h1, h2⟩ := h.drives e he
    refine ⟨h1, ?_⟩
    by_cases hed : e = d
    · rw [hed, Function.update_self]
      exact List.ne_nil_of_mem ((hmem b).mpr (Or.inr rfl))
    · rwa [Function.update_of_ne hed]
  · rw [(hs.wdutab e).2]
    exact h.active e he
  · by_cases hed : e = d
    · exact Or.inr (by rw [hed])
    · rw [Function.update_of_ne hed] at hne
      exact Or.inl ((h.work e he hne).resolve_right (by simp))
  · rw [hs.logs.1, hntp, completed, hs.logs.2.2.2]
    exact h.given a
  · rw [hs.logs.2.2.1]
    exact h.sent
  · rw [hs.logs.2.2.2]
    exact h.done

/-- `disksort` leaves the request at the head of a queue there. -/
lemma Ok.disksort (h : Ok s q c [b] none) (hd : d < NDRIVES) (hb : b < s.NBUFS)
    (hbd : drive (minor (s.buf b).b_dev) = d) (hr : Ready (s.buf b) (s.asked b)) (bno : ℤ) :
    ∃ s' l, disksort s d b bno = some s' ∧ Ok s' (Function.update q d l) c [] (some d) ∧
      Sorted s s' ∧ l ≠ [] ∧ ∀ a t, q d = a :: t → ∃ t', l = a :: t' := by
  have hbq : ∀ e < NDRIVES, b ∉ q e := h.out b (by simp)
  have hq := h.queue d hd
  unfold Wd.disksort
  cases hw : (s.wdutab d).wdu_actf with
  | none =>
    -- the first of the queue
    have hnil : q d = [] := hq.eq_none_iff.mp hw
    have hsorted : Sorted s (setBuf (setUnit s d { s.wdutab d with wdu_actf := some b }) b
        { s.buf b with b_actf := none }) := by
      refine ⟨rfl, rfl, rfl, rfl, fun a => ?_, ⟨rfl, rfl, rfl, rfl⟩, fun e => ?_⟩
      · by_cases ha : a = b
        · simp [setBuf, setUnit, ha]
        · simp [setBuf, setUnit, Function.update_of_ne ha]
      · by_cases he : e = d
        · simp [setBuf, setUnit, he]
        · simp [setBuf, setUnit, Function.update_of_ne he]
    refine ⟨_, [b], rfl, h.link hd hb hbd hr hsorted (fun a => by simp [hnil]) ?_ fun e he hed => ?_,
      hsorted, by simp, fun a t hat => ?_⟩
    · simp [setBuf, setUnit, Linked]
    · refine ⟨by simp [setBuf, setUnit, Function.update_of_ne hed], fun a ha => ?_⟩
      have hab : a ≠ b := by
        rintro rfl
        exact hbq e he ha
      simp [setBuf, setUnit, Function.update_of_ne hab]
    · rw [hnil] at hat
      exact absurd hat (by simp)
  | some first =>
    obtain ⟨t, ht⟩ : ∃ t, q d = first :: t := by
      cases hqd : q d with
      | nil =>
        rw [hqd] at hq
        exact absurd (hw.symm.trans hq) (by simp)
      | cons a t =>
        rw [hqd] at hq
        exact ⟨t, by rw [Option.some.inj (hw.symm.trans hq.1)]⟩
    have hlen := h.length_le hd
    rw [ht] at hq hlen
    obtain ⟨x, l₁, l₂, hx, hl⟩ := weave_mem bno hq.2 (by simpa using hlen : t.length < s.NBUFS)
    have hxb : b ≠ x := by
      rintro rfl
      exact hbq d hd (by rw [ht, hl]; simp)
    have hsorted : Sorted s (let s' := setBuf s x { s.buf x with b_actf := some b }
        setBuf s' b { s'.buf b with b_actf := (s.buf x).b_actf }) := by
      refine ⟨rfl, rfl, rfl, rfl, fun a => ?_, ⟨rfl, rfl, rfl, rfl⟩, fun e => ⟨rfl, rfl⟩⟩
      by_cases ha : a = b
      · simp [setBuf, ha, Function.update_of_ne hxb]
      · by_cases hax : a = x
        · simp [setBuf, hax, Function.update_of_ne (Ne.symm hxb)]
        · simp [setBuf, Function.update_of_ne ha, Function.update_of_ne hax]
    have hnext : (fun a => ((let s' := setBuf s x { s.buf x with b_actf := some b }
        setBuf s' b { s'.buf b with b_actf := (s.buf x).b_actf }).buf a).b_actf) =
        Function.update (Function.update (fun a => (s.buf a).b_actf) b ((fun a => (s.buf a).b_actf) x)) x
          (some b) := by
      funext a
      by_cases ha : a = b
      · simp [setBuf, ha, Function.update_of_ne hxb]
      · by_cases hax : a = x
        · simp [setBuf, hax, Function.update_of_ne (Ne.symm hxb)]
        · simp [setBuf, Function.update_of_ne ha, Function.update_of_ne hax]
    dsimp only
    rw [hx, Option.map_some]
    refine ⟨_, l₁ ++ x :: b :: l₂, rfl, h.link hd hb hbd hr hsorted (fun a => ?_) ?_ fun e he hed => ?_,
      hsorted, by simp, fun a t' hat => ?_⟩
    · rw [ht, hl]
      simp only [List.mem_append, List.mem_cons]
      tauto
    · rw [hnext]
      have hq' := h.queue d hd
      rw [ht, hl] at hq'
      exact hq'.insert (fun hm => hbq d hd (by rw [ht, hl]; exact hm))
    · refine ⟨rfl, fun a ha => ?_⟩
      have hab : a ≠ b := by
        rintro rfl
        exact hbq e he ha
      have hax : a ≠ x := by
        rintro rfl
        exact hed (h.only he hd ha (by rw [ht, hl]; simp))
      simp [setBuf, Function.update_of_ne hab, Function.update_of_ne hax]
    · rw [ht, hl] at hat
      cases l₁ with
      | nil =>
        obtain ⟨rfl, -⟩ := List.cons.inj hat
        exact ⟨b :: l₂, rfl⟩
      | cons y l₁ =>
        obtain ⟨rfl, -⟩ := List.cons.inj hat
        exact ⟨l₁ ++ x :: b :: l₂, rfl⟩

/-! ### The chain of the drives -/

/-- What does not matter for the queues. -/
lemma Ok.header (t : Wdtab) (h : Ok s q c hand late) (hf : t.wdu_forw = s.wdtab.wdu_forw)
    (hb : t.wdu_back = s.wdtab.wdu_back) : Ok { s with wdtab := t } q c hand late := by
  refine ⟨h.queue, h.ready, h.ntp, h.out, ?_, ?_, h.drives, h.active, h.work, h.given, h.sent, h.done⟩
  · change Linked _ t.wdu_forw c
    rw [hf]
    exact h.chain
  · change ∀ d, c.getLast? = some d → t.wdu_back = some d
    rw [hb]
    exact h.back

/-- What putting a drive into the chain leaves. -/
structure Started (s s' : St) : Prop where
  buf : s'.buf = s.buf
  wd : s'.wd = s.wd
  cf : s'.cf = s.cf
  size : s'.NBUFS = s.NBUFS
  active : s'.wdtab.wdu_active = s.wdtab.wdu_active
  logs : s'.given = s.given ∧ s'.asked = s.asked ∧ s'.sent = s.sent ∧ s'.done = s.done
  actf : ∀ e, (s'.wdutab e).wdu_actf = (s.wdutab e).wdu_actf

lemma Ok.started {s' : St} {c' : List ℕ} (h : Ok s q c hand (some d)) (hs : Started s s')
    (hd : d < NDRIVES) (hq : q d ≠ []) (hmem : ∀ e, e ∈ c' ↔ e ∈ c ∨ e = d)
    (hch : Linked (fun e => (s'.wdutab e).wdu_forw) s'.wdtab.wdu_forw c')
    (hback : ∀ e, c'.getLast? = some e → s'.wdtab.wdu_back = some e)
    (hact : ∀ e < NDRIVES, ((s'.wdutab e).wdu_active = true ↔ (s.wdutab e).wdu_active = true ∨ e = d)) :
    Ok s' q c' hand none := by
  refine ⟨fun e he => ?_, ?_, ?_, h.out, hch, hback, fun e he => ?_, fun e he => ?_, fun e he hne => ?_, ?_,
    ?_, ?_⟩
  · rw [hs.actf, hs.buf]
    exact h.queue e he
  · rw [hs.buf, hs.size, hs.logs.2.1]
    exact h.ready
  · rw [hs.buf]
    exact h.ntp
  · rcases (hmem e).mp he with he | rfl
    · exact h.drives e he
    · exact ⟨hd, hq⟩
  · rw [hact e he, hmem e, h.active e he]
  · rcases h.work e he hne with hec | hed
    · exact Or.inl ((hmem e).mpr (Or.inl hec))
    · exact Or.inl ((hmem e).mpr (Or.inr (Option.some.inj hed).symm))
  · unfold completed
    rw [hs.buf, hs.logs.1, hs.logs.2.2.2]
    exact h.given
  · rw [hs.logs.2.2.1]
    exact h.sent
  · rw [hs.logs.2.2.2]
    exact h.done

lemma wdustart_first {x : ℕ} (hna : (s.wdutab d).wdu_active = false)
    (hw : (s.wdutab d).wdu_actf = some x) (hf : s.wdtab.wdu_forw = none) :
    wdustart s d = { s with
      wdtab := { s.wdtab with
        wdu_forw := some d
        wdu_back := some d }
      wdutab := Function.update s.wdutab d ⟨true, none, some x⟩ } := by
  simp [wdustart, hna, hw, hf, setUnit]

lemma wdustart_next {x w last : ℕ} (hna : (s.wdutab d).wdu_active = false)
    (hw : (s.wdutab d).wdu_actf = some x) (hf : s.wdtab.wdu_forw = some w)
    (hb : s.wdtab.wdu_back = some last) (hne : last ≠ d) :
    wdustart s d = { s with
      wdtab := { s.wdtab with wdu_back := some d }
      wdutab := Function.update (Function.update s.wdutab last
        { s.wdutab last with wdu_forw := some d }) d ⟨true, none, some x⟩ } := by
  simp only [wdustart, hna, hw, hf, hb, setUnit, Bool.false_eq_true, if_false, Function.update_self,
    Function.update_of_ne hne, Function.update_of_ne hne.symm]
  congr 1
  funext e
  by_cases hed : e = d
  · simp [hed]
  · by_cases hel : e = last
    · simp [hel, Function.update_of_ne hne]
    · simp [Function.update_of_ne hed, Function.update_of_ne hel]

/-- `wdustart` puts the drive into the chain, if it has work. -/
lemma Ok.wdustart (h : Ok s q c hand (some d)) (hd : d < NDRIVES) :
    ∃ c', Ok (wdustart s d) q c' hand none ∧ Started s (wdustart s d) ∧ c <+: c' := by
  have hrefl : Started s s := ⟨rfl, rfl, rfl, rfl, rfl, ⟨rfl, rfl, rfl, rfl⟩, fun _ => rfl⟩
  by_cases hdc : d ∈ c
  · -- it is there
    refine ⟨c, ?_, ?_, List.prefix_rfl⟩
    · rw [Wd.wdustart, if_pos ((h.active d hd).mpr hdc)]
      refine ⟨h.queue, h.ready, h.ntp, h.out, h.chain, h.back, h.drives, h.active, fun e he hne => ?_,
        h.given, h.sent, h.done⟩
      rcases h.work e he hne with hec | hed
      · exact Or.inl hec
      · rw [← Option.some.inj hed]
        exact Or.inl hdc
    · rw [Wd.wdustart, if_pos ((h.active d hd).mpr hdc)]
      exact hrefl
  have hna : ¬ (s.wdutab d).wdu_active = true := fun ha => hdc ((h.active d hd).mp ha)
  have hna' : (s.wdutab d).wdu_active = false := Bool.eq_false_iff.mpr hna
  cases hw : (s.wdutab d).wdu_actf with
  | none =>
    -- no work
    have hnil : q d = [] := (h.queue d hd).eq_none_iff.mp hw
    rw [Wd.wdustart, if_neg hna, hw]
    refine ⟨c, ⟨h.queue, h.ready, h.ntp, h.out, h.chain, h.back, h.drives, h.active, fun e he hne => ?_,
      h.given, h.sent, h.done⟩, hrefl, List.prefix_rfl⟩
    rcases h.work e he hne with hec | hed
    · exact Or.inl hec
    · rw [← Option.some.inj hed] at hne
      exact absurd hnil hne
  | some x =>
    have hq : q d ≠ [] := fun hnil => by
      rw [(h.queue d hd).eq_none_iff.mpr hnil] at hw
      exact absurd hw (by simp)
    rcases c.eq_nil_or_concat with rfl | ⟨c₀, last, rfl⟩
    · -- the chain was empty
      rw [wdustart_first hna' hw h.chain]
      have hs : Started s { s with
          wdtab := { s.wdtab with
            wdu_forw := some d
            wdu_back := some d }
          wdutab := Function.update s.wdutab d ⟨true, none, some x⟩ } := by
        refine ⟨rfl, rfl, rfl, rfl, rfl, ⟨rfl, rfl, rfl, rfl⟩, fun e => ?_⟩
        by_cases he : e = d
        · simp [he, hw]
        · simp [Function.update_of_ne he]
      refine ⟨[d], h.started hs hd hq (by simp) ⟨rfl, by simp [Linked]⟩ (by simp) fun e _ => ?_, hs,
        List.nil_prefix⟩
      by_cases he : e = d
      · simp [he]
      · simp [he]
    · rw [List.concat_eq_append] at h hdc ⊢
      have hne : last ≠ d := by
        rintro rfl
        exact hdc (by simp)
      obtain ⟨w, hf⟩ : ∃ w, s.wdtab.wdu_forw = some w := by
        cases hf : s.wdtab.wdu_forw with
        | none => exact absurd (h.chain.eq_none_iff.mp hf) (by simp)
        | some w => exact ⟨w, rfl⟩
      rw [wdustart_next hna' hw hf (h.back last (by simp)) hne]
      have hs : Started s { s with
          wdtab := { s.wdtab with wdu_back := some d }
          wdutab := Function.update (Function.update s.wdutab last
            { s.wdutab last with wdu_forw := some d }) d ⟨true, none, some x⟩ } := by
        refine ⟨rfl, rfl, rfl, rfl, rfl, ⟨rfl, rfl, rfl, rfl⟩, fun e => ?_⟩
        by_cases he : e = d
        · simp [he, hw]
        · by_cases hel : e = last
          · simp [hel, Function.update_of_ne hne]
          · simp [Function.update_of_ne he, Function.update_of_ne hel]
      have hrest : Linked (fun e => (s.wdutab e).wdu_forw) (s.wdutab last).wdu_forw [] := h.chain.after
      have hlast : (s.wdutab last).wdu_forw = none := hrest
      have hch : Linked _ _ (c₀ ++ last :: d :: []) := h.chain.insert hdc
      have hforw : (fun e => (Function.update (Function.update s.wdutab last
          { s.wdutab last with wdu_forw := some d }) d ⟨true, none, some x⟩ e).wdu_forw) =
          Function.update (Function.update (fun e => (s.wdutab e).wdu_forw) d
            ((fun e => (s.wdutab e).wdu_forw) last)) last (some d) := by
        funext e
        by_cases he : e = d
        · simp [he, Function.update_of_ne hne.symm, hlast]
        · by_cases hel : e = last
          · simp [hel, Function.update_of_ne hne]
          · simp [Function.update_of_ne he, Function.update_of_ne hel]
      refine ⟨c₀ ++ [last, d], h.started hs hd hq (fun e => ?_) ?_ (by simp) fun e _ => ?_, hs, ?_⟩
      · simp only [List.mem_append, List.mem_cons, List.not_mem_nil, or_false]
        tauto
      · change Linked (fun e => (Function.update (Function.update s.wdutab last
          { s.wdutab last with wdu_forw := some d }) d ⟨true, none, some x⟩ e).wdu_forw) _ _
        rw [hforw]
        exact hch
      · by_cases he : e = d
        · simp [he]
        · by_cases hel : e = last
          · simp [hel, hne]
          · simp [Function.update_of_ne hel, he]
      · exact ⟨[d], by simp⟩

/-! ### Taking a request off its queue -/

/-- The request `b` at the head is off its queue, and its drive is off the chain. -/
def popped (s : St) (d b : ℕ) : St :=
  { s with
    wdutab := Function.update s.wdutab d
      ⟨false, (s.wdutab d).wdu_forw, (s.buf b).b_actf⟩
    wdtab := { s.wdtab with wdu_forw := (s.wdutab d).wdu_forw } }

lemma Ok.pop {l : List ℕ} (h : Ok s q (d :: c) [] none) (hq : q d = b :: l) :
    Ok (popped s d b) (Function.update q d l) c [b] (some d) := by
  have hd := (h.drives d (by simp)).1
  have hqd := h.queue d hd
  rw [hq] at hqd
  have hnd := hqd.nodup
  have hcnd := h.chain.nodup
  have hdc : d ∉ c := (List.nodup_cons.mp hcnd).1
  have hsub : ∀ e, Function.update q d l e ⊆ q e := by
    intro e a ha
    by_cases he : e = d
    · rw [he, Function.update_self] at ha
      rw [he, hq]
      exact List.mem_cons_of_mem b ha
    · rwa [Function.update_of_ne he] at ha
  have hforw : (fun e => ((popped s d b).wdutab e).wdu_forw) = fun e => (s.wdutab e).wdu_forw := by
    funext e
    by_cases he : e = d
    · simp [popped, he]
    · simp [popped, Function.update_of_ne he]
  refine ⟨fun e he => ?_, fun e he a ha => h.ready e he a (hsub e ha), fun a => ?_, fun a ha e he => ?_, ?_,
    fun e hlast => ?_, fun e he => ?_, fun e he => ?_, fun e he hne => ?_, h.given, h.sent, h.done⟩
  · by_cases hed : e = d
    · rw [hed, Function.update_self]
      simpa [popped] using hqd.2
    · rw [Function.update_of_ne hed]
      simpa [popped, Function.update_of_ne hed] using h.queue e he
  · change (s.buf a).b_ntp = true ↔ _
    rw [h.ntp a]
    constructor
    · rintro (⟨e, he, ha⟩ | ha)
      · by_cases hab : a = b
        · exact Or.inr (by simp [hab])
        · refine Or.inl ⟨e, he, ?_⟩
          by_cases hed : e = d
          · rw [hed, hq] at ha
            rw [hed, Function.update_self]
            exact (List.mem_cons.mp ha).resolve_left hab
          · rwa [Function.update_of_ne hed]
      · exact absurd ha (List.not_mem_nil)
    · rintro (⟨e, he, ha⟩ | ha)
      · exact Or.inl ⟨e, he, hsub e ha⟩
      · rw [List.mem_singleton.mp ha]
        exact Or.inl ⟨d, hd, by simp [hq]⟩
  · rw [List.mem_singleton.mp ha]
    by_cases hed : e = d
    · rw [hed, Function.update_self]
      exact (List.nodup_cons.mp hnd).1
    · rw [Function.update_of_ne hed]
      exact fun hb => hed (h.only he hd hb (by simp [hq]))
  · rw [hforw]
    exact h.chain.2
  · refine h.back e ?_
    cases c with
    | nil => exact absurd hlast (by simp)
    | cons x c => simpa using hlast
  · obtain ⟨h1, h2⟩ := h.drives e (by simp [he])
    have hed : e ≠ d := by
      rintro rfl
      exact hdc he
    rw [Function.update_of_ne hed]
    exact ⟨h1, h2⟩
  · by_cases hed : e = d
    · rw [hed]
      simpa [popped] using hdc
    · have := h.active e he
      simpa [popped, Function.update_of_ne hed, hed] using this
  · by_cases hed : e = d
    · exact Or.inr (by rw [hed])
    · rw [Function.update_of_ne hed] at hne
      rcases h.work e he hne with hc | hn
      · exact Or.inl ((List.mem_cons.mp hc).resolve_left hed)
      · exact absurd hn (by simp)

lemma Ok.unit_lt (h : Ok s q (d :: c) hand late) : d < NDRIVES := (h.drives d (by simp)).1

/-- The drive at the head of the chain has a request. -/
lemma Ok.head (h : Ok s q (d :: c) hand late) : ∃ b l, q d = b :: l ∧ s.wdtab.wdu_forw = some d ∧
    (s.wdutab d).wdu_actf = some b := by
  obtain ⟨hd, hne⟩ := h.drives d (by simp)
  have hq := h.queue d hd
  cases hqd : q d with
  | nil => exact absurd hqd hne
  | cons b l =>
    rw [hqd] at hq
    exact ⟨b, l, rfl, h.chain.1, hq.1⟩

/-- How many requests are in the queues. -/
def total (q : ℕ → List ℕ) : ℕ := ∑ d ∈ Finset.range NDRIVES, (q d).length

lemma total_pop {l : List ℕ} (hd : d < NDRIVES) (hq : q d = b :: l) :
    total (Function.update q d l) + 1 = total q := by
  have hm : d ∈ Finset.range NDRIVES := Finset.mem_range.mpr hd
  unfold total
  rw [← Finset.add_sum_erase _ _ hm, ← Finset.add_sum_erase _ (fun d => (q d).length) hm]
  have hrest : ∑ e ∈ (Finset.range NDRIVES).erase d, (Function.update q d l e).length =
      ∑ e ∈ (Finset.range NDRIVES).erase d, (q e).length := by
    refine Finset.sum_congr rfl fun e he => ?_
    rw [Function.update_of_ne (Finset.ne_of_mem_erase he)]
  rw [hrest, Function.update_self, hq, List.length_cons]
  omega

lemma Ok.total_le (h : Ok s q c hand late) : total q ≤ s.NBUFS := by
  have hdisj : (Finset.range NDRIVES : Set ℕ).PairwiseDisjoint fun d => (q d).toFinset := by
    intro d hd e he hne
    rw [Function.onFun, Finset.disjoint_left]
    intro a ha ha'
    exact hne (h.only (Finset.mem_range.mp hd) (Finset.mem_range.mp he) (List.mem_toFinset.mp ha)
      (List.mem_toFinset.mp ha'))
  have hcard := Finset.card_biUnion hdisj
  have hsub : (Finset.range NDRIVES).biUnion (fun d => (q d).toFinset) ⊆ Finset.range s.NBUFS := by
    intro a ha
    obtain ⟨d, hd, ha⟩ := Finset.mem_biUnion.mp ha
    exact Finset.mem_range.mpr (h.ready d (Finset.mem_range.mp hd) a (List.mem_toFinset.mp ha)).1
  calc total q = ∑ d ∈ Finset.range NDRIVES, (q d).toFinset.card := by
        refine Finset.sum_congr rfl fun d hd => ?_
        rw [List.toFinset_card_of_nodup (h.queue d (Finset.mem_range.mp hd)).nodup]
    _ = ((Finset.range NDRIVES).biUnion fun d => (q d).toFinset).card := hcard.symm
    _ ≤ (Finset.range s.NBUFS).card := Finset.card_le_card hsub
    _ = s.NBUFS := Finset.card_range _

/-! ### Commands -/

lemma partition_fits (pd : ℕ) (h : pd < 16) : bstart pd + bcount pd ≤ 41344 := by
  interval_cases pd <;> decide

/-- The command of a request in a queue is for sectors of its partition. -/
lemma command_inside {b : Buf} {asked : ℕ} (h : Ready b asked) (hf : b.b_req ≠ .FMTCMD)
    (aligned : Bool) (paddr : ℕ) : Inside ⟨b.b_dev, b.b_req, command b aligned paddr⟩ := by
  obtain ⟨hdev, hlow, hhigh, hcnt, -, -, -⟩ := h
  have hfit := partition_fits (pseudo (minor b.b_dev)) (Nat.mod_lt _ (by decide))
  rw [Inside, if_neg hf]
  dsimp only [command]
  generalize minor b.b_dev = m at *
  obtain ⟨n, hn⟩ := Int.eq_ofNat_of_zero_le hlow
  rw [hn] at hhigh ⊢
  have ha : ((n : ℤ) + (bstart (pseudo m) : ℕ)).toNat = n + bstart (pseudo m) := by omega
  rw [noDevice, not_or, not_or] at hdev
  have hd4 : drive m < 4 := by
    have := hdev.1
    unfold NDRIVES at this
    omega
  -- the partition ends below sector 65536
  have hend : n + b.b_count / 512 ≤ bsize m ∧ pstart m = bstart (pseudo m) ∧
      bstart (pseudo m) + bsize m ≤ 41344 := by
    refine ⟨by omega, ?_, ?_⟩
    · unfold pstart
      split_ifs with hh
      · rfl
      · have hp : pseudo m = 0 := by
          by_contra hp
          exact hdev.2.2 ⟨by omega, hp⟩
        rw [hp]
        rfl
    · unfold bsize
      split_ifs with hh
      · exact hfit
      · have hp : pseudo m = 0 := by
          by_contra hp
          exact hdev.2.2 ⟨by omega, hp⟩
        rw [hp]
        decide
  obtain ⟨h1, h2, h3⟩ := hend
  unfold MAXBLKCNT at hcnt
  have hhi : (n + bstart (pseudo m)) / 65536 % 256 = 0 := by omega
  rw [ha, h2]
  simp only [sector, hhi]
  have hlun : (if drive m = 1 ∨ drive m = NHDISKS + 1 then 0 ||| 32 else 0) = drive m % 2 * 32 := by
    generalize drive m = k at *
    interval_cases k <;> decide
  rw [hlun]
  refine ⟨by omega, by omega, ?_⟩
  omega

/-! ### Starting the controller -/

/-- The controller is busy as long as there is work, with the command of the request at the head
of the first drive of the chain. -/
structure Settled (s : St) (q : ℕ → List ℕ) (c : List ℕ) : Prop where
  active : s.wdtab.wdu_active = true ↔ c ≠ []
  cur : ∀ d c' b l, c = d :: c' → q d = b :: l → (s.buf b).b_req ≠ .FMTCMD →
    (cmdblk s d).c_blockcnt * 512 = (s.buf b).b_count

/-- What the driver does by itself: it completes requests. -/
structure Calm (s s' : St) : Prop where
  given : s'.given = s.given
  asked : s'.asked = s.asked
  size : s'.NBUFS = s.NBUFS
  ntp : ∀ a, (s.buf a).b_ntp = false → (s'.buf a).b_ntp = false

lemma Calm.trans {s' s'' : St} (h : Calm s s') (h' : Calm s' s'') : Calm s s'' :=
  ⟨h'.given.trans h.given, h'.asked.trans h.asked, h'.size.trans h.size,
    fun a ha => h'.ntp a (h.ntp a ha)⟩

lemma Started.calm {s' : St} (h : Started s s') : Calm s s' :=
  ⟨h.logs.1, h.logs.2.1, h.size, by rw [h.buf]; exact fun _ => id⟩

lemma bdone_calm (s : St) (b moved : ℕ) : Calm s (bdone s b moved) := by
  refine ⟨rfl, rfl, rfl, fun a ha => ?_⟩
  by_cases hab : a = b
  · simp [bdone, setBuf, hab]
  · simpa [bdone, setBuf, Function.update_of_ne hab] using ha

lemma failed_calm (s : St) (b : ℕ) : Calm s (failed s b) := by
  refine ⟨rfl, rfl, rfl, fun a ha => ?_⟩
  by_cases hab : a = b
  · rw [hab] at ha ⊢
    simpa [failed, setBuf] using ha
  · simpa [failed, setBuf, Function.update_of_ne hab] using ha

/-- A request is given up because of its address. -/
lemma wdstart_error {w : ℕ} (hin : s.wdtab.wdu_active = false) (hf : s.wdtab.wdu_forw = some w)
    (hw : (s.wdutab w).wdu_actf = some b) (he : dmaError (s.buf b) = true) :
    ∃ t : Wdtab, t.wdu_forw = s.wdtab.wdu_forw ∧ t.wdu_back = s.wdtab.wdu_back ∧
      t.wdu_active = false ∧ wdstart s = (false, wdustart (bdone
        (failed (popped { s with wdtab := t } w b) b) b 0) (drive (minor (s.buf b).b_dev))) := by
  refine ⟨{ s.wdtab with wdu_paddr := (s.buf b).b_paddr, wdu_dma_aligned := (s.buf b).b_paddr % 512 = 0 },
    rfl, rfl, hin, ?_⟩
  simp [wdstart, hin, hf, hw, he, popped, setUnit]

lemma wdstart_command {w : ℕ} (hin : s.wdtab.wdu_active = false) (hf : s.wdtab.wdu_forw = some w)
    (hw : (s.wdutab w).wdu_actf = some b) (he : dmaError (s.buf b) = false) :
    ∃ (t : Wdtab) (cmd : Wdcmd), t.wdu_forw = s.wdtab.wdu_forw ∧ t.wdu_back = s.wdtab.wdu_back ∧
      t.wdu_active = true ∧
      (cmd = if (s.buf b).b_req = .FMTCMD then wdformat (s.buf b)
        else command (s.buf b) ((s.buf b).b_paddr % 512 = 0) (s.buf b).b_paddr) ∧
      wdstart s = (true, { s with
        wdtab := t
        sent := s.sent ++ [⟨(s.buf b).b_dev, (s.buf b).b_req, cmd⟩]
        cf := if drive (minor (s.buf b).b_dev) ≥ NHDISKS then cmd else s.cf
        wd := if drive (minor (s.buf b).b_dev) ≥ NHDISKS then s.wd else cmd }) := by
  refine ⟨{ s.wdtab with wdu_paddr := (s.buf b).b_paddr, wdu_dma_aligned := (s.buf b).b_paddr % 512 = 0, wdu_active := true },
    _, rfl, rfl, rfl, rfl, ?_⟩
  by_cases hh : drive (minor (s.buf b).b_dev) ≥ NHDISKS
  · simp [wdstart, hin, hf, hw, he, hh]
  · simp [wdstart, hin, hf, hw, he, hh]

lemma Ok.wdstart (h : Ok s q c [] none) (hin : s.wdtab.wdu_active = false) :
    ((wdstart s).1 = true ∧ Ok (wdstart s).2 q c [] none ∧ Settled (wdstart s).2 q c ∧
      Calm s (wdstart s).2) ∨
    ((wdstart s).1 = false ∧ ∃ q' c', Ok (wdstart s).2 q' c' [] none ∧
      (wdstart s).2.wdtab.wdu_active = false ∧ total q' + 1 = total q ∧ Calm s (wdstart s).2) := by
  cases c with
  | nil =>
    -- nothing to do
    have hf : s.wdtab.wdu_forw = none := h.chain
    have he : Wd.wdstart s = (true, s) := by simp [Wd.wdstart, hin, hf]
    rw [he]
    refine Or.inl ⟨rfl, h, ⟨by simp [hin], fun d c' b l hc => absurd hc (by simp)⟩, rfl, rfl, rfl,
      fun _ => id⟩
  | cons d c =>
    obtain ⟨b, l, hq, hf, hw⟩ := h.head
    have hd := h.unit_lt
    obtain ⟨hbn, hbd, hr⟩ := h.ready d hd b (by simp [hq])
    cases he : dmaError (s.buf b) with
    | true =>
      obtain ⟨t, ht1, ht2, ht3, hst⟩ := wdstart_error hin hf hw he
      rw [hst]
      have hpop : Ok (popped { s with wdtab := t } d b) (Function.update q d l) c [b] (some d) :=
        (h.header t ht1 ht2).pop hq
      have hfail := hpop.fail 0
      rw [hbd]
      obtain ⟨c', hok, hs, -⟩ := hfail.wdustart hd
      refine Or.inr ⟨rfl, _, c', hok, ?_, total_pop hd hq, ?_⟩
      · exact hs.active.trans ht3
      · have hp : Calm s (popped { s with wdtab := t } d b) := ⟨rfl, rfl, rfl, fun _ => id⟩
        exact hp.trans ((failed_calm _ b).trans ((bdone_calm _ b 0).trans hs.calm))
    | false =>
      obtain ⟨t, cmd, ht1, ht2, ht3, hcmd, hst⟩ := wdstart_command hin hf hw he
      rw [hst]
      have hh := h.header t ht1 ht2
      refine Or.inl ⟨rfl, ⟨hh.queue, hh.ready, hh.ntp, hh.out, hh.chain, hh.back, hh.drives, hh.active,
        hh.work, hh.given, fun x hx => ?_, hh.done⟩, ⟨by simp [ht3], fun e c' a l' hc ha hreq => ?_⟩,
        ⟨rfl, rfl, rfl, fun _ => id⟩⟩
      · rcases List.mem_append.mp hx with hx | hx
        · exact h.sent x hx
        · rw [List.mem_singleton.mp hx, hcmd]
          split_ifs with hreq
          · rw [Inside, if_pos hreq]
            exact ⟨rfl, hr.fmt hreq⟩
          · exact command_inside hr hreq _ _
      · obtain ⟨rfl, -⟩ := List.cons.inj hc
        rw [hq] at ha
        obtain ⟨rfl, -⟩ := List.cons.inj ha
        have hreq' : (s.buf b).b_req ≠ .FMTCMD := hreq
        have hblk : cmd.c_blockcnt * 512 = (s.buf b).b_count := by
          have h1 := hr.cnt
          have h2 := hr.whole
          unfold MAXBLKCNT at h1
          rw [hcmd, if_neg hreq']
          change (s.buf b).b_count / 512 % 256 * 512 = _
          omega
        rw [cmdblk, hbd]
        dsimp only
        split_ifs <;> exact hblk

/-- The loop ends with the controller busy, or without work. -/
lemma Ok.wdstarts {n : ℕ} (h : Ok s q c [] none) (hin : s.wdtab.wdu_active = false) (hn : total q < n) :
    ∃ s' q' c', wdstarts n s = some s' ∧ Ok s' q' c' [] none ∧ Settled s' q' c' ∧ Calm s s' := by
  induction n generalizing s q c with
  | zero => omega
  | succ n ih =>
    rw [Wd.wdstarts]
    rcases h.wdstart hin with ⟨h1, h2, h3, h4⟩ | ⟨h1, q', c', h2, h3, h4, h5⟩
    · rw [if_pos h1]
      exact ⟨_, q, c, rfl, h2, h3, h4⟩
    · rw [if_neg (by simp [h1])]
      obtain ⟨s', q'', c'', h6, h7, h8, h9⟩ := ih h2 h3 (by omega)
      exact ⟨s', q'', c'', h6, h7, h8, h5.trans h9⟩

/-! ### Requests -/

/-- What comes to the driver: a request, for which the caller has filled in the buffer, and an
interrupt. -/
inductive Event
  | block (bp : ℕ) (b : Buf)
  | intr (e moved : ℕ)

/-- The caller has filled in the buffer. -/
def accept (s : St) (bp : ℕ) (b : Buf) : St :=
  { setBuf s bp b with
    given := Function.update s.given bp (s.given bp + 1)
    asked := Function.update s.asked bp b.b_count }

def exec (s : St) : Event → Option St
  | .block bp b => wdblock (accept s bp b) bp
  | .intr e moved => wdintr s e moved

/-- What the others see to. No buffer is given to the driver that it still has. Buffered
requests are of whole blocks, and `wdioctl` formats floppy disks only. The controller reports no
error only if it has transferred all blocks of its command. -/
def Enabled (s : St) : Event → Prop
  | .block bp b => bp < s.NBUFS ∧ (s.buf bp).b_ntp = false ∧ b.b_ntp = true ∧
      (b.b_raw = false → b.b_count % 512 = 0 ∧ b.b_count ≠ 0) ∧
      (b.b_req = .FMTCMD → b.b_raw = false ∧ (minor b.b_dev = 32 ∨ minor b.b_dev = 48) ∧
        b.b_bno = 0 ∧ b.b_count = 512 ∧ b.b_paddr = 0)
  | .intr e moved => s.wdtab.wdu_active = true → ∀ d ∈ s.wdtab.wdu_forw,
      moved ≤ (cmdblk s d).c_blockcnt ∧ (e &&& 0x7F = 0 → moved = (cmdblk s d).c_blockcnt)

instance (s : St) (ev : Event) : Decidable (Enabled s ev) := by
  cases ev <;> simp only [Enabled] <;> infer_instance

def Step (s : St) (ev : Event) (s' : St) : Prop := Enabled s ev ∧ exec s ev = some s'

/-- The request that is transferred. -/
def current (s : St) : Option ℕ := s.wdtab.wdu_forw.bind fun d => (s.wdutab d).wdu_actf

lemma Ok.current_eq {l : List ℕ} (h : Ok s q (d :: c) hand late) (hq : q d = b :: l) :
    current s = some b := by
  obtain ⟨b', l', hq', hf, hw⟩ := h.head
  rw [hq] at hq'
  obtain ⟨rfl, -⟩ := List.cons.inj hq'
  rw [current, hf, Option.bind_some, hw]

lemma Ok.accept {x : Buf} (h : Ok s q c [] none) (hntp : (s.buf b).b_ntp = false) (hx : x.b_ntp = true) :
    Ok (accept s b x) q c [b] none := by
  have hout : ∀ d < NDRIVES, b ∉ q d := by
    intro d hd hb
    have := (h.ntp b).mpr (Or.inl ⟨d, hd, hb⟩)
    rw [hntp] at this
    exact absurd this (by simp)
  have hne : ∀ d < NDRIVES, ∀ a ∈ q d, a ≠ b := by
    rintro d hd a ha rfl
    exact hout d hd ha
  refine ⟨fun d hd => ?_, fun d hd a ha => ?_, fun a => ?_, by simpa using hout, h.chain, h.back, h.drives,
    h.active, h.work, fun a => ?_, h.sent, h.done⟩
  · refine (h.queue d hd).congr fun a ha => ?_
    simp [Wd.accept, setBuf, Function.update_of_ne (hne d hd a ha)]
  · simpa [Wd.accept, setBuf, Function.update_of_ne (hne d hd a ha)] using h.ready d hd a ha
  · by_cases ha : a = b
    · simp [Wd.accept, setBuf, ha, hx]
    · have := h.ntp a
      simpa [Wd.accept, setBuf, Function.update_of_ne ha, ha] using this
  · have hg := h.given a
    by_cases ha : a = b
    · rw [ha, hntp] at hg
      simp [Wd.accept, setBuf, ha, hx, completed] at hg ⊢
      exact hg
    · simpa [Wd.accept, setBuf, Function.update_of_ne ha, completed] using hg

/-- What the clipping leaves is on the medium. -/
lemma clip_le (x : Buf) : clip x ≤ x.b_count / 512 ∧ clip x ≤ MAXBLKCNT ∧
    (clip x ≠ 0 → 0 ≤ x.b_bno ∧ x.b_bno + clip x ≤ bsize (minor x.b_dev)) := by
  unfold clip
  dsimp only
  split_ifs with h1 h2
  · exact ⟨Nat.zero_le _, Nat.zero_le _, fun h => absurd rfl h⟩
  · refine ⟨by omega, by omega, fun _ => ⟨by omega, by omega⟩⟩
  · refine ⟨by omega, by omega, fun _ => ⟨by omega, by omega⟩⟩

lemma Settled.congr {s' : St} (h : Settled s q c) (ha : s'.wdtab.wdu_active = s.wdtab.wdu_active)
    (hw : s'.wd = s.wd) (hc : s'.cf = s.cf)
    (hb : ∀ d ∈ c, ∀ a ∈ q d, (s'.buf a).b_req = (s.buf a).b_req ∧
      (s'.buf a).b_count = (s.buf a).b_count) : Settled s' q c := by
  refine ⟨by rw [ha]; exact h.active, fun d c' a l hcc hq hreq => ?_⟩
  obtain ⟨h1, h2⟩ := hb d (by simp [hcc]) a (by simp [hq])
  rw [h1] at hreq
  rw [h2, cmdblk, hw, hc]
  exact h.cur d c' a l hcc hq hreq

/-- Changes to a buffer in hand leave the request that is transferred. -/
lemma Settled.touch (x : Buf) (h : Settled s q c) (hok : Ok s q c [b] none) :
    Settled (setBuf s b x) q c := by
  refine h.congr rfl rfl rfl fun d hd a ha => ?_
  have hab : a ≠ b := by
    rintro rfl
    exact hok.out a (by simp) d (hok.drives d hd).1 ha
  simp [setBuf, Function.update_of_ne hab]

/-- A request that is not queued. -/
lemma Settled.bdone (h : Settled s q c) (hok : Ok s q c [b] none) (moved : ℕ) :
    Settled (bdone s b moved) q c := by
  refine h.congr rfl rfl rfl fun d hd a ha => ?_
  have hab : a ≠ b := by
    rintro rfl
    exact hok.out a (by simp) d (hok.drives d hd).1 ha
  simp [Wd.bdone, setBuf, Function.update_of_ne hab]

/-- The head of the first queue is the same as long as the queues only grow behind it. -/
lemma Ok.current_kept {s' : St} {q' : ℕ → List ℕ} {c' : List ℕ} (h : Ok s q c hand late)
    {hand' : List ℕ} {late' : Option ℕ} (h' : Ok s' q' c' hand' late') (hc : c ≠ []) (hcc : c <+: c')
    (hq : ∀ d a t, q d = a :: t → ∃ t', q' d = a :: t') : current s' = current s := by
  obtain ⟨r, rfl⟩ := hcc
  cases c with
  | nil => exact absurd rfl hc
  | cons d c =>
    obtain ⟨a, t, ha, -, -⟩ := h.head
    obtain ⟨t', ht'⟩ := hq d a t ha
    rw [h.current_eq ha, h'.current_eq ht']

lemma Ok.enqueue (h : Ok s q c [b] none) (hs : Settled s q c) (hb : b < s.NBUFS)
    (hr : Ready (s.buf b) (s.asked b)) :
    ∃ s' q' c', enqueue s b = some s' ∧ Ok s' q' c' [] none ∧ Settled s' q' c' ∧
      (s.wdtab.wdu_active = true → s'.wdtab.wdu_active = true ∧ current s' = current s) := by
  have hd : drive (minor (s.buf b).b_dev) < NDRIVES := by
    have := hr.dev
    rw [noDevice, not_or] at this
    omega
  unfold Wd.enqueue
  extract_lets x d bno
  obtain ⟨s₁, l, h1, hok₁, hsort, hl, hhead⟩ := h.disksort hd hb rfl hr bno
  rw [h1, Option.bind_some]
  obtain ⟨c', hok₂, hst, hpre⟩ := hok₁.wdustart hd
  have hact : (Wd.wdustart s₁ d).wdtab.wdu_active = s.wdtab.wdu_active := by
    rw [hst.active, hsort.wdtab]
  -- the queues grow behind their heads
  have hq : ∀ e a t, q e = a :: t → ∃ t', Function.update q d l e = a :: t' := by
    intro e a t he
    by_cases hed : e = d
    · rw [hed] at he
      rw [hed, Function.update_self]
      exact hhead a t he
    · rw [Function.update_of_ne hed]
      exact ⟨t, he⟩
  by_cases ha : s.wdtab.wdu_active = true
  · have hc : c ≠ [] := hs.active.mp ha
    have hc' : c' ≠ [] := fun hnil => hc (List.prefix_nil.mp (hnil ▸ hpre))
    refine ⟨_, _, c', ?_, hok₂, ?_, fun _ => ⟨hact.trans ha, h.current_kept hok₂ hc hpre hq⟩⟩
    · rw [Wd.wdstarts]
      have hw : Wd.wdstart (Wd.wdustart s₁ d) = (true, Wd.wdustart s₁ d) := by
        rw [Wd.wdstart, if_pos (hact.trans ha)]
      rw [hw]
      rfl
    · refine ⟨iff_of_true (hact.trans ha) hc', fun e r a t hce hqe hreq => ?_⟩
      obtain ⟨r', hr'⟩ := hpre
      cases c with
      | nil => exact absurd rfl hc
      | cons e₀ c₀ =>
        rw [hce] at hr'
        obtain ⟨rfl, -⟩ := List.cons.inj hr'
        obtain ⟨a₀, t₀, ha₀, -, -⟩ := h.head
        obtain ⟨t', ht'⟩ := hq e₀ a₀ t₀ ha₀
        rw [hqe] at ht'
        obtain ⟨rfl, -⟩ := List.cons.inj ht'
        rw [hst.buf, hsort.buf a] at hreq ⊢
        rw [cmdblk, hst.cf, hst.wd, hsort.cf, hsort.wd]
        exact hs.cur e₀ c₀ a t₀ rfl ha₀ hreq
  · have ha' : s.wdtab.wdu_active = false := Bool.eq_false_iff.mpr ha
    have hlt : total (Function.update q d l) < s₁.NBUFS + 1 := Nat.lt_succ_of_le hok₁.total_le
    obtain ⟨s', q', c'', h2, h3, h4, -⟩ := hok₂.wdstarts (hact.trans ha') hlt
    exact ⟨s', q', c'', h2, h3, h4, fun h => absurd h ha⟩

/-- A request is queued, or completed at once. -/
lemma Ok.wdblock {x : Buf} (h : Ok s q c [] none) (hs : Settled s q c) (hen : Enabled s (.block b x)) :
    ∃ s' q' c', exec s (.block b x) = some s' ∧ Ok s' q' c' [] none ∧ Settled s' q' c' ∧
      (s.wdtab.wdu_active = true → s'.wdtab.wdu_active = true ∧ current s' = current s) := by
  obtain ⟨hbn, hntp, hx, hbuf, hfmt⟩ := hen
  have hacc : Ok (Wd.accept s b x) q c [b] none := h.accept hntp hx
  have hself : (Wd.accept s b x).buf b = x := by simp [Wd.accept, setBuf]
  have hasked : (Wd.accept s b x).asked b = x.b_count := by simp [Wd.accept]
  have hset : Settled (Wd.accept s b x) q c := by
    refine hs.congr rfl rfl rfl fun d hd a ha => ?_
    have hab : a ≠ b := by
      rintro rfl
      exact hacc.out a (by simp) d (h.drives d hd).1 ha
    simp [Wd.accept, setBuf, Function.update_of_ne hab]
  have hkeep : ∀ s' : St, s'.wdtab = s.wdtab → s'.wdutab = s.wdutab → s.wdtab.wdu_active = true →
      s'.wdtab.wdu_active = true ∧ current s' = current s := by
    intro s' h1 h2 ha
    rw [current, h1, h2]
    exact ⟨ha, rfl⟩
  -- a request that is refused
  have hrefuse : ∃ s' q' c', some (Wd.bdone (failed (Wd.accept s b x) b) b 0) = some s' ∧
      Ok s' q' c' [] none ∧ Settled s' q' c' ∧
      (s.wdtab.wdu_active = true → s'.wdtab.wdu_active = true ∧ current s' = current s) := by
    have hf := hset.touch { (Wd.accept s b x).buf b with b_err := true } hacc
    have hok := hacc.touch { (Wd.accept s b x).buf b with b_err := true } (by rw [hself]; exact hx)
    exact ⟨_, q, c, rfl, hacc.fail 0, hf.bdone hok 0, hkeep _ rfl rfl⟩
  obtain ⟨hc1, hc2, hc3⟩ := clip_le x
  rw [exec, Wd.wdblock, hself]
  by_cases hdev : noDevice (minor x.b_dev)
  · rw [if_pos hdev]
    exact hrefuse
  rw [if_neg hdev]
  dsimp only
  by_cases hraw : x.b_raw = false
  · rw [if_pos hraw]
    obtain ⟨hw, h0⟩ := hbuf hraw
    by_cases hn : clip x ≠ x.b_count / 512
    · rw [if_pos hn]
      exact hrefuse
    · rw [if_neg hn]
      have hn' : clip x = x.b_count / 512 := not_not.mp hn
      obtain ⟨h1, h2⟩ := hc3 (by omega)
      have hok := hacc.touch { x with b_resid := 0 } hx
      have hself₁ : (setBuf (Wd.accept s b x) b { x with b_resid := 0 }).buf b = { x with b_resid := 0 } := by
        simp [setBuf]
      have hasked₁ : (setBuf (Wd.accept s b x) b { x with b_resid := 0 }).asked b = x.b_count := hasked
      refine hok.enqueue (hset.touch { x with b_resid := 0 } hacc) hbn ?_
      rw [hself₁, hasked₁]
      refine ⟨hdev, h1, ?_, ?_, hw, Nat.zero_add _, fun hreq => ?_⟩
      · rw [hn'] at h2
        exact h2
      · rw [← hn']
        exact hc2
      · change NHDISKS ≤ drive (minor x.b_dev)
        rcases (hfmt hreq).2.1 with hm | hm <;> rw [hm] <;> decide
  · rw [if_neg hraw]
    have hok := hacc.touch (clipped x) hx
    have hset₁ := hset.touch (clipped x) hacc
    have hself₁ : (setBuf (Wd.accept s b x) b (clipped x)).buf b = clipped x := by simp [setBuf]
    have hasked₁ : (setBuf (Wd.accept s b x) b (clipped x)).asked b = x.b_count := hasked
    have hnf : x.b_req ≠ .FMTCMD := fun hreq => hraw (hfmt hreq).1
    by_cases hn : clip x = 0
    · -- nothing of it is on the disk
      rw [if_pos hn]
      refine ⟨_, q, c, rfl, hok.bdone 0 fun _ _ => ?_, hset₁.bdone hok 0, hkeep _ rfl rfl⟩
      rw [hself₁, hasked₁]
      change x.b_count - clip x * 512 + 512 * 0 = x.b_count
      omega
    · rw [if_neg hn]
      obtain ⟨h1, h2⟩ := hc3 hn
      refine hok.enqueue hset₁ hbn ?_
      rw [hself₁, hasked₁]
      have hdiv : clip x * 512 / 512 = clip x := Nat.mul_div_cancel _ (by decide)
      refine ⟨hdev, h1, ?_, ?_, Nat.mul_mod_left _ _, ?_, fun hreq => absurd hreq hnf⟩
      · change x.b_bno + ((clip x * 512 / 512 : ℕ) : ℤ) ≤ _
        rw [hdiv]
        exact h2
      · change clip x * 512 / 512 ≤ MAXBLKCNT
        rw [hdiv]
        exact hc2
      · change x.b_count - clip x * 512 + clip x * 512 = x.b_count
        omega

/-! ### Interrupts -/

/-- The request at the head is off its queue and done, with the outcome `e` of its command. -/
def finished (s : St) (d b e moved : ℕ) : St :=
  if e &&& 0x7F = 0 then bdone (popped s d b) b moved
  else bdone (failed (popped s d b) b) b moved

lemma finished_header (s : St) (d b e moved : ℕ) :
    (finished s d b e moved).wdtab = (popped s d b).wdtab := by
  unfold finished
  split_ifs <;> rfl

lemma finished_calm (s : St) (d b e moved : ℕ) : Calm s (finished s d b e moved) ∧
    ((finished s d b e moved).buf b).b_ntp = false := by
  have hp : Calm s (popped s d b) := ⟨rfl, rfl, rfl, fun _ => id⟩
  unfold finished
  split_ifs
  · exact ⟨hp.trans (bdone_calm _ b moved), by simp [bdone, setBuf]⟩
  · exact ⟨hp.trans ((failed_calm _ b).trans (bdone_calm _ b moved)), by simp [bdone, setBuf]⟩

/-- The interrupt that answers a command. -/
lemma wdintr_active (e moved : ℕ) (ha : s.wdtab.wdu_active = true) (hf : s.wdtab.wdu_forw = some d)
    (hw : (s.wdutab d).wdu_actf = some b) (hbd : drive (minor (s.buf b).b_dev) = d) :
    ∃ t : Wdtab, t.wdu_forw = (popped s d b).wdtab.wdu_forw ∧
      t.wdu_back = (popped s d b).wdtab.wdu_back ∧ t.wdu_active = false ∧
      wdintr s e moved =
        wdstarts (s.NBUFS + 1) (wdustart { finished s d b e moved with wdtab := t } d) := by
  refine ⟨⟨false, s.wdtab.wdu_dma_aligned, (s.wdutab d).wdu_forw, s.wdtab.wdu_back, s.wdtab.wdu_paddr⟩,
    rfl, rfl, rfl, ?_⟩
  have hsize : ∀ t : St, (wdustart t d).NBUFS = t.NBUFS := by
    intro t
    unfold wdustart
    split_ifs
    · rfl
    · split
      · rfl
      · dsimp only [setUnit]
        split <;> rfl
  unfold wdintr finished
  rw [if_pos ha, hf]
  dsimp only
  rw [hw]
  dsimp only
  rw [hbd, hsize]
  by_cases he : e &&& 0x7F = 0
  · rw [if_pos he, if_pos he]
    simp [bdone, setBuf, setUnit, popped]
    rfl
  · rw [if_neg he, if_neg he]
    simp [wdharderr, hbd, bdone, failed, setBuf, setUnit, popped]

/-- An interrupt completes the request that is transferred. -/
lemma Ok.wdintr {e moved : ℕ} (h : Ok s q c [] none) (hs : Settled s q c)
    (hen : Enabled s (.intr e moved)) :
    ∃ s' q' c', exec s (.intr e moved) = some s' ∧ Ok s' q' c' [] none ∧ Settled s' q' c' ∧
      (s.wdtab.wdu_active = true → ∃ b, current s = some b ∧ completed s' b = completed s b + 1) := by
  by_cases ha : s.wdtab.wdu_active = true
  · cases c with
    | nil => exact absurd rfl (hs.active.mp ha)
    | cons d c =>
      obtain ⟨b, l, hq, hf, hw⟩ := h.head
      have hd := h.unit_lt
      obtain ⟨hbn, hbd, hr⟩ := h.ready d hd b (by simp [hq])
      obtain ⟨t, ht1, ht2, ht3, heq⟩ := wdintr_active e moved ha hf hw hbd
      have hpop : Ok (popped s d b) (Function.update q d l) c [b] (some d) := h.pop hq
      -- all blocks of the command are transferred, or the request has an error
      have hdone : Ok (finished s d b e moved) (Function.update q d l) c [] (some d) := by
        unfold finished
        split_ifs with he
        · refine hpop.bdone moved fun _ hreq => ?_
          change (s.buf b).b_resid + 512 * moved = s.asked b
          have h1 := hs.cur d c b l rfl hq hreq
          have h2 := (hen ha d (by simp [hf])).2 he
          have h3 := hr.resid
          rw [h2]
          omega
        · exact hpop.fail moved
      obtain ⟨hcalm, hoff⟩ := finished_calm s d b e moved
      rw [← finished_header s d b e moved] at ht1 ht2
      obtain ⟨c', hok, hst, -⟩ := (hdone.header t ht1 ht2).wdustart hd
      obtain ⟨s', q', c'', h2, h3, h4, h5⟩ := hok.wdstarts (n := s.NBUFS + 1) (hst.active.trans ht3)
        (Nat.lt_succ_of_le (by
          have := hok.total_le
          rw [hst.size] at this
          exact this.trans_eq hcalm.size))
      refine ⟨s', q', c'', heq.trans h2, h3, h4, fun _ => ⟨b, h.current_eq hq, ?_⟩⟩
      -- the number of requests is the same, and this one is no longer in a queue
      have hg : s'.given = s.given := h5.given.trans (hst.logs.1.trans hcalm.given)
      have hn : (s'.buf b).b_ntp = false := h5.ntp b (by rw [hst.buf]; exact hoff)
      have hb : (s.buf b).b_ntp = true := (h.ntp b).mpr (Or.inl ⟨d, hd, by simp [hq]⟩)
      have h6 := h3.given b
      have h7 := h.given b
      rw [hg, hn] at h6
      rw [hb] at h7
      simp only [if_true, Bool.false_eq_true, if_false] at h6 h7
      omega
  · have ha' : s.wdtab.wdu_active = false := Bool.eq_false_iff.mpr ha
    have heq : exec s (.intr e moved) = Wd.wdstarts (s.NBUFS + 1) s := by
      simp [exec, Wd.wdintr, ha']
    obtain ⟨s', q', c', h2, h3, h4, -⟩ := h.wdstarts ha' (Nat.lt_succ_of_le h.total_le)
    exact ⟨s', q', c', heq.trans h2, h3, h4, fun h => absurd h ha⟩

/-! ### Runs -/

/-- The driver after `wdload`, with no buffer in anybody's hands. -/
structure Loaded (s : St) : Prop where
  idle : s.wdtab.wdu_active = false ∧ s.wdtab.wdu_forw = none
  units : ∀ d < NDRIVES, (s.wdutab d).wdu_active = false ∧ (s.wdutab d).wdu_actf = none
  bufs : ∀ b, (s.buf b).b_ntp = false ∧ s.given b = 0
  logs : s.sent = [] ∧ s.done = []

/-- The invariant. -/
def Inv (s : St) : Prop := ∃ q c, Ok s q c [] none ∧ Settled s q c

lemma Loaded.inv (h : Loaded s) : Inv s := by
  refine ⟨fun _ => [], [], ⟨fun d hd => (h.units d hd).2, by simp, fun b => ?_, by simp, h.idle.2, by simp,
    by simp, fun d hd => ?_, by simp, fun b => ?_, ?_, ?_⟩, ⟨by simp [h.idle.1], by simp⟩⟩
  · simp [(h.bufs b).1]
  · simp [(h.units d hd).1]
  · simp [(h.bufs b).1, (h.bufs b).2, completed, h.logs.2]
  · simp [h.logs.1]
  · simp [h.logs.2]

lemma Inv.step {s' : St} {ev : Event} (h : Inv s) (hst : Step s ev s') : Inv s' := by
  obtain ⟨q, c, hok, hs⟩ := h
  obtain ⟨hen, hex⟩ := hst
  cases ev with
  | block bp x =>
    obtain ⟨t, q', c', he, hok', hs', -⟩ := hok.wdblock hs hen
    obtain rfl : t = s' := Option.some.inj (he.symm.trans hex)
    exact ⟨q', c', hok', hs'⟩
  | intr e moved =>
    obtain ⟨t, q', c', he, hok', hs', -⟩ := hok.wdintr hs hen
    obtain rfl : t = s' := Option.some.inj (he.symm.trans hex)
    exact ⟨q', c', hok', hs'⟩

/-- **The queue of the driver over every run.** Every request that was given to the driver has
been completed as often as it was given, but once less while it is in a queue, where it is once;
the driver always returns, and the controller is busy as long as a request is in a queue. An
interrupt while it is busy completes the request that is transferred, and no new request takes
the place of that one. Every command is for sectors of the partition of its request. At every
completion without an error `b_resid` is what was not transferred. -/
theorem winchester_runs {s₀ : St} {evs : List Event} (h₀ : Loaded s₀) (hrun : Run Step s₀ evs s) :
    (∃ q : ℕ → List ℕ,
      (∀ d < NDRIVES, Linked (fun b => (s.buf b).b_actf) (s.wdutab d).wdu_actf (q d) ∧ (q d).Nodup ∧
        ∀ b ∈ q d, drive (minor (s.buf b).b_dev) = d) ∧
      (∀ b, ((∃ d < NDRIVES, b ∈ q d) → s.given b = completed s b + 1) ∧
        ((¬ ∃ d < NDRIVES, b ∈ q d) → s.given b = completed s b)) ∧
      (s.wdtab.wdu_active = true ↔ ∃ d < NDRIVES, q d ≠ [])) ∧
    (∀ ev, Enabled s ev → ∃ s', Step s ev s') ∧
    (∀ e moved s', Step s (.intr e moved) s' → s.wdtab.wdu_active = true →
      ∃ b, current s = some b ∧ completed s' b = completed s b + 1) ∧
    (∀ b x s', Step s (.block b x) s' → s.wdtab.wdu_active = true →
      s'.wdtab.wdu_active = true ∧ current s' = current s) ∧
    (∀ x ∈ s.sent, Inside x) ∧
    ∀ x ∈ s.done, x.err = false → Told x := by
  obtain ⟨q, c, hok, hs⟩ : Inv s := hrun.invariant (I := Inv) (fun _ _ _ h hst => h.step hst) h₀.inv
  refine ⟨⟨q, fun d hd => ?_, fun b => ?_, ?_⟩, fun ev hen => ?_, fun e moved s' hst ha => ?_,
    fun b x s' hst ha => ?_, hok.sent, hok.done⟩
  · exact ⟨hok.queue d hd, (hok.queue d hd).nodup, fun b hb => (hok.ready d hd b hb).2.1⟩
  · have hg := hok.given b
    have hn := hok.ntp b
    constructor
    · intro hq
      rw [hn.mpr (Or.inl hq)] at hg
      simpa using hg
    · intro hq
      have : ¬ (s.buf b).b_ntp = true := fun hb => hq ((hn.mp hb).resolve_right (List.not_mem_nil))
      simpa [this] using hg
  · rw [hs.active]
    constructor
    · intro hc
      obtain ⟨d, hd⟩ := List.exists_mem_of_ne_nil c hc
      exact ⟨d, (hok.drives d hd).1, (hok.drives d hd).2⟩
    · rintro ⟨d, hd, hne⟩
      exact List.ne_nil_of_mem ((hok.work d hd hne).resolve_right (by simp))
  · cases ev with
    | block bp x =>
      obtain ⟨t, -, -, he, -⟩ := hok.wdblock hs hen
      exact ⟨t, hen, he⟩
    | intr e moved =>
      obtain ⟨t, -, -, he, -⟩ := hok.wdintr hs hen
      exact ⟨t, hen, he⟩
  · obtain ⟨t, -, -, he, -, -, hcur⟩ := hok.wdintr hs hst.1
    obtain rfl : t = s' := Option.some.inj (he.symm.trans hst.2)
    exact hcur ha
  · obtain ⟨t, -, -, he, -, -, hcur⟩ := hok.wdblock hs hst.1
    obtain rfl : t = s' := Option.some.inj (he.symm.trans hst.2)
    exact hcur ha

/-! ### A read past the end, and one that cannot be done -/

def noCmd : Wdcmd := ⟨0, 0, 0, 0, 0, 0, 0, 0, 0⟩

def idleSt : St where
  NBUFS := 2
  buf _ := ⟨none, false, false, false, false, 0, 0, .BREAD, 0, 0, 0⟩
  wdtab := ⟨false, true, none, none, 0⟩
  wdutab _ := ⟨false, none, none⟩
  wd := noCmd
  cf := noCmd
  given _ := 0
  asked _ := 0
  sent := []
  done := []

lemma idleSt_loaded : Loaded idleSt :=
  ⟨⟨rfl, rfl⟩, fun _ _ => ⟨rfl, rfl⟩, fun _ => ⟨rfl, rfl⟩, ⟨rfl, rfl⟩⟩

/-- A raw read of two blocks of the first partition. -/
def rawRead (bno : ℤ) (paddr : ℕ) : Event :=
  .block 0 ⟨none, true, false, false, true, 0x200, bno, .BREAD, 1024, 0, paddr⟩

/-- The state after an event. -/
def next (s : St) (ev : Event) : St := (exec s ev).getD s

lemma step_next {ev : Event} (hen : Enabled s ev) (hex : (exec s ev).isSome) : Step s ev (next s ev) := by
  refine ⟨hen, ?_⟩
  obtain ⟨t, ht⟩ := Option.isSome_iff_exists.mp hex
  rw [next, ht]
  rfl

/-- What comes of a read of the last block and one more. -/
def lastRead : Done := ⟨0, .BREAD, 1024, false, 512, 1⟩

/-- One block is read, and `b_resid` says so. -/
theorem last_block_told :
    lastRead ∈ (next (next idleSt (rawRead 10335 0)) (.intr 0 1)).done ∧ Told lastRead := by
  have hrun : Run Step idleSt (([] ++ [rawRead 10335 0]) ++ [.intr 0 1])
      (next (next idleSt (rawRead 10335 0)) (.intr 0 1)) :=
    .snoc (.snoc (.nil _) (step_next (by decide +kernel) (by decide +kernel)))
      (step_next (by decide +kernel) (by decide +kernel))
  have hmem : lastRead ∈ (next (next idleSt (rawRead 10335 0)) (.intr 0 1)).done := by decide +kernel
  obtain ⟨-, -, -, -, -, htold⟩ := winchester_runs idleSt_loaded hrun
  exact ⟨hmem, htold lastRead hmem rfl⟩

/-- That read completes without an error, and not all of it was transferred. A read to an address
that is not aligned completes with an error: nothing was transferred, and `b_resid` is zero. -/
theorem unaligned_untold :
    (∃ evs s, Run Step idleSt evs s ∧ ∃ x ∈ s.done, x.err = false ∧ x.resid ≠ 0) ∧
    ∃ evs s, Run Step idleSt evs s ∧ ∃ x ∈ s.done, x.moved = 0 ∧ x.resid = 0 ∧ ¬ Told x := by
  refine ⟨⟨_, next (next idleSt (rawRead 10335 0)) (.intr 0 1), .snoc (.snoc (.nil _)
    (step_next (by decide +kernel) (by decide +kernel)))
    (step_next (by decide +kernel) (by decide +kernel)), ?_⟩, _, next idleSt (rawRead 5 1),
    .snoc (.nil _) (step_next (by decide +kernel) (by decide +kernel)), ?_⟩
  · decide +kernel
  · decide +kernel

end Coherent.Wd
