import Coherent.Inode
import Coherent.Lib.Run

/-!
Link counts against directory entries: `imake`, `ulink` and `uunlink`.

A directory is the array of its entries. `idirent` writes one entry, which lies in one block, so
that it is written or not; how the write ends is up to the disk, and is part of the call. What
`ftoi` and the checks before the write decide is part of the call as well: the directory, the
name, and the error if one of them fails.
-/

namespace Coherent.Links

open Coherent.Super Coherent.Itable Coherent.Lib
open Coherent.Super.Errno ( EIO)

/-- `struct direct`; the name is padded to `DIRSIZ` bytes. -/
structure Direct where
  d_ino : ℕ
  d_name : List UInt8
  deriving DecidableEq

/-- The inodes and directories of a file system. The mode and the link count of an inode are
those in core if it is in core, and those on the disk if it is not. -/
structure Volume where
  m_ron : Bool
  /-- the number of inodes -/
  ninodes : ℕ
  i_mode : ℕ → ℕ
  i_nlink : ℕ → ℕ
  /-- the users of the inode, apart from the call that is running -/
  i_refc : ℕ → ℕ
  dir : ℕ → List Direct

def isDir (v : Volume) (ino : ℕ) : Prop := v.i_mode ino &&& IFMT = IFDIR

instance (v : Volume) (ino : ℕ) : Decidable (isDir v ino) := by unfold isDir; infer_instance

/-- The entry that `ftoi` finds. -/
def found (ds : List Direct) (name : List UInt8) : Option ℕ :=
  ds.findIdx? fun dp => dp.d_ino ≠ 0 ∧ dp.d_name = name

/-- The place that `ftoi` finds for a new entry: a free one, or the end. -/
def place (ds : List Direct) : ℕ := ds.findIdx fun dp => dp.d_ino = 0

/-- Write an entry at a place. -/
def put (ds : List Direct) (k : ℕ) (dp : Direct) : List Direct :=
  if k < ds.length then ds.set k dp else ds ++ [dp]

def setDir (v : Volume) (pdir : ℕ) (ds : List Direct) : Volume :=
  { v with dir := Function.update v.dir pdir ds }

/-- `idirent`: on a read-only file system `iwrite` fails, else the write ends with `io`. -/
def idirent (v : Volume) (pdir k : ℕ) (dp : Direct) (io : Option Errno) : Volume × Option Errno :=
  if v.m_ron then (v, some .EROFS)
  else match io with
    | some e => (v, some e)
    | none => (setDir v pdir (put (v.dir pdir) k dp), none)

/-- What `icopymd` does to an inode that is nobody's and has no link. -/
def cleared (v : Volume) (ino : ℕ) : Volume :=
  { v with i_mode := Function.update v.i_mode ino 0, dir := Function.update v.dir ino [] }

/-- `idetach` at the end of a call: the inode goes when nobody uses it and it has no link. -/
def idetach (v : Volume) (ino : ℕ) : Volume :=
  if v.m_ron = false ∧ v.i_refc ino = 0 ∧ v.i_nlink ino = 0 ∧ ino ≠ BADFIN ∧ ino ≠ ROOTIN then
    cleared v ino
  else v

def setNlink (v : Volume) (ino n : ℕ) : Volume :=
  { v with i_nlink := Function.update v.i_nlink ino n }

/-- `imake`, with the outcome of `ialloc`. The new inode has no blocks; it is its caller's. -/
def imake (v : Volume) (pdir : ℕ) (name : List UInt8) (mode : ℕ) (alloc : Except Errno ℕ)
    (io : Option Errno) : Volume × Except Errno (ℕ × Option Errno) :=
  if v.m_ron then (idetach v pdir, .error .EROFS)
  else match alloc with
    | .error e => (idetach v pdir, .error e)
    | .ok ino =>
      let v := setNlink { v with
        i_mode := Function.update v.i_mode ino mode
        dir := Function.update v.dir ino [] } ino 1
      let r := idirent v pdir (place (v.dir pdir)) ⟨ino, name⟩ io
      (idetach r.1 pdir, .ok (ino, r.2))

/-- `ucreat`, with the success of `fdopen`. If the name is there the file is opened and no link
changes. -/
def ucreat (v : Volume) (pdir : ℕ) (name : List UInt8) (mode : ℕ) (alloc : Except Errno ℕ)
    (io : Option Errno) (fd : Bool) : Volume × Option Errno :=
  if (found (v.dir pdir) name).isSome then (v, if fd then none else some .EMFILE)
  else match imake v pdir name (mode &&& 0o7777 ||| IFREG) alloc io with
    | (v, .error e) => (v, some e)
    -- `fdopen` gives up when `u_error` is set
    | (v, .ok (ino, some e)) => (idetach v ino, some e)
    | (v, .ok (ino, none)) =>
      if fd then ({ v with i_refc := Function.update v.i_refc ino (v.i_refc ino + 1) }, none)
      else (idetach v ino, some .EMFILE)

def umknod (v : Volume) (pdir : ℕ) (name : List UInt8) (mode : ℕ) (alloc : Except Errno ℕ)
    (io : Option Errno) : Volume × Option Errno :=
  if (found (v.dir pdir) name).isSome then (v, some .EEXIST)
  else match imake v pdir name mode alloc io with
    | (v, .error e) => (v, some e)
    | (v, .ok (ino, e)) => (idetach v ino, e)

/-- `ulink`: the link is counted whether or not it could be written. -/
def ulink (v : Volume) (ip1 pdir : ℕ) (name : List UInt8) (io : Option Errno) :
    Volume × Option Errno :=
  if (found (v.dir pdir) name).isSome then (v, some .EEXIST)
  else
    let r := idirent v pdir (place (v.dir pdir)) ⟨ip1, name⟩ io
    let v := idetach r.1 pdir
    (idetach (setNlink v ip1 ((v.i_nlink ip1 + 1) % 65536)) ip1, r.2)

/-- The inode of entry `k`. -/
def victim (v : Volume) (pdir k : ℕ) : ℕ := ((v.dir pdir).getD k ⟨0, []⟩).d_ino

/-- `uunlink`: the link is discounted whether or not it could be erased. The count is an
`int`. -/
def uunlink (v : Volume) (pdir : ℕ) (name : List UInt8) (io : Option Errno) :
    Volume × Option Errno :=
  match found (v.dir pdir) name with
  | none => (v, some .ENOENT)
  | some k =>
    let vip := victim v pdir k
    let r := idirent v pdir k ⟨0, name⟩ io
    let n := r.1.i_nlink vip
    let v := setNlink r.1 vip (if 0 < n ∧ n < 32768 then n - 1 else n)
    (idetach (idetach v vip) pdir, r.2)

/-- A system call: the directory and the name that `ftoi` got to, the error of the checks that
come before anything is changed, and the outcome of what is not modelled here. -/
inductive Call
  | creat (pdir : ℕ) (name : List UInt8) (mode : ℕ) (check : Option Errno)
      (alloc : Except Errno ℕ) (io : Option Errno) (fd : Bool)
  | mknod (pdir : ℕ) (name : List UInt8) (mode : ℕ) (check : Option Errno)
      (alloc : Except Errno ℕ) (io : Option Errno)
  | link (ip1 pdir : ℕ) (name : List UInt8) (check : Option Errno) (io : Option Errno)
  | unlink (pdir : ℕ) (name : List UInt8) (check : Option Errno) (io : Option Errno)
  /-- an inode is opened, or made a current directory -/
  | hold (ino : ℕ)
  /-- and given back -/
  | release (ino : ℕ)

def call (v : Volume) : Call → Volume × Option Errno
  | .creat pdir name mode none alloc io fd => ucreat v pdir name mode alloc io fd
  | .mknod pdir name mode none alloc io => umknod v pdir name mode alloc io
  | .link ip1 pdir name none io => ulink v ip1 pdir name io
  | .unlink pdir name none io => uunlink v pdir name io
  | .creat _ _ _ (some e) _ _ _ | .mknod _ _ _ (some e) _ _ | .link _ _ _ (some e) _
  | .unlink _ _ (some e) _ => (v, some e)
  | .hold ino => ({ v with i_refc := Function.update v.i_refc ino (v.i_refc ino + 1) }, none)
  | .release ino =>
    (idetach { v with i_refc := Function.update v.i_refc ino (v.i_refc ino - 1) } ino, none)

/-! ### Names -/

/-- The numbers of the inodes. -/
def inums (v : Volume) : Finset ℕ := Finset.Icc 1 v.ninodes

/-- How often a directory names an inode. -/
def live (ds : List Direct) (ino : ℕ) : ℕ := ds.countP fun dp => dp.d_ino = ino

/-- How many directory entries name an inode. -/
def named (v : Volume) (ino : ℕ) : ℕ :=
  ∑ d ∈ inums v, if isDir v d then live (v.dir d) ino else 0

/-- Every allocated inode has as many links as there are entries that name it. -/
def Consistent (v : Volume) : Prop :=
  ∀ ino ∈ inums v, v.i_mode ino ≠ 0 → v.i_nlink ino = named v ino

instance (v : Volume) : Decidable (Consistent v) := by unfold Consistent; infer_instance

/-- No entry names an inode that is free. -/
def Tight (v : Volume) : Prop := ∀ ino ∈ inums v, v.i_mode ino = 0 → named v ino = 0

/-- The directory has no entry in use. -/
def Empty (ds : List Direct) : Prop := ∀ dp ∈ ds, dp.d_ino = 0

/-- A directory that `ftoi` can get to: somebody has it, or another directory names it. -/
structure Reached (v : Volume) (pdir : ℕ) : Prop where
  mem : pdir ∈ inums v
  dir : isDir v pdir
  way : v.i_refc pdir ≠ 0 ∨ ∃ d ∈ inums v, d ≠ pdir ∧ isDir v d ∧ ∃ dp ∈ v.dir d, dp.d_ino = pdir

/-- What the callers and `ialloc` see to. -/
def Enabled (v : Volume) : Call → Prop
  | .creat pdir _ _ _ alloc _ _ | .mknod pdir _ _ _ alloc _ =>
    Reached v pdir ∧ ∀ ino, alloc = .ok ino → ino ∈ inums v ∧ v.i_mode ino = 0
  | .link ip1 pdir _ _ _ => Reached v pdir ∧ ip1 ∈ inums v ∧ v.i_mode ip1 ≠ 0
  | .unlink pdir _ _ _ => Reached v pdir
  | .hold ino => ino ∈ inums v ∧ v.i_mode ino ≠ 0
  | .release ino => v.i_refc ino ≠ 0

/-- The calls on which the link counts rely: a directory entry that is to be written is written,
the count has room, no directory goes with entries in it, no entry names the inode that is
taken, `mknod` is given a mode, and `creat` gets its descriptor. -/
def Careful (v : Volume) : Call → Prop
  | .creat pdir name _ check alloc io fd => check = none → found (v.dir pdir) name = none →
      v.m_ron = false → ∀ ino, alloc = .ok ino → io = none ∧ fd = true ∧ named v ino = 0
  | .mknod pdir name mode check alloc io => check = none → found (v.dir pdir) name = none →
      v.m_ron = false → ∀ ino, alloc = .ok ino → io = none ∧ mode ≠ 0 ∧ named v ino = 0
  | .link ip1 pdir name check io => check = none → found (v.dir pdir) name = none →
      v.m_ron = false ∧ io = none ∧ v.i_nlink ip1 + 1 < 65536
  | .unlink pdir name check io => check = none → ∀ k, found (v.dir pdir) name = some k →
      v.m_ron = false ∧ io = none ∧ v.i_nlink (victim v pdir k) < 32768 ∧
        (v.i_refc (victim v pdir k) = 0 → v.i_nlink (victim v pdir k) = 1 →
          isDir v (victim v pdir k) → Empty (v.dir (victim v pdir k)))
  | .hold _ => True
  | .release ino => v.i_refc ino = 1 → v.i_nlink ino = 0 → isDir v ino → Empty (v.dir ino)

def Step (v : Volume) (c : Call) (w : Volume) : Prop := Enabled v c ∧ w = (call v c).1

def CarefulStep (v : Volume) (c : Call) (w : Volume) : Prop := Step v c w ∧ Careful v c

/-! ### One entry -/

lemma live_set {ds : List Direct} {k : ℕ} (hk : k < ds.length) (dp : Direct) (ino : ℕ) :
    live (ds.set k dp) ino + (if ds[k].d_ino = ino then 1 else 0) =
      live ds ino + if dp.d_ino = ino then 1 else 0 := by
  unfold live
  induction ds generalizing k with
  | nil => simp at hk
  | cons a ds ih =>
    cases k with
    | zero =>
      simp only [List.set_cons_zero, List.countP_cons, List.getElem_cons_zero, decide_eq_true_eq]
      omega
    | succ k =>
      have := ih (by simpa using hk)
      simp only [List.set_cons_succ, List.countP_cons, List.getElem_cons_succ]
      omega

/-- A new entry goes to a place that was not in use. -/
lemma live_put_place (ds : List Direct) (dp : Direct) {ino : ℕ} (h0 : ino ≠ 0) :
    live (put ds (place ds) dp) ino = live ds ino + if dp.d_ino = ino then 1 else 0 := by
  unfold put
  by_cases hk : place ds < ds.length
  · have hfree : ds[place ds].d_ino = 0 :=
      of_decide_eq_true (List.findIdx_getElem (w := hk))
    have := live_set hk dp ino
    rw [hfree, if_neg h0.symm] at this
    rw [if_pos hk]
    exact this
  · rw [if_neg hk]
    simp [live, List.countP_append, List.countP_singleton]

lemma found_spec {v : Volume} {pdir k : ℕ} {name : List UInt8}
    (h : found (v.dir pdir) name = some k) :
    ∃ hk : k < (v.dir pdir).length, victim v pdir k = (v.dir pdir)[k].d_ino ∧
      victim v pdir k ≠ 0 := by
  obtain ⟨hk, hp, -⟩ := List.findIdx?_eq_some_iff_getElem.mp h
  have e : victim v pdir k = (v.dir pdir)[k].d_ino := by
    simp [victim, List.getD_eq_getElem?_getD, List.getElem?_eq_getElem hk]
  refine ⟨hk, e, ?_⟩
  rw [e]
  have := of_decide_eq_true hp
  exact this.1

/-- The entry that was found is erased. -/
lemma live_put_found {v : Volume} {pdir k : ℕ} {name : List UInt8} {ino : ℕ} (h0 : ino ≠ 0)
    (h : found (v.dir pdir) name = some k) :
    live (put (v.dir pdir) k ⟨0, name⟩) ino + (if victim v pdir k = ino then 1 else 0) =
      live (v.dir pdir) ino := by
  obtain ⟨hk, e, -⟩ := found_spec h
  have := live_set hk ⟨0, name⟩ ino
  rw [if_neg h0.symm, ← e] at this
  rw [put, if_pos hk]
  exact this

lemma live_empty {ds : List Direct} (h : Empty ds) {ino : ℕ} (h0 : ino ≠ 0) : live ds ino = 0 := by
  refine List.countP_eq_zero.mpr fun dp hdp => ?_
  rw [h dp hdp]
  simpa using h0.symm

lemma inums_ne_zero {v : Volume} {ino : ℕ} (h : ino ∈ inums v) : ino ≠ 0 := by
  have := (Finset.mem_Icc.mp h).1
  omega

/-! ### All entries -/

section Named

variable {v w : Volume} {ino pdir k : ℕ}

lemma named_congr (hn : w.ninodes = v.ninodes)
    (h : ∀ d ∈ inums v, (if isDir w d then live (w.dir d) ino else 0) =
      if isDir v d then live (v.dir d) ino else 0) : named w ino = named v ino := by
  unfold named inums
  rw [hn]
  exact Finset.sum_congr rfl h

/-- One directory has other entries. -/
lemma named_setDir (hm : pdir ∈ inums v) (hd : isDir v pdir) (ds : List Direct) (ino : ℕ) :
    named (setDir v pdir ds) ino + live (v.dir pdir) ino = named v ino + live ds ino := by
  have h1 := Finset.add_sum_erase (inums v)
    (fun d => if isDir v d then live (v.dir d) ino else 0) hm
  have h2 := Finset.add_sum_erase (inums v)
    (fun d => if isDir v d then live (Function.update v.dir pdir ds d) ino else 0) hm
  have hrest : ∑ d ∈ (inums v).erase pdir,
      (if isDir v d then live (Function.update v.dir pdir ds d) ino else 0) =
      ∑ d ∈ (inums v).erase pdir, if isDir v d then live (v.dir d) ino else 0 := by
    refine Finset.sum_congr rfl fun d hd => ?_
    rw [Function.update_of_ne (Finset.ne_of_mem_erase hd)]
  rw [hrest] at h2
  simp only [Function.update_self, if_pos hd] at h1 h2
  change (∑ d ∈ inums v, if isDir v d then live (Function.update v.dir pdir ds d) ino else 0) + _ =
    (∑ d ∈ inums v, if isDir v d then live (v.dir d) ino else 0) + _
  omega

/-- An entry is one of those that are counted. -/
lemma live_le_named (hm : pdir ∈ inums v) (hd : isDir v pdir) (ino : ℕ) :
    live (v.dir pdir) ino ≤ named v ino := by
  have := Finset.single_le_sum (f := fun d => if isDir v d then live (v.dir d) ino else 0)
    (fun _ _ => Nat.zero_le _) hm
  rw [if_pos hd] at this
  exact this

/-- A directory goes that had no entry in use. -/
lemma named_idetach (h0 : ino ≠ 0)
    (h : k ∈ inums v → v.i_refc k = 0 → v.i_nlink k = 0 → isDir v k → Empty (v.dir k)) :
    named (idetach v k) ino = named v ino := by
  unfold idetach
  split_ifs with hc
  · refine named_congr rfl fun d hm => ?_
    by_cases hd : d = k
    · subst hd
      have hno : ¬ isDir (cleared v d) d := by simp [isDir, cleared, IFDIR]
      rw [if_neg hno]
      split_ifs with hdir
      · exact (live_empty (h hm hc.2.1 hc.2.2.1 hdir) h0).symm
      · rfl
    · have hiff : isDir (cleared v k) d ↔ isDir v d := by
        simp [isDir, cleared, Function.update_of_ne hd]
      have hsame : (cleared v k).dir d = v.dir d := by simp [cleared, Function.update_of_ne hd]
      simp only [hiff, hsame]
  · rfl

end Named

section Calls

variable {v : Volume} {pdir ino k : ℕ} {name : List UInt8}

@[simp] lemma idetach_nlink (v : Volume) (k : ℕ) : (idetach v k).i_nlink = v.i_nlink := by
  unfold idetach; split_ifs <;> rfl
@[simp] lemma idetach_refc (v : Volume) (k : ℕ) : (idetach v k).i_refc = v.i_refc := by
  unfold idetach; split_ifs <;> rfl
@[simp] lemma idetach_inums (v : Volume) (k : ℕ) : inums (idetach v k) = inums v := by
  unfold idetach; split_ifs <;> rfl

/-- An inode that is used or has a link stays. -/
lemma idetach_self (h : v.i_refc k ≠ 0 ∨ v.i_nlink k ≠ 0) : idetach v k = v := by
  unfold idetach
  rw [if_neg]
  rintro ⟨-, h1, h2, -⟩
  rcases h with h | h
  · exact h h1
  · exact h h2

lemma Consistent.idetach (h : Consistent v)
    (hk : k ∈ inums v → v.i_refc k = 0 → v.i_nlink k = 0 → isDir v k → Empty (v.dir k)) :
    Consistent (idetach v k) := by
  intro ino hm ha
  rw [idetach_inums] at hm
  have ha' : v.i_mode ino ≠ 0 := by
    intro h0
    apply ha
    unfold Links.idetach
    split_ifs
    · by_cases hik : ino = k
      · simp [cleared, hik]
      · simpa [cleared, Function.update_of_ne hik] using h0
    · exact h0
  rw [idetach_nlink, named_idetach (inums_ne_zero hm) hk]
  exact h ino hm ha'

lemma Tight.idetach (ht : Tight v) (h : Consistent v)
    (hk : k ∈ inums v → v.i_refc k = 0 → v.i_nlink k = 0 → isDir v k → Empty (v.dir k)) :
    Tight (idetach v k) := by
  intro ino hm ha
  rw [idetach_inums] at hm
  rw [named_idetach (inums_ne_zero hm) hk]
  by_cases h0 : v.i_mode ino = 0
  · exact ht ino hm h0
  · -- the inode goes, and it has no link
    rw [← h ino hm h0]
    unfold Links.idetach at ha
    split_ifs at ha with hc
    · by_cases hik : ino = k
      · rw [hik]; exact hc.2.2.1
      · simp [cleared, Function.update_of_ne hik] at ha
        exact absurd ha h0
    · exact absurd ha h0

lemma isDir.mode_ne_zero (h : isDir v ino) : v.i_mode ino ≠ 0 := by
  intro h0
  simp [isDir, h0, IFDIR] at h

/-- A directory that can be reached has a user, or a link from another directory. -/
lemma Reached.stays (h : Reached v pdir) (hc : Consistent v) :
    v.i_refc pdir ≠ 0 ∨ live (v.dir pdir) pdir < v.i_nlink pdir := by
  rcases h.way with hr | ⟨d, hd, hne, hdir, dp, hdp, e⟩
  · exact .inl hr
  · right
    rw [hc pdir h.mem h.dir.mode_ne_zero]
    have hpos : 0 < live (v.dir d) pdir := List.countP_pos_iff.mpr ⟨dp, hdp, by simpa using e⟩
    have hd' : d ∈ (inums v).erase pdir := Finset.mem_erase.mpr ⟨hne, hd⟩
    have hsum := Finset.add_sum_erase (inums v)
      (fun d => if isDir v d then live (v.dir d) pdir else 0) h.mem
    have hle : live (v.dir d) pdir ≤
        ∑ d ∈ (inums v).erase pdir, if isDir v d then live (v.dir d) pdir else 0 := by
      have := Finset.single_le_sum (f := fun d => if isDir v d then live (v.dir d) pdir else 0)
        (fun _ _ => Nat.zero_le _) hd'
      rw [if_pos hdir] at this
      exact this
    simp only [if_pos h.dir] at hsum
    change _ < ∑ d ∈ inums v, if isDir v d then live (v.dir d) pdir else 0
    omega

lemma Reached.idetach (h : Reached v pdir) (hc : Consistent v) : Links.idetach v pdir = v :=
  idetach_self ((h.stays hc).imp id fun h => by omega)

/-- A link that is written and counted. The count of the inode itself is given. -/
lemma consistent_linked (h : ∀ i ∈ inums v, i ≠ ino → v.i_mode i ≠ 0 → v.i_nlink i = named v i)
    (hm : pdir ∈ inums v) (hd : isDir v pdir) {n : ℕ} (hn : n = named v ino + 1) :
    Consistent (setNlink (setDir v pdir (put (v.dir pdir) (place (v.dir pdir)) ⟨ino, name⟩))
      ino n) := by
  intro i hi ha
  have hnamed := named_setDir hm hd (put (v.dir pdir) (place (v.dir pdir)) ⟨ino, name⟩) i
  rw [live_put_place _ _ (inums_ne_zero hi)] at hnamed
  change _ = named (setDir v pdir (put (v.dir pdir) (place (v.dir pdir)) ⟨ino, name⟩)) i
  by_cases hii : i = ino
  · subst hii
    rw [if_pos rfl] at hnamed
    simp only [setNlink, Function.update_self]
    omega
  · rw [if_neg (Ne.symm hii)] at hnamed
    have := h i hi hii ha
    simp only [setNlink, Function.update_of_ne hii]
    change v.i_nlink i = _
    omega

lemma tight_linked (h : ∀ i ∈ inums v, i ≠ ino → v.i_mode i = 0 → named v i = 0)
    (ha : v.i_mode ino ≠ 0) (hm : pdir ∈ inums v) (hd : isDir v pdir) (n : ℕ) :
    Tight (setNlink (setDir v pdir (put (v.dir pdir) (place (v.dir pdir)) ⟨ino, name⟩)) ino n) := by
  intro i hi h0
  have hii : ino ≠ i := by
    rintro rfl
    exact ha h0
  have hnamed := named_setDir hm hd (put (v.dir pdir) (place (v.dir pdir)) ⟨ino, name⟩) i
  rw [live_put_place _ _ (inums_ne_zero hi), if_neg hii, h i hi hii.symm h0] at hnamed
  change named (setDir v pdir (put (v.dir pdir) (place (v.dir pdir)) ⟨ino, name⟩)) i = 0
  omega

lemma Tight.unlinked (h : Tight v) (hm : pdir ∈ inums v) (hd : isDir v pdir)
    (hf : found (v.dir pdir) name = some k) (n : ℕ) :
    Tight (setNlink (setDir v pdir (put (v.dir pdir) k ⟨0, name⟩)) (victim v pdir k) n) := by
  intro i hi h0
  have hnamed := named_setDir hm hd (put (v.dir pdir) k ⟨0, name⟩) i
  have hlive := live_put_found (inums_ne_zero hi) hf
  have hz := h i hi h0
  change named (setDir v pdir (put (v.dir pdir) k ⟨0, name⟩)) i = 0
  omega

/-- A link that is erased and discounted. -/
lemma Consistent.unlinked (h : Consistent v) (hm : pdir ∈ inums v) (hd : isDir v pdir)
    (hf : found (v.dir pdir) name = some k) (hlt : v.i_nlink (victim v pdir k) < 32768) :
    Consistent (setNlink (setDir v pdir (put (v.dir pdir) k ⟨0, name⟩)) (victim v pdir k)
      (if 0 < v.i_nlink (victim v pdir k) ∧ v.i_nlink (victim v pdir k) < 32768 then
        v.i_nlink (victim v pdir k) - 1 else v.i_nlink (victim v pdir k))) := by
  intro i hi ha
  have hnamed := named_setDir hm hd (put (v.dir pdir) k ⟨0, name⟩) i
  have hlive := live_put_found (inums_ne_zero hi) hf
  have hc := h i hi ha
  change _ = named (setDir v pdir (put (v.dir pdir) k ⟨0, name⟩)) i
  by_cases hii : i = victim v pdir k
  · rw [if_pos hii.symm] at hlive
    rw [← hii] at hlt ⊢
    simp only [setNlink, Function.update_self]
    split_ifs <;> omega
  · rw [if_neg (Ne.symm hii)] at hlive
    simp only [setNlink, Function.update_of_ne hii]
    change v.i_nlink i = _
    omega

lemma Reached.kept (h : Reached v pdir) (hc : Consistent v) (ds : List Direct) :
    Links.idetach (setDir v pdir ds) pdir = setDir v pdir ds := by
  refine idetach_self ((h.stays hc).imp id fun hlt => ?_)
  change v.i_nlink pdir ≠ 0
  omega

/-- What a call keeps, and that one that fails does nothing. -/
structure Sound (v : Volume) (r : Volume × Option Errno) : Prop where
  consistent : Consistent r.1
  tight : Tight v → Tight r.1
  fails : r.2 ≠ none → r.1.dir = v.dir ∧ r.1.i_nlink = v.i_nlink

lemma Sound.fail (h : Consistent v) (e : Option Errno) : Sound v (v, e) :=
  ⟨h, id, fun _ => ⟨rfl, rfl⟩⟩

lemma ulink_sound {ip1 : ℕ} {io : Option Errno} (h : Consistent v) (hr : Reached v pdir)
    (hi : ip1 ∈ inums v) (ha : v.i_mode ip1 ≠ 0)
    (hc : found (v.dir pdir) name = none →
      v.m_ron = false ∧ io = none ∧ v.i_nlink ip1 + 1 < 65536) :
    Sound v (ulink v ip1 pdir name io) := by
  unfold ulink
  by_cases hf : found (v.dir pdir) name = none
  · obtain ⟨hron, rfl, hlt⟩ := hc hf
    have e : idirent v pdir (place (v.dir pdir)) ⟨ip1, name⟩ none =
        (setDir v pdir (put (v.dir pdir) (place (v.dir pdir)) ⟨ip1, name⟩), none) := by
      simp [idirent, hron]
    have hn : (v.i_nlink ip1 + 1) % 65536 = named v ip1 + 1 := by
      rw [← h ip1 hi ha]
      omega
    rw [if_neg (by simp [hf])]
    simp only [e, hr.kept h]
    change Sound v (Links.idetach (setNlink _ ip1 ((v.i_nlink ip1 + 1) % 65536)) ip1, none)
    rw [hn, idetach_self (.inr (by simp [setNlink]))]
    exact ⟨consistent_linked (fun i hi _ => h i hi) hr.mem hr.dir rfl,
      fun ht => tight_linked (fun i hi _ => ht i hi) ha hr.mem hr.dir _, fun he => absurd rfl he⟩
  · rw [if_pos (Option.isSome_iff_ne_none.mpr hf)]
    exact .fail h _

lemma uunlink_sound {io : Option Errno} (h : Consistent v) (hr : Reached v pdir)
    (hc : ∀ k, found (v.dir pdir) name = some k →
      v.m_ron = false ∧ io = none ∧ v.i_nlink (victim v pdir k) < 32768 ∧
        (v.i_refc (victim v pdir k) = 0 → v.i_nlink (victim v pdir k) = 1 →
          isDir v (victim v pdir k) → Empty (v.dir (victim v pdir k)))) :
    Sound v (uunlink v pdir name io) := by
  unfold uunlink
  cases hf : found (v.dir pdir) name with
  | none => exact .fail h _
  | some k =>
    obtain ⟨hron, rfl, hlt, hempty⟩ := hc k hf
    have e : idirent v pdir k ⟨0, name⟩ none =
        (setDir v pdir (put (v.dir pdir) k ⟨0, name⟩), none) := by simp [idirent, hron]
    simp only [e]
    have hu := h.unlinked hr.mem hr.dir hf hlt
    have htu := fun ht : Tight v => ht.unlinked hr.mem hr.dir hf
    obtain ⟨hk, hvk, hv0⟩ := found_spec hf
    obtain ⟨vip, hvip⟩ : ∃ vip, vip = victim v pdir k := ⟨_, rfl⟩
    rw [← hvip] at hlt hempty hu htu hvk hv0 ⊢
    obtain ⟨n, hn⟩ : ∃ n, n = if 0 < v.i_nlink vip ∧ v.i_nlink vip < 32768 then
      v.i_nlink vip - 1 else v.i_nlink vip := ⟨_, rfl⟩
    change Sound v (Links.idetach (Links.idetach (setNlink _ vip (if 0 < v.i_nlink vip ∧
      v.i_nlink vip < 32768 then v.i_nlink vip - 1 else v.i_nlink vip)) vip) pdir, none)
    rw [← hn] at hu ⊢
    obtain ⟨w, hw⟩ : ∃ w, w = setNlink (setDir v pdir (put (v.dir pdir) k ⟨0, name⟩)) vip n :=
      ⟨_, rfl⟩
    have htu := fun ht => htu ht n
    rw [← hw] at hu htu ⊢
    -- the directory names the victim, so that the victim had a link
    have hlive : 0 < live (v.dir pdir) vip :=
      List.countP_pos_iff.mpr ⟨(v.dir pdir)[k], List.getElem_mem hk, by simpa using hvk.symm⟩
    have hdiff : vip = pdir → w.i_refc vip ≠ 0 ∨ w.i_nlink vip ≠ 0 := by
      rintro rfl
      rw [hw]
      refine (hr.stays h).imp id fun hlt' => ?_
      simp only [setNlink, Function.update_self, hn]
      split_ifs <;> omega
    have hstay : w.i_refc pdir ≠ 0 ∨ w.i_nlink pdir ≠ 0 := by
      by_cases hp : vip = pdir
      · rw [← hp]; exact hdiff hp
      · rw [hw]
        refine (hr.stays h).imp id fun hlt' => ?_
        simp only [setNlink, Function.update_of_ne (Ne.symm hp)]
        change v.i_nlink pdir ≠ 0
        omega
    have hback : Links.idetach (Links.idetach w vip) pdir = Links.idetach w vip :=
      idetach_self (by rwa [idetach_refc, idetach_nlink])
    rw [hback]
    suffices hgone : vip ∈ inums w → w.i_refc vip = 0 → w.i_nlink vip = 0 → isDir w vip →
        Empty (w.dir vip) from
      ⟨hu.idetach hgone, fun ht => (htu ht).idetach hu hgone, fun he => absurd rfl he⟩
    intro hm hr0 hn0 hdir
    have hp : vip ≠ pdir := fun hp => (hdiff hp).elim (fun h => h hr0) fun h => h hn0
    have hdir' : isDir v vip := by rw [hw] at hdir; exact hdir
    have hr0' : v.i_refc vip = 0 := by rw [hw] at hr0; exact hr0
    have hm' : vip ∈ inums v := by rw [hw] at hm; exact hm
    have hone : v.i_nlink vip = 1 := by
      have hle := live_le_named hr.mem hr.dir vip
      rw [← h vip hm' hdir'.mode_ne_zero] at hle
      have hn0' : n = 0 := by
        rw [hw] at hn0
        simpa [setNlink] using hn0
      rw [hn] at hn0'
      split_ifs at hn0' <;> omega
    have hsame : w.dir vip = v.dir vip := by
      rw [hw]
      simp [setNlink, setDir, Function.update_of_ne hp]
    rw [hsame]
    exact hempty hr0' hone hdir'

/-- The volume with a new inode that has no name yet. -/
def newInode (v : Volume) (ino mode : ℕ) : Volume :=
  { v with i_mode := Function.update v.i_mode ino mode, dir := Function.update v.dir ino [] }

/-- A new inode has no entries. -/
lemma named_newInode (hfree : v.i_mode ino = 0) (mode i : ℕ) :
    named (newInode v ino mode) i = named v i := by
  refine named_congr rfl fun d _ => ?_
  by_cases hd : d = ino
  · have hno : ¬ isDir v d := by
      rw [hd]
      intro h
      exact h.mode_ne_zero hfree
    rw [if_neg hno, hd]
    simp [newInode, live]
  · have hiff : isDir (newInode v ino mode) d ↔ isDir v d := by
      simp [isDir, newInode, Function.update_of_ne hd]
    have hsame : (newInode v ino mode).dir d = v.dir d := by
      simp [newInode, Function.update_of_ne hd]
    simp only [hiff, hsame]

/-- An inode is made and gets its name. -/
lemma imake_ok (name : List UInt8) (mode : ℕ) (h : Consistent v) (hr : Reached v pdir)
    (hron : v.m_ron = false) (hfree : v.i_mode ino = 0) (h0 : named v ino = 0) :
    ∃ w, imake v pdir name mode (.ok ino) none = (w, .ok (ino, none)) ∧ Consistent w ∧
      (mode ≠ 0 → Tight v → Tight w) ∧ w.i_nlink ino = 1 := by
  have hne : pdir ≠ ino := by
    rintro rfl
    exact hr.dir.mode_ne_zero hfree
  have hdirs : (newInode v ino mode).dir pdir = v.dir pdir := by
    simp [newInode, Function.update_of_ne hne]
  have hdir : isDir (newInode v ino mode) pdir := by
    simpa [isDir, newInode, Function.update_of_ne hne] using hr.dir
  refine ⟨setNlink (setDir (newInode v ino mode) pdir
    (put ((newInode v ino mode).dir pdir) (place ((newInode v ino mode).dir pdir)) ⟨ino, name⟩))
    ino 1, ?_, ?_, ?_, by simp [setNlink]⟩
  · unfold imake
    rw [if_neg (by simp [hron])]
    have hstay : (setNlink (newInode v ino mode) ino 1).i_refc pdir ≠ 0 ∨
        (setNlink (newInode v ino mode) ino 1).i_nlink pdir ≠ 0 := by
      refine (hr.stays h).imp id fun hlt => ?_
      simp only [setNlink, Function.update_of_ne hne]
      change v.i_nlink pdir ≠ 0
      omega
    have hio : idirent (setNlink (newInode v ino mode) ino 1) pdir
        (place ((setNlink (newInode v ino mode) ino 1).dir pdir)) ⟨ino, name⟩ none =
        (setDir (setNlink (newInode v ino mode) ino 1) pdir
          (put ((newInode v ino mode).dir pdir) (place ((newInode v ino mode).dir pdir))
            ⟨ino, name⟩), none) := by
      have : (setNlink (newInode v ino mode) ino 1).m_ron = false := hron
      rw [idirent, if_neg (by simp [this])]
      rfl
    change (Links.idetach (idirent (setNlink (newInode v ino mode) ino 1) pdir
      (place ((setNlink (newInode v ino mode) ino 1).dir pdir)) ⟨ino, name⟩ none).1 pdir,
      Except.ok (ino, (idirent (setNlink (newInode v ino mode) ino 1) pdir
      (place ((setNlink (newInode v ino mode) ino 1).dir pdir)) ⟨ino, name⟩ none).2)) = _
    rw [hio]
    refine Prod.ext ?_ rfl
    exact idetach_self hstay
  · refine consistent_linked (v := newInode v ino mode) (fun i hi hii ha => ?_) hr.mem hdir ?_
    · rw [named_newInode hfree]
      simp only [newInode, Function.update_of_ne hii] at ha
      exact h i hi ha
    · rw [named_newInode hfree, h0]
  · intro hmode ht
    refine tight_linked (v := newInode v ino mode) (fun i hi hii ha => ?_) ?_ hr.mem hdir 1
    · rw [named_newInode hfree]
      simp only [newInode, Function.update_of_ne hii] at ha
      exact ht i hi ha
    · simpa [newInode] using hmode

lemma imake_fail {mode : ℕ} {alloc : Except Errno ℕ} {io : Option Errno} (h : Consistent v)
    (hr : Reached v pdir) (hf : v.m_ron = true ∨ ∃ e, alloc = .error e) :
    ∃ e, imake v pdir name mode alloc io = (v, .error e) := by
  unfold imake
  by_cases hron : v.m_ron = true
  · rw [if_pos hron, hr.idetach h]
    exact ⟨_, rfl⟩
  · obtain ⟨e, rfl⟩ := hf.resolve_left hron
    rw [if_neg hron, hr.idetach h]
    exact ⟨e, rfl⟩

/-- How `imake` ends: nothing has happened, or there is a new inode with one name. -/
lemma imake_cases {mode : ℕ} {alloc : Except Errno ℕ} {io : Option Errno} (h : Consistent v)
    (hr : Reached v pdir) (halloc : ∀ ino, alloc = .ok ino → ino ∈ inums v ∧ v.i_mode ino = 0)
    (hc : v.m_ron = false → ∀ ino, alloc = .ok ino → io = none ∧ named v ino = 0) :
    (∃ e, imake v pdir name mode alloc io = (v, .error e)) ∨
      ∃ ino w, alloc = .ok ino ∧ v.m_ron = false ∧
        imake v pdir name mode alloc io = (w, .ok (ino, none)) ∧ Consistent w ∧
        (mode ≠ 0 → Tight v → Tight w) ∧ w.i_nlink ino = 1 := by
  by_cases hron : v.m_ron = true
  · exact .inl (imake_fail h hr (.inl hron))
  · cases alloc with
    | error e => exact .inl (imake_fail h hr (.inr ⟨e, rfl⟩))
    | ok ino =>
      have hron' : v.m_ron = false := by simpa using hron
      obtain ⟨rfl, h0⟩ := hc hron' ino rfl
      obtain ⟨w, e, hw, ht, h1⟩ := imake_ok name mode h hr hron' (halloc ino rfl).2 h0
      exact .inr ⟨ino, w, rfl, hron', e, hw, ht, h1⟩

lemma ucreat_sound {mode : ℕ} {alloc : Except Errno ℕ} {io : Option Errno} {fd : Bool}
    (h : Consistent v) (hr : Reached v pdir)
    (halloc : ∀ ino, alloc = .ok ino → ino ∈ inums v ∧ v.i_mode ino = 0)
    (hc : found (v.dir pdir) name = none → v.m_ron = false → ∀ ino, alloc = .ok ino →
      io = none ∧ fd = true ∧ named v ino = 0) : Sound v (ucreat v pdir name mode alloc io fd) := by
  unfold ucreat
  by_cases hf : found (v.dir pdir) name = none
  · rw [if_neg (by simp [hf])]
    obtain ⟨e, he⟩ | ⟨ino, w, ha, hron, he, hw, ht, -⟩ := imake_cases h hr halloc
      fun hron ino ha => ⟨(hc hf hron ino ha).1, (hc hf hron ino ha).2.2⟩
    · rw [he]
      exact .fail h _
    · rw [he]
      dsimp only
      rw [if_pos (hc hf hron ino ha).2.1]
      refine ⟨hw, ht fun h0 => ?_, fun h => absurd rfl h⟩
      have := congrArg (· &&& IFREG) h0
      simp [Nat.and_or_distrib_right, IFREG] at this
  · rw [if_pos (Option.isSome_iff_ne_none.mpr hf)]
    exact .fail h _

lemma umknod_sound {mode : ℕ} {alloc : Except Errno ℕ} {io : Option Errno} (h : Consistent v)
    (hr : Reached v pdir)
    (halloc : ∀ ino, alloc = .ok ino → ino ∈ inums v ∧ v.i_mode ino = 0)
    (hc : found (v.dir pdir) name = none → v.m_ron = false → ∀ ino, alloc = .ok ino →
      io = none ∧ mode ≠ 0 ∧ named v ino = 0) : Sound v (umknod v pdir name mode alloc io) := by
  unfold umknod
  by_cases hf : found (v.dir pdir) name = none
  · rw [if_neg (by simp [hf])]
    obtain ⟨e, he⟩ | ⟨ino, w, ha, hron, he, hw, ht, h1⟩ := imake_cases h hr halloc
      fun hron ino ha => ⟨(hc hf hron ino ha).1, (hc hf hron ino ha).2.2⟩
    · rw [he]
      exact .fail h _
    · rw [he]
      dsimp only
      rw [idetach_self (.inr (by omega))]
      exact ⟨hw, ht (hc hf hron ino ha).2.1, fun h => absurd rfl h⟩
  · rw [if_pos (Option.isSome_iff_ne_none.mpr hf)]
    exact .fail h _

/-- One call, of whatever kind. -/
lemma call_sound {c : Call} (h : Consistent v) (hen : Enabled v c) (hc : Careful v c) :
    Sound v (call v c) := by
  cases c with
  | creat pdir name mode check alloc io fd =>
    cases check with
    | some e => exact .fail h _
    | none => exact ucreat_sound h hen.1 hen.2 (hc rfl)
  | mknod pdir name mode check alloc io =>
    cases check with
    | some e => exact .fail h _
    | none => exact umknod_sound h hen.1 hen.2 (hc rfl)
  | link ip1 pdir name check io =>
    cases check with
    | some e => exact .fail h _
    | none => exact ulink_sound h hen.1 hen.2.1 hen.2.2 (hc rfl)
  | unlink pdir name check io =>
    cases check with
    | some e => exact .fail h _
    | none => exact uunlink_sound h hen (hc rfl)
  | hold ino => exact ⟨h, id, fun he => absurd rfl he⟩
  | release ino =>
    have hrel : Consistent { v with i_refc := Function.update v.i_refc ino (v.i_refc ino - 1) } := h
    have hgone : ino ∈ inums v → Function.update v.i_refc ino (v.i_refc ino - 1) ino = 0 →
        v.i_nlink ino = 0 → isDir v ino → Empty (v.dir ino) := by
      intro _ hr0 hn0 hdir
      rw [Function.update_self] at hr0
      exact hc (by have : v.i_refc ino ≠ 0 := hen; omega) hn0 hdir
    exact ⟨hrel.idetach hgone, fun ht => Tight.idetach (v := { v with
      i_refc := Function.update v.i_refc ino (v.i_refc ino - 1) }) ht hrel hgone,
      fun he => absurd rfl he⟩

end Calls

/-- **Link counts**: in every run of system calls that are all careful, every allocated inode has
after each call as many links as there are directory entries that name it, no entry comes to name
a free inode, and a call that fails leaves the directories and the link counts as they were. -/
theorem link_counts_runs {v₀ v : Volume} {cs : List Call} (h₀ : Consistent v₀)
    (hrun : Run CarefulStep v₀ cs v) :
    Consistent v ∧ (Tight v₀ → Tight v) ∧ ∀ c, Enabled v c → Careful v c →
      ∀ e, (call v c).2 = some e →
        (call v c).1.dir = v.dir ∧ (call v c).1.i_nlink = v.i_nlink := by
  have h : Consistent v ∧ (Tight v₀ → Tight v) := hrun.invariant
    (I := fun u => Consistent u ∧ (Tight v₀ → Tight u)) (fun u c w hu hst => by
      obtain ⟨⟨hen, rfl⟩, hc⟩ := hst
      have hs := call_sound hu.1 hen hc
      exact ⟨hs.consistent, fun ht => hs.tight (hu.2 ht)⟩) ⟨h₀, id⟩
  refine ⟨h.1, h.2, fun c hen hc e he => (call_sound h.1 hen hc).fails (by simp [he])⟩

/-! ### A root directory and one file -/

def dot : List UInt8 := [46]
def nameA : List UInt8 := [97]
def nameB : List UInt8 := [98]

/-- The root directory, inode 2, has the entries `.`, `..` and `a`; inode 3 is the file `a`. -/
def rootVol : Volume where
  m_ron := false
  ninodes := 8
  i_mode ino := if ino = 2 then IFDIR ||| 0o755 else if ino = 3 then IFREG ||| 0o644 else 0
  i_nlink ino := if ino = 2 then 2 else if ino = 3 then 1 else 0
  i_refc ino := if ino = 2 then 1 else 0
  dir ino := if ino = 2 then [⟨2, dot⟩, ⟨2, dot ++ dot⟩, ⟨3, nameA⟩] else []

lemma rootVol_consistent : Consistent rootVol ∧ Reached rootVol 2 :=
  ⟨by decide +kernel, by decide, by decide +kernel, .inl (by decide)⟩

/-- `a` gets a second name, and a third that cannot be had because the name is there. -/
theorem rootVol_link : Consistent (call rootVol (.link 3 2 nameB none none)).1 ∧
    (call (call rootVol (.link 3 2 nameB none none)).1 (.link 3 2 nameA none none)).2 =
      some .EEXIST ∧
    (call (call rootVol (.link 3 2 nameB none none)).1 (.link 3 2 nameA none none)).1.dir =
      (call rootVol (.link 3 2 nameB none none)).1.dir := by
  have hen : Enabled rootVol (.link 3 2 nameB none none) :=
    ⟨rootVol_consistent.2, by decide, by decide +kernel⟩
  have hc : Careful rootVol (.link 3 2 nameB none none) := fun _ _ => ⟨rfl, rfl, by decide +kernel⟩
  have hrun : Run CarefulStep rootVol [.link 3 2 nameB none none]
      (call rootVol (.link 3 2 nameB none none)).1 := .snoc (.nil _) ⟨⟨hen, rfl⟩, hc⟩
  obtain ⟨h1, -, h2⟩ := link_counts_runs rootVol_consistent.1 hrun
  refine ⟨h1, by decide +kernel, (h2 (.link 3 2 nameA none none) ?_ ?_ .EEXIST (by decide +kernel)).1⟩
  · exact ⟨⟨by decide +kernel, by decide +kernel, .inl (by decide +kernel)⟩, by decide +kernel,
      by decide +kernel⟩
  · intro _ hf
    exact absurd hf (by decide +kernel)

theorem rootVol_no_space : Consistent rootVol ∧
    (∃ v, Run Step rootVol [.link 3 2 nameB none (some .ENOSPC)] v ∧ ¬ Consistent v) ∧
    (∃ v, Run Step rootVol [.hold 3, .unlink 2 nameA none (some EIO)] v ∧ ¬ Consistent v) ∧
    (∃ v, Run Step rootVol [.mknod 2 nameB (IFREG ||| 0o644) none (.ok 4) (some .ENOSPC)] v ∧
      ¬ Consistent v) ∧
    (call rootVol (.creat 2 nameB 0o644 none (.ok 4) none false)).2 = some .EMFILE ∧
    (call rootVol (.creat 2 nameB 0o644 none (.ok 4) none false)).1.dir ≠ rootVol.dir := by
  have hone : ∀ c, Enabled rootVol c → Run Step rootVol [c] (call rootVol c).1 :=
    fun c hc => .snoc (.nil _) ⟨hc, rfl⟩
  refine ⟨rootVol_consistent.1, ⟨_, hone _ ?_, by decide +kernel⟩,
    ⟨_, .snoc (hone (.hold 3) ?_) ⟨?_, rfl⟩, by decide +kernel⟩, ⟨_, hone _ ?_, by decide +kernel⟩,
    by decide +kernel, fun h => ?_⟩
  · exact ⟨rootVol_consistent.2, by decide, by decide +kernel⟩
  · exact ⟨by decide, by decide +kernel⟩
  · exact ⟨by decide, by decide +kernel, .inl (by decide)⟩
  · exact ⟨rootVol_consistent.2, fun ino h => by cases h; decide +kernel⟩
  · exact absurd (congrFun h 2) (by decide +kernel)

end Coherent.Links
