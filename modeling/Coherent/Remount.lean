import Coherent.Inode
import Coherent.Lib.Run

/-!
The inode table over several devices, and a read-only file system made writable in place.

While a file system is read only its inodes are changed in core like any others, but nothing
is written back, and `check` may rewrite the disk inodes behind the table. When the file
system is made writable the table has to be what is on the disk.
-/

namespace Coherent.Remount

open Coherent.Can Coherent.Super Coherent.FreeList Coherent.FileMap Coherent.Itable Coherent.Lib
open Coherent.Super.Errno ( EIO)

def ISUIDGID : ℕ := 0o6000

/-- An in-core inode with its owner and its times. -/
structure Cached extends Inode where
  i_uid : ℕ
  i_gid : ℕ
  i_atime : ℕ
  i_mtime : ℕ
  i_ctime : ℕ

/-- A disk inode with its owner and its times. -/
structure Image extends Dinode where
  di_uid : ℕ
  di_gid : ℕ
  di_atime : ℕ
  di_mtime : ℕ
  di_ctime : ℕ

/-- The inode table and the mounted devices, by their numbers. -/
structure Table where
  NINODE : ℕ
  inodep : ℕ → Cached
  dinode : ℕ → ℕ → Image
  fs : ℕ → Fs
  t_time : ℕ

def setInode (T : Table) (j : ℕ) (ip : Cached) : Table :=
  { T with inodep := Function.update T.inodep j ip }

def setFs (T : Table) (d : ℕ) (fs : Fs) : Table := { T with fs := Function.update T.fs d fs }

/-- The block of the inode can be read. -/
def readable (T : Table) (d ino : ℕ) : Bool :=
  (T.fs d).rdok ((INODEI + (ino - 1) / INOPB : ℕ) : ℤ)

/-- The in-core inode after a disk inode has been copied into it. -/
def fill (dip : Image) (ip : Cached) : Cached :=
  { toInode := load dip.toDinode ip.toInode
    i_uid := dip.di_uid
    i_gid := dip.di_gid
    i_atime := dip.di_atime
    i_mtime := dip.di_mtime
    i_ctime := dip.di_ctime }

/-- `icopydm`: without the block only the flags are cleared. -/
def icopydm (T : Table) (ip : Cached) : Cached :=
  if readable T ip.i_dev ip.i_ino then fill (T.dinode ip.i_dev ip.i_ino) ip
  else { ip with i_acc := false, i_mod := false, i_crt := false }

/-- The disk inode that `icopymd` writes. -/
def image (ip : Cached) : Image :=
  { toDinode := toDisk ip.toInode
    di_uid := ip.i_uid
    di_gid := ip.i_gid
    di_atime := ip.i_atime
    di_mtime := ip.i_mtime
    di_ctime := ip.i_ctime }

/-! ### Setting the times -/

def iacc (t : ℕ) (ip : Cached) : Cached := { ip with i_acc := true, i_atime := t }
def imod (t : ℕ) (ip : Cached) : Cached := { ip with i_mod := true, i_mtime := t }
def icrt (t : ℕ) (ip : Cached) : Cached := { ip with i_crt := true, i_ctime := t }
def iamc (t : ℕ) (ip : Cached) : Cached := iacc t (imod t (icrt t ip))

/-! ### The table -/

/-- Clear an inode and all space associated with it. -/
def iclear (T : Table) (ip : Cached) : Fs × Cached :=
  let r := Itable.iclear (T.fs ip.i_dev) ip.toInode
  (r.1, if naddr ip.i_mode = 0 then ip else iamc T.t_time { ip with toInode := r.2 })

/-- Copy inode slot `j` back to disk. -/
def icopymd (T : Table) (j : ℕ) : Table :=
  let ip := T.inodep j
  if (T.fs ip.i_dev).m_ron then T
  else
    let r : Fs × Cached :=
      if unused ip.toInode then
        (ifree (iclear T ip).1 ip.i_ino, { (iclear T ip).2 with i_lrt := 0, i_mode := 0 })
      else (T.fs ip.i_dev, ip)
    let T := setFs T ip.i_dev r.1
    if readable T ip.i_dev ip.i_ino then
      { setInode T j { r.2 with i_acc := false, i_mod := false, i_crt := false } with
        dinode := Function.update T.dinode ip.i_dev
          (Function.update (T.dinode ip.i_dev) ip.i_ino (image r.2)) }
    else setInode T j r.2

/-- The slot that holds inode `ino` of device `d`. -/
def slotOf (T : Table) (d ino : ℕ) : Option ℕ :=
  (List.range T.NINODE).find? fun j => (T.inodep j).i_ino = ino ∧ (T.inodep j).i_dev = d

/-- The free slot that `iattach` takes: the least recently used, the first of several. -/
def victim (T : Table) : Option ℕ :=
  (List.range T.NINODE).foldl (fun fip j =>
    if (T.inodep j).i_refc = 0 then
      match fip with
      | none => some j
      | some f => if (T.inodep j).i_lrt < (T.inodep f).i_lrt then some j else some f
    else fip) none

/-- Bring inode `ino` of device `d` into core. -/
def iattach (T : Table) (d ino : ℕ) : Option ℕ × Table :=
  match slotOf T d ino with
  | some j => (some j, setInode T j
      { T.inodep j with i_refc := (T.inodep j).i_refc + 1, i_lrt := T.t_time })
  | none =>
    match victim T with
    | none => (none, setFs T d { devmsg (T.fs d) "Inode table overflow" with u_error := some .ENFILE })
    | some j =>
      let ip := icopydm T
        { T.inodep j with i_dev := d, i_ino := ino, i_refc := 1, i_lrt := T.t_time }
      if readable T d ino then (some j, setInode T j ip)
      else (none, setInode T j { ip with i_ino := 0, i_refc := 0 })

/-- Deaccess the inode in slot `j`. -/
def idetach (T : Table) (j : ℕ) : Table :=
  let ip := { T.inodep j with i_refc := (T.inodep j).i_refc - 1 }
  let T := setInode T j ip
  if ip.i_refc = 0 ∧ (ip.i_acc ∨ ip.i_mod ∨ ip.i_crt ∨ ip.i_nlink = 0) then icopymd T j else T

/-- Copy all relevant inodes of device `d` out. -/
def isync (T : Table) (d : ℕ) : Table :=
  (List.range T.NINODE).foldl (fun T j =>
    let ip := T.inodep j
    if ip.i_refc = 0 ∨ ip.i_dev ≠ d ∨ (!ip.i_acc && !ip.i_mod && !ip.i_crt) ∨
        ip.i_mode &&& IFMT = IFCHR then T
    else icopymd T j) T

/-- Re-read all in-core inodes of device `d` that somebody uses. -/
def iremap (T : Table) (d : ℕ) : Table :=
  { T with inodep := fun j =>
      if j < T.NINODE ∧ (T.inodep j).i_refc ≠ 0 ∧ (T.inodep j).i_dev = d then
        icopydm T (T.inodep j)
      else T.inodep j }

/-- Make the file system on device `d` writable; `f` is `MFFORCE`. -/
def fsremount (T : Table) (d : ℕ) (f : Bool) : Table :=
  let fs := T.fs d
  if fs.m_ron = false then T
  else match bread fs SUPERI with
    | none => setFs T d { fs with u_error := some EIO }
    | some p =>
      let sb := getSuper p
      if sb.s_dirty ≠ FSCLEAN ∧ f = false then
        setFs T d { fs with m_super := sb, u_error := some .EROFS }
      else setFs (iremap T d) d { fs with m_super := { sb with s_fmod := 0 }, m_ron := false }

/-! ### What system calls do to an inode -/

inductive Change
  /-- `ulink`, and `uunlink` whether or not the directory could be written -/
  | link
  | unlink
  | chmod (mode : ℕ)
  | chown (uid gid : ℕ)
  | utime (times : Option (ℕ × ℕ))
  /-- the inode is read -/
  | read
  /-- `iwrite` before it looks at the file system -/
  | write
  /-- what `fwrite`, `pread` and `pwrite` leave -/
  | store (size : ℤ) (addr : ℕ → ℤ)
  /-- `iclear`, when a file that exists is created -/
  | clear
  /-- `imake`, in the slot that `ialloc` found -/
  | make (mode rdev uid gid : ℕ)

def change (T : Table) (j : ℕ) : Change → Table
  | .link => setInode T j (icrt T.t_time
      { T.inodep j with i_nlink := ((T.inodep j).i_nlink + 1) % 65536 })
  | .unlink => setInode T j (icrt T.t_time { T.inodep j with
      i_nlink := if 0 < (T.inodep j).i_nlink ∧ (T.inodep j).i_nlink < 32768 then
        (T.inodep j).i_nlink - 1 else (T.inodep j).i_nlink })
  | .chmod mode => setInode T j (icrt T.t_time { T.inodep j with
      i_mode := (T.inodep j).i_mode &&& IFMT ||| mode &&& 0o7777 })
  | .chown uid gid => setInode T j (icrt T.t_time { T.inodep j with
      i_mode := (T.inodep j).i_mode &&& (65535 - ISUIDGID), i_uid := uid, i_gid := gid })
  | .utime times =>
    let ip := iamc T.t_time (T.inodep j)
    match times with
    | none => setInode T j ip
    | some (a, m) => setInode T j { ip with i_atime := a, i_mtime := m }
  | .read => setInode T j (iacc T.t_time (T.inodep j))
  | .write => setInode T j (icrt T.t_time (imod T.t_time (T.inodep j)))
  | .store size addr => setInode T j (icrt T.t_time (imod T.t_time
      { T.inodep j with i_size := size, i_addr := addr }))
  | .clear => setFs (setInode T j (iclear T (T.inodep j)).2) (T.inodep j).i_dev
      (iclear T (T.inodep j)).1
  | .make mode rdev uid gid => setInode T j (iamc T.t_time { T.inodep j with
      i_mode := mode, i_nlink := 1, i_uid := uid, i_gid := gid
      i_addr := setRdev (T.inodep j).i_addr rdev })

/-! ### The read-only period -/

inductive Op
  | iattach (d ino : ℕ)
  | idetach (j : ℕ)
  | change (j : ℕ) (c : Change)
  | isync (d : ℕ)
  /-- `check` writes a disk inode of a read-only file system behind the kernel's back -/
  | check (d ino : ℕ) (dip : Image)
  | tick

/-- An inode is changed and given back by somebody who has it. -/
def Enabled (T : Table) : Op → Prop
  | .iattach _ ino => ino ≠ 0
  | .idetach j | .change j _ => (T.inodep j).i_refc ≠ 0
  | .check d _ _ => (T.fs d).m_ron = true
  | _ => True

instance (T : Table) (op : Op) : Decidable (Enabled T op) := by
  cases op <;> simp only [Enabled] <;> infer_instance

def exec (T : Table) : Op → Table
  | .iattach d ino => (iattach T d ino).2
  | .idetach j => idetach T j
  | .change j c => change T j c
  | .isync d => isync T d
  | .check d ino dip => { T with
      dinode := Function.update T.dinode d (Function.update (T.dinode d) ino dip) }
  | .tick => { T with t_time := T.t_time + 1 }

def Step (T : Table) (op : Op) (U : Table) : Prop := Enabled T op ∧ U = exec T op

/-- Slot `j` holds an inode of device `d`. -/
def Slot (T : Table) (d j : ℕ) : Prop :=
  j < T.NINODE ∧ (T.inodep j).i_dev = d ∧ (T.inodep j).i_ino ≠ 0

/-- What the kernel sees of a disk inode: the fields its mode says are there, as wide as they
are on the disk and in core. -/
def seen (dip : Image) : Image :=
  let t := dip.di_mode &&& IFMT
  { dip with
    di_addr := fun i =>
      if i < naddr dip.di_mode then ((ulong (dip.di_addr i) % 2 ^ 24 : ℕ) : ℤ) else 0
    di_rdev := if t = IFBLK ∨ t = IFCHR then dip.di_rdev % 65536 else 0
    di_pnc := if t = IFPIPE then dip.di_pnc % 65536 else 0
    di_prx := if t = IFPIPE then dip.di_prx % 65536 else 0
    di_pwx := if t = IFPIPE then dip.di_pwx % 65536 else 0 }

/-- The inode in slot `j` is the one on the disk. -/
def Clean (T : Table) (j : ℕ) : Prop :=
  image (T.inodep j) = seen (T.dinode (T.inodep j).i_dev (T.inodep j).i_ino)

/-- The steps after which no slot of device `d` is forgotten that differs from the disk: an
inode is given back for good only as it is on the disk, and `check` writes no inode that is
kept without a user. -/
def Careful (d : ℕ) (T : Table) : Op → Prop
  | .idetach j => (T.inodep j).i_dev = d → (T.inodep j).i_refc = 1 → Clean T j
  | .check d' ino _ => d' = d → ∀ j, Slot T d j → (T.inodep j).i_ino = ino →
      (T.inodep j).i_refc ≠ 0
  | _ => True

def CarefulStep (d : ℕ) (T : Table) (op : Op) (U : Table) : Prop := Step T op U ∧ Careful d T op

/-! ### The disk inode and the inode in core -/

/-- Which addresses a mode has, and with it which fields of the union. -/
lemma mode_cases (m : ℕ) :
    ((m &&& IFMT = IFBLK ∨ m &&& IFMT = IFCHR) ∧ ¬ (m &&& IFMT = IFREG ∨ m &&& IFMT = IFDIR) ∧
      ¬ m &&& IFMT = IFPIPE ∧ naddr m = 0) ∨
    (¬ (m &&& IFMT = IFBLK ∨ m &&& IFMT = IFCHR) ∧ (m &&& IFMT = IFREG ∨ m &&& IFMT = IFDIR) ∧
      ¬ m &&& IFMT = IFPIPE ∧ naddr m = NADDR) ∨
    (¬ (m &&& IFMT = IFBLK ∨ m &&& IFMT = IFCHR) ∧ ¬ (m &&& IFMT = IFREG ∨ m &&& IFMT = IFDIR) ∧
      m &&& IFMT = IFPIPE ∧ naddr m = ND) ∨
    (¬ (m &&& IFMT = IFBLK ∨ m &&& IFMT = IFCHR) ∧ ¬ (m &&& IFMT = IFREG ∨ m &&& IFMT = IFDIR) ∧
      ¬ m &&& IFMT = IFPIPE ∧ naddr m = 0) := by
  generalize hm : m &&& IFMT = t
  unfold naddr
  rw [hm]
  by_cases h1 : t = IFBLK ∨ t = IFCHR
  · left
    rcases h1 with rfl | rfl <;> decide
  · by_cases h2 : t = IFREG ∨ t = IFDIR
    · right; left
      rcases h2 with rfl | rfl <;> decide
    · by_cases h3 : t = IFPIPE
      · right; right; left
        subst h3; decide
      · right; right; right
        rw [or_comm] at h2
        exact ⟨h1, by rwa [or_comm], h3, by rw [if_neg h3, if_neg h2]⟩

/-- What is read into core is what is seen on the disk. -/
lemma image_fill (dip : Image) (ip : Cached) : image (fill dip ip) = seen dip := by
  rcases mode_cases dip.di_mode with ⟨h1, -, h3, h4⟩ | ⟨h1, h2, h3, h4⟩ | ⟨-, -, h3, h4⟩ |
    ⟨h1, h2, h3, h4⟩
  · -- case 1: a special file
    simp [image, fill, seen, toDisk, load, h1, h3, h4, i_rdev, setRdev, highHalf_setHigh]
  · -- case 2: a file or a directory
    simp only [image, fill, seen, toDisk, load, h1, h2, h3, h4, if_false, if_true, loadAddr]
    congr 2
    funext i
    split_ifs <;> rfl
  · -- case 3: a pipe
    have hb : ¬ (IFPIPE = IFBLK ∨ IFPIPE = IFCHR) := by decide
    have hr : ¬ (IFPIPE = IFREG ∨ IFPIPE = IFDIR) := by decide
    simp only [image, fill, seen, toDisk, load, hb, hr, h3, h4, if_false, if_true, i_pwx_setPwx,
      i_prx_setPwx, i_prx_setPrx, i_pnc_setPwx, i_pnc_setPrx, i_pnc_setPnc]
    congr 2
    funext i
    split_ifs with hi
    · rw [(counters_addr _ _ hi).2.2, (counters_addr _ _ hi).2.1, (counters_addr _ _ hi).1, loadAddr,
        if_pos hi]
    · rfl
  · -- case 4: no file
    simp [image, fill, seen, toDisk, load, h1, h2, h3, h4]

lemma ulong_mod (n : ℕ) : ulong ((n % 2 ^ 24 : ℕ) : ℤ) % 2 ^ 24 = n % 2 ^ 24 := by
  unfold ulong
  omega

/-- What was written back is seen as it was written. -/
lemma seen_image (ip : Cached) : seen (image ip) = image ip := by
  have hlow : ∀ v, lowHalf v < 65536 := fun v => by unfold lowHalf; omega
  simp only [seen, image, toDisk]
  congr 2
  · funext i
    split_ifs
    · rw [ulong_mod]
    · rfl
  · split_ifs
    · exact Nat.mod_eq_of_lt (highHalf_lt _)
    · rfl
  · split_ifs
    · exact Nat.mod_eq_of_lt (highHalf_lt _)
    · rfl
  · split_ifs
    · exact Nat.mod_eq_of_lt (hlow _)
    · rfl
  · split_ifs
    · exact Nat.mod_eq_of_lt (highHalf_lt _)
    · rfl

/-! ### A read-only file system stays read only -/

lemma bfree_ron {fs : Fs} (h : fs.m_ron = true) (b : ℤ) : (bfree fs b).m_ron = true := by
  simp [bfree, h]

/-- What one turn of a loop over a file system keeps, the loop keeps. -/
lemma foldl_ron {α : Type*} (f : Fs → α → Fs)
    (hf : ∀ fs a gs, fs.m_ron = true → gs = f fs a → gs.m_ron = true) (l : List α) {fs : Fs}
    (h : fs.m_ron = true) : (l.foldl f fs).m_ron = true := by
  induction l generalizing fs with
  | nil => exact h
  | cons a l ih => exact ih (hf fs a _ h rfl)

lemma indfree_ron (n : ℕ) {fs : Fs} (h : fs.m_ron = true) (b : ℤ) :
    (indfree n fs b).m_ron = true := by
  induction n generalizing fs b with
  | zero =>
    unfold indfree
    split_ifs
    · exact h
    · exact bfree_ron h b
  | succ n ih =>
    unfold indfree
    by_cases hb : b = 0
    · rw [if_pos hb]; exact h
    · rw [if_neg hb]
      split
      · exact bfree_ron h b
      · refine bfree_ron (foldl_ron _ (fun fs i gs hfs hgs => ?_) _ h) b
        rw [hgs]
        split_ifs
        · exact hfs
        · exact bfree_ron hfs _
        · exact ih hfs _

lemma iclear_ron {fs : Fs} (h : fs.m_ron = true) (ip : Inode) :
    (Itable.iclear fs ip).1.m_ron = true := by
  unfold Itable.iclear
  dsimp only
  split_ifs
  · exact h
  · refine foldl_ron _ (fun fs i gs hfs hgs => ?_) _ (foldl_ron _ (fun fs i gs hfs hgs => ?_) _ h)
    · rw [hgs]
      split_ifs
      · exact bfree_ron hfs _
      · exact hfs
    · rw [hgs]
      split_ifs
      · exact indfree_ron _ hfs _
      · exact hfs

/-! ### The period -/

/-- File system `d` is read only, and no slot is kept for it without a user that differs from the
disk. -/
structure Inv (d : ℕ) (T : Table) : Prop where
  ron : (T.fs d).m_ron = true
  idle : ∀ j, Slot T d j → (T.inodep j).i_refc = 0 → Clean T j

section Period

variable {d : ℕ} {T : Table}

lemma Inv.setFs (h : Inv d T) (d' : ℕ) (fs : Fs) (hr : d' = d → fs.m_ron = true) :
    Inv d (setFs T d' fs) := by
  refine ⟨?_, h.idle⟩
  by_cases hd : d = d'
  · subst hd; simpa [Remount.setFs] using hr rfl
  · simpa [Remount.setFs, Function.update_of_ne hd] using h.ron

/-- A slot gets a user, loses its inode, or holds what is on the disk. -/
lemma Inv.setInode (h : Inv d T) (j : ℕ) (ip : Cached)
    (hip : ip.i_dev = d → ip.i_ino ≠ 0 → ip.i_refc = 0 → image ip = seen (T.dinode d ip.i_ino)) :
    Inv d (setInode T j ip) := by
  refine ⟨h.ron, fun k hk hr => ?_⟩
  by_cases hkj : k = j
  · subst hkj
    obtain ⟨-, hdev, hino⟩ := hk
    simp only [Remount.setInode, Function.update_self] at hdev hino hr
    have := hip hdev hino hr
    simp only [Clean, Remount.setInode, Function.update_self, hdev]
    exact this
  · simp only [Slot, Remount.setInode, Function.update_of_ne hkj] at hk hr
    simpa only [Clean, Remount.setInode, Function.update_of_ne hkj] using h.idle k hk hr

/-- The disk inodes of the other devices do not matter. -/
lemma Inv.disk (h : Inv d T) {d' : ℕ} (hd : d' ≠ d) (f : ℕ → Image) :
    Inv d { T with dinode := Function.update T.dinode d' f } := by
  refine ⟨h.ron, fun k hk hr => ?_⟩
  have hne : (T.inodep k).i_dev ≠ d' := by rw [hk.2.1]; exact hd.symm
  simpa only [Clean, Function.update_of_ne hne] using h.idle k hk hr

lemma iclear_dev (T : Table) (ip : Cached) :
    (iclear T ip).2.i_dev = ip.i_dev ∧ (iclear T ip).2.i_refc = ip.i_refc := by
  unfold iclear Itable.iclear
  dsimp only
  split_ifs <;> simp [iamc, iacc, imod, icrt, Itable.iamc]

/-- An inode of the file system is not written back, and another one does not matter. -/
lemma Inv.icopymd (h : Inv d T) (j : ℕ) : Inv d (icopymd T j) := by
  unfold Remount.icopymd
  extract_lets ip src r T'
  split_ifs with hron hrd
  · exact h
  all_goals
    have hne : ip.i_dev ≠ d := fun hd => hron (by rw [hd]; exact h.ron)
    have hrdev : r.2.i_dev ≠ d := by
      simp only [r]
      split_ifs
      · rw [(iclear_dev T ip).1]; exact hne
      · exact hne
    have hT' : Inv d T' := h.setFs ip.i_dev r.1 fun hd => absurd hd hne
  · have hj := hT'.setInode j { r.2 with i_acc := false, i_mod := false, i_crt := false }
      fun hd => absurd hd hrdev
    exact hj.disk hne _
  · exact hT'.setInode j _ fun hd => absurd hd hrdev

lemma Inv.isync (h : Inv d T) (d' : ℕ) : Inv d (isync T d') := by
  unfold Remount.isync
  generalize List.range T.NINODE = l
  induction l generalizing T with
  | nil => exact h
  | cons j l ih =>
    rw [List.foldl_cons]
    refine ih ?_
    dsimp only
    split_ifs
    · exact h
    · exact h.icopymd j

lemma Inv.idetach (h : Inv d T) (j : ℕ) (hj : (T.inodep j).i_refc ≠ 0)
    (hc : (T.inodep j).i_dev = d → (T.inodep j).i_refc = 1 → Clean T j) : Inv d (idetach T j) := by
  have h1 : Inv d (Remount.setInode T j
      { T.inodep j with i_refc := (T.inodep j).i_refc - 1 }) := by
    refine h.setInode j _ fun hd _ hr => ?_
    have := hc hd (by dsimp only at hr; omega)
    rw [← hd]
    exact this
  unfold Remount.idetach
  dsimp only
  split_ifs
  · exact h1.icopymd j
  · exact h1

/-- What a system call does to an inode: its slot is still its user's, and the file system is still
read only if it was. -/
lemma change_eq (T : Table) (j : ℕ) (c : Change) : ∃ ip fs,
    change T j c = Remount.setFs (Remount.setInode T j ip) (T.inodep j).i_dev fs ∧
      ip.i_refc = (T.inodep j).i_refc ∧
      ((T.fs (T.inodep j).i_dev).m_ron = true → fs.m_ron = true) := by
  have hself : ∀ ip, Remount.setFs (Remount.setInode T j ip) (T.inodep j).i_dev
      (T.fs (T.inodep j).i_dev) = Remount.setInode T j ip := by
    intro ip
    simp [Remount.setFs, Remount.setInode]
  cases c with
  | clear => exact ⟨_, _, rfl, (iclear_dev T _).2, fun h => iclear_ron h _⟩
  | utime times =>
    cases times with
    | none => exact ⟨_, _, (hself _).symm, rfl, id⟩
    | some t => exact ⟨_, _, (hself _).symm, rfl, id⟩
  | _ => exact ⟨_, _, (hself _).symm, rfl, id⟩

lemma Inv.change (h : Inv d T) (j : ℕ) (hj : (T.inodep j).i_refc ≠ 0) (c : Change) :
    Inv d (change T j c) := by
  obtain ⟨ip, fs, e, hr, hron⟩ := change_eq T j c
  rw [e]
  refine (h.setInode j ip fun _ _ h0 => absurd (hr.symm.trans h0) hj).setFs _ fs fun hd => ?_
  exact hron (by rw [hd]; exact h.ron)

lemma Inv.iattach (h : Inv d T) (d' ino : ℕ) : Inv d (iattach T d' ino).2 := by
  unfold Remount.iattach
  split
  · exact h.setInode _ _ fun _ _ h0 => absurd h0 (Nat.succ_ne_zero _)
  · split
    · refine h.setFs d' _ fun hd => ?_
      rw [hd]; exact h.ron
    · dsimp only
      split_ifs with hrd
      · refine h.setInode _ _ fun _ _ h0 => ?_
        simp [icopydm, hrd, fill, load] at h0
      · exact h.setInode _ _ fun _ h0 _ => absurd rfl h0

lemma inv_step {op : Op} {U : Table} (h : Inv d T) (hst : CarefulStep d T op U) : Inv d U := by
  obtain ⟨⟨hen, rfl⟩, hc⟩ := hst
  cases op with
  | iattach d' ino => exact h.iattach d' ino
  | idetach j => exact h.idetach j hen hc
  | change j c => exact h.change j hen c
  | isync d' => exact h.isync d'
  | check d' ino dip =>
    by_cases hd : d' = d
    · subst hd
      refine ⟨h.ron, fun k hk hr => ?_⟩
      have hne : (T.inodep k).i_ino ≠ ino := fun hi => hc rfl k hk hi hr
      have hdev : (T.inodep k).i_dev = d' := hk.2.1
      have hclean := h.idle k hk hr
      simp only [Clean, exec, hdev, Function.update_self, Function.update_of_ne hne] at hclean ⊢
      exact hclean
    · exact h.disk hd _
  | tick => exact ⟨h.ron, h.idle⟩

/-- A remount that succeeds. -/
lemma fsremount_eq {f : Bool} (hron : (T.fs d).m_ron = true)
    (hrw : ((fsremount T d f).fs d).m_ron = false) :
    ∃ fs, fsremount T d f = Remount.setFs (iremap T d) d fs := by
  unfold fsremount at hrw ⊢
  dsimp only at hrw ⊢
  rw [if_neg (by simp [hron])] at hrw ⊢
  split at hrw
  · simp [Remount.setFs, hron] at hrw
  · rename_i p hp
    split_ifs at hrw ⊢
    · simp [Remount.setFs, hron] at hrw
    · exact ⟨_, rfl⟩

/-- Every slot has been read again or was what is on the disk. -/
lemma iremap_clean (hread : ∀ j, Slot T d j → readable T d (T.inodep j).i_ino = true)
    (hidle : ∀ j, Slot T d j → (T.inodep j).i_refc = 0 → Clean T j) {j : ℕ}
    (hj : Slot (iremap T d) d j) : Clean (iremap T d) j := by
  by_cases hu : j < T.NINODE ∧ (T.inodep j).i_refc ≠ 0 ∧ (T.inodep j).i_dev = d
  · have hino : (icopydm T (T.inodep j)).i_dev = d ∧
        (icopydm T (T.inodep j)).i_ino = (T.inodep j).i_ino := by
      rw [← hu.2.2]
      unfold icopydm
      split_ifs <;> exact ⟨rfl, rfl⟩
    have hslot : Slot T d j := by
      refine ⟨hu.1, hu.2.2, ?_⟩
      have := hj.2.2
      simp only [iremap, if_pos hu] at this
      rwa [hino.2] at this
    simp only [Clean, iremap, if_pos hu, hino.1, hino.2]
    have hr := hread j hslot
    rw [← hu.2.2] at hr
    rw [icopydm, if_pos hr, image_fill, hu.2.2]
  · have hslot : Slot T d j := by
      simpa only [Slot, iremap, if_neg hu] using hj
    have h0 : (T.inodep j).i_refc = 0 := by
      by_contra h0
      exact hu ⟨hslot.1, h0, hslot.2.1⟩
    simpa only [Clean, iremap, if_neg hu] using hidle j hslot h0

end Period

/-- To write a slot back that is on the disk changes nothing that can be seen, unless the disk
inode has no name. -/
lemma Clean.icopymd {T : Table} {j : ℕ} (h : Clean T j) (hu : ¬ unused (T.inodep j).toInode)
    (d ino : ℕ) : seen ((icopymd T j).dinode d ino) = seen (T.dinode d ino) := by
  unfold Remount.icopymd
  dsimp only
  rw [if_neg hu]
  split_ifs
  · rfl
  · by_cases hd : d = (T.inodep j).i_dev
    · by_cases hi : ino = (T.inodep j).i_ino
      · subst hd hi
        simp only [setFs, Function.update_self]
        rw [seen_image, h]
      · subst hd
        simp only [setFs, Function.update_self, Function.update_of_ne hi]
    · simp only [setFs, Function.update_of_ne hd]
  · rfl

/-- A file with one name. -/
def file : Image where
  di_mode := IFREG ||| 0o644
  di_nlink := 1
  di_size := 0
  di_addr _ := 0
  di_rdev := 0
  di_pnc := 0
  di_prx := 0
  di_pwx := 0
  di_uid := 0
  di_gid := 0
  di_atime := 0
  di_mtime := 0
  di_ctime := 0

/-- Device 1 has just been mounted read only; its inodes are files. -/
def mounted : Table where
  NINODE := 2
  inodep _ :=
    { i_dev := 0, i_ino := 0, i_refc := 0, i_lrt := 0, i_acc := false, i_mod := false, i_crt := false
      i_mode := 0, i_nlink := 0, i_size := 0, i_addr := fun _ => 0, i_uid := 0, i_gid := 0
      i_atime := 0, i_mtime := 0, i_ctime := 0 }
  dinode _ _ := file
  fs _ :=
    { m_super := getSuper zeroBlock, m_ron := true, disk := fun _ => zeroBlock, rdok := fun _ => true
      u_error := none, msg := [] }
  t_time := 1

lemma mounted_new (j : ℕ) : ¬ Slot mounted 1 j := by
  rintro ⟨-, h, -⟩
  simp [mounted] at h

/-- Inode 6 is looked at, the mode of inode 5 is changed by somebody who keeps it. -/
def lookAndKeep : List Op := [.iattach 1 6, .idetach 0, .iattach 1 5, .change 1 (.chmod 0o600)]

/-- A user of inode 5 unlinks it, and gives it back. -/
def unlinkAndForget : List Op := [.iattach 1 5, .change 0 .unlink, .idetach 0]

end Coherent.Remount
