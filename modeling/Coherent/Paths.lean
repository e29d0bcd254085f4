import Coherent.Links

/-!
Path names: `ftoi`, and what `chdir` and `chroot` make of it.

An inode is its device and its number here, as it is in core once. The characters of a path
come one by one and may fault; at most `PATHMAX` of them are read. A directory is the array of
its entries, and the subtree of a directory is what its entries lead to, over mount points.
The loops that need not end have a bound on their turns, and no result beyond it.
-/

namespace Coherent.Paths

open Coherent.Super Coherent.Itable Coherent.Links Coherent.Lib
open Coherent.Super.Errno ( EIO)

def PATHMAX : ℕ := 1024
def DIRSIZ : ℕ := 14
def SLASH : UInt8 := 47
def DOT : UInt8 := 46

/-- The device and the number of an inode. -/
abbrev Ino := ℕ × ℕ

structure Mount where
  m_dev : ℕ
  m_ip : Ino

/-- The file systems as one process finds them. -/
structure World where
  rootdev : ℕ
  i_mode : Ino → ℕ
  dir : Ino → List Direct
  /-- block `b` of a directory can be read -/
  rdok : Ino → ℕ → Bool
  /-- `iaccess(ip, IPE)` -/
  access : Ino → Bool
  mountp : List Mount
  /-- the error if the inode cannot be brought into core -/
  lost : Ino → Option Errno

def isDir (w : World) (ip : Ino) : Prop := w.i_mode ip &&& IFMT = IFDIR

instance (w : World) (ip : Ino) : Decidable (isDir w ip) := by unfold isDir; infer_instance

/-- What `ftoi` leaves in the user area. -/
structure Area where
  u_cdirn : ℕ
  u_cdiri : Option Ino
  u_pdiri : Option Ino
  io_seek : ℕ
  u_error : Option Errno

/-- The types of access: reference, create and unlink. -/
inductive Access
  | r | c | u
  deriving DecidableEq

/-- The directories of a process. -/
structure Proc where
  u_cdir : Ino
  u_rdir : Ino

def failure (e : Errno) : Area := ⟨0, none, none, 0, some e⟩

/-! ### Reading the path -/

/-- The next character, with `nleft` still to be read. -/
def ftoic (np : ℕ → Option UInt8) : ℕ → Except Errno UInt8
  | 0 => .error .ENOENT
  | n + 1 =>
    match np (PATHMAX - (n + 1)) with
    | none => .error .EFAULT
    | some c => .ok c

/-- Skip slashes from the character `c` on. -/
def slashes (np : ℕ → Option UInt8) : ℕ → UInt8 → Except Errno (UInt8 × ℕ)
  | 0, c => if c = SLASH then .error .ENOENT else .ok (c, 0)
  | n + 1, c =>
    if c = SLASH then
      match ftoic np (n + 1) with
      | .error e => .error e
      | .ok c => slashes np n c
    else .ok (c, n + 1)

/-- Collect a name from the character `c` on. What does not fit is dropped. -/
def component (np : ℕ → Option UInt8) : ℕ → UInt8 → List UInt8 → Except Errno (List UInt8 × UInt8 × ℕ)
  | 0, c, cs => if c = SLASH ∨ c = 0 then .ok (cs, c, 0) else .error .ENOENT
  | n + 1, c, cs =>
    if c = SLASH ∨ c = 0 then .ok (cs, c, n + 1)
    else
      match ftoic np (n + 1) with
      | .error e => .error e
      | .ok c' => component np n c' (if cs.length < DIRSIZ then cs ++ [c] else cs)

/-- The name as it is compared: padded with zeros. -/
def padded (cs : List UInt8) : List UInt8 := cs ++ List.replicate (DIRSIZ - cs.length) 0

/-- The test for `..`. -/
def isDotDot (name : List UInt8) : Prop := name[0]? = some DOT ∧ name[1]? = some DOT ∧ name[2]? = some 0

instance (name : List UInt8) : Decidable (isDotDot name) := by unfold isDotDot; infer_instance

/-! ### Following it -/

/-- The search of a directory: the number and the place of the entry, and the place for a new
one. Its blocks have 32 entries. -/
def search (w : World) (ip : Ino) (name : List UInt8) :
    ℕ → Option ℕ → List Direct → Except Errno (Option (ℕ × ℕ) × ℕ)
  | i, fseek, [] => .ok (none, fseek.getD (16 * i))
  | i, fseek, dp :: ds =>
    if i % 32 = 0 ∧ w.rdok ip (i / 32) = false then .error EIO
    else if dp.d_ino = 0 then search w ip name (i + 1) (some (fseek.getD (16 * i))) ds
    else if dp.d_name = name then .ok (some (dp.d_ino, 16 * i), fseek.getD (16 * i))
    else search w ip name (i + 1) fseek ds

/-- The inode on which the file system of the root `ip` was mounted. -/
def ftoim (w : World) (ip : Ino) : Ino :=
  match w.mountp.find? fun mp => mp.m_dev = ip.1 with
  | some mp => mp.m_ip
  | none => ip

/-- Bring an inode into core; where a file system is mounted, the root of that one. -/
def iattach (w : World) : ℕ → Ino → Option (Except Errno Ino)
  | 0, _ => none
  | n + 1, ip =>
    match w.mountp.find? fun mp => mp.m_ip = ip with
    | some mp => iattach w n (mp.m_dev, ROOTIN)
    | none =>
      match w.lost ip with
      | some e => some (.error e)
      | none => some (.ok ip)

/-- The directory in which a name is looked up, and the name: `..` in the root of the process is
the root itself, and in the root of a mounted file system it is that of the directory on which
it was mounted. -/
def resolve (w : World) (rdir cip : Ino) (name : List UInt8) : Ino × List UInt8 :=
  if isDotDot name then
    if cip = rdir then (cip, name.set 1 0)
    else if cip.2 = ROOTIN ∧ cip.1 ≠ w.rootdev then (ftoim w cip, name)
    else (cip, name)
  else (cip, name)

/-- The loop of `ftoi`, in directory `cip` and at character `c`. -/
def walk (w : World) (rdir : Ino) (t : Access) (np : ℕ → Option UInt8) :
    ℕ → Ino → UInt8 → ℕ → Option Area
  | 0, _, _, _ => none
  | k + 1, cip, c, n =>
    match component np n c [] with
    | .error e => some (failure e)
    | .ok (cs, c, n) =>
      match slashes np n c with
      | .error e => some (failure e)
      | .ok (c, n) =>
        if ¬ isDir w cip then some (failure .ENOTDIR)
        else if w.access cip = false then some (failure .EACCES)
        else
          let (cip, name) := resolve w rdir cip (padded cs)
          match search w cip name 0 none (w.dir cip) with
          | .error e => some (failure e)
          | .ok (none, fseek) =>
            if c = 0 ∧ t = .c then some ⟨0, none, some cip, fseek, none⟩
            else some (failure .ENOENT)
          | .ok (some (ino, cseek), _) =>
            if c = 0 ∧ t = .u then some ⟨ino, none, some cip, cseek, none⟩
            else
              (iattach w (w.mountp.length + 1) (cip.1, ino)).bind fun a =>
                match a with
                | .error e => some (failure e)
                | .ok ip =>
                  if c = 0 then some ⟨0, some ip, none, 0, none⟩
                  else walk w rdir t np k ip c n

/-- Map the name to an inode. -/
def ftoi (w : World) (s : Proc) (np : ℕ → Option UInt8) (t : Access) : Option Area :=
  match ftoic np PATHMAX with
  | .error e => some (failure e)
  | .ok c₀ =>
    let cip := if c₀ = SLASH then s.u_rdir else s.u_cdir
    match slashes np (PATHMAX - 1) c₀ with
    | .error e => some (failure e)
    | .ok (c, n) =>
      if c = 0 then
        if t = .r then some ⟨0, some cip, none, 0, none⟩ else some (failure .ENOENT)
      else walk w s.u_rdir t np PATHMAX cip c n

/-- The directory for `chdir` and `chroot`. -/
def setcdir (w : World) (s : Proc) (np : ℕ → Option UInt8) : Option (Except Errno Ino) :=
  (ftoi w s np .r).map fun a =>
    match a.u_error, a.u_cdiri with
    | some e, _ => .error e
    | none, none => .error EIO
    | none, some ip =>
      if ¬ isDir w ip then .error .ENOTDIR
      else if w.access ip = false then .error .EACCES
      else .ok ip

/-! ### Names -/

def dotName : List UInt8 := padded [DOT]
def dotdotName : List UInt8 := padded [DOT, DOT]

variable {w : World} {np : ℕ → Option UInt8} {cs cs' : List UInt8} {c c' : UInt8} {n n' : ℕ}

/-- A collected name has no zeros. -/
lemma component_nz (h : component np n c cs = .ok (cs', c', n')) (hcs : ∀ x ∈ cs, x ≠ 0) :
    ∀ x ∈ cs', x ≠ 0 := by
  induction n generalizing c cs with
  | zero =>
    rw [component] at h
    split_ifs at h
    · obtain ⟨rfl, -⟩ := Prod.mk.inj (Except.ok.inj h)
      exact hcs
  | succ n ih =>
    rw [component] at h
    by_cases hc : c = SLASH ∨ c = 0
    · rw [if_pos hc] at h
      obtain ⟨rfl, -⟩ := Prod.mk.inj (Except.ok.inj h)
      exact hcs
    · rw [if_neg hc] at h
      split at h
      · cases h
      · refine ih h fun x hx => ?_
        rw [not_or] at hc
        split_ifs at hx
        · rcases List.mem_append.mp hx with hx | hx
          · exact hcs x hx
          · rw [List.mem_singleton.mp hx]
            exact hc.2
        · exact hcs x hx

/-- The test for `..` finds only that. -/
lemma isDotDot_padded (hcs : ∀ x ∈ cs, x ≠ 0) (h : isDotDot (padded cs)) : cs = [DOT, DOT] := by
  obtain ⟨h0, h1, h2⟩ := h
  rcases cs with _ | ⟨a, _ | ⟨b, _ | ⟨d, cs⟩⟩⟩
  · exact absurd h0 (by decide)
  · exact absurd h1 (by simp [padded, DIRSIZ, DOT])
  · obtain rfl : a = DOT := by simpa [padded] using h0
    obtain rfl : b = DOT := by simpa [padded] using h1
    rfl
  · have hd : d = 0 := by simpa [padded] using h2
    exact absurd hd (hcs d (by simp))

/-! ### The tree -/

/-- Directory `D` has an entry for `X` besides `.` and `..`. -/
def Entry (w : World) (D X : Ino) : Prop :=
  isDir w D ∧ ∃ dp ∈ w.dir D, dp.d_ino ≠ 0 ∧ dp.d_name ≠ dotName ∧ dp.d_name ≠ dotdotName ∧
    X = (D.1, dp.d_ino)

/-- One step down the tree: to an entry, or to the root of a file system mounted here. -/
def Child (w : World) (D X : Ino) : Prop :=
  Entry w D X ∨ ∃ mp ∈ w.mountp, mp.m_ip = D ∧ X = (mp.m_dev, ROOTIN)

/-- `x` is in the subtree of `r`. -/
def Inside (w : World) (r x : Ino) : Prop := Relation.ReflTransGen (Child w) r x

/-- No file system is mounted on the inode. -/
def Bare (w : World) (ip : Ino) : Prop := ∀ mp ∈ w.mountp, mp.m_ip ≠ ip

/-- The directories of each file system form a tree: `.` is the directory itself, `..` the one
that has an entry for it, of which there is one; the root is nobody's entry, and its `..` is
itself. File systems are mounted once, and on directories that are no roots. -/
structure Tree (w : World) : Prop where
  dot : ∀ D, isDir w D → ∀ dp ∈ w.dir D, dp.d_ino ≠ 0 → dp.d_name = dotName → dp.d_ino = D.2
  dotdot : ∀ D, isDir w D → ∀ dp ∈ w.dir D, dp.d_ino ≠ 0 → dp.d_name = dotdotName →
    if D.2 = ROOTIN then dp.d_ino = ROOTIN else Entry w (D.1, dp.d_ino) D
  parent : ∀ D P P', isDir w D → Entry w P D → Entry w P' D → P = P'
  root : ∀ P D, Entry w P D → D.2 ≠ ROOTIN
  mounted : ∀ mp ∈ w.mountp, mp.m_ip.2 ≠ ROOTIN ∧ isDir w mp.m_ip
  once : ∀ mp ∈ w.mountp, ∀ mp' ∈ w.mountp, mp.m_dev = mp'.m_dev → mp = mp'

variable {r x y D P : Ino}

lemma Inside.child (h : Inside w r x) (hc : Child w x y) : Inside w r y := h.tail hc

/-- Up the tree from a directory below `r`. -/
lemma Tree.up (hw : Tree w) (h : Inside w r D) (hne : D ≠ r) (hd : isDir w D) (hp : Entry w P D) :
    Inside w r P := by
  rcases h.cases_tail with rfl | ⟨y, hy, hc⟩
  · exact absurd rfl hne
  · rcases hc with he | ⟨mp, -, -, rfl⟩
    · rw [hw.parent D P y hd hp he]
      exact hy
    · exact absurd rfl (hw.root P _ hp)

/-- Up from the root of a mounted file system below `r`. -/
lemma Tree.upMount (hw : Tree w) (h : Inside w r D) (hne : D ≠ r) {mp : Mount} (hm : mp ∈ w.mountp)
    (hD : D = (mp.m_dev, ROOTIN)) : Inside w r mp.m_ip := by
  rcases h.cases_tail with rfl | ⟨y, hy, hc⟩
  · exact absurd rfl hne
  · rcases hc with he | ⟨mp', hm', rfl, hD'⟩
    · exact absurd (by rw [hD]) (hw.root y D he)
    · have hdev : mp'.m_dev = mp.m_dev := by
        rw [hD] at hD'
        exact (Prod.mk.inj hD').1.symm
      rw [← hw.once mp' hm' mp hm hdev]
      exact hy

/-! ### A step stays inside -/

lemma search_mem {name : List UInt8} {ds : List Direct} {i ino cseek f : ℕ} {fseek : Option ℕ}
    (h : search w x name i fseek ds = .ok (some (ino, cseek), f)) :
    ∃ dp ∈ ds, dp.d_ino = ino ∧ dp.d_ino ≠ 0 ∧ dp.d_name = name := by
  induction ds generalizing i fseek with
  | nil =>
    rw [search] at h
    cases h
  | cons dp ds ih =>
    rw [search] at h
    split_ifs at h with h1 h2 h3
    · obtain ⟨dp', hm, hdp⟩ := ih h
      exact ⟨dp', List.mem_cons_of_mem dp hm, hdp⟩
    · obtain ⟨hi, -⟩ := Prod.mk.inj (Except.ok.inj h)
      obtain ⟨rfl, -⟩ := Prod.mk.inj (Option.some.inj hi)
      exact ⟨dp, by simp, rfl, h2, h3⟩
    · obtain ⟨dp', hm, hdp⟩ := ih h
      exact ⟨dp', List.mem_cons_of_mem dp hm, hdp⟩

/-- The entry `..` of a directory below `r`. -/
lemma Tree.dotdot_inside (hw : Tree w) (h : Inside w r D) (hne : D ≠ r) (hd : isDir w D) {dp : Direct}
    (hm : dp ∈ w.dir D) (h0 : dp.d_ino ≠ 0) (hn : dp.d_name = dotdotName) :
    Inside w r (D.1, dp.d_ino) := by
  have hdd := hw.dotdot D hd dp hm h0 hn
  split_ifs at hdd with hr
  · rw [hdd, ← hr]
    exact h
  · exact hw.up h hne hd hdd

/-- Where a name is looked up, and what is found there, is inside. -/
lemma Tree.resolve_inside (hw : Tree w) (hr : Bare w r) (h : Inside w r x) (hd : isDir w x)
    (hcs : ∀ a ∈ cs, a ≠ 0) : Inside w r (resolve w r x (padded cs)).1 ∧
      ∀ dp ∈ w.dir (resolve w r x (padded cs)).1, dp.d_ino ≠ 0 →
        dp.d_name = (resolve w r x (padded cs)).2 →
        Inside w r ((resolve w r x (padded cs)).1.1, dp.d_ino) := by
  unfold resolve
  split_ifs with hdd hx hm
  · -- `..` in the root of the process
    refine ⟨h, fun dp hdp h0 hn => ?_⟩
    rw [isDotDot_padded hcs hdd] at hn
    rw [hw.dot x hd dp hdp h0 hn]
    exact h
  · -- `..` in the root of a mounted file system
    have hname := isDotDot_padded hcs hdd
    unfold ftoim
    cases hf : w.mountp.find? fun mp => mp.m_dev = x.1 with
    | none =>
      refine ⟨h, fun dp hdp h0 hn => ?_⟩
      rw [hname] at hn
      exact hw.dotdot_inside h hx hd hdp h0 hn
    | some mp =>
      have hmem := List.mem_of_find?_eq_some hf
      have hdev : mp.m_dev = x.1 := by simpa using List.find?_some hf
      have hin : Inside w r mp.m_ip := hw.upMount h hx hmem (by rw [hdev, ← hm.1])
      refine ⟨hin, fun dp hdp h0 hn => ?_⟩
      dsimp only at hdp hn ⊢
      rw [hname] at hn
      exact hw.dotdot_inside hin (hr mp hmem) (hw.mounted mp hmem).2 hdp h0 hn
  · refine ⟨h, fun dp hdp h0 hn => ?_⟩
    rw [isDotDot_padded hcs hdd] at hn
    exact hw.dotdot_inside h hx hd hdp h0 hn
  · -- any other name
    refine ⟨h, fun dp hdp h0 hn => ?_⟩
    by_cases hdot : dp.d_name = dotName
    · rw [hw.dot x hd dp hdp h0 hdot]
      exact h
    · refine h.child (Or.inl ⟨hd, dp, hdp, h0, hdot, fun he => hdd ?_, rfl⟩)
      have hpad : padded cs = dotdotName := hn.symm.trans he
      rw [hpad]
      decide

lemma iattach_inside {k : ℕ} (h : iattach w k x = some (.ok y)) : Inside w x y ∧ Bare w y := by
  induction k generalizing x with
  | zero => cases h
  | succ k ih =>
    rw [iattach] at h
    split at h
    · rename_i mp hf
      have hmem := List.mem_of_find?_eq_some hf
      have hip : mp.m_ip = x := by simpa using List.find?_some hf
      obtain ⟨h1, h2⟩ := ih h
      exact ⟨h1.head (Or.inr ⟨mp, hmem, hip, rfl⟩), h2⟩
    · rename_i hf
      split at h
      · cases h
      · obtain rfl := Except.ok.inj (Option.some.inj h)
        refine ⟨.refl, fun mp hm he => ?_⟩
        have := List.find?_eq_none.mp hf mp hm
        exact this (by simpa using he)

/-! ### The whole path -/

/-- What `ftoi` leaves is inside, and an inode it gives to its caller has nothing mounted on it. -/
structure Confined (w : World) (r : Ino) (a : Area) : Prop where
  cdiri : ∀ x, a.u_cdiri = some x → Inside w r x ∧ Bare w x
  pdiri : ∀ x, a.u_pdiri = some x → Inside w r x

lemma confined_failure (w : World) (r : Ino) (e : Errno) : Confined w r (failure e) :=
  ⟨fun _ h => absurd h (by simp [failure]), fun _ h => absurd h (by simp [failure])⟩

lemma component_le (h : component np n c cs = .ok (cs', c', n')) : n' ≤ n := by
  induction n generalizing c cs with
  | zero =>
    rw [component] at h
    split_ifs at h
    obtain ⟨-, h⟩ := Prod.mk.inj (Except.ok.inj h)
    exact (Prod.mk.inj h).2.ge
  | succ n ih =>
    rw [component] at h
    by_cases hc : c = SLASH ∨ c = 0
    · rw [if_pos hc] at h
      obtain ⟨-, h⟩ := Prod.mk.inj (Except.ok.inj h)
      exact (Prod.mk.inj h).2.ge
    · rw [if_neg hc] at h
      split at h
      · cases h
      · exact (ih h).trans (Nat.le_succ n)

/-- A name that has begun has at least one character. -/
lemma component_lt (h : component np n c cs = .ok (cs', c', n')) (h1 : c ≠ SLASH) (h2 : c ≠ 0) :
    n' < n := by
  have hc : ¬ (c = SLASH ∨ c = 0) := not_or.mpr ⟨h1, h2⟩
  cases n with
  | zero =>
    rw [component, if_neg hc] at h
    cases h
  | succ n =>
    rw [component, if_neg hc] at h
    split at h
    · cases h
    · exact Nat.lt_succ_of_le (component_le h)

lemma slashes_le (h : slashes np n c = .ok (c', n')) : n' ≤ n ∧ c' ≠ SLASH := by
  induction n generalizing c with
  | zero =>
    rw [slashes] at h
    split_ifs at h with hc
    obtain ⟨rfl, rfl⟩ := Prod.mk.inj (Except.ok.inj h)
    exact ⟨le_rfl, hc⟩
  | succ n ih =>
    rw [slashes] at h
    by_cases hc : c = SLASH
    · rw [if_pos hc] at h
      split at h
      · cases h
      · obtain ⟨h1, h2⟩ := ih h
        exact ⟨by omega, h2⟩
    · rw [if_neg hc] at h
      obtain ⟨rfl, rfl⟩ := Prod.mk.inj (Except.ok.inj h)
      exact ⟨le_rfl, hc⟩

/-- `iattach` follows one mount at most. -/
lemma Tree.iattach_returns (hw : Tree w) (x : Ino) : ∃ a, iattach w (w.mountp.length + 1) x = some a := by
  have hroot : ∀ k dev, ∃ a, iattach w (k + 1) (dev, ROOTIN) = some a := by
    intro k dev
    have hf : (w.mountp.find? fun mp => mp.m_ip = (dev, ROOTIN)) = none := by
      refine List.find?_eq_none.mpr fun mp hm he => ?_
      have hip : mp.m_ip = (dev, ROOTIN) := by simpa using he
      exact (hw.mounted mp hm).1 (by rw [hip])
    rw [iattach, hf]
    dsimp only
    split
    · exact ⟨_, rfl⟩
    · exact ⟨_, rfl⟩
  rw [iattach]
  split
  · rename_i mp hf
    obtain ⟨k, hk⟩ : ∃ k, w.mountp.length = k + 1 :=
      Nat.exists_eq_succ_of_ne_zero (List.length_pos_of_mem (List.mem_of_find?_eq_some hf)).ne'
    rw [hk]
    exact hroot k mp.m_dev
  · split
    · exact ⟨_, rfl⟩
    · exact ⟨_, rfl⟩

/-- The loop returns, as each turn reads a character, and stays inside. -/
lemma Tree.walk_confined (hw : Tree w) (hr : Bare w r) (t : Access) {k : ℕ} (hk : n < k)
    (h1 : c ≠ SLASH) (h2 : c ≠ 0) (h : Inside w r x) :
    ∃ a, walk w r t np k x c n = some a ∧ Confined w r a := by
  induction k generalizing x c n with
  | zero => omega
  | succ k ih =>
    rw [walk]
    cases hcomp : component np n c [] with
    | error e => exact ⟨_, rfl, confined_failure w r e⟩
    | ok v =>
      obtain ⟨cs, c₁, n₁⟩ := v
      dsimp only
      have hcs := component_nz hcomp (by simp)
      have hn₁ := component_lt hcomp h1 h2
      cases hsl : slashes np n₁ c₁ with
      | error e => exact ⟨_, rfl, confined_failure w r e⟩
      | ok v =>
        obtain ⟨c₂, n₂⟩ := v
        dsimp only
        obtain ⟨hn₂, hc₂⟩ := slashes_le hsl
        by_cases hd : isDir w x
        swap
        · rw [if_pos hd]
          exact ⟨_, rfl, confined_failure w r _⟩
        rw [if_neg (not_not.mpr hd)]
        by_cases hacc : w.access x = false
        · rw [if_pos hacc]
          exact ⟨_, rfl, confined_failure w r _⟩
        rw [if_neg hacc]
        obtain ⟨hin, hentry⟩ := hw.resolve_inside hr h hd hcs
        generalize resolve w r x (padded cs) = v at hin hentry ⊢
        obtain ⟨y, name⟩ := v
        dsimp only at hin hentry ⊢
        cases hse : search w y name 0 none (w.dir y) with
        | error e => exact ⟨_, rfl, confined_failure w r e⟩
        | ok v =>
          obtain ⟨_ | ⟨ino, cseek⟩, fseek⟩ := v
          · -- no such entry
            dsimp only
            split_ifs
            · refine ⟨_, rfl, fun _ hx => absurd hx (by simp), fun z hz => ?_⟩
              rw [← Option.some.inj hz]
              exact hin
            · exact ⟨_, rfl, confined_failure w r _⟩
          · obtain ⟨dp, hdp, rfl, h0, hname⟩ := search_mem hse
            have hfound : Inside w r (y.1, dp.d_ino) := hentry dp hdp h0 hname
            dsimp only
            by_cases hu : c₂ = 0 ∧ t = .u
            · rw [if_pos hu]
              refine ⟨_, rfl, fun _ hx => absurd hx (by simp), fun z hz => ?_⟩
              rw [← Option.some.inj hz]
              exact hin
            · rw [if_neg hu]
              obtain ⟨a, ha⟩ := hw.iattach_returns (y.1, dp.d_ino)
              rw [ha, Option.bind_some]
              cases a with
              | error e => exact ⟨_, rfl, confined_failure w r e⟩
              | ok z =>
                obtain ⟨hz, hbare⟩ := iattach_inside ha
                have hz' : Inside w r z := hfound.trans hz
                dsimp only
                by_cases hc : c₂ = 0
                · rw [if_pos hc]
                  refine ⟨_, rfl, fun z' hz'' => ?_, fun _ hx => absurd hx (by simp)⟩
                  rw [← Option.some.inj hz'']
                  exact ⟨hz', hbare⟩
                · rw [if_neg hc]
                  exact ih (by omega) hc₂ hc hz'

/-! ### Working and root directories -/

/-- The directories of a process: both are directories on which nothing is mounted, which `mount`
refuses for a directory in use, and the working directory is in the subtree of the root. -/
structure Proper (w : World) (s : Proc) : Prop where
  cdir : isDir w s.u_cdir ∧ Bare w s.u_cdir
  rdir : isDir w s.u_rdir ∧ Bare w s.u_rdir
  inside : Inside w s.u_rdir s.u_cdir

lemma Tree.ftoi_confined (hw : Tree w) {s : Proc} (hs : Proper w s) (np : ℕ → Option UInt8) (t : Access) :
    ∃ a, ftoi w s np t = some a ∧ Confined w s.u_rdir a := by
  unfold ftoi
  cases hc : ftoic np PATHMAX with
  | error e => exact ⟨_, rfl, confined_failure w _ e⟩
  | ok c₀ =>
    dsimp only
    generalize hcip : (if c₀ = SLASH then s.u_rdir else s.u_cdir) = cip
    have hin : Inside w s.u_rdir cip ∧ Bare w cip := by
      rw [← hcip]
      split_ifs
      · exact ⟨.refl, hs.rdir.2⟩
      · exact ⟨hs.inside, hs.cdir.2⟩
    cases hsl : slashes np (PATHMAX - 1) c₀ with
    | error e => exact ⟨_, rfl, confined_failure w _ e⟩
    | ok v =>
      obtain ⟨c, n⟩ := v
      obtain ⟨hn, hns⟩ := slashes_le hsl
      dsimp only
      by_cases h0 : c = 0
      · rw [if_pos h0]
        split_ifs
        · refine ⟨_, rfl, fun z hz => ?_, fun _ hx => absurd hx (by simp)⟩
          rw [← Option.some.inj hz]
          exact hin
        · exact ⟨_, rfl, confined_failure w _ _⟩
      · rw [if_neg h0]
        have hlt : n < PATHMAX := lt_of_le_of_lt hn (by decide)
        exact hw.walk_confined hs.rdir.2 t hlt hns h0 hin.1

/-- The calls that change the directories; only the superuser may change the root. -/
inductive Call
  | chdir (np : ℕ → Option UInt8)
  | chroot (np : ℕ → Option UInt8) (super : Bool)

def exec (w : World) (s : Proc) : Call → Option Proc
  | .chdir np => (setcdir w s np).map fun a =>
      match a with
      | .ok ip => { s with u_cdir := ip }
      | .error _ => s
  | .chroot np super =>
    if super then (setcdir w s np).map fun a =>
      match a with
      | .ok ip => { s with u_rdir := ip }
      | .error _ => s
    else some s

def Step (w : World) (s : Proc) (call : Call) (s' : Proc) : Prop := exec w s call = some s'

/-- The new root is the working directory or above it. -/
def Above (w : World) (s : Proc) : Call → Prop
  | .chdir _ => True
  | .chroot np super => super = true → ∀ ip, setcdir w s np = some (.ok ip) → Inside w ip s.u_cdir

def AboveStep (w : World) (s : Proc) (call : Call) (s' : Proc) : Prop :=
  Step w s call s' ∧ Above w s call

lemma Tree.setcdir_confined (hw : Tree w) {s : Proc} (hs : Proper w s) (np : ℕ → Option UInt8) :
    ∃ a, setcdir w s np = some a ∧
      ∀ ip, a = .ok ip → isDir w ip ∧ Bare w ip ∧ Inside w s.u_rdir ip := by
  obtain ⟨a, ha, hc⟩ := hw.ftoi_confined hs np .r
  unfold setcdir
  rw [ha, Option.map_some]
  refine ⟨_, rfl, fun ip hip => ?_⟩
  split at hip
  · cases hip
  · cases hip
  · rename_i x herr hx
    split_ifs at hip with hd hacc
    obtain rfl := Except.ok.inj hip
    obtain ⟨h1, h2⟩ := hc.cdiri x hx
    exact ⟨hd, h2, h1⟩

lemma Tree.step_proper (hw : Tree w) {s s' : Proc} {call : Call} (hs : Proper w s)
    (hst : AboveStep w s call s') : Proper w s' := by
  obtain ⟨hex, hab⟩ := hst
  cases call with
  | chdir np =>
    obtain ⟨a, ha, hc⟩ := hw.setcdir_confined hs np
    rw [Step, exec, ha, Option.map_some] at hex
    cases a with
    | error e => exact Option.some.inj hex ▸ hs
    | ok ip =>
      obtain ⟨h1, h2, h3⟩ := hc ip rfl
      rw [← Option.some.inj hex]
      exact ⟨⟨h1, h2⟩, hs.rdir, h3⟩
  | chroot np super =>
    cases super with
    | false =>
      have he : some s = some s' := hex
      exact Option.some.inj he ▸ hs
    | true =>
      obtain ⟨a, ha, hc⟩ := hw.setcdir_confined hs np
      rw [Step, exec, if_pos rfl, ha, Option.map_some] at hex
      cases a with
      | error e => exact Option.some.inj hex ▸ hs
      | ok ip =>
        obtain ⟨h1, h2, -⟩ := hc ip rfl
        rw [← Option.some.inj hex]
        exact ⟨hs.cdir, ⟨h1, h2⟩, hab rfl ip ha⟩

/-- **Confinement to the root directory.** From directories of which the working one is in the
subtree of the root, `ftoi` returns for every path and type of access, and leaves no inode
outside that subtree; and every run of `chdir` and `chroot` in which each new root is the working
directory or above it leads to such directories again. -/
theorem chroot_confinement_runs (hw : Tree w) :
    (∀ s, Proper w s → ∀ np t, ∃ a, ftoi w s np t = some a ∧
      (∀ x, a.u_cdiri = some x → Inside w s.u_rdir x) ∧
      ∀ x, a.u_pdiri = some x → Inside w s.u_rdir x) ∧
    ∀ s₀ calls s, Proper w s₀ → Run (AboveStep w) s₀ calls s → Proper w s := by
  constructor
  · intro s hs np t
    obtain ⟨a, ha, hc⟩ := hw.ftoi_confined hs np t
    exact ⟨a, ha, fun x hx => (hc.cdiri x hx).1, hc.pdiri⟩
  · intro s₀ calls s h₀ hrun
    exact hrun.invariant (I := Proper w) (fun _ _ _ h hst => hw.step_proper h hst) h₀

/-! ### A root below the working directory -/

/-- A path with its zero. -/
def path (cs : List UInt8) (i : ℕ) : Option UInt8 := (cs ++ [0])[i]?

/-- The root directory has one entry, the directory `a`, which is empty. -/
def smallWorld : World where
  rootdev := 0
  i_mode _ := IFDIR ||| 0o755
  dir ip :=
    if ip = (0, 2) then [⟨2, dotName⟩, ⟨2, dotdotName⟩, ⟨3, padded [97]⟩]
    else if ip = (0, 3) then [⟨3, dotName⟩, ⟨2, dotdotName⟩]
    else []
  rdok _ _ := true
  access _ := true
  mountp := []
  lost _ := none

lemma smallWorld_entry {D X : Ino} (h : Entry smallWorld D X) : D = (0, 2) ∧ X = (0, 3) := by
  obtain ⟨-, dp, hdp, h0, h1, h2, rfl⟩ := h
  simp only [smallWorld] at hdp
  split_ifs at hdp with hD hD'
  · simp only [List.mem_cons, List.not_mem_nil, or_false] at hdp
    rcases hdp with rfl | rfl | rfl
    · exact absurd rfl h1
    · exact absurd rfl h2
    · exact ⟨hD, by rw [hD]⟩
  · simp only [List.mem_cons, List.not_mem_nil, or_false] at hdp
    rcases hdp with rfl | rfl
    · exact absurd rfl h1
    · exact absurd rfl h2
  · exact absurd hdp (List.not_mem_nil)

lemma smallWorld_a : Entry smallWorld (0, 2) (0, 3) :=
  ⟨by decide, ⟨3, padded [97]⟩, by decide, by decide, by decide, by decide, rfl⟩

lemma smallWorld_tree : Tree smallWorld where
  dot D _ dp hdp _ hn := by
    simp only [smallWorld] at hdp
    split_ifs at hdp with hD hD'
    · rw [hD]
      simp only [List.mem_cons, List.not_mem_nil, or_false] at hdp
      rcases hdp with rfl | rfl | rfl
      · rfl
      · rfl
      · exact absurd hn (by decide)
    · rw [hD']
      simp only [List.mem_cons, List.not_mem_nil, or_false] at hdp
      rcases hdp with rfl | rfl
      · rfl
      · exact absurd hn (by decide)
    · exact absurd hdp (List.not_mem_nil)
  dotdot D _ dp hdp _ hn := by
    simp only [smallWorld] at hdp
    split_ifs at hdp with hD hD'
    · subst hD
      simp only [List.mem_cons, List.not_mem_nil, or_false] at hdp
      rcases hdp with rfl | rfl | rfl
      · exact absurd hn (by decide)
      · exact rfl
      · exact absurd hn (by decide)
    · subst hD'
      simp only [List.mem_cons, List.not_mem_nil, or_false] at hdp
      rcases hdp with rfl | rfl
      · exact absurd hn (by decide)
      · exact smallWorld_a
    · exact absurd hdp (List.not_mem_nil)
  parent D P P' _ h h' := (smallWorld_entry h).1.trans (smallWorld_entry h').1.symm
  root P D h := by
    rw [(smallWorld_entry h).2]
    decide
  mounted mp hm := absurd hm (List.not_mem_nil)
  once mp hm := absurd hm (List.not_mem_nil)

/-- A process in the root directory. -/
def atRoot : Proc := ⟨(0, 2), (0, 2)⟩

lemma atRoot_proper : Proper smallWorld atRoot :=
  ⟨⟨by decide, by simp [Bare, smallWorld]⟩, ⟨by decide, by simp [Bare, smallWorld]⟩, .refl⟩

/-- The working directory goes to `a` first and the root follows it. -/
theorem followed_proper : Proper smallWorld ⟨(0, 3), (0, 3)⟩ := by
  have h₁ : AboveStep smallWorld atRoot (.chdir (path [97])) ⟨(0, 3), (0, 2)⟩ := ⟨rfl, trivial⟩
  have h₂ : AboveStep smallWorld ⟨(0, 3), (0, 2)⟩ (.chroot (path [DOT]) true) ⟨(0, 3), (0, 3)⟩ := by
    refine ⟨rfl, fun _ ip hip => ?_⟩
    have hip' : setcdir smallWorld ⟨(0, 3), (0, 2)⟩ (path [DOT]) = some (.ok (0, 3)) := rfl
    rw [hip'] at hip
    obtain rfl := Except.ok.inj (Option.some.inj hip)
    exact .refl
  exact (chroot_confinement_runs smallWorld_tree).2 atRoot _ _ atRoot_proper (.snoc (.snoc (.nil _) h₁) h₂)

/-- A new root below the working directory leaves that outside, and the path `..` leads there. -/
theorem chroot_leaves_cdir : Tree smallWorld ∧ Proper smallWorld atRoot ∧
    ∃ s, Run (Step smallWorld) atRoot [.chroot (path [SLASH, 97]) true] s ∧
      ¬ Inside smallWorld s.u_rdir s.u_cdir ∧
      ∃ a x, ftoi smallWorld s (path [DOT, DOT]) .r = some a ∧ a.u_cdiri = some x ∧
        ¬ Inside smallWorld s.u_rdir x := by
  have hout : ¬ Inside smallWorld (0, 3) (0, 2) := by
    intro h
    rcases h.cases_head with he | ⟨b, hb | ⟨mp, hm, -⟩, -⟩
    · exact absurd he (by decide)
    · exact absurd (smallWorld_entry hb).1 (by decide)
    · exact absurd hm (List.not_mem_nil)
  have hrun : Run (Step smallWorld) atRoot ([] ++ [.chroot (path [SLASH, 97]) true]) ⟨(0, 2), (0, 3)⟩ :=
    .snoc (.nil _) rfl
  exact ⟨smallWorld_tree, atRoot_proper, _, hrun, hout, ⟨0, some (0, 2), none, 0, none⟩, (0, 2), rfl, rfl,
    hout⟩

end Coherent.Paths
