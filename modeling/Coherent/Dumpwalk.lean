import Mathlib.Tactic
import Mathlib.Logic.Relation

/-!
What an incremental dump marks, `walk`, and how `restor` finds it again by name.

A volume is its inodes; `block` is what `imap` and `dbread` make of a block of a directory, with
`none` for a hole. Only the directories on the tape are looked up, and an entry has the part of its
name that `DIRSIZ` leaves.
-/

namespace Coherent.Dumpwalk

/-- `di_mode & IFMT`, as far as `walk` looks at it. -/
inductive Kind
  | IFDIR
  | IFPIPE
  | other
  deriving DecidableEq

structure Direct where
  d_ino : ℕ
  d_name : List UInt8

structure Dinode where
  di_mode : Kind
  di_ctime : ℤ
  di_size : ℕ
  block : ℕ → Option (List Direct)

/-- The inodes, the level of the dump and the time it goes back to. -/
structure Vol where
  inode : ℕ → Dinode
  level : ℕ
  ddate : ℤ

/-- The bits of `map`. -/
structure Mark where
  DD_BUSY : Bool
  DD_DUMP : Bool
  DD_DIR : Bool
  DD_DEJA : Bool

abbrev Map := ℕ → Mark

def Map.clear : Map := fun _ => ⟨false, false, false, false⟩

def BUFSIZ : ℤ := 512

/-! ### The walk -/

/-- The entries of a block in the order in which they are walked. -/
def ents (b : List Direct) (ndir : ℕ) : List ℕ :=
  (((b.take ndir).map Direct.d_ino).filter (· ≠ 0)).reverse

/-- `while (nent--) if (walk(ent[nent])) flag = 1;` -/
def visit (rec : ℕ → Map → Option (Bool × Map)) : List ℕ → Bool → Map → Option (Bool × Map)
  | [], flag, map => some (flag, map)
  | ino :: is, flag, map =>
    match rec ino map with
    | none => none
    | some (r, map) => visit rec is (flag || r) map

/-- The entries that are looked at in a block. -/
def ndir (di_size : ℤ) : ℤ := if di_size < BUFSIZ then di_size / 16 else 32

/-- The loop over the blocks, for so many turns at most. Blocks behind the size are not there; a
block read with a size below zero runs far behind the buffer. -/
def scan (rec : ℕ → Map → Option (Bool × Map)) (d : Dinode) :
    ℕ → ℤ → ℕ → Bool → Map → Option (Bool × Map)
  | 0, _, _, _, _ => none
  | turns + 1, di_size, dirb, flag, map =>
    if di_size = 0 then some (flag, map)
    else match d.block dirb with
      | none => scan rec d turns (di_size - BUFSIZ) (dirb + 1) flag map
      | some b =>
        if di_size < 0 then none
        else match visit rec (ents b (ndir di_size).toNat) flag map with
          | none => none
          | some (flag, map) => scan rec d turns (di_size - 16 * ndir di_size) (dirb + 1) flag map

variable (V : Vol)

/-- `level==0 || di_ctime>ddate` -/
def Vol.changed (ino : ℕ) : Prop := V.level = 0 ∨ V.ddate < (V.inode ino).di_ctime

instance (ino : ℕ) : Decidable (V.changed ino) := instDecidableOr

/-- `walk`, for so many calls in each other and turns of a loop at most. -/
def walk : ℕ → ℕ → Map → Option (Bool × Map)
  | 0, _, _ => none
  | fuel + 1, ino, map =>
    if (map ino).DD_DEJA then some (false, map)
    else match (V.inode ino).di_mode with
      | .IFPIPE => some (false, map)
      | .other =>
        let m := { map ino with DD_BUSY := true }
        if V.changed ino then some (true, Function.update map ino { m with DD_DUMP := true })
        else some (false, Function.update map ino m)
      | .IFDIR =>
        let map := Function.update map ino
          { map ino with DD_BUSY := true, DD_DEJA := true, DD_DIR := true }
        match scan (walk fuel) (V.inode ino) fuel (V.inode ino).di_size 0 false map with
        | none => none
        | some (flag, map) =>
          let m := { map ino with DD_DUMP := (map ino).DD_DUMP || flag || decide (V.changed ino) }
          some (flag, Function.update map ino { m with DD_DEJA := false })

/-! ### Directories -/

/-- The entries of block `k` that lie within the size. -/
def Dinode.part (d : Dinode) (k : ℕ) : List Direct :=
  ((d.block k).getD []).take ((d.di_size - 512 * k) / 16)

/-- The entries of a directory, with those that are not in use. -/
def Dinode.listing (d : Dinode) : List Direct :=
  (List.range ((d.di_size + 511) / 512)).flatMap d.part

def dot : List UInt8 := [46]

def dotdot : List UInt8 := [46, 46]

variable {V}

/-- `i` is an entry of the directory `d` other than `.` and `..`. -/
def Vol.Sub (V : Vol) (d i : ℕ) : Prop :=
  (V.inode d).di_mode = .IFDIR ∧
    ∃ e ∈ (V.inode d).listing, e.d_ino = i ∧ i ≠ 0 ∧ e.d_name ≠ dot ∧ e.d_name ≠ dotdot

/-- `i` is `d` or lies below it. -/
def Vol.Below (V : Vol) : ℕ → ℕ → Prop := Relation.ReflTransGen V.Sub

/-- The directories hang together as a tree: `.` and `..` name a directory and the one above it,
and every other entry that is a directory has its only place there. Blocks have 32 entries, and
no name stands twice in a directory. -/
structure Tree (V : Vol) (root : ℕ) where
  up : ℕ → ℕ
  depth : ℕ → ℕ
  deep : ℕ
  root_dir : (V.inode root).di_mode = .IFDIR
  root_up : up root = root
  root_depth : depth root = 0
  block_length : ∀ d k b, (V.inode d).block k = some b → b.length = 32
  whole : ∀ d, V.Below root d → (V.inode d).di_mode = .IFDIR → 16 ∣ (V.inode d).di_size
  le_deep : ∀ d, V.Below root d → (V.inode d).di_mode = .IFDIR → depth d ≤ deep
  dot_self : ∀ d, V.Below root d → (V.inode d).di_mode = .IFDIR →
    ∀ e ∈ (V.inode d).listing, e.d_ino ≠ 0 → e.d_name = dot → e.d_ino = d
  dotdot_up : ∀ d, V.Below root d → (V.inode d).di_mode = .IFDIR →
    ∀ e ∈ (V.inode d).listing, e.d_ino ≠ 0 → e.d_name = dotdot → e.d_ino = up d
  sub_up : ∀ d i, V.Below root d → V.Sub d i → (V.inode i).di_mode = .IFDIR →
    up i = d ∧ depth i = depth d + 1
  names : ∀ d, V.Below root d → (V.inode d).di_mode = .IFDIR →
    (((V.inode d).listing.filter (·.d_ino ≠ 0)).map Direct.d_name).Nodup

/-- Something below `i` that is no directory has changed. -/
def Vol.Hot (V : Vol) (i : ℕ) : Prop :=
  ∃ j, V.Below i j ∧ (V.inode j).di_mode = .other ∧ V.changed j

/-- What `walk` marks. -/
def Vol.Due (V : Vol) (j : ℕ) : Prop :=
  (V.inode j).di_mode ≠ .IFPIPE ∧ (V.changed j ∨ V.Hot j)

/-- The size is counted down to nothing: a last block that is not full is there. -/
def Dinode.Counted (d : Dinode) : Prop :=
  512 ∣ d.di_size ∨ (d.block (d.di_size / 512)).isSome

lemma Vol.Sub.dir {d i : ℕ} (h : V.Sub d i) : (V.inode d).di_mode = .IFDIR := h.1

/-- Below what is no directory there is nothing else. -/
lemma below_other {i j : ℕ} (h : (V.inode i).di_mode ≠ .IFDIR) (hb : V.Below i j) : j = i := by
  rcases Relation.ReflTransGen.cases_head hb with rfl | ⟨k, hk, -⟩
  · rfl
  · exact absurd hk.dir h

lemma below_cases {i j : ℕ} (h : V.Below i j) : j = i ∨ ∃ k, V.Sub i k ∧ V.Below k j := by
  rcases Relation.ReflTransGen.cases_head h with rfl | ⟨k, hk, hkj⟩
  · exact .inl rfl
  · exact .inr ⟨k, hk, hkj⟩

/-! ### What a walk that returns has done -/

/-- What may be in progress when the entries of `d` are walked. -/
structure Busy {root : ℕ} (T : Tree V root) (d : ℕ) (map : Map) : Prop where
  deja : ∀ j, (map j).DD_DEJA = true → (V.inode j).di_mode = .IFDIR ∧ T.depth j ≤ T.depth d
  self : (map d).DD_DEJA = true
  up : (map (T.up d)).DD_DEJA = true

/-- The marks that are added: those of `P`, with nothing else changed that matters. -/
structure Adds (V : Vol) (P : ℕ → Prop) (map map' : Map) : Prop where
  deja : ∀ j, (map' j).DD_DEJA = (map j).DD_DEJA
  dump : ∀ j, (map' j).DD_DUMP = true ↔ (map j).DD_DUMP = true ∨ P j ∧ V.Due j
  dir : ∀ j, (map' j).DD_DIR = true ↔
    (map j).DD_DIR = true ∨ P j ∧ (V.inode j).di_mode = .IFDIR

lemma Adds.rfl' {P : ℕ → Prop} (h : ∀ j, ¬ P j) (map : Map) : Adds V P map map where
  deja _ := rfl
  dump j := by simp [h j]
  dir j := by simp [h j]

lemma Adds.trans {P Q : ℕ → Prop} {a b c : Map} (h : Adds V P a b) (h' : Adds V Q b c) :
    Adds V (fun j => P j ∨ Q j) a c where
  deja j := (h'.deja j).trans (h.deja j)
  dump j := by rw [h'.dump, h.dump, or_assoc, ← or_and_right]
  dir j := by rw [h'.dir, h.dir, or_assoc, ← or_and_right]

lemma Adds.congr {P Q : ℕ → Prop} {a b : Map} (h : Adds V P a b) (he : ∀ j, P j ↔ Q j) :
    Adds V Q a b where
  deja := h.deja
  dump j := by rw [h.dump, he]
  dir j := by rw [h.dir, he]

lemma Busy.adds {root : ℕ} {T : Tree V root} {d : ℕ} {map map' : Map} {P : ℕ → Prop}
    (h : Busy T d map) (ha : Adds V P map map') : Busy T d map' where
  deja j hj := h.deja j (by rwa [ha.deja] at hj)
  self := by rw [ha.deja]; exact h.self
  up := by rw [ha.deja]; exact h.up

variable {root : ℕ} {T : Tree V root} {rec : ℕ → Map → Option (Bool × Map)}

/-- `i` stands in the listing of `d`. -/
def Vol.Entry (V : Vol) (d i : ℕ) : Prop :=
  ∃ e ∈ (V.inode d).listing, e.d_ino = i ∧ i ≠ 0

lemma entry_cases (T : Tree V root) {d i : ℕ} (hd : V.Below root d)
    (hdir : (V.inode d).di_mode = .IFDIR) (h : V.Entry d i) : V.Sub d i ∨ i = d ∨ i = T.up d := by
  obtain ⟨e, he, rfl, h0⟩ := h
  by_cases h1 : e.d_name = dot
  · exact .inr (.inl (T.dot_self d hd hdir e he h0 h1))
  · by_cases h2 : e.d_name = dotdot
    · exact .inr (.inr (T.dotdot_up d hd hdir e he h0 h2))
    · exact .inl ⟨hdir, e, he, rfl, h0, h1, h2⟩

/-- A proper entry of `d` is not in progress. -/
lemma Busy.not_deja {d i : ℕ} {map : Map} (h : Busy T d map) (hd : V.Below root d)
    (hs : V.Sub d i) : (map i).DD_DEJA ≠ true := fun hdeja => by
  obtain ⟨hdir, hle⟩ := h.deja i hdeja
  have hdeep := (T.sub_up d i hd hs hdir).2
  omega

/-- What `rec` does with the entries of `d`. -/
def Right (T : Tree V root) (d : ℕ) (rec : ℕ → Map → Option (Bool × Map)) : Prop :=
  ∀ i map r map', V.Entry d i → Busy T d map → rec i map = some (r, map') →
    (r = true ↔ V.Sub d i ∧ V.Hot i) ∧ Adds V (fun j => V.Sub d i ∧ V.Below i j) map map' ∧
      ∀ k, V.Sub d i → V.Below i k → (V.inode k).di_mode = .IFDIR → (V.inode k).Counted

/-- What has been done when the entries of `d` with the property `E` have been walked. -/
structure Done (V : Vol) (d : ℕ) (E : ℕ → Prop) (flag flag' : Bool) (map map' : Map) : Prop where
  flag : flag' = true ↔ flag = true ∨ ∃ i, E i ∧ V.Sub d i ∧ V.Hot i
  adds : Adds V (fun j => ∃ i, E i ∧ V.Sub d i ∧ V.Below i j) map map'
  counted : ∀ i k, E i → V.Sub d i → V.Below i k → (V.inode k).di_mode = .IFDIR →
    (V.inode k).Counted

lemma Done.refl {d : ℕ} {E : ℕ → Prop} (h : ∀ i, ¬ E i) (flag : Bool) (map : Map) :
    Done V d E flag flag map map where
  flag := by simp [h]
  adds := Adds.rfl' (by simp [h]) map
  counted i _ hi := absurd hi (h i)

lemma Done.trans {d : ℕ} {E E' : ℕ → Prop} {f f' f'' : Bool} {m m' m'' : Map}
    (h : Done V d E f f' m m') (h' : Done V d E' f' f'' m' m'') :
    Done V d (fun i => E i ∨ E' i) f f'' m m'' where
  flag := by
    rw [h'.flag, h.flag, or_assoc]
    simp only [or_and_right, exists_or]
  adds := (h.adds.trans h'.adds).congr fun j => by simp only [or_and_right, exists_or]
  counted i k hi := hi.elim (h.counted i k) (h'.counted i k)

lemma Done.congr {d : ℕ} {E E' : ℕ → Prop} {f f' : Bool} {m m' : Map} (h : Done V d E f f' m m')
    (he : ∀ i, E i ↔ E' i) : Done V d E' f f' m m' := by
  rwa [funext fun i => propext (he i)] at h

lemma visit_done {d : ℕ} (hrec : Right T d rec) : ∀ {is : List ℕ} {flag flag' : Bool}
    {map map' : Map}, (∀ i ∈ is, V.Entry d i) → Busy T d map →
      visit rec is flag map = some (flag', map') → Done V d (· ∈ is) flag flag' map map'
  | [], flag, flag', map, map', _, _, h => by
    cases h
    exact Done.refl (fun i => List.not_mem_nil) _ _
  | i :: is, flag, flag', map, map', hin, hb, h => by
    rw [visit] at h
    split at h
    · cases h
    · next r map₁ hr =>
      obtain ⟨hflag, hadds, hcounted⟩ := hrec i map r map₁ (hin i (by simp)) hb hr
      have hfirst : Done V d (· = i) flag (flag || r) map map₁ :=
        { flag := by simp [hflag]
          adds := hadds.congr fun j => by simp
          counted := fun _ k hi => hi ▸ hcounted k }
      have hlast := visit_done hrec (fun j hj => hin j (by simp [hj])) (hb.adds hadds) h
      exact (hfirst.trans hlast).congr fun j => by simp

/-- Below zero the size is never counted down to nothing. -/
lemma scan_neg (d : Dinode) : ∀ {turns : ℕ} {di_size : ℤ} {dirb : ℕ} {flag : Bool} {map : Map},
    di_size < 0 → scan rec d turns di_size dirb flag map = none
  | 0, _, _, _, _, _ => rfl
  | turns + 1, di_size, dirb, flag, map, h => by
    rw [scan, if_neg h.ne]
    split
    · exact scan_neg d (by simp only [BUFSIZ]; omega)
    · rw [if_pos h]

/-- `i` stands in block `k` or behind it. -/
def Dinode.From (d : Dinode) (k i : ℕ) : Prop :=
  ∃ k' ≥ k, k' < (d.di_size + 511) / 512 ∧ ∃ e ∈ d.part k', e.d_ino = i ∧ i ≠ 0

lemma from_zero {d i : ℕ} : (V.inode d).From 0 i ↔ V.Entry d i := by
  simp only [Dinode.From, Vol.Entry, Dinode.listing, List.mem_flatMap, List.mem_range, ge_iff_le,
    Nat.zero_le, true_and]
  constructor
  · rintro ⟨k, hk, e, he, h⟩
    exact ⟨e, ⟨k, hk, he⟩, h⟩
  · rintro ⟨e, ⟨k, hk, he⟩, h⟩
    exact ⟨k, hk, e, he, h⟩

lemma from_succ {d : Dinode} {k i : ℕ} (hk : 512 * k < d.di_size) :
    d.From k i ↔ (∃ e ∈ d.part k, e.d_ino = i ∧ i ≠ 0) ∨ d.From (k + 1) i := by
  constructor
  · rintro ⟨k', hge, hlt, he⟩
    rcases Nat.eq_or_lt_of_le hge with rfl | hlt'
    · exact .inl he
    · exact .inr ⟨k', hlt', hlt, he⟩
  · rintro (he | ⟨k', hge, hlt, he⟩)
    · exact ⟨k, le_rfl, by omega, he⟩
    · exact ⟨k', by omega, hlt, he⟩

lemma not_from {d : Dinode} {k i : ℕ} (hk : d.di_size ≤ 512 * k) : ¬ d.From k i := by
  rintro ⟨k', hge, hlt, -⟩
  omega

lemma mem_ents {b : List Direct} {n i : ℕ} :
    i ∈ ents b n ↔ ∃ e ∈ b.take n, e.d_ino = i ∧ i ≠ 0 := by
  simp only [ents, List.mem_reverse, List.mem_filter, List.mem_map, decide_eq_true_eq]
  constructor
  · rintro ⟨⟨e, he, rfl⟩, h0⟩
    exact ⟨e, he, rfl, h0⟩
  · rintro ⟨e, he, rfl, h0⟩
    exact ⟨⟨e, he, rfl⟩, h0⟩

lemma mem_ents_iff (T : Tree V root) {d k : ℕ} {b : List Direct}
    (hblock : (V.inode d).block k = some b) (hlt : 512 * k < (V.inode d).di_size) (i : ℕ) :
    i ∈ ents b (ndir ((V.inode d).di_size - 512 * k)).toNat ↔
      ∃ e ∈ (V.inode d).part k, e.d_ino = i ∧ i ≠ 0 := by
  have hlen := T.block_length d k b hblock
  rw [mem_ents, Dinode.part, hblock, Option.getD_some, ndir]
  split_ifs with hs
  · simp only [BUFSIZ] at hs
    rw [show ((((V.inode d).di_size : ℤ) - 512 * k) / 16).toNat =
      ((V.inode d).di_size - 512 * k) / 16 by omega]
  · simp only [BUFSIZ] at hs
    rw [List.take_of_length_le (by simpa using hlen.le), List.take_of_length_le (by omega)]

lemma ents_entry (T : Tree V root) {d k i : ℕ} {b : List Direct}
    (hblock : (V.inode d).block k = some b) (hlt : 512 * k < (V.inode d).di_size)
    (hi : i ∈ ents b (ndir ((V.inode d).di_size - 512 * k)).toNat) : V.Entry d i := by
  obtain ⟨k', -, hk'⟩ := (from_succ hlt).mpr (.inl ((mem_ents_iff T hblock hlt i).mp hi))
  exact from_zero.mp ⟨k', Nat.zero_le _, hk'⟩

/-- The loop from block `k` on. -/
lemma scan_done {d : ℕ} (hd : V.Below root d) (hdir : (V.inode d).di_mode = .IFDIR)
    (hrec : Right T d rec) : ∀ {turns k : ℕ} {flag flag' : Bool} {map map' : Map},
      512 * k ≤ (V.inode d).di_size → Busy T d map →
      scan rec (V.inode d) turns ((V.inode d).di_size - 512 * k) k flag map = some (flag', map') →
        Done V d ((V.inode d).From k) flag flag' map map' ∧ (V.inode d).Counted
  | 0, k, _, _, _, _, _, _, h => by simp [scan] at h
  | turns + 1, k, flag, flag', map, map', hk, hb, h => by
    have h16 := T.whole d hd hdir
    rw [scan] at h
    by_cases h0 : ((V.inode d).di_size : ℤ) - 512 * k = 0
    · rw [if_pos h0] at h
      cases h
      exact ⟨Done.refl (fun i => not_from (by omega)) _ _, .inl ⟨k, by omega⟩⟩
    · rw [if_neg h0] at h
      have hlt : 512 * k < (V.inode d).di_size := by omega
      split at h
      · next hhole =>
        -- a hole: nothing in this block
        have hpart : (V.inode d).part k = [] := by simp [Dinode.part, hhole]
        by_cases hfull : 512 * (k + 1) ≤ (V.inode d).di_size
        · have hnext : ((V.inode d).di_size : ℤ) - 512 * k - BUFSIZ =
              (V.inode d).di_size - 512 * (k + 1 : ℕ) := by
            simp only [BUFSIZ]
            push_cast
            ring
          rw [hnext] at h
          obtain ⟨hdone, hc⟩ := scan_done hd hdir hrec hfull hb h
          refine ⟨hdone.congr fun i => ?_, hc⟩
          rw [from_succ hlt, hpart]
          simp
        · rw [scan_neg _ (by simp only [BUFSIZ]; omega)] at h
          cases h
      · next b hblock =>
        rw [if_neg (by omega)] at h
        split at h
        · cases h
        · next flag₁ map₁ hvisit =>
          have hpart := mem_ents_iff T hblock hlt
          have hin := fun i hi => ents_entry T hblock hlt (i := i) hi
          have hfirst := visit_done hrec hin hb hvisit
          by_cases hs : ((V.inode d).di_size : ℤ) - 512 * k < BUFSIZ
          · -- the last block, which is not full
            rw [ndir, if_pos hs] at h
            simp only [BUFSIZ] at hs
            have hzero : ((V.inode d).di_size : ℤ) - 512 * k -
                16 * ((((V.inode d).di_size : ℤ) - 512 * k) / 16) = 0 := by omega
            rw [hzero] at h
            have hend : flag₁ = flag' ∧ map₁ = map' := by
              cases turns with
              | zero => simp [scan] at h
              | succ turns => simpa [scan] using h
            obtain ⟨rfl, rfl⟩ := hend
            refine ⟨hfirst.congr fun i => ?_, .inr ?_⟩
            · rw [hpart, from_succ hlt, or_iff_left (not_from (by omega))]
            · rw [show (V.inode d).di_size / 512 = k by omega, hblock]
              rfl
          · rw [ndir, if_neg hs] at h
            simp only [BUFSIZ] at hs
            have hnext : ((V.inode d).di_size : ℤ) - 512 * k - 16 * 32 =
                (V.inode d).di_size - 512 * (k + 1 : ℕ) := by
              push_cast
              ring
            rw [hnext] at h
            obtain ⟨hlast, hc⟩ := scan_done hd hdir hrec (by omega) (hb.adds hfirst.adds) h
            refine ⟨(hfirst.trans hlast).congr fun i => ?_, hc⟩
            rw [hpart, from_succ hlt]

/-- `i` is not in progress, and what is lies above it. -/
structure Ready (T : Tree V root) (i : ℕ) (map : Map) : Prop where
  free : (map i).DD_DEJA = false
  above : (V.inode i).di_mode = .IFDIR → (∀ j, (map j).DD_DEJA = true →
    (V.inode j).di_mode = .IFDIR ∧ T.depth j < T.depth i) ∧
      (i = root ∨ (map (T.up i)).DD_DEJA = true)

lemma Busy.ready {d i : ℕ} {map : Map} (h : Busy T d map) (hd : V.Below root d)
    (hs : V.Sub d i) : Ready T i map where
  free := by simpa using h.not_deja hd hs
  above := fun hdir => by
    obtain ⟨hup, hdepth⟩ := T.sub_up d i hd hs hdir
    refine ⟨fun j hj => ⟨(h.deja j hj).1, ?_⟩, .inr (hup ▸ h.self)⟩
    have hle := (h.deja j hj).2
    omega

/-- `map` when the entries of `i` are walked. -/
def Map.enter (map : Map) (i : ℕ) : Map :=
  Function.update map i { map i with DD_BUSY := true, DD_DEJA := true, DD_DIR := true }

lemma Ready.busy {i : ℕ} {map : Map} (h : Ready T i map) (hdir : (V.inode i).di_mode = .IFDIR) :
    Busy T i (map.enter i) where
  deja j hj := by
    by_cases hji : j = i
    · subst hji
      exact ⟨hdir, le_rfl⟩
    · rw [Map.enter, Function.update_of_ne hji] at hj
      obtain ⟨h1, h2⟩ := (h.above hdir).1 j hj
      exact ⟨h1, h2.le⟩
  self := by simp [Map.enter]
  up := by
    by_cases hup : T.up i = i
    · simp [Map.enter, hup]
    · rw [Map.enter, Function.update_of_ne hup]
      rcases (h.above hdir).2 with rfl | hdeja
      · exact absurd T.root_up hup
      · exact hdeja

lemma hot_iff_changed {i : ℕ} (h : (V.inode i).di_mode ≠ .IFDIR) :
    V.Hot i ↔ (V.inode i).di_mode = .other ∧ V.changed i := by
  constructor
  · rintro ⟨j, hb, hj⟩
    exact below_other h hb ▸ hj
  · exact fun hi => ⟨i, .refl, hi⟩

/-- A directory passes on what its entries return. -/
lemma hot_iff_sub {i : ℕ} (h : (V.inode i).di_mode = .IFDIR) :
    V.Hot i ↔ ∃ c, V.Sub i c ∧ V.Hot c := by
  constructor
  · rintro ⟨j, hb, hj, hc⟩
    rcases below_cases hb with rfl | ⟨c, hs, hcj⟩
    · rw [h] at hj
      cases hj
    · exact ⟨c, hs, j, hcj, hj, hc⟩
  · rintro ⟨c, hs, j, hb, hj⟩
    exact ⟨j, .head hs hb, hj⟩

lemma from_sub {d i : ℕ} (h : V.Sub d i) : (V.inode d).From 0 i := by
  obtain ⟨-, e, he, hi, h0, -⟩ := h
  exact from_zero.mpr ⟨e, he, hi, h0⟩

/-- The marks of a file. -/
lemma adds_file {i : ℕ} {map : Map} (h : (V.inode i).di_mode ≠ .IFDIR) {m : Mark}
    (hdeja : m.DD_DEJA = (map i).DD_DEJA) (hdir : m.DD_DIR = (map i).DD_DIR)
    (hdump : m.DD_DUMP = true ↔ (map i).DD_DUMP = true ∨ V.Due i) :
    Adds V (V.Below i) map (Function.update map i m) := by
  have hbelow : ∀ j, j ≠ i → ¬ V.Below i j := fun j hj hb => hj (below_other h hb)
  have hself : V.Below i i := .refl
  refine ⟨fun j => ?_, fun j => ?_, fun j => ?_⟩ <;> by_cases hj : j = i
  · subst hj; simp [hdeja]
  · simp [Function.update_of_ne hj]
  · subst hj; simp [hdump, hself]
  · simp [Function.update_of_ne hj, hbelow j hj]
  · subst hj; simp [hdir, h]
  · simp [Function.update_of_ne hj, hbelow j hj]

/-- The marks of a directory. -/
lemma adds_dir {i : ℕ} {map map₂ : Map} {flag : Bool} (hr : Ready T i map)
    (hdir : (V.inode i).di_mode = .IFDIR)
    (h : Done V i ((V.inode i).From 0) false flag (map.enter i) map₂) :
    Adds V (V.Below i) map (Function.update map₂ i { map₂ i with
      DD_DUMP := (map₂ i).DD_DUMP || flag || decide (V.changed i), DD_DEJA := false }) := by
  have hself : V.Below i i := .refl
  have hflag : flag = true ↔ V.Hot i := by
    rw [h.flag, hot_iff_sub hdir]
    simp only [Bool.false_eq_true, false_or]
    exact exists_congr fun c => and_iff_right_of_imp fun hs => from_sub hs.1
  have hdue : V.Due i ↔ V.changed i ∨ V.Hot i := by
    rw [Vol.Due, hdir]
    simp
  have hbelow : ∀ j, j ≠ i →
      ((∃ c, (V.inode i).From 0 c ∧ V.Sub i c ∧ V.Below c j) ↔ V.Below i j) := by
    intro j hj
    constructor
    · rintro ⟨c, -, hs, hb⟩
      exact .head hs hb
    · intro hb
      obtain ⟨c, hs, hcj⟩ := (below_cases hb).resolve_left hj
      exact ⟨c, from_sub hs, hs, hcj⟩
  refine ⟨fun j => ?_, fun j => ?_, fun j => ?_⟩ <;> by_cases hj : j = i
  · subst hj
    simp [hr.free]
  · rw [Function.update_of_ne hj, h.adds.deja, Map.enter, Function.update_of_ne hj]
  · subst hj
    simp only [Function.update_self, Bool.or_eq_true, decide_eq_true_eq, h.adds.dump, hflag,
      hself, true_and, hdue, Map.enter]
    tauto
  · rw [Function.update_of_ne hj, h.adds.dump, hbelow j hj, Map.enter, Function.update_of_ne hj]
  · subst hj
    simp only [Function.update_self, h.adds.dir, Map.enter, true_or, hself, hdir, and_self,
      or_true]
  · rw [Function.update_of_ne hj, h.adds.dir, hbelow j hj, Map.enter, Function.update_of_ne hj]

/-- A walk that returns has marked what is due below its inode, and tells whether a file there has
changed. -/
def Sound (T : Tree V root) (fuel : ℕ) : Prop :=
  ∀ i map map' r, V.Below root i → Ready T i map → walk V fuel i map = some (r, map') →
    (r = true ↔ V.Hot i) ∧ Adds V (V.Below i) map map' ∧
      ∀ k, V.Below i k → (V.inode k).di_mode = .IFDIR → (V.inode k).Counted

lemma walk_deja {fuel i : ℕ} {map : Map} {q : Bool × Map} (h : (map i).DD_DEJA = true)
    (hw : walk V fuel i map = some q) : q = (false, map) := by
  cases fuel with
  | zero => simp [walk] at hw
  | succ fuel => simpa [walk, h] using hw.symm

lemma Busy.sub {d i : ℕ} {map : Map} (h : Busy T d map) (hd : V.Below root d)
    (hdir : (V.inode d).di_mode = .IFDIR) (hi : V.Entry d i) (hdeja : (map i).DD_DEJA ≠ true) :
    V.Sub d i := by
  rcases entry_cases T hd hdir hi with hs | rfl | rfl
  · exact hs
  · exact absurd h.self hdeja
  · exact absurd h.up hdeja

lemma Sound.right {fuel d : ℕ} (h : Sound T fuel) (hd : V.Below root d)
    (hdir : (V.inode d).di_mode = .IFDIR) : Right T d (walk V fuel) := by
  intro c m rc m' hc hb hw
  by_cases hdeja : (m c).DD_DEJA = true
  · have hsub : ¬ V.Sub d c := fun hs => hb.not_deja hd hs hdeja
    cases walk_deja hdeja hw
    exact ⟨by simp [hsub], Adds.rfl' (by simp [hsub]) m, fun k hs => absurd hs hsub⟩
  · have hs := hb.sub hd hdir hc hdeja
    obtain ⟨h1, h2, h3⟩ := h c m m' rc (hd.tail hs) (hb.ready hd hs) hw
    exact ⟨by simp [h1, hs], h2.congr fun j => by simp [hs], fun k _ => h3 k⟩

lemma sound (T : Tree V root) : ∀ fuel, Sound T fuel := by
  intro fuel
  induction fuel with
  | zero => exact fun i map map' r _ _ h => by simp [walk] at h
  | succ fuel ih =>
    intro i map map' r hi hr h
    have hfile : (V.inode i).di_mode ≠ .IFDIR →
        ∀ k, V.Below i k → (V.inode k).di_mode = .IFDIR → (V.inode k).Counted :=
      fun hne k hb hk => absurd (below_other hne hb ▸ hk) hne
    simp only [walk, hr.free, Bool.false_eq_true, if_false] at h
    split at h
    · next hpipe =>
      have hne : (V.inode i).di_mode ≠ .IFDIR := by simp [hpipe]
      cases h
      have hadds : Adds V (V.Below i) map (Function.update map i (map i)) :=
        adds_file hne rfl rfl (by simp [Vol.Due, hpipe])
      rw [Function.update_eq_self] at hadds
      exact ⟨by simp [hot_iff_changed hne, hpipe], hadds, hfile hne⟩
    · next hother =>
      have hne : (V.inode i).di_mode ≠ .IFDIR := by simp [hother]
      have hdue : V.Due i ↔ V.changed i := by simp [Vol.Due, hot_iff_changed hne, hother]
      split_ifs at h with hc <;> cases h
      · exact ⟨by simp [hot_iff_changed hne, hother, hc],
          adds_file hne hr.free.symm rfl (by simp [hdue, hc]), hfile hne⟩
      · exact ⟨by simp [hot_iff_changed hne, hc],
          adds_file hne hr.free.symm rfl (by simp [hdue, hc]), hfile hne⟩
    · next hdir =>
      split at h
      · cases h
      · next flag map₂ hscan =>
        have hscan' : scan (walk V fuel) (V.inode i) fuel
            ((V.inode i).di_size - 512 * (0 : ℕ)) 0 false (map.enter i) = some (flag, map₂) := by
          simpa [Map.enter] using hscan
        obtain ⟨hdone, hcounted⟩ :=
          scan_done hi hdir (ih.right hi hdir) (Nat.zero_le _) (hr.busy hdir) hscan'
        cases h
        refine ⟨?_, adds_dir hr hdir hdone, fun k hb hk => ?_⟩
        · rw [hdone.flag, hot_iff_sub hdir]
          simp only [Bool.false_eq_true, false_or]
          exact exists_congr fun c => and_iff_right_of_imp fun hs => from_sub hs.1
        · rcases below_cases hb with rfl | ⟨c, hs, hck⟩
          · exact hcounted
          · exact hdone.counted c k (from_sub hs) hs hck hk

/-! ### Where every walk returns -/

/-- With so much fuel `walk` returns for `i`. -/
def Returns (T : Tree V root) (i fuel : ℕ) : Prop :=
  ∀ fuel' ≥ fuel, ∀ map, Ready T i map → walk V fuel' i map ≠ none

lemma visit_ne_none {d : ℕ} (hrec : Right T d rec)
    (hall : ∀ c map, V.Entry d c → Busy T d map → rec c map ≠ none) :
    ∀ {is : List ℕ} {flag : Bool} {map : Map}, (∀ i ∈ is, V.Entry d i) → Busy T d map →
      visit rec is flag map ≠ none
  | [], _, _, _, _ => by simp [visit]
  | i :: is, flag, map, hin, hb => by
    rw [visit]
    split
    · next hr => exact absurd hr (hall i map (hin i (by simp)) hb)
    · next r map₁ hr =>
      obtain ⟨-, hadds, -⟩ := hrec i map r map₁ (hin i (by simp)) hb hr
      exact visit_ne_none hrec hall (fun j hj => hin j (by simp [hj])) (hb.adds hadds)

lemma scan_ne_none {d : ℕ} (hd : V.Below root d) (hdir : (V.inode d).di_mode = .IFDIR)
    (hcounted : (V.inode d).Counted) (hrec : Right T d rec)
    (hall : ∀ c map, V.Entry d c → Busy T d map → rec c map ≠ none) :
    ∀ {turns k : ℕ} {flag : Bool} {map : Map}, 512 * k ≤ (V.inode d).di_size →
      (V.inode d).di_size + 512 < 512 * (turns + k) → Busy T d map →
      scan rec (V.inode d) turns ((V.inode d).di_size - 512 * k) k flag map ≠ none
  | 0, k, _, _, hk, ht, _ => by omega
  | turns + 1, k, flag, map, hk, ht, hb => by
    have h16 := T.whole d hd hdir
    have hturns : 0 < turns := by omega
    rw [scan]
    by_cases h0 : ((V.inode d).di_size : ℤ) - 512 * k = 0
    · simp [h0]
    · rw [if_neg h0]
      have hlt : 512 * k < (V.inode d).di_size := by omega
      split
      · next hhole =>
        have hfull : 512 * (k + 1) ≤ (V.inode d).di_size := by
          by_contra hlast
          rcases hcounted with ⟨n, hn⟩ | hsome
          · omega
          · rw [show (V.inode d).di_size / 512 = k by omega, hhole] at hsome
            cases hsome
        have hnext : ((V.inode d).di_size : ℤ) - 512 * k - BUFSIZ =
            (V.inode d).di_size - 512 * (k + 1 : ℕ) := by
          simp only [BUFSIZ]
          push_cast
          ring
        rw [hnext]
        exact scan_ne_none hd hdir hcounted hrec hall hfull (by omega) hb
      · next b hblock =>
        have hin := fun i hi => ents_entry T hblock hlt (i := i) hi
        rw [if_neg (by omega)]
        split
        · next hnone => exact absurd hnone (visit_ne_none hrec hall hin hb)
        · next flag₁ map₁ hvisit =>
          have hadds := (visit_done hrec hin hb hvisit).adds
          by_cases hs : ((V.inode d).di_size : ℤ) - 512 * k < BUFSIZ
          · rw [ndir, if_pos hs]
            simp only [BUFSIZ] at hs
            have hzero : ((V.inode d).di_size : ℤ) - 512 * k -
                16 * ((((V.inode d).di_size : ℤ) - 512 * k) / 16) = 0 := by omega
            obtain ⟨t, rfl⟩ := Nat.exists_eq_add_of_lt hturns
            simp [hzero, scan]
          · rw [ndir, if_neg hs]
            simp only [BUFSIZ] at hs
            have hnext : ((V.inode d).di_size : ℤ) - 512 * k - 16 * 32 =
                (V.inode d).di_size - 512 * (k + 1 : ℕ) := by
              push_cast
              ring
            rw [hnext]
            exact scan_ne_none hd hdir hcounted hrec hall (by omega) (by omega) (hb.adds hadds)

/-- One bound for the entries of a list. -/
lemma returns_all {L : List ℕ} {P : ℕ → Prop} (h : ∀ c ∈ L, P c → ∃ fuel, Returns T c fuel) :
    ∃ fuel, ∀ c ∈ L, P c → Returns T c fuel := by
  induction L with
  | nil => exact ⟨0, by simp⟩
  | cons c L ih =>
    obtain ⟨f, hf⟩ := ih fun c hc => h c (by simp [hc])
    by_cases hp : P c
    · obtain ⟨f', hf'⟩ := h c (by simp) hp
      refine ⟨max f f', fun e he hpe fuel' hge => ?_⟩
      rcases List.mem_cons.mp he with rfl | he
      · exact hf' fuel' (le_trans (le_max_right _ _) hge)
      · exact hf e he hpe fuel' (le_trans (le_max_left _ _) hge)
    · refine ⟨f, fun e he hpe => ?_⟩
      rcases List.mem_cons.mp he with rfl | he
      · exact absurd hpe hp
      · exact hf e he hpe

lemma walk_returns (T : Tree V root)
    (hcounted : ∀ d, V.Below root d → (V.inode d).di_mode = .IFDIR → (V.inode d).Counted) :
    ∀ (n : ℕ) (i : ℕ), V.Below root i → ((V.inode i).di_mode = .IFDIR → T.deep < n + T.depth i) →
      ∃ fuel, Returns T i fuel := by
  intro n
  induction n with
  | zero =>
    intro i hi hn
    refine ⟨1, fun fuel' hge map hr => ?_⟩
    obtain ⟨f, rfl⟩ := Nat.exists_eq_add_of_le' hge
    simp only [walk, hr.free, Bool.false_eq_true, if_false]
    split
    · simp
    · split_ifs <;> simp
    · next hdir =>
      have hle := T.le_deep i hi hdir
      have hlt := hn hdir
      omega
  | succ n ih =>
    intro i hi hn
    obtain ⟨F, hF⟩ : ∃ F, ∀ c ∈ (V.inode i).listing.map Direct.d_ino, V.Sub i c →
        Returns T c F := by
      refine returns_all fun c _ hs => ih c (hi.tail hs) fun hdir => ?_
      have hdepth := (T.sub_up i c hi hs hdir).2
      have hlt := hn hs.dir
      omega
    refine ⟨max F ((V.inode i).di_size + 2) + 1, fun fuel' hge map hr => ?_⟩
    obtain ⟨f, rfl⟩ := Nat.exists_eq_add_of_le' (le_trans (Nat.le_add_left 1 _) hge)
    have hf : F ≤ f ∧ (V.inode i).di_size + 2 ≤ f := by omega
    simp only [walk, hr.free, Bool.false_eq_true, if_false]
    split
    · simp
    · split_ifs <;> simp
    · next hdir =>
      have hall : ∀ c map, V.Entry i c → Busy T i map → walk V f c map ≠ none := by
        intro c m hc hb
        by_cases hdeja : (m c).DD_DEJA = true
        · obtain ⟨g, rfl⟩ : ∃ g, f = g + 1 := ⟨f - 1, by omega⟩
          simp [walk, hdeja]
        · have hs := hb.sub hi hdir hc hdeja
          obtain ⟨e, he, rfl, -⟩ := hc
          exact hF _ (List.mem_map_of_mem he) hs f hf.1 m (hb.ready hi hs)
      have hscan : scan (walk V f) (V.inode i) f ((V.inode i).di_size - 512 * (0 : ℕ)) 0 false
          (map.enter i) ≠ none :=
        scan_ne_none hi hdir (hcounted i hi hdir) ((sound T f).right hi hdir) hall
          (Nat.zero_le _) (by omega) (hr.busy hdir)
      have hscan' : scan (walk V f) (V.inode i) f (V.inode i).di_size 0 false (map.enter i) ≠
          none := by simpa using hscan
      split
      · next hnone => exact absurd hnone hscan'
      · simp

/-! ### Names -/

variable (V)

/-- `lookup`, for the parts of a name. Only a directory on the tape is found. -/
def lookup (map : Map) : ℕ → List (List UInt8) → ℕ
  | ino, [] => ino
  | ino, db :: path =>
    if (map ino).DD_DUMP && (map ino).DD_DIR then
      match (V.inode ino).listing.find? fun e => decide (e.d_ino ≠ 0) && decide (e.d_name = db) with
      | none => 0
      | some e => lookup map e.d_ino path
    else 0

variable {V}

/-- `i` has the name `path` below `d`. -/
inductive Named (V : Vol) (i : ℕ) : ℕ → List (List UInt8) → Prop
  | here : Named V i i []
  | step {d : ℕ} {e : Direct} {path : List (List UInt8)} :
      (V.inode d).di_mode = .IFDIR → e ∈ (V.inode d).listing → e.d_ino ≠ 0 → e.d_name ≠ dot →
        e.d_name ≠ dotdot → Named V i e.d_ino path → Named V i d (e.d_name :: path)

lemma Named.leads {i d : ℕ} {path : List (List UInt8)} (h : Named V i d path) : V.Below d i := by
  induction h with
  | here => exact .refl
  | step hdir he h0 h1 h2 _ ih => exact .head ⟨hdir, _, he, rfl, h0, h1, h2⟩ ih

/-- Where all directories on the way are on the tape, a name leads to its inode. -/
lemma lookup_named (T : Tree V root) {map : Map} {i d : ℕ} {path : List (List UInt8)}
    (h : Named V i d path) (hd : V.Below root d)
    (hmap : ∀ k, V.Below root k → (V.inode k).di_mode = .IFDIR → V.Below k i →
      (map k).DD_DUMP = true ∧ (map k).DD_DIR = true) : lookup V map d path = i := by
  induction h with
  | here => rfl
  | @step d e path hdir he h0 h1 h2 hpath ih =>
    have hsub : V.Sub d e.d_ino := ⟨hdir, e, he, rfl, h0, h1, h2⟩
    obtain ⟨hdump, hisdir⟩ := hmap d hd hdir (.head hsub hpath.leads)
    rw [lookup, hdump, hisdir, Bool.and_self, if_pos rfl]
    cases hfind : (V.inode d).listing.find? fun e' =>
        decide (e'.d_ino ≠ 0) && decide (e'.d_name = e.d_name) with
    | none =>
      have hno := List.find?_eq_none.mp hfind e he
      simp [h0] at hno
    | some e' =>
      have hp := List.find?_some hfind
      have hmem := List.mem_of_find?_eq_some hfind
      simp only [Bool.and_eq_true, decide_eq_true_eq] at hp
      have heq : e' = e := List.inj_on_of_nodup_map (T.names d hd hdir)
        (List.mem_filter.mpr ⟨hmem, by simpa using hp.1⟩)
        (List.mem_filter.mpr ⟨he, by simpa using h0⟩) hp.2
      subst heq
      exact ih (hd.tail hsub)

/-! ### Closed upwards -/

/-- The walk returns; what has changed is marked, and so are the directories above what is marked;
nothing else is; and what is marked is found by its names. -/
def Closed (V : Vol) (root : ℕ) : Prop :=
  ∃ fuel r map, walk V fuel root Map.clear = some (r, map) ∧
    (∀ i, V.Below root i → (V.inode i).di_mode ≠ .IFPIPE → V.changed i →
      (map i).DD_DUMP = true) ∧
    (∀ i d, (map i).DD_DUMP = true → V.Below root d → (V.inode d).di_mode = .IFDIR →
      V.Below d i → (map d).DD_DUMP = true) ∧
    (∀ i, (map i).DD_DUMP = true → V.Below root i ∧
      ∃ j, V.Below i j ∧ (V.inode j).di_mode ≠ .IFPIPE ∧ V.changed j) ∧
    ∀ i path, Named V i root path → (map i).DD_DUMP = true → lookup V map root path = i

/-- No directory ends in a hole that is not a whole block, and every directory above a changed one
has changed as well, or there is a changed file below it. -/
def Carried (V : Vol) (root : ℕ) : Prop :=
  (∀ d, V.Below root d → (V.inode d).di_mode = .IFDIR → (V.inode d).Counted) ∧
    ∀ d a, V.Below root a → (V.inode a).di_mode = .IFDIR → V.Below a d →
      (V.inode d).di_mode = .IFDIR → V.changed d → V.changed a ∨ V.Hot a

lemma ready_clear (T : Tree V root) : Ready T root Map.clear where
  free := rfl
  above _ := ⟨fun j hj => absurd hj (by simp [Map.clear]), .inl rfl⟩

lemma walk_clear (T : Tree V root) {fuel : ℕ} {r : Bool} {map : Map}
    (hw : walk V fuel root Map.clear = some (r, map)) :
    (∀ j, (map j).DD_DUMP = true ↔ V.Below root j ∧ V.Due j) ∧
      (∀ j, (map j).DD_DIR = true ↔ V.Below root j ∧ (V.inode j).di_mode = .IFDIR) ∧
      ∀ d, V.Below root d → (V.inode d).di_mode = .IFDIR → (V.inode d).Counted := by
  obtain ⟨-, hadds, hcounted⟩ := sound T fuel root Map.clear map r .refl (ready_clear T) hw
  exact ⟨fun j => by simp [hadds.dump j, Map.clear], fun j => by simp [hadds.dir j, Map.clear],
    hcounted⟩

lemma carried_of_closed (T : Tree V root) (h : Closed V root) : Carried V root := by
  obtain ⟨fuel, r, map, hw, hchanged, hup, -, -⟩ := h
  obtain ⟨hdump, -, hcounted⟩ := walk_clear T hw
  refine ⟨hcounted, fun d a ha hadir had hddir hd => ?_⟩
  have hmark := hchanged d (Relation.ReflTransGen.trans ha had) (by simp [hddir]) hd
  exact ((hdump a).mp (hup d a hmark ha hadir had)).2.2

lemma closed_of_carried (T : Tree V root) (h : Carried V root) : Closed V root := by
  obtain ⟨hcounted, hcarried⟩ := h
  obtain ⟨fuel, hf⟩ := walk_returns T hcounted (T.deep + 1) root .refl (fun _ => by omega)
  obtain ⟨⟨r, map⟩, hw⟩ :=
    Option.ne_none_iff_exists'.mp (hf fuel le_rfl Map.clear (ready_clear T))
  obtain ⟨hdump, hdir, -⟩ := walk_clear T hw
  have hup : ∀ i d, (map i).DD_DUMP = true → V.Below root d → (V.inode d).di_mode = .IFDIR →
      V.Below d i → (map d).DD_DUMP = true := by
    intro i d hi hd hddir hdi
    refine (hdump d).mpr ⟨hd, by simp [hddir], ?_⟩
    obtain ⟨-, hpipe, hc | ⟨j, hb, hj⟩⟩ := (hdump i).mp hi
    · cases hmode : (V.inode i).di_mode with
      | IFDIR => exact hcarried i d hd hddir hdi hmode hc
      | IFPIPE => exact absurd hmode hpipe
      | other => exact .inr ⟨i, hdi, hmode, hc⟩
    · exact .inr ⟨j, Relation.ReflTransGen.trans hdi hb, hj⟩
  refine ⟨fuel, r, map, hw, fun i hi hpipe hc => (hdump i).mpr ⟨hi, hpipe, .inl hc⟩, hup,
    fun i hi => ?_, fun i path hpath hi => ?_⟩
  · obtain ⟨hb, hpipe, hc | ⟨j, hij, hj, hcj⟩⟩ := (hdump i).mp hi
    · exact ⟨hb, i, .refl, hpipe, hc⟩
    · exact ⟨hb, j, hij, by simp [hj], hcj⟩
  · exact lookup_named T hpath .refl fun k hk hkdir hki =>
      ⟨hup i k hi hk hkdir hki, (hdir k).mpr ⟨hk, hkdir⟩⟩

/-- **Incremental dump.** In every directory tree, for every level and every assignment of change
times, the marks are closed upwards exactly when every change of a directory is carried up by a
change beside it. -/
theorem walk_closed_iff (T : Tree V root) : Closed V root ↔ Carried V root :=
  ⟨carried_of_closed T, closed_of_carried T⟩

/-! ### A directory that has lost a file -/

/-- A block with these entries. -/
def blockOf (es : List Direct) : List Direct := es ++ List.replicate (32 - es.length) ⟨0, []⟩

/-- Since the last dump a file has been removed from the directory 3, which is in the root; now a
dump of level 1 is taken. -/
def removed : Vol where
  inode
    | 2 => ⟨.IFDIR, 0, 48, fun k => if k = 0 then
        some (blockOf [⟨2, dot⟩, ⟨2, dotdot⟩, ⟨3, [97]⟩]) else none⟩
    | 3 => ⟨.IFDIR, 2, 48, fun k => if k = 0 then
        some (blockOf [⟨3, dot⟩, ⟨2, dotdot⟩, ⟨0, [98]⟩]) else none⟩
    | _ => ⟨.other, 0, 0, fun _ => none⟩
  level := 1
  ddate := 1

lemma removed_dir {d : ℕ} (h : (removed.inode d).di_mode = .IFDIR) : d = 2 ∨ d = 3 := by
  by_contra hne
  push Not at hne
  have hother : (removed.inode d).di_mode = .other := by
    simp only [removed]
    split
    · exact absurd rfl hne.1
    · exact absurd rfl hne.2
    · rfl
  rw [hother] at h
  cases h

lemma removed_listing :
    (removed.inode 2).listing = [⟨2, dot⟩, ⟨2, dotdot⟩, ⟨3, [97]⟩] ∧
      (removed.inode 3).listing = [⟨3, dot⟩, ⟨2, dotdot⟩, ⟨0, [98]⟩] := ⟨rfl, rfl⟩

lemma removed_sub {d i : ℕ} (h : removed.Sub d i) : d = 2 ∧ i = 3 := by
  obtain ⟨hdir, e, he, rfl, h0, h1, h2⟩ := h
  rcases removed_dir hdir with rfl | rfl
  · simp only [removed_listing, List.mem_cons, List.not_mem_nil, or_false] at he
    rcases he with rfl | rfl | rfl
    · exact absurd rfl h1
    · exact absurd rfl h2
    · exact ⟨rfl, rfl⟩
  · simp only [removed_listing, List.mem_cons, List.not_mem_nil, or_false] at he
    rcases he with rfl | rfl | rfl
    · exact absurd rfl h1
    · exact absurd rfl h2
    · exact absurd rfl h0

def removedTree : Tree removed 2 where
  up _ := 2
  depth d := if d = 3 then 1 else 0
  deep := 1
  root_dir := rfl
  root_up := rfl
  root_depth := rfl
  block_length d k b h := by
    simp only [removed] at h
    split at h <;> simp only [Option.ite_none_right_eq_some, Option.some.injEq, reduceCtorEq] at h
    · obtain ⟨-, rfl⟩ := h
      rfl
    · obtain ⟨-, rfl⟩ := h
      rfl
  whole d _ h := by rcases removed_dir h with rfl | rfl <;> exact ⟨3, rfl⟩
  le_deep d _ _ := by split <;> omega
  dot_self d _ h e he h0 hn := by
    rcases removed_dir h with rfl | rfl <;>
      simp only [removed_listing, List.mem_cons, List.not_mem_nil, or_false] at he <;>
      rcases he with rfl | rfl | rfl <;> first | rfl | (simp [dot, dotdot] at hn)
  dotdot_up d _ h e he h0 hn := by
    rcases removed_dir h with rfl | rfl <;>
      simp only [removed_listing, List.mem_cons, List.not_mem_nil, or_false] at he <;>
      rcases he with rfl | rfl | rfl <;> first | rfl | (simp [dot, dotdot] at hn)
  sub_up d i _ h _ := by
    obtain ⟨rfl, rfl⟩ := removed_sub h
    exact ⟨rfl, rfl⟩
  names d _ h := by
    rcases removed_dir h with rfl | rfl <;> simp [removed_listing, dot, dotdot]

/-- The directory is dumped, and the root that leads to it is not. -/
theorem removed_not_closed : Nonempty (Tree removed 2) ∧ ¬ Closed removed 2 := by
  refine ⟨⟨removedTree⟩, fun h => ?_⟩
  have hchanged : ∀ j, removed.changed j → j = 3 := by
    rintro j (hj | hj)
    · cases hj
    · simp only [removed] at hj
      split at hj
      · exact absurd hj (by decide)
      · rfl
      · exact absurd hj (by decide)
  have hsub : removed.Sub 2 3 := ⟨rfl, ⟨3, [97]⟩, by simp [removed_listing], rfl, by decide,
    by decide, by decide⟩
  rcases (carried_of_closed removedTree h).2 3 2 .refl rfl (.single hsub) rfl (.inr (by decide))
    with hc | ⟨j, -, hj, hc⟩
  · exact absurd (hchanged 2 hc) (by decide)
  · rw [hchanged j hc] at hj
    cases hj

end Coherent.Dumpwalk
