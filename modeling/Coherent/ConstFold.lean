import Coherent.FoldArith

/-!
Constant folding in the C compiler: `fold0` of the parser and `fold1` of the code generator.

Both passes work in 32 bits and cut the result down when they store it. An operand is widened by
its own sign, and the parser then takes the unsigned operation where the goal type is unsigned. For
the goal `unsigned int` that is not the operation of the target: a negative `int` has been widened
to 32 bits and never reduced to 16. The last lemma says for which constants this makes a
difference. The code generator always takes the signed operation.
-/

namespace Coherent.Fold

/-! ### Trees -/

/-- The types of constants. -/
inductive Ty
  | int | uint | long | ulong
  deriving DecidableEq

def Ty.uns : Ty → Bool
  | .uint => true
  | .ulong => true
  | _ => false

def Ty.isLong : Ty → Bool
  | .long => true
  | .ulong => true
  | _ => false

/-- The operators that the table `opdope` allows to fold. -/
inductive Op
  | ADD | SUB | MUL | DIV | REM | AND | OR | XOR | SHL | SHR
  | EQ | NE | GT | GE | LE | LT
  | NEG | COM | NOT | QUEST | COMMA | ANDAND | OROR
  deriving DecidableEq

def Op.isShift (op : Op) : Bool := op = .SHL || op = .SHR

/-- Constants, the two arms of a conditional, and any other tree. -/
inductive TREE
  | icon (t_type : Ty) (t_ival : BitVec 16)
  | lcon (t_type : Ty) (t_lval : BitVec 32)
  | zcon (t_zval : BitVec 32)
  | colon (t_lp t_rp : TREE)
  | other (t_type : Ty)
  deriving DecidableEq

def TREE.t_type : TREE → Ty
  | .icon t _ => t
  | .lcon t _ => t
  | .zcon _ => .uint
  | .colon _ _ => .int
  | .other t => t

def isconst : TREE → Bool
  | .icon _ _ => true
  | .lcon _ _ => true
  | .zcon _ => true
  | _ => false

def TREE.isZcon : TREE → Bool
  | .zcon _ => true
  | _ => false

/-! ### The parser -/

/-- The table `cvdope`, of which the goal is the left or the right type or both made unsigned. -/
def goaltype : Ty → Ty → Ty
  | .int, rt => rt
  | .uint, .int => .uint
  | .uint, .uint => .uint
  | .uint, _ => .ulong
  | .long, .int => .long
  | .long, .long => .long
  | .long, _ => .ulong
  | .ulong, _ => .ulong

def grablval (tp : TREE) (uflag : Bool) : BitVec 32 :=
  match tp with
  | .icon _ n => if uflag then n.setWidth 32 else n.signExtend 32
  | .zcon n => n
  | .lcon _ n => n
  | _ => 0

/-- The value in `lv`, or the one in `bool`. -/
inductive Res (w : ℕ)
  | lv (v : BitVec w)
  | bool (b : Bool)

/-- The operation of `fold0`. A shift by a count that C leaves undefined loses all bits. -/
def fold0Op (op : Op) (uflag : Bool) (lv rv : BitVec 32) : Option (Res 32) :=
  match op with
  | .COM => some (.lv (~~~lv))
  | .NEG => some (.lv (-lv))
  | .ADD => some (.lv (lv + rv))
  | .SUB => some (.lv (lv - rv))
  | .MUL => some (.lv (lv * rv))
  | .AND => some (.lv (lv &&& rv))
  | .OR => some (.lv (lv ||| rv))
  | .XOR => some (.lv (lv ^^^ rv))
  | .SHL => some (.lv (lv <<< rv.toNat))
  | .DIV => if rv = 0 then none else some (.lv (if uflag then lv.udiv rv else lv.sdiv rv))
  | .REM => if rv = 0 then none else some (.lv (if uflag then lv.umod rv else lv.srem rv))
  | .SHR => some (.lv (if uflag then lv >>> rv.toNat else lv.sshiftRight rv.toNat))
  | .NOT => some (.bool (lv = 0))
  | .EQ => some (.bool (lv = rv))
  | .NE => some (.bool (lv ≠ rv))
  | .ANDAND => some (.bool (lv ≠ 0 ∧ rv ≠ 0))
  | .OROR => some (.bool (lv ≠ 0 ∨ rv ≠ 0))
  | .LT => some (.bool (if uflag then lv.ult rv else lv.slt rv))
  | .LE => some (.bool (if uflag then lv.ule rv else lv.sle rv))
  | .GT => some (.bool (if uflag then rv.ult lv else rv.slt lv))
  | .GE => some (.bool (if uflag then rv.ule lv else rv.sle lv))
  | .QUEST => none
  | .COMMA => none

/-- `fold0`, with no result where it gives `NULL`. -/
def fold0 (op : Op) (lp : TREE) (rp : Option TREE) : Option TREE :=
  if ¬isconst lp then none
  else if op = .QUEST then
    match rp with
    | some (.colon a b) => some (if grablval lp false ≠ 0 then a else b)
    | _ => none
  else if op = .COMMA then rp
  else if rp.any (!isconst ·) then none
  else
    let lt := lp.t_type
    let rt := if op.isShift then .int else (rp.map TREE.t_type).getD lt
    let gt := goaltype lt rt
    let zflag := lp.isZcon || rp.any TREE.isZcon
    let lv := grablval lp lt.uns
    let rv := (rp.map fun rp => grablval rp rp.t_type.uns).getD 0
    (fold0Op op gt.uns lv rv).map fun
      | .bool b => .icon .int (if b then 1 else 0)
      | .lv v =>
        if gt.isLong then .lcon (if gt.uns then .ulong else .long) v
        else if zflag then .zcon v
        else .icon (if gt.uns then .uint else .int) (v.setWidth 16)

/-! ### The code generator -/

/-- The value as `fold1` reads it, of `ICON` and `LCON` only. -/
def grabnval : TREE → Option (BitVec 32)
  | .icon t n => some (if t.uns then n.setWidth 32 else n.signExtend 32)
  | .lcon _ n => some n
  | _ => none

/-- The operation of `fold1`, always signed. -/
def fold1Op (op : Op) (lv rv : BitVec 32) : Option (Res 32) :=
  match op with
  | .COM => some (.lv (~~~lv))
  | .NEG => some (.lv (-lv))
  | .ADD => some (.lv (lv + rv))
  | .SUB => some (.lv (lv - rv))
  | .MUL => some (.lv (lv * rv))
  | .AND => some (.lv (lv &&& rv))
  | .OR => some (.lv (lv ||| rv))
  | .XOR => some (.lv (lv ^^^ rv))
  | .SHL => some (.lv (lv <<< rv.toNat))
  | .SHR => some (.lv (lv.sshiftRight rv.toNat))
  | .DIV => if rv = 0 then none else some (.lv (lv.sdiv rv))
  | .REM => if rv = 0 then none else some (.lv (lv.srem rv))
  | .NOT => some (.bool (lv = 0))
  | .EQ => some (.bool (lv = rv))
  | .NE => some (.bool (lv ≠ rv))
  | .LT => some (.bool (lv.slt rv))
  | .LE => some (.bool (lv.sle rv))
  | .GT => some (.bool (rv.slt lv))
  | .GE => some (.bool (rv.sle lv))
  | .ANDAND => some (.bool (lv ≠ 0 ∧ rv ≠ 0))
  | .OROR => some (.bool (lv ≠ 0 ∨ rv ≠ 0))
  | .QUEST => none
  | .COMMA => none

/-- The larger of two types, in the order of their codes. -/
def Ty.max : Ty → Ty → Ty
  | .int, rt => rt
  | .uint, .int => .uint
  | .uint, rt => rt
  | .long, .ulong => .ulong
  | .long, _ => .long
  | .ulong, _ => .ulong

def TREE.isLcon : TREE → Bool
  | .lcon _ _ => true
  | _ => false

/-- `fold1`, where no operand is an address. -/
def fold1 (op : Op) (lp : TREE) (rp : Option TREE) : Option TREE := do
  let lv ← grabnval lp
  if op = .QUEST then
    match rp with
    | some (.colon a b) => some (if lv ≠ 0 then a else b)
    | _ => none
  else do
    let rv ← match rp with
      | some rp => grabnval rp
      | none => some 0
    let tt := (rp.map fun rp => lp.t_type.max rp.t_type).getD lp.t_type
    let lflag := lp.isLcon || rp.any TREE.isLcon
    (fold1Op op lv rv).map fun
      | .bool b => .icon tt (if b then 1 else 0)
      | .lv v => if lflag then .lcon tt v else .icon tt (v.setWidth 16)

/-! ### The target -/

/-- The number that a constant stands for. -/
def TREE.num : TREE → ℤ
  | .icon t n => if t.uns then n.toNat else n.toInt
  | .lcon t n => if t.uns then n.toNat else n.toInt
  | .zcon n => n.toNat
  | _ => 0

/-- An operation in `w` bits; a shift is by `n`. -/
def arith {w : ℕ} (op : Op) (u : Bool) (x y : BitVec w) (n : ℕ) : Option (Res w) :=
  match op with
  | .COM => some (.lv (~~~x))
  | .NEG => some (.lv (-x))
  | .ADD => some (.lv (x + y))
  | .SUB => some (.lv (x - y))
  | .MUL => some (.lv (x * y))
  | .AND => some (.lv (x &&& y))
  | .OR => some (.lv (x ||| y))
  | .XOR => some (.lv (x ^^^ y))
  | .SHL => some (.lv (x <<< n))
  | .SHR => some (.lv (if u then x >>> n else x.sshiftRight n))
  | .DIV => if y = 0 then none else some (.lv (if u then x.udiv y else x.sdiv y))
  | .REM => if y = 0 then none else some (.lv (if u then x.umod y else x.srem y))
  | .NOT => some (.bool (x = 0))
  | .EQ => some (.bool (x = y))
  | .NE => some (.bool (x ≠ y))
  | .ANDAND => some (.bool (x ≠ 0 ∧ y ≠ 0))
  | .OROR => some (.bool (x ≠ 0 ∨ y ≠ 0))
  | .LT => some (.bool (if u then x.ult y else x.slt y))
  | .LE => some (.bool (if u then x.ule y else x.sle y))
  | .GT => some (.bool (if u then y.ult x else y.slt x))
  | .GE => some (.bool (if u then y.ule x else y.sle x))
  | .QUEST => none
  | .COMMA => none

/-- The goal type, the count of a shift being an `int`. -/
def goal (op : Op) (lp : TREE) (rp : Option TREE) : Ty :=
  goaltype lp.t_type (if op.isShift then .int else (rp.getD lp).t_type)

/-- The result of 16 or of 32 bits, or of a comparison. -/
def intNode (g : Ty) : Res 16 → TREE
  | .bool b => .icon .int (if b then 1 else 0)
  | .lv v => .icon g v

def longNode (g : Ty) : Res 32 → TREE
  | .bool b => .icon .int (if b then 1 else 0)
  | .lv v => .lcon g v

/-- **What the target gives**: the operands are converted to the goal type, and the operation is
done in its width. A division by zero is not done. -/
def target (op : Op) (lp : TREE) (rp : Option TREE) : Option TREE :=
  match op, rp with
  | .QUEST, some (.colon a b) => some (if lp.num ≠ 0 then a else b)
  | .COMMA, rp => rp
  | op, rp =>
    let g := goal op lp rp
    let a := lp.num
    let b := (rp.map TREE.num).getD 0
    if g.isLong then
      (arith op g.uns (BitVec.ofInt 32 a) (BitVec.ofInt 32 b) b.toNat).map (longNode g)
    else (arith op g.uns (BitVec.ofInt 16 a) (BitVec.ofInt 16 b) b.toNat).map (intNode g)

/-! ### The parser and the target -/

/-- The constants of these types. -/
inductive TREE.Typed : TREE → Prop
  | int (n : BitVec 16) : TREE.Typed (.icon .int n)
  | uint (n : BitVec 16) : TREE.Typed (.icon .uint n)
  | long (n : BitVec 32) : TREE.Typed (.lcon .long n)
  | ulong (n : BitVec 32) : TREE.Typed (.lcon .ulong n)

/-- The range of the numbers of a type. -/
def Ty.Range : Ty → ℤ → Prop
  | .int, a => -32768 ≤ a ∧ a < 32768
  | .uint, a => 0 ≤ a ∧ a < 65536
  | .long, a => -2 ^ 31 ≤ a ∧ a < 2 ^ 31
  | .ulong, a => 0 ≤ a ∧ a < 2 ^ 32

lemma TREE.Typed.range {t : TREE} (h : t.Typed) : t.t_type.Range t.num := by
  cases h with
  | int n =>
    have h1 := BitVec.le_toInt n
    have h2 := BitVec.toInt_lt (x := n)
    change -32768 ≤ n.toInt ∧ n.toInt < 32768
    omega
  | uint n =>
    have := n.isLt
    change 0 ≤ (n.toNat : ℤ) ∧ (n.toNat : ℤ) < 65536
    omega
  | long n =>
    have h1 := BitVec.le_toInt n
    have h2 := BitVec.toInt_lt (x := n)
    change -2 ^ 31 ≤ n.toInt ∧ n.toInt < 2 ^ 31
    omega
  | ulong n =>
    have := n.isLt
    change 0 ≤ (n.toNat : ℤ) ∧ (n.toNat : ℤ) < 2 ^ 32
    omega

/-- **Widening** keeps the number. -/
lemma TREE.Typed.grablval {t : TREE} (h : t.Typed) :
    grablval t t.t_type.uns = BitVec.ofInt 32 t.num := by
  cases h with
  | int n => rfl
  | uint n =>
    change n.setWidth 32 = BitVec.ofInt 32 (n.toNat : ℤ)
    rw [BitVec.ofInt_natCast, BitVec.ofNat_toNat]
  | long n => exact (BitVec.ofInt_toInt (x := n)).symm
  | ulong n => exact ofNat_eq_ofInt n

lemma TREE.Typed.isconst {t : TREE} (h : t.Typed) : isconst t = true := by
  cases h <;> rfl

lemma TREE.Typed.not_zcon {t : TREE} (h : t.Typed) : t.isZcon = false := by
  cases h <;> rfl

/-- The result with its low bits only. -/
def Res.cut : Res 32 → Res 16
  | .lv v => .lv (v.setWidth 16)
  | .bool b => .bool b

lemma fold0Op_eq (op : Op) (u : Bool) (lv rv : BitVec 32) :
    fold0Op op u lv rv = arith op u lv rv rv.toNat := by cases op <;> rfl

lemma fold1Op_eq (op : Op) (lv rv : BitVec 32) :
    fold1Op op lv rv = arith op false lv rv rv.toNat := by cases op <;> rfl

/-- An operation other than a shift has no count. -/
lemma arith_count {w : ℕ} {op : Op} (h : op.isShift = false) (u : Bool) (x y : BitVec w) (m n : ℕ) :
    arith op u x y m = arith op u x y n := by
  cases op <;> first | rfl | exact absurd h (by decide)

/-- The second number, none for an operator of one operand. -/
def second (rp : Option TREE) : ℤ := (rp.map TREE.num).getD 0

section
variable {op : Op} {lp : TREE} {rp : Option TREE}

/-- **What `fold0` does**, for constants of these types. -/
lemma fold0_eq (hq : op ≠ .QUEST) (hc : op ≠ .COMMA) (hl : lp.Typed) (hr : ∀ r ∈ rp, r.Typed) :
    fold0 op lp rp =
      let g := goal op lp rp
      let res := arith op g.uns (BitVec.ofInt 32 lp.num) (BitVec.ofInt 32 (second rp))
        (BitVec.ofInt 32 (second rp)).toNat
      if g.isLong then res.map (longNode g) else res.map fun r => intNode g r.cut := by
  have hrv : (rp.map fun rp => grablval rp rp.t_type.uns).getD 0 = BitVec.ofInt 32 (second rp) := by
    cases rp with
    | none => rfl
    | some r => exact (hr r rfl).grablval
  have hz : (lp.isZcon || rp.any TREE.isZcon) = false := by
    cases rp with
    | none => simp [hl.not_zcon]
    | some r => simp [hl.not_zcon, (hr r rfl).not_zcon]
  have hcon : rp.any (!isconst ·) = false := by
    cases rp with
    | none => rfl
    | some r => simp [(hr r rfl).isconst]
  have hg : goaltype lp.t_type (if op.isShift then .int else (rp.map TREE.t_type).getD lp.t_type) =
      goal op lp rp := by
    cases rp <;> rfl
  unfold fold0
  rw [if_neg (by simp [hl.isconst]), if_neg hq, if_neg hc, hcon, if_neg (by decide)]
  dsimp only
  rw [hg, hrv, hz, hl.grablval, fold0Op_eq]
  generalize goal op lp rp = g
  generalize arith op g.uns _ _ _ = res
  rcases g with _ | _ | _ | _ <;> rcases res with _ | _ | _ <;> rfl

end

/-! ### Sixteen bits -/

section
variable {op : Op} {u : Bool} {a b : ℤ} {n : ℕ}

/-- The operators whose low bits come of the low bits of the operands. -/
def Op.low : Op → Bool
  | .ADD => true
  | .SUB => true
  | .MUL => true
  | .AND => true
  | .OR => true
  | .XOR => true
  | .SHL => true
  | .NEG => true
  | .COM => true
  | _ => false

lemma arith_div {w : ℕ} (u : Bool) (x y : BitVec w) (n : ℕ) : arith .DIV u x y n =
    if y = 0 then none else some (.lv (if u then x.udiv y else x.sdiv y)) := rfl

lemma arith_rem {w : ℕ} (u : Bool) (x y : BitVec w) (n : ℕ) : arith .REM u x y n =
    if y = 0 then none else some (.lv (if u then x.umod y else x.srem y)) := rfl

lemma cut_low (h : op.low = true) (u v : Bool) (x y : BitVec 32) (n : ℕ) :
    (arith op u x y n).map Res.cut = arith op v (x.setWidth 16) (y.setWidth 16) n := by
  cases op <;> first | exact absurd h (by decide) | skip
  · exact congrArg (some ∘ Res.lv) (BitVec.setWidth_add x y (by decide))
  · refine congrArg (some ∘ Res.lv) ?_
    rw [BitVec.sub_eq_add_neg, BitVec.setWidth_add _ _ (by decide),
      BitVec.setWidth_neg_of_le (by decide), ← BitVec.sub_eq_add_neg]
  · exact congrArg (some ∘ Res.lv) (BitVec.setWidth_mul x y (by decide))
  · exact congrArg (some ∘ Res.lv) BitVec.setWidth_and
  · exact congrArg (some ∘ Res.lv) BitVec.setWidth_or
  · exact congrArg (some ∘ Res.lv) BitVec.setWidth_xor
  · exact congrArg (some ∘ Res.lv) (BitVec.setWidth_shiftLeft_of_le (by decide))
  · exact congrArg (some ∘ Res.lv) (BitVec.setWidth_neg_of_le (by decide))
  · exact congrArg (some ∘ Res.lv) (BitVec.setWidth_not (by decide))

lemma ofInt_eq_zero {w : ℕ} (h1 : -(2 : ℤ) ^ w < a) (h2 : a < (2 : ℤ) ^ w) :
    BitVec.ofInt w a = 0 ↔ a = 0 := by
  rw [show (0 : BitVec w) = BitVec.ofInt w 0 by simp, ofInt_eq_iff, Int.zero_emod]
  constructor
  · intro h
    obtain ⟨k, hk⟩ := Int.dvd_of_emod_eq_zero h
    have hp : (0 : ℤ) < (2 : ℤ) ^ w := by positivity
    have h3 : k < 1 := by
      by_contra hc
      nlinarith
    have h4 : -1 < k := by
      by_contra hc
      nlinarith
    rw [hk, show k = 0 by omega, mul_zero]
  · rintro rfl
    exact Int.zero_emod _

lemma ofInt_eq_ofInt {w : ℕ} (h1 : -(2 : ℤ) ^ w < a - b) (h2 : a - b < (2 : ℤ) ^ w) :
    BitVec.ofInt w a = BitVec.ofInt w b ↔ a = b := by
  rw [ofInt_eq_iff, Int.emod_eq_emod_iff_emod_sub_eq_zero]
  have h := ofInt_eq_zero h1 h2
  rw [show (0 : BitVec w) = BitVec.ofInt w 0 by simp, ofInt_eq_iff, Int.zero_emod] at h
  rw [h, sub_eq_zero]

lemma lv_inj {w : ℕ} {x y : BitVec w} : some (Res.lv x) = some (Res.lv y) ↔ x = y := by
  rw [Option.some_inj, Res.lv.injEq]

lemma bool_inj {w : ℕ} {p q : Prop} [Decidable p] [Decidable q] :
    (some (Res.bool (decide p)) : Option (Res w)) = some (Res.bool (decide q)) ↔ (p ↔ q) := by
  rw [Option.some_inj, Res.bool.injEq, decide_eq_decide]

lemma signed16 (h : -32768 ≤ a ∧ a < 32768) : Signed 16 a ∧ Signed 32 a := by
  unfold Signed
  norm_num
  omega

/-- **With signs**, the operation in 32 bits is the one in 16 bits. -/
lemma narrow_signed (ha : -32768 ≤ a ∧ a < 32768)
    (hb : op.isShift = false → -32768 ≤ b ∧ b < 32768) :
    (arith op false (BitVec.ofInt 32 a) (BitVec.ofInt 32 b) n).map Res.cut =
      arith op false (BitVec.ofInt 16 a) (BitVec.ofInt 16 b) n := by
  by_cases hlow : op.low = true
  · rw [cut_low hlow false false, setWidth_ofInt, setWidth_ofInt]
  obtain ⟨ha16, ha32⟩ := signed16 ha
  by_cases hs : op.isShift = true
  · obtain rfl : op = .SHR := by
      cases op <;> first | rfl | exact absurd hs (by decide) | exact absurd rfl hlow
    change some (Res.lv ((BitVec.sshiftRight _ n).setWidth 16)) =
      some (Res.lv (BitVec.sshiftRight _ n))
    rw [sshiftRight_ofInt (by decide) ha32, sshiftRight_ofInt (by decide) ha16, setWidth_ofInt]
  have hb' := hb (by simpa using hs)
  obtain ⟨hb16, hb32⟩ := signed16 hb'
  have ha0 : BitVec.ofInt 32 a = 0 ↔ BitVec.ofInt 16 a = 0 := by
    rw [ofInt_eq_zero (by norm_num; omega) (by norm_num; omega),
      ofInt_eq_zero (by norm_num; omega) (by norm_num; omega)]
  have hb0 : BitVec.ofInt 32 b = 0 ↔ BitVec.ofInt 16 b = 0 := by
    rw [ofInt_eq_zero (by norm_num; omega) (by norm_num; omega),
      ofInt_eq_zero (by norm_num; omega) (by norm_num; omega)]
  have hab : BitVec.ofInt 32 a = BitVec.ofInt 32 b ↔ BitVec.ofInt 16 a = BitVec.ofInt 16 b := by
    rw [ofInt_eq_ofInt (by norm_num; omega) (by norm_num; omega),
      ofInt_eq_ofInt (by norm_num; omega) (by norm_num; omega)]
  cases op <;> first | exact absurd rfl hlow | exact absurd rfl hs | skip
  case DIV =>
    rw [arith_div, arith_div, apply_ite (Option.map Res.cut), Option.map_none, Option.map_some]
    refine if_congr hb0 rfl (lv_inj.mpr ?_)
    change (BitVec.sdiv _ _).setWidth 16 = BitVec.sdiv _ _
    rw [sdiv_ofInt (by decide) ha32 hb32, sdiv_ofInt (by decide) ha16 hb16, setWidth_ofInt]
  case REM =>
    rw [arith_rem, arith_rem, apply_ite (Option.map Res.cut), Option.map_none, Option.map_some]
    refine if_congr hb0 rfl (lv_inj.mpr ?_)
    change (BitVec.srem _ _).setWidth 16 = BitVec.srem _ _
    rw [srem_ofInt (by decide) ha32 hb32, srem_ofInt (by decide) ha16 hb16, setWidth_ofInt]
  case EQ => exact bool_inj.mpr hab
  case NE => exact bool_inj.mpr (not_congr hab)
  case NOT => exact bool_inj.mpr ha0
  case ANDAND => exact bool_inj.mpr (and_congr (not_congr ha0) (not_congr hb0))
  case OROR => exact bool_inj.mpr (or_congr (not_congr ha0) (not_congr hb0))
  case GT =>
    change some (Res.bool (BitVec.slt _ _)) = some (Res.bool (BitVec.slt _ _))
    rw [slt_ofInt (by decide) hb32 ha32, slt_ofInt (by decide) hb16 ha16]
  case GE =>
    change some (Res.bool (BitVec.sle _ _)) = some (Res.bool (BitVec.sle _ _))
    rw [sle_ofInt (by decide) hb32 ha32, sle_ofInt (by decide) hb16 ha16]
  case LE =>
    change some (Res.bool (BitVec.sle _ _)) = some (Res.bool (BitVec.sle _ _))
    rw [sle_ofInt (by decide) ha32 hb32, sle_ofInt (by decide) ha16 hb16]
  case LT =>
    change some (Res.bool (BitVec.slt _ _)) = some (Res.bool (BitVec.slt _ _))
    rw [slt_ofInt (by decide) ha32 hb32, slt_ofInt (by decide) ha16 hb16]
  case QUEST => rfl
  case COMMA => rfl

end

section
variable {op : Op} {a b : ℤ} {n : ℕ}

/-- The numbers, one of them perhaps a negative `int`, for which the unsigned operation in 32 bits
is the one in 16 bits. -/
def FoldsUnsigned (op : Op) (a b : ℤ) : Prop :=
  match op with
  | .EQ => (a < 0 → a + 65536 ≠ b) ∧ (b < 0 → b + 65536 ≠ a)
  | .NE => (a < 0 → a + 65536 ≠ b) ∧ (b < 0 → b + 65536 ≠ a)
  | .LT => (a < 0 → b ≤ a + 65536) ∧ (b < 0 → a < b + 65536)
  | .GE => (a < 0 → b ≤ a + 65536) ∧ (b < 0 → a < b + 65536)
  | .LE => (a < 0 → b < a + 65536) ∧ (b < 0 → a ≤ b + 65536)
  | .GT => (a < 0 → b < a + 65536) ∧ (b < 0 → a ≤ b + 65536)
  | .DIV => (a < 0 → b = 0 ∨ b ∣ 65535) ∧ (b < 0 → a < b + 65536)
  | .REM => (a < 0 → b = 0 ∨ b ∣ 65536 * 65535) ∧ (b < 0 → a < b + 65536)
  | _ => True

/-- The number that stands for the same bits without a sign. -/
def up (w : ℕ) (a : ℤ) : ℤ := if a < 0 then a + 2 ^ w else a

lemma ofInt_up (w : ℕ) (a : ℤ) : BitVec.ofInt w (up w a) = BitVec.ofInt w a := by
  unfold up
  split_ifs
  · rw [ofInt_eq_iff, Int.add_emod_right]
  · rfl

lemma unsigned_up16 (h : -32768 ≤ a ∧ a < 65536) : Unsigned 16 (up 16 a) := by
  unfold Unsigned up
  norm_num
  split_ifs <;> omega

lemma unsigned_up32 (h : -2 ^ 31 ≤ a ∧ a < 2 ^ 32) : Unsigned 32 (up 32 a) := by
  unfold Unsigned up
  norm_num at h ⊢
  split_ifs <;> omega

/-- The unsigned operations, in numbers. -/
lemma ult_up {w : ℕ} (ha : Unsigned w (up w a)) (hb : Unsigned w (up w b)) :
    (BitVec.ofInt w a).ult (BitVec.ofInt w b) = decide (up w a < up w b) := by
  rw [← ofInt_up w a, ← ofInt_up w b, ult_ofInt ha hb]

lemma ule_up {w : ℕ} (ha : Unsigned w (up w a)) (hb : Unsigned w (up w b)) :
    (BitVec.ofInt w a).ule (BitVec.ofInt w b) = decide (up w a ≤ up w b) := by
  rw [← ofInt_up w a, ← ofInt_up w b, ule_ofInt ha hb]

lemma udiv_up {w : ℕ} (ha : Unsigned w (up w a)) (hb : Unsigned w (up w b)) :
    (BitVec.ofInt w a).udiv (BitVec.ofInt w b) = BitVec.ofInt w (up w a / up w b) := by
  rw [← ofInt_up w a, ← ofInt_up w b, udiv_ofInt ha hb]

lemma umod_up {w : ℕ} (ha : Unsigned w (up w a)) (hb : Unsigned w (up w b)) :
    (BitVec.ofInt w a).umod (BitVec.ofInt w b) = BitVec.ofInt w (up w a % up w b) := by
  rw [← ofInt_up w a, ← ofInt_up w b, umod_ofInt ha hb]

lemma eq_up {w : ℕ} (ha : Unsigned w (up w a)) (hb : Unsigned w (up w b)) :
    BitVec.ofInt w a = BitVec.ofInt w b ↔ up w a = up w b := by
  rw [← ofInt_up w a, ← ofInt_up w b, ofInt_eq_iff, Int.emod_eq_of_lt ha.1 ha.2,
    Int.emod_eq_of_lt hb.1 hb.2]

lemma up_div (ha : -32768 ≤ a ∧ a < 65536) (hb : -32768 ≤ b ∧ b < 65536) (hab : 0 ≤ a ∨ 0 ≤ b)
    (h0 : b ≠ 0) : up 32 a / up 32 b % 2 ^ 16 = up 16 a / up 16 b % 2 ^ 16 ↔
      FoldsUnsigned .DIV a b := by
  change _ ↔ (a < 0 → b = 0 ∨ b ∣ 65535) ∧ (b < 0 → a < b + 65536)
  unfold up
  rcases lt_or_ge a 0 with ha0 | ha0
  · have hb0 : ¬b < 0 := by omega
    rw [if_pos ha0, if_neg hb0, if_pos ha0, if_neg hb0, div_narrow ha.1 ha0 (by omega) hb.2]
    exact ⟨fun h => ⟨fun _ => Or.inr h, fun h' => absurd h' hb0⟩,
      fun h => (h.1 ha0).resolve_left h0⟩
  · rw [if_neg (show ¬a < 0 by omega), if_neg (show ¬a < 0 by omega)]
    rcases lt_or_ge b 0 with hb0 | hb0
    · rw [if_pos hb0, if_pos hb0, Int.ediv_eq_zero_of_lt ha0 (by omega)]
      constructor
      · refine fun h => ⟨fun h' => absurd h' (by omega), fun _ => ?_⟩
        by_contra hc
        have h1 : 1 ≤ a / (b + 2 ^ 16) := (Int.le_ediv_iff_mul_le (by omega)).mpr (by omega)
        have h2 : a / (b + 2 ^ 16) < 2 := Int.ediv_lt_of_lt_mul (by omega) (by omega)
        omega
      · intro h
        rw [Int.ediv_eq_zero_of_lt ha0 (show a < b + 2 ^ 16 from h.2 hb0)]
    · rw [if_neg (show ¬b < 0 by omega), if_neg (show ¬b < 0 by omega)]
      exact ⟨fun _ => ⟨fun h => absurd h (by omega), fun h => absurd h (by omega)⟩, fun _ => rfl⟩

lemma up_mod (ha : -32768 ≤ a ∧ a < 65536) (hb : -32768 ≤ b ∧ b < 65536) (hab : 0 ≤ a ∨ 0 ≤ b)
    (h0 : b ≠ 0) : up 32 a % up 32 b % 2 ^ 16 = up 16 a % up 16 b % 2 ^ 16 ↔
      FoldsUnsigned .REM a b := by
  change _ ↔ (a < 0 → b = 0 ∨ b ∣ 65536 * 65535) ∧ (b < 0 → a < b + 65536)
  unfold up
  rcases lt_or_ge a 0 with ha0 | ha0
  · have hb0 : ¬b < 0 := by omega
    rw [if_pos ha0, if_neg hb0, if_pos ha0, if_neg hb0, mod_narrow (by omega) hb.2]
    exact ⟨fun h => ⟨fun _ => Or.inr h, fun h' => absurd h' hb0⟩,
      fun h => (h.1 ha0).resolve_left h0⟩
  · rw [if_neg (show ¬a < 0 by omega), if_neg (show ¬a < 0 by omega)]
    rcases lt_or_ge b 0 with hb0 | hb0
    · rw [if_pos hb0, if_pos hb0, Int.emod_eq_of_lt ha0 (show a < b + 2 ^ 32 by omega)]
      constructor
      · refine fun h => ⟨fun h' => absurd h' (by omega), fun _ => ?_⟩
        by_contra hc
        have h1 := Int.emod_nonneg a (show b + 2 ^ 16 ≠ 0 by omega)
        have h2 := Int.emod_lt_of_pos a (show 0 < b + 2 ^ 16 by omega)
        omega
      · intro h
        rw [Int.emod_eq_of_lt ha0 (show a < b + 2 ^ 16 from h.2 hb0)]
    · rw [if_neg (show ¬b < 0 by omega), if_neg (show ¬b < 0 by omega)]
      exact ⟨fun _ => ⟨fun h => absurd h (by omega), fun h => absurd h (by omega)⟩, fun _ => rfl⟩

/-- **Without signs**: the negative number has 32 bits on one side and 16 on the other. -/
lemma narrow_unsigned (ha : -32768 ≤ a ∧ a < 65536) (hs : op.isShift = true → 0 ≤ a)
    (hb : op.isShift = false → -32768 ≤ b ∧ b < 65536)
    (hab : op.isShift = false → 0 ≤ a ∨ 0 ≤ b) :
    (arith op true (BitVec.ofInt 32 a) (BitVec.ofInt 32 b) n).map Res.cut =
      arith op true (BitVec.ofInt 16 a) (BitVec.ofInt 16 b) n ↔ FoldsUnsigned op a b := by
  by_cases hlow : op.low = true
  · rw [cut_low hlow true true, setWidth_ofInt, setWidth_ofInt]
    refine ⟨fun _ => ?_, fun _ => rfl⟩
    cases op <;> first | exact trivial | exact absurd hlow (by decide)
  have ha16 := unsigned_up16 ha
  have ha32 : Unsigned 32 (up 32 a) := unsigned_up32 (by omega)
  by_cases hsh : op.isShift = true
  · obtain rfl : op = .SHR := by
      cases op <;> first | rfl | exact absurd hsh (by decide) | exact absurd rfl hlow
    refine ⟨fun _ => trivial, fun _ => lv_inj.mpr ?_⟩
    change (BitVec.ofInt 32 a >>> n).setWidth 16 = BitVec.ofInt 16 a >>> n
    have h0 := hs rfl
    rw [ushiftRight_ofInt (by unfold Unsigned; norm_num; omega),
      ushiftRight_ofInt (by unfold Unsigned; norm_num; omega), setWidth_ofInt]
  have hnsh : op.isShift = false := by simpa using hsh
  have hb' := hb hnsh
  have hab' := hab hnsh
  have hb16 := unsigned_up16 hb'
  have hb32 : Unsigned 32 (up 32 b) := unsigned_up32 (by omega)
  have ha0 : BitVec.ofInt 32 a = 0 ↔ BitVec.ofInt 16 a = 0 := by
    rw [ofInt_eq_zero (by norm_num; omega) (by norm_num; omega),
      ofInt_eq_zero (by norm_num; omega) (by norm_num; omega)]
  have hb0 : BitVec.ofInt 32 b = 0 ↔ b = 0 := by
    rw [ofInt_eq_zero (by norm_num; omega) (by norm_num; omega)]
  have hb0' : BitVec.ofInt 16 b = 0 ↔ b = 0 := by
    rw [ofInt_eq_zero (by norm_num; omega) (by norm_num; omega)]
  have hb1 : BitVec.ofInt 32 b = 0 ↔ BitVec.ofInt 16 b = 0 := hb0.trans hb0'.symm
  cases op <;> first | exact absurd rfl hlow | exact absurd rfl hsh | skip
  case DIV =>
    rw [arith_div, arith_div]
    by_cases hz : b = 0
    · rw [if_pos (hb0.mpr hz), if_pos (hb0'.mpr hz)]
      exact ⟨fun _ => ⟨fun _ => Or.inl hz, fun h => absurd h (by omega)⟩, fun _ => rfl⟩
    · rw [if_neg (mt hb0.mp hz), if_neg (mt hb0'.mp hz)]
      refine lv_inj.trans ?_
      change (BitVec.udiv _ _).setWidth 16 = BitVec.udiv _ _ ↔ _
      rw [udiv_up ha32 hb32, udiv_up ha16 hb16, setWidth_ofInt, ofInt_eq_iff]
      exact up_div ha hb' hab' hz
  case REM =>
    rw [arith_rem, arith_rem]
    by_cases hz : b = 0
    · rw [if_pos (hb0.mpr hz), if_pos (hb0'.mpr hz)]
      exact ⟨fun _ => ⟨fun _ => Or.inl hz, fun h => absurd h (by omega)⟩, fun _ => rfl⟩
    · rw [if_neg (mt hb0.mp hz), if_neg (mt hb0'.mp hz)]
      refine lv_inj.trans ?_
      change (BitVec.umod _ _).setWidth 16 = BitVec.umod _ _ ↔ _
      rw [umod_up ha32 hb32, umod_up ha16 hb16, setWidth_ofInt, ofInt_eq_iff]
      exact up_mod ha hb' hab' hz
  case EQ =>
    refine bool_inj.trans ?_
    rw [eq_up ha32 hb32, eq_up ha16 hb16]
    change _ ↔ (a < 0 → a + 65536 ≠ b) ∧ (b < 0 → b + 65536 ≠ a)
    unfold up
    split_ifs <;> omega
  case NE =>
    refine bool_inj.trans ?_
    rw [ne_eq, ne_eq, eq_up ha32 hb32, eq_up ha16 hb16]
    change _ ↔ (a < 0 → a + 65536 ≠ b) ∧ (b < 0 → b + 65536 ≠ a)
    unfold up
    split_ifs <;> omega
  case NOT => exact ⟨fun _ => trivial, fun _ => bool_inj.mpr ha0⟩
  case ANDAND =>
    exact ⟨fun _ => trivial, fun _ => bool_inj.mpr (and_congr (not_congr ha0) (not_congr hb1))⟩
  case OROR =>
    exact ⟨fun _ => trivial, fun _ => bool_inj.mpr (or_congr (not_congr ha0) (not_congr hb1))⟩
  case GT =>
    change some (Res.bool (BitVec.ult _ _)) = some (Res.bool (BitVec.ult _ _)) ↔
      (a < 0 → b < a + 65536) ∧ (b < 0 → a ≤ b + 65536)
    rw [ult_up hb32 ha32, ult_up hb16 ha16, bool_inj]
    unfold up
    split_ifs <;> omega
  case GE =>
    change some (Res.bool (BitVec.ule _ _)) = some (Res.bool (BitVec.ule _ _)) ↔
      (a < 0 → b ≤ a + 65536) ∧ (b < 0 → a < b + 65536)
    rw [ule_up hb32 ha32, ule_up hb16 ha16, bool_inj]
    unfold up
    split_ifs <;> omega
  case LE =>
    change some (Res.bool (BitVec.ule _ _)) = some (Res.bool (BitVec.ule _ _)) ↔
      (a < 0 → b < a + 65536) ∧ (b < 0 → a ≤ b + 65536)
    rw [ule_up ha32 hb32, ule_up ha16 hb16, bool_inj]
    unfold up
    split_ifs <;> omega
  case LT =>
    change some (Res.bool (BitVec.ult _ _)) = some (Res.bool (BitVec.ult _ _)) ↔
      (a < 0 → b ≤ a + 65536) ∧ (b < 0 → a < b + 65536)
    rw [ult_up ha32 hb32, ult_up ha16 hb16, bool_inj]
    unfold up
    split_ifs <;> omega
  case QUEST => exact ⟨fun _ => trivial, fun _ => rfl⟩
  case COMMA => exact ⟨fun _ => trivial, fun _ => rfl⟩

end

/-! ### Where the parser is right -/

instance (t : Ty) (a : ℤ) : Decidable (t.Range a) := by
  cases t <;> exact inferInstanceAs (Decidable (_ ∧ _))

def Op.isUnary : Op → Bool
  | .NEG => true
  | .COM => true
  | .NOT => true
  | _ => false

/-- The operands that an operator takes, all constants but the arms of a conditional; the count of
a shift is one that C defines. -/
inductive Applies : Op → TREE → Option TREE → Prop
  | unary {op : Op} {lp : TREE} (h : op.isUnary = true) (hl : lp.Typed) : Applies op lp none
  | binary {op : Op} {lp rp : TREE} (h : op.isUnary = false) (hq : op ≠ .QUEST) (hl : lp.Typed)
      (hr : rp.Typed) (hs : op.isShift = true →
        0 ≤ rp.num ∧ rp.num < if (goal op lp (some rp)).isLong then 32 else 16) :
      Applies op lp (some rp)
  | quest {lp a b : TREE} (hl : lp.Typed) : Applies .QUEST lp (some (.colon a b))

section
variable {op : Op} {lp : TREE} {rp : Option TREE} {u : Bool}

def Res.isBool {w : ℕ} : Res w → Bool
  | .lv _ => false
  | .bool _ => true

/-- The operators with a truth value. -/
def Op.isRel : Op → Bool
  | .NOT => true
  | .EQ => true
  | .NE => true
  | .ANDAND => true
  | .OROR => true
  | .LT => true
  | .LE => true
  | .GT => true
  | .GE => true
  | _ => false

lemma arith_isBool {w : ℕ} {x y : BitVec w} {n : ℕ} {r : Res w} (h : arith op u x y n = some r) :
    r.isBool = op.isRel := by
  cases op
  case DIV =>
    rw [arith_div] at h
    split_ifs at h <;> obtain rfl := Option.some.inj h <;> rfl
  case REM =>
    rw [arith_rem] at h
    split_ifs at h <;> obtain rfl := Option.some.inj h <;> rfl
  case QUEST => exact absurd h (Option.some_ne_none r).symm
  case COMMA => exact absurd h (Option.some_ne_none r).symm
  all_goals
    obtain rfl := Option.some.inj h
    rfl

lemma intNode_inj {g : Ty} {r s : Res 16} (h : r.isBool = s.isBool)
    (he : intNode g r = intNode g s) : r = s := by
  rcases r with v | b <;> rcases s with v' | b'
  · exact congrArg Res.lv (TREE.icon.inj he).2
  · exact Bool.noConfusion h
  · exact Bool.noConfusion h
  · have h1 := (TREE.icon.inj he).2
    refine congrArg Res.bool ?_
    cases b <;> cases b' <;> first | rfl | exact absurd h1 (by decide)

/-- Results that make the same node are the same. -/
lemma map_intNode {x y : BitVec 32} {x' y' : BitVec 16} {n : ℕ} (g : Ty) :
    ((arith op u x y n).map fun r => intNode g r.cut) = (arith op u x' y' n).map (intNode g) ↔
      (arith op u x y n).map Res.cut = arith op u x' y' n := by
  constructor
  · intro h
    rcases h1 : arith op u x y n with _ | r <;> rcases h2 : arith op u x' y' n with _ | s
    · rfl
    · rw [h1, h2] at h
      exact absurd h (by simp)
    · rw [h1, h2] at h
      exact absurd h (by simp)
    · rw [h1, h2] at h
      have h3 : r.cut.isBool = s.isBool := by
        rw [arith_isBool h2, ← arith_isBool h1]
        cases r <;> rfl
      exact congrArg some (intNode_inj h3 (Option.some.inj h))
  · intro h
    rw [← h, Option.map_map]
    rfl

/-- The types that give the goals of 16 bits. -/
lemma goal_int (h : goal op lp rp = .int) :
    lp.t_type = .int ∧ (op.isShift = false → (rp.getD lp).t_type = .int) := by
  unfold goal at h
  generalize lp.t_type = lt at h ⊢
  generalize (rp.getD lp).t_type = rt at h ⊢
  generalize op.isShift = s at h ⊢
  revert h
  cases s <;> cases lt <;> cases rt <;> decide

lemma goal_uint (h : goal op lp rp = .uint) : (op.isShift = true → lp.t_type = .uint) ∧
    (op.isShift = false → (lp.t_type = .uint ∨ lp.t_type = .int) ∧
      ((rp.getD lp).t_type = .uint ∨ (rp.getD lp).t_type = .int) ∧
      (lp.t_type = .uint ∨ (rp.getD lp).t_type = .uint)) := by
  unfold goal at h
  generalize lp.t_type = lt at h ⊢
  generalize (rp.getD lp).t_type = rt at h ⊢
  generalize op.isShift = s at h ⊢
  revert h
  cases s <;> cases lt <;> cases rt <;> decide

/-- The second number is in the range of its type. -/
lemma second_range {t : Ty} (hr : ∀ r ∈ rp, r.Typed) (ht : (rp.getD lp).t_type = t)
    (h0 : t.Range 0) : t.Range (second rp) := by
  subst ht
  cases rp with
  | none => exact h0
  | some r => exact (hr r rfl).range

/-- Two numbers of 16 bits, of which one has no sign. -/
lemma uint_range (hl : lp.Typed) (hr : ∀ r ∈ rp, r.Typed) (hg : goal op lp rp = .uint)
    (hs : op.isShift = false) : (-32768 ≤ lp.num ∧ lp.num < 65536) ∧
      (-32768 ≤ second rp ∧ second rp < 65536) ∧ (0 ≤ lp.num ∨ 0 ≤ second rp) := by
  obtain ⟨h1, h2, h3⟩ := (goal_uint hg).2 hs
  have ha := hl.range
  have hb : (rp.getD lp).t_type.Range (second rp) := second_range hr rfl (by
    cases (rp.getD lp).t_type <;> decide)
  generalize lp.t_type = lt at h1 h3 ha
  generalize (rp.getD lp).t_type = rt at h2 h3 hb
  rcases h1 with rfl | rfl <;> rcases h2 with rfl | rfl <;> obtain ⟨h4, h5⟩ := ha <;>
    obtain ⟨h6, h7⟩ := hb <;> simp at h3 <;> omega

/-- The condition for the parser. -/
def Fits0 (op : Op) (lp : TREE) (rp : Option TREE) : Prop :=
  goal op lp rp = .uint → FoldsUnsigned op lp.num (second rp)

/-- **The parser and the target.** -/
lemma fold0_iff (hq : op ≠ .QUEST) (hc : op ≠ .COMMA) (hl : lp.Typed) (hr : ∀ r ∈ rp, r.Typed)
    (hs : op.isShift = true →
      0 ≤ second rp ∧ second rp < if (goal op lp rp).isLong then 32 else 16) :
    fold0 op lp rp = target op lp rp ↔ Fits0 op lp rp := by
  have hcount : ∀ {w : ℕ} (x y : BitVec w), arith op (goal op lp rp).uns x y
      (BitVec.ofInt 32 (second rp)).toNat =
        arith op (goal op lp rp).uns x y (second rp).toNat := by
    intro w x y
    by_cases h : op.isShift = true
    · obtain ⟨h1, h2⟩ := hs h
      congr 1
      have h3 : second rp < 32 := by
        split_ifs at h2 <;> omega
      have h4 := toNat_ofInt (w := 32) (a := second rp) ⟨h1, by norm_num; omega⟩
      omega
    · exact arith_count (by simpa using h) ..
  have htar : target op lp rp = if (goal op lp rp).isLong then
      (arith op (goal op lp rp).uns (BitVec.ofInt 32 lp.num) (BitVec.ofInt 32 (second rp))
        (second rp).toNat).map (longNode (goal op lp rp))
      else (arith op (goal op lp rp).uns (BitVec.ofInt 16 lp.num) (BitVec.ofInt 16 (second rp))
        (second rp).toNat).map (intNode (goal op lp rp)) := by
    cases op <;> first | rfl | exact absurd rfl hq | exact absurd rfl hc
  rw [fold0_eq hq hc hl hr, htar]
  dsimp only
  rw [hcount]
  have hla := hl.range
  unfold Fits0
  rcases hg : goal op lp rp with _ | _ | _ | _
  · -- int
    obtain ⟨h1, h2⟩ := goal_int hg
    rw [if_neg (by decide), if_neg (by decide), map_intNode]
    refine ⟨fun _ h => absurd h (by decide), fun _ => ?_⟩
    rw [h1] at hla
    exact narrow_signed hla fun h => second_range hr (h2 h) (by decide)
  · -- unsigned int
    have h1 := (goal_uint hg).1
    rw [if_neg (by decide), if_neg (by decide), map_intNode]
    have huint : op.isShift = true → 0 ≤ lp.num ∧ lp.num < 65536 := by
      intro h
      rw [h1 h] at hla
      exact hla
    refine (narrow_unsigned ?_ (fun h => (huint h).1) (fun h => (uint_range hl hr hg h).2.1)
      fun h => (uint_range hl hr hg h).2.2).trans ⟨fun h _ => h, fun h => h rfl⟩
    by_cases h : op.isShift = true
    · have := huint h
      omega
    · exact (uint_range hl hr hg (by simpa using h)).1
  · rw [if_pos (by decide), if_pos (by decide)]
    exact ⟨fun _ h => absurd h (by decide), fun _ => rfl⟩
  · rw [if_pos (by decide), if_pos (by decide)]
    exact ⟨fun _ h => absurd h (by decide), fun _ => rfl⟩

end

end Coherent.Fold
