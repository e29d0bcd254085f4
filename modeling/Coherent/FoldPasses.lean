import Coherent.ConstFold

/-!
The two passes of constant folding compared.

`fold1` computes with signs where `fold0` does not. Over 32 bits the results differ when an operand
has the top bit set; over 16 bits they may still have the same low half. The last theorem says for
which constants both passes compute what the target does.
-/

namespace Coherent.Fold

/-! ### Where the two passes agree -/

section
variable {op : Op} {a b : ℤ} {n : ℕ}

/-- The number that stands for the same 32 bits with a sign. -/
def down (a : ℤ) : ℤ := if 2 ^ 31 ≤ a then a - 2 ^ 32 else a

lemma ofInt_down (a : ℤ) : BitVec.ofInt 32 (down a) = BitVec.ofInt 32 a := by
  unfold down
  split_ifs
  · rw [ofInt_eq_iff, Int.sub_emod_right]
  · rfl

lemma signed_down (h : -2 ^ 31 ≤ a ∧ a < 2 ^ 32) : Signed 32 (down a) := by
  unfold Signed down
  norm_num at h ⊢
  split_ifs <;> omega

/-- The numbers, read with signs, for which an operation without signs and one with signs come to
the same bits: all 32 of them for `long`, else 16. -/
def Same (long : Bool) (op : Op) (a b : ℤ) : Prop :=
  match op with
  | .LT => 0 ≤ a ↔ 0 ≤ b
  | .LE => 0 ≤ a ↔ 0 ≤ b
  | .GT => 0 ≤ a ↔ 0 ≤ b
  | .GE => 0 ≤ a ↔ 0 ≤ b
  | .DIV => (b < 0 → if a < 0 then a = b else a < -b) ∧ (a < 0 → 0 ≤ b →
      if long then b ≤ 1 else b = 0 ∨ (b ∣ 65536 ∧ b ∣ a) ∨ (b = 65535 ∧ a ≠ -1))
  | .REM => (b < 0 → if a < 0 then a = b else a < -b) ∧ (a < 0 → 0 ≤ b →
      b = 0 ∨ (b ∣ 2 ^ 32 ∧ b ∣ a) ∨ (long = false ∧ b ∣ 65536 * 65535 ∧ 65537 ≤ b - a))
  | _ => True

def Op.isOrder : Op → Bool
  | .LT => true
  | .LE => true
  | .GT => true
  | .GE => true
  | _ => false

lemma unsigned_up (h : Signed 32 a) : Unsigned 32 (up 32 a) := by
  obtain ⟨h1, h2⟩ := h
  norm_num at h1 h2
  exact unsigned_up32 ⟨by omega, by omega⟩

/-- The order of numbers with signs and without. -/
lemma order_iff (h : op.isOrder = true) (ha : Signed 32 a) (hb : Signed 32 b) :
    arith op true (BitVec.ofInt 32 a) (BitVec.ofInt 32 b) n =
      arith op false (BitVec.ofInt 32 a) (BitVec.ofInt 32 b) n ↔ (0 ≤ a ↔ 0 ≤ b) := by
  have hua := unsigned_up ha
  have hub := unsigned_up hb
  have ha' : -2 ^ 31 ≤ a ∧ a < 2 ^ 31 := ha
  have hb' : -2 ^ 31 ≤ b ∧ b < 2 ^ 31 := hb
  have hlt : ∀ {c d : ℤ}, -2 ^ 31 ≤ c ∧ c < 2 ^ 31 → -2 ^ 31 ≤ d ∧ d < 2 ^ 31 →
      ((up 32 c < up 32 d ↔ c < d) ↔ (0 ≤ c ↔ 0 ≤ d)) ∧
        ((up 32 c ≤ up 32 d ↔ c ≤ d) ↔ (0 ≤ c ↔ 0 ≤ d)) := by
    intro c d hc hd
    unfold up
    split_ifs <;> constructor <;> omega
  cases op <;> first | exact absurd h (by decide) | skip
  case LT =>
    change some (Res.bool (BitVec.ult _ _)) = some (Res.bool (BitVec.slt _ _)) ↔ _
    rw [ult_up hua hub, slt_ofInt (by decide) ha hb, bool_inj]
    exact (hlt ha' hb').1
  case LE =>
    change some (Res.bool (BitVec.ule _ _)) = some (Res.bool (BitVec.sle _ _)) ↔ _
    rw [ule_up hua hub, sle_ofInt (by decide) ha hb, bool_inj]
    exact (hlt ha' hb').2
  case GT =>
    change some (Res.bool (BitVec.ult _ _)) = some (Res.bool (BitVec.slt _ _)) ↔ _
    rw [ult_up hub hua, slt_ofInt (by decide) hb ha, bool_inj]
    exact (hlt hb' ha').1.trans iff_comm
  case GE =>
    change some (Res.bool (BitVec.ule _ _)) = some (Res.bool (BitVec.sle _ _)) ↔ _
    rw [ule_up hub hua, sle_ofInt (by decide) hb ha, bool_inj]
    exact (hlt hb' ha').2.trans iff_comm

/-- A shift without a sign is one with a sign, where the sign is not set or nothing is shifted. -/
lemma shift_iff {x : BitVec 32} (hn : n < 32) :
    x >>> n = x.sshiftRight n ↔ x.msb = false ∨ n = 0 := by
  constructor
  · intro h
    by_contra hc
    push Not at hc
    have h1 := congrArg BitVec.msb h
    rw [BitVec.msb_ushiftRight, BitVec.msb_sshiftRight] at h1
    simp [hc.2] at h1
    exact hc.1 h1
  · rintro (h | rfl)
    · exact (BitVec.sshiftRight_eq_of_msb_false h).symm
    · simp

/-- **Signs in 32 bits.** -/
lemma same_long (ha : Signed 32 a) (hb : Signed 32 b) (hs : op ≠ .SHR) :
    arith op true (BitVec.ofInt 32 a) (BitVec.ofInt 32 b) n =
      arith op false (BitVec.ofInt 32 a) (BitVec.ofInt 32 b) n ↔ Same true op a b := by
  by_cases hord : op.isOrder = true
  · rw [order_iff hord ha hb]
    cases op <;> first | exact Iff.rfl | exact absurd hord (by decide)
  have hua := unsigned_up ha
  have hub := unsigned_up hb
  have ha' : -2 ^ 31 ≤ a ∧ a < 2 ^ 31 := ha
  have hb' : -2 ^ 31 ≤ b ∧ b < 2 ^ 31 := hb
  have hb0 : BitVec.ofInt 32 b = 0 ↔ b = 0 :=
    ofInt_eq_zero (by norm_num; omega) (by norm_num; omega)
  cases op <;> first | exact absurd rfl hord | exact absurd rfl hs | skip
  case DIV =>
    change _ ↔ (b < 0 → if a < 0 then a = b else a < -b) ∧ (a < 0 → 0 ≤ b → b ≤ 1)
    rw [arith_div, arith_div]
    by_cases hz : b = 0
    · rw [if_pos (hb0.mpr hz), if_pos (hb0.mpr hz)]
      exact ⟨fun _ => ⟨fun h => by omega, fun _ _ => by omega⟩, fun _ => rfl⟩
    rw [if_neg (mt hb0.mp hz), if_neg (mt hb0.mp hz), lv_inj]
    change BitVec.udiv _ _ = BitVec.sdiv _ _ ↔ _
    rw [udiv_up hua hub, sdiv_ofInt (by decide) ha hb, ofInt_eq_iff]
    unfold up
    rcases lt_or_ge b 0 with hb1 | hb1
    · rw [if_pos hb1]
      rcases lt_or_ge a 0 with ha1 | ha1
      · rw [if_pos ha1, if_pos ha1, div_both ha'.1 ha1 hb'.1 hb1]
        exact ⟨fun h => ⟨fun _ => h, fun _ h' => by omega⟩, fun h => h.1 hb1⟩
      · rw [if_neg (by omega), if_neg (by omega), div_large ha1 hb1 (by omega) (by omega)]
        exact ⟨fun h => ⟨fun _ => h, fun _ h' => by omega⟩, fun h => h.1 hb1⟩
    · rw [if_neg (show ¬b < 0 by omega)]
      rcases lt_or_ge a 0 with ha1 | ha1
      · rw [if_pos ha1, div_sign32 ha'.1 ha1 (by omega) hb'.2]
        exact ⟨fun h => ⟨fun h' => by omega, fun _ _ => h⟩, fun h => h.2 ha1 hb1⟩
      · rw [if_neg (by omega), ← Int.tdiv_eq_ediv_of_nonneg ha1]
        exact ⟨fun _ => ⟨fun h => by omega, fun h => by omega⟩, fun _ => rfl⟩
  case REM =>
    change _ ↔ (b < 0 → if a < 0 then a = b else a < -b) ∧ (a < 0 → 0 ≤ b →
      b = 0 ∨ (b ∣ 2 ^ 32 ∧ b ∣ a) ∨ (true = false ∧ b ∣ 65536 * 65535 ∧ 65537 ≤ b - a))
    rw [arith_rem, arith_rem]
    by_cases hz : b = 0
    · rw [if_pos (hb0.mpr hz), if_pos (hb0.mpr hz)]
      exact ⟨fun _ => ⟨fun h => by omega, fun _ _ => Or.inl hz⟩, fun _ => rfl⟩
    rw [if_neg (mt hb0.mp hz), if_neg (mt hb0.mp hz), lv_inj]
    change BitVec.umod _ _ = BitVec.srem _ _ ↔ _
    rw [umod_up hua hub, srem_ofInt (by decide) ha hb, ofInt_eq_iff]
    unfold up
    rcases lt_or_ge b 0 with hb1 | hb1
    · rw [if_pos hb1]
      rcases lt_or_ge a 0 with ha1 | ha1
      · rw [if_pos ha1, if_pos ha1, mod_both ha'.1 ha1 hb'.1 hb1]
        exact ⟨fun h => ⟨fun _ => h, fun _ h' => by omega⟩, fun h => h.1 hb1⟩
      · rw [if_neg (by omega), if_neg (by omega), mod_large ha1 hb1 (by omega) (by omega)]
        exact ⟨fun h => ⟨fun _ => h, fun _ h' => by omega⟩, fun h => h.1 hb1⟩
    · rw [if_neg (show ¬b < 0 by omega)]
      rcases lt_or_ge a 0 with ha1 | ha1
      · rw [if_pos ha1, mod_sign32 ha1 (by omega) hb'.2]
        refine ⟨fun h => ⟨fun h' => by omega, fun _ _ => Or.inr (Or.inl h)⟩, fun h => ?_⟩
        rcases h.2 ha1 hb1 with h1 | h1 | ⟨h1, -⟩
        · exact absurd h1 hz
        · exact h1
        · exact Bool.noConfusion h1
      · rw [if_neg (by omega), ← Int.tmod_eq_emod_of_nonneg ha1]
        exact ⟨fun _ => ⟨fun h => by omega, fun h => by omega⟩, fun _ => rfl⟩
  all_goals exact ⟨fun _ => trivial, fun _ => rfl⟩

/-- **Signs in 16 bits.** -/
lemma same_short (ha : -32768 ≤ a ∧ a < 65536) (hb : -32768 ≤ b ∧ b < 65536)
    (hab : 0 ≤ a ∨ 0 ≤ b) (hs : op.isShift = false) :
    (arith op true (BitVec.ofInt 32 a) (BitVec.ofInt 32 b) n).map Res.cut =
      (arith op false (BitVec.ofInt 32 a) (BitVec.ofInt 32 b) n).map Res.cut ↔
        Same false op a b := by
  have hsa : Signed 32 a := by
    unfold Signed
    norm_num
    omega
  have hsb : Signed 32 b := by
    unfold Signed
    norm_num
    omega
  by_cases hord : op.isOrder = true
  · have h1 : Same false op a b ↔ (0 ≤ a ↔ 0 ≤ b) := by
      cases op <;> first | exact Iff.rfl | exact absurd hord (by decide)
    have h2 : ∀ {p q : Bool}, (some (Res.bool p) : Option (Res 32)).map Res.cut =
        (some (Res.bool q)).map Res.cut ↔ some (Res.bool p : Res 32) = some (Res.bool q) := by
      intro p q
      simp [Res.cut]
    rw [h1, ← order_iff (n := n) hord hsa hsb]
    cases op <;> first | exact h2 | exact absurd hord (by decide)
  have hua := unsigned_up hsa
  have hub := unsigned_up hsb
  have hb0 : BitVec.ofInt 32 b = 0 ↔ b = 0 :=
    ofInt_eq_zero (by norm_num; omega) (by norm_num; omega)
  cases op <;> first | exact absurd rfl hord | exact Bool.noConfusion hs | skip
  case DIV =>
    change _ ↔ (b < 0 → if a < 0 then a = b else a < -b) ∧ (a < 0 → 0 ≤ b →
      b = 0 ∨ (b ∣ 65536 ∧ b ∣ a) ∨ (b = 65535 ∧ a ≠ -1))
    rw [arith_div, arith_div]
    by_cases hz : b = 0
    · rw [if_pos (hb0.mpr hz), if_pos (hb0.mpr hz)]
      exact ⟨fun _ => ⟨fun h => by omega, fun _ _ => Or.inl hz⟩, fun _ => rfl⟩
    rw [if_neg (mt hb0.mp hz), if_neg (mt hb0.mp hz)]
    refine lv_inj.trans ?_
    change (BitVec.udiv _ _).setWidth 16 = (BitVec.sdiv _ _).setWidth 16 ↔ _
    rw [udiv_up hua hub, sdiv_ofInt (by decide) hsa hsb, setWidth_ofInt, setWidth_ofInt,
      ofInt_eq_iff]
    unfold up
    rcases lt_or_ge b 0 with hb1 | hb1
    · have ha1 : 0 ≤ a := by omega
      rw [if_pos hb1, if_neg (by omega), if_neg (by omega),
        div_large ha1 hb1 (by omega) (by omega)]
      exact ⟨fun h => ⟨fun _ => h, fun _ h' => by omega⟩, fun h => h.1 hb1⟩
    · rw [if_neg (show ¬b < 0 by omega)]
      rcases lt_or_ge a 0 with ha1 | ha1
      · rw [if_pos ha1, div_sign16 ha.1 ha1 (by omega) hb.2]
        exact ⟨fun h => ⟨fun h' => by omega, fun _ _ => Or.inr h⟩,
          fun h => (h.2 ha1 hb1).resolve_left hz⟩
      · rw [if_neg (by omega), ← Int.tdiv_eq_ediv_of_nonneg ha1]
        exact ⟨fun _ => ⟨fun h => by omega, fun h => by omega⟩, fun _ => rfl⟩
  case REM =>
    change _ ↔ (b < 0 → if a < 0 then a = b else a < -b) ∧ (a < 0 → 0 ≤ b →
      b = 0 ∨ (b ∣ 2 ^ 32 ∧ b ∣ a) ∨ (false = false ∧ b ∣ 65536 * 65535 ∧ 65537 ≤ b - a))
    rw [arith_rem, arith_rem]
    by_cases hz : b = 0
    · rw [if_pos (hb0.mpr hz), if_pos (hb0.mpr hz)]
      exact ⟨fun _ => ⟨fun h => by omega, fun _ _ => Or.inl hz⟩, fun _ => rfl⟩
    rw [if_neg (mt hb0.mp hz), if_neg (mt hb0.mp hz)]
    refine lv_inj.trans ?_
    change (BitVec.umod _ _).setWidth 16 = (BitVec.srem _ _).setWidth 16 ↔ _
    rw [umod_up hua hub, srem_ofInt (by decide) hsa hsb, setWidth_ofInt, setWidth_ofInt,
      ofInt_eq_iff]
    unfold up
    rcases lt_or_ge b 0 with hb1 | hb1
    · have ha1 : 0 ≤ a := by omega
      rw [if_pos hb1, if_neg (by omega), if_neg (by omega),
        mod_large ha1 hb1 (by omega) (by omega)]
      exact ⟨fun h => ⟨fun _ => h, fun _ h' => by omega⟩, fun h => h.1 hb1⟩
    · rw [if_neg (show ¬b < 0 by omega)]
      rcases lt_or_ge a 0 with ha1 | ha1
      · rw [if_pos ha1, mod_sign16 ha.1 ha1 (by omega) hb.2]
        refine ⟨fun h => ⟨fun h' => by omega, fun _ _ => Or.inr (h.imp_right fun h => ⟨rfl, h⟩)⟩,
          fun h => ?_⟩
        exact ((h.2 ha1 hb1).resolve_left hz).imp_right And.right
      · rw [if_neg (by omega), ← Int.tmod_eq_emod_of_nonneg ha1]
        exact ⟨fun _ => ⟨fun h => by omega, fun h => by omega⟩, fun _ => rfl⟩
  all_goals exact ⟨fun _ => trivial, fun _ => rfl⟩

end

/-! ### The nodes of the two passes -/

section
variable {op : Op} {lp : TREE} {rp : Option TREE}

/-- The node that `fold1` makes. -/
def node1 (tt : Ty) (lflag : Bool) : Res 32 → TREE
  | .bool b => .icon tt (if b then 1 else 0)
  | .lv v => if lflag then .lcon tt v else .icon tt (v.setWidth 16)

/-- Constants with the same value: the same bits, of which 16 may have been widened to 32. -/
def Agrees : TREE → TREE → Prop
  | .icon _ m, .icon _ n => m = n
  | .lcon _ m, .lcon _ n => m = n
  | .icon t m, .lcon _ n => (if t.uns then m.setWidth 32 else m.signExtend 32) = n
  | p, q => p = q

lemma agrees_refl (p : TREE) : Agrees p p := by cases p <;> rfl

lemma TREE.Typed.grabnval {t : TREE} (h : t.Typed) :
    grabnval t = some (BitVec.ofInt 32 t.num) := by
  rw [← h.grablval]
  cases h <;> rfl

/-- **What `fold1` does**, for constants of these types. -/
lemma fold1_eq (hq : op ≠ .QUEST) (hl : lp.Typed) (hr : ∀ r ∈ rp, r.Typed) :
    fold1 op lp rp =
      (arith op false (BitVec.ofInt 32 lp.num) (BitVec.ofInt 32 (second rp))
        (BitVec.ofInt 32 (second rp)).toNat).map
          (node1 ((rp.map fun rp => lp.t_type.max rp.t_type).getD lp.t_type)
            (lp.isLcon || rp.any TREE.isLcon)) := by
  unfold fold1
  rw [hl.grabnval, ← fold1Op_eq, Option.bind_eq_bind, Option.bind_some, if_neg hq]
  cases rp with
  | none => rfl
  | some r =>
    dsimp only
    rw [(hr r rfl).grabnval]
    rfl

/-- Signs do not change the kind of result. -/
lemma arith_kind {w : ℕ} (u v : Bool) (x y : BitVec w) (n : ℕ) :
    (arith op u x y n).map Res.isBool = (arith op v x y n).map Res.isBool := by
  cases op
  case DIV =>
    rw [arith_div, arith_div]
    split_ifs <;> rfl
  case REM =>
    rw [arith_rem, arith_rem]
    split_ifs <;> rfl
  all_goals rfl

variable {r s : Option (Res 32)} {tt g : Ty}

/-- Nodes of 32 bits agree when the results are the same. -/
lemma agrees_long (h : r.map Res.isBool = s.map Res.isBool) :
    (∀ q ∈ s.map (node1 tt true), ∃ p ∈ r.map (longNode g), Agrees p q) ↔ r = s := by
  rcases r with _ | v | c <;> rcases s with _ | v' | c' <;>
    first | (simp [Res.isBool] at h; done) | skip
  · simp
  · simp [node1, longNode, Agrees]
  · cases c <;> cases c' <;> simp [node1, longNode, Agrees]

/-- Nodes of 16 bits agree when the low bits are the same. -/
lemma agrees_short (h : r.map Res.isBool = s.map Res.isBool) :
    (∀ q ∈ s.map (node1 tt false), ∃ p ∈ r.map (fun r => intNode g r.cut), Agrees p q) ↔
      r.map Res.cut = s.map Res.cut := by
  rcases r with _ | v | c <;> rcases s with _ | v' | c' <;>
    first | (simp [Res.isBool] at h; done) | skip
  · simp
  · simp [node1, intNode, Agrees, Res.cut]
  · cases c <;> cases c' <;> simp [node1, intNode, Agrees, Res.cut]

/-- A number of 32 bits is the one of its low bits, where it is in the range of the type. -/
lemma widen_iff {a : ℤ} (h1 : -2 ^ 30 ≤ a) (h2 : a < 2 ^ 31) (hg : g.isLong = false) :
    (∀ q ∈ (some (Res.lv (BitVec.ofInt 32 a))).map (node1 tt true),
      ∃ p ∈ (some (Res.lv (BitVec.ofInt 32 a))).map (fun r => intNode g r.cut), Agrees p q) ↔
      g.Range a := by
  have hA : ∀ q ∈ (some (Res.lv (BitVec.ofInt 32 a))).map (node1 tt true),
      q = .lcon tt (BitVec.ofInt 32 a) := by
    simp [node1]
  have hB : (∀ q ∈ (some (Res.lv (BitVec.ofInt 32 a))).map (node1 tt true),
      ∃ p ∈ (some (Res.lv (BitVec.ofInt 32 a))).map (fun r => intNode g r.cut), Agrees p q) ↔
      (if g.uns then ((BitVec.ofInt 32 a).setWidth 16).setWidth 32
        else ((BitVec.ofInt 32 a).setWidth 16).signExtend 32) = BitVec.ofInt 32 a := by
    simp only [Option.map_some, Option.mem_some_iff, exists_eq_left', forall_eq']
    rfl
  rw [hB, setWidth_ofInt]
  cases g
  case int =>
    change BitVec.ofInt 32 (BitVec.ofInt 16 a).toInt = BitVec.ofInt 32 a ↔ -32768 ≤ a ∧ a < 32768
    have h3 := BitVec.le_toInt (BitVec.ofInt 16 a)
    have h4 := BitVec.toInt_lt (x := BitVec.ofInt 16 a)
    rw [ofInt_eq_ofInt (by omega) (by omega)]
    constructor
    · intro h
      omega
    · exact fun h => toInt_ofInt (by decide) (signed16 h).1
  case uint =>
    change (BitVec.ofInt 16 a).setWidth 32 = BitVec.ofInt 32 a ↔ 0 ≤ a ∧ a < 65536
    have h3 := (BitVec.ofInt 16 a).isLt
    rw [show (BitVec.ofInt 16 a).setWidth 32 = BitVec.ofInt 32 ((BitVec.ofInt 16 a).toNat : ℤ) by
      rw [BitVec.ofInt_natCast, BitVec.ofNat_toNat],
      ofInt_eq_ofInt (by omega) (by omega)]
    constructor
    · intro h
      omega
    · exact fun h => toNat_ofInt (by unfold Unsigned; norm_num; omega)
  all_goals exact Bool.noConfusion hg

end

/-! ### Where both passes are right -/

section
variable {op : Op} {lp : TREE} {rp : Option TREE}

/-- The condition for the code generator. -/
def Fits1 (op : Op) (lp : TREE) (rp : Option TREE) : Prop :=
  match op with
  | .SHL => (goal op lp rp).isLong = false → rp.any TREE.isLcon = true →
      (goal op lp rp).Range (lp.num * 2 ^ (second rp).toNat)
  | .SHR => goal op lp rp = .ulong → lp.num < 2 ^ 31 ∨ second rp = 0
  | op => (goal op lp rp).uns = true →
      Same (goal op lp rp).isLong op (down lp.num) (down (second rp))

lemma fits1_eq (h : op.isShift = false) : Fits1 op lp rp ↔ ((goal op lp rp).uns = true →
    Same (goal op lp rp).isLong op (down lp.num) (down (second rp))) := by
  cases op <;> first | exact Iff.rfl | exact Bool.noConfusion h

lemma TREE.Typed.isLcon {t : TREE} (h : t.Typed) : t.isLcon = t.t_type.isLong := by
  cases h <;> rfl

/-- An operation other than a shift has a goal of 32 bits when an operand has. -/
lemma lflag_eq (hl : lp.Typed) (hr : ∀ r ∈ rp, r.Typed) (h : op.isShift = false) :
    (lp.isLcon || rp.any TREE.isLcon) = (goal op lp rp).isLong := by
  unfold goal
  rw [h, hl.isLcon]
  cases rp with
  | none =>
    change (lp.t_type.isLong || false) = (goaltype lp.t_type lp.t_type).isLong
    cases lp.t_type <;> rfl
  | some r =>
    change (lp.t_type.isLong || r.isLcon) = (goaltype lp.t_type r.t_type).isLong
    rw [(hr r rfl).isLcon]
    cases lp.t_type <;> cases r.t_type <;> rfl

lemma goal_shift (h : op.isShift = true) : goal op lp rp = lp.t_type := by
  unfold goal
  rw [if_pos h]
  cases lp.t_type <;> rfl

lemma num_range {t : TREE} (h : t.Typed) : -2 ^ 31 ≤ t.num ∧ t.num < 2 ^ 32 := by
  have h1 := h.range
  cases ht : t.t_type <;> rw [ht] at h1 <;> obtain ⟨h2, h3⟩ := h1 <;> omega

lemma second_num_range (hr : ∀ r ∈ rp, r.Typed) : -2 ^ 31 ≤ second rp ∧ second rp < 2 ^ 32 := by
  cases rp with
  | none => decide
  | some r => exact num_range (hr r rfl)

/-- The agreement of the passes on an operation with this count. -/
def Passes (op : Op) (lp : TREE) (rp : Option TREE) (n : ℕ) : Prop :=
  ∀ q ∈ (arith op false (BitVec.ofInt 32 lp.num) (BitVec.ofInt 32 (second rp)) n).map
      (node1 ((rp.map fun rp => lp.t_type.max rp.t_type).getD lp.t_type)
        (lp.isLcon || rp.any TREE.isLcon)),
    ∃ p ∈ (if (goal op lp rp).isLong then
        (arith op (goal op lp rp).uns (BitVec.ofInt 32 lp.num) (BitVec.ofInt 32 (second rp)) n).map
          (longNode (goal op lp rp))
      else
        (arith op (goal op lp rp).uns (BitVec.ofInt 32 lp.num) (BitVec.ofInt 32 (second rp)) n).map
          fun r => intNode (goal op lp rp) r.cut), Agrees p q

/-- Operations other than shifts. -/
lemma passes_plain (hl : lp.Typed) (hr : ∀ r ∈ rp, r.Typed) (hs : op.isShift = false) (n : ℕ) :
    Passes op lp rp n ↔ Fits1 op lp rp := by
  have hlr := signed_down (num_range hl)
  have hrr := signed_down (second_num_range hr)
  unfold Passes
  rw [lflag_eq hl hr hs, fits1_eq hs]
  rcases hg : goal op lp rp with _ | _ | _ | _
  · -- int
    rw [if_neg (by decide)]
    refine (agrees_short (arith_kind ..)).trans ⟨fun _ h => Bool.noConfusion h, fun _ => rfl⟩
  · -- unsigned int
    obtain ⟨h1, h2, h3⟩ := uint_range hl hr hg hs
    have hda : down lp.num = lp.num := if_neg (by omega)
    have hdb : down (second rp) = second rp := if_neg (by omega)
    rw [if_neg (by decide), hda, hdb]
    refine (agrees_short (arith_kind ..)).trans ?_
    exact (same_short h1 h2 h3 hs).trans ⟨fun h _ => h, fun h => h rfl⟩
  · -- long
    rw [if_pos (by decide)]
    refine (agrees_long (arith_kind ..)).trans ⟨fun _ h => Bool.noConfusion h, fun _ => rfl⟩
  · -- unsigned long
    rw [if_pos (by decide)]
    refine (agrees_long (arith_kind ..)).trans ?_
    rw [← ofInt_down lp.num, ← ofInt_down (second rp)]
    refine (same_long hlr hrr ?_).trans ⟨fun h _ => h, fun h => h rfl⟩
    rintro rfl
    exact Bool.noConfusion hs

/-- The number that comes of a shift in 16 bits. -/
lemma mul_range {a : ℤ} {n : ℕ} (ha : -32768 ≤ a ∧ a < 65536) (hn : n < 16) :
    -2 ^ 30 ≤ a * 2 ^ n ∧ a * 2 ^ n < 2 ^ 31 := by
  have h1 : (2 : ℤ) ^ n ≤ 2 ^ 15 := pow_le_pow_right₀ (by norm_num) (by omega)
  have h2 : (0 : ℤ) < 2 ^ n := by positivity
  constructor <;> nlinarith

lemma div_range {a : ℤ} {g : Ty} (n : ℕ) (hg : g.isLong = false) (ha : g.Range a) :
    g.Range (a / 2 ^ n) := by
  have h2 : (0 : ℤ) < 2 ^ n := by positivity
  have h1 : (1 : ℤ) ≤ 2 ^ n := h2
  cases g
  case int =>
    change -32768 ≤ a ∧ a < 32768 at ha
    refine ⟨(Int.le_ediv_iff_mul_le h2).mpr ?_, Int.ediv_lt_of_lt_mul h2 ?_⟩ <;> nlinarith
  case uint =>
    change 0 ≤ a ∧ a < 65536 at ha
    refine ⟨Int.ediv_nonneg ha.1 h2.le, Int.ediv_lt_of_lt_mul h2 ?_⟩
    nlinarith
  all_goals exact Bool.noConfusion hg

lemma short_range {g : Ty} {a : ℤ} (hg : g.isLong = false) (ha : g.Range a) :
    -32768 ≤ a ∧ a < 65536 := by
  cases g <;> first | exact Bool.noConfusion hg | (obtain ⟨h1, h2⟩ := ha; omega)

lemma shiftLeft_ofInt (a : ℤ) (n : ℕ) :
    BitVec.ofInt 32 a <<< n = BitVec.ofInt 32 (a * 2 ^ n) := by
  rw [BitVec.shiftLeft_eq_mul_twoPow, BitVec.ofInt_mul]
  congr 1
  apply BitVec.eq_of_toNat_eq
  rw [BitVec.toNat_twoPow, BitVec.toNat_ofInt]
  norm_cast

/-- Shifts to the left. -/
lemma passes_shl (hl : lp.Typed) (hn : (second rp).toNat <
    if (goal .SHL lp rp).isLong then 32 else 16) :
    Passes .SHL lp rp (second rp).toNat ↔ Fits1 .SHL lp rp := by
  have hra := hl.range
  have hg : goal .SHL lp rp = lp.t_type := goal_shift rfl
  unfold Passes Fits1
  dsimp only
  rw [hg] at hn ⊢
  cases hlong : lp.t_type.isLong
  · rw [hlong, if_neg (by decide)] at hn
    rw [hl.isLcon, hlong, if_neg (by decide), Bool.false_or]
    cases hc : rp.any TREE.isLcon
    · exact (agrees_short (arith_kind ..)).trans ⟨fun _ _ h => Bool.noConfusion h, fun _ => rfl⟩
    · obtain ⟨h1, h2⟩ := mul_range (short_range hlong hra) hn
      change (∀ q ∈ (some (Res.lv (_ <<< _))).map _,
        ∃ p ∈ (some (Res.lv (_ <<< _))).map _, Agrees p q) ↔ _
      rw [shiftLeft_ofInt]
      exact (widen_iff h1 h2 hlong).trans ⟨fun h _ _ => h, fun h => h rfl rfl⟩
  · rw [hl.isLcon, hlong, if_pos rfl, Bool.true_or]
    exact (agrees_long (arith_kind ..)).trans ⟨fun _ h => Bool.noConfusion h, fun _ => rfl⟩

/-- Shifts to the right. -/
lemma passes_shr (hl : lp.Typed) (h0 : 0 ≤ second rp)
    (hn : (second rp).toNat < if (goal .SHR lp rp).isLong then 32 else 16) :
    Passes .SHR lp rp (second rp).toNat ↔ Fits1 .SHR lp rp := by
  have hra := hl.range
  have hg : goal .SHR lp rp = lp.t_type := goal_shift rfl
  unfold Passes Fits1
  dsimp only
  rw [hg] at hn ⊢
  cases hlong : lp.t_type.isLong
  · have hab := short_range hlong hra
    have hd := div_range (second rp).toNat hlong hra
    obtain ⟨h3, h4⟩ := short_range hlong hd
    have hsig : Signed 32 lp.num := by
      unfold Signed
      norm_num
      omega
    have hu : lp.t_type.uns = true → Unsigned 32 lp.num := by
      intro h
      unfold Unsigned
      cases ht : lp.t_type <;> rw [ht] at h hra hlong <;>
        first | exact Bool.noConfusion h | exact Bool.noConfusion hlong | skip
      exact ⟨hra.1, lt_trans hra.2 (by norm_num)⟩
    have hs : ∀ u : Bool, (u = true → Unsigned 32 lp.num) →
        arith .SHR u (BitVec.ofInt 32 lp.num) (BitVec.ofInt 32 (second rp)) (second rp).toNat =
          some (Res.lv (BitVec.ofInt 32 (lp.num / 2 ^ (second rp).toNat))) := by
      intro u hu
      cases u
      · exact congrArg (some ∘ Res.lv) (sshiftRight_ofInt (by decide) hsig _)
      · exact congrArg (some ∘ Res.lv) (ushiftRight_ofInt (hu rfl) _)
    rw [hs _ hu, hs false fun h => Bool.noConfusion h, hl.isLcon, hlong, if_neg (by decide),
      Bool.false_or]
    refine ⟨fun _ h => ?_, fun _ => ?_⟩
    · rw [h] at hlong
      exact Bool.noConfusion hlong
    · cases hc : rp.any TREE.isLcon
      · exact (agrees_short rfl).mpr rfl
      · exact (widen_iff (by omega) (by omega) hlong).mpr hd
  · rw [hlong, if_pos rfl] at hn
    rw [hl.isLcon, hlong, if_pos rfl, Bool.true_or]
    refine (agrees_long (arith_kind ..)).trans ?_
    rcases ht : lp.t_type with _ | _ | _ | _
    · rw [ht] at hlong
      exact Bool.noConfusion hlong
    · rw [ht] at hlong
      exact Bool.noConfusion hlong
    · exact ⟨fun _ h => Ty.noConfusion h, fun _ => rfl⟩
    · rw [ht] at hra
      obtain ⟨h1, h2⟩ := hra
      change some (Res.lv (_ >>> _)) = some (Res.lv (BitVec.sshiftRight _ _)) ↔ _
      rw [lv_inj, shift_iff hn]
      have hmsb : (BitVec.ofInt 32 lp.num).msb = false ↔ lp.num < 2 ^ 31 := by
        have h5 := toNat_ofInt (w := 32) ⟨h1, h2⟩
        rw [BitVec.msb_eq_decide, decide_eq_false_iff_not]
        omega
      have hz : (second rp).toNat = 0 ↔ second rp = 0 := by omega
      rw [hmsb, hz]
      exact ⟨fun h _ => h, fun h => h rfl⟩

end

/-! ### Constant folding -/

section
variable {op : Op} {lp : TREE} {rp : Option TREE}

/-- Folding as the target computes it, by both passes where both fold; a division by zero is
left. -/
structure Correct (op : Op) (lp : TREE) (rp : Option TREE) : Prop where
  target : fold0 op lp rp = target op lp rp
  passes : ∀ q ∈ fold1 op lp rp, ∃ p ∈ fold0 op lp rp, Agrees p q
  zero : op = .DIV ∨ op = .REM → second rp = 0 → fold0 op lp rp = none ∧ fold1 op lp rp = none

/-- The passes agree. -/
lemma passes_iff (hq : op ≠ .QUEST) (hc : op ≠ .COMMA) (hl : lp.Typed) (hr : ∀ r ∈ rp, r.Typed)
    (hs : op.isShift = true →
      0 ≤ second rp ∧ second rp < if (goal op lp rp).isLong then 32 else 16) :
    (∀ q ∈ fold1 op lp rp, ∃ p ∈ fold0 op lp rp, Agrees p q) ↔ Fits1 op lp rp := by
  rw [fold1_eq hq hl hr, fold0_eq hq hc hl hr]
  change Passes op lp rp _ ↔ _
  by_cases h : op.isShift = true
  · obtain ⟨h0, h1⟩ := hs h
    have h2 : second rp < 32 := by
      split_ifs at h1 <;> omega
    have h3 := toNat_ofInt (w := 32) (a := second rp) ⟨h0, by norm_num; omega⟩
    have h4 : (second rp).toNat < if (goal op lp rp).isLong then 32 else 16 := by
      split_ifs at h1 ⊢ <;> omega
    rw [show (BitVec.ofInt 32 (second rp)).toNat = (second rp).toNat by omega]
    cases op <;> first | exact Bool.noConfusion h | skip
    · exact passes_shl hl h4
    · exact passes_shr hl h0 h4
  · exact passes_plain hl hr (by simpa using h) _

lemma zero_left (hl : lp.Typed) (hr : ∀ r ∈ rp, r.Typed) (h : op = .DIV ∨ op = .REM)
    (h0 : second rp = 0) : fold0 op lp rp = none ∧ fold1 op lp rp = none := by
  have hq : op ≠ .QUEST := by rcases h with rfl | rfl <;> decide
  have hc : op ≠ .COMMA := by rcases h with rfl | rfl <;> decide
  have hnone : ∀ (u : Bool) (x : BitVec 32) (n : ℕ), arith op u x (BitVec.ofInt 32 0) n = none := by
    rcases h with rfl | rfl <;> intro u x n <;> rfl
  rw [fold0_eq hq hc hl hr, fold1_eq hq hl hr, h0]
  dsimp only
  rw [hnone, hnone]
  exact ⟨ite_self _, rfl⟩

/-- The condition of `?:` reads a constant with a sign; whether it is zero does not depend on it. -/
lemma cond_iff (hl : lp.Typed) : (grablval lp false ≠ 0 ↔ lp.num ≠ 0) ∧
    (BitVec.ofInt 32 lp.num ≠ 0 ↔ lp.num ≠ 0) := by
  have hr := num_range hl
  have h1 : BitVec.ofInt 32 lp.num = 0 ↔ lp.num = 0 := ofInt_eq_zero (by omega) (by omega)
  refine ⟨not_congr ?_, not_congr h1⟩
  cases hl with
  | int n => exact h1
  | long n => exact (iff_of_eq (congrArg (· = 0) (BitVec.ofInt_toInt (x := n)).symm)).trans h1
  | ulong n => exact (iff_of_eq (congrArg (· = 0) (ofNat_eq_ofInt n))).trans h1
  | uint n =>
    have h2 := BitVec.le_toInt n
    have h3 := BitVec.toInt_lt (x := n)
    change BitVec.ofInt 32 n.toInt = 0 ↔ (n.toNat : ℤ) = 0
    have h4 : n.toInt = 0 ↔ n = 0 := by
      rw [← BitVec.toInt_inj]
      rfl
    rw [ofInt_eq_zero (by omega) (by omega), h4, Int.natCast_eq_zero, ← BitVec.toNat_inj]
    rfl

/-- **Constant folding.** The parser computes what the target does except for some operations with
the goal `unsigned int` and a negative `int`; the code generator agrees with it except for some
operations without signs, and for shifts of 16 bits by a `long`. -/
theorem fold_iff (h : Applies op lp rp) :
    Correct op lp rp ↔ Fits0 op lp rp ∧ Fits1 op lp rp := by
  have hplain : ∀ {op lp rp}, op ≠ .QUEST → op ≠ .COMMA → lp.Typed → (∀ r ∈ rp, r.Typed) →
      (op.isShift = true →
        0 ≤ second rp ∧ second rp < if (goal op lp rp).isLong then 32 else 16) →
      (Correct op lp rp ↔ Fits0 op lp rp ∧ Fits1 op lp rp) := by
    intro op lp rp hq hc hl hr hs
    rw [← fold0_iff hq hc hl hr hs, ← passes_iff hq hc hl hr hs]
    exact ⟨fun h => ⟨h.target, h.passes⟩, fun h => ⟨h.1, h.2, zero_left hl hr⟩⟩
  cases h with
  | unary h hl =>
    refine hplain ?_ ?_ hl (fun r hr => absurd hr (by simp)) fun hs => ?_ <;>
      cases op <;> first | exact Bool.noConfusion h | decide | exact Bool.noConfusion hs
  | @binary _ _ r h hq hl hr hs =>
    by_cases hc : op = .COMMA
    · subst hc
      have h1 : fold0 .COMMA lp (some r) = some r := by
        unfold fold0
        rw [if_neg (by simp [hl.isconst]), if_neg (by decide), if_pos rfl]
      have h2 : fold1 .COMMA lp (some r) = none := by
        rw [fold1_eq (by decide) hl fun q hq => Option.some.inj hq ▸ hr]
        rfl
      refine ⟨fun _ => ⟨fun _ => trivial, fun _ => trivial⟩, fun _ => ⟨h1, ?_, fun h => ?_⟩⟩
      · rw [h2]
        exact fun q hq => absurd hq (by simp)
      · rcases h with h | h <;> exact Op.noConfusion h
    · exact hplain hq hc hl (fun q hq => Option.some.inj hq ▸ hr) hs
  | @quest _ a b hl =>
    obtain ⟨hnz, hnz1⟩ := cond_iff hl
    have h1 : fold0 .QUEST lp (some (.colon a b)) = some (if lp.num ≠ 0 then a else b) := by
      unfold fold0
      rw [if_neg (by simp [hl.isconst]), if_pos rfl]
      exact congrArg some (if_congr hnz rfl rfl)
    have h2 : fold1 .QUEST lp (some (.colon a b)) = some (if lp.num ≠ 0 then a else b) := by
      unfold fold1
      rw [hl.grabnval, Option.bind_eq_bind, Option.bind_some, if_pos rfl]
      exact congrArg some (if_congr hnz1 rfl rfl)
    refine ⟨fun _ => ⟨fun _ => trivial, fun _ => trivial⟩, fun _ => ⟨h1, ?_, fun h => ?_⟩⟩
    · rw [h1, h2]
      exact fun q hq => ⟨q, hq, agrees_refl q⟩
    · rcases h with h | h <;> exact Op.noConfusion h

end

/-- `7L / 2L`. -/
theorem fold_seven_two : Applies .DIV (.lcon .long 7) (some (.lcon .long 2)) ∧
    Correct .DIV (.lcon .long 7) (some (.lcon .long 2)) := by
  have h : Applies .DIV (.lcon .long 7) (some (.lcon .long 2)) :=
    .binary rfl (by decide) (.long 7) (.long 2) fun h => Bool.noConfusion h
  exact ⟨h, (fold_iff h).mpr ⟨fun h => Ty.noConfusion h, fun h => Bool.noConfusion h⟩⟩

/-- `-1 == 0xffffu` is true on the target, and folded to false. -/
theorem minus_one_folds : Applies .EQ (.icon .int (-1)) (some (.icon .uint 65535)) ∧
    fold0 .EQ (.icon .int (-1)) (some (.icon .uint 65535)) = some (.icon .int 0) ∧
    target .EQ (.icon .int (-1)) (some (.icon .uint 65535)) = some (.icon .int 1) ∧
    ¬Correct .EQ (.icon .int (-1)) (some (.icon .uint 65535)) := by
  have h1 : fold0 .EQ (.icon .int (-1)) (some (.icon .uint 65535)) = some (.icon .int 0) := by
    decide
  have h2 : target .EQ (.icon .int (-1)) (some (.icon .uint 65535)) = some (.icon .int 1) := by
    decide
  refine ⟨.binary rfl (by decide) (.int _) (.uint _) fun h => Bool.noConfusion h, h1, h2, ?_⟩
  intro h
  have h3 := h.target
  rw [h1, h2] at h3
  exact absurd h3 (by decide)

end Coherent.Fold
