import Coherent.Vellum
import Coherent.Lib.UnionFind
import Mathlib.Data.Fintype.Fin

/-!
The nets of a sheet: `netbuild` of `velnetc.c`.

The objects are a function of their place. The wires are joined by union-find, a pin takes the net
of the first wire through its point, and the symbols GND and VCC and the objects N name nets.
-/

namespace Coherent.Netbuild

open Vellum Lib Relation

def MAXNPIN := 256
def MAXNNAME := MAXOBJ / 4

/-! ### The code -/

/-- Is the grid point on the wire, on either leg? -/
def xonwire (o : Head) (px py : ℤ) : Bool :=
  (o.o_x ≠ o.o_x2 ∧ py = o.o_y ∧ min o.o_x o.o_x2 ≤ px ∧ px ≤ max o.o_x o.o_x2) ||
  (o.o_y ≠ o.o_y2 ∧ px = o.o_x2 ∧ min o.o_y o.o_y2 ≤ py ∧ py ≤ max o.o_y o.o_y2) ||
  (px = o.o_x ∧ py = o.o_y) || (px = o.o_x2 ∧ py = o.o_y2)

def sy_pins (lib : List SYMDEF) (o : Head) : List (ℤ × ℤ) :=
  ((lib[o.o_sym]?).map (·.sy_pins)).getD []

def sy_code (lib : List SYMDEF) (o : Head) : List Char := ((lib[o.o_sym]?).map (·.sy_code)).getD []

/-- A net: what `wnet` holds, the pins with `pobj`, `ppin` and `pnet`, where `none` is -1, and the
names with `nroot` and `nnm`. -/
structure Net (n : ℕ) where
  wnet : Fin n → Fin n
  pin : List ((Fin n × ℕ) × Option (Fin n))
  name : List (Fin n × List Char)

variable {n : ℕ} (lib : List SYMDEF) (d : Fin n → Head)

/-- A walk up takes at most one step for each object. -/
def nfind (w : Fin n → Fin n) (i : Fin n) : Option ((Fin n → Fin n) × Fin n) :=
  UnionFind.find (n + 1) w i

def nunion (w : Fin n → Fin n) (a b : Fin n) : Option (Fin n → Fin n) :=
  UnionFind.union (n + 1) w a b

def xpinpos (p : Fin n × ℕ) : ℤ × ℤ :=
  let o := d p.1
  let pin := (sy_pins lib o)[p.2]?.getD (0, 0)
  let q := txq pin.1 pin.2 o.o_rot o.o_mir
  (short (o.o_x + q.1.tdiv 4), short (o.o_y + q.2.tdiv 4))

/-- Object `j` is a wire through the point. -/
def through (x : ℤ × ℤ) (j : Fin n) : Bool := (d j).o_type = .WIRE && xonwire (d j) x.1 x.2

/-- The first wire through the point. -/
def wireat (x : ℤ × ℤ) : Option (Fin n) := (List.finRange n).find? (through d x)

/-- Wire `i` has an end on wire `j`. -/
def meets (i j : Fin n) : Bool :=
  i ≠ j && (d i).o_type = .WIRE &&
    (through d ((d i).o_x, (d i).o_y) j || through d ((d i).o_x2, (d i).o_y2) j)

/-- The pairs that the two loops over the wires join, in their order. -/
def joints : List (Fin n × Fin n) :=
  ((List.finRange n).product (List.finRange n)).filter fun e => meets d e.1 e.2

def wires : Option (Fin n → Fin n) :=
  (joints d).foldlM (fun w e => nunion w e.1 e.2) id

/-- The number of pins of an object. -/
def npin (o : Head) : ℕ := if o.o_type = .SYM then (sy_pins lib o).length else 0

/-- The pins of the drawing, in the order of the loops. -/
def allpins : List (Fin n × ℕ) :=
  (List.finRange n).flatMap fun i => (List.range (npin lib (d i))).map fun k => (i, k)

/-- One pin: the net of the first wire through its point, else that of an earlier pin there. -/
def addpin (s : Net n) (p : Fin n × ℕ) : Option (Net n) :=
  match wireat d (xpinpos lib d p) with
  | some j => (nfind s.wnet j).map fun r =>
    { s with
      wnet := r.1
      pin := s.pin ++ [(p, some r.2)] }
  | none => some
    { s with
      pin := s.pin ++
        [(p, (s.pin.find? fun q => xpinpos lib d q.1 = xpinpos lib d p && q.2.isSome).bind (·.2))] }

/-- Re-rooting the net of a pin. -/
def reroot (s : Net n) (p : (Fin n × ℕ) × Option (Fin n)) : Option (Net n) :=
  match p.2 with
  | some r => (nfind s.wnet r).map fun r =>
    { s with
      wnet := r.1
      pin := s.pin ++ [(p.1, some r.2)] }
  | none => some { s with pin := s.pin ++ [p] }

/-- A name for the net of a root, if it has none and there is room. -/
def addname (s : Net n) (r : Fin n) (c : List Char) : Net n :=
  if s.name.length < MAXNNAME ∧ r ∉ s.name.map (·.1) then { s with name := s.name ++ [(r, c)] }
  else s

def GND : List Char := ['G', 'N', 'D']
def VCC : List Char := ['V', 'C', 'C']

/-- GND and VCC symbols name their nets. -/
def namepin (s : Net n) (p : (Fin n × ℕ) × Option (Fin n)) : Net n :=
  let c := sy_code lib (d p.1.1)
  if c = GND ∨ c = VCC then
    match p.2 with
    | some r => addname s r c
    | none => s
  else s

/-- N objects name their nets. -/
def nameobj (s : Net n) (i : Fin n) : Option (Net n) :=
  if s.name.length < MAXNNAME ∧ (d i).o_type = .NNAME then
    match wireat d ((d i).o_x, (d i).o_y) with
    | some j => (nfind s.wnet j).map fun r =>
        addname { s with wnet := r.1 } r.2 ((d i).o_name.take 9)
    | none => some s
  else some s

/-- `none` would be a walk up that does not end. -/
def netbuild : Option (Net n) := do
  let w ← wires d
  let s ← ((allpins lib d).take MAXNPIN).foldlM (addpin lib d) ⟨w, [], []⟩
  let s ← s.pin.foldlM reroot { s with pin := [] }
  (List.finRange n).foldlM (nameobj d) (s.pin.foldl (namepin lib d) s)

/-! ### What it builds -/

/-- `pnet` of a pin. -/
def Net.pnet (s : Net n) (p : Fin n × ℕ) : Option (Fin n) := (s.pin.find? (·.1 = p)).bind (·.2)

/-- The net of a wire has an entry in `nroot`. -/
def Net.HasName (s : Net n) (j : Fin n) : Prop := ∃ e ∈ s.name, UnionFind.Root s.wnet j e.1

/-- Two wires of one net. -/
def Tied : Fin n → Fin n → Prop := EqvGen fun i j => meets d i j = true

/-- The point of an object N. -/
def npoint (i : Fin n) : ℤ × ℤ := ((d i).o_x, (d i).o_y)

/-- The symbols that name a net. -/
def names (o : Head) : Prop := sy_code lib o = GND ∨ sy_code lib o = VCC

def IsPin (p : Fin n × ℕ) : Prop := p.2 < npin lib (d p.1)

/-- A point that names the nets there. -/
def NamePoint (x : ℤ × ℤ) : Prop :=
  (∃ p, IsPin lib d p ∧ names lib (d p.1) ∧ xpinpos lib d p = x) ∨
    ∃ i, (d i).o_type = .NNAME ∧ npoint d i = x

/-- The names are those of the roots in `C`, each one once, as long as there is room. -/
structure Listed (l : List (Fin n × List Char)) (C : Fin n → Prop) : Prop where
  nodup : (l.map (·.1)).Nodup
  few : l.length ≤ MAXNNAME
  sound : ∀ r ∈ l.map (·.1), C r
  full : ∀ r, C r → r ∈ l.map (·.1) ∨ MAXNNAME ≤ l.length

variable {lib d} {w w' root : Fin n → Fin n} {s : Net n}

lemma mem_allpins {p : Fin n × ℕ} : p ∈ allpins lib d ↔ IsPin lib d p := by
  obtain ⟨i, k⟩ := p
  simp [allpins, IsPin]

lemma through_of_wireat {x : ℤ × ℤ} {j : Fin n} (h : wireat d x = some j) : through d x j = true :=
  List.find?_some h

lemma wireat_none {x : ℤ × ℤ} : wireat d x = none ↔ ∀ j, through d x j = false := by
  simp [wireat]

/-! ### The stages -/

theorem wires_spec (d : Fin n → Head) :
    ∃ w, wires d = some w ∧ UnionFind.Forest w ∧ UnionFind.Same w = Tied d := by
  obtain ⟨w, h1, h2, h3⟩ := UnionFind.unions_id (n := n + 1) (by simp) (joints d)
  refine ⟨w, h1, h2, h3.trans ?_⟩
  unfold Tied
  congr 1
  funext i j
  simp [joints, List.product]

section Roots

variable (hf : UnionFind.Forest w) (hr : ∀ i, UnionFind.Root w i (root i))
include hr

lemma root_root (i : Fin n) : root (root i) = root i :=
  ((hr (root i)).same_iff (hr i)).mp
    ((UnionFind.same_equivalence w).symm (hr i).2)

lemma nfind_spec (hk : UnionFind.Keeps w w') (i : Fin n) :
    ∃ v, nfind w' i = some (v, root i) ∧ UnionFind.Keeps w v := by
  obtain ⟨v, r, h1, h2, h3⟩ := UnionFind.find_spec hk.forest (n := n + 1) (by simp) i
  have hri : r = root i :=
    ((hk.root_iff.mp h3).same_iff (hr i)).mp (.refl i)
  exact ⟨v, hri ▸ h1, hk.trans h2⟩

/-- The entry of a pin. -/
def pinnet (lib : List SYMDEF) (d : Fin n → Head) (root : Fin n → Fin n) (p : Fin n × ℕ) :
    (Fin n × ℕ) × Option (Fin n) :=
  (p, (wireat d (xpinpos lib d p)).map root)

/-- An earlier pin never lends its net: at a point off every wire no pin has one. -/
lemma addpin_spec (p : Fin n × ℕ) (hk : UnionFind.Keeps w s.wnet)
    (hs : ∀ e ∈ s.pin, e = pinnet lib d root e.1) :
    ∃ v, addpin lib d s p = some ⟨v, s.pin ++ [pinnet lib d root p], s.name⟩ ∧
      UnionFind.Keeps w v := by
  unfold addpin pinnet
  cases hw : wireat d (xpinpos lib d p) with
  | some j =>
    obtain ⟨v, h1, h2⟩ := nfind_spec hr hk j
    exact ⟨v, by simp [h1], h2⟩
  | none =>
    have hn : (s.pin.find? fun q => xpinpos lib d q.1 = xpinpos lib d p && q.2.isSome) = none := by
      refine List.find?_eq_none.mpr fun e he => ?_
      have h2 : e.2 = (wireat d (xpinpos lib d e.1)).map root := congrArg (·.2) (hs e he)
      rw [Bool.and_eq_true, decide_eq_true_eq]
      rintro ⟨h3, h4⟩
      rw [h2, h3, hw] at h4
      exact absurd h4 (by simp)
    exact ⟨s.wnet, by simp [hn], hk⟩

variable (lib d) in
lemma addpins_spec (l : List (Fin n × ℕ)) (hk : UnionFind.Keeps w s.wnet)
    (hs : ∀ e ∈ s.pin, e = pinnet lib d root e.1) :
    ∃ v, l.foldlM (addpin lib d) s = some ⟨v, s.pin ++ l.map (pinnet lib d root), s.name⟩ ∧
      UnionFind.Keeps w v := by
  induction l generalizing s with
  | nil => exact ⟨s.wnet, by simp, hk⟩
  | cons p l ih =>
    obtain ⟨v, h1, h2⟩ := addpin_spec hr p hk hs
    obtain ⟨u, h3, h4⟩ := ih (s := ⟨v, s.pin ++ [pinnet lib d root p], s.name⟩) h2 fun e he => by
      rcases List.mem_append.mp he with he | he
      · exact hs e he
      · rw [List.mem_singleton.mp he]
        rfl
    refine ⟨u, ?_, h4⟩
    rw [List.foldlM_cons, h1]
    simpa using h3

variable (lib d) in
lemma reroots_spec (l : List (Fin n × ℕ)) (hk : UnionFind.Keeps w s.wnet) :
    ∃ v, (l.map (pinnet lib d root)).foldlM reroot s =
        some ⟨v, s.pin ++ l.map (pinnet lib d root), s.name⟩ ∧ UnionFind.Keeps w v := by
  induction l generalizing s with
  | nil => exact ⟨s.wnet, by simp, hk⟩
  | cons p l ih =>
    have h1 : ∃ v, reroot s (pinnet lib d root p) =
        some ⟨v, s.pin ++ [pinnet lib d root p], s.name⟩ ∧ UnionFind.Keeps w v := by
      unfold reroot pinnet
      cases hw : wireat d (xpinpos lib d p) with
      | none => exact ⟨s.wnet, by simp, hk⟩
      | some j =>
        obtain ⟨v, h1, h2⟩ := nfind_spec hr hk (root j)
        exact ⟨v, by simp [h1, root_root hr], h2⟩
    obtain ⟨v, h1, h2⟩ := h1
    obtain ⟨u, h3, h4⟩ := ih (s := ⟨v, s.pin ++ [pinnet lib d root p], s.name⟩) h2
    refine ⟨u, ?_, h4⟩
    rw [List.map_cons, List.foldlM_cons, h1]
    simpa using h3

end Roots

/-! ### The names -/

variable {C C' : Fin n → Prop}

lemma listed_nil : Listed ([] : List (Fin n × List Char)) fun _ => False :=
  ⟨List.nodup_nil, Nat.zero_le _, by simp, by simp⟩

/-- A root is offered. -/
lemma Listed.offer {r : Fin n} (h : Listed s.name C) (c : List Char) :
    Listed (addname s r c).name fun x => C x ∨ x = r := by
  unfold addname
  by_cases hc : s.name.length < MAXNNAME ∧ r ∉ s.name.map (·.1)
  · rw [if_pos hc]
    refine ⟨?_, ?_, fun x hx => ?_, fun x hx => ?_⟩
    · rw [List.map_append, List.nodup_append]
      exact ⟨h.nodup, by simp, fun a ha b hb => by rintro rfl; simp at hb; exact hc.2 (hb ▸ ha)⟩
    · simpa using hc.1
    · rw [List.map_append, List.mem_append] at hx
      rcases hx with hx | hx
      · exact .inl (h.sound x hx)
      · exact .inr (by simpa using hx)
    · rw [List.map_append, List.mem_append]
      rcases hx with hx | rfl
      · exact (h.full x hx).imp .inl fun hf => hf.trans (by simp)
      · exact .inl (.inr (by simp))
  · rw [if_neg hc]
    refine ⟨h.nodup, h.few, fun x hx => .inl (h.sound x hx), fun x hx => ?_⟩
    rcases hx with hx | rfl
    · exact h.full x hx
    · rcases not_and_or.mp hc with hc | hc
      · exact .inr (not_lt.mp hc)
      · exact .inl (not_not.mp hc)

/-- Nothing changes when there is no room, or nothing to add. -/
lemma Listed.keep {l : List (Fin n × List Char)} (h : Listed l C) (h1 : ∀ r, C r → C' r)
    (h2 : (∀ r, C' r → C r) ∨ MAXNNAME ≤ l.length) : Listed l C' :=
  ⟨h.nodup, h.few, fun r hr => h1 r (h.sound r hr), fun r hr =>
    h2.elim (fun h2 => h.full r (h2 r hr)) .inr⟩

@[simp] lemma addname_wnet (s : Net n) (r : Fin n) (c : List Char) :
    (addname s r c).wnet = s.wnet := by
  unfold addname
  split <;> rfl

@[simp] lemma addname_pin (s : Net n) (r : Fin n) (c : List Char) :
    (addname s r c).pin = s.pin := by
  unfold addname
  split <;> rfl

variable (lib d) in
lemma namepin_spec (p : (Fin n × ℕ) × Option (Fin n)) (h : Listed s.name C) :
    (namepin lib d s p).wnet = s.wnet ∧ (namepin lib d s p).pin = s.pin ∧
      Listed (namepin lib d s p).name
        fun r => C r ∨ (names lib (d p.1.1) ∧ p.2 = some r) := by
  by_cases hc : names lib (d p.1.1)
  · have he : namepin lib d s p =
        match p.2 with
        | some r => addname s r (sy_code lib (d p.1.1))
        | none => s := if_pos hc
    cases hp : p.2 with
    | none =>
      rw [he, hp]
      exact ⟨rfl, rfl, h.keep (fun r => .inl) (.inl fun r hr => hr.resolve_right (by simp))⟩
    | some r =>
      rw [he, hp]
      refine ⟨addname_wnet _ _ _, addname_pin _ _ _, (h.offer _).keep (fun x hx => ?_)
        (.inl fun x hx => ?_)⟩
      · exact hx.imp_right fun hx => ⟨hc, by rw [hx]⟩
      · exact hx.imp_right fun hx => (Option.some.inj hx.2).symm
  · have he : namepin lib d s p = s := if_neg hc
    rw [he]
    exact ⟨rfl, rfl, h.keep (fun r => .inl) (.inl fun r hr => hr.resolve_right fun h => hc h.1)⟩

variable (lib d) in
lemma namepins_spec (l : List ((Fin n × ℕ) × Option (Fin n))) (h : Listed s.name C) :
    (l.foldl (namepin lib d) s).wnet = s.wnet ∧ (l.foldl (namepin lib d) s).pin = s.pin ∧
      Listed (l.foldl (namepin lib d) s).name
        fun r => C r ∨ ∃ p ∈ l, names lib (d p.1.1) ∧ p.2 = some r := by
  induction l generalizing s C with
  | nil => exact ⟨rfl, rfl, h.keep (fun r => .inl) (.inl fun r hr => hr.resolve_right (by simp))⟩
  | cons p l ih =>
    obtain ⟨h1, h2, h3⟩ := namepin_spec lib d p h
    obtain ⟨h4, h5, h6⟩ := ih h3
    refine ⟨h4.trans h1, h5.trans h2, h6.keep (fun r hr => ?_) (.inl fun r hr => ?_)⟩
    · simpa [or_assoc] using hr
    · simpa [or_assoc] using hr

section Roots

variable (hr : ∀ i, UnionFind.Root w i (root i))
include hr

/-- The root that an object N offers. -/
def Offers (d : Fin n → Head) (root : Fin n → Fin n) (i r : Fin n) : Prop :=
  (d i).o_type = .NNAME ∧ (wireat d (npoint d i)).map root = some r

lemma nameobj_spec (i : Fin n) (hk : UnionFind.Keeps w s.wnet) (h : Listed s.name C) :
    ∃ s', nameobj d s i = some s' ∧ UnionFind.Keeps w s'.wnet ∧ s'.pin = s.pin ∧
      Listed s'.name fun r => C r ∨ Offers d root i r := by
  by_cases hc : s.name.length < MAXNNAME ∧ (d i).o_type = .NNAME
  · have he : nameobj d s i =
        match wireat d (npoint d i) with
        | some j => (nfind s.wnet j).map fun r =>
            addname { s with wnet := r.1 } r.2 ((d i).o_name.take 9)
        | none => some s := if_pos hc
    cases hw : wireat d (npoint d i) with
    | none =>
      rw [he, hw]
      refine ⟨s, rfl, hk, rfl, h.keep (fun r => .inl) (.inl fun r hr => hr.resolve_right ?_)⟩
      rintro ⟨-, h2⟩
      rw [hw] at h2
      exact absurd h2 (by simp)
    | some j =>
      obtain ⟨v, h1, h2⟩ := nfind_spec hr hk j
      have ho := Listed.offer (s := { s with wnet := v }) (r := root j) h ((d i).o_name.take 9)
      rw [he, hw]
      refine ⟨_, by simp only [h1, Option.map_some], by simpa using h2, by simp,
        ho.keep (fun x hx => ?_) (.inl fun x hx => ?_)⟩
      · exact hx.imp_right fun hx => ⟨hc.2, by rw [hw, hx]; rfl⟩
      · refine hx.imp_right fun hx => ?_
        have h3 := hx.2
        rw [hw] at h3
        exact (Option.some.inj h3).symm
  · have he : nameobj d s i = some s := if_neg hc
    rw [he]
    refine ⟨s, rfl, hk, rfl, h.keep (fun r => .inl) ?_⟩
    rcases not_and_or.mp hc with hc | hc
    · exact .inr (not_lt.mp hc)
    · exact .inl fun r hr => hr.resolve_right fun h => hc h.1

lemma nameobjs_spec (l : List (Fin n)) (hk : UnionFind.Keeps w s.wnet) (h : Listed s.name C) :
    ∃ s', l.foldlM (nameobj d) s = some s' ∧ UnionFind.Keeps w s'.wnet ∧ s'.pin = s.pin ∧
      Listed s'.name fun r => C r ∨ ∃ i ∈ l, Offers d root i r := by
  induction l generalizing s C with
  | nil =>
    exact ⟨s, rfl, hk, rfl, h.keep (fun r => .inl) (.inl fun r hr => hr.resolve_right (by simp))⟩
  | cons i l ih =>
    obtain ⟨s1, h1, h2, h3, h4⟩ := nameobj_spec (d := d) hr i hk h
    obtain ⟨s2, h5, h6, h7, h8⟩ := ih h2 h4
    refine ⟨s2, ?_, h6, h7.trans h3, h8.keep (fun r hr => ?_) (.inl fun r hr => ?_)⟩
    · rw [List.foldlM_cons, h1]
      exact h5
    · simpa [or_assoc] using hr
    · simpa [or_assoc] using hr

end Roots

/-! ### The whole -/

/-- What `netbuild` leaves, with the root of each wire. -/
structure Built (lib : List SYMDEF) (d : Fin n → Head) (root : Fin n → Fin n) (s : Net n) :
    Prop where
  roots : ∀ i, UnionFind.Root s.wnet i (root i)
  tied : ∀ i j, root i = root j ↔ Tied d i j
  pin : s.pin = (allpins lib d).map (pinnet lib d root)
  name : Listed s.name
    fun r => ∃ x j, NamePoint lib d x ∧ wireat d x = some j ∧ root j = r

/-- **Every walk ends**: `netbuild` gives a result. -/
theorem netbuild_spec (lib : List SYMDEF) (d : Fin n → Head)
    (hn : (allpins lib d).length ≤ MAXNPIN) :
    ∃ root s, netbuild lib d = some s ∧ Built lib d root s := by
  obtain ⟨w, h1, hf, hs⟩ := wires_spec d
  have hroot : ∀ i, ∃ r, UnionFind.Root w i r := fun i =>
    let ⟨_, r, _, _, h⟩ := UnionFind.find_spec hf (n := n + 1) (by simp) i
    ⟨r, h⟩
  choose root hr using hroot
  obtain ⟨v, h2, hk2⟩ := addpins_spec lib d (s := ⟨w, [], []⟩) hr (allpins lib d)
    (UnionFind.Keeps.refl hf) (by simp)
  obtain ⟨u, h3, hk3⟩ := reroots_spec lib d (s := ⟨v, [], []⟩) hr (allpins lib d) hk2
  simp only [List.nil_append] at h2 h3
  obtain ⟨h4, h5, h6⟩ := namepins_spec lib d
    (s := ⟨u, (allpins lib d).map (pinnet lib d root), []⟩)
    ((allpins lib d).map (pinnet lib d root)) listed_nil
  obtain ⟨s, h7, hk7, h8, h9⟩ := nameobjs_spec (d := d) hr (List.finRange n) (h4 ▸ hk3) h6
  refine ⟨root, s, ?_, fun i => hk7.root_iff.mpr (hr i), fun i j => ?_, h8.trans h5,
    h9.keep (fun r hC => ?_) (.inl fun r hC => ?_)⟩
  · simp only [netbuild, h1, List.take_of_length_le hn, Option.bind_eq_bind, Option.bind_some, h2,
      h3]
    exact h7
  · rw [← hs, (hr i).same_iff (hr j)]
  · rcases hC with (hC | ⟨p, hp, hc, hpr⟩) | ⟨i, -, hi, hir⟩
    · exact hC.elim
    · obtain ⟨q, hq, rfl⟩ := List.mem_map.mp hp
      obtain ⟨j, hj, hjr⟩ := Option.map_eq_some_iff.mp hpr
      exact ⟨_, j, .inl ⟨q, mem_allpins.mp hq, hc, rfl⟩, hj, hjr⟩
    · obtain ⟨j, hj, hjr⟩ := Option.map_eq_some_iff.mp hir
      exact ⟨_, j, .inr ⟨i, hi, rfl⟩, hj, hjr⟩
  · obtain ⟨x, j, hx, hj, hjr⟩ := hC
    rcases hx with ⟨p, hp, hc, rfl⟩ | ⟨i, hi, rfl⟩
    · refine .inl (.inr ⟨pinnet lib d root p, List.mem_map_of_mem (mem_allpins.mpr hp), hc, ?_⟩)
      exact Option.map_eq_some_iff.mpr ⟨j, hj, hjr⟩
    · exact .inr ⟨i, List.mem_finRange i, hi, Option.map_eq_some_iff.mpr ⟨j, hj, hjr⟩⟩

end Coherent.Netbuild
