import Coherent.Netbuild
import Mathlib.Data.Fin.Tuple.Sort

/-!
What the nets of a sheet mean, and the drawings of which `netbuild` finds them.

Wires are connected where one ends on another, a pin to the wires through its point and to the other
pins there. The code connects a pin to the first wire alone, and looks for other pins only where
there is no wire.
-/

namespace Coherent.Netbuild

open Vellum Lib Relation

/-- What can be connected on a sheet. -/
inductive Node (n : ℕ)
  | wire (i : Fin n)
  | pin (p : Fin n × ℕ)

variable {n : ℕ} {lib : List SYMDEF} {d : Fin n → Head} {root root' : Fin n → Fin n} {s s' : Net n}

/-- Two things touch. -/
inductive Touch (lib : List SYMDEF) (d : Fin n → Head) : Node n → Node n → Prop
  | ends {i j : Fin n} : meets d i j = true → Touch lib d (.wire i) (.wire j)
  | ended {i j : Fin n} : meets d i j = true → Touch lib d (.wire j) (.wire i)
  | on {p : Fin n × ℕ} {j : Fin n} : IsPin lib d p → through d (xpinpos lib d p) j = true →
      Touch lib d (.pin p) (.wire j)
  | under {p : Fin n × ℕ} {j : Fin n} : IsPin lib d p → through d (xpinpos lib d p) j = true →
      Touch lib d (.wire j) (.pin p)
  | stacked {p q : Fin n × ℕ} : IsPin lib d p → IsPin lib d q → p ≠ q →
      xpinpos lib d p = xpinpos lib d q → Touch lib d (.pin p) (.pin q)

def Connected (lib : List SYMDEF) (d : Fin n → Head) : Node n → Node n → Prop :=
  ReflTransGen (Touch lib d)

/-- A wire with a symbol GND or VCC or an object N on it. -/
def Named (lib : List SYMDEF) (d : Fin n → Head) (j : Fin n) : Prop :=
  ∃ x, NamePoint lib d x ∧ through d x j = true

/-- The two pins have one net root. -/
def Net.Joined (s : Net n) (p q : Fin n × ℕ) : Prop := ∃ r, s.pnet p = some r ∧ s.pnet q = some r

/-- The pins have the nets that the drawing connects, and the named nets have an entry. -/
structure Right (lib : List SYMDEF) (d : Fin n → Head) (s : Net n) : Prop where
  joined : ∀ p q, IsPin lib d p → IsPin lib d q → p ≠ q →
    (s.Joined p q ↔ Connected lib d (.pin p) (.pin q))
  alone : ∀ p, IsPin lib d p → (s.pnet p = none ↔ ∀ x, ¬ Touch lib d (.pin p) x)
  named : ∀ j, Named lib d j → s.HasName j

/-- A pin, where object `i` of the drawing is object `σ i` of another. -/
def moved (σ : Equiv.Perm (Fin n)) (p : Fin n × ℕ) : Fin n × ℕ := (σ p.1, p.2)

/-- The results `s` for `d` and `s'` for `d ∘ σ` say the same. -/
structure Agree (lib : List SYMDEF) (d : Fin n → Head) (σ : Equiv.Perm (Fin n)) (s s' : Net n) :
    Prop where
  joined : ∀ p q, IsPin lib d (moved σ p) → IsPin lib d (moved σ q) → p ≠ q →
    (s'.Joined p q ↔ s.Joined (moved σ p) (moved σ q))
  alone : ∀ p, IsPin lib d (moved σ p) → (s'.pnet p = none ↔ s.pnet (moved σ p) = none)
  named : ∀ j, s'.HasName j ↔ s.HasName (σ j)

/-- `netbuild` ends with the right nets, whatever the order of the objects. -/
def Holds (lib : List SYMDEF) (d : Fin n → Head) : Prop :=
  ∃ s, netbuild lib d = some s ∧ Right lib d s ∧
    ∀ σ : Equiv.Perm (Fin n), ∃ s', netbuild lib (d ∘ σ) = some s' ∧ Agree lib d σ s s'

/-- The drawings that the code reads as they are meant. -/
structure Clean (lib : List SYMDEF) (d : Fin n → Head) : Prop where
  /-- Two pins at one point are on a wire. -/
  covered : ∀ p q, IsPin lib d p → IsPin lib d q → p ≠ q → xpinpos lib d p = xpinpos lib d q →
    ∃ j, through d (xpinpos lib d p) j = true
  /-- No wire of another net goes through one of two pins of a net, unless it goes through both. -/
  single : ∀ p q, IsPin lib d p → IsPin lib d q → p ≠ q → ∀ i j,
    through d (xpinpos lib d p) i = true → through d (xpinpos lib d q) j = true → Tied d i j →
    ∀ i' j', through d (xpinpos lib d p) i' = true → through d (xpinpos lib d q) j' = true →
      Tied d i' j' ∨
        through d (xpinpos lib d q) i' = true ∧ through d (xpinpos lib d p) j' = true
  /-- A net with a naming point has one that no wire of another net goes through. -/
  clear : ∀ j, Named lib d j → ∃ x, NamePoint lib d x ∧ (∃ i, through d x i = true) ∧
    ∀ i, through d x i = true → Tied d i j
  /-- There is room for the names. -/
  few : ∃ l : List (Fin n), l.length ≤ MAXNNAME ∧ ∀ j, Named lib d j → ∃ i ∈ l, Tied d i j

/-! ### The wires through a point -/

lemma Tied.symm {i j : Fin n} (h : Tied d i j) : Tied d j i := (EqvGen.is_equivalence _).symm h

lemma Tied.trans {i j k : Fin n} (h : Tied d i j) (h' : Tied d j k) : Tied d i k :=
  (EqvGen.is_equivalence _).trans h h'

lemma exists_wireat {x : ℤ × ℤ} {j : Fin n} (h : through d x j = true) :
    ∃ i, wireat d x = some i := by
  refine Option.ne_none_iff_exists'.mp fun hn => ?_
  rw [wireat_none.mp hn j] at h
  exact absurd h (by simp)

/-- No wire through the point comes before the first. -/
lemma wireat_le {x : ℤ × ℤ} {i j : Fin n} (h : wireat d x = some i) (hj : through d x j = true) :
    i ≤ j := by
  obtain ⟨-, l, m, hl, hno⟩ := List.find?_eq_some_iff_append.mp h
  have hs := List.pairwise_lt_finRange n
  have hm := List.mem_finRange j
  rw [hl] at hs hm
  rcases List.mem_append.mp hm with hm | hm
  · exact absurd hj (by simpa using hno j hm)
  · rcases List.mem_cons.mp hm with rfl | hm
    · exact le_rfl
    · exact (List.rel_of_pairwise_cons (List.pairwise_append.mp hs).2.1 hm).le

/-- Some order of the objects brings those of least `f` to the front. -/
lemma exists_order (d : Fin n → Head) (f : Fin n → ℕ) : ∃ σ : Equiv.Perm (Fin n), ∀ x i k,
    wireat (d ∘ σ) x = some i → through d x k = true → f (σ i) ≤ f k := by
  refine ⟨Tuple.sort f, fun x i k h hk => ?_⟩
  have hk' : through (d ∘ Tuple.sort f) x ((Tuple.sort f).symm k) = true := by
    simpa [through] using hk
  have hle := Tuple.monotone_sort f (wireat_le h hk')
  simpa using hle

/-! ### What the result says -/

section Built

variable (hb : Built lib d root s)
include hb

lemma Built.pnet {p : Fin n × ℕ} (hp : IsPin lib d p) :
    s.pnet p = (wireat d (xpinpos lib d p)).map root := by
  have hf : (allpins lib d).find? (fun q => decide (q = p)) = some p := by
    cases h : (allpins lib d).find? fun q => decide (q = p) with
    | none => exact absurd (List.find?_eq_none.mp h p (mem_allpins.mpr hp)) (by simp)
    | some q =>
      have hq := List.find?_some h
      rw [of_decide_eq_true hq]
  have hg : (fun e : (Fin n × ℕ) × Option (Fin n) => decide (e.1 = p)) ∘ pinnet lib d root =
      fun q => decide (q = p) := rfl
  rw [Net.pnet, hb.pin, List.find?_map, hg, hf]
  rfl

lemma Built.pnet_none {p : Fin n × ℕ} (hp : IsPin lib d p) :
    s.pnet p = none ↔ ∀ j, through d (xpinpos lib d p) j = false := by
  rw [hb.pnet hp, Option.map_eq_none_iff, wireat_none]

lemma Built.joined {p q : Fin n × ℕ} (hp : IsPin lib d p) (hq : IsPin lib d q) :
    s.Joined p q ↔ ∃ i j, wireat d (xpinpos lib d p) = some i ∧
      wireat d (xpinpos lib d q) = some j ∧ Tied d i j := by
  unfold Net.Joined
  rw [hb.pnet hp, hb.pnet hq]
  constructor
  · rintro ⟨r, h1, h2⟩
    obtain ⟨i, hi, hir⟩ := Option.map_eq_some_iff.mp h1
    obtain ⟨j, hj, hjr⟩ := Option.map_eq_some_iff.mp h2
    exact ⟨i, j, hi, hj, (hb.tied i j).mp (hir.trans hjr.symm)⟩
  · rintro ⟨i, j, hi, hj, hij⟩
    exact ⟨root i, by rw [hi]; rfl, by rw [hj, (hb.tied i j).mpr hij]; rfl⟩

lemma Built.hasName {j : Fin n} : s.HasName j ↔ root j ∈ s.name.map (·.1) := by
  unfold Net.HasName
  rw [List.mem_map]
  constructor
  · rintro ⟨e, he, hr⟩
    exact ⟨e, he, (hr.same_iff (hb.roots j)).mp (.refl j)⟩
  · rintro ⟨e, he, hr⟩
    exact ⟨e, he, hr ▸ hb.roots j⟩

lemma Built.hasName_congr {i j : Fin n} (h : Tied d i j) : s.HasName i ↔ s.HasName j := by
  rw [hb.hasName, hb.hasName, (hb.tied i j).mpr h]

/-- A net that has a name has a naming point, the first wire of which is in the net. -/
lemma Built.named {j : Fin n} (h : s.HasName j) :
    ∃ x i, NamePoint lib d x ∧ wireat d x = some i ∧ Tied d i j := by
  obtain ⟨x, i, hx, hi, hij⟩ := hb.name.sound _ (hb.hasName.mp h)
  exact ⟨x, i, hx, hi, (hb.tied i j).mp hij⟩

end Built

/-! ### A clean drawing is read as it is meant -/

section Clean

variable (hc : Clean lib d) (hb : Built lib d root s)
include hc hb

/-- Two pins that one net goes through are joined. -/
lemma Clean.joined {p q : Fin n × ℕ} {i j : Fin n} (hp : IsPin lib d p) (hq : IsPin lib d q)
    (hpq : p ≠ q) (hi : through d (xpinpos lib d p) i = true)
    (hj : through d (xpinpos lib d q) j = true) (hij : Tied d i j) : s.Joined p q := by
  obtain ⟨i', hi'⟩ := exists_wireat hi
  obtain ⟨j', hj'⟩ := exists_wireat hj
  refine (hb.joined hp hq).mpr ⟨i', j', hi', hj', ?_⟩
  rcases hc.single p q hp hq hpq i j hi hj hij i' j' (through_of_wireat hi') (through_of_wireat hj')
    with h | ⟨h1, h2⟩
  · exact h
  · -- each of the two first wires goes through both pins
    rw [le_antisymm (wireat_le hi' h2) (wireat_le hj' h1)]
    exact .refl j'

/-- What a walk from a pin has found. -/
def Reached (lib : List SYMDEF) (d : Fin n → Head) (s : Net n) (p : Fin n × ℕ) : Node n → Prop
  | .wire i => ∃ q j, IsPin lib d q ∧ through d (xpinpos lib d q) j = true ∧ Tied d j i ∧
      (q = p ∨ s.Joined p q)
  | .pin q => IsPin lib d q ∧ (q = p ∨ s.Joined p q)

omit hc hb in
lemma joined_trans {p q r : Fin n × ℕ} (h : q = p ∨ s.Joined p q) (h' : s.Joined q r) :
    s.Joined p r := by
  rcases h with rfl | ⟨a, h1, h2⟩
  · exact h'
  · obtain ⟨b, h3, h4⟩ := h'
    obtain rfl : a = b := Option.some.inj (h2.symm.trans h3)
    exact ⟨a, h1, h4⟩

lemma Clean.step {p : Fin n × ℕ} {x y : Node n} (h : Reached lib d s p x) (ht : Touch lib d x y) :
    Reached lib d s p y := by
  cases ht with
  | @ends i j hm =>
    obtain ⟨q, k, hq, hk, hki, hpq⟩ := h
    exact ⟨q, k, hq, hk, hki.trans (.rel _ _ hm), hpq⟩
  | @ended i j hm =>
    obtain ⟨q, k, hq, hk, hki, hpq⟩ := h
    exact ⟨q, k, hq, hk, hki.trans (Tied.symm (.rel _ _ hm)), hpq⟩
  | @on q j hq hj => exact ⟨q, j, hq, hj, .refl j, h.2⟩
  | @under r j hr hj =>
    obtain ⟨q, k, hq, hk, hkj, hpq⟩ := h
    by_cases hqr : q = r
    · exact ⟨hr, hqr ▸ hpq⟩
    · exact ⟨hr, .inr (joined_trans hpq (hc.joined hb hq hr hqr hk hj hkj))⟩
  | @stacked q r hq hr hqr hx =>
    obtain ⟨j, hj⟩ := hc.covered q r hq hr hqr hx
    exact ⟨hr, .inr (joined_trans h.2 (hc.joined hb hq hr hqr hj (hx ▸ hj) (.refl j)))⟩

lemma Clean.reached {p : Fin n × ℕ} {x : Node n} (hp : IsPin lib d p)
    (h : Connected lib d (.pin p) x) : Reached lib d s p x := by
  induction h with
  | refl => exact ⟨hp, .inl rfl⟩
  | tail _ ht ih => exact hc.step hb ih ht

omit hc hb in
lemma connected_of_tied {i j : Fin n} (h : Tied d i j) : Connected lib d (.wire i) (.wire j) := by
  refine UnionFind.eqvGen_le (S := fun i j => Connected lib d (.wire i) (.wire j) ∧
    Connected lib d (.wire j) (.wire i)) ⟨fun i => ⟨.refl, .refl⟩, And.symm, ?_⟩ ?_ h |>.1
  · exact fun h1 h2 => ⟨h1.1.trans h2.1, h2.2.trans h1.2⟩
  · exact fun i j hm => ⟨.single (.ends hm), .single (.ended hm)⟩

omit hc in
lemma Built.connected {p q : Fin n × ℕ} (hp : IsPin lib d p) (hq : IsPin lib d q)
    (h : s.Joined p q) : Connected lib d (.pin p) (.pin q) := by
  obtain ⟨i, j, hi, hj, hij⟩ := (hb.joined hp hq).mp h
  have h1 : Connected lib d (.pin p) (.wire i) := .single (.on hp (through_of_wireat hi))
  exact (h1.trans (connected_of_tied hij)).tail (.under hq (through_of_wireat hj))

lemma Clean.hasName {j : Fin n} (h : Named lib d j) : s.HasName j := by
  obtain ⟨x, hx, ⟨i, hi⟩, hall⟩ := hc.clear j h
  obtain ⟨f, hf⟩ := exists_wireat hi
  rw [← hb.hasName_congr (hall f (through_of_wireat hf)), hb.hasName]
  have hC : ∃ x j, NamePoint lib d x ∧ wireat d x = some j ∧ root j = root f := ⟨x, f, hx, hf, rfl⟩
  by_contra hno
  have hfull := (hb.name.full _ hC).resolve_left hno
  -- one root more than there is room for
  obtain ⟨l, hl, hcover⟩ := hc.few
  have hroot : ∀ i, Named lib d i → root i ∈ l.map root := fun i hi => by
    obtain ⟨k, hk, hki⟩ := hcover i hi
    exact List.mem_map.mpr ⟨k, hk, (hb.tied k i).mpr hki⟩
  have hsub : root f :: s.name.map (·.1) ⊆ l.map root := by
    intro r hr
    rcases List.mem_cons.mp hr with rfl | hr
    · exact hroot f ⟨x, hx, through_of_wireat hf⟩
    · obtain ⟨y, k, hy, hk, rfl⟩ := hb.name.sound r hr
      exact hroot k ⟨y, hy, through_of_wireat hk⟩
  have hnd : (root f :: s.name.map (·.1)).Nodup := List.nodup_cons.mpr ⟨hno, hb.name.nodup⟩
  have hle := (hnd.subperm hsub).length_le
  simp only [List.length_cons, List.length_map] at hle
  omega

theorem Clean.right : Right lib d s := by
  refine ⟨fun p q hp hq hpq => ⟨hb.connected hp hq, fun h => ?_⟩, fun p hp => ?_,
    fun j => hc.hasName hb⟩
  · exact (hc.reached hb hp h).2.resolve_left (Ne.symm hpq)
  · rw [hb.pnet_none hp]
    constructor
    · intro h x hx
      cases hx with
      | on _ hj => exact absurd hj (by rw [h]; simp)
      | stacked _ hq hpq hx =>
        obtain ⟨j, hj⟩ := hc.covered _ _ hp hq hpq hx
        exact absurd hj (by rw [h]; simp)
    · intro h j
      by_contra hj
      exact h _ (.on hp (by simpa using hj))

end Clean

/-! ### The order of the objects -/

section Order

variable (σ : Equiv.Perm (Fin n))

lemma moved_symm (p : Fin n × ℕ) : moved σ (moved σ.symm p) = p := by simp [moved]

lemma moved_injective : Function.Injective (moved σ) := by
  rintro ⟨i, k⟩ ⟨j, l⟩ h
  simpa [moved] using h

lemma comp_symm (d : Fin n → Head) : (d ∘ σ) ∘ σ.symm = d := by
  funext i
  simp

lemma meets_perm (i j : Fin n) : meets (d ∘ σ) i j = meets d (σ i) (σ j) := by
  simp [meets, through]

lemma tied_of_perm {i j : Fin n} (h : Tied (d ∘ σ) i j) : Tied d (σ i) (σ j) := by
  refine UnionFind.eqvGen_le (S := fun i j => Tied d (σ i) (σ j)) ?_ (fun i j hm => ?_) h
  · exact (EqvGen.is_equivalence _).comap σ
  · exact .rel _ _ (meets_perm σ i j ▸ hm)

lemma tied_perm {i j : Fin n} : Tied (d ∘ σ) i j ↔ Tied d (σ i) (σ j) := by
  refine ⟨tied_of_perm σ, fun h => ?_⟩
  rw [← comp_symm σ d] at h
  simpa using tied_of_perm σ.symm h

lemma namePoint_perm {x : ℤ × ℤ} : NamePoint lib (d ∘ σ) x ↔ NamePoint lib d x := by
  refine or_congr ⟨?_, ?_⟩ ⟨?_, ?_⟩
  · rintro ⟨p, hp⟩
    exact ⟨moved σ p, hp⟩
  · rintro ⟨p, hp⟩
    rw [← moved_symm σ p] at hp
    exact ⟨moved σ.symm p, hp⟩
  · rintro ⟨i, hi⟩
    exact ⟨σ i, hi⟩
  · rintro ⟨i, hi⟩
    rw [← σ.apply_symm_apply i] at hi
    exact ⟨σ.symm i, hi⟩

lemma named_perm {j : Fin n} : Named lib (d ∘ σ) j ↔ Named lib d (σ j) :=
  exists_congr fun _ => and_congr (namePoint_perm σ) Iff.rfl

/-- A thing of the sheet under the other order. -/
def Node.move : Node n → Node n
  | .wire i => .wire (σ i)
  | .pin p => .pin (moved σ p)

lemma touch_of_perm {x y : Node n} (h : Touch lib (d ∘ σ) x y) :
    Touch lib d (x.move σ) (y.move σ) := by
  cases h with
  | ends h => exact .ends (meets_perm σ _ _ ▸ h)
  | ended h => exact .ended (meets_perm σ _ _ ▸ h)
  | on hp h => exact .on hp h
  | under hp h => exact .under hp h
  | stacked hp hq hpq h => exact .stacked hp hq ((moved_injective σ).ne hpq) h

lemma move_symm (x : Node n) : (x.move σ).move σ.symm = x := by
  cases x <;> simp [Node.move, moved]

lemma touch_perm {x y : Node n} :
    Touch lib (d ∘ σ) x y ↔ Touch lib d (x.move σ) (y.move σ) := by
  refine ⟨touch_of_perm σ, fun h => ?_⟩
  rw [← comp_symm σ d] at h
  simpa only [move_symm] using touch_of_perm σ.symm h

lemma exists_move (x : Node n) : ∃ y : Node n, y.move σ = x := by
  cases x with
  | wire i => exact ⟨.wire (σ.symm i), by simp [Node.move]⟩
  | pin p => exact ⟨.pin (moved σ.symm p), by simp [Node.move, moved]⟩

lemma connected_of_perm {x y : Node n} (h : Connected lib (d ∘ σ) x y) :
    Connected lib d (x.move σ) (y.move σ) :=
  ReflTransGen.lift (Node.move σ) (fun _ _ => touch_of_perm σ) x y h

lemma connected_perm {x y : Node n} :
    Connected lib (d ∘ σ) x y ↔ Connected lib d (x.move σ) (y.move σ) := by
  refine ⟨connected_of_perm σ, fun h => ?_⟩
  rw [← comp_symm σ d] at h
  simpa only [move_symm] using connected_of_perm σ.symm h

lemma allpins_perm : (allpins lib (d ∘ σ)).length = (allpins lib d).length := by
  have hsum : ∀ d : Fin n → Head, (allpins lib d).length = ∑ i, npin lib (d i) := fun d => by
    simp [allpins, List.length_flatMap, Fin.sum_univ_def]
  rw [hsum, hsum]
  exact Equiv.sum_comp σ fun i => npin lib (d i)

lemma Clean.perm (hc : Clean lib d) : Clean lib (d ∘ σ) := by
  refine ⟨fun p q hp hq hpq hx => ?_, fun p q hp hq hpq i j hi hj hij i' j' hi' hj' => ?_,
    fun j hj => ?_, ?_⟩
  · obtain ⟨j, hj⟩ := hc.covered (moved σ p) (moved σ q) hp hq ((moved_injective σ).ne hpq) hx
    refine ⟨σ.symm j, ?_⟩
    rw [← σ.apply_symm_apply j] at hj
    exact hj
  · exact (hc.single (moved σ p) (moved σ q) hp hq ((moved_injective σ).ne hpq) (σ i) (σ j) hi hj
      (tied_of_perm σ hij) (σ i') (σ j') hi' hj').imp_left (tied_perm σ).mpr
  · obtain ⟨x, hx, ⟨i, hi⟩, hall⟩ := hc.clear (σ j) ((named_perm σ).mp hj)
    rw [← σ.apply_symm_apply i] at hi
    exact ⟨x, (namePoint_perm σ).mpr hx, ⟨σ.symm i, hi⟩, fun k hk => (tied_perm σ).mpr (hall _ hk)⟩
  · obtain ⟨l, hl, hall⟩ := hc.few
    refine ⟨l.map σ.symm, by simpa using hl, fun j hj => ?_⟩
    obtain ⟨i, hi, hij⟩ := hall (σ j) ((named_perm σ).mp hj)
    refine ⟨σ.symm i, List.mem_map_of_mem hi, (tied_perm σ).mpr ?_⟩
    rwa [σ.apply_symm_apply]

variable {σ}

lemma Right.perm (hr : Right lib d s) (ha : Agree lib d σ s s') : Right lib (d ∘ σ) s' := by
  refine ⟨fun p q hp hq hpq => ?_, fun p hp => ?_, fun j hj => ?_⟩
  · rw [ha.joined p q hp hq hpq, hr.joined (moved σ p) (moved σ q) hp hq
      ((moved_injective σ).ne hpq), connected_perm]
    rfl
  · rw [ha.alone p hp, hr.alone (moved σ p) hp]
    constructor
    · exact fun h x hx => h (x.move σ) ((touch_perm σ).mp hx)
    · intro h x hx
      obtain ⟨y, rfl⟩ := exists_move σ x
      exact h y ((touch_perm σ).mpr hx)
  · exact (ha.named j).mpr (hr.named _ ((named_perm σ).mp hj))

lemma Right.agree (hr : Right lib d s) (hr' : Right lib (d ∘ σ) s') (hb : Built lib d root s)
    (hb' : Built lib (d ∘ σ) root' s') : Agree lib d σ s s' := by
  refine ⟨fun p q hp hq hpq => ?_, fun p hp => ?_, fun j => ⟨fun h => ?_, fun h => ?_⟩⟩
  · rw [hr'.joined p q hp hq hpq, hr.joined (moved σ p) (moved σ q) hp hq
      ((moved_injective σ).ne hpq), connected_perm]
    rfl
  · rw [hb'.pnet_none (p := p) hp, hb.pnet_none hp]
    refine ⟨fun h j => ?_, fun h j => h (σ j)⟩
    rw [← σ.apply_symm_apply j]
    exact h (σ.symm j)
  · obtain ⟨x, i, hx, hi, hij⟩ := hb'.named h
    rw [← hb.hasName_congr (tied_of_perm σ hij)]
    exact hr.named _ ((named_perm σ).mp ⟨x, hx, through_of_wireat hi⟩)
  · obtain ⟨x, i, hx, hi, hij⟩ := hb.named h
    rw [← σ.apply_symm_apply i] at hi hij
    rw [← hb'.hasName_congr ((tied_perm σ).mpr hij)]
    exact hr'.named _ ((named_perm σ).mpr ⟨x, hx, through_of_wireat hi⟩)

end Order

/-! ### What is read as it is meant is clean -/

/-- Some order makes `i` the first wire through one point, and `j` the first through another. -/
lemma exists_order_pair {x y : ℤ × ℤ} {i j : Fin n} (hi : through d x i = true)
    (hj : through d y j = true) (h : through d y i = false) :
    ∃ σ : Equiv.Perm (Fin n), ∀ a b, wireat (d ∘ σ) x = some a → wireat (d ∘ σ) y = some b →
      σ a = i ∧ σ b = j := by
  obtain ⟨σ, hσ⟩ := exists_order d fun k => if k = i then 0 else if k = j then 1 else 2
  refine ⟨σ, fun a b ha hb => ?_⟩
  have h1 := hσ x a i ha hi
  have h2 := hσ y b j hb hj
  have hbi : σ b ≠ i := fun hbi => by
    have hy := through_of_wireat hb
    change through d y (σ b) = true at hy
    rw [hbi, h] at hy
    exact absurd hy (by simp)
  have hji : j ≠ i := fun hji => by
    rw [hji, h] at hj
    exact absurd hj (by simp)
  simp only [if_true] at h1
  rw [if_neg hji, if_pos rfl, if_neg hbi] at h2
  constructor
  · by_contra hne
    rw [if_neg hne] at h1
    split at h1 <;> omega
  · by_contra hne
    rw [if_neg hne] at h2
    omega

section Holds

variable (hn : (allpins lib d).length ≤ MAXNPIN) (h : Holds lib d)
include hn h

lemma Holds.order (σ : Equiv.Perm (Fin n)) :
    ∃ root s, Built lib (d ∘ σ) root s ∧ Right lib (d ∘ σ) s := by
  obtain ⟨s, -, hr, hall⟩ := h
  obtain ⟨s', hs', ha⟩ := hall σ
  obtain ⟨root, t, ht, hb⟩ := netbuild_spec lib (d ∘ σ) (by rwa [allpins_perm])
  obtain rfl : s' = t := Option.some.inj (hs'.symm.trans ht)
  exact ⟨root, s', hb, hr.perm ha⟩

lemma Holds.single {p q : Fin n × ℕ} {i j i' j' : Fin n} (hp : IsPin lib d p)
    (hq : IsPin lib d q) (hpq : p ≠ q) (hi : through d (xpinpos lib d p) i = true)
    (hj : through d (xpinpos lib d q) j = true) (hij : Tied d i j)
    (hi' : through d (xpinpos lib d p) i' = true) (hj' : through d (xpinpos lib d q) j' = true)
    (hno : through d (xpinpos lib d q) i' = false) : Tied d i' j' := by
  obtain ⟨σ, hσ⟩ := exists_order_pair hi' hj' hno
  obtain ⟨root, s, hb, hr⟩ := h.order hn σ
  obtain ⟨P, rfl⟩ : ∃ P, moved σ P = p := ⟨_, moved_symm σ p⟩
  obtain ⟨Q, rfl⟩ : ∃ Q, moved σ Q = q := ⟨_, moved_symm σ q⟩
  have hcon : Connected lib (d ∘ σ) (.pin P) (.pin Q) := by
    refine (connected_perm σ).mpr (ReflTransGen.trans ?_ (connected_of_tied hij) |>.tail ?_)
    · exact .single (.on hp hi)
    · exact .under hq hj
  have hPQ : P ≠ Q := fun he => hpq (congrArg (moved σ) he)
  obtain ⟨a, b, ha, hb', hab⟩ :=
    (hb.joined (p := P) (q := Q) hp hq).mp ((hr.joined P Q hp hq hPQ).mpr hcon)
  obtain ⟨rfl, rfl⟩ := hσ a b ha hb'
  exact tied_of_perm σ hab

lemma Holds.clear {j : Fin n} (hj : Named lib d j) : ∃ x, NamePoint lib d x ∧
    (∃ i, through d x i = true) ∧ ∀ i, through d x i = true → Tied d i j := by
  classical
  -- the wires of the net stand behind all others
  obtain ⟨σ, hσ⟩ := exists_order d fun k => if Tied d k j then 1 else 0
  obtain ⟨root, s, hb, hr⟩ := h.order hn σ
  rw [← σ.apply_symm_apply j] at hj
  obtain ⟨x, i, hx, hi, hij⟩ := hb.named (hr.named _ ((named_perm σ).mpr hj))
  have hij' := tied_of_perm σ hij
  have hi' : through d x (σ i) = true := through_of_wireat (d := d ∘ σ) hi
  rw [σ.apply_symm_apply] at hij'
  refine ⟨x, (namePoint_perm σ).mp hx, ⟨σ i, hi'⟩, fun k hk => ?_⟩
  have hle := hσ x i k hi hk
  rw [if_pos hij'] at hle
  by_contra hno
  rw [if_neg hno] at hle
  omega

theorem Holds.clean : Clean lib d := by
  obtain ⟨root, s, hs, hb⟩ := netbuild_spec lib d hn
  have hr : Right lib d s := by
    obtain ⟨s', hs', hr, -⟩ := h
    rwa [← Option.some.inj (hs'.symm.trans hs)]
  refine ⟨fun p q hp hq hpq hx => ?_, fun p q hp hq hpq i j hi hj hij i' j' hi' hj' => ?_,
    fun j hj => h.clear hn hj, s.name.map (·.1), by simpa using hb.name.few, fun j hj => ?_⟩
  · by_contra hno
    have hnone := (hb.pnet_none hp).mpr fun j => by
      simpa using fun hj => hno ⟨j, hj⟩
    exact (hr.alone p hp).mp hnone _ (.stacked hp hq hpq hx)
  · by_cases h1 : through d (xpinpos lib d q) i' = true
    · by_cases h2 : through d (xpinpos lib d p) j' = true
      · exact .inr ⟨h1, h2⟩
      · have h3 : through d (xpinpos lib d p) j' = false := by simpa using h2
        exact .inl (h.single hn hq hp hpq.symm hj hi hij.symm hj' hi' h3).symm
    · exact .inl (h.single hn hp hq hpq hi hj hij hi' hj' (by simpa using h1))
  · exact ⟨root j, hb.hasName.mp (hr.named j hj), (hb.tied _ _).mp (root_root hb.roots j)⟩

end Holds

lemma Clean.holds (hn : (allpins lib d).length ≤ MAXNPIN) (hc : Clean lib d) : Holds lib d := by
  obtain ⟨root, s, hs, hb⟩ := netbuild_spec lib d hn
  refine ⟨s, hs, hc.right hb, fun σ => ?_⟩
  obtain ⟨root', s', hs', hb'⟩ := netbuild_spec lib (d ∘ σ) (by rwa [allpins_perm])
  exact ⟨s', hs', (hc.right hb).agree ((hc.perm σ).right hb') hb hb'⟩

/-- **The nets of a drawing are right, in every order of its objects, if and only if it is clean**:
no pins lie on each other off the wires, no net crosses another where it has a pin, each net with a
name carries it at a point of its own, and no more nets have names than there is room for. -/
theorem netbuild_holds_iff (lib : List SYMDEF) (d : Fin n → Head)
    (hn : (allpins lib d).length ≤ MAXNPIN) : Holds lib d ↔ Clean lib d :=
  ⟨fun h => h.clean hn, fun h => h.holds hn⟩

/-- A library of one symbol, with a pin at its origin. -/
def onepin : List SYMDEF := [
  { sy_code := ['R']
    sy_pins := [(0, 0)]
    word := ⟨by simp, by simp [Words.inner, isblank, isnl]⟩
    noNul := by decide
    short := by decide }]

/-- An object that starts at the origin. -/
def placed (t : OT) (x y : ℤ) : Head where
  o_type := t
  o_sym := 0
  o_rot := 0
  o_mir := 0
  o_x := 0
  o_y := 0
  o_x2 := x
  o_y2 := y
  o_flags := 0
  o_layer := 0
  o_grp := 0
  o_name := []
  on0 := 0
  on1 := 0
  on2 := 0
  on3 := 0

/-- A symbol at the end of a wire. -/
theorem netbuild_one_wire :
    Holds onepin ![placed .SYM 0 0, placed .WIRE 4 0] ↔
      Clean onepin ![placed .SYM 0 0, placed .WIRE 4 0] :=
  netbuild_holds_iff onepin ![placed .SYM 0 0, placed .WIRE 4 0] (by decide)

/-- Two pins at one point with no wire there stay apart. -/
theorem netbuild_stacked_pins : ¬ Holds onepin ![placed .SYM 0 0, placed .SYM 0 0] := by
  rintro ⟨s, hs, hr, -⟩
  have hnone : (netbuild onepin ![placed .SYM 0 0, placed .SYM 0 0]).map (·.pnet (0, 0)) =
      some none := by decide
  rw [hs] at hnone
  have h1 : s.pnet (0, 0) = none := Option.some.inj hnone
  have hp : IsPin onepin ![placed .SYM 0 0, placed .SYM 0 0] (0, 0) := by
    unfold IsPin
    decide
  have hq : IsPin onepin ![placed .SYM 0 0, placed .SYM 0 0] (1, 0) := by
    unfold IsPin
    decide
  exact (hr.alone _ hp).mp h1 _ (.stacked hp hq (by decide) (by decide))

end Coherent.Netbuild
