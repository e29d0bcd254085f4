import Coherent.Lib.Run

/-!
The timer queue: `timeout`, the decrement of `clock`, and the part of `stand` that calls functions.

The queue stores differences: its header `timl` has the ticks until the first timer, and a timer
those until the next one. What the last one stores means nothing. Integers have 16 bits.
-/

namespace Coherent.Timeout

open Coherent.Lib

/-- The integer that is stored for `x`. -/
def int (x : ℤ) : ℤ := (x + 32768) % 65536 - 32768

def MAXINT : ℤ := 32767

variable {α F : Type*} [DecidableEq α]

/-- Take `tp` out of the queue behind a place with the increment `t_tinc`. -/
def excise (tp : α) (t_tinc : ℤ) : List (α × ℤ) → ℤ × List (α × ℤ)
  | [] => (t_tinc, [])
  | (tp2, inc) :: q =>
    if tp2 = tp then (int (t_tinc + inc), q)
    else
      let r := excise tp inc q
      (t_tinc, (tp2, r.1) :: r.2)

/-- Put `tp` into the queue, `n` ticks behind a place with the increment `t_tinc`. -/
def enqueue (tp : α) (n t_tinc : ℤ) : List (α × ℤ) → ℤ × List (α × ℤ)
  | [] => (n, [(tp, int (t_tinc - n))])
  | (tp2, inc) :: q =>
    if int (n - t_tinc) < 0 then
      let n := int (int (n - t_tinc) + t_tinc)
      (n, (tp, int (t_tinc - n)) :: (tp2, inc) :: q)
    else
      let r := enqueue tp (int (n - t_tinc)) inc q
      (t_tinc, (tp2, r.1) :: r.2)

/-- The header's increment, the queue with those of its timers, and the functions (with their
arguments) of all timers. -/
structure Timers (α F : Type*) where
  t_tinc : ℤ
  timl : List (α × ℤ)
  t_func : α → Option F

def timeout (s : Timers α F) (tp : α) (n : ℤ) (f : Option F) : Timers α F :=
  let s := match s.t_func tp with
    | none => s
    | some _ => { s with
        t_tinc := (excise tp s.t_tinc s.timl).1
        timl := (excise tp s.t_tinc s.timl).2 }
  match f with
  | none => s
  | some f =>
    { t_tinc := (enqueue tp n s.t_tinc s.timl).1
      timl := (enqueue tp n s.t_tinc s.timl).2
      t_func := Function.update s.t_func tp (some f) }

/-- Where `stand` is: not running, at the head of its loop, or calling a function. -/
inductive Pc
  | out
  | loop
  | calling

structure Kernel (α F : Type*) extends Timers α F where
  pc : Pc

inductive Act (α F : Type*)
  | timeout (tp : α) (n : ℕ) (f : Option F)
  | tick
  /-- `stand` finds its loop to do -/
  | stand
  /-- `stand` finds nothing to do -/
  | skip
  | call (tp : α) (f : Option F)
  /-- the function returns -/
  | back
  | leave

/-- A call of `timeout`, by whoever it may be; a tick; or what `stand` does at high priority. -/
inductive Step : Kernel α F → Act α F → Kernel α F → Prop
  | timeout {s : Kernel α F} {tp : α} {n : ℕ} {f : Option F}
      (hn : f.isSome → 1 ≤ n ∧ n ≤ 32767) :
      Step s (.timeout tp n f) { s with toTimers := timeout s.toTimers tp n f }
  | tick {s : Kernel α F} : Step s .tick { s with t_tinc := int (s.t_tinc - 1) }
  | stand {s : Kernel α F} (hp : s.pc = .out) (ht : s.t_tinc ≤ 0) :
      Step s .stand { s with pc := .loop }
  | skip {s : Kernel α F} (hp : s.pc = .out) (ht : 0 < s.t_tinc) : Step s .skip s
  | call {s : Kernel α F} {tp : α} {inc : ℤ} {q : List (α × ℤ)} (hp : s.pc = .loop)
      (ht : s.t_tinc ≤ 0) (hq : s.timl = (tp, inc) :: q) :
      Step s (.call tp (s.t_func tp))
        { t_tinc := int (s.t_tinc + inc), timl := q
          t_func := Function.update s.t_func tp none, pc := .calling }
  | back {s : Kernel α F} (hp : s.pc = .calling) : Step s .back { s with pc := .loop }
  | leave {s : Kernel α F} (hp : s.pc = .loop) (ht : 0 < s.t_tinc ∨ s.timl = []) :
      Step s .leave { s with t_tinc := if s.t_tinc ≤ 0 then MAXINT else s.t_tinc, pc := .out }

/-! ### What the timers are for -/

/-- The time in ticks, and when which function of each armed timer is to be called. -/
structure Alarms (α F : Type*) where
  now : ℕ
  armed : α → Option (ℕ × F)

def Alarms.next (x : Alarms α F) : Act α F → Alarms α F
  | .timeout tp n f =>
    { x with armed := Function.update x.armed tp (f.map fun f => (x.now + n, f)) }
  | .tick => { x with now := x.now + 1 }
  | .call tp _ => { x with armed := Function.update x.armed tp none }
  | _ => x

/-- No timer is so late that a difference would not fit. -/
def Alarms.Ok (x : Alarms α F) : Act α F → Prop
  | .timeout tp n (some _) => ∀ b, b ≠ tp → ∀ e ∈ x.armed b, x.now + n ≤ e.1 + 32767
  | .tick => ∀ b, ∀ e ∈ x.armed b, x.now + 1 ≤ e.1 + 32768
  | _ => True

instance [Fintype α] (x : Alarms α F) (a : Act α F) : Decidable (x.Ok a) :=
  match a with
  | .timeout tp n (some _) =>
    inferInstanceAs (Decidable (∀ b, b ≠ tp → ∀ e ∈ x.armed b, x.now + n ≤ e.1 + 32767))
  | .tick => inferInstanceAs (Decidable (∀ b, ∀ e ∈ x.armed b, x.now + 1 ≤ e.1 + 32768))
  | .timeout _ _ none | .stand | .skip | .call _ _ | .back | .leave =>
    inferInstanceAs (Decidable True)

def Alarms.expiry (x : Alarms α F) (b : α) : ℤ := (((x.armed b).map Prod.fst).getD 0 : ℕ)

/-! ### The queue -/

variable {E E' : α → ℤ} {t n inc : ℤ} {q : List (α × ℤ)} {tp : α}

lemma int_of_fits {x : ℤ} (h : -32768 ≤ x) (h' : x ≤ 32767) : int x = x := by
  unfold int
  omega

/-- The timers of a queue. -/
def ids (q : List (α × ℤ)) : List α := q.map Prod.fst

/-- The queue is in the order of the expiries `E`, and its increments count from `t`. -/
def Spaced (E : α → ℤ) (t inc : ℤ) : List (α × ℤ) → Prop
  | [] => True
  | (a, inc2) :: q => E a = t + inc ∧ (∀ b ∈ ids q, E a ≤ E b) ∧ Spaced E (E a) inc2 q

omit [DecidableEq α] in
lemma Spaced.congr (h : Spaced E t inc q) (hE : ∀ b ∈ ids q, E' b = E b) :
    Spaced E' t inc q := by
  induction q generalizing t inc with
  | nil => trivial
  | cons p q ih =>
    obtain ⟨a, inc2⟩ := p
    obtain ⟨h1, h2, h3⟩ := h
    have ha : E' a = E a := hE a List.mem_cons_self
    have hq : ∀ b ∈ ids q, E' b = E b := fun b hb => hE b (List.mem_cons_of_mem _ hb)
    refine ⟨ha.trans h1, fun b hb => ?_, ?_⟩
    · rw [ha, hq b hb]
      exact h2 b hb
    · rw [ha]
      exact ih h3 hq

omit [DecidableEq α] in
/-- Counting from another time. -/
lemma Spaced.shift (h : Spaced E t inc q) {t' inc' : ℤ} (hinc : q ≠ [] → t' + inc' = t + inc) :
    Spaced E t' inc' q := by
  cases q with
  | nil => trivial
  | cons p q =>
    obtain ⟨h1, h2, h3⟩ := h
    exact ⟨h1.trans (hinc (by simp)).symm, h2, h3⟩

lemma excise_not_mem (h : tp ∉ ids q) : excise tp inc q = (inc, q) := by
  induction q generalizing inc with
  | nil => rfl
  | cons p q ih =>
    obtain ⟨a, inc2⟩ := p
    have hne : a ≠ tp := fun he => h (by rw [← he]; exact List.mem_cons_self)
    have hq : tp ∉ ids q := fun hm => h (List.mem_cons_of_mem _ hm)
    rw [excise, if_neg hne, ih hq]

/-- **Taking a timer out**: its increment goes to the place before it. -/
lemma excise_spec (h : Spaced E t inc q) (hmem : tp ∈ ids q)
    (hfits : ∀ b ∈ ids q, -32768 ≤ E b - t ∧ E b - t ≤ 32767)
    (hnear : ∀ a ∈ ids q, ∀ b ∈ ids q, E b ≤ E a + 32767) :
    Spaced E t (excise tp inc q).1 (excise tp inc q).2 ∧
      ids (excise tp inc q).2 = (ids q).erase tp := by
  induction q generalizing t inc with
  | nil => cases hmem
  | cons p q ih =>
    obtain ⟨a, inc2⟩ := p
    obtain ⟨h1, h2, h3⟩ := h
    have hids : ids ((a, inc2) :: q) = a :: ids q := rfl
    rw [excise, hids, List.erase_cons]
    by_cases ha : a = tp
    · rw [if_pos ha, if_pos (by simpa using ha)]
      refine ⟨h3.shift fun hne => ?_, rfl⟩
      -- the sum is what the next timer is away
      obtain ⟨⟨b, inc3⟩, q, rfl⟩ := List.exists_cons_of_ne_nil hne
      have hb := hfits b (by simp [ids])
      have hE := h3.1
      rw [int_of_fits (by omega) (by omega)]
      omega
    · rw [if_neg ha, if_neg (by simpa using ha)]
      have hmem' : tp ∈ ids q := (List.mem_cons.mp hmem).resolve_left (Ne.symm ha)
      have hfits' : ∀ b ∈ ids q, -32768 ≤ E b - E a ∧ E b - E a ≤ 32767 := by
        intro b hb
        have hle := h2 b hb
        have hnear' := hnear a List.mem_cons_self b (List.mem_cons_of_mem _ hb)
        omega
      obtain ⟨h4, h5⟩ := ih h3 hmem' hfits' fun c hc b hb =>
        hnear c (List.mem_cons_of_mem _ hc) b (List.mem_cons_of_mem _ hb)
      refine ⟨⟨h1, fun b hb => h2 b ?_, h4⟩, ?_⟩
      · rw [h5] at hb
        exact List.mem_of_mem_erase hb
      · rw [← h5]
        rfl

omit [DecidableEq α] in
/-- **Putting a timer in**, behind those that expire with it. -/
lemma enqueue_spec (h : Spaced E t inc q) (hE : E tp = t + n) (hn : -32768 ≤ n ∧ n ≤ 32767)
    (hnear : ∀ b ∈ ids q, E tp ≤ E b + 32767 ∧ E b ≤ E tp + 32767) :
    Spaced E t (enqueue tp n inc q).1 (enqueue tp n inc q).2 ∧
      (ids (enqueue tp n inc q).2).Perm (tp :: ids q) := by
  induction q generalizing t n inc with
  | nil => exact ⟨⟨hE, fun b hb => absurd hb List.not_mem_nil, trivial⟩, .refl _⟩
  | cons p q ih =>
    obtain ⟨a, inc2⟩ := p
    obtain ⟨h1, h2, h3⟩ := h
    have ha := hnear a List.mem_cons_self
    have hdiff : int (n - inc) = E tp - E a := by
      rw [int_of_fits (by omega) (by omega)]
      omega
    rw [enqueue, hdiff]
    by_cases hlt : E tp - E a < 0
    · have hback : int (E tp - E a + inc) = n := by
        rw [int_of_fits (by omega) (by omega)]
        omega
      have hgap : int (inc - n) = E a - E tp := by
        rw [int_of_fits (by omega) (by omega)]
        omega
      rw [if_pos hlt, hback]
      dsimp only
      rw [hgap]
      refine ⟨⟨hE, fun b hb => ?_, by omega, h2, h3⟩, .refl _⟩
      rcases List.mem_cons.mp hb with hb' | hb'
      · rw [hb']
        change E tp ≤ E a
        omega
      · have := h2 b hb'
        omega
    · rw [if_neg hlt]
      obtain ⟨h4, h5⟩ := ih h3 (by omega : E tp = E a + (E tp - E a)) (by omega)
        fun b hb => hnear b (List.mem_cons_of_mem _ hb)
      refine ⟨⟨h1, fun b hb => ?_, h4⟩, ?_⟩
      · rcases List.mem_cons.mp (h5.mem_iff.mp hb) with rfl | hb
        · omega
        · exact h2 b hb
      · exact (h5.cons a).trans (.swap tp a (ids q))

/-! ### The timers -/

/-- The queue holds the timers that are armed, and counts the ticks until they expire. -/
structure Tells (s : Timers α F) (x : Alarms α F) : Prop where
  nodup : (ids s.timl).Nodup
  armed : ∀ b, b ∈ ids s.timl ↔ (x.armed b).isSome
  func : ∀ b, ∀ e ∈ x.armed b, s.t_func b = some e.2
  spaced : Spaced x.expiry x.now s.t_tinc s.timl
  fits : ∀ b ∈ ids s.timl, -32768 ≤ x.expiry b - x.now ∧ x.expiry b - x.now ≤ 32767
  near : ∀ a ∈ ids s.timl, ∀ b ∈ ids s.timl, x.expiry b ≤ x.expiry a + 32767

variable {s : Timers α F} {x : Alarms α F} {f : F}

omit [DecidableEq α] in
lemma expiry_of_mem {b : α} {e : ℕ × F} (h : e ∈ x.armed b) : x.expiry b = e.1 := by
  rw [Alarms.expiry, Option.mem_def.mp h]
  rfl

omit [DecidableEq α] in
lemma Tells.exists_mem (hs : Tells s x) {b : α} (hb : b ∈ ids s.timl) : ∃ e, e ∈ x.armed b :=
  Option.isSome_iff_exists.mp ((hs.armed b).mp hb)

omit [DecidableEq α] in
lemma Tells.mem (hs : Tells s x) {b : α} {e : ℕ × F} (h : e ∈ x.armed b) : b ∈ ids s.timl :=
  (hs.armed b).mpr (Option.isSome_iff_exists.mpr ⟨e, h⟩)

/-- A timer that is not armed any more. -/
def Alarms.cancel (x : Alarms α F) (tp : α) : Alarms α F :=
  { x with armed := Function.update x.armed tp none }

lemma expiry_cancel {b : α} (hb : b ≠ tp) : (x.cancel tp).expiry b = x.expiry b := by
  rw [Alarms.expiry, Alarms.expiry, Alarms.cancel]
  dsimp only
  rw [Function.update_of_ne hb]

/-- Without one of its timers, the queue tells the others. -/
lemma Tells.without (hs : Tells s x) {t_tinc : ℤ} {timl : List (α × ℤ)}
    {t_func : α → Option F} (hids : ids timl = (ids s.timl).erase tp)
    (hsp : Spaced x.expiry x.now t_tinc timl) (hf : ∀ b, b ≠ tp → t_func b = s.t_func b) :
    Tells ⟨t_tinc, timl, t_func⟩ (x.cancel tp) := by
  have hmem : ∀ b, b ∈ ids timl ↔ b ≠ tp ∧ b ∈ ids s.timl := fun b => by
    rw [hids, hs.nodup.mem_erase_iff]
  have hE : ∀ b ∈ ids timl, (x.cancel tp).expiry b = x.expiry b :=
    fun b hb => expiry_cancel ((hmem b).mp hb).1
  refine ⟨by dsimp only; rw [hids]; exact hs.nodup.erase tp, fun b => ?_, fun b e he => ?_,
    hsp.congr hE, fun b hb => ?_, fun a ha b hb => ?_⟩
  · rw [hmem b, hs.armed b, Alarms.cancel]
    dsimp only
    by_cases hb : b = tp
    · simp [hb]
    · rw [Function.update_of_ne hb]
      exact ⟨fun h => h.2, fun h => ⟨hb, h⟩⟩
  · have hb : b ≠ tp := by
      rintro rfl
      rw [Alarms.cancel] at he
      simp at he
    rw [Alarms.cancel] at he
    dsimp only at he ⊢
    rw [Function.update_of_ne hb] at he
    rw [hf b hb]
    exact hs.func b e he
  · rw [hE b hb]
    exact hs.fits b ((hmem b).mp hb).2
  · rw [hE a ha, hE b hb]
    exact hs.near a ((hmem a).mp ha).2 b ((hmem b).mp hb).2

/-- The first half of `timeout`. -/
lemma Tells.excised (hs : Tells s x) :
    Tells (match s.t_func tp with
      | none => s
      | some _ => { s with
          t_tinc := (excise tp s.t_tinc s.timl).1
          timl := (excise tp s.t_tinc s.timl).2 }) (x.cancel tp) := by
  by_cases hmem : tp ∈ ids s.timl
  · obtain ⟨e, he⟩ := hs.exists_mem hmem
    obtain ⟨h1, h2⟩ := excise_spec hs.spaced hmem hs.fits hs.near
    rw [hs.func tp e he]
    exact hs.without h2 h1 fun b _ => rfl
  · have hids : ids s.timl = (ids s.timl).erase tp := (List.erase_of_not_mem hmem).symm
    rw [excise_not_mem hmem]
    split
    · exact hs.without hids hs.spaced fun b _ => rfl
    · exact hs.without hids hs.spaced fun b _ => rfl

/-- The second half of `timeout`. -/
lemma Tells.enqueued {n : ℕ} (hs : Tells s x) (htp : x.armed tp = none) (hn : n ≤ 32767)
    (hok : ∀ b, ∀ e ∈ x.armed b, x.now + n ≤ e.1 + 32767) :
    Tells ⟨(enqueue tp n s.t_tinc s.timl).1, (enqueue tp n s.t_tinc s.timl).2,
        Function.update s.t_func tp (some f)⟩
      { x with armed := Function.update x.armed tp (some (x.now + n, f)) } := by
  obtain ⟨y, hy⟩ : ∃ y : Alarms α F,
      y = { x with armed := Function.update x.armed tp (some (x.now + n, f)) } := ⟨_, rfl⟩
  have hnow : y.now = x.now := by rw [hy]
  have hself : y.armed tp = some (x.now + n, f) := by
    rw [hy]
    exact Function.update_self ..
  have hother : ∀ b, b ≠ tp → y.armed b = x.armed b := fun b hb => by
    rw [hy]
    exact Function.update_of_ne hb ..
  have hEtp : y.expiry tp = x.now + n := by
    rw [expiry_of_mem (Option.mem_def.mpr hself)]
    push_cast
    rfl
  have hE : ∀ b ∈ ids s.timl, y.expiry b = x.expiry b := by
    intro b hb
    have hne : b ≠ tp := by
      rintro rfl
      obtain ⟨e, he⟩ := hs.exists_mem hb
      rw [htp] at he
      cases he
    rw [Alarms.expiry, Alarms.expiry, hother b hne]
  -- how far the new timer is from the others
  have hnear : ∀ b ∈ ids s.timl,
      y.expiry tp ≤ y.expiry b + 32767 ∧ y.expiry b ≤ y.expiry tp + 32767 := by
    intro b hb
    obtain ⟨e, he⟩ := hs.exists_mem hb
    have h1 := hok b e he
    have h2 := hs.fits b hb
    rw [hEtp, hE b hb]
    rw [expiry_of_mem he] at h2 ⊢
    omega
  obtain ⟨h3, h4⟩ := enqueue_spec (hs.spaced.congr hE) hEtp (by omega) hnear
  rw [← hy]
  have hmem : ∀ b, b ∈ ids (enqueue tp n s.t_tinc s.timl).2 ↔ b = tp ∨ b ∈ ids s.timl :=
    fun b => by rw [h4.mem_iff, List.mem_cons]
  have htp' : tp ∉ ids s.timl := by
    rw [hs.armed, htp]
    simp
  refine ⟨h4.nodup_iff.mpr (List.nodup_cons.mpr ⟨htp', hs.nodup⟩), fun b => ?_, fun b e he => ?_,
    by rw [hnow]; exact h3, fun b hb => ?_, fun a ha b hb => ?_⟩
  · rw [hmem b]
    by_cases hb : b = tp
    · rw [hb, hself]
      simp
    · rw [hother b hb, ← hs.armed b]
      simp [hb]
  · dsimp only
    by_cases hb : b = tp
    · rw [hb] at he ⊢
      rw [hself] at he
      rw [Function.update_self, ← Option.some.inj he]
    · rw [hother b hb] at he
      rw [Function.update_of_ne hb]
      exact hs.func b e he
  · rw [hnow]
    rcases (hmem b).mp hb with hb' | hb'
    · rw [hb', hEtp]
      omega
    · rw [hE b hb']
      exact hs.fits b hb'
  · rcases (hmem a).mp ha with ha' | ha'
    · rcases (hmem b).mp hb with hb' | hb'
      · rw [ha', hb']
        omega
      · rw [ha']
        exact (hnear b hb').2
    · rcases (hmem b).mp hb with hb' | hb'
      · rw [hb']
        exact (hnear a ha').1
      · rw [hE a ha', hE b hb']
        exact hs.near a ha' b hb'

lemma Tells.timeout {n : ℕ} {f : Option F} (hs : Tells s x) (hn : f.isSome → n ≤ 32767)
    (hok : x.Ok (.timeout tp n f)) : Tells (timeout s tp n f) (x.next (.timeout tp n f)) := by
  have hex : Tells _ (x.cancel tp) := hs.excised
  unfold Timeout.timeout
  cases f with
  | none => exact hex
  | some f =>
    have hnone : (x.cancel tp).armed tp = none := Function.update_self ..
    have hok' : ∀ b, ∀ e ∈ (x.cancel tp).armed b, (x.cancel tp).now + n ≤ e.1 + 32767 := by
      intro b e he
      have hb : b ≠ tp := by
        rintro rfl
        rw [hnone] at he
        cases he
      rw [Alarms.cancel] at he
      dsimp only at he
      rw [Function.update_of_ne hb] at he
      exact hok b hb e he
    have hen := hex.enqueued hnone (hn rfl) hok' (f := f)
    rw [Alarms.cancel] at hen
    dsimp only at hen
    rw [Function.update_idem] at hen
    exact hen

omit [DecidableEq α] in
/-- A tick. -/
lemma Tells.tick (hs : Tells s x) (hok : ∀ b, ∀ e ∈ x.armed b, x.now + 1 ≤ e.1 + 32768) :
    Tells { s with t_tinc := int (s.t_tinc - 1) } { x with now := x.now + 1 } := by
  have hfits : ∀ b ∈ ids s.timl,
      -32768 ≤ x.expiry b - (x.now + 1) ∧ x.expiry b - (x.now + 1) ≤ 32767 := by
    intro b hb
    obtain ⟨e, he⟩ := hs.exists_mem hb
    have h1 := hok b e he
    have h2 := hs.fits b hb
    rw [expiry_of_mem he] at h2 ⊢
    omega
  refine ⟨hs.nodup, hs.armed, hs.func, ?_, fun b hb => ?_, hs.near⟩
  · refine Spaced.shift hs.spaced fun hne => ?_
    obtain ⟨⟨a, inc⟩, q, hq⟩ := List.exists_cons_of_ne_nil hne
    have hsp := hs.spaced
    have ha := hfits a (by rw [hq]; exact List.mem_cons_self)
    rw [hq] at hsp
    have hE : x.expiry a = x.now + s.t_tinc := hsp.1
    rw [int_of_fits (by omega) (by omega)]
    push_cast
    ring
  · have h1 := hfits b hb
    push_cast
    exact h1

/-- A call. -/
lemma Tells.call {inc : ℤ} (hs : Tells s x) (hq : s.timl = (tp, inc) :: q) :
    Tells ⟨int (s.t_tinc + inc), q, Function.update s.t_func tp none⟩ (x.cancel tp) := by
  have hsp := hs.spaced
  rw [hq] at hsp
  obtain ⟨h1, h2, h3⟩ := hsp
  refine hs.without ?_ (h3.shift fun hne => ?_) fun b hb => Function.update_of_ne hb ..
  · rw [hq]
    exact (List.erase_cons_head ..).symm
  · obtain ⟨⟨b, inc3⟩, q, rfl⟩ := List.exists_cons_of_ne_nil hne
    have hb := hs.fits b (by rw [hq]; simp [ids])
    have hE : x.expiry b = x.expiry tp + inc := h3.1
    rw [int_of_fits (by omega) (by omega)]
    omega

/-- **One step.** -/
lemma Tells.next {s s' : Kernel α F} {a : Act α F} (hs : Tells s.toTimers x) (hok : x.Ok a)
    (hst : Step s a s') : Tells s'.toTimers (x.next a) := by
  cases hst with
  | timeout hn => exact hs.timeout (fun hf => (hn hf).2) hok
  | tick => exact hs.tick hok
  | call _ _ hq => exact hs.call hq
  | leave _ ht =>
    refine ⟨hs.nodup, hs.armed, hs.func, ?_, hs.fits, hs.near⟩
    refine hs.spaced.shift fun hne => ?_
    rw [if_neg (not_le.mpr (ht.resolve_right hne))]
    rfl
  | _ => exact hs

omit [DecidableEq α] in
/-- What is due first. -/
lemma Tells.first (hs : Tells s x) {inc : ℤ} (hq : s.timl = (tp, inc) :: q) :
    ∃ e ∈ x.armed tp, s.t_func tp = some e.2 ∧ (e.1 : ℤ) = x.now + s.t_tinc ∧
      ∀ b, ∀ e' ∈ x.armed b, e.1 ≤ e'.1 := by
  have htp : tp ∈ ids s.timl := by
    rw [hq]
    exact List.mem_cons_self
  obtain ⟨e, he⟩ := hs.exists_mem htp
  have hsp := hs.spaced
  rw [hq] at hsp
  obtain ⟨h1, h2, -⟩ := hsp
  rw [expiry_of_mem he] at h1 h2
  refine ⟨e, he, hs.func tp e he, h1, fun b e' he' => ?_⟩
  have hb := hs.mem he'
  rw [hq] at hb
  rcases List.mem_cons.mp hb with hb | hb
  · obtain rfl : b = tp := hb
    rw [Option.mem_unique he he']
  · have := h2 b hb
    rw [expiry_of_mem he'] at this
    omega

omit [DecidableEq α] in
/-- When nothing is due, nothing has expired. -/
lemma Tells.none_due (hs : Tells s x) (ht : 0 < s.t_tinc ∨ s.timl = []) :
    ∀ b, ∀ e ∈ x.armed b, x.now < e.1 := by
  intro b e he
  have hb := hs.mem he
  cases hq : s.timl with
  | nil =>
    rw [hq] at hb
    cases hb
  | cons p q =>
    obtain ⟨e', -, -, h1, h2⟩ := hs.first hq
    have hpos : 0 < s.t_tinc := ht.resolve_right (by rw [hq]; exact List.cons_ne_nil p q)
    have := h2 b e he
    omega

/-- **Timers** are called when they expire. In every run of calls of `timeout`, ticks and `stand`,
in any order, in which no timer gets so late that a difference does not fit: what is called is the
function of the armed timer that expires first, not before it does, and when `stand` has nothing
more to do, no armed timer has expired. -/
theorem timers_run {s s' : Kernel α F} {as : List (Act α F)} (hempty : s.timl = [])
    (hrun : Run Step s as s') (hok : Along Alarms.Ok Alarms.next ⟨0, fun _ => none⟩ as) :
    (∀ tp f u, Step s' (.call tp f) u →
      ∃ e ∈ (as.foldl Alarms.next ⟨0, fun _ => none⟩).armed tp, f = some e.2 ∧
        e.1 ≤ (as.foldl Alarms.next ⟨0, fun _ => none⟩).now ∧
        ∀ b, ∀ e' ∈ (as.foldl Alarms.next ⟨0, fun _ => none⟩).armed b, e.1 ≤ e'.1) ∧
      (∀ u, Step s' .leave u ∨ Step s' .skip u →
        ∀ b, ∀ e ∈ (as.foldl Alarms.next ⟨0, fun _ => none⟩).armed b,
          (as.foldl Alarms.next ⟨0, fun _ => none⟩).now < e.1) := by
  have hinit : Tells s.toTimers (⟨0, fun _ => none⟩ : Alarms α F) := by
    refine ⟨by rw [hempty]; exact List.nodup_nil, fun b => ?_, fun b e he => (by cases he),
      by rw [hempty]; trivial, fun b hb => ?_, fun a ha => ?_⟩
    · rw [hempty]
      simp [ids]
    · rw [hempty] at hb
      cases hb
    · rw [hempty] at ha
      cases ha
  have hend := Run.follow (R := fun (s : Kernel α F) x => Tells s.toTimers x)
    (fun s a t x hs hok hst => ?_) hrun hinit hok
  swap
  · exact hs.next hok hst
  refine ⟨fun tp f u hst => ?_, fun u hst => ?_⟩
  · cases hst with
    | call hp ht hq =>
      obtain ⟨e, he, h1, h2, h3⟩ := hend.first hq
      exact ⟨e, he, h1, by omega, h3⟩
  · rcases hst with hst | hst
    · cases hst with
      | leave hp ht => exact hend.none_due ht
    · cases hst with
      | skip hp ht => exact hend.none_due (.inl ht)

/-- Nothing is queued. -/
def idle : Kernel Bool Unit := ⟨⟨0, [], fun _ => none⟩, .out⟩

/-- Two timers, the second of which expires first, and a tick. -/
def armed : List (Act Bool Unit) :=
  [.timeout false 2 (some ()), .timeout true 1 (some ()), .tick, .stand]

theorem timers_run_armed : ∃ s' : Kernel Bool Unit, Run Step idle armed s' ∧
    (∀ tp f u, Step s' (.call tp f) u →
      ∃ e ∈ (armed.foldl Alarms.next ⟨0, fun _ => none⟩).armed tp, f = some e.2 ∧
        e.1 ≤ (armed.foldl Alarms.next ⟨0, fun _ => none⟩).now ∧
        ∀ b, ∀ e' ∈ (armed.foldl Alarms.next ⟨0, fun _ => none⟩).armed b, e.1 ≤ e'.1) ∧
      (∀ u, Step s' .leave u ∨ Step s' .skip u →
        ∀ b, ∀ e ∈ (armed.foldl Alarms.next ⟨0, fun _ => none⟩).armed b,
          (armed.foldl Alarms.next ⟨0, fun _ => none⟩).now < e.1) := by
  have hrun : Run Step idle armed _ :=
    .snoc (.snoc (.snoc (.snoc (.nil idle) (.timeout (by decide))) (.timeout (by decide))) .tick)
      (.stand rfl (by decide))
  exact ⟨_, hrun, timers_run rfl hrun (by decide)⟩

/-- A timer that is overdue by one tick when another is armed for the longest time is put behind
that one: `stand` finds nothing to do. -/
theorem overdue_timer_skipped : ∃ (s' : Kernel Bool Unit) (as : List (Act Bool Unit)),
    Run Step idle as s' ∧ (∃ u, Step s' .skip u) ∧
      ∃ b, ∃ e ∈ (as.foldl Alarms.next ⟨0, fun _ => none⟩).armed b,
        e.1 ≤ (as.foldl Alarms.next ⟨0, fun _ => none⟩).now := by
  have hrun : Run Step idle
      [.timeout false 1 (some ()), .tick, .tick, .timeout true 32767 (some ())] _ :=
    .snoc (.snoc (.snoc (.snoc (.nil idle) (.timeout (by decide))) .tick) .tick)
      (.timeout (by decide))
  exact ⟨_, _, hrun, ⟨_, .skip rfl (by decide)⟩, false, (1, ()), rfl, by decide⟩

end Coherent.Timeout
