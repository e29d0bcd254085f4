import Coherent.Bio

/-!
The buffer cache serves blocks: two buffers never hold one block, a block comes with what was left
in it, and nothing that was left is lost.
-/

namespace Coherent.Bio

open Coherent.Lib

variable {Data : Type*} {NBUF : ℕ}

/-! ### What a buffer holds

`dk` is what the disk has of the block of the buffer, `vw` what was left in the block last, and `us`
who has it. -/

section Slots

variable (x : Slot Data) (dk vw : Data) (us : Option Pid)

structure Free : Prop where
  gate : x.b_gate = false
  drv : x.drv = .idle
  ntp : x.b_ntp = false
  err : x.b_err = false
  asy : x.b_asy = false
  mod : x.b_mod = true → x.b_dev ≠ NODEV
  user : x.b_dev ≠ NODEV → us = none
  data : x.b_dev ≠ NODEV → x.b_data = vw
  disk : x.b_dev ≠ NODEV → x.b_mod = false → dk = x.b_data

structure Held (p : Pid) : Prop where
  gate : x.b_gate = true
  drv : x.drv = .idle
  err : x.b_err = false
  asy : x.b_asy = false
  mod : x.b_mod = true → x.b_dev ≠ NODEV
  user : x.b_dev ≠ NODEV → us = some p
  disk : x.b_dev ≠ NODEV → x.b_mod = false → x.kept = true → dk = x.b_data

/-- A buffer that `bread` waits for. -/
structure Reading : Prop where
  gate : x.b_gate = true
  asy : x.b_asy = false
  mod : x.b_mod = false
  req : x.b_req = .BREAD
  ntp : x.b_ntp = true ↔ x.drv ≠ .idle
  err : x.b_err = true → x.drv = .idle ∧ x.b_dev = NODEV
  dev : x.b_err = false → x.b_dev ≠ NODEV
  user : x.b_dev ≠ NODEV → us = none
  disk : x.b_dev ≠ NODEV → dk = vw
  data : x.b_dev ≠ NODEV → x.drv ≠ .queued → x.b_data = dk

/-- A buffer that `bwrite` waits for. -/
structure Writing : Prop where
  gate : x.b_gate = true
  asy : x.b_asy = false
  err : x.b_err = false
  req : x.b_req = .BWRITE
  dev : x.b_dev ≠ NODEV
  ntp : x.b_ntp = true ↔ x.drv ≠ .idle
  mod : x.drv = .idle → x.b_mod = false
  disk : x.drv ≠ .queued → dk = x.b_data

/-- A buffer that nobody waits for. -/
structure Driven : Prop where
  gate : x.b_gate = true
  asy : x.b_asy = true
  err : x.b_err = false
  dev : x.b_dev ≠ NODEV
  drv : x.drv ≠ .idle
  user : us = none
  read : x.b_req = .BREAD → x.b_mod = false ∧ dk = vw ∧ (x.drv = .moved → x.b_data = dk)
  write : x.b_req = .BWRITE → x.b_data = vw ∧ (x.drv = .moved → dk = x.b_data)

def Slot.Ok : Prop :=
  match x.own with
  | .nobody => Free x dk vw us
  | .caller p => Held x dk us p
  | .reading _ => Reading x dk vw us
  | .writing p => Writing x dk ∧ us = some p
  | .cleaning _ => Writing x dk ∧ us = none ∧ x.b_data = vw
  | .driver => Driven x dk vw us

variable {x dk vw us}

lemma Slot.Ok.free (h : x.Ok dk vw us) (ho : x.own = .nobody) : Free x dk vw us := by
  simpa [Slot.Ok, ho] using h

lemma Slot.Ok.held {p : Pid} (h : x.Ok dk vw us) (ho : x.own = .caller p) : Held x dk us p := by
  simpa [Slot.Ok, ho] using h

lemma Slot.Ok.reading {p : Pid} (h : x.Ok dk vw us) (ho : x.own = .reading p) :
    Reading x dk vw us := by
  simpa [Slot.Ok, ho] using h

lemma Slot.Ok.writing {p : Pid} (h : x.Ok dk vw us) (ho : x.own = .writing p) :
    Writing x dk ∧ us = some p := by
  simpa [Slot.Ok, ho] using h

lemma Slot.Ok.cleaning {p : Pid} (h : x.Ok dk vw us) (ho : x.own = .cleaning p) :
    Writing x dk ∧ us = none ∧ x.b_data = vw := by
  simpa [Slot.Ok, ho] using h

lemma Slot.Ok.driven (h : x.Ok dk vw us) (ho : x.own = .driver) : Driven x dk vw us := by
  simpa [Slot.Ok, ho] using h

/-- An open gate is nobody's. -/
lemma Slot.Ok.nobody (h : x.Ok dk vw us) (hg : x.b_gate = false) : x.own = .nobody := by
  cases ho : x.own with
  | nobody => rfl
  | caller p => simpa [hg] using (h.held ho).gate
  | reading p => simpa [hg] using (h.reading ho).gate
  | writing p => simpa [hg] using (h.writing ho).1.gate
  | cleaning p => simpa [hg] using (h.cleaning ho).1.gate
  | driver => simpa [hg] using (h.driven ho).gate

/-- Of a buffer of no device it does not matter what the disk has. -/
lemma Slot.Ok.of_nodev {dk' vw' : Data} {us' : Option Pid} (h : x.Ok dk vw us)
    (hd : x.b_dev = NODEV) : x.Ok dk' vw' us' := by
  have hno : ∀ {P : Prop}, x.b_dev ≠ NODEV → P := fun h => absurd hd h
  unfold Slot.Ok
  cases ho : x.own with
  | nobody =>
    have h := h.free ho
    exact ⟨h.gate, h.drv, h.ntp, h.err, h.asy, h.mod, hno, hno, hno⟩
  | caller p =>
    have h := h.held ho
    exact ⟨h.gate, h.drv, h.err, h.asy, h.mod, hno, hno⟩
  | reading p =>
    have h := h.reading ho
    exact ⟨h.gate, h.asy, h.mod, h.req, h.ntp, h.err, h.dev, hno, hno, hno⟩
  | writing p => exact hno (h.writing ho).1.dev
  | cleaning p => exact hno (h.cleaning ho).1.dev
  | driver => exact hno (h.driven ho).dev

end Slots

/-! ### All buffers -/

/-- The buffers and the disk against what was left in the blocks. -/
structure Blocks (NBUF : ℕ) (bufl : ℕ → Slot Data) (disk : ℕ → ℤ → Data) (a : Store Data) :
    Prop where
  tags : ∀ i < NBUF, ∀ j < NBUF, (bufl i).b_dev ≠ NODEV → (bufl i).tag = (bufl j).tag → i = j
  ok : ∀ i < NBUF, (bufl i).Ok (disk (bufl i).b_dev (bufl i).b_bno)
    (a.view (bufl i).b_dev (bufl i).b_bno) (a.user (bufl i).b_dev (bufl i).b_bno)
  miss : ∀ dev bno, dev ≠ NODEV → (∀ i < NBUF, (bufl i).tag ≠ (dev, bno)) →
    disk dev bno = a.view dev bno ∧ a.user dev bno = none

variable {bufl : ℕ → Slot Data} {disk disk' : ℕ → ℤ → Data} {a a' : Store Data} {i j : ℕ}
  {x : Slot Data}

lemma tag_eq {dev : ℕ} {bno : ℤ} : x.tag = (dev, bno) ↔ x.b_dev = dev ∧ x.b_bno = bno :=
  Prod.ext_iff

lemma dev_of_tag {y : Slot Data} (h : x.tag = y.tag) : x.b_dev = y.b_dev := (Prod.ext_iff.mp h).1

/-- One buffer changes. Its new block is in no other buffer and is the only one that the rest may
have changed for, and its old block, if it had another one, is what the disk has. -/
lemma Blocks.set (h : Blocks NBUF bufl disk a) (hi : i < NBUF)
    (hnew : x.b_dev ≠ NODEV → ∀ j < NBUF, j ≠ i → (bufl j).tag ≠ x.tag)
    (hoff : ∀ dev bno, dev ≠ NODEV → x.tag ≠ (dev, bno) → disk' dev bno = disk dev bno ∧
      a'.view dev bno = a.view dev bno ∧ a'.user dev bno = a.user dev bno)
    (hok : x.Ok (disk' x.b_dev x.b_bno) (a'.view x.b_dev x.b_bno) (a'.user x.b_dev x.b_bno))
    (hold : (bufl i).b_dev ≠ NODEV → (bufl i).tag ≠ x.tag →
      disk (bufl i).b_dev (bufl i).b_bno = a.view (bufl i).b_dev (bufl i).b_bno ∧
        a.user (bufl i).b_dev (bufl i).b_bno = none) :
    Blocks NBUF (Function.update bufl i x) disk' a' where
  tags j hj k hk hd ht := by
    by_cases hji : j = i
    · subst hji
      by_contra hne
      rw [Function.update_self] at hd ht
      rw [Function.update_of_ne (Ne.symm hne)] at ht
      exact hnew hd k hk (Ne.symm hne) ht.symm
    · rw [Function.update_of_ne hji] at hd ht
      by_cases hki : k = i
      · subst hki
        rw [Function.update_self] at ht
        exact absurd ht (hnew (by rw [← dev_of_tag ht]; exact hd) j hj hji)
      · rw [Function.update_of_ne hki] at ht
        exact h.tags j hj k hk hd ht
  ok j hj := by
    by_cases hji : j = i
    · subst hji
      rw [Function.update_self]
      exact hok
    · rw [Function.update_of_ne hji]
      by_cases hd : (bufl j).b_dev = NODEV
      · exact (h.ok j hj).of_nodev hd
      · have hne : x.tag ≠ (bufl j).tag := by
          intro he
          refine hnew ?_ j hj hji he.symm
          rw [dev_of_tag he]
          exact hd
        obtain ⟨h1, h2, h3⟩ := hoff _ _ hd hne
        rw [h1, h2, h3]
        exact h.ok j hj
  miss dev bno hd hno := by
    have hne := hno i hi
    rw [Function.update_self] at hne
    obtain ⟨h1, h2, h3⟩ := hoff dev bno hd hne
    rw [h1, h2, h3]
    by_cases hi' : (bufl i).tag = (dev, bno)
    · obtain ⟨rfl, rfl⟩ := tag_eq.mp hi'
      exact hold hd fun he => hne (he ▸ rfl)
    · refine h.miss dev bno hd fun j hj => ?_
      by_cases hji : j = i
      · subst hji; exact hi'
      · have := hno j hj
        rwa [Function.update_of_ne hji] at this

/-- One buffer changes, but not its block, and no block does. -/
lemma Blocks.same (h : Blocks NBUF bufl disk a) (hi : i < NBUF) (ht : x.tag = (bufl i).tag)
    (hok : x.Ok (disk (bufl i).b_dev (bufl i).b_bno) (a.view (bufl i).b_dev (bufl i).b_bno)
      (a.user (bufl i).b_dev (bufl i).b_bno)) :
    Blocks NBUF (Function.update bufl i x) disk a := by
  have hdev := dev_of_tag ht
  have hbno : x.b_bno = (bufl i).b_bno := (Prod.ext_iff.mp ht).2
  refine h.set hi (fun hd j hj hji he => ?_) (fun _ _ _ _ => ⟨rfl, rfl, rfl⟩) ?_
    (fun _ hne => absurd ht.symm hne)
  · rw [hdev] at hd
    exact hji (h.tags i hi j hj hd (by rw [he, ht])).symm
  · rw [hdev, hbno]
    exact hok

/-- One buffer loses its block, which the disk has as it was left. -/
lemma Blocks.drop (h : Blocks NBUF bufl disk a) (hi : i < NBUF) (hx : x.b_dev = NODEV)
    (hok : ∀ dk vw us, x.Ok dk vw us)
    (hold : (bufl i).b_dev ≠ NODEV →
      disk (bufl i).b_dev (bufl i).b_bno = a.view (bufl i).b_dev (bufl i).b_bno ∧
        a.user (bufl i).b_dev (bufl i).b_bno = none) :
    Blocks NBUF (Function.update bufl i x) disk a :=
  h.set hi (fun hd => absurd hx hd) (fun _ _ _ _ => ⟨rfl, rfl, rfl⟩) (hok _ _ _)
    (fun hd _ => hold hd)

/-- A block is lent or given back. -/
lemma Blocks.event (h : Blocks NBUF bufl disk a) (hi : i < NBUF) (ht : x.tag = (bufl i).tag)
    (hoff : ∀ dev bno, (bufl i).tag ≠ (dev, bno) →
      a'.view dev bno = a.view dev bno ∧ a'.user dev bno = a.user dev bno)
    (hok : x.Ok (disk (bufl i).b_dev (bufl i).b_bno) (a'.view (bufl i).b_dev (bufl i).b_bno)
      (a'.user (bufl i).b_dev (bufl i).b_bno)) :
    Blocks NBUF (Function.update bufl i x) disk a' := by
  have hdev := dev_of_tag ht
  have hbno : x.b_bno = (bufl i).b_bno := (Prod.ext_iff.mp ht).2
  refine h.set hi (fun hd j hj hji he => ?_) (fun dev bno _ hne => ⟨rfl, ?_⟩) ?_
    (fun _ hne => absurd ht.symm hne)
  · rw [hdev] at hd
    exact hji (h.tags i hi j hj hd (by rw [he, ht])).symm
  · rw [ht] at hne
    exact hoff dev bno hne
  · rw [hdev, hbno]
    exact hok

@[simp] lemma at2_self {α : Type*} (f : ℕ → ℤ → α) (dev : ℕ) (bno : ℤ) (v : α) :
    at2 f dev bno v dev bno = v := by simp [at2]

lemma at2_off {α : Type*} {f : ℕ → ℤ → α} {dev dev' : ℕ} {bno bno' : ℤ} {v : α}
    (h : (dev, bno) ≠ (dev', bno')) : at2 f dev bno v dev' bno' = f dev' bno' := by
  unfold at2
  by_cases hd : dev' = dev
  · subst hd
    have : bno' ≠ bno := fun e => h (by rw [e])
    simp [this]
  · simp [hd]

/-! ### The processes -/

/-- The process that sleeps until the driver is done with the buffer. -/
def Own.sleeper : Own → Option Pid
  | .reading p => some p
  | .writing p => some p
  | .cleaning p => some p
  | _ => none

def Call.Ok (c : Call) : Prop := c.want = .claim ∨ c.dev ≠ NODEV

/-- What holds where a process is. The block is in none of the buffers that the first loop of
`bclaim` has been over, and the gate of the one it has chosen is open. -/
def At (NBUF : ℕ) (bufl : ℕ → Slot Data) (p : Pid) : Pc → Prop
  | .out => True
  | .scan c i bp1 _ => c.Ok ∧ (∀ j, bp1 = some j → j < NBUF ∧ (bufl j).b_gate = false) ∧
      (c.dev ≠ NODEV → ∀ j < i, (bufl j).tag ≠ (c.dev, c.bno))
  | .lockTag c i => c.Ok ∧ i < NBUF
  | .need c => c.Ok
  | .lockVictim _ _ => False
  | .reading i => i < NBUF ∧ (bufl i).own = .reading p
  | .writing i .caller => i < NBUF ∧ (bufl i).own = .writing p
  | .writing i _ => i < NBUF ∧ (bufl i).own = .cleaning p
  | .sync _ => True
  | .lockSync i => i < NBUF
  | .flush _ _ => True
  | .lockFlush _ i => i < NBUF

lemma At.mono {b b' : ℕ → Slot Data} {p : Pid} {l : Pc} (h : At NBUF b p l)
    (hown : ∀ i, (b i).own.sleeper = some p → (b' i).own = (b i).own)
    (hact : l.active = true → ∀ j, ((b j).b_gate = false → (b' j).b_gate = false) ∧
      ((b' j).b_dev ≠ NODEV → (b' j).tag = (b j).tag)) : At NBUF b' p l := by
  cases l with
  | scan c i bp1 seqn =>
    obtain ⟨hc, hbp, hno⟩ := h
    refine ⟨hc, fun j hj => ⟨(hbp j hj).1, (hact rfl j).1 (hbp j hj).2⟩, fun hd j hj he => ?_⟩
    have hd' : (b' j).b_dev ≠ NODEV := by rw [(tag_eq.mp he).1]; exact hd
    exact hno hd j hj (((hact rfl j).2 hd').symm.trans he)
  | reading i => exact ⟨h.1, by rw [hown i (by rw [h.2]; rfl), h.2]⟩
  | writing i k =>
    cases k <;> exact ⟨h.1, by rw [hown i (by rw [h.2]; rfl), h.2]⟩
  | _ => exact h

structure Inv (NBUF : ℕ) (s : Cache Data) (a : Store Data) : Prop where
  blocks : Blocks NBUF s.bufl s.disk a
  pcs : ∀ p, At NBUF s.bufl p (s.pc p)
  cpu : ∀ p, (s.pc p).active = true → s.cpu = some p

variable {s s' : Cache Data} {p : Pid} {c : Call} {l : Pc}

@[simp] lemma put_bufl (s : Cache Data) (i : ℕ) (x : Slot Data) :
    (s.put i x).bufl = Function.update s.bufl i x := rfl

@[simp] lemma put_put (s : Cache Data) (i : ℕ) (x y : Slot Data) :
    (s.put i x).put i y = s.put i y := by
  simp [Cache.put]

/-- The process that runs changes some buffers and goes on at `l`. -/
lemma Inv.go (h : Inv NBUF s a) (hcpu : s.cpu = none ∨ s.cpu = some p)
    (hb : Blocks NBUF s'.bufl s'.disk a') (hpc : s'.pc = s.pc)
    (hown : ∀ q, q ≠ p → ∀ i, (s.bufl i).own.sleeper = some q → (s'.bufl i).own = (s.bufl i).own)
    (hl : At NBUF s'.bufl p l) : Inv NBUF (s'.go p l) a' where
  blocks := hb
  pcs q := by
    by_cases hq : q = p
    · subst hq
      simpa [Cache.go] using hl
    · have hpq : (s'.go p l).pc q = s.pc q := by simp [Cache.go, hq, hpc]
      rw [hpq]
      refine (h.pcs q).mono (hown q hq) fun hact => ?_
      have := h.cpu q hact
      rcases hcpu with hc | hc
      · simp [hc] at this
      · rw [hc] at this
        exact absurd (Option.some.inj this).symm hq
  cpu q hact := by
    by_cases hq : q = p
    · subst hq
      simp only [Cache.go, Function.update_self] at hact ⊢
      simp [hact]
    · simp only [Cache.go, Function.update_of_ne hq, hpc] at hact
      have := h.cpu q hact
      rcases hcpu with hc | hc
      · simp [hc] at this
      · rw [hc] at this
        exact absurd (Option.some.inj this).symm hq

/-- Something else happens, while no process is in the middle of a loop or without opening what it
relies on. -/
lemma Inv.aside (h : Inv NBUF s a) (hb : Blocks NBUF s'.bufl s'.disk a') (hpc : s'.pc = s.pc)
    (hcpu : s'.cpu = s.cpu)
    (hown : ∀ q i, (s.bufl i).own.sleeper = some q → (s'.bufl i).own = (s.bufl i).own)
    (hact : s.cpu ≠ none → ∀ j, ((s.bufl j).b_gate = false → (s'.bufl j).b_gate = false) ∧
      ((s'.bufl j).b_dev ≠ NODEV → (s'.bufl j).tag = (s.bufl j).tag)) : Inv NBUF s' a' where
  blocks := hb
  pcs q := by
    rw [hpc]
    exact (h.pcs q).mono (hown q) fun ha => hact (by simp [h.cpu q ha])
  cpu q ha := by
    rw [hpc] at ha
    rw [hcpu, h.cpu q ha]

lemma own_update {b : ℕ → Slot Data} {q : Pid} (h : (b i).own.sleeper ≠ some q) (j : ℕ)
    (hj : (b j).own.sleeper = some q) : (Function.update b i x j).own = (b j).own := by
  by_cases hji : j = i
  · subst hji; exact absurd hj h
  · rw [Function.update_of_ne hji]

/-! ### `bclaim` -/

/-- The block is lent, unless the buffer is one of no device. -/
def lendTo (a : Store Data) (p : Pid) (dev : ℕ) (bno : ℤ) : Store Data :=
  if dev = NODEV then a else a.lend p dev bno

lemma serves_took {dev : ℕ} {bno : ℤ} (h : dev ≠ NODEV → a.user dev bno = none) :
    Serves a (note dev (.took p dev bno)) (lendTo a p dev bno) := by
  by_cases hd : dev = NODEV
  · simpa [note, lendTo, hd] using Serves.none a
  · simpa [note, lendTo, hd] using Serves.took (h hd)

lemma serves_got {dev : ℕ} {bno : ℤ} {d : Data}
    (h : dev ≠ NODEV → a.user dev bno = none ∧ d = a.view dev bno) :
    Serves a (note dev (.got p dev bno d)) (lendTo a p dev bno) := by
  by_cases hd : dev = NODEV
  · simpa [note, lendTo, hd] using Serves.none a
  · obtain ⟨hu, rfl⟩ := h hd
    simpa [note, lendTo, hd] using Serves.got hu

lemma lendTo_off {dev dev' : ℕ} {bno bno' : ℤ} (h : (dev, bno) ≠ (dev', bno')) :
    (lendTo a p dev bno).view dev' bno' = a.view dev' bno' ∧
      (lendTo a p dev bno).user dev' bno' = a.user dev' bno' := by
  unfold lendTo
  split_ifs
  · exact ⟨rfl, rfl⟩
  · exact ⟨rfl, at2_off h⟩

lemma lendTo_user {dev : ℕ} {bno : ℤ} (h : dev ≠ NODEV) :
    (lendTo a p dev bno).user dev bno = some p := by
  simp [lendTo, h, Store.lend]

/-- A buffer with its block is released. -/
lemma Slot.released_ok {n : UInt16} {dk vw : Data} (hd : x.drv = .idle) (he : x.b_err = false)
    (ha : x.b_asy = false) (hm : x.b_mod = true → x.b_dev ≠ NODEV)
    (hv : x.b_dev ≠ NODEV → x.b_data = vw)
    (hk : x.b_dev ≠ NODEV → x.b_mod = false → dk = x.b_data) :
    (x.released n).Ok dk vw none := by
  have hx : x.released n = { x with
      b_seqn := n, b_ntp := false, b_gate := false, own := .nobody } := by
    simp [Slot.released, he]
  rw [hx]
  exact ⟨rfl, hd, rfl, he, ha, hm, fun _ => rfl, hv, hk⟩

lemma Slot.released_tag {n : UInt16} (he : x.b_err = false) : (x.released n).tag = x.tag := by
  simp [Slot.released, he, Slot.tag]

/-- `bclaim` returns a buffer that it has found, with what was left in it. -/
lemma Inv.returned_found (h : Inv NBUF s a) (hcpu : s.cpu = none ∨ s.cpu = some p) (hi : i < NBUF)
    (hg : (s.bufl i).b_gate = false) (ht : (s.bufl i).tag = (c.dev, c.bno)) {b : Bool}
    (hb : b = false) :
    ∃ a', Serves a (returned (s.put i { s.bufl i with b_gate := true, b_ntp := b }) p c i).2 a' ∧
      Inv NBUF (returned (s.put i { s.bufl i with b_gate := true, b_ntp := b }) p c i).1 a' := by
  subst hb
  obtain ⟨hdev, hbno⟩ := tag_eq.mp ht
  have hown := (h.blocks.ok i hi).nobody hg
  have hf := (h.blocks.ok i hi).free hown
  have hne : ∀ q, (s.bufl i).own.sleeper ≠ some q := by simp [hown, Own.sleeper]
  -- what is in the buffer for its caller
  have hlent : ∀ y : Slot Data, y = { s.bufl i with
      b_gate := true, b_ntp := false, own := .caller p, kept := true } →
      Inv NBUF ((s.put i y).go p .out) (lendTo a p c.dev c.bno) := by
    intro y hy
    refine h.go hcpu ?_ rfl (fun q _ => own_update (hne q)) trivial
    refine h.blocks.event hi (by rw [hy]; rfl) (fun dev bno hn => lendTo_off (ht ▸ hn)) ?_
    rw [hy, hdev, hbno]
    refine ⟨rfl, hf.drv, hf.err, hf.asy, hf.mod, fun hd => ?_, fun hd hm _ => ?_⟩
    · exact lendTo_user (hdev ▸ hd)
    · simpa [hdev, hbno] using hf.disk hd hm
  have huser : c.dev ≠ NODEV → a.user c.dev c.bno = none := by
    simpa [hdev, hbno] using hf.user
  cases hw : c.want with
  | claim =>
    refine ⟨lendTo a p c.dev c.bno, ?_, ?_⟩
    · simpa [returned, hw] using serves_took huser
    · simpa [returned, hw] using hlent _ rfl
  | read =>
    have hdata : c.dev ≠ NODEV → (s.bufl i).b_data = a.view c.dev c.bno := by
      simpa [hdev, hbno] using hf.data
    refine ⟨lendTo a p c.dev c.bno, ?_, ?_⟩
    · simpa [returned, hw] using serves_got fun hd => ⟨huser hd, hdata hd⟩
    · simpa [returned, hw] using hlent _ rfl
  | ahead =>
    refine ⟨a, by simpa [returned, hw] using Serves.none a, ?_⟩
    have hgo : Inv NBUF ((brelease (s.put i { s.bufl i with
        b_gate := true, b_ntp := false }) i).go p .out) a := by
      refine h.go hcpu ?_ rfl (fun q _ => ?_) trivial
      · simp only [brelease, put_bufl, Function.update_self, put_put]
        refine h.blocks.same hi (Slot.released_tag hf.err) ?_
        have hok := Slot.released_ok (x := { s.bufl i with b_gate := true, b_ntp := false })
          (n := s.bufseqn) hf.drv hf.err hf.asy hf.mod hf.data hf.disk
        by_cases hd : (s.bufl i).b_dev = NODEV
        · exact hok.of_nodev (by simpa [Slot.released, hf.err] using hd)
        · rw [hf.user hd]
          exact hok
      · simp only [brelease, put_bufl, Function.update_self, put_put]
        exact own_update (hne q)
    simpa [returned, hw] using hgo

/-- A buffer that `bclaim` makes for a block that is in none. -/
def Slot.made (x : Slot Data) (c : Call) : Slot Data :=
  { x with
    b_gate := true, b_ntp := true, b_err := false, b_mod := false, b_asy := false
    b_dev := c.dev, b_bno := c.bno }

/-- `bclaim` gives an open buffer to another block, which is in no buffer. -/
lemma Inv.returned_made (h : Inv NBUF s a) (hcpu : s.cpu = none ∨ s.cpu = some p) (hi : i < NBUF)
    (hg : (s.bufl i).b_gate = false) (hm : (s.bufl i).b_mod = false) (hc : c.Ok)
    (hno : c.dev ≠ NODEV → ∀ j < NBUF, (s.bufl j).tag ≠ (c.dev, c.bno)) :
    ∃ a', Serves a (returned (s.put i ((s.bufl i).made c)) p c i).2 a' ∧
      Inv NBUF (returned (s.put i ((s.bufl i).made c)) p c i).1 a' := by
  have hown := (h.blocks.ok i hi).nobody hg
  have hf := (h.blocks.ok i hi).free hown
  have hne : ∀ q, (s.bufl i).own.sleeper ≠ some q := by simp [hown, Own.sleeper]
  have hmiss : c.dev ≠ NODEV → s.disk c.dev c.bno = a.view c.dev c.bno ∧
      a.user c.dev c.bno = none := fun hd => h.blocks.miss _ _ hd (hno hd)
  -- the buffer has the new block, whoever gets it
  have hset : ∀ (y : Slot Data) (a' : Store Data), y.tag = (c.dev, c.bno) →
      (∀ dev bno, (c.dev, c.bno) ≠ (dev, bno) →
        a'.view dev bno = a.view dev bno ∧ a'.user dev bno = a.user dev bno) →
      y.Ok (s.disk c.dev c.bno) (a'.view c.dev c.bno) (a'.user c.dev c.bno) →
      Blocks NBUF (Function.update s.bufl i y) s.disk a' := by
    intro y a' hy hoff hok
    obtain ⟨hyd, hyb⟩ := tag_eq.mp hy
    refine h.blocks.set hi (fun hd j hj _ => ?_) (fun dev bno _ hn => ⟨rfl, ?_⟩) ?_
      (fun hd _ => ?_)
    · rw [hy]
      exact hno (hyd ▸ hd) j hj
    · exact hoff dev bno (hy ▸ hn)
    · rw [hyd, hyb]
      exact hok
    · rw [hf.disk hd hm, hf.data hd]
      exact ⟨rfl, hf.user hd⟩
  have hfetch : ∀ hd : c.want ≠ .claim, c.dev ≠ NODEV := fun hw => hc.resolve_left hw
  cases hw : c.want with
  | claim =>
    refine ⟨lendTo a p c.dev c.bno, ?_, ?_⟩
    · simpa [returned, hw] using serves_took fun hd => (hmiss hd).2
    · have hgo : Inv NBUF ((s.put i { (s.bufl i).made c with
          own := .caller p, kept := false }).go p .out) (lendTo a p c.dev c.bno) := by
        refine h.go hcpu (hset _ _ rfl (fun dev bno hn => lendTo_off hn) ?_) rfl
          (fun q _ => own_update (hne q)) trivial
        exact ⟨rfl, hf.drv, rfl, rfl, by simp [Slot.made], fun hd => lendTo_user hd, by simp⟩
      simpa [returned, hw, Slot.made] using hgo
  | read =>
    have hd := hfetch (by simp [hw])
    refine ⟨a, by simpa [returned, hw, Slot.made] using Serves.none a, ?_⟩
    have hgo : Inv NBUF ((s.put i { ((s.bufl i).made c).fetch true with
        own := .reading p }).go p (.reading i)) a := by
      refine h.go hcpu (hset _ _ rfl (fun _ _ _ => ⟨rfl, rfl⟩) ?_) rfl
        (fun q _ => own_update (hne q)) ⟨hi, by simp⟩
      exact ⟨rfl, rfl, rfl, rfl, by simp [Slot.made, Slot.fetch], by simp [Slot.made, Slot.fetch],
        fun _ => hd, fun _ => (hmiss hd).2, fun _ => (hmiss hd).1, by simp [Slot.fetch]⟩
    simpa [returned, hw, Slot.made] using hgo
  | ahead =>
    have hd := hfetch (by simp [hw])
    refine ⟨a, by simpa [returned, hw, Slot.made] using Serves.none a, ?_⟩
    have hgo : Inv NBUF ((s.put i { ((s.bufl i).made c).fetch false with
        own := .driver }).go p .out) a := by
      refine h.go hcpu (hset _ _ rfl (fun _ _ _ => ⟨rfl, rfl⟩) ?_) rfl
        (fun q _ => own_update (hne q)) trivial
      exact ⟨rfl, rfl, rfl, hd, by simp [Slot.fetch], (hmiss hd).2,
        fun _ => ⟨rfl, (hmiss hd).1, by simp [Slot.fetch]⟩, by simp [Slot.fetch]⟩
    simpa [returned, hw, Slot.made] using hgo

lemma again_at (hc : c.Ok) : At NBUF bufl p (.scan c 0 none 0) :=
  ⟨hc, by simp, fun _ j hj => absurd hj (Nat.not_lt_zero j)⟩

lemma Inv.again (h : Inv NBUF s a) (hcpu : s.cpu = none ∨ s.cpu = some p) (hc : c.Ok) :
    Inv NBUF (again s p c) a :=
  h.go hcpu h.blocks rfl (fun _ _ _ _ => rfl) (again_at hc)

lemma Inv.tagLock (h : Inv NBUF s a) (hcpu : s.cpu = none ∨ s.cpu = some p) (hi : i < NBUF)
    (hc : c.Ok) :
    ∃ a', Serves a (tagLock s p c i).2 a' ∧ Inv NBUF (tagLock s p c i).1 a' := by
  by_cases hg : (s.bufl i).b_gate = true
  · refine ⟨a, ?_, ?_⟩ <;> simp only [Bio.tagLock, hg, if_true]
    · exact .none a
    · exact h.go hcpu h.blocks rfl (fun _ _ _ _ => rfl) ⟨hc, hi⟩
  have hg : (s.bufl i).b_gate = false := by simpa using hg
  by_cases ht : (s.bufl i).tag = (c.dev, c.bno)
  · have hf := (h.blocks.ok i hi).free ((h.blocks.ok i hi).nobody hg)
    have := h.returned_found hcpu hi hg ht
      (show ((s.bufl i).b_ntp || (s.bufl i).b_err) = false by simp [hf.ntp, hf.err])
    simpa [Bio.tagLock, hg, ht] using this
  · -- the buffer went to another block while the process slept
    refine ⟨a, ?_, ?_⟩ <;> simp only [Bio.tagLock, hg, ht, ne_eq, not_false_eq_true, if_true]
    · exact .none a
    · exact h.again hcpu hc

/-- A buffer that nobody has is written out. -/
lemma Free.stored {dk vw : Data} {us : Option Pid} (h : Free x dk vw us)
    (hd : x.b_dev ≠ NODEV) :
    ({ x.store false with b_gate := true, own := .driver } : Slot Data).Ok dk vw us :=
  ⟨rfl, rfl, h.err, hd, by simp [Slot.store], h.user hd, by simp [Slot.store],
    fun _ => ⟨h.data hd, by simp [Slot.store]⟩⟩

lemma Inv.victimLock (h : Inv NBUF s a) (hcpu : s.cpu = none ∨ s.cpu = some p) (hi : i < NBUF)
    (hg : (s.bufl i).b_gate = false) (hc : c.Ok)
    (hno : c.dev ≠ NODEV → ∀ j < NBUF, (s.bufl j).tag ≠ (c.dev, c.bno)) :
    ∃ a', Serves a (victimLock s p c i).2 a' ∧ Inv NBUF (victimLock s p c i).1 a' := by
  have hown := (h.blocks.ok i hi).nobody hg
  have hf := (h.blocks.ok i hi).free hown
  by_cases hm : (s.bufl i).b_mod = true
  · refine ⟨a, ?_, ?_⟩ <;> simp only [Bio.victimLock, hg, hm, if_true, Bool.false_eq_true, if_false]
    · exact .none a
    · refine h.go hcpu (h.blocks.same hi rfl (hf.stored (hf.mod hm))) rfl (fun q _ => ?_)
        (again_at hc)
      exact own_update (by simp [hown, Own.sleeper])
  · have := h.returned_made hcpu hi hg (by simpa using hm) hc hno
    simpa [Bio.victimLock, hg, hm, Slot.made] using this

lemma pick_open {n j : ℕ} (h : (pick s n).1 = some j) : j < n ∧ (s.bufl j).b_gate = false := by
  induction n with
  | zero => simp [pick] at h
  | succ n ih =>
    simp only [pick] at h
    split_ifs at h with hc
    · obtain rfl : n = j := by simpa using h
      exact ⟨Nat.lt_succ_self _, hc.1⟩
    · exact ⟨(ih h).1.trans (Nat.lt_succ_self _), (ih h).2⟩

/-- One turn of the first loop of `bclaim`, or what comes after it. -/
lemma Inv.scanTurn (h : Inv NBUF s a) (hcpu : s.cpu = none ∨ s.cpu = some p) {bp1 : Option ℕ}
    {seqn : UInt16} (hat : At NBUF s.bufl p (.scan c i bp1 seqn)) :
    ∃ a', Serves a (scanTurn NBUF s p c i bp1 seqn).2 a' ∧
      Inv NBUF (scanTurn NBUF s p c i bp1 seqn).1 a' := by
  obtain ⟨hc, hbp, hno⟩ := hat
  unfold Bio.scanTurn
  by_cases hi : i < NBUF
  · simp only [hi, if_true]
    by_cases ht : (s.bufl i).tag = (c.dev, c.bno)
    · simpa only [ht, if_true] using h.tagLock hcpu hi hc
    simp only [ht, if_false]
    -- neither this buffer nor one before it has the block
    have hno' : c.dev ≠ NODEV → ∀ j < i + 1, (s.bufl j).tag ≠ (c.dev, c.bno) := by
      intro hd j hj
      rcases Nat.lt_succ_iff_lt_or_eq.mp hj with hj | rfl
      · exact hno hd j hj
      · exact ht
    split_ifs with hbest
    · refine ⟨a, .none a, h.go hcpu h.blocks rfl (fun _ _ _ _ => rfl) ⟨hc, fun j hj => ?_, hno'⟩⟩
      obtain rfl := Option.some.inj hj
      exact ⟨hi, hbest.1⟩
    · exact ⟨a, .none a, h.go hcpu h.blocks rfl (fun _ _ _ _ => rfl) ⟨hc, hbp, hno'⟩⟩
  · have hall : c.dev ≠ NODEV → ∀ j < NBUF, (s.bufl j).tag ≠ (c.dev, c.bno) :=
      fun hd j hj => hno hd j (hj.trans_le (not_lt.mp hi))
    simp only [hi, if_false]
    cases bp1 with
    | some j =>
      obtain ⟨hj, hg⟩ := hbp j rfl
      exact h.victimLock hcpu hj hg hc hall
    | none =>
      cases hp : (pick s NBUF).1 with
      | some j =>
        obtain ⟨hj, hg⟩ := pick_open hp
        simpa only [hp] using h.victimLock hcpu hj hg hc hall
      | none =>
        simpa only [hp] using
          ⟨a, .none a, h.go hcpu h.blocks rfl (fun _ _ _ _ => rfl) hc⟩

/-! ### `bread`, `bwrite`, `brelease` and `bdone` -/

/-- What `bdone` leaves of a buffer that is not in error. -/
lemma Slot.done_eq (h : ¬ (x.b_req = .BREAD ∧ x.b_err = true)) :
    x.done = { x with b_mod := if x.b_req = .BWRITE then false else x.b_mod, drv := .idle } := by
  unfold Slot.done
  by_cases hw : x.b_req = .BWRITE
  · simp [hw]
  · have he : ¬ (x.b_req = .BREAD ∧ x.b_err = true) := h
    simp [hw, he]

lemma Slot.done_error (h : x.b_req = .BREAD) (he : x.b_err = true) :
    x.done = { x with b_dev := NODEV, drv := .idle } := by
  simp [Slot.done, h, he]

/-- The buffer after `bdone`. -/
def Slot.completed (x : Slot Data) (bufseqn : UInt16) : Slot Data :=
  if x.b_asy then ({ x.done with b_asy := false } : Slot Data).released bufseqn
  else { x.done with b_ntp := false }

@[simp] lemma Slot.done_asy (x : Slot Data) : x.done.b_asy = x.b_asy := by
  unfold Slot.done
  by_cases h1 : x.b_req = .BWRITE
  · simp [h1]
  · by_cases h2 : x.b_req = .BREAD ∧ x.b_err = true <;> simp [h1, h2]

lemma bdone_bufl (s : Cache Data) (i : ℕ) :
    (bdone s i).bufl = Function.update s.bufl i ((s.bufl i).completed s.bufseqn) := by
  by_cases ha : (s.bufl i).b_asy = true
  · simp [bdone, Slot.completed, ha, brelease, Cache.put]
  · simp [bdone, Slot.completed, ha, Cache.put]

@[simp] lemma bdone_rest (s : Cache Data) (i : ℕ) :
    (bdone s i).disk = s.disk ∧ (bdone s i).pc = s.pc ∧ (bdone s i).cpu = s.cpu := by
  unfold bdone
  dsimp only
  split_ifs <;> exact ⟨rfl, rfl, rfl⟩

/-- What `bdone` leaves of the buffer whose block has been moved. -/
lemma Slot.Ok.completed {dk vw : Data} {us : Option Pid} {n : UInt16} (h : x.Ok dk vw us)
    (hm : x.drv = .moved) : (x.completed n).Ok dk vw us ∧ (x.completed n).tag = x.tag := by
  have hbusy : x.drv ≠ .idle := by simp [hm]
  have hnq : x.drv ≠ .queued := by simp [hm]
  cases ho : x.own with
  | nobody => exact absurd (h.free ho).drv hbusy
  | caller p => exact absurd (h.held ho).drv hbusy
  | reading p =>
    have hr := h.reading ho
    have he : x.b_err = false := by
      by_contra he
      exact hbusy (hr.err (by simpa using he)).1
    have hx : x.completed n = { x with b_mod := false, drv := .idle, b_ntp := false } := by
      simp [Slot.completed, Slot.done_eq, hr.asy, hr.req, he, hr.mod]
    rw [hx]
    refine ⟨?_, rfl⟩
    unfold Slot.Ok
    simp only [ho]
    exact ⟨hr.gate, hr.asy, rfl, hr.req, by simp, by simp [he], hr.dev, hr.user, hr.disk,
      fun hd _ => hr.data hd hnq⟩
  | writing p =>
    obtain ⟨hw, hu⟩ := h.writing ho
    have hx : x.completed n = { x with b_mod := false, drv := .idle, b_ntp := false } := by
      simp [Slot.completed, Slot.done_eq, hw.asy, hw.req]
    rw [hx]
    refine ⟨?_, rfl⟩
    unfold Slot.Ok
    simp only [ho]
    exact ⟨⟨hw.gate, hw.asy, hw.err, hw.req, hw.dev, by simp, fun _ => rfl,
      fun _ => hw.disk hnq⟩, hu⟩
  | cleaning p =>
    obtain ⟨hw, hu⟩ := h.cleaning ho
    have hx : x.completed n = { x with b_mod := false, drv := .idle, b_ntp := false } := by
      simp [Slot.completed, Slot.done_eq, hw.asy, hw.req]
    rw [hx]
    refine ⟨?_, rfl⟩
    unfold Slot.Ok
    simp only [ho]
    exact ⟨⟨hw.gate, hw.asy, hw.err, hw.req, hw.dev, by simp, fun _ => rfl,
      fun _ => hw.disk hnq⟩, hu⟩
  | driver =>
    have hd := h.driven ho
    have hx : x.completed n = ({ x with
        b_mod := if x.b_req = .BWRITE then false else x.b_mod, drv := .idle
        b_asy := false } : Slot Data).released n := by
      simp [Slot.completed, Slot.done_eq, hd.asy, hd.err]
    rw [hx]
    refine ⟨?_, Slot.released_tag hd.err⟩
    rw [hd.user]
    cases hq : x.b_req with
    | BREAD =>
      obtain ⟨hmod, hdk, hdata⟩ := hd.read hq
      exact Slot.released_ok rfl hd.err rfl (fun _ => hd.dev) (fun _ => (hdata hm).trans hdk)
        (fun _ _ => (hdata hm).symm)
    | BWRITE =>
      obtain ⟨hv, hdk⟩ := hd.write hq
      exact Slot.released_ok rfl hd.err rfl (fun _ => hd.dev) (fun _ => hv) (fun _ _ => hdk hm)

/-- Interrupts open gates, but do not close any; and they forget blocks, but bring none. -/
lemma Slot.completed_loose (x : Slot Data) (n : UInt16) :
    (x.b_gate = false → (x.completed n).b_gate = false) ∧
      ((x.completed n).b_dev ≠ NODEV → (x.completed n).tag = x.tag) ∧
      (x.b_asy = false → (x.completed n).own = x.own) := by
  by_cases he : x.b_req = .BREAD ∧ x.b_err = true
  · by_cases ha : x.b_asy = true <;>
      simp [Slot.completed, Slot.done_error he.1 he.2, ha, Slot.released, he.2]
  · by_cases ha : x.b_asy = true <;> by_cases hf : x.b_err = true <;>
      simp [Slot.completed, Slot.done_eq he, ha, hf, Slot.released, Slot.tag]

/-- A buffer that somebody waits for is not given back by `bdone`. -/
lemma Slot.Ok.asy {dk vw : Data} {us : Option Pid} {q : Pid} (h : x.Ok dk vw us)
    (hq : x.own.sleeper = some q) : x.b_asy = false := by
  cases ho : x.own with
  | reading p => exact (h.reading ho).asy
  | writing p => exact (h.writing ho).1.asy
  | cleaning p => exact (h.cleaning ho).1.asy
  | _ => simp [ho, Own.sleeper] at hq

lemma Inv.bdone (h : Inv NBUF s a) (hi : i < NBUF) (hm : (s.bufl i).drv = .moved) :
    Inv NBUF (Bio.bdone s i) a := by
  obtain ⟨hd, hp, hc⟩ := bdone_rest s i
  obtain ⟨hok, ht⟩ := (h.blocks.ok i hi).completed (n := s.bufseqn) hm
  refine h.aside ?_ hp hc (fun q j hj => ?_) (fun _ j => ?_) <;> rw [bdone_bufl]
  · rw [hd]
    exact h.blocks.same hi ht hok
  · by_cases hji : j = i
    · subst hji
      rw [Function.update_self]
      exact (Slot.completed_loose _ _).2.2 ((h.blocks.ok j hi).asy hj)
    · rw [Function.update_of_ne hji]
  · by_cases hji : j = i
    · subst hji
      rw [Function.update_self]
      exact ⟨(Slot.completed_loose _ _).1, (Slot.completed_loose _ _).2.1⟩
    · rw [Function.update_of_ne hji]
      exact ⟨id, fun _ => rfl⟩

/-- Reading has failed, and the buffer has no block any more. -/
lemma Slot.Ok.failed {dk vw : Data} {us : Option Pid} (h : x.Ok dk vw us) (hb : x.drv ≠ .idle)
    (hr : x.b_req = .BREAD) (dk' vw' : Data) (us' : Option Pid) (d : Data) (n : UInt16) :
    ((x.failed d).completed n).Ok dk' vw' us' ∧
      ((x.failed d).completed n).b_dev = NODEV ∧
      (dk = vw ∧ us = none) := by
  cases ho : x.own with
  | nobody => exact absurd (h.free ho).drv hb
  | caller p => exact absurd (h.held ho).drv hb
  | reading p =>
    have hx := h.reading ho
    have he : x.b_err = false := by
      by_contra he
      exact hb (hx.err (by simpa using he)).1
    have hcomp : (x.failed d).completed n = { x with
        b_err := true, b_data := d, b_dev := NODEV, drv := .idle, b_ntp := false } := by
      simp [Slot.completed, Slot.done_error, Slot.failed, hr, hx.asy]
    rw [hcomp]
    refine ⟨?_, rfl, hx.disk (hx.dev he), hx.user (hx.dev he)⟩
    unfold Slot.Ok
    simp only [ho]
    exact ⟨hx.gate, hx.asy, hx.mod, hr, by simp, fun _ => ⟨rfl, rfl⟩, by simp, by simp, by simp,
      by simp⟩
  | writing p => simp [(h.writing ho).1.req] at hr
  | cleaning p => simp [(h.cleaning ho).1.req] at hr
  | driver =>
    have hx := h.driven ho
    obtain ⟨hmod, hdk, -⟩ := hx.read hr
    have hcomp : (x.failed d).completed n = { x with
        b_err := false, b_data := d, b_dev := NODEV, drv := .idle, b_asy := false
        b_ntp := false, b_gate := false, own := .nobody } := by
      simp [Slot.completed, Slot.done_error, Slot.failed, hr, hx.asy, Slot.released]
    rw [hcomp]
    exact ⟨⟨rfl, rfl, rfl, rfl, rfl, by simp [hmod], by simp, by simp, by simp⟩, rfl, hdk, hx.user⟩

lemma Inv.fail (h : Inv NBUF s a) (hi : i < NBUF) (hb : (s.bufl i).drv ≠ .idle)
    (hr : (s.bufl i).b_req = .BREAD) (d : Data) :
    Inv NBUF (Bio.bdone (s.put i ((s.bufl i).failed d)) i) a := by
  have hbufl : (Bio.bdone (s.put i ((s.bufl i).failed d)) i).bufl =
      Function.update s.bufl i (((s.bufl i).failed d).completed s.bufseqn) := by
    rw [bdone_bufl]
    simp [Cache.put]
  obtain ⟨hd, hp, hc⟩ := bdone_rest (s.put i ((s.bufl i).failed d)) i
  have hfail : ∀ dk vw us, _ := fun dk vw us =>
    (h.blocks.ok i hi).failed hb hr dk vw us d s.bufseqn
  refine h.aside ?_ hp hc (fun q j hj => ?_) (fun _ j => ?_) <;> rw [hbufl]
  · rw [hd]
    exact h.blocks.drop hi (hfail (s.disk 0 0) (s.disk 0 0) none).2.1
      (fun dk vw us => (hfail dk vw us).1) (fun _ => (hfail (s.disk 0 0) (s.disk 0 0) none).2.2)
  · by_cases hji : j = i
    · subst hji
      rw [Function.update_self]
      exact (Slot.completed_loose ((s.bufl j).failed d) s.bufseqn).2.2
        ((h.blocks.ok j hi).asy hj)
    · rw [Function.update_of_ne hji]
  · by_cases hji : j = i
    · subst hji
      rw [Function.update_self]
      have hl := Slot.completed_loose ((s.bufl j).failed d) s.bufseqn
      exact ⟨hl.1, hl.2.1⟩
    · rw [Function.update_of_ne hji]
      exact ⟨id, fun _ => rfl⟩

/-- The driver has read a block. -/
lemma Slot.Ok.read {dk vw : Data} {us : Option Pid} (h : x.Ok dk vw us) (hq : x.drv = .queued)
    (hr : x.b_req = .BREAD) :
    ({ x with drv := .moved, b_data := dk } : Slot Data).Ok dk vw us := by
  have hbusy : x.drv ≠ .idle := by simp [hq]
  unfold Slot.Ok
  cases ho : x.own with
  | nobody => exact absurd (h.free ho).drv hbusy
  | caller p => exact absurd (h.held ho).drv hbusy
  | reading p =>
    have hx := h.reading ho
    exact ⟨hx.gate, hx.asy, hx.mod, hx.req, by simp [hx.ntp.mpr hbusy],
      fun he => absurd (hx.err he).1 hbusy, hx.dev, hx.user, hx.disk, fun _ _ => rfl⟩
  | writing p => simp [(h.writing ho).1.req] at hr
  | cleaning p => simp [(h.cleaning ho).1.req] at hr
  | driver =>
    have hx := h.driven ho
    obtain ⟨hm, hdk, -⟩ := hx.read hr
    exact ⟨hx.gate, hx.asy, hx.err, hx.dev, by simp, hx.user, fun _ => ⟨hm, hdk, fun _ => rfl⟩,
      fun hw => by simp [hr] at hw⟩

/-- The driver has written a block. -/
lemma Slot.Ok.written {dk vw : Data} {us : Option Pid} (h : x.Ok dk vw us) (hq : x.drv = .queued)
    (hw : x.b_req = .BWRITE) : x.b_dev ≠ NODEV ∧
      ({ x with drv := .moved } : Slot Data).Ok x.b_data vw us := by
  have hbusy : x.drv ≠ .idle := by simp [hq]
  have hwr : ∀ o, Writing x dk → Writing { x with drv := .moved, own := o } x.b_data := fun o hx =>
    ⟨hx.gate, hx.asy, hx.err, hx.req, hx.dev, by simp [hx.ntp.mpr hbusy], by simp, fun _ => rfl⟩
  unfold Slot.Ok
  cases ho : x.own with
  | nobody => exact absurd (h.free ho).drv hbusy
  | caller p => exact absurd (h.held ho).drv hbusy
  | reading p => simp [(h.reading ho).req] at hw
  | writing p =>
    obtain ⟨hx, hu⟩ := h.writing ho
    exact ⟨hx.dev, hwr _ hx, hu⟩
  | cleaning p =>
    obtain ⟨hx, hu⟩ := h.cleaning ho
    exact ⟨hx.dev, hwr _ hx, hu⟩
  | driver =>
    have hx := h.driven ho
    exact ⟨hx.dev, hx.gate, hx.asy, hx.err, hx.dev, by simp, hx.user,
      fun hr => by simp [hw] at hr, fun _ => ⟨(hx.write hw).1, fun _ => rfl⟩⟩

/-- Only one buffer changes, and its gate, its block and whose it is do not. -/
lemma Inv.only (h : Inv NBUF s a) (hb : Blocks NBUF s'.bufl s'.disk a')
    (hbufl : s'.bufl = Function.update s.bufl i x) (hpc : s'.pc = s.pc) (hcpu : s'.cpu = s.cpu)
    (hg : x.b_gate = (s.bufl i).b_gate) (ht : x.tag = (s.bufl i).tag)
    (ho : x.own = (s.bufl i).own) : Inv NBUF s' a' := by
  refine h.aside hb hpc hcpu (fun q j _ => ?_) (fun _ j => ?_) <;> rw [hbufl]
  · by_cases hji : j = i
    · subst hji; rw [Function.update_self, ho]
    · rw [Function.update_of_ne hji]
  · by_cases hji : j = i
    · subst hji
      rw [Function.update_self, hg]
      exact ⟨id, fun _ => ht⟩
    · rw [Function.update_of_ne hji]
      exact ⟨id, fun _ => rfl⟩

lemma transferred_read (hr : (s.bufl i).b_req = .BREAD) :
    transferred s i = s.put i { s.bufl i with
      drv := .moved, b_data := s.disk (s.bufl i).b_dev (s.bufl i).b_bno } := by
  simp only [transferred, hr]

lemma transferred_write (hw : (s.bufl i).b_req = .BWRITE) :
    transferred s i = { s.put i { s.bufl i with drv := .moved } with
      disk := at2 s.disk (s.bufl i).b_dev (s.bufl i).b_bno (s.bufl i).b_data } := by
  simp only [transferred, hw]

lemma Inv.transferred (h : Inv NBUF s a) (hi : i < NBUF) (hq : (s.bufl i).drv = .queued) :
    Inv NBUF (transferred s i) a := by
  cases hr : (s.bufl i).b_req with
  | BREAD =>
    rw [transferred_read hr]
    exact h.only (h.blocks.same hi rfl ((h.blocks.ok i hi).read hq hr)) rfl rfl rfl rfl rfl rfl
  | BWRITE =>
    obtain ⟨hd, hok⟩ := (h.blocks.ok i hi).written hq hr
    rw [transferred_write hr]
    refine h.only (x := { s.bufl i with drv := .moved }) ?_ rfl rfl rfl rfl rfl rfl
    refine h.blocks.set hi (fun _ j hj hji he => ?_) (fun dev bno _ hn => ?_) ?_
      (fun _ hne => absurd rfl hne)
    · exact hji (h.blocks.tags i hi j hj hd he.symm).symm
    · exact ⟨at2_off hn, rfl, rfl⟩
    · simpa using hok

/-! ### The callers -/

lemma Has.held (h : Inv NBUF s a) (hh : Has NBUF s p i) :
    Held (s.bufl i) (s.disk (s.bufl i).b_dev (s.bufl i).b_bno)
      (a.user (s.bufl i).b_dev (s.bufl i).b_bno) p :=
  (h.blocks.ok i hh.2.1).held hh.2.2

lemma Has.awake (hh : Has NBUF s p i) (q : Pid) : (s.bufl i).own.sleeper ≠ some q := by
  simp [hh.2.2, Own.sleeper]

/-- A caller changes its buffer, and what was left in the block if it gives the buffer back. -/
lemma Inv.caller (h : Inv NBUF s a) (hh : Has NBUF s p i)
    (hb : Blocks NBUF s'.bufl s'.disk a') (hbufl : s'.bufl = Function.update s.bufl i x)
    (hpc : s'.pc = s.pc) (hcpu : s'.cpu = s.cpu) : Inv NBUF s' a' := by
  refine h.aside hb hpc hcpu (fun q j hj => ?_) (fun hc => absurd hh.1.1 hc)
  rw [hbufl]
  exact own_update (hh.awake q) j hj

lemma Inv.store (h : Inv NBUF s a) (hh : Has NBUF s p i) (d : Data) :
    Inv NBUF (s.put i { s.bufl i with b_data := d, kept := false }) a := by
  have hx := hh.held h
  refine h.caller hh (h.blocks.same hh.2.1 rfl ?_) rfl rfl rfl
  unfold Slot.Ok
  simp only [hh.2.2]
  exact ⟨hx.gate, hx.drv, hx.err, hx.asy, hx.mod, hx.user, by simp⟩

lemma Inv.mark (h : Inv NBUF s a) (hh : Has NBUF s p i) (hd : (s.bufl i).b_dev ≠ NODEV) :
    Inv NBUF (s.put i { s.bufl i with b_mod := true }) a := by
  have hx := hh.held h
  refine h.caller hh (h.blocks.same hh.2.1 rfl ?_) rfl rfl rfl
  unfold Slot.Ok
  simp only [hh.2.2]
  exact ⟨hx.gate, hx.drv, hx.err, hx.asy, fun _ => hd, hx.user, by simp⟩

/-- The block is given back, unless the buffer is one of no device. -/
def backTo (a : Store Data) (dev : ℕ) (bno : ℤ) (d : Data) : Store Data :=
  if dev = NODEV then a else a.back dev bno d

lemma serves_left {dev : ℕ} {bno : ℤ} {d : Data} (h : dev ≠ NODEV → a.user dev bno = some p) :
    Serves a (note dev (.left p dev bno d)) (backTo a dev bno d) := by
  by_cases hd : dev = NODEV
  · simpa [note, backTo, hd] using Serves.none a
  · simpa [note, backTo, hd] using Serves.left (h hd)

lemma backTo_off {dev dev' : ℕ} {bno bno' : ℤ} {d : Data} (h : (dev, bno) ≠ (dev', bno')) :
    (backTo a dev bno d).view dev' bno' = a.view dev' bno' ∧
      (backTo a dev bno d).user dev' bno' = a.user dev' bno' := by
  unfold backTo
  split_ifs
  · exact ⟨rfl, rfl⟩
  · exact ⟨at2_off h, at2_off h⟩

lemma backTo_self (a : Store Data) {dev : ℕ} (h : dev ≠ NODEV) (bno : ℤ) (d : Data) :
    (backTo a dev bno d).view dev bno = d ∧ (backTo a dev bno d).user dev bno = none := by
  simp [backTo, h, Store.back]

lemma Inv.brelease (h : Inv NBUF s a) (hh : Has NBUF s p i)
    (hleft : (s.bufl i).b_dev = NODEV ∨ (s.bufl i).b_mod = true ∨ (s.bufl i).kept = true) :
    Inv NBUF (Bio.brelease s i) (backTo a (s.bufl i).b_dev (s.bufl i).b_bno (s.bufl i).b_data) := by
  have hx := hh.held h
  refine h.caller hh ?_ rfl rfl rfl
  refine h.blocks.event hh.2.1 (Slot.released_tag hx.err) (fun dev bno hn => backTo_off hn) ?_
  by_cases hd : (s.bufl i).b_dev = NODEV
  · have hno : ∀ {P : Prop}, (s.bufl i).b_dev ≠ NODEV → P := fun h => absurd hd h
    refine @Slot.Ok.of_nodev _ _ (s.bufl i).b_data (s.bufl i).b_data none _ _ _
      (Slot.released_ok hx.drv hx.err hx.asy hx.mod hno hno) ?_
    simpa [Slot.released, hx.err] using hd
  · obtain ⟨hv, hu⟩ := backTo_self a hd (s.bufl i).b_bno (s.bufl i).b_data
    rw [hv, hu]
    refine Slot.released_ok hx.drv hx.err hx.asy hx.mod (fun _ => rfl) (fun _ hm => ?_)
    have hk : (s.bufl i).kept = true := by
      rcases hleft with hl | hl | hl
      · exact absurd hl hd
      · simp [hm] at hl
      · exact hl
    exact hx.disk hd hm hk

lemma Inv.bwrite_wait (h : Inv NBUF s a) (hh : Has NBUF s p i) (hd : (s.bufl i).b_dev ≠ NODEV) :
    Inv NBUF ((s.put i { (s.bufl i).store true with own := .writing p }).go p
      (.writing i .caller)) a := by
  have hx := hh.held h
  refine h.go (Or.inl hh.1.1) (h.blocks.same hh.2.1 rfl ?_) rfl
    (fun q _ => own_update (hh.awake q)) ⟨hh.2.1, by simp⟩
  exact ⟨⟨hx.gate, rfl, hx.err, rfl, hd, by simp [Slot.store], by simp [Slot.store],
    by simp [Slot.store]⟩, hx.user hd⟩

lemma Inv.bwrite_leave (h : Inv NBUF s a) (hh : Has NBUF s p i)
    (hd : (s.bufl i).b_dev ≠ NODEV) :
    Inv NBUF (s.put i { (s.bufl i).store false with own := .driver })
      (a.back (s.bufl i).b_dev (s.bufl i).b_bno (s.bufl i).b_data) := by
  have hx := hh.held h
  refine h.caller hh (h.blocks.event hh.2.1 rfl (fun dev bno hn => ⟨at2_off hn, at2_off hn⟩) ?_)
    rfl rfl rfl
  exact ⟨hx.gate, rfl, hx.err, hd, by simp [Slot.store], by simp [Store.back],
    by simp [Slot.store], fun _ => ⟨by simp [Slot.store, Store.back], by simp [Slot.store]⟩⟩

/-! ### The steps -/

lemma Inv.syncLock (h : Inv NBUF s a) (hcpu : s.cpu = none ∨ s.cpu = some p) (hi : i < NBUF) :
    Inv NBUF (Bio.syncLock s p i) a := by
  unfold Bio.syncLock
  by_cases hg : (s.bufl i).b_gate = true
  · simp only [hg, if_true]
    exact h.go hcpu h.blocks rfl (fun _ _ _ _ => rfl) hi
  have hg : (s.bufl i).b_gate = false := by simpa using hg
  have hown := (h.blocks.ok i hi).nobody hg
  have hf := (h.blocks.ok i hi).free hown
  simp only [hg, Bool.false_eq_true, if_false]
  split_ifs with hm
  · have hd := hf.mod hm
    refine h.go hcpu (h.blocks.same hi rfl ?_) rfl
      (fun q _ => own_update (by simp [hown, Own.sleeper])) ⟨hi, by simp⟩
    exact ⟨⟨rfl, rfl, hf.err, rfl, hd, by simp [Slot.store], by simp [Slot.store],
      by simp [Slot.store]⟩, hf.user hd, hf.data hd⟩
  · exact h.go hcpu h.blocks rfl (fun _ _ _ _ => rfl) trivial

lemma Inv.flushLock (h : Inv NBUF s a) (hcpu : s.cpu = none ∨ s.cpu = some p) (hi : i < NBUF)
    (dev : ℕ) : Inv NBUF (Bio.flushLock s p dev i) a := by
  unfold Bio.flushLock
  by_cases hg : (s.bufl i).b_gate = true
  · simp only [hg, if_true]
    exact h.go hcpu h.blocks rfl (fun _ _ _ _ => rfl) hi
  have hg : (s.bufl i).b_gate = false := by simpa using hg
  have hown := (h.blocks.ok i hi).nobody hg
  have hf := (h.blocks.ok i hi).free hown
  have hne : ∀ q, (s.bufl i).own.sleeper ≠ some q := by simp [hown, Own.sleeper]
  simp only [hg, Bool.false_eq_true, if_false]
  split_ifs with hdev hm
  · have hd := hf.mod hm
    refine h.go hcpu (h.blocks.same hi rfl ?_) rfl (fun q _ => own_update (hne q)) ⟨hi, by simp⟩
    exact ⟨⟨rfl, rfl, hf.err, rfl, hd, by simp [Slot.store], by simp [Slot.store],
      by simp [Slot.store]⟩, hf.user hd, hf.data hd⟩
  · refine h.go hcpu (h.blocks.drop hi rfl (fun dk vw us => ?_) fun hd => ?_) rfl
      (fun q _ => own_update (hne q)) trivial
    · unfold Slot.Ok
      simp only [hown]
      exact ⟨rfl, hf.drv, hf.ntp, hf.err, hf.asy, fun hm' => absurd hm' hm, by simp, by simp,
        by simp⟩
    · rw [hf.disk hd (by simpa using hm), hf.data hd]
      exact ⟨rfl, hf.user hd⟩
  · exact h.go hcpu h.blocks rfl (fun _ _ _ _ => rfl) trivial

/-- `bread` goes on when its block is there. -/
lemma Inv.reading (h : Inv NBUF s a) (hcpu : s.cpu = none ∨ s.cpu = some p) (hi : i < NBUF)
    (hown : (s.bufl i).own = .reading p) (hn : (s.bufl i).b_ntp = false) :
    (s.bufl i).b_err = true ∧ Inv NBUF ((Bio.brelease s i).go p .out) a ∨
      (s.bufl i).b_err = false ∧ ∃ a',
        Serves a (note (s.bufl i).b_dev
          (.got p (s.bufl i).b_dev (s.bufl i).b_bno (s.bufl i).b_data)) a' ∧
        Inv NBUF ((s.put i { s.bufl i with own := .caller p, kept := true }).go p .out) a' := by
  have hx := (h.blocks.ok i hi).reading hown
  have hidle : (s.bufl i).drv = .idle := by
    by_contra hd
    simp [hx.ntp.mpr hd] at hn
  have hothers : ∀ q, q ≠ p → (s.bufl i).own.sleeper ≠ some q := by
    intro q hq
    rw [hown]
    exact fun he => hq (Option.some.inj he).symm
  by_cases he : (s.bufl i).b_err = true
  · refine Or.inl ⟨he, ?_⟩
    have hdev := (hx.err he).2
    refine h.go hcpu ?_ rfl (fun q hq => own_update (hothers q hq)) trivial
    refine h.blocks.drop hi (by simp [Slot.released, he]) (fun dk vw us => ?_)
      (fun hd => absurd hdev hd)
    simp only [Slot.released, he, Bool.true_eq_false, if_false]
    exact ⟨rfl, hidle, rfl, rfl, hx.asy, by simp [hx.mod], by simp, by simp, by simp⟩
  · have he : (s.bufl i).b_err = false := by simpa using he
    have hd := hx.dev he
    refine Or.inr ⟨he, lendTo a p (s.bufl i).b_dev (s.bufl i).b_bno, serves_got fun _ => ?_, ?_⟩
    · exact ⟨hx.user hd, (hx.data hd (by simp [hidle])).trans (hx.disk hd)⟩
    · refine h.go hcpu ?_ rfl (fun q hq => own_update (hothers q hq)) trivial
      refine h.blocks.event hi rfl (fun dev bno hn => lendTo_off hn) ?_
      exact ⟨hx.gate, hidle, he, hx.asy, by simp [hx.mod], fun _ => lendTo_user hd,
        fun _ _ _ => (hx.data hd (by simp [hidle])).symm⟩

/-- `bwrite` goes on when its block is written. -/
lemma Inv.writing (h : Inv NBUF s a) (hcpu : s.cpu = none ∨ s.cpu = some p) {k : After}
    (hat : At NBUF s.bufl p (.writing i k)) (hn : (s.bufl i).b_ntp = false) :
    Inv NBUF (written s p i k) a := by
  have hidle : ∀ {dk}, Writing (s.bufl i) dk → (s.bufl i).drv = .idle := by
    intro dk hx
    by_contra hd
    simp [hx.ntp.mpr hd] at hn
  cases k with
  | caller =>
    obtain ⟨hi, hown⟩ := hat
    obtain ⟨hx, hu⟩ := (h.blocks.ok i hi).writing hown
    refine h.go hcpu (h.blocks.same hi rfl ?_) rfl (fun q hq => own_update ?_) trivial
    · exact ⟨hx.gate, hidle hx, hx.err, hx.asy, fun _ => hx.dev, fun _ => hu,
        fun _ _ _ => hx.disk (by simp [hidle hx])⟩
    · rw [hown]
      exact fun he => hq (Option.some.inj he).symm
  | sync =>
    obtain ⟨hi, hown⟩ := hat
    obtain ⟨hx, hu, hv⟩ := (h.blocks.ok i hi).cleaning hown
    refine h.go hcpu (h.blocks.same hi rfl ?_) rfl (fun q hq => own_update ?_) trivial
    · exact ⟨rfl, hidle hx, hn, hx.err, hx.asy, fun _ => hx.dev, fun _ => hu, fun _ => hv,
        fun _ _ => hx.disk (by simp [hidle hx])⟩
    · rw [hown]
      exact fun he => hq (Option.some.inj he).symm
  | flush dev =>
    obtain ⟨hi, hown⟩ := hat
    obtain ⟨hx, hu, hv⟩ := (h.blocks.ok i hi).cleaning hown
    refine h.go hcpu (h.blocks.drop hi rfl (fun dk vw us => ?_) fun _ => ?_) rfl
      (fun q hq => own_update ?_) trivial
    · exact ⟨rfl, hidle hx, hn, hx.err, hx.asy, by simp [hx.mod (hidle hx)], by simp, by simp,
        by simp⟩
    · exact ⟨(hx.disk (by simp [hidle hx])).trans hv, hu⟩
    · rw [hown]
      exact fun he => hq (Option.some.inj he).symm

lemma whenOpen_some {α : Type*} {r t : α} (h : whenOpen s i r = some t) : r = t := by
  unfold whenOpen at h
  split_ifs at h
  exact Option.some.inj h

/-- What a process does next. -/
lemma Inv.turn (h : Inv NBUF s a) (hcpu : s.cpu = none ∨ s.cpu = some p)
    {r : Cache Data × Option (Event Data)} (ht : turn NBUF s p = some r) :
    ∃ a', Serves a r.2 a' ∧ Inv NBUF r.1 a' := by
  have hat := h.pcs p
  unfold Bio.turn at ht
  have hon : ∀ {l : Pc}, At NBUF s.bufl p l → ∃ a', Serves a none a' ∧ Inv NBUF (s.go p l) a' :=
    fun hl => ⟨a, .none a, h.go hcpu h.blocks rfl (fun _ _ _ _ => rfl) hl⟩
  cases hpc : s.pc p with
  | out => simp [hpc] at ht
  | scan c i bp1 seqn =>
    rw [hpc] at hat
    simp only [hpc, Option.some.injEq] at ht
    subst ht
    exact h.scanTurn hcpu hat
  | lockTag c i =>
    rw [hpc] at hat
    simp only [hpc] at ht
    obtain rfl := whenOpen_some ht
    exact h.tagLock hcpu hat.2 hat.1
  | need c =>
    rw [hpc] at hat
    simp only [hpc, Option.some.injEq] at ht
    subst ht
    exact ⟨a, .none a, h.again hcpu hat⟩
  | lockVictim c i => rw [hpc] at hat; exact hat.elim
  | reading i =>
    rw [hpc] at hat
    simp only [hpc] at ht
    by_cases hn : (s.bufl i).b_ntp = true
    · simp [hn] at ht
    rcases h.reading hcpu hat.1 hat.2 (by simpa using hn) with ⟨he, hi⟩ | ⟨he, a', hs, hi⟩
    · simp only [hn, he, if_true, Bool.false_eq_true, if_false, Option.some.injEq] at ht
      subst ht
      exact ⟨a, .none a, hi⟩
    · simp only [hn, he, Bool.false_eq_true, if_false, Option.some.injEq] at ht
      subst ht
      exact ⟨a', hs, hi⟩
  | writing i k =>
    rw [hpc] at hat
    simp only [hpc] at ht
    by_cases hn : (s.bufl i).b_ntp = true
    · simp [hn] at ht
    simp only [hn, Bool.false_eq_true, if_false, Option.some.injEq] at ht
    subst ht
    exact ⟨a, .none a, h.writing hcpu hat (by simpa using hn)⟩
  | sync i =>
    simp only [hpc] at ht
    split_ifs at ht with hi hm <;> obtain rfl := Option.some.inj ht
    · exact ⟨a, .none a, h.syncLock hcpu hi⟩
    · exact hon trivial
    · exact hon trivial
  | lockSync i =>
    rw [hpc] at hat
    simp only [hpc] at ht
    obtain rfl := whenOpen_some ht
    exact ⟨a, .none a, h.syncLock hcpu hat⟩
  | flush dev i =>
    simp only [hpc] at ht
    split_ifs at ht with hi hd <;> obtain rfl := Option.some.inj ht
    · exact ⟨a, .none a, h.flushLock hcpu hi dev⟩
    · exact hon trivial
    · exact hon trivial
  | lockFlush dev i =>
    rw [hpc] at hat
    simp only [hpc] at ht
    obtain rfl := whenOpen_some ht
    exact ⟨a, .none a, h.flushLock hcpu hat dev⟩

/-- **One step** of the cache is a step of the blocks it serves. -/
lemma Inv.exec (h : Inv NBUF s a) {o : Op Data} {r : Cache Data × Option (Event Data)}
    (he : exec NBUF s o = some r) : ∃ a', Serves a r.2 a' ∧ Inv NBUF r.1 a' := by
  have hon : ∀ {p : Pid} {l : Pc}, Ready s p → At NBUF s.bufl p l →
      ∃ a', Serves a none a' ∧ Inv NBUF (s.go p l) a' := fun hr hl =>
    ⟨a, .none a, h.go (Or.inl hr.1) h.blocks rfl (fun _ _ _ _ => rfl) hl⟩
  cases o with
  | call p c =>
    simp only [Bio.exec] at he
    split_ifs at he with hc
    obtain rfl := Option.some.inj he
    exact hon hc.1 (again_at hc.2)
  | bsync p =>
    simp only [Bio.exec] at he
    split_ifs at he with hc
    obtain rfl := Option.some.inj he
    exact hon hc trivial
  | bflush p dev =>
    simp only [Bio.exec] at he
    split_ifs at he with hc
    obtain rfl := Option.some.inj he
    exact hon hc.1 trivial
  | turn p =>
    simp only [Bio.exec] at he
    split_ifs at he with hc
    exact h.turn hc he
  | store p i d =>
    simp only [Bio.exec] at he
    split_ifs at he with hc
    obtain rfl := Option.some.inj he
    exact ⟨a, .none a, h.store hc d⟩
  | mark p i =>
    simp only [Bio.exec] at he
    split_ifs at he with hc
    obtain rfl := Option.some.inj he
    exact ⟨a, .none a, h.mark hc.1 hc.2⟩
  | brelease p i =>
    simp only [Bio.exec] at he
    split_ifs at he with hc
    obtain rfl := Option.some.inj he
    exact ⟨_, serves_left (Has.held h hc.1).user, h.brelease hc.1 hc.2⟩
  | bwrite p i f =>
    simp only [Bio.exec] at he
    split_ifs at he with hc hf <;> obtain rfl := Option.some.inj he
    · exact ⟨a, .none a, h.bwrite_wait hc.1 hc.2⟩
    · exact ⟨_, .left ((Has.held h hc.1).user hc.2), h.bwrite_leave hc.1 hc.2⟩
  | transfer i =>
    simp only [Bio.exec] at he
    split_ifs at he with hc
    obtain rfl := Option.some.inj he
    exact ⟨a, .none a, h.transferred hc.1 hc.2⟩
  | bdone i =>
    simp only [Bio.exec] at he
    split_ifs at he with hc
    obtain rfl := Option.some.inj he
    exact ⟨a, .none a, h.bdone hc.1 hc.2⟩
  | fail i d =>
    simp only [Bio.exec] at he
    split_ifs at he with hc
    obtain rfl := Option.some.inj he
    exact ⟨a, .none a, h.fail hc.1 hc.2.1 hc.2.2 d⟩

/-- The blocks as they are on the disk, and in nobody's hands. -/
def Store.of (disk : ℕ → ℤ → Data) : Store Data := ⟨disk, fun _ _ => none⟩

lemma Booted.inv (h : Booted NBUF s) : Inv NBUF s (Store.of s.disk) where
  blocks :=
    { tags := fun i hi _ _ hd => absurd (h.dev i hi) hd
      ok := fun i hi => by
        obtain ⟨hn, he, hm, ha⟩ := h.flags i hi
        have hno : ∀ {P : Prop}, (s.bufl i).b_dev ≠ NODEV → P := fun hd => absurd (h.dev i hi) hd
        unfold Slot.Ok
        simp only [(h.drv i hi).2]
        exact ⟨h.gate i hi, (h.drv i hi).1, hn, he, ha, by simp [hm], hno, hno, hno⟩
      miss := fun _ _ _ _ => ⟨rfl, rfl⟩ }
  pcs p := by rw [h.pc p]; trivial
  cpu p ha := by simp [h.pc p, Pc.active] at ha

/-- Every run of the cache is a run of the blocks. -/
lemma Inv.run {es : List (Option (Event Data))} (h : Inv NBUF s a)
    (hr : Run (Step NBUF) s es s') : ∃ a', Run Serves a es a' ∧ Inv NBUF s' a' := by
  refine hr.forward (R := Inv NBUF) (fun s e t a h hst => ?_) h
  obtain ⟨o, ho⟩ := hst
  obtain ⟨a', hs, hi⟩ := h.exec ho
  exact ⟨a', hs, hi⟩

/-- What was left in a block that nobody has is in its buffer, or on the disk, where it is unless
a buffer with the block is marked as modified or waits to be written. -/
lemma Blocks.saved (h : Blocks NBUF bufl disk a) {dev : ℕ} {bno : ℤ} (hd : dev ≠ NODEV)
    (hu : a.user dev bno = none) :
    disk dev bno = a.view dev bno ∨
      ∃ i < NBUF, (bufl i).tag = (dev, bno) ∧ (bufl i).b_data = a.view dev bno ∧
        ((bufl i).b_mod = true ∨ (bufl i).drv ≠ .idle) := by
  by_cases hin : ∃ i < NBUF, (bufl i).tag = (dev, bno)
  swap
  · exact Or.inl (h.miss dev bno hd fun i hi ht => hin ⟨i, hi, ht⟩).1
  obtain ⟨i, hi, ht⟩ := hin
  obtain ⟨rfl, rfl⟩ := tag_eq.mp ht
  have hok := h.ok i hi
  cases ho : (bufl i).own with
  | nobody =>
    have hx := hok.free ho
    by_cases hm : (bufl i).b_mod = true
    · exact Or.inr ⟨i, hi, rfl, hx.data hd, Or.inl hm⟩
    · exact Or.inl ((hx.disk hd (by simpa using hm)).trans (hx.data hd))
  | caller p =>
    have := (hok.held ho).user hd
    simp [hu] at this
  | reading p => exact Or.inl ((hok.reading ho).disk hd)
  | writing p =>
    have := (hok.writing ho).2
    simp [hu] at this
  | cleaning p =>
    obtain ⟨hw, -, hv⟩ := hok.cleaning ho
    by_cases hq : (bufl i).drv = .queued
    · exact Or.inr ⟨i, hi, rfl, hv, Or.inr (by simp [hq])⟩
    · exact Or.inl ((hw.disk hq).trans hv)
  | driver =>
    have hx := hok.driven ho
    cases hr : (bufl i).b_req with
    | BREAD => exact Or.inl (hx.read hr).2.1
    | BWRITE => exact Or.inr ⟨i, hi, rfl, (hx.write hr).1, Or.inr hx.drv⟩

/-- **The buffer cache serves blocks.** In every run, with interrupts wherever they may come, what
the callers see of the cache is what they would see of blocks that are lent to one of them at a
time and come as they were left last; no two buffers ever have one block; and what was left in a
block is on the disk, or in a buffer that is going to be written. -/
theorem buffer_cache {es : List (Option (Event Data))} (hb : Booted NBUF s)
    (hr : Run (Step NBUF) s es s') :
    ∃ a, Run Serves (Store.of s.disk) es a ∧
      (∀ i < NBUF, ∀ j < NBUF, (s'.bufl i).b_dev ≠ NODEV →
        (s'.bufl i).tag = (s'.bufl j).tag → i = j) ∧
      ∀ dev bno, dev ≠ NODEV → a.user dev bno = none →
        s'.disk dev bno = a.view dev bno ∨
          ∃ i < NBUF, (s'.bufl i).tag = (dev, bno) ∧ (s'.bufl i).b_data = a.view dev bno ∧
            ((s'.bufl i).b_mod = true ∨ (s'.bufl i).drv ≠ .idle) := by
  obtain ⟨a, ha, hi⟩ := hb.inv.run hr
  exact ⟨a, ha, hi.blocks.tags, fun dev bno hd hu => hi.blocks.saved hd hu⟩

lemma run_play {os : List (Op Data)} {es : List (Option (Event Data))}
    (h : play NBUF s os = some (s', es)) : Run (Step NBUF) s es s' := by
  induction os generalizing s es with
  | nil =>
    simp only [play, Option.some.injEq, Prod.mk.injEq] at h
    obtain ⟨rfl, rfl⟩ := h
    exact .nil s
  | cons o os ih =>
    simp only [play, Option.bind_eq_bind, Option.bind_eq_some_iff, Option.pure_def,
      Option.some.injEq, Prod.mk.injEq, Prod.exists] at h
    obtain ⟨t, e, ho, u, es', hos, rfl, rfl⟩ := h
    exact .cons ⟨o, ho⟩ (ih hos)

/-- A cache with one buffer; the disk has the number of each block in it. -/
def oneBuffer : Cache ℤ where
  bufl _ := ⟨⟨false, false, false, false, false, NODEV, 0, .BREAD, 0, 0⟩, .idle, .nobody, false⟩
  bufseqn := 0
  disk _ bno := bno
  pc _ := .out
  cpu := none

lemma oneBuffer_booted : Booted 1 oneBuffer :=
  ⟨fun _ _ => rfl, fun _ _ => ⟨rfl, rfl, rfl, rfl⟩, fun _ _ => rfl, fun _ _ => ⟨rfl, rfl⟩,
    fun _ => rfl, rfl⟩

/-- One process reads a block and changes it; another one, whose block pushes it out, and then the
first again, which finds what it has left. -/
def twoBlocks : List (Op ℤ) :=
  [.call 1 ⟨.read, 3, 7⟩, .turn 1, .turn 1, .transfer 0, .bdone 0, .turn 1, .store 1 0 70,
    .mark 1 0, .brelease 1 0, .call 2 ⟨.read, 3, 8⟩, .turn 2, .turn 2, .turn 2, .turn 2, .transfer 0, .bdone 0,
    .turn 2, .turn 2, .turn 2, .transfer 0, .bdone 0, .turn 2, .brelease 2 0,
    .call 1 ⟨.read, 3, 7⟩, .turn 1, .turn 1, .transfer 0, .bdone 0, .turn 1]

theorem buffer_cache_two_blocks : ∃ t es, play 1 oneBuffer twoBlocks = some (t, es) ∧
    es.reduceOption = [.got 1 3 7 7, .left 1 3 7 70, .got 2 3 8 8, .left 2 3 8 8, .got 1 3 7 70] ∧
    ∃ a, Run Serves (Store.of oneBuffer.disk) es a := by
  have hrun : (play 1 oneBuffer twoBlocks).map (fun r => r.2.reduceOption) =
      some [.got 1 3 7 7, .left 1 3 7 70, .got 2 3 8 8, .left 2 3 8 8, .got 1 3 7 70] := by
    decide
  obtain ⟨⟨t, es⟩, hp, he⟩ := Option.map_eq_some_iff.mp hrun
  obtain ⟨a, ha, -⟩ := buffer_cache oneBuffer_booted (run_play hp)
  exact ⟨t, es, hp, he, a, ha⟩

end Coherent.Bio
