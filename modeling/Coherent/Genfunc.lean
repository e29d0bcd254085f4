import Mathlib.Tactic
import Mathlib.Data.List.DropRight

/-!
`genfunc` of the compiler's last pass, and what it uses of the object writer.

A branch starts as a one-word `JR`; where its label is out of reach it becomes a three-word `JP`,
the pass over the function is thrown away and made again. Each instruction gives the writer the
same bytes in every pass, so that an item stands for what `genins` emits for it. The flags
`i_long` only ever go up, which ends the loop, and in the pass that changes none of them every
branch that is still short has reached its label.
-/

namespace Coherent.Genfunc

/-! ### The object writer -/

/-- The word at `off` of the text references a symbol. -/
structure Fix where
  off : ℕ
  sp : ℕ
  addend : ℤ

/-- The text of the object, the symbol fixups, the frame-segment fixups and the long jumps. -/
structure Obj where
  text : List UInt8
  dot : ℤ
  fix : List Fix
  sfix : List ℕ
  jfix : List ℕ

/-- How a pass ends before its end: an internal error, a limit of the writer, or no turns left. -/
inductive Err
  | cbotch
  | cfatal
  | fuel

/-- The two bytes of a word. -/
def hib (w : ℕ) : UInt8 := UInt8.ofNat (w >>> 8)

def lob (w : ℕ) : UInt8 := UInt8.ofNat w

/-- A byte at the end of the text, which has room for 64 K. -/
def outab (b : UInt8) (o : Obj) : Except Err Obj :=
  if 65536 ≤ o.text.length then .error .cfatal
  else .ok { o with text := o.text ++ [b], dot := o.dot + 1 }

def outw (w : ℕ) (o : Obj) : Except Err Obj := do
  let o ← outab (hib w) o
  outab (lob w) o

/-- The word just written references a symbol. -/
def outfix (sp : ℕ) (addend : ℤ) (o : Obj) : Except Err Obj :=
  if 16384 ≤ o.fix.length then .error .cfatal
  else .ok { o with fix := o.fix ++ [⟨o.text.length - 2, sp, addend⟩] }

/-- The high byte of the word just written takes the stack segment. -/
def outfixss (o : Obj) : Except Err Obj :=
  if 4096 ≤ o.sfix.length then .error .cfatal
  else .ok { o with sfix := o.sfix ++ [o.text.length - 2] }

/-- What is emitted for an instruction: bytes, words, words with a symbol and words with a
frame segment. -/
inductive Out
  | byte (b : UInt8)
  | word (w : ℕ)
  | sym (w sp : ℕ) (addend : ℤ)
  | frame (w : ℕ)

def Out.emit : Out → Obj → Except Err Obj
  | .byte b, o => outab b o
  | .word w, o => outw w o
  | .sym w sp addend, o => do
    let o ← outw w o
    outfix sp addend o
  | .frame w, o => do
    let o ← outw w o
    outfixss o

/-- An instruction. -/
def genins (outs : List Out) (o : Obj) : Except Err Obj := outs.foldlM (fun o out => out.emit o) o

def outpatchb (off : ℕ) (b : UInt8) (o : Obj) : Obj := { o with text := o.text.set off b }

def outpatchw (off w : ℕ) (o : Obj) : Obj :=
  { o with text := (o.text.set off (hib w)).set (off + 1) (lob w) }

/-- The text is cut off at `off`, with the fixups of what stood behind. -/
def outrewind (off fixmark : ℕ) (o : Obj) : Obj :=
  { o with
    text := o.text.take off
    fix := o.fix.take fixmark
    sfix := o.sfix.rdropWhile (fun x => decide (off ≤ x)) }

/-- The word at `off` is an address in the text. -/
def outjptext (off textoff : ℕ) (o : Obj) : Except Err Obj :=
  if 4096 ≤ o.jfix.length then .error .cfatal
  else .ok { outpatchw off textoff o with jfix := o.jfix ++ [off] }

/-! ### The function -/

/-- An item of a function: `rel` holds the condition code of a branch. -/
inductive Ins
  | code (outs : List Out)
  | llabel (labno : ℕ)
  | jump (rel labno : ℕ)
  | other

/-- A branch: where it is, and its label. -/
structure Br where
  pc : ℕ
  labno : ℕ

/-- A pass over the function. `long` is `i_long` of its branches, by their number. -/
def walk (long : ℕ → Bool) : List Ins → Obj → List (ℕ × ℕ) → List Br →
    Except Err (Obj × List (ℕ × ℕ) × List Br)
  | [], o, labv, brv => .ok (o, labv, brv)
  | .code outs :: ins, o, labv, brv => do
    let o ← genins outs o
    walk long ins o labv brv
  | .llabel n :: ins, o, labv, brv =>
    if 256 ≤ labv.length then .error .cbotch
    else walk long ins o (labv ++ [(n, o.text.length)]) brv
  | .jump rel n :: ins, o, labv, brv =>
    if 256 ≤ brv.length then .error .cbotch
    else do
      let brv' := brv ++ [⟨o.text.length, n⟩]
      let cc := rel &&& 0xF
      if long brv.length then
        let o ← outw (0x5E00 ||| cc) o
        let o ← outw 0x8000 o
        let o ← outw 0 o
        walk long ins o labv brv'
      else
        let o ← outw (0xE000 ||| cc <<< 8) o
        walk long ins o labv brv'
  | .other :: ins, o, labv, brv => walk long ins o labv brv

/-- The address of a label. -/
def find (labv : List (ℕ × ℕ)) (n : ℕ) : Option ℕ := (labv.find? (·.1 = n)).map (·.2)

/-- The displacement of a branch, in words, as an `int`. -/
def disp (pc tgt : ℕ) : ℤ := Int.bmod (((tgt : ℤ) - (pc + 2)).tdiv 2) 65536

/-- Promote the short branches that are out of reach. -/
def promote (labv : List (ℕ × ℕ)) : List Br → ℕ → (ℕ → Bool) → Bool →
    Except Err ((ℕ → Bool) × Bool)
  | [], _, long, grew => .ok (long, grew)
  | br :: brv, i, long, grew =>
    if long i then promote labv brv (i + 1) long grew
    else
      match find labv br.labno with
      | none => .error .cbotch
      | some tgt =>
        if disp br.pc tgt < -128 ∨ 127 < disp br.pc tgt then
          promote labv brv (i + 1) (Function.update long i true) true
        else promote labv brv (i + 1) long grew

/-- Passes until none of the branches is promoted. -/
def passes (body : List Ins) (fstart : ℕ) (fdot : ℤ) (fmark : ℕ) : ℕ → Obj → (ℕ → Bool) →
    Except Err (Obj × List (ℕ × ℕ) × List Br × (ℕ → Bool))
  | 0, _, _ => .error .fuel
  | fuel + 1, o, long => do
    let (o, labv, brv) ← walk long body o [] []
    let (long, grew) ← promote labv brv 0 long false
    if grew then
      passes body fstart fdot fmark fuel { outrewind fstart fmark o with dot := fdot } long
    else .ok (o, labv, brv, long)

/-- Fill in the displacements and the addresses. -/
def patch (labv : List (ℕ × ℕ)) (long : ℕ → Bool) : List Br → ℕ → Obj → Except Err Obj
  | [], _, o => .ok o
  | br :: brv, i, o =>
    match find labv br.labno with
    | none => .error .cbotch
    | some tgt =>
      if long i then do
        let o ← outjptext (br.pc + 4) tgt o
        patch labv long brv (i + 1) o
      else
        patch labv long brv (i + 1)
          (outpatchb (br.pc + 1) (UInt8.ofNat (disp br.pc tgt % 256).toNat) o)

/-- `genfunc`: the object and the flags of the branches. -/
def genfunc (fuel : ℕ) (body : List Ins) (o : Obj) (long : ℕ → Bool) :
    Except Err (Obj × (ℕ → Bool)) := do
  let (o, labv, brv, long) ← passes body o.text.length o.dot o.fix.length fuel o long
  let o ← patch labv long brv 0 o
  .ok (o, long)


/-! ### The layout -/

def Out.bytes : Out → List UInt8
  | .byte b => [b]
  | .word w => [hib w, lob w]
  | .sym w _ _ => [hib w, lob w]
  | .frame w => [hib w, lob w]

/-- A branch before its label is known. -/
def branch (long : Bool) (rel : ℕ) : List UInt8 :=
  if long then
    [hib (0x5E00 ||| rel &&& 0xF), lob (0x5E00 ||| rel &&& 0xF), hib 0x8000, lob 0x8000,
      hib 0, lob 0]
  else [hib (0xE000 ||| (rel &&& 0xF) <<< 8), lob (0xE000 ||| (rel &&& 0xF) <<< 8)]

/-- A branch to the address `tgt`. -/
def resolved (long : Bool) (rel pc tgt : ℕ) : List UInt8 :=
  if long then
    [hib (0x5E00 ||| rel &&& 0xF), lob (0x5E00 ||| rel &&& 0xF), hib 0x8000, lob 0x8000,
      hib tgt, lob tgt]
  else [hib (0xE000 ||| (rel &&& 0xF) <<< 8), UInt8.ofNat (disp pc tgt % 256).toNat]

/-- The bytes of a part of a function whose first branch is number `k`. -/
def raw (long : ℕ → Bool) : ℕ → List Ins → List UInt8
  | _, [] => []
  | k, .code outs :: ins => outs.flatMap Out.bytes ++ raw long k ins
  | k, .jump rel _ :: ins => branch (long k) rel ++ raw long (k + 1) ins
  | k, .llabel _ :: ins => raw long k ins
  | k, .other :: ins => raw long k ins

/-- The number of branches. -/
def jumps : List Ins → ℕ
  | [] => 0
  | .jump _ _ :: ins => jumps ins + 1
  | .code _ :: ins => jumps ins
  | .llabel _ :: ins => jumps ins
  | .other :: ins => jumps ins

/-- The number of labels. -/
def nlabels : List Ins → ℕ
  | [] => 0
  | .llabel _ :: ins => nlabels ins + 1
  | .code _ :: ins => nlabels ins
  | .jump _ _ :: ins => nlabels ins
  | .other :: ins => nlabels ins

/-- The labels of a part that starts at `pc`. -/
def labs (long : ℕ → Bool) : ℕ → ℕ → List Ins → List (ℕ × ℕ)
  | _, _, [] => []
  | k, pc, .code outs :: ins => labs long k (pc + (outs.flatMap Out.bytes).length) ins
  | k, pc, .jump rel _ :: ins => labs long (k + 1) (pc + (branch (long k) rel).length) ins
  | k, pc, .llabel n :: ins => (n, pc) :: labs long k pc ins
  | k, pc, .other :: ins => labs long k pc ins

/-- The branches of a part that starts at `pc`. -/
def brs (long : ℕ → Bool) : ℕ → ℕ → List Ins → List Br
  | _, _, [] => []
  | k, pc, .code outs :: ins => brs long k (pc + (outs.flatMap Out.bytes).length) ins
  | k, pc, .jump rel n :: ins =>
    ⟨pc, n⟩ :: brs long (k + 1) (pc + (branch (long k) rel).length) ins
  | k, pc, .llabel _ :: ins => brs long k pc ins
  | k, pc, .other :: ins => brs long k pc ins

/-- The bytes of a part with the labels resolved. -/
def assemble (labv : List (ℕ × ℕ)) (long : ℕ → Bool) : ℕ → ℕ → List Ins → List UInt8
  | _, _, [] => []
  | k, pc, .code outs :: ins =>
    outs.flatMap Out.bytes ++ assemble labv long k (pc + (outs.flatMap Out.bytes).length) ins
  | k, pc, .jump rel n :: ins =>
    resolved (long k) rel pc ((find labv n).getD 0) ++
      assemble labv long (k + 1) (pc + (branch (long k) rel).length) ins
  | k, pc, .llabel _ :: ins => assemble labv long k pc ins
  | k, pc, .other :: ins => assemble labv long k pc ins

/-! ### What the writer does -/

/-- A result that satisfies `P`, unless a limit of the writer is reached. -/
def Gives {α : Type} (r : Except Err α) (P : α → Prop) : Prop :=
  match r with
  | .ok a => P a
  | .error e => e = .cfatal

section
variable {α β : Type} {r : Except Err α} {P P' : α → Prop} {Q : β → Prop} {g : α → Except Err β}

lemma Gives.bind (h : Gives r P) (hg : ∀ a, P a → Gives (g a) Q) : Gives (r >>= g) Q := by
  cases r with
  | ok a => exact hg a h
  | error e => exact h

lemma Gives.mono (h : Gives r P) (hP : ∀ a, P a → P' a) : Gives r P' := by
  cases r with
  | ok a => exact hP a h
  | error e => exact h

end

/-- `o1` is `o` with the bytes `bs` and with fixups in them. -/
structure Extends (o : Obj) (bs : List UInt8) (o1 : Obj) : Prop where
  text : o1.text = o.text ++ bs
  dot : o1.dot = o.dot + bs.length
  fix : ∃ l, o1.fix = o.fix ++ l
  sfix : ∃ l, o1.sfix = o.sfix ++ l ∧ ∀ x ∈ l, o.text.length ≤ x ∧ x < o1.text.length
  jfix : o1.jfix = o.jfix
  room : o.text.length ≤ 65536 → o1.text.length ≤ 65536

variable {o o1 o2 : Obj} {bs cs : List UInt8} {long : ℕ → Bool} {labv : List (ℕ × ℕ)}
  {brv : List Br} {ins body : List Ins} {k pc n : ℕ}

lemma Extends.refl (o : Obj) : Extends o [] o :=
  ⟨by rw [List.append_nil], by simp, ⟨[], by rw [List.append_nil]⟩,
    ⟨[], by rw [List.append_nil], fun x hx => absurd hx List.not_mem_nil⟩, rfl, id⟩

lemma Extends.length (h : Extends o bs o1) : o1.text.length = o.text.length + bs.length := by
  rw [h.text, List.length_append]

lemma Extends.trans (h : Extends o bs o1) (h' : Extends o1 cs o2) :
    Extends o (bs ++ cs) o2 := by
  obtain ⟨l, hl⟩ := h.fix
  obtain ⟨l', hl'⟩ := h'.fix
  obtain ⟨s, hs, hs1⟩ := h.sfix
  obtain ⟨s', hs', hs1'⟩ := h'.sfix
  have hlen := h.length
  have hlen' := h'.length
  refine ⟨?_, ?_, ⟨l ++ l', ?_⟩, ⟨s ++ s', ?_, ?_⟩, h'.jfix.trans h.jfix, fun hr => ?_⟩
  · rw [h'.text, h.text, List.append_assoc]
  · rw [h'.dot, h.dot, List.length_append]
    push_cast
    ring
  · rw [hl', hl, List.append_assoc]
  · rw [hs', hs, List.append_assoc]
  · intro x hx
    rcases List.mem_append.mp hx with hx | hx
    · have := hs1 x hx
      omega
    · have := hs1' x hx
      omega
  · exact h'.room (h.room hr)

lemma outab_gives (b : UInt8) (o : Obj) : Gives (outab b o) (Extends o [b]) := by
  unfold outab
  by_cases h : 65536 ≤ o.text.length
  · rw [if_pos h]
    rfl
  · rw [if_neg h]
    refine ⟨rfl, by simp, ⟨[], by rw [List.append_nil]⟩,
      ⟨[], by rw [List.append_nil], fun x hx => absurd hx List.not_mem_nil⟩, rfl, fun _ => ?_⟩
    rw [List.length_append, List.length_singleton]
    omega

lemma outw_gives (w : ℕ) (o : Obj) : Gives (outw w o) (Extends o [hib w, lob w]) :=
  (outab_gives (hib w) o).bind fun _ h => (outab_gives (lob w) _).mono fun _ h' => h.trans h'

lemma emit_gives (out : Out) (o : Obj) : Gives (out.emit o) (Extends o out.bytes) := by
  cases out with
  | byte b => exact outab_gives b o
  | word w => exact outw_gives w o
  | sym w sp addend =>
    refine (outw_gives w o).bind fun o1 h => ?_
    unfold outfix
    by_cases hf : 16384 ≤ o1.fix.length
    · rw [if_pos hf]
      rfl
    · rw [if_neg hf]
      obtain ⟨l, hl⟩ := h.fix
      exact ⟨h.text, h.dot, ⟨l ++ [_], by rw [hl, List.append_assoc]⟩, h.sfix, h.jfix, h.room⟩
  | frame w =>
    refine (outw_gives w o).bind fun o1 h => ?_
    unfold outfixss
    by_cases hf : 4096 ≤ o1.sfix.length
    · rw [if_pos hf]
      rfl
    · rw [if_neg hf]
      obtain ⟨l, hl, hl1⟩ := h.sfix
      have hlen := h.length
      refine ⟨h.text, h.dot, h.fix, ⟨l ++ [o1.text.length - 2], ?_, ?_⟩, h.jfix, h.room⟩
      · rw [hl, List.append_assoc]
      · intro x hx
        rcases List.mem_append.mp hx with hx | hx
        · exact hl1 x hx
        · rw [List.mem_singleton.mp hx]
          simp only [List.length_cons, List.length_nil] at hlen
          dsimp only
          omega

lemma genins_gives (outs : List Out) (o : Obj) :
    Gives (genins outs o) (Extends o (outs.flatMap Out.bytes)) := by
  induction outs generalizing o with
  | nil => exact Extends.refl o
  | cons out outs ih =>
    rw [genins, List.foldlM_cons, List.flatMap_cons]
    exact (emit_gives out o).bind fun o1 h => (ih o1).mono fun o2 h' => h.trans h'

/-! ### A pass -/

lemma walk_gives (hlab : labv.length + nlabels ins ≤ 256) (hbr : brv.length + jumps ins ≤ 256) :
    Gives (walk long ins o labv brv) fun r =>
      r.2.1 = labv ++ labs long brv.length o.text.length ins ∧
        r.2.2 = brv ++ brs long brv.length o.text.length ins ∧
        Extends o (raw long brv.length ins) r.1 := by
  induction ins generalizing o labv brv with
  | nil => exact ⟨by rw [labs, List.append_nil], by rw [brs, List.append_nil], Extends.refl o⟩
  | cons i ins ih =>
    cases i with
    | code outs =>
      rw [walk]
      refine (genins_gives outs o).bind fun o1 h => ?_
      refine (ih hlab hbr).mono fun r hr => ?_
      rw [h.length] at hr
      exact ⟨hr.1, hr.2.1, h.trans hr.2.2⟩
    | llabel n =>
      rw [nlabels] at hlab
      rw [walk, if_neg (by omega)]
      refine (ih ?_ hbr).mono fun r hr => ⟨?_, hr.2.1, hr.2.2⟩
      · rw [List.length_append, List.length_singleton]
        omega
      · rw [hr.1, labs, List.append_assoc, List.singleton_append]
    | jump rel n =>
      rw [jumps] at hbr
      rw [walk, if_neg (by omega)]
      dsimp only
      set brv' := brv ++ [⟨o.text.length, n⟩] with hbrv'
      have hlen : brv'.length = brv.length + 1 := by
        rw [hbrv', List.length_append, List.length_singleton]
      have key : ∀ o1, Extends o (branch (long brv.length) rel) o1 →
          Gives (walk long ins o1 labv brv') fun r =>
            r.2.1 = labv ++ labs long brv.length o.text.length (.jump rel n :: ins) ∧
              r.2.2 = brv ++ brs long brv.length o.text.length (.jump rel n :: ins) ∧
              Extends o (raw long brv.length (.jump rel n :: ins)) r.1 := by
        intro o1 h
        refine (ih hlab (by omega)).mono fun r hr => ?_
        rw [h.length, hlen] at hr
        refine ⟨hr.1, ?_, h.trans hr.2.2⟩
        rw [hr.2.1, hbrv', brs, List.append_assoc, List.singleton_append]
      by_cases hl : long brv.length = true
      · rw [if_pos hl]
        refine (outw_gives _ o).bind fun o1 h1 => (outw_gives _ o1).bind fun o2 h2 =>
          (outw_gives _ o2).bind fun o3 h3 => key o3 ?_
        rw [branch, if_pos hl]
        exact (h1.trans h2).trans h3
      · rw [if_neg hl]
        refine (outw_gives _ o).bind fun o1 h1 => key o1 ?_
        rw [branch, if_neg hl]
        exact h1
    | other => exact ih hlab hbr

/-- The text has no more than 64 K, and the frame-segment fixups lie in it. -/
structure Obj.Ok (o : Obj) : Prop where
  room : o.text.length ≤ 65536
  frames : ∀ x ∈ o.sfix, x < o.text.length

lemma Extends.ok (h : Extends o bs o1) (ho : o.Ok) : o1.Ok := by
  obtain ⟨l, hl, hl1⟩ := h.sfix
  have hlen := h.length
  refine ⟨h.room ho.room, fun x hx => ?_⟩
  rw [hl] at hx
  rcases List.mem_append.mp hx with hx | hx
  · have := ho.frames x hx
    omega
  · exact (hl1 x hx).2

lemma rdropWhile_append {p : ℕ → Bool} {l s : List ℕ} (hl : ∀ x ∈ l, p x = false)
    (hs : ∀ x ∈ s, p x = true) : (l ++ s).rdropWhile p = l := by
  induction s using List.reverseRecOn with
  | nil =>
    rw [List.append_nil]
    rcases List.eq_nil_or_concat' l with rfl | ⟨l', x, rfl⟩
    · rfl
    · have hx : ¬p x = true := by
        rw [hl x (by simp)]
        decide
      rw [List.rdropWhile_concat_neg _ _ _ hx]
  | append_singleton s x ih =>
    rw [← List.append_assoc, List.rdropWhile_concat_pos _ _ _ (hs x (by simp))]
    exact ih fun y hy => hs y (List.mem_append_left _ hy)

/-- **Rewinding** brings back the object before the pass. -/
lemma Extends.rewind (h : Extends o bs o1) (ho : o.Ok) :
    { outrewind o.text.length o.fix.length o1 with dot := o.dot } = o := by
  obtain ⟨l, hl⟩ := h.fix
  obtain ⟨s, hs, hs1⟩ := h.sfix
  have h1 : o1.text.take o.text.length = o.text := by rw [h.text, List.take_left]
  have h2 : o1.fix.take o.fix.length = o.fix := by rw [hl, List.take_left]
  have h3 : o1.sfix.rdropWhile (fun x => decide (o.text.length ≤ x)) = o.sfix := by
    rw [hs]
    refine rdropWhile_append (fun x hx => ?_) fun x hx => ?_
    · exact decide_eq_false (not_le.mpr (ho.frames x hx))
    · exact decide_eq_true (hs1 x hx).1
  unfold outrewind
  rw [h1, h2, h3, h.jfix]

/-! ### Promotion -/

/-- What promoting does to the flags: only branches out of reach are promoted, and the flag
`grew` tells whether some were. -/
structure Promoted (labv : List (ℕ × ℕ)) (brv : List Br) (i : ℕ) (long long' : ℕ → Bool)
    (grew' : Bool) : Prop where
  mono : ∀ j, long j = true → long' j = true
  far : ∀ j, j < i ∨ i + brv.length ≤ j → long' j = long j
  some_grew : grew' = true → ∃ j, (i ≤ j ∧ j < i + brv.length) ∧ long j = false ∧ long' j = true
  none_grew : grew' = false → long' = long ∧ ∀ (j : ℕ) (br : Br), brv[j]? = some br →
    long (i + j) = false → ∃ tgt, find labv br.labno = some tgt ∧
      -128 ≤ disp br.pc tgt ∧ disp br.pc tgt ≤ 127

lemma promote_spec (hdef : ∀ br ∈ brv, ∃ tgt, find labv br.labno = some tgt) (i : ℕ)
    (long : ℕ → Bool) (grew : Bool) :
    ∃ long' g, promote labv brv i long grew = .ok (long', grew || g) ∧
      Promoted labv brv i long long' g := by
  induction brv generalizing i long grew with
  | nil =>
    refine ⟨long, false, by rw [promote, Bool.or_false], fun _ h => h, fun _ _ => rfl,
      fun h => absurd h (by decide), fun _ => ⟨rfl, fun j br h => ?_⟩⟩
    rw [List.getElem?_nil] at h
    cases h
  | cons br brv ih =>
    have ih := ih fun b hb => hdef b (List.mem_cons_of_mem _ hb)
    obtain ⟨tgt, htgt⟩ := hdef br (List.mem_cons_self ..)
    -- a branch that keeps its flag
    have keep : (long i = false → -128 ≤ disp br.pc tgt ∧ disp br.pc tgt ≤ 127) →
        ∀ long' g, Promoted labv brv (i + 1) long long' g →
          Promoted labv (br :: brv) i long long' g := by
      intro hin long' g h
      refine ⟨h.mono, fun j hj => h.far j (by rw [List.length_cons] at hj; omega), ?_, ?_⟩
      · intro hg
        obtain ⟨j, hj, h1, h2⟩ := h.some_grew hg
        exact ⟨j, by rw [List.length_cons]; omega, h1, h2⟩
      · intro hg
        obtain ⟨h1, h2⟩ := h.none_grew hg
        refine ⟨h1, fun j b hb hl => ?_⟩
        cases j with
        | zero =>
          cases hb
          exact ⟨tgt, htgt, hin hl⟩
        | succ j =>
          rw [List.getElem?_cons_succ] at hb
          exact h2 j b hb (by rw [← hl]; congr 1; omega)
    rw [promote]
    by_cases hl : long i = true
    · rw [if_pos hl]
      obtain ⟨long', g, h1, h2⟩ := ih (i + 1) long grew
      exact ⟨long', g, h1, keep (fun h => absurd (hl.symm.trans h) (by decide)) long' g h2⟩
    · rw [if_neg hl, htgt]
      dsimp only
      by_cases hd : disp br.pc tgt < -128 ∨ 127 < disp br.pc tgt
      · rw [if_pos hd]
        obtain ⟨long', g, h1, h2⟩ := ih (i + 1) (Function.update long i true) true
        have hmono : ∀ j, long j = true → long' j = true := by
          intro j hj
          refine h2.mono j ?_
          by_cases hji : j = i
          · rw [hji, Function.update_self]
          · rw [Function.update_of_ne hji, hj]
        have hi : long' i = true := h2.mono i (Function.update_self ..)
        refine ⟨long', true, by rw [h1, Bool.true_or, Bool.or_true], hmono, fun j hj => ?_,
          fun _ => ⟨i, by rw [List.length_cons]; omega, Bool.not_eq_true _ ▸ hl, hi⟩,
          fun h => absurd h (by decide)⟩
        rw [List.length_cons] at hj
        rw [h2.far j (by omega), Function.update_of_ne (by omega)]
      · rw [if_neg hd]
        obtain ⟨long', g, h1, h2⟩ := ih (i + 1) long grew
        exact ⟨long', g, h1, keep (fun _ => by omega) long' g h2⟩

/-- The number of short branches. -/
def short (n : ℕ) (long : ℕ → Bool) : ℕ := ((Finset.range n).filter fun j => long j = false).card

lemma short_le (n : ℕ) (long : ℕ → Bool) : short n long ≤ n :=
  (Finset.card_filter_le _ _).trans (Finset.card_range n).le

lemma Promoted.short_lt {long' : ℕ → Bool} (h : Promoted labv brv 0 long long' true) :
    short brv.length long' < short brv.length long := by
  obtain ⟨j, hj, h1, h2⟩ := h.some_grew rfl
  refine Finset.card_lt_card ⟨fun i hi => ?_, fun hsub => ?_⟩
  · rw [Finset.mem_filter] at hi ⊢
    refine ⟨hi.1, ?_⟩
    by_contra hl
    rw [Bool.not_eq_false] at hl
    rw [h.mono i hl] at hi
    exact absurd hi.2 (by decide)
  · have := hsub (Finset.mem_filter.mpr ⟨Finset.mem_range.mpr (by omega), h1⟩)
    rw [(Finset.mem_filter.mp this).2] at h2
    exact absurd h2 (by decide)

/-! ### Labels and branches of the layout -/

lemma brs_length (long : ℕ → Bool) (k pc : ℕ) (ins : List Ins) :
    (brs long k pc ins).length = jumps ins := by
  induction ins generalizing k pc with
  | nil => rfl
  | cons i ins ih =>
    cases i with
    | code outs => exact ih _ _
    | llabel n => exact ih _ _
    | jump rel n => rw [brs, jumps, List.length_cons, ih]
    | other => exact ih _ _

lemma mem_brs {br : Br} (h : br ∈ brs long k pc ins) : ∃ rel, .jump rel br.labno ∈ ins := by
  induction ins generalizing k pc with
  | nil => exact absurd h List.not_mem_nil
  | cons i ins ih =>
    have tail : (∃ rel, .jump rel br.labno ∈ ins) → ∃ rel, .jump rel br.labno ∈ i :: ins :=
      fun ⟨rel, hr⟩ => ⟨rel, List.mem_cons_of_mem _ hr⟩
    cases i with
    | code outs => exact tail (ih h)
    | llabel n => exact tail (ih h)
    | jump rel n =>
      rcases List.mem_cons.mp h with rfl | h
      · exact ⟨rel, List.mem_cons_self ..⟩
      · exact tail (ih h)
    | other => exact tail (ih h)

/-- A label that is defined is found at its address: that of its first definition. -/
lemma find_labs (long : ℕ → Bool) (k pc : ℕ) (h : .llabel n ∈ ins) :
    ∃ pre post, ins = pre ++ .llabel n :: post ∧ .llabel n ∉ pre ∧
      find (labs long k pc ins) n = some (pc + (raw long k pre).length) := by
  induction ins generalizing k pc with
  | nil => exact absurd h List.not_mem_nil
  | cons i ins ih =>
    by_cases hi : i = .llabel n
    · refine ⟨[], ins, by rw [hi]; rfl, List.not_mem_nil, ?_⟩
      rw [hi, labs, find, List.find?_cons_of_pos (by simp)]
      rfl
    · have hmem : .llabel n ∈ ins := (List.mem_cons.mp h).resolve_left (Ne.symm hi)
      have tail : ∀ pre : List Ins, .llabel n ∉ pre → .llabel n ∉ i :: pre :=
        fun pre hpre hin => (List.mem_cons.mp hin).elim (fun he => hi he.symm) hpre
      cases i with
      | code outs =>
        obtain ⟨pre, post, h1, h2, h3⟩ :=
          ih k (pc + (outs.flatMap Out.bytes).length) hmem
        refine ⟨.code outs :: pre, post, by rw [h1]; rfl, tail pre h2, ?_⟩
        rw [labs, h3, raw, List.length_append, Nat.add_assoc]
      | llabel m =>
        obtain ⟨pre, post, h1, h2, h3⟩ := ih k pc hmem
        refine ⟨.llabel m :: pre, post, by rw [h1]; rfl, tail pre h2, ?_⟩
        have hm : m ≠ n := fun he => hi (by rw [he])
        rw [labs, find, List.find?_cons_of_neg (by simpa using hm)]
        exact h3
      | jump rel m =>
        obtain ⟨pre, post, h1, h2, h3⟩ :=
          ih (k + 1) (pc + (branch (long k) rel).length) hmem
        refine ⟨.jump rel m :: pre, post, by rw [h1]; rfl, tail pre h2, ?_⟩
        rw [labs, h3, raw, List.length_append, Nat.add_assoc]
      | other =>
        obtain ⟨pre, post, h1, h2, h3⟩ := ih k pc hmem
        exact ⟨.other :: pre, post, by rw [h1]; rfl, tail pre h2, h3⟩

/-! ### The loop -/

/-- The body has no more labels and branches than the tables hold, and its branches name labels
that it defines. -/
structure WellFormed (body : List Ins) : Prop where
  labels : nlabels body ≤ 256
  branches : jumps body ≤ 256
  defined : ∀ rel n, .jump rel n ∈ body → .llabel n ∈ body

lemma walk_whole (hb : WellFormed body) (long : ℕ → Bool) (o : Obj) :
    Gives (walk long body o [] []) fun r =>
      r.2.1 = labs long 0 o.text.length body ∧ r.2.2 = brs long 0 o.text.length body ∧
        Extends o (raw long 0 body) r.1 :=
  walk_gives ((Nat.zero_add _).trans_le hb.labels) ((Nat.zero_add _).trans_le hb.branches)

/-- What the last pass leaves: it is one pass over the function from the object before, and no
short branch is out of reach. -/
structure Settled (body : List Ins) (o : Obj) (long0 : ℕ → Bool)
    (r : Obj × List (ℕ × ℕ) × List Br × (ℕ → Bool)) : Prop where
  one_pass : walk r.2.2.2 body o [] [] = .ok (r.1, r.2.1, r.2.2.1)
  mono : ∀ j, long0 j = true → r.2.2.2 j = true
  reach : ∀ (j : ℕ) (br : Br), r.2.2.1[j]? = some br → r.2.2.2 j = false →
    ∃ tgt, find r.2.1 br.labno = some tgt ∧ -128 ≤ disp br.pc tgt ∧ disp br.pc tgt ≤ 127

lemma passes_gives (hb : WellFormed body) (ho : o.Ok) {fuel : ℕ} {long long0 : ℕ → Bool}
    (hlong : ∀ j, long0 j = true → long j = true) (hf : short (jumps body) long < fuel) :
    Gives (passes body o.text.length o.dot o.fix.length fuel o long) (Settled body o long0) := by
  induction fuel generalizing long with
  | zero => omega
  | succ fuel ih =>
    rw [passes]
    have hwalk := walk_whole hb long o
    cases hw : walk long body o [] [] with
    | error e =>
      rw [hw] at hwalk
      exact hwalk
    | ok r =>
      obtain ⟨o1, labv, brv⟩ := r
      rw [hw] at hwalk
      obtain ⟨hlabv, hbrv, hext⟩ := hwalk
      dsimp only at hlabv hbrv hext
      have hlen : brv.length = jumps body := by rw [hbrv, brs_length]
      have hdef : ∀ br ∈ brv, ∃ tgt, find labv br.labno = some tgt := by
        intro br hbr
        rw [hbrv] at hbr
        obtain ⟨rel, hr⟩ := mem_brs hbr
        obtain ⟨pre, post, -, -, h⟩ :=
          find_labs long 0 o.text.length (hb.defined rel _ hr)
        exact ⟨_, by rw [hlabv, h]⟩
      obtain ⟨long', g, hp, hprom⟩ := promote_spec hdef 0 long false
      rw [Bool.false_or] at hp
      change Gives (do
        let (long, grew) ← promote labv brv 0 long false
        if grew then
          passes body o.text.length o.dot o.fix.length fuel
            { outrewind o.text.length o.fix.length o1 with dot := o.dot } long
        else .ok (o1, labv, brv, long)) (Settled body o long0)
      rw [hp]
      change Gives (if g = true then
          passes body o.text.length o.dot o.fix.length fuel
            { outrewind o.text.length o.fix.length o1 with dot := o.dot } long'
        else .ok (o1, labv, brv, long')) (Settled body o long0)
      cases g with
      | true =>
        rw [if_pos rfl, hext.rewind ho]
        refine ih (fun j hj => hprom.mono j (hlong j hj)) ?_
        have := hprom.short_lt
        rw [hlen] at this
        omega
      | false =>
        rw [if_neg (by decide)]
        obtain ⟨rfl, hreach⟩ := hprom.none_grew rfl
        refine ⟨hw, hlong, fun j br hbr hl => ?_⟩
        exact hreach j br hbr (by rw [Nat.zero_add]; exact hl)

/-! ### Patching -/

lemma resolved_length (l : Bool) (rel pc tgt : ℕ) :
    (resolved l rel pc tgt).length = (branch l rel).length := by
  cases l <;> rfl

lemma assemble_length (labv : List (ℕ × ℕ)) (long : ℕ → Bool) (k pc : ℕ) (ins : List Ins) :
    (assemble labv long k pc ins).length = (raw long k ins).length := by
  induction ins generalizing k pc with
  | nil => rfl
  | cons i ins ih =>
    cases i with
    | code outs => rw [assemble, raw, List.length_append, List.length_append, ih]
    | llabel n => exact ih _ _
    | jump rel n =>
      rw [assemble, raw, List.length_append, List.length_append, ih, resolved_length]
    | other => exact ih _ _

/-- The relocated words of the promoted branches. -/
def jwords (long : ℕ → Bool) : ℕ → List Br → List ℕ
  | _, [] => []
  | k, br :: brv => if long k then (br.pc + 4) :: jwords long (k + 1) brv
    else jwords long (k + 1) brv

lemma set_append (p l : List UInt8) (i : ℕ) (b : UInt8) :
    (p ++ l).set (p.length + i) b = p ++ l.set i b := by
  rw [List.set_append_right _ _ (Nat.le_add_right _ _), Nat.add_sub_cancel_left]

/-- A long branch gets the address of its label, a short one the displacement. -/
lemma patch_one (p rest : List UInt8) (l : Bool) (rel tgt : ℕ) :
    (if l then ((p ++ (branch l rel ++ rest)).set (p.length + 4) (hib tgt)).set (p.length + 4 + 1)
        (lob tgt)
      else (p ++ (branch l rel ++ rest)).set (p.length + 1)
        (UInt8.ofNat (disp p.length tgt % 256).toNat)) =
      p ++ (resolved l rel p.length tgt ++ rest) := by
  cases l with
  | true =>
    rw [if_pos rfl, Nat.add_assoc, set_append, set_append]
    rfl
  | false =>
    rw [if_neg (by decide), set_append]
    rfl

lemma patch_gives {p : List UInt8}
    (hdef : ∀ rel n, .jump rel n ∈ ins → ∃ tgt, find labv n = some tgt)
    (htext : o.text = p ++ raw long k ins) :
    Gives (patch labv long (brs long k p.length ins) k o) fun o' =>
      o'.text = p ++ assemble labv long k p.length ins ∧ o'.dot = o.dot ∧ o'.fix = o.fix ∧
        o'.sfix = o.sfix ∧ o'.jfix = o.jfix ++ jwords long k (brs long k p.length ins) := by
  induction ins generalizing o k p with
  | nil => exact ⟨htext, rfl, rfl, rfl, by rw [brs, jwords, List.append_nil]⟩
  | cons i ins ih =>
    have hdef' : ∀ rel n, .jump rel n ∈ ins → ∃ tgt, find labv n = some tgt :=
      fun rel n h => hdef rel n (List.mem_cons_of_mem _ h)
    cases i with
    | code outs =>
      rw [raw, ← List.append_assoc] at htext
      have := ih hdef' htext
      rw [List.length_append] at this
      rw [assemble, brs, ← List.append_assoc]
      exact this
    | llabel n => exact ih hdef' htext
    | jump rel n =>
      obtain ⟨tgt, htgt⟩ := hdef rel n (List.mem_cons_self ..)
      have hone := patch_one p (raw long (k + 1) ins) (long k) rel tgt
      rw [raw] at htext
      rw [assemble, brs, patch, htgt]
      dsimp only [Option.getD_some]
      -- the rest is patched behind the bytes of this branch
      have rest : ∀ o1 : Obj, o1.text = p ++ (resolved (long k) rel p.length tgt ++
            raw long (k + 1) ins) → o1.dot = o.dot → o1.fix = o.fix → o1.sfix = o.sfix →
          Gives (patch labv long (brs long (k + 1) (p.length + (branch (long k) rel).length) ins)
            (k + 1) o1) fun o' =>
            o'.text = p ++ (resolved (long k) rel p.length tgt ++ assemble labv long (k + 1)
              (p.length + (branch (long k) rel).length) ins) ∧ o'.dot = o.dot ∧ o'.fix = o.fix ∧
              o'.sfix = o.sfix ∧ o'.jfix = o1.jfix ++ jwords long (k + 1)
                (brs long (k + 1) (p.length + (branch (long k) rel).length) ins) := by
        intro o1 h1 h2 h3 h4
        rw [← List.append_assoc] at h1
        have := ih (k := k + 1) hdef' h1
        rw [List.length_append, resolved_length] at this
        refine this.mono fun o' h => ?_
        rw [← List.append_assoc]
        exact ⟨h.1, h.2.1.trans h2, h.2.2.1.trans h3, h.2.2.2.1.trans h4, h.2.2.2.2⟩
      by_cases hl : long k = true
      · rw [if_pos hl, jwords, if_pos hl]
        rw [if_pos hl] at hone
        unfold outjptext
        by_cases hj : 4096 ≤ o.jfix.length
        · rw [if_pos hj]
          rfl
        · rw [if_neg hj]
          refine (rest { outpatchw (p.length + 4) tgt o with jfix := o.jfix ++ [p.length + 4] }
            ?_ rfl rfl rfl).mono fun o' h => ?_
          · rw [← hone, ← htext]
            rfl
          · refine ⟨h.1, h.2.1, h.2.2.1, h.2.2.2.1, ?_⟩
            rw [h.2.2.2.2, List.append_assoc, List.singleton_append]
      · rw [if_neg hl, jwords, if_neg hl]
        rw [if_neg hl] at hone
        refine rest (outpatchb (p.length + 1) (UInt8.ofNat (disp p.length tgt % 256).toNat) o)
          ?_ rfl rfl rfl
        rw [← hone, ← htext]
        rfl
    | other => exact ih hdef' htext

/-! ### Where things are -/

lemma assemble_append (labv : List (ℕ × ℕ)) (long : ℕ → Bool) (k pc : ℕ) (pre post : List Ins) :
    assemble labv long k pc (pre ++ post) = assemble labv long k pc pre ++
      assemble labv long (k + jumps pre) (pc + (raw long k pre).length) post := by
  induction pre generalizing k pc with
  | nil => rfl
  | cons i pre ih =>
    cases i with
    | code outs =>
      rw [List.cons_append, assemble, ih, assemble, raw, List.length_append, Nat.add_assoc,
        List.append_assoc]
      rfl
    | llabel n => exact ih _ _
    | jump rel n =>
      rw [List.cons_append, assemble, ih, assemble, raw, List.length_append, jumps, Nat.add_assoc,
        Nat.add_assoc, Nat.add_comm 1, List.append_assoc]
    | other => exact ih _ _

lemma brs_append (long : ℕ → Bool) (k pc : ℕ) (pre post : List Ins) :
    brs long k pc (pre ++ post) =
      brs long k pc pre ++ brs long (k + jumps pre) (pc + (raw long k pre).length) post := by
  induction pre generalizing k pc with
  | nil => rfl
  | cons i pre ih =>
    cases i with
    | code outs =>
      rw [List.cons_append, brs, ih, brs, raw, List.length_append, Nat.add_assoc]
      rfl
    | llabel n => exact ih _ _
    | jump rel n =>
      rw [List.cons_append, brs, ih, brs, raw, List.length_append, jumps, Nat.add_assoc,
        Nat.add_assoc, Nat.add_comm 1, List.cons_append]
    | other => exact ih _ _

lemma jwords_append (long : ℕ → Bool) (k : ℕ) (l l' : List Br) :
    jwords long k (l ++ l') = jwords long k l ++ jwords long (k + l.length) l' := by
  induction l generalizing k with
  | nil => rfl
  | cons br l ih =>
    rw [List.cons_append, jwords, jwords, ih, List.length_cons, Nat.add_assoc, Nat.add_comm 1]
    by_cases h : long k = true
    · rw [if_pos h, if_pos h]
      rfl
    · rw [if_neg h, if_neg h]

lemma disp_eq {pc tgt : ℕ} (hpc : pc + 2 ≤ 65536) (htgt : tgt ≤ 65536) :
    disp pc tgt = ((tgt : ℤ) - (pc + 2)).tdiv 2 := by
  have h1 : ((tgt : ℤ) - (pc + 2)).tdiv 2 < 32768 := by
    rcases le_or_gt 0 ((tgt : ℤ) - (pc + 2)) with h | h
    · rw [Int.tdiv_eq_ediv_of_nonneg h]
      omega
    · have : ((tgt : ℤ) - (pc + 2)).tdiv 2 ≤ 0 := by
        rw [show (tgt : ℤ) - (pc + 2) = -(pc + 2 - tgt) by omega, Int.neg_tdiv,
          Int.tdiv_eq_ediv_of_nonneg (by omega)]
        omega
      omega
  have h2 : -32768 ≤ ((tgt : ℤ) - (pc + 2)).tdiv 2 := by
    rcases le_or_gt 0 ((tgt : ℤ) - (pc + 2)) with h | h
    · rw [Int.tdiv_eq_ediv_of_nonneg h]
      omega
    · rw [show (tgt : ℤ) - (pc + 2) = -(pc + 2 - tgt) by omega, Int.neg_tdiv,
        Int.tdiv_eq_ediv_of_nonneg (by omega)]
      omega
  exact Int.bmod_eq_of_le (by omega) (by omega)

/-- The address, in the layout with the flags `long`, of what stands behind `pre`. -/
def pcOf (o : Obj) (long : ℕ → Bool) (pre : List Ins) : ℕ :=
  o.text.length + (raw long 0 pre).length

/-- What `genfunc` has made of a branch with `pre` before it, whose label has `pre'` before it. -/
structure Placed (o : Obj) (long : ℕ → Bool) (o' : Obj) (pre pre' : List Ins) (rel : ℕ) :
    Prop where
  jr : long (jumps pre) = false →
    o'.text[pcOf o long pre]? = some (hib (0xE000 ||| (rel &&& 0xF) <<< 8)) ∧
    o'.text[pcOf o long pre + 1]? = some (UInt8.ofNat
      ((((pcOf o long pre' : ℤ) - (pcOf o long pre + 2)).tdiv 2) % 256).toNat) ∧
    -128 ≤ ((pcOf o long pre' : ℤ) - (pcOf o long pre + 2)).tdiv 2 ∧
    ((pcOf o long pre' : ℤ) - (pcOf o long pre + 2)).tdiv 2 ≤ 127
  jp : long (jumps pre) = true →
    o'.text[pcOf o long pre]? = some (hib (0x5E00 ||| rel &&& 0xF)) ∧
    o'.text[pcOf o long pre + 1]? = some (lob (0x5E00 ||| rel &&& 0xF)) ∧
    o'.text[pcOf o long pre + 4]? = some (hib (pcOf o long pre')) ∧
    o'.text[pcOf o long pre + 5]? = some (lob (pcOf o long pre')) ∧
    pcOf o long pre + 4 ∈ o'.jfix ∧
    (pcOf o long pre' < 65536 ∨ ∀ b, outab b o' = .error .cfatal)

/-- The object and the flags after `genfunc`. -/
structure Sized (body : List Ins) (o : Obj) (long0 : ℕ → Bool) (o' : Obj) (long : ℕ → Bool) :
    Prop where
  ok : o'.Ok
  mono : ∀ j, long0 j = true → long j = true
  /-- Everything but the patched bytes is that of one pass with the last flags. -/
  one_pass : ∃ o1 labv brv, walk long body o [] [] = .ok (o1, labv, brv) ∧
    o'.text.length = o1.text.length ∧ o'.fix = o1.fix ∧ o'.sfix = o1.sfix ∧ o'.dot = o1.dot
  length : o'.text.length = pcOf o long body
  kept : o'.text.take o.text.length = o.text
  code : ∀ pre outs post, body = pre ++ .code outs :: post →
    (o'.text.drop (pcOf o long pre)).take (outs.flatMap Out.bytes).length =
      outs.flatMap Out.bytes
  jump : ∀ pre rel n post, body = pre ++ .jump rel n :: post →
    ∃ pre' post', body = pre' ++ .llabel n :: post' ∧ .llabel n ∉ pre' ∧
      Placed o long o' pre pre' rel

lemma getElem?_part {p q r : List UInt8} {t : List UInt8} (h : t = p ++ (q ++ r)) {i : ℕ}
    (hi : i < q.length) : t[p.length + i]? = q[i]? := by
  rw [h, List.getElem?_append_right (Nat.le_add_right _ _), Nat.add_sub_cancel_left,
    List.getElem?_append_left hi]

/-- **Branch sizing.** Where every branch names a label of the function and the tables suffice,
`genfunc` comes to an end with every branch in its place, unless the writer's room is exhausted. -/
theorem genfunc_sized (body : List Ins) (o : Obj) (long0 : ℕ → Bool) (fuel : ℕ)
    (hb : WellFormed body) (ho : o.Ok) (hf : jumps body < fuel) :
    Gives (genfunc fuel body o long0) fun r => Sized body o long0 r.1 r.2 := by
  have hpass := passes_gives hb ho (fun (j : ℕ) (h : long0 j = true) => h)
    ((short_le (jumps body) long0).trans_lt hf)
  refine hpass.bind fun r hr => ?_
  obtain ⟨o1, labv, brv, long⟩ := r
  obtain ⟨hwalk, hmono, hreach⟩ := hr
  dsimp only at hwalk hmono hreach ⊢
  have hw := walk_whole hb long o
  rw [hwalk] at hw
  obtain ⟨hlabv, hbrv, hext⟩ := hw
  dsimp only at hlabv hbrv hext
  have hfind : ∀ rel n, .jump rel n ∈ body → ∃ pre' post', body = pre' ++ .llabel n :: post' ∧
      .llabel n ∉ pre' ∧ find labv n = some (pcOf o long pre') := by
    intro rel n h
    rw [hlabv]
    exact find_labs long 0 o.text.length (hb.defined rel n h)
  have hpatch := patch_gives
    (fun rel n h => let ⟨_, _, _, _, h⟩ := hfind rel n h; ⟨_, h⟩) hext.text
  rw [← hbrv] at hpatch
  refine hpatch.bind fun o' h => ?_
  obtain ⟨htext, hdot, hfix, hsfix, hjfix⟩ := h
  have hlen : o'.text.length = o1.text.length := by
    rw [htext, hext.text, List.length_append, List.length_append, assemble_length]
  have hok1 := hext.ok ho
  -- the bytes of an item, at its address
  have hat : ∀ pre i post, body = pre ++ i :: post → ∃ p, p.length = pcOf o long pre ∧
      o'.text = p ++ assemble labv long (jumps pre) (pcOf o long pre) (i :: post) := by
    intro pre i post hbody
    refine ⟨o.text ++ assemble labv long 0 o.text.length pre, ?_, ?_⟩
    · rw [List.length_append, assemble_length]
      rfl
    · rw [htext, hbody, assemble_append, ← List.append_assoc, Nat.zero_add]
      rfl
  change Sized body o long0 o' long
  refine ⟨⟨hlen ▸ hok1.room, fun x hx => ?_⟩, hmono,
    ⟨o1, labv, brv, hwalk, hlen, hfix, hsfix, hdot⟩, hlen.trans hext.length, ?_, ?_, ?_⟩
  · rw [hlen]
    exact hok1.frames x (hsfix ▸ hx)
  · rw [htext, List.take_left]
  · intro pre outs post hbody
    obtain ⟨p, hp, hpt⟩ := hat pre _ post hbody
    rw [hpt, ← hp, List.drop_left, assemble, List.take_left]
  · intro pre rel n post hbody
    have hmem : .jump rel n ∈ body := hbody ▸ List.mem_append_right _ (List.mem_cons_self ..)
    obtain ⟨pre', post', hbody', hfirst, htgt⟩ := hfind rel n hmem
    refine ⟨pre', post', hbody', hfirst, ?_⟩
    obtain ⟨p, hp, hpt⟩ := hat pre _ post hbody
    rw [assemble, htgt] at hpt
    dsimp only [Option.getD_some] at hpt
    have hbr : brv = brs long 0 o.text.length pre ++
        ⟨pcOf o long pre, n⟩ :: brs long (jumps pre + 1)
          (pcOf o long pre + (branch (long (jumps pre)) rel).length) post := by
      rw [hbrv, hbody, brs_append, Nat.zero_add]
      rfl
    have hnum : (brs long 0 o.text.length pre).length = jumps pre := brs_length ..
    have hbound : ∀ q q' : List Ins, body = q ++ q' → pcOf o long q ≤ 65536 := by
      intro q q' hq
      have h1 := hok1.room
      rw [← hlen, htext, hq, assemble_append, List.length_append, List.length_append,
        assemble_length] at h1
      unfold pcOf
      omega
    have hend : pcOf o long pre + (resolved (long (jumps pre)) rel (pcOf o long pre)
        (pcOf o long pre')).length ≤ 65536 := by
      have h1 := hok1.room
      rw [← hlen, hpt, List.length_append, List.length_append] at h1
      omega
    constructor
    · intro hl
      rw [hl] at hpt hend
      have hpc : pcOf o long pre + 2 ≤ 65536 := hend
      obtain ⟨tgt, h1, h2, h3⟩ := hreach (jumps pre) ⟨pcOf o long pre, n⟩
        (by rw [hbr, List.getElem?_append_right hnum.le, hnum, Nat.sub_self]; rfl) hl
      obtain rfl : tgt = pcOf o long pre' := Option.some.inj (h1.symm.trans htgt)
      rw [disp_eq hpc (hbound pre' _ hbody')] at h2 h3
      rw [resolved, disp_eq hpc (hbound pre' _ hbody')] at hpt
      refine ⟨?_, ?_, h2, h3⟩
      · exact hp ▸ getElem?_part hpt (show 0 < 2 by decide)
      · exact hp ▸ getElem?_part hpt (show 1 < 2 by decide)
    · intro hl
      rw [hl, resolved] at hpt
      refine ⟨?_, ?_, ?_, ?_, ?_, ?_⟩
      · exact hp ▸ getElem?_part hpt (show 0 < 6 by decide)
      · exact hp ▸ getElem?_part hpt (show 1 < 6 by decide)
      · exact hp ▸ getElem?_part hpt (show 4 < 6 by decide)
      · exact hp ▸ getElem?_part hpt (show 5 < 6 by decide)
      · rw [hjfix, hbr, jwords_append, hnum, Nat.zero_add, jwords, if_pos hl]
        exact List.mem_append_right _ (List.mem_append_right _ (List.mem_cons_self ..))
      · -- a label behind 64 K of text, where nothing more can be emitted
        by_cases hfull : pcOf o long pre' < 65536
        · exact Or.inl hfull
        · refine Or.inr fun b => if_pos ?_
          have hsum : o'.text.length = pcOf o long body := hlen.trans hext.length
          have := hbound pre' _ hbody'
          have hle : pcOf o long pre' ≤ pcOf o long body := by
            have h1 := htext
            rw [hbody', assemble_append] at h1
            have h2 := congrArg List.length h1
            rw [List.length_append, List.length_append, assemble_length] at h2
            unfold pcOf at hsum ⊢
            omega
          omega

/-! ### A function -/

/-- A loop of one branch back over `n` words. -/
def loop (n : ℕ) : List Ins :=
  [.llabel 1, .code (List.replicate n (.word 0x8D07)), .jump 8 1]

def empty : Obj := ⟨[], 0, [], [], []⟩

theorem genfunc_sized_loop :
    ∃ r, genfunc 2 (loop 3) empty (fun _ => false) = .ok r ∧
      Sized (loop 3) empty (fun _ => false) r.1 r.2 :=
  ⟨_, rfl, genfunc_sized (loop 3) empty (fun _ => false) 2
    ⟨by decide, by decide, fun rel n h => by simp_all [loop]⟩
    ⟨by decide, fun x hx => absurd hx List.not_mem_nil⟩ (by decide)⟩

end Coherent.Genfunc
