import Mathlib.Tactic

/-!
The regular expressions of `grep`: `reparse`, and the matcher `e_exec` with its greedy loops.

A tree stands for the nodes: `r_next` links the parts that follow each other, and `NULL` matches
where it stands. A line lies in a memory that goes on behind its terminator; what is read behind
that memory stops the program. Characters are bytes, and those behind 127 are negative: what a
class answers for them lies outside of it.
-/

namespace Coherent.Grep

/-- The terminals, as `relex` finds them. -/
inductive Atom
  | BOL
  | EOL
  | ANY
  | CONC (c : UInt8)
  | DCONC (c : UInt8)
  | CCLASS (cc : UInt8 → Bool)
  | DCCLASS (cc : UInt8 → Bool)

/-- The postfix operators. -/
inductive Rep
  | CLOS
  | NECLOS
  | ZORO
  deriving DecidableEq, Repr

inductive RE
  | NULL
  | node (a : Atom) (r_next : RE)
  | OR (r_left r_right r_next : RE)
  | rep (op : Rep) (r_left r_next : RE)

/-! ### The parser -/

/-- The options, and what a class answers for the bytes behind 127. -/
structure Flags where
  redual : Bool
  refull : Bool
  high : UInt8 → Bool

/-- The operators, in the order of their numbers. -/
inductive Op
  | REEND
  | STEND
  | OR
  | LPAR
  | RPAR
  | rep (op : Rep)
  | CONC
  deriving DecidableEq, Repr

def repri : Op → ℕ
  | .REEND => 0
  | .STEND => 2
  | .OR => 3
  | .LPAR => 6
  | .RPAR => 1
  | .rep _ => 5
  | .CONC => 4

inductive Tok
  | op (op : Op)
  | term (a : Atom)

def NRE : ℕ := 100

def ch (c : Char) : UInt8 := c.toNat.toUInt8

def resyn : String := "Regular expression syntax error"

def reoflo : String := "Regular expression overflow"

/-- Bit `i` of a class is set for every `i` from `pc` to `c`. -/
def setRange (cc : UInt8 → Bool) (pc c : UInt8) : UInt8 → Bool := fun i =>
  cc i || decide (pc ≤ i ∧ i ≤ c)

/-- The loop of `cclass`, up to the closing bracket. Behind the text, and with bytes that have no
bit in the class, the code leaves what C defines. -/
def members (ec : UInt8) : UInt8 → (UInt8 → Bool) → List UInt8 →
    Option (Except String ((UInt8 → Bool) × List UInt8))
  | _, _, [] => none
  | pc, cc, c :: rest =>
    if c = ch ']' then some (.ok (cc, rest))
    else if c = ec then some (.error "Non-terminated character class")
    else if 127 < c then none
    else if c = ch '-' ∧ pc ≠ ec then
      match rest with
      | [] => none
      | c' :: rest' =>
        if c' = ch ']' then some (.ok (cc, rest'))
        else members ec ec (setRange cc pc c') rest'
    else members ec c (setRange cc c c) rest

/-- The class without or with the complement taken, which is that of all its bits. -/
def closed (F : Flags) (comp : Bool) (cc : UInt8 → Bool) : UInt8 → Bool := fun c =>
  if 127 < c then F.high c else cc c != comp

def cclass (F : Flags) (ec : UInt8) (text : List UInt8) :
    Option (Except String (Tok × List UInt8)) :=
  let comp := text.head? = some (ch '^')
  (members ec ec (fun _ => false) (if comp then text.tail else text)).map fun r =>
    r.map fun (cc, rest) =>
      (.term ((if F.redual then Atom.DCCLASS else Atom.CCLASS) (closed F comp cc)), rest)

def relex (F : Flags) (ec : UInt8) : List UInt8 → Option (Except String (Tok × List UInt8))
  | [] => none
  | c :: rest =>
    let plain c := Tok.term ((if F.redual then Atom.DCONC else Atom.CONC) c)
    let full t := if F.refull then t else plain c
    if c = ec then some (.ok (.op .REEND, rest))
    else if c = 255 ∨ c = ch '\n' then some (.error "Non-terminated regular expression")
    else if c = ch '[' then cclass F ec rest
    else if c = ch '^' then some (.ok (.term .BOL, rest))
    else if c = ch '$' then some (.ok (.term .EOL, rest))
    else if c = ch '(' then some (.ok (full (.op .LPAR), rest))
    else if c = ch ')' then some (.ok (full (.op .RPAR), rest))
    else if c = ch '.' then some (.ok (.term .ANY, rest))
    else if c = ch '|' then some (.ok (full (.op .OR), rest))
    else if c = ch '*' then some (.ok (.op (.rep .CLOS), rest))
    else if c = ch '?' then some (.ok (full (.op (.rep .ZORO)), rest))
    else if c = ch '+' then some (.ok (full (.op (.rep .NECLOS)), rest))
    else if c = ch '\\' then
      match rest with
      | [] => none
      | c' :: rest' => some (.ok (plain c', rest'))
    else some (.ok (plain c, rest))

/-- Hangs `right` behind the last of the nodes that follow each other. -/
def RE.link : RE → RE → RE
  | .NULL, right => right
  | .node a n, right => .node a (n.link right)
  | .OR l r n, right => .OR l r (n.link right)
  | .rep op l n, right => .rep op l (n.link right)

/-- The nodes on the stack, last one first. A missing left operand is written through `NULL`. -/
def rebuild : List RE → Op → Option (List RE)
  | right :: left :: rsp, .OR => some (.OR left right .NULL :: rsp)
  | left :: rsp, .rep op => some (.rep op left .NULL :: rsp)
  | right :: left :: rsp, .CONC =>
    match left with
    | .NULL => none
    | left => some (left.link right :: rsp)
  | _, _ => none

/-- How the inner loop of `reparse` is left. -/
inductive Left
  | ret (rep : RE)
  | brk (rsp : List RE) (osp : List (Op × ℕ))

/-- The inner loop of `reparse`. Each turn takes an operator from the stack but the last one, and
the one that pushes a postfix operator. -/
def reduce (op : Op) : ℕ → ℕ → List RE → List (Op × ℕ) → Option (Except String Left)
  | _, _, _, [] => none
  | 0, _, _, _ => none
  | turns + 1, pri, rsp, (op1, pri1) :: osp =>
    if pri > pri1 ∨ op = .CONC ∧ op1 = .CONC then
      if NRE - 1 ≤ osp.length then some (.error reoflo)
      else match op with
        | .rep _ => (rebuild rsp op).bind fun rsp =>
          reduce op turns (repri .REEND) rsp ((op1, pri1) :: osp)
        | .LPAR => some (.ok (.brk rsp ((op, repri .RPAR) :: (op1, pri1) :: osp)))
        | _ => some (.ok (.brk rsp ((op, pri) :: (op1, pri1) :: osp)))
    else match op1 with
      | .STEND =>
        if op = .REEND then rsp.head?.map fun rep => .ok (.ret rep)
        else some (.ok (.brk rsp ((op1, pri1) :: osp)))
      | .LPAR =>
        if op = .RPAR then some (.ok (.brk rsp osp)) else some (.error "Unbalanced parentheses")
      | _ => (rebuild rsp op1).bind fun rsp => reduce op turns pri rsp osp

/-- The outer loop of `reparse`, for so many tokens at most. -/
def tokens (F : Flags) (ec : UInt8) :
    ℕ → List UInt8 → List RE → List (Op × ℕ) → Bool → Option (Except String RE)
  | 0, _, _, _, _ => none
  | fuel + 1, text, rsp, osp, concflg =>
    let turn op text rsp osp concflg :=
      match reduce op (osp.length + 2) (repri op) rsp osp with
      | none => none
      | some (.error e) => some (.error e)
      | some (.ok (.ret rep)) => some (.ok rep)
      | some (.ok (.brk rsp osp)) => tokens F ec fuel text rsp osp concflg
    match relex F ec text with
    | none => none
    | some (.error e) => some (.error e)
    | some (.ok (.term a, text)) =>
      let rsp := .node a .NULL :: rsp
      if NRE - 1 ≤ rsp.length then some (.error reoflo)
      else if concflg then turn .CONC text rsp osp true
      else tokens F ec fuel text rsp osp true
    | some (.ok (.op .OR, text)) =>
      if concflg then turn .OR text rsp osp false else some (.error resyn)
    | some (.ok (.op (.rep op), text)) =>
      if concflg then turn (.rep op) text rsp osp true else some (.error resyn)
    | some (.ok (.op .LPAR, text)) =>
      turn .LPAR text rsp (if concflg then (.CONC, repri .CONC) :: osp else osp) false
    | some (.ok (.op op, text)) => turn op text rsp osp concflg

/-- The text has its terminator at its end. -/
def reparse (F : Flags) (ec : UInt8) (text : List UInt8) : Option (Except String RE) :=
  tokens F ec (text.length + 1) text [.NULL] [(.STEND, repri .STEND)] false

/-! ### The matcher -/

/-- How `e_exec` returns; `fault` is a read behind the memory. -/
inductive Result
  | fault
  | null
  | at (s : ℕ)
  deriving DecidableEq, Repr

def islower (c : UInt8) : Bool := ch 'a' ≤ c && c ≤ ch 'z'

def isupper (c : UInt8) : Bool := ch 'A' ≤ c && c ≤ ch 'Z'

def tolower (c : UInt8) : UInt8 := if isupper c then c + 32 else c

/-- Whether the terminal takes the character `c`. -/
def Atom.takes : Atom → UInt8 → Bool
  | .BOL, _ => false
  | .EOL, _ => false
  | .ANY, c => c != 0
  | .CONC k, c => c == k
  | .DCONC k, c => if islower k then tolower c == k else c == k
  | .CCLASS cc, c => cc c
  | .DCCLASS cc, c => cc (tolower c)

variable (mem : List UInt8) (sb : ℕ)

/-- The terminals of `e_exec`. -/
def Atom.exec (a : Atom) (s : ℕ) : Result :=
  match a with
  | .BOL => if s ≠ sb then .null else .at s
  | .EOL =>
    match mem[s]? with
    | none => .fault
    | some c => if c ≠ 0 then .null else .at s
  | a =>
    match mem[s]? with
    | none => .fault
    | some c => if a.takes c then .at (s + 1) else .null

/-- `while ((es = e_exec(rep->r_left, s)) != NULL) s = es;`, for so many turns at most. -/
def greedy (ex : ℕ → Option Result) : ℕ → ℕ → Option Result
  | 0, _ => none
  | turns + 1, s =>
    match ex s with
    | some (.at es) => greedy ex turns es
    | some .null => some (.at s)
    | r => r

/-- The first part of a postfix operator. -/
def Rep.take (op : Rep) (ex : ℕ → Option Result) (turns s : ℕ) : Option Result :=
  match op with
  | .ZORO =>
    match ex s with
    | some .null => some (.at s)
    | r => r
  | _ => greedy ex turns s

/-- Its second part, which gives back one character at a time: the rest is tried at the `n` places
from `lo` on, the last one first. -/
def giveback (ex : ℕ → Option Result) (lo : ℕ) : ℕ → Option Result
  | 0 => some .null
  | n + 1 =>
    match ex (lo + n) with
    | some .null => giveback ex lo n
    | r => r

/-- The first place that is tried; `NECLOS` wants to have matched. -/
def Rep.low (op : Rep) (ss : ℕ) : ℕ := if op = .NECLOS then ss + 1 else ss

/-- `e_exec`, with a bound on its calls and turns: `none` is to run out of it. -/
def e_exec : ℕ → RE → ℕ → Option Result
  | 0, _, _ => none
  | _ + 1, .NULL, s => some (.at s)
  | fuel + 1, .node a n, s =>
    match a.exec mem sb s with
    | .at t => e_exec fuel n t
    | r => some r
  | fuel + 1, .OR l r n, s =>
    match e_exec fuel l s with
    | some (.at t) => e_exec fuel n t
    | some .null =>
      match e_exec fuel r s with
      | some (.at t) => e_exec fuel n t
      | q => q
    | q => q
  | fuel + 1, .rep op l n, s =>
    match op.take (e_exec fuel l) fuel s with
    | some (.at t) => giveback (e_exec fuel n) (op.low s) (t + 1 - op.low s)
    | q => q

/-- `for (; *s!='\0'; s++)` of `reinterp`, which stops at a place from where the rest matches. -/
def scan (ex : ℕ → Option Result) : ℕ → ℕ → Option Result
  | 0, _ => some .fault
  | n + 1, s =>
    match mem[s]? with
    | none => some .fault
    | some c =>
      if c = 0 then some .null
      else match ex s with
        | some .null => scan ex n (s + 1)
        | r => r

def reinterp (fuel : ℕ) (rep : RE) : Option Result :=
  match rep with
  | .node .BOL n => e_exec mem sb fuel (.node .BOL n) sb
  | rep => scan mem (e_exec mem sb fuel rep) (mem.length + 1 - sb) sb

/-! ### What a call can do -/

variable {mem sb}

@[simp] lemma e_exec_zero (x : RE) (s : ℕ) : e_exec mem sb 0 x s = none := by
  simp [e_exec]

lemma exec_reach {a : Atom} {s t : ℕ} (h : a.exec mem sb s = .at t) :
    s ≤ t ∧ (s ≤ mem.length → t ≤ mem.length) := by
  have hread : ∀ c, mem[s]? = some c → s < mem.length := fun c hc =>
    (List.getElem?_eq_some_iff.mp hc).1
  cases a <;> simp only [Atom.exec] at h <;> split at h <;> first
    | (cases h; done)
    | (split at h <;> first
        | (cases h; done)
        | (cases h
           rename_i c hc _
           have hlt := hread c hc
           omega))
    | (cases h; omega)

lemma greedy_reach {ex : ℕ → Option Result} {len : ℕ}
    (hex : ∀ s t, ex s = some (.at t) → s ≤ t ∧ (s ≤ len → t ≤ len)) :
    ∀ {turns s t : ℕ}, greedy ex turns s = some (.at t) → s ≤ t ∧ (s ≤ len → t ≤ len)
  | 0, s, t, h => by simp [greedy] at h
  | turns + 1, s, t, h => by
    simp only [greedy] at h
    split at h
    · next es he =>
      obtain ⟨h1, h2⟩ := hex s es he
      obtain ⟨h3, h4⟩ := greedy_reach hex h
      exact ⟨h1.trans h3, fun hs => h4 (h2 hs)⟩
    · cases h
      exact ⟨le_rfl, id⟩
    · exact hex s t h

lemma take_reach {op : Rep} {ex : ℕ → Option Result} {len turns s t : ℕ}
    (hex : ∀ s t, ex s = some (.at t) → s ≤ t ∧ (s ≤ len → t ≤ len))
    (h : op.take ex turns s = some (.at t)) : s ≤ t ∧ (s ≤ len → t ≤ len) := by
  cases op with
  | ZORO =>
    simp only [Rep.take] at h
    split at h
    · cases h
      exact ⟨le_rfl, id⟩
    · exact hex s t h
  | CLOS => exact greedy_reach hex h
  | NECLOS => exact greedy_reach hex h

lemma giveback_from {ex : ℕ → Option Result} {lo : ℕ} :
    ∀ {n t : ℕ}, giveback ex lo n = some (.at t) → ∃ k < n, ex (lo + k) = some (.at t)
  | 0, t, h => by simp [giveback] at h
  | n + 1, t, h => by
    simp only [giveback] at h
    split at h
    · obtain ⟨k, hk, he⟩ := giveback_from h
      exact ⟨k, by omega, he⟩
    · exact ⟨n, by omega, h⟩

lemma low_ge (op : Rep) (s : ℕ) : s ≤ op.low s := by
  unfold Rep.low
  split <;> omega

/-- A match lies behind its beginning, and within the memory. -/
lemma e_exec_reach : ∀ {fuel : ℕ} {x : RE} {s t : ℕ}, e_exec mem sb fuel x s = some (.at t) →
    s ≤ t ∧ (s ≤ mem.length → t ≤ mem.length) := by
  intro fuel
  induction fuel with
  | zero => simp
  | succ fuel ih =>
    intro x s t h
    cases x with
    | NULL =>
      simp only [e_exec, Option.some.injEq, Result.at.injEq] at h
      omega
    | node a n =>
      simp only [e_exec] at h
      split at h
      · next t' ha =>
        obtain ⟨h1, h2⟩ := exec_reach ha
        obtain ⟨h3, h4⟩ := ih h
        exact ⟨h1.trans h3, fun hs => h4 (h2 hs)⟩
      · exact exec_reach (Option.some.inj h)
    | OR l r n =>
      simp only [e_exec] at h
      split at h
      · next t' hl =>
        obtain ⟨h1, h2⟩ := ih hl
        obtain ⟨h3, h4⟩ := ih h
        exact ⟨h1.trans h3, fun hs => h4 (h2 hs)⟩
      · split at h
        · next t' hr =>
          obtain ⟨h1, h2⟩ := ih hr
          obtain ⟨h3, h4⟩ := ih h
          exact ⟨h1.trans h3, fun hs => h4 (h2 hs)⟩
        · exact ih h
      · exact ih h
    | rep op l n =>
      simp only [e_exec] at h
      split at h
      · next t' ht =>
        obtain ⟨h1, h2⟩ := take_reach (fun _ _ => ih) ht
        obtain ⟨k, hk, he⟩ := giveback_from h
        obtain ⟨h3, h4⟩ := ih he
        have hlow := low_ge op s
        exact ⟨by omega, fun hs => h4 (by have := h2 hs; omega)⟩
      · exact take_reach (fun _ _ => ih) h

/-! ### More fuel -/

lemma greedy_mono {ex ex' : ℕ → Option Result} (hex : ∀ s r, ex s = some r → ex' s = some r) :
    ∀ {turns s r}, greedy ex turns s = some r → greedy ex' (turns + 1) s = some r
  | 0, s, r, h => by simp [greedy] at h
  | turns + 1, s, r, h => by
    rw [greedy] at h ⊢
    split at h
    · next es he =>
      rw [hex _ _ he]
      exact greedy_mono hex h
    · next he =>
      rw [hex _ _ he]
      exact h
    · next h1 h2 =>
      rw [hex _ _ h]
      cases r <;> simp_all

lemma take_mono {op : Rep} {ex ex' : ℕ → Option Result}
    (hex : ∀ s r, ex s = some r → ex' s = some r) {turns s : ℕ} {r : Result}
    (h : op.take ex turns s = some r) : op.take ex' (turns + 1) s = some r := by
  cases op with
  | ZORO =>
    simp only [Rep.take] at h ⊢
    split at h
    · next he =>
      rw [hex _ _ he]
      exact h
    · next he =>
      rw [hex _ _ h]
      cases r <;> simp_all
  | CLOS => exact greedy_mono hex h
  | NECLOS => exact greedy_mono hex h

lemma giveback_mono {ex ex' : ℕ → Option Result} (hex : ∀ s r, ex s = some r → ex' s = some r)
    {lo : ℕ} : ∀ {n r}, giveback ex lo n = some r → giveback ex' lo n = some r
  | 0, r, h => h
  | n + 1, r, h => by
    rw [giveback] at h ⊢
    split at h
    · next he =>
      rw [hex _ _ he]
      exact giveback_mono hex h
    · next he =>
      rw [hex _ _ h]
      cases r <;> simp_all

lemma e_exec_succ : ∀ {fuel : ℕ} {x : RE} {s : ℕ} {r : Result},
    e_exec mem sb fuel x s = some r → e_exec mem sb (fuel + 1) x s = some r := by
  intro fuel
  induction fuel with
  | zero => simp
  | succ fuel ih =>
    intro x s r h
    cases x with
    | NULL =>
      rw [e_exec] at h ⊢
      exact h
    | node a n =>
      rw [e_exec] at h ⊢
      split at h
      · exact ih h
      · exact h
    | OR l r' n =>
      rw [e_exec] at h ⊢
      split at h
      · next t hl =>
        rw [ih hl]
        exact ih h
      · next hl =>
        rw [ih hl]
        split at h
        · next t hr =>
          simp only [ih hr]
          exact ih h
        · next hr =>
          simp only [ih h]
          cases r <;> simp_all
      · next h1 h2 =>
        rw [ih h]
        cases r <;> simp_all
    | rep op l n =>
      rw [e_exec] at h ⊢
      split at h
      · next t ht =>
        rw [take_mono (fun _ _ => ih) ht]
        exact giveback_mono (fun _ _ => ih) h
      · next ht =>
        rw [take_mono (fun _ _ => ih) h]
        cases r <;> simp_all

lemma e_exec_mono {fuel fuel' : ℕ} (hle : fuel ≤ fuel') {x : RE} {s : ℕ} {r : Result}
    (h : e_exec mem sb fuel x s = some r) : e_exec mem sb fuel' x s = some r := by
  induction hle with
  | refl => exact h
  | step _ ih => exact e_exec_succ ih

lemma e_exec_det {fuel fuel' : ℕ} {x : RE} {s : ℕ} {r r' : Result}
    (h : e_exec mem sb fuel x s = some r) (h' : e_exec mem sb fuel' x s = some r') : r = r' := by
  rcases le_total fuel fuel' with hle | hle
  · exact Option.some.inj ((e_exec_mono hle h).symm.trans h')
  · exact Option.some.inj (h.symm.trans (e_exec_mono hle h'))

/-! ### Operands that use a character -/

/-- Nowhere in the memory of a line a match of `x` ends where it began. -/
def Consumes (x : RE) : Prop :=
  ∀ (mem : List UInt8), 0 ∈ mem → ∀ s ≤ mem.length, ∀ fuel,
    e_exec mem 0 fuel x s ≠ some (.at s)

/-- The operand of every `CLOS` and `NECLOS` uses a character. -/
def Progress : RE → Prop
  | .NULL => True
  | .node _ n => Progress n
  | .OR l r n => Progress l ∧ Progress r ∧ Progress n
  | .rep op l n => (op ≠ .ZORO → Consumes l) ∧ Progress l ∧ Progress n

/-- The nodes that `e_exec` is called with. -/
def parts : RE → List RE
  | .NULL => [.NULL]
  | .node a n => .node a n :: parts n
  | .OR l r n => .OR l r n :: parts l ++ parts r ++ parts n
  | .rep op l n => .rep op l n :: parts l ++ parts n

/-- On every line `reinterp` returns, and `e_exec` on every part from every place. -/
def Terminates (rep : RE) : Prop :=
  ∀ (mem : List UInt8), 0 ∈ mem →
    (∃ fuel, reinterp mem 0 fuel rep ≠ none) ∧
    ∀ x ∈ parts rep, ∀ s ≤ mem.length, ∃ fuel, e_exec mem 0 fuel x s ≠ none

lemma self_mem_parts (x : RE) : x ∈ parts x := by
  cases x <;> simp [parts]

lemma progress_of_mem {x y : RE} (h : Progress x) (hy : y ∈ parts x) : Progress y := by
  induction x with
  | NULL =>
    rw [parts, List.mem_singleton] at hy
    exact hy ▸ h
  | node a n ihn =>
    rw [parts, List.mem_cons] at hy
    rcases hy with rfl | hy
    · exact h
    · exact ihn h hy
  | OR l r n ihl ihr ihn =>
    simp only [parts, List.cons_append, List.mem_cons, List.mem_append] at hy
    obtain ⟨hl, hr, hn⟩ := id h
    rcases hy with rfl | (hy | hy) | hy
    · exact h
    · exact ihl hl hy
    · exact ihr hr hy
    · exact ihn hn hy
  | rep op l n ihl ihn =>
    simp only [parts, List.cons_append, List.mem_cons, List.mem_append] at hy
    obtain ⟨-, hl, hn⟩ := id h
    rcases hy with rfl | hy | hy
    · exact h
    · exact ihl hl hy
    · exact ihn hn hy

/-! ### With progress the loops end -/

/-- The measure of the greedy loop is what lies behind its place. -/
lemma greedy_ends {ex : ℕ → Option Result} {len : ℕ} (hex : ∀ s ≤ len, ex s ≠ none)
    (hgo : ∀ s ≤ len, ∀ t, ex s = some (.at t) → s < t ∧ t ≤ len) :
    ∀ {turns s : ℕ}, s ≤ len → len - s < turns → greedy ex turns s ≠ none
  | 0, s, _, h => by omega
  | turns + 1, s, hs, h => by
    rw [greedy]
    split
    · next t ht =>
      obtain ⟨h1, h2⟩ := hgo s hs t ht
      exact greedy_ends hex hgo h2 (by omega)
    · simp
    · exact hex s hs

lemma giveback_ends {ex : ℕ → Option Result} {lo : ℕ} :
    ∀ {n : ℕ}, (∀ k < n, ex (lo + k) ≠ none) → giveback ex lo n ≠ none
  | 0, _ => by simp [giveback]
  | n + 1, h => by
    rw [giveback]
    split
    · exact giveback_ends fun k hk => h k (by omega)
    · exact h n (by omega)

/-- So much fuel is enough for `x` at every place of the memory. -/
def Enough (mem : List UInt8) (x : RE) (enough : ℕ) : Prop :=
  ∀ fuel ≥ enough, ∀ s ≤ mem.length, e_exec mem 0 fuel x s ≠ none

lemma enough_of_progress {mem : List UInt8} (hmem : 0 ∈ mem) {x : RE} (h : Progress x) :
    ∃ enough, Enough mem x enough := by
  induction x with
  | NULL =>
    refine ⟨1, fun fuel hf s hs => ?_⟩
    obtain ⟨f, rfl⟩ := Nat.exists_eq_add_of_le' hf
    simp [e_exec]
  | node a n ihn =>
    obtain ⟨En, hn⟩ := ihn h
    refine ⟨En + 1, fun fuel hf s hs => ?_⟩
    obtain ⟨f, rfl⟩ := Nat.exists_eq_add_of_le' (le_trans (Nat.le_add_left 1 En) hf)
    rw [e_exec]
    split
    · next t ht => exact hn f (by omega) t ((exec_reach ht).2 hs)
    · simp
  | OR l r n ihl ihr ihn =>
    obtain ⟨El, hl⟩ := ihl h.1
    obtain ⟨Er, hr⟩ := ihr h.2.1
    obtain ⟨En, hn⟩ := ihn h.2.2
    refine ⟨max El (max Er En) + 1, fun fuel hf s hs => ?_⟩
    obtain ⟨f, rfl⟩ := Nat.exists_eq_add_of_le' (le_trans (Nat.le_add_left 1 _) hf)
    have hf' : El ≤ f ∧ Er ≤ f ∧ En ≤ f := by omega
    rw [e_exec]
    split
    · next t ht => exact hn f hf'.2.2 t ((e_exec_reach ht).2 hs)
    · split
      · next t ht => exact hn f hf'.2.2 t ((e_exec_reach ht).2 hs)
      · exact hr f hf'.2.1 s hs
    · exact hl f hf'.1 s hs
  | rep op l n ihl ihn =>
    obtain ⟨hop, hpl, hpn⟩ := h
    obtain ⟨El, hl⟩ := ihl hpl
    obtain ⟨En, hn⟩ := ihn hpn
    refine ⟨max El (max En (mem.length + 1)) + 1, fun fuel hf s hs => ?_⟩
    obtain ⟨f, rfl⟩ := Nat.exists_eq_add_of_le' (le_trans (Nat.le_add_left 1 _) hf)
    have hf' : El ≤ f ∧ En ≤ f ∧ mem.length < f := by omega
    have htake : op.take (e_exec mem 0 f l) f s ≠ none := by
      by_cases hz : op = .ZORO
      · subst hz
        rw [Rep.take]
        split
        · simp
        · exact hl f hf'.1 s hs
      · have hgo : ∀ s ≤ mem.length, ∀ t, e_exec mem 0 f l s = some (.at t) →
            s < t ∧ t ≤ mem.length := fun s hs t ht => by
          have hne : s ≠ t := fun he => hop hz mem hmem s hs f (he ▸ ht)
          have hreach := e_exec_reach ht
          exact ⟨by omega, hreach.2 hs⟩
        have hgreedy := greedy_ends (hl f hf'.1) hgo hs (by omega : mem.length - s < f)
        cases op <;> first | exact absurd rfl hz | exact hgreedy
    rw [e_exec]
    split
    · next t ht =>
      have hreach := (take_reach (fun _ _ => e_exec_reach) ht).2 hs
      exact giveback_ends fun k hk => hn f hf'.2.1 _ (by omega)
    · exact htake

lemma scan_ends {mem : List UInt8} {ex : ℕ → Option Result}
    (hex : ∀ s ≤ mem.length, ex s ≠ none) : ∀ {n s : ℕ}, scan mem ex n s ≠ none
  | 0, s => by simp [scan]
  | n + 1, s => by
    rw [scan]
    split
    · simp
    · next c hc =>
      have hs := (List.getElem?_eq_some_iff.mp hc).1
      split_ifs
      · simp
      · split
        · exact scan_ends hex
        · exact hex s hs.le

lemma terminates_of_progress {rep : RE} (h : Progress rep) : Terminates rep := by
  refine fun mem hmem => ⟨?_, fun x hx s hs => ?_⟩
  · obtain ⟨enough, he⟩ := enough_of_progress hmem h
    refine ⟨enough, ?_⟩
    have hex := he enough le_rfl
    unfold reinterp
    split
    · exact hex 0 (Nat.zero_le _)
    · exact scan_ends hex
  · obtain ⟨enough, he⟩ := enough_of_progress hmem (progress_of_mem h hx)
    exact ⟨enough, he enough le_rfl s hs⟩

/-! ### Without progress a loop goes on for ever -/

lemma greedy_loops {ex : ℕ → Option Result} {s : ℕ} (h : ∀ r, ex s = some r → r = .at s) :
    ∀ turns, greedy ex turns s = none
  | 0 => rfl
  | turns + 1 => by
    rw [greedy]
    split
    · next t ht =>
      obtain rfl := Result.at.inj (h _ ht)
      exact greedy_loops h turns
    · next hn => exact absurd (h _ hn) (by simp)
    · next h1 h2 =>
      cases hr : ex s with
      | none => rfl
      | some r => exact absurd (h r hr ▸ hr) (h1 s)

lemma rep_loops {mem : List UInt8} {op : Rep} {l n : RE} {s fuel : ℕ} (hop : op ≠ .ZORO)
    (h : e_exec mem 0 fuel l s = some (.at s)) (fuel' : ℕ) :
    e_exec mem 0 fuel' (.rep op l n) s = none := by
  cases fuel' with
  | zero => simp
  | succ f =>
    have hloop : op.take (e_exec mem 0 f l) f s = none := by
      have hgreedy := greedy_loops (fun r (hr : e_exec mem 0 f l s = some r) => e_exec_det hr h) f
      cases op <;> first | exact absurd rfl hop | exact hgreedy
    rw [e_exec, hloop]

lemma consumes_of_ends {op : Rep} {l n : RE} (hop : op ≠ .ZORO)
    (h : ∀ (mem : List UInt8), 0 ∈ mem → ∀ s ≤ mem.length,
      ∃ fuel, e_exec mem 0 fuel (.rep op l n) s ≠ none) : Consumes l := by
  intro mem hmem s hs fuel hl
  obtain ⟨fuel', hf⟩ := h mem hmem s hs
  exact hf (rep_loops hop hl fuel')

lemma progress_of_ends {x : RE} (h : ∀ y ∈ parts x, ∀ (mem : List UInt8), 0 ∈ mem →
    ∀ s ≤ mem.length, ∃ fuel, e_exec mem 0 fuel y s ≠ none) : Progress x := by
  induction x with
  | NULL => trivial
  | node a n ihn => exact ihn fun y hy => h y (by simp [parts, hy])
  | OR l r n ihl ihr ihn =>
    exact ⟨ihl fun y hy => h y (by simp [parts, hy]), ihr fun y hy => h y (by simp [parts, hy]),
      ihn fun y hy => h y (by simp [parts, hy])⟩
  | rep op l n ihl ihn =>
    exact ⟨fun hop => consumes_of_ends hop (h _ (self_mem_parts _)),
      ihl fun y hy => h y (by simp [parts, hy]), ihn fun y hy => h y (by simp [parts, hy])⟩

lemma terminates_iff_progress (rep : RE) : Terminates rep ↔ Progress rep :=
  ⟨fun h => progress_of_ends fun y hy mem hmem s hs => (h mem hmem).2 y hy s hs,
    terminates_of_progress⟩

end Coherent.Grep
