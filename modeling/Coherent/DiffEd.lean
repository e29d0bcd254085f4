import Coherent.Ed
import Mathlib.Data.List.GetD

/-!
The script that `diff -e` prints, and that the line editor turns one file into the other by it.

The lines that match are a table. Line numbers are printed in forward order and corrected by an
increment, so that each is right in the buffer as the script has left it. The numbers are
`unsigned`.
-/

namespace Coherent.Diff

open Coherent.Lib Coherent.Ed

def LSIZE : ℕ := 512

/-- What an `unsigned` holds. -/
def U (x : ℤ) : ℕ := (x % 65536).toNat

/-! ### Printing -/

def digit (d : ℕ) : Char := Char.ofNat (48 + d)

/-- An `unsigned` in decimal. -/
def dec (n : ℕ) : List Char := (Words.numeral 10 5 n).map digit

/-- What has been printed, the correction of line numbers, and whether lines of text are open. -/
structure Out where
  stdout : List Char
  incr : ℕ
  caflag : Bool

def Out.put (o : Out) (t : List Char) : Out := { o with stdout := o.stdout ++ t }

def prange (a b : ℕ) (o : Out) : Out :=
  let a := U (a + o.incr)
  let b := U (b + o.incr)
  o.put (if a = b then dec a else dec a ++ ',' :: dec b)

def change (f1 f2 t1 t2 : ℕ) (o : Out) : Out :=
  let o := (prange f1 f2 o).put ['c', '\n']
  { o with incr := U (o.incr + (t2 - t1 + f1 - f2)) }

def append (f t1 t2 : ℕ) (o : Out) : Out :=
  let f := U (f - 1)
  let o := (prange f f o).put ['a', '\n']
  { o with incr := U (o.incr + (t2 - t1 + 1)) }

def delete (f1 f2 : ℕ) (o : Out) : Out :=
  let o := (prange f1 f2 o).put ['d', '\n']
  { o with incr := U (o.incr - (f2 - f1 + 1)) }

/-- A dot is inserted as another character, and the lines go on behind it. -/
def tilde : List Char :=
  ['~', '\n', '.', '\n', 's', '/', '~', '/', '.', '/', '\n', 'a', '\n']

def text2 (line : List Char) (o : Out) : Out :=
  { o.put (if line = ['.', '\n'] then tilde else cstr line) with caflag := true }

def prend (o : Out) : Out := { (if o.caflag then o.put ['.', '\n'] else o) with caflag := false }

/-! ### The two files -/

/-- At most `n` characters of a line. -/
def fgets : ℕ → List Char → List Char × List Char
  | 0, p => ([], p)
  | _ + 1, [] => ([], [])
  | n + 1, c :: p =>
    if c = '\n' then ([c], p)
    else
      let (l, p) := fgets n p
      (c :: l, p)

/-- The numbers of the next lines, the lines, what is behind them, and the output. -/
structure St where
  i : ℕ
  j : ℕ
  line1 : List Char
  line2 : List Char
  fp1 : List Char
  fp2 : List Char
  out : Out

def St.next1 (s : St) : St :=
  let (l, p) := fgets (LSIZE - 1) s.fp1
  { s with
    i := s.i + 1
    line1 := l
    fp1 := p }

def St.next2 (s : St) : St :=
  let (l, p) := fgets (LSIZE - 1) s.fp2
  { s with
    j := s.j + 1
    line2 := l
    fp2 := p }

def St.skip1 : ℕ → St → St
  | 0, s => s
  | n + 1, s => St.skip1 n s.next1

def St.print2 : ℕ → St → St
  | 0, s => s
  | n + 1, s => St.print2 n (St.next2 { s with out := text2 s.line2 s.out })

/-- The first line from `k` on that matches, among `n` and the one behind them. -/
def scan (J : ℕ → ℕ) : ℕ → ℕ → ℕ
  | 0, k => k
  | n + 1, k => if J k = 0 then scan J n (k + 1) else k

/-- One pass of the loop. -/
def turn (J : ℕ → ℕ) (ln1 : ℕ) (s : St) : St :=
  if s.j = J s.i then
    let s :=
      if cstr s.line1 = cstr s.line2 then s
      else { s with out := prend (text2 s.line2 (change (U s.i) (U s.i) (U s.j) (U s.j) s.out)) }
    s.next1.next2
  else
    let k := scan J (ln1 + 1 - s.i) s.i
    let l := J k
    let out :=
      if s.i = k then append (U s.i) (U s.j) (U (l - 1)) s.out
      else if s.j = l then delete (U s.i) (U (k - 1)) s.out
      else change (U s.i) (U (k - 1)) (U s.j) (U (l - 1)) s.out
    let s := St.print2 (l - s.j) (St.skip1 (k - s.i) { s with out := out })
    { s with out := prend s.out }

def loop (J : ℕ → ℕ) (ln1 ln2 : ℕ) : ℕ → St → St
  | 0, s => s
  | n + 1, s => if s.i ≤ ln1 ∨ s.j ≤ ln2 then loop J ln1 ln2 n (turn J ln1 s) else s

/-- The table with its fence. -/
def fenced (J : ℕ → ℕ) (ln1 ln2 i : ℕ) : ℕ := if i = ln1 + 1 then ln2 + 1 else J i

/-- The script for two files of `ln1` and `ln2` lines. -/
def diff (J : ℕ → ℕ) (ln1 ln2 : ℕ) (fp1 fp2 : List Char) : List Char :=
  let (line1, fp1) := fgets (LSIZE - 1) fp1
  let (line2, fp2) := fgets (LSIZE - 1) fp2
  (loop (fenced J ln1 ln2) ln1 ln2 (ln1 + ln2)
    ⟨1, 1, line1, line2, fp1, fp2, ⟨[], 0, false⟩⟩).out.stdout

variable {J : ℕ → ℕ} {A B ls L x y z : List (List Char)} {l p q : List Char} {e : Buf}
  {a b n m t d i j k : ℕ} {o : Out} {s : St} {c : Char}

/-! ### Numbers -/

lemma digit_spec (hd : d < 10) : (digit d).isDigit = true ∧ ((digit d).toNat : ℤ) - 48 = d := by
  interval_cases d <;> decide

/-- Reading digits, no number on the way is larger than the last. -/
lemma foldl_int16 (ds : List ℕ) (hd : ∀ d ∈ ds, d < 10) (n : ℕ)
    (h : ds.foldl (fun v d => v * 10 + d) n ≤ 32767) :
    (ds.map digit).foldl (fun (v : ℤ) c => int16 (v * 10 + (c.toNat - 48))) n =
      (ds.foldl (fun v d => v * 10 + d) n : ℕ) := by
  induction ds generalizing n with
  | nil => rfl
  | cons d ds ih =>
    have hle : ∀ (ds : List ℕ) (n : ℕ), n ≤ ds.foldl (fun v d => v * 10 + d) n := by
      intro ds
      induction ds with
      | nil => simp
      | cons d ds ih => exact fun n => le_trans (show n ≤ n * 10 + d by omega) (ih _)
    rw [List.foldl_cons] at h
    have h1 := (hle ds (n * 10 + d)).trans h
    obtain ⟨-, h2⟩ := digit_spec (hd d (by simp))
    have h3 : int16 ((n : ℤ) * 10 + ((digit d).toNat - 48)) = ((n * 10 + d : ℕ) : ℤ) := by
      rw [h2]
      unfold int16
      push_cast
      omega
    rw [List.map_cons, List.foldl_cons, h3, List.foldl_cons]
    exact ih (fun x hx => hd x (by simp [hx])) _ h

/-- A line number reads back. -/
lemma number_dec (h : n ≤ 32767) : Number (dec n) n := by
  have hlt := Words.numeral_lt (b := 10) (k := 5) (n := n) (by decide)
  have hv := Words.value_numeral (b := 10) (k := 4) (n := n) (by omega)
  refine ⟨?_, ?_, ?_⟩
  · intro hnil
    have hl := Words.length_numeral (b := 10) (k := 4) (n := n) (by decide) (by omega)
    have := congrArg List.length hnil
    simp [dec, hl] at this
  · intro c hc
    obtain ⟨d, hd, rfl⟩ := List.mem_map.mp hc
    exact (digit_spec (hlt d hd)).1
  · have := foldl_int16 (Words.numeral 10 5 n) hlt 0 (by rw [hv]; exact h)
    rw [hv] at this
    exact this

/-- A range as it is printed reads back. -/
lemma range_prange (ha : a ≤ 32767) (hb : b ≤ 32767) (hc : c.isDigit = false)
    (hs : special c = false) (hcom : c ≠ ',') :
    range e ((if a = b then dec a else dec a ++ ',' :: dec b) ++ c :: p) =
      some ((a : ℤ), (b : ℤ), c :: p) := by
  split_ifs with h
  · rw [range_one (number_dec ha) hc hs hcom, ← h]
  · rw [List.append_assoc, List.cons_append, range_two (number_dec ha) (number_dec hb) hc hs]

/-! ### Lines of text -/

def text (L : List (List Char)) : List Char := L.flatMap (· ++ ['\n'])

lemma fgets_line (hl : '\n' ∉ l) (hn : l.length < n) :
    fgets n (l ++ '\n' :: p) = (l ++ ['\n'], p) := by
  induction l generalizing n with
  | nil =>
    cases n with
    | zero => omega
    | succ n => simp [fgets]
  | cons c l ih =>
    cases n with
    | zero => omega
    | succ n =>
      have hc : c ≠ '\n' := fun h => hl (by simp [h])
      rw [List.cons_append, fgets, if_neg hc,
        ih (fun h => hl (by simp [h])) (by simpa using hn)]
      rfl

lemma text_cons (l : List Char) (L : List (List Char)) : text (l :: L) = l ++ '\n' :: text L := by
  simp [text]

lemma fgets_text (hl : Line l) : fgets (LSIZE - 1) (text (l :: L)) = (l ++ ['\n'], text L) := by
  rw [text_cons]
  exact fgets_line hl.newline hl.short

/-- The text that is printed for lines. -/
def texts (ls : List (List Char)) : List Char :=
  ls.flatMap fun l => if l = ['.'] then tilde else l ++ ['\n']

/-- The space that the editor uses for a line: a dot is put there twice. -/
def use (l : List Char) : ℕ := if l = ['.'] then space ['~'] + space ['.'] else space l

def uses (ls : List (List Char)) : ℕ := (ls.map use).sum

lemma text2_eq (hl : Line l) (o : Out) :
    text2 (l ++ ['\n']) o = { o.put (texts [l]) with caflag := true } := by
  have h1 : (l ++ ['\n'] = ['.', '\n']) ↔ l = ['.'] := by
    constructor
    · intro h
      exact List.append_cancel_right (show l ++ ['\n'] = ['.'] ++ ['\n'] from h)
    · rintro rfl
      rfl
  have h2 : cstr (l ++ ['\n']) = l ++ ['\n'] :=
    cstr_eq (by simp only [List.mem_append, List.mem_singleton, not_or]; exact ⟨hl.nul, by decide⟩)
  unfold text2
  simp only [h1, h2, texts, List.flatMap_cons, List.flatMap_nil, List.append_nil]

/-! ### Text in the editor -/

lemma readtty_length {u : List Char} {e' : Buf} (h : readtty e u p = some (e', q)) :
    q.length ≤ p.length := by
  induction p generalizing e u with
  | nil =>
    rw [readtty] at h
    split_ifs at h
    · obtain ⟨-, rfl⟩ := Prod.mk.inj (Option.some.inj h)
      exact le_refl _
    · obtain ⟨_, -, h2⟩ := Option.map_eq_some_iff.mp h
      obtain ⟨-, rfl⟩ := Prod.mk.inj h2
      exact le_refl _
  | cons c p ih =>
    rw [readtty] at h
    split_ifs at h
    · obtain ⟨-, rfl⟩ := Prod.mk.inj (Option.some.inj h)
      simp
    · cases hi : Ed.insert e u with
      | none => simp [hi] at h
      | some e1 =>
        rw [hi] at h
        exact (ih h).trans (by simp)
    · exact (ih h).trans (by simp)
    · exact (ih h).trans (by simp)

/-- **Lines in the editor**: read as they are printed, they come behind the current line. A dot
takes another command, and the lines go on in a third. -/
lemma readtty_texts (hls : ∀ l ∈ ls, Line l) (ht : t + uses ls ≤ ULARGE / 2 * CLSIZE)
    (hr : x.length + ls.length + y.length + 2 < 16 * LNSIZE) :
    ∃ e' p', readtty (cursor x y t) [] (texts ls ++ '.' :: '\n' :: p) = some (e', p') ∧
      Executes e' p' (cursor (x ++ ls) y (t + uses ls)) p := by
  induction ls generalizing x t with
  | nil => exact ⟨_, _, readtty_dot, by simpa [uses] using Executes.refl _ _⟩
  | cons l ls ih =>
    have hl := hls l (by simp)
    have huses : uses (l :: ls) = use l + uses ls := by simp [uses]
    rw [huses] at ht ⊢
    rw [List.length_cons] at hr
    have ih := ih (x := x ++ [l]) (t := t + use l) (fun l' h => hls l' (by simp [h])) (by omega)
      (by rw [List.length_append, List.length_singleton]; omega)
    rw [List.append_assoc, List.singleton_append, Nat.add_assoc] at ih
    have hlen : (cursor x y t).line.length + 3 < 16 * LNSIZE := by simp [cursor]; omega
    by_cases hdot : l = ['.']
    · subst hdot
      have huse : use ['.'] = space ['~'] + space ['.'] := if_pos rfl
      rw [huse] at ht ih ⊢
      obtain ⟨e', p', h1, h2⟩ := ih
      have htext : texts (['.'] :: ls) ++ '.' :: '\n' :: p = ['~'] ++ '\n' :: ('.' :: '\n' ::
          ('s' :: '/' :: '~' :: '/' :: '.' :: '/' :: '\n' :: ('a' :: '\n' ::
            (texts ls ++ '.' :: '\n' :: p)))) := by simp [texts, tilde]
      have htilde : Line ['~'] := ⟨by decide, by decide, by decide⟩
      rw [htext, readtty_line htilde (by decide) ⟨by change t + _ ≤ _; omega, hlen⟩, readtty_dot]
      refine ⟨_, _, rfl, ?_⟩
      -- the character is made a dot
      refine (executes_command (command_tilde (by omega)) (by simp)).trans ?_
      rw [Nat.add_assoc]
      have hcmd := h1 ▸ command_here (x := x ++ [['.']]) (y := y)
        (t := t + (space ['~'] + space ['.'])) (p := texts ls ++ '.' :: '\n' :: p)
      have hle := readtty_length h1
      exact (executes_command hcmd (by rw [List.length_cons, List.length_cons]; omega)).trans h2
    · have huse : use l = space l := if_neg hdot
      rw [huse] at ht ih ⊢
      have htext : texts (l :: ls) ++ '.' :: '\n' :: p =
          l ++ '\n' :: (texts ls ++ '.' :: '\n' :: p) := by
        simp [texts, hdot]
      rw [htext, readtty_line hl hdot ⟨by change t + _ ≤ _; omega, hlen⟩]
      exact ih

/-! ### The files of the loop -/

/-- A file from its line `i` on, as the loop holds it. -/
def File (L : List (List Char)) (i : ℕ) (line fp : List Char) : Prop :=
  (line, fp) = fgets (LSIZE - 1) (text (L.drop (i - 1)))

lemma File.line {line fp : List Char} (h : File L i line fp) (hL : ∀ l ∈ L, Line l) (hi : 1 ≤ i)
    (hle : i ≤ L.length) : line = L.getD (i - 1) [] ++ ['\n'] ∧ fp = text (L.drop i) := by
  have hlt : i - 1 < L.length := by omega
  have hdrop : L.drop (i - 1) = L.getD (i - 1) [] :: L.drop i := by
    rw [List.drop_eq_getElem_cons hlt, List.getD_eq_getElem _ _ hlt, Nat.sub_add_cancel hi]
  have hmem : L.getD (i - 1) [] ∈ L := by
    rw [List.getD_eq_getElem _ _ hlt]
    exact List.getElem_mem hlt
  unfold File at h
  rw [hdrop, fgets_text (hL _ hmem)] at h
  exact Prod.mk.inj h

lemma next1_spec (hL : ∀ l ∈ L, Line l) (h : File L s.i s.line1 s.fp1) (hi : 1 ≤ s.i)
    (hle : s.i ≤ L.length) : File L s.next1.i s.next1.line1 s.next1.fp1 ∧ s.next1.i = s.i + 1 ∧
      s.next1.j = s.j ∧ s.next1.line2 = s.line2 ∧ s.next1.fp2 = s.fp2 ∧ s.next1.out = s.out := by
  obtain ⟨-, h2⟩ := h.line hL hi hle
  refine ⟨?_, rfl, rfl, rfl, rfl, rfl⟩
  unfold File St.next1
  rw [h2]
  rfl

lemma next2_spec (hL : ∀ l ∈ L, Line l) (h : File L s.j s.line2 s.fp2) (hj : 1 ≤ s.j)
    (hle : s.j ≤ L.length) : File L s.next2.j s.next2.line2 s.next2.fp2 ∧ s.next2.j = s.j + 1 ∧
      s.next2.i = s.i ∧ s.next2.line1 = s.line1 ∧ s.next2.fp1 = s.fp1 ∧ s.next2.out = s.out := by
  obtain ⟨-, h2⟩ := h.line hL hj hle
  refine ⟨?_, rfl, rfl, rfl, rfl, rfl⟩
  unfold File St.next2
  rw [h2]
  rfl

lemma skip1_spec (hL : ∀ l ∈ L, Line l) (h : File L s.i s.line1 s.fp1) (hi : 1 ≤ s.i)
    (hle : s.i + n ≤ L.length + 1) :
    File L (St.skip1 n s).i (St.skip1 n s).line1 (St.skip1 n s).fp1 ∧ (St.skip1 n s).i = s.i + n ∧
      (St.skip1 n s).j = s.j ∧ (St.skip1 n s).line2 = s.line2 ∧ (St.skip1 n s).fp2 = s.fp2 ∧
      (St.skip1 n s).out = s.out := by
  induction n generalizing s with
  | zero => exact ⟨h, rfl, rfl, rfl, rfl, rfl⟩
  | succ n ih =>
    obtain ⟨h1, h2, h3, h4, h5, h6⟩ := next1_spec hL h hi (by omega)
    obtain ⟨i1, i2, i3, i4, i5, i6⟩ := ih h1 (by omega) (by omega)
    exact ⟨i1, by rw [St.skip1, i2]; omega, i3.trans h3, i4.trans h4, i5.trans h5, i6.trans h6⟩

/-- Lines of the second file are printed. -/
lemma print2_spec (hL : ∀ l ∈ L, Line l) (h : File L s.j s.line2 s.fp2) (hj : 1 ≤ s.j)
    (hle : s.j + n ≤ L.length + 1) :
    File L (St.print2 n s).j (St.print2 n s).line2 (St.print2 n s).fp2 ∧
      (St.print2 n s).j = s.j + n ∧ (St.print2 n s).i = s.i ∧ (St.print2 n s).line1 = s.line1 ∧
      (St.print2 n s).fp1 = s.fp1 ∧ (St.print2 n s).out =
        { s.out.put (texts ((L.drop (s.j - 1)).take n)) with
          caflag := s.out.caflag || decide (n ≠ 0) } := by
  induction n generalizing s with
  | zero =>
    refine ⟨h, rfl, rfl, rfl, rfl, ?_⟩
    simp [St.print2, texts, Out.put]
  | succ n ih =>
    obtain ⟨hl, -⟩ := h.line hL hj (by omega)
    have hlt : s.j - 1 < L.length := by omega
    have hmem : L.getD (s.j - 1) [] ∈ L := by
      rw [List.getD_eq_getElem _ _ hlt]
      exact List.getElem_mem hlt
    obtain ⟨h1, h2, h3, h4, h5, h6⟩ :=
      next2_spec (s := { s with out := text2 s.line2 s.out }) hL h hj
        (by simp only; omega)
    obtain ⟨i1, i2, i3, i4, i5, i6⟩ := ih h1 (by omega) (by rw [h2]; simp only; omega)
    refine ⟨i1, by rw [St.print2, i2, h2]; simp only; omega, i3.trans h3, i4.trans h4, i5.trans h5,
      ?_⟩
    rw [St.print2, i6, h6]
    simp only [h2]
    rw [hl, text2_eq (hL _ hmem)]
    have hdrop : (L.drop (s.j - 1)).take (n + 1) =
        L.getD (s.j - 1) [] :: (L.drop (s.j + 1 - 1)).take n := by
      rw [List.drop_eq_getElem_cons hlt, List.take_succ_cons, List.getD_eq_getElem _ _ hlt]
      congr 3
      omega
    rw [hdrop]
    simp [Out.put, texts]

lemma scan_spec (n k : ℕ) (h : J (k + n) ≠ 0) : k ≤ scan J n k ∧ scan J n k ≤ k + n ∧
    J (scan J n k) ≠ 0 ∧ ∀ i, k ≤ i → i < scan J n k → J i = 0 := by
  induction n generalizing k with
  | zero =>
    exact ⟨le_refl _, le_refl _, h, fun i h1 h2 => absurd h1 (by simp only [scan] at h2; omega)⟩
  | succ n ih =>
    rw [scan]
    split_ifs with h0
    · obtain ⟨h1, h2, h3, h4⟩ := ih (k + 1) (by rwa [show k + 1 + n = k + (n + 1) by omega])
      refine ⟨by omega, by omega, h3, fun i hi hlt => ?_⟩
      obtain rfl | hi := Nat.eq_or_lt_of_le hi
      · exact h0
      · exact h4 i hi hlt
    · exact ⟨le_refl _, by omega, h0, fun i h1 h2 => absurd h1 (by omega)⟩

/-! ### The table of matches -/

/-- The matches are increasing. -/
structure Table (J : ℕ → ℕ) (ln1 ln2 : ℕ) : Prop where
  le : ∀ i, 1 ≤ i → i ≤ ln1 → J i ≤ ln2
  lt : ∀ i k, 1 ≤ i → i < k → k ≤ ln1 → J i ≠ 0 → J k ≠ 0 → J i < J k

lemma Table.fence {ln1 ln2 : ℕ} (h : Table J ln1 ln2) (hi : 1 ≤ i) (hik : i < k)
    (hk : k ≤ ln1 + 1) (h1 : fenced J ln1 ln2 i ≠ 0) (h2 : fenced J ln1 ln2 k ≠ 0) :
    fenced J ln1 ln2 i < fenced J ln1 ln2 k := by
  unfold fenced at *
  rw [if_neg (by omega)] at h1 ⊢
  split_ifs at h2 ⊢ with hf
  · have := h.le i hi (by omega)
    omega
  · exact h.lt i k hi hik (by omega) h1 h2

/-- A line of the second file that is matched by an equal one. -/
def Kept (J : ℕ → ℕ) (A B : List (List Char)) (m : ℕ) : Prop :=
  ∃ i < A.length, J (i + 1) = m + 1 ∧ A.getD i [] = B.getD m []

instance (J : ℕ → ℕ) (A B : List (List Char)) (m : ℕ) : Decidable (Kept J A B m) := by
  unfold Kept
  infer_instance

/-- The space that the editor uses for the first `n` lines of the second file. -/
def cost (J : ℕ → ℕ) (A B : List (List Char)) (n : ℕ) : ℕ :=
  ∑ m ∈ Finset.range n, if Kept J A B m then 0 else use (B.getD m [])

lemma cost_mono (h : n ≤ m) : cost J A B n ≤ cost J A B m :=
  Finset.sum_le_sum_of_subset (Finset.range_subset_range.mpr h)

lemma cost_lines (h : ∀ m, j ≤ m → m < j + n → ¬ Kept J A B m) (hn : j + n ≤ B.length) :
    cost J A B (j + n) = cost J A B j + uses ((B.drop j).take n) := by
  induction n with
  | zero => simp [uses]
  | succ n ih =>
    have hlt : j + n < B.length := by omega
    have ih := ih (fun m h1 h2 => h m h1 (by omega)) (by omega)
    have hget : (B.drop j)[n]? = some (B.getD (j + n) []) := by
      rw [List.getElem?_drop, List.getElem?_eq_getElem hlt, List.getD_eq_getElem _ _ hlt]
    have hstep : cost J A B (j + (n + 1)) = cost J A B (j + n) + use (B.getD (j + n) []) := by
      rw [cost, ← Nat.add_assoc, Finset.sum_range_succ, if_neg (h (j + n) (by omega) (by omega))]
      rfl
    rw [hstep, ih, List.take_add_one, hget]
    simp [uses]
    omega

/-- The editor has room: its table for the lines on the way, and its temp file for those that are
printed. -/
structure Fits (J : ℕ → ℕ) (A B : List (List Char)) (t : ℕ) : Prop where
  temp : t + cost J A B B.length ≤ ULARGE / 2 * CLSIZE
  first : A.length + 2 < 16 * LNSIZE
  lines : ∀ i, 1 ≤ i → i ≤ A.length + 1 → fenced J A.length B.length i ≠ 0 →
    fenced J A.length B.length i - 1 + (A.length + 1 - i) + 2 < 16 * LNSIZE

/-! ### One pass of the loop -/

/-- The script so far makes of the first file the lines of the second before `j` and its own from
`i` on. -/
structure Inv (J : ℕ → ℕ) (A B : List (List Char)) (e : Buf) (s : St) : Prop where
  i1 : 1 ≤ s.i
  i2 : s.i ≤ A.length + 1
  j1 : 1 ≤ s.j
  j2 : s.j ≤ B.length + 1
  past : ∀ i, 1 ≤ i → i < s.i → J i < s.j
  ahead : ∀ i, s.i ≤ i → i ≤ A.length + 1 → fenced J A.length B.length i ≠ 0 →
    s.j ≤ fenced J A.length B.length i
  file1 : File A s.i s.line1 s.fp1
  file2 : File B s.j s.line2 s.fp2
  lines : s.j - 1 + (A.length + 1 - s.i) + 2 < 16 * LNSIZE
  incr : s.out.incr = U (s.j - s.i)
  caflag : s.out.caflag = false
  script : ∃ d, ∀ p, Executes e (s.out.stdout ++ p)
    ⟨B.take (s.j - 1) ++ A.drop (s.i - 1), d, e.tmpseek + cost J A B (s.j - 1)⟩ p

end Coherent.Diff
