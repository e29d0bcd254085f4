import Coherent.Lib.Run
import Coherent.TtyEdit

/-!
Erasing against echoing: the column of the cursor, kept by `ttout`, and the characters that wait in
the buffer of `ttin`.

The column that counts is the one after everything in the output queue has gone out.
-/

namespace Coherent.Tty

open Coherent.Lib

/-- The column after `c` and what is put out for it. -/
def settle (m : Sgttyb) (n c : ℕ) : ℕ := if c = 0x0a ∧ m.CRMOD then 0 else column n c

/-- The column after all output has gone out. -/
def coming {δ : Type*} (tp : TTY δ) : ℕ :=
  tp.t_oq.foldl (settle tp.t_sgttyb) ((fun n => column n tp.t_fillb)^[tp.t_nfill] tp.t_hpos)

/-- The column after the echo of a character of the buffer; one that was quoted has been echoed
with its escape. -/
def echo (m : Sgttyb) (n c : ℕ) : ℕ :=
  if 0x80 ≤ c then settle m (settle m n ESC) (c % 128) else settle m n c

/-- The column after the echo of the buffer `ib`. -/
def echoed (m : Sgttyb) (n : ℕ) (ib : List ℕ) : ℕ := ib.foldl (echo m) n

def Printable (c : ℕ) : Prop := 0x20 ≤ c ∧ c ≤ 0x7e

/-- A character that moves the cursor by one. -/
def Steady (c : ℕ) : Prop := Printable c ∨ c = 0x08

/-- A character that goes into the buffer unquoted. -/
def Plain (c : ℕ) : Prop := Printable c ∨ c = 0x09

/-- Nothing is left to go out. -/
def Drained {δ : Type*} (tp : TTY δ) : Prop := tp.t_oq = [] ∧ tp.t_nfill = 0 ∧ tp.T_INL = false

instance (c : ℕ) : Decidable (Printable c) := inferInstanceAs (Decidable (_ ∧ _))
instance (c : ℕ) : Decidable (Steady c) := inferInstanceAs (Decidable (_ ∨ _))
instance (c : ℕ) : Decidable (Plain c) := inferInstanceAs (Decidable (_ ∨ _))
instance {δ : Type*} (tp : TTY δ) : Decidable (Drained tp) :=
  inferInstanceAs (Decidable (_ ∧ _ ∧ _))

variable {δ : Type*} {tp tp' tp'' : TTY δ} {dr : Driver δ} {m : Sgttyb} {h : Tchars}
  {c dc k n : ℕ} {cs ib : List ℕ}

/-! ### Output -/

/-- The buffer is the same, and the cursor is going to the same column. -/
structure SameColumn (tp tp' : TTY δ) : Prop where
  input : SameInput tp tp'
  t_opos : tp'.t_opos = tp.t_opos
  coming : coming tp' = coming tp

@[refl] lemma SameColumn.refl (tp : TTY δ) : SameColumn tp tp := ⟨.refl tp, rfl, rfl⟩

lemma SameColumn.trans (h : SameColumn tp tp') (h' : SameColumn tp' tp'') : SameColumn tp tp'' :=
  ⟨h.input.trans h'.input, h'.t_opos.trans h.t_opos, h'.coming.trans h.coming⟩

lemma coming_drained (hd : Drained tp) : coming tp = tp.t_hpos := by
  obtain ⟨h1, h2, -⟩ := hd
  rw [coming, h1, h2]
  rfl

lemma column_newline : column n 0x0a = n := by
  simp [column]

lemma column_spaces : (fun n => column n 0x20)^[k] n = n + k := by
  induction k generalizing n with
  | zero => rfl
  | succ k ih =>
    rw [Function.iterate_succ_apply, ih]
    simp [column]
    omega

lemma fetch_t_opos {r : ℕ × TTY δ} (hr : fetch tp = some r) : r.2.t_opos = tp.t_opos := by
  unfold fetch at hr
  split at hr
  · obtain rfl := Option.some.inj hr
    rfl
  split at hr
  · obtain rfl := Option.some.inj hr
    rfl
  split at hr
  · cases hr
  split_ifs at hr
  all_goals
    obtain rfl := Option.some.inj hr
    rfl

/-- What comes out next has been counted. -/
lemma coming_fetch {r : ℕ × TTY δ} (hraw : tp.t_sgttyb.RAWOUT = false) (hr : fetch tp = some r) :
    coming { r.2 with t_hpos := column r.2.t_hpos r.1 } = coming tp := by
  unfold fetch at hr
  by_cases hfill : tp.t_nfill ≠ 0
  · -- a fill character
    rw [if_pos hfill] at hr
    obtain rfl := Option.some.inj hr
    obtain ⟨k, hk⟩ := Nat.exists_eq_succ_of_ne_zero hfill
    rw [coming, coming]
    dsimp only
    rw [hk, Nat.succ_eq_add_one, Nat.add_sub_cancel, Function.iterate_succ_apply]
  rw [if_neg hfill] at hr
  rw [not_not] at hfill
  by_cases hinl : tp.T_INL
  · -- the newline behind a return
    rw [if_pos hinl] at hr
    obtain rfl := Option.some.inj hr
    rw [coming, coming]
    dsimp only
    rw [column_newline]
  rw [if_neg hinl] at hr
  split at hr
  · cases hr
  next c oq hoq =>
    rw [if_neg (by rw [hraw]; decide)] at hr
    have hcoming : coming tp =
        oq.foldl (settle tp.t_sgttyb) (settle tp.t_sgttyb tp.t_hpos c) := by
      rw [coming, hoq, hfill]
      rfl
    rw [hcoming]
    split_ifs at hr with hnl htab
    · obtain rfl := Option.some.inj hr
      rw [coming]
      dsimp only
      rw [hfill, settle, if_pos hnl]
      rfl
    · -- a tab goes out as spaces
      obtain rfl := Option.some.inj hr
      have htabs : (fun n => column n 0x20)^[7 - tp.t_hpos % 8] (column tp.t_hpos 0x20) =
          column tp.t_hpos 0x09 := by
        rw [column_spaces]
        simp [column, tabstop]
        omega
      rw [coming]
      dsimp only
      rw [htabs, settle, if_neg hnl, htab.1]
    · obtain rfl := Option.some.inj hr
      rw [coming]
      dsimp only
      rw [hfill, settle, if_neg hnl]
      rfl

lemma sameColumn_ttout {r : ℕ × TTY δ} (hraw : tp.t_sgttyb.RAWOUT = false)
    (hr : ttout tp = some r) : SameColumn tp r.2 := by
  have hin := sameInput_ttout hr
  obtain ⟨f, hf, rfl⟩ := Option.map_eq_some_iff.mp hr
  have hmode := (sameInput_fetch hf).t_sgttyb
  have hpos : f.2.t_opos = tp.t_opos := fetch_t_opos hf
  rw [if_neg (by rw [hmode, hraw]; decide)] at hin ⊢
  exact ⟨hin, hpos, coming_fetch hraw hf⟩

lemma sameColumn_pull (hraw : tp.t_sgttyb.RAWOUT = false) : SameColumn tp (pull k tp) := by
  induction k generalizing tp with
  | zero => exact .refl tp
  | succ k ih =>
    rw [pull]
    cases hr : ttout tp with
    | none => exact .refl tp
    | some r =>
      have hout := sameColumn_ttout hraw hr
      exact hout.trans (ih (by rw [hout.input.t_sgttyb, hraw]))

lemma sameColumn_ttstart (hraw : tp.t_sgttyb.RAWOUT = false) : SameColumn tp (ttstart dr tp) := by
  unfold ttstart
  split
  · exact .refl tp
  split
  · exact ⟨⟨rfl, rfl, rfl, rfl, rfl, rfl, rfl⟩, rfl, rfl⟩
  · obtain ⟨k, d, hk⟩ := dr.pulls tp
    have hs : SameColumn tp (dr.t_start tp) := by
      rw [hk]
      exact (sameColumn_pull hraw).trans ⟨⟨rfl, rfl, rfl, rfl, rfl, rfl, rfl⟩, rfl, rfl⟩
    dsimp only
    split
    · exact hs.trans ⟨⟨rfl, rfl, rfl, rfl, rfl, rfl, rfl⟩, rfl, rfl⟩
    · exact hs

lemma coming_puts : coming (puts tp cs) = cs.foldl (settle tp.t_sgttyb) (coming tp) := by
  rw [coming, coming, puts]
  exact List.foldl_append

/-! ### The echo of one character -/

lemma settle_printable (hc : Printable c) : settle m n c = n + 1 := by
  obtain ⟨h1, h2⟩ := hc
  rw [settle, if_neg (by omega), column, if_neg (by omega), if_neg (by omega), if_neg (by omega),
    if_pos ⟨h1, h2⟩]

lemma settle_back : settle m n 0x08 = n - 1 := by
  simp [settle, column]

lemma settle_tab : settle m n 0x09 = n / 8 * 8 + 8 := by
  simp [settle, column, tabstop]
  omega

lemma printable_ESC : Printable ESC := by decide

lemma settle_backs : (List.replicate k 0x08).foldl (settle m) n = n - k := by
  induction k generalizing n with
  | zero => rfl
  | succ k ih =>
    rw [List.replicate_succ, List.foldl_cons, settle_back, ih]
    omega

lemma echo_unquoted (hc : c < 0x80) : echo m n c = settle m n c := by
  rw [echo, if_neg (not_le.mpr hc)]

lemma echo_quoted (hc : 0x80 ≤ c) : echo m n c = settle m (n + 1) (c % 128) := by
  rw [echo, if_pos hc, settle_printable printable_ESC]

lemma echoed_append : echoed m n (ib ++ cs) = echoed m (echoed m n ib) cs := List.foldl_append

lemma echoed_escapes : echoed m n (List.replicate k ESC) = n + k := by
  induction k generalizing n with
  | zero => rfl
  | succ k ih =>
    rw [List.replicate_succ]
    change echoed m (echo m n ESC) _ = _
    rw [ih, echo_unquoted (by decide), settle_printable printable_ESC]
    omega

/-- A character of the buffer whose echo is undone. -/
def Undoable (c : ℕ) : Prop := (c < 0x80 → Plain c) ∧ (0x80 ≤ c → Steady (c % 128))

/-- The column that `ttin` counts is that of the echo. -/
lemma recount_echoed (hib : ∀ c ∈ ib, Undoable c) : recount n ib = echoed m n ib := by
  induction ib generalizing n with
  | nil => rfl
  | cons c ib ih =>
    have hstep : (recount n [c] : ℤ) = echo m n c := by
      obtain ⟨h1, h2⟩ := hib c List.mem_cons_self
      rw [recount, List.foldl_cons, List.foldl_nil]
      dsimp only
      by_cases hq : 0x80 ≤ c
      · rw [if_pos hq, echo_quoted hq]
        rcases h2 hq with hp | hb
        · obtain ⟨h3, h4⟩ := hp
          rw [settle_printable ⟨h3, h4⟩, if_neg (by omega), if_neg (by omega)]
          push_cast
          ring
        · rw [hb, settle_back, if_pos rfl]
          push_cast
          ring
      · rw [not_le] at hq
        have hmod : c % 128 = c := Nat.mod_eq_of_lt hq
        rw [if_neg (not_le.mpr hq), echo_unquoted hq, hmod]
        rcases h1 hq with hp | ht
        · obtain ⟨h3, h4⟩ := hp
          rw [settle_printable ⟨h3, h4⟩, if_neg (by omega), if_neg (by omega)]
          push_cast
          ring
        · rw [ht, settle_tab, if_neg (by decide), if_pos rfl, tabstop]
          push_cast
          ring
    have htail : recount (recount n [c]) ib = recount n (c :: ib) := rfl
    rw [← htail, hstep, ih fun k hk => hib k (List.mem_cons_of_mem _ hk)]
    rfl

/-- **Erasing undoes the echo** of `dc`, where `tp` has lost it from its buffer. -/
lemma erasure_undoes (hcrt : tp.t_sgttyb.CRT) (hesc : tp.t_escape = 0)
    (hpos : tp.t_hpos = echo m (echoed m tp.t_opos tp.t_ib) dc) (hdc : Undoable dc)
    (htab : dc = 0x09 → ∀ k ∈ tp.t_ib, Undoable k) :
    ∃ cs, erasure tp c dc = some cs ∧
      cs.foldl (settle m) tp.t_hpos = echoed m tp.t_opos tp.t_ib := by
  obtain ⟨h1, h2⟩ := hdc
  unfold erasure
  dsimp only
  rw [if_neg (by rw [hcrt]; decide)]
  have hspace : Printable 0x20 := by decide
  by_cases hq : 0x80 ≤ dc
  · rw [if_pos hq]
    rw [echo_quoted hq] at hpos
    rcases h2 hq with ⟨h3, h4⟩ | hb
    · -- a quoted character that prints
      rw [settle_printable ⟨h3, h4⟩] at hpos
      rw [if_neg (by omega), if_pos (by omega), if_pos (by omega)]
      refine ⟨_, rfl, ?_⟩
      rw [hpos]
      simp [settle_back, settle_printable hspace]
    · -- a quoted backspace
      rw [hb, settle_back] at hpos
      rw [hb]
      refine ⟨_, rfl, ?_⟩
      rw [hpos]
      simp [settle_back, settle_printable hspace]
  · rw [if_neg hq]
    rw [not_le] at hq
    rw [echo_unquoted hq] at hpos
    rw [Nat.mod_eq_of_lt hq]
    rcases h1 hq with ⟨h3, h4⟩ | ht
    · rw [settle_printable ⟨h3, h4⟩] at hpos
      rw [if_neg (by omega), if_pos (by omega)]
      refine ⟨_, rfl, ?_⟩
      rw [hpos]
      simp [settle_back, settle_printable hspace]
    · -- a tab
      have hcount : recount (tp.t_opos + tp.t_escape) tp.t_ib =
          echoed m tp.t_opos tp.t_ib := by
        rw [hesc, Nat.cast_zero, add_zero]
        exact recount_echoed (htab ht)
      rw [hcount, if_neg (by omega), if_neg (by omega), if_pos ht]
      refine ⟨_, rfl, ?_⟩
      rw [ht, settle_tab] at hpos
      rw [List.append_nil, settle_backs, hpos]
      omega

/-! ### One key -/

/-- Cooked mode with echo on a screen. A stop character that goes out for flow control does not move
the cursor. -/
structure Crt (m : Sgttyb) (h : Tchars) : Prop where
  RAWIN : m.RAWIN = false
  RAWOUT : m.RAWOUT = false
  CBREAK : m.CBREAK = false
  ECHO : m.ECHO = true
  CRT : m.CRT = true
  stop : m.TANDEM = false ∨ ∀ n, settle m n h.t_stopc.toUInt8.toNat = n

/-- The cursor is going to the column behind the echo of what is pending. -/
structure Shows (m : Sgttyb) (h : Tchars) (tp : TTY δ) : Prop where
  sgttyb : tp.t_sgttyb = m
  tchars : tp.t_tchars = h
  pending : ∀ k ∈ tp.t_ib, k < 0x80 → Plain k
  column : coming tp = echoed m tp.t_opos tp.t_ib + tp.t_escape

lemma Shows.same (hs : Shows m h tp) (hc : SameColumn tp tp') : Shows m h tp' :=
  ⟨by rw [hc.input.t_sgttyb, hs.sgttyb], by rw [hc.input.t_tchars, hs.tchars],
    by rw [hc.input.t_ib]; exact hs.pending,
    by rw [hc.coming, hs.column, hc.t_opos, hc.input.t_ib, hc.input.t_escape]⟩

/-- Output that takes the cursor to the column of what is pending then. -/
lemma Shows.puts (hm : Crt m h) (hsg : tp.t_sgttyb = m) (hh : tp.t_tchars = h)
    (hp : ∀ k ∈ tp.t_ib, k < 0x80 → Plain k)
    (hc : cs.foldl (settle m) (coming tp) = echoed m tp.t_opos tp.t_ib + tp.t_escape) :
    Shows m h (ttstart dr (Tty.puts tp cs)) := by
  have hput : Shows m h (Tty.puts tp cs) := ⟨hsg, hh, hp, by rw [coming_puts, hsg, hc]; rfl⟩
  have hraw : (Tty.puts tp cs).t_sgttyb.RAWOUT = false := by rw [hput.sgttyb, hm.RAWOUT]
  exact hput.same (sameColumn_ttstart hraw)

/-- A printable character, a tab, or a character that is quoted or erases. -/
def Types (m : Sgttyb) (h : Tchars) (tp : TTY δ) (c : ℕ) : Prop :=
  if tp.t_escape ≠ 0 then c = ESC ∨ Erases m c ∨ Kills m c ∨ Plain c ∧ ¬ Ends h c
  else Erases m c ∨ Plain c ∧ ¬ Kills m c ∧ ¬ Ends h c

/-- Where `c` erases, the erased character had one column more than its escape, or it is a
backspace; and so had all that were quoted before it, if it is a tab. -/
def Undoes (m : Sgttyb) (tp : TTY δ) (c : ℕ) : Prop :=
  tp.t_escape = 0 → Erases m c → ∀ dc ∈ tp.t_ib.getLast?,
    (0x80 ≤ dc → Steady (dc % 128)) ∧
      (dc = 0x09 → ∀ k ∈ tp.t_ib.dropLast, 0x80 ≤ k → Steady (k % 128))

lemma ttstash_room (hc : ¬ Ends tp.t_tchars c) (hb : tp.t_ib.length < NCIB - 1) :
    ttstash tp c = { tp with t_ib := tp.t_ib ++ [c] } := by
  have hif : ¬ (c = 0x0a ∨ tp.ISEOF c ∨ tp.ISBRK c) := hc
  rw [ttstash, if_neg hif, if_pos hb]

/-- A key behind escapes. -/
lemma edit_escaped_shows (hm : Crt m h) (hs : Shows m h tp) (hesc : tp.t_escape ≠ 0) (hlt : c < 128)
    (ht : Types m h tp c) (hb : tp.t_ib.length + tp.t_escape < NCIB - 1) :
    Shows m h (edit dr tp c) := by
  have hecho : tp.t_sgttyb.ECHO = true := by rw [hs.sgttyb, hm.ECHO]
  rw [Types, if_pos hesc] at ht
  unfold edit
  rw [if_pos hesc]
  dsimp only
  rw [if_pos hecho]
  by_cases hE : c = ESC
  · rw [if_pos hE, hE]
    refine Shows.puts hm hs.sgttyb hs.tchars hs.pending ?_
    have hbig : NCIB = 256 := rfl
    have hmod : (tp.t_escape + 1) % 65536 = tp.t_escape + 1 := by omega
    have hcol := hs.column
    change settle m (coming tp) ESC = echoed m tp.t_opos tp.t_ib + (tp.t_escape + 1) % 65536
    rw [hmod, settle_printable printable_ESC, hcol, add_assoc]
  rw [if_neg hE]
  by_cases hq : Erases m c ∨ Kills m c
  · -- quoted
    have hif : tp.ISERASE c ∨ tp.ISKILL c := by
      rw [← hs.sgttyb] at hq
      exact hq
    have hmod : (c ||| 0x80) % 128 = c := by
      rw [quoted_eq hlt]
      omega
    have hfits : ({ tp with t_escape := tp.t_escape - 1 } : TTY δ).t_ib.length +
        ({ tp with t_escape := tp.t_escape - 1 } : TTY δ).t_escape ≤ NCIB - 1 := by
      dsimp only
      omega
    rw [if_pos hif]
    dsimp only
    rw [hmod, unescape_fits hfits, ttstash_room (by rw [hs.tchars]; exact not_ends_quoted hlt) (by
      rw [List.length_append, List.length_replicate]; dsimp only; omega)]
    refine Shows.puts hm hs.sgttyb hs.tchars ?_ ?_
    · intro k hk hk'
      rcases List.mem_append.mp hk with hk | hk
      · rcases List.mem_append.mp hk with hk | hk
        · exact hs.pending k hk hk'
        · rw [List.eq_of_mem_replicate hk]
          exact .inl printable_ESC
      · rw [List.mem_singleton.mp hk, quoted_eq hlt] at hk'
        omega
    · have hcol := hs.column
      change settle m (coming tp) c =
        echoed m tp.t_opos (tp.t_ib ++ List.replicate (tp.t_escape - 1) ESC ++ [c ||| 0x80]) + 0
      have hge : 0x80 ≤ c ||| 0x80 := by
        rw [quoted_eq hlt]
        omega
      have hlast : ∀ n, echoed m n [c ||| 0x80] = settle m (n + 1) c := by
        intro n
        change echo m n (c ||| 0x80) = _
        rw [echo_quoted hge, hmod]
      rw [echoed_append, echoed_append, echoed_escapes, hlast, hcol]
      congr 1
      omega
  · have hif : ¬ (tp.ISERASE c ∨ tp.ISKILL c) := by
      rw [← hs.sgttyb] at hq
      exact hq
    obtain ⟨hplain, hend⟩ : Plain c ∧ ¬ Ends h c := by
      rw [not_or] at hq
      exact ((ht.resolve_left hE).resolve_left hq.1).resolve_left hq.2
    rw [if_neg hif]
    dsimp only
    rw [Nat.mod_eq_of_lt hlt, unescape_fits hb.le, ttstash_room (by rw [hs.tchars]; exact hend) (by
      rw [List.length_append, List.length_replicate]; exact hb)]
    refine Shows.puts hm hs.sgttyb hs.tchars ?_ ?_
    · intro k hk hk'
      rcases List.mem_append.mp hk with hk | hk
      · rcases List.mem_append.mp hk with hk | hk
        · exact hs.pending k hk hk'
        · rw [List.eq_of_mem_replicate hk]
          exact .inl printable_ESC
      · rw [List.mem_singleton.mp hk]
        exact hplain
    · have hcol := hs.column
      change settle m (coming tp) c =
        echoed m tp.t_opos (tp.t_ib ++ List.replicate tp.t_escape ESC ++ [c]) + 0
      have hlast : ∀ n, echoed m n [c] = settle m n c := fun n => echo_unquoted hlt
      rw [echoed_append, echoed_append, echoed_escapes, hlast, hcol, add_zero]

/-- Erasing a character. -/
lemma edit_erase_shows (hm : Crt m h) (hs : Shows m h tp) (hd : Drained tp) (hesc : tp.t_escape = 0)
    (hE : Erases m c) (hu : Undoes m tp c) : Shows m h (edit dr tp c) := by
  have hif : tp.ISERASE c ∧ tp.t_sgttyb.CBREAK = false := by
    rw [← hs.sgttyb] at hE
    exact ⟨hE, by rw [hs.sgttyb, hm.CBREAK]⟩
  unfold edit
  rw [if_neg (by rw [hesc]; decide), if_pos hif, unescape_zero hesc]
  dsimp only
  cases hlast : tp.t_ib.getLast? with
  | none => exact hs
  | some dc =>
    have hecho : tp.t_sgttyb.ECHO = true := by rw [hs.sgttyb, hm.ECHO]
    have hne : tp.t_ib ≠ [] := fun hnil => by simp [hnil] at hlast
    have hib : tp.t_ib = tp.t_ib.dropLast ++ [dc] :=
      (List.dropLast_append_getLast? dc hlast).symm
    have hmem : dc ∈ tp.t_ib := List.mem_of_getLast? hlast
    have hrest : ∀ k ∈ tp.t_ib.dropLast, k < 0x80 → Plain k :=
      fun k hk => hs.pending k (List.dropLast_subset _ hk)
    obtain ⟨h1, h2⟩ := hu hesc hE dc (Option.mem_def.mpr hlast)
    have hpos : tp.t_hpos = echo m (echoed m tp.t_opos tp.t_ib.dropLast) dc := by
      have hcol := hs.column
      rw [coming_drained hd, hesc, add_zero, hib, echoed_append] at hcol
      exact hcol
    have hcrt : ({ tp with t_ib := tp.t_ib.dropLast } : TTY δ).t_sgttyb.CRT := by
      dsimp only
      rw [hs.sgttyb, hm.CRT]
    obtain ⟨cs, h3, h4⟩ := erasure_undoes (c := c) hcrt hesc hpos ⟨hs.pending dc hmem, h1⟩
      fun ht k hk => ⟨hrest k hk, h2 ht k hk⟩
    dsimp only
    rw [if_pos hecho]
    unfold unecho
    rw [h3]
    refine Shows.puts hm hs.sgttyb hs.tchars hrest ?_
    have hcoming : coming ({ tp with t_ib := tp.t_ib.dropLast } : TTY δ) = tp.t_hpos :=
      coming_drained hd
    rw [hcoming]
    dsimp only at h4 ⊢
    rw [h4, hesc, add_zero]

/-- A character that is put into the buffer and echoed. -/
lemma accept_shows (hm : Crt m h) (hs : Shows m h tp) (hd : Drained tp) (hesc : tp.t_escape = 0)
    (hlt : c < 128) (hc : Plain c) (hend : ¬ Ends h c) (hb : tp.t_ib.length < NCIB - 1) :
    Shows m h (accept dr tp c) := by
  have hbyb : ¬ tp.ISBBYB := by
    rw [TTY.ISBBYB, hs.sgttyb, hm.RAWIN, hm.CBREAK]
    decide
  -- the column where the line starts
  have hpos : Shows m h (if tp.t_ib = [] then { tp with t_opos := tp.t_hpos } else tp) := by
    split_ifs with hnil
    · refine ⟨hs.sgttyb, hs.tchars, hs.pending, ?_⟩
      dsimp only
      rw [hnil, hesc]
      exact coming_drained hd
    · exact hs
  have hib : (if tp.t_ib = [] then { tp with t_opos := tp.t_hpos } else tp).t_ib = tp.t_ib := by
    split_ifs <;> rfl
  have hcount :
      (if tp.t_ib = [] then { tp with t_opos := tp.t_hpos } else tp).t_escape = 0 := by
    split_ifs <;> exact hesc
  -- the echo of the character
  have henter : Shows m h (ttstart dr (putoq (enter tp c) c)) ∧
      (enter tp c).t_sgttyb = m ∧ (enter tp c).t_tchars = h := by
    unfold enter
    rw [if_neg hbyb]
    dsimp only
    generalize (if tp.t_ib = [] then { tp with t_opos := tp.t_hpos } else tp) = tp₁ at *
    have hcol := hpos.column
    rw [hcount, add_zero] at hcol
    by_cases hE : c = ESC
    · rw [if_pos hE, hcount, hE]
      refine ⟨Shows.puts hm hpos.sgttyb hpos.tchars hpos.pending ?_, hpos.sgttyb, hpos.tchars⟩
      change settle m (coming tp₁) ESC = echoed m tp₁.t_opos tp₁.t_ib + 1
      rw [settle_printable printable_ESC, hcol]
    · rw [if_neg hE, ttstash_room (by rw [hpos.tchars]; exact hend) (by rw [hib]; exact hb)]
      refine ⟨Shows.puts hm hpos.sgttyb hpos.tchars ?_ ?_, hpos.sgttyb, hpos.tchars⟩
      · intro k hk hk'
        rcases List.mem_append.mp hk with hk | hk
        · exact hpos.pending k hk hk'
        · rw [List.mem_singleton.mp hk]
          exact hc
      · change settle m (coming tp₁) c = echoed m tp₁.t_opos (tp₁.t_ib ++ [c]) + tp₁.t_escape
        have hlast : ∀ n, echoed m n [c] = settle m n c := fun n => echo_unquoted hlt
        rw [echoed_append, hlast, hcol, hcount, add_zero]
  obtain ⟨hshow, hsg, hh⟩ := henter
  have hecho : (enter tp c).t_sgttyb.ECHO ∧
      ((enter tp c).t_sgttyb.RAWIN ∨ ¬ (enter tp c).ISEOF c) := by
    refine ⟨by rw [hsg, hm.ECHO], .inr fun he => hend (.inr (.inl ?_))⟩
    rw [← hh]
    exact he
  unfold accept
  dsimp only
  rw [if_pos hecho]
  generalize ttstart dr (putoq (enter tp c) c) = tp₁ at hshow ⊢
  split_ifs with h1 h2
  · exact ⟨hshow.sgttyb, hshow.tchars, hshow.pending, hshow.column⟩
  · -- the stop character
    have hstop := hm.stop.resolve_left (by rw [← hshow.sgttyb, h2.1]; decide)
    refine Shows.puts hm hshow.sgttyb hshow.tchars hshow.pending ?_
    change settle m (coming tp₁) tp₁.t_tchars.t_stopc.toUInt8.toNat = _
    rw [hshow.tchars, hstop]
    exact hshow.column
  · exact hshow

/-- **One key.** -/
lemma ttin_shows (hm : Crt m h) (hs : Shows m h tp) (hd : Drained tp)
    (hc : ¬ tp.ISINTR (c % 128) ∧ ¬ tp.ISQUIT (c % 128) ∧ ¬ tp.ISSTOP (c % 128) ∧
      ¬ tp.ISSTART (c % 128)) (ht : Types m h tp (typed m c)) (hu : Undoes m tp (typed m c))
    (hb : tp.t_ib.length + tp.t_escape < NCIB - 1) : Shows m h (ttin dr tp c) := by
  have hraw : tp.t_sgttyb.RAWIN = false := by rw [hs.sgttyb, hm.RAWIN]
  unfold ttin
  rw [if_neg (by rw [hraw]; decide)]
  dsimp only
  rw [if_neg hc.1, if_neg hc.2.1, if_neg hc.2.2.1, if_neg hc.2.2.2]
  by_cases hstop : tp.T_ISTOP
  · rw [if_pos hstop]
    exact hs
  rw [if_neg hstop]
  have hkey : (if c % 128 = 0x0d ∧ tp.t_sgttyb.CRMOD then 0x0a else c % 128) = typed m c := by
    rw [hs.sgttyb]
    rfl
  rw [hkey]
  have hlt : typed m c < 128 := by
    unfold typed
    split_ifs
    · decide
    · exact Nat.mod_lt _ (by decide)
  generalize typed m c = c at *
  by_cases hesc : tp.t_escape = 0
  · by_cases hE : Erases m c
    · exact edit_erase_shows hm hs hd hesc hE hu
    · rw [Types, if_neg (by rw [hesc]; decide)] at ht
      obtain ⟨hplain, hK, hend⟩ := ht.resolve_left hE
      have hE' : ¬ (tp.ISERASE c ∧ tp.t_sgttyb.CBREAK = false) := by
        rintro ⟨h1, -⟩
        rw [← hs.sgttyb] at hE
        exact hE h1
      have hK' : ¬ (tp.ISKILL c ∧ tp.t_sgttyb.CBREAK = false) := by
        rintro ⟨h1, -⟩
        rw [← hs.sgttyb] at hK
        exact hK h1
      unfold edit
      rw [if_neg (by rw [hesc]; decide), if_neg hE', if_neg hK']
      exact accept_shows hm hs hd hesc hlt hplain hend (by omega)
  · exact edit_escaped_shows hm hs hesc hlt ht hb

/-! ### Runs -/

/-- A key that is typed when all output has gone out and leaves less than `NCIB - 1` characters
pending, or output. -/
inductive Keys (dr : Driver δ) : TTY δ → Option ℕ → TTY δ → Prop
  | key {tp : TTY δ} {c : ℕ} (hd : Drained tp)
      (hc : ¬ tp.ISINTR (c % 128) ∧ ¬ tp.ISQUIT (c % 128) ∧ ¬ tp.ISSTOP (c % 128) ∧
        ¬ tp.ISSTART (c % 128)) (ht : Types tp.t_sgttyb tp.t_tchars tp (typed tp.t_sgttyb c))
      (hb : (ttin dr tp c).t_ib.length + (ttin dr tp c).t_escape < NCIB - 1) :
      Keys dr tp (some c) (ttin dr tp c)
  | start {tp : TTY δ} : Keys dr tp none (ttstart dr tp)
  | pull {tp : TTY δ} (k : ℕ) (d : δ) : Keys dr tp none { pull k tp with t_ddp := d }

/-- What a key erases can be undone. -/
def Undone (tp : TTY δ) : Option ℕ → Prop
  | none => True
  | some c => Undoes tp.t_sgttyb tp (typed tp.t_sgttyb c)

structure Pending (m : Sgttyb) (h : Tchars) (tp : TTY δ) : Prop where
  cursor : Shows m h tp
  bound : tp.t_ib.length + tp.t_escape < NCIB - 1

lemma Pending.same (hp : Pending m h tp) (hc : SameColumn tp tp') : Pending m h tp' :=
  ⟨hp.cursor.same hc, by rw [hc.input.t_ib, hc.input.t_escape]; exact hp.bound⟩

/-- A device that takes what it can get. -/
def quick : Driver Unit := ⟨pull 64, fun _ => ⟨64, (), rfl⟩⟩

/-- A terminal that has put out a prompt of two characters, with the kill character `kill`. -/
def prompted (kill : Int8) : TTY Unit :=
  { opened with
    t_hpos := 2
    t_opos := 2
    t_sgttyb := { opened.t_sgttyb with sg_kill := kill } }

def press (tp : TTY Unit) (a : Option ℕ) : TTY Unit := ttin quick tp (a.getD 0)

def Pressable (tp : TTY Unit) : Option ℕ → Prop
  | none => False
  | some c => Drained tp ∧
      (¬ tp.ISINTR (c % 128) ∧ ¬ tp.ISQUIT (c % 128) ∧ ¬ tp.ISSTOP (c % 128) ∧
        ¬ tp.ISSTART (c % 128)) ∧
      Types tp.t_sgttyb tp.t_tchars tp (typed tp.t_sgttyb c) ∧
      (ttin quick tp c).t_ib.length + (ttin quick tp c).t_escape < NCIB - 1

instance (m : Sgttyb) (h : Tchars) (tp : TTY Unit) (c : ℕ) : Decidable (Types m h tp c) := by
  unfold Types
  infer_instance

instance (tp : TTY Unit) (a : Option ℕ) : Decidable (Pressable tp a) :=
  match a with
  | none => inferInstanceAs (Decidable False)
  | some _ => inferInstanceAs (Decidable (_ ∧ _ ∧ _ ∧ _))

instance (m : Sgttyb) (tp : TTY Unit) (c : ℕ) : Decidable (Undoes m tp c) := by
  unfold Undoes
  infer_instance

instance (tp : TTY Unit) (a : Option ℕ) : Decidable (Undone tp a) :=
  match a with
  | none => inferInstanceAs (Decidable True)
  | some c => inferInstanceAs (Decidable (Undoes tp.t_sgttyb tp (typed tp.t_sgttyb c)))

lemma press_keys (tp : TTY Unit) (a : Option ℕ) (ha : Pressable tp a) :
    Keys quick tp a (press tp a) := by
  cases a with
  | none => exact ha.elim
  | some c => exact .key ha.1 ha.2.1 ha.2.2.1 ha.2.2.2

/-- `a`, a quoted `@`, a tab, erase, erase. -/
def erasures : List (Option ℕ) :=
  [some 0x61, some 0x5c, some 0x40, some 0x09, some 0x08, some 0x08]

end Coherent.Tty
