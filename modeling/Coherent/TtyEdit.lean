import Coherent.Lib.Run
import Coherent.Tty

/-!
Cooked mode: `ttin` and `ttstash` against an editor of lines.

The editor has a line and a number of escapes that were typed last. `ttin` keeps the characters
that were quoted with their eighth bit, and counts the escapes until another character comes.
-/

namespace Coherent.Tty

open Coherent.Lib

/-- An editor: its line, the escapes typed behind it, and all that it has delivered. -/
structure Editor where
  line : List ℕ
  esc : ℕ
  sent : List ℕ

/-- The character that a key stands for. -/
def typed (m : Sgttyb) (c : ℕ) : ℕ := if c % 128 = 0x0d ∧ m.CRMOD then 0x0a else c % 128

def Erases (m : Sgttyb) (c : ℕ) : Prop := m.sg_erase.toInt = c
def Kills (m : Sgttyb) (c : ℕ) : Prop := m.sg_kill.toInt = c

/-- A newline, end of file or break. -/
def Ends (h : Tchars) (c : ℕ) : Prop := c = 0x0a ∨ h.t_eofc.toInt = c ∨ h.t_brkc.toInt = c

instance (m : Sgttyb) (c : ℕ) : Decidable (Erases m c) := inferInstanceAs (Decidable (_ = _))
instance (m : Sgttyb) (c : ℕ) : Decidable (Kills m c) := inferInstanceAs (Decidable (_ = _))
instance (h : Tchars) (c : ℕ) : Decidable (Ends h c) := inferInstanceAs (Decidable (_ ∨ _))

/-- Characters behind the line; what does not fit is dropped. -/
def Editor.add (e : Editor) (cs : List ℕ) : Editor :=
  { e with line := (e.line ++ cs).take (NCIB - 1), esc := 0 }

/-- A character that is not edited with, behind the escapes `pre`. -/
def Editor.normal (h : Tchars) (e : Editor) (pre : List ℕ) (c : ℕ) : Editor :=
  if Ends h c then
    { line := [], esc := 0, sent := e.sent ++ (e.line ++ pre).take (NCIB - 1) ++ [c] }
  else e.add (pre ++ [c])

/-- One character. -/
def Editor.key (m : Sgttyb) (h : Tchars) (e : Editor) (c : ℕ) : Editor :=
  if e.esc = 0 then
    if Erases m c then { e with line := e.line.dropLast }
    else if Kills m c then { e with line := [] }
    else if c = ESC then { e with esc := 1 }
    else e.normal h [] c
  else if c = ESC then { e with esc := e.esc + 1 }
  else if Erases m c ∨ Kills m c then e.add (List.replicate (e.esc - 1) ESC ++ [c])
  else e.normal h (List.replicate e.esc ESC) c

/-- There is room for the escapes when a character comes behind them, unless it ends the line;
and they can be counted. -/
def Editor.Room (m : Sgttyb) (h : Tchars) (e : Editor) (c : ℕ) : Prop :=
  if c = ESC then e.esc + 1 < 65536
  else if Erases m c ∨ Kills m c then e.line.length + (e.esc - 1) ≤ NCIB - 1
  else Ends h c ∨ e.line.length + e.esc ≤ NCIB - 1

instance (m : Sgttyb) (h : Tchars) (e : Editor) (c : ℕ) : Decidable (e.Room m h c) := by
  unfold Editor.Room
  infer_instance

variable {δ : Type*} {tp tp' : TTY δ} {dr : Driver δ} {e : Editor} {m : Sgttyb} {h : Tchars}
  {c k n : ℕ} {taken cs : List ℕ}

/-- The terminal has what the editor has; `taken` was read from its queue. -/
structure Edits (m : Sgttyb) (h : Tchars) (tp : TTY δ) (taken : List ℕ) (e : Editor) : Prop where
  line : tp.t_ib.map (· % 128) = e.line
  esc : tp.t_escape = e.esc
  sent : taken ++ tp.t_iq = e.sent
  bound : tp.t_ib.length ≤ NCIB - 1
  flow : tp.T_ISTOP = false
  sgttyb : tp.t_sgttyb = m
  tchars : tp.t_tchars = h

/-- Output changes nothing. -/
lemma Edits.same (he : Edits m h tp taken e) (hs : SameInput tp tp') : Edits m h tp' taken e :=
  ⟨by rw [hs.t_ib, he.line], by rw [hs.t_escape, he.esc], by rw [hs.t_iq, he.sent],
    by rw [hs.t_ib]; exact he.bound, by rw [hs.T_ISTOP, he.flow], by rw [hs.t_sgttyb, he.sgttyb],
    by rw [hs.t_tchars, he.tchars]⟩

lemma Edits.length (he : Edits m h tp taken e) : e.line.length = tp.t_ib.length := by
  rw [← he.line, List.length_map]

/-! ### `ttstash` -/

lemma unescape_fits (hk : tp.t_ib.length + tp.t_escape ≤ NCIB - 1) :
    unescape tp =
      { tp with t_ib := tp.t_ib ++ List.replicate tp.t_escape ESC, t_escape := 0 } := by
  have hmin : min tp.t_escape (NCIB - 1 - tp.t_ib.length) = tp.t_escape := by omega
  rw [unescape, hmin]
  simp

/-- The end of a line, in spite of escapes that there is no room for. -/
lemma ttstash_end (he : Edits m h tp taken e) (hc : Ends h c) (hlt : c < 128) :
    Edits m h (ttstash (unescape tp) c) taken (e.normal h (List.replicate e.esc ESC) c) := by
  have hif : c = 0x0a ∨ (unescape tp).ISEOF c ∨ (unescape tp).ISBRK c := by
    rw [← he.tchars] at hc
    exact hc
  have hline : ((unescape tp).t_ib ++ [c]).map (· % 128) =
      (e.line ++ List.replicate e.esc ESC).take (NCIB - 1) ++ [c] := by
    have hb := he.bound
    have hESC : ESC % 128 = ESC := rfl
    rw [List.map_append, unescape, List.map_append, he.line, List.map_replicate, hESC, he.esc,
      List.take_append, List.take_of_length_le (by rw [he.length]; exact hb), List.take_replicate,
      he.length, Nat.min_comm]
    simp [Nat.mod_eq_of_lt hlt]
  have hsent : taken ++ (tp.t_iq ++ ((unescape tp).t_ib ++ [c]).map (· % 128)) =
      e.sent ++ (e.line ++ List.replicate e.esc ESC).take (NCIB - 1) ++ [c] := by
    rw [hline, ← List.append_assoc, he.sent, List.append_assoc]
  unfold ttstash
  rw [if_pos hif, Editor.normal, if_pos hc]
  dsimp only
  split_ifs
  all_goals exact ⟨rfl, rfl, hsent, Nat.zero_le _, he.flow, he.sgttyb, he.tchars⟩

/-- A character in the line; behind it nothing is counted. -/
lemma ttstash_add (he : tp.t_ib.map (· % 128) = e.line) (hsent : taken ++ tp.t_iq = e.sent)
    (hb : tp.t_ib.length + tp.t_escape ≤ NCIB - 1) (hf : tp.T_ISTOP = false)
    (hm : tp.t_sgttyb = m) (hh : tp.t_tchars = h) (hc : ¬ Ends h k) :
    Edits m h (ttstash (unescape tp) k) taken
      (e.add (List.replicate tp.t_escape ESC ++ [k % 128])) := by
  have hESC : ESC % 128 = ESC := rfl
  rw [unescape_fits hb]
  unfold ttstash
  rw [if_neg (by rw [← hh] at hc; exact hc)]
  dsimp only
  have hlen : (tp.t_ib ++ List.replicate tp.t_escape ESC).length =
      tp.t_ib.length + tp.t_escape := by simp
  have hline : (tp.t_ib ++ List.replicate tp.t_escape ESC).map (· % 128) =
      e.line ++ List.replicate tp.t_escape ESC := by
    rw [List.map_append, he, List.map_replicate, hESC]
  have hlen' : (e.line ++ List.replicate tp.t_escape ESC).length =
      tp.t_ib.length + tp.t_escape := by rw [← hline, List.length_map, hlen]
  unfold Editor.add
  rw [hlen, ← List.append_assoc]
  by_cases hroom : tp.t_ib.length + tp.t_escape < NCIB - 1
  · rw [if_pos hroom]
    refine ⟨?_, rfl, hsent, ?_, hf, hm, hh⟩
    · dsimp only
      rw [List.map_append, hline, List.take_of_length_le (by
        rw [List.length_append, hlen', List.length_singleton]; omega)]
      rfl
    · dsimp only
      rw [List.length_append, hlen, List.length_singleton]
      omega
  · rw [if_neg hroom]
    refine ⟨?_, rfl, hsent, ?_, hf, hm, hh⟩
    · dsimp only
      rw [hline, List.take_append_of_le_length (by omega), List.take_of_length_le (by omega)]
    · dsimp only
      omega

/-! ### One key -/

lemma quoted_eq (hc : c < 128) : c ||| 0x80 = c + 128 :=
  Nat.or_two_pow_eq_add_of_lt (n := 7) hc

/-- A quoted character never ends a line. -/
lemma not_ends_quoted (hc : c < 128) : ¬ Ends h (c ||| 0x80) := by
  have h1 := h.t_eofc.toInt_lt
  have h2 := h.t_brkc.toInt_lt
  rw [quoted_eq hc]
  rintro (h3 | h3 | h3) <;> push_cast at * <;> omega

/-- What `edit` does where characters have been escaped. -/
lemma edit_escaped (he : Edits m h tp taken e) (hesc : e.esc ≠ 0) (hlt : c < 128)
    (hroom : e.Room m h c) : Edits m h (edit dr tp c) taken (e.key m h c) := by
  have hcount : tp.t_escape ≠ 0 := by rwa [he.esc]
  -- the echo does not matter
  have hecho : ∀ {tp' : TTY δ} {k : ℕ}, Edits m h tp' taken (e.key m h c) →
      Edits m h (if tp.t_sgttyb.ECHO then ttstart dr (putoq tp' k) else tp') taken
        (e.key m h c) := by
    intro tp' k h'
    split_ifs
    · exact h'.same (sameInput_putoq.trans sameInput_ttstart)
    · exact h'
  unfold edit
  rw [if_pos hcount]
  unfold Editor.Room at hroom
  refine hecho ?_
  by_cases hE : c = ESC
  · rw [if_pos hE] at hroom
    rw [if_pos hE, Editor.key, if_neg hesc, if_pos hE]
    have hmod : (tp.t_escape + 1) % 65536 = e.esc + 1 := by
      rw [he.esc]
      omega
    exact ⟨he.line, hmod, he.sent, he.bound, he.flow, he.sgttyb, he.tchars⟩
  rw [if_neg hE] at hroom
  rw [if_neg hE]
  by_cases hq : Erases m c ∨ Kills m c
  · -- quoted
    have hif : tp.ISERASE c ∨ tp.ISKILL c := by
      rw [← he.sgttyb] at hq
      exact hq
    rw [if_pos hq] at hroom
    rw [if_pos hif, Editor.key, if_neg hesc, if_neg hE, if_pos hq]
    dsimp only
    have hmod : (c ||| 0x80) % 128 = c := by
      rw [quoted_eq hlt]
      omega
    have hbound : tp.t_ib.length + (tp.t_escape - 1) ≤ NCIB - 1 := by
      rw [he.length] at hroom
      rwa [he.esc]
    have hadd : Edits m h
        (ttstash (unescape { tp with t_escape := tp.t_escape - 1 }) (c ||| 0x80)) taken
        (e.add (List.replicate (tp.t_escape - 1) ESC ++ [(c ||| 0x80) % 128])) :=
      ttstash_add he.line he.sent hbound he.flow he.sgttyb he.tchars (not_ends_quoted hlt)
    rw [hmod] at hadd
    rwa [he.esc] at hadd ⊢
  · have hif : ¬ (tp.ISERASE c ∨ tp.ISKILL c) := by
      rw [← he.sgttyb] at hq
      exact hq
    rw [if_neg hq] at hroom
    rw [if_neg hif, Editor.key, if_neg hesc, if_neg hE, if_neg hq]
    by_cases hend : Ends h c
    · exact ttstash_end he hend hlt
    · have hroom' := hroom.resolve_left hend
      have hadd := ttstash_add he.line he.sent (by rw [he.length] at hroom'; rwa [he.esc]) he.flow
        he.sgttyb he.tchars hend
      rw [Nat.mod_eq_of_lt hlt, he.esc] at hadd
      rw [Editor.normal, if_neg hend]
      exact hadd

lemma unescape_zero (hk : tp.t_escape = 0) : unescape tp = tp := by
  cases tp
  dsimp only at hk
  subst hk
  simp [unescape]

lemma enter_spec (he : Edits m h tp taken e) (hesc : e.esc = 0) (hlt : c < 128)
    (hcooked : m.RAWIN = false ∧ m.CBREAK = false) (hq : ¬ Erases m c) (hk : ¬ Kills m c) :
    Edits m h (enter tp c) taken (e.key m h c) := by
  have hb : tp.ISBBYB = false := by
    rw [TTY.ISBBYB, he.sgttyb, hcooked.1, hcooked.2]
    rfl
  have hpos : Edits m h (if tp.t_ib = [] then { tp with t_opos := tp.t_hpos } else tp) taken e := by
    split_ifs
    · exact he.same ⟨rfl, rfl, rfl, rfl, rfl, rfl, rfl⟩
    · exact he
  unfold enter
  rw [if_neg (by rw [hb]; decide)]
  dsimp only
  generalize (if tp.t_ib = [] then { tp with t_opos := tp.t_hpos } else tp) = tp₁ at hpos ⊢
  have hcount : tp₁.t_escape = 0 := hpos.esc.trans hesc
  rw [Editor.key, if_pos hesc, if_neg hq, if_neg hk]
  by_cases hE : c = ESC
  · rw [if_pos hE, if_pos hE]
    have hmod : (tp₁.t_escape + 1) % 65536 = 1 := by rw [hcount]
    exact ⟨hpos.line, hmod, hpos.sent, hpos.bound, hpos.flow, hpos.sgttyb, hpos.tchars⟩
  · rw [if_neg hE, if_neg hE, ← unescape_zero hcount]
    by_cases hend : Ends h c
    · have hs := ttstash_end hpos hend hlt
      rwa [hesc] at hs
    · have hbound := hpos.bound
      have hs := ttstash_add hpos.line hpos.sent (by omega) hpos.flow hpos.sgttyb hpos.tchars hend
      rw [hcount, Nat.mod_eq_of_lt hlt] at hs
      rw [Editor.normal, if_neg hend]
      exact hs

lemma accept_spec (he : Edits m h tp taken e) (hesc : e.esc = 0) (hlt : c < 128)
    (hcooked : m.RAWIN = false ∧ m.CBREAK = false) (hq : ¬ Erases m c) (hk : ¬ Kills m c)
    (hfull : (accept dr tp c).t_iq.length < IHILIM) :
    Edits m h (accept dr tp c) taken (e.key m h c) := by
  have hs := enter_spec he hesc hlt hcooked hq hk
  unfold accept at hfull ⊢
  generalize enter tp c = tp₁ at hs hfull ⊢
  dsimp only at hfull ⊢
  have hecho : Edits m h (if tp₁.t_sgttyb.ECHO ∧ (tp₁.t_sgttyb.RAWIN ∨ ¬ tp₁.ISEOF c) then
      ttstart dr (putoq tp₁ c) else tp₁) taken (e.key m h c) := by
    split_ifs
    · exact hs.same (sameInput_putoq.trans sameInput_ttstart)
    · exact hs
  generalize (if tp₁.t_sgttyb.ECHO ∧ (tp₁.t_sgttyb.RAWIN ∨ ¬ tp₁.ISEOF c) then
      ttstart dr (putoq tp₁ c) else tp₁) = tp₂ at hecho hfull ⊢
  by_cases hlen : tp₂.t_iq.length ≥ IHILIM
  · rw [if_pos hlen] at hfull
    exact absurd hlen (not_le.mpr hfull)
  · rw [if_neg hlen]
    split_ifs
    · refine hecho.same (SameInput.trans ?_ sameInput_ttstart)
      exact ⟨rfl, rfl, rfl, rfl, rfl, rfl, rfl⟩
    · exact hecho

/-- **One key**, where there is room for the escapes. -/
lemma ttin_spec (he : Edits m h tp taken e) (hcooked : m.RAWIN = false ∧ m.CBREAK = false)
    (hc : ¬ tp.ISINTR (c % 128) ∧ ¬ tp.ISQUIT (c % 128) ∧ ¬ tp.ISSTOP (c % 128) ∧
      ¬ tp.ISSTART (c % 128)) (hroom : e.Room m h (typed m c))
    (hfull : (ttin dr tp c).t_iq.length < IHILIM) :
    Edits m h (ttin dr tp c) taken (e.key m h (typed m c)) := by
  have hraw : tp.t_sgttyb.RAWIN = false := by rw [he.sgttyb, hcooked.1]
  have hbrk : tp.t_sgttyb.CBREAK = false := by rw [he.sgttyb, hcooked.2]
  have hin : ttin dr tp c = edit dr tp (typed m c) := by
    unfold ttin
    rw [if_neg (by rw [hraw]; decide)]
    dsimp only
    rw [if_neg hc.1, if_neg hc.2.1, if_neg hc.2.2.1, if_neg hc.2.2.2,
      if_neg (by rw [he.flow]; decide), he.sgttyb]
    rfl
  rw [hin] at hfull ⊢
  have hlt : typed m c < 128 := by
    unfold typed
    split_ifs
    · decide
    · exact Nat.mod_lt _ (by decide)
  generalize typed m c = c at *
  by_cases hesc : e.esc = 0
  · have hcount : tp.t_escape = 0 := he.esc.trans hesc
    unfold edit at hfull ⊢
    rw [if_neg (by rw [hcount]; decide)] at hfull ⊢
    by_cases hE : Erases m c
    · -- erase
      have hif : tp.ISERASE c ∧ tp.t_sgttyb.CBREAK = false :=
        ⟨by rw [← he.sgttyb] at hE; exact hE, hbrk⟩
      rw [if_pos hif, unescape_zero hcount, Editor.key, if_pos hesc, if_pos hE]
      dsimp only
      have hline : tp.t_ib.dropLast.map (· % 128) = e.line.dropLast := by
        rw [← he.line, List.map_dropLast]
      cases hlast : tp.t_ib.getLast? with
      | none =>
        have hnil : tp.t_ib = [] := List.getLast?_eq_none_iff.mp hlast
        rw [hnil] at hline
        exact ⟨by rw [hnil]; exact hline, he.esc, he.sent, he.bound, he.flow, he.sgttyb, he.tchars⟩
      | some dc =>
        have hdrop : Edits m h { tp with t_ib := tp.t_ib.dropLast } taken
            { e with line := e.line.dropLast } := by
          refine ⟨hline, he.esc, he.sent, ?_, he.flow, he.sgttyb, he.tchars⟩
          have := he.bound
          dsimp only
          rw [List.length_dropLast]
          omega
        dsimp only
        split_ifs
        · exact hdrop.same sameInput_unecho
        · exact hdrop
    by_cases hK : Kills m c
    · -- kill
      have hif : tp.ISKILL c ∧ tp.t_sgttyb.CBREAK = false :=
        ⟨by rw [← he.sgttyb] at hK; exact hK, hbrk⟩
      have hE' : ¬ (tp.ISERASE c ∧ tp.t_sgttyb.CBREAK = false) := by
        rintro ⟨h1, -⟩
        rw [← he.sgttyb] at hE
        exact hE h1
      rw [if_neg hE', if_pos hif, Editor.key, if_pos hesc, if_neg hE, if_pos hK]
      have hkill : Edits m h { tp with t_ib := [], t_escape := 0 } taken { e with line := [] } :=
        ⟨rfl, hesc.symm, he.sent, Nat.zero_le _, he.flow, he.sgttyb, he.tchars⟩
      dsimp only
      split_ifs
      · exact hkill.same (((sameInput_putoq.trans sameInput_putoq).trans sameInput_putoq).trans
          sameInput_ttstart)
      · exact hkill.same ((sameInput_putoq.trans sameInput_putoq).trans sameInput_ttstart)
      · exact hkill
    · have hE' : ¬ (tp.ISERASE c ∧ tp.t_sgttyb.CBREAK = false) := by
        rintro ⟨h1, -⟩
        rw [← he.sgttyb] at hE
        exact hE h1
      have hK' : ¬ (tp.ISKILL c ∧ tp.t_sgttyb.CBREAK = false) := by
        rintro ⟨h1, -⟩
        rw [← he.sgttyb] at hK
        exact hK h1
      rw [if_neg hE', if_neg hK'] at hfull ⊢
      exact accept_spec he hesc hlt hcooked hE hK hfull
  · exact edit_escaped he hesc hlt hroom

/-! ### Runs -/

lemma relieve_edits (he : Edits m h tp taken e) : Edits m h (relieve dr tp) taken e := by
  unfold relieve
  dsimp only
  split_ifs
  · refine Edits.same ?_ (sameInput_putoq.trans sameInput_ttstart)
    exact ⟨he.line, he.esc, he.sent, he.bound, rfl, he.sgttyb, he.tchars⟩
  · exact ⟨he.line, he.esc, he.sent, he.bound, rfl, he.sgttyb, he.tchars⟩
  · exact he

lemma relieve_t_iq : (relieve dr tp).t_iq = tp.t_iq := by
  unfold relieve
  dsimp only
  split_ifs
  · exact (sameInput_putoq.trans sameInput_ttstart).t_iq
  · rfl
  · rfl

/-- Reading takes characters off the queue. -/
lemma ttread_edits {sioc : ℕ} {buf : List ℕ} (he : Edits m h tp taken e) :
    ∃ cs, tp.t_iq = cs ++ (ttread dr sioc n buf tp).2.2.t_iq ∧
      Edits m h (ttread dr sioc n buf tp).2.2 (taken ++ cs) e := by
  induction n generalizing tp taken buf with
  | zero => exact ⟨[], rfl, by rwa [List.append_nil]⟩
  | succ n ih =>
    rw [ttread]
    split
    next hiq =>
      refine ⟨[], ?_⟩
      rw [List.append_nil, List.nil_append]
      split_ifs
      · exact ⟨rfl, he⟩
      · exact ⟨rfl, he⟩
      · exact ⟨rfl, he.same ⟨rfl, rfl, rfl, rfl, rfl, rfl, rfl⟩⟩
    next c iq hiq =>
      rw [hiq]
      have hcut : Edits m h { tp with t_iq := iq } (taken ++ [c]) e := by
        refine ⟨he.line, he.esc, ?_, he.bound, he.flow, he.sgttyb, he.tchars⟩
        rw [← he.sent, hiq, List.append_assoc]
        rfl
      have hrel : Edits m h (relieve dr { tp with t_iq := iq }) (taken ++ [c]) e :=
        relieve_edits hcut
      have htail : (relieve dr { tp with t_iq := iq }).t_iq = iq := relieve_t_iq
      dsimp only
      generalize relieve dr { tp with t_iq := iq } = tp₁ at *
      split_ifs
      · exact ⟨[c], by rw [htail]; rfl, hrel⟩
      · exact ⟨[c], by rw [htail]; rfl, hrel⟩
      · obtain ⟨cs, h1, h2⟩ : ∃ cs, tp₁.t_iq = cs ++ (ttread dr sioc n (buf ++ [c]) tp₁).2.2.t_iq ∧
            Edits m h (ttread dr sioc n (buf ++ [c]) tp₁).2.2 (taken ++ [c] ++ cs) e := ih hrel
        refine ⟨c :: cs, ?_, ?_⟩
        · rw [List.cons_append, ← h1, htail]
        · rwa [List.append_assoc] at h2

/-- What happens to a terminal: a key, a read from its queue, or anything with its output. The
characters read so far are kept. -/
inductive Step (dr : Driver δ) :
    TTY δ × List ℕ → Option ℕ → TTY δ × List ℕ → Prop
  | key {tp : TTY δ} {taken : List ℕ} {c : ℕ}
      (hc : ¬ tp.ISINTR (c % 128) ∧ ¬ tp.ISQUIT (c % 128) ∧ ¬ tp.ISSTOP (c % 128) ∧
        ¬ tp.ISSTART (c % 128))
      (hfull : (ttin dr tp c).t_iq.length < IHILIM) :
      Step dr (tp, taken) (some c) (ttin dr tp c, taken)
  | read {tp : TTY δ} {taken cs buf : List ℕ} {sioc n : ℕ}
      (hcs : tp.t_iq = cs ++ (ttread dr sioc n buf tp).2.2.t_iq) :
      Step dr (tp, taken) none ((ttread dr sioc n buf tp).2.2, taken ++ cs)
  | output {tp tp' : TTY δ} {taken : List ℕ} (hs : SameInput tp tp') :
      Step dr (tp, taken) none (tp', taken)

def Editor.next (m : Sgttyb) (h : Tchars) (e : Editor) : Option ℕ → Editor
  | none => e
  | some c => e.key m h (typed m c)

def Editor.Ok (m : Sgttyb) (h : Tchars) (e : Editor) : Option ℕ → Prop
  | none => True
  | some c => e.Room m h (typed m c)

instance (m : Sgttyb) (h : Tchars) (e : Editor) (a : Option ℕ) : Decidable (e.Ok m h a) :=
  match a with
  | none => inferInstanceAs (Decidable True)
  | some c => inferInstanceAs (Decidable (e.Room m h (typed m c)))

/-- **Cooked mode edits lines.** Whatever is typed, but for signals and flow control, and whenever
it is read: as long as there is room for the escapes when a character that does not end the line
comes behind them, the buffer holds less than `NCIB` characters, those of the editor's line, and
what is read and still in the queue is what the editor has delivered. -/
theorem cooked_editing {s : TTY δ × List ℕ} {ops : List (Option ℕ)}
    (hcooked : tp.t_sgttyb.RAWIN = false ∧ tp.t_sgttyb.CBREAK = false)
    (hib : tp.t_ib = []) (hesc : tp.t_escape = 0) (hflow : tp.T_ISTOP = false)
    (hrun : Run (Step dr) (tp, []) ops s)
    (hok : Along (Editor.Ok tp.t_sgttyb tp.t_tchars) (Editor.next tp.t_sgttyb tp.t_tchars)
      ⟨[], 0, tp.t_iq⟩ ops) :
    s.1.t_ib.length < NCIB ∧
      s.1.t_ib.map (· % 128) =
        (ops.foldl (Editor.next tp.t_sgttyb tp.t_tchars) ⟨[], 0, tp.t_iq⟩).line ∧
      s.1.t_escape = (ops.foldl (Editor.next tp.t_sgttyb tp.t_tchars) ⟨[], 0, tp.t_iq⟩).esc ∧
      s.2 ++ s.1.t_iq =
        (ops.foldl (Editor.next tp.t_sgttyb tp.t_tchars) ⟨[], 0, tp.t_iq⟩).sent := by
  have hinit : Edits tp.t_sgttyb tp.t_tchars tp [] ⟨[], 0, tp.t_iq⟩ :=
    ⟨by rw [hib]; rfl, hesc, rfl, by rw [hib]; exact Nat.zero_le _, hflow, rfl, rfl⟩
  have hend := Run.follow (R := fun (s : TTY δ × List ℕ) x =>
    Edits tp.t_sgttyb tp.t_tchars s.1 s.2 x) (fun s a t x hR hx hst => ?_) hrun hinit hok
  · have h0 : NCIB - 1 < NCIB := by decide
    exact ⟨lt_of_le_of_lt hend.bound h0, hend.line, hend.esc, hend.sent⟩
  · cases hst with
    | key hc hfull => exact ttin_spec hR hcooked hc hx hfull
    | read hcs =>
      obtain ⟨cs, h1, h2⟩ := ttread_edits hR
      rw [List.append_cancel_right (hcs.symm.trans h1)]
      exact h2
    | output hs => exact hR.same hs

/-- A device that never takes anything. -/
def stuck : Driver Unit := ⟨id, fun _ => ⟨0, (), rfl⟩⟩

/-- A terminal that has just been opened. -/
def opened : TTY Unit :=
  ttopen
    { t_oq := [], t_iq := [], t_ddp := (), T_HILIM := false, T_DRAIN := false, T_INPUT := false
      T_INL := false, T_STOP := false, T_TSTOP := false, T_ISTOP := false, T_CARR := true
      T_BRD := false, t_nfill := 0, t_fillb := 0, t_ib := [], t_hpos := 0, t_opos := 0
      t_sgttyb := ⟨0, 0, false, false, false, false, false, false, false, false⟩
      t_tchars := ⟨0, 0, 0, 0, 0, 0⟩, t_group := 0, t_escape := 0, woken := [] }

/-- A key that is no signal and no flow control, and does not fill the queue. -/
def Typable (s : TTY Unit × List ℕ) : Option ℕ → Prop
  | none => False
  | some c =>
    (¬ s.1.ISINTR (c % 128) ∧ ¬ s.1.ISQUIT (c % 128) ∧ ¬ s.1.ISSTOP (c % 128) ∧
      ¬ s.1.ISSTART (c % 128)) ∧ (ttin stuck s.1 c).t_iq.length < IHILIM

def typing (s : TTY Unit × List ℕ) (a : Option ℕ) : TTY Unit × List ℕ :=
  (ttin stuck s.1 (a.getD 0), s.2)

instance (s : TTY Unit × List ℕ) (a : Option ℕ) : Decidable (Typable s a) :=
  match a with
  | none => inferInstanceAs (Decidable False)
  | some _ => inferInstanceAs (Decidable ((_ ∧ _ ∧ _ ∧ _) ∧ _))

lemma typing_step (s : TTY Unit × List ℕ) (a : Option ℕ) (ha : Typable s a) :
    Step stuck s a (typing s a) := by
  cases a with
  | none => exact ha.elim
  | some c => exact .key ha.1 ha.2

/-- `ab`, erase, an escaped kill, return. -/
def edited : List (Option ℕ) :=
  [some 0x61, some 0x62, some 0x08, some 0x5c, some 0x40, some 0x0d]

theorem cooked_editing_edited :
    (edited.foldl typing (opened, [])).1.t_ib.length < NCIB ∧
      (edited.foldl typing (opened, [])).1.t_ib.map (· % 128) =
        (edited.foldl (Editor.next opened.t_sgttyb opened.t_tchars) ⟨[], 0, opened.t_iq⟩).line ∧
      (edited.foldl typing (opened, [])).1.t_escape =
        (edited.foldl (Editor.next opened.t_sgttyb opened.t_tchars) ⟨[], 0, opened.t_iq⟩).esc ∧
      (edited.foldl typing (opened, [])).2 ++ (edited.foldl typing (opened, [])).1.t_iq =
        (edited.foldl (Editor.next opened.t_sgttyb opened.t_tchars) ⟨[], 0, opened.t_iq⟩).sent :=
  cooked_editing ⟨rfl, rfl⟩ rfl rfl rfl
    (Run.along typing_step (opened, []) edited (by decide +kernel)) (by decide +kernel)

/-- One escape more than the buffer holds, another character, erase, newline. -/
def overlong : List (Option ℕ) :=
  List.replicate NCIB (some 0x5c) ++ [some 0x62, some 0x08, some 0x0a]

/-- With the buffer full, an escape stays counted behind the character that was escaped, and
quotes the erase that comes next. -/
theorem cooked_editing_full : ∃ s : TTY Unit × List ℕ,
    Run (Step stuck) (opened, []) overlong s ∧ s.2 ++ s.1.t_iq ≠
      (overlong.foldl (Editor.next opened.t_sgttyb opened.t_tchars) ⟨[], 0, opened.t_iq⟩).sent := by
  refine ⟨overlong.foldl typing (opened, []), ?_, ?_⟩
  · exact Run.along typing_step (opened, []) overlong (by decide +kernel)
  · decide +kernel

end Coherent.Tty
