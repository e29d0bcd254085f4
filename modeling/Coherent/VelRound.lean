import Coherent.VelFile

/-!
The round trip of a drawing: its attachments, and the whole file.
-/

namespace Coherent.Vellum

open Lib

variable {lib : List SYMDEF} {s s' : State} {c : Char} {P P' : Pools} {o o' : DOBJ} {h h' : Head}
  {a b : Seen} {l : List Char} {qs qs' pre post : List Seen} {hs hs' : List Head} {i : ℕ}
  {e : Bool} {x y : ℤ}

/-! ### Resolving an end -/

/-- An object without what lies in its attachments. -/
def skel (h : Head) : Head := { h with
  on0 := 0
  on1 := 0
  on2 := 0
  on3 := 0 }

/-- The attachment `resolveatt` finds. -/
def found (lib : List SYMDEF) (hs : List Head) (ci : ℕ) (e : Bool) (o : Head) : Best :=
  hs.zipIdx.foldl (fun b x =>
    if x.2 = ci then b
    else (List.range (natt lib x.1)).foldl (tryatt lib (if e then o.o_x2 else o.o_x)
      (if e then o.o_y2 else o.o_y) x.2 x.1) b) ⟨999, -1, ACPT o e⟩

lemma resolveatt_eq (lib : List SYMDEF) (hs : List Head) (ci : ℕ) (e : Bool) (o : Head) :
    resolveatt lib hs ci e o = setAC o e (found lib hs ci e o).acobj (found lib hs ci e o).acpt :=
  rfl

lemma tryatt_cases (lib : List SYMDEF) (tx ty : ℤ) (i : ℕ) (h : Head) (m : Best) (k : ℕ) :
    tryatt lib tx ty i h m k = m ∨ ∃ d, tryatt lib tx ty i h m k = ⟨d, i, k⟩ := by
  unfold tryatt
  dsimp only
  generalize (if short ((attpos lib h k).1 - tx) < 0 then _ else _) = dx
  generalize (if short ((attpos lib h k).2 - ty) < 0 then _ else _) = dy
  split_ifs
  · exact .inl rfl
  · exact .inr ⟨_, rfl⟩
  · exact .inl rfl

/-- Nothing is found, or an object is. -/
lemma found_cases (lib : List SYMDEF) (hs : List Head) (ci : ℕ) (e : Bool) (o : Head) :
    (found lib hs ci e o).acobj = -1 ∧ (found lib hs ci e o).acpt = ACPT o e ∨
      0 ≤ (found lib hs ci e o).acobj := by
  let good : Best → Prop := fun b => b.acobj = -1 ∧ b.acpt = ACPT o e ∨ 0 ≤ b.acobj
  have htry : ∀ (tx ty : ℤ) (i : ℕ) (h : Head) (ks : List ℕ) (b : Best), good b →
      good (ks.foldl (tryatt lib tx ty i h) b) := by
    intro tx ty i h ks
    induction ks with
    | nil => exact fun b hb => hb
    | cons k ks ih =>
      intro b hb
      refine ih _ ?_
      rcases tryatt_cases lib tx ty i h b k with he | ⟨d, he⟩
      · rwa [he]
      · rw [he]
        exact .inr (Int.natCast_nonneg i)
  have hall : ∀ (xs : List (Head × ℕ)) (b : Best), good b → good (xs.foldl (fun b x =>
      if x.2 = ci then b
      else (List.range (natt lib x.1)).foldl (tryatt lib (if e then o.o_x2 else o.o_x)
        (if e then o.o_y2 else o.o_y) x.2 x.1) b) b) := by
    intro xs
    induction xs with
    | nil => exact fun b hb => hb
    | cons x xs ih =>
      intro b hb
      refine ih _ ?_
      dsimp only
      by_cases hx : x.2 = ci
      · rwa [if_pos hx]
      · rw [if_neg hx]
        exact htry _ _ _ _ _ _ hb
  exact hall hs.zipIdx _ (.inl ⟨rfl, rfl⟩)

/-- What is found does not depend on the attachments there are. -/
lemma found_congr (hh : hs.map skel = hs'.map skel) (ho : skel h = skel h')
    (hp : ACPT h e = ACPT h' e) : found lib hs i e h = found lib hs' i e h' := by
  have key : ∀ (ks : List Head) (o : Head), found lib ks i e o
      = found lib (ks.map skel) i e { skel o with
          on1 := o.on1
          on3 := o.on3 } := by
    intro ks o
    unfold found
    rw [List.zipIdx_map, List.foldl_map]
    rfl
  have hx : (skel h).o_x = (skel h').o_x ∧ (skel h).o_y = (skel h').o_y ∧
      (skel h).o_x2 = (skel h').o_x2 ∧ (skel h).o_y2 = (skel h').o_y2 := by simp only [ho, and_self]
  change h.o_x = h'.o_x ∧ h.o_y = h'.o_y ∧ h.o_x2 = h'.o_x2 ∧ h.o_y2 = h'.o_y2 at hx
  rw [key hs, key hs', hh]
  unfold found
  have hacpt : ∀ o : Head, ACPT { skel o with
      on1 := o.on1
      on3 := o.on3 } e = ACPT o e := fun _ => rfl
  rw [hacpt, hacpt, hp]
  simp only [skel, hx.1, hx.2.1, hx.2.2.1, hx.2.2.2]

/-! ### Resolving all ends -/

/-- One end of object `i`, against the objects `hs`. -/
def fixend (lib : List SYMDEF) (hs : List Head) (i : ℕ) (e : Bool) (h : Head) : Head :=
  if h.o_type = .CONN ∧ ACOBJ h e = -2 then resolveatt lib hs i e h else h

/-- Both ends. -/
def fixhead (lib : List SYMDEF) (hs : List Head) (i : ℕ) (h : Head) : Head :=
  fixend lib hs i true (fixend lib hs i false h)

lemma skel_setAC (h : Head) (e : Bool) (m k : ℤ) : skel (setAC h e m k) = skel h := by
  cases e <;> rfl

lemma skel_fixend : skel (fixend lib hs i e h) = skel h := by
  unfold fixend
  split_ifs
  · exact skel_setAC _ _ _ _
  · rfl

lemma skel_fixhead : skel (fixhead lib hs i h) = skel h := by
  rw [fixhead, skel_fixend, skel_fixend]

lemma fixend_congr (hh : hs.map skel = hs'.map skel) :
    fixend lib hs i e h = fixend lib hs' i e h := by
  unfold fixend
  rw [resolveatt_eq, resolveatt_eq, found_congr hh rfl rfl]

lemma fixhead_congr (hh : hs.map skel = hs'.map skel) :
    fixhead lib hs i h = fixhead lib hs' i h := by
  rw [fixhead, fixhead, fixend_congr hh, fixend_congr hh]

/-- The fields of the objects. -/
def heads (obj : List DOBJ) : List Head := obj.map (·.toHead)

def DOBJ.fix (lib : List SYMDEF) (hs : List Head) (i : ℕ) (o : DOBJ) : DOBJ :=
  ⟨fixhead lib hs i o.toHead, o.o_val⟩

lemma resolveend_getElem? (lib : List SYMDEF) (i : ℕ) (obj : List DOBJ) (e : Bool) (j : ℕ) :
    (resolveend lib i obj e)[j]? = (obj[j]?).map fun o =>
      if j = i then ⟨fixend lib (heads obj) i e o.toHead, o.o_val⟩ else o := by
  unfold resolveend
  rcases ho : obj[i]? with _ | o
  · simp only
    rcases hj : obj[j]? with _ | o'
    · rfl
    · have hne : j ≠ i := by
        rintro rfl
        rw [ho] at hj
        cases hj
      simp [hne]
  · simp only
    have hi : i < obj.length := (List.getElem?_eq_some_iff.mp ho).1
    by_cases hc : o.o_type = .CONN ∧ ACOBJ o.toHead e = -2
    · rw [if_pos hc]
      by_cases hji : j = i
      · subst hji
        rw [List.getElem?_set_self hi, ho, Option.map_some, if_pos rfl, fixend, if_pos hc]
        rfl
      · rw [List.getElem?_set_ne (Ne.symm hji)]
        simp [hji]
    · rw [if_neg hc]
      by_cases hji : j = i
      · subst hji
        rw [ho, Option.map_some, if_pos rfl, fixend, if_neg hc]
      · simp [hji]

lemma skel_resolveend (lib : List SYMDEF) (i : ℕ) (obj : List DOBJ) (e : Bool) :
    (heads (resolveend lib i obj e)).map skel = (heads obj).map skel := by
  refine List.ext_getElem? fun j => ?_
  simp only [heads, List.getElem?_map, resolveend_getElem?, Option.map_map]
  congr 1
  funext o
  simp only [Function.comp_apply]
  split_ifs
  · exact skel_fixend
  · rfl

/-- The objects when the first `n` have been resolved. -/
def resolved (lib : List SYMDEF) (obj : List DOBJ) (n : ℕ) : List DOBJ :=
  (List.range n).foldl (fun obj i => [false, true].foldl (resolveend lib i) obj) obj

lemma resolved_succ (lib : List SYMDEF) (obj : List DOBJ) (n : ℕ) : resolved lib obj (n + 1)
    = resolveend lib n (resolveend lib n (resolved lib obj n) false) true := by
  rw [resolved, List.range_succ, List.foldl_append]
  rfl

lemma skel_resolved (lib : List SYMDEF) (obj : List DOBJ) (n : ℕ) :
    (heads (resolved lib obj n)).map skel = (heads obj).map skel := by
  induction n with
  | zero => rfl
  | succ n ih => rw [resolved_succ, skel_resolveend, skel_resolveend, ih]

lemma resolved_getElem? (lib : List SYMDEF) (obj : List DOBJ) (n j : ℕ) :
    (resolved lib obj n)[j]? = (obj[j]?).map fun o =>
      if j < n then o.fix lib (heads obj) j else o := by
  induction n with
  | zero => simp [resolved]
  | succ n ih =>
    have hskel := skel_resolved lib obj n
    have h0 := skel_resolveend lib n (resolved lib obj n) false
    rw [resolved_succ, resolveend_getElem?, resolveend_getElem?, ih, Option.map_map,
      Option.map_map]
    congr 1
    funext o
    simp only [Function.comp_apply]
    rcases lt_trichotomy j n with hj | rfl | hj
    · rw [if_neg (by omega), if_neg (by omega), if_pos hj, if_pos (by omega)]
    · rw [if_pos rfl, if_pos rfl, if_neg (by omega), if_pos (by omega),
        fixend_congr (h0.trans hskel), fixend_congr hskel]
      rfl
    · rw [if_neg (by omega), if_neg (by omega), if_neg (by omega), if_neg (by omega)]

/-- **Resolving in place** gives each object what it would get from the objects as they were. -/
theorem resolveall_eq (lib : List SYMDEF) (obj : List DOBJ) :
    resolveall lib obj = obj.mapIdx fun i o => o.fix lib (heads obj) i := by
  refine List.ext_getElem? fun j => ?_
  change (resolved lib obj obj.length)[j]? = _
  rw [resolved_getElem?, List.getElem?_mapIdx]
  rcases ho : obj[j]? with _ | o
  · rfl
  · rw [Option.map_some, Option.map_some, if_pos (List.getElem?_eq_some_iff.mp ho).1]

/-! ### Resolving again -/

lemma fixend_ne (hk : h.o_type ≠ .CONN) : fixend lib hs i e h = h := if_neg fun h => hk h.1

lemma fixhead_ne (hk : h.o_type ≠ .CONN) : fixhead lib hs i h = h := by
  rw [fixhead, fixend_ne hk, fixend_ne hk]

/-- What one end becomes. -/
def endval (lib : List SYMDEF) (hs : List Head) (i : ℕ) (e : Bool) (h : Head) : ℤ × ℤ :=
  if ACOBJ h e = -2 then ((found lib hs i e h).acobj, (found lib hs i e h).acpt)
  else (ACOBJ h e, ACPT h e)

/-- A connector when both ends have been resolved. -/
lemma fixhead_conn (hk : h.o_type = .CONN) : fixhead lib hs i h = { h with
    on0 := (endval lib hs i false h).1
    on1 := (endval lib hs i false h).2
    on2 := (endval lib hs i true h).1
    on3 := (endval lib hs i true h).2 } := by
  have h0 : fixend lib hs i false h = { h with
      on0 := (endval lib hs i false h).1
      on1 := (endval lib hs i false h).2 } := by
    unfold fixend endval
    by_cases hc : ACOBJ h false = -2
    · rw [if_pos ⟨hk, hc⟩, if_pos hc, resolveatt_eq]
      rfl
    · rw [if_neg fun hh => hc hh.2, if_neg hc]
      rfl
  have h1 : ∀ h' : Head, h'.o_type = .CONN → fixend lib hs i true h' = { h' with
      on2 := (endval lib hs i true h').1
      on3 := (endval lib hs i true h').2 } := by
    intro h' hk'
    unfold fixend endval
    by_cases hc : ACOBJ h' true = -2
    · rw [if_pos ⟨hk', hc⟩, if_pos hc, resolveatt_eq]
      rfl
    · rw [if_neg fun hh => hc hh.2, if_neg hc]
      rfl
  have hend : endval lib hs i true { h with
      on0 := (endval lib hs i false h).1
      on1 := (endval lib hs i false h).2 } = endval lib hs i true h := by
    unfold endval
    rw [found_congr (rfl : hs.map skel = hs.map skel) (rfl : skel { h with
      on0 := _
      on1 := _ } = skel h) rfl]
    rfl
  rw [fixhead, h0]
  refine (h1 _ (by exact hk)).trans ?_
  rw [hend]

/-- An end that has been resolved, and forgotten, is resolved to the same place. -/
lemma endval_again {h1 : Head} (hsk : skel h1 = skel h)
    (he : ACOBJ h e = -1 ∨ ACOBJ h e = -2) (h0 : ACPT h e = 0)
    (hob : ACOBJ h1 e = if 0 ≤ (endval lib hs i e h).1 then -2 else -1) (hpt : ACPT h1 e = 0) :
    endval lib hs i e h1 = endval lib hs i e h := by
  have hf : found lib hs i e h1 = found lib hs i e h := found_congr rfl hsk (hpt.trans h0.symm)
  have hcases := found_cases lib hs i e h
  unfold endval at hob ⊢
  rw [hf]
  rcases he with he | he
  · -- free from the start
    have hne : ¬ ACOBJ h e = -2 := by rw [he]; decide
    rw [if_neg hne, he] at hob
    have hob' : ACOBJ h1 e = -1 := hob
    have hne' : ¬ ACOBJ h1 e = -2 := by rw [hob']; decide
    rw [if_neg hne, if_neg hne', he, hob', h0, hpt]
  · rw [if_pos he] at hob ⊢
    rcases hcases with ⟨hn, hp⟩ | hpos
    · -- nothing found
      rw [hn] at hob
      have hob' : ACOBJ h1 e = -1 := hob
      have hne' : ¬ ACOBJ h1 e = -2 := by rw [hob']; decide
      rw [if_neg hne', hob', hpt, hn, hp, h0]
    · have hob' : ACOBJ h1 e = -2 := hob.trans (if_pos hpos)
      rw [if_pos hob']

/-- **Resolving a saved drawing** attaches its connectors to the same places. -/
theorem fixhead_again (hends : Ends h) :
    fixhead lib hs i (unres (fixhead lib hs i h)) = fixhead lib hs i h := by
  by_cases hk : h.o_type = .CONN
  · obtain ⟨e0, p0, e1, p1⟩ := hends hk
    have hfix := @fixhead_conn lib h hs i hk
    have hk1 : (fixhead lib hs i h).o_type = .CONN := by rw [hfix]; exact hk
    obtain ⟨h1, hh1⟩ : ∃ h1 : Head, h1 = { h with
        on0 := if 0 ≤ (endval lib hs i false h).1 then -2 else -1
        on1 := 0
        on2 := if 0 ≤ (endval lib hs i true h).1 then -2 else -1
        on3 := 0 } := ⟨_, rfl⟩
    have hun : unres (fixhead lib hs i h) = h1 := by
      rw [unres, if_pos hk1, hfix, hh1]
    have hsk : skel h1 = skel h := by rw [hh1]; rfl
    have h0 : endval lib hs i false h1 = endval lib hs i false h :=
      endval_again hsk e0 p0 (by rw [hh1]; rfl) (by rw [hh1]; rfl)
    have h2 : endval lib hs i true h1 = endval lib hs i true h :=
      endval_again hsk e1 p1 (by rw [hh1]; rfl) (by rw [hh1]; rfl)
    rw [hun, fixhead_conn (by rw [hh1]; exact hk), h0, h2, hfix, hh1]
  · rw [fixhead_ne hk, unres, if_neg hk, fixhead_ne hk]

/-! ### The objects of a drawing that has been loaded -/

/-- An object with its ends resolved. -/
def Seen.fix (lib : List SYMDEF) (hs : List Head) (i : ℕ) (a : Seen) : Seen :=
  ⟨fixhead lib hs i a.toHead, a.val, a.pts⟩

/-- An object without what lies in its attachments. -/
def Seen.bare (a : Seen) : Seen := ⟨skel a.toHead, a.val, a.pts⟩

def seenheads (qs : List Seen) : List Head := qs.map (·.toHead)

/-- The objects with their ends resolved. -/
def fixall (lib : List SYMDEF) (qs : List Seen) : List Seen :=
  qs.mapIdx fun i a => a.fix lib (seenheads qs) i

lemma bare_fix : (a.fix lib hs i).bare = a.bare := by
  rw [Seen.bare, Seen.fix]
  simp only [skel_fixhead]
  rfl

lemma seen_fix (P : Pools) (o : DOBJ) : seen P (o.fix lib hs i) = (seen P o).fix lib hs i := by
  have hsk : skel (fixhead lib hs i o.toHead) = skel o.toHead := skel_fixhead
  have ht : (o.fix lib hs i).o_type = o.o_type := congrArg (·.o_type) hsk
  have hn : (o.fix lib hs i).o_sym = o.o_sym := congrArg (·.o_sym) hsk
  have hx : (o.fix lib hs i).o_x2 = o.o_x2 := congrArg (·.o_x2) hsk
  have hv : (o.fix lib hs i).o_val = o.o_val := rfl
  have ho : oval P (o.fix lib hs i) = oval P o := rfl
  rw [seen, ht, hn, hx, hv, ho]
  rfl

lemma heads_faces (s : State) : heads s.obj = seenheads (faces s) := by
  rw [heads, seenheads, faces, List.map_map]
  rfl

/-- **What a load does with the objects it has read.** -/
lemma faces_resolveall (lib : List SYMDEF) (s : State) :
    faces { s with obj := resolveall lib s.obj } = fixall lib (faces s) := by
  rw [fixall, ← heads_faces, faces, faces, resolveall_eq]
  refine List.ext_getElem? fun j => ?_
  simp only [List.getElem?_map, List.getElem?_mapIdx, Option.map_map]
  congr 1
  funext o
  exact seen_fix _ o

lemma bare_fixall (lib : List SYMDEF) (qs : List Seen) :
    (fixall lib qs).map Seen.bare = qs.map Seen.bare := by
  refine List.ext_getElem? fun j => ?_
  simp only [fixall, List.getElem?_map, List.getElem?_mapIdx, Option.map_map]
  congr 1
  funext a
  exact bare_fix

lemma ptsum_bare (qs : List Seen) : ptsum (qs.map Seen.bare) = ptsum qs := by
  rw [ptsum, List.map_map]
  rfl

lemma txsum_bare (qs : List Seen) : txsum (qs.map Seen.bare) = txsum qs := by
  rw [txsum, List.map_map]
  rfl

lemma gids_bare (qs : List Seen) : gids (qs.map Seen.bare) = gids qs := by
  rw [gids, List.map_map]
  rfl

lemma lastgrp_bare (qs : List Seen) : lastgrp (qs.map Seen.bare) = lastgrp qs := by
  rw [lastgrp, List.getLast?_map, Option.map_map]
  rfl

lemma follows_bare : Follows (pre.map Seen.bare) a.bare ↔ Follows pre a := by
  rw [Follows, ptsum_bare, lastgrp_bare, gids_bare]
  exact Iff.rfl

/-- Where the objects stand does not depend on the attachments. -/
lemma Placed.congr (hq : Placed qs) (h : qs.map Seen.bare = qs'.map Seen.bare) : Placed qs' := by
  intro pre a post he
  rw [he, List.map_append, List.map_cons] at h
  obtain ⟨pre', rest, rfl, hpre, hrest⟩ := List.map_eq_append_iff.mp h
  obtain ⟨a', post', rfl, ha, -⟩ := List.map_eq_cons_iff.mp hrest
  have := follows_bare.mpr (hq pre' a' post' rfl)
  rw [hpre, ha] at this
  exact follows_bare.mp this

lemma Canon.fix (ha : Canon lib a) : Canon lib (a.fix lib hs i) := by
  by_cases hk : a.o_type = .CONN
  · rw [Seen.fix, fixhead_conn hk]
    cases ha with
    | conn hi hx hy hx2 hy2 hf hl => exact .conn hi hx hy hx2 hy2 hf hl
    | two ht => exact absurd hk (twoPoints_ne ht).2.2
    | sym | text | shape | poly | arc | nname | dim => cases hk
  · rw [Seen.fix, fixhead_ne hk]
    exact ha

/-- Resolving the ends leaves a list of objects as a load can have read it. -/
lemma Loaded.fixall (hq : Loaded lib qs) : Loaded lib (fixall lib qs) := by
  have hb := bare_fixall lib qs
  refine ⟨fun b hb => ?_, hq.placed.congr hb.symm, ?_, ?_, ?_⟩
  · obtain ⟨i, hi, rfl⟩ := List.mem_mapIdx.mp hb
    exact (hq.canon _ (List.getElem_mem hi)).fix
  · rw [Coherent.Vellum.fixall, List.length_mapIdx]
    exact hq.len
  · rw [← ptsum_bare, hb, ptsum_bare]
    exact hq.pts
  · rw [← txsum_bare, hb, txsum_bare]
    exact hq.txt

lemma unres_grp (h : Head) : (unres h).o_grp = h.o_grp := by
  unfold unres
  split <;> rfl

/-- The fields of an object as it is read back. -/
lemma back_toHead (a : Seen) : a.back.toHead = unres a.toHead := by
  rw [Seen.back, Seen.setgrp, again]
  dsimp only
  rw [← unres_grp]

lemma skel_unres (h : Head) : skel (unres h) = skel h := by
  unfold unres
  split <;> rfl

/-- **Resolving what has been read back** gives the drawing that was written. -/
theorem fixall_back (hends : ∀ a ∈ qs, Ends a.toHead) :
    fixall lib ((fixall lib qs).map Seen.back) = fixall lib qs := by
  have hsk : (seenheads ((fixall lib qs).map Seen.back)).map skel = (seenheads qs).map skel := by
    refine List.ext_getElem? fun j => ?_
    simp only [seenheads, fixall, List.getElem?_map, List.getElem?_mapIdx, Option.map_map]
    congr 1
    funext a
    simp only [Function.comp_apply, back_toHead, skel_unres]
    exact skel_fixhead
  have hall : ∀ j, (fixall lib qs)[j]? = (qs[j]?).map fun a : Seen => a.fix lib (seenheads qs) j :=
    fun j => by rw [fixall, List.getElem?_mapIdx]
  generalize fixall lib qs = rs at hsk hall ⊢
  refine List.ext_getElem? fun j => ?_
  rw [fixall, List.getElem?_mapIdx, List.getElem?_map, hall]
  rcases ha : qs[j]? with _ | a
  · rfl
  · have hend : Ends a.toHead := hends a (List.mem_of_getElem? ha)
    simp only [Option.map_some, Option.some.injEq]
    rw [Seen.fix, fixhead_congr hsk, back_toHead]
    simp only [Seen.fix]
    rw [fixhead_again hend]
    rfl

/-! ### The header of a file -/

lemma load_magic (s : State) (r : List Char) :
    loadlines lib s (lines ("vellum1".toList ++ '\n' :: r)) = loadlines lib s (lines r) := by
  obtain ⟨e, he, hload⟩ := load_line (l := "vellum1".toList) lib s r (by decide)
    (by decide) (by decide)
  have htok : ∃ t p, tok ("vellum1".toList ++ e) = some ('v' :: t, p) := by
    rcases he with rfl | rfl
    · exact ⟨_, _, rfl⟩
    · exact ⟨_, _, rfl⟩
  obtain ⟨t, p, htok⟩ := htok
  have hskip : loadline lib s ("vellum1".toList ++ e) = s := by
    rw [loadline, parseobj, htok]
    simp
  rw [hload, hskip]

/-- The line of the sheet units. -/
def unitline (s : State) : List Char := 'U' :: sp [dec s.unum, dash s.uname]

lemma field_facts {k : ℕ} {v : List Char} (hv : Field k v) : '\n' ∉ dash v ∧ NUL ∉ dash v :=
  ⟨nl_word (clean_dash hv).1, (clean_dash hv).2⟩

lemma unitline_facts (hu : Units s) :
    '\n' ∉ unitline s ∧ NUL ∉ unitline s ∧ (unitline s).length < LBUF := by
  obtain ⟨-, -, hf⟩ := hu
  have key : ∀ k, k ≠ 'U' → k ≠ ' ' → k ∉ dec s.unum → k ∉ dash s.uname → k ∉ unitline s := by
    intro k h1 h2 h3 h4 h
    rcases List.mem_cons.mp h with h | h
    · exact h1 h
    · rcases mem_sp h with h | ⟨w, hw, h⟩
      · exact h2 h
      · rcases List.mem_cons.mp hw with rfl | hw
        · exact h3 h
        · rw [List.mem_singleton.mp hw] at h
          exact h4 h
  refine ⟨key _ (by decide) (by decide) (nl_word (isWord_dec _)) (field_facts hf).1,
    key _ (by decide) (by decide) (nul_dec _) (field_facts hf).2, ?_⟩
  have h1 := length_dec_le s.unum
  have h2 := length_dash hf (by decide)
  rw [unitline, List.length_cons, length_sp]
  simp only [List.map_cons, List.map_nil, List.sum_cons, List.sum_nil, LBUF]
  omega

lemma parseobj_units {e : List Char} (hu : Units s') (h0 : s.uname = []) (he : LineEnd e) :
    parseobj lib s (unitline s' ++ e) = { s with
      unum := s'.unum
      uname := s'.uname } := by
  obtain ⟨hpos, hlt, hf⟩ := hu
  have hw : Word ['U'] := ⟨by decide, List.all_eq_true.mp (by decide)⟩
  have ht : tok (unitline s' ++ e) = some (['U'], (sp [dec s'.unum, dash s'.uname] ++ e).drop 1) :=
    Words.next_word (w := ['U']) (r := sp [dec s'.unum, dash s'.uname] ++ e) hw
      (Words.ended_spaced inner_space he.ended)
  have hd : atoi (dec s'.unum) = s'.unum :=
    atoi_dec_self (by unfold Short; omega)
  rw [parseobj, ht]
  simp only [List.getD_cons_zero]
  rw [if_neg (by decide), if_neg (by decide), if_pos trivial, parseunits,
    tok_sp (isWord_dec _) he.ended]
  simp only [hd]
  rw [if_pos hpos, tok_sp (clean_dash hf).1 he.ended]
  simp only
  rcases hf with h | ⟨-, hne, hlen, -⟩
  · rw [if_pos (by rw [h]; rfl), h, h0]
  · have hdash : dash s'.uname = s'.uname ∨ s'.uname = [] := by
      by_cases h : s'.uname = []
      · exact .inr h
      · exact .inl (if_neg h)
    rcases hdash with h | h
    · rw [h, if_neg hne, List.take_of_length_le (show s'.uname.length ≤ UNAMEL - 1 from hlen)]
    · rw [if_pos (by rw [h]; rfl), h, h0]

/-- **The units are read back**, and the objects behind them. -/
lemma load_units (lib : List SYMDEF) (hu : Units s') (h1 : s.unum = 1) (h0 : s.uname = []) (hlen : s.obj.length < MAXOBJ)
    (r : List Char) : loadlines lib s (lines (unithead s' ++ r)) = loadlines lib { s with
      unum := s'.unum
      uname := s'.uname } (lines r) := by
  unfold unithead
  split_ifs with hc
  · obtain ⟨hn1, hn2, hshort⟩ := unitline_facts hu
    obtain ⟨e, he, hload⟩ := load_line lib s r hn1 hn2 hshort
    change loadlines lib s (lines ((unitline s' ++ ['\n']) ++ r)) = _
    rw [List.append_assoc, List.singleton_append, hload, loadline_eq hlen,
      parseobj_units hu h0 he]
  · rw [not_or, not_not, not_not] at hc
    obtain ⟨_, _, _, _, _, _, _⟩ := s
    subst h1 h0
    rw [hc.1, hc.2]
    rfl

/-! ### The round trip -/

/-- The same drawing: the same objects, in the same groups, and the same units. -/
structure Same (s s' : State) : Prop where
  objects : faces s' = faces s
  units : (s'.unum, s'.uname) = (s.unum, s.uname)

/-- Every line of the drawing fits into the buffers, and a load of what is written, from any
state, gives the drawing back. -/
structure RoundTrip (lib : List SYMDEF) (s : State) : Prop where
  fits : ∀ a ∈ faces s, ∃ l, fmtobj lib a = some l ∧ l.length < LBUF
  back : ∃ file, writefile lib s = some file ∧ ∀ s', Same s (loadfile lib s' file)

lemma loadstart_back (s : State) (u : ℤ × List Char) : Back u [] { loadstart s with
    unum := u.1
    uname := u.2 } :=
  ⟨rfl, rfl, fun _ h => absurd h List.not_mem_nil, rfl, rfl⟩

lemma writeobjs_some {P : Pools} {os : List DOBJ} (prev : Option ℕ)
    (hw : ∀ a ∈ os.map (seen P), ∃ l, fmtobj lib a = some l) :
    ∃ body, writeobjs lib P prev os = some body := by
  induction os generalizing prev with
  | nil => exact ⟨[], rfl⟩
  | cons o os ih =>
    obtain ⟨l, hl⟩ := hw _ List.mem_cons_self
    obtain ⟨rest, hrest⟩ := ih (some o.o_grp)
      fun a ha => hw a (List.mem_cons_of_mem _ ha)
    rw [writeobjs, hl]
    simp only [Option.bind_eq_bind, Option.bind_some]
    rw [hrest]
    exact ⟨_, rfl⟩

/-- A drawing whose objects are as a load leaves them is written and read back. -/
theorem roundtrip_of_fitting (hs : Reading lib s)
    (hf : ∀ a ∈ fixall lib (faces s), Fitting a) :
    RoundTrip lib { s with obj := resolveall lib s.obj } := by
  have hfaces := faces_resolveall lib s
  have hq := hs.loaded.fixall
  obtain ⟨m, hm⟩ : ∃ m : State, m = { s with obj := resolveall lib s.obj } := ⟨_, rfl⟩
  have hunits : Units m := by rw [hm]; exact hs.units
  rw [← hm] at hfaces ⊢
  rw [← hfaces] at hq hf
  have hline : ∀ a ∈ faces m, ∃ l, fmtobj lib a = some l ∧ l.length < LBUF := fun a ha =>
    (fitting_iff (hq.canon a ha)).mp (hf a ha)
  have hwritten : ∀ a ∈ faces m, Written lib a := by
    intro a ha
    obtain ⟨l, hl, hlen⟩ := hline a ha
    obtain ⟨l', hl', hreads⟩ := canon_reads (hq.canon a ha) (endFits_of_some hl)
    rw [hl, Option.some.injEq] at hl'
    exact ⟨l, hl, hl' ▸ hreads, hlen⟩
  obtain ⟨body, hbody⟩ := writeobjs_some none (P := m.pools)
    fun a ha => (hline a ha).imp fun l hl => hl.1
  refine ⟨hline, _, by rw [writefile, hbody]; rfl, fun s' => ?_⟩
  -- the second load
  obtain ⟨s1, hs1⟩ : ∃ s1 : State, s1 = { loadstart s' with
    unum := m.unum
    uname := m.uname } := ⟨_, rfl⟩
  have hload : loadlines lib (loadstart s') (lines ("vellum1".toList ++ '\n'
      :: (unithead m ++ body))) = loadlines lib s1 (lines body) := by
    have hu := load_units (s := loadstart s') lib hunits rfl rfl
      (show 0 < MAXOBJ by decide) body
    rw [load_magic, hu, hs1]
  have hback := @back_objects lib s1 [] (m.unum, m.uname) m.pools m.obj body hq hwritten (by rw [hs1]; exact loadstart_back s' _)
    (by rw [hs1]; rfl) hbody
  rw [← hload, List.nil_append] at hback
  have hfix : fixall lib ((faces m).map Seen.back) = faces m := by
    rw [hfaces]
    exact fixall_back hs.ends
  refine ⟨?_, hback.units⟩
  change faces { loadlines lib (loadstart s') _ with obj := resolveall lib _ } = _
  rw [faces_resolveall]
  exact (congrArg _ hback.faces).trans hfix

/-- No line of the file hands `setoval` a text that begins with the mark. -/
lemma unmarked_of_lines {file : List Char} (h : ∀ n < (lines file).length,
    (linetext (loadlines lib (loadstart s) ((lines file).take n)) ((lines file)[n]?.getD [])).bind
      List.head? ≠ some MARK) : Unmarked lib s file := by
  intro ls l ls' he _ t ht hmark
  refine h ls.length (by rw [he]; simp) ?_
  have htake : (lines file).take ls.length = ls := by rw [he]; simp
  have hget : (lines file)[ls.length]?.getD [] = l := by rw [he]; simp
  rw [htake, hget, ht]
  exact hmark

/-- An editor that has read nothing. -/
def emptydoc : State :=
  ⟨[], fun _ => ⟨zero, fun _ => NUL⟩, ⟨fun _ => 0, 0, fun _ => NUL, 0⟩, 1, [], 0, 0⟩

/-- A group of a polyline and a wire, and a connector. -/
def smallfile : List Char :=
  "vellum1\nG 2\nP 2 0 0 10 -20\nW 1 2 3 4 /1.2\nK hv 1 2 16 2 @ -\n".toList

instance (a : Seen) : Decidable (Fitting a) :=
  decidable_of_iff ((a.o_type = .POLY → polywidth a < LBUF) ∧
    (a.o_type = .CONN → 0 ≤ a.on2 → declen a.o_x2 + declen a.o_y2 ≤ 11))
    ⟨fun h => ⟨h.1, h.2⟩, fun h => ⟨h.poly, h.conn⟩⟩

/-- A polyline of 20 points in a line of 216 characters: 33 of its numbers are read as `-25536`,
which is one character longer. -/
def longfile : List Char :=
  "P 20".toList ++ ((List.replicate 33 " 40000".toList).flatten
    ++ (List.replicate 7 " 1".toList).flatten)

end Coherent.Vellum
