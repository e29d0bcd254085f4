import Coherent.Layers

/-!
The update messages of the layer engine (`perform_update`).

A layer operation leaves a table of damaged rectangles, each with the number of its window. An
ordinary window gets one message with a rectangle around all of its entries; a smart-update window
gets one message for each entry, but with the rectangle of the entry whose place in the table is
the number of the window. So no damage is lost whatever the rectangles are, just when each entry
of a smart-update window stands at that place.
-/

namespace Coherent.Damage

open Coherent.Layers

def MAX_WINDOWS : ℕ := 16
def MAX_UPBUF : ℕ := 50

def R_addp (r : RECT) (p : POINT) : RECT :=
  ⟨⟨r.origin.x + p.x, r.origin.y + p.y⟩, ⟨r.corner.x + p.x, r.corner.y + p.y⟩⟩

def R_subp (r : RECT) (p : POINT) : RECT :=
  ⟨⟨r.origin.x - p.x, r.origin.y - p.y⟩, ⟨r.corner.x - p.x, r.corner.y - p.y⟩⟩

/-- An entry of the table `update`; it is not used where `wid` is -1. -/
structure UPDATE where
  wid : ℤ
  r : RECT
  deriving DecidableEq

/-- What `perform_update` asks of the windows: if `wn_Type` has `WT_SMARTUPDATE`, if the manager is
that of text windows, the origin of the layer and `wn_Lorigin`. -/
structure Wtbl where
  smart : ℕ → Bool
  text : ℕ → Bool
  origin : ℕ → POINT
  wn_Lorigin : ℕ → POINT

/-- What goes out for a window, with `gfx_uprect`. The content of a text window is drawn here
(`redraw_map`) in place of a message. -/
inductive Msg where
  | WM_UPDATE (wid : ℕ) (gfx_uprect : RECT)
  | WM_RGNUPDATE (wid : ℕ) (gfx_uprect : RECT) (rgn : RECT)
  | redraw_map (wid : ℕ) (gfx_uprect : RECT)
  deriving DecidableEq

/-- The rectangle around two rectangles. -/
def around (r s : RECT) : RECT :=
  ⟨⟨min s.origin.x r.origin.x, min s.origin.y r.origin.y⟩,
    ⟨max s.corner.x r.corner.x, max s.corner.y r.corner.y⟩⟩

/-- One turn of the loop that takes the other entries of an ordinary window into the first. -/
def merge (i j : ℕ) (update : ℕ → UPDATE) (k : ℕ) : ℕ → UPDATE :=
  if (update k).wid = i then
    Function.update
      (Function.update update j { update j with r := around (update j).r (update k).r })
      k { update k with wid := -1 }
  else update

def mergeAll (i j : ℕ) (update : ℕ → UPDATE) : ℕ → UPDATE :=
  (List.range' (j + 1) (MAX_UPBUF - (j + 1))).foldl (merge i j) update

/-- The entry `j` against the window `i`. -/
def entry (w : Wtbl) (i : ℕ) (s : (ℕ → UPDATE) × List Msg) (j : ℕ) : (ℕ → UPDATE) × List Msg :=
  if (s.1 j).wid = i then
    if w.smart i = false then
      let update := mergeAll i j s.1
      (update, s.2 ++ [if w.text i then .redraw_map i (update j).r else .WM_UPDATE i (update j).r])
    else
      let r := R_addp (R_subp (s.1 i).r (w.origin i)) (w.wn_Lorigin i)
      (Function.update s.1 i { s.1 i with r := r }, s.2 ++ [.WM_RGNUPDATE i (s.1 i).r r])
  else s

def window (w : Wtbl) (s : (ℕ → UPDATE) × List Msg) (i : ℕ) : (ℕ → UPDATE) × List Msg :=
  (List.range MAX_UPBUF).foldl (entry w i) s

/-- The update messages, in the order they go out. -/
def perform_update (w : Wtbl) (update : ℕ → UPDATE) : List Msg :=
  ((List.range MAX_WINDOWS).foldl (window w) (update, [])).2

/-! ### What must not be lost -/

/-- Some message of the window hands over the point. The rectangle of a region message is moved
back to the place of the layer. -/
def Handed (w : Wtbl) (ms : List Msg) (i : ℕ) (p : POINT) : Prop :=
  (∃ r, .WM_UPDATE i r ∈ ms ∧ p ∈ pts r) ∨
  (∃ r s, .WM_RGNUPDATE i r s ∈ ms ∧ p ∈ pts r) ∧
    ∃ r s, .WM_RGNUPDATE i r s ∈ ms ∧ p ∈ pts (R_addp (R_subp s (w.wn_Lorigin i)) (w.origin i))

/-- The window gets a message, and all of its damage is handed over. -/
structure Kept (w : Wtbl) (update : ℕ → UPDATE) (ms : List Msg) (i : ℕ) : Prop where
  told : (∃ r, .WM_UPDATE i r ∈ ms) ∨ ∃ r s, .WM_RGNUPDATE i r s ∈ ms
  handed : ∀ j < MAX_UPBUF, (update j).wid = i → ∀ p ∈ pts (update j).r, Handed w ms i p

/-- No damage of the windows that take messages is lost. -/
def NothingLost (w : Wtbl) (update : ℕ → UPDATE) : Prop :=
  ∀ i < MAX_WINDOWS, (w.smart i = true ∨ w.text i = false) →
    (∃ j < MAX_UPBUF, (update j).wid = i) → Kept w update (perform_update w update) i

/-- Each entry of a smart-update window stands at the number of the window. -/
def OwnPlaces (smart : ℕ → Bool) (wid : ℕ → ℤ) : Prop :=
  ∀ j < MAX_UPBUF, ∀ i < MAX_WINDOWS, smart i = true → wid j = i → j = i

variable {w : Wtbl} {t u t' : ℕ → UPDATE} {ms ms' : List Msg} {i j k n : ℕ} {r s : RECT} {p : POINT}

/-- What holds at the start and is carried on by each turn holds behind a loop over a range. -/
lemma range_rule {σ : Type*} {f : σ → ℕ → σ} {P : ℕ → σ → Prop} {x : σ} {N : ℕ} (h0 : P 0 x)
    (hstep : ∀ n < N, ∀ y, P n y → P (n + 1) (f y n)) : P N ((List.range N).foldl f x) := by
  induction N with
  | zero => exact h0
  | succ N ih =>
    rw [List.range_succ, List.foldl_append]
    exact hstep N (Nat.lt_succ_self N) _ (ih fun n hn => hstep n (by omega))

lemma subset_around_left : R_subset r (around r s) :=
  ⟨min_le_right _ _, min_le_right _ _, le_max_right _ _, le_max_right _ _⟩

lemma subset_around_right : R_subset s (around r s) :=
  ⟨min_le_left _ _, min_le_left _ _, le_max_left _ _, le_max_left _ _⟩

lemma back_rgn (r : RECT) (a b : POINT) : R_addp (R_subp (R_addp (R_subp r a) b) b) a = r := by
  obtain ⟨⟨x0, y0⟩, ⟨x1, y1⟩⟩ := r
  simp [R_addp, R_subp]

lemma Handed.mono (h : Handed w ms i p) (hs : ∀ m ∈ ms, m ∈ ms') : Handed w ms' i p := by
  rcases h with ⟨r, h1, h2⟩ | ⟨⟨r, s, h1, h2⟩, r', s', h3, h4⟩
  · exact .inl ⟨r, hs _ h1, h2⟩
  · exact .inr ⟨⟨r, s, hs _ h1, h2⟩, r', s', hs _ h3, h4⟩

lemma Kept.mono (h : Kept w u ms i) (hs : ∀ m ∈ ms, m ∈ ms') : Kept w u ms' i where
  told := by
    rcases h.told with ⟨r, h1⟩ | ⟨r, s, h1⟩
    · exact .inl ⟨r, hs _ h1⟩
    · exact .inr ⟨r, s, hs _ h1⟩
  handed j hj hw p hp := (h.handed j hj hw p hp).mono hs

/-! ### An ordinary window -/

/-- What the loop over the entries `l` does to the table. -/
structure Merged (i j : ℕ) (l : List ℕ) (t t' : ℕ → UPDATE) : Prop where
  others : ∀ k, (t k).wid ≠ i → t' k = t k
  wid : (t' j).wid = i
  mine : ∀ k, (t k).wid = i → (t' k).wid = i ∨ (t' k).wid = -1
  base : R_subset (t j).r (t' j).r
  gone : ∀ k ∈ l, (t' k).wid ≠ i
  taken : ∀ k ∈ l, (t k).wid = i → R_subset (t k).r (t' j).r

lemma merged (hj : (t j).wid = i) {l : List ℕ} (hl : l.Nodup) (hjl : j ∉ l) :
    Merged i j l t (l.foldl (merge i j) t) := by
  induction l generalizing t with
  | nil =>
    exact ⟨fun _ _ => rfl, hj, fun _ => .inl, R_subset.refl _,
      fun k hk => absurd hk (List.not_mem_nil), fun k hk => absurd hk (List.not_mem_nil)⟩
  | cons k l ih =>
    obtain ⟨hk, hl⟩ := List.nodup_cons.mp hl
    have hjk : j ≠ k := fun h => hjl (h ▸ List.mem_cons_self)
    have hjl' : j ∉ l := fun h => hjl (List.mem_cons_of_mem _ h)
    rw [List.foldl_cons]
    by_cases hw : (t k).wid = i
    · -- the entry `k` is taken into `j`
      have h1 : merge i j t k j = { t j with r := around (t j).r (t k).r } := by
        rw [merge, if_pos hw, Function.update_of_ne hjk, Function.update_self]
      have h2 : merge i j t k k = { t k with wid := -1 } := by
        rw [merge, if_pos hw, Function.update_self]
      have h3 : ∀ x, x ≠ j → x ≠ k → merge i j t k x = t x := fun x hx hx' => by
        rw [merge, if_pos hw, Function.update_of_ne hx', Function.update_of_ne hx]
      have hm := ih (t := merge i j t k) (by rw [h1]; exact hj) hl hjl'
      have hk1 : (merge i j t k k).wid ≠ i := by
        rw [h2]
        dsimp only
        omega
      have hbase : R_subset (around (t j).r (t k).r)
          ((l.foldl (merge i j) (merge i j t k)) j).r := by
        have h := hm.base
        rwa [h1] at h
      refine ⟨fun x hx => ?_, hm.wid, fun x hx => ?_, subset_around_left.trans hbase,
        fun x hx => ?_, fun x hx hxw => ?_⟩
      · have hxj : x ≠ j := fun h => hx (h ▸ hj)
        have hxk : x ≠ k := fun h => hx (h ▸ hw)
        rw [hm.others x (by rw [h3 x hxj hxk]; exact hx), h3 x hxj hxk]
      · by_cases hxk : x = k
        · right
          rw [hxk, hm.others k hk1, h2]
        · refine hm.mine x ?_
          by_cases hxj : x = j
          · rw [hxj, h1]
            exact hj
          · rw [h3 x hxj hxk]
            exact hx
      · rcases List.mem_cons.mp hx with rfl | hx
        · rw [hm.others x hk1]
          exact hk1
        · exact hm.gone x hx
      · rcases List.mem_cons.mp hx with rfl | hx
        · exact subset_around_right.trans hbase
        · have hxj : x ≠ j := fun h => hjl' (h ▸ hx)
          have hxk : x ≠ k := fun h => hk (h ▸ hx)
          have h := hm.taken x hx
          rw [h3 x hxj hxk] at h
          exact h hxw
    · have h1 : merge i j t k = t := if_neg hw
      rw [h1]
      have hm := ih hj hl hjl'
      refine ⟨hm.others, hm.wid, hm.mine, hm.base, fun x hx => ?_, fun x hx hxw => ?_⟩
      · rcases List.mem_cons.mp hx with rfl | hx
        · rw [hm.others x hw]
          exact hw
        · exact hm.gone x hx
      · rcases List.mem_cons.mp hx with rfl | hx
        · exact absurd hxw hw
        · exact hm.taken x hx hxw

/-- The loop over the table for an ordinary window, before the entry `n`: nothing has been found, or
all of its entries have gone into one message. -/
structure Gathered (w : Wtbl) (i : ℕ) (t : ℕ → UPDATE) (ms : List Msg) (n : ℕ)
    (s : (ℕ → UPDATE) × List Msg) : Prop where
  sent : ∀ m ∈ ms, m ∈ s.2
  others : ∀ k, (t k).wid ≠ i → s.1 k = t k
  mine : ∀ k, (t k).wid = i → (s.1 k).wid = i ∨ (s.1 k).wid = -1
  found : (s.1 = t ∧ ∀ k < n, (t k).wid ≠ i) ∨
    ((∀ k, n ≤ k → k < MAX_UPBUF → (s.1 k).wid ≠ i) ∧ (w.text i = false → Kept w t s.2 i))

lemma Gathered.next {s : (ℕ → UPDATE) × List Msg} (h : Gathered w i t ms n s)
    (hs : w.smart i = false) (hn : n < MAX_UPBUF) :
    Gathered w i t ms (n + 1) (entry w i s n) := by
  by_cases hw : (s.1 n).wid = i
  · -- the first entry of the window
    obtain ⟨rfl, hbefore⟩ : s.1 = t ∧ ∀ k < n, (t k).wid ≠ i := by
      rcases h.found with hf | ⟨hf, _⟩
      · exact hf
      · exact absurd hw (hf n le_rfl hn)
    have hm : Merged i n (List.range' (n + 1) (MAX_UPBUF - (n + 1))) s.1 (mergeAll i n s.1) := by
      refine merged hw List.nodup_range' fun hmem => ?_
      have := (List.mem_range'_1.mp hmem).1
      omega
    have hin : ∀ k, n < k → k < MAX_UPBUF →
        k ∈ List.range' (n + 1) (MAX_UPBUF - (n + 1)) := fun k h1 h2 =>
      List.mem_range'_1.mpr ⟨by omega, by omega⟩
    rw [entry, if_pos hw, if_pos hs]
    dsimp only
    refine ⟨fun m hm => List.mem_append_left _ (h.sent m hm), hm.others, hm.mine,
      .inr ⟨fun k h1 h2 => hm.gone k (hin k (by omega) h2), fun htext => ?_⟩⟩
    rw [htext, if_neg (by decide)]
    have hmsg : Msg.WM_UPDATE i (mergeAll i n s.1 n).r ∈
        s.2 ++ [Msg.WM_UPDATE i (mergeAll i n s.1 n).r] :=
      List.mem_append_right _ List.mem_cons_self
    refine ⟨.inl ⟨_, hmsg⟩, fun k hk hkw p hp => .inl ⟨_, hmsg, ?_⟩⟩
    rcases Nat.lt_trichotomy k n with hlt | rfl | hlt
    · exact absurd hkw (hbefore k hlt)
    · exact hm.base.pts_subset hp
    · exact (hm.taken k (hin k hlt hk) hkw).pts_subset hp
  · rw [entry, if_neg hw]
    refine ⟨h.sent, h.others, h.mine, ?_⟩
    rcases h.found with ⟨hf, hbefore⟩ | ⟨hf, hkept⟩
    · refine .inl ⟨hf, fun k hk => ?_⟩
      rcases Nat.lt_succ_iff_lt_or_eq.mp hk with hk | rfl
      · exact hbefore k hk
      · rw [← hf]
        exact hw
    · exact .inr ⟨fun k h1 h2 => hf k (by omega) h2, hkept⟩

lemma ordinary_window (hs : w.smart i = false) (t : ℕ → UPDATE) (ms : List Msg) :
    Gathered w i t ms MAX_UPBUF (window w (t, ms) i) := by
  refine range_rule ⟨fun _ h => h, fun _ _ => rfl, fun _ => .inl, .inl ⟨rfl, fun k hk => ?_⟩⟩
    fun n hn s h => h.next hs hn
  exact absurd hk (Nat.not_lt_zero k)

/-! ### A smart-update window -/

/-- With its entries at its own place, the table is left alone elsewhere, and the message of the
entry, if there is one, has its rectangle. -/
lemma smart_window (hs : w.smart i = true) (hi : i < MAX_UPBUF) (t : ℕ → UPDATE) (ms : List Msg)
    (hown : ∀ k < MAX_UPBUF, (t k).wid = i → k = i) :
    (∀ m ∈ ms, m ∈ (window w (t, ms) i).2) ∧
    (∀ k, (t k).wid ≠ i → (window w (t, ms) i).1 k = t k) ∧
    (∀ k, ((window w (t, ms) i).1 k).wid = (t k).wid) ∧
    ((t i).wid = i → ∃ s, .WM_RGNUPDATE i (t i).r s ∈ (window w (t, ms) i).2 ∧
      R_addp (R_subp s (w.wn_Lorigin i)) (w.origin i) = (t i).r) := by
  have hskip : ∀ (s : (ℕ → UPDATE) × List Msg) (l : List ℕ),
      (∀ k ∈ l, (s.1 k).wid ≠ i) → l.foldl (entry w i) s = s := by
    intro s l
    induction l with
    | nil => exact fun _ => rfl
    | cons k l ih =>
      intro hl
      rw [List.foldl_cons, entry, if_neg (hl k List.mem_cons_self)]
      exact ih fun x hx => hl x (List.mem_cons_of_mem _ hx)
  by_cases hw : (t i).wid = i
  · -- the turns before `i`, the one of `i`, and those behind it
    have hsplit : List.range MAX_UPBUF =
        List.range i ++ i :: List.range' (i + 1) (MAX_UPBUF - (i + 1)) := by
      rw [List.range_eq_range', List.range_eq_range', ← List.range'_succ,
        show MAX_UPBUF - (i + 1) + 1 = MAX_UPBUF - i by omega]
      have h := @List.range'_append_1 0 i (MAX_UPBUF - i)
      rw [Nat.zero_add] at h
      rw [h, show i + (MAX_UPBUF - i) = MAX_UPBUF by omega]
    have hpre : (List.range i).foldl (entry w i) (t, ms) = (t, ms) :=
      hskip _ _ fun k hk hkw => by
        rw [List.mem_range] at hk
        have := hown k (by omega) hkw
        omega
    have hself : entry w i (t, ms) i =
        (Function.update t i { t i with
          r := R_addp (R_subp (t i).r (w.origin i)) (w.wn_Lorigin i) },
        ms ++ [.WM_RGNUPDATE i (t i).r
          (R_addp (R_subp (t i).r (w.origin i)) (w.wn_Lorigin i))]) := by
      rw [entry, if_pos hw, if_neg (by rw [hs]; decide)]
    have hpost : window w (t, ms) i = entry w i (t, ms) i := by
      rw [window, hsplit, List.foldl_append, hpre, List.foldl_cons, hself]
      refine hskip _ _ fun k hk => ?_
      obtain ⟨h1, h2⟩ := List.mem_range'_1.mp hk
      dsimp only
      rw [Function.update_of_ne (by omega)]
      intro hkw
      have := hown k (by omega) hkw
      omega
    rw [hpost, hself]
    refine ⟨fun m hm => List.mem_append_left _ hm, fun k hk => ?_, fun k => ?_,
      fun _ => ⟨_, List.mem_append_right _ List.mem_cons_self, back_rgn ..⟩⟩
    · exact Function.update_of_ne (fun h => hk (by rw [h]; exact hw)) ..
    · dsimp only
      by_cases hk : k = i
      · rw [hk, Function.update_self]
      · rw [Function.update_of_ne hk]
  · have hall : window w (t, ms) i = (t, ms) := hskip _ _ fun k hk hkw => by
      rw [List.mem_range] at hk
      rw [hown k hk hkw] at hkw
      exact hw hkw
    rw [hall]
    exact ⟨fun _ h => h, fun _ _ => rfl, fun _ => rfl, fun h => absurd h hw⟩

/-! ### All windows -/

/-- Before the window `n`, the entries of the windows from it on are as they were, and the windows
before it have their damage. -/
structure Served (w : Wtbl) (u : ℕ → UPDATE) (n : ℕ) (s : (ℕ → UPDATE) × List Msg) : Prop where
  rest : ∀ k < MAX_UPBUF, ∀ i : ℕ, n ≤ i → i < MAX_WINDOWS →
    ((s.1 k).wid = i ↔ (u k).wid = i) ∧ ((u k).wid = i → s.1 k = u k)
  kept : ∀ i < n, (w.smart i = true ∨ w.text i = false) →
    (∃ j < MAX_UPBUF, (u j).wid = i) → Kept w u s.2 i

lemma Served.next (h : Served w u n (t, ms)) (hn : n < MAX_WINDOWS)
    (hown : OwnPlaces w.smart fun k => (u k).wid) : Served w u (n + 1) (window w (t, ms) n) := by
  have hwn : MAX_WINDOWS < MAX_UPBUF := by decide
  -- the window keeps the entries of others, and those of its own get no other window
  obtain ⟨hsent, hothers, hmine⟩ : (∀ m ∈ ms, m ∈ (window w (t, ms) n).2) ∧
      (∀ k, (t k).wid ≠ n → (window w (t, ms) n).1 k = t k) ∧
      (∀ k, (t k).wid = n →
        ((window w (t, ms) n).1 k).wid = n ∨ ((window w (t, ms) n).1 k).wid = -1) := by
    cases hs : w.smart n with
    | false =>
      have hg := ordinary_window hs t ms
      exact ⟨hg.sent, hg.others, hg.mine⟩
    | true =>
      obtain ⟨h1, h2, h3, _⟩ := smart_window hs (by omega) t ms fun k hk hkw =>
        hown k hk n hn hs (((h.rest k hk n le_rfl hn).1).mp hkw)
      exact ⟨h1, h2, fun k hk => .inl ((h3 k).trans hk)⟩
  refine ⟨fun k hk i hi hiw => ?_, fun i hi ht hex => ?_⟩
  · have hr := h.rest k hk i (by omega) hiw
    dsimp only at hr
    by_cases hkw : (t k).wid = n
    · -- it is no entry of `i`, before and behind
      have hne : ¬ (u k).wid = i := fun hu => by
        rw [hr.2 hu, hu] at hkw
        omega
      refine ⟨⟨fun h' => ?_, fun hu => absurd hu hne⟩, fun hu => absurd hu hne⟩
      rcases hmine k hkw with h1 | h1
      · rw [h1] at h'
        omega
      · rw [h1] at h'
        omega
    · rw [hothers k hkw]
      exact hr
  · rcases Nat.lt_succ_iff_lt_or_eq.mp hi with hi | rfl
    · exact (h.kept i hi ht hex).mono hsent
    · -- the window itself
      have hsame : ∀ k < MAX_UPBUF, (u k).wid = i → t k = u k := fun k hk =>
        (h.rest k hk i le_rfl hn).2
      obtain ⟨j, hj, hjw⟩ := hex
      cases hs : w.smart i with
      | false =>
        have ht' : w.text i = false := by
          rcases ht with ht | ht
          · rw [hs] at ht
            cases ht
          · exact ht
        rcases (ordinary_window hs t ms).found with ⟨_, hnone⟩ | ⟨_, hkept⟩
        · refine absurd ?_ (hnone j hj)
          rw [hsame j hj hjw]
          exact hjw
        · have hk := hkept ht'
          refine ⟨hk.told, fun k hk' hkw p hp => hk.handed k hk' ?_ p ?_⟩
          · rw [hsame k hk' hkw]
            exact hkw
          · rw [hsame k hk' hkw]
            exact hp
      | true =>
        obtain ⟨_, _, _, h4⟩ := smart_window hs (by omega) t ms fun k hk hkw =>
          hown k hk i hn hs (((h.rest k hk i le_rfl hn).1).mp hkw)
        obtain rfl : j = i := hown j hj i hn hs hjw
        obtain ⟨r, h5, h6⟩ := h4 (by rw [hsame j hj hjw]; exact hjw)
        rw [hsame j hj hjw] at h5 h6
        refine ⟨.inr ⟨_, _, h5⟩, fun k hk hkw p hp => ?_⟩
        obtain rfl : k = j := hown k hk j hn hs hkw
        exact .inr ⟨⟨_, _, h5, hp⟩, _, _, h5, by rw [h6]; exact hp⟩

lemma nothingLost_of_own (hown : OwnPlaces w.smart fun k => (u k).wid) : NothingLost w u := by
  have hrun : Served w u MAX_WINDOWS ((List.range MAX_WINDOWS).foldl (window w) (u, [])) := by
    refine range_rule ⟨fun k _ i _ _ => ⟨Iff.rfl, fun _ => rfl⟩, fun i hi => ?_⟩ fun n hn s h => ?_
    · exact absurd hi (Nat.not_lt_zero i)
    · obtain ⟨t, ms⟩ := s
      exact h.next hn hown
  exact fun i hi ht hex => hrun.kept i hi ht hex

/-! ### An entry at another place -/

def Z : RECT := ⟨⟨0, 0⟩, ⟨0, 0⟩⟩

/-- While all other rectangles are empty, what goes out for the window of the entry `j₀` is empty
too. -/
structure Blank (smart : ℕ → Bool) (i₀ j₀ : ℕ) (s : (ℕ → UPDATE) × List Msg) : Prop where
  wid : (s.1 j₀).wid = i₀
  rects : ∀ k, k ≠ j₀ → (s.1 k).r = Z
  update : ∀ r, Msg.WM_UPDATE i₀ r ∉ s.2
  rgn : ∀ r q, Msg.WM_RGNUPDATE i₀ r q ∈ s.2 → r = Z

variable {smart text : ℕ → Bool} {i₀ j₀ : ℕ}

/-- The windows, all at the origin of the screen. -/
def atOrigin (smart text : ℕ → Bool) : Wtbl where
  smart := smart
  text := text
  origin _ := ⟨0, 0⟩
  wn_Lorigin _ := ⟨0, 0⟩

lemma sub_add_zero (r : RECT) : R_addp (R_subp r ⟨0, 0⟩) ⟨0, 0⟩ = r := by
  obtain ⟨⟨x0, y0⟩, ⟨x1, y1⟩⟩ := r
  simp [R_addp, R_subp]

lemma Blank.merge (hi : i ≠ i₀) (hj : j ≠ j₀) (ht : (t j₀).wid = i₀)
    (hr : ∀ k, k ≠ j₀ → (t k).r = Z) (k : ℕ) :
    (merge i j t k j₀).wid = i₀ ∧ ∀ x, x ≠ j₀ → (merge i j t k x).r = Z := by
  by_cases hw : (t k).wid = i
  · have hk : k ≠ j₀ := fun h => by
      rw [h, ht] at hw
      omega
    rw [Damage.merge, if_pos hw]
    refine ⟨by rw [Function.update_of_ne hk.symm, Function.update_of_ne hj.symm]; exact ht,
      fun x hx => ?_⟩
    by_cases hxk : x = k
    · rw [hxk, Function.update_self]
      exact hr k hk
    · rw [Function.update_of_ne hxk]
      by_cases hxj : x = j
      · rw [hxj, Function.update_self]
        dsimp only
        rw [hr j hj, hr k hk]
        rfl
      · rw [Function.update_of_ne hxj]
        exact hr x hx
  · rw [Damage.merge, if_neg hw]
    exact ⟨ht, hr⟩

lemma Blank.mergeAll (hi : i ≠ i₀) (hj : j ≠ j₀) (ht : (t j₀).wid = i₀)
    (hr : ∀ k, k ≠ j₀ → (t k).r = Z) :
    (mergeAll i j t j₀).wid = i₀ ∧ ∀ x, x ≠ j₀ → (mergeAll i j t x).r = Z := by
  unfold Damage.mergeAll
  generalize List.range' (j + 1) (MAX_UPBUF - (j + 1)) = l
  induction l generalizing t with
  | nil => exact ⟨ht, hr⟩
  | cons k l ih =>
    obtain ⟨h1, h2⟩ := Blank.merge hi hj ht hr k
    exact ih h1 h2

lemma Blank.entry {s : (ℕ → UPDATE) × List Msg} (h : Blank smart i₀ j₀ s)
    (hs : smart i₀ = true) (hne : j₀ ≠ i₀) (i n : ℕ) :
    Blank smart i₀ j₀ (entry (atOrigin smart text) i s n) := by
  unfold Damage.entry
  by_cases hw : (s.1 n).wid = i
  · rw [if_pos hw]
    by_cases hsi : (atOrigin smart text).smart i = false
    · rw [if_pos hsi]
      have hi : i ≠ i₀ := fun he => by
        rw [he] at hsi
        exact absurd hs (by rw [show smart i₀ = false from hsi]; decide)
      have hn : n ≠ j₀ := fun he => by
        rw [he, h.wid] at hw
        omega
      obtain ⟨h1, h2⟩ := Blank.mergeAll hi hn h.wid h.rects
      refine ⟨h1, h2, fun r hr => ?_, fun r q hr => ?_⟩
      · rcases List.mem_append.mp hr with hr | hr
        · exact h.update r hr
        · rw [List.mem_singleton] at hr
          split_ifs at hr
          exact hi (Msg.WM_UPDATE.inj hr).1.symm
      · rcases List.mem_append.mp hr with hr | hr
        · exact h.rgn r q hr
        · rw [List.mem_singleton] at hr
          split_ifs at hr
    · rw [if_neg hsi]
      have hsame : R_addp (R_subp (s.1 i).r ((atOrigin smart text).origin i))
          ((atOrigin smart text).wn_Lorigin i) = (s.1 i).r := sub_add_zero _
      rw [hsame]
      change Blank smart i₀ j₀ (Function.update s.1 i (s.1 i), _)
      rw [Function.update_eq_self]
      refine ⟨h.wid, h.rects, fun r hr => ?_, fun r q hr => ?_⟩
      · rcases List.mem_append.mp hr with hr | hr
        · exact h.update r hr
        · rw [List.mem_singleton] at hr
          cases hr
      · rcases List.mem_append.mp hr with hr | hr
        · exact h.rgn r q hr
        · rw [List.mem_singleton] at hr
          obtain ⟨h1, h2, _⟩ := Msg.WM_RGNUPDATE.inj hr
          rw [h2, ← h1]
          exact h.rects i₀ hne.symm
  · rw [if_neg hw]
    exact h

/-- The unit square at the origin for the entry `j₀`, and empty rectangles for the others. -/
def oneRect (wid : ℕ → ℤ) (j₀ k : ℕ) : UPDATE :=
  ⟨wid k, if k = j₀ then ⟨⟨0, 0⟩, ⟨1, 1⟩⟩ else Z⟩

lemma lost_of_elsewhere {wid : ℕ → ℤ} (hj : j₀ < MAX_UPBUF) (hi : i₀ < MAX_WINDOWS)
    (hs : smart i₀ = true) (hw : wid j₀ = i₀) (hne : j₀ ≠ i₀) :
    ¬ NothingLost (atOrigin smart text) (oneRect wid j₀) := by
  intro hlost
  have hblank : Blank smart i₀ j₀
      ((List.range MAX_WINDOWS).foldl (window (atOrigin smart text)) (oneRect wid j₀, [])) := by
    refine range_rule (P := fun _ s => Blank smart i₀ j₀ s) ?_ fun i _ s h => ?_
    · refine ⟨hw, fun k hk => if_neg hk, fun _ h => absurd h List.not_mem_nil,
        fun _ _ h => absurd h List.not_mem_nil⟩
    · exact range_rule (P := fun _ s => Blank smart i₀ j₀ s) h fun n _ s h => h.entry hs hne i n
  have hp : (⟨0, 0⟩ : POINT) ∈ pts (oneRect wid j₀ j₀).r := by
    rw [oneRect, if_pos rfl]
    exact ⟨le_rfl, le_rfl, Int.one_pos, Int.one_pos⟩
  rcases (hlost i₀ hi (.inl hs) ⟨j₀, hj, hw⟩).handed j₀ hj hw _ hp with
    ⟨r, hr, _⟩ | ⟨⟨r, q, hr, hpr⟩, _⟩
  · exact hblank.update r hr
  · rw [hblank.rgn r q hr] at hpr
    exact absurd hpr.2.2.1 (lt_irrefl _)

/-- **No damage is lost.** For windows of these kinds and a table whose entries belong to these
windows, `perform_update` hands over all damage, whatever the rectangles and the places of the
windows are, just when each entry of a smart-update window stands at the number of the window. -/
theorem damage_kept_iff (smart text : ℕ → Bool) (wid : ℕ → ℤ) :
    (∀ (r : ℕ → RECT) (origin wn_Lorigin : ℕ → POINT),
      NothingLost ⟨smart, text, origin, wn_Lorigin⟩ fun k => ⟨wid k, r k⟩) ↔
    OwnPlaces smart wid := by
  constructor
  · intro h j hj i hi hs hw
    by_contra hne
    exact lost_of_elsewhere hj hi hs hw hne (h _ _ _)
  · exact fun h r origin wn_Lorigin => nothingLost_of_own h

/-- Window 1 is a smart-update window, with damage in the first entry of the table. -/
theorem smart_damage_lost :
    ¬ NothingLost (atOrigin (fun i => i = 1) fun _ => false)
      (oneRect (fun k => if k = 0 then 1 else -1) 0) :=
  lost_of_elsewhere (by decide) (show 1 < MAX_WINDOWS by decide) rfl rfl (by decide)

end Coherent.Damage
