import Coherent.Lib.Run
import Coherent.Lib.Twoway

/-!
Process ids: the list of all processes that `process` and `relproc` keep.

`process` counts up from `cpid` until it meets a number that no process has. One walk along
the list tells whether there is such a process and where the new one belongs, because the list
is in descending order.
-/

namespace Coherent.Pids

open Coherent.Lib

def NPID : ℕ := 30000

/-- The processes, by the addresses of their `PROC`, as far as the list of all goes. -/
structure Table where
  p_pid : ℕ → ℕ
  p_nforw : ℕ → ℕ
  p_nback : ℕ → ℕ
  cpid : ℕ

/-- The address of `procq`. -/
def procq : ℕ := 0

def pcsinit (t : Table) : Table :=
  { t with
    p_nforw := Function.update t.p_nforw procq procq
    p_nback := Function.update t.p_nback procq procq }

/-- The walk of `process` from `pp1` on: where the process with the number `pid` belongs, or
`none` if there is one already; for so many turns at most. -/
def scan (t : Table) (pid : ℕ) : ℕ → ℕ → Option (Option ℕ)
  | 0, _ => none
  | n + 1, pp1 =>
    let pp1 := t.p_nforw pp1
    if pp1 = procq then some (some pp1)
    else if t.p_pid pp1 < pid then some (some pp1)
    else if t.p_pid pp1 = pid then some none
    else scan t pid n pp1

/-- The counter after one more number. -/
def nextpid (c : ℕ) : ℕ := if c + 1 ≥ NPID then 2 else c + 1

/-- The loop of `process` from the label `next` on. -/
def pick (n : ℕ) (pp : ℕ) : ℕ → Table → Option (Table × ℕ)
  | 0, _ => none
  | m + 1, t =>
    let t' := { t with
      p_pid := Function.update t.p_pid pp t.cpid
      cpid := nextpid t.cpid }
    match scan t' (t'.p_pid pp) n procq with
    | none => none
    | some none => pick n pp m t'
    | some (some pp1) => some (t', pp1)

/-- The last four assignments of `process`: `pp` goes in front of `pp1`. -/
def link (t : Table) (pp pp1 : ℕ) : Table :=
  let forw := Function.update t.p_nforw pp pp1
  let back := Function.update t.p_nback pp (t.p_nback pp1)
  { t with
    p_nforw := Function.update forw (back pp1) pp
    p_nback := Function.update back pp1 pp }

/-- `process`, with `pp` from `kalloc`. Both loops make so many turns at most. -/
def process (n : ℕ) (t : Table) (pp : ℕ) : Option Table :=
  (pick n pp n t).map fun r => link r.1 pp r.2

/-- Remove a process from the list. -/
def relproc (t : Table) (pp : ℕ) : Table :=
  let forw := Function.update t.p_nforw (t.p_nback pp) (t.p_nforw pp)
  { t with
    p_nforw := forw
    p_nback := Function.update t.p_nback (forw pp) (t.p_nback pp) }

variable {t t' : Table} {l : List ℕ} {v n m x pp : ℕ}

/-! ### The walk -/

/-- The list is in strictly descending order. -/
def Descending (t : Table) (l : List ℕ) : Prop := l.Pairwise fun a b => t.p_pid b < t.p_pid a

/-- Where `pp1` is in the list: all processes before it have greater numbers, it and all behind
it smaller ones. -/
structure Place (t : Table) (pid : ℕ) (l l₁ l₂ : List ℕ) (pp1 : ℕ) : Prop where
  split : l = l₁ ++ l₂
  before : ∀ a ∈ l₁, pid < t.p_pid a
  behind : ∀ a ∈ l₂, t.p_pid a < pid
  head : ∃ qs, l₂ ++ [procq] = pp1 :: qs

lemma scan_spec (hc : Chain t.p_nforw (x :: l ++ [procq])) (hq : procq ∉ l)
    (hd : Descending t l) (hn : l.length < n) :
    (∃ a ∈ l, t.p_pid a = v) ∧ scan t v n x = some none ∨
      (∀ a ∈ l, t.p_pid a ≠ v) ∧
        ∃ l₁ l₂ pp1, scan t v n x = some (some pp1) ∧ Place t v l l₁ l₂ pp1 := by
  induction l generalizing x n with
  | nil =>
    obtain ⟨n, rfl⟩ := Nat.exists_eq_succ_of_ne_zero (show n ≠ 0 by omega)
    have hx : t.p_nforw x = procq := (List.isChain_cons_cons.mp hc).1
    refine Or.inr ⟨by simp, [], [], procq, ?_, rfl, by simp, by simp, [], rfl⟩
    rw [scan, hx]
    exact if_pos rfl
  | cons a l ih =>
    obtain ⟨n, rfl⟩ := Nat.exists_eq_succ_of_ne_zero (show n ≠ 0 by omega)
    obtain ⟨hx, hc'⟩ := List.isChain_cons_cons.mp hc
    rw [List.mem_cons, not_or] at hq
    obtain ⟨hda, hdl⟩ := List.pairwise_cons.mp hd
    rw [scan, hx, if_neg (Ne.symm hq.1)]
    by_cases hlt : t.p_pid a < v
    · -- from here on all are smaller
      rw [if_pos hlt]
      have hall : ∀ b ∈ a :: l, t.p_pid b < v := by
        intro b hb
        rcases List.mem_cons.mp hb with rfl | hb
        · exact hlt
        · exact (hda b hb).trans hlt
      exact Or.inr ⟨fun b hb => (hall b hb).ne, [], a :: l, a, rfl, rfl, by simp, hall, _, rfl⟩
    rw [if_neg hlt]
    by_cases heq : t.p_pid a = v
    · rw [if_pos heq]
      exact Or.inl ⟨⟨a, by simp, heq⟩, rfl⟩
    · rw [if_neg heq]
      have hgt : v < t.p_pid a := by omega
      have hlen : l.length < n := by
        rw [List.length_cons] at hn
        omega
      rcases ih hc' hq.2 hdl hlen with
        ⟨⟨b, hb, hpid⟩, hs⟩ | ⟨hne, l₁, l₂, pp1, hs, hp⟩
      · exact Or.inl ⟨⟨b, by simp [hb], hpid⟩, hs⟩
      · refine Or.inr ⟨fun b hb => ?_, a :: l₁, l₂, pp1, hs, by rw [hp.split]; rfl, ?_, hp.behind,
          hp.head⟩
        · rcases List.mem_cons.mp hb with rfl | hb
          · exact heq
          · exact hne b hb
        · intro b hb
          rcases List.mem_cons.mp hb with rfl | hb
          · exact hgt
          · exact hp.before b hb

/-! ### The counter -/

lemma nextpid_lt (c : ℕ) : nextpid c < NPID := by
  unfold nextpid NPID
  split_ifs <;> omega

/-- The counter goes up to the last number, and on from 2. -/
lemma nextpid_iterate_up {c k : ℕ} (h : c + k < NPID) : nextpid^[k] c = c + k := by
  induction k with
  | zero => rfl
  | succ k ih =>
    rw [Function.iterate_succ_apply', ih (by omega), nextpid, if_neg (by omega)]
    rfl

/-- Every number from 2 on comes up. -/
lemma nextpid_reaches {c v : ℕ} (hc : c < NPID) (h2 : 2 ≤ v) (hv : v < NPID) :
    ∃ k < NPID, nextpid^[k] c = v := by
  by_cases h : c ≤ v
  · exact ⟨v - c, by omega, by rw [nextpid_iterate_up (by omega)]; omega⟩
  · -- over the end
    have hwrap : nextpid^[NPID - 1 - c + 1] c = 2 := by
      rw [Function.iterate_succ_apply', nextpid_iterate_up (by omega), nextpid, if_pos (by omega)]
    refine ⟨v - 2 + (NPID - 1 - c + 1), by omega, ?_⟩
    rw [Function.iterate_add_apply, hwrap, nextpid_iterate_up (by omega)]
    omega

/-- No process has the number. -/
def Unused (t : Table) (l : List ℕ) (pid : ℕ) : Prop := ∀ a ∈ l, t.p_pid a ≠ pid

instance : Decidable (Unused t l v) := inferInstanceAs (Decidable (∀ a ∈ l, _))

/-- With fewer than `NPID - 2` processes a number is unused. -/
lemma exists_unused (hl : l.length < NPID - 2) : ∃ v, 2 ≤ v ∧ v < NPID ∧ Unused t l v := by
  by_contra hcon
  have hused : ∀ v, 2 ≤ v → v < NPID → ∃ a ∈ l, t.p_pid a = v := by
    intro v h2 h3
    by_contra hno
    exact hcon ⟨v, h2, h3, fun a ha he => hno ⟨a, ha, he⟩⟩
  have hsub : Finset.Ico 2 NPID ⊆ (l.map t.p_pid).toFinset := by
    intro v hv
    obtain ⟨h2, h3⟩ := Finset.mem_Ico.mp hv
    obtain ⟨a, ha, he⟩ := hused v h2 h3
    rw [List.mem_toFinset, List.mem_map]
    exact ⟨a, ha, he⟩
  have hcard := Finset.card_le_card hsub
  rw [Nat.card_Ico] at hcard
  have := List.toFinset_card_le (l.map t.p_pid)
  rw [List.length_map] at this
  omega

/-- The number is the first unused one from the counter on. -/
def First (t : Table) (l : List ℕ) (pid : ℕ) : Prop :=
  ∃ k < NPID, pid = nextpid^[k] t.cpid ∧ Unused t l pid ∧
    ∀ j < k, ¬ Unused t l (nextpid^[j] t.cpid)

lemma exists_first (hc : t.cpid < NPID) (hl : l.length < NPID - 2) : ∃ pid, First t l pid := by
  obtain ⟨v, h2, hv, hu⟩ := exists_unused (t := t) hl
  obtain ⟨k, hk, rfl⟩ := nextpid_reaches hc h2 hv
  have hex : ∃ k, Unused t l (nextpid^[k] t.cpid) := ⟨k, hu⟩
  have hle : Nat.find hex ≤ k := Nat.find_le hu
  exact ⟨_, Nat.find hex, hle.trans_lt hk, rfl, Nat.find_spec hex,
    fun j hj => Nat.find_min hex hj⟩

/-! ### `process` and `relproc` -/

/-- The table with the number `pid` tried for `pp`. -/
def tried (t : Table) (pp pid : ℕ) : Table :=
  { t with p_pid := Function.update t.p_pid pp pid, cpid := nextpid pid }

lemma tried_pid (hpp : pp ∉ l) : ∀ a ∈ l, (tried t pp v).p_pid a = t.p_pid a := by
  intro a ha
  refine Function.update_of_ne ?_ _ _
  rintro rfl
  exact hpp ha

lemma Descending.congr (h : Descending t l) (he : ∀ a ∈ l, t'.p_pid a = t.p_pid a) :
    Descending t' l := by
  refine List.Pairwise.imp_of_mem (fun {a b} ha hb hab => ?_) h
  rw [he a ha, he b hb]
  exact hab

/-- One turn of the outer loop. -/
lemma pick_succ (hw : Circular t.p_nforw procq l) (hq : procq ∉ l) (hd : Descending t l)
    (hpp : pp ∉ l) (hn : l.length < n) :
    ¬ Unused t l t.cpid ∧ pick n pp (m + 1) t = pick n pp m (tried t pp t.cpid) ∨
      Unused t l t.cpid ∧ ∃ l₁ l₂ pp1, pick n pp (m + 1) t = some (tried t pp t.cpid, pp1) ∧
        Place (tried t pp t.cpid) t.cpid l l₁ l₂ pp1 := by
  have hpid := tried_pid (t := t) (v := t.cpid) hpp
  have hself : (tried t pp t.cpid).p_pid pp = t.cpid := Function.update_self ..
  have hturn : pick n pp (m + 1) t =
      match scan (tried t pp t.cpid) ((tried t pp t.cpid).p_pid pp) n procq with
      | none => none
      | some none => pick n pp m (tried t pp t.cpid)
      | some (some pp1) => some (tried t pp t.cpid, pp1) := rfl
  rw [hturn, hself]
  rcases scan_spec (t := tried t pp t.cpid) (v := t.cpid) hw hq (hd.congr hpid) hn with
    ⟨⟨a, ha, he⟩, hs⟩ | ⟨hne, l₁, l₂, pp1, hs, hp⟩
  · rw [hs]
    rw [hpid a ha] at he
    exact Or.inl ⟨fun hu => hu a ha he, rfl⟩
  · rw [hs]
    exact Or.inr ⟨fun a ha => hpid a ha ▸ hne a ha, l₁, l₂, pp1, rfl, hp⟩

/-- **The outer loop** ends with the first unused number. -/
lemma pick_spec {k : ℕ} (hw : Circular t.p_nforw procq l) (hq : procq ∉ l)
    (hd : Descending t l) (hpp : pp ∉ l) (hn : l.length < n) (hk : k < m)
    (hu : Unused t l (nextpid^[k] t.cpid)) (hmin : ∀ j < k, ¬ Unused t l (nextpid^[j] t.cpid)) :
    ∃ l₁ l₂ pp1, pick n pp m t = some (tried t pp (nextpid^[k] t.cpid), pp1) ∧
      Place (tried t pp (nextpid^[k] t.cpid)) (nextpid^[k] t.cpid) l l₁ l₂ pp1 := by
  induction k generalizing m t with
  | zero =>
    obtain ⟨m, rfl⟩ := Nat.exists_eq_succ_of_ne_zero hk.ne'
    rcases pick_succ (m := m) hw hq hd hpp hn with ⟨hno, -⟩ | ⟨-, h⟩
    · exact absurd hu hno
    · exact h
  | succ k ih =>
    obtain ⟨m, rfl⟩ := Nat.exists_eq_succ_of_ne_zero (show m ≠ 0 by omega)
    rcases pick_succ (m := m) hw hq hd hpp hn with ⟨-, h⟩ | ⟨h0, -⟩
    · -- the number is in use: on with the next one
      have hpid := tried_pid (t := t) (v := t.cpid) hpp
      have hiff : ∀ v, Unused (tried t pp t.cpid) l v ↔ Unused t l v := by
        intro v
        constructor
        · exact fun hv a ha => hpid a ha ▸ hv a ha
        · exact fun hv a ha => (hpid a ha).symm ▸ hv a ha
      have hstep : ∀ j, nextpid^[j] (tried t pp t.cpid).cpid = nextpid^[j + 1] t.cpid :=
        fun j => (Function.iterate_succ_apply nextpid j t.cpid).symm
      obtain ⟨l₁, l₂, pp1, hp, hplace⟩ := ih (t := tried t pp t.cpid) (m := m) hw (hd.congr hpid)
        (by omega) (by rw [hstep]; exact (hiff _).mpr hu)
        fun j hj => by rw [hstep, hiff]; exact hmin (j + 1) (by omega)
      have htried : ∀ v, tried (tried t pp t.cpid) pp v = tried t pp v := by
        intro v
        unfold tried
        rw [Function.update_idem]
      rw [hstep, htried] at hp hplace
      exact ⟨l₁, l₂, pp1, h.trans hp, hplace⟩
    · exact absurd h0 (hmin 0 (by omega))

/-- All processes, in the order of the list. -/
structure Listed (t : Table) (l : List ℕ) : Prop where
  links : Twoway t.p_nforw t.p_nback procq l
  desc : Descending t l
  cpid_lt : t.cpid < NPID

lemma pcsinit_listed (pid forw back : ℕ → ℕ) : Listed (pcsinit ⟨pid, forw, back, 0⟩) [] := by
  have h0 : 0 < NPID := by decide
  refine ⟨⟨?_, ?_, by simp⟩, List.Pairwise.nil, h0⟩
  · exact List.isChain_pair.mpr (by simp [pcsinit])
  · exact List.isChain_pair.mpr (by simp [pcsinit])

/-- **`process`** puts the new process in its place, with the first unused number. -/
lemma process_spec (h : Listed t l) (hl : l.length < NPID - 2) (hpp : pp ∉ procq :: l)
    (hn : NPID ≤ n) :
    ∃ t' l₁ l₂, process n t pp = some t' ∧ l = l₁ ++ l₂ ∧ Listed t' (l₁ ++ pp :: l₂) ∧
      First t l (t'.p_pid pp) ∧ ∀ a ∈ l, t'.p_pid a = t.p_pid a := by
  have hne : pp ≠ procq := List.ne_of_not_mem_cons hpp
  have hpl : pp ∉ l := List.not_mem_of_not_mem_cons hpp
  obtain ⟨hq, -⟩ := List.nodup_cons.mp h.links.nodup
  obtain ⟨pid, k, hk, rfl, hu, hmin⟩ := exists_first h.cpid_lt hl
  obtain ⟨l₁, l₂, pp1, hp, hsplit, hbef, hbeh, hhead⟩ :=
    pick_spec (n := n) (m := n) h.links.fwd hq h.desc hpl (by omega) (by omega) hu hmin
  subst hsplit
  have hpid := tried_pid (t := t) (v := nextpid^[k] t.cpid) hpl
  have hself : (tried t pp (nextpid^[k] t.cpid)).p_pid pp = nextpid^[k] t.cpid :=
    Function.update_self ..
  have hpp1 : pp1 ≠ pp := by
    rintro rfl
    obtain ⟨qs, hqs⟩ := hhead
    have hm : pp1 ∈ l₂ ++ [procq] := by simp [hqs]
    rcases List.mem_append.mp hm with hm | hm
    · exact hpl (List.mem_append_right _ hm)
    · exact hne (List.mem_singleton.mp hm)
  have hback : ∀ v, Function.update t.p_nback pp v pp1 = t.p_nback pp1 :=
    fun v => Function.update_of_ne hpp1 _ _
  refine ⟨link (tried t pp (nextpid^[k] t.cpid)) pp pp1, l₁, l₂, by rw [process, hp]; rfl, rfl,
    ⟨?_, ?_, nextpid_lt _⟩, ?_, hpid⟩
  · have hlink := h.links.link hpp hhead
    show Twoway (Function.update (Function.update t.p_nforw pp pp1)
      (Function.update t.p_nback pp (t.p_nback pp1) pp1) pp) _ _ _
    rw [hback]
    exact hlink
  · have hd := h.desc.congr hpid
    obtain ⟨hd1, hd2, hd12⟩ := List.pairwise_append.mp hd
    refine List.pairwise_append.mpr ⟨hd1, List.pairwise_cons.mpr ⟨fun b hb => ?_, hd2⟩, ?_⟩
    · show (tried t pp (nextpid^[k] t.cpid)).p_pid b < (tried t pp (nextpid^[k] t.cpid)).p_pid pp
      rw [hself]
      exact hbeh b hb
    · intro a ha b hb
      rcases List.mem_cons.mp hb with rfl | hb
      · show (tried t b (nextpid^[k] t.cpid)).p_pid b < (tried t b (nextpid^[k] t.cpid)).p_pid a
        rw [hself]
        exact hbef a ha
      · exact hd12 a ha b hb
  · show First t (l₁ ++ l₂) ((tried t pp (nextpid^[k] t.cpid)).p_pid pp)
    rw [hself]
    exact ⟨k, hk, rfl, hu, hmin⟩

lemma relproc_spec {l₁ l₂ : List ℕ} (h : Listed t (l₁ ++ pp :: l₂)) :
    Listed (relproc t pp) (l₁ ++ l₂) := by
  have hsub : (l₁ ++ l₂).Sublist (l₁ ++ pp :: l₂) := by simp
  refine ⟨?_, h.desc.sublist hsub, h.cpid_lt⟩
  have hne : t.p_nback pp ≠ pp := h.links.prev_ne
  have hlink := h.links.unlink
  show Twoway _ (Function.update t.p_nback
    (Function.update t.p_nforw (t.p_nback pp) (t.p_nforw pp) pp) (t.p_nback pp)) _ _
  rw [Function.update_of_ne hne.symm]
  exact hlink

/-! ### Runs -/

inductive Op
  | process (pp : ℕ)
  | relproc (pp : ℕ)

/-- The processes there are after a call. -/
def after (live : List ℕ) : Op → List ℕ
  | .process pp => pp :: live
  | .relproc pp => live.erase pp

/-- `kalloc` gives `process` memory that nobody has, there are fewer than `NPID - 2` processes,
and `relproc` is given a process. -/
def ok (live : List ℕ) : Op → Prop
  | .process pp => pp ∉ procq :: live ∧ live.length < NPID - 2
  | .relproc pp => pp ∈ live

instance (live : List ℕ) (op : Op) : Decidable (ok live op) := by
  cases op
  · exact inferInstanceAs (Decidable (_ ∧ _))
  · exact inferInstanceAs (Decidable (_ ∈ _))

def exec (n : ℕ) (t : Table) : Op → Option Table
  | .process pp => process n t pp
  | .relproc pp => some (relproc t pp)

/-- The table after some calls, whose loops make `n` turns at most. -/
def execs (n : ℕ) (t : Table) : List Op → Option Table
  | [] => some t
  | op :: ops => (exec n t op).bind fun t' => execs n t' ops

/-- The processes are those of the list. -/
def Holds (t : Table) (live : List ℕ) : Prop := ∃ l, l.Perm live ∧ Listed t l

/-- **One call** returns, and the processes stay listed in order. -/
lemma exec_spec {live : List ℕ} (h : Holds t live) (hn : NPID ≤ n) {op : Op} (hok : ok live op) :
    ∃ t', exec n t op = some t' ∧ Holds t' (after live op) := by
  obtain ⟨l, hp, hl⟩ := h
  cases op with
  | process pp =>
    obtain ⟨hpp, hlen⟩ := hok
    rw [← hp.length_eq] at hlen
    have hpl : pp ∉ procq :: l := by
      rwa [(hp.cons procq).mem_iff]
    obtain ⟨t', l₁, l₂, he, rfl, hl', -⟩ := process_spec hl hlen hpl hn
    exact ⟨t', he, _, List.perm_middle.trans (hp.cons pp), hl'⟩
  | relproc pp =>
    have hm : pp ∈ l := hp.mem_iff.mpr hok
    obtain ⟨l₁, l₂, rfl⟩ := List.append_of_mem hm
    refine ⟨_, rfl, l₁ ++ l₂, ?_, relproc_spec hl⟩
    have he := hp.erase pp
    refine List.Perm.trans ?_ he
    exact (List.perm_cons_erase hm |>.symm.trans List.perm_middle |>.symm.cons_inv)

lemma execs_spec {live : List ℕ} (h : Holds t live) (hn : NPID ≤ n) (ops : List Op)
    (hok : Along ok after live ops) :
    ∃ t', execs n t ops = some t' ∧ Holds t' (ops.foldl after live) := by
  induction ops generalizing t live with
  | nil => exact ⟨t, rfl, h⟩
  | cons op ops ih =>
    obtain ⟨t₁, he, h₁⟩ := exec_spec h hn hok.1
    obtain ⟨t₂, hes, h₂⟩ := ih h₁ hok.2
    exact ⟨t₂, by rw [execs, he]; exact hes, h₂⟩

/-- **Process ids.** Whatever processes are made and removed, fewer than `NPID - 2` of them at a
time: all calls return, all processes are in the list and in strictly descending order of their
numbers, so no two have the same; and the next call of `process` returns with the first unused
number from the counter on, and changes no other's. -/
theorem process_ids (pid forw back : ℕ → ℕ) (ops : List Op) (hok : Along ok after [] ops)
    (hn : NPID ≤ n) :
    ∃ t, execs n (pcsinit ⟨pid, forw, back, 0⟩) ops = some t ∧
      Holds t (ops.foldl after []) ∧
      (∀ a ∈ ops.foldl after [], ∀ b ∈ ops.foldl after [], a ≠ b → t.p_pid a ≠ t.p_pid b) ∧
      ∀ pp, ok (ops.foldl after []) (.process pp) →
        ∃ t', process n t pp = some t' ∧ First t (ops.foldl after []) (t'.p_pid pp) ∧
          ∀ a ∈ ops.foldl after [], t'.p_pid a = t.p_pid a := by
  have hinit : Holds (pcsinit ⟨pid, forw, back, 0⟩) [] := ⟨[], .nil, pcsinit_listed pid forw back⟩
  obtain ⟨t, he, hH⟩ := execs_spec hinit hn ops hok
  obtain ⟨l, hp, hl⟩ := id hH
  refine ⟨t, he, hH, fun a ha b hb hab => ?_, fun pp hpp => ?_⟩
  · have hsym : Std.Symm fun a b => t.p_pid a ≠ t.p_pid b := ⟨fun _ _ h => h.symm⟩
    have hne : l.Pairwise fun a b => t.p_pid a ≠ t.p_pid b := hl.desc.imp fun h => h.ne'
    exact hne.forall (hp.mem_iff.mpr ha) (hp.mem_iff.mpr hb) hab
  · obtain ⟨hpp, hlen⟩ := hpp
    rw [← hp.length_eq] at hlen
    have hpl : pp ∉ procq :: l := by rwa [(hp.cons procq).mem_iff]
    obtain ⟨t', -, -, he', -, -, ⟨k, hk, hfirst⟩, hkeep⟩ := process_spec hl hlen hpl hn
    have hU : ∀ v, Unused t l v ↔ Unused t (ops.foldl after []) v :=
      fun v => forall_congr' fun a => by rw [hp.mem_iff]
    simp only [hU] at hfirst
    exact ⟨t', he', ⟨k, hk, hfirst⟩, fun a ha => hkeep a (hp.mem_iff.mpr ha)⟩

theorem process_ids_three :
    ∃ t, execs NPID (pcsinit ⟨id, id, id, 0⟩) [.process 7, .process 9, .relproc 7] = some t := by
  obtain ⟨t, h, -⟩ := process_ids id id id [.process 7, .process 9, .relproc 7] (by decide)
    (le_refl NPID)
  exact ⟨t, h⟩

end Coherent.Pids
