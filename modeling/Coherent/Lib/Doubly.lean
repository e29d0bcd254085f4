import Coherent.Lib.Linked

/-!
Doubly linked lists: cells chained in both directions between a first and a last one.
-/

namespace Coherent.Lib

variable {α : Type*}

/-- The pointers of a doubly linked list. -/
@[ext] structure Deque (α : Type*) where
  next : α → Option α
  prev : α → Option α
  head : Option α
  tail : Option α

namespace Deque

variable {d : Deque α} {l l₁ l₂ : List α} {x : α}

/-- The same list from behind. -/
def flip (d : Deque α) : Deque α := ⟨d.prev, d.next, d.tail, d.head⟩

/-- From the first cell to the last, and back, the cells are those of the list. -/
structure Holds (d : Deque α) (l : List α) : Prop where
  ahead : Linked d.next d.head l
  behind : Linked d.prev d.tail l.reverse

theorem Holds.flip (hd : d.Holds l) : d.flip.Holds l.reverse :=
  ⟨hd.behind, by rw [List.reverse_reverse]; exact hd.ahead⟩

theorem Holds.of_flip (hd : d.flip.Holds l.reverse) : d.Holds l :=
  ⟨by rw [← List.reverse_reverse l]; exact hd.behind, hd.ahead⟩

theorem Holds.nodup (hd : d.Holds l) : l.Nodup := hd.ahead.nodup

theorem Holds.before (hd : d.Holds (l₁ ++ x :: l₂)) : Linked d.prev (d.prev x) l₁.reverse := by
  have hb := hd.behind
  rw [List.reverse_append, List.reverse_cons, List.append_assoc] at hb
  exact hb.after

theorem Holds.prev_nil (hd : d.Holds (x :: l)) : d.prev x = none :=
  show Linked d.prev (d.prev x) [].reverse from Holds.before hd

theorem Holds.prev_snoc {a : α} (hd : d.Holds (l₁ ++ [a] ++ x :: l₂)) : d.prev x = some a := by
  have hb := hd.before
  rw [List.reverse_append] at hb
  exact hb.1

theorem Holds.next_nil (hd : d.Holds (l ++ [x])) : d.next x = none :=
  hd.ahead.after

theorem Holds.next_cons {a : α} (hd : d.Holds (l₁ ++ x :: a :: l₂)) : d.next x = some a :=
  hd.ahead.after.1

theorem Holds.head_cons (hd : d.Holds (x :: l)) : d.head = some x := hd.ahead.1

theorem Holds.tail_snoc (hd : d.Holds (l ++ [x])) : d.tail = some x := by
  have hb := hd.behind
  rw [List.reverse_append] at hb
  exact hb.1

/-- Only the first cell has none in front of it. -/
theorem Holds.head_iff (hd : d.Holds (l₁ ++ x :: l₂)) : d.head = some x ↔ l₁ = [] := by
  cases l₁ with
  | nil => exact iff_of_true hd.head_cons rfl
  | cons a l₁ =>
    refine iff_of_false (fun hx => ?_) (by simp)
    obtain rfl : a = x := Option.some.inj (hd.head_cons.symm.trans hx)
    exact (List.nodup_cons.mp hd.nodup).1 (by simp)

theorem Holds.tail_iff (hd : d.Holds (l₁ ++ x :: l₂)) : d.tail = some x ↔ l₂ = [] := by
  have hf := hd.flip
  rw [List.reverse_append, List.reverse_cons, List.append_assoc] at hf
  exact hf.head_iff.trans List.reverse_eq_nil_iff

theorem Holds.prev_ne (hd : d.Holds (l₁ ++ x :: l₂)) : d.prev x ≠ some x := by
  rcases l₁.eq_nil_or_concat with rfl | ⟨m, a, rfl⟩
  · rw [Holds.prev_nil hd]
    simp
  · rw [List.concat_eq_append] at hd
    rw [hd.prev_snoc]
    have hnd := hd.nodup
    rw [List.append_assoc] at hnd
    rintro ⟨⟩
    exact (List.nodup_cons.mp (List.nodup_append.mp hnd).2.1).1 List.mem_cons_self

theorem Holds.next_ne (hd : d.Holds (l₁ ++ x :: l₂)) : d.next x ≠ some x := by
  have hf := hd.flip
  rw [List.reverse_append, List.reverse_cons, List.append_assoc] at hf
  exact hf.prev_ne

variable [DecidableEq α]

/-- A store through a pointer, when there is a cell behind it. -/
def store (f : α → Option α) (p v : Option α) : α → Option α :=
  match p with
  | none => f
  | some a => Function.update f a v

@[simp] theorem store_none {f : α → Option α} {v : Option α} : store f none v = f := rfl

@[simp] theorem store_idem {f : α → Option α} {p v : Option α} :
    store (store f p v) p v = store f p v := by
  cases p with
  | none => rfl
  | some a => exact Function.update_idem ..

theorem store_of_ne {f : α → Option α} {p v : Option α} (hp : p ≠ some x) :
    store f p v x = f x := by
  cases p with
  | none => rfl
  | some a =>
    refine Function.update_of_ne ?_ ..
    rintro rfl
    exact hp rfl

/-- A new first cell. -/
def pushFront (d : Deque α) (x : α) : Deque α where
  next := Function.update d.next x d.head
  prev := Function.update (store d.prev d.head (some x)) x none
  head := some x
  tail := if d.tail = none then some x else d.tail

/-- A new last cell. -/
def pushBack (d : Deque α) (x : α) : Deque α := (d.flip.pushFront x).flip

/-- The cell is taken out. -/
def unlink (d : Deque α) (x : α) : Deque α where
  next := store d.next (d.prev x) (d.next x)
  prev := store d.prev (d.next x) (d.prev x)
  head := if d.head = some x then d.next x else d.head
  tail := if d.tail = some x then d.prev x else d.tail

theorem Holds.pushFront (hd : d.Holds l) (hx : x ∉ l) : (d.pushFront x).Holds (x :: l) := by
  refine ⟨hd.ahead.push hx, ?_⟩
  unfold Deque.pushFront
  cases l with
  | nil =>
    have ht : d.tail = none := hd.behind
    have hh : d.head = none := hd.ahead
    simp only [ht, hh, store, if_true]
    exact ⟨rfl, Function.update_self ..⟩
  | cons a l =>
    have hb := hd.behind
    have ht : d.tail ≠ none := by
      rw [ne_eq, hb.eq_none_iff]
      simp
    simp only [hd.head_cons, store, if_neg ht, List.reverse_cons] at hb ⊢
    exact hb.snoc (by simpa [or_comm] using hx)

theorem Holds.pushBack (hd : d.Holds l) (hx : x ∉ l) : (d.pushBack x).Holds (l ++ [x]) := by
  refine Holds.of_flip ?_
  rw [List.reverse_append]
  exact hd.flip.pushFront (by simpa using hx)

theorem Holds.unlink_ahead (hd : d.Holds (l₁ ++ x :: l₂)) :
    Linked (d.unlink x).next (d.unlink x).head (l₁ ++ l₂) := by
  unfold Deque.unlink
  rcases l₁.eq_nil_or_concat with rfl | ⟨m, a, rfl⟩
  · rw [List.nil_append] at hd
    simp only [hd.prev_nil, hd.head_cons, store, if_true]
    exact hd.ahead.2
  · rw [List.concat_eq_append] at hd ⊢
    have hh : d.head ≠ some x := by
      rw [ne_eq, hd.head_iff]
      simp
    have hnd := hd.nodup
    simp only [hd.prev_snoc, if_neg hh, store]
    rw [List.append_assoc] at hd hnd ⊢
    refine hd.ahead.relink hd.ahead.after.after ?_
    intro (ha : a ∈ l₂)
    exact (List.nodup_cons.mp (List.nodup_append.mp hnd).2.1).1 (by simp [ha])

/-- **Taking a cell out** leaves the others in their order. -/
theorem Holds.unlink (hd : d.Holds (l₁ ++ x :: l₂)) : (d.unlink x).Holds (l₁ ++ l₂) := by
  have hf := hd.flip
  rw [List.reverse_append, List.reverse_cons, List.append_assoc] at hf
  refine ⟨hd.unlink_ahead, ?_⟩
  rw [List.reverse_append]
  exact hf.unlink_ahead

end Deque

end Coherent.Lib
