import Mathlib.Tactic

/-!
Runs of a labelled transition system, and the rule that carries what every step keeps
over to whole runs.
-/

namespace Coherent.Lib

variable {σ α : Type*} {step : σ → α → σ → Prop}

/-- A run: the state it starts in, the labels of its steps in order, the state it ends in. -/
inductive Run (step : σ → α → σ → Prop) : σ → List α → σ → Prop
  | nil (s : σ) : Run step s [] s
  | snoc {s t u : σ} {as : List α} {a : α} :
      Run step s as t → step t a u → Run step s (as ++ [a]) u

/-- **The invariant rule**: what every step keeps, every run keeps. -/
theorem Run.invariant {I : σ → Prop} (hstep : ∀ s a t, I s → step s a t → I t)
    {s t : σ} {as : List α} (h : Run step s as t) (hs : I s) : I t := by
  induction h with
  | nil => exact hs
  | snoc _ hst ih => exact hstep _ _ _ ih hst

/-- **The simulation rule**: if every step is a step of the abstract system, under a map of the
states that holds as long as the invariant does, then every run is a run of the abstract system
with the same labels. -/
theorem Run.simulation {τ : Type*} {astep : τ → α → τ → Prop} {I : σ → Prop} {f : σ → τ}
    (hstep : ∀ s a t, I s → step s a t → I t ∧ astep (f s) a (f t))
    {s t : σ} {as : List α} (h : Run step s as t) (hs : I s) : I t ∧ Run astep (f s) as (f t) := by
  induction h with
  | nil => exact ⟨hs, .nil _⟩
  | snoc _ hst ih =>
    obtain ⟨h1, h2⟩ := hstep _ _ _ ih.1 hst
    exact ⟨h1, .snoc ih.2 h2⟩

/-- **The forward rule**: if every step is matched by a step of the abstract system from every
state in the relation, then every run is matched by a run with the same labels. -/
theorem Run.forward {τ : Type*} {astep : τ → α → τ → Prop} {R : σ → τ → Prop}
    (hstep : ∀ s a t x, R s x → step s a t → ∃ y, astep x a y ∧ R t y)
    {s t : σ} {as : List α} {x : τ} (h : Run step s as t) (hR : R s x) :
    ∃ y, Run astep x as y ∧ R t y := by
  induction h with
  | nil => exact ⟨x, .nil x, hR⟩
  | snoc _ hst ih =>
    obtain ⟨y, hy, hRy⟩ := ih
    obtain ⟨z, hz, hRz⟩ := hstep _ _ _ _ hRy hst
    exact ⟨z, .snoc hy hz, hRz⟩

theorem Run.cons {s t u : σ} {a : α} {as : List α} (hst : step s a t) (h : Run step t as u) :
    Run step s (a :: as) u := by
  induction h with
  | nil => exact .snoc (.nil s) hst
  | snoc _ hst' ih => exact .snoc ih hst'

theorem Run.append {s t u : σ} {as bs : List α} (h : Run step s as t) (h' : Run step t bs u) :
    Run step s (as ++ bs) u := by
  induction h' with
  | nil => rwa [List.append_nil]
  | snoc _ hst ih =>
    rw [← List.append_assoc]
    exact .snoc ih hst

section Along

variable (ok : σ → α → Prop) (f : σ → α → σ)

/-- Each of the labels can be taken where the ones before it lead. -/
def Along : σ → List α → Prop
  | _, [] => True
  | s, a :: as => ok s a ∧ Along (f s a) as

instance [∀ s a, Decidable (ok s a)] (s : σ) (as : List α) : Decidable (Along ok f s as) := by
  induction as generalizing s with
  | nil => exact inferInstanceAs (Decidable True)
  | cons a as ih => exact inferInstanceAs (Decidable (ok s a ∧ Along ok f (f s a) as))

variable {ok f}

theorem Along.and {ok' : σ → α → Prop} {s : σ} {as : List α} (h : Along ok f s as)
    (h' : Along ok' f s as) : Along (fun s a => ok s a ∧ ok' s a) f s as := by
  induction as generalizing s with
  | nil => trivial
  | cons a as ih => exact ⟨⟨h.1, h'.1⟩, ih h.2 h'.2⟩

/-- Such labels are those of a run of a system that computes its next state. -/
theorem Run.along (hstep : ∀ s a, ok s a → step s a (f s a)) (s : σ) (as : List α)
    (h : Along ok f s as) : Run step s as (as.foldl f s) := by
  induction as generalizing s with
  | nil => exact .nil s
  | cons a as ih => exact .cons (hstep s a h.1) (ih _ h.2)

/-- **The following rule**: a system that computes its next state follows a run, as long as it can
take the labels and each step keeps the relation. -/
theorem Run.follow {τ : Type*} {ok : τ → α → Prop} {f : τ → α → τ} {R : σ → τ → Prop}
    (hstep : ∀ s a t x, R s x → ok x a → step s a t → R t (f x a)) {s t : σ} {as : List α} {x : τ}
    (h : Run step s as t) (hR : R s x) (hok : Along ok f x as) : R t (as.foldl f x) := by
  have hsplit : ∀ (as : List α) (a : α) (x : τ), Along ok f x (as ++ [a]) →
      Along ok f x as ∧ ok (as.foldl f x) a := by
    intro as a
    induction as with
    | nil => exact fun x h => ⟨trivial, h.1⟩
    | cons b as ih => exact fun x h => ⟨⟨h.1, (ih _ h.2).1⟩, (ih _ h.2).2⟩
  induction h with
  | nil => exact hR
  | @snoc _ _ as a _ hst ih =>
    obtain ⟨h1, h2⟩ := hsplit as a x hok
    rw [List.foldl_append]
    exact hstep _ _ _ _ (ih h1) h2 hst

end Along

end Coherent.Lib
