import Mathlib.Data.List.Infix

/-!
# Conditions along a run

A run of steps from a state, and a condition that each step meets in the state before it.

Result: `forall_prefix_iff`, a property that a step keeps exactly when it meets the condition holds all
along a run exactly when all of its steps do.
-/

/-- Every step of a run meets a condition, on the state before it. -/
def Along {σ α : Type} (next : σ → α → σ) (P : σ → α → Prop) : σ → List α → Prop
  | _, [] => True
  | s, x :: xs => P s x ∧ Along next P (next s x) xs

namespace Along

variable {σ α : Type} {next : σ → α → σ} {P : σ → α → Prop}

instance decidable [∀ s x, Decidable (P s x)] : (s : σ) → (xs : List α) → Decidable (Along next P s xs)
  | _, [] => inferInstanceAs (Decidable True)
  | s, x :: xs =>
    have := decidable (next s x) xs
    inferInstanceAs (Decidable (P s x ∧ Along next P (next s x) xs))

theorem left {s : σ} {xs ys : List α} (h : Along next P s (xs ++ ys)) : Along next P s xs := by
  induction xs generalizing s with
  | nil => trivial
  | cons x xs ih => exact ⟨h.1, ih h.2⟩

/-- A property of all states that a run passes through. -/
theorem forall_prefix_iff {Inv Good : σ → Prop} (hinv : ∀ s x, Inv s → Inv (next s x))
    (hstep : ∀ s x, Inv s → Good s → (Good (next s x) ↔ P s x)) {s : σ} {xs : List α} (hs : Inv s)
    (hgood : Good s) : (∀ pre, pre <+: xs → Good (pre.foldl next s)) ↔ Along next P s xs := by
  induction xs generalizing s with
  | nil =>
    refine iff_of_true (fun pre hpre => ?_) trivial
    rw [List.prefix_nil.mp hpre]
    exact hgood
  | cons x xs ih =>
    constructor
    · intro hall
      have hnext : Good (next s x) := hall [x] ⟨xs, rfl⟩
      refine ⟨(hstep s x hs hgood).mp hnext, (ih (hinv s x hs) hnext).mp fun pre hpre => ?_⟩
      exact hall (x :: pre) ((List.prefix_cons_inj x).mpr hpre)
    · rintro ⟨hx, hrest⟩ pre hpre
      cases pre with
      | nil => exact hgood
      | cons y pre =>
        obtain ⟨rfl, htail⟩ := List.cons_prefix_cons.mp hpre
        exact (ih (hinv s y hs) ((hstep s y hs hgood).mpr hx)).mpr hrest pre htail

end Along
