import Mathlib.Data.List.Basic

/-!
# Lists that are read in groups

A codec that reads its input in groups of two, three or four elements, the last group on its own
terms. An induction over the groups has one case for the end and one for a group before it.

Results:
1. `pairs_of_length`, `triples_of_length`, `quads_of_length`: the length decides.
-/

namespace Chunked

variable {α : Type} {n : Nat} {s : List α}

/-- Groups of two. -/
inductive Pairs : List α → Prop
  | nil : Pairs []
  | step (c d : α) (rest : List α) : Pairs rest → Pairs (c :: d :: rest)

/-- Groups of three, and a last one of two. -/
inductive Triples : List α → Prop
  | last (x y : α) : Triples [x, y]
  | step (x y z w : α) (rest : List α) : Triples (w :: rest) → Triples (x :: y :: z :: w :: rest)

/-- Groups of four, of which the last is told apart from the others. -/
inductive Quads : List α → Prop
  | last (a b c d : α) : Quads [a, b, c, d]
  | step (a b c d e f : α) (rest : List α) : Quads (e :: f :: rest) → Quads (a :: b :: c :: d :: e :: f :: rest)

theorem pairs_of_length (h : s.length = 2 * n) : Pairs s := by
  induction n generalizing s with
  | zero =>
    rw [List.eq_nil_of_length_eq_zero h]
    exact .nil
  | succ n ih =>
    obtain ⟨c, s, rfl⟩ := List.exists_of_length_succ s h
    have h₁ := Nat.succ.inj h
    obtain ⟨d, s, rfl⟩ := List.exists_of_length_succ s h₁
    exact .step c d s (ih (Nat.succ.inj h₁))

theorem triples_of_length (h : s.length = 3 * n + 2) : Triples s := by
  induction n generalizing s with
  | zero =>
    obtain ⟨x, y, rfl⟩ := List.length_eq_two.mp h
    exact .last x y
  | succ n ih =>
    obtain ⟨x, s, rfl⟩ := List.exists_of_length_succ s h
    have h₁ := Nat.succ.inj h
    obtain ⟨y, s, rfl⟩ := List.exists_of_length_succ s h₁
    have h₂ := Nat.succ.inj h₁
    obtain ⟨z, s, rfl⟩ := List.exists_of_length_succ s h₂
    have h₃ : s.length = 3 * n + 2 := Nat.succ.inj h₂
    obtain ⟨w, s, rfl⟩ := List.exists_of_length_succ s h₃
    exact .step x y z w s (ih h₃)

theorem quads_of_length (h : s.length = 4 * n + 4) : Quads s := by
  induction n generalizing s with
  | zero =>
    obtain ⟨a, s, rfl⟩ := List.exists_of_length_succ s h
    obtain ⟨b, c, d, rfl⟩ := List.length_eq_three.mp (Nat.succ.inj h)
    exact .last a b c d
  | succ n ih =>
    obtain ⟨a, s, rfl⟩ := List.exists_of_length_succ s h
    have h₁ := Nat.succ.inj h
    obtain ⟨b, s, rfl⟩ := List.exists_of_length_succ s h₁
    have h₂ := Nat.succ.inj h₁
    obtain ⟨c, s, rfl⟩ := List.exists_of_length_succ s h₂
    have h₃ := Nat.succ.inj h₂
    obtain ⟨d, s, rfl⟩ := List.exists_of_length_succ s h₃
    have h₄ : s.length = 4 * n + 4 := Nat.succ.inj h₃
    obtain ⟨e, s, rfl⟩ := List.exists_of_length_succ s h₄
    obtain ⟨f, s, rfl⟩ := List.exists_of_length_succ s (Nat.succ.inj h₄)
    exact .step a b c d e f s (ih h₄)

end Chunked
