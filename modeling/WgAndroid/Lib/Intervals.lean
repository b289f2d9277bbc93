import Mathlib.Order.Lattice

/-!
# Half-open intervals

Finitely many intervals, with the first point and the point behind the last one.

Result: `covers_joined`, intervals that touch may be joined.
-/

namespace Intervals

variable {α : Type} [LinearOrder α]

/-- A point lies in one of the intervals. -/
def Covers (rs : List (α × α)) (x : α) : Prop := ∃ r ∈ rs, r.1 ≤ x ∧ x < r.2

/-- An interval in front of others. It is joined with the first one if it ends where that one begins. -/
def joinFront (r : α × α) : List (α × α) → List (α × α)
  | [] => [r]
  | s :: rs => if r.2 = s.1 ∧ r.1 ≤ r.2 ∧ s.1 ≤ s.2 then (r.1, s.2) :: rs else r :: s :: rs

def joined (rs : List (α × α)) : List (α × α) := rs.foldr joinFront []

variable {r : α × α} {rs : List (α × α)} {x : α}

theorem covers_cons : Covers (r :: rs) x ↔ (r.1 ≤ x ∧ x < r.2) ∨ Covers rs x := by
  simp only [Covers, List.mem_cons, exists_eq_or_imp]

theorem covers_joinFront : Covers (joinFront r rs) x ↔ (r.1 ≤ x ∧ x < r.2) ∨ Covers rs x := by
  cases rs with
  | nil => exact covers_cons
  | cons s rs =>
    rw [joinFront]
    split
    · next htouch =>
      obtain ⟨heq, hr, hs⟩ := htouch
      rw [covers_cons, covers_cons, ← or_assoc]
      refine or_congr_left ⟨fun ⟨hfirst, hlast⟩ => ?_, ?_⟩
      · -- the point where they touch decides
        rcases lt_or_ge x r.2 with hx | hx
        · exact .inl ⟨hfirst, hx⟩
        · exact .inr ⟨heq ▸ hx, hlast⟩
      · rintro (⟨hfirst, hlast⟩ | ⟨hfirst, hlast⟩)
        · exact ⟨hfirst, lt_of_lt_of_le hlast (heq ▸ hs)⟩
        · exact ⟨le_trans hr (heq ▸ hfirst), hlast⟩
    · exact covers_cons

theorem covers_joined : Covers (joined rs) x ↔ Covers rs x := by
  induction rs with
  | nil => rfl
  | cons r rs ih => rw [joined, List.foldr_cons, covers_joinFront, covers_cons, ← ih, joined]

end Intervals
