import Mathlib.Data.List.Basic
import Mathlib.Logic.Function.Basic

/-!
# Chains of pointers

Singly linked lists in a memory that is one map from nodes to next nodes. A chain is the list of the
nodes that are visited from a pointer on until a null pointer is found.

Results:
1. `IsChain.unique`, `IsChain.nodup`: a pointer has at most one chain, and no node is in it twice.
2. `IsChain.update_of_not_mem`: writing to another node changes nothing.
3. `IsChain.append`: writing a pointer to the last node of a chain appends the chain of that pointer.
4. `IsChain.remove`: writing the pointer of the next node to a node takes the next node out.
-/

namespace PointerChain

variable {α : Type} {next : α → Option α} {p q : Option α} {as bs : List α}

/-- The nodes from `p` on. -/
def IsChain (next : α → Option α) : Option α → List α → Prop
  | p, [] => p = none
  | p, a :: as => p = some a ∧ IsChain next (next a) as

theorem IsChain.eq_head? (h : IsChain next p as) : p = as.head? := by
  cases as with
  | nil => exact h
  | cons a as => exact h.1

theorem IsChain.unique (h : IsChain next p as) (h' : IsChain next p bs) : as = bs := by
  induction as generalizing p bs with
  | nil =>
    cases bs with
    | nil => rfl
    | cons b bs => cases h.symm.trans h'.1
  | cons a as ih =>
    cases bs with
    | nil => cases h.1.symm.trans h'
    | cons b bs =>
      cases h.1.symm.trans h'.1
      rw [ih h.2 h'.2]

/-- The chain of a node in a chain. -/
theorem IsChain.of_append {a : α} (h : IsChain next p (as ++ a :: bs)) :
    IsChain next (some a) (a :: bs) := by
  induction as generalizing p with
  | nil => exact ⟨rfl, h.2⟩
  | cons b as ih => exact ih h.2

theorem IsChain.nodup (h : IsChain next p as) : as.Nodup := by
  induction as generalizing p with
  | nil => exact List.nodup_nil
  | cons a as ih =>
    refine List.nodup_cons.mpr ⟨fun hmem => ?_, ih h.2⟩
    -- the chain of a node that is visited again would be shorter than itself
    obtain ⟨bs, cs, rfl⟩ := List.append_of_mem hmem
    have hsame := IsChain.unique (h.1 ▸ h) (h.2.of_append)
    have hlength := congrArg List.length hsame
    simp only [List.length_cons, List.length_append] at hlength
    omega

variable [DecidableEq α]

theorem IsChain.update_of_not_mem (h : IsChain next p as) {a : α} (ha : a ∉ as) (v : Option α) :
    IsChain (Function.update next a v) p as := by
  induction as generalizing p with
  | nil => exact h
  | cons b as ih =>
    rw [List.mem_cons, not_or] at ha
    refine ⟨h.1, ?_⟩
    rw [Function.update_of_ne (Ne.symm ha.1)]
    exact ih h.2 ha.2

theorem IsChain.append (h : IsChain next p as) {a : α} (ha : a ∈ as.getLast?)
    (hq : IsChain next q bs) (hbs : a ∉ bs) : IsChain (Function.update next a q) p (as ++ bs) := by
  have hnodup := h.nodup
  induction as generalizing p with
  | nil => cases ha
  | cons b as ih =>
    refine ⟨h.1, ?_⟩
    cases as with
    | nil =>
      obtain rfl : b = a := by simpa using ha
      rw [Function.update_self]
      exact hq.update_of_not_mem hbs q
    | cons c as =>
      have hlast : a ∈ (c :: as).getLast? := ha
      have hne : b ≠ a := by
        rintro rfl
        exact (List.nodup_cons.mp hnodup).1 (List.mem_of_mem_getLast? hlast)
      rw [Function.update_of_ne hne]
      exact ih h.2 hlast (List.nodup_cons.mp hnodup).2

/-- Taking a node out of a chain. -/
theorem IsChain.remove {a b : α} (h : IsChain next p (as ++ a :: b :: bs)) :
    IsChain (Function.update next a (next b)) p (as ++ a :: bs) := by
  have hnodup := h.nodup
  induction as generalizing p with
  | nil =>
    refine ⟨h.1, ?_⟩
    rw [Function.update_self]
    have ha : a ∉ bs := fun hmem => (List.nodup_cons.mp hnodup).1 (List.mem_cons_of_mem _ hmem)
    exact h.2.2.update_of_not_mem ha _
  | cons c as ih =>
    have hne : c ≠ a := by
      rintro rfl
      exact (List.nodup_cons.mp hnodup).1 (List.mem_append_right _ List.mem_cons_self)
    refine ⟨h.1, ?_⟩
    rw [Function.update_of_ne hne]
    exact ih h.2 (List.nodup_cons.mp hnodup).2

end PointerChain
