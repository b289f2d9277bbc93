import Mathlib.Data.List.AList

/-!
# Association lists

The keys of Mathlib's `AList` after an insertion or a removal, as lists without a repetition, and what
a list of insertions leaves.

Results:
1. `keys_insert_of_not_mem`: a new key comes first.
2. `keys_perm_erase`: a removed key was one of the keys, once.
3. `lookup_insertAll`: of the insertions with one key, the last one counts.
4. `entries_insertAll`: insertions with different keys are all there, once.
-/

namespace AssocList

variable {α : Type} {β : α → Type} [DecidableEq α] {s : AList β} {a : α} {b : β a}

theorem keys_insert_of_not_mem (h : a ∉ s) : (s.insert a b).keys = a :: s.keys := by
  rw [AList.keys_insert, List.erase_of_not_mem h]

theorem keys_perm_erase (h : a ∈ s) : s.keys.Perm (a :: (s.erase a).keys) := by
  rw [AList.keys_erase]
  exact List.perm_cons_erase h

section InsertAll

variable {γ β' : Type} (key : γ → α) (value : γ → β')

/-- Insert the entries of a list, one after the other. -/
def insertAll (s : AList fun _ : α => β') (xs : List γ) : AList fun _ : α => β' :=
  xs.foldl (fun s x => s.insert (key x) (value x)) s

/-- Of the insertions with one key, the last one counts. -/
theorem lookup_insertAll (s : AList fun _ : α => β') (xs : List γ) (a : α) :
    (insertAll key value s xs).lookup a =
      ((xs.reverse.find? fun x => key x = a).map value).or (s.lookup a) := by
  induction xs generalizing s with
  | nil => rfl
  | cons x xs ih =>
    rw [insertAll, List.foldl_cons, ← insertAll, ih, List.reverse_cons, List.find?_append]
    by_cases h : key x = a
    · subst h
      cases xs.reverse.find? fun y => key y = key x <;> simp
    · cases xs.reverse.find? fun y => key y = a <;> simp [h, AList.lookup_insert_ne (Ne.symm h)]

/-- Insertions with different keys are all there, once. -/
theorem entries_insertAll {s : AList fun _ : α => β'} {xs : List γ}
    (hnew : ∀ x ∈ xs, key x ∉ s) (hdistinct : xs.Pairwise fun x y => key x ≠ key y) :
    (insertAll key value s xs).entries.Perm (xs.map (fun x => ⟨key x, value x⟩) ++ s.entries) := by
  induction xs generalizing s with
  | nil => exact .refl _
  | cons x xs ih =>
    obtain ⟨hx, hxs⟩ := List.pairwise_cons.mp hdistinct
    have hfresh : ∀ y ∈ xs, key y ∉ s.insert (key x) (value x) := by
      intro y hy hmem
      rcases (AList.mem_insert s).mp hmem with heq | hmem
      · exact hx y hy heq.symm
      · exact hnew y (List.mem_cons_of_mem _ hy) hmem
    have hperm := ih hfresh hxs
    rw [AList.entries_insert_of_notMem (hnew x List.mem_cons_self)] at hperm
    exact hperm.trans List.perm_middle

end InsertAll

end AssocList
