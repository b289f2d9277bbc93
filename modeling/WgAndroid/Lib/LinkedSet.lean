import Mathlib.Data.List.Perm.Subperm

/-!
# Insertion-ordered sets

A set kept as the list of its elements in the order in which they were first added. Two elements
are the same when `==` says so, which may be coarser than equality.

Results:
1. `addAll_distinct`: adding pairwise distinct elements to the empty set keeps all of them, in order.
2. `addAll_eq_eraseDups`: with a lawful `==` the elements are the first occurrences.
3. `equals_iff_contains`: equal sizes and one inclusion make two sets the same, when `==` compares keys.
-/

structure LinkedSet (α : Type) [BEq α] where
  elems : List α
  distinct : elems.Pairwise fun a b => (a == b) = false

namespace LinkedSet

variable {α : Type} [BEq α]

instance [DecidableEq α] : DecidableEq (LinkedSet α)
  | ⟨xs, _⟩, ⟨ys, _⟩ => if h : xs = ys then isTrue (by subst h; rfl) else isFalse (by simpa using h)

@[ext]
theorem ext {s t : LinkedSet α} (h : s.elems = t.elems) : s = t := by
  cases s
  cases t
  cases h
  rfl

def empty : LinkedSet α := ⟨[], List.Pairwise.nil⟩

def contains (s : LinkedSet α) (x : α) : Bool := s.elems.any (· == x)

def isEmpty (s : LinkedSet α) : Bool := s.elems.isEmpty

theorem pairwise_concat {l : List α} (h : l.Pairwise fun a b => (a == b) = false) {x : α}
    (hx : l.any (· == x) = false) : (l ++ [x]).Pairwise fun a b => (a == b) = false := by
  rw [List.pairwise_append]
  refine ⟨h, List.pairwise_singleton _ _, ?_⟩
  intro a ha b hb
  rw [List.mem_singleton] at hb
  subst hb
  simpa using List.any_eq_false.mp hx a ha

/-- An element that is already there is not added again: the one added first stays. -/
def add (s : LinkedSet α) (x : α) : LinkedSet α :=
  if h : s.elems.any (· == x) = true then s
  else ⟨s.elems ++ [x], pairwise_concat s.distinct (by simpa using h)⟩

def addAll (s : LinkedSet α) (xs : List α) : LinkedSet α := xs.foldl add s

def removeAll (s : LinkedSet α) (xs : List α) : LinkedSet α :=
  ⟨s.elems.filter fun x => !xs.contains x, s.distinct.filter _⟩

@[simp] theorem addAll_nil (s : LinkedSet α) : s.addAll [] = s := rfl

@[simp] theorem addAll_cons (s : LinkedSet α) (x : α) (xs : List α) :
    s.addAll (x :: xs) = (s.add x).addAll xs := rfl

theorem addAll_append (s : LinkedSet α) (xs ys : List α) :
    s.addAll (xs ++ ys) = (s.addAll xs).addAll ys := List.foldl_append

theorem removeAll_elems {s : LinkedSet α} {xs : List α} :
    (s.removeAll xs).elems = s.elems.filter fun x => !xs.contains x := rfl

@[simp] theorem empty_elems : (empty : LinkedSet α).elems = [] := rfl

theorem add_elems_of_new {s : LinkedSet α} {x : α} (h : s.elems.any (· == x) = false) :
    (s.add x).elems = s.elems ++ [x] := by
  simp [add, h]

theorem add_of_old {s : LinkedSet α} {x : α} (h : s.elems.any (· == x) = true) : s.add x = s := by
  simp [add, h]

/-- Elements that are pairwise distinct, and distinct from those of the set, are all added. -/
theorem addAll_elems {s : LinkedSet α} {xs : List α}
    (h : (s.elems ++ xs).Pairwise fun a b => (a == b) = false) :
    (s.addAll xs).elems = s.elems ++ xs := by
  induction xs generalizing s with
  | nil => simp
  | cons x xs ih =>
    have hnew : s.elems.any (· == x) = false := by
      rw [List.any_eq_false]
      intro a ha
      simpa using (List.pairwise_append.mp h).2.2 a ha x List.mem_cons_self
    have he := add_elems_of_new hnew
    rw [addAll_cons, ih (by rw [he]; simpa using h), he]
    simp

theorem addAll_distinct (s : LinkedSet α) : (empty : LinkedSet α).addAll s.elems = s := by
  ext1
  rw [addAll_elems (by simpa using s.distinct)]
  simp

theorem mem_add {s : LinkedSet α} {x y : α} (h : y ∈ (s.add x).elems) : y ∈ s.elems ∨ y = x := by
  unfold add at h
  split at h
  · exact .inl h
  · simpa using h

theorem mem_addAll {s : LinkedSet α} {xs : List α} {y : α} (h : y ∈ (s.addAll xs).elems) :
    y ∈ s.elems ∨ y ∈ xs := by
  induction xs generalizing s with
  | nil => exact .inl h
  | cons x xs ih =>
    rcases ih h with h | h
    · rcases mem_add h with h | rfl
      · exact .inl h
      · exact .inr List.mem_cons_self
    · exact .inr (List.mem_cons_of_mem _ h)

theorem mem_addAll_of_mem {s : LinkedSet α} {xs : List α} {y : α} (h : y ∈ s.elems) :
    y ∈ (s.addAll xs).elems := by
  induction xs generalizing s with
  | nil => exact h
  | cons x xs ih =>
    refine ih ?_
    unfold add
    split
    · exact h
    · exact List.mem_append_left _ h

theorem addAll_elems_eq_nil_iff {xs : List α} :
    ((empty : LinkedSet α).addAll xs).elems = [] ↔ xs = [] := by
  cases xs with
  | nil => simp
  | cons x xs =>
    have hx : x ∈ ((empty : LinkedSet α).addAll (x :: xs)).elems := by
      rw [addAll_cons]
      refine mem_addAll_of_mem ?_
      simp [add]
    exact iff_of_false (List.ne_nil_of_mem hx) (List.cons_ne_nil _ _)

theorem mem_of_mem_addAll_empty {xs : List α} {y : α}
    (h : y ∈ ((empty : LinkedSet α).addAll xs).elems) : y ∈ xs :=
  (mem_addAll h).elim (fun h => nomatch h) id

/-- Elements that are told apart from the others may be taken out first. -/
theorem filter_addAll {q : α → Bool} (hq : ∀ x y, (x == y) = true → q x = q y) {s t : LinkedSet α} {xs : List α}
    (h : s.elems.filter q = t.elems) : (s.addAll xs).elems.filter q = (t.addAll (xs.filter q)).elems := by
  induction xs generalizing s t with
  | nil => exact h
  | cons x xs ih =>
    have hany : q x = true → t.elems.any (· == x) = s.elems.any (· == x) := by
      intro hx
      rw [← h, List.any_filter]
      congr 1
      funext y
      cases hy : y == x with
      | false => rw [Bool.and_false]
      | true => rw [hq y x hy, hx, Bool.and_true]
    rw [addAll_cons]
    cases hx : q x with
    | false =>
      rw [List.filter_cons_of_neg (by rw [hx]; decide)]
      refine ih ?_
      unfold add
      split
      · exact h
      · rw [List.filter_append, h, List.filter_cons_of_neg (by rw [hx]; decide), List.filter_nil, List.append_nil]
    | true =>
      rw [List.filter_cons_of_pos hx, addAll_cons]
      refine ih ?_
      cases hs : s.elems.any (· == x) with
      | true => rw [add_of_old hs, add_of_old ((hany hx).trans hs), h]
      | false =>
        rw [add_elems_of_new hs, add_elems_of_new ((hany hx).trans hs), List.filter_append, h,
          List.filter_cons_of_pos hx, List.filter_nil]

theorem contains_addAll {s : LinkedSet α} {xs : List α} {x : α} (h : s.contains x = true) :
    (s.addAll xs).contains x = true := by
  obtain ⟨y, hy, heq⟩ := List.any_eq_true.mp h
  exact List.any_eq_true.mpr ⟨y, mem_addAll_of_mem hy, heq⟩

section Refl

variable [ReflBEq α]

theorem contains_add {s : LinkedSet α} {x : α} : (s.add x).contains x = true := by
  unfold add contains
  split
  · next hold => exact hold
  · rw [List.any_append, List.any_cons, BEq.refl, Bool.true_or, Bool.or_true]

/-- Of every element that was added there is one that is the same. -/
theorem contains_of_mem {s : LinkedSet α} {xs : List α} {x : α} (h : x ∈ xs) : (s.addAll xs).contains x = true := by
  induction xs generalizing s with
  | nil => cases h
  | cons y xs ih =>
    rcases List.mem_cons.mp h with rfl | h
    · rw [addAll_cons]
      exact contains_addAll contains_add
    · exact ih h

section FilterMap

variable {β : Type} [BEq β] [LawfulBEq β] {f : β → Option α}

omit [ReflBEq α] in
/-- What gives an element that is already there can be left out. -/
theorem addAll_filterMap_filter {s : LinkedSet α} {x : β} {xs : List β} (h : ∀ y ∈ f x, s.contains y = true) :
    s.addAll ((xs.filter fun z => !z == x).filterMap f) = s.addAll (xs.filterMap f) := by
  induction xs generalizing s with
  | nil => rfl
  | cons z xs ih =>
    by_cases hz : z = x
    · rw [List.filter_cons_of_neg (by simpa using hz), List.filterMap_cons, hz]
      cases hf : f x with
      | none => exact ih h
      | some y =>
        rw [addAll_cons, add_of_old (h y hf)]
        exact ih h
    · rw [List.filter_cons_of_pos (by simpa using hz), List.filterMap_cons, List.filterMap_cons]
      cases f z with
      | none => exact ih h
      | some y =>
        rw [addAll_cons, addAll_cons]
        refine ih fun w hw => ?_
        have hkept : (s.addAll [y]).contains w = true := contains_addAll (h w hw)
        exact hkept

theorem addAll_filterMap_eraseDups (xs : List β) (s : LinkedSet α) :
    s.addAll (xs.eraseDups.filterMap f) = s.addAll (xs.filterMap f) := by
  induction hn : xs.length using Nat.strongRecOn generalizing xs s with
  | _ n ih =>
    cases xs with
    | nil => rfl
    | cons x xs =>
      have hlt : (xs.filter fun z => !z == x).length < n :=
        hn ▸ Nat.lt_succ_of_le (List.length_filter_le _ _)
      rw [List.eraseDups_cons, List.filterMap_cons, List.filterMap_cons]
      cases hf : f x with
      | none =>
        rw [ih _ hlt _ _ rfl]
        exact addAll_filterMap_filter fun y hy => nomatch hf ▸ hy
      | some y =>
        rw [addAll_cons, addAll_cons, ih _ hlt _ _ rfl]
        refine addAll_filterMap_filter fun w hw => ?_
        rw [hf] at hw
        cases hw
        exact contains_add

end FilterMap

end Refl

section Lawful

variable [LawfulBEq α]

theorem addAll_elems_eq (s : LinkedSet α) (xs : List α) :
    (s.addAll xs).elems = s.elems ++ (xs.filter fun x => !s.elems.contains x).eraseDups := by
  induction xs generalizing s with
  | nil => simp
  | cons x xs ih =>
    rw [addAll_cons, ih]
    by_cases hx : x ∈ s.elems
    · have hany : s.elems.any (· == x) = true := by simpa using hx
      rw [add_of_old hany]
      simp [hx]
    · have hany : s.elems.any (· == x) = false := by
        rw [List.any_eq_false]
        intro a ha h
        exact hx (eq_of_beq h ▸ ha)
      rw [add_elems_of_new hany]
      simp only [List.append_assoc, List.singleton_append, List.append_cancel_left_eq]
      rw [List.filter_cons_of_pos (by simpa using hx), List.eraseDups_cons, List.filter_filter]
      congr 2
      refine List.filter_congr fun y _ => ?_
      simp only [List.contains_eq_mem, List.mem_append, List.mem_singleton]
      by_cases hy : y = x <;> by_cases hys : y ∈ s.elems <;> simp [hy, hys]

theorem addAll_eq_eraseDups (xs : List α) :
    ((empty : LinkedSet α).addAll xs).elems = xs.eraseDups := by
  rw [addAll_elems_eq]
  simp

theorem nodup (s : LinkedSet α) : s.elems.Nodup :=
  s.distinct.imp fun h heq => by
    rw [heq, BEq.refl] at h
    cases h

theorem mem_addAll_iff {s : LinkedSet α} {xs : List α} {y : α} :
    y ∈ (s.addAll xs).elems ↔ y ∈ s.elems ∨ y ∈ xs := by
  rw [addAll_elems_eq]
  simp only [List.mem_append, List.mem_eraseDups, List.mem_filter, List.contains_eq_mem]
  by_cases hy : y ∈ s.elems <;> simp [hy]

theorem eraseDups_nodup (xs : List α) : xs.eraseDups.Nodup := by
  rw [← addAll_eq_eraseDups]
  exact nodup _

/-- A last element that is new stays the last one. -/
theorem eraseDups_concat {xs : List α} {x : α} (h : x ∉ xs) : (xs ++ [x]).eraseDups = xs.eraseDups ++ [x] := by
  have hnew : [x].removeAll xs = [x] := by simp [List.removeAll, h]
  rw [List.eraseDups_append, hnew]
  rfl

/-- The first element stays the first one, and the others come from behind it. -/
theorem eraseDups_eq_cons {xs ys : List α} {y : α} (h : xs.eraseDups = y :: ys) :
    ∃ zs, xs = y :: zs ∧ ∀ z ∈ ys, z ∈ zs := by
  cases xs with
  | nil => cases h
  | cons x xs =>
    rw [List.eraseDups_cons] at h
    cases h
    refine ⟨xs, rfl, fun z hz => ?_⟩
    exact List.mem_of_mem_filter (List.mem_eraseDups.mp hz)

end Lawful

/-! ## Equality of sets -/

/-- The sets have the same number of elements, and one contains those of the other. -/
def equals (s t : LinkedSet α) : Bool := t.elems.length == s.elems.length && t.elems.all s.contains

section Keyed

variable {κ : Type} {key : α → κ} (hkey : ∀ a b : α, (a == b) = true ↔ key a = key b)

include hkey

theorem contains_iff {s : LinkedSet α} {x : α} : s.contains x = true ↔ key x ∈ s.elems.map key := by
  simp only [contains, List.any_eq_true, List.mem_map, hkey]

theorem nodup_keys (s : LinkedSet α) : (s.elems.map key).Nodup := by
  rw [List.nodup_iff_pairwise_ne, List.pairwise_map]
  refine s.distinct.imp fun {a b} hne heq => ?_
  rw [(hkey a b).mpr heq] at hne
  cases hne

/-- Equal sets have the same keys, in some order. -/
theorem equals_iff_perm {s t : LinkedSet α} :
    s.equals t = true ↔ (s.elems.map key).Perm (t.elems.map key) := by
  rw [equals, Bool.and_eq_true, beq_iff_eq, List.all_eq_true]
  simp only [contains_iff hkey]
  constructor
  · rintro ⟨hlength, hsubset⟩
    have hsubperm : (t.elems.map key).Subperm (s.elems.map key) :=
      (nodup_keys hkey t).subperm (List.forall_mem_map.mpr hsubset)
    have hle : (s.elems.map key).length ≤ (t.elems.map key).length :=
      Nat.le_of_eq (by rw [List.length_map, List.length_map, hlength])
    exact (hsubperm.perm_of_length_le hle).symm
  · intro hp
    refine ⟨?_, fun x hx => hp.mem_iff.mpr (List.mem_map_of_mem hx)⟩
    simpa using hp.length_eq.symm

theorem equals_iff_contains {s t : LinkedSet α} :
    s.equals t = true ↔ ∀ x, s.contains x = t.contains x := by
  rw [equals_iff_perm hkey]
  constructor
  · intro hp x
    rw [Bool.eq_iff_iff, contains_iff hkey, contains_iff hkey, hp.mem_iff]
  · intro h
    refine (List.perm_ext_iff_of_nodup (nodup_keys hkey s) (nodup_keys hkey t)).mpr fun k => ?_
    constructor
    · intro hk
      obtain ⟨x, hx, rfl⟩ := List.mem_map.mp hk
      rw [← contains_iff hkey, ← h x, contains_iff hkey]
      exact hk
    · intro hk
      obtain ⟨x, hx, rfl⟩ := List.mem_map.mp hk
      rw [← contains_iff hkey, h x, contains_iff hkey]
      exact hk

end Keyed

end LinkedSet
