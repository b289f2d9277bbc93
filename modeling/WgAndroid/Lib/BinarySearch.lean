import Mathlib.Data.Int.Order.Basic
import Mathlib.Data.List.Basic
import Mathlib.Order.Lattice

/-!
# Binary search by a comparator

`java.util.Collections.binarySearch` on a list of keys: the index of a key that compares as equal,
or the place where the key would be inserted, coded as a negative number.

Results:
1. `binarySearch_nonneg`: a found index is in the list and its key compares as equal.
2. `binarySearch_neg`: otherwise the coded insertion point is at most the length of the list.
3. `binarySearch_sorted`: on sorted keys a key is found if it is there, and otherwise the insertion
   point separates the smaller keys from the greater ones.
4. `binarySearch_congr`: the search sees no more of a comparator than its results on the keys.
-/

namespace BinarySearch

variable {K : Type}

/-- The loop of the search over the keys from `low` to before `high`, with the number of rounds that
are left. -/
def loop (compare : K → K → Int) (keys : List K) (key : K) : Nat → Nat → Nat → Int
  | 0, low, _ => -(low + 1)
  | rounds + 1, low, high =>
    if low < high then
      let mid := (low + (high - 1)) / 2
      match keys[mid]? with
      | none => -(low + 1)
      | some k =>
        if compare k key < 0 then loop compare keys key rounds (mid + 1) high
        else if 0 < compare k key then loop compare keys key rounds low mid
        else mid
    else -(low + 1)

/-- Every round takes at least one key out of the range, so the length is enough rounds. -/
def binarySearch (compare : K → K → Int) (keys : List K) (key : K) : Int :=
  loop compare keys key keys.length 0 keys.length

variable {compare : K → K → Int} {keys : List K} {key : K}

theorem loop_nonneg {rounds low high : Nat} (h : 0 ≤ loop compare keys key rounds low high) :
    ∃ i : Nat, loop compare keys key rounds low high = i ∧ ∃ k, keys[i]? = some k ∧ compare k key = 0 := by
  fun_induction loop compare keys key rounds low high with
  | case1 => omega
  | case2 => omega
  | case3 rounds low high hlt mid k hk hless ih => exact ih h
  | case4 rounds low high hlt mid k hk hless hmore ih => exact ih h
  | case5 rounds low high hlt mid k hk hless hmore => exact ⟨mid, rfl, k, hk, by omega⟩
  | case6 => omega

theorem loop_neg {rounds low high : Nat} (hlow : low ≤ high) (hhigh : high ≤ keys.length)
    (h : loop compare keys key rounds low high < 0) :
    ∃ i : Nat, loop compare keys key rounds low high = -(i + 1) ∧ i ≤ keys.length := by
  fun_induction loop compare keys key rounds low high with
  | case1 low high => exact ⟨low, rfl, Nat.le_trans hlow hhigh⟩
  | case2 rounds low high => exact ⟨low, rfl, Nat.le_trans hlow hhigh⟩
  | case3 rounds low high hlt mid k hk hless ih =>
    have hmid : mid + 1 ≤ high := by omega
    exact ih hmid hhigh h
  | case4 rounds low high hlt mid k hk hless hmore ih =>
    have hmid : low ≤ mid ∧ mid ≤ high := by omega
    exact ih hmid.1 (Nat.le_trans hmid.2 hhigh) h
  | case5 rounds low high hlt mid => omega
  | case6 rounds low high => exact ⟨low, rfl, Nat.le_trans hlow hhigh⟩

/-- A found index is in the list and its key compares as equal. -/
theorem binarySearch_nonneg (h : 0 ≤ binarySearch compare keys key) :
    ∃ i : Nat, binarySearch compare keys key = i ∧ ∃ k, keys[i]? = some k ∧ compare k key = 0 :=
  loop_nonneg h

/-- Otherwise the coded insertion point is at most the length of the list. -/
theorem binarySearch_neg (h : binarySearch compare keys key < 0) :
    ∃ i : Nat, binarySearch compare keys key = -(i + 1) ∧ i ≤ keys.length :=
  loop_neg (Nat.zero_le _) (Nat.le_refl _) h

theorem loop_congr {compare' : K → K → Int} (h : ∀ k ∈ keys, compare k key = compare' k key)
    (rounds low high : Nat) : loop compare keys key rounds low high = loop compare' keys key rounds low high := by
  induction rounds generalizing low high with
  | zero => rfl
  | succ rounds ih =>
    unfold loop
    split
    · dsimp only
      split
      · rfl
      · next k hk => rw [h k (List.mem_of_getElem? hk), ih, ih]
    · rfl

/-- The search sees no more of a comparator than its results on the keys. -/
theorem binarySearch_congr {compare' : K → K → Int} (h : ∀ k ∈ keys, compare k key = compare' k key) :
    binarySearch compare keys key = binarySearch compare' keys key :=
  loop_congr h _ _ _

/-! ## Sorted keys -/

/-- A comparator that is a strict order. -/
structure IsOrder (compare : K → K → Int) : Prop where
  swap : ∀ a b, compare a b < 0 ↔ 0 < compare b a
  trans : ∀ a b c, compare a b < 0 → compare b c < 0 → compare a c < 0

/-- Keys with different places in a linear order, compared by their places. -/
theorem isOrder_of_places {L : Type} [LinearOrder L] {place : K → L} (hplace : Function.Injective place)
    (hzero : ∀ a b, compare a b = 0 ↔ a = b) (hlt : ∀ a b, compare a b < 0 ↔ place a < place b) :
    IsOrder compare where
  swap a b := by
    have hba := hlt b a
    rcases lt_trichotomy (place a) (place b) with h | h | h
    · have hne : compare b a ≠ 0 := fun h₀ => h.ne (congrArg place ((hzero b a).mp h₀).symm)
      exact iff_of_true ((hlt a b).mpr h) (lt_of_le_of_ne (not_lt.mp fun h' => h.asymm (hba.mp h')) hne.symm)
    · cases hplace h
      rw [(hzero a a).mpr rfl]
    · exact iff_of_false (fun h' => h.asymm ((hlt a b).mp h')) (not_lt.mpr (le_of_lt (hba.mpr h)))
  trans a b c hab hbc := (hlt a c).mpr (lt_trans ((hlt a b).mp hab) ((hlt b c).mp hbc))

/-- The keys strictly increase. -/
def Sorted (compare : K → K → Int) (keys : List K) : Prop := keys.Pairwise fun a b => compare a b < 0

/-- The keys before `i` are smaller, the others greater. -/
structure Separates (compare : K → K → Int) (keys : List K) (key : K) (i : Nat) : Prop where
  le_length : i ≤ keys.length
  before : ∀ k ∈ keys.take i, compare k key < 0
  after : ∀ k ∈ keys.drop i, 0 < compare k key

variable {k : K} {i low high rounds : Nat}

theorem drop_of_getElem? (h : keys[i]? = some k) : keys.drop i = k :: keys.drop (i + 1) := by
  obtain ⟨hi, rfl⟩ := List.getElem?_eq_some_iff.mp h
  exact List.drop_eq_getElem_cons hi

theorem eq_append_of_getElem? (h : keys[i]? = some k) : keys = keys.take i ++ k :: keys.drop (i + 1) := by
  rw [← drop_of_getElem? h, List.take_append_drop]

/-- Around a key of sorted keys the smaller and the greater ones are apart. -/
theorem Sorted.around (hkeys : Sorted compare keys) (h : keys[i]? = some k) :
    (∀ x ∈ keys.take i, compare x k < 0) ∧ ∀ x ∈ keys.drop (i + 1), compare k x < 0 := by
  unfold Sorted at hkeys
  rw [eq_append_of_getElem? h, List.pairwise_append, List.pairwise_cons] at hkeys
  exact ⟨fun x hx => hkeys.2.2 x hx k List.mem_cons_self, hkeys.2.1.1⟩

/-- The window shrinks to the key, or to the place between the smaller and the greater ones. -/
theorem loop_sorted (ho : IsOrder compare) (hkeys : Sorted compare keys) (hrounds : high ≤ low + rounds)
    (hlow : low ≤ high) (hhigh : high ≤ keys.length) (hbefore : ∀ k ∈ keys.take low, compare k key < 0)
    (hafter : ∀ k ∈ keys.drop high, 0 < compare k key) :
    (∃ i : Nat, loop compare keys key rounds low high = i ∧ ∃ k, keys[i]? = some k ∧ compare k key = 0) ∨
      ∃ i : Nat, loop compare keys key rounds low high = -(i + 1) ∧ Separates compare keys key i := by
  fun_induction loop compare keys key rounds low high with
  | case1 low high =>
    cases Nat.le_antisymm hlow hrounds
    exact .inr ⟨low, rfl, hhigh, hbefore, hafter⟩
  | case2 rounds low high hlt mid hnone =>
    have hmid : mid < keys.length := by omega
    rw [List.getElem?_eq_none_iff] at hnone
    omega
  | case3 rounds low high hlt mid k hk hless ih =>
    have hmid : mid < high ∧ low ≤ mid := by omega
    obtain ⟨hsmaller, -⟩ := hkeys.around hk
    refine ih (by omega) (by omega) hhigh ?_ hafter
    intro x hx
    rw [List.take_add_one, hk] at hx
    rcases List.mem_append.mp hx with hx | hx
    · exact ho.trans x k key (hsmaller x hx) hless
    · cases List.mem_singleton.mp hx
      exact hless
  | case4 rounds low high hlt mid k hk hless hmore ih =>
    have hmid : mid < high ∧ low ≤ mid := by omega
    obtain ⟨-, hgreater⟩ := hkeys.around hk
    refine ih (by omega) (by omega) (by omega) hbefore ?_
    intro x hx
    rw [drop_of_getElem? hk] at hx
    rcases List.mem_cons.mp hx with rfl | hx
    · exact hmore
    · exact (ho.swap key x).mp (ho.trans key k x ((ho.swap key k).mpr hmore) (hgreater x hx))
  | case5 rounds low high hlt mid k hk hless hmore => exact .inl ⟨mid, rfl, k, hk, by omega⟩
  | case6 rounds low high hlt =>
    cases Nat.le_antisymm hlow (Nat.le_of_not_lt hlt)
    exact .inr ⟨low, rfl, hhigh, hbefore, hafter⟩

/-- On sorted keys the search finds the key if it is there, and otherwise its place. -/
theorem binarySearch_sorted (ho : IsOrder compare) (hkeys : Sorted compare keys) (key : K) :
    (∃ i : Nat, binarySearch compare keys key = i ∧ ∃ k, keys[i]? = some k ∧ compare k key = 0) ∨
      ∃ i : Nat, binarySearch compare keys key = -(i + 1) ∧ Separates compare keys key i := by
  refine loop_sorted ho hkeys (Nat.le_add_left _ _) (Nat.zero_le _) (Nat.le_refl _) ?_ ?_
  · simp
  · simp

end BinarySearch
