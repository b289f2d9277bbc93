import Mathlib.Data.List.InsertIdx
import WgAndroid.Lib.BinarySearch
import WgAndroid.Lib.Checked

/-!
# The sorted keyed list

`ObservableSortedKeyedArrayList`: an array list that looks its elements up by a key, with a binary
search. The keys are read from the elements at every search, so an element whose key changes while
it is in the list may no longer be found.

Results:
1. `add_of_new`: an element whose key no element of the list has is inserted.
2. `get?_mem`: what a lookup finds is in the list.
3. `run_sorted`: with a comparator that is an order, the keys strictly increase after any operations,
   and a search finds what a linear one finds.
-/

namespace WgAndroid

open BinarySearch

/-- A `java.util.Comparator` that is zero on equal keys only. Nothing is said about the order, so
that a comparator that is none fits, too. -/
structure Comparator (K : Type) where
  compare : K → K → Int
  compare_eq_zero : ∀ {a b}, compare a b = 0 ↔ a = b

/-- The exception of `add`. -/
inductive ListException where
  | sameKey  -- "Element with same key already exists in list"
  deriving DecidableEq

namespace SortedKeyedList

variable {K E : Type} [DecidableEq E] (cmp : Comparator K) (key : E → K)

def indexOfKey (elems : List E) (k : K) : Int :=
  let index := binarySearch cmp.compare (elems.map key) k
  if 0 ≤ index then index else -1

def containsKey (elems : List E) (k : K) : Bool := decide (0 ≤ indexOfKey cmp key elems k)

def get? (elems : List E) (k : K) : Option E :=
  let index := indexOfKey cmp key elems k
  if 0 ≤ index then elems[index.toNat]? else none

def getInsertionPoint (elems : List E) (e : E) : Int :=
  -binarySearch cmp.compare (elems.map key) (key e) - 1

/-- `add(element)`; the flag says whether the list changed. -/
def add (elems : List E) (e : E) : Except ListException (Bool × List E) :=
  let insertionPoint := getInsertionPoint cmp key elems e
  if insertionPoint < 0 then
    -- skipping insertion is non-destructive if the new and the existing object are the same
    if elems[(-insertionPoint - 1).toNat]? = some e then .ok (false, elems) else .error .sameKey
  else .ok (true, elems.insertIdx insertionPoint.toNat e)

variable {cmp key} {elems : List E} {e : E} {k : K}

omit [DecidableEq E] in
/-- What a lookup finds is in the list. -/
theorem get?_mem (h : get? cmp key elems k = some e) : e ∈ elems := by
  simp only [get?] at h
  split at h
  · exact List.mem_of_getElem? h
  · cases h

omit [DecidableEq E] in
theorem getInsertionPoint_of_new (cmp : Comparator K) (h : ∀ x ∈ elems, key x ≠ key e) :
    ∃ i : Nat, getInsertionPoint cmp key elems e = i ∧ i ≤ elems.length := by
  rcases Int.lt_or_le (binarySearch cmp.compare (elems.map key) (key e)) 0 with hneg | hnonneg
  · obtain ⟨i, hi, hle⟩ := binarySearch_neg hneg
    rw [List.length_map] at hle
    exact ⟨i, by rw [getInsertionPoint, hi]; omega, hle⟩
  · -- a found key would compare as equal to the key of the new element
    obtain ⟨i, -, k, hk, hzero⟩ := binarySearch_nonneg hnonneg
    obtain ⟨x, hx, rfl⟩ := List.mem_map.mp (List.mem_of_getElem? hk)
    exact absurd (cmp.compare_eq_zero.mp hzero) (h x hx)

/-- An element whose key no element of the list has is inserted. -/
theorem add_of_new (cmp : Comparator K) (h : ∀ x ∈ elems, key x ≠ key e) :
    ∃ elems', add cmp key elems e = .ok (true, elems') ∧ elems'.Perm (e :: elems) := by
  obtain ⟨i, hi, hle⟩ := getInsertionPoint_of_new cmp h
  refine ⟨elems.insertIdx i e, ?_, List.perm_insertIdx e elems hle⟩
  have hnonneg : ¬ (i : Int) < 0 := by omega
  simp only [add, hi, if_neg hnonneg, Int.toNat_natCast]

/-- What `add` leaves holds the element and what was there. -/
theorem mem_of_add {changed : Bool} {elems' : List E} {x : E}
    (h : add cmp key elems e = .ok (changed, elems')) : x ∈ elems' ↔ x = e ∨ x ∈ elems := by
  simp only [add] at h
  split at h
  · split at h
    · next hget =>
      cases h
      exact (or_iff_right_of_imp fun heq => heq ▸ List.mem_of_getElem? hget).symm
    · cases h
  · next hnonneg =>
    cases h
    have hneg : binarySearch cmp.compare (elems.map key) (key e) < 0 := by
      rw [getInsertionPoint] at hnonneg
      omega
    obtain ⟨i, hi, hle⟩ := binarySearch_neg hneg
    rw [List.length_map] at hle
    have hpoint : (getInsertionPoint cmp key elems e).toNat = i := by
      rw [getInsertionPoint, hi]
      omega
    rw [hpoint]
    exact List.mem_insertIdx hle

omit [DecidableEq E] in
/-- What a lookup finds has the key. -/
theorem key_of_get? (h : get? cmp key elems k = some e) : key e = k := by
  simp only [get?] at h
  split at h
  · next hindex =>
    have hnonneg : 0 ≤ binarySearch cmp.compare (elems.map key) k := by
      by_contra hneg
      rw [indexOfKey, if_neg hneg] at hindex
      exact absurd hindex (by decide)
    have hsearch : indexOfKey cmp key elems k = binarySearch cmp.compare (elems.map key) k := if_pos hnonneg
    obtain ⟨i, hi, k', hk', hzero⟩ := binarySearch_nonneg hnonneg
    rw [List.getElem?_map, Option.map_eq_some_iff] at hk'
    obtain ⟨x, hx, rfl⟩ := hk'
    rw [hsearch, hi, Int.toNat_natCast, hx] at h
    cases h
    exact cmp.compare_eq_zero.mp hzero
  · cases h

variable {cmp' : Comparator K}

omit [DecidableEq E] in
theorem get?_congr (h : ∀ x ∈ elems, cmp.compare (key x) k = cmp'.compare (key x) k) :
    get? cmp key elems k = get? cmp' key elems k := by
  unfold get? indexOfKey
  rw [binarySearch_congr (List.forall_mem_map.mpr h)]

theorem add_congr (h : ∀ x ∈ elems, cmp.compare (key x) (key e) = cmp'.compare (key x) (key e)) :
    add cmp key elems e = add cmp' key elems e := by
  unfold add getInsertionPoint
  rw [binarySearch_congr (List.forall_mem_map.mpr h)]

/-! ## The other operations -/

/-- What the operations on an index throw. -/
inductive MutationException where
  | list (e : ListException)
  | wrongIndex  -- "Wrong index given for element"
  | outOfBounds  -- from `ArrayList`
  deriving DecidableEq

section Operations

variable (cmp : Comparator K) (key : E → K)

/-- `indexOfKey` of `ObservableKeyedArrayList`. -/
def linearIndexOfKey [DecidableEq K] (elems : List E) (k : K) : Int :=
  match elems.findIdx? fun e => key e = k with
  | some i => i
  | none => -1

/-- `get(index)` of `ArrayList`. -/
def getAt (elems : List E) (index : Int) : Option E := if 0 ≤ index then elems[index.toNat]? else none

/-- `add(index, element)` -/
def addAt (elems : List E) (index : Int) (e : E) : Except MutationException (List E) :=
  let insertionPoint := getInsertionPoint cmp key elems e
  if insertionPoint < 0 then .error (.list .sameKey)
  else if insertionPoint ≠ index then .error .wrongIndex
  else .ok (elems.insertIdx insertionPoint.toNat e)

/-- `addAll(elements)`: what was added before an exception stays. -/
def addAll (didChange : Bool) (elems : List E) : List E → Except ListException Bool × List E
  | [] => (.ok didChange, elems)
  | e :: es =>
    match add cmp key elems e with
    | .ok (changed, elems) => addAll (didChange || changed) elems es
    | .error ex => (.error ex, elems)

/-- `addAll(index, elements)` -/
def addAllAt (elems : List E) (index : Int) : List E → Except MutationException Bool × List E
  | [] => (.ok true, elems)
  | e :: es =>
    match addAt cmp key elems index e with
    | .ok elems => addAllAt elems (index + 1) es
    | .error ex => (.error ex, elems)

def set (elems : List E) (index : Int) (e : E) : Except MutationException (E × List E) :=
  match getAt elems index with
  | none => .error .outOfBounds
  | some old =>
    let order := cmp.compare (key e) (key old)
    let insertionPoint := getInsertionPoint cmp key elems e
    -- allow replacement if the new key would be inserted adjacent to the replaced element
    if order ≠ 0 ∧ (insertionPoint < index ∨ insertionPoint > index + 1) then .error .wrongIndex
    else .ok (old, elems.set index.toNat e)

/-- `remove(element)`; equality of elements is equality of references. -/
def remove (elems : List E) (e : E) : Bool × List E := (decide (e ∈ elems), elems.erase e)

def removeAt (elems : List E) (index : Int) : Except MutationException (E × List E) :=
  match getAt elems index with
  | none => .error .outOfBounds
  | some old => .ok (old, elems.eraseIdx index.toNat)

inductive Operation (E : Type) where
  | add (e : E)
  | addAt (index : Int) (e : E)
  | addAll (es : List E)
  | addAllAt (index : Int) (es : List E)
  | set (index : Int) (e : E)
  | remove (e : E)
  | removeAt (index : Int)
  | clear

/-- The operations that change one place of the list. -/
def Operation.IsSingle : Operation E → Prop
  | .add _ | .addAt _ _ | .set _ _ => True
  | _ => False

/-- What an operation throws, if it does, and the list that it leaves: `elems`, when it throws. -/
def ended (elems : List E) : Except MutationException (List E) → Option MutationException × List E
  | .ok elems => (none, elems)
  | .error ex => (some ex, elems)

def thrown {ε α : Type} : Except ε α → Option ε
  | .ok _ => none
  | .error ex => some ex

def apply (elems : List E) : Operation E → Option MutationException × List E
  | .add e => ended elems (((add cmp key elems e).map Prod.snd).mapError .list)
  | .addAt index e => ended elems (addAt cmp key elems index e)
  | .addAll es =>
    let (r, elems) := addAll cmp key false elems es
    ((thrown r).map .list, elems)
  | .addAllAt index es =>
    let (r, elems) := addAllAt cmp key elems index es
    (thrown r, elems)
  | .set index e => ended elems ((set cmp key elems index e).map Prod.snd)
  | .remove e => (none, (remove elems e).2)
  | .removeAt index => ended elems ((removeAt elems index).map Prod.snd)
  | .clear => (none, [])

/-- The list after some operations on the empty one. -/
def run (ops : List (Operation E)) : List E := ops.foldl (fun elems op => (apply cmp key elems op).2) []

end Operations

/-! ## The order -/

section Order

variable {K E : Type} [DecidableEq E] {cmp : Comparator K} {key : E → K} {elems elems' : List E} {e : E}
  {i : Nat}

/-- The keys strictly increase. -/
def Sorted (cmp : Comparator K) (key : E → K) (elems : List E) : Prop :=
  BinarySearch.Sorted cmp.compare (elems.map key)

omit [DecidableEq E]

theorem insertIdx_eq_append (h : i ≤ elems.length) : elems.insertIdx i e = elems.take i ++ e :: elems.drop i := by
  induction elems generalizing i with
  | nil =>
    cases Nat.le_zero.mp h
    rfl
  | cons x elems ih =>
    cases i with
    | zero => rfl
    | succ i => rw [List.insertIdx_succ_cons, ih (Nat.le_of_succ_le_succ h), List.take_succ_cons, List.drop_succ_cons,
        List.cons_append]

theorem sorted_iff : Sorted cmp key elems ↔ elems.Pairwise fun a b => cmp.compare (key a) (key b) < 0 :=
  List.pairwise_map

theorem Sorted.sublist (h : Sorted cmp key elems) (hsub : elems'.Sublist elems) : Sorted cmp key elems' :=
  sorted_iff.mpr ((sorted_iff.mp h).sublist hsub)

/-- An element fits between smaller and greater ones. -/
theorem Sorted.insert (ho : IsOrder cmp.compare) (h : Sorted cmp key elems) {j : Nat} (hij : i ≤ j)
    (hbefore : ∀ x ∈ elems.take i, cmp.compare (key x) (key e) < 0)
    (hafter : ∀ x ∈ elems.drop j, 0 < cmp.compare (key x) (key e)) :
    Sorted cmp key (elems.take i ++ e :: elems.drop j) := by
  have hless : ∀ x ∈ elems.drop j, cmp.compare (key e) (key x) < 0 := fun x hx =>
    (ho.swap _ _).mpr (hafter x hx)
  have hsplit := sorted_iff.mp h
  rw [← List.take_append_drop i elems, List.pairwise_append] at hsplit
  obtain ⟨hleft, hright, hcross⟩ := hsplit
  have hdrop : (elems.drop j).Sublist (elems.drop i) := List.drop_sublist_drop_left elems hij
  rw [sorted_iff, List.pairwise_append, List.pairwise_cons]
  refine ⟨hleft, ⟨hless, hright.sublist hdrop⟩, fun x hx y hy => ?_⟩
  rcases List.mem_cons.mp hy with rfl | hy
  · exact hbefore x hx
  · exact hcross x hx y (hdrop.subset hy)

theorem Sorted.around (ho : IsOrder cmp.compare) (h : Sorted cmp key elems) (hi : elems[i]? = some e) :
    (∀ x ∈ elems.take i, cmp.compare (key x) (key e) < 0) ∧
      ∀ x ∈ elems.drop (i + 1), 0 < cmp.compare (key x) (key e) := by
  have hkey : (elems.map key)[i]? = some (key e) := by
    rw [List.getElem?_map, hi]
    rfl
  obtain ⟨hbefore, hafter⟩ := BinarySearch.Sorted.around h hkey
  rw [← List.map_take, List.forall_mem_map] at hbefore
  rw [← List.map_drop, List.forall_mem_map] at hafter
  exact ⟨hbefore, fun x hx => (ho.swap _ _).mp (hafter x hx)⟩

/-- What the search for an insertion point finds in a sorted list. -/
theorem getInsertionPoint_sorted (ho : IsOrder cmp.compare) (h : Sorted cmp key elems) (e : E) :
    (∃ (i : Nat) (x : E), getInsertionPoint cmp key elems e = -(i : Int) - 1 ∧ elems[i]? = some x ∧
      key x = key e) ∨
    ∃ i : Nat, getInsertionPoint cmp key elems e = i ∧ i ≤ elems.length ∧
      (∀ x ∈ elems.take i, cmp.compare (key x) (key e) < 0) ∧
      ∀ x ∈ elems.drop i, 0 < cmp.compare (key x) (key e) := by
  unfold getInsertionPoint
  rcases binarySearch_sorted ho h (key e) with ⟨i, hi, k, hk, hzero⟩ | ⟨i, hi, hle, hbefore, hafter⟩
  · left
    rw [List.getElem?_map, Option.map_eq_some_iff] at hk
    obtain ⟨x, hx, rfl⟩ := hk
    exact ⟨i, x, by rw [hi], hx, cmp.compare_eq_zero.mp hzero⟩
  · right
    rw [List.length_map] at hle
    rw [← List.map_take, List.forall_mem_map] at hbefore
    rw [← List.map_drop, List.forall_mem_map] at hafter
    exact ⟨i, by rw [hi]; omega, hle, hbefore, hafter⟩

variable [DecidableEq E]

theorem add_sorted (ho : IsOrder cmp.compare) (h : Sorted cmp key elems) {changed : Bool}
    (hadd : add cmp key elems e = .ok (changed, elems')) : Sorted cmp key elems' := by
  unfold add at hadd
  rcases getInsertionPoint_sorted ho h e with ⟨i, x, hi, -⟩ | ⟨i, hi, hle, hbefore, hafter⟩
  · rw [if_pos (by omega)] at hadd
    split at hadd
    · cases hadd
      exact h
    · cases hadd
  · rw [hi, if_neg (by omega)] at hadd
    cases hadd
    rw [Int.toNat_natCast, insertIdx_eq_append hle]
    exact h.insert ho (Nat.le_refl i) hbefore hafter

/-- A sorted list does not take a second element of a key. -/
theorem add_of_taken (ho : IsOrder cmp.compare) (h : Sorted cmp key elems) {x : E} (hx : x ∈ elems)
    (hkey : key x = key e) (hne : e ∉ elems) : add cmp key elems e = .error .sameKey := by
  unfold add
  rcases getInsertionPoint_sorted ho h e with ⟨i, y, hi, hy, -⟩ | ⟨i, -, -, hbefore, hafter⟩
  · have hneg : getInsertionPoint cmp key elems e < 0 := by
      rw [hi]
      omega
    have hindex : (-getInsertionPoint cmp key elems e - 1).toNat = i := by
      rw [hi]
      omega
    rw [if_pos hneg, hindex, hy, if_neg]
    intro heq
    exact hne (Option.some.inj heq ▸ List.mem_of_getElem? hy)
  · have hzero : cmp.compare (key x) (key e) = 0 := cmp.compare_eq_zero.mpr hkey
    rw [← List.take_append_drop i elems, List.mem_append] at hx
    rcases hx with hx | hx
    · exact absurd hzero (Int.ne_of_lt (hbefore x hx))
    · exact absurd hzero (Int.ne_of_gt (hafter x hx))

omit [DecidableEq E] in
theorem addAt_sorted (ho : IsOrder cmp.compare) (h : Sorted cmp key elems) {index : Int}
    (hadd : addAt cmp key elems index e = .ok elems') : Sorted cmp key elems' := by
  unfold addAt at hadd
  rcases getInsertionPoint_sorted ho h e with ⟨i, x, hi, -⟩ | ⟨i, hi, hle, hbefore, hafter⟩
  · rw [if_pos (by omega)] at hadd
    cases hadd
  · rw [hi, if_neg (by omega)] at hadd
    split at hadd
    · cases hadd
    · cases hadd
      rw [Int.toNat_natCast, insertIdx_eq_append hle]
      exact h.insert ho (Nat.le_refl i) hbefore hafter

theorem addAll_sorted (ho : IsOrder cmp.compare) (h : Sorted cmp key elems) (didChange : Bool) (es : List E) :
    Sorted cmp key (addAll cmp key didChange elems es).2 := by
  induction es generalizing didChange elems with
  | nil => exact h
  | cons e es ih =>
    unfold addAll
    split
    · next hadd => exact ih (add_sorted ho h hadd) _
    · exact h

omit [DecidableEq E] in
theorem addAllAt_sorted (ho : IsOrder cmp.compare) (h : Sorted cmp key elems) (index : Int) (es : List E) :
    Sorted cmp key (addAllAt cmp key elems index es).2 := by
  induction es generalizing index elems with
  | nil => exact h
  | cons e es ih =>
    unfold addAllAt
    split
    · next hadd => exact ih (addAt_sorted ho h hadd) _
    · exact h

omit [DecidableEq E] in
theorem getElem?_of_getAt {index : Int} {x : E} (h : getAt elems index = some x) :
    ∃ i : Nat, index = i ∧ elems[i]? = some x := by
  unfold getAt at h
  split at h
  · next hnonneg => exact ⟨index.toNat, (Int.toNat_of_nonneg hnonneg).symm, h⟩
  · cases h

omit [DecidableEq E] in
/-- The new element has the key of the old one, or its key lies beside it. -/
theorem set_sorted (ho : IsOrder cmp.compare) (h : Sorted cmp key elems) {index : Int} {old : E}
    (hset : set cmp key elems index e = .ok (old, elems')) : Sorted cmp key elems' := by
  unfold set at hset
  split at hset
  · cases hset
  · next x hx =>
    obtain ⟨i, rfl, hi⟩ := getElem?_of_getAt hx
    dsimp only at hset
    split at hset
    · cases hset
    · next hfits =>
      cases hset
      obtain ⟨hlt, -⟩ := List.getElem?_eq_some_iff.mp hi
      rw [Int.toNat_natCast, List.set_eq_take_cons_drop e hlt]
      by_cases hsame : cmp.compare (key e) (key old) = 0
      · obtain ⟨hbefore, hafter⟩ := h.around ho hi
        rw [← cmp.compare_eq_zero.mp hsame] at hbefore hafter
        exact h.insert ho (Nat.le_succ i) hbefore hafter
      · rw [not_and_or, not_not, or_iff_right hsame, not_or] at hfits
        rcases getInsertionPoint_sorted ho h e with ⟨j, x, hj, -⟩ | ⟨j, hj, -, hbefore, hafter⟩
        · omega
        · have hij : i ≤ j ∧ j ≤ i + 1 := by omega
          refine h.insert ho (Nat.le_succ i) (fun x hx => hbefore x ?_) fun x hx => hafter x ?_
          · exact (List.take_sublist_take_left hij.1).subset hx
          · exact (List.drop_sublist_drop_left elems hij.2).subset hx

omit [DecidableEq E] in
theorem removeAt_sorted (h : Sorted cmp key elems) {index : Int} {old : E}
    (hremove : removeAt elems index = .ok (old, elems')) : Sorted cmp key elems' := by
  unfold removeAt at hremove
  split at hremove
  · cases hremove
  · cases hremove
    exact h.sublist (List.eraseIdx_sublist _ _)

omit [DecidableEq E] in
theorem ended_sorted (h : Sorted cmp key elems) {r : Except MutationException (List E)}
    (hr : ∀ elems', r = .ok elems' → Sorted cmp key elems') : Sorted cmp key (ended elems r).2 := by
  cases r with
  | ok elems' => exact hr elems' rfl
  | error ex => exact h

theorem apply_sorted (ho : IsOrder cmp.compare) (h : Sorted cmp key elems) (op : Operation E) :
    Sorted cmp key (apply cmp key elems op).2 := by
  cases op with
  | add e =>
    refine ended_sorted h fun elems' hadd => ?_
    obtain ⟨⟨changed, _⟩, hcall, rfl⟩ := Checked.map_eq_ok (Checked.mapError_eq_ok.mp hadd)
    exact add_sorted ho h hcall
  | addAt index e => exact ended_sorted h fun elems' hadd => addAt_sorted ho h hadd
  | addAll es => exact addAll_sorted ho h false es
  | addAllAt index es => exact addAllAt_sorted ho h index es
  | set index e =>
    refine ended_sorted h fun elems' hset => ?_
    obtain ⟨⟨old, _⟩, hcall, rfl⟩ := Checked.map_eq_ok hset
    exact set_sorted ho h hcall
  | remove e => exact h.sublist List.erase_sublist
  | removeAt index =>
    refine ended_sorted h fun elems' hremove => ?_
    obtain ⟨⟨old, _⟩, hcall, rfl⟩ := Checked.map_eq_ok hremove
    exact removeAt_sorted h hcall
  | clear => exact sorted_iff.mpr .nil

theorem foldl_sorted (ho : IsOrder cmp.compare) (h : Sorted cmp key elems) (ops : List (Operation E)) :
    Sorted cmp key (ops.foldl (fun elems op => (apply cmp key elems op).2) elems) := by
  induction ops generalizing elems with
  | nil => exact h
  | cons op ops ih => exact ih (apply_sorted ho h op)

omit [DecidableEq E] in
/-- In a sorted list a lookup finds the element with the key. -/
theorem get?_eq_some_iff (ho : IsOrder cmp.compare) (h : Sorted cmp key elems) {k : K} :
    get? cmp key elems k = some e ↔ e ∈ elems ∧ key e = k := by
  refine ⟨fun hget => ⟨get?_mem hget, key_of_get? hget⟩, ?_⟩
  rintro ⟨he, rfl⟩
  have hself : cmp.compare (key e) (key e) = 0 := cmp.compare_eq_zero.mpr rfl
  have hmem := List.mem_map_of_mem (f := key) he
  unfold get? indexOfKey
  rcases binarySearch_sorted ho h (key e) with ⟨i, hi, k', hk', hzero⟩ | ⟨i, -, -, hbefore, hafter⟩
  · rw [List.getElem?_map, Option.map_eq_some_iff] at hk'
    obtain ⟨x, hx, rfl⟩ := hk'
    -- the elements before and after have smaller and greater keys, so this is the one
    obtain ⟨hbefore, hafter⟩ := h.around ho hx
    rw [cmp.compare_eq_zero.mp hzero] at hbefore hafter
    have hnonneg : (0 : Int) ≤ i := Int.natCast_nonneg i
    simp only [hi, if_pos hnonneg, Int.toNat_natCast, hx]
    rw [eq_append_of_getElem? hx, List.mem_append, List.mem_cons] at he
    rcases he with he | rfl | he
    · exact absurd hself (Int.ne_of_lt (hbefore e he))
    · rfl
    · exact absurd hself (Int.ne_of_gt (hafter e he))
  · rw [← List.take_append_drop i (elems.map key), List.mem_append] at hmem
    rcases hmem with hmem | hmem
    · exact absurd hself (Int.ne_of_lt (hbefore _ hmem))
    · exact absurd hself (Int.ne_of_gt (hafter _ hmem))

omit [DecidableEq E] in
/-- The two searches agree: the key is at one index at most. -/
theorem indexOfKey_eq_linear [DecidableEq K] (ho : IsOrder cmp.compare) (h : Sorted cmp key elems) (k : K) :
    indexOfKey cmp key elems k = linearIndexOfKey key elems k := by
  unfold indexOfKey linearIndexOfKey
  rcases binarySearch_sorted ho h k with ⟨i, hi, k', hk', hzero⟩ | ⟨i, hi, hle, hbefore, hafter⟩
  · cases cmp.compare_eq_zero.mp hzero
    rw [List.getElem?_map, Option.map_eq_some_iff] at hk'
    obtain ⟨x, hx, rfl⟩ := hk'
    have hbefore : (elems.take i).findIdx? (fun e => key e = key x) = none := by
      rw [List.findIdx?_eq_none_iff]
      intro y hy
      have hless := (h.around ho hx).1 y hy
      exact decide_eq_false fun heq => absurd (cmp.compare_eq_zero.mpr heq) (Int.ne_of_lt hless)
    have hlength : (elems.take i).length = i :=
      List.length_take_of_le (Nat.le_of_lt (List.getElem?_eq_some_iff.mp hx).1)
    have hfind : elems.findIdx? (fun e => key e = key x) = some i := by
      conv_lhs => rw [eq_append_of_getElem? hx]
      rw [List.findIdx?_append, hbefore, List.findIdx?_cons, hlength]
      simp
    simp [hi, hfind]
  · have hnone : elems.findIdx? (fun e => key e = k) = none := by
      rw [List.findIdx?_eq_none_iff]
      intro y hy
      refine decide_eq_false ?_
      rintro rfl
      have hmem := List.mem_map_of_mem (f := key) hy
      rw [← List.take_append_drop i (elems.map key), List.mem_append] at hmem
      have hself : cmp.compare (key y) (key y) = 0 := cmp.compare_eq_zero.mpr rfl
      rcases hmem with hmem | hmem
      · exact absurd hself (Int.ne_of_lt (hbefore _ hmem))
      · exact absurd hself (Int.ne_of_gt (hafter _ hmem))
    have hneg : ¬ (0 : Int) ≤ -(i + 1) := by omega
    simp only [hi, hnone, if_neg hneg]

omit [DecidableEq E] in
theorem ended_throws {r : Except MutationException (List E)} (h : (ended elems r).1 ≠ none) :
    (ended elems r).2 = elems := by
  cases r with
  | ok elems' => cases h rfl
  | error ex => rfl

theorem apply_throws {op : Operation E} (hop : op.IsSingle) (h : (apply cmp key elems op).1 ≠ none) :
    (apply cmp key elems op).2 = elems := by
  cases op with
  | add | addAt | set => exact ended_throws h
  | addAll | addAllAt | remove | removeAt | clear => cases hop

/-- After any operations the keys strictly increase, the search finds what a linear search finds, and
an operation on one place that throws changes nothing. -/
theorem run_sorted [DecidableEq K] (ho : IsOrder cmp.compare) (key : E → K) (ops : List (Operation E)) :
    Sorted cmp key (run cmp key ops) ∧
    (∀ k, indexOfKey cmp key (run cmp key ops) k = linearIndexOfKey key (run cmp key ops) k) ∧
    ∀ op : Operation E, op.IsSingle → (apply cmp key (run cmp key ops) op).1 ≠ none →
      (apply cmp key (run cmp key ops) op).2 = run cmp key ops := by
  have hsorted : Sorted cmp key (run cmp key ops) := foldl_sorted ho (sorted_iff.mpr .nil) ops
  exact ⟨hsorted, indexOfKey_eq_linear ho hsorted, fun _ => apply_throws⟩

end Order

/-- Numbers in their order. -/
def natComparator : Comparator Nat where
  compare a b := (a : Int) - b
  compare_eq_zero := by omega

/-- `add(0, 1)` goes to the front of a list that begins with 2, `set(0, 2)` throws there. -/
theorem run_sorted_numbers :
    run natComparator id [.add 2, .addAt 0 1, .set 0 2] = [1, 2] ∧
      indexOfKey natComparator id [1, 2] 2 = 1 := by
  have hlist : run natComparator id [.add 2, .addAt 0 1, .set 0 2] = [1, 2] := by decide
  have ho : IsOrder natComparator.compare :=
    ⟨fun a b => by simp only [natComparator]; omega, fun a b c => by simp only [natComparator]; omega⟩
  obtain ⟨-, hsearch, -⟩ := run_sorted ho id [.add 2, .addAt 0 1, .set 0 2]
  rw [hlist] at hsearch
  exact ⟨hlist, hsearch 2⟩

end SortedKeyedList

end WgAndroid
