import Mathlib.Data.List.InsertIdx
import Mathlib.Data.List.Nodup

/-!
# Splicing lists

Ranges that are taken out of a list and put into it, and a loop that takes the item at each position of a
range out and puts another one at the end.

Results:
1. `inserted_without_perm`: moving a range does not change which items there are.
2. `Pulled.succ`: where the items come from after some rounds of the loop.
-/

namespace Splice

open scoped List

variable {α β : Type}

/-- A list without a range of it. -/
def without (xs : List α) (start count : Nat) : List α := xs.take start ++ xs.drop (start + count)

/-- A list with some more items at a position. -/
def inserted (xs : List α) (start : Nat) (new : List α) : List α := xs.take start ++ new ++ xs.drop start

/-- The items of a range. -/
def range (xs : List α) (start count : Nat) : List α := (xs.drop start).take count

variable {xs ys new : List α} {x : α} {start start' count k : Nat}

theorem map_without (f : α → β) : (without xs start count).map f = without (xs.map f) start count := by
  simp only [without, List.map_append, List.map_take, List.map_drop]

theorem map_inserted (f : α → β) : (inserted xs start new).map f = inserted (xs.map f) start (new.map f) := by
  simp only [inserted, List.map_append, List.map_take, List.map_drop]

theorem map_range (f : α → β) : (range xs start count).map f = range (xs.map f) start count := by
  simp only [range, List.map_take, List.map_drop]

theorem length_without (h : start + count ≤ xs.length) : (without xs start count).length = xs.length - count := by
  rw [without, List.length_append, List.length_take, List.length_drop]
  omega

theorem length_range (h : start + count ≤ xs.length) : (range xs start count).length = count := by
  rw [range, List.length_take, List.length_drop]
  omega

theorem length_inserted : (inserted xs start new).length = xs.length + new.length := by
  simp only [inserted, List.length_append, List.length_take, List.length_drop]
  omega

theorem range_inserted (h : start ≤ xs.length) : range (inserted xs start new) start new.length = new := by
  have hlength : (xs.take start).length = start := List.length_take_of_le h
  rw [range, inserted, List.append_assoc, List.drop_left' hlength, List.take_left]

theorem getElem?_range (h : k < count) : (range xs start count)[k]? = xs[start + k]? := by
  rw [range, List.getElem?_take_of_lt h, List.getElem?_drop]

/-- When items at the end might as well stand at a position. -/
theorem append_eq_inserted_iff : xs ++ new = inserted xs start new ↔ xs.drop start ++ new = new ++ xs.drop start := by
  rw [inserted]
  nth_rewrite 1 [← List.take_append_drop start xs]
  rw [List.append_assoc, List.append_assoc, List.append_right_inj]

theorem inserted_perm : (inserted xs start new).Perm (xs ++ new) := by
  calc inserted xs start new
      = xs.take start ++ (new ++ xs.drop start) := List.append_assoc ..
    _ ~ xs.take start ++ (xs.drop start ++ new) := List.perm_append_comm.append_left _
    _ = xs ++ new := by rw [← List.append_assoc, List.take_append_drop]

theorem without_append_range_perm : (without xs start count ++ range xs start count).Perm xs := by
  calc without xs start count ++ range xs start count
      ~ xs.take start ++ (range xs start count ++ xs.drop (start + count)) := by
        rw [without, List.append_assoc]
        exact List.perm_append_comm.append_left _
    _ = xs := by rw [range, ← List.drop_drop, List.take_append_drop, List.take_append_drop]

theorem without_sublist : (without xs start count).Sublist xs := by
  have hdrop : (xs.drop (start + count)).Sublist (xs.drop start) :=
    List.drop_sublist_drop_left xs (Nat.le_add_right ..)
  calc without xs start count
      <+ xs.take start ++ xs.drop start := hdrop.append_left _
    _ = xs := List.take_append_drop ..

theorem map_some_range (h : start + count ≤ xs.length) :
    (List.range count).map (fun i => xs[start + i]?) = (range xs start count).map some := by
  refine List.ext_getElem? fun i => ?_
  rw [List.getElem?_map, List.getElem?_map, range, List.getElem?_take]
  split
  · next hi =>
    rw [List.getElem?_range hi, List.getElem?_drop, Option.map_some, List.getElem?_eq_getElem (by omega)]
    rfl
  · next hi => rw [List.getElem?_eq_none (by rw [List.length_range]; omega)]; rfl

/-- A range is moved. -/
theorem inserted_without_perm :
    (inserted (without xs start count) start' (range xs start count)).Perm xs :=
  inserted_perm.trans without_append_range_perm

theorem getElem_notMem_eraseIdx {i : Nat} (h : xs.Nodup) (hi : i < xs.length) : xs[i] ∉ xs.eraseIdx i := by
  rw [List.mem_eraseIdx_iff_getElem]
  rintro ⟨j, hj, hne, heq⟩
  exact hne (h.getElem_inj_iff.mp heq)

theorem insertIdx_append : (xs ++ ys).insertIdx xs.length x = xs ++ x :: ys := by
  induction xs with
  | nil => rfl
  | cons y xs ih => rw [List.cons_append, List.length_cons, List.insertIdx_succ_cons, ih, List.cons_append]

/-- One more item behind those that were put in. -/
theorem insertIdx_inserted (h : start ≤ xs.length) :
    (inserted xs start new).insertIdx (start + new.length) x = inserted xs start (new ++ [x]) := by
  have hlength : (xs.take start ++ new).length = start + new.length := by
    rw [List.length_append, List.length_take, Nat.min_eq_left h]
  rw [inserted, ← hlength, insertIdx_append, inserted, ← List.append_assoc, List.append_cons]

/-! ## Pulling items to the end -/

/-- Where the item comes from that stands at a position after some rounds of the loop that takes the item
at `start`, `start + 1`, … out and puts a new one at the end: a position in the old list followed by the
new items. Each round moves the items behind it, so that the next one misses the item that comes next. -/
def survivor (start count j : Nat) : Nat :=
  if j < start then j else if j < start + count then 2 * j + 1 - start else j + count

/-- The list after some rounds. -/
structure Pulled (xs new : List α) (start count : Nat) (ys : List α) : Prop where
  length : ys.length = xs.length
  getElem? : ∀ j < xs.length, ys[j]? = (xs ++ new)[survivor start count j]?

theorem Pulled.zero : Pulled xs new start 0 xs where
  length := rfl
  getElem? j hj := by
    have hsurvivor : survivor start 0 j = j := by grind [survivor]
    rw [hsurvivor, List.getElem?_append_left hj]

/-- One more round. -/
theorem Pulled.succ (h : Pulled xs new start k ys) (hk : start + k < xs.length) (hx : new[k]? = some x) :
    Pulled xs new start (k + 1) (ys.eraseIdx (start + k) ++ [x]) := by
  have hlength := h.length
  have herased : (ys.eraseIdx (start + k)).length = xs.length - 1 := by
    rw [List.length_eraseIdx_of_lt (hlength ▸ hk), hlength]
  refine ⟨?_, fun j hj => ?_⟩
  · rw [List.length_append, herased, List.length_singleton]
    omega
  · by_cases hlast : j = xs.length - 1
    · -- the new item, from the end of the list
      have hsurvivor : survivor start (k + 1) j = xs.length + k := by grind [survivor]
      rw [hsurvivor, List.getElem?_append_right (by omega), List.getElem?_append_right (by omega), herased, hlast,
        Nat.sub_self, Nat.add_sub_cancel_left, hx]
      rfl
    · rw [List.getElem?_append_left (by omega), List.getElem?_eraseIdx]
      split
      · rw [h.getElem? j hj]
        congr 1
        grind [survivor]
      · rw [h.getElem? (j + 1) (by omega)]
        congr 1
        grind [survivor]

theorem Pulled.eq_iff {zs : List α} (h : Pulled xs new start k ys) (hlength : zs.length = xs.length) :
    ys = zs ↔ ∀ j < xs.length, (xs ++ new)[survivor start k j]? = zs[j]? := by
  constructor
  · rintro rfl j hj
    exact (h.getElem? j hj).symm
  · intro hall
    refine List.ext_getElem? fun j => ?_
    by_cases hj : j < xs.length
    · rw [h.getElem? j hj, hall j hj]
    · rw [List.getElem?_eq_none (h.length ▸ Nat.not_lt.mp hj), List.getElem?_eq_none (hlength ▸ Nat.not_lt.mp hj)]

end Splice
