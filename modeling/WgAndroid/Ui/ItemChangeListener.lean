import Mathlib.Data.List.Nodup
import Mathlib.Order.Nat
import WgAndroid.Lib.Along
import WgAndroid.Lib.Checked
import WgAndroid.Lib.Splice

/-!
# Child views of an observable list

`ItemChangeListener`: a container of views is kept up with an observable list by callbacks that patch its
children. A listener is not collected while its list changes, so that `weakListener` always has it.

Results:
1. `rangeChanged_spec`, `rangeInserted_spec`, `rangeMoved_spec`, `rangeRemoved_spec`: the children after
   each callback.
2. `step_spec`: a change leaves one child for each item, and it keeps them in order if it is `Harmless`.
3. `children_mirror_iff`: for which runs the children mirror the list.
-/

namespace WgAndroid

open Checked Splice

variable {T : Type}

/-! ## The container -/

namespace ViewGroup

inductive Throwable where
  | nullPointer
  | illegalArgument
  | illegalState
  | indexOutOfBounds
  deriving DecidableEq

/-- A view that was inflated, with the item of its binding. The number tells it from other views. -/
structure View (T : Type) where
  number : Nat
  item : T

def getChildAt (children : List (View T)) (index : Nat) : Option (View T) := children[index]?

/-- `addView(child, index)` -/
def addView (children : List (View T)) (child : Option (View T)) (index : Nat) :
    Except Throwable (List (View T)) :=
  match child with
  | none => .error .illegalArgument
  | some child =>
    if children.any (·.number == child.number) then .error .illegalState
    else if index > children.length then .error .indexOutOfBounds
    else .ok (children.insertIdx index child)

/-- `addView(child)`: at the end. -/
def addLast (children : List (View T)) (child : View T) : Except Throwable (List (View T)) :=
  addView children (some child) children.length

def removeViewAt (children : List (View T)) (index : Nat) : Except Throwable (List (View T)) :=
  if index < children.length then .ok (children.eraseIdx index) else .error .nullPointer

def removeViews (children : List (View T)) (start count : Nat) : Except Throwable (List (View T)) :=
  if start + count ≤ children.length then .ok (without children start count)
  else .error .indexOutOfBounds

end ViewGroup

open ViewGroup

/-! ## The listener -/

/-- `inflated` counts the views that were made. -/
structure ItemChangeListener (T : Type) where
  container : List (View T)
  list : Option (List T)
  inflated : Nat

namespace ItemChangeListener

/-- The view has a binding: either it is a child, and these were all inflated here, or it is new. -/
def getView (l : ItemChangeListener T) (position : Nat) (convertView : Option (View T)) :
    Except Throwable (View T × ItemChangeListener T) :=
  let (number, l) :=
    match convertView with
    | some view => (view.number, l)
    | none => (l.inflated, { l with inflated := l.inflated + 1 })
  match l.list with
  | none => .error .illegalArgument
  | some list =>
    match list[position]? with
    | none => .error .indexOutOfBounds
    | some item => .ok (⟨number, item⟩, l)

/-- `container.addView(getView(i, convertView))` -/
def addItem (l : ItemChangeListener T) (i : Nat) (convertView : Option (View T)) :
    Except Throwable (ItemChangeListener T) := do
  let (view, l) ← l.getView i convertView
  return { l with container := ← addLast l.container view }

def onItemRangeInserted (l : ItemChangeListener T) (positionStart itemCount : Nat) :
    Except Throwable (ItemChangeListener T) :=
  (List.range' positionStart itemCount).foldlM (fun l i => l.addItem i none) l

def onChanged (l : ItemChangeListener T) : Except Throwable (ItemChangeListener T) :=
  (List.range' 0 (l.list.elim 0 List.length)).foldlM (fun l i => l.addItem i none) { l with container := [] }

/-- A round of the loop of `onItemRangeChanged`. -/
def changeItem (l : ItemChangeListener T) (i : Nat) : Except Throwable (ItemChangeListener T) := do
  let child := getChildAt l.container i
  let container ← removeViewAt l.container i
  { l with container }.addItem i child

def onItemRangeChanged (l : ItemChangeListener T) (positionStart itemCount : Nat) :
    Except Throwable (ItemChangeListener T) :=
  (List.range' positionStart itemCount).foldlM changeItem l

def onItemRangeMoved (l : ItemChangeListener T) (fromPosition toPosition itemCount : Nat) :
    Except Throwable (ItemChangeListener T) := do
  let views := (List.range itemCount).map fun i => getChildAt l.container (fromPosition + i)
  let container ← removeViews l.container fromPosition itemCount
  let container ← (List.range itemCount).foldlM
    (fun container i => addView container (views[i]?.join) (toPosition + i)) container
  return { l with container }

def onItemRangeRemoved (l : ItemChangeListener T) (positionStart itemCount : Nat) :
    Except Throwable (ItemChangeListener T) := do
  return { l with container := ← removeViews l.container positionStart itemCount }

def setList (l : ItemChangeListener T) (newList : Option (List T)) : Except Throwable (ItemChangeListener T) :=
  let l := { l with list := newList }
  if newList.isSome then l.onChanged else .ok { l with container := [] }

end ItemChangeListener

/-! ## Changes of the list -/

/-- What can happen to an observable list. -/
inductive ListChange (T : Type) where
  | all (items : List T)
  | rangeChanged (positionStart : Nat) (items : List T)
  | rangeInserted (positionStart : Nat) (items : List T)
  | rangeMoved (fromPosition toPosition itemCount : Nat)
  | rangeRemoved (positionStart itemCount : Nat)

namespace ListChange

/-- The positions are those of items. -/
def Valid (items : List T) : ListChange T → Prop
  | all _ => True
  | rangeChanged positionStart new => positionStart + new.length ≤ items.length
  | rangeInserted positionStart _ => positionStart ≤ items.length
  | rangeMoved fromPosition toPosition itemCount =>
    fromPosition + itemCount ≤ items.length ∧ toPosition + itemCount ≤ items.length
  | rangeRemoved positionStart itemCount => positionStart + itemCount ≤ items.length

instance (items : List T) : DecidablePred (Valid items)
  | all _ => inferInstanceAs (Decidable True)
  | rangeChanged _ _ => inferInstanceAs (Decidable (_ ≤ _))
  | rangeInserted _ _ => inferInstanceAs (Decidable (_ ≤ _))
  | rangeMoved _ _ _ => inferInstanceAs (Decidable (_ ∧ _))
  | rangeRemoved _ _ => inferInstanceAs (Decidable (_ ≤ _))

/-- The list after the change. A range is moved to the position that it has afterwards. -/
def apply (items : List T) : ListChange T → List T
  | all new => new
  | rangeChanged positionStart new => inserted (without items positionStart new.length) positionStart new
  | rangeInserted positionStart new => inserted items positionStart new
  | rangeMoved fromPosition toPosition itemCount =>
    inserted (without items fromPosition itemCount) toPosition (range items fromPosition itemCount)
  | rangeRemoved positionStart itemCount => without items positionStart itemCount

end ListChange

/-- A change of the list, and its callback. -/
def ItemChangeListener.step (l : ItemChangeListener T) (c : ListChange T) :
    Except Throwable (ItemChangeListener T) :=
  let l := { l with list := l.list.map fun items => c.apply items }
  match c with
  | .all _ => l.onChanged
  | .rangeChanged positionStart new => l.onItemRangeChanged positionStart new.length
  | .rangeInserted positionStart new => l.onItemRangeInserted positionStart new.length
  | .rangeMoved fromPosition toPosition itemCount => l.onItemRangeMoved fromPosition toPosition itemCount
  | .rangeRemoved positionStart itemCount => l.onItemRangeRemoved positionStart itemCount

/-- A list is bound, and then changes. -/
def ItemChangeListener.run (l : ItemChangeListener T) (items : List T) (changes : List (ListChange T)) :
    Except Throwable (ItemChangeListener T) := do
  changes.foldlM step (← l.setList (some items))

/-- The i-th child is bound to the i-th item. -/
def ItemChangeListener.Mirrors (l : ItemChangeListener T) : Prop := l.list = some (l.container.map (·.item))

namespace ListChange

/-- The change does not show that new views, and those whose item changes, go to the end of the container:
the new items may as well stand behind the items that follow them; and after a range has changed, the view
that has come to each position is bound to the item there. -/
def Harmless (items : List T) : ListChange T → Prop
  | rangeInserted positionStart new => items.drop positionStart ++ new = new ++ items.drop positionStart
  | rangeChanged positionStart new => ∀ j < items.length,
      (items ++ new)[survivor positionStart new.length j]? = (apply items (rangeChanged positionStart new))[j]?
  | _ => True

instance [DecidableEq T] (items : List T) : DecidablePred (Harmless items)
  | rangeInserted _ _ => inferInstanceAs (Decidable (_ = _))
  | rangeChanged _ _ => inferInstanceAs (Decidable (∀ j < _, _ = _))
  | all _ | rangeMoved _ _ _ | rangeRemoved _ _ => inferInstanceAs (Decidable True)

end ListChange

/-! ## The container without exceptions -/

namespace ViewGroup

theorem addView_eq {children : List (View T)} {child : View T} {index : Nat}
    (hnew : child.number ∉ children.map (·.number)) (hindex : index ≤ children.length) :
    addView children (some child) index = .ok (children.insertIdx index child) := by
  have hany : (children.any (·.number == child.number)) = false := by
    rw [List.any_eq_false]
    intro view hview heq
    exact hnew (List.mem_map.mpr ⟨view, hview, eq_of_beq heq⟩)
  rw [addView, hany, if_neg Bool.false_ne_true, if_neg hindex.not_gt]

theorem addLast_eq {children : List (View T)} {child : View T} (hnew : child.number ∉ children.map (·.number)) :
    addLast children child = .ok (children ++ [child]) := by
  rw [addLast, addView_eq hnew le_rfl, List.insertIdx_length_self]

/-- Views that are put back one after the other. -/
theorem addViews_eq {base views : List (View T)} {start : Nat} (hnew : ((base ++ views).map (·.number)).Nodup)
    (hstart : start ≤ base.length) :
    (List.range views.length).foldlM (fun children i => addView children ((views.map some)[i]?.join) (start + i)) base =
      .ok (inserted base start views) := by
  suffices hbegin : ∀ k ≤ views.length,
      (List.range k).foldlM (fun children i => addView children ((views.map some)[i]?.join) (start + i)) base =
        .ok (inserted base start (views.take k)) by
    rw [hbegin _ le_rfl, List.take_length]
  intro k hk
  induction k with
  | zero =>
    rw [List.take_zero, inserted, List.append_nil, List.take_append_drop]
    rfl
  | succ k ih =>
    have hview : ((views.map some)[k]?.join) = some views[k] := by
      rw [List.getElem?_map, List.getElem?_eq_getElem hk]
      rfl
    have htaken : (views.take k).length = k := List.length_take_of_le (Nat.le_of_succ_le hk)
    have hfresh : views[k].number ∉ (inserted base start (views.take k)).map (·.number) := by
      rw [← List.take_append_drop k views, ← List.append_assoc, List.map_append, List.drop_eq_getElem_cons hk] at hnew
      intro hmem
      refine (List.nodup_append.mp hnew).2.2 _ ((inserted_perm.map _).subset hmem) _ ?_ rfl
      exact List.mem_map_of_mem List.mem_cons_self
    have hinsert : (inserted base start (views.take k)).insertIdx (start + k) views[k] =
        inserted base start (views.take k ++ [views[k]]) := by
      rw [← insertIdx_inserted hstart, htaken]
    rw [List.range_succ, List.foldlM_append, ih (Nat.le_of_succ_le hk), ok_bind, List.foldlM_cons, hview,
      addView_eq hfresh, ok_bind, hinsert, List.take_succ_eq_append_getElem hk]
    · rfl
    · rw [length_inserted, htaken]
      exact Nat.add_le_add_right hstart k

end ViewGroup

/-! ## The callbacks -/

namespace ItemChangeListener

/-- The list has these items, and the children are bound to those. -/
structure Shows (l : ItemChangeListener T) (items shown : List T) : Prop where
  list : l.list = some items
  shown : l.container.map (·.item) = shown
  distinct : (l.container.map (·.number)).Nodup
  made : ∀ view ∈ l.container, view.number < l.inflated

variable {l : ItemChangeListener T} {items shown : List T} {x : T} {i positionStart itemCount : Nat}

theorem addItem_new_spec (h : l.Shows items shown) (hx : items[i]? = some x) :
    ∃ l', l.addItem i none = .ok l' ∧ l'.Shows items (shown ++ [x]) := by
  have hnew : l.inflated ∉ l.container.map (·.number) := by
    intro hmem
    obtain ⟨view, hview, heq⟩ := List.mem_map.mp hmem
    exact (h.made view hview).ne heq
  have hget : l.getView i none = .ok (⟨l.inflated, x⟩, { l with inflated := l.inflated + 1 }) := by
    simp only [getView, h.list, hx]
  have hadd : l.addItem i none =
      .ok { l with container := l.container ++ [⟨l.inflated, x⟩], inflated := l.inflated + 1 } := by
    unfold addItem
    rw [hget, ok_bind]
    dsimp only
    rw [addLast_eq hnew]
    rfl
  refine ⟨_, hadd, h.list, ?_, ?_, ?_⟩
  · rw [List.map_append, h.shown]
    rfl
  · rw [List.map_append]
    exact h.distinct.append (List.nodup_singleton _) (List.disjoint_singleton.mpr hnew)
  · intro view hview
    rcases List.mem_append.mp hview with hview | hview
    · exact (h.made view hview).trans (Nat.lt_succ_self _)
    · rw [List.mem_singleton.mp hview]
      exact Nat.lt_succ_self _

/-- New items are added at the end, wherever they are in the list. -/
theorem rangeInserted_spec (h : l.Shows items shown) (hrange : positionStart + itemCount ≤ items.length) :
    ∃ l', l.onItemRangeInserted positionStart itemCount = .ok l' ∧
      l'.Shows items (shown ++ range items positionStart itemCount) := by
  unfold onItemRangeInserted
  induction itemCount generalizing l shown positionStart with
  | zero => exact ⟨l, rfl, by rw [range, List.take_zero, List.append_nil]; exact h⟩
  | succ n ih =>
    have hlt : positionStart < items.length := by omega
    obtain ⟨l', hadd, h'⟩ := addItem_new_spec h (List.getElem?_eq_getElem hlt)
    have hnext : positionStart + 1 + n ≤ items.length := by rwa [Nat.add_right_comm]
    obtain ⟨l'', hrest, h''⟩ := ih h' hnext
    refine ⟨l'', ?_, ?_⟩
    · rw [List.range'_succ, List.foldlM_cons, hadd, ok_bind, hrest]
    · rw [range, List.drop_eq_getElem_cons hlt, List.take_succ_cons, List.append_cons]
      exact h''

theorem onChanged_spec (h : l.list = some items) : ∃ l', l.onChanged = .ok l' ∧ l'.Shows items items := by
  have hempty : { l with container := [] }.Shows items [] := ⟨h, rfl, List.nodup_nil, List.forall_mem_nil _⟩
  have hrange : 0 + items.length ≤ items.length := (Nat.zero_add _).le
  obtain ⟨l', hadd, h'⟩ := rangeInserted_spec hempty hrange
  refine ⟨l', ?_, ?_⟩
  · unfold onChanged
    rw [show l.list.elim 0 List.length = items.length by rw [h]; rfl]
    exact hadd
  · rwa [range, List.drop_zero, List.take_length, List.nil_append] at h'

/-- A round of `onItemRangeChanged`: the view goes to the end. -/
theorem changeItem_spec (h : l.Shows items shown) (hi : i < shown.length) (hx : items[i]? = some x) :
    ∃ l', l.changeItem i = .ok l' ∧ l'.Shows items (shown.eraseIdx i ++ [x]) := by
  have hi : i < l.container.length := by rwa [← h.shown, List.length_map] at hi
  have hview : getChildAt l.container i = some l.container[i] := List.getElem?_eq_getElem hi
  have hnew : l.container[i].number ∉ (l.container.eraseIdx i).map (·.number) := by
    have hnumber := getElem_notMem_eraseIdx h.distinct (i := i) (by rwa [List.length_map])
    rwa [List.getElem_map, List.eraseIdx_map] at hnumber
  have hget : ∀ container, { l with container }.getView i (some l.container[i]) =
      .ok (⟨l.container[i].number, x⟩, { l with container }) := by
    intro container
    simp only [getView, h.list, hx]
  have hchange : l.changeItem i =
      .ok { l with container := l.container.eraseIdx i ++ [⟨l.container[i].number, x⟩] } := by
    rw [changeItem, removeViewAt, if_pos hi, ok_bind, hview, addItem, hget, ok_bind]
    dsimp only
    have hadd : addLast (l.container.eraseIdx i) ⟨l.container[i].number, x⟩ =
        .ok (l.container.eraseIdx i ++ [⟨l.container[i].number, x⟩]) := addLast_eq hnew
    rw [hadd]
    rfl
  refine ⟨_, hchange, h.list, ?_, ?_, ?_⟩
  · rw [List.map_append, ← List.eraseIdx_map, h.shown]
    rfl
  · rw [List.map_append, ← List.eraseIdx_map]
    rw [← List.eraseIdx_map] at hnew
    exact (h.distinct.eraseIdx i).append (List.nodup_singleton _) (List.disjoint_singleton.mpr hnew)
  · intro view hview
    rcases List.mem_append.mp hview with hview | hview
    · exact h.made view (List.mem_of_mem_eraseIdx hview)
    · rw [List.mem_singleton.mp hview]
      exact h.made l.container[i] (List.getElem_mem hi)

theorem rangeChanged_spec {new : List T} (h : l.Shows items shown)
    (hrange : positionStart + new.length ≤ shown.length) (hnew : ∀ k < new.length, items[positionStart + k]? = new[k]?) :
    ∃ l' shown', l.onItemRangeChanged positionStart new.length = .ok l' ∧ l'.Shows items shown' ∧
      Pulled shown new positionStart new.length shown' := by
  unfold onItemRangeChanged
  suffices hbegin : ∀ n ≤ new.length, ∃ l' shown', 
      (List.range' positionStart n).foldlM changeItem l = .ok l' ∧
        l'.Shows items shown' ∧ Pulled shown new positionStart n shown' from hbegin _ le_rfl
  intro n hn
  induction n with
  | zero => exact ⟨l, shown, rfl, h, .zero⟩
  | succ n ih =>
    obtain ⟨l', shown', hrun, h', hpulled⟩ := ih (Nat.le_of_succ_le hn)
    have hlt : positionStart + n < shown.length := by omega
    obtain ⟨l'', hround, h''⟩ := changeItem_spec h' (hpulled.length ▸ hlt)
      ((hnew n hn).trans (List.getElem?_eq_getElem hn))
    refine ⟨l'', _, ?_, h'', hpulled.succ hlt (List.getElem?_eq_getElem hn)⟩
    rw [List.range'_1_concat, List.foldlM_append, hrun, ok_bind, List.foldlM_cons, hround]
    rfl

theorem Shows.length (h : l.Shows items shown) : l.container.length = shown.length := by
  rw [← h.shown, List.length_map]

/-- The children are taken out and put back. -/
theorem rangeMoved_spec {fromPosition toPosition : Nat} (h : l.Shows items shown)
    (hfrom : fromPosition + itemCount ≤ shown.length) (hto : toPosition + itemCount ≤ shown.length) :
    ∃ l', l.onItemRangeMoved fromPosition toPosition itemCount = .ok l' ∧
      l'.Shows items
        (inserted (without shown fromPosition itemCount) toPosition (range shown fromPosition itemCount)) := by
  rw [← h.length] at hfrom hto
  have hviews : (List.range itemCount).map (fun i => getChildAt l.container (fromPosition + i)) =
      (range l.container fromPosition itemCount).map some :=
    map_some_range hfrom
  have hnew : ((without l.container fromPosition itemCount ++
      range l.container fromPosition itemCount).map (·.number)).Nodup :=
    ((without_append_range_perm.map _).nodup_iff).mpr h.distinct
  have hto : toPosition ≤ (without l.container fromPosition itemCount).length := by rw [length_without hfrom]; omega
  have hadd := addViews_eq hnew hto
  rw [length_range hfrom] at hadd
  have hmove : l.onItemRangeMoved fromPosition toPosition itemCount =
      .ok ⟨inserted (without l.container fromPosition itemCount) toPosition (range l.container fromPosition itemCount),
        l.list, l.inflated⟩ := by
    rw [onItemRangeMoved, removeViews, if_pos hfrom, ok_bind, hviews, hadd]
    rfl
  refine ⟨_, hmove, h.list, ?_, ?_, ?_⟩
  · rw [map_inserted, map_without, map_range, h.shown]
  · exact ((inserted_without_perm.map _).nodup_iff).mpr h.distinct
  · intro view hview
    exact h.made view (inserted_without_perm.subset hview)

theorem rangeRemoved_spec (h : l.Shows items shown) (hrange : positionStart + itemCount ≤ shown.length) :
    ∃ l', l.onItemRangeRemoved positionStart itemCount = .ok l' ∧
      l'.Shows items (without shown positionStart itemCount) := by
  rw [← h.length] at hrange
  have hremove : l.onItemRangeRemoved positionStart itemCount =
      .ok { l with container := without l.container positionStart itemCount } := by
    rw [onItemRangeRemoved, removeViews, if_pos hrange]
    rfl
  refine ⟨_, hremove, h.list, ?_, h.distinct.sublist (without_sublist.map _), fun view hview => ?_⟩
  · rw [map_without, h.shown]
  · exact h.made view (without_sublist.subset hview)

/-! ## Changes -/

/-- A change leaves one child for each item, and the children in order if it is harmless. -/
theorem step_spec {c : ListChange T} (h : l.Shows items shown) (hlength : shown.length = items.length)
    (hvalid : c.Valid items) :
    ∃ l' shown', l.step c = .ok l' ∧ l'.Shows (c.apply items) shown' ∧ shown'.length = (c.apply items).length ∧
      (shown = items → (shown' = c.apply items ↔ c.Harmless items)) := by
  have hlist : (l.list.map fun items => c.apply items) = some (c.apply items) := by rw [h.list]; rfl
  have h : { l with list := l.list.map fun items => c.apply items }.Shows (c.apply items) shown :=
    ⟨hlist, h.shown, h.distinct, h.made⟩
  cases c with
  | all new =>
    obtain ⟨l', hrun, h'⟩ := onChanged_spec h.list
    exact ⟨l', _, hrun, h', rfl, fun _ => iff_of_true rfl trivial⟩
  | rangeChanged positionStart new =>
    have hrange : positionStart + new.length ≤ items.length := hvalid
    have hrest : (without items positionStart new.length).length = items.length - new.length := length_without hrange
    have happlied : (ListChange.apply items (.rangeChanged positionStart new)).length = items.length := by
      rw [ListChange.apply, length_inserted, hrest]
      omega
    have hnew : ∀ k < new.length, (ListChange.apply items (.rangeChanged positionStart new))[positionStart + k]? =
        new[k]? := by
      intro k hk
      rw [← getElem?_range hk, ListChange.apply, range_inserted (by omega)]
    obtain ⟨l', shown', hrun, h', hpulled⟩ := rangeChanged_spec h (hlength ▸ hrange) hnew
    refine ⟨l', shown', hrun, h', by rw [hpulled.length, hlength, happlied], fun hshown => ?_⟩
    subst hshown
    exact hpulled.eq_iff happlied
  | rangeInserted positionStart new =>
    have hstart : positionStart ≤ items.length := hvalid
    have hrange : positionStart + new.length ≤ (ListChange.apply items (.rangeInserted positionStart new)).length := by
      rw [ListChange.apply, length_inserted]
      exact Nat.add_le_add_right hstart _
    obtain ⟨l', hrun, h'⟩ := rangeInserted_spec h hrange
    rw [ListChange.apply, range_inserted hstart] at h'
    refine ⟨l', _, hrun, h', ?_, fun hshown => ?_⟩
    · rw [ListChange.apply, length_inserted, List.length_append, hlength]
    · subst hshown
      exact append_eq_inserted_iff
  | rangeMoved fromPosition toPosition itemCount =>
    obtain ⟨l', hrun, h'⟩ := rangeMoved_spec h (hlength ▸ hvalid.1) (hlength ▸ hvalid.2)
    refine ⟨l', _, hrun, h', ?_, fun hshown => iff_of_true (by rw [hshown]; rfl) trivial⟩
    rw [inserted_without_perm.length_eq, ListChange.apply, inserted_without_perm.length_eq, hlength]
  | rangeRemoved positionStart itemCount =>
    have hrange : positionStart + itemCount ≤ items.length := hvalid
    obtain ⟨l', hrun, h'⟩ := rangeRemoved_spec h (hlength ▸ hrange)
    refine ⟨l', _, hrun, h', ?_, fun hshown => iff_of_true (by rw [hshown]; rfl) trivial⟩
    rw [length_without (hlength ▸ hrange), ListChange.apply, length_without hrange, hlength]

theorem steps_spec {changes : List (ListChange T)} (h : l.Shows items shown) (hlength : shown.length = items.length)
    (hvalid : Along ListChange.apply ListChange.Valid items changes) :
    ∃ l' shown', changes.foldlM step l = .ok l' ∧ l'.Shows (changes.foldl ListChange.apply items) shown' ∧
      shown'.length = (changes.foldl ListChange.apply items).length := by
  induction changes generalizing l items shown with
  | nil => exact ⟨l, shown, rfl, h, hlength⟩
  | cons c changes ih =>
    obtain ⟨l₁, shown₁, hstep, h₁, hlength₁, -⟩ := step_spec h hlength hvalid.1
    obtain ⟨l', shown', hrun, h'⟩ := ih h₁ hlength₁ hvalid.2
    refine ⟨l', shown', ?_, h'⟩
    rw [List.foldlM_cons, hstep, ok_bind, hrun]

theorem Shows.mirrors_iff (h : l.Shows items shown) : l.Mirrors ↔ shown = items := by
  rw [Mirrors, h.list, h.shown, Option.some_inj, eq_comm]

/-- From children that mirror the list, they do so all along if every change is harmless. -/
theorem steps_mirrors_iff {changes : List (ListChange T)} (h : l.Shows items items)
    (hvalid : Along ListChange.apply ListChange.Valid items changes) :
    (∀ pre, pre <+: changes → ∀ l', pre.foldlM step l = .ok l' → l'.Mirrors) ↔
      Along ListChange.apply ListChange.Harmless items changes := by
  induction changes generalizing l items with
  | nil =>
    refine iff_of_true (fun pre hpre l' hrun => ?_) trivial
    rw [List.prefix_nil.mp hpre] at hrun
    cases hrun
    exact h.mirrors_iff.mpr rfl
  | cons c changes ih =>
    obtain ⟨l₁, shown₁, hstep, h₁, hlength₁, hiff⟩ := step_spec h rfl hvalid.1
    have hiff : shown₁ = c.apply items ↔ c.Harmless items := hiff rfl
    have hcons : ∀ pre, (c :: pre).foldlM step l = pre.foldlM step l₁ := fun pre => by
      rw [List.foldlM_cons, hstep, ok_bind]
    constructor
    · intro hall
      have hone : l₁.Mirrors := hall [c] ⟨changes, rfl⟩ l₁ (hcons [])
      have hshown : shown₁ = c.apply items := h₁.mirrors_iff.mp hone
      refine ⟨hiff.mp hshown, (ih (hshown ▸ h₁) hvalid.2).mp fun pre hpre l' hrun => ?_⟩
      exact hall (c :: pre) ((List.prefix_cons_inj c).mpr hpre) l' ((hcons pre).trans hrun)
    · rintro ⟨hc, hrest⟩ pre hpre l' hrun
      cases pre with
      | nil =>
        cases hrun
        exact h.mirrors_iff.mpr rfl
      | cons c' pre =>
        obtain ⟨rfl, htail⟩ := List.cons_prefix_cons.mp hpre
        have hshown := hiff.mpr hc
        exact (ih (hshown ▸ h₁) hvalid.2).mpr hrest pre htail l' ((hcons pre).symm.trans hrun)

theorem setList_spec : ∃ l', l.setList (some items) = .ok l' ∧ l'.Shows items items :=
  onChanged_spec (l := { l with list := some items }) rfl

/-- However the list changes, there is one child for each item; the i-th child is bound to the i-th item
all along just if every change is harmless. -/
theorem children_mirror_iff (l : ItemChangeListener T) (items : List T) (changes : List (ListChange T))
    (hvalid : Along ListChange.apply ListChange.Valid items changes) :
    (∀ pre, pre <+: changes → ∃ l', l.run items pre = .ok l' ∧
      l'.list = some (pre.foldl ListChange.apply items) ∧
      l'.container.length = (pre.foldl ListChange.apply items).length) ∧
    ((∀ pre, pre <+: changes → ∀ l', l.run items pre = .ok l' → l'.Mirrors) ↔
      Along ListChange.apply ListChange.Harmless items changes) := by
  obtain ⟨l₀, hset, h₀⟩ : ∃ l₀, l.setList (some items) = .ok l₀ ∧ l₀.Shows items items := setList_spec
  have hrun : ∀ pre, l.run items pre = pre.foldlM step l₀ := fun pre => by
    rw [run, hset, ok_bind]
  simp only [hrun]
  refine ⟨?_, steps_mirrors_iff h₀ hvalid⟩
  rintro pre ⟨post, rfl⟩
  obtain ⟨l', shown', hsteps, h', hlength⟩ := steps_spec h₀ rfl hvalid.left
  exact ⟨l', hsteps, h'.list, by rw [h'.length, hlength]⟩

/-- An insertion and a replacement at the end, a move and a removal. -/
theorem children_mirror_at_end :
    ∃ l', ItemChangeListener.run ⟨[], none, 0⟩ [1, 2]
        [.rangeInserted 2 [3], .rangeMoved 0 1 2, .rangeRemoved 0 1, .rangeChanged 1 [4]] = .ok l' ∧
      l'.list = some [1, 4] ∧ l'.Mirrors := by
  obtain ⟨hruns, hmirror⟩ := children_mirror_iff ⟨[], none, 0⟩ [1, 2]
    [.rangeInserted 2 [3], .rangeMoved 0 1 2, .rangeRemoved 0 1, .rangeChanged 1 [4]] (by decide)
  obtain ⟨l', hrun, hlist, -⟩ := hruns _ List.prefix_rfl
  exact ⟨l', hrun, hlist, hmirror.mpr (by decide) _ List.prefix_rfl l' hrun⟩

/-- The view of an item that is put in front of another one stands behind it. -/
theorem children_out_of_order :
    ∃ l', ItemChangeListener.run ⟨[], none, 0⟩ [2] [.rangeInserted 0 [1]] = .ok l' ∧
      l'.list = some [1, 2] ∧ l'.container.map (·.item) = [2, 1] ∧ ¬ l'.Mirrors := by
  refine ⟨_, rfl, rfl, rfl, fun h => ?_⟩
  have h : some [1, 2] = some [2, 1] := h
  cases h

end ItemChangeListener

end WgAndroid
