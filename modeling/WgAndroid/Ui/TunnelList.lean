import Mathlib.Data.Finset.Option
import Mathlib.Data.Finset.Union
import WgAndroid.Manager.LiveList
import WgAndroid.Manager.Ownership

/-!
# Selecting tunnels in the list

The action mode of `TunnelListFragment` keeps the positions of the checked rows, while the list below
it changes. The rows show the list as it is: the adapter binds them again after every change.

Results:
1. `run_aligned`: while every change keeps the checked rows on the tunnels that were toggled on, the
   selection means what the user sees.
2. `right_iff`: when Delete passes the tunnels that were toggled on and are still there.
3. `inserted_iff`, `removed_iff`: one tunnel more or less keeps the selection exactly when all of the
   checked rows stand before it.
-/

namespace WgAndroid.TunnelListFragment

open TunnelManager

/-! ## The action mode -/

/-- The list, the positions of the checked rows, and the tunnels that the user has toggled on since
the action mode began. The action mode is on while a row is checked. -/
structure Selection where
  live : Live
  checkedItems : Finset Nat
  toggledOn : Finset ObservableTunnel

namespace Selection

def tunnels (s : Selection) : List ObservableTunnel := s.live.tunnels

/-- The list before any row is checked. -/
def of (l : Live) : Selection := ⟨l, ∅, ∅⟩

/-- The end of the action mode: `onDestroyActionMode` unchecks all rows. -/
def finish (s : Selection) : Selection := { s with checkedItems := ∅, toggledOn := ∅ }

/-- `setItemChecked` with `true`, on the row of a tunnel. -/
def check (s : Selection) (position : Nat) (t : ObservableTunnel) : Selection :=
  { s with checkedItems := insert position s.checkedItems, toggledOn := insert t s.toggledOn }

/-- `setItemChecked` with `false`. -/
def uncheck (s : Selection) (position : Nat) (t : ObservableTunnel) : Selection :=
  -- the action mode ends with the last checked row
  if s.checkedItems.erase position = ∅ then s.finish
  else { s with checkedItems := s.checkedItems.erase position, toggledOn := s.toggledOn.erase t }

def toggleItemChecked (s : Selection) (position : Nat) (t : ObservableTunnel) : Selection :=
  if position ∈ s.checkedItems then s.uncheck position t else s.check position t

/-- The menu item "select all". -/
def selectAll (s : Selection) : Selection :=
  s.tunnels.zipIdx.foldl (fun s row => s.check row.2 row.1) s

/-- The tunnels that the menu item "delete" collects; `none` is a position that the list does not
have. -/
def tunnelsToDelete (s : Selection) : Option (Finset ObservableTunnel) :=
  if ∀ p ∈ s.checkedItems, p < s.tunnels.length then
    some (s.checkedItems.biUnion fun p => s.tunnels[p]?.toFinset)
  else none

/-- The tunnels that "delete" passes to `deleteAsync`: the collecting comes first, and when it throws
nothing is deleted. -/
def passed (s : Selection) : Finset ObservableTunnel := s.tunnelsToDelete.getD ∅

end Selection

/-- What happens in the list and to it. The calls that Delete issues are changes as any other. -/
inductive Event where
  | change (c : Change)
  | toggle (position : Nat)  -- a click on the row, or a long click
  | selectAll
  | finish  -- back, or the menu item "favourite"
  | delete

def Selection.step (s : Selection) : Event → Option Selection
  | .change c => (s.live.step c).map fun l => { s with live := l }
  | .toggle position => s.tunnels[position]?.map (s.toggleItemChecked position)
  | .selectAll => some s.selectAll
  | .finish | .delete => some s.finish

def Selection.run (s : Selection) (es : List Event) : Option Selection := es.foldlM Selection.step s

/-! ## Rows and tunnels -/

namespace Selection

/-- The checked rows are those of the tunnels that were toggled on. -/
def Aligned (s : Selection) : Prop :=
  (∀ p ∈ s.checkedItems, ∃ t ∈ s.toggledOn, s.tunnels[p]? = some t) ∧
    ∀ t ∈ s.toggledOn, t ∈ s.tunnels → ∃ p ∈ s.checkedItems, s.tunnels[p]? = some t

/-- The list has become too short for the checked rows, and has none of the tunnels that were toggled
on. -/
def Stale (s : Selection) : Prop :=
  (∃ p ∈ s.checkedItems, s.tunnels.length ≤ p) ∧ ∀ t ∈ s.toggledOn, t ∉ s.tunnels

/-- Delete passes exactly the tunnels that were toggled on and are in the list. -/
def Right (s : Selection) : Prop := ∀ t, t ∈ s.passed ↔ t ∈ s.toggledOn ∧ t ∈ s.tunnels

variable {s s' : Selection} {p : Nat} {t : ObservableTunnel}

theorem mem_passed (h : ∀ p ∈ s.checkedItems, p < s.tunnels.length) :
    t ∈ s.passed ↔ ∃ p ∈ s.checkedItems, s.tunnels[p]? = some t := by
  unfold passed tunnelsToDelete
  rw [if_pos h, Option.getD_some, Finset.mem_biUnion]
  simp only [Option.mem_toFinset, Option.mem_def]

theorem passed_of_short (h : ∃ p ∈ s.checkedItems, s.tunnels.length ≤ p) : s.passed = ∅ := by
  unfold passed tunnelsToDelete
  rw [if_neg]
  · rfl
  · intro hall
    obtain ⟨p, hp, hlength⟩ := h
    exact absurd (hall p hp) hlength.not_gt

theorem Aligned.right (h : s.Aligned) : s.Right := by
  intro t
  rw [mem_passed fun p hp => by
    obtain ⟨t, -, ht⟩ := h.1 p hp
    exact (List.getElem?_eq_some_iff.mp ht).1]
  constructor
  · rintro ⟨p, hp, ht⟩
    obtain ⟨t', hon, ht'⟩ := h.1 p hp
    cases ht.symm.trans ht'
    exact ⟨hon, List.mem_of_getElem? ht⟩
  · rintro ⟨hon, ht⟩
    exact h.2 t hon ht

/-- When Delete passes the tunnels that were toggled on and are still in the list. -/
theorem right_iff : s.Right ↔ s.Aligned ∨ s.Stale := by
  by_cases hshort : ∃ p ∈ s.checkedItems, s.tunnels.length ≤ p
  · have hempty := passed_of_short hshort
    constructor
    · intro h
      refine .inr ⟨hshort, fun t hon ht => ?_⟩
      have := (h t).mpr ⟨hon, ht⟩
      rw [hempty] at this
      exact Finset.notMem_empty t this
    · rintro (haligned | hstale)
      · exact haligned.right
      · intro t
        rw [hempty]
        exact ⟨fun ht => (Finset.notMem_empty t ht).elim, fun ht => (hstale.2 t ht.1 ht.2).elim⟩
  · have hrange : ∀ p ∈ s.checkedItems, p < s.tunnels.length := fun p hp =>
      lt_of_not_ge fun hle => hshort ⟨p, hp, hle⟩
    constructor
    · intro h
      refine .inl ⟨fun p hp => ?_, fun t hon ht => (mem_passed hrange).mp ((h t).mpr ⟨hon, ht⟩)⟩
      have ht := List.getElem?_eq_getElem (hrange p hp)
      exact ⟨_, ((h _).mp ((mem_passed hrange).mpr ⟨p, hp, ht⟩)).1, ht⟩
    · rintro (haligned | hstale)
      · exact haligned.right
      · exact (hshort hstale.1).elim

/-! ## What keeps the selection -/

theorem finish_aligned : s.finish.Aligned :=
  ⟨fun p hp => (Finset.notMem_empty p hp).elim, fun t ht => (Finset.notMem_empty t ht).elim⟩

theorem of_aligned {l : Live} : (of l).Aligned := finish_aligned (s := of l)

theorem check_aligned (h : s.Aligned) (ht : s.tunnels[p]? = some t) : (s.check p t).Aligned := by
  constructor
  · intro q hq
    rcases Finset.mem_insert.mp hq with rfl | hq
    · exact ⟨t, Finset.mem_insert_self .., ht⟩
    · obtain ⟨u, hon, hu⟩ := h.1 q hq
      exact ⟨u, Finset.mem_insert_of_mem hon, hu⟩
  · intro u hon hu
    rcases Finset.mem_insert.mp hon with rfl | hon
    · exact ⟨p, Finset.mem_insert_self .., ht⟩
    · obtain ⟨q, hq, hu⟩ := h.2 u hon hu
      exact ⟨q, Finset.mem_insert_of_mem hq, hu⟩

theorem uncheck_aligned (h : s.Aligned) (hnodup : s.tunnels.Nodup) (ht : s.tunnels[p]? = some t) :
    (s.uncheck p t).Aligned := by
  unfold uncheck
  split
  · exact finish_aligned
  · constructor
    · intro q hq
      obtain ⟨hne, hq⟩ := Finset.mem_erase.mp hq
      obtain ⟨u, hon, hu⟩ := h.1 q hq
      -- another row shows another tunnel
      refine ⟨u, Finset.mem_erase.mpr ⟨fun heq => hne ?_, hon⟩, hu⟩
      have hlt := (List.getElem?_eq_some_iff.mp hu).1
      exact (List.getElem?_inj hlt hnodup).mp (hu.trans (heq ▸ ht.symm))
    · intro u hon hu
      obtain ⟨hne, hon⟩ := Finset.mem_erase.mp hon
      obtain ⟨q, hq, hu⟩ := h.2 u hon hu
      refine ⟨q, Finset.mem_erase.mpr ⟨fun heq => hne ?_, hq⟩, hu⟩
      exact Option.some.inj (hu.symm.trans (heq ▸ ht))

theorem toggleItemChecked_aligned (h : s.Aligned) (hnodup : s.tunnels.Nodup)
    (ht : s.tunnels[p]? = some t) : (s.toggleItemChecked p t).Aligned := by
  unfold toggleItemChecked
  split
  · exact uncheck_aligned h hnodup ht
  · exact check_aligned h ht

theorem toggleItemChecked_tunnels : (s.toggleItemChecked p t).tunnels = s.tunnels := by
  unfold toggleItemChecked uncheck
  split_ifs <;> rfl

/-- Checking one row after the other keeps the list and the selection. -/
theorem foldl_check {rows : List (ObservableTunnel × Nat)} (h : s.Aligned)
    (hrows : ∀ row ∈ rows, s.tunnels[row.2]? = some row.1) :
    (rows.foldl (fun s row => s.check row.2 row.1) s).Aligned ∧
      (rows.foldl (fun s row => s.check row.2 row.1) s).tunnels = s.tunnels := by
  induction rows generalizing s with
  | nil => exact ⟨h, rfl⟩
  | cons row rows ih =>
    exact ih (check_aligned h (hrows row List.mem_cons_self)) fun row' hrow' =>
      hrows row' (List.mem_cons_of_mem _ hrow')

theorem selectAll_aligned (h : s.Aligned) : s.selectAll.Aligned ∧ s.selectAll.tunnels = s.tunnels :=
  foldl_check h fun _ hrow => List.mem_zipIdx_iff_getElem?.mp hrow

end Selection

/-- After a change, the list has no duplicates, and the checked rows are those of the tunnels that
were toggled on. -/
def Event.Kept (s : Selection) : Event → Prop
  | .change _ => s.Aligned ∧ s.tunnels.Nodup
  | .toggle _ | .selectAll | .finish | .delete => True

namespace Selection

/-- Every change in the run keeps the selection. -/
def Keeps : Selection → List Event → Prop
  | _, [] => True
  | s, e :: es => ∀ s' ∈ s.step e, e.Kept s' ∧ s'.Keeps es

variable {s s' : Selection} {e : Event} {es : List Event}

theorem step_aligned (hstep : s.step e = some s') (hkept : e.Kept s') (h : s.Aligned)
    (hnodup : s.tunnels.Nodup) : s'.Aligned ∧ s'.tunnels.Nodup := by
  cases e with
  | change c => exact hkept
  | toggle p =>
    obtain ⟨t, ht, rfl⟩ := Option.map_eq_some_iff.mp hstep
    exact ⟨toggleItemChecked_aligned h hnodup ht, by rwa [toggleItemChecked_tunnels]⟩
  | selectAll =>
    cases hstep
    obtain ⟨haligned, htunnels⟩ := selectAll_aligned h
    exact ⟨haligned, htunnels ▸ hnodup⟩
  | finish | delete =>
    cases hstep
    exact ⟨finish_aligned, hnodup⟩

/-- While every change keeps the selection, it means what the user toggled on. -/
theorem run_aligned (hrun : s.run es = some s') (hkeeps : s.Keeps es) (h : s.Aligned)
    (hnodup : s.tunnels.Nodup) : s'.Aligned ∧ s'.tunnels.Nodup :=
  Checked.foldlM_some_invariant
    (fun (s : Selection) es (s' : Selection) =>
      s.Keeps es → s.Aligned ∧ s.tunnels.Nodup → s'.Aligned ∧ s'.tunnels.Nodup)
    (fun _ _ h => h)
    (fun hstep ih hkeeps h =>
      ih (hkeeps _ hstep).2 (step_aligned hstep (hkeeps _ hstep).1 h.1 h.2)) hrun hkeeps ⟨h, hnodup⟩

/-! ## One tunnel more or less -/

/-- The last of the checked rows from a position on. -/
theorem exists_last_checked {i p : Nat} (hp : p ∈ s.checkedItems) (hi : i ≤ p) :
    ∃ q ∈ s.checkedItems, i ≤ q ∧ q + 1 ∉ s.checkedItems := by
  have hne : s.checkedItems.Nonempty := ⟨p, hp⟩
  refine ⟨s.checkedItems.max' hne, s.checkedItems.max'_mem hne, hi.trans (s.checkedItems.le_max' p hp), ?_⟩
  intro hnext
  exact absurd (s.checkedItems.le_max' _ hnext) (Nat.not_succ_le_self _)

section Changed

variable {i : Nat} {t : ObservableTunnel} (hchecked : s'.checkedItems = s.checkedItems)
  (htoggled : s'.toggledOn = s.toggledOn)

include hchecked htoggled

/-- A tunnel that was not toggled on comes into the list: Delete stays right exactly when all of the
checked rows stand before it. -/
theorem inserted_iff (h : s.Aligned) (hi : i ≤ s.tunnels.length) (ht : t ∉ s.toggledOn)
    (hinserted : s'.tunnels = s.tunnels.insertIdx i t) (hnodup : s'.tunnels.Nodup) :
    s'.Right ↔ ∀ p ∈ s.checkedItems, p < i := by
  constructor
  · intro hright p hp
    by_contra hle
    obtain ⟨q, hq, hiq, hlast⟩ := exists_last_checked hp (not_lt.mp hle)
    obtain ⟨u, hon, hu⟩ := h.1 q hq
    -- the tunnel of the last checked row has moved down by one
    have hu' : s'.tunnels[q + 1]? = some u := by
      rw [hinserted, List.getElem?_insertIdx_of_gt (Nat.lt_succ_of_le hiq)]
      exact hu
    rcases right_iff.mp hright with haligned | hstale
    · obtain ⟨r, hr, hur⟩ := haligned.2 u (htoggled ▸ hon) (List.mem_of_getElem? hu')
      have hlt := (List.getElem?_eq_some_iff.mp hur).1
      cases (List.getElem?_inj hlt hnodup).mp (hur.trans hu'.symm)
      exact hlast (hchecked ▸ hr)
    · exact hstale.2 u (htoggled ▸ hon) (List.mem_of_getElem? hu')
  · intro hall
    refine Aligned.right ⟨fun p hp => ?_, fun u hon hu => ?_⟩
    · obtain ⟨u, hon, hu⟩ := h.1 p (hchecked ▸ hp)
      refine ⟨u, htoggled ▸ hon, ?_⟩
      rw [hinserted, List.getElem?_insertIdx_of_lt (hall p (hchecked ▸ hp))]
      exact hu
    · rw [htoggled] at hon
      rw [hinserted, List.mem_insertIdx hi] at hu
      rcases hu with rfl | hu
      · exact (ht hon).elim
      · obtain ⟨p, hp, hu⟩ := h.2 u hon hu
        refine ⟨p, hchecked ▸ hp, ?_⟩
        rw [hinserted, List.getElem?_insertIdx_of_lt (hall p hp)]
        exact hu

/-- A tunnel leaves the list: Delete stays right exactly when all of the checked rows stand before it,
or its row was the last one of the list and the only checked one. -/
theorem removed_iff (h : s.Aligned) (hnodup : s.tunnels.Nodup) (hi : i < s.tunnels.length)
    (hremoved : s'.tunnels = s.tunnels.eraseIdx i) :
    s'.Right ↔ (∀ p ∈ s.checkedItems, p < i) ∨ s.checkedItems = {i} ∧ s.tunnels.length = i + 1 := by
  have hlength : s'.tunnels.length + 1 = s.tunnels.length := by
    rw [hremoved, List.length_eraseIdx_add_one hi]
  have hmem (u : ObservableTunnel) : u ∈ s'.tunnels ↔ ∃ q ≠ i, s.tunnels[q]? = some u := by
    rw [hremoved, List.mem_eraseIdx_iff_getElem?]
  constructor
  · intro hright
    rcases right_iff.mp hright with haligned | ⟨⟨p, hp, hshort⟩, hgone⟩
    · refine .inl fun p hp => ?_
      by_contra hle
      obtain ⟨q, hq, hiq, hlast⟩ := exists_last_checked hp (not_lt.mp hle)
      -- the last checked row now shows the tunnel of the row below it
      obtain ⟨u, hon, hu⟩ := haligned.1 q (hchecked ▸ hq)
      rw [hremoved, List.getElem?_eraseIdx_of_ge hiq] at hu
      obtain ⟨r, hr, hur⟩ := h.2 u (htoggled ▸ hon) (List.mem_of_getElem? hu)
      have hlt := (List.getElem?_eq_some_iff.mp hur).1
      cases (List.getElem?_inj hlt hnodup).mp (hur.trans hu.symm)
      exact hlast hr
    · have honly : ∀ q ∈ s.checkedItems, q = i := by
        intro q hq
        by_contra hne
        obtain ⟨u, hon, hu⟩ := h.1 q hq
        exact hgone u (htoggled ▸ hon) ((hmem u).mpr ⟨q, hne, hu⟩)
      rw [hchecked] at hp
      cases honly p hp
      exact .inr ⟨Finset.eq_singleton_iff_unique_mem.mpr ⟨hp, honly⟩, by omega⟩
  · rintro (hall | ⟨honly, hlast⟩)
    · refine Aligned.right ⟨fun p hp => ?_, fun u hon hu => ?_⟩
      · obtain ⟨u, hon, hu⟩ := h.1 p (hchecked ▸ hp)
        refine ⟨u, htoggled ▸ hon, ?_⟩
        rw [hremoved, List.getElem?_eraseIdx_of_lt (hall p (hchecked ▸ hp))]
        exact hu
      · obtain ⟨q, -, hq⟩ := (hmem u).mp hu
        obtain ⟨p, hp, hu⟩ := h.2 u (htoggled ▸ hon) (List.mem_of_getElem? hq)
        refine ⟨p, hchecked ▸ hp, ?_⟩
        rw [hremoved, List.getElem?_eraseIdx_of_lt (hall p hp)]
        exact hu
    · refine right_iff.mpr (.inr ⟨⟨i, ?_, by omega⟩, fun u hon hu => ?_⟩)
      · rw [hchecked, honly]
        exact Finset.mem_singleton_self i
      · obtain ⟨q, hne, hq⟩ := (hmem u).mp hu
        obtain ⟨p, hp, hu⟩ := h.2 u (htoggled ▸ hon) (List.mem_of_getElem? hq)
        rw [honly, Finset.mem_singleton] at hp
        have hlt := (List.getElem?_eq_some_iff.mp hq).1
        exact hne ((List.getElem?_inj hlt hnodup).mp (hq.trans (hp ▸ hu.symm)))

end Changed

end Selection

/-! ## Delete -/

instance (s : Selection) : Decidable s.Aligned :=
  inferInstanceAs (Decidable ((∀ p ∈ s.checkedItems, ∃ t ∈ s.toggledOn, s.tunnels[p]? = some t) ∧
    ∀ t ∈ s.toggledOn, t ∈ s.tunnels → ∃ p ∈ s.checkedItems, s.tunnels[p]? = some t))

instance (s : Selection) : (e : Event) → Decidable (e.Kept s)
  | .change _ => inferInstanceAs (Decidable (s.Aligned ∧ s.tunnels.Nodup))
  | .toggle _ | .selectAll | .finish | .delete => isTrue trivial

instance decidableKeeps : (s : Selection) → (es : List Event) → Decidable (s.Keeps es)
  | _, [] => isTrue trivial
  | s, e :: es =>
    have : DecidablePred fun s' => Selection.Keeps s' es := fun s' => decidableKeeps s' es
    inferInstanceAs (Decidable (∀ s' ∈ s.step e, e.Kept s' ∧ s'.Keeps es))

/-- The first row is toggled on, and then a tunnel of the given name is created. -/
def toggleAndCreate (name : JString) : List Event :=
  [.toggle 0, .change (.manager (.start (.create name (some sampleConfig)))),
    .change (.manager (.resume 0 (.returns []))), .change (.manager (.resume 0 .main))]

end WgAndroid.TunnelListFragment
