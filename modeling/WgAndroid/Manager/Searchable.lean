import WgAndroid.Manager.LiveList

/-!
# The list stays searchable

`TunnelComparator` is one global object whose favourites change, and `tunnelMap` is searched by it. The
list is compared with a plain set of tunnels through insertions, removals, renames and changes of the
favourites, for names that the tokens tell apart.

Results:
1. `resort_searchable`: emptying the list and adding its tunnels again leaves the same tunnels, in the new
   order.
2. `run_searchable`: after any steps the list has the tunnels of the set, in strict order with the favourites
   first, and a lookup finds each of them by its name and nothing else.
-/

namespace WgAndroid.TunnelManager

open SortedKeyedList TunnelComparator

/-! ## Steps -/

inductive ListStep where
  | insert (name : JString) (config : Option Config) (state : TunnelState)  -- addToList
  | remove (t : ObservableTunnel)
  | rename (t : ObservableTunnel) (name : JString)  -- remove, onNameChanged, add
  | favourites (names : List JString)  -- observeFavourites

/-- The names that a step gives to tunnels. -/
def ListStep.names : ListStep → List JString
  | .insert name _ _ | .rename _ name => [name]
  | .remove _ | .favourites _ => []

/-- The comparator of `tunnelMap`, as it is now. -/
def Live.comparator (l : Live) : Comparator JString := TunnelComparator.comparator l.favourites

/-- `tunnelMap.add(tunnel)`: the list is left as it is when it throws. -/
def World.addTunnel (cmp : Comparator JString) (w : World) (t : ObservableTunnel) : World :=
  match SortedKeyedList.add cmp w.name w.tunnelMap t with
  | .ok (_, tunnelMap) => { w with tunnelMap }
  | .error _ => w

def World.removeTunnel (w : World) (t : ObservableTunnel) : World := { w with tunnelMap := w.tunnelMap.erase t }

/-- There are no references to tunnels that have not been constructed. -/
def Live.change (l : Live) : ListStep → Option Live
  | .insert name config state =>
    match l.world.addToList l.comparator name config state with
    | .ok (_, w) => some (l.withWorld w)
    | .error _ => some l
  | .remove t => if t < l.world.next then some (l.withWorld (l.world.removeTunnel t)) else none
  | .rename t name =>
    if t < l.world.next then
      some (l.withWorld (((l.world.removeTunnel t).onNameChanged t name).addTunnel l.comparator t))
    else none
  | .favourites names => some (collectFavourites l names)

/-- No tunnels yet. -/
def Live.empty (favourites : List JString) : Live := ⟨favourites, ⟨boot ∅ [], []⟩⟩

/-! ## A plain set of tunnels -/

/-- The tunnels with their names, without an order. -/
structure TunnelSet where
  favourites : List JString
  name : ObservableTunnel → JString
  next : ObservableTunnel
  tunnels : Finset ObservableTunnel

/-- A name is for one tunnel only. -/
def TunnelSet.add (m : TunnelSet) (t : ObservableTunnel) : TunnelSet :=
  if ∃ u ∈ m.tunnels, m.name u = m.name t then m else { m with tunnels := insert t m.tunnels }

def TunnelSet.change (m : TunnelSet) : ListStep → TunnelSet
  | .insert name _ _ =>
    if ∃ u ∈ m.tunnels, m.name u = name then m
    else
      { m with
        name := Function.update m.name m.next name
        next := m.next + 1
        tunnels := insert m.next m.tunnels }
  | .remove t => { m with tunnels := m.tunnels.erase t }
  | .rename t name =>
    { m with name := Function.update m.name t name, tunnels := m.tunnels.erase t }.add t
  | .favourites names => { m with favourites := names }

def TunnelSet.empty (favourites : List JString) : TunnelSet := ⟨favourites, fun _ => [], 0, ∅⟩

/-! ## Adding in order -/

section Order

variable {names : Set JString} (hnames : Set.InjOn naturalSortString names) {favourites : List JString}
  {name : ObservableTunnel → JString} {elems es : List ObservableTunnel} {t : ObservableTunnel}

include hnames

theorem sorted_refined (hin : ∀ u ∈ elems, name u ∈ names) :
    Sorted (comparator favourites) name elems ↔ Sorted (refined favourites) name elems := by
  rw [sorted_iff, sorted_iff]
  refine List.Pairwise.iff_of_mem fun {u v} hu hv => ?_
  rw [refined_eq hnames (hin u hu) (hin v hv)]

/-- A tunnel with a new name is inserted in its place. -/
theorem add_searchable (hin : ∀ u ∈ elems, name u ∈ names) (ht : name t ∈ names)
    (hsorted : Sorted (comparator favourites) name elems) (hnew : ∀ u ∈ elems, name u ≠ name t) :
    ∃ elems', SortedKeyedList.add (comparator favourites) name elems t = .ok (true, elems') ∧
      elems'.Perm (t :: elems) ∧ Sorted (comparator favourites) name elems' := by
  obtain ⟨elems', hadd, hperm⟩ := add_of_new (comparator favourites) hnew
  have hin' : ∀ u ∈ elems', name u ∈ names := by
    intro u hu
    rcases List.mem_cons.mp (hperm.subset hu) with rfl | hu
    · exact ht
    · exact hin u hu
  refine ⟨elems', hadd, hperm, (sorted_refined hnames hin').mpr ?_⟩
  rw [add_congr fun u hu => refined_eq hnames (hin u hu) ht] at hadd
  exact add_sorted (refined_isOrder favourites) ((sorted_refined hnames hin).mp hsorted) hadd

theorem add_taken (hin : ∀ u ∈ elems, name u ∈ names) (ht : name t ∈ names)
    (hsorted : Sorted (comparator favourites) name elems) (htaken : ∃ u ∈ elems, name u = name t)
    (hmem : t ∉ elems) : SortedKeyedList.add (comparator favourites) name elems t = .error .sameKey := by
  obtain ⟨u, hu, hkey⟩ := htaken
  rw [add_congr fun u hu => refined_eq hnames (hin u hu) ht]
  exact add_of_taken (refined_isOrder favourites) ((sorted_refined hnames hin).mp hsorted) hu hkey hmem

/-- The loop of `addAll` on tunnels that all have new names. -/
theorem addAll_searchable (changed : Bool) (hin : ∀ u ∈ es ++ elems, name u ∈ names)
    (hdistinct : ((es ++ elems).map name).Nodup) (hsorted : Sorted (comparator favourites) name elems) :
    (addAll (comparator favourites) name changed elems es).2.Perm (es ++ elems) ∧
      Sorted (comparator favourites) name (addAll (comparator favourites) name changed elems es).2 := by
  induction es generalizing elems changed with
  | nil => exact ⟨.refl _, hsorted⟩
  | cons t es ih =>
    have hnew : ∀ u ∈ elems, name u ≠ name t := by
      intro u hu heq
      refine (List.nodup_cons.mp hdistinct).1 (heq ▸ List.mem_map_of_mem ?_)
      exact List.mem_append_right es hu
    obtain ⟨elems', hadd, hperm, hsorted'⟩ := add_searchable hnames
      (fun u hu => hin u (List.mem_append_right _ hu)) (hin t List.mem_cons_self) hsorted hnew
    have hmid : (es ++ elems').Perm (t :: es ++ elems) := (hperm.append_left es).trans List.perm_middle
    unfold addAll
    rw [hadd]
    obtain ⟨hperm', hsorted''⟩ := ih (changed || true) (fun u hu => hin u (hmid.subset hu))
      ((hmid.map name).nodup_iff.mpr hdistinct) hsorted'
    exact ⟨hperm'.trans hmid, hsorted''⟩

/-- In a list in order, a lookup finds the tunnel with the name. -/
theorem get?_searchable (hin : ∀ u ∈ elems, name u ∈ names) (hsorted : Sorted (comparator favourites) name elems)
    (n : JString) : get? (comparator favourites) name elems n = some t ↔ t ∈ elems ∧ name t = n := by
  refine ⟨fun hget => ⟨get?_mem hget, key_of_get? hget⟩, ?_⟩
  rintro ⟨ht, rfl⟩
  rw [get?_congr fun u hu => refined_eq hnames (hin u hu) (hin t ht)]
  exact (get?_eq_some_iff (refined_isOrder favourites) ((sorted_refined hnames hin).mp hsorted)).mpr ⟨ht, rfl⟩

end Order

/-- The names in a list in order are all different. -/
theorem nodup_names {favourites : List JString} {name : ObservableTunnel → JString} {elems : List ObservableTunnel}
    (h : Sorted (comparator favourites) name elems) : (elems.map name).Nodup := by
  refine List.Pairwise.imp (fun {a b} hlt heq => ?_) h
  rw [(comparator favourites).compare_eq_zero.mpr heq] at hlt
  exact absurd hlt (by decide)

/-! ## The invariant -/

/-- The list holds the tunnels of the set, in order. -/
structure Searchable (names : Set JString) (l : Live) (m : TunnelSet) : Prop where
  favourites : ∀ n, n ∈ l.favourites ↔ n ∈ m.favourites
  name : l.world.name = m.name
  next : l.world.next = m.next
  mem : ∀ t, t ∈ l.tunnels ↔ t ∈ m.tunnels
  constructed : ∀ t ∈ l.tunnels, t < l.world.next
  within : ∀ t ∈ l.tunnels, l.world.name t ∈ names
  sorted : Sorted l.comparator l.world.name l.tunnels

variable {names : Set JString} {l l' : Live} {m : TunnelSet}

theorem Searchable.nodup (h : Searchable names l m) : l.tunnels.Nodup :=
  List.Nodup.of_map _ (nodup_names h.sorted)

theorem searchable_empty (favourites : List JString) :
    Searchable names (.empty favourites) (.empty favourites) where
  favourites _ := Iff.rfl
  name := rfl
  next := rfl
  mem t := iff_of_false List.not_mem_nil (Finset.notMem_empty t)
  constructed := List.forall_mem_nil _
  within := List.forall_mem_nil _
  sorted := sorted_iff.mpr .nil

section Steps

variable (hnames : Set.InjOn naturalSortString names)

/-- Renaming a tunnel that is not in the list does not disturb it. -/
theorem map_update {name : ObservableTunnel → JString} {elems : List ObservableTunnel} {t : ObservableTunnel}
    {n : JString} (h : t ∉ elems) : elems.map (Function.update name t n) = elems.map name :=
  List.map_congr_left fun _ hu => Function.update_of_ne (ne_of_mem_of_not_mem hu h) ..

theorem sorted_update {cmp : Comparator JString} {name : ObservableTunnel → JString} {n : JString}
    {elems : List ObservableTunnel} {t : ObservableTunnel} (h : t ∉ elems) (hsorted : Sorted cmp name elems) :
    Sorted cmp (Function.update name t n) elems := by
  unfold SortedKeyedList.Sorted at hsorted ⊢
  rwa [map_update h]

include hnames

theorem Searchable.insert (h : Searchable names l m) {name : JString} (hname : name ∈ names) {config : Option Config}
    {state : TunnelState} (hchange : l.change (.insert name config state) = some l') :
    Searchable names l' (m.change (.insert name config state)) := by
  have hfresh : l.world.next ∉ l.tunnels := fun hmem => Nat.lt_irrefl _ (h.constructed _ hmem)
  let w := l.world.construct name config state
  have hold : ∀ u ∈ l.tunnels, w.name u = l.world.name u := fun u hu =>
    Function.update_of_ne (ne_of_mem_of_not_mem hu hfresh) ..
  have hnew : w.name l.world.next = name := Function.update_self ..
  have hin : ∀ u ∈ l.tunnels, w.name u ∈ names := fun u hu => (hold u hu).symm ▸ h.within u hu
  have hsorted : Sorted l.comparator w.name l.tunnels := sorted_update hfresh h.sorted
  have hiff : (∃ u ∈ l.tunnels, w.name u = w.name l.world.next) ↔ ∃ u ∈ m.tunnels, m.name u = name := by
    refine exists_congr fun u => ?_
    rw [← h.mem, ← h.name, hnew]
    exact and_congr_right fun hu => by rw [hold u hu]
  have hlist : l.world.addToList l.comparator name config state =
      (SortedKeyedList.add l.comparator w.name l.tunnels l.world.next).map fun p =>
        (l.world.next, { w with tunnelMap := p.2 }) := rfl
  rw [Live.change, hlist] at hchange
  by_cases htaken : ∃ u ∈ m.tunnels, m.name u = name
  · have hadd : SortedKeyedList.add l.comparator w.name l.tunnels l.world.next = .error .sameKey :=
      add_taken hnames hin (hnew.symm ▸ hname) hsorted (hiff.mpr htaken) hfresh
    rw [hadd] at hchange
    cases hchange
    rw [TunnelSet.change, if_pos htaken]
    exact h
  · obtain ⟨elems', hadd, hperm, hsorted'⟩ := add_searchable hnames hin (hnew.symm ▸ hname) hsorted
      fun u hu heq => htaken (hiff.mp ⟨u, hu, heq⟩)
    have hadd : SortedKeyedList.add l.comparator w.name l.tunnels l.world.next = .ok (true, elems') := hadd
    rw [hadd] at hchange
    cases hchange
    rw [TunnelSet.change, if_neg htaken]
    refine ⟨h.favourites, ?_, congrArg (· + 1) h.next, fun t => ?_, fun t ht => ?_, fun t ht => ?_, hsorted'⟩
    · show Function.update l.world.name l.world.next name = _
      rw [h.name, h.next]
    · show t ∈ elems' ↔ _
      rw [hperm.mem_iff, List.mem_cons, Finset.mem_insert, ← h.mem, h.next]
    · rcases List.mem_cons.mp (hperm.subset ht) with rfl | ht
      · exact Nat.lt_succ_self _
      · exact Nat.lt_succ_of_lt (h.constructed t ht)
    · rcases List.mem_cons.mp (hperm.subset ht) with rfl | ht
      · exact hnew.symm ▸ hname
      · exact hin t ht

omit hnames in
theorem Searchable.remove (h : Searchable names l m) (t : ObservableTunnel) :
    Searchable names (l.withWorld (l.world.removeTunnel t)) (m.change (.remove t)) where
  favourites := h.favourites
  name := h.name
  next := h.next
  mem u := by
    show u ∈ l.tunnels.erase t ↔ u ∈ m.tunnels.erase t
    rw [h.nodup.mem_erase_iff, Finset.mem_erase, h.mem]
  constructed u hu := h.constructed u (List.mem_of_mem_erase hu)
  within u hu := h.within u (List.mem_of_mem_erase hu)
  sorted := h.sorted.sublist List.erase_sublist

/-- `tunnelMap.add` of a tunnel that is not in the list, in the list and in the set. -/
theorem Searchable.add (h : Searchable names l m) {t : ObservableTunnel} (ht : l.world.name t ∈ names)
    (hmem : t ∉ l.tunnels) (hconstructed : t < l.world.next) :
    Searchable names (l.withWorld (l.world.addTunnel l.comparator t)) (m.add t) := by
  have hiff : (∃ u ∈ l.tunnels, l.world.name u = l.world.name t) ↔ ∃ u ∈ m.tunnels, m.name u = m.name t := by
    refine exists_congr fun u => ?_
    rw [h.mem, h.name]
  unfold World.addTunnel TunnelSet.add
  by_cases htaken : ∃ u ∈ m.tunnels, m.name u = m.name t
  · have hadd : SortedKeyedList.add l.comparator l.world.name l.world.tunnelMap t = .error .sameKey :=
      add_taken hnames h.within ht h.sorted (hiff.mpr htaken) hmem
    rw [if_pos htaken, hadd]
    exact h
  · obtain ⟨elems', hadd, hperm, hsorted⟩ := add_searchable hnames h.within ht h.sorted
      fun u hu heq => htaken (hiff.mp ⟨u, hu, heq⟩)
    have hadd : SortedKeyedList.add l.comparator l.world.name l.world.tunnelMap t = .ok (true, elems') := hadd
    rw [if_neg htaken, hadd]
    refine ⟨h.favourites, h.name, h.next, fun u => ?_, fun u hu => ?_, fun u hu => ?_, hsorted⟩
    · show u ∈ elems' ↔ _
      rw [hperm.mem_iff, List.mem_cons, Finset.mem_insert, ← h.mem]
    · rcases List.mem_cons.mp (hperm.subset hu) with rfl | hu
      · exact hconstructed
      · exact h.constructed u hu
    · rcases List.mem_cons.mp (hperm.subset hu) with rfl | hu
      · exact ht
      · exact h.within u hu

theorem Searchable.rename (h : Searchable names l m) {t : ObservableTunnel} {name : JString} (hname : name ∈ names)
    (ht : t < l.world.next) :
    Searchable names
      (l.withWorld (((l.world.removeTunnel t).onNameChanged t name).addTunnel l.comparator t))
      (m.change (.rename t name)) := by
  have hout : t ∉ l.tunnels.erase t := h.nodup.not_mem_erase
  have hremoved := h.remove t
  have hrenamed : Searchable names (l.withWorld ((l.world.removeTunnel t).onNameChanged t name))
      { m with name := Function.update m.name t name, tunnels := m.tunnels.erase t } :=
    { favourites := h.favourites
      name := by
        show Function.update l.world.name t name = _
        rw [h.name]
      next := h.next
      mem := hremoved.mem
      constructed := hremoved.constructed
      within := fun u hu => by
        show Function.update l.world.name t name u ∈ names
        rw [Function.update_of_ne (ne_of_mem_of_not_mem hu hout)]
        exact hremoved.within u hu
      sorted := sorted_update hout hremoved.sorted }
  refine hrenamed.add hnames ?_ hout ht
  show Function.update l.world.name t name t ∈ names
  rwa [Function.update_self]

/-- Emptying the list and adding its tunnels again leaves the same tunnels, in the new order. -/
theorem resort_searchable {w : World} {favourites : List JString} (hin : ∀ t ∈ w.tunnelMap, w.name t ∈ names)
    (hsorted : Sorted (comparator favourites) w.name w.tunnelMap) (favourites' : List JString) :
    ∃ elems, resort (comparator favourites') w = { w with tunnelMap := elems } ∧ elems.Perm w.tunnelMap ∧
      Sorted (comparator favourites') w.name elems := by
  unfold resort
  split
  · next hempty =>
    rw [List.isEmpty_iff] at hempty
    exact ⟨w.tunnelMap, rfl, .refl _, by rw [hempty]; exact sorted_iff.mpr .nil⟩
  · have happend : w.tunnelMap ++ [] = w.tunnelMap := List.append_nil _
    have hempty : Sorted (comparator favourites') w.name [] := sorted_iff.mpr .nil
    obtain ⟨hperm, hsorted'⟩ := addAll_searchable hnames false (happend.symm ▸ hin)
      (happend.symm ▸ nodup_names hsorted) hempty
    rw [happend] at hperm
    exact ⟨_, rfl, hperm, hsorted'⟩

theorem Searchable.collectFavourites (h : Searchable names l m) (favourites : List JString) :
    Searchable names (collectFavourites l favourites) (m.change (.favourites favourites)) := by
  unfold TunnelManager.collectFavourites
  split
  · next hsame =>
    exact { h with favourites := fun n => ⟨fun hn => hsame.1 hn, fun hn => hsame.2 hn⟩ }
  · obtain ⟨elems, hresort, hperm, hsorted⟩ := resort_searchable hnames h.within h.sorted favourites
    rw [hresort]
    exact
      { favourites := fun _ => Iff.rfl
        name := h.name
        next := h.next
        mem := fun t => hperm.mem_iff.trans (h.mem t)
        constructed := fun t ht => h.constructed t (hperm.subset ht)
        within := fun t ht => h.within t (hperm.subset ht)
        sorted := hsorted }

theorem Searchable.change (h : Searchable names l m) {s : ListStep} (hs : ∀ n ∈ s.names, n ∈ names)
    (hchange : l.change s = some l') : Searchable names l' (m.change s) := by
  cases s with
  | insert name config state => exact h.insert hnames (hs name List.mem_cons_self) hchange
  | remove t =>
    rw [Live.change] at hchange
    split at hchange
    · cases hchange
      exact h.remove t
    · cases hchange
  | rename t name =>
    rw [Live.change] at hchange
    split at hchange
    · next ht =>
      cases hchange
      exact h.rename hnames (hs name List.mem_cons_self) ht
    · cases hchange
  | favourites favourites =>
    cases hchange
    exact h.collectFavourites hnames favourites

theorem Searchable.run (h : Searchable names l m) {steps : List ListStep} (hsteps : ∀ s ∈ steps, ∀ n ∈ s.names, n ∈ names)
    (hrun : steps.foldlM Live.change l = some l') : Searchable names l' (steps.foldl TunnelSet.change m) := by
  induction steps generalizing l m with
  | nil =>
    cases hrun
    exact h
  | cons s steps ih =>
    rw [List.foldlM_cons] at hrun
    obtain ⟨l₁, hchange, hrun⟩ := Option.bind_eq_some_iff.mp hrun
    exact ih (h.change hnames (hsteps s List.mem_cons_self) hchange)
      (fun s' hs' => hsteps s' (List.mem_cons_of_mem s hs')) hrun

end Steps

/-- Favourites come before the others. -/
theorem favourites_first {favourites : List JString} {name : ObservableTunnel → JString}
    {elems : List ObservableTunnel} (h : Sorted (comparator favourites) name elems) :
    elems.Pairwise fun t u => name u ∈ favourites → name t ∈ favourites := by
  refine (sorted_iff.mp h).imp fun {t u} hlt hu => ?_
  by_contra ht
  have hplace := compare_lt.mp hlt
  unfold place at hplace
  rw [Prod.Lex.toLex_lt_toLex] at hplace
  rw [List.contains_iff_mem.mpr hu, List.contains_eq_mem, decide_eq_false ht] at hplace
  rcases hplace with hlt | ⟨heq, -⟩
  · exact absurd hlt (by decide : ¬ true < false)
  · exact absurd heq (by decide : true ≠ false)

/-- With names that the tokens tell apart, after any steps the list has the tunnels of the set, strictly in
order with the favourites first, and a lookup finds each of them by its name and nothing else. -/
theorem run_searchable {names : Set JString} (hnames : Set.InjOn naturalSortString names) {favourites : List JString}
    {steps : List ListStep} (hsteps : ∀ s ∈ steps, ∀ n ∈ s.names, n ∈ names) {l : Live}
    (hrun : steps.foldlM Live.change (.empty favourites) = some l) :
    let m := steps.foldl TunnelSet.change (.empty favourites)
    l.tunnels.Nodup ∧ (∀ t, t ∈ l.tunnels ↔ t ∈ m.tunnels) ∧ l.comparator = comparator m.favourites ∧
      Sorted (comparator m.favourites) m.name l.tunnels ∧
      (l.tunnels.Pairwise fun t u => m.name u ∈ m.favourites → m.name t ∈ m.favourites) ∧
      ∀ n t, get? l.comparator l.world.name l.tunnels n = some t ↔ t ∈ m.tunnels ∧ m.name t = n := by
  intro m
  have h : Searchable names l m := (searchable_empty favourites).run hnames hsteps hrun
  have hcmp : l.comparator = comparator m.favourites := comparator_congr h.favourites
  have hsorted : Sorted (comparator m.favourites) m.name l.tunnels := by
    rw [← hcmp, ← h.name]
    exact h.sorted
  refine ⟨h.nodup, h.mem, hcmp, hsorted, favourites_first hsorted, fun n t => ?_⟩
  rw [← h.mem, ← h.name]
  exact get?_searchable hnames h.within h.sorted n

/-- Two tunnels; the second becomes a favourite and moves to the front, and is renamed there. -/
def sampleSteps : List ListStep :=
  [.insert (text "wg2") none .down, .insert (text "wg10") none .down, .favourites [text "wg10"],
    .rename 1 (text "home")]

def sampleNames : List JString := [text "wg2", text "wg10", text "home"]

theorem run_searchable_wg2 :
    ∃ l, sampleSteps.foldlM Live.change (.empty []) = some l ∧ l.tunnels = [1, 0] ∧
      get? l.comparator l.world.name l.tunnels (text "home") = some 1 := by
  have heval : (sampleSteps.foldlM Live.change (.empty [])).any (fun l => l.tunnels == [1, 0]) = true ∧
      (∀ a ∈ sampleNames, ∀ b ∈ sampleNames, naturalSortString a = naturalSortString b → a = b) ∧
      (∀ s ∈ sampleSteps, ∀ n ∈ s.names, n ∈ sampleNames) ∧
      1 ∈ (sampleSteps.foldl TunnelSet.change (.empty [])).tunnels ∧
      (sampleSteps.foldl TunnelSet.change (.empty [])).name 1 = text "home" := by
    decide +kernel
  obtain ⟨hany, hinj, hsteps, hmem, hname⟩ := heval
  obtain ⟨l, hl, htunnels⟩ := (Option.any_eq_true _ _).mp hany
  have hinjOn : Set.InjOn naturalSortString {n | n ∈ sampleNames} := fun a ha b hb => hinj a ha b hb
  obtain ⟨-, -, -, -, -, hget⟩ := run_searchable hinjOn hsteps hl
  exact ⟨l, hl, eq_of_beq htunnels, (hget _ _).mpr ⟨hmem, hname⟩⟩

end WgAndroid.TunnelManager
