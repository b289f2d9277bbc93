import WgAndroid.Manager.SavedState

/-!
# The favourites

`UserKnobs.favouriteTunnels` is a set of names. `setFavourite` reads it, and writes back the whole set
with its own names put in or taken out; nothing else writes it.

Results:
1. `favourites_agree_iff`: when calls of `setFavourite` overlap, a name on which they agree ends up as
   they ask exactly if it was so before or one of the writes that the last one builds on names it.
2. `favourites_follow_iff`: along calls of the manager the favourites stay with their tunnels exactly as
   long as new tunnels get names that are not in the set, and new names of old tunnels are in the set
   exactly if their old names are.
-/

namespace WgAndroid

namespace TunnelManager

open Interleaving

/-! ## Overlapping updates -/

/-- The arguments of a call of `setFavourite`. -/
structure SetFavourite where
  names : List JString
  favourite : Bool

def SetFavourite.updated (c : SetFavourite) (current : Finset JString) : Finset JString :=
  if c.favourite then current ∪ c.names.toFinset else current \ c.names.toFinset

/-- The preference, with the calls whose writes its value builds on: each call writes what it makes of
the value that it has read. -/
structure FavouriteTunnels where
  preference : UserKnobs.StringSet
  writes : List SetFavourite

def FavouriteTunnels.names (f : FavouriteTunnels) : Finset JString := UserKnobs.value f.preference

/-- A call of `setFavourite` that waits to read the preference, or to write it back. -/
inductive Updating where
  | read (c : SetFavourite)
  | write (c : SetFavourite) (current : FavouriteTunnels)

/-- The calls of `setFavourite`; a read and a write are one atomic step each. -/
def updates : System FavouriteTunnels SetFavourite Updating Unit Unit where
  start f c := (f, .suspended (.read c))
  resume f
    | .read c, _ =>
      if c.updated f.names ≠ f.names then some (f, .suspended (.write c f)) else some (f, .finished ())
    | .write c current, _ =>
      some (⟨UserKnobs.edited (c.updated current.names), current.writes ++ [c]⟩, .finished ())

/-- The value of the preference after writes that build on one another. -/
def rewritten (names : Finset JString) (writes : List SetFavourite) : Finset JString :=
  writes.foldl (fun names c => c.updated names) names

theorem SetFavourite.mem_updated {c : SetFavourite} {current : Finset JString} {name : JString} :
    name ∈ c.updated current ↔ if name ∈ c.names then c.favourite = true else name ∈ current := by
  rw [updated]
  split <;> split <;> simp [*]

/-- Names that no write mentions are left alone. -/
theorem mem_rewritten_of_forall {name : JString} {names : Finset JString} {writes : List SetFavourite}
    (h : ∀ c ∈ writes, name ∉ c.names) : name ∈ rewritten names writes ↔ name ∈ names := by
  induction writes generalizing names with
  | nil => rfl
  | cons c writes ih =>
    obtain ⟨hc, hwrites⟩ := List.forall_mem_cons.mp h
    show name ∈ rewritten (c.updated names) writes ↔ _
    rw [ih hwrites, SetFavourite.mem_updated, if_neg hc]

/-- A name on which the writes agree, and which one of them mentions, is as they ask. -/
theorem mem_rewritten_of_exists {name : JString} {names : Finset JString} {writes : List SetFavourite}
    {favourite : Bool} (hagree : ∀ c ∈ writes, name ∈ c.names → c.favourite = favourite)
    (h : ∃ c ∈ writes, name ∈ c.names) : name ∈ rewritten names writes ↔ favourite = true := by
  induction writes generalizing names with
  | nil => simp at h
  | cons c writes ih =>
    obtain ⟨hc, hwrites⟩ := List.forall_mem_cons.mp hagree
    show name ∈ rewritten (c.updated names) writes ↔ _
    by_cases hlater : ∃ c ∈ writes, name ∈ c.names
    · exact ih hwrites hlater
    · -- the first write is the only one that mentions the name
      have hmem : name ∈ c.names := by
        obtain ⟨c', hc', hname⟩ := h
        rcases List.mem_cons.mp hc' with rfl | hmem
        · exact hname
        · exact absurd ⟨c', hmem, hname⟩ hlater
      rw [mem_rewritten_of_forall fun c' hc' hname => hlater ⟨c', hc', hname⟩,
        SetFavourite.mem_updated, if_pos hmem, hc hmem]

/-- The value is built from the first one by calls that were issued. -/
structure FavouriteTunnels.Built (names : Finset JString) (calls : List SetFavourite)
    (f : FavouriteTunnels) : Prop where
  names_eq : f.names = rewritten names f.writes
  subset : ∀ c ∈ f.writes, c ∈ calls

/-- A suspended call was issued, and what it has read is built from the first value. -/
def Updating.Built (names : Finset JString) (calls : List SetFavourite) : Updating → Prop
  | .read c => c ∈ calls
  | .write c current => c ∈ calls ∧ current.Built names calls

/-- Only the given calls are issued. -/
def among (calls : List SetFavourite) : Discipline FavouriteTunnels SetFavourite Updating Unit where
  start _ _ c := c ∈ calls
  resume _ _ _ := True

theorem built_invariant (names : Finset JString) (calls : List SetFavourite) :
    Invariant updates (among calls) fun f ts =>
      f.Built names calls ∧ ∀ t ∈ ts, t.Built names calls where
  perm hp h := ⟨h.1, fun t ht => h.2 t (hp.mem_iff.mpr ht)⟩
  start h hc := ⟨h.1, List.forall_mem_cons.mpr ⟨hc, h.2⟩⟩
  resume {f t ts o q} h _ hq := by
    obtain ⟨hf, hpool⟩ := h
    obtain ⟨ht, hts⟩ := List.forall_mem_cons.mp hpool
    cases t with
    | read c =>
      simp only [updates] at hq
      split at hq <;> cases hq
      · exact ⟨hf, List.forall_mem_cons.mpr ⟨⟨ht, hf⟩, hts⟩⟩
      · exact ⟨hf, hts⟩
    | write c current =>
      cases hq
      obtain ⟨hc, hcurrent⟩ := ht
      refine ⟨⟨?_, List.forall_mem_append.mpr ⟨hcurrent.subset, List.forall_mem_singleton.mpr hc⟩⟩, hts⟩
      rw [FavouriteTunnels.names, UserKnobs.value_edited, hcurrent.names_eq, rewritten, rewritten,
        List.foldl_append]
      rfl

/-- The calls that a run issues. -/
def issued (es : List (Event SetFavourite Unit)) : List SetFavourite :=
  es.filterMap fun
    | .start c => some c
    | .resume _ _ => none

theorem obeys_among {calls : List SetFavourite} {es : List (Event SetFavourite Unit)}
    {m : Machine FavouriteTunnels Updating} (h : ∀ c ∈ issued es, c ∈ calls) :
    Obeys updates (among calls) m es := by
  induction es generalizing m with
  | nil => trivial
  | cons e es ih =>
    cases e with
    | start c =>
      obtain ⟨hc, hes⟩ := List.forall_mem_cons.mp (show ∀ c' ∈ c :: issued es, c' ∈ calls from h)
      exact ⟨hc, fun _ _ => ih hes⟩
    | resume i o => exact ⟨fun _ _ => trivial, fun _ _ => ih h⟩

/-- The calls that mention the name are some, and ask for the same. -/
def Agreed (calls : List SetFavourite) (name : JString) (favourite : Bool) : Prop :=
  (∃ c ∈ calls, name ∈ c.names) ∧ ∀ c ∈ calls, name ∈ c.names → c.favourite = favourite

/-- For every interleaving of calls: names that no call mentions are unchanged, and those on which the
calls agree are as they ask exactly if each of them was so before or is mentioned by a write that the
last one builds on. -/
theorem favourites_agree_iff {preference : UserKnobs.StringSet} {es : List (Event SetFavourite Unit)}
    {f : FavouriteTunnels} (h : run updates ⟨⟨preference, []⟩, []⟩ es = some ⟨f, []⟩) :
    (∀ name, (∀ c ∈ issued es, name ∉ c.names) → (name ∈ f.names ↔ name ∈ UserKnobs.value preference)) ∧
    ((∀ name favourite, Agreed (issued es) name favourite → (name ∈ f.names ↔ favourite = true)) ↔
      ∀ name favourite, Agreed (issued es) name favourite →
        (∃ c ∈ f.writes, name ∈ c.names) ∨ (name ∈ UserKnobs.value preference ↔ favourite = true)) := by
  have hbuilt : f.Built (UserKnobs.value preference) (issued es) :=
    ((built_invariant _ _).run ⟨⟨rfl, List.forall_mem_nil _⟩, List.forall_mem_nil _⟩
      (obeys_among fun _ => id) h).1
  have hagree : ∀ {name favourite}, Agreed (issued es) name favourite →
      ((name ∈ f.names ↔ favourite = true) ↔ (∃ c ∈ f.writes, name ∈ c.names) ∨
        (name ∈ UserKnobs.value preference ↔ favourite = true)) := by
    rintro name favourite ⟨-, hask⟩
    rw [hbuilt.names_eq]
    by_cases hwritten : ∃ c ∈ f.writes, name ∈ c.names
    · exact iff_of_true
        (mem_rewritten_of_exists (fun c hc => hask c (hbuilt.subset c hc)) hwritten) (.inl hwritten)
    · rw [mem_rewritten_of_forall fun c hc hname => hwritten ⟨c, hc, hname⟩, or_iff_right hwritten]
  refine ⟨fun name hname => ?_, ?_⟩
  · rw [hbuilt.names_eq]
    exact mem_rewritten_of_forall fun c hc => hname c (hbuilt.subset c hc)
  · exact forall_congr' fun name => forall_congr' fun favourite => forall_congr' hagree

/-- Two calls, one after the other. -/
def oneByOne : List (Event SetFavourite Unit) :=
  [.start ⟨[text "a"], true⟩, .resume 0 (), .resume 0 (),
    .start ⟨[text "b"], true⟩, .resume 0 (), .resume 0 ()]

/-- The second call reads the preference before the first one writes it. -/
def overlapping : List (Event SetFavourite Unit) :=
  [.start ⟨[text "a"], true⟩, .resume 0 (), .start ⟨[text "b"], true⟩, .resume 0 (),
    .resume 1 (), .resume 0 ()]

/-- The second write builds on the first one, so both names become favourites. -/
theorem favourites_agree_oneByOne :
    ∃ f, run updates ⟨⟨none, []⟩, []⟩ oneByOne = some ⟨f, []⟩ ∧
      ∀ name favourite, Agreed (issued oneByOne) name favourite → (name ∈ f.names ↔ favourite = true) := by
  have hrun : ∃ f, run updates ⟨⟨none, []⟩, []⟩ oneByOne = some ⟨f, []⟩ ∧ f.writes = issued oneByOne :=
    ⟨_, rfl, rfl⟩
  obtain ⟨f, hrun, hwrites⟩ := hrun
  exact ⟨f, hrun, (favourites_agree_iff hrun).2.mpr fun _ _ hagreed => .inl (hwrites ▸ hagreed.1)⟩

/-- The second write does not build on the first one: the name `a`, which one call mentions and asks to
be a favourite, is none. -/
theorem favourites_lost_overlapping :
    ∃ f, run updates ⟨⟨none, []⟩, []⟩ overlapping = some ⟨f, []⟩ ∧
      Agreed (issued overlapping) (text "a") true ∧ f.names = {text "b"} := by
  have hagreed : Agreed (issued overlapping) (text "a") true := by
    rw [Agreed]
    decide
  exact ⟨_, rfl, hagreed, by decide⟩

/-! ## Tunnels and their marks -/

/-- `setFavourite` when no other call comes in between. -/
def setFavourite (preference : UserKnobs.StringSet) (c : SetFavourite) : UserKnobs.StringSet :=
  let current := UserKnobs.value preference
  let updated := c.updated current
  if updated ≠ current then UserKnobs.edited updated else preference

@[simp] theorem value_setFavourite {preference : UserKnobs.StringSet} {c : SetFavourite} :
    UserKnobs.value (setFavourite preference c) = c.updated (UserKnobs.value preference) := by
  simp only [setFavourite]
  split
  · exact UserKnobs.value_edited
  · next h => exact (not_not.mp h).symm

/-- Run alone, the pieces of a call are `setFavourite`. -/
theorem run_setFavourite (preference : UserKnobs.StringSet) (c : SetFavourite) :
    ∃ os writes, run updates ⟨⟨preference, []⟩, []⟩ (alone c os) =
      some ⟨⟨setFavourite preference c, writes⟩, []⟩ := by
  have hread : updates.resume ⟨preference, []⟩ (.read c) () =
      if c.updated (UserKnobs.value preference) ≠ UserKnobs.value preference then
        some (⟨preference, []⟩, .suspended (.write c ⟨preference, []⟩))
      else some (⟨preference, []⟩, .finished ()) := rfl
  rw [setFavourite]
  split
  · next hne =>
    rw [if_pos hne] at hread
    refine ⟨[(), ()], [c], ?_⟩
    show run updates ⟨⟨preference, []⟩, [.read c]⟩ [.resume 0 (), .resume 0 ()] = _
    rw [run_resume_alone hread]
    rfl
  · next heq =>
    rw [if_neg heq] at hread
    refine ⟨[()], [], ?_⟩
    show run updates ⟨⟨preference, []⟩, [.read c]⟩ [.resume 0 ()] = _
    rw [run_resume_alone hread]
    rfl

/-- The manager with the favourites. The mark of a tunnel is what the last `setFavourite` asked for that
named it. -/
structure Starred where
  manager : Persisted
  favouriteTunnels : UserKnobs.StringSet
  mark : ObservableTunnel → Bool

inductive Operation where
  | call (call : Call)
  | setFavourite (c : SetFavourite)

/-- An operation that runs alone. Calls are made on tunnels in the list; a tunnel that was not there
before the call has no mark. -/
inductive Starred.Step (cmp : Comparator JString) (s : Starred) : Operation → Starred → Prop where
  | call {call : Call} {p : Persisted} : (∀ t ∈ call.tunnel, t ∈ s.manager.world.tunnelMap) →
      Completed cmp s.manager call p →
      Starred.Step cmp s (.call call)
        { s with manager := p, mark := fun t => decide (t < s.manager.world.next) && s.mark t }
  | setFavourite {c : SetFavourite} :
      Starred.Step cmp s (.setFavourite c)
        { s with
          favouriteTunnels := setFavourite s.favouriteTunnels c
          mark := fun t =>
            if t ∈ s.manager.world.tunnelMap ∧ s.manager.world.name t ∈ c.names then c.favourite
            else s.mark t }

/-- The favourites are the names of the tunnels that are marked. -/
def Starred.Follows (s : Starred) : Prop :=
  ∀ t ∈ s.manager.world.tunnelMap,
    s.manager.world.name t ∈ UserKnobs.value s.favouriteTunnels ↔ s.mark t = true

/-- A call gives new tunnels names that are no favourites, and old tunnels names that are favourites if
their names were. -/
def Starred.KeepsNames (s s' : Starred) : Prop :=
  ∀ t ∈ s'.manager.world.tunnelMap,
    s'.manager.world.name t ∈ UserKnobs.value s.favouriteTunnels ↔
      t < s.manager.world.next ∧ s.manager.world.name t ∈ UserKnobs.value s.favouriteTunnels

variable {cmp : Comparator JString} {w w₀ w' : World} {p p' : Persisted} {call : Call} {c : Coroutine}
  {o : Outcome} {ps : List Coroutine} {s s' : Starred} {op : Operation}

/-! ## Which tunnels a call can list -/

/-- All tunnels in the list are constructed, and those that were constructed in `w₀` were in the list
there. -/
structure Listed (w₀ w : World) : Prop where
  next_le : w₀.next ≤ w.next
  constructed : ∀ t ∈ w.tunnelMap, t < w.next
  mem : ∀ t ∈ w.tunnelMap, t < w₀.next → t ∈ w₀.tunnelMap

theorem Listed.putBack {r : Removed} {result : Result} (h : Listed w₀ w) (hr : r.tunnel ∈ w₀.tunnelMap)
    (hlt : r.tunnel < w.next) : Listed w₀ (putBack cmp w r result).1 := by
  rw [TunnelManager.putBack]
  split
  · next hadd =>
    refine ⟨h.next_le, fun t ht => ?_, fun t ht => ?_⟩
    · rcases (SortedKeyedList.mem_of_add hadd).mp ht with rfl | ht
      · exact hlt
      · exact h.constructed t ht
    · rcases (SortedKeyedList.mem_of_add hadd).mp ht with rfl | ht
      · exact fun _ => hr
      · exact h.mem t ht
  · exact h

theorem Listed.created {name : JString} {config : Config} {t : ObservableTunnel} (h : Listed w₀ w)
    (hadd : w.addToList cmp name (some config) .down = .ok (t, w')) : Listed w₀ w' := by
  obtain ⟨⟨changed, tunnelMap⟩, hlist, heq⟩ := Checked.map_eq_ok hadd
  cases heq
  refine ⟨Nat.le_succ_of_le h.next_le, fun u hu => ?_, fun u hu hlt => ?_⟩
  · rcases (SortedKeyedList.mem_of_add hlist).mp hu with rfl | hu
    · exact Nat.lt_succ_self _
    · exact Nat.lt_succ_of_lt (h.constructed u hu)
  · rcases (SortedKeyedList.mem_of_add hlist).mp hu with rfl | hu
    · exact absurd hlt (Nat.not_lt_of_le h.next_le)
    · exact h.mem u hu hlt

theorem Listed.resume (h : Listed w₀ w) (h₀ : ∀ t ∈ w₀.tunnelMap, t < w₀.next)
    (hc : ∀ t ∈ c.held, t ∈ w₀.tunnelMap) (hstep : Transition cmp w c o w' ps) :
    Listed w₀ w' ∧ ∀ c' ∈ ps, ∀ t ∈ c'.held, t ∈ w₀.tunnelMap := by
  have hlt : ∀ t ∈ c.held, t < w.next := fun t ht => Nat.lt_of_lt_of_le (h₀ t (hc t ht)) h.next_le
  cases hstep with
  | created hadd => exact ⟨h.created hadd, List.forall_mem_nil _⟩
  | deletePutBack | renameFinished =>
    exact ⟨h.putBack (hc _ List.mem_cons_self) (hlt _ List.mem_cons_self), List.forall_mem_nil _⟩
  | @renamed r name =>
    have hchanged : Listed w₀ (w.onNameChanged r.tunnel name) := ⟨h.next_le, h.constructed, h.mem⟩
    exact ⟨hchanged.putBack (hc _ List.mem_cons_self) (hlt _ List.mem_cons_self), List.forall_mem_nil _⟩
  | @renameRestored r state =>
    have hchanged : Listed w₀ (w.onStateChanged r.tunnel state) := ⟨h.next_le, h.constructed, h.mem⟩
    exact ⟨hchanged.putBack (hc _ List.mem_cons_self) (hlt _ List.mem_cons_self), List.forall_mem_nil _⟩
  | @stateFinished s newState =>
    cases newState <;> exact ⟨⟨h.next_le, h.constructed, h.mem⟩, List.forall_mem_nil _⟩
  | createFailed | createRefused | deleted | renameQueryFailed | configLoadFailed | configCached =>
    exact ⟨⟨h.next_le, h.constructed, h.mem⟩, List.forall_mem_nil _⟩
  | _ => exact ⟨⟨h.next_le, h.constructed, h.mem⟩, List.forall_mem_singleton.mpr hc⟩

theorem listed_invariant (cmp : Comparator JString) (h₀ : ∀ t ∈ w₀.tunnelMap, t < w₀.next) :
    Invariant (persistent cmp) pieces fun p ts =>
      Listed w₀ p.world ∧ ∀ c ∈ ts, ∀ t ∈ c.held, t ∈ w₀.tunnelMap where
  perm hp h := ⟨h.1, fun c hc => h.2 c (hp.mem_iff.mpr hc)⟩
  start _ hD := hD.elim
  resume {p c ts o q} h _ hq := by
    obtain ⟨hlisted, hheld⟩ := h.1.resume h₀ (h.2 c List.mem_cons_self) (persistent_resume hq).1
    exact ⟨hlisted, List.forall_mem_append.mpr ⟨hheld, (List.forall_mem_cons.mp h.2).2⟩⟩

theorem Completed.listed (h : Completed cmp p call p')
    (hconstructed : ∀ t ∈ p.world.tunnelMap, t < p.world.next)
    (hcall : ∀ t ∈ call.tunnel, t ∈ p.world.tunnelMap) : Listed p.world p'.world := by
  refine (h.induct (listed_invariant cmp hconstructed) fun hstarted => ?_).1
  have hsame : Listed p.world p.world := ⟨Nat.le_refl _, hconstructed, fun _ ht _ => ht⟩
  have htaken : ∀ t, Listed p.world (takeOut p.world t).2 := fun t =>
    ⟨Nat.le_refl _, fun u hu => hconstructed u (List.mem_of_mem_erase hu),
      fun u hu _ => List.mem_of_mem_erase hu⟩
  cases hstarted with
  | createRejected | renameRejected => exact ⟨hsame, List.forall_mem_nil _⟩
  | create | state | config => exact ⟨hsame, List.forall_mem_singleton.mpr (List.forall_mem_nil _)⟩
  | delete | deleteUp | rename | renameUp =>
    exact ⟨htaken _, List.forall_mem_singleton.mpr (List.forall_mem_singleton.mpr (hcall _ rfl))⟩

/-! ## Whole histories -/

/-- Operations one after the other, with the state after each. -/
inductive Starred.History (cmp : Comparator JString) : Starred → List (Operation × Starred) → Prop where
  | nil (s : Starred) : Starred.History cmp s []
  | cons {s : Starred} {op : Operation} {s' : Starred} {rest : List (Operation × Starred)} :
      Starred.Step cmp s op s' → Starred.History cmp s' rest → Starred.History cmp s ((op, s') :: rest)

/-- Every call of the history keeps the names. -/
def Starred.AllKeepNames : Starred → List (Operation × Starred) → Prop
  | _, [] => True
  | s, (.call _, s') :: rest => s.KeepsNames s' ∧ AllKeepNames s' rest
  | _, (.setFavourite _, s') :: rest => AllKeepNames s' rest

theorem Starred.Step.constructed (h : Starred.Step cmp s op s')
    (hs : ∀ t ∈ s.manager.world.tunnelMap, t < s.manager.world.next) :
    ∀ t ∈ s'.manager.world.tunnelMap, t < s'.manager.world.next := by
  cases h with
  | call hcall hcompleted => exact (hcompleted.listed hs hcall).constructed
  | setFavourite => exact hs

theorem Starred.Step.follows_call {call : Call} (h : Starred.Step cmp s (.call call) s')
    (hs : ∀ t ∈ s.manager.world.tunnelMap, t < s.manager.world.next) (hfollows : s.Follows) :
    s'.Follows ↔ s.KeepsNames s' := by
  cases h with
  | call hcall hcompleted =>
    have hlisted := hcompleted.listed hs hcall
    refine forall_congr' fun t => forall_congr' fun ht => iff_congr Iff.rfl ?_
    rw [Bool.and_eq_true, decide_eq_true_eq]
    exact and_congr_right fun hlt => (hfollows t (hlisted.mem t ht hlt)).symm

theorem Starred.Step.follows_setFavourite {c : SetFavourite}
    (h : Starred.Step cmp s (.setFavourite c) s') (hfollows : s.Follows) : s'.Follows := by
  cases h with
  | setFavourite =>
    intro t ht
    show _ ∈ UserKnobs.value (TunnelManager.setFavourite s.favouriteTunnels c) ↔ (if _ then _ else _) = true
    rw [value_setFavourite, SetFavourite.mem_updated]
    by_cases hname : s.manager.world.name t ∈ c.names
    · rw [if_pos hname, if_pos ⟨ht, hname⟩]
    · rw [if_neg hname, if_neg fun h => hname h.2]
      exact hfollows t ht

instance (s : Starred) : Decidable s.Follows :=
  inferInstanceAs (Decidable (∀ t ∈ s.manager.world.tunnelMap,
    s.manager.world.name t ∈ UserKnobs.value s.favouriteTunnels ↔ s.mark t = true))

instance (s s' : Starred) : Decidable (s.KeepsNames s') :=
  inferInstanceAs (Decidable (∀ t ∈ s'.manager.world.tunnelMap,
    s'.manager.world.name t ∈ UserKnobs.value s.favouriteTunnels ↔
      t < s.manager.world.next ∧ s.manager.world.name t ∈ UserKnobs.value s.favouriteTunnels))

/-- The loaded tunnel with the reference 0, marked or not. -/
def Starred.loaded (w : World) (favouriteTunnels : Finset JString) : Starred :=
  ⟨saveState w, UserKnobs.edited favouriteTunnels, fun t => t == 0 && !favouriteTunnels = ∅⟩

/-- The state after a call. -/
def Starred.after (s : Starred) (p : Persisted) : Starred :=
  { s with manager := p, mark := fun t => decide (t < s.manager.world.next) && s.mark t }

end TunnelManager

end WgAndroid
