import Mathlib.Data.Finset.Basic
import Mathlib.Data.List.AList
import WgAndroid.Backend.Tunnel
import WgAndroid.Lib.Routine

/-!
# The kernel backend

`WgQuickBackend`: any number of tunnels, or one at a time, started and stopped by `wg-quick` in a root
shell. What runs is known twice: the kernel knows the interfaces that are up, and the backend keeps
the configs that it started in `runningConfigs`, which does not outlive the process. How each command
ends is an outcome that the code is given.

Results:
1. `setState_coherent`: a call keeps the two views in agreement, however it ends.
2. `setState_rolls_back`: what a call leaves, when it returns and when it throws.
3. `only_interface_up`: in single-tunnel mode, when a start leaves one interface.
4. `setState_down_iff`: when a tunnel that is up can be taken down without a config.
-/

namespace WgAndroid.WgQuickBackend

open Routine

/-! ## State -/

/-- The fields of the backend, and the names of the interfaces that the kernel has up. Tunnels and
configs are references, and are compared as such. -/
structure World (T C : Type) where
  runningConfigs : AList fun _ : T => C
  multipleTunnels : Bool
  up : Finset JString
  reports : List (T × TunnelState)

/-- Nothing is up, and the backend is new. -/
def World.boot {T C : Type} : World T C := ⟨∅, false, ∅, []⟩

/-- `Map.Entry<Tunnel, Config>` -/
abbrev Entry (T C : Type) := Sigma fun _ : T => C

/-- How the commands of one call end: with `none`, or with an exception and without an effect. The
exit code of `wg-quick` is in the exception. -/
structure Outcomes (T C : Type) where
  /-- `wg show interfaces` gives the interfaces. -/
  shows : Bool
  /-- The order in which the `HashMap` is iterated over. -/
  iteration : (m : AList fun _ : T => C) → { entries : List (Entry T C) // entries.Perm m.entries }
  tools : Option BackendException
  /-- `wg-quick down` of a tunnel that has to make way -/
  takeDown : T → Option BackendException
  /-- `wg-quick up` of it, after another one could not be taken down -/
  rewind : T → Option BackendException
  /-- `wg-quick down` of the tunnel of the call -/
  stop : Option BackendException
  /-- `wg-quick up` of the tunnel of the call -/
  start : Option BackendException
  /-- `wg-quick up` of what ran before, after the start failed -/
  restore : T → Option BackendException

/-! ## Code -/

section Code

variable {T C : Type} [DecidableEq T] [DecidableEq C] (name : T ↪ JString)

/-- A step of the backend. -/
abbrev Step (T C α : Type) := Routine (World T C) BackendException α

/-- The effect of `wg-quick` on the kernel, and of `setStateInternal` on the map. -/
def switch (w : World T C) (tunnel : T) (config : C) (state : TunnelState) : World T C :=
  if state = .up then
    { w with
      runningConfigs := w.runningConfigs.insert tunnel config
      up := insert (name tunnel) w.up
      reports := (tunnel, state) :: w.reports }
  else
    { w with
      runningConfigs := w.runningConfigs.erase tunnel
      up := w.up.erase (name tunnel)
      reports := (tunnel, state) :: w.reports }

/-- `setStateInternal`, whose command ends with `failure`. -/
def setStateInternal (failure : Option BackendException) (tunnel : T) (config : Option C)
    (state : TunnelState) : Step T C Unit :=
  match config, failure with
  -- `Objects.requireNonNull`
  | none, _ => throw .platform
  | some _, some e => throw e
  | some config, none => modify fun w => switch name w tunnel config state

def getRunningTunnelNames (o : Outcomes T C) (w : World T C) : Finset JString :=
  if o.shows then w.up else ∅

def getState (o : Outcomes T C) (w : World T C) (tunnel : T) : TunnelState :=
  if name tunnel ∈ getRunningTunnelNames o w then .up else .down

/-- What `setState` reads before it does anything. -/
structure Original (T C : Type) where
  state : TunnelState
  config : Option C
  /-- `runningConfigsSnapshot.entrySet()` -/
  snapshot : List (Entry T C)
  multipleTunnels : Bool

def original (o : Outcomes T C) (w : World T C) (tunnel : T) : Original T C :=
  ⟨getState name o w tunnel, w.runningConfigs.lookup tunnel, (o.iteration w.runningConfigs).1,
    w.multipleTunnels⟩

/-- `!multipleTunnels && originalState == State.DOWN` -/
def Original.makesWay (orig : Original T C) : Bool := !orig.multipleTunnels && orig.state == .down

/-- `catch (final Exception ignored)` -/
def ignoring (a : Step T C Unit) : Step T C Unit := tryCatch a fun _ => pure ()

def startAll (failure : T → Option BackendException) (entries : List (Entry T C)) : Step T C Unit :=
  entries.forM fun e => setStateInternal name (failure e.1) e.1 (some e.2) .up

/-- The loop over the snapshot, with the entries that it has to rewind. -/
def takeDownAll (o : Outcomes T C) (rewind : List (Entry T C)) : List (Entry T C) → Step T C Unit
  | [] => pure ()
  | e :: entries => do
    tryCatch (setStateInternal name (o.takeDown e.1) e.1 (some e.2) .down) fun ex => do
      ignoring (startAll name o.rewind rewind)
      throw ex
    takeDownAll o (rewind ++ [e]) entries

def ensureToolsAvailable (o : Outcomes T C) : Step T C Unit :=
  match o.tools with
  | none => pure ()
  | some e => throw e

def takeDownOthers (o : Outcomes T C) (orig : Original T C) : Step T C Unit :=
  if orig.makesWay then takeDownAll name o [] orig.snapshot else pure ()

def takeDownOld (o : Outcomes T C) (orig : Original T C) (tunnel : T) (config : Option C) :
    Step T C Unit :=
  if orig.state = .up then setStateInternal name o.stop tunnel (orig.config.or config) .down
  else pure ()

def restoreOld (o : Outcomes T C) (orig : Original T C) (tunnel : T) : Step T C Unit :=
  if orig.state = .up ∧ orig.config.isSome then
    setStateInternal name (o.restore tunnel) tunnel orig.config .up
  else pure ()

def restoreOthers (o : Outcomes T C) (orig : Original T C) : Step T C Unit :=
  if orig.makesWay then startAll name o.restore orig.snapshot else pure ()

/-- `setStateInternal(tunnel, config, UP)` in its `try` -/
def start (o : Outcomes T C) (orig : Original T C) (tunnel : T) (config : Option C) : Step T C Unit :=
  tryCatch (setStateInternal name o.start tunnel config .up) fun e => do
    ignoring do
      restoreOld name o orig tunnel
      restoreOthers name o orig
    throw e

/-- `setState` with target `UP` -/
def setUp (o : Outcomes T C) (orig : Original T C) (tunnel : T) (config : Option C) : Step T C Unit := do
  ensureToolsAvailable o
  takeDownOthers name o orig
  takeDownOld name o orig tunnel config
  start name o orig tunnel config

/-- `TOGGLE` stands for the opposite of the state that the tunnel is in. -/
def target (originalState : TunnelState) : TunnelState → TunnelState
  | .toggle => if originalState = .up then .down else .up
  | state => state

/-- The call has nothing to do. -/
def unchanged (orig : Original T C) (state : TunnelState) (config : Option C) : Bool :=
  (state == .up && orig.state == .up && orig.config.isSome && orig.config == config) ||
    (state == .down && orig.state == .down)

def applyState (o : Outcomes T C) (orig : Original T C) (tunnel : T) (state : TunnelState)
    (config : Option C) : Step T C Unit :=
  if state = .up then setUp name o orig tunnel config
  else if state = .down then setStateInternal name o.stop tunnel (orig.config.or config) .down
  else pure ()

/-- `setState` once `TOGGLE` is resolved -/
def setStateFrom (o : Outcomes T C) (orig : Original T C) (tunnel : T) (state : TunnelState)
    (config : Option C) : Step T C TunnelState :=
  if unchanged orig state config then pure orig.state
  else do
    applyState name o orig tunnel state config
    pure state

def setState (o : Outcomes T C) (tunnel : T) (state : TunnelState) (config : Option C) :
    Step T C TunnelState := do
  let w ← get
  setStateFrom name o (original name o w tunnel) tunnel (target (getState name o w tunnel) state) config

/-- The app process starts anew. The interfaces stay up. -/
def restart (w : World T C) : World T C := { w with runningConfigs := ∅, multipleTunnels := false }

end Code

/-! ## Single steps -/

variable {T C : Type} [DecidableEq T] [DecidableEq C] {name : T ↪ JString} {w w₀ w' : World T C}
  {o : Outcomes T C} {orig : Original T C} {tunnel : T} {config : Option C} {state : TunnelState}
  {P : World T C → Prop}

section Switch

omit [DecidableEq C]

theorem switch_up (w : World T C) (tunnel : T) (config : C) :
    switch name w tunnel config .up =
      ⟨w.runningConfigs.insert tunnel config, w.multipleTunnels, insert (name tunnel) w.up,
        (tunnel, .up) :: w.reports⟩ := if_pos rfl

theorem switch_of_ne_up (w : World T C) (tunnel : T) (config : C) (hstate : state ≠ .up) :
    switch name w tunnel config state =
      ⟨w.runningConfigs.erase tunnel, w.multipleTunnels, w.up.erase (name tunnel),
        (tunnel, state) :: w.reports⟩ := if_neg hstate

theorem switch_down (w : World T C) (tunnel : T) (config : C) :
    switch name w tunnel config .down =
      ⟨w.runningConfigs.erase tunnel, w.multipleTunnels, w.up.erase (name tunnel),
        (tunnel, .down) :: w.reports⟩ := switch_of_ne_up w tunnel config nofun

theorem switch_multipleTunnels (w : World T C) (tunnel : T) (config : C) (state : TunnelState) :
    (switch name w tunnel config state).multipleTunnels = w.multipleTunnels := by
  unfold switch
  split
  · rfl
  · rfl

theorem mem_runningConfigs_switch {t : T} {c : C} : t ∈ (switch name w tunnel c state).runningConfigs ↔
    if t = tunnel then state = .up else t ∈ w.runningConfigs := by
  by_cases hstate : state = .up
  · subst hstate
    rw [switch_up, AList.mem_insert]
    split <;> simp [*]
  · rw [switch_of_ne_up _ _ _ hstate, AList.mem_erase]
    split <;> simp [*]

theorem mem_up_switch {t : T} {c : C} : name t ∈ (switch name w tunnel c state).up ↔
    if t = tunnel then state = .up else name t ∈ w.up := by
  by_cases hstate : state = .up
  · subst hstate
    rw [switch_up, Finset.mem_insert, name.injective.eq_iff]
    split <;> simp [*]
  · rw [switch_of_ne_up _ _ _ hstate, Finset.mem_erase, name.injective.ne_iff]
    split <;> simp [*]

theorem up_switch_subset {c : C} {U : Finset JString} (hU : w.up ⊆ U) (hstart : state = .up → name tunnel ∈ U) :
    (switch name w tunnel c state).up ⊆ U := by
  by_cases hstate : state = .up
  · subst hstate
    rw [switch_up]
    exact Finset.insert_subset (hstart rfl) hU
  · rw [switch_of_ne_up _ _ _ hstate]
    exact (Finset.erase_subset _ _).trans hU

/-- The rule of `setStateInternal`: it has its effect, or fails without one. -/
theorem setStateInternal_triple {failure : Option BackendException} {Q : Unit → World T C → Prop}
    {E : BackendException → World T C → Prop}
    (hok : ∀ w c, P w → config = some c → Q () (switch name w tunnel c state))
    (hfail : ∀ e w, P w → (failure = none → config = none) → E e w) :
    Triple P (setStateInternal name failure tunnel config state) Q E := by
  unfold setStateInternal
  split
  · exact Triple.throw fun w hw => hfail _ w hw fun _ => rfl
  · exact Triple.throw fun w hw => hfail _ w hw nofun
  · exact Triple.modify fun w hw => hok w _ hw rfl

theorem setStateInternal_keeps {failure : Option BackendException}
    (h : ∀ w c, P w → config = some c → P (switch name w tunnel c state)) :
    Keeps P (setStateInternal name failure tunnel config state) :=
  setStateInternal_triple h fun _ _ hw _ => hw

omit [DecidableEq T] in
theorem ignoring_keeps {a : Step T C Unit} (h : Keeps P a) : Keeps P (ignoring a) :=
  Triple.tryCatch h fun _ => Keeps.pure

end Switch

/-! ## What a call keeps -/

section Keeps

omit [DecidableEq C]

/-- Starting any of the entries and stopping any tunnel keeps `P`. -/
structure Stable (name : T ↪ JString) (P : World T C → Prop) (entries : List (Entry T C)) : Prop where
  start : ∀ w, ∀ e ∈ entries, P w → P (switch name w e.1 e.2 .up)
  stop : ∀ w tunnel config, P w → P (switch name w tunnel config .down)

variable {entries rewind : List (Entry T C)}

theorem startAll_keeps {failure : T → Option BackendException} (h : Stable name P entries) :
    Keeps P (startAll name failure entries) := by
  induction entries with
  | nil => exact Keeps.pure
  | cons e entries ih =>
    refine Triple.bind (setStateInternal_keeps ?_) fun _ => ?_
    · rintro w c hw ⟨⟩
      exact h.start w e List.mem_cons_self hw
    · exact ih ⟨fun w e' he' => h.start w e' (List.mem_cons_of_mem e he'), h.stop⟩

theorem takeDownAll_keeps (h : Stable name P (rewind ++ entries)) :
    Keeps P (takeDownAll name o rewind entries) := by
  induction entries generalizing rewind with
  | nil => exact Keeps.pure
  | cons e entries ih =>
    refine Triple.bind (Q := fun _ => P) (Triple.tryCatch (setStateInternal_keeps ?_) fun ex => ?_) fun _ => ?_
    · exact fun w c hw _ => h.stop w e.1 c hw
    · refine Triple.bind (ignoring_keeps (startAll_keeps ⟨?_, h.stop⟩)) fun _ => Keeps.throw
      exact fun w e' he' => h.start w e' (List.mem_append_left _ he')
    · exact ih (by rwa [List.append_assoc])

omit [DecidableEq T] in
theorem ensureToolsAvailable_keeps : Keeps P (ensureToolsAvailable o) := by
  unfold ensureToolsAvailable
  split
  · exact Keeps.pure
  · exact Keeps.throw

theorem takeDownOthers_keeps (h : Stable name P orig.snapshot) : Keeps P (takeDownOthers name o orig) :=
  Triple.ite (fun _ => takeDownAll_keeps h) fun _ => Keeps.pure

theorem takeDownOld_keeps (h : Stable name P orig.snapshot) :
    Keeps P (takeDownOld name o orig tunnel config) :=
  Triple.ite (fun _ => setStateInternal_keeps fun w c hw _ => h.stop w tunnel c hw) fun _ => Keeps.pure

theorem restore_keeps (h : Stable name P orig.snapshot)
    (hold : ∀ w c, orig.state = .up → P w → P (switch name w tunnel c .up)) :
    Keeps P (restoreOld name o orig tunnel >>= fun _ => restoreOthers name o orig) := by
  refine Triple.bind (Q := fun _ => P) (Triple.ite (fun hup => ?_) fun _ => Keeps.pure) fun _ => ?_
  · exact setStateInternal_keeps fun w c hw _ => hold w c hup.1 hw
  · exact Triple.ite (fun _ => startAll_keeps h) fun _ => Keeps.pure

/-- Only the start of the tunnel itself may leave something else than `P`. -/
theorem setUp_triple {Q : Unit → World T C → Prop} (h : Stable name P orig.snapshot)
    (hold : ∀ w c, orig.state = .up → P w → P (switch name w tunnel c .up))
    (hstart : ∀ w c, P w → config = some c → Q () (switch name w tunnel c .up)) :
    Triple P (setUp name o orig tunnel config) Q fun _ => P := by
  refine Triple.bind ensureToolsAvailable_keeps fun _ => Triple.bind (takeDownOthers_keeps h) fun _ => ?_
  refine Triple.bind (takeDownOld_keeps h) fun _ => ?_
  refine Triple.tryCatch (setStateInternal_triple hstart fun _ _ hw _ => hw) fun e => ?_
  exact Triple.bind (ignoring_keeps (restore_keeps h hold)) fun _ => Triple.throw fun _ => id

end Keeps

/-- What every switch keeps, every call keeps. -/
theorem setState_keeps (h : ∀ w tunnel config state, P w → P (switch name w tunnel config state)) :
    Keeps P (setState name o tunnel state config) := by
  refine Triple.read fun w₀ _ => Triple.ite (fun _ => Keeps.pure) fun _ => ?_
  refine Triple.bind (Q := fun _ => P) ?_ fun _ => Keeps.pure
  refine Triple.ite (fun _ => setUp_triple ⟨?_, ?_⟩ ?_ ?_) fun _ => Triple.ite (fun _ => ?_) fun _ => Keeps.pure
  · exact fun w e _ => h w e.1 e.2 .up
  · exact fun w t c => h w t c .down
  · exact fun w c _ => h w tunnel c .up
  · exact fun w c hw _ => h w tunnel c .up hw
  · exact setStateInternal_keeps fun w c hw _ => h w tunnel c .down hw

/-- The two views agree: the keys of `runningConfigs` are the tunnels whose interface is up. -/
def Coherent (name : T ↪ JString) (w : World T C) : Prop :=
  ∀ t, t ∈ w.runningConfigs ↔ name t ∈ w.up

omit [DecidableEq C] in
theorem switch_coherent {c : C} (h : Coherent name w) : Coherent name (switch name w tunnel c state) := by
  intro t
  rw [mem_runningConfigs_switch, mem_up_switch, h t]

theorem setState_coherent : Keeps (Coherent name) (setState name o tunnel state config) :=
  setState_keeps fun _ _ _ _ => switch_coherent

/-! ## Rolling back -/

section Tunnels

variable {T C : Type} {entries : List (Entry T C)}

/-- The tunnels of some entries. -/
def tunnels (entries : List (Entry T C)) : Set T := {t | t ∈ entries.map Sigma.fst}

@[simp] theorem tunnels_nil : tunnels ([] : List (Entry T C)) = ∅ := by
  ext t
  simp [tunnels]

@[simp] theorem tunnels_cons {e : Entry T C} : tunnels (e :: entries) = insert e.1 (tunnels entries) := by
  ext t
  simp [tunnels]

@[simp] theorem tunnels_concat {e : Entry T C} :
    tunnels (entries ++ [e]) = insert e.1 (tunnels entries) := by
  ext t
  simp [tunnels, or_comm]

end Tunnels

/-- The tunnels of `S` are down and forgotten; everything else is as in `w₀`. -/
structure Without (name : T ↪ JString) (w₀ : World T C) (S : Set T) (w : World T C) : Prop where
  lookup_of_mem : ∀ t ∈ S, w.runningConfigs.lookup t = none
  lookup_of_notMem : ∀ t, t ∉ S → w.runningConfigs.lookup t = w₀.runningConfigs.lookup t
  mem_up : ∀ n, n ∈ w.up ↔ n ∈ w₀.up ∧ ∀ t ∈ S, name t ≠ n

section Rollback

omit [DecidableEq C]

variable {S : Set T} {c : C}

theorem Without.refl : Without name w₀ ∅ w₀ :=
  ⟨fun _ => False.elim, fun _ _ => rfl, fun _ => ⟨fun h => ⟨h, fun _ => False.elim⟩, And.left⟩⟩

theorem Without.up_eq (h : Without name w₀ ∅ w) : w.up = w₀.up :=
  Finset.ext fun n => (h.mem_up n).trans (and_iff_left fun _ => False.elim)

theorem Without.lookup_eq (h : Without name w₀ ∅ w) (t : T) :
    w.runningConfigs.lookup t = w₀.runningConfigs.lookup t := h.lookup_of_notMem t id

theorem Without.stop (h : Without name w₀ S w) :
    Without name w₀ (insert tunnel S) (switch name w tunnel c .down) := by
  rw [switch_down]
  refine ⟨fun t ht => ?_, fun t ht => ?_, fun n => ?_⟩
  · by_cases heq : t = tunnel
    · exact heq ▸ AList.lookup_erase tunnel _
    · exact (AList.lookup_erase_ne heq).trans (h.lookup_of_mem t (ht.resolve_left heq))
  · rw [Set.mem_insert_iff, not_or] at ht
    exact (AList.lookup_erase_ne ht.1).trans (h.lookup_of_notMem t ht.2)
  · rw [Finset.mem_erase, h.mem_up n, Set.forall_mem_insert]
    exact ⟨fun ⟨hne, hup, hS⟩ => ⟨hup, hne.symm, hS⟩, fun ⟨hup, hne, hS⟩ => ⟨hne.symm, hup, hS⟩⟩

theorem Without.start (h : Without name w₀ (insert tunnel S) w) (hS : tunnel ∉ S)
    (hc : w₀.runningConfigs.lookup tunnel = some c) (hup : name tunnel ∈ w₀.up) :
    Without name w₀ S (switch name w tunnel c .up) := by
  rw [switch_up]
  refine ⟨fun t ht => ?_, fun t ht => ?_, fun n => ?_⟩
  · have hne : t ≠ tunnel := fun heq => hS (heq ▸ ht)
    exact (AList.lookup_insert_ne hne).trans (h.lookup_of_mem t (.inr ht))
  · by_cases heq : t = tunnel
    · subst heq
      exact (AList.lookup_insert _).trans hc.symm
    · refine (AList.lookup_insert_ne heq).trans (h.lookup_of_notMem t ?_)
      exact fun hmem => hmem.elim heq ht
  · rw [Finset.mem_insert, h.mem_up n, Set.forall_mem_insert]
    constructor
    · rintro (rfl | ⟨hn, -, hrest⟩)
      · exact ⟨hup, fun t ht heq => hS (name.injective heq ▸ ht)⟩
      · exact ⟨hn, hrest⟩
    · rintro ⟨hn, hrest⟩
      by_cases heq : name tunnel = n
      · exact .inl heq.symm
      · exact .inr ⟨hn, heq, hrest⟩

/-- The entries of a snapshot: distinct tunnels with the configs that they run with. -/
structure Recorded (w₀ : World T C) (entries : List (Entry T C)) : Prop where
  nodup : (entries.map Sigma.fst).Nodup
  lookup_eq : ∀ e ∈ entries, w₀.runningConfigs.lookup e.1 = some e.2

theorem recorded_snapshot : Recorded w₀ (o.iteration w₀.runningConfigs).1 := by
  have hperm := (o.iteration w₀.runningConfigs).2
  refine ⟨(hperm.map Sigma.fst).nodup_iff.mpr w₀.runningConfigs.keys_nodup, fun e he => ?_⟩
  exact AList.mem_lookup_iff.mpr (hperm.mem_iff.mp he)

variable {entries rewind : List (Entry T C)}

/-- Every compensating `wg-quick up` succeeds, and the two views agreed. -/
structure Recovers (name : T ↪ JString) (o : Outcomes T C) (w₀ : World T C) : Prop where
  coherent : Coherent name w₀
  rewind : ∀ t ∈ w₀.runningConfigs, o.rewind t = none
  restore : ∀ t ∈ w₀.runningConfigs, o.restore t = none

theorem mem_of_lookup {c : C} (h : w₀.runningConfigs.lookup tunnel = some c) :
    tunnel ∈ w₀.runningConfigs := AList.lookup_isSome.mp (h ▸ rfl)

theorem Recorded.tail {e : Entry T C} (h : Recorded w₀ (e :: entries)) : Recorded w₀ entries :=
  ⟨(List.nodup_cons.mp h.nodup).2, fun e' he' => h.lookup_eq e' (List.mem_cons_of_mem e he')⟩

/-- All entries are started again, in their order. -/
theorem startAll_restores {failure : T → Option BackendException} (hw₀ : Coherent name w₀)
    (hentries : Recorded w₀ entries) (hfailure : ∀ t ∈ w₀.runningConfigs, failure t = none) :
    Triple (Without name w₀ (tunnels entries)) (startAll name failure entries)
      (fun _ => Without name w₀ ∅) fun _ _ => False := by
  induction entries with
  | nil => exact Triple.pure fun w hw => tunnels_nil ▸ hw
  | cons e entries ih =>
    have hlookup := hentries.lookup_eq e List.mem_cons_self
    refine Triple.bind (setStateInternal_triple ?_ ?_) fun _ => ih hentries.tail
    · rintro w c hw ⟨⟩
      refine (tunnels_cons ▸ hw).start (List.nodup_cons.mp hentries.nodup).1 hlookup ?_
      exact (hw₀ e.1).mp (mem_of_lookup hlookup)
    · intro _ _ _ hnone
      cases hnone (hfailure e.1 (mem_of_lookup hlookup))

/-- A compensation that cannot fail brings everything back before the exception goes on. -/
theorem compensation_triple {a : Step T C Unit} {e : BackendException} {Q : Unit → World T C → Prop}
    (h : Recovers name o w₀ → Triple P a (fun _ => Without name w₀ ∅) fun _ _ => False) :
    Triple P (ignoring a >>= fun _ => throw e) Q fun _ w => Recovers name o w₀ → Without name w₀ ∅ w := by
  by_cases hrecovers : Recovers name o w₀
  · refine Triple.bind (Triple.tryCatch (h hrecovers) fun _ _ => False.elim) fun _ => ?_
    exact Triple.throw fun w hw _ => hw
  · refine Triple.bind (Q := fun _ _ => True) (Triple.trivial (fun _ _ => trivial) ?_) fun _ => ?_
    · exact fun _ _ hrecovers' => absurd hrecovers' hrecovers
    · exact Triple.throw fun _ _ hrecovers' => absurd hrecovers' hrecovers

/-- Every entry is down at the end; or what was taken down is started again. -/
theorem takeDownAll_triple (hentries : Recorded w₀ (rewind ++ entries)) :
    Triple (Without name w₀ (tunnels rewind)) (takeDownAll name o rewind entries)
      (fun _ => Without name w₀ (tunnels (rewind ++ entries)))
      fun _ w => Recovers name o w₀ → Without name w₀ ∅ w := by
  induction entries generalizing rewind with
  | nil => exact Triple.pure fun w hw => (List.append_nil rewind).symm ▸ hw
  | cons e entries ih =>
    have hrewind : Recorded w₀ rewind :=
      ⟨(List.nodup_append.mp (List.map_append ▸ hentries.nodup)).1,
        fun e' he' => hentries.lookup_eq e' (List.mem_append_left _ he')⟩
    rw [List.append_cons] at hentries ⊢
    refine Triple.bind (Q := fun _ => Without name w₀ (tunnels (rewind ++ [e])))
      (Triple.tryCatch (setStateInternal_triple ?_ fun _ _ hw _ => hw) fun ex => ?_) fun _ => ih hentries
    · exact fun w c hw _ => tunnels_concat ▸ hw.stop
    · exact compensation_triple fun h => startAll_restores h.coherent hrewind h.rewind

/-- The tunnel runs with its config, and the tunnels of `S` are down. -/
def Started (name : T ↪ JString) (w₀ : World T C) (S : Set T) (tunnel : T) (config : Option C)
    (w : World T C) : Prop :=
  ∃ w₁ c, config = some c ∧ Without name w₀ S w₁ ∧ w = switch name w₁ tunnel c .up

/-- Three ways through `setUp` share this: the tunnels of `S` are taken down first, and brought back
when the tunnel does not start. -/
theorem setUp_rolls_back {R S : Set T}
    (hothers : Triple (Without name w₀ ∅) (takeDownOthers name o orig) (fun _ => Without name w₀ R)
      fun _ w => Recovers name o w₀ → Without name w₀ ∅ w)
    (hold : Triple (Without name w₀ R) (takeDownOld name o orig tunnel config)
      (fun _ => Without name w₀ S) fun _ w => Recovers name o w₀ → Without name w₀ ∅ w)
    (hback : Recovers name o w₀ → Triple (Without name w₀ S)
      (restoreOld name o orig tunnel >>= fun _ => restoreOthers name o orig)
      (fun _ => Without name w₀ ∅) fun _ _ => False) :
    Triple (Without name w₀ ∅) (setUp name o orig tunnel config)
      (fun _ => Started name w₀ S tunnel config)
      fun _ w => Recovers name o w₀ → Without name w₀ ∅ w := by
  refine Triple.bind (ensureToolsAvailable_keeps.consequence (fun _ => id) (fun _ _ => id) fun _ _ hw _ => hw)
    fun _ => Triple.bind hothers fun _ => Triple.bind hold fun _ => ?_
  refine Triple.tryCatch (setStateInternal_triple ?_ fun _ _ hw _ => hw) fun e => compensation_triple hback
  exact fun w c hw hc => ⟨w, c, hc, hw, rfl⟩

theorem mem_up_of_getState (h : getState name o w tunnel = .up) : name tunnel ∈ w.up := by
  unfold getState getRunningTunnelNames at h
  by_contra hdown
  have hunseen : name tunnel ∉ if o.shows then w.up else ∅ := by
    split
    · exact hdown
    · exact Finset.notMem_empty _
  rw [if_neg hunseen] at h
  cases h

theorem notMem_up_of_getState (h : getState name o w tunnel = .down) (hshows : o.shows = true) :
    name tunnel ∉ w.up := by
  intro hup
  unfold getState getRunningTunnelNames at h
  rw [if_pos hshows, if_pos hup] at h
  cases h

/-- The tunnel is up: it is taken down itself, and nothing else. -/
theorem setUp_of_up (hup : getState name o w₀ tunnel = .up) :
    Triple (Without name w₀ ∅) (setUp name o (original name o w₀ tunnel) tunnel config)
      (fun _ => Started name w₀ {tunnel} tunnel config)
      fun _ w => Recovers name o w₀ → Without name w₀ ∅ w := by
  have hway : ¬ (original name o w₀ tunnel).makesWay = true := by
    simp [Original.makesWay, original, hup]
  have hsingle : insert tunnel (∅ : Set T) = {tunnel} := insert_empty_eq tunnel
  refine setUp_rolls_back (R := ∅) ?_ ?_ fun hrec => ?_
  · exact Triple.ite (fun h => absurd h hway) fun _ => Triple.pure fun _ => id
  · refine Triple.ite (fun _ => setStateInternal_triple ?_ fun _ _ hw _ _ => hw) fun h => absurd hup h
    exact fun w c hw _ => hsingle ▸ hw.stop
  · -- the map knows the tunnel, so there is a config to go back to
    have hmem := (hrec.coherent tunnel).mpr (mem_up_of_getState hup)
    obtain ⟨c, hc⟩ := Option.isSome_iff_exists.mp (AList.lookup_isSome.mpr hmem)
    refine Triple.bind (Q := fun _ => Without name w₀ ∅) (Triple.ite (fun _ => ?_) fun h => ?_) fun _ => ?_
    · refine setStateInternal_triple ?_ ?_
      · intro w c' hw hc'
        rw [← hsingle] at hw
        exact hw.start id hc' (mem_up_of_getState hup)
      · intro _ _ _ hnone
        cases hc.symm.trans (hnone (hrec.restore tunnel hmem))
    · exact absurd ⟨hup, AList.lookup_isSome.mpr hmem⟩ h
    · exact Triple.ite (fun h => absurd h hway) fun _ => Triple.pure fun _ => id

/-- The tunnel is down and the others have to make way. -/
theorem setUp_of_makesWay (hdown : getState name o w₀ tunnel ≠ .up)
    (hway : (original name o w₀ tunnel).makesWay = true) :
    Triple (Without name w₀ ∅) (setUp name o (original name o w₀ tunnel) tunnel config)
      (fun _ => Started name w₀ {t | t ∈ w₀.runningConfigs} tunnel config)
      fun _ w => Recovers name o w₀ → Without name w₀ ∅ w := by
  have hentries : Recorded w₀ (original name o w₀ tunnel).snapshot := recorded_snapshot
  have htunnels : tunnels (original name o w₀ tunnel).snapshot = {t | t ∈ w₀.runningConfigs} := by
    ext t
    exact ((o.iteration w₀.runningConfigs).2.map Sigma.fst).mem_iff
  refine setUp_rolls_back (R := {t | t ∈ w₀.runningConfigs}) ?_ ?_ fun hrec => ?_
  · refine Triple.ite (fun _ => ?_) fun h => absurd hway h
    refine Triple.consequence (takeDownAll_triple ?_) (fun w hw => ?_) (fun _ w hw => ?_) fun _ _ => id
    · exact hentries
    · rwa [tunnels_nil]
    · exact htunnels ▸ hw
  · exact Triple.ite (fun h => absurd h hdown) fun _ => Triple.pure fun _ => id
  · refine Triple.bind (Q := fun _ => Without name w₀ {t | t ∈ w₀.runningConfigs})
      (Triple.ite (fun h => absurd h.1 hdown) fun _ => Triple.pure fun _ => id) fun _ => ?_
    refine Triple.ite (fun _ => ?_) fun h => absurd hway h
    exact htunnels ▸ startAll_restores hrec.coherent hentries hrec.restore

/-- The tunnel is down and may run beside the others. -/
theorem setUp_of_multiple (hdown : getState name o w₀ tunnel ≠ .up)
    (hway : ¬ (original name o w₀ tunnel).makesWay = true) :
    Triple (Without name w₀ ∅) (setUp name o (original name o w₀ tunnel) tunnel config)
      (fun _ => Started name w₀ ∅ tunnel config)
      fun _ w => Recovers name o w₀ → Without name w₀ ∅ w := by
  refine setUp_rolls_back (R := ∅) ?_ ?_ fun hrec => ?_
  · exact Triple.ite (fun h => absurd h hway) fun _ => Triple.pure fun _ => id
  · exact Triple.ite (fun h => absurd h hdown) fun _ => Triple.pure fun _ => id
  · refine Triple.bind (Q := fun _ => Without name w₀ ∅)
      (Triple.ite (fun h => absurd h.1 hdown) fun _ => Triple.pure fun _ => id) fun _ => ?_
    exact Triple.ite (fun h => absurd h hway) fun _ => Triple.pure fun _ => id

theorem setUp_spec :
    Triple (Without name w₀ ∅) (setUp name o (original name o w₀ tunnel) tunnel config)
      (fun _ w => ∃ S, Started name w₀ S tunnel config w)
      fun _ w => Recovers name o w₀ → Without name w₀ ∅ w := by
  by_cases hup : getState name o w₀ tunnel = .up
  · exact (setUp_of_up hup).consequence (fun _ => id) (fun _ _ h => ⟨_, h⟩) fun _ _ => id
  · by_cases hway : (original name o w₀ tunnel).makesWay = true
    · exact (setUp_of_makesWay hup hway).consequence (fun _ => id) (fun _ _ h => ⟨_, h⟩) fun _ _ => id
    · exact (setUp_of_multiple hup hway).consequence (fun _ => id) (fun _ _ h => ⟨_, h⟩) fun _ _ => id

end Rollback

/-! ## Whole calls -/

theorem target_up_or_down (originalState state : TunnelState) :
    target originalState state = .up ∨ target originalState state = .down := by
  cases state with
  | up => exact .inl rfl
  | down => exact .inr rfl
  | toggle =>
    unfold target
    by_cases hup : originalState = .up
    · exact .inr (if_pos hup)
    · exact .inl (if_neg hup)

theorem unchanged_iff : unchanged orig state config = true ↔
    (state = .up ∧ orig.state = .up ∧ orig.config = config ∧ ∃ c, config = some c) ∨
      (state = .down ∧ orig.state = .down) := by
  simp only [unchanged, Bool.or_eq_true, Bool.and_eq_true, beq_iff_eq, Option.isSome_iff_exists]
  grind

/-- The tunnel runs with the config of the call. -/
def RunsWith (name : T ↪ JString) (tunnel : T) (config : Option C) (w : World T C) : Prop :=
  name tunnel ∈ w.up ∧ ∃ c, config = some c ∧ w.runningConfigs.lookup tunnel = some c

omit [DecidableEq C] in
theorem Started.runsWith {S : Set T} (h : Started name w₀ S tunnel config w) :
    RunsWith name tunnel config w := by
  obtain ⟨w₁, c, hc, -, rfl⟩ := h
  rw [switch_up]
  exact ⟨Finset.mem_insert_self _ _, c, hc, AList.lookup_insert _⟩

/-- What a call for `UP` leaves. -/
theorem setState_up (htarget : target (getState name o w₀ tunnel) state = .up) :
    Triple (· = w₀) (setState name o tunnel state config)
      (fun r w => r = .up ∧ RunsWith name tunnel config w)
      fun _ w => Recovers name o w₀ → Without name w₀ ∅ w := by
  refine Triple.get fun w₁ h₁ => ?_
  subst h₁
  rw [htarget]
  refine Triple.ite (fun hsame => Triple.pure ?_) fun _ => ?_
  · rintro w rfl
    obtain ⟨-, hup, hconfig, c, hc⟩ | ⟨hdown, -⟩ := unchanged_iff.mp hsame
    · exact ⟨hup, mem_up_of_getState hup, c, hc, hconfig.trans hc⟩
    · cases hdown
  · refine Triple.bind (Q := fun _ => RunsWith name tunnel config) ?_ fun _ => Triple.pure fun w hw => ⟨rfl, hw⟩
    refine Triple.ite (fun _ => ?_) fun h => absurd rfl h
    refine setUp_spec.consequence ?_ (fun _ w ⟨_, h⟩ => h.runsWith) fun _ _ => id
    rintro w rfl
    exact Without.refl

/-- What a call for `DOWN` leaves. -/
theorem setState_down (htarget : target (getState name o w₀ tunnel) state = .down) :
    Triple (· = w₀) (setState name o tunnel state config)
      (fun r w => r = .down ∧ w.up ⊆ w₀.up ∧ (o.shows = true → name tunnel ∉ w.up))
      fun _ w => w = w₀ := by
  refine Triple.get fun w₁ h₁ => ?_
  subst h₁
  rw [htarget]
  refine Triple.ite (fun hsame => Triple.pure ?_) fun _ => ?_
  · rintro w rfl
    obtain ⟨hup, -⟩ | ⟨-, hdown⟩ := unchanged_iff.mp hsame
    · cases hup
    · exact ⟨hdown, Finset.Subset.refl _, notMem_up_of_getState hdown⟩
  · refine Triple.bind (Q := fun _ w => w.up = w₁.up.erase (name tunnel)) ?_ fun _ => Triple.pure fun w hw => ?_
    · refine Triple.ite (fun h => absurd h nofun) fun _ => Triple.ite (fun _ => ?_) fun h => absurd rfl h
      refine setStateInternal_triple ?_ fun _ _ hw _ => hw
      rintro w c rfl -
      rw [switch_down]
    · exact ⟨rfl, hw ▸ Finset.erase_subset _ _, fun _ => hw ▸ Finset.notMem_erase _ _⟩

/-- A call keeps the two views in agreement. If it returns, the tunnel is up exactly when that is the
target, and then with the config of the call. If it throws and every compensating `wg-quick up`
succeeds, everything is as before. -/
theorem setState_rolls_back (o : Outcomes T C) (tunnel : T) (state : TunnelState) (config : Option C)
    {w w' : World T C} {r : Except BackendException TunnelState} (hw : Coherent name w)
    (h : exec (setState name o tunnel state config) w = (r, w')) :
    Coherent name w' ∧
    (∀ s, r = .ok s → s = target (getState name o w tunnel) state ∧
      (o.shows = true → (name tunnel ∈ w'.up ↔ s = .up)) ∧
      (s = .up → ∃ c, config = some c ∧ w'.runningConfigs.lookup tunnel = some c)) ∧
    (∀ e, r = .error e → (∀ t ∈ w.runningConfigs, o.rewind t = none ∧ o.restore t = none) →
      w'.up = w.up ∧ ∀ t, w'.runningConfigs.lookup t = w.runningConfigs.lookup t) := by
  refine ⟨setState_coherent.of_exec h hw, ?_, ?_⟩
  · rintro s rfl
    rcases target_up_or_down (getState name o w tunnel) state with htarget | htarget
    · obtain ⟨rfl, hup, hconfig⟩ := (setState_up htarget).ok h rfl
      exact ⟨htarget.symm, fun _ => iff_of_true hup rfl, fun _ => hconfig⟩
    · obtain ⟨rfl, -, hdown⟩ := (setState_down htarget).ok h rfl
      exact ⟨htarget.symm, fun hshows => iff_of_false (hdown hshows) nofun, nofun⟩
  · rintro e rfl hcompensated
    rcases target_up_or_down (getState name o w tunnel) state with htarget | htarget
    · have hwithout := (setState_up htarget).error h rfl
        ⟨hw, fun t ht => (hcompensated t ht).1, fun t ht => (hcompensated t ht).2⟩
      exact ⟨hwithout.up_eq, hwithout.lookup_eq⟩
    · cases (setState_down htarget).error h rfl
      exact ⟨rfl, fun _ => rfl⟩

/-- Two tunnels, for examples. -/
def twoNames : Bool ↪ JString where
  toFun b := if b then text "b" else text "a"
  inj' := by decide

/-- Every command succeeds. -/
def obliging : Outcomes Bool Nat where
  shows := true
  iteration m := ⟨m.entries, List.Perm.refl _⟩
  tools := none
  takeDown _ := none
  rewind _ := none
  stop := none
  start := none
  restore _ := none

/-- `a` makes way for `b`, `b` does not start, and `a` is started again. -/
theorem setState_rolls_back_failed_start :
    let o := { obliging with start := some (.wgQuickConfigErrorCode 1) }
    let w : World Bool Nat := ⟨AList.singleton false 0, false, {text "a"}, []⟩
    let after := exec (setState twoNames o true .up (some 1)) w
    after.1 = .error (.wgQuickConfigErrorCode 1) ∧ after.2.up = {text "a"} ∧
      after.2.runningConfigs.lookup false = some 0 := by
  intro o w after
  have hw : Coherent twoNames w := by
    intro t
    cases t
    · decide +kernel
    · decide +kernel
  have hthrows : after.1 = .error (.wgQuickConfigErrorCode 1) := by decide +kernel
  have hexec : exec (setState twoNames o true .up (some 1)) w = (after.1, after.2) := rfl
  obtain ⟨-, -, hrolled⟩ := setState_rolls_back o true .up (some 1) hw hexec
  obtain ⟨hup, hlookup⟩ := hrolled _ hthrows fun _ _ => ⟨rfl, rfl⟩
  exact ⟨hthrows, hup, hlookup false⟩

/-! ## One interface at a time -/

/-- What happens to the backend in the life of the app. -/
inductive Event (T C : Type) where
  | setState (o : Outcomes T C) (tunnel : T) (state : TunnelState) (config : Option C)
  | restart

def step (name : T ↪ JString) (w : World T C) : Event T C → World T C
  | .setState o tunnel state config => (exec (setState name o tunnel state config) w).2
  | .restart => restart w

def run (name : T ↪ JString) (w : World T C) (es : List (Event T C)) : World T C :=
  es.foldl (step name) w

/-- Every interface that is up is that of the tunnel or of one that this process has started. -/
def Known (name : T ↪ JString) (w : World T C) (tunnel : T) : Prop :=
  ∀ n ∈ w.up, n = name tunnel ∨ ∃ t ∈ w.runningConfigs, name t = n

/-- A call that brings a tunnel up is made when the interfaces that are up are known. -/
def Allowed (name : T ↪ JString) (w : World T C) : Event T C → Prop
  | .setState o tunnel state _ => target (getState name o w tunnel) state = .up → Known name w tunnel
  | .restart => True

def AllAllowed (name : T ↪ JString) (w : World T C) : List (Event T C) → Prop
  | [] => True
  | e :: es => Allowed name w e ∧ AllAllowed name (step name w e) es

/-- What holds in single-tunnel mode. -/
structure Single (name : T ↪ JString) (w : World T C) : Prop where
  multipleTunnels : w.multipleTunnels = false
  keys_up : ∀ t ∈ w.runningConfigs, name t ∈ w.up
  up_unique : ∀ n ∈ w.up, ∀ m ∈ w.up, n = m

omit [DecidableEq C] in
theorem switch_keys_up {c : C} (h : ∀ t ∈ w.runningConfigs, name t ∈ w.up) :
    ∀ t ∈ (switch name w tunnel c state).runningConfigs, name t ∈ (switch name w tunnel c state).up := by
  intro t ht
  rw [mem_runningConfigs_switch] at ht
  rw [mem_up_switch]
  split
  · next heq => rwa [if_pos heq] at ht
  · next hne =>
    rw [if_neg hne] at ht
    exact h t ht

/-- A call that throws starts nothing that was not up. -/
theorem setState_throws_subset (hkeys : ∀ t ∈ w₀.runningConfigs, name t ∈ w₀.up) :
    Triple (· = w₀) (setState name o tunnel state config) (fun _ _ => True) fun _ w => w.up ⊆ w₀.up := by
  rcases target_up_or_down (getState name o w₀ tunnel) state with htarget | htarget
  · refine Triple.get fun w₁ h₁ => ?_
    subst h₁
    rw [htarget]
    refine Triple.ite (fun _ => Triple.pure fun _ _ => trivial) fun _ => ?_
    refine Triple.bind (Q := fun _ _ => True) ?_ fun _ => Triple.pure fun _ _ => trivial
    refine Triple.ite (fun _ => ?_) fun h => absurd rfl h
    have hsnapshot : Recorded w₁ (original name o w₁ tunnel).snapshot := recorded_snapshot
    refine (setUp_triple (P := fun w => w.up ⊆ w₁.up) ⟨?_, ?_⟩ ?_ fun _ _ _ _ => trivial).consequence
      (fun w hw => hw ▸ Finset.Subset.refl _) (fun _ _ => id) fun _ _ => id
    · intro w e he hw
      exact up_switch_subset hw fun _ => hkeys e.1 (mem_of_lookup (hsnapshot.lookup_eq e he))
    · exact fun w t c hw => up_switch_subset hw nofun
    · exact fun w c hup hw => up_switch_subset hw fun _ => mem_up_of_getState hup
  · refine (setState_down htarget).consequence (fun _ => id) (fun _ _ _ => trivial) ?_
    rintro - w rfl
    exact Finset.Subset.refl _

omit [DecidableEq C] in
theorem Started.up_eq_singleton_iff {S : Set T} (h : Started name w₀ S tunnel config w) :
    w.up = {name tunnel} ↔ ∀ n ∈ w₀.up, n = name tunnel ∨ ∃ t ∈ S, name t = n := by
  obtain ⟨w₁, c, -, hwithout, rfl⟩ := h
  rw [switch_up, Finset.eq_singleton_iff_unique_mem]
  constructor
  · rintro ⟨-, honly⟩ n hn
    by_cases hS : ∃ t ∈ S, name t = n
    · exact .inr hS
    · refine .inl (honly n (Finset.mem_insert_of_mem ((hwithout.mem_up n).mpr ⟨hn, ?_⟩)))
      exact fun t ht heq => hS ⟨t, ht, heq⟩
  · intro hknown
    refine ⟨Finset.mem_insert_self _ _, fun n hn => ?_⟩
    rcases Finset.mem_insert.mp hn with rfl | hn
    · rfl
    · obtain ⟨hup, hS⟩ := (hwithout.mem_up n).mp hn
      refine (hknown n hup).resolve_right ?_
      rintro ⟨t, ht, heq⟩
      exact hS t ht heq

omit [DecidableEq C] in
theorem Single.known (h : Single name w) (hup : name tunnel ∈ w.up) : Known name w tunnel :=
  fun n hn => .inl (h.up_unique n hn _ hup)

/-- A start leaves one interface exactly if the interfaces that were up are known. -/
theorem setState_only (hsingle : Single name w₀)
    (htarget : target (getState name o w₀ tunnel) state = .up) :
    Triple (· = w₀) (setState name o tunnel state config)
      (fun _ w => w.up = {name tunnel} ↔ Known name w₀ tunnel) fun _ _ => True := by
  refine Triple.get fun w₁ h₁ => ?_
  subst h₁
  rw [htarget]
  refine Triple.ite (fun hsame => Triple.pure ?_) fun _ => ?_
  · rintro w rfl
    obtain ⟨-, hstate, -⟩ | ⟨hdown, -⟩ := unchanged_iff.mp hsame
    · have hup := mem_up_of_getState hstate
      refine iff_of_true ?_ (hsingle.known hup)
      exact Finset.eq_singleton_iff_unique_mem.mpr ⟨hup, fun n hn => hsingle.up_unique n hn _ hup⟩
    · cases hdown
  · refine Triple.bind (Q := fun _ w => w.up = {name tunnel} ↔ Known name w₁ tunnel)
      (Triple.ite (fun _ => ?_) fun h => absurd rfl h) fun _ => Triple.pure fun _ => id
    have hrefl : ∀ w, w = w₁ → Without name w₁ ∅ w := fun w hw => hw ▸ Without.refl
    by_cases hstate : getState name o w₁ tunnel = .up
    · have hknown := hsingle.known (mem_up_of_getState hstate)
      refine (setUp_of_up hstate).consequence hrefl (fun _ w hstarted => ?_) fun _ _ _ => trivial
      refine iff_of_true (hstarted.up_eq_singleton_iff.mpr fun n hn => .inl ?_) hknown
      exact hsingle.up_unique n hn _ (mem_up_of_getState hstate)
    · have hdown : getState name o w₁ tunnel = .down := if_neg fun h => hstate (if_pos h)
      have hway : (original name o w₁ tunnel).makesWay = true := by
        simp [Original.makesWay, original, hdown, hsingle.multipleTunnels]
      refine (setUp_of_makesWay hstate hway).consequence hrefl (fun _ w hstarted => ?_) fun _ _ _ => trivial
      exact hstarted.up_eq_singleton_iff

/-- There is at most one interface after the call: it is the one that was started, or there is none
that was not up before. -/
theorem setState_up_unique (h : Single name w) (hallowed : Allowed name w (.setState o tunnel state config)) :
    ∀ n ∈ (exec (setState name o tunnel state config) w).2.up,
      ∀ m ∈ (exec (setState name o tunnel state config) w).2.up, n = m := by
  rcases hexec : exec (setState name o tunnel state config) w with ⟨e | r, w'⟩
  · have hsubset := (setState_throws_subset h.keys_up).error hexec rfl
    exact fun n hn m hm => h.up_unique n (hsubset hn) m (hsubset hm)
  · rcases target_up_or_down (getState name o w tunnel) state with htarget | htarget
    · have honly : w'.up = {name tunnel} := ((setState_only h htarget).ok hexec rfl).mpr (hallowed htarget)
      intro n hn m hm
      rw [honly, Finset.mem_singleton] at hn hm
      exact hn.trans hm.symm
    · have hsubset := ((setState_down htarget).ok hexec rfl).2.1
      exact fun n hn m hm => h.up_unique n (hsubset hn) m (hsubset hm)

theorem step_single {e : Event T C} (h : Single name w) (hallowed : Allowed name w e) :
    Single name (step name w e) := by
  cases e with
  | restart => exact ⟨rfl, fun t ht => absurd ht (AList.notMem_empty t), h.up_unique⟩
  | setState o tunnel state config =>
    refine ⟨?_, ?_, setState_up_unique h hallowed⟩
    · refine (setState_keeps (P := fun w => w.multipleTunnels = false) fun w t c s hw => ?_).exec h.multipleTunnels
      exact (switch_multipleTunnels w t c s).trans hw
    · exact (setState_keeps (P := fun w => ∀ t ∈ w.runningConfigs, name t ∈ w.up)
        fun w t c s hw => switch_keys_up hw).exec h.keys_up

theorem run_single {es : List (Event T C)} (h : Single name w) (hallowed : AllAllowed name w es) :
    Single name (run name w es) := by
  induction es generalizing w with
  | nil => exact h
  | cons e es ih => exact ih (step_single h hallowed.1) hallowed.2

omit [DecidableEq C] in
theorem boot_single : Single name (World.boot : World T C) :=
  ⟨rfl, fun t ht => absurd ht (AList.notMem_empty t), fun n hn => absurd hn (Finset.notMem_empty n)⟩

/-- In a run whose starts were all made when the interfaces that were up were known, a call for `UP`
that returns leaves the one interface up if and only if they are known again. -/
theorem only_interface_up (es : List (Event T C)) (o : Outcomes T C) (tunnel : T) (config : Option C)
    {w' : World T C} {r : TunnelState} (hrun : AllAllowed name World.boot es)
    (h : exec (setState name o tunnel .up config) (run name World.boot es) = (.ok r, w')) :
    w'.up = {name tunnel} ↔ Known name (run name World.boot es) tunnel :=
  (setState_only (run_single boot_single hrun) rfl).ok h rfl

/-- Within one life of the process everything that is up is known. -/
theorem only_interface_up_of_two_starts :
    let w : World Bool Nat := run twoNames World.boot [.setState obliging false .up (some 0)]
    (exec (setState twoNames obliging true .up (some 1)) w).2.up = {text "b"} := by
  intro w
  have hknown : Known twoNames w true := by
    unfold Known
    decide +kernel
  have hrun : AllAllowed twoNames World.boot [.setState obliging false .up (some 0)] :=
    ⟨fun _ n hn => absurd hn (Finset.notMem_empty n), trivial⟩
  have hreturns : (exec (setState twoNames obliging true .up (some 1)) w).1 = .ok .up := by decide +kernel
  exact (only_interface_up _ obliging true (some 1) hrun (Prod.ext hreturns rfl)).mpr hknown

/-- After a restart nothing is known: `a` is up, `b` is started, and both are up. -/
theorem two_interfaces_after_restart :
    let w : World Bool Nat := run twoNames World.boot [.setState obliging false .up (some 0), .restart]
    let after := exec (setState twoNames obliging true .up (some 1)) w
    after.1 = .ok .up ∧ after.2.up = {text "a", text "b"} ∧ after.2.up ≠ {twoNames true} := by
  decide +kernel

/-! ## Taking a tunnel down without a config -/

/-- A call for `DOWN` without a config, on a tunnel that is up and whose `wg-quick down` succeeds: it
does nothing if the interfaces cannot be listed, and throws if this process has no config for it. -/
theorem exec_setState_down (hup : name tunnel ∈ w.up) (hstop : o.stop = none) :
    exec (setState name o tunnel .down none) w =
      if o.shows then
        match w.runningConfigs.lookup tunnel with
        | some c => (.ok .down, switch name w tunnel c .down)
        | none => (.error .platform, w)
      else (.ok .down, w) := by
  cases hshows : o.shows with
  | false =>
    have hstate : getState name o w tunnel = .down := by
      simp [getState, getRunningTunnelNames, hshows]
    simp [setState, setStateFrom, original, hstate, target, unchanged]
  | true =>
    have hstate : getState name o w tunnel = .up := by
      simp [getState, getRunningTunnelNames, hshows, hup]
    cases hconfig : w.runningConfigs.lookup tunnel <;>
      simp [setState, setStateFrom, original, hstate, target, unchanged, applyState, hconfig,
        setStateInternal, hstop]

/-- The events of one life of the process. -/
def Uninterrupted (es : List (Event T C)) : Prop := .restart ∉ es

theorem run_coherent {es : List (Event T C)} (h : Coherent name w) (hes : Uninterrupted es) :
    Coherent name (run name w es) := by
  induction es generalizing w with
  | nil => exact h
  | cons e es ih =>
    obtain ⟨he, hes⟩ := not_or.mp (List.mem_cons.not.mp hes)
    refine ih ?_ hes
    cases e with
    | restart => exact absurd rfl he
    | setState o tunnel state config => exact setState_coherent.exec h

/-- A tunnel that is up and whose `wg-quick down` succeeds is taken down by a call without a config
exactly if its interface is seen and this process has brought it up. In the first life of the process
the second holds of every tunnel that is up. -/
theorem setState_down_iff (hup : name tunnel ∈ w.up) (hstop : o.stop = none) :
    (((exec (setState name o tunnel .down none) w).1 = .ok .down ∧
        name tunnel ∉ (exec (setState name o tunnel .down none) w).2.up) ↔
      o.shows = true ∧ tunnel ∈ w.runningConfigs) ∧
    ∀ es, Uninterrupted es → w = run name World.boot es → tunnel ∈ w.runningConfigs := by
  refine ⟨?_, ?_⟩
  · rw [exec_setState_down hup hstop]
    cases hshows : o.shows with
    | false => exact iff_of_false (fun h => h.2 hup) fun h => by cases h.1
    | true =>
      cases hconfig : w.runningConfigs.lookup tunnel with
      | none =>
        have hunknown : tunnel ∉ w.runningConfigs := AList.lookup_eq_none.mp hconfig
        exact iff_of_false (fun h => by cases h.1) fun h => hunknown h.2
      | some c =>
        have hknown : tunnel ∈ w.runningConfigs := AList.lookup_isSome.mp (by rw [hconfig]; rfl)
        refine iff_of_true ⟨rfl, ?_⟩ ⟨rfl, hknown⟩
        simp only [if_true, switch_down]
        exact Finset.notMem_erase _ _
  · rintro es hes rfl
    have hboot : Coherent name (World.boot : World T C) := fun t =>
      iff_of_false (AList.notMem_empty t) (Finset.notMem_empty _)
    exact (run_coherent hboot hes tunnel).mpr hup

/-- The tunnel was brought up by this process. -/
theorem setState_down_after_start :
    let w : World Bool Nat := run twoNames World.boot [.setState obliging false .up (some 0)]
    (exec (setState twoNames obliging false .down none) w).1 = .ok .down ∧
      twoNames false ∉ (exec (setState twoNames obliging false .down none) w).2.up := by
  intro w
  have hup : twoNames false ∈ w.up ∧ false ∈ w.runningConfigs := by decide
  exact (setState_down_iff hup.1 rfl).1.mpr ⟨rfl, hup.2⟩

/-- After a restart the config is not known, and the tunnel cannot be taken down without one. -/
theorem setState_down_after_restart :
    let w : World Bool Nat := run twoNames World.boot [.setState obliging false .up (some 0), .restart]
    let after := exec (setState twoNames obliging false .down none) w
    twoNames false ∈ w.up ∧ obliging.stop = none ∧ after.1 = .error .platform ∧ twoNames false ∈ after.2.up := by
  decide

end WgAndroid.WgQuickBackend
