import WgAndroid.Java.Utf8
import WgAndroid.Manager.LiveList
import WgAndroid.Manager.Ownership

/-!
# Exporting an archive

`ZipExporterPreference.exportZip`: the configs are fetched for the tunnels that are in the list when
the export starts, each in a coroutine of its own. Then a file is chosen, and the entries are written
with the names of the tunnels that are in the list at that time, index by index.

Results:
1. `run_captured`: until the file is written, the export holds on to the tunnels it started with.
2. `exportZip_pairs`: when an archive pairs every name with the config of the same tunnel.
-/

namespace WgAndroid.ZipExporter

open TunnelManager

/-! ## The export -/

/-- Where one `getConfigAsync` stands. -/
inductive Fetch where
  | config  -- main thread
  | load  -- configStore.load
  | loaded (c : Config)  -- main thread
  | done (c : Config)

/-- The config of a coroutine that has ended. -/
def Fetch.result : Fetch → Option Config
  | .done c => some c
  | .config | .load | .loaded _ => none

/-- One step of a `getConfigAsync`; the inner `none` is an exception. -/
def fetch (w : World) (t : ObservableTunnel) : Fetch → Outcome → Option (World × Option Fetch)
  | .config, .main =>
    match w.config t with
    | some c => some (w, some (.done c))
    | none => some (w, some .load)
  | .load, .returns _ => do
    let c ← w.store.lookup (w.name t)
    return (w, some (.loaded c))
  | .load, .throws => some (w, none)
  | .loaded c, .main => some (w.onConfigChanged t c, some (.done c))
  | _, _ => none

/-- An entry of the archive, with the tunnel whose name it carries and the one whose config it
carries. -/
structure Entry where
  file : JString
  content : Bytes
  named : ObservableTunnel
  configured : ObservableTunnel
  deriving DecidableEq

/-- Where the export stands. What it does after an exception does not touch the archive. -/
inductive Export where
  | fetching (fetches : List (ObservableTunnel × Fetch))  -- awaitAll
  | saving (configs : List (ObservableTunnel × Config))  -- downloadsFileSaver.save
  | exported (entries : List Entry)
  | failed

/-- The archive that is left when the export is done. -/
def Export.archive : Export → Option (List Entry)
  | .exported entries => some entries
  | .fetching _ | .saving _ | .failed => none

/-- The export and the list that it reads. -/
structure Session where
  live : Live
  stage : Export

/-- The start: a coroutine for each tunnel of the list. -/
def exportZip (l : Live) : Session := ⟨l, .fetching (l.tunnels.map (·, .config))⟩

/-- The archive does not take a name twice. -/
def addEntry (entries : List Entry) (e : Entry) : Option (List Entry) :=
  if e.file ∈ entries.map Entry.file then none else some (entries ++ [e])

/-- One round of the loop over the indices of the configs; the index is the number of entries before
it. The list need not have that index any more. -/
def putEntry (P : Platform) (w : World) (entries : List Entry) (c : ObservableTunnel × Config) :
    Option (List Entry) := do
  let t ← w.tunnelMap[entries.length]?
  addEntry entries ⟨w.name t ++ text ".conf", getBytes (c.2.toWgQuickString P), t, c.1⟩

def writeEntries (P : Platform) (w : World) (configs : List (ObservableTunnel × Config)) :
    Option (List Entry) :=
  configs.foldlM (putEntry P w) []

/-- After a step of the coroutine `i`. -/
def fetched (fetches : List (ObservableTunnel × Fetch)) (i : Nat) (t : ObservableTunnel) :
    Option Fetch → Export
  | some f => .fetching (fetches.set i (t, f))
  | none => .failed

/-- After `awaitAll`. -/
def awaited (configs : List (ObservableTunnel × Config)) : Export :=
  -- nothing to export is an error too
  if configs.isEmpty then .failed else .saving configs

/-- After the loop; an archive that an exception left unfinished is deleted. -/
def written : Option (List Entry) → Export
  | some entries => .exported entries
  | none => .failed

/-- What lets the export go on, and what happens to the list meanwhile. -/
inductive Event where
  | change (c : Change)
  | fetch (i : Nat) (o : Outcome)
  | awaitAll
  | save (file : Bool)  -- whether there is a file to write to

def stepFetch (l : Live) (i : Nat) (o : Outcome) : Export → Option Session
  | .fetching fetches => do
    let (t, f) ← fetches[i]?
    let (w, f) ← fetch l.world t f o
    return ⟨l.withWorld w, fetched fetches i t f⟩
  | _ => none

def stepAwaitAll (l : Live) : Export → Option Session
  | .fetching fetches => do
    let configs ← fetches.mapM fun p => p.2.result.map (p.1, ·)
    return ⟨l, awaited configs⟩
  | _ => none

def stepSave (P : Platform) (l : Live) (file : Bool) : Export → Option Session
  | .saving configs => some ⟨l, if file then written (writeEntries P l.world configs) else .failed⟩
  | _ => none

def Session.step (P : Platform) (s : Session) : Event → Option Session
  | .change c => (s.live.step c).map fun live => { s with live := live }
  | .fetch i o => stepFetch s.live i o s.stage
  | .awaitAll => stepAwaitAll s.live s.stage
  | .save file => stepSave P s.live file s.stage

def Session.run (P : Platform) (s : Session) (es : List Event) : Option Session :=
  es.foldlM (Session.step P) s

/-! ## What the export holds on to -/

variable {P : Platform} {w : World} {l : Live} {s s' : Session} {entries entries' : List Entry}
  {fetches : List (ObservableTunnel × Fetch)} {configs : List (ObservableTunnel × Config)}
  {captured : List ObservableTunnel}

/-- The tunnels that the export works on, while it does. -/
def Export.Holds (captured : List ObservableTunnel) : Export → Prop
  | .fetching fetches => fetches.map Prod.fst = captured
  | .saving configs => configs.map Prod.fst = captured
  | .exported entries => entries.map Entry.configured = captured
  | .failed => True

theorem exportZip_holds : (exportZip l).stage.Holds l.tunnels := by
  change (l.tunnels.map (·, Fetch.config)).map Prod.fst = l.tunnels
  rw [List.map_map]
  exact List.map_id _

theorem fetched_holds {i : Nat} {t : ObservableTunnel} {f : Fetch} (f' : Option Fetch)
    (hi : fetches[i]? = some (t, f)) (h : fetches.map Prod.fst = captured) :
    (fetched fetches i t f').Holds captured := by
  cases f' with
  | none => trivial
  | some f' =>
    change (fetches.set i (t, f')).map Prod.fst = captured
    obtain ⟨hlt, hi⟩ := List.getElem?_eq_some_iff.mp hi
    have hlength : i < (fetches.map Prod.fst).length := by rwa [List.length_map]
    -- the tunnel keeps its place
    have hsame : t = (fetches.map Prod.fst)[i] := by rw [List.getElem_map, hi]
    rw [List.map_set, hsame, List.set_getElem_self, h]

theorem awaited_holds (hconfigs : fetches.mapM (fun p => p.2.result.map (p.1, ·)) = some configs)
    (h : fetches.map Prod.fst = captured) : (awaited configs).Holds captured := by
  have hfst : fetches.map Prod.fst = configs.map Prod.fst := by
    have hpairs := (Checked.forall₂_of_mapM_eq_some hconfigs).imp
      (S := fun p c => p.1 = c.1) fun p c hpc => by
        obtain ⟨config, -, rfl⟩ := Option.map_eq_some_iff.mp hpc
        rfl
    exact List.forall₂_eq_eq_eq.le _ _ (List.forall₂_map_left_iff.mpr (List.forall₂_map_right_iff.mpr hpairs))
  unfold awaited
  split
  · trivial
  · exact hfst.symm.trans h

/-- What the loop has written, over the configs that it has seen. -/
structure Written (P : Platform) (w : World) (configs : List (ObservableTunnel × Config))
    (entries : List Entry) : Prop where
  named : entries.map Entry.named <+: w.tunnelMap
  configured : entries.map Entry.configured = configs.map Prod.fst
  files : ∀ e ∈ entries, e.file = w.name e.named ++ text ".conf"
  contents : entries.map Entry.content = configs.map fun c => getBytes (c.2.toWgQuickString P)

theorem addEntry_eq_some {e : Entry} (h : addEntry entries e = some entries') :
    entries' = entries ++ [e] := by
  unfold addEntry at h
  split at h
  · cases h
  · exact (Option.some.inj h).symm

theorem Written.putEntry {c : ObservableTunnel × Config} (h : Written P w configs entries)
    (hput : putEntry P w entries c = some entries') : Written P w (configs ++ [c]) entries' := by
  obtain ⟨t, ht, hput⟩ := Option.bind_eq_some_iff.mp hput
  cases addEntry_eq_some hput
  constructor
  · obtain ⟨rest, hrest⟩ := h.named
    -- the next tunnel of the list is the one that the entry is named after
    rw [← hrest, List.getElem?_append_right (List.length_map _).le, List.length_map, Nat.sub_self,
      ← List.head?_eq_getElem?] at ht
    obtain ⟨rest', rfl⟩ := List.head?_eq_some_iff.mp ht
    rw [List.map_append]
    exact ⟨rest', by rw [← hrest, List.append_assoc]; rfl⟩
  · rw [List.map_append, List.map_append, h.configured]
    rfl
  · intro e he
    rcases List.mem_append.mp he with he | he
    · exact h.files e he
    · cases List.mem_singleton.mp he
      rfl
  · rw [List.map_append, List.map_append, h.contents]
    rfl

theorem written_writeEntries (h : writeEntries P w configs = some entries) :
    Written P w configs entries := by
  have hall := Checked.foldlM_some_invariant
    (fun es cs es' => ∀ before, Written P w before es → Written P w (before ++ cs) es')
    (fun es before hes => by rwa [List.append_nil])
    (fun hput ih before hes => by
      have := ih _ (hes.putEntry hput)
      rwa [List.append_assoc] at this) h
  exact hall [] ⟨List.nil_prefix, rfl, nofun, rfl⟩

theorem written_holds (h : configs.map Prod.fst = captured) :
    (written (writeEntries P w configs)).Holds captured := by
  cases hwrite : writeEntries P w configs with
  | none => trivial
  | some entries => exact (written_writeEntries hwrite).configured.trans h

theorem step_holds {e : Event} (hstep : s.step P e = some s') (h : s.stage.Holds captured) :
    s'.stage.Holds captured := by
  obtain ⟨l, stage⟩ := s
  cases e with
  | change c =>
    obtain ⟨l', -, rfl⟩ := Option.map_eq_some_iff.mp hstep
    exact h
  | fetch i o =>
    cases stage with
    | fetching fetches =>
      obtain ⟨⟨t, f⟩, hi, hstep⟩ := Option.bind_eq_some_iff.mp hstep
      obtain ⟨⟨w, f'⟩, -, hstep⟩ := Option.bind_eq_some_iff.mp hstep
      cases hstep
      exact fetched_holds f' hi h
    | saving | exported | failed => cases hstep
  | awaitAll =>
    cases stage with
    | fetching fetches =>
      obtain ⟨configs, hconfigs, hstep⟩ := Option.bind_eq_some_iff.mp hstep
      cases hstep
      exact awaited_holds hconfigs h
    | saving | exported | failed => cases hstep
  | save file =>
    cases stage with
    | saving configs =>
      cases hstep
      cases file with
      | false => trivial
      | true => exact written_holds h
    | fetching | exported | failed => cases hstep

/-- Until the end, the export works on the tunnels that it started with. -/
theorem run_captured {es : List Event} (hrun : (exportZip l).run P es = some s) :
    s.stage.Holds l.tunnels :=
  Checked.foldlM_some_invariant
    (fun s _ s' => s.stage.Holds l.tunnels → s'.stage.Holds l.tunnels) (fun _ => id)
    (fun hstep ih h => ih (step_holds hstep h)) hrun exportZip_holds

/-! ## The pairs of names and configs -/

theorem Written.pairs_iff (h : Written P w configs entries) :
    (∀ e ∈ entries, e.named = e.configured) ↔ configs.map Prod.fst <+: w.tunnelMap := by
  rw [← h.configured, ← List.map_inj_left]
  constructor
  · intro heq
    exact heq ▸ h.named
  · intro hstarts
    -- two prefixes of the list of the same length
    exact (List.prefix_of_prefix_length_le h.named hstarts (by simp)).eq_of_length (by simp)

/-- An archive pairs every name with the config of the same tunnel exactly when the list starts, at
the time of writing, with the tunnels that it held at the start of the export, in that order. -/
theorem exportZip_pairs {es : List Event} (hrun : (exportZip l).run P es = some s)
    (hsave : s.step P (.save true) = some s') (harchive : s'.stage.archive = some entries) :
    (∃ configs, s.stage = .saving configs ∧ Written P s.live.world configs entries) ∧
      ((∀ e ∈ entries, e.named = e.configured) ↔ l.tunnels <+: s.live.tunnels) := by
  have hholds := run_captured hrun
  obtain ⟨live, stage⟩ := s
  cases stage with
  | fetching | exported | failed => cases hsave
  | saving configs =>
    cases hsave
    cases hwrite : writeEntries P live.world configs with
    | none =>
      rw [if_pos rfl, hwrite] at harchive
      cases harchive
    | some entries' =>
      rw [if_pos rfl, hwrite] at harchive
      cases harchive
      have hwritten := written_writeEntries hwrite
      have hfst : configs.map Prod.fst = l.tunnels := hholds
      exact ⟨⟨configs, rfl, hwritten⟩, hfst ▸ hwritten.pairs_iff⟩

/-! ## Exports of a list of one tunnel -/

/-- The list as it is loaded from a store with the tunnel "wg0", which gets the reference 0. -/
def sampleLive : Live :=
  ⟨[], ⟨(load (TunnelComparator.comparator []) sampleStore [] none).toOption.getD (boot sampleStore []), []⟩⟩

/-- The config of the tunnel is fetched. -/
def fetchConfig : List Event := [.fetch 0 .main, .fetch 0 (.returns []), .fetch 0 .main, .awaitAll]

/-- A config that differs from that of "wg0" in its MTU. -/
def homeConfig : Config where
  interfaze :=
    { sampleConfig.interfaze with
      mtu := some 1400
      mtu_range := by
        intro n hn
        cases hn
        decide }
  peers := []

/-- A tunnel is created that comes first in the list. -/
def createHome : List Event :=
  [.change (.manager (.start (.create (text "home") (some homeConfig)))),
    .change (.manager (.resume 0 (.returns []))), .change (.manager (.resume 0 .main))]

def sampleContent : Bytes := getBytes (sampleConfig.toWgQuickString samplePlatform)

theorem exportZip_pairs_wg0 :
    ∃ s s' entries, (exportZip sampleLive).run samplePlatform fetchConfig = some s ∧
      s.step samplePlatform (.save true) = some s' ∧ s'.stage.archive = some entries ∧
      entries = [⟨text "wg0.conf", sampleContent, 0, 0⟩] ∧
      ((∀ e ∈ entries, e.named = e.configured) ↔ sampleLive.tunnels <+: s.live.tunnels) := by
  have hok : ((exportZip sampleLive).run samplePlatform fetchConfig).any (fun s =>
      (s.step samplePlatform (.save true)).any fun s' =>
        decide (s'.stage.archive = some [⟨text "wg0.conf", sampleContent, 0, 0⟩])) = true := by
    decide +kernel
  obtain ⟨s, hrun, hok⟩ := (Option.any_eq_true _ _).mp hok
  obtain ⟨s', hsave, hok⟩ := (Option.any_eq_true _ _).mp hok
  have harchive := of_decide_eq_true hok
  exact ⟨s, s', _, hrun, hsave, harchive, rfl, (exportZip_pairs hrun hsave harchive).2⟩

/-- Between the fetching and the writing another tunnel comes to the front: the config of "wg0" is
written under its name. -/
theorem exportZip_misnames_wg0 :
    load (TunnelComparator.comparator []) sampleStore [] none = .ok sampleLive.world ∧
      ∃ s, (exportZip sampleLive).run samplePlatform (fetchConfig ++ createHome ++ [.save true]) = some s ∧
        s.stage.archive = some [⟨text "home.conf", sampleContent, 1, 0⟩] ∧
        sampleContent ≠ getBytes (homeConfig.toWgQuickString samplePlatform) := by
  constructor
  · rfl
  · have hok : ((exportZip sampleLive).run samplePlatform (fetchConfig ++ createHome ++ [.save true])).any
        (fun s => decide (s.stage.archive = some [⟨text "home.conf", sampleContent, 1, 0⟩])) = true := by
      decide +kernel
    obtain ⟨s, hrun, hok⟩ := (Option.any_eq_true _ _).mp hok
    exact ⟨s, hrun, of_decide_eq_true hok, by decide +kernel⟩

end WgAndroid.ZipExporter
