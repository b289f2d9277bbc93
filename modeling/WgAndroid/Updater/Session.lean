import WgAndroid.Lib.Routine
import WgAndroid.Updater.FileList

/-!
# Installing an update

`downloadAndUpdate`: the file list is fetched and checked, a newer package is downloaded into an
install session chunk by chunk, and the session is committed or abandoned. A library call either has
its effect or throws; where it may do both, as for `write`, what it did before it threw is kept.

Results:
1. `transfer_triple`: after a transfer that returns, the session holds bytes of the expected hash.
2. `downloadAndUpdate_installs_verified`: what is known when the session is committed, and that it is
   abandoned or was never opened otherwise.
-/

namespace WgAndroid.Updater

open Routine

/-! ## The state -/

/-- An install session: the bytes written to it, and which calls have been made on it. -/
structure InstallSession where
  written : Bytes
  abandoned : Bool
  committed : Bool
  closed : Bool
  deriving DecidableEq

/-- `Progress`, without what only the user interface reads. -/
inductive Progress where
  | complete
  | available
  | rechecking
  | downloading (bytesDownloaded bytesTotal : UInt64)
  | installing
  | needsUserIntervention
  | failure
  | corrupt
  deriving DecidableEq

/-- Whether two values are of one class. -/
def Progress.sameClass : Progress → Progress → Bool
  | .downloading .., .downloading .. => true
  | p, q => p == q

/-- The state of a call: its session once it is open, the bytes that went into the digest, the counter
of the loop, and the progress that is shown. -/
structure World where
  session : Option InstallSession
  digested : Bytes
  downloadedByteLen : UInt64
  progress : Progress
  deriving DecidableEq

/-- Before a call. -/
def World.start (progress : Progress) : World := ⟨none, [], 0, progress⟩

/-- A round of the loop: what `read` put into the buffer of 32 KiB, nothing at the end of the stream,
how many bytes are written if `write` throws, and whether the progress is emitted. -/
structure Chunk where
  bytes : { b : Bytes // b.length ≤ 1024 * 32 }
  cutOff : Option Nat
  emits : Bool

/-- What comes from outside. The stream is the list of its chunks, after which `read` says that it
ends or throws; a longer stream is cut off by the limit of the loop. -/
structure Outcomes where
  throws : Point → Bool
  listCode : Int
  listMessage : JString
  fileList : { b : Bytes // b.length ≤ 1024 * 512 }  -- what one read returned
  fileCode : Int
  contentLength : UInt64
  chunks : List Chunk

abbrev Action : Type → Type := Routine World Throwable

/-! ## The code -/

variable (P : Platform) (B : BuildConfig) (o : Outcomes)

/-- A library call that may throw. -/
def call (p : Point) : Action Unit := require (!o.throws p) (.call p)

def emit (progress : Progress) (force : Bool) : Action Unit :=
  modify fun w => if force || !w.progress.sameClass progress then { w with progress } else w

def emitProgress (p : Point) (progress : Progress) (force : Bool) : Action Unit := do
  emit progress force
  call o p

def checkForUpdates : Action (Option Update) := do
  call o .connectList
  require (o.listCode == 200) (.io o.listMessage)
  call o .readList
  require (!o.fileList.val.isEmpty) (.io (text "File list is empty"))
  call o .closeList
  let updates ← lift (verifySignedFileList P B (P.decodeToString o.fileList.val))
  return maxByVersion updates

def currentVersion : Except Throwable Version := (Version.ofString B.versionName).elim (.error .numberFormat) .ok

def onSession (f : InstallSession → InstallSession) : Action Unit :=
  modify fun w => { w with session := w.session.map f }

/-- `digest.update` -/
def updateDigest (bytes : Bytes) : Action Unit :=
  modify fun w => { w with digested := w.digested ++ bytes }

/-- `dest.write` -/
def write (c : Chunk) : Action Unit := do
  onSession fun s => { s with written := s.written ++ (c.cutOff.elim c.bytes.val fun n => c.bytes.val.take n) }
  require c.cutOff.isNone (.call .write)

def count (c : Chunk) : Action Unit :=
  modify fun w => { w with downloadedByteLen := w.downloadedByteLen + UInt64.ofNat c.bytes.val.length }

def emitDownloading (c : Chunk) : Action Unit := do
  let w ← get
  emit (.downloading w.downloadedByteLen o.contentLength) true
  require c.emits (.call .emitDownloading)

def checkSize : Action Unit := do
  let w ← get
  require (decide (w.downloadedByteLen < 1024 * 1024 * 100)) (.io (text "File too large"))

/-- The loop over the stream. -/
def transferChunks : List Chunk → Action Unit
  | [] => call o .read
  | c :: cs =>
    if c.bytes.val.isEmpty then pure ()
    else do
      updateDigest c.bytes.val
      write c
      count c
      emitDownloading o c
      checkSize
      transferChunks cs

def checkHash (update : Update) : Action Unit := do
  let w ← get
  require (P.sha256 w.digested == update.hash) (.security (text "Update has invalid hash"))

/-- The block of the `try`. -/
def transfer (update : Update) : Action Unit := do
  call o .openWrite
  call o .inputStream
  transferChunks o o.chunks
  call o .closeSource
  call o .closeDestination
  emitProgress o .emitInstalling .installing false
  checkHash P update

/-- The `finally` block after a failure. -/
def abandon : Action Unit := do
  onSession fun s => { s with abandoned := true }
  call o .abandon
  onSession fun s => { s with closed := true }
  call o .closeAbandoned

def commit : Action Unit := do
  onSession fun s => { s with committed := true }
  call o .commit
  onSession fun s => { s with closed := true }
  call o .close

def openSession : Action Unit := do
  call o .createSession
  call o .openSession
  modify fun w => { w with session := some ⟨[], false, false, false⟩ }

def download (update : Update) : Action Unit := do
  emitProgress o .emitFetching (.downloading 0 0) true
  call o .connectFile
  require (o.fileCode == 200) (.io (text "Update could not be fetched: " ++ valueOf o.fileCode))
  emitProgress o .emitTotal (.downloading 0 o.contentLength) true
  openSession o
  tryCatch (transfer P o update) fun e => do
    abandon o
    throw e
  commit o

def proceed : Option Update → Action Unit
  | none => emitProgress o .emitComplete .complete false
  | some update => do
    let current ← lift (currentVersion B)
    if update.version.compareTo current ≤ 0 then emitProgress o .emitComplete .complete false
    else download P o update

def downloadAndUpdate : Action Unit := do
  call o .registerReceiver
  emitProgress o .emitRechecking .rechecking false
  let update ← checkForUpdates P B o
  proceed P B o update

/-! ## What is known of the session -/

variable {P B o}

/-- A statement about the session and the digest only. -/
def On (φ : Option InstallSession → Bytes → Prop) (w : World) : Prop := φ w.session w.digested

/-- There is an open session, of which the statement holds. -/
def InSession (ψ : InstallSession → Bytes → Prop) : World → Prop := On fun s d => ∃ t, s = some t ∧ ψ t d

/-- Nothing has been opened or read. -/
def Unopened : World → Prop := On fun s d => s = none ∧ d = []

variable {φ : Option InstallSession → Bytes → Prop} {ψ ψ' : InstallSession → Bytes → Prop}

theorem keeps_call {p : Point} : Keeps (On φ) (call o p) := Keeps.require

theorem keeps_emit {progress : Progress} {force : Bool} : Keeps (On φ) (emit progress force) :=
  Triple.modify fun w hw => by
    split
    · exact hw
    · exact hw

theorem keeps_emitProgress {p : Point} {progress : Progress} {force : Bool} :
    Keeps (On φ) (emitProgress o p progress force) :=
  Triple.bind keeps_emit fun _ => keeps_call

theorem keeps_emitDownloading {c : Chunk} : Keeps (On φ) (emitDownloading o c) :=
  Triple.read fun _ _ => Triple.bind keeps_emit fun _ => Keeps.require

theorem keeps_checkSize : Keeps (On φ) checkSize := Triple.read fun _ _ => Keeps.require

theorem keeps_count {c : Chunk} : Keeps (On φ) (count c) := Triple.modify fun _ hw => hw

theorem onSession_triple {f : InstallSession → InstallSession} {E : Throwable → World → Prop}
    (h : ∀ t d, ψ t d → ψ' (f t) d) :
    Triple (InSession ψ) (onSession f) (fun _ => InSession ψ') E := by
  refine Triple.modify ?_
  rintro w ⟨t, hs, ht⟩
  exact ⟨f t, congrArg (Option.map f) hs, h t _ ht⟩

/-! ## The transfer -/

/-- Neither committed nor abandoned. -/
def Pending (t : InstallSession) (_ : Bytes) : Prop := t.committed = false ∧ t.abandoned = false

/-- The session has what went into the digest, but for the given bytes. -/
def Lacks (bytes : Bytes) (t : InstallSession) (digested : Bytes) : Prop :=
  Pending t digested ∧ t.written ++ bytes = digested

/-- The session has bytes of the hash of the update. -/
def Hashed (P : Platform) (update : Update) (t : InstallSession) (d : Bytes) : Prop :=
  Pending t d ∧ P.sha256 t.written = update.hash

theorem pending_of_lacks {bytes : Bytes} (w : World) (h : InSession (Lacks bytes) w) :
    InSession Pending w := by
  obtain ⟨t, hs, hpending, -⟩ := h
  exact ⟨t, hs, hpending⟩

theorem updateDigest_triple {bytes : Bytes} :
    Triple (InSession (Lacks [])) (updateDigest bytes) (fun _ => InSession (Lacks bytes))
      fun _ => InSession Pending := by
  refine Triple.modify ?_
  rintro w ⟨t, hs, hpending, hwritten⟩
  rw [List.append_nil] at hwritten
  exact ⟨t, hs, hpending, congrArg (· ++ bytes) hwritten⟩

theorem write_triple {c : Chunk} :
    Triple (InSession (Lacks c.bytes.val)) (write c) (fun _ => InSession (Lacks []))
      fun _ => InSession Pending := by
  unfold write
  cases hcut : c.cutOff with
  | none =>
    refine Triple.bind (onSession_triple fun t d ht => ?_) fun _ =>
      Triple.require (fun _ hw _ => hw) fun w hw _ => pending_of_lacks w hw
    exact ⟨ht.1, (List.append_nil _).trans ht.2⟩
  | some n =>
    exact Triple.bind (onSession_triple fun t d ht => ht.1) fun _ =>
      Triple.require (fun _ _ hfalse => nomatch hfalse) fun _ hw _ => hw

/-- Chunk by chunk, the session gets the bytes that go into the digest. -/
theorem transferChunks_triple (cs : List Chunk) :
    Triple (InSession (Lacks [])) (transferChunks o cs) (fun _ => InSession (Lacks []))
      fun _ => InSession Pending := by
  induction cs with
  | nil => exact keeps_call.triple pending_of_lacks
  | cons c cs ih =>
    refine Triple.ite (fun _ => Triple.pure fun _ => id) fun _ => ?_
    exact Triple.bind updateDigest_triple fun _ => Triple.bind write_triple fun _ =>
      Triple.bind (keeps_count.triple pending_of_lacks) fun _ =>
      Triple.bind (keeps_emitDownloading.triple pending_of_lacks) fun _ =>
      Triple.bind (keeps_checkSize.triple pending_of_lacks) fun _ => ih

theorem checkHash_triple {update : Update} :
    Triple (InSession (Lacks [])) (checkHash P update) (fun _ => InSession (Hashed P update))
      fun _ => InSession Pending := by
  refine Triple.get fun w hw => Triple.require ?_ fun _ heq _ => heq ▸ pending_of_lacks w hw
  rintro _ rfl hhash
  obtain ⟨t, hs, hpending, hwritten⟩ := hw
  rw [List.append_nil] at hwritten
  exact ⟨t, hs, hpending, hwritten ▸ beq_iff_eq.mp hhash⟩

/-- After a transfer that returns, the session holds bytes of the expected hash. -/
theorem transfer_triple {update : Update} :
    Triple (InSession (Lacks [])) (transfer P o update) (fun _ => InSession (Hashed P update))
      fun _ => InSession Pending :=
  Triple.bind (keeps_call.triple pending_of_lacks) fun _ =>
    Triple.bind (keeps_call.triple pending_of_lacks) fun _ =>
    Triple.bind (transferChunks_triple _) fun _ =>
    Triple.bind (keeps_call.triple pending_of_lacks) fun _ =>
    Triple.bind (keeps_call.triple pending_of_lacks) fun _ =>
    Triple.bind (keeps_emitProgress.triple pending_of_lacks) fun _ => checkHash_triple

/-! ## The end of the session -/

def Abandoned (t : InstallSession) (_ : Bytes) : Prop := t.committed = false ∧ t.abandoned = true

/-- Committed with bytes of the hash of the update. -/
def Committed (P : Platform) (update : Update) (t : InstallSession) (_ : Bytes) : Prop :=
  t.committed = true ∧ t.abandoned = false ∧ P.sha256 t.written = update.hash

theorem abandon_triple :
    Triple (InSession Pending) (abandon o) (fun _ => InSession Abandoned) fun _ => InSession Abandoned :=
  Triple.bind (onSession_triple fun _ _ ht => ⟨ht.1, rfl⟩) fun _ => Triple.bind keeps_call fun _ =>
    Triple.bind (onSession_triple fun _ _ ht => ht) fun _ => keeps_call

theorem commit_triple {update : Update} :
    Triple (InSession (Hashed P update)) (commit o) (fun _ => InSession (Committed P update))
      fun _ => InSession (Committed P update) :=
  Triple.bind (onSession_triple fun _ _ ht => ⟨rfl, ht.1.2, ht.2⟩) fun _ => Triple.bind keeps_call fun _ =>
    Triple.bind (onSession_triple fun _ _ ht => ht) fun _ => keeps_call

/-- The three ways in which a call may leave its session. -/
def Ended (P : Platform) (update : Update) (w : World) : Prop :=
  Unopened w ∨ InSession Abandoned w ∨ InSession (Committed P update) w

theorem openSession_triple :
    Triple Unopened (openSession o) (fun _ => InSession (Lacks [])) fun _ => Unopened := by
  refine Triple.bind keeps_call fun _ => Triple.bind keeps_call fun _ => Triple.modify ?_
  rintro w ⟨-, hdigested⟩
  exact ⟨_, rfl, ⟨rfl, rfl⟩, hdigested.symm⟩

/-- The `try` with its `finally` block. -/
theorem tryTransfer_triple {update : Update} :
    Triple (InSession (Lacks []))
      (tryCatch (transfer P o update) fun e => do
        abandon o
        throw e)
      (fun _ => InSession (Hashed P update)) fun _ => InSession Abandoned :=
  Triple.tryCatch transfer_triple fun _ =>
    Triple.bind abandon_triple fun _ => Triple.throw fun _ => id

theorem download_triple {update : Update} :
    Triple Unopened (download P o update) (fun _ => Ended P update) fun _ => Ended P update := by
  have hunopened : ∀ w, Unopened w → Ended P update w := fun _ => .inl
  have hcommitted : ∀ w, InSession (Committed P update) w → Ended P update w := fun _ hw => .inr (.inr hw)
  refine Triple.bind (keeps_emitProgress.triple hunopened) fun _ =>
    Triple.bind (keeps_call.triple hunopened) fun _ =>
    Triple.bind (Keeps.require.triple hunopened) fun _ =>
    Triple.bind (keeps_emitProgress.triple hunopened) fun _ => ?_
  refine Triple.bind (openSession_triple.consequence (fun _ => id) (fun _ _ => id) fun _ => hunopened) fun _ => ?_
  refine Triple.bind
    (tryTransfer_triple.consequence (fun _ => id) (fun _ _ => id) fun _ _ hw => .inr (.inl hw)) fun _ => ?_
  exact commit_triple.consequence (fun _ => id) (fun _ => hcommitted) fun _ => hcommitted

/-! ## The whole call -/

/-- The update is an entry of a list that is signed with the release key, no entry of that list has a
higher version, and its version is higher than the current one. -/
structure Approved (P : Platform) (B : BuildConfig) (signifyDigest : JString) (u : Update) : Prop where
  listed : ∃ files, SignedList P signifyDigest files ∧
    (∃ line ∈ fileLines files, IsEntry B line u) ∧
    ∀ line ∈ fileLines files, ∀ v, IsEntry B line v → v.version.padded ≤ u.version.padded
  newer : ∃ current, Version.ofString B.versionName = some current ∧ current.padded < u.version.padded

/-- The file list, as the text that is checked. -/
def Outcomes.signifyDigest (o : Outcomes) (P : Platform) : JString := P.decodeToString o.fileList.val

/-- The choice is the highest entry of a signed list. -/
theorem listed_of_maxByVersion {signifyDigest : JString} {updates : List Update} {u : Update}
    (h : verifySignedFileList P B signifyDigest = .ok updates) (hu : maxByVersion updates = some u) :
    ∃ files, SignedList P signifyDigest files ∧ (∃ line ∈ fileLines files, IsEntry B line u) ∧
      ∀ line ∈ fileLines files, ∀ v, IsEntry B line v → v.version.padded ≤ u.version.padded := by
  obtain ⟨files, hsigned, hfiles⟩ := verifySignedFileList_eq_ok h
  obtain ⟨hmem, hmax⟩ := maxByVersion_spec hu
  exact ⟨files, hsigned, (mem_updates hfiles u).mp hmem, fun line hline v hv =>
    hmax v ((mem_updates hfiles v).mpr ⟨line, hline, hv⟩)⟩

/-- After the check nothing is open, and an update that was found is the choice from the list. -/
theorem checkForUpdates_triple :
    Triple Unopened (checkForUpdates P B o)
      (fun found w => Unopened w ∧ ∃ updates, verifySignedFileList P B (o.signifyDigest P) = .ok updates ∧
        maxByVersion updates = found)
      fun _ => Unopened :=
  Triple.bind keeps_call fun _ => Triple.bind Keeps.require fun _ => Triple.bind keeps_call fun _ =>
    Triple.bind Keeps.require fun _ => Triple.bind keeps_call fun _ =>
    Triple.bind (Triple.lift (fun _ _ hw hok => And.intro hw hok) fun _ _ hw _ => hw) fun updates =>
    Triple.pure fun _ hw => ⟨hw.1, updates, hw.2, rfl⟩

/-- How a call may leave its session: not opened, abandoned, or committed with the bytes of an approved
update. -/
def Safe (P : Platform) (B : BuildConfig) (o : Outcomes) (w : World) : Prop :=
  Unopened w ∨ InSession Abandoned w ∨
    ∃ update, Approved P B (o.signifyDigest P) update ∧ InSession (Committed P update) w

theorem safe_of_ended {update : Update} (h : Approved P B (o.signifyDigest P) update) (w : World)
    (hw : Ended P update w) : Safe P B o w :=
  hw.imp_right (.imp_right fun hcommitted => ⟨update, h, hcommitted⟩)

theorem currentVersion_eq_ok {v : Version} (h : currentVersion B = .ok v) :
    Version.ofString B.versionName = some v := by
  unfold currentVersion at h
  cases hparse : Version.ofString B.versionName with
  | none =>
    rw [hparse] at h
    cases h
  | some current =>
    rw [hparse] at h
    cases h
    rfl

theorem proceed_triple {updates : List Update}
    (h : verifySignedFileList P B (o.signifyDigest P) = .ok updates) :
    Triple Unopened (proceed P B o (maxByVersion updates)) (fun _ => Safe P B o) fun _ => Safe P B o := by
  have hcomplete : Triple Unopened (emitProgress o .emitComplete .complete false) (fun _ => Safe P B o)
      fun _ => Safe P B o :=
    Triple.consequence keeps_emitProgress (fun _ => id) (fun _ _ => .inl) fun _ _ => .inl
  cases hu : maxByVersion updates with
  | none => exact hcomplete
  | some update =>
    refine Triple.bind (Triple.lift (fun _ _ hw hok => And.intro hw hok) fun _ _ hw _ => .inl hw) fun current => ?_
    refine Triple.ite (fun _ => hcomplete.consequence (fun _ hw => hw.1) (fun _ _ => id) fun _ _ => id) fun hnew => ?_
    intro w hw
    have happroved : Approved P B (o.signifyDigest P) update :=
      ⟨listed_of_maxByVersion h hu, current, currentVersion_eq_ok hw.2,
        not_le.mp fun hle => hnew (Version.compareTo_nonpos_iff.mpr hle)⟩
    exact download_triple.consequence (fun _ => id) (fun _ => safe_of_ended happroved)
      (fun _ => safe_of_ended happroved) w hw.1

theorem downloadAndUpdate_triple :
    Triple Unopened (downloadAndUpdate P B o) (fun _ => Safe P B o) fun _ => Safe P B o := by
  have hunopened : ∀ w, Unopened w → Safe P B o w := fun _ => .inl
  refine Triple.bind (keeps_call.triple hunopened) fun _ =>
    Triple.bind (keeps_emitProgress.triple hunopened) fun _ =>
    Triple.bind (checkForUpdates_triple.consequence (fun _ => id) (fun _ _ => id) fun _ => hunopened) fun found => ?_
  rintro w ⟨hw, updates, hupdates, rfl⟩
  exact proceed_triple hupdates w hw

/-- A platform on which every signature is good, with a hash that counts. -/
def samplePlatform : Platform where
  decodeBase64 s :=
    if s = releasePublicKeyBase64 then some ([0x45, 0x64] ++ List.replicate 40 0)
    else some ([0x45, 0x64] ++ List.replicate 72 0)
  decodeToString bs := bs.map UInt8.toUInt16
  verify _ _ _ := true
  sha256 bs := List.replicate 31 0 ++ [UInt8.ofNat bs.length]

def sampleList : Bytes :=
  ascii (text "untrusted comment: release\nsignature\n" ++ List.replicate 63 (unit '0') ++ text "3  app-1.10.apk\n")

/-- A download of three bytes in two chunks. -/
def sampleOutcomes (throws : Point → Bool) : Outcomes where
  throws := throws
  listCode := 200
  listMessage := text "OK"
  fileList := ⟨sampleList, by decide +kernel⟩
  fileCode := 200
  contentLength := 3
  chunks := [⟨⟨[1, 2], by decide⟩, none, true⟩, ⟨⟨[3], by decide⟩, none, true⟩]

example :
    (exec (downloadAndUpdate samplePlatform ⟨text "app", text "1.9"⟩ (sampleOutcomes fun _ => false))
      (World.start .available)).2.session = some ⟨[1, 2, 3], false, true, true⟩ := by
  decide +kernel

example :
    (exec (downloadAndUpdate samplePlatform ⟨text "app", text "1.9"⟩ (sampleOutcomes (· = .read)))
      (World.start .available)).2.session = some ⟨[1, 2, 3], true, false, true⟩ := by
  decide +kernel

end WgAndroid.Updater
