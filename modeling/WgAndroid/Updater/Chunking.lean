import WgAndroid.Updater.Session

/-!
# The file list in pieces

`checkForUpdates` takes what one `read` returns for the whole file list. The stream may hold back the
rest, and then the list is cut off.

Results:
1. `checked_short`, `checked_long`: what is found in a list, by its line breaks.
2. `checked_eq_iff`: when a list that is cut off gives the same result.
3. `checkForUpdates_chunks_iff`: when the check does not depend on how the body arrives.
-/

namespace WgAndroid.Updater

open Checked Routine

/-! ## The stream -/

/-- What the first `read` puts into the buffer of 512 KiB; nothing at the end of the stream. -/
def firstRead (chunks : List Bytes) : Bytes := (chunks.headD []).take (1024 * 512)

theorem firstRead_length_le (chunks : List Bytes) : (firstRead chunks).length ≤ 1024 * 512 :=
  List.length_take_le ..

/-- The body of the response arrives in these pieces. -/
def Outcomes.receiving (o : Outcomes) (chunks : List Bytes) : Outcomes :=
  { o with fileList := ⟨firstRead chunks, firstRead_length_le chunks⟩ }

/-! ## Line breaks -/

def lineFeed : UInt8 := 0x0A

/-- `decodeToString` as documented for UTF-8: a line feed stands for itself, and nothing else does for
it. -/
structure Platform.LawfulDecode (P : Platform) : Prop where
  lineFeed : ∀ x y, P.decodeToString (x ++ lineFeed :: y) = P.decodeToString x ++ LF :: P.decodeToString y
  no_lineFeed : ∀ x, Updater.lineFeed ∉ x → LF ∉ P.decodeToString x

theorem splitFirst_of_not_mem {s : JString} (h : LF ∉ s) : splitFirst [LF] s = none := by
  induction s with
  | nil => rfl
  | cons c s ih =>
    rw [List.mem_cons, not_or] at h
    rw [splitFirst, if_neg (by simpa [List.isPrefixOf] using h.1), ih h.2]
    rfl

theorem splitFirst_append {first rest : JString} (h : LF ∉ first) :
    splitFirst [LF] (first ++ LF :: rest) = some (first, rest) := by
  induction first with
  | nil => simp [splitFirst, List.isPrefixOf]
  | cons c first ih =>
    rw [List.mem_cons, not_or] at h
    rw [List.cons_append, splitFirst, if_neg (by simpa [List.isPrefixOf] using h.1), ih h.2]
    rfl

/-- A text has no line feed, one, or two and more. -/
theorem lineFeed_cases (bs : Bytes) :
    lineFeed ∉ bs ∨ (∃ x y, bs = x ++ lineFeed :: y ∧ lineFeed ∉ x ∧ lineFeed ∉ y) ∨
      ∃ x y z, bs = x ++ lineFeed :: (y ++ lineFeed :: z) ∧ lineFeed ∉ x ∧ lineFeed ∉ y := by
  by_cases hbs : lineFeed ∈ bs
  · obtain ⟨x, rest, rfl, hx⟩ := List.eq_append_cons_of_mem hbs
    by_cases hrest : lineFeed ∈ rest
    · obtain ⟨y, z, rfl, hy⟩ := List.eq_append_cons_of_mem hrest
      exact .inr (.inr ⟨x, y, z, rfl, hx, hy⟩)
    · exact .inr (.inl ⟨x, rest, rfl, hx, hrest⟩)
  · exact .inl hbs

theorem exists_three_lines {bs : Bytes} (h : ¬ bs.count lineFeed < 2) :
    ∃ x y z, bs = x ++ lineFeed :: (y ++ lineFeed :: z) ∧ lineFeed ∉ x ∧ lineFeed ∉ y := by
  rcases lineFeed_cases bs with hnone | ⟨x, y, rfl, hx, hy⟩ | hlines
  · rw [List.count_eq_zero.mpr hnone] at h
    exact absurd (by decide) h
  · rw [List.count_append, List.count_cons_self, List.count_eq_zero.mpr hx, List.count_eq_zero.mpr hy] at h
    exact absurd (by decide) h
  · exact hlines

/-! ## The checks -/

section Checks

variable (P : Platform) (B : BuildConfig)

/-- The public key, and its check. -/
def publicKey : Except Throwable Bytes := do
  let publicKeyBytes ← decode P releasePublicKeyBase64
  check (publicKeyBytes.length == 32 + 10 && publicKeyBytes.take 2 == [0x45, 0x64])
    (.invalidKey (text "Invalid public key"))
  pure publicKeyBytes

/-- The checks of the two lines before the file list, with the signature that they give. -/
def checkHeader (publicKeyBytes : Bytes) (comment signature : JString) : Except Throwable Bytes := do
  check ((text "untrusted comment: ").isPrefixOf comment)
    (.invalidParameter (text "Invalid signature format: missing comment"))
  let signatureBytes ← decode P signature
  check (signatureBytes.length == 64 + 10)
    (.invalidParameter (text "Invalid signature format: wrong sized or missing signature"))
  check (signatureBytes.take 10 == publicKeyBytes.take 10)
    (.invalidParameter (text "Invalid signature format: wrong signer"))
  pure (signatureBytes.drop 10)

/-- The file list is signed. -/
def signed (publicKeyBytes signature : Bytes) (files : JString) : Bool :=
  P.verify (getBytes files) signature (publicKeyBytes.drop 10)

/-- The choice from a file list. -/
def choice (files : JString) : Except Throwable (Option Update) := (parseFiles B files).map maxByVersion

/-- What `checkForUpdates` returns or throws for a body. -/
def checked (body : Bytes) : Except Throwable (Option Update) :=
  (verifySignedFileList P B (P.decodeToString body)).map maxByVersion

def tooFewLines : Throwable := .invalidParameter (text "Invalid signature format: too few lines")

def invalidSignature : Throwable := .security (text "Invalid signature")

variable {P B}

theorem map_bind {α β γ : Type} {x : Except Throwable α} {f : α → Except Throwable β} {g : β → γ} :
    (x >>= f).map g = x >>= fun a => (f a).map g := by
  cases x <;> rfl

theorem verify_of_parts {t comment signature files : JString}
    (h : splitLimited [LF] 2 t = [comment, signature, files]) : verifySignedFileList P B t = (do
      let publicKeyBytes ← publicKey P
      verifyParts P publicKeyBytes comment signature files
      parseFiles B files) := by
  unfold verifySignedFileList publicKey
  rw [h]
  simp only [bind_assoc, pure_bind]

theorem verify_of_short {t : JString} (h : (splitLimited [LF] 2 t).length < 3) :
    verifySignedFileList P B t = publicKey P >>= fun _ => .error tooFewLines := by
  unfold verifySignedFileList publicKey
  simp only [bind_assoc, pure_bind]
  split
  · next hparts =>
    rw [hparts] at h
    exact absurd h (Nat.lt_irrefl 3)
  · rfl

theorem verifyParts_eq {publicKeyBytes : Bytes} {comment signature files : JString} :
    verifyParts P publicKeyBytes comment signature files = (do
      let signature ← checkHeader P publicKeyBytes comment signature
      check (signed P publicKeyBytes signature files) invalidSignature) := by
  unfold verifyParts checkHeader
  simp only [bind_assoc, pure_bind]
  rfl

variable (hP : P.LawfulDecode)
include hP

theorem checked_short {body : Bytes} (h : body.count lineFeed < 2) :
    checked P B body = publicKey P >>= fun _ => .error tooFewLines := by
  have hshort : (splitLimited [LF] 2 (P.decodeToString body)).length < 3 := by
    rcases lineFeed_cases body with hnone | ⟨x, y, rfl, hx, hy⟩ | ⟨x, y, z, rfl, -, -⟩
    · rw [splitLimited, splitFirst_of_not_mem (hP.no_lineFeed _ hnone)]
      exact (by decide : 1 < 3)
    · rw [hP.lineFeed, splitLimited, splitFirst_append (hP.no_lineFeed _ hx)]
      dsimp only
      rw [splitLimited, splitFirst_of_not_mem (hP.no_lineFeed _ hy)]
      exact (by decide : 2 < 3)
    · rw [List.count_append, List.count_cons_self, List.count_append, List.count_cons_self] at h
      omega
  rw [checked, verify_of_short hshort, map_bind]
  rfl

theorem checked_long {x y z : Bytes} (hx : lineFeed ∉ x) (hy : lineFeed ∉ y) :
    checked P B (x ++ lineFeed :: (y ++ lineFeed :: z)) = (do
      let publicKeyBytes ← publicKey P
      let signature ← checkHeader P publicKeyBytes (P.decodeToString x) (P.decodeToString y)
      check (signed P publicKeyBytes signature (P.decodeToString z)) invalidSignature
      choice B (P.decodeToString z)) := by
  have hparts : splitLimited [LF] 2 (P.decodeToString (x ++ lineFeed :: (y ++ lineFeed :: z))) =
      [P.decodeToString x, P.decodeToString y, P.decodeToString z] := by
    rw [hP.lineFeed, hP.lineFeed, splitLimited, splitFirst_append (hP.no_lineFeed _ hx)]
    dsimp only
    rw [splitLimited, splitFirst_append (hP.no_lineFeed _ hy)]
    rfl
  rw [checked, verify_of_parts hparts]
  simp only [verifyParts_eq, map_bind, bind_assoc]
  rfl

omit hP

/-- The errors of the file list are its own. -/
theorem choice_error {files : JString} {e : Throwable} (h : choice B files = .error e) :
    e ≠ invalidSignature ∧ e ≠ tooFewLines := by
  obtain ⟨_, line, _, updates, -, -, hline⟩ := foldlM_eq_error.mp (map_eq_error.mp h)
  unfold addLine at hline
  split at hline
  · split at hline
    · have hdigest := map_eq_error.mp hline
      unfold sha256Digest at hdigest
      split at hdigest
      · cases hdigest
        decide
      · cases hbytes : hexBytes _ with
        | none =>
          rw [hbytes] at hdigest
          cases hdigest
          decide
        | some bs =>
          rw [hbytes] at hdigest
          cases hdigest
    · cases hline
  · cases hline
    decide

theorem check_error {c : Bool} {e e' : Throwable} (h : check c e = .error e') : e' = e := by
  unfold check at h
  split at h
  · cases h
  · exact (Except.error.inj h).symm

theorem decode_error {t : JString} {e : Throwable} (h : decode P t = .error e) : e = .badBase64 := by
  unfold decode at h
  cases hbytes : P.decodeBase64 t with
  | none =>
    rw [hbytes] at h
    exact (Except.error.inj h).symm
  | some bs =>
    rw [hbytes] at h
    cases h

theorem checkHeader_error {publicKeyBytes : Bytes} {comment signature : JString} {e : Throwable}
    (h : checkHeader P publicKeyBytes comment signature = .error e) : e ≠ tooFewLines := by
  unfold checkHeader at h
  rcases bind_eq_error.mp h with h | ⟨-, -, h⟩
  · rw [check_error h]
    decide
  rcases bind_eq_error.mp h with h | ⟨signatureBytes, -, h⟩
  · rw [decode_error h]
    decide
  rcases bind_eq_error.mp h with h | ⟨-, -, h⟩
  · rw [check_error h]
    decide
  rcases bind_eq_error.mp h with h | ⟨-, -, h⟩
  · rw [check_error h]
    decide
  · cases h

end Checks

/-! ## Lists that are cut off -/

/-- The rest of the body does not matter: the key of the release is bad, the body has too few lines, or
the two lines before the list are there and are rejected, or the signature is good for both lists, which
give the same choice, or for none. -/
def RestUnneeded (P : Platform) (B : BuildConfig) (first rest : Bytes) : Prop :=
  (∃ e, publicKey P = .error e) ∨ (first ++ rest).count lineFeed < 2 ∨
    ∃ x y z, first = x ++ lineFeed :: (y ++ lineFeed :: z) ∧ lineFeed ∉ x ∧ lineFeed ∉ y ∧
      ∀ key signature, publicKey P = .ok key →
        checkHeader P key (P.decodeToString x) (P.decodeToString y) = .ok signature →
          (signed P key signature (P.decodeToString z) = false ∧
            signed P key signature (P.decodeToString (z ++ rest)) = false) ∨
          (signed P key signature (P.decodeToString z) = true ∧
            signed P key signature (P.decodeToString (z ++ rest)) = true ∧
            choice B (P.decodeToString z) = choice B (P.decodeToString (z ++ rest)))

theorem append_rest {x y z rest : Bytes} : (x ++ lineFeed :: (y ++ lineFeed :: z)) ++ rest =
    x ++ lineFeed :: (y ++ lineFeed :: (z ++ rest)) := by
  simp

section CutOff

variable {P : Platform} {B : BuildConfig} {first rest : Bytes} (hP : P.LawfulDecode)
include hP

theorem checked_of_key_error {body : Bytes} {e : Throwable} (h : publicKey P = .error e) :
    checked P B body = .error e := by
  by_cases hcount : body.count lineFeed < 2
  · rw [checked_short hP hcount, h, error_bind]
  · obtain ⟨x, y, z, rfl, hx, hy⟩ := exists_three_lines hcount
    rw [checked_long hP hx hy, h, error_bind]

/-- A body of three lines is not rejected for too few. -/
theorem checked_long_ne {x y z key : Bytes} (hx : lineFeed ∉ x) (hy : lineFeed ∉ y)
    (hkey : publicKey P = .ok key) :
    checked P B (x ++ lineFeed :: (y ++ lineFeed :: z)) ≠ .error tooFewLines := by
  rw [checked_long hP hx hy, hkey, ok_bind]
  intro h
  rcases bind_eq_error.mp h with h | ⟨signature, -, h⟩
  · exact checkHeader_error h rfl
  rcases bind_eq_error.mp h with h | ⟨-, -, h⟩
  · exact absurd (check_error h) (by decide)
  · exact (choice_error h).2 rfl

theorem restUnneeded_of_checked_eq (h : checked P B first = checked P B (first ++ rest)) :
    RestUnneeded P B first rest := by
  cases hkey : publicKey P with
  | error e => exact .inl ⟨e, hkey⟩
  | ok key =>
    by_cases hcount : (first ++ rest).count lineFeed < 2
    · exact .inr (.inl hcount)
    · by_cases hfirst : first.count lineFeed < 2
      · obtain ⟨x, y, z, hbody, hx, hy⟩ := exists_three_lines hcount
        rw [checked_short hP hfirst, hkey, ok_bind, hbody] at h
        exact absurd h.symm (checked_long_ne hP hx hy hkey)
      · obtain ⟨x, y, z, rfl, hx, hy⟩ := exists_three_lines hfirst
        refine .inr (.inr ⟨x, y, z, rfl, hx, hy, fun key signature hkey hheader => ?_⟩)
        rw [append_rest, checked_long hP hx hy, checked_long hP hx hy, hkey, ok_bind, ok_bind, hheader,
          ok_bind, ok_bind] at h
        cases hsigned : signed P key signature (P.decodeToString z) <;>
          cases hsigned' : signed P key signature (P.decodeToString (z ++ rest)) <;>
          rw [hsigned, hsigned'] at h
        · exact .inl ⟨rfl, rfl⟩
        · exact absurd rfl (choice_error h.symm).1
        · exact absurd rfl (choice_error h).1
        · exact .inr ⟨rfl, rfl, h⟩

theorem checked_eq_of_restUnneeded (h : RestUnneeded P B first rest) :
    checked P B first = checked P B (first ++ rest) := by
  rcases h with ⟨e, hkey⟩ | hcount | ⟨x, y, z, rfl, hx, hy, h⟩
  · rw [checked_of_key_error hP hkey, checked_of_key_error hP hkey]
  · have hfirst : first.count lineFeed < 2 :=
      Nat.lt_of_le_of_lt (List.Sublist.count_le _ (List.sublist_append_left first rest)) hcount
    rw [checked_short hP hfirst, checked_short hP hcount]
  · rw [append_rest, checked_long hP hx hy, checked_long hP hx hy]
    cases hkey : publicKey P with
    | error e => rfl
    | ok key =>
      rw [ok_bind, ok_bind]
      cases hheader : checkHeader P key (P.decodeToString x) (P.decodeToString y) with
      | error e => rfl
      | ok signature =>
        rw [ok_bind, ok_bind]
        rcases h key signature hkey hheader with ⟨hsigned, hsigned'⟩ | ⟨hsigned, hsigned', hchoice⟩
        · rw [hsigned, hsigned']
          rfl
        · rw [hsigned, hsigned']
          exact hchoice

theorem checked_eq_iff : checked P B first = checked P B (first ++ rest) ↔ RestUnneeded P B first rest :=
  ⟨restUnneeded_of_checked_eq hP, checked_eq_of_restUnneeded hP⟩

end CutOff

/-! ## The check for updates -/

/-- The requests for the list, up to its checks. -/
def fetch (o : Outcomes) : Except Throwable Unit := do
  check (!o.throws .connectList) (.call .connectList)
  check (o.listCode == 200) (.io o.listMessage)
  check (!o.throws .readList) (.call .readList)
  check (!o.fileList.val.isEmpty) (.io (text "File list is empty"))
  check (!o.throws .closeList) (.call .closeList)

theorem exec_check_bind {α : Type} {c : Bool} {e : Throwable} {f : Unit → Action α} {w : World}
    {g : Unit → Except Throwable α} (h : exec (f ()) w = (g (), w)) :
    exec (require c e >>= f) w = (check c e >>= g, w) := by
  cases c with
  | false => rfl
  | true => exact h

theorem exec_lift_map {α β : Type} {x : Except Throwable α} {g : α → β} {w : World} :
    exec (lift x >>= fun a => pure (g a) : Action β) w = (x.map g, w) := by
  cases x <;> rfl

theorem exec_checkForUpdates {P : Platform} {B : BuildConfig} {o : Outcomes} {w : World} :
    exec (checkForUpdates P B o) w = (fetch o >>= fun _ => checked P B o.fileList.val, w) := by
  unfold fetch
  simp only [bind_assoc]
  exact exec_check_bind <| exec_check_bind <| exec_check_bind <| exec_check_bind <| exec_check_bind
    exec_lift_map

/-- A request that fails whatever is read. -/
def Outcomes.RequestFails (o : Outcomes) : Prop :=
  o.throws .connectList = true ∨ o.listCode ≠ 200 ∨ o.throws .readList = true ∨ o.throws .closeList = true

theorem fetch_eq_ok_iff {o : Outcomes} : fetch o = .ok () ↔ ¬ o.RequestFails ∧ o.fileList.val ≠ [] := by
  unfold fetch check Outcomes.RequestFails
  by_cases hconnect : o.throws .connectList <;> by_cases hcode : o.listCode = 200 <;>
    by_cases hread : o.throws .readList <;> by_cases hempty : o.fileList.val = [] <;>
    by_cases hclose : o.throws .closeList <;> simp [hconnect, hcode, hread, hempty, hclose]

/-- Only whether something was read matters for the requests. -/
theorem fetch_receiving {o : Outcomes} {chunks chunks' : List Bytes}
    (h : (firstRead chunks).isEmpty = (firstRead chunks').isEmpty) :
    fetch (o.receiving chunks) = fetch (o.receiving chunks') := by
  unfold fetch Outcomes.receiving
  rw [h]

theorem firstRead_of_le {c : Bytes} {cs : List Bytes} (h : c.length ≤ 1024 * 512) : firstRead (c :: cs) = c :=
  List.take_of_length_le h

/-- The check ends in the same way as if the body came at once, if and only if a request fails anyway or
the rest of the body does not matter. -/
theorem checkForUpdates_chunks_iff (P : Platform) (B : BuildConfig) (o : Outcomes) (w : World)
    (chunks : List Bytes) (hP : P.LawfulDecode) (hsize : chunks.flatten.length ≤ 1024 * 512)
    (hchunks : ∀ c ∈ chunks, c ≠ []) :
    exec (checkForUpdates P B (o.receiving chunks)) w =
        exec (checkForUpdates P B (o.receiving [chunks.flatten])) w ↔
      o.RequestFails ∨ RestUnneeded P B (chunks.headD []) chunks.tail.flatten := by
  cases chunks with
  | nil => exact iff_of_true rfl (.inr (.inr (.inl (by decide))))
  | cons c cs =>
    have hc : c ≠ [] := hchunks c List.mem_cons_self
    have hflat : (c :: cs).flatten = c ++ cs.flatten := List.flatten_cons
    rw [hflat] at hsize ⊢
    have hfirst : firstRead (c :: cs) = c :=
      firstRead_of_le (Nat.le_trans (List.sublist_append_left c cs.flatten).length_le hsize)
    have hwhole : firstRead [c ++ cs.flatten] = c ++ cs.flatten := firstRead_of_le hsize
    have hfetch : fetch (o.receiving (c :: cs)) = fetch (o.receiving [c ++ cs.flatten]) := by
      refine fetch_receiving ?_
      rw [hfirst, hwhole, List.isEmpty_eq_false_iff.mpr hc,
        List.isEmpty_eq_false_iff.mpr (List.append_ne_nil_of_left_ne_nil hc _)]
    rw [exec_checkForUpdates, exec_checkForUpdates, ← hfetch, Prod.mk.injEq, and_iff_left rfl]
    show _ >>= (fun _ => checked P B (firstRead (c :: cs))) =
      _ >>= (fun _ => checked P B (firstRead [c ++ cs.flatten])) ↔ _
    rw [hfirst, hwhole]
    by_cases hfails : o.RequestFails
    · have hnot : fetch (o.receiving (c :: cs)) ≠ .ok () := fun hok => (fetch_eq_ok_iff.mp hok).1 hfails
      refine iff_of_true ?_ (.inl hfails)
      cases hresult : fetch (o.receiving (c :: cs)) with
      | error e => rfl
      | ok u => exact absurd hresult hnot
    · have hok : fetch (o.receiving (c :: cs)) = .ok () := by
        refine fetch_eq_ok_iff.mpr ⟨hfails, ?_⟩
        show firstRead (c :: cs) ≠ []
        rwa [hfirst]
      rw [hok, ok_bind, ok_bind, or_iff_right hfails]
      exact checked_eq_iff hP

/-! ## A run -/

theorem samplePlatform_lawfulDecode : samplePlatform.LawfulDecode where
  lineFeed x y := by
    show (x ++ lineFeed :: y).map UInt8.toUInt16 = _
    rw [List.map_append, List.map_cons]
    rfl
  no_lineFeed x hx h := by
    obtain ⟨b, hb, hlf⟩ := List.mem_map.mp h
    have : b = lineFeed := by
      apply UInt8.toNat_inj.mp
      have hnat := congrArg UInt16.toNat hlf
      rwa [UInt8.toNat_toUInt16] at hnat
    exact hx (this ▸ hb)

/-- Two bytes without a line feed are rejected in the same way, one by one or at once. -/
theorem checkForUpdates_two_bytes :
    exec (checkForUpdates samplePlatform ⟨text "app", text "1.9"⟩
        ((sampleOutcomes fun _ => false).receiving [[0x61], [0x62]])) (World.start .available) =
      exec (checkForUpdates samplePlatform ⟨text "app", text "1.9"⟩
        ((sampleOutcomes fun _ => false).receiving [[0x61, 0x62]])) (World.start .available) :=
  (checkForUpdates_chunks_iff samplePlatform ⟨text "app", text "1.9"⟩ (sampleOutcomes fun _ => false)
    (World.start .available) [[0x61], [0x62]] samplePlatform_lawfulDecode (by decide) (by decide)).mpr
    (.inr (.inr (.inl (by decide))))

/-- A good list of which the first byte comes alone. -/
theorem checkForUpdates_cut_off :
    exec (checkForUpdates samplePlatform ⟨text "app", text "1.9"⟩
        ((sampleOutcomes fun _ => false).receiving [sampleList.take 1, sampleList.drop 1]))
        (World.start .available) =
      (.error (.invalidParameter (text "Invalid signature format: too few lines")), World.start .available) ∧
    exec (checkForUpdates samplePlatform ⟨text "app", text "1.9"⟩
        ((sampleOutcomes fun _ => false).receiving [sampleList])) (World.start .available) =
      (.ok (some ⟨text "app-1.10.apk", ⟨[1, 10]⟩, List.replicate 31 0 ++ [3]⟩), World.start .available) := by
  decide +kernel

end WgAndroid.Updater
