import Mathlib.Order.PiLex
import WgAndroid.Java.Utf8
import WgAndroid.Lib.Checked

/-!
# The signed list of updates

The first half of `Updater`: versions and their order, the signed file list with its format checks,
and the choice of an update from it. Base64, the Ed25519 check and the decoding of UTF-8 are what the
platform provides.

Results:
1. `Version.compareTo_neg_iff`, `Version.compareTo_nonpos_iff`: `compareTo` is the lexicographic order
   of the components, the shorter version padded with zeros.
2. `verifySignedFileList_eq_ok`: what a list that is returned has passed.
3. `mem_updates`: the updates are the entries of the lines.
4. `maxByVersion_spec`: the choice is an entry of the list with the highest version.
-/

namespace WgAndroid.Updater

open Checked

/-- The library calls that may throw, in the order of the code. -/
inductive Point where
  | registerReceiver
  | emitRechecking
  | connectList
  | readList
  | closeList
  | emitComplete
  | emitFetching
  | connectFile
  | emitTotal
  | createSession
  | openSession
  | openWrite
  | inputStream
  | read
  | write
  | emitDownloading
  | closeSource
  | closeDestination
  | emitInstalling
  | abandon
  | closeAbandoned
  | commit
  | close
  deriving DecidableEq

/-- What is thrown, with its message where the updater gives it one. -/
inductive Throwable where
  | invalidKey (message : JString)
  | invalidParameter (message : JString)
  | security (message : JString)
  | io (message : JString)
  | numberFormat
  | badBase64
  | call (p : Point)
  deriving DecidableEq

/-- What the updater takes from the platform. -/
structure Platform where
  decodeBase64 : JString → Option Bytes  -- none is an IllegalArgumentException
  decodeToString : Bytes → JString
  verify : Bytes → Bytes → Bytes → Bool  -- message, signature, public key
  sha256 : Bytes → Bytes

/-- The constants of the build. -/
structure BuildConfig where
  applicationId : JString
  versionName : JString

/-! ## Splitting -/

/-- The text before and after the first occurrence of a delimiter. -/
def splitFirst (delimiter : JString) : JString → Option (JString × JString)
  | [] => none
  | c :: s =>
    if delimiter.isPrefixOf (c :: s) then some ([], (c :: s).drop delimiter.length)
    else (splitFirst delimiter s).map fun p => (c :: p.1, p.2)

/-- `split` with a limit of one more than the number of cuts. -/
def splitLimited (delimiter : JString) : Nat → JString → List JString
  | 0, s => [s]
  | cuts + 1, s =>
    match splitFirst delimiter s with
    | some (first, rest) => first :: splitLimited delimiter cuts rest
    | none => [s]

theorem splitFirst_eq_some {delimiter s first rest : JString}
    (h : splitFirst delimiter s = some (first, rest)) : s = first ++ delimiter ++ rest := by
  induction s generalizing first with
  | nil => cases h
  | cons c s ih =>
    unfold splitFirst at h
    split at h
    · next hstarts =>
      cases h
      exact (List.prefix_iff_eq_append.mp (List.isPrefixOf_iff_prefix.mp hstarts)).symm
    · obtain ⟨⟨first', rest'⟩, hrest, heq⟩ := Option.map_eq_some_iff.mp h
      cases heq
      rw [ih hrest]
      rfl

theorem splitLimited_eq_cons_cons {delimiter s x y : JString} {cuts : Nat} {ys : List JString}
    (h : splitLimited delimiter (cuts + 1) s = x :: y :: ys) :
    ∃ rest, s = x ++ delimiter ++ rest ∧ splitLimited delimiter cuts rest = y :: ys := by
  unfold splitLimited at h
  split at h
  · next first rest hsplit =>
    obtain ⟨rfl, hrest⟩ := List.cons.inj h
    exact ⟨rest, splitFirst_eq_some hsplit, hrest⟩
  · cases h

/-! ## Versions -/

/-- `String.toULong()`. The overflow test of the library rejects exactly the values of more than 64
bits. -/
def toULong (s : JString) : Option UInt64 := do
  let c ← s.head?
  let n ← if c < unit '0' then if c = unit '+' then magnitude s.tail else none else magnitude s
  if n < 2 ^ 64 then some (UInt64.ofNat n) else none

/-- `Version` -/
structure Version where
  parts : List UInt64
  deriving DecidableEq

namespace Version

/-- The constructor; `none` is a component that is not a number. A split never has no parts. -/
def ofString (version : JString) : Option Version :=
  ((version.splitOn (unit '.')).mapM toULong).map Version.mk

/-- The component that `compareTo` looks at. -/
def part (v : Version) (i : Nat) : UInt64 := v.parts[i]?.getD 0

/-- The loop of `compareTo` over the indices that are left. -/
def compareAt (a b : Version) : List Nat → Int
  | [] => 0
  | i :: is =>
    if a.part i > b.part i then 1
    else if a.part i < b.part i then -1
    else compareAt a b is

def compareTo (a b : Version) : Int :=
  compareAt a b (List.range (max a.parts.length b.parts.length))

/-- The version as a sequence of numbers, zero from some index on, in lexicographic order. -/
noncomputable def padded (v : Version) : Lex (ℕ → ℕ) := toLex fun i => (v.part i).toNat

variable {a b c : Version}

theorem padded_lt {i : Nat} (heq : ∀ j < i, a.part j = b.part j) (hlt : a.part i < b.part i) :
    a.padded < b.padded :=
  ⟨i, fun j hj => congrArg UInt64.toNat (heq j hj), UInt64.lt_iff_toNat_lt.mp hlt⟩

/-- The loop from an index on, when the components below it agree. -/
theorem compareAt_range' {i n : Nat} (heq : ∀ j < i, a.part j = b.part j) :
    compareAt a b (List.range' i n) = 1 ∧ b.padded < a.padded ∨
      compareAt a b (List.range' i n) = -1 ∧ a.padded < b.padded ∨
      compareAt a b (List.range' i n) = 0 ∧ ∀ j < i + n, a.part j = b.part j := by
  induction n generalizing i with
  | zero => exact .inr (.inr ⟨rfl, heq⟩)
  | succ n ih =>
    rw [List.range'_succ]
    unfold compareAt
    split_ifs with hgt hlt
    · exact .inl ⟨rfl, padded_lt (fun j hj => (heq j hj).symm) hgt⟩
    · exact .inr (.inl ⟨rfl, padded_lt heq hlt⟩)
    · have hi : a.part i = b.part i := by
        rw [← UInt64.toNat_inj]
        simp only [gt_iff_lt, UInt64.lt_iff_toNat_lt] at hgt hlt
        omega
      have heq' : ∀ j < i + 1, a.part j = b.part j := by
        intro j hj
        rcases Nat.lt_succ_iff_lt_or_eq.mp hj with hj | rfl
        · exact heq j hj
        · exact hi
      have := ih heq'
      rwa [Nat.add_right_comm, Nat.add_assoc] at this

theorem compareTo_cases (a b : Version) :
    a.compareTo b = 1 ∧ b.padded < a.padded ∨ a.compareTo b = -1 ∧ a.padded < b.padded ∨
      a.compareTo b = 0 ∧ a.padded = b.padded := by
  unfold compareTo
  rw [List.range_eq_range']
  rcases compareAt_range' (a := a) (b := b) (i := 0) (n := max a.parts.length b.parts.length) nofun
    with h | h | ⟨hzero, heq⟩
  · exact .inl h
  · exact .inr (.inl h)
  · refine .inr (.inr ⟨hzero, congrArg toLex (funext fun j => ?_)⟩)
    -- past the end of both versions there are only zeros
    by_cases hj : j < max a.parts.length b.parts.length
    · exact congrArg UInt64.toNat (heq j (by rwa [Nat.zero_add]))
    · unfold part
      rw [List.getElem?_eq_none (le_trans (le_max_left ..) (not_lt.mp hj)),
        List.getElem?_eq_none (le_trans (le_max_right ..) (not_lt.mp hj))]

theorem compareTo_neg_iff : a.compareTo b < 0 ↔ a.padded < b.padded := by
  rcases compareTo_cases a b with ⟨h, hlt⟩ | ⟨h, hlt⟩ | ⟨h, heq⟩ <;> rw [h]
  · exact iff_of_false (by decide) hlt.not_gt
  · exact iff_of_true (by decide) hlt
  · exact iff_of_false (by decide) heq.not_lt

theorem compareTo_nonpos_iff : a.compareTo b ≤ 0 ↔ a.padded ≤ b.padded := by
  rcases compareTo_cases a b with ⟨h, hlt⟩ | ⟨h, hlt⟩ | ⟨h, heq⟩ <;> rw [h]
  · exact iff_of_false (by decide) hlt.not_ge
  · exact iff_of_true (by decide) hlt.le
  · exact iff_of_true (by decide) heq.le

end Version

/-! ## Hashes -/

/-- `Character.digit(c, 16)`: decimal digits of any script, and Latin letters of either width. -/
def hexDigit (c : UInt16) : Option Nat :=
  (digit c).or <|
    if inRange 'a' 'f' c then some (c.toNat - 'a'.toNat + 10)
    else if inRange 'A' 'F' c then some (c.toNat - 'A'.toNat + 10)
    else if 0xFF21 ≤ c ∧ c ≤ 0xFF26 then some (c.toNat - 0xFF21 + 10)
    else if 0xFF41 ≤ c ∧ c ≤ 0xFF46 then some (c.toNat - 0xFF41 + 10)
    else none

/-- `toInt(16).toByte()` of two characters, the first of which may be a sign. -/
def hexByte (c d : UInt16) : Option UInt8 := do
  let low ← hexDigit d
  if c = unit '-' then some (UInt8.ofInt (-low))
  else if c = unit '+' then some (UInt8.ofNat low)
  else (hexDigit c).map fun high => UInt8.ofNat (high * 16 + low)

/-- `chunked(2)` and the conversion of each chunk. -/
def hexBytes : JString → Option Bytes
  | c :: d :: s => do
    let b ← hexByte c d
    let bs ← hexBytes s
    return b :: bs
  | [] => some []
  | [_] => none

/-- `Sha256Digest`: its bytes. -/
def sha256Digest (hex : JString) : Except Throwable Bytes :=
  if hex.length ≠ 64 then .error (.invalidParameter (text "SHA256 hashes must be 32 bytes long"))
  else (hexBytes hex).elim (.error .numberFormat) .ok

/-! ## The file list -/

/-- `Update` -/
structure Update where
  fileName : JString
  version : Version
  hash : Bytes
  deriving DecidableEq

def apkNamePrefix (B : BuildConfig) : JString := B.applicationId ++ text "-"

def apkNameSuffix : JString := text ".apk"

def releasePublicKeyBase64 : JString :=
  text "RWTAzwGRYr3EC9px0Ia3fbttz8WcVN6wrOwWp2delz4el6SI8XmkKSMp"

/-- `versionOfFile`: what the constructor throws counts as no version. -/
def versionOfFile (B : BuildConfig) (name : JString) : Option Version :=
  if (apkNamePrefix B).isPrefixOf name && apkNameSuffix.isSuffixOf name then
    Version.ofString ((name.drop (apkNamePrefix B).length).rdrop apkNameSuffix.length)
  else none

/-- One round of the loop over the lines. A file that is not a package of this app is passed over. -/
def addLine (B : BuildConfig) (updates : List Update) (line : JString) : Except Throwable (List Update) :=
  match splitLimited (text "  ") 1 line with
  | [hash, fileName] =>
    match versionOfFile B fileName with
    | some version => (sha256Digest hash).map fun hash => updates ++ [⟨fileName, version, hash⟩]
    | none => .ok updates
  | _ => .error (.invalidParameter (text "Invalid file list format: too few components"))

/-- The lines of the file list. -/
def fileLines (files : JString) : List JString := (files.splitOn LF).rdropWhile List.isEmpty

def parseFiles (B : BuildConfig) (files : JString) : Except Throwable (List Update) :=
  (fileLines files).foldlM (addLine B) []

/-- `if (!c) throw e` -/
def check (c : Bool) (e : Throwable) : Except Throwable Unit := if c then .ok () else .error e

def decode (P : Platform) (s : JString) : Except Throwable Bytes :=
  (P.decodeBase64 s).elim (.error .badBase64) .ok

/-- The checks of the three parts, with the decoded public key. -/
def verifyParts (P : Platform) (publicKeyBytes : Bytes) (comment signature files : JString) :
    Except Throwable Unit := do
  check ((text "untrusted comment: ").isPrefixOf comment)
    (.invalidParameter (text "Invalid signature format: missing comment"))
  let signatureBytes ← decode P signature
  check (signatureBytes.length == 64 + 10)
    (.invalidParameter (text "Invalid signature format: wrong sized or missing signature"))
  check (signatureBytes.take 10 == publicKeyBytes.take 10)
    (.invalidParameter (text "Invalid signature format: wrong signer"))
  check (P.verify (getBytes files) (signatureBytes.drop 10) (publicKeyBytes.drop 10))
    (.security (text "Invalid signature"))

def verifySignedFileList (P : Platform) (B : BuildConfig) (signifyDigest : JString) :
    Except Throwable (List Update) := do
  let publicKeyBytes ← decode P releasePublicKeyBase64
  check (publicKeyBytes.length == 32 + 10 && publicKeyBytes.take 2 == [0x45, 0x64])
    (.invalidKey (text "Invalid public key"))
  match splitLimited [LF] 2 signifyDigest with
  | [comment, signature, files] => do
    verifyParts P publicKeyBytes comment signature files
    parseFiles B files
  | _ => .error (.invalidParameter (text "Invalid signature format: too few lines"))

/-- The later one only if its version is higher. -/
def higher (u v : Update) : Update := if u.version.compareTo v.version < 0 then v else u

/-- `maxByOrNull { it.version }`: the first one of those with the highest version. -/
def maxByVersion : List Update → Option Update
  | [] => none
  | u :: us => some (us.foldl higher u)

/-! ## What the checks establish -/

variable {P : Platform} {B : BuildConfig} {updates : List Update}

/-- The text is a comment line, a signature line and a file list that the signature covers: the key
id of the signature is that of the release key, and the platform accepts the signature under it. -/
def SignedList (P : Platform) (signifyDigest files : JString) : Prop :=
  ∃ comment signature, signifyDigest = comment ++ [LF] ++ signature ++ [LF] ++ files ∧
    text "untrusted comment: " <+: comment ∧
    ∃ keyId sig key, P.decodeBase64 signature = some (keyId ++ sig) ∧
      P.decodeBase64 releasePublicKeyBase64 = some (keyId ++ key) ∧
      keyId.length = 10 ∧ sig.length = 64 ∧ key.length = 32 ∧
      P.verify (getBytes files) sig key = true

@[simp] theorem check_eq_ok {c : Bool} {e : Throwable} {u : Unit} : check c e = .ok u ↔ c = true := by
  unfold check
  cases c <;> simp

@[simp] theorem decode_eq_ok {s : JString} {bs : Bytes} :
    decode P s = .ok bs ↔ P.decodeBase64 s = some bs := by
  unfold decode
  cases P.decodeBase64 s <;> simp

theorem verifySignedFileList_eq_ok {signifyDigest : JString}
    (h : verifySignedFileList P B signifyDigest = .ok updates) :
    ∃ files, SignedList P signifyDigest files ∧ parseFiles B files = .ok updates := by
  unfold verifySignedFileList at h
  simp only [bind_eq_ok, decode_eq_ok, check_eq_ok] at h
  obtain ⟨publicKeyBytes, hkey, -, hpublic, h⟩ := h
  split at h
  · next comment signature files hsplit =>
    simp only [verifyParts, bind_eq_ok, decode_eq_ok, check_eq_ok, beq_iff_eq, Bool.and_eq_true] at h hpublic
    obtain ⟨-, ⟨-, hcomment, signatureBytes, hsignature, -, hlength, -, hsigner, hverify⟩, hfiles⟩ := h
    obtain ⟨rest, rfl, hrest⟩ := splitLimited_eq_cons_cons hsplit
    obtain ⟨_, rfl, hlast⟩ := splitLimited_eq_cons_cons hrest
    cases hlast
    refine ⟨_, ⟨comment, signature, by simp only [List.append_assoc], List.isPrefixOf_iff_prefix.mp hcomment,
      publicKeyBytes.take 10, signatureBytes.drop 10, publicKeyBytes.drop 10, ?_, ?_, ?_, ?_, ?_, hverify⟩, hfiles⟩
    · rw [← hsigner, List.take_append_drop]
      exact hsignature
    · rw [List.take_append_drop]
      exact hkey
    · rw [List.length_take, hpublic.1]
      rfl
    · rw [List.length_drop, hlength]
    · rw [List.length_drop, hpublic.1]
  · cases h

/-- A line of the list is the entry of an update: a hash, two spaces, and the name of a package of this
app with its version. -/
def IsEntry (B : BuildConfig) (line : JString) (u : Update) : Prop :=
  ∃ hash, line = hash ++ text "  " ++ u.fileName ∧ versionOfFile B u.fileName = some u.version ∧
    sha256Digest hash = .ok u.hash

theorem space_ne_of_hexByte {c d : UInt16} {b : UInt8} (h : hexByte c d = some b) :
    c ≠ unit ' ' ∧ d ≠ unit ' ' := by
  obtain ⟨low, hlow, h⟩ := Option.bind_eq_some_iff.mp h
  have hspace : hexDigit (unit ' ') = none := by decide
  constructor
  · rintro rfl
    rw [if_neg (by decide), if_neg (by decide), hspace] at h
    cases h
  · rintro rfl
    rw [hspace] at hlow
    cases hlow

theorem space_not_mem_of_hexBytes {hex : JString} {bs : Bytes} (h : hexBytes hex = some bs) :
    unit ' ' ∉ hex := by
  fun_induction hexBytes hex generalizing bs with
  | case1 c d s ih =>
    obtain ⟨b, hb, h⟩ := Option.bind_eq_some_iff.mp h
    obtain ⟨bs', hbs, -⟩ := Option.bind_eq_some_iff.mp h
    obtain ⟨hc, hd⟩ := space_ne_of_hexByte hb
    simp only [List.mem_cons, not_or]
    exact ⟨hc.symm, hd.symm, ih hbs⟩
  | case2 => exact List.not_mem_nil
  | case3 => cases h

theorem space_not_mem_of_sha256Digest {hex : JString} {hash : Bytes} (h : sha256Digest hex = .ok hash) :
    unit ' ' ∉ hex := by
  unfold sha256Digest at h
  split at h
  · cases h
  · cases hbytes : hexBytes hex with
    | none =>
      rw [hbytes] at h
      cases h
    | some bs => exact space_not_mem_of_hexBytes hbytes

/-- A text without spaces ends at the first delimiter. -/
theorem splitLimited_spaces {hash fileName : JString} (h : unit ' ' ∉ hash) :
    splitLimited (text "  ") 1 (hash ++ text "  " ++ fileName) = [hash, fileName] := by
  have hfirst : splitFirst (text "  ") (hash ++ text "  " ++ fileName) = some (hash, fileName) := by
    induction hash with
    | nil => rfl
    | cons c hash ih =>
      rw [List.mem_cons, not_or] at h
      have hstarts : (text "  ").isPrefixOf (c :: (hash ++ text "  " ++ fileName)) = false :=
        Bool.and_eq_false_imp.mpr fun heq => absurd (beq_iff_eq.mp heq) h.1
      show splitFirst (text "  ") (c :: (hash ++ text "  " ++ fileName)) = _
      unfold splitFirst
      rw [hstarts, ih h.2]
      rfl
  unfold splitLimited
  rw [hfirst]
  rfl

/-- The loop cuts a line where its entry does. -/
theorem isEntry_iff {line : JString} {u : Update} :
    IsEntry B line u ↔ ∃ hash, splitLimited (text "  ") 1 line = [hash, u.fileName] ∧
      versionOfFile B u.fileName = some u.version ∧ sha256Digest hash = .ok u.hash := by
  constructor
  · rintro ⟨hash, rfl, hversion, hhash⟩
    exact ⟨hash, splitLimited_spaces (space_not_mem_of_sha256Digest hhash), hversion, hhash⟩
  · rintro ⟨hash, hsplit, hversion, hhash⟩
    obtain ⟨_, rfl, hlast⟩ := splitLimited_eq_cons_cons hsplit
    cases hlast
    exact ⟨hash, rfl, hversion, hhash⟩

/-- A line adds its entry, if it has one. -/
theorem addLine_eq_ok {line : JString} {updates' : List Update}
    (h : addLine B updates line = .ok updates') (u : Update) :
    u ∈ updates' ↔ u ∈ updates ∨ IsEntry B line u := by
  rw [isEntry_iff]
  unfold addLine at h
  split at h
  · next hash fileName hsplit =>
    rw [hsplit]
    split at h
    · next version hversion =>
      obtain ⟨hash', hhash, rfl⟩ := map_eq_ok h
      rw [List.mem_append, List.mem_singleton]
      refine or_congr_right ⟨?_, ?_⟩
      · rintro rfl
        exact ⟨hash, rfl, hversion, hhash⟩
      · rintro ⟨_, heq, hversion', hhash'⟩
        cases u
        cases heq
        cases hversion.symm.trans hversion'
        cases hhash.symm.trans hhash'
        rfl
    · next hversion =>
      cases h
      refine (or_iff_left ?_).symm
      rintro ⟨_, heq, hversion', -⟩
      cases heq
      cases hversion.symm.trans hversion'
  · cases h

/-- The updates are the entries of the lines. -/
theorem mem_updates {files : JString} (h : parseFiles B files = .ok updates) (u : Update) :
    u ∈ updates ↔ ∃ line ∈ fileLines files, IsEntry B line u := by
  have hall := foldlM_invariant
    (fun before lines after => u ∈ after ↔ u ∈ before ∨ ∃ line ∈ lines, IsEntry B line u)
    (fun _ => by simp)
    (fun hline ih => by
      rw [ih, addLine_eq_ok hline u, or_assoc, List.exists_mem_cons_iff]) h
  rw [hall]
  exact or_iff_right List.not_mem_nil

theorem higher_spec (u v : Update) :
    (higher u v = u ∨ higher u v = v) ∧ u.version.padded ≤ (higher u v).version.padded ∧
      v.version.padded ≤ (higher u v).version.padded := by
  unfold higher
  split
  · next hlt => exact ⟨.inr rfl, (Version.compareTo_neg_iff.mp hlt).le, le_rfl⟩
  · next hle => exact ⟨.inl rfl, le_rfl, not_lt.mp fun hlt => hle (Version.compareTo_neg_iff.mpr hlt)⟩

theorem foldl_higher_spec (us : List Update) (u : Update) :
    us.foldl higher u ∈ u :: us ∧
      ∀ v ∈ u :: us, v.version.padded ≤ (us.foldl higher u).version.padded := by
  induction us generalizing u with
  | nil => exact ⟨List.mem_cons_self, fun v hv => (List.mem_singleton.mp hv) ▸ le_rfl⟩
  | cons v us ih =>
    obtain ⟨hmem, hmax⟩ := ih (higher u v)
    obtain ⟨hone, hu, hv⟩ := higher_spec u v
    have hfirst := hmax _ List.mem_cons_self
    constructor
    · rcases List.mem_cons.mp hmem with heq | hmem
      · rw [List.foldl_cons, heq]
        rcases hone with heq | heq <;> rw [heq]
        · exact List.mem_cons_self
        · exact List.mem_cons_of_mem _ List.mem_cons_self
      · exact List.mem_cons_of_mem _ (List.mem_cons_of_mem _ hmem)
    · intro x hx
      rcases List.mem_cons.mp hx with rfl | hx
      · exact hu.trans hfirst
      · rcases List.mem_cons.mp hx with rfl | hx
        · exact hv.trans hfirst
        · exact hmax x (List.mem_cons_of_mem _ hx)

theorem maxByVersion_spec {u : Update} (h : maxByVersion updates = some u) :
    u ∈ updates ∧ ∀ v ∈ updates, v.version.padded ≤ u.version.padded := by
  cases updates with
  | nil => cases h
  | cons v us =>
    cases h
    exact foldl_higher_spec us v

end WgAndroid.Updater
