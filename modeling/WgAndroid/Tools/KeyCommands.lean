import WgAndroid.Tools.Encoding
import WgAndroid.Tools.Ladder
import WgAndroid.Tools.Printed

/-!
# The commands `genkey`, `genpsk` and `pubkey`

`genkey.c` and `pubkey.c`, from what they read on standard input to what they print.

Results:
1. `pubkeyMain_ok_iff`: `pubkey` reads the text of a key and prints the public key that the
   application derives from it.
2. `pubkeyMain_genkeyMain`: a generated key and its public key are a key pair of the application.
-/

namespace WgAndroid

open Rfc4648

/-- The ways in which a command returns 1. -/
inductive KeyCommandError where
  | usage
  | getrandom
  /-- `Key is not the correct length or format` -/
  | format
  /-- `Trailing characters found after key` -/
  | trailing
  deriving DecidableEq, Repr

/-- The name under which `genkey_main` was called. -/
inductive GenkeyName where
  | genkey
  | genpsk
  deriving DecidableEq, Repr

/-- `genkey_main`, from the bytes of `get_random_bytes`. -/
def genkeyMain (argc : ℕ) (name : GenkeyName) (random : Option Bytes) :
    Except KeyCommandError Bytes :=
  if argc ≠ 1 then .error .usage
  else match random with
    | none => .error .getrandom
    | some key =>
      let key := if name = .genkey then Hacl64.curve25519ClampSecret key else key
      .ok (keyToBase64 key ++ [newline])

/-- The characters that `pubkey_main` skips after the key. -/
def trailingOk (c : UInt8) : Bool :=
  c == 0 || charIsSpace c

def pubkeyMain (signed : Bool) (argc : ℕ) (stdin : Bytes) : Except KeyCommandError Bytes :=
  if argc ≠ 1 then .error .usage
  else if (stdin.take 44).length ≠ 44 then .error .format
  else if (stdin.drop 44).all trailingOk then
    match keyFromBase64As signed (cstr (stdin.take 44)) with
    | none => .error .format
    | some key => .ok (keyToBase64 (Hacl64.curve25519GeneratePublic key) ++ [newline])
  else .error .trailing

/-! ## The text of a key -/

theorem ascii_toBase64 (k : Key) : ascii k.toBase64 = (encode64 k.bytes).map byte := by
  apply widen_injective
  rw [widen_ascii k.isAscii_toBase64, widen_encode64, k.toBase64_eq]

theorem keyToBase64_key (k : Key) : keyToBase64 k.bytes = ascii k.toBase64 := by
  rw [keyToBase64_eq (Chunked.triples_of_length (n := 10) k.length_eq), ascii_toBase64]

theorem length_ascii_toBase64 (k : Key) : (ascii k.toBase64).length = 44 := by
  rw [ascii, List.length_map, k.toBase64_length]

/-- A text of 44 characters is read as a key if and only if it is the text of one: with a NUL in it
the string would be shorter. -/
theorem keyFromBase64As_cstr (signed : Bool) {base64 : Bytes} (hlength : base64.length = 44)
    (key : Bytes) : keyFromBase64As signed (cstr base64) = some key ↔
      ∃ k : Key, k.bytes = key ∧ base64 = ascii k.toBase64 := by
  rw [keyFromBase64As_iff]
  constructor
  · rintro ⟨hkey, htext⟩
    have hfull : cstr base64 = ascii (Key.toBase64 ⟨key, hkey⟩) := by
      rw [htext, ascii_toBase64]
    have hsame : cstr base64 = base64 := by
      apply (List.takeWhile_prefix _).eq_of_length
      change (cstr base64).length = _
      rw [hfull, length_ascii_toBase64, hlength]
    exact ⟨⟨key, hkey⟩, rfl, by rw [← hsame, hfull]⟩
  · rintro ⟨k, rfl, rfl⟩
    refine ⟨k.length_eq, ?_⟩
    rw [← ascii_toBase64, cstr_eq_self fun h => (native_bytes (native_toBase64 k) 0 h).2 rfl]

theorem all_trailingOk (rest : Bytes) :
    rest.all trailingOk = true ↔ ∀ c ∈ rest, c = 0 ∨ isspace c = true := by
  rw [List.all_eq_true]
  simp only [trailingOk, charIsSpace_eq, Bool.or_eq_true, beq_iff_eq]

theorem publicText (k : Key) : keyToBase64 (Hacl64.curve25519GeneratePublic k.bytes) =
    ascii k.generatePublicKey.toBase64 := by
  rw [Hacl64.curve25519GeneratePublic_eq, keyToBase64_key]

theorem pubkeyMain_eq (signed : Bool) {base64 : Bytes} (hlength : base64.length = 44)
    (rest : Bytes) : pubkeyMain signed 1 (base64 ++ rest) =
      if rest.all trailingOk then
        match keyFromBase64As signed (cstr base64) with
        | none => .error .format
        | some key => .ok (keyToBase64 (Hacl64.curve25519GeneratePublic key) ++ [newline])
      else .error .trailing := by
  rw [pubkeyMain, List.take_left' hlength, List.drop_left' hlength, if_neg (not_not_intro rfl),
    if_neg (not_not_intro hlength)]

theorem pubkeyMain_text (signed : Bool) (k : Key) {rest : Bytes}
    (hrest : ∀ c ∈ rest, c = 0 ∨ isspace c = true) :
    pubkeyMain signed 1 (ascii k.toBase64 ++ rest) =
      .ok (ascii k.generatePublicKey.toBase64 ++ [newline]) := by
  have hkey := (keyFromBase64As_cstr signed (length_ascii_toBase64 k) k.bytes).mpr ⟨k, rfl, rfl⟩
  rw [pubkeyMain_eq signed (length_ascii_toBase64 k), if_pos ((all_trailingOk rest).mpr hrest), hkey,
    ← publicText]

/-- `pubkey` accepts the text of a private key, followed by white space and NULs, and prints the text of
the public key that the application derives from it. -/
theorem pubkeyMain_ok_iff (signed : Bool) (stdin out : Bytes) :
    pubkeyMain signed 1 stdin = .ok out ↔
      ∃ (privateKey : Key) (rest : Bytes), stdin = ascii privateKey.toBase64 ++ rest ∧
        (∀ c ∈ rest, c = 0 ∨ isspace c = true) ∧
        out = ascii privateKey.generatePublicKey.toBase64 ++ [newline] := by
  constructor
  · intro hok
    have hlength : (stdin.take 44).length = 44 := by
      by_contra hshort
      rw [pubkeyMain, if_neg (not_not_intro rfl), if_pos hshort] at hok
      cases hok
    rw [← List.take_append_drop 44 stdin, pubkeyMain_eq signed hlength] at hok
    split at hok
    · rename_i hrest
      cases hkey : keyFromBase64As signed (cstr (stdin.take 44)) with
      | none =>
        rw [hkey] at hok
        cases hok
      | some key =>
        obtain ⟨k, rfl, htext⟩ := (keyFromBase64As_cstr signed hlength key).mp hkey
        rw [hkey] at hok
        refine ⟨k, stdin.drop 44, ?_, (all_trailingOk _).mp hrest, ?_⟩
        · rw [← htext, List.take_append_drop]
        · rw [← publicText]
          exact (Except.ok.inj hok).symm
    · cases hok
  · rintro ⟨k, rest, rfl, hrest, rfl⟩
    exact pubkeyMain_text signed k hrest

/-- What `genkey` prints is the text of a private key as the application generates it, and `pubkey` turns
that into the text of the pair's public key. -/
theorem pubkeyMain_genkeyMain (signed : Bool) (random : Key) :
    genkeyMain 1 .genkey (some random.bytes) =
        .ok (ascii random.generatePrivateKey.toBase64 ++ [newline]) ∧
      (genkeyMain 1 .genkey (some random.bytes)).bind (pubkeyMain signed 1) =
        .ok (ascii random.generatePrivateKey.generatePublicKey.toBase64 ++ [newline]) := by
  have hgenkey : genkeyMain 1 .genkey (some random.bytes) =
      .ok (ascii random.generatePrivateKey.toBase64 ++ [newline]) := by
    rw [← keyToBase64_key]
    simp only [genkeyMain, Hacl64.curve25519ClampSecret_eq]
    rfl
  refine ⟨hgenkey, ?_⟩
  have hnewline : ∀ c ∈ [newline], c = 0 ∨ isspace c = true := by
    rw [List.forall_mem_singleton]
    decide
  have hpubkey := pubkeyMain_text signed random.generatePrivateKey hnewline
  rw [hgenkey, ← hpubkey]
  rfl

end WgAndroid
