import WgAndroid.Tools.CString

/-!
# The configuration reader of wg-quick

`parse_options` of `wg-quick/android.c` on the file it has opened, and what `set_addr` does with the
addresses it found. The lines that it does not know are forwarded to `wg addconf` as they are.

Results:
1. `parseOptions_lines`: without an overlong line the loop is a fold over the lines.
2. `line_record`, `line_forward`: what one line does.
3. `strtok_intercalate`: the tokens of a list that is separated by commas.
-/

namespace WgAndroid

/-- The strings that `parse_options` returns through its arguments; `none` is `NULL`. -/
structure QuickOptions where
  config : Option Bytes
  mtu : Nat
  addrs : Option Bytes
  dnses : Option Bytes
  excludedApplications : Option Bytes
  includedApplications : Option Bytes
  inInterfaceSection : Bool
  deriving DecidableEq

/-- `concat_and_free` -/
def concatAndFree (orig : Option Bytes) (delim newLine : Bytes) : Option Bytes :=
  match orig with
  | none => some newLine
  | some orig => some (orig ++ (delim ++ newLine))

/-- The keys that wg-quick keeps to itself. -/
inductive QuickKey where
  | address
  | dns
  | excludedApplications
  | includedApplications
  | mtu
  deriving DecidableEq

/-- The text of a key, and how long the line has to be at least: for the two lists of applications
the source compares with 4. -/
def quickKeys : List (String × Nat × QuickKey) :=
  [("Address=", 8, .address),
   ("DNS=", 4, .dns),
   ("ExcludedApplications=", 4, .excludedApplications),
   ("IncludedApplications=", 4, .includedApplications),
   ("MTU=", 4, .mtu)]

/-- The first key that the line starts with, and what follows it. -/
def quickMatch (clean : Bytes) : List (String × Nat × QuickKey) → Option (QuickKey × Bytes)
  | [] => none
  | (name, least, key) :: keys =>
    if strncaseeq clean (cstring name) (cstring name).length && decide (clean.length > least) then
      some (key, clean.drop (cstring name).length)
    else quickMatch clean keys

namespace QuickOptions

def init : QuickOptions := ⟨none, 0, none, none, none, none, false⟩

def record (s : QuickOptions) (value : Bytes) : QuickKey → QuickOptions
  | .address => { s with addrs := concatAndFree s.addrs (cstring ",") value }
  | .dns => { s with dnses := concatAndFree s.dnses (cstring ",") value }
  | .excludedApplications =>
    { s with excludedApplications := concatAndFree s.excludedApplications (cstring ",") value }
  | .includedApplications =>
    { s with includedApplications := concatAndFree s.includedApplications (cstring ",") value }
  -- the result of `atoi` is converted to `unsigned int`
  | .mtu => { s with mtu := (atoi value % 2 ^ 32).toNat }

def forward (s : QuickOptions) (line : Bytes) : QuickOptions :=
  { s with config := concatAndFree s.config [] line }

/-- The line without its blanks. -/
def clean (line : Bytes) : Bytes := (cstr line).filter fun c => !isspace c

/-- `in_interface_section` after a line. -/
def inSection (s : QuickOptions) (clean : Bytes) : Bool :=
  strcaseeq clean (cstring "[Interface]") ||
    (clean.head? != some (byte '[') && s.inInterfaceSection)

/-- The body of the loop. -/
def line (s : QuickOptions) (input : Bytes) : QuickOptions :=
  let s := { s with inInterfaceSection := s.inSection (clean input) }
  match if s.inInterfaceSection then quickMatch (clean input) quickKeys else none with
  | some (key, value) => s.record value key
  | none => s.forward (cstr input)

/-- What follows the loop. -/
def finish (s : QuickOptions) : QuickOptions :=
  { s with
    config := some (s.config.getD [])
    addrs := some (s.addrs.getD [])
    dnses := some (s.dnses.getD []) }

/-- The loop. It returns at an overlong line, and then nothing is filled in. -/
def loop (s : QuickOptions) : List Bytes → QuickOptions
  | [] => s.finish
  | l :: ls => if (cstr l).length > 2 ^ 16 then s else (s.line l).loop ls

end QuickOptions

/-- `parse_options` on the contents of the file. -/
def parseOptions (file : Bytes) : QuickOptions := QuickOptions.init.loop (getlines file)

/-! ## Addresses -/

/-- The command that `add_addr` runs. -/
inductive AddrCommand where
  /-- `ip -6 addr add 'addr' dev iface` -/
  | ip6 (addr : Bytes)
  /-- `ndc interface setcfg iface 'addr' mask` -/
  | setcfg (addr : Bytes) (mask : Nat)
  deriving DecidableEq

/-- `add_addr`; the mask is an `unsigned char`. -/
def addAddr (addr : Bytes) : AddrCommand :=
  if addr.contains (byte ':') then .ip6 addr
  else if addr.contains (byte '/') then
    .setcfg (addr.takeWhile (· != byte '/'))
      (atoi (addr.dropWhile (· != byte '/')).tail % 2 ^ 8).toNat
  else .setcfg addr 32

/-- `set_addr`; an address with a quote or a backslash is skipped. -/
def setAddr (addrs : Bytes) : List AddrCommand :=
  ((strtok (cstring ", \t\n").contains addrs).filter fun addr =>
    !(addr.contains 0x27 || addr.contains 0x5C)).map addAddr

/-! ## Lines -/

theorem cstr_append {s : Bytes} (h : 0 ∉ s) (t : Bytes) : cstr (s ++ t) = s ++ cstr t :=
  List.takeWhile_append_of_pos fun _ hc => bne_iff_ne.mpr fun h0 => h (h0 ▸ hc)

theorem cstr_eq_self {s : Bytes} (h : 0 ∉ s) : cstr s = s := by
  simpa [cstr] using cstr_append h []

namespace QuickOptions

theorem clean_append {s : Bytes} (h : 0 ∉ s) (t : Bytes) :
    clean (s ++ t) = (s.filter fun c => !isspace c) ++ clean t := by
  rw [clean, cstr_append h, List.filter_append]
  rfl

theorem clean_eq_filter {s : Bytes} (h : 0 ∉ s) : clean s = s.filter fun c => !isspace c := by
  rw [clean, cstr_eq_self h]

/-- The newline at the end of a line is a blank. -/
theorem clean_newline (s : Bytes) : clean (s ++ [newline]) = clean s := by
  induction s with
  | nil => rfl
  | cons c s ih =>
    by_cases hc : c = 0
    · subst hc
      rfl
    · rw [← List.singleton_append, List.append_assoc, clean_append (by simpa using Ne.symm hc), ih,
        clean_append (by simpa using Ne.symm hc)]

/-- Only a line that starts with a bracket changes the section. -/
theorem inSection_of_head {s : QuickOptions} {cleaned : Bytes}
    (h : cleaned.head? ≠ some (byte '[')) : s.inSection cleaned = s.inInterfaceSection := by
  have hcase : strcaseeq cleaned (cstring "[Interface]") = false := strcaseeq_bracket h
  simp [inSection, hcase, h]

section Line

variable {s : QuickOptions} {input : Bytes}

/-- A line of the interface section with a known key is recorded. -/
theorem line_record {key : QuickKey} {value : Bytes} (hin : s.inInterfaceSection = true)
    (hhead : (clean input).head? ≠ some (byte '['))
    (hmatch : quickMatch (clean input) quickKeys = some (key, value)) :
    s.line input = s.record value key := by
  simp only [line, inSection_of_head hhead, hin, if_true, hmatch]
  rw [← hin]

/-- Every other line that is no header is forwarded. -/
theorem line_forward (hhead : (clean input).head? ≠ some (byte '['))
    (hmatch : s.inInterfaceSection = true → quickMatch (clean input) quickKeys = none) :
    s.line input = s.forward (cstr input) := by
  have hnone : (if s.inInterfaceSection then quickMatch (clean input) quickKeys else none) = none := by
    split
    · next hin => exact hmatch hin
    · rfl
  simp only [line, inSection_of_head hhead, hnone]

theorem record_config (value : Bytes) (key : QuickKey) : (s.record value key).config = s.config := by
  cases key <;> rfl

theorem record_inInterfaceSection (value : Bytes) (key : QuickKey) :
    (s.record value key).inInterfaceSection = s.inInterfaceSection := by
  cases key <;> rfl

theorem record_mtu {key : QuickKey} (h : key ≠ .mtu) (value : Bytes) :
    (s.record value key).mtu = s.mtu := by
  cases key with
  | mtu => exact absurd rfl h
  | _ => rfl

theorem record_addrs {key : QuickKey} (h : key ≠ .address) (value : Bytes) :
    (s.record value key).addrs = s.addrs := by
  cases key with
  | address => exact absurd rfl h
  | _ => rfl

end Line

/-- Without an overlong line the loop is a fold over the lines. -/
theorem loop_eq_foldl {ls : List Bytes} (h : ∀ l ∈ ls, (cstr l).length ≤ 2 ^ 16)
    (s : QuickOptions) : s.loop ls = (ls.foldl line s).finish := by
  induction ls generalizing s with
  | nil => rfl
  | cons l ls ih =>
    rw [loop, if_neg (Nat.not_lt.mpr (h l List.mem_cons_self)),
      ih fun m hm => h m (List.mem_cons_of_mem _ hm), List.foldl_cons]

end QuickOptions

/-! ## Keys -/

theorem quickMatch_cons {cleaned v : Bytes} {name : String} {least : Nat} {key : QuickKey}
    {keys : List (String × Nat × QuickKey)} (h : strcaseeq cleaned (cstring name) = true)
    (hlen : (cleaned ++ v).length > least) :
    quickMatch (cleaned ++ v) ((name, least, key) :: keys) = some (key, v) := by
  have hmap : cleaned.map tolower = (cstring name).map tolower := eq_of_beq h
  have hlength : cleaned.length = (cstring name).length := by simpa using congrArg List.length hmap
  have hmatch : strncaseeq (cleaned ++ v) (cstring name) (cstring name).length = true := by
    rw [strncaseeq, ← hlength, List.take_left, hlength, List.take_length]
    exact h
  rw [quickMatch, hmatch, decide_eq_true hlen, Bool.and_self, if_pos rfl, ← hlength, List.drop_left]

theorem quickMatch_cons_of_ne {cleaned : Bytes} {name : String} {least : Nat} {key : QuickKey}
    {keys : List (String × Nat × QuickKey)}
    (h : strncaseeq cleaned (cstring name) (cstring name).length = false) :
    quickMatch cleaned ((name, least, key) :: keys) = quickMatch cleaned keys := by
  rw [quickMatch, h, Bool.false_and, if_neg Bool.false_ne_true]

section Keys

variable {v : Bytes}

theorem quickMatch_address (hv : v ≠ []) :
    quickMatch (cstring "Address" ++ (cstring "=" ++ v)) quickKeys = some (.address, v) := by
  have hpos := List.length_pos_iff.mpr hv
  have hlen : (cstring "Address=" ++ v).length = 8 + v.length := List.length_append
  simp only [cstring_key, String.reduceAppend]
  rw [quickKeys, quickMatch_cons (by decide) (by omega)]

theorem quickMatch_dns (hv : v ≠ []) :
    quickMatch (cstring "DNS" ++ (cstring "=" ++ v)) quickKeys = some (.dns, v) := by
  have hpos := List.length_pos_iff.mpr hv
  have hlen : (cstring "DNS=" ++ v).length = 4 + v.length := List.length_append
  simp only [cstring_key, String.reduceAppend]
  rw [quickKeys, quickMatch_cons_of_ne rfl, quickMatch_cons (by decide) (by omega)]

theorem quickMatch_excludedApplications :
    quickMatch (cstring "ExcludedApplications" ++ (cstring "=" ++ v)) quickKeys =
      some (.excludedApplications, v) := by
  have hlen : (cstring "ExcludedApplications=" ++ v).length = 21 + v.length := List.length_append
  simp only [cstring_key, String.reduceAppend]
  rw [quickKeys, quickMatch_cons_of_ne rfl, quickMatch_cons_of_ne rfl,
    quickMatch_cons (by decide) (by omega)]

theorem quickMatch_includedApplications :
    quickMatch (cstring "IncludedApplications" ++ (cstring "=" ++ v)) quickKeys =
      some (.includedApplications, v) := by
  have hlen : (cstring "IncludedApplications=" ++ v).length = 21 + v.length := List.length_append
  simp only [cstring_key, String.reduceAppend]
  rw [quickKeys, quickMatch_cons_of_ne rfl, quickMatch_cons_of_ne rfl, quickMatch_cons_of_ne rfl,
    quickMatch_cons (by decide) (by omega)]

theorem quickMatch_mtu (hv : v ≠ []) :
    quickMatch (cstring "MTU" ++ (cstring "=" ++ v)) quickKeys = some (.mtu, v) := by
  have hpos := List.length_pos_iff.mpr hv
  have hlen : (cstring "MTU=" ++ v).length = 4 + v.length := List.length_append
  simp only [cstring_key, String.reduceAppend]
  rw [quickKeys, quickMatch_cons_of_ne rfl, quickMatch_cons_of_ne rfl, quickMatch_cons_of_ne rfl,
    quickMatch_cons_of_ne rfl, quickMatch_cons (by decide) (by omega)]

theorem quickMatch_listenPort :
    quickMatch (cstring "ListenPort" ++ (cstring "=" ++ v)) quickKeys = none := rfl

theorem quickMatch_privateKey :
    quickMatch (cstring "PrivateKey" ++ (cstring "=" ++ v)) quickKeys = none := rfl

end Keys

/-! ## Tokens -/

theorem strtok_append {delim : UInt8 → Bool} {c : UInt8} (hc : delim c = true) (s t : Bytes) :
    strtok delim (s ++ c :: t) = strtok delim s ++ strtok delim t := by
  rw [strtok, List.splitOnP_append_cons s t hc, List.filter_append]
  rfl

theorem strtok_token {delim : UInt8 → Bool} {t : Bytes} (hne : t ≠ [])
    (h : ∀ b ∈ t, delim b = false) : strtok delim t = [t] := by
  rw [strtok, List.splitOnP_eq_singleton (by simpa using h)]
  simp [hne]

theorem strtok_of_forall {delim : UInt8 → Bool} {s : Bytes} (h : ∀ b ∈ s, delim b = false) :
    strtok delim s = if s.isEmpty then [] else [s] := by
  cases s with
  | nil => rfl
  | cons c s => exact strtok_token (List.cons_ne_nil c s) h

/-- A text holds no delimiter, or it is cut at one. -/
theorem strtok_induction (delim : UInt8 → Bool) {motive : Bytes → Prop}
    (token : ∀ s, (∀ b ∈ s, delim b = false) → motive s)
    (cut : ∀ s c t, delim c = true → motive s → motive t → motive (s ++ c :: t)) (s : Bytes) :
    motive s := by
  induction hn : s.length using Nat.strong_induction_on generalizing s with
  | _ n ih =>
    by_cases h : ∀ b ∈ s, delim b = false
    · exact token s h
    · push Not at h
      obtain ⟨c, hc, hdelim⟩ := h
      obtain ⟨a, b, rfl⟩ := List.append_of_mem hc
      rw [List.length_append, List.length_cons] at hn
      exact cut a c b (by simpa using hdelim) (ih _ (by omega) a rfl) (ih _ (by omega) b rfl)

/-- A token is not empty and holds no delimiter. -/
theorem token_of_mem_strtok {delim : UInt8 → Bool} {s t : Bytes} (ht : t ∈ strtok delim s) :
    t ≠ [] ∧ ∀ b ∈ t, delim b = false := by
  induction s using strtok_induction delim with
  | token s h =>
    rw [strtok_of_forall h] at ht
    split at ht
    · cases ht
    · next hs =>
      cases List.mem_singleton.mp ht
      exact ⟨fun hnil => hs (List.isEmpty_iff.mpr hnil), h⟩
  | cut a c b hc iha ihb =>
    rw [strtok_append hc, List.mem_append] at ht
    exact ht.elim iha ihb

theorem length_le_of_mem_strtok {delim : UInt8 → Bool} {s t : Bytes} (ht : t ∈ strtok delim s) :
    t.length ≤ s.length := by
  induction s using strtok_induction delim with
  | token s h =>
    rw [strtok_of_forall h] at ht
    split at ht
    · cases ht
    · cases List.mem_singleton.mp ht
      exact Nat.le_refl _
  | cut a c b hc iha ihb =>
    rw [strtok_append hc, List.mem_append] at ht
    rw [List.length_append, List.length_cons]
    rcases ht with ht | ht
    · exact (iha ht).trans (Nat.le_add_right _ _)
    · exact (ihb ht).trans ((Nat.le_succ _).trans (Nat.le_add_left _ _))

/-- A token that is not the only one is shorter than the text. -/
theorem length_lt_or_of_mem_strtok {delim : UInt8 → Bool} {s t : Bytes} (ht : t ∈ strtok delim s) :
    t.length < s.length ∨ strtok delim s = [t] := by
  by_cases h : ∀ b ∈ s, delim b = false
  · rw [strtok_of_forall h] at ht ⊢
    split at ht
    · cases ht
    · next hs => exact .inr (by rw [if_neg hs, List.mem_singleton.mp ht])
  · push Not at h
    obtain ⟨c, hc, hdelim⟩ := h
    obtain ⟨a, b, rfl⟩ := List.append_of_mem hc
    rw [strtok_append (by simpa using hdelim), List.mem_append] at ht
    rw [List.length_append, List.length_cons]
    rcases ht with ht | ht
    · exact .inl (Nat.lt_add_right_iff_pos.mpr (Nat.succ_pos _) |>.trans_le'
        (length_le_of_mem_strtok ht))
    · exact .inl ((Nat.lt_succ_of_le (length_le_of_mem_strtok ht)).trans_le (Nat.le_add_left _ _))

/-- Only delimiters are missing from the tokens. -/
theorem count_flatten_strtok {delim : UInt8 → Bool} {x : UInt8} (hx : delim x = false) (s : Bytes) :
    (strtok delim s).flatten.count x = s.count x := by
  induction s using strtok_induction delim with
  | token s h =>
    rw [strtok_of_forall h]
    split
    · next hs => rw [List.isEmpty_iff.mp hs, List.flatten_nil]
    · rw [List.flatten_singleton]
  | cut a c b hc iha ihb =>
    have hne : c ≠ x := fun hcx => by simp [← hcx, hc] at hx
    rw [strtok_append hc, List.flatten_append, List.count_append, List.count_append,
      List.count_cons_of_ne hne, iha, ihb]

/-- The tokens of a list in which a delimiter follows each one. -/
theorem strtok_flatMap {delim : UInt8 → Bool} {c : UInt8} (hc : delim c = true)
    {tokens : List Bytes} (h : ∀ t ∈ tokens, t ≠ [] ∧ ∀ b ∈ t, delim b = false) :
    strtok delim (tokens.flatMap fun t => t ++ [c]) = tokens := by
  induction tokens with
  | nil => rfl
  | cons t tokens ih =>
    rw [List.flatMap_cons, List.append_assoc, List.singleton_append, strtok_append hc,
      strtok_token (h t List.mem_cons_self).1 (h t List.mem_cons_self).2,
      ih fun u hu => h u (List.mem_cons_of_mem _ hu), List.singleton_append]

/-- The tokens of a list that is separated by commas. -/
theorem strtok_intercalate {delim : UInt8 → Bool} {c : UInt8} (hc : delim c = true)
    {tokens : List Bytes} (h : ∀ t ∈ tokens, t ≠ [] ∧ ∀ b ∈ t, delim b = false) :
    strtok delim ([c].intercalate tokens) = tokens := by
  induction tokens with
  | nil => rfl
  | cons t tokens ih =>
    have htoken := strtok_token (h t List.mem_cons_self).1 (h t List.mem_cons_self).2
    have hrest := ih fun u hu => h u (List.mem_cons_of_mem _ hu)
    cases tokens with
    | nil => rw [List.intercalate_singleton, htoken]
    | cons u tokens =>
      rw [List.intercalate_cons_cons, List.append_assoc, List.singleton_append, strtok_append hc,
        htoken, hrest]
      rfl

end WgAndroid
