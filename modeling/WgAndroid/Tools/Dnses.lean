import WgAndroid.Lib.Shell
import WgAndroid.Tools.Agreement

/-!
# The name servers of wg-quick

`set_dnses` of `wg-quick/android.c`: it tells servers and search domains apart, and without the binder
interface of the resolver it runs `ndc` through a shell. The domains are put in quotes of their own
and then between two quotes of the format.

Results:
1. `read_setnetdns`: how a shell reads the command, up to the search domains.
2. `setnetdns_literal_iff`: when the tokens are read as they are.
3. `setDnses_agrees_iff`: when wg-quick classifies the entries of an interface as the app does.
-/

namespace WgAndroid

/-- The entries that `set_dnses` looks at; those with a quote or a backslash are skipped. -/
def dnsTokens (dnses : Bytes) : List Bytes :=
  (strtok (cstring ", \t\n").contains dnses).filter fun dns =>
    !(dns.contains (byte '\'') || dns.contains (byte '\\'))

/-- `(^[0-9.]+$)|(^.*:.*$)` -/
def isIpToken (dns : Bytes) : Bool :=
  (!dns.isEmpty && dns.all fun c => charIsDigit c || c == byte '.') || dns.contains (byte ':')

/-- `dns_list` and `dns_search_list` -/
structure DnsLists where
  servers : List Bytes
  search : List Bytes
  deriving DecidableEq

/-- The lists that `set_dnses` fills; `none` if it returns before. -/
def setDnses (dnses : Bytes) : Option DnsLists :=
  if dnses.length > 2 ^ 16 then none
  else if dnses.isEmpty then none
  else
    let servers := (dnsTokens dnses).filter isIpToken
    if servers.isEmpty then none
    else some ⟨servers, (dnsTokens dnses).filter fun dns => !isIpToken dns⟩

/-- `snprintf(arg, len + 3, "'%s' ", dns)`, of which `strncat` takes at most `len * 4 - 1`. -/
def shellArg (len : Nat) (dns : Bytes) : Bytes :=
  ((byte '\'' :: (dns ++ cstring "' ")).take (len + 2)).take (len * 4 - 1)

/-- `dns_shell_arglist`, `dns_search_shell_arglist` -/
def shellArglist (len : Nat) (dnses : List Bytes) : Bytes := dnses.flatMap (shellArg len)

/-- The command that `cndc` runs: `ndc resolver setnetdns %u '%s' %s`. -/
def setnetdns (netid : Nat) (dnses : Bytes) : Option Bytes :=
  (setDnses dnses).map fun lists =>
    cstring "ndc resolver setnetdns " ++ (ascii (decimal netid) ++ (cstring " '" ++
      (shellArglist dnses.length lists.search ++ (cstring "' " ++
        shellArglist dnses.length lists.servers))))

/-! ## The lists -/

variable {dnses : Bytes} {lists : DnsLists}

theorem setDnses_eq_some : setDnses dnses = some lists ↔
    dnses.length ≤ 2 ^ 16 ∧ (∃ dns ∈ dnsTokens dnses, isIpToken dns = true) ∧
      lists = ⟨(dnsTokens dnses).filter isIpToken,
        (dnsTokens dnses).filter fun dns => !isIpToken dns⟩ := by
  have hservers : ((dnsTokens dnses).filter isIpToken).isEmpty = false ↔
      ∃ dns ∈ dnsTokens dnses, isIpToken dns = true := by
    rw [List.isEmpty_eq_false_iff, ne_eq, List.filter_eq_nil_iff]
    push Not
    rfl
  constructor
  · intro h
    unfold setDnses at h
    split at h
    · cases h
    split at h
    · cases h
    dsimp only at h
    split at h
    · cases h
    · next hlen _ hsome =>
      cases h
      exact ⟨Nat.not_lt.mp hlen, hservers.mp (Bool.not_eq_true _ ▸ hsome), rfl⟩
  · rintro ⟨hlen, hip, rfl⟩
    have hne : dnses.isEmpty = false := by
      rw [List.isEmpty_eq_false_iff]
      rintro rfl
      obtain ⟨_, hmem, _⟩ := hip
      cases hmem
    rw [setDnses, if_neg (Nat.not_lt.mpr hlen), hne, if_neg Bool.false_ne_true]
    dsimp only
    rw [hservers.mpr hip, if_neg Bool.false_ne_true]

theorem mem_dnsTokens {dns : Bytes} (h : dns ∈ dnsTokens dnses) :
    dns ∈ strtok (cstring ", \t\n").contains dnses ∧ byte '\'' ∉ dns ∧ byte '\\' ∉ dns := by
  simpa [dnsTokens, not_or] using h

/-- What holds of every token: it is not empty and has no blank, quote or backslash. -/
structure IsToken (dns : Bytes) : Prop where
  ne_nil : dns ≠ []
  blank : ∀ c ∈ dns, Shell.isBlank c = false
  quote : byte '\'' ∉ dns
  backslash : byte '\\' ∉ dns

theorem isToken_of_mem {dns : Bytes} (h : dns ∈ dnsTokens dnses) : IsToken dns := by
  obtain ⟨hmem, hquote, hbackslash⟩ := mem_dnsTokens h
  obtain ⟨hne, hdelim⟩ := token_of_mem_strtok hmem
  refine ⟨hne, fun c hc => ?_, hquote, hbackslash⟩
  have hc := hdelim c hc
  rw [Bool.eq_false_iff, ne_eq, List.contains_iff_mem] at hc
  rw [Shell.isBlank, Bool.or_eq_false_iff]
  constructor
  · exact beq_eq_false_iff_ne.mpr fun h => hc (h ▸ by decide)
  · exact beq_eq_false_iff_ne.mpr fun h => hc (h ▸ by decide)

/-- The buffers are large enough for every token that is not the whole string, and for that one only
the blank is lost. -/
theorem shellArg_eq {len : Nat} {dns : Bytes} (hne : dns ≠ []) (h : dns.length ≤ len) :
    shellArg len dns =
      byte '\'' :: (dns ++ if dns.length < len then cstring "' " else cstring "'") := by
  have hpos := List.length_pos_iff.mpr hne
  have hquoted : (byte '\'' :: (dns ++ cstring "' ")).length = dns.length + 3 := by simp [cstring]
  split
  · next hlt =>
    rw [shellArg, List.take_take, List.take_of_length_le]
    rw [hquoted]
    omega
  · next hlt =>
    obtain rfl : dns.length = len := by omega
    have hmin : min (dns.length * 4 - 1) (dns.length + 2) = dns.length + 2 := by omega
    rw [shellArg, List.take_take, hmin]
    simp [List.take_append, cstring]

/-! ## The command in a shell -/

open Shell (Word read bare quoted)

/-- The search domains after the quote of the format: the quote that should open the first one closes
it, and so on. -/
def spliced (search : List Bytes) : Bytes := search.flatMap (· ++ cstring "' '")

/-- The word that a shell makes of them: only the blanks are quoted. -/
def searchWord (search : List Bytes) : Word := search.flatMap fun dns => bare dns ++ quoted (cstring " ")

theorem arglist_quote {len : Nat} {search : List Bytes}
    (h : ∀ dns ∈ search, dns ≠ [] ∧ dns.length < len) (rest : Bytes) :
    shellArglist len search ++ byte '\'' :: rest = byte '\'' :: (spliced search ++ rest) := by
  induction search with
  | nil => rfl
  | cons dns search ih =>
    obtain ⟨hne, hlen⟩ := h dns List.mem_cons_self
    have hrest := ih fun d hd => h d (List.mem_cons_of_mem _ hd)
    rw [shellArglist] at hrest ⊢
    rw [List.flatMap_cons, shellArg_eq hne hlen.le, if_pos hlen, List.append_assoc, hrest, spliced,
      spliced, List.flatMap_cons]
    simp [cstring]

/-- One word for each server. -/
theorem read_arglist {len : Nat} {servers : List Bytes}
    (h : ∀ dns ∈ servers, dns ≠ [] ∧ dns.length < len ∧ byte '\'' ∉ dns) :
    read .plain none (shellArglist len servers) = some (servers.map quoted) := by
  induction servers with
  | nil => rfl
  | cons dns servers ih =>
    obtain ⟨hne, hlen, hquote⟩ := h dns List.mem_cons_self
    have hrest := ih fun d hd => h d (List.mem_cons_of_mem _ hd)
    have hshape : shellArglist len (dns :: servers) =
        Shell.ch '\'' :: (dns ++ Shell.ch '\'' :: Shell.ch ' ' :: shellArglist len servers) := by
      rw [shellArglist, List.flatMap_cons, shellArg_eq hne hlen.le, if_pos hlen, List.cons_append,
        List.append_assoc]
      rfl
    rw [hshape, Shell.read_quoted hquote, Shell.read_blank (by decide), hrest]
    rfl

theorem read_arglist_whole {dns : Bytes} (hne : dns ≠ []) (hquote : byte '\'' ∉ dns) :
    read .plain none (shellArglist dns.length [dns]) = some [quoted dns] := by
  have hshape : shellArglist dns.length [dns] = Shell.ch '\'' :: (dns ++ Shell.ch '\'' :: []) := by
    rw [shellArglist, List.flatMap_singleton, shellArg_eq hne le_rfl, if_neg (lt_irrefl _)]
    rfl
  rw [hshape, Shell.read_quoted hquote]
  rfl

theorem spliced_cons (dns : Bytes) (search : List Bytes) (line : Bytes) :
    spliced (dns :: search) ++ line =
      dns ++ Shell.ch '\'' :: (cstring " " ++ Shell.ch '\'' :: (spliced search ++ line)) := by
  rw [spliced, List.flatMap_cons, List.append_assoc, List.append_assoc]
  rfl

/-- Search domains without a special character are read as they are. -/
theorem read_spliced {search : List Bytes} (h : ∀ dns ∈ search, ∀ c ∈ dns, Shell.isOrdinary c = true)
    (w : Word) (line : Bytes) :
    read .plain (some w) (spliced search ++ line) =
      read .plain (some (w ++ searchWord search)) line := by
  induction search generalizing w with
  | nil => simp [spliced, searchWord]
  | cons dns search ih =>
    rw [spliced_cons, Shell.read_ordinary (h dns List.mem_cons_self), Shell.read_quoted (by decide),
      ih fun d hd => h d (List.mem_cons_of_mem _ hd)]
    simp [searchWord]

theorem count_spliced (search : List Bytes) (line : Bytes) :
    (spliced search ++ line).count (Shell.ch '"') =
      search.flatten.count (Shell.ch '"') + line.count (Shell.ch '"') := by
  induction search with
  | nil => simp [spliced]
  | cons dns search ih =>
    rw [spliced_cons, List.count_append, List.count_cons_of_ne (by decide), List.count_append,
      List.count_cons_of_ne (by decide), ih, List.flatten_cons, List.count_append]
    rw [show (cstring " ").count (Shell.ch '"') = 0 by decide, Nat.zero_add, Nat.add_assoc]

theorem quotes_append_word (w v : Word) :
    Shell.quotes [w ++ v] = Shell.quotes [w] + v.text.count (Shell.ch '"') :=
  Shell.quotes_extend (some w) v

/-- The character that ends the ordinary part of a token. -/
theorem special_of_token {dns : Bytes} (htoken : IsToken dns) {c : UInt8} (hc : c ∈ dns)
    (h : Shell.isOrdinary c = false) :
    (Shell.isOperator c || Shell.isExpansion c) = true ∨ c = Shell.ch '"' := by
  have hquote : (c == Shell.ch '\'') = false := by
    rw [beq_eq_false_iff_ne]
    rintro rfl
    exact htoken.quote hc
  have hbackslash : (c == Shell.ch '\\') = false := by
    rw [beq_eq_false_iff_ne]
    rintro rfl
    exact htoken.backslash hc
  rw [Shell.isOrdinary, htoken.blank c hc, hquote, hbackslash, Bool.false_or, Bool.or_false,
    Bool.or_false, Bool.not_eq_false', Bool.or_eq_true] at h
  exact h.imp_right eq_of_beq

/-- A special character in a search domain ends the command, or it is lost. -/
theorem quotes_lt_of_spliced {search : List Bytes} (htoken : ∀ dns ∈ search, IsToken dns)
    {w : Word} {line : Bytes} {words : List Word}
    (h : read .plain (some w) (spliced search ++ line) = some words)
    (hspecial : ∃ dns ∈ search, ∃ c ∈ dns, Shell.isOrdinary c = false) :
    Shell.quotes words < Shell.quotes [w] + (spliced search ++ line).count (Shell.ch '"') := by
  induction search generalizing w with
  | nil =>
    obtain ⟨_, hmem, _⟩ := hspecial
    cases hmem
  | cons dns search ih =>
    rw [spliced_cons] at h ⊢
    by_cases hdns : ∀ c ∈ dns, Shell.isOrdinary c = true
    · rw [Shell.read_ordinary hdns, Shell.read_quoted (by decide)] at h
      have hlt := ih (fun d hd => htoken d (List.mem_cons_of_mem _ hd)) h (by
        obtain ⟨d, hd, c, hc, hcs⟩ := hspecial
        rcases List.mem_cons.mp hd with rfl | hd
        · simp [hdns c hc] at hcs
        · exact ⟨d, hd, c, hc, hcs⟩)
      rw [Option.getD_some, quotes_append_word, quotes_append_word, Shell.text_bare,
        Shell.text_quoted, show (cstring " ").count (Shell.ch '"') = 0 by decide, Nat.add_zero,
        Nat.add_assoc] at hlt
      rw [List.count_append, List.count_cons_of_ne (by decide), List.count_append,
        List.count_cons_of_ne (by decide), show (cstring " ").count (Shell.ch '"') = 0 by decide,
        Nat.zero_add]
      exact hlt
    · push Not at hdns
      obtain ⟨d, hd, hds⟩ := hdns
      obtain ⟨c, hfirst⟩ := Option.isSome_iff_exists.mp
        (List.find?_isSome (p := fun c => !Shell.isOrdinary c).mpr ⟨d, hd, by simpa using hds⟩)
      obtain ⟨hc, u, v, rfl, hu⟩ := List.find?_eq_some_iff_append.mp hfirst
      simp only [Bool.not_not, Bool.not_eq_true'] at hu hc
      rw [List.append_assoc, Shell.read_ordinary hu] at h
      rw [List.append_assoc, List.count_append, ← Nat.add_assoc, ← Shell.text_bare u,
        ← quotes_append_word]
      rcases special_of_token (htoken _ List.mem_cons_self)
        (List.mem_append_right _ List.mem_cons_self) hc with hc | rfl
      · rw [List.cons_append, Shell.read_special hc] at h
        cases h
      · exact Shell.quotes_read_lt h

set_option maxRecDepth 4000 in
theorem shell_of_charIsDigit (c : UInt8) : charIsDigit c = true →
    Shell.isOrdinary c = true ∧ Shell.isWild c = false ∧ c ≠ Shell.ch '#' ∧ c ≠ Shell.ch '~' :=
  forall_byte (p := fun c => charIsDigit c = true →
    Shell.isOrdinary c = true ∧ Shell.isWild c = false ∧ c ≠ Shell.ch '#' ∧ c ≠ Shell.ch '~')
    (by decide) c

/-- The words before the search domains. -/
def ndcWords (netid : Nat) : List Bytes :=
  [cstring "ndc", cstring "resolver", cstring "setnetdns", ascii (decimal netid)]

set_option maxRecDepth 4000 in
theorem ndcWords_ordinary {netid : Nat} {s : Bytes} (hs : s ∈ ndcWords netid) :
    s ≠ [] ∧ ∀ c ∈ s, Shell.isOrdinary c = true ∧ Shell.isWild c = false ∧
      c ≠ Shell.ch '#' ∧ c ≠ Shell.ch '~' := by
  simp only [ndcWords, List.mem_cons, List.not_mem_nil, or_false] at hs
  rcases hs with rfl | rfl | rfl | rfl
  · decide
  · decide
  · decide
  · obtain ⟨d, rest, hd, _⟩ := exists_digit_cons netid
    exact ⟨by rw [hd]; exact List.cons_ne_nil d rest,
      fun c hc => shell_of_charIsDigit c (charIsDigit_of_mem_decimal hc)⟩

theorem read_ndcWord {netid : Nat} {s : Bytes} (hs : s ∈ ndcWords netid) (line : Bytes) :
    read .plain none (s ++ (byte ' ' :: line)) = (read .plain none line).map (bare s :: ·) := by
  obtain ⟨hne, hchars⟩ := ndcWords_ordinary hs
  rw [Shell.read_word (fun c hc => (hchars c hc).1) hne
    fun c hc => (hchars c (List.mem_of_mem_head? hc)).2.2, Shell.read_blank (by decide)]
  rfl

/-- The entries that are no addresses. -/
def searchTokens (dnses : Bytes) : List Bytes := (dnsTokens dnses).filter fun dns => !isIpToken dns

theorem isToken_of_mem_search {dns : Bytes} (h : dns ∈ searchTokens dnses) : IsToken dns :=
  isToken_of_mem (List.mem_filter.mp h).1

/-- `set_dnses` gets as far as its command. -/
def RunsNdc (dnses : Bytes) : Prop :=
  dnses.length ≤ 2 ^ 16 ∧ ∃ dns ∈ dnsTokens dnses, isIpToken dns = true

section Command

variable {netid : Nat} {command : Bytes}

variable (netid) in
theorem exists_setnetdns (h : RunsNdc dnses) : ∃ command, setnetdns netid dnses = some command := by
  have hlists := setDnses_eq_some.mpr ⟨h.1, h.2, rfl⟩
  rw [setnetdns, hlists]
  exact ⟨_, rfl⟩

variable (h : setnetdns netid dnses = some command)
include h

theorem runsNdc : RunsNdc dnses := by
  obtain ⟨lists, hlists, _⟩ := Option.map_eq_some_iff.mp h
  obtain ⟨hlen, hip, _⟩ := setDnses_eq_some.mp hlists
  exact ⟨hlen, hip⟩

/-- A search domain is never the whole string, since there is a server as well. -/
theorem searchTokens_length {dns : Bytes} (hdns : dns ∈ searchTokens dnses) :
    dns.length < dnses.length := by
  obtain ⟨hmem, hip⟩ := List.mem_filter.mp hdns
  rcases length_lt_or_of_mem_strtok (mem_dnsTokens hmem).1 with hlt | honly
  · exact hlt
  · obtain ⟨server, hserver, hserverIp⟩ := (runsNdc h).2
    have heq : server = dns := List.mem_singleton.mp (honly ▸ (mem_dnsTokens hserver).1)
    simp [heq ▸ hserverIp] at hip

omit h in
theorem read_servers :
    read .plain none (shellArglist dnses.length ((dnsTokens dnses).filter isIpToken)) =
      some (((dnsTokens dnses).filter isIpToken).map quoted) := by
  by_cases hshort : ∀ dns ∈ dnsTokens dnses, dns.length < dnses.length
  · refine read_arglist fun dns hdns => ?_
    have hmem := (List.mem_filter.mp hdns).1
    exact ⟨(isToken_of_mem hmem).ne_nil, hshort dns hmem, (isToken_of_mem hmem).quote⟩
  · push Not at hshort
    obtain ⟨dns, hmem, hlen⟩ := hshort
    have htoken := isToken_of_mem hmem
    rcases length_lt_or_of_mem_strtok (mem_dnsTokens hmem).1 with hlt | honly
    · exact absurd hlt (Nat.not_lt.mpr hlen)
    · -- the string is one token
      have heq : dns.length = dnses.length :=
        Nat.le_antisymm (length_le_of_mem_strtok (mem_dnsTokens hmem).1) hlen
      have hall : (dnsTokens dnses).filter isIpToken = [dns] ∨
          (dnsTokens dnses).filter isIpToken = [] := by
        have hsub : ((dnsTokens dnses).filter isIpToken).Sublist [dns] :=
          (List.filter_sublist).trans (honly ▸ List.filter_sublist)
        exact (List.sublist_singleton.mp hsub).symm
      rcases hall with hall | hall
      · rw [hall, ← heq, read_arglist_whole htoken.ne_nil htoken.quote]
        rfl
      · rw [hall]
        rfl

/-- How a shell reads the command, up to the search domains. -/
theorem read_setnetdns : read .plain none command =
    (read .plain (some []) (spliced (searchTokens dnses) ++ byte ' ' ::
      shellArglist dnses.length ((dnsTokens dnses).filter isIpToken))).map
        ((ndcWords netid).map bare ++ ·) := by
  have hsearch : ∀ dns ∈ searchTokens dnses, dns ≠ [] ∧ dns.length < dnses.length := fun dns hdns =>
    ⟨(isToken_of_mem_search hdns).ne_nil, searchTokens_length h hdns⟩
  have hcommand : command = cstring "ndc" ++ (byte ' ' :: (cstring "resolver" ++ (byte ' ' ::
      (cstring "setnetdns" ++ (byte ' ' :: (ascii (decimal netid) ++ (byte ' ' ::
        (byte '\'' :: (shellArglist dnses.length (searchTokens dnses) ++ byte '\'' ::
          (byte ' ' :: shellArglist dnses.length ((dnsTokens dnses).filter isIpToken))))))))))) := by
    obtain ⟨lists, hlists, rfl⟩ := Option.map_eq_some_iff.mp h
    obtain ⟨_, _, rfl⟩ := setDnses_eq_some.mp hlists
    simp [cstring, searchTokens]
  have hword : ∀ s ∈ ndcWords netid, ∀ line,
      read .plain none (s ++ (byte ' ' :: line)) = (read .plain none line).map (bare s :: ·) :=
    fun s hs => read_ndcWord hs
  rw [hcommand, arglist_quote hsearch, hword _ (by simp [ndcWords]), hword _ (by simp [ndcWords]),
    hword _ (by simp [ndcWords]), hword _ (by simp [ndcWords])]
  have hempty : ∀ line, read .plain none (byte '\'' :: byte '\'' :: line) = read .plain (some []) line :=
    fun line => rfl
  rw [hempty, Option.map_map, Option.map_map, Option.map_map]
  rfl

/-- The arguments, if no search domain has a special character. -/
theorem arguments_setnetdns
    (hordinary : ∀ dns ∈ searchTokens dnses, ∀ c ∈ dns, Shell.isOrdinary c = true)
    (E : Shell.Expansion) :
    Shell.arguments E command = some (ndcWords netid ++
      (E.expand (searchWord (searchTokens dnses)) ++ (dnsTokens dnses).filter isIpToken)) := by
  have hwords : ((ndcWords netid).map bare).flatMap E.expand = ndcWords netid := by
    rw [E.flatMap_literal, List.map_map]
    · exact List.map_id'' Shell.text_bare _
    · intro w hw
      obtain ⟨s, hs, rfl⟩ := List.mem_map.mp hw
      exact Shell.isPattern_bare fun c hc => ((ndcWords_ordinary hs).2 c hc).2.1
  have hservers : (((dnsTokens dnses).filter isIpToken).map quoted).flatMap E.expand =
      (dnsTokens dnses).filter isIpToken := by
    rw [E.flatMap_literal, List.map_map]
    · exact List.map_id'' Shell.text_quoted _
    · intro w hw
      obtain ⟨s, _, rfl⟩ := List.mem_map.mp hw
      exact Shell.isPattern_quoted s
  rw [Shell.arguments, read_setnetdns h, read_spliced hordinary, Shell.read_blank (by decide),
    read_servers]
  simp only [Option.map_some, Option.toList_some, List.flatMap_append, hwords, hservers,
    List.nil_append, List.flatMap_singleton]

end Command

/-! ## Tokens are not shell syntax -/

/-- Whatever the files, a shell runs `ndc` once and its arguments are the tokens as they are, with the
search domains separated by spaces in one argument. -/
def ReadsLiterally (netid : Nat) (dnses command : Bytes) : Prop :=
  ∀ E : Shell.Expansion, ∃ search : Bytes,
    strtok (· == byte ' ') search = searchTokens dnses ∧
    Shell.arguments E command =
      some (ndcWords netid ++ search :: (dnsTokens dnses).filter isIpToken)

/-- Search domains that a shell has no use for. -/
structure PlainSearch (search : List Bytes) : Prop where
  ordinary : ∀ dns ∈ search, ∀ c ∈ dns, Shell.isOrdinary c = true
  literal : Shell.isPattern (searchWord search) = false

theorem strtok_searchWord {search : List Bytes} (h : ∀ dns ∈ search, IsToken dns) :
    strtok (· == byte ' ') (searchWord search).text = search := by
  have htext : (searchWord search).text = search.flatMap fun dns => dns ++ [byte ' '] := by
    simp only [searchWord, Word.text, List.map_flatMap, List.map_append]
    exact List.flatMap_congr fun dns _ => congrArg (· ++ [byte ' ']) (Shell.text_bare dns)
  rw [htext]
  refine strtok_flatMap (by decide) fun dns hdns => ⟨(h dns hdns).ne_nil, fun c hc => ?_⟩
  exact (Bool.or_eq_false_iff.mp ((h dns hdns).blank c hc)).1

theorem count_arglist_le (len : Nat) (servers : List Bytes) :
    (shellArglist len servers).count (Shell.ch '"') ≤ servers.flatten.count (Shell.ch '"') := by
  induction servers with
  | nil => exact Nat.le_refl _
  | cons dns servers ih =>
    have harg : (shellArg len dns).count (Shell.ch '"') ≤ dns.count (Shell.ch '"') := by
      have hsub : (shellArg len dns).Sublist (byte '\'' :: (dns ++ cstring "' ")) :=
        (List.take_sublist ..).trans (List.take_sublist ..)
      refine (hsub.count_le _).trans (Nat.le_of_eq ?_)
      rw [List.count_cons_of_ne (by decide), List.count_append]
      rfl
    rw [shellArglist, List.flatMap_cons, List.count_append, List.flatten_cons, List.count_append]
    exact Nat.add_le_add harg ih

/-- No special character gets through. -/
theorem ordinary_of_readsLiterally {netid : Nat} {command : Bytes}
    (h : setnetdns netid dnses = some command) (hreads : ReadsLiterally netid dnses command) :
    ∀ dns ∈ searchTokens dnses, ∀ c ∈ dns, Shell.isOrdinary c = true := by
  by_contra hspecial
  push Not at hspecial
  obtain ⟨search, hsearch, hargs⟩ := hreads .noFiles
  obtain ⟨words, hwords, htexts⟩ := Option.map_eq_some_iff.mp hargs
  rw [read_setnetdns h] at hwords
  obtain ⟨tail, htail, rfl⟩ := Option.map_eq_some_iff.mp hwords
  have hlt := quotes_lt_of_spliced (fun _ hdns => isToken_of_mem_search hdns) htail
    (by simpa using hspecial)
  have htailTexts : tail.flatMap Word.text = search ++ ((dnsTokens dnses).filter isIpToken).flatten := by
    have htext : Shell.Expansion.noFiles.expand = fun w => [w.text] := rfl
    have hndc : ((ndcWords netid).map bare).map Word.text = ndcWords netid := by
      rw [List.map_map]
      exact List.map_id'' Shell.text_bare _
    rw [htext, ← List.map_eq_flatMap, List.map_append, hndc, List.append_cancel_left_eq] at htexts
    rw [List.flatMap_def, htexts, List.flatten_cons]
  rw [count_spliced, Shell.quotes, htailTexts, List.count_append, ← hsearch,
    count_flatten_strtok (by decide), List.count_cons_of_ne (by decide)] at hlt
  have hle := count_arglist_le dnses.length ((dnsTokens dnses).filter isIpToken)
  have hzero : Shell.quotes [[]] = 0 := rfl
  omega

theorem setnetdns_literal_iff (netid : Nat) (dnses : Bytes) :
    (∀ command, setnetdns netid dnses = some command → ReadsLiterally netid dnses command) ↔
      (RunsNdc dnses → PlainSearch (searchTokens dnses)) := by
  constructor
  · intro h hruns
    obtain ⟨command, hcommand⟩ := exists_setnetdns netid hruns
    have hreads := h command hcommand
    have hordinary := ordinary_of_readsLiterally hcommand hreads
    refine ⟨hordinary, ?_⟩
    by_contra hpattern
    -- two files that match
    obtain ⟨search, _, hargs⟩ := hreads (.matching [[], []])
    rw [arguments_setnetdns hcommand hordinary, Option.some_inj, List.append_cancel_left_eq] at hargs
    have hexpand : (Shell.Expansion.matching [[], []]).expand (searchWord (searchTokens dnses)) =
        [[], []] := if_pos (by simpa using hpattern)
    rw [hexpand] at hargs
    simpa using congrArg List.length hargs
  · intro h command hcommand E
    obtain ⟨hordinary, hliteral⟩ := h (runsNdc hcommand)
    refine ⟨(searchWord (searchTokens dnses)).text, strtok_searchWord fun _ hdns =>
      isToken_of_mem_search hdns, ?_⟩
    rw [arguments_setnetdns hcommand hordinary, E.literal _ hliteral]
    rfl

set_option maxRecDepth 8000 in
/-- A semicolon in a search domain starts another command. -/
theorem setnetdns_runs_another : ∃ command,
    setnetdns 100 (cstring "1.1.1.1,a;reboot") = some command ∧
    ¬ ReadsLiterally 100 (cstring "1.1.1.1,a;reboot") command := by
  have heval : setnetdns 100 (cstring "1.1.1.1,a;reboot") =
        some (cstring "ndc resolver setnetdns 100 ''a;reboot' ' '1.1.1.1' ") ∧
      read .plain none (cstring "ndc resolver setnetdns 100 ''a;reboot' ' '1.1.1.1' ") = none := by
    decide +kernel
  refine ⟨_, heval.1, fun hreads => ?_⟩
  obtain ⟨search, _, hargs⟩ := hreads .noFiles
  rw [Shell.arguments, heval.2] at hargs
  cases hargs

/-! ## The entries of an interface -/

set_option maxRecDepth 4000 in
theorem class_of_toUInt16 (b : UInt8) :
    charIsDigit b = isDigit b.toUInt16 ∧ (b = byte '.' ↔ b.toUInt16 = unit '.') :=
  forall_byte (p := fun b => charIsDigit b = isDigit b.toUInt16 ∧
    (b = byte '.' ↔ b.toUInt16 = unit '.')) (by decide) b

/-- The two classes of the pattern that has no colon. -/
theorem all_ascii_iff {s : JString} (h : IsAscii s) :
    ((ascii s).all fun c => charIsDigit c || c == byte '.') = true ↔
      ∀ c ∈ s, isDigit c = true ∨ c = unit '.' := by
  rw [List.all_eq_true, ascii, List.forall_mem_map]
  refine forall₂_congr fun c hc => ?_
  obtain ⟨hdigit, hdot⟩ := class_of_toUInt16 c.toUInt8
  rw [toUInt16_toUInt8 (h c hc)] at hdigit hdot
  rw [Bool.or_eq_true, beq_iff_eq, hdigit, hdot]

theorem native_of_isHostname {d : JString} (h : InetAddresses.isHostname d = true) : Native d := by
  refine ⟨Interface.plain_of_isHostname h, fun c hc => ?_⟩
  rcases (InetAddresses.isHostname_chars h).2 c hc with h | rfl | rfl
  · exact ascii_of_isAlnum h
  · decide
  · decide

/-- A host name is taken for an address if it has only digits and dots. -/
theorem isIpToken_hostname {d : JString} (h : InetAddresses.isHostname d = true) :
    isIpToken (ascii d) = true ↔ ∀ c ∈ d, isDigit c = true ∨ c = unit '.' := by
  have hascii := (native_of_isHostname h).ascii
  obtain ⟨hne, hchars⟩ := InetAddresses.isHostname_chars h
  have hcolon : (ascii d).contains (byte ':') = false := by
    rw [Bool.eq_false_iff, ne_eq, List.contains_iff_mem]
    intro hmem
    rcases hchars _ (toUInt16_mem hascii hmem) with h | h | h
    · exact absurd h (by decide)
    · exact absurd h (by decide)
    · exact absurd h (by decide)
  have hempty : (ascii d).isEmpty = false := by simpa [ascii] using hne
  rw [isIpToken, hcolon, hempty, Bool.or_false, Bool.not_false, Bool.true_and, all_ascii_iff hascii]

/-- An entry of the list that `set_dnses` does not skip. -/
structure Entry (s : JString) : Prop extends Native s where
  quote : unit '\'' ∉ s
  backslash : unit '\\' ∉ s

theorem entry_of_isHostname {d : JString} (h : InetAddresses.isHostname d = true) : Entry d := by
  have hchars := (InetAddresses.isHostname_chars h).2
  refine ⟨native_of_isHostname h, fun hmem => ?_, fun hmem => ?_⟩
  · rcases hchars _ hmem with h | h | h <;> exact absurd h (by decide)
  · rcases hchars _ hmem with h | h | h <;> exact absurd h (by decide)

set_option maxRecDepth 4000 in
theorem Entry.delim {x : JString} (h : Entry x) :
    ascii x ≠ [] ∧ ∀ b ∈ ascii x, (cstring ", \t\n").contains b = false := by
  refine ⟨fun hnil => h.plain.1 (List.map_eq_nil_iff.mp hnil), fun b hb => ?_⟩
  have hcomma := (h.plain.2 _ (toUInt16_mem h.ascii hb)).2.1
  exact forall_byte (p := fun b => isspace b = false → b.toUInt16 ≠ unit ',' →
    (cstring ", \t\n").contains b = false) (by decide) b
    (native_bytes h.toNative b hb).1 hcomma

theorem strtok_join {xs : List JString} (h : ∀ x ∈ xs, Entry x) :
    strtok (cstring ", \t\n").contains (ascii (Attribute.join xs)) = xs.map ascii := by
  induction xs with
  | nil => rfl
  | cons x xs ih =>
    obtain ⟨hne, hdelim⟩ := (h x List.mem_cons_self).delim
    cases xs with
    | nil => rw [Attribute.join, List.intercalate_singleton, strtok_token hne hdelim]; rfl
    | cons y ys =>
      have hrest := ih fun z hz => h z (List.mem_cons_of_mem _ hz)
      rw [Attribute.join] at hrest ⊢
      have hshape : ascii ((text ", ").intercalate (x :: y :: ys)) =
          ascii x ++ byte ',' :: ([] ++ byte ' ' :: ascii ((text ", ").intercalate (y :: ys))) := by
        rw [List.intercalate_cons_cons, ascii_append, ascii_append, List.append_assoc]
        rfl
      rw [hshape, strtok_append (by decide), strtok_append (by decide), strtok_token hne hdelim, hrest]
      rfl

/-- The tokens of a printed list. -/
theorem dnsTokens_join {xs : List JString} (h : ∀ x ∈ xs, Entry x) :
    dnsTokens (ascii (Attribute.join xs)) = xs.map ascii := by
  rw [dnsTokens, strtok_join h, List.filter_eq_self, List.forall_mem_map]
  intro x hx
  have hquote : byte '\'' ∉ ascii x := fun hmem =>
    (h x hx).quote (toUInt16_mem (h x hx).ascii hmem)
  have hbackslash : byte '\\' ∉ ascii x := fun hmem =>
    (h x hx).backslash (toUInt16_mem (h x hx).ascii hmem)
  simp [hquote, hbackslash]

section Interface

variable {P : Platform} {L : Libc} (hP : P.LawfulAddresses) (hL : L.Agrees P)
  {a : InetAddress} (ha : ∃ s, InetAddresses.parse P s = .ok a) (hzone : a.zone = none)
include hP hL ha hzone

theorem entry_hostAddress : Entry (P.getHostAddress a) := by
  have hchars := hostAddress_chars hL ha hzone
  refine ⟨native_hostAddress hP hL ha hzone, fun hmem => ?_, fun hmem => ?_⟩
  · rcases hchars _ hmem with h | h | h <;> exact absurd h (by decide)
  · rcases hchars _ hmem with h | h | h <;> exact absurd h (by decide)

/-- A server is taken for an address. -/
theorem isIpToken_hostAddress : isIpToken (ascii (P.getHostAddress a)) = true := by
  have hnative := native_hostAddress hP hL ha hzone
  have hcolon := contains_colon hP hL ha hzone
  rw [isIpToken, hcolon]
  obtain ⟨s, hs⟩ := ha
  cases a with
  | inet4 a =>
    have hempty : (ascii (P.getHostAddress (.inet4 a))).isEmpty = false := by
      simpa [ascii] using hnative.plain.1
    have hall := (all_ascii_iff hnative.ascii).mpr (hL.text4 s a hs)
    rw [hempty, hall]
    rfl
  | inet6 a zone => exact Bool.or_true _

end Interface

/-- The lists of wg-quick for servers that it recognises and any other entries. -/
theorem setDnses_join {servers domains : List JString} (hentry : ∀ x ∈ servers ++ domains, Entry x)
    (hservers : ∀ x ∈ servers, isIpToken (ascii x) = true) (hne : servers ≠ []) :
    setDnses (ascii (Attribute.join (servers ++ domains))) =
        some ⟨servers.map ascii, domains.map ascii⟩ ↔
      (ascii (Attribute.join (servers ++ domains))).length ≤ 2 ^ 16 ∧
      ∀ d ∈ domains, isIpToken (ascii d) = false := by
  have hip : (servers.map ascii).filter isIpToken = servers.map ascii :=
    List.filter_eq_self.mpr (List.forall_mem_map.mpr hservers)
  have hnot : (servers.map ascii).filter (fun dns => !isIpToken dns) = [] := by
    rw [List.filter_eq_nil_iff, List.forall_mem_map]
    exact fun x hx => by simp [hservers x hx]
  rw [setDnses_eq_some, dnsTokens_join hentry, List.map_append, List.filter_append, hip,
    List.filter_append, hnot, List.nil_append, DnsLists.mk.injEq, List.self_eq_append_right,
    List.filter_eq_nil_iff, List.forall_mem_map]
  constructor
  · rintro ⟨hlen, _, hdomains, _⟩
    exact ⟨hlen, fun d hd => Bool.eq_false_iff.mpr (hdomains d hd)⟩
  · rintro ⟨hlen, hdomains⟩
    refine ⟨hlen, ?_, fun d hd => Bool.eq_false_iff.mp (hdomains d hd), ?_⟩
    · obtain ⟨x, hx⟩ := List.exists_mem_of_ne_nil servers hne
      exact ⟨ascii x, List.mem_append_left _ (List.mem_map_of_mem hx), hservers x hx⟩
    · refine (List.filter_eq_self.mpr (List.forall_mem_map.mpr fun d hd => ?_)).symm
      simp [hdomains d hd]

/-- wg-quick classifies the entries of an interface as the app does if and only if the printed value is
not too long for it and no search domain looks like an address. -/
theorem setDnses_agrees_iff {P : Platform} {L : Libc} (hP : P.LawfulAddresses) (hL : L.Agrees P)
    {lines : List JString} {i : Interface} (h : Interface.parse P lines = .ok i)
    (hzone : ∀ a ∈ i.dnsServers.elems, a.zone = none) (hservers : i.dnsServers.elems ≠ []) :
    Attribute.line "DNS" (Attribute.join (i.dnsValues P)) ∈ i.quickLines P ∧
    (setDnses (getBytes (Attribute.join (i.dnsValues P))) =
        some ⟨i.dnsServers.elems.map fun a => getBytes (P.getHostAddress a),
          i.dnsSearchDomains.elems.map getBytes⟩ ↔
      (getBytes (Attribute.join (i.dnsValues P))).length ≤ 2 ^ 16 ∧
      ∀ d ∈ i.dnsSearchDomains.elems, ∃ c ∈ d, isDigit c = false ∧ c ≠ unit '.') := by
  have hparsed := Interface.parsed_of_parse h
  have hvalues : i.dnsValues P =
      i.dnsServers.elems.map P.getHostAddress ++ i.dnsSearchDomains.elems := by
    rw [Interface.dnsValues, if_neg (by simpa [LinkedSet.isEmpty] using hservers)]
  have hhost : ∀ d ∈ i.dnsSearchDomains.elems, InetAddresses.isHostname d = true := fun d hd =>
    (hparsed.dnsSearchDomains d hd).1
  have hentry : ∀ x ∈ i.dnsServers.elems.map P.getHostAddress ++ i.dnsSearchDomains.elems,
      Entry x := by
    intro x hx
    rcases List.mem_append.mp hx with hx | hx
    · obtain ⟨a, ha, rfl⟩ := List.mem_map.mp hx
      exact entry_hostAddress hP hL (hparsed.dnsServers a ha) (hzone a ha)
    · exact entry_of_isHostname (hhost x hx)
  have hbytes : ∀ x ∈ i.dnsServers.elems.map P.getHostAddress ++ i.dnsSearchDomains.elems,
      getBytes x = ascii x := fun x hx => getBytes_of_isAscii (hentry x hx).ascii
  have hserverBytes : (i.dnsServers.elems.map fun a => getBytes (P.getHostAddress a)) =
      (i.dnsServers.elems.map P.getHostAddress).map ascii := by
    rw [List.map_map]
    exact List.map_congr_left fun a ha =>
      hbytes _ (List.mem_append_left _ (List.mem_map_of_mem ha))
  have hdomainBytes : i.dnsSearchDomains.elems.map getBytes = i.dnsSearchDomains.elems.map ascii :=
    List.map_congr_left fun d hd => hbytes d (List.mem_append_right _ hd)
  constructor
  · have hline : Attribute.line "DNS" (Attribute.join (i.dnsValues P)) ∈
        Attribute.listLine "DNS" (i.dnsValues P) := by
      rw [Attribute.listLine, if_neg (by simp [hvalues, hservers])]
      exact List.mem_singleton_self _
    exact List.mem_append_right _ (List.mem_append_left _ hline)
  · rw [hvalues, getBytes_of_isAscii (isAscii_join fun x hx => (hentry x hx).toNative), hserverBytes,
      hdomainBytes, setDnses_join hentry]
    · refine and_congr_right fun _ => forall₂_congr fun d hd => ?_
      rw [← Bool.not_eq_true, isIpToken_hostname (hhost d hd)]
      push Not
      simp only [ne_eq, Bool.not_eq_true]
    · intro x hx
      obtain ⟨a, ha, rfl⟩ := List.mem_map.mp hx
      exact isIpToken_hostAddress hP hL (hparsed.dnsServers a ha) (hzone a ha)
    · simpa using hservers

/-- An interface with a server and a search domain. -/
def dnsSample (domain : String) : List JString :=
  [text "PrivateKey = TFlmmEUC7V7VtiDYLKsbP5rySTKLIZq1yn8lMqK83wo=",
   text "DNS = 192.0.2.1, " ++ text domain]

theorem parse_dnsSample {domain : String} (h : domain ∈ ["example.com", "1.2.3"]) :
    ∃ i, Interface.parse samplePlatform (dnsSample domain) = .ok i ∧
      i.dnsServers.elems = [.inet4 0xC0000201] ∧ i.dnsSearchDomains.elems = [text domain] ∧
      i.dnsValues samplePlatform = [text "192.0.2.1", text domain] := by
  have heval : ∀ domain ∈ ["example.com", "1.2.3"],
      (Interface.parse samplePlatform (dnsSample domain)).map
          (fun i => (i.dnsServers.elems, i.dnsSearchDomains.elems)) =
        .ok ([.inet4 0xC0000201], [text domain]) := by
    decide +kernel
  obtain ⟨i, hparse, helems⟩ := Checked.map_eq_ok (heval domain h)
  obtain ⟨hservers, hdomains⟩ := Prod.mk.inj helems
  refine ⟨i, hparse, hservers, hdomains, ?_⟩
  rw [Interface.dnsValues, LinkedSet.isEmpty, hservers, hdomains]
  rfl

theorem setDnses_agrees_example :
    ∃ i, Interface.parse samplePlatform (dnsSample "example.com") = .ok i ∧
      setDnses (getBytes (Attribute.join (i.dnsValues samplePlatform))) =
        some ⟨i.dnsServers.elems.map fun a => getBytes (samplePlatform.getHostAddress a),
          i.dnsSearchDomains.elems.map getBytes⟩ := by
  obtain ⟨i, hparse, hservers, hdomains, hvalues⟩ := parse_dnsSample (.head _)
  have hzone : ∀ a ∈ i.dnsServers.elems, a.zone = none := by
    rw [hservers]
    decide
  refine ⟨i, hparse, (setDnses_agrees_iff samplePlatform_lawfulAddresses sampleLibc_agrees hparse
    hzone (by simp [hservers])).2.mpr ⟨?_, ?_⟩⟩
  · rw [hvalues]
    decide +kernel
  · rw [hdomains]
    decide

/-- A search domain of digits and dots becomes a server. -/
theorem setDnses_numeric_domain :
    ∃ i, Interface.parse samplePlatform (dnsSample "1.2.3") = .ok i ∧ i.dnsServers.elems ≠ [] ∧
      (∀ a ∈ i.dnsServers.elems, a.zone = none) ∧
      setDnses (getBytes (Attribute.join (i.dnsValues samplePlatform))) ≠
        some ⟨i.dnsServers.elems.map fun a => getBytes (samplePlatform.getHostAddress a),
          i.dnsSearchDomains.elems.map getBytes⟩ := by
  obtain ⟨i, hparse, hservers, hdomains, hvalues⟩ := parse_dnsSample (.tail _ (.head _))
  refine ⟨i, hparse, by simp [hservers], by rw [hservers]; decide, ?_⟩
  have heval : setDnses (getBytes (Attribute.join [text "192.0.2.1", text "1.2.3"])) =
      some ⟨[cstring "192.0.2.1", cstring "1.2.3"], []⟩ := by decide +kernel
  rw [hvalues, heval, hdomains]
  simp

end WgAndroid
