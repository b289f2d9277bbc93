import WgAndroid.Config.Network
import WgAndroid.Lib.Intervals
import WgAndroid.Lib.LinkedSet

/-!
# The IPv4 addresses of networks

Which IPv4 addresses belong to a network, and to the networks that some texts denote.

Results:
1. `InetNetwork.covers_inet4_iff`: the addresses of an IPv4 network are an interval.
2. `InetNetwork.stripped_of_parse`, `InetNetwork.colon_of_parse`: how the text of a network looks.
-/

namespace WgAndroid

open Delimited

namespace InetNetwork

/-- An IPv4 address has the first bits of the network's address, as many as the mask says. -/
def covers (n : InetNetwork) (a : BitVec 32) : Prop :=
  match n.address with
  | .inet4 b => a >>> (32 - n.mask) = b >>> (32 - n.mask)
  | .inet6 _ _ => False

/-- The first address of an IPv4 network and the one behind the last. -/
def block (b : BitVec 32) (mask : Nat) : Nat × Nat :=
  (b.toNat / 2 ^ (32 - mask) * 2 ^ (32 - mask), (b.toNat / 2 ^ (32 - mask) + 1) * 2 ^ (32 - mask))

theorem covers_inet4_iff {a b : BitVec 32} {mask : Nat} :
    covers ⟨.inet4 b, mask⟩ a ↔ (block b mask).1 ≤ a.toNat ∧ a.toNat < (block b mask).2 := by
  have hpow : 0 < 2 ^ (32 - mask) := Nat.two_pow_pos _
  show a >>> (32 - mask) = b >>> (32 - mask) ↔ _
  rw [BitVec.toNat_eq, BitVec.toNat_ushiftRight, BitVec.toNat_ushiftRight, Nat.shiftRight_eq_div_pow,
    Nat.shiftRight_eq_div_pow, Nat.le_antisymm_iff, and_comm]
  exact and_congr (Nat.le_div_iff_mul_le hpow) (Nat.lt_succ_iff.symm.trans (Nat.div_lt_iff_lt_mul hpow))

theorem covers_single_iff {a b : BitVec 32} : covers ⟨.inet4 b, 32⟩ a ↔ a = b := by
  show a >>> 0 = b >>> 0 ↔ _
  rw [BitVec.ushiftRight_zero, BitVec.ushiftRight_zero]

theorem covers_all (a : BitVec 32) : covers ⟨.inet4 0, 0⟩ a := by
  rw [covers_inet4_iff]
  exact ⟨Nat.zero_le _, a.isLt⟩

end InetNetwork

/-! ## Texts -/

/-- The four bytes of an address in decimal. -/
def dottedQuad (a : BitVec 32) : JString :=
  [unit '.'].intercalate ([24, 16, 8, 0].map fun shift => decimal (a.toNat / 2 ^ shift % 256))

/-- What is documented of numeric addresses: four decimal bytes are an IPv4 address, an IPv6 address is
written with colons, and there is no white space at the ends. -/
structure Platform.LawfulNumeric (P : Platform) : Prop where
  dotted : ∀ a, InetAddresses.parse P (dottedQuad a) = .ok (.inet4 a)
  colon : ∀ s a zone, InetAddresses.parse P s = .ok (.inet6 a zone) → unit ':' ∈ s
  stripped : ∀ s a, InetAddresses.parse P s = .ok a → Stripped isSpace s

namespace InetNetwork

variable {P : Platform} {x s : JString} {n : InetNetwork}

/-- The text of a network is an address, or an address and a number behind the last slash. -/
theorem exists_of_parse (h : parse P x = .ok n) :
    ∃ r, InetAddresses.parse P r = .ok n.address ∧
      (x = r ∨ ∃ t m, x = r ++ unit '/' :: t ∧ parseInt t = some m) := by
  by_cases hslash : unit '/' ∈ x
  · obtain ⟨r, t, rfl, ht⟩ := exists_last_slash hslash
    rw [parse_of_slash ht] at h
    cases hm : parseInt t with
    | none =>
      rw [hm] at h
      cases h
    | some m =>
      rw [hm] at h
      obtain ⟨a, ha, -, rfl⟩ := make_eq_ok_iff.mp h
      exact ⟨r, ha, .inr ⟨t, m, rfl, hm⟩⟩
  · rw [parse_of_no_slash hslash] at h
    obtain ⟨a, ha, -, rfl⟩ := make_eq_ok_iff.mp h
    exact ⟨x, ha, .inl rfl⟩

theorem stripped_of_parse (hP : P.LawfulNumeric) (h : parse P x = .ok n) : x ≠ [] ∧ Stripped isSpace x := by
  obtain ⟨r, hr, rfl | ⟨t, m, rfl, ht⟩⟩ := exists_of_parse h
  · exact ⟨InetAddresses.parse_ne_nil hr, hP.stripped _ _ hr⟩
  · refine ⟨List.append_ne_nil_of_right_ne_nil _ (List.cons_ne_nil _ _), fun c hc => ?_, fun c hc => ?_⟩
    · rw [List.head?_append_of_ne_nil _ (InetAddresses.parse_ne_nil hr)] at hc
      exact (hP.stripped _ _ hr).1 c hc
    · -- a number has no white space
      cases hspace : isSpace c with
      | false => rfl
      | true =>
        obtain ⟨hdigit, hminus, hplus⟩ := digit_of_isSpace hspace
        rw [List.getLast?_append_of_ne_nil _ (List.cons_ne_nil _ _)] at hc
        rcases List.mem_cons.mp (List.mem_of_getLast? hc) with rfl | hc
        · cases hspace
        · exact absurd hc (not_mem_of_parseInt hdigit hminus hplus ht)

theorem colon_of_parse (hP : P.LawfulNumeric) (h : parse P x = .ok n) (h6 : n.address.isInet4 = false) :
    unit ':' ∈ x := by
  obtain ⟨r, hr, hx⟩ := exists_of_parse h
  have hcolon : unit ':' ∈ r := by
    cases ha : n.address with
    | inet4 a =>
      rw [ha] at h6
      cases h6
    | inet6 a zone => exact hP.colon r a zone (ha ▸ hr)
  rcases hx with rfl | ⟨t, m, rfl, -⟩
  · exact hcolon
  · exact List.mem_append_left _ hcolon

/-! ## Lists of texts -/

instance : ReflBEq InetAddress where
  rfl := by
    rintro (a | ⟨a, zone⟩)
    · exact beq_self_eq_true a
    · exact beq_self_eq_true a

instance : ReflBEq InetNetwork where
  rfl := by
    rintro ⟨address, mask⟩
    show (address == address && mask == mask) = true
    rw [BEq.refl, BEq.refl, Bool.and_self]

/-- The networks that some texts denote. -/
def networkSet (P : Platform) (xs : List JString) : LinkedSet InetNetwork :=
  LinkedSet.empty.addAll (xs.filterMap fun x => (parse P x).toOption)

/-- One of the texts denotes a network with this address. -/
def CoveredBy (P : Platform) (xs : List JString) (a : BitVec 32) : Prop :=
  ∃ x ∈ xs, ∃ n, parse P x = .ok n ∧ n.covers a

def hasColon (x : JString) : Bool := x.contains (unit ':')

/-- The IPv6 networks of a set. -/
def ipv6 (s : LinkedSet InetNetwork) : List InetNetwork := s.elems.filter fun n => !n.address.isInet4

theorem coveredBy_append {xs ys : List JString} {a : BitVec 32} :
    CoveredBy P (xs ++ ys) a ↔ CoveredBy P xs a ∨ CoveredBy P ys a := by
  simp only [CoveredBy, List.mem_append, or_and_right, exists_or]

theorem coveredBy_congr {xs ys : List JString} {a : BitVec 32} (h : ∀ x, x ∈ xs ↔ x ∈ ys) :
    CoveredBy P xs a ↔ CoveredBy P ys a := by
  simp only [CoveredBy, h]

/-- Networks that are the same have the same IPv4 addresses. -/
theorem covers_congr {n m : InetNetwork} {a : BitVec 32} (h : (n == m) = true) : n.covers a ↔ m.covers a := by
  obtain ⟨b | ⟨b, zone⟩, mask⟩ := n <;> obtain ⟨b' | ⟨b', zone'⟩, mask'⟩ := m <;>
    simp_all [BEq.beq, equals, InetAddress.equals, covers]

theorem covers_networkSet_iff {xs : List JString} {a : BitVec 32} :
    (∃ n ∈ (networkSet P xs).elems, n.covers a) ↔ CoveredBy P xs a := by
  constructor
  · rintro ⟨n, hn, ha⟩
    obtain ⟨x, hx, hparse⟩ := List.mem_filterMap.mp (LinkedSet.mem_of_mem_addAll_empty hn)
    exact ⟨x, hx, n, Checked.toOption_eq_some.mp hparse, ha⟩
  · rintro ⟨x, hx, n, hparse, ha⟩
    have hmem : n ∈ xs.filterMap fun x => (parse P x).toOption :=
      List.mem_filterMap.mpr ⟨x, hx, Checked.toOption_eq_some.mpr hparse⟩
    obtain ⟨m, hm, heq⟩ := List.any_eq_true.mp (LinkedSet.contains_of_mem (s := .empty) hmem)
    exact ⟨m, hm, (covers_congr heq).mpr ha⟩

theorem networkSet_eraseDups (xs : List JString) : networkSet P xs.eraseDups = networkSet P xs :=
  LinkedSet.addAll_filterMap_eraseDups xs _

/-- The IPv6 networks come from the texts with a colon. -/
theorem ipv6_networkSet (hP : P.LawfulNumeric) {xs : List JString} :
    ipv6 (networkSet P (xs.filter hasColon)) = ipv6 (networkSet P xs) := by
  have hsix : ∀ n m : InetNetwork, (n == m) = true → (!n.address.isInet4) = !m.address.isInet4 := by
    rintro ⟨b | ⟨b, zone⟩, mask⟩ ⟨b' | ⟨b', zone'⟩, mask'⟩ <;>
      simp [BEq.beq, equals, InetAddress.equals, InetAddress.isInet4]
  rw [ipv6, networkSet, LinkedSet.filter_addAll hsix (t := .empty) rfl, ipv6, networkSet,
    LinkedSet.filter_addAll hsix (t := .empty) rfl]
  congr 2
  induction xs with
  | nil => rfl
  | cons x xs ih =>
    cases hcolon : hasColon x with
    | true =>
      rw [List.filter_cons_of_pos hcolon, List.filterMap_cons, List.filterMap_cons]
      cases (parse P x).toOption with
      | none => exact ih
      | some n => rw [List.filter_cons, List.filter_cons, ih]
    | false =>
      rw [List.filter_cons_of_neg (by rw [hcolon]; decide), List.filterMap_cons, ih]
      cases hparse : (parse P x).toOption with
      | none => rfl
      | some n =>
        refine (List.filter_cons_of_neg fun hsix => Bool.false_ne_true (hcolon.symm.trans ?_)).symm
        exact List.contains_iff_mem.mpr (colon_of_parse hP (Checked.toOption_eq_some.mp hparse) (by simpa using hsix))

theorem ipv6_congr (hP : P.LawfulNumeric) {xs ys : List JString}
    (h : xs.filter hasColon = ys.filter hasColon) :
    ipv6 (networkSet P xs) = ipv6 (networkSet P ys) := by
  rw [← ipv6_networkSet hP, h, ipv6_networkSet hP]

end InetNetwork

/-! ## A platform that reads four decimal bytes -/

def parseQuad (s : JString) : Option (BitVec 32) :=
  match (s.splitOn (unit '.')).mapM magnitude with
  | some [a, b, c, d] =>
    if a < 256 ∧ b < 256 ∧ c < 256 ∧ d < 256 then some (.ofNat 32 (a * 2 ^ 24 + b * 2 ^ 16 + c * 2 ^ 8 + d)) else none
  | _ => none

/-- Besides them it knows one IPv6 address. -/
def parseNumeric (s : JString) : Option InetAddress :=
  match parseQuad s with
  | some a => some (.inet4 a)
  | none => if s = text "::" then some (.inet6 0 none) else none

def numericPlatform : Platform where
  parseNumericAddress := some parseNumeric
  getByName := parseNumeric
  getHostAddress
    | .inet4 a => dottedQuad a
    | .inet6 _ _ => text "::"
  uri _ := none

theorem parseQuad_dottedQuad (a : BitVec 32) : parseQuad (dottedQuad a) = some a := by
  have hsplit : (dottedQuad a).splitOn (unit '.') = [24, 16, 8, 0].map fun shift => decimal (a.toNat / 2 ^ shift % 256) := by
    refine List.splitOn_intercalate _ (fun l hl hdot => ?_) (by simp)
    obtain ⟨shift, -, rfl⟩ := List.mem_map.mp hl
    exact ne_of_isAlnum (isAlnum_of_mem_decimal hdot) (by decide : isAlnum (unit '.') = false) rfl
  have hlt : ∀ n, n % 256 < 256 := fun n => Nat.mod_lt n (by decide)
  rw [parseQuad, hsplit]
  simp only [List.map_cons, List.map_nil, List.mapM_cons, List.mapM_nil, magnitude_decimal, Option.pure_def,
    Option.bind_eq_bind, Option.bind_some, hlt, and_self, if_true]
  congr 1
  apply BitVec.eq_of_toNat_eq
  rw [BitVec.toNat_ofNat]
  have := a.isLt
  omega

theorem isSpace_of_mem_quad {s : JString} {a : BitVec 32} (h : parseQuad s = some a) {c : UInt16} (hc : c ∈ s) :
    isSpace c = false := by
  obtain ⟨ns, hns⟩ : ∃ ns, (s.splitOn (unit '.')).mapM magnitude = some ns := by
    unfold parseQuad at h
    split at h
    · next hns => exact ⟨_, hns⟩
    · cases h
  have hjoin : [unit '.'].intercalate (s.splitOn (unit '.')) = s := List.intercalate_splitOn _
  rw [← hjoin] at hc
  rcases mem_intercalate hc with hc | ⟨l, hl, hc⟩
  · rw [List.mem_singleton.mp hc]
    decide
  · obtain ⟨n, -, hn⟩ := Checked.exists_of_mem_left (Checked.forall₂_of_mapM_eq_some hns) hl
    cases hspace : isSpace c with
    | false => rfl
    | true => exact absurd hc (InetNetwork.not_mem_of_magnitude (digit_of_isSpace hspace).1 hn)

theorem parse_numericPlatform {s : JString} {a : InetAddress} (h : InetAddresses.parse numericPlatform s = .ok a) :
    (∃ b, parseQuad s = some b ∧ a = .inet4 b) ∨ s = text "::" ∧ a = .inet6 0 none := by
  unfold InetAddresses.parse at h
  split at h
  · cases h
  · dsimp only [numericPlatform, parseNumeric] at h
    cases hquad : parseQuad s with
    | some b =>
      rw [hquad] at h
      cases h
      exact .inl ⟨b, rfl, rfl⟩
    | none =>
      rw [hquad] at h
      by_cases hs : s = text "::"
      · rw [hs] at h
        cases h
        exact .inr ⟨hs, rfl⟩
      · dsimp only at h
        rw [if_neg hs] at h
        cases h

theorem numericPlatform_lawfulNumeric : numericPlatform.LawfulNumeric where
  dotted a := by
    have hne : dottedQuad a ≠ [] := fun hnil => by
      have hparse := parseQuad_dottedQuad a
      rw [hnil] at hparse
      cases hparse
    unfold InetAddresses.parse
    rw [if_neg (mt List.isEmpty_iff.mp hne)]
    dsimp only [numericPlatform, parseNumeric]
    rw [parseQuad_dottedQuad]
  colon s a zone h := by
    rcases parse_numericPlatform h with ⟨b, -, hb⟩ | ⟨rfl, -⟩
    · cases hb
    · decide
  stripped s a h := by
    rcases parse_numericPlatform h with ⟨b, hb, -⟩ | ⟨rfl, -⟩
    · exact ⟨fun c hc => isSpace_of_mem_quad hb (List.mem_of_mem_head? hc),
        fun c hc => isSpace_of_mem_quad hb (List.mem_of_getLast? hc)⟩
    · decide

end WgAndroid
