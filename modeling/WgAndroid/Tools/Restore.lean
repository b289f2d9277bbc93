import WgAndroid.Tools.ShowConf
import WgAndroid.Tools.SyncConf

/-!
# Printing a device and setting it again

What `wg showconf` prints for one device and `wg setconf` or `wg syncconf` reads for another one, or for
the same.

Results:
1. `foldl_setOne_fresh`: on a device without peers, new peers become what they say.
2. `setconf_showconf`: the text that is printed for one device makes any device the same.
3. `syncconf_showconf`: a device that is given its own text does not change.
-/

namespace WgAndroid

/-! ## New peers -/

namespace Netlink

/-- An allowed IP as the kernel has it. -/
def AllowedIp.network (a : AllowedIp) : Option IpAddr × UInt8 := (a.address, a.cidr)

/-- A peer as the kernel has it when it is new. -/
def Peer.fresh (p : Peer) : KernelPeer :=
  ⟨p.presharedKey, p.endpoint, p.persistentKeepaliveInterval, p.allowedIps.map AllowedIp.network⟩

theorem filter_network_of_notMem {a : AllowedIp} {ips : List (Option IpAddr × UInt8)}
    (h : a.network ∉ ips) : ips.filter (· != (a.address, a.cidr)) = ips := by
  refine List.filter_eq_self.mpr fun n hn => bne_iff_ne.mpr ?_
  rintro rfl
  exact h hn

theorem foldl_setAllowedIp_other {key other : Bytes} (hkey : other ≠ key) {as : List AllowedIp}
    (hflags : ∀ a ∈ as, a.flags = 0) {ips : List (Option IpAddr × UInt8)}
    (hdisjoint : ∀ a ∈ as, a.network ∉ ips) : as.foldl (setAllowedIp key other) ips = ips := by
  induction as with
  | nil => rfl
  | cons a as ih =>
    have hstep : setAllowedIp key other ips a = ips := by
      rw [setAllowedIp, hflags a List.mem_cons_self, if_neg (by decide), if_neg hkey,
        List.append_nil, filter_network_of_notMem (hdisjoint a List.mem_cons_self)]
    rw [List.foldl_cons, hstep]
    exact ih (fun b hb => hflags b (List.mem_cons_of_mem a hb))
      fun b hb => hdisjoint b (List.mem_cons_of_mem a hb)

theorem foldl_setAllowedIp_self (key : Bytes) {as : List AllowedIp} (hflags : ∀ a ∈ as, a.flags = 0)
    {ips : List (Option IpAddr × UInt8)} (hnodup : (ips ++ as.map AllowedIp.network).Nodup) :
    as.foldl (setAllowedIp key key) ips = ips ++ as.map AllowedIp.network := by
  induction as generalizing ips with
  | nil => exact (List.append_nil ips).symm
  | cons a as ih =>
    have hnew : a.network ∉ ips := fun hmem =>
      (List.nodup_append.mp hnodup).2.2 _ hmem _ List.mem_cons_self rfl
    have hstep : setAllowedIp key key ips a = ips ++ [a.network] := by
      rw [setAllowedIp, hflags a List.mem_cons_self, if_neg (by decide), if_pos rfl,
        filter_network_of_notMem hnew]
      rfl
    have happend : ips ++ (a :: as).map AllowedIp.network =
        ips ++ [a.network] ++ as.map AllowedIp.network := by
      rw [List.map_cons, List.append_assoc, List.singleton_append]
    rw [happend] at hnodup ⊢
    rw [List.foldl_cons, hstep]
    exact ih (fun b hb => hflags b (List.mem_cons_of_mem a hb)) hnodup

/-- A request that is made of new peers. -/
structure Fresh (ps : List Peer) : Prop where
  removeMe : ∀ p ∈ ps, p.removeMe = false
  flags : ∀ p ∈ ps, ∀ a ∈ p.allowedIps, a.flags = 0
  keys : (ps.map Peer.publicKey).Nodup
  /-- An allowed IP belongs to one peer. -/
  owned : (ps.flatMap fun p => p.allowedIps.map AllowedIp.network).Nodup

section Fresh

variable {key : Bytes} {p : Peer} {ps : List Peer}

theorem Fresh.tail (h : Fresh (p :: ps)) : Fresh ps := by
  obtain ⟨hremove, hflags, hkeys, howned⟩ := h
  rw [List.map_cons, List.nodup_cons] at hkeys
  rw [List.flatMap_cons, List.nodup_append] at howned
  exact ⟨fun q hq => hremove q (List.mem_cons_of_mem p hq),
    fun q hq => hflags q (List.mem_cons_of_mem p hq), hkeys.2, howned.2.1⟩

theorem foldl_setOne_none (hremove : ∀ p ∈ ps, p.removeMe = false)
    (hkey : key ∉ ps.map Peer.publicKey) : (ps.map Peer.sent).foldl (setOne key) none = none := by
  induction ps with
  | nil => rfl
  | cons p ps ih =>
    rw [List.map_cons, List.mem_cons, not_or] at hkey
    have hstep : setOne key none p.sent = none := setOne_of_ne hkey.1 (hremove p List.mem_cons_self)
    rw [List.map_cons, List.foldl_cons, hstep]
    exact ih (fun q hq => hremove q (List.mem_cons_of_mem p hq)) hkey.2

/-- The peers that follow take nothing from a peer. -/
theorem foldl_setOne_some (h : Fresh ps) (hkey : key ∉ ps.map Peer.publicKey) {q : KernelPeer}
    (hdisjoint : ∀ p ∈ ps, ∀ a ∈ p.allowedIps, a.network ∉ q.allowedIps) :
    (ps.map Peer.sent).foldl (setOne key) (some q) = some q := by
  induction ps with
  | nil => rfl
  | cons p ps ih =>
    rw [List.map_cons, List.mem_cons, not_or] at hkey
    have hip : p.sent.allowedIps.foldl (setAllowedIp p.sent.publicKey key) q.allowedIps =
        q.allowedIps :=
      foldl_setAllowedIp_other hkey.1 (h.flags p List.mem_cons_self) (hdisjoint p List.mem_cons_self)
    have hstep : setOne key (some q) p.sent = some q := by
      rw [setOne_of_ne hkey.1 (h.removeMe p List.mem_cons_self), Option.map_some,
        KernelPeer.mapIps, hip]
    rw [List.map_cons, List.foldl_cons, hstep]
    exact ih h.tail hkey.2 fun r hr => hdisjoint r (List.mem_cons_of_mem p hr)

theorem setOne_fresh (hremove : p.removeMe = false) (hflags : ∀ a ∈ p.allowedIps, a.flags = 0)
    (hnodup : (p.allowedIps.map AllowedIp.network).Nodup) :
    setOne p.publicKey none p.sent = some p.fresh := by
  have hips : p.allowedIps.foldl (setAllowedIp p.publicKey p.publicKey) [] =
      p.allowedIps.map AllowedIp.network := foldl_setAllowedIp_self p.publicKey hflags hnodup
  have hnew : (KernelPeer.new.overwrite p.sent).allowedIps = [] := by
    simp [KernelPeer.overwrite, KernelPeer.new]
  have hendpoint : (KernelPeer.new.overwrite p.sent).endpoint = p.endpoint :=
    ite_eq_right_iff.mpr Eq.symm
  rw [setOne_self hremove rfl, Option.getD_none, Option.map_some, KernelPeer.mapIps, hnew, hips,
    hendpoint]
  simp [KernelPeer.overwrite, KernelPeer.new, Peer.fresh, Peer.sent, Peer.attrs]

/-- On a device without peers, new peers become what they say. -/
theorem foldl_setOne_fresh (h : Fresh ps) (hp : p ∈ ps) :
    (ps.map Peer.sent).foldl (setOne p.publicKey) none = some p.fresh := by
  induction ps with
  | nil => cases hp
  | cons q ps ih =>
    have hkeys := h.keys
    have howned := h.owned
    rw [List.map_cons, List.nodup_cons] at hkeys
    rw [List.flatMap_cons, List.nodup_append] at howned
    rw [List.map_cons, List.foldl_cons]
    rcases List.mem_cons.mp hp with rfl | hp
    · rw [setOne_fresh (h.removeMe p List.mem_cons_self) (h.flags p List.mem_cons_self) howned.1]
      refine foldl_setOne_some h.tail hkeys.1 fun r hr a ha hmem => ?_
      have hother : a.network ∈ ps.flatMap fun p => p.allowedIps.map AllowedIp.network :=
        List.mem_flatMap.mpr ⟨r, hr, List.mem_map_of_mem ha⟩
      exact howned.2.2 _ hmem _ hother rfl
    · have hne : p.publicKey ≠ q.publicKey := by
        intro hkey
        exact hkeys.1 (hkey ▸ List.mem_map_of_mem hp)
      have hstep : setOne p.publicKey none q.sent = none :=
        setOne_of_ne hne (h.removeMe q List.mem_cons_self)
      rw [hstep]
      exact ih h.tail hp

end Fresh

/-! ## Devices -/

/-- The two devices differ at most in fields that are zero in one and were never set in the other. -/
structure KernelDevice.Same (k k' : KernelDevice) : Prop where
  privateKey : k.privateKey.filter (· ≠ zeroKey) = k'.privateKey.filter (· ≠ zeroKey)
  listenPort : k.listenPort.getD 0 = k'.listenPort.getD 0
  fwmark : k.fwmark.getD 0 = k'.fwmark.getD 0
  peers : ∀ key, (k.peers key).map KernelPeer.effective = (k'.peers key).map KernelPeer.effective

theorem effective_effective (p : KernelPeer) : p.effective.effective = p.effective := by
  simp [KernelPeer.effective]

theorem keepEndpoint_effective (p : KernelPeer) :
    p.effective.effective.keepEndpoint (some p) = p.effective := by
  rw [effective_effective, KernelPeer.keepEndpoint]
  by_cases hendpoint : p.endpoint = .other
  · simp [KernelPeer.effective, hendpoint]
  · simp [KernelPeer.effective, hendpoint]

end Netlink

namespace Show

open Netlink (KernelDevice KernelPeer)

def Peer.networks (p : Peer) : List (Option IpAddr × UInt8) :=
  p.allowedIps.map fun a => (a.address, a.cidr)

/-- What the kernel has of a peer. -/
def Peer.kernel (p : Peer) : KernelPeer where
  presharedKey := p.presharedKey.map Key.bytes
  endpoint := p.endpoint
  persistentKeepaliveInterval :=
    if p.persistentKeepaliveInterval ≠ 0 then some p.persistentKeepaliveInterval else none
  allowedIps := p.networks

/-- The device that `ipc_get_device` gets from the kernel. -/
structure Device.Describes (d : Device) (k : KernelDevice) : Prop where
  privateKey : k.privateKey.filter (· ≠ zeroKey) = d.privateKey.map Key.bytes
  listenPort : k.listenPort.getD 0 = d.listenPort
  fwmark : k.fwmark.getD 0 = d.fwmark
  nodup : (d.peers.map Peer.publicKey).Nodup
  peers : ∀ p ∈ d.peers, (k.peers p.publicKey.bytes).map KernelPeer.effective = some p.kernel
  complete : ∀ key q, k.peers key = some q → ∃ p ∈ d.peers, p.publicKey.bytes = key
  /-- An allowed IP belongs to one peer. -/
  owned : (d.peers.flatMap Peer.networks).Nodup
  printable : ∀ p ∈ d.peers, p.Printable

theorem request_read {a : AllowedIp} {address : IpAddr} (h : a.address = some address) :
    ∃ b, a.read = some b ∧ b.request.network = (a.address, a.cidr) ∧ b.request.flags = 0 := by
  refine ⟨⟨address, a.cidr.toNat, false⟩, by rw [AllowedIp.read, h]; rfl, ?_, rfl⟩
  rw [h, Netlink.AllowedIp.network, WgAndroid.AllowedIp.request, UInt8.ofNat_toNat]

theorem request_allowedIps {p : Peer} (hp : p.Printable) :
    p.read.request.allowedIps.map Netlink.AllowedIp.network = p.networks ∧
      ∀ a ∈ p.read.request.allowedIps, a.flags = 0 := by
  have hread : ∀ as : List AllowedIp, (∀ a ∈ as, ∃ address, a.address = some address) →
      ((as.filterMap AllowedIp.read).map WgAndroid.AllowedIp.request).map Netlink.AllowedIp.network =
          as.map (fun a => (a.address, a.cidr)) ∧
        ∀ a ∈ (as.filterMap AllowedIp.read).map WgAndroid.AllowedIp.request, a.flags = 0 := by
    intro as has
    induction as with
    | nil => exact ⟨rfl, fun a ha => absurd ha List.not_mem_nil⟩
    | cons a as ih =>
      obtain ⟨address, haddress⟩ := has a List.mem_cons_self
      obtain ⟨b, hb, hnetwork, hflags⟩ := request_read haddress
      obtain ⟨hnetworks, hzero⟩ := ih fun c hc => has c (List.mem_cons_of_mem a hc)
      rw [List.filterMap_cons_some hb, List.map_cons]
      exact ⟨by rw [List.map_cons, List.map_cons, hnetwork, hnetworks],
        List.forall_mem_cons.mpr ⟨hflags, hzero⟩⟩
  refine hread p.allowedIps fun a ha => ?_
  obtain ⟨address, haddress, -⟩ := hp.allowedIps a ha
  exact ⟨address, haddress⟩

/-- What is read of a printed peer asks for the peer that was printed. -/
theorem fresh_request {p : Peer} (hp : p.Printable) : p.read.request.fresh = p.kernel := by
  have hendpoint : (readEndpoint p.endpoint).getD .other = p.endpoint := by
    cases p.endpoint <;> rfl
  have hkeepalive : (nonzero p.persistentKeepaliveInterval.toNat).map UInt16.ofNat =
      if p.persistentKeepaliveInterval ≠ 0 then some p.persistentKeepaliveInterval else none := by
    have hzero : p.persistentKeepaliveInterval.toNat ≠ 0 ↔ p.persistentKeepaliveInterval ≠ 0 :=
      not_congr (UInt16.toNat_inj (b := 0))
    rw [nonzero]
    simp only [hzero]
    split_ifs
    · rw [Option.map_some, UInt16.ofNat_toNat]
    · rfl
  rw [Netlink.Peer.fresh, (request_allowedIps hp).1]
  simp only [WgPeer.request, Peer.read, hendpoint, hkeepalive]
  rfl

theorem filter_getD_zeroKey (k : Option Key) (h : ∀ key ∈ k, key.bytes ≠ zeroKey) :
    (some ((k.map Key.bytes).getD zeroKey)).filter (· ≠ zeroKey) = k.map Key.bytes := by
  cases k with
  | none => simp
  | some key => simp [h key rfl]

theorem getD_nonzero (n : ℕ) : (nonzero n).getD 0 = n := by
  unfold nonzero
  split_ifs with h
  · rfl
  · exact (not_not.mp h).symm

theorem getD_of_filter {o : Option UInt16} {n : UInt16}
    (h : o.filter (· ≠ 0) = if n ≠ 0 then some n else none) : n = o.getD 0 := by
  by_cases hn : n = 0
  · rw [if_neg (not_not_intro hn), Option.filter_eq_none_iff] at h
    cases o with
    | none => exact hn
    | some m => exact hn.trans (by simpa using h m rfl : m = 0).symm
  · rw [if_pos hn, Option.filter_eq_some_iff] at h
    rw [h.1, Option.getD_some]

section Describes

variable {d : Device} {k : KernelDevice} (hd : d.Describes k)
include hd

theorem Device.Describes.nodup_bytes : (d.peers.map fun p => p.publicKey.bytes).Nodup := by
  have hinjective : Function.Injective Key.bytes := by
    rintro ⟨_, _⟩ ⟨_, _⟩ rfl
    rfl
  have hmap := hd.nodup.map hinjective
  rwa [List.map_map] at hmap

theorem Device.Describes.fresh (name : Bytes) : Netlink.Fresh (d.read.request false name).peers := by
  have hpeers : (d.read.request false name).peers = d.peers.map fun p => p.read.request := by
    rw [WgDevice.request, Device.read, List.map_map]
    rfl
  rw [hpeers]
  refine ⟨fun q hq => ?_, fun q hq => ?_, ?_, ?_⟩
  · obtain ⟨p, -, rfl⟩ := List.mem_map.mp hq
    rfl
  · obtain ⟨p, hp, rfl⟩ := List.mem_map.mp hq
    exact (request_allowedIps (hd.printable p hp)).2
  · rw [List.map_map]
    exact hd.nodup_bytes
  · rw [List.flatMap_map]
    have hnetworks : ∀ p ∈ d.peers, p.read.request.allowedIps.map Netlink.AllowedIp.network =
        p.networks := fun p hp => (request_allowedIps (hd.printable p hp)).1
    rw [List.flatMap_congr hnetworks]
    exact hd.owned

/-- The kernel has the printed peers, as they are printed. -/
theorem Device.Describes.peers_setDevice (name : Bytes) (k' : KernelDevice) (key : Bytes) :
    (Netlink.setDevice k' (d.read.request false name).whole).peers key =
      (k.peers key).map KernelPeer.effective := by
  have hfresh := hd.fresh name
  have hreplace : (d.read.request false name).replacePeers = true := rfl
  rw [Netlink.peers_setDevice_whole, if_pos hreplace]
  cases hold : k.peers key with
  | none =>
    refine Netlink.foldl_setOne_none hfresh.removeMe fun hmem => ?_
    obtain ⟨q, hq, rfl⟩ := List.mem_map.mp hmem
    obtain ⟨w, hw, rfl⟩ := List.mem_map.mp hq
    obtain ⟨p, hp, rfl⟩ := List.mem_map.mp hw
    have hpeer := hd.peers p hp
    have hnone : k.peers p.publicKey.bytes = none := hold
    rw [hnone] at hpeer
    cases hpeer
  | some q =>
    obtain ⟨p, hp, rfl⟩ := hd.complete key q hold
    have hmem : p.read.request ∈ (d.read.request false name).peers :=
      List.mem_map_of_mem (List.mem_map_of_mem hp)
    have hpeer := hd.peers p hp
    rw [hold] at hpeer
    rw [hpeer, ← fresh_request (hd.printable p hp)]
    exact Netlink.foldl_setOne_fresh hfresh hmem

theorem Device.Describes.privateKey_ne : ∀ key ∈ d.privateKey, key.bytes ≠ zeroKey := by
  intro key hkey hzero
  have hfilter := hd.privateKey
  rw [hkey, Option.map_some, Option.filter_eq_some_iff] at hfilter
  simp [hzero] at hfilter

theorem Device.Describes.same_setDevice (name : Bytes) (k' : KernelDevice) :
    (Netlink.setDevice k' (d.read.request false name).whole).Same k where
  privateKey := by
    rw [hd.privateKey, ← filter_getD_zeroKey d.privateKey hd.privateKey_ne]
    rfl
  listenPort := by
    have hport : UInt16.ofNat ((nonzero d.listenPort.toNat).getD 0) = d.listenPort := by
      rw [getD_nonzero, UInt16.ofNat_toNat]
    rw [hd.listenPort, ← hport]
    rfl
  fwmark := by
    have hmark : UInt32.ofNat ((nonzero d.fwmark.toNat).getD 0) = d.fwmark := by
      rw [getD_nonzero, UInt32.ofNat_toNat]
    rw [hd.fwmark, ← hmark]
    rfl
  peers key := by
    rw [hd.peers_setDevice, Option.map_map]
    refine Option.map_congr fun q _ => Netlink.effective_effective q

/-- What `sync_conf` needs of a printed peer. -/
def Peer.runtime (p : Peer) : Netlink.RuntimePeer :=
  ⟨p.publicKey.bytes, p.presharedKey.isSome, p.persistentKeepaliveInterval⟩

theorem Device.Describes.lists : k.Lists (d.peers.map Peer.runtime) where
  length r hr := by
    obtain ⟨p, -, rfl⟩ := List.mem_map.mp hr
    exact p.publicKey.length_eq
  nodup := by
    rw [List.map_map]
    exact hd.nodup_bytes
  complete key q hq := by
    obtain ⟨p, hp, rfl⟩ := hd.complete key q hq
    rw [List.map_map]
    exact List.mem_map_of_mem hp
  describes r hr := by
    obtain ⟨p, hp, rfl⟩ := List.mem_map.mp hr
    obtain ⟨q, hq, heffective⟩ := Option.map_eq_some_iff.mp (hd.peers p hp)
    refine ⟨q, hq, ?_, ?_⟩
    · rw [heffective]
      exact Option.isSome_map.symm
    · have hkeepalive : q.persistentKeepaliveInterval.filter (· ≠ 0) =
          if p.persistentKeepaliveInterval ≠ 0 then some p.persistentKeepaliveInterval else none :=
        congrArg KernelPeer.persistentKeepaliveInterval heffective
      exact getD_of_filter hkeepalive

end Describes

end Show

open Show Netlink

/-- The text that `showconf` prints for a device, read by `setconf`, makes of any other device one that
is the same. -/
theorem setconf_showconf {L : Libc} {N : Names} (hL : L.Prints N) {d : Show.Device} {k : KernelDevice}
    (hd : d.Describes k) (name : Bytes) (runtime : Option (List RuntimePeer))
    (sorted : List PeerOrigin) :
    ∃ dev, setconfMain L .setconf name (ascii (showconf N d)) runtime sorted = some dev ∧
      ∀ k', (setDevice k' dev.whole).Same k := by
  have hread := addconf_showconf hL hd.printable
  exact ⟨_, setconfMain_setconf hread name runtime sorted, hd.same_setDevice name⟩

/-- A C library that prints addresses as numbers. -/
def numericNames : Names where
  inetNtop4 a := decimal a.toNat
  inetNtop6 a := unit ':' :: decimal a.toNat
  getnameinfo
    | .inet a n => .ok (decimal a.toNat, decimal n)
    | .inet6 a n => .ok (unit ':' :: decimal a.toNat, decimal n)
    | .other => .error []

def numericLibc : Libc where
  inetPton4 s := some (BitVec.ofNat 32 (digitsValue s))
  inetPton6 s := some (BitVec.ofNat 128 (digitsValue s.tail))
  getaddrinfo node service _ :=
    let port := digitsValue service
    match node with
    | none => .resolved (.inet 0 port)
    | some node =>
      if node.head? = some (byte ':') then
        .resolved (.inet6 (BitVec.ofNat 128 (digitsValue node.tail)) port)
      else .resolved (.inet (BitVec.ofNat 32 (digitsValue node)) port)

theorem numericLibc_prints : numericLibc.Prints numericNames where
  pton4 a := by
    simp only [numericLibc, numericNames, digitsValue_decimal, BitVec.ofNat_toNat, BitVec.setWidth_eq]
  pton6 a := by
    have htail : (ascii (unit ':' :: decimal a.toNat)).tail = ascii (decimal a.toNat) := rfl
    simp only [numericLibc, numericNames, htail, digitsValue_decimal, BitVec.ofNat_toNat,
      BitVec.setWidth_eq]
  nonempty4 a := decimal_ne_nil a.toNat
  text4 a c hc := .inl (isDigit_of_mem_decimal hc)
  colon6 a := List.mem_cons_self
  text6 a c hc := by
    rcases List.mem_cons.mp hc with rfl | hc
    · exact .inr (.inl rfl)
    · refine .inl ?_
      simp only [InetAddresses.isHex, Bool.or_eq_true]
      exact .inl (.inl (isDigit_of_mem_decimal hc))
  name4 a n _ := rfl
  name6 a n _ := rfl
  addr4 a n _ := by
    have hhead : (ascii (decimal a.toNat)).head? ≠ some (byte ':') := by
      intro h
      exact absurd (charIsDigit_of_mem_decimal (List.mem_of_mem_head? h)) (by decide)
    simp only [numericLibc, numericNames, if_neg hhead, digitsValue_decimal, BitVec.ofNat_toNat,
      BitVec.setWidth_eq]
  addr6 a n _ := by
    have hhead : (ascii (unit ':' :: decimal a.toNat)).head? = some (byte ':') := rfl
    have htail : (ascii (unit ':' :: decimal a.toNat)).tail = ascii (decimal a.toNat) := rfl
    simp only [numericLibc, numericNames, if_pos hhead, htail, digitsValue_decimal,
      BitVec.ofNat_toNat, BitVec.setWidth_eq]
  service n _ := ⟨.inet 0 n, by simp only [numericLibc, digitsValue_decimal], rfl⟩

def sampleKey (b : UInt8) : Key := ⟨List.replicate 32 b, rfl⟩

/-- A device with a port, a mark, a key and one peer. -/
def samplePrinted : Show.Device where
  name := text "wg0"
  privateKey := some (sampleKey 1)
  publicKey := none
  listenPort := 51820
  fwmark := 0xca6c
  peers := [{
    publicKey := sampleKey 2
    presharedKey := none
    endpoint := .inet6 1 51820
    allowedIps := [⟨some (.inet 0xC0000200), 24⟩, ⟨some (.inet6 0), 0⟩]
    tvSec := 0
    rxBytes := 0
    txBytes := 0
    persistentKeepaliveInterval := 25 }]

def samplePrintedKernel : KernelDevice where
  privateKey := some (List.replicate 32 1)
  listenPort := some 51820
  fwmark := some 0xca6c
  peers := fun key =>
    if key = List.replicate 32 2 then
      some ⟨some zeroKey, .inet6 1 51820, some 25, [(some (.inet 0xC0000200), 24), (some (.inet6 0), 0)]⟩
    else none

theorem samplePrinted_describes : samplePrinted.Describes samplePrintedKernel where
  privateKey := by decide
  listenPort := rfl
  fwmark := rfl
  nodup := by decide
  peers := by decide
  complete key q h := by
    unfold samplePrintedKernel at h
    dsimp only at h
    split_ifs at h with hkey
    exact ⟨_, List.mem_cons_self, hkey.symm⟩
  owned := by decide
  printable p hp := by
    cases List.mem_singleton.mp hp
    refine ⟨fun a ha => ?_, by decide⟩
    simp only [List.mem_cons, List.not_mem_nil, or_false] at ha
    rcases ha with rfl | rfl
    · exact ⟨_, rfl, by decide⟩
    · exact ⟨_, rfl, by decide⟩

theorem setconf_showconf_sample :
    ∃ dev, setconfMain numericLibc .setconf (cstring "wg1")
        (ascii (showconf numericNames samplePrinted)) none [] = some dev ∧
      ∀ k', (setDevice k' dev.whole).Same samplePrintedKernel :=
  setconf_showconf numericLibc_prints samplePrinted_describes (cstring "wg1") none []

/-- A device that is given the text that `showconf` prints for it by `syncconf` stays the same. -/
theorem syncconf_showconf {L : Libc} {N : Names} (hL : L.Prints N) {d : Show.Device}
    {k : KernelDevice} (hd : d.Describes k) (name : Bytes) {sorted : List PeerOrigin}
    (hsorted : Qsorted (origins (d.read.request false name) (d.peers.map Peer.runtime)) sorted) :
    ∃ dev, setconfMain L .syncconf name (ascii (showconf N d)) (some (d.peers.map Peer.runtime))
        sorted = some dev ∧
      (setDevice k dev.whole).Same k := by
  have hread := addconf_showconf hL hd.printable
  obtain ⟨hprivateKey, hlistenPort, hfwmark⟩ :=
    syncConf_fields (d.read.request false name) (d.peers.map Peer.runtime) sorted
  have hset := hd.same_setDevice name k
  have hfresh := hd.fresh name
  refine ⟨_, setconfMain_syncconf hread name _ sorted, ?_, ?_, ?_, fun key => ?_⟩
  · refine Eq.trans ?_ hset.privateKey
    exact congrArg (fun o => (Option.or o k.privateKey).filter (· ≠ zeroKey)) hprivateKey
  · refine Eq.trans ?_ hset.listenPort
    exact congrArg (fun o => (Option.or o k.listenPort).getD 0) hlistenPort
  · refine Eq.trans ?_ hset.fwmark
    exact congrArg (fun o => (Option.or o k.fwmark).getD 0) hfwmark
  · have hreplace : ∀ p ∈ (d.read.request false name).peers, p.replaceAllowedIps = true := by
      intro p hp
      obtain ⟨w, hw, rfl⟩ := List.mem_map.mp hp
      obtain ⟨p, -, rfl⟩ := List.mem_map.mp hw
      rfl
    have hlike := like_syncConf (length_publicKey_request hread name) hfresh.keys hd.lists hsorted rfl
      hfresh.removeMe hreplace key
    rw [hlike, hd.peers_setDevice, Option.map_map]
    cases k.peers key with
    | none => rfl
    | some q => exact congrArg some (keepEndpoint_effective q)

theorem syncconf_showconf_sample :
    ∃ dev, setconfMain numericLibc .syncconf (cstring "wg0")
        (ascii (showconf numericNames samplePrinted)) (some (samplePrinted.peers.map Peer.runtime))
        [.runtime ⟨List.replicate 32 2, false, 25⟩, .file 0 (List.replicate 32 2)] = some dev ∧
      (setDevice samplePrintedKernel dev.whole).Same samplePrintedKernel :=
  syncconf_showconf numericLibc_prints samplePrinted_describes (cstring "wg0")
    ⟨by decide, by decide⟩

end WgAndroid
