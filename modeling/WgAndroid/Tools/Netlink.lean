import Mathlib.Logic.Function.Basic
import WgAndroid.Tools.WgConfig

/-!
# Sending a device to the kernel

`kernel_set_device` of `ipc-linux.h`. A device is sent in as many messages as the buffer makes
necessary: what does not fit is taken back, and the next message goes on with the peer, or with the
allowed IP of the peer, that did not fit. A message that goes on with a peer must not have the fields
that were sent before, since the kernel would clear the allowed IPs again.

Results:
1. `putPeers_sends`: what one message has sent, and what is left, is the whole.
2. `putPeers_progress`: a message that has room for something sends something.
3. `kernelSetDevice_faithful`: the messages do what one message with the whole device would do.
-/

namespace WgAndroid

namespace Netlink

/-- `struct wgallowedip`; an address of another family is not sent. -/
structure AllowedIp where
  address : Option IpAddr
  cidr : UInt8
  flags : UInt32
  deriving DecidableEq

/-- `struct wgpeer`; a field that a flag announces is an option. -/
structure Peer where
  removeMe : Bool
  replaceAllowedIps : Bool
  publicKey : Bytes
  presharedKey : Option Bytes
  endpoint : SockAddr
  persistentKeepaliveInterval : Option UInt16
  allowedIps : List AllowedIp

/-- `struct wgdevice` -/
structure Device where
  name : Bytes
  replacePeers : Bool
  privateKey : Option Bytes
  listenPort : Option UInt16
  fwmark : Option UInt32
  peers : List Peer

/-! ## Messages -/

/-- The attributes of a peer in a message. -/
structure PeerAttrs where
  publicKey : Bytes
  removeMe : Bool
  replaceAllowedIps : Bool
  presharedKey : Option Bytes
  endpoint : SockAddr
  persistentKeepaliveInterval : Option UInt16
  allowedIps : List AllowedIp
  deriving DecidableEq

/-- The attributes of a message. -/
structure Message where
  name : Bytes
  privateKey : Option Bytes
  listenPort : Option UInt16
  fwmark : Option UInt32
  replacePeers : Bool
  peers : List PeerAttrs
  deriving DecidableEq

/-- The attributes of a peer; without the fields if the message goes on with it. -/
def Peer.attrs (p : Peer) (fresh : Bool) (allowedIps : List AllowedIp) : PeerAttrs where
  publicKey := p.publicKey
  removeMe := p.removeMe
  replaceAllowedIps := fresh && p.replaceAllowedIps
  presharedKey := if fresh then p.presharedKey else none
  endpoint := if fresh then p.endpoint else .other
  persistentKeepaliveInterval := if fresh then p.persistentKeepaliveInterval else none
  allowedIps := allowedIps

/-! ## Lengths -/

/-- `MNL_ALIGN` -/
def align (len : Nat) : Nat := (len + 3) / 4 * 4

/-- The length of a message after `mnl_attr_put`, or after the start of a nest if `payload` is 0. -/
def put (len payload : Nat) : Nat := len + 4 + align payload

/-- `mnl_attr_put_check`, `mnl_attr_nest_start_check` -/
def putCheck (buflen len payload : Nat) : Option Nat :=
  if len + 4 + align payload > buflen then none else some (put len payload)

/-- One attribute after another. -/
def putAll (buflen len : Nat) (payloads : List Nat) : Option Nat := payloads.foldlM (putCheck buflen) len

/-- `sizeof` an address; nothing is sent for another family. -/
def endpointPayload : SockAddr → List Nat
  | .inet _ _ => [16]
  | .inet6 _ _ => [28]
  | .other => []

/-- The nest of a peer and what precedes its allowed IPs. -/
def Peer.payloads (p : Peer) (fresh : Bool) : List Nat :=
  [0, 32] ++
  (if fresh then
    (p.presharedKey.toList.map fun _ => 32) ++ (endpointPayload p.endpoint ++
      p.persistentKeepaliveInterval.toList.map fun _ => 2)
  else []) ++
  if p.removeMe || (fresh && p.replaceAllowedIps) then [4] else []

/-- The nest of an allowed IP. -/
def AllowedIp.payloads (a : AllowedIp) : List Nat :=
  [0, 2] ++
  (match a.address with
    | some (.inet _) => [4]
    | some (.inet6 _) => [16]
    | none => []) ++
  [1] ++
  if a.flags ≠ 0 then [4] else []

/-- The length up to the nest of the peers. -/
def Device.start (dev : Device) (first : Bool) : Nat :=
  let len := put 20 (dev.name.length + 1)
  if first then
    let len := if dev.privateKey.isSome then put len 32 else len
    let len := if dev.listenPort.isSome then put len 2 else len
    let len := if dev.fwmark.isSome then put len 4 else len
    if dev.replacePeers then put len 4 else len
  else len

/-! ## The loops -/

/-- The loop over the allowed IPs: those that are in the message, its length, and those that are left.
An allowed IP that does not fit is taken back. -/
def putAllowedIps (buflen : Nat) : Nat → List AllowedIp → List AllowedIp × Nat × List AllowedIp
  | len, [] => ([], len, [])
  | len, a :: allowedIps =>
    match putAll buflen len a.payloads with
    | none => ([], len, a :: allowedIps)
    | some len =>
      let rest := putAllowedIps buflen len allowedIps
      (a :: rest.1, rest.2.1, rest.2.2)

/-- Where the next message goes on: with the first of `peers`, and with `allowedIps` of it unless they
are empty. -/
structure Cursor where
  peers : List Peer
  allowedIps : List AllowedIp

/-- The loop over the peers: those that are in the message, and where it stopped. -/
def putPeers (buflen : Nat) : Nat → List AllowedIp → List Peer → List PeerAttrs × Cursor
  | _, allowedIps, [] => ([], ⟨[], allowedIps⟩)
  | len, allowedIps, p :: peers =>
    let fresh := allowedIps.isEmpty
    match putAll buflen len (p.payloads fresh) with
    -- `toobig_peers`
    | none => ([], ⟨p :: peers, allowedIps⟩)
    | some len =>
      if p.allowedIps.isEmpty then
        let rest := putPeers buflen len allowedIps peers
        (p.attrs fresh [] :: rest.1, rest.2)
      else
        let todo := if fresh then p.allowedIps else allowedIps
        match putCheck buflen len 0 with
        -- `toobig_allowedips`
        | none => ([p.attrs fresh []], ⟨p :: peers, todo⟩)
        | some len =>
          let (ips, len, left) := putAllowedIps buflen len todo
          if left.isEmpty then
            let rest := putPeers buflen len [] peers
            (p.attrs fresh ips :: rest.1, rest.2)
          else ([p.attrs fresh ips], ⟨p :: peers, left⟩)

/-- A message with these peers. The attributes of the device are in the first one only. -/
def Device.message (dev : Device) (first : Bool) (peers : List PeerAttrs) : Message where
  name := dev.name
  privateKey := if first then dev.privateKey else none
  listenPort := if first then dev.listenPort else none
  fwmark := if first then dev.fwmark else none
  replacePeers := first && dev.replacePeers
  peers := peers

/-- The peers of the next message, and where it stops. -/
def Device.fill (buflen : Nat) (dev : Device) (first : Bool) (cursor : Cursor) :
    List PeerAttrs × Cursor :=
  if dev.peers.isEmpty then ([], ⟨[], []⟩)
  else putPeers buflen (put (dev.start first) 0) cursor.allowedIps cursor.peers

/-- From the label `again` on, with a bound on the number of messages; `none` if it is too small. -/
def sendFrom (buflen : Nat) (dev : Device) : Nat → Bool → Cursor → Option (List Message)
  | 0, _, _ => none
  | n + 1, first, cursor =>
    let (sent, next) := dev.fill buflen first cursor
    if next.peers.isEmpty then some [dev.message first sent]
    else (sendFrom buflen dev n false next).map (dev.message first sent :: ·)

/-- `kernel_set_device`: the messages that are sent. -/
def kernelSetDevice (n buflen : Nat) (dev : Device) : Option (List Message) :=
  sendFrom buflen dev n true ⟨dev.peers, []⟩

/-! ## What the kernel does -/

structure KernelPeer where
  presharedKey : Option Bytes
  endpoint : SockAddr
  persistentKeepaliveInterval : Option UInt16
  allowedIps : List (Option IpAddr × UInt8)
  deriving DecidableEq

def KernelPeer.new : KernelPeer := ⟨none, .other, none, []⟩

abbrev KernelPeers := Bytes → Option KernelPeer

structure KernelDevice where
  privateKey : Option Bytes
  listenPort : Option UInt16
  fwmark : Option UInt32
  peers : KernelPeers

def KernelPeer.without (a : AllowedIp) (p : KernelPeer) : KernelPeer :=
  { p with allowedIps := p.allowedIps.filter (· != (a.address, a.cidr)) }

/-- An allowed IP belongs to one peer: it is taken from all others. With the flag that removes it, it is
only taken from the peer. -/
def addAllowedIp (key : Bytes) (peers : KernelPeers) (a : AllowedIp) : KernelPeers :=
  if a.flags &&& 1 ≠ 0 then Function.update peers key ((peers key).map (KernelPeer.without a))
  else
    let peers := fun k => (peers k).map (KernelPeer.without a)
    Function.update peers key
      ((peers key).map fun p => { p with allowedIps := p.allowedIps ++ [(a.address, a.cidr)] })

/-- Attributes overwrite what is there. -/
def KernelPeer.overwrite (p : KernelPeer) (m : PeerAttrs) : KernelPeer where
  presharedKey := m.presharedKey.or p.presharedKey
  endpoint := if m.endpoint = .other then p.endpoint else m.endpoint
  persistentKeepaliveInterval := m.persistentKeepaliveInterval.or p.persistentKeepaliveInterval
  allowedIps := if m.replaceAllowedIps then [] else p.allowedIps

def setPeer (peers : KernelPeers) (m : PeerAttrs) : KernelPeers :=
  if m.removeMe then Function.update peers m.publicKey none
  else
    m.allowedIps.foldl (addAllowedIp m.publicKey)
      (Function.update peers m.publicKey
        (some (((peers m.publicKey).getD KernelPeer.new).overwrite m)))

def setDevice (k : KernelDevice) (m : Message) : KernelDevice where
  privateKey := m.privateKey.or k.privateKey
  listenPort := m.listenPort.or k.listenPort
  fwmark := m.fwmark.or k.fwmark
  peers := m.peers.foldl setPeer (if m.replacePeers then fun _ => none else k.peers)

/-! ## One message -/

theorem putAllowedIps_append (buflen len : Nat) (allowedIps : List AllowedIp) :
    (putAllowedIps buflen len allowedIps).1 ++ (putAllowedIps buflen len allowedIps).2.2 = allowedIps := by
  fun_induction putAllowedIps buflen len allowedIps with
  | case1 => rfl
  | case2 => rfl
  | case3 len a allowedIps len' _ rest ih => exact congrArg (a :: ·) ih

/-- What is sent for a peer: one piece with its fields unless they were sent before, and any number of
pieces that go on with its allowed IPs. -/
def Pieces (p : Peer) (fresh : Bool) (allowedIps : List AllowedIp) (sent : List PeerAttrs) : Prop :=
  ∃ (ips : List AllowedIp) (more : List (List AllowedIp)), ips ++ more.flatten = allowedIps ∧
    sent = p.attrs fresh ips :: more.map (p.attrs false)

theorem Pieces.whole (p : Peer) (fresh : Bool) (allowedIps : List AllowedIp) :
    Pieces p fresh allowedIps [p.attrs fresh allowedIps] :=
  ⟨allowedIps, [], List.append_nil _, rfl⟩

theorem Pieces.cons {p : Peer} {left : List AllowedIp} {sent : List PeerAttrs}
    (h : Pieces p false left sent) (fresh : Bool) (ips : List AllowedIp) :
    Pieces p fresh (ips ++ left) (p.attrs fresh ips :: sent) := by
  obtain ⟨ips', more, rfl, rfl⟩ := h
  exact ⟨ips, ips' :: more, rfl, rfl⟩

/-- All of a peer. -/
def Sent (p : Peer) (sent : List PeerAttrs) : Prop := Pieces p true p.allowedIps sent

namespace Cursor

/-- The allowed IPs of the first peer that are still to be sent. -/
def todo (allowedIps : List AllowedIp) (p : Peer) : List AllowedIp :=
  if allowedIps.isEmpty then p.allowedIps else allowedIps

/-- What is sent from here on. -/
def Sends : Cursor → List PeerAttrs → Prop
  | ⟨[], _⟩, sent => sent = []
  | ⟨p :: peers, allowedIps⟩, sent => ∃ first rest,
    Pieces p allowedIps.isEmpty (todo allowedIps p) first ∧ List.Forall₂ Sent peers rest ∧
      sent = first ++ rest.flatten

/-- The allowed IPs belong to the first peer. -/
def Valid : Cursor → Prop
  | ⟨[], _⟩ => True
  | ⟨p :: _, allowedIps⟩ => ∀ a ∈ allowedIps, a ∈ p.allowedIps

/-- How much is left. -/
def weight : Cursor → Nat
  | ⟨[], _⟩ => 0
  | ⟨p :: peers, allowedIps⟩ =>
    (if allowedIps.isEmpty then p.allowedIps.length + 1 else allowedIps.length) +
      (peers.map fun p => p.allowedIps.length + 1).sum

theorem valid_fresh (peers : List Peer) : Valid ⟨peers, []⟩ := by
  cases peers with
  | nil => trivial
  | cons p peers => exact fun a ha => absurd ha List.not_mem_nil

theorem sends_fresh {peers : List Peer} {sent : List PeerAttrs} :
    Sends ⟨peers, []⟩ sent ↔ ∃ rest, List.Forall₂ Sent peers rest ∧ sent = rest.flatten := by
  cases peers with
  | nil => simp [Sends]
  | cons p peers =>
    constructor
    · rintro ⟨first, rest, hfirst, hrest, rfl⟩
      exact ⟨first :: rest, .cons hfirst hrest, rfl⟩
    · rintro ⟨_, hall, rfl⟩
      obtain ⟨first, rest, hfirst, hrest, rfl⟩ := List.forall₂_cons_left_iff.mp hall
      exact ⟨first, rest, hfirst, hrest, rfl⟩

theorem sends_nil {cursor : Cursor} (h : cursor.peers = []) : cursor.Sends [] := by
  obtain ⟨peers, allowedIps⟩ := cursor
  cases h
  rfl

theorem weight_fresh (peers : List Peer) :
    weight ⟨peers, []⟩ = (peers.map fun p => p.allowedIps.length + 1).sum := by
  cases peers with
  | nil => rfl
  | cons p peers => rfl

end Cursor

/-- What one message does to the cursor. -/
structure Advances (start : Cursor) (sent : List PeerAttrs) (next : Cursor) : Prop where
  valid : next.Valid
  suffix : next.peers <:+ start.peers
  weight : next.weight ≤ start.weight
  sends : ∀ later, next.Sends later → start.Sends (sent ++ later)

namespace Advances

variable {p : Peer} {peers : List Peer} {allowedIps : List AllowedIp}

theorem refl {cursor : Cursor} (h : cursor.Valid) : Advances cursor [] cursor :=
  ⟨h, List.suffix_refl _, Nat.le_refl _, fun _ hlater => hlater⟩

theorem weight_lt (p : Peer) (peers : List Peer) (allowedIps : List AllowedIp) :
    Cursor.weight ⟨peers, []⟩ < Cursor.weight ⟨p :: peers, allowedIps⟩ := by
  rw [Cursor.weight_fresh, Cursor.weight]
  refine Nat.lt_add_of_pos_left ?_
  cases allowedIps with
  | nil => exact Nat.succ_pos _
  | cons a allowedIps => exact Nat.succ_pos _

/-- All that was left of the peer is sent. -/
theorem step (p : Peer) (allowedIps : List AllowedIp) {sent : List PeerAttrs} {next : Cursor}
    (h : Advances ⟨peers, []⟩ sent next) :
    Advances ⟨p :: peers, allowedIps⟩
      (p.attrs allowedIps.isEmpty (Cursor.todo allowedIps p) :: sent) next where
  valid := h.valid
  suffix := h.suffix.trans (List.suffix_cons p peers)
  weight := h.weight.trans (weight_lt p peers allowedIps).le
  sends later hlater := by
    obtain ⟨rest, hrest, heq⟩ := Cursor.sends_fresh.mp (h.sends later hlater)
    exact ⟨_, rest, .whole .., hrest, congrArg (_ :: ·) heq⟩

/-- Some of the allowed IPs are sent. -/
theorem stop (hvalid : Cursor.Valid ⟨p :: peers, allowedIps⟩) {ips left : List AllowedIp}
    (h : ips ++ left = Cursor.todo allowedIps p) (hne : left ≠ []) :
    Advances ⟨p :: peers, allowedIps⟩ [p.attrs allowedIps.isEmpty ips] ⟨p :: peers, left⟩ where
  valid := by
    intro a ha
    have htodo : a ∈ Cursor.todo allowedIps p := h ▸ List.mem_append_right _ ha
    unfold Cursor.todo at htodo
    split at htodo
    · exact htodo
    · exact hvalid a htodo
  suffix := List.suffix_refl _
  weight := by
    have hlength : left.length ≤ (Cursor.todo allowedIps p).length := by
      rw [← h, List.length_append]
      exact Nat.le_add_left _ _
    rw [Cursor.weight, Cursor.weight, if_neg (by simpa using hne)]
    refine Nat.add_le_add_right ?_ _
    unfold Cursor.todo at hlength
    split at hlength
    · next hempty =>
      rw [if_pos hempty]
      exact hlength.trans (Nat.le_succ _)
    · next hempty =>
      rw [if_neg hempty]
      exact hlength
  sends later hlater := by
    obtain ⟨first, rest, hfirst, hrest, rfl⟩ := hlater
    have hleft : left.isEmpty = false := by simpa using hne
    rw [hleft, Cursor.todo, hleft, if_neg Bool.false_ne_true] at hfirst
    exact ⟨_, rest, h ▸ hfirst.cons _ ips, hrest, rfl⟩

end Advances

/-- The allowed IPs of a peer without any are not under way. -/
theorem eq_nil_of_valid {p : Peer} {peers : List Peer} {allowedIps : List AllowedIp}
    (h : Cursor.Valid ⟨p :: peers, allowedIps⟩) (hp : p.allowedIps = []) : allowedIps = [] :=
  List.eq_nil_iff_forall_not_mem.mpr fun a ha => by simpa [hp] using h a ha

theorem todo_ne_nil {p : Peer} (allowedIps : List AllowedIp) (hp : p.allowedIps ≠ []) :
    Cursor.todo allowedIps p ≠ [] := by
  unfold Cursor.todo
  split
  · exact hp
  · next h => exact fun hnil => h (List.isEmpty_iff.mpr hnil)

theorem putPeers_advances (buflen : Nat) {len : Nat} {allowedIps : List AllowedIp} {peers : List Peer}
    (hvalid : Cursor.Valid ⟨peers, allowedIps⟩) :
    Advances ⟨peers, allowedIps⟩ (putPeers buflen len allowedIps peers).1
      (putPeers buflen len allowedIps peers).2 := by
  fun_induction putPeers buflen len allowedIps peers with
  | case1 => exact .refl hvalid
  | case2 => exact .refl hvalid
  | case3 len allowedIps p peers fresh len' _ hempty rest ih =>
    have hp := List.isEmpty_iff.mp hempty
    obtain rfl := eq_nil_of_valid hvalid hp
    have hstep := (ih (Cursor.valid_fresh peers)).step p []
    rwa [show Cursor.todo [] p = [] from hp] at hstep
  | case4 len allowedIps p peers fresh len' _ hne todo _ =>
    exact .stop hvalid rfl (todo_ne_nil allowedIps fun hp => hne (List.isEmpty_iff.mpr hp))
  | case5 len allowedIps p peers fresh len₁ _ hne todo len₂ _ ips len₃ left hput hleft rest ih =>
    have happend := putAllowedIps_append buflen len₂ todo
    rw [hput, List.isEmpty_iff.mp hleft, List.append_nil] at happend
    have hstep := (ih (Cursor.valid_fresh peers)).step p allowedIps
    rwa [show Cursor.todo allowedIps p = ips from happend.symm] at hstep
  | case6 len allowedIps p peers fresh len₁ _ hne todo len₂ _ ips len₃ left hput hleft =>
    have happend := putAllowedIps_append buflen len₂ todo
    rw [hput] at happend
    exact .stop hvalid happend fun hnil => hleft (List.isEmpty_iff.mpr hnil)

/-! ## Room -/

/-- How long attributes with these payloads are. -/
def size (payloads : List Nat) : Nat := (payloads.map (put 0)).sum

theorem putAll_eq_some {buflen len : Nat} {payloads : List Nat} (h : len + size payloads ≤ buflen) :
    putAll buflen len payloads = some (len + size payloads) := by
  induction payloads generalizing len with
  | nil => rfl
  | cons payload payloads ih =>
    have hsize : size (payload :: payloads) = 4 + align payload + size payloads := by
      simp [size, put]
    have hcheck : putCheck buflen len payload = some (len + 4 + align payload) :=
      if_neg (by omega)
    rw [putAll, List.foldlM_cons, hcheck]
    have hrest : putAll buflen (len + 4 + align payload) payloads =
        some (len + 4 + align payload + size payloads) := ih (by omega)
    have hlen : len + 4 + align payload + size payloads = len + size (payload :: payloads) := by
      rw [hsize, Nat.add_assoc len, Nat.add_assoc]
    exact hrest.trans (congrArg some hlen)

/-- What was left of a peer is more than what is left after one more allowed IP. -/
theorem weight_lt_of_length {p : Peer} {peers : List Peer} {allowedIps left : List AllowedIp}
    (hne : left ≠ []) (h : left.length < (Cursor.todo allowedIps p).length) :
    Cursor.weight ⟨p :: peers, left⟩ < Cursor.weight ⟨p :: peers, allowedIps⟩ := by
  rw [Cursor.weight, Cursor.weight, if_neg (by simpa using hne)]
  refine Nat.add_lt_add_right ?_ _
  unfold Cursor.todo at h
  split at h
  · next hempty =>
    rw [if_pos hempty]
    exact h.trans (Nat.lt_succ_self _)
  · next hempty =>
    rw [if_neg hempty]
    exact h

/-- A message with room for the first peer and one of its allowed IPs leaves less to be sent. -/
theorem putPeers_progress {buflen len : Nat} {p : Peer} {peers : List Peer}
    {allowedIps : List AllowedIp} (hvalid : Cursor.Valid ⟨p :: peers, allowedIps⟩)
    (hpeer : len + size (p.payloads allowedIps.isEmpty) ≤ buflen)
    (hallowedIp : ∀ a ∈ p.allowedIps,
      len + size (p.payloads allowedIps.isEmpty) + 4 + size a.payloads ≤ buflen) :
    (putPeers buflen len allowedIps (p :: peers)).2.weight <
      Cursor.weight ⟨p :: peers, allowedIps⟩ := by
  have hrest : ∀ len, (putPeers buflen len [] peers).2.weight <
      Cursor.weight ⟨p :: peers, allowedIps⟩ := fun len =>
    (putPeers_advances buflen (Cursor.valid_fresh peers)).weight.trans_lt
      (Advances.weight_lt p peers allowedIps)
  rw [putPeers]
  simp only [putAll_eq_some hpeer]
  split
  · next hempty =>
    obtain rfl := eq_nil_of_valid hvalid (List.isEmpty_iff.mp hempty)
    exact hrest _
  · next hne =>
    have htodo := todo_ne_nil allowedIps fun hp => hne (List.isEmpty_iff.mpr hp)
    obtain ⟨a, todo, heq⟩ := List.exists_cons_of_ne_nil htodo
    have ha : a ∈ p.allowedIps := by
      have hmem : a ∈ Cursor.todo allowedIps p := heq ▸ List.mem_cons_self
      unfold Cursor.todo at hmem
      split at hmem
      · exact hmem
      · exact hvalid a hmem
    have hfits := hallowedIp a ha
    have hnest : putCheck buflen (len + size (p.payloads allowedIps.isEmpty)) 0 =
        some (len + size (p.payloads allowedIps.isEmpty) + 4) :=
      if_neg (Nat.not_lt.mpr ((Nat.le_add_right _ _).trans hfits))
    have hput : putAllowedIps buflen (len + size (p.payloads allowedIps.isEmpty) + 4)
        (if allowedIps.isEmpty then p.allowedIps else allowedIps) = _ :=
      congrArg (putAllowedIps buflen _) heq
    have happend := putAllowedIps_append buflen (len + size (p.payloads allowedIps.isEmpty) + 4)
      (a :: todo)
    simp only [hnest, hput]
    rw [putAllowedIps] at happend ⊢
    simp only [putAll_eq_some hfits] at happend ⊢
    split
    · exact hrest _
    · next hleft =>
      refine weight_lt_of_length (fun hnil => hleft (List.isEmpty_iff.mpr hnil)) ?_
      rw [heq, ← happend, List.cons_append, List.length_cons, List.length_append]
      exact Nat.lt_succ_of_le (Nat.le_add_left _ _)

/-- The buffer has room for the attributes of the device, one peer and one of its allowed IPs. -/
def Device.Fits (dev : Device) (buflen : Nat) : Prop :=
  ∀ p ∈ dev.peers, put (dev.start true) 0 + size (p.payloads true) ≤ buflen ∧
    ∀ a ∈ p.allowedIps, put (dev.start true) 0 + size (p.payloads true) + 4 + size a.payloads ≤ buflen

theorem le_put (len payload : Nat) : len ≤ put len payload :=
  (Nat.le_add_right len 4).trans (Nat.le_add_right _ _)

theorem start_le (dev : Device) (first : Bool) : dev.start first ≤ dev.start true := by
  have hle : ∀ (c : Prop) [Decidable c] (len payload : Nat), len ≤ if c then put len payload else len := by
    intro c _ len payload
    split
    · exact le_put len payload
    · exact Nat.le_refl _
  cases first with
  | true => exact Nat.le_refl _
  | false =>
    unfold Device.start
    exact (hle ..).trans ((hle ..).trans ((hle ..).trans (hle ..)))

theorem size_append (xs ys : List Nat) : size (xs ++ ys) = size xs + size ys := by
  simp [size]

theorem size_payloads_le (p : Peer) (fresh : Bool) : size (p.payloads fresh) ≤ size (p.payloads true) := by
  cases fresh with
  | true => exact Nat.le_refl _
  | false =>
    simp only [Peer.payloads, size_append]
    refine Nat.add_le_add (Nat.add_le_add_left (Nat.zero_le _) _) ?_
    cases p.removeMe with
    | true => exact Nat.le_refl _
    | false => exact Nat.zero_le _

theorem Device.Fits.progress {dev : Device} {buflen : Nat} (h : dev.Fits buflen) (first : Bool)
    {p : Peer} {peers : List Peer} {allowedIps : List AllowedIp} (hp : p ∈ dev.peers)
    (hvalid : Cursor.Valid ⟨p :: peers, allowedIps⟩) :
    (putPeers buflen (put (dev.start first) 0) allowedIps (p :: peers)).2.weight <
      Cursor.weight ⟨p :: peers, allowedIps⟩ := by
  obtain ⟨hpeer, hallowedIp⟩ := h p hp
  have hle : put (dev.start first) 0 + size (p.payloads allowedIps.isEmpty) ≤
      put (dev.start true) 0 + size (p.payloads true) :=
    Nat.add_le_add (Nat.add_le_add_right (start_le dev first) 4) (size_payloads_le p _)
  refine putPeers_progress hvalid (hle.trans hpeer) fun a ha => ?_
  exact (Nat.add_le_add_right (Nat.add_le_add_right hle 4) _).trans (hallowedIp a ha)

/-! ## All messages -/

theorem sendFrom_mono {buflen : Nat} {dev : Device} {n m : Nat} {first : Bool} {cursor : Cursor}
    {messages : List Message} (h : sendFrom buflen dev n first cursor = some messages) (hle : n ≤ m) :
    sendFrom buflen dev m first cursor = some messages := by
  induction n generalizing m first cursor messages with
  | zero => cases h
  | succ n ih =>
    obtain ⟨m, rfl⟩ := Nat.exists_eq_add_of_le' (Nat.one_le_of_lt hle)
    rw [sendFrom] at h ⊢
    dsimp only at h ⊢
    split at h
    · next hempty => rw [if_pos hempty, h]
    · next hempty =>
      obtain ⟨rest, hrest, rfl⟩ := Option.map_eq_some_iff.mp h
      rw [if_neg hempty, ih hrest (Nat.le_of_succ_le_succ hle), Option.map_some]

/-- What a message does to the cursor, if the buffer has room. -/
theorem Device.Fits.fill {dev : Device} {buflen : Nat} (h : dev.Fits buflen) (first : Bool)
    {cursor : Cursor} (hvalid : cursor.Valid) (hpeers : cursor.peers <:+ dev.peers) :
    Advances cursor (dev.fill buflen first cursor).1 (dev.fill buflen first cursor).2 ∧
      ((dev.fill buflen first cursor).2.peers ≠ [] →
        (dev.fill buflen first cursor).2.weight < cursor.weight) := by
  obtain ⟨peers, allowedIps⟩ := cursor
  unfold Device.fill
  split
  · next hempty =>
    rw [List.isEmpty_iff.mp hempty, List.suffix_nil] at hpeers
    cases hpeers
    exact ⟨⟨trivial, List.suffix_refl _, Nat.le_refl _, fun _ hlater => hlater⟩, fun hne => absurd rfl hne⟩
  · refine ⟨putPeers_advances buflen hvalid, fun hne => ?_⟩
    cases peers with
    | nil => exact absurd rfl hne
    | cons p peers => exact h.progress first (hpeers.subset List.mem_cons_self) hvalid

/-- Enough messages send all that is left, the first of them with the attributes of the device if they
were not sent before. -/
theorem sendFrom_sends {buflen : Nat} {dev : Device} (hfits : dev.Fits buflen) {n : Nat} (first : Bool)
    {cursor : Cursor} (hvalid : cursor.Valid) (hpeers : cursor.peers <:+ dev.peers)
    (hweight : cursor.weight < n) :
    ∃ (sent : List PeerAttrs) (more : List (List PeerAttrs)),
      sendFrom buflen dev n first cursor =
        some (dev.message first sent :: more.map (dev.message false)) ∧
      cursor.Sends (sent ++ more.flatten) := by
  induction n generalizing first cursor with
  | zero => exact absurd hweight (Nat.not_lt_zero _)
  | succ n ih =>
    obtain ⟨hadvances, hprogress⟩ := hfits.fill first hvalid hpeers
    rw [sendFrom]
    dsimp only
    split
    · next hempty =>
      exact ⟨(dev.fill buflen first cursor).1, [], rfl,
        hadvances.sends [] (Cursor.sends_nil (List.isEmpty_iff.mp hempty))⟩
    · next hempty =>
      have hless := hprogress fun hnil => hempty (List.isEmpty_iff.mpr hnil)
      obtain ⟨sent, more, hrest, hsends⟩ := ih false hadvances.valid
        (hadvances.suffix.trans hpeers) (hless.trans_le (Nat.le_of_lt_succ hweight))
      refine ⟨(dev.fill buflen first cursor).1, sent :: more, ?_, hadvances.sends _ hsends⟩
      rw [hrest]
      rfl

/-! ## The same device -/

theorem addAllowedIp_isSome {key : Bytes} {peers : KernelPeers} (h : (peers key).isSome = true)
    (a : AllowedIp) : (addAllowedIp key peers a key).isSome = true := by
  unfold addAllowedIp
  split
  · simpa using h
  · simpa using h

theorem foldl_addAllowedIp_isSome {key : Bytes} {peers : KernelPeers} (h : (peers key).isSome = true)
    (allowedIps : List AllowedIp) :
    (allowedIps.foldl (addAllowedIp key) peers key).isSome = true := by
  induction allowedIps generalizing peers with
  | nil => exact h
  | cons a allowedIps ih => exact ih (addAllowedIp_isSome h a)

/-- Without its fields a peer overwrites nothing. -/
theorem overwrite_attrs_false (q : KernelPeer) (p : Peer) (allowedIps : List AllowedIp) :
    q.overwrite (p.attrs false allowedIps) = q := rfl

/-- A piece that goes on with a peer adds its allowed IPs to those that were sent before. -/
theorem setPeer_setPeer (peers : KernelPeers) (p : Peer) (fresh : Bool) (ips more : List AllowedIp) :
    setPeer (setPeer peers (p.attrs fresh ips)) (p.attrs false more) =
      setPeer peers (p.attrs fresh (ips ++ more)) := by
  cases hremove : p.removeMe with
  | true =>
    have hattrs : ∀ fresh ips, (p.attrs fresh ips).removeMe = true := fun _ _ => hremove
    simp only [setPeer, hattrs, if_true]
    exact Function.update_idem ..
  | false =>
    have hattrs : ∀ peers fresh ips, setPeer peers (p.attrs fresh ips) =
        ips.foldl (addAllowedIp p.publicKey) (Function.update peers p.publicKey
          (some (((peers p.publicKey).getD KernelPeer.new).overwrite (p.attrs fresh [])))) :=
      fun _ _ _ => if_neg (by simp [Peer.attrs, hremove])
    rw [hattrs _ fresh (ips ++ more), List.foldl_append, ← hattrs]
    generalize hsent : setPeer peers (p.attrs fresh ips) = sent
    have hsome : (sent p.publicKey).isSome = true := by
      rw [← hsent, hattrs]
      exact foldl_addAllowedIp_isSome (by simp) ips
    obtain ⟨q, hq⟩ := Option.isSome_iff_exists.mp hsome
    rw [hattrs, hq, Option.getD_some, overwrite_attrs_false, ← hq, Function.update_eq_self]

theorem foldl_pieces {p : Peer} {fresh : Bool} {allowedIps : List AllowedIp} {sent : List PeerAttrs}
    (h : Pieces p fresh allowedIps sent) (peers : KernelPeers) :
    sent.foldl setPeer peers = setPeer peers (p.attrs fresh allowedIps) := by
  obtain ⟨ips, more, rfl, rfl⟩ := h
  induction more generalizing ips with
  | nil => rw [List.flatten_nil, List.append_nil]; rfl
  | cons next more ih =>
    rw [List.flatten_cons, ← List.append_assoc, ← ih, List.map_cons, List.foldl_cons, List.foldl_cons,
      setPeer_setPeer, List.foldl_cons]

theorem foldl_sent {peers : List Peer} {pieces : List (List PeerAttrs)}
    (h : List.Forall₂ Sent peers pieces) (state : KernelPeers) :
    pieces.flatten.foldl setPeer state =
      (peers.map fun p => p.attrs true p.allowedIps).foldl setPeer state := by
  induction h generalizing state with
  | nil => rfl
  | cons hsent _ ih =>
    rw [List.flatten_cons, List.foldl_append, foldl_pieces hsent, ih, List.map_cons, List.foldl_cons]

/-- The messages after the first one add their peers to it. -/
theorem foldl_setDevice (dev : Device) (first : Bool) (sent : List PeerAttrs)
    (more : List (List PeerAttrs)) (k : KernelDevice) :
    (dev.message first sent :: more.map (dev.message false)).foldl setDevice k =
      setDevice k (dev.message first (sent ++ more.flatten)) := by
  induction more generalizing sent with
  | nil => rw [List.flatten_nil, List.append_nil]; rfl
  | cons next more ih =>
    have htwo : setDevice (setDevice k (dev.message first sent)) (dev.message false next) =
        setDevice k (dev.message first (sent ++ next)) := by
      simp [setDevice, Device.message, List.foldl_append]
    rw [List.flatten_cons, ← List.append_assoc, ← ih, List.map_cons, List.foldl_cons, List.foldl_cons,
      htwo, List.foldl_cons]

/-- One message with the whole device. -/
def Device.whole (dev : Device) : Message :=
  dev.message true (dev.peers.map fun p => p.attrs true p.allowedIps)

/-- With a buffer that has room for the attributes of the device, one peer and one of its allowed IPs,
`kernel_set_device` sends a number of messages that do to any device what one message with all of it
would do. Of every peer one piece has its fields, and the pieces have its allowed IPs in order. -/
theorem kernelSetDevice_faithful {dev : Device} {buflen : Nat} (h : dev.Fits buflen) :
    ∃ n messages, (∀ m ≥ n, kernelSetDevice m buflen dev = some messages) ∧
      (∀ k, messages.foldl setDevice k = setDevice k dev.whole) ∧
      ∃ pieces, List.Forall₂ Sent dev.peers pieces ∧
        messages.flatMap Message.peers = pieces.flatten := by
  obtain ⟨sent, more, hsend, hsends⟩ := sendFrom_sends h true (Cursor.valid_fresh dev.peers)
    (List.suffix_refl _) (Nat.lt_succ_self _)
  obtain ⟨pieces, hpieces, hflatten⟩ := Cursor.sends_fresh.mp hsends
  refine ⟨_, _, fun m hm => sendFrom_mono hsend hm, fun k => ?_, pieces, hpieces, ?_⟩
  · rw [foldl_setDevice, hflatten, Device.whole]
    simp only [setDevice, Device.message, foldl_sent hpieces]
  · rw [← hflatten, List.flatMap_cons, List.flatMap_map]
    simp [Device.message, List.flatMap_id']

/-- A device with a peer and two allowed IPs. -/
def sampleDevice : Device where
  name := cstring "wg0"
  replacePeers := true
  privateKey := some (List.replicate 32 1)
  listenPort := none
  fwmark := none
  peers := [{
    removeMe := false
    replaceAllowedIps := true
    publicKey := List.replicate 32 2
    presharedKey := none
    endpoint := .other
    persistentKeepaliveInterval := none
    allowedIps := [⟨some (.inet 0xC0000200), 24, 0⟩, ⟨some (.inet 0xC6336400), 24, 0⟩] }]

example : (kernelSetDevice 3 160 sampleDevice).map List.length = some 2 := by decide

theorem kernelSetDevice_sample : sampleDevice.Fits 160 ∧
    ∃ n messages, (∀ m ≥ n, kernelSetDevice m 160 sampleDevice = some messages) ∧
      ∀ k, messages.foldl setDevice k = setDevice k sampleDevice.whole := by
  have hfits : sampleDevice.Fits 160 := by
    unfold Device.Fits
    decide
  obtain ⟨n, messages, hsend, hsame, _⟩ := kernelSetDevice_faithful hfits
  exact ⟨hfits, n, messages, hsend, hsame⟩

end Netlink

end WgAndroid
