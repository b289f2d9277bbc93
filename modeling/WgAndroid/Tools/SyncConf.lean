import WgAndroid.Tools.Encoding
import WgAndroid.Tools.Netlink

/-!
# Synchronising a device with a file

`setconf.c`: the commands `setconf`, `addconf` and `syncconf`. `setconf` asks the kernel to drop all
peers first. `syncconf` asks for the peers of the device, sorts them together with those of the file,
and removes the peers that the file does not have; a peer of both is not removed, so that its session
goes on, and what the file does not mention is cleared.

Results:
1. `syncLoop_eq`: what the loop over the sorted array does to the request.
2. `syncConf_keeps`: a peer of both is there at every moment.
3. `syncConf_like_setconf`: in the end the device is what `setconf` would have made of it, but for the
   endpoints that the file does not mention.
-/

namespace WgAndroid

/-! ## The request -/

def zeroKey : Bytes := List.replicate 32 0

def AllowedIp.request (a : AllowedIp) : Netlink.AllowedIp where
  address := some a.address
  cidr := UInt8.ofNat a.cidr
  flags := if a.remove then 1 else 0

def WgPeer.request (p : WgPeer) : Netlink.Peer where
  removeMe := false
  replaceAllowedIps := p.replaceAllowedIps
  publicKey := p.publicKey.getD []
  presharedKey := p.presharedKey
  endpoint := p.endpoint.getD .other
  persistentKeepaliveInterval := p.persistentKeepalive.map UInt16.ofNat
  allowedIps := p.allowedIps.map AllowedIp.request

/-- The device of `config_read_finish`, with the name that `setconf_main` gives to it. Unless it is
appended, `config_read_init` has set the flags of all fields. -/
def WgDevice.request (append : Bool) (name : Bytes) (d : WgDevice) : Netlink.Device where
  name := name.take 15
  replacePeers := !append
  privateKey := if append then d.privateKey else some (d.privateKey.getD zeroKey)
  listenPort :=
    if append then d.listenPort.map UInt16.ofNat else some (UInt16.ofNat (d.listenPort.getD 0))
  fwmark := if append then d.fwmark.map UInt32.ofNat else some (UInt32.ofNat (d.fwmark.getD 0))
  peers := d.peers.map WgPeer.request

namespace Netlink

/-! ## The sorted array -/

/-- `struct wgpeer` as `ipc_get_device` fills it, as far as `sync_conf` reads it. -/
structure RuntimePeer where
  publicKey : Bytes
  hasPresharedKey : Bool
  persistentKeepaliveInterval : UInt16
  deriving DecidableEq

/-- `struct peer_origin`; a peer of the file is known by its place there. -/
inductive PeerOrigin where
  | file (index : ℕ) (publicKey : Bytes)
  | runtime (peer : RuntimePeer)
  deriving DecidableEq

def PeerOrigin.publicKey : PeerOrigin → Bytes
  | .file _ publicKey => publicKey
  | .runtime peer => peer.publicKey

def PeerOrigin.fromFile : PeerOrigin → Bool
  | .file _ _ => true
  | .runtime _ => false

/-- `memcmp` of two arrays of one length. -/
def memcmp : Bytes → Bytes → ℤ
  | a :: s, b :: t => if a = b then memcmp s t else (a.toNat : ℤ) - b.toNat
  | _, _ => 0

def peerCmp (a b : PeerOrigin) : ℤ :=
  let ret := memcmp a.publicKey b.publicKey
  if ret ≠ 0 then ret else (a.fromFile.toNat : ℤ) - b.fromFile.toNat

/-- The array before `qsort`. -/
def origins (file : Device) (runtime : List RuntimePeer) : List PeerOrigin :=
  (file.peers.zipIdx.map fun p => .file p.2 p.1.publicKey) ++ runtime.map .runtime

/-- What `qsort` may leave of the array: it does not say in which order it leaves equal elements. -/
structure Qsorted (peers sorted : List PeerOrigin) : Prop where
  perm : sorted.Perm peers
  pairwise : sorted.Pairwise fun a b => peerCmp a b ≤ 0

/-! ## The loop -/

/-- A new peer that asks for the removal of a peer. -/
def Peer.removal (publicKey : Bytes) : Peer :=
  ⟨true, false, publicKey, none, .other, none, []⟩

/-- Clear what the device has and the file does not mention. -/
def Peer.clear (r : RuntimePeer) (p : Peer) : Peer :=
  { p with
    presharedKey :=
      if r.hasPresharedKey && p.presharedKey.isNone then some zeroKey else p.presharedKey
    persistentKeepaliveInterval :=
      if r.persistentKeepaliveInterval != 0 && p.persistentKeepaliveInterval.isNone then some 0
      else p.persistentKeepaliveInterval }

/-- The loop over the sorted array: the removals, from the last one, and the peers of the file. -/
def syncLoop : List PeerOrigin → List Peer × List Peer → List Peer × List Peer
  | [], s => s
  | .file _ _ :: rest, s => syncLoop rest s
  | .runtime r :: rest, (removals, peers) =>
    match rest.head? with
    | some (.file index publicKey) =>
      if publicKey = r.publicKey then syncLoop rest (removals, peers.modify index (Peer.clear r))
      else syncLoop rest (Peer.removal r.publicKey :: removals, peers)
    | _ => syncLoop rest (Peer.removal r.publicKey :: removals, peers)

/-- `sync_conf`, with the peers of the device and the sorted array. -/
def syncConf (file : Device) (runtime : List RuntimePeer) (sorted : List PeerOrigin) : Device :=
  if file.peers.isEmpty || runtime.isEmpty then file
  else
    let (removals, peers) := syncLoop sorted ([], file.peers)
    { file with replacePeers := false, peers := removals ++ peers }

end Netlink

/-- The names of `setconf_main`. -/
inductive SetconfName where
  | setconf
  | addconf
  | syncconf
  deriving DecidableEq, Repr

/-- `setconf_main` up to `ipc_set_device`: the device it asks the kernel for. The peers are those that
`ipc_get_device` finds. -/
def setconfMain (L : Libc) (command : SetconfName) (name file : Bytes)
    (runtime : Option (List Netlink.RuntimePeer)) (sorted : List Netlink.PeerOrigin) :
    Option Netlink.Device := do
  let d ← addconf L file
  let device := d.request (command = .addconf) name
  if command = .syncconf then
    if device.peers.isEmpty then some device
    else runtime.map fun runtime => Netlink.syncConf device runtime sorted
  else some device

namespace Netlink

/-! ## What is adjacent in the sorted array -/

theorem memcmp_neg (s t : Bytes) : memcmp t s = -memcmp s t := by
  induction s generalizing t with
  | nil => cases t <;> rfl
  | cons a s ih =>
    cases t with
    | nil => rfl
    | cons b t =>
      by_cases hab : a = b
      · rw [memcmp, memcmp, if_pos hab, if_pos hab.symm, ih]
      · rw [memcmp, memcmp, if_neg hab, if_neg (Ne.symm hab), neg_sub]

theorem eq_of_memcmp {s t : Bytes} (hlength : s.length = t.length) (h : memcmp s t = 0) : s = t := by
  induction s generalizing t with
  | nil => exact (List.length_eq_zero_iff.mp hlength.symm).symm
  | cons a s ih =>
    cases t with
    | nil => simp at hlength
    | cons b t =>
      by_cases hab : a = b
      · rw [memcmp, if_pos hab] at h
        rw [hab, ih (Nat.succ_injective hlength) h]
      · rw [memcmp, if_neg hab, sub_eq_zero, Nat.cast_inj] at h
        exact absurd (UInt8.toNat_inj.mp h) hab

theorem memcmp_self (s : Bytes) : memcmp s s = 0 := by
  have := memcmp_neg s s
  omega

theorem memcmp_of_peerCmp {a b : PeerOrigin} (h : peerCmp a b ≤ 0) :
    memcmp a.publicKey b.publicKey ≤ 0 := by
  rw [peerCmp] at h
  split_ifs at h with hne
  · exact h
  · exact (not_not.mp hne).le

/-- No peer of the device comes after a peer of the file with its key. -/
theorem not_peerCmp_le (index : ℕ) (r : RuntimePeer) :
    ¬peerCmp (.file index r.publicKey) (.runtime r) ≤ 0 := by
  have hsame : memcmp (PeerOrigin.file index r.publicKey).publicKey
      (PeerOrigin.runtime r).publicKey = 0 := memcmp_self r.publicKey
  rw [peerCmp, hsame]
  exact not_le.mpr one_pos

def PeerOrigin.ofRuntime : PeerOrigin → Option RuntimePeer
  | .file _ _ => none
  | .runtime r => some r

/-- The peers of the device in an array. -/
def runtimes (peers : List PeerOrigin) : List RuntimePeer := peers.filterMap PeerOrigin.ofRuntime

@[simp]
theorem runtimes_file (index : ℕ) (publicKey : Bytes) (peers : List PeerOrigin) :
    runtimes (.file index publicKey :: peers) = runtimes peers := rfl

@[simp]
theorem runtimes_runtime (r : RuntimePeer) (peers : List PeerOrigin) :
    runtimes (.runtime r :: peers) = r :: runtimes peers := rfl

/-- A peer of the file with the key of a peer of the device comes right after it. -/
theorem head_of_sorted {peers : List PeerOrigin} (hlength : ∀ o ∈ peers, o.publicKey.length = 32)
    (hpairwise : peers.Pairwise fun a b => peerCmp a b ≤ 0)
    (hnodup : ((runtimes peers).map RuntimePeer.publicKey).Nodup) {r : RuntimePeer}
    {before rest : List PeerOrigin} (hsplit : before ++ .runtime r :: rest = peers) {index : ℕ}
    (hfile : .file index r.publicKey ∈ peers) :
    ∃ index rest', rest = .file index r.publicKey :: rest' := by
  subst hsplit
  rw [List.pairwise_append] at hpairwise
  obtain ⟨-, hafter, hbefore⟩ := hpairwise
  have hin : .file index r.publicKey ∈ rest := by
    rcases List.mem_append.mp hfile with h | h
    · exact absurd (hbefore _ h _ List.mem_cons_self) (not_peerCmp_le index r)
    · exact (List.mem_cons.mp h).resolve_left (by simp)
  cases rest with
  | nil => simp at hin
  | cons x rest =>
    rw [List.pairwise_cons, List.pairwise_cons] at hafter
    obtain ⟨hr, hx, -⟩ := hafter
    -- the key of `x` is between two equal ones
    have hkey : x.publicKey = r.publicKey := by
      have hle : memcmp r.publicKey x.publicKey ≤ 0 := memcmp_of_peerCmp (hr x List.mem_cons_self)
      have hge : memcmp x.publicKey r.publicKey ≤ 0 := by
        rcases List.mem_cons.mp hin with h | h
        · rw [← h]
          exact (memcmp_self r.publicKey).le
        · exact memcmp_of_peerCmp (hx _ h)
      have := memcmp_neg r.publicKey x.publicKey
      apply eq_of_memcmp _ (by omega)
      rw [hlength x (by simp), ← hlength (.runtime r) (by simp)]
      rfl
    cases x with
    | file index publicKey => exact ⟨index, rest, by rw [← hkey]; rfl⟩
    | runtime r' =>
      rw [runtimes, List.filterMap_append, List.map_append] at hnodup
      have hne : ((runtimes (.runtime r :: .runtime r' :: rest)).map RuntimePeer.publicKey).Nodup :=
        (List.nodup_append.mp hnodup).2.1
      rw [runtimes_runtime, runtimes_runtime, List.map_cons, List.map_cons, List.nodup_cons] at hne
      exact absurd (List.mem_cons.mpr (.inl hkey.symm)) hne.1

/-! ## What the loop does -/

/-- Clear what a peer of the device with the same key has. -/
def Peer.clearSame (p : Peer) (r : RuntimePeer) : Peer :=
  if p.publicKey = r.publicKey then p.clear r else p

def Peer.clearAll (rs : List RuntimePeer) (p : Peer) : Peer :=
  rs.foldl Peer.clearSame p

@[simp]
theorem publicKey_clearSame (p : Peer) (r : RuntimePeer) :
    (p.clearSame r).publicKey = p.publicKey := by
  unfold Peer.clearSame
  split_ifs <;> rfl

@[simp]
theorem publicKey_clearAll (rs : List RuntimePeer) (p : Peer) :
    (p.clearAll rs).publicKey = p.publicKey := by
  induction rs generalizing p with
  | nil => rfl
  | cons r rs ih => exact (ih _).trans (publicKey_clearSame p r)

theorem map_clearSame_of_notMem {peers : List Peer} {r : RuntimePeer}
    (h : r.publicKey ∉ peers.map Peer.publicKey) : peers.map (·.clearSame r) = peers := by
  refine (List.map_congr_left fun p hp => ?_).trans (List.map_id _)
  apply if_neg
  intro hkey
  exact h (hkey ▸ List.mem_map_of_mem hp)

theorem modify_clear {peers : List Peer} {r : RuntimePeer} {index : ℕ}
    (hnodup : (peers.map Peer.publicKey).Nodup)
    (hindex : (peers.map Peer.publicKey)[index]? = some r.publicKey) :
    peers.modify index (Peer.clear r) = peers.map (·.clearSame r) := by
  induction peers generalizing index with
  | nil => simp at hindex
  | cons p peers ih =>
    rw [List.map_cons, List.nodup_cons] at hnodup
    cases index with
    | zero =>
      have hkey : p.publicKey = r.publicKey := by simpa using hindex
      rw [List.modify_zero_cons, List.map_cons, map_clearSame_of_notMem (hkey ▸ hnodup.1),
        Peer.clearSame, if_pos hkey]
    | succ index =>
      have hrest : (peers.map Peer.publicKey)[index]? = some r.publicKey := by simpa using hindex
      have hne : p.publicKey ≠ r.publicKey := by
        intro hkey
        exact hnodup.1 (hkey ▸ List.mem_of_getElem? hrest)
      rw [List.modify_succ_cons, List.map_cons, ih hnodup.2 hrest, Peer.clearSame, if_neg hne]

/-- In the array a peer of the device is followed by the peer of the file with its key, if there is
one. -/
def Adjacent (keys : List Bytes) (peers : List PeerOrigin) : Prop :=
  ∀ r rest, (.runtime r :: rest) <:+ peers →
    (r.publicKey ∈ keys ↔ ∃ index rest', rest = .file index r.publicKey :: rest')

theorem Adjacent.tail {keys : List Bytes} {o : PeerOrigin} {peers : List PeerOrigin}
    (h : Adjacent keys (o :: peers)) : Adjacent keys peers :=
  fun r rest hsuffix => h r rest (hsuffix.trans (List.suffix_cons o peers))

theorem syncLoop_clears (r : RuntimePeer) (index : ℕ) (rest : List PeerOrigin)
    (removals peers : List Peer) :
    syncLoop (.runtime r :: .file index r.publicKey :: rest) (removals, peers) =
      syncLoop (.file index r.publicKey :: rest) (removals, peers.modify index (Peer.clear r)) :=
  if_pos rfl

theorem syncLoop_removes {keys : List Bytes} {r : RuntimePeer} {rest : List PeerOrigin}
    (hadjacent : Adjacent keys (.runtime r :: rest)) (hr : r.publicKey ∉ keys)
    (removals peers : List Peer) : syncLoop (.runtime r :: rest) (removals, peers) =
      syncLoop rest (Peer.removal r.publicKey :: removals, peers) := by
  have hnext : ¬∃ index rest', rest = .file index r.publicKey :: rest' := fun h =>
    hr ((hadjacent r rest List.suffix_rfl).mpr h)
  cases rest with
  | nil => rfl
  | cons x rest =>
    cases x with
    | runtime r' => rfl
    | file index publicKey =>
      have hne : publicKey ≠ r.publicKey := by
        rintro rfl
        exact hnext ⟨index, rest, rfl⟩
      exact if_neg hne

/-- The loop asks for the removal of the peers that the file does not have, and clears in the others
what the file does not mention. -/
theorem syncLoop_eq {keys : List Bytes} {sorted : List PeerOrigin} (hadjacent : Adjacent keys sorted)
    {peers : List Peer} (hkeys : peers.map Peer.publicKey = keys) (hnodup : keys.Nodup)
    (hindex : ∀ index publicKey, .file index publicKey ∈ sorted → keys[index]? = some publicKey)
    (removals : List Peer) :
    syncLoop sorted (removals, peers) =
      ((((runtimes sorted).filter fun r => r.publicKey ∉ keys).map
        fun r => Peer.removal r.publicKey).reverse ++ removals,
        peers.map (Peer.clearAll (runtimes sorted))) := by
  induction sorted generalizing peers removals with
  | nil => exact Prod.ext rfl (List.map_id _).symm
  | cons o rest ih =>
    have hrest := fun index publicKey h => hindex index publicKey (List.mem_cons_of_mem o h)
    cases o with
    | file index publicKey => exact ih hadjacent.tail hkeys hrest removals
    | runtime r =>
      by_cases hr : r.publicKey ∈ keys
      · obtain ⟨index, rest', rfl⟩ := (hadjacent r rest List.suffix_rfl).mp hr
        have hplace := hindex index r.publicKey (by simp)
        have hmodify := modify_clear (hkeys ▸ hnodup) (hkeys ▸ hplace)
        have hkeys' : (peers.map (·.clearSame r)).map Peer.publicKey = keys := by
          rw [List.map_map, ← hkeys]
          exact List.map_congr_left fun p _ => publicKey_clearSame p r
        rw [syncLoop_clears, hmodify, ih hadjacent.tail hkeys' hrest, runtimes_runtime,
          List.filter_cons_of_neg (by simpa using hr), List.map_map]
        rfl
      · rw [syncLoop_removes hadjacent hr, ih hadjacent.tail hkeys hrest, runtimes_runtime,
          List.filter_cons_of_pos (by simpa using hr), List.map_cons, List.reverse_cons,
          List.append_assoc]
        congr 1
        refine List.map_congr_left fun p hp => ?_
        have hne : p.publicKey ≠ r.publicKey := by
          intro hkey
          exact hr (hkeys ▸ hkey ▸ List.mem_map_of_mem hp)
        rw [Peer.clearAll, Peer.clearAll, List.foldl_cons, Peer.clearSame, if_neg hne]

/-! ## The peers of the kernel, one by one -/

/-- What an allowed IP that is set for one peer does to those of another. -/
def setAllowedIp (key other : Bytes) (ips : List (Option IpAddr × UInt8)) (a : AllowedIp) :
    List (Option IpAddr × UInt8) :=
  if a.flags &&& 1 ≠ 0 then
    if other = key then ips.filter (· != (a.address, a.cidr)) else ips
  else
    ips.filter (· != (a.address, a.cidr)) ++ if other = key then [(a.address, a.cidr)] else []

def KernelPeer.mapIps (f : List (Option IpAddr × UInt8) → List (Option IpAddr × UInt8))
    (p : KernelPeer) : KernelPeer :=
  { p with allowedIps := f p.allowedIps }

theorem addAllowedIp_apply (key other : Bytes) (peers : KernelPeers) (a : AllowedIp) :
    addAllowedIp key peers a other =
      (peers other).map (KernelPeer.mapIps fun ips => setAllowedIp key other ips a) := by
  by_cases hremove : a.flags &&& 1 ≠ 0
  · simp only [addAllowedIp, setAllowedIp, if_pos hremove]
    by_cases hother : other = key
    · subst hother
      simp only [Function.update_self, if_true]
      rfl
    · simp only [Function.update_of_ne hother, if_neg hother]
      exact Option.map_id'.symm
  · simp only [addAllowedIp, setAllowedIp, if_neg hremove]
    by_cases hother : other = key
    · subst hother
      simp only [Function.update_self, if_true, Option.map_map]
      rfl
    · simp only [Function.update_of_ne hother, if_neg hother, List.append_nil]
      rfl

theorem foldl_addAllowedIp_apply (key other : Bytes) (peers : KernelPeers)
    (allowedIps : List AllowedIp) :
    allowedIps.foldl (addAllowedIp key) peers other =
      (peers other).map (KernelPeer.mapIps fun ips => allowedIps.foldl (setAllowedIp key other) ips) := by
  induction allowedIps generalizing peers with
  | nil => exact Option.map_id'.symm
  | cons a allowedIps ih =>
    rw [List.foldl_cons, ih, addAllowedIp_apply, Option.map_map]
    rfl

/-- What a message with a peer does to one peer of the kernel. -/
def setOne (key : Bytes) (old : Option KernelPeer) (m : PeerAttrs) : Option KernelPeer :=
  if m.removeMe then if key = m.publicKey then none else old
  else
    (if key = m.publicKey then some ((old.getD KernelPeer.new).overwrite m) else old).map
      (KernelPeer.mapIps fun ips => m.allowedIps.foldl (setAllowedIp m.publicKey key) ips)

theorem setPeer_apply (key : Bytes) (peers : KernelPeers) (m : PeerAttrs) :
    setPeer peers m key = setOne key (peers key) m := by
  unfold setPeer setOne
  by_cases hkey : key = m.publicKey
  · simp only [if_pos hkey]
    subst hkey
    split_ifs
    · exact Function.update_self ..
    · rw [foldl_addAllowedIp_apply, Function.update_self]
  · simp only [if_neg hkey]
    split_ifs
    · exact Function.update_of_ne hkey ..
    · rw [foldl_addAllowedIp_apply, Function.update_of_ne hkey]

theorem foldl_setPeer_apply (key : Bytes) (peers : KernelPeers) (ms : List PeerAttrs) :
    ms.foldl setPeer peers key = ms.foldl (setOne key) (peers key) := by
  induction ms generalizing peers with
  | nil => rfl
  | cons m ms ih => rw [List.foldl_cons, ih, setPeer_apply, List.foldl_cons]

/-- A peer of the request takes allowed IPs from the others, and does nothing else to them. -/
theorem setOne_of_ne {key : Bytes} {old : Option KernelPeer} {m : PeerAttrs} (h : key ≠ m.publicKey)
    (hremove : m.removeMe = false) : setOne key old m = old.map
      (KernelPeer.mapIps fun ips => m.allowedIps.foldl (setAllowedIp m.publicKey key) ips) := by
  rw [setOne, hremove, if_neg Bool.false_ne_true, if_neg h]

theorem foldl_removals (key : Bytes) (old : Option KernelPeer) (keys : List Bytes) :
    (keys.map fun k => (Peer.removal k).attrs true []).foldl (setOne key) old =
      if key ∈ keys then none else old := by
  induction keys generalizing old with
  | nil => simp
  | cons k keys ih =>
    have hone : setOne key old ((Peer.removal k).attrs true []) = if key = k then none else old := rfl
    rw [List.map_cons, List.foldl_cons, ih, hone]
    by_cases hk : key = k
    · simp [hk]
    · simp [hk]

/-! ## The same device -/

/-- The kernel makes no difference between a field that is zero and one that was never set. -/
def KernelPeer.effective (p : KernelPeer) : KernelPeer :=
  { p with
    presharedKey := p.presharedKey.filter (· ≠ zeroKey)
    persistentKeepaliveInterval := p.persistentKeepaliveInterval.filter (· ≠ 0) }

/-- The peer with the endpoint of an old one, if it has none itself. -/
def KernelPeer.keepEndpoint (old : Option KernelPeer) (p : KernelPeer) : KernelPeer :=
  { p with
    endpoint :=
      if p.endpoint = .other then (old.map KernelPeer.endpoint).getD .other else p.endpoint }

/-- What `ipc_get_device` says of a peer. -/
structure RuntimePeer.Describes (r : RuntimePeer) (p : KernelPeer) : Prop where
  presharedKey : r.hasPresharedKey = p.effective.presharedKey.isSome
  persistentKeepaliveInterval :
    r.persistentKeepaliveInterval = p.persistentKeepaliveInterval.getD 0

/-- The peers of `ipc_get_device` are those of the device, each one once. -/
structure KernelDevice.Lists (k : KernelDevice) (runtime : List RuntimePeer) : Prop where
  length : ∀ r ∈ runtime, r.publicKey.length = 32
  nodup : (runtime.map RuntimePeer.publicKey).Nodup
  complete : ∀ key p, k.peers key = some p → key ∈ runtime.map RuntimePeer.publicKey
  describes : ∀ r ∈ runtime, ∃ p, k.peers r.publicKey = some p ∧ r.Describes p

/-- The second peer is the first one with the old endpoint, if it has none itself. -/
def Like (old set sync : Option KernelPeer) : Prop :=
  sync.map KernelPeer.effective = set.map fun p => p.effective.keepEndpoint old

theorem Like.mapIps {old set sync : Option KernelPeer} (h : Like old set sync)
    (f : List (Option IpAddr × UInt8) → List (Option IpAddr × UInt8)) :
    Like old (set.map (KernelPeer.mapIps f)) (sync.map (KernelPeer.mapIps f)) := by
  have hmap := congrArg (Option.map (KernelPeer.mapIps f)) h
  rw [Option.map_map, Option.map_map] at hmap
  rw [Like, Option.map_map, Option.map_map]
  exact hmap

/-! ### The peers that are cleared -/

theorem clearAll_of_notMem {rs : List RuntimePeer} {p : Peer}
    (h : p.publicKey ∉ rs.map RuntimePeer.publicKey) : p.clearAll rs = p := by
  induction rs with
  | nil => rfl
  | cons r rs ih =>
    rw [List.map_cons, List.mem_cons, not_or] at h
    rw [Peer.clearAll, List.foldl_cons, Peer.clearSame, if_neg h.1]
    exact ih h.2

theorem clearAll_of_mem {rs : List RuntimePeer} (hnodup : (rs.map RuntimePeer.publicKey).Nodup)
    {r : RuntimePeer} (hr : r ∈ rs) {p : Peer} (hkey : p.publicKey = r.publicKey) :
    p.clearAll rs = p.clear r := by
  obtain ⟨before, after, rfl⟩ := List.append_of_mem hr
  rw [List.map_append, List.map_cons, List.nodup_append, List.nodup_cons] at hnodup
  obtain ⟨-, ⟨hafter, -⟩, hdisjoint⟩ := hnodup
  have hbefore : p.publicKey ∉ before.map RuntimePeer.publicKey := fun h =>
    hdisjoint _ h _ List.mem_cons_self hkey
  calc p.clearAll (before ++ r :: after)
    _ = ((p.clearAll before).clearSame r).clearAll after := by
      rw [Peer.clearAll, List.foldl_append]
      rfl
    _ = (p.clear r).clearAll after := by
      rw [clearAll_of_notMem hbefore, Peer.clearSame, if_pos hkey]
    _ = p.clear r := clearAll_of_notMem (hkey ▸ hafter)

/-- What is cleared is left of the request. -/
theorem clearAll_fields (rs : List RuntimePeer) (p : Peer) :
    (p.clearAll rs).removeMe = p.removeMe ∧
      (p.clearAll rs).replaceAllowedIps = p.replaceAllowedIps ∧
      (p.clearAll rs).allowedIps = p.allowedIps := by
  induction rs generalizing p with
  | nil => exact ⟨rfl, rfl, rfl⟩
  | cons r rs ih =>
    have hone : (p.clearSame r).removeMe = p.removeMe ∧
        (p.clearSame r).replaceAllowedIps = p.replaceAllowedIps ∧
        (p.clearSame r).allowedIps = p.allowedIps := by
      unfold Peer.clearSame
      split_ifs <;> exact ⟨rfl, rfl, rfl⟩
    obtain ⟨h₁, h₂, h₃⟩ := ih (p.clearSame r)
    exact ⟨h₁.trans hone.1, h₂.trans hone.2.1, h₃.trans hone.2.2⟩

/-- A peer that is overwritten, with what is not mentioned cleared, is a new one. -/
theorem overwrite_clear {r : RuntimePeer} {q : KernelPeer} (h : r.Describes q) {p : Peer}
    (hreplace : p.replaceAllowedIps = true) (ips : List AllowedIp) :
    (q.overwrite ((p.clear r).attrs true ips)).effective =
      (KernelPeer.new.overwrite (p.attrs true ips)).effective.keepEndpoint (some q) := by
  obtain ⟨hpresharedKey, hkeepalive⟩ := h
  have hpsk : ((p.clear r).presharedKey.or q.presharedKey).filter (· ≠ zeroKey) =
      (p.presharedKey.or none).filter (· ≠ zeroKey) := by
    cases hp : p.presharedKey with
    | some x => simp [Peer.clear, hp]
    | none =>
      cases hq : q.effective.presharedKey with
      | none =>
        have hclear : (p.clear r).presharedKey = none := by simp [Peer.clear, hp, hpresharedKey, hq]
        rw [hclear, Option.none_or]
        exact hq
      | some y => simp [Peer.clear, hp, hpresharedKey, hq]
  have hka : ((p.clear r).persistentKeepaliveInterval.or q.persistentKeepaliveInterval).filter
      (· ≠ 0) = (p.persistentKeepaliveInterval.or none).filter (· ≠ 0) := by
    cases hp : p.persistentKeepaliveInterval with
    | some x => simp [Peer.clear, hp]
    | none =>
      by_cases hr : r.persistentKeepaliveInterval = 0
      · cases hq : q.persistentKeepaliveInterval with
        | none => simp [Peer.clear, hp, hr]
        | some y =>
          have hy : y = 0 := by rw [← hr, hkeepalive, hq, Option.getD_some]
          simp [Peer.clear, hp, hr, hy]
      · simp [Peer.clear, hp, hr]
  have hips : (p.clear r).replaceAllowedIps = true := hreplace
  simp only [KernelPeer.overwrite, KernelPeer.effective, KernelPeer.keepEndpoint, KernelPeer.new,
    Peer.attrs, if_true, Bool.true_and, hreplace, hips]
  rw [hpsk, hka]
  by_cases he : p.endpoint = .other
  · simp [Peer.clear, he]
  · simp [Peer.clear, he]

/-! ### Whole runs -/

/-- A peer of a file as it is sent. -/
def Peer.sent (p : Peer) : PeerAttrs := p.attrs true p.allowedIps

theorem peers_setDevice_whole (k : KernelDevice) (dev : Device) (key : Bytes) :
    (setDevice k dev.whole).peers key = (dev.peers.map Peer.sent).foldl (setOne key)
      (if dev.replacePeers then none else k.peers key) := by
  have hfold : (setDevice k dev.whole).peers = (dev.peers.map Peer.sent).foldl setPeer
      (if dev.replacePeers then fun _ => none else k.peers) := rfl
  rw [hfold, foldl_setPeer_apply]
  split_ifs <;> rfl

section Runs

variable {key : Bytes} {old : Option KernelPeer} {rs : List RuntimePeer} {peers : List Peer}

/-- The other peers of the file take the same allowed IPs from both. -/
theorem Like.setOne {set sync : Option KernelPeer} (h : Like old set sync) {p : Peer}
    (hremove : p.removeMe = false) (hkey : key ≠ p.publicKey) :
    Like old (Netlink.setOne key set p.sent) (Netlink.setOne key sync (p.clearAll rs).sent) := by
  obtain ⟨hremove', -, hips⟩ := clearAll_fields rs p
  have hsync : (p.clearAll rs).sent.publicKey = p.publicKey := publicKey_clearAll rs p
  rw [setOne_of_ne (m := p.sent) hkey hremove, setOne_of_ne (hsync ▸ hkey) (hremove'.trans hremove),
    hsync]
  have hsent : (p.clearAll rs).sent.allowedIps = p.sent.allowedIps := hips
  rw [hsent]
  exact h.mapIps _

theorem Like.foldl_of_notMem {set sync : Option KernelPeer} (h : Like old set sync)
    (hremove : ∀ p ∈ peers, p.removeMe = false) (hkey : key ∉ peers.map Peer.publicKey) :
    Like old ((peers.map Peer.sent).foldl (Netlink.setOne key) set)
      (((peers.map (Peer.clearAll rs)).map Peer.sent).foldl (Netlink.setOne key) sync) := by
  induction peers generalizing set sync with
  | nil => exact h
  | cons p peers ih =>
    rw [List.map_cons, List.mem_cons, not_or] at hkey
    exact ih (h.setOne (hremove p List.mem_cons_self) hkey.1)
      (fun q hq => hremove q (List.mem_cons_of_mem p hq)) hkey.2

/-- All that a peer has but its allowed IPs. -/
def KernelPeer.fields : KernelPeer → KernelPeer := KernelPeer.mapIps fun _ => []

theorem overwrite_fields {q q' : KernelPeer} (h : q.fields = q'.fields) {m : PeerAttrs}
    (hreplace : m.replaceAllowedIps = true) : q.overwrite m = q'.overwrite m := by
  obtain ⟨hpsk, hendpoint, hkeepalive, -⟩ := KernelPeer.mk.inj h
  rw [KernelPeer.overwrite, KernelPeer.overwrite, hpsk, hendpoint, hkeepalive, if_pos hreplace,
    if_pos hreplace]

/-- The peers of `ipc_get_device` say what the old peer with a key has. -/
def Known (rs : List RuntimePeer) (key : Bytes) (old : Option KernelPeer) : Prop :=
  (old = none ∧ key ∉ rs.map RuntimePeer.publicKey) ∨
    ∃ q r, old = some q ∧ r ∈ rs ∧ r.publicKey = key ∧ r.Describes q

theorem setOne_self {p : Peer} (hremove : p.removeMe = false) (hkey : p.publicKey = key)
    (old : Option KernelPeer) : Netlink.setOne key old p.sent =
      (some ((old.getD KernelPeer.new).overwrite p.sent)).map
        (KernelPeer.mapIps fun ips => p.allowedIps.foldl (setAllowedIp key key) ips) := by
  subst hkey
  have hstay : ¬p.sent.removeMe = true := by
    rw [Peer.sent, Peer.attrs, hremove]
    exact Bool.false_ne_true
  exact (if_neg hstay).trans (congrArg (Option.map _) (if_pos rfl))

theorem like_self (p : Option KernelPeer) : Like none p p := by
  cases p with
  | none => rfl
  | some p =>
    by_cases hendpoint : p.endpoint = .other
    · simp [Like, KernelPeer.keepEndpoint, KernelPeer.effective, hendpoint]
    · simp [Like, KernelPeer.keepEndpoint, KernelPeer.effective, hendpoint]

/-- The peer of the file with the key: `setconf` makes a new one, `syncconf` overwrites the old one. -/
theorem like_setOne (hnodup : (rs.map RuntimePeer.publicKey).Nodup) (hknown : Known rs key old)
    {p : Peer} (hremove : p.removeMe = false) (hreplace : p.replaceAllowedIps = true)
    (hkey : p.publicKey = key) {sync : Option KernelPeer}
    (hsync : sync.map KernelPeer.fields = old.map KernelPeer.fields) :
    Like old (Netlink.setOne key none p.sent) (Netlink.setOne key sync (p.clearAll rs).sent) := by
  obtain ⟨hremove', hreplace', hips⟩ := clearAll_fields rs p
  have hold : (sync.getD KernelPeer.new).fields = (old.getD KernelPeer.new).fields := by
    cases sync <;> cases old <;> simp_all
  rw [setOne_self hremove hkey, setOne_self (hremove'.trans hremove)
    ((publicKey_clearAll rs p).trans hkey), hips, overwrite_fields hold (hreplace'.trans hreplace)]
  apply Like.mapIps
  rcases hknown with ⟨rfl, hnone⟩ | ⟨q, r, rfl, hr, hrkey, hdescribes⟩
  · rw [clearAll_of_notMem (hkey ▸ hnone)]
    exact like_self _
  · rw [clearAll_of_mem hnodup hr (hkey.trans hrkey.symm)]
    exact congrArg some (overwrite_clear hdescribes hreplace p.allowedIps)

theorem like_foldl (hrs : (rs.map RuntimePeer.publicKey).Nodup) (hknown : Known rs key old)
    (hremove : ∀ p ∈ peers, p.removeMe = false) (hreplace : ∀ p ∈ peers, p.replaceAllowedIps = true)
    (hnodup : (peers.map Peer.publicKey).Nodup) (hkey : key ∈ peers.map Peer.publicKey)
    {sync : Option KernelPeer} (hsync : sync.map KernelPeer.fields = old.map KernelPeer.fields) :
    Like old ((peers.map Peer.sent).foldl (Netlink.setOne key) none)
      (((peers.map (Peer.clearAll rs)).map Peer.sent).foldl (Netlink.setOne key) sync) := by
  induction peers generalizing sync with
  | nil => simp at hkey
  | cons p peers ih =>
    rw [List.map_cons, List.nodup_cons] at hnodup
    have hp := hremove p List.mem_cons_self
    have hrest := fun q hq => hremove q (List.mem_cons_of_mem p hq)
    by_cases hpkey : p.publicKey = key
    · exact (like_setOne hrs hknown hp (hreplace p List.mem_cons_self) hpkey hsync).foldl_of_notMem
        hrest (hpkey ▸ hnodup.1)
    · obtain ⟨hremove', -, -⟩ := clearAll_fields rs p
      have hclear : (p.clearAll rs).sent.publicKey = p.publicKey := publicKey_clearAll rs p
      -- before its turn the peer is not there for `setconf`, and loses allowed IPs for `syncconf`
      have hset : Netlink.setOne key none p.sent = none := setOne_of_ne (Ne.symm hpkey) hp
      have hother : key ≠ (p.clearAll rs).sent.publicKey := hclear ▸ Ne.symm hpkey
      rw [List.map_cons, List.foldl_cons, hset]
      refine ih hrest (fun q hq => hreplace q (List.mem_cons_of_mem p hq)) hnodup.2
        ((List.mem_cons.mp hkey).resolve_left (Ne.symm hpkey)) ?_
      rw [setOne_of_ne hother (hremove'.trans hp), Option.map_map, ← hsync]
      rfl

end Runs

/-! ### The whole command -/

theorem runtimes_origins (file : Device) (runtime : List RuntimePeer) :
    runtimes (origins file runtime) = runtime := by
  rw [origins, runtimes, List.filterMap_append, List.filterMap_map, List.filterMap_map]
  have hfile : ∀ peers : List (Peer × ℕ), peers.filterMap
      (fun p => (none : Option RuntimePeer)) = [] := by simp
  refine Eq.trans (congrArg₂ _ (hfile file.peers.zipIdx) ?_) (List.nil_append _)
  exact List.filterMap_some

theorem mem_origins_file {file : Device} {runtime : List RuntimePeer} {index : ℕ} {key : Bytes} :
    .file index key ∈ origins file runtime ↔ (file.peers.map Peer.publicKey)[index]? = some key := by
  simp [origins, List.mem_zipIdx_iff_getElem?]

theorem Qsorted.runtimes_perm {file : Device} {runtime : List RuntimePeer}
    {sorted : List PeerOrigin} (h : Qsorted (origins file runtime) sorted) :
    (runtimes sorted).Perm runtime :=
  (h.perm.filterMap PeerOrigin.ofRuntime).trans (.of_eq (runtimes_origins file runtime))

section Command

variable {file : Device} {k : KernelDevice} {runtime : List RuntimePeer} {sorted : List PeerOrigin}

theorem adjacent_sorted (hlength : ∀ p ∈ file.peers, p.publicKey.length = 32)
    (hlist : k.Lists runtime) (hsorted : Qsorted (origins file runtime) sorted) :
    Adjacent (file.peers.map Peer.publicKey) sorted := by
  have hkeys : ∀ o ∈ sorted, o.publicKey.length = 32 := by
    intro o ho
    rw [hsorted.perm.mem_iff] at ho
    cases o with
    | file index key =>
      obtain ⟨p, hp, rfl⟩ := List.mem_map.mp (List.mem_of_getElem? (mem_origins_file.mp ho))
      exact hlength p hp
    | runtime r => exact hlist.length r (by simpa [origins] using ho)
  have hnodup : ((runtimes sorted).map RuntimePeer.publicKey).Nodup :=
    (hsorted.runtimes_perm.map _).nodup_iff.mpr hlist.nodup
  rintro r rest ⟨before, hsplit⟩
  constructor
  · intro hr
    obtain ⟨index, hindex⟩ := List.mem_iff_getElem?.mp hr
    have hfile := hsorted.perm.mem_iff.mpr (mem_origins_file.mpr hindex)
    exact head_of_sorted hkeys hsorted.pairwise hnodup hsplit hfile
  · rintro ⟨index, rest, rfl⟩
    have hfile : .file index r.publicKey ∈ sorted := by simp [← hsplit]
    exact List.mem_of_getElem? (mem_origins_file.mp (hsorted.perm.mem_iff.mp hfile))

/-- The request of `sync_conf`: the removals of the peers that the file does not have, and the peers
of the file. -/
theorem syncConf_eq (hlength : ∀ p ∈ file.peers, p.publicKey.length = 32)
    (hnodup : (file.peers.map Peer.publicKey).Nodup) (hlist : k.Lists runtime)
    (hsorted : Qsorted (origins file runtime) sorted) (hfile : file.peers ≠ []) (hruntime : runtime ≠ []) :
    ∃ removed : List Bytes,
      (∀ key, key ∈ removed ↔
        key ∈ runtime.map RuntimePeer.publicKey ∧ key ∉ file.peers.map Peer.publicKey) ∧
      syncConf file runtime sorted = { file with
        replacePeers := false
        peers := removed.map Peer.removal ++ file.peers.map (Peer.clearAll (runtimes sorted)) } := by
  have hloop := syncLoop_eq (adjacent_sorted hlength hlist hsorted) rfl hnodup
    (fun index key h => mem_origins_file.mp (hsorted.perm.mem_iff.mp h)) []
  refine ⟨(((runtimes sorted).filter fun r =>
    r.publicKey ∉ file.peers.map Peer.publicKey).map RuntimePeer.publicKey).reverse, fun key => ?_, ?_⟩
  · simp only [List.mem_reverse, List.mem_map, List.mem_filter, hsorted.runtimes_perm.mem_iff,
      decide_eq_true_eq]
    constructor
    · rintro ⟨r, ⟨hr, hnot⟩, rfl⟩
      exact ⟨⟨r, hr, rfl⟩, hnot⟩
    · rintro ⟨⟨r, hr, rfl⟩, hnot⟩
      exact ⟨r, ⟨hr, hnot⟩, rfl⟩
  · rw [syncConf, if_neg (by simp [hfile, hruntime]), hloop]
    simp only [List.append_nil, List.map_reverse, List.map_map]
    rfl

theorem Lists.known (hlist : k.Lists runtime) (hperm : (runtimes sorted).Perm runtime) (key : Bytes) :
    Known (runtimes sorted) key (k.peers key) := by
  by_cases hkey : key ∈ runtime.map RuntimePeer.publicKey
  · obtain ⟨r, hr, rfl⟩ := List.mem_map.mp hkey
    obtain ⟨q, hq, hdescribes⟩ := hlist.describes r hr
    exact .inr ⟨q, r, hq, hperm.mem_iff.mpr hr, rfl, hdescribes⟩
  · refine .inl ⟨?_, fun h => hkey ((hperm.map _).mem_iff.mp h)⟩
    exact Option.eq_none_iff_forall_ne_some.mpr fun q hq => hkey (hlist.complete key q hq)

theorem syncConf_fields (file : Device) (runtime : List RuntimePeer) (sorted : List PeerOrigin) :
    (syncConf file runtime sorted).privateKey = file.privateKey ∧
      (syncConf file runtime sorted).listenPort = file.listenPort ∧
      (syncConf file runtime sorted).fwmark = file.fwmark := by
  rw [syncConf]
  split_ifs <;> exact ⟨rfl, rfl, rfl⟩

/-- For every key `syncconf` leaves the peer that `setconf` would have left. -/
theorem like_syncConf (hlength : ∀ p ∈ file.peers, p.publicKey.length = 32)
    (hnodup : (file.peers.map Peer.publicKey).Nodup) (hlist : k.Lists runtime)
    (hsorted : Qsorted (origins file runtime) sorted) (hreplacePeers : file.replacePeers = true)
    (hremove : ∀ p ∈ file.peers, p.removeMe = false)
    (hreplace : ∀ p ∈ file.peers, p.replaceAllowedIps = true) (key : Bytes) :
    Like (k.peers key) ((setDevice k file.whole).peers key)
      ((setDevice k (syncConf file runtime sorted).whole).peers key) := by
  have hset : (setDevice k file.whole).peers key =
      (file.peers.map Peer.sent).foldl (setOne key) none := by
    rw [peers_setDevice_whole, if_pos hreplacePeers]
  by_cases hfile : file.peers = []
  · rw [syncConf, if_pos (by simp [hfile]), hset, hfile]
    rfl
  by_cases hruntime : runtime = []
  · have hnone : k.peers key = none :=
      Option.eq_none_iff_forall_ne_some.mpr fun q hq => by
        simpa [hruntime] using hlist.complete key q hq
    rw [syncConf, if_pos (by simp [hruntime]), hnone]
    exact like_self _
  obtain ⟨removed, hremoved, hsync⟩ := syncConf_eq hlength hnodup hlist hsorted hfile hruntime
  have hfold : (setDevice k (syncConf file runtime sorted).whole).peers key =
      ((file.peers.map (Peer.clearAll (runtimes sorted))).map Peer.sent).foldl (setOne key)
        (if key ∈ removed then none else k.peers key) := by
    rw [hsync, ← foldl_removals, peers_setDevice_whole, if_neg Bool.false_ne_true, List.map_append,
      List.foldl_append, List.map_map]
    rfl
  rw [hset, hfold]
  by_cases hkey : key ∈ file.peers.map Peer.publicKey
  · rw [if_neg fun h => ((hremoved key).mp h).2 hkey]
    exact like_foldl ((hsorted.runtimes_perm.map _).nodup_iff.mpr hlist.nodup)
      (Lists.known hlist hsorted.runtimes_perm key) hremove hreplace hnodup hkey rfl
  · have hgone : (if key ∈ removed then none else k.peers key) = none := by
      refine ite_eq_left_iff.mpr fun hnot => ?_
      refine Option.eq_none_iff_forall_ne_some.mpr fun q hq => hnot ?_
      exact (hremoved key).mpr ⟨hlist.complete key q hq, hkey⟩
    rw [hgone]
    exact Like.foldl_of_notMem rfl hremove hkey

theorem setOne_isSome {key : Bytes} {old : Option KernelPeer} (h : old.isSome = true) {m : PeerAttrs}
    (hm : m.removeMe = true → m.publicKey ≠ key) : (setOne key old m).isSome = true := by
  rw [setOne]
  split_ifs with hremove hkey hkey
  · exact absurd hkey.symm (hm hremove)
  · exact h
  · rfl
  · simpa using h

theorem foldl_setPeer_isSome {key : Bytes} {peers : KernelPeers} (h : (peers key).isSome = true)
    {ms : List PeerAttrs} (hms : ∀ m ∈ ms, m.removeMe = true → m.publicKey ≠ key) :
    (ms.foldl setPeer peers key).isSome = true := by
  induction ms generalizing peers with
  | nil => exact h
  | cons m ms ih =>
    refine ih ?_ fun m' hm' => hms m' (List.mem_cons_of_mem m hm')
    rw [setPeer_apply]
    exact setOne_isSome h (hms m List.mem_cons_self)

/-- No request of `sync_conf` removes a peer of the file. -/
theorem removed_syncConf (hlength : ∀ p ∈ file.peers, p.publicKey.length = 32)
    (hnodup : (file.peers.map Peer.publicKey).Nodup) (hlist : k.Lists runtime)
    (hsorted : Qsorted (origins file runtime) sorted) (hremove : ∀ p ∈ file.peers, p.removeMe = false)
    {key : Bytes} (hkey : key ∈ file.peers.map Peer.publicKey) (hold : (k.peers key).isSome = true) :
    (syncConf file runtime sorted).replacePeers = false ∧
      ∀ m ∈ (syncConf file runtime sorted).whole.peers, m.removeMe = true → m.publicKey ≠ key := by
  have hfile : file.peers ≠ [] := by
    rintro hnil
    simp [hnil] at hkey
  have hruntime : runtime ≠ [] := by
    rintro rfl
    obtain ⟨q, hq⟩ := Option.isSome_iff_exists.mp hold
    simpa using hlist.complete key q hq
  obtain ⟨removed, hremoved, hsync⟩ := syncConf_eq hlength hnodup hlist hsorted hfile hruntime
  rw [hsync]
  refine ⟨rfl, fun m hm hmremove => ?_⟩
  obtain ⟨p, hp, rfl⟩ := List.mem_map.mp hm
  rcases List.mem_append.mp hp with h | h
  · obtain ⟨gone, hgone, rfl⟩ := List.mem_map.mp h
    rintro rfl
    exact ((hremoved gone).mp hgone).2 hkey
  · obtain ⟨q, hq, rfl⟩ := List.mem_map.mp h
    have hstay : (q.clearAll (runtimes sorted)).removeMe = false :=
      (clearAll_fields (runtimes sorted) q).1.trans (hremove q hq)
    exact absurd (hstay.symm.trans hmremove) Bool.false_ne_true

end Command

end Netlink

/-! ## The keys of a file -/

/-- The public key, once it is there, is a key. -/
def WgPeer.Keyed (p : WgPeer) : Prop := ∀ key, p.publicKey = some key → key.length = 32

theorem publicKey_parseAllowedip {L : Libc} {p p' : WgPeer} {entry : Bytes}
    (h : parseAllowedip L p entry = some p') : p'.publicKey = p.publicKey := by
  rw [parseAllowedip, Option.bind_eq_bind, Option.bind_eq_some_iff] at h
  obtain ⟨⟨address, cidr⟩, -, h⟩ := h
  cases h
  rfl

theorem publicKey_parseAllowedips {L : Libc} {p p' : WgPeer} {value : Bytes}
    (h : parseAllowedips L p value = some p') : p'.publicKey = p.publicKey := by
  rw [parseAllowedips] at h
  split_ifs at h
  · cases h
    rfl
  · have hfold := Checked.foldlM_some_invariant (f := parseAllowedip L)
      (fun (s : WgPeer) (_ : List Bytes) (u : WgPeer) => u.publicKey = s.publicKey) (fun _ => rfl)
      (fun hstep hrest => hrest.trans (publicKey_parseAllowedip hstep)) h
    exact hfold

theorem length_keyFromBase64 {value key : Bytes} (h : keyFromBase64 value = some key) :
    key.length = 32 :=
  ((keyFromBase64As_iff false value key).mp h).1

theorem WgPeer.Keyed.processPeer {L : Libc} {p p' : WgPeer} {line : Bytes} (hp : p.Keyed)
    (h : WgAndroid.processPeer L p line = some p') : p'.Keyed := by
  unfold WgAndroid.processPeer at h
  split at h
  · obtain ⟨_, -, rfl⟩ := Option.map_eq_some_iff.mp h
    exact hp
  · obtain ⟨key, hkey, rfl⟩ := Option.map_eq_some_iff.mp h
    rintro _ ⟨⟩
    exact length_keyFromBase64 hkey
  · intro key hkey
    exact hp key (publicKey_parseAllowedips h ▸ hkey)
  · obtain ⟨_, -, rfl⟩ := Option.map_eq_some_iff.mp h
    exact hp
  · obtain ⟨_, -, rfl⟩ := Option.map_eq_some_iff.mp h
    exact hp
  · cases h

theorem peers_processDevice {L : Libc} {d d' : WgDevice} {line : Bytes}
    (h : processDevice L d line = some d') : d'.peers = d.peers := by
  unfold processDevice at h
  split at h
  · obtain ⟨_, -, rfl⟩ := Option.map_eq_some_iff.mp h
    rfl
  · obtain ⟨_, -, rfl⟩ := Option.map_eq_some_iff.mp h
    rfl
  · obtain ⟨_, -, rfl⟩ := Option.map_eq_some_iff.mp h
    rfl
  · cases h

theorem keyed_processLine {L : Libc} {ctx ctx' : ConfigCtx} {line : Bytes}
    (h : processLine L ctx line = some ctx') (hpeers : ∀ p ∈ ctx.device.peers, p.Keyed) :
    ∀ p ∈ ctx'.device.peers, p.Keyed := by
  unfold processLine at h
  split_ifs at h
  · cases h
    exact hpeers
  · cases h
    intro p hp
    rcases List.mem_append.mp hp with hp | hp
    · exact hpeers p hp
    · cases List.mem_singleton.mp hp
      rintro _ ⟨⟩
  · obtain ⟨device, hdevice, h⟩ := Option.bind_eq_some_iff.mp h
    cases h
    exact fun p hp => hpeers p (peers_processDevice hdevice ▸ hp)
  · obtain ⟨last, hlast, h⟩ := Option.bind_eq_some_iff.mp h
    obtain ⟨peer, hpeer, h⟩ := Option.bind_eq_some_iff.mp h
    cases h
    intro p hp
    rcases List.mem_append.mp hp with hp | hp
    · exact hpeers p (List.mem_of_mem_dropLast hp)
    · cases List.mem_singleton.mp hp
      exact (hpeers last (List.mem_of_getLast? hlast)).processPeer hpeer

theorem keyed_configReadLine {L : Libc} {ctx ctx' : ConfigCtx} {line : Bytes}
    (h : configReadLine L ctx line = some ctx') (hpeers : ∀ p ∈ ctx.device.peers, p.Keyed) :
    ∀ p ∈ ctx'.device.peers, p.Keyed := by
  rw [configReadLine] at h
  split_ifs at h
  · cases h
    exact hpeers
  · exact keyed_processLine h hpeers

/-- A file that is read has a key of 32 bytes in every peer. -/
theorem exists_publicKey_of_addconf {L : Libc} {file : Bytes} {d : WgDevice}
    (h : addconf L file = some d) {p : WgPeer} (hp : p ∈ d.peers) :
    ∃ key, p.publicKey = some key ∧ key.length = 32 := by
  obtain ⟨ctx, hread, hfinish⟩ := Option.bind_eq_some_iff.mp h
  rw [configReadFinish] at hfinish
  split_ifs at hfinish with hall
  cases hfinish
  have hkeyed := Checked.foldlM_some_invariant
    (fun (s : ConfigCtx) (_ : List Bytes) (u : ConfigCtx) =>
      (∀ p ∈ s.device.peers, p.Keyed) → ∀ p ∈ u.device.peers, p.Keyed)
    (fun _ h => h) (fun hstep hrest hs => hrest (keyed_configReadLine hstep hs)) hread
    (by simp [ConfigCtx.init])
  obtain ⟨key, hkey⟩ := Option.isSome_iff_exists.mp (List.all_eq_true.mp hall p hp)
  exact ⟨key, hkey, hkeyed p hp key hkey⟩

/-! ## The two commands -/

namespace Netlink

section Commands

variable {L : Libc} {file : Bytes} {d : WgDevice}

theorem length_publicKey_request (hread : addconf L file = some d) (name : Bytes) :
    ∀ p ∈ (d.request false name).peers, p.publicKey.length = 32 := by
  intro p hp
  obtain ⟨q, hq, rfl⟩ := List.mem_map.mp hp
  obtain ⟨key, hkey, hlength⟩ := exists_publicKey_of_addconf hread hq
  rw [WgPeer.request, hkey]
  exact hlength

theorem nodup_publicKey_request (hread : addconf L file = some d)
    (hnodup : (d.peers.map WgPeer.publicKey).Nodup) (name : Bytes) :
    ((d.request false name).peers.map Peer.publicKey).Nodup := by
  have hmap : (d.request false name).peers.map Peer.publicKey =
      (d.peers.map WgPeer.publicKey).map (·.getD []) := by
    rw [WgDevice.request, List.map_map, List.map_map]
    rfl
  rw [hmap]
  refine List.Nodup.map_on (fun x hx y hy hxy => ?_) hnodup
  obtain ⟨p, hp, rfl⟩ := List.mem_map.mp hx
  obtain ⟨q, hq, rfl⟩ := List.mem_map.mp hy
  obtain ⟨key, hkey, -⟩ := exists_publicKey_of_addconf hread hp
  obtain ⟨key', hkey', -⟩ := exists_publicKey_of_addconf hread hq
  rw [hkey, hkey'] at hxy ⊢
  exact congrArg some hxy

theorem removeMe_request (d : WgDevice) (name : Bytes) :
    ∀ p ∈ (d.request false name).peers, p.removeMe = false := by
  intro p hp
  obtain ⟨q, -, rfl⟩ := List.mem_map.mp hp
  rfl

theorem setconfMain_setconf (hread : addconf L file = some d) (name : Bytes)
    (runtime : Option (List RuntimePeer)) (sorted : List PeerOrigin) :
    setconfMain L .setconf name file runtime sorted = some (d.request false name) := by
  rw [setconfMain, hread]
  rfl

theorem setconfMain_syncconf (hread : addconf L file = some d) (name : Bytes)
    (runtime : List RuntimePeer) (sorted : List PeerOrigin) :
    setconfMain L .syncconf name file (some runtime) sorted =
      some (syncConf (d.request false name) runtime sorted) := by
  rw [setconfMain, hread]
  by_cases hpeers : (d.request false name).peers.isEmpty = true
  · rw [syncConf, if_pos (by rw [hpeers, Bool.true_or])]
    exact if_pos hpeers
  · exact if_neg hpeers

/-- Once a file with distinct public keys and plain lists of allowed IPs was read, `syncconf` makes of
any device what `setconf` makes of it, except that a peer for which the file has no endpoint keeps the
one it had. The peers of the device may be listed in any order, and `qsort` may leave equal elements in
any order. -/
theorem syncConf_like_setconf {L : Libc} {name file : Bytes} {d : WgDevice}
    (hread : addconf L file = some d) (hnodup : (d.peers.map WgPeer.publicKey).Nodup)
    (hreplace : ∀ p ∈ d.peers, p.replaceAllowedIps = true) {k : KernelDevice}
    {runtime : List RuntimePeer} (hlist : k.Lists runtime) {sorted : List PeerOrigin}
    (hsorted : Qsorted (origins (d.request false name) runtime) sorted) :
    ∃ set sync, setconfMain L .setconf name file (some runtime) sorted = some set ∧
      setconfMain L .syncconf name file (some runtime) sorted = some sync ∧
      (setDevice k sync.whole).privateKey = (setDevice k set.whole).privateKey ∧
      (setDevice k sync.whole).listenPort = (setDevice k set.whole).listenPort ∧
      (setDevice k sync.whole).fwmark = (setDevice k set.whole).fwmark ∧
      ∀ key, ((setDevice k sync.whole).peers key).map KernelPeer.effective =
        ((setDevice k set.whole).peers key).map fun p =>
          p.effective.keepEndpoint (k.peers key) := by
  obtain ⟨hprivateKey, hlistenPort, hfwmark⟩ :=
    syncConf_fields (d.request false name) runtime sorted
  refine ⟨_, _, setconfMain_setconf hread name _ _, setconfMain_syncconf hread name _ _,
    congrArg (Option.or · k.privateKey) hprivateKey, congrArg (Option.or · k.listenPort) hlistenPort,
    congrArg (Option.or · k.fwmark) hfwmark, fun key => ?_⟩
  refine like_syncConf (length_publicKey_request hread name)
    (nodup_publicKey_request hread hnodup name) hlist hsorted rfl (removeMe_request d name) ?_ key
  intro p hp
  obtain ⟨q, hq, rfl⟩ := List.mem_map.mp hp
  exact hreplace q hq

/-- A file with one peer and its keepalive. -/
def sampleFile : Bytes :=
  cstring "[Peer]\nPublicKey = AQEBAQEBAQEBAQEBAQEBAQEBAQEBAQEBAQEBAQEBAQE=\nPersistentKeepalive = 25\n"

def sampleRead : WgDevice :=
  ⟨none, none, none, [⟨some (List.replicate 32 1), none, none, some 25, true, []⟩]⟩

def noLibc : Libc := ⟨fun _ => none, fun _ => none, fun _ _ _ => .permanent⟩

/-- A device with that peer, which has a preshared key and an endpoint there, and another one. -/
def sampleKernel : KernelDevice where
  privateKey := none
  listenPort := none
  fwmark := none
  peers := fun key =>
    if key = List.replicate 32 1 then
      some ⟨some (List.replicate 32 3), .inet 0xC0000201 51820, none, []⟩
    else if key = List.replicate 32 2 then some .new
    else none

def sampleRuntime : List RuntimePeer :=
  [⟨List.replicate 32 2, false, 0⟩, ⟨List.replicate 32 1, true, 0⟩]

def sampleSorted : List PeerOrigin :=
  [.runtime ⟨List.replicate 32 1, true, 0⟩, .file 0 (List.replicate 32 1),
   .runtime ⟨List.replicate 32 2, false, 0⟩]

theorem addconf_sampleFile : addconf noLibc sampleFile = some sampleRead := by decide +kernel

theorem sampleKernel_lists : sampleKernel.Lists sampleRuntime where
  length := by decide
  nodup := by decide
  complete := by
    intro key p h
    unfold sampleKernel at h
    dsimp only at h
    split_ifs at h with h₁ h₂
    · simp [h₁, sampleRuntime]
    · simp [h₂, sampleRuntime]
  describes := by
    intro r hr
    simp only [sampleRuntime, List.mem_cons, List.not_mem_nil, or_false] at hr
    rcases hr with rfl | rfl
    · exact ⟨_, rfl, ⟨rfl, rfl⟩⟩
    · exact ⟨_, rfl, ⟨rfl, rfl⟩⟩

theorem sampleSorted_qsorted :
    Qsorted (origins (sampleRead.request false (cstring "wg0")) sampleRuntime) sampleSorted :=
  ⟨by decide, by decide⟩

theorem syncConf_like_setconf_sample :
    ∃ sync, setconfMain noLibc .syncconf (cstring "wg0") sampleFile (some sampleRuntime) sampleSorted =
        some sync ∧
      ((setDevice sampleKernel sync.whole).peers (List.replicate 32 1)).map KernelPeer.effective =
        some ⟨none, .inet 0xC0000201 51820, some 25, []⟩ ∧
      ((setDevice sampleKernel sync.whole).peers (List.replicate 32 2)).map KernelPeer.effective =
        none := by
  obtain ⟨set, sync, hset, hsync, -, -, -, hpeers⟩ :=
    syncConf_like_setconf addconf_sampleFile (by decide) (by decide) sampleKernel_lists
      sampleSorted_qsorted
  rw [setconfMain_setconf addconf_sampleFile] at hset
  cases hset
  exact ⟨sync, hsync, hpeers _, hpeers _⟩

/-- While `syncconf` changes a device, a peer that the device and the file have is there after every
peer of the request: its session goes on. -/
theorem syncConf_keeps {L : Libc} {name file : Bytes} {d : WgDevice}
    (hread : addconf L file = some d) (hnodup : (d.peers.map WgPeer.publicKey).Nodup)
    {k : KernelDevice} {runtime : List RuntimePeer} (hlist : k.Lists runtime)
    {sorted : List PeerOrigin} (hsorted : Qsorted (origins (d.request false name) runtime) sorted)
    {key : Bytes} (hkey : some key ∈ d.peers.map WgPeer.publicKey)
    (hold : (k.peers key).isSome = true) :
    ∃ sync, setconfMain L .syncconf name file (some runtime) sorted = some sync ∧
      sync.replacePeers = false ∧
      ∀ sent, sent <+: sync.whole.peers → (sent.foldl setPeer k.peers key).isSome = true := by
  have hmem : key ∈ (d.request false name).peers.map Peer.publicKey := by
    obtain ⟨p, hp, hpkey⟩ := List.mem_map.mp hkey
    refine List.mem_map.mpr ⟨p.request, List.mem_map_of_mem hp, ?_⟩
    rw [WgPeer.request, hpkey, Option.getD_some]
  obtain ⟨hflag, hremoved⟩ := removed_syncConf (length_publicKey_request hread name)
    (nodup_publicKey_request hread hnodup name) hlist hsorted (removeMe_request d name) hmem hold
  refine ⟨_, setconfMain_syncconf hread name _ _, hflag, fun sent hsent => ?_⟩
  exact foldl_setPeer_isSome hold fun m hm => hremoved m (hsent.subset hm)

theorem syncConf_keeps_sample : ∃ sync,
    setconfMain noLibc .syncconf (cstring "wg0") sampleFile (some sampleRuntime) sampleSorted =
        some sync ∧
      sync.replacePeers = false ∧
      ∀ sent, sent <+: sync.whole.peers →
        (sent.foldl setPeer sampleKernel.peers (List.replicate 32 1)).isSome = true :=
  syncConf_keeps addconf_sampleFile (by decide) sampleKernel_lists sampleSorted_qsorted (by decide) rfl

end Commands

end Netlink

end WgAndroid
