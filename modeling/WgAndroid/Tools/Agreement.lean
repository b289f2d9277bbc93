import WgAndroid.Tools.Values

/-!
# The app and the native tools read the same configuration

A configuration that `Config.parse` returned is printed, encoded and handed to wg-quick, as
`WgQuickBackend.setStateInternal` does; wg-quick keeps some lines and forwards the others to
`wg addconf`.

Results:
1. `foldl_interface`: what wg-quick keeps and forwards of the `[Interface]` section.
2. `foldl_peers`: it forwards the `[Peer]` sections as they are.
3. `foldlM_processPeer`: what `wg` reads from a `[Peer]` section.
4. `native_tools_agree`: together, the MTU, the addresses, the device and its peers.
-/

namespace WgAndroid

/-- The peer that `wg` holds for `p`, if the host and the port of its endpoint can be resolved. -/
def Peer.native (L : Libc) (p : Peer) : Option WgPeer := do
  let endpoint ← p.endpoint.mapM fun e =>
    resolveEndpoint L (ascii e.bareHost) (ascii (decimal e.port))
  pure {
    publicKey := some p.publicKey.bytes
    presharedKey := p.preSharedKey.map Key.bytes
    endpoint := endpoint
    persistentKeepalive := p.persistentKeepalive
    replaceAllowedIps := true
    allowedIps := p.allowedIps.elems.map fun n => ⟨n.address.native, n.mask, false⟩ }

/-! ## What wg-quick keeps and forwards -/

namespace QuickOptions

/-- What is looked at of a state. -/
structure Holds (s : QuickOptions) (config : Bytes) (addrs : Option Bytes) (mtu : Nat) : Prop where
  config : s.config = some config
  addrs : s.addrs = addrs
  mtu : s.mtu = mtu

/-- The same in the `[Interface]` section. -/
structure Inside (s : QuickOptions) (config : Bytes) (addrs : Option Bytes) (mtu : Nat) : Prop
    extends Holds s config addrs mtu where
  inside : s.inInterfaceSection = true

section Lines

variable {s : QuickOptions} {config : Bytes} {addrs : Option Bytes} {mtu : Nat} {name : String}

/-- A list that wg-quick keeps is recorded if there is one. -/
theorem foldl_listLine {key : QuickKey} {values : List JString} (hin : s.inInterfaceSection = true)
    (hkey : Attribute.IsKey (text name))
    (hmatch : values ≠ [] →
      quickMatch (cstring name ++ (cstring "=" ++ clean (getBytes (Attribute.join values)))) quickKeys =
        some (key, clean (getBytes (Attribute.join values)))) :
    ((Attribute.listLine name values).map encode).foldl line s =
      if values.isEmpty then s else s.record (clean (getBytes (Attribute.join values))) key := by
  unfold Attribute.listLine
  split
  · rfl
  · next hne =>
    rw [← clean_line hkey] at hmatch
    rw [List.map_singleton, List.foldl_cons, List.foldl_nil]
    exact line_record hin (head_clean_line hkey) (hmatch fun h => hne (List.isEmpty_iff.mpr h))

theorem Inside.record {key : QuickKey} (h : Inside s config addrs mtu) (haddr : key ≠ .address)
    (hmtu : key ≠ .mtu) (value : Bytes) : Inside (s.record value key) config addrs mtu where
  config := (record_config _ _).trans h.config
  addrs := (record_addrs haddr _).trans h.addrs
  mtu := (record_mtu hmtu _).trans h.mtu
  inside := (record_inInterfaceSection _ _).trans h.inside

/-- Name servers and applications do not touch what is looked at. -/
theorem Inside.listLine (h : Inside s config addrs mtu) (name : String) (values : List JString)
    {key : QuickKey} (hkey : Attribute.IsKey (text name)) (haddr : key ≠ .address) (hmtu : key ≠ .mtu)
    (hmatch : values ≠ [] →
      quickMatch (cstring name ++ (cstring "=" ++ clean (getBytes (Attribute.join values)))) quickKeys =
        some (key, clean (getBytes (Attribute.join values)))) :
    Inside (((Attribute.listLine name values).map encode).foldl line s) config addrs mtu := by
  rw [foldl_listLine h.inside hkey hmatch]
  split
  · exact h
  · exact h.record haddr hmtu _

/-- A line that is neither a header nor known to wg-quick, without a NUL. -/
structure Forwarded (s : QuickOptions) (l : JString) : Prop where
  head : (clean (encode l)).head? ≠ some (byte '[')
  unknown : s.inInterfaceSection = true → quickMatch (clean (encode l)) quickKeys = none
  nul : 0 ∉ encode l

/-- Such lines are forwarded as they are. -/
theorem foldl_forward {ls : List JString} (hconfig : s.config = some config)
    (h : ∀ l ∈ ls, Forwarded s l) :
    (ls.map encode).foldl line s = { s with config := some (config ++ ls.flatMap encode) } := by
  induction ls generalizing s config with
  | nil =>
    rw [List.flatMap_nil, List.append_nil, ← hconfig]
    rfl
  | cons l ls ih =>
    obtain ⟨hhead, hunknown, hnul⟩ := h l List.mem_cons_self
    have hline : s.line (encode l) = { s with config := some (config ++ encode l) } := by
      rw [line_forward hhead hunknown, cstr_eq_self hnul, forward, hconfig]
      rfl
    have hrest : ∀ m ∈ ls, Forwarded { s with config := some (config ++ encode l) } m := fun m hm =>
      ⟨(h m (List.mem_cons_of_mem _ hm)).head, (h m (List.mem_cons_of_mem _ hm)).unknown,
        (h m (List.mem_cons_of_mem _ hm)).nul⟩
    rw [List.map_cons, List.foldl_cons, hline, ih rfl hrest, List.flatMap_cons, List.append_assoc]

theorem Inside.forward {ls : List JString} (h : Inside s config addrs mtu)
    (hls : ∀ l ∈ ls, Forwarded s l) :
    Inside ((ls.map encode).foldl line s) (config ++ ls.flatMap encode) addrs mtu := by
  rw [foldl_forward h.config hls]
  exact ⟨⟨rfl, h.addrs, h.mtu⟩, h.inside⟩

theorem zero_not_mem_line {v : JString} (hkey : Attribute.IsKey (text name)) (hv : 0 ∉ getBytes v) :
    0 ∉ encode (Attribute.line name v) := by
  rw [encode_line hkey]
  simp only [List.mem_append, not_or]
  exact ⟨fun h => ((bytes_of_isKey hkey).2 0 h).2.1 rfl, by decide, hv, by decide⟩

theorem forwarded_line {v : JString} (hkey : Attribute.IsKey (text name)) (hv : 0 ∉ getBytes v)
    (hunknown : s.inInterfaceSection = true →
      quickMatch (cstring name ++ (cstring "=" ++ clean (getBytes v))) quickKeys = none) :
    Forwarded s (Attribute.line name v) :=
  ⟨head_clean_line hkey, clean_line hkey ▸ hunknown, zero_not_mem_line hkey hv⟩

end Lines

end QuickOptions

/-- The lines of the `[Interface]` section that wg-quick does not know. -/
def Interface.deviceLines (i : Interface) : List JString :=
  Attribute.optLine "ListenPort" (i.listenPort.map decimal) ++
    [Attribute.line "PrivateKey" i.privateKey.toBase64]

/-- The addresses as wg-quick collects them. -/
def Interface.addressText (P : Platform) (i : Interface) : Option Bytes :=
  if i.addresses.elems.isEmpty then none
  else some ([byte ','].intercalate ((i.addresses.elems.map (·.toString P)).map ascii))

open QuickOptions

section Interface

variable {P : Platform} {L : Libc} (hP : P.LawfulAddresses) (hL : L.Agrees P)
  {i : Interface} (hi : Interface.Parsed P i)
  (hzone : ∀ n ∈ i.addresses.elems, n.address.zone = none)
  {s : QuickOptions} {config : Bytes} {addrs : Option Bytes} {mtu : Nat}

include hP hL hi hzone in
theorem inside_address (h : Inside s config none mtu) :
    Inside (((Attribute.listLine "Address" (i.addresses.elems.map (·.toString P))).map encode).foldl
      line s) config (i.addressText P) mtu := by
  have hnative := native_networks hP hL hi.addresses hzone
  rw [foldl_listLine h.inside (by decide) fun hne =>
    quickMatch_address (clean_join_ne_nil hne fun x hx => (hnative x hx).plain),
    Interface.addressText, List.isEmpty_map, clean_join hnative]
  split
  · exact h
  · exact ⟨⟨h.config, congrArg (concatAndFree · _ _) h.addrs, h.mtu⟩, h.inside⟩

theorem inside_listenPort (h : Inside s config addrs mtu) (port : Option Nat) :
    Inside (((Attribute.optLine "ListenPort" (port.map decimal)).map encode).foldl line s)
      (config ++ (Attribute.optLine "ListenPort" (port.map decimal)).flatMap encode) addrs mtu := by
  refine h.forward fun l hl => ?_
  obtain ⟨v, hv, rfl⟩ := Attribute.mem_optLine.mp hl
  obtain ⟨n, _, rfl⟩ := Option.mem_map.mp hv
  exact forwarded_line (by decide) (zero_not_mem_plain (plain_decimal n)) fun _ =>
    quickMatch_listenPort

theorem inside_privateKey (h : Inside s config addrs mtu) (k : Key) :
    Inside (([Attribute.line "PrivateKey" k.toBase64].map encode).foldl line s)
      (config ++ [Attribute.line "PrivateKey" k.toBase64].flatMap encode) addrs mtu := by
  refine h.forward fun l hl => ?_
  rw [List.mem_singleton.mp hl]
  exact forwarded_line (by decide) (zero_not_mem_plain k.plain_toBase64) fun _ =>
    quickMatch_privateKey

theorem inside_mtu (h : Inside s config addrs 0) :
    Inside (((Attribute.optLine "MTU" (i.mtu.map decimal)).map encode).foldl line s) config addrs
      (i.mtu.getD 0) := by
  cases hmtu : i.mtu with
  | none => exact h
  | some n =>
    have hne : ascii (decimal n) ≠ [] := fun h => decimal_ne_nil n (List.map_eq_nil_iff.mp h)
    have hmatch : quickMatch (clean (encode (Attribute.line "MTU" (decimal n)))) quickKeys =
        some (.mtu, ascii (decimal n)) := by
      rw [clean_line (by decide), clean_native (native_decimal n)]
      exact quickMatch_mtu hne
    obtain ⟨_, hle⟩ := i.mtu_range n hmtu
    have hvalue : (atoi (ascii (decimal n)) % 2 ^ 32).toNat = n := by
      rw [atoi_decimal]
      omega
    show Inside (s.line _) config addrs n
    rw [line_record h.inside (head_clean_line (by decide)) hmatch]
    exact ⟨⟨h.config, h.addrs, hvalue⟩, h.inside⟩

include hP hL hi hzone in
/-- What wg-quick keeps and forwards of the `[Interface]` section. -/
theorem foldl_interface (h : Inside s config none 0) :
    Inside (((i.quickLines P).map encode).foldl line s) (config ++ i.deviceLines.flatMap encode)
      (i.addressText P) (i.mtu.getD 0) := by
  have hdns := (inside_address hP hL hi hzone h).listLine "DNS" (i.dnsValues P) (by decide)
    (by decide : QuickKey.dns ≠ .address) (by decide) fun hne =>
      quickMatch_dns (clean_join_ne_nil hne (Interface.plain_dnsValues hP hi))
  have hexcluded := hdns.listLine "ExcludedApplications" i.excludedApplications.elems (by decide)
    (by decide : QuickKey.excludedApplications ≠ .address) (by decide)
    fun _ => quickMatch_excludedApplications
  have hincluded := hexcluded.listLine "IncludedApplications" i.includedApplications.elems
    (by decide) (by decide : QuickKey.includedApplications ≠ .address) (by decide)
    fun _ => quickMatch_includedApplications
  have hall := inside_privateKey (inside_mtu (i := i) (inside_listenPort hincluded i.listenPort))
    i.privateKey
  simp only [Interface.quickLines, Interface.deviceLines, List.map_append, List.foldl_append,
    List.flatMap_append, ← List.append_assoc] at hall ⊢
  exact hall

end Interface

section Peers

variable {P : Platform} (hP : P.LawfulAddresses) (hU : P.LawfulUri) {s : QuickOptions}
  {config : Bytes} {addrs : Option Bytes} {mtu : Nat}

include hP hU in
/-- The lines of a peer are attributes whose values hold no NUL. -/
theorem peer_line_cases {p : Peer} (hp : Peer.Parsed P p) {l : JString} (hl : l ∈ p.quickLines P) :
    ∃ name v, Attribute.IsKey (text name) ∧ l = Attribute.line name v ∧ 0 ∉ getBytes v := by
  simp only [Peer.quickLines, List.mem_append, List.mem_singleton, Attribute.mem_listLine,
    Attribute.mem_optLine, Option.mem_map] at hl
  rcases hl with ⟨_, rfl⟩ | ⟨_, ⟨e, he, rfl⟩, rfl⟩ | ⟨_, ⟨n, _, rfl⟩, rfl⟩ | ⟨_, ⟨k, _, rfl⟩, rfl⟩ | rfl
  · exact ⟨_, _, by decide, rfl, zero_not_mem_join (InetNetwork.plain_of_mem_map hP hp.allowedIps)⟩
  · exact ⟨_, _, by decide, rfl,
      zero_not_mem_plain (InetEndpoint.plain_toString hU (hp.endpoint e he))⟩
  · exact ⟨_, _, by decide, rfl, zero_not_mem_plain (plain_decimal n)⟩
  · exact ⟨_, _, by decide, rfl, zero_not_mem_plain k.plain_toBase64⟩
  · exact ⟨_, _, by decide, rfl, zero_not_mem_plain p.publicKey.plain_toBase64⟩

theorem foldl_blank (h : Holds s config addrs mtu) :
    Holds (s.line (encode [])) (config ++ encode []) addrs mtu := by
  have hblank : ∀ l ∈ [([] : JString)], Forwarded s l := by
    intro l hl
    rw [List.mem_singleton.mp hl]
    exact ⟨by decide, fun _ => rfl, by decide⟩
  have hline := foldl_forward h.config hblank
  rw [List.map_singleton, List.foldl_cons, List.foldl_nil, List.flatMap_singleton] at hline
  rw [hline]
  exact ⟨rfl, h.addrs, h.mtu⟩

/-- The header ends the `[Interface]` section and is forwarded. -/
theorem line_peerHeader (h : Holds s config addrs mtu) :
    (s.line (encode (text "[Peer]"))).inInterfaceSection = false ∧
    Holds (s.line (encode (text "[Peer]"))) (config ++ encode (text "[Peer]")) addrs mtu := by
  have hclean : clean (encode (text "[Peer]")) = cstring "[Peer]" := by decide
  have hsection : s.inSection (cstring "[Peer]") = false := rfl
  have hline : s.line (encode (text "[Peer]")) = { s with
      config := some (config ++ encode (text "[Peer]")), inInterfaceSection := false } := by
    rw [line, hclean, hsection, forward, h.config]
    rfl
  rw [hline]
  exact ⟨rfl, rfl, h.addrs, h.mtu⟩

/-- The lines that are printed for a peer. -/
def Peer.sectionLines (P : Platform) (p : Peer) : List JString :=
  [] :: text "[Peer]" :: p.quickLines P

include hP hU in
theorem foldl_peer {p : Peer} (hp : Peer.Parsed P p) (h : Holds s config addrs mtu) :
    Holds (((p.sectionLines P).map encode).foldl line s)
      (config ++ (p.sectionLines P).flatMap encode) addrs mtu := by
  obtain ⟨hout, hheader⟩ := line_peerHeader (foldl_blank h)
  have hforwarded : ∀ l ∈ p.quickLines P, Forwarded _ l := fun l hl => by
    obtain ⟨name, v, hkey, rfl, hv⟩ := peer_line_cases hP hU hp hl
    exact forwarded_line hkey hv fun hin => absurd (hin.symm.trans hout) (by decide)
  have hlines := foldl_forward hheader.config hforwarded
  rw [Peer.sectionLines, List.map_cons, List.map_cons, List.foldl_cons, List.foldl_cons, hlines,
    List.flatMap_cons, List.flatMap_cons, ← List.append_assoc, ← List.append_assoc]
  exact ⟨rfl, hheader.addrs, hheader.mtu⟩

include hP hU in
/-- wg-quick forwards the `[Peer]` sections as they are. -/
theorem foldl_peers {peers : List Peer} (hp : ∀ p ∈ peers, Peer.Parsed P p)
    (h : Holds s config addrs mtu) :
    Holds (((peers.flatMap (Peer.sectionLines P)).map encode).foldl line s)
      (config ++ (peers.flatMap (Peer.sectionLines P)).flatMap encode) addrs mtu := by
  induction peers generalizing s config with
  | nil =>
    show Holds s (config ++ []) addrs mtu
    rwa [List.append_nil]
  | cons p peers ih =>
    have hpeer := foldl_peer hP hU (hp p List.mem_cons_self) h
    have hrest := ih (fun q hq => hp q (List.mem_cons_of_mem _ hq)) hpeer
    rw [List.flatMap_cons, List.map_append, List.foldl_append, List.flatMap_append,
      ← List.append_assoc]
    exact hrest

end Peers

/-! ## What wg reads -/

section Wg

variable {P : Platform} {L : Libc}

/-- Neither reader's blanks nor its comments are in the way of a printed attribute. -/
theorem configReadLine_line {name : String} {v : JString} (hkey : Attribute.IsKey (text name))
    (hv : Attribute.CleanValue v) (ctx : ConfigCtx) :
    configReadLine L ctx (encode (Attribute.line name v)) =
      processLine L ctx (clean (encode (Attribute.line name v))) := by
  have hhash : unit '#' ∉ Attribute.line name v := fun h =>
    (Attribute.CleanLine.chars ⟨name, v, hkey, hv, rfl⟩ _ h).2 rfl
  have hne : (clean (encode (Attribute.line name v))).isEmpty = false := by
    rw [clean_line hkey]
    exact List.isEmpty_eq_false_iff.mpr (List.append_ne_nil_of_right_ne_nil _ (List.cons_ne_nil _ _))
  rw [configReadLine, cleanInput_eq_clean (hash_not_mem_encode hhash), hne,
    if_neg Bool.false_ne_true]

theorem configReadLine_device {name : String} {v : JString} (hkey : Attribute.IsKey (text name))
    (hv : Attribute.CleanValue v) (d : WgDevice) :
    configReadLine L ⟨d, false, true⟩ (encode (Attribute.line name v)) =
      (processDevice L d (cstring name ++ (cstring "=" ++ clean (getBytes v)))).map
        fun d => ⟨d, false, true⟩ := by
  rw [configReadLine_line hkey hv, processLine_device L (head_clean_line hkey), clean_line hkey]

/-- What a line does to its peer. -/
def readPeer (L : Libc) (q : WgPeer) (l : JString) : Option WgPeer :=
  processPeer L q (clean (encode l))

/-- The lines of a peer change that peer only. -/
theorem foldlM_inPeer {ls : List JString} (h : ∀ l ∈ ls, Attribute.CleanLine l) (d : WgDevice)
    (q : WgPeer) : (ls.map encode).foldlM (configReadLine L) (.inPeer d q) =
      (ls.foldlM (readPeer L) q).map (.inPeer d) := by
  induction ls generalizing q with
  | nil => rfl
  | cons l ls ih =>
    obtain ⟨name, v, hkey, hv, hl⟩ := h l List.mem_cons_self
    have hstep : configReadLine L (.inPeer d q) (encode l) = (readPeer L q l).map (.inPeer d) := by
      rw [hl, configReadLine_line hkey hv, processLine_inPeer L (head_clean_line hkey)]
      rfl
    rw [List.map_cons, List.foldlM_cons, hstep, List.foldlM_cons]
    cases readPeer L q l with
    | none => rfl
    | some q => exact ih (fun m hm => h m (List.mem_cons_of_mem _ hm)) q

section Fields

variable {q : WgPeer}

theorem readPeer_line {name : String} {v : JString} (hkey : Attribute.IsKey (text name)) :
    readPeer L q (Attribute.line name v) =
      processPeer L q (cstring name ++ (cstring "=" ++ clean (getBytes v))) := by
  rw [readPeer, clean_line hkey]

theorem foldlM_allowedIps (hP : P.LawfulAddresses) (hL : L.Agrees P) {ns : List InetNetwork}
    (hn : ∀ n ∈ ns, InetNetwork.Parsed P n) (hzone : ∀ n ∈ ns, n.address.zone = none)
    (hnil : q.allowedIps = []) (hreplace : q.replaceAllowedIps = true) :
    (Attribute.listLine "AllowedIPs" (ns.map (·.toString P))).foldlM (readPeer L) q =
      some { q with allowedIps := ns.map fun n => ⟨n.address.native, n.mask, false⟩ } := by
  have hnative := native_networks hP hL hn hzone
  unfold Attribute.listLine
  split
  · next hempty =>
    rw [List.isEmpty_map, List.isEmpty_iff] at hempty
    rw [hempty, List.map_nil, ← hnil]
    rfl
  · next hne =>
    have hne' : ns.map (·.toString P) ≠ [] := fun h => hne (List.isEmpty_iff.mpr h)
    have hreads : List.Forall₂ (ReadsAs L) ((ns.map (·.toString P)).map ascii)
        (ns.map InetNetwork.native) := by
      rw [List.map_map, List.forall₂_map_left_iff, List.forall₂_map_right_iff, List.forall₂_same]
      exact fun n hmem => readsAs_network hP hL (hn n hmem) (hzone n hmem)
    have hvalue := clean_join_ne_nil hne' fun x hx => (hnative x hx).plain
    rw [List.foldlM_cons, readPeer_line (by decide), processPeer, keyMatch_allowedIps hvalue,
      clean_join hnative]
    simp only [parseAllowedips_intercalate hreads (by simpa using hne') q hnil]
    simp [hreplace, InetNetwork.native]

/-- The line of an optional attribute, if any, does what its value does. -/
theorem foldlM_optLine {α : Type} {name : String} {f : α → JString} {o : Option α}
    {r : Option WgPeer} (hkey : Attribute.IsKey (text name)) (hf : ∀ x ∈ o, Native (f x))
    (hnone : o = none → some q = r)
    (hsome : ∀ x ∈ o, ascii (f x) ≠ [] →
      processPeer L q (cstring name ++ (cstring "=" ++ ascii (f x))) = r) :
    (Attribute.optLine name (o.map f)).foldlM (readPeer L) q = r := by
  cases o with
  | none => exact hnone rfl
  | some x =>
    have hx := hf x rfl
    have hne : ascii (f x) ≠ [] := fun h => hx.plain.1 (List.map_eq_nil_iff.mp h)
    show [Attribute.line name (f x)].foldlM (readPeer L) q = r
    rw [List.foldlM_cons, readPeer_line hkey, clean_native hx, hsome x rfl hne]
    cases r <;> rfl

theorem foldlM_endpoint (hU : P.LawfulUri) {e : Option InetEndpoint}
    (he : ∀ x ∈ e, InetEndpoint.Parsed P x) (hnone : q.endpoint = none) :
    (Attribute.optLine "Endpoint" (e.map InetEndpoint.toString)).foldlM (readPeer L) q =
      (e.mapM fun e => resolveEndpoint L (ascii e.bareHost) (ascii (decimal e.port))).map
        fun endpoint => { q with endpoint } := by
  refine foldlM_optLine (by decide) (fun x hx => native_endpoint hU (he x hx)) (fun h => ?_)
    fun x hx hne => ?_
  · rw [h, Option.mapM_none, Option.pure_def, Option.map_some, ← hnone]
  · obtain ⟨s, hs⟩ := (he x hx).uri
    rw [processPeer, keyMatch_endpoint hne]
    simp only [parseEndpoint, splitEndpoint_toString (hU.host _ _ _ hs)]
    cases hx
    show (resolveEndpoint L _ _).map _ = ((resolveEndpoint L _ _).map some).map _
    rw [Option.map_map]
    rfl

theorem foldlM_keepalive {k : Option Nat} (h : ∀ n ∈ k, 0 < n ∧ n ≤ 65535)
    (hnone : q.persistentKeepalive = none) :
    (Attribute.optLine "PersistentKeepalive" (k.map decimal)).foldlM (readPeer L) q =
      some { q with persistentKeepalive := k } := by
  refine foldlM_optLine (by decide) (fun n _ => native_decimal n) (fun h => ?_) fun n hn hne => ?_
  · rw [h, ← hnone]
  · rw [processPeer, keyMatch_persistentKeepalive hne]
    simp only [parsePersistentKeepalive_decimal (h n hn).2]
    cases hn
    rfl

theorem foldlM_preSharedKey {k : Option Key} (hnone : q.presharedKey = none) :
    (Attribute.optLine "PreSharedKey" (k.map Key.toBase64)).foldlM (readPeer L) q =
      some { q with presharedKey := k.map Key.bytes } := by
  refine foldlM_optLine (by decide) (fun k _ => native_toBase64 k) (fun h => ?_) fun x hx hne => ?_
  · rw [h, Option.map_none, ← hnone]
  · rw [processPeer, keyMatch_preSharedKey hne]
    simp only [keyFromBase64_toBase64]
    cases hx
    rfl

theorem foldlM_publicKey (k : Key) :
    [Attribute.line "PublicKey" k.toBase64].foldlM (readPeer L) q =
      some { q with publicKey := some k.bytes } := by
  refine foldlM_optLine (o := some k) (by decide) (fun k _ => native_toBase64 k) (fun h => nomatch h)
    fun x hx hne => ?_
  rw [processPeer, keyMatch_publicKey hne]
  simp only [keyFromBase64_toBase64]
  cases hx
  rfl

end Fields

/-- What `wg` reads from the lines of a peer. -/
theorem foldlM_processPeer (hP : P.LawfulAddresses) (hU : P.LawfulUri) (hL : L.Agrees P) {p : Peer}
    (hp : Peer.Parsed P p) (hzone : ∀ n ∈ p.allowedIps.elems, n.address.zone = none) :
    (p.quickLines P).foldlM (readPeer L) .new = p.native L := by
  simp only [Peer.quickLines, List.foldlM_append]
  rw [foldlM_allowedIps hP hL hp.allowedIps hzone rfl rfl]
  show ((Attribute.optLine "Endpoint" _).foldlM (readPeer L) _).bind _ = _
  rw [foldlM_endpoint hU hp.endpoint rfl, Peer.native]
  cases p.endpoint.mapM fun e => resolveEndpoint L (ascii e.bareHost) (ascii (decimal e.port)) with
  | none => rfl
  | some endpoint =>
    show ((Attribute.optLine "PersistentKeepalive" _).foldlM (readPeer L) _).bind _ = _
    rw [foldlM_keepalive p.keepalive_range rfl]
    show ((Attribute.optLine "PreSharedKey" _).foldlM (readPeer L) _).bind _ = _
    rw [foldlM_preSharedKey rfl]
    exact foldlM_publicKey p.publicKey

theorem configReadLine_blank (ctx : ConfigCtx) : configReadLine L ctx (encode []) = some ctx := rfl

theorem configReadLine_peerHeader (ctx : ConfigCtx) :
    configReadLine L ctx (encode (text "[Peer]")) = some (.inPeer ctx.device .new) := by
  have hclean : cleanInput (encode (text "[Peer]")) = cstring "[Peer]" := by decide
  rw [configReadLine, hclean]
  rfl

theorem foldlM_section (hP : P.LawfulAddresses) (hU : P.LawfulUri) (hL : L.Agrees P) {p : Peer}
    (hp : Peer.Parsed P p) (hzone : ∀ n ∈ p.allowedIps.elems, n.address.zone = none)
    (ctx : ConfigCtx) :
    ((p.sectionLines P).map encode).foldlM (configReadLine L) ctx =
      (p.native L).map (.inPeer ctx.device) := by
  rw [Peer.sectionLines, List.map_cons, List.map_cons, List.foldlM_cons, configReadLine_blank]
  show (encode (text "[Peer]") :: (p.quickLines P).map encode).foldlM (configReadLine L) ctx = _
  rw [List.foldlM_cons, configReadLine_peerHeader]
  show ((p.quickLines P).map encode).foldlM (configReadLine L) (.inPeer ctx.device .new) = _
  rw [foldlM_inPeer fun l hl => Peer.cleanLine_of_mem_quickLines hP hU hp hl,
    foldlM_processPeer hP hU hL hp hzone]

theorem native_publicKey {p : Peer} {q : WgPeer} (h : p.native L = some q) :
    q.publicKey.isSome = true := by
  obtain ⟨endpoint, _, h⟩ := Option.bind_eq_some_iff.mp h
  cases h
  rfl

/-- What `wg` reads from the `[Peer]` sections, on top of what it has. -/
theorem foldlM_sections (hP : P.LawfulAddresses) (hU : P.LawfulUri) (hL : L.Agrees P)
    {peers : List Peer} (hp : ∀ p ∈ peers, Peer.Parsed P p)
    (hzone : ∀ p ∈ peers, ∀ n ∈ p.allowedIps.elems, n.address.zone = none) (ctx : ConfigCtx)
    (hctx : (ctx.device.peers.all fun q => q.publicKey.isSome) = true) :
    (((peers.flatMap (Peer.sectionLines P)).map encode).foldlM (configReadLine L) ctx).bind
        configReadFinish =
      (peers.mapM (Peer.native L)).map fun qs =>
        { ctx.device with peers := ctx.device.peers ++ qs } := by
  induction peers generalizing ctx with
  | nil =>
    show configReadFinish ctx = some { ctx.device with peers := ctx.device.peers ++ [] }
    rw [configReadFinish, if_pos hctx, List.append_nil]
  | cons p peers ih =>
    rw [List.flatMap_cons, List.map_append, List.foldlM_append,
      foldlM_section hP hU hL (hp p List.mem_cons_self) (hzone p List.mem_cons_self), List.mapM_cons]
    cases hq : p.native L with
    | none => rfl
    | some q =>
      have hctx' : ((ConfigCtx.inPeer ctx.device q).device.peers.all
          fun q => q.publicKey.isSome) = true := by
        simp only [ConfigCtx.inPeer, List.all_append, hctx, List.all_cons, native_publicKey hq,
          List.all_nil, Bool.and_self]
      have hrest := ih (fun r hr => hp r (List.mem_cons_of_mem _ hr))
        (fun r hr => hzone r (List.mem_cons_of_mem _ hr)) (.inPeer ctx.device q) hctx'
      show Option.bind (List.foldlM (configReadLine L) (.inPeer ctx.device q) _) _ = _
      rw [hrest]
      show ((peers.mapM (Peer.native L)).map fun qs => _) =
        ((peers.mapM (Peer.native L)).bind fun qs => some (q :: qs)).map _
      cases peers.mapM (Peer.native L) with
      | none => rfl
      | some qs =>
        simp [ConfigCtx.inPeer]

/-- What `wg` reads from the forwarded part of the `[Interface]` section. -/
theorem foldlM_device (hL : L.Agrees P) (i : Interface) :
    ((text "[Interface]" :: i.deviceLines).map encode).foldlM (configReadLine L) .init =
      some ⟨⟨some i.privateKey.bytes, none, i.listenPort, []⟩, false, true⟩ := by
  have hheader : configReadLine L .init (encode (text "[Interface]")) =
      some ⟨⟨none, none, none, []⟩, false, true⟩ := rfl
  have hport : ((Attribute.optLine "ListenPort" (i.listenPort.map decimal)).map encode).foldlM
      (configReadLine L) ⟨⟨none, none, none, []⟩, false, true⟩ =
        some ⟨⟨none, none, i.listenPort, []⟩, false, true⟩ := by
    cases hlisten : i.listenPort with
    | none => rfl
    | some n =>
      obtain ⟨a, hresolved, ha⟩ := hL.service n (i.listenPort_range n hlisten).2
      have hne : ascii (decimal n) ≠ [] := fun h => decimal_ne_nil n (List.map_eq_nil_iff.mp h)
      have hparse : parsePort L (ascii (decimal n)) = some n := by
        rw [parsePort, List.isEmpty_eq_false_iff.mpr hne, if_neg Bool.false_ne_true, hresolved]
        exact ha
      show [encode (Attribute.line "ListenPort" (decimal n))].foldlM (configReadLine L) _ = _
      rw [List.foldlM_cons, configReadLine_device (by decide)
        (Attribute.cleanValue_of_plain (plain_decimal n)), clean_native (native_decimal n),
        processDevice, keyMatch_listenPort hne]
      simp only [hparse]
      rfl
  have hkey : ([Attribute.line "PrivateKey" i.privateKey.toBase64].map encode).foldlM
      (configReadLine L) ⟨⟨none, none, i.listenPort, []⟩, false, true⟩ =
        some ⟨⟨some i.privateKey.bytes, none, i.listenPort, []⟩, false, true⟩ := by
    have hne : ascii i.privateKey.toBase64 ≠ [] := fun h =>
      i.privateKey.plain_toBase64.1 (List.map_eq_nil_iff.mp h)
    rw [List.map_singleton, List.foldlM_cons, configReadLine_device (by decide)
      (Attribute.cleanValue_of_plain i.privateKey.plain_toBase64),
      clean_native (native_toBase64 i.privateKey), processDevice, keyMatch_privateKey hne]
    simp only [keyFromBase64_toBase64]
    rfl
  rw [List.map_cons, List.foldlM_cons, hheader]
  show (i.deviceLines.map encode).foldlM (configReadLine L) _ = _
  rw [Interface.deviceLines, List.map_append, List.foldlM_append, hport]
  exact hkey

end Wg

/-! ## Agreement -/

/-- The lines that wg-quick forwards. -/
def Config.forwardedLines (P : Platform) (c : Config) : List JString :=
  text "[Interface]" :: (c.interfaze.deviceLines ++ c.peers.flatMap (Peer.sectionLines P))

section Agreement

variable {P : Platform} {L : Libc} (hP : P.LawfulAddresses) (hU : P.LawfulUri) (hL : L.Agrees P)
  {c : Config} (hc : Config.Parsed P c)

include hP hU hL hc in
theorem parseOptions_toWgQuickString
    (hzone : ∀ n ∈ c.interfaze.addresses.elems, n.address.zone = none)
    (hshort : ∀ l ∈ getlines (getBytes (c.toWgQuickString P)), l.length ≤ 65536) :
    ∃ s, parseOptions (getBytes (c.toWgQuickString P)) = s.finish ∧
      Holds s ((c.forwardedLines P).flatMap encode) (c.interfaze.addressText P)
        (c.interfaze.mtu.getD 0) := by
  have hbreak := Config.quickLines_no_break hP hU
    (Interface.quickLines_no_break hP hc.interfaze hc.no_break) hc.peers
  have hlines : getlines (getBytes (c.toWgQuickString P)) = (c.quickLines P).map encode :=
    getlines_unlines hbreak
  have hloop := loop_eq_foldl (fun l hl =>
    ((List.takeWhile_prefix _).length_le.trans (hshort l hl) : (cstr l).length ≤ 2 ^ 16)) init
  refine ⟨_, hloop, ?_⟩
  have hstart : Inside (init.line (encode (text "[Interface]"))) (encode (text "[Interface]")) none 0 :=
    ⟨⟨rfl, rfl, rfl⟩, rfl⟩
  have hinterface := foldl_interface hP hL hc.interfaze hzone hstart
  have hpeers := foldl_peers hP hU hc.peers hinterface.toHolds
  rw [hlines, Config.quickLines, List.map_cons, List.foldl_cons, List.map_append, List.foldl_append,
    Config.forwardedLines, List.flatMap_cons, List.flatMap_append, ← List.append_assoc]
  exact hpeers

include hP hU hc in
theorem forwardedLines_no_break : ∀ l ∈ c.forwardedLines P, ∀ x ∈ l, isBreak x = false := by
  have hbreak := Config.quickLines_no_break hP hU
    (Interface.quickLines_no_break hP hc.interfaze hc.no_break) hc.peers
  intro l hl
  refine hbreak l ?_
  simp only [Config.forwardedLines, Interface.deviceLines, List.mem_cons, List.mem_append] at hl
  simp only [Config.quickLines, Interface.quickLines, List.mem_cons, List.mem_append]
  rcases hl with hl | (hl | hl) | hl
  · exact .inl hl
  · exact .inr (.inl (.inr (.inr (.inr (.inr (.inl hl))))))
  · exact .inr (.inl (.inr (.inr (.inr (.inr (.inr (.inr hl)))))))
  · exact .inr (.inr hl)

include hP hU hL hc in
theorem addconf_forwardedLines
    (hzone : ∀ p ∈ c.peers, ∀ n ∈ p.allowedIps.elems, n.address.zone = none) :
    addconf L ((c.forwardedLines P).flatMap encode) =
      (c.peers.mapM (Peer.native L)).map fun peers =>
        ⟨some c.interfaze.privateKey.bytes, none, c.interfaze.listenPort, peers⟩ := by
  have hlines : getlines ((c.forwardedLines P).flatMap encode) =
      (text "[Interface]" :: c.interfaze.deviceLines).map encode ++
        (c.peers.flatMap (Peer.sectionLines P)).map encode := by
    rw [← getBytes_unlines, getlines_unlines (forwardedLines_no_break hP hU hc), ← List.map_append]
    rfl
  rw [addconf, hlines, List.foldlM_append, foldlM_device hL]
  exact foldlM_sections hP hU hL hc.peers hzone _ rfl

end Agreement

/-- The app and the native tools read the same configuration. For a configuration that was parsed,
without IPv6 zones and without a line that is too long for wg-quick: wg-quick finds the MTU (0 if
there is none) and the addresses, and `wg` reads from the rest the private key, the listen port and
the peers, each with what its host and port resolve to. -/
theorem native_tools_agree {P : Platform} {L : Libc} (hP : P.LawfulAddresses) (hU : P.LawfulUri)
    (hL : L.Agrees P) {input : JString} {c : Config} (hc : Config.parse P input = .ok c)
    (haddresses : ∀ n ∈ c.interfaze.addresses.elems, n.address.zone = none)
    (hallowedIps : ∀ p ∈ c.peers, ∀ n ∈ p.allowedIps.elems, n.address.zone = none)
    (hshort : ∀ l ∈ getlines (getBytes (c.toWgQuickString P)), l.length ≤ 65536) :
    (parseOptions (getBytes (c.toWgQuickString P))).mtu = c.interfaze.mtu.getD 0 ∧
    (∃ addrs, (parseOptions (getBytes (c.toWgQuickString P))).addrs = some addrs ∧
      (setAddr addrs).mapM (AddrCommand.read L) =
        some (c.interfaze.addresses.elems.map InetNetwork.native)) ∧
    ∃ config, (parseOptions (getBytes (c.toWgQuickString P))).config = some config ∧
      addconf L config = (c.peers.mapM (Peer.native L)).map fun peers =>
        ⟨some c.interfaze.privateKey.bytes, none, c.interfaze.listenPort, peers⟩ := by
  have hparsed := Config.parsed_of_parse hc
  obtain ⟨s, hs, hholds⟩ := parseOptions_toWgQuickString hP hU hL hparsed haddresses hshort
  rw [hs]
  refine ⟨hholds.mtu, ⟨_, rfl, ?_⟩, _, rfl, ?_⟩
  · have haddrs : s.addrs.getD [] = [byte ','].intercalate
        ((c.interfaze.addresses.elems.map (·.toString P)).map ascii) := by
      rw [hholds.addrs, Interface.addressText]
      split
      · next hempty =>
        rw [List.isEmpty_iff.mp hempty]
        rfl
      · rfl
    rw [haddrs]
    exact mapM_read_setAddr hP hL hparsed.interfaze.addresses haddresses
  · rw [hholds.config]
    exact addconf_forwardedLines hP hU hL hparsed hallowedIps

/-! ## A concrete run -/

/-- A C library that knows `sampleAddresses`, numeric services and one host. -/
def sampleLibc : Libc where
  inetPton4 s :=
    match sampleAddresses.find? fun e => ascii e.1 = s with
    | some (_, .inet4 a) => some a
    | _ => none
  inetPton6 s :=
    match sampleAddresses.find? fun e => ascii e.1 = s with
    | some (_, .inet6 a _) => some a
    | _ => none
  getaddrinfo node service _ :=
    if node.getD (cstring "192.0.2.1") = cstring "192.0.2.1" then
      .resolved (.inet 0xC0000201 (digitsValue service))
    else .permanent

theorem sampleLibc_agrees : sampleLibc.Agrees samplePlatform where
  pton4 s a h := by
    have hmem := mem_of_sampleParse h
    simp only [sampleAddresses, List.mem_cons, Prod.mk.injEq, InetAddress.inet4.injEq, reduceCtorEq,
      and_false, List.not_mem_nil, or_false] at hmem
    rcases hmem with ⟨_, rfl⟩ | ⟨_, rfl⟩ | ⟨_, rfl⟩ | ⟨_, rfl⟩ <;> decide +kernel
  pton6 s a h := by
    have hmem := mem_of_sampleParse h
    simp only [sampleAddresses, List.mem_cons, Prod.mk.injEq, InetAddress.inet6.injEq, reduceCtorEq,
      and_false, false_or, List.not_mem_nil, or_false, and_true] at hmem
    rcases hmem with ⟨_, rfl⟩ | ⟨_, rfl⟩ | ⟨_, rfl⟩ <;> decide +kernel
  text4 s a h := by
    have hmem := mem_of_sampleParse h
    simp only [sampleAddresses, List.mem_cons, Prod.mk.injEq, InetAddress.inet4.injEq, reduceCtorEq,
      and_false, List.not_mem_nil, or_false] at hmem
    rcases hmem with ⟨_, rfl⟩ | ⟨_, rfl⟩ | ⟨_, rfl⟩ | ⟨_, rfl⟩ <;> decide +kernel
  text6 s a h := by
    have hmem := mem_of_sampleParse h
    simp only [sampleAddresses, List.mem_cons, Prod.mk.injEq, InetAddress.inet6.injEq, reduceCtorEq,
      and_false, false_or, List.not_mem_nil, or_false, and_true] at hmem
    rcases hmem with ⟨_, rfl⟩ | ⟨_, rfl⟩ | ⟨_, rfl⟩ <;> decide +kernel
  service n _ := ⟨_, rfl, congrArg some (digitsValue_decimal n)⟩

/-- A configuration with every attribute that the native tools read. -/
def sampleInput : JString :=
  unlines [text "[Interface]", text "Address = 192.0.2.2/32, ::/128", text "DNS = 192.0.2.0",
    text "ExcludedApplications = org.example", text "ListenPort = 51820", text "MTU = 1280",
    text "PrivateKey = TFlmmEUC7V7VtiDYLKsbP5rySTKLIZq1yn8lMqK83wo=", text "[Peer]",
    text "AllowedIPs = 0.0.0.0/0, ::0/0", text "Endpoint = 192.0.2.1:51820",
    text "PersistentKeepalive = 25",
    text "PublicKey = vBN7qyUTb5lJtWYJ8LhbPio1Z4RcyBPGnqFBGn6O6Qg="]

theorem native_tools_agree_sampleInput :
    ∃ c, Config.parse samplePlatform sampleInput = .ok c ∧ c.peers.length = 1 ∧
      (parseOptions (getBytes (c.toWgQuickString samplePlatform))).mtu = 1280 ∧
      ∃ config, (parseOptions (getBytes (c.toWgQuickString samplePlatform))).config = some config ∧
        addconf sampleLibc config = (c.peers.mapM (Peer.native sampleLibc)).map fun peers =>
          ⟨some c.interfaze.privateKey.bytes, none, c.interfaze.listenPort, peers⟩ := by
  have hok : (Config.parse samplePlatform sampleInput).map (fun c => decide (
      (∀ n ∈ c.interfaze.addresses.elems, n.address.zone = none) ∧
      (∀ p ∈ c.peers, ∀ n ∈ p.allowedIps.elems, n.address.zone = none) ∧
      (∀ l ∈ getlines (getBytes (c.toWgQuickString samplePlatform)), l.length ≤ 65536) ∧
      c.interfaze.mtu = some 1280 ∧ c.peers.length = 1)) = .ok true := by decide +kernel
  cases h : Config.parse samplePlatform sampleInput with
  | error e =>
    rw [h] at hok
    cases hok
  | ok c =>
    rw [h] at hok
    obtain ⟨haddresses, hallowedIps, hshort, hmtu, hpeers⟩ :=
      of_decide_eq_true (Except.ok.inj hok)
    obtain ⟨hmtu', _, hconfig⟩ := native_tools_agree samplePlatform_lawfulAddresses
      samplePlatform_lawfulUri sampleLibc_agrees h haddresses hallowedIps hshort
    exact ⟨c, rfl, hpeers, hmtu'.trans (by rw [hmtu]; rfl), hconfig⟩

end WgAndroid
