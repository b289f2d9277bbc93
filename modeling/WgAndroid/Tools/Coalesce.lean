import Mathlib.Data.List.Nodup
import Mathlib.Data.List.SplitBy
import WgAndroid.Lib.PointerChain

/-!
# Merging the peers of a dump

`coalesce_peers` of `ipc-linux.h`. The kernel sends a peer with many allowed IPs in several pieces, and
adjacent peers with the same public key are merged in place: the allowed IPs of the second one are
appended with the pointer to the last allowed IP of the first one, and the second one is freed. If the
second one has no allowed IPs, the first one is left without that pointer.

Results:
1. `coalesceLoop_refines`: on the memory the loop does what `coalesceCells` does on lists.
2. `coalesceCells_iff`: when that is the merge of the runs.
3. `coalescePeers_exact_iff`: when `coalesce_peers` merges the peers and loses nothing.
-/

namespace WgAndroid

open PointerChain (IsChain)

/-! ## The memory -/

/-- The memory: one map for each field of `struct wgpeer` and `struct wgallowedip` that matters, the
other fields of a peer in one. -/
structure PeerHeap (A B K D : Type) where
  /-- Not freed. -/
  live : A → Bool
  publicKey : A → K
  fields : A → D
  firstAllowedip : A → Option B
  lastAllowedip : A → Option B
  nextPeer : A → Option A
  nextAllowedip : B → Option B

/-- What the program must not do. -/
inductive HeapFault where
  | null
  | freed
  deriving DecidableEq

variable {A B K D : Type}

/-- The body of the loop once two peers with the same key are found: `none` if it follows a null
pointer. -/
def mergePeers [DecidableEq A] [DecidableEq B] (h : PeerHeap A B K D) (peer next : A) :
    Option (PeerHeap A B K D) :=
  let merged :=
    match h.firstAllowedip peer with
    | none =>
      some { h with
        firstAllowedip := Function.update h.firstAllowedip peer (h.firstAllowedip next)
        lastAllowedip := Function.update h.lastAllowedip peer (h.lastAllowedip next) }
    | some _ =>
      (h.lastAllowedip peer).map fun last =>
        { h with
          nextAllowedip := Function.update h.nextAllowedip last (h.firstAllowedip next)
          lastAllowedip := Function.update h.lastAllowedip peer (h.lastAllowedip next) }
  merged.map fun h =>
    { h with
      nextPeer := Function.update h.nextPeer peer (h.nextPeer next)
      live := Function.update h.live next false }

/-- The loop with a bound on its rounds; `none` if it is too small. -/
def coalesceLoop [DecidableEq A] [DecidableEq B] [DecidableEq K] :
    Nat → PeerHeap A B K D → Option A → Option (Except HeapFault (PeerHeap A B K D))
  | 0, _, _ => none
  | _ + 1, h, none => some (.ok h)
  | n + 1, h, some peer =>
    if !h.live peer then some (.error .freed)
    else
      match h.nextPeer peer with
      | none => some (.ok h)
      | some next =>
        if !h.live next then some (.error .freed)
        else if h.publicKey peer ≠ h.publicKey next then coalesceLoop n h (some next)
        else
          match mergePeers h peer next with
          | none => some (.error .null)
          | some h => coalesceLoop n h (some peer)

/-- `coalesce_peers` -/
def coalescePeers [DecidableEq A] [DecidableEq B] [DecidableEq K] (n : Nat) (h : PeerHeap A B K D)
    (firstPeer : Option A) : Option (Except HeapFault (PeerHeap A B K D)) := coalesceLoop n h firstPeer

/-! ## Lists of peers -/

/-- A peer with its allowed IPs and the pointer to the last one. -/
structure PeerCell (A B K D : Type) where
  addr : A
  key : K
  fields : D
  allowedIps : List B
  last : Option B

/-- The memory holds this peer. -/
structure HoldsCell (h : PeerHeap A B K D) (c : PeerCell A B K D) : Prop where
  live : h.live c.addr = true
  publicKey : h.publicKey c.addr = c.key
  fields : h.fields c.addr = c.fields
  last : h.lastAllowedip c.addr = c.last
  allowedIps : IsChain h.nextAllowedip (h.firstAllowedip c.addr) c.allowedIps

/-- The memory holds these peers, and no allowed IP belongs to two of them. -/
structure Represents (h : PeerHeap A B K D) (first : Option A) (cells : List (PeerCell A B K D)) :
    Prop where
  peers : IsChain h.nextPeer first (cells.map PeerCell.addr)
  cell : ∀ c ∈ cells, HoldsCell h c
  nodup : (cells.flatMap PeerCell.allowedIps).Nodup

namespace PeerCell

/-- The pointer is the one to the last allowed IP. -/
def Consistent (c : PeerCell A B K D) : Prop := c.last = c.allowedIps.getLast?

/-- The pointer is right, or null. -/
def Safe (c : PeerCell A B K D) : Prop := c.last = none ∨ c.Consistent

/-- What `mergePeers` makes of two peers. -/
def merge (c d : PeerCell A B K D) : Option (PeerCell A B K D) :=
  if c.allowedIps = [] then some { c with allowedIps := d.allowedIps, last := d.last }
  else c.last.map fun _ => { c with allowedIps := c.allowedIps ++ d.allowedIps, last := d.last }

end PeerCell

/-- The loop on lists, at a peer that may have been merged already. -/
def coalesceCells [DecidableEq K] (c : PeerCell A B K D) :
    List (PeerCell A B K D) → Option (List (PeerCell A B K D))
  | [] => some [c]
  | d :: cells =>
    if c.key ≠ d.key then (coalesceCells d cells).map (c :: ·)
    else (c.merge d).bind fun c => coalesceCells c cells

/-! ## The loop on the memory -/

section Merge

variable {h : PeerHeap A B K D} {first : Option A} {before rest : List (PeerCell A B K D)}
  {c d : PeerCell A B K D}

theorem Represents.addr_nodup (hrep : Represents h first (before ++ c :: d :: rest)) :
    (before.map PeerCell.addr ++ c.addr :: d.addr :: rest.map PeerCell.addr).Nodup := by
  simpa using hrep.peers.nodup

theorem Represents.ips_nodup (hrep : Represents h first (before ++ c :: d :: rest)) :
    (before.flatMap PeerCell.allowedIps ++
      (c.allowedIps ++ (d.allowedIps ++ rest.flatMap PeerCell.allowedIps))).Nodup := by
  simpa using hrep.nodup

/-- The other peers have other addresses and other allowed IPs. -/
theorem Represents.other (hrep : Represents h first (before ++ c :: d :: rest)) {x : PeerCell A B K D}
    (hx : x ∈ before ++ rest) : HoldsCell h x ∧ x.addr ≠ c.addr ∧ x.addr ≠ d.addr ∧
      List.Disjoint c.allowedIps x.allowedIps := by
  have haddr := hrep.addr_nodup
  have hips := hrep.ips_nodup
  rcases List.mem_append.mp hx with hx | hx
  · have hnot : x.addr ∉ c.addr :: d.addr :: rest.map PeerCell.addr :=
      List.disjoint_of_nodup_append haddr (List.mem_map_of_mem hx)
    rw [List.mem_cons, List.mem_cons, not_or, not_or] at hnot
    refine ⟨hrep.cell x (by simp [hx]), hnot.1, hnot.2.1, fun b hb hbx => ?_⟩
    exact List.disjoint_of_nodup_append hips (List.mem_flatMap_of_mem hx hbx)
      (List.mem_append_left _ hb)
  · have htail := (List.nodup_append.mp haddr).2.1
    rw [List.nodup_cons, List.nodup_cons, List.mem_cons, not_or] at htail
    refine ⟨hrep.cell x (by simp [hx]), ?_, ?_, fun b hb hbx => ?_⟩
    · exact fun heq => htail.1.2 (heq ▸ List.mem_map_of_mem hx)
    · exact fun heq => htail.2.1 (heq ▸ List.mem_map_of_mem hx)
    · exact List.disjoint_of_nodup_append (List.nodup_append.mp hips).2.1 hb
        (List.mem_append_right _ (List.mem_flatMap_of_mem hx hbx))

theorem Represents.addr_ne (hrep : Represents h first (before ++ c :: d :: rest)) : c.addr ≠ d.addr := by
  have htail := (List.nodup_append.mp hrep.addr_nodup).2.1
  rw [List.nodup_cons, List.mem_cons, not_or] at htail
  exact htail.1.1

/-- A merge, from what it does to the two peers. -/
theorem Represents.of_merge [DecidableEq A] (hrep : Represents h first (before ++ c :: d :: rest))
    {h' : PeerHeap A B K D} {c' : PeerCell A B K D} (haddr : c'.addr = c.addr)
    (hips : c'.allowedIps = c.allowedIps ++ d.allowedIps)
    (hnext : h'.nextPeer = Function.update h.nextPeer c.addr (h.nextPeer d.addr))
    (hmerged : HoldsCell h' c') (hother : ∀ x ∈ before ++ rest, HoldsCell h' x) :
    Represents h' first (before ++ c' :: rest) where
  peers := by
    have hremove := hrep.peers
    rw [List.map_append, List.map_cons, List.map_cons] at hremove
    rw [hnext, List.map_append, List.map_cons, haddr]
    exact hremove.remove
  cell x hx := by
    rw [List.mem_append, List.mem_cons] at hx
    rcases hx with hx | rfl | hx
    · exact hother x (List.mem_append_left _ hx)
    · exact hmerged
    · exact hother x (List.mem_append_right _ hx)
  nodup := by
    rw [List.flatMap_append, List.flatMap_cons, hips, List.append_assoc]
    exact hrep.ips_nodup

variable [DecidableEq A] [DecidableEq B]

theorem Represents.merge (hrep : Represents h first (before ++ c :: d :: rest)) (hsafe : c.Safe) :
    (c.merge d = none ∧ mergePeers h c.addr d.addr = none) ∨
      ∃ c' h', c.merge d = some c' ∧ mergePeers h c.addr d.addr = some h' ∧
        Represents h' first (before ++ c' :: rest) := by
  have hc := hrep.cell c (by simp)
  have hd := hrep.cell d (by simp)
  have hcd := hrep.addr_ne
  have hfirst := hc.allowedIps.eq_head?
  by_cases hnil : c.allowedIps = []
  · rw [hnil, List.head?_nil] at hfirst
    refine .inr ⟨_, _, if_pos hnil, by rw [mergePeers, hfirst]; rfl, ?_⟩
    refine hrep.of_merge rfl (by rw [hnil, List.nil_append]) rfl ?_ fun x hx => ?_
    · refine ⟨?_, hc.publicKey, hc.fields, ?_, ?_⟩
      · exact (Function.update_of_ne hcd ..).trans hc.live
      · exact (Function.update_self ..).trans hd.last
      · have hchain := hd.allowedIps
        rwa [← Function.update_self c.addr (h.firstAllowedip d.addr) h.firstAllowedip] at hchain
    · obtain ⟨hx, hxc, hxd, _⟩ := hrep.other hx
      refine ⟨?_, hx.publicKey, hx.fields, ?_, ?_⟩
      · exact (Function.update_of_ne hxd ..).trans hx.live
      · exact (Function.update_of_ne hxc ..).trans hx.last
      · have hchain := hx.allowedIps
        rwa [← Function.update_of_ne hxc (h.firstAllowedip d.addr) h.firstAllowedip] at hchain
  · obtain ⟨a, as, hcons⟩ := List.exists_cons_of_ne_nil hnil
    rw [hcons, List.head?_cons] at hfirst
    cases hlast : c.last with
    | none =>
      refine .inl ⟨by rw [PeerCell.merge, if_neg hnil, hlast]; rfl, ?_⟩
      rw [mergePeers, hfirst]
      simp [hc.last, hlast]
    | some l =>
      have hmem : l ∈ c.allowedIps.getLast? := by
        rcases hsafe with hnone | hconsistent
        · cases hlast.symm.trans hnone
        · exact hconsistent.symm.trans hlast
      have hl : l ∈ c.allowedIps := List.mem_of_mem_getLast? hmem
      have hld : l ∉ d.allowedIps := fun hmem => List.disjoint_of_nodup_append
        (List.nodup_append.mp hrep.ips_nodup).2.1 hl (List.mem_append_left _ hmem)
      refine .inr ⟨{ c with allowedIps := c.allowedIps ++ d.allowedIps, last := d.last }, _,
        by rw [PeerCell.merge, if_neg hnil, hlast]; rfl,
        by rw [mergePeers, hfirst]; dsimp only; rw [hc.last, hlast]; rfl, ?_⟩
      refine hrep.of_merge rfl rfl rfl ?_ fun x hx => ?_
      · refine ⟨?_, hc.publicKey, hc.fields, ?_, hc.allowedIps.append hmem hd.allowedIps hld⟩
        · exact (Function.update_of_ne hcd ..).trans hc.live
        · exact (Function.update_self ..).trans hd.last
      · obtain ⟨hx, hxc, hxd, hdisjoint⟩ := hrep.other hx
        refine ⟨?_, hx.publicKey, hx.fields, ?_, hx.allowedIps.update_of_not_mem (hdisjoint hl) _⟩
        · exact (Function.update_of_ne hxd ..).trans hx.live
        · exact (Function.update_of_ne hxc ..).trans hx.last

end Merge

theorem PeerCell.merge_safe {c d c' : PeerCell A B K D} (hd : d.Safe) (h : c.merge d = some c') :
    c'.Safe ∧ c'.addr = c.addr := by
  unfold PeerCell.merge at h
  split at h
  · cases h
    exact ⟨hd, rfl⟩
  · obtain ⟨l, hl, rfl⟩ := Option.map_eq_some_iff.mp h
    refine ⟨?_, rfl⟩
    rcases hd with hnone | hconsistent
    · exact .inl hnone
    · cases hips : d.allowedIps with
      | nil => exact .inl (hconsistent.trans (by rw [hips]; rfl))
      | cons a as =>
        refine .inr (hconsistent.trans ?_)
        rw [hips]
        exact (List.getLast?_append_cons ..).symm

theorem Represents.next {h : PeerHeap A B K D} {first : Option A}
    {before rest : List (PeerCell A B K D)} {c : PeerCell A B K D}
    (hrep : Represents h first (before ++ c :: rest)) :
    h.nextPeer c.addr = (rest.map PeerCell.addr).head? := by
  have hpeers := hrep.peers
  rw [List.map_append, List.map_cons] at hpeers
  exact hpeers.of_append.2.eq_head?

/-- On the memory the loop does what it does on lists. -/
theorem coalesceLoop_refines [DecidableEq A] [DecidableEq B] [DecidableEq K] {h : PeerHeap A B K D} {first : Option A}
    {before rest : List (PeerCell A B K D)} {c : PeerCell A B K D}
    (hrep : Represents h first (before ++ c :: rest)) (hsafe : ∀ x ∈ c :: rest, x.Safe) {n : Nat}
    (hn : rest.length < n) :
    (coalesceCells c rest = none ∧ coalesceLoop n h (some c.addr) = some (.error .null)) ∨
      ∃ cells h', coalesceCells c rest = some cells ∧
        coalesceLoop n h (some c.addr) = some (.ok h') ∧ Represents h' first (before ++ cells) := by
  induction rest generalizing h before c n with
  | nil =>
    obtain ⟨n, rfl⟩ := Nat.exists_eq_add_of_le' (Nat.one_le_of_lt hn)
    refine .inr ⟨[c], h, rfl, ?_, hrep⟩
    rw [coalesceLoop, (hrep.cell c (by simp)).live, hrep.next]
    rfl
  | cons d rest ih =>
    obtain ⟨n, rfl⟩ := Nat.exists_eq_add_of_le' (Nat.one_le_of_lt hn)
    have hlen : rest.length < n := Nat.lt_of_succ_lt_succ hn
    have hc := hrep.cell c (by simp)
    have hd := hrep.cell d (by simp)
    have hstep : coalesceLoop (n + 1) h (some c.addr) =
        if c.key ≠ d.key then coalesceLoop n h (some d.addr)
        else
          match mergePeers h c.addr d.addr with
          | none => some (.error .null)
          | some h => coalesceLoop n h (some c.addr) := by
      rw [coalesceLoop, hc.live, hrep.next, ← hc.publicKey, ← hd.publicKey]
      simp only [List.map_cons, List.head?_cons, hd.live]
      rfl
    rw [hstep, coalesceCells]
    by_cases hkeys : c.key = d.key
    · rw [if_neg (not_not.mpr hkeys), if_neg (not_not.mpr hkeys)]
      rcases hrep.merge (hsafe c (by simp)) with ⟨hcell, hheap⟩ | ⟨c', h', hcell, hheap, hrep'⟩
      · exact .inl ⟨by rw [hcell]; rfl, by rw [hheap]⟩
      · obtain ⟨hsafe', haddr⟩ := PeerCell.merge_safe (hsafe d (by simp)) hcell
        have hrest := ih hrep' (List.forall_mem_cons.mpr ⟨hsafe', fun x hx => hsafe x (by simp [hx])⟩) hlen
        rw [haddr] at hrest
        rwa [hcell, hheap]
    · rw [if_pos hkeys, if_pos hkeys]
      have hrep' : Represents h first ((before ++ [c]) ++ d :: rest) := by simpa using hrep
      rcases ih hrep' (fun x hx => hsafe x (List.mem_cons_of_mem _ hx)) hlen with
        ⟨hcells, hloop⟩ | ⟨cells, h', hcells, hloop, hrep'⟩
      · exact .inl ⟨by rw [hcells]; rfl, hloop⟩
      · exact .inr ⟨c :: cells, h', by rw [hcells]; rfl, hloop, by simpa using hrep'⟩

/-! ## Runs -/

/-- A peer with the allowed IPs of the peers of its run as well. -/
def PeerCell.whole (c : PeerCell A B K D) (run : List (PeerCell A B K D)) : PeerCell A B K D :=
  { c with
    allowedIps := (c :: run).flatMap PeerCell.allowedIps
    last := ((c :: run).flatMap PeerCell.allowedIps).getLast? }

/-- What is kept of a run. -/
def wholeRun : List (PeerCell A B K D) → Option (PeerCell A B K D)
  | [] => none
  | c :: run => some (c.whole run)

/-- The peers with each run of equal keys made one. -/
def mergedRuns [DecidableEq K] (cells : List (PeerCell A B K D)) : List (PeerCell A B K D) :=
  (cells.splitBy fun c d => decide (c.key = d.key)).filterMap wholeRun

/-- After a peer with allowed IPs its run has no peer without. -/
def NoGap (cells : List (PeerCell A B K D)) : Prop :=
  cells.IsChain fun c d => c.key = d.key → c.allowedIps ≠ [] → d.allowedIps ≠ []

section Runs

variable {c q : PeerCell A B K D} {run rest cells : List (PeerCell A B K D)}

theorem PeerCell.Consistent.whole_nil (h : c.Consistent) : c.whole [] = c := by
  obtain ⟨addr, key, fields, allowedIps, last⟩ := c
  obtain rfl : last = allowedIps.getLast? := h
  simp [PeerCell.whole]

/-- The last peer of a run without gap has allowed IPs if any of them has. -/
theorem NoGap.getLast_ne_nil (h : NoGap (c :: run)) (hkeys : ∀ x ∈ c :: run, x.key = c.key)
    (hne : (c :: run).flatMap PeerCell.allowedIps ≠ []) :
    ∀ x ∈ (c :: run).getLast?, x.allowedIps ≠ [] := by
  induction run generalizing c with
  | nil =>
    intro x hx
    cases hx
    simpa using hne
  | cons d run ih =>
    obtain ⟨hfirst, hrest⟩ := List.isChain_cons_cons.mp h
    have hd := hkeys d (by simp)
    refine ih hrest (fun x hx => (hkeys x (List.mem_cons_of_mem _ hx)).trans hd.symm) fun hnil => ?_
    rw [List.flatMap_cons, List.append_eq_nil_iff] at hnil
    refine hfirst hd.symm (fun hc => hne ?_) hnil.1
    rw [List.flatMap_cons, List.flatMap_cons, hc, hnil.1, hnil.2]
    rfl

theorem keys_snoc (hkeys : ∀ x ∈ c :: run, x.key = c.key) (hq : c.key = q.key) :
    ∀ x ∈ c :: (run ++ [q]), x.key = c.key := by
  rw [← List.cons_append, List.forall_mem_append]
  exact ⟨hkeys, fun x hx => by rw [List.mem_singleton.mp hx, hq]⟩

/-- A further peer of the run. -/
theorem noGap_snoc_iff (hkeys : ∀ x ∈ c :: run, x.key = c.key) (hq : c.key = q.key)
    (hrun : NoGap (c :: run)) : NoGap (c :: (run ++ [q])) ↔
      ((c :: run).flatMap PeerCell.allowedIps ≠ [] → q.allowedIps ≠ []) := by
  obtain ⟨l, hl⟩ : ∃ l, (c :: run).getLast? = some l :=
    ⟨_, List.getLast?_eq_some_getLast (List.cons_ne_nil c run)⟩
  rw [← List.cons_append, NoGap, List.isChain_append]
  constructor
  · rintro ⟨_, _, hlink⟩ hne
    have hkey := (hkeys l (List.mem_of_mem_getLast? hl)).trans hq
    exact hlink l hl q rfl hkey (hrun.getLast_ne_nil hkeys hne l hl)
  · intro hgap
    refine ⟨hrun, List.isChain_singleton q, fun x hx y hy _ hne => ?_⟩
    cases hy
    exact hgap fun hnil =>
      hne (List.flatMap_eq_nil_iff.mp hnil x (List.mem_of_mem_getLast? hx))

/-- A peer of another run. -/
theorem noGap_append_iff (hkeys : ∀ x ∈ c :: run, x.key = c.key) (hq : c.key ≠ q.key) :
    NoGap ((c :: run) ++ q :: rest) ↔ NoGap (c :: run) ∧ NoGap (q :: rest) := by
  rw [NoGap, List.isChain_append]
  refine ⟨fun h => ⟨h.1, h.2.1⟩, fun h => ⟨h.1, h.2, fun x hx y hy heq => ?_⟩⟩
  cases hy
  exact absurd ((hkeys x (List.mem_of_mem_getLast? hx)).symm.trans heq) hq

theorem merge_whole (hq : q.Consistent)
    (hgap : (c :: run).flatMap PeerCell.allowedIps ≠ [] → q.allowedIps ≠ []) :
    (c.whole run).merge q = some (c.whole (run ++ [q])) := by
  have hips : (c :: (run ++ [q])).flatMap PeerCell.allowedIps =
      (c :: run).flatMap PeerCell.allowedIps ++ q.allowedIps := by
    simp
  by_cases hnil : (c :: run).flatMap PeerCell.allowedIps = []
  · refine (if_pos hnil).trans ?_
    rw [PeerCell.whole, PeerCell.whole, hips, hnil, List.nil_append, ← hq]
  · have hlast : (c.whole run).last ≠ none := mt List.getLast?_eq_none_iff.mp hnil
    obtain ⟨l, hl⟩ := Option.ne_none_iff_exists'.mp hlast
    have hq' : q.last = ((c :: run).flatMap PeerCell.allowedIps ++ q.allowedIps).getLast? := by
      rw [hq, List.getLast?_append_of_ne_nil _ (hgap hnil)]
    refine (if_neg hnil).trans ?_
    rw [hl, Option.map_some, PeerCell.whole, PeerCell.whole, hips, ← hq']

/-- A peer without allowed IPs takes the pointer away. -/
theorem merge_gap (hq : q.Consistent) (hnil : q.allowedIps = [])
    (hne : (c :: run).flatMap PeerCell.allowedIps ≠ []) :
    ∃ c', (c.whole run).merge q = some c' ∧ c'.allowedIps ≠ [] ∧ c'.last = none := by
  have hlast : (c.whole run).last ≠ none := mt List.getLast?_eq_none_iff.mp hne
  obtain ⟨l, hl⟩ := Option.ne_none_iff_exists'.mp hlast
  refine ⟨_, (if_neg hne).trans (by rw [hl, Option.map_some]), ?_, ?_⟩
  · exact List.append_ne_nil_of_left_ne_nil hne _
  · exact hq.trans (by rw [hnil]; rfl)

variable [DecidableEq K]

/-- And nothing puts it back: the loop follows it, or leaves the peer as it is. -/
theorem mem_of_gap (hne : c.allowedIps ≠ []) (hlast : c.last = none)
    (h : coalesceCells c rest = some cells) : c ∈ cells := by
  cases rest with
  | nil =>
    cases h
    exact List.mem_singleton_self c
  | cons d rest =>
    rw [coalesceCells] at h
    split at h
    · obtain ⟨tail, _, rfl⟩ := Option.map_eq_some_iff.mp h
      exact List.mem_cons_self
    · rw [PeerCell.merge, if_neg hne, hlast] at h
      cases h

theorem mergedRuns_run (hkeys : ∀ x ∈ c :: run, x.key = c.key)
    (hrest : ∀ x ∈ rest.head?, c.key ≠ x.key) :
    mergedRuns ((c :: run) ++ rest) = c.whole run :: mergedRuns rest := by
  have hrun : (c :: run).IsChain fun x y => decide (x.key = y.key) = true :=
    (List.pairwise_of_forall_mem_list fun x hx y hy =>
      decide_eq_true ((hkeys x hx).trans (hkeys y hy).symm)).isChain
  rw [mergedRuns, List.splitBy_append, List.splitBy_of_isChain (List.cons_ne_nil c run) hrun]
  · rfl
  · intro x hx y hy
    rw [hkeys x (List.mem_of_mem_getLast? hx)]
    exact decide_eq_false (hrest y hy)

/-- Without a gap the runs are merged. -/
theorem coalesceCells_whole (hkeys : ∀ x ∈ c :: run, x.key = c.key) (hrest : ∀ x ∈ rest, x.Consistent)
    (h : NoGap ((c :: run) ++ rest)) :
    coalesceCells (c.whole run) rest = some (mergedRuns ((c :: run) ++ rest)) := by
  induction rest generalizing c run with
  | nil =>
    rw [mergedRuns_run hkeys (by simp)]
    rfl
  | cons q rest ih =>
    obtain ⟨hq, hrest⟩ := List.forall_mem_cons.mp hrest
    by_cases hkey : c.key = q.key
    · have hassoc : (c :: run) ++ q :: rest = (c :: (run ++ [q])) ++ rest := by simp
      rw [hassoc] at h ⊢
      have hsnoc : NoGap (c :: (run ++ [q])) := (List.isChain_append.mp h).1
      have hrun : NoGap (c :: run) := (List.isChain_append.mp (List.cons_append ▸ hsnoc)).1
      refine (if_neg (not_not.mpr hkey)).trans ?_
      rw [merge_whole hq ((noGap_snoc_iff hkeys hkey hrun).mp hsnoc), Option.bind_some]
      exact ih (keys_snoc hkeys hkey) hrest h
    · have hq' : ∀ x ∈ [q], x.key = q.key := by simp
      have hother := ih hq' hrest ((noGap_append_iff hkeys hkey).mp h).2
      rw [hq.whole_nil] at hother
      refine (if_pos hkey).trans ?_
      rw [hother, mergedRuns_run hkeys fun x hx => by cases hx; exact hkey]
      rfl

/-- With a gap a peer is left without its pointer, if the loop ends at all. -/
theorem coalesceCells_gap (hkeys : ∀ x ∈ c :: run, x.key = c.key) (hrest : ∀ x ∈ rest, x.Consistent)
    (hrun : NoGap (c :: run)) (h : ¬ NoGap ((c :: run) ++ rest))
    (hcells : coalesceCells (c.whole run) rest = some cells) : ∃ x ∈ cells, ¬ x.Consistent := by
  induction rest generalizing c run cells with
  | nil => exact absurd hrun (by rwa [List.append_nil] at h)
  | cons q rest ih =>
    obtain ⟨hq, hrest⟩ := List.forall_mem_cons.mp hrest
    by_cases hkey : c.key = q.key
    · have hbind := (if_neg (not_not.mpr hkey)).symm.trans hcells
      by_cases hgap : (c :: run).flatMap PeerCell.allowedIps ≠ [] → q.allowedIps ≠ []
      · rw [merge_whole hq hgap, Option.bind_some] at hbind
        have hsnoc := (noGap_snoc_iff hkeys hkey hrun).mpr hgap
        exact ih (keys_snoc hkeys hkey) hrest hsnoc (by simpa using h) hbind
      · obtain ⟨hne, hnil⟩ := Classical.not_imp.mp hgap
        obtain ⟨c', hmerge, hne', hlast'⟩ := merge_gap hq (not_not.mp hnil) hne
        rw [hmerge, Option.bind_some] at hbind
        refine ⟨c', mem_of_gap hne' hlast' hbind, fun hconsistent => hne' ?_⟩
        exact List.getLast?_eq_none_iff.mp (hconsistent.symm.trans hlast')
    · have hmap := (if_pos hkey).symm.trans hcells
      obtain ⟨tail, htail, rfl⟩ := Option.map_eq_some_iff.mp hmap
      rw [← hq.whole_nil] at htail
      have hother := mt (fun hq => (noGap_append_iff hkeys hkey).mpr ⟨hrun, hq⟩) h
      have hq' : ∀ x ∈ [q], x.key = q.key := by simp
      obtain ⟨x, hx, hbad⟩ := ih hq' hrest (List.isChain_singleton q) hother htail
      exact ⟨x, List.mem_cons_of_mem _ hx, hbad⟩

theorem mergedRuns_consistent {x : PeerCell A B K D} (hx : x ∈ mergedRuns cells) :
    x.Consistent := by
  obtain ⟨run, _, hrun⟩ := List.mem_filterMap.mp hx
  cases run with
  | nil => cases hrun
  | cons c run =>
    cases hrun
    rfl

theorem coalesceCells_iff (hc : c.Consistent) (hrest : ∀ x ∈ rest, x.Consistent) :
    coalesceCells c rest = some (mergedRuns (c :: rest)) ↔ NoGap (c :: rest) := by
  have hkeys : ∀ x ∈ [c], x.key = c.key := by simp
  constructor
  · intro h
    rw [← hc.whole_nil] at h
    by_contra hgap
    obtain ⟨x, hx, hbad⟩ := coalesceCells_gap hkeys hrest (List.isChain_singleton c) hgap h
    exact hbad (mergedRuns_consistent hx)
  · intro h
    have hwhole := coalesceCells_whole hkeys hrest h
    rwa [hc.whole_nil] at hwhole

theorem keys_eq_of_isChain (h : (c :: run).IsChain fun x y => decide (x.key = y.key) = true) :
    ∀ x ∈ c :: run, x.key = c.key := by
  induction run generalizing c with
  | nil =>
    intro x hx
    rw [List.mem_singleton.mp hx]
  | cons d run ih =>
    obtain ⟨hd, hrun⟩ := List.isChain_cons_cons.mp h
    refine List.forall_mem_cons.mpr ⟨rfl, fun x hx => ?_⟩
    rw [ih hrun x hx, of_decide_eq_true hd]

theorem isChain_wholeRun {runs : List (List (PeerCell A B K D))} (hnil : [] ∉ runs)
    (heq : ∀ run ∈ runs, run.IsChain fun x y => decide (x.key = y.key) = true)
    (hne : runs.IsChain fun r s => ∃ hr hs, decide ((r.getLast hr).key = (s.head hs).key) = false) :
    (runs.filterMap wholeRun).IsChain fun c d => c.key ≠ d.key := by
  induction runs with
  | nil => exact List.isChain_nil
  | cons run runs ih =>
    rw [List.mem_cons, not_or] at hnil
    obtain ⟨c, run, rfl⟩ := List.exists_cons_of_ne_nil (Ne.symm hnil.1)
    obtain ⟨hrun, hrest⟩ := List.forall_mem_cons.mp heq
    obtain ⟨hhead, htail⟩ := List.isChain_cons.mp hne
    refine List.isChain_cons.mpr ⟨fun d hd => ?_, ih hnil.2 hrest htail⟩
    cases runs with
    | nil => cases hd
    | cons next runs =>
      obtain ⟨d', next, rfl⟩ := List.exists_cons_of_ne_nil fun h => hnil.2 (h ▸ List.mem_cons_self)
      cases hd
      obtain ⟨hr, _, hdiff⟩ := hhead _ rfl
      have hkey := keys_eq_of_isChain hrun _ (List.getLast_mem hr)
      exact hkey ▸ of_decide_eq_false hdiff

/-- No two neighbours have one key. -/
theorem mergedRuns_keys_ne : (mergedRuns cells).IsChain fun c d => c.key ≠ d.key :=
  isChain_wholeRun (List.nil_notMem_splitBy _ _) (fun _ => List.isChain_of_mem_splitBy)
    (List.isChain_getLast_head_splitBy (fun c d => decide (c.key = d.key)) cells)

end Runs

/-! ## The peers of a dump -/

section Dump

variable {h : PeerHeap A B K D} {first : Option A} {cells : List (PeerCell A B K D)}

theorem HoldsCell.unique {c d : PeerCell A B K D} (hc : HoldsCell h c) (hd : HoldsCell h d)
    (haddr : c.addr = d.addr) : c = d := by
  obtain ⟨addr, key, fields, allowedIps, last⟩ := c
  obtain ⟨addr', key', fields', allowedIps', last'⟩ := d
  obtain rfl : addr = addr' := haddr
  obtain rfl := hc.publicKey.symm.trans hd.publicKey
  obtain rfl := hc.fields.symm.trans hd.fields
  obtain rfl := hc.last.symm.trans hd.last
  obtain rfl := hc.allowedIps.unique hd.allowedIps
  rfl

/-- The memory determines the peers. -/
theorem Represents.unique {cells' : List (PeerCell A B K D)} (hrep : Represents h first cells)
    (hrep' : Represents h first cells') : cells = cells' := by
  have haddr := hrep.peers.unique hrep'.peers
  refine List.ext_getElem (by simpa using congrArg List.length haddr) fun i hi hi' => ?_
  refine (hrep.cell _ (List.getElem_mem hi)).unique (hrep'.cell _ (List.getElem_mem hi')) ?_
  simpa [hi, hi'] using congrArg (fun l => l[i]?) haddr

variable [DecidableEq A] [DecidableEq B] [DecidableEq K]

/-- `coalesce_peers` merges the peers, with nothing lost and every pointer right, exactly when no
peer with allowed IPs is followed by one with the same key and none. -/
theorem coalescePeers_exact_iff (hrep : Represents h first cells) (hcells : ∀ c ∈ cells, c.Consistent)
    {n : Nat} (hn : cells.length < n) :
    ((mergedRuns cells).IsChain fun c d => c.key ≠ d.key) ∧
      ((∃ h', coalescePeers n h first = some (.ok h') ∧ Represents h' first (mergedRuns cells)) ↔
        NoGap cells) := by
  refine ⟨mergedRuns_keys_ne, ?_⟩
  cases cells with
  | nil =>
    obtain ⟨n, rfl⟩ := Nat.exists_eq_add_of_le' (Nat.one_le_of_lt hn)
    obtain rfl : first = none := hrep.peers
    exact iff_of_true ⟨h, rfl, hrep⟩ List.isChain_nil
  | cons c rest =>
    obtain ⟨hc, hrest⟩ := List.forall_mem_cons.mp hcells
    obtain rfl : first = some c.addr := hrep.peers.1
    rw [← coalesceCells_iff hc hrest]
    have hsafe : ∀ x ∈ c :: rest, x.Safe := fun x hx => .inr (hcells x hx)
    have hrep : Represents h (some c.addr) ([] ++ c :: rest) := hrep
    rcases coalesceLoop_refines hrep hsafe (Nat.lt_of_succ_lt hn) with
      ⟨hnone, hloop⟩ | ⟨merged, h', hmerged, hloop, hrep'⟩
    · refine iff_of_false (fun ⟨h', hok, _⟩ => ?_) (by rw [hnone]; exact Option.some_ne_none _ |>.symm)
      cases hloop.symm.trans hok
    · rw [hmerged, Option.some_inj]
      constructor
      · rintro ⟨h'', hok, hrep''⟩
        cases hloop.symm.trans hok
        exact hrep'.unique hrep''
      · rintro rfl
        exact ⟨h', hloop, hrep'⟩

end Dump

/-- Three peers, each with one allowed IP or none. -/
def threePeers (key : Nat → Nat) (ip : Nat → Option Nat) : PeerHeap Nat Nat Nat Unit where
  live a := decide (a < 3)
  publicKey := key
  fields _ := ()
  firstAllowedip := ip
  lastAllowedip := ip
  nextPeer a := if a < 2 then some (a + 1) else none
  nextAllowedip _ := none

def threeCells (key : Nat → Nat) (ip : Nat → Option Nat) : List (PeerCell Nat Nat Nat Unit) :=
  (List.range 3).map fun a => ⟨a, key a, (), (ip a).toList, ip a⟩

theorem threePeers_represents {key : Nat → Nat} {ip : Nat → Option Nat}
    (hip : ((List.range 3).flatMap fun a => (ip a).toList).Nodup) :
    Represents (threePeers key ip) (some 0) (threeCells key ip) where
  peers := ⟨rfl, rfl, rfl, rfl⟩
  cell c hc := by
    obtain ⟨a, ha, rfl⟩ := List.mem_map.mp hc
    refine ⟨decide_eq_true (List.mem_range.mp ha), rfl, rfl, rfl, ?_⟩
    show IsChain _ (ip a) (ip a).toList
    cases ip a with
    | none => rfl
    | some b => exact ⟨rfl, rfl⟩
  nodup := by rwa [threeCells, List.flatMap_map]

theorem threeCells_consistent {key : Nat → Nat} {ip : Nat → Option Nat} :
    ∀ c ∈ threeCells key ip, c.Consistent := by
  intro c hc
  obtain ⟨a, _, rfl⟩ := List.mem_map.mp hc
  show ip a = (ip a).toList.getLast?
  cases ip a <;> rfl

/-- The first two of three peers are merged. -/
theorem coalescePeers_two : ∃ h',
    coalescePeers 4 (threePeers (fun a => a / 2) some) (some 0) = some (.ok h') ∧
      Represents h' (some 0) [⟨0, 0, (), [0, 1], some 1⟩, ⟨2, 1, (), [2], some 2⟩] :=
  (coalescePeers_exact_iff (threePeers_represents (by decide)) threeCells_consistent
    (by decide)).2.mpr (by unfold NoGap; decide)

/-- The kernel's list `[ip], [], [ip]` for one key: the second merge follows a null pointer. -/
theorem coalescePeers_null :
    Represents (threePeers (fun _ => 0) fun a => if a = 1 then none else some a) (some 0)
      (threeCells (fun _ => 0) fun a => if a = 1 then none else some a) ∧
    (∀ c ∈ threeCells (fun _ => 0) (fun a => if a = 1 then none else some a), c.Consistent) ∧
    ∀ n, 3 < n →
      coalescePeers n (threePeers (fun _ => 0) fun a => if a = 1 then none else some a) (some 0) =
        some (.error .null) := by
  refine ⟨threePeers_represents (by decide), threeCells_consistent, fun n hn => ?_⟩
  obtain ⟨n, rfl⟩ := Nat.exists_eq_add_of_le' hn
  rfl

end WgAndroid
