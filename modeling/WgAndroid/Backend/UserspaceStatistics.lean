import WgAndroid.Backend.GoBackend
import WgAndroid.Backend.Statistics
import WgAndroid.Crypto.KeyCodec

/-!
# Statistics of the userspace backend

`GoBackend.getStatistics` reads the reply to a UAPI `get` line by line: a line with a public key starts
the block of a peer, and what was read for the block before is stored then. A key that `fromHex` rejects
mutes its block.

Results:
1. `classify_eq_some_iff`: a line belongs to one branch at most.
2. `foldl_update_lines`: what the lines of a block leave in the variables.
3. `readStatistics_reply`: the entries are those of the blocks whose keys are accepted.
4. `getStatistics_exact_iff`: when these are the blocks with hexadecimal keys.
-/

namespace WgAndroid.GoBackend

open WgQuickBackend (longMul)

/-! ## Code -/

/-- What the branches of the loop look for. -/
inductive StatLine where
  | publicKey
  | rxBytes
  | txBytes
  | handshakeSec
  | handshakeNsec
  deriving DecidableEq

namespace StatLine

def start : StatLine → JString
  | publicKey => text "public_key="
  | rxBytes => text "rx_bytes="
  | txBytes => text "tx_bytes="
  | handshakeSec => text "last_handshake_time_sec="
  | handshakeNsec => text "last_handshake_time_nsec="

/-- The branches, in order. -/
def all : List StatLine := [publicKey, rxBytes, txBytes, handshakeSec, handshakeNsec]

/-- `line.substring(..)` -/
def value (k : StatLine) (line : JString) : JString := line.drop k.start.length

end StatLine

/-- The branch that a line takes. -/
def classify (line : JString) : Option StatLine := StatLine.all.find? fun k => k.start.isPrefixOf line

/-- The sum of two `long`s. -/
def longAdd (a b : Int) : Int := (a + b).bmod (2 ^ 64)

/-- The variables of the loop. -/
structure StatReader where
  stats : Statistics
  key : Option Key
  rx : Int
  tx : Int
  latestHandshakeMSec : Int

namespace StatReader

def init : StatReader := ⟨∅, none, 0, 0, 0⟩

/-- What is stored when a block ends. -/
def flush (s : StatReader) : Statistics :=
  match s.key with
  | none => s.stats
  | some key => s.stats.add key ⟨s.rx, s.tx, s.latestHandshakeMSec⟩

/-- `if (key == null) continue;` -/
def unlessMuted (s t : StatReader) : StatReader :=
  match s.key with
  | none => s
  | some _ => t

/-- The body of the loop. -/
def update (s : StatReader) (line : JString) : StatReader :=
  match classify line with
  | none => s
  | some .publicKey =>
    ⟨s.flush, (Key.fromHex (StatLine.publicKey.value line)).toOption, 0, 0, 0⟩
  | some .rxBytes =>
    s.unlessMuted { s with rx := (parseLong (StatLine.rxBytes.value line)).getD 0 }
  | some .txBytes =>
    s.unlessMuted { s with tx := (parseLong (StatLine.txBytes.value line)).getD 0 }
  | some .handshakeSec =>
    s.unlessMuted { s with
      latestHandshakeMSec := (parseLong (StatLine.handshakeSec.value line)).elim 0 fun n =>
        longAdd s.latestHandshakeMSec (longMul n 1000) }
  | some .handshakeNsec =>
    s.unlessMuted { s with
      latestHandshakeMSec := (parseLong (StatLine.handshakeNsec.value line)).elim 0 fun n =>
        longAdd s.latestHandshakeMSec (n.tdiv 1000000) }

end StatReader

/-- `config.split("\\n")`: empty pieces at the end are dropped, unless there is no break at all. -/
def splitLines (s : JString) : List JString :=
  if s.contains LF then (s.splitOn LF).rdropWhile List.isEmpty else [s]

/-- The loop, and the last block. -/
def readStatistics (config : JString) : Statistics :=
  ((splitLines config).foldl StatReader.update .init).flush

def getStatistics {T C : Type} [DecidableEq T] (wgGetConfig : Int → Option JString) (w : World T C)
    (tunnel : T) : Statistics :=
  if w.currentTunnel ≠ some tunnel ∨ w.currentTunnelHandle = -1 then ∅
  else
    match wgGetConfig w.currentTunnelHandle with
    | none => ∅
    | some config => readStatistics config

/-! ## Replies -/

/-- The block of a peer: a key, and lines of which no two give the same number. The numbers are in the
range of `long`. -/
structure Block where
  key : JString
  lines : List JString
  key_unbroken : LF ∉ key
  lines_unbroken : ∀ l ∈ lines, LF ∉ l
  no_key : ∀ l ∈ lines, ¬ StatLine.publicKey.start <+: l
  once : lines.Pairwise fun l l' => ∀ k : StatLine, k.start <+: l → ¬ k.start <+: l'
  numbers : ∀ l ∈ lines, ∀ k : StatLine, k.start <+: l → parseLong (k.value l) ≠ none

/-- The first number of a kind. -/
def number (lines : List JString) (k : StatLine) : Option Int :=
  (lines.find? fun l => k.start.isPrefixOf l).bind fun l => parseLong (k.value l)

namespace Block

def allLines (b : Block) : List JString := (StatLine.publicKey.start ++ b.key) :: b.lines

/-- A number of the block; 0 when absent. -/
def value (b : Block) (k : StatLine) : Int := (number b.lines k).getD 0

def stats (b : Block) : PeerStats where
  rxBytes := b.value .rxBytes
  txBytes := b.value .txBytes
  latestHandshakeEpochMillis :=
    (b.value .handshakeSec * 1000 + (b.value .handshakeNsec).tdiv 1000000).bmod (2 ^ 64)

/-- The key that `fromHex` reads. -/
def accepted (b : Block) : Option Key := (Key.fromHex b.key).toOption

end Block

def reply (device : List JString) (blocks : List Block) : JString :=
  unlines (device ++ blocks.flatMap Block.allLines)

/-! ## Lines -/

section Lines

variable {l : JString} {lines : List JString} {k k' : StatLine} {s : StatReader}

/-- No start of a branch is the start of another one. -/
theorem start_injective (h : k.start <+: k'.start) : k = k' := by
  revert h
  cases k <;> cases k' <;> decide

theorem start_of_classify (h : classify l = some k) : k.start <+: l := by
  exact List.isPrefixOf_iff_prefix.mp (List.find?_eq_some_iff_append.mp h).1

theorem classify_eq_some_iff : classify l = some k ↔ k.start <+: l := by
  refine ⟨start_of_classify, fun h => ?_⟩
  have hall : k ∈ StatLine.all := by cases k <;> decide
  cases hclass : classify l with
  | none =>
    have hnone := List.find?_eq_none.mp hclass k hall
    exact absurd (List.isPrefixOf_iff_prefix.mpr h) hnone
  | some k' =>
    rcases List.prefix_or_prefix_of_prefix h (start_of_classify hclass) with hle | hle
    · rw [start_injective hle]
    · rw [← start_injective hle]

theorem number_cons : number (l :: lines) k =
    if classify l = some k then parseLong (k.value l) else number lines k := by
  rw [number, List.find?_cons]
  cases hstart : k.start.isPrefixOf l with
  | true =>
    rw [if_pos (classify_eq_some_iff.mpr (List.isPrefixOf_iff_prefix.mp hstart))]
    rfl
  | false =>
    rw [if_neg fun h => ?_]
    · rfl
    · rw [List.isPrefixOf_iff_prefix.mpr (start_of_classify h)] at hstart
      cases hstart

theorem number_eq_none (h : ∀ l ∈ lines, ¬ k.start <+: l) : number lines k = none := by
  have hfind : (lines.find? fun l => k.start.isPrefixOf l) = none :=
    List.find?_eq_none.mpr fun l hl => mt List.isPrefixOf_iff_prefix.mp (h l hl)
  rw [number, hfind, Option.bind_none]

/-- A muted block leaves everything as it is. -/
theorem update_muted (hkey : s.key = none) (hl : ¬ StatLine.publicKey.start <+: l) : s.update l = s := by
  have hmuted (t : StatReader) : s.unlessMuted t = s := by rw [StatReader.unlessMuted, hkey]
  unfold StatReader.update
  split
  · rfl
  · next hclass => exact absurd (start_of_classify hclass) hl
  · exact hmuted _
  · exact hmuted _
  · exact hmuted _
  · exact hmuted _

theorem foldl_update_muted (hkey : s.key = none)
    (hlines : ∀ l ∈ lines, ¬ StatLine.publicKey.start <+: l) :
    lines.foldl StatReader.update s = s := by
  induction lines with
  | nil => rfl
  | cons l lines ih =>
    obtain ⟨hl, hlines⟩ := List.forall_mem_cons.mp hlines
    rw [List.foldl_cons, update_muted hkey hl, ih hlines]

/-- A sum of `long`s. -/
theorem longAdd_bmod {a b : Int} : longAdd (a.bmod (2 ^ 64)) b = (a + b).bmod (2 ^ 64) :=
  Int.bmod_add_bmod ..

theorem longAdd_longMul {a n m : Int} :
    longAdd (a.bmod (2 ^ 64)) (longMul n m) = (a + n * m).bmod (2 ^ 64) := by
  rw [longAdd_bmod, longMul, Int.add_bmod_bmod]

/-- What the lines of a block leave in the variables. -/
theorem foldl_update_lines {stats : Statistics} {key : Key} {rx tx msec : Int}
    (hlines : ∀ l ∈ lines, ¬ StatLine.publicKey.start <+: l)
    (honce : lines.Pairwise fun l l' => ∀ k : StatLine, k.start <+: l → ¬ k.start <+: l')
    (hnumbers : ∀ l ∈ lines, ∀ k : StatLine, k.start <+: l → parseLong (k.value l) ≠ none) :
    lines.foldl StatReader.update ⟨stats, some key, rx, tx, msec.bmod (2 ^ 64)⟩ =
      ⟨stats, some key, (number lines .rxBytes).getD rx, (number lines .txBytes).getD tx,
        (msec + (number lines .handshakeSec).getD 0 * 1000 +
          ((number lines .handshakeNsec).getD 0).tdiv 1000000).bmod (2 ^ 64)⟩ := by
  induction lines generalizing rx tx msec with
  | nil => simp [number]
  | cons l lines ih =>
    obtain ⟨hl, hlines⟩ := List.forall_mem_cons.mp hlines
    obtain ⟨hnumber, hnumbers⟩ := List.forall_mem_cons.mp hnumbers
    obtain ⟨hfirst, honce⟩ := List.pairwise_cons.mp honce
    have hrest {k} (hclass : classify l = some k) : number lines k = none :=
      number_eq_none fun l' hl' => hfirst l' hl' k (start_of_classify hclass)
    rw [List.foldl_cons]
    cases hclass : classify l with
    | none =>
      rw [StatReader.update, hclass]
      simp only [number_cons, hclass, reduceCtorEq, if_false]
      exact ih hlines honce hnumbers
    | some k =>
      obtain ⟨n, hn⟩ := Option.ne_none_iff_exists'.mp (hnumber k (start_of_classify hclass))
      cases k with
      | publicKey => exact absurd (start_of_classify hclass) hl
      | rxBytes =>
        have hstep : StatReader.update ⟨stats, some key, rx, tx, msec.bmod (2 ^ 64)⟩ l =
            ⟨stats, some key, n, tx, msec.bmod (2 ^ 64)⟩ := by
          simp [StatReader.update, StatReader.unlessMuted, hclass, hn]
        rw [hstep, ih hlines honce hnumbers]
        simp [number_cons, hclass, hn, hrest hclass]
      | txBytes =>
        have hstep : StatReader.update ⟨stats, some key, rx, tx, msec.bmod (2 ^ 64)⟩ l =
            ⟨stats, some key, rx, n, msec.bmod (2 ^ 64)⟩ := by
          simp [StatReader.update, StatReader.unlessMuted, hclass, hn]
        rw [hstep, ih hlines honce hnumbers]
        simp [number_cons, hclass, hn, hrest hclass]
      | handshakeSec =>
        have hstep : StatReader.update ⟨stats, some key, rx, tx, msec.bmod (2 ^ 64)⟩ l =
            ⟨stats, some key, rx, tx, (msec + n * 1000).bmod (2 ^ 64)⟩ := by
          rw [← longAdd_longMul]
          simp [StatReader.update, StatReader.unlessMuted, hclass, hn]
        rw [hstep, ih hlines honce hnumbers]
        simp [number_cons, hclass, hn, hrest hclass]
      | handshakeNsec =>
        have hstep : StatReader.update ⟨stats, some key, rx, tx, msec.bmod (2 ^ 64)⟩ l =
            ⟨stats, some key, rx, tx, (msec + n.tdiv 1000000).bmod (2 ^ 64)⟩ := by
          rw [← longAdd_bmod]
          simp [StatReader.update, StatReader.unlessMuted, hclass, hn]
        rw [hstep, ih hlines honce hnumbers]
        simp [number_cons, hclass, hn, hrest hclass, Int.add_right_comm]

end Lines

/-! ## Blocks -/

section Blocks

variable {s : StatReader} {b : Block} {blocks : List Block} {k : Key}

theorem update_key : s.update (StatLine.publicKey.start ++ b.key) = ⟨s.flush, b.accepted, 0, 0, 0⟩ := by
  have hclass : classify (StatLine.publicKey.start ++ b.key) = some .publicKey :=
    classify_eq_some_iff.mpr (List.prefix_append ..)
  have hvalue : StatLine.publicKey.value (StatLine.publicKey.start ++ b.key) = b.key := List.drop_left ..
  rw [StatReader.update, hclass]
  dsimp only
  rw [hvalue, Block.accepted]

/-- A block stores what was read before it, and is stored itself if its key is accepted. -/
theorem flush_block : (b.allLines.foldl StatReader.update s).flush =
    b.accepted.elim s.flush fun key => s.flush.add key b.stats := by
  rw [Block.allLines, List.foldl_cons, update_key]
  cases b.accepted with
  | none =>
    rw [foldl_update_muted rfl b.no_key]
    rfl
  | some key =>
    have hlines : b.lines.foldl StatReader.update ⟨s.flush, some key, 0, 0, Int.bmod 0 (2 ^ 64)⟩ = _ :=
      foldl_update_lines b.no_key b.once b.numbers
    rw [Int.zero_bmod, Int.zero_add] at hlines
    rw [hlines]
    rfl

theorem lookup_blocks : (AList.lookup k ((blocks.flatMap Block.allLines).foldl StatReader.update s).flush) =
    ((blocks.reverse.find? fun b => b.accepted = some k).map Block.stats).or (s.flush.lookup k) := by
  induction blocks generalizing s with
  | nil => rfl
  | cons b blocks ih =>
    rw [List.flatMap_cons, List.foldl_append, ih, flush_block, List.reverse_cons, List.find?_append]
    cases blocks.reverse.find? fun b => b.accepted = some k with
    | some b' => rfl
    | none =>
      cases haccepted : b.accepted with
      | none => simp [haccepted]
      | some key =>
        by_cases hkey : key = k
        · simp [haccepted, hkey, Statistics.add]
        · simp [haccepted, hkey, Statistics.add, AList.lookup_insert_ne (Ne.symm hkey)]

/-- Empty lines are skipped. -/
theorem update_nil : s.update [] = s := rfl

theorem foldl_rdropWhile {ls : List JString} :
    (ls.rdropWhile List.isEmpty).foldl StatReader.update s = ls.foldl StatReader.update s := by
  induction ls using List.reverseRecOn with
  | nil => rfl
  | append_singleton ls l ih =>
    rw [List.rdropWhile_concat]
    split
    · next hempty => rw [ih, List.foldl_append, List.isEmpty_iff.mp hempty]; rfl
    · rfl

theorem unlines_eq_intercalate {ls : List JString} : unlines ls = [LF].intercalate (ls ++ [[]]) := by
  induction ls with
  | nil => rfl
  | cons l ls ih =>
    have hcons : unlines (l :: ls) = l ++ ([LF] ++ unlines ls) := by simp [unlines]
    rw [hcons, ih]
    cases ls with
    | nil => rfl
    | cons l' ls => simp [List.intercalate_cons_cons]

theorem foldl_splitLines {ls : List JString} (h : ∀ l ∈ ls, LF ∉ l) :
    (splitLines (unlines ls)).foldl StatReader.update s = ls.foldl StatReader.update s := by
  unfold splitLines
  split
  · rw [foldl_rdropWhile, unlines_eq_intercalate, List.splitOn_intercalate, List.foldl_append]
    · rfl
    · exact List.forall_mem_append.mpr ⟨h, by simp⟩
    · simp
  · next hbreak =>
    cases ls with
    | nil => rfl
    | cons l ls => exact absurd (by simp [unlines]) hbreak

/-- The entries are those of the blocks whose keys are accepted; of blocks with one key, the last. -/
theorem lookup_readStatistics {device : List JString}
    (hdevice : ∀ l ∈ device, LF ∉ l ∧ ¬ StatLine.publicKey.start <+: l) :
    (readStatistics (reply device blocks)).lookup k =
      (blocks.reverse.find? fun b => b.accepted = some k).map Block.stats := by
  have hunbroken : ∀ l ∈ device ++ blocks.flatMap Block.allLines, LF ∉ l := by
    refine List.forall_mem_append.mpr ⟨fun l hl => (hdevice l hl).1, fun l hl => ?_⟩
    obtain ⟨b, _, hl⟩ := List.mem_flatMap.mp hl
    rcases List.mem_cons.mp hl with rfl | hl
    · rw [List.mem_append, not_or]
      exact ⟨by decide, b.key_unbroken⟩
    · exact b.lines_unbroken l hl
  rw [readStatistics, reply, foldl_splitLines hunbroken, List.foldl_append,
    foldl_update_muted rfl fun l hl => (hdevice l hl).2, lookup_blocks]
  exact Option.or_none

end Blocks

/-! ## The statistics of a reply -/

/-- Each block with a hexadecimal key has its entry, and there is no other entry. -/
structure ExactStatistics (stats : Statistics) (blocks : List Block) : Prop where
  entry : ∀ b ∈ blocks, Key.IsHexKey b.key → ∀ k, Key.fromHex b.key = .ok k → stats.lookup k = some b.stats
  only : ∀ k, (∀ b ∈ blocks, Key.IsHexKey b.key → Key.fromHex b.key ≠ .ok k) → stats.lookup k = none

section Exact

variable {b b' : Block} {blocks : List Block} {k : Key}

theorem accepted_eq_some_iff : b.accepted = some k ↔ Key.fromHex b.key = .ok k := by
  rw [Block.accepted]
  cases Key.fromHex b.key <;> simp [Except.toOption]

variable
  (hdistinct : blocks.Pairwise fun b b' => ∀ k, Key.fromHex b.key = .ok k → Key.fromHex b'.key ≠ .ok k)
include hdistinct

/-- A key is that of one block. -/
theorem block_unique (hb : b ∈ blocks) (hb' : b' ∈ blocks) (h : Key.fromHex b.key = .ok k)
    (h' : Key.fromHex b'.key = .ok k) : b = b' := by
  by_contra hne
  have hsymm : Std.Symm fun b b' : Block =>
      ∀ k, Key.fromHex b.key = .ok k → Key.fromHex b'.key ≠ .ok k :=
    ⟨fun _ _ hpair k hy hx => hpair k hx hy⟩
  exact hdistinct.forall hb hb' hne k h h'

theorem find_of_accepted (hb : b ∈ blocks) (h : Key.fromHex b.key = .ok k) :
    (blocks.reverse.find? fun b => b.accepted = some k) = some b := by
  cases hfind : blocks.reverse.find? fun b => b.accepted = some k with
  | none =>
    have hnot := List.find?_eq_none.mp hfind b (List.mem_reverse.mpr hb)
    exact absurd (decide_eq_true (accepted_eq_some_iff.mpr h)) hnot
  | some b' =>
    have hb' := List.mem_reverse.mp (List.mem_of_find?_eq_some hfind)
    have h' := accepted_eq_some_iff.mp (of_decide_eq_true (List.find?_eq_some_iff_append.mp hfind).1)
    rw [block_unique hdistinct hb hb' h h']

end Exact

/-- The entry for the handshake is the exact number of milliseconds. -/
theorem Block.handshake_exact {b : Block} (hsec : 0 ≤ b.value .handshakeSec)
    (hmax : 1000 * (b.value .handshakeSec + 1) < 2 ^ 63) (hnsec : 0 ≤ b.value .handshakeNsec)
    (hbillion : b.value .handshakeNsec < 1000000000) :
    b.stats.latestHandshakeEpochMillis =
      b.value .handshakeSec * 1000 + b.value .handshakeNsec / 1000000 := by
  rw [Block.stats, Int.tdiv_eq_ediv_of_nonneg hnsec]
  exact Int.bmod_eq_of_le (by omega) (by omega)

/-- The statistics of the running tunnel are those of the blocks with hexadecimal keys, exactly when no
key has 64 characters that all pass `fromHex` although one of them is wide. -/
theorem getStatistics_exact_iff {T C : Type} [DecidableEq T] {wgGetConfig : Int → Option JString}
    {w : World T C} {tunnel : T} {device : List JString} {blocks : List Block}
    (htunnel : w.currentTunnel = some tunnel) (hhandle : w.currentTunnelHandle ≠ -1)
    (hreply : wgGetConfig w.currentTunnelHandle = some (reply device blocks))
    (hdevice : ∀ l ∈ device, LF ∉ l ∧ ¬ StatLine.publicKey.start <+: l)
    (hdistinct : blocks.Pairwise fun b b' => ∀ k, Key.fromHex b.key = .ok k → Key.fromHex b'.key ≠ .ok k) :
    (ExactStatistics (getStatistics wgGetConfig w tunnel) blocks ↔
      ∀ b ∈ blocks, b.key.length = 64 → (∀ c ∈ b.key, Key.PassesHex c) → ∀ c ∈ b.key, c < 256) ∧
    ∀ b ∈ blocks, 0 ≤ b.value .handshakeSec → 1000 * (b.value .handshakeSec + 1) < 2 ^ 63 →
      0 ≤ b.value .handshakeNsec → b.value .handshakeNsec < 1000000000 →
        b.stats.latestHandshakeEpochMillis =
          b.value .handshakeSec * 1000 + b.value .handshakeNsec / 1000000 := by
  refine ⟨?_, fun b _ => Block.handshake_exact⟩
  have hstats : getStatistics wgGetConfig w tunnel = readStatistics (reply device blocks) := by
    unfold getStatistics
    rw [if_neg (by simp [htunnel, hhandle]), hreply]
  rw [hstats]
  constructor
  · intro hexact b hb
    refine Key.accepts_only_isHexKey_iff.mp fun k hk => ?_
    by_contra hnot
    have hnone := hexact.only k fun b' hb' hhex hk' =>
      hnot (block_unique hdistinct hb hb' hk hk' ▸ hhex)
    rw [lookup_readStatistics hdevice, find_of_accepted hdistinct hb hk] at hnone
    cases hnone
  · intro hnarrow
    refine ⟨fun b hb _ k hk => ?_, fun k hk => ?_⟩
    · rw [lookup_readStatistics hdevice, find_of_accepted hdistinct hb hk, Option.map_some]
    · have hfind : (blocks.reverse.find? fun b => b.accepted = some k) = none := by
        refine List.find?_eq_none.mpr fun b hb haccepted => ?_
        have hb := List.mem_reverse.mp hb
        have hok := accepted_eq_some_iff.mp (of_decide_eq_true haccepted)
        exact hk b hb (Key.accepts_only_isHexKey_iff.mpr (hnarrow b hb) k hok) hok
      rw [lookup_readStatistics hdevice, hfind, Option.map_none]

theorem zeros_length : (List.replicate 32 (0 : UInt8)).length = 32 := rfl

def zeroKey : Key := ⟨List.replicate 32 0, zeros_length⟩

theorem lf_not_mem_toHex {k : Key} : LF ∉ k.toHex :=
  fun h => absurd (k.isHexKey_toHex.2 LF h) (by decide)

def sampleLines : List JString :=
  [text "last_handshake_time_nsec=7000000", text "rx_bytes=5", text "allowed_ip=192.0.2.0/24",
    text "last_handshake_time_sec=2"]

theorem sampleLines_unbroken : ∀ l ∈ sampleLines, LF ∉ l := by decide

theorem sampleLines_no_key : ∀ l ∈ sampleLines, ¬ StatLine.publicKey.start <+: l := by decide

theorem sampleLines_once :
    sampleLines.Pairwise fun l l' => ∀ k : StatLine, k.start <+: l → ¬ k.start <+: l' := by
  refine .cons ?_ (.cons ?_ (.cons ?_ (.cons ?_ .nil)))
  all_goals
    intro l' hl' k
    revert l'
    cases k <;> decide

theorem sampleLines_numbers :
    ∀ l ∈ sampleLines, ∀ k : StatLine, k.start <+: l → parseLong (k.value l) ≠ none := by
  intro l hl k
  revert l
  cases k <;> decide

def sampleBlock : Block where
  key := zeroKey.toHex
  lines := sampleLines
  key_unbroken := lf_not_mem_toHex
  lines_unbroken := sampleLines_unbroken
  no_key := sampleLines_no_key
  once := sampleLines_once
  numbers := sampleLines_numbers

def sampleWorld : World Unit Unit := ⟨some (), some (), 0, none, [], []⟩

/-- The Go library, with one peer. -/
def sampleGet (_ : Int) : Option JString := some (reply [text "listen_port=51820"] [sampleBlock])

theorem getStatistics_sample :
    (getStatistics sampleGet sampleWorld ()).lookup zeroKey = some ⟨5, 0, 2007⟩ := by
  have hreply : sampleGet sampleWorld.currentTunnelHandle =
      some (reply [text "listen_port=51820"] [sampleBlock]) := rfl
  have hdevice : ∀ l ∈ [text "listen_port=51820"], LF ∉ l ∧ ¬ StatLine.publicKey.start <+: l := by
    decide
  have hnarrow : ∀ b ∈ [sampleBlock], b.key.length = 64 → (∀ c ∈ b.key, Key.PassesHex c) →
      ∀ c ∈ b.key, c < 256 := by
    intro b hb _ _ c hc
    cases List.mem_singleton.mp hb
    exact Key.narrow_of_isHexDigit (zeroKey.isHexKey_toHex.2 c hc)
  have hexact := (getStatistics_exact_iff rfl (by decide) hreply hdevice
    (List.pairwise_singleton ..)).1.mpr hnarrow
  exact hexact.entry sampleBlock List.mem_cons_self zeroKey.isHexKey_toHex zeroKey
    zeroKey.fromHex_toHex

theorem lf_not_mem_wide : LF ∉ List.replicate 64 (0x0100 : UInt16) := by decide

/-- A block whose key is 64 letters U+0100. -/
def wideBlock : Block where
  key := List.replicate 64 0x0100
  lines := []
  key_unbroken := lf_not_mem_wide
  lines_unbroken := List.forall_mem_nil _
  no_key := List.forall_mem_nil _
  once := .nil
  numbers := List.forall_mem_nil _

/-- The block gives the key of zeros an entry. -/
theorem getStatistics_wide :
    ¬ Key.IsHexKey wideBlock.key ∧
      (getStatistics (fun _ => some (reply [] [wideBlock])) sampleWorld ()).lookup zeroKey =
        some ⟨0, 0, 0⟩ := by
  refine ⟨fun h => absurd (h.2 0x0100 (by decide)) (by decide), ?_⟩
  have haccepted : wideBlock.accepted = some zeroKey := by decide
  have hfind : ([wideBlock].reverse.find? fun b => b.accepted = some zeroKey) = some wideBlock :=
    List.find?_cons_of_pos (decide_eq_true haccepted)
  show (readStatistics (reply [] [wideBlock])).lookup zeroKey = _
  rw [lookup_readStatistics (List.forall_mem_nil _), hfind]
  rfl

end WgAndroid.GoBackend
