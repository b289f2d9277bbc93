import Mathlib.Data.List.Perm.Basic

/-!
# Interleaved coroutines

Calls that share a state and run in pieces: a call runs to its first suspension point when it is
issued, and from there to the next one each time it is resumed with the outcome of the operation
it waits for. A machine is the shared state with the pool of suspended calls, and a run is any
order of issuing and resuming. A discipline restricts which calls may be issued and which outcomes
may come back; a run obeys it when each of its steps does.

Results:
1. `Invariant.run`: what issuing and resuming keep, every run that obeys the discipline keeps.
2. `Invariant.and`: an invariant may rely on another one.
-/

namespace Interleaving

/-- Where a piece of a call ended: at a suspension point, or at the end of the call. -/
inductive Progress (T R : Type) where
  | suspended (t : T)
  | finished (r : R)

/-- What a piece of a call leaves in the pool. -/
def Progress.pool {T R : Type} : Progress T R → List T
  | suspended t => [t]
  | finished _ => []

@[simp] theorem Progress.pool_suspended {T R : Type} {t : T} :
    (suspended t : Progress T R).pool = [t] := rfl

@[simp] theorem Progress.pool_finished {T R : Type} {r : R} :
    (finished r : Progress T R).pool = [] := rfl

/-- The code of the calls `C` over a state `S`. A suspended call is a `T`, an outcome of what it
waits for is an `O`, and `resume` is undefined on an outcome that cannot come back there. -/
structure System (S C T O R : Type) where
  start : S → C → S × Progress T R
  resume : S → T → O → Option (S × Progress T R)

inductive Event (C O : Type) where
  | start (c : C)
  | resume (i : Nat) (o : O)

structure Machine (S T : Type) where
  shared : S
  pool : List T

/-- The calls that may be issued, given the state and the pool, and the outcomes that may come
back to a suspended call. -/
structure Discipline (S C T O : Type) where
  start : S → List T → C → Prop
  resume : S → T → O → Prop

variable {S C T O R : Type}

def step (M : System S C T O R) (m : Machine S T) : Event C O → Option (Machine S T)
  | .start c => some ⟨(M.start m.shared c).1, (M.start m.shared c).2.pool ++ m.pool⟩
  | .resume i o => do
    let t ← m.pool[i]?
    let p ← M.resume m.shared t o
    return ⟨p.1, p.2.pool ++ m.pool.eraseIdx i⟩

def run (M : System S C T O R) (m : Machine S T) (es : List (Event C O)) : Option (Machine S T) :=
  es.foldlM (step M) m

/-- The step that the event stands for meets the discipline. -/
def Discipline.Allows (D : Discipline S C T O) (m : Machine S T) : Event C O → Prop
  | .start c => D.start m.shared m.pool c
  | .resume i o => ∀ t ∈ m.pool[i]?, D.resume m.shared t o

/-- Every step of the run meets the discipline. -/
def Obeys (M : System S C T O R) (D : Discipline S C T O) (m : Machine S T) :
    List (Event C O) → Prop
  | [] => True
  | e :: es => D.Allows m e ∧ ∀ m' ∈ step M m e, Obeys M D m' es

instance decidableAllows (D : Discipline S C T O) [∀ s ts c, Decidable (D.start s ts c)]
    [∀ s t o, Decidable (D.resume s t o)] (m : Machine S T) : (e : Event C O) → Decidable (D.Allows m e)
  | .start c => inferInstanceAs (Decidable (D.start m.shared m.pool c))
  | .resume i o => inferInstanceAs (Decidable (∀ t ∈ m.pool[i]?, D.resume m.shared t o))

instance decidableObeys (M : System S C T O R) (D : Discipline S C T O)
    [∀ s ts c, Decidable (D.start s ts c)] [∀ s t o, Decidable (D.resume s t o)] :
    (m : Machine S T) → (es : List (Event C O)) → Decidable (Obeys M D m es)
  | _, [] => isTrue trivial
  | m, e :: es =>
    have : DecidablePred fun m' => Obeys M D m' es := fun m' => decidableObeys M D m' es
    inferInstanceAs (Decidable (D.Allows m e ∧ ∀ m' ∈ step M m e, Obeys M D m' es))

/-- A property of the state and the pool, whatever the order of the pool, that every step which
meets the discipline keeps. -/
structure Invariant (M : System S C T O R) (D : Discipline S C T O) (I : S → List T → Prop) :
    Prop where
  perm : ∀ {s ts ts'}, ts.Perm ts' → I s ts → I s ts'
  start : ∀ {s ts c}, I s ts → D.start s ts c → I (M.start s c).1 ((M.start s c).2.pool ++ ts)
  resume : ∀ {s t ts o p}, I s (t :: ts) → D.resume s t o → M.resume s t o = some p →
    I p.1 (p.2.pool ++ ts)

variable {M : System S C T O R} {D D' : Discipline S C T O} {I J : S → List T → Prop}
  {m m' : Machine S T} {e : Event C O} {es : List (Event C O)}

@[simp] theorem run_nil : run M m [] = some m := rfl

theorem run_cons : run M m (e :: es) = (step M m e).bind fun m' => run M m' es := by
  rw [run, List.foldlM_cons]
  rfl

theorem run_append {fs : List (Event C O)} :
    run M m (es ++ fs) = (run M m es).bind fun m' => run M m' fs := by
  rw [run, List.foldlM_append]
  rfl

theorem Invariant.step (h : Invariant M D I) (hm : I m.shared m.pool) (hD : D.Allows m e)
    (hstep : step M m e = some m') : I m'.shared m'.pool := by
  cases e with
  | start c =>
    cases hstep
    exact h.start hm hD
  | resume i o =>
    simp only [Interleaving.step, Option.bind_eq_bind, Option.bind_eq_some_iff] at hstep
    obtain ⟨t, ht, p, hp, hm'⟩ := hstep
    cases hm'
    -- the resumed call may stand anywhere in the pool; the invariant does not see where
    obtain ⟨hi, rfl⟩ := List.getElem?_eq_some_iff.mp ht
    have hfront : m.pool.Perm (m.pool[i] :: m.pool.eraseIdx i) :=
      (List.getElem_cons_eraseIdx_perm hi).symm
    exact h.resume (h.perm hfront hm) (hD _ ht) hp

/-- What issuing and resuming keep, every run that obeys the discipline keeps. -/
theorem Invariant.run (h : Invariant M D I) (hm : I m.shared m.pool) (hD : Obeys M D m es)
    (hrun : run M m es = some m') : I m'.shared m'.pool := by
  induction es generalizing m with
  | nil =>
    cases hrun
    exact hm
  | cons e es ih =>
    rw [run_cons, Option.bind_eq_some_iff] at hrun
    obtain ⟨m₁, hstep, hrun⟩ := hrun
    exact ih (h.step hm hD.1 hstep) (hD.2 m₁ hstep) hrun

/-- An invariant of a discipline is one of every stricter discipline. -/
theorem Invariant.mono (h : Invariant M D I)
    (hstart : ∀ {s ts c}, D'.start s ts c → D.start s ts c)
    (hresume : ∀ {s t o}, D'.resume s t o → D.resume s t o) : Invariant M D' I where
  perm := h.perm
  start hI hD := h.start hI (hstart hD)
  resume hI hD hp := h.resume hI (hresume hD) hp

/-- An invariant may rely on another one, before and after the step. -/
theorem Invariant.and (h : Invariant M D I)
    (hperm : ∀ {s ts ts'}, ts.Perm ts' → J s ts → J s ts')
    (hstart : ∀ {s ts c}, I s ts → J s ts → D.start s ts c →
      J (M.start s c).1 ((M.start s c).2.pool ++ ts))
    (hresume : ∀ {s t ts o p}, I s (t :: ts) → J s (t :: ts) → D.resume s t o →
      M.resume s t o = some p → J p.1 (p.2.pool ++ ts)) :
    Invariant M D fun s ts => I s ts ∧ J s ts where
  perm hp hIJ := ⟨h.perm hp hIJ.1, hperm hp hIJ.2⟩
  start hIJ hD := ⟨h.start hIJ.1 hD, hstart hIJ.1 hIJ.2 hD⟩
  resume hIJ hD hp := ⟨h.resume hIJ.1 hD hp, hresume hIJ.1 hIJ.2 hD hp⟩

/-- The events of a call that runs to its end while no other call is issued or resumed. -/
def alone (c : C) (os : List O) : List (Event C O) := .start c :: os.map (.resume 0)

/-- One piece of a call that runs alone. -/
theorem run_resume_alone {s : S} {t : T} {o : O} {p : S × Progress T R} (h : M.resume s t o = some p) :
    run M ⟨s, [t]⟩ (.resume 0 o :: es) = run M ⟨p.1, p.2.pool⟩ es := by
  have hstep : Interleaving.step M ⟨s, [t]⟩ (.resume 0 o) = some ⟨p.1, p.2.pool⟩ := by
    simp [Interleaving.step, h]
  rw [run_cons, hstep]
  rfl

/-- While a call runs alone, only what the discipline says about outcomes matters. -/
theorem obeys_resumes {os : List O} (h : Obeys M D m (os.map (.resume 0)))
    (hresume : ∀ {s t o}, D.resume s t o → D'.resume s t o) : Obeys M D' m (os.map (.resume 0)) := by
  induction os generalizing m with
  | nil => trivial
  | cons o os ih => exact ⟨fun t ht => hresume (h.1 t ht), fun m' hm' => ih (h.2 m' hm')⟩

end Interleaving
