import Mathlib.Tactic.Common

/-!
# Routines that throw and keep their state

Imperative code with exceptions: what was assigned before a `throw` stays assigned. The rules below
reason about such code with a precondition, a postcondition for its return and one for what it
throws.

Results:
1. `Triple.bind`, `Triple.tryCatch`, `Triple.ite`: the rules of the control structures.
2. `Triple.forM`: the rule of a loop over a list, with an invariant on what is done and what is left.
-/

/-- A computation that changes a state and returns a value or throws; the state stays changed. -/
def Routine (σ ε α : Type) : Type := σ → Except ε α × σ

namespace Routine

variable {σ ε α β : Type}

/-- What the routine does from a state: its outcome and the state after it. -/
def exec (a : Routine σ ε α) (s : σ) : Except ε α × σ := a s

/-- The second routine runs from the state that the first one left, if that returned. -/
def andThen (a : Routine σ ε α) (f : α → Routine σ ε β) : Routine σ ε β := fun s =>
  match a s with
  | (.ok x, s') => f x s'
  | (.error e, s') => (.error e, s')

/-- The handler runs from the state in which the routine threw. -/
def handle (a : Routine σ ε α) (f : ε → Routine σ ε α) : Routine σ ε α := fun s =>
  match a s with
  | (.ok x, s') => (.ok x, s')
  | (.error e, s') => f e s'

instance : Monad (Routine σ ε) where
  pure x := fun s => (.ok x, s)
  bind := andThen

instance : MonadExceptOf ε (Routine σ ε) where
  throw e := fun s => (.error e, s)
  tryCatch := handle

instance : MonadStateOf σ (Routine σ ε) where
  get := fun s => (.ok s, s)
  set s' := fun _ => (.ok (), s')
  modifyGet f := fun s => (.ok (f s).1, (f s).2)

/-- `if (!c) throw e;` -/
def require (c : Bool) (e : ε) : Routine σ ε Unit := if c then pure () else throw e

/-- A computation that does not touch the state. -/
def lift (x : Except ε α) : Routine σ ε α := fun s => (x, s)

/-! ## Execution -/

/-- How the execution of a compound routine goes on. -/
def next (f : α → Routine σ ε β) : Except ε α × σ → Except ε β × σ
  | (.ok x, s) => exec (f x) s
  | (.error e, s) => (.error e, s)

@[simp] theorem next_ok {f : α → Routine σ ε β} {x : α} {s : σ} : next f (.ok x, s) = exec (f x) s := rfl

@[simp] theorem next_error {f : α → Routine σ ε β} {e : ε} {s : σ} :
    next f (.error e, s) = (.error e, s) := rfl

@[simp] theorem exec_bind {a : Routine σ ε α} {f : α → Routine σ ε β} {s : σ} :
    exec (a >>= f) s = next f (exec a s) := by
  show andThen a f s = next f (a s)
  unfold andThen next
  rcases a s with ⟨e | x, s'⟩ <;> rfl

@[simp] theorem exec_pure {x : α} {s : σ} : exec (pure x : Routine σ ε α) s = (.ok x, s) := rfl

@[simp] theorem exec_throw {e : ε} {s : σ} : exec (throw e : Routine σ ε α) s = (.error e, s) := rfl

@[simp] theorem exec_get {s : σ} : exec (get : Routine σ ε σ) s = (.ok s, s) := rfl

@[simp] theorem exec_set {s s' : σ} : exec (set s' : Routine σ ε PUnit) s = (.ok ⟨⟩, s') := rfl

@[simp] theorem exec_modify {g : σ → σ} {s : σ} : exec (modify g : Routine σ ε PUnit) s = (.ok ⟨⟩, g s) := rfl

@[simp] theorem exec_require {c : Bool} {e : ε} {s : σ} :
    exec (require c e : Routine σ ε Unit) s = (if c then .ok () else .error e, s) := by
  cases c <;> rfl

@[simp] theorem exec_ite {c : Prop} [Decidable c] {a b : Routine σ ε α} {s : σ} :
    exec (if c then a else b) s = if c then exec a s else exec b s := by
  split <;> rfl

theorem exec_bind_ok {a : Routine σ ε α} {f : α → Routine σ ε β} {s s' : σ} {x : α}
    (h : exec a s = (.ok x, s')) : exec (a >>= f) s = exec (f x) s' := by
  show andThen a f s = f x s'
  unfold andThen
  rw [show a s = (.ok x, s') from h]

theorem exec_bind_error {a : Routine σ ε α} {f : α → Routine σ ε β} {s s' : σ} {e : ε}
    (h : exec a s = (.error e, s')) : exec (a >>= f) s = (.error e, s') := by
  show andThen a f s = _
  unfold andThen
  rw [show a s = (.error e, s') from h]

theorem exec_get_bind {f : σ → Routine σ ε α} {s : σ} : exec (get >>= f) s = exec (f s) s := rfl

theorem exec_tryCatch_ok {a : Routine σ ε α} {f : ε → Routine σ ε α} {s s' : σ} {x : α}
    (h : exec a s = (.ok x, s')) : exec (tryCatch a f) s = (.ok x, s') := by
  show handle a f s = _
  unfold handle
  rw [show a s = (.ok x, s') from h]

theorem exec_tryCatch_error {a : Routine σ ε α} {f : ε → Routine σ ε α} {s s' : σ} {e : ε}
    (h : exec a s = (.error e, s')) : exec (tryCatch a f) s = exec (f e) s' := by
  show handle a f s = f e s'
  unfold handle
  rw [show a s = (.error e, s') from h]

/-! ## Triples -/

/-- What an outcome says of the state it leaves. -/
def Post (Q : α → σ → Prop) (E : ε → σ → Prop) : Except ε α × σ → Prop
  | (.ok x, s) => Q x s
  | (.error e, s) => E e s

/-- From a state with `P` the routine returns a value with `Q` or throws an exception with `E`. -/
def Triple (P : σ → Prop) (a : Routine σ ε α) (Q : α → σ → Prop) (E : ε → σ → Prop) : Prop :=
  ∀ s, P s → Post Q E (exec a s)

variable {P P' : σ → Prop} {Q Q' : α → σ → Prop} {R : β → σ → Prop} {E E' : ε → σ → Prop}
  {a b : Routine σ ε α}

theorem Triple.ok (h : Triple P a Q E) {s s' : σ} {x : α} (hexec : exec a s = (.ok x, s')) (hs : P s) :
    Q x s' := by
  have hpost := h s hs
  rwa [hexec] at hpost

theorem Triple.error (h : Triple P a Q E) {s s' : σ} {e : ε} (hexec : exec a s = (.error e, s'))
    (hs : P s) : E e s' := by
  have hpost := h s hs
  rwa [hexec] at hpost

theorem Triple.consequence (h : Triple P a Q E) (hP : ∀ s, P' s → P s) (hQ : ∀ x s, Q x s → Q' x s)
    (hE : ∀ e s, E e s → E' e s) : Triple P' a Q' E' := by
  intro s hs
  rcases hexec : exec a s with ⟨e | x, s'⟩
  · exact hE e s' (h.error hexec (hP s hs))
  · exact hQ x s' (h.ok hexec (hP s hs))

theorem Triple.trivial (hQ : ∀ x s, Q x s) (hE : ∀ e s, E e s) : Triple P a Q E := by
  intro s _
  rcases hexec : exec a s with ⟨e | x, s'⟩
  · exact hE e s'
  · exact hQ x s'

theorem Triple.pure {x : α} (h : ∀ s, P s → Q x s) : Triple P (Pure.pure x) Q E := h

theorem Triple.throw {e : ε} (h : ∀ s, P s → E e s) :
    Triple P (throw e : Routine σ ε α) Q E := h

theorem Triple.modify {f : σ → σ} {Q : Unit → σ → Prop} (h : ∀ s, P s → Q () (f s)) :
    Triple P (modify f : Routine σ ε Unit) Q E := h

/-- The rest does not need to know that what was read is the state. -/
theorem Triple.read {f : σ → Routine σ ε α} (h : ∀ s₀, P s₀ → Triple P (f s₀) Q E) :
    Triple P (get >>= f) Q E := fun s hs => h s hs s hs

/-- What was read is the state from which the rest runs. -/
theorem Triple.get {f : σ → Routine σ ε α} (h : ∀ s₀, P s₀ → Triple (· = s₀) (f s₀) Q E) :
    Triple P (get >>= f) Q E := fun s hs => h s hs s rfl

theorem Triple.bind {f : α → Routine σ ε β} (ha : Triple P a Q E) (hf : ∀ x, Triple (Q x) (f x) R E) :
    Triple P (a >>= f) R E := by
  intro s hs
  rcases hexec : exec a s with ⟨e | x, s'⟩
  · rw [exec_bind_error hexec]
    exact ha.error hexec hs
  · rw [exec_bind_ok hexec]
    exact hf x s' (ha.ok hexec hs)

theorem Triple.tryCatch {f : ε → Routine σ ε α} (ha : Triple P a Q E')
    (hf : ∀ e, Triple (E' e) (f e) Q E) : Triple P (tryCatch a f) Q E := by
  intro s hs
  rcases hexec : exec a s with ⟨e | x, s'⟩
  · rw [exec_tryCatch_error hexec]
    exact hf e s' (ha.error hexec hs)
  · rw [exec_tryCatch_ok hexec]
    exact ha.ok hexec hs

theorem Triple.ite {c : Prop} [Decidable c] (ha : c → Triple P a Q E) (hb : ¬ c → Triple P b Q E) :
    Triple P (if c then a else b) Q E := by
  split
  · next hc => exact ha hc
  · next hc => exact hb hc

/-- A check changes nothing. -/
theorem Triple.require {c : Bool} {e : ε} {Q : Unit → σ → Prop} (hQ : ∀ s, P s → c = true → Q () s)
    (hE : ∀ s, P s → c = false → E e s) : Triple P (Routine.require c e) Q E := by
  unfold Routine.require
  exact Triple.ite (fun hc => Triple.pure fun s hs => hQ s hs hc) fun hc =>
    Triple.throw fun s hs => hE s hs (Bool.eq_false_iff.mpr hc)

theorem Triple.lift {x : Except ε α} (hQ : ∀ s y, P s → x = .ok y → Q y s)
    (hE : ∀ s e, P s → x = .error e → E e s) : Triple P (Routine.lift x) Q E := by
  intro s hs
  cases x with
  | error e => exact hE s e hs rfl
  | ok y => exact hQ s y hs rfl

/-! ## What a routine keeps -/

/-- What holds before holds after, whether the routine returns or throws. -/
def Keeps (P : σ → Prop) (a : Routine σ ε α) : Prop := Triple P a (fun _ => P) fun _ => P

theorem Keeps.of_exec (h : Keeps P a) {s s' : σ} {r : Except ε α} (hexec : exec a s = (r, s')) (hs : P s) :
    P s' := by
  cases r with
  | error e => exact Triple.error h hexec hs
  | ok x => exact Triple.ok h hexec hs

theorem Keeps.exec (h : Keeps P a) {s : σ} (hs : P s) : P (exec a s).2 := h.of_exec rfl hs

theorem Keeps.triple {E : σ → Prop} (h : Keeps P a) (hE : ∀ s, P s → E s) :
    Triple P a (fun _ => P) fun _ => E :=
  Triple.consequence h (fun _ => id) (fun _ _ => id) fun _ => hE

theorem Keeps.pure {x : α} : Keeps P (Pure.pure x : Routine σ ε α) := Triple.pure fun _ => id

theorem Keeps.throw {e : ε} : Keeps P (throw e : Routine σ ε α) := Triple.throw fun _ => id

theorem Keeps.require {c : Bool} {e : ε} : Keeps P (Routine.require c e : Routine σ ε Unit) :=
  Triple.require (fun _ hs _ => hs) fun _ hs _ => hs

/-! ## Loops -/

/-- A loop over a list, with an invariant on what is done and what is left. -/
theorem Triple.forM {γ : Type} {f : γ → Routine σ ε Unit} (I : List γ → List γ → σ → Prop)
    (hf : ∀ done x left, Triple (I done (x :: left)) (f x) (fun _ => I (done ++ [x]) left) E)
    (xs : List γ) :
    Triple (I [] xs) (xs.forM f) (fun _ => I xs []) E := by
  suffices h : ∀ done, Triple (I done xs) (xs.forM f) (fun _ => I (done ++ xs) []) E from h []
  intro done
  induction xs generalizing done with
  | nil =>
    rw [List.append_nil]
    exact Triple.pure fun _ => id
  | cons x xs ih =>
    refine Triple.bind (hf done x xs) fun _ => ?_
    have hrest := ih (done ++ [x])
    rwa [List.append_assoc] at hrest

end Routine
