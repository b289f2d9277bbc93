import Mathlib.Data.List.Forall2

/-!
# Checked computations

Inversion of computations in `Except`: what is known when one returned a value, or threw.

Results:
1. `mapM_eq_ok`: a `mapM` that returned is a list of calls that returned.
2. `foldlM_invariant`: what every step keeps, a whole `foldlM` keeps.
3. `foldlM_eq_error`: a `foldlM` that threw is one step that threw, after steps that returned.
-/

namespace Checked

variable {ε ε' α β σ : Type}

@[simp] theorem ok_bind {a : α} {f : α → Except ε β} : (Except.ok a >>= f) = f a := rfl

@[simp] theorem error_bind {e : ε} {f : α → Except ε β} : (Except.error e >>= f) = .error e := rfl

@[simp] theorem bind_eq_ok {x : Except ε α} {f : α → Except ε β} {b : β} :
    (x >>= f) = .ok b ↔ ∃ a, x = .ok a ∧ f a = .ok b := by
  cases x with
  | error e => simp [bind, Except.bind]
  | ok a => simp [bind, Except.bind]

@[simp] theorem mapError_eq_ok {x : Except ε α} {f : ε → ε'} {a : α} :
    x.mapError f = .ok a ↔ x = .ok a := by
  cases x <;> simp [Except.mapError]

theorem toOption_eq_some {x : Except ε α} {a : α} : x.toOption = some a ↔ x = .ok a := by
  cases x <;> simp [Except.toOption]

theorem mapError_bind {x : Except ε α} {f : α → Except ε β} {g : ε → ε'} :
    (x >>= f).mapError g = x.mapError g >>= fun a => (f a).mapError g := by
  cases x with
  | error e => rfl
  | ok a => rfl

theorem map_eq_ok {x : Except ε α} {f : α → β} {b : β} (h : x.map f = .ok b) :
    ∃ a, x = .ok a ∧ f a = b := by
  cases x with
  | error e => cases h
  | ok a => exact ⟨a, rfl, Except.ok.inj h⟩

/-- A `mapM` that returned is a list of calls that returned. -/
theorem mapM_eq_ok {f : α → Except ε β} {xs : List α} {ys : List β} :
    xs.mapM f = .ok ys ↔ List.Forall₂ (fun x y => f x = .ok y) xs ys := by
  induction xs generalizing ys with
  | nil =>
    rw [List.mapM_nil, List.forall₂_nil_left_iff]
    exact ⟨fun h => by cases h; rfl, fun h => by rw [h]; rfl⟩
  | cons x xs ih =>
    rw [List.mapM_cons]
    simp only [bind_eq_ok, ih]
    constructor
    · rintro ⟨y, hy, ys', hys, h⟩
      cases h
      exact .cons hy hys
    · rintro (_ | ⟨hy, hys⟩)
      exact ⟨_, hy, _, hys, rfl⟩

/-- All of the results, in order. -/
theorem mapM_eq_filterMap {f : α → Except ε β} {xs : List α} {ys : List β} (h : xs.mapM f = .ok ys) :
    ys = xs.filterMap fun x => (f x).toOption := by
  rw [mapM_eq_ok] at h
  induction h with
  | nil => rfl
  | cons hxy _ ih => rw [List.filterMap_cons, hxy, ih]; rfl

theorem exists_mapM_eq_ok {f : α → Except ε β} {xs : List α} (h : ∀ x ∈ xs, ∃ y, f x = .ok y) :
    ∃ ys, xs.mapM f = .ok ys := by
  induction xs with
  | nil => exact ⟨[], mapM_eq_ok.mpr .nil⟩
  | cons x xs ih =>
    obtain ⟨y, hy⟩ := h x List.mem_cons_self
    obtain ⟨ys, hys⟩ := ih fun z hz => h z (List.mem_cons_of_mem _ hz)
    exact ⟨y :: ys, mapM_eq_ok.mpr (.cons hy (mapM_eq_ok.mp hys))⟩

theorem mapM_eq_some {f : α → Option β} {g : α → β} {xs : List α} (h : ∀ x ∈ xs, f x = some (g x)) :
    xs.mapM f = some (xs.map g) := by
  induction xs with
  | nil => rfl
  | cons x xs ih =>
    rw [List.mapM_cons, h x List.mem_cons_self, ih fun y hy => h y (List.mem_cons_of_mem _ hy)]
    rfl

theorem forall₂_of_mapM_eq_some {f : α → Option β} {xs : List α} {ys : List β}
    (h : xs.mapM f = some ys) : List.Forall₂ (fun x y => f x = some y) xs ys := by
  induction xs generalizing ys with
  | nil =>
    cases h
    exact .nil
  | cons x xs ih =>
    simp only [List.mapM_cons, Option.bind_eq_bind, Option.bind_eq_some_iff] at h
    obtain ⟨y, hy, ys', hys, h⟩ := h
    cases h
    exact .cons hy (ih hys)

theorem exists_of_mem_right {R : α → β → Prop} {xs : List α} {ys : List β}
    (h : List.Forall₂ R xs ys) {y : β} (hy : y ∈ ys) : ∃ x ∈ xs, R x y := by
  induction h with
  | nil => cases hy
  | cons hxy _ ih =>
    rcases List.mem_cons.mp hy with rfl | hy
    · exact ⟨_, List.mem_cons_self, hxy⟩
    · obtain ⟨x, hx, h⟩ := ih hy
      exact ⟨x, List.mem_cons_of_mem _ hx, h⟩

theorem exists_of_mem_left {R : α → β → Prop} {xs : List α} {ys : List β}
    (h : List.Forall₂ R xs ys) {x : α} (hx : x ∈ xs) : ∃ y ∈ ys, R x y :=
  exists_of_mem_right h.flip hx

/-- What every step keeps, a whole `foldlM` keeps. The relation also sees the inputs that were
consumed. -/
theorem foldlM_invariant {f : σ → α → Except ε σ} (R : σ → List α → σ → Prop)
    (hnil : ∀ s, R s [] s)
    (hcons : ∀ {s t u x xs}, f s x = .ok t → R t xs u → R s (x :: xs) u)
    {s u : σ} {xs : List α} (h : xs.foldlM f s = .ok u) : R s xs u := by
  induction xs generalizing s with
  | nil => cases h; exact hnil _
  | cons x xs ih =>
    rw [List.foldlM_cons, bind_eq_ok] at h
    obtain ⟨t, ht, h⟩ := h
    exact hcons ht (ih h)

/-- The same for a `foldlM` of partial steps. -/
theorem foldlM_some_invariant {f : σ → α → Option σ} (R : σ → List α → σ → Prop)
    (hnil : ∀ s, R s [] s)
    (hcons : ∀ {s t u x xs}, f s x = some t → R t xs u → R s (x :: xs) u)
    {s u : σ} {xs : List α} (h : xs.foldlM f s = some u) : R s xs u := by
  induction xs generalizing s with
  | nil => cases h; exact hnil _
  | cons x xs ih =>
    rw [List.foldlM_cons, Option.bind_eq_bind, Option.bind_eq_some_iff] at h
    obtain ⟨t, ht, h⟩ := h
    exact hcons ht (ih h)

/-! ## Computations that threw -/

theorem bind_eq_error {x : Except ε α} {f : α → Except ε β} {e : ε} :
    (x >>= f) = .error e ↔ x = .error e ∨ ∃ a, x = .ok a ∧ f a = .error e := by
  cases x <;> simp [bind, Except.bind]

theorem map_eq_error {x : Except ε α} {f : α → β} {e : ε} : x.map f = .error e ↔ x = .error e := by
  cases x <;> simp [Except.map]

theorem mapError_eq_error {x : Except ε α} {f : ε → ε'} {e : ε'} :
    x.mapError f = .error e ↔ ∃ e', x = .error e' ∧ f e' = e := by
  cases x <;> simp [Except.mapError]

theorem exists_of_mapM_eq_error {f : α → Except ε β} {xs : List α} {e : ε} (h : xs.mapM f = .error e) :
    ∃ x ∈ xs, f x = .error e := by
  induction xs with
  | nil => cases h
  | cons x xs ih =>
    rw [List.mapM_cons, bind_eq_error] at h
    rcases h with hx | ⟨y, -, h⟩
    · exact ⟨x, List.mem_cons_self, hx⟩
    · rcases bind_eq_error.mp h with hxs | ⟨ys, -, h⟩
      · obtain ⟨x', hmem, hx'⟩ := ih hxs
        exact ⟨x', List.mem_cons_of_mem _ hmem, hx'⟩
      · cases h

/-- A `foldlM` that threw is one step that threw, after steps that returned. -/
theorem foldlM_eq_error {f : σ → α → Except ε σ} {s : σ} {xs : List α} {e : ε} :
    xs.foldlM f s = .error e ↔
      ∃ pre x post t, xs = pre ++ x :: post ∧ pre.foldlM f s = .ok t ∧ f t x = .error e := by
  constructor
  · intro h
    induction xs generalizing s with
    | nil => cases h
    | cons x xs ih =>
      rw [List.foldlM_cons, bind_eq_error] at h
      rcases h with hx | ⟨t, ht, h⟩
      · exact ⟨[], x, xs, s, rfl, rfl, hx⟩
      · obtain ⟨pre, y, post, u, rfl, hpre, hy⟩ := ih h
        exact ⟨x :: pre, y, post, u, rfl, by rw [List.foldlM_cons, ht]; exact hpre, hy⟩
  · rintro ⟨pre, x, post, t, rfl, hpre, hx⟩
    rw [List.foldlM_append, hpre, ok_bind, List.foldlM_cons, hx]
    rfl

end Checked
