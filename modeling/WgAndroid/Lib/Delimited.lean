import Mathlib.Data.List.DropRight

/-!
# Delimited lists

Lists cut at a separator, with blanks around the separator dropped, and the way back from the
pieces to the list. Nothing here knows what the elements are.

Results:
1. `splitTrimmed_intercalate`: joining with the separator and one blank, then splitting, gives the
   pieces back, for pieces that hold no separator, are stripped and do not end in an empty one.
2. `sep_not_mem_piece`, `mem_of_mem_piece`, `piece_head`: what every piece of a split is like.
3. `piece_last`: every piece but the last one of a list that ends in no blank is stripped.
-/

namespace Delimited

variable {α : Type}

/-- No element of the list satisfies `blank` at either end. -/
def Stripped (blank : α → Bool) (l : List α) : Prop :=
  (∀ c ∈ l.head?, blank c = false) ∧ ∀ c ∈ l.getLast?, blank c = false

instance (blank : α → Bool) (l : List α) : Decidable (Stripped blank l) :=
  inferInstanceAs (Decidable ((∀ c ∈ l.head?, blank c = false) ∧ ∀ c ∈ l.getLast?, blank c = false))

/-- `l` without the blanks at its two ends. -/
def strip (blank : α → Bool) (l : List α) : List α :=
  (l.dropWhile blank).rdropWhile blank

/-- The pieces after the first one: blanks go on both sides, except after the last piece, which no
separator follows. -/
def trimRest (blank : α → Bool) : List (List α) → List (List α)
  | [] => []
  | [p] => [p.dropWhile blank]
  | p :: q :: r => strip blank p :: trimRest blank (q :: r)

/-- Split at every `sep` together with the blanks on both sides of it. Trailing empty pieces are
dropped, unless there is no `sep` at all: then the whole list is the one piece. -/
def splitTrimmed [BEq α] (blank : α → Bool) (sep : α) (l : List α) : List (List α) :=
  match l.splitOn sep with
  | [] => []
  | [p] => [p]
  | p :: rest => (p.rdropWhile blank :: trimRest blank rest).rdropWhile List.isEmpty

/-! ## Ends of a list -/

theorem dropWhile_of_head {blank : α → Bool} {l : List α} (h : ∀ c ∈ l.head?, blank c = false) :
    l.dropWhile blank = l := by
  cases l with
  | nil => rfl
  | cons c l => simp [h c rfl]

theorem rdropWhile_of_getLast {blank : α → Bool} {l : List α}
    (h : ∀ c ∈ l.getLast?, blank c = false) : l.rdropWhile blank = l := by
  rw [List.rdropWhile_eq_self_iff]
  intro hl
  simp [h _ (List.getLast?_eq_getLast_of_ne_nil hl)]

theorem getLast_rdropWhile {blank : α → Bool} {l : List α} :
    ∀ c ∈ (l.rdropWhile blank).getLast?, blank c = false := by
  intro c hc
  have hne : l.rdropWhile blank ≠ [] := by
    rintro h
    simp [h] at hc
  rw [List.getLast?_eq_getLast_of_ne_nil hne] at hc
  have := List.rdropWhile_last_not blank l hne
  cases hc
  simpa using this

theorem head_dropWhile {blank : α → Bool} {l : List α} :
    ∀ c ∈ (l.dropWhile blank).head?, blank c = false := by
  induction l with
  | nil => simp
  | cons a l ih =>
    cases h : blank a with
    | true => simpa [List.dropWhile_cons, h] using ih
    | false => simp [h]

theorem head_rdropWhile {blank cut : α → Bool} {l : List α}
    (h : ∀ c ∈ l.head?, blank c = false) : ∀ c ∈ (l.rdropWhile cut).head?, blank c = false := by
  intro c hc
  obtain ⟨t, ht⟩ := List.rdropWhile_prefix cut l
  refine h c ?_
  rw [← ht]
  exact List.mem_head?_append_of_mem_head? hc

theorem strip_stripped (blank : α → Bool) (l : List α) : Stripped blank (strip blank l) :=
  ⟨head_rdropWhile head_dropWhile, getLast_rdropWhile⟩

theorem strip_of_stripped {blank : α → Bool} {l : List α} (h : Stripped blank l) :
    strip blank l = l := by
  unfold strip
  rw [dropWhile_of_head h.1, rdropWhile_of_getLast h.2]

theorem mem_of_mem_rdropWhile {blank : α → Bool} {l : List α} {c : α}
    (h : c ∈ l.rdropWhile blank) : c ∈ l :=
  (List.rdropWhile_prefix blank l).subset h

theorem mem_of_mem_strip {blank : α → Bool} {l : List α} {c : α} (h : c ∈ strip blank l) :
    c ∈ l :=
  List.dropWhile_subset _ (mem_of_mem_rdropWhile h)

/-! ## Pieces between separators -/

section Pieces

variable [BEq α] [LawfulBEq α]

/-- Every piece of a plain split avoids the separator and is made of elements of the list. -/
theorem mem_splitOn {sep : α} {l p : List α} (h : p ∈ l.splitOn sep) :
    sep ∉ p ∧ ∀ c ∈ p, c ∈ l := by
  induction l generalizing p with
  | nil =>
    simp only [List.splitOn_nil, List.mem_singleton] at h
    subst h
    exact ⟨List.not_mem_nil, fun _ hc => hc⟩
  | cons a l ih =>
    rw [List.splitOn_cons_eq_if_modifyHead] at h
    split at h
    · cases h with
      | head => exact ⟨List.not_mem_nil, fun _ hc => absurd hc List.not_mem_nil⟩
      | tail _ h => exact ⟨(ih h).1, fun c hc => List.mem_cons_of_mem _ ((ih h).2 c hc)⟩
    · next ha =>
      cases hs : l.splitOn sep with
      | nil => exact absurd hs (List.splitOn_ne_nil _ _)
      | cons q qs =>
        rw [hs, List.modifyHead_cons] at h
        cases h with
        | head =>
          obtain ⟨hq, hsub⟩ := ih (p := q) (by rw [hs]; exact List.mem_cons_self)
          refine ⟨?_, ?_⟩
          · intro hm
            cases hm with
            | head => exact ha (BEq.refl _)
            | tail _ hm => exact hq hm
          · intro c hc
            cases hc with
            | head => exact List.mem_cons_self
            | tail _ hc => exact List.mem_cons_of_mem _ (hsub c hc)
        | tail _ h =>
          obtain ⟨hq, hsub⟩ := ih (p := p) (by rw [hs]; exact List.mem_cons_of_mem _ h)
          exact ⟨hq, fun c hc => List.mem_cons_of_mem _ (hsub c hc)⟩

omit [BEq α] [LawfulBEq α] in
theorem mem_trimRest {blank : α → Bool} {ps : List (List α)} {p : List α}
    (h : p ∈ trimRest blank ps) :
    (∀ c ∈ p.head?, blank c = false) ∧ ∃ q ∈ ps, ∀ c ∈ p, c ∈ q := by
  induction ps with
  | nil => exact absurd h List.not_mem_nil
  | cons q ps ih =>
    cases ps with
    | nil =>
      simp only [trimRest, List.mem_singleton] at h
      subst h
      exact ⟨head_dropWhile, q, List.mem_cons_self, fun c hc => List.dropWhile_subset _ hc⟩
    | cons r rs =>
      rw [trimRest, List.mem_cons] at h
      rcases h with rfl | h
      · exact ⟨(strip_stripped blank q).1, q, List.mem_cons_self, fun c hc => mem_of_mem_strip hc⟩
      · obtain ⟨hb, q', hq', hc⟩ := ih h
        exact ⟨hb, q', List.mem_cons_of_mem _ hq', hc⟩

omit [LawfulBEq α] in
/-- What a piece of `splitTrimmed` is made of: some piece of the plain split holds its elements. -/
theorem mem_splitTrimmed {blank : α → Bool} {sep : α} {l p : List α}
    (h : p ∈ splitTrimmed blank sep l) : ∃ q ∈ l.splitOn sep, ∀ c ∈ p, c ∈ q := by
  unfold splitTrimmed at h
  split at h
  · exact absurd h List.not_mem_nil
  · next q hq =>
    rw [List.mem_singleton] at h
    subst h
    exact ⟨p, by rw [hq]; exact List.mem_cons_self, fun _ hc => hc⟩
  · next q rest _ hq =>
    have h' := mem_of_mem_rdropWhile h
    rw [List.mem_cons] at h'
    rcases h' with rfl | h'
    · exact ⟨q, by rw [hq]; exact List.mem_cons_self, fun c hc => mem_of_mem_rdropWhile hc⟩
    · obtain ⟨_, q', hq', hc⟩ := mem_trimRest h'
      exact ⟨q', by rw [hq]; exact List.mem_cons_of_mem _ hq', hc⟩

theorem sep_not_mem_piece {blank : α → Bool} {sep : α} {l p : List α}
    (h : p ∈ splitTrimmed blank sep l) : sep ∉ p := by
  obtain ⟨q, hq, hc⟩ := mem_splitTrimmed h
  exact fun hs => (mem_splitOn hq).1 (hc sep hs)

theorem mem_of_mem_piece {blank : α → Bool} {sep : α} {l p : List α}
    (h : p ∈ splitTrimmed blank sep l) {c : α} (hc : c ∈ p) : c ∈ l := by
  obtain ⟨q, hq, hsub⟩ := mem_splitTrimmed h
  exact (mem_splitOn hq).2 c (hsub c hc)

/-- A piece starts with no blank, provided the list itself does not. -/
theorem piece_head {blank : α → Bool} {sep : α} {l p : List α}
    (hl : ∀ c ∈ l.head?, blank c = false) (h : p ∈ splitTrimmed blank sep l) :
    ∀ c ∈ p.head?, blank c = false := by
  have hfirst : ∀ q qs, l.splitOn sep = q :: qs → ∀ c ∈ q.head?, blank c = false := by
    intro q qs hq c hc
    have hj : [sep].intercalate (l.splitOn sep) = l := List.intercalate_splitOn sep
    refine hl c ?_
    rw [← hj, hq]
    cases qs with
    | nil => simpa [List.intercalate] using hc
    | cons r rs =>
      rw [List.intercalate_cons_cons]
      exact List.mem_head?_append_of_mem_head? (List.mem_head?_append_of_mem_head? hc)
  unfold splitTrimmed at h
  split at h
  · exact absurd h List.not_mem_nil
  · next q hq =>
    rw [List.mem_singleton] at h
    subst h
    exact hfirst p [] hq
  · next q rest _ hq =>
    have h' := mem_of_mem_rdropWhile h
    rw [List.mem_cons] at h'
    rcases h' with rfl | h'
    · exact head_rdropWhile (hfirst q rest hq)
    · exact (mem_trimRest h').1

/-- The last piece of a plain split is a suffix of the list. -/
theorem splitOn_getLast_suffix {sep : α} {l q : List α} (h : (l.splitOn sep).getLast? = some q) :
    q <:+ l := by
  induction l generalizing q with
  | nil =>
    simp only [List.splitOn_nil, List.getLast?_singleton, Option.some.injEq] at h
    exact h ▸ List.suffix_refl _
  | cons a l ih =>
    rw [List.splitOn_cons_eq_if_modifyHead] at h
    cases hs : l.splitOn sep with
    | nil => exact absurd hs (List.splitOn_ne_nil _ _)
    | cons r rs =>
      rw [hs] at h ih
      split at h
      · rw [List.getLast?_cons_cons] at h
        exact (ih h).trans (List.suffix_cons a l)
      · rw [List.modifyHead_cons] at h
        cases rs with
        | nil =>
          simp only [List.getLast?_singleton, Option.some.injEq] at h
          have hj : [sep].intercalate (l.splitOn sep) = l := List.intercalate_splitOn sep
          rw [hs] at hj
          have hr : r = l := by simpa [List.intercalate] using hj
          subst h
          exact hr ▸ List.suffix_refl _
        | cons t ts =>
          rw [List.getLast?_cons_cons] at h
          exact (ih (by rw [List.getLast?_cons_cons]; exact h)).trans (List.suffix_cons a l)

omit [BEq α] [LawfulBEq α] in
/-- Every trimmed piece ends in no blank, except perhaps the one after the last separator. -/
theorem getLast_trimRest {blank : α → Bool} {ps : List (List α)} {p : List α}
    (h : p ∈ trimRest blank ps) :
    (∀ c ∈ p.getLast?, blank c = false) ∨ ∃ q, ps.getLast? = some q ∧ p = q.dropWhile blank := by
  induction ps with
  | nil => exact absurd h List.not_mem_nil
  | cons q ps ih =>
    cases ps with
    | nil =>
      simp only [trimRest, List.mem_singleton] at h
      exact .inr ⟨q, rfl, h⟩
    | cons r rs =>
      rw [trimRest, List.mem_cons] at h
      rcases h with rfl | h
      · exact .inl (strip_stripped blank q).2
      · rw [List.getLast?_cons_cons]
        exact ih h

/-- If the list ends in no blank, then no piece of it does. -/
theorem piece_last {blank : α → Bool} {sep : α} {l p : List α}
    (hl : ∀ c ∈ l.getLast?, blank c = false) (h : p ∈ splitTrimmed blank sep l) :
    ∀ c ∈ p.getLast?, blank c = false := by
  have hsuf : ∀ q, q <:+ l → ∀ c ∈ q.getLast?, blank c = false := by
    rintro q ⟨t, ht⟩ c hc
    refine hl c ?_
    rw [← ht, List.getLast?_append, hc]
    rfl
  unfold splitTrimmed at h
  split at h
  · exact absurd h List.not_mem_nil
  · next q hq =>
    rw [List.mem_singleton] at h
    subst h
    exact hsuf p (splitOn_getLast_suffix (by rw [hq]; rfl))
  · next q rest hne hq =>
    have h' := mem_of_mem_rdropWhile h
    rw [List.mem_cons] at h'
    rcases h' with rfl | h'
    · exact getLast_rdropWhile
    · rcases getLast_trimRest h' with hp | ⟨r, hr, rfl⟩
      · exact hp
      · have hlast : (l.splitOn sep).getLast? = some r := by
          rw [hq]
          cases rest with
          | nil => simp at hr
          | cons t ts => rw [List.getLast?_cons_cons]; exact hr
        exact hsuf _ ((List.dropWhile_suffix blank).trans (splitOn_getLast_suffix hlast))

omit [BEq α] [LawfulBEq α] in
theorem mem_tail_of_isPrefix {xs ys : List α} {x : α} (h : xs <+: ys) (hx : x ∈ xs.tail) : x ∈ ys.tail := by
  obtain ⟨t, rfl⟩ := h
  cases xs with
  | nil => cases hx
  | cons y xs => exact List.mem_append_left t hx

omit [LawfulBEq α] in
/-- Every piece but the first starts with no blank. -/
theorem head_of_mem_tail {blank : α → Bool} {sep : α} {l p : List α}
    (h : p ∈ (splitTrimmed blank sep l).tail) : ∀ c ∈ p.head?, blank c = false := by
  unfold splitTrimmed at h
  split at h
  · cases h
  · cases h
  · exact (mem_trimRest (mem_tail_of_isPrefix (List.rdropWhile_prefix List.isEmpty _) h)).1

omit [BEq α] [LawfulBEq α] in
theorem mem_dropLast_of_isPrefix {xs ys : List α} {x : α} (h : xs <+: ys) (hx : x ∈ xs.dropLast) :
    x ∈ ys.dropLast := by
  obtain ⟨t, rfl⟩ := h
  cases t with
  | nil => rwa [List.append_nil]
  | cons y t =>
    rw [List.dropLast_append_of_ne_nil (List.cons_ne_nil y t)]
    exact List.mem_append_left _ (List.dropLast_subset _ hx)

omit [BEq α] [LawfulBEq α] in
theorem getLast_of_mem_dropLast_trimRest {blank : α → Bool} {ps : List (List α)} {p : List α}
    (h : p ∈ (trimRest blank ps).dropLast) : ∀ c ∈ p.getLast?, blank c = false := by
  induction ps with
  | nil => cases h
  | cons q ps ih =>
    cases ps with
    | nil => cases h
    | cons r rs =>
      have hne : trimRest blank (r :: rs) ≠ [] := by
        cases rs <;> exact List.cons_ne_nil _ _
      rw [trimRest, List.dropLast_cons_of_ne_nil hne, List.mem_cons] at h
      rcases h with rfl | h
      · exact (strip_stripped blank q).2
      · exact ih h

omit [LawfulBEq α] in
/-- Every piece but the last ends with no blank. -/
theorem getLast_of_mem_dropLast {blank : α → Bool} {sep : α} {l p : List α}
    (h : p ∈ (splitTrimmed blank sep l).dropLast) : ∀ c ∈ p.getLast?, blank c = false := by
  unfold splitTrimmed at h
  split at h
  · cases h
  · cases h
  · next q rest hne hq =>
    have h := mem_dropLast_of_isPrefix (List.rdropWhile_prefix List.isEmpty _) h
    by_cases hrest : trimRest blank rest = []
    · rw [hrest] at h
      cases h
    · rw [List.dropLast_cons_of_ne_nil hrest, List.mem_cons] at h
      rcases h with rfl | h
      · exact getLast_rdropWhile
      · exact getLast_of_mem_dropLast_trimRest h

/-! ## Joining and splitting back -/

omit [BEq α] [LawfulBEq α] in
theorem mem_intercalate {sep : List α} {xs : List (List α)} {c : α} (h : c ∈ sep.intercalate xs) :
    c ∈ sep ∨ ∃ x ∈ xs, c ∈ x := by
  induction xs with
  | nil => simp at h
  | cons x xs ih =>
    cases xs with
    | nil => exact .inr ⟨x, List.mem_cons_self, by simpa using h⟩
    | cons y ys =>
      rw [List.intercalate_cons_cons, List.mem_append, List.mem_append] at h
      rcases h with (h | h) | h
      · exact .inr ⟨x, List.mem_cons_self, h⟩
      · exact .inl h
      · rcases ih h with h | ⟨z, hz, hc⟩
        · exact .inl h
        · exact .inr ⟨z, List.mem_cons_of_mem _ hz, hc⟩

omit [BEq α] [LawfulBEq α] in
/-- A joined list starts with its first piece, or with the separator if that piece is empty. -/
theorem head_intercalate {sep : List α} {x : List α} {xs : List (List α)} {c : α}
    (h : c ∈ (sep.intercalate (x :: xs)).head?) :
    c ∈ x.head? ∨ (x = [] ∧ xs ≠ [] ∧ c ∈ (sep ++ sep.intercalate xs).head?) := by
  cases xs with
  | nil => exact .inl (by simpa using h)
  | cons y ys =>
    rw [List.intercalate_cons_cons, List.append_assoc] at h
    cases x with
    | nil => exact .inr ⟨rfl, List.cons_ne_nil _ _, h⟩
    | cons a x => exact .inl h

omit [BEq α] [LawfulBEq α] in
theorem intercalate_concat {sep x : List α} {xs : List (List α)} (h : xs ≠ []) :
    sep.intercalate (xs ++ [x]) = sep.intercalate xs ++ (sep ++ x) := by
  induction xs with
  | nil => exact absurd rfl h
  | cons y ys ih =>
    cases ys with
    | nil => simp [List.intercalate_cons_cons]
    | cons z zs =>
      rw [List.cons_append, List.cons_append, List.intercalate_cons_cons,
        List.intercalate_cons_cons, ← List.cons_append, ih (List.cons_ne_nil _ _)]
      simp

omit [BEq α] [LawfulBEq α] in
/-- A joined list ends as its last piece does, if that is not empty. -/
theorem getLast_intercalate {sep y : List α} {xs : List (List α)} (hy : y ≠ [])
    (h : xs.getLast? = some y) : (sep.intercalate xs).getLast? = y.getLast? := by
  obtain ⟨ys, rfl⟩ := List.getLast?_eq_some_iff.mp h
  cases ys with
  | nil => simp
  | cons z zs =>
    rw [intercalate_concat (List.cons_ne_nil _ _), List.getLast?_append, List.getLast?_append]
    obtain ⟨c, hc⟩ := Option.isSome_iff_exists.mp (List.getLast?_isSome.mpr hy)
    simp [hc]

omit [BEq α] [LawfulBEq α] in
/-- Every piece but the first has the separator before it. -/
theorem intercalate_cons_eq_flatMap {sep x : List α} {xs : List (List α)} :
    sep.intercalate (x :: xs) = x ++ xs.flatMap (sep ++ ·) := by
  induction xs generalizing x with
  | nil => simp
  | cons y ys ih => rw [List.intercalate_cons_cons, ih, List.flatMap_cons, List.append_assoc, List.append_assoc]

omit [BEq α] [LawfulBEq α] in
/-- Every piece but the last has the separator behind it. -/
theorem intercalate_concat_eq_flatMap {sep x : List α} {xs : List (List α)} :
    sep.intercalate (xs ++ [x]) = xs.flatMap (· ++ sep) ++ x := by
  induction xs with
  | nil => simp
  | cons y ys ih =>
    rw [List.cons_append, List.intercalate_cons_of_ne_nil (by simp), ih, List.flatMap_cons, List.append_assoc,
      List.append_assoc, List.append_assoc]

omit [BEq α] [LawfulBEq α] in
theorem intercalate_pair (sep b : α) (x : List α) (xs : List (List α)) :
    [sep, b].intercalate (x :: xs) = [sep].intercalate (x :: xs.map (b :: ·)) := by
  induction xs generalizing x with
  | nil => simp [List.intercalate]
  | cons y ys ih =>
    rw [List.intercalate_cons_cons, ih, List.map_cons, List.intercalate_cons_cons]
    cases ys with
    | nil => simp [List.intercalate]
    | cons z zs => simp [List.intercalate_cons_cons]

theorem splitOn_intercalate_pair {sep b : α} (hb : b ≠ sep) {x y : List α} {xs : List (List α)}
    (h : ∀ z ∈ x :: xs, sep ∉ z) (hy : sep ∉ y) :
    ([sep, b].intercalate (x :: xs) ++ sep :: y).splitOn sep = x :: (xs.map (b :: ·) ++ [y]) := by
  have hjoin : [sep, b].intercalate (x :: xs) ++ sep :: y =
      [sep].intercalate ((x :: xs.map (b :: ·)) ++ [y]) := by
    rw [intercalate_concat (List.cons_ne_nil _ _), intercalate_pair, List.singleton_append]
  rw [hjoin, List.splitOn_intercalate _ _ (by simp)]
  · simp
  intro z hz
  simp only [List.mem_append, List.mem_cons, List.mem_map, List.not_mem_nil, or_false] at hz
  rcases hz with (rfl | ⟨z, hz, rfl⟩) | rfl
  · exact h _ List.mem_cons_self
  · simp only [List.mem_cons, not_or]
    exact ⟨Ne.symm hb, h z (List.mem_cons_of_mem _ hz)⟩
  · exact hy

omit [BEq α] [LawfulBEq α] in
theorem trimRest_map_cons {blank : α → Bool} {b : α} (hb : blank b = true) {xs : List (List α)} {y : List α} :
    trimRest blank (xs.map (b :: ·) ++ [y]) = xs.map (strip blank) ++ [y.dropWhile blank] := by
  induction xs with
  | nil => simp [trimRest]
  | cons x xs ih =>
    have hx : strip blank (b :: x) = strip blank x := by
      rw [strip, List.dropWhile_cons_of_pos hb, strip]
    cases xs with
    | nil => simp [trimRest, hx]
    | cons z zs =>
      rw [List.map_cons, List.map_cons, List.cons_append, List.cons_append, trimRest, hx]
      rw [List.map_cons, List.cons_append] at ih
      rw [ih]
      simp

omit [BEq α] [LawfulBEq α] in
theorem map_strip_of_stripped {blank : α → Bool} {xs : List (List α)} (h : ∀ x ∈ xs, Stripped blank x) :
    xs.map (strip blank) = xs := by
  rw [List.map_congr_left fun x hx => strip_of_stripped (h x hx), List.map_id']

/-- Splitting what was joined: the blanks around the separators are gone. -/
theorem splitTrimmed_join {blank : α → Bool} {sep b : α} (hb : blank b = true) (hsep : b ≠ sep)
    {x y : List α} {xs : List (List α)} (h : ∀ z ∈ x :: xs, sep ∉ z) (hy : sep ∉ y) :
    splitTrimmed blank sep ([sep, b].intercalate (x :: xs) ++ sep :: y) =
      (x.rdropWhile blank :: xs.map (strip blank) ++ [y.dropWhile blank]).rdropWhile List.isEmpty := by
  have ht : trimRest blank (xs.map (b :: ·) ++ [y]) = xs.map (strip blank) ++ [y.dropWhile blank] :=
    trimRest_map_cons hb
  unfold splitTrimmed
  rw [splitOn_intercalate_pair hsep h hy]
  cases hm : xs.map (b :: ·) ++ [y] with
  | nil => simp at hm
  | cons q qs =>
    rw [hm] at ht
    simp only [ht, List.cons_append]

/-- Splitting what was joined, when nothing is known about the text after the last separator. -/
theorem splitTrimmed_intercalate_append {blank : α → Bool} {sep b : α} (hb : blank b = true)
    (hsep : b ≠ sep) {x y : List α} {xs : List (List α)} (hxs : ∀ z ∈ x :: xs, Stripped blank z)
    (h : ∀ z ∈ x :: xs, sep ∉ z) (hy : sep ∉ y) :
    splitTrimmed blank sep ([sep, b].intercalate (x :: xs) ++ sep :: y) =
      (x :: xs ++ [y.dropWhile blank]).rdropWhile List.isEmpty := by
  rw [splitTrimmed_join hb hsep h hy, rdropWhile_of_getLast (hxs x List.mem_cons_self).2,
    map_strip_of_stripped fun z hz => hxs z (List.mem_cons_of_mem _ hz)]

omit [BEq α] [LawfulBEq α] in
theorem mem_rdropWhile_isEmpty {xs : List (List α)} {w : List α} (hw : w ≠ []) :
    w ∈ xs.rdropWhile List.isEmpty ↔ w ∈ xs := by
  refine ⟨mem_of_mem_rdropWhile, fun hmem => ?_⟩
  rw [← List.rdropWhile_append_rtakeWhile (p := List.isEmpty) (l := xs), List.mem_append] at hmem
  refine hmem.resolve_right fun hmem => hw ?_
  exact List.isEmpty_iff.mp (List.mem_rtakeWhile_imp hmem)

/-- Which pieces come back: the first one without the blanks at its end, the last one without those at its
start, the others without both. -/
theorem mem_splitTrimmed_join {blank : α → Bool} {sep b : α} (hb : blank b = true) (hsep : b ≠ sep)
    {x y w : List α} {xs : List (List α)} (h : ∀ z ∈ x :: (xs ++ [y]), sep ∉ z) (hw : w ≠ []) :
    w ∈ splitTrimmed blank sep ([sep, b].intercalate (x :: (xs ++ [y]))) ↔
      w = x.rdropWhile blank ∨ (∃ z ∈ xs, w = strip blank z) ∨ w = y.dropWhile blank := by
  have hy : sep ∉ b :: y := by
    rw [List.mem_cons, not_or]
    exact ⟨hsep.symm, h y (List.mem_cons_of_mem _ (List.mem_append_right _ (List.mem_singleton_self y)))⟩
  have hxs : ∀ z ∈ x :: xs, sep ∉ z := fun z hz =>
    h z (List.cons_append ▸ List.mem_append_left [y] hz)
  rw [← List.cons_append, intercalate_concat (List.cons_ne_nil _ _), List.cons_append, List.singleton_append,
    splitTrimmed_join hb hsep hxs hy, mem_rdropWhile_isEmpty hw, List.dropWhile_cons_of_pos hb]
  simp only [List.cons_append, List.mem_cons, List.mem_append, List.mem_map, List.not_mem_nil, or_false,
    eq_comm (a := w)]

/-- A piece without blanks at its ends comes back, whatever the others are. -/
theorem mem_splitTrimmed_of_stripped {blank : α → Bool} {sep b : α} (hb : blank b = true) (hsep : b ≠ sep)
    {w : List α} {xs : List (List α)} (h : ∀ z ∈ xs, sep ∉ z) (hw : w ≠ []) (hstripped : Stripped blank w)
    (hmem : w ∈ xs) : w ∈ splitTrimmed blank sep ([sep, b].intercalate xs) := by
  cases xs with
  | nil => cases hmem
  | cons x xs =>
    rcases List.eq_nil_or_concat xs with rfl | ⟨ys, y, rfl⟩
    · rw [List.mem_singleton] at hmem
      subst hmem
      have hsingle : [sep, b].intercalate [w] = w := by simp
      rw [hsingle, splitTrimmed, List.splitOn_eq_singleton (h w List.mem_cons_self)]
      exact List.mem_singleton_self w
    · rw [List.concat_eq_append] at *
      rw [mem_splitTrimmed_join hb hsep h hw]
      rcases List.mem_cons.mp hmem with rfl | hmem
      · exact .inl (rdropWhile_of_getLast hstripped.2).symm
      · rcases List.mem_append.mp hmem with hmem | hmem
        · exact .inr (.inl ⟨w, hmem, (strip_of_stripped hstripped).symm⟩)
        · rw [List.mem_singleton] at hmem
          subst hmem
          exact .inr (.inr (dropWhile_of_head hstripped.1).symm)

/-- Joining with the separator and a blank, then splitting, gives the pieces back. -/
theorem splitTrimmed_intercalate {blank : α → Bool} {sep b : α} (hb : blank b = true)
    (hsep : b ≠ sep) {xs : List (List α)} (hne : xs ≠ []) (hxs : ∀ x ∈ xs, Stripped blank x)
    (h : ∀ x ∈ xs, sep ∉ x) (hlast : xs.getLast hne ≠ []) :
    splitTrimmed blank sep ([sep, b].intercalate xs) = xs := by
  rcases List.eq_nil_or_concat xs with rfl | ⟨ys, y, rfl⟩
  · exact absurd rfl hne
  · rw [List.concat_eq_append] at *
    have hy : y ≠ [] := by simpa using hlast
    have hycomma := h y (by simp)
    cases ys with
    | nil => simp [splitTrimmed, List.intercalate, List.splitOn_eq_singleton hycomma]
    | cons x ys =>
      have hb' : (b :: y).dropWhile blank = y := by
        rw [List.dropWhile_cons_of_pos hb, dropWhile_of_head (hxs y (by simp)).1]
      rw [intercalate_concat (List.cons_ne_nil _ _), List.cons_append, List.singleton_append,
        splitTrimmed_intercalate_append hb hsep (fun z hz => hxs z (List.mem_append_left _ hz))
          (fun z hz => h z (List.mem_append_left _ hz)) (by simp [Ne.symm hsep, hycomma]), hb']
      refine rdropWhile_of_getLast fun c hc => ?_
      rw [List.getLast?_concat] at hc
      cases hc
      simpa using hy

omit [BEq α] [LawfulBEq α] in
theorem rdropWhile_append_cons {cut : α → Bool} {u v : List α} {a : α} (h : cut a = false) :
    (u ++ a :: v).rdropWhile cut = u ++ a :: v.rdropWhile cut := by
  induction v using List.reverseRecOn with
  | nil =>
    rw [List.rdropWhile_concat_neg _ _ _ (by simp [h])]
    simp
  | append_singleton v c ih =>
    rw [← List.cons_append, ← List.append_assoc, List.rdropWhile_concat, List.rdropWhile_concat]
    split
    · exact ih
    · simp

omit [BEq α] [LawfulBEq α] in
theorem rdropWhile_cons {cut : α → Bool} {v : List α} {b : α} (h : cut b = true) :
    (b :: v).rdropWhile cut = if v.rdropWhile cut = [] then [] else b :: v.rdropWhile cut := by
  unfold List.rdropWhile
  rw [List.reverse_cons, List.dropWhile_append]
  by_cases hv : v.reverse.dropWhile cut = []
  · simp [hv, h]
  · simp [hv]

/-- When the end of a joined list is cut off, the last piece is found again only if nothing of it
was cut. -/
theorem last_of_mem_splitTrimmed {blank cut : α → Bool} {sep b : α} (hb : blank b = true)
    (hsep : b ≠ sep) (hcut : cut sep = false) {ys : List (List α)} {x : List α}
    (hys : ∀ y ∈ ys, Stripped blank y) (h : ∀ y ∈ ys ++ [x], sep ∉ y) (hx : x ∉ ys)
    (hne : ([sep, b].intercalate (ys ++ [x])).rdropWhile cut ≠ [])
    (hmem : x ∈ splitTrimmed blank sep (([sep, b].intercalate (ys ++ [x])).rdropWhile cut)) :
    ∃ c ∈ x.getLast?, cut c = false := by
  have hxsep := h x (by simp)
  cases ys with
  | nil =>
    have hsingle : [sep, b].intercalate [x] = x := by simp
    rw [List.nil_append, hsingle] at hmem hne
    have hsep' : sep ∉ x.rdropWhile cut := fun hs => hxsep (mem_of_mem_rdropWhile hs)
    simp only [splitTrimmed, List.splitOn_eq_singleton hsep', List.mem_singleton] at hmem
    obtain ⟨c, hc⟩ := Option.isSome_iff_exists.mp (List.getLast?_isSome.mpr hne)
    refine ⟨c, ?_, getLast_rdropWhile c hc⟩
    rw [hmem]
    exact hc
  | cons y ys =>
    rw [intercalate_concat (List.cons_ne_nil _ _), List.cons_append, List.singleton_append,
      rdropWhile_append_cons hcut] at hmem
    have hrest : sep ∉ (b :: x).rdropWhile cut := fun hs => by
      have := mem_of_mem_rdropWhile hs
      simp [Ne.symm hsep, hxsep] at this
    rw [splitTrimmed_intercalate_append hb hsep hys
      (fun z hz => h z (List.mem_append_left _ hz)) hrest, List.rdropWhile_concat] at hmem
    split at hmem
    · exact absurd (mem_of_mem_rdropWhile hmem) hx
    · next hnonempty =>
      have hxeq : x = ((b :: x).rdropWhile cut).dropWhile blank := by
        rcases List.mem_append.mp hmem with hmem | hmem
        · exact absurd hmem hx
        · simpa using hmem
      have hxne : x ≠ [] := by
        rw [← hxeq] at hnonempty
        simpa using hnonempty
      obtain ⟨c, hc⟩ := Option.isSome_iff_exists.mp (List.getLast?_isSome.mpr hxne)
      refine ⟨c, hc, getLast_rdropWhile (l := b :: x) c ?_⟩
      obtain ⟨t, ht⟩ := List.dropWhile_suffix (l := (b :: x).rdropWhile cut) blank
      rw [hxeq] at hc
      rw [← ht, List.getLast?_append, hc]
      rfl

end Pieces

end Delimited
