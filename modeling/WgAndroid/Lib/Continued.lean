import Mathlib.Data.List.ModifyLast

/-!
# Records with continuation lines

A log in which a line that cannot be parsed belongs to the record before it. `records` says what the
records of a whole log are, `add` how a reader that sees one line after the other keeps them.

Result: `records_concat`, the one more line of a longer log is added to its records.
-/

namespace Continued

variable {α β : Type} (parse : α → Option β) (more : β → α → β)

/-- The lines that stand before the first record. -/
def unparsed (xs : List α) : List α := xs.takeWhile fun x => (parse x).isNone

/-- The records of a log, each with the lines that follow it. -/
def records : List α → List β
  | [] => []
  | x :: xs =>
    match parse x with
    | none => records xs
    | some b => (unparsed parse xs).foldl more b :: records xs

/-- One more line. -/
def add (bs : List β) (x : α) : List β :=
  match parse x with
  | none => bs.modifyLast (more · x)
  | some b => bs ++ [b]

variable {parse more} {x : α} {xs : List α} {b : β} {bs : List β}

theorem records_cons_none (h : parse x = none) : records parse more (x :: xs) = records parse more xs := by
  rw [records, h]

theorem records_cons_some (h : parse x = some b) :
    records parse more (x :: xs) = (unparsed parse xs).foldl more b :: records parse more xs := by
  rw [records, h]

theorem add_none (h : parse x = none) : add parse more bs x = bs.modifyLast (more · x) := by
  rw [add, h]

theorem add_some (h : parse x = some b) : add parse more bs x = bs ++ [b] := by
  rw [add, h]

theorem unparsed_cons_none (h : parse x = none) : unparsed parse (x :: xs) = x :: unparsed parse xs :=
  List.takeWhile_cons_of_pos (by rw [h]; rfl)

theorem unparsed_cons_some (h : parse x = some b) : unparsed parse (x :: xs) = [] :=
  List.takeWhile_cons_of_neg (by rw [h]; exact Bool.false_ne_true)

/-- After a record the lines before the first one are settled. -/
theorem unparsed_append (h : records parse more xs ≠ []) (ys : List α) :
    unparsed parse (xs ++ ys) = unparsed parse xs := by
  induction xs with
  | nil => exact absurd rfl h
  | cons x xs ih =>
    cases hx : parse x with
    | none =>
      rw [records_cons_none hx] at h
      rw [List.cons_append, unparsed_cons_none hx, unparsed_cons_none hx, ih h]
    | some b => rw [List.cons_append, unparsed_cons_some hx, unparsed_cons_some hx]

/-- Without records all lines stand before the first one. -/
theorem unparsed_append_of_nil (h : records parse more xs = []) (ys : List α) :
    unparsed parse (xs ++ ys) = xs ++ unparsed parse ys := by
  induction xs with
  | nil => rfl
  | cons x xs ih =>
    cases hx : parse x with
    | none =>
      rw [records_cons_none hx] at h
      rw [List.cons_append, unparsed_cons_none hx, ih h, List.cons_append]
    | some b =>
      rw [records_cons_some hx] at h
      cases h

theorem unparsed_eq_self (h : records parse more xs = []) : unparsed parse xs = xs := by
  simpa [unparsed] using unparsed_append_of_nil h []

theorem length_modifyLast (f : β → β) (bs : List β) : (bs.modifyLast f).length = bs.length := by
  rcases List.eq_nil_or_concat bs with rfl | ⟨bs, b, rfl⟩
  · rfl
  · rw [List.concat_eq_append, List.modifyLast_concat, List.length_append, List.length_append]
    rfl

theorem add_cons (h : bs ≠ []) : add parse more (b :: bs) x = b :: add parse more bs x := by
  cases hx : parse x with
  | none =>
    rw [add_none hx, add_none hx, ← List.singleton_append, List.modifyLast_append_of_right_ne_nil _ _ _ h,
      List.singleton_append]
  | some c => rw [add_some hx, add_some hx, List.cons_append]

/-- The records of a log with one more line. -/
theorem records_concat : records parse more (xs ++ [x]) = add parse more (records parse more xs) x := by
  induction xs with
  | nil =>
    cases hx : parse x with
    | none =>
      rw [List.nil_append, records_cons_none hx, add_none hx]
      rfl
    | some b =>
      rw [List.nil_append, records_cons_some hx, add_some hx]
      rfl
  | cons y xs ih =>
    cases hy : parse y with
    | none => rw [List.cons_append, records_cons_none hy, records_cons_none hy, ih]
    | some b =>
      rw [List.cons_append, records_cons_some hy, records_cons_some hy, ih]
      -- the new line changes the first record only if there is no other
      by_cases h : records parse more xs = []
      · rw [unparsed_append_of_nil h, unparsed_eq_self h, h]
        cases hx : parse x with
        | none =>
          rw [unparsed_cons_none hx, add_none hx, add_none hx, List.foldl_append]
          rfl
        | some c => rw [unparsed_cons_some hx, add_some hx, add_some hx, List.append_nil, List.cons_append]
      · rw [unparsed_append h, add_cons h]

end Continued
