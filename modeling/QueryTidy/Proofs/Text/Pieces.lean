import QueryTidy.Text.Basic
import Mathlib.Data.List.TakeWhile

/-!
# The pieces of a list

What cutting a list at separators yields: the first piece reaches up to the first separator, and a
separator cuts the pieces of what stands before it from the pieces of what stands after it.
-/

namespace QueryTidy.Text

variable {α : Type} {separates : α → Bool}

/-- Every list is cut in front of its first separator. -/
theorem exists_first_cut (separates : α → Bool) (l : List α) :
    ∃ front rest, l = front ++ rest ∧ (∀ a ∈ front, separates a = false) ∧
      ∀ a ∈ rest.head?, separates a = true := by
  refine ⟨l.takeWhile (!separates ·), l.dropWhile (!separates ·),
    List.takeWhile_append_dropWhile.symm, ?_, ?_⟩
  · intro a ha
    simpa using List.mem_takeWhile_imp ha
  · intro a ha
    have hhead := List.head?_dropWhile_not (!separates ·) l
    rw [Option.mem_def.mp ha] at hhead
    simpa using hhead

/-- A list without separators is one piece. -/
theorem split_at_of_none {l : List α} (h : ∀ a ∈ l, separates a = false) :
    splitAt separates l = [l] := by
  induction l with
  | nil => rfl
  | cons a rest ih =>
      have ha : separates a = false := h a List.mem_cons_self
      simp only [splitAt, ha, Bool.false_eq_true, ↓reduceIte]
      rw [ih fun b hb => h b (List.mem_cons_of_mem _ hb)]

/-- A separator lies between the pieces of what stands before it and of what stands after it. -/
theorem split_at_append_cons {a : α} (ha : separates a = true) (front rest : List α) :
    splitAt separates (front ++ a :: rest) = splitAt separates front ++ splitAt separates rest := by
  induction front with
  | nil => simp [splitAt, ha]
  | cons b front ih =>
      rw [List.cons_append]
      cases hb : separates b with
      | true => simp only [splitAt, hb, ↓reduceIte, ih, List.cons_append]
      | false =>
          obtain ⟨piece, pieces, hpieces⟩ :=
            List.exists_cons_of_ne_nil (splitAt_ne_nil separates front)
          simp only [splitAt, hb, Bool.false_eq_true, ↓reduceIte, ih, hpieces, List.cons_append]

/-- What stands in front of the first separator is the first piece, and the further pieces are those
of what stands after it. -/
theorem split_at_append {front rest : List α} (hfront : ∀ a ∈ front, separates a = false)
    (hrest : ∀ a ∈ rest.head?, separates a = true) :
    splitAt separates (front ++ rest) = front :: rest.tail?.elim [] (splitAt separates) := by
  cases rest with
  | nil => rw [List.append_nil, split_at_of_none hfront, List.tail?_nil, Option.elim_none]
  | cons a more =>
      rw [split_at_append_cons (hrest a rfl), split_at_of_none hfront, List.tail?_cons,
        Option.elim_some, List.singleton_append]

end QueryTidy.Text
