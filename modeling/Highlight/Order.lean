/-!
# Sorting by insertion

Rules of a theme, injections and embedded languages are sorted by orders in which many elements
can be equally placed, and equally placed elements keep their order. The sort below inserts
each element, from the left, behind the last of the earlier ones that it is not to precede.
-/

namespace Highlight.Order

variable {α : Type}

/-- Inserts `x` into a list that is sorted from its end to its front. -/
def insertFromEnd (lt : α → α → Bool) (x : α) : List α → List α
  | [] => [x]
  | y :: ys => if lt x y then y :: insertFromEnd lt x ys else x :: y :: ys

/-- **The stable sort** of a list by a strict order. -/
def sort (lt : α → α → Bool) (xs : List α) : List α :=
  (xs.foldl (fun done x => insertFromEnd lt x done) []).reverse

theorem perm_insertFromEnd (lt : α → α → Bool) (x : α) (ys : List α) :
    (insertFromEnd lt x ys).Perm (x :: ys) := by
  induction ys with
  | nil => exact .refl _
  | cons y ys ih =>
    simp only [insertFromEnd]
    split
    · exact (ih.cons y).trans (.swap x y ys)
    · exact .refl _

/-- Sorting loses nothing and adds nothing. -/
theorem perm_sort (lt : α → α → Bool) (xs : List α) : (sort lt xs).Perm xs := by
  have h : ∀ done : List α,
      (xs.foldl (fun done x => insertFromEnd lt x done) done).Perm (xs.reverse ++ done) := by
    induction xs with
    | nil => intro done; exact .refl _
    | cons x xs ih =>
      intro done
      refine (ih _).trans ?_
      simp only [List.reverse_cons, List.append_assoc, List.singleton_append]
      exact (perm_insertFromEnd lt x done).append_left _
  have h₀ := h []
  rw [List.append_nil] at h₀
  exact (List.reverse_perm _).trans (h₀.trans (List.reverse_perm _))

end Highlight.Order
