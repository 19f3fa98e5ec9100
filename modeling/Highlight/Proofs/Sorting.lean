import Highlight.Order
import Mathlib.Data.List.Forall2
import Mathlib.Tactic.Tauto

/-!
# What is sorted stands in order

Insertion compares an element with some of its neighbours only, the sorted list promises
something about any two of its elements. The step from the one to the other needs a real order:
neither of two elements precedes the other twice, and not to precede passes on. Both are asked
of the elements of the list alone, since an order may be one on some lists and not on others.
-/

namespace Highlight.Order

variable {α : Type} {lt : α → α → Bool}

/-- **A strict order with ties** on the elements of a list. -/
structure IsOrderOn (lt : α → α → Bool) (xs : List α) : Prop where
  /-- No two elements precede each other. -/
  asymm : ∀ a ∈ xs, ∀ b ∈ xs, lt a b = true → lt b a = false
  /-- Not to precede passes on. -/
  trans : ∀ a ∈ xs, ∀ b ∈ xs, ∀ c ∈ xs, lt a b = false → lt b c = false → lt a c = false

theorem IsOrderOn.mono {xs ys : List α} (h : IsOrderOn lt xs) (hsub : ∀ a ∈ ys, a ∈ xs) :
    IsOrderOn lt ys where
  asymm a ha b hb := h.asymm a (hsub a ha) b (hsub b hb)
  trans a ha b hb c hc := h.trans a (hsub a ha) b (hsub b hb) c (hsub c hc)

/-- Not to precede is to be at most as early, seen from the other side. -/
theorem isLT_eq_false_iff (cmp : α → α → Ordering) [Std.OrientedCmp cmp] {a b : α} :
    (cmp a b).isLT = false ↔ (cmp b a).isLE = true := by
  have hswap : cmp b a = (cmp a b).swap := Std.OrientedCmp.eq_swap
  rw [hswap]
  cases cmp a b <;> decide

/-- Any comparison that is antisymmetric and transitive gives such an order. -/
theorem isOrderOn_of_transCmp (cmp : α → α → Ordering) [Std.TransCmp cmp] (xs : List α) :
    IsOrderOn (fun a b => (cmp a b).isLT) xs where
  asymm a _ b _ h := by
    rw [isLT_eq_false_iff]
    cases hab : cmp a b <;> simp_all
  trans a _ b _ c _ hab hbc := by
    rw [isLT_eq_false_iff] at hab hbc ⊢
    exact Std.TransCmp.isLE_trans hbc hab

/-- Insertion keeps a list in order, the last element first. -/
theorem pairwise_insertFromEnd {x : α} {ys : List α} (h : IsOrderOn lt (x :: ys))
    (hys : ys.Pairwise (fun a b => lt a b = false)) :
    (insertFromEnd lt x ys).Pairwise (fun a b => lt a b = false) := by
  induction ys with
  | nil => exact List.pairwise_singleton _ x
  | cons y ys ih =>
    have hx : x ∈ x :: y :: ys := List.mem_cons_self
    have hy : y ∈ x :: y :: ys := List.mem_cons_of_mem _ List.mem_cons_self
    have hmem : ∀ z ∈ ys, z ∈ x :: y :: ys := fun z hz =>
      List.mem_cons_of_mem _ (List.mem_cons_of_mem _ hz)
    obtain ⟨hfirst, hrest⟩ := List.pairwise_cons.1 hys
    simp only [insertFromEnd]
    split
    · next hlt =>
      refine List.pairwise_cons.2 ⟨fun z hz => ?_, ih (h.mono fun z hz => ?_) hrest⟩
      · rcases List.mem_cons.1 ((perm_insertFromEnd lt x ys).mem_iff.1 hz) with rfl | hz
        · exact h.asymm z hx y hy hlt
        · exact hfirst z hz
      · rcases List.mem_cons.1 hz with rfl | hz
        · exact hx
        · exact hmem z hz
    · next hlt =>
      have hxy : lt x y = false := by simpa using hlt
      refine List.pairwise_cons.2 ⟨fun z hz => ?_, hys⟩
      rcases List.mem_cons.1 hz with rfl | hz
      · exact hxy
      · exact h.trans x hx y hy z (hmem z hz) hxy (hfirst z hz)

/-- **In a sorted list nothing precedes what stands before it.** -/
theorem pairwise_sort {xs : List α} (h : IsOrderOn lt xs) :
    (sort lt xs).Pairwise (fun a b => lt b a = false) := by
  have key : ∀ (rest done : List α), (∀ a ∈ rest ++ done, a ∈ xs) →
      done.Pairwise (fun a b => lt a b = false) →
      (rest.foldl (fun done x => insertFromEnd lt x done) done).Pairwise
        (fun a b => lt a b = false) := by
    intro rest
    induction rest with
    | nil => exact fun done _ hdone => hdone
    | cons x rest ih =>
      intro done hsub hdone
      refine ih _ (fun a ha => hsub a ?_) (pairwise_insertFromEnd (h.mono fun a ha => hsub a ?_)
        hdone)
      · have hperm := ((perm_insertFromEnd lt x done).append_left rest).mem_iff.1 ha
        simp only [List.mem_append, List.mem_cons] at hperm ⊢
        tauto
      · simp only [List.mem_append, List.mem_cons] at ha ⊢
        tauto
  exact List.pairwise_reverse.2 (key xs [] (by simp) List.Pairwise.nil)

/-! ## Elements that sorting does not move past each other -/

theorem filter_insertFromEnd {p : α → Bool} {x : α} {ys : List α}
    (h : p x = true → ∀ y ∈ ys, p y = true → lt x y = false) :
    (insertFromEnd lt x ys).filter p = (x :: ys).filter p := by
  induction ys with
  | nil => rfl
  | cons y ys ih =>
    have ih := ih fun hx z hz => h hx z (List.mem_cons_of_mem _ hz)
    rw [insertFromEnd]
    split
    · next hlt =>
      have hxy : ¬ (p x = true ∧ p y = true) := fun hp => by
        simp [h hp.1 y List.mem_cons_self hp.2] at hlt
      rw [List.filter_cons, ih]
      simp only [List.filter_cons]
      by_cases hx : p x = true <;> by_cases hy : p y = true <;> simp_all
    · rfl

/-- **The sort is stable**: it keeps the order of some elements if, of any two of them, the later
one does not precede the earlier one. -/
theorem filter_sort {p : α → Bool} {xs : List α}
    (h : xs.Pairwise (fun a b => p a = true → p b = true → lt b a = false)) :
    (sort lt xs).filter p = xs.filter p := by
  have key : ∀ (rest done : List α),
      rest.Pairwise (fun a b => p a = true → p b = true → lt b a = false) →
      (∀ x ∈ rest, p x = true → ∀ y ∈ done, p y = true → lt x y = false) →
      (rest.foldl (fun done x => insertFromEnd lt x done) done).filter p =
        (rest.reverse ++ done).filter p := by
    intro rest
    induction rest with
    | nil => exact fun done _ _ => rfl
    | cons x rest ih =>
      intro done hrest hdone
      obtain ⟨hx, hrest⟩ := List.pairwise_cons.1 hrest
      rw [List.foldl_cons, ih _ hrest, List.filter_append,
        filter_insertFromEnd (hdone x List.mem_cons_self), ← List.filter_append,
        List.reverse_cons, List.append_assoc, List.singleton_append]
      intro z hz hpz y hy hpy
      obtain rfl | hy := List.mem_cons.1 ((perm_insertFromEnd lt x done).mem_iff.1 hy)
      · exact hx z hz hpy hpz
      · exact hdone z (List.mem_cons_of_mem _ hz) hpz y hy hpy
  rw [sort, List.filter_reverse, key xs [] h (by simp), List.append_nil, List.filter_reverse,
    List.reverse_reverse]

/-- What precedes nothing in a list is put in front of it. -/
theorem insertFromEnd_eq_cons {x : α} {ys : List α} (h : ∀ y ∈ ys, lt x y = false) :
    insertFromEnd lt x ys = x :: ys := by
  cases ys with
  | nil => rfl
  | cons y ys => rw [insertFromEnd, h y List.mem_cons_self, if_neg Bool.false_ne_true]

theorem filter_insertFromEnd_of_isOrderOn (p : α → Bool) {x : α} {ys : List α}
    (h : IsOrderOn lt (x :: ys)) (hys : ys.Pairwise (fun a b => lt a b = false)) :
    (insertFromEnd lt x ys).filter p =
      if p x = true then insertFromEnd lt x (ys.filter p) else ys.filter p := by
  induction ys with
  | nil => simp [insertFromEnd, List.filter_cons]
  | cons y ys ih =>
    obtain ⟨hfirst, hrest⟩ := List.pairwise_cons.1 hys
    have ih := ih (h.mono fun a ha => by simp only [List.mem_cons] at ha ⊢; tauto) hrest
    rw [insertFromEnd]
    split
    · next hlt =>
      rw [List.filter_cons, ih, List.filter_cons]
      by_cases hx : p x = true <;> by_cases hy : p y = true <;> simp [hx, hy, insertFromEnd, hlt]
    · next hlt =>
      have hnone : ∀ z ∈ y :: ys, lt x z = false := by
        have hxy : lt x y = false := by simpa using hlt
        refine List.forall_mem_cons.2 ⟨hxy, fun z hz => ?_⟩
        exact h.trans x (by simp) y (by simp) z (by simp [hz]) hxy (hfirst z hz)
      rw [List.filter_cons,
        insertFromEnd_eq_cons fun z hz => hnone z (List.mem_of_mem_filter hz)]

/-- **Sorting some elements of a list** gives them in the order that they have in the sorted
list. -/
theorem filter_sort_of_isOrderOn (p : α → Bool) {xs : List α} (h : IsOrderOn lt xs) :
    (sort lt xs).filter p = sort lt (xs.filter p) := by
  have key : ∀ (rest done : List α), (∀ a ∈ rest ++ done, a ∈ xs) →
      done.Pairwise (fun a b => lt a b = false) →
      (rest.foldl (fun done x => insertFromEnd lt x done) done).filter p =
        (rest.filter p).foldl (fun done x => insertFromEnd lt x done) (done.filter p) := by
    intro rest
    induction rest with
    | nil => exact fun _ _ _ => rfl
    | cons x rest ih =>
      intro done hsub hdone
      have hx : IsOrderOn lt (x :: done) := h.mono fun a ha => hsub a (by
        simp only [List.mem_append, List.mem_cons] at ha ⊢
        tauto)
      have hinserted : ∀ a ∈ rest ++ insertFromEnd lt x done, a ∈ xs := fun a ha => hsub a (by
        have hperm := ((perm_insertFromEnd lt x done).append_left rest).mem_iff.1 ha
        simp only [List.mem_append, List.mem_cons] at hperm ⊢
        tauto)
      rw [List.foldl_cons, ih _ hinserted (pairwise_insertFromEnd hx hdone),
        filter_insertFromEnd_of_isOrderOn p hx hdone, List.filter_cons]
      split <;> rfl
  rw [sort, List.filter_reverse, key xs [] (by simp) .nil]
  rfl

/-! ## Lists that are sorted alike -/

section Alike

variable {β : Type} {R : α → β → Prop} {lt' : β → β → Bool}

theorem forall₂_insertFromEnd
    (hlt : ∀ a b a' b', R a b → R a' b' → lt a a' = lt' b b') {x : α} {y : β} (hxy : R x y)
    {xs : List α} {ys : List β} (h : List.Forall₂ R xs ys) :
    List.Forall₂ R (insertFromEnd lt x xs) (insertFromEnd lt' y ys) := by
  induction h with
  | nil => exact .cons hxy .nil
  | cons h hs ih =>
    rw [insertFromEnd, insertFromEnd, hlt _ _ _ _ hxy h]
    split
    · exact .cons h ih
    · exact .cons hxy (.cons h hs)

/-- **Elements that are ordered alike are sorted alike.** -/
theorem forall₂_sort (hlt : ∀ a b a' b', R a b → R a' b' → lt a a' = lt' b b')
    {xs : List α} {ys : List β} (h : List.Forall₂ R xs ys) :
    List.Forall₂ R (sort lt xs) (sort lt' ys) := by
  have key : ∀ done done', List.Forall₂ R done done' →
      List.Forall₂ R (xs.foldl (fun done x => insertFromEnd lt x done) done)
        (ys.foldl (fun done y => insertFromEnd lt' y done) done') := by
    induction h with
    | nil => exact fun _ _ hdone => hdone
    | cons h _ ih => exact fun _ _ hdone => ih _ _ (forall₂_insertFromEnd hlt h hdone)
  exact List.rel_reverse (key [] [] .nil)

end Alike

/-! ## Keys -/

/-- **Sorted lists are told by what stands under each key**: two lists that are sorted by a key
are the same if, for every key, they have the same elements with it in the same order. -/
theorem eq_of_forall_filter_eq {κ : Type} [DecidableEq κ] {le : κ → κ → Prop}
    (hle : ∀ k l, le k l → le l k → k = l) (key : α → κ) {xs ys : List α}
    (hxs : xs.Pairwise (fun a b => le (key a) (key b)))
    (hys : ys.Pairwise (fun a b => le (key a) (key b)))
    (h : ∀ k, xs.filter (key · = k) = ys.filter (key · = k)) : xs = ys := by
  induction xs generalizing ys with
  | nil =>
    cases ys with
    | nil => rfl
    | cons y ys =>
      have hy := h (key y)
      rw [List.filter_nil, List.filter_cons_of_pos (by simp)] at hy
      cases hy
  | cons x xs ih =>
    cases ys with
    | nil =>
      have hx := h (key x)
      rw [List.filter_nil, List.filter_cons_of_pos (by simp)] at hx
      cases hx
    | cons y ys =>
      have hmem : ∀ {as bs : List α}, (∀ k, as.filter (key · = k) = bs.filter (key · = k)) →
          ∀ a ∈ as, a ∈ bs := fun {as bs} hab a ha =>
        (List.mem_filter.1 ((hab (key a)) ▸ List.mem_filter.2 ⟨ha, by simp⟩)).1
      have hkey : key x = key y := by
        obtain rfl | hx := List.mem_cons.1 (hmem h x List.mem_cons_self)
        · rfl
        obtain rfl | hy := List.mem_cons.1 (hmem (fun k => (h k).symm) y List.mem_cons_self)
        · rfl
        exact hle _ _ ((List.pairwise_cons.1 hxs).1 y hy) ((List.pairwise_cons.1 hys).1 x hx)
      have hfirst := h (key x)
      rw [List.filter_cons_of_pos (by simp), List.filter_cons_of_pos (by simp [hkey])] at hfirst
      obtain rfl : x = y := (List.cons.inj hfirst).1
      rw [ih (List.pairwise_cons.1 hxs).2 (List.pairwise_cons.1 hys).2 fun k => ?_]
      have hk := h k
      rw [List.filter_cons, List.filter_cons] at hk
      split at hk
      · exact (List.cons.inj hk).2
      · exact hk

end Highlight.Order
