/-!
# Lists of keyed values

Small tables are lists of keys with values, in the order in which the keys first came.
-/

namespace Highlight.Keyed

variable {κ α : Type} [DecidableEq κ]

/-- The value of a key. -/
def get? (key : κ) : List (κ × α) → Option α
  | [] => none
  | (k, a) :: rest => if k = key then some a else get? key rest

/-- Puts a value under a key, in the place of one that is there. -/
def put (key : κ) (a : α) : List (κ × α) → List (κ × α)
  | [] => [(key, a)]
  | (k, b) :: rest => if k = key then (key, a) :: rest else (k, b) :: put key a rest

/-- What the values count together. -/
def total (count : α → Nat) : List (κ × α) → Nat
  | [] => 0
  | (_, a) :: rest => count a + total count rest

/-- After a value is put under a key, the key has that value, and all others what they had. -/
theorem get?_put (key k : κ) (a : α) (es : List (κ × α)) :
    get? k (put key a es) = if k = key then some a else get? k es := by
  induction es with
  | nil =>
    simp only [put, get?, eq_comm]
  | cons e es ih =>
    obtain ⟨k', b⟩ := e
    simp only [put]
    split
    · next h =>
      subst h
      simp only [get?, eq_comm]
      split <;> rfl
    · next h =>
      simp only [get?, ih]
      by_cases h' : k' = k
      · subst h'
        simp [h]
      · simp [h']

/-- A value that is put under a key takes the place of one that was put there before. -/
theorem put_put (key : κ) (a b : α) (es : List (κ × α)) :
    put key b (put key a es) = put key b es := by
  induction es with
  | nil => simp only [put, if_pos]
  | cons e es ih =>
    obtain ⟨k, c⟩ := e
    by_cases hk : k = key
    · simp only [put, hk, if_pos]
    · simp only [put, hk, if_false, ih]

/-- What holds of all values by their keys holds after one that it holds of is put there. -/
theorem forall_get?_put {P : κ → α → Prop} {key : κ} {a : α} {es : List (κ × α)}
    (h : ∀ k b, get? k es = some b → P k b) (ha : P key a) :
    ∀ k b, get? k (put key a es) = some b → P k b := by
  intro k b hget
  rw [get?_put] at hget
  split at hget
  · next hkey => exact hkey ▸ Option.some.inj hget ▸ ha
  · exact h k b hget

theorem mem_of_get? {key : κ} {a : α} {es : List (κ × α)} (h : get? key es = some a) :
    (key, a) ∈ es := by
  induction es with
  | nil => simp [get?] at h
  | cons e es ih =>
    rw [get?] at h
    split at h
    · next hkey =>
      obtain rfl : e.2 = a := Option.some.inj h
      exact hkey ▸ List.mem_cons_self
    · exact List.mem_cons_of_mem _ (ih h)

/-- A key that stands once has the value it stands with. -/
theorem get?_of_mem {key : κ} {a : α} {es : List (κ × α)} (hes : (es.map (·.1)).Nodup)
    (h : (key, a) ∈ es) : get? key es = some a := by
  induction es with
  | nil => simp at h
  | cons e es ih =>
    rw [List.map_cons, List.nodup_cons] at hes
    rw [get?]
    obtain rfl | h := List.mem_cons.1 h
    · exact if_pos rfl
    · have hkey : e.1 ≠ key := fun hkey => hes.1 (hkey ▸ List.mem_map_of_mem h)
      rw [if_neg hkey]
      exact ih hes.2 h

/-- A key without a value does not stand in the list. -/
theorem not_mem_keys_of_get?_eq_none {key : κ} {es : List (κ × α)} (h : get? key es = none) :
    key ∉ es.map (·.1) := by
  induction es with
  | nil => exact List.not_mem_nil
  | cons e es ih =>
    rw [get?] at h
    split at h
    · cases h
    · next hne =>
      rw [List.map_cons, List.mem_cons, not_or]
      exact ⟨Ne.symm hne, ih h⟩

theorem eq_or_mem_of_mem_put {key : κ} {a : α} {es : List (κ × α)} {p : κ × α}
    (h : p ∈ put key a es) : p = (key, a) ∨ p ∈ es := by
  induction es with
  | nil => exact .inl (List.mem_singleton.1 h)
  | cons e es ih =>
    rw [put] at h
    split at h
    · obtain rfl | h := List.mem_cons.1 h
      · exact .inl rfl
      · exact .inr (List.mem_cons_of_mem _ h)
    · obtain rfl | h := List.mem_cons.1 h
      · exact .inr List.mem_cons_self
      · exact (ih h).imp_right (List.mem_cons_of_mem _)

end Highlight.Keyed
