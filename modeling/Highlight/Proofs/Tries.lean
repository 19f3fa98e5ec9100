import Highlight.Theme.Trie
import Mathlib.Data.List.Basic
import Mathlib.Data.List.TakeDrop

/-!
# What a rule added to the trie changes

A scope is looked up at the deepest node on its way, which need not be the node of the scope
itself. A rule that is added changes what is found for the scopes below its own, and only there,
*if it comes in time*: nodes are copies of the node above as it was when they were made, so a
rule does not reach the nodes below it that are already there. How far the way of a scope leads
down, its **reach**, tells whether there are such nodes.
-/

namespace Highlight.Theme.Trie

/-- A node without the nodes below it. -/
def bare (t : Trie) : Trie := node t.anywhere t.inside []

/-- The rules at a node, in the order in which they are sorted. -/
def entries (t : Trie) : List Entry := t.inside ++ [t.anywhere]

/-- How many segments of a scope there are nodes for. -/
def reach : List String → Trie → Nat
  | [], _ => 0
  | s :: ss, t =>
    match t.children.lookup s with
    | some child => reach ss child + 1
    | none => 0

@[simp] theorem entries_bare (t : Trie) : t.bare.entries = t.entries := rfl

@[simp] theorem bare_putChild (t : Trie) (s : String) (child : Trie) :
    (t.putChild s child).bare = t.bare := rfl

@[simp] theorem children_addHere (depth : Nat) (parents : List String) (style : Style) (t : Trie) :
    (t.addHere depth parents style).children = t.children := by
  cases t
  by_cases h : parents.isEmpty <;> simp [addHere, h, children]

@[simp] theorem bare_addHere (depth : Nat) (parents : List String) (style : Style) (t : Trie) :
    (t.addHere depth parents style).bare = t.bare.addHere depth parents style := by
  cases t
  by_cases h : parents.isEmpty <;> simp [addHere, h, bare, anywhere, inside]

@[simp] theorem parents_anywhere_addHere (depth : Nat) (parents : List String) (style : Style)
    (t : Trie) : (t.addHere depth parents style).anywhere.parents = t.anywhere.parents := by
  cases t
  by_cases h : parents.isEmpty <;> simp [addHere, h, anywhere, Entry.overwrite]

theorem anywhere_bare (t : Trie) : t.bare.anywhere = t.anywhere := rfl

/-- The way of a scope goes on below a node only if there is a node below. -/
theorem find_cons (s : String) (ss : List String) (t : Trie) :
    find (s :: ss) t = (t.children.lookup s).elim t (find ss) := by
  rw [find]
  cases t.children.lookup s <;> rfl

theorem reach_cons (s : String) (ss : List String) (t : Trie) :
    reach (s :: ss) t = (t.children.lookup s).elim 0 (fun child => reach ss child + 1) := by
  rw [reach]
  cases t.children.lookup s <;> rfl

theorem find_of_children_eq_nil {t : Trie} (h : t.children = []) (ss : List String) :
    find ss t = t := by
  cases ss with
  | nil => rfl
  | cons s ss => simp [find_cons, h]

theorem reach_of_children_eq_nil {t : Trie} (h : t.children = []) (ss : List String) :
    reach ss t = 0 := by
  cases ss with
  | nil => rfl
  | cons s ss => simp [reach_cons, h]

theorem reach_le_length (ss : List String) (t : Trie) : reach ss t ≤ ss.length := by
  induction ss generalizing t with
  | nil => exact Nat.le_refl 0
  | cons s ss ih =>
    rw [reach_cons, List.length_cons]
    cases t.children.lookup s with
    | none => exact Nat.zero_le _
    | some child => exact Nat.succ_le_succ (ih child)

theorem lookup_cons_ite (x key : String) (t : Trie) (ts : List (String × Trie)) :
    ((key, t) :: ts).lookup x = if x = key then some t else ts.lookup x := by
  rw [List.lookup_cons]
  by_cases h : x = key
  · simp [h]
  · rw [if_neg h, beq_eq_false_iff_ne.2 h]

theorem lookup_map_replace (s x : String) (child : Trie) (ts : List (String × Trie)) :
    (ts.map (fun p => if p.1 == s then (s, child) else p)).lookup x =
      if x = s then (ts.lookup s).map (fun _ => child) else ts.lookup x := by
  induction ts with
  | nil => simp
  | cons p ts ih =>
    obtain ⟨key, t⟩ := p
    rw [List.map_cons, lookup_cons_ite]
    by_cases hkey : key = s
    · subst hkey
      rw [if_pos (beq_self_eq_true key), lookup_cons_ite, ih]
      by_cases hx : x = key <;> simp [hx, lookup_cons_ite]
    · rw [if_neg (mt eq_of_beq hkey), lookup_cons_ite, lookup_cons_ite, ih,
        if_neg (Ne.symm hkey)]
      by_cases hx : x = s
      · simp [hx, Ne.symm hkey]
      · simp [hx]

/-- After a node is put below another, its segment leads to it, and all others to what they led
to. -/
theorem lookup_putChild (t : Trie) (s x : String) (child : Trie) :
    (t.putChild s child).children.lookup x =
      if x = s then some child else t.children.lookup x := by
  rw [putChild, children]
  by_cases h : (t.children.lookup s).isSome
  · obtain ⟨old, hold⟩ := Option.isSome_iff_exists.1 h
    rw [if_pos h, lookup_map_replace, hold]
    rfl
  · have hnone : t.children.lookup s = none := Option.not_isSome_iff_eq_none.1 h
    rw [if_neg h, List.lookup_append, lookup_cons_ite]
    by_cases hx : x = s
    · subst hx
      simp [hnone]
    · simp [hx]

/-- Looking on from the node below is looking from the node, also if the node below is a new
copy. -/
theorem bare_find_childOrCopy (t : Trie) (s : String) (ss : List String) :
    (find ss (t.childOrCopy s)).bare = (find (s :: ss) t).bare := by
  rw [find_cons, childOrCopy]
  cases t.children.lookup s with
  | some child => rfl
  | none => rw [Option.getD_none, find_of_children_eq_nil rfl]; rfl

theorem reach_childOrCopy (t : Trie) (s : String) (ss : List String) :
    reach ss (t.childOrCopy s) = reach (s :: ss) t - 1 := by
  rw [reach_cons, childOrCopy]
  cases t.children.lookup s with
  | some child => rfl
  | none => rw [Option.getD_none, reach_of_children_eq_nil rfl]; rfl

/-- **A rule changes what is found for the scopes below its own**, as far as their ways did not
lead deeper before. -/
theorem bare_find_insert (parents : List String) (style : Style) (depth : Nat) (s : List String)
    (t : Trie) (ss : List String) :
    (find ss (insert parents style depth s t)).bare =
      if s <+: ss ∧ reach ss t ≤ s.length then
        (find ss t).bare.addHere (depth + s.length) parents style
      else (find ss t).bare := by
  induction s generalizing depth t ss with
  | nil =>
    rw [insert, List.length_nil, Nat.add_zero]
    cases ss with
    | nil => simp [find, reach]
    | cons x xs =>
      rw [find_cons, find_cons, reach_cons, children_addHere]
      cases t.children.lookup x <;> simp
  | cons a s ih =>
    rw [insert]
    cases ss with
    | nil => simp [find]
    | cons x xs =>
      rw [find_cons, lookup_putChild]
      by_cases hx : x = a
      · subst hx
        have hreach : reach xs (t.childOrCopy x) ≤ s.length ↔
            reach (x :: xs) t ≤ (x :: s).length := by
          rw [reach_childOrCopy, List.length_cons]
          omega
        rw [if_pos rfl, Option.elim_some, ih (depth + 1) (t.childOrCopy x) xs,
          bare_find_childOrCopy]
        simp only [hreach, List.cons_prefix_cons, true_and, List.length_cons, Nat.add_assoc,
          Nat.add_comm 1]
      · rw [if_neg hx, if_neg (fun h => hx (List.cons_prefix_cons.1 h.1).1.symm), find_cons]
        cases t.children.lookup x <;> rfl

/-- Adding a rule makes nodes on the way to its own scope only. -/
theorem reach_insert (parents : List String) (style : Style) (depth : Nat) (s : List String)
    (t : Trie) (ss : List String) :
    reach ss (insert parents style depth s t) = reach ss t ∨
      ss.take (reach ss (insert parents style depth s t)) <+: s := by
  induction s generalizing depth t ss with
  | nil =>
    left
    cases ss with
    | nil => rfl
    | cons x xs => rw [insert, reach_cons, reach_cons, children_addHere]
  | cons a s ih =>
    rw [insert]
    cases ss with
    | nil => exact .inl rfl
    | cons x xs =>
      rw [reach_cons, lookup_putChild]
      by_cases hx : x = a
      · subst hx
        rw [if_pos rfl, Option.elim_some, List.take_succ_cons]
        rcases ih (depth + 1) (t.childOrCopy x) xs with hsame | hway
        · rw [hsame, reach_childOrCopy]
          rcases Nat.eq_zero_or_pos (reach (x :: xs) t) with hzero | hpos
          · right
            simp [hzero]
          · left
            omega
        · exact .inr (List.cons_prefix_cons.2 ⟨rfl, hway⟩)
      · left
        rw [if_neg hx, reach_cons]

/-! ## Where rules at a node come from -/

theorem mem_addInside {anywhere : Entry} {depth : Nat} {parents : List String} {style : Style}
    {es : List Entry} {e : Entry} (h : e ∈ addInside anywhere depth parents style es) :
    e ∈ es ∨ (∃ old ∈ es, old.parents = parents ∧ e = old.overwrite depth style) ∨
      e = ⟨depth, parents, style.orElse anywhere.style⟩ := by
  induction es with
  | nil => exact .inr (.inr (List.mem_singleton.1 h))
  | cons e' es ih =>
    rw [addInside] at h
    split at h
    · next hparents =>
      rcases List.mem_cons.1 h with rfl | h
      · exact .inr (.inl ⟨e', List.mem_cons_self, hparents, rfl⟩)
      · exact .inl (List.mem_cons_of_mem _ h)
    · rcases List.mem_cons.1 h with rfl | h
      · exact .inl List.mem_cons_self
      · rcases ih h with h | ⟨old, hold, h⟩ | h
        · exact .inl (List.mem_cons_of_mem _ h)
        · exact .inr (.inl ⟨old, List.mem_cons_of_mem _ hold, h⟩)
        · exact .inr (.inr h)

/-- A rule at a node to which one is added was there, or was there and has been overwritten, or is
new. -/
theorem mem_entries_addHere {depth : Nat} {parents : List String} {style : Style} {t : Trie}
    {e : Entry} (h : e ∈ (t.addHere depth parents style).entries) :
    e ∈ t.entries ∨
      (∃ old ∈ t.entries, (old.parents = parents ∨ parents = [] ∧ old = t.anywhere) ∧
        e = old.overwrite depth style) ∨
      e = ⟨depth, parents, style.orElse t.anywhere.style⟩ := by
  obtain ⟨anywhere, inside, children⟩ := t
  rw [addHere] at h
  split at h
  · next hempty =>
    rcases List.mem_append.1 h with h | h
    · exact .inl (List.mem_append_left _ h)
    · refine .inr (.inl ⟨anywhere, List.mem_append_right _ List.mem_cons_self, .inr ⟨?_, rfl⟩,
        List.mem_singleton.1 h⟩)
      simpa using hempty
  · rcases List.mem_append.1 h with h | h
    · rcases mem_addInside h with h | ⟨old, hold, hparents, h⟩ | h
      · exact .inl (List.mem_append_left _ h)
      · exact .inr (.inl ⟨old, List.mem_append_left _ hold, .inl hparents, h⟩)
      · exact .inr (.inr h)
    · exact .inl (List.mem_append_right _ h)

/-- A rule that is found after another was added was found before, or comes from adding it where
the scope was found. -/
theorem mem_entries_find_insert {parents : List String} {style : Style} {depth : Nat}
    {s : List String} {t : Trie} {ss : List String} {e : Entry}
    (h : e ∈ (find ss (insert parents style depth s t)).entries) :
    e ∈ (find ss t).entries ∨
      s <+: ss ∧ e ∈ ((find ss t).addHere (depth + s.length) parents style).entries := by
  rw [← entries_bare, bare_find_insert] at h
  split at h
  · next hs =>
    rw [← bare_addHere, entries_bare] at h
    exact .inr ⟨hs.1, h⟩
  · exact .inl h

/-- **What passes on to inherited styles** passes on to the whole trie: it holds of all styles
after a rule was added if it held of them before and holds of the style of the rule. -/
theorem forall_style_insert {p : Style → Prop}
    (horElse : ∀ s base, p s → p base → p (s.orElse base)) {t : Trie}
    (h : ∀ ss, ∀ e ∈ (find ss t).entries, p e.style) {style : Style} (hstyle : p style)
    (parents : List String) (depth : Nat) (s : List String) :
    ∀ ss, ∀ e ∈ (find ss (insert parents style depth s t)).entries, p e.style := by
  intro ss e he
  rcases mem_entries_find_insert he with he | ⟨-, he⟩
  · exact h ss e he
  · rcases mem_entries_addHere he with he | ⟨old, hold, -, rfl⟩ | rfl
    · exact h ss e he
    · exact horElse _ _ hstyle (h ss old hold)
    · exact horElse _ _ hstyle (h ss _ (List.mem_append_right _ List.mem_cons_self))

/-- In the trie without rules nothing is set. -/
theorem eq_unset_of_mem_entries_find_empty {ss : List String} {e : Entry}
    (h : e ∈ (find ss empty).entries) : e = .unset := by
  rw [find_of_children_eq_nil rfl] at h
  exact List.mem_singleton.1 h

end Highlight.Theme.Trie
