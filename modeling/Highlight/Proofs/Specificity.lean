import Highlight.Proofs.Styles

/-!
# How far specificity is an order

Rules at a node are compared by the depth of their scopes, then by the lengths of the names
around them, position by position as long as both have names, and at last by the lengths of the
lists of parents. The names are compared without the arrows between them, but the lengths of the
lists count the arrows. So a list with fewer names can win against a longer one that begins like
it, while it loses at the next name against a third: the comparison goes **round in a circle**,
no order of the three is sorted, and the rule that is taken depends on rules that do not even
apply.

The comparison is an order as long as the two ways of counting do not disagree: whenever the names
of one list begin like those of another and go on, the list is also the longer one, arrows
included. Then it is the order of the words that the lengths form, read backwards. Themes without
arrows are of this kind.
-/

namespace Highlight

/-- **A comparison is an order with ties** on the elements of a list. -/
structure Order.IsPreorderOn {α : Type} (cmp : α → α → Ordering) (xs : List α) : Prop where
  /-- Exchanging two elements turns the result around. -/
  swap : ∀ a ∈ xs, ∀ b ∈ xs, cmp a b = (cmp b a).swap
  /-- To be before or equal passes on. -/
  le_trans : ∀ a ∈ xs, ∀ b ∈ xs, ∀ c ∈ xs, (cmp a b).isLE → (cmp b c).isLE → (cmp a c).isLE
  /-- To be before passes on. -/
  lt_trans : ∀ a ∈ xs, ∀ b ∈ xs, ∀ c ∈ xs, cmp a b = .lt → cmp b c = .lt → cmp a c = .lt
  /-- To be equal passes on. -/
  eq_trans : ∀ a ∈ xs, ∀ b ∈ xs, ∀ c ∈ xs, cmp a b = .eq → cmp b c = .eq → cmp a c = .eq

/-- A comparison that agrees with an order on a list is one there. -/
theorem Order.isPreorderOn_of_eq {α : Type} {cmp cmp' : α → α → Ordering} [Std.TransCmp cmp']
    {xs : List α} (h : ∀ a ∈ xs, ∀ b ∈ xs, cmp a b = cmp' a b) : IsPreorderOn cmp xs where
  swap a ha b hb := by
    rw [h a ha b hb, h b hb a ha]
    exact Std.OrientedCmp.eq_swap
  le_trans a ha b hb c hc := by
    rw [h a ha b hb, h b hb c hc, h a ha c hc]
    exact Std.TransCmp.isLE_trans
  lt_trans a ha b hb c hc := by
    rw [h a ha b hb, h b hb c hc, h a ha c hc]
    exact Std.TransCmp.lt_trans
  eq_trans a ha b hb c hc := by
    rw [h a ha b hb, h b hb c hc, h a ha c hc]
    exact Std.TransCmp.eq_trans

theorem Order.IsPreorderOn.isOrderOn {α : Type} {cmp : α → α → Ordering} {xs : List α}
    (h : IsPreorderOn cmp xs) : IsOrderOn (fun a b => (cmp a b).isLT) xs where
  asymm a ha b hb hab := by
    rw [h.swap b hb a ha]
    cases hcmp : cmp a b <;> simp_all
  trans a ha b hb c hc hab hbc := by
    have hle := h.le_trans c hc b hb a ha
    rw [h.swap c hc b hb, h.swap b hb a ha, h.swap c hc a ha] at hle
    revert hab hbc hle
    cases cmp a b <;> cases cmp b c <;> cases cmp a c <;> decide

namespace Theme

namespace Entry

/-! ## Lists of parents as words of lengths -/

/-- The lengths of the names in a list of parents. An arrow stands before a name. -/
def nameLengths : List String → List Nat
  | [] => []
  | [name] => if name = ">" then [] else [name.utf8ByteSize]
  | first :: second :: rest =>
    if first = ">" then second.utf8ByteSize :: nameLengths rest
    else first.utf8ByteSize :: nameLengths (second :: rest)

theorem nameLengths_eq (parents : List String) :
    nameLengths parents =
      match withoutArrow parents with
      | [] => []
      | name :: rest => name.utf8ByteSize :: nameLengths rest := by
  match parents with
  | [] => rfl
  | [name] =>
    by_cases h : name = ">"
    · subst h
      rfl
    · rw [nameLengths, if_neg h, withoutArrow]
      · rfl
      · rintro rest ⟨⟩
        exact h rfl
  | first :: second :: rest =>
    by_cases h : first = ">"
    · subst h
      rfl
    · rw [nameLengths, if_neg h, withoutArrow]
      rintro rest ⟨⟩
      exact h rfl

/-- Two words of lengths as far as both go, the greater lengths first. -/
def compareHeads : List Nat → List Nat → Ordering
  | x :: xs, y :: ys => (compare y x).then (compareHeads xs ys)
  | _, _ => .eq

theorem compareNames_eq (a b : List String) :
    compareNames a b = compareHeads (nameLengths a) (nameLengths b) := by
  fun_induction compareNames a b with
  | case1 a b x xs y ys hx hy ih =>
    rw [ih, nameLengths_eq a, nameLengths_eq b, hx, hy]
    rfl
  | case2 a b h =>
    rw [nameLengths_eq a, nameLengths_eq b]
    cases hx : withoutArrow a with
    | nil => rfl
    | cons x xs =>
      cases hy : withoutArrow b with
      | nil => rfl
      | cons y ys => exact (h x xs y ys hx hy).elim

/-- **The two ways of counting agree** on two lists of parents: if the names of one begin like
those of the other and go on, it is the longer list. -/
def Consistent (a b : List String) : Prop :=
  (nameLengths a <+: nameLengths b → nameLengths a ≠ nameLengths b → a.length < b.length) ∧
    (nameLengths b <+: nameLengths a → nameLengths b ≠ nameLengths a → b.length < a.length)

instance (a b : List String) : Decidable (Consistent a b) :=
  inferInstanceAs (Decidable (_ ∧ _))

/-- The list without parents goes with every other. -/
theorem consistent_nil (b : List String) : Consistent [] b := by
  refine ⟨fun _ hne => ?_, fun hb hne => absurd (List.prefix_nil.1 hb) hne⟩
  cases b with
  | nil => exact absurd rfl hne
  | cons x xs => exact Nat.succ_pos _

theorem Consistent.symm {a b : List String} (h : Consistent a b) : Consistent b a := ⟨h.2, h.1⟩

theorem nameLengths_of_not_mem {parents : List String} (h : ">" ∉ parents) :
    nameLengths parents = parents.map String.utf8ByteSize := by
  fun_induction nameLengths parents <;> simp_all

/-- Without arrows there is one way of counting. -/
theorem consistent_of_not_mem {a b : List String} (ha : ">" ∉ a) (hb : ">" ∉ b) :
    Consistent a b := by
  have key : ∀ {a b : List String}, ">" ∉ a → ">" ∉ b → nameLengths a <+: nameLengths b →
      nameLengths a ≠ nameLengths b → a.length < b.length := by
    intro a b ha hb hbegins hne
    by_contra hlt
    refine hne (hbegins.eq_of_length_le ?_)
    rw [nameLengths_of_not_mem ha, nameLengths_of_not_mem hb, List.length_map, List.length_map]
    exact not_lt.1 hlt
  exact ⟨key ha hb, key hb ha⟩

/-! ## Specificity as an order -/

/-- Two words are compared by their heads, unless one begins with the other. -/
theorem compareHeads_cases (xs ys : List Nat) :
    compareHeads xs ys = compare ys xs ∨
      compareHeads xs ys = .eq ∧ xs <+: ys ∧ xs ≠ ys ∧ compare ys xs = .gt ∨
      compareHeads xs ys = .eq ∧ ys <+: xs ∧ ys ≠ xs ∧ compare ys xs = .lt := by
  induction xs generalizing ys with
  | nil =>
    cases ys with
    | nil => exact .inl List.compare_nil_nil.symm
    | cons y ys => exact .inr (.inl ⟨rfl, List.nil_prefix, by simp, List.compare_cons_nil⟩)
  | cons x xs ih =>
    cases ys with
    | nil => exact .inr (.inr ⟨rfl, List.nil_prefix, by simp, List.compare_nil_cons⟩)
    | cons y ys =>
      rw [compareHeads, List.compare_cons_cons]
      cases hxy : compare y x with
      | lt => exact .inl rfl
      | gt => exact .inl rfl
      | eq =>
        obtain rfl : y = x := Std.LawfulEqCmp.compare_eq_iff_eq.1 hxy
        simpa [List.cons_prefix_cons] using ih ys

/-- Entries by the depth of their scopes, the word of lengths, and the length of the list. -/
def compareWords (a b : Entry) : Ordering :=
  ((compare b.depth a.depth).then
      (compare (nameLengths b.parents) (nameLengths a.parents))).then
    (compare b.parents.length a.parents.length)

instance : Std.TransCmp compareWords :=
  have key : Std.TransCmp (compareLex (compareLex (compareOn Entry.depth)
      (compareOn fun e => nameLengths e.parents)) (compareOn fun e => e.parents.length)) :=
    inferInstance
  { eq_swap := fun {a b} => key.eq_swap (a := b) (b := a)
    isLE_trans := fun {a b c} hab hbc => key.isLE_trans (a := c) (b := b) (c := a) hbc hab }

/-- Entries whose lists are consistent are compared by their words. -/
theorem compareSpecificity_eq {a b : Entry}
    (h : a.depth = b.depth → Consistent a.parents b.parents) :
    a.compareSpecificity b = a.compareWords b := by
  rw [compareSpecificity, compareWords, compareNames_eq]
  cases hdepth : compare b.depth a.depth with
  | lt => rfl
  | gt => rfl
  | eq =>
    have hcons := h (Std.LawfulEqCmp.compare_eq_iff_eq.1 hdepth).symm
    rcases compareHeads_cases (nameLengths a.parents) (nameLengths b.parents) with
      heq | ⟨heq, hbegins, hne, hgt⟩ | ⟨heq, hbegins, hne, hlt⟩
    · rw [heq]
    · have hlen : compare b.parents.length a.parents.length = .gt :=
        Std.LawfulLTCmp.eq_gt_iff_gt.2 (hcons.1 hbegins hne)
      rw [heq, hgt, hlen]
      rfl
    · have hlen : compare b.parents.length a.parents.length = .lt :=
        Std.LawfulLTCmp.eq_lt_iff_lt.2 (hcons.2 hbegins hne)
      rw [heq, hlt, hlen]
      rfl

end Entry

/-! ## The rules at a node -/

/-- **A rule at a node is one that was added** for a name above the scope of the node, or it is
the rule of no rule at all. -/
def Stems (rs : List Rule) (ss : List String) (e : Entry) : Prop :=
  e.parents = [] ∧ e.depth = 0 ∨
    ∃ r ∈ rs, Scope.segments r.scope <+: ss ∧ e.parents = r.parents ∧
      e.depth = (Scope.segments r.scope).length

/-- **All rules of the trie stem from those that were added.** -/
structure StemsFrom (rs : List Rule) (t : Trie) : Prop where
  /-- The rule that applies anywhere asks for no scopes around. -/
  parents : ∀ ss, (t.find ss).anywhere.parents = []
  /-- The rules for a scope. -/
  stems : ∀ ss, ∀ e ∈ (t.find ss).entries, Stems rs ss e

theorem stemsFrom_nil : StemsFrom [] Trie.empty where
  parents ss := by
    rw [Trie.find_of_children_eq_nil rfl]
    rfl
  stems ss e he := by
    obtain rfl := Trie.eq_unset_of_mem_entries_find_empty he
    exact .inl ⟨rfl, rfl⟩

theorem Stems.mono {rs rs' : List Rule} {ss : List String} {e : Entry} (h : Stems rs ss e)
    (hsub : ∀ r ∈ rs, r ∈ rs') : Stems rs' ss e :=
  h.imp id fun ⟨r, hr, h⟩ => ⟨r, hsub r hr, h⟩

/-- Where a rule stems from is told by its parents and its depth. -/
theorem Stems.congr {rs : List Rule} {ss : List String} {e e' : Entry} (h : Stems rs ss e)
    (hparents : e'.parents = e.parents) (hdepth : e'.depth = e.depth) : Stems rs ss e' := by
  rw [Stems, hparents, hdepth]
  exact h

theorem StemsFrom.insert {rs : List Rule} {t : Trie} (h : StemsFrom rs t) (r : Rule)
    (style : Style) :
    StemsFrom (rs ++ [r]) (t.insert r.parents style 0 (Scope.segments r.scope)) := by
  refine ⟨fun ss => ?_, fun ss e he => ?_⟩
  · rw [← Trie.anywhere_bare, Trie.bare_find_insert]
    split
    · rw [Trie.parents_anywhere_addHere]
      exact h.parents ss
    · exact h.parents ss
  · have hold : ∀ e ∈ (t.find ss).entries, Stems (rs ++ [r]) ss e := fun e he =>
      (h.stems ss e he).mono fun q hq => List.mem_append_left _ hq
    rcases Trie.mem_entries_find_insert he with he | ⟨hss, he⟩
    · exact hold e he
    · rw [Nat.zero_add] at he
      have hnew : ∀ e : Entry, e.parents = r.parents →
          e.depth = (Scope.segments r.scope).length → Stems (rs ++ [r]) ss e :=
        fun e hparents hdepth => .inr ⟨r, by simp, hss, hparents, hdepth⟩
      rcases Trie.mem_entries_addHere he with he | ⟨old, ho, hparents, rfl⟩ | rfl
      · exact hold e he
      · have hsame : old.parents = r.parents := by
          rcases hparents with hparents | ⟨hnil, rfl⟩
          · exact hparents
          · rw [h.parents ss, hnil]
        rcases Nat.le_total old.depth (Scope.segments r.scope).length with hle | hle
        · exact hnew _ hsame (Nat.max_eq_right hle)
        · exact (hold old ho).congr rfl (Nat.max_eq_left hle)
      · exact hnew _ rfl rfl

/-- What is done after something succeeded only if that did. -/
theorem exists_of_bind_eq_ok {ε α β : Type} {x : Except ε α} {f : α → Except ε β} {b : β}
    (h : x >>= f = .ok b) : ∃ a, x = .ok a ∧ f a = .ok b := by
  cases x with
  | error e => exact absurd h (by simp [bind, Except.bind])
  | ok a => exact ⟨a, rfl, h⟩

/-- However colours are numbered, a rule that is added is put into the trie. -/
theorem exists_of_addRule {t t' : Trie} {m m' : ColorMap} {r : Rule}
    (h : addRule (t, m) r = .ok (t', m')) :
    ∃ style m₁, style.fontStyle = r.fontStyle ∧
      m.number r.foreground = .ok (style.foreground, m₁) ∧
      m₁.number r.background = .ok (style.background, m') ∧
      t' = t.insert r.parents style 0 (Scope.segments r.scope) := by
  obtain ⟨⟨foreground, m₁⟩, hfore, h⟩ := exists_of_bind_eq_ok h
  obtain ⟨⟨background, m₂⟩, hback, h⟩ := exists_of_bind_eq_ok h
  obtain ⟨rfl, rfl⟩ := Prod.mk.inj (Except.ok.inj h)
  exact ⟨⟨r.fontStyle, foreground, background⟩, m₁, rfl, hfore, hback, rfl⟩

theorem StemsFrom.foldlM {more rs : List Rule} {t t' : Trie} {m m' : ColorMap}
    (h : StemsFrom rs t) (hfold : more.foldlM addRule (t, m) = .ok (t', m')) :
    StemsFrom (rs ++ more) t' := by
  induction more generalizing rs t m with
  | nil =>
    obtain ⟨rfl, -⟩ : t = t' ∧ m = m' := by simpa [pure, Except.pure] using hfold
    rwa [List.append_nil]
  | cons r more ih =>
    rw [List.foldlM_cons] at hfold
    obtain ⟨⟨t₁, m₁⟩, hadd, hfold⟩ := exists_of_bind_eq_ok hfold
    obtain ⟨style, -, -, -, -, rfl⟩ := exists_of_addRule hadd
    rw [List.append_cons]
    exact ih (h.insert r style) hfold

/-- How a theme was made, whatever its numbers: the defaults were numbered, then the rules were
added. -/
theorem exists_of_ofDefinition {d : Definition} {frozen : Option (List String)} {theme : Theme}
    (h : ofDefinition d frozen = .ok theme) :
    ∃ m₁ m₂, theme.defaults.fontStyle = some d.defaults.fontStyle ∧
      (frozen.elim .empty .freeze : ColorMap).number (some d.defaults.foreground) =
        .ok (theme.defaults.foreground, m₁) ∧
      m₁.number (some d.defaults.background) = .ok (theme.defaults.background, m₂) ∧
      d.scopedRules.foldlM addRule (Trie.empty, m₂) = .ok (theme.rules, theme.colorMap) := by
  obtain ⟨⟨foreground, m₁⟩, hfore, h⟩ := exists_of_bind_eq_ok h
  obtain ⟨⟨background, m₂⟩, hback, h⟩ := exists_of_bind_eq_ok h
  obtain ⟨⟨trie, m⟩, hfold, h⟩ := exists_of_bind_eq_ok h
  obtain rfl := Except.ok.inj h
  exact ⟨m₁, m₂, rfl, hfore, hback, hfold⟩

/-- The rules of a theme stem from those of its definition. -/
theorem stemsFrom_of_ofDefinition {d : Definition} {frozen : Option (List String)} {theme : Theme}
    (h : ofDefinition d frozen = .ok theme) : StemsFrom d.scopedRules theme.rules := by
  obtain ⟨m₁, m₂, -, -, -, hfold⟩ := exists_of_ofDefinition h
  exact stemsFrom_nil.foldlM hfold

/-! ## Rules for a scope, most specific first -/

/-- **The parents in a theme are consistent**: those of any two rules for names with the same
segments. -/
def Definition.HasConsistentParents (d : Definition) : Prop :=
  ∀ q ∈ d.rules, ∀ r ∈ d.rules, Scope.segments q.scope = Scope.segments r.scope →
    Entry.Consistent q.parents r.parents

instance (d : Definition) : Decidable d.HasConsistentParents :=
  inferInstanceAs (Decidable (∀ q ∈ d.rules, ∀ r ∈ d.rules, _ → _))

/-- Themes without arrows have consistent parents. -/
theorem Definition.hasConsistentParents_of_not_mem {d : Definition}
    (h : ∀ r ∈ d.rules, ">" ∉ r.parents) : d.HasConsistentParents :=
  fun q hq r hr _ => Entry.consistent_of_not_mem (h q hq) (h r hr)

/-- Rules at a node whose scopes are of one depth are for the same name. -/
theorem Definition.HasConsistentParents.consistent {d : Definition} (h : d.HasConsistentParents)
    {ss : List String} {a b : Entry} (ha : Stems d.scopedRules ss a)
    (hb : Stems d.scopedRules ss b) (hdepth : a.depth = b.depth) :
    Entry.Consistent a.parents b.parents := by
  rcases ha with ⟨ha, -⟩ | ⟨q, hq, hqs, ha, hqdepth⟩
  · rw [ha]
    exact Entry.consistent_nil _
  · rcases hb with ⟨hb, -⟩ | ⟨r, hr, hrs, hb, hrdepth⟩
    · rw [hb]
      exact (Entry.consistent_nil _).symm
    · rw [ha, hb]
      refine h q (Definition.mem_scopedRules.1 hq).1 r (Definition.mem_scopedRules.1 hr).1 ?_
      have hlen : (Scope.segments q.scope).length = (Scope.segments r.scope).length := by
        rw [← hqdepth, ← hrdepth, hdepth]
      exact (List.prefix_of_prefix_length_le hqs hrs hlen.le).eq_of_length hlen

/-- **Most specific first.** If the parents in a definition are consistent, then for every theme
made from it and every scope, specificity orders the rules for the scope, and none of them stands
before one that is more specific. -/
theorem Definition.HasConsistentParents.mostSpecificFirst {d : Definition}
    (h : d.HasConsistentParents) {frozen : Option (List String)} {theme : Theme}
    (htheme : ofDefinition d frozen = .ok theme) (scope : String) :
    Order.IsPreorderOn Entry.compareSpecificity (theme.rules.rulesFor scope) ∧
      (theme.rules.rulesFor scope).Pairwise (fun a b => (b.compareSpecificity a).isLT = false) := by
  have hstems := (stemsFrom_of_ofDefinition htheme).stems (Scope.segments scope)
  have horder : ∀ es : List Entry,
      (∀ e ∈ es, e ∈ (theme.rules.find (Scope.segments scope)).entries) →
      Order.IsPreorderOn Entry.compareSpecificity es := fun es hes =>
    Order.isPreorderOn_of_eq fun a ha b hb => Entry.compareSpecificity_eq fun hdepth =>
      h.consistent (hstems a (hes a ha)) (hstems b (hes b hb)) hdepth
  exact ⟨horder _ fun e he => (Order.perm_sort _ _).mem_iff.1 he,
    Order.pairwise_sort (horder _ fun e he => he).isOrderOn⟩

/-- A theme with arrows whose parents are consistent. -/
def arrows : Definition where
  settings :=
    [{ scope := some (.one "tag string"), style := some { foreground := some "#111" } },
     { scope := some (.one "page > tag > string"), style := some { foreground := some "#222" } },
     { scope := some (.one "list > page > tag > string"),
       style := some { foreground := some "#333" } }]

theorem mostSpecificFirst_arrows :
    arrows.HasConsistentParents ∧ ∃ theme, ofDefinition arrows none = .ok theme ∧
      Order.IsPreorderOn Entry.compareSpecificity (theme.rules.rulesFor "string") ∧
      (theme.rules.rulesFor "string").Pairwise
        (fun a b => (b.compareSpecificity a).isLT = false) := by
  have h : arrows.HasConsistentParents := by decide +kernel
  obtain ⟨theme, htheme, -⟩ := exists_ofDefinition arrows
  exact ⟨h, theme, htheme, h.mostSpecificFirst htheme "string"⟩

/-- Three rules for one scope. The second list has fewer arrows and more names than the first, the
third is the first with one more name around. -/
def circle : Definition where
  settings :=
    [{ scope := some (.one "de > abc > z"), style := some { foreground := some "#111" } },
     { scope := some (.one "gh de abc z"), style := some { foreground := some "#222" } },
     { scope := some (.one "f de > abc > z"), style := some { foreground := some "#333" } }]

/-- **Round in a circle.** Each of three rules for one scope is more specific than the next, and
the last than the first, so whatever stands first is preceded by one that is more specific. The
style of a path is that of the first rule, though the last one applies to it and is the more
specific. -/
theorem circle_not_mostSpecificFirst :
    ∃ theme, ofDefinition circle none = .ok theme ∧ ∃ a b c unset,
      theme.rules.rulesFor "z" = [a, b, c, unset] ∧
      a.compareSpecificity b = .lt ∧ b.compareSpecificity c = .lt ∧
      c.compareSpecificity a = .lt ∧
      fits ["abc", "de", "f"] c.parents = true ∧ c.style ≠ a.style ∧
      theme.styleOf? ⟨"z", ["abc", "de", "f"]⟩ = some a.style := by
  have hrun : (ofDefinition circle none).toOption.map
      (fun theme => (theme.rules.rulesFor "z", theme.styleOf? ⟨"z", ["abc", "de", "f"]⟩)) =
      some ([⟨1, [">", "abc", ">", "de"], ⟨none, 4, 0⟩⟩, ⟨1, ["abc", "de", "gh"], ⟨none, 3, 0⟩⟩,
        ⟨1, [">", "abc", ">", "de", "f"], ⟨none, 5, 0⟩⟩, .unset], some ⟨none, 4, 0⟩) := by
    decide +kernel
  obtain ⟨theme, htheme, -⟩ := exists_ofDefinition circle
  rw [htheme] at hrun
  have hrules := congrArg Prod.fst (Option.some.inj hrun)
  have hstyle := congrArg Prod.snd (Option.some.inj hrun)
  refine ⟨theme, htheme, _, _, _, _, hrules, ?_, ?_, ?_, ?_, ?_, hstyle⟩
  all_goals decide +kernel

end Theme

end Highlight
