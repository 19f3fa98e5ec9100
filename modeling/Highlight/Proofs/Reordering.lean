import Highlight.Proofs.Styles

/-!
# The order of settings

The rules of a theme are put in an order of their own before anything is made of them: colours
are numbered, nodes inherit and defaults are set in that order. The place of a setting in the
theme decides only between rules for one scope with the same scopes around it. So two themes are
the same if they differ in the order of settings, as long as it is the same for any two settings
that have such a pair of rules.

The places themselves change with the order, and the sorted rules carry them along. What is shown
is that nothing else of the sorted rules changes, and that no place is read after the sorting.
-/

namespace Highlight.Theme

/-! ## Rules without their places -/

namespace Rule

/-- What a rule is about: its scope, and the scopes around it. -/
def about (r : Rule) : String × List String := (r.scope, r.parents)

/-- The rule as if its setting were the first. -/
def placeless (r : Rule) : Rule := { r with index := 0 }

@[simp] theorem about_placeless (r : Rule) : r.placeless.about = r.about := rfl

/-- The order of what rules are about. -/
def compareAbout (a b : String × List String) : Ordering :=
  (compare a.1 b.1).then (compareParents a.2 b.2)

theorem eq_of_compareAbout_eq {a b : String × List String} (h : compareAbout a b = .eq) :
    a = b := by
  rw [compareAbout, Ordering.then_eq_eq, compareParents, Ordering.then_eq_eq] at h
  obtain ⟨hscope, -, hparents⟩ := h
  exact Prod.ext (Std.LawfulEqCmp.eq_of_compare hscope) (Std.LawfulEqCmp.eq_of_compare hparents)

instance : Std.OrientedCmp compareAbout where
  eq_swap := by
    intro a b
    rw [compareAbout, compareAbout, Ordering.swap_then, ← Std.OrientedCmp.eq_swap,
      ← Std.OrientedCmp.eq_swap]

/-- A rule that is not to precede another is not about what comes before. -/
theorem compareAbout_of_order {a b : Rule} (h : (b.order a).isLT = false) :
    (compareAbout a.about b.about).isLE = true := by
  rw [Order.isLT_eq_false_iff] at h
  have h' : ((compareAbout a.about b.about).then (compare a.index b.index)).isLE = true := h
  cases hcmp : compareAbout a.about b.about <;> simp_all

/-- Of two rules about the same, the later one does not precede. -/
theorem order_of_about_eq {a b : Rule} (h : a.about = b.about) (hindex : a.index ≤ b.index) :
    (b.order a).isLT = false := by
  obtain ⟨hscope, hparents⟩ := Prod.mk.inj h
  rw [Order.isLT_eq_false_iff, order, hscope, hparents]
  have h₁ : compare b.scope b.scope = .eq := Std.ReflCmp.compare_self
  have h₂ : compareParents b.parents b.parents = .eq := Std.ReflCmp.compare_self
  rw [h₁, h₂]
  exact Nat.isLE_compare.2 hindex

end Rule

theorem Setting.index_of_mem_rules {s : Setting} {index : Nat} {r : Rule}
    (h : r ∈ s.rules index) : r.index = index := by
  rw [Setting.rules] at h
  split at h
  · cases h
  · obtain ⟨text, -, rfl⟩ := List.mem_map.1 h
    rfl

theorem Setting.map_placeless_rules (s : Setting) (index : Nat) :
    (s.rules index).map Rule.placeless = s.rules 0 := by
  rw [Setting.rules, Setting.rules]
  split
  · rfl
  · simp [Rule.placeless]

/-- The rules of a theme as if all settings were the first. -/
theorem Definition.map_placeless_rules (d : Definition) :
    d.rules.map Rule.placeless = d.settings.flatMap (·.rules 0) := by
  have h : d.settings = d.settings.zipIdx.map (·.1) := by simp
  rw [rules, List.map_flatMap]
  conv_rhs => rw [h, List.flatMap_map]
  exact List.flatMap_congr fun p _ => p.1.map_placeless_rules p.2

theorem pairwise_zipIdx (settings : List Setting) :
    settings.zipIdx.Pairwise (fun p q => p.2 < q.2) := by
  have h := List.pairwise_lt_range' (s := 0) (n := settings.length)
  rw [← List.zipIdx_map_snd 0 settings] at h
  exact List.pairwise_map.1 h

theorem Definition.pairwise_index_rules (d : Definition) :
    d.rules.Pairwise (fun a b => a.index ≤ b.index) := by
  refine List.pairwise_flatMap.2 ⟨fun p _ => ?_, (pairwise_zipIdx _).imp fun {p q} hpq => ?_⟩
  · refine List.pairwise_of_forall_mem_list fun a ha b hb => ?_
    rw [Setting.index_of_mem_rules ha, Setting.index_of_mem_rules hb]
  · intro a ha b hb
    rw [Setting.index_of_mem_rules ha, Setting.index_of_mem_rules hb]
    exact hpq.le

/-- Sorting keeps the order of the rules about the same. -/
theorem Definition.filter_sortedRules (d : Definition) (k : String × List String) :
    d.sortedRules.filter (·.about = k) = d.rules.filter (·.about = k) := by
  refine Order.filter_sort (d.pairwise_index_rules.imp fun {a b} hab ha hb => ?_)
  rw [decide_eq_true_eq] at ha hb
  exact Rule.order_of_about_eq (ha.trans hb.symm) hab

theorem Definition.pairwise_about_sortedRules (d : Definition) :
    d.sortedRules.Pairwise (fun a b => (Rule.compareAbout a.about b.about).isLE = true) :=
  d.pairwise_sortedRules.imp Rule.compareAbout_of_order

/-- **The sorted rules of some kind are told by the settings**: apart from their places, they are
the same for two themes whose settings have, for everything, the same rules of that kind about it
in the same order. -/
theorem Definition.filter_map_placeless_sortedRules_eq {d d' : Definition} {kind : Rule → Bool}
    (h : ∀ k, ((d.settings.flatMap (·.rules 0)).filter kind).filter (·.about = k) =
      ((d'.settings.flatMap (·.rules 0)).filter kind).filter (·.about = k)) :
    (d.sortedRules.map Rule.placeless).filter kind =
      (d'.sortedRules.map Rule.placeless).filter kind := by
  have hfilter : ∀ (d : Definition) k,
      ((d.sortedRules.map Rule.placeless).filter kind).filter (·.about = k) =
        ((d.settings.flatMap (·.rules 0)).filter kind).filter (·.about = k) := by
    intro d k
    have hsame : (d.sortedRules.map Rule.placeless).filter (·.about = k) =
        (d.settings.flatMap (·.rules 0)).filter (·.about = k) := by
      rw [List.filter_map, ← d.map_placeless_rules, List.filter_map]
      exact congrArg _ (d.filter_sortedRules k)
    rw [List.filter_comm, hsame, List.filter_comm]
  have hsorted : ∀ d : Definition, ((d.sortedRules.map Rule.placeless).filter kind).Pairwise
      (fun a b => (Rule.compareAbout a.about b.about).isLE = true) := fun d =>
    (List.pairwise_map.2 d.pairwise_about_sortedRules).filter _
  have hantisymm : ∀ k l, (Rule.compareAbout k l).isLE = true →
      (Rule.compareAbout l k).isLE = true → k = l :=
    fun k l hkl hlk => Rule.eq_of_compareAbout_eq (Std.OrientedCmp.isLE_antisymm hkl hlk)
  refine Order.eq_of_forall_filter_eq hantisymm Rule.about (hsorted d) (hsorted d') fun k => ?_
  rw [hfilter, hfilter, h]

/-- All sorted rules are told by the settings. -/
theorem Definition.map_placeless_sortedRules_eq {d d' : Definition}
    (h : ∀ k, (d.settings.flatMap (·.rules 0)).filter (·.about = k) =
      (d'.settings.flatMap (·.rules 0)).filter (·.about = k)) :
    d.sortedRules.map Rule.placeless = d'.sortedRules.map Rule.placeless := by
  have hall := @filter_map_placeless_sortedRules_eq d d' (fun _ => true)
  simp only [List.filter_true] at hall
  exact hall h

/-! ## Places are not read -/

theorem addRule_placeless (state : Trie × ColorMap) (r : Rule) :
    addRule state r.placeless = addRule state r := rfl

/-- **A theme is made of its rules without their places.** -/
theorem ofRules_map_placeless (rules : List Rule) (colors : ColorMap) :
    ofRules (rules.map Rule.placeless) colors = ofRules rules colors := by
  have hscope : (fun r : Rule => r.scope.isEmpty) ∘ Rule.placeless = (·.scope.isEmpty) := rfl
  rw [ofRules, ofRules, List.takeWhile_map, List.dropWhile_map, hscope, List.foldl_map]
  simp only [List.foldlM_map, addRule_placeless]
  rfl

/-! ## Settings in another order -/

/-- Two settings have rules for one scope with the same scopes around it. -/
def Setting.Meets (s t : Setting) : Prop := ∃ r ∈ s.rules 0, ∃ q ∈ t.rules 0, r.about = q.about

instance (s t : Setting) : Decidable (s.Meets t) :=
  inferInstanceAs (Decidable (∃ r ∈ s.rules 0, ∃ q ∈ t.rules 0, r.about = q.about))

/-- **The same settings in another order**, in which any two that meet stand as before. The
settings are listed in the new order with their old places. -/
def Definition.Reorders (d d' : Definition) : Prop :=
  ∃ placed : List (Setting × Nat), placed.Perm d.settings.zipIdx ∧
    placed.map (·.1) = d'.settings ∧
    placed.Pairwise (fun p q => p.1.Meets q.1 → p.2 < q.2)

theorem flatMap_eq_flatMap_filter {α β : Type} (f : α → List β) (xs : List α) :
    xs.flatMap f = (xs.filter (fun x => !(f x).isEmpty)).flatMap f := by
  induction xs with
  | nil => rfl
  | cons x xs ih =>
    rw [List.flatMap_cons, ih, List.filter_cons]
    split
    · rw [List.flatMap_cons]
    · next h =>
      have hx : f x = [] := by simpa using h
      rw [hx, List.nil_append]

/-- In another order, there are the same rules about a thing in the same order. -/
theorem Definition.Reorders.filter_rules {d d' : Definition} (h : d.Reorders d')
    (k : String × List String) :
    (d'.settings.flatMap (·.rules 0)).filter (·.about = k) =
      (d.settings.flatMap (·.rules 0)).filter (·.about = k) := by
  obtain ⟨placed, hperm, hmap, hkeeps⟩ := h
  let rulesAbout := fun p : Setting × Nat => (p.1.rules 0).filter (·.about = k)
  let hasSome := fun p => !(rulesAbout p).isEmpty
  have hsome : ∀ {p}, hasSome p = true → ∃ r ∈ p.1.rules 0, r.about = k := by
    intro p hp
    rw [Bool.not_eq_true', List.isEmpty_eq_false_iff] at hp
    obtain ⟨r, hr⟩ := List.exists_mem_of_ne_nil _ hp
    exact ⟨r, (List.mem_filter.1 hr).1, of_decide_eq_true (List.mem_filter.1 hr).2⟩
  -- settings without a rule about `k` play no part, and those with one meet each other
  have hsame : placed.filter hasSome = d.settings.zipIdx.filter hasSome := by
    have hantisymm : ∀ p q, p ∈ placed.filter hasSome → q ∈ d.settings.zipIdx.filter hasSome →
        p.2 < q.2 → q.2 < p.2 → p = q :=
      fun _ _ _ _ hpq hqp => absurd hpq hqp.asymm
    refine (hperm.filter hasSome).eq_of_pairwise hantisymm ?_ ((pairwise_zipIdx _).filter _)
    refine List.Pairwise.imp_of_mem (fun {p q} hp hq hpq => hpq ?_) (hkeeps.filter _)
    obtain ⟨r, hr, hrk⟩ := hsome (List.mem_filter.1 hp).2
    obtain ⟨t, ht, htk⟩ := hsome (List.mem_filter.1 hq).2
    exact ⟨r, hr, t, ht, hrk.trans htk.symm⟩
  calc (d'.settings.flatMap (·.rules 0)).filter (·.about = k)
      = placed.flatMap rulesAbout := by rw [← hmap, List.flatMap_map, List.filter_flatMap]
    _ = (placed.filter hasSome).flatMap rulesAbout := flatMap_eq_flatMap_filter _ _
    _ = (d.settings.zipIdx.filter hasSome).flatMap rulesAbout := by rw [hsame]
    _ = d.settings.zipIdx.flatMap rulesAbout := (flatMap_eq_flatMap_filter _ _).symm
    _ = (d.settings.flatMap (·.rules 0)).filter (·.about = k) := by
      rw [List.filter_flatMap, ← List.flatMap_map (fun p : Setting × Nat => p.1)
        (fun s => (s.rules 0).filter (·.about = k)), List.zipIdx_map_fst]

/-- **The order of settings does not matter** where they do not meet: the theme, or the colour
that it lacks, is the same. -/
theorem ofDefinition_eq_of_reorders {d d' : Definition} (h : d.Reorders d')
    (frozen : Option (List String)) : ofDefinition d' frozen = ofDefinition d frozen := by
  rw [ofDefinition, ofDefinition, ← ofRules_map_placeless,
    Definition.map_placeless_sortedRules_eq h.filter_rules, ofRules_map_placeless]

/-- Settings for a scope by itself, for it inside another, and for it by itself once more. -/
def inks : Definition where
  settings :=
    [{ scope := some (.one "string"), style := some { foreground := some "#ff0000" } },
     { scope := some (.one "comment, source string"), style := some { fontStyle := some "bold" } },
     { scope := some (.many ["string", "text"]), style := some { foreground := some "#00f" } }]

/-- The same with the first two settings exchanged. -/
def inksExchanged : Definition where
  settings :=
    [{ scope := some (.one "comment, source string"), style := some { fontStyle := some "bold" } },
     { scope := some (.one "string"), style := some { foreground := some "#ff0000" } },
     { scope := some (.many ["string", "text"]), style := some { foreground := some "#00f" } }]

theorem inks_reorders : inks.Reorders inksExchanged := by
  refine ⟨inksExchanged.settings.zip [1, 0, 2], List.Perm.swap _ _ _, rfl, ?_⟩
  decide +kernel

/-- The settings of the theme above may be exchanged: the first two do not meet. -/
theorem ofDefinition_inksExchanged :
    inks.Reorders inksExchanged ∧ ofDefinition inksExchanged none = ofDefinition inks none :=
  ⟨inks_reorders, ofDefinition_eq_of_reorders inks_reorders none⟩

end Highlight.Theme
