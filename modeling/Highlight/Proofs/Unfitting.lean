import Highlight.Proofs.Readings
import Highlight.Proofs.Reordering

/-!
# Rules that do not fit leave no trace

A rule with parents has its place among the other rules for its scope long before anyone asks
whether its parents fit: a node is made for it, which inherits at that moment, it is copied to the
nodes below, it is put together with rules for the same parents, it takes part in the sorting, and
its colours take numbers. None of this is seen where its parents do not fit: **themes that have the
same fitting rules show the same look**.

On the reading of a theme without its trie this comes down to a filter, which passes each stage:
adding rules to clauses, since only rules with the same parents are put together; and sorting, if
specificity is an order. Themes without arrows are of this kind, and among rules that go round in
a circle one that does not fit may well decide which other one is taken.
-/

namespace Highlight.Theme

/-! ## Some of the clauses -/

section Kept

variable (p : List String → Bool)

/-- What is said by the clauses whose parents are of some kind. -/
def Reading.only (x : Reading) : Reading := { x with inside := x.inside.filter (p ·.parents) }

theorem filter_addClause (anywhere : Clause) (r : Rule) (cs : List Clause) :
    (addClause anywhere r cs).filter (p ·.parents) =
      if p r.parents then addClause anywhere r (cs.filter (p ·.parents))
      else cs.filter (p ·.parents) := by
  induction cs with
  | nil => simp [addClause, List.filter_cons]
  | cons c cs ih =>
    rw [addClause]
    split
    · next heq =>
      have hadd : (c.add r).parents = c.parents := rfl
      rw [List.filter_cons, List.filter_cons, hadd, heq]
      split
      · rw [addClause, if_pos heq]
      · rfl
    · next hne =>
      rw [List.filter_cons, ih, List.filter_cons]
      split
      · split
        · rw [addClause, if_neg hne]
        · rfl
      · rfl

/-- A rule of another kind changes no clause of the kind. -/
theorem Reading.only_add (hnil : p [] = true) (x : Reading) (r : Rule) :
    (x.add r).only p = if p r.parents then (x.only p).add r else x.only p := by
  rw [add, only, only, add]
  by_cases hr : r.parents.isEmpty = true
  · have hp : p r.parents = true := by rwa [List.isEmpty_iff.1 hr]
    simp only [hr, hp, if_true]
  · simp only [hr, if_neg, Bool.false_eq_true, not_false_eq_true, filter_addClause]
    split <;> rfl

theorem Reading.only_foldl_add (hnil : p [] = true) (rs : List Rule) (x : Reading) :
    (rs.foldl Reading.add x).only p =
      (rs.filter (p ·.parents)).foldl Reading.add (x.only p) := by
  induction rs generalizing x with
  | nil => rfl
  | cons r rs ih =>
    rw [List.foldl_cons, ih, only_add p hnil, List.filter_cons]
    split <;> rfl

/-- **The rules of a kind give the clauses of that kind**, and the one that applies anywhere. -/
theorem readingOf_filter (hnil : p [] = true) (rs : List Rule) (ss : List String) :
    readingOf (rs.filter (p ·.parents)) ss = (readingOf rs ss).only p := by
  rw [readingOf, readingOf, Reading.only_foldl_add p hnil, above, List.filter_comm]
  rfl

theorem Reading.clauses_only (hnil : p [] = true) {x : Reading} (hx : x.anywhere.parents = []) :
    (x.only p).clauses = x.clauses.filter (p ·.parents) := by
  simp [clauses, only, hx, hnil]

end Kept

/-! ## Clauses in order -/

/-- Clauses by the depth of their scopes, the word of lengths, and the length of the list. -/
def Clause.compareWords (a b : Clause) : Ordering := a.entry.compareWords b.entry

instance : Std.TransCmp Clause.compareWords :=
  have key : Std.TransCmp Entry.compareWords := inferInstance
  { eq_swap := key.eq_swap
    isLE_trans := key.isLE_trans }

section NoArrows

variable {rs : List Rule} (harrows : ∀ r ∈ rs, ">" ∉ r.parents)

include harrows

/-- Arrows among the parents of a clause are those of a rule. -/
theorem not_mem_of_mem_clauses {ss : List String} {c : Clause}
    (hc : c ∈ (readingOf rs ss).clauses) : ">" ∉ c.parents := by
  have hall : rs.filter (fun r => decide (">" ∉ r.parents)) = rs :=
    List.filter_eq_self.2 fun r hr => decide_eq_true (harrows r hr)
  have honly := readingOf_filter (fun parents => decide (">" ∉ parents)) (by decide) rs ss
  rw [hall] at honly
  rw [honly, Reading.clauses_only _ (by decide) (anywhere_foldl_add _ _)] at hc
  exact of_decide_eq_true (List.mem_filter.1 hc).2

/-- Without arrows specificity orders the clauses. -/
theorem isOrderOn_clauses (ss : List String) :
    Order.IsOrderOn (fun a b => (a.compareSpecificity b).isLT) (readingOf rs ss).clauses := by
  have hwords : ∀ a ∈ (readingOf rs ss).clauses, ∀ b ∈ (readingOf rs ss).clauses,
      a.compareSpecificity b = a.compareWords b := fun a ha b hb =>
    Entry.compareSpecificity_eq fun _ => Entry.consistent_of_not_mem
      (not_mem_of_mem_clauses harrows ha) (not_mem_of_mem_clauses harrows hb)
  exact (Order.isPreorderOn_of_eq hwords).isOrderOn

/-- **Rules that do not fit make no difference to a path.** -/
theorem lookFor?_filter (path : ScopePath) :
    lookFor? (rs.filter (fits path.ancestors ·.parents)) path = lookFor? rs path := by
  have hnil : fits path.ancestors [] = true := by rw [fits]
  rw [lookFor?, readingOf_filter _ hnil,
    Reading.clauses_only _ hnil (anywhere_foldl_add _ _),
    ← Order.filter_sort_of_isOrderOn _ (isOrderOn_clauses harrows _), List.find?_filter, lookFor?]
  simp only [and_self, Bool.decide_eq_true]

end NoArrows

/-! ## Themes with the same fitting rules -/

theorem addClause_placeless (anywhere : Clause) (r : Rule) (cs : List Clause) :
    addClause anywhere r.placeless cs = addClause anywhere r cs := by
  induction cs with
  | nil => rfl
  | cons c cs ih =>
    rw [addClause, ih]
    rfl

theorem Reading.add_placeless (x : Reading) (r : Rule) : x.add r.placeless = x.add r := by
  rw [add, addClause_placeless]
  rfl

theorem readingOf_map_placeless (rs : List Rule) (ss : List String) :
    readingOf (rs.map Rule.placeless) ss = readingOf rs ss := by
  have habove : above (rs.map Rule.placeless) ss = (above rs ss).map Rule.placeless :=
    List.filter_map
  rw [readingOf, habove, List.foldl_map]
  simp only [Reading.add_placeless]
  rfl

theorem lookFor?_map_placeless (rs : List Rule) (path : ScopePath) :
    lookFor? (rs.map Rule.placeless) path = lookFor? rs path := by
  rw [lookFor?, readingOf_map_placeless, lookFor?]

namespace Definition

variable {d d' : Definition}

theorem map_placeless_scopedRules (d : Definition) :
    d.scopedRules.map Rule.placeless =
      (d.sortedRules.map Rule.placeless).filter (fun r => !r.scope.isEmpty) := by
  rw [scopedRules_eq_filter, List.filter_map]
  rfl

theorem not_mem_of_mem_scopedRules (harrows : ∀ r ∈ d.rules, ">" ∉ r.parents) :
    ∀ r ∈ d.scopedRules, ">" ∉ r.parents :=
  fun r hr => harrows r (mem_scopedRules.1 hr).1

/-- **What is set for a path is told by the rules that fit**, in the order of the settings. -/
theorem lookFor?_eq_of_filter_eq (harrows : ∀ r ∈ d.rules, ">" ∉ r.parents)
    (harrows' : ∀ r ∈ d'.rules, ">" ∉ r.parents) (path : ScopePath)
    (h : (d.settings.flatMap (·.rules 0)).filter (fits path.ancestors ·.parents) =
      (d'.settings.flatMap (·.rules 0)).filter (fits path.ancestors ·.parents)) :
    lookFor? d.scopedRules path = lookFor? d'.scopedRules path := by
  have hsorted := filter_map_placeless_sortedRules_eq fun k =>
    congrArg (List.filter (·.about = k)) h
  have hfits : ∀ {d : Definition}, (∀ r ∈ d.rules, ">" ∉ r.parents) →
      lookFor? d.scopedRules path = lookFor? (((d.sortedRules.map Rule.placeless).filter
        (fits path.ancestors ·.parents)).filter (fun r => !r.scope.isEmpty)) path := by
    intro d harrows
    rw [List.filter_comm, ← map_placeless_scopedRules, List.filter_map, lookFor?_map_placeless]
    exact (lookFor?_filter (not_mem_of_mem_scopedRules harrows) path).symm
  rw [hfits harrows, hfits harrows', hsorted]

end Definition

/-! ## One rule more -/

/-- **One rule more**: a theme has the rules of another and, somewhere among them, one more. The
places of the settings do not count. -/
def Definition.Adds (d : Definition) (r : Rule) (d' : Definition) : Prop :=
  ∃ before after, d.settings.flatMap (·.rules 0) = before ++ after ∧
    d'.settings.flatMap (·.rules 0) = before ++ r :: after

namespace Definition.Adds

variable {d d' : Definition} {r : Rule}

/-- A setting with one rule adds it, wherever it is put. -/
theorem of_setting (name : Option String) (before after : List Setting) {s : Setting}
    (hs : s.rules 0 = [r]) : Adds ⟨name, before ++ after⟩ r ⟨name, before ++ s :: after⟩ :=
  ⟨before.flatMap (·.rules 0), after.flatMap (·.rules 0), by simp, by simp [hs]⟩

/-- Of the rules that the new one is not one of, there are the same. -/
theorem filter_eq (h : d.Adds r d') {kind : Rule → Bool} (hr : kind r = false) :
    (d.settings.flatMap (·.rules 0)).filter kind =
      (d'.settings.flatMap (·.rules 0)).filter kind := by
  obtain ⟨before, after, hd, hd'⟩ := h
  simp [hd, hd', hr]

theorem forall_parents {P : List String → Prop} (h : d.Adds r d') (hd : ∀ q ∈ d.rules, P q.parents)
    (hr : P r.parents) : ∀ q ∈ d'.rules, P q.parents := by
  obtain ⟨before, after, hsplit, hsplit'⟩ := h
  rw [← map_placeless_rules] at hsplit hsplit'
  have hold : ∀ q ∈ before ++ after, P q.parents := by
    rw [← hsplit]
    exact List.forall_mem_map.2 hd
  intro q hq
  have hmem : q.placeless ∈ before ++ r :: after := hsplit' ▸ List.mem_map_of_mem hq
  change P q.placeless.parents
  rcases List.mem_append.1 hmem with hmem | hmem
  · exact hold _ (List.mem_append_left _ hmem)
  · rcases List.mem_cons.1 hmem with heq | hmem
    · rwa [heq]
    · exact hold _ (List.mem_append_right _ hmem)

/-- **A rule leaves no trace where its parents do not fit.** If a theme without arrows has one rule
more, also without arrows, both themes can be made, and at every path whose scopes around do not
fit the parents of the rule they show the same look, each in its own colours. -/
theorem exists_showsAt (h : d.Adds r d') (harrows : ∀ q ∈ d.rules, ">" ∉ q.parents)
    (hr : ">" ∉ r.parents) :
    ∃ theme theme', ofDefinition d none = .ok theme ∧ ofDefinition d' none = .ok theme' ∧
      ∀ path : ScopePath, fits path.ancestors r.parents = false →
        ∃ look, theme.ShowsAt path look ∧ theme'.ShowsAt path look := by
  obtain ⟨theme, htheme, -⟩ := exists_ofDefinition d
  obtain ⟨theme', htheme', -⟩ := exists_ofDefinition d'
  refine ⟨theme, theme', htheme, htheme', fun path hfits => ?_⟩
  have harrows' : ∀ q ∈ d'.rules, ">" ∉ q.parents :=
    h.forall_parents (P := (">" ∉ ·)) harrows hr
  have hsame := lookFor?_eq_of_filter_eq harrows harrows' path (h.filter_eq hfits)
  obtain ⟨look, hlook⟩ := exists_lookFor? d.scopedRules path
  exact ⟨look, (readsAs_of_ofDefinition htheme).showsAt hlook,
    (readsAs_of_ofDefinition htheme').showsAt (hsame ▸ hlook)⟩

end Definition.Adds

/-- Colours for strings, and a font style for quoted ones in a source. -/
def stringInks : Definition where
  settings :=
    [{ scope := some (.one "string"), style := some { foreground := some "#111" } },
     { scope := some (.one "source string.quoted"), style := some { fontStyle := some "bold" } }]

/-- The same with two more colours for strings in a text. -/
def textInks : Definition where
  settings :=
    [{ scope := some (.one "string"), style := some { foreground := some "#111" } },
     { scope := some (.one "text string"),
       style := some { foreground := some "#222", background := some "#333" } },
     { scope := some (.one "source string.quoted"), style := some { fontStyle := some "bold" } }]

/-- The rule for strings in a text. -/
def textInk : Rule := ⟨"string", ["text"], 0, none, some "#222", some "#333"⟩

theorem adds_textInk : stringInks.Adds textInk textInks :=
  .of_setting none [_] [_] rfl

/-- In a source nothing is seen of the colours for strings in a text. -/
theorem exists_showsAt_textInks :
    stringInks.Adds textInk textInks ∧ (∀ q ∈ stringInks.rules, ">" ∉ q.parents) ∧
      ">" ∉ textInk.parents ∧ fits ["source.js"] textInk.parents = false ∧
      ∃ theme theme', ofDefinition stringInks none = .ok theme ∧
        ofDefinition textInks none = .ok theme' ∧
        ∃ look, theme.ShowsAt ⟨"string.quoted", ["source.js"]⟩ look ∧
          theme'.ShowsAt ⟨"string.quoted", ["source.js"]⟩ look := by
  have harrows : ∀ q ∈ stringInks.rules, ">" ∉ q.parents := by decide +kernel
  have hfits : fits ["source.js"] textInk.parents = false := by decide +kernel
  obtain ⟨theme, theme', htheme, htheme', hshows⟩ :=
    adds_textInk.exists_showsAt harrows (by decide)
  exact ⟨adds_textInk, harrows, by decide, hfits, theme, theme', htheme, htheme',
    hshows ⟨"string.quoted", ["source.js"]⟩ hfits⟩

-- With arrows, a rule that does not fit may decide between two others: without the second rule of
-- the circle, which needs one more scope around, the third comes before the first.
example : [circle, ⟨none, circle.settings.eraseIdx 1⟩].map (fun d =>
    (ofDefinition d none).toOption.bind (fun theme =>
      (theme.styleOf? ⟨"z", ["abc", "de", "f"]⟩).bind (theme.colorMap.color? ·.foreground))) =
    [some "#111", some "#333"] := by
  decide +kernel

end Highlight.Theme
