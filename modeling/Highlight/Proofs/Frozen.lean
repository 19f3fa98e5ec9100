import Highlight.Proofs.Packing
import Highlight.Proofs.Readings
import Highlight.Proofs.Reordering

/-!
# Themes with a list of colours

A list of colours fixes the numbers that a theme uses. The theme can be made from it exactly if the
list has every colour that the theme **needs**, in whatever case and at a place other than 0: the
defaults, and the colours of the rules for scopes. A default that a later rule replaces is not
needed, while the colour of a rule for a scope is, even if no path ever shows it.

Where the theme can be made, the list is its map, and nothing but the numbers is different from the
theme without a list: both read as their definition, so they show the same looks.
-/

namespace Highlight

/-! ## Numbers from a list -/

namespace ColorMap

variable {colors : List String}

/-- A list takes nothing in. -/
theorem eq_freeze_of_number {color : Option String} {n : Nat} {m : ColorMap}
    (h : (freeze colors).number color = .ok (n, m)) : m = freeze colors :=
  (@number_after (some colors) [] color n m h).1.trans (after_some ..)

/-- **A list has a number for a colour** exactly if it has the colour, beside its place 0. -/
theorem exists_number_freeze_iff {color : Option String} :
    (∃ n, (freeze colors).number color = .ok (n, freeze colors)) ↔
      ∀ c ∈ color.map Unicode.upper, c ∈ (freeze colors).colors.tail := by
  cases color with
  | none => exact iff_of_true ⟨0, rfl⟩ fun c hc => absurd hc (Option.not_mem_none c)
  | some color =>
    have hnone : (freeze colors).find? (Unicode.upper color) = none ↔
        Unicode.upper color ∉ (freeze colors).colors.tail :=
      (coherent_freeze colors).find?_eq_none_iff
    simp only [Option.map_some, Option.mem_some_iff, forall_eq', number_eq_ok_iff, ask]
    obtain ⟨n, hfind, hget⟩ | ⟨hfind, -, hget⟩ | ⟨-, hfree, -⟩ :=
      (freeze colors).get_cases (Unicode.upper color)
    · refine iff_of_true ⟨n, hget⟩ ?_
      by_contra hmem
      rw [hnone.2 hmem] at hfind
      cases hfind
    · refine iff_of_false ?_ (hnone.1 hfind)
      rintro ⟨n, hn⟩
      rw [hget] at hn
      cases hn
    · cases hfree

end ColorMap

namespace Theme

/-! ## Success -/

section Success

variable {colors : List String}

/-- A rule can be added exactly if the list has its colours. -/
theorem exists_addRule_freeze_iff {t : Trie} {r : Rule} :
    (∃ t', addRule (t, .freeze colors) r = .ok (t', .freeze colors)) ↔
      ∀ c ∈ r.colors, c ∈ (ColorMap.freeze colors).colors.tail := by
  have hcolors : (∀ c ∈ r.colors, c ∈ (ColorMap.freeze colors).colors.tail) ↔
      (∀ c ∈ r.foreground.map Unicode.upper, c ∈ (ColorMap.freeze colors).colors.tail) ∧
        ∀ c ∈ r.background.map Unicode.upper, c ∈ (ColorMap.freeze colors).colors.tail := by
    simp [Rule.colors, Rule.look, or_imp, forall_and]
  rw [hcolors, ← ColorMap.exists_number_freeze_iff, ← ColorMap.exists_number_freeze_iff]
  constructor
  · rintro ⟨t', h⟩
    obtain ⟨style, m₁, -, hfore, hback, -⟩ := exists_of_addRule h
    obtain rfl := ColorMap.eq_freeze_of_number hfore
    exact ⟨⟨_, hfore⟩, ⟨_, hback⟩⟩
  · rintro ⟨⟨foreground, hfore⟩, ⟨background, hback⟩⟩
    refine ⟨t.insert r.parents ⟨r.fontStyle, foreground, background⟩ 0 (Scope.segments r.scope), ?_⟩
    simp [addRule, hfore, hback, bind, Except.bind, pure, Except.pure]

theorem eq_freeze_of_addRule {t t' : Trie} {m : ColorMap} {r : Rule}
    (h : addRule (t, .freeze colors) r = .ok (t', m)) : m = .freeze colors := by
  obtain ⟨style, m₁, -, hfore, hback, -⟩ := exists_of_addRule h
  obtain rfl := ColorMap.eq_freeze_of_number hfore
  exact ColorMap.eq_freeze_of_number hback

/-- Rules can be added exactly if the list has the colours of all of them. -/
theorem exists_foldlM_addRule_freeze_iff {rs : List Rule} {t : Trie} :
    (∃ t' m, rs.foldlM addRule (t, .freeze colors) = .ok (t', m)) ↔
      ∀ c ∈ rs.flatMap Rule.colors, c ∈ (ColorMap.freeze colors).colors.tail := by
  induction rs generalizing t with
  | nil => simp [pure, Except.pure]
  | cons r rs ih =>
    rw [List.flatMap_cons, List.forall_mem_append, ← exists_addRule_freeze_iff (t := t)]
    constructor
    · rintro ⟨t', m, h⟩
      rw [List.foldlM_cons] at h
      obtain ⟨⟨t₁, m₁⟩, hadd, hfold⟩ := exists_of_bind_eq_ok h
      obtain rfl := eq_freeze_of_addRule hadd
      exact ⟨⟨t₁, hadd⟩, ih.1 ⟨t', m, hfold⟩⟩
    · rintro ⟨⟨t₁, hadd⟩, hrest⟩
      obtain ⟨t', m, hfold⟩ := ih.2 hrest
      refine ⟨t', m, ?_⟩
      rw [List.foldlM_cons, hadd]
      exact hfold

/-- **A theme can be made from a list** exactly if the list has all colours of the definition. -/
theorem exists_ofDefinition_freeze_iff {d : Definition} :
    (∃ theme, ofDefinition d (some colors) = .ok theme) ↔
      ∀ c ∈ d.colors, c ∈ (ColorMap.freeze colors).colors.tail := by
  rw [Definition.colors, List.forall_mem_append, List.forall_mem_append,
    ← exists_foldlM_addRule_freeze_iff (t := Trie.empty)]
  constructor
  · rintro ⟨theme, h⟩
    obtain ⟨m₁, m₂, -, hfore, hback, hfold⟩ := exists_of_ofDefinition h
    obtain rfl := ColorMap.eq_freeze_of_number hfore
    obtain rfl := ColorMap.eq_freeze_of_number hback
    refine ⟨⟨?_, ?_⟩, ⟨_, _, hfold⟩⟩
    · simpa using ColorMap.exists_number_freeze_iff.1 ⟨_, hfore⟩
    · simpa using ColorMap.exists_number_freeze_iff.1 ⟨_, hback⟩
  · rintro ⟨⟨hfore, hback⟩, ⟨t, m, hfold⟩⟩
    obtain ⟨foreground, hfore⟩ : ∃ n, (ColorMap.freeze colors).number (some d.defaults.foreground) =
        .ok (n, .freeze colors) := ColorMap.exists_number_freeze_iff.2 (by simpa using hfore)
    obtain ⟨background, hback⟩ : ∃ n, (ColorMap.freeze colors).number (some d.defaults.background) =
        .ok (n, .freeze colors) := ColorMap.exists_number_freeze_iff.2 (by simpa using hback)
    exact ⟨_, ofDefinition_eq hfore hback hfold⟩

end Success

/-! ## The defaults -/

/-- The rules for the empty scope ask for no scopes around: the text of their scope is blank. -/
theorem Setting.parents_eq_nil_of_mem_rules {s : Setting} {index : Nat} {r : Rule}
    (h : r ∈ s.rules index) (hscope : r.scope = "") : r.parents = [] := by
  rw [Setting.rules] at h
  split at h
  · cases h
  · obtain ⟨text, -, rfl⟩ := List.mem_map.1 h
    cases hwords : (Text.split ' ' (Text.trim text)).reverse with
    | nil => simp
    | cons last before =>
      obtain rfl : last = "" := by simpa [hwords] using hscope
      exact Text.eq_nil_of_reverse_split_trim hwords

namespace Definition

/-- The rules that set the defaults, in the order of the settings. -/
theorem takeWhile_sortedRules (d : Definition) :
    d.sortedRules.takeWhile (·.scope.isEmpty) = d.rules.filter (·.scope.isEmpty) := by
  have habout : ∀ r ∈ d.rules, r.scope.isEmpty = decide (r.about = ("", [])) := by
    intro r hr
    obtain ⟨⟨setting, index⟩, -, hmem⟩ := List.mem_flatMap.1 hr
    rw [Bool.eq_iff_iff, String.isEmpty_iff, decide_eq_true_iff, Rule.about, Prod.mk.injEq]
    exact (and_iff_left_of_imp (Setting.parents_eq_nil_of_mem_rules hmem)).symm
  have hsorted : ∀ r ∈ d.sortedRules, r.scope.isEmpty = decide (r.about = ("", [])) := fun r hr =>
    habout r ((Order.perm_sort _ _).mem_iff.1 hr)
  rw [takeWhile_eq_filter d.pairwise_isEmpty_sortedRules, List.filter_congr hsorted,
    filter_sortedRules, List.filter_congr habout]

/-- **The default of a definition** for a property: that of the last rule for the empty scope that
sets it. -/
def defaultOf {α : Type} (d : Definition) (property : Rule → Option α) (standard : α) : α :=
  ((d.rules.filter (·.scope.isEmpty)).reverse.findSome? property).getD standard

theorem foldl_next {α : Type} (value : Defaults → α) (property : Rule → Option α)
    (hnext : ∀ x r, value (Defaults.next x r) = (property r).getD (value x)) (rs : List Rule)
    (x : Defaults) :
    value (rs.foldl Defaults.next x) = (rs.reverse.findSome? property).getD (value x) := by
  induction rs generalizing x with
  | nil => rfl
  | cons r rs ih =>
    rw [List.foldl_cons, ih, hnext, List.reverse_cons, List.findSome?_append,
      List.findSome?_singleton, Option.getD_or]

theorem foreground_defaults (d : Definition) :
    d.defaults.foreground = d.defaultOf (·.foreground) "#000000" := by
  rw [defaults, takeWhile_sortedRules]
  exact foldl_next _ _ (fun _ _ => rfl) _ _

theorem background_defaults (d : Definition) :
    d.defaults.background = d.defaultOf (·.background) "#ffffff" := by
  rw [defaults, takeWhile_sortedRules]
  exact foldl_next _ _ (fun _ _ => rfl) _ _

/-! ## What a theme needs -/

/-- **A definition needs a colour**: as a default, or for a rule for a scope. -/
inductive Needs (d : Definition) : String → Prop
  /-- The foreground that is the default, black if nothing sets it. -/
  | foreground : d.Needs (d.defaultOf (·.foreground) "#000000")
  /-- The background that is the default, white if nothing sets it. -/
  | background : d.Needs (d.defaultOf (·.background) "#ffffff")
  /-- A colour of a rule for a scope. -/
  | rule {r : Rule} {color : String} (mem : r ∈ d.rules) (named : r.scope ≠ "")
      (sets : r.foreground = some color ∨ r.background = some color) : d.Needs color

/-- The colours that are numbered are those that are needed, in uppercase. -/
theorem forall_mem_colors_iff {d : Definition} {P : String → Prop} :
    (∀ c ∈ d.colors, P c) ↔ ∀ color, d.Needs color → P (Unicode.upper color) := by
  constructor
  · intro h color hneeds
    cases hneeds with
    | foreground =>
      rw [← foreground_defaults]
      exact h _ (by simp [colors])
    | background =>
      rw [← background_defaults]
      exact h _ (by simp [colors])
    | rule mem named sets =>
      refine h _ (List.mem_append_right _ (List.mem_flatMap.2
        ⟨_, mem_scopedRules.2 ⟨mem, named⟩, ?_⟩))
      rcases sets with hset | hset <;> simp [Rule.colors, Rule.look, hset]
  · intro h c hc
    rw [colors, List.mem_append, List.mem_append, List.mem_singleton, List.mem_singleton,
      List.mem_flatMap] at hc
    obtain (rfl | rfl) | ⟨r, hr, hc⟩ := hc
    · exact foreground_defaults d ▸ h _ .foreground
    · exact background_defaults d ▸ h _ .background
    · obtain ⟨mem, named⟩ := mem_scopedRules.1 hr
      simp only [Rule.colors, Rule.look, List.mem_append, Option.mem_toList,
        Option.map_eq_some_iff] at hc
      obtain ⟨color, hset, rfl⟩ | ⟨color, hset, rfl⟩ := hc
      · exact h _ (.rule mem named (.inl hset))
      · exact h _ (.rule mem named (.inr hset))

end Definition

/-- **A list has a colour**, in whatever case, at a place other than 0. -/
def Lists (colors : List String) (color : String) : Prop :=
  ∃ place, 1 ≤ place ∧ (colors[place]?).map Unicode.upper = some (Unicode.upper color)

theorem lists_iff {colors : List String} {color : String} :
    Lists colors color ↔ Unicode.upper color ∈ (ColorMap.freeze colors).colors.tail := by
  rw [List.mem_iff_getElem?, ColorMap.freeze]
  constructor
  · rintro ⟨place, hpos, hplace⟩
    refine ⟨place - 1, ?_⟩
    rw [List.getElem?_tail, Nat.sub_add_cancel hpos, List.getElem?_map, hplace]
  · rintro ⟨place, hplace⟩
    rw [List.getElem?_tail, List.getElem?_map] at hplace
    exact ⟨place + 1, Nat.le_add_left _ _, hplace⟩

/-! ## Themes with a list -/

/-- **Frozen colours.** A theme can be made from a list exactly if the list has every colour that
the definition needs. Its map is then the list in uppercase, and the defaults and all paths show
the same looks as in the theme without a list, each in its own colours. -/
theorem exists_ofDefinition_some_iff (d : Definition) (colors : List String) :
    ((∃ theme, ofDefinition d (some colors) = .ok theme) ↔
        ∀ color, d.Needs color → Lists colors color) ∧
      ∀ theme, ofDefinition d (some colors) = .ok theme →
        theme.colorMap.colors = colors.map Unicode.upper ∧
          ∃ free, ofDefinition d none = .ok free ∧
            (∃ look, theme.defaults.Shows theme.colorMap look ∧
              free.defaults.Shows free.colorMap look) ∧
            ∀ path, ∃ look, theme.ShowsAt path look ∧ free.ShowsAt path look := by
  refine ⟨?_, fun theme htheme => ?_⟩
  · simp only [lists_iff]
    rw [exists_ofDefinition_freeze_iff]
    exact Definition.forall_mem_colors_iff
  · obtain ⟨free, hfree, -⟩ := exists_ofDefinition d
    have hreads := readsAs_of_ofDefinition htheme
    have hreads' := readsAs_of_ofDefinition hfree
    obtain ⟨hmap, -⟩ := uses_of_ofDefinition htheme
    rw [ColorMap.after_some] at hmap
    refine ⟨congrArg ColorMap.colors hmap, free, hfree,
      ⟨d.defaultLook, hreads.defaults, hreads'.defaults⟩, fun path => ?_⟩
    obtain ⟨look, hlook⟩ := exists_lookFor? d.scopedRules path
    exact ⟨look, hreads.showsAt hlook, hreads'.showsAt hlook⟩

/-- A dark theme, in which the last setting replaces the foreground of the first. -/
def night : Definition where
  settings :=
    [{ style := some { foreground := some "#111111", background := some "#222222" } },
     { scope := some (.one "string, text note"), style := some { foreground := some "#aaaaaa" } },
     { style := some { foreground := some "#EEEEEE" } }]

/-- A list of colours with what the dark theme needs, and one of them also at place 0. -/
def nightColors : List String := ["#AAAAAA", "#222222", "#eeeeee", "#aaaaaa", "#eeeeee"]

/-- The dark theme can be made from the list, so the list has what it needs, and the theme shows
what it shows without a list. -/
theorem exists_ofDefinition_nightColors :
    ∃ theme, ofDefinition night (some nightColors) = .ok theme ∧
      (∀ color, night.Needs color → Lists nightColors color) ∧
      theme.colorMap.colors = ["#AAAAAA", "#222222", "#EEEEEE", "#AAAAAA", "#EEEEEE"] ∧
      ∃ free, ofDefinition night none = .ok free ∧
        ∃ look, theme.ShowsAt ⟨"note", ["text"]⟩ look ∧ free.ShowsAt ⟨"note", ["text"]⟩ look := by
  have hrun : (ofDefinition night (some nightColors)).toOption.isSome = true := by decide +kernel
  cases htheme : ofDefinition night (some nightColors) with
  | error e => simp [htheme, Except.toOption] at hrun
  | ok theme =>
    obtain ⟨hiff, hsame⟩ := exists_ofDefinition_some_iff night nightColors
    obtain ⟨hmap, free, hfree, -, hpaths⟩ := hsame theme htheme
    have hupper : nightColors.map Unicode.upper =
        ["#AAAAAA", "#222222", "#EEEEEE", "#AAAAAA", "#EEEEEE"] := by decide +kernel
    exact ⟨theme, rfl, hiff.1 ⟨theme, htheme⟩, hmap.trans hupper, free, hfree, hpaths _⟩

-- The colour of strings is missing from a list that has it at place 0 only.
example : (ofDefinition night (some (nightColors.take 3))).toOption.isNone = true := by
  decide +kernel

end Theme

end Highlight
