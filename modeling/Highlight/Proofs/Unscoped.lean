import Highlight.Proofs.Frozen
import Mathlib.Data.List.Flatten
import Mathlib.Data.List.TakeWhile

/-!
# Settings that leave the defaults alone

The defaults of a theme are for the text that no setting names, and a setting that names scopes
should be without effect on them. There is no word for that in a rule: what makes a rule set the
defaults is that its scope is empty, and a scope that is cut out of a text is empty for other
reasons too. Commas at the ends of the text separate nothing, but two commas in a row do, and so
does a comma with nothing but white space behind it. A setting for `letter,,digit` names two
scopes and recolours the whole document.

So a setting leaves the defaults of every theme alone exactly if no piece of its scope text is
blank, or if it sets nothing at all.
-/

namespace Highlight

namespace Text

/-- **A text is blank**: there is nothing but white space in it. -/
def IsBlank (s : String) : Prop := ∀ c ∈ s.toList, Unicode.isBlank c = true

theorem trimBoth_eq_empty_iff {p : Char → Bool} {s : String} :
    trimBoth p s = "" ↔ ∀ c ∈ s.toList, p c = true := by
  rw [trimBoth, String.ofList_eq_empty_iff, List.reverse_eq_nil_iff, List.dropWhile_eq_nil_iff]
  constructor
  · intro h
    refine List.dropWhile_eq_nil_iff.1 ?_
    by_contra hne
    have hhead := List.head_dropWhile_not p hne
    exact absurd (h _ (List.mem_reverse.2 (List.head_mem hne))) (by simp [hhead])
  · intro h
    rw [List.dropWhile_eq_nil_iff.2 h]
    exact List.forall_mem_nil _

/-- **The last word of a trimmed text is empty** exactly if the text is blank. -/
theorem headD_reverse_split_trim {s : String} :
    (split ' ' (trim s)).reverse.headD "" = "" ↔ IsBlank s := by
  rw [IsBlank, ← trimBoth_eq_empty_iff]
  constructor
  · intro h
    cases hwords : (split ' ' (trim s)).reverse with
    | nil => simp [split] at hwords
    | cons last before =>
      obtain rfl : last = "" := by simpa [hwords] using h
      obtain rfl := eq_nil_of_reverse_split_trim hwords
      have hlist := toList_eq_intercalate ' ' (trim s)
      rw [List.reverse_eq_iff.1 hwords] at hlist
      exact String.toList_eq_nil_iff.1 (hlist.trans (by simp [List.intercalate]))
  · intro h
    rw [trim, h]
    rfl

end Text

namespace Theme

/-! ## Rules that set the defaults -/

attribute [ext] Look

/-- What a style sets, as written. A text that is not a colour sets none. -/
def StyleText.look (style : StyleText) : Look where
  fontStyle := style.fontStyle.map .ofText
  foreground := (style.foreground.filter isColor).map Unicode.upper
  background := (style.background.filter isColor).map Unicode.upper

/-- The look of the defaults. -/
def Defaults.look (d : Defaults) : Look where
  fontStyle := some d.fontStyle
  foreground := some (Unicode.upper d.foreground)
  background := some (Unicode.upper d.background)

theorem Defaults.look_next (d : Defaults) (r : Rule) : (d.next r).look = r.look.orElse d.look := by
  obtain ⟨_, _, _, font, fore, back⟩ := r
  cases font <;> cases fore <;> cases back <;> rfl

theorem Defaults.next_of_look {r : Rule} (h : r.look = {}) (d : Defaults) : d.next r = d := by
  obtain ⟨hfont, hfore, hback⟩ := Look.mk.inj h
  rw [next, hfont, Option.map_eq_none_iff.1 hfore, Option.map_eq_none_iff.1 hback]
  rfl

namespace Setting

/-- The rules of a setting that set the defaults. -/
def unscoped (s : Setting) : List Rule := (s.rules 0).filter (·.scope.isEmpty)

/-- **A setting names scopes and nothing else**: no piece of its scope text is blank. -/
def NamesScopes (s : Setting) : Prop := ∀ text ∈ ScopeText.texts s.scope, ¬ Text.IsBlank text

/-- **A setting is idle**: its style sets nothing. -/
def IsIdle (s : Setting) : Prop := ∀ style ∈ s.style, style.look = {}

/-- All rules of a setting set the same. -/
theorem look_of_mem_rules {s : Setting} {style : StyleText} (hstyle : s.style = some style)
    {index : Nat} {r : Rule} (h : r ∈ s.rules index) : r.look = style.look := by
  rw [rules, hstyle] at h
  obtain ⟨text, -, rfl⟩ := List.mem_map.1 h
  rfl

/-- A setting sets the defaults where it names none, or where a piece of its text is blank. -/
theorem unscoped_ne_nil_iff {s : Setting} {style : StyleText} (hstyle : s.style = some style) :
    s.unscoped ≠ [] ↔ ¬ s.NamesScopes := by
  rw [unscoped, rules, hstyle]
  simp only [ne_eq, List.filter_eq_nil_iff, List.forall_mem_map, String.isEmpty_iff,
    Text.headD_reverse_split_trim, NamesScopes]

theorem unscoped_of_namesScopes {s : Setting} (h : s.NamesScopes) : s.unscoped = [] := by
  cases hstyle : s.style with
  | none => simp [unscoped, rules, hstyle]
  | some style =>
    by_contra hne
    exact (unscoped_ne_nil_iff hstyle).1 hne h

end Setting

/-- The defaults are told by the settings in their order. -/
theorem Definition.defaults_eq_foldl (d : Definition) :
    d.defaults = (d.settings.flatMap Setting.unscoped).foldl Defaults.next {} := by
  have hrules : d.settings.flatMap Setting.unscoped =
      (d.rules.filter (·.scope.isEmpty)).map Rule.placeless := by
    have hfilter : d.settings.flatMap Setting.unscoped =
        (d.rules.map Rule.placeless).filter (·.scope.isEmpty) := by
      rw [d.map_placeless_rules, List.filter_flatMap]
      rfl
    rw [hfilter, List.filter_map]
    rfl
  rw [defaults, takeWhile_sortedRules, hrules, List.foldl_map]
  rfl

/-! ## Without a setting -/

/-- **A setting leaves the defaults alone**: whatever theme it stands in and whatever list fixes
the colours, the theme can be made without the setting as well, and its defaults show the same
look. -/
def Setting.LeavesDefaults (s : Setting) : Prop :=
  ∀ name before after frozen theme,
    ofDefinition ⟨name, before ++ s :: after⟩ frozen = .ok theme →
      ∃ without, ofDefinition ⟨name, before ++ after⟩ frozen = .ok without ∧
        ∃ look, theme.defaults.Shows theme.colorMap look ∧
          without.defaults.Shows without.colorMap look

/-- An idle setting changes nothing, also if a piece of its text is blank. -/
theorem Setting.IsIdle.foldl_next {s : Setting} (h : s.IsIdle) (d : Defaults) :
    s.unscoped.foldl Defaults.next d = d := by
  refine List.foldlRecOn s.unscoped Defaults.next (motive := (· = d)) rfl ?_
  rintro _ rfl r hr
  have hmem := List.mem_of_mem_filter hr
  cases hstyle : s.style with
  | none => simp [rules, hstyle] at hmem
  | some style => exact Defaults.next_of_look ((look_of_mem_rules hstyle hmem).trans (h _ hstyle)) _

section Without

variable {s : Setting} {name : Option String} {before after : List Setting}

theorem Setting.defaults_without (h : s.NamesScopes ∨ s.IsIdle) :
    Definition.defaults ⟨name, before ++ after⟩ =
      Definition.defaults ⟨name, before ++ s :: after⟩ := by
  have hfold : ∀ d, s.unscoped.foldl Defaults.next d = d := by
    rcases h with h | h
    · simp [s.unscoped_of_namesScopes h]
    · exact h.foldl_next
  rw [Definition.defaults_eq_foldl, Definition.defaults_eq_foldl, List.flatMap_append,
    List.flatMap_append, List.flatMap_cons, List.foldl_append, List.foldl_append,
    List.foldl_append, hfold]

/-- A rule of the theme without a setting is one of the theme, but for its place. -/
theorem exists_mem_rules_of_without {r : Rule}
    (h : r ∈ Definition.rules ⟨name, before ++ after⟩) :
    ∃ r' ∈ Definition.rules ⟨name, before ++ s :: after⟩, r'.placeless = r.placeless := by
  have hmem : r.placeless ∈ (before ++ after).flatMap (·.rules 0) := by
    rw [← Definition.map_placeless_rules ⟨name, before ++ after⟩]
    exact List.mem_map_of_mem h
  have hmem' : r.placeless ∈ (before ++ s :: after).flatMap (·.rules 0) :=
    (((List.sublist_cons_self s after).append_left before).flatMap _).subset hmem
  rw [← Definition.map_placeless_rules ⟨name, before ++ s :: after⟩] at hmem'
  exact List.mem_map.1 hmem'

/-- A theme needs no colour more without a setting that leaves its defaults alone. -/
theorem Setting.needs_of_without (h : s.NamesScopes ∨ s.IsIdle) {color : String}
    (hneeds : Definition.Needs ⟨name, before ++ after⟩ color) :
    Definition.Needs ⟨name, before ++ s :: after⟩ color := by
  cases hneeds with
  | foreground =>
    rw [← Definition.foreground_defaults, defaults_without h, Definition.foreground_defaults]
    exact .foreground
  | background =>
    rw [← Definition.background_defaults, defaults_without h, Definition.background_defaults]
    exact .background
  | @rule r _ mem named sets =>
    obtain ⟨r', hr', hsame⟩ := exists_mem_rules_of_without (s := s) mem
    obtain ⟨hscope, -, -, -, hfore, hback⟩ := Rule.mk.inj hsame
    exact .rule hr' (hscope ▸ named) (hfore ▸ hback ▸ sets)

theorem Setting.exists_without (h : s.NamesScopes ∨ s.IsIdle) {frozen : Option (List String)}
    {theme : Theme} (htheme : ofDefinition ⟨name, before ++ s :: after⟩ frozen = .ok theme) :
    ∃ without, ofDefinition ⟨name, before ++ after⟩ frozen = .ok without := by
  cases frozen with
  | none =>
    obtain ⟨without, hwithout, -⟩ := exists_ofDefinition ⟨name, before ++ after⟩
    exact ⟨without, hwithout⟩
  | some colors =>
    have hlisted := Definition.forall_mem_colors_iff.1
      (exists_ofDefinition_freeze_iff.1 ⟨theme, htheme⟩)
    refine exists_ofDefinition_freeze_iff.2 (Definition.forall_mem_colors_iff.2 ?_)
    exact fun color hneeds => hlisted color (needs_of_without h hneeds)

theorem Setting.leavesDefaults_of (h : s.NamesScopes ∨ s.IsIdle) : s.LeavesDefaults := by
  intro name before after frozen theme htheme
  obtain ⟨without, hwithout⟩ := exists_without h htheme
  refine ⟨without, hwithout, _, (readsAs_of_ofDefinition htheme).defaults, ?_⟩
  have hlook : Definition.defaultLook ⟨name, before ++ after⟩ =
      Definition.defaultLook ⟨name, before ++ s :: after⟩ := by
    rw [Definition.defaultLook, Definition.defaultLook, defaults_without h]
  exact hlook ▸ (readsAs_of_ofDefinition hwithout).defaults

end Without

/-! ## Settings that change the defaults -/

/-- A style shows one look only. -/
theorem Style.Shows.unique {m : ColorMap} {s : Style} {l l' : Look} (h : s.Shows m l)
    (h' : s.Shows m l') : l = l' :=
  Look.ext (h.fontStyle.symm.trans h'.fontStyle)
    (h.foreground.color.symm.trans h'.foreground.color)
    (h.background.color.symm.trans h'.background.color)

namespace Setting

variable {s : Setting}

theorem LeavesDefaults.defaultLook_eq (h : s.LeavesDefaults) (before : List Setting) :
    Definition.defaultLook ⟨none, before ++ [s]⟩ = Definition.defaultLook ⟨none, before⟩ := by
  obtain ⟨theme, htheme, -⟩ := exists_ofDefinition ⟨none, before ++ [s]⟩
  obtain ⟨without, hwithout, look, hlook, hlook'⟩ := h none before [] none theme htheme
  rw [List.append_nil] at hwithout
  exact ((readsAs_of_ofDefinition htheme).defaults.unique hlook).trans
    ((readsAs_of_ofDefinition hwithout).defaults.unique hlook').symm

/-- A setting that differs from black on white in all there is. -/
def bright : Setting where
  style := some { fontStyle := some "bold", foreground := some "#EEE", background := some "#111" }

/-- **What a setting sets for the empty scope is set in every theme that it ends.** As not all
themes look alike without it, a setting that leaves the defaults alone does not set it. -/
theorem LeavesDefaults.property_eq_none (h : s.LeavesDefaults) (hs : ¬ s.NamesScopes)
    {style : StyleText} (hstyle : s.style = some style) {α : Type} (property : Look → Option α)
    (horElse : ∀ l base : Look, property (l.orElse base) = (property l).or (property base))
    (hbright : property (Definition.defaultLook ⟨none, []⟩) ≠
      property (Definition.defaultLook ⟨none, [bright]⟩)) : property style.look = none := by
  by_contra hsets
  obtain ⟨a, ha⟩ := Option.ne_none_iff_exists'.1 hsets
  have hsame : ∀ before, property (Definition.defaultLook ⟨none, before⟩) = some a := by
    intro before
    obtain ⟨init, last, hlast⟩ :=
      (List.eq_nil_or_concat' s.unscoped).resolve_left ((unscoped_ne_nil_iff hstyle).2 hs)
    have hmem : last ∈ s.unscoped := hlast ▸ List.mem_append_right _ List.mem_cons_self
    have hdefaults := Definition.defaults_eq_foldl ⟨none, before ++ [s]⟩
    rw [List.flatMap_append, List.flatMap_singleton, hlast, ← List.append_assoc,
      List.foldl_append] at hdefaults
    calc property (Definition.defaultLook ⟨none, before⟩)
        = property (Definition.defaults ⟨none, before ++ [s]⟩).look :=
          congrArg property (h.defaultLook_eq before).symm
      _ = (property last.look).or _ := by
          rw [hdefaults, List.foldl_cons, List.foldl_nil, Defaults.look_next, horElse]
      _ = some a := by
          rw [look_of_mem_rules hstyle (List.mem_of_mem_filter hmem), ha, Option.some_or]
  exact hbright ((hsame []).trans (hsame [bright]).symm)

theorem LeavesDefaults.isIdle (h : s.LeavesDefaults) (hs : ¬ s.NamesScopes) : s.IsIdle :=
  fun _ hstyle => Look.ext
    (h.property_eq_none hs hstyle Look.fontStyle (fun _ _ => rfl) (by decide +kernel))
    (h.property_eq_none hs hstyle Look.foreground (fun _ _ => rfl) (by decide +kernel))
    (h.property_eq_none hs hstyle Look.background (fun _ _ => rfl) (by decide +kernel))

/-- **A setting leaves the defaults of every theme alone** exactly if it names scopes in all pieces
of its text, or if it sets nothing. -/
theorem leavesDefaults_iff (s : Setting) : s.LeavesDefaults ↔ s.NamesScopes ∨ s.IsIdle :=
  ⟨fun h => or_iff_not_imp_left.2 h.isIdle, leavesDefaults_of⟩

/-- A setting has a scope: there is something in its text besides commas and white space, or its
texts are not blank. -/
def HasScope (s : Setting) : Prop :=
  match s.scope with
  | none => False
  | some (.one text) => ∃ c ∈ text.toList, c ≠ ',' ∧ Unicode.isBlank c = false
  | some (.many texts) => ∀ text ∈ texts, ¬ Text.IsBlank text

/-- A colour for letters and digits, with a comma too many. -/
def lettersDigits : Setting where
  scope := some (.one "letter,,digit")
  style := some { foreground := some "#112233" }

/-- **A comma too many recolours the whole document.** The setting is for letters and digits, but
without it the text around them is black. -/
theorem not_leavesDefaults_lettersDigits :
    lettersDigits.HasScope ∧ ¬ lettersDigits.LeavesDefaults ∧
      (Definition.defaultLook ⟨none, [lettersDigits]⟩).foreground = some "#112233" ∧
      (Definition.defaultLook ⟨none, []⟩).foreground = some "#000000" := by
  have hwith : (Definition.defaultLook ⟨none, [lettersDigits]⟩).foreground = some "#112233" := by
    decide +kernel
  have hwithout : (Definition.defaultLook ⟨none, []⟩).foreground = some "#000000" := by
    decide +kernel
  refine ⟨⟨'l', by decide, by decide, by decide⟩, fun h => ?_, hwith, hwithout⟩
  have hsame := congrArg Look.foreground (h.defaultLook_eq [])
  exact absurd (hwith.symm.trans (hsame.trans hwithout)) (by decide)

end Setting

end Theme

end Highlight
