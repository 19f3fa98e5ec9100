import Highlight.Proofs.Colors
import Highlight.Proofs.Names
import Highlight.Proofs.Sorting
import Highlight.Proofs.Tries
import Highlight.Theme.Basic
import Mathlib.Data.List.Induction
import Mathlib.Tactic.Tauto

/-!
# What a theme gives to a scope

A theme whose rules are for single scopes can be read without its trie: each property of a scope
– font style, foreground, background – has the value of the rule with the longest name among
those that cover the scope and set that property, each property for itself.

The trie keeps no such list. A node inherits **once**, when it is made, and what is set above it
later does not come down any more. That the two readings agree rests on the order in which rules
are added: a name comes before the names below it, so when a node is made everything above it is
final. The invariant says this for what has been added so far, for every scope at once.
-/

namespace Highlight.Theme

/-! ## What rules say, put together -/

/-- **What is set**, with colours and not their numbers. -/
structure Look where
  /-- The font style. -/
  fontStyle : Option FontStyle := none
  /-- The foreground colour, in uppercase. -/
  foreground : Option String := none
  /-- The background colour, in uppercase. -/
  background : Option String := none

/-- What is left unset, taken from `base`. -/
def Look.orElse (l base : Look) : Look where
  fontStyle := l.fontStyle.or base.fontStyle
  foreground := l.foreground.or base.foreground
  background := l.background.or base.background

/-- What a rule sets. -/
def Rule.look (r : Rule) : Look where
  fontStyle := r.fontStyle
  foreground := r.foreground.map Unicode.upper
  background := r.background.map Unicode.upper

/-- What rules set together, later ones before earlier ones. -/
def lookOf (rs : List Rule) : Look :=
  rs.foldl (fun l r => r.look.orElse l) {}

theorem lookOf_concat (rs : List Rule) (r : Rule) :
    lookOf (rs ++ [r]) = r.look.orElse (lookOf rs) := by
  simp [lookOf]

/-- A property of what rules set together is that of the last rule that sets it. -/
theorem lookOf_property {α : Type} (property : Look → Option α)
    (hnone : property {} = none)
    (horElse : ∀ l base : Look, property (l.orElse base) = (property l).or (property base))
    (rs : List Rule) :
    property (lookOf rs) = rs.reverse.findSome? (fun r => property r.look) := by
  induction rs using List.reverseRecOn with
  | nil => exact hnone
  | append_singleton rs r ih =>
    rw [lookOf_concat, horElse, ih, List.reverse_append, List.reverse_singleton,
      List.singleton_append, List.findSome?_cons]
    cases property r.look <;> rfl

/-- **A style shows a look** with the colours of a map. -/
structure Style.Shows (m : ColorMap) (s : Style) (l : Look) : Prop where
  /-- The font style. -/
  fontStyle : s.fontStyle = l.fontStyle
  /-- The foreground colour. -/
  foreground : m.Numbers s.foreground l.foreground
  /-- The background colour. -/
  background : m.Numbers s.background l.background

theorem Style.Shows.mono {m m' : ColorMap} {s : Style} {l : Look} (h : s.Shows m l)
    (hm : m.colors <+: m'.colors) : s.Shows m' l :=
  ⟨h.fontStyle, h.foreground.mono hm, h.background.mono hm⟩

theorem Style.Shows.orElse {m : ColorMap} {s base : Style} {l l' : Look} (h : s.Shows m l)
    (h' : base.Shows m l') : (s.orElse base).Shows m (l.orElse l') where
  fontStyle := by simp [Style.orElse, Look.orElse, h.fontStyle, h'.fontStyle]
  foreground := h.foreground.ite h'.foreground
  background := h.background.ite h'.background

/-- Adding a rule numbers its colours and puts its style into the trie. -/
theorem addRule_of_growing {m : ColorMap} (h : m.IsGrowing) (t : Trie) (r : Rule) :
    ∃ style m', addRule (t, m) r =
        .ok (t.insert r.parents style 0 (Scope.segments r.scope), m') ∧
      m'.IsGrowing ∧ m.colors <+: m'.colors ∧ style.Shows m' r.look := by
  obtain ⟨foreground, m₁, hf, hm₁, hle₁, hfore⟩ := h.number r.foreground
  obtain ⟨background, m₂, hb, hm₂, hle₂, hback⟩ := hm₁.number r.background
  refine ⟨⟨r.fontStyle, foreground, background⟩, m₂, ?_, hm₂, hle₁.trans hle₂, rfl,
    hfore.mono hle₂, hback⟩
  simp [addRule, hf, hb, bind, Except.bind, pure, Except.pure]

/-! ## The order of rules -/

instance : Std.TransCmp compareParents :=
  inferInstanceAs (Std.TransCmp (compareLex (compareOn List.length) compare))

instance : Std.TransCmp (fun a b : Rule => compareParents a.parents b.parents) where
  eq_swap := Std.OrientedCmp.eq_swap
  isLE_trans := Std.TransCmp.isLE_trans

instance : Std.TransCmp Rule.order :=
  inferInstanceAs (Std.TransCmp (compareLex (compareLex (compareOn Rule.scope)
    (fun a b => compareParents a.parents b.parents)) (compareOn Rule.index)))

/-- Dropping from the front what satisfies `p` is dropping all of it, if it stands at the
front. -/
theorem dropWhile_eq_filter {α : Type} {p : α → Bool} {xs : List α}
    (h : xs.Pairwise (fun a b => p b = true → p a = true)) :
    xs.dropWhile p = xs.filter (fun a => !p a) := by
  induction xs with
  | nil => rfl
  | cons a xs ih =>
    obtain ⟨ha, hxs⟩ := List.pairwise_cons.1 h
    by_cases hp : p a = true
    · rw [List.dropWhile_cons_of_pos hp, List.filter_cons_of_neg (by simp [hp]), ih hxs]
    · have hall : ∀ b ∈ a :: xs, (!p b) = true := by
        intro b hb
        rcases List.mem_cons.1 hb with rfl | hb
        · simpa using hp
        · simpa using mt (ha b hb) hp
      rw [List.dropWhile_cons_of_neg hp, List.filter_eq_self.2 hall]

/-- So what is taken from the front is all of it. -/
theorem takeWhile_eq_filter {α : Type} {p : α → Bool} {xs : List α}
    (h : xs.Pairwise (fun a b => p b = true → p a = true)) : xs.takeWhile p = xs.filter p := by
  have htake : (xs.takeWhile p).filter p = xs.takeWhile p :=
    List.filter_eq_self.2 (List.all_eq_true.1 List.all_takeWhile)
  have hdrop : (xs.dropWhile p).filter p = [] := by
    rw [dropWhile_eq_filter h, List.filter_filter]
    simp
  conv_rhs => rw [← List.takeWhile_append_dropWhile (p := p) (l := xs), List.filter_append,
    htake, hdrop, List.append_nil]

theorem empty_lt {s : String} (h : s ≠ "") : "" < s := by
  rw [String.lt_iff_toList_lt]
  cases hs : s.toList with
  | nil => exact absurd (String.toList_eq_nil_iff.1 hs) h
  | cons c cs => simp

/-- A rule that is not to precede another does not have the lesser scope. -/
theorem Rule.scope_le_of_order {a b : Rule} (h : (b.order a).isLT = false) : a.scope ≤ b.scope := by
  by_contra hlt
  have hcmp : compare b.scope a.scope = .lt := Std.LawfulLTCmp.eq_lt_iff_lt.2 (not_le.1 hlt)
  simp [Rule.order, hcmp] at h

theorem Definition.pairwise_sortedRules (d : Definition) :
    d.sortedRules.Pairwise (fun a b => (b.order a).isLT = false) :=
  Order.pairwise_sort (Order.isOrderOn_of_transCmp Rule.order d.rules)

/-- **The rules for scopes**, in the order in which they are added. -/
def Definition.scopedRules (d : Definition) : List Rule :=
  d.sortedRules.dropWhile (·.scope.isEmpty)

/-- What the rules for the empty scope set together. -/
def Definition.defaults (d : Definition) : Defaults :=
  (d.sortedRules.takeWhile (·.scope.isEmpty)).foldl Defaults.next {}

theorem Definition.pairwise_scopedRules (d : Definition) :
    d.scopedRules.Pairwise (fun a b => (b.order a).isLT = false) :=
  d.pairwise_sortedRules.sublist (List.dropWhile_sublist _)

/-- The rules for the empty scope come first. -/
theorem Definition.pairwise_isEmpty_sortedRules (d : Definition) :
    d.sortedRules.Pairwise (fun a b => b.scope.isEmpty = true → a.scope.isEmpty = true) := by
  refine d.pairwise_sortedRules.imp fun {a b} hab hb => ?_
  have hle := Rule.scope_le_of_order hab
  rw [String.isEmpty_iff] at hb ⊢
  by_contra hne
  exact absurd (empty_lt hne) (not_lt.2 (hb ▸ hle))

/-- The other rules are those for scopes. -/
theorem Definition.scopedRules_eq_filter (d : Definition) :
    d.scopedRules = d.sortedRules.filter (fun r => !r.scope.isEmpty) :=
  dropWhile_eq_filter d.pairwise_isEmpty_sortedRules

theorem Definition.mem_scopedRules {d : Definition} {r : Rule} :
    r ∈ d.scopedRules ↔ r ∈ d.rules ∧ r.scope ≠ "" := by
  rw [scopedRules_eq_filter, List.mem_filter, sortedRules, (Order.perm_sort _ _).mem_iff]
  simp

/-! ## The trie while rules are added -/

/-- **A rule for single scopes**: no scopes around, and a whole name. -/
structure Rule.IsSingle (r : Rule) : Prop where
  /-- No scopes need to stand around. -/
  parents : r.parents = []
  /-- The name has no empty segment. -/
  whole : Scope.IsWhole r.scope

/-- The rules for the names that the segments begin with. -/
def above (rs : List Rule) (ss : List String) : List Rule :=
  rs.filter (fun r => decide (Scope.segments r.scope <+: ss))

/-- **A node shows a look**: it has a single rule, which applies anywhere. -/
structure NodeShows (m : ColorMap) (t : Trie) (l : Look) : Prop where
  /-- No rule needs scopes around. -/
  inside : t.inside = []
  /-- The rule that applies anywhere does not either. -/
  parents : t.anywhere.parents = []
  /-- What it sets. -/
  shows : t.anywhere.style.Shows m l

theorem nodeShows_bare {m : ColorMap} {t : Trie} {l : Look} :
    NodeShows m t.bare l ↔ NodeShows m t l :=
  ⟨fun h => ⟨h.inside, h.parents, h.shows⟩, fun h => ⟨h.inside, h.parents, h.shows⟩⟩

theorem NodeShows.addHere {m : ColorMap} {t : Trie} {l l' : Look} (h : NodeShows m t l)
    {style : Style} (hs : style.Shows m l') (depth : Nat) :
    NodeShows m (t.addHere depth [] style) (l'.orElse l) := by
  cases t
  exact ⟨h.inside, h.parents, hs.orElse h.shows⟩

/-- **There are no nodes but for rules**: as far as there are nodes for a scope, they are on the
way to the scope of a rule. -/
def HasNodesFor (rs : List Rule) (t : Trie) : Prop :=
  ∀ ss, t.reach ss = 0 ∨ ∃ q ∈ rs, ss.take (t.reach ss) <+: Scope.segments q.scope

theorem hasNodesFor_nil : HasNodesFor [] Trie.empty := fun ss =>
  .inl (Trie.reach_of_children_eq_nil rfl ss)

theorem HasNodesFor.insert {rs : List Rule} {t : Trie} (h : HasNodesFor rs t) (r : Rule)
    (style : Style) :
    HasNodesFor (rs ++ [r]) (t.insert r.parents style 0 (Scope.segments r.scope)) := by
  intro ss
  rcases Trie.reach_insert r.parents style 0 (Scope.segments r.scope) t ss with hsame | hway
  · rw [hsame]
    refine (h ss).imp id ?_
    rintro ⟨q, hq, hway⟩
    exact ⟨q, List.mem_append_left _ hq, hway⟩
  · exact .inr ⟨r, by simp, hway⟩

/-- **A rule that is added in its turn comes in time**: there are no nodes below that of its
scope. -/
theorem HasNodesFor.reach_le {rs : List Rule} {t : Trie} (h : HasNodesFor rs t) {r : Rule}
    (hrs : ∀ q ∈ rs, (r.order q).isLT = false) {ss : List String}
    (hss : Scope.segments r.scope <+: ss) : t.reach ss ≤ (Scope.segments r.scope).length := by
  by_contra hlt
  have hlen := not_le.1 hlt
  rcases h ss with hzero | ⟨q, hq, hway⟩
  · omega
  · have hprefix : Scope.segments r.scope <+: Scope.segments q.scope :=
      (List.prefix_take_iff.2 ⟨hss, hlen.le⟩).trans hway
    have hne : Scope.segments r.scope ≠ Scope.segments q.scope := by
      intro heq
      have hle := hway.length_le
      rw [List.length_take_of_le (Trie.reach_le_length ss t), ← heq] at hle
      exact hlt hle
    exact absurd (Scope.lt_of_segments_prefix hprefix hne)
      (not_lt.2 (Rule.scope_le_of_order (hrs q hq)))

/-- **The trie holds the rules that were added**: at the node of each scope there is what the
rules for the names above it set together. -/
structure Holds (rs : List Rule) (t : Trie) (m : ColorMap) : Prop where
  /-- Further colours find a number. -/
  growing : m.IsGrowing
  /-- There are no nodes but for the rules. -/
  reach : ∀ ss, t.reach ss = 0 ∨ ∃ q ∈ rs, ss.take (t.reach ss) <+: Scope.segments q.scope
  /-- What is found for a scope. -/
  shows : ∀ ss, NodeShows m (t.find ss) (lookOf (above rs ss))

theorem holds_nil {m : ColorMap} (h : m.IsGrowing) : Holds [] Trie.empty m where
  growing := h
  reach := hasNodesFor_nil
  shows ss := by
    rw [Trie.find_of_children_eq_nil rfl]
    exact ⟨rfl, rfl, rfl, h.numbers_zero, h.numbers_zero⟩

theorem above_concat (rs : List Rule) (r : Rule) (ss : List String) :
    above (rs ++ [r]) ss =
      if Scope.segments r.scope <+: ss then above rs ss ++ [r] else above rs ss := by
  rw [above, List.filter_append]
  by_cases h : Scope.segments r.scope <+: ss <;> simp [above, h]

/-- **One more rule**, not to precede those that were added. -/
theorem Holds.concat {rs : List Rule} {t : Trie} {m : ColorMap} (h : Holds rs t m) {r : Rule}
    (hr : r.IsSingle) (hrs : ∀ q ∈ rs, (r.order q).isLT = false) :
    ∃ t' m', addRule (t, m) r = .ok (t', m') ∧ Holds (rs ++ [r]) t' m' := by
  obtain ⟨style, m', hadd, hg, hle, hstyle⟩ := addRule_of_growing h.growing t r
  refine ⟨_, m', hadd, hg, HasNodesFor.insert h.reach r style, fun ss => ?_⟩
  have hold : NodeShows m' (t.find ss).bare (lookOf (above rs ss)) :=
    nodeShows_bare.2 { h.shows ss with shows := (h.shows ss).shows.mono hle }
  have hreach : Scope.segments r.scope <+: ss ∧
      t.reach ss ≤ (Scope.segments r.scope).length ↔ Scope.segments r.scope <+: ss :=
    and_iff_left_of_imp (HasNodesFor.reach_le h.reach hrs)
  rw [← nodeShows_bare, Trie.bare_find_insert, above_concat, hr.parents]
  simp only [hreach]
  split
  · rw [lookOf_concat]
    exact hold.addHere hstyle _
  · exact hold

/-- **All rules in their order.** -/
theorem Holds.append {rs : List Rule} {t : Trie} {m : ColorMap} (h : Holds rs t m)
    {more : List Rule} (hmore : ∀ r ∈ more, r.IsSingle)
    (hsorted : (rs ++ more).Pairwise (fun a b => (b.order a).isLT = false)) :
    ∃ t' m', more.foldlM addRule (t, m) = .ok (t', m') ∧ Holds (rs ++ more) t' m' := by
  induction more generalizing rs t m with
  | nil => exact ⟨t, m, rfl, by rwa [List.append_nil]⟩
  | cons r more ih =>
    have hrs : ∀ q ∈ rs, (r.order q).isLT = false := fun q hq =>
      (List.pairwise_append.1 hsorted).2.2 q hq r List.mem_cons_self
    obtain ⟨t₁, m₁, hadd, h₁⟩ := h.concat (hmore r List.mem_cons_self) hrs
    rw [List.append_cons] at hsorted
    obtain ⟨t₂, m₂, hfold, h₂⟩ :=
      ih h₁ (fun q hq => hmore q (List.mem_cons_of_mem _ hq)) hsorted
    refine ⟨t₂, m₂, ?_, by rwa [List.append_cons]⟩
    rw [List.foldlM_cons, hadd]
    exact hfold

/-! ## The style of a path -/

/-- **All rules for scopes are for single ones.** -/
def Definition.HasSingleScopes (d : Definition) : Prop :=
  ∀ r ∈ d.rules, r.scope ≠ "" → r.parents = [] ∧ Scope.IsWhole r.scope

instance (d : Definition) : Decidable d.HasSingleScopes :=
  inferInstanceAs (Decidable (∀ r ∈ d.rules, _ → _))

/-- **A rule decides a property of a scope**: it is for the scope or a name that covers it, it
sets the property, and of the other rules that do, each is for a name with fewer segments, or for
the same name and not in a later setting. -/
structure Rule.Decides {α : Type} (r : Rule) (d : Definition) (property : Rule → Option α)
    (scope : String) : Prop where
  /-- The rule is one of the theme. -/
  mem : r ∈ d.rules
  /-- It is not about the defaults. -/
  named : r.scope ≠ ""
  /-- It is about the scope. -/
  covers : Scope.coveredBy scope r.scope = true
  /-- It sets the property. -/
  sets : (property r).isSome
  /-- No other rule is more to the point. -/
  longest : ∀ q ∈ d.rules, q.scope ≠ "" → Scope.coveredBy scope q.scope = true →
    (property q).isSome →
    (Scope.segments q.scope).length < (Scope.segments r.scope).length ∨
      q.scope = r.scope ∧ q.index ≤ r.index

/-- **What a theme gives to a scope** for a property: the value of the rule that decides it, or
nothing if no rule for a name that covers the scope sets it. -/
def Definition.Gives {α : Type} (d : Definition) (property : Rule → Option α) (scope : String) :
    Option α → Prop
  | some value => ∃ r : Rule, r.Decides d property scope ∧ property r = some value
  | none => ∀ r ∈ d.rules, r.scope ≠ "" → Scope.coveredBy scope r.scope = true → property r = none

/-- A rule has its style from a setting of the theme; what is not a colour is not set. -/
theorem Definition.setting_of_mem_rules {d : Definition} {r : Rule} (h : r ∈ d.rules) :
    ∃ setting style, d.settings[r.index]? = some setting ∧ setting.style = some style ∧
      r.fontStyle = style.fontStyle.map .ofText ∧
      r.foreground = style.foreground.filter isColor ∧
      r.background = style.background.filter isColor := by
  obtain ⟨⟨setting, index⟩, hsetting, hr⟩ := List.mem_flatMap.1 h
  change r ∈ setting.rules index at hr
  have hget : d.settings[index]? = some setting := List.mem_zipIdx_iff_getElem?.1 hsetting
  rw [Setting.rules] at hr
  cases hstyle : setting.style with
  | none => simp [hstyle] at hr
  | some style =>
    simp only [hstyle] at hr
    obtain ⟨text, -, rfl⟩ := List.mem_map.1 hr
    exact ⟨setting, style, hget, hstyle, rfl, rfl, rfl⟩

/-- **Rules that decide the same say the same**: they are for one name and from one setting. -/
theorem Rule.Decides.look_eq {α : Type} {d : Definition} {property : Rule → Option α}
    {scope : String} {q r : Rule} (hq : q.Decides d property scope)
    (hr : r.Decides d property scope) : q.look = r.look := by
  have hindex : q.index = r.index := by
    rcases hr.longest q hq.mem hq.named hq.covers hq.sets with hlt | ⟨heq, hle⟩ <;>
      rcases hq.longest r hr.mem hr.named hr.covers hr.sets with hlt' | ⟨heq', hle'⟩
    · omega
    · exact absurd hlt (heq' ▸ lt_irrefl _)
    · exact absurd hlt' (heq ▸ lt_irrefl _)
    · omega
  obtain ⟨s, style, hs, hstyle, hf, hfore, hback⟩ := Definition.setting_of_mem_rules hq.mem
  obtain ⟨s', style', hs', hstyle', hf', hfore', hback'⟩ := Definition.setting_of_mem_rules hr.mem
  obtain rfl : s = s' := Option.some.inj (hs.symm.trans (hindex ▸ hs'))
  obtain rfl : style = style' := Option.some.inj (hstyle.symm.trans hstyle')
  simp [Rule.look, hf, hf', hfore, hfore', hback, hback']

theorem Definition.HasSingleScopes.isSingle {d : Definition} (h : d.HasSingleScopes) {r : Rule}
    (hr : r ∈ d.scopedRules) : r.IsSingle :=
  have hmem := Definition.mem_scopedRules.1 hr
  ⟨(h r hmem.1 hmem.2).1, (h r hmem.1 hmem.2).2⟩

theorem Definition.HasSingleScopes.mem_above {d : Definition} (h : d.HasSingleScopes)
    {scope : String} {r : Rule} :
    r ∈ above d.scopedRules (Scope.segments scope) ↔
      r ∈ d.scopedRules ∧ Scope.coveredBy scope r.scope = true := by
  rw [above, List.mem_filter, decide_eq_true_iff]
  refine and_congr_right fun hr => ?_
  rw [(h.isSingle hr).whole.coveredBy_iff_segments]

/-- Of two rules about a scope, the one that is added first is the less to the point. -/
theorem Rule.longer_or_later {q r : Rule} (hq : q.IsSingle) (hr : r.IsSingle) {ss : List String}
    (hqs : Scope.segments q.scope <+: ss) (hrs : Scope.segments r.scope <+: ss)
    (h : (r.order q).isLT = false) :
    (Scope.segments q.scope).length < (Scope.segments r.scope).length ∨
      q.scope = r.scope ∧ q.index ≤ r.index := by
  by_cases hlen : (Scope.segments q.scope).length < (Scope.segments r.scope).length
  · exact .inl hlen
  · have hcovers : Scope.coveredBy q.scope r.scope = true :=
      hr.whole.coveredBy_iff_segments.2 (List.prefix_of_prefix_length_le hrs hqs (not_lt.1 hlen))
    have heq : q.scope = r.scope := by
      by_contra hne
      exact absurd (Scope.lt_of_coveredBy hcovers hne) (not_lt.2 (Rule.scope_le_of_order h))
    refine .inr ⟨heq, ?_⟩
    by_contra hlt
    have hcmp : compare r.index q.index = .lt := Std.LawfulLTCmp.eq_lt_iff_lt.2 (not_le.1 hlt)
    have hsame : compare r.scope q.scope = .eq := by rw [heq]; exact Std.ReflCmp.compare_self
    have hparents : compareParents r.parents q.parents = .eq := by
      rw [hr.parents, hq.parents]
      rfl
    simp [Rule.order, hcmp, hsame, hparents] at h

/-- The last of the rules about a scope that sets a property decides it. -/
theorem Definition.HasSingleScopes.gives {α : Type} {d : Definition} (h : d.HasSingleScopes)
    (property : Rule → Option α) (scope : String) :
    d.Gives property scope
      ((above d.scopedRules (Scope.segments scope)).reverse.findSome? property) := by
  cases hfind : (above d.scopedRules (Scope.segments scope)).reverse.findSome? property with
  | none =>
    intro r hr hscope hcovers
    refine List.findSome?_eq_none_iff.1 hfind r (List.mem_reverse.2 (h.mem_above.2 ⟨?_, hcovers⟩))
    exact Definition.mem_scopedRules.2 ⟨hr, hscope⟩
  | some value =>
    obtain ⟨after, r, before, hsplit, hvalue, hafter⟩ := List.findSome?_eq_some_iff.1 hfind
    have hsplit' : above d.scopedRules (Scope.segments scope) =
        before.reverse ++ r :: after.reverse := by
      rw [← List.reverse_inj, hsplit]
      simp
    have hmem : ∀ q, q ∈ above d.scopedRules (Scope.segments scope) ↔
        q ∈ before ∨ q = r ∨ q ∈ after := by
      intro q
      rw [hsplit']
      simp
    have hsorted := d.pairwise_scopedRules.sublist (List.filter_sublist (p := fun r =>
      decide (Scope.segments r.scope <+: Scope.segments scope)))
    change (above d.scopedRules (Scope.segments scope)).Pairwise _ at hsorted
    rw [hsplit', List.pairwise_append] at hsorted
    have hr := h.mem_above.1 ((hmem r).2 (.inr (.inl rfl)))
    have hr' := Definition.mem_scopedRules.1 hr.1
    refine ⟨r, ⟨hr'.1, hr'.2, hr.2, by simp [hvalue], fun q hq hscope hcovers hset => ?_⟩, hvalue⟩
    have hq' : q ∈ d.scopedRules := Definition.mem_scopedRules.2 ⟨hq, hscope⟩
    have hqsingle := h.isSingle hq'
    have hrsingle := h.isSingle hr.1
    rcases (hmem q).1 (h.mem_above.2 ⟨hq', hcovers⟩) with hbefore | rfl | hin
    · exact Rule.longer_or_later hqsingle hrsingle
        (hqsingle.whole.coveredBy_iff_segments.1 hcovers)
        (hrsingle.whole.coveredBy_iff_segments.1 hr.2)
        (hsorted.2.2 q (List.mem_reverse.2 hbefore) r List.mem_cons_self)
    · exact .inr ⟨rfl, le_rfl⟩
    · simp [hafter q hin] at hset

theorem styleOf?_of_nodeShows (theme : Theme) (path : ScopePath) {m : ColorMap} {l : Look}
    (h : NodeShows m (theme.rules.find (Scope.segments path.name)) l) :
    ∃ style, theme.styleOf? path = some style ∧ style.Shows m l := by
  refine ⟨_, ?_, h.shows⟩
  have hfits : fits path.ancestors [] = true := by rw [fits]
  simp [styleOf?, Trie.rulesFor, h.inside, Order.sort, Order.insertFromEnd, h.parents, hfits]

/-- How a theme is made: the defaults are numbered, then the rules are added. -/
theorem ofDefinition_eq {d : Definition} {frozen : Option (List String)}
    {foreground background : Nat} {m₁ m₂ m : ColorMap} {trie : Trie}
    (hfore : (frozen.elim .empty .freeze : ColorMap).number (some d.defaults.foreground) =
      .ok (foreground, m₁))
    (hback : m₁.number (some d.defaults.background) = .ok (background, m₂))
    (hfold : d.scopedRules.foldlM addRule (Trie.empty, m₂) = .ok (trie, m)) :
    ofDefinition d frozen =
      .ok ⟨m, ⟨some d.defaults.fontStyle, foreground, background⟩, trie⟩ := by
  rw [Definition.defaults] at hfore hback
  rw [Definition.scopedRules] at hfold
  simp only [ofDefinition, ofRules, hfore, hback, hfold, bind, Except.bind]
  rfl

/-- **Longest name, each property for itself.** If all rules for scopes are for single ones, the
theme can be made, and the style of any path gives each property the value of the rule that
decides it for the innermost scope, or leaves it unset if no rule does. Colours are read from
the colour map. -/
theorem Definition.HasSingleScopes.exists_styleOf? {d : Definition} (h : d.HasSingleScopes) :
    ∃ theme, ofDefinition d none = .ok theme ∧ ∀ path : ScopePath, ∃ style foreground background,
      theme.styleOf? path = some style ∧
      theme.colorMap.Numbers style.foreground foreground ∧
      theme.colorMap.Numbers style.background background ∧
      d.Gives (·.fontStyle) path.name style.fontStyle ∧
      d.Gives (·.foreground.map Unicode.upper) path.name foreground ∧
      d.Gives (·.background.map Unicode.upper) path.name background := by
  obtain ⟨foreground, m₁, hfore, hm₁, -, -⟩ :=
    ColorMap.isGrowing_empty.number (some d.defaults.foreground)
  obtain ⟨background, m₂, hback, hm₂, -, -⟩ := hm₁.number (some d.defaults.background)
  obtain ⟨trie, m, hfold, hholds⟩ := (holds_nil hm₂).append (fun r hr => h.isSingle hr)
    d.pairwise_scopedRules
  let theme : Theme := ⟨m, ⟨some d.defaults.fontStyle, foreground, background⟩, trie⟩
  refine ⟨theme, ofDefinition_eq hfore hback hfold, fun path => ?_⟩
  obtain ⟨style, hstyle, hshows⟩ := styleOf?_of_nodeShows theme path (hholds.shows _)
  refine ⟨style, _, _, hstyle, hshows.foreground, hshows.background, ?_, ?_, ?_⟩
  · rw [hshows.fontStyle, lookOf_property Look.fontStyle rfl fun _ _ => rfl]
    exact h.gives _ path.name
  · rw [lookOf_property Look.foreground rfl fun _ _ => rfl]
    exact h.gives _ path.name
  · rw [lookOf_property Look.background rfl fun _ _ => rfl]
    exact h.gives _ path.name

/-- A theme of three settings that are about each other's scopes. -/
def letters : Definition where
  settings :=
    [{ scope := some (.one "string.quoted"), style := some { fontStyle := some "italic" } },
     { scope := some (.one "string, string.quoted.double"),
       style := some { foreground := some "#ff0000" } },
     { scope := some (.one "string.quoted"), style := some { foreground := some "#00f" } }]

/-- In the theme above the rule for `string.quoted` decides the font style of double quotes, and
a rule for all of the name their colour. -/
theorem letters_styleOf? :
    letters.HasSingleScopes ∧
    ∃ theme, ofDefinition letters none = .ok theme ∧ ∀ path : ScopePath,
      ∃ style foreground background, theme.styleOf? path = some style ∧
      theme.colorMap.Numbers style.foreground foreground ∧
      theme.colorMap.Numbers style.background background ∧
      letters.Gives (·.fontStyle) path.name style.fontStyle ∧
      letters.Gives (·.foreground.map Unicode.upper) path.name foreground ∧
      letters.Gives (·.background.map Unicode.upper) path.name background :=
  ⟨by decide +kernel, Definition.HasSingleScopes.exists_styleOf? (by decide +kernel)⟩

example : (ofDefinition letters none).toOption.map (fun theme =>
    (theme.colorMap.colors,
      ["string.quoted.double", "string.quoted", "string.raw", "stringy"].map
        (fun scope => theme.styleOf? (.root scope)))) =
    some (["", "#000000", "#FFFFFF", "#FF0000", "#00F"],
      [some ⟨some .italic, 3, 0⟩, some ⟨some .italic, 4, 0⟩, some ⟨none, 3, 0⟩,
        some ⟨none, 0, 0⟩]) := by
  decide +kernel

/-! ## The numbers of any theme -/

/-- **The colours of a style** are numbers of the map. -/
structure Style.InMap (m : ColorMap) (s : Style) : Prop where
  /-- The foreground colour. -/
  foreground : s.foreground < m.colors.length
  /-- The background colour. -/
  background : s.background < m.colors.length

theorem Style.Shows.inMap {m : ColorMap} {s : Style} {l : Look} (h : s.Shows m l) : s.InMap m :=
  ⟨h.foreground.lt, h.background.lt⟩

theorem Style.InMap.mono {m m' : ColorMap} {s : Style} (h : s.InMap m)
    (hm : m.colors <+: m'.colors) : s.InMap m' :=
  ⟨h.foreground.trans_le hm.length_le, h.background.trans_le hm.length_le⟩

theorem Style.InMap.orElse {m : ColorMap} {s base : Style} (h : s.InMap m) (h' : base.InMap m) :
    (s.orElse base).InMap m := by
  refine ⟨?_, ?_⟩
  · change (if s.foreground = 0 then base.foreground else s.foreground) < _
    split
    · exact h'.foreground
    · exact h.foreground
  · change (if s.background = 0 then base.background else s.background) < _
    split
    · exact h'.background
    · exact h.background

/-- All rules of a trie have numbers of the map, whatever scopes they are for. -/
def InMap (t : Trie) (m : ColorMap) : Prop := ∀ ss, ∀ e ∈ (t.find ss).entries, e.style.InMap m

/-- A rule can always be added. -/
theorem InMap.addRule {t : Trie} {m : ColorMap} (hg : m.IsGrowing) (h : InMap t m) (r : Rule) :
    ∃ t' m', Theme.addRule (t, m) r = .ok (t', m') ∧ m'.IsGrowing ∧ m.colors <+: m'.colors ∧
      InMap t' m' := by
  obtain ⟨style, m', hadd, hg', hle, hstyle⟩ := addRule_of_growing hg t r
  have hold : ∀ ss, ∀ e ∈ (t.find ss).entries, e.style.InMap m' := fun ss e he =>
    (h ss e he).mono hle
  exact ⟨_, m', hadd, hg', hle,
    Trie.forall_style_insert (fun _ _ => Style.InMap.orElse) hold hstyle.inMap _ _ _⟩

theorem InMap.foldlM {t : Trie} {m : ColorMap} (hg : m.IsGrowing) (h : InMap t m)
    (rs : List Rule) :
    ∃ t' m', rs.foldlM Theme.addRule (t, m) = .ok (t', m') ∧ m.colors <+: m'.colors ∧
      InMap t' m' := by
  induction rs generalizing t m with
  | nil => exact ⟨t, m, rfl, List.prefix_rfl, h⟩
  | cons r rs ih =>
    obtain ⟨t₁, m₁, hadd, hg₁, hle, h₁⟩ := h.addRule hg r
    obtain ⟨t₂, m₂, hfold, hle', h₂⟩ := ih hg₁ h₁
    refine ⟨t₂, m₂, ?_, hle.trans hle', h₂⟩
    rw [List.foldlM_cons, hadd]
    exact hfold

theorem inMap_empty {m : ColorMap} (h : m.IsGrowing) : InMap Trie.empty m := by
  intro ss e he
  obtain rfl := Trie.eq_unset_of_mem_entries_find_empty he
  exact ⟨h.pos, h.pos⟩

/-- **A theme whose numbers are free can always be made**, and all its colours are numbers of its
map. -/
theorem exists_ofDefinition (d : Definition) :
    ∃ theme, ofDefinition d none = .ok theme ∧ theme.defaults.InMap theme.colorMap ∧
      ∀ path style, theme.styleOf? path = some style → style.InMap theme.colorMap := by
  obtain ⟨foreground, m₁, hfore, hm₁, -, hnumber⟩ :=
    ColorMap.isGrowing_empty.number (some d.defaults.foreground)
  obtain ⟨background, m₂, hback, hm₂, hle, hnumber'⟩ := hm₁.number (some d.defaults.background)
  obtain ⟨trie, m, hfold, hle', hrules⟩ := (inMap_empty hm₂).foldlM hm₂ d.scopedRules
  refine ⟨_, ofDefinition_eq hfore hback hfold, ⟨?_, ?_⟩, fun path style hstyle => ?_⟩
  · exact (hnumber.mono (hle.trans hle')).lt
  · exact (hnumber'.mono hle').lt
  · obtain ⟨e, he, rfl⟩ := Option.map_eq_some_iff.1 hstyle
    exact hrules _ e ((Order.perm_sort _ _).mem_iff.1 (List.mem_of_find?_eq_some he))

theorem inMap_of_ofDefinition {d : Definition} {theme : Theme}
    (h : ofDefinition d none = .ok theme) : theme.defaults.InMap theme.colorMap ∧
      ∀ path style, theme.styleOf? path = some style → style.InMap theme.colorMap := by
  obtain ⟨theme', h', hmap⟩ := exists_ofDefinition d
  obtain rfl : theme' = theme := Except.ok.inj (h'.symm.trans h)
  exact hmap

end Highlight.Theme
