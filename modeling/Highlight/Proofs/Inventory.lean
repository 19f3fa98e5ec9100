import Highlight.Grammar.Compilation
import Mathlib.Algebra.GroupWithZero.Nat
import Mathlib.Algebra.Order.BigOperators.Group.List
import Mathlib.Algebra.Order.Group.Nat
import Mathlib.Data.Finset.Card
import Mathlib.Data.List.Basic

/-!
# All rules of a grammar

Whatever is done with the rules of a grammar, it is done with those that are written in it: in its
lists, in its repositories, for its groups, at any depth. The **inventory** of a grammar lists them
with their sites, and the grammar as a whole in front of them. It is as long as the size of the
grammar says, so the sizes of the grammars of a catalog bound what can be done for each rule once.

The inventory is closed: with a rule it has all that stands directly inside it. That is the only
thing about it that is used where rules are walked through or compiled, since both go from a rule
to those inside it, or follow a reference to the top or to the repository of a grammar.
-/

namespace Highlight

/-- What the values of a list hold together is what they count together. -/
theorem Keyed.length_flatMap_values {κ α β : Type} {count : α → Nat} {f : α → List β}
    (h : ∀ a, (f a).length = count a) (es : List (κ × α)) :
    (es.flatMap (fun p => f p.2)).length = total count es := by
  induction es with
  | nil => rfl
  | cons e es ih => rw [List.flatMap_cons, List.length_append, h, ih, total]

namespace Grammar

namespace RuleDefinition

theorem sizePatterns_eq_sum (ps : List RuleDefinition) : sizePatterns ps = (ps.map size).sum := by
  induction ps with
  | nil => rfl
  | cons r ps ih => rw [sizePatterns, ih, List.map_cons, List.sum_cons]

theorem sizeCaptures_eq_sum (cs : List (Nat × RuleDefinition)) :
    sizeCaptures cs = (cs.map (·.2.size)).sum := by
  induction cs with
  | nil => rfl
  | cons p cs ih => rw [sizeCaptures, ih, List.map_cons, List.sum_cons]

theorem sizeNamed_eq_sum (rs : List (String × RuleDefinition)) :
    sizeNamed rs = (rs.map (·.2.size)).sum := by
  induction rs with
  | nil => rfl
  | cons p rs ih => rw [sizeNamed, ih, List.map_cons, List.sum_cons]

end RuleDefinition

/-! ## The rules directly inside a rule -/

/-- The rules for the groups of a pattern of the rule at a site. -/
def locateCaptures (site : Site) (list : CaptureList) (rules : List (Nat × RuleDefinition)) :
    List Located :=
  rules.map (fun p => ⟨site.inside (.capture list p.1), p.2⟩)

/-- How many rules there are in the rules of a list together. -/
def sizeOfRules (ls : List Located) : Nat := (ls.map (·.rule.size)).sum

@[simp] theorem sizeOfRules_append (ls ls' : List Located) :
    sizeOfRules (ls ++ ls') = sizeOfRules ls + sizeOfRules ls' := by
  simp [sizeOfRules]

@[simp] theorem sizeOfRules_locateCaptures (site : Site) (list : CaptureList)
    (rules : List (Nat × RuleDefinition)) :
    sizeOfRules (locateCaptures site list rules) = RuleDefinition.sizeCaptures rules := by
  rw [sizeOfRules, locateCaptures, List.map_map, RuleDefinition.sizeCaptures_eq_sum]
  rfl

@[simp] theorem sizeOfRules_locatePatterns (site : Site) (rules : List RuleDefinition) :
    sizeOfRules (locatePatterns site rules) = RuleDefinition.sizePatterns rules := by
  have hrules : rules.map RuleDefinition.size = rules.zipIdx.map (fun p => p.1.size) := by
    conv_lhs => rw [← List.zipIdx_map_fst 0 rules, List.map_map]
    rfl
  rw [sizeOfRules, locatePatterns, List.map_map, RuleDefinition.sizePatterns_eq_sum, hrules]
  rfl

@[simp] theorem sizeOfRules_locateEntries (site : Site)
    (entries : List (String × RuleDefinition)) :
    sizeOfRules ((locateEntries site entries).map (·.2)) = RuleDefinition.sizeNamed entries := by
  rw [sizeOfRules, locateEntries, List.map_map, List.map_map, RuleDefinition.sizeNamed_eq_sum]
  rfl

namespace Located

/-- **The rules directly inside a rule**: those for its groups, those of its list and those of its
repository. -/
def parts (l : Located) : List Located :=
  locateCaptures l.site .common (l.rule.captures.getD []) ++
    locateCaptures l.site .opening (l.rule.openingCaptures.getD []) ++
    locateCaptures l.site .closing (l.rule.closingCaptures.getD []) ++
    locateCaptures l.site .continuing (l.rule.continuingCaptures.getD []) ++
    locatePatterns l.site (l.rule.patterns.getD []) ++
    (locateEntries l.site l.rule.repository).map (·.2)

/-- A rule holds itself and what the rules directly inside it hold. -/
theorem size_eq (l : Located) : l.rule.size = 1 + sizeOfRules l.parts := by
  obtain ⟨site, _, _, _, _, c, _, oc, _, cc, _, kc, ps, rs, _⟩ := l
  have hcaptures : ∀ o : Option (List (Nat × RuleDefinition)),
      RuleDefinition.sizeCaptures (o.getD []) = RuleDefinition.sizeCaptures? o := by
    rintro (_ | _) <;> rfl
  have hpatterns : ∀ o : Option (List RuleDefinition),
      RuleDefinition.sizePatterns (o.getD []) = RuleDefinition.sizePatterns? o := by
    rintro (_ | _) <;> rfl
  simp only [parts, sizeOfRules_append, sizeOfRules_locateCaptures, sizeOfRules_locatePatterns,
    sizeOfRules_locateEntries, hcaptures, hpatterns, RuleDefinition.size]
  omega

theorem size_lt_of_mem_parts {l p : Located} (h : p ∈ l.parts) : p.rule.size < l.rule.size := by
  have hle : p.rule.size ≤ sizeOfRules l.parts := List.le_sum_of_mem (List.mem_map_of_mem h)
  rw [l.size_eq]
  omega

/-- **The inventory of a rule**: the rule, and what there is in the rules directly inside it. -/
def all (l : Located) : List Located := l :: l.parts.attach.flatMap (fun p => p.1.all)
termination_by l.rule.size
decreasing_by exact size_lt_of_mem_parts p.2

theorem all_eq (l : Located) : l.all = l :: l.parts.flatMap all := by
  rw [all, List.flatMap_subtype (g := all) (fun _ _ => rfl), List.unattach_attach]

theorem self_mem_all (l : Located) : l ∈ l.all := by
  rw [all_eq]
  exact List.mem_cons_self

/-- The inventory of a rule has with a rule those directly inside it. -/
theorem mem_all_of_mem_parts {l l' p : Located} (h : l' ∈ l.all) (hp : p ∈ l'.parts) :
    p ∈ l.all := by
  induction l using all.induct with
  | case1 l ih =>
    rw [all_eq] at h ⊢
    refine List.mem_cons_of_mem _ (List.mem_flatMap.2 ?_)
    obtain rfl | h := List.mem_cons.1 h
    · exact ⟨p, hp, p.self_mem_all⟩
    · obtain ⟨q, hq, h⟩ := List.mem_flatMap.1 h
      exact ⟨q, hq, ih ⟨q, hq⟩ h⟩

/-- The inventory of a rule is as long as its size says. -/
theorem length_all (l : Located) : l.all.length = l.rule.size := by
  induction l using all.induct with
  | case1 l ih =>
    have hparts : l.parts.map (fun p => p.all.length) = l.parts.map (·.rule.size) :=
      List.map_congr_left (fun p hp => ih ⟨p, hp⟩)
    rw [all_eq, List.length_cons, List.length_flatMap, hparts, size_eq, sizeOfRules, Nat.add_comm]

end Located

/-- **An inventory is closed** if it has with a rule those directly inside it. -/
def Closed (inventory : List Located) : Prop :=
  ∀ l ∈ inventory, ∀ p ∈ l.parts, p ∈ inventory

namespace Definition

/-- The rules directly in a grammar. -/
def parts (d : Definition) : List Located :=
  d.locatedPatterns ++ d.locatedEntries.map (·.2) ++ d.locatedInjections.map (·.2)

/-- **The inventory of a grammar**: the grammar as a whole, and what there is in its rules. -/
def all (d : Definition) : List Located := d.whole :: d.parts.flatMap Located.all

theorem mem_all_of_mem_parts {d : Definition} {l : Located} (h : l ∈ d.parts) : l ∈ d.all :=
  List.mem_cons_of_mem _ (List.mem_flatMap.2 ⟨l, h, l.self_mem_all⟩)

theorem whole_mem_all (d : Definition) : d.whole ∈ d.all := List.mem_cons_self

theorem closed_all (d : Definition) : Closed d.all := by
  intro l hl p hp
  obtain rfl | hl := List.mem_cons.1 hl
  · -- the rules of the grammar as a whole are those of its list
    have hp : p ∈ d.locatedPatterns := by
      simpa [Located.parts, whole, locateCaptures, locateEntries, locatedPatterns] using hp
    exact mem_all_of_mem_parts (List.mem_append_left _ (List.mem_append_left _ hp))
  · obtain ⟨q, hq, hl⟩ := List.mem_flatMap.1 hl
    exact List.mem_cons_of_mem _
      (List.mem_flatMap.2 ⟨q, hq, Located.mem_all_of_mem_parts hl hp⟩)

/-- The inventory of a grammar is as long as its size says. -/
theorem length_all (d : Definition) : d.all.length = d.size := by
  have hparts : (d.parts.flatMap Located.all).length = sizeOfRules d.parts := by
    rw [List.length_flatMap, sizeOfRules]
    exact congrArg List.sum (List.map_congr_left (fun p _ => p.length_all))
  have hinjections : sizeOfRules (d.locatedInjections.map (·.2)) =
      RuleDefinition.sizeNamed d.injections := by
    rw [sizeOfRules, locatedInjections, List.map_map, List.map_map,
      RuleDefinition.sizeNamed_eq_sum]
    rfl
  rw [all, List.length_cons, hparts, parts, sizeOfRules_append, sizeOfRules_append,
    locatedPatterns, sizeOfRules_locatePatterns, locatedEntries, sizeOfRules_locateEntries,
    hinjections, size]
  omega

end Definition

namespace Catalog

/-- **The inventory of a catalog.** -/
def all (c : Catalog) : List Located := c.grammars.flatMap (·.2.all)

theorem mem_all_of_grammar? {c : Catalog} {scope : String} {d : Definition}
    (h : c.grammar? scope = some d) {l : Located} (hl : l ∈ d.all) : l ∈ c.all :=
  List.mem_flatMap.2 ⟨(scope, d), Keyed.mem_of_get? h, hl⟩

theorem closed_all (c : Catalog) : Closed c.all := by
  intro l hl p hp
  obtain ⟨q, hq, hl⟩ := List.mem_flatMap.1 hl
  exact List.mem_flatMap.2 ⟨q, hq, q.2.closed_all l hl p hp⟩

/-- The inventory of a catalog is as long as its size says. -/
theorem length_all (c : Catalog) : c.all.length = c.size :=
  Keyed.length_flatMap_values Definition.length_all c.grammars

end Catalog

/-! ## How many rules are left -/

section Unvisited

variable {sites visited visited' : List Site}

/-- How many of some sites were not visited. -/
def unvisited (sites visited : List Site) : Nat := (sites.toFinset \ visited.toFinset).card

theorem unvisited_le (h : visited ⊆ visited') :
    unvisited sites visited' ≤ unvisited sites visited :=
  Finset.card_le_card (Finset.sdiff_subset_sdiff (Finset.Subset.refl _)
    (fun _ hs => List.mem_toFinset.2 (h (List.mem_toFinset.1 hs))))

theorem unvisited_cons_lt {s : Site} (hs : s ∈ sites) (hfresh : s ∉ visited) :
    unvisited sites (s :: visited) < unvisited sites visited := by
  have hsub : visited.toFinset ⊆ (s :: visited).toFinset := fun _ ht =>
    List.mem_toFinset.2 (List.mem_cons_of_mem s (List.mem_toFinset.1 ht))
  refine Finset.card_lt_card ⟨Finset.sdiff_subset_sdiff (Finset.Subset.refl _) hsub, ?_⟩
  intro hsub
  have hmem : s ∈ sites.toFinset \ visited.toFinset :=
    Finset.mem_sdiff.2 ⟨List.mem_toFinset.2 hs, fun h => hfresh (List.mem_toFinset.1 h)⟩
  refine (Finset.mem_sdiff.1 (hsub hmem)).2 (List.mem_toFinset.2 ?_)
  exact List.mem_cons_self

theorem unvisited_le_length (sites visited : List Site) :
    unvisited sites visited ≤ sites.length :=
  (Finset.card_le_card Finset.sdiff_subset).trans (List.toFinset_card_le _)

end Unvisited

end Grammar

end Highlight
