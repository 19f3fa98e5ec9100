import Highlight.NameLookup
import Highlight.Proofs.Names
import Highlight.Proofs.Sorting

/-!
# The longest embedded language

Several of the scopes that embed a language may cover one scope, since a scope that is covered by
another is still one of its own: `source.js.regexp` embeds another language than `source.js`. The
longest of them should win. The list of embedded languages is not sorted by length, though, but by
the names themselves, and the first that covers the scope is taken.

That this is the longest does not depend on what else stands in the list. All names that cover one
scope are beginnings of the same text, and of two beginnings the shorter one comes first in the
order of texts. What stands between them in the list covers something else.
-/

namespace Highlight

namespace Scope

/-- **A scope lies within another**: it is that scope, or begins with it and a dot. -/
def Within (scope outer : String) : Prop :=
  scope = outer ∨ outer.toList ++ ['.'] <+: scope.toList

theorem coveredBy_iff_within {scope outer : String} :
    coveredBy scope outer = true ↔ Within scope outer := by
  rw [coveredBy_iff, Within]
  refine or_congr_right ⟨fun ⟨rest, hrest⟩ => ⟨rest, ?_⟩, fun ⟨rest, hrest⟩ => ⟨rest, ?_⟩⟩
  · rw [hrest, List.append_assoc, List.singleton_append]
  · rw [← hrest, List.append_assoc, List.singleton_append]

theorem Within.prefix {scope outer : String} (h : Within scope outer) :
    outer.toList <+: scope.toList := by
  obtain rfl | hprefix := h
  · exact List.prefix_rfl
  · exact (List.prefix_append _ _).trans hprefix

/-- Of two scopes that a scope lies within, the longer one comes later in the order of texts. -/
theorem Within.lt_of_length_lt {scope short long : String} (hshort : Within scope short)
    (hlong : Within scope long) (h : short.length < long.length) : short < long := by
  refine lt_of_prefix (List.prefix_of_prefix_length_le hshort.prefix hlong.prefix ?_) ?_
  · exact Nat.le_of_lt h
  · exact fun heq => absurd (congrArg String.length heq) (Nat.ne_of_lt h)

/-- Of one length there is only one scope that a scope lies within. -/
theorem Within.eq_of_length_eq {scope outer outer' : String} (h : Within scope outer)
    (h' : Within scope outer') (hlength : outer.length = outer'.length) : outer = outer' :=
  String.toList_inj.1
    ((List.prefix_of_prefix_length_le h.prefix h'.prefix hlength.le).eq_of_length hlength)

end Scope

namespace Attribution

open Scope

/-- **The language that begins with a scope**, given the scopes that embed languages. -/
inductive Embeds (embedded : List (String × Nat)) (scope : String) : Nat → Prop
  /-- That of the longest scope that it lies within. -/
  | longest {outer : String} {language : Nat} (hmem : (outer, language) ∈ embedded)
    (hwithin : Within scope outer)
    (hlongest : ∀ e ∈ embedded, Within scope e.1 → e.1.length ≤ outer.length) :
    Embeds embedded scope language
  /-- None, if it lies within none of them. -/
  | none (h : ∀ e ∈ embedded, ¬ Within scope e.1) : Embeds embedded scope 0

variable {embedded : List (String × Nat)} {scope : String}

/-- A map of embedded languages leaves no choice. -/
theorem Embeds.unique (hkeys : (embedded.map (·.1)).Nodup) {m n : Nat}
    (hm : Embeds embedded scope m) (hn : Embeds embedded scope n) : m = n := by
  cases hm with
  | longest hmem hwithin hlongest =>
    cases hn with
    | longest hmem' hwithin' hlongest' =>
      have hlength := Nat.le_antisymm (hlongest' _ hmem hwithin) (hlongest _ hmem' hwithin')
      obtain rfl := hwithin.eq_of_length_eq hwithin' hlength
      exact Option.some.inj ((Keyed.get?_of_mem hkeys hmem).symm.trans
        (Keyed.get?_of_mem hkeys hmem'))
    | none hnone => exact absurd hwithin (hnone _ hmem)
  | none hnone =>
    cases hn with
    | longest hmem hwithin _ => exact absurd hwithin (hnone _ hmem)
    | none _ => rfl

/-- The scopes of an attribution stand in descending order. -/
theorem pairwise_embedded (language : Nat) (embedded : List (String × Nat)) (theme : Theme) :
    (make language embedded theme).embedded.Pairwise (fun e later => later.1 ≤ e.1) := by
  have horder : Order.IsOrderOn (fun (a b : String × Nat) => decide (b.1 < a.1)) embedded :=
    { asymm := fun a _ b _ h => decide_eq_false (not_lt_of_gt (of_decide_eq_true h))
      trans := fun a _ b _ c _ hab hbc => decide_eq_false (not_lt_of_ge
        ((not_lt.1 (of_decide_eq_false hab)).trans (not_lt.1 (of_decide_eq_false hbc)))) }
  exact (Order.pairwise_sort horder).imp (fun h => not_lt.1 (of_decide_eq_false h))

/-- In a descending list, nothing that satisfies a property stands above the first that does. -/
theorem le_of_find?_eq_some {es : List (String × Nat)} {p : String × Nat → Bool}
    (hes : es.Pairwise (fun e later => later.1 ≤ e.1)) {e : String × Nat}
    (h : es.find? p = some e) {other : String × Nat} (hother : other ∈ es) (hp : p other = true) :
    other.1 ≤ e.1 := by
  obtain ⟨-, before, after, rfl, hbefore⟩ := List.find?_eq_some_iff_append.1 h
  obtain hmem | hmem := List.mem_append.1 hother
  · exact absurd (hbefore other hmem) (by rw [hp]; decide)
  · obtain rfl | hmem := List.mem_cons.1 hmem
    · exact le_rfl
    · exact (List.pairwise_cons.1 (List.pairwise_append.1 hes).2.1).1 other hmem

/-- **The first scope that covers is the longest.** -/
theorem embeds_languageOf (language : Nat) (embedded : List (String × Nat)) (theme : Theme)
    (scope : String) : Embeds embedded scope ((make language embedded theme).languageOf scope) := by
  have hmem : ∀ {e}, e ∈ (make language embedded theme).embedded ↔ e ∈ embedded :=
    (Order.perm_sort _ _).mem_iff
  rw [languageOf]
  cases hfind : (make language embedded theme).embedded.find? (fun e => coveredBy scope e.1) with
  | none =>
    refine .none (fun e he hwithin => ?_)
    exact List.find?_eq_none.1 hfind e (hmem.2 he) (coveredBy_iff_within.2 hwithin)
  | some e =>
    have hcovers := List.find?_some hfind
    have hwithin : Within scope e.1 := coveredBy_iff_within.1 hcovers
    refine .longest (hmem.1 (List.mem_of_find?_eq_some hfind)) hwithin (fun other hother hin => ?_)
    have hle : other.1 ≤ e.1 := le_of_find?_eq_some (pairwise_embedded language embedded theme)
      hfind (hmem.2 hother) (coveredBy_iff_within.2 hin)
    exact not_lt.1 (fun hlonger => not_lt_of_ge hle (hwithin.lt_of_length_lt hin hlonger))

theorem Embeds.perm {entries : List (String × Nat)} (h : entries.Perm embedded) {n : Nat}
    (hn : Embeds entries scope n) : Embeds embedded scope n := by
  cases hn with
  | longest hmem hwithin hlongest =>
    exact .longest (h.mem_iff.1 hmem) hwithin (fun e he => hlongest e (h.mem_iff.2 he))
  | none hnone => exact .none (fun e he => hnone e (h.mem_iff.2 he))

end Attribution

/-! ## Asking again and again -/

namespace NameLookup

open Attribution

/-- **What is remembered is right**: it is what is worked out. -/
def Right (l : NameLookup) : Prop :=
  ∀ scope told, Keyed.get? scope l.known = some told → told = l.attribution.tells scope

variable {l : NameLookup}

/-- Asking gives what is worked out, and remembers no other answer. -/
theorem Right.ask (h : l.Right) (scope : String) :
    (l.ask scope).1 = l.attribution.tells scope ∧
      (l.ask scope).2.attribution = l.attribution ∧ (l.ask scope).2.Right := by
  unfold NameLookup.ask
  split
  · next told htold => exact ⟨h scope told htold, rfl, h⟩
  · exact ⟨rfl, rfl, Keyed.forall_get?_put h rfl⟩

theorem Right.askAll (h : l.Right) (earlier : List String) :
    (l.askAll earlier).attribution = l.attribution ∧ (l.askAll earlier).Right := by
  induction earlier generalizing l with
  | nil => exact ⟨rfl, h⟩
  | cons scope earlier ih =>
    obtain ⟨-, hsame, hright⟩ := h.ask scope
    obtain ⟨hsame', hright'⟩ := ih hright
    exact ⟨hsame'.trans hsame, hright'⟩

/-- **Earlier questions do not show.** -/
theorem ask_askAll (a : Attribution) (earlier : List String) (scope : String) :
    (((⟨a, []⟩ : NameLookup).askAll earlier).ask scope).1 = a.tells scope := by
  have hempty : (⟨a, []⟩ : NameLookup).Right := fun _ _ h => nomatch h
  obtain ⟨hsame, hright⟩ := hempty.askAll earlier
  exact (hright.ask scope).1.trans (congrArg (·.tells scope) hsame)

/-- **The longest embedded language wins.** For every map of embedded languages, in whatever order
its entries are given, and after whatever questions, a scope is told the language of the longest
scope in the map that it lies within, and 0 if it lies within none. -/
theorem language_ask_eq_iff {embedded entries : List (String × Nat)}
    (hkeys : (embedded.map (·.1)).Nodup) (hentries : entries.Perm embedded) (language : Nat)
    (theme : Theme) (earlier : List String) (scope : String) (n : Nat) :
    (((⟨make language entries theme, []⟩ : NameLookup).askAll earlier).ask scope).1.language = n ↔
      Embeds embedded scope n := by
  rw [ask_askAll]
  have hembeds := (embeds_languageOf language entries theme scope).perm hentries
  exact ⟨fun h => h ▸ hembeds, hembeds.unique hkeys⟩

/-- Scripts, a dialect whose name stands between two scopes of theirs, and patterns in scripts. -/
def scripts : List (String × Nat) :=
  [("source.js.regexp", 3), ("source.js", 2), ("source.js-x", 5), ("source.css", 4)]

theorem language_ask_eq_iff_scripts :
    (scripts.map (·.1)).Nodup ∧ scripts.reverse.Perm scripts ∧
      ((((⟨make 1 scripts.reverse .standard, []⟩ : NameLookup).askAll
          ["source.js", "source.js.regexp.group", "source.js-x.a"]).ask
            "source.js.regexp.group").1.language = 3 ↔
        Embeds scripts "source.js.regexp.group" 3) :=
  ⟨by decide, List.reverse_perm _,
    language_ask_eq_iff (by decide) (List.reverse_perm _) _ _ _ _ _⟩

example : ((⟨make 1 scripts .standard, []⟩ : NameLookup).ask "source.js.map").1.language = 2 := by
  decide +kernel

end NameLookup

end Highlight
