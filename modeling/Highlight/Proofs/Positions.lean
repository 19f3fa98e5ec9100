import Highlight.Selector.Matcher
import Mathlib.Data.List.Forall2
import Mathlib.Data.List.NodupEquivFin
import Mathlib.Data.String.Basic

/-!
# Which scopes the names of a selector stand for

A list of names selects a path if its scopes hold the names in order: each name has a scope of its
own that it covers, and these scopes stand in the order of the names. Scopes in between do not
matter, nor how many choices there are.

The search gives each name the first scope that it covers behind the one of the name before, and
never takes that back. Nothing is lost by that: whatever scopes serve the names behind, they serve
them as well when the name in front of them stands earlier. That is the one step of the proof which
is not about a single scope, and it is about any relation in the place of covering.
-/

namespace Highlight

/-! ## Positions -/

section Positions

variable {α β : Type} {R : α → β → Prop}

/-- The first of some elements can be left out. -/
theorem sublistForall₂_of_cons {a : α} {as : List α} {bs : List β}
    (h : List.SublistForall₂ R (a :: as) bs) : List.SublistForall₂ R as bs := by
  generalize has : a :: as = l at h
  induction h with
  | nil => cases has
  | cons _ h _ =>
    obtain ⟨-, rfl⟩ := List.cons.inj has
    exact .cons_right h
  | cons_right _ ih => exact .cons_right (ih has)

/-- **Elements in order have positions**: one for each, one after the other. -/
theorem sublistForall₂_iff_exists_strictMono {as : List α} {bs : List β} :
    List.SublistForall₂ R as bs ↔
      ∃ position : Fin as.length → Fin bs.length, StrictMono position ∧
        ∀ i, R as[i] bs[position i] := by
  rw [List.sublistForall₂_iff]
  constructor
  · rintro ⟨taken, hpairs, hsub⟩
    obtain ⟨hlength, hpairs⟩ := List.forall₂_iff_get.1 hpairs
    obtain ⟨place, hplace⟩ := List.sublist_iff_exists_fin_orderEmbedding_get_eq.1 hsub
    refine ⟨fun i => place (i.cast hlength), fun i j hij => ?_, fun i => ?_⟩
    · exact place.strictMono hij
    · change R as[i] (bs.get (place (i.cast hlength)))
      rw [← hplace]
      exact hpairs i i.isLt (hlength ▸ i.isLt)
  · rintro ⟨position, hmono, hpairs⟩
    have hlength : as.length = (List.ofFn fun i => bs[position i]).length :=
      (List.length_ofFn).symm
    refine ⟨List.ofFn fun i => bs[position i], List.forall₂_iff_get.2 ⟨hlength, fun i hi _ => ?_⟩,
      List.sublist_iff_exists_fin_orderEmbedding_get_eq.2 ⟨?_, fun i => ?_⟩⟩
    · simpa using hpairs ⟨i, hi⟩
    · exact OrderEmbedding.ofStrictMono (fun i => position (i.cast hlength.symm))
        fun i j hij => hmono hij
    · rw [List.get_ofFn]
      rfl

end Positions

/-! ## Names in order -/

/-- A scope is covered by a name exactly if it is the name, or goes on after it with a dot. -/
theorem Scope.coveredBy_iff_append {scope name : String} :
    coveredBy scope name = true ↔ scope = name ∨ ∃ rest, scope = name ++ "." ++ rest := by
  rw [coveredBy_iff]
  refine or_congr_right ⟨?_, ?_⟩
  · rintro ⟨rest, hrest⟩
    refine ⟨String.ofList rest, String.toList_inj.1 ?_⟩
    simp [hrest]
  · rintro ⟨rest, rfl⟩
    exact ⟨rest.toList, by simp⟩

namespace Selector

/-- **The search for names finds them if they are there.** -/
theorem inOrder_iff {names scopes : List String} :
    inOrder names scopes = true ↔
      List.SublistForall₂ (fun name scope => Scope.coveredBy scope name = true) names scopes := by
  fun_induction inOrder names scopes with
  | case1 => exact iff_of_true rfl .nil
  | case2 name names => exact iff_of_false Bool.false_ne_true nofun
  | case3 name names scope scopes hcovers ih =>
    rw [ih]
    refine ⟨.cons hcovers, fun h => ?_⟩
    cases h with
    | cons _ h => exact h
    | cons_right h => exact sublistForall₂_of_cons h
  | case4 name names scope scopes hcovers ih =>
    rw [ih]
    refine ⟨.cons_right, fun h => ?_⟩
    cases h with
    | cons hcovers' _ => exact absurd hcovers' hcovers
    | cons_right h => exact h

/-- A path with fewer scopes than there are names is not selected. -/
theorem length_le_of_inOrder {names scopes : List String} (h : inOrder names scopes = true) :
    names.length ≤ scopes.length := by
  obtain ⟨taken, hpairs, hsub⟩ := List.sublistForall₂_iff.1 (inOrder_iff.1 h)
  exact hpairs.length_eq ▸ hsub.length_le

/-- **A list of names selects a path exactly if the names have positions in it**: one for each
name, one further in than the other, such that the scope at the position of a name is the name, or
the name with a dot and more behind it. -/
theorem Matcher.selects_path_iff (names scopes : List String) :
    (path names).selects scopes = true ↔
      ∃ position : Fin names.length → Fin scopes.length, StrictMono position ∧
        ∀ i, scopes[position i] = names[i] ∨
          ∃ rest, scopes[position i] = names[i] ++ "." ++ rest := by
  rw [selects, inOrder_iff, sublistForall₂_iff_exists_strictMono]
  simp only [Scope.coveredBy_iff_append]

example : (Matcher.path ["string", "string.quoted"]).selects
    ["source", "string.quoted.double", "string.quoted"] = true := by decide

example : (Matcher.path ["string.quoted", "string.quoted"]).selects
    ["source", "string.quoted", "string.other"] = false := by decide

end Selector

end Highlight
