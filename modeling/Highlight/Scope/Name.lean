import Highlight.Text.Split

/-!
# Scope names

A scope name such as `string.quoted.double` is read from general to special, in segments between
dots. A name stands for all names below it: `string` covers `string` and `string.quoted`, but
not `stringy`.
-/

namespace Highlight.Scope

/-- **The scope is covered by a name**: it is the name, or the name followed by a dot and
more. -/
def coveredBy (scope name : String) : Bool :=
  match Text.after? name.toList scope.toList with
  | some [] => true
  | some ('.' :: _) => true
  | _ => false

/-- The segments of a scope name. A dot at the very end opens no further segment, and the empty
name has none. -/
def segments (scope : String) : List String :=
  let parts := Text.split '.' scope
  if parts.getLast? = some "" then parts.dropLast else parts

/-- A scope is covered by a name exactly if it is the name, or the name, a dot and a rest. -/
theorem coveredBy_iff {scope name : String} :
    coveredBy scope name = true ↔
      scope = name ∨ ∃ rest : List Char, scope.toList = name.toList ++ '.' :: rest := by
  unfold coveredBy
  constructor
  · intro h
    split at h
    · next h' =>
      rw [Text.after?_eq_some_iff, List.append_nil] at h'
      exact .inl (String.toList_inj.1 h')
    · next rest h' =>
      exact .inr ⟨_, Text.after?_eq_some_iff.1 h'⟩
    · exact absurd h (by simp)
  · rintro (rfl | ⟨rest, h⟩)
    · have h' : Text.after? scope.toList scope.toList = some [] := by
        rw [Text.after?_eq_some_iff, List.append_nil]
      simp [h']
    · have h' : Text.after? name.toList scope.toList = some ('.' :: rest) := by
        rw [Text.after?_eq_some_iff, h]
      simp [h']

end Highlight.Scope
