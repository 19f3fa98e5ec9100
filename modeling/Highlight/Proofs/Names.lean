import Highlight.Scope.Name
import Mathlib.Data.List.Basic
import Mathlib.Data.String.Basic

/-!
# Names that cover, segment by segment

That a name covers a scope is said of texts: the scope goes on after the name with a dot, or not
at all. The rules of a theme are kept by segments. The two views agree for **whole** names, those
without an empty segment: a dot at the very end of a name opens no segment, so `a.` has the
segments of `a` but does not cover what `a` covers.
-/

namespace Highlight

namespace Text

theorem pieces_append_cons (sep : Char) (cs rest : List Char) :
    pieces sep (cs ++ sep :: rest) = pieces sep cs ++ pieces sep rest := by
  induction cs with
  | nil => simp [pieces]
  | cons c cs ih =>
    rw [List.cons_append, pieces, pieces, ih]
    split
    · rfl
    · cases h : pieces sep cs with
      | nil => exact absurd h (pieces_ne_nil sep cs)
      | cons p ps => rfl

/-- Joining two lists of pieces puts one more separator between them. -/
theorem intercalate_append (sep : Char) {ps qs : List (List Char)} (hp : ps ≠ []) (hq : qs ≠ []) :
    [sep].intercalate (ps ++ qs) = [sep].intercalate ps ++ sep :: [sep].intercalate qs := by
  induction ps with
  | nil => exact absurd rfl hp
  | cons p ps ih =>
    cases ps with
    | nil => simp [List.intercalate_cons_of_ne_nil hq]
    | cons p' ps =>
      have hne : p' :: ps ++ qs ≠ [] := by simp
      rw [List.cons_append, List.intercalate_cons_of_ne_nil hne, ih (by simp),
        List.intercalate_cons_cons]
      simp

/-- The pieces of one text are the first pieces of another exactly if the other is the same text
or goes on with a separator. -/
theorem pieces_prefix_iff {sep : Char} {cs ds : List Char} :
    pieces sep cs <+: pieces sep ds ↔ ds = cs ∨ ∃ rest, ds = cs ++ sep :: rest := by
  constructor
  · rintro ⟨more, hmore⟩
    rcases eq_or_ne more [] with rfl | hne
    · left
      rw [← intercalate_pieces sep ds, ← hmore, List.append_nil, intercalate_pieces]
    · right
      refine ⟨[sep].intercalate more, ?_⟩
      rw [← intercalate_pieces sep ds, ← hmore, intercalate_append sep (pieces_ne_nil sep cs) hne,
        intercalate_pieces]
  · rintro (rfl | ⟨rest, rfl⟩)
    · exact List.prefix_rfl
    · rw [pieces_append_cons]
      exact List.prefix_append _ _

theorem split_prefix_iff {sep : Char} {s t : String} :
    split sep s <+: split sep t ↔ pieces sep s.toList <+: pieces sep t.toList := by
  constructor
  · intro h
    have h' := h.map String.toList
    simpa [split, Function.comp_def] using h'
  · exact fun h => h.map String.ofList

theorem toList_eq_intercalate (sep : Char) (s : String) :
    s.toList = [sep].intercalate ((split sep s).map String.toList) := by
  have h : (split sep s).map String.toList = pieces sep s.toList := by
    simp [split, Function.comp_def]
  rw [h, intercalate_pieces]

/-- A text whose last piece is empty has a separator at its end, unless it has no other piece. -/
theorem getLast?_of_split_eq {sep : Char} {s : String} {ps : List String}
    (h : split sep s = ps ++ [""]) (hne : ps ≠ []) : s.toList.getLast? = some sep := by
  rw [toList_eq_intercalate sep, h, List.map_append,
    intercalate_append sep (by simpa using hne) (by simp)]
  simp

theorem getLast?_trimBoth {p : Char → Bool} {s : String} {c : Char}
    (h : (trimBoth p s).toList.getLast? = some c) : p c = false := by
  rw [trimBoth, String.toList_ofList, List.getLast?_reverse] at h
  have hhead := List.head?_dropWhile_not p (s.toList.dropWhile p).reverse
  rwa [h] at hhead

/-- If the last word of a trimmed text is empty, there is no other. -/
theorem eq_nil_of_reverse_split_trim {s : String} {before : List String}
    (h : (split ' ' (trim s)).reverse = "" :: before) : before = [] := by
  have hsplit : split ' ' (trim s) = before.reverse ++ [""] := by
    rw [← List.reverse_reverse (split ' ' (trim s)), h, List.reverse_cons]
  by_contra hne
  -- otherwise the trimmed text would end in a blank
  have hend := getLast?_of_split_eq hsplit (by simpa using hne)
  exact absurd (getLast?_trimBoth hend) (by decide)

end Text

namespace Scope

/-- **A whole name** has no empty segment. -/
def IsWhole (name : String) : Prop := "" ∉ Text.split '.' name

instance (name : String) : Decidable (IsWhole name) := inferInstanceAs (Decidable (¬ _))

theorem coveredBy_iff_split {scope name : String} :
    coveredBy scope name = true ↔ Text.split '.' name <+: Text.split '.' scope := by
  rw [coveredBy_iff, Text.split_prefix_iff, Text.pieces_prefix_iff, String.toList_inj]

theorem IsWhole.segments_eq {name : String} (h : IsWhole name) :
    segments name = Text.split '.' name := by
  have hlast : (Text.split '.' name).getLast? ≠ some "" := fun hlast =>
    h (List.mem_of_getLast? hlast)
  simp [segments, hlast]

/-- The pieces of a scope are its segments, and after a dot at its end an empty one. -/
theorem split_eq_segments (scope : String) :
    Text.split '.' scope = segments scope ∨ Text.split '.' scope = segments scope ++ [""] := by
  simp only [segments]
  split
  · next h => exact .inr (List.dropLast_append_getLast? _ h).symm
  · exact .inl rfl

/-- **A whole name covers a scope exactly if its segments are the first segments of the
scope.** -/
theorem IsWhole.coveredBy_iff_segments {scope name : String} (h : IsWhole name) :
    coveredBy scope name = true ↔ segments name <+: segments scope := by
  rw [coveredBy_iff_split, h.segments_eq]
  rcases split_eq_segments scope with hs | hs
  · rw [hs]
  · rw [hs, List.prefix_concat_iff]
    refine or_iff_right fun heq => h ?_
    rw [heq]
    simp

/-- A text comes before those that go on behind it. -/
theorem lt_of_prefix {s t : String} (h : s.toList <+: t.toList) (hne : s ≠ t) : s < t := by
  obtain ⟨rest, hrest⟩ := h
  rw [String.lt_iff_toList_lt, ← hrest]
  cases rest with
  | nil =>
    rw [List.append_nil] at hrest
    exact absurd (String.toList_inj.1 hrest) hne
  | cons c rest =>
    have happend : s.toList ++ [] < s.toList ++ c :: rest :=
      List.append_left_lt (List.nil_lt_cons c rest)
    rwa [List.append_nil] at happend

/-- A name comes before the names below it. -/
theorem lt_of_coveredBy {scope name : String} (h : coveredBy scope name = true)
    (hne : scope ≠ name) : name < scope := by
  obtain ⟨rest, hrest⟩ := (coveredBy_iff.1 h).resolve_left hne
  exact lt_of_prefix (hrest ▸ List.prefix_append _ _) hne.symm

/-- **A scope comes before those that have its segments and more**, whether it ends in a dot or
not. -/
theorem lt_of_segments_prefix {s t : String} (h : segments s <+: segments t)
    (hne : segments s ≠ segments t) : s < t := by
  refine lt_of_prefix ?_ fun hst => hne (congrArg segments hst)
  have hsplit : segments t <+: Text.split '.' t := by
    rcases split_eq_segments t with ht | ht <;> simp [ht]
  rcases split_eq_segments s with hs | hs
  · rw [← hs] at h
    rcases coveredBy_iff.1 (coveredBy_iff_split.2 (h.trans hsplit)) with rfl | ⟨rest, hrest⟩
    · exact List.prefix_rfl
    · exact hrest ▸ List.prefix_append _ _
  · -- the dot at the end of `s` stands in `t` as well, in front of the next piece
    obtain ⟨more, hmore⟩ := h.trans hsplit
    have hmorene : more ≠ [] := by
      rintro rfl
      rw [List.append_nil] at hmore
      exact hne (h.eq_of_length_le (hmore ▸ hsplit.length_le))
    rw [Text.toList_eq_intercalate '.' s, Text.toList_eq_intercalate '.' t, hs, ← hmore,
      List.map_append, List.map_append]
    by_cases hnil : segments s = []
    · simp [hnil]
    · rw [Text.intercalate_append _ (by simpa using hnil) (by simp),
        Text.intercalate_append _ (by simpa using hnil) (by simpa using hmorene)]
      simp

end Scope

end Highlight
