import Highlight.Proofs.Bytes
import Highlight.Proofs.Scanning
import Highlight.Scanner.Literal

/-!
# What the engine of plain texts finds

What the engine of plain texts finds is the stretch of a pattern where it stands in the text: some
characters of the text come before it, at least those before the start of the search, and some
after it. So it lies between the start of the search and the end of the text, and between
characters.
-/

namespace Highlight

namespace Literal

/-- What stands at a position begins there and is a beginning of what is there. -/
theorem exists_captures_of_at? {patterns : List (List Char)} {position : Nat} {cs : List Char}
    {f : Found} (h : at? patterns position cs = some f) :
    ∃ found rest, cs = found ++ rest ∧
      f.captures = [some ⟨position, position + Text.sizeOf found⟩] := by
  obtain ⟨index, hindex, rfl⟩ := Option.map_eq_some_iff.1 h
  obtain ⟨hlt, hstands, -⟩ := List.findIdx?_eq_some_iff_getElem.1 hindex
  obtain ⟨rest, rfl⟩ := List.isPrefixOf_iff_prefix.1 hstands
  refine ⟨patterns[index], rest, rfl, ?_⟩
  rw [List.getD_eq_getElem?_getD, List.getElem?_eq_getElem hlt, Option.getD_some]

/-- What is found first in a text comes after some of its characters. -/
theorem exists_captures_of_firstFrom? {patterns : List (List Char)} {position : Nat}
    {cs : List Char} {f : Found} (h : firstFrom? patterns position cs = some f) :
    ∃ passed found rest, cs = passed ++ (found ++ rest) ∧
      f.captures = [some ⟨position + Text.sizeOf passed,
        position + Text.sizeOf passed + Text.sizeOf found⟩] := by
  induction cs generalizing position with
  | nil =>
    obtain ⟨found, rest, hcs, hcaptures⟩ := exists_captures_of_at? h
    exact ⟨[], found, rest, hcs, hcaptures⟩
  | cons c cs ih =>
    obtain hhere | ⟨-, hlater⟩ := Option.or_eq_some_iff.1 h
    · obtain ⟨found, rest, hcs, hcaptures⟩ := exists_captures_of_at? hhere
      exact ⟨[], found, rest, hcs, hcaptures⟩
    · obtain ⟨passed, found, rest, rfl, hcaptures⟩ := ih hlater
      refine ⟨c :: passed, found, rest, rfl, ?_⟩
      rw [hcaptures, Text.sizeOf_cons, ← Nat.add_assoc]

end Literal

/-- **What the engine of plain texts finds** is one stretch of the text, after what the search does
not look at. -/
theorem Engine.exists_captures_of_finds_literal {σ : Type} {text : String} {start : Nat} {f : Found}
    (h : (Engine.literal σ).Finds text start f) :
    ∃ front found rest, text.toList = front ++ (found ++ rest) ∧ start ≤ Text.sizeOf front ∧
      f.captures = [some ⟨Text.sizeOf front, Text.sizeOf front + Text.sizeOf found⟩] := by
  obtain ⟨s, ⟨patterns, _, _, hmade⟩, _, _, hfound⟩ := h
  have hs : ∃ patterns, s.find = fun text start => pure (Literal.search patterns text start) := by
    have hmade := (Prod.mk.inj hmade).1
    split at hmade
    · simp at hmade
    · exact ⟨_, (congrArg Scanner.find (Except.ok.inj hmade)).symm⟩
  obtain ⟨patterns, hs⟩ := hs
  rw [hs] at hfound
  have hsearch : Literal.search patterns text start = some f := (Prod.mk.inj hfound).1
  obtain ⟨ahead, hahead, hfirst⟩ := Option.bind_eq_some_iff.1 hsearch
  obtain ⟨before, hbefore, rfl⟩ := Text.exists_of_dropBytes? hahead
  obtain ⟨passed, found, rest, rfl, hcaptures⟩ := Literal.exists_captures_of_firstFrom? hfirst
  refine ⟨before ++ passed, found, rest, by rw [hbefore, List.append_assoc], ?_, ?_⟩
  · rw [Text.sizeOf_append]
    exact Nat.le_add_right _ _
  · rw [hcaptures, Text.sizeOf_append]

/-- **The engine of plain texts is bounded.** -/
theorem Engine.bounded_literal {σ : Type} : (Engine.literal σ).Bounded := by
  -- what is found ends before the text does
  have hfits : ∀ {text : String} {front found rest : List Char},
      text.toList = front ++ (found ++ rest) →
      Text.sizeOf front + Text.sizeOf found ≤ text.utf8ByteSize := by
    intro text front found rest htext
    rw [← Text.sizeOf_toList, htext, Text.sizeOf_append, Text.sizeOf_append]
    omega
  refine ⟨fun text start f h => ?_, fun text start f h s hs => ?_⟩
  · obtain ⟨front, found, rest, htext, hstart, hcaptures⟩ := exists_captures_of_finds_literal h
    rw [hcaptures]
    exact ⟨hstart, Nat.le_add_right _ _, hfits htext⟩
  · obtain ⟨front, found, rest, htext, -, hcaptures⟩ := exists_captures_of_finds_literal h
    rw [hcaptures] at hs
    obtain rfl : s = ⟨_, _⟩ := by simpa using hs
    exact ⟨Nat.le_add_right _ _, hfits htext⟩

end Highlight
