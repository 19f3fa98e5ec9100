import Highlight.Proofs.Signs

/-!
# References among the signs of a pattern

A reference to a group is an escaped digit with the digits that follow it. It is a sign, so that
where references begin should be told from the signs of the pattern, as it is for anchors and for
`\z`. Here the pattern is read character by character instead: a backslash before digits begins a
reference, also a backslash that is itself escaped.

The two readings agree as long as the signs do not **mislead**, which they do where an escaped
backslash stands before a digit. There the digits are taken for a reference and lost with the
backslash. So the resolved text is shorter than it should be where the groups have no text, and a
pattern that misleads is never resolved as its signs demand.
-/

namespace Highlight.Grammar

namespace PatternText

/-! ## Reading sign by sign -/

namespace Sign

/-- The character of a sign. -/
def letter : Sign → Char
  | plain c => c
  | escaped c => c

/-- A digit that stands by itself. -/
def isDigit : Sign → Bool
  | plain c => Unicode.isDecimal c
  | escaped _ => false

/-- A digit that is escaped: a reference begins. -/
def refers : Sign → Bool
  | plain _ => false
  | escaped c => Unicode.isDecimal c

end Sign

/-- **The pieces of some signs.** An escaped digit begins a reference, and all digits that follow
belong to it. Every other sign is what writes it. -/
def piecesOfSigns : List Sign → List Piece
  | [] => []
  | s :: ss =>
    if s.refers then
      .group (s.letter :: (ss.takeWhile Sign.isDigit).map Sign.letter) ::
        piecesOfSigns (ss.dropWhile Sign.isDigit)
    else s.written.map .char ++ piecesOfSigns ss
termination_by ss => ss.length
decreasing_by
  · exact Nat.lt_succ_of_le (List.dropWhile_suffix _).length_le
  · exact Nat.lt_succ_self _

theorem piecesOfSigns_nil : piecesOfSigns [] = [] := by rw [piecesOfSigns]

theorem piecesOfSigns_plain (c : Char) (ss : List Sign) :
    piecesOfSigns (.plain c :: ss) = .char c :: piecesOfSigns ss := by
  rw [piecesOfSigns]
  rfl

theorem piecesOfSigns_escaped {c : Char} (h : Unicode.isDecimal c = false) (ss : List Sign) :
    piecesOfSigns (.escaped c :: ss) = .char '\\' :: .char c :: piecesOfSigns ss := by
  rw [piecesOfSigns, Sign.refers, h]
  rfl

/-- There are references among the pieces just if some sign begins one. -/
theorem any_isGroup_piecesOfSigns (ss : List Sign) :
    (piecesOfSigns ss).any (·.isGroup) = ss.any Sign.refers := by
  fun_induction piecesOfSigns ss with
  | case1 => rfl
  | case2 s ss hrefers _ => simp [Piece.isGroup, hrefers]
  | case3 s ss hplain ih =>
    have hnone : (s.written.map Piece.char).any (·.isGroup) = false := by simp [Piece.isGroup]
    rw [List.any_append, hnone, ih, List.any_cons, Bool.eq_false_iff.2 hplain]

/-! ## Reading character by character -/

theorem ne_backslash_of_isDecimal {c : Char} (h : Unicode.isDecimal c = true) : c ≠ '\\' := by
  rintro rfl
  exact absurd h (by decide)

theorem pieces_nil : pieces [] = [] := by rw [pieces]

theorem pieces_of_ne {c : Char} (h : c ≠ '\\') (cs : List Char) :
    pieces (c :: cs) = .char c :: pieces cs := by
  simp [pieces, h]

theorem pieces_backslash {cs : List Char} (h : cs.takeWhile Unicode.isDecimal = []) :
    pieces ('\\' :: cs) = .char '\\' :: pieces cs := by
  simp [pieces, h]

theorem pieces_reference {cs : List Char} (h : cs.takeWhile Unicode.isDecimal ≠ []) :
    pieces ('\\' :: cs) =
      .group (cs.takeWhile Unicode.isDecimal) :: pieces (cs.dropWhile Unicode.isDecimal) := by
  simp [pieces, h]

/-! ## Digits in a text and among its signs -/

theorem signs_digit {c : Char} (h : Unicode.isDecimal c = true) (cs : List Char) :
    signs (c :: cs) = .plain c :: signs cs :=
  signs_plain (fun hc => absurd hc (ne_backslash_of_isDecimal h))

/-- A text that does not begin with a digit has no digit as its first sign. -/
theorem isDigit_head_signs {c : Char} (h : ¬ Unicode.isDecimal c = true) (cs : List Char) :
    ∃ s ss, signs (c :: cs) = s :: ss ∧ ¬ s.isDigit = true := by
  unfold signs
  split
  · exact ⟨_, _, rfl, by simp [Sign.isDigit]⟩
  · next heq =>
    obtain ⟨rfl, rfl⟩ := List.cons.inj heq
    exact ⟨_, _, rfl, h⟩
  · next heq => exact absurd heq (List.cons_ne_nil _ _)

/-- The digits a text begins with are the digits its signs begin with. -/
theorem digits_signs (cs : List Char) :
    (signs cs).takeWhile Sign.isDigit = (cs.takeWhile Unicode.isDecimal).map .plain ∧
      (signs cs).dropWhile Sign.isDigit = signs (cs.dropWhile Unicode.isDecimal) := by
  induction cs with
  | nil => exact ⟨rfl, rfl⟩
  | cons c cs ih =>
    by_cases hc : Unicode.isDecimal c = true
    · have hs : (Sign.plain c).isDigit = true := hc
      rw [signs_digit hc, List.takeWhile_cons_of_pos hs, List.dropWhile_cons_of_pos hs,
        List.takeWhile_cons_of_pos hc, List.dropWhile_cons_of_pos hc, ih.1, ih.2]
      exact ⟨rfl, rfl⟩
    · obtain ⟨s, ss, hsigns, hs⟩ := isDigit_head_signs hc cs
      rw [List.takeWhile_cons_of_neg hc, List.dropWhile_cons_of_neg hc, hsigns,
        List.takeWhile_cons_of_neg hs, List.dropWhile_cons_of_neg hs]
      exact ⟨rfl, rfl⟩

/-- The signs of a text that begins with an escaped digit have a reference first. -/
theorem piecesOfSigns_reference {c : Char} (h : Unicode.isDecimal c = true) (cs : List Char) :
    piecesOfSigns (.escaped c :: signs cs) =
      .group (c :: cs.takeWhile Unicode.isDecimal) ::
        piecesOfSigns (signs (cs.dropWhile Unicode.isDecimal)) := by
  obtain ⟨htake, hdrop⟩ := digits_signs cs
  rw [piecesOfSigns, if_pos (show (Sign.escaped c).refers = true from h), htake, hdrop,
    List.map_map]
  exact congrArg (fun ds => Piece.group (c :: ds) :: _) (List.map_id _)

/-- Digits that stand by themselves are read one by one, whichever way. -/
theorem pieces_digits (cs : List Char) :
    pieces cs = (cs.takeWhile Unicode.isDecimal).map .char ++
        pieces (cs.dropWhile Unicode.isDecimal) ∧
      piecesOfSigns (signs cs) = (cs.takeWhile Unicode.isDecimal).map .char ++
        piecesOfSigns (signs (cs.dropWhile Unicode.isDecimal)) := by
  induction cs with
  | nil => exact ⟨rfl, rfl⟩
  | cons c cs ih =>
    by_cases hc : Unicode.isDecimal c = true
    · rw [List.takeWhile_cons_of_pos hc, List.dropWhile_cons_of_pos hc, signs_digit hc,
        pieces_of_ne (ne_backslash_of_isDecimal hc), piecesOfSigns_plain]
      exact ⟨congrArg (.char c :: ·) ih.1, congrArg (.char c :: ·) ih.2⟩
    · rw [List.takeWhile_cons_of_neg hc, List.dropWhile_cons_of_neg hc]
      exact ⟨rfl, rfl⟩

/-! ## Where the readings part -/

/-- **Signs mislead** where an escaped backslash stands before a digit. -/
def Misleading (ss : List Sign) : Prop :=
  ∃ c, Unicode.isDecimal c = true ∧ [.escaped '\\', .plain c] <:+: ss

theorem Misleading.cons {ss : List Sign} (h : Misleading ss) (s : Sign) : Misleading (s :: ss) := by
  obtain ⟨c, hc, hinfix⟩ := h
  exact ⟨c, hc, List.infix_cons hinfix⟩

/-- A sign before a text misleads only if it is a backslash and the text begins with a digit. -/
theorem misleading_cons_iff {s : Sign} {cs : List Char} :
    Misleading (s :: signs cs) ↔
      (s = .escaped '\\' ∧ cs.takeWhile Unicode.isDecimal ≠ []) ∨ Misleading (signs cs) := by
  constructor
  · rintro ⟨d, hd, hinfix⟩
    obtain hprefix | hinfix := List.infix_cons_iff.1 hinfix
    · obtain ⟨hs, hprefix⟩ := List.cons_prefix_cons.1 hprefix
      refine .inl ⟨hs.symm, fun hnone => ?_⟩
      -- then the signs of the text begin with no digit
      have htake := (digits_signs cs).1
      rw [hnone] at htake
      obtain ⟨ss, hss⟩ := hprefix
      rw [← hss] at htake
      simp [Sign.isDigit, hd] at htake
    · exact .inr ⟨d, hd, hinfix⟩
  · rintro (⟨rfl, hdigits⟩ | h)
    · cases cs with
      | nil => exact absurd rfl hdigits
      | cons d cs =>
        have hd : Unicode.isDecimal d = true :=
          Decidable.byContradiction (fun hd => hdigits (List.takeWhile_cons_of_neg hd))
        rw [signs_digit hd]
        exact ⟨d, hd, (List.prefix_append [_, _] _).isInfix⟩
    · exact h.cons s

/-- An escaped character that is no digit and does not mislead stays as it is. -/
theorem pieces_escaped {c : Char} {cs : List Char} (hc : Unicode.isDecimal c = false)
    (h : c = '\\' → cs.takeWhile Unicode.isDecimal = []) :
    pieces ('\\' :: c :: cs) = .char '\\' :: .char c :: pieces cs := by
  rw [pieces_backslash (List.takeWhile_cons_of_neg (by simp [hc]))]
  by_cases hbackslash : c = '\\'
  · rw [hbackslash, pieces_backslash (h hbackslash)]
  · rw [pieces_of_ne hbackslash]

/-- A character that stands by itself stays as it is. -/
theorem pieces_plain {c : Char} {cs : List Char} (h : ∀ d ds, c = '\\' → cs = d :: ds → False) :
    pieces (c :: cs) = .char c :: pieces cs := by
  by_cases hc : c = '\\'
  · rw [eq_nil_of_plain h hc, hc, pieces_backslash rfl]
  · exact pieces_of_ne hc cs

/-- What is left of some pieces if no group has a text. -/
def leftOf (ps : List Piece) : List Char := ps.flatMap (·.resolve "" [])

theorem leftOf_char (c : Char) (ps : List Piece) : leftOf (.char c :: ps) = c :: leftOf ps := rfl

theorem leftOf_group (digits : List Char) (ps : List Piece) :
    leftOf (.group digits :: ps) = leftOf ps := by
  have hnone : (Text.index? digits).bind (Captures.text? "" []) = none :=
    Option.bind_eq_none_iff.2 (fun _ _ => rfl)
  rw [leftOf, List.flatMap_cons, Piece.resolve, hnone]
  rfl

theorem leftOf_map_char_append (cs : List Char) (ps : List Piece) :
    leftOf (cs.map .char ++ ps) = cs ++ leftOf ps := by
  rw [leftOf, List.flatMap_append, List.flatMap_map]
  exact congrArg (· ++ _) (List.flatMap_singleton' cs)

/-- **The readings agree, or less is left** than the signs demand, and this where the signs
mislead. -/
theorem pieces_eq_or_length_lt (cs : List Char) :
    (¬ Misleading (signs cs) ∧ pieces cs = piecesOfSigns (signs cs)) ∨
      (Misleading (signs cs) ∧
        (leftOf (pieces cs)).length < (leftOf (piecesOfSigns (signs cs))).length) := by
  fun_induction signs cs with
  | case1 c cs ih =>
    by_cases hc : Unicode.isDecimal c = true
    · -- a reference in either reading; the digits behind it are read alike, so what follows is
      have hrest : Misleading (.escaped c :: signs cs) ↔ Misleading (signs cs) :=
        misleading_cons_iff.trans (or_iff_right
          (fun h => ne_backslash_of_isDecimal hc (Sign.escaped.inj h.1)))
      rw [hrest, pieces_reference (by simp [hc]), piecesOfSigns_reference hc,
        List.takeWhile_cons_of_pos hc, List.dropWhile_cons_of_pos hc, leftOf_group, leftOf_group]
      rw [(pieces_digits cs).1, (pieces_digits cs).2, leftOf_map_char_append,
        leftOf_map_char_append, List.length_append, List.length_append] at ih
      exact ih.imp (And.imp_right (fun h => congrArg _ (List.append_cancel_left h)))
        (And.imp_right Nat.lt_of_add_lt_add_left)
    have hplain := Bool.eq_false_iff.2 hc
    by_cases hdigits : c = '\\' ∧ cs.takeWhile Unicode.isDecimal ≠ []
    · -- the digits are lost with the backslash before them
      refine .inr ⟨misleading_cons_iff.2 (.inl ⟨congrArg _ hdigits.1, hdigits.2⟩), ?_⟩
      have hle : (leftOf (pieces cs)).length ≤ (leftOf (piecesOfSigns (signs cs))).length := by
        obtain ⟨-, heq⟩ | ⟨-, hlt⟩ := ih
        · exact Nat.le_of_eq (congrArg (fun ps => (leftOf ps).length) heq)
        · exact Nat.le_of_lt hlt
      rw [(pieces_digits cs).1, leftOf_map_char_append, List.length_append] at hle
      rw [piecesOfSigns_escaped hplain, hdigits.1, leftOf_char, leftOf_char,
        pieces_backslash rfl, pieces_reference hdigits.2, leftOf_char, leftOf_group]
      simp only [List.length_cons]
      omega
    · have hrest : Misleading (.escaped c :: signs cs) ↔ Misleading (signs cs) :=
        misleading_cons_iff.trans (or_iff_right (fun h => hdigits ⟨Sign.escaped.inj h.1, h.2⟩))
      have hnone : c = '\\' → cs.takeWhile Unicode.isDecimal = [] := fun hbackslash =>
        Decidable.byContradiction (fun hne => hdigits ⟨hbackslash, hne⟩)
      rw [hrest, pieces_escaped hplain hnone, piecesOfSigns_escaped hplain]
      exact ih.imp (And.imp_right (fun h => congrArg (fun ps => .char '\\' :: .char c :: ps) h))
        (And.imp_right (Nat.add_lt_add_right · 2))
  | case2 c cs hplain ih =>
    have hrest : Misleading (.plain c :: signs cs) ↔ Misleading (signs cs) :=
      misleading_cons_iff.trans (or_iff_right (fun h => Sign.noConfusion h.1))
    rw [hrest, pieces_plain hplain, piecesOfSigns_plain]
    exact ih.imp (And.imp_right (fun h => congrArg _ h)) (And.imp_right (Nat.add_lt_add_right · 1))
  | case3 =>
    refine .inl ⟨?_, by rw [pieces_nil, piecesOfSigns_nil]⟩
    rintro ⟨c, -, hinfix⟩
    exact absurd (List.infix_nil.1 hinfix) (List.cons_ne_nil _ _)

/-! ## Patterns -/

/-- The text of the group that some digits name. There is none if the digits write no index, if
there is no such group, and if the group took no part. -/
def groupText (line : String) (captures : Captures) (digits : List Char) : List Char :=
  match Text.index? digits with
  | none => []
  | some n =>
    match captures[n]? with
    | some (some span) => ((Text.slice? line span.start span.stop).getD "").toList
    | _ => []

/-- A piece with the text of a group in place of a reference. -/
def Piece.filled (line : String) (captures : Captures) : Piece → List Char
  | char c => [c]
  | group digits => escape (groupText line captures digits)

theorem Piece.resolve_eq_filled (line : String) (captures : Captures) (p : Piece) :
    p.resolve line captures = p.filled line captures := by
  cases p with
  | char c => rfl
  | group digits =>
    refine congrArg escape ?_
    unfold groupText
    split
    · next hindex => simp [hindex]
    · next n hindex =>
      rw [hindex, Option.bind_some, Captures.text?]
      split
      · next span hspan => simp [hspan]
      · next hnone =>
        cases hgroup : captures[n]? with
        | none => rfl
        | some group =>
          cases group with
          | none => rfl
          | some span => exact absurd hgroup (hnone span)

end PatternText

namespace Pattern

open PatternText

/-- **A pattern respects escapes** if its references are those among its signs. -/
structure RespectsEscapes (p : Pattern) : Prop where
  /-- Each reference is replaced by the escaped text of its group, and nothing else is changed. -/
  resolve : ∀ line captures, p.resolve line captures =
    String.ofList ((piecesOfSigns (signs p.text.toList)).flatMap (·.filled line captures))
  /-- The pattern counts as one with references if there is one. -/
  hasReferences : p.hasReferences = true ↔ ∃ s ∈ signs p.text.toList, s.refers = true

/-- **A pattern respects escapes just if its signs do not mislead**: no escaped backslash stands
before a digit. -/
theorem respectsEscapes_iff (p : Pattern) :
    p.RespectsEscapes ↔ ¬ ∃ c, Unicode.isDecimal c = true ∧
      [Sign.escaped '\\', Sign.plain c] <:+: signs p.text.toList := by
  obtain ⟨hagrees, hread⟩ | ⟨hmisleads, hlt⟩ := pieces_eq_or_length_lt p.text.toList
  · refine ⟨fun _ => hagrees, fun _ => ⟨fun line captures => ?_, ?_⟩⟩
    · rw [resolve, hread, funext (Piece.resolve_eq_filled line captures)]
    · rw [hasReferences, hread, any_isGroup_piecesOfSigns, List.any_eq_true]
  · refine ⟨fun h => ?_, fun h => absurd hmisleads h⟩
    have hleft := String.ofList_injective (h.resolve "" [])
    rw [← funext (Piece.resolve_eq_filled "" [])] at hleft
    exact absurd (congrArg List.length hleft) (Nat.ne_of_lt hlt)

/-- In a pattern that is an escaped backslash and a digit, the digit is taken for a reference. -/
theorem not_respectsEscapes_backslash_digit :
    let p := ofSource "\\\\1" .close
    signs p.text.toList = [.escaped '\\', .plain '1'] ∧
      p.resolve "ab" [some ⟨0, 2⟩, some ⟨0, 1⟩] = "\\a" ∧ p.hasReferences = true ∧
      ¬ p.RespectsEscapes := by
  intro p
  have hpieces : pieces p.text.toList = [.char '\\', .group ['1']] := by
    have htext : p.text.toList = ['\\', '\\', '1'] := by decide
    have htake : ['1'].takeWhile Unicode.isDecimal = ['1'] := by decide
    have hdrop : ['1'].dropWhile Unicode.isDecimal = [] := by decide
    rw [htext, pieces_backslash (by decide), pieces_reference (by decide), htake, hdrop, pieces_nil]
  have hrefers : p.hasReferences = true := by
    rw [hasReferences, hpieces]
    rfl
  refine ⟨by decide, ?_, hrefers, fun h => ?_⟩
  · rw [resolve, hpieces]
    decide
  · exact absurd (h.hasReferences.1 hrefers) (by decide)

end Pattern

end Highlight.Grammar
