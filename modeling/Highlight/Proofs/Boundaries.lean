import Highlight.Grammar.ScopeTemplate
import Highlight.Proofs.Bytes

/-!
# Cutting between characters

A text can be cut where a character ends and the next one begins, and nowhere else. What is cut off
at such a **boundary** has the same boundaries as the text, up to its end, and between any two of
them in order lies a stretch that can be cut out.

Scope names and closing patterns are put together from what is written in a grammar, with the text
of a group in place of each reference. They are defined by their pieces, without a cut. Told by
positions, it takes three cuts for each reference: what stands before it is cut out, and what writes
it, and what follows begins where it ends. All these cuts are at boundaries, so that this yields the
same text.
-/

namespace Highlight

namespace Text

/-! ## Boundaries -/

/-- **A position is a boundary** of a text: the text can be cut there. -/
def IsBoundary (s : String) (n : Nat) : Prop := (before? s n).isSome = true

instance (s : String) (n : Nat) : Decidable (IsBoundary s n) := inferInstanceAs (Decidable (_ = _))

theorem takeBytes?_add_cons (c : Char) (cs : List Char) (n : Nat) :
    takeBytes? (c.utf8Size + n) (c :: cs) = (takeBytes? n cs).map (c :: ·) := by
  obtain ⟨k, hk⟩ : ∃ k, c.utf8Size + n = k + 1 :=
    ⟨c.utf8Size + n - 1, by have := c.utf8Size_pos; omega⟩
  rw [hk, takeBytes?, ← hk, if_pos (Nat.le_add_right _ _), Nat.add_sub_cancel_left]

theorem dropBytes?_add_cons (c : Char) (cs : List Char) (n : Nat) :
    dropBytes? (c.utf8Size + n) (c :: cs) = dropBytes? n cs := by
  obtain ⟨k, hk⟩ : ∃ k, c.utf8Size + n = k + 1 :=
    ⟨c.utf8Size + n - 1, by have := c.utf8Size_pos; omega⟩
  rw [hk, dropBytes?, ← hk, if_pos (Nat.le_add_right _ _), Nat.add_sub_cancel_left]

/-- The bytes of some characters are taken from in front of others. -/
theorem takeBytes?_append (front rest : List Char) :
    takeBytes? (sizeOf front) (front ++ rest) = some front := by
  induction front with
  | nil => cases rest <;> rfl
  | cons c front ih => rw [sizeOf_cons, List.cons_append, takeBytes?_add_cons, ih, Option.map_some]

theorem dropBytes?_append (front rest : List Char) :
    dropBytes? (sizeOf front) (front ++ rest) = some rest := by
  induction front with
  | nil => cases rest <;> rfl
  | cons c front ih => rw [sizeOf_cons, List.cons_append, dropBytes?_add_cons, ih]

/-- What is taken from some characters stands in front of them. -/
theorem prefix_of_takeBytes? {n : Nat} {cs ds : List Char} (h : takeBytes? n cs = some ds) :
    ds <+: cs := by
  induction cs generalizing n ds with
  | nil =>
    cases n with
    | zero => simp_all [takeBytes?]
    | succ n => simp [takeBytes?] at h
  | cons c cs ih =>
    cases n with
    | zero => simp_all [takeBytes?]
    | succ n =>
      rw [takeBytes?] at h
      split at h
      · obtain ⟨es, hes, rfl⟩ := Option.map_eq_some_iff.1 h
        exact List.cons_prefix_cons.2 ⟨rfl, ih hes⟩
      · exact absurd h (by simp)

theorem before?_append {s : String} {front rest : List Char} (h : s.toList = front ++ rest) :
    before? s (sizeOf front) = some (String.ofList front) := by
  rw [before?, h, takeBytes?_append, Option.map_some]

/-- What is cut off a text stands in front of it. -/
theorem before?_eq_some_iff {s t : String} {n : Nat} :
    before? s n = some t ↔ t.toList <+: s.toList ∧ t.utf8ByteSize = n := by
  constructor
  · intro h
    refine ⟨?_, utf8ByteSize_before? h⟩
    obtain ⟨ds, hds, rfl⟩ := Option.map_eq_some_iff.1 h
    rw [String.toList_ofList]
    exact prefix_of_takeBytes? hds
  · rintro ⟨⟨rest, hrest⟩, rfl⟩
    rw [← sizeOf_toList, before?_append hrest.symm, String.ofList_toList]

/-- A stretch can be cut out if what stands before it is known. -/
theorem slice?_append {s : String} {front middle rest : List Char}
    (h : s.toList = front ++ (middle ++ rest)) :
    slice? s (sizeOf front) (sizeOf front + sizeOf middle) = some (String.ofList middle) := by
  rw [slice?, if_pos (Nat.le_add_right _ _), h, dropBytes?_append, Option.bind_some,
    Nat.add_sub_cancel_left, takeBytes?_append, Option.map_some]

theorem isBoundary_iff {s : String} {n : Nat} :
    IsBoundary s n ↔ ∃ front, front <+: s.toList ∧ sizeOf front = n := by
  rw [IsBoundary, Option.isSome_iff_exists]
  constructor
  · rintro ⟨t, ht⟩
    obtain ⟨hbegins, hsize⟩ := before?_eq_some_iff.1 ht
    exact ⟨t.toList, hbegins, by rw [sizeOf_toList, hsize]⟩
  · rintro ⟨front, ⟨rest, hrest⟩, rfl⟩
    exact ⟨_, before?_append hrest.symm⟩

/-- Of two beginnings of a text, the one with fewer bytes is a beginning of the other. -/
theorem prefix_of_sizeOf_le {ds es cs : List Char} (hds : ds <+: cs) (hes : es <+: cs)
    (hle : sizeOf ds ≤ sizeOf es) : ds <+: es := by
  obtain h | ⟨rest, rfl⟩ := List.prefix_or_prefix_of_prefix hds hes
  · exact h
  · rw [sizeOf_append] at hle
    cases rest with
    | nil => exact ⟨[], by rw [List.append_nil, List.append_nil]⟩
    | cons c rest =>
      have := c.utf8Size_pos
      rw [sizeOf_cons] at hle
      omega

theorem isBoundary_zero (s : String) : IsBoundary s 0 := isBoundary_iff.2 ⟨[], List.nil_prefix, rfl⟩

theorem isBoundary_utf8ByteSize (s : String) : IsBoundary s s.utf8ByteSize :=
  isBoundary_iff.2 ⟨s.toList, List.prefix_rfl, sizeOf_toList s⟩

theorem IsBoundary.le {s : String} {n : Nat} (h : IsBoundary s n) : n ≤ s.utf8ByteSize := by
  obtain ⟨front, ⟨rest, hrest⟩, rfl⟩ := isBoundary_iff.1 h
  rw [← sizeOf_toList, ← hrest, sizeOf_append]
  exact Nat.le_add_right _ _

theorem before?_self (s : String) : before? s s.utf8ByteSize = some s :=
  before?_eq_some_iff.2 ⟨List.prefix_rfl, rfl⟩

/-- What is cut off what is cut off a text might have been cut off the text. -/
theorem before?_trans {s t u : String} {m n : Nat} (h : before? s m = some t)
    (h' : before? t n = some u) : before? s n = some u := by
  obtain ⟨ht, -⟩ := before?_eq_some_iff.1 h
  obtain ⟨hu, hsize⟩ := before?_eq_some_iff.1 h'
  exact before?_eq_some_iff.2 ⟨hu.trans ht, hsize⟩

/-- **What is cut off a text has its boundaries**, up to its end. -/
theorem IsBoundary.of_before? {s t : String} {m n : Nat} (hm : IsBoundary s m)
    (h : before? s n = some t) (hle : m ≤ n) : IsBoundary t m := by
  obtain ⟨front, hfront, rfl⟩ := isBoundary_iff.1 hm
  obtain ⟨ht, rfl⟩ := before?_eq_some_iff.1 h
  rw [← sizeOf_toList] at hle
  exact isBoundary_iff.2 ⟨front, prefix_of_sizeOf_le hfront ht hle, rfl⟩

/-- **Between two boundaries in order lies a stretch** that can be cut out. -/
theorem IsBoundary.isSome_slice? {s : String} {start stop : Nat} (hstart : IsBoundary s start)
    (hstop : IsBoundary s stop) (hle : start ≤ stop) : (slice? s start stop).isSome = true := by
  obtain ⟨front, hfront, rfl⟩ := isBoundary_iff.1 hstart
  obtain ⟨longer, hlonger, rfl⟩ := isBoundary_iff.1 hstop
  obtain ⟨middle, rfl⟩ := prefix_of_sizeOf_le hfront hlonger hle
  obtain ⟨rest, hrest⟩ := hlonger
  rw [List.append_assoc] at hrest
  rw [sizeOf_append, slice?_append hrest.symm]
  rfl

/-- A line is what it is with its end, cut one byte before the end. -/
theorem before?_append_lineEnd (line : String) :
    before? (line ++ "\n") ((line ++ "\n").utf8ByteSize - 1) = some line := by
  rw [utf8ByteSize_append_lineEnd, Nat.add_sub_cancel]
  exact before?_eq_some_iff.2 ⟨by rw [String.toList_append]; exact List.prefix_append _ _, rfl⟩

/-! ## Replacing stretches -/

variable {α π : Type}

/-- **Replaces stretches of a text**, given in order with what they refer to: what stands before
each is cut out from where the last one ended, and so is what stands in its place. -/
def replace? (s : String) (value : α → String → String) : (done : Nat) → List (Span × α) →
    Option String
  | done, [] => slice? s done s.utf8ByteSize
  | done, (span, a) :: rest => do
    let before ← slice? s done span.start
    let written ← slice? s span.start span.stop
    let after ← replace? s value span.stop rest
    return before ++ value a written ++ after

/-- **The stretches of references** among pieces that begin at a position, given what writes each
piece, and what it refers to if it is a reference. -/
def referenceSpans (written : π → List Char) (reference? : π → Option α) : (position : Nat) →
    List π → List (Span × α)
  | _, [] => []
  | position, p :: rest =>
    let stop := position + sizeOf (written p)
    let later := referenceSpans written reference? stop rest
    (reference? p).elim later (fun a => (⟨position, stop⟩, a) :: later)

/-- **Replacing the stretches of references** among the pieces of a text is replacing the pieces.
What stands before them was cut out up to some position; the characters from there on are still to
be. -/
theorem replace?_referenceSpans {s : String} {value : α → String → String}
    {written : π → List Char} {reference? : π → Option α} {ps : List π}
    {front pending : List Char} (h : s.toList = front ++ (pending ++ ps.flatMap written)) :
    replace? s value (sizeOf front)
      (referenceSpans written reference? (sizeOf front + sizeOf pending) ps) =
    some (String.ofList (pending ++ ps.flatMap (fun p => (reference? p).elim (written p)
      (fun a => (value a (String.ofList (written p))).toList)))) := by
  induction ps generalizing front pending with
  | nil =>
    rw [List.flatMap_nil] at h
    rw [referenceSpans, replace?, ← sizeOf_toList, h, List.append_nil, sizeOf_append,
      slice?_append h, List.flatMap_nil, List.append_nil]
  | cons p rest ih =>
    rw [List.flatMap_cons] at h
    rw [referenceSpans, List.flatMap_cons]
    cases hp : reference? p with
    | none =>
      -- the piece is cut out together with what follows
      rw [Option.elim_none, Option.elim_none, Nat.add_assoc, ← sizeOf_append,
        ih (by rw [h, List.append_assoc]), List.append_assoc]
    | some a =>
      have hbefore : slice? s (sizeOf front) (sizeOf front + sizeOf pending) =
          some (String.ofList pending) := slice?_append h
      have hfront : s.toList =
          (front ++ pending) ++ (written p ++ rest.flatMap written) := by
        rw [h, List.append_assoc]
      have hwritten : slice? s (sizeOf front + sizeOf pending)
          (sizeOf front + sizeOf pending + sizeOf (written p)) =
          some (String.ofList (written p)) := by
        rw [← sizeOf_append]
        exact slice?_append hfront
      have hrest : s.toList =
          (front ++ pending ++ written p) ++ ([] ++ rest.flatMap written) := by
        rw [hfront, List.nil_append, List.append_assoc (front ++ pending)]
      have hlater := ih hrest
      rw [sizeOf_append, sizeOf_append, sizeOf_nil, Nat.add_zero, List.nil_append] at hlater
      rw [Option.elim_some, Option.elim_some, replace?]
      dsimp only
      rw [hbefore, hwritten, hlater]
      simp [String.ofList_append, String.append_assoc]

end Text

namespace Grammar

/-! ## Scope names -/

namespace NamePiece

/-- What writes a piece. -/
def written : NamePiece → List Char
  | char c => [c]
  | group written _ => written

/-- What a piece refers to. -/
def reference? : NamePiece → Option GroupReference
  | char _ => none
  | group _ r => some r

/-- The pieces of a name write it. -/
theorem flatMap_written_ofText (cs : List Char) : (ofText cs).flatMap written = cs := by
  fun_induction ofText cs with
  | case1 => rfl
  | case2 cs r n _ ih =>
    rw [List.flatMap_cons, ih]
    exact congrArg _ (List.take_append_drop n cs)
  | case3 _ _ ih => rw [List.flatMap_cons, ih]; rfl
  | case4 _ _ _ ih => rw [List.flatMap_cons, ih]; rfl

end NamePiece

/-- **The name put together by positions**: the text of each reference or, if there is none, what
writes it. -/
def ScopeTemplate.assemble? (text line : String) (captures : Captures) : Option String :=
  Text.replace? text (fun r written => (r.text? line captures).getD written) 0
    (Text.referenceSpans NamePiece.written NamePiece.reference? 0 (NamePiece.ofText text.toList))

/-- **All cuts of a name succeed**, and yield the name. -/
theorem ScopeTemplate.assemble?_eq (text line : String) (captures : Captures) :
    assemble? text line captures = some (substitute text line captures) := by
  have hwritten : text.toList = [] ++ ([] ++ (NamePiece.ofText text.toList).flatMap
      NamePiece.written) := (NamePiece.flatMap_written_ofText text.toList).symm
  refine (Text.replace?_referenceSpans hwritten).trans ?_
  refine congrArg (fun cs => some (String.ofList cs)) (congrArg (List.flatMap · _) (funext ?_))
  intro p
  cases p with
  | char c => rfl
  | group written r =>
    cases hr : r.text? line captures <;> simp [NamePiece.resolve, NamePiece.reference?,
      NamePiece.written, hr]

/-! ## Patterns -/

namespace PatternText.Piece

/-- What writes a piece. -/
def written : Piece → List Char
  | char c => [c]
  | group digits => '\\' :: digits

/-- The digits of a reference. -/
def reference? : Piece → Option (List Char)
  | char _ => none
  | group digits => some digits

/-- The pieces of a pattern write it. -/
theorem flatMap_written_pieces (cs : List Char) : (pieces cs).flatMap written = cs := by
  fun_induction pieces cs with
  | case1 => rfl
  | case2 c cs digits h ih =>
    rw [List.flatMap_cons, ih, h.1]
    exact congrArg _ List.takeWhile_append_dropWhile
  | case3 _ _ _ _ ih => rw [List.flatMap_cons, ih]; rfl

end PatternText.Piece

open PatternText in
/-- **The pattern put together by positions**: the text of each reference, escaped. -/
def Pattern.assemble? (p : Pattern) (line : String) (captures : Captures) : Option String :=
  Text.replace? p.text
    (fun digits _ => String.ofList ((Piece.group digits).resolve line captures)) 0
    (Text.referenceSpans Piece.written Piece.reference? 0 (pieces p.text.toList))

/-- **All cuts of a pattern succeed**, and yield the pattern with its references resolved. -/
theorem Pattern.assemble?_eq (p : Pattern) (line : String) (captures : Captures) :
    p.assemble? line captures = some (p.resolve line captures) := by
  have hwritten : p.text.toList = [] ++ ([] ++ (PatternText.pieces p.text.toList).flatMap
      PatternText.Piece.written) := (PatternText.Piece.flatMap_written_pieces p.text.toList).symm
  refine (Text.replace?_referenceSpans hwritten).trans ?_
  refine congrArg (fun cs => some (String.ofList cs)) (congrArg (List.flatMap · _) (funext ?_))
  intro piece
  cases piece with
  | char c => rfl
  | group digits => exact String.toList_ofList

end Grammar

end Highlight
