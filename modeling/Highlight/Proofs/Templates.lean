import Highlight.Proofs.Boundaries
import Mathlib.Data.List.Basic
import Mathlib.Data.List.TakeWhile

/-!
# Names are filled in one pass

The references of a name are found from the left, each as long as its digits go on, and what is
put in their place is not looked at again: a text of a group may look like a reference, and then
it stays. What lies between the references stays as well, whatever dollar signs and braces it has.

Here this is said without cutting the name into pieces. A reference is known by how it is written,
and the number of its group by its digits; the digits of other scripts and numbers beyond a machine
word name no group, so a reference with them stays as it is written. Filling a name is a relation
between two texts that goes through both at once, and which the pieces compute.

A name in which no reference was seen when it was read is not gone through at all. That it would
come out as it is follows, since all of its pieces are characters.
-/

namespace Highlight.Grammar

/-! ## How references are written -/

namespace CaseChange

/-- What a change of case is written as, at the end of a reference. -/
def ending : CaseChange → List Char
  | up => ":/upcase\x7d".toList
  | down => ":/downcase\x7d".toList

theorem read?_eq_some_iff {cs : List Char} {change : CaseChange} {n : Nat} :
    read? cs = some (change, n) ↔ change.ending <+: cs ∧ n = change.ending.length := by
  have hdown : ∀ rest, read? (ending down ++ rest) = some (down, (ending down).length) :=
    fun rest => rfl
  have hup : ∀ rest, read? (ending up ++ rest) = some (up, (ending up).length) :=
    fun rest => rfl
  constructor
  · intro h
    obtain ⟨e, hfind, heq⟩ := Option.map_eq_some_iff.1 h
    have hprefix := List.find?_some hfind
    have hmem := List.mem_of_find?_eq_some hfind
    simp only [endings, List.mem_cons, List.not_mem_nil, or_false] at hmem
    obtain ⟨rfl, rfl⟩ := Prod.mk.inj heq
    obtain rfl | rfl := hmem <;> exact ⟨List.isPrefixOf_iff_prefix.1 hprefix, rfl⟩
  · rintro ⟨⟨rest, rfl⟩, rfl⟩
    cases change with
    | up => exact hup rest
    | down => exact hdown rest

end CaseChange

namespace GroupReference

/-- **The text of a reference.** -/
def written (r : GroupReference) : List Char :=
  match r.change with
  | none => '$' :: r.digits
  | some change => '$' :: '\x7b' :: (r.digits ++ change.ending)

/-- **A text begins with a reference**, and goes on with a rest. -/
structure Begins (r : GroupReference) (cs rest : List Char) : Prop where
  /-- The reference is written at the front of the text. -/
  text : cs = r.written ++ rest
  /-- It has digits. -/
  digits : r.digits ≠ []
  /-- They are decimal digits, of whatever script. -/
  decimal : ∀ c ∈ r.digits, Unicode.isDecimal c = true
  /-- Where nothing ends them, they are all the digits that there are. -/
  maximal : r.change = none → ∀ c ∈ rest.head?, Unicode.isDecimal c = false

/-- **The group that a reference names**: the number that its digits write, if they are ASCII
digits and the number fits a machine word. -/
structure Names (r : GroupReference) (group : Nat) : Prop where
  /-- The digits are ASCII digits. -/
  ascii : ∀ c ∈ r.digits, c.isDigit = true
  /-- They write the number. -/
  number : Nat.ofDigitChars 10 r.digits 0 = group
  /-- It fits. -/
  lt : group < Text.indexLimit

/-- The text of a group as a reference shows it: without the dots at its front, and with the case
changed. -/
def shown (r : GroupReference) (text : String) : List Char :=
  let bare := String.ofList (text.toList.dropWhile (· == '.'))
  match r.change with
  | none => bare.toList
  | some .up => (Unicode.upper bare).toList
  | some .down => (Unicode.lower bare).toList

/-- **What stands for a reference** after a match in a line. -/
inductive StandsFor (line : String) (captures : Captures) (r : GroupReference) :
    List Char → Prop
  /-- The text of the group. -/
  | text {group : Nat} {span : Span} {text : String} (hnames : r.Names group)
    (hgroup : captures[group]? = some (some span))
    (htext : Text.slice? line span.start span.stop = some text) :
    StandsFor line captures r (r.shown text)
  /-- Nothing, if the group took no part. -/
  | absent {group : Nat} (hnames : r.Names group) (hgroup : captures[group]? = some none) :
    StandsFor line captures r []
  /-- Nothing, if its stretch is none of the line. -/
  | outside {group : Nat} {span : Span} (hnames : r.Names group)
    (hgroup : captures[group]? = some (some span))
    (htext : Text.slice? line span.start span.stop = none) : StandsFor line captures r []
  /-- The reference itself, if there is no such group. -/
  | missing (h : ∀ group, r.Names group → captures[group]? = none) :
    StandsFor line captures r r.written

end GroupReference

namespace ScopeTemplate

/-- **A name is filled in one pass**: where a reference begins, what stands for it is put in its
place, and the pass goes on behind it; every other character is kept. -/
inductive Fills (line : String) (captures : Captures) : List Char → List Char → Prop
  /-- The end of the name. -/
  | nil : Fills line captures [] []
  /-- A reference begins. -/
  | reference {r : GroupReference} {cs rest shown out : List Char} (hbegins : r.Begins cs rest)
    (hshown : r.StandsFor line captures shown) (hrest : Fills line captures rest out) :
    Fills line captures cs (shown ++ out)
  /-- No reference begins. -/
  | char {c : Char} {cs out : List Char}
    (hnone : ∀ (r : GroupReference) (rest : List Char), ¬ r.Begins (c :: cs) rest)
    (hrest : Fills line captures cs out) : Fills line captures (c :: cs) (c :: out)

end ScopeTemplate

/-! ## Reading references -/

/-- A text is some digits and a rest that does not begin with one. -/
theorem exists_digits (cs : List Char) : ∃ digits tail, cs = digits ++ tail ∧
    (∀ c ∈ digits, Unicode.isDecimal c = true) ∧
    ∀ c ∈ tail.head?, Unicode.isDecimal c = false := by
  refine ⟨_, _, (List.takeWhile_append_dropWhile (p := Unicode.isDecimal)).symm,
    fun _ hc => List.mem_takeWhile_imp hc, fun c hc => ?_⟩
  have hhead := List.head?_dropWhile_not Unicode.isDecimal cs
  rw [Option.mem_def.1 hc] at hhead
  exact hhead

section Digits

variable {digits tail : List Char}

/-- The digits of such a text are read off. -/
theorem span_digits (hdigits : ∀ c ∈ digits, Unicode.isDecimal c = true)
    (htail : ∀ c ∈ tail.head?, Unicode.isDecimal c = false) :
    (digits ++ tail).takeWhile Unicode.isDecimal = digits ∧
      (digits ++ tail).dropWhile Unicode.isDecimal = tail := by
  rw [List.takeWhile_append_of_pos hdigits, List.dropWhile_append_of_pos hdigits]
  cases tail with
  | nil => exact ⟨List.append_nil _, rfl⟩
  | cons c tail =>
    have hc : ¬ Unicode.isDecimal c = true := Bool.eq_false_iff.1 (htail c rfl)
    rw [List.takeWhile_cons_of_neg hc, List.dropWhile_cons_of_neg hc]
    exact ⟨List.append_nil _, rfl⟩

theorem GroupReference.read?_digits (hne : digits ≠ [])
    (hdigits : ∀ c ∈ digits, Unicode.isDecimal c = true)
    (htail : ∀ c ∈ tail.head?, Unicode.isDecimal c = false) :
    GroupReference.read? (digits ++ tail) = some (⟨digits, none⟩, digits.length) := by
  unfold GroupReference.read?
  rw [(span_digits hdigits htail).1]
  exact if_pos hne

theorem GroupReference.read?_brace (hdigits : ∀ c ∈ digits, Unicode.isDecimal c = true)
    (htail : ∀ c ∈ tail.head?, Unicode.isDecimal c = false) :
    GroupReference.read? ('{' :: (digits ++ tail)) =
      if digits = [] then none
      else (CaseChange.read? tail).map
        (fun (change, n) => (⟨digits, some change⟩, 1 + digits.length + n)) := by
  have hbrace : ('{' :: (digits ++ tail)).takeWhile Unicode.isDecimal = [] :=
    List.takeWhile_cons_of_neg (by decide)
  simp only [GroupReference.read?, hbrace, (span_digits hdigits htail).1,
    (span_digits hdigits htail).2, ne_eq, not_true_eq_false, if_false]

end Digits

namespace GroupReference

variable {cs rest : List Char} {r : GroupReference} {n : Nat}

/-- What stands in braces is as long as it is written. -/
theorem length_braced (digits : List Char) (change : CaseChange) :
    ('{' :: (digits ++ change.ending)).length = 1 + digits.length + change.ending.length := by
  rw [List.length_cons, List.length_append]
  omega

theorem braced_append (digits rest : List Char) (change : CaseChange) :
    '{' :: (digits ++ (change.ending ++ rest)) =
      '{' :: (digits ++ change.ending) ++ rest := by
  rw [List.cons_append, List.append_assoc]

/-- **What is read as a reference is one.** -/
theorem begins_of_read? (h : read? cs = some (r, n)) :
    r.Begins ('$' :: cs) (cs.drop n) ∧ '$' :: cs.take n = r.written := by
  obtain ⟨digits, tail, rfl, hdigits, htail⟩ := exists_digits cs
  by_cases hne : digits = []
  · subst hne
    unfold read? at h
    rw [(span_digits hdigits htail).1] at h
    dsimp only at h
    rw [if_neg (not_not_intro rfl), List.nil_append] at h
    split at h
    · -- the digits in braces
      next cs =>
      obtain ⟨digits, tail, rfl, hdigits, htail⟩ := exists_digits cs
      rw [(span_digits hdigits htail).1, (span_digits hdigits htail).2,
        Option.ite_none_left_eq_some] at h
      obtain ⟨hne, h⟩ := h
      obtain ⟨⟨change, m⟩, hchange, heq⟩ := Option.map_eq_some_iff.1 h
      obtain ⟨⟨rest, rfl⟩, rfl⟩ := CaseChange.read?_eq_some_iff.1 hchange
      obtain ⟨rfl, rfl⟩ := Prod.mk.inj heq
      rw [List.nil_append, braced_append, List.drop_left' (length_braced digits change),
        List.take_left' (length_braced digits change)]
      exact ⟨⟨rfl, hne, hdigits, fun hnone => nomatch hnone⟩, rfl⟩
    · cases h
  · rw [read?_digits hne hdigits htail] at h
    obtain ⟨rfl, rfl⟩ := Prod.mk.inj (Option.some.inj h)
    rw [List.drop_left, List.take_left]
    exact ⟨⟨rfl, hne, hdigits, fun _ => htail⟩, rfl⟩

/-- **Where a reference begins it is read.** -/
theorem Begins.read? (h : r.Begins ('$' :: cs) rest) :
    ∃ n, GroupReference.read? cs = some (r, n) ∧ cs.drop n = rest := by
  obtain ⟨digits, change⟩ := r
  obtain ⟨htext, hne, hdecimal, hmaximal⟩ := h
  cases change with
  | none =>
    obtain rfl : cs = digits ++ rest := (List.cons.inj htext).2
    exact ⟨_, read?_digits hne hdecimal (hmaximal rfl), List.drop_left⟩
  | some change =>
    obtain rfl : cs = '{' :: (digits ++ change.ending) ++ rest := (List.cons.inj htext).2
    have hcolon : ∀ c ∈ (change.ending ++ rest).head?, Unicode.isDecimal c = false := by
      cases change <;> exact fun c hc => Option.some.inj hc ▸ by decide
    have hchange : CaseChange.read? (change.ending ++ rest) = some (change, change.ending.length) :=
      CaseChange.read?_eq_some_iff.2 ⟨List.prefix_append _ _, rfl⟩
    refine ⟨1 + digits.length + change.ending.length, ?_,
      List.drop_left' (length_braced digits change)⟩
    rw [← braced_append, read?_brace hdecimal hcolon, if_neg hne, hchange]
    rfl

end GroupReference

/-! ## What stands for a reference -/

namespace GroupReference

variable {r : GroupReference} {cs rest : List Char}

/-- A plus sign is no digit, so none is skipped when the number of a reference is read. -/
theorem index?_digits (hdecimal : ∀ c ∈ r.digits, Unicode.isDecimal c = true) :
    Text.index? r.digits = (Text.decimal? r.digits).filter (· < Text.indexLimit) := by
  unfold Text.index?
  split
  · next tail hdigits =>
    have hplus := hdecimal '+' (hdigits ▸ List.mem_cons_self)
    exact absurd hplus (by decide)
  · rfl

/-- **The number that is read from the digits of a reference** is that of the group it names. -/
theorem Begins.names_iff (h : r.Begins cs rest) {group : Nat} :
    r.Names group ↔ Text.index? r.digits = some group := by
  have hempty : (!r.digits.isEmpty) = true := by simpa using h.digits
  rw [index?_digits h.decimal, Option.filter_eq_some_iff, Text.decimal?, hempty, Bool.true_and,
    Option.ite_none_right_eq_some, List.all_eq_true, Option.some.injEq, decide_eq_true_iff,
    ← Nat.ofDigitChars_eq_foldl]
  exact ⟨fun h => ⟨⟨h.ascii, h.number⟩, h.lt⟩, fun h => ⟨h.1.1, h.1.2, h.2⟩⟩

theorem shown_eq (r : GroupReference) (text : String) :
    r.shown text = (r.change.elim (String.ofList (text.toList.dropWhile (· == '.')))
      (·.apply (String.ofList (text.toList.dropWhile (· == '.'))))).toList := by
  obtain ⟨digits, change⟩ := r
  cases change with
  | none => rfl
  | some change => cases change <;> rfl

/-- The empty text is shown as nothing. -/
theorem shown_empty (r : GroupReference) : r.shown "" = [] := by
  obtain ⟨digits, change⟩ := r
  cases change with
  | none => rfl
  | some change => cases change <;> rfl

section Resolve

variable {line : String} {captures : Captures} {group : Nat}

theorem resolve_group (r : GroupReference) (line : String) (captures : Captures) :
    (NamePiece.group r.written r).resolve line captures =
      (((Text.index? r.digits).bind (captures.text? line)).map r.shown).getD r.written := by
  simp only [NamePiece.resolve, text?, Option.map_map, Function.comp_def, ← shown_eq]

/-- A reference to a group that there is resolves to its text. -/
theorem Begins.resolve_of_names (h : r.Begins cs rest) (hnames : r.Names group)
    {span : Option Span} (hgroup : captures[group]? = some span) :
    (NamePiece.group r.written r).resolve line captures =
      r.shown ((span.bind (fun s => Text.slice? line s.start s.stop)).getD "") := by
  rw [resolve_group, h.names_iff.1 hnames, Option.bind_some, Captures.text?, hgroup]
  rfl

/-- A reference to no group resolves to itself. -/
theorem Begins.resolve_of_missing (h : r.Begins cs rest)
    (hmissing : ∀ group, r.Names group → captures[group]? = none) :
    (NamePiece.group r.written r).resolve line captures = r.written := by
  have hnone : (Text.index? r.digits).bind (captures.text? line) = none :=
    Option.bind_eq_none_iff.2 fun group hgroup => by
      rw [Captures.text?, hmissing group (h.names_iff.2 hgroup)]
      rfl
  rw [resolve_group, hnone]
  rfl

/-- **What stands for a reference is what it resolves to.** -/
theorem Begins.standsFor_iff (h : r.Begins cs rest) {value : List Char} :
    r.StandsFor line captures value ↔
      value = (NamePiece.group r.written r).resolve line captures := by
  constructor
  · rintro (⟨hnames, hgroup, htext⟩ | ⟨hnames, hgroup⟩ | ⟨hnames, hgroup, htext⟩ | hmissing)
    · rw [h.resolve_of_names hnames hgroup, Option.bind_some, htext]
      rfl
    · rw [h.resolve_of_names hnames hgroup]
      exact (shown_empty r).symm
    · rw [h.resolve_of_names hnames hgroup, Option.bind_some, htext]
      exact (shown_empty r).symm
    · exact (h.resolve_of_missing hmissing).symm
  · rintro rfl
    by_cases hexists : ∃ group span, r.Names group ∧ captures[group]? = some span
    · obtain ⟨group, span, hnames, hgroup⟩ := hexists
      rw [h.resolve_of_names hnames hgroup]
      cases span with
      | none => exact (shown_empty r).symm ▸ .absent hnames hgroup
      | some span =>
        rw [Option.bind_some]
        cases htext : Text.slice? line span.start span.stop with
        | none => exact (shown_empty r).symm ▸ .outside hnames hgroup htext
        | some text => exact .text hnames hgroup htext
    · have hmissing : ∀ group, r.Names group → captures[group]? = none := fun group hnames =>
        Option.eq_none_iff_forall_ne_some.2 fun span hgroup =>
          hexists ⟨group, span, hnames, hgroup⟩
      rw [h.resolve_of_missing hmissing]
      exact .missing hmissing

end Resolve

/-- A reference begins with a dollar sign. -/
theorem written_eq_cons (r : GroupReference) : ∃ tail, r.written = '$' :: tail := by
  obtain ⟨digits, change⟩ := r
  cases change <;> exact ⟨_, rfl⟩

end GroupReference

/-! ## The pieces of a name -/

namespace NamePiece

variable {cs : List Char}

/-- Where a reference begins, the next piece is that reference, and the pieces behind it are those
of the rest. -/
theorem ofText_of_begins {r : GroupReference} {rest : List Char} (h : r.Begins cs rest) :
    ofText cs = group r.written r :: ofText rest := by
  obtain ⟨tail, htail⟩ := r.written_eq_cons
  obtain ⟨cs, rfl⟩ : ∃ cs', cs = '$' :: cs' := ⟨tail ++ rest, by rw [h.text, htail]; rfl⟩
  obtain ⟨n, hread, rfl⟩ := h.read?
  rw [ofText, if_pos rfl, hread]
  dsimp only
  rw [(GroupReference.begins_of_read? hread).2]

/-- Where none begins, the next piece is a character. -/
theorem ofText_of_not_begins {c : Char}
    (h : ∀ (r : GroupReference) (rest : List Char), ¬ r.Begins (c :: cs) rest) :
    ofText (c :: cs) = char c :: ofText cs := by
  rw [ofText]
  split
  · next hc =>
    subst hc
    split
    · next r n hread => exact absurd (GroupReference.begins_of_read? hread).1 (h r _)
    · rfl
  · rfl

/-- Characters are what writes them, after whatever match, so a name without references is too. -/
theorem flatMap_resolve_of_not_any (h : (ofText cs).any isGroup = false) (line : String)
    (captures : Captures) : (ofText cs).flatMap (·.resolve line captures) = cs := by
  have hwritten : ∀ p ∈ ofText cs, p.resolve line captures = p.written := by
    intro p hp
    cases p with
    | char c => rfl
    | group written r =>
      have hany : (ofText cs).any isGroup = true := List.any_eq_true.2 ⟨_, hp, rfl⟩
      exact absurd (hany.symm.trans h) (by decide)
  calc (ofText cs).flatMap (·.resolve line captures)
      = (ofText cs).flatMap written := List.flatMap_congr hwritten
    _ = cs := flatMap_written_ofText cs

end NamePiece

namespace ScopeTemplate

variable {line : String} {captures : Captures}

/-- **The pieces of a name fill it.** -/
theorem fills_flatMap (cs : List Char) (line : String) (captures : Captures) :
    Fills line captures cs ((NamePiece.ofText cs).flatMap (·.resolve line captures)) := by
  induction cs using NamePiece.ofText.induct with
  | case1 =>
    rw [NamePiece.ofText]
    exact .nil
  | case2 cs r n hread ih =>
    have hbegins := (GroupReference.begins_of_read? hread).1
    rw [NamePiece.ofText_of_begins hbegins, List.flatMap_cons]
    exact .reference hbegins (hbegins.standsFor_iff.2 rfl) ih
  | case3 cs hread ih =>
    have hnone (r : GroupReference) (rest : List Char) : ¬ r.Begins ('$' :: cs) rest := by
      intro hbegins
      obtain ⟨n, hsome, -⟩ := hbegins.read?
      exact absurd (hread.symm.trans hsome) (by simp)
    rw [NamePiece.ofText_of_not_begins hnone, List.flatMap_cons]
    exact .char hnone ih
  | case4 c cs hc ih =>
    have hnone (r : GroupReference) (rest : List Char) : ¬ r.Begins (c :: cs) rest := by
      intro hbegins
      obtain ⟨tail, htail⟩ := r.written_eq_cons
      have htext := hbegins.text
      rw [htail, List.cons_append] at htext
      exact hc (List.cons.inj htext).1
    rw [NamePiece.ofText_of_not_begins hnone, List.flatMap_cons]
    exact .char hnone ih

/-- **A name is filled in one way only**, as its pieces fill it. -/
theorem Fills.eq_flatMap {cs out : List Char} (h : Fills line captures cs out) :
    out = (NamePiece.ofText cs).flatMap (·.resolve line captures) := by
  induction h with
  | nil => rw [NamePiece.ofText]; rfl
  | reference hbegins hshown _ ih =>
    rw [NamePiece.ofText_of_begins hbegins, List.flatMap_cons, ← ih,
      hbegins.standsFor_iff.1 hshown]
  | char hnone _ ih =>
    rw [NamePiece.ofText_of_not_begins hnone, List.flatMap_cons, ← ih]
    rfl

/-- A name in which no reference was seen resolves as if it were gone through. -/
theorem resolve_ofText_eq_substitute (text line : String) (captures : Captures) :
    (ofText text).resolve line captures = substitute text line captures := by
  unfold resolve
  split
  · rfl
  · next hrefers =>
    have hnone : (NamePiece.ofText text.toList).any (·.isGroup) = false :=
      Bool.eq_false_iff.2 hrefers
    rw [substitute, NamePiece.flatMap_resolve_of_not_any hnone]
    exact String.ofList_toList.symm

/-- **Names are filled in one pass.** What comes of a name, a line and the groups of a match is the
one text that they fill it with, reference by reference from the left; and whether references were
looked for when the name was read makes no difference to it. -/
theorem resolve_ofText_onePass (text line : String) (captures : Captures) :
    (ofText text).resolve line captures = substitute text line captures ∧
      ∀ out : String, substitute text line captures = out ↔
        Fills line captures text.toList out.toList := by
  refine ⟨resolve_ofText_eq_substitute text line captures, fun out => ?_⟩
  constructor
  · rintro rfl
    rw [substitute, String.toList_ofList]
    exact fills_flatMap text.toList line captures
  · intro h
    rw [substitute, ← h.eq_flatMap]
    exact String.ofList_toList

/-- The text of a group is not filled again, and numbers without a group are kept. -/
example : (ofText "a.$1.${1:/upcase}$9").resolve ".$1b" [some ⟨0, 4⟩, some ⟨0, 4⟩] =
    "a.$1b.$1B$9" := by
  decide +kernel

end ScopeTemplate

end Highlight.Grammar
