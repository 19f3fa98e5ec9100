import Highlight.Line.Segments

/-!
# What overrides do to attributes

Overrides are configured as texts. Each text has parts, and a part selects a path or does not; what
the overrides do to the attributes of a path is told by this alone. The kind of token is that of
the last part that selects the path. The flag for balanced brackets is set where the selectors for
brackets are configured, nothing selects the path as one without, and something selects it as one
with them, `*` always doing so.

The attributes are found in other ways. The names of the scopes are put together only if they are
needed, which they are not when selectors for brackets hold for every path, or for none, and no
kind is forced; and where kinds are forced they are asked all the same. So the flag can come from
three sources, and which of them it is depends on selectors that have nothing to do with brackets.
They never differ.
-/

namespace Highlight

namespace Selector

/-- **A selector text selects a path** if one of its parts does. -/
def TextSelects (text : String) (scopes : List String) : Prop :=
  ∃ part ∈ parse text, part.matcher.selects scopes = true

/-- **A kind is forced on a path** by the last of some texts that selects it. -/
def Forces (texts : List (String × TokenKind)) (scopes : List String) (kind : TokenKind) : Prop :=
  ∃ before text after, texts = before ++ (text, kind) :: after ∧ TextSelects text scopes ∧
    ∀ later ∈ after, ¬ TextSelects later.1 scopes

/-- **A path is balanced** by the texts for brackets that are to be balanced, and for those that
are not. -/
def Balances (balanced unbalanced : List String) (scopes : List String) : Prop :=
  (∀ text ∈ unbalanced, ¬ TextSelects text scopes) ∧
    ("*" ∈ balanced ∨ ∃ text ∈ balanced, TextSelects text scopes)

namespace Brackets

variable {b : Brackets} {scopes : List String}

theorem any_matchers {texts : List String} :
    (matchers texts).any (·.selects scopes) = true ↔ ∃ text ∈ texts, TextSelects text scopes := by
  simp only [matchers, List.any_flatMap, List.any_map, List.any_eq_true, TextSelects]
  rfl

/-- **Selectors for brackets select what their texts say.** That `*` is not read as a selector makes
no difference, since it stands for every path anyway. -/
theorem selects_ofTexts {balanced unbalanced : List String} :
    (ofTexts balanced unbalanced).selects scopes = true ↔
      Balances balanced unbalanced scopes := by
  simp only [selects, ofTexts, Bool.and_eq_true, Bool.not_eq_true', Bool.or_eq_true, Balances]
  rw [Bool.eq_false_iff, Ne, any_matchers, any_matchers, List.contains_iff_mem]
  refine and_congr (by simp only [not_exists, not_and]) ?_
  by_cases hany : "*" ∈ balanced
  · simp only [hany, or_true, true_or]
  · have hnone : balanced.filter (· ≠ "*") = balanced := List.filter_eq_self.2 (fun text htext =>
      decide_eq_true (fun heq => hany (heq ▸ htext)))
    rw [hnone, or_comm]

/-- Where every path has balanced brackets, asking for one says so. -/
theorem selects_of_always (h : b.always = true) : b.selects scopes = true := by
  obtain ⟨hotherwise, hunbalanced⟩ := Bool.and_eq_true_iff.1 h
  rw [selects, List.isEmpty_iff.1 hunbalanced, hotherwise, Bool.or_true]
  rfl

/-- Where no path has, asking for one says so. -/
theorem selects_of_never (h : b.never = true) : b.selects scopes = false := by
  simp only [never, Bool.and_eq_true, Bool.not_eq_true', List.isEmpty_iff] at h
  rw [selects, h.1, h.2, Bool.or_false]
  exact Bool.and_false _

/-- The two cannot hold at once. -/
theorem always_of_never (h : b.never = true) : b.always = false := by
  simp only [never, Bool.and_eq_true, Bool.not_eq_true'] at h
  rw [always, h.2, Bool.false_and]

end Brackets

end Selector

namespace Overrides

open Selector

/-- The overrides that some texts configure. There may be no selectors for brackets. -/
def ofTexts (kinds : List (String × TokenKind)) (brackets : Option (List String × List String)) :
    Overrides where
  kinds := kindsOfTexts kinds
  brackets := brackets.map (fun texts => .ofTexts texts.1 texts.2)

/-- **Whether the names are asked or not, the flag is what the selectors say of the path.** -/
theorem balances_eq (o : Overrides) (scopes : AttributedPath) :
    o.balances scopes = o.brackets.any (·.selects scopes.names) := by
  unfold balances
  cases o.brackets with
  | none => rfl
  | some b =>
    dsimp only [Option.any_some]
    split
    · next hshort =>
      obtain halways | hnever := Bool.or_eq_true_iff.1 (Bool.and_eq_true_iff.1 hshort).2
      · rw [halways, Brackets.selects_of_always halways]
      · rw [Brackets.always_of_never hnever, Brackets.selects_of_never hnever]
    · rfl

/-! ## The kind -/

section Kind

variable {names : List String} {texts : List (String × TokenKind)}

/-- The kind after some matchers that force kinds, one after the other. -/
def kindAfter (names : List String) (kinds : List (Matcher × TokenKind)) (kind : TokenKind) :
    TokenKind :=
  kinds.foldl (fun kind e => if e.1.selects names then e.2 else kind) kind

/-- Forcing kinds changes nothing but the kind. -/
theorem foldl_merge_kind (kinds : List (Matcher × TokenKind)) (a : TokenAttributes) :
    kinds.foldl (fun (a : TokenAttributes) (m, kind) =>
        if m.selects names then a.merge { kind := some kind } else a) a =
      { a with kind := kindAfter names kinds a.kind } := by
  induction kinds generalizing a with
  | nil => rfl
  | cons e kinds ih =>
    have hstep : (if e.1.selects names then a.merge { kind := some e.2 } else a) =
        { a with kind := if e.1.selects names then e.2 else a.kind } := by
      split <;> rfl
    rw [List.foldl_cons]
    dsimp only
    rw [hstep, ih]
    rfl

theorem kindAfter_append (kinds kinds' : List (Matcher × TokenKind)) (kind : TokenKind) :
    kindAfter names (kinds ++ kinds') kind =
      kindAfter names kinds' (kindAfter names kinds kind) :=
  List.foldl_append

/-- The parts of one text force one kind. -/
theorem kindAfter_parts (parts : List Part) (forced kind : TokenKind) :
    kindAfter names (parts.map (fun p => (p.matcher, forced))) kind =
      if parts.any (·.matcher.selects names) then forced else kind := by
  induction parts generalizing kind with
  | nil => rfl
  | cons p parts ih =>
    refine (ih _).trans ?_
    rw [List.any_cons]
    by_cases hp : p.matcher.selects names = true <;> simp [hp]

/-- Texts that do not select the path force nothing. -/
theorem kindAfter_of_none (h : ∀ e ∈ texts, ¬ TextSelects e.1 names) (kind : TokenKind) :
    kindAfter names (kindsOfTexts texts) kind = kind := by
  induction texts with
  | nil => rfl
  | cons e texts ih =>
    obtain ⟨he, htexts⟩ := List.forall_mem_cons.1 h
    have hparts : (parse e.1).any (·.matcher.selects names) = false :=
      Bool.eq_false_iff.2 (fun hany => he (List.any_eq_true.1 hany))
    rw [kindsOfTexts, List.flatMap_cons, kindAfter_append, kindAfter_parts, hparts,
      if_neg Bool.false_ne_true]
    exact ih htexts

/-- **The last text that selects the path** forces its kind. -/
theorem kindAfter_of_forces {forced : TokenKind} (h : Forces texts names forced)
    (kind : TokenKind) : kindAfter names (kindsOfTexts texts) kind = forced := by
  obtain ⟨before, text, after, rfl, hselects, hafter⟩ := h
  rw [kindsOfTexts, List.flatMap_append, List.flatMap_cons, kindAfter_append, kindAfter_append,
    kindAfter_parts, List.any_eq_true.2 hselects, if_pos rfl]
  exact kindAfter_of_none hafter _

/-- There is a last text that selects the path, unless none does. -/
theorem exists_forces_or (texts : List (String × TokenKind)) (names : List String) :
    (∃ kind, Forces texts names kind) ∨ ∀ e ∈ texts, ¬ TextSelects e.1 names := by
  induction texts with
  | nil => exact .inr (List.forall_mem_nil _)
  | cons e texts ih =>
    obtain ⟨kind, before, text, after, rfl, hlast⟩ | hnone := ih
    · exact .inl ⟨kind, e :: before, text, after, rfl, hlast⟩
    · by_cases he : TextSelects e.1 names
      · exact .inl ⟨e.2, [], e.1, texts, rfl, he, hnone⟩
      · exact .inr (List.forall_mem_cons.2 ⟨he, hnone⟩)

end Kind

/-! ## The attributes -/

/-- **What overrides change** is the kind, and the flag, which they never take away. -/
theorem attributes_eq (o : Overrides) (scopes : AttributedPath) :
    o.attributes scopes =
      { scopes.attributes with
        kind := kindAfter scopes.names o.kinds scopes.attributes.kind
        balanced := o.brackets.any (·.selects scopes.names) || scopes.attributes.balanced } := by
  rw [attributes, foldl_merge_kind, balances_eq]
  cases o.brackets.any (·.selects scopes.names) <;> rfl

/-- **Attributes as overrides should leave them**, told by the texts that configure the
overrides. -/
structure Leaves (kinds : List (String × TokenKind))
    (brackets : Option (List String × List String)) (scopes : AttributedPath)
    (a : TokenAttributes) : Prop where
  /-- The kind is the one that is forced, and stays as it was if none is. -/
  kind : Forces kinds scopes.names a.kind ∨
    (∀ e ∈ kinds, ¬ TextSelects e.1 scopes.names) ∧ a.kind = scopes.attributes.kind
  /-- The flag is set by the selectors for brackets, if they are configured. -/
  balanced : a.balanced = true ↔ ∃ balanced unbalanced,
    brackets = some (balanced, unbalanced) ∧ Balances balanced unbalanced scopes.names
  /-- All else stays as it was. -/
  others : a = { scopes.attributes with kind := a.kind, balanced := a.balanced }

/-- **Overrides do what their texts say** to the attributes of every path that does not have the
flag for balanced brackets already. -/
theorem leaves_ofTexts (kinds : List (String × TokenKind))
    (brackets : Option (List String × List String)) {scopes : AttributedPath}
    (h : scopes.attributes.balanced = false) :
    Leaves kinds brackets scopes ((ofTexts kinds brackets).attributes scopes) := by
  rw [attributes_eq, h, Bool.or_false]
  refine ⟨?_, ?_, rfl⟩
  · obtain ⟨kind, hforced⟩ | hnone := exists_forces_or kinds scopes.names
    · exact .inl ((kindAfter_of_forces hforced _).symm ▸ hforced)
    · exact .inr ⟨hnone, kindAfter_of_none hnone _⟩
  · cases brackets with
    | none => simp [ofTexts]
    | some texts =>
      simp only [ofTexts, Option.map_some, Option.any_some, Brackets.selects_ofTexts,
        Option.some.injEq]
      exact ⟨fun hbalances => ⟨texts.1, texts.2, rfl, hbalances⟩,
        fun ⟨_, _, heq, hbalances⟩ => heq ▸ hbalances⟩

/-- A comment in a string, in a text whose attributes say that it is a string. -/
def noteInString : AttributedPath :=
  ((AttributedPath.root "source" .blank).push "string.quoted"
    (.merge .blank { kind := some .string, foreground := 3 })).push "comment"
    (.merge .blank { kind := some .string, foreground := 5 })

theorem leaves_ofTexts_noteInString :
    noteInString.attributes.balanced = false ∧
      Leaves [("string, comment", .other), ("source - comment", .regex)]
        (some (["*"], ["comment string"])) noteInString
        ((ofTexts [("string, comment", .other), ("source - comment", .regex)]
          (some (["*"], ["comment string"]))).attributes noteInString) :=
  ⟨by decide, leaves_ofTexts _ _ (by decide)⟩

example : (ofTexts [("string, comment", .other), ("source - comment", .regex)]
    (some (["*"], ["comment string"]))).attributes noteInString =
      ⟨0, .other, true, .plain, 5, 0⟩ := by
  decide +kernel

end Overrides

end Highlight
