import Highlight.Proofs.Remembering
import Highlight.Proofs.Styles

/-!
# Attributes come from the innermost scopes

While a path is built, what each scope changes is merged into the attributes of the path around
it, and all is packed into one word. In the end each field has the value of the innermost scope
that sets it. What a scope sets depends on its name and on the scopes around it, never on those
pushed inside it later.

The fields tell in different ways that they are not set: a language and a colour are not set by
0, a kind and a font style by their absence, so that a plain font style and the kind of other
text do count. A field **tracks** what is given for a scope if merging takes it over and keeps what
was there where nothing is given, and one lemma about paths serves all fields that do. It makes no
difference what was looked up before, by this path or by another.
-/

namespace Highlight

/-! ## Packing -/

/-- **Nothing is lost in a word.** -/
theorem TokenAttributes.ofWord_word (a : TokenAttributes) : ofWord a.word = a := by
  obtain ⟨language, kind, balanced, ⟨flags⟩, foreground, background⟩ := a
  simp only [ofWord, word, mk.injEq, FontStyle.mk.injEq]
  refine ⟨?_, ?_, ?_, ?_, ?_, ?_⟩
  · rw [BitVec.extractLsb'_append_eq_right]
  · simp (disch := decide) only [BitVec.extractLsb'_append_eq_of_le, Nat.reduceSub,
      BitVec.extractLsb'_append_eq_right, TokenKind.ofBits_bits]
  · rw [BitVec.getLsbD_append, if_neg (by decide), BitVec.getLsbD_append, if_neg (by decide),
      BitVec.getLsbD_append, if_pos (by decide)]
    simp
  · simp (disch := decide) only [BitVec.extractLsb'_append_eq_of_le, Nat.reduceSub,
      BitVec.extractLsb'_append_eq_right]
  · simp (disch := decide) only [BitVec.extractLsb'_append_eq_of_le, Nat.reduceSub,
      BitVec.extractLsb'_append_eq_right]
  · simp (disch := decide) only [BitVec.extractLsb'_append_eq_of_le, Nat.reduceSub,
      BitVec.extractLsb'_eq_self]

/-! ## The paths on a path -/

namespace ScopePath

/-- The paths that end at each of some scopes, the innermost first. -/
def endings : List String → List ScopePath
  | [] => []
  | name :: ancestors => ⟨name, ancestors⟩ :: endings ancestors

/-- **The paths on a path**: the path itself, then those of the scopes around, outwards. -/
def outwards (p : ScopePath) : List ScopePath := endings (p.name :: p.ancestors)

@[simp] theorem outwards_root (name : String) : (root name).outwards = [root name] := rfl

@[simp] theorem outwards_push (p : ScopePath) (name : String) :
    (p.push name).outwards = p.push name :: p.outwards := rfl

end ScopePath

/-! ## What a scope sets -/

/-- **A number that is set**: languages and colours are numbered from 1, and 0 sets nothing. -/
def setNumber? (n : Nat) : Option Nat := if n = 0 then none else some n

theorem setNumber?_eq_some_iff {n m : Nat} : setNumber? n = some m ↔ n ≠ 0 ∧ n = m := by
  simp [setNumber?]

namespace AttributeChange

/-- The language, if it is set. -/
def language? (c : AttributeChange) : Option Nat := setNumber? c.language

/-- The foreground colour, if it is set. -/
def foreground? (c : AttributeChange) : Option Nat := setNumber? c.foreground

/-- The background colour, if it is set. -/
def background? (c : AttributeChange) : Option Nat := setNumber? c.background

/-- **The numbers fit** into their fields. -/
structure Fits (c : AttributeChange) : Prop where
  /-- Languages have eight bits. -/
  language : c.language < 2 ^ 8
  /-- Foreground colours have nine. -/
  foreground : c.foreground < 2 ^ 9
  /-- Background colours have eight. -/
  background : c.background < 2 ^ 8

end AttributeChange

namespace TokenAttributes

theorem blank_eq : blank = ⟨0, .other, false, .plain, 0, 0⟩ := by decide

variable {a : TokenAttributes} {c : AttributeChange}

theorem language_merge (h : c.language < 2 ^ 8) :
    (a.merge c).language.toNat = c.language?.getD a.language.toNat := by
  by_cases hc : c.language = 0
  · simp [merge, AttributeChange.language?, setNumber?, hc]
  · simpa [merge, AttributeChange.language?, setNumber?, hc] using h

theorem foreground_merge (h : c.foreground < 2 ^ 9) :
    (a.merge c).foreground.toNat = c.foreground?.getD a.foreground.toNat := by
  by_cases hc : c.foreground = 0
  · simp [merge, AttributeChange.foreground?, setNumber?, hc]
  · simpa [merge, AttributeChange.foreground?, setNumber?, hc] using h

theorem background_merge (h : c.background < 2 ^ 8) :
    (a.merge c).background.toNat = c.background?.getD a.background.toNat := by
  by_cases hc : c.background = 0
  · simp [merge, AttributeChange.background?, setNumber?, hc]
  · simpa [merge, AttributeChange.background?, setNumber?, hc] using h

end TokenAttributes

/-! ## Paths with attributes -/

/-- **The innermost value on a path**: what is given for the innermost scope that anything is given
for. Each scope is asked about on the path up to it. -/
def ScopePath.innermost? {α : Type} (p : ScopePath) (value? : ScopePath → Option α) : Option α :=
  p.outwards.findSome? value?

namespace Attribution

/-- **The paths that are built** with an attribution: from a single scope, by pushing names. Each
step is made with a lookup of which anything may have been asked before. -/
inductive Builds (a : Attribution) : AttributedPath → Prop where
  /-- The path of a single scope. -/
  | root {l : AttributeLookup} (hl : l.Serves a) (scope : String) : Builds a (l.root scope).1
  /-- A name is pushed, with as many scopes as it holds. -/
  | push {p : AttributedPath} {l : AttributeLookup} (hl : l.Serves a) (name : Option String) :
    Builds a p → Builds a (l.push p name).1

/-- **The numbers of an attribution fit**: languages, and the colours of all styles. -/
structure Fits (a : Attribution) : Prop where
  /-- The language that every path starts with. -/
  language : a.language < 2 ^ 8
  /-- The embedded languages. -/
  embedded : ∀ p ∈ a.embedded, p.2 < 2 ^ 8
  /-- The foreground colour that every path starts from. -/
  foreground : a.theme.defaults.foreground < 2 ^ 9
  /-- The background colour that every path starts from. -/
  background : a.theme.defaults.background < 2 ^ 8
  /-- The colours of paths. -/
  styles : ∀ path style, a.theme.styleOf? path = some style →
    style.foreground < 2 ^ 9 ∧ style.background < 2 ^ 8

/-- What the packed attributes of a path tell, once they are read back from the word: every field
has the value that the innermost scope on the path gives it, and that of the theme and the language
if none does. Languages and kinds are told by the name of a scope, styles by the theme for the path
up to it. -/
structure Innermost (a : Attribution) (p : ScopePath) (t : TokenAttributes) : Prop where
  /-- The language. -/
  language : t.language.toNat =
    (p.innermost? fun q => setNumber? (a.languageOf q.name)).getD a.language
  /-- The kind of token. -/
  kind : t.kind = (p.innermost? fun q => kindOf? q.name).getD .other
  /-- The font style. -/
  fontStyle : t.fontStyle =
    (p.innermost? fun q => (a.theme.styleOf? q).bind (·.fontStyle)).getD
      (a.theme.defaults.fontStyle.getD .plain)
  /-- The foreground colour. -/
  foreground : t.foreground.toNat =
    (p.innermost? fun q => (a.theme.styleOf? q).bind (setNumber? ·.foreground)).getD
      a.theme.defaults.foreground
  /-- The background colour. -/
  background : t.background.toNat =
    (p.innermost? fun q => (a.theme.styleOf? q).bind (setNumber? ·.background)).getD
      a.theme.defaults.background

variable {a : Attribution}

/-! ## Fields that are tracked -/

/-- **A field tracks a value** under merging: what a scope gives is taken over. -/
def Tracks {α : Type} (a : Attribution) (field : TokenAttributes → α)
    (value? : ScopePath → Option α) : Prop :=
  ∀ (t : TokenAttributes) (q : ScopePath),
    field (t.merge (a.changeOf q)) = (value? q).getD (field t)

section Tracking

variable {α : Type} {field : TokenAttributes → α} {value? : ScopePath → Option α}

/-- Pushing a scope keeps a field at the innermost value. -/
theorem Tracks.pushScope (h : a.Tracks field value?) {p : AttributedPath}
    (hp : field p.attributes = (p.path.innermost? value?).getD (field a.defaults))
    (scope : String) :
    field (a.pushScope p scope).attributes =
      ((a.pushScope p scope).path.innermost? value?).getD (field a.defaults) := by
  rw [Attribution.pushScope, AttributedPath.attributes_push, AttributedPath.path_push, h,
    ScopePath.innermost?, ScopePath.outwards_push, List.findSome?_cons]
  cases value? (p.path.push scope) with
  | none => exact hp
  | some value => rfl

/-- **A field that tracks a value** has the innermost one on every path that is built. -/
theorem Tracks.builds (h : a.Tracks field value?) {p : AttributedPath} (hp : a.Builds p) :
    field p.attributes = (p.path.innermost? value?).getD (field a.defaults) := by
  have hscopes : ∀ (scopes : List String) (p : AttributedPath),
      field p.attributes = (p.path.innermost? value?).getD (field a.defaults) →
      field (scopes.foldl a.pushScope p).attributes =
        ((scopes.foldl a.pushScope p).path.innermost? value?).getD (field a.defaults) := by
    intro scopes
    induction scopes with
    | nil => exact fun p hp => hp
    | cons scope scopes ih => exact fun p hp => ih _ (h.pushScope hp scope)
  induction hp with
  | root hl scope =>
    rw [(hl.right.root scope).1]
    change field (a.defaults.merge (a.changeOf (.root scope))) =
      ((ScopePath.root scope).innermost? value?).getD (field a.defaults)
    rw [h, ScopePath.innermost?, ScopePath.outwards_root, List.findSome?_singleton]
  | @push p _ hl name _ ih =>
    rw [(hl.right.push p name).1]
    cases name with
    | none => exact ih
    | some name => exact hscopes _ _ ih

end Tracking

theorem Fits.changeOf (h : a.Fits) (path : ScopePath) : (a.changeOf path).Fits := by
  have hstyle : ((a.theme.styleOf? path).getD .unset).foreground < 2 ^ 9 ∧
      ((a.theme.styleOf? path).getD .unset).background < 2 ^ 8 := by
    cases hs : a.theme.styleOf? path with
    | none => exact ⟨by decide, by decide⟩
    | some style => exact h.styles path style hs
  refine ⟨?_, hstyle.1, hstyle.2⟩
  change a.languageOf path.name < 2 ^ 8
  rw [languageOf]
  cases hp : a.embedded.find? (fun p => Scope.coveredBy path.name p.1) with
  | none => decide
  | some p => exact h.embedded p (List.mem_of_find?_eq_some hp)

theorem Fits.tracks_language (h : a.Fits) :
    a.Tracks (·.language.toNat) (fun q => setNumber? (a.languageOf q.name)) :=
  fun _ q => TokenAttributes.language_merge (h.changeOf q).language

theorem tracks_kind (a : Attribution) : a.Tracks (·.kind) (fun q => kindOf? q.name) :=
  fun _ _ => rfl

/-- A field that takes over what a style gives tracks it: the blank style gives nothing. -/
theorem tracks_style {α : Type} {field : TokenAttributes → α} {get? : Theme.Style → Option α}
    (hunset : get? .unset = none)
    (hmerge : ∀ (t : TokenAttributes) (q : ScopePath), field (t.merge (a.changeOf q)) =
      (get? ((a.theme.styleOf? q).getD .unset)).getD (field t)) :
    a.Tracks field (fun q => (a.theme.styleOf? q).bind get?) := by
  intro t q
  rw [hmerge]
  show _ = ((a.theme.styleOf? q).bind get?).getD (field t)
  cases a.theme.styleOf? q with
  | none => exact congrArg (·.getD (field t)) hunset
  | some style => rfl

theorem tracks_fontStyle (a : Attribution) :
    a.Tracks (·.fontStyle) (fun q => (a.theme.styleOf? q).bind (·.fontStyle)) :=
  tracks_style rfl fun _ _ => rfl

theorem Fits.tracks_foreground (h : a.Fits) :
    a.Tracks (·.foreground.toNat)
      (fun q => (a.theme.styleOf? q).bind (setNumber? ·.foreground)) :=
  tracks_style rfl fun _ q => TokenAttributes.foreground_merge (h.changeOf q).foreground

theorem Fits.tracks_background (h : a.Fits) :
    a.Tracks (·.background.toNat)
      (fun q => (a.theme.styleOf? q).bind (setNumber? ·.background)) :=
  tracks_style rfl fun _ q => TokenAttributes.background_merge (h.changeOf q).background

/-- What paths start from, read back from the attributes before any scope. -/
theorem Fits.defaults (h : a.Fits) :
    a.defaults.language.toNat = a.language ∧
      a.defaults.foreground.toNat = a.theme.defaults.foreground ∧
      a.defaults.background.toNat = a.theme.defaults.background := by
  have hfits : ({ language := a.language
                  fontStyle := a.theme.defaults.fontStyle
                  foreground := a.theme.defaults.foreground
                  background := a.theme.defaults.background } : AttributeChange).Fits :=
    ⟨h.language, h.foreground, h.background⟩
  rw [Attribution.defaults, TokenAttributes.language_merge hfits.language,
    TokenAttributes.foreground_merge hfits.foreground,
    TokenAttributes.background_merge hfits.background]
  refine ⟨?_, ?_, ?_⟩
  · rw [AttributeChange.language?, setNumber?]
    split <;> simp_all [TokenAttributes.blank_eq]
  · rw [AttributeChange.foreground?, setNumber?]
    split <;> simp_all [TokenAttributes.blank_eq]
  · rw [AttributeChange.background?, setNumber?]
    split <;> simp_all [TokenAttributes.blank_eq]

/-- **Attributes follow the innermost scope.** If the numbers of an attribution fit their fields,
then on every path that is built, whatever else is looked up before and in between, each field of
the packed attributes has the value of the innermost scope that sets it. -/
theorem Builds.innermost (h : a.Fits) {p : AttributedPath} (hp : a.Builds p) :
    a.Innermost p.path (.ofWord p.attributes.word) := by
  obtain ⟨hlanguage, hforeground, hbackground⟩ := h.defaults
  rw [TokenAttributes.ofWord_word]
  exact ⟨hlanguage ▸ h.tracks_language.builds hp, (tracks_kind a).builds hp,
    (tracks_fontStyle a).builds hp, hforeground ▸ h.tracks_foreground.builds hp,
    hbackground ▸ h.tracks_background.builds hp⟩

/-- The numbers fit if the theme has no more colours than a byte has values. -/
theorem fits_make {d : Theme.Definition} {theme : Theme} (h : Theme.ofDefinition d none = .ok theme)
    (hcolors : theme.colorMap.colors.length ≤ 2 ^ 8) {language : Nat} (hlanguage : language < 2 ^ 8)
    {embedded : List (String × Nat)} (hembedded : ∀ p ∈ embedded, p.2 < 2 ^ 8) :
    (make language embedded theme).Fits := by
  obtain ⟨hdefaults, hstyles⟩ := Theme.inMap_of_ofDefinition h
  refine ⟨hlanguage, fun p hp => ?_, ?_, ?_, fun path style hstyle => ⟨?_, ?_⟩⟩
  · exact hembedded p ((Order.perm_sort _ _).mem_iff.1 hp)
  · exact (hdefaults.foreground.trans_le hcolors).trans (by decide)
  · exact hdefaults.background.trans_le hcolors
  · exact ((hstyles path style hstyle).foreground.trans_le hcolors).trans (by decide)
  · exact (hstyles path style hstyle).background.trans_le hcolors

/-- A theme in which strings look different where a language is embedded. -/
def pageColors : Theme.Definition where
  settings :=
    [{ scope := some (.one "string"), style := some { foreground := some "#f00" } },
     { scope := some (.one "meta.embedded string"),
       style := some { fontStyle := some "italic", foreground := some "#00f" } }]

/-- Pages with styles in them, in that theme. -/
def page : Attribution :=
  make 3 [("meta.embedded.css", 9)]
    ((Theme.ofDefinition pageColors none).toOption.getD .standard)

theorem fits_page : page.Fits := by
  obtain ⟨theme, h, -⟩ := Theme.exists_ofDefinition pageColors
  have htheme : (Theme.ofDefinition pageColors none).toOption.getD .standard = theme := by
    rw [h]
    rfl
  have hcolors : page.theme.colorMap.colors.length ≤ 2 ^ 8 := by decide +kernel
  rw [page, htheme] at hcolors ⊢
  exact fits_make h hcolors (by decide) (by decide)

/-- A page, and what is remembered after it. -/
def pageText : AttributedPath × AttributeLookup :=
  (AttributeLookup.ofAttribution page).root "text.html"

/-- A string in the page. -/
def pageString : AttributedPath × AttributeLookup :=
  pageText.2.push pageText.1 (some "string.quoted")

/-- A string in a style in that string. What the theme has for strings is known by then. -/
def pageInnerString : AttributedPath × AttributeLookup :=
  pageString.2.push pageString.1 (some "meta.embedded.css string.quoted")

theorem innermost_pageInnerString :
    page.Fits ∧ page.Builds pageInnerString.1 ∧
      page.Innermost pageInnerString.1.path (.ofWord pageInnerString.1.attributes.word) := by
  have htext : pageText.2.Serves page := .root .fresh "text.html"
  have hstring : pageString.2.Serves page := htext.push _ _
  have hbuilds : page.Builds pageInnerString.1 :=
    .push hstring _ (.push htext _ (.root .fresh "text.html"))
  exact ⟨fits_page, hbuilds, Builds.innermost fits_page hbuilds⟩

example : [pageString, pageInnerString].map (fun p => TokenAttributes.ofWord p.1.attributes.word) =
    [⟨3, .string, false, .plain, 3, 2⟩, ⟨9, .string, false, .italic, 4, 2⟩] := by
  decide +kernel

end Attribution

end Highlight
