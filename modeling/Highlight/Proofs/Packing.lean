import Highlight.Proofs.Innermost
import Highlight.Proofs.Specificity

/-!
# Which colours survive packing

The colours of a theme are numbered without end, foregrounds and backgrounds together, but the
word of a token has nine bits for the one and eight for the other. A number that is too great
loses its upper bits: it comes back as that of another colour, or as 0, and then the colour that
was set around is gone.

Where a colour has its place is settled by the definition alone, or by the list of colours if
that is frozen. Nothing is lost if the foregrounds of a definition have their places below 512
and the backgrounds theirs below 256. Of several places of a colour in a frozen list the last
counts, so a colour may be lost although it also has a place that fits.
-/

namespace Highlight

namespace ColorMap

/-! ## A number in its field -/

/-- **A number survives packing** as the number of a colour in a field of the attributes. The
attributes that it is written to, and what else is written, may be any. -/
structure Survives (m : ColorMap) {width : Nat} (field : TokenAttributes → BitVec width)
    (number : AttributeChange → Nat) (n : Nat) : Prop where
  /-- It has no more bits than the field. -/
  lt : n < 2 ^ width
  /-- If it is set, it stands for a colour, and does so when it is read back. -/
  same : n ≠ 0 → ∃ color, m.color? n = some color ∧ ∀ (a : TokenAttributes) (c : AttributeChange),
    number c = n → m.color? (field (.ofWord (a.merge c).word)).toNat = some color
  /-- It clears no colour. -/
  kept : ∀ (a : TokenAttributes) (c : AttributeChange), number c = n → field a ≠ 0 →
    field (.ofWord (a.merge c).word) ≠ 0

/-- A number that fits survives in a field that takes over the numbers that are set. -/
theorem Survives.of_lt {m : ColorMap} {width : Nat}
    {field : TokenAttributes → BitVec width} {number : AttributeChange → Nat}
    (hmerge : ∀ (a : TokenAttributes) (c : AttributeChange), number c < 2 ^ width →
      (field (a.merge c)).toNat = if number c = 0 then (field a).toNat else number c)
    {n : Nat} (hlt : n < 2 ^ width) (hcolor : n ≠ 0 → ∃ color, m.color? n = some color) :
    m.Survives field number n where
  lt := hlt
  same hn := by
    obtain ⟨color, hcolor⟩ := hcolor hn
    refine ⟨color, hcolor, fun a c hc => ?_⟩
    subst hc
    rw [TokenAttributes.ofWord_word, hmerge a c hlt, if_neg hn, hcolor]
  kept a c hc ha hzero := by
    subst hc
    have hread := hmerge a c hlt
    rw [TokenAttributes.ofWord_word] at hzero
    rw [hzero] at hread
    split at hread
    · exact ha (BitVec.eq_of_toNat_eq hread.symm)
    · next hn => exact hn hread.symm

/-! ## Numbers of some colours -/

/-- **A number is drawn from colours**: if it is set, it stands for one of them. -/
def Draws (m : ColorMap) (colors : List String) (n : Nat) : Prop :=
  n ≠ 0 → ∃ color ∈ colors, m.color? n = some color

theorem draws_zero (m : ColorMap) (colors : List String) : m.Draws colors 0 :=
  fun h => absurd rfl h

theorem Draws.mono {m m' : ColorMap} {colors : List String} {n : Nat} (h : m.Draws colors n)
    (hm : m.colors <+: m'.colors) : m'.Draws colors n := fun hn =>
  have ⟨color, hmem, hcolor⟩ := h hn
  ⟨color, hmem, color?_mono hcolor hm⟩

theorem Draws.ite {m : ColorMap} {colors : List String} {n n' : Nat} (h : m.Draws colors n)
    (h' : m.Draws colors n') : m.Draws colors (if n = 0 then n' else n) := by
  split
  · exact h'
  · exact h

/-- What is asked for is drawn from the colours that it is one of. -/
theorem draws_of_number {frozen : Option (List String)} {asked colors : List String}
    {color : Option String} {n : Nat} {m : ColorMap}
    (h : (after frozen asked).number color = .ok (n, m))
    (hcolors : ∀ c ∈ color.map Unicode.upper, c ∈ colors) : m.Draws colors n := by
  obtain ⟨-, hcolor, hzero⟩ := number_after h
  cases color with
  | none => exact hzero rfl ▸ draws_zero m colors
  | some color => exact fun _ => ⟨_, hcolors _ rfl, hcolor⟩

/-- Numbers drawn from colours that have no place from somewhere on are less. -/
theorem Draws.lt {m : ColorMap} {colors : List String} {n bound : Nat} (h : m.Draws colors n)
    (hbound : 0 < bound) (hcolors : ∀ color ∈ colors, color ∉ m.colors.drop bound) :
    n < bound := by
  by_contra hle
  have hne : n ≠ 0 := (hbound.trans_le (not_lt.1 hle)).ne'
  obtain ⟨color, hmem, hcolor⟩ := h hne
  refine hcolors color hmem (List.mem_iff_getElem?.2 ⟨n - bound, ?_⟩)
  rw [List.getElem?_drop, Nat.add_sub_cancel' (not_lt.1 hle), ← color?_of_ne_zero hne, hcolor]

end ColorMap

namespace Theme

/-! ## The colours of a definition -/

/-- The colours that a rule sets, in uppercase. -/
def Rule.colors (r : Rule) : List String :=
  r.look.foreground.toList ++ r.look.background.toList

namespace Definition

/-- **The foregrounds of a definition**, in uppercase. -/
def foregrounds (d : Definition) : List String :=
  Unicode.upper d.defaults.foreground :: d.scopedRules.filterMap (·.look.foreground)

/-- **The backgrounds of a definition**, in uppercase. -/
def backgrounds (d : Definition) : List String :=
  Unicode.upper d.defaults.background :: d.scopedRules.filterMap (·.look.background)

/-- **The colours of a definition**, in uppercase and in the order in which they are numbered. -/
def colors (d : Definition) : List String :=
  [Unicode.upper d.defaults.foreground] ++ [Unicode.upper d.defaults.background] ++
    d.scopedRules.flatMap Rule.colors

theorem mem_foregrounds (d : Definition) {r : Rule} (hr : r ∈ d.scopedRules) :
    ∀ color ∈ r.foreground.map Unicode.upper, color ∈ d.foregrounds := fun _ hcolor =>
  List.mem_cons_of_mem _ (List.mem_filterMap.2 ⟨r, hr, hcolor⟩)

theorem mem_backgrounds (d : Definition) {r : Rule} (hr : r ∈ d.scopedRules) :
    ∀ color ∈ r.background.map Unicode.upper, color ∈ d.backgrounds := fun _ hcolor =>
  List.mem_cons_of_mem _ (List.mem_filterMap.2 ⟨r, hr, hcolor⟩)

end Definition

/-- **A style uses the colours of a definition.** -/
structure Style.Uses (d : Definition) (m : ColorMap) (s : Style) : Prop where
  /-- The foreground colour. -/
  foreground : m.Draws d.foregrounds s.foreground
  /-- The background colour. -/
  background : m.Draws d.backgrounds s.background

theorem Style.uses_unset (d : Definition) (m : ColorMap) : Style.unset.Uses d m :=
  ⟨m.draws_zero _, m.draws_zero _⟩

theorem Style.Uses.mono {d : Definition} {m m' : ColorMap} {s : Style} (h : s.Uses d m)
    (hm : m.colors <+: m'.colors) : s.Uses d m' :=
  ⟨h.foreground.mono hm, h.background.mono hm⟩

theorem Style.Uses.orElse {d : Definition} {m : ColorMap} {s base : Style} (h : s.Uses d m)
    (h' : base.Uses d m) : (s.orElse base).Uses d m :=
  ⟨h.foreground.ite h'.foreground, h.background.ite h'.background⟩

/-! ## While rules are added -/

/-- **The trie uses the colours of a definition** at all nodes, with the numbers of the map in
which some have been asked for. -/
def UsesAfter (d : Definition) (frozen : Option (List String)) (asked : List String) (t : Trie) :
    Prop :=
  ∀ ss, ∀ e ∈ (t.find ss).entries, e.style.Uses d (.after frozen asked)

theorem usesAfter_empty (d : Definition) (frozen : Option (List String)) (asked : List String) :
    UsesAfter d frozen asked .empty := by
  intro ss e he
  rw [Trie.eq_unset_of_mem_entries_find_empty he]
  exact Style.uses_unset _ _

theorem UsesAfter.addRule {d : Definition} {frozen : Option (List String)} {asked : List String}
    {t t' : Trie} {m : ColorMap} (h : UsesAfter d frozen asked t) {r : Rule}
    (hr : r ∈ d.scopedRules) (hadd : addRule (t, .after frozen asked) r = .ok (t', m)) :
    m = .after frozen (asked ++ r.colors) ∧ UsesAfter d frozen (asked ++ r.colors) t' := by
  obtain ⟨style, m₁, -, hfore, hback, rfl⟩ := exists_of_addRule hadd
  obtain ⟨rfl, -, -⟩ := ColorMap.number_after hfore
  obtain ⟨rfl, -, -⟩ := ColorMap.number_after hback
  have hforedraws := ColorMap.draws_of_number hfore (d.mem_foregrounds hr)
  have hbackdraws := ColorMap.draws_of_number hback (d.mem_backgrounds hr)
  have hasked : asked ++ r.colors = asked ++ (r.foreground.map Unicode.upper).toList ++
      (r.background.map Unicode.upper).toList := (List.append_assoc _ _ _).symm
  rw [hasked]
  refine ⟨rfl, Trie.forall_style_insert (fun _ _ => Style.Uses.orElse) (fun ss e he => ?_)
    ⟨hforedraws.mono (ColorMap.prefix_after _ (List.prefix_append _ _)), hbackdraws⟩ _ _ _⟩
  exact (h ss e he).mono
    (ColorMap.prefix_after _ ((List.prefix_append _ _).trans (List.prefix_append _ _)))

theorem UsesAfter.foldlM {d : Definition} {frozen : Option (List String)} {asked : List String}
    {t t' : Trie} {m : ColorMap} (h : UsesAfter d frozen asked t) {rs : List Rule}
    (hrs : ∀ r ∈ rs, r ∈ d.scopedRules)
    (hfold : rs.foldlM Theme.addRule (t, .after frozen asked) = .ok (t', m)) :
    m = .after frozen (asked ++ rs.flatMap Rule.colors) ∧
      UsesAfter d frozen (asked ++ rs.flatMap Rule.colors) t' := by
  induction rs generalizing asked t with
  | nil =>
    obtain ⟨rfl, rfl⟩ : t = t' ∧ .after frozen asked = m := by
      simpa [pure, Except.pure] using hfold
    rw [List.flatMap_nil, List.append_nil]
    exact ⟨rfl, h⟩
  | cons r rs ih =>
    rw [List.foldlM_cons] at hfold
    obtain ⟨⟨t₁, m₁⟩, hadd, hfold⟩ := exists_of_bind_eq_ok hfold
    obtain ⟨rfl, h₁⟩ := h.addRule (hrs r List.mem_cons_self) hadd
    rw [List.flatMap_cons, ← List.append_assoc]
    exact ih h₁ (fun q hq => hrs q (List.mem_cons_of_mem _ hq)) hfold

/-! ## The styles of a theme -/

/-- **The styles that a theme returns**: the defaults and those of paths. -/
def Returns (t : Theme) (s : Style) : Prop := s = t.defaults ∨ ∃ path, t.styleOf? path = some s

theorem returns_of_styleOf? {t : Theme} {path : ScopePath} {s : Style}
    (h : t.styleOf? path = some s) : t.Returns s := .inr ⟨path, h⟩

/-- **The map of a theme** is that of the colours of its definition, and the styles use them. The
defaults set both colours. -/
theorem uses_of_ofDefinition {d : Definition} {frozen : Option (List String)} {theme : Theme}
    (h : ofDefinition d frozen = .ok theme) :
    theme.colorMap = .after frozen d.colors ∧
      theme.defaults.foreground ≠ 0 ∧ theme.defaults.background ≠ 0 ∧
      ∀ s, theme.Returns s → s.Uses d theme.colorMap := by
  obtain ⟨m₁, m₂, -, hfore, hback, hfold⟩ := exists_of_ofDefinition h
  rw [← ColorMap.after_nil] at hfore
  obtain ⟨rfl, hforecolor, -⟩ := ColorMap.number_after hfore
  obtain ⟨rfl, hbackcolor, -⟩ := ColorMap.number_after hback
  obtain ⟨hmap, huses⟩ := (usesAfter_empty d frozen _).foldlM (fun r hr => hr) hfold
  have hmap' : theme.colorMap = .after frozen d.colors := hmap
  have hdefaults : theme.defaults.Uses d (.after frozen d.colors) := by
    refine ⟨(ColorMap.draws_of_number hfore fun _ h => ?_).mono (ColorMap.prefix_after _ ?_),
      (ColorMap.draws_of_number hback fun _ h => ?_).mono (ColorMap.prefix_after _ ?_)⟩
    · exact Option.some.inj h ▸ List.mem_cons_self
    · exact (List.prefix_append _ _).trans (List.prefix_append _ _)
    · exact Option.some.inj h ▸ List.mem_cons_self
    · exact List.prefix_append _ _
  refine ⟨hmap', ?_, ?_, fun s hs => ?_⟩
  · intro hzero
    simp [hzero, ColorMap.color?] at hforecolor
  · intro hzero
    simp [hzero, ColorMap.color?] at hbackcolor
  · rw [hmap']
    obtain rfl | ⟨path, hs⟩ := hs
    · exact hdefaults
    · obtain ⟨e, he, rfl⟩ := Option.map_eq_some_iff.1 hs
      exact huses _ e ((Order.perm_sort _ _).mem_iff.1 (List.mem_of_find?_eq_some he))

/-! ## Themes whose colours survive -/

/-- **The colours of a definition pack**: in the map of its theme no foreground has a place from
512 on, and no background one from 256 on. -/
structure Definition.Packs (d : Definition) (frozen : Option (List String)) : Prop where
  /-- The foregrounds. -/
  foreground : ∀ color ∈ d.foregrounds, color ∉ (ColorMap.after frozen d.colors).colors.drop (2 ^ 9)
  /-- The backgrounds. -/
  background : ∀ color ∈ d.backgrounds, color ∉ (ColorMap.after frozen d.colors).colors.drop (2 ^ 8)

instance (d : Definition) (frozen : Option (List String)) : Decidable (d.Packs frozen) :=
  decidable_of_iff ((∀ color ∈ d.foregrounds, _) ∧ (∀ color ∈ d.backgrounds, _))
    ⟨fun h => ⟨h.1, h.2⟩, fun h => ⟨h.1, h.2⟩⟩

namespace Definition.Packs

variable {d : Definition} {frozen : Option (List String)} {theme : Theme}

/-- The numbers of all styles fit. -/
theorem lt (h : d.Packs frozen) (htheme : ofDefinition d frozen = .ok theme) {s : Style}
    (hs : theme.Returns s) : s.foreground < 2 ^ 9 ∧ s.background < 2 ^ 8 := by
  obtain ⟨hmap, -, -, huses⟩ := uses_of_ofDefinition htheme
  have hsuses := huses s hs
  rw [hmap] at hsuses
  exact ⟨hsuses.foreground.lt (Nat.two_pow_pos 9) h.foreground,
    hsuses.background.lt (Nat.two_pow_pos 8) h.background⟩

/-- **Colours survive packing.** If the colours of a definition pack, then for every theme made
from it and every style that it returns, both numbers fit their fields, stand for the same colours
of the theme after they are packed and read back, and clear no colour that was set before. -/
theorem survives (h : d.Packs frozen) (htheme : ofDefinition d frozen = .ok theme) {s : Style}
    (hs : theme.Returns s) :
    theme.colorMap.Survives TokenAttributes.foreground AttributeChange.foreground s.foreground ∧
      theme.colorMap.Survives TokenAttributes.background AttributeChange.background
        s.background := by
  obtain ⟨-, -, -, huses⟩ := uses_of_ofDefinition htheme
  obtain ⟨hforelt, hbacklt⟩ := h.lt htheme hs
  refine ⟨.of_lt (fun a c hc => ?_) hforelt fun hne => ?_,
    .of_lt (fun a c hc => ?_) hbacklt fun hne => ?_⟩
  · rw [TokenAttributes.foreground_merge hc, AttributeChange.foreground?, setNumber?]
    split <;> rfl
  · exact ((huses s hs).foreground hne).imp fun _ => And.right
  · rw [TokenAttributes.background_merge hc, AttributeChange.background?, setNumber?]
    split <;> rfl
  · exact ((huses s hs).background hne).imp fun _ => And.right

end Definition.Packs

/-- A theme with colours of its own for notes. -/
def notes : Definition where
  settings := [{ scope := some (.one "note"),
                 style := some { foreground := some "#111111", background := some "#222222" } }]

/-- A list of colours in which the background of notes has place 3 and their foreground place 304,
where a background would not fit. -/
def roomy : List String :=
  ["", "#000000", "#FFFFFF", "#222222"] ++ List.replicate 300 "#777777" ++ ["#111111"]

/-- A list of colours in which the foreground of notes has places 3 and 513 and their background
places 4 and 256. -/
def twofold : List String :=
  ["", "#000000", "#FFFFFF", "#111111", "#222222"] ++ List.replicate 251 "#777777" ++
    ["#222222"] ++ List.replicate 256 "#777777" ++ ["#111111"]

theorem packs_roomy : notes.Packs (some roomy) := by decide +kernel

/-- Both colours of notes survive packing with the first of the lists. -/
theorem survives_roomy :
    notes.Packs (some roomy) ∧ ∃ theme, ofDefinition notes (some roomy) = .ok theme ∧
      theme.styleOf? (.root "note") = some ⟨none, 304, 3⟩ ∧
      theme.colorMap.Survives TokenAttributes.foreground AttributeChange.foreground 304 ∧
      theme.colorMap.Survives TokenAttributes.background AttributeChange.background 3 := by
  have hrun : (ofDefinition notes (some roomy)).toOption.bind
      (fun theme => theme.styleOf? (.root "note")) = some ⟨none, 304, 3⟩ := by decide +kernel
  cases htheme : ofDefinition notes (some roomy) with
  | error e =>
    rw [htheme] at hrun
    cases hrun
  | ok theme =>
    rw [htheme] at hrun
    exact ⟨packs_roomy, theme, rfl, hrun, packs_roomy.survives htheme (returns_of_styleOf? hrun)⟩

/-- **A colour that is lost.** With the second of the lists the numbers of both colours of notes
are too great, though the colours have places that fit. Read back from the attributes of a note,
the foreground is black, and no background is left of the one that was set before. -/
theorem not_survives_twofold :
    ∃ theme, ofDefinition notes (some twofold) = .ok theme ∧
      theme.styleOf? (.root "note") = some ⟨none, 513, 256⟩ ∧
      ¬ theme.colorMap.Survives TokenAttributes.foreground AttributeChange.foreground 513 ∧
      ¬ theme.colorMap.Survives TokenAttributes.background AttributeChange.background 256 ∧
      [513, 3, 256, 4, 1].map theme.colorMap.color? =
        [some "#111111", some "#111111", some "#222222", some "#222222", some "#000000"] ∧
      (Attribution.make 0 [] theme).defaults.background = 2 ∧
      TokenAttributes.ofWord ((Attribution.make 0 [] theme).root "note").attributes.word =
        ⟨0, .other, false, .plain, 1, 0⟩ := by
  have hrun : (ofDefinition notes (some twofold)).toOption.map (fun theme =>
      (theme.styleOf? (.root "note"), [513, 3, 256, 4, 1].map theme.colorMap.color?,
        (Attribution.make 0 [] theme).defaults.background,
        TokenAttributes.ofWord ((Attribution.make 0 [] theme).root "note").attributes.word)) =
      some (some ⟨none, 513, 256⟩,
        [some "#111111", some "#111111", some "#222222", some "#222222", some "#000000"], 2,
        ⟨0, .other, false, .plain, 1, 0⟩) := by
    decide +kernel
  cases htheme : ofDefinition notes (some twofold) with
  | error e =>
    rw [htheme] at hrun
    cases hrun
  | ok theme =>
    rw [htheme] at hrun
    obtain ⟨hstyle, hcolors, hdefaults, hword⟩ := by
      simpa only [Except.toOption, Option.map_some, Option.some.injEq, Prod.mk.injEq] using hrun
    exact ⟨theme, rfl, hstyle, fun h => absurd h.lt (by decide), fun h => absurd h.lt (by decide),
      hcolors, hdefaults, hword⟩

end Theme

namespace Attribution

variable {a : Attribution}

/-- What holds of all values that are given on a path and of the one without them holds of the
innermost value. -/
theorem of_innermost? {α : Type} {value? : ScopePath → Option α} {P : α → Prop}
    (hset : ∀ q value, value? q = some value → P value) {value : α} (hvalue : P value)
    (path : ScopePath) : P ((path.innermost? value?).getD value) := by
  cases hfind : path.innermost? value? with
  | none => exact hvalue
  | some value' =>
    obtain ⟨q, -, hq⟩ := List.exists_of_findSome?_eq_some hfind
    exact hset q value' hq

variable {d : Theme.Definition} {frozen : Option (List String)} {theme : Theme} {language : Nat}
  {embedded : List (String × Nat)}

/-- The numbers of an attribution fit if the colours of its theme pack. -/
theorem fits_of_packs (h : d.Packs frozen) (htheme : Theme.ofDefinition d frozen = .ok theme)
    (hlanguage : language < 2 ^ 8) (hembedded : ∀ p ∈ embedded, p.2 < 2 ^ 8) :
    (make language embedded theme).Fits where
  language := hlanguage
  embedded p hp := hembedded p ((Order.perm_sort _ _).mem_iff.1 hp)
  foreground := (h.lt htheme (.inl rfl)).1
  background := (h.lt htheme (.inl rfl)).2
  styles _ _ hstyle := h.lt htheme (Theme.returns_of_styleOf? hstyle)

/-- **Every path has colours of its theme.** If the colours of a definition pack, then on every
path that is built, whatever was set and set again on the way, the packed attributes tell a
foreground and a background of the definition. -/
theorem Builds.exists_colors (h : d.Packs frozen)
    (htheme : Theme.ofDefinition d frozen = .ok theme) (hlanguage : language < 2 ^ 8)
    (hembedded : ∀ p ∈ embedded, p.2 < 2 ^ 8) {p : AttributedPath}
    (hp : (make language embedded theme).Builds p) :
    (∃ color ∈ d.foregrounds, theme.colorMap.color?
        (TokenAttributes.ofWord p.attributes.word).foreground.toNat = some color) ∧
      ∃ color ∈ d.backgrounds, theme.colorMap.color?
        (TokenAttributes.ofWord p.attributes.word).background.toNat = some color := by
  obtain ⟨-, hfore, hback, huses⟩ := Theme.uses_of_ofDefinition htheme
  have hfits := fits_of_packs h htheme hlanguage hembedded
  obtain ⟨-, hforeground, hbackground⟩ := hfits.defaults
  rw [TokenAttributes.ofWord_word, hfits.tracks_foreground.builds hp,
    hfits.tracks_background.builds hp, hforeground, hbackground]
  refine ⟨of_innermost?
      (P := fun n => ∃ color ∈ d.foregrounds, theme.colorMap.color? n = some color)
      (fun q n hn => ?_) ((huses _ (.inl rfl)).foreground hfore) _,
    of_innermost?
      (P := fun n => ∃ color ∈ d.backgrounds, theme.colorMap.color? n = some color)
      (fun q n hn => ?_) ((huses _ (.inl rfl)).background hback) _⟩
  · obtain ⟨style, hstyle, hset⟩ := Option.bind_eq_some_iff.1 hn
    obtain ⟨hne, rfl⟩ := setNumber?_eq_some_iff.1 hset
    exact (huses _ (Theme.returns_of_styleOf? hstyle)).foreground hne
  · obtain ⟨style, hstyle, hset⟩ := Option.bind_eq_some_iff.1 hn
    obtain ⟨hne, rfl⟩ := setNumber?_eq_some_iff.1 hset
    exact (huses _ (Theme.returns_of_styleOf? hstyle)).background hne

end Attribution

end Highlight
