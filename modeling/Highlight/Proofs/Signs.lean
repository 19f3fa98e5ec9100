import Highlight.Proofs.Faithful

/-!
# Patterns, sign by sign

A backslash in a pattern goes with the character behind it. So the text of a pattern reads as a
sequence of **signs**, each a character that stands by itself or one that is escaped, and where a
sign begins is told only from the beginning of the text: in a run of backslashes every other one is
escaped itself. A backslash at the very end escapes nothing.

Several functions read the text of a pattern, each with a recursion of its own. They agree on where
signs begin. What is written out for `\z` is a sequence of whole signs, so that writing out what was
written out changes nothing. Which anchors there are is told by the signs, and disabling one changes
the letter of a sign and leaves it a sign. Hence the text for each choice of anchors is told from
the signs of the pattern.

Whether a pattern has anchors is decided when it is made and not again when it is given another
text. That does no harm as long as the pattern is **marked**: no text with anchors is given to a
pattern that was made without.
-/

namespace Highlight.Grammar

namespace PatternText

/-! ## Signs -/

/-- **A sign of a pattern.** -/
inductive Sign where
  /-- A character that stands by itself. -/
  | plain (c : Char)
  /-- A character behind a backslash. -/
  | escaped (c : Char)
  deriving DecidableEq, Repr

/-- **The signs of a text.** -/
def signs : List Char → List Sign
  | '\\' :: c :: rest => .escaped c :: signs rest
  | c :: rest => .plain c :: signs rest
  | [] => []

namespace Sign

/-- What writes a sign. -/
def written : Sign → List Char
  | plain c => [c]
  | escaped c => ['\\', c]

/-- The sign is an anchor. -/
def isAnchor : Sign → Bool
  | plain _ => false
  | escaped c => c == 'A' || c == 'G'

/-- The sign where only these anchors hold. -/
def withAnchors (a : Anchors) : Sign → Sign
  | escaped 'A' => if a.start then escaped 'A' else escaped unmatchable
  | escaped 'G' => if a.resume then escaped 'G' else escaped unmatchable
  | s => s

/-- What is no anchor does not depend on which anchors hold. -/
theorem withAnchors_of_not_isAnchor {s : Sign} (h : s.isAnchor = false) (a : Anchors) :
    s.withAnchors a = s := by
  unfold withAnchors
  split
  · simp [isAnchor] at h
  · simp [isAnchor] at h
  · rfl

theorem withAnchors_escaped (a : Anchors) (c : Char) :
    (escaped c).withAnchors a =
      if (c = 'A' ∧ ¬ a.start) ∨ (c = 'G' ∧ ¬ a.resume) then escaped unmatchable
      else escaped c := by
  by_cases hA : c = 'A'
  · subst hA
    cases hstart : a.start <;> simp [withAnchors, hstart]
  · by_cases hG : c = 'G'
    · subst hG
      cases hresume : a.resume <;> simp [withAnchors, hresume]
    · simp [withAnchors, hA, hG]

/-- An anchor that is disabled stays so. -/
theorem withAnchors_withAnchors (a b : Anchors) (s : Sign) :
    (s.withAnchors b).withAnchors a =
      s.withAnchors ⟨a.start && b.start, a.resume && b.resume⟩ := by
  obtain ⟨start, resume⟩ := a
  obtain ⟨start', resume'⟩ := b
  by_cases hA : s = escaped 'A'
  · subst hA
    cases start <;> cases start' <;> rfl
  by_cases hG : s = escaped 'G'
  · subst hG
    cases resume <;> cases resume' <;> rfl
  have hnone : s.isAnchor = false := by
    cases s with
    | plain c => rfl
    | escaped c => simpa [isAnchor] using And.intro hA hG
  simp only [withAnchors_of_not_isAnchor hnone]

@[simp] theorem withAnchors_both (s : Sign) : s.withAnchors ⟨true, true⟩ = s := by
  unfold withAnchors
  split <;> rfl

end Sign

@[simp] theorem signs_nil : signs [] = [] := rfl

@[simp] theorem signs_escaped (c : Char) (cs : List Char) :
    signs ('\\' :: c :: cs) = .escaped c :: signs cs := rfl

/-- A backslash that escapes nothing is the last character. -/
theorem eq_nil_of_plain {c : Char} {cs : List Char} (h : ∀ d ds, c = '\\' → cs = d :: ds → False)
    (hc : c = '\\') : cs = [] := by
  cases cs with
  | nil => rfl
  | cons d ds => exact (h d ds hc rfl).elim

/-- Only a backslash that is not the last character is no sign by itself. -/
theorem signs_plain {c : Char} {cs : List Char} (h : c = '\\' → cs = []) :
    signs (c :: cs) = .plain c :: signs cs := by
  by_cases hc : c = '\\'
  · rw [h hc, hc]
    rfl
  · rw [signs]
    exact fun _ _ heq _ => hc heq

/-- The signs of a text write it. -/
theorem flatMap_written_signs (cs : List Char) : (signs cs).flatMap Sign.written = cs := by
  fun_induction signs cs with
  | case1 c rest ih => exact congrArg (['\\', c] ++ ·) ih
  | case2 c rest _ ih => exact congrArg ([c] ++ ·) ih
  | case3 => rfl

/-! ## What is read sign by sign -/

theorem hasAnchor_eq (cs : List Char) : hasAnchor cs = (signs cs).any Sign.isAnchor := by
  fun_induction signs cs with
  | case1 c rest ih => simp [hasAnchor, Sign.isAnchor, ih, Bool.or_assoc]
  | case2 c rest h ih =>
    rw [hasAnchor, ih]
    · simp [Sign.isAnchor]
    · exact h
  | case3 => rfl

/-- Disabling anchors changes signs, one by one. -/
theorem signs_disable (a : Anchors) (cs : List Char) :
    signs (disable a cs) = (signs cs).map (·.withAnchors a) := by
  fun_induction signs cs with
  | case1 c rest ih =>
    rw [disable, List.map_cons, ← ih, Sign.withAnchors_escaped]
    split <;> rfl
  | case2 c rest h ih =>
    rw [disable, List.map_cons, ← ih, signs_plain]
    · rfl
    · intro hc
      rw [eq_nil_of_plain h hc]
      rfl
    · exact h
  | case3 => rfl

/-- Texts with the same signs are the same. -/
theorem eq_of_signs_eq {cs cs' : List Char} (h : signs cs = signs cs') : cs = cs' := by
  rw [← flatMap_written_signs cs, h, flatMap_written_signs]

/-- Texts put together have their signs put together, unless a lone backslash ends the first. -/
theorem signs_append {cs : List Char} (h : Sign.plain '\\' ∉ signs cs) (cs' : List Char) :
    signs (cs ++ cs') = signs cs ++ signs cs' := by
  fun_induction signs cs with
  | case1 c rest ih => exact congrArg (_ :: ·) (ih (fun hmem => h (List.mem_cons_of_mem _ hmem)))
  | case2 c rest _ ih =>
    rw [List.cons_append, signs_plain, ih (fun hmem => h (List.mem_cons_of_mem _ hmem))]
    · rfl
    · exact fun hc => absurd (hc ▸ List.mem_cons_self) h
  | case3 => rfl

/-- What is written out for `\z` is a sequence of whole signs. -/
theorem signs_strictEnd_append (cs : List Char) :
    signs (strictEnd ++ cs) = signs strictEnd ++ signs cs :=
  signs_append (by decide) cs

/-- The sign with `\z` written out. -/
def Sign.writtenOut : Sign → List Sign
  | .escaped 'z' => signs strictEnd
  | s => [s]

/-- Writing out `\z` changes signs, one by one. -/
theorem signs_writeOutEnd (cs : List Char) :
    signs (writeOutEnd cs) = (signs cs).flatMap Sign.writtenOut := by
  fun_induction signs cs with
  | case1 c rest ih =>
    rw [writeOutEnd, List.flatMap_cons, ← ih]
    split
    · next hc =>
      subst hc
      exact signs_strictEnd_append _
    · next hc => simp [Sign.writtenOut, hc]
  | case2 c rest h ih =>
    rw [writeOutEnd, List.flatMap_cons, ← ih, signs_plain]
    · rfl
    · intro hc
      rw [eq_nil_of_plain h hc]
      rfl
    · exact h
  | case3 => rfl

/-- No sign of what is written out is written out, and none is an anchor. -/
theorem Sign.of_writtenOut (s : Sign) :
    s.writtenOut.flatMap writtenOut = s.writtenOut ∧ s.writtenOut.any isAnchor = s.isAnchor := by
  by_cases hs : s = .escaped 'z'
  · subst hs
    decide
  · have hsame : s.writtenOut = [s] := by
      unfold writtenOut
      split
      · exact absurd rfl hs
      · rfl
    simp [hsame]

/-- What was written out is not written out again. -/
theorem writeOutEnd_writeOutEnd (cs : List Char) :
    writeOutEnd (writeOutEnd cs) = writeOutEnd cs := by
  apply eq_of_signs_eq
  rw [signs_writeOutEnd, signs_writeOutEnd, List.flatMap_assoc]
  exact congrArg (List.flatMap · (signs cs)) (funext (fun s => s.of_writtenOut.1))

/-- Writing out `\z` neither adds nor removes anchors. -/
theorem hasAnchor_writeOutEnd (cs : List Char) : hasAnchor (writeOutEnd cs) = hasAnchor cs := by
  rw [hasAnchor_eq, hasAnchor_eq, signs_writeOutEnd, List.any_flatMap]
  exact congrArg (List.any (signs cs)) (funext (fun s => s.of_writtenOut.2))

/-- Where all anchors hold, none is disabled. -/
theorem disable_both (cs : List Char) : disable ⟨true, true⟩ cs = cs := by
  apply eq_of_signs_eq
  rw [signs_disable]
  simp

/-- Disabling one anchor after the other disables both. -/
theorem disable_disable (a b : Anchors) (cs : List Char) :
    disable a (disable b cs) = disable ⟨a.start && b.start, a.resume && b.resume⟩ cs := by
  apply eq_of_signs_eq
  rw [signs_disable, signs_disable, signs_disable, List.map_map]
  exact List.map_congr_left (fun s _ => s.withAnchors_withAnchors a b)

/-- A text without anchors is the same whichever hold. -/
theorem disable_of_hasAnchor_eq_false {cs : List Char} (h : hasAnchor cs = false) (a : Anchors) :
    disable a cs = cs := by
  apply eq_of_signs_eq
  rw [hasAnchor_eq, List.any_eq_false] at h
  rw [signs_disable]
  refine (List.map_congr_left (fun s hs => ?_)).trans (List.map_id _)
  exact Sign.withAnchors_of_not_isAnchor (Bool.eq_false_iff.2 (h s hs)) a

end PatternText

namespace Pattern

open PatternText

/-- **A pattern is marked** if it counts as one with anchors where its text has any. -/
def Marked (p : Pattern) : Prop := hasAnchor p.text.toList = true → p.anchored = true

/-- **The text of a pattern varies with the anchors that hold**, and in nothing else. -/
structure VariesWithAnchors (p : Pattern) : Prop where
  /-- Sign by sign, it is the text with the letters of the anchors that do not hold replaced. -/
  signs : ∀ a, signs (p.textWith a).toList = (signs p.text.toList).map (·.withAnchors a)
  /-- Where both anchors hold, it is the text. -/
  both : p.textWith ⟨true, true⟩ = p.text
  /-- Where neither holds, it is the text with `\A` disabled and then `\G`. -/
  startFirst : p.textWith .neither =
    String.ofList (disable ⟨true, false⟩ (disable ⟨false, true⟩ p.text.toList))
  /-- So it is with `\G` disabled and then `\A`. -/
  resumeFirst : p.textWith .neither =
    String.ofList (disable ⟨false, true⟩ (disable ⟨true, false⟩ p.text.toList))
  /-- A pattern that counts as one without anchors has none. -/
  unanchored : p.anchored = false → ∀ s ∈ PatternText.signs p.text.toList, s.isAnchor = false
  /-- Without anchors it is always the text. -/
  same : (∀ s ∈ PatternText.signs p.text.toList, s.isAnchor = false) → ∀ a, p.textWith a = p.text

/-- Being marked is all it takes. -/
theorem Marked.variesWithAnchors {p : Pattern} (h : p.Marked) : p.VariesWithAnchors := by
  have hnone : p.anchored = false → hasAnchor p.text.toList = false := fun hanchored =>
    Bool.eq_false_iff.2 (fun hmem => by simp [h hmem] at hanchored)
  have hsigns : hasAnchor p.text.toList = false ↔
      ∀ s ∈ PatternText.signs p.text.toList, s.isAnchor = false := by
    simp [hasAnchor_eq]
  have htext : ∀ a, p.textWith a = String.ofList (disable a p.text.toList) := by
    intro a
    unfold textWith
    split
    · rfl
    · next hanchored =>
      rw [disable_of_hasAnchor_eq_false (hnone (Bool.eq_false_iff.2 hanchored)),
        String.ofList_toList]
  refine ⟨fun a => ?_, ?_, ?_, ?_, fun hanchored => hsigns.1 (hnone hanchored), fun hsame a => ?_⟩
  · rw [htext, String.toList_ofList, signs_disable]
  · rw [htext, disable_both, String.ofList_toList]
  · rw [htext, disable_disable]
    rfl
  · rw [htext, disable_disable]
    rfl
  · rw [htext, disable_of_hasAnchor_eq_false (hsigns.2 hsame), String.ofList_toList]

/-- A pattern of a grammar counts as one with anchors just if it has any, and so does its text. -/
theorem anchored_ofSource (source : String) (role : Role) :
    (ofSource source role).anchored = hasAnchor source.toList ∧ (ofSource source role).Marked := by
  refine ⟨rfl, fun h => ?_⟩
  rwa [ofSource, String.toList_ofList, hasAnchor_writeOutEnd] at h

/-- The text of a pattern of a grammar is a pattern that yields itself. -/
theorem ofSource_text (source : String) (role : Role) :
    ofSource (ofSource source role).text role = ofSource source role := by
  simp only [ofSource, String.toList_ofList, writeOutEnd_writeOutEnd, hasAnchor_writeOutEnd]

end Pattern

/-! ## Lists that are given other texts -/

namespace PatternList

open PatternText

variable {σ : Type}

/-- The patterns of some sources, without scanners. -/
def ofSources (sources : List (String × Role)) : PatternList σ :=
  ⟨sources.map (fun s => .ofSource s.1 s.2), []⟩

/-- The list after some of its patterns were given other texts, one after another. -/
def setTexts (l : PatternList σ) (changes : List (Nat × String)) : PatternList σ :=
  changes.foldl (fun l change => l.setText change.1 change.2) l

/-- **The patterns of a list go back to sources**: they count as having anchors as those do, and are
marked. -/
def GoesBackTo (l : PatternList σ) (sources : List (String × Role)) : Prop :=
  ∀ (i : Nat) (p : Pattern), l.patterns[i]? = some p →
    p.Marked ∧ ∃ s : String × Role, sources[i]? = some s ∧ p.anchored = hasAnchor s.1.toList

theorem goesBackTo_ofSources (sources : List (String × Role)) :
    (ofSources sources : PatternList σ).GoesBackTo sources := by
  intro i p hp
  rw [ofSources, List.getElem?_map, Option.map_eq_some_iff] at hp
  obtain ⟨s, hs, rfl⟩ := hp
  obtain ⟨hanchored, hmarked⟩ := Pattern.anchored_ofSource s.1 s.2
  exact ⟨hmarked, s, hs, hanchored⟩

/-- A pattern may be given a text with anchors if its source has any. -/
theorem GoesBackTo.setText {l : PatternList σ} {sources : List (String × Role)}
    (h : l.GoesBackTo sources) {index : Nat} {text : String}
    (htext : ∀ s, sources[index]? = some s → hasAnchor text.toList = true →
      hasAnchor s.1.toList = true) : (l.setText index text).GoesBackTo sources := by
  intro i p hp
  rw [patterns_setText, List.getElem?_modify] at hp
  split at hp
  · next hi =>
    obtain ⟨q, hq, rfl⟩ := Option.map_eq_some_iff.1 hp
    obtain ⟨-, s, hs, hanchored⟩ := h i q hq
    exact ⟨fun hmem => hanchored.trans (htext s (hi ▸ hs) hmem), s, hs, hanchored⟩
  · exact h i p (by simpa using hp)

theorem GoesBackTo.setTexts {l : PatternList σ} {sources : List (String × Role)}
    (h : l.GoesBackTo sources) {changes : List (Nat × String)}
    (hchanges : ∀ change ∈ changes, ∀ s, sources[change.1]? = some s →
      hasAnchor change.2.toList = true → hasAnchor s.1.toList = true) :
    (l.setTexts changes).GoesBackTo sources := by
  induction changes generalizing l with
  | nil => exact h
  | cons change changes ih =>
    obtain ⟨hchange, hchanges⟩ := List.forall_mem_cons.1 hchanges
    exact ih (h.setText hchange) hchanges

/-- **What is written out, and what varies with anchors.** The text of a pattern of a grammar yields
the same pattern. Whatever texts the patterns of a list are given later, with anchors only if their
sources have any, they vary with the anchors that hold, and in nothing else. -/
theorem setTexts_variesWithAnchors {sources : List (String × Role)}
    {changes : List (Nat × String)}
    (hchanges : ∀ change ∈ changes, ∀ s, sources[change.1]? = some s →
      (∃ sign ∈ signs change.2.toList, sign.isAnchor = true) →
        ∃ sign ∈ signs s.1.toList, sign.isAnchor = true) :
    (∀ s ∈ sources, Pattern.ofSource (Pattern.ofSource s.1 s.2).text s.2 = .ofSource s.1 s.2 ∧
        ((Pattern.ofSource s.1 s.2).anchored = true ↔
          ∃ sign ∈ signs s.1.toList, sign.isAnchor = true)) ∧
      ∀ p ∈ ((ofSources sources : PatternList σ).setTexts changes).patterns,
        p.VariesWithAnchors := by
  have hanchors : ∀ cs, hasAnchor cs = true ↔ ∃ sign ∈ signs cs, sign.isAnchor = true :=
    fun cs => by rw [hasAnchor_eq, List.any_eq_true]
  refine ⟨fun s _ => ⟨Pattern.ofSource_text s.1 s.2, hanchors _⟩, fun p hp => ?_⟩
  obtain ⟨i, hi⟩ := List.getElem?_of_mem hp
  have hback : ((ofSources sources : PatternList σ).setTexts changes).GoesBackTo sources :=
    (goesBackTo_ofSources sources).setTexts (fun change hmem s hs h =>
      (hanchors _).2 (hchanges change hmem s hs ((hanchors _).1 h)))
  exact (hback i p hi).1.variesWithAnchors

/-- A pattern with `\z`, with `\G` and with a backslash at the end is given a text with `\A`, and
one without anchors another text. -/
theorem setTexts_variesWithAnchors_both :
    let sources : List (String × Role) := [("\\\\z\\G\\z\\", .close), ("a", .enter ⟨1⟩)]
    let changes : List (Nat × String) := [(1, "b\\"), (0, "\\\\A\\A")]
    (∀ change ∈ changes, ∀ s, sources[change.1]? = some s →
        (∃ sign ∈ signs change.2.toList, sign.isAnchor = true) →
          ∃ sign ∈ signs s.1.toList, sign.isAnchor = true) ∧
      (∀ s ∈ sources, Pattern.ofSource (Pattern.ofSource s.1 s.2).text s.2 = .ofSource s.1 s.2 ∧
        ((Pattern.ofSource s.1 s.2).anchored = true ↔
          ∃ sign ∈ signs s.1.toList, sign.isAnchor = true)) ∧
      ∀ p ∈ ((ofSources sources : PatternList Unit).setTexts changes).patterns,
        p.VariesWithAnchors := by
  intro sources changes
  have hchanges : ∀ change ∈ changes, ∀ s, sources[change.1]? = some s →
      (∃ sign ∈ signs change.2.toList, sign.isAnchor = true) →
        ∃ sign ∈ signs s.1.toList, sign.isAnchor = true := by
    simp only [changes, List.forall_mem_cons]
    refine ⟨fun s _ h => absurd h (by decide), fun s hs _ => ?_, by simp⟩
    obtain rfl : _ = s := Option.some.inj hs
    decide
  exact ⟨hchanges, setTexts_variesWithAnchors hchanges⟩

end PatternList

end Highlight.Grammar
