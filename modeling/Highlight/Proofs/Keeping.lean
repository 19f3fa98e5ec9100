import Highlight.Grammar.ScannerCache
import Highlight.Proofs.Steps

/-!
# Scanners that are kept

A list of patterns changes in two ways: a scanner is made of it and kept, or one of its patterns is
given another text. What is kept was made of the texts that the list had then, and it is handed out
for the texts that it has now. That these are the same is said here once, for whatever an engine
can be relied on for: that it made a scanner of these texts, or that what it made of them finds
what is planned. A scanner that was good for its texts when it was made serves the patterns of the
list as long as it is kept.

The list of a rule is changed by the calls that use it, so its patterns are those of the rule with
the text of **some** region. The text at hand replaces that text, but where a call has none there is
nothing to replace it with. What a call gets is then told by what was called for before.
-/

namespace Highlight

open Grammar

variable {σ : Type} {good : List String → Scanner σ → Prop} {due : List String → String → Prop}

/-- **An engine supplies** scanners that are good for the texts they are made of, and refuses texts
only for reasons that are due. -/
def Engine.Supplies (e : Engine σ) (good : List String → Scanner σ → Prop)
    (due : List String → String → Prop) : Prop :=
  ∀ texts state, match ((e.compile texts).run state).1 with
    | .ok s => good texts s
    | .error reason => due texts reason

namespace Grammar

/-! ## Lists of patterns -/

/-- A scanner **serves** patterns, where these anchors hold: it is good for their texts, and tells
what they are for. -/
def RoleScanner.Serves (good : List String → Scanner σ → Prop) (patterns : List Pattern)
    (a : Anchors) (s : RoleScanner σ) : Prop :=
  s.roles = patterns.map (·.role) ∧ good (patterns.map (·.textWith a)) s.scanner

namespace PatternList

/-- **A list keeps what serves it**: each of its scanners serves its patterns. -/
def Keeps (good : List String → Scanner σ → Prop) (l : PatternList σ) : Prop :=
  ∀ p ∈ l.scanners, p.2.Serves good l.patterns p.1

/-- The texts to be compiled are those for the anchors under which the scanner is kept. -/
theorem texts_key (l : PatternList σ) (a : Anchors) : l.texts (l.key a) = l.texts a := by
  unfold key
  split
  · rfl
  · next hanchored =>
    refine List.map_congr_left (fun p hp => ?_)
    have hp' : p.anchored = false := by
      simpa using List.any_eq_false.1 (Bool.eq_false_iff.2 hanchored) p hp
    simp [Pattern.textWith, hp']

/-- Giving a pattern a text, whatever scanners there are. -/
theorem patterns_setText (l : PatternList σ) (index : Nat) (text : String) :
    (l.setText index text).patterns =
      l.patterns.modify index (fun p => { p with text := text }) := by
  unfold setText
  split
  · next hp => exact (List.modify_eq_self (List.getElem?_eq_none_iff.1 hp)).symm
  · next p hp =>
    obtain ⟨hlt, rfl⟩ := List.getElem?_eq_some_iff.1 hp
    rw [List.modify_eq_take_cons_drop hlt]
    split
    · next htext =>
      rw [← htext]
      show _ = l.patterns.take index ++ l.patterns[index] :: l.patterns.drop (index + 1)
      rw [List.getElem_cons_drop, List.take_append_drop]
    · rw [List.set_eq_take_append_cons_drop, if_pos hlt]

/-- Giving a pattern a text does not change what it is for. -/
theorem map_role_modify (patterns : List Pattern) (index : Nat) (text : String) :
    (patterns.modify index (fun p => { p with text := text })).map (·.role) =
      patterns.map (·.role) := by
  refine List.ext_getElem? (fun i => ?_)
  rw [List.getElem?_map, List.getElem?_map, List.getElem?_modify]
  cases patterns[i]? with
  | none => rfl
  | some p => by_cases hi : index = i <;> simp [hi]

namespace Keeps

variable {e : Engine σ} {l : PatternList σ}

/-- A list without scanners keeps nothing. -/
theorem ofPatterns (patterns : List Pattern) : (⟨patterns, []⟩ : PatternList σ).Keeps good :=
  fun _ h => by simp at h

/-- A change of a text forgets the scanners. -/
theorem setText (h : l.Keeps good) (index : Nat) (text : String) :
    (l.setText index text).Keeps good := by
  unfold PatternList.setText
  split
  · exact h
  · split
    · exact h
    · exact .ofPatterns _

/-- **The scanner of a list** serves its patterns, whether it was kept or is made. The engine
refuses the texts of the list, or nothing. -/
theorem scanner (hsupplies : e.Supplies good due) (h : l.Keeps good) (a : Anchors) (state : σ) :
    match ((l.scanner e a).run state).1 with
    | .ok (s, l') => s.Serves good l.patterns a ∧ l'.Keeps good ∧ l'.patterns = l.patterns
    | .error refusal => refusal.patterns = l.texts a ∧ due (l.texts a) refusal.reason := by
  rw [PatternList.scanner]
  cases hkept : Keyed.get? (l.key a) l.scanners with
  | some s =>
    have hs := h _ (Keyed.mem_of_get? hkept)
    rw [RoleScanner.Serves, ← PatternList.texts, texts_key] at hs
    exact ⟨hs, h, rfl⟩
  | none =>
    have hcompile := hsupplies (l.texts a) state
    dsimp only
    rw [StateT.run_bind]
    rcases hmade : (e.compile (l.texts a)).run state with ⟨made, state'⟩
    rw [hmade] at hcompile
    cases made with
    | error reason => exact ⟨rfl, hcompile⟩
    | ok s =>
      refine ⟨⟨rfl, hcompile⟩, fun p hp => ?_, rfl⟩
      obtain rfl | hp := Keyed.eq_or_mem_of_mem_put hp
      · refine ⟨rfl, ?_⟩
        show good (l.texts (l.key a)) s
        rw [texts_key]
        exact hcompile
      · exact h p hp

end Keeps

end PatternList

/-! ## Texts of regions -/

/-- A region **refers back** if its closing pattern refers to groups of the match that opens it. -/
def RuleBody.refersBack : RuleBody → Bool
  | .region _ closing _ _ => closing.pattern.hasReferences
  | .single _ | .choice _ | .block .. | .capture _ => false

/-- The rule of a number refers back. -/
def RuleTable.refersBack (t : RuleTable) (id : RuleId) : Bool := (t.body? id).any (·.refersBack)

/-- The patterns that are looked for inside a rule, given the closing text. -/
def RuleTable.withClosing (t : RuleTable) (id : RuleId) (closing : Option String)
    (patterns : List Pattern) : List Pattern :=
  match t.body? id, closing with
  | some (.region _ delimiter closeLast _), some text =>
    if delimiter.pattern.hasReferences then
      patterns.modify (if closeLast then patterns.length - 1 else 0)
        (fun p => { p with text := text })
    else patterns
  | _, _ => patterns

/-- The continuing pattern of a block, given its text. -/
def RuleTable.continuingWith (t : RuleTable) (id : RuleId) (text : Option String) : List Pattern :=
  match t.body? id with
  | some (.block _ delimiter _) =>
    if delimiter.pattern.hasReferences then
      [{ delimiter.pattern with text := text.getD matchesNothing }]
    else [delimiter.pattern]
  | _ => []

namespace RuleTable

variable {table : RuleTable} {id : RuleId}

theorem withClosing_none (patterns : List Pattern) :
    table.withClosing id none patterns = patterns := by
  unfold withClosing
  split
  · next htext => cases htext
  · rfl

/-- **The closing text that is given last counts**, if there is one where there was one before. -/
theorem withClosing_withClosing {before closing : Option String}
    (h : table.refersBack id = true → before.isSome = true → closing.isSome = true)
    (patterns : List Pattern) :
    table.withClosing id closing (table.withClosing id before patterns) =
      table.withClosing id closing patterns := by
  cases before with
  | none => rw [withClosing_none]
  | some text' =>
    unfold refersBack at h
    unfold withClosing
    cases hbody : table.body? id with
    | none => rfl
    | some body =>
      cases body with
      | region opening delimiter closeLast inside =>
        rw [hbody] at h
        by_cases hrefers : delimiter.pattern.hasReferences = true
        -- the text that was given before is replaced
        · obtain ⟨text, rfl⟩ := Option.isSome_iff_exists.1 (h hrefers rfl)
          dsimp only
          rw [if_pos hrefers, if_pos hrefers, if_pos hrefers, List.length_modify]
          exact List.modify_modify_eq _ _ _ patterns
        · cases closing <;> simp [hrefers]
      | single | choice | block | capture => rfl

end RuleTable

/-! ## The lists of a cache -/

namespace ScannerCache

/-- **The lists of continuing patterns keep what serves them**, and have the patterns that their
blocks have with some text. -/
def KeepsContinuing (good : List String → Scanner σ → Prop) (table : RuleTable)
    (c : ScannerCache σ) : Prop :=
  ∀ id l, Keyed.get? id c.continuing = some l → l.Keeps good ∧
    ∃ text, l.patterns = table.continuingWith id text

variable {table : RuleTable} {c : ScannerCache σ} {id : RuleId}

/-- **The list for the inside of a rule** has the patterns that the rule has with the closing text
at hand, if the list that is kept was given none that the text does not replace. -/
theorem keeps_listInside {closing : Option String}
    (h : ∀ l, Keyed.get? id c.inside = some l → l.Keeps good ∧ ∃ before,
      (table.refersBack id = true → before.isSome = true → closing.isSome = true) ∧
        l.patterns = table.withClosing id before (table.patternsOf id)) :
    (Search.listInside table id closing c).Keeps good ∧
      (Search.listInside table id closing c).patterns =
        table.withClosing id closing (table.patternsOf id) := by
  obtain ⟨hkept, before, hknown, hpatterns⟩ :
      ((Keyed.get? id c.inside).getD ⟨table.patternsOf id, []⟩).Keeps good ∧ ∃ before,
        (table.refersBack id = true → before.isSome = true → closing.isSome = true) ∧
          ((Keyed.get? id c.inside).getD ⟨table.patternsOf id, []⟩).patterns =
            table.withClosing id before (table.patternsOf id) := by
    cases hget : Keyed.get? id c.inside with
    | none => exact ⟨.ofPatterns _, none, by simp, (table.withClosing_none _).symm⟩
    | some l => exact h l hget
  rw [← RuleTable.withClosing_withClosing hknown, ← hpatterns]
  unfold Search.listInside RuleTable.withClosing
  dsimp only
  cases hbody : table.body? id with
  | none => exact ⟨hkept, rfl⟩
  | some body =>
    cases body with
    | region opening delimiter closeLast inside =>
      cases closing with
      | none => exact ⟨hkept, rfl⟩
      | some text =>
        dsimp only
        split
        · exact ⟨hkept.setText _ _, PatternList.patterns_setText _ _ _⟩
        · exact ⟨hkept, rfl⟩
    | single matched => exact ⟨hkept, rfl⟩
    | choice inside => exact ⟨hkept, rfl⟩
    | block opening delimiter inside => exact ⟨hkept, rfl⟩
    | capture within => exact ⟨hkept, rfl⟩

namespace KeepsContinuing

/-- **The list for the continuing pattern of a block** has the pattern with the text at hand. -/
theorem list (h : c.KeepsContinuing good table) (id : RuleId) (text : Option String) :
    (Search.listContinuing table id text c).Keeps good ∧
      (Search.listContinuing table id text c).patterns = table.continuingWith id text := by
  unfold Search.listContinuing
  split
  · next opening delimiter inside hbody =>
    have hwith : ∀ text, table.continuingWith id text =
        if delimiter.pattern.hasReferences then
          [{ delimiter.pattern with text := text.getD matchesNothing }]
        else [delimiter.pattern] := fun text => by rw [RuleTable.continuingWith, hbody]
    -- the pattern of the list that is kept has some text or other
    obtain ⟨hkept, before, hpatterns⟩ :
        ((Keyed.get? id c.continuing).getD ⟨[delimiter.pattern], []⟩).Keeps good ∧
        ∃ before, ((Keyed.get? id c.continuing).getD ⟨[delimiter.pattern], []⟩).patterns =
          if delimiter.pattern.hasReferences then [{ delimiter.pattern with text := before }]
          else [delimiter.pattern] := by
      cases hget : Keyed.get? id c.continuing with
      | none => exact ⟨.ofPatterns _, delimiter.pattern.text, by split <;> rfl⟩
      | some l =>
        obtain ⟨hl, text, hpatterns⟩ := h id l hget
        exact ⟨hl, _, hpatterns.trans (hwith text)⟩
    rw [hwith]
    dsimp only
    split
    · next hrefers =>
      rw [if_pos hrefers] at hpatterns
      refine ⟨hkept.setText _ _, ?_⟩
      rw [PatternList.patterns_setText, hpatterns]
      rfl
    · next hrefers =>
      rw [if_neg hrefers] at hpatterns
      exact ⟨hkept, hpatterns⟩
  · next hbody =>
    have hwith : ∀ text, table.continuingWith id text = [] := by
      intro text
      unfold RuleTable.continuingWith
      split
      · next hblock => exact (hbody _ _ _ hblock).elim
      · rfl
    rw [hwith]
    cases hget : Keyed.get? id c.continuing with
    | none => exact ⟨.ofPatterns _, rfl⟩
    | some l =>
      obtain ⟨hl, text, hpatterns⟩ := h id l hget
      exact ⟨hl, hpatterns.trans (hwith text)⟩

/-- A list may be kept for the continuing pattern of its block. -/
theorem put (h : c.KeepsContinuing good table) {l : PatternList σ} (hl : l.Keeps good)
    {text : Option String} (hpatterns : l.patterns = table.continuingWith id text) :
    ({ c with continuing := Keyed.put id l c.continuing } : ScannerCache σ).KeepsContinuing
      good table :=
  Keyed.forall_get?_put h ⟨hl, text, hpatterns⟩

end KeepsContinuing

end ScannerCache

/-! ## Preparing -/

/-- **Preparing a list** yields a scanner that serves its patterns, or a refusal of their texts, and
keeps of the cache what is kept by keeping such a list. -/
theorem Search.prepare_serves {e : Engine σ} {C : ScannerCache σ → Prop}
    (hsupplies : e.Supplies good due) {keep : PatternList σ → ScannerCache σ → ScannerCache σ}
    {patterns : List Pattern}
    (hkeep : ∀ l c, C c → l.Keeps good → l.patterns = patterns → C (keep l c))
    {l : PatternList σ} (hl : l.Keeps good) (hpatterns : l.patterns = patterns) (a : Anchors) :
    Ensures (fun s : Searching σ => C s.cache) (prepare e keep l a)
      (fun scanner s => C s.cache ∧ scanner.Serves good patterns a)
      (fun refusal s => C s.cache ∧ refusal.patterns = patterns.map (·.textWith a) ∧
        due (patterns.map (·.textWith a)) refusal.reason) := by
  subst hpatterns
  refine Ensures.bind (M := fun _ s => C s.cache)
    (Ensures.modifyGet (fun s hs => hkeep l s.cache hs hl rfl)) (fun _ => ?_)
  refine Ensures.bind (M := fun r s => C s.cache ∧ match r with
    | .ok (s, l') => s.Serves good l.patterns a ∧ l'.Keeps good ∧ l'.patterns = l.patterns
    | .error refusal => refusal.patterns = l.texts a ∧ due (l.texts a) refusal.reason)
    (Ensures.modifyGet (fun s hs => ⟨hs, hl.scanner hsupplies a s.engine⟩)) (fun r => ?_)
  cases r with
  | error refusal => exact Ensures.throw (fun s hs => hs)
  | ok made =>
    obtain ⟨scanner, l'⟩ := made
    refine Ensures.bind (M := fun _ s => C s.cache ∧ scanner.Serves good l.patterns a)
      (Ensures.modifyGet (fun s hs => ?_)) (fun _ => Ensures.pure (fun s hs => hs))
    obtain ⟨hscanner, hl', hpatterns⟩ := hs.2
    exact ⟨hkeep l' s.cache hs.1 hl' hpatterns, hscanner⟩

end Grammar

end Highlight
