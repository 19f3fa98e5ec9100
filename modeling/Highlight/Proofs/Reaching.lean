import Highlight.Proofs.Choosing
import Highlight.Proofs.Closing
import Highlight.Proofs.Matching
import Highlight.Proofs.Taking
import Mathlib.Data.List.TakeWhile

/-!
# How far the groups of a match reach

A match is a stretch of the line, and what comes after it is left to the next match. But its groups
need not lie in it: a pattern that looks ahead may have groups behind the end of the match, or ones
that go on after it. Those that begin after the match are not looked at. One that begins exactly
where the match ends is, and so is all of one that begins earlier and ends later. If its rule names
it, or has it read on, the line is cut up to its end, with its scopes, and what is found there next
comes too late.

How far the line is cut is told by the positions that it is not cut beyond. For a text that is read
on, that takes one notion of what reading keeps – the line is cut up to somewhere between two
positions – whatever frames the text is read on from.
-/

namespace Highlight

open Grammar

variable {σ : Type}

/-- Closing groups cuts no further than up to their ends. -/
theorem reached_closeAllGroups_le_iff {t : Segments} {groups : List OpenGroup} {bound : Nat} :
    (closeAllGroups t groups).reached ≤ bound ↔
      t.reached ≤ bound ∧ ∀ g ∈ groups, g.stop ≤ bound := by
  induction groups generalizing t with
  | nil => simp [closeAllGroups]
  | cons g groups ih =>
    rw [closeAllGroups, List.foldl_cons, ← closeAllGroups, ih, Segments.reached_produce,
      Nat.max_le, List.forall_mem_cons, and_assoc]

namespace LineReader

namespace Kept

variable {r : LineReader σ} {K : r.Kept} {text : String} {c : Cursor}

/-! ## From any frames -/

/-- A match on offer cuts where the text may be cut. -/
theorem position_of_cutAt (htext : K.text text) {m : Option RuleMatch}
    (hm : ∀ m' ∈ m, r.Offers text c m') {n : Nat} (h : CutAt text m n) : K.position text n := by
  have hallows : ∀ m' ∈ m, K.AllowsAll text m'.captures :=
    fun m' hm' => allowsAll_of_offers htext (hm m' hm')
  cases h with
  | whole => exact K.whole text htext
  | start hmem => exact (hallows _ hmem).start htext
  | stop hmem => exact (hallows _ hmem).stop htext
  | group hmem hgroup hn =>
    obtain rfl | rfl := hn
    · exact (hallows _ hmem _ hgroup).start
    · exact (hallows _ hmem _ hgroup).stop

/-- Texts that are **read to their end** keep everything, and are cut up to there. -/
def ReadsToEnd (K : r.Kept) (f : ReadOn σ) : Prop :=
  ∀ text c t t', K.text text → K.Sound t → (f text c).run t = .ok () t' →
    K.Sound t' ∧ text.utf8ByteSize ≤ t'.segments.reached

/-- Taking a match that is on offer keeps everything, whatever the frames. -/
theorem sound_of_take (hscopes : ∀ p, K.scopes p) {f : ReadOn σ} (hf : K.ReadsToEnd f)
    (htext : K.text text) {m : Option RuleMatch} (hm : ∀ m' ∈ m, r.Offers text c m')
    {t t' : Reading σ} (ht : K.Sound t) {R : Round} (hrun : (r.take f text c m).run t = .ok R t') :
    K.Sound t' := by
  refine (take_cuts m).holds (J := K.Sound) (fun t p n ht hcut => ⟨ht.cache, ?_⟩)
    (fun text' c' t t' hcalls _ ht hrun => ?_) ht hrun
  · exact K.produce _ p text n ht.segments (hscopes p) (position_of_cutAt htext hm hcut.position)
  · obtain ⟨m', hm', s, -, hgroup⟩ := hcalls
    cases hgroup with
    | group _ hs hbefore =>
      have hallows : K.AllowsAll text m'.captures := allowsAll_of_offers htext (hm m' hm')
      exact (hf _ _ _ _ ((hallows _ hs).within _ hbefore).1 ht hrun).1

theorem sound_of_rounds (hscopes : ∀ p, K.scopes p) {f : ReadOn σ} (hf : K.ReadsToEnd f)
    (htext : K.text text) {limit : Nat} {t t' : Reading σ} (ht : K.Sound t)
    {p : LineState × Bool} (hrun : (r.rounds f text limit none c).run t = .ok p t') :
    K.Sound t' ∧ text.utf8ByteSize ≤ t'.segments.reached := by
  induction limit generalizing c t with
  | zero => cases hrun
  | succ limit ih =>
    rw [rounds, if_neg (by simp)] at hrun
    obtain ⟨R, t₁, hround, hrun⟩ := exists_of_run_bind hrun
    obtain ⟨m, t₂, hnext, htake, htaken⟩ := exists_taken_of_round hround
    obtain ⟨ht₂, hm⟩ := (K.nextMatch_ensures text c).ok ht hnext
    have ht₁ : K.Sound t₁ := sound_of_take hscopes hf htext hm ht₂ htake
    cases R with
    | done s =>
      obtain ⟨-, rfl⟩ := EStateM.Result.ok.inj hrun
      exact ⟨ht₁, htaken.ended s rfl⟩
    | next c' => exact ih ht₁ hrun

/-- **What is kept whatever the scopes is kept by reading on, whatever the frames**, and a text
that is read on is cut up to its end. -/
theorem readOn_readsToEnd (hscopes : ∀ p, K.scopes p) (depth : Nat) :
    K.ReadsToEnd (r.readOn depth) := by
  induction depth with
  | zero => exact fun _ _ _ _ _ _ hrun => nomatch hrun
  | succ depth ih =>
    intro text c t t' htext ht hrun
    obtain ⟨p, t₁, hrounds, hrun⟩ := exists_of_run_bind hrun
    obtain ⟨-, rfl⟩ := EStateM.Result.ok.inj hrun
    exact sound_of_rounds hscopes ih htext ht hrounds

/-- That a line is cut up to somewhere between two positions is kept while a text is read that ends
before the second. -/
theorem exists_cutBetween (hengine : r.engine.GroupsEndInText) (least most : Nat) :
    ∃ K : r.Kept, (K.segments = fun t => least ≤ t.reached ∧ t.reached ≤ most) ∧
      (K.text = fun text => text.utf8ByteSize ≤ most) ∧ ∀ p, K.scopes p := by
  refine ⟨{
    segments := fun t => least ≤ t.reached ∧ t.reached ≤ most
    scopes := fun _ => True
    text := fun text => text.utf8ByteSize ≤ most
    position := fun _ n => n ≤ most
    error := fun _ => True
    push := Attribution.keeps_true _
    produce := fun t p _ n ht _ hn => ?_
    zero := fun _ _ => Nat.zero_le most
    whole := fun _ ht => ht
    found := fun text start f htext hf s hs =>
      (hengine text start f hf s hs).imp (Nat.le_trans · htext) (Nat.le_trans · htext)
    within := fun text start f htext hf s hs _ hinner => ?_
    outside := fun _ _ _ _ _ _ _ _ => trivial
    refused := fun _ => trivial }, rfl, rfl, fun _ => trivial⟩
  · rw [Segments.reached_produce]
    exact ⟨Nat.le_trans ht.1 (Nat.le_max_left _ _), Nat.max_le.2 ⟨ht.2, hn⟩⟩
  · have hs' := hengine text start f hf s hs
    rw [Text.utf8ByteSize_before? hinner]
    exact ⟨Nat.le_trans hs'.2 htext, Nat.le_trans hs'.1 htext⟩

/-- **A text that is read on is cut exactly up to its end**, unless it was cut further before. -/
theorem reached_readOn (hengine : r.engine.GroupsEndInText) {depth : Nat} {t t' : Reading σ}
    (ht : t.searching.cache.Sound r.engine r.rules.table)
    (hrun : (r.readOn depth text c).run t = .ok () t') :
    t'.searching.cache.Sound r.engine r.rules.table ∧
      t'.segments.reached = max t.segments.reached text.utf8ByteSize := by
  obtain ⟨K, hK, htext, hscopes⟩ := exists_cutBetween hengine t.segments.reached
    (max t.segments.reached text.utf8ByteSize)
  have ht₀ : K.segments t.segments := hK ▸ ⟨Nat.le_refl _, Nat.le_max_left _ _⟩
  obtain ⟨ht', hreached⟩ := readOn_readsToEnd hscopes depth text c t t'
    (htext ▸ Nat.le_max_right _ _) ⟨ht, ht₀⟩ hrun
  have hsegments := ht'.segments
  rw [hK] at hsegments
  exact ⟨ht'.cache, Nat.le_antisymm hsegments.2 (Nat.max_le.2 ⟨hsegments.1, hreached⟩)⟩

end Kept

variable {r : LineReader σ} {text : String} {c : Cursor} {captures : Captures}

/-! ## Groups -/

/-- **The rule of a group marks its text**: it has the text read on, or names it. -/
def marks (r : LineReader σ) (id : RuleId) : Bool :=
  match r.rules.table.get? id with
  | some ⟨_, _, .capture (some _)⟩ => true
  | some ⟨name, _, .capture none⟩ => name.isSome
  | _ => false

/-- The text of a group that is read on is cut up to the end of the group. -/
theorem reached_readOnGroup (hengine : r.engine.GroupsEndInText) {depth : Nat} {rule : Rule}
    {id : RuleId} {s : Span} {t t' : Reading σ}
    (ht : t.searching.cache.Sound r.engine r.rules.table)
    (hrun : (r.readOnGroup (r.readOn depth) text c captures rule id s).run t = .ok () t') :
    t'.searching.cache.Sound r.engine r.rules.table ∧
      t'.segments.reached = max t.segments.reached s.stop := by
  unfold readOnGroup at hrun
  dsimp only at hrun
  split at hrun
  · next inner hbefore =>
    rw [← Text.utf8ByteSize_before? hbefore]
    exact Kept.reached_readOn hengine ht hrun
  · cases hrun

/-- **Groups are cut no further than a position** exactly if none begins after it, and none whose
text is marked ends after it. -/
theorem reached_readGroups_le_iff (hengine : r.engine.GroupsEndInText) {depth : Nat}
    {list : List (RuleId × Span)} {groups : List OpenGroup} {t t' : Reading σ}
    (ht : t.searching.cache.Sound r.engine r.rules.table)
    (hrun : (r.readGroups (r.readOn depth) text c captures list groups).run t = .ok () t')
    (bound : Nat) :
    t'.segments.reached ≤ bound ↔ t.segments.reached ≤ bound ∧ (∀ g ∈ groups, g.stop ≤ bound) ∧
      ∀ p ∈ list, p.2.start ≤ bound ∧ (r.marks p.1 = true → p.2.stop ≤ bound) := by
  induction list generalizing groups t with
  | nil =>
    obtain rfl := (EStateM.Result.ok.inj hrun).2
    rw [reached_closeAllGroups_le_iff]
    simp
  | cons p rest ih =>
    obtain ⟨id, s⟩ := p
    -- a group under way is closed where this one begins, or it is still under way
    have hgroups : (∀ g ∈ groups, g.stop ≤ bound) ↔
        (∀ g ∈ groups.takeWhile (·.stop ≤ s.start), g.stop ≤ bound) ∧
          ∀ g ∈ groups.dropWhile (·.stop ≤ s.start), g.stop ≤ bound := by
      rw [← List.forall_mem_append, List.takeWhile_append_dropWhile]
    simp only [readGroups, closeGroups_eq, EStateM.run_bind, Read.produce, modify,
      EStateM.run_modifyGet] at hrun
    generalize ht₁ : ({ searching := t.searching, segments := _ } : Reading σ) = t₁ at hrun
    have hcache : t₁.searching.cache.Sound r.engine r.rules.table := by rwa [← ht₁]
    have hreached : t₁.segments.reached ≤ bound ↔ (t.segments.reached ≤ bound ∧
        ∀ g ∈ groups.takeWhile (·.stop ≤ s.start), g.stop ≤ bound) ∧ s.start ≤ bound := by
      rw [← ht₁, Segments.reached_produce, Nat.max_le, reached_closeAllGroups_le_iff]
    rw [hgroups, List.forall_mem_cons]
    split at hrun
    · next hrule =>
      have hmarks : r.marks id = true := by simp [marks, hrule]
      obtain ⟨u, t₂, hinner, hrest⟩ := exists_of_run_bind hrun
      obtain ⟨ht₂, hreached₂⟩ := reached_readOnGroup hengine hcache hinner
      rw [ih ht₂ hrest, hreached₂, Nat.max_le, hreached]
      grind
    · next hrule =>
      have hmarks : r.marks id = true := by simp [marks, hrule]
      rw [ih hcache hrun, List.forall_mem_cons, hreached]
      grind
    · next hother hunnamed =>
      have hmarks : r.marks id = false := by
        unfold marks
        split
        · next hrule => exact absurd hrule (hother _ _ _)
        · next name _ hrule => cases name with
          | none => rfl
          | some name => exact absurd hrule (hunnamed _ _)
        · rfl
      rw [ih hcache hrun, hreached]
      grind

/-- **What comes after a match is left alone** exactly if no group whose text is marked ends after
the match: then, and only then, reading its groups and cutting up to its end leads to the end of
the match. -/
theorem reached_eq_stop_iff (hengine : r.engine.GroupsEndInText) {depth : Nat}
    {rules : CaptureRules} {whole : Span} (hwhole : captures.whole? = some whole)
    {scopes : AttributedPath} {t t' : Reading σ} (ht : r.CacheSound t)
    (hbefore : t.segments.reached ≤ whole.stop)
    (hrun : (do
      r.readCaptures (r.readOn depth) text c rules captures
      Read.produce scopes whole.stop : Read σ Unit).run t = .ok () t') :
    t'.segments.reached = whole.stop ↔
      ∀ p ∈ rules.groups captures whole, r.marks p.1 = true → p.2.stop ≤ whole.stop := by
  obtain ⟨u, t₁, hgroups, hcut⟩ := exists_of_run_bind hrun
  obtain rfl := (EStateM.Result.ok.inj hcut).2
  simp only [readCaptures, hwhole] at hgroups
  have hstart : ∀ p ∈ rules.groups captures whole, p.2.start ≤ whole.stop := fun p hp => by
    simpa using List.mem_takeWhile_imp hp
  calc (t₁.segments.produce scopes whole.stop).reached = whole.stop
    _ ↔ t₁.segments.reached ≤ whole.stop := by rw [Segments.reached_produce, max_eq_right_iff]
    _ ↔ _ := by
      rw [reached_readGroups_le_iff hengine ht hgroups whole.stop]
      refine ⟨fun h p hp => (h.2.2 p hp).2, fun h => ⟨hbefore, by simp, fun p hp => ?_⟩⟩
      exact ⟨hstart p hp, h p hp⟩

end LineReader

namespace Session

/-- A grammar in which a match looks at the letter after it. -/
def lookahead : Definition where
  scopeName := "text"
  patterns := [
    { pattern := some "(a)(?=(b?))"
      captures := some [
        (1, { patterns := some [{ pattern := some "a", name := some "first" }] }),
        (2, { name := some "ahead" })] },
    { pattern := some "b", name := some "letter" }]

/-- What reads its lines. -/
def lookReader : LineReader Unit := (regexSession lookahead []).highlighter.reader

/-- The rules for the groups of that match. -/
def lookRules : CaptureRules :=
  match lookReader.rules.table.body? ⟨2⟩ with
  | some (.single matched) => matched.captures
  | _ => {}

/-- Reading the groups of its first match on a line, and cutting up to its end. -/
def readLook (text : String) (c : Cursor) (captures : Captures) : Read Unit Unit := do
  lookReader.readCaptures (lookReader.readOn 3) text c lookRules captures
  Read.produce c.state.top.contentScopes (captures.whole?.elim 0 (·.stop))

/-- At the end of the line there is no letter after the match, and the first group ends with it. -/
theorem reached_eq_stop_lookahead :
    ∃ x ∈ (regexSession lookahead []).firstMatch? "a" none,
      x.2.captures = [some ⟨0, 1⟩, some ⟨0, 1⟩, some ⟨1, 1⟩] ∧
      ∃ t', (readLook "a\n" x.1 x.2.captures).run ⟨(regexSession lookahead []).searching, {}⟩ =
        .ok () t' ∧ t'.segments.reached = 1 := by
  have hmatch : ∃ x ∈ (regexSession lookahead []).firstMatch? "a" none,
      x.2.captures = [some ⟨0, 1⟩, some ⟨0, 1⟩, some ⟨1, 1⟩] ∧
      (match (readLook "a\n" x.1 x.2.captures).run ⟨(regexSession lookahead []).searching, {}⟩ with
        | .ok .. => true
        | .error .. => false) = true := by
    decide +kernel
  obtain ⟨⟨c, m⟩, hfirst, hcaptures, hok⟩ := hmatch
  split at hok
  · next t' hrun =>
    refine ⟨_, hfirst, hcaptures, t', hrun, ?_⟩
    have hcache : lookReader.CacheSound ⟨(regexSession lookahead []).searching, {}⟩ :=
      ScannerCache.Sound.empty
    rw [hcaptures] at hrun
    exact (lookReader.reached_eq_stop_iff Engine.groupsEndInText_regex rfl hcache (Nat.zero_le _)
      hrun).2 (by decide +kernel)
  · simp at hok

/-- **A group may take what comes after its match**, if it begins where the match ends: a letter
that follows has the scopes of the group, and not those of its own rule. -/
theorem reached_ne_stop_lookahead :
    OfGrammar lookahead (regexSession lookahead []) ∧
      (regexSession lookahead []).tokens? "ab" none =
        some [⟨⟨0, 1⟩, ["text", "first"]⟩, ⟨⟨1, 2⟩, ["text", "ahead"]⟩] ∧
      ∃ x ∈ (regexSession lookahead []).firstMatch? "ab" none,
        x.2.captures = [some ⟨0, 1⟩, some ⟨0, 1⟩, some ⟨1, 2⟩] ∧
        ∃ t', (readLook "ab\n" x.1 x.2.captures).run ⟨(regexSession lookahead []).searching, {}⟩ =
          .ok () t' ∧ t'.segments.reached = 2 := by
  have hmatch : (regexSession lookahead []).tokens? "ab" none =
        some [⟨⟨0, 1⟩, ["text", "first"]⟩, ⟨⟨1, 2⟩, ["text", "ahead"]⟩] ∧
      ∃ x ∈ (regexSession lookahead []).firstMatch? "ab" none,
        x.2.captures = [some ⟨0, 1⟩, some ⟨0, 1⟩, some ⟨1, 2⟩] ∧
        (match (readLook "ab\n" x.1 x.2.captures).run
            ⟨(regexSession lookahead []).searching, {}⟩ with
          | .ok _ t' => some t'.segments.reached
          | .error .. => none) = some 2 := by
    decide +kernel
  obtain ⟨htokens, x, hfirst, hcaptures, hreached⟩ := hmatch
  refine ⟨ofGrammar_regexSession (by decide +kernel) _, htokens, x, hfirst, hcaptures, ?_⟩
  split at hreached
  · next t' hrun => exact ⟨t', hrun, Option.some.inj hreached⟩
  · simp at hreached

end Session

end Highlight
