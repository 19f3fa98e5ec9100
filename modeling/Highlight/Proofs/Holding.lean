import Highlight.Proofs.Closing
import Highlight.Proofs.Continuing

/-!
# Blocks that go on

A block goes on where its own continuing pattern is found, from where the match of the block before
it ended. Its own: blocks of one rule share a place in the cache, and where the pattern refers back
to the match that opened the block, what is kept there has the text of whichever block was tried
last. So what a scanner from there finds has to be told by the block at hand, and that takes an
invariant of the cache. It is a part of what makes a cache faithful, and unlike all of that it is
kept by reading any line of any grammar, since no continuing pattern is ever tried without its text.

What is left on the stack then are the open blocks up to the first that does not go on. That block
is not the lowest frame, which only holds others; so it is taken away with all that is above it.
-/

namespace Highlight

open Grammar

variable {σ : Type}

/-! ## What is kept of the cache -/

namespace LineReader

/-- **What searching keeps of the cache**, wherever it searches. -/
structure KeptInCache (r : LineReader σ) (C : ScannerCache σ → Prop) : Prop where
  /-- Searching inside a rule. -/
  inside : ∀ text c id closing, Ensures (fun t => C t.searching.cache)
    (r.matchInside text c id closing) (fun _ t => C t.searching.cache)
    (fun _ t => C t.searching.cache)
  /-- Searching for the continuing pattern of a block. -/
  continuing : ∀ text c, Ensures (fun t => C t.searching.cache) (r.matchContinuing text c)
    (fun _ t => C t.searching.cache) (fun _ t => C t.searching.cache)

namespace KeptInCache

variable {r : LineReader σ} {C : ScannerCache σ → Prop} {f : ReadOn σ} {text : String}

/-- A step keeps something of the cache, whether or not it fails. -/
abbrev Step {α : Type} (C : ScannerCache σ → Prop) (x : Read σ α) : Prop :=
  Ensures (fun t => C t.searching.cache) x (fun _ t => C t.searching.cache)
    (fun _ t => C t.searching.cache)

/-- What only cuts and calls keeps of the cache what is kept where it calls. -/
theorem cuts {good : AttributedPath → Nat → Prop} {about : String → Cursor → Prop} {α : Type}
    {x : ReadOn σ → Read σ α} (hx : Cuts good about x) (hf : ∀ text c, Step C (f text c)) :
    Step C (x f) := by
  intro t ht
  refine hx.ensures (J := fun t => C t.searching.cache) (fun _ _ _ h _ => h) (fun _ _ h => h)
    (fun text c t₁ _ _ ht₁ t₂ ht₂ => ?_) ht t rfl
  exact hf text c t₂ (ht₂ ▸ ht₁)

theorem round (h : r.KeptInCache C) (hf : ∀ text c, Step C (f text c)) (c : Cursor) :
    Step C (r.round f text c) := by
  rw [round_eq]
  exact Ensures.bind (nextMatch_keeps (h.inside text c)) fun m => cuts (take_cuts m) hf

theorem rounds (h : r.KeptInCache C) (hf : ∀ text c, Step C (f text c)) (limit : Nat)
    (budget : Option Nat) (c : Cursor) : Step C (r.rounds f text limit budget c) := by
  induction limit generalizing budget c with
  | zero => exact Ensures.throw fun _ ht => ht
  | succ limit ih =>
    rw [LineReader.rounds]
    split
    · exact Ensures.pure fun _ ht => ht
    · refine Ensures.bind (h.round hf c) fun R => ?_
      cases R with
      | done s => exact Ensures.pure fun _ ht => ht
      | next c' => exact ih _ c'

theorem readOn (h : r.KeptInCache C) (depth : Nat) (text : String) (c : Cursor) :
    Step C (r.readOn depth text c) := by
  induction depth generalizing text c with
  | zero => exact Ensures.throw fun _ ht => ht
  | succ depth ih =>
    exact Ensures.bind (h.rounds ih _ none c) fun _ => Ensures.pure fun _ ht => ht

theorem continueBlocks (h : r.KeptInCache C) (hf : ∀ text c, Step C (f text c))
    (blocks : List (LineState × Delimiter)) (c : Cursor) :
    Step C (r.continueBlocks f text blocks c) := by
  induction blocks generalizing c with
  | nil => exact Ensures.pure fun _ ht => ht
  | cons b rest ih =>
    rw [continueBlocks_cons]
    refine Ensures.bind (h.continuing text _) fun m => ?_
    split
    · exact Ensures.bind (cuts (hold_cuts _ _ _) hf) fun _ => ih _
    · exact Ensures.pure fun _ ht => ht

/-- **Reading a line keeps of the cache what searching keeps.** -/
theorem readLine (h : r.KeptInCache C) (text : String) (s : LineState) (first : Bool)
    (budget : Option Nat) : Step C (r.readLine text s first budget) :=
  Ensures.bind (h.continueBlocks (h.readOn _) _ _) fun c => h.rounds (h.readOn _) _ budget c

end KeptInCache

end LineReader

/-! ## Continuing patterns -/

namespace Grammar.Search

variable {e : Engine σ} {table : RuleTable} {C : ScannerCache σ → Prop}

/-- Preparing a list keeps of the cache what is kept by keeping any list. -/
theorem prepare_keeps (keep : PatternList σ → ScannerCache σ → ScannerCache σ)
    (hkeep : ∀ l c, C c → C (keep l c)) (l : PatternList σ) (a : Anchors) :
    Ensures (fun s => C s.cache) (prepare e keep l a) (fun _ s => C s.cache)
      (fun _ s => C s.cache) := by
  have hput : ∀ l, Ensures (fun s => C s.cache)
      (modify fun s => { s with cache := keep l s.cache } : Search σ Unit) (fun _ s => C s.cache)
      (fun _ s => C s.cache) := fun l => Ensures.modifyGet fun s hs => hkeep l s.cache hs
  refine Ensures.bind (hput l) fun _ => Ensures.bind (M := fun _ s => C s.cache)
    (Ensures.modifyGet fun s hs => hs) fun made => ?_
  cases made with
  | error refusal => exact Ensures.throw fun s hs => hs
  | ok made => exact Ensures.bind (hput _) fun _ => Ensures.pure fun s hs => hs

/-- Searching inside a rule keeps of the cache what has nothing to do with that. -/
theorem inside_keeps (hC : ∀ c inside, C c → C { c with inside := inside }) (id : RuleId)
    (closing : Option String) (a : Anchors) (text : String) (start : Nat) :
    Ensures (fun s : Searching σ => C s.cache)
      (do
        let scanner ← scannerInside e table id closing a
        call (scanner.find text start))
      (fun _ s => C s.cache) (fun _ s => C s.cache) := by
  have hscanner : Ensures (fun s : Searching σ => C s.cache) (scannerInside e table id closing a)
      (fun _ s => C s.cache) (fun _ s => C s.cache) :=
    fun s hs => prepare_keeps (fun l c => { c with inside := Keyed.put id l c.inside })
      (fun _ c hc => hC c _ hc) (listInside table id closing s.cache) a s hs
  exact hscanner.bind fun scanner => Ensures.modifyGet fun s hs => hs

end Grammar.Search

namespace LineReader

variable {r : LineReader σ} {plan : Plan} {text : String}

/-- **The pattern by which a block goes on**: its continuing pattern, with its own text if it refers
to the match that opened it. -/
def ownPattern (b : LineState × Delimiter) : Pattern :=
  if b.2.pattern.hasReferences then
    { b.2.pattern with text := b.1.top.closing.getD matchesNothing }
  else b.2.pattern

/-- What is planned to be found for a block that is tried from a cursor. -/
def planned (plan : Plan) (text : String) (b : LineState × Delimiter) (c : Cursor) :
    Except Refusal (Option RuleMatch) :=
  search plan [ownPattern b] c.anchors text c.position

/-- Open blocks are blocks. -/
theorem continuing?_of_mem_openBlocks {s : LineState} {b : LineState × Delimiter}
    (h : b ∈ r.openBlocks s) : r.continuing? b.1 = some b.2 := by
  obtain ⟨s', -, hs'⟩ := List.mem_filterMap.1 (List.mem_reverse.1 h)
  obtain ⟨continuing, hcontinuing, rfl⟩ := Option.map_eq_some_iff.1 hs'
  exact hcontinuing

/-- A block is one by its body. -/
theorem exists_block_of_continuing? {s : LineState} {continuing : Delimiter}
    (h : r.continuing? s = some continuing) : ∃ opening inside,
      r.rules.table.body? s.top.rule = some (.block opening continuing inside) := by
  unfold continuing? at h
  split at h
  · next opening continuing' inside hbody =>
    obtain rfl := Option.some.inj h
    exact ⟨opening, inside, hbody⟩
  · simp at h

/-- What is looked for where a block is tried is its own pattern. -/
theorem continuingWith_eq {b : LineState × Delimiter} (h : r.continuing? b.1 = some b.2) :
    r.rules.table.continuingWith b.1.top.rule b.1.top.closing = [ownPattern b] := by
  obtain ⟨opening, inside, hbody⟩ := exists_block_of_continuing? h
  unfold RuleTable.continuingWith ownPattern
  rw [hbody]
  dsimp only
  split <;> rfl

/-- What is found by the pattern of a block says that it goes on. -/
theorem role_of_planned (htable : r.rules.table.Sound) {b : LineState × Delimiter}
    (h : r.continuing? b.1 = some b.2) {c : Cursor} {m : RuleMatch}
    (hm : planned plan text b c = .ok (some m)) : m.role = .continues := by
  obtain ⟨opening, inside, hbody⟩ := exists_block_of_continuing? h
  have hrole := role_mem_of_search hm
  have hown : (ownPattern b).role = b.2.pattern.role := by
    unfold ownPattern
    split <;> rfl
  rw [List.map_singleton, List.mem_singleton, hown] at hrole
  exact hrole.trans (htable.suits hbody).2

/-- **Where a block is tried, what is planned is found** for the text of the frame on top, or is
refused. -/
theorem matchContinuing_asPlanned (hplan : r.engine.KeepsTo plan) (text : String) (c : Cursor) :
    Ensures (fun t => t.searching.cache.ContinuingFaithful plan r.rules.table)
      (r.matchContinuing text c)
      (fun m t => t.searching.cache.ContinuingFaithful plan r.rules.table ∧
        search plan (r.rules.table.continuingWith c.state.top.rule c.state.top.closing) c.anchors
          text c.position = .ok m)
      (fun e t => ∃ refusal, e = .refused refusal ∧
        t.searching.cache.ContinuingFaithful plan r.rules.table ∧
        search plan (r.rules.table.continuingWith c.state.top.rule c.state.top.closing) c.anchors
          text c.position = .error refusal) :=
  search_ensures_refused (Search.continuing_finds
    (C := fun c => c.ContinuingFaithful plan r.rules.table) hplan (fun _ h => h)
    (fun _ _ _ _ h hl hpatterns => h.put hl hpatterns) c.state.top.rule c.state.top.closing
    c.anchors text c.position)

/-- **Searching keeps the lists of continuing patterns faithful.** -/
theorem keptInCache_continuingFaithful (hplan : r.engine.KeepsTo plan) :
    r.KeptInCache fun c => c.ContinuingFaithful plan r.rules.table where
  inside := fun text c id closing =>
    (search_ensures (P := fun s => s.cache.ContinuingFaithful plan r.rules.table)
      (p := fun _ => True) ((Search.inside_keeps
        (C := fun c => c.ContinuingFaithful plan r.rules.table) (fun _ _ h => h) id closing
        c.anchors text c.position).mono (fun _ h => h) (fun _ _ h => ⟨h, trivial⟩)
        (fun _ _ h => h))).mono (fun _ h => h) (fun _ _ h => h.1) (fun _ _ h => h)
  continuing := fun text c => (matchContinuing_asPlanned hplan text c).mono (fun _ h => h)
    (fun _ _ h => h.1) (fun _ _ ⟨_, _, h, _⟩ => h)

/-! ## The open blocks of states that remain -/

/-- The only open block of the lowest frame is that frame, if it is a block. -/
theorem openBlocks_lowest (top : Frame) :
    r.openBlocks ⟨top, []⟩ =
      ((r.continuing? ⟨top, []⟩).map ((⟨top, []⟩ : LineState), ·)).toList := by
  unfold openBlocks LineState.chain LineState.chainOf
  cases hblock : r.continuing? ⟨top, []⟩ <;> simp [hblock]

/-- The open blocks are those of the state below, and the frame on top if it is a block. -/
theorem openBlocks_eq {s below : LineState} (h : s.pop? = some below) :
    r.openBlocks s = r.openBlocks below ++ ((r.continuing? s).map (s, ·)).toList := by
  obtain ⟨top, fs⟩ := s
  cases fs with
  | nil => simp [LineState.pop?] at h
  | cons f fs =>
    obtain rfl := Option.some.inj h
    unfold openBlocks
    show (List.filterMap _ (⟨top, f :: fs⟩ :: LineState.chain ⟨f, fs⟩)).reverse = _
    rw [List.filterMap_cons]
    cases hblock : r.continuing? ⟨top, f :: fs⟩ with
    | none => simp
    | some continuing => simp

/-- What follows a last element of an append follows one of the first part, if it is not the last
element itself. -/
theorem eq_or_exists_of_append_singleton {α : Type} {list earlier later : List α} {x b : α}
    (h : list ++ [x] = earlier ++ b :: later) :
    (list = earlier ∧ x = b) ∨ ∃ later', list = earlier ++ b :: later' := by
  obtain rfl | ⟨later, y, rfl⟩ := List.eq_nil_or_concat later
  · obtain ⟨hlist, hx⟩ := List.append_inj' h rfl
    exact .inl ⟨hlist, List.head_eq_of_cons_eq hx⟩
  · rw [List.concat_eq_append, ← List.cons_append, ← List.append_assoc] at h
    exact .inr ⟨later, (List.append_inj' h rfl).1⟩

/-- **In the state in which an open block is on top**, the open blocks are those before it and the
block itself. -/
theorem openBlocks_of_eq_append {s : LineState} {earlier later : List (LineState × Delimiter)}
    {b : LineState × Delimiter} (h : r.openBlocks s = earlier ++ b :: later) :
    r.openBlocks b.1 = earlier ++ [b] := by
  obtain ⟨top, below⟩ := s
  induction below generalizing top later with
  | nil =>
    have hblocks := r.openBlocks_lowest top
    cases hblock : r.continuing? ⟨top, []⟩ with
    | none =>
      rw [hblocks, hblock] at h
      simp at h
    | some continuing =>
      rw [hblock] at hblocks
      rw [hblocks] at h
      obtain ⟨rfl, rfl⟩ | ⟨later', h⟩ := eq_or_exists_of_append_singleton (show [] ++ _ = _ from h)
      · exact hblocks
      · simp at h
  | cons f fs ih =>
    have hblocks := openBlocks_eq (r := r) (s := ⟨top, f :: fs⟩) rfl
    cases hblock : r.continuing? ⟨top, f :: fs⟩ with
    | none =>
      rw [hblocks, hblock] at h
      rw [Option.map_none, Option.toList_none, List.append_nil] at h
      exact ih f h
    | some continuing =>
      rw [hblock] at hblocks
      rw [hblocks] at h
      obtain ⟨rfl, rfl⟩ | ⟨later', h⟩ := eq_or_exists_of_append_singleton h
      · exact hblocks
      · exact ih f h

/-- An open block is never the lowest frame, which only holds others. -/
theorem exists_pop?_of_mem_openBlocks {name : String} (hrules : r.rules.Sound name)
    {good : AttributedPath → Prop} {s : LineState} (hs : s.Sound r.rules.root good)
    {b : LineState × Delimiter} (hb : b ∈ r.openBlocks s) : b.1.pop? = some b.1.pop := by
  obtain ⟨opening, inside, hbody⟩ := exists_block_of_continuing? (continuing?_of_mem_openBlocks hb)
  have hsound := hs.chain b.1 (Kept.mem_chain_of_mem_openBlocks b hb)
  cases hbelow : b.1.below with
  | nil =>
    obtain ⟨held, hroot⟩ := hrules.root
    rw [hsound.rule_eq_root hbelow, RuleTable.body?, hroot] at hbody
    simp at hbody
  | cons f fs => simp [LineState.pop, LineState.pop?, hbelow]

/-! ## The blocks of a line -/

/-- The cursor after some blocks have gone on. -/
def cursorAfter (start : LineState) (first : Bool) (held : List HeldBlock) : Cursor :=
  held.foldl (fun c b => c.after b.2) (lineStart start first)

variable {start : LineState} {first : Bool} {held : List HeldBlock}

theorem cursorAfter_append (held : List HeldBlock) (b : HeldBlock) :
    cursorAfter start first (held ++ [b]) = (cursorAfter start first held).after b.2 := by
  simp [cursorAfter]

theorem state_cursorAfter : (cursorAfter start first held).state = start := by
  induction held using List.reverseRecOn with
  | nil => rfl
  | append_singleton held b ih => rw [cursorAfter_append, Cursor.state_after, ih]

theorem position_cursorAfter :
    (cursorAfter start first held).position = (held.map (·.2.stop)).foldl max 0 := by
  induction held using List.reverseRecOn with
  | nil => rfl
  | append_singleton held b ih =>
    rw [cursorAfter_append, Cursor.position_after, ih, List.map_append, List.foldl_append]
    rfl

/-- **What comes of trying the open blocks** where a line begins. -/
structure BlocksHeld (plan : Plan) (r : LineReader σ) (text : String) (start : LineState)
    (first : Bool) (held : List HeldBlock) (left : List (LineState × Delimiter)) (c : Cursor) :
    Prop where
  /-- Of the open blocks, outermost first, some are held, and the others are left. -/
  blocks : r.openBlocks start = held.map (·.1) ++ left
  /-- The pattern of each block that is held is found, after those before it have been. -/
  holds : ∀ earlier b captures later, held = earlier ++ (b, captures) :: later →
    planned plan text b (cursorAfter start first earlier) = .ok (some ⟨.continues, captures⟩)
  /-- It is looked for from where the match of the block before it ended, if the engine stays in
  range. -/
  resumes : r.engine.InRange → ∀ earlier later, held = earlier ++ later →
    (cursorAfter start first earlier).position = earlier.getLast?.elim 0 (·.2.stop)
  /-- If all are held, the state stays as it was. -/
  all : left = [] → c.state = start
  /-- If one is left, its pattern is not found, and what is below it stays. -/
  closes : ∀ b rest, left = b :: rest →
    planned plan text b (cursorAfter start first held) = .ok none ∧ b.1.pop? = some c.state
  /-- The open blocks after that are those that are held. -/
  kept : r.openBlocks c.state = held.map (·.1)
  /-- The cursor stands at the greatest end of their matches. -/
  position : c.position = (held.map (·.2.stop)).foldl max 0

/-- **Why the open blocks of a line cannot be tried**: after some have been held, the pattern of one
is refused, or it is found and its groups cannot be read. -/
structure BlocksFail (plan : Plan) (r : LineReader σ) (depth : Nat) (text : String)
    (start : LineState) (first : Bool) (held : List HeldBlock) (b : LineState × Delimiter)
    (rest : List (LineState × Delimiter)) (e : LineError) : Prop where
  /-- The open blocks are those that are held, the one that fails, and others. -/
  blocks : r.openBlocks start = held.map (·.1) ++ b :: rest
  /-- The pattern of each block that is held is found, after those before it have been. -/
  holds : ∀ earlier b captures later, held = earlier ++ (b, captures) :: later →
    planned plan text b (cursorAfter start first earlier) = .ok (some ⟨.continues, captures⟩)
  /-- Its own pattern is refused, or its groups cannot be read. -/
  fails : (∃ refusal, e = .refused refusal ∧
      planned plan text b (cursorAfter start first held) = .error refusal) ∨
    ∃ captures t t', planned plan text b (cursorAfter start first held) =
        .ok (some ⟨.continues, captures⟩) ∧
      (r.hold (r.readOn depth) text { cursorAfter start first held with state := b.1 } b.2
        captures).run t = .error e t'

/-- What is planned for an engine in range lies within the text, from the cursor on. -/
theorem within_of_planned (hplan : r.engine.KeepsTo plan) (hrange : r.engine.InRange) (state : σ)
    {b : LineState × Delimiter} {c : Cursor} {m : RuleMatch}
    (h : planned plan text b c = .ok (some m)) :
    m.captures.Within c.position text.utf8ByteSize := by
  obtain ⟨p, -, -, f, hfinds, -, hcaptures⟩ := findsPattern_of_search hplan h
  obtain ⟨s, state', hmade, hf⟩ := hfinds state
  rw [← hcaptures]
  exact hrange text c.position f ⟨s, ⟨_, state, state', hmade⟩, state, _, Prod.ext (hf state) rfl⟩

/-- **The blocks that are held are found to go on as planned.** -/
theorem Tries.holds_asPlanned (hplan : r.engine.KeepsTo plan) {depth : Nat}
    {blocks left : List (LineState × Delimiter)} {c : Cursor} {before t : Reading σ}
    (hblocks : ∀ b ∈ blocks, r.continuing? b.1 = some b.2)
    (hbefore : before.searching.cache.ContinuingFaithful plan r.rules.table)
    (h : r.Tries (r.readOn depth) text blocks (lineStart start first) before held left c t) :
    t.searching.cache.ContinuingFaithful plan r.rules.table ∧
      ∀ earlier b captures later, held = earlier ++ (b, captures) :: later →
        planned plan text b (cursorAfter start first earlier) =
          .ok (some ⟨.continues, captures⟩) := by
  have hkept := keptInCache_continuingFaithful hplan
  induction h with
  | begins => exact ⟨hbefore, fun _ _ _ _ h => by simp at h⟩
  | @holds held b rest c captures t t₁ t₂ hearlier hfound hrun ih =>
    have hb : b ∈ blocks := by
      rw [hearlier.blocks_eq]
      exact List.mem_append_right _ List.mem_cons_self
    obtain ⟨ht₁, hplanned⟩ := (matchContinuing_asPlanned hplan text _).ok ih.1 hfound
    refine ⟨(KeptInCache.cuts (hold_cuts _ _ _) (hkept.readOn depth)).ok ht₁ hrun, ?_⟩
    intro earlier b' captures' later heq
    obtain ⟨rfl, hlast⟩ | ⟨later, heq⟩ := eq_or_exists_of_append_singleton heq
    · obtain ⟨rfl, rfl⟩ := Prod.mk.inj hlast
      rw [cursorAfter, ← hearlier.cursor_eq, planned, ← continuingWith_eq (hblocks b hb)]
      exact hplanned
    · exact ih.2 earlier b' captures' later heq

/-- **Beginning a line holds the blocks that go on**, up to the first that does not. -/
theorem blocksHeld_of_beginLine (hplan : r.engine.KeepsTo plan) {name : String}
    (hrules : r.rules.Sound name) {good : AttributedPath → Prop}
    (hstart : start.Sound r.rules.root good) {depth : Nat} {before t : Reading σ}
    (hbefore : before.searching.cache.ContinuingFaithful plan r.rules.table) {c : Cursor}
    (hrun : (r.beginLine (r.readOn depth) text start first).run before = .ok c t) :
    ∃ held left, BlocksHeld plan r text start first held left c := by
  rw [beginLine_eq] at hrun
  obtain ⟨held, left, c₁, t₁, htries, htried⟩ := exists_tries_of_continueBlocks .begins hrun
  have hblocks : ∀ b ∈ r.openBlocks start, r.continuing? b.1 = some b.2 := fun b hb =>
    continuing?_of_mem_openBlocks hb
  obtain ⟨ht₁, hholds⟩ := htries.holds_asPlanned hplan hblocks hbefore
  obtain rfl : c₁ = cursorAfter start first held := htries.cursor_eq
  have hresumes : r.engine.InRange → ∀ earlier later, held = earlier ++ later →
      (cursorAfter start first earlier).position = earlier.getLast?.elim 0 (·.2.stop) := by
    intro hrange earlier later heq
    obtain rfl | ⟨earlier, ⟨b, captures⟩, rfl⟩ := List.eq_nil_or_concat earlier
    · rfl
    · rw [List.concat_eq_append] at heq ⊢
      have hwithin := within_of_planned hplan hrange before.searching.engine
        (hholds earlier b captures later (by simpa using heq))
      rw [cursorAfter_append, Cursor.position_after, List.getLast?_concat]
      exact Nat.max_eq_right (hwithin.le_start.trans hwithin.start_le_stop)
  refine ⟨held, left, ?_⟩
  cases htried with
  | all =>
    have hkept : r.openBlocks (cursorAfter start first held).state = held.map (·.1) := by
      rw [state_cursorAfter, htries.blocks_eq, List.append_nil]
    exact ⟨htries.blocks_eq, hholds, hresumes, fun _ => state_cursorAfter,
      fun _ _ h => by simp at h, hkept, position_cursorAfter⟩
  | @closes b rest m _ hfound hother =>
    have hb : b ∈ r.openBlocks start := by
      rw [htries.blocks_eq]
      exact List.mem_append_right _ List.mem_cons_self
    have hplanned : planned plan text b (cursorAfter start first held) = .ok m := by
      rw [planned, ← continuingWith_eq (hblocks b hb)]
      exact ((matchContinuing_asPlanned hplan text _).ok ht₁ hfound).2
    have hpop := exists_pop?_of_mem_openBlocks hrules hstart hb
    have hkept : r.openBlocks b.1.pop = held.map (·.1) := by
      have hown := openBlocks_of_eq_append htries.blocks_eq
      rw [openBlocks_eq hpop, hblocks b hb] at hown
      exact (List.append_inj' hown rfl).1
    refine ⟨htries.blocks_eq, hholds, hresumes, fun h => by simp at h, fun b' rest' heq => ?_,
      hkept, position_cursorAfter⟩
    obtain ⟨rfl, rfl⟩ := List.cons.inj heq
    refine ⟨?_, hpop⟩
    cases m with
    | none => exact hplanned
    | some m =>
      have hrole := role_of_planned hrules.table (hblocks b hb) hplanned
      obtain ⟨role, captures⟩ := m
      obtain rfl : role = .continues := hrole
      exact absurd rfl (hother captures)

/-- **Beginning a line fails** at the first block that cannot be tried. -/
theorem blocksFail_of_beginLine (hplan : r.engine.KeepsTo plan) {depth : Nat}
    {before t : Reading σ}
    (hbefore : before.searching.cache.ContinuingFaithful plan r.rules.table) {e : LineError}
    (hrun : (r.beginLine (r.readOn depth) text start first).run before = .error e t) :
    ∃ held b rest, BlocksFail plan r depth text start first held b rest e := by
  rw [beginLine_eq] at hrun
  obtain ⟨held, b, rest, c, t₁, htries, hfails⟩ := exists_tryFails_of_continueBlocks .begins hrun
  have hblocks : ∀ b ∈ r.openBlocks start, r.continuing? b.1 = some b.2 := fun b hb =>
    continuing?_of_mem_openBlocks hb
  obtain ⟨ht₁, hholds⟩ := htries.holds_asPlanned hplan hblocks hbefore
  obtain rfl : c = cursorAfter start first held := htries.cursor_eq
  have hb : b ∈ r.openBlocks start := by
    rw [htries.blocks_eq]
    exact List.mem_append_right _ List.mem_cons_self
  have hown := continuingWith_eq (hblocks b hb)
  refine ⟨held, b, rest, htries.blocks_eq, hholds, ?_⟩
  cases hfails with
  | search hrun =>
    obtain ⟨refusal, rfl, -, hrefused⟩ := (matchContinuing_asPlanned hplan text _).error ht₁ hrun
    exact .inl ⟨refusal, rfl, by rw [planned, ← hown]; exact hrefused⟩
  | groups hfound hrun =>
    have hplanned := ((matchContinuing_asPlanned hplan text _).ok ht₁ hfound).2
    exact .inr ⟨_, _, _, by rw [planned, ← hown]; exact hplanned, hrun⟩

end LineReader

namespace Session

variable {catalog : Catalog} {d : Definition} {rules : Ruleset} {engine : Engine σ} {theme : Theme}
  {language : Nat} {configuration : Option Configuration}

/-- **All sessions keep of the cache what searching keeps**, whatever the grammar. -/
theorem Reached.keptInCache (hrules : Ruleset.ofDefinition catalog d = .ok rules)
    {C : ScannerCache σ → Prop} (hempty : C {})
    (hC : ∀ r : LineReader σ, r.rules = rules → r.engine = engine → r.KeptInCache C)
    {s : Session σ} (hs : Reached (.make rules theme engine language configuration) s) :
    C s.searching.cache := by
  have hread : ∀ {s : Session σ}, Reached (.make rules theme engine language configuration) s →
      ∀ line previous budget, Ensures (fun t => C t.cache) (s.highlighter.read line previous budget)
        (fun _ t => C t.cache) (fun _ t => C t.cache) := by
    intro s hs line previous budget t ht
    have hsound := hs.sound_of_ofDefinition hrules
    have hline := (hC s.highlighter.reader hsound.rules hsound.engine).readLine (line ++ "\n")
      (previous.elim s.highlighter.initialState (·.reset)) previous.isNone budget ⟨t, {}⟩ ht
    rw [Highlighter.run_read]
    split at hline
    · next hrun =>
      rw [hrun]
      exact hline
    · next hrun =>
      rw [hrun]
      exact hline
  induction hs with
  | begins engine => exact hempty
  | reads line budget before _ run ih => exact (hread before line _ budget).ok ih run
  | fails line budget before _ run ih => exact (hread before line _ budget).error ih run
  | retheme theme before ih => exact ih
  | relimits limits before ih => exact ih
  | shares engine before ih => exact ih

/-- **Where a line begins, the blocks that go on are held**: the open blocks are tried from the
outermost inwards, each by its own continuing pattern from where the match of the one before ended,
and the first that is not found is taken away with all that is above it. It fails only where a block
cannot be tried, after those before it have been held in this way. -/
theorem Reached.blocksHeld (hrules : Ruleset.ofDefinition catalog d = .ok rules) {plan : Plan}
    (hplan : engine.KeepsTo plan) {s : Session σ}
    (hs : Reached (.make rules theme engine language configuration) s) (line : String)
    {previous : Option LineState} (hprevious : ∀ p ∈ previous, p ∈ s.states) (depth : Nat) :
    match (s.highlighter.reader.beginLine (s.highlighter.reader.readOn depth) (line ++ "\n")
      (previous.elim s.highlighter.initialState (·.reset)) previous.isNone).run
        ⟨s.searching, {}⟩ with
    | .ok c _ => ∃ held left, LineReader.BlocksHeld plan s.highlighter.reader (line ++ "\n")
        (previous.elim s.highlighter.initialState (·.reset)) previous.isNone held left c
    | .error e _ => ∃ held b rest, LineReader.BlocksFail plan s.highlighter.reader depth
        (line ++ "\n") (previous.elim s.highlighter.initialState (·.reset)) previous.isNone held b
        rest e := by
  have hsound := Ruleset.sound_of_ofDefinition hrules
  have hcache := hs.keptInCache hrules (C := fun c => c.ContinuingFaithful plan rules.table)
    (fun _ _ h => by simp [Keyed.get?] at h) fun r hr he =>
      hr ▸ LineReader.keptInCache_continuingFaithful (he ▸ hplan)
  have hs := hs.sound_of_ofDefinition hrules
  have hstate := hs.state_of_previous hsound (fun _ => trivial) hprevious
  have hrules' : s.highlighter.reader.rules = rules := hs.rules
  have hengine' : s.highlighter.reader.engine = engine := hs.engine
  rw [← hrules'] at hsound hcache
  rw [← hengine'] at hplan
  split
  · next hrun => exact LineReader.blocksHeld_of_beginLine hplan hsound hstate hcache hrun
  · next hrun => exact LineReader.blocksFail_of_beginLine hplan hcache hrun

/-- A grammar of quotations that go on with the sign that opened them, and may be quoted again. -/
def quotes : Definition where
  scopeName := "text"
  patterns := [{
    name := some "quote"
    opening := some "([>|])"
    continuing := some "\\1"
    patterns := some [{ reference := some "$self" }] }]

/-- Its session with a line that opens two quotations. -/
def quoteSession : Session Unit := regexSession quotes [[">|a"]]

/-- Of two quotations by one rule, the outer one goes on with its own sign, and the inner one, whose
sign is another, does not. -/
theorem blocksHeld_quotes : ∃ p ∈ quoteSession.states, ∃ c t,
    (quoteSession.highlighter.reader.beginLine (quoteSession.highlighter.reader.readOn 1) ">b\n"
      p.reset false).run ⟨quoteSession.searching, {}⟩ = .ok c t ∧
    ∃ outer inner, LineReader.BlocksHeld Regex.plan quoteSession.highlighter.reader ">b\n" p.reset
      false [outer] [inner] c ∧ outer.1.1.top.rule = inner.1.top.rule ∧
      outer.1.1.top.closing = some ">" ∧ inner.1.top.closing = some "\\|" ∧ c.position = 1 := by
  have hbegins : ∃ p ∈ quoteSession.states,
      (quoteSession.highlighter.reader.openBlocks p.reset).map
        (fun b => (b.1.top.rule, b.1.top.closing)) = [(⟨2⟩, some ">"), (⟨2⟩, some "\\|")] ∧
      (match (quoteSession.highlighter.reader.beginLine (quoteSession.highlighter.reader.readOn 1)
          ">b\n" p.reset false).run ⟨quoteSession.searching, {}⟩ with
        | .ok c _ => some ((quoteSession.highlighter.reader.openBlocks c.state).length, c.position)
        | .error .. => none) = some (1, 1) := by
    decide +kernel
  obtain ⟨p, hp, hopen, hrun⟩ := hbegins
  split at hrun
  · next c t hrun' =>
    obtain ⟨hlength, hposition⟩ := Prod.mk.inj (Option.some.inj hrun)
    obtain ⟨hrules, hs⟩ := ofGrammar_regexSession (d := quotes) (by decide +kernel) [[">|a"]]
    have hprevious : ∀ q ∈ some p, q ∈ quoteSession.states := fun q hq => Option.some.inj hq ▸ hp
    have hblocksHeld := Reached.blocksHeld hrules Engine.keepsTo_regex (s := quoteSession) hs ">b"
      hprevious 1
    simp only [Option.elim_some, Option.isNone_some] at hblocksHeld
    rw [show ">b" ++ "\n" = ">b\n" from rfl, hrun'] at hblocksHeld
    obtain ⟨held, left, hheld⟩ := hblocksHeld
    -- as many blocks are held as remain open
    have hone : held.length = 1 := by
      rw [← List.length_map (·.1), ← hheld.kept]
      exact hlength
    obtain ⟨outer, rfl⟩ := List.length_eq_one_iff.1 hone
    have hblocks : quoteSession.highlighter.reader.openBlocks p.reset = outer.1 :: left :=
      hheld.blocks
    rw [hblocks, List.map_cons] at hopen
    obtain ⟨houter, hleft⟩ := List.cons.inj hopen
    obtain ⟨inner, rfl, hinner⟩ := List.map_eq_singleton_iff.1 hleft
    obtain ⟨hrule, hclosing⟩ := Prod.mk.inj houter
    obtain ⟨hrule', hclosing'⟩ := Prod.mk.inj hinner
    exact ⟨p, hp, c, t, hrun', outer, inner, hheld, hrule.trans hrule'.symm, hclosing, hclosing',
      hposition⟩
  · simp at hrun

end Session

end Highlight
