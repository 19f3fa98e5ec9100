import Highlight.Proofs.Closing
import Highlight.Proofs.Continuing

/-!
# Where anchors hold

A pattern may ask that a match begin where the document begins, `\A`, or where the last region was
entered or continued, `\G`. Whether these anchors hold is not looked up in the text. It is told by
the cursor, which is carried through blocks that go on, through regions that are entered and left,
and into the texts of groups, and which a frame puts back as it was when the frame is left.

So it has to be shown that the cursor tells the truth. The places that reading comes to are followed
together with the ends of all matches so far that opened a region or a block, or continued a block.
Where the cursor says that `\A` holds, it stands at the beginning of the first line. Where it says
that `\G` holds, it stands where one of those matches ended, or at the beginning of a line if the
frame on top was entered with the end of the line before.
-/

namespace Highlight

open Grammar

variable {σ : Type}

namespace LineState

/-- The positions at which `\G` held when the frames were entered are among some. -/
def AnchorsIn (ok : Nat → Prop) (s : LineState) : Prop := ∀ f ∈ s.frames, ∀ n ∈ f.anchor, ok n

namespace AnchorsIn

variable {ok ok' : Nat → Prop} {s : LineState}

theorem mono (h : s.AnchorsIn ok) (hok : ∀ n, ok n → ok' n) : s.AnchorsIn ok' :=
  fun f hf n hn => hok n (h f hf n hn)

theorem initial (id : RuleId) (scopes : AttributedPath) : (initial id scopes).AnchorsIn ok := by
  intro f hf n hn
  obtain rfl := List.mem_singleton.1 hf
  simp [LineState.initial] at hn

theorem reset (s : LineState) : s.reset.AnchorsIn ok := by
  intro f hf n hn
  rw [frames_reset] at hf
  obtain ⟨g, -, rfl⟩ := List.mem_map.1 hf
  simp [forget] at hn

theorem push (h : s.AnchorsIn ok) {f : Frame} (hf : ∀ n ∈ f.anchor, ok n) :
    (s.push f).AnchorsIn ok := List.forall_mem_cons.2 ⟨hf, h⟩

theorem pop (h : s.AnchorsIn ok) : s.pop.AnchorsIn ok := by
  obtain ⟨top, below⟩ := s
  cases below with
  | nil => exact h
  | cons f fs => exact (List.forall_mem_cons.1 h).2

theorem withContentScopes (h : s.AnchorsIn ok) (scopes : AttributedPath) :
    (s.withContentScopes scopes).AnchorsIn ok :=
  List.forall_mem_cons.2 (List.forall_mem_cons.1 h)

end AnchorsIn

end LineState

/-! ## Cursors -/

/-- **`\G` may hold at a position**: a match that set it ends there, or the line begins there and
the match before the line took in its end. -/
def AnchorAt (ends : List Nat) (tookLineEnd : Bool) (n : Nat) : Prop :=
  n ∈ ends ∨ n = 0 ∧ tookLineEnd = true

/-- **A cursor tells the truth** about anchors, given the ends of the matches that have set them. -/
structure Cursor.Truthful (first : Bool) (ends : List Nat) (tookLineEnd : Bool) (c : Cursor) :
    Prop where
  /-- Where nothing has been read, the first line begins. -/
  first : c.first = true → first = true ∧ c.position = 0
  /-- The position at which `\G` holds. -/
  anchor : ∀ n ∈ c.anchor, AnchorAt ends tookLineEnd n
  /-- The positions that are put back. -/
  frames : c.state.AnchorsIn (AnchorAt ends tookLineEnd)

namespace Cursor.Truthful

variable {first : Bool} {ends : List Nat} {tookLineEnd : Bool} {c : Cursor}

theorem mono (h : c.Truthful first ends tookLineEnd) (more : List Nat) :
    c.Truthful first (ends ++ more) tookLineEnd :=
  have hok : ∀ n, AnchorAt ends tookLineEnd n → AnchorAt (ends ++ more) tookLineEnd n :=
    fun _ hn => hn.imp_left (List.mem_append_left more)
  ⟨h.first, fun n hn => hok n (h.anchor n hn), h.frames.mono hok⟩

theorem advance (h : c.Truthful first ends tookLineEnd) (n : Nat) :
    (c.advance n).Truthful first ends tookLineEnd := by
  unfold Cursor.advance
  split
  · exact ⟨fun hfirst => by simp at hfirst, h.anchor, h.frames⟩
  · exact h

theorem withState (h : c.Truthful first ends tookLineEnd) {s : LineState}
    (hs : s.AnchorsIn (AnchorAt ends tookLineEnd)) :
    ({ c with state := s } : Cursor).Truthful first ends tookLineEnd := ⟨h.first, h.anchor, hs⟩

theorem withAnchor (h : c.Truthful first ends tookLineEnd) {anchor : Option Nat}
    (hanchor : ∀ n ∈ anchor, AnchorAt ends tookLineEnd n) :
    ({ c with anchor := anchor } : Cursor).Truthful first ends tookLineEnd :=
  ⟨h.first, hanchor, h.frames⟩

end Cursor.Truthful

namespace LineReader

/-! ## Where scanners are asked for -/

/-- The ends of the matches of blocks that went on. -/
def heldEnds (held : List HeldBlock) : List Nat := held.filterMap (·.2.whole?.map (·.stop))

/-- The end of a match that opens a region or a block. -/
def begunEnds (r : LineReader σ) (m : Option RuleMatch) : List Nat :=
  match m with
  | some ⟨.enter id, captures⟩ =>
    if (r.rules.ending? id).isSome then [captures.stop] else []
  | _ => []

/-- **The places that reading a line comes to**, with the ends of the matches so far that opened a
region or a block, or continued a block. -/
inductive Seeks (r : LineReader σ) (line : String) (start : LineState) (first : Bool)
    (searching : Searching σ) : List Nat → Nat → String → Cursor → Reading σ → Prop
  /-- The open blocks have been tried. -/
  | begins {held : List HeldBlock} {left : List (LineState × Delimiter)} {c₁ c : Cursor}
      {t₁ t : Reading σ}
      (tries : r.Tries (r.readOn r.limits.levels) line (r.openBlocks start)
        (lineStart start first) ⟨searching, {}⟩ held left c₁ t₁)
      (tried : r.Tried line c₁ t₁ left c t) :
      Seeks r line start first searching (heldEnds held) r.limits.levels line c t
  /-- A round goes on. -/
  | goesOn {ends : List Nat} {depth : Nat} {text : String} {c c' : Cursor} {t t₁ t' : Reading σ}
      {m : Option RuleMatch}
      (before : Seeks r line start first searching ends depth text c t)
      (found : (r.nextMatch text c).run t = .ok m t₁)
      (run : (r.take (r.readOn depth) text c m).run t₁ = .ok (.next c') t') :
      Seeks r line start first searching (ends ++ r.begunEnds m) depth text c' t'
  /-- The text of a group is read on in a round. -/
  | readsOn {ends : List Nat} {depth : Nat} {text text' : String} {c c' : Cursor}
      {t t' : Reading σ}
      (before : Seeks r line start first searching ends (depth + 1) text c t)
      (group : Consults (fun f => r.round f text c) (r.readOn (depth + 1)) t text' c' t') :
      Seeks r line start first searching ends depth text' c' t'
  /-- The text of a group of a block that goes on is read on. -/
  | readsOnBefore {held : List HeldBlock} {b : LineState × Delimiter}
      {rest : List (LineState × Delimiter)} {depth : Nat} {captures : Captures} {text : String}
      {c₁ c : Cursor} {t₁ t₂ t : Reading σ}
      (tries : r.Tries (r.readOn r.limits.levels) line (r.openBlocks start)
        (lineStart start first) ⟨searching, {}⟩ held (b :: rest) c₁ t₁)
      (found : (r.matchContinuing line { c₁ with state := b.1 }).run t₁ =
        .ok (some ⟨.continues, captures⟩) t₂)
      (limit : r.limits.levels = depth + 1)
      (group : Consults (fun f => r.hold f line { c₁ with state := b.1 } b.2 captures)
        (r.readOn (depth + 1)) t₂ text c t) :
      Seeks r line start first searching (heldEnds held) depth text c t

/-- **A scanner is asked for** while a line is read, with the anchors of the cursor, and searches a
text from the position of the cursor on: the scanner of the continuing pattern of a block that is
tried, and, wherever a round begins, those of the rule on top and of injections. -/
inductive Asks (r : LineReader σ) (line : String) (start : LineState) (first : Bool)
    (searching : Searching σ) : List Nat → String → Anchors → Nat → Prop
  /-- A block is tried. -/
  | continuing {held : List HeldBlock} {b : LineState × Delimiter}
      {rest : List (LineState × Delimiter)} {c : Cursor} {t : Reading σ}
      (tries : r.Tries (r.readOn r.limits.levels) line (r.openBlocks start)
        (lineStart start first) ⟨searching, {}⟩ held (b :: rest) c t) :
      Asks r line start first searching (heldEnds held) line c.anchors c.position
  /-- A round begins. -/
  | inside {ends : List Nat} {depth : Nat} {text : String} {c : Cursor} {t : Reading σ}
      (place : r.Seeks line start first searching ends depth text c t) :
      Asks r line start first searching ends text c.anchors c.position

variable {r : LineReader σ} {line : String} {start : LineState} {first : Bool}
  {searching : Searching σ}

/-- **All places that reading a line comes to are followed.** -/
theorem exists_seeks_of_comesTo {depth : Nat} {text : String} {c : Cursor} {t : Reading σ}
    (h : r.ComesTo line start first searching depth text c t) :
    ∃ ends, r.Seeks line start first searching ends depth text c t := by
  induction h with
  | begins hrun =>
    rw [beginLine_eq] at hrun
    obtain ⟨held, left, c₁, t₁, htries, htried⟩ := exists_tries_of_continueBlocks .begins hrun
    exact ⟨_, .begins htries htried⟩
  | goesOn _ hrun ih =>
    obtain ⟨ends, hbefore⟩ := ih
    obtain ⟨m, t₁, hfound, htake, -⟩ := exists_taken_of_round hrun
    exact ⟨_, .goesOn hbefore hfound htake⟩
  | readsOn _ hgroup ih =>
    obtain ⟨ends, hbefore⟩ := ih
    exact ⟨_, .readsOn hbefore hgroup⟩
  | readsOnBefore hlimit hgroup =>
    rw [← hlimit] at hgroup
    obtain ⟨held, b, rest, c₁, t₁, captures, t₂, htries, hfound, hhold⟩ :=
      exists_tries_of_consults .begins hgroup
    rw [hlimit] at hhold
    exact ⟨_, .readsOnBefore htries hfound hlimit hhold⟩

/-- The text of a group is read on from a truthful cursor. -/
theorem truthful_of_readsOn {ends : List Nat} {tookLineEnd : Bool} {text text' : String}
    {c c' : Cursor} {captures : Captures} (h : c.Truthful first ends tookLineEnd)
    (hgroup : r.ReadsOn text c captures text' c') : c'.Truthful first ends tookLineEnd := by
  cases hgroup with
  | @group id within name contentName s inner =>
    refine ⟨fun hfirst => ?_, fun n hn => by simp at hn, h.frames.push fun n hn => by simp at hn⟩
    obtain ⟨hc, hstart⟩ := Bool.and_eq_true_iff.1 hfirst
    exact ⟨(h.first hc).1, beq_iff_eq.1 hstart⟩

/-- The frames that the groups of a match are read inside of tell the truth. -/
theorem anchorsIn_of_inside {ends : List Nat} {tookLineEnd : Bool} {text : String} {c : Cursor}
    {m : RuleMatch} {s : LineState} (h : c.Truthful first ends tookLineEnd)
    (hs : r.Inside text c m s) : s.AnchorsIn (AnchorAt ends tookLineEnd) := by
  cases hs with
  | closes => exact h.frames.withContentScopes _
  | enters => exact h.frames.push h.anchor

/-- **Turns keep the cursor truthful.** -/
theorem truthful_of_turn {ends : List Nat} {tookLineEnd : Bool} {text : String} {c c' : Cursor}
    {m : Option RuleMatch} (h : c.Truthful first ends tookLineEnd)
    (hturn : r.Turn text c m (.next c')) :
    c'.Truthful first (ends ++ r.begunEnds m) tookLineEnd := by
  cases hturn with
  | leaves m =>
    have hanchor : ∀ n ∈ c.state.top.anchor, AnchorAt ends tookLineEnd n :=
      h.frames c.state.top List.mem_cons_self
    exact (((h.withState (h.frames.withContentScopes _).pop).withAnchor hanchor).advance _).mono _
  | opens m id rule ending hrole hrule hends =>
    have hbegun : r.begunEnds (some m) = [m.stop] := by
      obtain ⟨role, captures⟩ := m
      obtain rfl : role = .enter id := hrole
      have hending : (r.rules.ending? id).isSome = true := by
        rw [Ruleset.ending?, RuleTable.body?, hrule]
        exact Option.isSome_iff_exists.2 ⟨ending, hends⟩
      exact if_pos hending
    have hopened : (r.opened text c m (r.entering text c m id rule) rule.contentName
        ending).AnchorsIn (AnchorAt ends tookLineEnd) := by
      unfold opened
      dsimp only
      split
      · exact h.frames.push h.anchor
      · exact h.frames.push h.anchor
    refine (((h.withState hopened).mono _).withAnchor fun n hn => .inl ?_).advance _
    obtain rfl := Option.some.inj hn
    rw [hbegun]
    exact List.mem_append_right _ (List.mem_singleton_self _)
  | passes m => exact (h.advance _).mono _

/-- The states in which the open blocks of a line are on top tell the truth if the state at its
beginning does. -/
theorem anchorsIn_of_mem_openBlocks {ok : Nat → Prop} {s : LineState} (h : s.AnchorsIn ok)
    {b : LineState × Delimiter} (hb : b ∈ r.openBlocks s) : b.1.AnchorsIn ok :=
  LineState.forall_mem_chain (fun _ hs => hs.pop) h b.1 (Kept.mem_chain_of_mem_openBlocks b hb)

/-- **Blocks that go on keep the cursor truthful.** -/
theorem truthful_of_tries {f : ReadOn σ} {text : String} {t₀ : Reading σ}
    {blocks left : List (LineState × Delimiter)} {held : List HeldBlock} {c : Cursor}
    {t : Reading σ} (hstart : start.AnchorsIn fun _ => False)
    (h : r.Tries f text blocks (lineStart start first) t₀ held left c t) :
    c.Truthful first (heldEnds held) start.top.tookLineEnd := by
  induction h with
  | begins =>
    refine ⟨fun hfirst => ⟨hfirst, rfl⟩, fun n hn => ?_, hstart.mono fun _ => False.elim⟩
    obtain ⟨htook, hn⟩ := Option.ite_none_right_eq_some.1 hn
    exact .inr ⟨(Option.some.inj hn).symm, htook⟩
  | @holds held b rest c captures t t₁ t₂ _ _ _ ih =>
    have hends : heldEnds (held ++ [(b, captures)]) =
        heldEnds held ++ (captures.whole?.map (·.stop)).toList := by
      cases hwhole : captures.whole? <;> simp [heldEnds, hwhole]
    rw [hends]
    unfold Cursor.after
    cases hwhole : captures.whole? with
    | none => exact ih.mono _
    | some whole =>
      refine ((ih.mono _).withAnchor fun n hn => .inl ?_).advance _
      obtain rfl := Option.some.inj hn
      exact List.mem_append_right _ (List.mem_singleton_self _)

/-- **The cursor tells the truth at every place** that reading a line comes to. -/
theorem Seeks.truthful (hstart : start.AnchorsIn fun _ => False) {ends : List Nat} {depth : Nat}
    {text : String} {c : Cursor} {t : Reading σ}
    (h : r.Seeks line start first searching ends depth text c t) :
    c.Truthful first ends start.top.tookLineEnd := by
  have hblock : ∀ b ∈ r.openBlocks start, ∀ ends,
      b.1.AnchorsIn (AnchorAt ends start.top.tookLineEnd) := fun b hb _ =>
    (anchorsIn_of_mem_openBlocks hstart hb).mono fun _ => False.elim
  induction h with
  | @begins held left c₁ c t₁ t htries htried =>
    have hc := truthful_of_tries hstart htries
    cases htried with
    | all => exact hc
    | @closes b rest =>
      have hmem : b ∈ r.openBlocks start := by
        rw [htries.blocks_eq]
        exact List.mem_append_right _ List.mem_cons_self
      exact hc.withState (hblock b hmem _).pop
  | goesOn _ hfound htake ih =>
    exact truthful_of_turn ih ((take_takes _).ok True.intro htake).turn
  | readsOn _ hgroup ih =>
    obtain ⟨m, t₁, hfound, m', hm', s, hs, hgroup⟩ := matchCalls_of_consults hgroup
    exact truthful_of_readsOn (ih.withState (anchorsIn_of_inside ih hs)) hgroup
  | @readsOnBefore held b rest depth captures text c₁ c t₁ t₂ t htries hfound hlimit hgroup =>
    have hmem : b ∈ r.openBlocks start := by
      rw [htries.blocks_eq]
      exact List.mem_append_right _ List.mem_cons_self
    have hc := truthful_of_tries hstart htries
    exact truthful_of_readsOn (hc.withState (hblock b hmem _))
      ((hold_cuts _ _ _).about_of_consults hgroup)

/-- Where a scanner is asked for, its anchors are those of a truthful cursor. -/
theorem Asks.anchors (hstart : start.AnchorsIn fun _ => False) {ends : List Nat} {text : String}
    {a : Anchors} {position : Nat} (h : r.Asks line start first searching ends text a position) :
    (a.start = true → first = true ∧ position = 0) ∧
      (a.resume = true → AnchorAt ends start.top.tookLineEnd position) := by
  have htruthful : ∀ c : Cursor, c.Truthful first ends start.top.tookLineEnd →
      (c.anchors.start = true → first = true ∧ c.position = 0) ∧
        (c.anchors.resume = true → AnchorAt ends start.top.tookLineEnd c.position) :=
    fun c hc => ⟨hc.first, fun hresume => hc.anchor _ (beq_iff_eq.1 hresume)⟩
  cases h with
  | continuing htries => exact htruthful _ (truthful_of_tries hstart htries)
  | inside hplace => exact htruthful _ (hplace.truthful hstart)

end LineReader

namespace Session

/-- **The scanners that are asked for** while a line of a session is read. -/
abbrev Asks (s : Session σ) (line : String) (previous : Option LineState) :
    List Nat → String → Anchors → Nat → Prop :=
  s.highlighter.reader.Asks (line ++ "\n") (previous.elim s.highlighter.initialState (·.reset))
    previous.isNone s.searching

end Session

end Highlight
