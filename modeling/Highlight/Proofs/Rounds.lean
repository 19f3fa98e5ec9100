import Highlight.Line.Rounds
import Highlight.Proofs.Groups

/-!
# What rounds keep

What a round does to the frames is told by the match that it takes, whatever the texts of its
groups are read on as. It **turns** the cursor: the line ends, the region on top is left, a region
or a block is opened, or a match is passed by. A turn keeps the frames sound, and so do all rounds
of a line. A line that is read to its end has been cut up to its end.

That rounds come to an end is not shown here. A cursor **ends within** a number of rounds if no
turns lead further than that, and then rounds that are allowed as many do not run out of them.
-/

namespace Highlight

open Grammar

variable {σ : Type}

/-- The state that a round leads to. -/
def Round.state : Round → LineState
  | .next c => c.state
  | .done s => s

/-- **The pattern that ends** what a rule opens: the closing pattern of a region, or the continuing
pattern of a block. -/
def Grammar.RuleBody.ending? : RuleBody → Option Pattern
  | .region _ closing _ _ => some closing.pattern
  | .block _ continuing _ => some continuing.pattern
  | .single _ | .choice _ | .capture _ => none

namespace LineReader

/-- The frame of a rule that a match enters. -/
def entering (r : LineReader σ) (text : String) (c : Cursor) (m : RuleMatch) (id : RuleId)
    (rule : Rule) : Frame :=
  let scopes := r.nameScopes c.state.top.contentScopes rule.name text m.captures
  ⟨id, some c.position, c.anchor, m.stop == text.utf8ByteSize, none, scopes, scopes⟩

/-- The frames once a region or a block is open. -/
def opened (r : LineReader σ) (text : String) (c : Cursor) (m : RuleMatch) (frame : Frame)
    (contentName : Option ScopeTemplate) (ending : Pattern) : LineState :=
  let entered := (c.state.push frame).withContentScopes
    (r.nameScopes frame.nameScopes contentName text m.captures)
  if ending.hasReferences then entered.withClosing (ending.resolve text m.captures) else entered

/-- The frames once a region is closed, but not left yet. -/
def closed (c : Cursor) : LineState := c.state.withContentScopes c.state.top.nameScopes

/-- **The turns of a round**, given the match that it takes. -/
inductive Turn (r : LineReader σ) (text : String) (c : Cursor) : Option RuleMatch → Round → Prop
  /-- The line ends and nothing changes. -/
  | rest (m : Option RuleMatch) : Turn r text c m (.done c.state)
  /-- The line ends in a rule that matched the empty text. -/
  | stuck (m : RuleMatch) : Turn r text c (some m) (.done c.state.pop)
  /-- The line ends in a region that is closed where it was entered. -/
  | stays (m : RuleMatch) : Turn r text c (some m) (.done (closed c))
  /-- The region on top is left. -/
  | leaves (m : RuleMatch) (role : m.role = .close)
      (earlier : ¬ (m.stop ≤ c.position ∧ c.state.top.entered = some c.position)) :
      Turn r text c (some m) (.next (Cursor.advance
        { c with state := (closed c).pop, anchor := c.state.top.anchor } m.stop))
  /-- A region or a block is opened. -/
  | opens (m : RuleMatch) (id : RuleId) (rule : Rule) (ending : Pattern)
      (role : m.role = .enter id) (found : r.rules.table.get? id = some rule)
      (ends : rule.body.ending? = some ending)
      (other : ¬ (m.stop ≤ c.position ∧ c.state.reenters (r.entering text c m id rule))) :
      Turn r text c (some m) (.next (Cursor.advance
        { c with
          state := r.opened text c m (r.entering text c m id rule) rule.contentName ending
          anchor := some m.stop } m.stop))
  /-- A match is passed by. -/
  | passes (m : RuleMatch) (further : ¬ m.stop ≤ c.position) :
      Turn r text c (some m) (.next (c.advance m.stop))

/-- **The cursor ends within** a number of rounds: turns by what is on offer lead no further. -/
inductive EndsWithin (r : LineReader σ) (text : String) : Nat → Cursor → Prop
  /-- Every turn leads to where one round less is enough. -/
  | round {n : Nat} {c : Cursor} (turns : ∀ m c', (∀ m' ∈ m, r.Offers text c m') →
      r.Turn text c m (.next c') → EndsWithin r text n c') : EndsWithin r text (n + 1) c

namespace Kept

variable {r : LineReader σ} {K : r.Kept} {text : String} {c : Cursor}

/-! ## Turns -/

theorem state_closed (h : K.State c.state) : K.State (closed c) :=
  h.withContentScopes (.refl _) (State.name h)

theorem scopes_entering (h : K.State c.state) (m : RuleMatch) (id : RuleId) (rule : Rule) :
    K.scopes (r.entering text c m id rule).nameScopes :=
  K.scopes_nameScopes (State.content h) rule.name text m.captures

/-- The frame that is entered may be put on top. -/
theorem state_push_entering (h : K.State c.state) (m : RuleMatch) (id : RuleId) (rule : Rule) :
    K.State (c.state.push (r.entering text c m id rule)) :=
  h.push (r.nameScopes_extends _ rule.name text m.captures) (.refl _)
    ⟨K.scopes_entering h m id rule, K.scopes_entering h m id rule⟩

theorem state_opened (h : K.State c.state) (m : RuleMatch) (id : RuleId) (rule : Rule)
    (contentName : Option ScopeTemplate) (ending : Pattern) :
    K.State (r.opened text c m (r.entering text c m id rule) contentName ending) := by
  have hpushed : K.State (c.state.push (r.entering text c m id rule)) :=
    K.state_push_entering h m id rule
  have hentered := hpushed.withContentScopes (r.nameScopes_extends _ contentName text m.captures)
    (K.scopes_nameScopes (K.scopes_entering h m id rule) contentName text m.captures)
  unfold opened
  dsimp only
  split
  · refine hentered.withClosing ?_ _
    exact List.cons_ne_nil _ _
  · exact hentered

/-- **Turns keep the frames sound.** -/
theorem state_turn {m : Option RuleMatch} {R : Round} (h : K.State c.state)
    (hturn : r.Turn text c m R) : K.State R.state := by
  cases hturn with
  | rest => exact h
  | stuck => exact h.pop
  | stays => exact K.state_closed h
  | leaves m =>
    rw [Round.state, state_advance]
    exact (K.state_closed h).pop
  | opens m id rule ending =>
    rw [Round.state, state_advance]
    exact K.state_opened h m id rule rule.contentName ending
  | passes m =>
    rw [Round.state, state_advance]
    exact h

/-- A turn that goes on leads to where reading may stand. -/
theorem stands_turn {m : Option RuleMatch} {c' : Cursor} (h : K.Stands text c)
    (hm : ∀ m' ∈ m, r.Offers text c m') (hturn : r.Turn text c m (.next c')) :
    K.Stands text c' := by
  refine ⟨h.text, ?_, K.state_turn h.state hturn⟩
  have hstop : ∀ m' ∈ m, K.position text m'.stop :=
    fun m' hm' => (allowsAll_of_offers h.text (hm m' hm')).stop h.text
  cases hturn with
  | leaves m => exact position_advance h.position (hstop m rfl)
  | opens m => exact position_advance h.position (hstop m rfl)
  | passes m => exact position_advance h.position (hstop m rfl)

/-! ## Rounds -/

/-- **What holds after a round**: everything is kept, the round is the turn of a match on offer,
and a line that ends is cut up to its end. -/
structure Turned (K : r.Kept) (text : String) (c : Cursor) (R : Round) (t : Reading σ) : Prop where
  /-- Everything is kept. -/
  sound : K.Sound t
  /-- The turn. -/
  turn : ∃ m, (∀ m' ∈ m, r.Offers text c m') ∧ r.Turn text c m R
  /-- A line that ends is cut up to its end. -/
  ended : ∀ s, R = .done s → text.utf8ByteSize ≤ t.segments.reached

/-- A match on offer turns the cursor. -/
theorem turn_of_offers {m : RuleMatch} (hm : r.Offers text c m) {R : Round}
    (hturn : r.Turn text c (some m) R) :
    ∃ m, (∀ m' ∈ m, r.Offers text c m') ∧ r.Turn text c m R :=
  ⟨some m, fun _ hm' => Option.some.inj hm' ▸ hm, hturn⟩

theorem finish_ensures (h : K.Stands text c) {s : LineState}
    (hturn : ∃ m, (∀ m' ∈ m, r.Offers text c m') ∧ r.Turn text c m (.done s)) :
    Ensures K.Sound (finish text s) (K.Turned text c) K.Fails := by
  have hs : K.State s := by
    obtain ⟨m, -, hturn⟩ := hturn
    exact K.state_turn h.state hturn
  refine Ensures.bind (M := fun _ t => K.Sound t ∧ text.utf8ByteSize ≤ t.segments.reached)
    (Ensures.modifyGet (fun t ht => ⟨⟨ht.cache, ?_⟩, ?_⟩)) (fun _ => ?_)
  · exact K.produce t.segments _ text _ ht.segments (State.content hs) (K.whole text h.text)
  · dsimp only
    rw [Segments.reached_produce]
    exact Nat.le_max_right _ _
  · exact Ensures.pure (fun t ht => ⟨ht.1, hturn, fun _ _ => ht.2⟩)

/-- A round goes on to a cursor. -/
theorem next_ensures {c' : Cursor}
    (hturn : ∃ m, (∀ m' ∈ m, r.Offers text c m') ∧ r.Turn text c m (.next c')) :
    Ensures K.Sound (pure (.next c') : Read σ Round) (K.Turned text c) K.Fails :=
  Ensures.pure (fun t ht => ⟨ht, hturn, fun s hs => by simp at hs⟩)

variable {quits : LineError → Prop} {f g : ReadOn σ}

theorem closeRegion_follows (hanswers : K.Answers quits f g) (hc : K.Stands text c)
    {m : RuleMatch} (hm : r.Offers text c m) (hrole : m.role = .close) :
    Follows quits K.Sound (r.closeRegion f text c m) (r.closeRegion g text c m)
      (K.Turned text c) K.Fails := by
  have hallows : K.AllowsAll text m.captures := allowsAll_of_offers hc.text hm
  have hclosed : K.Stands text { c with state := closed c } :=
    ⟨hc.text, hc.position, K.state_closed hc.state⟩
  unfold closeRegion
  dsimp only
  refine Follows.bind (K.produce_ensures (State.content hc.state) (hallows.start hc.text)).follows
    (fun _ => ?_)
  refine Follows.bind (readCaptures_follows hanswers hclosed _ hallows) (fun _ => ?_)
  refine Follows.bind
    (K.produce_ensures (State.content hclosed.state) (hallows.stop hc.text)).follows (fun _ => ?_)
  split
  · exact (finish_ensures hc (turn_of_offers hm (.stays m))).follows
  · next hearlier =>
    exact (next_ensures (turn_of_offers hm (.leaves m hrole hearlier))).follows

theorem openRegion_follows (hanswers : K.Answers quits f g) (hc : K.Stands text c)
    {m : RuleMatch} (hm : r.Offers text c m) {id : RuleId} (hrole : m.role = .enter id)
    {rule : Rule} (hrule : r.rules.table.get? id = some rule) (opening : CaptureRules)
    {ending : Pattern} (hends : rule.body.ending? = some ending) :
    Follows quits K.Sound
      (r.openRegion f text c m (r.entering text c m id rule) opening rule.contentName ending)
      (r.openRegion g text c m (r.entering text c m id rule) opening rule.contentName ending)
      (K.Turned text c) K.Fails := by
  have hallows : K.AllowsAll text m.captures := allowsAll_of_offers hc.text hm
  have hentered : K.Stands text { c with state := c.state.push (r.entering text c m id rule) } :=
    ⟨hc.text, hc.position, K.state_push_entering hc.state m id rule⟩
  unfold openRegion
  dsimp only
  refine Follows.bind (readCaptures_follows hanswers hentered _ hallows) (fun _ => ?_)
  refine Follows.bind
    (K.produce_ensures (K.scopes_entering hc.state m id rule) (hallows.stop hc.text)).follows
    (fun _ => ?_)
  split
  · exact (finish_ensures hc (turn_of_offers hm (.rest _))).follows
  · next hother =>
    have hturn := Turn.opens m id rule ending hrole hrule hends hother
    exact (next_ensures (turn_of_offers hm hturn)).follows

theorem enterRule_follows (hanswers : K.Answers quits f g) (hc : K.Stands text c)
    {m : RuleMatch} (hm : r.Offers text c m) {id : RuleId} (hrole : m.role = .enter id)
    {rule : Rule} (hrule : r.rules.table.get? id = some rule) :
    Follows quits K.Sound (r.enterRule f text c m id rule) (r.enterRule g text c m id rule)
      (K.Turned text c) K.Fails := by
  have hallows : K.AllowsAll text m.captures := allowsAll_of_offers hc.text hm
  unfold enterRule
  dsimp only
  refine Follows.bind (K.produce_ensures (State.content hc.state) (hallows.start hc.text)).follows
    (fun _ => ?_)
  split
  · next hbody => exact openRegion_follows hanswers hc hm hrole hrule _ (by rw [hbody]; rfl)
  · next hbody => exact openRegion_follows hanswers hc hm hrole hrule _ (by rw [hbody]; rfl)
  · have hentered : K.Stands text { c with state := c.state.push (r.entering text c m id rule) } :=
      ⟨hc.text, hc.position, K.state_push_entering hc.state m id rule⟩
    refine Follows.bind (readCaptures_follows hanswers hentered _ hallows) (fun _ => ?_)
    refine Follows.bind
      (K.produce_ensures (K.scopes_entering hc.state m id rule) (hallows.stop hc.text)).follows
      (fun _ => ?_)
    split
    · exact (finish_ensures hc (turn_of_offers hm (.stuck m))).follows
    · next hfurther => exact (next_ensures (turn_of_offers hm (.passes m hfurther))).follows
  · exact (finish_ensures hc (turn_of_offers hm (.rest _))).follows
  · exact (finish_ensures hc (turn_of_offers hm (.rest _))).follows

/-- **A round is a turn.** -/
theorem round_follows (hanswers : K.Answers quits f g) (hc : K.Stands text c) :
    Follows quits K.Sound (r.round f text c) (r.round g text c) (K.Turned text c) K.Fails := by
  unfold LineReader.round
  refine Follows.bind (K.nextMatch_ensures text c).follows (fun m => ?_)
  refine Follows.assuming (fun hm => ?_)
  split
  · exact (finish_ensures hc ⟨none, hm, .rest none⟩).follows
  · next m =>
    have hoffer : r.Offers text c m := hm m rfl
    split
    · next hrole => exact closeRegion_follows hanswers hc hoffer hrole
    · exact (finish_ensures hc ⟨some m, hm, .rest _⟩).follows
    · next id hrole =>
      split
      · exact (finish_ensures hc ⟨some m, hm, .rest _⟩).follows
      · next rule hrule => exact enterRule_follows hanswers hc hoffer hrole hrule

/-- **What holds after the rounds of a line**: everything is kept, the frames are sound, and
unless reading stopped before the end the line is cut up to its end. -/
structure Ended (K : r.Kept) (text : String) (budget : Option Nat) (p : LineState × Bool)
    (t : Reading σ) : Prop where
  /-- Everything is kept. -/
  sound : K.Sound t
  /-- The frames are sound. -/
  state : K.State p.1
  /-- A line that is read to its end is cut up to there. -/
  reached : p.2 = false → text.utf8ByteSize ≤ t.segments.reached
  /-- Without a budget, a line is read to its end. -/
  unstopped : budget = none → p.2 = false

/-- **The rounds of a line.** They do not run out of rounds if the cursor ends within as many as
are allowed. -/
theorem rounds_follows (hanswers : K.Answers quits f g) {limit : Nat} (budget : Option Nat)
    (hc : K.Stands text c) (hlimit : K.error .unending ∨ r.EndsWithin text limit c) :
    Follows quits K.Sound (r.rounds f text limit budget c) (r.rounds g text limit budget c)
      (K.Ended text budget) K.Fails := by
  induction limit generalizing budget c with
  -- without rounds left, the cursor cannot end within them
  | zero =>
    have hunending : K.error .unending := hlimit.resolve_right (fun h => by cases h)
    exact (Ensures.throw (fun t ht => ⟨hunending, ht⟩)).follows
  | succ limit ih =>
    rw [rounds, rounds]
    split
    · next hbudget =>
      refine (Ensures.pure (fun t ht => ⟨ht, hc.state, by simp, fun hnone => ?_⟩)).follows
      rw [hnone] at hbudget
      exact absurd hbudget (by simp)
    -- a round is a turn, and after a turn that goes on the induction hypothesis applies
    · refine Follows.bind (round_follows hanswers hc) (fun R => ?_)
      cases R with
      | done s =>
        refine (Ensures.pure (fun t ht => ?_)).follows
        obtain ⟨m, -, hturn⟩ := ht.turn
        exact ⟨ht.sound, K.state_turn hc.state hturn, fun _ => ht.ended s rfl, fun _ => rfl⟩
      | next c' =>
        intro t ht
        obtain ⟨m, hm, hturn⟩ := ht.turn
        have hlimit' : K.error .unending ∨ r.EndsWithin text limit c' :=
          hlimit.imp_right (fun ⟨hturns⟩ => hturns m c' hm hturn)
        refine (ih (budget.map (· - 1)) (stands_turn hc hm hturn) hlimit').mono
          (fun _ h => h) (fun p t h => ?_) (fun _ _ h => h) t ht.sound
        exact ⟨h.sound, h.state, h.reached, fun hnone => h.unstopped (by rw [hnone]; rfl)⟩

/-! ## Lines -/

/-- **Rounds are enough**: running out of them is no surprise, or they end within their limit
wherever reading may stand. -/
def Enough (K : r.Kept) : Prop :=
  K.error .unending ∨
    ∀ text c, K.Stands text c → r.EndsWithin text (r.roundLimit text c.state) c

theorem readGroup_answers (henough : K.Enough) (hanswers : K.Answers quits f g) :
    K.Answers quits (r.readGroup f) (r.readGroup g) := by
  intro text c hc _
  have hlimit := henough.imp_right (fun h => h text c hc)
  unfold readGroup
  refine Follows.bind (rounds_follows hanswers none hc hlimit) (fun _ => ?_)
  exact (Ensures.pure (fun t ht => ht.sound)).follows

/-- Whatever its depth, what reads on the texts of groups keeps everything. -/
theorem readOn_answers (henough : K.Enough) (hdepth : K.error .depth) (depth : Nat) :
    K.Answers quits (r.readOn depth) (r.readOn depth) := by
  induction depth with
  | zero => exact fun _ _ _ _ => (Ensures.throw (fun t ht => ⟨hdepth, ht⟩)).follows
  | succ depth ih => exact readGroup_answers henough ih

/-- **Reading a line** from a sound state. -/
theorem readLineWith_follows (henough : K.Enough) (hanswers : K.Answers quits f g)
    (htext : K.text text) {s : LineState} (hs : K.State s) (first : Bool)
    (budget : Option Nat) :
    Follows quits K.Sound (r.readLineWith f text s first budget)
      (r.readLineWith g text s first budget) (K.Ended text budget) K.Fails := by
  unfold readLineWith
  refine Follows.bind (beginLine_follows hanswers htext hs first) (fun c => ?_)
  refine Follows.assuming (fun hc => ?_)
  exact rounds_follows hanswers budget hc.1 (henough.imp_right (fun h => h text c hc.1))

/-- Reading a line keeps everything. -/
theorem readLine_ensures (henough : K.Enough) (hdepth : K.error .depth)
    (htext : K.text text) {s : LineState} (hs : K.State s) (first : Bool)
    (budget : Option Nat) :
    Ensures K.Sound (r.readLine text s first budget) (K.Ended text budget) K.Fails :=
  (readLineWith_follows henough (readOn_answers henough hdepth r.limits.levels) htext hs first
    budget).ensures

end Kept

end LineReader

end Highlight
