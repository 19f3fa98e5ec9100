import Highlight.Proofs.History
import Highlight.Proofs.Literal
import Mathlib.Data.Finset.Card
import Mathlib.Data.Finset.Range
import Mathlib.Tactic.Ring

/-!
# Rounds come to an end

A round that does not go forward ends the line, leaves a region that was entered elsewhere, or
enters a rule that was not entered here. It is the frames on top that were entered at the position
that count: as long as rules are entered, they become more, and no rule is among them twice. When
a region is left they are none, and then frames become fewer. So the sum of

* the number of frames,
* twice the number of rules that are not among the frames on top that were entered here,
* more than twice the number of rules, for every byte ahead

goes down with every round. Frames below the top may have been entered here as well, at the time
when the text around a group was read, and they are none of the rules that count: the sum goes
down also where they come to the top, since a frame is left for that.

All of this rests on what compiling yields: that only regions are closed, that the lowest frame is
none, and that what is entered is in the table. A rule that an injection offers must not be a
region, or its closing pattern would close whatever is on top.
-/

namespace Highlight

open Grammar

variable {σ : Type}

/-! ## The roles of what is looked for -/

namespace Grammar.RuleTable

variable {t : RuleTable}

/-- What a rule can be entered by enters a rule. -/
theorem role_of_mem_entries (ht : t.Sound) {depth : Nat} {around : List RuleId} {id : RuleId}
    {p : Pattern} (hp : p ∈ t.entries depth around id) : ∃ entered, p.role = .enter entered := by
  induction depth generalizing around id with
  | zero => simp [entries] at hp
  | succ depth ih =>
    rw [entries] at hp
    split at hp
    · next hbody =>
      rw [List.mem_singleton.1 hp]
      exact ⟨id, ht.suits hbody⟩
    · next hbody =>
      rw [List.mem_singleton.1 hp]
      exact ⟨id, (ht.suits hbody).1⟩
    · next hbody =>
      rw [List.mem_singleton.1 hp]
      exact ⟨id, (ht.suits hbody).1⟩
    · split at hp
      · simp at hp
      · obtain ⟨inner, -, hp⟩ := List.mem_flatMap.1 hp
        exact ih hp
    · simp at hp
    · simp at hp

theorem role_of_mem_entriesInside (ht : t.Sound) {inside : Inside} {p : Pattern}
    (hp : p ∈ t.entriesInside inside) : ∃ entered, p.role = .enter entered := by
  obtain ⟨id, -, hp⟩ := List.mem_flatMap.1 hp
  exact role_of_mem_entries ht hp

/-- **What is looked for inside a rule** enters a rule, or closes the rule, which is a region. -/
theorem role_of_mem_rolesOf (ht : t.Sound) {id : RuleId} {role : Role} (h : role ∈ t.rolesOf id) :
    (∃ entered, role = .enter entered) ∨
      (role = .close ∧ ∃ opening closing last inside,
        t.body? id = some (.region opening closing last inside)) := by
  obtain ⟨p, hp, rfl⟩ := List.mem_map.1 h
  unfold patternsOf at hp
  split at hp
  · next hbody =>
    rw [List.mem_singleton.1 hp]
    exact .inl ⟨id, ht.suits hbody⟩
  · exact .inl (role_of_mem_entries ht hp)
  · next opening closing last inside hbody =>
    have hrole : p = closing.pattern ∨ p ∈ t.entriesInside inside := by
      split at hp
      · exact (List.mem_append.1 hp).symm.imp_left List.mem_singleton.1
      · exact List.mem_cons.1 hp
    obtain rfl | hp := hrole
    · exact .inr ⟨(ht.suits hbody).2, opening, closing, last, inside, hbody⟩
    · exact .inl (role_of_mem_entriesInside ht hp)
  · exact .inl (role_of_mem_entriesInside ht hp)
  · simp at hp
  · simp at hp

end Grammar.RuleTable

/-- What a rule does is to open a region. -/
def Grammar.RuleBody.isRegion : RuleBody → Bool
  | .region .. => true
  | .single _ | .choice _ | .block .. | .capture _ => false

/-- **Injections are harmless**: none of them is a region. -/
def Grammar.Ruleset.Harmless (rules : Ruleset) : Prop :=
  ∀ i ∈ rules.injections, (rules.table.body? i.rule).any (·.isRegion) = false

instance (rules : Ruleset) : Decidable rules.Harmless :=
  inferInstanceAs (Decidable (∀ i ∈ rules.injections, _ = false))

/-! ## Rounds that do not go forward -/

/-- The frames on top that were entered at a position. -/
def LineState.block (s : LineState) (position : Nat) : List Frame :=
  s.frames.takeWhile (·.entered == some position)

namespace LineReader

/-- **A round is guarded**: it ends the line, or goes forward in the text, or leaves a region that
was entered elsewhere, or enters a rule of the table that is not among the frames on top that were
entered here. -/
inductive Guarded (r : LineReader σ) (text : String) (c : Cursor) : Round → Prop
  /-- The line ends. -/
  | ends (s : LineState) : Guarded r text c (.done s)
  /-- Reading goes forward. -/
  | advances {c' : Cursor} (ahead : c.position < c'.position)
      (inside : c'.position ≤ text.utf8ByteSize) (depth : c'.state.depth ≤ c.state.depth + 1) :
      Guarded r text c (.next c')
  /-- A region is left that was entered elsewhere. -/
  | pops {c' : Cursor} (here : c'.position = c.position)
      (elsewhere : c.state.top.entered ≠ some c.position)
      (popped : c'.state.frames = c.state.below) : Guarded r text c (.next c')
  /-- A rule is entered that is not among the frames on top that were entered here. -/
  | pushes {c' : Cursor} {rule : Rule} (here : c'.position = c.position)
      (pushed : c'.state.below = c.state.frames) (entered : c'.state.top.entered = some c.position)
      (found : r.rules.table.get? c'.state.top.rule = some rule)
      (new : c'.state.top.rule ∉ (c.state.block c.position).map (·.rule)) :
      Guarded r text c (.next c')

variable {r : LineReader σ} {text : String} {c : Cursor} {m : RuleMatch}

/-- A match that is on offer is for one of the patterns of a rule. -/
theorem role_mem_of_foundFor {e : Engine σ} {position : Nat} {roles : List Role}
    (h : Search.FoundFor e text position roles m) : m.role ∈ roles := by
  obtain ⟨f, -, hrole, -⟩ := h
  exact List.mem_of_getElem? hrole

/-- No match that ends after the text is on offer. -/
theorem stop_le_of_offers (hengine : r.engine.InRange) (h : r.Offers text c m) :
    m.stop ≤ text.utf8ByteSize := by
  have hfound : ∀ {roles}, Search.FoundFor r.engine text c.position roles m →
      m.stop ≤ text.utf8ByteSize := by
    rintro roles ⟨f, hf, -, hcaptures⟩
    have := (hengine text c.position f hf).stop_le
    rwa [hcaptures] at this
  obtain h | ⟨i, -, h⟩ := h
  · exact hfound h
  · exact hfound h

/-- Only a region is closed, and never the lowest frame. -/
theorem below_ne_nil_of_close {name : String} (hrules : r.rules.Sound name)
    (hharmless : r.rules.Harmless) {good : AttributedPath → Prop}
    (hc : c.state.Sound r.rules.root good) (h : r.Offers text c m) (hrole : m.role = .close) :
    c.state.below ≠ [] := by
  obtain h | ⟨i, hi, h⟩ := h
  · obtain ⟨id, hid⟩ | ⟨-, opening, closing, last, inside, hbody⟩ :=
      RuleTable.role_of_mem_rolesOf hrules.table (role_mem_of_foundFor h)
    · rw [hrole] at hid
      simp at hid
    · intro hbelow
      obtain ⟨held, hroot⟩ := hrules.root
      rw [hc.rule_eq_root hbelow, RuleTable.body?, hroot] at hbody
      simp at hbody
  · obtain ⟨id, hid⟩ | ⟨-, opening, closing, last, inside, hbody⟩ :=
      RuleTable.role_of_mem_rolesOf hrules.table (role_mem_of_foundFor h)
    · rw [hrole] at hid
      simp at hid
    · have := hharmless i hi
      rw [hbody] at this
      simp [RuleBody.isRegion] at this

theorem advance_eq_self {c : Cursor} {n : Nat} (h : n ≤ c.position) : c.advance n = c := by
  rw [Cursor.advance, if_neg (Nat.not_lt.2 h)]

/-- A round that goes forward is guarded, if it does not add two frames. -/
theorem guarded_advance {c' : Cursor} (hhere : c'.position = c.position) {n : Nat}
    (hahead : c.position < n) (hinside : n ≤ text.utf8ByteSize)
    (hdepth : c'.state.depth ≤ c.state.depth + 1) : r.Guarded text c (.next (c'.advance n)) := by
  have hposition : (c'.advance n).position = n := by
    rw [Cursor.advance, if_pos (hhere ▸ hahead)]
  refine .advances ?_ ?_ ?_
  · rw [hposition]
    exact hahead
  · rw [hposition]
    exact hinside
  · rw [Kept.state_advance]
    exact hdepth

theorem frames_pop {s : LineState} (h : s.below ≠ []) : s.pop.frames = s.below := by
  obtain ⟨top, below⟩ := s
  cases below with
  | nil => exact absurd rfl h
  | cons f fs => rfl

/-- The frames once a region or a block is open are one more, of the rule that was entered. -/
theorem opened_spec (r : LineReader σ) (text : String) (c : Cursor) (m : RuleMatch)
    (frame : Frame) (contentName : Option ScopeTemplate) (ending : Pattern) :
    (r.opened text c m frame contentName ending).below = c.state.frames ∧
      (r.opened text c m frame contentName ending).top.rule = frame.rule ∧
      (r.opened text c m frame contentName ending).top.entered = frame.entered := by
  unfold opened
  dsimp only
  split
  · exact ⟨rfl, rfl, rfl⟩
  · exact ⟨rfl, rfl, rfl⟩

/-- **Every turn is guarded.** -/
theorem guarded_of_turn {name : String} (hrules : r.rules.Sound name)
    (hharmless : r.rules.Harmless) (hengine : r.engine.InRange) {good : AttributedPath → Prop}
    (hc : c.state.Sound r.rules.root good) {m : Option RuleMatch}
    (hm : ∀ m' ∈ m, r.Offers text c m') {R : Round} (hturn : r.Turn text c m R) :
    r.Guarded text c R := by
  cases hturn with
  | rest => exact .ends _
  | stuck => exact .ends _
  | stays => exact .ends _
  | leaves m hrole hearlier =>
    have hbelow := below_ne_nil_of_close hrules hharmless hc (hm m rfl) hrole
    have hframes : (closed c).pop.frames = c.state.below := frames_pop hbelow
    -- either the match takes a step forward, or the region was entered at another place
    by_cases hahead : c.position < m.stop
    · refine guarded_advance ?_ hahead (stop_le_of_offers hengine (hm m rfl)) ?_
      · rfl
      · rw [LineState.depth, hframes, LineState.depth, LineState.frames, List.length_cons]
        omega
    · have hle : m.stop ≤ c.position := Nat.le_of_not_lt hahead
      rw [advance_eq_self]
      · exact .pops rfl (fun hentered => hearlier ⟨hle, hentered⟩) hframes
      · exact hle
  | opens m id rule ending hrole hfound _ hother =>
    obtain ⟨hbelow, hrule, hentered⟩ :=
      r.opened_spec text c m (r.entering text c m id rule) rule.contentName ending
    -- either the match takes a step forward, or the rule was not entered at this place before
    by_cases hahead : c.position < m.stop
    · refine guarded_advance ?_ hahead (stop_le_of_offers hengine (hm m rfl)) ?_
      · rfl
      · rw [LineState.depth, LineState.frames, hbelow]
        exact Nat.le_refl _
    · have hle : m.stop ≤ c.position := Nat.le_of_not_lt hahead
      rw [advance_eq_self]
      · have hrule : (r.opened text c m (r.entering text c m id rule) rule.contentName
            ending).top.rule = id := hrule
        refine .pushes rfl hbelow hentered (by rw [hrule]; exact hfound) ?_
        intro hmem
        obtain ⟨f, hf, hfrule⟩ := List.mem_map.1 hmem
        refine hother ⟨hle, List.any_eq_true.2 ⟨f, hf, ?_⟩⟩
        rw [hfrule, hrule]
        exact beq_self_eq_true _
      · exact hle
  | passes m hfurther =>
    have hahead : c.position < m.stop := Nat.lt_of_not_le hfurther
    exact guarded_advance rfl hahead (stop_le_of_offers hengine (hm m rfl)) (Nat.le_succ _)

/-! ## The measure -/

/-- The rules that are **fresh**, by their places in the table: those that are not among the
frames on top that were entered here. -/
def fresh (r : LineReader σ) (c : Cursor) : Finset Nat :=
  (Finset.range r.rules.table.size).filter
    (fun n => (⟨n + 1⟩ : RuleId) ∉ (c.state.block c.position).map (·.rule))

/-- **The measure of a cursor.** -/
def measure (r : LineReader σ) (text : String) (c : Cursor) : Nat :=
  c.state.depth + 2 * (r.fresh c).card +
    (2 * r.rules.table.size + 2) * (text.utf8ByteSize - c.position)

theorem card_fresh_le (r : LineReader σ) (c : Cursor) : (r.fresh c).card ≤ r.rules.table.size := by
  rw [← Finset.card_range r.rules.table.size]
  exact Finset.card_filter_le _ _

/-- All rules are fresh where the frame on top was entered elsewhere. -/
theorem card_fresh_of_elsewhere (h : c.state.top.entered ≠ some c.position) :
    (r.fresh c).card = r.rules.table.size := by
  have hblock : c.state.block c.position = [] := by
    rw [LineState.block, LineState.frames, List.takeWhile_cons_of_neg (by simpa using h)]
  rw [fresh, hblock, Finset.filter_true_of_mem (by simp), Finset.card_range]

/-- Entering a fresh rule leaves fewer. -/
theorem card_fresh_lt {c' : Cursor} (hhere : c'.position = c.position)
    (hpushed : c'.state.below = c.state.frames)
    (hentered : c'.state.top.entered = some c.position) {rule : Rule}
    (hfound : r.rules.table.get? c'.state.top.rule = some rule)
    (hnew : c'.state.top.rule ∉ (c.state.block c.position).map (·.rule)) :
    (r.fresh c').card < (r.fresh c).card := by
  have hblock : c'.state.block c'.position = c'.state.top :: c.state.block c.position := by
    rw [LineState.block, LineState.frames, hpushed, hhere,
      List.takeWhile_cons_of_pos (by simpa using hentered)]
    rfl
  obtain ⟨n, hn, hsize⟩ := RuleTable.exists_place hfound
  -- what is fresh after the rule was entered is what was fresh before, the rule excepted
  have hmem : ∀ k, k ∈ r.fresh c' ↔ k ∈ r.fresh c ∧ k ≠ n := by
    intro k
    rw [fresh, fresh, Finset.mem_filter, Finset.mem_filter, hblock, List.map_cons,
      List.mem_cons, not_or, hn, RuleId.mk.injEq, Nat.succ_inj]
    constructor
    · rintro ⟨hk, hne, hold⟩
      exact ⟨⟨hk, hold⟩, hne⟩
    · rintro ⟨⟨hk, hold⟩, hne⟩
      exact ⟨hk, hne, hold⟩
  refine Finset.card_lt_card ⟨fun k hk => ((hmem k).1 hk).1, fun hsubset => ?_⟩
  have hfresh : n ∈ r.fresh c := by
    rw [fresh, Finset.mem_filter, Finset.mem_range, ← hn]
    exact ⟨hsize, hnew⟩
  exact ((hmem n).1 (hsubset hfresh)).2 rfl

/-- **Every guarded round lowers the measure.** -/
theorem measure_lt_of_guarded {c' : Cursor} (h : r.Guarded text c (.next c')) :
    r.measure text c' < r.measure text c := by
  unfold measure
  cases h with
  | advances hahead hinside hdepth =>
    have hfresh := r.card_fresh_le c'
    -- one byte ahead outweighs a frame and all rules
    obtain ⟨k, hk⟩ : ∃ k,
        text.utf8ByteSize - c.position = text.utf8ByteSize - c'.position + 1 + k :=
      ⟨c'.position - c.position - 1, by omega⟩
    rw [hk, Nat.mul_add, Nat.mul_add, Nat.mul_one]
    omega
  | pops hhere helsewhere hpopped =>
    have hfresh := r.card_fresh_le c'
    have hdepth : c.state.depth = c'.state.depth + 1 := by
      rw [LineState.depth, LineState.depth, hpopped, LineState.frames, List.length_cons]
    rw [hhere, card_fresh_of_elsewhere helsewhere]
    omega
  | pushes hhere hpushed hentered hfound hnew =>
    have hfresh := card_fresh_lt hhere hpushed hentered hfound hnew
    have hdepth : c'.state.depth = c.state.depth + 1 := by
      rw [LineState.depth, LineState.frames, hpushed, List.length_cons]
      rfl
    rw [hhere]
    omega

/-! ## Runs of rounds -/

/-- A cursor ends within as many rounds as its measure says, and one more. -/
theorem endsWithin_of_measure_lt {name : String} (hrules : r.rules.Sound name)
    (hharmless : r.rules.Harmless) (hengine : r.engine.InRange) {K : r.Kept} {n : Nat}
    (hc : K.Stands text c) (hn : r.measure text c < n) : r.EndsWithin text n c := by
  induction n generalizing c with
  | zero => exact absurd hn (Nat.not_lt_zero _)
  | succ n ih =>
    refine .round (fun m c' hm hturn => ih (Kept.stands_turn hc hm hturn) ?_)
    have hlt := measure_lt_of_guarded
      (guarded_of_turn hrules hharmless hengine hc.state hm hturn)
    omega

theorem measure_le (r : LineReader σ) (text : String) (c : Cursor) :
    r.measure text c ≤ c.state.depth + 2 * r.rules.table.size +
      (2 * r.rules.table.size + 2) * (text.utf8ByteSize - c.position) := by
  have := r.card_fresh_le c
  unfold measure
  omega

/-- The rounds that are allowed are enough. -/
theorem enough {name : String} (hrules : r.rules.Sound name) (hharmless : r.rules.Harmless)
    (hengine : r.engine.InRange) (K : r.Kept) : K.Enough := by
  refine .inr (fun text c hc => endsWithin_of_measure_lt hrules hharmless hengine hc ?_)
  have hmeasure := r.measure_le text c
  have hahead : (2 * r.rules.table.size + 2) * (text.utf8ByteSize - c.position) ≤
      (2 * r.rules.table.size + 2) * text.utf8ByteSize :=
    Nat.mul_le_mul_left _ (Nat.sub_le _ _)
  have hlimit : 2 * (text.utf8ByteSize + 2) * (r.rules.table.size + 2) =
      (2 * r.rules.table.size + 2) * text.utf8ByteSize + 2 * text.utf8ByteSize +
        4 * r.rules.table.size + 8 := by
    ring
  unfold roundLimit
  omega

/-- **A run**: rounds one after another, of which none ends the line. -/
inductive Run (r : LineReader σ) (readOn : ReadOn σ) (text : String) :
    Nat → Cursor → Reading σ → Cursor → Reading σ → Prop
  /-- No round. -/
  | refl (c : Cursor) (t : Reading σ) : Run r readOn text 0 c t c t
  /-- One more round, in front. -/
  | step {n : Nat} {c c' c'' : Cursor} {t t' t'' : Reading σ}
      (round : (r.round readOn text c).run t = .ok (.next c') t')
      (rest : Run r readOn text n c' t' c'' t'') : Run r readOn text (n + 1) c t c'' t''

/-- **The rounds of a text come to an end**, from a cursor on: there are no more in all than the
frames, the rules and the text ahead allow, no more at one place than the frames and the rules
allow, and each is guarded. -/
structure Terminates (r : LineReader σ) (readOn : ReadOn σ) (text : String) (c : Cursor)
    (t : Reading σ) : Prop where
  /-- There are only so many rounds. -/
  bounded : ∀ {n c' t'}, r.Run readOn text n c t c' t' →
    n ≤ c.state.depth + 2 * r.rules.table.size +
      (2 * r.rules.table.size + 2) * (text.utf8ByteSize - c.position)
  /-- There are only so many rounds that do not go forward. -/
  still : ∀ {n k c' t' c'' t''}, r.Run readOn text n c t c' t' →
    r.Run readOn text k c' t' c'' t'' → c''.position = c'.position →
      k ≤ c'.state.depth + 2 * r.rules.table.size
  /-- Every round is guarded. -/
  guarded : ∀ {n c' t' R t''}, r.Run readOn text n c t c' t' →
    (r.round readOn text c').run t' = .ok R t'' → r.Guarded text c' R

variable {K : r.Kept} {readOn : ReadOn σ} {t : Reading σ}

/-- A round of a line that is read on in a way that keeps everything. -/
theorem turned_of_round (hanswers : K.Answers (fun _ => False) readOn readOn)
    (hc : K.Stands text c) (ht : K.Sound t) {R : Round} {t' : Reading σ}
    (hround : (r.round readOn text c).run t = .ok R t') : K.Turned text c R t' :=
  (Kept.round_follows hanswers hc).ensures.ok ht hround

/-- **What holds along a run**: the cursor stands where reading may stand, it does not go back,
and every round lowers the measure. -/
theorem Run.measure_add_le {name : String} (hrules : r.rules.Sound name)
    (hharmless : r.rules.Harmless) (hengine : r.engine.InRange)
    (hanswers : K.Answers (fun _ => False) readOn readOn) {n : Nat} {c' : Cursor}
    {t' : Reading σ} (h : r.Run readOn text n c t c' t') (hc : K.Stands text c) (ht : K.Sound t) :
    K.Stands text c' ∧ K.Sound t' ∧ c.position ≤ c'.position ∧
      r.measure text c' + n ≤ r.measure text c := by
  induction h with
  | refl c t => exact ⟨hc, ht, Nat.le_refl _, Nat.le_refl _⟩
  | step hround _ ih =>
    have hturned := turned_of_round hanswers hc ht hround
    obtain ⟨m, hm, hturn⟩ := hturned.turn
    have hguarded := guarded_of_turn hrules hharmless hengine hc.state hm hturn
    obtain ⟨hstands, hsound, hposition, hmeasure⟩ :=
      ih (Kept.stands_turn hc hm hturn) hturned.sound
    have hlt := measure_lt_of_guarded hguarded
    refine ⟨hstands, hsound, Nat.le_trans ?_ hposition, by omega⟩
    cases hguarded with
    | advances hahead => exact Nat.le_of_lt hahead
    | pops hhere => exact Nat.le_of_eq hhere.symm
    | pushes hhere => exact Nat.le_of_eq hhere.symm

/-- **Rounds come to an end** from wherever reading may stand. -/
theorem rounds_terminate {name : String} (hrules : r.rules.Sound name)
    (hharmless : r.rules.Harmless) (hengine : r.engine.InRange)
    (hanswers : K.Answers (fun _ => False) readOn readOn) (hc : K.Stands text c) (ht : K.Sound t) :
    r.Terminates readOn text c t where
  bounded := fun h => by
    obtain ⟨-, -, -, hn⟩ := h.measure_add_le hrules hharmless hengine hanswers hc ht
    have := r.measure_le text c
    omega
  still := fun {_ _ c' _ _ _} h h' hhere => by
    obtain ⟨hc', ht', -, -⟩ := h.measure_add_le hrules hharmless hengine hanswers hc ht
    obtain ⟨-, -, -, hk⟩ := h'.measure_add_le hrules hharmless hengine hanswers hc' ht'
    have := r.card_fresh_le c'
    unfold measure at hk
    rw [hhere] at hk
    omega
  guarded := fun h hround => by
    obtain ⟨hc', ht', -, -⟩ := h.measure_add_le hrules hharmless hengine hanswers hc ht
    obtain ⟨m, hm, hturn⟩ := (turned_of_round hanswers hc' ht' hround).turn
    exact guarded_of_turn hrules hharmless hengine hc'.state hm hturn

end LineReader

/-! ## Lines of a session -/

namespace Session

/-- **The rounds of a line of a session come to an end**, and so do those of all texts of groups
in it: whatever the depth to which these are read on, whatever the stack, and without running out
of the rounds that are allowed. -/
structure Terminates (s : Session σ) (line : String) (previous : Option LineState) : Prop where
  /-- The rounds of the line, once the open blocks have been tried. -/
  rounds : ∀ {depth c t}, (s.highlighter.reader.beginLine (s.highlighter.reader.readOn depth)
      (line ++ "\n") (previous.elim s.highlighter.initialState (·.reset)) previous.isNone).run
        ⟨s.searching, {}⟩ = .ok c t →
    s.highlighter.reader.Terminates (s.highlighter.reader.readOn depth) (line ++ "\n") c t
  /-- The rounds of the text of a group, and of any text that is read on a sound stack. -/
  groups : ∀ {depth text c t}, c.state.Sound s.highlighter.reader.rules.root (fun _ => True) →
    t.searching.cache.Sound s.highlighter.reader.engine s.highlighter.reader.rules.table →
    s.highlighter.reader.Terminates (s.highlighter.reader.readOn depth) text c t
  /-- The rounds that are allowed are enough, on every level. -/
  enough : ∀ {budget e searching},
    (s.highlighter.read line previous budget).run s.searching = .error e searching →
      e ≠ .unending

/-- **Every line of every session comes to an end**, if no injection is a region and the engine
stays in range. -/
theorem Reached.terminates {catalog : Catalog} {d : Definition} {rules : Ruleset}
    (hrules : Ruleset.ofDefinition catalog d = .ok rules) (hharmless : rules.Harmless)
    {engine : Engine σ} (hengine : engine.InRange) {theme : Theme} {language : Nat}
    {configuration : Option Configuration} {s : Session σ}
    (hs : Reached (.make rules theme engine language configuration) s) (line : String)
    {previous : Option LineState} (hprevious : ∀ p ∈ previous, p ∈ s.states) :
    s.Terminates line previous := by
  have hsound := Ruleset.sound_of_ofDefinition hrules
  have hs := hs.sound_of_ofDefinition hrules
  have hrules' : s.highlighter.reader.rules.Sound d.scopeName := hs.rules ▸ hsound
  have hharmless' : s.highlighter.reader.rules.Harmless := hs.rules ▸ hharmless
  have hengine' : s.highlighter.reader.engine.InRange := hs.engine ▸ hengine
  let K := LineReader.Kept.ofScopes s.highlighter.reader (Attribution.keeps_true _)
    (fun e => e ≠ .unending) (fun _ => by simp) (fun _ => by simp)
  have henough : K.Enough := LineReader.enough hrules' hharmless' hengine' K
  have hdepth : K.error .depth := by simp [K, LineReader.Kept.ofScopes]
  have hanswers : ∀ depth, K.Answers (fun _ => False) (s.highlighter.reader.readOn depth)
      (s.highlighter.reader.readOn depth) := LineReader.Kept.readOn_answers henough hdepth
  refine ⟨fun {depth c t} hbegin => ?_, fun {depth text c t} hc ht => ?_,
    fun {budget e searching} hrun => ?_⟩
  · have hstate : K.State (previous.elim s.highlighter.initialState (·.reset)) :=
      hs.state_of_previous hsound (fun _ => trivial) hprevious
    have ht : K.Sound ⟨s.searching, {}⟩ := ⟨by rw [hs.rules, hs.engine]; exact hs.cache, trivial⟩
    obtain ⟨ht', hc, -⟩ := (LineReader.Kept.beginLine_follows (hanswers depth) trivial hstate
      previous.isNone).ensures.ok ht hbegin
    exact LineReader.rounds_terminate hrules' hharmless' hengine' (hanswers depth) hc ht'
  · exact LineReader.rounds_terminate hrules' hharmless' hengine' (hanswers depth)
      (K := K) ⟨trivial, trivial, hc⟩ ⟨ht, trivial⟩
  · exact ((hs.read_ensures hsound (fun _ => trivial) (K := K) (fun _ _ => trivial) henough hdepth
      trivial trivial hprevious budget).error hs.cache hrun).1

/-- A grammar with a region that is opened by the empty text and holds itself, and with a harmless
injection. -/
def nested : Definition where
  scopeName := "text"
  patterns := [{
    opening := some ""
    closing := some "x"
    patterns := some [{ reference := some "$self" }] }]
  injections := [("text", { pattern := some "a" })]

/-- The lines of that grammar come to an end. -/
theorem terminates_nested :
    (Ruleset.orEmpty (Ruleset.ofDefinition {} nested)).injections ≠ [] ∧
      Session.Terminates ⟨.make (Ruleset.orEmpty (Ruleset.ofDefinition {} nested)) .standard
        (.literal Unit) 1 none, ⟨{}, ()⟩, []⟩ "bax" none := by
  have hrules : Ruleset.ofDefinition {} nested =
      .ok (Ruleset.orEmpty (Ruleset.ofDefinition {} nested)) :=
    Ruleset.eq_ok_orEmpty (by decide +kernel)
  have hinjections :
      (Ruleset.orEmpty (Ruleset.ofDefinition {} nested)).injections.isEmpty = false := by
    decide +kernel
  exact ⟨List.isEmpty_eq_false_iff.1 hinjections,
    Reached.terminates hrules (by decide +kernel) Engine.bounded_literal.inRange (.begins ()) "bax"
      (fun p hp => by simp at hp)⟩

end Session

end Highlight
