import Highlight.Proofs.Closing
import Highlight.Proofs.Taking

/-!
# What encloses the text of a group

The text of a group that is read on lies inside the frame of the rule that reads it on, and has the
scopes of that frame: those around the match, the name of the group and its content name. Whatever
is entered in the text is put on top of the frame, and its scopes extend these.

Nothing keeps reading from going below the frame. A match that closes does not ask which frame it
closes: where the frame of the group is on top and its own rule is a region, or an injection is one,
it closes the frame of the group. A match that is stuck ends the text, and gives the rest of it to
what is below the frame on top. In both cases the text has the scopes around it from where the match
begins. These are the only two ways: what begins before such a match has the scopes of the group,
also what is cut right in front of it, and where there is no such match all of the text has them.
-/

namespace Highlight

open Grammar

variable {σ : Type}

namespace LineState

/-! ## Frames on top of a state -/

/-- **A state stands on another** whose text has certain scopes: it has all frames of that one, and
the scopes of those on top of them extend these. -/
def StandsOn (base : LineState) (s : LineState) : Prop :=
  ∃ upper : List Frame, s.frames = upper ++ base.frames ∧
    ∀ f ∈ upper, f.nameScopes.Extends base.top.contentScopes ∧
      f.contentScopes.Extends base.top.contentScopes

namespace StandsOn

variable {base s : LineState}

theorem refl (base : LineState) : base.StandsOn base := ⟨[], rfl, by simp⟩

theorem content (h : base.StandsOn s) :
    s.top.contentScopes.Extends base.top.contentScopes := by
  obtain ⟨upper, hframes, hupper⟩ := h
  cases upper with
  | nil =>
    obtain rfl : s = base := eq_of_frames hframes
    exact .refl _
  | cons f fs =>
    obtain ⟨rfl, -⟩ := List.cons.inj hframes
    exact (hupper _ List.mem_cons_self).2

/-- A frame with more scopes may be put on top. -/
theorem push (h : base.StandsOn s) {f : Frame}
    (hname : f.nameScopes.Extends s.top.contentScopes)
    (hcontent : f.contentScopes.Extends s.top.contentScopes) : base.StandsOn (s.push f) := by
  have htop := h.content
  obtain ⟨upper, hframes, hupper⟩ := h
  refine ⟨f :: upper, congrArg (f :: ·) hframes, List.forall_mem_cons.2 ⟨?_, hupper⟩⟩
  exact ⟨hname.trans htop, hcontent.trans htop⟩

/-- Where other frames are on top, the top frame may be given the scopes of its delimiters. -/
theorem withNameScopes (h : base.StandsOn s) (hne : s ≠ base) :
    s.top.nameScopes.Extends base.top.contentScopes ∧
      base.StandsOn (s.withContentScopes s.top.nameScopes) ∧
      s.withContentScopes s.top.nameScopes ≠ base := by
  obtain ⟨upper, hframes, hupper⟩ := h
  cases upper with
  | nil => exact absurd (eq_of_frames hframes) hne
  | cons f fs =>
    obtain ⟨rfl, hbelow⟩ := List.cons.inj hframes
    obtain ⟨htop, hupper⟩ := List.forall_mem_cons.1 hupper
    refine ⟨htop.1, ⟨_ :: fs, congrArg (_ :: ·) hbelow,
      List.forall_mem_cons.2 ⟨⟨htop.1, htop.1⟩, hupper⟩⟩, fun heq => ?_⟩
    have hlen := congrArg depth heq
    change s.below.length + 1 = base.frames.length at hlen
    rw [hbelow, List.append_eq, List.length_append] at hlen
    omega

/-- Where other frames are on top, the top frame may be taken away. -/
theorem pop (h : base.StandsOn s) (hne : s ≠ base) : base.StandsOn s.pop := by
  obtain ⟨upper, hframes, hupper⟩ := h
  cases upper with
  | nil => exact absurd (eq_of_frames hframes) hne
  | cons f fs =>
    obtain ⟨htop, hbelow⟩ := List.cons.inj hframes
    refine ⟨fs, ?_, (List.forall_mem_cons.1 hupper).2⟩
    have hpop : s.pop.frames = s.below := by
      obtain ⟨top, below⟩ := s
      cases below with
      | nil =>
        have hlen := congrArg List.length hbelow
        simp [frames] at hlen
      | cons g gs => rfl
    rw [hpop, hbelow, List.append_eq]

end StandsOn

end LineState

namespace Segments

/-! ## Cutting with more scopes -/

/-- **Segments go on from others**, and from which on new stretches have which scopes is told. -/
def AddsTo (t t' : Segments) (ok : Nat → AttributedPath → Prop) : Prop :=
  ∃ added, t'.stretches = t.stretches ++ added ∧ ∀ p ∈ added, ok p.1.start p.2

namespace AddsTo

variable {t t' : Segments} {ok : Nat → AttributedPath → Prop}

theorem refl (t : Segments) : t.AddsTo t ok := ⟨[], (List.append_nil _).symm, by simp⟩

theorem produce (h : t.AddsTo t' ok) {p : AttributedPath} (hp : ok t'.reached p) (n : Nat) :
    t.AddsTo (t'.produce p n) ok := by
  by_cases hlt : t'.reached < n
  · obtain ⟨added, hadded, hok⟩ := h
    refine ⟨added ++ [(⟨t'.reached, n⟩, p)], ?_, fun q hq => ?_⟩
    · rw [stretches_produce hlt, hadded, List.append_assoc]
    · obtain hq | hq := List.mem_append.1 hq
      · exact hok q hq
      · rw [List.mem_singleton.1 hq]
        exact hp
  · rwa [Segments.produce, if_neg hlt]

end AddsTo

end Segments

namespace LineReader

variable {r : LineReader σ}

/-! ## Where reading on leads -/

/-- **Reading on leads from a place to another**: round by round, and into the texts of groups. -/
inductive LeadsTo (r : LineReader σ) (depth₀ : Nat) (text₀ : String) (c₀ : Cursor)
    (t₀ : Reading σ) : Nat → String → Cursor → Reading σ → Prop
  /-- Nothing is read. -/
  | begins : LeadsTo r depth₀ text₀ c₀ t₀ depth₀ text₀ c₀ t₀
  /-- A round goes on. -/
  | goesOn {depth : Nat} {text : String} {c c' : Cursor} {t t' : Reading σ}
      (before : LeadsTo r depth₀ text₀ c₀ t₀ depth text c t)
      (run : (r.round (r.readOn depth) text c).run t = .ok (.next c') t') :
      LeadsTo r depth₀ text₀ c₀ t₀ depth text c' t'
  /-- The text of a group is read on in a round. -/
  | readsOn {depth : Nat} {text text' : String} {c c' : Cursor} {t t' : Reading σ}
      (before : LeadsTo r depth₀ text₀ c₀ t₀ (depth + 1) text c t)
      (group : Consults (fun f => r.round f text c) (r.readOn (depth + 1)) t text' c' t') :
      LeadsTo r depth₀ text₀ c₀ t₀ depth text' c' t'

/-- **A match leaves the frame on top**: it closes, or it is stuck. -/
def Leaves (r : LineReader σ) (c : Cursor) (m : RuleMatch) : Prop :=
  m.role = .close ∨ r.Stuck c m

/-- **The frame on top at a place is left** before a line is cut beyond a position: reading on leads
to where that frame is on top, and a match leaves it that begins no further than the position. -/
def LeftBefore (r : LineReader σ) (depth₀ : Nat) (text₀ : String) (c₀ : Cursor) (t₀ : Reading σ)
    (position : Nat) : Prop :=
  ∃ depth text c t m t', r.LeadsTo depth₀ text₀ c₀ t₀ depth text c t ∧ c.state = c₀.state ∧
    (r.nextMatch text c).run t = .ok (some m) t' ∧ r.Leaves c m ∧
      max t.segments.reached m.start ≤ position

/-- A match that leaves the frame on top first cuts up to where it begins, with the scopes of that
frame. -/
theorem Leaves.take_cutsAfter {text : String} {c : Cursor} {m : RuleMatch} (h : r.Leaves c m) :
    CutsAfter c.state.top.contentScopes m.start (r.MatchCut text c (some m))
      (r.MatchCalls text c (some m)) (fun f => r.take f text c (some m)) := by
  obtain hrole | ⟨⟨id, rule, matched, hrole, hrule, -⟩, -⟩ := h
  · simpa only [take, hrole] using closeRegion_cutsAfter hrole
  · simpa only [take, hrole, hrule] using enterRule_cutsAfter hrole hrule

section

variable {depth₀ : Nat} {text₀ : String} {c₀ : Cursor} {t₀ : Reading σ}

theorem LeftBefore.mono {n n' : Nat} (h : r.LeftBefore depth₀ text₀ c₀ t₀ n) (hle : n ≤ n') :
    r.LeftBefore depth₀ text₀ c₀ t₀ n' := by
  obtain ⟨depth, text, c, t, m, t', hleads, hstate, hnext, hleaves, hreached⟩ := h
  exact ⟨depth, text, c, t, m, t', hleads, hstate, hnext, hleaves, Nat.le_trans hreached hle⟩

/-- Scopes **are enclosed**, from a position on: they extend those of the frame on top, or that
frame has been left before. -/
def Encloses (r : LineReader σ) (depth₀ : Nat) (text₀ : String) (c₀ : Cursor) (t₀ : Reading σ)
    (position : Nat) (p : AttributedPath) : Prop :=
  p.Extends c₀.state.top.contentScopes ∨ r.LeftBefore depth₀ text₀ c₀ t₀ position

/-- **Where reading on stands**: at a place that it leads to, all that has been cut is enclosed, and
the frames stand on those at the beginning unless these have been left. -/
structure EnclosedAt (r : LineReader σ) (depth₀ : Nat) (text₀ : String) (c₀ : Cursor)
    (t₀ : Reading σ) (depth : Nat) (text : String) (c : Cursor) (t : Reading σ) : Prop where
  /-- Reading on leads there. -/
  leads : r.LeadsTo depth₀ text₀ c₀ t₀ depth text c t
  /-- What has been cut. -/
  cut : t₀.segments.AddsTo t.segments (r.Encloses depth₀ text₀ c₀ t₀)
  /-- The frames. -/
  stands : c₀.state.StandsOn c.state ∨ r.LeftBefore depth₀ text₀ c₀ t₀ t.segments.reached

/-- The texts of groups are read on with scopes that are enclosed. -/
def ReadsEnclosed (r : LineReader σ) (depth₀ : Nat) (text₀ : String) (c₀ : Cursor) (t₀ : Reading σ)
    (depth : Nat) : Prop :=
  ∀ text c t t', (∀ d, depth = d + 1 → r.EnclosedAt depth₀ text₀ c₀ t₀ d text c t) →
    (r.readOn depth text c).run t = .ok () t' →
      t₀.segments.AddsTo t'.segments (r.Encloses depth₀ text₀ c₀ t₀) ∧
        t.segments.reached ≤ t'.segments.reached

namespace EnclosedAt

variable {depth : Nat} {text : String} {c : Cursor} {t : Reading σ}

/-- **A match leaves no frame** at the beginning, or these have been left before. -/
def Stays (r : LineReader σ) (depth₀ : Nat) (text₀ : String) (c₀ : Cursor) (t₀ : Reading σ)
    (c : Cursor) (t : Reading σ) (m : Option RuleMatch) : Prop :=
  (c₀.state.StandsOn c.state ∧ ∀ m' ∈ m, r.Leaves c m' → c.state ≠ c₀.state) ∨
    r.LeftBefore depth₀ text₀ c₀ t₀ t.segments.reached

/-- A match that is found leaves no frame at the beginning, unless the frame on top there is on
top again, and is left by this match. -/
theorem stays_or_leaves (h : r.EnclosedAt depth₀ text₀ c₀ t₀ depth text c t)
    {m : Option RuleMatch} {t₁ : Reading σ} (hnext : (r.nextMatch text c).run t = .ok m t₁) :
    Stays r depth₀ text₀ c₀ t₀ c t m ∨ ∃ m', m = some m' ∧ r.Leaves c m' ∧ c.state = c₀.state ∧
      r.LeftBefore depth₀ text₀ c₀ t₀ (max t.segments.reached m'.start) := by
  obtain hstands | hleft := h.stands
  · by_cases hkeeps : ∀ m' ∈ m, r.Leaves c m' → c.state ≠ c₀.state
    · exact .inl (.inl ⟨hstands, hkeeps⟩)
    · push Not at hkeeps
      obtain ⟨m', hm', hleaves, hstate⟩ := hkeeps
      obtain rfl : m = some m' := hm'
      exact .inr ⟨m', rfl, hleaves, hstate, depth, text, c, t, m', t₁, h.leads, hstate, hnext,
        hleaves, Nat.le_refl _⟩
  · exact .inl (.inr hleft)

/-- A match that leaves no frame cuts with scopes that are enclosed. -/
theorem encloses_of_matchCut {m : Option RuleMatch} (hstays : Stays r depth₀ text₀ c₀ t₀ c t m)
    {p : AttributedPath} {n : Nat} (hcut : r.MatchCut text c m p n) {position : Nat}
    (hposition : t.segments.reached ≤ position) : r.Encloses depth₀ text₀ c₀ t₀ position p := by
  obtain ⟨hstands, hkeeps⟩ | hleft := hstays
  · obtain hp | ⟨m', hm', hrole, hp⟩ | ⟨m', hm', hstuck, rfl⟩ := hcut.scopes
    · exact .inl (hp.trans hstands.content)
    · have hne := hkeeps m' hm' (.inl hrole)
      exact .inl (hp.trans (hstands.withNameScopes hne).1)
    · have hne := hkeeps m' hm' (.inr hstuck)
      exact .inl (hstands.pop hne).content
  · exact .inr (hleft.mono hposition)

/-- The frames that the groups of a match are read inside of stand on those at the beginning. -/
theorem standsOn_of_inside (hstands : c₀.state.StandsOn c.state) {m : RuleMatch}
    (hkeeps : r.Leaves c m → c.state ≠ c₀.state) {s : LineState} (hs : r.Inside text c m s) :
    c₀.state.StandsOn s := by
  cases hs with
  | closes hrole => exact (hstands.withNameScopes (hkeeps (.inl hrole))).2.1
  | @enters id rule hrole hrule =>
    have hentering := r.entering_extends text c m id rule
    exact hstands.push hentering hentering

/-- A turn that goes on leads to frames that stand on those at the beginning. -/
theorem standsOn_of_turn (hstands : c₀.state.StandsOn c.state) {m : Option RuleMatch}
    (hkeeps : ∀ m' ∈ m, r.Leaves c m' → c.state ≠ c₀.state) {c' : Cursor}
    (hturn : r.Turn text c m (.next c')) : c₀.state.StandsOn c'.state := by
  cases hturn with
  | leaves m hrole =>
    obtain ⟨-, hclosed, hne⟩ := hstands.withNameScopes (hkeeps m rfl (.inl hrole))
    rw [Kept.state_advance]
    exact hclosed.pop hne
  | opens m id rule ending =>
    have hname := r.entering_extends text c m id rule
    have hcontent := (r.nameScopes_extends _ rule.contentName text m.captures).trans hname
    rw [Kept.state_advance]
    dsimp only
    unfold opened
    dsimp only
    split
    · exact hstands.push hname hcontent
    · exact hstands.push hname hcontent
  | passes m =>
    rw [Kept.state_advance]
    exact hstands

/-- Where a match leaves no frame, the texts of its groups are read on inside frames that stand on
those at the beginning. -/
theorem standsOn_of_calls {m : Option RuleMatch} (hstays : Stays r depth₀ text₀ c₀ t₀ c t m)
    {text' : String} {c' : Cursor} (habout : r.MatchCalls text c m text' c') :
    c₀.state.StandsOn c'.state ∨ r.LeftBefore depth₀ text₀ c₀ t₀ t.segments.reached := by
  refine hstays.imp_left fun ⟨hstands, hkeeps⟩ => ?_
  obtain ⟨m', hm', s, hs, hgroup⟩ := habout
  have hinside := standsOn_of_inside hstands (hkeeps m' hm') hs
  cases hgroup with
  | @group id within name contentName span inner hrule hspan hbefore =>
    have hname := r.nameScopes_extends s.top.contentScopes name text m'.captures
    exact hinside.push hname ((r.nameScopes_extends _ contentName text m'.captures).trans hname)

/-- **A step that only cuts and calls keeps what is cut enclosed**, from a bound on, if it cuts with
scopes that are enclosed from there on, and calls where reading on stands. -/
theorem of_cuts (hreads : r.ReadsEnclosed depth₀ text₀ c₀ t₀ depth)
    {good : AttributedPath → Nat → Prop} {about : String → Cursor → Prop}
    {x : ReadOn σ → Read σ Round} (hx : Cuts good about x) {bound : Nat}
    (hgood : ∀ p n, good p n → ∀ position, bound ≤ position →
      r.Encloses depth₀ text₀ c₀ t₀ position p)
    {before after : Reading σ}
    (hcalls : ∀ text' c' u, about text' c' → Calls x (r.readOn depth) before text' c' u →
      t₀.segments.AddsTo u.segments (r.Encloses depth₀ text₀ c₀ t₀) →
      bound ≤ u.segments.reached → ∀ d, depth = d + 1 →
      r.EnclosedAt depth₀ text₀ c₀ t₀ d text' c' u)
    (hcut : t₀.segments.AddsTo before.segments (r.Encloses depth₀ text₀ c₀ t₀))
    (hbound : bound ≤ before.segments.reached) {R : Round}
    (hrun : (x (r.readOn depth)).run before = .ok R after) :
    t₀.segments.AddsTo after.segments (r.Encloses depth₀ text₀ c₀ t₀) ∧
      bound ≤ after.segments.reached := by
  refine hx.holds (J := fun u =>
    t₀.segments.AddsTo u.segments (r.Encloses depth₀ text₀ c₀ t₀) ∧ bound ≤ u.segments.reached)
    (fun u p n hu hp => ⟨hu.1.produce (hgood p n hp _ hu.2) n, ?_⟩)
    (fun text' c' u u' habout hcall hu hinner => ?_) ⟨hcut, hbound⟩ hrun
  · dsimp only
    rw [Segments.reached_produce]
    exact Nat.le_trans hu.2 (Nat.le_max_left _ _)
  · obtain ⟨hcut', hreached⟩ :=
      hreads text' c' u u' (hcalls text' c' u habout hcall hu.1 hu.2) hinner
    exact ⟨hcut', Nat.le_trans hu.2 hreached⟩

/-- **What a match cuts is enclosed**, and from then on the frame on top at the beginning stays, or
has been left. -/
theorem of_take (hreads : r.ReadsEnclosed depth₀ text₀ c₀ t₀ depth)
    (h : r.EnclosedAt depth₀ text₀ c₀ t₀ depth text c t) {m : Option RuleMatch} {t₁ : Reading σ}
    (hnext : (r.nextMatch text c).run t = .ok m t₁) {R : Round} {t' : Reading σ}
    (hrun : (r.take (r.readOn depth) text c m).run t₁ = .ok R t') :
    t₀.segments.AddsTo t'.segments (r.Encloses depth₀ text₀ c₀ t₀) ∧
      t.segments.reached ≤ t'.segments.reached ∧
      (Stays r depth₀ text₀ c₀ t₀ c t m ∨
        r.LeftBefore depth₀ text₀ c₀ t₀ t'.segments.reached) := by
  have hsegments := segments_of_nextMatch hnext
  have hcut : t₀.segments.AddsTo t₁.segments (r.Encloses depth₀ text₀ c₀ t₀) :=
    hsegments ▸ h.cut
  have hcalled : ∀ {text' c' u}, Calls (fun f => r.take f text c m) (r.readOn depth) t₁ text' c' u →
      ∀ d, depth = d + 1 → r.LeadsTo depth₀ text₀ c₀ t₀ d text' c' u := by
    rintro text' c' u hcalls d rfl
    exact .readsOn h.leads (calls_round hnext hcalls).consults
  obtain hstays | ⟨m, rfl, hleaves, hstate, hleft⟩ := h.stays_or_leaves hnext
  · obtain ⟨hcut', hreached⟩ := of_cuts hreads (take_cuts m)
      (fun p n hp position hposition => encloses_of_matchCut hstays hp hposition)
      (fun text' c' u habout hcalls hadds hbound d hd => ⟨hcalled hcalls d hd, hadds,
        (standsOn_of_calls hstays habout).imp_right fun hleft => hleft.mono hbound⟩)
      hcut (Nat.le_of_eq (congrArg Segments.reached hsegments.symm)) hrun
    exact ⟨hcut', hreached, .inl hstays⟩
  · -- up to where the match begins the frame that it leaves is still on top
    obtain ⟨y, hy, hrest, hcalls⟩ := hleaves.take_cutsAfter.exists_rest hrun
    have hgap : c.state.top.contentScopes.Extends c₀.state.top.contentScopes := hstate ▸ .refl _
    have hbound : max t.segments.reached m.start ≤
        (t₁.segments.produce c.state.top.contentScopes m.start).reached := by
      rw [Segments.reached_produce, hsegments]
    obtain ⟨hcut', hreached⟩ := of_cuts hreads hy
      (fun p n _ position hposition => .inr (hleft.mono hposition))
      (fun text' c' u _ hrest hadds hreached d hd => ⟨hcalled (hcalls hrest) d hd, hadds,
        .inr (hleft.mono hreached)⟩)
      (hcut.produce (.inl hgap) _) hbound hrest
    exact ⟨hcut', Nat.le_trans (Nat.le_max_left _ _) hreached, .inr (hleft.mono hreached)⟩

/-- A round cuts with scopes that are enclosed, and where it goes on, reading on stands again. -/
theorem of_round (hreads : r.ReadsEnclosed depth₀ text₀ c₀ t₀ depth)
    (h : r.EnclosedAt depth₀ text₀ c₀ t₀ depth text c t)
    {R : Round} {t' : Reading σ} (hrun : (r.round (r.readOn depth) text c).run t = .ok R t') :
    t₀.segments.AddsTo t'.segments (r.Encloses depth₀ text₀ c₀ t₀) ∧
      t.segments.reached ≤ t'.segments.reached ∧
      ∀ c', R = .next c' → r.EnclosedAt depth₀ text₀ c₀ t₀ depth text c' t' := by
  obtain ⟨m, t₁, hnext, htake, htaken⟩ := exists_taken_of_round hrun
  obtain ⟨hcut, hreached, hstays⟩ := h.of_take hreads hnext htake
  refine ⟨hcut, hreached, ?_⟩
  rintro c' rfl
  refine ⟨.goesOn h.leads hrun, hcut, ?_⟩
  obtain (⟨hstands, hkeeps⟩ | hleft) | hleft := hstays
  · exact .inl (standsOn_of_turn hstands hkeeps htaken.turn)
  · exact .inr (hleft.mono hreached)
  · exact .inr hleft

theorem of_rounds (hreads : r.ReadsEnclosed depth₀ text₀ c₀ t₀ depth)
    (h : r.EnclosedAt depth₀ text₀ c₀ t₀ depth text c t) {limit : Nat} {p : LineState × Bool}
    {t' : Reading σ} (hrun : (r.rounds (r.readOn depth) text limit none c).run t = .ok p t') :
    t₀.segments.AddsTo t'.segments (r.Encloses depth₀ text₀ c₀ t₀) ∧
      t.segments.reached ≤ t'.segments.reached := by
  induction limit generalizing c t with
  | zero => cases hrun
  | succ limit ih =>
    rw [rounds, if_neg (by simp)] at hrun
    obtain ⟨R, t₁, hround, hrun⟩ := exists_of_run_bind hrun
    obtain ⟨hcut, hreached, hnext⟩ := h.of_round hreads hround
    cases R with
    | done s =>
      obtain ⟨-, rfl⟩ := EStateM.Result.ok.inj hrun
      exact ⟨hcut, hreached⟩
    | next c' =>
      obtain ⟨hcut, hreached'⟩ := ih (hnext c' rfl) hrun
      exact ⟨hcut, Nat.le_trans hreached hreached'⟩

end EnclosedAt

/-- **Reading on cuts with scopes that are enclosed**, from wherever it stands. -/
theorem readsEnclosed (depth : Nat) : r.ReadsEnclosed depth₀ text₀ c₀ t₀ depth := by
  induction depth with
  | zero => exact fun _ _ _ _ _ hrun => nomatch hrun
  | succ depth ih =>
    intro text c t t' h hrun
    obtain ⟨p, t₁, hrounds, hrun⟩ := exists_of_run_bind hrun
    obtain ⟨-, rfl⟩ := EStateM.Result.ok.inj hrun
    exact (h depth rfl).of_rounds ih hrounds

end

/-- **What is cut in the text of a group has the scopes of the group**, unless its frame has been
left before: the scopes around the match, the name of the group and its content name, and maybe
more inside. -/
theorem readOnGroup_addsTo {depth : Nat} {text : String} {c : Cursor} {captures : Captures}
    {rule : Rule} {id : RuleId} {s : Span} {inner : String}
    (hinner : Text.before? text s.stop = some inner) {t t' : Reading σ}
    (hrun : (r.readOnGroup (r.readOn (depth + 1)) text c captures rule id s).run t = .ok () t') :
    ∃ added, t'.segments.stretches = t.segments.stretches ++ added ∧ ∀ p ∈ added,
      p.2.Extends (r.nameScopes (r.nameScopes c.state.top.contentScopes rule.name text captures)
        rule.contentName text captures) ∨
      r.LeftBefore depth inner ⟨r.groupState text c.state captures rule.name rule.contentName id
        s.start, s.start, none, c.first && s.start == 0⟩ t p.1.start := by
  unfold readOnGroup at hrun
  rw [hinner] at hrun
  exact (readsEnclosed (depth + 1) inner _ t t' (fun d hd => by
    obtain rfl := Nat.succ.inj hd
    exact ⟨.begins, .refl _, .inl (.refl _)⟩) hrun).1

end LineReader

namespace Session

/-- A grammar in which a word before a mark is read on by two rules: one that only looks ahead, and
one for a letter. -/
def phrase : Definition where
  scopeName := "text"
  patterns := [{
    pattern := some "(\\w+);"
    captures := some [(1, {
      name := some "word"
      patterns := some [
        { pattern := some "(?=a)" }, { pattern := some "x", name := some "letter" }] })] }]

/-- What reads its lines. -/
def phraseReader : LineReader Unit := (regexSession phrase []).highlighter.reader

/-- The rule of the word. -/
def phraseWord : Rule := (phraseReader.rules.table.get? ⟨6⟩).getD ⟨none, none, .capture none⟩

/-- Having the word of a match read on. -/
def readWord (text : String) (c : Cursor) (captures : Captures) : Read Unit Unit :=
  phraseReader.readOnGroup (phraseReader.readOn 1) text c captures phraseWord ⟨3⟩ ⟨0, 2⟩

/-- The scopes of the word of a match. -/
def wordScopes (text : String) (c : Cursor) (captures : Captures) : AttributedPath :=
  phraseReader.nameScopes
    (phraseReader.nameScopes c.state.top.contentScopes phraseWord.name text captures)
    phraseWord.contentName text captures

/-- The frames that the word of a match is read on inside. -/
def wordState (text : String) (c : Cursor) (captures : Captures) : LineState :=
  phraseReader.groupState text c.state captures phraseWord.name phraseWord.contentName ⟨3⟩ 0

/-- Two letters are cut with the scopes of the word, unless its frame has been left before. -/
theorem readOnGroup_addsTo_phrase :
    ∃ x ∈ (regexSession phrase []).firstMatch? "xx;" none,
      x.2.captures = [some ⟨0, 3⟩, some ⟨0, 2⟩] ∧
      (wordScopes "xx;\n" x.1 x.2.captures).names = ["text", "word"] ∧
      Text.before? "xx;\n" 2 = some "xx" ∧
      ∃ t', (readWord "xx;\n" x.1 x.2.captures).run ⟨(regexSession phrase []).searching, {}⟩ =
          .ok () t' ∧
        t'.segments.stretches.map (·.1) = [⟨0, 1⟩, ⟨1, 2⟩] ∧
        ∀ p ∈ t'.segments.stretches,
          p.2.Extends (wordScopes "xx;\n" x.1 x.2.captures) ∨
            phraseReader.LeftBefore 0 "xx" ⟨wordState "xx;\n" x.1 x.2.captures, 0, none,
              x.1.first && 0 == 0⟩ ⟨(regexSession phrase []).searching, {}⟩ p.1.start := by
  have hmatch : ∃ x ∈ (regexSession phrase []).firstMatch? "xx;" none,
      x.2.captures = [some ⟨0, 3⟩, some ⟨0, 2⟩] ∧
      (wordScopes "xx;\n" x.1 x.2.captures).names = ["text", "word"] ∧
      (match (readWord "xx;\n" x.1 x.2.captures).run
          ⟨(regexSession phrase []).searching, {}⟩ with
        | .ok _ t' => some (t'.segments.stretches.map (·.1))
        | .error .. => none) = some [⟨0, 1⟩, ⟨1, 2⟩] := by
    decide +kernel
  have hinner : Text.before? "xx;\n" 2 = some "xx" := by decide +kernel
  obtain ⟨⟨c, m⟩, hfirst, hcaptures, hnames, hstretches⟩ := hmatch
  split at hstretches
  · next t' hrun =>
    have hword : (phraseReader.readOnGroup (phraseReader.readOn (0 + 1)) "xx;\n" c m.captures
        phraseWord ⟨3⟩ ⟨0, 2⟩).run ⟨(regexSession phrase []).searching, {}⟩ = .ok () t' := hrun
    obtain ⟨added, hadded, henclosed⟩ := phraseReader.readOnGroup_addsTo hinner hword
    have hempty : ({} : Segments).stretches = [] := rfl
    dsimp only at hadded
    rw [hempty, List.nil_append] at hadded
    refine ⟨_, hfirst, hcaptures, hnames, hinner, t', hrun, Option.some.inj hstretches, ?_⟩
    rw [hadded]
    exact henclosed
  · simp at hstretches

/-- **The text of a group may lose the scopes of the group**: looking ahead only, the first rule is
stuck where the word begins, and the word has the scopes around its match. -/
theorem not_extends_phrase :
    OfGrammar phrase (regexSession phrase []) ∧
      (regexSession phrase []).tokens? "ab;" none =
        some [⟨⟨0, 2⟩, ["text"]⟩, ⟨⟨2, 3⟩, ["text"]⟩] ∧
      ∃ x ∈ (regexSession phrase []).firstMatch? "ab;" none,
        x.2.captures = [some ⟨0, 3⟩, some ⟨0, 2⟩] ∧
        (wordScopes "ab;\n" x.1 x.2.captures).names = ["text", "word"] ∧
        ∃ t', (readWord "ab;\n" x.1 x.2.captures).run ⟨(regexSession phrase []).searching, {}⟩ =
            .ok () t' ∧
          ∃ p ∈ t'.segments.stretches, p.1 = ⟨0, 2⟩ ∧
            ¬ p.2.Extends (wordScopes "ab;\n" x.1 x.2.captures) := by
  have hmatch : (regexSession phrase []).tokens? "ab;" none =
        some [⟨⟨0, 2⟩, ["text"]⟩, ⟨⟨2, 3⟩, ["text"]⟩] ∧
      ∃ x ∈ (regexSession phrase []).firstMatch? "ab;" none,
        x.2.captures = [some ⟨0, 3⟩, some ⟨0, 2⟩] ∧
        (wordScopes "ab;\n" x.1 x.2.captures).names = ["text", "word"] ∧
        (match (readWord "ab;\n" x.1 x.2.captures).run
            ⟨(regexSession phrase []).searching, {}⟩ with
          | .ok _ t' => some (t'.segments.stretches.map fun p => (p.1, p.2.names))
          | .error .. => none) = some [(⟨0, 2⟩, ["text"])] := by
    decide +kernel
  obtain ⟨htokens, x, hfirst, hcaptures, hnames, hstretches⟩ := hmatch
  refine ⟨ofGrammar_regexSession (by decide +kernel) _, htokens, x, hfirst, hcaptures, hnames, ?_⟩
  split at hstretches
  · next t' hrun =>
    obtain ⟨p, hp, hspan⟩ : ∃ p ∈ t'.segments.stretches, (p.1, p.2.names) = (⟨0, 2⟩, ["text"]) :=
      List.mem_map.1 (Option.some.inj hstretches ▸ List.mem_singleton_self _)
    obtain ⟨hspan, htext⟩ := Prod.mk.inj hspan
    refine ⟨t', hrun, p, hp, hspan, fun hextends => ?_⟩
    have hprefix := hextends.names
    rw [htext, hnames] at hprefix
    exact absurd hprefix (by decide)
  · simp at hstretches

end Session

end Highlight
