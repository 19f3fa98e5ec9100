import Highlight.Proofs.Places

/-!
# Taking a match

A round looks for the next match, and then takes it. The engine has its say only in the first half:
what follows cuts the line and has the texts of groups read on, and the match tells with which
scopes, at which positions, and from which cursors. So what holds along a line is put together from
three things: what searching keeps, where what follows cuts and calls, and how the cursor turns.

A step **calls** what reads on the texts of groups about a text, from a cursor and in a reading, if
it fails wherever that does. A step that only cuts and calls either calls there, or does the same
whatever is done there; so it is told by what is done where it calls.
-/

namespace Highlight

open Grammar

variable {σ : Type}

/-- Two steps that come to something, one after the other. -/
theorem exists_of_run_bind {ε ρ α β : Type} {x : EStateM ε ρ α} {f : α → EStateM ε ρ β} {s s' : ρ}
    {b : β} (h : (x >>= f).run s = .ok b s') :
    ∃ a s₁, x.run s = .ok a s₁ ∧ (f a).run s₁ = .ok b s' := by
  rw [EStateM.run_bind] at h
  cases hx : x.run s with
  | error e s₁ => simp [hx] at h
  | ok a s₁ =>
    rw [hx] at h
    exact ⟨a, s₁, rfl, h⟩

/-! ## Calls -/

/-- Two ways to read on the texts of groups do the same, but for one text, cursor and reading. -/
def ElsewhereAs (g f : ReadOn σ) (text : String) (c : Cursor) (t : Reading σ) : Prop :=
  ∀ text' c' t', (text', c', t') ≠ (text, c, t) → (g text' c').run t' = (f text' c').run t'

/-- **A step calls** what reads on the texts of groups about a text, from a cursor and in a reading:
if that fails there, the step fails in the same way. -/
def Calls {α : Type} (x : ReadOn σ → Read σ α) (f : ReadOn σ) (before : Reading σ)
    (text : String) (c : Cursor) (t : Reading σ) : Prop :=
  ∀ (g : ReadOn σ) (e : LineError) (t' : Reading σ), ElsewhereAs g f text c t →
    (g text c).run t = .error e t' → (x g).run before = .error e t'

open Classical in
/-- A failure may be put in place of what is done about a text, from a cursor and in a reading. -/
theorem exists_elsewhereAs (f : ReadOn σ) (text : String) (c : Cursor) (t : Reading σ)
    (e : LineError) : ∃ g, ElsewhereAs g f text c t ∧ (g text c).run t = .error e t := by
  refine ⟨fun text' c' t' => if (text', c', t') = (text, c, t) then .error e t else f text' c' t',
    fun text' c' t' h => if_neg h, if_pos rfl⟩

/-- A step that calls consults. -/
theorem Calls.consults {α : Type} {x : ReadOn σ → Read σ α} {f : ReadOn σ} {before : Reading σ}
    {text : String} {c : Cursor} {t : Reading σ} (h : Calls x f before text c t) :
    Consults x f before text c t := by
  -- one of two errors differs from what the step does
  obtain ⟨e, he⟩ : ∃ e, (x f).run before ≠ .error e t := by
    by_cases hdepth : (x f).run before = .error .depth t
    · exact ⟨.unending, by rw [hdepth]; simp⟩
    · exact ⟨.depth, hdepth⟩
  obtain ⟨g, hg, hfails⟩ := exists_elsewhereAs f text c t e
  exact ⟨g, hg, fun heq => he (heq.symm.trans (h g e t hg hfails))⟩

/-! ## Steps that cut and call -/

/-- What holds of segments and is kept by cutting where groups end holds once all are closed. -/
theorem closeAllGroups_holds {J : Segments → Prop} {groups : List OpenGroup}
    (hproduce : ∀ t, ∀ g ∈ groups, J t → J (t.produce g.scopes g.stop)) {t : Segments} (ht : J t) :
    J (closeAllGroups t groups) := by
  induction groups generalizing t with
  | nil => exact ht
  | cons g groups ih =>
    exact ih (fun t g hg => hproduce t g (List.mem_cons_of_mem _ hg))
      (hproduce t g List.mem_cons_self ht)

/-- **A step only cuts and calls**: with scopes and at positions that are good, and about texts and
from cursors that are told. -/
inductive Cuts (good : AttributedPath → Nat → Prop) (about : String → Cursor → Prop) :
    {α : Type} → (ReadOn σ → Read σ α) → Prop
  /-- It is over. -/
  | pure {α : Type} (a : α) : Cuts good about (fun _ => Pure.pure a)
  /-- It fails. -/
  | throw {α : Type} (e : LineError) : Cuts good about (fun _ => (MonadExcept.throw e : Read σ α))
  /-- It cuts the line where some groups end. -/
  | cut (groups : List OpenGroup) (h : ∀ g ∈ groups, good g.scopes g.stop) :
      Cuts good about (fun _ => modify fun t =>
        { t with segments := closeAllGroups t.segments groups })
  /-- It calls. -/
  | call {text : String} {c : Cursor} (h : about text c) : Cuts good about (fun f => f text c)
  /-- One step follows another. -/
  | bind {α β : Type} {x : ReadOn σ → Read σ α} {y : α → ReadOn σ → Read σ β}
      (first : Cuts good about x) (next : ∀ a, Cuts good about (y a)) :
      Cuts good about (fun f => x f >>= fun a => y a f)

namespace Cuts

variable {good good' : AttributedPath → Nat → Prop} {about about' : String → Cursor → Prop}
  {α : Type} {x : ReadOn σ → Read σ α} {f g : ReadOn σ}

theorem produce {p : AttributedPath} {n : Nat} (h : good p n) :
    Cuts (σ := σ) good about (fun _ => Read.produce p n) :=
  .cut [⟨p, n⟩] (List.forall_mem_singleton.2 h)

/-- A step that cuts may have a result. -/
theorem cut_bind {groups : List OpenGroup} (h : ∀ g ∈ groups, good g.scopes g.stop) {β : Type}
    (b : β) {y : β → ReadOn σ → Read σ α} (hy : Cuts good about (y b)) :
    Cuts good about (fun f => (modifyGet fun t =>
      (b, { t with segments := closeAllGroups t.segments groups })) >>= fun b => y b f) := by
  have hcut : Cuts good about (fun f => (modify fun t =>
      { t with segments := closeAllGroups t.segments groups }) >>= fun _ => y b f) :=
    .bind (.cut groups h) fun _ => hy
  exact hcut

theorem mono (hx : Cuts good about x) (hgood : ∀ p n, good p n → good' p n)
    (habout : ∀ text c, about text c → about' text c) : Cuts good' about' x := by
  induction hx with
  | pure a => exact .pure a
  | throw e => exact .throw e
  | cut groups h => exact .cut groups fun g hg => hgood _ _ (h g hg)
  | call h => exact .call (habout _ _ h)
  | bind _ _ hx hy => exact .bind hx hy

/-- A step that only cuts and calls is told by what is done where it calls. -/
theorem congr (hx : Cuts good about x) (h : ∀ text c, about text c → f text c = g text c) :
    x f = x g := by
  induction hx with
  | pure a => rfl
  | throw e => rfl
  | cut groups => rfl
  | call hcall => exact h _ _ hcall
  | bind _ _ hx hy =>
    dsimp only
    rw [hx]
    exact bind_congr hy

/-- **A step calls, or it does the same** whatever is done there. -/
theorem calls_or_eq (hx : Cuts good about x) (f : ReadOn σ) (before : Reading σ) (text : String)
    (c : Cursor) (t : Reading σ) :
    Calls x f before text c t ∨
      ∀ g, ElsewhereAs g f text c t → (x g).run before = (x f).run before := by
  induction hx generalizing before with
  | pure a => exact .inr fun _ _ => rfl
  | throw e => exact .inr fun _ _ => rfl
  | cut groups => exact .inr fun _ _ => rfl
  | @call text' c' _ =>
    by_cases hhere : (text', c', before) = (text, c, t)
    · obtain ⟨rfl, rfl, rfl⟩ : text' = text ∧ c' = c ∧ before = t := by simpa using hhere
      exact .inl fun g e t' _ hfails => hfails
    · exact .inr fun g hg => hg text' c' before hhere
  | bind _ _ hx hy =>
    obtain hcalls | hsame := hx before
    · refine .inl fun g e t' hg hfails => ?_
      rw [EStateM.run_bind, hcalls g e t' hg hfails]
    · simp only [EStateM.run_bind]
      cases hrun : (_ : Read σ _).run before with
      | error e t' =>
        refine .inr fun g hg => ?_
        rw [hsame g hg, hrun]
      | ok a t' =>
        refine (hy a t').imp (fun hcalls g e s hg hfails => ?_) fun hsame' g hg => ?_
        · rw [EStateM.run_bind, hsame g hg, hrun]
          exact hcalls g e s hg hfails
        · rw [hsame g hg, hrun]
          exact hsame' g hg

/-- What the second of two steps calls is called by both in turn. -/
theorem calls_bind {β : Type} {y : α → ReadOn σ → Read σ β} (hx : Cuts good about x)
    {before t₁ : Reading σ} {a : α} (hrun : (x f).run before = .ok a t₁) {text : String}
    {c : Cursor} {t : Reading σ} (hcalls : Calls (y a) f t₁ text c t) :
    Calls (fun f => x f >>= fun a => y a f) f before text c t := by
  intro g e t' hg hfails
  dsimp only
  rw [EStateM.run_bind]
  obtain hfirst | hsame := hx.calls_or_eq f before text c t
  · rw [hfirst g e t' hg hfails]
  · rw [hsame g hg, hrun]
    exact hcalls g e t' hg hfails

/-- A step does the same if the same is done where it calls. -/
theorem run_eq (hx : Cuts good about x) {before : Reading σ}
    (h : ∀ text c t, Calls x f before text c t → (g text c).run t = (f text c).run t) :
    (x g).run before = (x f).run before := by
  induction hx generalizing before with
  | pure a => rfl
  | throw e => rfl
  | cut groups => rfl
  | call => exact h _ _ _ fun _ _ _ _ hfails => hfails
  | @bind _ _ x y hfirst _ hx hy =>
    have hsame : (x g).run before = (x f).run before :=
      hx fun text c t hcalls => h text c t fun g e t' hg hfails => by
        rw [EStateM.run_bind, hcalls g e t' hg hfails]
    rw [EStateM.run_bind, EStateM.run_bind, hsame]
    cases hrun : (x f).run before with
    | error e t => rfl
    | ok a t => exact hy a fun text c t' hcalls => h text c t' (hfirst.calls_bind hrun hcalls)

/-- A step consults only about what it is told to call. -/
theorem about_of_consults (hx : Cuts good about x) {before : Reading σ} {text : String}
    {c : Cursor} {t : Reading σ} (h : Consults x f before text c t) : about text c :=
  h.only (P := fun text c _ => about text c) fun _ hg => congrArg (·.run before)
    (hx.congr fun text c habout => funext fun t => hg text c t habout)

/-- **What cutting keeps, and what is called keeps, a step keeps** that only cuts and calls. -/
theorem ensures (hx : Cuts good about x) {J : Reading σ → Prop} {E : LineError → Reading σ → Prop}
    (hcut : ∀ t p n, J t → good p n → J { t with segments := t.segments.produce p n })
    (hthrow : ∀ e t, J t → E e t) {before : Reading σ}
    (hcall : ∀ text c t, about text c → Calls x f before text c t → J t →
      Ensures (· = t) (f text c) (fun _ => J) E) (hbefore : J before) :
    Ensures (· = before) (x f) (fun _ => J) E := by
  induction hx generalizing before with
  | pure a => exact Ensures.pure fun t ht => ht ▸ hbefore
  | throw e => exact Ensures.throw fun t ht => hthrow e t (ht ▸ hbefore)
  | cut groups h =>
    refine Ensures.modifyGet fun t ht => ?_
    subst ht
    exact closeAllGroups_holds (J := fun segments => J { t with segments })
      (fun segments g hg ht => hcut { t with segments } _ _ ht (h g hg)) hbefore
  | call h => exact hcall _ _ before h (fun _ _ _ _ hfails => hfails) hbefore
  | @bind _ _ x y hfirst _ hx hy =>
    -- what the first step calls is called by both in turn, and so is what the second calls
    have hx : Ensures (· = before) (x f) (fun _ => J) E :=
      hx (fun text c t habout hcalls => hcall text c t habout fun g e t' hg hfails => by
        rw [EStateM.run_bind, hcalls g e t' hg hfails]) hbefore
    rintro _ rfl
    rw [EStateM.run_bind]
    cases hrun : (x f).run _ with
    | error e t => exact hx.error rfl hrun
    | ok a t =>
      exact hy a (fun text c t' habout hcalls => hcall text c t' habout (hfirst.calls_bind hrun
        hcalls)) (hx.ok rfl hrun) t rfl

/-- What cutting keeps, and what is called keeps if it comes to an end, a step keeps that comes to
an end. -/
theorem holds (hx : Cuts good about x) {J : Reading σ → Prop}
    (hcut : ∀ t p n, J t → good p n → J { t with segments := t.segments.produce p n })
    {before after : Reading σ} {a : α}
    (hcall : ∀ text c t t', about text c → Calls x f before text c t → J t →
      (f text c).run t = .ok () t' → J t')
    (hbefore : J before) (hrun : (x f).run before = .ok a after) : J after := by
  refine (hx.ensures (E := fun _ _ => True) hcut (fun _ _ _ => trivial)
    (fun text c t habout hcalls ht => ?_) hbefore).ok rfl hrun
  rintro t rfl
  cases hinner : (f text c).run t with
  | error e t' => trivial
  | ok u t' => exact hcall text c t t' habout hcalls ht hinner

end Cuts

/-- **A step first cuts up to a position** with some scopes, and only cuts and calls after that. -/
def CutsAfter (p : AttributedPath) (n : Nat) (good : AttributedPath → Nat → Prop)
    (about : String → Cursor → Prop) {α : Type} (x : ReadOn σ → Read σ α) : Prop :=
  ∃ y : ReadOn σ → Read σ α, (x = fun f => Read.produce p n >>= fun _ => y f) ∧ Cuts good about y

/-- If the first cut is good as well, the whole step only cuts and calls. -/
theorem CutsAfter.cuts {p : AttributedPath} {n : Nat} {good : AttributedPath → Nat → Prop}
    {about : String → Cursor → Prop} {α : Type} {x : ReadOn σ → Read σ α}
    (h : CutsAfter p n good about x) (hp : good p n) : Cuts good about x := by
  obtain ⟨y, rfl, hy⟩ := h
  exact .bind (.produce hp) fun _ => hy

/-- What follows the first cut of a step that comes to something. -/
theorem CutsAfter.exists_rest {p : AttributedPath} {n : Nat} {good : AttributedPath → Nat → Prop}
    {about : String → Cursor → Prop} {α : Type} {x : ReadOn σ → Read σ α}
    (h : CutsAfter p n good about x) {f : ReadOn σ} {before after : Reading σ} {a : α}
    (hrun : (x f).run before = .ok a after) :
    ∃ y, Cuts good about y ∧
      (y f).run { before with segments := before.segments.produce p n } = .ok a after ∧
      ∀ {text : String} {c : Cursor} {t : Reading σ},
        Calls y f { before with segments := before.segments.produce p n } text c t →
        Calls x f before text c t := by
  obtain ⟨y, rfl, hy⟩ := h
  exact ⟨y, hy, hrun, fun hcalls => hcalls⟩

namespace LineReader

variable {r : LineReader σ} {text : String} {c : Cursor} {captures : Captures}

/-! ## Searching -/

section

variable {J : Reading σ → Prop} {E : LineError → Reading σ → Prop}
  (hinside : ∀ id closing, Ensures J (r.matchInside text c id closing) (fun _ => J) E)

include hinside

theorem matchInjections_keeps (scopes : List String) (list : List Injection)
    (best : Option (Selector.Priority × RuleMatch)) :
    Ensures J (r.matchInjections text c scopes list best) (fun _ => J) E := by
  induction list generalizing best with
  | nil => exact Ensures.pure fun t ht => ht
  | cons i rest ih =>
    rw [matchInjections]
    split
    · refine (hinside i.rule none).bind fun m => ?_
      split
      · exact ih best
      · split
        · exact ih best
        · split
          · exact Ensures.pure fun t ht => ht
          · exact ih _
    · exact ih best

/-- **What looking inside rules keeps, looking for the next match keeps.** -/
theorem nextMatch_keeps : Ensures J (r.nextMatch text c) (fun _ => J) E :=
  (hinside _ _).bind fun _ => (matchInjections_keeps hinside _ _ _).bind fun _ =>
    Ensures.pure fun _ ht => ht

end

/-- What holds of the segments holds after a search. -/
theorem segments_search {α : Type} (x : Search σ α) (J : Segments → Prop) :
    Ensures (fun t => J t.segments) (Read.search x) (fun _ t => J t.segments)
      (fun _ t => J t.segments) := by
  intro t ht
  rw [Read.run_search]
  cases x.run t.searching <;> exact ht

/-- Looking for the next match does not cut. -/
theorem segments_of_nextMatch {t t' : Reading σ} {m : Option RuleMatch}
    (h : (r.nextMatch text c).run t = .ok m t') : t'.segments = t.segments :=
  (nextMatch_keeps fun _ _ => segments_search _ (· = t.segments)).ok rfl h

/-! ## Groups -/

/-- The frame that the text of a group is read on inside, on the frames around. -/
def groupState (r : LineReader σ) (text : String) (around : LineState) (captures : Captures)
    (name contentName : Option ScopeTemplate) (within : RuleId) (start : Nat) : LineState :=
  let nameScopes := r.nameScopes around.top.contentScopes name text captures
  around.push ⟨within, some start, none, false, none, nameScopes,
    r.nameScopes nameScopes contentName text captures⟩

/-- **The text of a group is read on**, from its beginning, inside a frame for it. -/
inductive ReadsOn (r : LineReader σ) (text : String) (c : Cursor) (captures : Captures) :
    String → Cursor → Prop
  /-- A group of the match has a rule that reads on its text. -/
  | group {id within : RuleId} {name contentName : Option ScopeTemplate} {s : Span}
      {inner : String}
      (rule : r.rules.table.get? id = some ⟨name, contentName, .capture (some within)⟩)
      (taken : some s ∈ captures) (before : Text.before? text s.stop = some inner) :
      ReadsOn r text c captures inner
        ⟨r.groupState text c.state captures name contentName within s.start, s.start, none,
          c.first && s.start == 0⟩

/-- **The groups of a match cut** inside what is around them, and where one of them begins or
ends. -/
structure GroupCut (content : AttributedPath) (captures : Captures) (p : AttributedPath) (n : Nat) :
    Prop where
  /-- The scopes. -/
  scopes : p.Extends content
  /-- The position. -/
  position : ∃ s, some s ∈ captures ∧ (n = s.start ∨ n = s.stop)

/-- The groups that matter are groups of the match. -/
theorem mem_of_mem_groups {rules : CaptureRules} {whole : Span} {p : RuleId × Span}
    (h : p ∈ rules.groups captures whole) : some p.2 ∈ captures := by
  obtain ⟨q, -, hq⟩ := List.mem_filterMap.1 ((List.takeWhile_sublist _).mem h)
  obtain ⟨s, hs, rfl⟩ := Option.map_eq_some_iff.1 hq
  obtain ⟨hgroup, -⟩ := Option.filter_eq_some_iff.1 hs
  exact List.mem_of_getElem? (Option.join_eq_some_iff.1 hgroup)

/-- Closing groups at a position closes those in front that end there. -/
theorem closeGroups_eq (position : Nat) (t : Segments) (groups : List OpenGroup) :
    closeGroups position t groups =
      (closeAllGroups t (groups.takeWhile (·.stop ≤ position)),
        groups.dropWhile (·.stop ≤ position)) := by
  induction groups generalizing t with
  | nil => rfl
  | cons g groups ih =>
    rw [closeGroups]
    split
    · next hends =>
      rw [ih, List.takeWhile_cons_of_pos (by simpa), List.dropWhile_cons_of_pos (by simpa)]
      rfl
    · next hends =>
      rw [List.takeWhile_cons_of_neg (by simpa using hends),
        List.dropWhile_cons_of_neg (by simpa using hends)]
      rfl

/-- Having the text of a group read on calls, unless the group ends where the text cannot be cut. -/
theorem readOnGroup_cuts {name contentName : Option ScopeTemplate} {id within : RuleId} {s : Span}
    (hrule : r.rules.table.get? id = some ⟨name, contentName, .capture (some within)⟩)
    (hs : some s ∈ captures) :
    Cuts (GroupCut c.state.top.contentScopes captures) (r.ReadsOn text c captures)
      (fun f => r.readOnGroup f text c captures ⟨name, contentName, .capture (some within)⟩
        within s) := by
  unfold readOnGroup
  cases hbefore : Text.before? text s.stop with
  | none => exact .throw _
  | some inner => exact .call (.group hrule hs hbefore)

/-- **Reading groups only cuts and calls.** -/
theorem readGroups_cuts {list : List (RuleId × Span)} (hlist : ∀ p ∈ list, some p.2 ∈ captures)
    {groups : List OpenGroup}
    (hgroups : ∀ g ∈ groups, GroupCut c.state.top.contentScopes captures g.scopes g.stop) :
    Cuts (GroupCut c.state.top.contentScopes captures) (r.ReadsOn text c captures)
      (fun f => r.readGroups f text c captures list groups) := by
  induction list generalizing groups with
  | nil => exact .cut groups hgroups
  | cons p rest ih =>
    obtain ⟨id, s⟩ := p
    obtain ⟨hs, hrest⟩ := List.forall_mem_cons.1 hlist
    simp only [readGroups, closeGroups_eq]
    refine Cuts.cut_bind (fun g hg => hgroups g ((List.takeWhile_sublist _).mem hg)) _ ?_
    have hleft : ∀ g ∈ groups.dropWhile (·.stop ≤ s.start),
        GroupCut c.state.top.contentScopes captures g.scopes g.stop :=
      fun g hg => hgroups g ((List.dropWhile_sublist _).mem hg)
    revert hleft
    generalize groups.dropWhile (·.stop ≤ s.start) = left
    intro hleft
    -- what is around the group: the innermost group under way, or the rule on top
    have haround : ((left.head?.map (·.scopes)).getD c.state.top.contentScopes).Extends
        c.state.top.contentScopes := by
      cases left with
      | nil => exact .refl _
      | cons g left => exact (hleft g List.mem_cons_self).scopes
    refine .bind (.produce ⟨haround, s, hs, .inl rfl⟩) fun _ => ?_
    have hskip := ih hrest hleft
    cases hrule : r.rules.table.get? id with
    | none => exact hskip
    | some rule =>
      obtain ⟨name, contentName, body⟩ := rule
      cases body with
      | single | choice | region | block => cases name <;> exact hskip
      | capture within =>
        cases within with
        | some within => exact .bind (readOnGroup_cuts hrule hs) fun _ => hskip
        | none =>
          cases name with
          | none => exact hskip
          | some name =>
            have hname := (r.nameScopes_extends _ (some name) text captures).trans haround
            exact ih hrest (List.forall_mem_cons.2 ⟨⟨hname, s, hs, .inr rfl⟩, hleft⟩)

/-- **Reading the groups of a match only cuts and calls.** -/
theorem readCaptures_cuts (rules : CaptureRules) :
    Cuts (GroupCut c.state.top.contentScopes captures) (r.ReadsOn text c captures)
      (fun f => r.readCaptures f text c rules captures) := by
  unfold readCaptures
  cases captures.whole? with
  | none => exact .pure ()
  | some whole =>
    exact readGroups_cuts (fun p hp => mem_of_mem_groups hp) fun g hg => by simp at hg

/-! ## Matches -/

/-- **What a round does with the match** that it found. -/
def take (r : LineReader σ) (readOn : ReadOn σ) (text : String) (c : Cursor) :
    Option RuleMatch → Read σ Round
  | none => finish text c.state
  | some m =>
    match m.role with
    | .close => r.closeRegion readOn text c m
    | .continues => finish text c.state
    | .enter id =>
      match r.rules.table.get? id with
      | none => finish text c.state
      | some rule => r.enterRule readOn text c m id rule

/-- **A round looks for the next match, and takes it.** -/
theorem round_eq (r : LineReader σ) (f : ReadOn σ) (text : String) (c : Cursor) :
    r.round f text c = r.nextMatch text c >>= r.take f text c :=
  bind_congr fun m => by cases m <;> rfl

/-- **A match is stuck**: it enters a rule that is no region, and ends no further than the
cursor. -/
structure Stuck (r : LineReader σ) (c : Cursor) (m : RuleMatch) : Prop where
  /-- The match enters a rule that is no region. -/
  single : ∃ id rule matched, m.role = .enter id ∧ r.rules.table.get? id = some rule ∧
    rule.body = .single matched
  /-- It ends no further than the cursor. -/
  still : m.stop ≤ c.position

/-- The frames that the groups of a match are read inside of. -/
inductive Inside (r : LineReader σ) (text : String) (c : Cursor) (m : RuleMatch) :
    LineState → Prop
  /-- Those of the region that the match closes. -/
  | closes (role : m.role = .close) : Inside r text c m (closed c)
  /-- Those of the rule that the match enters. -/
  | enters {id : RuleId} {rule : Rule} (role : m.role = .enter id)
      (found : r.rules.table.get? id = some rule) :
      Inside r text c m (c.state.push (r.entering text c m id rule))

/-- Where a match cuts: where it or one of its groups begins or ends, or at the end of the text. -/
inductive CutAt (text : String) (m : Option RuleMatch) : Nat → Prop
  /-- The end of the text. -/
  | whole : CutAt text m text.utf8ByteSize
  /-- The match begins. -/
  | start {m' : RuleMatch} (taken : m' ∈ m) : CutAt text m m'.start
  /-- The match ends. -/
  | stop {m' : RuleMatch} (taken : m' ∈ m) : CutAt text m m'.stop
  /-- One of its groups begins or ends. -/
  | group {m' : RuleMatch} {s : Span} {n : Nat} (taken : m' ∈ m) (group : some s ∈ m'.captures)
      (position : n = s.start ∨ n = s.stop) : CutAt text m n

/-- **How a match cuts**: with the scopes on top and maybe more, unless it closes a region or is
stuck. -/
structure MatchCut (r : LineReader σ) (text : String) (c : Cursor) (m : Option RuleMatch)
    (p : AttributedPath) (n : Nat) : Prop where
  /-- The scopes. -/
  scopes : p.Extends c.state.top.contentScopes ∨
    (∃ m' ∈ m, m'.role = .close ∧ p.Extends c.state.top.nameScopes) ∨
    ∃ m' ∈ m, r.Stuck c m' ∧ p = c.state.pop.top.contentScopes
  /-- The position. -/
  position : CutAt text m n

/-- What a match calls: the texts of its groups are read on. -/
def MatchCalls (r : LineReader σ) (text : String) (c : Cursor) (m : Option RuleMatch)
    (text' : String) (c' : Cursor) : Prop :=
  ∃ m' ∈ m, ∃ s, r.Inside text c m' s ∧
    r.ReadsOn text { c with state := s } m'.captures text' c'

/-- What is in front of a match is cut with the scopes on top. -/
theorem gap_cut (m : RuleMatch) :
    r.MatchCut text c (some m) c.state.top.contentScopes m.start :=
  ⟨.inl (.refl _), .start rfl⟩

theorem finish_cuts {good : AttributedPath → Nat → Prop} {about : String → Cursor → Prop}
    {s : LineState} (h : good s.top.contentScopes text.utf8ByteSize) :
    Cuts good about (fun _ : ReadOn σ => finish text s) :=
  .bind (.produce h) fun _ => .pure _

/-- The groups of a match cut as the match does, and call what it calls. -/
theorem captures_cuts {m : RuleMatch} {s : LineState} (hs : r.Inside text c m s)
    (hscopes : ∀ {p n}, p.Extends s.top.contentScopes → CutAt text (some m) n →
      r.MatchCut text c (some m) p n) (rules : CaptureRules) :
    Cuts (r.MatchCut text c (some m)) (r.MatchCalls text c (some m))
      (fun f => r.readCaptures f text { c with state := s } rules m.captures) := by
  refine (readCaptures_cuts rules).mono (fun p n h => ?_) fun text' c' h => ⟨m, rfl, s, hs, h⟩
  obtain ⟨hp, g, hg, hn⟩ := h
  exact hscopes hp (.group rfl hg hn)

/-- How a match cuts that closes or enters: first up to where it begins. -/
theorem closeRegion_cutsAfter {m : RuleMatch} (hrole : m.role = .close) :
    CutsAfter c.state.top.contentScopes m.start (r.MatchCut text c (some m))
      (r.MatchCalls text c (some m)) (fun f => r.closeRegion f text c m) := by
  have hclosed : ∀ {p n}, p.Extends c.state.top.nameScopes → CutAt text (some m) n →
      r.MatchCut text c (some m) p n := fun hp hn => ⟨.inr (.inl ⟨m, rfl, hrole, hp⟩), hn⟩
  unfold closeRegion
  refine ⟨_, rfl, ?_⟩
  dsimp only
  refine .bind (captures_cuts (.closes hrole) hclosed _) fun _ => ?_
  refine .bind (.produce (hclosed (.refl _) (.stop rfl))) fun _ => ?_
  split
  · exact finish_cuts (hclosed (.refl _) .whole)
  · exact .pure _

/-- The scopes of a rule that is entered extend those on top. -/
theorem entering_extends (r : LineReader σ) (text : String) (c : Cursor) (m : RuleMatch)
    (id : RuleId) (rule : Rule) :
    (r.entering text c m id rule).nameScopes.Extends c.state.top.contentScopes :=
  r.nameScopes_extends _ rule.name text m.captures

theorem openRegion_cuts {m : RuleMatch} {id : RuleId} (hrole : m.role = .enter id) {rule : Rule}
    (hrule : r.rules.table.get? id = some rule) (opening : CaptureRules)
    (contentName : Option ScopeTemplate) (ending : Pattern) :
    Cuts (r.MatchCut text c (some m)) (r.MatchCalls text c (some m)) fun f =>
      r.openRegion f text c m (r.entering text c m id rule) opening contentName ending := by
  have hentering := r.entering_extends text c m id rule
  unfold openRegion
  dsimp only
  refine .bind (captures_cuts (.enters hrole hrule)
    (fun hp hn => ⟨.inl (hp.trans hentering), hn⟩) opening) fun _ => ?_
  refine .bind (.produce ⟨.inl hentering, .stop rfl⟩) fun _ => ?_
  split
  · exact finish_cuts ⟨.inl (.refl _), .whole⟩
  · exact .pure _

theorem enterRule_cutsAfter {m : RuleMatch} {id : RuleId} (hrole : m.role = .enter id) {rule : Rule}
    (hrule : r.rules.table.get? id = some rule) :
    CutsAfter c.state.top.contentScopes m.start (r.MatchCut text c (some m))
      (r.MatchCalls text c (some m)) (fun f => r.enterRule f text c m id rule) := by
  have hentering := r.entering_extends text c m id rule
  unfold enterRule
  refine ⟨_, rfl, ?_⟩
  dsimp only
  cases hbody : rule.body with
  | region opening closing => exact openRegion_cuts hrole hrule _ _ _
  | block opening continuing => exact openRegion_cuts hrole hrule _ _ _
  | single matched =>
    refine .bind (captures_cuts (.enters hrole hrule)
      (fun hp hn => ⟨.inl (hp.trans hentering), hn⟩) matched.captures) fun _ => ?_
    refine .bind (.produce ⟨.inl hentering, .stop rfl⟩) fun _ => ?_
    split
    · next hstill =>
      have hstuck : r.Stuck c m := ⟨⟨id, rule, matched, hrole, hrule, hbody⟩, hstill⟩
      exact finish_cuts ⟨.inr (.inr ⟨m, rfl, hstuck, rfl⟩), .whole⟩
    · exact .pure _
  | choice inside => exact finish_cuts ⟨.inl (.refl _), .whole⟩
  | capture within => exact finish_cuts ⟨.inl (.refl _), .whole⟩

/-- **Taking a match only cuts and calls.** -/
theorem take_cuts (m : Option RuleMatch) :
    Cuts (r.MatchCut text c m) (r.MatchCalls text c m) (fun f => r.take f text c m) := by
  have hfinish : ∀ m, Cuts (r.MatchCut text c m) (r.MatchCalls text c m)
      (fun _ : ReadOn σ => finish text c.state) := fun _ => finish_cuts ⟨.inl (.refl _), .whole⟩
  unfold take
  cases m with
  | none => exact hfinish none
  | some m =>
    dsimp only
    cases hrole : m.role with
    | close => exact (closeRegion_cutsAfter hrole).cuts (gap_cut m)
    | continues => exact hfinish _
    | enter id =>
      dsimp only
      cases hrule : r.rules.table.get? id with
      | none => exact hfinish _
      | some rule => exact (enterRule_cutsAfter hrole hrule).cuts (gap_cut m)

/-! ## Turns -/

/-- **What taking a match comes to**: the turn of that match, and a line that ends is cut up to its
end. -/
structure Taken (r : LineReader σ) (text : String) (c : Cursor) (m : Option RuleMatch) (R : Round)
    (t : Reading σ) : Prop where
  /-- The turn. -/
  turn : r.Turn text c m R
  /-- A line that ends is cut up to its end. -/
  ended : ∀ s, R = .done s → text.utf8ByteSize ≤ t.segments.reached

variable {f : ReadOn σ} {m : Option RuleMatch}

theorem finish_takes {s : LineState} (h : r.Turn text c m (.done s)) :
    Ensures (fun _ => True) (finish text s) (r.Taken text c m) (fun _ _ => True) := by
  refine Ensures.bind (M := fun _ t => text.utf8ByteSize ≤ t.segments.reached)
    (Ensures.modifyGet fun t _ => ?_) fun _ => Ensures.pure fun t ht => ⟨h, fun _ _ => ht⟩
  dsimp only
  rw [Segments.reached_produce]
  exact Nat.le_max_right _ _

theorem next_takes {c' : Cursor} (h : r.Turn text c m (.next c')) :
    Ensures (fun _ => True) (pure (.next c') : Read σ Round) (r.Taken text c m)
      (fun _ _ => True) :=
  Ensures.pure fun _ _ => ⟨h, fun _ hs => by simp at hs⟩

theorem closeRegion_takes {m : RuleMatch} (hrole : m.role = .close) :
    Ensures (fun _ => True) (r.closeRegion f text c m) (r.Taken text c (some m))
      (fun _ _ => True) := by
  unfold closeRegion
  dsimp only
  refine Ensures.trivial.bind fun _ => Ensures.trivial.bind fun _ => ?_
  refine Ensures.trivial.bind fun _ => ?_
  split
  · exact finish_takes (.stays m)
  · next hearlier => exact next_takes (.leaves m hrole hearlier)

theorem openRegion_takes {m : RuleMatch} {id : RuleId} (hrole : m.role = .enter id) {rule : Rule}
    (hrule : r.rules.table.get? id = some rule) (opening : CaptureRules) {ending : Pattern}
    (hends : rule.body.ending? = some ending) :
    Ensures (fun _ => True)
      (r.openRegion f text c m (r.entering text c m id rule) opening rule.contentName ending)
      (r.Taken text c (some m)) (fun _ _ => True) := by
  unfold openRegion
  dsimp only
  refine Ensures.trivial.bind fun _ => Ensures.trivial.bind fun _ => ?_
  split
  · exact finish_takes (.rest _)
  · next hother => exact next_takes (.opens m id rule ending hrole hrule hends hother)

theorem enterRule_takes {m : RuleMatch} {id : RuleId} (hrole : m.role = .enter id) {rule : Rule}
    (hrule : r.rules.table.get? id = some rule) :
    Ensures (fun _ => True) (r.enterRule f text c m id rule) (r.Taken text c (some m))
      (fun _ _ => True) := by
  unfold enterRule
  dsimp only
  refine Ensures.trivial.bind fun _ => ?_
  split
  · next hbody => exact openRegion_takes hrole hrule _ (by rw [hbody]; rfl)
  · next hbody => exact openRegion_takes hrole hrule _ (by rw [hbody]; rfl)
  · refine Ensures.trivial.bind fun _ => Ensures.trivial.bind fun _ => ?_
    split
    · exact finish_takes (.stuck m)
    · next hfurther => exact next_takes (.passes m hfurther)
  · exact finish_takes (.rest _)
  · exact finish_takes (.rest _)

/-- **Taking a match is its turn.** -/
theorem take_takes (m : Option RuleMatch) :
    Ensures (fun _ => True) (r.take f text c m) (r.Taken text c m) (fun _ _ => True) := by
  unfold take
  split
  · exact finish_takes (.rest none)
  · next m =>
    split
    · next hrole => exact closeRegion_takes hrole
    · exact finish_takes (.rest _)
    · next id hrole =>
      split
      · exact finish_takes (.rest _)
      · next rule hrule => exact enterRule_takes hrole hrule

/-- **A round that comes to something** found a match, or none, and took it. -/
theorem exists_taken_of_round {t t' : Reading σ} {R : Round}
    (h : (r.round f text c).run t = .ok R t') :
    ∃ m t₁, (r.nextMatch text c).run t = .ok m t₁ ∧ (r.take f text c m).run t₁ = .ok R t' ∧
      r.Taken text c m R t' := by
  rw [round_eq] at h
  obtain ⟨m, t₁, hnext, htake⟩ := exists_of_run_bind h
  exact ⟨m, t₁, hnext, htake, (take_takes m).ok True.intro htake⟩

/-- What taking the match calls, the round calls. -/
theorem calls_round {t t₁ : Reading σ} (hnext : (r.nextMatch text c).run t = .ok m t₁)
    {text' : String} {c' : Cursor} {t' : Reading σ}
    (h : Calls (fun f => r.take f text c m) f t₁ text' c' t') :
    Calls (fun f => r.round f text c) f t text' c' t' := by
  intro g e t'' hg hfails
  dsimp only
  rw [round_eq, EStateM.run_bind, hnext]
  exact h g e t'' hg hfails

/-- **A round consults only** about what the match that it takes calls. -/
theorem matchCalls_of_consults {t : Reading σ} {text' : String} {c' : Cursor} {t' : Reading σ}
    (h : Consults (fun f => r.round f text c) f t text' c' t') :
    ∃ m t₁, (r.nextMatch text c).run t = .ok m t₁ ∧ r.MatchCalls text c m text' c' := by
  refine h.only (P := fun text' c' _ => ∃ m t₁, (r.nextMatch text c).run t = .ok m t₁ ∧
    r.MatchCalls text c m text' c') fun g hg => ?_
  rw [round_eq, round_eq, EStateM.run_bind, EStateM.run_bind]
  cases hnext : (r.nextMatch text c).run t with
  | error e t₁ => rfl
  | ok m t₁ =>
    have htake : r.take g text c m = r.take f text c m := (take_cuts m).congr
      fun text' c' hcalls => funext fun t' => hg text' c' t' ⟨m, t₁, hnext, hcalls⟩
    dsimp only
    rw [htake]

end LineReader

end Highlight
