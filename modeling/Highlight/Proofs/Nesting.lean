import Highlight.Proofs.Closing
import Mathlib.Data.List.TakeWhile

/-!
# Which groups a token of a match lies in

The groups of a match lie inside each other or side by side, and they are met in the order of
their numbers. The groups under way are closed late: one that has ended stays until the next group
begins. So what lies between two groups is cut when the second begins, or when all groups are over,
and by then several groups may have ended there.

What keeps track is the scopes that are due **at each position** that is not cut yet: those of the
innermost group under way that goes on after the position, and then the names of the groups still
to come that the position lies in. Closing groups cuts only positions before the next group, where
none of those to come has a say, and takes away only groups that have ended; a group that is opened
lies inside the innermost one under way, so that its own scopes are due up to its end. At the
beginning no group is under way, and the scopes due are those around the match and the names of all
groups that the position lies in.
-/

namespace Highlight

open Grammar

variable {σ : Type}

/-! ## Cutting with the scopes that are due -/

/-- What tiles the line between two positions lies between them. -/
theorem Span.Tile.bounds {start stop : Nat} {xs : List Span} (h : Span.Tile start xs stop) :
    ∀ s ∈ xs, start ≤ s.start ∧ s.stop ≤ stop := by
  induction xs generalizing start with
  | nil => simp
  | cons x xs ih =>
    obtain ⟨rfl, hlt, hrest⟩ := h
    refine List.forall_mem_cons.2 ⟨⟨Nat.le_refl _, hrest.le⟩, fun s hs => ?_⟩
    exact ⟨Nat.le_trans (Nat.le_of_lt hlt) (ih hrest s hs).1, (ih hrest s hs).2⟩

theorem Attribution.names_push (a : Attribution) (p : AttributedPath) (name : String) :
    (a.push p (some name)).names = p.names ++ Text.split ' ' name := by
  rw [push]
  generalize Text.split ' ' name = names
  induction names generalizing p with
  | nil => exact (List.append_nil _).symm
  | cons scope names ih =>
    have hscope : (a.pushScope p scope).names = p.names ++ [scope] := ScopePath.names_push p.path _
    rw [List.foldl_cons, ih, hscope, List.append_assoc]
    rfl

namespace Segments

/-- **Segments go on from others with the scopes that are due at each position**: new stretches
tile the line from where it was cut up to, and have the scopes due at each of their positions. -/
def GoesOn (due : Nat → AttributedPath) (t t' : Segments) : Prop :=
  ∃ added, t'.stretches = t.stretches ++ added ∧
    Span.Tile t.reached (added.map (·.1)) t'.reached ∧
    ∀ p ∈ added, ∀ b, p.1.start ≤ b → b < p.1.stop → p.2 = due b

namespace GoesOn

variable {due due' : Nat → AttributedPath} {t t' t'' : Segments}

theorem refl (due : Nat → AttributedPath) (t : Segments) : t.GoesOn due t :=
  ⟨[], (List.append_nil _).symm, rfl, by simp⟩

theorem le (h : t.GoesOn due t') : t.reached ≤ t'.reached := by
  obtain ⟨added, -, htile, -⟩ := h
  exact htile.le

theorem trans (h : t.GoesOn due t') (h' : t'.GoesOn due t'') : t.GoesOn due t'' := by
  obtain ⟨added, hadded, htile, hdue⟩ := h
  obtain ⟨added', hadded', htile', hdue'⟩ := h'
  refine ⟨added ++ added', ?_, ?_, ?_⟩
  · rw [hadded', hadded, List.append_assoc]
  · rw [List.map_append]
    exact htile.append htile'
  · intro p hp
    exact (List.mem_append.1 hp).elim (hdue p) (hdue' p)

/-- Only what is due between the two cuts matters. -/
theorem congr (h : t.GoesOn due t')
    (hdue : ∀ b, t.reached ≤ b → b < t'.reached → due b = due' b) : t.GoesOn due' t' := by
  obtain ⟨added, hadded, htile, hscopes⟩ := h
  refine ⟨added, hadded, htile, fun p hp b hstart hstop => ?_⟩
  obtain ⟨hfrom, hto⟩ := htile.bounds p.1 (List.mem_map_of_mem hp)
  rw [hscopes p hp b hstart hstop]
  exact hdue b (Nat.le_trans hfrom hstart) (Nat.lt_of_lt_of_le hstop hto)

end GoesOn

theorem goesOn_produce {due : Nat → AttributedPath} {t : Segments} {scopes : AttributedPath}
    {stop : Nat} (h : ∀ b, t.reached ≤ b → b < stop → scopes = due b) :
    t.GoesOn due (t.produce scopes stop) := by
  by_cases hlt : t.reached < stop
  · refine ⟨[(⟨t.reached, stop⟩, scopes)], stretches_produce hlt scopes, ?_, ?_⟩
    · rw [reached_produce, Nat.max_eq_right (Nat.le_of_lt hlt)]
      exact ⟨rfl, hlt, rfl⟩
    · intro p hp b
      rw [List.mem_singleton.1 hp]
      exact h b
  · rw [produce, if_neg hlt]
    exact .refl due t

end Segments

/-! ## Groups under way -/

/-- The scopes at a position, given the groups under way: those of the innermost one that goes on
after it, else those around the match. -/
def scopesUnder (content : AttributedPath) : List OpenGroup → Nat → AttributedPath
  | [], _ => content
  | g :: groups, b => if b < g.stop then g.scopes else scopesUnder content groups b

/-- In front of the end of the innermost group under way its scopes are due. -/
theorem scopesUnder_eq (content : AttributedPath) {groups : List OpenGroup} {b : Nat}
    (h : ∀ g ∈ groups.head?, b < g.stop) :
    scopesUnder content groups b = (groups.head?.map (·.scopes)).getD content := by
  cases groups with
  | nil => rfl
  | cons g groups => exact if_pos (h g rfl)

/-- **What closing groups at a position does**, given the segments and the groups under way before
and after. -/
structure Closes (content : AttributedPath) (position : Nat) (t : Segments)
    (groups : List OpenGroup) (t' : Segments) (left : List OpenGroup) : Prop where
  /-- The line is cut with the scopes of the groups under way. -/
  goesOn : t.GoesOn (scopesUnder content groups) t'
  /-- It is not cut after the position. -/
  reached_le : t'.reached ≤ max t.reached position
  /-- The groups that are closed are over. -/
  under : ∀ b, t'.reached ≤ b → scopesUnder content groups b = scopesUnder content left b
  /-- The outermost groups stay. -/
  suffix : left <:+ groups
  /-- The innermost of them goes on after the position. -/
  lt_stop : ∀ g ∈ left.head?, position < g.stop

theorem closeGroups_closes (content : AttributedPath) (position : Nat) (t : Segments)
    (groups : List OpenGroup) :
    Closes content position t groups (closeGroups position t groups).1
      (closeGroups position t groups).2 := by
  induction groups generalizing t with
  | nil => exact ⟨.refl _ t, Nat.le_max_left _ _, fun _ _ => rfl, List.suffix_rfl, by
      simp [closeGroups]⟩
  | cons g groups ih =>
    rw [closeGroups]
    split
    · have h := ih (t.produce g.scopes g.stop)
      have hafter : ∀ b, (t.produce g.scopes g.stop).reached ≤ b →
          scopesUnder content (g :: groups) b = scopesUnder content groups b := by
        intro b hb
        rw [Segments.reached_produce] at hb
        rw [scopesUnder, if_neg (by omega)]
      have hclosed : t.GoesOn (scopesUnder content (g :: groups)) (t.produce g.scopes g.stop) :=
        Segments.goesOn_produce fun b _ hb => by rw [scopesUnder, if_pos hb]
      refine ⟨hclosed.trans (h.goesOn.congr fun b hb _ => (hafter b hb).symm), ?_, fun b hb => ?_,
        h.suffix.trans (List.suffix_cons g groups), h.lt_stop⟩
      · have hreached := h.reached_le
        rw [Segments.reached_produce] at hreached
        omega
      · exact (hafter b (Nat.le_trans h.goesOn.le hb)).trans (h.under b hb)
    · next hstop =>
      refine ⟨.refl _ t, Nat.le_max_left _ _, fun _ _ => rfl, List.suffix_rfl, ?_⟩
      simpa using hstop

/-- Closing all groups is closing them at a position where all have ended. -/
theorem closeAllGroups_eq {position : Nat} {groups : List OpenGroup}
    (h : ∀ g ∈ groups, g.stop ≤ position) (t : Segments) :
    closeAllGroups t groups = (closeGroups position t groups).1 ∧
      (closeGroups position t groups).2 = [] := by
  induction groups generalizing t with
  | nil => exact ⟨rfl, rfl⟩
  | cons g groups ih =>
    obtain ⟨hg, hgroups⟩ := List.forall_mem_cons.1 h
    rw [closeGroups, if_pos hg]
    exact ih hgroups _

/-! ## The groups of a match -/

/-- A stretch **encloses** another. -/
def Span.Encloses (s u : Span) : Prop := s.start ≤ u.start ∧ u.stop ≤ s.stop

instance (s u : Span) : Decidable (s.Encloses u) := inferInstanceAs (Decidable (_ ∧ _))

/-- A stretch encloses a later one, or is over where that begins. -/
def Span.Nests (s u : Span) : Prop := s.Encloses u ∨ s.stop ≤ u.start

instance (s u : Span) : Decidable (s.Nests u) := inferInstanceAs (Decidable (_ ∨ _))

theorem Span.Nests.start_le {s u : Span} (h : s.Nests u) (hs : s.start ≤ s.stop) :
    s.start ≤ u.start := h.elim (·.1) (Nat.le_trans hs)

/-- **The groups of a match are nested**: those that are not empty lie in the match, and each lies
in any group before it or begins when that is over. -/
structure Captures.Nested (captures : Captures) (whole : Span) : Prop where
  /-- No group ends before it starts. -/
  forward : ∀ group ∈ captures, ∀ s ∈ group, s.start ≤ s.stop
  /-- The groups that are not empty lie in the match. -/
  inside : ∀ group ∈ captures, ∀ s ∈ group, s.start ≠ s.stop → whole.Encloses s
  /-- Each lies in any group before it, or begins when that is over. -/
  nests : captures.Pairwise fun group later =>
    ∀ s ∈ group, ∀ u ∈ later, s.start ≠ s.stop → u.start ≠ u.stop → s.Nests u

/-- The groups that have a rule and took part in a match, by growing number. -/
def Grammar.CaptureRules.captured (rules : CaptureRules) (captures : Captures) :
    List (RuleId × Span) :=
  rules.rules.filterMap fun (group, id) => captures[group]?.join.map fun s => (id, s)

theorem Grammar.CaptureRules.mem_captured {rules : CaptureRules} {captures : Captures}
    {p : RuleId × Span} :
    p ∈ rules.captured captures ↔
      ∃ group, (group, p.1) ∈ rules.rules ∧ captures[group]? = some (some p.2) := by
  obtain ⟨id, s⟩ := p
  simp [captured, Option.join_eq_some_iff]

namespace Captures.Nested

variable {captures : Captures} {whole : Span}

theorem inside_of_mem (h : captures.Nested whole) {rules : CaptureRules} {p : RuleId × Span}
    (hp : p ∈ rules.captured captures) (hne : p.2.start ≠ p.2.stop) :
    p.2.start < p.2.stop ∧ whole.Encloses p.2 := by
  obtain ⟨group, -, hgroup⟩ := CaptureRules.mem_captured.1 hp
  have hmem := List.mem_of_getElem? hgroup
  exact ⟨Nat.lt_of_le_of_ne (h.forward _ hmem _ rfl) hne, h.inside _ hmem _ rfl hne⟩

/-- All groups of a match that are not empty matter. -/
theorem groups_eq (h : captures.Nested whole) (rules : CaptureRules) :
    rules.groups captures whole =
      (rules.captured captures).filter fun p => p.2.start ≠ p.2.stop := by
  have hgroups : rules.groups captures whole =
      ((rules.captured captures).filter fun p => p.2.start ≠ p.2.stop).takeWhile
        fun p => p.2.start ≤ whole.stop := by
    rw [CaptureRules.groups, CaptureRules.captured, List.filter_filterMap]
    simp only [Option.filter_map]
    rfl
  rw [hgroups, List.takeWhile_eq_self_iff]
  intro p hp
  obtain ⟨hp, hne⟩ := List.mem_filter.1 hp
  obtain ⟨hlt, -, hstop⟩ := h.inside_of_mem hp (of_decide_eq_true hne)
  exact decide_eq_true (Nat.le_trans (Nat.le_of_lt hlt) hstop)

/-- Listed by growing number, each group lies in any before it or begins when that is over. -/
theorem pairwise_groups (h : captures.Nested whole) {rules : CaptureRules}
    (hgrowing : rules.rules.Pairwise (·.1 < ·.1)) :
    (rules.groups captures whole).Pairwise fun p q => p.2.Nests q.2 := by
  rw [h.groups_eq, List.pairwise_filter, CaptureRules.captured, List.pairwise_filterMap]
  refine hgrowing.imp fun {a b} hlt p hp q hq hpne hqne => ?_
  obtain ⟨s, hs, rfl⟩ := Option.map_eq_some_iff.1 hp
  obtain ⟨u, hu, rfl⟩ := Option.map_eq_some_iff.1 hq
  obtain ⟨ha, hs⟩ := List.getElem?_eq_some_iff.1 (Option.join_eq_some_iff.1 hs)
  obtain ⟨hb, hu⟩ := List.getElem?_eq_some_iff.1 (Option.join_eq_some_iff.1 hu)
  exact List.pairwise_iff_getElem.1 h.nests a.1 b.1 ha hb hlt s hs u hu (of_decide_eq_true hpne)
    (of_decide_eq_true hqne)

end Captures.Nested

/-- The rule that reads the text of a group on. -/
def Grammar.RuleBody.within? : RuleBody → Option RuleId
  | .capture within => within
  | _ => none

namespace LineReader

/-- **Rules for groups that only name them**: they are listed by growing group number, and none
has the text of its group read on. -/
structure OnlyNames (r : LineReader σ) (rules : CaptureRules) : Prop where
  /-- The rules are listed by growing group number. -/
  growing : rules.rules.Pairwise (·.1 < ·.1)
  /-- No rule has the text of its group read on. -/
  within : ∀ p ∈ rules.rules, ∀ body ∈ r.rules.table.body? p.2, body.within? = none

/-- The name of a group after a match, if its rule has one. -/
def nameOf? (r : LineReader σ) (text : String) (captures : Captures) (id : RuleId) :
    Option String :=
  match r.rules.table.get? id with
  | some ⟨some name, _, .capture none⟩ => some (name.resolve text captures)
  | _ => none

/-- **The names of the groups that a position lies in**, in the order of the groups. -/
def namesAt (r : LineReader σ) (text : String) (captures : Captures)
    (groups : List (RuleId × Span)) (b : Nat) : List String :=
  groups.filterMap fun (id, s) =>
    if s.start ≤ b ∧ b < s.stop then r.nameOf? text captures id else none

/-- A path with names pushed onto it one after another. -/
def pushAll (r : LineReader σ) (path : AttributedPath) (names : List String) : AttributedPath :=
  names.foldl (fun path name => r.attribution.push path (some name)) path

/-- The scopes due at a position, given the groups under way and those to come. -/
def due (r : LineReader σ) (text : String) (captures : Captures) (content : AttributedPath)
    (openGroups : List OpenGroup) (groups : List (RuleId × Span)) (b : Nat) : AttributedPath :=
  r.pushAll (scopesUnder content openGroups b) (r.namesAt text captures groups b)

/-- **Groups under way that await others**: they are over where the match is, and a group to come
ends before they do or begins when they are over. -/
def Await (stop : Nat) (groups : List (RuleId × Span)) (openGroups : List OpenGroup) : Prop :=
  ∀ g ∈ openGroups, g.stop ≤ stop ∧ ∀ p ∈ groups, p.2.stop ≤ g.stop ∨ g.stop ≤ p.2.start

variable {r : LineReader σ} {text : String} {captures : Captures}

theorem names_pushAll (path : AttributedPath) (names : List String) :
    (r.pushAll path names).names = path.names ++ names.flatMap (Text.split ' ') := by
  induction names generalizing path with
  | nil => exact (List.append_nil _).symm
  | cons name names ih =>
    have hpush : (r.attribution.push path (some name)).names = path.names ++ Text.split ' ' name :=
      r.attribution.names_push path name
    rw [List.flatMap_cons, ← List.append_assoc, ← hpush, ← ih]
    rfl

theorem namesAt_eq_nil {groups : List (RuleId × Span)} {b : Nat}
    (h : ∀ p ∈ groups, b < p.2.start) : r.namesAt text captures groups b = [] := by
  refine List.filterMap_eq_nil_iff.2 fun p hp => if_neg ?_
  exact fun hb => absurd hb.1 (Nat.not_le.2 (h p hp))

/-- A group that a position does not lie in, or that has no name, gives none. -/
theorem namesAt_cons_of_none {id : RuleId} {s : Span} {groups : List (RuleId × Span)} {b : Nat}
    (h : s.start ≤ b ∧ b < s.stop → r.nameOf? text captures id = none) :
    r.namesAt text captures ((id, s) :: groups) b = r.namesAt text captures groups b := by
  refine List.filterMap_cons_none ?_
  dsimp only
  split
  · next hb => exact h hb
  · rfl

theorem namesAt_cons_of_some {id : RuleId} {s : Span} {groups : List (RuleId × Span)} {b : Nat}
    {name : String} (hb : s.start ≤ b ∧ b < s.stop) (h : r.nameOf? text captures id = some name) :
    r.namesAt text captures ((id, s) :: groups) b =
      name :: r.namesAt text captures groups b :=
  List.filterMap_cons_some ((if_pos hb).trans h)

variable {content : AttributedPath} {openGroups left : List OpenGroup}

/-- The groups under way after a group has begun. -/
def groupsWith (r : LineReader σ) (text : String) (captures : Captures) (content : AttributedPath)
    (left : List OpenGroup) (id : RuleId) (stop : Nat) : List OpenGroup :=
  match r.nameOf? text captures id with
  | some name =>
    ⟨r.attribution.push ((left.head?.map (·.scopes)).getD content) (some name), stop⟩ :: left
  | none => left

/-- **A group that begins takes over what is due.** One with a name is under way up to its end,
and ends before the innermost of those that were under way. -/
theorem due_cons {id : RuleId} {s : Span} {groups : List (RuleId × Span)} {b : Nat}
    (hb : s.start ≤ b)
    (hunder : scopesUnder content openGroups b = scopesUnder content left b)
    (hleft : ∀ g ∈ left.head?, s.stop ≤ g.stop) :
    r.due text captures content openGroups ((id, s) :: groups) b =
      r.due text captures content (r.groupsWith text captures content left id s.stop) groups b := by
  rw [due, due, hunder, groupsWith]
  cases hname : r.nameOf? text captures id with
  | none => rw [namesAt_cons_of_none fun _ => hname]
  | some name =>
    by_cases hstop : b < s.stop
    · have hinner := scopesUnder_eq content fun g hg => Nat.lt_of_lt_of_le hstop (hleft g hg)
      rw [namesAt_cons_of_some ⟨hb, hstop⟩ hname, hinner]
      dsimp only
      rw [scopesUnder, if_pos hstop]
      rfl
    · rw [namesAt_cons_of_none fun h => absurd h.2 hstop]
      dsimp only
      rw [scopesUnder, if_neg hstop]

/-- A group that begins awaits those that come after it. -/
theorem await_groupsWith {stop : Nat} {groups : List (RuleId × Span)}
    (hleft : Await stop groups left) (id : RuleId) {s : Span} (hs : s.stop ≤ stop)
    (hnests : ∀ p ∈ groups, s.Nests p.2) :
    Await stop groups (r.groupsWith text captures content left id s.stop) := by
  rw [groupsWith]
  split
  · exact List.forall_mem_cons.2
      ⟨⟨hs, fun p hp => (hnests p hp).imp_left (·.2)⟩, hleft⟩
  · exact hleft

/-- Reading a group that has no text of its own read on: those before it are closed, the line is
cut up to it, and it is under way if it has a name. -/
theorem readGroups_cons (readOn : ReadOn σ) (c : Cursor) {id : RuleId}
    (hid : ∀ body ∈ r.rules.table.body? id, body.within? = none) (s : Span)
    (groups : List (RuleId × Span)) (openGroups : List OpenGroup) (t : Reading σ) :
    r.readGroups readOn text c captures ((id, s) :: groups) openGroups t =
      let closed := closeGroups s.start t.segments openGroups
      let around := (closed.2.head?.map (·.scopes)).getD c.state.top.contentScopes
      r.readGroups readOn text c captures groups
        (r.groupsWith text captures c.state.top.contentScopes closed.2 id s.stop)
        { t with segments := closed.1.produce around s.start } := by
  rw [readGroups]
  simp only [groupsWith, nameOf?]
  cases hrule : r.rules.table.get? id with
  | none => rfl
  | some rule =>
    obtain ⟨name, contentName, body⟩ := rule
    cases body with
    | capture within =>
      cases within with
      | some within =>
        have hbody : r.rules.table.body? id = some (.capture (some within)) := by
          rw [RuleTable.body?, hrule]
          rfl
        exact absurd (hid _ hbody) (Option.some_ne_none within)
      | none => cases name <;> rfl
    | _ => cases name <;> rfl

/-- **Reading groups cuts with the scopes that are due**, if each lies in any group before it or
begins when that is over, and so with those under way. -/
theorem readGroups_goesOn (r : LineReader σ) (text : String) (captures : Captures)
    (readOn : ReadOn σ) (c : Cursor) {stop : Nat} {groups : List (RuleId × Span)}
    (hwithin : ∀ p ∈ groups, ∀ body ∈ r.rules.table.body? p.1, body.within? = none)
    (hgroups : ∀ p ∈ groups, p.2.start < p.2.stop ∧ p.2.stop ≤ stop)
    (hnests : groups.Pairwise fun p q => p.2.Nests q.2) {openGroups : List OpenGroup}
    (hopen : Await stop groups openGroups) (t : Reading σ) :
    ∃ segments, r.readGroups readOn text c captures groups openGroups t =
        .ok () { t with segments := segments } ∧
      segments.reached ≤ max t.segments.reached stop ∧
      t.segments.GoesOn (r.due text captures c.state.top.contentScopes openGroups groups)
        (segments.produce c.state.top.contentScopes stop) := by
  induction groups generalizing openGroups t with
  | nil =>
    obtain ⟨hall, hleft⟩ := closeAllGroups_eq (fun g hg => (hopen g hg).1) t.segments
    have hcloses := closeGroups_closes c.state.top.contentScopes stop t.segments openGroups
    refine ⟨closeAllGroups t.segments openGroups, rfl, ?_, ?_⟩
    · rw [hall]
      exact hcloses.reached_le
    · rw [hall]
      refine hcloses.goesOn.trans (Segments.goesOn_produce fun b hb _ => ?_)
      have hunder := hcloses.under b hb
      rw [hleft] at hunder
      exact hunder.symm
  | cons p groups ih =>
    obtain ⟨id, s⟩ := p
    obtain ⟨hid, hwithin⟩ := List.forall_mem_cons.1 hwithin
    obtain ⟨⟨hs, hsstop⟩, hgroups⟩ := List.forall_mem_cons.1 hgroups
    obtain ⟨hsnests, hnests⟩ := List.pairwise_cons.1 hnests
    dsimp only at hs hsstop hsnests
    have hcloses := closeGroups_closes c.state.top.contentScopes s.start t.segments openGroups
    rw [readGroups_cons readOn c hid]
    dsimp only
    generalize closeGroups s.start t.segments openGroups = closed at hcloses ⊢
    obtain ⟨cut, left⟩ := closed
    generalize c.state.top.contentScopes = content at hcloses ih ⊢
    dsimp only at hcloses ⊢
    generalize haround : (left.head?.map (·.scopes)).getD content = around
    have hleft : Await stop ((id, s) :: groups) left := fun g hg =>
      hopen g (hcloses.suffix.mem hg)
    -- the innermost group under way goes on after the start of this one, so it encloses it
    have hend : ∀ g ∈ left.head?, s.stop ≤ g.stop := fun g hg =>
      ((hleft g (List.mem_of_mem_head? hg)).2 _ List.mem_cons_self).resolve_right
        (Nat.not_le.2 (hcloses.lt_stop g hg))
    have hopened : Await stop groups (r.groupsWith text captures content left id s.stop) :=
      await_groupsWith (fun g hg => ⟨(hleft g hg).1, (List.forall_mem_cons.1 (hleft g hg).2).2⟩) id
        hsstop hsnests
    obtain ⟨segments, hrun, hreached, hgoes⟩ :=
      ih hwithin hgroups hnests hopened { t with segments := cut.produce around s.start }
    have hcut := hcloses.reached_le
    rw [Segments.reached_produce] at hreached
    refine ⟨segments, hrun, by omega, ?_⟩
    -- up to the start of this group none of those to come has a say
    have hbefore : t.segments.GoesOn (scopesUnder content openGroups)
        (cut.produce around s.start) := by
      refine hcloses.goesOn.trans (Segments.goesOn_produce fun b hb hlt => ?_)
      rw [hcloses.under b hb, ← haround]
      exact (scopesUnder_eq content fun g hg => Nat.lt_trans hlt (hcloses.lt_stop g hg)).symm
    refine (hbefore.congr fun b hfrom hb => ?_).trans (hgoes.congr fun b hb _ => ?_)
    · rw [Segments.reached_produce] at hb
      rw [due, namesAt_eq_nil]
      · rfl
      · refine List.forall_mem_cons.2 ⟨by dsimp only; omega, fun q hq => ?_⟩
        have hq := (hsnests q hq).start_le (Nat.le_of_lt hs)
        omega
    · rw [Segments.reached_produce] at hb
      exact (due_cons (by omega) (hcloses.under b (by omega)) hend).symm

/-- A position lies in no empty group. -/
theorem namesAt_filter (groups : List (RuleId × Span)) (b : Nat) :
    r.namesAt text captures (groups.filter fun p => p.2.start ≠ p.2.stop) b =
      r.namesAt text captures groups b := by
  rw [namesAt, namesAt, List.filterMap_filter]
  refine congrArg (List.filterMap · groups) (funext fun p => ?_)
  obtain ⟨id, s⟩ := p
  dsimp only
  by_cases h : s.start = s.stop
  · rw [if_neg (by simpa using h), if_neg (by omega)]
  · rw [if_pos (by simpa using h)]

/-- **The tokens of a match have the names of all groups that they lie in.** Reading its groups and
cutting up to its end goes well, and adds stretches from where the line was cut up to, each with
the scopes around the match and the names of the groups that its positions lie in. -/
theorem readCaptures_goesOn (text : String) (readOn : ReadOn σ) (c : Cursor)
    {rules : CaptureRules} (hrules : r.OnlyNames rules) {whole : Span}
    (hwhole : captures.whole? = some whole) (hnested : captures.Nested whole) (t : Reading σ) :
    ∃ segments,
      (do r.readCaptures readOn text c rules captures
          Read.produce c.state.top.contentScopes whole.stop) t =
        .ok () { t with segments := segments } ∧
      ∃ added, segments.stretches = t.segments.stretches ++ added ∧
        Span.Tile t.segments.reached (added.map (·.1)) (max t.segments.reached whole.stop) ∧
        ∀ p ∈ added, ∀ b, p.1.start ≤ b → b < p.1.stop →
          p.2 = r.pushAll c.state.top.contentScopes
            (r.namesAt text captures (rules.captured captures) b) ∧
          p.2.names = c.state.top.contentScopes.names ++
            (r.namesAt text captures (rules.captured captures) b).flatMap (Text.split ' ') := by
  have hgroups : ∀ p ∈ rules.groups captures whole,
      p ∈ rules.captured captures ∧ p.2.start ≠ p.2.stop := by
    intro p hp
    rw [hnested.groups_eq] at hp
    exact (List.mem_filter.1 hp).imp_right of_decide_eq_true
  have hwithin : ∀ p ∈ rules.groups captures whole, ∀ body ∈ r.rules.table.body? p.1,
      body.within? = none := by
    intro p hp
    obtain ⟨group, hmem, -⟩ := CaptureRules.mem_captured.1 (hgroups p hp).1
    exact hrules.within _ hmem
  have hstop : ∀ p ∈ rules.groups captures whole, p.2.start < p.2.stop ∧ p.2.stop ≤ whole.stop :=
    fun p hp => (hnested.inside_of_mem (hgroups p hp).1 (hgroups p hp).2).imp_right (·.2)
  have hnone : Await whole.stop (rules.groups captures whole) [] := by simp [Await]
  obtain ⟨segments, hrun, hreached, hgoes⟩ := r.readGroups_goesOn text captures readOn c hwithin
    hstop (hnested.pairwise_groups hrules.growing) hnone t
  have hcaptures : r.readCaptures readOn text c rules captures =
      r.readGroups readOn text c captures (rules.groups captures whole) [] := by
    rw [readCaptures, hwhole]
  refine ⟨segments.produce c.state.top.contentScopes whole.stop, ?_, ?_⟩
  · rw [hcaptures]
    show EStateM.bind _ _ t = _
    rw [EStateM.bind, hrun]
    rfl
  · have hle := hgoes.le
    obtain ⟨added, hadded, htile, hdue⟩ := hgoes
    rw [Segments.reached_produce] at htile hle
    refine ⟨added, hadded, ?_, fun p hp b hstart hstop => ?_⟩
    · have hend : max segments.reached whole.stop = max t.segments.reached whole.stop := by omega
      rwa [hend] at htile
    · have hp := hdue p hp b hstart hstop
      rw [due, hnested.groups_eq, namesAt_filter] at hp
      refine ⟨hp, ?_⟩
      rw [hp]
      exact names_pushAll _ _

end LineReader

namespace Session

/-- A grammar in which a definition has a name of two parts. -/
def hyphenated : Definition where
  scopeName := "source"
  patterns := [{
    pattern := some "(def) ((\\w+)-(\\w+))"
    captures := some [
      (1, { name := some "keyword" }),
      (2, { name := some "entity" }),
      (4, { name := some "suffix.${4:/upcase}" })] }]

/-- What reads its lines. -/
def hyphenReader : LineReader Unit := (regexSession hyphenated []).highlighter.reader

/-- The rules for the groups of its pattern. -/
def hyphenRules : CaptureRules :=
  match hyphenReader.rules.table.body? ⟨2⟩ with
  | some (.single matched) => matched.captures
  | _ => {}

/-- The groups of its match on a line: the first word, the name, and the parts of the name. -/
def hyphenGroups : Captures :=
  [some ⟨0, 11⟩, some ⟨0, 3⟩, some ⟨4, 11⟩, some ⟨4, 7⟩, some ⟨8, 11⟩]

/-- The second part of the name lies in the group of the name and in its own. -/
theorem readCaptures_goesOn_hyphenated :
    ∃ x ∈ (regexSession hyphenated []).firstMatch? "def foo-bar;" none,
      x.2 = ⟨.enter ⟨2⟩, hyphenGroups⟩ ∧ hyphenReader.OnlyNames hyphenRules ∧
      hyphenGroups.whole? = some ⟨0, 11⟩ ∧ hyphenGroups.Nested ⟨0, 11⟩ ∧
      ∃ segments,
        (do hyphenReader.readCaptures (hyphenReader.readOn 0) "def foo-bar;" x.1 hyphenRules
              hyphenGroups
            Read.produce x.1.state.top.contentScopes 11)
          ⟨(regexSession hyphenated []).searching, {}⟩ =
          .ok () ⟨(regexSession hyphenated []).searching, segments⟩ ∧
        Span.Tile 0 (segments.stretches.map (·.1)) 11 ∧
        ∀ p ∈ segments.stretches, p.1.start ≤ 8 → 8 < p.1.stop →
          p.2.names = ["source", "entity", "suffix.BAR"] := by
  have hmatch : ∃ x ∈ (regexSession hyphenated []).firstMatch? "def foo-bar;" none,
      x.2 = ⟨.enter ⟨2⟩, hyphenGroups⟩ ∧ x.1.state.top.contentScopes.names = ["source"] := by
    decide +kernel
  obtain ⟨⟨c, m⟩, hfirst, hm, hcontent⟩ := hmatch
  have hrules : hyphenReader.OnlyNames hyphenRules := ⟨by decide +kernel, by decide +kernel⟩
  have hnested : hyphenGroups.Nested ⟨0, 11⟩ := ⟨by decide, by decide, by decide⟩
  have hnames : (hyphenReader.namesAt "def foo-bar;" hyphenGroups
      (hyphenRules.captured hyphenGroups) 8).flatMap (Text.split ' ') =
        ["entity", "suffix.BAR"] := by
    decide +kernel
  obtain ⟨segments, hrun, added, hadded, htile, hdue⟩ :=
    LineReader.readCaptures_goesOn "def foo-bar;" (hyphenReader.readOn 0) c hrules rfl hnested
      ⟨(regexSession hyphenated []).searching, {}⟩
  refine ⟨_, hfirst, hm, hrules, rfl, hnested, segments, hrun, ?_, fun p hp hstart hstop => ?_⟩
  · rw [hadded]
    exact htile
  · rw [hadded] at hp
    rw [(hdue p hp 8 hstart hstop).2, hnames, hcontent]
    rfl

end Session

end Highlight
