import Highlight.Line.Blocks
import Highlight.Proofs.Reading

/-!
# What reading the groups of a match keeps

The groups of a match are cut one after another, and the groups under way when one begins are
those that it lies inside of, or that began where it does. All of them lie where the text may be
cut, so nothing goes wrong with them. Where the text of a group is read on, the frame of its rule
stands on the frame of the rule around it, so that whoever reads it on is called with frames that
are sound.
-/

namespace Highlight

open Grammar

variable {σ : Type}

namespace LineReader

theorem nameScopes_extends (r : LineReader σ) (path : AttributedPath)
    (name : Option ScopeTemplate) (text : String) (captures : Captures) :
    (r.nameScopes path name text captures).Extends path := r.attribution.push_extends path _

namespace Kept

variable {r : LineReader σ} {K : r.Kept}

theorem scopes_nameScopes {path : AttributedPath} (h : K.scopes path)
    (name : Option ScopeTemplate) (text : String) (captures : Captures) :
    K.scopes (r.nameScopes path name text captures) := K.push.push _ h

/-- The scopes on top are good. -/
theorem State.content {s : LineState} (h : K.State s) : K.scopes s.top.contentScopes :=
  (h.good s.top (LineState.Sound.top_mem s)).2

/-- The scopes of the delimiters on top are good. -/
theorem State.name {s : LineState} (h : K.State s) : K.scopes s.top.nameScopes :=
  (h.good s.top (LineState.Sound.top_mem s)).1

/-! ## Groups under way -/

/-- The groups under way have good scopes and end where the text may be cut. -/
def Open (K : r.Kept) (text : String) (groups : List OpenGroup) : Prop :=
  ∀ g ∈ groups, K.scopes g.scopes ∧ K.position text g.stop

/-- Closing groups keeps the segments, and the groups that stay open are some of those before. -/
theorem closeGroups_keeps {text : String} (position : Nat) {t : Segments}
    {groups : List OpenGroup} (ht : K.segments t) (hgroups : K.Open text groups) :
    K.segments (closeGroups position t groups).1 ∧
      K.Open text (closeGroups position t groups).2 := by
  induction groups generalizing t with
  | nil => exact ⟨ht, hgroups⟩
  | cons g rest ih =>
    obtain ⟨⟨hscopes, hstop⟩, hrest⟩ := List.forall_mem_cons.1 hgroups
    rw [closeGroups]
    split
    · exact ih (K.produce _ _ _ _ ht hscopes hstop) hrest
    · exact ⟨ht, hgroups⟩

theorem closeAllGroups_keeps {text : String} {t : Segments} {groups : List OpenGroup}
    (ht : K.segments t) (hgroups : K.Open text groups) : K.segments (closeAllGroups t groups) := by
  induction groups generalizing t with
  | nil => exact ht
  | cons g rest ih =>
    obtain ⟨⟨hscopes, hstop⟩, hrest⟩ := List.forall_mem_cons.1 hgroups
    exact ih (K.produce _ _ _ _ ht hscopes hstop) hrest

/-! ## Reading groups -/

variable {quits : LineError → Prop} {f g : ReadOn σ} {text : String} {c : Cursor}

/-- Having the text of a group read on. -/
theorem readOnGroup_follows (hanswers : K.Answers quits f g) (hc : K.Stands text c)
    (captures : Captures) (rule : Rule) {id : RuleId} (hid : r.ForGroup id) {s : Span}
    (hs : K.Allows text s) :
    Follows quits K.Sound (r.readOnGroup f text c captures rule id s)
      (r.readOnGroup g text c captures rule id s) (fun _ => K.Sound) K.Fails := by
  unfold readOnGroup
  dsimp only
  cases hbefore : Text.before? text s.stop with
  | none => exact (Ensures.throw (fun t ht => ⟨hs.outside hbefore, ht⟩)).follows
  | some inner =>
    obtain ⟨hinner, hstart⟩ := hs.within inner hbefore
    refine hanswers inner _ ⟨hinner, hstart, ?_⟩ hid
    · have hname := K.scopes_nameScopes (State.content hc.state) rule.name text captures
      exact hc.state.push (r.nameScopes_extends _ rule.name text captures)
        (r.nameScopes_extends _ rule.contentName text captures)
        ⟨hname, K.scopes_nameScopes hname rule.contentName text captures⟩

/-- Reading the groups, one after another. -/
theorem readGroups_follows (hanswers : K.Answers quits f g) (hc : K.Stands text c)
    (captures : Captures) {list : List (RuleId × Span)}
    (hlist : ∀ p ∈ list, K.Allows text p.2) {groups : List OpenGroup}
    (hgroups : K.Open text groups) :
    Follows quits K.Sound (r.readGroups f text c captures list groups)
      (r.readGroups g text c captures list groups) (fun _ => K.Sound) K.Fails := by
  induction list generalizing groups with
  | nil =>
    have hall : Ensures K.Sound
        (modify (fun t => { t with segments := closeAllGroups t.segments groups }) : Read σ Unit)
        (fun _ => K.Sound) K.Fails :=
      Ensures.modifyGet (fun t ht => ⟨ht.cache, closeAllGroups_keeps ht.segments hgroups⟩)
    exact hall.follows
  | cons p rest ih =>
    obtain ⟨id, s⟩ := p
    obtain ⟨hs, hrest⟩ := List.forall_mem_cons.1 hlist
    rw [readGroups, readGroups]
    refine Follows.bind (M := fun groups t => K.Sound t ∧ K.Open text groups)
      (Ensures.follows (Ensures.modifyGet (fun t ht => ?_))) (fun groups => ?_)
    · obtain ⟨hsegments, hopen⟩ := closeGroups_keeps s.start ht.segments hgroups
      exact ⟨⟨ht.cache, hsegments⟩, hopen⟩
    · refine Follows.assuming (fun hopen => ?_)
      -- what is around the group: the innermost group under way, or the rule on top
      have haround : K.scopes ((groups.head?.map (·.scopes)).getD c.state.top.contentScopes) := by
        cases groups with
        | nil => exact State.content hc.state
        | cons g groups => exact (hopen g List.mem_cons_self).1
      refine Follows.bind (K.produce_ensures haround hs.start).follows (fun _ => ?_)
      split
      · next name contentName within hrule =>
        have hwithin : r.ForGroup within := ⟨id, name, contentName, hrule⟩
        exact Follows.bind (readOnGroup_follows hanswers hc captures _ hwithin hs)
          (fun _ => ih hrest hopen)
      · next name _ _ =>
        refine ih hrest (fun g hg => ?_)
        obtain rfl | hg := List.mem_cons.1 hg
        · exact ⟨K.scopes_nameScopes haround (some name) text captures, hs.stop⟩
        · exact hopen g hg
      · exact ih hrest hopen

/-- **Reading the groups of a match** that lie where the text may be cut. -/
theorem readCaptures_follows (hanswers : K.Answers quits f g) (hc : K.Stands text c)
    (rules : CaptureRules) {captures : Captures} (hcaptures : K.AllowsAll text captures) :
    Follows quits K.Sound (r.readCaptures f text c rules captures)
      (r.readCaptures g text c rules captures) (fun _ => K.Sound) K.Fails := by
  unfold readCaptures
  split
  · exact (Ensures.pure (Q := fun _ => K.Sound) (fun t ht => ht)).follows
  · next whole _ =>
    exact readGroups_follows hanswers hc captures (hcaptures.groups rules whole)
      (fun g hg => by simp at hg)

/-! ## Blocks -/

/-- A cursor that goes forward to where the text may be cut stands where it may be cut. -/
theorem position_advance {c : Cursor} {n : Nat} (hc : K.position text c.position)
    (hn : K.position text n) : K.position text (c.advance n).position := by
  unfold Cursor.advance
  split
  · exact hn
  · exact hc

theorem state_advance (c : Cursor) (n : Nat) : (c.advance n).state = c.state := by
  unfold Cursor.advance
  split <;> rfl

/-- The states in which the open blocks are on top remain as frames are taken away. -/
theorem mem_chain_of_mem_openBlocks {s : LineState} :
    ∀ b ∈ r.openBlocks s, b.1 ∈ s.chain := by
  intro b hb
  obtain ⟨s', hs', hb⟩ := List.mem_filterMap.1 (List.mem_reverse.1 hb)
  obtain ⟨_, -, rfl⟩ := Option.map_eq_some_iff.1 hb
  exact hs'

/-- Trying the open blocks of a state leads to one that remains of it. -/
theorem continueBlocks_follows (hanswers : K.Answers quits f g) {s : LineState} (hs : K.State s)
    {blocks : List (LineState × Delimiter)} (hblocks : ∀ b ∈ blocks, b.1 ∈ s.chain)
    (hc : K.Stands text c) (hstate : c.state ∈ s.chain) :
    Follows quits K.Sound (r.continueBlocks f text blocks c) (r.continueBlocks g text blocks c)
      (fun c t => K.Sound t ∧ K.Stands text c ∧ c.state ∈ s.chain) K.Fails := by
  induction blocks generalizing c with
  | nil => exact (Ensures.pure (fun t ht => ⟨ht, hc, hstate⟩)).follows
  | cons b rest ih =>
    obtain ⟨s', continuing⟩ := b
    obtain ⟨hmem, hrest⟩ := List.forall_mem_cons.1 hblocks
    have hs' : K.State s' := hs.chain s' hmem
    rw [continueBlocks, continueBlocks]
    refine Follows.bind (K.matchContinuing_ensures text _).follows (fun m => ?_)
    refine Follows.assuming (fun hm => ?_)
    split
    · next captures =>
      have hcaptures : K.AllowsAll text captures := allowsAll_of_found hc.text (hm _ rfl)
      split
      · exact ih hrest hc hstate
      -- the groups are read in the state of the block, but the cursor keeps its own
      · next whole hwhole =>
        have hspan : K.Allows text whole := hcaptures.whole hwhole
        refine Follows.bind (K.produce_ensures (State.content hs') hspan.start).follows
          (fun _ => ?_)
        have hhere : K.Stands text { c with state := s' } := ⟨hc.text, hc.position, hs'⟩
        refine Follows.bind (readCaptures_follows hanswers hhere _ hcaptures) (fun _ => ?_)
        refine Follows.bind (K.produce_ensures (State.content hs') hspan.stop).follows (fun _ => ?_)
        refine ih hrest ⟨hc.text, position_advance hc.position hspan.stop, ?_⟩ ?_
        · rw [state_advance]
          exact hc.state
        · rw [state_advance]
          exact hstate
    · refine (Ensures.pure (fun t ht => ⟨ht, ⟨hc.text, hc.position, hs'.pop⟩, ?_⟩)).follows
      exact LineState.pop_mem_chain hmem

/-- **Beginning a line** in a sound state. -/
theorem beginLine_follows (hanswers : K.Answers quits f g) (htext : K.text text)
    {s : LineState} (hs : K.State s) (first : Bool) :
    Follows quits K.Sound (r.beginLine f text s first) (r.beginLine g text s first)
      (fun c t => K.Sound t ∧ K.Stands text c ∧ c.state ∈ s.chain) K.Fails :=
  continueBlocks_follows hanswers hs mem_chain_of_mem_openBlocks ⟨htext, K.zero text htext, hs⟩
    (LineState.self_mem_chain s)

end Kept

end LineReader

end Highlight
