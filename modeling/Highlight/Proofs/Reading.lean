import Highlight.Line.Groups
import Highlight.Line.Search
import Highlight.Proofs.Bytes
import Highlight.Proofs.Frames
import Highlight.Proofs.Scanning
import Highlight.Proofs.Tiling

/-!
# What reading keeps

Reading a line searches, cuts, and pushes scopes, and does nothing else to what it changes. So
whatever these three keep is kept by all of it, also by the texts of groups that are read on
inside each other. What that is depends on what is to be shown – that the segments tile the line,
that their scopes begin with a name – and is a parameter: **what is kept** of the segments and the
scopes, the texts that are read, and the positions where they may be cut.

How the texts of groups are read on is an argument of the steps. So all of this is shown for two
readers at once that differ in that argument only: as long as what they are given does the same
where it is called, or gives up, so do they.
-/

namespace Highlight

open Grammar
open Selector (Priority)

variable {σ : Type}

/-- A search changes what searching changes, and nothing else. -/
theorem Read.run_search {α : Type} (x : Search σ α) (t : Reading σ) :
    (Read.search x).run t = match x.run t.searching with
      | .ok a s => .ok a { t with searching := s }
      | .error refusal s => .error (.refused refusal) { t with searching := s } := rfl

namespace LineReader

/-- **What is kept while a line is read.** -/
structure Kept (r : LineReader σ) where
  /-- What is kept of the segments. -/
  segments : Segments → Prop
  /-- What is known of all scopes. -/
  scopes : AttributedPath → Prop
  /-- The texts that are read. -/
  text : String → Prop
  /-- Where a text may be cut. -/
  position : String → Nat → Prop
  /-- Why reading may fail. -/
  error : LineError → Prop
  /-- Pushing keeps what is known of scopes. -/
  push : r.attribution.Keeps scopes
  /-- Cutting keeps the segments. -/
  produce : ∀ t p text n, segments t → scopes p → position text n → segments (t.produce p n)
  /-- A text may be cut at its beginning. -/
  zero : ∀ t, text t → position t 0
  /-- A text may be cut at its end. -/
  whole : ∀ t, text t → position t t.utf8ByteSize
  /-- What is found in a text lies where it may be cut. -/
  found : ∀ t start f, text t → r.engine.Finds t start f →
    ∀ s, some s ∈ f.captures → position t s.start ∧ position t s.stop
  /-- What ends with a group that is found in a text may be read on from where the group begins. -/
  within : ∀ t start f, text t → r.engine.Finds t start f → ∀ s, some s ∈ f.captures →
    ∀ inner, Text.before? t s.stop = some inner → text inner ∧ position inner s.start
  /-- A group may lie where the text cannot be cut. -/
  outside : ∀ t start f, text t → r.engine.Finds t start f → ∀ s, some s ∈ f.captures →
    Text.before? t s.stop = none → error (.outside s.stop)
  /-- An engine may refuse patterns. -/
  refused : ∀ refusal, error (.refused refusal)

namespace Kept

/-- What reading keeps of the scopes alone, wherever a line is cut. -/
def ofScopes (r : LineReader σ) {good : AttributedPath → Prop} (h : r.attribution.Keeps good)
    (error : LineError → Prop) (hrefused : ∀ refusal, error (.refused refusal))
    (houtside : ∀ n, error (.outside n)) : r.Kept where
  segments := fun _ => True
  scopes := good
  text := fun _ => True
  position := fun _ _ => True
  error := error
  push := h
  produce := fun _ _ _ _ _ _ _ => trivial
  zero := fun _ _ => trivial
  whole := fun _ _ => trivial
  found := fun _ _ _ _ _ _ _ => ⟨trivial, trivial⟩
  within := fun _ _ _ _ _ _ _ _ _ => ⟨trivial, trivial⟩
  outside := fun _ _ _ _ _ s _ _ => houtside s.stop
  refused := hrefused

/-- **What reading with an engine keeps** that keeps to the text, of a line of a size: its segments
are sound, and it is only cut up to its end. -/
def bounded (r : LineReader σ) {good : AttributedPath → Prop} (h : r.attribution.Keeps good)
    (hengine : r.engine.KeepsToText) (size : Nat) (error : LineError → Prop)
    (hrefused : ∀ refusal, error (.refused refusal)) (houtside : ∀ n, error (.outside n)) :
    r.Kept where
  segments := fun t => t.Sound good size
  scopes := good
  text := fun t => t.utf8ByteSize ≤ size
  position := fun _ n => n ≤ size
  error := error
  push := h
  produce := fun _ _ _ _ ht hp hn => ht.produce hp hn
  zero := fun _ _ => Nat.zero_le size
  whole := fun _ ht => ht
  found := fun text start f htext hf s hs =>
    have hs' := hengine text start f hf s hs
    ⟨Nat.le_trans hs'.1 (Nat.le_trans hs'.2 htext), Nat.le_trans hs'.2 htext⟩
  within := fun text start f htext hf s hs _ hinner =>
    have hs' := hengine text start f hf s hs
    ⟨Text.utf8ByteSize_before? hinner ▸ Nat.le_trans hs'.2 htext,
      Nat.le_trans hs'.1 (Nat.le_trans hs'.2 htext)⟩
  outside := fun _ _ _ _ _ s _ _ => houtside s.stop
  refused := hrefused

variable {r : LineReader σ} (K : r.Kept)

/-- A reading in which everything is kept. -/
structure Sound (t : Reading σ) : Prop where
  /-- The cache is sound. -/
  cache : t.searching.cache.Sound r.engine r.rules.table
  /-- The segments are kept. -/
  segments : K.segments t.segments

/-- A failure after which everything is kept. -/
def Fails (e : LineError) (t : Reading σ) : Prop := K.error e ∧ K.Sound t

/-- A state whose frames have good scopes. -/
abbrev State (s : LineState) : Prop := s.Sound r.rules.root K.scopes

/-- **A group lies where a text may be cut**, and what ends with it may be read on. -/
structure Allows (text : String) (s : Span) : Prop where
  /-- Where it begins. -/
  start : K.position text s.start
  /-- Where it ends. -/
  stop : K.position text s.stop
  /-- What ends with it may be read on from where it begins. -/
  within : ∀ inner, Text.before? text s.stop = some inner → K.text inner ∧ K.position inner s.start
  /-- The text may not be one that can be cut there. -/
  outside : Text.before? text s.stop = none → K.error (.outside s.stop)

/-- All groups of a match lie where a text may be cut. -/
def AllowsAll (text : String) (captures : Captures) : Prop :=
  ∀ s, some s ∈ captures → K.Allows text s

variable {K}

theorem allowsAll_of_found {text : String} {position : Nat} {roles : List Role} {m : RuleMatch}
    (htext : K.text text) (h : Search.FoundFor r.engine text position roles m) :
    K.AllowsAll text m.captures := by
  obtain ⟨f, hf, -, hcaptures⟩ := h
  rw [← hcaptures]
  intro s hs
  obtain ⟨hstart, hstop⟩ := K.found text position f htext hf s hs
  exact ⟨hstart, hstop, K.within text position f htext hf s hs,
    K.outside text position f htext hf s hs⟩

namespace AllowsAll

variable {text : String}

theorem whole {captures : Captures} (h : K.AllowsAll text captures) {s : Span}
    (hs : captures.whole? = some s) : K.Allows text s := by
  refine h s ?_
  cases captures with
  | nil => exact absurd hs (by simp [Captures.whole?])
  | cons s' rest =>
    obtain rfl : s' = some s := by simpa [Captures.whole?] using hs
    exact List.mem_cons_self

theorem start {m : RuleMatch} (htext : K.text text) (h : K.AllowsAll text m.captures) :
    K.position text m.start := by
  unfold RuleMatch.start
  cases hs : m.captures.whole? with
  | none => exact K.zero text htext
  | some s => exact (h.whole hs).start

theorem stop {m : RuleMatch} (htext : K.text text) (h : K.AllowsAll text m.captures) :
    K.position text m.stop := by
  unfold RuleMatch.stop
  cases hs : m.captures.whole? with
  | none => exact K.zero text htext
  | some s => exact (h.whole hs).stop

/-- The groups that matter are among those of the match. -/
theorem groups {captures : Captures} (h : K.AllowsAll text captures) (rules : CaptureRules)
    (whole : Span) : ∀ p ∈ rules.groups captures whole, K.Allows text p.2 := by
  intro p hp
  obtain ⟨q, -, hq⟩ := List.mem_filterMap.1 ((List.takeWhile_sublist _).mem hp)
  obtain ⟨s, hs, rfl⟩ := Option.map_eq_some_iff.1 hq
  obtain ⟨hgroup, -⟩ := Option.filter_eq_some_iff.1 hs
  exact h s (List.mem_of_getElem? (Option.join_eq_some_iff.1 hgroup))

end AllowsAll

/-! ## Searching and cutting -/

/-- A search that keeps the cache sound keeps everything. -/
theorem search_ensures {α : Type} {x : Search σ α} {p : α → Prop}
    (h : Ensures (fun s => s.cache.Sound r.engine r.rules.table) x
      (fun a s => s.cache.Sound r.engine r.rules.table ∧ p a)
      (fun _ s => s.cache.Sound r.engine r.rules.table)) :
    Ensures K.Sound (Read.search x) (fun a t => K.Sound t ∧ p a) K.Fails := by
  intro t ht
  rw [Read.run_search]
  cases hx : x.run t.searching with
  | ok a s =>
    obtain ⟨hcache, ha⟩ := h.ok ht.cache hx
    exact ⟨⟨hcache, ht.segments⟩, ha⟩
  | error refusal s => exact ⟨K.refused refusal, ⟨h.error ht.cache hx, ht.segments⟩⟩

theorem produce_ensures {p : AttributedPath} {text : String} {n : Nat} (hp : K.scopes p)
    (hn : K.position text n) : Ensures K.Sound (Read.produce p n) (fun _ => K.Sound) K.Fails :=
  Ensures.modifyGet (fun t ht => ⟨ht.cache, K.produce t.segments p text n ht.segments hp hn⟩)

theorem matchInside_ensures (text : String) (c : Cursor) (id : RuleId)
    (closing : Option String) :
    Ensures K.Sound (r.matchInside text c id closing)
      (fun m t => K.Sound t ∧
        ∀ m' ∈ m, Search.FoundFor r.engine text c.position (r.rules.table.rolesOf id) m')
      K.Fails := by
  refine K.search_ensures ?_
  refine Ensures.bind (Search.scannerInside_ensures id closing c.anchors) (fun scanner => ?_)
  exact Ensures.assuming (fun hscanner => Search.find_ensures hscanner text c.position)

theorem matchContinuing_ensures (text : String) (c : Cursor) :
    Ensures K.Sound (r.matchContinuing text c)
      (fun m t => K.Sound t ∧ ∀ m' ∈ m, Search.FoundFor r.engine text c.position
        (r.rules.table.continuingRoles c.state.top.rule) m')
      K.Fails := by
  refine K.search_ensures ?_
  refine Ensures.bind
    (Search.scannerContinuing_ensures c.state.top.rule c.state.top.closing c.anchors)
    (fun scanner => ?_)
  exact Ensures.assuming (fun hscanner => Search.find_ensures hscanner text c.position)

end Kept

/-- A match that **an injection offers** at the cursor: it was found for its rule. -/
def Injected (r : LineReader σ) (text : String) (c : Cursor) (m : RuleMatch) : Prop :=
  ∃ i ∈ r.rules.injections,
    Search.FoundFor r.engine text c.position (r.rules.table.rolesOf i.rule) m

/-- A match that is **on offer** at the cursor: it was found for the rule on top, or for that of
an injection. -/
def Offers (r : LineReader σ) (text : String) (c : Cursor) (m : RuleMatch) : Prop :=
  Search.FoundFor r.engine text c.position (r.rules.table.rolesOf c.state.top.rule) m ∨
    r.Injected text c m

/-- The rule is for the text of a group: some rule for a group says so. -/
def ForGroup (r : LineReader σ) (id : RuleId) : Prop :=
  ∃ of name contentName, r.rules.table.get? of = some ⟨name, contentName, .capture (some id)⟩

/-- The preferred one of two matches is one of them. -/
theorem mem_preferred {m : Option RuleMatch} {injected : Option (Priority × RuleMatch)}
    {m' : RuleMatch} (h : m' ∈ preferred m injected) : m' ∈ m ∨ ∃ b ∈ injected, b.2 = m' := by
  unfold preferred at h
  split at h
  · exact .inl h
  · next priority i => exact .inr ⟨(priority, i), rfl, Option.some.inj h⟩
  · next m priority i =>
    split at h
    · exact .inr ⟨(priority, i), rfl, Option.some.inj h⟩
    · exact .inl h

/-- The preferred one of two matches is on offer if they are. -/
theorem offers_of_mem_preferred {r : LineReader σ} {text : String} {c : Cursor}
    {m : Option RuleMatch} {injected : Option (Priority × RuleMatch)}
    (hm : ∀ m' ∈ m, Search.FoundFor r.engine text c.position
      (r.rules.table.rolesOf c.state.top.rule) m')
    (hinjected : ∀ b ∈ injected, r.Injected text c b.2) :
    ∀ m' ∈ preferred m injected, r.Offers text c m' := by
  intro m' hm'
  obtain hm' | ⟨b, hb, rfl⟩ := mem_preferred hm'
  · exact .inl (hm m' hm')
  · exact .inr (hinjected b hb)

namespace Kept

variable {r : LineReader σ} {K : r.Kept}

theorem matchInjections_ensures (text : String) (c : Cursor) (scopes : List String)
    {list : List Injection} (hlist : ∀ i ∈ list, i ∈ r.rules.injections)
    {best : Option (Priority × RuleMatch)} (hbest : ∀ b ∈ best, r.Injected text c b.2) :
    Ensures K.Sound (r.matchInjections text c scopes list best)
      (fun b t => K.Sound t ∧ ∀ b' ∈ b, r.Injected text c b'.2) K.Fails := by
  induction list generalizing best with
  | nil => exact Ensures.pure (fun t ht => ⟨ht, hbest⟩)
  | cons i rest ih =>
    obtain ⟨hi, hrest⟩ := List.forall_mem_cons.1 hlist
    have hskip := ih hrest hbest
    rw [matchInjections]
    split
    · refine Ensures.bind (K.matchInside_ensures text c i.rule none) (fun m => ?_)
      cases m with
      | none => exact hskip.mono (fun t ht => ht.1) (fun _ _ h => h) (fun _ _ h => h)
      | some m =>
        refine Ensures.assuming (fun hm => ?_)
        have hinjected : ∀ b ∈ some (i.part.priority, m), r.Injected text c b.2 := by
          intro b hb
          obtain rfl := Option.some.inj hb
          exact ⟨i, hi, hm m rfl⟩
        dsimp only
        split
        · exact hskip
        · split
          · exact Ensures.pure (fun t ht => ⟨ht, hinjected⟩)
          · exact ih hrest hinjected
    · exact hskip

/-- **What is found next is on offer.** -/
theorem nextMatch_ensures (text : String) (c : Cursor) :
    Ensures K.Sound (r.nextMatch text c)
      (fun m t => K.Sound t ∧ ∀ m' ∈ m, r.Offers text c m') K.Fails := by
  refine Ensures.bind (K.matchInside_ensures text c _ _) (fun m => ?_)
  refine Ensures.assuming (fun hm => ?_)
  have hnone : ∀ b ∈ (none : Option (Priority × RuleMatch)), r.Injected text c b.2 :=
    fun _ hb => by simp at hb
  refine Ensures.bind (K.matchInjections_ensures text c _ (fun _ hi => hi) hnone)
    (fun injected => ?_)
  exact Ensures.pure (fun t ht => ⟨ht.1, offers_of_mem_preferred hm ht.2⟩)

/-- The groups of a match on offer lie where the text may be cut. -/
theorem allowsAll_of_offers {text : String} {c : Cursor} {m : RuleMatch} (htext : K.text text)
    (h : r.Offers text c m) : K.AllowsAll text m.captures := by
  obtain h | ⟨i, -, h⟩ := h
  · exact K.allowsAll_of_found htext h
  · exact K.allowsAll_of_found htext h

/-! ## The texts of groups -/

/-- **Where reading stands**: the text is one that is read, the cursor is where it may be cut, and
the frames are sound. -/
structure Stands (K : r.Kept) (t : String) (c : Cursor) : Prop where
  /-- The text. -/
  text : K.text t
  /-- The position. -/
  position : K.position t c.position
  /-- The frames. -/
  state : K.State c.state

/-- **Two ways to read on the texts of groups answer alike**: wherever one is called, it does what
the other does and keeps everything, or it gives up. -/
def Answers (K : r.Kept) (quits : LineError → Prop) (f g : ReadOn σ) : Prop :=
  ∀ text c, K.Stands text c → r.ForGroup c.state.top.rule →
    Follows quits K.Sound (f text c) (g text c) (fun _ => K.Sound) K.Fails

end Kept

end LineReader

end Highlight
