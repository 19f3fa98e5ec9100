import Highlight.Proofs.Repeatable

/-!
# A cache that does not show

A scanner is called for by the rule that is read inside of, the text that closes the region at hand
and the anchors that hold. The cache then has lists that earlier calls left behind, with the texts
that these gave to them and the scanners that these needed, and calls that failed have left lists
there too. None of this shows in what a call gets: it is a scanner of the patterns that a list made
anew would have, and it fails if these cannot be compiled.

Next to nothing has to be assumed of the engine, and nothing of what its scanners find: only that
it does not take texts at one time and refuse them at another. One condition is on the calls. A call
without a closing text leaves the list as it is, so that for a rule that refers back it would get
the text of the call before. Such a rule must be called for with a text always, or never.
-/

namespace Highlight

open Grammar

variable {σ : Type}

namespace Engine

/-- The engine makes a scanner of these texts, in some state. -/
def MakesOf (e : Engine σ) (texts : List String) (s : Scanner σ) : Prop :=
  ∃ state, ((e.compile texts).run state).1 = .ok s

/-- The engine refuses these texts for a reason, in some state. -/
def RefusesFor (e : Engine σ) (texts : List String) (reason : String) : Prop :=
  ∃ state, ((e.compile texts).run state).1 = .error reason

/-- **An engine takes texts** if it makes a scanner of them in whatever state it is. -/
def Takes (e : Engine σ) (texts : List String) : Prop :=
  ∀ state, ((e.compile texts).run state).1.isOk = true

/-- **An engine is decided**: whether it takes texts depends on the texts alone. -/
def IsDecided (e : Engine σ) : Prop :=
  ∀ texts state state', ((e.compile texts).run state).1.isOk =
    ((e.compile texts).run state').1.isOk

variable {e : Engine σ} {texts : List String}

theorem supplies_makesOf (e : Engine σ) : e.Supplies e.MakesOf e.RefusesFor := by
  intro texts state
  split
  · next s hmade => exact ⟨state, hmade⟩
  · next reason hrefused => exact ⟨state, hrefused⟩

theorem IsDecided.takes_of_makesOf (h : e.IsDecided) {s : Scanner σ} (hs : e.MakesOf texts s) :
    e.Takes texts := by
  obtain ⟨state, hmade⟩ := hs
  intro state'
  rw [h texts state' state, hmade]
  rfl

theorem RefusesFor.not_takes {reason : String} (h : e.RefusesFor texts reason) :
    ¬ e.Takes texts := by
  obtain ⟨state, hrefused⟩ := h
  intro htakes
  have hok := htakes state
  rw [hrefused] at hok
  exact absurd hok (by simp [Except.isOk, Except.toBool])

/-- An engine that keeps to a plan takes what is planned to be taken. -/
theorem Oblivious.isDecided (h : e.Oblivious) : e.IsDecided := by
  obtain ⟨plan, hplan⟩ := h
  have hplanned : ∀ texts state,
      ((e.compile texts).run state).1.isOk = (plan texts).isOk := by
    intro texts state
    have hcompile := hplan texts state
    split at hcompile
    · next find hfind =>
      obtain ⟨s, hs, -⟩ := hcompile
      rw [hs, hfind]
      rfl
    · next reason hreason =>
      rw [hcompile, hreason]
      rfl
  exact fun texts state state' => (hplanned texts state).trans (hplanned texts state').symm

end Engine

namespace Grammar

namespace ScannerCache

/-! ## Calls -/

/-- **A call for a scanner.** -/
inductive Call where
  /-- For what is looked for inside a rule, with the closing text of the region at hand. -/
  | inside (id : RuleId) (closing : Option String) (a : Anchors)
  /-- For the continuing pattern of a block, with its text in the region at hand. -/
  | continuing (id : RuleId) (text : Option String) (a : Anchors)

namespace Call

/-- What is done. -/
def run (e : Engine σ) (table : RuleTable) : Call → Search σ (RoleScanner σ)
  | inside id closing a => Search.scannerInside e table id closing a
  | continuing id text a => Search.scannerContinuing e table id text a

/-- The patterns called for: those of a list made anew for the text at hand. -/
def patterns (table : RuleTable) : Call → List Pattern
  | inside id closing _ => table.withClosing id closing (table.patternsOf id)
  | continuing id text _ => table.continuingWith id text

/-- The anchors that hold. -/
def anchors : Call → Anchors
  | inside _ _ a => a
  | continuing _ _ a => a

/-- The texts of the patterns called for, where the anchors hold. -/
def texts (table : RuleTable) (call : Call) : List String :=
  (call.patterns table).map (·.textWith call.anchors)

/-- One of two calls for a rule that refers back has a closing text, and the other has none. -/
def mixes (table : RuleTable) : Call → Call → Bool
  | inside id closing _, inside id' closing' _ =>
    id = id' && table.refersBack id && closing.isSome && closing'.isNone
  | _, _ => false

/-- **A call is answered as it should be**: with a scanner of the texts called for, which tells
what they are for, unless the engine refuses these texts. -/
structure Answered (e : Engine σ) (table : RuleTable) (call : Call)
    (answer : Except Refusal (RoleScanner σ)) : Prop where
  /-- There is a scanner exactly if the engine takes the texts. -/
  isOk_iff : answer.isOk = true ↔ e.Takes (call.texts table)
  /-- The scanner was made of the texts, and has the roles of their patterns. -/
  scanner : ∀ s, answer = .ok s → e.MakesOf (call.texts table) s.scanner ∧
    s.roles = (call.patterns table).map (·.role)
  /-- The refusal is one of the texts. -/
  refusal : ∀ r, answer = .error r → r.patterns = call.texts table ∧
    e.RefusesFor (call.texts table) r.reason

end Call

/-- **Calls in sequence**, and what they are answered. The engine may have been used in between, so
each call is made in some state of it. -/
def serve (e : Engine σ) (table : RuleTable) :
    ScannerCache σ → List (Call × σ) → List (Except Refusal (RoleScanner σ))
  | _, [] => []
  | c, (call, state) :: rest =>
    match (call.run e table).run ⟨c, state⟩ with
    | .ok s after => .ok s :: serve e table after.cache rest
    | .error refusal after => .error refusal :: serve e table after.cache rest

/-! ## What calls leave behind -/

/-- **A cache comes from calls**: its lists keep what the engine made of their texts, and have the
texts that some of the calls gave to them. -/
structure ComesFrom (e : Engine σ) (table : RuleTable) (calls : List Call)
    (c : ScannerCache σ) : Prop where
  /-- The lists of what is looked for inside rules. -/
  inside : ∀ id l, Keyed.get? id c.inside = some l → l.Keeps e.MakesOf ∧
    ∃ closing a, .inside id closing a ∈ calls ∧
      l.patterns = table.withClosing id closing (table.patternsOf id)
  /-- The lists of continuing patterns. -/
  continuing : c.KeepsContinuing e.MakesOf table

variable {e : Engine σ} {table : RuleTable} {calls : List Call}

namespace ComesFrom

variable {c : ScannerCache σ}

theorem empty : ({} : ScannerCache σ).ComesFrom e table calls :=
  ⟨fun _ _ h => by simp [Keyed.get?] at h, fun _ _ h => by simp [Keyed.get?] at h⟩

/-- The list for a call has the patterns called for, if no call has left a closing text that this
one does not replace. -/
theorem listInside (h : c.ComesFrom e table calls) {id : RuleId} {closing : Option String}
    {a : Anchors} (hunmixed : ∀ call ∈ calls, call.mixes table (.inside id closing a) = false) :
    (Search.listInside table id closing c).Keeps e.MakesOf ∧
      (Search.listInside table id closing c).patterns =
        table.withClosing id closing (table.patternsOf id) := by
  refine keeps_listInside fun l hget => ?_
  obtain ⟨hl, before, a', hbefore, hpatterns⟩ := h.inside id l hget
  refine ⟨hl, before, fun hrefers hsome => ?_, hpatterns⟩
  simpa [Call.mixes, hrefers, hsome] using hunmixed _ hbefore

/-- The list for a call may be kept. -/
theorem putInside (h : c.ComesFrom e table calls) {id : RuleId} {closing : Option String}
    {a : Anchors} (hcall : .inside id closing a ∈ calls) {l : PatternList σ}
    (hl : l.Keeps e.MakesOf)
    (hpatterns : l.patterns = table.withClosing id closing (table.patternsOf id)) :
    ({ c with inside := Keyed.put id l c.inside } : ScannerCache σ).ComesFrom e table calls where
  inside := Keyed.forall_get?_put h.inside ⟨hl, closing, a, hcall, hpatterns⟩
  continuing := h.continuing

theorem putContinuing (h : c.ComesFrom e table calls) {id : RuleId} {l : PatternList σ}
    (hl : l.Keeps e.MakesOf) {text : Option String}
    (hpatterns : l.patterns = table.continuingWith id text) :
    ({ c with continuing := Keyed.put id l c.continuing } : ScannerCache σ).ComesFrom e table
      calls := ⟨h.inside, h.continuing.put hl hpatterns⟩

end ComesFrom

/-! ## What calls get -/

namespace Call

variable {call : Call}

/-- **A call gets a scanner of the patterns called for**, or a refusal of their texts, and leaves a
cache that comes from calls. -/
theorem run_serves (hcall : call ∈ calls)
    (hunmixed : ∀ earlier ∈ calls, earlier.mixes table call = false) :
    Ensures (fun s : Searching σ => s.cache.ComesFrom e table calls) (call.run e table)
      (fun scanner s => s.cache.ComesFrom e table calls ∧
        scanner.Serves e.MakesOf (call.patterns table) call.anchors)
      (fun refusal s => s.cache.ComesFrom e table calls ∧ refusal.patterns = call.texts table ∧
        e.RefusesFor (call.texts table) refusal.reason) := by
  intro s hs
  cases call with
  | inside id closing a =>
    obtain ⟨hl, hpatterns⟩ := hs.listInside hunmixed
    exact Search.prepare_serves (C := ComesFrom e table calls) e.supplies_makesOf
      (fun _ _ hc => hc.putInside hcall) hl hpatterns a s hs
  | continuing id text a =>
    obtain ⟨hl, hpatterns⟩ := hs.continuing.list id text
    exact Search.prepare_serves (C := ComesFrom e table calls) e.supplies_makesOf
      (fun _ _ hc hl => hc.putContinuing hl) hl hpatterns a s hs

theorem Answered.of_serves (hdecided : e.IsDecided) {s : RoleScanner σ}
    (h : s.Serves e.MakesOf (call.patterns table) call.anchors) :
    call.Answered e table (.ok s) where
  isOk_iff := iff_of_true rfl (hdecided.takes_of_makesOf h.2)
  scanner := fun _ heq => Except.ok.inj heq ▸ ⟨h.2, h.1⟩
  refusal := fun _ heq => nomatch heq

theorem Answered.of_refusal {r : Refusal} (hpatterns : r.patterns = call.texts table)
    (hreason : e.RefusesFor (call.texts table) r.reason) :
    call.Answered e table (.error r) where
  isOk_iff := iff_of_false (by simp [Except.isOk, Except.toBool]) hreason.not_takes
  scanner := fun _ heq => nomatch heq
  refusal := fun _ heq => Except.error.inj heq ▸ ⟨hpatterns, hreason⟩

end Call

/-- Calls are answered as they should be from any cache that comes from such calls. -/
theorem ComesFrom.answered (hdecided : e.IsDecided)
    (hunmixed : ∀ p ∈ calls, ∀ q ∈ calls, p.mixes table q = false) {rest : List (Call × σ)}
    (hrest : ∀ p ∈ rest, p.1 ∈ calls) {c : ScannerCache σ} (h : c.ComesFrom e table calls) :
    List.Forall₂ (fun p answer => p.1.Answered e table answer) rest (serve e table c rest) := by
  induction rest generalizing c with
  | nil => exact .nil
  | cons p rest ih =>
    obtain ⟨call, state⟩ := p
    obtain ⟨hcall, hrest⟩ := List.forall_mem_cons.1 hrest
    have hserves := Call.run_serves (e := e) hcall
      (fun earlier hearlier => hunmixed _ hearlier _ hcall)
    rw [serve]
    split
    · next s after hrun =>
      obtain ⟨hafter, hs⟩ := hserves.ok h hrun
      exact .cons (.of_serves hdecided hs) (ih hrest hafter)
    · next refusal after hrun =>
      obtain ⟨hafter, hpatterns, hreason⟩ := hserves.error h hrun
      exact .cons (.of_refusal hpatterns hreason) (ih hrest hafter)

/-- **The cache does not show.** Whatever calls are made, in whatever states of the engine, each
gets a scanner of the texts that a list made anew would have, exactly if the engine takes these
texts, as long as no rule that refers back is called for both with a closing text and without. -/
theorem answered_serve (hdecided : e.IsDecided) (calls : List (Call × σ))
    (hunmixed : ∀ p ∈ calls, ∀ q ∈ calls, p.1.mixes table q.1 = false) :
    List.Forall₂ (fun p answer => p.1.Answered e table answer) calls
      (serve e table {} calls) :=
  ComesFrom.empty.answered hdecided
    (List.forall_mem_map.2 fun p hp => List.forall_mem_map.2 fun q hq => hunmixed p hp q hq)
    (fun _ hp => List.mem_map_of_mem hp)

/-- A grammar of regions that are closed, and of blocks that go on, with the sign that opened
them. -/
def signs : Definition where
  scopeName := "text"
  patterns := [
    { name := some "quoted", opening := some "<(.)", closing := some "\\1>",
      patterns := some [{ reference := some "$self" }] },
    { name := some "cited", opening := some "([>|])", continuing := some "\\1" }]

/-- Calls for a region with three closing texts, one of which is no expression, and for a block with
a text and without. -/
def signCalls : List (Call × Unit) :=
  [.inside ⟨2⟩ (some "a>") .neither, .inside ⟨2⟩ (some "b>") .neither,
    .inside ⟨2⟩ (some "(>") .neither, .inside ⟨2⟩ (some "b>") ⟨true, false⟩,
    .continuing ⟨3⟩ (some "\\|") .neither, .continuing ⟨3⟩ none .neither].map (·, ())

open Session in
/-- The text that is no expression is refused, and the calls after it get what they call for. -/
theorem answered_serve_signs :
    (serve (.regex Unit) (compiled signs).table {} signCalls).map (·.isOk) =
        [true, true, false, true, true, true] ∧
      signCalls.map (fun p => p.1.texts (compiled signs).table) =
        [["a>", "<(.)", "([>|])"], ["b>", "<(.)", "([>|])"], ["(>", "<(.)", "([>|])"],
          ["b>", "<(.)", "([>|])"], ["\\|"], [matchesNothing]] ∧
      List.Forall₂ (fun p answer => p.1.Answered (.regex Unit) (compiled signs).table answer)
        signCalls (serve (.regex Unit) (compiled signs).table {} signCalls) := by
  refine ⟨by decide +kernel, by decide +kernel, ?_⟩
  exact answered_serve Engine.oblivious_regex.isDecided signCalls (by decide +kernel)

open Session in
-- A call without a closing text gets the one of the call before, and so finds where a region that
-- was opened by another sign is closed.
example : (serve (.regex Unit) (compiled signs).table {}
    [(.inside ⟨2⟩ (some "a>") .neither, ()), (.inside ⟨2⟩ none .neither, ())]).map
      (fun answer => answer.toOption.bind fun s => ((s.find "a>" 0).run ()).1.map (·.role)) =
    [some .close, some .close] := by
  decide +kernel

end ScannerCache

end Grammar

end Highlight
