import Highlight.Proofs.Scanning

/-!
# Caches that are faithful

The cache hands out scanners that were made earlier, and changes the lists that it keeps. It makes
no difference to what is found if it is **faithful**: every scanner that it keeps is what the engine
would make of the list now, and every list is what would be made anew, for some closing text. Then
what is found for a rule is told by the list that would be made anew for the closing text at hand.

There is one exception, and it is why the closing text matters. A list is given the text of the
region at hand only if there is one. Where the closing pattern of a rule refers to groups and its
frame has no closing text yet, the list is used with the text that it was given last.

That an engine makes the same of the same has to be assumed. It is **oblivious** if what it makes of
patterns and what it finds with that does not depend on its state. What it does is then told by a
**plan**.
-/

namespace Highlight

open Grammar

variable {σ : Type}

/-- **What an engine does** if its state has no part in it: what it finds with a list of patterns
in a text from a position on, or what is wrong with the patterns. -/
abbrev Plan := List String → Except String (String → Nat → Option Found)

/-- A scanner finds this, in whatever state its engine is. -/
def Scanner.Gives (s : Scanner σ) (find : String → Nat → Option Found) : Prop :=
  ∀ text start state, ((s.find text start).run state).1 = find text start

/-- A scanner gives what is planned for its texts. -/
def Scanner.Follows (plan : Plan) (texts : List String) (s : Scanner σ) : Prop :=
  ∃ find, plan texts = .ok find ∧ s.Gives find

namespace Engine

/-- **An engine keeps to a plan**: what it makes of patterns gives what is planned for them. -/
def KeepsTo (e : Engine σ) (plan : Plan) : Prop :=
  ∀ patterns state, match plan patterns with
    | .ok find => ∃ s, ((e.compile patterns).run state).1 = .ok s ∧ s.Gives find
    | .error reason => ((e.compile patterns).run state).1 = .error reason

/-- **An engine is oblivious**: what it makes of patterns and what that finds in a text do not
depend on its state. -/
def Oblivious (e : Engine σ) : Prop := ∃ plan, e.KeepsTo plan

/-- An engine that keeps to a plan supplies scanners that give what is planned. -/
theorem KeepsTo.supplies {e : Engine σ} {plan : Plan} (h : e.KeepsTo plan) :
    e.Supplies (Scanner.Follows plan) (fun texts reason => plan texts = .error reason) := by
  intro texts state
  have hcompile := h texts state
  split at hcompile
  · next find hfind =>
    obtain ⟨s, hs, hgives⟩ := hcompile
    rw [hs]
    exact ⟨find, hfind, hgives⟩
  · next reason hreason =>
    rw [hcompile]
    exact hreason

end Engine

namespace Grammar

/-- What a plan finds for a list of patterns, where these anchors hold. -/
def search (plan : Plan) (patterns : List Pattern) (a : Anchors) (text : String) (start : Nat) :
    Except Refusal (Option RuleMatch) :=
  let texts := patterns.map (·.textWith a)
  match plan texts with
  | .error reason => .error ⟨texts, reason⟩
  | .ok find =>
    .ok ((find text start).bind (fun f =>
      (patterns.map (·.role))[f.index]?.map (⟨·, f.captures⟩)))

/-- What is found is for one of the patterns. -/
theorem role_mem_of_search {plan : Plan} {patterns : List Pattern} {a : Anchors} {text : String}
    {start : Nat} {m : RuleMatch} (h : search plan patterns a text start = .ok (some m)) :
    m.role ∈ patterns.map (·.role) := by
  unfold search at h
  dsimp only at h
  split at h
  · simp at h
  · obtain ⟨f, -, hf⟩ := Option.bind_eq_some_iff.1 (Except.ok.inj h)
    obtain ⟨role, hrole, rfl⟩ := Option.map_eq_some_iff.1 hf
    exact List.mem_of_getElem? hrole

/-! ## Lists of patterns -/

/-- A scanner is **as planned** for patterns, where these anchors hold. -/
def RoleScanner.AsPlanned (plan : Plan) (patterns : List Pattern) (a : Anchors)
    (s : RoleScanner σ) : Prop :=
  s.roles = patterns.map (·.role) ∧
    ∃ find, plan (patterns.map (·.textWith a)) = .ok find ∧ s.scanner.Gives find

namespace PatternList

/-- **A list is faithful**: the scanners that it keeps are as planned for its patterns. -/
def Faithful (plan : Plan) (l : PatternList σ) : Prop :=
  ∀ p ∈ l.scanners, p.2.AsPlanned plan l.patterns p.1

theorem keeps_iff_faithful {plan : Plan} {l : PatternList σ} :
    l.Keeps (Scanner.Follows plan) ↔ l.Faithful plan := Iff.rfl

end PatternList

/-! ## The cache -/

namespace RuleTable

variable {table : RuleTable} {id : RuleId}

/-- A closing text does not change what patterns are for. -/
theorem map_role_withClosing (closing : Option String) (patterns : List Pattern) :
    (table.withClosing id closing patterns).map (·.role) = patterns.map (·.role) := by
  unfold withClosing
  split
  · split
    · exact PatternList.map_role_modify _ _ _
    · rfl
  · rfl

/-- What is found inside a rule, whatever the closing text, is for one of its patterns. -/
theorem role_mem_of_search {closing : Option String} {plan : Plan} {a : Anchors} {text : String}
    {start : Nat} {m : RuleMatch}
    (h : search plan (table.withClosing id closing (table.patternsOf id)) a text start =
      .ok (some m)) : m.role ∈ table.rolesOf id := by
  have hrole := Grammar.role_mem_of_search h
  rwa [map_role_withClosing] at hrole

end RuleTable

/-- The lists of continuing patterns of a cache are faithful, and have the patterns that their
blocks have with some text. -/
def ScannerCache.ContinuingFaithful (plan : Plan) (table : RuleTable) (c : ScannerCache σ) : Prop :=
  ∀ id l, Keyed.get? id c.continuing = some l → l.Faithful plan ∧
    ∃ text, l.patterns = table.continuingWith id text

theorem ScannerCache.keepsContinuing_iff_faithful {plan : Plan} {table : RuleTable}
    {c : ScannerCache σ} :
    c.KeepsContinuing (Scanner.Follows plan) table ↔ c.ContinuingFaithful plan table := Iff.rfl

/-- **A cache is faithful**: each of its lists is, and has the patterns that its rule has with some
closing text. -/
structure ScannerCache.Faithful (plan : Plan) (table : RuleTable) (c : ScannerCache σ) : Prop where
  /-- The lists of what is looked for inside rules. -/
  inside : ∀ id l, Keyed.get? id c.inside = some l → l.Faithful plan ∧
    ∃ closing, l.patterns = table.withClosing id closing (table.patternsOf id)
  /-- The lists of continuing patterns. -/
  continuing : c.ContinuingFaithful plan table

namespace ScannerCache

/-- A faithful list may be kept for the continuing pattern of its block. -/
theorem ContinuingFaithful.put {plan : Plan} {table : RuleTable} {c : ScannerCache σ}
    (h : c.ContinuingFaithful plan table) {id : RuleId} {l : PatternList σ} (hl : l.Faithful plan)
    {text : Option String} (hpatterns : l.patterns = table.continuingWith id text) :
    ({ c with continuing := Keyed.put id l c.continuing } : ScannerCache σ).ContinuingFaithful
      plan table := (keepsContinuing_iff_faithful.2 h).put hl hpatterns

namespace Faithful

variable {plan : Plan} {table : RuleTable} {c : ScannerCache σ}

theorem empty : ({} : ScannerCache σ).Faithful plan table :=
  ⟨fun _ _ h => by simp [Keyed.get?] at h, fun _ _ h => by simp [Keyed.get?] at h⟩

/-- **The list for the inside of a rule** is faithful, and has the patterns that the rule has with
the closing text, if that is known where the rule refers back. -/
theorem listInside (h : c.Faithful plan table) {id : RuleId} {closing : Option String}
    (hknown : table.refersBack id = true → closing.isSome = true) :
    (Search.listInside table id closing c).Faithful plan ∧
      (Search.listInside table id closing c).patterns =
        table.withClosing id closing (table.patternsOf id) := by
  rw [← PatternList.keeps_iff_faithful]
  refine keeps_listInside fun l hget => ?_
  obtain ⟨hl, before, hpatterns⟩ := h.inside id l hget
  exact ⟨hl, before, fun hrefers _ => hknown hrefers, hpatterns⟩

/-- A faithful list may be kept for the inside of its rule. -/
theorem putInside (h : c.Faithful plan table) {id : RuleId} {l : PatternList σ}
    (hl : l.Faithful plan) {closing : Option String}
    (hpatterns : l.patterns = table.withClosing id closing (table.patternsOf id)) :
    ({ c with inside := Keyed.put id l c.inside } : ScannerCache σ).Faithful plan table where
  inside := Keyed.forall_get?_put h.inside ⟨hl, closing, hpatterns⟩
  continuing := h.continuing

theorem putContinuing (h : c.Faithful plan table) {id : RuleId} {l : PatternList σ}
    (hl : l.Faithful plan) {text : Option String}
    (hpatterns : l.patterns = table.continuingWith id text) :
    ({ c with continuing := Keyed.put id l c.continuing } : ScannerCache σ).Faithful plan
      table := ⟨h.inside, h.continuing.put hl hpatterns⟩

end Faithful

end ScannerCache

/-! ## Searching -/

namespace Search

variable {plan : Plan} {e : Engine σ} {table : RuleTable} {C : ScannerCache σ → Prop}

/-- Preparing a faithful list yields a scanner as planned, or the planned refusal, and keeps of the
cache what is kept by keeping such a list. -/
theorem prepare_asPlanned (hplan : e.KeepsTo plan)
    {keep : PatternList σ → ScannerCache σ → ScannerCache σ} {patterns : List Pattern}
    (hkeep : ∀ l c, C c → l.Faithful plan → l.patterns = patterns → C (keep l c))
    {l : PatternList σ} (hl : l.Faithful plan) (hpatterns : l.patterns = patterns) (a : Anchors) :
    Ensures (fun s : Searching σ => C s.cache) (prepare e keep l a)
      (fun scanner s => C s.cache ∧ scanner.AsPlanned plan patterns a)
      (fun refusal s => C s.cache ∧
        ∀ text start, search plan patterns a text start = .error refusal) := by
  refine (prepare_serves hplan.supplies hkeep hl hpatterns a).mono (fun _ h => h) (fun _ _ h => h)
    fun refusal s h => ⟨h.1, fun text start => ?_⟩
  obtain ⟨-, htexts, hreason⟩ := h
  unfold Grammar.search
  dsimp only
  rw [hreason, ← htexts]

/-- What a scanner finds that is as planned. -/
theorem find_asPlanned {scanner : RoleScanner σ} {patterns : List Pattern} {a : Anchors}
    (h : scanner.AsPlanned plan patterns a) (text : String) (start : Nat) :
    Ensures (fun s : Searching σ => C s.cache) (call (scanner.find text start))
      (fun m s => C s.cache ∧ search plan patterns a text start = .ok m)
      (fun refusal s => C s.cache ∧ search plan patterns a text start = .error refusal) := by
  obtain ⟨hroles, find, hfind, hgives⟩ := h
  refine Ensures.modifyGet (fun s hs => ⟨hs, ?_⟩)
  have hfound : ((scanner.find text start).run s.engine).1 =
      (find text start).bind (fun f => scanner.roles[f.index]?.map (⟨·, f.captures⟩)) := by
    rw [RoleScanner.find, StateT.run_bind, ← hgives text start s.engine]
    rfl
  unfold Grammar.search
  dsimp only
  rw [hfind, ← hroles]
  exact congrArg Except.ok hfound.symm

/-- **What is looked for inside a rule** is found as planned, if the closing text is known where the
rule refers back. -/
theorem inside_asPlanned (hplan : e.KeepsTo plan) {id : RuleId} {closing : Option String}
    (hknown : table.refersBack id = true → closing.isSome = true) (a : Anchors) (text : String)
    (start : Nat) :
    Ensures (fun s : Searching σ => s.cache.Faithful plan table)
      (do
        let scanner ← scannerInside e table id closing a
        call (scanner.find text start))
      (fun m s => s.cache.Faithful plan table ∧
        search plan (table.withClosing id closing (table.patternsOf id)) a text start = .ok m)
      (fun refusal s => s.cache.Faithful plan table ∧
        search plan (table.withClosing id closing (table.patternsOf id)) a text start =
          .error refusal) := by
  refine Ensures.bind (M := fun scanner s => s.cache.Faithful plan table ∧
    scanner.AsPlanned plan (table.withClosing id closing (table.patternsOf id)) a)
    (fun s hs => ?_) (fun scanner => Ensures.assuming (fun h => find_asPlanned h text start))
  obtain ⟨hl, hpatterns⟩ := hs.listInside hknown
  refine (prepare_asPlanned (C := ScannerCache.Faithful plan table) hplan
    (fun l c hc hl hl' => hc.putInside hl hl') hl hpatterns a).mono
    (fun _ h => h) (fun _ _ h => h) (fun _ _ h => ⟨h.1, h.2 text start⟩) s hs

/-- **The continuing pattern of a block** is found as planned, whatever else is kept of the
cache. -/
theorem continuing_finds (hplan : e.KeepsTo plan)
    (hfaithful : ∀ c, C c → c.ContinuingFaithful plan table)
    (hput : ∀ c id l text, C c → l.Faithful plan → l.patterns = table.continuingWith id text →
      C { c with continuing := Keyed.put id l c.continuing })
    (id : RuleId) (closing : Option String) (a : Anchors) (text : String) (start : Nat) :
    Ensures (fun s : Searching σ => C s.cache)
      (do
        let scanner ← scannerContinuing e table id closing a
        call (scanner.find text start))
      (fun m s => C s.cache ∧ search plan (table.continuingWith id closing) a text start = .ok m)
      (fun refusal s => C s.cache ∧
        search plan (table.continuingWith id closing) a text start = .error refusal) := by
  refine Ensures.bind (M := fun scanner s => C s.cache ∧
    scanner.AsPlanned plan (table.continuingWith id closing) a)
    (fun s hs => ?_) (fun scanner => Ensures.assuming (fun h => find_asPlanned h text start))
  obtain ⟨hl, hpatterns⟩ :=
    (ScannerCache.keepsContinuing_iff_faithful.2 (hfaithful _ hs)).list id closing
  refine (prepare_asPlanned hplan (fun l c => hput c id l closing) hl hpatterns a).mono
    (fun _ h => h) (fun _ _ h => h) (fun _ _ h => ⟨h.1, h.2 text start⟩) s hs

/-- The continuing pattern of a block is found as planned, and the cache stays faithful. -/
theorem continuing_asPlanned (hplan : e.KeepsTo plan) (id : RuleId) (closing : Option String)
    (a : Anchors) (text : String) (start : Nat) :
    Ensures (fun s : Searching σ => s.cache.Faithful plan table)
      (do
        let scanner ← scannerContinuing e table id closing a
        call (scanner.find text start))
      (fun m s => s.cache.Faithful plan table ∧
        search plan (table.continuingWith id closing) a text start = .ok m)
      (fun refusal s => s.cache.Faithful plan table ∧
        search plan (table.continuingWith id closing) a text start = .error refusal) :=
  continuing_finds hplan (fun _ h => h.continuing) (fun _ _ _ _ h hl => h.putContinuing hl) id
    closing a text start

end Search

end Grammar

end Highlight
