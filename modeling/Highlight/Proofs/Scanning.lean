import Highlight.Proofs.Keeping

/-!
# What scanners find

Nothing is known of an engine but what it makes and what its scanners find. The cache hands out
scanners that were made earlier, and so it has to be shown that a scanner for a rule is one that
the engine made, and that its roles are those of the patterns of that rule. Then all that is
reported as a match was found by a scanner of the engine, for a pattern of the rule.

An engine **stays in range** if its scanners find matches only between the start of the search and
the end of the text. It **keeps to the text** if the groups of what they find lie in the text, and
is **bounded** if it does both.
-/

namespace Highlight

open Grammar

variable {σ : Type}

/-! ## Engines -/

/-- The stretch of a match **lies within** a text that is searched from a position on: between that
position and the end. -/
structure Captures.Within (captures : Captures) (start size : Nat) : Prop where
  /-- The match does not begin before the search. -/
  le_start : start ≤ captures.whole?.elim 0 (·.start)
  /-- The match does not end before it begins. -/
  start_le_stop : captures.whole?.elim 0 (·.start) ≤ captures.whole?.elim 0 (·.stop)
  /-- The match does not end after the text. -/
  stop_le : captures.whole?.elim 0 (·.stop) ≤ size

namespace Engine

/-- The engine makes this scanner, in some state and for some patterns. -/
def Makes (e : Engine σ) (s : Scanner σ) : Prop :=
  ∃ patterns state state', (e.compile patterns).run state = (.ok s, state')

/-- Some scanner of the engine finds this in a text, from a position on. -/
def Finds (e : Engine σ) (text : String) (start : Nat) (f : Found) : Prop :=
  ∃ s, e.Makes s ∧ ∃ state state', (s.find text start).run state = (some f, state')

/-- **An engine stays in range**: every match that it finds lies within the text, from the start of
the search on. -/
def InRange (e : Engine σ) : Prop :=
  ∀ text start f, e.Finds text start f → f.captures.Within start text.utf8ByteSize

/-- **An engine keeps to the text**: all groups of what it finds lie in the text. -/
def KeepsToText (e : Engine σ) : Prop :=
  ∀ text start f, e.Finds text start f → ∀ s, some s ∈ f.captures →
    s.start ≤ s.stop ∧ s.stop ≤ text.utf8ByteSize

/-- **An engine is bounded**: it stays in range, and keeps to the text. -/
structure Bounded (e : Engine σ) : Prop where
  /-- The engine stays in range. -/
  inRange : e.InRange
  /-- The engine keeps to the text. -/
  keepsToText : e.KeepsToText

theorem supplies_makes (e : Engine σ) : e.Supplies (fun _ => e.Makes) (fun _ _ => True) := by
  intro texts state
  split
  · next s hmade => exact ⟨texts, state, _, Prod.ext hmade rfl⟩
  · exact True.intro

end Engine

namespace Grammar

/-! ## The cache -/

/-- A scanner is **sound** for some roles: the engine made it, and it has these roles. -/
def RoleScanner.Sound (e : Engine σ) (roles : List Role) (s : RoleScanner σ) : Prop :=
  s.roles = roles ∧ e.Makes s.scanner

/-- A list of patterns is sound for some roles: they are those of its patterns, and the scanners
that it keeps are sound for them. -/
structure PatternList.Sound (e : Engine σ) (roles : List Role) (l : PatternList σ) : Prop where
  /-- The roles of the patterns. -/
  patterns : l.patterns.map (·.role) = roles
  /-- The scanners. -/
  scanners : ∀ p ∈ l.scanners, p.2.Sound e roles

namespace RuleTable

/-- The roles of the patterns that are looked for inside a rule. -/
def rolesOf (t : RuleTable) (id : RuleId) : List Role := (t.patternsOf id).map (·.role)

/-- The role of the continuing pattern of a block. -/
def continuingRoles (t : RuleTable) (id : RuleId) : List Role :=
  match t.body? id with
  | some (.block _ continuing _) => [continuing.pattern.role]
  | _ => []

end RuleTable

/-- **A cache is sound** for a table of rules: its lists are sound for the roles that their rules
have in the table. -/
structure ScannerCache.Sound (e : Engine σ) (table : RuleTable) (c : ScannerCache σ) : Prop where
  /-- The lists of what is looked for inside rules. -/
  inside : ∀ id l, Keyed.get? id c.inside = some l → l.Sound e (table.rolesOf id)
  /-- The lists of continuing patterns. -/
  continuing : ∀ id l, Keyed.get? id c.continuing = some l → l.Sound e (table.continuingRoles id)

variable {e : Engine σ} {roles : List Role} {table : RuleTable}

theorem ScannerCache.Sound.empty : ({} : ScannerCache σ).Sound e table :=
  ⟨fun _ _ h => by simp [Keyed.get?] at h, fun _ _ h => by simp [Keyed.get?] at h⟩

namespace PatternList.Sound

/-- A list without scanners has the roles of its patterns. -/
theorem ofPatterns (patterns : List Pattern) :
    (⟨patterns, []⟩ : PatternList σ).Sound e (patterns.map (·.role)) :=
  ⟨rfl, fun _ h => by simp at h⟩

/-- A list is sound if it has the roles and keeps what the engine made. -/
theorem iff_keeps {l : PatternList σ} :
    l.Sound e roles ↔ l.patterns.map (·.role) = roles ∧ l.Keeps (fun _ => e.Makes) := by
  constructor
  · rintro ⟨hroles, hscanners⟩
    exact ⟨hroles, fun p hp => ⟨(hscanners p hp).1.trans hroles.symm, (hscanners p hp).2⟩⟩
  · rintro ⟨hroles, hkeeps⟩
    exact ⟨hroles, fun p hp => ⟨(hkeeps p hp).1.trans hroles, (hkeeps p hp).2⟩⟩

/-- Changing the text of a pattern does not change what it is for. -/
theorem setText {l : PatternList σ} (h : l.Sound e roles) (index : Nat) (text : String) :
    (l.setText index text).Sound e roles := by
  obtain ⟨hroles, hkeeps⟩ := iff_keeps.1 h
  refine iff_keeps.2 ⟨?_, hkeeps.setText index text⟩
  rw [patterns_setText, map_role_modify, hroles]

end PatternList.Sound

namespace ScannerCache.Sound

variable {c : ScannerCache σ}

/-- The list for the inside of a rule is sound. -/
theorem listInside (h : c.Sound e table) (id : RuleId) (closing : Option String) :
    (Search.listInside table id closing c).Sound e (table.rolesOf id) := by
  have hkept : ((Keyed.get? id c.inside).getD ⟨table.patternsOf id, []⟩).Sound e
      (table.rolesOf id) := by
    cases hget : Keyed.get? id c.inside with
    | none => exact .ofPatterns _
    | some l => exact h.inside id l hget
  unfold Search.listInside
  dsimp only
  split
  · split
    · exact hkept.setText _ _
    · exact hkept
  · exact hkept

/-- The list for the continuing pattern of a block is sound. -/
theorem listContinuing (h : c.Sound e table) (id : RuleId) (text : Option String) :
    (Search.listContinuing table id text c).Sound e (table.continuingRoles id) := by
  unfold Search.listContinuing
  split
  · next opening continuing inside hbody =>
    have hroles : table.continuingRoles id = [continuing.pattern.role] := by
      rw [RuleTable.continuingRoles, hbody]
    have hkept : ((Keyed.get? id c.continuing).getD ⟨[continuing.pattern], []⟩).Sound e
        (table.continuingRoles id) := by
      cases hget : Keyed.get? id c.continuing with
      | none =>
        rw [hroles]
        exact .ofPatterns [continuing.pattern]
      | some l => exact h.continuing id l hget
    dsimp only
    split
    · exact hkept.setText _ _
    · exact hkept
  -- a rule that is no block has no list in the cache unless one was put there
  · next hbody =>
    cases hget : Keyed.get? id c.continuing with
    | none =>
      have hroles : table.continuingRoles id = [] := by
        rw [RuleTable.continuingRoles]
        split
        · next hblock => exact absurd hblock (hbody _ _ _)
        · rfl
      exact hroles ▸ .ofPatterns []
    | some l => exact h.continuing id l hget

/-- A sound list may be kept for the inside of its rule. -/
theorem putInside (h : c.Sound e table) {id : RuleId} {l : PatternList σ}
    (hl : l.Sound e (table.rolesOf id)) :
    ({ c with inside := Keyed.put id l c.inside } : ScannerCache σ).Sound e table where
  inside := Keyed.forall_get?_put h.inside hl
  continuing := h.continuing

/-- A sound list may be kept for the continuing pattern of its block. -/
theorem putContinuing (h : c.Sound e table) {id : RuleId} {l : PatternList σ}
    (hl : l.Sound e (table.continuingRoles id)) :
    ({ c with continuing := Keyed.put id l c.continuing } : ScannerCache σ).Sound e table where
  inside := h.inside
  continuing := Keyed.forall_get?_put h.continuing hl

end ScannerCache.Sound

/-! ## Searching -/

namespace Search

/-- Preparing a sound list keeps the cache sound, and yields a sound scanner. -/
theorem prepare_ensures {keep : PatternList σ → ScannerCache σ → ScannerCache σ}
    (hkeep : ∀ l c, c.Sound e table → l.Sound e roles → (keep l c).Sound e table)
    {l : PatternList σ} (hl : l.Sound e roles) (a : Anchors) :
    Ensures (fun s : Searching σ => s.cache.Sound e table) (prepare e keep l a)
      (fun scanner s => s.cache.Sound e table ∧ scanner.Sound e roles)
      (fun _ s => s.cache.Sound e table) := by
  obtain ⟨hroles, hkeeps⟩ := PatternList.Sound.iff_keeps.1 hl
  refine (prepare_serves e.supplies_makes (fun l' c hc hl' hpatterns => hkeep l' c hc ?_) hkeeps rfl
    a).mono (fun _ h => h) (fun _ _ h => ⟨h.1, h.2.1.trans hroles, h.2.2⟩) (fun _ _ h => h.1)
  exact PatternList.Sound.iff_keeps.2 ⟨hpatterns ▸ hroles, hl'⟩

theorem scannerInside_ensures (id : RuleId) (closing : Option String) (a : Anchors) :
    Ensures (fun s : Searching σ => s.cache.Sound e table) (scannerInside e table id closing a)
      (fun scanner s => s.cache.Sound e table ∧ scanner.Sound e (table.rolesOf id))
      (fun _ s => s.cache.Sound e table) :=
  fun s hs => prepare_ensures (fun _ _ hc hl => hc.putInside hl) (hs.listInside id closing) a s hs

theorem scannerContinuing_ensures (id : RuleId) (text : Option String) (a : Anchors) :
    Ensures (fun s : Searching σ => s.cache.Sound e table) (scannerContinuing e table id text a)
      (fun scanner s => s.cache.Sound e table ∧ scanner.Sound e (table.continuingRoles id))
      (fun _ s => s.cache.Sound e table) :=
  fun s hs =>
    prepare_ensures (fun _ _ hc hl => hc.putContinuing hl) (hs.listContinuing id text) a s hs

/-- A match was **found for some roles**: a scanner of the engine found it, and it is for the
pattern that has its role. -/
def FoundFor (e : Engine σ) (text : String) (position : Nat) (roles : List Role)
    (m : RuleMatch) : Prop :=
  ∃ f, e.Finds text position f ∧ roles[f.index]? = some m.role ∧ f.captures = m.captures

/-- What a sound scanner finds is found for its roles. -/
theorem find_ensures {scanner : RoleScanner σ} (h : scanner.Sound e roles) (text : String)
    (position : Nat) :
    Ensures (fun s : Searching σ => s.cache.Sound e table) (call (scanner.find text position))
      (fun m s => s.cache.Sound e table ∧ ∀ m' ∈ m, FoundFor e text position roles m')
      (fun _ s => s.cache.Sound e table) := by
  refine Ensures.modifyGet (fun s hs => ⟨hs, fun m hm => ?_⟩)
  rcases hfind : (scanner.scanner.find text position).run s.engine with ⟨found, state⟩
  have hm' : found.bind (fun f => scanner.roles[f.index]?.map (⟨·, f.captures⟩)) = some m := by
    rw [← Option.mem_def.1 hm, RoleScanner.find, StateT.run_bind, hfind]
    rfl
  obtain ⟨f, rfl, hf⟩ := Option.bind_eq_some_iff.1 hm'
  obtain ⟨role, hrole, rfl⟩ := Option.map_eq_some_iff.1 hf
  exact ⟨f, ⟨scanner.scanner, h.2, _, _, hfind⟩, h.1 ▸ hrole, rfl⟩

end Search

end Grammar

end Highlight
