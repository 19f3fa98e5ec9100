import Highlight.Proofs.Taking

/-!
# Open blocks, one by one

Where a line begins, the blocks that are open are tried one after another. A block that goes on has
the groups of its match read in its own state, and leaves the cursor where its match ends; the next
block is tried from there. So the way through the blocks is a list of those **held** so far, with
their matches, and the cursor is told by these matches alone. It ends where no block is left, or
with the first one that does not go on.
-/

namespace Highlight

open Grammar

variable {σ : Type}

/-- Where the stretch of a match ends. -/
def Captures.stop (captures : Captures) : Nat := captures.whole?.elim 0 (·.stop)

namespace Cursor

/-- The cursor after a block has gone on. -/
def after (c : Cursor) (captures : Captures) : Cursor :=
  match captures.whole? with
  | none => c
  | some whole => { c with anchor := some whole.stop }.advance whole.stop

variable {c : Cursor} {captures : Captures}

theorem position_advance (c : Cursor) (n : Nat) :
    (c.advance n).position = max c.position n := by
  unfold advance
  split
  · exact (Nat.max_eq_right (Nat.le_of_lt ‹_›)).symm
  · exact (Nat.max_eq_left (Nat.le_of_not_lt ‹_›)).symm

theorem position_after (c : Cursor) (captures : Captures) :
    (c.after captures).position = max c.position captures.stop := by
  unfold after Captures.stop
  cases captures.whole? with
  | none => exact (Nat.max_eq_left (Nat.zero_le _)).symm
  | some whole => exact position_advance _ _

theorem state_after (c : Cursor) (captures : Captures) : (c.after captures).state = c.state := by
  unfold after
  split
  · rfl
  · exact LineReader.Kept.state_advance _ _

end Cursor

namespace LineReader

variable {r : LineReader σ} {f : ReadOn σ} {text : String}

/-- The cursor at the beginning of a line. -/
def lineStart (s : LineState) (first : Bool) : Cursor :=
  ⟨s, 0, if s.top.tookLineEnd then some 0 else none, first⟩

/-- Reading a line begins with the open blocks. -/
theorem beginLine_eq (r : LineReader σ) (f : ReadOn σ) (line : String) (start : LineState)
    (first : Bool) : r.beginLine f line start first =
      r.continueBlocks f line (r.openBlocks start) (lineStart start first) := rfl

/-- Has the groups of the match of a block that goes on read, in the state of the block. -/
def hold (r : LineReader σ) (readOn : ReadOn σ) (text : String) (here : Cursor)
    (continuing : Delimiter) (captures : Captures) : Read σ Unit :=
  match captures.whole? with
  | none => return
  | some whole => do
    Read.produce here.state.top.contentScopes whole.start
    r.readCaptures readOn text here continuing.captures captures
    Read.produce here.state.top.contentScopes whole.stop

/-- **One block is tried**: where it goes on the others are, and where it does not, it is closed. -/
theorem continueBlocks_cons (r : LineReader σ) (f : ReadOn σ) (text : String)
    (b : LineState × Delimiter) (rest : List (LineState × Delimiter)) (c : Cursor) :
    r.continueBlocks f text (b :: rest) c = (do
      match ← r.matchContinuing text { c with state := b.1 } with
      | some ⟨.continues, captures⟩ =>
        r.hold f text { c with state := b.1 } b.2 captures
        r.continueBlocks f text rest (c.after captures)
      | _ => return { c with state := b.1.pop }) := by
  rw [continueBlocks]
  refine bind_congr fun m => ?_
  cases m with
  | none => rfl
  | some m =>
    obtain ⟨role, captures⟩ := m
    cases role with
    | continues =>
      unfold hold Cursor.after
      dsimp only
      cases captures.whole? with
      | none => rfl
      | some whole => simp only [bind_assoc]
    | close | enter => rfl

/-- Having the groups of a block read only cuts and calls. -/
theorem hold_cuts (here : Cursor) (continuing : Delimiter) (captures : Captures) :
    Cuts (fun p _ => p.Extends here.state.top.contentScopes) (r.ReadsOn text here captures)
      (fun f => r.hold f text here continuing captures) := by
  unfold hold
  cases captures.whole? with
  | none => exact .pure ()
  | some whole =>
    refine .bind (.produce (.refl _)) fun _ => .bind ?_ fun _ => .produce (.refl _)
    exact (readCaptures_cuts _).mono (fun _ _ h => h.scopes) fun _ _ h => h

/-- A block that goes on, and its match. -/
abbrev HeldBlock := (LineState × Delimiter) × Captures

/-- **Blocks are tried one by one**: those held so far, those that are left, the cursor, and what
reading has changed. -/
inductive Tries (r : LineReader σ) (f : ReadOn σ) (text : String)
    (blocks : List (LineState × Delimiter)) (start : Cursor) (before : Reading σ) :
    List HeldBlock → List (LineState × Delimiter) → Cursor → Reading σ → Prop
  /-- No block has been tried. -/
  | begins : Tries r f text blocks start before [] blocks start before
  /-- A block goes on. -/
  | holds {held : List HeldBlock} {b : LineState × Delimiter}
      {rest : List (LineState × Delimiter)} {c : Cursor} {captures : Captures}
      {t t₁ t₂ : Reading σ} (earlier : Tries r f text blocks start before held (b :: rest) c t)
      (found : (r.matchContinuing text { c with state := b.1 }).run t =
        .ok (some ⟨.continues, captures⟩) t₁)
      (run : (r.hold f text { c with state := b.1 } b.2 captures).run t₁ = .ok () t₂) :
      Tries r f text blocks start before (held ++ [(b, captures)]) rest (c.after captures) t₂

namespace Tries

variable {blocks left : List (LineState × Delimiter)} {start c : Cursor} {before t : Reading σ}
  {held : List HeldBlock}

/-- The blocks are those held and those left. -/
theorem blocks_eq (h : r.Tries f text blocks start before held left c t) :
    blocks = held.map (·.1) ++ left := by
  induction h with
  | begins => rfl
  | holds _ _ _ ih => rw [ih, List.map_append, List.append_assoc]; rfl

/-- The cursor is told by the matches. -/
theorem cursor_eq (h : r.Tries f text blocks start before held left c t) :
    c = held.foldl (fun c b => c.after b.2) start := by
  induction h with
  | begins => rfl
  | holds _ _ _ ih => rw [List.foldl_append, ← ih]; rfl

end Tries

/-- **How trying blocks ends**: no block is left, or the first one that is left does not go on and
is closed. -/
inductive Tried (r : LineReader σ) (text : String) (c : Cursor) (t : Reading σ) :
    List (LineState × Delimiter) → Cursor → Reading σ → Prop
  /-- No block is left. -/
  | all : Tried r text c t [] c t
  /-- A block does not go on. -/
  | closes {b : LineState × Delimiter} {rest : List (LineState × Delimiter)}
      {m : Option RuleMatch} {t' : Reading σ}
      (found : (r.matchContinuing text { c with state := b.1 }).run t = .ok m t')
      (other : ∀ captures, m ≠ some ⟨.continues, captures⟩) :
      Tried r text c t (b :: rest) { c with state := b.1.pop } t'

/-- **Trying blocks comes to something** by trying them one by one. -/
theorem exists_tries_of_continueBlocks {blocks left : List (LineState × Delimiter)}
    {start c c' : Cursor} {before t t' : Reading σ} {held : List HeldBlock}
    (h : r.Tries f text blocks start before held left c t)
    (hrun : (r.continueBlocks f text left c).run t = .ok c' t') :
    ∃ held left c₁ t₁, r.Tries f text blocks start before held left c₁ t₁ ∧
      r.Tried text c₁ t₁ left c' t' := by
  induction left generalizing held c t with
  | nil =>
    obtain ⟨rfl, rfl⟩ := EStateM.Result.ok.inj hrun
    exact ⟨held, [], c, t, h, .all⟩
  | cons b rest ih =>
    rw [continueBlocks_cons] at hrun
    obtain ⟨m, t₁, hfound, hrun⟩ := exists_of_run_bind hrun
    split at hrun
    · obtain ⟨u, t₂, hhold, hrun⟩ := exists_of_run_bind hrun
      exact ih (.holds h hfound hhold) hrun
    · next hother =>
      obtain ⟨rfl, rfl⟩ := EStateM.Result.ok.inj hrun
      exact ⟨held, b :: rest, c, t, h, .closes hfound fun captures hm => hother captures hm⟩

/-- **How trying blocks fails**: a block cannot be looked for, or the groups of its match cannot be
read. -/
inductive TryFails (r : LineReader σ) (f : ReadOn σ) (text : String) (b : LineState × Delimiter)
    (c : Cursor) (t : Reading σ) (e : LineError) : Prop
  /-- The block cannot be looked for. -/
  | search {t' : Reading σ}
      (run : (r.matchContinuing text { c with state := b.1 }).run t = .error e t') :
      TryFails r f text b c t e
  /-- The block goes on, and its groups cannot be read. -/
  | groups {captures : Captures} {t₁ t' : Reading σ}
      (found : (r.matchContinuing text { c with state := b.1 }).run t =
        .ok (some ⟨.continues, captures⟩) t₁)
      (run : (r.hold f text { c with state := b.1 } b.2 captures).run t₁ = .error e t') :
      TryFails r f text b c t e

/-- **Trying blocks fails** where one of them is tried. -/
theorem exists_tryFails_of_continueBlocks {blocks left : List (LineState × Delimiter)}
    {start c : Cursor} {before t t' : Reading σ} {held : List HeldBlock} {e : LineError}
    (h : r.Tries f text blocks start before held left c t)
    (hrun : (r.continueBlocks f text left c).run t = .error e t') :
    ∃ held b rest c₁ t₁, r.Tries f text blocks start before held (b :: rest) c₁ t₁ ∧
      r.TryFails f text b c₁ t₁ e := by
  induction left generalizing held c t with
  | nil => cases hrun
  | cons b rest ih =>
    rw [continueBlocks_cons, EStateM.run_bind] at hrun
    cases hfound : (r.matchContinuing text { c with state := b.1 }).run t with
    | error e' t₁ =>
      rw [hfound] at hrun
      obtain ⟨rfl, -⟩ := EStateM.Result.error.inj hrun
      exact ⟨held, b, rest, c, t, h, .search hfound⟩
    | ok m t₁ =>
      rw [hfound] at hrun
      dsimp only at hrun
      split at hrun
      · next captures =>
        rw [EStateM.run_bind] at hrun
        cases hhold : (r.hold f text { c with state := b.1 } b.2 captures).run t₁ with
        | error e' t₂ =>
          rw [hhold] at hrun
          obtain ⟨rfl, -⟩ := EStateM.Result.error.inj hrun
          exact ⟨held, b, rest, c, t, h, .groups hfound hhold⟩
        | ok u t₂ =>
          rw [hhold] at hrun
          exact ih (.holds h hfound hhold) hrun
      · cases hrun

/-- **Trying blocks consults only** what reads on the groups of the matches that hold blocks. -/
theorem exists_tries_of_consults {blocks left : List (LineState × Delimiter)}
    {start c : Cursor} {before t : Reading σ} {held : List HeldBlock}
    (h : r.Tries f text blocks start before held left c t) {text' : String} {c' : Cursor}
    {t' : Reading σ}
    (hconsults : Consults (fun f => r.continueBlocks f text left c) f t text' c' t') :
    ∃ held b rest c₁ t₁ captures t₂, r.Tries f text blocks start before held (b :: rest) c₁ t₁ ∧
      (r.matchContinuing text { c₁ with state := b.1 }).run t₁ =
        .ok (some ⟨.continues, captures⟩) t₂ ∧
      Consults (fun f => r.hold f text { c₁ with state := b.1 } b.2 captures) f t₂ text' c' t' := by
  refine hconsults.only (P := fun text' c' t' => ∃ held b rest c₁ t₁ captures t₂,
    r.Tries f text blocks start before held (b :: rest) c₁ t₁ ∧
      (r.matchContinuing text { c₁ with state := b.1 }).run t₁ =
        .ok (some ⟨.continues, captures⟩) t₂ ∧
      Consults (fun f => r.hold f text { c₁ with state := b.1 } b.2 captures) f t₂ text' c' t')
    fun g hg => ?_
  clear hconsults
  induction left generalizing held c t with
  | nil => rfl
  | cons b rest ih =>
    rw [continueBlocks_cons, continueBlocks_cons, EStateM.run_bind, EStateM.run_bind]
    cases hfound : (r.matchContinuing text { c with state := b.1 }).run t with
    | error e t₁ => rfl
    | ok m t₁ =>
      dsimp only
      split
      · next captures =>
        have hhold : (r.hold g text { c with state := b.1 } b.2 captures).run t₁ =
            (r.hold f text { c with state := b.1 } b.2 captures).run t₁ :=
          (hold_cuts { c with state := b.1 } b.2 captures).run_eq fun text' c' t' hcalls =>
            hg text' c' t' ⟨held, b, rest, c, t, captures, t₁, h, hfound, hcalls.consults⟩
        rw [EStateM.run_bind, EStateM.run_bind, hhold]
        cases hrun : (r.hold f text { c with state := b.1 } b.2 captures).run t₁ with
        | error e t₂ => rfl
        | ok u t₂ => exact ih (.holds h hfound hrun)
      · rfl

end LineReader

end Highlight
