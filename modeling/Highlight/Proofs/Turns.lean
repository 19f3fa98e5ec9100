import Highlight.Proofs.History

/-!
# What turns keep

The state that a line ends in comes from the one that it was read from by taking frames away and by
turns, and by nothing else. So what a turn keeps, and what is kept by taking a frame away and by
forgetting positions, holds of all states of a session if it holds of the one that every document
begins in. What goes on in the texts of groups has no part in it.
-/

namespace Highlight

open Grammar

variable {σ : Type}

namespace LineReader

/-- A property of states is **kept by turns**, and by taking the top frame away. -/
structure KeptByTurns (r : LineReader σ) (holds : LineState → Prop) : Prop where
  /-- Taking the top frame away. -/
  pop : ∀ s, holds s → holds s.pop
  /-- A turn by a match on offer, in a sound state. -/
  turn : ∀ {text : String} {c : Cursor} {m : Option RuleMatch} {R : Round},
    c.state.Sound r.rules.root (fun _ => True) → holds c.state →
      (∀ m' ∈ m, r.Offers text c m') → r.Turn text c m R → holds R.state

namespace KeptByTurns

variable {r : LineReader σ} {holds : LineState → Prop} {K : r.Kept} {f : ReadOn σ}
  {text : String} {c : Cursor}

theorem rounds_ensures (h : r.KeptByTurns holds) (hanswers : K.Answers (fun _ => False) f f)
    (limit : Nat) (budget : Option Nat) (hc : K.Stands text c) (hholds : holds c.state) :
    Ensures K.Sound (r.rounds f text limit budget c) (fun p _ => holds p.1) (fun _ _ => True) := by
  induction limit generalizing budget c with
  | zero => exact Ensures.throw (fun _ _ => trivial)
  | succ limit ih =>
    have hturned : ∀ R t, K.Turned text c R t → holds R.state := by
      intro R t hR
      obtain ⟨m, hm, hturn⟩ := hR.turn
      exact h.turn (hc.state.mono (fun _ _ => trivial)) hholds hm hturn
    rw [rounds]
    split
    · exact Ensures.pure (fun _ _ => hholds)
    · have hround := (Kept.round_follows hanswers hc).ensures
      refine Ensures.bind (hround.mono (fun _ ht => ht) (fun _ _ hR => hR) (fun _ _ _ => trivial))
        (fun R => ?_)
      cases R with
      | done s => exact Ensures.pure (fun t hR => hturned (.done s) t hR)
      | next c' =>
        intro t hR
        obtain ⟨m, hm, hturn⟩ := hR.turn
        exact ih _ (Kept.stands_turn hc hm hturn) (hturned (.next c') t hR) t hR.sound

/-- **Reading a line** from a sound state keeps what is kept by turns. -/
theorem readLine_ensures (h : r.KeptByTurns holds) (henough : K.Enough) (hdepth : K.error .depth)
    (htext : K.text text) {s : LineState} (hs : K.State s) (hholds : holds s)
    (first : Bool) (budget : Option Nat) :
    Ensures K.Sound (r.readLine text s first budget) (fun p _ => holds p.1) (fun _ _ => True) := by
  have hanswers : K.Answers (fun _ => False) (r.readOn r.limits.levels)
      (r.readOn r.limits.levels) := Kept.readOn_answers henough hdepth _
  have hbegin := (Kept.beginLine_follows hanswers htext hs first).ensures
  unfold readLine readLineWith
  refine Ensures.bind (hbegin.mono (fun _ ht => ht) (fun _ _ hc => hc) (fun _ _ _ => trivial))
    (fun c => Ensures.assuming (fun hc => ?_))
  -- the open blocks that go on leave a state that remains of the one before
  have hstate : holds c.state := LineState.forall_mem_chain h.pop hholds c.state hc.2
  exact h.rounds_ensures hanswers _ budget hc.1 hstate

end KeptByTurns

end LineReader

namespace Session

/-- **All states of a session** have what the state has that every document begins in, if it is
kept by turns, whatever the theme, and by forgetting positions. -/
theorem Reached.forall_states {h : Highlighter σ} {name : String}
    (hrules : h.reader.rules.Sound name) {holds : LineState → Prop}
    (hinitial : ∀ a : Attribution, holds (.initial h.reader.rules.root (a.root name)))
    (hreset : ∀ s, holds s → holds s.reset)
    (hturns : ∀ r : LineReader σ, r.rules = h.reader.rules → r.engine = h.reader.engine →
      r.KeptByTurns holds)
    {s : Session σ} (hs : Reached h s) : ∀ p ∈ s.states, holds p := by
  induction hs with
  | begins engine => exact fun p hp => by simp at hp
  | @reads s line previous budget segments state stopped searching before known run ih =>
    have hsound := before.sound hrules Attribution.keeps_true (fun _ => trivial)
    have hkept := hturns s.highlighter.reader hsound.rules hsound.engine
    have hholds : holds (previous.elim s.highlighter.initialState (·.reset)) := by
      cases previous with
      | none =>
        rw [Option.elim_none, Highlighter.initialState_eq (hsound.rules ▸ hrules), hsound.rules]
        exact hinitial _
      | some p => exact hreset p (ih p (known p rfl))
    let K := LineReader.Kept.ofScopes s.highlighter.reader (Attribution.keeps_true _)
      (fun _ => True) (fun _ => trivial) (fun _ => trivial)
    have hstate : K.State (previous.elim s.highlighter.initialState (·.reset)) :=
      hsound.state_of_previous hrules (fun _ => trivial) known
    have ht : K.Sound ⟨s.searching, {}⟩ :=
      ⟨by rw [hsound.rules, hsound.engine]; exact hsound.cache, trivial⟩
    have htext : K.text (line ++ "\n") := trivial
    have hline := hkept.readLine_ensures (.inl trivial) trivial htext hstate hholds previous.isNone
      budget
    rw [Highlighter.run_read] at run
    split at run
    · next hrun =>
      obtain ⟨⟨-, rfl⟩, -⟩ := by simpa using run
      exact List.forall_mem_cons.2 ⟨hline.ok ht hrun, ih⟩
    · simp at run
  | fails line budget before known run ih => exact ih
  | retheme theme before ih => exact ih
  | relimits limits before ih => exact ih
  | shares engine before ih => exact ih

end Session

end Highlight
