import Highlight.Proofs.Agreement
import Mathlib.Data.List.Forall2

/-!
# Forgetting positions

A state that a line is read from is reset first, since positions on one line mean nothing on
another. Frames are shared between states, and so what has nothing to forget is not made anew. It
is not enough for a frame to be clear, though: a frame stands on those below it, and if one of them
has a position, all frames from there up are made anew.

What is made anew differs from what was there in its positions alone, and as those are what the
checks for progress go by, they must not be left in any frame. A state that was reset has none, is
kept when it is reset again, and so is as good to read on from as the state itself.
-/

namespace Highlight

open Grammar

namespace LineState

/-- **Frames are kept exactly if all of them are clear.** -/
theorem remade?_eq_none_iff {fs : List Frame} :
    remade? fs = none ↔ ∀ f ∈ fs, isClear f = true := by
  induction fs with
  | nil => exact iff_of_true rfl (List.forall_mem_nil _)
  | cons f rest ih =>
    rw [List.forall_mem_cons, ← ih, remade?]
    cases remade? rest with
    | none => simp
    | some rest' => simp

/-- Where a state is reset, its frames are kept or made anew. -/
theorem frames_reset_eq_getD (s : LineState) : s.reset.frames = (remade? s.frames).getD s.frames :=
  s.frames_reset.trans (getD_remade? s.frames).symm

/-- A state that was reset is kept. -/
theorem remade?_frames_reset (s : LineState) : remade? s.reset.frames = none := by
  rw [remade?_eq_none_iff, frames_reset]
  exact List.forall_mem_map.2 fun _ _ => rfl

theorem reset_reset (s : LineState) : s.reset.reset = s.reset := by
  refine eq_of_frames ?_
  rw [frames_reset_eq_getD s.reset, remade?_frames_reset, Option.getD_none]

theorem chainOf_map_forget (top : Frame) (below : List Frame) :
    chainOf (forget top) (below.map forget) =
      (chainOf top below).map fun u => ⟨forget u.top, u.below.map forget⟩ := by
  induction below generalizing top with
  | nil => rfl
  | cons f rest ih => exact congrArg (_ :: ·) (ih f)

/-- What remains as frames are taken away from a state that was reset is what remains of the state,
reset. -/
theorem chain_reset (s : LineState) : s.reset.chain = s.chain.map reset := by
  have hreset : reset = fun u => ⟨forget u.top, u.below.map forget⟩ := by
    funext u
    rw [reset, getD_remade?]
  rw [hreset]
  exact chainOf_map_forget s.top s.below

theorem depth_reset (s : LineState) : s.reset.depth = s.depth := by
  rw [depth, frames_reset, List.length_map]
  rfl

/-- **A state has the top frame of another without its positions**, at the same depth. -/
structure HasCleared (s t : LineState) : Prop where
  /-- The depth. -/
  depth : t.depth = s.depth
  /-- The rule. -/
  rule : t.top.rule = s.top.rule
  /-- The closing or continuing pattern. -/
  closing : t.top.closing = s.top.closing
  /-- Whether the match that opened the frame took in the end of the line. -/
  tookLineEnd : t.top.tookLineEnd = s.top.tookLineEnd
  /-- The scopes of the delimiters. -/
  nameScopes : t.top.nameScopes = s.top.nameScopes
  /-- The scopes between the delimiters. -/
  contentScopes : t.top.contentScopes = s.top.contentScopes
  /-- There is no position at which it was entered. -/
  entered : t.top.entered = none
  /-- There is no position at which `\G` held. -/
  anchor : t.top.anchor = none

theorem hasCleared_reset (s : LineState) : s.HasCleared s.reset where
  depth := s.depth_reset
  rule := rfl
  closing := rfl
  tookLineEnd := rfl
  nameScopes := rfl
  contentScopes := rfl
  entered := rfl
  anchor := rfl

/-- **A state is another that only forgot its positions.** -/
structure Forgot (s t : LineState) : Prop where
  /-- The frames are the same from the top to the root, without their positions. -/
  frames : List.Forall₂ HasCleared s.chain t.chain
  /-- The states agree. -/
  agrees : s.agrees t = true ∧ t.agrees s = true
  /-- There is nothing left to forget, and nothing is made anew to forget it. -/
  kept : remade? t.frames = none ∧ t.reset = t
  /-- Whatever is read from one state is read from the other. -/
  interchangeable : ∀ {σ : Type} (h : Highlighter σ), h.Interchangeable s t

/-- **Resetting a state only forgets positions**, however they are distributed over its frames. -/
theorem forgot_reset (s : LineState) : s.Forgot s.reset where
  frames := by
    rw [chain_reset, List.forall₂_map_right_iff, List.forall₂_same]
    exact fun u _ => u.hasCleared_reset
  agrees := by
    have hregions : s.frames.map region = s.reset.frames.map region := by
      rw [frames_reset, List.map_map]
      rfl
    exact ⟨agrees_iff.2 ⟨hregions, rfl⟩, agrees_iff.2 ⟨hregions.symm, rfl⟩⟩
  kept := ⟨s.remade?_frames_reset, s.reset_reset⟩
  interchangeable := fun _ => Highlighter.interchangeable_of_reset_eq s.reset_reset.symm

end LineState

end Highlight
