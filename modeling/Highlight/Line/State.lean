import Highlight.Grammar.Pattern
import Highlight.Scope.Attributed
import Highlight.Text.Quoted

/-!
# The state at the end of a line

Reading a line begins in the state that the line before it ended in: the regions that are still
open, each with the rule that opened it, its scopes and, if it depends on the text that opened
it, the pattern that closes it. While a line is read, a frame also remembers the positions at
which it was entered and at which `\G` held before. They mean nothing on another line and are
forgotten there.
-/

namespace Highlight

open Grammar (RuleId)

/-- **A frame**: a rule that was entered. -/
structure Frame where
  /-- The rule. -/
  rule : RuleId
  /-- Where on this line it was entered. -/
  entered : Option Nat
  /-- Where on this line `\G` held when it was entered. -/
  anchor : Option Nat
  /-- The match that opened it took in the end of the line. -/
  tookLineEnd : Bool
  /-- The closing or continuing pattern, if it depends on the match that opened it. -/
  closing : Option String
  /-- The scopes of the delimiters. -/
  nameScopes : AttributedPath
  /-- The scopes between the delimiters. -/
  contentScopes : AttributedPath
  deriving DecidableEq, Repr

/-- **The state**: the frame on top, and the frames below it, nearest first. There is always a
frame, that of the grammar as a whole. -/
structure LineState where
  /-- The frame on top. -/
  top : Frame
  /-- The frames below. -/
  below : List Frame
  deriving DecidableEq, Repr

namespace LineState

/-- The state that a text begins in. -/
def initial (rule : RuleId) (scopes : AttributedPath) : LineState :=
  ⟨⟨rule, none, none, false, none, scopes, scopes⟩, []⟩

/-- The frames, top first. -/
def frames (s : LineState) : List Frame := s.top :: s.below

/-- How many frames there are. -/
def depth (s : LineState) : Nat := s.frames.length

/-- Puts a frame on top. -/
def push (s : LineState) (f : Frame) : LineState := ⟨f, s.frames⟩

/-- Takes the top frame away, if another is below. -/
def pop? (s : LineState) : Option LineState :=
  match s.below with
  | [] => none
  | f :: rest => some ⟨f, rest⟩

/-- Takes the top frame away, unless it is the last. -/
def pop (s : LineState) : LineState := s.pop?.getD s

/-- The states that remain of a top frame and frames below as one frame after another is taken
away. -/
def chainOf (top : Frame) : List Frame → List LineState
  | [] => [⟨top, []⟩]
  | f :: rest => ⟨top, f :: rest⟩ :: chainOf f rest

/-- The states that remain as one frame after another is taken away, this one first. -/
def chain (s : LineState) : List LineState := chainOf s.top s.below

/-- Changes the scopes between the delimiters of the top frame. -/
def withContentScopes (s : LineState) (scopes : AttributedPath) : LineState :=
  { s with top := { s.top with contentScopes := scopes } }

/-- Changes the closing pattern of the top frame. -/
def withClosing (s : LineState) (closing : String) : LineState :=
  { s with top := { s.top with closing := some closing } }

/-- A frame without its positions. -/
def forget (f : Frame) : Frame := { f with entered := none, anchor := none }

/-- A frame has no positions to forget. -/
def isClear (f : Frame) : Bool := f.entered.isNone && f.anchor.isNone

/-- Some frames, top first, made anew without their positions. Nothing is made where they can be
kept as they are: the frame on top is clear, and those below it were kept. -/
def remade? : List Frame → Option (List Frame)
  | [] => none
  | f :: rest =>
    match remade? rest with
    | none => if isClear f then none else some (forget f :: rest)
    | some rest => some (forget f :: rest)

/-- **Forgets the positions** of the line before. What has none to forget is kept. -/
def reset (s : LineState) : LineState := ⟨forget s.top, (remade? s.below).getD s.below⟩

/-- One of the frames on top that were entered where that frame was is of the same rule: the
rule was entered again without a step forward. -/
def reenters (s : LineState) (f : Frame) : Bool :=
  (s.frames.takeWhile (·.entered == f.entered)).any (·.rule == f.rule)

/-- **Two states agree**: they have the same rules with the same closing patterns, and the same
scopes on top. An editor need not read on where the states before and after a change agree. -/
def agrees (s t : LineState) : Bool :=
  s.frames.map (fun f => (f.rule, f.closing)) == t.frames.map (fun f => (f.rule, f.closing)) &&
    s.top.contentScopes == t.top.contentScopes

theorem forget_of_isClear {f : Frame} (h : isClear f = true) : forget f = f := by
  obtain ⟨rule, entered, anchor, tookLineEnd, closing, nameScopes, contentScopes⟩ := f
  obtain ⟨hentered, hanchor⟩ := Bool.and_eq_true_iff.1 h
  obtain rfl : entered = none := Option.isNone_iff_eq_none.1 hentered
  obtain rfl : anchor = none := Option.isNone_iff_eq_none.1 hanchor
  rfl

/-- Frames that are made anew or kept are without their positions in either case. -/
theorem getD_remade? (fs : List Frame) : (remade? fs).getD fs = fs.map forget := by
  induction fs with
  | nil => rfl
  | cons f rest ih =>
    unfold remade?
    split
    · next hkept =>
      rw [hkept, Option.getD_none] at ih
      rw [List.map_cons, ← ih]
      split
      · next hclear => exact congrArg (· :: rest) (forget_of_isClear hclear).symm
      · rfl
    · next rest' hmade =>
      rw [hmade, Option.getD_some] at ih
      rw [List.map_cons, ← ih]
      rfl

/-- **Resetting forgets the positions of all frames**, whichever of them are kept. -/
theorem frames_reset (s : LineState) : s.reset.frames = s.frames.map forget :=
  congrArg (forget s.top :: ·) (getD_remade? s.below)

/-- The description of a frame. -/
def describeFrame (indent : Nat) (f : Frame) : String :=
  String.ofList (List.replicate (2 * indent) ' ') ++ "rule=" ++ toString f.rule.number ++
    " content=[" ++ f.contentScopes.path.text ++ "]" ++
    f.closing.elim "" (", end_rule=" ++ Text.quoted ·) ++
    f.entered.elim "" (", enter_pos=" ++ toString ·) ++
    f.anchor.elim "" (", anchor_pos=" ++ toString ·) ++
    (if f.tookLineEnd then ", captured_eol" else "") ++ "\n"

/-- The description of a state, frame by frame from the lowest. -/
def describe (s : LineState) : String :=
  "StateStack:\n" ++ String.join (s.frames.reverse.zipIdx.map (fun (f, i) => describeFrame i f))

end LineState

end Highlight
