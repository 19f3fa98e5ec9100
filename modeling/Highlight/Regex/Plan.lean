import Highlight.Regex.Extent
import Highlight.Regex.Node

/-!
# How a pattern is matched

A pattern is turned into the form in which it is matched. What there is to decide is which
rounds of a loop are guarded against being empty. A short loop is written out, round by round,
and these rounds are not guarded; only those of a longer one are. How long a loop is, is counted
in the steps that its parts take.
-/

namespace Highlight.Regex

/-- A node and the number of its steps. -/
structure Planned where
  /-- The node. -/
  node : Node
  /-- The number of its steps. -/
  steps : Nat

namespace Planned

/-- The greatest number of steps of a loop that is written out. -/
def writtenOutLimit : Nat := 10

/-- What takes one step. -/
def one (node : Node) : Planned := ⟨node, 1⟩

/-- A text takes one step for each run of characters of one size. -/
def text (cs : List Char) : Planned :=
  ⟨.text cs, (cs.splitBy (fun a b => a.utf8Size == b.utf8Size)).length⟩

/-- One after the other. -/
def seq (a b : Planned) : Planned := ⟨.seq a.node b.node, a.steps + b.steps⟩

/-- So many unguarded rounds. -/
def rounds (body : Planned) (n : Nat) : Planned :=
  ⟨.loop body.node n (some n) true none, body.steps * n⟩

/-- A loop. A loop without an end has its least rounds written out if they are few steps, and
the others are guarded; one with an end is written out as a whole or not at all. -/
def loop (body : Planned) (least : Nat) (most : Option Nat) (greedy : Bool)
    (guard : Option Guard) : Planned :=
  let guarded := body.steps + if guard.isSome then 2 else 0
  let whole : Planned := ⟨.loop body.node least most greedy guard, guarded + 2⟩
  let endless := match body.node with
    | .any _ => if greedy then 1 else 3
    | _ => guarded + 2
  if body.steps = 0 then ⟨.empty, 0⟩
  else match most with
    | none =>
      if least = 1 ∧ body.steps > writtenOutLimit then ⟨whole.node, guarded + 3⟩
      else if least ≤ 1 ∨ body.steps * least ≤ writtenOutLimit then
        (body.rounds least).seq ⟨.loop body.node 0 none greedy guard, endless⟩
      else whole
    | some 0 => ⟨.empty, 0⟩
    | some most =>
      if greedy ∧ (most = 1 ∨ (body.steps + 1) * most ≤ writtenOutLimit) then
        ⟨.loop body.node least (some most) true none,
          body.steps * least + (body.steps + 1) * (most - least)⟩
      else if !greedy ∧ least = 0 ∧ most = 1 then
        ⟨.loop body.node 0 (some 1) false none, body.steps + 2⟩
      else whole

/-- A body in parentheses or signs that take so many steps. -/
def wrap (body : Planned) (f : Node → Node) (steps : Nat) : Planned :=
  ⟨f body.node, body.steps + steps⟩

end Planned

namespace Term

/-- The pattern takes one character, which has no parts. -/
def isOneChar : Term → Bool
  | text [_] _ | any _ | set _ => true
  | _ => false

/-- A loop that may have empty rounds. -/
def hasEmptyRounds (es : Extents) : Term → Bool
  | loop a _ most _ => most != some 0 && a.mayBeEmpty es
  | _ => false

/-- The groups that are in no inner loop with empty rounds. -/
def ownGroups (es : Extents) : Term → List Nat
  | seq a b | alt a b => a.ownGroups es ++ b.ownGroups es
  | group index a => index :: a.ownGroups es
  | loop a least most greedy =>
    if (loop a least most greedy).hasEmptyRounds es then [] else a.ownGroups es
  | bare a | optioned a | atomic a | ahead a _ | behind a _ => a.ownGroups es
  | _ => []

/-- A pattern has a group that takes part in what it matches. -/
def hasGroup : Term → Bool
  | group .. => true
  | seq a b | alt a b => a.hasGroup || b.hasGroup
  | loop a _ most _ => most != some 0 && a.hasGroup
  | bare a | optioned a | atomic a => a.hasGroup
  | _ => false

/-- The guard of a loop, given all references of the whole pattern. It watches the groups that
are referred to outside the loop. -/
def guard? (es : Extents) (referred : List Nat) (t : Term) : Option Guard :=
  match t with
  | loop a .. =>
    if !t.hasEmptyRounds es then none
    else if !a.hasGroup then some (.watching [])
    else
      let inside := t.references
      some (.watching ((a.ownGroups es).filter (fun g => inside.count g < referred.count g)))
  | _ => none

/-- **The plan of a pattern**, given the extents of its groups and all its references. -/
def plan (es : Extents) (referred : List Nat) : Term → Planned
  | text cs _ => .text cs
  | any lineEnds => .one (.any lineEnds)
  | set s => .one (.set s)
  | place p => .one (.place p)
  | never => .one .never
  | seq a b => (a.plan es referred).seq (b.plan es referred)
  | alt a b =>
    let a := a.plan es referred
    let b := b.plan es referred
    ⟨.alt a.node b.node, a.steps + b.steps + 2⟩
  | bare a | optioned a => a.plan es referred
  | group index a => (a.plan es referred).wrap (.group index) 2
  | loop (text cs anyCase) least most greedy =>
    if 1 < least ∧ least ≤ 100 ∧ most = some least ∧
        (String.ofList cs).utf8ByteSize * least ≤ 100 then
      .text (List.replicate least cs).flatten
    else
      (Planned.text cs).loop least most greedy
        ((loop (text cs anyCase) least most greedy).guard? es referred)
  | loop a least most greedy =>
    (a.plan es referred).loop least most greedy
      ((loop a least most greedy).guard? es referred)
  | atomic a =>
    let body := a.plan es referred
    let isPlain := match a with
      | loop b least none true => least ≤ 1 && b.isOneChar
      | _ => false
    body.wrap .atomic (if isPlain then 1 else 2)
  | ahead a negated =>
    (a.plan es referred).wrap (.ahead · negated) (if negated then 5 else 2)
  | behind a negated =>
    let e := a.extent es
    (a.plan es referred).wrap (.behind · e.least e.most negated)
      (if !e.isFixed then 12 else if negated then 6 else 3)
  | back groups anyCase _ => .one (.back groups anyCase)

end Term

end Highlight.Regex
