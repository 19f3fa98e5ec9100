import Highlight.Regex.Node
import Highlight.Regex.Opening
import Highlight.Regex.Subject

/-!
# Matching

Matching is by ordered backtracking: of two ways to go on, the second is tried only when the
first leads to no match of the whole, so the first match found need not be the longest.

The matcher takes what is to come after a pattern as a function. It ends because that function
is only ever called for what is smaller: a part of the pattern, the same loop further on in the
text, or the same loop at the same place with fewer empty rounds to spare.

What looks behind over a varying distance may take no character beyond the place it looks from,
which is a **limit** to all that is matched within it.
-/

namespace Highlight.Regex

/-- **What a group has matched.** Its two ends are noted one by one, so while a group is matched
again its start is already new. -/
structure Mark where
  /-- Where the last match begins. -/
  start : Option Nat := none
  /-- Where the last complete match ends. -/
  stop : Option Nat := none
  /-- Where the match before the last start ended. -/
  earlier : Option Nat := none
  /-- How often the group was entered. -/
  entries : Nat := 0
  deriving DecidableEq, Repr

namespace Mark

/-- Enters a group. -/
def enter (m : Mark) (place : Nat) : Mark :=
  { m with start := some place, earlier := m.stop, entries := m.entries + 1 }

/-- Leaves a group. -/
def leave (m : Mark) (place : Nat) : Mark := { m with stop := some place }

/-- The places between which a group has matched. -/
def span? (m : Mark) : Option (Nat × Nat) :=
  m.start.bind (fun a => m.stop.map (fun b => (a, b)))

end Mark

/-- How far a match has come: the place reached, and what the groups have matched. -/
structure Progress where
  /-- The place reached. -/
  place : Nat
  /-- The groups. -/
  marks : Array Mark

namespace Progress

/-- Enters a group. -/
def enter (p : Progress) (group : Nat) : Progress :=
  { p with marks := p.marks.modify group (·.enter p.place) }

/-- Leaves a group. -/
def leave (p : Progress) (group : Nat) : Progress :=
  { p with marks := p.marks.modify group (·.leave p.place) }

/-- The mark of a group. -/
def mark (p : Progress) (group : Nat) : Mark := p.marks.getD group {}

end Progress

/-- The place after the text of the first of some groups that fits. A reference fails as a whole
where fewer bytes are left than one of these groups has matched. -/
def afterBack? (s : Subject) (limit : Nat) (anyCase : Bool) (p : Progress) :
    List Nat → Option Nat
  | [] => none
  | g :: gs =>
    match (p.mark g).span? with
    | none => afterBack? s limit anyCase p gs
    | some (a, b) =>
      if b ≤ a then some p.place
      else
        let last := p.place + (b - a)
        if limit < last then none
        else
          let place? := if anyCase then s.afterAnyCase? last b (b - a) a p.place
            else if s.sameBytes (b - a) a p.place then some last
            else none
          place?.or (afterBack? s limit anyCase p gs)

/-! ## Rounds of loops -/

/-- What comes after a round of a loop. -/
inductive RoundEnd where
  /-- The loop goes on. -/
  | on
  /-- The loop ends. -/
  | out
  /-- The round was in vain. -/
  | vain
  deriving DecidableEq, Repr

/-- What comes after a round from `p` to `q`. After an empty round the loop ends, unless a group
that is watched has changed: where it was matched for the first time, or somewhere else than
before, the loop goes on. -/
def Guard.judge (g : Guard) (p q : Progress) : RoundEnd :=
  if p.place ≠ q.place then .on
  else
    let entered := (g.watched.map (fun i => (p.mark i, q.mark i))).filter (fun (m, n) =>
      m.entries < n.entries)
    if entered.any (fun (_, n) => n.earlier.isNone || n.start != n.earlier) then .on
    else if entered.any (fun (_, n) => n.earlier != some q.place) then .vain
    else .out

/-- What comes after a round of a loop that may have a guard. -/
def judge (guard : Option Guard) (p q : Progress) : RoundEnd :=
  match guard with
  | none => .on
  | some g => g.judge p q

/-! ## The matcher -/

/-- What may come after a pattern: it takes the progress made to the progress of the whole, or
fails. -/
abbrev After := Progress → Option Progress

/-- Goes on after one letter, if there is one and it will do. -/
def oneLetter (s : Subject) (limit : Nat) (p : Progress) (k : After) (ok : Letter → Bool) :
    Option Progress :=
  match s.letterAt? limit p.place with
  | some l => if ok l then k { p with place := p.place + l.size } else none
  | none => none

theorem getD_map_pred_le (most : Option Nat) : (most.map (· - 1)).getD 0 ≤ most.getD 0 := by
  cases most with
  | none => exact Nat.le_refl _
  | some n => exact Nat.sub_le n 1

/-- **What remains to be done** when a pattern is matched at a place: a number that becomes smaller
with every call, first of all with the pattern, then with the rest of the text, and then with the
empty rounds. -/
def remaining (s : Subject) (n : Node) (place : Nat) : Nat :=
  (n.weight * (s.size + 1) + (s.size - place)) * (n.spareBound + 1) + n.spare

theorem remaining_lt_of_lt {s : Subject} {n m : Node} {place place' : Nat}
    (hlt : m.weight * (s.size + 1) + (s.size - place') < n.weight * (s.size + 1) + (s.size - place))
    (hbound : m.spareBound ≤ n.spareBound) : remaining s m place' < remaining s n place :=
  calc remaining s m place'
    _ < (m.weight * (s.size + 1) + (s.size - place')) * (m.spareBound + 1) + (m.spareBound + 1) :=
      Nat.add_lt_add_left (Nat.lt_succ_of_le m.spare_le_spareBound) _
    _ = (m.weight * (s.size + 1) + (s.size - place') + 1) * (m.spareBound + 1) :=
      (Nat.succ_mul _ _).symm
    _ ≤ (n.weight * (s.size + 1) + (s.size - place)) * (n.spareBound + 1) :=
      Nat.mul_le_mul hlt (Nat.succ_le_succ hbound)
    _ ≤ remaining s n place := Nat.le_add_right _ _

/-- Less remains of a lighter pattern, wherever it is matched. -/
theorem remaining_lt_of_weight {s : Subject} {n m : Node} {place place' : Nat}
    (hweight : m.weight < n.weight) (hbound : m.spareBound ≤ n.spareBound) :
    remaining s m place' < remaining s n place := by
  refine remaining_lt_of_lt ?_ hbound
  have hmul : (m.weight + 1) * (s.size + 1) ≤ n.weight * (s.size + 1) :=
    Nat.mul_le_mul_right _ hweight
  rw [Nat.succ_mul] at hmul
  omega

/-- Less remains with fewer empty rounds to spare. -/
theorem remaining_lt_of_spare {s : Subject} {n m : Node} (place : Nat)
    (hweight : m.weight = n.weight) (hbound : m.spareBound ≤ n.spareBound)
    (hspare : m.spare < n.spare) : remaining s m place < remaining s n place := by
  unfold remaining
  rw [hweight]
  exact Nat.add_lt_add_of_le_of_lt (Nat.mul_le_mul_left _ (Nat.succ_le_succ hbound)) hspare

/-- **Matches a pattern and what comes after it.** -/
def run (s : Subject) (limit : Nat) (node : Node) (p : Progress) (k : After) :
    Option Progress :=
  match node with
  | .text cs =>
    match s.after? limit cs p.place with
    | some place => k { p with place := place }
    | none => none
  | .any lineEnds => oneLetter s limit p k (fun l => lineEnds || l != .char '\n')
  | .set cs => oneLetter s limit p k (fun l => l.isIn cs)
  | .place at_ => if s.holdsAt limit p.place at_ then k p else none
  | .never => none
  | .seq a b => run s limit a p (fun p => run s limit b p k)
  | .alt a b => (run s limit a p k).or (run s limit b p k)
  | .group index body => run s limit body (p.enter index) (fun q => k (q.leave index))
  | .loop body (least + 1) most greedy guard =>
    run s limit body p (fun q =>
      match judge guard p q with
      | .on => run s limit (.loop body least (most.map (· - 1)) greedy guard) q k
      | .out => k q
      | .vain => none)
  | .loop _ 0 (some 0) _ _ => k p
  | .loop body 0 (some (most + 1)) greedy guard =>
    let again : After := fun q =>
      match judge guard p q with
      | .on => run s limit (.loop body 0 (some most) greedy guard) q k
      | .out => k q
      | .vain => none
    if greedy then (run s limit body p again).or (k p) else (k p).or (run s limit body p again)
  | .loop body 0 none greedy none =>
    let again : After := fun q =>
      if p.place < q.place ∧ q.place ≤ s.size then
        run s limit (.loop body 0 none greedy none) q k
      else k q
    if greedy then (run s limit body p again).or (k p) else (k p).or (run s limit body p again)
  | .loop body 0 none greedy (some ⟨watched, spare⟩) =>
    let again : After := fun q =>
      if p.place < q.place ∧ q.place ≤ s.size then
        run s limit (.loop body 0 none greedy (some (.watching watched))) q k
      else match Guard.judge ⟨watched, spare⟩ p q, spare with
        | .on, spare + 1 =>
          if q.place = p.place then
            run s limit (.loop body 0 none greedy (some ⟨watched, spare⟩)) q k
          else k q
        | .vain, _ => none
        | _, _ => k q
    if greedy then (run s limit body p again).or (k p) else (k p).or (run s limit body p again)
  | .atomic body =>
    match run s limit body p some with
    | some q => k q
    | none => none
  | .ahead body negated =>
    match run s limit body p some with
    | some q => if negated then none else k { q with place := p.place }
    | none => if negated then k p else none
  | .behind body least most negated =>
    let found :=
      match s.back? least p.place with
      | none => none
      | some nearest =>
        if most = some least then run s limit body { p with place := nearest } some
        else
          let reach : After := fun q => if q.place = p.place then some q else none
          s.findBack? (fun place => run s p.place body { p with place := place } reach)
            (most.getD p.place - least) nearest
    match found with
    | some q => if negated then none else k q
    | none => if negated then k p else none
  | .back groups anyCase =>
    match afterBack? s limit anyCase p groups with
    | some place => k { p with place := place }
    | none => none
termination_by remaining s node p.place
decreasing_by
  -- a part of the pattern, or the loop with fewer rounds
  all_goals try
    exact remaining_lt_of_weight (by simp only [Node.weight, Option.getD_some]; omega)
      (by simp only [Node.spareBound]; omega)
  · have := getD_map_pred_le most
    exact remaining_lt_of_weight (by simp only [Node.weight]; omega) (Nat.le_refl _)
  -- the loop further on in the text
  · exact remaining_lt_of_lt (by omega) (Nat.le_refl _)
  · exact remaining_lt_of_lt (by simp only [Node.weight]; omega)
      (by simp only [Node.spareBound, Guard.watching, Option.elim_some]; omega)
  -- the loop at the same place
  · rename_i h
    rw [h]
    exact remaining_lt_of_spare _ rfl (by simp only [Node.spareBound, Option.elim_some]; omega)
      (Nat.lt_succ_self _)

/-- **A compiled pattern.** -/
structure Expression where
  /-- The pattern. -/
  node : Node
  /-- How many groups it has. -/
  groups : Nat
  /-- How it begins and ends. -/
  opening : Opening

namespace Expression

/-- The match of a pattern that begins at a place: the places of the whole match and of the
groups. -/
def matchAt? (r : Expression) (s : Subject) (place : Nat) : Option (Array (Option (Nat × Nat))) :=
  (run s s.size r.node ⟨place, Array.replicate (r.groups + 1) {}⟩ some).map (fun p =>
    (p.marks.map Mark.span?).setIfInBounds 0 (some (place, p.place)))

end Expression

end Highlight.Regex
