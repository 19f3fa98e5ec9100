import Highlight.FontStyle
import Highlight.Order
import Highlight.Scope.Name

/-!
# The trie of a theme

Rules are kept by the segments of their scopes: the rules for `string.quoted` are at the node
reached by `string` and then `quoted`. A node holds one rule that applies anywhere, and rules
that apply only inside certain other scopes. **Styles are inherited when a node is made**: it
starts as a copy of the node above, so a scope without rules of its own has those of the longest
scope that covers it and has some.
-/

namespace Highlight.Theme

/-- What a rule sets. Colour 0 is not set. -/
structure Style where
  /-- The font style. -/
  fontStyle : Option FontStyle
  /-- The number of the foreground colour. -/
  foreground : Nat
  /-- The number of the background colour. -/
  background : Nat
  deriving DecidableEq, Repr

namespace Style

/-- Nothing is set. -/
def unset : Style := ⟨none, 0, 0⟩

/-- The style with what `s` leaves unset taken from `base`. -/
def orElse (s base : Style) : Style where
  fontStyle := s.fontStyle.or base.fontStyle
  foreground := if s.foreground = 0 then base.foreground else s.foreground
  background := if s.background = 0 then base.background else s.background

end Style

/-- A rule at a node. -/
structure Entry where
  /-- How many segments the scope of the rule has. -/
  depth : Nat
  /-- The scopes that must stand around, nearest first. -/
  parents : List String
  /-- What the rule sets. -/
  style : Style
  deriving DecidableEq, Repr

namespace Entry

/-- The entry of no rule at all. -/
def unset : Entry := ⟨0, [], .unset⟩

/-- The entry after a later rule for the same scope. -/
def overwrite (e : Entry) (depth : Nat) (style : Style) : Entry :=
  { e with depth := max e.depth depth, style := style.orElse e.style }

/-- The scopes without a `>` at their front. -/
def withoutArrow : List String → List String
  | ">" :: rest => rest
  | parents => parents

theorem length_withoutArrow_le (parents : List String) :
    (withoutArrow parents).length ≤ parents.length := by
  unfold withoutArrow
  split <;> simp

/-- Two lists of parents, the longer names first, and `>` left out of account. -/
def compareNames (a b : List String) : Ordering :=
  match _ha : withoutArrow a, withoutArrow b with
  | x :: xs, y :: ys =>
    (compare y.utf8ByteSize x.utf8ByteSize).then (compareNames xs ys)
  | _, _ => .eq
termination_by a.length
decreasing_by
  have h := length_withoutArrow_le a
  rw [_ha, List.length_cons] at h
  omega

/-- **The order of entries, most specific first**: deeper scopes, then longer names around them,
then more names around them. -/
def compareSpecificity (a b : Entry) : Ordering :=
  ((compare b.depth a.depth).then (compareNames a.parents b.parents)).then
    (compare b.parents.length a.parents.length)

end Entry

/-- **A node of the trie**: the rule that applies anywhere, the rules that need scopes around
them, and the nodes below by segment. -/
inductive Trie where
  /-- A node. -/
  | node (anywhere : Entry) (inside : List Entry) (children : List (String × Trie))

namespace Trie

/-- The rule that applies anywhere. -/
def anywhere : Trie → Entry
  | node e _ _ => e

/-- The rules that need scopes around them. -/
def inside : Trie → List Entry
  | node _ es _ => es

/-- The nodes below. -/
def children : Trie → List (String × Trie)
  | node _ _ ts => ts

/-- The trie without rules. -/
def empty : Trie := node .unset [] []

/-- Adds a rule that needs scopes around it. What it leaves unset it takes from the rule of the
node that applies anywhere. -/
def addInside (anywhere : Entry) (depth : Nat) (parents : List String) (style : Style) :
    List Entry → List Entry
  | [] => [⟨depth, parents, style.orElse anywhere.style⟩]
  | e :: es =>
    if e.parents = parents then e.overwrite depth style :: es
    else e :: addInside anywhere depth parents style es

/-- Adds a rule at this node. -/
def addHere (depth : Nat) (parents : List String) (style : Style) : Trie → Trie
  | node e es ts =>
    if parents.isEmpty then node (e.overwrite depth style) es ts
    else node e (addInside e depth parents style es) ts

/-- The node below for a segment, or the one that is made for it: a copy without nodes below. -/
def childOrCopy (t : Trie) (segment : String) : Trie :=
  (t.children.lookup segment).getD (node t.anywhere t.inside [])

/-- The trie with a node below put in place. -/
def putChild (t : Trie) (segment : String) (child : Trie) : Trie :=
  node t.anywhere t.inside
    (if (t.children.lookup segment).isSome then
      t.children.map (fun p => if p.1 == segment then (segment, child) else p)
    else t.children ++ [(segment, child)])

/-- **Adds a rule** for the scope with these segments. -/
def insert (parents : List String) (style : Style) : (depth : Nat) → List String → Trie → Trie
  | depth, [], t => t.addHere depth parents style
  | depth, s :: ss, t =>
    t.putChild s (insert parents style (depth + 1) ss (t.childOrCopy s))

/-- The node for the scope with these segments: as far down as there are nodes. -/
def find : List String → Trie → Trie
  | [], t => t
  | s :: ss, t =>
    match t.children.lookup s with
    | some child => find ss child
    | none => t

/-- **The rules for a scope**, most specific first. -/
def rulesFor (t : Trie) (scope : String) : List Entry :=
  let node := t.find (Scope.segments scope)
  Order.sort (fun a b => (a.compareSpecificity b).isLT) (node.inside ++ [node.anywhere])

end Trie

end Highlight.Theme
