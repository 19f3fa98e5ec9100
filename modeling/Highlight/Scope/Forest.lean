import Highlight.Scope.Path

/-!
# Forests of scope paths

Where paths are kept over time it can matter **which** path is meant, and not only how it reads:
a path extends the one it was built from, but not another that merely has the same scopes. A
forest keeps every path as a node above the node it was built from, and a handle names a node.
-/

namespace Highlight.Scope

/-- A node: the scope it adds, and the node it was built from. -/
structure Node where
  /-- The scope. -/
  name : String
  /-- The node below, if any. -/
  below : Option Nat

/-- **A forest of scope paths.** Handles are indices into it; a node stands above an earlier
one. -/
structure Forest where
  /-- The nodes, oldest first. -/
  nodes : Array Node := #[]

namespace Forest

/-- Adds a node, and returns its handle. -/
def add (f : Forest) (name : String) (below : Option Nat) : Nat × Forest :=
  (f.nodes.size, ⟨f.nodes.push ⟨name, below⟩⟩)

/-- Adds nodes for some scopes, outermost first, above a node. -/
def addAll (f : Forest) (below : Option Nat) : List String → Option Nat × Forest
  | [] => (below, f)
  | name :: rest =>
    let (handle, f) := f.add name below
    f.addAll (some handle) rest

/-- The node a node was built from. -/
def parent? (f : Forest) (handle : Nat) : Option Nat := (f.nodes[handle]?).bind (·.below)

/-- The handles from a node down to its root. Every node stands above an earlier one, so there
are no more of them than nodes. -/
def chain (f : Forest) : Nat → Nat → List Nat
  | 0, _ => []
  | fuel + 1, handle =>
    handle :: (match f.parent? handle with
      | some below => f.chain fuel below
      | none => [])

/-- The handles from a node down to its root. -/
def ancestry (f : Forest) (handle : Nat) : List Nat := f.chain f.nodes.size handle

/-- **The first path extends the second**: it is the second, or was built from it. -/
def extends? (f : Forest) (a b : Nat) : Bool := (f.ancestry a).contains b

/-- The path that a handle names. -/
def path? (f : Forest) (handle : Nat) : Option ScopePath :=
  ScopePath.ofNames? ((f.ancestry handle).filterMap (fun h => (f.nodes[h]?).map (·.name))).reverse

end Forest

end Highlight.Scope
