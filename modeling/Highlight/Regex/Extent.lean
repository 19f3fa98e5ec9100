import Highlight.Regex.Term

/-!
# How much a pattern matches

The **extent** of a pattern bounds the number of characters that it matches. It is read off the
pattern, without looking at any text, so the bounds need not be reached.

A reference matches what its group matched, so its extent is that of the body of the group. The
bodies may refer to further groups, even in a circle; extents are therefore found in rounds,
each of which uses those of the round before.
-/

namespace Highlight.Regex

/-- **The extent of a pattern.** -/
structure Extent where
  /-- The least number of characters. -/
  least : Nat
  /-- The greatest number of characters, if there is one. -/
  most : Option Nat
  /-- Whether the least number can be matched at any place. -/
  certain : Bool
  deriving DecidableEq, Repr

namespace Extent

/-- Exactly so many characters. -/
def exactly (n : Nat) : Extent := ⟨n, some n, true⟩

/-- Any number of characters. -/
def unknown : Extent := ⟨0, none, false⟩

/-- The number of characters is fixed. -/
def isFixed (e : Extent) : Bool := e.most == some e.least

/-- The extent of one after the other. -/
def add (a b : Extent) : Extent :=
  ⟨a.least + b.least, a.most.bind (fun m => b.most.map (m + ·)), a.certain && b.certain⟩

/-- The extent of one or the other. -/
def either (a b : Extent) : Extent where
  least := min a.least b.least
  most := a.most.bind (fun m => b.most.map (max m ·))
  certain :=
    if b.least < a.least then b.certain
    else if b.least = a.least then a.certain || b.certain
    else a.certain

/-- The extent of a repetition. -/
def times (e : Extent) (least : Nat) (most : Option Nat) : Extent :=
  if most = some 0 then exactly 0
  else ⟨e.least * least, e.most.bind (fun m => most.map (m * ·)), e.certain⟩

end Extent

/-- The extents of groups. -/
abbrev Extents := List (Nat × Extent)

namespace Extents

/-- The extent of a reference to some groups. -/
def ofReference (es : Extents) (groups : List Nat) : Extent :=
  match groups.map (fun g => (es.lookup g).getD .unknown) with
  | [] => .unknown
  | e :: rest =>
    let reference := fun (e : Extent) => { e with certain := e.certain && e.isFixed }
    rest.foldl (fun a b => a.either (reference b)) (reference e)

end Extents

namespace Term

/-- **The extent of a pattern**, given those of the groups it refers to. -/
def extent (es : Extents) : Term → Extent
  | text cs _ => .exactly cs.length
  | any _ | set _ => .exactly 1
  | never => .exactly 0
  | place _ | ahead .. | behind .. => ⟨0, some 0, false⟩
  | seq a b => (a.extent es).add (b.extent es)
  | alt a b => (a.extent es).either (b.extent es)
  | group _ a => { a.extent es with certain := false }
  | bare a | optioned a | atomic a => a.extent es
  | loop a least most _ => (a.extent es).times least most
  | back groups _ within => if within then .unknown else es.ofReference groups

/-- The extents of the groups of a pattern. Without references there is no need of them. -/
def groupExtents (t : Term) : Extents :=
  if t.references.isEmpty then []
  else
    let groups := t.groups
    let round := fun (es : Extents) => groups.map (fun (g, body) => (g, body.extent es))
    (List.range (groups.length + 1)).foldl (fun es _ => round es) []

/-- Some text that the pattern matches may be empty. -/
def mayBeEmpty (es : Extents) (t : Term) : Bool := (t.extent es).least == 0

/-- The alternatives at the top of a pattern. -/
def alternatives : Term → List Term
  | alt a b => a :: b.alternatives
  | t => [t]

/-- All alternatives but perhaps the first match a fixed number of characters, and these
numbers differ. -/
def differInLength (es : Extents) (t : Term) : Bool :=
  match t with
  | alt _ b =>
    !(t.extent es).isFixed && b.alternatives.all (fun c => (c.extent es).isFixed)
  | _ => false

end Term

end Highlight.Regex
