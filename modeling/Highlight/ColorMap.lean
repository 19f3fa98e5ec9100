import Highlight.Keyed
import Highlight.Unicode.Case

/-!
# Colour maps

Packed attributes have no room for colours, so a theme numbers them. Number 0 stands for no
colour. Colours are compared in uppercase.

A colour map either grows, each new colour taking the next number, or is **frozen**: its numbers
are fixed by whoever uses the attributes, and a colour without one is missing. It keeps what it
knows three times over – a list of the colours by their numbers, a table of the numbers by their
colours, and the number that was given last – and nothing but the order in which it writes to them
sees to it that they agree.
-/

namespace Highlight

/-- **A colour map.** -/
structure ColorMap where
  /-- No colour may be added. -/
  frozen : Bool := false
  /-- The number that was given last. -/
  last : Nat := 0
  /-- The colours in uppercase, by their numbers. -/
  colors : List String := []
  /-- The numbers, by the colours in uppercase. -/
  numbers : List (String × Nat) := []

/-- A frozen map lacks a colour. -/
structure MissingColor where
  /-- The colour, in uppercase. -/
  color : String
  deriving DecidableEq, Repr

namespace MissingColor

/-- The text of the error. -/
def message (e : MissingColor) : String := "missing " ++ e.color ++ " in color map"

end MissingColor

namespace ColorMap

/-- The map without colours. Its place 0 is taken. -/
def empty : ColorMap := { colors := [""] }

/-- The map that numbers exactly these colours, by their places. No number is given, and of several
places the last goes into the table. -/
def freeze (colors : List String) : ColorMap where
  frozen := true
  colors := colors.map Unicode.upper
  numbers := (colors.map Unicode.upper).zipIdx.foldl
    (fun numbers (color, place) => Keyed.put color place numbers) []

/-- The number of a colour in uppercase, if it has one. Place 0 is no number. -/
def find? (m : ColorMap) (color : String) : Option Nat :=
  (Keyed.get? color m.numbers).filter (· ≠ 0)

/-- The map with one more colour, which takes the next number, whatever the map. -/
def add (m : ColorMap) (color : String) : ColorMap :=
  { m with
    last := m.last + 1
    numbers := Keyed.put color (m.last + 1) m.numbers
    colors := m.colors ++ [color] }

/-- The number of a colour in uppercase, and the map in which it has it. A colour that a frozen map
lacks leaves the map as it was. -/
def get (m : ColorMap) (color : String) : Except MissingColor Nat × ColorMap :=
  match m.find? color with
  | some n => (.ok n, m)
  | none => if m.frozen then (.error ⟨color⟩, m) else (.ok (m.add color).last, m.add color)

/-- **Asking for the number of a colour**, which is added if it is new and the map is not frozen. No
colour has number 0. -/
def ask (m : ColorMap) : Option String → Except MissingColor Nat × ColorMap
  | none => (.ok 0, m)
  | some color => m.get (Unicode.upper color)

/-- Asking for a number that is needed: the number and the map, or what is missing. -/
def number (m : ColorMap) (color : Option String) : Except MissingColor (Nat × ColorMap) :=
  (m.ask color).1.map (·, (m.ask color).2)

end ColorMap

end Highlight
