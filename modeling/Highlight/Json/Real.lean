/-!
# Numbers with a fraction or an exponent

Two directions. **Reading** takes decimal digits and an exponent to a floating-point number:
digits are collected into one word as long as they fit, and the word is scaled by a power of
ten, with a rounding at either step. **Writing** gives the fewest decimal digits that single
out the number among its neighbours, and puts very great and very small ones before a power of
ten.
-/

namespace Highlight.Json.Real

/-- One more than the greatest number that the digits before scaling may reach. -/
def wordLimit : Nat := 1 <<< 64

/-- One more than the greatest number of a word with a sign. -/
def signLimit : Nat := 1 <<< 63

/-- The power of ten as a floating-point number. -/
def powerOfTen (n : Nat) : Float := Float.ofScientific 1 false n

/-- The digits collected so far and the exponent of ten they are to be scaled by. -/
structure Collected where
  /-- The digits, as a number below `wordLimit`. -/
  digits : Nat
  /-- The exponent of ten. -/
  exponent : Int

/-- Collects digits before the point. A digit that no longer fits, and every one after it,
raises the exponent instead. -/
def collectWhole : Collected → List Nat → Collected
  | c, [] => c
  | c, d :: ds =>
    if c.digits * 10 + d < wordLimit then collectWhole ⟨c.digits * 10 + d, c.exponent⟩ ds
    else ⟨c.digits, c.exponent + (d :: ds).length⟩

/-- Collects digits after the point. A digit that no longer fits ends the collection. -/
def collectFraction : Collected → List Nat → Collected
  | c, [] => c
  | c, d :: ds =>
    if c.digits * 10 + d < wordLimit then collectFraction ⟨c.digits * 10 + d, c.exponent - 1⟩ ds
    else c

/-- The number of `digits` scaled by a power of ten, or `none` out of range. Far below one the
scaling is done in two steps. -/
def scale? (digits : Nat) (exponent : Int) : Option Float :=
  let x := Float.ofNat digits
  if exponent ≥ 0 then
    if exponent ≤ 308 then
      let y := x * powerOfTen exponent.toNat
      if y.isInf then none else some y
    else if digits = 0 then some x else none
  else if exponent ≥ -308 then some (x / powerOfTen (-exponent).toNat)
  else
    let y := x / powerOfTen 308
    let left := -exponent - 308
    if left ≤ 308 then some (y / powerOfTen left.toNat) else some 0

/-- **The number** with these digits before and after the point and this exponent. -/
def ofDigits? (negative : Bool) (whole fraction : List Nat) (exponent : Int) : Option Float :=
  let c := collectFraction (collectWhole ⟨0, 0⟩ whole) fraction
  (scale? c.digits (c.exponent + exponent)).map (fun x => if negative then -x else x)

/-- The exact value of a positive floating-point number as `m` times a power of two, and
whether its lower neighbour is nearer than the upper one. -/
structure Exact where
  /-- The whole factor. -/
  m : Nat
  /-- The exponent of two. -/
  q : Int
  /-- The lower neighbour is at half the distance of the upper one. -/
  uneven : Bool

/-- The exact value of a finite floating-point number, without its sign. -/
def exact (x : Float) : Exact :=
  let bits : Nat := x.toBits.toNat
  let mantissa : Nat := bits % (1 <<< 52)
  let biased : Nat := (bits >>> 52) % (1 <<< 11)
  if biased = 0 then ⟨mantissa, -1074, false⟩
  else ⟨mantissa + (1 <<< 52), Int.ofNat biased - 1075, mantissa == 0 && biased > 1⟩

/-- Whether `a · 10^p ≤ b · 2^r`. -/
def decimalLe (a : Nat) (p : Int) (b : Nat) (r : Int) : Bool :=
  (a * Nat.pow 10 p.toNat) <<< (-r).toNat ≤ (b <<< r.toNat) * Nat.pow 10 (-p).toNat

/-- Whether `a · 10^p ≥ b · 2^r`. -/
def decimalGe (a : Nat) (p : Int) (b : Nat) (r : Int) : Bool :=
  (b <<< r.toNat) * Nat.pow 10 (-p).toNat ≤ (a * Nat.pow 10 p.toNat) <<< (-r).toNat

/-- Whether `a · 10^p` rounds to the number: it lies between the midpoints to the neighbours,
which themselves round to it if the number is even. -/
def roundsTo (e : Exact) (a : Nat) (p : Int) : Bool :=
  let low := if e.uneven then 4 * e.m - 1 else 4 * e.m - 2
  let high := 4 * e.m + 2
  if e.m % 2 = 0 then decimalGe a p low (e.q - 2) && decimalLe a p high (e.q - 2)
  else !decimalLe a p low (e.q - 2) && !decimalGe a p high (e.q - 2)

/-- The greatest multiple of `10^p` that is at most the number, divided by `10^p`. -/
def floorAt (e : Exact) (p : Int) : Nat :=
  (e.m <<< e.q.toNat) * Nat.pow 10 (-p).toNat / (Nat.pow 10 p.toNat <<< (-e.q).toNat)

/-- Of the two multiples of `10^p` around the number, one that rounds to it: the nearer one if
both do. -/
def neighbour? (e : Exact) (p : Int) : Option Nat :=
  let a := floorAt e p
  match roundsTo e a p, roundsTo e (a + 1) p with
  | true, true => some (if decimalLe (2 * a + 1) p (2 * e.m) e.q then a + 1 else a)
  | true, false => some a
  | false, true => some (a + 1)
  | false, false => none

/-- The coarsest decimal grid, at most `10^p` and at least `10^(p - fuel)`, with a point that
rounds to the number, and that point. -/
def coarsest (e : Exact) : Nat → Int → Nat × Int
  | 0, p => (floorAt e p, p)
  | fuel + 1, p =>
    match neighbour? e p with
    | some a => if a = 0 then coarsest e fuel (p - 1) else (a, p)
    | none => coarsest e fuel (p - 1)

/-- The digits of `a · 10^p` in positional notation, with a point. -/
def positional (a : Nat) (p : Int) : List Char :=
  let ds := Nat.toDigits 10 a
  if p ≥ 0 then ds ++ List.replicate p.toNat '0' ++ ['.', '0']
  else
    let places := (-p).toNat
    let padded := List.replicate (places + 1 - ds.length) '0' ++ ds
    padded.take (padded.length - places) ++ '.' :: padded.drop (padded.length - places)

/-- The digits `ds` before the power of ten `e`, the first of them in front of the point. -/
def scientific (ds : List Char) (e : Int) : List Char :=
  ds.take 1 ++ (if ds.length ≤ 1 then [] else '.' :: ds.drop 1) ++
    ['e', if e < 0 then '-' else '+'] ++ Nat.toDigits 10 e.natAbs

/-- The text of `a · 10^p`. Numbers from `10^(-5)` on and below `10^16` are written
positionally. -/
def decimalText (a : Nat) (p : Int) : List Char :=
  let ds := Nat.toDigits 10 a
  let e := p + ds.length - 1
  if -5 ≤ e ∧ e ≤ 15 then positional a p
  else scientific (ds.reverse.dropWhile (· == '0')).reverse e

/-- **The shortest text of a number**: always with a point or a power of ten. -/
def text (x : Float) : String :=
  let e := exact x
  let cs := if e.m = 0 then ['0', '.', '0'] else
    let (a, p) := coarsest e 660 310
    decimalText a p
  String.ofList (if x.toBits.toNat >>> 63 = 1 then '-' :: cs else cs)

end Highlight.Json.Real
