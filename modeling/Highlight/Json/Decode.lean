import Highlight.Json.Reader
import Highlight.Text.Quoted

/-!
# Decoding JSON values

A **decoder** takes a value to a typed result, or says why it cannot: a fault of the text, or a
value of the wrong shape. Decoders follow the order of the text, so of two things that are wrong
the earlier one is reported. They carry the room left for nested lists and objects.

Records are decoded from objects, by the names of their fields, and from lists, by their order.
Unknown members of an object are passed over.
-/

namespace Highlight.Json

/-- Why a well-formed value was refused. -/
inductive ShapeError where
  /-- A field that must be given is missing. -/
  | missingField (name : String)
  /-- A field is given twice. -/
  | duplicateField (name : String)
  /-- A value of one type stands where another is due; both are described. -/
  | wrongType (found wanted : String)
  /-- A list is too short for the record it should be. -/
  | wrongLength (length : Nat) (wanted : String)
  /-- A value is none of the forms it may take. -/
  | noVariant (name : String)
  deriving DecidableEq, Repr

namespace ShapeError

/-- The text of the error. -/
def message : ShapeError → String
  | missingField name => "missing field `" ++ name ++ "`"
  | duplicateField name => "duplicate field `" ++ name ++ "`"
  | wrongType found wanted => "invalid type: " ++ found ++ ", expected " ++ wanted
  | wrongLength n wanted => "invalid length " ++ toString n ++ ", expected " ++ wanted
  | noVariant name => "data did not match any variant of untagged enum " ++ name

end ShapeError

/-- **Why decoding failed.** -/
inductive Error where
  /-- The text is not JSON. -/
  | fault (f : Fault)
  /-- A value has the wrong shape. -/
  | shape (e : ShapeError)
  deriving DecidableEq, Repr

/-- The room of a whole document: lists and objects may be nested to a depth of one less. -/
def fullRoom : Nat := 128

/-- A decoder of values, given the room left for nesting. -/
abbrev Decoder (α : Type) := Nat → Value → Except Error α

namespace Value

/-- What a value is, for the message of an error. -/
def kind : Value → String
  | null => "null"
  | bool b => "boolean `" ++ toString b ++ "`"
  | integer n => "integer `" ++ toString n ++ "`"
  | real x => "floating point `" ++ Real.text x ++ "`"
  | string s => "string " ++ Text.quoted s
  | array .. => "sequence"
  | object .. => "map"
  | unreadable .. => "nothing"

/-- The error of finding a value where `wanted` is due. -/
def unexpected (wanted : String) : Value → Error
  | unreadable f _ => .fault f
  | v => .shape (.wrongType v.kind wanted)

end Value

/-- The room inside a list or object, if there is any. -/
def enter (room : Nat) : Except Error Nat :=
  if room ≤ 1 then .error (.fault .malformed) else .ok (room - 1)

/-- Reports a fault, if there is one. -/
def check : Option Fault → Except Error Unit
  | some f => .error (.fault f)
  | none => .ok ()

namespace Decoder

/-- A string. -/
def string : Decoder String
  | _, .string s => .ok s
  | _, v => .error (v.unexpected "a string")

/-- A value that may be `null`. -/
def optional {α : Type} (d : Decoder α) : Decoder (Option α)
  | _, .null => .ok none
  | room, v => (d room v).map some

/-- A list. -/
def list {α : Type} (d : Decoder α) : Decoder (List α)
  | room, .array items broken => do
    let room ← enter room
    let xs ← items.mapM (d room)
    check broken
    return xs
  | _, v => .error (v.unexpected "a sequence")

/-- The pairs `ps` with `key` mapped to `a`, in place of what it was mapped to before. -/
def put {α : Type} (ps : List (String × α)) (key : String) (a : α) : List (String × α) :=
  if ps.any (·.1 == key) then ps.map (fun p => if p.1 == key then (key, a) else p)
  else ps ++ [(key, a)]

/-- An object as a map, in which the last of several members with one key counts. -/
def map {α : Type} (d : Decoder α) : Decoder (List (String × α))
  | room, .object members broken => do
    let room ← enter room
    let ps ← members.foldlM (fun ps m => do
      check m.1.flaw
      return put ps m.1.text (← d room m.2)) []
    check broken
    return ps
  | _, v => .error (v.unexpected "a map")

/-- A value that takes one of several forms, told apart by trying them in turn. It is read in
full first, so faults anywhere inside it come before its shape. -/
def oneOf {α : Type} (name : String) (forms : List (Decoder α)) : Decoder α
  | room, v => do
    check (v.readFault? room)
    match forms.findSome? (fun d => (d room v).toOption) with
    | some a => return a
    | none => .error (.shape (.noVariant name))

/-! ## Records -/

/-- A field of a record `ρ`: its names, of which the first is the one errors use, how a value is
stored into the record, and whether the field must be given. -/
structure Field (ρ : Type) where
  /-- The name. -/
  name : String
  /-- Reads a value into the record. -/
  read : Nat → Value → ρ → Except Error ρ
  /-- Further names. -/
  aliases : List String := []
  /-- The field must be given. -/
  required : Bool := false

/-- The field that a decoder fills. -/
def field {ρ α : Type} (name : String) (d : Decoder α) (store : ρ → α → ρ) : Field ρ where
  name := name
  read room v r := (d room v).map (store r)

/-- Reads the members of an object into a record. The names met so far tell duplicates. -/
def readMembers {ρ : Type} (fields : List (Field ρ)) (room : Nat) :
    List (Key × Value) → List String → ρ → Except Error (ρ × List String)
  | [], seen, r => .ok (r, seen)
  | (key, v) :: rest, seen, r => do
    check key.flaw
    match fields.find? (fun f => f.name == key.text || f.aliases.contains key.text) with
    | some f =>
      if seen.contains f.name then .error (.shape (.duplicateField f.name))
      else readMembers fields room rest (f.name :: seen) (← f.read room v r)
    | none =>
      check v.skipFault?
      readMembers fields room rest seen r

/-- Reads the items of a list into a record, field by field. -/
def readInOrder {ρ : Type} (wanted : String) (broken : Option Fault) (room : Nat) :
    List (Field ρ) → List Value → Nat → ρ → Except Error ρ
  | [], [], _, r => do
    check broken
    return r
  | [], _ :: _, _, _ => .error (.fault .malformed)
  | f :: fields, v :: rest, n, r => do
    readInOrder wanted broken room fields rest (n + 1) (← f.read room v r)
  | f :: fields, [], n, r => do
    check broken
    if f.required then .error (.shape (.wrongLength n wanted))
    else readInOrder wanted broken room fields [] (n + 1) r

/-- **A record**, starting from `blank`. Errors call it `struct name`. -/
def record {ρ : Type} (name : String) (fields : List (Field ρ)) (blank : ρ) : Decoder ρ
  | room, .object members broken => do
    let room ← enter room
    let (r, seen) ← readMembers fields room members [] blank
    check broken
    match fields.find? (fun f => f.required && !seen.contains f.name) with
    | some f => .error (.shape (.missingField f.name))
    | none => return r
  | room, .array items broken => do
    let room ← enter room
    let wanted := "struct " ++ name ++ " with " ++ toString fields.length ++ " elements"
    readInOrder wanted broken room fields items 0 blank
  | _, v => .error (v.unexpected ("struct " ++ name))

end Decoder

/-- **Decodes a text.** -/
def decodeText {α : Type} (d : Decoder α) (text : String) : Except Error α := do
  let doc := Document.ofText text
  let a ← d fullRoom doc.value
  check doc.trailing
  return a

end Highlight.Json
