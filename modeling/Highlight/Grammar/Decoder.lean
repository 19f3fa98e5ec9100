import Highlight.Grammar.Definition
import Highlight.Json.Decode
import Highlight.Text.Natural

/-!
# Reading grammars

Grammars are written in JSON. A few parts may take more than one form: captures are an object by
group number or a list, an entry of a repository is a rule or a list of rules, and a flag is a
truth value or a number.
-/

namespace Highlight.Grammar

open Json (Decoder)
open Json.Decoder (field)

/-- Puts a rule for a group into a list of captures by growing group number. -/
def putCapture (index : Nat) (r : RuleDefinition) :
    List (Nat × RuleDefinition) → List (Nat × RuleDefinition)
  | [] => [(index, r)]
  | (i, s) :: rest =>
    if index < i then (index, r) :: (i, s) :: rest
    else if index = i then (index, r) :: rest
    else (i, s) :: putCapture index r rest

/-- The captures of an object. Keys that are no group numbers do not count. -/
def capturesOfMembers (members : List (String × RuleDefinition)) : List (Nat × RuleDefinition) :=
  members.foldl (fun cs m => match Text.index? m.1.toList with
    | some index => putCapture index m.2 cs
    | none => cs) []

/-- The captures of a list. -/
def capturesOfList (rules : List RuleDefinition) : List (Nat × RuleDefinition) :=
  rules.zipIdx.map (fun (r, index) => (index, r))

/-- A flag: a truth value, or a number that fits a signed word and is not 0. -/
def flagDecoder : Decoder Bool :=
  fun room v => (Decoder.optional (.oneOf "Flag"
    [fun _ v => match v with
      | .bool b => .ok b
      | v => .error (v.unexpected "a boolean"),
     fun _ v => match v with
      | .integer n => if n < Int.ofNat Json.Real.signLimit then .ok (n != 0) else .error (v.unexpected "a word")
      | v => .error (v.unexpected "a number")]) room v).map (·.getD false)

/-- Captures, by a decoder of rules. -/
def capturesDecoder (rule : Decoder RuleDefinition) : Decoder (List (Nat × RuleDefinition)) :=
  .oneOf "RawCaptures"
    [fun room v => (Decoder.map rule room v).map capturesOfMembers,
     fun room v => (Decoder.list rule room v).map capturesOfList]

/-- A repository, by a decoder of rules. A bare list of rules is a rule that holds them. -/
def repositoryDecoder (rule : Decoder RuleDefinition) : Decoder (List (String × RuleDefinition)) :=
  fun room v => (Decoder.optional (.map (.oneOf "RepositoryEntry"
    [fun room v => (Decoder.list rule room v).map (fun rs => { patterns := some rs }),
     rule])) room v).map (·.getD [])

/-- A rule with at most `depth` rules around each other. -/
def ruleDecoder : (depth : Nat) → Decoder RuleDefinition
  | 0 => fun _ _ => .error (.fault .malformed)
  | depth + 1 =>
    let rule := ruleDecoder depth
    let captures := Decoder.optional (capturesDecoder rule)
    .record "RawRule"
      [field "include" (.optional .string) (fun r x => { r with reference := x }),
       field "name" (.optional .string) (fun r x => { r with name := x }),
       field "contentName" (.optional .string) (fun r x => { r with contentName := x }),
       field "match" (.optional .string) (fun r x => { r with pattern := x }),
       field "captures" captures (fun r x => { r with captures := x }),
       field "begin" (.optional .string) (fun r x => { r with opening := x }),
       field "beginCaptures" captures (fun r x => { r with openingCaptures := x }),
       field "end" (.optional .string) (fun r x => { r with closing := x }),
       field "endCaptures" captures (fun r x => { r with closingCaptures := x }),
       field "while" (.optional .string) (fun r x => { r with continuing := x }),
       field "whileCaptures" captures (fun r x => { r with continuingCaptures := x }),
       field "patterns" (.optional (.list rule)) (fun r x => { r with patterns := x }),
       field "repository" (repositoryDecoder rule) (fun r x => { r with repository := x }),
       field "applyEndPatternLast" flagDecoder (fun r x => { r with closeLast := x })]
      {}

/-- A rule. Every rule inside another takes up room for nesting, so the room bounds the depth. -/
def RuleDefinition.decoder : Decoder RuleDefinition := ruleDecoder Json.fullRoom

/-- A grammar. -/
def Definition.decoder : Decoder Definition :=
  .record "RawGrammar"
    [{ field "scopeName" .string (fun g x => { g with scopeName := x }) with required := true },
     field "name" (.optional .string) (fun g x => { g with name := x }),
     field "displayName" (.optional .string) (fun g x => { g with displayName := x }),
     field "fileTypes" (.list .string) (fun g x => { g with fileTypes := x }),
     field "firstLineMatch" (.optional .string) (fun g x => { g with firstLineMatch := x }),
     field "patterns" (.list RuleDefinition.decoder) (fun g x => { g with patterns := x }),
     field "repository" (repositoryDecoder RuleDefinition.decoder)
       (fun g x => { g with repository := x }),
     field "injections" (repositoryDecoder RuleDefinition.decoder)
       (fun g x => { g with injections := x }),
     field "injectionSelector" (.optional .string) (fun g x => { g with injectionSelector := x }),
     field "injectTo" (.list .string) (fun g x => { g with injectTo := x })]
    { scopeName := "" }

/-- **Reads a grammar.** -/
def Definition.ofText (text : String) : Except Json.Error Definition :=
  Json.decodeText decoder text

end Highlight.Grammar
