import GradualTypes.Config.Basic
import GradualTypes.Config.Comments
import GradualTypes.Config.Json.Skip

/-!
# Reading configurations

A configuration is a JSON object with the members listed in `Field`, in any
order, each at most once; or a JSON list of the same values in the order of
`Field.all`, where trailing ones may be missing.  `null` leaves a setting unset.
A boolean may be written as a word.  The first fault that is met decides.
-/

namespace GradualTypes
namespace Config

open Json

inductive Field where
  | base
  | strictTypes
  | maxShapeExpansion
  | maxUnionShapeMerge
  | maxIntersectionDistribution
  | benevolentAcceptance
deriving DecidableEq, Repr

namespace Field

/-- The fields in the order of the list form. -/
def all : List Field :=
  [base, strictTypes, maxShapeExpansion, maxUnionShapeMerge,
    maxIntersectionDistribution, benevolentAcceptance]

def name : Field -> String
  | base => "extends"
  | strictTypes => "strictTypes"
  | maxShapeExpansion => "maxShapeExpansion"
  | maxUnionShapeMerge => "maxUnionShapeMerge"
  | maxIntersectionDistribution => "maxIntersectionDistribution"
  | benevolentAcceptance => "benevolentAcceptance"

end Field

/-!
# Values of the fields
-/

/-- The fault of finding a value of the wrong kind, or no value. -/
def refusal (tokens : List Token) : Fault :=
  match tokens with
  | .openObject :: _ => .mismatch
  | .openList :: _ => .mismatch
  | .null :: _ => .mismatch
  | .bool _ :: _ => .mismatch
  | .text _ :: _ => .mismatch
  | .natural _ :: _ => .mismatch
  | .number :: _ => .mismatch
  | tokens => noValue tokens

def readText : List Token -> Except Fault (Option String × List Token)
  | .null :: rest => .ok (none, rest)
  | .text s :: rest => .ok (some s, rest)
  | tokens => .error (refusal tokens)

def readSize : List Token -> Except Fault (Option Nat × List Token)
  | .null :: rest => .ok (none, rest)
  | .natural n :: rest => .ok (some n, rest)
  | tokens => .error (refusal tokens)

def invalidBoolean (s : String) : String :=
  "invalid boolean value: '" ++ s ++ "'. Expected true, false, 'true', or 'false'"

def parseFailure : String :=
  "failed to parse analyzer config JSON"

/-- The boolean that a word stands for. -/
def flagOfWord? (s : String) : Option Bool :=
  let word := Text.normalWord s
  if ["true", "1", "yes", "on"].contains word then some true
  else if ["false", "0", "no", "off"].contains word then some false
  else none

/-- A boolean, or a word for one.  Any other value is read to its end before it is
refused. -/
def readFlag : List Token -> Except Fault (Option Bool × List Token)
  | .null :: rest => .ok (none, rest)
  | .bool b :: rest => .ok (some b, rest)
  | .text s :: rest =>
      match flagOfWord? s with
      | some b => .ok (some b, rest)
      | none => .error (.notBoolean s)
  | tokens => do
      let _ ← skipValue [] tokens
      .error .mismatch

def readField (config : Config) (tokens : List Token) :
    Field -> Except Fault (Config × List Token)
  | .base => do
      let (value, rest) ← readText tokens
      return ({ config with base := value }, rest)
  | .strictTypes => do
      let (value, rest) ← readFlag tokens
      return ({ config with strictTypes := value }, rest)
  | .maxShapeExpansion => do
      let (value, rest) ← readSize tokens
      return ({ config with maxShapeExpansion := value }, rest)
  | .maxUnionShapeMerge => do
      let (value, rest) ← readSize tokens
      return ({ config with maxUnionShapeMerge := value }, rest)
  | .maxIntersectionDistribution => do
      let (value, rest) ← readSize tokens
      return ({ config with maxIntersectionDistribution := value }, rest)
  | .benevolentAcceptance => do
      let (value, rest) ← readFlag tokens
      return ({ config with benevolentAcceptance := value }, rest)

/-!
# The object form
-/

/-- The field of a key, if it has not been read yet. -/
def openField? (unread : List Field) (key : String) : Option Field :=
  unread.find? (·.name == key)

/-- Read members from a key on, given the fields that have not been read yet. -/
def readMembers (unread : List Field) (config : Config) (tokens : List Token) :
    Except Fault (Config × List Token) :=
  match tokens with
  | .text key :: rest =>
      match _found : openField? unread key with
      | none => .error .mismatch
      | some field =>
          match rest with
          | .colon :: rest =>
              match readField config rest field with
              | .error fault => .error fault
              | .ok (config, .closeObject :: rest) => .ok (config, rest)
              | .ok (config, .comma :: rest) =>
                  readMembers (unread.erase field) config rest
              | .ok (_, rest) => .error (noSeparator rest)
          | rest => .error (noSeparator rest)
  | tokens => .error (noKey tokens)
termination_by unread.length
decreasing_by
  have read : field ∈ unread := List.mem_of_find?_eq_some _found
  have := List.length_pos_of_mem read
  rw [List.length_erase_of_mem read]
  omega

def readObject : List Token -> Except Fault (Config × List Token)
  | .closeObject :: rest => .ok (empty, rest)
  | tokens => readMembers Field.all empty tokens

/-!
# The list form
-/

/-- Read the value of each field in turn, each after a comma, up to the end of the
list. -/
def readElements (config : Config) (tokens : List Token) :
    List Field -> Except Fault (Config × List Token)
  | [] =>
      match tokens with
      | .closeList :: rest => .ok (config, rest)
      | tokens => .error (noSeparator tokens)
  | field :: fields =>
      match tokens with
      | .closeList :: rest => .ok (config, rest)
      | .comma :: rest => do
          let (config, rest) ← readField config rest field
          readElements config rest fields
      | tokens => .error (noSeparator tokens)

def readList (tokens : List Token) : Except Fault (Config × List Token) :=
  match tokens with
  | .closeList :: rest => .ok (empty, rest)
  | tokens => readElements empty (.comma :: tokens) Field.all

/-!
# Whole texts
-/

def ofTokens (tokens : List Token) : Except Fault Config := do
  let (config, rest) ←
    match tokens with
    | .openObject :: rest => readObject rest
    | .openList :: rest => readList rest
    | tokens => .error (refusal tokens)
  match rest with
  | [] => .ok config
  | _ :: _ => .error .malformed

def parse (source : String) : Except Fault Config :=
  ofTokens (Token.scan (Comments.strip source.toList))

end Config
end GradualTypes
