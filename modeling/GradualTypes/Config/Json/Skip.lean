import GradualTypes.Config.Json.Token

/-!
# Skipping values

Reading over one JSON value whose contents do not matter.  The open brackets and
braces are kept on a stack; a value that is nested too deeply is malformed.
-/

namespace GradualTypes
namespace Config
namespace Json

/-- What an open bracket or brace holds. -/
inductive Frame where
  | list
  | object
deriving DecidableEq, Repr

/-- How many brackets and braces may be open inside the outermost one. -/
def maxNesting : Nat := 126

def noValue : List Token -> Fault
  | [] => .ended
  | .broken fault :: _ => fault
  | .brokenText fault :: _ => fault
  | _ => .malformed

def noKey : List Token -> Fault
  | [] => .ended
  | .brokenText fault :: _ => fault
  | _ => .malformed

def noSeparator : List Token -> Fault
  | [] => .ended
  | _ => .malformed

mutual

/-- Skip a value, and what is left of the open brackets and braces after it. -/
def skipValue (stack : List Frame) : List Token -> Except Fault (List Token)
  | .null :: rest => skipRest stack rest
  | .bool _ :: rest => skipRest stack rest
  | .text _ :: rest => skipRest stack rest
  | .natural _ :: rest => skipRest stack rest
  | .number :: rest => skipRest stack rest
  | .openList :: rest =>
      if maxNesting ≤ stack.length then
        .error .malformed
      else
        match rest with
        | .closeList :: rest => skipRest stack rest
        | rest => skipValue (.list :: stack) rest
  | .openObject :: rest =>
      if maxNesting ≤ stack.length then
        .error .malformed
      else
        match rest with
        | .closeObject :: rest => skipRest stack rest
        | .text _ :: .colon :: rest => skipValue (.object :: stack) rest
        | .text _ :: rest => .error (noSeparator rest)
        | rest => .error (noKey rest)
  | tokens => .error (noValue tokens)

/-- Skip what is left of the open brackets and braces after a value. -/
def skipRest : List Frame -> List Token -> Except Fault (List Token)
  | [], tokens => .ok tokens
  | .list :: stack, .closeList :: rest => skipRest stack rest
  | .list :: stack, .comma :: rest => skipValue (.list :: stack) rest
  | .object :: stack, .closeObject :: rest => skipRest stack rest
  | .object :: stack, .comma :: .text _ :: .colon :: rest =>
      skipValue (.object :: stack) rest
  | .object :: _, .comma :: .text _ :: rest => .error (noSeparator rest)
  | .object :: _, .comma :: rest => .error (noKey rest)
  | _ :: _, tokens => .error (noSeparator tokens)

end

end Json
end Config
end GradualTypes
