/-!
# Quoted text

A text is quoted by single quotes around it, with a backslash before each
single quote and each backslash of the text.
-/

namespace GradualTypes
namespace Text

namespace Quoted

def body : List Char -> List Char
  | [] => []
  | c :: rest =>
      if c == '\'' || c == '\\' then '\\' :: c :: body rest
      else c :: body rest

def encode (cs : List Char) : List Char :=
  '\'' :: (body cs ++ ['\''])

end Quoted

def quote (s : String) : String :=
  String.ofList (Quoted.encode s.toList)

/-- Whether a text is an ASCII letter or an underscore followed by ASCII
letters, digits and underscores. -/
def isIdentifier (s : String) : Bool :=
  match s.toList with
  | [] => false
  | c :: rest => (c == '_' || c.isAlpha) && rest.all (fun d => d == '_' || d.isAlphanum)

end Text
end GradualTypes
