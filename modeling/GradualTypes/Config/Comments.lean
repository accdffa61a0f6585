import GradualTypes.Text.Blank

/-!
# Comments and trailing commas

Configuration texts may hold `//` comments up to the end of the line, comments
between `/*` and `*/`, and a comma before a closing bracket or brace.  All of
them are removed before the text is read; line breaks in comments stay.

A comma is held back until the next character that is neither blank nor part of
a comment: in front of a closing bracket or brace it is dropped, and otherwise it
is written there.  The contents of strings are copied unchanged.
-/

namespace GradualTypes
namespace Config
namespace Comments

def held (comma : Bool) (rest : List Char) : List Char :=
  if comma then ',' :: rest else rest

def isCloser (c : Char) : Bool :=
  c == '}' || c == ']'

mutual

/-- Outside of strings and comments; `comma` tells whether a comma is held
back. -/
def outside (comma : Bool) : List Char -> List Char
  | [] => held comma []
  | '/' :: '/' :: rest => inLine comma rest
  | '/' :: '*' :: rest => inBlock comma false rest
  | ',' :: rest => held comma (outside true rest)
  | '"' :: rest => held comma ('"' :: inString rest)
  | c :: rest =>
      if Text.isBlank c then c :: outside comma rest
      else held (comma && !isCloser c) (c :: outside false rest)

def inLine (comma : Bool) : List Char -> List Char
  | [] => held comma []
  | '\n' :: rest => '\n' :: outside comma rest
  | _ :: rest => inLine comma rest

/-- In a comment up to a star and a slash; `star` tells whether the character
before was a star of this comment. -/
def inBlock (comma star : Bool) : List Char -> List Char
  | [] => held comma []
  | c :: rest =>
      if star && c == '/' then outside comma rest
      else if c == '\n' then '\n' :: inBlock comma false rest
      else inBlock comma (c == '*') rest

def inString : List Char -> List Char
  | [] => []
  | '\\' :: c :: rest => '\\' :: c :: inString rest
  | '"' :: rest => '"' :: outside false rest
  | c :: rest => c :: inString rest

end

/-- A text without its comments and trailing commas. -/
def strip (cs : List Char) : List Char :=
  outside false cs

end Comments
end Config
end GradualTypes
