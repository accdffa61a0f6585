import GradualTypes.Numbering

/-!
# Vocabularies

A vocabulary numbers texts.  The empty text is always its number zero.
-/

namespace GradualTypes
namespace Text

abbrev Vocabulary : Type := Numbering String

namespace Vocabulary

def fresh : Vocabulary :=
  Numbering.empty.enter ""

def isFresh (v : Vocabulary) : Bool :=
  v.size ≤ 1

/-- Keywords, well-known classes, methods with a special meaning, and frequent
keys. -/
def commonWords : List String :=
  ["mixed", "never", "void", "null", "bool", "int", "float", "string", "array",
    "object", "callable", "iterable", "resource", "self", "static", "parent",
    "true", "false",
    "Closure", "stdClass", "Countable", "ArrayAccess", "Traversable", "Iterator",
    "IteratorAggregate", "Stringable", "Throwable", "Exception", "Generator",
    "__invoke", "__toString", "__get", "__set", "__call",
    "id", "name", "value", "key", "type", "data", "items", "count"]

def withCommonWords (v : Vocabulary) : Vocabulary :=
  v.enterAll commonWords

end Vocabulary
end Text
end GradualTypes
