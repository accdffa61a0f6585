/-!
# Integer intervals

An interval has an optional lower and an optional upper bound, both inclusive;
a missing bound is infinite.  The bounds are mathematical integers, so adjacency
at the ends of a machine word needs no special case.
-/

namespace GradualTypes

structure IntRange where
  lo : Option Int
  hi : Option Int
deriving DecidableEq, Hashable, Repr, Inhabited

namespace IntRange

/-- Whether a lower bound, minus infinity if missing, is at most an upper bound,
plus infinity if missing, that has been moved up by `slack`. -/
def below (slack : Int) : Option Int -> Option Int -> Bool
  | some lo, some hi => decide (lo ≤ hi + slack)
  | _, _ => true

/-- Whether the bounds are inverted, so that no integer lies between them. -/
def isEmpty (r : IntRange) : Bool :=
  !below 0 r.lo r.hi

def contains (r : IntRange) (n : Int) : Bool :=
  below 0 r.lo (some n) && below 0 (some n) r.hi

def within (r outer : IntRange) : Bool :=
  lowerWithin outer.lo r.lo && upperWithin r.hi outer.hi
where
  lowerWithin : Option Int -> Option Int -> Bool
    | none, _ => true
    | some _, none => false
    | some a, some b => decide (a ≤ b)
  upperWithin : Option Int -> Option Int -> Bool
    | _, none => true
    | none, some _ => false
    | some a, some b => decide (a ≤ b)

def overlaps (r s : IntRange) : Bool :=
  below 0 r.lo s.hi && below 0 s.lo r.hi

/-- Overlapping or adjacent, as `0..4` and `5..9` are. -/
def touches (r s : IntRange) : Bool :=
  below 1 r.lo s.hi && below 1 s.lo r.hi

def hull (r s : IntRange) : IntRange where
  lo := do return min (← r.lo) (← s.lo)
  hi := do return max (← r.hi) (← s.hi)

def meet (r s : IntRange) : IntRange where
  lo := r.lo.merge max s.lo
  hi := r.hi.merge min s.hi

/-- Order of intervals by lower bound, an open one first. -/
def startsBefore (r s : IntRange) : Bool :=
  match r.lo, s.lo with
  | none, _ => true
  | some _, none => false
  | some a, some b => decide (a ≤ b)

/-- Join each interval of a list that is sorted by lower bound with the one
before it while the two touch. -/
def joinTouching : List IntRange -> List IntRange
  | [] => []
  | r :: rest => go r rest
where
  go (last : IntRange) : List IntRange -> List IntRange
    | [] => [last]
    | r :: rest =>
        if last.touches r then go (last.hull r) rest
        else last :: go r rest

end IntRange
end GradualTypes
